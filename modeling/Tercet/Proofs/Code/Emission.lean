import Mathlib.Algebra.Order.Group.Multiset
import Mathlib.Tactic.Abel
import Tercet.Code.Lower

/-!
# `Tercet.Proofs.Code.Emission`: what lowering lays down

Lowering only ever adds code. `Emitter.Grows` says what a piece of lowering does to an
emitter apart from the instructions themselves: the code so far stays in front, the count of
temporaries does not fall, so many labels are named, and each label that is named is placed
once. `Stmt.places_lower` proves it of every statement. A program that defines no function
therefore has no label twice (`nodup_labels_lower`), and a jump has one place to go to.

What a statement places is put together from what its pieces place, by the rules of
`Emit.Places`. The proofs follow a lowering step by step through inversion: from
`(x >>= f) g = (b, g'')` comes the emitter between the two steps (`Emit.bind_eq_iff`). Every
emitter met on the way thus has a name, and positions in the final listing are the `counter`
of these emitters.
-/

set_option autoImplicit false

namespace Tercet

/-- The name of a temporary. -/
def temporary (n : Nat) : String :=
  "t" ++ toString n

/-- The name of a label. -/
def labelName (n : Nat) : String :=
  "L" ++ toString n

/-- Whether a temporary has this name. -/
def IsTemporary (x : String) : Prop :=
  ∃ n, x = temporary n

/-- Digits can be read back, so no two numbers are written alike. -/
theorem toString_injective {m n : Nat} (h : toString m = toString n) : m = n := by
  have hdigits : Nat.toDigits 10 m = Nat.toDigits 10 n := by
    rw [← Nat.toList_repr, ← Nat.toList_repr]
    exact congrArg String.toList h
  rw [← Nat.ofDigitChars_ten_toDigits (n := m), hdigits, Nat.ofDigitChars_ten_toDigits]

/-- Different temporaries have different names. -/
theorem temporary_inj {m n : Nat} : temporary m = temporary n ↔ m = n := by
  constructor
  · intro h
    exact toString_injective ((String.append_right_inj "t").mp h)
  · rintro rfl
    rfl

/-- Whether the text is a `t` before digits. -/
def hasTemporaryForm (x : String) : Bool :=
  match x.toList with
  | 't' :: d :: digits => (d :: digits).all Char.isDigit
  | _ => false

/-- Temporaries are named by digits, so other names are easily told from them. -/
theorem hasTemporaryForm_of_isTemporary {x : String} (h : IsTemporary x) :
    hasTemporaryForm x = true := by
  obtain ⟨n, rfl⟩ := h
  have htext : (temporary n).toList = 't' :: Nat.toDigits 10 n := by
    rw [temporary, String.toList_append, ← Nat.toList_repr]
    rfl
  have hdigits : ∀ c ∈ Nat.toDigits 10 n, c.isDigit = true := fun c hc =>
    Nat.isDigit_of_mem_toDigits (by omega) (by omega) hc
  unfold hasTemporaryForm
  rw [htext]
  cases hcs : Nat.toDigits 10 n with
  | nil => exact absurd hcs Nat.toDigits_ne_nil
  | cons d digits =>
      rw [hcs] at hdigits
      exact List.all_eq_true.mpr hdigits

/-- The form can be checked by evaluation, where being a temporary is an existence. -/
theorem not_isTemporary {x : String} (h : hasTemporaryForm x = false) : ¬ IsTemporary x := by
  intro htemp
  rw [hasTemporaryForm_of_isTemporary htemp] at h
  cases h

/-- Different labels have different names. -/
theorem labelName_injective : Function.Injective labelName := by
  intro m n h
  exact toString_injective ((String.append_right_inj "L").mp h)

/-- The name of the label that an instruction places. -/
def Instr.label? : Instr → Option String
  | .label name => some name
  | _ => none

/-- The labels that a listing places, in their order. -/
def labelsOf (code : List Instr) : List String :=
  code.filterMap Instr.label?

mutual

/-- The functions that a statement defines. -/
def Stmt.functionNames : Stmt → List String
  | .block body _ => functionNamesAll body
  | .ifThen _ body _ => body.functionNames
  | .ifElse _ onTrue onFalse _ => onTrue.functionNames ++ onFalse.functionNames
  | .whileLoop _ body _ => body.functionNames
  | .forLoop _ _ _ body _ => body.functionNames
  | .function signature body _ => signature.name :: functionNamesAll body
  | .declaration _ | .assignment _ | .prototype _ | .result _ _ => []

/-- The functions that a row of statements defines. -/
def functionNamesAll : List Stmt → List String
  | [] => []
  | s :: more => s.functionNames ++ functionNamesAll more

end

/-- The functions that a program defines, at any depth. -/
def Program.functionNames (p : Program) : List String :=
  functionNamesAll p.body

mutual

/-- How many labels the code of a statement needs: one for a branch without an alternative,
two for any other branch and for each loop. -/
def Stmt.labelCount : Stmt → Nat
  | .block body _ => labelCountAll body
  | .ifThen _ body _ => 1 + body.labelCount
  | .ifElse _ onTrue onFalse _ => 2 + (onTrue.labelCount + onFalse.labelCount)
  | .whileLoop _ body _ => 2 + body.labelCount
  | .forLoop _ _ _ body _ => 2 + body.labelCount
  | .function _ body _ => labelCountAll body
  | .declaration _ | .assignment _ | .prototype _ | .result _ _ => 0

/-- How many labels the code of a row of statements needs. -/
def labelCountAll : List Stmt → Nat
  | [] => 0
  | s :: more => s.labelCount + labelCountAll more

end

namespace Emitter

/-- The position of the next instruction. -/
def counter (g : Emitter) : Nat :=
  g.instructions.length

/-- The emitter after one more instruction. -/
def emit (g : Emitter) (i : Instr) : Emitter :=
  { g with code := g.code.push (g.depth, i) }

@[simp] theorem instructions_emit (g : Emitter) (i : Instr) :
    (g.emit i).instructions = g.instructions ++ [i] := by
  simp [emit, instructions]

@[simp] theorem counter_emit (g : Emitter) (i : Instr) :
    (g.emit i).counter = g.counter + 1 := by
  simp [counter]

/-- The labels placed so far. -/
def placed (g : Emitter) : Multiset String :=
  labelsOf g.instructions

end Emitter

/-- The labels with `n` numbers from `first` on. -/
def labelNames (first n : Nat) : Multiset String :=
  (List.range' first n).map labelName

@[simp] theorem labelNames_zero (first : Nat) : labelNames first 0 = 0 := rfl

/-- The labels of two runs of numbers, one behind the other, are those of the whole run. -/
theorem labelNames_add (first m n : Nat) :
    labelNames first (m + n) = labelNames first m + labelNames (first + m) n := by
  rw [labelNames, labelNames, labelNames, Multiset.coe_add, ← List.map_append,
    List.range'_append_1]

/-- The first label taken apart from the others. -/
theorem labelNames_one_add (first n : Nat) :
    labelNames first (1 + n) = {labelName first} + labelNames (first + 1) n :=
  labelNames_add first 1 n

namespace Emitter

/-- What a piece of lowering does to an emitter: code is added behind, `n` labels are named,
and the labels of `names` are placed. -/
structure Grows (g g' : Emitter) (n : Nat) (names : Multiset String) : Prop where
  code : g.instructions <+: g'.instructions
  temps : g.temps ≤ g'.temps
  labels : g'.labels = g.labels + n
  placed : g'.placed = g.placed + names

/-- Doing nothing adds nothing. -/
theorem Grows.refl (g : Emitter) : g.Grows g 0 0 where
  code := List.prefix_refl _
  temps := Nat.le_refl _
  labels := rfl
  placed := (add_zero _).symm

/-- What is named and placed on two stretches adds up. -/
theorem Grows.trans {g g' g'' : Emitter} {m n : Nat} {a b : Multiset String}
    (h : g.Grows g' m a) (h' : g'.Grows g'' n b) : g.Grows g'' (m + n) (a + b) where
  code := h.code.trans h'.code
  temps := h.temps.trans h'.temps
  labels := by rw [h'.labels, h.labels, Nat.add_assoc]
  placed := by rw [h'.placed, h.placed, add_assoc]

/-- Counts and labels may be written in another form. -/
theorem Grows.of_eq {g g' : Emitter} {m n : Nat} {a b : Multiset String}
    (h : g.Grows g' m a) (hn : m = n) (hab : a = b) : g.Grows g' n b :=
  hn ▸ hab ▸ h

/-- One instruction places a label exactly if it is one. -/
theorem grows_emit (g : Emitter) (i : Instr) : g.Grows (g.emit i) 0 (labelsOf [i]) where
  code := by rw [instructions_emit]; exact List.prefix_append _ _
  temps := Nat.le_refl _
  labels := rfl
  placed := by
    rw [placed, instructions_emit, labelsOf, List.filterMap_append, ← Multiset.coe_add]
    rfl

end Emitter

/-! ### Steps of lowering, inverted -/

namespace Emit

variable {α β : Type} {g g' : Emitter}

/-- Between two steps there is an emitter, and it has a name from here on. -/
theorem bind_eq_iff {x : Emit α} {f : α → Emit β} {b : β} :
    (x >>= f) g = (b, g') ↔ ∃ a g₁, x g = (a, g₁) ∧ f a g₁ = (b, g') := by
  constructor
  · intro h
    exact ⟨(x g).1, (x g).2, rfl, h⟩
  · rintro ⟨a, g₁, hx, hf⟩
    show f (x g).1 (x g).2 = _
    rw [hx]
    exact hf

/-- A result by itself leaves the emitter. -/
theorem pure_eq_iff {a b : α} : (pure a : Emit α) g = (b, g') ↔ a = b ∧ g = g' := by
  rw [← Prod.mk.injEq]
  rfl

/-- A new temporary has the next number. -/
theorem newTemp_eq_iff {t : String} :
    newTemp g = (t, g') ↔ temporary g.temps = t ∧ { g with temps := g.temps + 1 } = g' := by
  rw [← Prod.mk.injEq]
  rfl

/-- A new label has the next number. It is named and not placed yet. -/
theorem newLabel_eq_iff {l : String} :
    newLabel g = (l, g') ↔ labelName g.labels = l ∧ { g with labels := g.labels + 1 } = g' := by
  rw [← Prod.mk.injEq]
  rfl

/-- An instruction is put behind the others. -/
theorem instr_eq_iff {i : Instr} {u : Unit} : instr i g = (u, g') ↔ g.emit i = g' := by
  constructor
  · intro h
    exact congrArg Prod.snd h
  · rintro rfl
    rfl

/-- Indenting changes the depth alone, on the way in and on the way out. -/
theorem indented_eq_iff {body : Emit Unit} {u : Unit} :
    body.indented g = (u, g') ↔
      ∃ g₁, body { g with depth := g.depth + 1 } = ((), g₁) ∧
        { g₁ with depth := g₁.depth - 1 } = g' := by
  constructor
  · intro h
    exact ⟨_, rfl, congrArg Prod.snd h⟩
  · rintro ⟨g₁, hbody, rfl⟩
    show ((), _) = _
    rw [hbody]

end Emit

/-! ### Every piece of lowering grows the code -/

open Emit Emitter

/-- A new temporary is no code. -/
theorem grows_newTemp {g g' : Emitter} {t : String} (h : newTemp g = (t, g')) :
    g.Grows g' 0 0 := by
  obtain ⟨_, rfl⟩ := newTemp_eq_iff.mp h
  exact { Grows.refl g with temps := Nat.le_succ _ }

/-- Joining two operands takes a temporary and one instruction. -/
theorem grows_join {g g' : Emitter} {l r t : String} {op : BinaryOp}
    (h : join l op r g = (t, g')) : g.Grows g' 0 0 := by
  obtain ⟨t, g₁, ht, h⟩ := bind_eq_iff.mp h
  obtain ⟨_, g₂, hi, h⟩ := bind_eq_iff.mp h
  obtain ⟨_, rfl⟩ := pure_eq_iff.mp h
  rw [← instr_eq_iff.mp hi]
  exact (grows_newTemp ht).trans (grows_emit _ _)

/-- Parameters are passed by one instruction each. -/
theorem grows_params {vs : List String} {g g' : Emitter} {u : Unit}
    (h : (vs.forM fun v => instr (.param v)) g = (u, g')) : g.Grows g' 0 0 := by
  induction vs generalizing g with
  | nil =>
      obtain ⟨_, rfl⟩ := pure_eq_iff.mp h
      exact Grows.refl g
  | cons v vs ih =>
      obtain ⟨_, g₁, hv, h⟩ := bind_eq_iff.mp h
      have hg := grows_emit g (.param v)
      rw [instr_eq_iff.mp hv] at hg
      exact hg.trans (ih h)

mutual

/-- Expressions name no labels at all, so they place none. -/
theorem Expr.grows_lower {e : Expr} {g g' : Emitter} {r : String}
    (h : e.lower g = (r, g')) : g.Grows g' 0 0 := by
  match e with
  | .term t => exact t.grows_lower h
  | .binary left op right =>
    obtain ⟨_, g₁, hl, h⟩ := bind_eq_iff.mp h
    obtain ⟨_, g₂, hr, h⟩ := bind_eq_iff.mp h
    exact ((left.grows_lower hl).trans (right.grows_lower hr)).trans (grows_join h)

/-- Terms are lowered in the same way as expressions. -/
theorem Term.grows_lower {t : Term} {g g' : Emitter} {r : String}
    (h : t.lower g = (r, g')) : g.Grows g' 0 0 := by
  match t with
  | .factor f => exact f.grows_lower h
  | .binary left op right =>
    obtain ⟨_, g₁, hl, h⟩ := bind_eq_iff.mp h
    obtain ⟨_, g₂, hr, h⟩ := bind_eq_iff.mp h
    exact ((left.grows_lower hl).trans (right.grows_lower hr)).trans (grows_join h)

/-- A name or a number is an operand by itself and needs no code. -/
theorem Factor.grows_lower {f : Factor} {g g' : Emitter} {r : String}
    (h : f.lower g = (r, g')) : g.Grows g' 0 0 := by
  match f with
  | .number _ _ | .ident _ _ =>
    obtain ⟨_, rfl⟩ := pure_eq_iff.mp h
    exact Grows.refl g
  | .group inner _ => exact inner.grows_lower h
  -- the arguments are lowered first, then all are passed, then the call is made
  | .call name arguments _ =>
    obtain ⟨_, g₁, hargs, h⟩ := bind_eq_iff.mp h
    obtain ⟨_, g₂, hparams, h⟩ := bind_eq_iff.mp h
    obtain ⟨_, g₃, ht, h⟩ := bind_eq_iff.mp h
    obtain ⟨_, g₄, hcall, h⟩ := bind_eq_iff.mp h
    obtain ⟨_, rfl⟩ := pure_eq_iff.mp h
    rw [← instr_eq_iff.mp hcall]
    exact (((grows_lowerArguments hargs).trans (grows_params hparams)).trans
      (grows_newTemp ht)).trans (grows_emit _ _)

/-- All arguments of a call are lowered from left to right. -/
theorem grows_lowerArguments {es : List Expr} {g g' : Emitter} {rs : List String}
    (h : lowerArguments es g = (rs, g')) : g.Grows g' 0 0 := by
  match es with
  | [] =>
    obtain ⟨_, rfl⟩ := pure_eq_iff.mp h
    exact Grows.refl g
  | e :: es =>
    obtain ⟨_, g₁, he, h⟩ := bind_eq_iff.mp h
    obtain ⟨_, g₂, hes, h⟩ := bind_eq_iff.mp h
    obtain ⟨_, rfl⟩ := pure_eq_iff.mp h
    exact (e.grows_lower he).trans (grows_lowerArguments hes)

end

/-- A store is one instruction, or two if it joins. -/
theorem grows_store {g g' : Emitter} {target value : String} {op : AssignOp} {u : Unit}
    (h : store target op value g = (u, g')) : g.Grows g' 0 0 := by
  cases hop : op.binary? with
  | none =>
    simp only [store, hop] at h
    rw [← instr_eq_iff.mp h]
    exact grows_emit _ _
  | some binary =>
    simp only [store, hop] at h
    obtain ⟨_, g₁, hjoin, h⟩ := bind_eq_iff.mp h
    rw [← instr_eq_iff.mp h]
    exact (grows_join hjoin).trans (grows_emit _ _)

/-- A declared name without an initializer leaves an instruction too. -/
theorem Declarator.grows_lower {d : Declarator} {g g' : Emitter} {u : Unit}
    (h : d.lower g = (u, g')) : g.Grows g' 0 0 := by
  obtain ⟨name, initializer⟩ := d
  cases initializer with
  | none =>
    rw [← instr_eq_iff.mp h]
    exact grows_emit _ _
  | some e =>
    obtain ⟨_, g₁, he, h⟩ := bind_eq_iff.mp h
    rw [← instr_eq_iff.mp h]
    exact (e.grows_lower he).trans (grows_emit _ _)

/-- The names of a declaration, by induction on them. -/
theorem grows_lowerDeclarators {ds : List Declarator} {g g' : Emitter} {u : Unit}
    (h : ds.forM Declarator.lower g = (u, g')) : g.Grows g' 0 0 := by
  induction ds generalizing g with
  | nil =>
      obtain ⟨_, rfl⟩ := pure_eq_iff.mp h
      exact Grows.refl g
  | cons d ds ih =>
      obtain ⟨_, g₁, hd, h⟩ := bind_eq_iff.mp h
      exact (d.grows_lower hd).trans (ih h)

/-- An assignment is the code of its value and a store. -/
theorem Assignment.grows_lower {a : Assignment} {g g' : Emitter} {u : Unit}
    (h : a.lower g = (u, g')) : g.Grows g' 0 0 := by
  obtain ⟨_, g₁, he, h⟩ := bind_eq_iff.mp h
  exact (Expr.grows_lower he).trans (grows_store h)

/-- The start of a loop is lowered as what it is. -/
theorem ForInit.grows_lower {init : Option ForInit} {g g' : Emitter} {u : Unit}
    (h : ForInit.lower init g = (u, g')) : g.Grows g' 0 0 := by
  match init with
  | some (.declaration d) => exact grows_lowerDeclarators h
  | some (.assignment a) => exact a.grows_lower h
  | none =>
    obtain ⟨_, rfl⟩ := pure_eq_iff.mp h
    exact Grows.refl g

/-- A step by one is a store that joins. -/
theorem ForStep.grows_lower {step : Option ForStep} {g g' : Emitter} {u : Unit}
    (h : ForStep.lower step g = (u, g')) : g.Grows g' 0 0 := by
  match step with
  | some (.increment target _) =>
    rw [ForStep.lower] at h
    exact grows_store h
  | some (.decrement target _) =>
    rw [ForStep.lower] at h
    exact grows_store h
  | some (.assignment a) => exact a.grows_lower h
  | none =>
    obtain ⟨_, rfl⟩ := pure_eq_iff.mp h
    exact Grows.refl g

/-- A jump names its label but does not place it. -/
theorem grows_unlessGoto {e : Expr} {label : String} {g g' : Emitter} {u : Unit}
    (h : unlessGoto e label g = (u, g')) : g.Grows g' 0 0 := by
  obtain ⟨_, g₁, he, h⟩ := bind_eq_iff.mp h
  rw [← instr_eq_iff.mp h]
  exact (Expr.grows_lower he).trans (grows_emit _ _)

/-- Jumps to a label unless the condition of a counted loop holds. -/
def Emit.unlessHolds (condition : Option Expr) (label : String) : Emit Unit :=
  match condition with
  | some e => unlessGoto e label
  | none => pure ()

/-- A counted loop, with its test as a step of its own. -/
theorem Stmt.lower_forLoop (init : Option ForInit) (condition : Option Expr)
    (step : Option ForStep) (body : Stmt) (line : Nat) :
    (Stmt.forLoop init condition step body line).lower = (do
      let start ← newLabel
      let done ← newLabel
      ForInit.lower init
      instr (.label start)
      indented do
        unlessHolds condition done
        body.lower
        ForStep.lower step
        instr (.goto start)
      instr (.label done)) := by
  cases condition <;> rfl

/-- A condition that is left out has no jump. -/
theorem grows_unlessHolds {condition : Option Expr} {label : String} {g g' : Emitter}
    {u : Unit} (h : unlessHolds condition label g = (u, g')) : g.Grows g' 0 0 := by
  match condition with
  | some e => exact grows_unlessGoto h
  | none =>
    obtain ⟨_, rfl⟩ := pure_eq_iff.mp h
    exact Grows.refl g

/-! ### Labels that lowering names and places -/

/-- Naming a label counts it, and placing it comes later. -/
theorem grows_newLabel {g g' : Emitter} {l : String} (h : newLabel g = (l, g')) :
    g.Grows g' 1 0 := by
  obtain ⟨_, rfl⟩ := newLabel_eq_iff.mp h
  exact { Grows.refl g with labels := rfl }

/-- The next `n` labels are named, and each of them is placed once, beside those of `names`. -/
def Emit.Places (x : Emit Unit) (n : Nat) (names : Multiset String) : Prop :=
  ∀ ⦃g g' : Emitter⦄ ⦃u : Unit⦄, x g = (u, g') → g.Grows g' n (labelNames g.labels n + names)

namespace Emit.Places

variable {x y : Emit Unit} {m n : Nat} {a b : Multiset String}

/-- Code without labels. -/
theorem of_grows (x : Emit Unit)
    (h : ∀ {g g' : Emitter} {u : Unit}, x g = (u, g') → g.Grows g' 0 0) : x.Places 0 0 :=
  fun _ _ _ hx => h hx

/-- A label that is placed is one that has been named before, so it is not counted again. -/
theorem label (l : String) : (instr (.label l)).Places 0 {l} := by
  intro g g' u h
  rw [← instr_eq_iff.mp h, labelNames_zero, zero_add]
  exact grows_emit g (.label l)

/-- A jump places nothing. -/
theorem goto (l : String) : (instr (.goto l)).Places 0 0 := by
  intro g g' u h
  rw [← instr_eq_iff.mp h]
  exact grows_emit g (.goto l)

/-- Pieces of code in a row name labels from where the one before has stopped. -/
theorem bind (hx : x.Places m a) (hy : y.Places n b) :
    Places (x >>= fun _ => y) (m + n) (a + b) := by
  intro g g' u h
  obtain ⟨_, g₁, hg₁, h⟩ := bind_eq_iff.mp h
  have hfirst := hx hg₁
  refine (hfirst.trans (hy h)).of_eq rfl ?_
  rw [hfirst.labels, labelNames_add]
  abel

/-- Indenting changes nothing that counts. -/
theorem indented (hx : x.Places n a) : x.indented.Places n a := by
  intro g g' u h
  obtain ⟨g₁, hin, rfl⟩ := indented_eq_iff.mp h
  have hg := hx hin
  exact ⟨hg.code, hg.temps, hg.labels, hg.placed⟩

/-- A label that is named for a piece of code which places it once. -/
theorem newLabel {f : String → Emit Unit} {placed : String → Multiset String}
    (hf : ∀ l, (f l).Places n (placed l)) (hplaced : ∀ l, placed l = {l} + a) :
    Places (Emit.newLabel >>= f) (1 + n) a := by
  intro g g' u h
  obtain ⟨l, g₁, hl, h⟩ := bind_eq_iff.mp h
  have hg₁ := grows_newLabel hl
  refine (hg₁.trans (hf l h)).of_eq rfl ?_
  rw [hplaced, hg₁.labels, labelNames_one_add, ← (newLabel_eq_iff.mp hl).1]
  abel

/-- Counts and labels may be written in another form. -/
theorem of_eq (hx : x.Places m a) (hmn : m = n) (hab : a = b) : x.Places n b :=
  hmn ▸ hab ▸ hx

end Emit.Places

mutual

/-- A statement names the labels it needs, and places each of them once, beside the entries
of the functions it defines. -/
theorem Stmt.places_lower (s : Stmt) : s.lower.Places s.labelCount s.functionNames := by
  match s with
  | .block body _ => exact places_lowerAll body
  | .declaration _ => exact .of_grows _ grows_lowerDeclarators
  | .assignment a => exact .of_grows _ a.grows_lower
  | .ifThen condition body _ =>
    have hcode (done : String) :=
      (Places.of_grows (unlessGoto condition done) grows_unlessGoto).bind
        (body.places_lower.indented.bind (.label done))
    refine (Places.newLabel hcode fun done => ?_).of_eq ?_ rfl
    · rw [Stmt.functionNames]
      abel
    · rw [Stmt.labelCount]
      omega
  | .ifElse condition onTrue onFalse _ =>
    have hcode (other done : String) :=
      (Places.of_grows (unlessGoto condition other) grows_unlessGoto).bind
        ((onTrue.places_lower.bind (.goto done)).indented.bind
          ((Places.label other).bind (onFalse.places_lower.indented.bind (.label done))))
    -- the label of the end is named last, so it is taken out of what is placed first
    have hnamed (other : String) := Places.newLabel (hcode other)
      (a := {other} + (onTrue.functionNames + onFalse.functionNames)) fun done => by abel
    refine (Places.newLabel hnamed fun other => ?_).of_eq ?_ rfl
    · rw [Stmt.functionNames, ← Multiset.coe_add]
    · rw [Stmt.labelCount]
      omega
  | .whileLoop condition body _ =>
    -- one round: the test, the body and the jump back
    have hround (start done : String) :=
      (Places.of_grows (unlessGoto condition done) grows_unlessGoto).bind
        (body.places_lower.bind (.goto start))
    have hnamed (start : String) := Places.newLabel
      (fun done => (Places.label start).bind ((hround start done).indented.bind (.label done)))
      (a := {start} + body.functionNames) fun done => by abel
    refine (Places.newLabel hnamed fun start => ?_).of_eq ?_ rfl
    · rw [Stmt.functionNames]
    · rw [Stmt.labelCount]
      omega
  | .forLoop init condition step body _ =>
    rw [Stmt.lower_forLoop]
    have hround (start done : String) :=
      (Places.of_grows (unlessHolds condition done) grows_unlessHolds).bind
        (body.places_lower.bind
          ((Places.of_grows (ForStep.lower step) ForStep.grows_lower).bind (.goto start)))
    have hnamed (start : String) := Places.newLabel
      (fun done => (Places.of_grows (ForInit.lower init) ForInit.grows_lower).bind
        ((Places.label start).bind ((hround start done).indented.bind (.label done))))
      (a := {start} + body.functionNames) fun done => by abel
    refine (Places.newLabel hnamed fun start => ?_).of_eq ?_ rfl
    · rw [Stmt.functionNames]
    · rw [Stmt.labelCount]
      omega
  -- the entry of a function is a label by its name, which has no number
  | .function signature body _ =>
    refine ((Places.label signature.name).bind (places_lowerAll body).indented).of_eq ?_ ?_
    · rw [Stmt.labelCount, Nat.zero_add]
    · rw [Stmt.functionNames, ← Multiset.cons_coe, Multiset.singleton_add]
  | .prototype _ =>
    refine .of_grows _ fun {g g' u} h => ?_
    obtain ⟨_, rfl⟩ := pure_eq_iff.mp h
    exact Grows.refl g
  | .result none _ =>
    refine .of_grows _ fun {g g' u} h => ?_
    rw [← instr_eq_iff.mp h]
    exact grows_emit _ _
  | .result (some e) _ =>
    refine .of_grows _ fun {g g' u} h => ?_
    obtain ⟨_, g₁, he, h⟩ := bind_eq_iff.mp h
    rw [← instr_eq_iff.mp h]
    exact (e.grows_lower he).trans (grows_emit _ _)

/-- A row of statements names and places the labels that its statements need. -/
theorem places_lowerAll (row : List Stmt) :
    (lowerAll row).Places (labelCountAll row) (functionNamesAll row) := by
  match row with
  | [] =>
    refine .of_grows _ fun {g g' u} h => ?_
    obtain ⟨_, rfl⟩ := pure_eq_iff.mp h
    exact Grows.refl g
  | s :: more =>
    refine (s.places_lower.bind (places_lowerAll more)).of_eq rfl ?_
    rw [functionNamesAll, ← Multiset.coe_add]

end

/-- A program that defines no function places no label twice. -/
theorem nodup_labels_lower (p : Program) (h : p.functionNames = []) :
    (labelsOf p.lower.instructions).Nodup := by
  have hg : Emitter.empty.Grows p.lower _ _ := places_lowerAll p.body rfl
  have hplaced := hg.placed
  rw [show functionNamesAll p.body = [] from h] at hplaced
  rw [← Multiset.coe_nodup]
  show p.lower.placed.Nodup
  rw [hplaced]
  show (0 + (labelNames 0 (labelCountAll p.body) + 0)).Nodup
  rw [zero_add, add_zero, labelNames, Multiset.coe_nodup]
  exact List.Nodup.map labelName_injective List.nodup_range'

end Tercet
