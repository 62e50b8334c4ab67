import Tercet.Proofs.Code.Emission
import Tercet.Proofs.Tree.Spelling

/-!
# `Tercet.Proofs.Code.Listing`: the code of a tree as a list

Lowering is a run of an emitter. What it lays down depends on the emitter in two numbers
alone: the next temporary and the next label. So the code of every tree can be written down
as a list, by recursion on the tree, and this module does that: `Stmt.code t l` is the code of
a statement from temporary `t` and label `l` on. `Stmt.lays_lower` proves that it is what
lowering lays down, and `instructions_lower` says so of a whole program.

The numbers move on by what a tree needs. `Stmt.temporaryCount` counts one temporary for each
operator, each call, each assignment that joins a value to the old one and each step up or
down of a counted loop; `Stmt.labelCount` counts the labels. Facts on the listing of a program
are proved on these lists, by induction on the tree, and no emitter is met again.
-/

set_option autoImplicit false

namespace Tercet

open Emit

/-! ### Expressions -/

mutual

/-- How many temporaries an expression needs: one for each operator and each call. -/
def Expr.temporaryCount : Expr → Nat
  | .term t => t.temporaryCount
  | .binary left _ right => left.temporaryCount + (right.temporaryCount + 1)

/-- How many temporaries a term needs. -/
def Term.temporaryCount : Term → Nat
  | .factor f => f.temporaryCount
  | .binary left _ right => left.temporaryCount + (right.temporaryCount + 1)

/-- How many temporaries a factor needs. -/
def Factor.temporaryCount : Factor → Nat
  | .number _ _ | .ident _ _ => 0
  | .call _ arguments _ => argumentTemporaryCount arguments + 1
  | .group inner _ => inner.temporaryCount

/-- How many temporaries the arguments of a call need. -/
def argumentTemporaryCount : List Expr → Nat
  | [] => 0
  | e :: es => e.temporaryCount + argumentTemporaryCount es

end

mutual

/-- The operand that holds the value of an expression. -/
def Expr.operand (t : Nat) : Expr → String
  | .term x => x.operand t
  | .binary left _ right => temporary (t + left.temporaryCount + right.temporaryCount)

/-- The operand that holds the value of a term. -/
def Term.operand (t : Nat) : Term → String
  | .factor f => f.operand t
  | .binary left _ right => temporary (t + left.temporaryCount + right.temporaryCount)

/-- The operand that holds the value of a factor. -/
def Factor.operand (t : Nat) : Factor → String
  | .number text _ => text
  | .ident name _ => name
  | .call _ arguments _ => temporary (t + argumentTemporaryCount arguments)
  | .group inner _ => inner.operand t

end

/-- The operands that hold the values of the arguments of a call. -/
def argumentOperands (t : Nat) : List Expr → List String
  | [] => []
  | e :: es => e.operand t :: argumentOperands (t + e.temporaryCount) es

mutual

/-- The code of an expression, from temporary `t` on. -/
def Expr.code (t : Nat) : Expr → List Instr
  | .term x => x.code t
  | .binary left op right =>
    left.code t ++ (right.code (t + left.temporaryCount) ++
      [.binary (temporary (t + left.temporaryCount + right.temporaryCount)) (left.operand t) op
        (right.operand (t + left.temporaryCount))])

/-- The code of a term, from temporary `t` on. -/
def Term.code (t : Nat) : Term → List Instr
  | .factor f => f.code t
  | .binary left op right =>
    left.code t ++ (right.code (t + left.temporaryCount) ++
      [.binary (temporary (t + left.temporaryCount + right.temporaryCount)) (left.operand t) op
        (right.operand (t + left.temporaryCount))])

/-- The code of a factor, from temporary `t` on. -/
def Factor.code (t : Nat) : Factor → List Instr
  | .number _ _ | .ident _ _ => []
  | .call name arguments _ =>
    argumentCode t arguments ++ ((argumentOperands t arguments).map .param ++
      [.call (temporary (t + argumentTemporaryCount arguments)) name])
  | .group inner _ => inner.code t

/-- The code of the arguments of a call, from temporary `t` on. -/
def argumentCode (t : Nat) : List Expr → List Instr
  | [] => []
  | e :: es => e.code t ++ argumentCode (t + e.temporaryCount) es

end

/-! ### Parts of statements -/

/-- How many temporaries a store needs: one if the value is joined to the old one. -/
def AssignOp.temporaryCount (op : AssignOp) : Nat :=
  match op.joined? with
  | none => 0
  | some _ => 1

/-- The code that stores an operand. -/
def storeCode (t : Nat) (target : String) (op : AssignOp) (value : String) : List Instr :=
  match op.joined? with
  | none => [.copy target value]
  | some binary => [.binary (temporary t) target binary value, .copy target (temporary t)]

/-- How many temporaries an assignment needs. -/
def Assignment.temporaryCount (a : Assignment) : Nat :=
  a.value.temporaryCount + a.op.temporaryCount

/-- The code of an assignment. -/
def Assignment.code (t : Nat) (a : Assignment) : List Instr :=
  a.value.code t ++
    storeCode (t + a.value.temporaryCount) a.target a.op (a.value.operand t)

/-- How many temporaries a declared name needs. -/
def Declarator.temporaryCount (d : Declarator) : Nat :=
  match d.initializer with
  | none => 0
  | some e => e.temporaryCount

/-- The code of a declared name. -/
def Declarator.code (t : Nat) (d : Declarator) : List Instr :=
  match d.initializer with
  | none => [.declare d.name]
  | some e => e.code t ++ [.copy d.name (e.operand t)]

/-- How many temporaries a row of declared names needs. -/
def declaratorTemporaryCount : List Declarator → Nat
  | [] => 0
  | d :: ds => d.temporaryCount + declaratorTemporaryCount ds

/-- The code of a row of declared names. -/
def declaratorCode (t : Nat) : List Declarator → List Instr
  | [] => []
  | d :: ds => d.code t ++ declaratorCode (t + d.temporaryCount) ds

/-- How many temporaries a declaration needs. -/
def Declaration.temporaryCount (d : Declaration) : Nat :=
  declaratorTemporaryCount d.declarators

/-- The code of a declaration. -/
def Declaration.code (t : Nat) (d : Declaration) : List Instr :=
  declaratorCode t d.declarators

/-- How many temporaries the start of a counted loop needs. -/
def ForInit.temporaryCount : Option ForInit → Nat
  | some (.declaration d) => d.temporaryCount
  | some (.assignment a) => a.temporaryCount
  | none => 0

/-- The code of the start of a counted loop. -/
def ForInit.code (t : Nat) : Option ForInit → List Instr
  | some (.declaration d) => d.code t
  | some (.assignment a) => a.code t
  | none => []

/-- How many temporaries the step of a counted loop needs. -/
def ForStep.temporaryCount : Option ForStep → Nat
  | some (.increment _ _) | some (.decrement _ _) => 1
  | some (.assignment a) => a.temporaryCount
  | none => 0

/-- The code of the step of a counted loop. -/
def ForStep.code (t : Nat) : Option ForStep → List Instr
  | some (.increment target _) => storeCode t target .add "1"
  | some (.decrement target _) => storeCode t target .sub "1"
  | some (.assignment a) => a.code t
  | none => []

/-- How many temporaries a condition needs that may be left out. -/
def conditionTemporaryCount : Option Expr → Nat
  | some e => e.temporaryCount
  | none => 0

/-- The code that goes to a label unless an expression holds. -/
def testCode (t : Nat) (condition : Expr) (label : String) : List Instr :=
  condition.code t ++ [.ifNotGoto (condition.operand t) label]

/-- The code that goes to a label unless a condition holds; one that is left out always
does. -/
def conditionCode (t : Nat) (condition : Option Expr) (label : String) : List Instr :=
  match condition with
  | some e => testCode t e label
  | none => []

/-! ### Statements -/

mutual

/-- How many temporaries a statement needs. -/
def Stmt.temporaryCount : Stmt → Nat
  | .block body _ => temporaryCountAll body
  | .declaration d => d.temporaryCount
  | .assignment a => a.temporaryCount
  | .ifThen condition body _ => condition.temporaryCount + body.temporaryCount
  | .ifElse condition onTrue onFalse _ =>
    condition.temporaryCount + (onTrue.temporaryCount + onFalse.temporaryCount)
  | .whileLoop condition body _ => condition.temporaryCount + body.temporaryCount
  | .forLoop init condition step body _ =>
    ForInit.temporaryCount init + (conditionTemporaryCount condition +
      (body.temporaryCount + ForStep.temporaryCount step))
  | .function _ body _ => temporaryCountAll body
  | .prototype _ => 0
  | .result none _ => 0
  | .result (some e) _ => e.temporaryCount

/-- How many temporaries a row of statements needs. -/
def temporaryCountAll : List Stmt → Nat
  | [] => 0
  | s :: more => s.temporaryCount + temporaryCountAll more

end

mutual

/-- The code of a statement, from temporary `t` and label `l` on. -/
def Stmt.code (t l : Nat) : Stmt → List Instr
  | .block body _ => codeAll t l body
  | .declaration d => d.code t
  | .assignment a => a.code t
  | .ifThen condition body _ =>
    testCode t condition (labelName l) ++
      (body.code (t + condition.temporaryCount) (l + 1) ++ [.label (labelName l)])
  | .ifElse condition onTrue onFalse _ =>
    testCode t condition (labelName l) ++
      (onTrue.code (t + condition.temporaryCount) (l + 2) ++
        (.goto (labelName (l + 1)) :: .label (labelName l) ::
          (onFalse.code (t + condition.temporaryCount + onTrue.temporaryCount)
              (l + 2 + onTrue.labelCount) ++
            [.label (labelName (l + 1))])))
  | .whileLoop condition body _ =>
    .label (labelName l) ::
      (testCode t condition (labelName (l + 1)) ++
        (body.code (t + condition.temporaryCount) (l + 2) ++
          [.goto (labelName l), .label (labelName (l + 1))]))
  | .forLoop init condition step body _ =>
    let tested := t + ForInit.temporaryCount init + conditionTemporaryCount condition
    ForInit.code t init ++ .label (labelName l) ::
      (conditionCode (t + ForInit.temporaryCount init) condition (labelName (l + 1)) ++
        (body.code tested (l + 2) ++
          (ForStep.code (tested + body.temporaryCount) step ++
            [.goto (labelName l), .label (labelName (l + 1))])))
  | .function signature body _ => .label signature.name :: codeAll t l body
  | .prototype _ => []
  | .result none _ => [.result none]
  | .result (some e) _ => e.code t ++ [.result (some (e.operand t))]

/-- The code of a row of statements, from temporary `t` and label `l` on. -/
def codeAll (t l : Nat) : List Stmt → List Instr
  | [] => []
  | s :: more => s.code t l ++ codeAll (t + s.temporaryCount) (l + s.labelCount) more

end

/-- The listing of a program. -/
def Program.code (p : Program) : List Instr :=
  codeAll 0 0 p.body

/-- How many temporaries a program needs. -/
def Program.temporaryCount (p : Program) : Nat :=
  temporaryCountAll p.body

/-- How many labels a program needs. -/
def Program.labelCount (p : Program) : Nat :=
  labelCountAll p.body

/-! ### Lowering lays down the list -/

/-- At temporary `t` and label `l` the step answers `a`, lays down `code` and names `m`
temporaries and `n` labels. -/
def Emit.Lays {α : Type} (x : Emit α) (t l : Nat) (a : α) (code : List Instr) (m n : Nat) :
    Prop :=
  ∀ g : Emitter, g.temps = t → g.labels = l →
    ∃ g', x g = (a, g') ∧ g'.instructions = g.instructions ++ code ∧
      g'.temps = t + m ∧ g'.labels = l + n

namespace Emit.Lays

variable {α β : Type} {x : Emit α} {t l m n m' n' : Nat} {a : α} {b : β}
  {code code' : List Instr}

/-- A result by itself lays down nothing. -/
theorem pure (a : α) (t l : Nat) : Lays (Pure.pure a : Emit α) t l a [] 0 0 := by
  intro g ht hl
  exact ⟨g, rfl, (List.append_nil _).symm, ht, hl⟩

/-- What a second step lays down follows what the first one does, and its numbers go on from
there. -/
theorem bind {f : α → Emit β} (hx : x.Lays t l a code m n)
    (hf : (f a).Lays (t + m) (l + n) b code' m' n') :
    (x >>= f).Lays t l b (code ++ code') (m + m') (n + n') := by
  intro g ht hl
  obtain ⟨g₁, hx, hcode, ht₁, hl₁⟩ := hx g ht hl
  obtain ⟨g₂, hf, hcode', ht₂, hl₂⟩ := hf g₁ ht₁ hl₁
  refine ⟨g₂, bind_eq_iff.mpr ⟨a, g₁, hx, hf⟩, ?_, ?_, ?_⟩
  · rw [hcode', hcode, List.append_assoc]
  · omega
  · omega

/-- Code and counts may be written in another form. -/
theorem of_eq (hx : x.Lays t l a code m n) (hcode : code = code') (hm : m = m')
    (hn : n = n') : x.Lays t l a code' m' n' :=
  hcode ▸ hm ▸ hn ▸ hx

/-- A temporary is named without an instruction. -/
theorem newTemp (t l : Nat) : Lays Emit.newTemp t l (temporary t) [] 1 0 := by
  intro g ht hl
  refine ⟨_, newTemp_eq_iff.mpr ⟨by rw [ht], rfl⟩, (List.append_nil _).symm, ?_, hl⟩
  show g.temps + 1 = t + 1
  omega

/-- So is a label. -/
theorem newLabel (t l : Nat) : Lays Emit.newLabel t l (labelName l) [] 0 1 := by
  intro g ht hl
  refine ⟨_, newLabel_eq_iff.mpr ⟨by rw [hl], rfl⟩, (List.append_nil _).symm, ht, ?_⟩
  show g.labels + 1 = l + 1
  omega

/-- An instruction is laid down behind the others and names nothing. -/
theorem instr (i : Instr) (t l : Nat) : Lays (Emit.instr i) t l () [i] 0 0 := by
  intro g ht hl
  exact ⟨g.emit i, instr_eq_iff.mpr rfl, g.instructions_emit i, ht, hl⟩

/-- Depths are no part of what is laid down. -/
theorem indented {x : Emit Unit} (hx : x.Lays t l () code m n) :
    x.indented.Lays t l () code m n := by
  intro g ht hl
  obtain ⟨g', hx, hcode, ht', hl'⟩ := hx { g with depth := g.depth + 1 } ht hl
  exact ⟨_, indented_eq_iff.mpr ⟨g', hx, rfl⟩, hcode, ht', hl'⟩

/-- Two operands are joined into the next temporary. -/
theorem join (left : String) (op : BinaryOp) (right : String) (t l : Nat) :
    Lays (Emit.join left op right) t l (temporary t)
      [.binary (temporary t) left op right] 1 0 :=
  of_eq (bind (newTemp t l) (bind (instr _ _ _) (pure _ _ _))) rfl rfl rfl

/-- One instruction for each operand that is passed, by induction on them. -/
theorem params (values : List String) (t l : Nat) :
    Lays (values.forM fun v => Emit.instr (.param v)) t l () (values.map .param) 0 0 := by
  induction values with
  | nil => exact pure () t l
  | cons v values ih => exact of_eq (bind (instr (.param v) t l) ih) rfl rfl rfl

/-- A store lays down what the language says that its operator means, and the table of the emitter
agrees with that (`AssignOp.joined?_eq`). -/
theorem store (target : String) (op : AssignOp) (value : String) (t l : Nat) :
    Lays (Emit.store target op value) t l () (storeCode t target op value)
      op.temporaryCount 0 := by
  cases hop : op.binary? with
  | none =>
    simp only [Emit.store, storeCode, AssignOp.temporaryCount, op.joined?_eq, hop]
    exact instr _ t l
  | some binary =>
    simp only [Emit.store, storeCode, AssignOp.temporaryCount, op.joined?_eq, hop]
    exact of_eq (bind (join target binary value t l) (instr _ _ _)) rfl rfl rfl

end Emit.Lays

open Emit.Lays (of_eq bind)

mutual

/-- The operand of an expression, its code and its temporaries, all at once: left side, right side
and the join of the two. -/
theorem Expr.lays_lower (e : Expr) (t l : Nat) :
    e.lower.Lays t l (e.operand t) (e.code t) e.temporaryCount 0 := by
  cases e with
  | term x => exact x.lays_lower t l
  | binary left op right =>
    exact of_eq (bind (left.lays_lower t l) (bind (right.lays_lower _ _) (.join _ op _ _ _)))
      rfl rfl rfl

/-- The same for the chains of a term. -/
theorem Term.lays_lower (x : Term) (t l : Nat) :
    x.lower.Lays t l (x.operand t) (x.code t) x.temporaryCount 0 := by
  cases x with
  | factor f => exact f.lays_lower t l
  | binary left op right =>
    exact of_eq (bind (left.lays_lower t l) (bind (right.lays_lower _ _) (.join _ op _ _ _)))
      rfl rfl rfl

/-- Names and numbers are operands already. A call passes its arguments after all of them have
been computed. -/
theorem Factor.lays_lower (f : Factor) (t l : Nat) :
    f.lower.Lays t l (f.operand t) (f.code t) f.temporaryCount 0 := by
  match f with
  | .number text _ => exact .pure text t l
  | .ident name _ => exact .pure name t l
  | .group inner _ => exact inner.lays_lower t l
  | .call name arguments _ =>
    exact of_eq (bind (lays_lowerArguments arguments t l) (bind (.params _ _ _)
      (bind (.newTemp _ _) (bind (.instr _ _ _) (.pure _ _ _))))) rfl rfl rfl

/-- Arguments from left to right. Their operands are kept until all are there. -/
theorem lays_lowerArguments (es : List Expr) (t l : Nat) :
    (lowerArguments es).Lays t l (argumentOperands t es) (argumentCode t es)
      (argumentTemporaryCount es) 0 := by
  match es with
  | [] => exact .pure [] t l
  | e :: es =>
    refine of_eq (bind (e.lays_lower t l) (bind (lays_lowerArguments es _ _) (.pure _ _ _)))
      ?_ rfl rfl
    rw [List.append_nil, argumentCode]

end

/-- The store goes on with the temporaries after those of the value. -/
theorem Assignment.lays_lower (a : Assignment) (t l : Nat) :
    a.lower.Lays t l () (a.code t) a.temporaryCount 0 :=
  of_eq (bind (a.value.lays_lower t l) (.store _ _ _ _ _)) rfl rfl rfl

/-- A name without an initializer is only declared. -/
theorem Declarator.lays_lower (d : Declarator) (t l : Nat) :
    d.lower.Lays t l () (d.code t) d.temporaryCount 0 := by
  obtain ⟨name, initializer⟩ := d
  cases initializer with
  | none => exact .instr (.declare name) t l
  | some e => exact of_eq (bind (e.lays_lower t l) (.instr _ _ _)) rfl rfl rfl

/-- The names of a declaration, by induction on them, each from the next temporary on. -/
theorem lays_lowerDeclarators (ds : List Declarator) (t l : Nat) :
    (ds.forM Declarator.lower).Lays t l () (declaratorCode t ds)
      (declaratorTemporaryCount ds) 0 := by
  induction ds generalizing t with
  | nil => exact .pure () t l
  | cons d ds ih => exact of_eq (bind (d.lays_lower t l) (ih _)) rfl rfl rfl

/-- The start of a loop is laid down as what it is. -/
theorem ForInit.lays_lower (init : Option ForInit) (t l : Nat) :
    (ForInit.lower init).Lays t l () (ForInit.code t init) (ForInit.temporaryCount init) 0 := by
  match init with
  | some (.declaration d) => exact lays_lowerDeclarators d.declarators t l
  | some (.assignment a) => exact a.lays_lower t l
  | none => exact .pure () t l

/-- A step by one adds or subtracts the number `1`. -/
theorem ForStep.lays_lower (step : Option ForStep) (t l : Nat) :
    (ForStep.lower step).Lays t l () (ForStep.code t step) (ForStep.temporaryCount step) 0 := by
  match step with
  | some (.increment target _) => exact .store target .add "1" t l
  | some (.decrement target _) => exact .store target .sub "1" t l
  | some (.assignment a) => exact a.lays_lower t l
  | none => exact .pure () t l

/-- A test is the code of its condition and a jump. -/
theorem lays_unlessGoto (condition : Expr) (label : String) (t l : Nat) :
    (unlessGoto condition label).Lays t l () (testCode t condition label)
      condition.temporaryCount 0 :=
  of_eq (bind (condition.lays_lower t l) (.instr _ _ _)) rfl rfl rfl

/-- A condition that is left out leaves no test. -/
theorem lays_unlessHolds (condition : Option Expr) (label : String) (t l : Nat) :
    (unlessHolds condition label).Lays t l () (conditionCode t condition label)
      (conditionTemporaryCount condition) 0 := by
  match condition with
  | some e => exact lays_unlessGoto e label t l
  | none => exact .pure () t l

mutual

/-- Lowering a statement lays down its code. -/
theorem Stmt.lays_lower (s : Stmt) (t l : Nat) :
    s.lower.Lays t l () (s.code t l) s.temporaryCount s.labelCount := by
  match s with
  | .block body _ => exact lays_lowerAll body t l
  | .declaration d => exact lays_lowerDeclarators d.declarators t l
  | .assignment a => exact a.lays_lower t l
  | .ifThen condition body _ =>
    -- the steps of lowering in their order; what remains is to compare lists and to add up counts
    refine of_eq (bind (.newLabel t l) (bind (lays_unlessGoto condition _ _ _)
      (bind (body.lays_lower _ _).indented (.instr _ _ _)))) ?_ ?_ ?_
    · simp only [Stmt.code, List.nil_append, Nat.add_zero]
    · rw [Stmt.temporaryCount]
      omega
    · rw [Stmt.labelCount]
      omega
  | .ifElse condition onTrue onFalse _ =>
    -- the labels of the statement come first, those of its sides after them
    refine of_eq (bind (.newLabel t l) (bind (.newLabel _ _)
      (bind (lays_unlessGoto condition _ _ _)
        (bind (.indented (bind (onTrue.lays_lower _ _) (.instr _ _ _)))
          (bind (.instr _ _ _) (bind (onFalse.lays_lower _ _).indented
            (.instr _ _ _))))))) ?_ ?_ ?_
    · simp [Stmt.code]
    · rw [Stmt.temporaryCount]
      omega
    · rw [Stmt.labelCount]
      omega
  | .whileLoop condition body _ =>
    refine of_eq (bind (.newLabel t l) (bind (.newLabel _ _) (bind (.instr _ _ _)
      (bind (.indented (bind (lays_unlessGoto condition _ _ _) (bind (body.lays_lower _ _)
        (.instr _ _ _)))) (.instr _ _ _))))) ?_ ?_ ?_
    · simp [Stmt.code]
    · rw [Stmt.temporaryCount]
      omega
    · rw [Stmt.labelCount]
      omega
  | .forLoop init condition step body _ =>
    rw [Stmt.lower_forLoop]
    -- both labels are named before the start is lowered, but placed around what follows it
    refine of_eq (bind (.newLabel t l) (bind (.newLabel _ _)
      (bind (ForInit.lays_lower init _ _) (bind (.instr _ _ _)
        (bind (.indented (bind (lays_unlessHolds condition _ _ _) (bind (body.lays_lower _ _)
          (bind (ForStep.lays_lower step _ _) (.instr _ _ _))))) (.instr _ _ _)))))) ?_ ?_ ?_
    · simp [Stmt.code]
    · rw [Stmt.temporaryCount]
      omega
    · rw [Stmt.labelCount]
      omega
  | .function signature body _ =>
    refine of_eq (bind (.instr _ t l) (lays_lowerAll body _ _).indented) rfl ?_ ?_
    · rw [Stmt.temporaryCount, Nat.zero_add]
    · rw [Stmt.labelCount, Nat.zero_add]
  | .prototype _ => exact .pure () t l
  | .result none _ => exact .instr _ t l
  | .result (some e) _ =>
    exact of_eq (bind (e.lays_lower t l) (.instr _ _ _)) rfl rfl rfl

/-- Lowering a row of statements lays down its code. -/
theorem lays_lowerAll (row : List Stmt) (t l : Nat) :
    (lowerAll row).Lays t l () (codeAll t l row) (temporaryCountAll row)
      (labelCountAll row) := by
  match row with
  | [] => exact .pure () t l
  | s :: more => exact of_eq (bind (s.lays_lower t l) (lays_lowerAll more _ _)) rfl rfl rfl

end

/-- Lowering a program gives its listing. -/
theorem Program.instructions_lower (p : Program) : p.lower.instructions = p.code := by
  obtain ⟨g, hrun, hcode, _, _⟩ := lays_lowerAll p.body 0 0 Emitter.empty rfl rfl
  show (lowerAll p.body Emitter.empty).2.instructions = _
  rw [hrun, hcode]
  rfl

end Tercet
