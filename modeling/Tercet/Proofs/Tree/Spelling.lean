import Mathlib.Data.List.Forall2
import Tercet.Token.Basic
import Tercet.Tree.Stmt

/-!
# `Tercet.Proofs.Tree.Spelling`: the tokens that a tree stands for

Printing a tree gives a row of slots, one for each token. A tree fixes the kind of every
token, the text of names and numbers, and the line of the first token of each node that
keeps a line. It says nothing about the other texts and lines, so a slot leaves them open,
and a row of tokens spells a tree when its tokens fit the slots one by one (`Spells`).

Slots also tell the semicolons apart. The one that ends a declaration, an assignment or a
result with a value is an *ending*: reading forgives its absence. The two in the head of a
counted loop, the one after a prototype and the one of a bare `return` are plain marks.

The printer follows the tree constructor by constructor. Only comma-separated rows need a
shape of their own, `Slot.separated`, which is the shape in which they are read: a first
item, and then items that each follow a comma.
-/

set_option autoImplicit false

namespace Tercet

/-- The kind of the token that stands for an operator between values. -/
def BinaryOp.kind : BinaryOp → Kind
  | add => .plus
  | sub => .minus
  | mul => .star
  | div => .slash
  | mod => .percent
  | less => .less
  | lessEqual => .lessEqual
  | greater => .greater
  | greaterEqual => .greaterEqual
  | equal => .equal
  | notEqual => .notEqual

/-- The kind of the token that stands for an operator that stores. -/
def AssignOp.kind : AssignOp → Kind
  | set => .assign
  | add => .addAssign
  | sub => .subAssign
  | mul => .mulAssign
  | div => .divAssign
  | mod => .modAssign

/-- What an operator that stores joins the old value and the new one by: `x += e` stands for
`x = x + e`, and so on. -/
def AssignOp.joined? : AssignOp → Option BinaryOp
  | set => none
  | add => some .add
  | sub => some .sub
  | mul => some .mul
  | div => some .div
  | mod => some .mod

/-- The operator of a store is written as the sign that it joins by, with `=` behind it. No other
operator fits its sign. -/
theorem AssignOp.joined?_eq_some_iff (op : AssignOp) (b : BinaryOp) :
    op.joined? = some b ↔ op.kind.spelling? = b.kind.spelling?.map (· ++ "=") := by
  cases op <;> cases b <;> decide

/-- The operators that are computed are those that the signs say. -/
theorem AssignOp.joined?_eq (op : AssignOp) : op.joined? = op.binary? := by
  cases op <;> rfl

/-- The kind of the keyword that names a type. -/
def DataType.kind : DataType → Kind
  | int => .kwInt
  | double => .kwDouble
  | void => .kwVoid

/-- A place in a printed tree, with what the tree fixes about the token in it. -/
structure Slot where
  kind : Kind
  /-- The text, for names and numbers. -/
  text : Option String
  /-- The line, for the first token of a node that keeps one. -/
  line : Option Nat
  /-- Whether this is the semicolon of a declaration, an assignment or a result with a
  value. -/
  isEnding : Bool
deriving DecidableEq, Repr

namespace Slot

/-- A token of which only the kind is fixed. -/
def mark (kind : Kind) : Slot :=
  ⟨kind, none, none, false⟩

/-- The first token of a node, with one spelling. -/
def first (kind : Kind) (line : Nat) : Slot :=
  ⟨kind, none, some line, false⟩

/-- A name amid a node. -/
def word (text : String) : Slot :=
  ⟨.identifier, some text, none, false⟩

/-- A name or number that starts a node. -/
def firstWord (kind : Kind) (text : String) (line : Nat) : Slot :=
  ⟨kind, some text, some line, false⟩

/-- The semicolon of a declaration, an assignment or a result with a value. -/
def ending : Slot :=
  ⟨.semicolon, none, none, true⟩

/-- Whether a token may stand in the place. -/
def Fits (s : Slot) (t : Token) : Prop :=
  t.kind = s.kind ∧ (∀ text ∈ s.text, t.text = text) ∧ ∀ line ∈ s.line, t.line = line

instance (s : Slot) (t : Token) : Decidable (s.Fits t) :=
  inferInstanceAs (Decidable (_ ∧ _ ∧ _))

@[simp] theorem fits_mark {k : Kind} {t : Token} : (mark k).Fits t ↔ t.kind = k := by
  simp [Fits, mark]

@[simp] theorem fits_first {k : Kind} {line : Nat} {t : Token} :
    (first k line).Fits t ↔ t.kind = k ∧ t.line = line := by
  simp [Fits, first]

@[simp] theorem fits_word {text : String} {t : Token} :
    (word text).Fits t ↔ t.kind = .identifier ∧ t.text = text := by
  simp [Fits, word]

@[simp] theorem fits_firstWord {k : Kind} {text : String} {line : Nat} {t : Token} :
    (firstWord k text line).Fits t ↔ t.kind = k ∧ t.text = text ∧ t.line = line := by
  simp [Fits, firstWord]

@[simp] theorem fits_ending {t : Token} : ending.Fits t ↔ t.kind = .semicolon := by
  simp [Fits, ending]

/-- Rows of slots with commas between them. -/
def separated : List (List Slot) → List Slot
  | [] => []
  | row :: rows => row ++ rows.flatMap fun row => mark .comma :: row

end Slot

/-- The tokens stand for the slots, one by one. -/
abbrev Spells : List Slot → List Token → Prop :=
  List.Forall₂ Slot.Fits

open Slot

mutual

/-- The tokens of an expression. -/
def Expr.slots : Expr → List Slot
  | .term t => t.slots
  | .binary left op right => left.slots ++ mark op.kind :: right.slots

/-- The tokens of a term. -/
def Term.slots : Term → List Slot
  | .factor f => f.slots
  | .binary left op right => left.slots ++ mark op.kind :: right.slots

/-- The tokens of a factor. -/
def Factor.slots : Factor → List Slot
  | .number text line => [firstWord .number text line]
  | .ident name line => [firstWord .identifier name line]
  | .call name arguments line =>
    firstWord .identifier name line :: mark .openParen ::
      (separated (argumentSlots arguments) ++ [mark .closeParen])
  | .group inner line => first .openParen line :: (inner.slots ++ [mark .closeParen])

/-- The tokens of each argument of a call. -/
def argumentSlots : List Expr → List (List Slot)
  | [] => []
  | e :: es => e.slots :: argumentSlots es

end

/-- The tokens of a declared name. -/
def Declarator.slots (d : Declarator) : List Slot :=
  match d.initializer with
  | none => [word d.name]
  | some e => word d.name :: mark .assign :: e.slots

/-- The tokens of a declaration, without its semicolon. -/
def Declaration.slots (d : Declaration) : List Slot :=
  first d.type.kind d.line :: separated (d.declarators.map Declarator.slots)

/-- The tokens of an assignment, without its semicolon. -/
def Assignment.slots (a : Assignment) : List Slot :=
  firstWord .identifier a.target a.line :: mark a.op.kind :: a.value.slots

/-- The tokens of the start of a counted loop. -/
def ForInit.slots : ForInit → List Slot
  | .declaration d => d.slots
  | .assignment a => a.slots

/-- The tokens of what a counted loop does after each round. -/
def ForStep.slots : ForStep → List Slot
  | .increment target line => [firstWord .identifier target line, mark .increment]
  | .decrement target line => [firstWord .identifier target line, mark .decrement]
  | .assignment a => a.slots

/-- The tokens of a parameter. -/
def Parameter.slots (p : Parameter) : List Slot :=
  [mark p.type.kind, word p.name]

/-- The tokens of the head of a function. -/
def Signature.slots (s : Signature) : List Slot :=
  first s.returnType.kind s.line :: word s.name :: mark .openParen ::
    (separated (s.parameters.map Parameter.slots) ++ [mark .closeParen])

/-- The tokens of a part that may be left out. -/
def optionSlots {α : Type} (slots : α → List Slot) : Option α → List Slot
  | none => []
  | some a => slots a

/-- The tokens of a condition. -/
def conditionSlots (e : Expr) : List Slot :=
  mark .openParen :: (e.slots ++ [mark .closeParen])

mutual

/-- The tokens of a statement. -/
def Stmt.slots : Stmt → List Slot
  | .block body line => first .openBrace line :: (rowSlots body ++ [mark .closeBrace])
  | .declaration d => d.slots ++ [ending]
  | .assignment a => a.slots ++ [ending]
  | .ifThen condition body line =>
    first .kwIf line :: (conditionSlots condition ++ body.slots)
  | .ifElse condition onTrue onFalse line =>
    first .kwIf line ::
      (conditionSlots condition ++ (onTrue.slots ++ mark .kwElse :: onFalse.slots))
  | .whileLoop condition body line =>
    first .kwWhile line :: (conditionSlots condition ++ body.slots)
  | .forLoop init condition step body line =>
    first .kwFor line :: mark .openParen ::
      (optionSlots ForInit.slots init ++ mark .semicolon ::
        (optionSlots Expr.slots condition ++ mark .semicolon ::
          (optionSlots ForStep.slots step ++ mark .closeParen :: body.slots)))
  | .function signature body bodyLine =>
    signature.slots ++ first .openBrace bodyLine :: (rowSlots body ++ [mark .closeBrace])
  | .prototype signature => signature.slots ++ [mark .semicolon]
  | .result none line => [first .kwReturn line, mark .semicolon]
  | .result (some e) line => first .kwReturn line :: (e.slots ++ [ending])

/-- The tokens of a row of statements. -/
def rowSlots : List Stmt → List Slot
  | [] => []
  | s :: more => s.slots ++ rowSlots more

end

/-- The tokens of a program. -/
def Program.slots (p : Program) : List Slot :=
  rowSlots p.body

/-- What stands for two rows, one after the other, splits where the rows do. -/
theorem forall₂_append_left {α β : Type} {R : α → β → Prop} {as bs : List α} {l : List β}
    (h : List.Forall₂ R (as ++ bs) l) :
    ∃ us vs, l = us ++ vs ∧ List.Forall₂ R as us ∧ List.Forall₂ R bs vs := by
  induction as generalizing l with
  | nil => exact ⟨[], l, rfl, .nil, h⟩
  | cons a as ih =>
      cases h with
      | cons ha h =>
          obtain ⟨us, vs, rfl, hus, hvs⟩ := ih h
          exact ⟨_ :: us, vs, rfl, .cons ha hus, hvs⟩

/-- Each item of the first row has its partner in the second. -/
theorem exists_mem_of_forall₂ {α β : Type} {R : α → β → Prop} {as : List α} {bs : List β}
    (h : List.Forall₂ R as bs) {a : α} (ha : a ∈ as) : ∃ b ∈ bs, R a b := by
  induction h with
  | nil => cases ha
  | cons hab _ ih =>
      rcases List.mem_cons.mp ha with rfl | ha
      · exact ⟨_, List.mem_cons_self, hab⟩
      · obtain ⟨b, hb, hab⟩ := ih ha
        exact ⟨b, List.mem_cons_of_mem _ hb, hab⟩

/-- The tokens have the kinds of the slots. -/
theorem Spells.map_kind {slots : List Slot} {ts : List Token} (h : Spells slots ts) :
    slots.map Slot.kind = ts.map Token.kind := by
  induction h with
  | nil => rfl
  | cons hfits _ ih => rw [List.map_cons, List.map_cons, ih, hfits.1]

/-- A slot of one row is a slot of the rows with commas between them. -/
theorem Slot.mem_separated {rows : List (List Slot)} {row : List Slot} {s : Slot}
    (hrow : row ∈ rows) (hs : s ∈ row) : s ∈ separated rows := by
  cases rows with
  | nil => cases hrow
  | cons first rows =>
      rw [separated, List.mem_append, List.mem_flatMap]
      rcases List.mem_cons.mp hrow with rfl | hrow
      · exact Or.inl hs
      · exact Or.inr ⟨row, hrow, List.mem_cons_of_mem _ hs⟩

/-- A row is no longer than all rows together. -/
theorem length_le_length_flatMap_of_mem {α β : Type} {f : α → List β} {items : List α} {a : α}
    (ha : a ∈ items) : (f a).length ≤ (items.flatMap f).length := by
  obtain ⟨before, after, rfl⟩ := List.append_of_mem ha
  rw [List.flatMap_append, List.flatMap_cons]
  simp only [List.length_append]
  omega

/-- A row is no longer than the rows with commas between them. -/
theorem Slot.length_le_length_separated {rows : List (List Slot)} {row : List Slot}
    (hrow : row ∈ rows) : row.length ≤ (separated rows).length := by
  cases rows with
  | nil => cases hrow
  | cons first rows =>
      rw [separated, List.length_append]
      rcases List.mem_cons.mp hrow with rfl | hrow
      · exact Nat.le_add_right _ _
      · have hlength : (mark .comma :: row).length ≤
            (rows.flatMap fun row => mark .comma :: row).length :=
          length_le_length_flatMap_of_mem hrow
        rw [List.length_cons] at hlength
        omega

/-- The tokens of the arguments are those of each. -/
theorem argumentSlots_eq_map (es : List Expr) : argumentSlots es = es.map Expr.slots := by
  induction es with
  | nil => rfl
  | cons e es ih => rw [argumentSlots, ih, List.map_cons]

/-! ### Lines -/

namespace Slot

/-- Every line that the slots fix is one of `L`. -/
def Lined (L : Nat → Prop) (slots : List Slot) : Prop :=
  ∀ s ∈ slots, ∀ line ∈ s.line, L line

variable {L : Nat → Prop} {slots : List Slot}

@[simp] theorem lined_nil : Lined L [] :=
  List.forall_mem_nil _

@[simp] theorem lined_append {more : List Slot} :
    Lined L (slots ++ more) ↔ Lined L slots ∧ Lined L more :=
  List.forall_mem_append

@[simp] theorem lined_mark_cons {k : Kind} : Lined L (mark k :: slots) ↔ Lined L slots := by
  simp [Lined, mark]

@[simp] theorem lined_word_cons {text : String} :
    Lined L (word text :: slots) ↔ Lined L slots := by
  simp [Lined, word]

@[simp] theorem lined_ending_cons : Lined L (ending :: slots) ↔ Lined L slots := by
  simp [Lined, ending]

@[simp] theorem lined_first_cons {k : Kind} {line : Nat} :
    Lined L (first k line :: slots) ↔ L line ∧ Lined L slots := by
  simp [Lined, first]

@[simp] theorem lined_firstWord_cons {k : Kind} {text : String} {line : Nat} :
    Lined L (firstWord k text line :: slots) ↔ L line ∧ Lined L slots := by
  simp [Lined, firstWord]

/-- Commas fix no lines. -/
@[simp] theorem lined_separated {rows : List (List Slot)} :
    Lined L (separated rows) ↔ ∀ row ∈ rows, Lined L row := by
  cases rows with
  | nil => simp [separated]
  | cons row rows =>
      rw [separated, lined_append, List.forall_mem_cons]
      refine and_congr_right fun _ => ?_
      induction rows with
      | nil => simp
      | cons row rows ih => rw [List.flatMap_cons, lined_append, lined_mark_cons, ih,
          List.forall_mem_cons]

/-- The lines of a part that may be left out. -/
theorem lined_optionSlots {α : Type} {slots : α → List Slot} {o : Option α} :
    Lined L (optionSlots slots o) ↔ ∀ a ∈ o, Lined L (slots a) := by
  cases o <;> simp [optionSlots]

/-- The lines of a row of statements are those of each. -/
theorem lined_rowSlots {row : List Stmt} :
    Lined L (rowSlots row) ↔ ∀ s ∈ row, Lined L s.slots := by
  induction row with
  | nil => simp [rowSlots]
  | cons s more ih => rw [rowSlots, lined_append, ih, List.forall_mem_cons]

end Slot

end Tercet
