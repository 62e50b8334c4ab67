import Tercet.Check.Typing
import Tercet.Proofs.Symbol.Lookup

/-!
# `Tercet.Proofs.Check.Typing`: what inference finds out and says

Inference passes an expression from left to right and leaves out what is handed to a call. All
that it sees of an expression is a tree of operators between numbers and names, its `Formula`.
Each operator is applied once to the types of its two sides, and `Expr.infer_eq` says that this
is all that inference does: the reports are those of the operators, each of which has one report
or none.

Two results are read off the formula. `foretells_infer` compares two tables: with fewer names
declared, fewer types are known and fewer reports are made, but no type changes and no report is
new. `infer_of_numeric` is about expressions in which every name is a number: they are numbers
again, and the only thing to complain about is a remainder of something with a fraction.
-/

set_option autoImplicit false

namespace Tercet

/-! ### Formulas -/

/-- What operators join in the end. -/
inductive Leaf where
  | number (text : String)
  /-- A variable, or a function that is called. -/
  | name (name : String)
deriving DecidableEq, Repr

/-- An expression without the arguments of its calls. -/
inductive Formula where
  | leaf (l : Leaf)
  /-- An operator with the line of its right side. -/
  | binary (left : Formula) (op : BinaryOp) (right : Formula) (line : Nat)
deriving DecidableEq, Repr

/-- An operator in its place between two formulas. -/
structure Operation where
  left : Formula
  op : BinaryOp
  right : Formula
  line : Nat
deriving DecidableEq, Repr

/-- The numbers and names, from left to right. -/
def Formula.leaves : Formula → List Leaf
  | .leaf l => [l]
  | .binary left _ right _ => left.leaves ++ right.leaves

/-- The names, from left to right. -/
def Formula.names : Formula → List String
  | .leaf (.number _) => []
  | .leaf (.name x) => [x]
  | .binary left _ right _ => left.names ++ right.names

/-- The operators, each after those of its two sides. -/
def Formula.operations : Formula → List Operation
  | .leaf _ => []
  | .binary left op right line => left.operations ++ right.operations ++ [⟨left, op, right, line⟩]

mutual

/-- The formula of an expression. -/
def Expr.formula : Expr → Formula
  | .term t => t.formula
  | .binary left op right => .binary left.formula op right.formula right.line

/-- The formula of a term. -/
def Term.formula : Term → Formula
  | .factor f => f.formula
  | .binary left op right => .binary left.formula op right.formula right.line

/-- The formula of a factor. Parentheses leave no trace. -/
def Factor.formula : Factor → Formula
  | .number text _ => .leaf (.number text)
  | .ident name _ | .call name _ _ => .leaf (.name name)
  | .group inner _ => inner.formula

end

/-! ### Types of formulas -/

/-- The type of what a name stands for. -/
def Table.typeOf? (t : Table) (name : String) : Option DataType :=
  (t.resolve? name).map Symbol.type

/-- The type of a number or a name. -/
def Leaf.type? (t : Table) : Leaf → Option DataType
  | .number text => some (numberType text)
  | .name x => t.typeOf? x

/-- The type of a formula. -/
def Formula.type? (t : Table) : Formula → Option DataType
  | .leaf l => l.type? t
  | .binary left op right _ => op.resultType (left.type? t) (right.type? t)

/-- An operator applied to two types, either of which may be unknown. -/
structure Application where
  op : BinaryOp
  left : Option DataType
  right : Option DataType
  line : Nat
deriving DecidableEq, Repr

/-- What there is to say about an application. -/
def Application.remark? (a : Application) : Option Diagnostic :=
  match a.left, a.right with
  | some l, some r => (a.op.clash? l r).map fun cause => ⟨cause, a.line⟩
  | _, _ => none

/-- To combine two types is to find the type of the result, and what there is to say. -/
theorem Application.combine_eq (a : Application) :
    a.op.combine a.left a.right a.line = (a.op.resultType a.left a.right, a.remark?.toList) := by
  obtain ⟨op, left, right, line⟩ := a
  cases left with
  | none => rfl
  | some l =>
    cases right with
    | none => rfl
    | some r => rfl

/-- The application of an operator to the types of its two sides. -/
def Operation.application (t : Table) (o : Operation) : Application :=
  ⟨o.op, o.left.type? t, o.right.type? t, o.line⟩

/-- What there is to say about the operators of a formula, in order. -/
def Formula.remarks (t : Table) (f : Formula) : Log :=
  f.operations.filterMap fun o => (o.application t).remark?

/-- What is said about the left side comes first, then what is said about the right side, then
about the operator between. -/
theorem Formula.remarks_binary (t : Table) (left : Formula) (op : BinaryOp) (right : Formula)
    (line : Nat) :
    (Formula.binary left op right line).remarks t
      = left.remarks t ++ right.remarks t
        ++ (op.combine (left.type? t) (right.type? t) line).2 := by
  have hcombine := Application.combine_eq ⟨op, left.type? t, right.type? t, line⟩
  simp only at hcombine
  rw [hcombine, remarks, operations, List.filterMap_append, List.filterMap_append]
  refine congrArg (left.remarks t ++ right.remarks t ++ ·) ?_
  cases hremark : Application.remark? ⟨op, left.type? t, right.type? t, line⟩ <;>
    simp [Operation.application, hremark]

mutual

/-- Inference gives the type of the formula and says what there is to say about its operators. -/
theorem Expr.infer_eq (t : Table) (e : Expr) :
    e.infer t = (e.formula.type? t, e.formula.remarks t) := by
  match e with
  | .term only => exact only.infer_eq t
  | .binary left op right =>
    simp only [Expr.infer, Expr.formula, left.infer_eq t, right.infer_eq t,
      Formula.remarks_binary]
    rfl

/-- So it does for a term. -/
theorem Term.infer_eq (t : Table) (x : Term) :
    x.infer t = (x.formula.type? t, x.formula.remarks t) := by
  match x with
  | .factor only => exact only.infer_eq t
  | .binary left op right =>
    simp only [Term.infer, Term.formula, left.infer_eq t, right.infer_eq t,
      Formula.remarks_binary]
    rfl

/-- So it does for a factor. Of a call only the name counts. -/
theorem Factor.infer_eq (t : Table) (f : Factor) :
    f.infer t = (f.formula.type? t, f.formula.remarks t) := by
  match f with
  | .number _ _ | .ident _ _ | .call _ _ _ => rfl
  | .group inner _ => exact inner.infer_eq t

end

/-! ### Fewer declarations -/

/-- Every name that stands for something in `t` does so in `t'`, with the same type. -/
def Table.Covers (t' t : Table) : Prop :=
  ∀ name x, t.resolve? name = some x → ∃ y, t'.resolve? name = some y ∧ y.type = x.type

/-- A type that is known on one side is the same on the other, and all that is said on one side
is said on the other, in the same order. -/
structure Foretells (few many : Option DataType × Log) : Prop where
  known : ∀ type, few.1 = some type → many.1 = some type
  said : few.2.Sublist many.2

section Covers

variable {t t' : Table}

/-- A name keeps the type that it has. -/
theorem Table.Covers.typeOf? (h : t'.Covers t) {name : String} {type : DataType}
    (hname : t.typeOf? name = some type) : t'.typeOf? name = some type := by
  obtain ⟨x, hx, rfl⟩ := Option.map_eq_some_iff.mp hname
  obtain ⟨y, hy, hsame⟩ := h name x hx
  rw [Table.typeOf?, hy, Option.map_some, hsame]

/-- An operator with a known result keeps it, whatever else becomes known. -/
theorem BinaryOp.resultType_of_known {op : BinaryOp} {left right left' right' : Option DataType}
    (hleft : ∀ l, left = some l → left' = some l)
    (hright : ∀ r, right = some r → right' = some r) {type : DataType}
    (h : op.resultType left right = some type) : op.resultType left' right' = some type := by
  unfold resultType at h ⊢
  by_cases hop : (op.isRelational || op = .mod) = true
  -- comparisons and remainders do not look at their sides
  · rw [if_pos hop] at h ⊢
    exact h
  · rw [if_neg hop] at h ⊢
    cases left with
    | none => cases h
    | some l =>
      cases right with
      | none => cases h
      | some r =>
        rw [hleft l rfl, hright r rfl]
        exact h

/-- An operator is complained about only where both sides are known, and then they stay what
they are. -/
theorem BinaryOp.combine_sublist (op : BinaryOp) {left right left' right' : Option DataType}
    (hleft : ∀ l, left = some l → left' = some l)
    (hright : ∀ r, right = some r → right' = some r) (line : Nat) :
    (op.combine left right line).2.Sublist (op.combine left' right' line).2 := by
  cases left with
  | none => exact List.nil_sublist _
  | some l =>
    cases right with
    | none => exact List.nil_sublist _
    | some r =>
      cases hleft l rfl
      cases hright r rfl
      exact List.Sublist.refl _

/-- A formula keeps the type that it has. The induction is on the formula. -/
theorem Table.Covers.type? (h : t'.Covers t) (f : Formula) {type : DataType}
    (hf : f.type? t = some type) : f.type? t' = some type := by
  induction f generalizing type with
  | leaf l =>
    cases l with
    | number text => exact hf
    | name x => exact h.typeOf? hf
  | binary left op right line ihleft ihright =>
    exact BinaryOp.resultType_of_known (fun _ => ihleft) (fun _ => ihright) hf

/-- What is said about a formula is still said, operator by operator. -/
theorem Table.Covers.remarks (h : t'.Covers t) (f : Formula) :
    (f.remarks t).Sublist (f.remarks t') := by
  induction f with
  | leaf l => exact List.Sublist.refl _
  | binary left op right line ihleft ihright =>
    rw [Formula.remarks_binary, Formula.remarks_binary]
    have hop := op.combine_sublist (fun _ => h.type? left) (fun _ => h.type? right) line
    exact (ihleft.append ihright).append hop

/-- So inference in a table foretells inference in one that covers it. -/
theorem Table.Covers.foretells (h : t'.Covers t) (e : Expr) :
    Foretells (e.infer t) (e.infer t') := by
  rw [e.infer_eq t, e.infer_eq t']
  exact ⟨fun _ htype => h.type? e.formula htype, h.remarks e.formula⟩

/-- A table in which the names of another are found at the same levels, with the same types. -/
theorem Table.covers_of_at?
    (h : ∀ name, t.resolve? name ≠ none → ∀ k,
      (t'.at? k name).map Symbol.type = (t.at? k name).map Symbol.type) :
    t'.Covers t := by
  intro name x hx
  have hsame := h name (by rw [hx]; exact Option.some_ne_none x)
  obtain ⟨k, hk, hat⟩ := Table.exists_resolvesAt hx
  have htype : (t'.at? k name).map Symbol.type = some x.type := by
    rw [hsame, hat]
    rfl
  obtain ⟨y, hy, hyx⟩ := Option.map_eq_some_iff.mp htype
  -- nor is the name found any further in
  have hk' : t'.ResolvesAt name k := by
    refine ⟨Option.isSome_of_eq_some hy, ?_⟩
    intro m hm
    have hnone := hsame m
    rw [hk.first m hm] at hnone
    exact Option.map_eq_none_iff.mp hnone
  exact ⟨y, hk'.resolve?_eq.trans hy, hyx⟩

/-- A new name under which nothing was found covers nothing up. -/
theorem Table.covers_declare? {x : Symbol} (hnew : t.resolve? x.name = none)
    (h : t.declare? x = some t') : t'.Covers t := by
  apply Table.covers_of_at?
  intro name hfound k
  have hname : name ≠ x.name := by
    intro heq
    rw [heq] at hfound
    exact hfound hnew
  rw [Table.at?_declare? h, if_neg fun hboth => hname hboth.2]

end Covers

/-- Types that are unknown lead to no reports. If every name that stands for something in one
table does so in another, with the same type, then what inference knows in the first it knows in
the second, and what it says in the first is a part of what it says in the second. In particular
this holds of a table and the same table with one more declaration of a new name. -/
theorem foretells_infer :
    (∀ t t' : Table, t'.Covers t → ∀ e : Expr, Foretells (e.infer t) (e.infer t')) ∧
    ∀ (t t' : Table) (x : Symbol), t.resolve? x.name = none → t.declare? x = some t' →
      ∀ e : Expr, Foretells (e.infer t) (e.infer t') := by
  refine ⟨?_, ?_⟩
  · intro t t' h e
    exact h.foretells e
  · intro t t' x hnew h e
    exact (Table.covers_declare? hnew h).foretells e

/-- The symbol of `int n;`. -/
def wholeNumber : Symbol :=
  .var (Variable.declared "n" .int 1 none)

/-- The symbol of `double d;`. -/
def fractionalNumber : Symbol :=
  .var (Variable.declared "d" .double 1 none)

/-- The table after `int n;`. -/
def oneName : Table :=
  (Table.initial.declare? wholeNumber).get (by decide +kernel)

/-- The table after `int n; double d;`. -/
def twoNames : Table :=
  (oneName.declare? fractionalNumber).get (by decide +kernel)

/-- The expression `n % d(x) * 2.5`. -/
def scaledRemainder : Expr :=
  .term (.binary (.binary (.factor (.ident "n" 2)) .mod
    (.call "d" [.term (.factor (.ident "x" 2))] 2)) .mul (.number "2.5" 2))

/-- As long as `d` is unknown, its remainder is not complained about. -/
theorem foretells_scaledRemainder :
    oneName.resolve? fractionalNumber.name = none ∧
    oneName.declare? fractionalNumber = some twoNames ∧
    twoNames.Covers oneName ∧
    scaledRemainder.infer oneName = (some .double, []) ∧
    scaledRemainder.infer twoNames = (some .double, [⟨.invalidModulo "int" "double", 2⟩]) ∧
    Foretells (scaledRemainder.infer oneName) (scaledRemainder.infer twoNames) := by
  have hnew : oneName.resolve? fractionalNumber.name = none := by decide +kernel
  have hdeclare : oneName.declare? fractionalNumber = some twoNames := (Option.some_get _).symm
  have hcovers := Table.covers_declare? hnew hdeclare
  refine ⟨hnew, hdeclare, hcovers, ?_, ?_, foretells_infer.1 _ _ hcovers scaledRemainder⟩
  · decide +kernel
  · decide +kernel

/-! ### Numbers only -/

/-- Whether the number is written with a point, or the name stands for a double. -/
def Leaf.isDouble (t : Table) : Leaf → Bool
  | .number text => text.toList.contains '.'
  | .name x => t.typeOf? x = some .double

/-- The numbers and names that do not stand below a comparison or a remainder. -/
def Formula.exposed : Formula → List Leaf
  | .leaf l => [l]
  | .binary left op right _ =>
    if op.isRelational || op = .mod then [] else left.exposed ++ right.exposed

/-- Whether a double makes the formula one: some double reaches the top through sums,
differences, products and quotients alone. -/
def Formula.isDouble (t : Table) (f : Formula) : Bool :=
  f.exposed.any (Leaf.isDouble t)

/-- The type of numbers with or without a fraction. -/
def numericType (fraction : Bool) : DataType :=
  if fraction then .double else .int

/-- What there is to say about a remainder with a double on either side. -/
def Operation.badRemainder? (t : Table) (o : Operation) : Option Diagnostic :=
  if o.op = .mod ∧ (o.left.isDouble t = true ∨ o.right.isDouble t = true) then
    some ⟨.invalidModulo (numericType (o.left.isDouble t)).name
      (numericType (o.right.isDouble t)).name, o.line⟩
  else none

/-- Every name of the formula stands for a number. -/
def Formula.Numeric (t : Table) (f : Formula) : Prop :=
  ∀ x ∈ f.names, t.typeOf? x = some .int ∨ t.typeOf? x = some .double

instance (t : Table) (f : Formula) : Decidable (f.Numeric t) :=
  inferInstanceAs (Decidable (∀ x ∈ f.names, _))

/-- Between numbers an operator gives a number: with a fraction if one side has one, unless it is
a comparison or a remainder. -/
theorem BinaryOp.resultType_numericType (op : BinaryOp) (left right : Bool) :
    op.resultType (some (numericType left)) (some (numericType right))
      = some (numericType (!(op.isRelational || op = .mod) && (left || right))) := by
  cases op <;> cases left <;> cases right <;> rfl

/-- Between numbers, only a remainder can go wrong. -/
theorem BinaryOp.clash?_numericType (op : BinaryOp) (left right : Bool) :
    op.clash? (numericType left) (numericType right)
      = if op = .mod ∧ (left = true ∨ right = true) then
          some (.invalidModulo (numericType left).name (numericType right).name)
        else none := by
  cases op <;> cases left <;> cases right <;> rfl

namespace Formula

variable {t : Table} {f : Formula}

/-- A comparison or a remainder is no double, and any other operator passes on the doubles of its
sides. -/
theorem isDouble_binary (t : Table) (left : Formula) (op : BinaryOp) (right : Formula)
    (line : Nat) :
    (binary left op right line).isDouble t
      = (!(op.isRelational || op = .mod) && (left.isDouble t || right.isDouble t)) := by
  rw [isDouble, exposed]
  split
  · rename_i hop
    rw [hop]
    rfl
  · rename_i hop
    rw [Bool.not_eq_true] at hop
    rw [hop, List.any_append]
    rfl

/-- A formula between numbers is a number. -/
theorem Numeric.type? (h : f.Numeric t) : f.type? t = some (numericType (f.isDouble t)) := by
  induction f with
  | leaf l =>
    cases l with
    | number text => simp [Formula.type?, Leaf.type?, numberType, isDouble, exposed, Leaf.isDouble,
        numericType]
    | name x =>
      rcases h x (List.mem_singleton_self x) with hx | hx <;>
        simp [Formula.type?, Leaf.type?, isDouble, exposed, Leaf.isDouble, numericType, hx]
  | binary left op right line ihleft ihright =>
    have hleft := ihleft fun x hx => h x (List.mem_append_left _ hx)
    have hright := ihright fun x hx => h x (List.mem_append_right _ hx)
    rw [Formula.type?, hleft, hright, BinaryOp.resultType_numericType, isDouble_binary]

/-- What is said about a formula between numbers is said about its remainders. -/
theorem Numeric.remarks (h : f.Numeric t) :
    f.remarks t = f.operations.filterMap (Operation.badRemainder? t) := by
  induction f with
  | leaf l => rfl
  | binary left op right line ihleft ihright =>
    have hl : left.Numeric t := fun x hx => h x (List.mem_append_left _ hx)
    have hr : right.Numeric t := fun x hx => h x (List.mem_append_right _ hx)
    rw [remarks_binary, ihleft hl, ihright hr, operations, List.filterMap_append,
      List.filterMap_append, hl.type?, hr.type?]
    refine congrArg (_ ++ _ ++ ·) ?_
    simp only [BinaryOp.combine, BinaryOp.clash?_numericType, List.filterMap_cons,
      List.filterMap_nil, Operation.badRemainder?]
    split <;> rfl

/-- Without comparisons and remainders nothing stands below one. -/
theorem exposed_eq_leaves
    (h : ∀ o ∈ f.operations, o.op.isRelational = false ∧ o.op ≠ .mod) :
    f.exposed = f.leaves := by
  induction f with
  | leaf l => rfl
  | binary left op right line ihleft ihright =>
    have hop := h ⟨left, op, right, line⟩ (by simp [operations])
    have hleft := ihleft fun o ho => h o (by simp [operations, ho])
    have hright := ihright fun o ho => h o (by simp [operations, ho])
    rw [exposed, leaves, hleft, hright, if_neg]
    simp [hop.1, hop.2]

end Formula

/-- Where every name outside the arguments of calls stands for a number, an expression is a
number: a double if one reaches it without passing a comparison or a remainder, else an integer.
All that is said is that a remainder has a double on one of its sides, once for each that does.
Without comparisons and remainders nothing is said, and one double anywhere makes a double. -/
theorem infer_of_numeric (t : Table) (e : Expr) (h : e.formula.Numeric t) :
    (e.infer t).1 = some (if e.formula.isDouble t then .double else .int) ∧
    (e.infer t).2 = e.formula.operations.filterMap (Operation.badRemainder? t) ∧
    ((∀ o ∈ e.formula.operations, o.op.isRelational = false ∧ o.op ≠ .mod) →
      ((e.infer t).1 = some .double ↔ ∃ l ∈ e.formula.leaves, l.isDouble t = true) ∧
      (e.infer t).2 = []) := by
  rw [e.infer_eq t]
  refine ⟨h.type?, h.remarks, ?_⟩
  intro hplain
  refine ⟨?_, ?_⟩
  · show e.formula.type? t = some .double ↔ _
    rw [h.type?, Formula.isDouble, Formula.exposed_eq_leaves hplain, ← List.any_eq_true]
    cases e.formula.leaves.any (Leaf.isDouble t) <;> simp [numericType]
  -- what would be said is about remainders, and there are none
  · show e.formula.remarks t = []
    rw [h.remarks, List.filterMap_eq_nil_iff]
    intro o ho
    rw [Operation.badRemainder?, if_neg]
    exact fun hbad => (hplain o ho).2 hbad.1

/-- The expression `n - (d)`. -/
def mixedDifference : Expr :=
  .binary (.term (.factor (.ident "n" 2))) .sub
    (.factor (.group (.term (.factor (.ident "d" 2))) 2))

/-- The remainder with `d` is an integer, which `2.5` makes a double again. A difference with `d`
is a double. -/
theorem infer_scaledRemainder :
    scaledRemainder.formula.Numeric twoNames ∧
    (scaledRemainder.infer twoNames).1 = some .double ∧
    (scaledRemainder.infer twoNames).2 = [⟨.invalidModulo "int" "double", 2⟩] ∧
    mixedDifference.formula.Numeric twoNames ∧
    (∀ o ∈ mixedDifference.formula.operations, o.op.isRelational = false ∧ o.op ≠ .mod) ∧
    (mixedDifference.infer twoNames).1 = some .double ∧
    (mixedDifference.infer twoNames).2 = [] := by
  have hnumeric : scaledRemainder.formula.Numeric twoNames := by decide +kernel
  have hinfer := infer_of_numeric twoNames scaledRemainder hnumeric
  have hnumeric' : mixedDifference.formula.Numeric twoNames := by decide +kernel
  have hplain : ∀ o ∈ mixedDifference.formula.operations,
      o.op.isRelational = false ∧ o.op ≠ .mod := by decide
  have hinfer' := (infer_of_numeric twoNames mixedDifference hnumeric').2.2 hplain
  have hdouble : ∃ l ∈ mixedDifference.formula.leaves, l.isDouble twoNames = true := by
    decide +kernel
  refine ⟨hnumeric, hinfer.1.trans ?_, hinfer.2.1.trans ?_, hnumeric', hplain,
    hinfer'.1.mpr hdouble, hinfer'.2⟩
  · decide +kernel
  · decide +kernel

end Tercet
