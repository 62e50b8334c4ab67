import Tercet.Proofs.Tree.Spelling
import Tercet.Reading.Form

/-!
# `Tercet.Proofs.Tree.Shape`: the trees of the grammar

Not every tree is one that the grammar can produce. Three things are left to the shape of the
tree and not to its type, and `Program.wellFormed` asks for them:

* an operator stands on the layer it belongs to, and in a term no product follows a
  comparison;
* a declaration has a name to declare, and its type is not `void`;
* the statement before an `else` does not end with a branch that would take the `else` for
  itself (`Stmt.endsOpen`).

The second half of the module says how printed trees look from outside: what their first
token can be, and which of their tokens can never be left out.
-/

set_option autoImplicit false

namespace Tercet

namespace BinaryOp

/-- Whether the operator joins terms. -/
def isAdditive : BinaryOp → Bool
  | add | sub => true
  | _ => false

/-- Whether the operator joins factors into a product. -/
def isMultiplicative : BinaryOp → Bool
  | mul | div | mod => true
  | _ => false

/-- Reading a sign and printing an operator undo each other on the layer of sums. -/
theorem additive?_eq_some_iff {k : Kind} {op : BinaryOp} :
    additive? k = some op ↔ op.isAdditive = true ∧ k = op.kind := by
  cases k <;> cases op <;> decide

/-- So they do for products. -/
theorem multiplicative?_eq_some_iff {k : Kind} {op : BinaryOp} :
    multiplicative? k = some op ↔ op.isMultiplicative = true ∧ k = op.kind := by
  cases k <;> cases op <;> decide

/-- So they do for comparisons. -/
theorem relational?_eq_some_iff {k : Kind} {op : BinaryOp} :
    relational? k = some op ↔ op.isRelational = true ∧ k = op.kind := by
  cases k <;> cases op <;> decide

/-- No operator is the end of the input. -/
theorem kind_ne_eof (op : BinaryOp) : op.kind ≠ .eof := by
  cases op <;> decide

end BinaryOp

/-- So they do for operators that store. -/
theorem AssignOp.ofKind?_eq_some_iff {k : Kind} {op : AssignOp} :
    ofKind? k = some op ↔ k = op.kind := by
  cases k <;> cases op <;> decide

/-- So they do for the keywords of types. -/
theorem DataType.ofKind?_eq_some_iff {k : Kind} {type : DataType} :
    ofKind? k = some type ↔ k = type.kind := by
  cases k <;> cases type <;> decide

/-- No operator that stores is the end of the input. -/
theorem AssignOp.kind_ne_eof (op : AssignOp) : op.kind ≠ .eof := by
  cases op <;> decide

/-- Nor is a type. -/
theorem DataType.kind_ne_eof (type : DataType) : type.kind ≠ .eof := by
  cases type <;> decide

/-! ## Well-formed trees -/

/-- Whether a term has no comparison. -/
def Term.isProduct : Term → Bool
  | .factor _ => true
  | .binary left op _ => left.isProduct && op.isMultiplicative

mutual

/-- Whether the grammar produces the expression. -/
def Expr.wellFormed : Expr → Bool
  | .term t => t.wellFormed
  | .binary left op right => left.wellFormed && op.isAdditive && right.wellFormed

/-- Whether the grammar produces the term. -/
def Term.wellFormed : Term → Bool
  | .factor f => f.wellFormed
  | .binary left op right =>
    left.wellFormed && (op.isMultiplicative && left.isProduct || op.isRelational)
      && right.wellFormed

/-- Whether the grammar produces the factor. -/
def Factor.wellFormed : Factor → Bool
  | .number _ _ | .ident _ _ => true
  | .call _ arguments _ => wellFormedArguments arguments
  | .group inner _ => inner.wellFormed

/-- Whether the grammar produces each of the arguments. -/
def wellFormedArguments : List Expr → Bool
  | [] => true
  | e :: es => e.wellFormed && wellFormedArguments es

end

/-- Whether the grammar produces the declared name. -/
def Declarator.wellFormed (d : Declarator) : Bool :=
  d.initializer.all Expr.wellFormed

/-- Whether the grammar produces the declaration. -/
def Declaration.wellFormed (d : Declaration) : Bool :=
  d.type != .void && !d.declarators.isEmpty && d.declarators.all Declarator.wellFormed

/-- Whether the grammar produces the start of a counted loop. -/
def ForInit.wellFormed : ForInit → Bool
  | .declaration d => d.wellFormed
  | .assignment a => a.value.wellFormed

/-- Whether the grammar produces what a counted loop does after each round. -/
def ForStep.wellFormed : ForStep → Bool
  | .increment _ _ | .decrement _ _ => true
  | .assignment a => a.value.wellFormed

/-- Whether the statement ends with a branch that has no `else`, and so would take one that
follows. -/
def Stmt.endsOpen : Stmt → Bool
  | .ifThen _ _ _ => true
  | .ifElse _ _ onFalse _ => onFalse.endsOpen
  | .whileLoop _ body _ | .forLoop _ _ _ body _ => body.endsOpen
  | _ => false

mutual

/-- Whether the grammar produces the statement. -/
def Stmt.wellFormed : Stmt → Bool
  | .block body _ | .function _ body _ => wellFormedRow body
  | .declaration d => d.wellFormed
  | .assignment a => a.value.wellFormed
  | .ifThen condition body _ | .whileLoop condition body _ =>
    condition.wellFormed && body.wellFormed
  | .ifElse condition onTrue onFalse _ =>
    condition.wellFormed && onTrue.wellFormed && !onTrue.endsOpen && onFalse.wellFormed
  | .forLoop init condition step body _ =>
    init.all ForInit.wellFormed && condition.all Expr.wellFormed && step.all ForStep.wellFormed
      && body.wellFormed
  | .prototype _ => true
  | .result value _ => value.all Expr.wellFormed

/-- Whether the grammar produces each statement of the row. -/
def wellFormedRow : List Stmt → Bool
  | [] => true
  | s :: more => s.wellFormed && wellFormedRow more

end

/-- Whether the grammar produces the program. -/
def Program.wellFormed (p : Program) : Bool :=
  wellFormedRow p.body

/-- Arguments are recursed on in the tree, and are just a list outside of it. -/
theorem wellFormedArguments_eq_all (es : List Expr) :
    wellFormedArguments es = es.all Expr.wellFormed := by
  induction es with
  | nil => rfl
  | cons e es ih => rw [wellFormedArguments, ih, List.all_cons]

/-- So are the statements of a row. -/
theorem wellFormedRow_eq_all (row : List Stmt) :
    wellFormedRow row = row.all Stmt.wellFormed := by
  induction row with
  | nil => rfl
  | cons s row ih => rw [wellFormedRow, ih, List.all_cons]

/-! ## Rows of operands

Trees nest to the left and are read from the left. The row view of a tree, its first operand
and the operators with the operands after them, is what the two have in common. -/

open Slot

/-- The tokens of an operator and the operand after it. -/
def operandSlots {α : Type} (slots : α → List Slot) (x : BinaryOp × α) : List Slot :=
  mark x.1.kind :: slots x.2

namespace Expr

/-- An expression is its first term, with the others joined to it from the left. -/
theorem foldl_rest : ∀ e : Expr,
    e.rest.foldl (fun left x => .binary left x.1 x.2) (.term e.first) = e
  | .term _ => rfl
  | .binary left op right => by
    rw [rest, List.foldl_append, first, foldl_rest left]
    rfl

/-- Printing goes through the row in the same order. -/
theorem slots_eq_row : ∀ e : Expr,
    e.slots = e.first.slots ++ e.rest.flatMap (operandSlots Term.slots)
  | .term t => by simp [slots, first, rest]
  | .binary left op right => by
    rw [slots, slots_eq_row left, first, rest, List.flatMap_append, List.append_assoc]
    simp [operandSlots]

/-- A well-formed expression is a row of well-formed terms between sums and differences. -/
theorem wellFormed_row : ∀ {e : Expr}, e.wellFormed = true →
    e.first.wellFormed = true ∧
      ∀ x ∈ e.rest, x.1.isAdditive = true ∧ x.2.wellFormed = true
  | .term t, h => ⟨h, by simp [rest]⟩
  | .binary left op right, h => by
    simp only [wellFormed, Bool.and_eq_true] at h
    obtain ⟨hfirst, hrest⟩ := wellFormed_row h.1.1
    refine ⟨hfirst, fun x hx => ?_⟩
    rw [rest, List.mem_append, List.mem_singleton] at hx
    rcases hx with hx | rfl
    · exact hrest x hx
    · exact ⟨h.1.2, h.2⟩

end Expr

namespace Term

/-- A term is its first factor, with the others joined to it from the left. -/
theorem foldl_rest : ∀ t : Term,
    t.rest.foldl (fun left x => .binary left x.1 x.2) (.factor t.first) = t
  | .factor _ => rfl
  | .binary left op right => by
    rw [rest, List.foldl_append, first, foldl_rest left]
    rfl

/-- Printing goes through the row of factors in the same order. -/
theorem slots_eq_row : ∀ t : Term,
    t.slots = t.first.slots ++ t.rest.flatMap (operandSlots Factor.slots)
  | .factor f => by simp [slots, first, rest]
  | .binary left op right => by
    rw [slots, slots_eq_row left, first, rest, List.flatMap_append, List.append_assoc]
    simp [operandSlots]

/-- A well-formed product is a row of well-formed factors between products. -/
theorem wellFormed_product_row : ∀ {t : Term}, t.wellFormed = true → t.isProduct = true →
    t.first.wellFormed = true ∧
      ∀ x ∈ t.rest, x.1.isMultiplicative = true ∧ x.2.wellFormed = true
  | .factor f, h, _ => ⟨h, by simp [rest]⟩
  | .binary left op right, h, hproduct => by
    simp only [wellFormed, isProduct, Bool.and_eq_true] at h hproduct
    obtain ⟨hfirst, hrest⟩ := wellFormed_product_row h.1.1 hproduct.1
    refine ⟨hfirst, fun x hx => ?_⟩
    rw [rest, List.mem_append, List.mem_singleton] at hx
    rcases hx with hx | rfl
    · exact hrest x hx
    · exact ⟨hproduct.2, h.2⟩

/-- A well-formed term is a row of well-formed factors, first between products and then
between comparisons. -/
theorem wellFormed_row : ∀ {t : Term}, t.wellFormed = true →
    t.first.wellFormed = true ∧ ∃ products comparisons, t.rest = products ++ comparisons ∧
      (∀ x ∈ products, x.1.isMultiplicative = true ∧ x.2.wellFormed = true) ∧
      ∀ x ∈ comparisons, x.1.isRelational = true ∧ x.2.wellFormed = true
  | .factor f, h => ⟨h, [], [], rfl, by simp, by simp⟩
  | .binary left op right, h => by
    cases hproduct : (Term.binary left op right).isProduct with
    -- a product has no comparisons at all, and the second part of the row is empty
    | true =>
      obtain ⟨hfirst, hrest⟩ := wellFormed_product_row h hproduct
      exact ⟨hfirst, _, [], (List.append_nil _).symm, hrest, by simp⟩
    | false =>
      simp only [wellFormed, Bool.and_eq_true, Bool.or_eq_true] at h
      -- the last operator compares, or else the whole term were a product
      have hop : op.isRelational = true := by
        rcases h.1.2 with hop | hop
        · rw [isProduct, hop.1, hop.2] at hproduct
          cases hproduct
        · exact hop
      obtain ⟨hfirst, products, comparisons, hrest, hproducts, hcomparisons⟩ :=
        wellFormed_row h.1.1
      refine ⟨hfirst, products, comparisons ++ [(op, right)], ?_, hproducts, ?_⟩
      · rw [rest, hrest, List.append_assoc]
      · intro x hx
        rw [List.mem_append, List.mem_singleton] at hx
        rcases hx with hx | rfl
        · exact hcomparisons x hx
        · exact ⟨hop, h.2⟩

end Term

/-! ## First tokens -/

/-- Whether an operand can start with a token of the kind. -/
def Kind.startsOperand : Kind → Bool
  | number | identifier | openParen => true
  | _ => false

/-- A factor has at least one token, and its kind tells that an operand starts. -/
theorem Factor.exists_slots_eq_cons (f : Factor) :
    ∃ s more, f.slots = s :: more ∧ s.kind.startsOperand = true := by
  cases f <;> exact ⟨_, _, rfl, rfl⟩

/-- An expression starts with its first factor. -/
theorem Expr.exists_slots_eq_cons (e : Expr) :
    ∃ s more, e.slots = s :: more ∧ s.kind.startsOperand = true := by
  obtain ⟨s, more, hslots, hs⟩ := e.first.first.exists_slots_eq_cons
  rw [e.slots_eq_row, e.first.slots_eq_row, hslots]
  exact ⟨s, _, rfl, hs⟩

/-- A statement starts with a token from which the table of the language reads one. -/
theorem Stmt.exists_slots_eq_cons (s : Stmt) :
    ∃ t more, s.slots = t :: more ∧ t.isEnding = false ∧
      (Forms.standard t.kind).isSome = true := by
  have htype (type : DataType) : (Forms.standard type.kind).isSome = true := by
    cases type <;> rfl
  cases s with
  | declaration d => exact ⟨_, _, rfl, rfl, htype _⟩
  | function signature body bodyLine => exact ⟨_, _, rfl, rfl, htype _⟩
  | prototype signature => exact ⟨_, _, rfl, rfl, htype _⟩
  | result value line => cases value <;> exact ⟨_, _, rfl, rfl, rfl⟩
  | _ => exact ⟨_, _, rfl, rfl, rfl⟩

/-! ## Tokens that cannot be left out -/

namespace Slot

/-- Whether the token must be there: it is neither the end of the input nor an ending. -/
def isSolid (s : Slot) : Bool :=
  s.kind != .eof && !s.isEnding

@[simp] theorem isSolid_mark (k : Kind) : (mark k).isSolid = (k != .eof) := by
  simp [isSolid, mark]

@[simp] theorem isSolid_first (k : Kind) (line : Nat) :
    (Slot.first k line).isSolid = (k != .eof) := by
  simp [isSolid, Slot.first]

@[simp] theorem isSolid_word (text : String) : (word text).isSolid = true := by
  simp [isSolid, word]

@[simp] theorem isSolid_firstWord (k : Kind) (text : String) (line : Nat) :
    (firstWord k text line).isSolid = (k != .eof) := by
  simp [isSolid, firstWord]

/-- Commas are solid, so a row of rows is if they all are. -/
theorem all_isSolid_separated {rows : List (List Slot)}
    (h : ∀ row ∈ rows, row.all isSolid = true) : (separated rows).all isSolid = true := by
  cases rows with
  | nil => rfl
  | cons row rows =>
    rw [separated, List.all_append, h row List.mem_cons_self, Bool.true_and, List.all_flatMap,
      List.all_eq_true]
    intro row' hrow'
    rw [List.all_cons, h row' (List.mem_cons_of_mem _ hrow')]
    rfl

end Slot

mutual

/-- Nothing in an expression can be left out, since endings belong to statements. -/
theorem Expr.all_isSolid_slots (e : Expr) : e.slots.all isSolid = true := by
  cases e with
  | term t => exact t.all_isSolid_slots
  | binary left op right =>
    simp [Expr.slots, Expr.all_isSolid_slots left, right.all_isSolid_slots, op.kind_ne_eof]

/-- Nor in a term. -/
theorem Term.all_isSolid_slots (t : Term) : t.slots.all isSolid = true := by
  cases t with
  | factor f => exact f.all_isSolid_slots
  | binary left op right =>
    simp [Term.slots, Term.all_isSolid_slots left, right.all_isSolid_slots, op.kind_ne_eof]

/-- Nor in a factor. -/
theorem Factor.all_isSolid_slots (f : Factor) : f.slots.all isSolid = true := by
  cases f with
  | number text line => rfl
  | ident name line => rfl
  | call name arguments line =>
    simp [Factor.slots, all_isSolid_separated (all_isSolid_argumentSlots arguments)]
  | group inner line => simp [Factor.slots, inner.all_isSolid_slots]

/-- Nor in the arguments of a call. -/
theorem all_isSolid_argumentSlots (es : List Expr) :
    ∀ row ∈ argumentSlots es, row.all isSolid = true := by
  cases es with
  | nil => simp [argumentSlots]
  | cons e es =>
    rw [argumentSlots, List.forall_mem_cons]
    exact ⟨e.all_isSolid_slots, all_isSolid_argumentSlots es⟩

end

/-- Nor in a declared name with its initializer. -/
theorem Declarator.all_isSolid_slots (d : Declarator) : d.slots.all isSolid = true := by
  obtain ⟨name, initializer⟩ := d
  cases initializer <;> simp [Declarator.slots, Expr.all_isSolid_slots]

/-- Nor in a declaration, whose semicolon is printed with the statement. -/
theorem Declaration.all_isSolid_slots (d : Declaration) : d.slots.all isSolid = true := by
  have hdeclarators : (separated (d.declarators.map Declarator.slots)).all isSolid = true :=
    all_isSolid_separated (List.forall_mem_map.mpr fun d _ => d.all_isSolid_slots)
  simp [Declaration.slots, hdeclarators, d.type.kind_ne_eof]

/-- Nor in an assignment, for the same reason. -/
theorem Assignment.all_isSolid_slots (a : Assignment) : a.slots.all isSolid = true := by
  simp [Assignment.slots, a.op.kind_ne_eof, a.value.all_isSolid_slots]

/-- Nor in the start of a loop. The semicolon behind it is a plain mark. -/
theorem ForInit.all_isSolid_slots (i : ForInit) : i.slots.all isSolid = true := by
  cases i with
  | declaration d => exact d.all_isSolid_slots
  | assignment a => exact a.all_isSolid_slots

/-- Nor in the step of a loop. -/
theorem ForStep.all_isSolid_slots (s : ForStep) : s.slots.all isSolid = true := by
  cases s with
  | increment target line => rfl
  | decrement target line => rfl
  | assignment a => exact a.all_isSolid_slots

/-- Nor in a parameter. -/
theorem Parameter.all_isSolid_slots (p : Parameter) : p.slots.all isSolid = true := by
  simp [Parameter.slots, p.type.kind_ne_eof]

/-- Nor in the head of a function. -/
theorem Signature.all_isSolid_slots (s : Signature) : s.slots.all isSolid = true := by
  have hparameters : (separated (s.parameters.map Parameter.slots)).all isSolid = true :=
    all_isSolid_separated (List.forall_mem_map.mpr fun p _ => p.all_isSolid_slots)
  simp [Signature.slots, hparameters, s.returnType.kind_ne_eof]

/-- What is left out as a whole has no tokens. -/
theorem all_isSolid_optionSlots {α : Type} {slots : α → List Slot}
    (h : ∀ a, (slots a).all isSolid = true) (o : Option α) :
    (optionSlots slots o).all isSolid = true := by
  cases o with
  | none => rfl
  | some a => exact h a

/-- A condition stands between marks. -/
theorem all_isSolid_conditionSlots (e : Expr) : (conditionSlots e).all isSolid = true := by
  simp [conditionSlots, e.all_isSolid_slots]

/-- Solid tokens are no ends of the input. -/
theorem all_kind_ne_eof_of_all_isSolid {slots : List Slot} (h : slots.all isSolid = true) :
    (slots.all fun s => s.kind != .eof) = true := by
  rw [List.all_eq_true] at h ⊢
  intro s hs
  have hsolid := h s hs
  rw [isSolid, Bool.and_eq_true] at hsolid
  exact hsolid.1

mutual

/-- A statement may have endings, so its tokens are not all solid. But none of them is the end of
the input, and reading does not stop inside. -/
theorem Stmt.all_kind_ne_eof_slots (s : Stmt) :
    (s.slots.all fun t => t.kind != .eof) = true := by
  cases s with
  | block body line => simp [Stmt.slots, Slot.first, mark, all_kind_ne_eof_rowSlots body]
  -- the ending is a semicolon, and everything before it is solid
  | declaration d =>
    simp [Stmt.slots, ending, all_kind_ne_eof_of_all_isSolid d.all_isSolid_slots]
  | assignment a =>
    simp [Stmt.slots, ending, all_kind_ne_eof_of_all_isSolid a.all_isSolid_slots]
  | ifThen condition body line =>
    simp [Stmt.slots, Slot.first, body.all_kind_ne_eof_slots,
      all_kind_ne_eof_of_all_isSolid (all_isSolid_conditionSlots condition)]
  | ifElse condition onTrue onFalse line =>
    simp [Stmt.slots, Slot.first, mark, onTrue.all_kind_ne_eof_slots,
      onFalse.all_kind_ne_eof_slots,
      all_kind_ne_eof_of_all_isSolid (all_isSolid_conditionSlots condition)]
  | whileLoop condition body line =>
    simp [Stmt.slots, Slot.first, body.all_kind_ne_eof_slots,
      all_kind_ne_eof_of_all_isSolid (all_isSolid_conditionSlots condition)]
  | forLoop init condition step body line =>
    simp [Stmt.slots, Slot.first, mark, body.all_kind_ne_eof_slots,
      all_kind_ne_eof_of_all_isSolid
        (all_isSolid_optionSlots ForInit.all_isSolid_slots init),
      all_kind_ne_eof_of_all_isSolid
        (all_isSolid_optionSlots Expr.all_isSolid_slots condition),
      all_kind_ne_eof_of_all_isSolid
        (all_isSolid_optionSlots ForStep.all_isSolid_slots step)]
  | function signature body bodyLine =>
    simp [Stmt.slots, Slot.first, mark, all_kind_ne_eof_rowSlots body,
      all_kind_ne_eof_of_all_isSolid signature.all_isSolid_slots]
  | prototype signature =>
    simp [Stmt.slots, mark, all_kind_ne_eof_of_all_isSolid signature.all_isSolid_slots]
  | result value line =>
    cases value <;> simp [Stmt.slots, Slot.first, mark, ending,
      all_kind_ne_eof_of_all_isSolid (Expr.all_isSolid_slots _)]

/-- So it is in a row of statements. -/
theorem all_kind_ne_eof_rowSlots (row : List Stmt) :
    ((rowSlots row).all fun t => t.kind != .eof) = true := by
  cases row with
  | nil => rfl
  | cons s more =>
    rw [rowSlots, List.all_append, s.all_kind_ne_eof_slots, all_kind_ne_eof_rowSlots more]
    rfl

end

end Tercet
