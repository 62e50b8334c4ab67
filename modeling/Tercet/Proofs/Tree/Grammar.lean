import Tercet.Proofs.Tree.Shape

/-!
# `Tercet.Proofs.Tree.Grammar`: the grammar of the language

The grammar as a table, one rule for each category, with a relation that says which rows of
kinds a rule derives. It knows nothing of trees and readers. Well-formed trees fit it: what a
tree prints is derived by the rule for its category (`Program.derives`), so a row of kinds
outside the grammar is not what any well-formed program prints.

The grammar derives more than well-formed trees print. It lets variables be `void`, and it
leaves open which branch an `else` belongs to.
-/

set_option autoImplicit false

namespace Tercet

/-- What the grammar has rules for. -/
inductive Category where
  | program | statement
  | declaration | assignment | branch | whileLoop | forLoop | forInit | forStep
  | block | function | prototype | parameters | result
  | expr | term | factor | type
deriving DecidableEq, Repr

/-- The right side of a rule. -/
inductive Rule where
  | kind (k : Kind)
  | the (c : Category)
  /-- All parts, one after the other. -/
  | row (parts : List Rule)
  | oneOf (choices : List Rule)
  /-- The part, or nothing. -/
  | maybe (part : Rule)
  /-- The part, any number of times. -/
  | many (part : Rule)

namespace Rule

/-- One token of any of the kinds. -/
def anyOf (kinds : List Kind) : Rule :=
  oneOf (kinds.map kind)

/-- The part once or more, with commas between. -/
def separated (part : Rule) : Rule :=
  row [part, many (row [kind .comma, part])]

/-- A name with an optional first value. -/
def declarator : Rule :=
  row [kind .identifier, maybe (row [kind .assign, the .expr])]

/-- The tail of a sum. -/
def summand : Rule :=
  row [anyOf [.plus, .minus], the .term]

/-- The tail of a product. -/
def multiplier : Rule :=
  row [anyOf [.star, .slash, .percent], the .factor]

/-- The tail of a comparison. -/
def comparand : Rule :=
  row [anyOf [.less, .lessEqual, .greater, .greaterEqual, .equal, .notEqual], the .factor]

end Rule

open Rule in
/-- The rule for each category. -/
def Category.rule : Category → Rule
  | program => many (the statement)
  | statement =>
    oneOf [the declaration, row [the assignment, kind .semicolon], the branch, the whileLoop,
      the forLoop, the block, the function, the prototype, the result]
  | declaration => row [the type, separated declarator, kind .semicolon]
  | assignment =>
    row [kind .identifier,
      anyOf [.assign, .addAssign, .subAssign, .mulAssign, .divAssign, .modAssign], the expr]
  | branch =>
    row [kind .kwIf, kind .openParen, the expr, kind .closeParen, the statement,
      maybe (row [kind .kwElse, the statement])]
  | whileLoop => row [kind .kwWhile, kind .openParen, the expr, kind .closeParen, the statement]
  | forLoop =>
    row [kind .kwFor, kind .openParen, maybe (the forInit), kind .semicolon, maybe (the expr),
      kind .semicolon, maybe (the forStep), kind .closeParen, the statement]
  | forInit => oneOf [row [the type, separated declarator], the assignment]
  | forStep =>
    oneOf [row [kind .identifier, kind .increment], row [kind .identifier, kind .decrement],
      the assignment]
  | block => row [kind .openBrace, many (the statement), kind .closeBrace]
  | function =>
    row [the type, kind .identifier, kind .openParen, maybe (the parameters), kind .closeParen,
      the block]
  | prototype =>
    row [the type, kind .identifier, kind .openParen, maybe (the parameters), kind .closeParen,
      kind .semicolon]
  | parameters => separated (row [the type, kind .identifier])
  | result => row [kind .kwReturn, maybe (the expr), kind .semicolon]
  | expr => row [the term, many summand]
  | term => row [the factor, many multiplier, many comparand]
  | factor =>
    oneOf [kind .number, kind .identifier,
      row [kind .identifier, kind .openParen, maybe (separated (the expr)), kind .closeParen],
      row [kind .openParen, the expr, kind .closeParen]]
  | type => anyOf [.kwInt, .kwDouble, .kwVoid]

/-- The row of kinds follows the rule. -/
inductive Derives : Rule → List Kind → Prop where
  | kind (k : Kind) : Derives (.kind k) [k]
  | the {c : Category} {ks : List Kind} : Derives c.rule ks → Derives (.the c) ks
  | rowNil : Derives (.row []) []
  | rowCons {r : Rule} {rs : List Rule} {ks ls : List Kind} :
      Derives r ks → Derives (.row rs) ls → Derives (.row (r :: rs)) (ks ++ ls)
  | oneOf {r : Rule} {choices : List Rule} {ks : List Kind} :
      r ∈ choices → Derives r ks → Derives (.oneOf choices) ks
  | maybeNot {r : Rule} : Derives (.maybe r) []
  | maybe {r : Rule} {ks : List Kind} : Derives r ks → Derives (.maybe r) ks
  | manyNil {r : Rule} : Derives (.many r) []
  | manyCons {r : Rule} {ks ls : List Kind} :
      Derives r ks → Derives (.many r) ls → Derives (.many r) (ks ++ ls)

namespace Derives

variable {r : Rule} {rs : List Rule} {ks ls : List Kind} {k : Kind}

/-- One of the kinds follows the rule. -/
theorem anyOf {kinds : List Kind} (h : k ∈ kinds) : Derives (.anyOf kinds) [k] :=
  oneOf (List.mem_map_of_mem h) (.kind k)

/-- A token at the head of a row. -/
theorem consKind (h : Derives (.row rs) ks) : Derives (.row (.kind k :: rs)) (k :: ks) :=
  rowCons (.kind k) h

/-- The last part of a row. -/
theorem single (h : Derives r ks) : Derives (.row [r]) ks := by
  have hrow : Derives (.row [r]) (ks ++ []) := rowCons h rowNil
  rwa [List.append_nil] at hrow

/-- Repetitions one after the other are one repetition. -/
theorem many_append (h : Derives (.many r) ks) (h' : Derives (.many r) ls) :
    Derives (.many r) (ks ++ ls) := by
  -- by induction on the first repetition, which only two of the rules can end with
  generalize hmany : Rule.many r = m at h
  induction h with
  | manyNil =>
      obtain rfl := Rule.many.inj hmany
      exact h'
  | @manyCons r' ks' ls' hks _ _ ih =>
      obtain rfl := Rule.many.inj hmany
      rw [List.append_assoc]
      exact manyCons hks (ih rfl)
  | _ => cases hmany

/-- One more at the end. -/
theorem many_concat (h : Derives (.many r) ks) (h' : Derives r ls) :
    Derives (.many r) (ks ++ ls) := by
  have hlast : Derives (.many r) (ls ++ []) := manyCons h' manyNil
  rw [List.append_nil] at hlast
  exact many_append h hlast

/-- Items that each follow the rule are a repetition of it. -/
theorem many_flatMap {α : Type} {items : List α} {f : α → List Kind}
    (h : ∀ a ∈ items, Derives r (f a)) : Derives (.many r) (items.flatMap f) := by
  induction items with
  | nil => exact manyNil
  | cons a items ih =>
      rw [List.forall_mem_cons] at h
      exact manyCons h.1 (ih h.2)

/-- Items with commas between them. -/
theorem separated {α : Type} {items : List α} {slots : α → List Slot} (hitems : items ≠ [])
    (h : ∀ a ∈ items, Derives r ((slots a).map Slot.kind)) :
    Derives (.separated r)
      ((Slot.separated (items.map slots)).map Slot.kind) := by
  obtain ⟨a, items, rfl⟩ := List.exists_cons_of_ne_nil hitems
  rw [List.forall_mem_cons] at h
  rw [List.map_cons, Slot.separated, List.map_append, List.flatMap_map, List.map_flatMap]
  refine rowCons h.1 (single (many_flatMap fun b hb => ?_))
  rw [List.map_cons]
  exact consKind (single (h.2 b hb))

end Derives

open Derives

/-- The operators of sums are the signs of the rule for sums. -/
theorem BinaryOp.derives_of_isAdditive {op : BinaryOp} (h : op.isAdditive = true) :
    Derives (.anyOf [.plus, .minus]) [op.kind] := by
  refine .anyOf ?_
  revert h
  cases op <;> decide

/-- The operators of products are the signs of the rule for products. -/
theorem BinaryOp.derives_of_isMultiplicative {op : BinaryOp} (h : op.isMultiplicative = true) :
    Derives (.anyOf [.star, .slash, .percent]) [op.kind] := by
  refine .anyOf ?_
  revert h
  cases op <;> decide

/-- The operators of comparisons are the signs of the rule for comparisons. -/
theorem BinaryOp.derives_of_isRelational {op : BinaryOp} (h : op.isRelational = true) :
    Derives (.anyOf [.less, .lessEqual, .greater, .greaterEqual, .equal, .notEqual])
      [op.kind] := by
  refine .anyOf ?_
  revert h
  cases op <;> decide

/-- No comparison is a product. -/
theorem BinaryOp.isMultiplicative_of_isRelational (op : BinaryOp) (h : op.isRelational = true) :
    op.isMultiplicative = false := by
  revert h
  cases op <;> decide

/-- The operators of assignments are the signs of the rule for assignments. -/
theorem AssignOp.derives (op : AssignOp) :
    Derives (.anyOf [.assign, .addAssign, .subAssign, .mulAssign, .divAssign, .modAssign])
      [op.kind] := by
  refine .anyOf ?_
  cases op <;> decide

/-- A type is one of the three keywords. -/
theorem DataType.derives (type : DataType) : Derives (.the .type) [type.kind] := by
  refine .the (.anyOf ?_)
  cases type <;> decide

/-! ## Expressions

Rows of operands are printed from left to right and nested to the left, so a tail of the row
is added at its end. The lemmas keep the parts of a row apart until it is complete. -/

/-- A term and the summands after it. -/
def DerivesExpr (ms : List Kind) : Prop :=
  ∃ ks ls, ms = ks ++ ls ∧ Derives (.the .term) ks ∧ Derives (.many .summand) ls

/-- A factor, the multipliers after it, and the comparands after those, if there may be some. -/
def DerivesTerm (isProduct : Bool) (ms : List Kind) : Prop :=
  ∃ ks ls js, ms = ks ++ (ls ++ js) ∧ Derives (.the .factor) ks ∧
    Derives (.many .multiplier) ls ∧ Derives (.many .comparand) js ∧
    (isProduct = true → js = [])

/-- A term with its summands is an expression. -/
theorem DerivesExpr.derives {ms : List Kind} (h : DerivesExpr ms) : Derives (.the .expr) ms := by
  obtain ⟨ks, ls, rfl, hks, hls⟩ := h
  exact .the (.rowCons hks (single hls))

/-- A factor with its multipliers and comparands is a term. -/
theorem DerivesTerm.derives {isProduct : Bool} {ms : List Kind} (h : DerivesTerm isProduct ms) :
    Derives (.the .term) ms := by
  obtain ⟨ks, ls, js, rfl, hks, hls, hjs, -⟩ := h
  exact .the (.rowCons hks (.rowCons hls (single hjs)))

mutual

/-- A well-formed expression is a term with its summands. -/
theorem Expr.derivesExpr (e : Expr) (he : e.wellFormed = true) :
    DerivesExpr (e.slots.map Slot.kind) := by
  cases e with
  | term t => exact ⟨_, [], (List.append_nil _).symm, (t.derivesTerm he).derives, .manyNil⟩
  | binary left op right =>
      simp only [Expr.wellFormed, Bool.and_eq_true] at he
      obtain ⟨ks, ls, hslots, hks, hls⟩ := left.derivesExpr he.1.1
      have hright := (right.derivesTerm he.2).derives
      -- the right side is one more summand at the end
      refine ⟨ks, ls ++ op.kind :: right.slots.map Slot.kind, ?_, hks, many_concat hls ?_⟩
      · rw [Expr.slots, List.map_append, hslots, List.append_assoc]
        rfl
      · exact .rowCons (BinaryOp.derives_of_isAdditive he.1.2) (single hright)

/-- A well-formed term is a factor with its multipliers and comparands, the latter only if it is
no product. -/
theorem Term.derivesTerm (t : Term) (ht : t.wellFormed = true) :
    DerivesTerm t.isProduct (t.slots.map Slot.kind) := by
  cases t with
  | factor f =>
      exact ⟨_, [], [], (List.append_nil _).symm, f.derives ht, .manyNil, .manyNil,
        fun _ => rfl⟩
  | binary left op right =>
      simp only [Term.wellFormed, Bool.and_eq_true, Bool.or_eq_true] at ht
      obtain ⟨ks, ls, js, hslots, hks, hls, hjs, hproduct⟩ := left.derivesTerm ht.1.1
      have hright := right.derives ht.2
      rcases ht.1.2 with ⟨hop, hleft⟩ | hop
      · -- the left side has no comparison, so the factor goes on with the products
        obtain rfl := hproduct hleft
        refine ⟨ks, ls ++ op.kind :: right.slots.map Slot.kind, [], ?_, hks,
          many_concat hls ?_, .manyNil, fun _ => rfl⟩
        · rw [Term.slots, List.map_append, hslots, List.append_nil, List.append_nil,
            List.append_assoc]
          rfl
        · exact .rowCons (BinaryOp.derives_of_isMultiplicative hop) (single hright)
      -- a comparison may follow products and comparisons alike
      · refine ⟨ks, ls, js ++ op.kind :: right.slots.map Slot.kind, ?_, hks, hls,
          many_concat hjs ?_, ?_⟩
        · rw [Term.slots, List.map_append, hslots, List.append_assoc, List.append_assoc]
          rfl
        · exact .rowCons (BinaryOp.derives_of_isRelational hop) (single hright)
        · rw [Term.isProduct, op.isMultiplicative_of_isRelational hop, Bool.and_false]
          exact fun h => absurd h Bool.false_ne_true

/-- A well-formed factor follows the rule of its kind. -/
theorem Factor.derives (f : Factor) (hf : f.wellFormed = true) :
    Derives (.the .factor) (f.slots.map Slot.kind) := by
  cases f with
  | number text line => exact .the (.oneOf List.mem_cons_self (.kind .number))
  | ident name line =>
      exact .the (.oneOf (List.mem_cons_of_mem _ List.mem_cons_self) (.kind .identifier))
  | call name arguments line =>
      have harguments := derives_arguments arguments hf
      refine .the (.oneOf (List.mem_cons_of_mem _ (List.mem_cons_of_mem _ List.mem_cons_self)) ?_)
      rw [Factor.slots, List.map_cons, List.map_cons, List.map_append]
      refine consKind (consKind (.rowCons ?_ (single (.kind .closeParen))))
      cases arguments with
      | nil => exact .maybeNot
      | cons e es =>
          rw [argumentSlots_eq_map]
          exact .maybe (Derives.separated (List.cons_ne_nil e es) harguments)
  | group inner line =>
      refine .the (.oneOf (List.mem_cons_of_mem _ (List.mem_cons_of_mem _
        (List.mem_cons_of_mem _ List.mem_cons_self))) ?_)
      rw [Factor.slots, List.map_cons, List.map_append]
      exact consKind (.rowCons (inner.derivesExpr hf).derives (single (.kind .closeParen)))

/-- So does each argument of a well-formed call. -/
theorem derives_arguments (es : List Expr) (hes : wellFormedArguments es = true) :
    ∀ e ∈ es, Derives (.the .expr) (e.slots.map Slot.kind) := by
  cases es with
  | nil => simp
  | cons e es =>
      rw [wellFormedArguments, Bool.and_eq_true] at hes
      exact List.forall_mem_cons.mpr
        ⟨(e.derivesExpr hes.1).derives, derives_arguments es hes.2⟩

end

/-- What a well-formed expression prints is an expression of the grammar. -/
theorem Expr.derives (e : Expr) (he : e.wellFormed = true) :
    Derives (.the .expr) (e.slots.map Slot.kind) :=
  (e.derivesExpr he).derives

/-! ## Statements -/

/-- A declared name, with its first value if it has one. -/
theorem Declarator.derives (d : Declarator) (hd : d.wellFormed = true) :
    Derives .declarator (d.slots.map Slot.kind) := by
  obtain ⟨name, initializer⟩ := d
  cases initializer with
  | none => exact consKind (single .maybeNot)
  | some e => exact consKind (single (.maybe (consKind (single (e.derives hd)))))

/-- A declaration is its type and its names. -/
theorem Declaration.derives (d : Declaration) (hd : d.wellFormed = true) :
    ∃ ks ls, d.slots.map Slot.kind = ks ++ ls ∧ Derives (.the .type) ks ∧
      Derives (.separated .declarator) ls := by
  simp only [Declaration.wellFormed, Bool.and_eq_true, List.all_eq_true] at hd
  exact ⟨[d.type.kind], _, rfl, d.type.derives,
    .separated (by simpa using hd.1.2) fun d h => d.derives (hd.2 d h)⟩

/-- A target, an operator and a value. -/
theorem Assignment.derives (a : Assignment) (ha : a.value.wellFormed = true) :
    Derives (.the .assignment) (a.slots.map Slot.kind) :=
  .the (consKind (.rowCons a.op.derives (single (a.value.derives ha))))

/-- The start of a counted loop is a declaration or an assignment. -/
theorem ForInit.derives (i : ForInit) (hi : i.wellFormed = true) :
    Derives (.the .forInit) (i.slots.map Slot.kind) := by
  cases i with
  | declaration d =>
      obtain ⟨ks, ls, hslots, hks, hls⟩ := d.derives hi
      rw [ForInit.slots, hslots]
      exact .the (.oneOf List.mem_cons_self (.rowCons hks (single hls)))
  | assignment a =>
      exact .the (.oneOf (List.mem_cons_of_mem _ List.mem_cons_self) (a.derives hi))

/-- What a counted loop does after each round has one of three forms. -/
theorem ForStep.derives (s : ForStep) (hs : s.wellFormed = true) :
    Derives (.the .forStep) (s.slots.map Slot.kind) := by
  cases s with
  | increment target line =>
      exact .the (.oneOf List.mem_cons_self (consKind (single (.kind .increment))))
  | decrement target line =>
      exact .the (.oneOf (List.mem_cons_of_mem _ List.mem_cons_self)
        (consKind (single (.kind .decrement))))
  | assignment a =>
      exact .the (.oneOf (List.mem_cons_of_mem _ (List.mem_cons_of_mem _ List.mem_cons_self))
        (a.derives hs))

/-- A part that may be left out. -/
theorem derives_optionSlots {α : Type} {slots : α → List Slot} {good : α → Bool} {r : Rule}
    (h : ∀ a, good a = true → Derives r ((slots a).map Slot.kind)) (o : Option α)
    (ho : o.all good = true) : Derives (.maybe r) ((optionSlots slots o).map Slot.kind) := by
  cases o with
  | none => exact .maybeNot
  | some a => exact .maybe (h a ho)

/-- The head of a function goes on with its body or its semicolon. -/
theorem Signature.derives (s : Signature) {r : Rule} {ks : List Kind} (h : Derives r ks) :
    Derives (.row [.the .type, .kind .identifier, .kind .openParen, .maybe (.the .parameters),
      .kind .closeParen, r]) (s.slots.map Slot.kind ++ ks) := by
  have hparameters : Derives (.maybe (.the .parameters))
      ((Slot.separated (s.parameters.map Parameter.slots)).map Slot.kind) := by
    cases hs : s.parameters with
    | nil => exact .maybeNot
    | cons q qs =>
        refine .maybe (.the (.separated (List.cons_ne_nil q qs) fun q _ => ?_))
        exact .rowCons q.type.derives (single (.kind .identifier))
  rw [Signature.slots]
  simp only [List.map_cons, List.map_append, List.cons_append, List.append_assoc]
  exact .rowCons s.returnType.derives (consKind (consKind (.rowCons hparameters
    (consKind (single h)))))

/-- A statement of one of the categories of statements. -/
theorem Derives.statement {c : Category} {ks : List Kind}
    (hc : c ∈ [Category.declaration, .branch, .whileLoop, .forLoop, .block, .function,
      .prototype, .result]) (h : Derives c.rule ks) : Derives (.the .statement) ks := by
  refine .the (.oneOf ?_ (.the h))
  revert hc
  cases c <;> simp

mutual

/-- What a well-formed statement prints is a statement of the grammar. -/
theorem Stmt.derives (s : Stmt) (hs : s.wellFormed = true) :
    Derives (.the .statement) (s.slots.map Slot.kind) := by
  cases s with
  | block body line => exact .statement (c := .block) (by decide) (derives_block body hs)
  | declaration d =>
      obtain ⟨ks, ls, hslots, hks, hls⟩ := d.derives hs
      rw [Stmt.slots, List.map_append, hslots, List.append_assoc]
      exact .statement (c := .declaration) (by decide)
        (.rowCons hks (.rowCons hls (single (.kind .semicolon))))
  | assignment a =>
      rw [Stmt.slots, List.map_append]
      exact .the (.oneOf (List.mem_cons_of_mem _ List.mem_cons_self)
        (.rowCons (a.derives hs) (single (.kind .semicolon))))
  | ifThen condition body line =>
      simp only [Stmt.wellFormed, Bool.and_eq_true] at hs
      simp only [Stmt.slots, conditionSlots, List.map_cons, List.map_append, List.cons_append,
        List.append_assoc, List.nil_append]
      -- the part for `else` is left out
      have hbody : Derives (.row [.the .statement, .maybe (.row [.kind .kwElse, .the .statement])])
          (body.slots.map Slot.kind ++ []) :=
        .rowCons (body.derives hs.2) (single .maybeNot)
      rw [List.append_nil] at hbody
      exact .statement (c := .branch) (by decide)
        (consKind (consKind (.rowCons (condition.derives hs.1) (consKind hbody))))
  | ifElse condition onTrue onFalse line =>
      simp only [Stmt.wellFormed, Bool.and_eq_true] at hs
      simp only [Stmt.slots, conditionSlots, List.map_cons, List.map_append, List.cons_append,
        List.append_assoc, List.nil_append]
      have helse := Derives.maybe (consKind (k := .kwElse) (single (onFalse.derives hs.2)))
      exact .statement (c := .branch) (by decide)
        (consKind (consKind (.rowCons (condition.derives hs.1.1.1)
          (consKind (.rowCons (onTrue.derives hs.1.1.2) (single helse))))))
  | whileLoop condition body line =>
      simp only [Stmt.wellFormed, Bool.and_eq_true] at hs
      simp only [Stmt.slots, conditionSlots, List.map_cons, List.map_append, List.cons_append,
        List.append_assoc, List.nil_append]
      exact .statement (c := .whileLoop) (by decide)
        (consKind (consKind (.rowCons (condition.derives hs.1)
          (consKind (single (body.derives hs.2))))))
  | forLoop init condition step body line =>
      simp only [Stmt.wellFormed, Bool.and_eq_true] at hs
      simp only [Stmt.slots, List.map_cons, List.map_append]
      exact .statement (c := .forLoop) (by decide)
        (consKind (consKind (.rowCons (derives_optionSlots ForInit.derives init hs.1.1.1)
          (consKind (.rowCons (derives_optionSlots Expr.derives condition hs.1.1.2)
            (consKind (.rowCons (derives_optionSlots ForStep.derives step hs.1.2)
              (consKind (single (body.derives hs.2))))))))))
  | function signature body bodyLine =>
      rw [Stmt.slots, List.map_append]
      exact .statement (c := .function) (by decide)
        (signature.derives (.the (c := .block) (derives_block body hs)))
  | prototype signature =>
      rw [Stmt.slots, List.map_append]
      exact .statement (c := .prototype) (by decide) (signature.derives (.kind .semicolon))
  | result value line =>
      cases value with
      | none =>
          exact .statement (c := .result) (by decide)
            (consKind (.rowCons .maybeNot (single (.kind .semicolon))))
      | some e =>
          rw [Stmt.slots, List.map_cons, List.map_append]
          exact .statement (c := .result) (by decide)
            (consKind (.rowCons (.maybe (e.derives hs)) (single (.kind .semicolon))))

/-- Statements between braces are a block of the grammar. -/
theorem derives_block (body : List Stmt) (hbody : wellFormedRow body = true) {line : Nat} :
    Derives Category.block.rule
      ((Slot.first .openBrace line :: (rowSlots body ++ [Slot.mark .closeBrace])).map
        Slot.kind) := by
  rw [List.map_cons, List.map_append]
  exact consKind (.rowCons (derives_rowSlots body hbody) (single (.kind .closeBrace)))

/-- Statements one after the other are a repetition of the rule. -/
theorem derives_rowSlots (row : List Stmt) (hrow : wellFormedRow row = true) :
    Derives (.many (.the .statement)) ((rowSlots row).map Slot.kind) := by
  cases row with
  | nil => exact .manyNil
  | cons s more =>
      rw [wellFormedRow, Bool.and_eq_true] at hrow
      rw [rowSlots, List.map_append]
      exact .manyCons (s.derives hrow.1) (derives_rowSlots more hrow.2)

end

/-- What a well-formed program prints is a program of the grammar. -/
theorem Program.derives (p : Program) (hp : p.wellFormed = true) :
    Derives (.the .program) (p.slots.map Slot.kind) :=
  .the (derives_rowSlots p.body hp)

end Tercet
