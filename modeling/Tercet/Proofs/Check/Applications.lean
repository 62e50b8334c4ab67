import Tercet.Proofs.Check.Operators

/-!
# `Tercet.Proofs.Check.Applications`: every operator is looked at once

Every operator of a program belongs to one of the requests that the pass over the program makes
(`Program.perm_operators`). To see what becomes of it, a `Recorder` does the work of a checker and
keeps a record of every operator that it applies to two types.

`applications_analyze` says that a request applies each of its operators once, or none if it is
refused: the declaration of a name that is taken, or a store into a name that stands for nothing.
So no report on operators is made twice, and none is lost. What is on record comes from
`Recorder.serve_eq`, and what is reported from `Recorder.Faithful`, which every request preserves.
-/

set_option autoImplicit false

namespace Tercet

/-! ### Reports on operators -/

/-- Whether the cause is that an operator does not join two types. -/
def Cause.isOperator : Cause → Bool
  | .incompatibleComparison _ _ | .invalidModulo _ _ | .incompatibleOperation _ _ _ => true
  | _ => false

/-- What an operator says about the types of its sides is a report on an operator. -/
theorem BinaryOp.isOperator_of_clash? {op : BinaryOp} {left right : DataType} {cause : Cause}
    (h : op.clash? left right = some cause) : cause.isOperator = true := by
  unfold clash? at h
  split at h
  · split at h <;> cases h
    rfl
  · split at h
    · split at h <;> cases h
      rfl
    · split at h <;> cases h
      rfl

/-- So is what there is to say about an application. -/
theorem Application.isOperator_of_remark? {a : Application} {d : Diagnostic}
    (h : a.remark? = some d) : d.cause.isOperator = true := by
  obtain ⟨op, left, right, line⟩ := a
  cases left with
  -- a side without a type is not remarked on
  | none => cases h
  | some l =>
    cases right with
    | none => cases h
    | some r =>
      obtain ⟨cause, hcause, rfl⟩ := Option.map_eq_some_iff.mp h
      exact BinaryOp.isOperator_of_clash? hcause

namespace Checker

/-- The reports on operators. -/
def operatorReports (c : Checker) : Log :=
  c.log.filter fun d => d.cause.isOperator

variable {c : Checker}

/-- The reports on operators after more has been reported. -/
theorem operatorReports_reportAll (log : Log) :
    (c.reportAll log).operatorReports
      = c.operatorReports ++ log.filter fun d => d.cause.isOperator :=
  List.filter_append _ _

/-- A report on something else leaves the reports on operators as they are. -/
theorem operatorReports_report {cause : Cause} (h : cause.isOperator = false) (line : Nat) :
    (c.report cause line).operatorReports = c.operatorReports := by
  rw [report, operatorReports_reportAll]
  simp [h]

/-- So does a declaration. -/
theorem operatorReports_declare (x : Symbol) :
    (c.declare x).2.operatorReports = c.operatorReports := by
  rw [operatorReports, log_declare, operatorReports]

/-- So does asking whether a name is free. -/
theorem operatorReports_checkFresh (name : String) (line : Nat) :
    (c.checkFresh name line).2.operatorReports = c.operatorReports := by
  rw [checkFresh]
  split
  · exact operatorReports_report rfl line
  · rfl

/-- So does the declaration of a parameter. -/
theorem operatorReports_declareParameter (p : Parameter) (line : Nat) :
    (c.declareParameter p line).2.operatorReports = c.operatorReports := by
  have hfresh := operatorReports_checkFresh (c := c) p.name line
  rw [declareParameter]
  generalize c.checkFresh p.name line = answer at hfresh
  obtain ⟨verdict, d⟩ := answer
  cases verdict with
  | false => exact hfresh
  | true => exact (operatorReports_declare _).trans hfresh

/-- So does the declaration of a function, whether the name is new, known as a function, or
taken. -/
theorem operatorReports_declareFunction (s : Signature) (defined : Bool) :
    (c.declareFunction s defined).2.operatorReports = c.operatorReports := by
  rw [declareFunction]
  split
  · exact operatorReports_declare _
  · split
    · split
      · split <;> rfl
      · rfl
    · exact operatorReports_report rfl _

/-- So does the use of a name. -/
theorem operatorReports_checkUse (name : String) (line : Nat) :
    (c.checkUse name line).2.operatorReports = c.operatorReports := by
  rw [checkUse]
  split
  · exact operatorReports_report rfl line
  · split
    · rfl
    · exact operatorReports_report rfl line

/-- So does counting a variable up or down. -/
theorem operatorReports_checkStep (name : String) (line : Nat) :
    (c.checkStep name line).2.operatorReports = c.operatorReports := by
  have huse := operatorReports_checkUse (c := c) name line
  rw [checkStep]
  generalize c.checkUse name line = answer at huse
  obtain ⟨verdict, d⟩ := answer
  cases verdict <;> exact huse

/-- So does asking whether a value fits. -/
theorem operatorReports_checkAssignable (expected actual : Option DataType) (line : Nat)
    (context : String) :
    (c.checkAssignable expected actual line context).2.operatorReports = c.operatorReports := by
  match expected, actual with
  | some e, some a =>
    rw [checkAssignable]
    split
    · rfl
    · exact operatorReports_report rfl line
  | none, _ | some _, none => rfl

/-- So does looking for what has not been read: each report of it is on a variable. -/
theorem operatorReports_checkUnused : c.checkUnused.operatorReports = c.operatorReports := by
  have hunused : (c.table.symbols.filterMap unused?).filter (fun d => d.cause.isOperator) = [] := by
    rw [List.filter_eq_nil_iff]
    intro d hd
    obtain ⟨x, _, hx⟩ := List.mem_filterMap.mp hd
    cases x with
    | function _ _ => cases hx
    | var v =>
      rw [unused?] at hx
      split at hx
      · cases hx
      · cases hx
        exact Bool.false_ne_true
  rw [checkUnused, operatorReports_reportAll, hunused, List.append_nil]

end Checker

/-! ### Stores leave types as they are -/

section Store

variable {t t' : Table}

/-- In two tables that resolve each other's names alike, a formula has one type. -/
theorem Formula.type?_eq_of_covers (h : t'.Covers t) (h' : t.Covers t') (f : Formula) :
    f.type? t' = f.type? t := by
  refine Option.ext fun type => ?_
  exact ⟨fun htype => h'.type? f htype, fun htype => h.type? f htype⟩

/-- A store leaves the type of a symbol as it is. -/
theorem Symbol.type_store (line : Nat) (x : Symbol) : (x.store line).type = x.type := by
  cases x with
  | var v => cases v with | mk name type line' first used => cases first <;> rfl
  | function s defined => rfl

/-- A formula has the same type before and after a store. -/
theorem Formula.type?_store {name : String} {x : Symbol} (hx : t.resolve? name = some x)
    (line : Nat) (f : Formula) : f.type? (t.store name line) = f.type? t := by
  obtain ⟨k, hk, _⟩ := Table.exists_resolvesAt hx
  have hsame (m : Nat) (z : String) :
      ((t.store name line).at? m z).map Symbol.type = (t.at? m z).map Symbol.type := by
    rw [Table.at?_store hk]
    split
    · rw [Option.map_map]
      exact congrArg (Option.map · (t.at? m z)) (funext (Symbol.type_store line))
    · rfl
  have hto : (t.store name line).Covers t := Table.covers_of_at? fun z _ m => hsame m z
  have hfrom : t.Covers (t.store name line) :=
    Table.covers_of_at? fun z _ m => (hsame m z).symm
  exact Formula.type?_eq_of_covers hto hfrom f

end Store

/-! ### Applications of a request -/

/-- The operators of a formula, each applied to the types that its sides have in a table. -/
def Formula.applications (t : Table) (f : Formula) : List Application :=
  f.operations.map (Operation.application t)

/-- The operators of the left side come first, then those of the right side, then the one
between. -/
theorem Formula.applications_binary (t : Table) (left : Formula) (op : BinaryOp) (right : Formula)
    (line : Nat) :
    (binary left op right line).applications t
      = left.applications t ++ right.applications t
        ++ [Operation.application t ⟨left, op, right, line⟩] := by
  rw [applications, operations, List.map_append, List.map_append]
  rfl

/-- A store leaves the applications of a formula as they are. -/
theorem Formula.applications_store {t : Table} {name : String} {x : Symbol}
    (hx : t.resolve? name = some x) (line : Nat) (f : Formula) :
    f.applications (t.store name line) = f.applications t := by
  refine List.map_congr_left fun o _ => ?_
  rw [Operation.application, Operation.application, Formula.type?_store hx, Formula.type?_store hx]

/-- The operator of a store that computes is applied to the types of the target and the value. -/
theorem map_storeOperators {t : Table} {name : String} {x : Symbol}
    (hx : t.resolve? name = some x) {op : AssignOp} {value : Expr} {line : Nat} :
    (storeOperators name op value line).map (Operation.application t)
      = op.joined?.toList.map fun binary => ⟨binary, some x.type, value.formula.type? t, line⟩ := by
  have htarget : (Formula.leaf (.name name)).type? t = some x.type := by
    rw [Formula.type?, Leaf.type?, Table.typeOf?, hx]
    rfl
  rw [storeOperators, List.map_map, ← htarget]
  rfl

/-- Whether the request is to apply an operator to types that are given, without a tree. -/
def Request.isCombine : Request → Bool
  | .combine _ _ _ _ => true
  | _ => false

/-- The pass over a tree has trees looked at, and leaves the operators to them. -/
theorem Request.isCombine_of_isOfTree {q : Request} (h : q.isOfTree = true) :
    q.isCombine = false := by
  cases q with
  | combine => cases h
  | _ => rfl

/-- Whether the request is not refused before its expression is looked at. A name that is declared
must be free in the innermost scope, and one that is stored into must stand for something. -/
def Request.isAccepted (c : Checker) : Request → Bool
  | .declaration name _ _ _ => (c.table.lookup? name).isNone
  | .assignment name _ _ _ => (c.table.resolve? name).isSome
  | _ => true

/-- An operator and the table in which its sides are looked at. -/
structure Look where
  table : Table
  operation : Operation

/-- The operator applied to the types of its sides. -/
def Look.application (l : Look) : Application :=
  l.operation.application l.table

namespace Checker

/-- The operators of a request, if it is accepted. -/
def looksOf (c : Checker) (q : Request) : List Look :=
  if q.isAccepted c then q.operations.map (Look.mk c.table) else []

/-- The operators of a request, if it is refused. -/
def skippedOf (c : Checker) (q : Request) : List Operation :=
  if q.isAccepted c then [] else q.operations

/-- The operators that are looked at in a row of requests. -/
def looks (c : Checker) : List Request → List Look
  | [] => []
  | q :: more => c.looksOf q ++ (c.perform q).2.looks more

/-- The operators that are not looked at in a row of requests. -/
def skipped (c : Checker) : List Request → List Operation
  | [] => []
  | q :: more => c.skippedOf q ++ (c.perform q).2.skipped more

/-- A request has all of its operators looked at, or all of them skipped. -/
theorem operations_eq (c : Checker) (q : Request) :
    q.operations = (c.looksOf q).map Look.operation ++ c.skippedOf q := by
  rw [looksOf, skippedOf]
  split
  · rw [List.map_map, List.append_nil]
    exact (List.map_id _).symm
  · rfl

/-- Each operator of a row of requests is looked at once, or skipped with its request. -/
theorem perm_looks (c : Checker) (row : List Request) :
    (rowOperations row).Perm ((c.looks row).map Look.operation ++ c.skipped row) := by
  induction row generalizing c with
  | nil => exact .nil
  | cons q more ih =>
    -- the operators of the first request are all on one side or all on the other
    have hboth := (ih (c.perform q).2).append_left q.operations
    rw [looks, skipped, List.map_append]
    refine hboth.trans ?_
    rw [c.operations_eq q]
    exact perm_interchange _ _ _ _

/-- What a request applies: each of its operators once, or none. -/
theorem map_looksOf (c : Checker) (q : Request) :
    (c.looksOf q).map Look.application
      = if q.isAccepted c then q.operations.map (Operation.application c.table) else [] := by
  rw [looksOf]
  split
  · rw [List.map_map]
    rfl
  · rfl

end Checker

/-! ### Recorders -/

/-- A checker with a record of the operators it has applied. -/
structure Recorder extends Checker where
  applied : List Application

namespace Recorder

/-- The recorder before the first request. -/
def initial : Recorder :=
  { Checker.initial with applied := [] }

/-- The recorder after its checker has applied no operator. -/
def keep (r : Recorder) (c : Checker) : Recorder :=
  { r with toChecker := c }

/-- Applies an operator to two types, and puts it on record. -/
def combine (r : Recorder) (left right : Option DataType) (op : BinaryOp) (line : Nat) :
    Option DataType × Recorder :=
  let (type, c) := r.toChecker.combine left right op line
  (type, ⟨c, r.applied ++ [⟨op, left, right, line⟩]⟩)

mutual

/-- The type of an expression, operator by operator. -/
def expr : Expr → Recorder → Option DataType × Recorder
  | .term t, r => term t r
  | .binary left op right, r =>
    let (leftType, r) := expr left r
    let (rightType, r) := term right r
    r.combine leftType rightType op right.line

/-- The type of a term, operator by operator. -/
def term : Term → Recorder → Option DataType × Recorder
  | .factor f, r => factor f r
  | .binary left op right, r =>
    let (leftType, r) := term left r
    let (rightType, r) := factor right r
    r.combine leftType rightType op right.line

/-- The type of a factor, operator by operator. -/
def factor : Factor → Recorder → Option DataType × Recorder
  | .number text _, r => (some (numberType text), r)
  | .ident name _, r | .call name _ _, r => ((r.table.resolve? name).map Symbol.type, r)
  | .group inner _, r => expr inner r

end

/-- A variable is declared, perhaps with a first value. -/
def checkDeclaration (r : Recorder) (name : String) (type : DataType)
    (initializer : Option Expr) (line : Nat) : Recorder :=
  match r.checkFresh name line with
  | (false, c) => r.keep c
  | (true, c) =>
    match initializer with
    | none => r.keep (c.declare (.var (Variable.declared name type line none))).2
    | some e =>
      let (actual, r) := expr e (r.keep c)
      let (_, c) := r.checkAssignable (some type) actual line ("Inicialización de '" ++ name ++ "'")
      r.keep (c.declare (.var (Variable.declared name type line (some line)))).2

/-- A value is stored into a name. -/
def checkAssignment (r : Recorder) (name : String) (op : AssignOp) (value : Expr) (line : Nat) :
    Recorder :=
  match r.table.resolve? name with
  | none => r.keep (r.report (.undeclared name) line)
  | some x =>
    let r := r.keep { r.toChecker with table := r.table.store name line }
    let (actual, r) := expr value r
    let (actual, r) :=
      match op.joined? with
      | none => (actual, r)
      | some binary => r.combine (some x.type) actual binary line
    r.keep (r.checkAssignable (some x.type) actual line ("Asignación a '" ++ name ++ "'")).2

/-- The recorder after a request. Operators are applied in four of them. -/
def perform (r : Recorder) : Request → Recorder
  | .infer e => (expr e r).2
  | .combine left right op line => (r.combine left right op line).2
  | .declaration name type initializer line => r.checkDeclaration name type initializer line
  | .assignment name op value line => r.checkAssignment name op value line
  | q => r.keep (r.toChecker.perform q).2

/-- The recorder after a row of requests. -/
def serve (r : Recorder) (requests : List Request) : Recorder :=
  requests.foldl perform r

/-- The recorder after a row of applications. -/
def note (r : Recorder) (applications : List Application) : Recorder :=
  ⟨r.reportAll (applications.filterMap Application.remark?), r.applied ++ applications⟩

variable {r : Recorder}

/-- Nothing to put on record. -/
theorem note_nil (r : Recorder) : r.note [] = r := by
  simp [note, Checker.reportAll]

/-- Two rows of applications, one after the other. -/
theorem note_note (as bs : List Application) : (r.note as).note bs = r.note (as ++ bs) := by
  simp [note, Checker.reportAll]

/-- To apply an operator is to put its application on record, with what there is to say about
it. -/
theorem combine_eq (r : Recorder) (a : Application) :
    r.combine a.left a.right a.op a.line = (a.op.resultType a.left a.right, r.note [a]) := by
  have hremark : a.remark?.toList = [a].filterMap Application.remark? := by
    cases h : a.remark? <;> simp [h]
  rw [combine, Checker.combine, a.combine_eq, hremark]
  rfl

/-! ### What is put on record -/

mutual

/-- The operators of an expression outside the arguments of calls are applied, each once. -/
theorem expr_eq (e : Expr) (r : Recorder) :
    expr e r = (e.formula.type? r.table, r.note (e.formula.applications r.table)) := by
  match e with
  | .term t => exact term_eq t r
  | .binary left op right =>
    -- the two sides leave the table as it is, so all three parts are applied in the same one
    simp only [expr, expr_eq left r, term_eq right]
    rw [Expr.formula, Formula.applications_binary, ← note_note, ← note_note]
    exact combine_eq _ (Operation.application r.table ⟨left.formula, op, right.formula, right.line⟩)

/-- So are those of a term. -/
theorem term_eq (t : Term) (r : Recorder) :
    term t r = (t.formula.type? r.table, r.note (t.formula.applications r.table)) := by
  match t with
  | .factor f => exact factor_eq f r
  | .binary left op right =>
    simp only [term, term_eq left r, factor_eq right]
    rw [Term.formula, Formula.applications_binary, ← note_note, ← note_note]
    exact combine_eq _ (Operation.application r.table ⟨left.formula, op, right.formula, right.line⟩)

/-- So are those of a factor. A call has no operators outside its arguments. -/
theorem factor_eq (f : Factor) (r : Recorder) :
    factor f r = (f.formula.type? r.table, r.note (f.formula.applications r.table)) := by
  match f with
  | .number _ _ | .ident _ _ | .call _ _ _ => exact congrArg (Prod.mk _) r.note_nil.symm
  | .group inner _ => exact expr_eq inner r

end

/-- The checker of a recorder infers what a checker infers. -/
theorem infer_eq (e : Expr) (r : Recorder) :
    r.infer e = ((expr e r).1, (expr e r).2.toChecker) := by
  rw [Checker.infer, e.infer_eq, expr_eq]
  simp only [note, Formula.applications, List.filterMap_map]
  rfl

/-- A recorder whose checker has applied no operator, with its record in the form of
`perform_eq`. -/
theorem keep_eq (r : Recorder) (c : Checker) : r.keep c = ⟨c, r.applied ++ []⟩ := by
  rw [List.append_nil]
  rfl

/-- A declaration records the operators of its first value, if the name is free. -/
theorem checkDeclaration_eq (r : Recorder) (name : String) (type : DataType)
    (initializer : Option Expr) (line : Nat) :
    r.checkDeclaration name type initializer line
      = ⟨(r.toChecker.checkDeclaration name type initializer line).2, r.applied
          ++ (r.looksOf (.declaration name type initializer line)).map Look.application⟩ := by
  rw [Checker.map_looksOf, Request.isAccepted]
  cases hlookup : r.table.lookup? name with
  -- the name is taken, and the first value is not looked at
  | some y =>
    simp only [checkDeclaration, Checker.checkDeclaration, Checker.checkFresh, hlookup]
    exact keep_eq r _
  | none =>
    simp only [checkDeclaration, Checker.checkDeclaration, Checker.checkFresh, hlookup]
    cases initializer with
    | none => exact keep_eq r _
    | some e =>
      have hinfer := infer_eq e r
      simp only [keep]
      simp only [hinfer, expr_eq]
      rfl

/-- A store records the operators of its value and then its own, if the name stands for
something. -/
theorem checkAssignment_eq (r : Recorder) (name : String) (op : AssignOp) (value : Expr)
    (line : Nat) :
    r.checkAssignment name op value line
      = ⟨(r.toChecker.checkAssignment name op value line).2,
          r.applied ++ (r.looksOf (.assignment name op value line)).map Look.application⟩ := by
  rw [Checker.map_looksOf, Request.isAccepted]
  cases hresolve : r.table.resolve? name with
  | none =>
    simp only [checkAssignment, Checker.checkAssignment, hresolve]
    exact keep_eq r _
  | some x =>
    simp only [checkAssignment, Checker.checkAssignment, hresolve]
    -- the value is looked at in the table after the store, where types are what they were
    have hinfer := infer_eq value (r.keep { r.toChecker with table := r.table.store name line })
    have htype := Formula.type?_store hresolve line value.formula
    have hvalue := Formula.applications_store hresolve line value.formula
    simp only [keep] at hinfer ⊢
    simp only [hinfer, expr_eq, htype, hvalue]
    show _ = Recorder.mk _ (r.applied ++ List.map _ (_ ++ storeOperators name op value line))
    rw [List.map_append, map_storeOperators hresolve, ← List.append_assoc, op.joined?_eq]
    cases op.binary? with
    | none => exact congrArg (Recorder.mk _) (List.append_nil _).symm
    | some binary => rfl

/-- A recorder meets a request as its checker does, and records each operator that is looked at. -/
theorem perform_eq (r : Recorder) {q : Request} (hq : q.isCombine = false) :
    r.perform q
      = ⟨(r.toChecker.perform q).2, r.applied ++ (r.looksOf q).map Look.application⟩ := by
  cases q with
  | combine _ _ _ _ => cases hq
  | infer e =>
    rw [perform, Checker.perform, infer_eq, expr_eq, Checker.map_looksOf]
    rfl
  | declaration name type initializer line =>
    exact checkDeclaration_eq r name type initializer line
  | assignment name op value line => exact checkAssignment_eq r name op value line
  | push | pop | fresh _ _ | parameter _ _ | function _ _ | use _ _ | step _ _
  | assignable _ _ _ _ | unused => exact keep_eq r _

/-- A recorder serves requests as its checker does, and records each operator that is looked
at. -/
theorem serve_eq {requests : List Request} (h : ∀ q ∈ requests, q.isCombine = false)
    (r : Recorder) :
    r.serve requests
      = ⟨r.toChecker.serve requests,
          r.applied ++ (r.looks requests).map Look.application⟩ := by
  induction requests generalizing r with
  | nil => exact keep_eq r r.toChecker
  | cons q more ih =>
    obtain ⟨hq, hmore⟩ := List.forall_mem_cons.mp h
    show (r.perform q).serve more = _
    rw [ih hmore, perform_eq r hq, Checker.looks, List.map_append, ← List.append_assoc]
    rfl

/-- With a record, a piece of the pass over a tree does to the checker what it does without one. -/
theorem serve_of_passes {a b : Analysis} {row : List Request} {trees : List Node}
    {entries : List Entry} {scopes : List (List Entry)} {reports : List Entry → Log}
    (h : a.Passes b row trees) (hfills : Fills row entries scopes reports)
    (applied : List Application) :
    serve ⟨a.toChecker, applied⟩ row
      = ⟨b.toChecker, applied ++ (a.looks row).map Look.application⟩ := by
  have hrow : ∀ q ∈ row, q.isCombine = false :=
    fun q hq => Request.isCombine_of_isOfTree (hfills.isOfTree q hq)
  rw [serve_eq hrow, h.served]

/-! ### What is reported -/

/-- What is reported about operators is what there is to say about the record. -/
def Faithful (r : Recorder) : Prop :=
  r.operatorReports = r.applied.filterMap Application.remark?

/-- A step that applies no operator and reports on none. -/
theorem Faithful.keep (h : r.Faithful) {c : Checker}
    (hc : c.operatorReports = r.operatorReports) : (r.keep c).Faithful :=
  hc.trans h

/-- Operators are put on record with what there is to say about them. -/
theorem Faithful.note (h : r.Faithful) (as : List Application) : (r.note as).Faithful := by
  -- all that is said about applications is a report on operators
  have hall : (as.filterMap Application.remark?).filter (fun d => d.cause.isOperator)
      = as.filterMap Application.remark? := by
    rw [List.filter_eq_self]
    intro d hd
    obtain ⟨a, _, ha⟩ := List.mem_filterMap.mp hd
    exact Application.isOperator_of_remark? ha
  show (r.reportAll _).operatorReports = (r.applied ++ as).filterMap Application.remark?
  rw [Checker.operatorReports_reportAll, hall, List.filterMap_append, h]

/-- One operator. -/
theorem Faithful.combine (h : r.Faithful) (left right : Option DataType) (op : BinaryOp)
    (line : Nat) : (r.combine left right op line).2.Faithful := by
  rw [combine_eq r ⟨op, left, right, line⟩]
  exact h.note _

/-- The operators of an expression. -/
theorem Faithful.expr (h : r.Faithful) (e : Expr) : (expr e r).2.Faithful := by
  rw [expr_eq]
  exact h.note _

/-- The operators of a first value. -/
theorem Faithful.checkDeclaration (h : r.Faithful) (name : String) (type : DataType)
    (initializer : Option Expr) (line : Nat) :
    (r.checkDeclaration name type initializer line).Faithful := by
  have hfresh := Checker.operatorReports_checkFresh (c := r.toChecker) name line
  rw [Recorder.checkDeclaration]
  generalize r.checkFresh name line = answer at hfresh
  obtain ⟨verdict, c⟩ := answer
  cases verdict with
  | false => exact h.keep hfresh
  | true =>
    cases initializer with
    | none => exact h.keep ((Checker.operatorReports_declare _).trans hfresh)
    | some e =>
      -- whether the value fits is no matter of operators
      apply ((h.keep hfresh).expr e).keep
      exact (Checker.operatorReports_declare _).trans
        (Checker.operatorReports_checkAssignable _ _ line _)

/-- The operators of a value that is stored, and that of the store. -/
theorem Faithful.checkAssignment (h : r.Faithful) (name : String) (op : AssignOp) (value : Expr)
    (line : Nat) : (r.checkAssignment name op value line).Faithful := by
  rw [Recorder.checkAssignment]
  split
  · exact h.keep (Checker.operatorReports_report rfl line)
  · rename_i x _
    have hstored : (r.keep { r.toChecker with table := r.table.store name line }).Faithful :=
      h.keep rfl
    have hvalue := hstored.expr value
    cases op.joined? with
    | none => exact hvalue.keep (Checker.operatorReports_checkAssignable _ _ line _)
    | some binary =>
      exact (hvalue.combine (some x.type) _ binary line).keep
        (Checker.operatorReports_checkAssignable _ _ line _)

/-- One request. -/
theorem Faithful.perform (h : r.Faithful) (q : Request) : (r.perform q).Faithful := by
  cases q with
  | infer e => exact h.expr e
  | combine left right op line => exact h.combine left right op line
  | declaration name type initializer line => exact h.checkDeclaration name type initializer line
  | assignment name op value line => exact h.checkAssignment name op value line
  | push | pop => exact h.keep rfl
  | fresh name line => exact h.keep (Checker.operatorReports_checkFresh name line)
  | parameter p line => exact h.keep (Checker.operatorReports_declareParameter p line)
  | function s defined => exact h.keep (Checker.operatorReports_declareFunction s defined)
  | use name line => exact h.keep (Checker.operatorReports_checkUse name line)
  | step name line => exact h.keep (Checker.operatorReports_checkStep name line)
  | assignable expected actual line context =>
    exact h.keep (Checker.operatorReports_checkAssignable expected actual line context)
  | unused => exact h.keep Checker.operatorReports_checkUnused

/-- All requests. -/
theorem Faithful.serve (h : r.Faithful) (requests : List Request) :
    (r.serve requests).Faithful := by
  induction requests generalizing r with
  | nil => exact h
  | cons q more ih => exact ih (h.perform q)

end Recorder

/-- The record that is kept while a program is analyzed. -/
def Program.record (p : Program) : Recorder :=
  Recorder.initial.serve p.requests

/-- Every operator of a program is looked at once. The analysis can be done with a record, statement
by statement, and on record is one application for each operator that is looked at. These operators
and those of refused requests, which are declarations of a name that is taken and stores into a name
that stands for nothing, are all operators of the program. The reports on operators are what there
is to say about the record, application by application, so there are not more of them than
operators. -/
theorem applications_analyze (p : Program) :
    (∀ (s : Stmt) (a : Analysis) (applied : List Application),
      Recorder.serve ⟨a.toChecker, applied⟩ s.requests
        = ⟨(Analysis.stmt s a).toChecker,
            applied ++ (a.looks s.requests).map Look.application⟩) ∧
    p.record.toChecker = p.analyze.toChecker ∧
    p.record.applied = (Checker.initial.looks p.requests).map Look.application ∧
    p.operators.Perm ((Checker.initial.looks p.requests).map Look.operation
      ++ Checker.initial.skipped p.requests) ∧
    p.analyze.operatorReports = p.record.applied.filterMap Application.remark? ∧
    p.analyze.operatorReports.length ≤ p.operators.length := by
  have hrequests : ∀ q ∈ p.requests, q.isCombine = false :=
    List.forall_mem_append.mpr
      ⟨fun q hq => Request.isCombine_of_isOfTree ((fills_all p.body).isOfTree q hq),
        List.forall_mem_singleton.mpr rfl⟩
  have hrecord := Recorder.serve_eq hrequests Recorder.initial
  have hchecker : p.record.toChecker = p.analyze.toChecker := by
    rw [Program.record, hrecord, p.serve_requests]
    rfl
  have happlied : p.record.applied = (Checker.initial.looks p.requests).map Look.application := by
    rw [Program.record, hrecord]
    rfl
  have hoperators := p.perm_operators.trans (Checker.initial.perm_looks p.requests)
  have hreports : p.analyze.operatorReports = p.record.applied.filterMap Application.remark? := by
    have hinitial : Recorder.initial.Faithful := rfl
    rw [← hchecker]
    exact hinitial.serve p.requests
  refine ⟨fun s a applied => Recorder.serve_of_passes (Analysis.passes_stmt s a) s.fills applied,
    hchecker, happlied, hoperators, hreports, ?_⟩
  -- each application is remarked on at most once, and stands for one operator of the program
  have hmost := List.length_filterMap_le Application.remark? p.record.applied
  rw [← hreports, happlied, List.length_map] at hmost
  rw [hoperators.length_eq, List.length_append, List.length_map]
  omega

end Tercet
