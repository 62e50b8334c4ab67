import Tercet.Proofs.Check.Redeclaration
import Tercet.Proofs.Check.Typing
import Tercet.Proofs.Tree.Spelling

/-!
# `Tercet.Proofs.Check.Operators`: the request that an operator belongs to

The pass over a program does two things with an expression. Its types are looked at, which leaves
out the arguments of calls, and its names are passed, which comes to the arguments and has their
types looked at in turn. The two fit together: every operator of the program belongs to one of the
requests that the pass makes, and to one only (`Program.perm_operators`). This is the request with
the expression that the operator stands in, outside the arguments of its calls. The operator of an
assignment such as `x += 1` belongs to the assignment.
-/

set_option autoImplicit false

namespace Tercet

/-! ### The operators of a tree -/

mutual

/-- The operators of an expression, those in the arguments of its calls among them. -/
def Expr.operators : Expr → List Operation
  | .term t => t.operators
  | .binary left op right =>
    left.operators ++ right.operators ++ [⟨left.formula, op, right.formula, right.line⟩]

/-- The operators of a term. -/
def Term.operators : Term → List Operation
  | .factor f => f.operators
  | .binary left op right =>
    left.operators ++ right.operators ++ [⟨left.formula, op, right.formula, right.line⟩]

/-- The operators of a factor. -/
def Factor.operators : Factor → List Operation
  | .number _ _ | .ident _ _ => []
  | .call _ args _ => argumentOperators args
  | .group inner _ => inner.operators

/-- The operators in the arguments of a call. -/
def argumentOperators : List Expr → List Operation
  | [] => []
  | e :: es => e.operators ++ argumentOperators es

end

/-- The operator of a store that computes. It joins what is stored into with the value. -/
def storeOperators (target : String) (op : AssignOp) (value : Expr) (line : Nat) :
    List Operation :=
  op.joined?.toList.map fun binary => ⟨.leaf (.name target), binary, value.formula, line⟩

/-- The operators of an expression that may be left out. -/
def optionalOperators : Option Expr → List Operation
  | some e => e.operators
  | none => []

/-- The operators of a declaration. -/
def Declaration.operators (d : Declaration) : List Operation :=
  d.declarators.flatMap fun one => optionalOperators one.initializer

/-- The operators of an assignment, the one between the target and the value last. -/
def Assignment.operators (a : Assignment) : List Operation :=
  a.value.operators ++ storeOperators a.target a.op a.value a.line

/-- The operators in the start of a counted loop. -/
def ForInit.operators : Option ForInit → List Operation
  | some (.declaration d) => d.operators
  | some (.assignment a) => a.operators
  | none => []

/-- The operators in what a counted loop does after each round. To count up or down is none. -/
def ForStep.operators : Option ForStep → List Operation
  | some (.increment _ _) | some (.decrement _ _) => []
  | some (.assignment a) => a.operators
  | none => []

mutual

/-- The operators of a statement, in the order in which they are written. -/
def Stmt.operators : Stmt → List Operation
  | .block body _ | .function _ body _ => operatorsAll body
  | .declaration d => d.operators
  | .assignment a => a.operators
  | .ifThen condition body _ | .whileLoop condition body _ =>
    condition.operators ++ body.operators
  | .ifElse condition onTrue onFalse _ =>
    condition.operators ++ (onTrue.operators ++ onFalse.operators)
  | .forLoop init condition step body _ =>
    ForInit.operators init ++
      (optionalOperators condition ++ (ForStep.operators step ++ body.operators))
  | .prototype _ => []
  | .result value _ => optionalOperators value

/-- The operators of a row of statements. -/
def operatorsAll : List Stmt → List Operation
  | [] => []
  | s :: more => s.operators ++ operatorsAll more

end

/-- The operators of a program. -/
def Program.operators (p : Program) : List Operation :=
  operatorsAll p.body

/-! ### Every operator belongs to one request -/

/-- The operators that a request is about: those of its expression, outside the arguments of
calls, and the operator of a store that computes. -/
def Request.operations : Request → List Operation
  | .infer e | .declaration _ _ (some e) _ => e.formula.operations
  | .assignment target op value line =>
    value.formula.operations ++ storeOperators target op value line
  | _ => []

/-- The operators that a row of requests is about. -/
def rowOperations (row : List Request) : List Operation :=
  row.flatMap Request.operations

section Distribution

variable {as bs fs gs ls rs : List Operation} {row row' : List Request}

/-- The operators of two rows of requests. -/
theorem rowOperations_append :
    rowOperations (row ++ row') = rowOperations row ++ rowOperations row' :=
  List.flatMap_append

/-- The operators of a row and one more request. -/
theorem rowOperations_concat (q : Request) :
    rowOperations (row ++ [q]) = rowOperations row ++ q.operations := by
  rw [rowOperations_append, rowOperations, rowOperations, List.flatMap_singleton]

/-- A last request that is not about operators. -/
theorem rowOperations_concat_of_eq_nil {q : Request} (hq : q.operations = []) :
    rowOperations (row ++ [q]) = rowOperations row := by
  rw [rowOperations_concat, hq, List.append_nil]

/-- To open and close a scope is not about operators. -/
theorem rowOperations_bracketed : rowOperations (bracketed row) = rowOperations row := by
  show rowOperations (row ++ [.pop]) = rowOperations row
  exact rowOperations_concat_of_eq_nil rfl

/-- Neither is the use of a name. -/
theorem rowOperations_useRequests (name : String) (line : Nat) :
    rowOperations (useRequests name line) = [] := by
  rw [useRequests]
  split <;> rfl

/-- Neither are the parameters of a function. -/
theorem rowOperations_parameterRequests (s : Signature) :
    rowOperations s.parameterRequests = [] := by
  simp [rowOperations, Signature.parameterRequests, Request.operations]

/-- Two rows one after the other. -/
theorem perm_rowOperations_append (h : as.Perm (rowOperations row))
    (h' : bs.Perm (rowOperations row')) : (as ++ bs).Perm (rowOperations (row ++ row')) := by
  rw [rowOperations_append]
  exact h.append h'

/-- An operator between two sides. Of each side, one part is in the formula and another is not. -/
theorem perm_join (o : Operation) (hleft : as.Perm (fs ++ ls)) (hright : bs.Perm (gs ++ rs)) :
    (as ++ bs ++ [o]).Perm (fs ++ gs ++ [o] ++ (ls ++ rs)) := by
  have hsides : (as ++ bs).Perm (fs ++ gs ++ (ls ++ rs)) :=
    (hleft.append hright).trans (perm_interchange _ _ _ _)
  have hlast : (fs ++ gs ++ (ls ++ rs) ++ [o]).Perm (fs ++ gs ++ [o] ++ (ls ++ rs)) := by
    rw [List.append_assoc (fs ++ gs), List.append_assoc (fs ++ gs)]
    exact List.perm_append_comm.append_left (fs ++ gs)
  exact (hsides.append_right [o]).trans hlast

end Distribution

mutual

/-- The operators of an expression are those of its formula and those that the pass comes to. -/
theorem Expr.perm_operators (e : Expr) :
    e.operators.Perm (e.formula.operations ++ rowOperations e.requests) := by
  match e with
  | .term t => exact t.perm_operators
  | .binary left op right =>
    rw [Expr.requests, rowOperations_append]
    exact perm_join _ left.perm_operators right.perm_operators

/-- So are those of a term. -/
theorem Term.perm_operators (t : Term) :
    t.operators.Perm (t.formula.operations ++ rowOperations t.requests) := by
  match t with
  | .factor f => exact f.perm_operators
  | .binary left op right =>
    rw [Term.requests, rowOperations_append]
    exact perm_join _ left.perm_operators right.perm_operators

/-- So are those of a factor. Of a call, the pass comes to all operators and the formula has
none. -/
theorem Factor.perm_operators (f : Factor) :
    f.operators.Perm (f.formula.operations ++ rowOperations f.requests) := by
  match f with
  | .number _ _ => exact .nil
  | .ident name line =>
    rw [Factor.requests, rowOperations_useRequests]
    exact .nil
  | .call name args line =>
    -- the formula is the name alone, so all operators are in requests for the arguments
    rw [Factor.requests, rowOperations_append, rowOperations_useRequests]
    exact perm_argumentOperators args
  | .group inner _ => exact inner.perm_operators

/-- The operators in the arguments of a call are those that the pass comes to. Each argument is
passed and then looked at as a whole. -/
theorem perm_argumentOperators (es : List Expr) :
    (argumentOperators es).Perm (rowOperations (argumentRequests es)) := by
  match es with
  | [] => exact .nil
  | e :: es =>
    have hfirst : e.operators.Perm (rowOperations e.typedRequests) := e.perm_operators
    exact perm_rowOperations_append hfirst (perm_argumentOperators es)

end

/-- The operators of an expression that is passed and looked at. -/
theorem Expr.perm_typedRequests (e : Expr) : e.operators.Perm (rowOperations e.typedRequests) :=
  e.perm_operators

/-- So are those of one that may be left out. -/
theorem perm_optionalOperators (e : Option Expr) :
    (optionalOperators e).Perm (rowOperations (optionalRequests e)) := by
  match e with
  | some e => exact e.perm_typedRequests
  | none => exact .nil

/-- The operators of a first value, if there is one. -/
theorem Declarator.perm_operators (type : DataType) (line : Nat) (d : Declarator) :
    (optionalOperators d.initializer).Perm (rowOperations (d.requests type line)) := by
  obtain ⟨name, initializer⟩ := d
  cases initializer with
  | none => exact .nil
  | some e =>
    rw [Declarator.requests, rowOperations_concat]
    -- the value is passed before its types are looked at, so the parts change places
    exact e.perm_operators.trans List.perm_append_comm

/-- The operators of a declaration, name by name. -/
theorem Declaration.perm_operators (d : Declaration) :
    d.operators.Perm (rowOperations d.requests) := by
  rw [Declaration.operators, Declaration.requests]
  induction d.declarators with
  | nil => exact .nil
  | cons first more ih =>
    rw [List.flatMap_cons, List.flatMap_cons]
    exact perm_rowOperations_append (first.perm_operators d.type d.line) ih

/-- The operators of an assignment. The one between target and value is written last. -/
theorem Assignment.perm_operators (a : Assignment) :
    a.operators.Perm (rowOperations a.requests) := by
  have hvalue := a.value.perm_operators.append_right
    (storeOperators a.target a.op a.value a.line)
  rw [Assignment.operators]
  refine hvalue.trans ?_
  -- the operator of the store belongs to the assignment, before what the pass comes to
  show List.Perm _ (a.value.formula.operations ++ storeOperators a.target a.op a.value a.line
    ++ rowOperations a.value.requests)
  rw [List.append_assoc, List.append_assoc]
  exact List.perm_append_comm.append_left _

/-- The operators in the start of a loop. -/
theorem ForInit.perm_operators (init : Option ForInit) :
    (ForInit.operators init).Perm (rowOperations (ForInit.requests init)) := by
  match init with
  | some (.declaration d) => exact d.perm_operators
  | some (.assignment a) => exact a.perm_operators
  | none => exact .nil

/-- The operators in the step of a loop. -/
theorem ForStep.perm_operators (step : Option ForStep) :
    (ForStep.operators step).Perm (rowOperations (ForStep.requests step)) := by
  match step with
  | some (.increment _ _) | some (.decrement _ _) | none => exact .nil
  | some (.assignment a) => exact a.perm_operators

mutual

/-- Each operator of a statement belongs to one of its requests. -/
theorem Stmt.perm_operators (s : Stmt) : s.operators.Perm (rowOperations s.requests) := by
  match s with
  | .block body _ => exact perm_operatorsAll body
  | .declaration d => exact d.perm_operators
  | .assignment a => exact a.perm_operators
  | .ifThen condition body _ | .whileLoop condition body _ =>
    rw [Stmt.requests, rowOperations_bracketed]
    exact perm_rowOperations_append condition.perm_typedRequests body.perm_operators
  | .ifElse condition onTrue onFalse _ =>
    rw [Stmt.requests, rowOperations_bracketed]
    exact perm_rowOperations_append condition.perm_typedRequests
      (perm_rowOperations_append onTrue.perm_operators onFalse.perm_operators)
  | .forLoop init condition step body _ =>
    rw [Stmt.requests, rowOperations_bracketed]
    exact perm_rowOperations_append (ForInit.perm_operators init)
      (perm_rowOperations_append (perm_optionalOperators condition)
        (perm_rowOperations_append (ForStep.perm_operators step) body.perm_operators))
  -- parameters come before the body and the function is declared after it, without operators
  | .function s body _ =>
    rw [Stmt.requests, rowOperations_concat_of_eq_nil rfl, rowOperations_bracketed,
      rowOperations_append, rowOperations_parameterRequests]
    exact perm_operatorsAll body
  | .prototype _ => exact .nil
  | .result value _ => exact perm_optionalOperators value

/-- So does each operator of a row of statements. -/
theorem perm_operatorsAll (body : List Stmt) :
    (operatorsAll body).Perm (rowOperations (requestsAll body)) := by
  match body with
  | [] => exact .nil
  | s :: more => exact perm_rowOperations_append s.perm_operators (perm_operatorsAll more)

end

/-- Each operator of a program belongs to one request, and each request is only about operators
of the program. -/
theorem Program.perm_operators (p : Program) : p.operators.Perm (rowOperations p.requests) := by
  rw [Program.requests, rowOperations_concat_of_eq_nil rfl]
  exact perm_operatorsAll p.body

end Tercet
