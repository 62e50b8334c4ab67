import Tercet.Check.Analysis
import Tercet.Proofs.Check.History
import Tercet.Proofs.Tree.Nodes

/-!
# `Tercet.Proofs.Check.Requests`: the requests that a pass makes

A checker is asked for one thing at a time: to open or close a scope, to declare something, to
note that a name is read or stored into, to look at types, to report what has not been read.
`Request` lists all of these, and `Checker.perform` is the reply to each.

The pass over a program asks its checker for one thing after the other. What it asks for depends on
the tree alone and not on the replies, so the requests can be listed beforehand
(`Program.requests`), and the checker at the end is the one that has served them
(`Program.serve_requests`). Facts about the analysis can then be proved request by request.

The types of an expression are looked at before its names are passed. Only the value of a
declaration is passed first, because the declared name is not yet in force in it. The arguments of
a call are not part of what is looked at with the call; the pass comes to them one by one and has
the types of each looked at for its own sake.

Between the requests the pass counts the nodes of the tree. `Analysis.Passes` says both of a piece
of the pass: which requests it makes and which trees it counts. It has one rule for each way in
which the pass is put together, and this is the only place where the pass is taken apart.
-/

set_option autoImplicit false

namespace Tercet

/-! ### Requests -/

/-- What a checker can be asked for. -/
inductive Request where
  | push
  | pop
  /-- Whether a name is free in the innermost scope. -/
  | fresh (name : String) (line : Nat)
  | declaration (name : String) (type : DataType) (initializer : Option Expr) (line : Nat)
  | parameter (p : Parameter) (line : Nat)
  | function (s : Signature) (defined : Bool)
  | use (name : String) (line : Nat)
  | assignment (name : String) (op : AssignOp) (value : Expr) (line : Nat)
  /-- A name is counted up or down. -/
  | step (name : String) (line : Nat)
  | infer (e : Expr)
  | combine (left right : Option DataType) (op : BinaryOp) (line : Nat)
  | assignable (expected actual : Option DataType) (line : Nat) (context : String)
  /-- Whether every variable has been read. -/
  | unused

namespace Request

/-- Whether the pass over a tree makes the request. The others are made by the rules themselves,
and the last one when the tree is over. -/
def isOfTree : Request → Bool
  | fresh _ _ | combine _ _ _ _ | assignable _ _ _ _ | unused => false
  | _ => true

/-- What the request means for the table. A name that is counted up or down is read; it has a value
then, so that storing the next one is no event. -/
def event? : Request → Option Event
  | push => some .opened
  | pop => some .closed
  | declaration name type initializer line =>
    some (.entered (.var name type line initializer.isSome))
  | parameter p line => some (.entered (.parameter p line))
  | function s defined => some (.entered (.function s defined))
  | use name line | step name line => some (.read name line)
  | assignment name _ _ line => some (.stored name line)
  | fresh _ _ | infer _ | combine _ _ _ _ | assignable _ _ _ _ | unused => none

end Request

/-- What a checker replies. -/
inductive Reply where
  | done
  /-- Whether all is well. -/
  | verdict (ok : Bool)
  | type (type : Option DataType)
deriving DecidableEq

namespace Checker

/-- The reply of a checker to a request, and the checker after it. -/
def perform (c : Checker) : Request → Reply × Checker
  | .push => (.done, c.push)
  | .pop => (.done, c.pop)
  | .fresh name line => (c.checkFresh name line).map .verdict id
  | .declaration name type initializer line =>
    (c.checkDeclaration name type initializer line).map .verdict id
  | .parameter p line => (c.declareParameter p line).map .verdict id
  | .function s defined => (c.declareFunction s defined).map .verdict id
  | .use name line => (c.checkUse name line).map .verdict id
  | .assignment name op value line => (c.checkAssignment name op value line).map .verdict id
  | .step name line => (c.checkStep name line).map .verdict id
  | .infer e => (c.infer e).map .type id
  | .combine left right op line => (c.combine left right op line).map .type id
  | .assignable expected actual line context =>
    (c.checkAssignable expected actual line context).map .verdict id
  | .unused => (.done, c.checkUnused)

/-- The checker after a row of requests. -/
def serve (c : Checker) (requests : List Request) : Checker :=
  requests.foldl (fun c request => (c.perform request).2) c

/-- A row is served from its front, so rows one after the other are served one after the other. -/
theorem serve_append (c : Checker) (row row' : List Request) :
    c.serve (row ++ row') = (c.serve row).serve row' :=
  List.foldl_append

/-- Induction along a row of requests: what each of them preserves holds at the end. -/
theorem serve_invariant {P : Checker → Prop} {row : List Request}
    (hstep : ∀ c, ∀ q ∈ row, P c → P (c.perform q).2) {c : Checker} (h : P c) :
    P (c.serve row) := by
  induction row generalizing c with
  | nil => exact h
  | cons q more ih =>
    obtain ⟨hfirst, hmore⟩ := forall_and.mp fun c => List.forall_mem_cons.mp (hstep c)
    exact ih hmore (hfirst c h)

/-- A name is never taken for a variable exactly if it is one of six words. -/
theorem isReserved_iff {name : String} :
    isReserved name = true ↔ name ∈ ["int", "double", "if", "while", "for", "return"] :=
  List.contains_iff_mem

end Checker

/-! ### The requests of a tree -/

/-- The request for a name that is read in an expression. Reserved words are passed over. -/
def useRequests (name : String) (line : Nat) : List Request :=
  if Checker.isReserved name then [] else [.use name line]

mutual

/-- The requests made while the names of an expression are passed. -/
def Expr.requests : Expr → List Request
  | .term t => t.requests
  | .binary left _ right => left.requests ++ right.requests

/-- The requests made while the names of a term are passed. -/
def Term.requests : Term → List Request
  | .factor f => f.requests
  | .binary left _ right => left.requests ++ right.requests

/-- The requests made while the names of a factor are passed. -/
def Factor.requests : Factor → List Request
  | .number _ _ => []
  | .ident name line => useRequests name line
  | .call name args line => useRequests name line ++ argumentRequests args
  | .group inner _ => inner.requests

/-- The requests for the arguments of a call: of each, the types are looked at first. -/
def argumentRequests : List Expr → List Request
  | [] => []
  | e :: es => .infer e :: (e.requests ++ argumentRequests es)

end

/-- The requests for an expression whose types are looked at for their own sake. -/
def Expr.typedRequests (e : Expr) : List Request :=
  .infer e :: e.requests

/-- The requests for an expression that may be left out. -/
def optionalRequests : Option Expr → List Request
  | some e => e.typedRequests
  | none => []

/-- The requests for a declared name, which is declared after its first value has been passed. -/
def Declarator.requests (type : DataType) (line : Nat) : Declarator → List Request
  | ⟨name, some e⟩ => e.requests ++ [.declaration name type (some e) line]
  | ⟨name, none⟩ => [.declaration name type none line]

/-- The requests for a declaration. -/
def Declaration.requests (d : Declaration) : List Request :=
  d.declarators.flatMap (Declarator.requests d.type d.line)

/-- The requests for an assignment, which is made before its value is passed. -/
def Assignment.requests (a : Assignment) : List Request :=
  .assignment a.target a.op a.value a.line :: a.value.requests

/-- The requests for the start of a counted loop. -/
def ForInit.requests : Option ForInit → List Request
  | some (.declaration d) => d.requests
  | some (.assignment a) => a.requests
  | none => []

/-- The requests for what a counted loop does after each round. -/
def ForStep.requests : Option ForStep → List Request
  | some (.increment target line) | some (.decrement target line) => [.step target line]
  | some (.assignment a) => a.requests
  | none => []

/-- The requests for the parameters of a function. -/
def Signature.parameterRequests (s : Signature) : List Request :=
  s.parameters.map fun p => .parameter p s.line

/-- Requests in a scope of their own. -/
def bracketed (row : List Request) : List Request :=
  .push :: (row ++ [.pop])

mutual

/-- The requests for a statement. -/
def Stmt.requests : Stmt → List Request
  | .block body _ => requestsAll body
  | .declaration d => d.requests
  | .assignment a => a.requests
  | .ifThen condition body _ | .whileLoop condition body _ =>
    bracketed (condition.typedRequests ++ body.requests)
  -- one scope for the condition and both sides
  | .ifElse condition onTrue onFalse _ =>
    bracketed (condition.typedRequests ++ (onTrue.requests ++ onFalse.requests))
  -- what is done after each round is looked at before the body
  | .forLoop init condition step body _ =>
    bracketed (ForInit.requests init ++
      (optionalRequests condition ++ (ForStep.requests step ++ body.requests)))
  -- the name belongs to the scope around the function, and is entered when the body is over
  | .function s body _ =>
    bracketed (s.parameterRequests ++ requestsAll body) ++ [.function s true]
  | .prototype s => [.function s false]
  | .result value _ => optionalRequests value

/-- The requests for a row of statements. -/
def requestsAll : List Stmt → List Request
  | [] => []
  | s :: more => s.requests ++ requestsAll more

end

/-- The requests for a program. -/
def Program.requests (p : Program) : List Request :=
  requestsAll p.body ++ [.unused]

/-! ### Pieces of the pass -/

/-- The count is that of the nodes of some constructs. -/
inductive Stats.Tells : (Stats → Nat) → (Construct → Bool) → Prop
  | declarations : Tells Stats.declarations (· == .declaration)
  | assignments : Tells Stats.assignments (· == .assignment)
  | functions : Tells Stats.functions (· == .function)
  | ifs : Tells Stats.ifs (· == .branch)
  | whiles : Tells Stats.whiles (· == .whileLoop)
  | fors : Tells Stats.fors (· == .forLoop)
  | nodes : Tells Stats.nodes fun _ => true

namespace Analysis

/-- The analysis that has counted a node of the construct. -/
def enter (a : Analysis) : Construct → Analysis
  | .declaration => a.visit.countDeclaration
  | .assignment => a.visit.countAssignment
  | .branch => a.visit.countIf
  | .whileLoop => a.visit.countWhile
  | .forLoop => a.visit.countFor
  | .function => a.visit.countFunction
  | .block | .prototype | .result | .expr | .term | .factor => a.visit

/-- Counting does not involve the checker. -/
theorem toChecker_enter (a : Analysis) (c : Construct) :
    (a.enter c).toChecker = a.toChecker := by
  cases c <;> rfl

/-- A count goes up by one for each node of a construct that it is about. -/
theorem count_enter {count : Stats → Nat} {kinds : Construct → Bool}
    (h : Stats.Tells count kinds) (a : Analysis) (c : Construct) :
    count (a.enter c).stats = count a.stats + if kinds c then 1 else 0 := by
  cases h <;> cases c <;> rfl

/-- The analysis after a request to its checker. -/
def ask (a : Analysis) (q : Request) : Analysis :=
  a.update fun c => (c.perform q).2

/-- From `a` to `b` the pass makes the requests of the row, and counts the nodes of the trees. -/
structure Passes (a b : Analysis) (row : List Request) (trees : List Node) : Prop where
  served : b.toChecker = a.toChecker.serve row
  counted : ∀ ⦃count : Stats → Nat⦄ ⦃kinds : Construct → Bool⦄, Stats.Tells count kinds →
    (count b.stats : ℕ∞) = count a.stats + (rowPlaces trees kinds).encard

namespace Passes

variable {a b d : Analysis} {row row' : List Request} {trees trees' : List Node}

/-- A piece of the pass that counts nothing. -/
theorem of_stats_eq (hserved : b.toChecker = a.toChecker.serve row) (hstats : b.stats = a.stats) :
    a.Passes b row [] where
  served := hserved
  counted := by
    intro count kinds _
    rw [hstats, rowPlaces_nil, Set.encard_empty, add_zero]

/-- Nothing is asked and nothing is counted. -/
theorem nil (a : Analysis) : a.Passes a [] [] :=
  .of_stats_eq rfl rfl

/-- One request, which counts nothing. -/
theorem one (a : Analysis) (q : Request) : a.Passes (a.ask q) [q] [] :=
  .of_stats_eq rfl rfl

/-- Two pieces one after the other. -/
theorem trans (h : a.Passes b row trees) (h' : b.Passes d row' trees') :
    a.Passes d (row ++ row') (trees ++ trees') where
  served := by rw [h'.served, h.served, Checker.serve_append]
  counted := by
    intro count kinds htells
    rw [h'.counted htells, h.counted htells, encard_rowPlaces_append, add_assoc]

/-- A piece of the pass and a request after it. -/
theorem andAsk (h : a.Passes b row trees) (q : Request) :
    a.Passes (b.ask q) (row ++ [q]) trees := by
  have hboth := h.trans (.one b q)
  rwa [List.append_nil] at hboth

/-- What is passed between opening and closing a scope. -/
theorem bracketed (h : a.push.Passes b row trees) : a.Passes b.pop (bracketed row) trees :=
  (Passes.one a .push).trans (h.andAsk .pop)

/-- A node is counted before those below it. -/
theorem node (n : Node) (h : (a.enter n.construct).Passes b row n.children) :
    a.Passes b row [n] where
  served := by rw [h.served, toChecker_enter]
  counted := by
    intro count kinds htells
    rw [h.counted htells, count_enter htells, encard_rowPlaces_cons, encard_places, rowPlaces_nil,
      Set.encard_empty, add_zero, Nat.cast_add, Nat.cast_ite, Nat.cast_one, Nat.cast_zero,
      add_assoc]

end Passes

/-! ### The pass -/

/-- A name in an expression makes a request, unless it is a reserved word. -/
theorem passes_use (name : String) (line : Nat) (a : Analysis) :
    a.Passes (a.use name line) (useRequests name line) [] := by
  rw [use, useRequests]
  split
  · exact .nil a
  · exact .one a (.use name line)

mutual

/-- The terms of an expression are passed from left to right. -/
theorem passes_terms (e : Expr) (a : Analysis) :
    a.Passes (terms e a) e.requests (e.terms.map .term) := by
  cases e with
  | term t => exact .node (.term t) (passes_factors t a.visit)
  | binary left op right =>
    rw [Expr.terms_binary, List.map_append]
    exact (passes_terms left a).trans (.node (.term right) (passes_factors right _))

/-- The factors of a term are passed from left to right. -/
theorem passes_factors (t : Term) (a : Analysis) :
    a.Passes (factors t a) t.requests (t.factors.map .factor) := by
  cases t with
  | factor f => exact .node (.factor f) (passes_factor f a.visit)
  | binary left op right =>
    rw [Term.factors_binary, List.map_append]
    exact (passes_factors left a).trans (.node (.factor right) (passes_factor right _))

/-- A call reads the name of the function before it comes to the arguments. -/
theorem passes_factor (f : Factor) (a : Analysis) :
    a.Passes (factor f a) f.requests (Node.factor f).children := by
  cases f with
  | number text line => exact .nil a
  | ident name line => exact passes_use name line a
  | call name arguments line =>
    exact (passes_use name line a).trans (passes_arguments arguments (a.use name line))
  | group inner line => exact .node (.expr inner) (passes_terms inner a.visit)

/-- Each argument is looked at as a whole before its names are passed. -/
theorem passes_arguments (es : List Expr) (a : Analysis) :
    a.Passes (arguments es a) (argumentRequests es) (es.map .expr) := by
  cases es with
  | nil => exact .nil a
  | cons e es =>
    have hfirst : (a.ask (.infer e)).Passes (terms e (a.inferred e).visit) e.requests [.expr e] :=
      .node (.expr e) (passes_terms e (a.inferred e).visit)
    exact (Passes.one a (.infer e)).trans (hfirst.trans (passes_arguments es _))

end

/-- An expression is a node above its terms. -/
theorem passes_expr (e : Expr) (a : Analysis) : a.Passes (expr e a) e.requests [.expr e] :=
  .node (.expr e) (passes_terms e a.visit)

/-- Looking at types counts nothing. -/
theorem passes_typedExpr (e : Expr) (a : Analysis) :
    a.Passes (typedExpr e a) e.typedRequests [.expr e] :=
  (Passes.one a (.infer e)).trans (passes_expr e (a.inferred e))

/-- An expression that is left out makes no request and is no node. -/
theorem passes_optionalExpr (e : Option Expr) (a : Analysis) :
    a.Passes (optionalExpr e a) (optionalRequests e) (e.toList.map .expr) := by
  cases e with
  | none => exact .nil a
  | some e => exact passes_typedExpr e a

/-- The first value is passed while the name is not yet in force. -/
theorem passes_declarator (type : DataType) (line : Nat) (d : Declarator) (a : Analysis) :
    a.Passes (declarator type line a d) (d.requests type line)
      (d.initializer.toList.map .expr) := by
  obtain ⟨name, initializer⟩ := d
  cases initializer with
  | none => exact .one a (.declaration name type none line)
  | some e => exact (passes_expr e a).andAsk (.declaration name type (some e) line)

/-- The names of a declaration are declared one after the other. -/
theorem passes_declaration (d : Declaration) (a : Analysis) :
    a.Passes (declaration d a) d.requests (d.values.map .expr) := by
  rw [declaration, Declaration.requests, Declaration.values]
  generalize d.declarators = declarators
  induction declarators generalizing a with
  | nil => exact .nil a
  | cons first more ih =>
    have hboth := (passes_declarator d.type d.line first a).trans (ih _)
    rwa [← List.map_append] at hboth

/-- The store is asked for before the value is passed. -/
theorem passes_assignment (s : Assignment) (a : Analysis) :
    a.Passes (assignment s a) s.requests [.expr s.value] := by
  have hstore := Passes.one a (.assignment s.target s.op s.value s.line)
  exact hstore.trans (passes_expr s.value _)

/-- The start of a counted loop is a declaration or an assignment that is no node. -/
theorem passes_forInit (init : Option ForInit) (a : Analysis) :
    a.Passes (forInit init a) (ForInit.requests init) ((ForInit.values init).map .expr) := by
  cases init with
  | none => exact .nil a
  | some init =>
    cases init with
    | declaration d => exact passes_declaration d a
    | assignment s => exact passes_assignment s a

/-- What a counted loop does after each round is one request, or an assignment that is no node. -/
theorem passes_forStep (step : Option ForStep) (a : Analysis) :
    a.Passes (forStep step a) (ForStep.requests step) ((ForStep.values step).map .expr) := by
  cases step with
  | none => exact .nil a
  | some step =>
    cases step with
    | increment target line | decrement target line => exact .one a (.step target line)
    | assignment s => exact passes_assignment s a

/-- Parameters are declared one after the other and are no nodes. -/
theorem passes_parameters (s : Signature) (a : Analysis) :
    a.Passes (parameters s a) s.parameterRequests [] := by
  rw [parameters, Signature.parameterRequests]
  generalize s.parameters = ps
  induction ps generalizing a with
  | nil => exact .nil a
  | cons p more ih =>
    rw [List.foldl_cons, List.map_cons]
    exact (Passes.one a (.parameter p s.line)).trans (ih _)

mutual

/-- A statement makes the requests that its tree says, and it and all below it are counted. -/
theorem passes_stmt (s : Stmt) (a : Analysis) : a.Passes (stmt s a) s.requests [.stmt s] := by
  cases s with
  | block body line => exact .node (.stmt _) (passes_stmts body a.visit)
  | declaration d => exact .node (.stmt _) (passes_declaration d _)
  | assignment s => exact .node (.stmt _) (passes_assignment s _)
  | ifThen condition body line =>
    have hcondition := passes_typedExpr condition a.visit.countIf.push
    exact .node (.stmt _) (hcondition.trans (passes_stmt body _)).bracketed
  | ifElse condition onTrue onFalse line =>
    have hcondition := passes_typedExpr condition a.visit.countIf.push
    have hsides := (passes_stmt onTrue (typedExpr condition a.visit.countIf.push)).trans
      (passes_stmt onFalse _)
    exact .node (.stmt _) (hcondition.trans hsides).bracketed
  | whileLoop condition body line =>
    have hcondition := passes_typedExpr condition a.visit.countWhile.push
    exact .node (.stmt _) (hcondition.trans (passes_stmt body _)).bracketed
  | forLoop init condition step body line =>
    have hinit := passes_forInit init a.visit.countFor.push
    have hcondition := passes_optionalExpr condition (forInit init a.visit.countFor.push)
    have hloop := hinit.trans (hcondition.trans ((passes_forStep step _).trans
      (passes_stmt body _)))
    -- the children are the expressions of the head in one row, and the body
    have hchildren : (ForInit.values init).map Node.expr ++ (condition.toList.map .expr ++
        ((ForStep.values step).map .expr ++ [.stmt body]))
        = (Stmt.forLoop init condition step body line).children := by
      simp [Stmt.children]
    rw [hchildren] at hloop
    exact .node (.stmt _) hloop.bracketed
  | function s body bodyLine =>
    -- the function is declared around its scope, when that is closed
    have hinside := (passes_parameters s a.visit.countFunction.push).trans (passes_stmts body _)
    exact .node (.stmt _) (hinside.bracketed.andAsk (.function s true))
  | prototype s => exact .node (.stmt _) (.one _ (.function s false))
  | result value line => exact .node (.stmt _) (passes_optionalExpr value a.visit)

/-- Statements are passed one after the other. -/
theorem passes_stmts (body : List Stmt) (a : Analysis) :
    a.Passes (stmts body a) (requestsAll body) (body.map .stmt) := by
  cases body with
  | nil => exact .nil a
  | cons s more => exact (passes_stmt s a).trans (passes_stmts more _)

end

end Analysis

/-- The analysis of a program makes the requests of its tree, and in the end asks for what has not
been read. -/
theorem Program.serve_requests (p : Program) :
    p.analyze.toChecker = Checker.initial.serve p.requests :=
  ((Analysis.passes_stmts p.body Analysis.initial).andAsk .unused).served

end Tercet
