import Tercet.Proofs.Check.Entries
import Tercet.Proofs.Check.Requests

/-!
# `Tercet.Proofs.Check.Scopes`: what a tree enters into which scope

The tree of a program says what is entered into each scope, and in which order: a statement
enters its names into the scope around it (`Stmt.entries`), and a branch, a loop or a function
opens one scope for what stands inside (`Stmt.scopes`). With the rules for one scope
(`refusals`), this gives the reports on names that are taken, in the order of the pass
(`Stmt.redeclarations`).

`Fills` ties the three to the requests of the pass. It is an inductive description of the rows of
requests that trees make, with one rule for each way in which they are put together: single
requests, rows one after the other, and a row in a scope of its own. `Stmt.fills` says that the
requests of a statement are such a row. Whatever holds of these rows can then be shown by induction
on the description, and the tree is not gone through again.
-/

set_option autoImplicit false

namespace Tercet

/-! ### What a tree enters into which scope -/

/-- What a declaration enters. -/
def Declaration.entries (d : Declaration) : List Entry :=
  d.declarators.map fun x => .var x.name d.type d.line x.initializer.isSome

/-- What the parameters of a function enter. -/
def Signature.parameterEntries (s : Signature) : List Entry :=
  s.parameters.map fun p => .parameter p s.line

/-- What the start of a counted loop enters. -/
def ForInit.entries : Option ForInit → List Entry
  | some (.declaration d) => d.entries
  | some (.assignment _) | none => []

mutual

/-- What a statement enters into the scope around it. -/
def Stmt.entries : Stmt → List Entry
  | .block body _ => entriesAll body
  | .declaration d => d.entries
  | .function s _ _ => [.function s true]
  | .prototype s => [.function s false]
  | .assignment _ | .ifThen _ _ _ | .ifElse _ _ _ _ | .whileLoop _ _ _ | .forLoop _ _ _ _ _
  | .result _ _ => []

/-- What a row of statements enters into the scope around it. -/
def entriesAll : List Stmt → List Entry
  | [] => []
  | s :: more => s.entries ++ entriesAll more

end

mutual

/-- What is entered into each of the scopes that a statement opens. -/
def Stmt.scopes : Stmt → List (List Entry)
  | .block body _ => scopesAll body
  | .ifThen _ body _ | .whileLoop _ body _ => body.entries :: body.scopes
  | .ifElse _ onTrue onFalse _ =>
    (onTrue.entries ++ onFalse.entries) :: (onTrue.scopes ++ onFalse.scopes)
  | .forLoop init _ _ body _ => (ForInit.entries init ++ body.entries) :: body.scopes
  | .function s body _ => (s.parameterEntries ++ entriesAll body) :: scopesAll body
  | .declaration _ | .assignment _ | .prototype _ | .result _ _ => []

/-- What is entered into each of the scopes that a row of statements opens. -/
def scopesAll : List Stmt → List (List Entry)
  | [] => []
  | s :: more => s.scopes ++ scopesAll more

end

/-- What is entered into each of the scopes of a program, the outermost first. -/
def Program.scopes (p : Program) : List (List Entry) :=
  entriesAll p.body :: scopesAll p.body

mutual

/-- The reports on names that are taken, from a statement in a scope into which something has
been entered before. -/
def Stmt.redeclarations (before : List Entry) : Stmt → Log
  | .block body _ => redeclarationsAll before body
  | .declaration d => refusals before d.entries
  | .ifThen _ body _ | .whileLoop _ body _ => body.redeclarations []
  | .ifElse _ onTrue onFalse _ =>
    onTrue.redeclarations [] ++ onFalse.redeclarations onTrue.entries
  | .forLoop init _ _ body _ =>
    refusals [] (ForInit.entries init) ++ body.redeclarations (ForInit.entries init)
  -- the function is entered when its body is over
  | .function s body _ =>
    refusals [] s.parameterEntries ++ redeclarationsAll s.parameterEntries body
      ++ refusals before [.function s true]
  | .prototype s => refusals before [.function s false]
  | .assignment _ | .result _ _ => []

/-- The reports on names that are taken, from a row of statements. -/
def redeclarationsAll (before : List Entry) : List Stmt → Log
  | [] => []
  | s :: more => s.redeclarations before ++ redeclarationsAll (before ++ s.entries) more

end

/-! ### Rows of requests that fill scopes -/

/-- Whether the request is about a name or an expression, and neither enters something nor opens or
closes a scope. -/
def Request.isQuiet : Request → Bool
  | .use _ _ | .assignment _ _ _ _ | .step _ _ | .infer _ => true
  | _ => false

/-- What a row of requests does to the scopes. In whatever scope the requests are made, the first
row of entries is what they add to it, and the other rows are what they enter into the scopes that
they open on the way. The reports are those on names that are taken; they depend on what has been
entered into the scope before. -/
inductive Fills : List Request → List Entry → List (List Entry) → (List Entry → Log) → Prop
  | nil : Fills [] [] [] fun _ => []
  | quiet {q : Request} (hq : q.isQuiet = true) : Fills [q] [] [] fun _ => []
  | entered {q : Request} {e : Entry} (hq : q.event? = some (.entered e)) :
    Fills [q] [e] [] fun own => refusals own [e]
  | append {row row' : List Request} {entries entries' : List Entry}
      {scopes scopes' : List (List Entry)} {reports reports' : List Entry → Log}
      (h : Fills row entries scopes reports) (h' : Fills row' entries' scopes' reports') :
    Fills (row ++ row') (entries ++ entries') (scopes ++ scopes')
      fun own => reports own ++ reports' (own ++ entries)
  /-- What is entered into a scope of its own adds nothing to the scope around it. -/
  | bracketed {row : List Request} {entries : List Entry} {scopes : List (List Entry)}
      {reports : List Entry → Log} (h : Fills row entries scopes reports) :
    Fills (bracketed row) [] (entries :: scopes) fun _ => reports []

namespace Fills

variable {row row' : List Request} {entries : List Entry} {scopes : List (List Entry)}
  {reports : List Entry → Log}

/-- The rows of a tree are made of requests that the pass over a tree makes. -/
theorem isOfTree (h : Fills row entries scopes reports) : ∀ q ∈ row, q.isOfTree = true := by
  induction h with
  | nil => exact List.forall_mem_nil _
  | @quiet q hq =>
    refine List.forall_mem_singleton.mpr ?_
    cases q with
    | use | assignment | step | infer => rfl
    | _ => cases hq
  | @entered q e hq =>
    refine List.forall_mem_singleton.mpr ?_
    cases q with
    | declaration | parameter | function => rfl
    | _ => cases hq
  | append _ _ ih ih' => exact List.forall_mem_append.mpr ⟨ih, ih'⟩
  | bracketed _ ih =>
    have hpop : ∀ q ∈ [Request.pop], q.isOfTree = true := List.forall_mem_singleton.mpr rfl
    exact List.forall_mem_cons.mpr ⟨rfl, List.forall_mem_append.mpr ⟨ih, hpop⟩⟩

/-- Quiet requests leave the scopes as they are. -/
theorem of_quiet (h : ∀ q ∈ row, q.isQuiet = true) : Fills row [] [] fun _ => [] := by
  induction row with
  | nil => exact .nil
  | cons q more ih =>
    obtain ⟨hq, hmore⟩ := List.forall_mem_cons.mp h
    exact (Fills.quiet hq).append (ih hmore)

/-- What follows quiet requests is not changed by them. -/
theorem quiet_append (h : ∀ q ∈ row, q.isQuiet = true) (h' : Fills row' entries scopes reports) :
    Fills (row ++ row') entries scopes reports := by
  simpa using (of_quiet h).append h'

end Fills

/-! ### The tree -/

/-- A name that is read is a quiet request. -/
theorem isQuiet_useRequests (name : String) (line : Nat) :
    ∀ q ∈ useRequests name line, q.isQuiet = true := by
  rw [useRequests]
  split
  · exact List.forall_mem_nil _
  · exact List.forall_mem_singleton.mpr rfl

mutual

/-- An expression enters nothing and opens no scope. -/
theorem Expr.isQuiet_requests (e : Expr) : ∀ q ∈ e.requests, q.isQuiet = true := by
  match e with
  | .term t => exact t.isQuiet_requests
  | .binary left _ right =>
    exact List.forall_mem_append.mpr ⟨left.isQuiet_requests, right.isQuiet_requests⟩

/-- Nor does a term. -/
theorem Term.isQuiet_requests (t : Term) : ∀ q ∈ t.requests, q.isQuiet = true := by
  match t with
  | .factor f => exact f.isQuiet_requests
  | .binary left _ right =>
    exact List.forall_mem_append.mpr ⟨left.isQuiet_requests, right.isQuiet_requests⟩

/-- Nor does a factor. -/
theorem Factor.isQuiet_requests (f : Factor) : ∀ q ∈ f.requests, q.isQuiet = true := by
  match f with
  | .number _ _ => exact List.forall_mem_nil _
  | .ident name line => exact isQuiet_useRequests name line
  | .call name args line =>
    exact List.forall_mem_append.mpr ⟨isQuiet_useRequests name line, isQuiet_argumentRequests args⟩
  | .group inner _ => exact inner.isQuiet_requests

/-- Nor do the arguments of a call. -/
theorem isQuiet_argumentRequests (es : List Expr) :
    ∀ q ∈ argumentRequests es, q.isQuiet = true := by
  match es with
  | [] => exact List.forall_mem_nil _
  | e :: es =>
    exact List.forall_mem_cons.mpr ⟨rfl,
      List.forall_mem_append.mpr ⟨e.isQuiet_requests, isQuiet_argumentRequests es⟩⟩

end

/-- Looking at types is quiet as well. -/
theorem Expr.isQuiet_typedRequests (e : Expr) : ∀ q ∈ e.typedRequests, q.isQuiet = true :=
  List.forall_mem_cons.mpr ⟨rfl, e.isQuiet_requests⟩

/-- An expression that may be left out is quiet either way. -/
theorem isQuiet_optionalRequests (e : Option Expr) :
    ∀ q ∈ optionalRequests e, q.isQuiet = true := by
  cases e with
  | none => exact List.forall_mem_nil _
  | some e => exact e.isQuiet_typedRequests

/-- An assignment enters nothing: its target must be there already. -/
theorem Assignment.isQuiet_requests (a : Assignment) : ∀ q ∈ a.requests, q.isQuiet = true :=
  List.forall_mem_cons.mpr ⟨rfl, a.value.isQuiet_requests⟩

/-- What a counted loop does after each round enters nothing. -/
theorem ForStep.isQuiet_requests (step : Option ForStep) :
    ∀ q ∈ ForStep.requests step, q.isQuiet = true := by
  match step with
  | some (.increment _ _) | some (.decrement _ _) => exact List.forall_mem_singleton.mpr rfl
  | some (.assignment a) => exact a.isQuiet_requests
  | none => exact List.forall_mem_nil _

/-- A declared name is entered after its first value. -/
theorem Declarator.fills (type : DataType) (line : Nat) (d : Declarator) :
    Fills (d.requests type line) [.var d.name type line d.initializer.isSome] []
      fun own => refusals own [.var d.name type line d.initializer.isSome] := by
  obtain ⟨name, initializer⟩ := d
  cases initializer with
  | none => exact .entered rfl
  | some e => exact .quiet_append e.isQuiet_requests (.entered rfl)

/-- A declaration enters its names one after the other, into the scope around it. -/
theorem Declaration.fills (d : Declaration) :
    Fills d.requests d.entries [] fun own => refusals own d.entries := by
  rw [requests, entries]
  generalize d.declarators = declarators
  induction declarators with
  | nil => exact .nil
  | cons first more ih => simpa [refusals] using (first.fills d.type d.line).append ih

/-- The parameters of a function are entered one after the other. -/
theorem Signature.fills_parameters (s : Signature) :
    Fills s.parameterRequests s.parameterEntries [] fun own => refusals own s.parameterEntries := by
  rw [parameterRequests, parameterEntries]
  generalize s.parameters = parameters
  induction parameters with
  | nil => exact .nil
  | cons p more ih =>
    have hfirst : Fills [.parameter p s.line] [.parameter p s.line] [] _ := .entered rfl
    simpa [refusals] using hfirst.append ih

/-- The start of a counted loop enters what it declares. -/
theorem ForInit.fills (init : Option ForInit) :
    Fills (ForInit.requests init) (ForInit.entries init) []
      fun own => refusals own (ForInit.entries init) := by
  match init with
  | some (.declaration d) => exact d.fills
  | some (.assignment a) => exact .of_quiet a.isQuiet_requests
  | none => exact .nil

mutual

/-- The requests for a statement fill the scopes of the statement. -/
theorem Stmt.fills (s : Stmt) :
    Fills s.requests s.entries s.scopes fun own => s.redeclarations own := by
  match s with
  | .block body _ => exact fills_all body
  | .declaration d => exact d.fills
  | .assignment a => exact .of_quiet a.isQuiet_requests
  | .ifThen condition body _ | .whileLoop condition body _ =>
    exact (Fills.quiet_append condition.isQuiet_typedRequests body.fills).bracketed
  | .ifElse condition onTrue onFalse _ =>
    -- the second side is entered into the scope after the first
    exact (Fills.quiet_append condition.isQuiet_typedRequests
      (onTrue.fills.append onFalse.fills)).bracketed
  | .forLoop init condition step body _ =>
    have hrest := Fills.quiet_append (isQuiet_optionalRequests condition)
      (.quiet_append (ForStep.isQuiet_requests step) body.fills)
    exact ((ForInit.fills init).append hrest).bracketed
  | .function s body _ =>
    have hinside := (s.fills_parameters.append (fills_all body)).bracketed
    have hall := hinside.append (.entered (q := .function s true) rfl)
    simpa [Stmt.requests, Stmt.entries, Stmt.scopes, Stmt.redeclarations] using hall
  | .prototype s => exact .entered rfl
  | .result value _ => exact .of_quiet (isQuiet_optionalRequests value)

/-- Statements fill the scope around them one after the other. -/
theorem fills_all (body : List Stmt) :
    Fills (requestsAll body) (entriesAll body) (scopesAll body)
      fun own => redeclarationsAll own body := by
  match body with
  | [] => exact .nil
  | s :: more => exact s.fills.append (fills_all more)

end

end Tercet
