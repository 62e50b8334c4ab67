import Tercet.Proofs.Check.Census
import Tercet.Proofs.Symbol.Unlined

/-!
# `Tercet.Proofs.Check.Unlined`: the analysis does not look at lines

Two analyses are alike if their tables are the same without lines, what they have reported has
the same causes in the same order, and the counts are equal (`Analysis.Alike`). The analysis of a
program and of the program without its lines are alike (`alike_analyze`).

The lines go into reports and symbols and nowhere else: each rule has one lemma, in which the
lines on the two sides have nothing to do with each other. So checkers that are alike stay so when
one serves a request and the other the same request without its lines (`Checker.Alike.perform`), and
without its lines a tree makes the requests that it makes with them, without theirs
(`Stmt.requests_unlined`). The counts are counts of places, and leaving lines out moves no node
(`Program.places_unlined`).
-/

set_option autoImplicit false

namespace Tercet

/-- What a log complains about, without the lines. -/
def Log.causes (log : Log) : List Cause :=
  log.map Diagnostic.cause

/-- Reports are added at the end, so causes are too. -/
theorem Log.causes_append (log more : Log) : (log ++ more).causes = log.causes ++ more.causes :=
  List.map_append

/-! ### Types -/

/-- The line of an operator is put into its report and decides nothing: with any two lines, the
type is the same and so is what is complained about. -/
theorem BinaryOp.combine_alike (op : BinaryOp) (left right : Option DataType) (line line' : Nat) :
    (op.combine left right line).1 = (op.combine left right line').1 ∧
      (op.combine left right line).2.causes = (op.combine left right line').2.causes := by
  refine ⟨rfl, ?_⟩
  cases left with
  | none => rfl
  | some l =>
    cases right with
    | none => rfl
    | some r => cases h : op.clash? l r <;> simp [combine, h, Log.causes]

section Typing

variable {t t' : Table}

/-- A name has the same type in tables that differ in lines alone, since the type of a symbol is
none of the things that are left out. -/
theorem type_resolve?_alike (ht : t.unlined = t'.unlined) (name : String) :
    (t.resolve? name).map Symbol.type = (t'.resolve? name).map Symbol.type := by
  have hview (o : Option Symbol) : o.map Symbol.type = (o.map Symbol.unlined).map Symbol.type := by
    rw [Option.map_map]
    exact congrArg (Option.map · o) (funext fun x => x.type_unlined.symm)
  rw [hview, Table.resolve?_alike ht, ← hview]

mutual

/-- Inference agrees in its type and in its causes. The operator of a chain takes its line from
its right operand, which has another line on the other side, and `combine_alike` allows for
that. -/
theorem Expr.infer_alike (ht : t.unlined = t'.unlined) (e : Expr) :
    (e.infer t).1 = (e.unlined.infer t').1 ∧
      (e.infer t).2.causes = (e.unlined.infer t').2.causes := by
  match e with
  | .term only => exact only.infer_alike ht
  | .binary left op right =>
    obtain ⟨hleft, hleftLog⟩ := left.infer_alike ht
    obtain ⟨hright, hrightLog⟩ := right.infer_alike ht
    simp only [Expr.infer, Expr.unlined, Log.causes_append, hleft, hright, hleftLog, hrightLog]
    -- the operands have the same types by now, and only the two lines differ
    obtain ⟨htype, hlog⟩ := op.combine_alike (left.unlined.infer t').1 (right.unlined.infer t').1
      right.line right.unlined.line
    exact ⟨htype, by rw [hlog]⟩

/-- The same for the chains of a term. -/
theorem Term.infer_alike (ht : t.unlined = t'.unlined) (e : Term) :
    (e.infer t).1 = (e.unlined.infer t').1 ∧
      (e.infer t).2.causes = (e.unlined.infer t').2.causes := by
  match e with
  | .factor only => exact only.infer_alike ht
  | .binary left op right =>
    obtain ⟨hleft, hleftLog⟩ := left.infer_alike ht
    obtain ⟨hright, hrightLog⟩ := right.infer_alike ht
    simp only [Term.infer, Term.unlined, Log.causes_append, hleft, hright, hleftLog, hrightLog]
    obtain ⟨htype, hlog⟩ := op.combine_alike (left.unlined.infer t').1 (right.unlined.infer t').1
      right.line right.unlined.line
    exact ⟨htype, by rw [hlog]⟩

/-- A factor looks up at most one name. Arguments of a call are not looked at for its type. -/
theorem Factor.infer_alike (ht : t.unlined = t'.unlined) (f : Factor) :
    (f.infer t).1 = (f.unlined.infer t').1 ∧
      (f.infer t).2.causes = (f.unlined.infer t').2.causes := by
  match f with
  | .number _ _ => exact ⟨rfl, rfl⟩
  | .ident name _ | .call name _ _ => exact ⟨type_resolve?_alike ht name, rfl⟩
  | .group inner _ => exact inner.infer_alike ht

end

end Typing

/-! ### Rules -/

namespace Checker

/-- The checkers differ in lines alone. -/
structure Alike (c c' : Checker) : Prop where
  table : c.table.unlined = c'.table.unlined
  causes : c.log.causes = c'.log.causes

/-- So do the answers of a rule. -/
structure Agree {α : Type} (r r' : α × Checker) : Prop where
  answer : r.1 = r'.1
  alike : r.2.Alike r'.2

/-- Two answers that agree are one answer, with two checkers that are alike. Rules that go on
after another one start from this form. -/
theorem Agree.exists_eq {α : Type} {r r' : α × Checker} (h : Agree r r') :
    ∃ answer c c', r = (answer, c) ∧ r' = (answer, c') ∧ c.Alike c' := by
  obtain ⟨answer, c⟩ := r
  obtain ⟨answer', c'⟩ := r'
  obtain rfl : answer = answer' := h.answer
  exact ⟨answer, c, c', rfl, rfl, h.alike⟩

variable {c c' : Checker}

/-- Whatever is reported on both sides, it is only the causes that have to be the same. -/
theorem Alike.reportAll (h : c.Alike c') {log log' : Log} (hlog : log.causes = log'.causes) :
    (c.reportAll log).Alike (c'.reportAll log') where
  table := h.table
  causes := by
    show Log.causes (c.log ++ log) = Log.causes (c'.log ++ log')
    rw [Log.causes_append, Log.causes_append, h.causes, hlog]

/-- One cause may be reported on any two lines. -/
theorem Alike.report (h : c.Alike c') (cause : Cause) (line line' : Nat) :
    (c.report cause line).Alike (c'.report cause line') :=
  h.reportAll rfl

/-- A new scope is empty, on either side. -/
theorem Alike.push (h : c.Alike c') : c.push.Alike c'.push :=
  ⟨Table.push_alike h.table, h.causes⟩

/-- The scopes that are closed were the same but for lines, and so are those that remain. -/
theorem Alike.pop (h : c.Alike c') : c.pop.Alike c'.pop :=
  ⟨Table.pop_alike h.table, h.causes⟩

/-- Inference reads the table without its lines, and its reports have the same causes. -/
theorem Alike.infer (h : c.Alike c') (e : Expr) : Agree (c.infer e) (c'.infer e.unlined) := by
  obtain ⟨htype, hlog⟩ := e.infer_alike h.table
  exact ⟨htype, h.reportAll hlog⟩

/-- The operator of a store that computes has the line of the statement, which may be any. -/
theorem Alike.combine (h : c.Alike c') (left right : Option DataType) (op : BinaryOp)
    (line line' : Nat) : Agree (c.combine left right op line) (c'.combine left right op line') := by
  obtain ⟨htype, hlog⟩ := op.combine_alike left right line line'
  exact ⟨htype, h.reportAll hlog⟩

/-- A declaration succeeds on both sides or on neither, since names are not among what is left
out. -/
theorem Alike.declare (h : c.Alike c') {x y : Symbol} (hxy : x.unlined = y.unlined) :
    Agree (c.declare x) (c'.declare y) := by
  rw [Checker.declare, Checker.declare]
  -- a table that refuses makes the other one refuse, and neither changes
  rcases none_or_some_of_map_eq (Table.declare?_alike h.table hxy) with
    ⟨ht, ht'⟩ | ⟨t, t', ht, ht', hview⟩
  · rw [ht, ht']
    exact ⟨rfl, h⟩
  · rw [ht, ht']
    exact ⟨rfl, hview, h.causes⟩

/-- Whether a name is free is a question about names. The report that it is not has a line, and no
more. -/
theorem Alike.checkFresh (h : c.Alike c') (name : String) (line line' : Nat) :
    Agree (c.checkFresh name line) (c'.checkFresh name line') := by
  rw [Checker.checkFresh, Checker.checkFresh]
  -- the name is free in both tables or in neither
  rcases none_or_some_of_map_eq (Table.lookup?_alike h.table name) with
    ⟨hx, hy⟩ | ⟨x, y, hx, hy, -⟩
  · rw [hx, hy]
    exact ⟨rfl, h⟩
  · rw [hx, hy]
    exact ⟨rfl, h.report _ line line'⟩

/-- A value may be stored or not by the types alone. -/
theorem Alike.checkAssignable (h : c.Alike c') (expected actual : Option DataType)
    (line line' : Nat) (context : String) :
    Agree (c.checkAssignable expected actual line context)
      (c'.checkAssignable expected actual line' context) := by
  cases expected with
  | none => exact ⟨rfl, h⟩
  | some e =>
    cases actual with
    | none => exact ⟨rfl, h⟩
    | some a =>
      rw [Checker.checkAssignable, Checker.checkAssignable]
      split
      · exact ⟨rfl, h⟩
      · exact ⟨rfl, h.report _ line line'⟩

/-- The rule in its order: the name must be free, then the initializer is looked at, then the
symbol is declared. The variable on the one side has its own line and the other has none, which is
no difference without lines. -/
theorem Alike.checkDeclaration (h : c.Alike c') (name : String) (type : DataType)
    (initializer : Option Expr) (line line' : Nat) :
    Agree (c.checkDeclaration name type initializer line)
      (c'.checkDeclaration name type (initializer.map Expr.unlined) line') := by
  obtain ⟨fresh, d, d', hd, hd', h⟩ := (h.checkFresh name line line').exists_eq
  rw [Checker.checkDeclaration, Checker.checkDeclaration, hd, hd']
  cases fresh with
  -- a name that is taken stops the rule before the initializer
  | false => exact ⟨rfl, h⟩
  | true =>
    cases initializer with
    | none => exact h.declare rfl
    | some e =>
      obtain ⟨htype, hinfer⟩ := h.infer e
      simp only [Option.map_some, htype]
      exact (hinfer.checkAssignable _ _ line line' _).alike.declare rfl

/-- A parameter is declared like a variable without an initializer. -/
theorem Alike.declareParameter (h : c.Alike c') (p : Parameter) (line line' : Nat) :
    Agree (c.declareParameter p line) (c'.declareParameter p line') := by
  obtain ⟨fresh, d, d', hd, hd', h⟩ := (h.checkFresh p.name line line').exists_eq
  rw [Checker.declareParameter, Checker.declareParameter, hd, hd']
  cases fresh with
  | false => exact ⟨rfl, h⟩
  | true => exact h.declare rfl

/-- Whether a definition completes what stands under its name is decided by kind, return type and
state of that symbol, none of which is a line. -/
theorem completes_unlined (s : Signature) (x : Symbol) :
    completes s.unlined x.unlined = completes s x := by
  cases x <;> rfl

/-- The heads agree, because what stands under the name agrees: nothing, a prototype that may be
completed, or something in the way. -/
theorem Alike.declareFunction (h : c.Alike c') (s : Signature) (defined : Bool) :
    Agree (c.declareFunction s defined) (c'.declareFunction s.unlined defined) := by
  have hs : (Symbol.function s true).unlined = (Symbol.function s.unlined true).unlined := rfl
  rw [Checker.declareFunction, Checker.declareFunction, show s.unlined.name = s.name from rfl]
  rcases none_or_some_of_map_eq (Table.lookup?_alike h.table s.name) with
    ⟨hx, hy⟩ | ⟨x, y, hx, hy, hxy⟩
  · rw [hx, hy]
    exact h.declare rfl
  · -- the symbols are two, but alike, so the definition completes both or neither
    have hcompletes : completes s.unlined y = completes s x := by
      rw [← completes_unlined s x, hxy, ← completes_unlined s.unlined y]
      rfl
    simp only [hx, hy, hcompletes]
    split
    · split
      -- the prototype makes room for the definition, in scopes that are alike
      · have hreplace := Table.modifyInnermost?_alike h.table
          (f := fun scope => scope.replace? (.function s true))
          (g := fun scope => scope.replace? (.function s.unlined true))
          fun _ _ hscope => Scope.replace?_alike hscope hs
        rcases none_or_some_of_map_eq hreplace with ⟨ht, ht'⟩ | ⟨t, t', ht, ht', hview⟩
        · rw [ht, ht']
          exact ⟨rfl, h⟩
        · rw [ht, ht']
          exact ⟨rfl, hview, h.causes⟩
      · exact ⟨rfl, h⟩
    · exact ⟨rfl, h.report _ s.line s.unlined.line⟩

/-- A use is granted by what the symbol says of itself, which it says without its lines as well. -/
theorem Alike.checkUse (h : c.Alike c') (name : String) (line line' : Nat) :
    Agree (c.checkUse name line) (c'.checkUse name line') := by
  rw [Checker.checkUse, Checker.checkUse]
  rcases none_or_some_of_map_eq (Table.resolve?_alike h.table name) with
    ⟨hx, hy⟩ | ⟨x, y, hx, hy, hxy⟩
  · rw [hx, hy]
    exact ⟨rfl, h.report _ line line'⟩
  · simp only [hx, hy, Symbol.isInitialized_eq_of_unlined hxy]
    split
    · exact ⟨rfl, Table.markUsed_alike h.table name, h.causes⟩
    · exact ⟨rfl, h.report _ line line'⟩

/-- The line of a store goes into the symbol and is left out again. -/
theorem Alike.store (h : c.Alike c') (name : String) (line line' : Nat) :
    Alike { c with table := c.table.store name line }
      { c' with table := c'.table.store name line' } :=
  ⟨Table.store_alike h.table name line line', h.causes⟩

/-- A store comes before the value is looked at, and a store that computes combines before it is
checked; each step keeps the checkers alike. -/
theorem Alike.checkAssignment (h : c.Alike c') (name : String) (op : AssignOp) (value : Expr)
    (line line' : Nat) :
    Agree (c.checkAssignment name op value line)
      (c'.checkAssignment name op value.unlined line') := by
  rw [Checker.checkAssignment, Checker.checkAssignment]
  rcases none_or_some_of_map_eq (Table.resolve?_alike h.table name) with
    ⟨hx, hy⟩ | ⟨x, y, hx, hy, hxy⟩
  · rw [hx, hy]
    exact ⟨rfl, h.report _ line line'⟩
  · -- the value is looked at in the tables after the store, which are alike again
    obtain ⟨htype, hinfer⟩ := (h.store name line line').infer value
    simp only [hx, hy, Symbol.type_eq_of_unlined hxy, htype]
    cases op.binary? with
    | none => exact ⟨rfl, (hinfer.checkAssignable _ _ line line' _).alike⟩
    | some binary =>
      obtain ⟨hcombined, hcombine⟩ := hinfer.combine (some y.type)
        ((Checker.infer { c' with table := c'.table.store name line' } value.unlined).1) binary
        line line'
      simp only [hcombined]
      exact ⟨rfl, (hcombine.checkAssignable _ _ line line' _).alike⟩

/-- A step is a use that stores if it is granted. -/
theorem Alike.checkStep (h : c.Alike c') (name : String) (line line' : Nat) :
    Agree (c.checkStep name line) (c'.checkStep name line') := by
  obtain ⟨ready, d, d', hd, hd', h⟩ := (h.checkUse name line line').exists_eq
  rw [Checker.checkStep, Checker.checkStep, hd, hd']
  cases ready with
  | false => exact ⟨rfl, h⟩
  | true => exact ⟨rfl, h.store name line line'⟩

/-- Whether a variable is reported as unread does not depend on its lines. -/
theorem map_cause_unused? (x : Symbol) :
    (unused? x).map Diagnostic.cause = (unused? x.unlined).map Diagnostic.cause := by
  cases x with
  | function => rfl
  | var v =>
    obtain ⟨name, type, line, initializedAt, used⟩ := v
    cases used <;> rfl

/-- The symbols that are told of stand in the same order on both sides, and each is told of by its
name. -/
theorem Alike.checkUnused (h : c.Alike c') : c.checkUnused.Alike c'.checkUnused := by
  refine h.reportAll ?_
  have hview (t : Table) : Log.causes (t.symbols.filterMap unused?)
      = (t.symbols.map Symbol.unlined).filterMap fun x => (unused? x).map Diagnostic.cause := by
    rw [Log.causes, List.map_filterMap, List.filterMap_map]
    exact congrArg (List.filterMap · _) (funext map_cause_unused?)
  rw [hview, hview, Table.unlined_symbols, Table.unlined_symbols, h.table]

end Checker

/-! ### Requests -/

/-- The request without its lines. -/
def Request.unlined : Request → Request
  | .push => .push
  | .pop => .pop
  | .fresh name _ => .fresh name 0
  | .declaration name type initializer _ =>
    .declaration name type (initializer.map Expr.unlined) 0
  | .parameter p _ => .parameter p 0
  | .function s defined => .function s.unlined defined
  | .use name _ => .use name 0
  | .assignment name op value _ => .assignment name op value.unlined 0
  | .step name _ => .step name 0
  | .infer e => .infer e.unlined
  | .combine left right op _ => .combine left right op 0
  | .assignable expected actual _ context => .assignable expected actual 0 context
  | .unused => .unused

namespace Checker

variable {c c' : Checker}

/-- Checkers stay alike if one serves a request and the other the request without its lines. -/
theorem Alike.perform (h : c.Alike c') (q : Request) :
    (c.perform q).2.Alike (c'.perform q.unlined).2 := by
  cases q with
  | push => exact h.push
  | pop => exact h.pop
  | fresh name line => exact (h.checkFresh name line 0).alike
  | declaration name type initializer line =>
    exact (h.checkDeclaration name type initializer line 0).alike
  | parameter p line => exact (h.declareParameter p line 0).alike
  | function s defined => exact (h.declareFunction s defined).alike
  | use name line => exact (h.checkUse name line 0).alike
  | assignment name op value line => exact (h.checkAssignment name op value line 0).alike
  | step name line => exact (h.checkStep name line 0).alike
  | infer e => exact (h.infer e).alike
  | combine left right op line => exact (h.combine left right op line 0).alike
  | assignable expected actual line context =>
    exact (h.checkAssignable expected actual line 0 context).alike
  | unused => exact h.checkUnused

/-- So they do along a row of requests. -/
theorem Alike.serve (h : c.Alike c') (row : List Request) :
    (c.serve row).Alike (c'.serve (row.map Request.unlined)) := by
  induction row generalizing c c' with
  | nil => exact h
  | cons q more ih => exact ih (h.perform q)

end Checker

/-! ### The requests of a tree without its lines -/

/-- Whether a word is reserved does not depend on its line. -/
theorem useRequests_unlined (name : String) (line : Nat) :
    useRequests name 0 = (useRequests name line).map Request.unlined := by
  rw [useRequests, useRequests]
  split <;> rfl

mutual

/-- Without its lines an expression makes the same requests, without theirs. -/
theorem Expr.requests_unlined (e : Expr) :
    e.unlined.requests = e.requests.map Request.unlined := by
  match e with
  | .term t => exact t.requests_unlined
  | .binary left _ right =>
    rw [Expr.unlined, Expr.requests, Expr.requests, List.map_append, left.requests_unlined,
      right.requests_unlined]

/-- So does a term. -/
theorem Term.requests_unlined (t : Term) :
    t.unlined.requests = t.requests.map Request.unlined := by
  match t with
  | .factor f => exact f.requests_unlined
  | .binary left _ right =>
    rw [Term.unlined, Term.requests, Term.requests, List.map_append, left.requests_unlined,
      right.requests_unlined]

/-- So does a factor. -/
theorem Factor.requests_unlined (f : Factor) :
    f.unlined.requests = f.requests.map Request.unlined := by
  match f with
  | .number _ _ => rfl
  | .ident name line => exact useRequests_unlined name line
  | .call name args line =>
    rw [Factor.unlined, Factor.requests, Factor.requests, List.map_append,
      useRequests_unlined name line, argumentRequests_unlined args]
  | .group inner _ => exact inner.requests_unlined

/-- So do the arguments of a call. -/
theorem argumentRequests_unlined (es : List Expr) :
    argumentRequests (unlinedArguments es) = (argumentRequests es).map Request.unlined := by
  match es with
  | [] => rfl
  | e :: es =>
    rw [unlinedArguments, argumentRequests, argumentRequests, List.map_cons, List.map_append,
      e.requests_unlined, argumentRequests_unlined es]
    rfl

end

/-- The request for a type comes first, then those of the parts. -/
theorem Expr.typedRequests_unlined (e : Expr) :
    e.unlined.typedRequests = e.typedRequests.map Request.unlined :=
  congrArg (Request.infer e.unlined :: ·) e.requests_unlined

/-- What is not there makes no requests. -/
theorem optionalRequests_unlined (e : Option Expr) :
    optionalRequests (e.map Expr.unlined) = (optionalRequests e).map Request.unlined := by
  cases e with
  | none => rfl
  | some e => exact e.typedRequests_unlined

/-- A declared name has the line of its declaration, which the request leaves out. -/
theorem Declarator.requests_unlined (type : DataType) (line : Nat) (d : Declarator) :
    d.unlined.requests type 0 = (d.requests type line).map Request.unlined := by
  obtain ⟨name, initializer⟩ := d
  cases initializer with
  | none => rfl
  | some e =>
    rw [Declarator.requests, List.map_append, ← e.requests_unlined]
    rfl

/-- All names of a declaration have one line, and all lose it. -/
theorem Declaration.requests_unlined (d : Declaration) :
    d.unlined.requests = d.requests.map Request.unlined := by
  rw [requests, requests, unlined, List.flatMap_map, List.map_flatMap]
  exact congrArg (List.flatMap · d.declarators) (funext (Declarator.requests_unlined d.type d.line))

/-- An assignment keeps target, operator and value. -/
theorem Assignment.requests_unlined (a : Assignment) :
    a.unlined.requests = a.requests.map Request.unlined :=
  congrArg (Request.assignment a.target a.op a.value.unlined 0 :: ·) a.value.requests_unlined

/-- The start of a loop makes the requests of what it is. -/
theorem ForInit.requests_unlined (init : Option ForInit) :
    ForInit.requests (init.map ForInit.unlined) = (ForInit.requests init).map Request.unlined := by
  match init with
  | some (.declaration d) => exact d.requests_unlined
  | some (.assignment a) => exact a.requests_unlined
  | none => rfl

/-- A step by one is a request with a line and nothing else in it, so without lines it is the same
request. -/
theorem ForStep.requests_unlined (step : Option ForStep) :
    ForStep.requests (step.map ForStep.unlined) = (ForStep.requests step).map Request.unlined := by
  match step with
  | some (.increment _ _) | some (.decrement _ _) | none => rfl
  | some (.assignment a) => exact a.requests_unlined

/-- Parameters have the line of the head. -/
theorem Signature.parameterRequests_unlined (s : Signature) :
    s.unlined.parameterRequests = s.parameterRequests.map Request.unlined := by
  rw [parameterRequests, parameterRequests, List.map_map]
  rfl

/-- A scope of its own has no line. -/
theorem bracketed_unlined (row : List Request) :
    bracketed (row.map Request.unlined) = (bracketed row).map Request.unlined := by
  rw [bracketed, bracketed, List.map_cons, List.map_append]
  rfl

mutual

/-- Without its lines a statement makes the same requests, without theirs. -/
theorem Stmt.requests_unlined (s : Stmt) :
    s.unlined.requests = s.requests.map Request.unlined := by
  match s with
  | .block body _ => exact requestsAll_unlined body
  | .declaration d => exact d.requests_unlined
  | .assignment a => exact a.requests_unlined
  -- a scope of its own around it, and inside the parts one by one
  | .ifThen condition body _ | .whileLoop condition body _ =>
    rw [Stmt.unlined, Stmt.requests, Stmt.requests, ← bracketed_unlined, List.map_append,
      condition.typedRequests_unlined, body.requests_unlined]
  | .ifElse condition onTrue onFalse _ =>
    rw [Stmt.unlined, Stmt.requests, Stmt.requests, ← bracketed_unlined, List.map_append,
      List.map_append, condition.typedRequests_unlined, onTrue.requests_unlined,
      onFalse.requests_unlined]
  | .forLoop init condition step body _ =>
    rw [Stmt.unlined, Stmt.requests, Stmt.requests, ← bracketed_unlined, List.map_append,
      List.map_append, List.map_append, ForInit.requests_unlined, optionalRequests_unlined,
      ForStep.requests_unlined, body.requests_unlined]
  | .function s body _ =>
    rw [Stmt.unlined, Stmt.requests, Stmt.requests, List.map_append, ← bracketed_unlined,
      List.map_append, s.parameterRequests_unlined, requestsAll_unlined body]
    rfl
  | .prototype _ => rfl
  | .result value _ => exact optionalRequests_unlined value

/-- So does a row of statements. -/
theorem requestsAll_unlined (body : List Stmt) :
    requestsAll (unlinedRow body) = (requestsAll body).map Request.unlined := by
  match body with
  | [] => rfl
  | s :: more =>
    rw [unlinedRow, requestsAll, requestsAll, List.map_append, s.requests_unlined,
      requestsAll_unlined more]

end

/-- The last request of a program, for the variables that are never read, has no line. -/
theorem Program.requests_unlined (p : Program) :
    p.unlined.requests = p.requests.map Request.unlined := by
  rw [requests, requests, List.map_append, ← requestsAll_unlined]
  rfl

/-! ### Places -/

/-- The node without its lines. -/
def Node.unlined : Node → Node
  | .stmt s => .stmt s.unlined
  | .expr e => .expr e.unlined
  | .term t => .term t.unlined
  | .factor f => .factor f.unlined

/-- What a node is counted as is its constructor, not its line. -/
theorem Node.construct_unlined (n : Node) : n.unlined.construct = n.construct := by
  cases n with
  | stmt s => cases s <;> rfl
  | expr | term | factor => rfl

/-- A chain has the terms it had, each without its lines. -/
theorem Expr.terms_unlined (e : Expr) : e.unlined.terms = e.terms.map Term.unlined := by
  match e with
  | .term t => rfl
  | .binary left op right =>
    rw [Expr.unlined, Expr.terms_binary, Expr.terms_binary, left.terms_unlined, List.map_append]
    rfl

/-- A term has the factors it had, each without its lines. -/
theorem Term.factors_unlined (t : Term) : t.unlined.factors = t.factors.map Factor.unlined := by
  match t with
  | .factor f => rfl
  | .binary left op right =>
    rw [Term.unlined, Term.factors_binary, Term.factors_binary, left.factors_unlined,
      List.map_append]
    rfl

/-- A declaration has the initializers it had. -/
theorem Declaration.values_unlined (d : Declaration) :
    d.unlined.values = d.values.map Expr.unlined := by
  rw [values, values, unlined, List.flatMap_map, List.map_flatMap]
  refine congrArg (List.flatMap · d.declarators) (funext fun one => ?_)
  obtain ⟨name, initializer⟩ := one
  cases initializer <;> rfl

/-- The start of a loop has the values it had. -/
theorem ForInit.values_unlined (init : Option ForInit) :
    ForInit.values (init.map ForInit.unlined) = (ForInit.values init).map Expr.unlined := by
  match init with
  | some (.declaration d) => exact d.values_unlined
  | some (.assignment _) | none => rfl

/-- So has its step. -/
theorem ForStep.values_unlined (step : Option ForStep) :
    ForStep.values (step.map ForStep.unlined) = (ForStep.values step).map Expr.unlined := by
  match step with
  | some (.assignment _) | some (.increment _ _) | some (.decrement _ _) | none => rfl

/-- A row is recursed on in the tree, and is a map over its statements. -/
theorem unlinedRow_eq_map (body : List Stmt) : unlinedRow body = body.map Stmt.unlined := by
  induction body with
  | nil => rfl
  | cons s more ih => rw [unlinedRow, ih, List.map_cons]

/-- A statement has the children it had. Where children are given by lists, their lines are left
out element by element. -/
theorem Stmt.children_unlined (s : Stmt) : s.unlined.children = s.children.map Node.unlined := by
  cases s with
  | block body line | function _ body line =>
    simp only [Stmt.unlined, Stmt.children, unlinedRow_eq_map, List.map_map]
    rfl
  | declaration d =>
    simp only [Stmt.unlined, Stmt.children, d.values_unlined, List.map_map]
    rfl
  -- a fixed number of children is a literal list on both sides
  | assignment | ifThen | ifElse | whileLoop | prototype => rfl
  | forLoop init condition step body line =>
    have hcondition : (condition.map Expr.unlined).toList = condition.toList.map Expr.unlined := by
      cases condition <;> rfl
    simp only [Stmt.unlined, Stmt.children, ForInit.values_unlined, ForStep.values_unlined,
      hcondition, List.map_append, List.map_map]
    rfl
  | result value line => cases value <;> rfl

/-- Leaving out lines takes no node away and adds none. -/
theorem Node.children_unlined (n : Node) : n.unlined.children = n.children.map Node.unlined := by
  cases n with
  | stmt s => exact s.children_unlined
  | expr e =>
    simp only [Node.unlined, Node.children, e.terms_unlined, List.map_map]
    rfl
  | term t =>
    simp only [Node.unlined, Node.children, t.factors_unlined, List.map_map]
    rfl
  | factor f =>
    cases f with
    | number | ident | group => rfl
    -- arguments are recursed on in the tree, so they have to be turned into a map first
    | call name args line =>
      simp only [Node.unlined, Factor.unlined, Node.children, unlinedArguments_eq_map,
        List.map_map]
      rfl

/-- A path leads to the node that it leads to, without its lines. -/
theorem Node.at?_unlined (n : Node) (path : List Nat) :
    n.unlined.at? path = (n.at? path).map Node.unlined := by
  induction path generalizing n with
  | nil => rfl
  | cons i path ih =>
    rw [Node.at?, Node.at?, n.children_unlined, List.getElem?_map]
    cases n.children[i]? with
    | none => rfl
    | some child => exact ih child

/-- So the nodes of a construct are at the same places. -/
theorem Program.places_unlined (p : Program) (kinds : Construct → Bool) :
    p.unlined.places kinds = p.places kinds := by
  have hrow : p.unlined.body.map Node.stmt = (p.body.map Node.stmt).map Node.unlined := by
    rw [unlined, unlinedRow_eq_map, List.map_map, List.map_map]
    rfl
  -- one step down the row of statements; from there on the path is inside of a node
  have hat (path : List Nat) : rowAt? (p.unlined.body.map .stmt) path
      = (rowAt? (p.body.map .stmt) path).map Node.unlined := by
    rw [hrow]
    cases path with
    | nil => rfl
    | cons i path =>
      rw [rowAt?, rowAt?, List.getElem?_map]
      cases (p.body.map Node.stmt)[i]? with
      | none => rfl
      | some n => exact n.at?_unlined path
  ext path
  simp only [places, rowPlaces, Set.mem_ofPred_eq, hat]
  cases rowAt? (p.body.map Node.stmt) path with
  | none => simp
  | some m => simp [Node.construct_unlined]

/-- Statistics are their counts. -/
theorem Stats.eq_of_tells {s s' : Stats}
    (h : ∀ {count : Stats → Nat} {kinds : Construct → Bool}, Tells count kinds →
      count s = count s') : s = s' := by
  cases s
  cases s'
  rw [Stats.mk.injEq]
  exact ⟨h .declarations, h .functions, h .ifs, h .whiles, h .fors, h .assignments, h .nodes⟩

/-- The counts of a program do not depend on its lines, because its places do not. -/
theorem Program.stats_unlined (p : Program) : p.analyze.stats = p.unlined.analyze.stats := by
  refine Stats.eq_of_tells fun h => ?_
  have hplaces := p.unlined.encard_places h
  rw [p.places_unlined, p.encard_places h] at hplaces
  exact Nat.cast_injective hplaces

/-! ### The analysis -/

/-- The analyses differ in lines alone. -/
structure Analysis.Alike (a a' : Analysis) : Prop where
  checker : a.toChecker.Alike a'.toChecker
  stats : a.stats = a'.stats

/-- The analysis of a program differs from that of the program without its lines in lines
alone. -/
theorem alike_analyze (p : Program) : p.analyze.Alike p.unlined.analyze where
  checker := by
    have hinitial : Checker.initial.Alike Checker.initial := ⟨rfl, rfl⟩
    rw [p.serve_requests, p.unlined.serve_requests, p.requests_unlined]
    exact hinitial.serve p.requests
  stats := p.stats_unlined

end Tercet
