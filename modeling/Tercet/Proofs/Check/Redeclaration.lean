import Tercet.Proofs.Check.Bindings
import Tercet.Proofs.Check.Frames

/-!
# `Tercet.Proofs.Check.Redeclaration`: which declarations of a program are refused

The tree of a program says what is entered into each scope, and from that which entries are refused
(`Stmt.redeclarations`). `redeclarations_analyze` says that the analysis reports just these, and
that its scopes end with what the tree says.

A ledger, the entries of each open scope, is kept along the events of the pass (`Ledger.after`).
One event keeps the scopes in agreement with their ledger and reports what the ledger says, and
rows of events follow by induction. What the requests of a tree do to a ledger is read off their
description (`Fills.after` and `Fills.remarks`).
-/

set_option autoImplicit false

namespace Tercet

open History

/-! ### Reports scope by scope -/

/-- The middle two of four rows may change places. -/
theorem perm_interchange {α : Type} (as bs cs ds : List α) :
    ((as ++ bs) ++ (cs ++ ds)).Perm ((as ++ cs) ++ (bs ++ ds)) := by
  rw [List.append_assoc, List.append_assoc]
  refine List.Perm.append_left as ?_
  rw [← List.append_assoc, ← List.append_assoc]
  exact List.Perm.append_right ds List.perm_append_comm

mutual

/-- The reports from a statement are those of the scope around it and those of the scopes that it
opens. -/
theorem Stmt.perm_redeclarations (s : Stmt) (before : List Entry) :
    (s.redeclarations before).Perm
      (refusals before s.entries ++ s.scopes.flatMap (refusals [])) := by
  match s with
  | .block body _ => exact perm_redeclarationsAll body before
  | .declaration d => simp [Stmt.redeclarations, Stmt.entries, Stmt.scopes]
  | .assignment _ | .result _ _ => exact .nil
  | .ifThen _ body _ | .whileLoop _ body _ => exact body.perm_redeclarations []
  -- both sides share one scope, so the second is entered after the first
  | .ifElse _ onTrue onFalse _ =>
    have hboth := (onTrue.perm_redeclarations []).append
      (onFalse.perm_redeclarations onTrue.entries)
    simp only [Stmt.redeclarations, Stmt.entries, Stmt.scopes, refusals, List.flatMap_cons,
      List.flatMap_append, refusals_append, List.nil_append]
    exact hboth.trans (perm_interchange _ _ _ _)
  | .forLoop init _ _ body _ =>
    simp only [Stmt.redeclarations, Stmt.entries, Stmt.scopes, refusals, List.flatMap_cons,
      refusals_append, List.nil_append, List.append_assoc]
    exact (body.perm_redeclarations _).append_left _
  | .function s body _ =>
    simp only [Stmt.redeclarations, Stmt.entries, Stmt.scopes, List.flatMap_cons, refusals_append,
      List.nil_append]
    -- the function is declared after its body, but its entry belongs to the scope around it
    refine List.perm_append_comm.trans (List.Perm.append_left _ ?_)
    rw [List.append_assoc]
    exact (perm_redeclarationsAll body _).append_left _
  | .prototype s => simp [Stmt.redeclarations, Stmt.entries, Stmt.scopes]

/-- So are the reports from a row of statements. -/
theorem perm_redeclarationsAll (body : List Stmt) (before : List Entry) :
    (redeclarationsAll before body).Perm
      (refusals before (entriesAll body) ++ (scopesAll body).flatMap (refusals [])) := by
  match body with
  | [] => exact .nil
  | s :: more =>
    have hboth := (s.perm_redeclarations before).append
      (perm_redeclarationsAll more (before ++ s.entries))
    simp only [redeclarationsAll, entriesAll, scopesAll, List.flatMap_append, refusals_append]
    exact hboth.trans (perm_interchange _ _ _ _)

end

/-! ### Ledgers -/

/-- The entries that have been made in each open scope, the innermost first. -/
abbrev Ledger := List (List Entry)

namespace Ledger

/-- The ledger after an event. -/
def after : Ledger → Event → Ledger
  | ledger, .opened => [] :: ledger
  | ledger, .closed => ledger.tail
  | own :: rest, .entered e => (own ++ [e]) :: rest
  | [], .entered _ => []
  | ledger, .stored _ _ | ledger, .read _ _ => ledger

/-- What there is to report about an event. -/
def remark? : Ledger → Event → Option Diagnostic
  | own :: _, .entered e => refusal? own e
  | _, _ => none

/-- What there is to report about a row of events. -/
def remarks (ledger : Ledger) : List Event → Log
  | [] => []
  | e :: more => (ledger.remark? e).toList ++ remarks (ledger.after e) more

/-- The second of two rows is judged by the ledger after the first. -/
theorem remarks_append (ledger : Ledger) (row row' : List Event) :
    ledger.remarks (row ++ row') = ledger.remarks row ++ remarks (row.foldl after ledger) row' := by
  induction row generalizing ledger with
  | nil => rfl
  | cons e more ih => simp [remarks, ih]

/-- There is one row of entries for each open scope. -/
theorem length_after {ledger : Ledger} {e : Event} {k m : Nat} (hlen : ledger.length = k + 1)
    (he : e.shift k = some m) : (ledger.after e).length = m + 1 := by
  match ledger with
  | own :: rest =>
    cases e with
    | closed =>
      cases k with
      | zero => cases he
      | succ k =>
        cases he
        exact Nat.succ.inj hlen
    | opened =>
      cases he
      exact congrArg (· + 1) hlen
    | entered | stored | read =>
      cases he
      exact hlen

end Ledger

/-- The ledger after a request. -/
def Ledger.heed (ledger : Ledger) (q : Request) : Ledger :=
  q.event?.elim ledger ledger.after

/-- A ledger is kept along requests as along their events. -/
theorem Ledger.foldl_heed (ledger : Ledger) (row : List Request) :
    row.foldl heed ledger = (eventsOf row).foldl after ledger := by
  induction row generalizing ledger with
  | nil => rfl
  | cons q more ih =>
    rw [List.foldl_cons, ih, eventsOf_cons, List.foldl_append, heed]
    cases q.event? <;> rfl

/-- Quiet requests leave a ledger as it is. -/
theorem Ledger.heed_of_isQuiet (ledger : Ledger) {q : Request} (hq : q.isQuiet = true) :
    ledger.heed q = ledger := by
  rw [heed]
  cases hevent : q.event? with
  | none => rfl
  | some e =>
    obtain ⟨_, _, rfl⟩ | ⟨_, _, rfl⟩ := Request.event_of_isQuiet hq hevent
    · cases ledger <;> rfl
    · cases ledger <;> rfl

namespace Fills

variable {row : List Request} {entries : List Entry} {scopes : List (List Entry)}
  {reports : List Entry → Log}

/-- The requests of a tree add their entries to the innermost scope, and leave no other open. -/
theorem after (h : Fills row entries scopes reports) (own : List Entry) (rest : Ledger) :
    row.foldl Ledger.heed (own :: rest) = (own ++ entries) :: rest := by
  induction h generalizing own rest with
  | nil => rw [List.append_nil, List.foldl_nil]
  | quiet hq =>
    rw [List.append_nil]
    exact Ledger.heed_of_isQuiet _ hq
  | entered hq =>
    rw [List.foldl_cons, List.foldl_nil, Ledger.heed, hq]
    rfl
  | append _ _ ih ih' => rw [List.foldl_append, ih, ih', List.append_assoc]
  | @bracketed row entries _ _ _ ih =>
    -- the entries go with the scope that is closed
    have hinside : (row ++ [Request.pop]).foldl Ledger.heed ([] :: own :: rest) = own :: rest := by
      rw [List.foldl_append, ih]
      rfl
    rw [List.append_nil]
    exact hinside

/-- What there is to report about the events of a tree is what the tree says. -/
theorem remarks (h : Fills row entries scopes reports) (own : List Entry) (rest : Ledger) :
    Ledger.remarks (own :: rest) (eventsOf row) = reports own := by
  induction h generalizing own rest with
  | nil => rfl
  | @quiet q hq =>
    rw [eventsOf_singleton]
    cases hevent : q.event? with
    | none => rfl
    | some e =>
      obtain ⟨_, _, rfl⟩ | ⟨_, _, rfl⟩ := Request.event_of_isQuiet hq hevent
      · rfl
      · rfl
  | entered hq =>
    rw [eventsOf_singleton, hq]
    rfl
  | append h _ ih ih' =>
    rw [eventsOf_append, Ledger.remarks_append, ← Ledger.foldl_heed, h.after, ih, ih']
  | @bracketed row _ _ reports h ih =>
    rw [eventsOf_bracketed]
    -- inside, the reports are those on an empty scope
    show Ledger.remarks ([] :: own :: rest) (eventsOf row ++ [.closed]) = reports []
    rw [Ledger.remarks_append, ih, ← Ledger.foldl_heed, h.after]
    exact List.append_nil _

end Fills

/-! ### The checker and its ledger -/

/-- What a log says about names that are taken. -/
def Log.redeclarations (log : Log) : Log :=
  log.filter fun d => d.cause.taken?.isSome

namespace Checker

variable {c : Checker} {ledger : Ledger} {own : List Entry} {rest : Ledger}

/-- The innermost scopes agree with the ledger. There may be others further out. -/
def Keeps (c : Checker) (ledger : Ledger) : Prop :=
  List.Forall₂ (fun own s => s.Settles own) ledger (c.table.scopes.take ledger.length)

/-- The innermost scope agrees with the first row of the ledger. -/
theorem Keeps.exists_scope (h : c.Keeps (own :: rest)) :
    ∃ s outer, c.table = ⟨s :: outer⟩ ∧ s.Settles own ∧ Keeps ⟨⟨outer⟩, c.log⟩ rest := by
  obtain ⟨⟨scopes⟩, log⟩ := c
  cases scopes with
  | nil => cases h
  | cons s outer =>
    cases h with
    | cons hs houter => exact ⟨s, outer, rfl, hs, houter⟩

/-- A first value or a first reading keeps the scopes in agreement with the ledger. -/
theorem Keeps.of_ages {c' : Checker} (h : c.Keeps ledger) (hages : c.table.Ages c'.table) :
    c'.Keeps ledger :=
  forall₂_trans h (List.forall₂_take ledger.length hages) fun _ _ _ => Scope.Settles.of_ages

/-- An event keeps the scopes in agreement with the ledger. -/
theorem Keeps.handle (h : c.Keeps ledger) (e : Event) : (c.handle e).Keeps (ledger.after e) := by
  cases e with
  | opened => exact .cons .empty h
  | stored name line => exact h.of_ages (ages_write name line)
  | read name line => exact h.of_ages (ages_checkUse name line)
  | closed =>
    match ledger with
    | [] => exact .nil
    | own :: rest =>
      obtain ⟨s, outer, htable, _, houter⟩ := h.exists_scope
      show (c.pop).Keeps rest
      rw [Keeps, pop, Table.pop, htable]
      exact houter
  | entered e =>
    match ledger with
    | [] => exact .nil
    | own :: rest =>
      obtain ⟨s, outer, htable, hs, houter⟩ := h.exists_scope
      -- only the innermost scope settles anew
      obtain ⟨s', htable', hs', _⟩ := settles_enter htable hs e
      show (c.enter e).Keeps ((own ++ [e]) :: rest)
      rw [Keeps, htable']
      exact .cons hs' houter

/-- A report on something else adds none on names that are taken. -/
theorem redeclarations_report {cause : Cause} (h : cause.taken? = none) (line : Nat) :
    (c.report cause line).log.redeclarations = c.log.redeclarations := by
  simp [report, reportAll, Log.redeclarations, h]

/-- What an event adds to the reports on names that are taken is what the ledger says. -/
theorem Keeps.redeclarations_handle (h : c.Keeps (own :: rest)) (e : Event) :
    (c.handle e).log.redeclarations
      = c.log.redeclarations ++ (Ledger.remark? (own :: rest) e).toList := by
  cases e with
  | opened | closed => exact (List.append_nil _).symm
  | stored name line =>
    show (c.write name line).log.redeclarations = c.log.redeclarations ++ []
    rw [write, List.append_nil]
    split
    · exact redeclarations_report rfl line
    · rfl
  | read name line =>
    show (c.checkUse name line).2.log.redeclarations = c.log.redeclarations ++ []
    rw [checkUse, List.append_nil]
    split
    · exact redeclarations_report rfl line
    · split
      · rfl
      · exact redeclarations_report rfl line
  | entered e =>
    obtain ⟨s, outer, htable, hs, _⟩ := h.exists_scope
    -- the scope refuses exactly what its entries refuse
    obtain ⟨_, _, _, hlog⟩ := settles_enter htable hs e
    show (c.enter e).log.redeclarations = c.log.redeclarations ++ (refusal? own e).toList
    rw [hlog, Log.redeclarations, Log.redeclarations, List.filter_append]
    refine congrArg _ ?_
    cases hrefusal : refusal? own e with
    | none => rfl
    | some d =>
      rw [eq_refused_of_refusal? hrefusal]
      simp [e.taken?_refused]

/-- So does a row of events. -/
theorem Keeps.foldl (h : c.Keeps ledger) (row : List Event) :
    (row.foldl Checker.handle c).Keeps (row.foldl Ledger.after ledger) := by
  induction row generalizing c ledger with
  | nil => exact h
  | cons e more ih => exact ih (h.handle e)

/-- Along a row of events that leaves the outermost of the scopes open, the reports on names
that are taken are those of the ledger. -/
theorem Keeps.redeclarations_foldl {row : List Event} {k m : Nat} (h : c.Keeps ledger)
    (hlen : ledger.length = k + 1) (hrow : level k row = some m) :
    (row.foldl Checker.handle c).log.redeclarations
      = c.log.redeclarations ++ ledger.remarks row := by
  induction row generalizing c ledger k with
  | nil => exact (List.append_nil _).symm
  | cons e more ih =>
    rw [level_cons] at hrow
    obtain ⟨n, he, hmore⟩ := Option.bind_eq_some_iff.mp hrow
    obtain ⟨own, rest, rfl⟩ := List.exists_cons_of_length_eq_add_one hlen
    rw [List.foldl_cons, ih (h.handle e) (Ledger.length_after hlen he) hmore,
      h.redeclarations_handle e, List.append_assoc]
    rfl

/-- What is said about types is not about names that are taken. -/
theorem redeclarations_untyped (c : Checker) :
    c.untyped.log.redeclarations = c.log.redeclarations := by
  rw [untyped, Log.redeclarations, Log.redeclarations, List.filter_filter]
  refine List.filter_congr fun d _ => ?_
  cases d.cause <;> rfl

/-- Nor is what is said about variables that are never read. -/
theorem redeclarations_checkUnused (c : Checker) :
    c.checkUnused.log.redeclarations = c.log.redeclarations := by
  have hnone : Log.redeclarations (c.table.symbols.filterMap unused?) = [] := by
    rw [Log.redeclarations, List.filter_eq_nil_iff]
    intro d hd
    obtain ⟨x, _, hx⟩ := List.mem_filterMap.mp hd
    cases x with
    | function => cases hx
    | var v =>
      obtain ⟨_, rfl⟩ : v.used = false ∧ ⟨.unused v.name, v.line⟩ = d := by
        simpa [unused?] using hx
      exact Bool.false_ne_true
  show Log.redeclarations (c.log ++ c.table.symbols.filterMap unused?) = _
  rw [Log.redeclarations, List.filter_append]
  exact (congrArg _ hnone).trans (List.append_nil _)

end Checker

/-! ### The analysis -/

/-- What has been entered into the scope that a statement opens, and the analysis right before
that scope is closed. -/
def Stmt.inner? (a : Analysis) : Stmt → Option (List Entry × Analysis)
  | .ifThen condition body _ =>
    some (body.entries, Analysis.stmt body (Analysis.typedExpr condition a.visit.countIf.push))
  | .ifElse condition onTrue onFalse _ =>
    some (onTrue.entries ++ onFalse.entries, Analysis.stmt onFalse
      (Analysis.stmt onTrue (Analysis.typedExpr condition a.visit.countIf.push)))
  | .whileLoop condition body _ =>
    some (body.entries, Analysis.stmt body (Analysis.typedExpr condition a.visit.countWhile.push))
  | .forLoop init condition step body _ =>
    some (ForInit.entries init ++ body.entries, Analysis.stmt body (Analysis.forStep step
      (Analysis.optionalExpr condition (Analysis.forInit init a.visit.countFor.push))))
  | .function s body _ =>
    some (s.parameterEntries ++ entriesAll body,
      Analysis.stmts body (Analysis.parameters s a.visit.countFunction.push))
  | .block _ _ | .declaration _ | .assignment _ | .prototype _ | .result _ _ => none

/-- What is left of a statement when its scope is closed: a function is declared. -/
def Stmt.conclude : Stmt → Analysis → Analysis
  | .function s _ _, a => Analysis.signature s true a
  | _, a => a

/-- A statement with a scope of its own closes it in the end, and a function is declared after
that. -/
theorem Stmt.stmt_eq_conclude {s : Stmt} {a b : Analysis} {own : List Entry}
    (h : s.inner? a = some (own, b)) : Analysis.stmt s a = s.conclude b.pop := by
  cases s with
  | ifThen | ifElse | whileLoop | forLoop | function =>
    cases h
    rfl
  | block | declaration | assignment | prototype | result => cases h

/-- What has been entered since a scope was opened is what it holds. -/
theorem Analysis.Passes.settles {a b : Analysis} {row : List Request} {trees : List Node}
    {own : List Entry} {scopes : List (List Entry)} {reports : List Entry → Log}
    (h : a.push.Passes b row trees) (hfills : Fills row own scopes reports) :
    ∃ s, b.table.innermost? = some s ∧ s.Settles own := by
  have hopened : a.push.toChecker.untyped.Keeps [[]] := .cons .empty .nil
  have hkeeps := hopened.foldl (eventsOf row)
  rw [← Ledger.foldl_heed, hfills.after, List.nil_append, ← h.untyped_eq hfills] at hkeeps
  obtain ⟨s, outer, htable, hs, _⟩ := hkeeps.exists_scope
  refine ⟨s, ?_, hs⟩
  show b.toChecker.untyped.table.innermost? = some s
  rw [htable]
  rfl

/-- A scope that a statement opens ends with what has been entered into it. -/
theorem Stmt.settles_inner? {s : Stmt} {a b : Analysis} {own : List Entry}
    (h : s.inner? a = some (own, b)) :
    ∃ scope, b.table.innermost? = some scope ∧ scope.Settles own := by
  open Analysis in
  -- conditions and steps enter nothing, so only declarations and bodies fill the scope
  cases s with
  | ifThen condition body line =>
    cases h
    exact ((passes_typedExpr condition _).trans (passes_stmt body _)).settles
      (.quiet_append condition.isQuiet_typedRequests body.fills)
  | whileLoop condition body line =>
    cases h
    exact ((passes_typedExpr condition _).trans (passes_stmt body _)).settles
      (.quiet_append condition.isQuiet_typedRequests body.fills)
  | ifElse condition onTrue onFalse line =>
    cases h
    exact ((passes_typedExpr condition _).trans
      ((passes_stmt onTrue _).trans (passes_stmt onFalse _))).settles
      (.quiet_append condition.isQuiet_typedRequests (onTrue.fills.append onFalse.fills))
  | forLoop init condition step body line =>
    cases h
    exact ((passes_forInit init _).trans ((passes_optionalExpr condition _).trans
      ((passes_forStep step _).trans (passes_stmt body _)))).settles
      ((ForInit.fills init).append (.quiet_append (isQuiet_optionalRequests condition)
        (.quiet_append (ForStep.isQuiet_requests step) body.fills)))
  | function s body line =>
    cases h
    exact ((passes_parameters s _).trans (passes_stmts body _)).settles
      (s.fills_parameters.append (fills_all body))
  | block | declaration | assignment | prototype | result => cases h

/-- At the start nothing has been entered. -/
theorem Checker.keeps_initial : Checker.initial.Keeps [[]] :=
  .cons .empty .nil

/-- The reports of the analysis on names that are taken, in order. -/
theorem Program.redeclarations_eq (p : Program) :
    p.analyze.log.redeclarations = redeclarationsAll [] p.body := by
  have hlevel : level 0 p.events = some 0 := p.balanced 0
  calc p.analyze.log.redeclarations
      = (Analysis.stmts p.body Analysis.initial).log.redeclarations :=
        Checker.redeclarations_checkUnused _
    _ = (Analysis.stmts p.body Analysis.initial).toChecker.untyped.log.redeclarations :=
        (Checker.redeclarations_untyped _).symm
    _ = Ledger.remarks [[]] p.events := by
        rw [untyped_stmts, Checker.keeps_initial.redeclarations_foldl rfl hlevel]
        rfl
    _ = redeclarationsAll [] p.body := by
        rw [p.events_eq]
        exact (fills_all p.body).remarks [] []

/-- The outermost scope ends with what has been entered into it. -/
theorem Program.settles_analyze (p : Program) :
    ∃ s, p.analyze.table.scopes = [s] ∧ s.Settles (entriesAll p.body) := by
  have hkeeps := Checker.keeps_initial.foldl p.events
  have hledger : p.events.foldl Ledger.after [[]] = [entriesAll p.body] := by
    rw [p.events_eq, ← Ledger.foldl_heed]
    exact (fills_all p.body).after [] []
  rw [hledger] at hkeeps
  obtain ⟨s, outer, hscopes, hs, _⟩ := hkeeps.exists_scope
  have hdepth : (p.events.foldl Checker.handle Checker.initial).table.depth = 1 :=
    (Checker.grows_of_balanced (c := Checker.initial) p.balanced (List.cons_ne_nil _ _)).depth_eq
  rw [p.table_analyze, hscopes]
  rw [hscopes] at hdepth
  obtain rfl : outer = [] := List.length_eq_zero_iff.mp (Nat.succ.inj hdepth)
  exact ⟨s, rfl, hs⟩

/-- The analysis reports that a name is taken for exactly the entries that are refused: a variable
or parameter whose name is bound in its scope, and a function whose name is bound there to
anything but a prototype of the same return type. So no scope admits two definitions of a name,
and of the variables and parameters of a name that no function has, all but one are reported.
Every scope ends with one symbol for each name, in the order of first entry, and a prototype that
has been completed is the definition in its place. -/
theorem redeclarations_analyze :
    (∀ p : Program,
      p.analyze.log.redeclarations = redeclarationsAll [] p.body ∧
      p.analyze.log.redeclarations.Perm (p.scopes.flatMap (refusals [])) ∧
      (∀ entries ∈ p.scopes, ∀ x,
        ((admitted [] entries).filter (Entry.defines x)).length ≤ 1 ∧
        ((∀ e ∈ entries, e.name = x → e.isFunction = false) →
          refusalCount [] entries x = (entries.countP fun e => e.name = x) - 1)) ∧
      ∃ s, p.analyze.table.scopes = [s] ∧ s.Settles (entriesAll p.body)) ∧
    ∀ (s : Stmt) (a b : Analysis) (own : List Entry), s.inner? a = some (own, b) →
      Analysis.stmt s a = s.conclude b.pop ∧
        ∃ scope, b.table.innermost? = some scope ∧ scope.Settles own := by
  refine ⟨fun p => ⟨p.redeclarations_eq, ?_, fun entries _ x => ⟨?_, fun hvars => ?_⟩,
    p.settles_analyze⟩, fun s a b own h => ⟨s.stmt_eq_conclude h, s.settles_inner? h⟩⟩
  · rw [p.redeclarations_eq]
    exact perm_redeclarationsAll p.body []
  · exact length_defines_admitted_le [] entries x
  · exact refusalCount_of_free hvars rfl

/-- `int f(int m) { double m, m; }`, with the body on the next line. -/
def clashingFunction : Stmt :=
  .function ⟨.int, "f", [⟨.int, "m"⟩], 2⟩ [.declaration ⟨.double, [⟨"m", none⟩, ⟨"m", none⟩], 3⟩] 2

/-- What the function enters into its own scope. -/
def clashingEntries : List Entry :=
  [.parameter ⟨.int, "m"⟩ 2, .var "m" .double 3 false, .var "m" .double 3 false]

/-- The function after its prototype, and before two declarations that come too late:
```
int f();
int f(int m) {
  double m, m; }
double f;
int f() {}
```
-/
def clashingProgram : Program :=
  ⟨[.prototype ⟨.int, "f", [], 1⟩, clashingFunction, .declaration ⟨.double, [⟨"f", none⟩], 4⟩,
    .function ⟨.int, "f", [], 5⟩ [] 5]⟩

/-- Each `m` after the parameter is reported, and so are the variable `f` and the second
definition. The first definition completes the prototype. -/
theorem redeclarations_clashingProgram :
    clashingProgram.analyze.log.redeclarations
      = [⟨.redeclared "m", 3⟩, ⟨.redeclared "m", 3⟩, ⟨.redeclared "f", 4⟩,
        ⟨.functionRedeclared "f", 5⟩] ∧
    clashingEntries ∈ clashingProgram.scopes ∧
    (∀ e ∈ clashingEntries, e.name = "m" → e.isFunction = false) ∧
    refusalCount [] clashingEntries "m" = 2 ∧
    (∃ s, clashingProgram.analyze.table.scopes = [s] ∧
      s.toList = [.function ⟨.int, "f", [⟨.int, "m"⟩], 2⟩ true]) ∧
    ∃ b, clashingFunction.inner? Analysis.initial = some (clashingEntries, b) ∧
      ∃ scope, b.table.innermost? = some scope ∧ scope.Settles clashingEntries := by
  obtain ⟨hreports, _, hcounts, s, hs, hsettles⟩ := redeclarations_analyze.1 clashingProgram
  have hentries : clashingEntries ∈ clashingProgram.scopes := by decide
  have hvars : ∀ e ∈ clashingEntries, e.name = "m" → e.isFunction = false := by decide
  refine ⟨hreports.trans (by decide), hentries, hvars,
    (hcounts clashingEntries hentries "m").2 hvars, ⟨s, hs, ?_⟩, _, rfl,
    (redeclarations_analyze.2 clashingFunction Analysis.initial _ _ rfl).2⟩
  -- one name, and it is bound to the definition
  have hnames : s.toList.map Symbol.name = ["f"] := hsettles.names
  obtain ⟨y, hy, hname⟩ := List.map_eq_singleton_iff.mp hnames
  obtain ⟨e, he, hages⟩ := hsettles.bound y (by simp [hy])
  have hbound : boundIn? (entriesAll clashingProgram.body) "f"
      = some (.function ⟨.int, "f", [⟨.int, "m"⟩], 2⟩ true) := by decide
  rw [hname] at he
  cases hbound.symm.trans he
  cases hages
  exact hy

end Tercet
