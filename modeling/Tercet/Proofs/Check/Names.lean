import Tercet.Proofs.Check.Walk

/-!
# `Tercet.Proofs.Check.Names`: what is reported about the use of names

A name may be read or stored into only while something of that name is in force, and read only
once it has a value. The two results say that the analysis reports exactly the breaches of
these rules, each at its own line and in the order of the program: `undeclared_analyze` for
names that stand for nothing and `uninitialized_analyze` for variables without a value. What
is in force and what has a value is said by the events that come before the use (`Visible` and
`Unset`), without a table.

The tables of the analysis come in through one invariant, `Checker.Follows`: the table has one
scope for each that is open, and its answers reflect the history. Each event keeps it
(`Follows.handle`), and under it the log grows by what the rules say (`Follows.uses_handle`).
-/

set_option autoImplicit false

namespace Tercet

/-! ### The rules -/

namespace History

/-- What a rule says of the events of a row, in order; it sees what has happened before each. -/
def remarks {α : Type} (rule : List Event → Event → Option α) (before : List Event) :
    List Event → List α
  | [] => []
  | e :: more => (rule before e).toList ++ remarks rule (before ++ [e]) more

end History

open History

/-- The line and the name of a use of a name that stands for nothing. -/
def strayUse? (before : List Event) : Event → Option (Nat × String)
  | .read name line | .stored name line =>
    if Visible before name then none else some (line, name)
  | _ => none

/-- The line and the name of a reading of a variable that has no value. -/
def earlyReading? (before : List Event) : Event → Option (Nat × String)
  | .read name line => if Unset before name then some (line, name) else none
  | _ => none

/-- The line and the name of a complaint about a name that stands for nothing. -/
def Diagnostic.undeclared? (d : Diagnostic) : Option (Nat × String) :=
  match d.cause with
  | .undeclared name => some (d.line, name)
  | _ => none

/-- The line and the name of a complaint about a variable that has no value. -/
def Diagnostic.uninitialized? (d : Diagnostic) : Option (Nat × String) :=
  match d.cause with
  | .uninitialized name => some (d.line, name)
  | _ => none

/-- What both rules have to say about an event. -/
def useRemark? (before : List Event) : Event → Option Diagnostic
  | .read name line =>
    if Visible before name then
      if Unset before name then some ⟨.uninitialized name, line⟩ else none
    else some ⟨.undeclared name, line⟩
  | .stored name line =>
    if Visible before name then none else some ⟨.undeclared name, line⟩
  | _ => none

/-- Whether the cause is a use of a name that breaks one of the rules. -/
def Cause.isUse : Cause → Bool
  | .undeclared _ | .uninitialized _ => true
  | _ => false

/-- What a log says about the use of names. -/
def Log.uses (log : Log) : Log :=
  log.filter fun d => d.cause.isUse

namespace History

/-- A choice among the remarks of a rule is a rule as well. -/
theorem filterMap_remarks {α β : Type} (f : α → Option β) (rule : List Event → Event → Option α)
    (before row : List Event) :
    (remarks rule before row).filterMap f
      = remarks (fun before e => (rule before e).bind f) before row := by
  induction row generalizing before with
  | nil => rfl
  | cons e more ih =>
    rw [remarks, remarks, List.filterMap_append, ih]
    cases rule before e with
    | none => rfl
    | some a => cases hf : f a <;> simp [hf]

variable {h : List Event} {x : String}

/-- If no scope around a row is closed in it, none is closed in its first part. -/
theorem isSome_inside_of_append {row more : List Event}
    (hopen : (inside (row ++ more)).isSome = true) : (inside row).isSome = true := by
  induction more generalizing row with
  | nil => rwa [List.append_nil] at hopen
  | cons e more ih =>
    rw [List.append_cons] at hopen
    have hlonger := ih hopen
    rw [inside_append_singleton] at hlonger
    cases hrow : inside row with
    | none =>
      rw [hrow] at hlonger
      cases hlonger
    | some k => rfl

/-- A name that is unset is visible. -/
theorem Unset.visible (hu : Unset h x) : Visible h x := by
  obtain ⟨i, hd, _⟩ := unset_iff.mp hu
  obtain ⟨k, he, _⟩ := denotes_iff.mp hd
  exact visible_iff.mpr ⟨i, k, he⟩

end History

/-- What is not about the use of names is not about a name that stands for nothing. -/
theorem Diagnostic.undeclared?_eq_none {d : Diagnostic} (hd : d.cause.isUse = false) :
    d.undeclared? = none := by
  obtain ⟨cause, line⟩ := d
  cases cause with
  | undeclared => cases hd
  | _ => rfl

/-- Nor is it about a variable that has no value. -/
theorem Diagnostic.uninitialized?_eq_none {d : Diagnostic} (hd : d.cause.isUse = false) :
    d.uninitialized? = none := by
  obtain ⟨cause, line⟩ := d
  cases cause with
  | uninitialized => cases hd
  | _ => rfl

/-- Of what both rules say, one part is what the first of them says. -/
theorem useRemark?_bind_undeclared? (before : List Event) (e : Event) :
    (useRemark? before e).bind Diagnostic.undeclared? = strayUse? before e := by
  cases e with
  | read name line =>
    by_cases hv : Visible before name
    · by_cases hu : Unset before name <;>
        simp [useRemark?, strayUse?, Diagnostic.undeclared?, hv, hu]
    · simp [useRemark?, strayUse?, Diagnostic.undeclared?, hv]
  | stored name line =>
    by_cases hv : Visible before name <;>
      simp [useRemark?, strayUse?, Diagnostic.undeclared?, hv]
  | opened | closed | entered => rfl

/-- The other part is what the second says. -/
theorem useRemark?_bind_uninitialized? (before : List Event) (e : Event) :
    (useRemark? before e).bind Diagnostic.uninitialized? = earlyReading? before e := by
  cases e with
  | read name line =>
    by_cases hu : Unset before name
    · simp [useRemark?, earlyReading?, Diagnostic.uninitialized?, hu, hu.visible]
    · by_cases hv : Visible before name <;>
        simp [useRemark?, earlyReading?, Diagnostic.uninitialized?, hv, hu]
  | stored name line =>
    by_cases hv : Visible before name <;>
      simp [useRemark?, earlyReading?, Diagnostic.uninitialized?, hv]
  | opened | closed | entered => rfl

/-! ### Tables that follow the history -/

/-- Whether what a name stands for at a level has a value. -/
def Table.readiness (t : Table) (k : Nat) (x : String) : Option Bool :=
  (t.at? k x).map Symbol.isInitialized

/-- The symbol of an entry has its name. -/
theorem Entry.name_symbol (entry : Entry) : entry.symbol.name = entry.name := by
  cases entry <;> rfl

/-- The symbol of an entry has a value unless the entry is bare. -/
theorem Entry.isInitialized_symbol (entry : Entry) :
    entry.symbol.isInitialized = !entry.isBare := by
  cases entry with
  | var name type line valued => cases valued <;> rfl
  | parameter | function => rfl

/-- A reading gives no value. -/
theorem Symbol.isInitialized_markUsed (y : Symbol) :
    y.markUsed.isInitialized = y.isInitialized := by
  cases y <;> rfl

/-- A store gives a value to any symbol. -/
theorem Symbol.isInitialized_store (y : Symbol) (line : Nat) :
    (y.store line).isInitialized = true := by
  cases y with
  | var v => simp [store, isInitialized, Variable.store]
  | function => rfl

namespace Table

variable {t : Table} {x : String}

/-- So what is ready stays as it is when a name is read. -/
theorem readiness_markUsed {k : Nat} (hk : t.ResolvesAt x k) :
    (t.markUsed x).readiness = t.readiness := by
  funext m z
  rw [readiness, readiness, at?_markUsed hk]
  split
  · rw [Option.map_map]
    exact congrArg (Option.map · _) (funext Symbol.isInitialized_markUsed)
  · rfl

/-- A store makes ready what its name stands for, and nothing else. -/
theorem readiness_store {k : Nat} (hk : t.ResolvesAt x k) (line m : Nat) (z : String) :
    (t.store x line).readiness m z = if m = k ∧ z = x then some true else t.readiness m z := by
  rw [readiness, at?_store hk]
  split
  · rename_i hmz
    obtain ⟨y, hy⟩ := Option.isSome_iff_exists.mp hk.found
    rw [hmz.1, hmz.2, hy, Option.map_map, Option.map_some]
    exact congrArg some (y.isInitialized_store line)
  · rfl

/-- A symbol may be replaced by one that has a value as well. -/
theorem readiness_replace? {t' : Table} {y old : Symbol} (htaken : t.at? 0 y.name = some old)
    (hready : y.isInitialized = old.isInitialized)
    (ht : t.modifyInnermost? (fun s => s.replace? y) = some t') :
    t'.readiness = t.readiness := by
  funext k x
  rw [readiness, readiness, at?_modifyInnermost? (fun _ _ hs _ => Scope.get?_replace? hs) ht]
  split
  · rename_i hkx
    rw [hkx.1, hkx.2, htaken, Option.map_some, Option.map_some, hready]
  · rfl

end Table

namespace Checker

/-- The table has a scope for each that is open, and its answers reflect the history. -/
structure Follows (c : Checker) (h : List Event) : Prop where
  depth : (inside h).map (· + 1) = some c.table.depth
  view : Reflects h c.table.readiness

variable {c : Checker} {h : List Event} {e : Event} {entry : Entry} {x : String} {y : Symbol}

/-- At the start nothing has happened, and the table finds nothing. -/
theorem follows_initial : initial.Follows [] where
  depth := rfl
  view := by
    have hview : initial.table.readiness = fun _ _ => none := by
      funext k x
      simp [Table.readiness, initial]
    rw [hview]
    exact Reflects.nil

/-- A table that follows a history has a scope open. -/
theorem Follows.scopes_ne_nil (hc : c.Follows h) : c.table.scopes ≠ [] := by
  intro hnil
  have hdepth := hc.depth
  rw [Table.depth, hnil] at hdepth
  cases hinside : inside h <;> simp [hinside] at hdepth

/-- A name is in force exactly if the table finds it. -/
theorem Follows.visible_iff (hc : c.Follows h) :
    Visible h x ↔ (c.table.resolve? x).isSome = true := by
  rw [hc.view.visible_iff]
  cases hresolve : c.table.resolve? x with
  | none => simp [Table.readiness, Table.at?_eq_none_of_resolve? hresolve]
  | some y =>
    obtain ⟨k, _, hy⟩ := Table.exists_resolvesAt hresolve
    exact ⟨fun _ => rfl, fun _ => ⟨k, by rw [Table.readiness, hy]; rfl⟩⟩

/-- A name is unset exactly if the table finds a symbol without a value. -/
theorem Follows.unset_iff (hc : c.Follows h) (hresolve : c.table.resolve? x = some y) :
    Unset h x ↔ y.isInitialized = false := by
  obtain ⟨k, hk, hy⟩ := Table.exists_resolvesAt hresolve
  refine hc.view.unset_iff (k := k) (by rw [Table.readiness, hy]; rfl) fun m hm => ?_
  rw [Table.readiness, hk.first m hm]
  rfl

/-- A report counts as one on the use of names if its cause does. -/
theorem uses_report (c : Checker) (cause : Cause) (line : Nat) :
    (c.report cause line).log.uses
      = c.log.uses ++ if cause.isUse then [⟨cause, line⟩] else [] := by
  cases hcause : cause.isUse <;> simp [report, reportAll, Log.uses, hcause]

/-- A name that is free in the innermost scope is declared there. -/
theorem enter_of_free (hne : c.table.scopes ≠ []) (hfree : c.table.at? 0 entry.name = none) :
    ∃ t, c.table.declare? entry.symbol = some t ∧ c.enter entry = ⟨t, c.log⟩ := by
  obtain ⟨t, ht⟩ := Table.exists_declare? hne (entry.name_symbol ▸ hfree)
  rw [← Table.lookup?_eq_at?] at hfree
  exact ⟨t, ht, by simp only [enter, hfree, declare, ht]⟩

/-- A name that is taken in the innermost scope is refused, or it is a function whose
definition takes the place of its prototype. Either way nothing changes in what has a value. -/
theorem enter_of_taken (htaken : c.table.at? 0 entry.name = some y) :
    (c.enter entry).table.readiness = c.table.readiness ∧
      (c.enter entry).table.depth = c.table.depth ∧
      (c.enter entry).log.uses = c.log.uses := by
  have hlookup := Table.lookup?_eq_at?.trans htaken
  cases entry with
  | var | parameter =>
    simp only [enter, hlookup]
    exact ⟨rfl, rfl, by simp [uses_report, Cause.isUse]⟩
  | function s defined =>
    simp only [Entry.name] at hlookup htaken
    simp only [enter, Entry.name, hlookup, declareFunction]
    split
    -- only a function is completed, and that has a value before and after
    · rename_i hcompletes
      have hready : (Symbol.function s true).isInitialized = y.isInitialized := by
        cases y with
        | function => rfl
        | var => cases hcompletes
      split
      · have htaken' : c.table.at? 0 (Symbol.function s true).name = some y := htaken
        obtain ⟨t, ht⟩ := Table.exists_replace? (by rw [htaken']; rfl)
        simp only [ht, and_true]
        exact ⟨Table.readiness_replace? htaken' hready ht, Table.depth_modifyInnermost? ht⟩
      · exact ⟨rfl, rfl, rfl⟩
    · exact ⟨rfl, rfl, by simp [uses_report, Cause.isUse]⟩

/-- Events that neither open nor close a scope leave the depth. -/
theorem Follows.depth_append (hc : c.Follows h) (he : ∀ n, e.shift n = some n) :
    (inside (h ++ [e])).map (· + 1) = some c.table.depth := by
  rw [inside_append_singleton, funext he, Option.bind_fun_some]
  exact hc.depth

/-- A scope opens in the table as it does in the history. -/
theorem Follows.push (hc : c.Follows h) : c.push.Follows (h ++ [.opened]) where
  depth := by
    obtain ⟨n, hn, hdepth⟩ := Option.map_eq_some_iff.mp hc.depth
    rw [inside_append_singleton, hn]
    exact congrArg (fun d => some (d + 1)) hdepth
  view := hc.view.opened (fun x => by simp [Table.readiness, Checker.push]) fun _ _ => rfl

/-- A scope closes in the table as it does in the history, unless it is the outermost. -/
theorem Follows.pop (hc : c.Follows h) (hopen : (inside (h ++ [.closed])).isSome = true) :
    c.pop.Follows (h ++ [.closed]) where
  depth := by
    obtain ⟨n, hn, hdepth⟩ := Option.map_eq_some_iff.mp hc.depth
    rw [inside_append_singleton, hn] at hopen ⊢
    have htail : c.pop.table.depth = c.table.depth - 1 := List.length_tail
    cases n with
    -- this would close the outermost scope
    | zero => cases hopen
    | succ n =>
      rw [htail, ← hdepth]
      rfl
  view := hc.view.closed fun k x => by simp [Table.readiness, Checker.pop]

/-- An entry of a free name is declared, and one of a name that is taken changes nothing that
matters here. -/
theorem Follows.enter (hc : c.Follows h) (entry : Entry) :
    (c.enter entry).Follows (h ++ [.entered entry]) := by
  have hdepth := hc.depth_append (e := .entered entry) fun _ => rfl
  cases hat : c.table.at? 0 entry.name with
  | none =>
    obtain ⟨t, ht, henter⟩ := enter_of_free hc.scopes_ne_nil hat
    rw [henter]
    refine ⟨?_, hc.view.entered_of_free (by rw [Table.readiness, hat]; rfl) fun k x => ?_⟩
    · rw [Table.depth_modifyInnermost? ht]
      exact hdepth
    · rw [Table.readiness, Table.at?_declare? ht, entry.name_symbol]
      split
      · rw [Option.map_some, entry.isInitialized_symbol]
      · rfl
  | some y =>
    -- a prototype may get its body, but all names stay and are as ready as before
    obtain ⟨hview, hsame, _⟩ := enter_of_taken hat
    refine ⟨?_, ?_⟩
    · rw [hsame]
      exact hdepth
    · rw [hview]
      exact hc.view.entered_of_taken (by rw [Table.readiness, hat]; rfl)

/-- A store gives a value to what the table finds, which is what the name stands for. -/
theorem Follows.write (hc : c.Follows h) (x : String) (line : Nat) :
    (c.write x line).Follows (h ++ [.stored x line]) := by
  have hdepth := hc.depth_append (e := .stored x line) fun _ => rfl
  cases hresolve : c.table.resolve? x with
  | none =>
    simp only [Checker.write, hresolve]
    refine ⟨hdepth, hc.view.stored_of_none (fun k => ?_) line⟩
    rw [Table.readiness, Table.at?_eq_none_of_resolve? hresolve]
    rfl
  | some y =>
    simp only [Checker.write, hresolve]
    -- the table finds the name first at this level
    obtain ⟨k, hk, hy⟩ := Table.exists_resolvesAt hresolve
    refine ⟨?_, hc.view.stored_of_found (k := k) ?_ (fun m hm => ?_) line
      (Table.readiness_store hk line)⟩
    · rw [Table.depth_store hk]
      exact hdepth
    · rw [Table.readiness, hy]
      rfl
    · rw [Table.readiness, hk.first m hm]
      rfl

/-- A reading leaves the values as they are, whatever is found. -/
theorem Follows.checkUse (hc : c.Follows h) (x : String) (line : Nat) :
    (c.checkUse x line).2.Follows (h ++ [.read x line]) := by
  have hdepth := hc.depth_append (e := .read x line) fun _ => rfl
  have hview := hc.view.read x line
  cases hresolve : c.table.resolve? x with
  | none =>
    simp only [Checker.checkUse, hresolve]
    exact ⟨hdepth, hview⟩
  | some y =>
    simp only [Checker.checkUse, hresolve]
    obtain ⟨k, hk, _⟩ := Table.exists_resolvesAt hresolve
    split
    · refine ⟨?_, ?_⟩
      · rw [Table.depth_markUsed hk]
        exact hdepth
      · rw [Table.readiness_markUsed hk]
        exact hview
    · exact ⟨hdepth, hview⟩

/-- An event keeps the table in step with the history, as long as it leaves a scope open. -/
theorem Follows.handle (hc : c.Follows h) (hopen : (inside (h ++ [e])).isSome = true) :
    (c.handle e).Follows (h ++ [e]) := by
  cases e with
  | opened => exact hc.push
  | closed => exact hc.pop hopen
  | entered entry => exact hc.enter entry
  | stored x line => exact hc.write x line
  | read x line => exact hc.checkUse x line

/-- An event adds to the log what the rules say of it. -/
theorem Follows.uses_handle (hc : c.Follows h) (e : Event) :
    (c.handle e).log.uses = c.log.uses ++ (useRemark? h e).toList := by
  cases e with
  | opened | closed => exact (List.append_nil _).symm
  | entered entry =>
    simp only [useRemark?, Option.toList_none, List.append_nil, Checker.handle]
    -- an entry may be refused, but that is no report on a use
    cases hat : c.table.at? 0 entry.name with
    | none =>
      obtain ⟨t, _, henter⟩ := enter_of_free hc.scopes_ne_nil hat
      rw [henter]
    | some y => exact (enter_of_taken hat).2.2
  | stored x line =>
    cases hresolve : c.table.resolve? x <;>
      simp [Checker.handle, Checker.write, useRemark?, hc.visible_iff, hresolve, uses_report,
        Cause.isUse]
  | read x line =>
    cases hresolve : c.table.resolve? x with
    | none =>
      simp [Checker.handle, Checker.checkUse, useRemark?, hc.visible_iff, hresolve, uses_report,
        Cause.isUse]
    | some y =>
      cases hy : y.isInitialized <;>
        simp [Checker.handle, Checker.checkUse, useRemark?, hc.visible_iff, hresolve,
          hc.unset_iff hresolve, hy, uses_report, Cause.isUse]

/-- A row of events adds to the log what the rules say of them, as long as a scope is open. -/
theorem Follows.uses_foldl (hc : c.Follows h) {row : List Event}
    (hopen : (inside (h ++ row)).isSome = true) :
    (row.foldl Checker.handle c).log.uses = c.log.uses ++ remarks useRemark? h row := by
  -- the row is taken from its front, so the history grows at its end
  induction row generalizing c h with
  | nil => exact (List.append_nil _).symm
  | cons e more ih =>
    rw [List.append_cons] at hopen
    have hstep := hc.handle (isSome_inside_of_append hopen)
    rw [List.foldl_cons, ih hstep hopen, hc.uses_handle, remarks, List.append_assoc]

/-- What is said about types is not about the use of names. -/
theorem uses_untyped (c : Checker) : c.untyped.log.uses = c.log.uses := by
  rw [Log.uses, untyped, List.filter_filter]
  refine List.filter_congr fun d _ => ?_
  cases d.cause <;> rfl

/-- Nor is what is said about variables that are never read. -/
theorem uses_checkUnused (c : Checker) : c.checkUnused.log.uses = c.log.uses := by
  have hnone : ∀ d ∈ c.table.symbols.filterMap unused?, d.cause.isUse = false := by
    intro d hd
    obtain ⟨y, _, hy⟩ := List.mem_filterMap.mp hd
    cases y with
    | function => cases hy
    | var v =>
      rw [unused?] at hy
      split at hy
      · cases hy
      · cases hy
        rfl
  have hnil : Log.uses (c.table.symbols.filterMap unused?) = [] :=
    List.filter_eq_nil_iff.mpr fun d hd => by simp [hnone d hd]
  calc c.checkUnused.log.uses = c.log.uses ++ Log.uses (c.table.symbols.filterMap unused?) :=
        List.filter_append _ _
    _ = c.log.uses := by rw [hnil, List.append_nil]

end Checker

/-- The complaints about the use of names are what the rules say of the program. -/
theorem uses_analyze (p : Program) : p.analyze.log.uses = remarks useRemark? [] p.events := by
  have hopen : (inside ([] ++ p.events)).isSome = true := by
    rw [List.nil_append, p.balanced.inside_eq]
    rfl
  calc p.analyze.log.uses
      = (Analysis.stmts p.body Analysis.initial).toChecker.log.uses := Checker.uses_checkUnused _
    _ = (p.events.foldl Checker.handle Checker.initial).log.uses := by
      rw [← Checker.uses_untyped, untyped_stmts]
    _ = remarks useRemark? [] p.events := Checker.follows_initial.uses_foldl hopen

/-- A choice among the complaints about the use of names is one among what the rules say. -/
theorem filterMap_analyze (p : Program) {f : Diagnostic → Option (Nat × String)}
    (hf : ∀ d, d.cause.isUse = false → f d = none) :
    p.analyze.log.filterMap f
      = remarks (fun before e => (useRemark? before e).bind f) [] p.events := by
  have hsame : (fun d => if d.cause.isUse then f d else none) = f := by
    funext d
    cases hd : d.cause.isUse with
    | true => rfl
    | false => exact (hf d hd).symm
  rw [← filterMap_remarks, ← uses_analyze, Log.uses, List.filterMap_filter, hsame]

/-- A use of a name is reported as undeclared exactly if nothing of that name has been entered
before it in a scope that is still open. The reports have the lines of the uses and stand in
the order of the program. -/
theorem undeclared_analyze (p : Program) :
    p.analyze.log.filterMap Diagnostic.undeclared? = remarks strayUse? [] p.events := by
  rw [filterMap_analyze p fun _ => Diagnostic.undeclared?_eq_none]
  simp only [useRemark?_bind_undeclared?]

/-- A reading of a name is reported as premature exactly if the name stands for a variable that
was entered without a value and into which nothing has been stored since. The reports have the
lines of the readings and stand in the order of the program. -/
theorem uninitialized_analyze (p : Program) :
    p.analyze.log.filterMap Diagnostic.uninitialized? = remarks earlyReading? [] p.events := by
  rw [filterMap_analyze p fun _ => Diagnostic.uninitialized?_eq_none]
  simp only [useRemark?_bind_uninitialized?]

-- the refused second entry gives no value, the store does
example : remarks earlyReading? [] [.entered (.var "x" .int 1 false),
    .entered (.var "x" .int 2 true), .read "x" 3, .stored "x" 4, .read "x" 4] = [(3, "x")] := by
  decide

end Tercet
