import Tercet.Proofs.Check.Walk
import Tercet.Proofs.Symbol.Aging

/-!
# `Tercet.Proofs.Check.Frames`: what a statement can do to the scopes around it

A statement of a program may open scopes, but it closes them all again and closes no other. In
the scopes that were open before it, what is declared stays as it is, up to the first reading
and the first value of a variable. Only the innermost of them can gain symbols, at its end, and
have prototypes completed; a branch or a loop, which has a scope of its own, does not even do
that (`frames_stmt`).

The analysis of a statement is a row of events (`Analysis.Passes.untyped_eq`), so this is shown
for one event and then for rows. Events are read at a level: `k` is the number of scopes that have
been opened and are still open, and what holds at that level is about the scopes below these,
`scopes.drop k`. An event at level 0 may let the innermost of them grow; an event at a higher
level ages them at most; opening and closing a scope changes the level and leaves them alone.
-/

set_option autoImplicit false

namespace Tercet

open History

namespace History

/-- How many scopes are open at the end of a row above one in which it starts at level `k`, that
is, with `k` open. There is no answer if that one is closed on the way. -/
def level (k : Nat) (row : List Event) : Option Nat :=
  row.foldl (fun k e => k.bind e.shift) (some k)

/-- The level after a row is found event by event. -/
theorem level_cons (k : Nat) (e : Event) (more : List Event) :
    level k (e :: more) = (e.shift k).bind fun m => level m more := by
  -- once the scope is closed, it stays closed
  have hnone (row : List Event) :
      row.foldl (fun k e => k.bind e.shift) none = (none : Option Nat) := by
    induction row with
    | nil => rfl
    | cons e more ih => exact ih
  rw [level, List.foldl_cons, Option.bind_some]
  cases e.shift k with
  | none => exact hnone more
  | some m => rfl

/-- Scopes further out change nothing. -/
theorem level_add {k m : Nat} {row : List Event} (h : level k row = some m) (n : Nat) :
    level (k + n) row = some (m + n) := by
  induction row generalizing k with
  | nil =>
    cases h
    rfl
  | cons e more ih =>
    rw [level_cons] at h ⊢
    obtain ⟨j, hj, hmore⟩ := Option.bind_eq_some_iff.mp h
    -- one event shifts both levels alike
    have hshift : e.shift (k + n) = some (j + n) := by
      cases e with
      | opened =>
        cases hj
        exact congrArg some (Nat.add_right_comm k n 1)
      | closed =>
        cases k with
        | zero => cases hj
        | succ k =>
          cases hj
          rw [Nat.succ_add]
          rfl
      | entered | stored | read =>
        cases hj
        rfl
    rw [hshift]
    exact ih hmore

end History

namespace Checker

variable {c : Checker} {k m : Nat}

/-! ### One event -/

/-- A declaration adds a symbol to the innermost scope, or is refused and changes nothing. -/
theorem grows_declare (hne : c.table.scopes ≠ []) (x : Symbol) :
    c.table.Grows (c.declare x).2.table := by
  cases h : c.table.declare? x with
  | none =>
    simp only [declare, h]
    exact .refl hne
  | some t =>
    simp only [declare, h]
    exact Table.grows_declare? h

/-- What a function completes is a prototype of the same return type. -/
theorem matures_of_completes {s : Signature} {old : Symbol} (hname : old.name = s.name)
    (h : completes s old = true) : old.Matures (.function s true) := by
  cases old with
  | var v => cases h
  | function existing defined =>
    simp only [completes, Bool.and_eq_true, Bool.not_eq_true', decide_eq_true_eq] at h
    rw [h.1]
    exact .completed hname.symm h.2.symm

/-- A symbol is found under its own name. -/
theorem name_of_lookup? {t : Table} {x : String} {y : Symbol} (h : t.lookup? x = some y) :
    y.name = x := by
  obtain ⟨s, _, hget⟩ := Option.bind_eq_some_iff.mp h
  exact Scope.name_of_get? hget

/-- A function is declared, or it completes its prototype, or nothing changes. -/
theorem grows_declareFunction (hne : c.table.scopes ≠ []) (s : Signature) (defined : Bool) :
    c.table.Grows (c.declareFunction s defined).2.table := by
  cases hlookup : c.table.lookup? s.name with
  | none =>
    simp only [declareFunction, hlookup]
    exact grows_declare hne _
  | some old =>
    simp only [declareFunction, hlookup]
    by_cases hcompletes : completes s old = true
    · simp only [hcompletes, if_true]
      have hmatures := matures_of_completes (name_of_lookup? hlookup) hcompletes
      cases defined with
      | false => exact .refl hne
      | true =>
        cases hreplace : c.table.modifyInnermost? (·.replace? (.function s true)) with
        | none => exact .refl hne
        | some t => exact Table.grows_replace? (x := .function s true) hlookup hmatures hreplace
    · simp only [hcompletes]
      exact .refl hne

/-- An entry under a free name is a declaration. Under a name that is taken only a function can
change anything. -/
theorem grows_enter (hne : c.table.scopes ≠ []) (entry : Entry) :
    c.table.Grows (c.enter entry).table := by
  cases hlookup : c.table.lookup? entry.name with
  | none =>
    simp only [enter, hlookup]
    exact grows_declare hne _
  | some old =>
    simp only [enter, hlookup]
    cases entry with
    | var | parameter => exact .refl hne
    | function s defined => exact grows_declareFunction hne s defined

/-- A store gives a first value at most. -/
theorem ages_write (name : String) (line : Nat) : c.table.Ages (c.write name line).table := by
  rw [write]
  split
  · exact .refl _
  · exact Table.ages_store _ name line

/-- A use counts as a first reading at most. -/
theorem ages_checkUse (name : String) (line : Nat) :
    c.table.Ages (c.checkUse name line).2.table := by
  rw [checkUse]
  split
  · exact .refl _
  · split
    · exact Table.ages_markUsed _ name
    · exact .refl _

/-- An event leaves the scopes below its level as they are, up to growth. -/
theorem grows_handle {base : Table} {e : Event} (h : base.Grows ⟨c.table.scopes.drop k⟩)
    (he : e.shift k = some m) : base.Grows ⟨(c.handle e).table.scopes.drop m⟩ := by
  -- the scopes below the level are not empty, so neither are all of them
  have hk : k < c.table.depth := by
    have hpos : 0 < (c.table.scopes.drop k).length := h.depth_pos
    rw [List.length_drop] at hpos
    exact Nat.lt_of_sub_pos hpos
  have hne : c.table.scopes ≠ [] := by
    intro hnil
    rw [Table.depth, hnil] at hk
    exact Nat.not_lt_zero k hk
  cases e with
  | opened =>
    cases he
    exact h
  | closed =>
    cases k with
    | zero => cases he
    | succ n =>
      cases he
      show base.Grows ⟨c.table.scopes.tail.drop m⟩
      rw [List.drop_tail]
      exact h
  | entered entry =>
    cases he
    exact h.trans ((grows_enter hne entry).drop hk)
  | stored name line =>
    cases he
    exact h.trans (((ages_write name line).grows hne).drop hk)
  | read name line =>
    cases he
    exact h.trans (((ages_checkUse name line).grows hne).drop hk)

/-! ### Rows of events -/

/-- A row of events leaves the scopes below its level as they are, up to growth. -/
theorem grows_foldl {base : Table} {row : List Event} (h : base.Grows ⟨c.table.scopes.drop k⟩)
    (hrow : level k row = some m) : base.Grows ⟨(row.foldl handle c).table.scopes.drop m⟩ := by
  induction row generalizing c k with
  | nil =>
    cases hrow
    exact h
  | cons e more ih =>
    rw [level_cons] at hrow
    obtain ⟨n, he, hmore⟩ := Option.bind_eq_some_iff.mp hrow
    exact ih (grows_handle h he) hmore

/-- A row that closes what it opens leaves all scopes as they are, up to growth. -/
theorem grows_of_balanced {row : List Event} (hrow : Balanced row) (hne : c.table.scopes ≠ []) :
    c.table.Grows (row.foldl handle c).table :=
  grows_foldl (k := 0) (Table.Grows.refl hne) (hrow 0)

/-- What happens in a scope of its own ages the scopes around it. -/
theorem ages_enclosed {row : List Event} (hrow : Balanced row) :
    c.table.Ages ((enclosed row).foldl handle c).table := by
  have hinside : c.push.table.Grows (row.foldl handle c.push).table :=
    grows_of_balanced hrow (List.cons_ne_nil _ _)
  show c.table.Ages (List.foldl handle (c.handle .opened) (row ++ [.closed])).table
  rw [List.foldl_append]
  show List.Forall₂ Scope.Ages c.table.scopes (row.foldl handle c.push).table.scopes.tail
  -- the scope that was pushed is the one that is popped
  generalize (row.foldl handle c.push).table = t at hinside
  cases hinside with
  | intro _ houter => exact houter

end Checker

/-! ### Statements -/

/-- Whether the statement is a branch or a loop, which has a scope of its own. -/
def Stmt.isControl : Stmt → Bool
  | .ifThen _ _ _ | .ifElse _ _ _ _ | .whileLoop _ _ _ | .forLoop _ _ _ _ _ => true
  | _ => false

/-- All that a branch or a loop asks for is asked in its own scope. -/
theorem Stmt.exists_bracketed {s : Stmt} (hs : s.isControl = true) :
    ∃ row entries scopes reports, s.requests = bracketed row ∧
      Fills row entries scopes reports := by
  cases s with
  | ifThen condition body line | whileLoop condition body line =>
    exact ⟨_, _, _, _, rfl, .quiet_append condition.isQuiet_typedRequests body.fills⟩
  | ifElse condition onTrue onFalse line =>
    exact ⟨_, _, _, _, rfl, .quiet_append condition.isQuiet_typedRequests
      (onTrue.fills.append onFalse.fills)⟩
  | forLoop init condition step body line =>
    exact ⟨_, _, _, _, rfl, (ForInit.fills init).append
      (.quiet_append (isQuiet_optionalRequests condition)
        (.quiet_append (ForStep.isQuiet_requests step) body.fills))⟩
  | block | declaration | assignment | function | prototype | result => cases hs

/-- The table after a statement is the one after its events, since types do not touch it. -/
theorem Analysis.table_stmt (s : Stmt) (a : Analysis) :
    (stmt s a).table = ((eventsOf s.requests).foldl Checker.handle a.toChecker.untyped).table := by
  rw [← (passes_stmt s a).untyped_eq s.fills]
  rfl

/-- A statement leaves as many scopes open as it finds. What is declared in them stays, up to a
first reading and a first value, and in the innermost scope also up to the completion of
prototypes; only that one can gain symbols, at its end, and a branch or a loop gives it none.
So the analysis of a program ends as it starts, in the one outermost scope. -/
theorem frames_stmt :
    (∀ (s : Stmt) (a : Analysis), a.table.scopes ≠ [] →
      (Analysis.stmt s a).table.depth = a.table.depth ∧
        a.table.Grows (Analysis.stmt s a).table ∧
        (s.isControl = true → a.table.Ages (Analysis.stmt s a).table)) ∧
    ∀ p : Program, p.analyze.table.depth = 1 := by
  refine ⟨fun s a hne => ?_, fun p => ?_⟩
  · have hgrows : a.table.Grows (Analysis.stmt s a).table := by
      rw [Analysis.table_stmt]
      exact Checker.grows_of_balanced (c := a.toChecker.untyped) s.fills.balanced hne
    refine ⟨hgrows.depth_eq, hgrows, fun hcontrol => ?_⟩
    obtain ⟨row, _, _, _, hrequests, hfills⟩ := Stmt.exists_bracketed hcontrol
    rw [Analysis.table_stmt, hrequests, eventsOf_bracketed]
    exact Checker.ages_enclosed (c := a.toChecker.untyped) hfills.balanced
  · rw [p.table_analyze]
    exact (Checker.grows_of_balanced (c := Checker.initial) p.balanced
      (List.cons_ne_nil _ _)).depth_eq

/-- A loop that gives `x` its first value and reads it:
```
while (1) { int y = 2; x = y; x = x; }
```
-/
def fillingLoop : Stmt :=
  .whileLoop (.term (.factor (.number "1" 2)))
    (.block
      [.declaration ⟨.int, [⟨"y", some (.term (.factor (.number "2" 2)))⟩], 2⟩,
       .assignment ⟨"x", .set, .term (.factor (.ident "y" 2)), 2⟩,
       .assignment ⟨"x", .set, .term (.factor (.ident "x" 2)), 2⟩] 2) 2

/-- An analysis after `int x;` on line 1. -/
def bareVariable : Analysis :=
  Analysis.stmt (.declaration ⟨.int, [⟨"x", none⟩], 1⟩) Analysis.initial

/-- The loop leaves `x` read and with a value, and `y` is gone with its scope. -/
theorem frames_fillingLoop :
    bareVariable.table.scopes ≠ [] ∧ fillingLoop.isControl = true ∧
      bareVariable.table.symbols = [.var ⟨"x", .int, 1, none, false⟩] ∧
      (Analysis.stmt fillingLoop bareVariable).table.symbols
        = [.var ⟨"x", .int, 1, some 2, true⟩] ∧
      bareVariable.table.Ages (Analysis.stmt fillingLoop bareVariable).table := by
  have hne : bareVariable.table.scopes ≠ [] := by decide +kernel
  exact ⟨hne, rfl, by decide +kernel, by decide +kernel,
    (frames_stmt.1 fillingLoop bareVariable hne).2.2 rfl⟩

end Tercet
