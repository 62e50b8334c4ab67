import Tercet.Proofs.Check.Frames
import Tercet.Proofs.Check.Names

/-!
# `Tercet.Proofs.Check.Marks`: the mark that a reading leaves on a symbol

A variable is marked when it is read. This module says which mark stands for which reading.
`Checker.Records` is the invariant: the symbols of each open scope are those that the history
has accepted there, in the same order (`History.accepted`), and each carries its mark exactly if
the history has read it (`History.Describes`). A reading reaches the right symbol past others of
the same name because the level at which the table finds the name is the level of the entry that
the name denotes (`Checker.Follows.denotes_iff`).

Each event keeps the invariant (`Checker.Records.handle`), and so does a row of events
(`Checker.Records.foldl`).
-/

set_option autoImplicit false

namespace Tercet

/-- The name that the event reads, if it reads. -/
def Event.source? : Event → Option String
  | .read name _ => some name
  | _ => none

/-- The mark of a reading, which only variables carry. -/
def Symbol.used? : Symbol → Option Bool
  | .var v => some v.used
  | .function _ _ => none

namespace History

/-- What event `i` has entered has been read: at some event that reads a name, the name stood
for it and had a value. -/
def IsRead (h : List Event) (i : Nat) : Prop :=
  ∃ j < h.length, ∃ x ∈ h[j]?.bind Event.source?, Denotes (h.take j) x i ∧ ¬ Unset (h.take j) x

/-- Event `i` has entered a name that was free, in a scope that is still open with `k` open
within it. -/
def Accepted (h : List Event) (k i : Nat) : Prop :=
  ∃ entry ∈ entryAt? h i, inside (h.drop (i + 1)) = some k ∧ FirstAt h entry.name i

instance (h : List Event) (i : Nat) : Decidable (IsRead h i) :=
  inferInstanceAs (Decidable (∃ j < h.length, _))

instance (h : List Event) (k i : Nat) : Decidable (Accepted h k i) :=
  inferInstanceAs (Decidable (∃ entry ∈ entryAt? h i, _))

/-- The accepted entries of an open scope, in their order. -/
def accepted (h : List Event) (k : Nat) : List Nat :=
  (List.range h.length).filter fun i => Accepted h k i

/-! ### Longer histories -/

variable {h : List Event} {e : Event} {x : String} {i k : Nat}

/-- An event that is over has entered what it has entered. -/
theorem entryAt?_append (hi : i < h.length) : entryAt? (h ++ [e]) i = entryAt? h i := by
  rw [entryAt?, entryAt?, List.getElem?_append_left hi]

/-- What has been entered was entered by one of the events. -/
theorem lt_of_entryAt? {entry : Entry} (h' : entryAt? h i = some entry) : i < h.length := by
  obtain ⟨event, hevent, _⟩ := Option.bind_eq_some_iff.mp h'
  exact (List.getElem?_eq_some_iff.mp hevent).1

/-- An entry is accepted if it is the first of its name in its scope. -/
theorem accepted_iff : Accepted h k i ↔ ∃ x, Enters h x i k ∧ FirstAt h x i := by
  constructor
  · rintro ⟨entry, hentry, hinside, hfirst⟩
    exact ⟨entry.name, ⟨by rw [hentry]; rfl, hinside⟩, hfirst⟩
  · rintro ⟨x, ⟨hname, hinside⟩, hfirst⟩
    obtain ⟨entry, hentry, rfl⟩ := Option.map_eq_some_iff.mp hname
    exact ⟨entry, hentry, hinside, hfirst⟩

/-- An accepted entry stays accepted, at the level to which an event shifts its scope. -/
theorem accepted_append_iff (hi : i < h.length) :
    Accepted (h ++ [e]) k i ↔ ∃ m, Accepted h m i ∧ e.shift m = some k := by
  have henters (x : String) :
      Enters (h ++ [e]) x i k ↔ ∃ m, Enters h x i m ∧ e.shift m = some k := by
    rw [enters_append, or_iff_left fun hnew => Nat.ne_of_lt hi hnew.1]
  simp only [accepted_iff, henters, firstAt_append (Nat.le_of_lt hi)]
  constructor
  · rintro ⟨x, ⟨m, henters, hm⟩, hfirst⟩
    exact ⟨m, ⟨x, henters, hfirst⟩, hm⟩
  · rintro ⟨m, ⟨x, henters, hfirst⟩, hm⟩
    exact ⟨x, ⟨m, henters, hm⟩, hfirst⟩

/-- A new event is accepted if it enters a name that is free in the innermost scope. -/
theorem accepted_append_length_iff :
    Accepted (h ++ [e]) k h.length ↔
      k = 0 ∧ ∃ entry ∈ e.entry?, ∀ j, ¬ Enters h entry.name j 0 := by
  have hfirst (x : String) : FirstAt (h ++ [e]) x h.length ↔ ∀ j, ¬ Enters h x j 0 := by
    rw [firstAt_append (Nat.le_refl _), FirstAt, List.take_length]
    exact ⟨fun hno j hj => hno j hj.lt hj, fun hno j _ => hno j⟩
  -- no scope has been opened within the one of the new event
  have hnew : entryAt? (h ++ [e]) h.length = e.entry? := by simp [entryAt?]
  have hinside : inside ((h ++ [e]).drop (h.length + 1)) = some 0 := by simp [inside]
  rw [Accepted, hnew, hinside]
  simp only [hfirst, Option.some.injEq]
  constructor
  · rintro ⟨entry, hentry, hk, hno⟩
    exact ⟨hk.symm, entry, hentry, hno⟩
  · rintro ⟨hk, entry, hentry, hno⟩
    exact ⟨entry, hentry, hk.symm, hno⟩

/-- What is accepted after one more event: what was accepted at the level from which the event
shifts, and perhaps the event itself. -/
theorem accepted_append {m : Nat} (hm : e.shift m = some k) :
    accepted (h ++ [e]) k
      = accepted h m ++ if Accepted (h ++ [e]) k h.length then [h.length] else [] := by
  rw [accepted, List.length_append, List.length_singleton, List.range_succ, List.filter_append]
  congr 1
  · refine List.filter_congr fun i hi => ?_
    rw [decide_eq_decide, accepted_append_iff (List.mem_range.mp hi)]
    constructor
    · rintro ⟨m', haccepted, hm'⟩
      rwa [Event.shift_injective hm hm']
    · exact fun haccepted => ⟨m, haccepted, hm⟩
  · rw [List.filter_singleton]
    by_cases hnew : Accepted (h ++ [e]) k h.length <;> simp [hnew]

/-- An event that enters nothing moves what is accepted to another level at most. -/
theorem accepted_append_of_entry?_eq_none {m : Nat} (he : e.entry? = none)
    (hm : e.shift m = some k) : accepted (h ++ [e]) k = accepted h m := by
  rw [accepted_append hm, if_neg, List.append_nil]
  rw [accepted_append_length_iff, he]
  rintro ⟨_, entry, hentry, _⟩
  cases hentry

/-- A new scope has no entries. -/
theorem accepted_opened : accepted (h ++ [.opened]) 0 = [] := by
  rw [accepted, List.filter_eq_nil_iff]
  intro i hi
  rw [decide_eq_true_eq, accepted_iff]
  rintro ⟨x, henters, _⟩
  obtain ⟨m, _, hm⟩ := (enters_append_of_entry?_eq_none rfl).mp henters
  cases hm

/-- An entry of a free name is accepted. -/
theorem accepted_entered_of_free {entry : Entry} (hfree : ∀ j, ¬ Enters h entry.name j 0) :
    accepted (h ++ [.entered entry]) 0 = accepted h 0 ++ [h.length] := by
  rw [accepted_append (m := 0) rfl, if_pos]
  exact accepted_append_length_iff.mpr ⟨rfl, entry, rfl, hfree⟩

/-- Any other entry is not, and none is at a level further out. -/
theorem accepted_entered_of_taken {entry : Entry} {j : Nat}
    (htaken : k = 0 → Enters h entry.name j 0) :
    accepted (h ++ [.entered entry]) k = accepted h k := by
  rw [accepted_append (m := k) rfl, if_neg, List.append_nil]
  rw [accepted_append_length_iff]
  rintro ⟨hk, _, hentry, hfree⟩
  cases hentry
  exact hfree j (htaken hk)

/-- An entry is read by a reading of its name while the name stands for it and has a value. -/
theorem isRead_append :
    IsRead (h ++ [e]) i ↔ IsRead h i ∨ ∃ x ∈ e.source?, Denotes h x i ∧ ¬ Unset h x := by
  constructor
  · rintro ⟨j, hj, x, hx, hread⟩
    rcases Nat.lt_or_ge j h.length with hlt | hge
    · rw [List.getElem?_append_left hlt] at hx
      rw [List.take_append_of_le_length (Nat.le_of_lt hlt)] at hread
      exact Or.inl ⟨j, hlt, x, hx, hread⟩
    · -- the reading is the new event
      obtain rfl : j = h.length := by
        rw [List.length_append, List.length_singleton] at hj
        omega
      exact Or.inr ⟨x, by simpa using hx, by simpa using hread⟩
  · rintro (⟨j, hlt, x, hx, hread⟩ | ⟨x, hx, hread⟩)
    · refine ⟨j, ?_, x, ?_, ?_⟩
      · rw [List.length_append]
        exact Nat.lt_add_right _ hlt
      · rwa [List.getElem?_append_left hlt]
      · rwa [List.take_append_of_le_length (Nat.le_of_lt hlt)]
    · exact ⟨h.length, by simp, x, by simpa using hx, by simpa using hread⟩

/-- An entry is not read before it is made. -/
theorem IsRead.lt (hread : IsRead h i) : i < h.length := by
  obtain ⟨j, _, x, _, hdenotes, _⟩ := hread
  have hlt := hdenotes.lt
  rw [List.length_take] at hlt
  omega

/-! ### Symbols and entries -/

/-- The symbol comes from what event `i` has entered, and its mark says whether that has been
read. -/
structure Describes (h : List Event) (i : Nat) (y : Symbol) : Prop where
  source : ∃ entry ∈ entryAt? h i, entry.symbol.Matures y
  mark : ∀ b ∈ y.used?, b = true ↔ IsRead h i

/-- The symbol has the name of the entry. -/
theorem Describes.name {y : Symbol} (hy : Describes h i y) :
    (entryAt? h i).map Entry.name = some y.name := by
  obtain ⟨entry, hentry, hmatures⟩ := hy.source
  rw [hentry, hmatures.name_eq, entry.name_symbol]
  rfl

/-- A symbol whose mark stays goes on describing an entry that is not read. -/
theorem Describes.append {y z : Symbol} (hy : Describes h i y) (hz : y.Matures z)
    (hmark : z.used? = y.used?) (hunread : ∀ x ∈ e.source?, Denotes h x i → Unset h x) :
    Describes (h ++ [e]) i z where
  source := by
    obtain ⟨entry, hentry, hmatures⟩ := hy.source
    refine ⟨entry, ?_, hmatures.trans hz⟩
    rw [entryAt?_append (lt_of_entryAt? hentry)]
    exact hentry
  mark b hb := by
    rw [hmark] at hb
    rw [hy.mark b hb, isRead_append, or_iff_left]
    rintro ⟨x, hx, hdenotes, hset⟩
    exact hset (hunread x hx hdenotes)

/-- A marked symbol describes an entry that is read. -/
theorem Describes.markUsed {y : Symbol} (hy : Describes h i y) (hx : e.source? = some x)
    (hdenotes : Denotes h x i) (hset : ¬ Unset h x) : Describes (h ++ [e]) i y.markUsed where
  source := by
    obtain ⟨entry, hentry, hmatures⟩ := hy.source
    refine ⟨entry, ?_, hmatures.trans (.ages (Symbol.ages_markUsed y))⟩
    rw [entryAt?_append (lt_of_entryAt? hentry)]
    exact hentry
  mark b hb := by
    cases y with
    | function => cases hb
    | var v =>
      cases hb
      exact iff_of_true rfl (isRead_append.mpr (Or.inr ⟨x, hx, hdenotes, hset⟩))

/-- A new symbol has no mark, and nothing has read it yet. -/
theorem describes_entered (entry : Entry) :
    Describes (h ++ [.entered entry]) h.length entry.symbol where
  source := ⟨entry, by simp [entryAt?, Event.entry?], .refl _⟩
  mark b hb := by
    have hunread : ¬ IsRead (h ++ [.entered entry]) h.length := by
      rw [isRead_append]
      rintro (hread | ⟨x, hx, _⟩)
      · exact Nat.lt_irrefl _ hread.lt
      · cases hx
    have hunmarked : b = false := by
      cases entry <;> cases hb <;> rfl
    rw [hunmarked]
    exact iff_of_false Bool.false_ne_true hunread

end History

open History

/-- The symbols of each scope have matured in their places, and none has gained a mark. -/
def Table.Unmarked (t t' : Table) : Prop :=
  ∀ (k : Nat) (s' : Scope), t'.scopes[k]? = some s' → ∃ s, t.scopes[k]? = some s ∧
    List.Forall₂ (fun y z => y.Matures z ∧ z.used? = y.used?) s.toList s'.toList

/-- A table that stays as it is has gained no mark. -/
theorem Table.Unmarked.refl (t : Table) : t.Unmarked t :=
  fun _ s hs => ⟨s, hs, List.forall₂_same.mpr fun y _ => ⟨.refl y, rfl⟩⟩

namespace Checker

variable {c c' : Checker} {h : List Event} {e : Event} {entry : Entry} {x : String} {i k : Nat}

/-- Refusing a name leaves the marks, and so does the completion of a prototype. -/
theorem unmarked_enter_of_taken {old : Symbol} (htaken : c.table.at? 0 entry.name = some old) :
    c.table.Unmarked (c.enter entry).table := by
  have hlookup := Table.lookup?_eq_at?.trans htaken
  cases entry with
  | var | parameter =>
    simp only [enter, hlookup]
    exact .refl _
  | function s defined =>
    simp only [Entry.name] at hlookup htaken
    simp only [enter, Entry.name, hlookup, declareFunction]
    split
    · rename_i hcompletes
      have hmatures := matures_of_completes (name_of_lookup? hlookup) hcompletes
      -- only a function is completed, and functions carry no mark
      have hold : old.used? = none := by
        cases old with
        | function => rfl
        | var => cases hcompletes
      split
      · obtain ⟨t, ht⟩ := Table.exists_replace? (y := .function s true) (by
          show (c.table.at? 0 s.name).isSome = true
          rw [htaken]
          rfl)
        simp only [ht]
        obtain ⟨inner, inner', rest, hinner, htable, rfl⟩ := Table.exists_of_modifyInnermost? ht
        rw [htable] at hlookup ⊢
        intro k s' hs'
        cases k with
        -- the prototype is in the innermost scope, and the others are left alone
        | zero =>
          cases hs'
          exact ⟨inner, rfl, Scope.forall₂_replace? (x := .function s true)
            (fun y => ⟨.refl y, rfl⟩) hlookup ⟨hmatures, hold.symm⟩ hinner⟩
        | succ k => exact Table.Unmarked.refl ⟨inner :: rest⟩ (k + 1) s' hs'
      · exact .refl _
    · exact .refl _

/-- A store marks nothing. -/
theorem unmarked_write (x : String) (line : Nat) : c.table.Unmarked (c.write x line).table := by
  cases hresolve : c.table.resolve? x with
  | none =>
    simp only [write, hresolve]
    exact .refl _
  | some y =>
    simp only [write, hresolve]
    obtain ⟨k, hk, _⟩ := Table.exists_resolvesAt hresolve
    intro m s' hs'
    obtain ⟨s, hs, hlist⟩ := Table.toList_store hk hs'
    refine ⟨s, hs, ?_⟩
    rw [hlist, List.forall₂_map_right_iff, List.forall₂_same]
    intro z _
    split
    · refine ⟨.ages (Symbol.ages_store line z), ?_⟩
      cases z <;> rfl
    · exact ⟨.refl z, rfl⟩

/-- The table follows the history, and its symbols describe the accepted entries, scope by scope
and in their order. -/
structure Records (c : Checker) (h : List Event) : Prop where
  follows : c.Follows h
  rows : ∀ (k : Nat) (s : Scope), c.table.scopes[k]? = some s →
    List.Forall₂ (Describes h) (accepted h k) s.toList

/-- What is described is accepted. -/
theorem Records.rows_accepted (hc : c.Records h) {s : Scope}
    (hs : c.table.scopes[k]? = some s) :
    List.Forall₂ (fun i y => Accepted h k i ∧ Describes h i y) (accepted h k) s.toList := by
  refine (List.forall₂_and_left _ _).mpr ⟨fun i hi => ?_, hc.rows k s hs⟩
  simpa using (List.mem_filter.mp hi).2

/-- At the start there is one scope with nothing in it. -/
theorem records_initial : initial.Records [] where
  follows := follows_initial
  rows k s hs := by
    cases k with
    | zero =>
      cases hs
      exact .nil
    | succ k => cases hs

/-- A name denotes an accepted entry exactly if the entry has the name and stands at the level
where the table finds the name. -/
theorem Follows.denotes_iff {m : Nat} {z : String} (hc : c.Follows h)
    (hk : c.table.ResolvesAt x k) (hi : Accepted h m i)
    (hz : (entryAt? h i).map Entry.name = some z) : Denotes h x i ↔ m = k ∧ z = x := by
  -- further in than where the table finds the name, nothing of it is open
  have hinner : ∀ n < k, ∀ j, ¬ Enters h x j n := by
    intro n hn
    refine hc.view.not_enters ?_
    rw [Table.readiness, hk.first n hn]
    rfl
  obtain ⟨w, henters, hfirst⟩ := accepted_iff.mp hi
  obtain rfl : w = z := Option.some.inj (henters.1.symm.trans hz)
  constructor
  · intro hdenotes
    obtain ⟨n, hn, _, hleast⟩ := History.denotes_iff.mp hdenotes
    obtain rfl : n = m := Option.some.inj (hn.2.symm.trans henters.2)
    refine ⟨?_, Option.some.inj (henters.1.symm.trans hn.1)⟩
    -- the table finds the name neither further in nor further out
    rcases Nat.lt_trichotomy n k with hlt | heq | hgt
    · exact absurd hn (hinner n hlt i)
    · exact heq
    · obtain ⟨j, hj⟩ := (hc.view.found k x).mp (by
        rw [Table.readiness, Option.isSome_map]
        exact hk.found)
      exact absurd hj (hleast k hgt j)
  · rintro ⟨rfl, rfl⟩
    exact History.denotes_iff.mpr ⟨m, henters, hfirst, hinner⟩

/-- An event that neither accepts nor reads anything, and leaves the marks. -/
theorem Records.of_unmarked (hc : c.Records h) (hfollows : c'.Follows (h ++ [e]))
    (htable : c.table.Unmarked c'.table) (haccepted : ∀ k, accepted (h ++ [e]) k = accepted h k)
    (hunread : ∀ i, ∀ x ∈ e.source?, Denotes h x i → Unset h x) : c'.Records (h ++ [e]) where
  follows := hfollows
  rows k s' hs' := by
    obtain ⟨s, hs, hmarks⟩ := htable k s' hs'
    rw [haccepted]
    exact forall₂_trans (hc.rows k s hs) hmarks fun i y z hy hz =>
      hy.append hz.1 hz.2 (hunread i)

/-- A scope that opens has no entries to describe. -/
theorem Records.push (hc : c.Records h) : c.push.Records (h ++ [.opened]) where
  follows := hc.follows.push
  rows k s hs := by
    cases k with
    | zero =>
      cases hs
      rw [accepted_opened]
      exact .nil
    | succ k =>
      rw [accepted_append_of_entry?_eq_none (m := k) rfl rfl]
      exact (hc.rows k s hs).imp fun i y hy => hy.append (.refl y) rfl (by simp [Event.source?])

/-- A scope that closes takes its symbols with it, and the others move in by one level. -/
theorem Records.pop (hc : c.Records h) (hopen : (inside (h ++ [.closed])).isSome = true) :
    c.pop.Records (h ++ [.closed]) where
  follows := hc.follows.pop hopen
  rows k s hs := by
    have hs : c.table.scopes[k + 1]? = some s := by
      rw [← List.getElem?_tail]
      exact hs
    rw [accepted_append_of_entry?_eq_none (m := k + 1) rfl rfl]
    exact (hc.rows (k + 1) s hs).imp fun i y hy =>
      hy.append (.refl y) rfl (by simp [Event.source?])

/-- An entry of a free name adds a symbol that describes it. Any other entry is not accepted and
adds none. -/
theorem Records.enter (hc : c.Records h) (entry : Entry) :
    (c.enter entry).Records (h ++ [.entered entry]) := by
  have hfollows := hc.follows.enter entry
  cases hat : c.table.at? 0 entry.name with
  | none =>
    obtain ⟨t, ht, henter⟩ := enter_of_free hc.follows.scopes_ne_nil hat
    have hfree : ∀ j, ¬ Enters h entry.name j 0 :=
      hc.follows.view.not_enters (by rw [Table.readiness, hat]; rfl)
    refine ⟨hfollows, fun k s' hs' => ?_⟩
    rw [henter] at hs'
    obtain ⟨inner, inner', rest, hinner, htable, rfl⟩ := Table.exists_of_modifyInnermost? ht
    -- a new name takes nothing from what is known of the others
    have hrows (k : Nat) (s : Scope) (hs : c.table.scopes[k]? = some s) :
        List.Forall₂ (Describes (h ++ [.entered entry])) (accepted h k) s.toList :=
      (hc.rows k s hs).imp fun i y hy => hy.append (.refl y) rfl (by simp [Event.source?])
    rw [htable] at hrows
    cases k with
    | zero =>
      cases hs'
      rw [accepted_entered_of_free hfree, Scope.toList_insert? hinner]
      exact List.rel_append (hrows 0 inner rfl) (.cons (describes_entered entry) .nil)
    | succ k =>
      -- the outer scopes are as before
      rw [accepted_entered_of_taken (j := 0) fun hzero => absurd hzero (Nat.succ_ne_zero k)]
      exact hrows (k + 1) s' hs'
  | some old =>
    obtain ⟨j, hj⟩ := (hc.follows.view.found 0 entry.name).mp (by
      rw [Table.readiness, hat]
      rfl)
    exact hc.of_unmarked hfollows (unmarked_enter_of_taken hat)
      (fun k => accepted_entered_of_taken fun _ => hj) fun _ _ hx => by cases hx

/-- A store is no reading. -/
theorem Records.write (hc : c.Records h) (x : String) (line : Nat) :
    (c.write x line).Records (h ++ [.stored x line]) :=
  hc.of_unmarked (hc.follows.write x line) (unmarked_write x line)
    (fun k => accepted_append_of_entry?_eq_none (m := k) rfl rfl) fun _ _ hx => by cases hx

/-- A reading marks the symbol of what the name stands for, if that has a value. -/
theorem Records.checkUse (hc : c.Records h) (x : String) (line : Nat) :
    (c.checkUse x line).2.Records (h ++ [.read x line]) := by
  have hfollows := hc.follows.checkUse x line
  have haccepted (k : Nat) : accepted (h ++ [.read x line]) k = accepted h k :=
    accepted_append_of_entry?_eq_none (m := k) rfl rfl
  cases hresolve : c.table.resolve? x with
  | none =>
    -- the name stands for nothing
    have hnone : ¬ Visible h x := by
      rw [hc.follows.visible_iff, hresolve]
      exact Bool.false_ne_true
    simp only [Checker.checkUse, hresolve] at hfollows ⊢
    refine hc.of_unmarked hfollows (.refl _) haccepted fun i z hz hdenotes => ?_
    cases hz
    obtain ⟨k, hk, _⟩ := History.denotes_iff.mp hdenotes
    exact absurd (visible_iff.mpr ⟨i, k, hk⟩) hnone
  | some y =>
    have hunset := hc.follows.unset_iff hresolve
    simp only [Checker.checkUse, hresolve] at hfollows ⊢
    split
    · rename_i hy
      rw [if_pos hy] at hfollows
      obtain ⟨k, hk, _⟩ := Table.exists_resolvesAt hresolve
      refine ⟨hfollows, fun m s' hs' => ?_⟩
      obtain ⟨s, hs, hlist⟩ := Table.toList_markUsed hk hs'
      rw [haccepted, hlist, List.forall₂_map_right_iff]
      refine (hc.rows_accepted hs).imp fun i z hz => ?_
      -- the table marks the symbol that it finds, which is the one for which the name stands
      have hdenotes := hc.follows.denotes_iff hk hz.1 hz.2.name
      split
      · rename_i hmz
        exact hz.2.markUsed rfl (hdenotes.mpr hmz) (by rw [hunset, hy]; exact Bool.noConfusion)
      · rename_i hmz
        refine hz.2.append (.refl z) rfl fun w hw hdenotes' => ?_
        cases hw
        exact absurd (hdenotes.mp hdenotes') hmz
    · rename_i hy
      rw [if_neg hy] at hfollows
      refine hc.of_unmarked hfollows (.refl _) haccepted fun i z hz _ => ?_
      cases hz
      exact hunset.mpr (Bool.eq_false_iff.mpr hy)

/-- An event keeps the records, as long as it leaves a scope open. -/
theorem Records.handle (hc : c.Records h) (hopen : (inside (h ++ [e])).isSome = true) :
    (c.handle e).Records (h ++ [e]) := by
  cases e with
  | opened => exact hc.push
  | closed => exact hc.pop hopen
  | entered entry => exact hc.enter entry
  | stored x line => exact hc.write x line
  | read x line => exact hc.checkUse x line

/-- So does a row of events. -/
theorem Records.foldl (hc : c.Records h) {row : List Event}
    (hopen : (inside (h ++ row)).isSome = true) :
    (row.foldl Checker.handle c).Records (h ++ row) := by
  induction row generalizing c h with
  | nil => rwa [List.append_nil]
  | cons e more ih =>
    rw [List.append_cons] at hopen ⊢
    exact ih (hc.handle (isSome_inside_of_append hopen)) hopen

end Checker

end Tercet
