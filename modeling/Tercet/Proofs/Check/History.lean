import Tercet.Tree.Stmt

/-!
# `Tercet.Proofs.Check.History`: what has happened to the names of a program

A pass over a program is a row of events: scopes are opened and closed, names are entered into
the innermost open scope, values are stored into names and names are read. This module says
what a name stands for after such a row, in terms of the row alone.

A name is `Visible` if it has been entered in a scope that is still open. It `Denotes` the
event that first entered it in the innermost such scope: a second entry in one scope is
refused, but for the definition of a function that has only been announced, which takes the
place of the first. And it is `Unset` if that event gave it no value and no store since then
was made while the name denoted that event.

None of this mentions a table. `Reflects` ties the two together: it says of a view, which is
an answer for each level of nesting and each name, that it is right for a row of events, and
one lemma for each kind of event says how a right view changes.
-/

set_option autoImplicit false

namespace Tercet

/-- What is entered under a name. -/
inductive Entry where
  | var (name : String) (type : DataType) (line : Nat) (valued : Bool)
  | parameter (p : Parameter) (line : Nat)
  | function (s : Signature) (defined : Bool)
deriving DecidableEq, Repr

namespace Entry

/-- The name itself. -/
def name : Entry → String
  | var name _ _ _ => name
  | parameter p _ => p.name
  | function s _ => s.name

/-- Whether the entry gives the name no value. -/
def isBare : Entry → Bool
  | var _ _ _ valued => !valued
  | parameter _ _ | function _ _ => false

end Entry

/-- A step of a pass over a program. -/
inductive Event where
  | opened
  | closed
  | entered (entry : Entry)
  | stored (name : String) (line : Nat)
  | read (name : String) (line : Nat)
deriving DecidableEq, Repr

namespace Event

/-- What the event enters, if it enters something. -/
def entry? : Event → Option Entry
  | entered entry => some entry
  | _ => none

/-- The name that the event stores into, if it stores. -/
def target? : Event → Option String
  | stored name _ => some name
  | _ => none

/-- How many scopes are open within a scope after the event, if `k` were open before it. There
is no answer if the event closes the scope itself. -/
def shift : Event → Nat → Option Nat
  | opened, k => some (k + 1)
  | closed, 0 => none
  | closed, k + 1 => some k
  | _, k => some k

/-- Two levels that an event shifts to the same one were the same. -/
theorem shift_injective {e : Event} {k m m' : Nat} (hm : e.shift m = some k)
    (hm' : e.shift m' = some k) : m = m' := by
  cases e <;> cases m <;> cases m' <;> simp [shift] at hm hm' <;> omega

end Event

namespace History

/-- How many scopes are open at the end of a row within the scope in which it starts. There is
no answer if that scope is closed on the way. -/
def inside (row : List Event) : Option Nat :=
  row.foldl (fun k e => k.bind e.shift) (some 0)

/-- What event `i` enters. -/
def entryAt? (h : List Event) (i : Nat) : Option Entry :=
  h[i]?.bind Event.entry?

/-- Event `i` has entered the name in a scope that is still open, with `k` open within it. -/
def Enters (h : List Event) (x : String) (i k : Nat) : Prop :=
  (entryAt? h i).map Entry.name = some x ∧ inside (h.drop (i + 1)) = some k

/-- The name has been entered in a scope that is still open. -/
def Visible (h : List Event) (x : String) : Prop :=
  ∃ i < h.length, (entryAt? h i).map Entry.name = some x ∧
    (inside (h.drop (i + 1))).isSome = true

/-- No event before event `i` has entered the name in the scope that is innermost there. -/
def FirstAt (h : List Event) (x : String) (i : Nat) : Prop :=
  ∀ j < i, ¬ Enters (h.take i) x j 0

/-- The name stands for what event `i` has entered: the first entry of the name in its scope,
which is still open, while no scope further in has an entry of the name. -/
def Denotes (h : List Event) (x : String) (i : Nat) : Prop :=
  ∃ k ∈ inside (h.drop (i + 1)), (entryAt? h i).map Entry.name = some x ∧ FirstAt h x i ∧
    ∀ j < h.length, ∀ m < k, ¬ Enters h x j m

/-- The name stands for a variable that was entered without a value, and nothing has been
stored into it. -/
def Unset (h : List Event) (x : String) : Prop :=
  ∃ i < h.length, Denotes h x i ∧ (entryAt? h i).any Entry.isBare = true ∧
    ∀ j < h.length, h[j]?.bind Event.target? = some x → ¬ Denotes (h.take j) x i

section

variable (h : List Event) (x : String) (i k : Nat)

instance : Decidable (Enters h x i k) :=
  inferInstanceAs (Decidable (_ ∧ _))

instance : Decidable (Visible h x) :=
  inferInstanceAs (Decidable (∃ i < h.length, _))

instance : Decidable (FirstAt h x i) :=
  inferInstanceAs (Decidable (∀ j < i, ¬ Enters (h.take i) x j 0))

instance : Decidable (Denotes h x i) :=
  inferInstanceAs (Decidable (∃ k ∈ inside (h.drop (i + 1)), _))

instance : Decidable (Unset h x) :=
  inferInstanceAs (Decidable (∃ i < h.length, _))

end

/-! ### Longer histories -/

variable {h : List Event} {e : Event} {x : String} {i j k : Nat}

/-- One more event shifts the level. -/
theorem inside_append_singleton (row : List Event) (e : Event) :
    inside (row ++ [e]) = (inside row).bind e.shift := by
  rw [inside, List.foldl_append]
  rfl

/-- What happens in scopes that are closed again does not count. -/
theorem inside_append_of_eq_zero {row : List Event} (hrow : inside row = some 0)
    (more : List Event) : inside (row ++ more) = inside more := by
  rw [inside] at hrow
  rw [inside, List.foldl_append, hrow]
  rfl

/-- An entry is one of the events. -/
theorem Enters.lt (he : Enters h x i k) : i < h.length := by
  obtain ⟨entry, hentry, _⟩ := Option.map_eq_some_iff.mp he.1
  obtain ⟨event, hevent, _⟩ := Option.bind_eq_some_iff.mp hentry
  exact (List.getElem?_eq_some_iff.mp hevent).1

/-- After one more event, an entry is where it was, but for the scopes that the event opens or
closes, or the event is the entry. -/
theorem enters_append :
    Enters (h ++ [e]) x i k ↔ (∃ m, Enters h x i m ∧ e.shift m = some k) ∨
      (i = h.length ∧ e.entry?.map Entry.name = some x ∧ k = 0) := by
  rcases Nat.lt_trichotomy i h.length with hlt | rfl | hgt
  -- an entry from before
  · have hdrop : (h ++ [e]).drop (i + 1) = h.drop (i + 1) ++ [e] :=
      List.drop_append_of_le_length hlt
    simp only [Enters, entryAt?, List.getElem?_append_left hlt, hdrop, inside_append_singleton,
      Option.bind_eq_some_iff, Nat.ne_of_lt hlt, false_and, or_false, and_assoc,
      exists_and_left]
  -- the event itself
  · simp [Enters, entryAt?, inside, eq_comm]
  · have hnone : (h ++ [e])[i]? = none :=
      List.getElem?_eq_none (by simpa using Nat.succ_le_of_lt hgt)
    have hno : ∀ m, ¬ Enters h x i m := fun m hm => absurd hm.lt (Nat.lt_asymm hgt)
    have hno' : ¬ Enters (h ++ [e]) x i k := by simp [Enters, entryAt?, hnone]
    simp [hno, hno', Nat.ne_of_gt hgt]

/-- An event that enters nothing leaves the entries where they are, but for the scopes that it
opens or closes. -/
theorem enters_append_of_entry?_eq_none (he : e.entry? = none) :
    Enters (h ++ [e]) x i k ↔ ∃ m, Enters h x i m ∧ e.shift m = some k := by
  simp [enters_append, he]

/-- A new entry is one of the innermost scope. -/
theorem enters_append_entered {entry : Entry} :
    Enters (h ++ [.entered entry]) x i k ↔
      Enters h x i k ∨ (i = h.length ∧ entry.name = x ∧ k = 0) := by
  simp [enters_append, Event.entry?, Event.shift]

/-- Whether an entry was the first does not depend on what comes after it. -/
theorem firstAt_append (hi : i ≤ h.length) : FirstAt (h ++ [e]) x i ↔ FirstAt h x i := by
  rw [FirstAt, FirstAt, List.take_append_of_le_length hi]

/-- An earlier entry in the same scope is as deep as a later one. -/
theorem Enters.of_take (hlater : Enters h x i k) (hearlier : Enters (h.take i) x j 0) :
    Enters h x j k := by
  have hi := hlater.lt
  have hj : j < i := Nat.lt_of_lt_of_le hearlier.lt (List.length_take_le i h)
  obtain ⟨entry, hentry, _⟩ := Option.map_eq_some_iff.mp hlater.1
  obtain ⟨event, hevent, hentered⟩ := Option.bind_eq_some_iff.mp hentry
  -- an entry opens and closes nothing
  have hshift : event.shift 0 = some 0 := by
    cases event with
    | entered => rfl
    | _ => cases hentered
  obtain ⟨hname, hinside⟩ := hearlier
  refine ⟨?_, ?_⟩
  · rwa [entryAt?, List.getElem?_take_of_lt hj] at hname
  · -- the row between the two, the later entry and what follows it
    have hcut : h.drop i = event :: h.drop (i + 1) := by
      rw [List.drop_eq_getElem_cons hi, (List.getElem?_eq_some_iff.mp hevent).2]
    have hle : j + 1 ≤ (h.take i).length := by
      rw [List.length_take]
      omega
    have hrow : h.drop (j + 1) = (h.take i).drop (j + 1) ++ [event] ++ h.drop (i + 1) := by
      calc h.drop (j + 1) = (h.take i ++ h.drop i).drop (j + 1) := by rw [List.take_append_drop]
        _ = (h.take i).drop (j + 1) ++ h.drop i := List.drop_append_of_le_length hle
        _ = (h.take i).drop (j + 1) ++ [event] ++ h.drop (i + 1) := by rw [hcut]; simp
    have hzero : inside ((h.take i).drop (j + 1) ++ [event]) = some 0 := by
      rw [inside_append_singleton, hinside]
      exact hshift
    rw [hrow, inside_append_of_eq_zero hzero]
    exact hlater.2

/-- If a scope has entries of a name, one of them is the first. -/
theorem Enters.exists_firstAt (he : Enters h x i k) : ∃ j, Enters h x j k ∧ FirstAt h x j := by
  induction i using Nat.strongRecOn with
  | ind i ih =>
    by_cases hfirst : FirstAt h x i
    · exact ⟨i, he, hfirst⟩
    · obtain ⟨j, hj, hearlier⟩ : ∃ j < i, Enters (h.take i) x j 0 := by
        simpa [FirstAt] using hfirst
      exact ih j hj (he.of_take hearlier)

/-- A name is visible if it has been entered at some level. -/
theorem visible_iff : Visible h x ↔ ∃ i k, Enters h x i k := by
  constructor
  · rintro ⟨i, _, hname, hinside⟩
    obtain ⟨k, hk⟩ := Option.isSome_iff_exists.mp hinside
    exact ⟨i, k, hname, hk⟩
  · rintro ⟨i, k, he⟩
    exact ⟨i, he.lt, he.1, by rw [he.2]; rfl⟩

/-- What a name stands for, in terms of levels. -/
theorem denotes_iff :
    Denotes h x i ↔ ∃ k, Enters h x i k ∧ FirstAt h x i ∧ ∀ m < k, ∀ j, ¬ Enters h x j m := by
  constructor
  · rintro ⟨k, hk, hname, hfirst, hinner⟩
    exact ⟨k, ⟨hname, hk⟩, hfirst, fun m hm j hj => hinner j hj.lt m hm hj⟩
  · rintro ⟨k, ⟨hname, hk⟩, hfirst, hinner⟩
    exact ⟨k, hk, hname, hfirst, fun j _ m hm => hinner m hm j⟩

/-- What a name stands for is one of the events. -/
theorem Denotes.lt (hd : Denotes h x i) : i < h.length := by
  obtain ⟨_, he, _⟩ := denotes_iff.mp hd
  exact he.lt

/-- What event `i` has entered has a value: it was entered with one, or something was stored
while the name stood for it. -/
def HasValue (h : List Event) (x : String) (i : Nat) : Prop :=
  (entryAt? h i).any Entry.isBare = false ∨
    ∃ j, h[j]?.bind Event.target? = some x ∧ Denotes (h.take j) x i

/-- A name is unset if what it stands for has no value. -/
theorem unset_iff : Unset h x ↔ ∃ i, Denotes h x i ∧ ¬ HasValue h x i := by
  constructor
  · rintro ⟨i, _, hd, hbare, hstores⟩
    refine ⟨i, hd, ?_⟩
    rintro (hvalued | ⟨j, hj, hdj⟩)
    · rw [hbare] at hvalued
      cases hvalued
    · obtain ⟨event, hevent, _⟩ := Option.bind_eq_some_iff.mp hj
      exact hstores j (List.getElem?_eq_some_iff.mp hevent).1 hj hdj
  · rintro ⟨i, hd, hno⟩
    refine ⟨i, hd.lt, hd, ?_, fun j _ hj hdj => hno (Or.inr ⟨j, hj, hdj⟩)⟩
    rw [← Bool.not_eq_false]
    exact fun hvalued => hno (Or.inl hvalued)

/-- An entry gains a value by a store into its name while the name stands for it. -/
theorem hasValue_append (hi : i < h.length) :
    HasValue (h ++ [e]) x i ↔ HasValue h x i ∨ (e.target? = some x ∧ Denotes h x i) := by
  have hentry : entryAt? (h ++ [e]) i = entryAt? h i := by
    rw [entryAt?, List.getElem?_append_left hi, entryAt?]
  have hstores : (∃ j, (h ++ [e])[j]?.bind Event.target? = some x ∧
        Denotes ((h ++ [e]).take j) x i) ↔
      (∃ j, h[j]?.bind Event.target? = some x ∧ Denotes (h.take j) x i) ∨
        (e.target? = some x ∧ Denotes h x i) := by
    constructor
    · rintro ⟨j, hj, hd⟩
      -- the store is an older one or the new event
      rcases Nat.lt_trichotomy j h.length with hlt | rfl | hgt
      · rw [List.getElem?_append_left hlt] at hj
        rw [List.take_append_of_le_length (Nat.le_of_lt hlt)] at hd
        exact Or.inl ⟨j, hj, hd⟩
      · exact Or.inr (by simpa using And.intro hj hd)
      · rw [List.getElem?_eq_none (by simpa using Nat.succ_le_of_lt hgt)] at hj
        cases hj
    · rintro (⟨j, hj, hd⟩ | ⟨htarget, hd⟩)
      · obtain ⟨event, hevent, _⟩ := Option.bind_eq_some_iff.mp hj
        have hlt := (List.getElem?_eq_some_iff.mp hevent).1
        refine ⟨j, ?_, ?_⟩
        · rwa [List.getElem?_append_left hlt]
        · rwa [List.take_append_of_le_length (Nat.le_of_lt hlt)]
      · exact ⟨h.length, by simpa using htarget, by simpa using hd⟩
  rw [HasValue, HasValue, hentry, hstores, or_assoc]

/-- A new entry has a value only if it is entered with one. -/
theorem hasValue_append_length (entry : Entry) :
    HasValue (h ++ [.entered entry]) x h.length ↔ entry.isBare = false := by
  have hstores : ¬ ∃ j, (h ++ [Event.entered entry])[j]?.bind Event.target? = some x ∧
      Denotes ((h ++ [Event.entered entry]).take j) x h.length := by
    rintro ⟨j, hj, hd⟩
    have hlt := hd.lt
    rw [List.length_take] at hlt
    obtain ⟨event, hevent, htarget⟩ := Option.bind_eq_some_iff.mp hj
    have hbound := (List.getElem?_eq_some_iff.mp hevent).1
    simp at hbound
    omega
  rw [HasValue, or_iff_left hstores]
  simp [entryAt?, Event.entry?]

/-! ### Views -/

/-- The view is right for the history. It has an answer for a name at a level exactly if an
entry of the name is open there, and says of the first such entry whether it has a value. -/
structure Reflects (h : List Event) (v : Nat → String → Option Bool) : Prop where
  found : ∀ k x, (v k x).isSome = true ↔ ∃ i, Enters h x i k
  ready : ∀ k x b i, v k x = some b → Enters h x i k → FirstAt h x i →
    (b = true ↔ HasValue h x i)

namespace Reflects

variable {v v' : Nat → String → Option Bool}

/-- Before the first event there is nothing to see. -/
theorem nil : Reflects [] fun _ _ => none where
  found k x := by simp [Enters, entryAt?]
  ready k x b i hb := by cases hb

/-- An event that enters and stores nothing shifts the levels at most. -/
theorem shifted (hv : Reflects h v) (hentry : e.entry? = none) (htarget : e.target? = none)
    (hview : ∀ k x b, v' k x = some b ↔ ∃ m, e.shift m = some k ∧ v m x = some b) :
    Reflects (h ++ [e]) v' where
  found k x := by
    have hlevels : (v' k x).isSome = true ↔ ∃ m, e.shift m = some k ∧ (v m x).isSome = true := by
      simp only [Option.isSome_iff_exists, hview]
      exact ⟨fun ⟨b, m, hm, hb⟩ => ⟨m, hm, b, hb⟩, fun ⟨m, hm, b, hb⟩ => ⟨b, m, hm, hb⟩⟩
    simp only [hlevels, hv.found, enters_append_of_entry?_eq_none hentry]
    exact ⟨fun ⟨m, hm, i, hi⟩ => ⟨i, m, hi, hm⟩, fun ⟨i, m, hi, hm⟩ => ⟨m, hm, i, hi⟩⟩
  ready k x b i hb hlonger hfirst := by
    obtain ⟨m, hm, hbm⟩ := (hview k x b).mp hb
    obtain ⟨m', he, hm'⟩ := (enters_append_of_entry?_eq_none hentry).mp hlonger
    -- the view and the history come from the same level
    obtain rfl := Event.shift_injective hm hm'
    rw [firstAt_append (Nat.le_of_lt he.lt)] at hfirst
    rw [hasValue_append he.lt, hv.ready m x b i hbm he hfirst]
    simp [htarget]

/-- A reading changes nothing. -/
theorem read (hv : Reflects h v) (y : String) (line : Nat) : Reflects (h ++ [.read y line]) v :=
  hv.shifted rfl rfl (by simp [Event.shift])

/-- A scope that opens has nothing in it, and puts the others one level further out. -/
theorem opened (hv : Reflects h v) (hnew : ∀ x, v' 0 x = none)
    (hold : ∀ k x, v' (k + 1) x = v k x) : Reflects (h ++ [.opened]) v' := by
  refine hv.shifted rfl rfl fun k x b => ?_
  cases k with
  | zero => simp [hnew, Event.shift]
  | succ k => simp [hold, Event.shift]

/-- A scope that closes puts the others one level further in. -/
theorem closed (hv : Reflects h v) (hold : ∀ k x, v' k x = v (k + 1) x) :
    Reflects (h ++ [.closed]) v' := by
  refine hv.shifted rfl rfl fun k x b => ?_
  rw [hold]
  constructor
  · exact fun hb => ⟨k + 1, rfl, hb⟩
  · rintro ⟨m, hm, hb⟩
    cases m with
    | zero => cases hm
    | succ m =>
      cases hm
      exact hb

/-- No entry of the name is open further in than the level where it is found first. -/
theorem not_enters (hv : Reflects h v) (hnone : v k x = none) (i : Nat) : ¬ Enters h x i k := by
  intro he
  have hsome := (hv.found k x).mpr ⟨i, he⟩
  rw [hnone] at hsome
  cases hsome

/-- A store into a name that is nowhere changes nothing. -/
theorem stored_of_none (hv : Reflects h v) (hnone : ∀ k, v k x = none) (line : Nat) :
    Reflects (h ++ [.stored x line]) v where
  found k z := by
    simp [hv.found, enters_append, Event.entry?, Event.shift]
  ready k z b i hb hlonger hfirst := by
    obtain ⟨m, he, hm⟩ := (enters_append_of_entry?_eq_none rfl).mp hlonger
    cases hm
    rw [firstAt_append (Nat.le_of_lt he.lt)] at hfirst
    have hno : ¬ (Event.target? (.stored x line) = some z ∧ Denotes h z i) := by
      rintro ⟨htarget, _⟩
      cases htarget
      exact hv.not_enters (hnone k) i he
    rw [hasValue_append he.lt, or_iff_left hno]
    exact hv.ready k z b i hb he hfirst

/-- A store gives a value to what the name stands for, and to nothing else. -/
theorem stored_of_found (hv : Reflects h v) (hfound : (v k x).isSome = true)
    (hinner : ∀ m < k, v m x = none) (line : Nat)
    (hview : ∀ m z, v' m z = if m = k ∧ z = x then some true else v m z) :
    Reflects (h ++ [.stored x line]) v' where
  found m z := by
    have hsame : (v' m z).isSome = (v m z).isSome := by
      rw [hview]
      split
      · rename_i hmz
        rw [hmz.1, hmz.2, hfound]
        rfl
      · rfl
    simp [hsame, hv.found, enters_append, Event.entry?, Event.shift]
  ready m z b i hb hlonger hfirst := by
    obtain ⟨m', he, hm⟩ := (enters_append_of_entry?_eq_none rfl).mp hlonger
    cases hm
    rw [firstAt_append (Nat.le_of_lt he.lt)] at hfirst
    rw [hasValue_append he.lt]
    rw [hview] at hb
    split at hb
    · rename_i hmz
      obtain ⟨rfl, rfl⟩ := hmz
      cases hb
      -- the entry at this level is what the name stands for
      have hdenotes : Denotes h z i :=
        denotes_iff.mpr ⟨m, he, hfirst, fun n hn => hv.not_enters (hinner n hn)⟩
      simp [Event.target?, hdenotes]
    · rename_i hmz
      -- the name does not stand for an entry at another level
      have hno : ¬ (Event.target? (.stored x line) = some z ∧ Denotes h z i) := by
        rintro ⟨htarget, hdenotes⟩
        cases htarget
        obtain ⟨n, hn, _, hleast⟩ := denotes_iff.mp hdenotes
        obtain rfl : n = m := Option.some.inj (hn.2.symm.trans he.2)
        obtain ⟨j, hj⟩ := (hv.found k x).mp hfound
        rcases Nat.lt_trichotomy n k with hlt | rfl | hgt
        · exact hv.not_enters (hinner n hlt) i he
        · exact hmz ⟨rfl, rfl⟩
        · exact hleast k hgt j hj
      rw [or_iff_left hno]
      exact hv.ready m z b i hb he hfirst

section Entered

variable {entry : Entry} (hv : Reflects h v)

include hv

/-- A name that is free in the innermost scope stands for the new entry. -/
theorem entered_of_free (hfree : v 0 entry.name = none)
    (hview : ∀ k x, v' k x = if k = 0 ∧ x = entry.name then some (!entry.isBare) else v k x) :
    Reflects (h ++ [.entered entry]) v' where
  found k x := by
    rw [hview]
    split
    · rename_i hkx
      obtain ⟨rfl, rfl⟩ := hkx
      simp [enters_append_entered]
    · rename_i hkx
      have hold : ∀ i, Enters (h ++ [.entered entry]) x i k ↔ Enters h x i k := by
        intro i
        rw [enters_append_entered, or_iff_left]
        rintro ⟨_, hname, hk⟩
        exact hkx ⟨hk, hname.symm⟩
      simp only [hold, hv.found]
  ready k x b i hb hlonger hfirst := by
    rcases enters_append_entered.mp hlonger with he | ⟨rfl, rfl, rfl⟩
    -- an entry from before: the name is another one, or was entered further out
    · rw [hview, if_neg] at hb
      · rw [firstAt_append (Nat.le_of_lt he.lt)] at hfirst
        rw [hasValue_append he.lt, hv.ready k x b i hb he hfirst]
        simp [Event.target?]
      · rintro ⟨rfl, rfl⟩
        exact hv.not_enters hfree i he
    · rw [hview, if_pos ⟨rfl, rfl⟩] at hb
      cases hb
      rw [hasValue_append_length]
      simp

/-- A second entry of a name in one scope changes nothing. -/
theorem entered_of_taken (htaken : (v 0 entry.name).isSome = true) :
    Reflects (h ++ [.entered entry]) v where
  found k x := by
    simp only [hv.found, enters_append_entered]
    refine ⟨fun ⟨i, hi⟩ => ⟨i, Or.inl hi⟩, ?_⟩
    rintro ⟨i, hi | ⟨_, rfl, rfl⟩⟩
    · exact ⟨i, hi⟩
    · exact (hv.found 0 _).mp htaken
  ready k x b i hb hlonger hfirst := by
    rcases enters_append_entered.mp hlonger with he | ⟨rfl, rfl, rfl⟩
    · rw [firstAt_append (Nat.le_of_lt he.lt)] at hfirst
      rw [hasValue_append he.lt, hv.ready k x b i hb he hfirst]
      simp [Event.target?]
    -- the new entry is not the first of its scope
    · obtain ⟨j, hj⟩ := (hv.found 0 _).mp htaken
      rw [firstAt_append (Nat.le_refl _)] at hfirst
      exact absurd (by simpa using hj) (hfirst j hj.lt)

end Entered

/-- A name is visible exactly if the view has it at some level. -/
theorem visible_iff (hv : Reflects h v) : Visible h x ↔ ∃ k, (v k x).isSome = true := by
  simp only [hv.found, History.visible_iff]
  exact exists_comm

/-- A name has no value exactly if the view says so at the first level that has it. -/
theorem unset_iff (hv : Reflects h v) {b : Bool} (hb : v k x = some b)
    (hinner : ∀ m < k, v m x = none) : Unset h x ↔ b = false := by
  obtain ⟨i, hi⟩ := (hv.found k x).mp (by rw [hb]; rfl)
  rw [History.unset_iff]
  constructor
  · rintro ⟨i, hd, hno⟩
    obtain ⟨m, he, hfirst, hleast⟩ := denotes_iff.mp hd
    -- both levels are the first that have the name
    obtain rfl : m = k := by
      rcases Nat.lt_trichotomy m k with hlt | rfl | hgt
      · exact absurd he (hv.not_enters (hinner m hlt) i)
      · rfl
      · exact absurd hi (hleast k hgt _)
    rw [← hv.ready m x b i hb he hfirst] at hno
    simpa using hno
  · rintro rfl
    obtain ⟨j, hj, hfirst⟩ := hi.exists_firstAt
    refine ⟨j, denotes_iff.mpr ⟨k, hj, hfirst, fun m hm => hv.not_enters (hinner m hm)⟩, ?_⟩
    rw [← hv.ready k x false j hb hj hfirst]
    simp

end Reflects

end History

end Tercet
