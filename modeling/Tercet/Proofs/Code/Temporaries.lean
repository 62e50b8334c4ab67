import Tercet.Proofs.Code.Listing
import Tercet.Proofs.Tree.Spelling

/-!
# `Tercet.Proofs.Code.Temporaries`: each temporary is written once and read once

A temporary lives from the instruction that computes it to the instruction that takes it. The
relation `Linear` follows a listing in order with the number of the next temporary and the
numbers of those that are alive. An instruction may take what is alive, each number as often
as it is there, and may compute the next temporary, which is then alive. A label, a jump or a
return may leave nothing alive behind it.

`Stmt.linear_code` proves that the code of a statement starts and ends with nothing alive.
What a reader of a listing wants to know follows from `Linear` alone: the temporaries are
computed in the order of their numbers (`Linear.targets_eq`), what is computed is what is
taken (`Linear.balance`), and between the two there is straight code
(`Linear.exists_taken_after`). `LinearTemporaries` collects these facts.
-/

set_option autoImplicit false

namespace Tercet

namespace Instr

/-- The name into which an instruction puts a value. -/
def target? : Instr → Option String
  | .binary target _ _ _ | .copy target _ | .call target _ => some target
  | .label _ | .ifNotGoto _ _ | .goto _ | .param _ | .declare _ | .result _ => none

/-- The operands whose values an instruction takes. -/
def reads : Instr → List String
  | .binary _ left _ right => [left, right]
  | .copy _ value | .param value => [value]
  | .ifNotGoto condition _ => [condition]
  | .result value => value.toList
  | .label _ | .goto _ | .call _ _ | .declare _ => []

/-- Whether an instruction is a label, a jump or a return. -/
def isControl : Instr → Bool
  | .label _ | .ifNotGoto _ _ | .goto _ | .result _ => true
  | .binary _ _ _ _ | .copy _ _ | .param _ | .call _ _ | .declare _ => false

end Instr

/-- The names into which a listing puts values, in order. -/
def targetsOf (code : List Instr) : List String :=
  code.filterMap Instr.target?

/-- The operands that a listing takes, in order. -/
def readsOf (code : List Instr) : List String :=
  code.flatMap Instr.reads

/-- Listings in a row put values into names in a row. -/
theorem targetsOf_append (code code' : List Instr) :
    targetsOf (code ++ code') = targetsOf code ++ targetsOf code' :=
  List.filterMap_append

/-- Listings in a row take operands in a row. -/
theorem readsOf_append (code code' : List Instr) :
    readsOf (code ++ code') = readsOf code ++ readsOf code' :=
  List.flatMap_append

/-- The `n` temporaries of a listing are written once and read once each. -/
structure LinearTemporaries (code : List Instr) (n : Nat) : Prop where
  /-- Each of them is the target of exactly one instruction. -/
  definedOnce : ∀ k, k < n → (targetsOf code).count (temporary k) = 1
  /-- They are written in the order of their numbers. -/
  inOrder : ∀ {i j k m : Nat} {x y : Instr}, code[i]? = some x → code[j]? = some y →
    x.target? = some (temporary k) → y.target? = some (temporary m) → k < m → i < j
  /-- Each of them is an operand exactly once. -/
  readOnce : ∀ k, k < n → (readsOf code).count (temporary k) = 1
  /-- The instruction that reads one stands after the one that writes it, and neither label nor
  jump nor return stands between the two. -/
  straight : ∀ {i j k : Nat} {x y : Instr}, code[i]? = some x → code[j]? = some y →
    x.target? = some (temporary k) → temporary k ∈ y.reads →
    i < j ∧ ∀ m z, i < m → m < j → code[m]? = some z → z.isControl = false
  /-- No other temporary is written or read. -/
  noOthers : ∀ k, temporary k ∈ targetsOf code ∨ temporary k ∈ readsOf code → k < n

/-! ### Numbers of temporaries -/

/-- The number of the temporary that has this name. -/
def temporaryNumber? (x : String) : Option Nat :=
  let n := Nat.ofDigitChars 10 x.toList.tail 0
  if x = temporary n then some n else none

/-- The number is read from the digits and checked against the name, so other names have none. -/
theorem temporaryNumber?_eq_some_iff {x : String} {n : Nat} :
    temporaryNumber? x = some n ↔ x = temporary n := by
  simp only [temporaryNumber?]
  constructor
  · intro h
    split at h
    · rename_i hx
      rw [← Option.some.inj h]
      exact hx
    · cases h
  · rintro rfl
    -- the digits of a temporary read back as its number
    have hdigits : (temporary n).toList.tail = Nat.toDigits 10 n := by
      rw [temporary, String.toList_append, ← Nat.toList_repr]
      rfl
    rw [hdigits, Nat.ofDigitChars_ten_toDigits, if_pos rfl]

@[simp] theorem temporaryNumber?_temporary (n : Nat) :
    temporaryNumber? (temporary n) = some n :=
  temporaryNumber?_eq_some_iff.mpr rfl

/-- A name that is no temporary has no number. -/
theorem temporaryNumber?_eq_none {x : String} (h : ¬ IsTemporary x) :
    temporaryNumber? x = none := by
  rw [Option.eq_none_iff_forall_ne_some]
  intro n hn
  exact h ⟨n, temporaryNumber?_eq_some_iff.mp hn⟩

/-- The numbers of the temporaries among some operands. -/
def temporaryNumbers (xs : List String) : Multiset Nat :=
  (xs.filterMap temporaryNumber? : List Nat)

/-- Operands are counted one by one. -/
theorem temporaryNumbers_append (xs ys : List String) :
    temporaryNumbers (xs ++ ys) = temporaryNumbers xs + temporaryNumbers ys := by
  rw [temporaryNumbers, List.filterMap_append, ← Multiset.coe_add]
  rfl

/-- The first operand apart from the others. -/
theorem temporaryNumbers_cons (x : String) (xs : List String) :
    temporaryNumbers (x :: xs) = temporaryNumbers [x] + temporaryNumbers xs :=
  temporaryNumbers_append [x] xs

@[simp] theorem temporaryNumbers_temporary (n : Nat) : temporaryNumbers [temporary n] = {n} := by
  simp [temporaryNumbers]

/-- Names and numbers of the source count for nothing. -/
theorem temporaryNumbers_of_not_isTemporary {x : String} (h : ¬ IsTemporary x) :
    temporaryNumbers [x] = 0 := by
  simp [temporaryNumbers, temporaryNumber?_eq_none h]

/-- A number is there if its temporary is. -/
theorem mem_temporaryNumbers {xs : List String} {n : Nat} :
    n ∈ temporaryNumbers xs ↔ temporary n ∈ xs := by
  rw [temporaryNumbers, Multiset.mem_coe, List.mem_filterMap]
  constructor
  · rintro ⟨x, hx, hn⟩
    rwa [← temporaryNumber?_eq_some_iff.mp hn]
  · intro hx
    exact ⟨_, hx, temporaryNumber?_temporary n⟩

/-- It is there as often as its temporary. -/
theorem count_temporaryNumbers (xs : List String) (n : Nat) :
    (temporaryNumbers xs).count n = xs.count (temporary n) := by
  rw [temporaryNumbers, Multiset.coe_count, List.count_filterMap]
  show _ = xs.countP (· == temporary n)
  congr 1
  funext x
  rw [Bool.eq_iff_iff, beq_iff_eq, beq_iff_eq]
  exact temporaryNumber?_eq_some_iff

namespace Instr

/-- The number of the temporary that an instruction computes. -/
def given? (i : Instr) : Option Nat :=
  i.target?.bind temporaryNumber?

/-- The number of the temporary that an instruction computes, if it computes one. -/
def given (i : Instr) : Multiset Nat :=
  (i.given?.toList : List Nat)

/-- The numbers of the temporaries that an instruction takes. -/
def taken (i : Instr) : Multiset Nat :=
  temporaryNumbers i.reads

/-- What an instruction computes, seen as the operands are. -/
theorem given_eq (i : Instr) : i.given = temporaryNumbers i.target?.toList := by
  rw [given, given?, temporaryNumbers]
  cases hx : i.target? with
  | none => rfl
  | some x => cases hn : temporaryNumber? x <;> simp [hn]

/-- An instruction computes a temporary if that is its target. -/
theorem given?_eq_some_iff {i : Instr} {n : Nat} :
    i.given? = some n ↔ i.target? = some (temporary n) := by
  rw [given?, Option.bind_eq_some_iff]
  constructor
  · rintro ⟨x, hx, hn⟩
    rw [hx, temporaryNumber?_eq_some_iff.mp hn]
  · intro h
    exact ⟨_, h, temporaryNumber?_temporary n⟩

end Instr

/-! ### Following what is alive -/

/-- From next temporary `n` and the numbers `live` the code leads to next temporary `n'` and
the numbers `live'`. An instruction takes its operands first, and then what it computes is
alive. -/
inductive Linear : Nat → Multiset Nat → List Instr → Nat → Multiset Nat → Prop
  | nil (n : Nat) (live : Multiset Nat) : Linear n live [] n live
  | cons {i : Instr} {code : List Instr} {n n' : Nat} {live live' : Multiset Nat}
      (hgiven : ∀ k, i.given? = some k → k = n) (hcontrol : i.isControl = true → live = 0)
      (h : Linear (n + i.given.card) (i.given + live) code n' live') :
      Linear n (i.taken + live) (i :: code) n' live'

namespace Linear

variable {code code' : List Instr} {n n' m k : Nat} {live live' rest : Multiset Nat}

/-- An instruction that computes no temporary. -/
theorem use (i : Instr) (n : Nat) (live : Multiset Nat) (hgiven : i.given? = none)
    (hcontrol : i.isControl = true → live = 0) : Linear n (i.taken + live) [i] n live := by
  have hnone : i.given = 0 := by rw [Instr.given, hgiven]; rfl
  refine .cons (fun k hk => ?_) hcontrol ?_
  · rw [hgiven] at hk
    cases hk
  · rw [hnone, Multiset.card_zero, zero_add]
    exact .nil n live

/-- An instruction that computes the next temporary. -/
theorem give (i : Instr) (n : Nat) (live : Multiset Nat) (hgiven : i.given? = some n)
    (hcontrol : i.isControl = false) : Linear n (i.taken + live) [i] (n + 1) ({n} + live) := by
  have hone : i.given = {n} := by rw [Instr.given, hgiven]; rfl
  refine .cons (fun k hk => Option.some.inj (hk.symm.trans hgiven)) (fun h => ?_) ?_
  · rw [hcontrol] at h
    cases h
  · rw [hone, Multiset.card_singleton]
    exact .nil _ _

/-- What one part of a listing leaves alive, the next one starts with. -/
theorem append (h : Linear n live code m rest) (h' : Linear m rest code' n' live') :
    Linear n live (code ++ code') n' live' := by
  induction h with
  | nil => exact h'
  | cons hgiven hcontrol _ ih => exact .cons hgiven hcontrol (ih h')

/-- A listing can be followed up to any place, and from there on. -/
theorem split (h : Linear n live (code ++ code') n' live') :
    ∃ m rest, Linear n live code m rest ∧ Linear m rest code' n' live' := by
  induction code generalizing n live with
  | nil => exact ⟨n, live, .nil n live, h⟩
  | cons i code ih =>
      cases h with
      | cons hgiven hcontrol h =>
          obtain ⟨m, rest, hfirst, hsecond⟩ := ih h
          exact ⟨m, rest, .cons hgiven hcontrol hfirst, hsecond⟩

/-- Temporaries are computed in the order of their numbers. -/
theorem targets_eq (h : Linear n live code n' live') :
    n ≤ n' ∧ code.filterMap Instr.given? = List.range' n (n' - n) := by
  induction h with
  | nil => simp
  | @cons i code n n' _ _ hgiven _ _ ih =>
      obtain ⟨hle, ih⟩ := ih
      cases hk : i.given? with
      | none =>
          have hcard : i.given.card = 0 := by rw [Instr.given, hk]; rfl
          rw [hcard, Nat.add_zero] at hle ih
          exact ⟨hle, by rw [List.filterMap_cons_none hk, ih]⟩
      -- this one is the next number, and those behind it start one further on
      | some k =>
          have hcard : i.given.card = 1 := by rw [Instr.given, hk]; rfl
          rw [hcard] at hle ih
          have hlength : n' - n = n' - (n + 1) + 1 := by omega
          refine ⟨by omega, ?_⟩
          rw [List.filterMap_cons_some hk, ih, hgiven k hk, hlength, List.range'_succ]

/-- What is taken, and what is alive in the end, is what was alive before and what is
computed. -/
theorem balance (h : Linear n live code n' live') :
    temporaryNumbers (readsOf code) + live' = live + temporaryNumbers (targetsOf code) := by
  induction h with
  | nil => simp [readsOf, targetsOf, temporaryNumbers]
  | @cons i code n n' live live' _ _ _ ih =>
      -- the first instruction on both sides of the balance
      have hreads : temporaryNumbers (readsOf (i :: code))
          = i.taken + temporaryNumbers (readsOf code) := by
        rw [readsOf, List.flatMap_cons, temporaryNumbers_append]
        rfl
      have htargets : temporaryNumbers (targetsOf (i :: code))
          = i.given + temporaryNumbers (targetsOf code) := by
        rw [Instr.given_eq, ← temporaryNumbers_append]
        congr 1
        rw [targetsOf, List.filterMap_cons]
        cases i.target? <;> rfl
      rw [hreads, htargets, add_assoc, ih]
      abel

/-- What is alive, and is not alive in the end, is taken, and up to there the code is
straight. -/
theorem exists_taken (h : Linear n live code n' live') (hk : k ∈ live) (hk' : k ∉ live') :
    ∃ (j : Nat) (y : Instr), code[j]? = some y ∧ k ∈ y.taken ∧
      ∀ (m : Nat) (z : Instr), m < j → code[m]? = some z → z.isControl = false := by
  induction h with
  | nil => exact absurd hk hk'
  | @cons i code n n' live live' _ hcontrol _ ih =>
      by_cases htaken : k ∈ i.taken
      -- taken at once, with nothing in between
      · exact ⟨0, i, rfl, htaken, fun m z hm => absurd hm (Nat.not_lt_zero m)⟩
      · have hlive : k ∈ live := (Multiset.mem_add.mp hk).resolve_left htaken
        obtain ⟨j, y, hy, hread, hstraight⟩ := ih (Multiset.mem_add.mpr (Or.inr hlive)) hk'
        refine ⟨j + 1, y, hy, hread, ?_⟩
        intro m z hm hz
        cases m with
        | zero =>
            -- a label or a jump here would leave `k` alive behind it
            cases hz
            rw [Bool.eq_false_iff]
            intro hi
            rw [hcontrol hi] at hlive
            exact absurd hlive (Multiset.notMem_zero k)
        | succ m => exact hstraight m z (by omega) hz

/-- What holds at one position: up to there and from there on the code is followed, and a
temporary that is computed there is the next one. -/
theorem split_at (h : Linear n live code n' live') {i : Nat} {x : Instr}
    (hx : code[i]? = some x) :
    ∃ m rest, Linear n live (code.take i) m (x.taken + rest) ∧
      (∀ k, x.given? = some k → k = m) ∧
      Linear (m + x.given.card) (x.given + rest) (code.drop (i + 1)) n' live' := by
  obtain ⟨hlt, hget⟩ := List.getElem?_eq_some_iff.mp hx
  have hsplit : code = code.take i ++ x :: code.drop (i + 1) := by
    rw [← hget, List.cons_getElem_drop_succ, List.take_append_drop]
  rw [hsplit] at h
  obtain ⟨m, rest, hbefore, hafter⟩ := h.split
  cases hafter with
  | cons hgiven _ hafter => exact ⟨m, _, hbefore, hgiven, hafter⟩

/-- A temporary that is computed, and is not alive in the end, is taken further on, and up to
there the code is straight. -/
theorem exists_taken_after (h : Linear n live code n' live') {i : Nat} {x : Instr}
    (hx : code[i]? = some x) (hk : x.given? = some k) (hk' : k ∉ live') :
    ∃ (j : Nat) (y : Instr), i < j ∧ code[j]? = some y ∧ k ∈ y.taken ∧
      ∀ (m : Nat) (z : Instr), i < m → m < j → code[m]? = some z → z.isControl = false := by
  obtain ⟨m, rest, _, _, hafter⟩ := h.split_at hx
  have hlive : k ∈ x.given + rest := by
    rw [Multiset.mem_add, Instr.given, hk]
    exact Or.inl (Multiset.mem_singleton_self k)
  obtain ⟨j, y, hy, htaken, hstraight⟩ := hafter.exists_taken hlive hk'
  rw [List.getElem?_drop] at hy
  refine ⟨i + 1 + j, y, by omega, hy, htaken, ?_⟩
  intro m z him hmj hz
  refine hstraight (m - (i + 1)) z (by omega) ?_
  rw [List.getElem?_drop, Nat.add_sub_cancel' (by omega)]
  exact hz

/-- Of two temporaries the one of the smaller number is computed first. -/
theorem lt_of_given_lt (h : Linear n live code n' live') {i j : Nat} {x y : Instr}
    (hx : code[i]? = some x) (hy : code[j]? = some y) (hk : x.given? = some k)
    (hm : y.given? = some m) (hkm : k < m) : i < j := by
  by_contra hij
  obtain ⟨next, rest, hbefore, hgiven, _⟩ := h.split_at hx
  have hnext : k = next := hgiven k hk
  rcases Nat.eq_or_lt_of_le (Nat.le_of_not_lt hij) with rfl | hji
  · rw [hx] at hy
    cases hy
    rw [hk] at hm
    cases hm
    omega
  -- what is computed before position `i` has smaller numbers than `k`
  · have hmem : m ∈ (code.take i).filterMap Instr.given? := by
      refine List.mem_filterMap.mpr ⟨y, List.mem_of_getElem? (i := j) ?_, hm⟩
      rw [List.getElem?_take_of_lt hji]
      exact hy
    rw [hbefore.targets_eq.2, List.mem_range'_1] at hmem
    omega

end Linear

/-- A name that stands once in the rows of a list stands in one row only. -/
theorem eq_of_count_flatMap_le_one {α : Type} {f : α → List String} {items : List α}
    {name : String} (h : (items.flatMap f).count name ≤ 1) {i j : Nat} {x y : α}
    (hi : items[i]? = some x) (hj : items[j]? = some y) (hx : name ∈ f x) (hy : name ∈ f y) :
    i = j := by
  by_contra hne
  wlog hlt : i < j generalizing i j x y with hsymm
  · exact hsymm hj hi hy hx (Ne.symm hne) (by omega)
  obtain ⟨hlength, hget⟩ := List.getElem?_eq_some_iff.mp hj
  have hsplit : items = items.take j ++ y :: items.drop (j + 1) := by
    rw [← hget, List.cons_getElem_drop_succ, List.take_append_drop]
  have hmem : name ∈ (items.take j).flatMap f := by
    refine List.mem_flatMap.mpr ⟨x, List.mem_of_getElem? (i := i) ?_, hx⟩
    rw [List.getElem?_take_of_lt hlt]
    exact hi
  have hbefore := List.count_pos_iff.mpr hmem
  have hthere := List.count_pos_iff.mpr hy
  rw [hsplit, List.flatMap_append, List.flatMap_cons, List.count_append, List.count_append] at h
  omega

/-- Code that starts and ends with nothing alive writes and reads each of its temporaries
once. -/
theorem Linear.linearTemporaries {code : List Instr} {n : Nat} (h : Linear 0 0 code n 0) :
    LinearTemporaries code n := by
  have htargets : temporaryNumbers (targetsOf code) = (List.range' 0 n : List Nat) := by
    rw [temporaryNumbers, targetsOf, List.filterMap_filterMap, ← Nat.sub_zero n,
      ← h.targets_eq.2]
    rfl
  have hreads : temporaryNumbers (readsOf code) = (List.range' 0 n : List Nat) := by
    have hbalance := h.balance
    rwa [htargets, add_zero, zero_add] at hbalance
  have hcount : ∀ k < n, ((List.range' 0 n : List Nat) : Multiset Nat).count k = 1 := by
    intro k hk
    rw [Multiset.coe_count]
    exact List.count_eq_one_of_mem List.nodup_range' (List.mem_range'_1.mpr (by omega))
  have hreadOnce : ∀ k < n, (readsOf code).count (temporary k) = 1 := by
    intro k hk
    rw [← count_temporaryNumbers, hreads, hcount k hk]
  have hothers : ∀ k, temporary k ∈ targetsOf code ∨ temporary k ∈ readsOf code → k < n := by
    intro k hk
    rw [← mem_temporaryNumbers, ← mem_temporaryNumbers, htargets, hreads, or_self,
      Multiset.mem_coe, List.mem_range'_1] at hk
    omega
  refine ⟨?_, ?_, hreadOnce, ?_, hothers⟩
  -- both counts are those of the numbers below `n`
  · intro k hk
    rw [← count_temporaryNumbers, htargets, hcount k hk]
  · intro i j k m x y hx hy hk hm
    exact h.lt_of_given_lt hx hy (Instr.given?_eq_some_iff.mpr hk)
      (Instr.given?_eq_some_iff.mpr hm)
  · intro i j k x y hx hy hk hread
    obtain ⟨j', y', hij, hy', htaken, hstraight⟩ :=
      h.exists_taken_after hx (Instr.given?_eq_some_iff.mpr hk) (Multiset.notMem_zero k)
    have hkn : k < n := hothers k (Or.inr (List.mem_flatMap.mpr
      ⟨y, List.mem_of_getElem? hy, hread⟩))
    -- the temporary is read once, so it is read where it is taken
    obtain rfl : j' = j := eq_of_count_flatMap_le_one (hreadOnce k hkn).le hy' hy
      (mem_temporaryNumbers.mp htaken) hread
    exact ⟨hij, hstraight⟩

/-! ### The code of a tree -/

/-- A slot with no temporary in it. -/
def Slot.NoTemporary (s : Slot) : Prop :=
  ∀ x ∈ s.text, ¬ IsTemporary x

/-- An instruction whose target is a name of the source computes no temporary. -/
theorem Instr.given?_eq_none {i : Instr} (h : ∀ x, i.target? = some x → ¬ IsTemporary x) :
    i.given? = none := by
  rw [Option.eq_none_iff_forall_ne_some]
  intro n hn
  exact h _ (Instr.given?_eq_some_iff.mp hn) ⟨n, rfl⟩

namespace Linear

variable {code : List Instr} {n n' m : Nat} {live live' rest : Multiset Nat}

/-- Counts and what is alive may be written in another form. -/
theorem of_eq (h : Linear n live code n' live') (hn : n' = m) (hlive : live' = rest) :
    Linear n live code m rest :=
  hn ▸ hlive ▸ h

/-- A join takes its two operands and leaves the next temporary. -/
theorem join (left : String) (op : BinaryOp) (right : String) (n : Nat) (live : Multiset Nat) :
    Linear n (temporaryNumbers [right] + (temporaryNumbers [left] + live))
      [.binary (temporary n) left op right] (n + 1)
      (temporaryNumbers [temporary n] + live) := by
  have htaken : (Instr.binary (temporary n) left op right).taken + live
      = temporaryNumbers [right] + (temporaryNumbers [left] + live) := by
    rw [Instr.taken, Instr.reads, temporaryNumbers_cons]
    abel
  rw [← htaken, temporaryNumbers_temporary]
  exact give _ n live (Instr.given?_eq_some_iff.mpr rfl) rfl

/-- A copy into a name of the source takes its operand and leaves nothing. -/
theorem copy {target : String} (htarget : ¬ IsTemporary target) (value : String) (n : Nat)
    (live : Multiset Nat) :
    Linear n (temporaryNumbers [value] + live) [.copy target value] n live :=
  use (.copy target value) n live
    (Instr.given?_eq_none fun _ hx => Option.some.inj hx ▸ htarget) (fun h => by cases h)

/-- Handing over takes the operands in order. -/
theorem params (values : List String) (n : Nat) (live : Multiset Nat) :
    Linear n (temporaryNumbers values + live) (values.map .param) n live := by
  induction values with
  | nil =>
      rw [show temporaryNumbers [] + live = live from zero_add live]
      exact .nil n live
  | cons v values ih =>
      rw [temporaryNumbers_cons, add_assoc]
      exact (use (.param v) n _ rfl (fun h => by cases h)).append ih

/-- A call takes nothing by itself, since its operands have been handed over, and leaves the next
temporary. -/
theorem call (name : String) (n : Nat) (live : Multiset Nat) :
    Linear n live [.call (temporary n) name] (n + 1)
      (temporaryNumbers [temporary n] + live) := by
  have htaken : (Instr.call (temporary n) name).taken + live = live := zero_add live
  rw [temporaryNumbers_temporary]
  nth_rewrite 1 [← htaken]
  exact give _ n live (Instr.given?_eq_some_iff.mpr rfl) rfl

/-- A store that joins computes one temporary and takes it at once. -/
theorem store {target : String} (htarget : ¬ IsTemporary target) (op : AssignOp)
    (value : String) (n : Nat) (live : Multiset Nat) :
    Linear n (temporaryNumbers [value] + live) (storeCode n target op value)
      (n + op.temporaryCount) live := by
  unfold storeCode AssignOp.temporaryCount
  cases op.joined? with
  | none => exact copy htarget value n live
  | some binary =>
      have hjoin := join target binary value n live
      rw [temporaryNumbers_of_not_isTemporary htarget, zero_add] at hjoin
      exact hjoin.append (copy htarget _ _ _)

/-- Behind a label nothing is alive. -/
theorem label (name : String) (n : Nat) : Linear n 0 [.label name] n 0 :=
  use (.label name) n 0 rfl (fun _ => rfl)

/-- Nor is there behind a jump. -/
theorem goto (name : String) (n : Nat) : Linear n 0 [.goto name] n 0 :=
  use (.goto name) n 0 rfl (fun _ => rfl)

end Linear

mutual

/-- The code of an expression leaves one more operand alive. -/
theorem Expr.linear_code {e : Expr} (he : ∀ s ∈ e.slots, s.NoTemporary) (t : Nat)
    (live : Multiset Nat) :
    Linear t live (e.code t) (t + e.temporaryCount)
      (temporaryNumbers [e.operand t] + live) := by
  match e with
  | .term x => exact x.linear_code he t live
  | .binary left op right =>
    rw [Expr.slots, List.forall_mem_append, List.forall_mem_cons] at he
    -- the left operand stays alive through the code of the right one
    refine ((left.linear_code he.1 t live).append
      ((right.linear_code he.2.2 _ _).append (.join _ op _ _ _))).of_eq ?_ rfl
    rw [Expr.temporaryCount]
    omega

/-- So does that of a term. -/
theorem Term.linear_code {x : Term} (hx : ∀ s ∈ x.slots, s.NoTemporary) (t : Nat)
    (live : Multiset Nat) :
    Linear t live (x.code t) (t + x.temporaryCount)
      (temporaryNumbers [x.operand t] + live) := by
  match x with
  | .factor f => exact f.linear_code hx t live
  | .binary left op right =>
    rw [Term.slots, List.forall_mem_append, List.forall_mem_cons] at hx
    refine ((left.linear_code hx.1 t live).append
      ((right.linear_code hx.2.2 _ _).append (.join _ op _ _ _))).of_eq ?_ rfl
    rw [Term.temporaryCount]
    omega

/-- So does that of a factor. The operands of arguments are alive until they are handed over. -/
theorem Factor.linear_code {f : Factor} (hf : ∀ s ∈ f.slots, s.NoTemporary) (t : Nat)
    (live : Multiset Nat) :
    Linear t live (f.code t) (t + f.temporaryCount)
      (temporaryNumbers [f.operand t] + live) := by
  match f with
  | .number text _ | .ident text _ =>
    -- the operand is a text of the source, so it keeps no temporary alive
    rw [Factor.slots, List.forall_mem_singleton] at hf
    rw [Factor.operand, temporaryNumbers_of_not_isTemporary (hf text rfl), zero_add]
    exact .nil t live
  | .group inner _ =>
    rw [Factor.slots, List.forall_mem_cons, List.forall_mem_append] at hf
    exact inner.linear_code hf.2.1 t live
  | .call name arguments _ =>
    have hslots : ∀ e ∈ arguments, ∀ s ∈ e.slots, s.NoTemporary := by
      intro e he s hs
      refine hf s (List.mem_cons_of_mem _ (List.mem_cons_of_mem _ (List.mem_append_left _ ?_)))
      rw [argumentSlots_eq_map]
      exact Slot.mem_separated (List.mem_map_of_mem he) hs
    exact (linear_argumentCode hslots t live).append
      ((Linear.params _ _ live).append (.call name _ live))

/-- The code of arguments leaves one operand alive for each. -/
theorem linear_argumentCode {es : List Expr}
    (hes : ∀ e ∈ es, ∀ s ∈ e.slots, s.NoTemporary) (t : Nat) (live : Multiset Nat) :
    Linear t live (argumentCode t es) (t + argumentTemporaryCount es)
      (temporaryNumbers (argumentOperands t es) + live) := by
  match es with
  | [] =>
    rw [show temporaryNumbers (argumentOperands t []) + live = live from zero_add live]
    exact .nil t live
  | e :: es =>
    rw [List.forall_mem_cons] at hes
    refine ((e.linear_code hes.1 t live).append (linear_argumentCode hes.2 _ _)).of_eq ?_ ?_
    · rw [argumentTemporaryCount]
      omega
    · rw [argumentOperands, temporaryNumbers_cons _ (argumentOperands _ es)]
      abel

end

/-- The store takes what the value has left. -/
theorem Assignment.linear_code {a : Assignment} (ha : ∀ s ∈ a.slots, s.NoTemporary) (t : Nat) :
    Linear t 0 (a.code t) (t + a.temporaryCount) 0 := by
  rw [Assignment.slots, List.forall_mem_cons, List.forall_mem_cons] at ha
  refine ((a.value.linear_code ha.2.2 t 0).append
    (.store (ha.1 a.target rfl) a.op _ _ 0)).of_eq ?_ rfl
  rw [Assignment.temporaryCount]
  omega

/-- So does the copy into a declared name. -/
theorem Declarator.linear_code {d : Declarator} (hd : ∀ s ∈ d.slots, s.NoTemporary) (t : Nat) :
    Linear t 0 (d.code t) (t + d.temporaryCount) 0 := by
  obtain ⟨name, initializer⟩ := d
  cases initializer with
  | none => exact .use (.declare name) t 0 rfl (fun h => by cases h)
  | some e =>
      rw [show Declarator.slots ⟨name, some e⟩ = Slot.word name :: Slot.mark .assign :: e.slots
        from rfl, List.forall_mem_cons, List.forall_mem_cons] at hd
      exact (e.linear_code hd.2.2 t 0).append (.copy (hd.1 name rfl) _ _ 0)

/-- Between two declared names nothing is alive. -/
theorem linear_declaratorCode {ds : List Declarator}
    (hds : ∀ d ∈ ds, ∀ s ∈ d.slots, s.NoTemporary) (t : Nat) :
    Linear t 0 (declaratorCode t ds) (t + declaratorTemporaryCount ds) 0 := by
  induction ds generalizing t with
  | nil => exact .nil t 0
  | cons d ds ih =>
      rw [List.forall_mem_cons] at hds
      refine ((d.linear_code hds.1 t).append (ih hds.2 _)).of_eq ?_ rfl
      rw [declaratorTemporaryCount]
      omega

/-- The names of a declaration stand in its slots. -/
theorem Declaration.linear_code {d : Declaration} (hd : ∀ s ∈ d.slots, s.NoTemporary)
    (t : Nat) : Linear t 0 (d.code t) (t + d.temporaryCount) 0 := by
  refine linear_declaratorCode (fun x hx s hs => hd s (List.mem_cons_of_mem _ ?_)) t
  exact Slot.mem_separated (List.mem_map_of_mem hx) hs

/-- The start of a loop ends with nothing alive. -/
theorem ForInit.linear_code {init : Option ForInit}
    (hinit : ∀ s ∈ optionSlots ForInit.slots init, s.NoTemporary) (t : Nat) :
    Linear t 0 (ForInit.code t init) (t + ForInit.temporaryCount init) 0 := by
  match init with
  | some (.declaration d) => exact d.linear_code hinit t
  | some (.assignment a) => exact a.linear_code hinit t
  | none => exact .nil t 0

/-- A number that is no name is alive nowhere. -/
theorem temporaryNumbers_one : temporaryNumbers ["1"] = 0 := by
  decide

/-- So does its step, which joins a number to a name. -/
theorem ForStep.linear_code {step : Option ForStep}
    (hstep : ∀ s ∈ optionSlots ForStep.slots step, s.NoTemporary) (t : Nat) :
    Linear t 0 (ForStep.code t step) (t + ForStep.temporaryCount step) 0 := by
  match step with
  | some (.increment target _) =>
    have htarget := hstep _ List.mem_cons_self target rfl
    have hstore := Linear.store htarget .add "1" t 0
    rwa [temporaryNumbers_one, zero_add] at hstore
  | some (.decrement target _) =>
    have htarget := hstep _ List.mem_cons_self target rfl
    have hstore := Linear.store htarget .sub "1" t 0
    rwa [temporaryNumbers_one, zero_add] at hstore
  | some (.assignment a) => exact a.linear_code hstep t
  | none => exact .nil t 0

/-- The jump takes the condition. -/
theorem linear_testCode {e : Expr} (he : ∀ s ∈ e.slots, s.NoTemporary) (t : Nat)
    (label : String) : Linear t 0 (testCode t e label) (t + e.temporaryCount) 0 :=
  (e.linear_code he t 0).append (.use (.ifNotGoto _ label) _ 0 rfl (fun _ => rfl))

/-- A condition that is left out leaves nothing to take. -/
theorem linear_conditionCode {condition : Option Expr}
    (hcond : ∀ s ∈ optionSlots Expr.slots condition, s.NoTemporary) (t : Nat)
    (label : String) :
    Linear t 0 (conditionCode t condition label) (t + conditionTemporaryCount condition) 0 := by
  match condition with
  | some e => exact linear_testCode hcond t label
  | none => exact .nil t 0

mutual

/-- The code of a statement starts and ends with nothing alive. -/
theorem Stmt.linear_code {s : Stmt} (hs : ∀ x ∈ s.slots, x.NoTemporary) (t l : Nat) :
    Linear t 0 (s.code t l) (t + s.temporaryCount) 0 := by
  match s with
  | .block body _ =>
    rw [Stmt.slots, List.forall_mem_cons, List.forall_mem_append] at hs
    exact linear_codeAll hs.2.1 t l
  | .declaration d =>
    rw [Stmt.slots, List.forall_mem_append] at hs
    exact d.linear_code hs.1 t
  | .assignment a =>
    rw [Stmt.slots, List.forall_mem_append] at hs
    exact a.linear_code hs.1 t
  -- nothing is alive between the parts, and the counts of temporaries add up
  | .ifThen condition body _ =>
    simp only [Stmt.slots, conditionSlots, List.forall_mem_cons, List.forall_mem_append] at hs
    obtain ⟨_, ⟨_, hcond, _⟩, hbody⟩ := hs
    refine ((linear_testCode hcond t _).append
      ((body.linear_code hbody _ _).append (.label _ _))).of_eq ?_ rfl
    rw [Stmt.temporaryCount]
    omega
  | .ifElse condition onTrue onFalse _ =>
    simp only [Stmt.slots, conditionSlots, List.forall_mem_cons, List.forall_mem_append] at hs
    obtain ⟨_, ⟨_, hcond, _⟩, htrue, _, hfalse⟩ := hs
    refine ((linear_testCode hcond t _).append ((onTrue.linear_code htrue _ _).append
      ((Linear.goto _ _).append ((Linear.label _ _).append
        ((onFalse.linear_code hfalse _ _).append (.label _ _)))))).of_eq ?_ rfl
    rw [Stmt.temporaryCount]
    omega
  | .whileLoop condition body _ =>
    simp only [Stmt.slots, conditionSlots, List.forall_mem_cons, List.forall_mem_append] at hs
    obtain ⟨_, ⟨_, hcond, _⟩, hbody⟩ := hs
    refine ((Linear.label _ t).append ((linear_testCode hcond t _).append
      ((body.linear_code hbody _ _).append
        ((Linear.goto _ _).append (.label _ _))))).of_eq ?_ rfl
    rw [Stmt.temporaryCount]
    omega
  | .forLoop init condition step body _ =>
    simp only [Stmt.slots, List.forall_mem_cons, List.forall_mem_append] at hs
    obtain ⟨_, _, hinit, _, hcond, _, hstep, _, hbody⟩ := hs
    refine ((ForInit.linear_code hinit t).append ((Linear.label _ _).append
      ((linear_conditionCode hcond _ _).append ((body.linear_code hbody _ _).append
        ((ForStep.linear_code hstep _).append
          ((Linear.goto _ _).append (.label _ _))))))).of_eq ?_ rfl
    rw [Stmt.temporaryCount]
    omega
  | .function signature body _ =>
    rw [Stmt.slots, List.forall_mem_append, List.forall_mem_cons, List.forall_mem_append] at hs
    exact (Linear.label _ t).append (linear_codeAll hs.2.2.1 t l)
  | .prototype _ => exact .nil t 0
  | .result none _ => exact .use (.result none) t 0 rfl (fun _ => rfl)
  | .result (some e) _ =>
    rw [Stmt.slots, List.forall_mem_cons, List.forall_mem_append] at hs
    exact (e.linear_code hs.2.1 t 0).append (.use (.result (some _)) _ 0 rfl (fun _ => rfl))

/-- The code of a row of statements starts and ends with nothing alive. -/
theorem linear_codeAll {row : List Stmt} (hrow : ∀ x ∈ rowSlots row, x.NoTemporary)
    (t l : Nat) : Linear t 0 (codeAll t l row) (t + temporaryCountAll row) 0 := by
  match row with
  | [] => exact .nil t 0
  | s :: more =>
    rw [rowSlots, List.forall_mem_append] at hrow
    refine ((s.linear_code hrow.1 t l).append (linear_codeAll hrow.2 _ _)).of_eq ?_ rfl
    rw [temporaryCountAll]
    omega

end

/-- A program with no temporary among its names and numbers writes and reads each of its
temporaries once. -/
theorem Program.linearTemporaries_code {p : Program} (hp : ∀ s ∈ p.slots, s.NoTemporary) :
    LinearTemporaries p.code p.temporaryCount := by
  have hlinear := linear_codeAll hp 0 0
  rw [Nat.zero_add] at hlinear
  exact hlinear.linearTemporaries

end Tercet
