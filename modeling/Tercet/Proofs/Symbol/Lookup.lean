import Tercet.Symbol.Table

/-!
# `Tercet.Proofs.Symbol.Lookup`: what names stand for after a change

A table is seen through one question: what does a name stand for in the scope at a given
level, counted from the innermost (`Table.at?`)? Each operation on scopes and tables is
described by the answers after it. A declaration changes the answer for its name at level 0,
opening and closing a scope shifts the levels, and a change of what a name stands for is one
at the first level that has the name (`ResolvesAt`).
-/

set_option autoImplicit false

namespace Tercet

/-! ### One scope -/

namespace Scope

variable {s s' : Scope} {x : String} {y : Symbol}

/-- An empty scope has no name. -/
@[simp] theorem get?_empty : empty.get? x = none := by
  simp [get?, empty]

/-- The one symbol of a scope with a given name. -/
theorem get?_name_of_mem (h : y ∈ s.toList) : s.get? y.name = some y :=
  get?_eq_some_iff.mpr ⟨h, rfl⟩

/-- A symbol is found under its own name. -/
theorem name_of_get? (h : s.get? x = some y) : y.name = x :=
  (get?_eq_some_iff.mp h).2

/-- A name stands for the first symbol that has it. -/
theorem get?_eq_find? (s : Scope) (name : String) :
    s.get? name = s.toList.find? fun x => x.name = name := by
  cases hget : s.get? name with
  | none =>
    symm
    rw [List.find?_eq_none]
    intro x hx hname
    have hsome : s.get? name = some x := get?_eq_some_iff.mpr ⟨hx, by simpa using hname⟩
    rw [hget] at hsome
    cases hsome
  | some x =>
    obtain ⟨hx, hname⟩ := get?_eq_some_iff.mp hget
    -- something is found, and it has the name as well
    cases hfind : s.toList.find? fun x => x.name = name with
    | none => exact absurd hname (by simpa using List.find?_eq_none.mp hfind x hx)
    | some y =>
      have hsome : s.get? name = some y :=
        get?_eq_some_iff.mpr ⟨List.mem_of_find?_eq_some hfind, by
          simpa using List.find?_some hfind⟩
      rw [hget] at hsome
      exact hsome

/-- A symbol can be added if its name is free. -/
theorem isSome_insert? : (s.insert? y).isSome = (s.get? y.name).isNone := by
  rw [insert?]
  split
  · rename_i h
    rw [contains_eq_isSome_get?] at h
    simpa using h
  · rename_i h
    rw [contains_eq_isSome_get?] at h
    simpa using h

/-- After that its name stands for it, and the others for what they stood for. -/
theorem get?_insert? (h : s.insert? y = some s') :
    s'.get? x = if x = y.name then some y else s.get? x := by
  have hfree : s.get? y.name = none := by
    have hsome : (s.insert? y).isSome = true := by rw [h]; rfl
    rwa [isSome_insert?, Option.isNone_iff_eq_none] at hsome
  split
  · rename_i hx
    subst hx
    exact get?_name_of_mem (by simp [toList_insert? h])
  · rename_i hx
    refine Option.ext fun z => ?_
    rw [get?_eq_some_iff, get?_eq_some_iff, toList_insert? h, List.mem_append,
      List.mem_singleton]
    refine and_congr_left fun hz => or_iff_left ?_
    rintro rfl
    exact hx hz.symm

/-- A symbol can take the place of another if its name is taken. -/
theorem isSome_replace? : (s.replace? y).isSome = (s.get? y.name).isSome := by
  rw [← contains_eq_isSome_get?, contains, ← Std.TreeMap.isSome_getElem?_eq_contains, replace?]
  split
  · rename_i h
    simp [h]
  · rename_i h
    simp [h]

/-- After that its name stands for it, and the others for what they stood for. -/
theorem get?_replace? (h : s.replace? y = some s') :
    s'.get? x = if x = y.name then some y else s.get? x := by
  have htaken : (s.get? y.name).isSome = true := by
    rw [← isSome_replace?, h]
    rfl
  obtain ⟨old, hold⟩ := Option.isSome_iff_exists.mp htaken
  obtain ⟨hmem, hname⟩ := get?_eq_some_iff.mp hold
  split
  · rename_i hx
    subst hx
    refine get?_name_of_mem ?_
    rw [toList_replace? h]
    exact List.mem_map.mpr ⟨old, hmem, by simp [hname]⟩
  · rename_i hx
    refine Option.ext fun z => ?_
    rw [get?_eq_some_iff, get?_eq_some_iff, toList_replace? h, List.mem_map]
    constructor
    -- a symbol of another name is one from before
    · rintro ⟨⟨w, hw, rfl⟩, hz⟩
      split at hz
      · exact absurd hz.symm hx
      · rename_i hne
        simp only [hne, if_false]
        exact ⟨hw, hz⟩
    · rintro ⟨hz, hname'⟩
      refine ⟨⟨z, hz, ?_⟩, hname'⟩
      rw [if_neg]
      rintro hsame
      exact hx (hname'.symm.trans hsame)

/-- Putting a symbol in its own place changes nothing. -/
theorem replace?_eq_self (h : y ∈ s.toList) : s.replace? y = some s := by
  obtain ⟨i, hi⟩ := Array.getElem?_of_mem (Array.mem_toList_iff.1 h)
  have hindex : s.index[y.name]? = some i := (s.consistent y.name i).2 (by rw [hi]; rfl)
  rw [replace?]
  split
  · rename_i hnone
    rw [hindex] at hnone
    cases hnone
  · rename_i j hj
    obtain rfl : i = j := Option.some.inj (hindex.symm.trans hj)
    obtain ⟨hlt, hy⟩ := Array.getElem?_eq_some_iff.mp hi
    have hsymbols : s.symbols.setIfInBounds i y = s.symbols := by
      rw [← hy, Array.setIfInBounds_def, dif_pos hlt, Array.set_getElem_self]
    cases s
    simp [hsymbols]

variable {f : Symbol → Symbol}

/-- A change that leaves the symbol as it is leaves the scope as it is. -/
theorem modify?_eq_self (h : s.get? x = some y) (hf : f y = y) : s.modify? x f = some s := by
  rw [modify?, h, Option.bind_some, hf]
  exact replace?_eq_self (get?_eq_some_iff.mp h).1

variable (hf : ∀ z, (f z).name = z.name)

include hf

/-- A symbol can be changed if it is there. -/
theorem isSome_modify? : (s.modify? x f).isSome = (s.get? x).isSome := by
  cases hx : s.get? x with
  | none => simp [modify?, hx]
  | some z =>
    simp [modify?, hx, isSome_replace?, hf, name_of_get? hx]

/-- After that the name stands for the changed symbol, and the others for what they stood for. -/
theorem get?_modify? (h : s.modify? x f = some s') {z : String} :
    s'.get? z = if z = x then (s.get? z).map f else s.get? z := by
  obtain ⟨old, hold, hreplace⟩ := Option.bind_eq_some_iff.mp h
  rw [get?_replace? hreplace, hf, name_of_get? hold]
  split
  · rename_i hz
    rw [hz, hold]
    rfl
  · rfl

end Scope

/-! ### Nested scopes -/

namespace Table

variable {t t' : Table} {x : String} {y : Symbol} {k : Nat}

/-- What a name stands for in the scope at a level. -/
def at? (t : Table) (k : Nat) (x : String) : Option Symbol :=
  t.scopes[k]?.bind fun s => s.get? x

/-- The scope at the level is the innermost that has the name. -/
structure ResolvesAt (t : Table) (x : String) (k : Nat) : Prop where
  found : (t.at? k x).isSome = true
  first : ∀ m < k, t.at? m x = none

/-- The first scope of all has no name. -/
@[simp] theorem at?_initial : initial.at? k x = none := by
  cases k <;> simp [at?, initial]

/-- Neither has a new scope. -/
@[simp] theorem at?_push_zero : t.push.at? 0 x = none := by
  simp [at?, push]

/-- When a scope is closed, the others move in by one level. -/
@[simp] theorem at?_pop : t.pop.at? k x = t.at? (k + 1) x := by
  simp [at?, pop]

/-- The innermost scope is at level 0. -/
theorem lookup?_eq_at? : t.lookup? x = t.at? 0 x := by
  rw [lookup?, innermost?, at?, List.head?_eq_getElem?]

/-- A name that stands for nothing is in no scope. -/
theorem at?_eq_none_of_resolve? (h : t.resolve? x = none) (k : Nat) : t.at? k x = none := by
  rw [at?, Option.bind_eq_none_iff]
  intro s hs
  exact List.findSome?_eq_none_iff.mp h s (List.mem_of_getElem? hs)

/-- A name stands for what the innermost scope that has it says. -/
theorem exists_resolvesAt (h : t.resolve? x = some y) :
    ∃ k, t.ResolvesAt x k ∧ t.at? k x = some y := by
  obtain ⟨scopes⟩ := t
  induction scopes with
  | nil => cases h
  | cons s rest ih =>
    cases hs : s.get? x with
    | some z =>
      have hz : at? ⟨s :: rest⟩ 0 x = some z := hs
      rw [resolve?, List.findSome?_cons, hs] at h
      cases h
      exact ⟨0, ⟨by rw [hz]; rfl, fun m hm => absurd hm (Nat.not_lt_zero m)⟩, hz⟩
    | none =>
      rw [resolve?, List.findSome?_cons, hs] at h
      obtain ⟨k, hk, hy⟩ := ih h
      refine ⟨k + 1, ⟨hk.found, fun m hm => ?_⟩, hy⟩
      cases m with
      | zero => exact hs
      | succ m => exact hk.first m (Nat.lt_of_succ_lt_succ hm)

/-- What a name stands for is found at the innermost level that has it. -/
theorem ResolvesAt.resolve?_eq (hk : t.ResolvesAt x k) : t.resolve? x = t.at? k x := by
  obtain ⟨y, hy⟩ := Option.isSome_iff_exists.mp hk.found
  cases hresolve : t.resolve? x with
  | none =>
    rw [at?_eq_none_of_resolve? hresolve] at hy
    cases hy
  | some z =>
    obtain ⟨m, hm, hz⟩ := exists_resolvesAt hresolve
    -- both levels are the first that have the name
    obtain rfl : m = k := by
      rcases Nat.lt_trichotomy m k with hlt | rfl | hgt
      · rw [hk.first m hlt] at hz
        cases hz
      · rfl
      · rw [hm.first k hgt] at hy
        cases hy
    exact hz.symm

/-- A change that binds one name in a scope, made in the innermost scope. -/
theorem at?_modifyInnermost? {f : Scope → Option Scope}
    (hf : ∀ s s', f s = some s' → ∀ x, s'.get? x = if x = y.name then some y else s.get? x)
    (h : t.modifyInnermost? f = some t') :
    t'.at? k x = if k = 0 ∧ x = y.name then some y else t.at? k x := by
  obtain ⟨scopes⟩ := t
  cases scopes with
  | nil => cases h
  | cons s rest =>
    obtain ⟨s', hs', rfl⟩ := Option.map_eq_some_iff.mp h
    cases k with
    | zero => simpa [at?] using hf s s' hs' x
    | succ k => simp [at?]

/-- A declaration binds its name in the innermost scope. -/
theorem at?_declare? (h : t.declare? y = some t') :
    t'.at? k x = if k = 0 ∧ x = y.name then some y else t.at? k x :=
  at?_modifyInnermost? (fun _ _ hs _ => Scope.get?_insert? hs) h

/-- A change of the innermost scope opens and closes none. -/
theorem depth_modifyInnermost? {f : Scope → Option Scope} (h : t.modifyInnermost? f = some t') :
    t'.depth = t.depth := by
  obtain ⟨scopes⟩ := t
  cases scopes with
  | nil => cases h
  | cons s rest =>
    obtain ⟨s', _, rfl⟩ := Option.map_eq_some_iff.mp h
    rfl

/-- A name that is free in the innermost scope can be declared. -/
theorem exists_declare? (hne : t.scopes ≠ []) (hfree : t.at? 0 y.name = none) :
    ∃ t', t.declare? y = some t' := by
  obtain ⟨scopes⟩ := t
  cases scopes with
  | nil => exact absurd rfl hne
  | cons s rest =>
    have hinsert : (s.insert? y).isSome = true := by
      rw [Scope.isSome_insert?, Option.isNone_iff_eq_none]
      exact hfree
    obtain ⟨s', hs'⟩ := Option.isSome_iff_exists.mp hinsert
    exact ⟨⟨s' :: rest⟩, by simp [declare?, modifyInnermost?, hs']⟩

/-- A name that is taken in the innermost scope can be given another symbol. -/
theorem exists_replace? (htaken : (t.at? 0 y.name).isSome = true) :
    ∃ t', t.modifyInnermost? (fun s => s.replace? y) = some t' := by
  obtain ⟨scopes⟩ := t
  cases scopes with
  | nil => cases htaken
  | cons s rest =>
    have hreplace : (s.replace? y).isSome = true := by
      rw [Scope.isSome_replace?]
      exact htaken
    obtain ⟨s', hs'⟩ := Option.isSome_iff_exists.mp hreplace
    exact ⟨⟨s' :: rest⟩, by simp [modifyInnermost?, hs']⟩

section Modify

variable {f : Symbol → Symbol} (hf : ∀ z, (f z).name = z.name)

include hf

/-- A change of what a name stands for is one at the level where the name is found. -/
theorem modify?_of_resolvesAt (hk : t.ResolvesAt x k) :
    ∃ t', t.modify? x f = some t' ∧ t'.depth = t.depth ∧
      ∀ m z, t'.at? m z = if m = k ∧ z = x then (t.at? m z).map f else t.at? m z := by
  obtain ⟨scopes⟩ := t
  induction scopes generalizing k with
  | nil => exact absurd hk.found (by simp [at?])
  | cons s rest ih =>
    cases k with
    | zero =>
      have hmodify : (s.modify? x f).isSome = true := by
        rw [Scope.isSome_modify? hf]
        exact hk.found
      obtain ⟨s', hs'⟩ := Option.isSome_iff_exists.mp hmodify
      refine ⟨⟨s' :: rest⟩, by simp [modify?, modifyIn?, hs'], rfl, fun m z => ?_⟩
      cases m with
      | zero => simpa [at?] using Scope.get?_modify? hf hs'
      | succ m => simp [at?]
    | succ k =>
      -- the scope does not have the name, so the change is made further out
      have hs : s.get? x = none := hk.first 0 (Nat.succ_pos k)
      have hmodify : s.modify? x f = none := by simp [Scope.modify?, hs]
      have hrest : ResolvesAt ⟨rest⟩ x k :=
        ⟨hk.found, fun m hm => hk.first (m + 1) (Nat.succ_lt_succ hm)⟩
      obtain ⟨⟨rest'⟩, hrest', hdepth, hat⟩ := ih hrest
      obtain ⟨_, hscopes, hmk⟩ := Option.map_eq_some_iff.mp hrest'
      cases hmk
      refine ⟨⟨s :: rest'⟩, by simp [modify?, modifyIn?, hmodify, hscopes], ?_, fun m z => ?_⟩
      · exact congrArg (· + 1) hdepth
      · cases m with
        | zero => simp [at?]
        | succ m => simpa [at?] using hat m z

end Modify

/-- A change that leaves what the name stands for as it is leaves the table as it is. -/
theorem modify?_eq_self {f : Symbol → Symbol} (h : t.resolve? x = some y) (hf : f y = y) :
    t.modify? x f = some t := by
  obtain ⟨scopes⟩ := t
  induction scopes with
  | nil => cases h
  | cons s rest ih =>
    rw [resolve?, List.findSome?_cons] at h
    cases hs : s.get? x with
    | some z =>
      rw [hs] at h
      cases h
      simp [modify?, modifyIn?, Scope.modify?_eq_self hs hf]
    | none =>
      rw [hs] at h
      obtain ⟨rest', hrest, hmk⟩ := Option.map_eq_some_iff.mp (ih h)
      cases hmk
      simp [modify?, modifyIn?, Scope.modify?, hs, hrest]

/-- Storing into what has a value changes nothing: the line of the first store is kept. -/
theorem store_eq_self (h : t.resolve? x = some y) (hy : y.isInitialized = true) (line : Nat) :
    t.store x line = t := by
  have hsame : y.store line = y := by
    cases y with
    | function => rfl
    | var v =>
      obtain ⟨_, _, _, _ | first, _⟩ := v
      · cases hy
      · rfl
  rw [store, modify?_eq_self h hsame]
  rfl

/-- Storing into a name gives a value to what it stands for, and changes nothing else. -/
theorem at?_store (hk : t.ResolvesAt x k) (line m : Nat) (z : String) :
    (t.store x line).at? m z
      = if m = k ∧ z = x then (t.at? m z).map (Symbol.store line) else t.at? m z := by
  obtain ⟨t', hmodify, _, hat⟩ := modify?_of_resolvesAt (Symbol.name_store line) hk
  rw [store, hmodify]
  exact hat m z

/-- A store opens and closes no scope. -/
theorem depth_store (hk : t.ResolvesAt x k) (line : Nat) : (t.store x line).depth = t.depth := by
  obtain ⟨t', hmodify, hdepth, _⟩ := modify?_of_resolvesAt (Symbol.name_store line) hk
  rw [store, hmodify]
  exact hdepth

/-- Reading a name marks what it stands for, and changes nothing else. -/
theorem at?_markUsed (hk : t.ResolvesAt x k) (m : Nat) (z : String) :
    (t.markUsed x).at? m z
      = if m = k ∧ z = x then (t.at? m z).map Symbol.markUsed else t.at? m z := by
  obtain ⟨t', hmodify, _, hat⟩ := modify?_of_resolvesAt Symbol.name_markUsed hk
  rw [markUsed, hmodify]
  exact hat m z

/-- Neither does a reading. -/
theorem depth_markUsed (hk : t.ResolvesAt x k) : (t.markUsed x).depth = t.depth := by
  obtain ⟨t', hmodify, hdepth, _⟩ := modify?_of_resolvesAt Symbol.name_markUsed hk
  rw [markUsed, hmodify]
  exact hdepth

end Table

end Tercet
