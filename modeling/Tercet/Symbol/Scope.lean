import Std.Data.TreeMap
import Tercet.Symbol.Basic

/-!
# `Tercet.Symbol.Scope`: the names of one scope

A scope keeps its symbols in the order of their declaration, and beside them an index from
names to places in that order. The two always agree: the index leads to a place exactly if
the symbol there has the name (`Scope.consistent`). So no name is declared twice, and a name
stands for a symbol exactly if that symbol is one of the scope's and has the name
(`get?_eq_some_iff`).
-/

set_option autoImplicit false

namespace Tercet

/-- The names of one scope, in the order of their declaration. -/
structure Scope where
  symbols : Array Symbol
  index : Std.TreeMap String Nat
  consistent : ∀ (name : String) (i : Nat),
    index[name]? = some i ↔ symbols[i]?.map Symbol.name = some name

namespace Scope

/-- A scope without names. -/
def empty : Scope where
  symbols := #[]
  index := ∅
  consistent := by simp

/-- What a name stands for. -/
def get? (s : Scope) (name : String) : Option Symbol :=
  s.index[name]?.bind fun i => s.symbols[i]?

/-- Whether the name is taken. -/
def contains (s : Scope) (name : String) : Bool :=
  s.index.contains name

/-- The number of names. -/
def size (s : Scope) : Nat :=
  s.symbols.size

/-- The symbols in the order of their declaration. -/
def toList (s : Scope) : List Symbol :=
  s.symbols.toList

/-- The scope with one more symbol, unless its name is taken. -/
def insert? (s : Scope) (x : Symbol) : Option Scope :=
  if h : s.contains x.name then none
  else some {
    symbols := s.symbols.push x
    index := s.index.insert x.name s.symbols.size
    consistent := by
      intro name i
      have hfree : s.index[x.name]? = none := by
        simpa [contains] using h
      have hnone : ∀ j : Nat, s.symbols[j]?.map Symbol.name ≠ some x.name := by
        intro j hj
        rw [← s.consistent, hfree] at hj
        simp at hj
      rw [Std.TreeMap.getElem?_insert, Array.getElem?_push]
      by_cases hname : x.name = name
      -- the new name is found at the new place, and nowhere before it
      · subst hname
        by_cases hi : i = s.symbols.size
        · simp [hi]
        · simpa [hi, Ne.symm hi] using hnone i
      -- any other name is found where it was, which is not the new place
      · by_cases hi : i = s.symbols.size
        · have hlast : s.index[name]? ≠ some s.symbols.size := by
            rw [ne_eq, s.consistent]
            simp
          simp [hi, hname, hlast]
        · simp [hi, hname, s.consistent] }

/-- The scope with another symbol under the same name, if the name is taken. -/
def replace? (s : Scope) (x : Symbol) : Option Scope :=
  match h : s.index[x.name]? with
  | none => none
  | some i => some {
    symbols := s.symbols.setIfInBounds i x
    index := s.index
    consistent := by
      intro name j
      rw [s.consistent, Array.getElem?_setIfInBounds]
      have hi := (s.consistent x.name i).1 h
      by_cases hj : i = j
      · subst hj
        have hlt : i < s.symbols.size := by
          rcases Nat.lt_or_ge i s.symbols.size with hlt | hge
          · exact hlt
          · simp [Array.getElem?_eq_none hge] at hi
        rw [hi]
        simp [hlt]
      · simp [hj] }

/-- The scope with the symbol of a name changed, if the name is taken. -/
def modify? (s : Scope) (name : String) (f : Symbol → Symbol) : Option Scope :=
  (s.get? name).bind fun x => s.replace? (f x)

/-- A name stands for the symbol of the scope that has it. -/
theorem get?_eq_some_iff {s : Scope} {name : String} {x : Symbol} :
    s.get? name = some x ↔ x ∈ s.toList ∧ x.name = name := by
  constructor
  · intro h
    obtain ⟨i, hi, hx⟩ := Option.bind_eq_some_iff.1 h
    have hname := (s.consistent name i).1 hi
    rw [hx] at hname
    exact ⟨Array.mem_toList_iff.2 (Array.mem_of_getElem? hx), by simpa using hname⟩
  · rintro ⟨hmem, rfl⟩
    obtain ⟨i, hi⟩ := Array.getElem?_of_mem (Array.mem_toList_iff.1 hmem)
    have hindex : s.index[x.name]? = some i := (s.consistent x.name i).2 (by rw [hi]; rfl)
    rw [get?, hindex]
    exact hi

/-- A name is taken exactly if it stands for something. -/
theorem contains_eq_isSome_get? (s : Scope) (name : String) :
    s.contains name = (s.get? name).isSome := by
  rw [contains, ← Std.TreeMap.isSome_getElem?_eq_contains, get?]
  cases hindex : s.index[name]? with
  | none => rfl
  | some i =>
    -- the index never leads beyond the symbols
    obtain ⟨x, hx, _⟩ := Option.map_eq_some_iff.1 ((s.consistent name i).1 hindex)
    simp [hx]

/-- A new symbol comes last. -/
theorem toList_insert? {s t : Scope} {x : Symbol} (h : s.insert? x = some t) :
    t.toList = s.toList ++ [x] := by
  rw [insert?] at h
  split at h
  · cases h
  · cases h
    exact Array.toList_push

/-- A replaced symbol keeps its place, and all others are kept. -/
theorem toList_replace? {s t : Scope} {x : Symbol} (h : s.replace? x = some t) :
    t.toList = s.toList.map fun y => if y.name = x.name then x else y := by
  rw [replace?] at h
  split at h
  · cases h
  · next i hi =>
    cases h
    refine List.ext_getElem? fun j => ?_
    -- exactly the symbol at place `i` has the name
    have hplace := s.consistent x.name j
    rw [hi] at hplace
    by_cases hj : i = j
    · subst hj
      obtain ⟨y, hy, hname⟩ := Option.map_eq_some_iff.1 (hplace.1 rfl)
      obtain ⟨hlt, rfl⟩ := Array.getElem?_eq_some_iff.1 hy
      simp [toList, hname, hlt]
    · have hother : s.symbols[j]?.map Symbol.name ≠ some x.name := fun hsame =>
        hj (Option.some.inj (hplace.2 hsame))
      cases hy : s.symbols[j]? with
      | none => simp [toList, hj, hy]
      | some y =>
        have hname : y.name ≠ x.name := by simpa [hy] using hother
        simp [toList, hj, hy, hname]

end Scope

end Tercet
