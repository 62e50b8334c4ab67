import Mathlib.Data.List.Nodup
import Tercet.Proofs.Symbol.Lookup

/-!
# `Tercet.Proofs.Symbol.Rows`: tables as plain rows of symbols

A scope finds its names through an index. This module shows that the index is never seen from
outside. The second side is a table without indices, `Rows`: each scope is the row of its
symbols, and every question is answered by going through the rows from the front.

`Table.Op` lists what can be asked of a table that changes it, and `Table.perform` and
`Rows.perform` are the two ways to answer. One step is compared in `perform_rows`: both sides
give the same answer, and the table after it has the rows of the other side. A whole run is a
list of requests to a new table (`Table.run`), and `mirrors_run` puts together what is true
after each of them.

Rows do not say that names are distinct, so a change goes to the first symbol of a name. That
this is the symbol to which the index leads comes from `Scope.nodup_names`.
-/

set_option autoImplicit false

namespace Tercet

/-! ### Rows -/

/-- A table without indices: the rows of symbols of its scopes, the innermost scope first. -/
abbrev Rows := List (List Symbol)

namespace Rows

/-- Whether some symbol of a row has the name. -/
def has (name : String) (row : List Symbol) : Bool :=
  row.any fun x => x.name = name

/-- The first symbol of a row that has the name. -/
def first? (name : String) (row : List Symbol) : Option Symbol :=
  row.find? fun x => x.name = name

/-- The row with one more symbol at its end, unless it has the name. -/
def add? (x : Symbol) (row : List Symbol) : Option (List Symbol) :=
  if has x.name row then none else some (row ++ [x])

/-- The row with the first symbol of a name changed, if it has the name. -/
def change? (name : String) (f : Symbol → Symbol) (row : List Symbol) : Option (List Symbol) :=
  if has name row then some (row.modify (row.findIdx fun x => x.name = name) f) else none

/-- The rows with the innermost one changed, where the change succeeds. -/
def changeInnermost? (f : List Symbol → Option (List Symbol)) : Rows → Option Rows
  | [] => none
  | row :: rest => (f row).map (· :: rest)

/-- The rows with one of them changed, the innermost in which the change succeeds. -/
def changeNearest? (f : List Symbol → Option (List Symbol)) : Rows → Option Rows
  | [] => none
  | row :: rest =>
    ((f row).map (· :: rest)).or ((changeNearest? f rest).map (row :: ·))

/-- What a name stands for: the first symbol that has it, in the innermost row with one. -/
def resolve? (name : String) (rows : Rows) : Option Symbol :=
  rows.findSome? (first? name)

/-- What a name stands for in the innermost row alone. -/
def lookup? (name : String) (rows : Rows) : Option Symbol :=
  rows.head?.bind (first? name)

end Rows

/-! ### Requests and answers -/

/-- A request to a table that may change it. -/
inductive Table.Op where
  | push
  | pop
  | declare (x : Symbol)
  /-- A symbol put into the innermost scope itself. -/
  | insert (x : Symbol)
  /-- A symbol put in the place of another one of its name, in the innermost scope. -/
  | replace (x : Symbol)
  | markUsed (name : String)
  | store (name : String) (line : Nat)

/-- The answer to a request, with scopes of type `σ`. -/
inductive Table.Answer (σ : Type) where
  | done
  /-- The scope that was closed, if one was open. -/
  | handedBack (scope : Option σ)
  | made (success : Bool)

namespace Table

/-- The answer with another view of scopes. -/
def Answer.map {σ τ : Type} (f : σ → τ) : Answer σ → Answer τ
  | done => done
  | handedBack scope => handedBack (scope.map f)
  | made success => made success

/-- The answer to a change that can fail. Without the change, the old state stands. -/
def attempt {σ τ : Type} (old : τ) (new : Option τ) : Answer σ × τ :=
  (.made new.isSome, new.getD old)

/-- The answer of a table to a request, and the table after it. -/
def perform (t : Table) : Op → Answer Scope × Table
  | .push => (.done, t.push)
  | .pop => (.handedBack (t.pop?.map Prod.fst), (t.pop?.map Prod.snd).getD t)
  | .declare x => attempt t (t.declare? x)
  | .insert x => attempt t (t.modifyInnermost? fun s => s.insert? x)
  | .replace x => attempt t (t.modifyInnermost? fun s => s.replace? x)
  | .markUsed name => attempt t (t.modify? name Symbol.markUsed)
  | .store name line => attempt t (t.modify? name (Symbol.store line))

/-- All answers to a list of requests, one after the other, and the state after them. -/
def answer {σ τ : Type} (perform : τ → Op → Answer σ × τ) (t : τ) :
    List Op → List (Answer σ) × τ
  | [] => ([], t)
  | op :: ops =>
    let more := answer perform (perform t op).2 ops
    ((perform t op).1 :: more.1, more.2)

/-- What a new table answers to a list of requests, and the table after them. -/
def run (ops : List Op) : List (Answer Scope) × Table :=
  answer perform initial ops

end Table

namespace Rows

open Table

/-- The answer of plain rows to a request, and the rows after it. -/
def perform (rows : Rows) : Op → Answer (List Symbol) × Rows
  | .push => (.done, [] :: rows)
  | .pop => (.handedBack rows.head?, rows.tail)
  | .declare x | .insert x => attempt rows (changeInnermost? (add? x) rows)
  | .replace x => attempt rows (changeInnermost? (change? x.name fun _ => x) rows)
  | .markUsed name => attempt rows (changeNearest? (change? name Symbol.markUsed) rows)
  | .store name line => attempt rows (changeNearest? (change? name (Symbol.store line)) rows)

/-- What one empty row answers to a list of requests, and the rows after them. -/
def run (ops : List Op) : List (Answer (List Symbol)) × Rows :=
  answer perform [[]] ops

end Rows

/-! ### One scope -/

namespace Scope

/-- Index and symbols of a scope agree: whatever the index gives is the place of a symbol of
that name, every symbol is found at its own place, and no name is there twice. -/
structure Indexed (s : Scope) : Prop where
  inRange : ∀ (name : String) (i : Nat), s.index[name]? = some i →
    ∃ x : Symbol, s.symbols[i]? = some x ∧ x.name = name
  placed : ∀ (i : Nat) (x : Symbol), s.symbols[i]? = some x → s.index[x.name]? = some i
  distinct : (s.toList.map Symbol.name).Nodup

/-- Two places with one name are one place, since the index leads to both. -/
theorem nodup_names (s : Scope) : (s.toList.map Symbol.name).Nodup := by
  rw [List.Nodup, List.pairwise_iff_getElem]
  intro i j hi hj hlt hsame
  have hplace (k : Nat) (hk : k < (s.toList.map Symbol.name).length) :
      s.index[(s.toList.map Symbol.name)[k]]? = some k := by
    rw [s.consistent, ← Array.getElem?_toList, ← List.getElem?_map]
    exact List.getElem?_eq_getElem hk
  have hindex := hplace i hi
  rw [hsame, hplace j hj] at hindex
  have hij : j = i := Option.some.inj hindex
  omega

/-- Every scope has its index in agreement with its symbols, since it carries the proof. -/
theorem indexed (s : Scope) : s.Indexed where
  inRange name i h := by
    have hname := (s.consistent name i).mp h
    exact Option.map_eq_some_iff.mp hname
  placed i x h := by
    rw [s.consistent, h]
    rfl
  distinct := s.nodup_names

variable (s : Scope)

/-- The row has a name exactly if the index finds it. -/
theorem has_toList (name : String) : Rows.has name s.toList = (s.get? name).isSome := by
  rw [get?_eq_find?, List.isSome_find?]
  rfl

/-- So the index contains it. -/
theorem contains_eq_has (name : String) : s.contains name = Rows.has name s.toList := by
  rw [contains_eq_isSome_get?, has_toList]

/-- To insert a symbol is to add it to the row. -/
theorem map_toList_insert? (x : Symbol) : (s.insert? x).map toList = Rows.add? x s.toList := by
  rw [Rows.add?, has_toList]
  have hsome := isSome_insert? (s := s) (y := x)
  cases hinsert : s.insert? x with
  | none =>
    rw [hinsert] at hsome
    rw [if_pos]
    · rfl
    · simpa using hsome.symm
  | some t =>
    rw [hinsert] at hsome
    rw [Option.map_some, toList_insert? hinsert, if_neg]
    simpa using hsome.symm

end Scope

/-- In a row with distinct names, the first symbol of a name is the only one. -/
theorem Rows.modify_findIdx {row : List Symbol} (h : (row.map Symbol.name).Nodup) (name : String)
    (f : Symbol → Symbol) :
    row.modify (row.findIdx fun x => x.name = name) f
      = row.map fun x => if x.name = name then f x else x := by
  induction row with
  | nil => rfl
  | cons x row ih =>
    rw [List.map_cons, List.nodup_cons] at h
    rw [List.findIdx_cons, List.map_cons]
    by_cases hx : x.name = name
    · -- no symbol behind it has the name
      have hrest : row.map (fun y => if y.name = name then f y else y) = row := by
        conv_rhs => rw [← List.map_id row]
        refine List.map_congr_left fun y hy => ?_
        rw [if_neg]
        · rfl
        · intro hy'
          exact h.1 (List.mem_map.mpr ⟨y, hy, hy'.trans hx.symm⟩)
      simp [hx, hrest]
    · simp [hx, ih h.2]

namespace Scope

variable (s : Scope)

/-- To replace a symbol is to change the first of its name in the row. -/
theorem map_toList_replace? (x : Symbol) :
    (s.replace? x).map toList = Rows.change? x.name (fun _ => x) s.toList := by
  have hsome := isSome_replace? (s := s) (y := x)
  cases hreplace : s.replace? x with
  | none =>
    rw [hreplace, ← has_toList] at hsome
    rw [Rows.change?, ← hsome]
    rfl
  | some t =>
    rw [hreplace, ← has_toList] at hsome
    rw [Rows.change?, ← hsome, Option.isSome_some, if_pos rfl, Option.map_some,
      Rows.modify_findIdx s.nodup_names, toList_replace? hreplace]

/-- A change that keeps the name is made at the place of the symbol. -/
theorem map_toList_modify? {f : Symbol → Symbol} (hf : ∀ x, (f x).name = x.name)
    (name : String) : (s.modify? name f).map toList = Rows.change? name f s.toList := by
  have hhas := s.has_toList name
  cases hget : s.get? name with
  | none =>
    rw [hget] at hhas
    rw [modify?, hget, Rows.change?, hhas]
    rfl
  | some x =>
    rw [hget] at hhas
    have hname := name_of_get? hget
    rw [modify?, hget, Option.bind_some, map_toList_replace?, hf, hname, Rows.change?,
      Rows.change?, hhas, Option.isSome_some, if_pos rfl, if_pos rfl,
      Rows.modify_findIdx s.nodup_names, Rows.modify_findIdx s.nodup_names]
    -- what is put in place is the old symbol changed, and the old symbol is the only one
    refine congrArg some (List.map_congr_left fun y hy => ?_)
    by_cases hy' : y.name = name
    · have hsame : s.get? name = some y := get?_eq_some_iff.mpr ⟨hy, hy'⟩
      rw [hget] at hsame
      rw [if_pos hy', if_pos hy', Option.some.inj hsame]
    · rw [if_neg hy', if_neg hy']

end Scope

/-! ### Tables -/

namespace Table

/-- The rows of symbols of the open scopes. -/
def rows (t : Table) : Rows :=
  t.scopes.map Scope.toList

variable (t : Table)

/-- A name stands for the same in the table and in its rows. -/
theorem resolve?_eq_rows (name : String) : t.resolve? name = t.rows.resolve? name := by
  rw [resolve?, Rows.resolve?, rows, List.findSome?_map]
  exact congrArg (List.findSome? · _) (funext fun s => s.get?_eq_find? name)

/-- So it does in the innermost scope and in the innermost row. -/
theorem lookup?_eq_rows (name : String) : t.lookup? name = t.rows.lookup? name := by
  rw [lookup?, innermost?, Rows.lookup?, rows, List.head?_map, Option.bind_map]
  exact congrArg _ (funext fun s => s.get?_eq_find? name)

/-- Scope by scope, a name is in the index exactly if a symbol of the row has it. -/
theorem contains_eq_rows (name : String) :
    t.scopes.map (fun s => s.contains name) = t.rows.map (Rows.has name) := by
  rw [rows, List.map_map]
  exact List.map_congr_left fun s _ => s.contains_eq_has name

/-- An answer that hands back a scope hands back its names, as the row has them. -/
theorem Answer.map_contains (name : String) (answer : Answer Scope) :
    answer.map (fun s => s.contains name) = (answer.map Scope.toList).map (Rows.has name) := by
  cases answer with
  | done => rfl
  | made success => rfl
  | handedBack scope =>
    cases scope with
    | none => rfl
    | some s => exact congrArg (fun b => handedBack (some b)) (s.contains_eq_has name)

/-- A change of the innermost scope is one of the innermost row. -/
theorem map_rows_modifyInnermost? {f : Scope → Option Scope}
    {g : List Symbol → Option (List Symbol)} (h : ∀ s, (f s).map Scope.toList = g s.toList) :
    (t.modifyInnermost? f).map rows = Rows.changeInnermost? g t.rows := by
  obtain ⟨scopes⟩ := t
  cases scopes with
  | nil => rfl
  | cons s rest =>
    show ((f s).map fun s' => (⟨s' :: rest⟩ : Table)).map rows
      = (g s.toList).map (· :: rest.map Scope.toList)
    rw [← h, Option.map_map, Option.map_map]
    rfl

/-- A change of what a name stands for is one of the nearest row that has the name. -/
theorem map_rows_modify? {f : Symbol → Symbol} (hf : ∀ x, (f x).name = x.name) (name : String) :
    (t.modify? name f).map rows = Rows.changeNearest? (Rows.change? name f) t.rows := by
  have hscopes (scopes : List Scope) :
      (modifyIn? name f scopes).map (List.map Scope.toList)
        = Rows.changeNearest? (Rows.change? name f) (scopes.map Scope.toList) := by
    induction scopes with
    | nil => rfl
    | cons s rest ih =>
      rw [modifyIn?, List.map_cons, Rows.changeNearest?, ← s.map_toList_modify? hf, ← ih]
      cases s.modify? name f with
      -- the scope does not have the name, and the next is tried
      | none =>
        rw [Option.map_none, Option.map_none, Option.none_or, Option.map_map, Option.map_map]
        rfl
      | some s' => rfl
  rw [modify?, Option.map_map]
  exact hscopes t.scopes

/-- A change succeeds on both sides or on neither, and so it leaves them alike. -/
theorem map_attempt {new : Option Table} {new' : Option Rows} (h : new.map rows = new') :
    ((attempt t new : Answer Scope × Table).1.map Scope.toList,
        (attempt t new : Answer Scope × Table).2.rows)
      = (attempt t.rows new' : Answer (List Symbol) × Rows) := by
  subst h
  cases new <;> rfl

/-- One request: table and rows give the same answer, and the rows of the table after it are
the rows after it. -/
theorem perform_rows (op : Op) :
    ((t.perform op).1.map Scope.toList, (t.perform op).2.rows) = t.rows.perform op := by
  have hinsert (x : Symbol) := t.map_rows_modifyInnermost? fun s => s.map_toList_insert? x
  cases op with
  | push => rfl
  | pop =>
    obtain ⟨scopes⟩ := t
    cases scopes <;> rfl
  | declare x => exact t.map_attempt (hinsert x)
  | insert x => exact t.map_attempt (hinsert x)
  | replace x =>
    exact t.map_attempt (t.map_rows_modifyInnermost? fun s => s.map_toList_replace? x)
  | markUsed name => exact t.map_attempt (t.map_rows_modify? Symbol.name_markUsed name)
  | store name line => exact t.map_attempt (t.map_rows_modify? (Symbol.name_store line) name)

/-- A list of requests, by induction from `perform_rows`. -/
theorem answer_rows (ops : List Op) :
    ((answer perform t ops).1.map (Answer.map Scope.toList), (answer perform t ops).2.rows)
      = answer Rows.perform t.rows ops := by
  induction ops generalizing t with
  | nil => rfl
  | cons op ops ih =>
    have hstep := t.perform_rows op
    have hmore := ih (t.perform op).2
    rw [Prod.ext_iff] at hstep hmore
    rw [answer, answer, ← hstep.1, ← hstep.2, ← hmore.1, ← hmore.2]
    rfl

/-- What is changed under a name is what the name stands for, and it is changed exactly if there
is such a thing. -/
theorem resolve?_modify? {f : Symbol → Symbol} (hf : ∀ x, (f x).name = x.name) (name : String) :
    (t.modify? name f).map (fun t' => t'.resolve? name)
      = (t.resolve? name).map fun x => some (f x) := by
  obtain ⟨scopes⟩ := t
  induction scopes with
  | nil => rfl
  | cons s rest ih =>
    cases hs : s.get? name with
    | some x =>
      have hsome : (s.modify? name f).isSome = true := by
        rw [Scope.isSome_modify? hf, hs]
        rfl
      obtain ⟨s', hs'⟩ := Option.isSome_iff_exists.mp hsome
      have hchanged : s'.get? name = some (f x) := by
        rw [Scope.get?_modify? hf hs', if_pos rfl, hs]
        rfl
      simp [modify?, modifyIn?, resolve?, hs, hs', hchanged]
    | none =>
      -- the scope does not have the name, and it is passed over on both sides
      have hnone : s.modify? name f = none := by
        rw [Scope.modify?, hs]
        rfl
      simpa [modify?, modifyIn?, resolve?, hs, hnone, Function.comp_def] using ih

/-- Where a change is not made, the old table stands. -/
theorem attempt_of_not_made {new : Option Table}
    (h : (attempt t new : Answer Scope × Table).1 = .made false) :
    (attempt t new : Answer Scope × Table).2 = t := by
  cases new with
  | none => rfl
  | some t' => cases h

/-- So a request that is refused leaves the table as it is. -/
theorem perform_of_not_made (op : Op) (h : (t.perform op).1 = .made false) :
    (t.perform op).2 = t := by
  cases op with
  | push => cases h
  | pop => cases h
  | declare x => exact t.attempt_of_not_made h
  | insert x => exact t.attempt_of_not_made h
  | replace x => exact t.attempt_of_not_made h
  | markUsed name => exact t.attempt_of_not_made h
  | store name line => exact t.attempt_of_not_made h

/-- What is true of a table and of plain rows after the same list of requests. -/
structure Mirrors (run : List (Answer Scope) × Table) (plain : List (Answer (List Symbol)) × Rows) :
    Prop where
  /-- All answers were the same, scopes that were handed back included. -/
  answers : run.1.map (Answer.map Scope.toList) = plain.1
  rows : run.2.rows = plain.2
  /-- Every scope is well indexed, whether it is open or was handed back. -/
  indexed : ∀ s, s ∈ run.2.scopes ∨ .handedBack (some s) ∈ run.1 → s.Indexed
  resolve : ∀ name, run.2.resolve? name = plain.2.resolve? name
  lookup : ∀ name, run.2.lookup? name = plain.2.lookup? name
  /-- Each open scope has the names of its row. -/
  contains : ∀ name, run.2.scopes.map (fun s => s.contains name) = plain.2.map (Rows.has name)
  /-- Each scope that was handed back has the names of the row handed back in its place. -/
  containsBack : ∀ name,
    run.1.map (Answer.map fun s => s.contains name) = plain.1.map (Answer.map (Rows.has name))
  /-- A change reaches the symbol that the name stands for, and no other. -/
  change : ∀ name f, (∀ x, (f x).name = x.name) →
    (run.2.modify? name f).map (fun t => t.resolve? name)
        = (run.2.resolve? name).map (fun x => some (f x)) ∧
      (run.2.modify? name f).map Table.rows
        = plain.2.changeNearest? (Rows.change? name f)
  /-- What is not made leaves the table as it was. -/
  refused : ∀ op, (run.2.perform op).1 = .made false → (run.2.perform op).2 = run.2

end Table

/-- A table with indices behaves as plain rows of symbols do, whatever has been asked of it. -/
theorem mirrors_run (ops : List Table.Op) : Table.Mirrors (Table.run ops) (Rows.run ops) := by
  have hrun := Table.initial.answer_rows ops
  rw [Prod.ext_iff] at hrun
  have hanswers : (Table.run ops).1.map (Table.Answer.map Scope.toList) = (Rows.run ops).1 :=
    hrun.1
  have hrows : (Table.run ops).2.rows = (Rows.run ops).2 := hrun.2
  exact {
    answers := hanswers
    rows := hrows
    indexed := fun s _ => s.indexed
    resolve := fun name => hrows ▸ (Table.run ops).2.resolve?_eq_rows name
    lookup := fun name => hrows ▸ (Table.run ops).2.lookup?_eq_rows name
    contains := fun name => hrows ▸ (Table.run ops).2.contains_eq_rows name
    containsBack := fun name => by
      rw [← hanswers, List.map_map]
      exact List.map_congr_left fun answer _ => answer.map_contains name
    change := fun name f hf =>
      ⟨(Table.run ops).2.resolve?_modify? hf name,
        hrows ▸ (Table.run ops).2.map_rows_modify? hf name⟩
    refused := (Table.run ops).2.perform_of_not_made }

end Tercet
