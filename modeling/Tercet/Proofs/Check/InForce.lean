import Tercet.Proofs.Check.Lifecycles
import Tercet.Proofs.Check.Redeclaration

/-!
# `Tercet.Proofs.Check.InForce`: what is in force at some point of an analysis

The analysis of a program makes its requests one after the other (`Program.requests`). After a front
of this row, its table has the scopes that are open at that point. This module says which symbols
are found there, for all such points at once, by the tree alone (`Program.Holds`).

A ledger of entries is kept along the requests (`Ledger.heed`). The scopes of the table agree with
it at every point (`Checker.Mirrors.serve`), so what a symbol says is what an entry says that its
name is bound to. And the ledger follows the tree: each open scope holds a front of what the tree
enters into one of its scopes (`Fills.midway`), and each scope of the tree is the innermost one at
some point, with all that is entered into it (`Fills.reaches`).
-/

set_option autoImplicit false

namespace Tercet

/-! ### Ledgers on the way -/

/-- On the way of requests that fill a scope with the entries, and the scopes that they open inside
with others, the ledger has a front of the entries, and of each scope that is open inside a front as
well. Before the requests, the ledger was `own :: rest`. -/
def Ledger.Midway (entries : List Entry) (scopes : List (List Entry)) (own : List Entry)
    (rest ledger : Ledger) : Prop :=
  ∃ inner part, ledger = inner ++ (own ++ part) :: rest ∧
    part <+: entries ∧ ∀ opened ∈ inner, ∃ scope ∈ scopes, opened <+: scope

namespace Ledger.Midway

variable {entries entries' : List Entry} {scopes scopes' : List (List Entry)} {own : List Entry}
  {rest ledger : Ledger}

/-- A ledger that is as before has no part of the entries and no scope open inside. -/
theorem start (h : ledger = own :: rest) : Midway entries scopes own rest ledger := by
  refine ⟨[], [], ?_, List.prefix_append [] entries, List.forall_mem_nil _⟩
  rw [List.append_nil, List.nil_append]
  exact h

/-- More entries may follow, and more scopes. -/
theorem mono (h : Midway entries scopes own rest ledger) (hentries : entries <+: entries')
    (hscopes : scopes ⊆ scopes') : Midway entries' scopes' own rest ledger := by
  obtain ⟨inner, part, hledger, hpart, hinner⟩ := h
  refine ⟨inner, part, hledger, hpart.trans hentries, fun opened hopened => ?_⟩
  obtain ⟨scope, hscope, hle⟩ := hinner opened hopened
  exact ⟨scope, hscopes hscope, hle⟩

/-- Some entries may have been made before. -/
theorem prepend (h : Midway entries' scopes (own ++ entries) rest ledger) :
    Midway (entries ++ entries') scopes own rest ledger := by
  obtain ⟨inner, part, hledger, hpart, hinner⟩ := h
  refine ⟨inner, entries ++ part, ?_, (List.prefix_append_right_inj entries).mpr hpart, hinner⟩
  rw [hledger, List.append_assoc]

/-- The scope may be one that has been opened on the way. -/
theorem enclose (h : Midway entries scopes [] (own :: rest) ledger) :
    Midway [] (entries :: scopes) own rest ledger := by
  obtain ⟨inner, part, hledger, hpart, hinner⟩ := h.mono (List.prefix_refl _)
    (List.subset_cons_self entries scopes)
  refine ⟨inner ++ [part], [], ?_, List.prefix_refl _, List.forall_mem_append.mpr
    ⟨hinner, List.forall_mem_singleton.mpr ⟨entries, List.mem_cons_self, hpart⟩⟩⟩
  rw [List.append_nil, List.append_assoc]
  exact hledger

end Ledger.Midway

namespace Fills

variable {row front : List Request} {entries : List Entry} {scopes : List (List Entry)}
  {reports : List Entry → Log}

/-- The front of a row ends in its first or in its second half. -/
theorem prefix_cases {row' : List Request} (h : front <+: row ++ row') :
    front <+: row ∨ ∃ front', front = row ++ front' ∧ front' <+: row' := by
  rcases List.prefix_or_prefix_of_prefix h (List.prefix_append row row') with h' | ⟨front', rfl⟩
  · exact .inl h'
  · exact .inr ⟨front', rfl, (List.prefix_append_right_inj row).mp h⟩

/-- After a front of the requests of a tree, the ledger is on its way. -/
theorem midway (h : Fills row entries scopes reports) (hfront : front <+: row) (own : List Entry)
    (rest : Ledger) :
    Ledger.Midway entries scopes own rest (front.foldl Ledger.heed (own :: rest)) := by
  induction h generalizing front own rest with
  | nil =>
    obtain rfl := List.prefix_nil.mp hfront
    exact .start rfl
  | quiet hq =>
    rcases List.prefix_cons_iff.mp hfront with rfl | ⟨_, rfl, hnil⟩
    · exact .start rfl
    · obtain rfl := List.prefix_nil.mp hnil
      exact .start (Ledger.heed_of_isQuiet _ hq)
  | @entered q e hq =>
    rcases List.prefix_cons_iff.mp hfront with rfl | ⟨_, rfl, hnil⟩
    · exact .start rfl
    · obtain rfl := List.prefix_nil.mp hnil
      exact ⟨[], [e], (Fills.entered hq).after own rest, List.prefix_refl _,
        List.forall_mem_nil _⟩
  | append h _ ih ih' =>
    -- the front ends in the first row, or holds all of it
    rcases prefix_cases hfront with hfirst | ⟨front', rfl, hsecond⟩
    · exact (ih hfirst own rest).mono (List.prefix_append _ _) (List.subset_append_left _ _)
    · -- the first half is over, with all its entries
      rw [List.foldl_append, h.after]
      exact (ih' hsecond (own ++ _) rest).prepend.mono (List.prefix_refl _)
        (List.subset_append_right _ _)
  | bracketed h ih =>
    rcases List.prefix_cons_iff.mp hfront with rfl | ⟨front', rfl, hopen⟩
    · exact .start rfl
    rcases List.prefix_concat_iff.mp hopen with rfl | hinside
    · -- the scope has been closed again
      have hafter := h.bracketed.after own rest
      rw [List.append_nil] at hafter
      exact .start hafter
    · exact (ih hinside [] (own :: rest)).enclose

/-- Each scope that a tree opens is the innermost one at some point, with all its entries. -/
theorem reaches (h : Fills row entries scopes reports) {scope : List Entry}
    (hscope : scope ∈ scopes) :
    ∃ front, front <+: row ∧ ∀ own rest, ∃ outer,
      front.foldl Ledger.heed (own :: rest) = scope :: outer := by
  induction h with
  | nil | quiet | entered => cases hscope
  | @append row _ _ _ _ _ _ _ h _ ih ih' =>
    rcases List.mem_append.mp hscope with hscope | hscope
    · obtain ⟨front, hfront, hreach⟩ := ih hscope
      exact ⟨front, List.prefix_append_of_prefix hfront, hreach⟩
    · obtain ⟨front, hfront, hreach⟩ := ih' hscope
      refine ⟨row ++ front, (List.prefix_append_right_inj row).mpr hfront, fun own rest => ?_⟩
      rw [List.foldl_append, h.after]
      exact hreach _ _
  | @bracketed row _ _ _ h ih =>
    rcases List.mem_cons.mp hscope with rfl | hscope
    · -- right before it is closed
      exact ⟨.push :: row, List.cons_prefix_cons.mpr ⟨rfl, List.prefix_append _ _⟩,
        fun own rest => ⟨own :: rest, h.after [] (own :: rest)⟩⟩
    · obtain ⟨front, hfront, hreach⟩ := ih hscope
      exact ⟨.push :: front,
        List.cons_prefix_cons.mpr ⟨rfl, List.prefix_append_of_prefix hfront⟩,
        fun own rest => hreach [] (own :: rest)⟩

end Fills

/-- After a front of the requests of a program, the ledger is on its way. The last request changes
nothing in it. -/
theorem Program.midway {p : Program} {front : List Request} (hfront : front <+: p.requests) :
    Ledger.Midway (entriesAll p.body) (scopesAll p.body) [] [] (front.foldl Ledger.heed [[]]) := by
  rcases List.prefix_concat_iff.mp hfront with rfl | hinside
  · rw [List.foldl_append]
    exact (fills_all p.body).midway (List.prefix_refl _) [] []
  · exact (fills_all p.body).midway hinside [] []

/-! ### Tables -/

namespace Checker

variable {c : Checker} {ledger : Ledger}

/-- The scopes of the table are those of the ledger, and agree with it. -/
structure Mirrors (c : Checker) (ledger : Ledger) : Prop where
  keeps : c.Keeps ledger
  depth : c.table.depth = ledger.length

/-- At the start both have the outermost scope, with nothing in it. -/
theorem mirrors_initial : initial.Mirrors [[]] :=
  ⟨keeps_initial, rfl⟩

/-- An event changes the number of scopes as it does in the ledger. -/
theorem depth_handle (h : c.table.depth = ledger.length) (e : Event) :
    (c.handle e).table.depth = (ledger.after e).length := by
  cases e with
  | opened => exact congrArg (· + 1) h
  | closed =>
    show c.table.scopes.tail.length = ledger.tail.length
    rw [List.length_tail, List.length_tail]
    exact congrArg (· - 1) h
  | stored name line => exact (List.Forall₂.length_eq (ages_write name line)).symm.trans h
  | read name line => exact (List.Forall₂.length_eq (ages_checkUse name line)).symm.trans h
  | entered entry =>
    -- without a scope there is nothing to enter a name into
    by_cases hne : c.table.scopes = []
    · obtain ⟨⟨scopes⟩, log⟩ := c
      obtain rfl : scopes = [] := hne
      obtain rfl := List.length_eq_zero_iff.mp h.symm
      rfl
    · have hdepth := (grows_enter hne entry).depth_eq.trans h
      match ledger with
      | [] => exact hdepth
      | own :: rest => exact hdepth

/-- A request that is an event changes both alike, and another one changes neither. -/
theorem Mirrors.perform (h : c.Mirrors ledger) (q : Request) :
    (c.perform q).2.Mirrors (ledger.heed q) := by
  cases hevent : q.event? with
  | none =>
    have htable : (c.perform q).2.table = c.table := by
      rw [table_perform, hevent]
      rfl
    rw [Ledger.heed, hevent]
    exact ⟨by rw [Keeps, htable]; exact h.keeps, by rw [htable]; exact h.depth⟩
  | some e =>
    have htable : (c.perform q).2.table = (c.untyped.handle e).table := by
      rw [table_perform, hevent]
      rfl
    have hkeeps : c.untyped.Keeps ledger := h.keeps
    rw [Ledger.heed, hevent]
    exact ⟨by rw [Keeps, htable]; exact hkeeps.handle e,
      by rw [htable]; exact depth_handle (c := c.untyped) h.depth e⟩

/-- Rows of requests keep the scopes in agreement with the ledger. -/
theorem Mirrors.serve (h : c.Mirrors ledger) (row : List Request) :
    (c.serve row).Mirrors (row.foldl Ledger.heed ledger) := by
  induction row generalizing c ledger with
  | nil => exact h
  | cons q more ih => exact ih (h.perform q)

/-- The table and the ledger, scope by scope. -/
theorem Mirrors.forall₂ (h : c.Mirrors ledger) :
    List.Forall₂ (fun own s => s.Settles own) ledger c.table.scopes := by
  have hkeeps := h.keeps
  rwa [Keeps, ← h.depth, Table.depth, List.take_length] at hkeeps

/-- What is in force is what its name is bound to in one of the scopes. -/
theorem Mirrors.exists_bound (h : c.Mirrors ledger) {y : Symbol} (hy : y ∈ c.table.symbols) :
    ∃ own ∈ ledger, ∃ e ∈ boundIn? own y.name, e.symbol.Ages y := by
  obtain ⟨s, hs, hmem⟩ := List.mem_flatMap.mp hy
  obtain ⟨own, hown, hsettles⟩ := exists_of_mem_forall₂ h.forall₂ (List.mem_reverse.mp hs)
  exact ⟨own, hown, hsettles.bound y hmem⟩

/-- What a name is bound to in one of the scopes is in force. -/
theorem Mirrors.exists_symbol (h : c.Mirrors ledger) {own : List Entry} {x : String} {e : Entry}
    (hown : own ∈ ledger) (he : boundIn? own x = some e) :
    ∃ y ∈ c.table.symbols, y.name = x ∧ e.symbol.Ages y := by
  obtain ⟨s, hs, hsettles⟩ := exists_of_mem_forall₂ h.forall₂.flip hown
  cases hget : s.get? x with
  | none =>
    rw [hsettles.get?_eq_none_iff.mp hget] at he
    cases he
  | some y =>
    obtain ⟨e', he', hages⟩ := hsettles.exists_of_get? hget
    obtain rfl := Option.some.inj (he'.symm.trans he)
    obtain ⟨hmem, hname⟩ := Scope.get?_eq_some_iff.mp hget
    exact ⟨y, List.mem_flatMap.mpr ⟨s, List.mem_reverse.mpr hs, hmem⟩, hname, hages⟩

end Checker

/-! ### Programs -/

namespace Program

/-- The symbol is in force at some point of the analysis: after a front of its requests. -/
def Holds (p : Program) (y : Symbol) : Prop :=
  ∃ row, row <+: p.requests ∧ y ∈ (Checker.initial.serve row).table.symbols

variable {p : Program} {y : Symbol}

/-- What is ever in force stems from an entry of the tree, which its name is bound to in a front of
a scope. -/
theorem Holds.exists_bound (h : p.Holds y) :
    ∃ scope ∈ p.scopes, ∃ own, own <+: scope ∧ ∃ e ∈ boundIn? own y.name, e.symbol.Ages y := by
  obtain ⟨row, hrow, hy⟩ := h
  obtain ⟨own, hown, hbound⟩ := (Checker.mirrors_initial.serve row).exists_bound hy
  obtain ⟨inner, part, hledger, hpart, hinner⟩ := midway hrow
  rw [hledger, List.mem_append, List.mem_singleton] at hown
  rcases hown with hown | rfl
  · obtain ⟨scope, hscope, hle⟩ := hinner own hown
    exact ⟨scope, List.mem_cons_of_mem _ hscope, own, hle, hbound⟩
  · exact ⟨entriesAll p.body, List.mem_cons_self, own, hpart, hbound⟩

/-- What a name is bound to in a scope of the tree, at its end, is in force at some point. -/
theorem exists_holds_of_bound {scope : List Entry} {x : String} {e : Entry}
    (hscope : scope ∈ p.scopes) (he : boundIn? scope x = some e) :
    ∃ y, p.Holds y ∧ y.name = x ∧ e.symbol.Ages y := by
  obtain ⟨row, hrow, hmem⟩ : ∃ row, row <+: p.requests ∧
      scope ∈ row.foldl Ledger.heed [[]] := by
    -- the outermost scope is complete at the end, an inner one right before it is closed
    rcases List.mem_cons.mp hscope with rfl | hscope
    · refine ⟨requestsAll p.body, List.prefix_append _ _, ?_⟩
      rw [(fills_all p.body).after]
      exact List.mem_cons_self
    · obtain ⟨front, hfront, hreach⟩ := (fills_all p.body).reaches hscope
      obtain ⟨outer, hledger⟩ := hreach [] []
      refine ⟨front, List.prefix_append_of_prefix hfront, ?_⟩
      rw [hledger]
      exact List.mem_cons_self
  obtain ⟨y, hy, hname, hages⟩ := (Checker.mirrors_initial.serve row).exists_symbol hmem he
  exact ⟨y, ⟨row, hrow, hy⟩, hname, hages⟩

end Program

end Tercet
