import Tercet.Proofs.Check.Entries
import Tercet.Proofs.Check.Names
import Tercet.Proofs.Symbol.Aging

/-!
# `Tercet.Proofs.Check.Bindings`: scopes hold what has been entered into them

A scope of a table agrees with the row of entries that have been made in it (`Scope.Settles`): it
has one symbol for each name, in the order of first entry, and the symbol is the one of the entry
that the name is bound to. Entering one more name keeps the agreement, and reports what the row says
(`Checker.settles_enter`).
-/

set_option autoImplicit false

namespace Tercet

/-! ### Scopes -/

/-- What stands in the second of two related rows is related to something in the first. -/
theorem exists_of_mem_forall₂ {α β : Type} {R : α → β → Prop} {as : List α} {bs : List β}
    (h : List.Forall₂ R as bs) {b : β} (hb : b ∈ bs) : ∃ a ∈ as, R a b := by
  induction h with
  | nil => cases hb
  | cons hhead _ ih =>
    rcases List.mem_cons.mp hb with rfl | hb
    · exact ⟨_, List.mem_cons_self, hhead⟩
    · obtain ⟨a, ha, hab⟩ := ih hb
      exact ⟨a, List.mem_cons_of_mem _ ha, hab⟩

/-- The scope is what the entries make of it: it has one symbol for each name, in the order of
first entry, and a symbol is that of the entry that its name is bound to, but for a first value
and a first reading. -/
structure Scope.Settles (s : Scope) (entries : List Entry) : Prop where
  names : s.toList.map Symbol.name = (entries.map Entry.name).eraseDups
  bound : ∀ y ∈ s.toList, ∃ e ∈ boundIn? entries y.name, e.symbol.Ages y

namespace Scope.Settles

variable {s s' : Scope} {own : List Entry} {e : Entry} {x : String} {y : Symbol}

/-- The scope before the first entry. -/
theorem empty : Scope.empty.Settles [] :=
  ⟨rfl, List.forall_mem_nil _⟩

/-- A first value or a first reading keeps a scope with its entries. -/
theorem of_ages (h : s.Settles own) (hs : s.Ages s') : s'.Settles own where
  names := by
    have hnames : List.Forall₂ Eq (s'.toList.map Symbol.name) (s.toList.map Symbol.name) := by
      rw [List.forall₂_map_left_iff, List.forall₂_map_right_iff]
      exact (hs.imp fun _ _ => Symbol.Ages.name_eq).flip
    rw [← h.names]
    exact List.forall₂_eq_eq_eq ▸ hnames
  bound y hy := by
    obtain ⟨x, hx, hages⟩ := exists_of_mem_forall₂ hs hy
    obtain ⟨e, he, hold⟩ := h.bound x hx
    exact ⟨e, by rwa [hages.name_eq], hold.trans hages⟩

/-- A name is free in the scope exactly if it is free among the entries. -/
theorem get?_eq_none_iff (h : s.Settles own) : s.get? x = none ↔ boundIn? own x = none := by
  rw [boundIn?_eq_none_iff, ← List.mem_eraseDups, ← h.names, List.mem_map]
  constructor
  · rintro hnone ⟨y, hy, rfl⟩
    rw [get?_name_of_mem hy] at hnone
    cases hnone
  · intro hnone
    cases hget : s.get? x with
    | none => rfl
    | some y => exact absurd ⟨y, get?_eq_some_iff.mp hget⟩ hnone

/-- A symbol of the scope is that of the entry to which its name is bound. -/
theorem exists_of_get? (h : s.Settles own) (hget : s.get? x = some y) :
    ∃ e, boundIn? own x = some e ∧ e.symbol.Ages y := by
  obtain ⟨hy, rfl⟩ := get?_eq_some_iff.mp hget
  exact h.bound y hy

/-- For other names, one more entry changes nothing. -/
theorem bound_of_ne (h : s.Settles own) (hy : y ∈ s.toList) (hne : e.name ≠ y.name) :
    ∃ e' ∈ boundIn? (own ++ [e]) y.name, e'.symbol.Ages y := by
  rw [boundIn?_append_of_ne hne]
  exact h.bound y hy

/-- The first entry of a name makes it the last of the names. -/
theorem names_append (own : List Entry) (e : Entry) :
    ((own ++ [e]).map Entry.name).eraseDups = (own.map Entry.name).eraseDups ++
      (if boundIn? own e.name = none then [e.name] else []) := by
  rw [List.map_append, List.eraseDups_append, List.map_singleton, List.removeAll,
    List.filter_singleton, List.elem_eq_mem]
  refine congrArg _ ?_
  by_cases hmem : e.name ∈ own.map Entry.name
  · rw [if_neg fun hnone => boundIn?_eq_none_iff.mp hnone hmem, decide_eq_true hmem]
    rfl
  · rw [if_pos (boundIn?_eq_none_iff.mpr hmem), decide_eq_false hmem]
    rfl

/-- An entry under a free name. -/
theorem insert? (h : s.Settles own) (hinsert : s.insert? e.symbol = some s')
    (hfree : boundIn? own e.name = none) : s'.Settles (own ++ [e]) where
  names := by
    rw [toList_insert? hinsert, names_append, if_pos hfree, List.map_append, h.names,
      List.map_singleton, e.name_symbol]
  bound y hy := by
    rw [toList_insert? hinsert, List.mem_append, List.mem_singleton] at hy
    rcases hy with hy | rfl
    · refine h.bound_of_ne hy fun hname => ?_
      -- an older symbol of that name would not have left it free
      have hnone := h.get?_eq_none_iff.mpr hfree
      rw [hname, get?_name_of_mem hy] at hnone
      cases hnone
    · refine ⟨e, ?_, .refl _⟩
      rw [e.name_symbol]
      exact boundIn?_append_of_free hfree

/-- An entry that leaves the scope, and what its name is bound to. -/
theorem keep (h : s.Settles own) (htaken : boundIn? own e.name ≠ none)
    (hkeep : boundIn? (own ++ [e]) e.name = boundIn? own e.name) : s.Settles (own ++ [e]) where
  names := by rw [names_append, if_neg htaken, List.append_nil, h.names]
  bound y hy := by
    by_cases hname : e.name = y.name
    · rw [← hname, hkeep, hname]
      exact h.bound y hy
    · exact h.bound_of_ne hy hname

/-- A definition that takes the place of a prototype. -/
theorem replace? (h : s.Settles own) (hreplace : s.replace? e.symbol = some s')
    (htaken : boundIn? own e.name ≠ none)
    (hcompleted : boundIn? (own ++ [e]) e.name = some e) : s'.Settles (own ++ [e]) where
  names := by
    rw [names_append, if_neg htaken, List.append_nil, ← h.names, toList_replace? hreplace,
      List.map_map]
    refine List.map_congr_left fun y _ => ?_
    rw [Function.comp_apply]
    split
    · rename_i hname
      exact hname.symm
    · rfl
  bound y hy := by
    rw [toList_replace? hreplace, List.mem_map] at hy
    obtain ⟨z, hz, rfl⟩ := hy
    split
    -- the symbol of the name is now the one of the entry, and the others are as before
    · refine ⟨e, ?_, .refl _⟩
      rw [e.name_symbol]
      exact hcompleted
    · rename_i hname
      rw [e.name_symbol] at hname
      exact h.bound_of_ne hz fun heq => hname heq.symm

end Scope.Settles

/-! ### Entering a name -/

namespace Checker

variable {c : Checker} {s : Scope} {rest : List Scope} {own : List Entry}

/-- Whether a function may be declared over a symbol can be read off the entry of the symbol. -/
theorem completes_eq_allows {signature : Signature} {bound : Entry} {y : Symbol}
    (h : bound.symbol.Ages y) (defined : Bool) :
    completes signature y = bound.allows (.function signature defined) := by
  match bound with
  | .var _ _ _ _ | .parameter _ _ =>
    cases h
    rfl
  | .function announced true =>
    cases h
    rfl
  | .function announced false =>
    cases h
    rfl

/-- A name that is bound is refused, unless a prototype is repeated or completed. -/
theorem enter_of_refused {e bound : Entry} {y : Symbol}
    (hlookup : c.table.lookup? e.name = some y) (hages : bound.symbol.Ages y)
    (hallows : bound.allows e = false) : c.enter e = c.reportAll [e.refused] := by
  cases e with
  | var | parameter =>
    simp only [enter, hlookup]
    rfl
  | function signature defined =>
    rw [← completes_eq_allows hages] at hallows
    simp only [Entry.name] at hlookup
    simp only [enter, Entry.name, declareFunction, hlookup, hallows]
    rfl

/-- A definition takes the place of its prototype. -/
theorem enter_of_completed {signature announced : Signature}
    (hget : s.get? signature.name = some (.function announced false))
    (htype : announced.returnType = signature.returnType) (htable : c.table = ⟨s :: rest⟩) :
    ∃ s', s.replace? (.function signature true) = some s' ∧
      c.enter (.function signature true) = ⟨⟨s' :: rest⟩, c.log⟩ := by
  have hlookup : c.table.lookup? signature.name = some (.function announced false) := by
    rw [htable]
    exact hget
  have hreplace : (s.replace? (.function signature true)).isSome = true := by
    rw [Scope.isSome_replace?]
    exact Option.isSome_of_eq_some hget
  obtain ⟨s', hs'⟩ := Option.isSome_iff_exists.mp hreplace
  have hmodify : c.table.modifyInnermost? (fun s => s.replace? (.function signature true))
      = some ⟨s' :: rest⟩ := by
    simp [Table.modifyInnermost?, htable, hs']
  have hcompletes : completes signature (.function announced false) = true :=
    decide_eq_true htype
  exact ⟨s', hs', by
    simp only [enter, Entry.name, declareFunction, hlookup, hcompletes, hmodify, if_true]⟩

/-- One more entry into a scope that agrees with its entries. -/
theorem settles_enter (htable : c.table = ⟨s :: rest⟩) (h : s.Settles own) (e : Entry) :
    ∃ s', (c.enter e).table = ⟨s' :: rest⟩ ∧ s'.Settles (own ++ [e]) ∧
      (c.enter e).log = c.log ++ (refusal? own e).toList := by
  cases hget : s.get? e.name with
  | none =>
    have hfree := h.get?_eq_none_iff.mp hget
    have hne : c.table.scopes ≠ [] := by
      rw [htable]
      exact List.cons_ne_nil _ _
    have hat : c.table.at? 0 e.name = none := by
      rw [htable]
      exact hget
    -- a free name is declared, and nothing is said
    obtain ⟨t, hdeclare, henter⟩ := enter_of_free hne hat
    obtain ⟨s₀, s', rest', hinsert, ht, rfl⟩ := Table.exists_of_modifyInnermost? hdeclare
    cases htable.symm.trans ht
    refine ⟨s', by rw [henter], h.insert? hinsert hfree, ?_⟩
    rw [henter, refusal?, hfree]
    exact (List.append_nil _).symm
  | some y =>
    obtain ⟨bound, hbound, hages⟩ := h.exists_of_get? hget
    have htaken : boundIn? own e.name ≠ none := by simp [hbound]
    have hlookup : c.table.lookup? e.name = some y := by
      rw [htable]
      exact hget
    cases hallows : bound.allows e with
    | false =>
      have hrefusal : refusal? own e = some e.refused := by
        simp [refusal?, hbound, hallows]
      rw [enter_of_refused hlookup hages hallows, hrefusal]
      refine ⟨s, htable, h.keep htaken ?_, rfl⟩
      -- what completes a prototype would have been allowed
      rw [hbound]
      refine boundIn?_append_of_bound hbound ?_
      rintro announced rfl
      by_contra hcompletes
      obtain ⟨s', rfl, htype⟩ := Entry.exists_of_completes (Bool.not_eq_false _ ▸ hcompletes)
      exact absurd (decide_eq_true htype) (Bool.eq_false_iff.mp hallows)
    | true =>
      have hrefusal : refusal? own e = none := by simp [refusal?, hbound, hallows]
      rw [hrefusal, Option.toList_none, List.append_nil]
      -- only a prototype may be entered again, by a definition or by another prototype
      obtain ⟨announced, signature, defined, rfl, rfl, htype⟩ := Entry.exists_of_allows hallows
      obtain rfl : y = .function announced false := by
        cases hages
        rfl
      cases defined with
      | true =>
        obtain ⟨s', hreplace, henter⟩ := enter_of_completed hget htype htable
        refine ⟨s', by rw [henter], h.replace? hreplace htaken ?_, by rw [henter]⟩
        exact boundIn?_append_of_completes hbound (decide_eq_true htype)
      | false =>
        have henter : c.enter (.function signature false) = c := by
          have hcompletes : completes signature (.function announced false) = true :=
            decide_eq_true htype
          simp only [Entry.name] at hlookup
          simp only [enter, Entry.name, declareFunction, hlookup, hcompletes, if_true]
          rfl
        rw [henter]
        refine ⟨s, htable, h.keep htaken ?_, rfl⟩
        rw [hbound]
        exact boundIn?_append_of_bound hbound fun _ _ => rfl

end Checker

end Tercet
