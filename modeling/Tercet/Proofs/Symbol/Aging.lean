import Mathlib.Data.List.Forall2
import Tercet.Proofs.Symbol.Lookup

/-!
# `Tercet.Proofs.Symbol.Aging`: how symbols, scopes and tables change over time

What a scope says about a name is settled when the name is declared, up to little. A variable
may still be read and given its first value, and the prototype of a function may still be
completed. The relations of this module say so:

* `Symbol.Ages`: the symbol is the same, but for a first reading and a first value;
* `Symbol.Matures`: it has aged, or it was a prototype and is a definition now;
* `Scope.Ages`: all symbols of the scope have aged, each in its place, and none is new;
* `Scope.Grows`: all symbols have matured, each in its place, and new ones stand behind them;
* `Table.Ages` and `Table.Grows`: all scopes have aged, and in the second case the innermost
  one has grown.

All compose. Each operation on a table has one lemma that says which of them holds.
-/

set_option autoImplicit false

namespace Tercet

/-- Relations between items that compose do so between rows. -/
theorem forall₂_trans {α β γ : Type} {R : α → β → Prop} {S : β → γ → Prop} {T : α → γ → Prop}
    {as : List α} {bs : List β} {cs : List γ} (hab : List.Forall₂ R as bs)
    (hbc : List.Forall₂ S bs cs) (hT : ∀ a b c, R a b → S b c → T a c) :
    List.Forall₂ T as cs := by
  induction hab generalizing cs with
  | nil =>
    cases hbc
    exact .nil
  | cons hhead _ ih =>
    cases hbc with
    | cons hhead' htail' => exact .cons (hT _ _ _ hhead hhead') (ih htail')

/-! ### Symbols -/

/-- The variable is the same, but for a first value and a first reading. -/
structure Variable.Ages (v w : Variable) : Prop where
  name : w.name = v.name
  type : w.type = v.type
  line : w.line = v.line
  initializedAt : v.initializedAt.isSome = true → w.initializedAt = v.initializedAt
  used : v.used = true → w.used = true

/-- The symbol is the same, but for a first value and a first reading of a variable. -/
inductive Symbol.Ages : Symbol → Symbol → Prop
  | var {v w : Variable} (h : v.Ages w) : Ages (.var v) (.var w)
  | function (s : Signature) (defined : Bool) : Ages (.function s defined) (.function s defined)

/-- The symbol has aged, or a definition has taken the place of a prototype. -/
inductive Symbol.Matures : Symbol → Symbol → Prop
  | ages {x y : Symbol} (h : x.Ages y) : Matures x y
  | completed {s s' : Signature} (hname : s'.name = s.name)
      (htype : s'.returnType = s.returnType) : Matures (.function s false) (.function s' true)

namespace Symbol

variable {x y z : Symbol}

/-- A symbol that stays as it is has aged by nothing. -/
theorem Ages.refl (x : Symbol) : x.Ages x := by
  cases x with
  | var v => exact .var ⟨rfl, rfl, rfl, fun _ => rfl, id⟩
  | function s defined => exact .function s defined

/-- A symbol ages step by step. -/
theorem Ages.trans (h : x.Ages y) (h' : y.Ages z) : x.Ages z := by
  cases h with
  | function => exact h'
  | @var v w hv =>
    cases h' with
    | var hw =>
      refine .var ⟨hw.name.trans hv.name, hw.type.trans hv.type, hw.line.trans hv.line, ?_,
        fun hused => hw.used (hv.used hused)⟩
      intro hsome
      -- the first value is kept twice
      have hkept := hv.initializedAt hsome
      rw [hw.initializedAt (by rw [hkept]; exact hsome), hkept]

/-- A symbol keeps its name when it ages. -/
theorem Ages.name_eq (h : x.Ages y) : y.name = x.name := by
  cases h with
  | var h => exact h.name
  | function => rfl

/-- A symbol that stays as it is has matured by nothing. -/
theorem Matures.refl (x : Symbol) : x.Matures x :=
  .ages (.refl x)

/-- A symbol keeps its name when it matures. -/
theorem Matures.name_eq (h : x.Matures y) : y.name = x.name := by
  cases h with
  | ages h => exact h.name_eq
  | completed hname _ => exact hname

/-- A symbol matures step by step, and is completed once at most. -/
theorem Matures.trans (h : x.Matures y) (h' : y.Matures z) : x.Matures z := by
  cases h with
  | ages h =>
    cases h' with
    | ages h' => exact .ages (h.trans h')
    | completed hname htype =>
      cases h
      exact .completed hname htype
  | completed hname htype =>
    -- a definition is not completed again
    cases h' with
    | ages h' =>
      cases h'
      exact .completed hname htype

/-- A reading ages a symbol. -/
theorem ages_markUsed (x : Symbol) : x.Ages x.markUsed := by
  cases x with
  | var v => exact .var ⟨rfl, rfl, rfl, fun _ => rfl, fun _ => rfl⟩
  | function s defined => exact .function s defined

/-- So does a store, which counts as the first value only if there was none. -/
theorem ages_store (line : Nat) (x : Symbol) : x.Ages (x.store line) := by
  cases x with
  | function s defined => exact .function s defined
  | var v =>
    refine .var ⟨rfl, rfl, rfl, fun hsome => ?_, id⟩
    show v.initializedAt.or (some line) = v.initializedAt
    exact Option.or_of_isSome hsome

end Symbol

/-! ### Scopes -/

namespace Scope

variable {s s' s'' : Scope}

/-- The symbols have aged, each in its place, and there are no others. -/
def Ages (s s' : Scope) : Prop :=
  List.Forall₂ Symbol.Ages s.toList s'.toList

/-- The symbols have matured, each in its place, and new ones stand behind them. -/
def Grows (s s' : Scope) : Prop :=
  ∃ kept gained, s'.toList = kept ++ gained ∧ List.Forall₂ Symbol.Matures s.toList kept

/-- A scope that stays as it is has aged by nothing. -/
theorem Ages.refl (s : Scope) : s.Ages s :=
  List.forall₂_same.mpr fun x _ => Symbol.Ages.refl x

/-- A scope ages step by step. -/
theorem Ages.trans (h : s.Ages s') (h' : s'.Ages s'') : s.Ages s'' :=
  forall₂_trans h h' fun _ _ _ => Symbol.Ages.trans

/-- A scope that has aged has grown by no symbol. -/
theorem Ages.grows (h : s.Ages s') : s.Grows s' :=
  ⟨s'.toList, [], (List.append_nil _).symm, h.imp fun _ _ => .ages⟩

/-- A scope grows step by step. -/
theorem Grows.trans (h : s.Grows s') (h' : s'.Grows s'') : s.Grows s'' := by
  obtain ⟨kept, gained, hs', hkept⟩ := h
  obtain ⟨all, more, hs'', hall⟩ := h'
  rw [hs'] at hall
  -- the symbols of the first scope are the front of what the second has kept
  obtain ⟨front, back, rfl, hfront, _⟩ : ∃ front back, all = front ++ back ∧
      List.Forall₂ Symbol.Matures kept front ∧ List.Forall₂ Symbol.Matures gained back := by
    refine ⟨all.take kept.length, all.drop kept.length, (List.take_append_drop _ _).symm, ?_, ?_⟩
    · simpa using List.forall₂_take kept.length hall
    · simpa using List.forall₂_drop kept.length hall
  refine ⟨front, back ++ more, by rw [hs'', List.append_assoc], ?_⟩
  exact forall₂_trans hkept hfront fun _ _ _ => Symbol.Matures.trans

/-- A new symbol stands behind the others. -/
theorem grows_insert? {x : Symbol} (h : s.insert? x = some s') : s.Grows s' :=
  ⟨s.toList, [x], toList_insert? h,
    List.forall₂_same.mpr fun y _ => Symbol.Matures.refl y⟩

/-- A symbol that is replaced by a related one. -/
theorem forall₂_replace? {R : Symbol → Symbol → Prop} (hrefl : ∀ y, R y y) {x old : Symbol}
    (hold : s.get? x.name = some old) (hx : R old x) (h : s.replace? x = some s') :
    List.Forall₂ R s.toList s'.toList := by
  rw [toList_replace? h, List.forall₂_map_right_iff, List.forall₂_same]
  intro y hy
  split
  · rename_i hname
    -- the scope has one symbol of the name
    have hget := get?_name_of_mem hy
    rw [hname, hold] at hget
    rwa [← Option.some.inj hget]
  · exact hrefl y

/-- A symbol that is replaced by one that it can become. -/
theorem grows_replace? {x old : Symbol} (hold : s.get? x.name = some old) (hx : old.Matures x)
    (h : s.replace? x = some s') : s.Grows s' :=
  ⟨s'.toList, [], (List.append_nil _).symm, forall₂_replace? Symbol.Matures.refl hold hx h⟩

/-- Changing the symbol of a name is changing all that have the name. -/
theorem toList_modify? {f : Symbol → Symbol} (hf : ∀ z, (f z).name = z.name) {x : String}
    (h : s.modify? x f = some s') :
    s'.toList = s.toList.map fun y => if y.name = x then f y else y := by
  obtain ⟨old, hold, hreplace⟩ := Option.bind_eq_some_iff.mp h
  have hname := name_of_get? hold
  rw [toList_replace? hreplace]
  refine List.map_congr_left fun y hy => ?_
  rw [hf, hname]
  split
  · rename_i hyx
    have hget := get?_name_of_mem hy
    rw [hyx, hold] at hget
    rw [Option.some.inj hget]
  · rfl

/-- A change that ages a symbol ages its scope. -/
theorem ages_modify? {f : Symbol → Symbol} (hf : ∀ z : Symbol, z.Ages (f z)) {x : String}
    (h : s.modify? x f = some s') : s.Ages s' := by
  rw [Ages, toList_modify? (fun z => (hf z).name_eq) h, List.forall₂_map_right_iff,
    List.forall₂_same]
  intro y _
  split
  · exact hf y
  · exact .refl y

end Scope

/-! ### Tables -/

namespace Table

variable {t t' t'' : Table}

/-- All scopes have aged. -/
def Ages (t t' : Table) : Prop :=
  List.Forall₂ Scope.Ages t.scopes t'.scopes

/-- The innermost scope has grown, and all others have aged. -/
inductive Grows : Table → Table → Prop
  | intro {s s' : Scope} {rest rest' : List Scope} (inner : s.Grows s')
      (outer : List.Forall₂ Scope.Ages rest rest') : Grows ⟨s :: rest⟩ ⟨s' :: rest'⟩

/-- A table that stays as it is has aged by nothing. -/
theorem Ages.refl (t : Table) : t.Ages t :=
  List.forall₂_same.mpr fun s _ => Scope.Ages.refl s

/-- A table that has aged has grown, if it has a scope. -/
theorem Ages.grows (h : t.Ages t') (hne : t.scopes ≠ []) : t.Grows t' := by
  obtain ⟨scopes⟩ := t
  obtain ⟨scopes'⟩ := t'
  cases h with
  | nil => exact absurd rfl hne
  | cons hinner houter => exact .intro hinner.grows houter

/-- A table that stays as it is has grown by nothing. -/
theorem Grows.refl (hne : t.scopes ≠ []) : t.Grows t :=
  (Ages.refl t).grows hne

/-- A table grows step by step. -/
theorem Grows.trans (h : t.Grows t') (h' : t'.Grows t'') : t.Grows t'' := by
  cases h with
  | intro hinner houter =>
    cases h' with
    | intro hinner' houter' =>
      exact .intro (hinner.trans hinner')
        (forall₂_trans houter houter' fun _ _ _ => Scope.Ages.trans)

/-- A table that has grown has as many scopes as before. -/
theorem Grows.depth_eq (h : t.Grows t') : t'.depth = t.depth := by
  cases h with
  | intro _ houter =>
    show List.length _ + 1 = List.length _ + 1
    rw [houter.length_eq]

/-- It has at least one. -/
theorem Grows.depth_pos (h : t.Grows t') : 0 < t'.depth := by
  cases h
  exact Nat.succ_pos _

/-- The scopes from a level on have grown, if there are any: only the innermost of all can have
gained something. -/
theorem Grows.drop (h : t.Grows t') {k : Nat} (hk : k < t.depth) :
    Grows ⟨t.scopes.drop k⟩ ⟨t'.scopes.drop k⟩ := by
  cases k with
  | zero => exact h
  | succ k =>
    cases h with
    | @intro s s' rest rest' _ houter =>
      have hages : Ages ⟨rest.drop k⟩ ⟨rest'.drop k⟩ := List.forall₂_drop k houter
      refine hages.grows ?_
      rw [ne_eq, List.drop_eq_nil_iff, Nat.not_le]
      exact Nat.lt_of_succ_lt_succ hk

/-- A change that ages what a name stands for ages the table. The induction is on the scopes, from
the innermost outwards. -/
theorem ages_modify? {f : Symbol → Symbol} (hf : ∀ z : Symbol, z.Ages (f z)) {x : String}
    (h : t.modify? x f = some t') : t.Ages t' := by
  obtain ⟨scopes⟩ := t
  obtain ⟨scopes', hscopes, rfl⟩ := Option.map_eq_some_iff.mp h
  clear h
  show List.Forall₂ Scope.Ages scopes scopes'
  induction scopes generalizing scopes' with
  | nil => cases hscopes
  | cons s rest ih =>
    rw [modifyIn?] at hscopes
    split at hscopes
    · rename_i s' hs'
      cases hscopes
      exact .cons (Scope.ages_modify? hf hs') (Ages.refl ⟨rest⟩)
    · obtain ⟨rest', hrest, rfl⟩ := Option.map_eq_some_iff.mp hscopes
      exact .cons (.refl s) (ih rest' hrest)

/-- A change of what a name stands for, scope by scope: it is made to the symbol of the name at
the level where the name is found. -/
theorem toList_modify? {f : Symbol → Symbol} (hf : ∀ z, (f z).name = z.name) {x : String}
    {k : Nat} (hk : t.ResolvesAt x k) :
    ∃ t', t.modify? x f = some t' ∧ ∀ (m : Nat) (s' : Scope), t'.scopes[m]? = some s' →
      ∃ s, t.scopes[m]? = some s ∧
        s'.toList = s.toList.map fun y => if m = k ∧ y.name = x then f y else y := by
  obtain ⟨scopes⟩ := t
  -- the levels are counted down with the scopes
  induction scopes generalizing k with
  | nil => exact absurd hk.found (by simp [at?])
  | cons s rest ih =>
    cases k with
    | zero =>
      have hsome : (s.modify? x f).isSome = true := by
        rw [Scope.isSome_modify? hf]
        exact hk.found
      obtain ⟨changed, hchanged⟩ := Option.isSome_iff_exists.mp hsome
      refine ⟨⟨changed :: rest⟩, by simp [modify?, modifyIn?, hchanged], fun m s' hs' => ?_⟩
      cases m with
      | zero =>
        obtain rfl : changed = s' := Option.some.inj hs'
        exact ⟨s, rfl, by simp [Scope.toList_modify? hf hchanged]⟩
      | succ m => exact ⟨s', hs', by simp⟩
    | succ k =>
      have hs : s.get? x = none := hk.first 0 (Nat.succ_pos k)
      have hkept : s.modify? x f = none := by simp [Scope.modify?, hs]
      have hrest : ResolvesAt ⟨rest⟩ x k :=
        ⟨hk.found, fun m hm => hk.first (m + 1) (Nat.succ_lt_succ hm)⟩
      obtain ⟨⟨rest'⟩, hrest', hlists⟩ := ih hrest
      obtain ⟨_, hscopes, hmk⟩ := Option.map_eq_some_iff.mp hrest'
      cases hmk
      refine ⟨⟨s :: rest'⟩, by simp [modify?, modifyIn?, hkept, hscopes], fun m s' hs' => ?_⟩
      cases m with
      | zero =>
        obtain rfl : s = s' := Option.some.inj hs'
        exact ⟨s, rfl, by simp⟩
      | succ m => simpa using hlists m s' hs'

/-- A reading, scope by scope. -/
theorem toList_markUsed {x : String} {k m : Nat} (hk : t.ResolvesAt x k) {s' : Scope}
    (hs' : (t.markUsed x).scopes[m]? = some s') :
    ∃ s, t.scopes[m]? = some s ∧
      s'.toList = s.toList.map fun y => if m = k ∧ y.name = x then y.markUsed else y := by
  obtain ⟨t', hmodify, hlists⟩ := toList_modify? Symbol.name_markUsed hk
  rw [markUsed, hmodify] at hs'
  exact hlists m s' hs'

/-- A store, scope by scope. -/
theorem toList_store {x : String} {k m line : Nat} (hk : t.ResolvesAt x k) {s' : Scope}
    (hs' : (t.store x line).scopes[m]? = some s') :
    ∃ s, t.scopes[m]? = some s ∧
      s'.toList = s.toList.map fun y => if m = k ∧ y.name = x then y.store line else y := by
  obtain ⟨t', hmodify, hlists⟩ := toList_modify? (Symbol.name_store line) hk
  rw [store, hmodify] at hs'
  exact hlists m s' hs'

/-- A change that may fail, and that ages the table where it succeeds. -/
theorem ages_getD_modify? {f : Symbol → Symbol} (hf : ∀ z : Symbol, z.Ages (f z)) (x : String) :
    t.Ages ((t.modify? x f).getD t) := by
  cases h : t.modify? x f with
  | none => exact .refl t
  | some t' => exact ages_modify? hf h

/-- A reading ages the table. -/
theorem ages_markUsed (t : Table) (x : String) : t.Ages (t.markUsed x) :=
  ages_getD_modify? Symbol.ages_markUsed x

/-- So does a store. -/
theorem ages_store (t : Table) (x : String) (line : Nat) : t.Ages (t.store x line) :=
  ages_getD_modify? (Symbol.ages_store line) x

/-- A change of the innermost scope leaves the others. -/
theorem exists_of_modifyInnermost? {f : Scope → Option Scope}
    (h : t.modifyInnermost? f = some t') :
    ∃ s s' rest, f s = some s' ∧ t = ⟨s :: rest⟩ ∧ t' = ⟨s' :: rest⟩ := by
  obtain ⟨scopes⟩ := t
  cases scopes with
  | nil => cases h
  | cons s rest =>
    obtain ⟨s', hs', rfl⟩ := Option.map_eq_some_iff.mp h
    exact ⟨s, s', rest, hs', rfl, rfl⟩

/-- A change that lets the innermost scope grow lets the table grow. -/
theorem grows_modifyInnermost? {f : Scope → Option Scope}
    (hf : ∀ s s', t.innermost? = some s → f s = some s' → s.Grows s')
    (h : t.modifyInnermost? f = some t') : t.Grows t' := by
  obtain ⟨s, s', rest, hs', rfl, rfl⟩ := exists_of_modifyInnermost? h
  exact .intro (hf s s' rfl hs') (Ages.refl ⟨rest⟩)

/-- So a declaration does. -/
theorem grows_declare? {x : Symbol} (h : t.declare? x = some t') : t.Grows t' :=
  grows_modifyInnermost? (fun _ _ _ hs => Scope.grows_insert? hs) h

/-- A symbol of the innermost scope that is replaced by one that it can become. -/
theorem grows_replace? {x old : Symbol} (hold : t.lookup? x.name = some old) (hx : old.Matures x)
    (h : t.modifyInnermost? (fun s => s.replace? x) = some t') : t.Grows t' := by
  refine grows_modifyInnermost? (fun s s' hs hs' => ?_) h
  rw [lookup?, hs] at hold
  exact Scope.grows_replace? hold hx hs'

end Table

end Tercet
