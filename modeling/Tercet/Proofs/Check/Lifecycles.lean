import Mathlib.Data.List.Infix
import Tercet.Proofs.Check.Frames
import Tercet.Proofs.Check.Names

/-!
# `Tercet.Proofs.Check.Lifecycles`: what becomes of a symbol while its scope is open

Any row of requests may be made to a checker, also in an order that no program brings up. As
long as a scope stays open, its symbols stay where they are, and they change in few ways: a
variable is read for the first time or gets its first value, and a prototype is completed
(`persists_serve`). So a name that has been stored into can be read from then on.

Scopes are numbered from the outermost here, because that number does not change when others are
opened and closed further in. For one request, the change to the table is that of an event
(`Checker.table_perform`), and what an event does to the scopes up to a given one is known
(`Checker.grows_handle`). Rows of requests follow by induction.
-/

set_option autoImplicit false

namespace Tercet

/-! ### Places of symbols -/

/-- Related rows are related place by place. -/
theorem exists_of_forall₂_getElem? {α β : Type} {R : α → β → Prop} {as : List α} {bs : List β}
    (h : List.Forall₂ R as bs) {i : Nat} {a : α} (ha : as[i]? = some a) :
    ∃ b, bs[i]? = some b ∧ R a b := by
  induction h generalizing i with
  | nil => cases ha
  | cons hhead _ ih =>
    cases i with
    | zero =>
      cases ha
      exact ⟨_, rfl, hhead⟩
    | succ i => exact ih ha

/-- What has a value keeps it. -/
theorem Symbol.Matures.isInitialized {x y : Symbol} (h : x.Matures y)
    (hx : x.isInitialized = true) : y.isInitialized = true := by
  cases h with
  | completed => rfl
  | ages h =>
    cases h with
    | function => rfl
    | var h =>
      show Option.isSome _ = true
      rw [h.initializedAt hx]
      exact hx

namespace Table

variable {t t' : Table} {d i k : Nat} {x y : Symbol}

/-- The symbol at a place of a scope. Scopes are numbered from the outermost. -/
def slot? (t : Table) (d i : Nat) : Option Symbol :=
  t.outermostFirst[d]?.bind fun s => s.toList[i]?

/-- No scope further in than scope `d` has the name. -/
def Unshadowed (t : Table) (name : String) (d : Nat) : Prop :=
  ∀ s ∈ t.outermostFirst.drop (d + 1), s.contains name = false

instance (t : Table) (name : String) (d : Nat) : Decidable (t.Unshadowed name d) :=
  inferInstanceAs (Decidable (∀ s ∈ t.outermostFirst.drop (d + 1), s.contains name = false))

/-- The scopes up to scope `d`. -/
def upTo (t : Table) (d : Nat) : Table :=
  ⟨t.scopes.drop (t.depth - (d + 1))⟩

/-- There are `d + 1` scopes up to scope `d`. -/
theorem depth_upTo (hd : d < t.depth) : (t.upTo d).depth = d + 1 := by
  rw [depth, upTo, List.length_drop]
  exact Nat.sub_sub_self hd

/-- Scopes that stay as they are have grown by nothing. -/
theorem grows_upTo_refl (hd : d < t.depth) : (t.upTo d).Grows (t.upTo d) := by
  refine .refl (List.length_pos_iff.mp ?_)
  show 0 < (t.upTo d).depth
  rw [depth_upTo hd]
  exact Nat.succ_pos d

/-- The numbers of the scopes run against their levels. -/
theorem outermostFirst_getElem? (hd : d < t.depth) :
    t.outermostFirst[d]? = t.scopes[t.depth - (d + 1)]? := by
  rw [outermostFirst, List.getElem?_reverse hd]
  exact congrArg (t.scopes[·]?) (by rw [depth]; omega)

/-- A symbol has a place only in a scope that is open. -/
theorem lt_depth_of_slot? (h : t.slot? d i = some x) : d < t.depth := by
  obtain ⟨s, hs, _⟩ := Option.bind_eq_some_iff.mp h
  obtain ⟨hd, _⟩ := List.getElem?_eq_some_iff.mp hs
  rwa [outermostFirst, List.length_reverse] at hd

/-- The places of scope `d` are those of the innermost of the scopes up to it. -/
theorem slot?_eq_upTo (hd : d < t.depth) :
    t.slot? d i = (t.upTo d).innermost?.bind fun s => s.toList[i]? := by
  rw [slot?, outermostFirst_getElem? hd, innermost?, upTo, List.head?_drop]

/-- In scopes that have grown, a symbol has matured where it stands. -/
theorem Grows.exists_slot? (h : (t.upTo d).Grows (t'.upTo d)) (hd' : d < t'.depth)
    (hx : t.slot? d i = some x) : ∃ y, t'.slot? d i = some y ∧ x.Matures y := by
  rw [slot?_eq_upTo (lt_depth_of_slot? hx)] at hx
  rw [slot?_eq_upTo hd']
  generalize t.upTo d = old at h hx
  generalize t'.upTo d = new at h
  cases h with
  | intro hinner _ =>
    obtain ⟨kept, gained, hlist, hkept⟩ := hinner
    obtain ⟨y, hy, hmatures⟩ := exists_of_forall₂_getElem? hkept hx
    refine ⟨y, ?_, hmatures⟩
    show (Scope.toList _)[i]? = some y
    rw [hlist, List.getElem?_append_left (List.getElem?_eq_some_iff.mp hy).1]
    exact hy

/-- The scopes further in than scope `d` are those of the levels below its own. -/
theorem unshadowed_iff {name : String} :
    t.Unshadowed name d ↔ ∀ m < t.depth - (d + 1), t.at? m name = none := by
  -- counted from the other side, these are the first scopes of the table
  have hmem (s : Scope) : s ∈ t.outermostFirst.drop (d + 1) ↔
      ∃ m < t.depth - (d + 1), t.scopes[m]? = some s := by
    rw [outermostFirst, List.drop_reverse, List.mem_reverse, List.mem_iff_getElem?]
    refine exists_congr fun m => ?_
    rw [List.getElem?_take, Option.ite_none_right_eq_some]
    rfl
  constructor
  · intro h m hm
    rw [at?, Option.bind_eq_none_iff]
    intro s hs
    have hfree := h s ((hmem s).mpr ⟨m, hm, hs⟩)
    rwa [Scope.contains_eq_isSome_get?, Option.isSome_eq_false_iff, Option.isNone_iff_eq_none]
      at hfree
  · intro h s hs
    obtain ⟨m, hm, hget⟩ := (hmem s).mp hs
    have hnone : s.get? name = none := by
      have hat := h m hm
      rwa [at?, hget] at hat
    rw [Scope.contains_eq_isSome_get?, hnone]
    rfl

/-- A name stands for a symbol of it that no scope further in covers up. -/
theorem resolve?_of_slot? (hy : t.slot? d i = some y) (hclear : t.Unshadowed y.name d) :
    t.resolve? y.name = some y := by
  have hd := lt_depth_of_slot? hy
  obtain ⟨s, hs, hi⟩ := Option.bind_eq_some_iff.mp hy
  rw [outermostFirst_getElem? hd] at hs
  have hat : t.at? (t.depth - (d + 1)) y.name = some y := by
    rw [at?, hs]
    exact Scope.get?_name_of_mem (List.mem_of_getElem? hi)
  have hresolves : t.ResolvesAt y.name (t.depth - (d + 1)) :=
    ⟨Option.isSome_of_eq_some hat, unshadowed_iff.mp hclear⟩
  rw [hresolves.resolve?_eq, hat]

/-- A symbol is found under its own name. -/
theorem name_of_resolve? {name : String} (h : t.resolve? name = some x) : x.name = name := by
  obtain ⟨s, _, hget⟩ := List.exists_of_findSome?_eq_some h
  exact Scope.name_of_get? hget

/-- After a store the name stands for what it stood for before, with a value. -/
theorem resolve?_store {name : String} (h : t.resolve? name = some x) (line : Nat) :
    (t.store name line).resolve? name = some (x.store line) := by
  obtain ⟨k, hk, hat⟩ := exists_resolvesAt h
  have hat' : (t.store name line).at? k name = some (x.store line) := by
    rw [at?_store hk, if_pos ⟨rfl, rfl⟩, hat]
    rfl
  -- the scopes further in are left alone, so the name is found at the same level
  have hk' : (t.store name line).ResolvesAt name k := by
    refine ⟨Option.isSome_of_eq_some hat', fun m hm => ?_⟩
    rw [at?_store hk, if_neg (fun heq => Nat.ne_of_lt hm heq.1), hk.first m hm]
  rw [hk'.resolve?_eq, hat']

/-- What a name stands for has a place. -/
theorem exists_slot?_of_resolve? {name : String} (h : t.resolve? name = some x) :
    ∃ d i, t.slot? d i = some x ∧ t.Unshadowed name d := by
  obtain ⟨k, hk, hat⟩ := exists_resolvesAt h
  obtain ⟨s, hs, hget⟩ := Option.bind_eq_some_iff.mp hat
  obtain ⟨i, hi⟩ := List.getElem?_of_mem (Scope.get?_eq_some_iff.mp hget).1
  have hlt : k < t.depth := (List.getElem?_eq_some_iff.mp hs).1
  have hlevel : t.depth - (t.depth - (k + 1) + 1) = k := by omega
  refine ⟨t.depth - (k + 1), i, ?_, unshadowed_iff.mpr ?_⟩
  · rw [slot?, outermostFirst_getElem? (by omega), hlevel, hs]
    exact hi
  · rw [hlevel]
    exact hk.first

end Table

namespace Checker

variable {c : Checker} {d i : Nat} {request : Request} {requests : List Request} {x : Symbol}

/-! ### One request -/

/-- Types aside, a request does to the table what its event does. -/
theorem table_perform (c : Checker) (request : Request) :
    (c.perform request).2.table = (request.event?.toList.foldl handle c.untyped).table := by
  cases hq : request.isOfTree with
  | true =>
    show (c.perform request).2.untyped.table = _
    rw [untyped_perform hq]
  | false =>
    -- none of the other requests is an event, and none changes the table
    cases request with
    | combine | unused => rfl
    | fresh name line =>
      show (c.checkFresh name line).2.table = c.table
      rw [checkFresh]
      split <;> rfl
    | assignable expected actual line context => exact table_checkAssignable c _ _ _ _
    | _ => cases hq

/-- An event that leaves scope `d` open has a level to go on at. -/
theorem exists_shift {e : Event} (hd : d < c.table.depth) (hd' : d < (c.handle e).table.depth) :
    ∃ m, e.shift (c.table.depth - (d + 1)) = some m := by
  cases e with
  | closed =>
    have hdepth : (c.handle .closed).table.depth = c.table.depth - 1 := List.length_tail
    rw [hdepth] at hd'
    obtain ⟨m, hm⟩ : ∃ m, c.table.depth - (d + 1) = m + 1 :=
      ⟨c.table.depth - (d + 2), by omega⟩
    rw [hm]
    exact ⟨m, rfl⟩
  | opened | entered | stored | read => exact ⟨_, rfl⟩

/-- An event leaves the scopes up to one that stays open as they are, up to growth. -/
theorem grows_upTo_handle {e : Event} (hd : d < c.table.depth)
    (hd' : d < (c.handle e).table.depth) :
    (c.table.upTo d).Grows ((c.handle e).table.upTo d) := by
  obtain ⟨m, hm⟩ := exists_shift hd hd'
  have hgrows : (c.table.upTo d).Grows ⟨(c.handle e).table.scopes.drop m⟩ :=
    grows_handle (Table.grows_upTo_refl hd) hm
  -- as many scopes as before remain below the level, which says what the level is
  have hlevel : (c.handle e).table.depth - (d + 1) = m := by
    have hdepth := hgrows.depth_eq
    rw [Table.depth_upTo hd, Table.depth, List.length_drop, ← Table.depth] at hdepth
    omega
  rw [← hlevel] at hgrows
  exact hgrows

/-- A request leaves the scopes up to one that stays open as they are, up to growth. -/
theorem grows_perform (hd : d < c.table.depth) (hd' : d < (c.perform request).2.table.depth) :
    (c.table.upTo d).Grows ((c.perform request).2.table.upTo d) := by
  rw [table_perform] at hd' ⊢
  cases hevent : request.event? with
  | none =>
    rw [hevent] at hd'
    exact Table.grows_upTo_refl hd
  | some e =>
    rw [hevent] at hd'
    exact grows_upTo_handle (c := c.untyped) hd hd'

/-! ### Rows of requests -/

/-- Scope `d` is open at the start, and after each of the requests. -/
def KeepsOpen (c : Checker) (d : Nat) (requests : List Request) : Prop :=
  ∀ first ∈ requests.inits, d < (c.serve first).table.depth

instance (c : Checker) (d : Nat) (requests : List Request) :
    Decidable (c.KeepsOpen d requests) :=
  inferInstanceAs (Decidable (∀ first ∈ requests.inits, d < (c.serve first).table.depth))

/-- A scope stays open over a row if it is open at first and stays so after the first request. -/
theorem keepsOpen_cons : c.KeepsOpen d (request :: requests) ↔
    d < c.table.depth ∧ (c.perform request).2.KeepsOpen d requests := by
  simp [KeepsOpen, serve]

/-- The scope is open before the row. -/
theorem KeepsOpen.lt_depth (h : c.KeepsOpen d requests) : d < c.table.depth :=
  h [] (by simp)

/-- The scope is open after the row. -/
theorem KeepsOpen.lt_depth_serve (h : c.KeepsOpen d requests) :
    d < (c.serve requests).table.depth :=
  h requests (by simp)

/-- As long as a scope stays open, it and those around it stay as they are, up to growth. -/
theorem grows_serve (h : c.KeepsOpen d requests) :
    (c.table.upTo d).Grows ((c.serve requests).table.upTo d) := by
  induction requests generalizing c with
  | nil => exact Table.grows_upTo_refl h.lt_depth
  | cons request more ih =>
    obtain ⟨hd, hmore⟩ := keepsOpen_cons.mp h
    exact (grows_perform hd hmore.lt_depth).trans (ih hmore)

/-- A symbol stays where it is, as long as its scope is open. -/
theorem matures_serve (h : c.KeepsOpen d requests) (hx : c.table.slot? d i = some x) :
    ∃ y, (c.serve requests).table.slot? d i = some y ∧ x.Matures y :=
  Table.Grows.exists_slot? (grows_serve h) h.lt_depth_serve hx

/-! ### Stores -/

/-- A store that is not refused gives a value to what the name stands for. -/
theorem exists_resolve?_of_assignment {name : String} {op : AssignOp} {value : Expr} {line : Nat}
    {c' : Checker} (h : c.perform (.assignment name op value line) = (.verdict true, c')) :
    ∃ y, c'.table.resolve? name = some y ∧ y.isInitialized = true := by
  have htable : c'.table = (c.untyped.write name line).table := by
    have hperform := table_perform c (.assignment name op value line)
    rwa [h] at hperform
  rw [htable]
  cases hresolve : c.table.resolve? name with
  | none =>
    -- what stands for nothing is refused
    simp only [perform, checkAssignment, hresolve] at h
    cases h
  | some x =>
    have hstore : (c.untyped.write name line).table = c.table.store name line := by
      simp only [write, untyped, hresolve]
    rw [hstore]
    exact ⟨x.store line, Table.resolve?_store hresolve line, Symbol.isInitialized_store x line⟩

/-- As long as a scope stays open, each symbol of it stays in its place and is the same, but for
a first value, a first reading and the completion of a prototype. So a name that has been stored
into can be read from then on: as long as the scope in which it was found is open, and no scope
further in has the name. -/
theorem persists_serve :
    (∀ (c : Checker) (d i : Nat) (requests : List Request) (x : Symbol),
      c.KeepsOpen d requests → c.table.slot? d i = some x →
        ∃ y, (c.serve requests).table.slot? d i = some y ∧ x.Matures y) ∧
    ∀ (c c' : Checker) (name : String) (op : AssignOp) (value : Expr) (line : Nat),
      c.perform (.assignment name op value line) = (.verdict true, c') →
        ∃ d i x, c'.table.slot? d i = some x ∧ x.name = name ∧ c'.table.Unshadowed name d ∧
          ∀ requests, c'.KeepsOpen d requests →
            (c'.serve requests).table.Unshadowed name d →
              ∀ use, ((c'.serve requests).perform (.use name use)).1 = .verdict true := by
  refine ⟨fun c d i requests x => matures_serve, fun c c' name op value line h => ?_⟩
  obtain ⟨x, hresolve, hinit⟩ := exists_resolve?_of_assignment h
  obtain ⟨d, i, hslot, hclear⟩ := Table.exists_slot?_of_resolve? hresolve
  have hname : x.name = name := Table.name_of_resolve? hresolve
  refine ⟨d, i, x, hslot, hname, hclear, fun requests hopen hclear' use => ?_⟩
  -- the symbol is still there, with a value, and the name still stands for it
  obtain ⟨y, hy, hmatures⟩ := matures_serve hopen hslot
  have hyname : y.name = name := hmatures.name_eq.trans hname
  have hresolve' : (c'.serve requests).table.resolve? name = some y := by
    rw [← hyname] at hclear' ⊢
    exact Table.resolve?_of_slot? hy hclear'
  simp only [perform, checkUse, hresolve', hmatures.isInitialized hinit, if_true, Prod.map]

/-- `x = 1;` on line 2. -/
def firstStore : Request :=
  .assignment "x" .set (.term (.factor (.number "1" 2))) 2

/-- A scope with another `x`, which is never given a value, and after it `x++`. -/
def shadowingRow : List Request :=
  [.push, .declaration "x" .double none 3, .use "x" 3, .pop, .step "x" 4, .unused]

/-- After `int x;` and `x = 1;`, the name can be read behind a scope that has had another `x`,
but not inside it. -/
theorem persists_shadowingRow :
    (bareVariable.toChecker.perform firstStore).1 = .verdict true ∧
    (bareVariable.toChecker.perform firstStore).2.table.slot? 0 0
      = some (.var ⟨"x", .int, 1, some 2, false⟩) ∧
    (bareVariable.toChecker.perform firstStore).2.KeepsOpen 0 shadowingRow ∧
    (∃ y, ((bareVariable.toChecker.perform firstStore).2.serve shadowingRow).table.slot? 0 0
      = some y ∧ Symbol.Matures (.var ⟨"x", .int, 1, some 2, false⟩) y) ∧
    (((bareVariable.toChecker.perform firstStore).2.serve shadowingRow).perform
      (.use "x" 5)).1 = .verdict true ∧
    (((bareVariable.toChecker.perform firstStore).2.serve (shadowingRow.take 2)).perform
      (.use "x" 3)).1 = .verdict false := by
  have hstored : (bareVariable.toChecker.perform firstStore).1 = .verdict true := by
    decide +kernel
  have hslot : (bareVariable.toChecker.perform firstStore).2.table.slot? 0 0
      = some (.var ⟨"x", .int, 1, some 2, false⟩) := by decide +kernel
  have hopen : (bareVariable.toChecker.perform firstStore).2.KeepsOpen 0 shadowingRow := by
    decide +kernel
  have hclear : ((bareVariable.toChecker.perform firstStore).2.serve
      shadowingRow).table.Unshadowed "x" 0 := by decide +kernel
  refine ⟨hstored, hslot, hopen, persists_serve.1 _ _ _ _ _ hopen hslot, ?_, by decide +kernel⟩
  obtain ⟨d, i, x, hx, _, _, hread⟩ := persists_serve.2 _ _ _ _ _ _ (Prod.ext hstored rfl)
  -- there is only the outermost scope for `x` to be found in
  have hd : d < 1 := Table.lt_depth_of_slot? hx
  obtain rfl : d = 0 := Nat.lt_one_iff.mp hd
  exact hread shadowingRow hopen hclear 5

end Checker

end Tercet
