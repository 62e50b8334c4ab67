import Tercet.Proofs.Symbol.Lookup
import Tercet.Proofs.Tree.Unlined

/-!
# `Tercet.Proofs.Symbol.Unlined`: tables without their lines

Symbols keep the lines of declarations and first values. A table without these (`Table.unlined`)
is the row of its scopes, each the row of its symbols with their lines set to 0. Two tables that
are the same without their lines answer alike: what a name stands for differs in its lines
alone, a declaration succeeds in both or in neither, and after the same change they are still
the same without their lines. Each operation has one lemma that says so.
-/

set_option autoImplicit false

namespace Tercet

/-- Options that are filled together and whose values have the same view have the same view. -/
theorem map_eq_map_of_isSome {α β : Type} {a b : Option α} {view : α → β}
    (hsome : a.isSome = b.isSome) (hview : ∀ x y, a = some x → b = some y → view x = view y) :
    a.map view = b.map view := by
  cases a with
  | none =>
    cases b with
    | none => rfl
    | some y => cases hsome
  | some x =>
    cases b with
    | none => cases hsome
    | some y => exact congrArg some (hview x y rfl rfl)

/-- The other way round. -/
theorem isSome_eq_of_map_eq {α β : Type} {a b : Option α} {view : α → β}
    (h : a.map view = b.map view) : a.isSome = b.isSome := by
  rw [← Option.isSome_map (f := view), h, Option.isSome_map]

/-- So two values that look the same are both missing, or both there and alike. -/
theorem none_or_some_of_map_eq {α β : Type} {a b : Option α} {view : α → β}
    (h : a.map view = b.map view) :
    (a = none ∧ b = none) ∨ ∃ x y, a = some x ∧ b = some y ∧ view x = view y := by
  cases a with
  | none => exact .inl ⟨rfl, Option.map_eq_none_iff.mp h.symm⟩
  | some x =>
    obtain ⟨y, hy, hview⟩ := Option.map_eq_some_iff.mp h.symm
    exact .inr ⟨x, y, rfl, hy, hview.symm⟩

/-! ### Symbols -/

namespace Symbol

/-- The symbol without its lines. Whether a variable has a value is kept. -/
def unlined : Symbol → Symbol
  | var v => var ⟨v.name, v.type, 0, v.initializedAt.map fun _ => 0, v.used⟩
  | function s defined => function s.unlined defined

/-- Without its lines a symbol has the same name. -/
@[simp] theorem name_unlined (x : Symbol) : x.unlined.name = x.name := by
  cases x <;> rfl

/-- It has the same type. -/
@[simp] theorem type_unlined (x : Symbol) : x.unlined.type = x.type := by
  cases x <;> rfl

/-- It has a value if it had one. -/
@[simp] theorem isInitialized_unlined (x : Symbol) :
    x.unlined.isInitialized = x.isInitialized := by
  cases x with
  | var v => exact Option.isSome_map
  | function => rfl

/-- A reading does not go by lines. -/
theorem unlined_markUsed (x : Symbol) : x.markUsed.unlined = x.unlined.markUsed := by
  cases x <;> rfl

/-- The line of a store is gone with the others. -/
theorem unlined_store (line : Nat) (x : Symbol) : (x.store line).unlined = x.unlined.store 0 := by
  cases x with
  | var v =>
    obtain ⟨name, type, declared, initializedAt, used⟩ := v
    cases initializedAt <;> rfl
  | function => rfl

variable {x y : Symbol}

/-- Symbols that differ in their lines have the same name. -/
theorem name_eq_of_unlined (h : x.unlined = y.unlined) : x.name = y.name := by
  rw [← x.name_unlined, h, y.name_unlined]

/-- They have the same type. -/
theorem type_eq_of_unlined (h : x.unlined = y.unlined) : x.type = y.type := by
  rw [← x.type_unlined, h, y.type_unlined]

/-- Both have a value, or neither has. -/
theorem isInitialized_eq_of_unlined (h : x.unlined = y.unlined) :
    x.isInitialized = y.isInitialized := by
  rw [← x.isInitialized_unlined, h, y.isInitialized_unlined]

end Symbol

/-! ### Scopes -/

namespace Scope

/-- The symbols of the scope without their lines. -/
def unlined (s : Scope) : List Symbol :=
  s.toList.map Symbol.unlined

variable {s s' : Scope} {x y : Symbol} {name : String}

/-- What a name stands for, without lines, is found among the symbols without lines. -/
theorem map_unlined_get? (s : Scope) (name : String) :
    (s.get? name).map Symbol.unlined = s.unlined.find? fun x => x.name = name := by
  rw [get?_eq_find?, unlined, List.find?_map]
  congr 2
  funext x
  simp

/-- In scopes that differ in lines, a name stands for symbols that do. -/
theorem get?_alike (hs : s.unlined = s'.unlined) (name : String) :
    (s.get? name).map Symbol.unlined = (s'.get? name).map Symbol.unlined := by
  rw [map_unlined_get?, map_unlined_get?, hs]

/-- A symbol is added to both scopes or to neither. -/
theorem insert?_alike (hs : s.unlined = s'.unlined) (hx : x.unlined = y.unlined) :
    (s.insert? x).map unlined = (s'.insert? y).map unlined := by
  have hfound := isSome_eq_of_map_eq (get?_alike hs x.name)
  refine map_eq_map_of_isSome ?_ fun t t' ht ht' => ?_
  · rw [isSome_insert?, isSome_insert?, ← Symbol.name_eq_of_unlined hx,
      ← Option.not_isSome, ← Option.not_isSome, hfound]
  · rw [unlined, unlined, toList_insert? ht, toList_insert? ht', List.map_append, List.map_append]
    exact congr (congrArg _ hs) (congrArg (fun z => [z]) hx)

/-- A symbol takes the place of another in both scopes or in neither. -/
theorem replace?_alike (hs : s.unlined = s'.unlined) (hx : x.unlined = y.unlined) :
    (s.replace? x).map unlined = (s'.replace? y).map unlined := by
  have hname := Symbol.name_eq_of_unlined hx
  -- without lines, what stands under the name is the new symbol without its lines
  have hview {s t : Scope} {x : Symbol} (ht : s.replace? x = some t) :
      t.unlined = s.unlined.map fun z => if z.name = x.name then x.unlined else z := by
    rw [unlined, unlined, toList_replace? ht, List.map_map, List.map_map]
    refine List.map_congr_left fun z _ => ?_
    by_cases hz : z.name = x.name <;> simp [hz]
  refine map_eq_map_of_isSome ?_ fun t t' ht ht' => ?_
  · rw [isSome_replace?, isSome_replace?, ← hname, isSome_eq_of_map_eq (get?_alike hs x.name)]
  · rw [hview ht, hview ht', hs, hx, hname]

/-- A symbol is changed in both scopes or in neither. -/
theorem modify?_alike (hs : s.unlined = s'.unlined) {f g : Symbol → Symbol}
    (hfg : ∀ x y, x.unlined = y.unlined → (f x).unlined = (g y).unlined) (name : String) :
    (s.modify? name f).map unlined = (s'.modify? name g).map unlined := by
  rw [modify?, modify?]
  rcases none_or_some_of_map_eq (get?_alike hs name) with ⟨hx, hy⟩ | ⟨x, y, hx, hy, hxy⟩
  · rw [hx, hy]
    rfl
  · rw [hx, hy]
    exact replace?_alike hs (hfg x y hxy)

end Scope

/-! ### Tables -/

namespace Table

/-- The scopes of the table without their lines. -/
def unlined (t : Table) : List (List Symbol) :=
  t.scopes.map Scope.unlined

variable {t t' : Table} {x y : Symbol} {name : String}

/-- The symbols of a table without lines are those of its scopes, the outermost first. -/
theorem unlined_symbols (t : Table) :
    t.symbols.map Symbol.unlined = t.unlined.reverse.flatten := by
  rw [symbols, outermostFirst, unlined, List.map_flatMap, List.flatMap_def, ← List.map_reverse]
  rfl

/-- A new scope has no lines. -/
theorem push_alike (ht : t.unlined = t'.unlined) : t.push.unlined = t'.push.unlined :=
  congrArg (Scope.empty.unlined :: ·) ht

/-- The innermost scopes of both tables are closed. -/
theorem pop_alike (ht : t.unlined = t'.unlined) : t.pop.unlined = t'.pop.unlined := by
  show t.scopes.tail.map Scope.unlined = t'.scopes.tail.map Scope.unlined
  rw [List.map_tail, List.map_tail]
  exact congrArg List.tail ht

/-- In tables that differ in lines, a name stands for alike symbols in the innermost scope. -/
theorem lookup?_alike (ht : t.unlined = t'.unlined) (name : String) :
    (t.lookup? name).map Symbol.unlined = (t'.lookup? name).map Symbol.unlined := by
  have hview (t : Table) : (t.lookup? name).map Symbol.unlined
      = t.unlined.head?.bind fun s => s.find? fun x => x.name = name := by
    rw [lookup?, innermost?, unlined, List.head?_map, Option.map_bind, Option.bind_map]
    exact congrArg _ (funext fun s => s.map_unlined_get? name)
  rw [hview, hview, ht]

/-- So it does in all of them. -/
theorem resolve?_alike (ht : t.unlined = t'.unlined) (name : String) :
    (t.resolve? name).map Symbol.unlined = (t'.resolve? name).map Symbol.unlined := by
  have hview (t : Table) : (t.resolve? name).map Symbol.unlined
      = t.unlined.findSome? fun s => s.find? fun x => x.name = name := by
    rw [resolve?, unlined, List.map_findSome?, List.findSome?_map]
    exact congrArg (List.findSome? · _) (funext fun s => s.map_unlined_get? name)
  rw [hview, hview, ht]

/-- The innermost scopes are changed alike. -/
theorem modifyInnermost?_alike (ht : t.unlined = t'.unlined) {f g : Scope → Option Scope}
    (hfg : ∀ s s', s.unlined = s'.unlined → (f s).map Scope.unlined = (g s').map Scope.unlined) :
    (t.modifyInnermost? f).map unlined = (t'.modifyInnermost? g).map unlined := by
  obtain ⟨scopes⟩ := t
  obtain ⟨scopes'⟩ := t'
  cases scopes with
  | nil =>
    cases scopes' with
    | nil => rfl
    | cons s' rest' => cases ht
  | cons s rest =>
    cases scopes' with
    | nil => cases ht
    | cons s' rest' =>
      obtain ⟨hs, hrest⟩ := List.cons.inj ht
      -- without lines, what the change gives depends on the changed scope alone
      have hview (s : Scope) (rest : List Scope) (f : Scope → Option Scope) :
          ((f s).map fun s' => (⟨s' :: rest⟩ : Table)).map unlined
            = ((f s).map Scope.unlined).map (· :: rest.map Scope.unlined) := by
        rw [Option.map_map, Option.map_map]
        rfl
      show ((f s).map fun s' => (⟨s' :: rest⟩ : Table)).map unlined
        = ((g s').map fun s => (⟨s :: rest'⟩ : Table)).map unlined
      rw [hview, hview, hfg s s' hs]
      exact congrArg (fun r => ((g s').map Scope.unlined).map (· :: r)) hrest

/-- A symbol is declared in both tables or in neither. -/
theorem declare?_alike (ht : t.unlined = t'.unlined) (hx : x.unlined = y.unlined) :
    (t.declare? x).map unlined = (t'.declare? y).map unlined :=
  modifyInnermost?_alike ht fun _ _ hs => Scope.insert?_alike hs hx

/-- Scopes in which the symbol of a name is changed in the same way. -/
theorem modifyIn?_alike {f g : Symbol → Symbol}
    (hfg : ∀ x y, x.unlined = y.unlined → (f x).unlined = (g y).unlined) {ss ss' : List Scope}
    (hss : ss.map Scope.unlined = ss'.map Scope.unlined) :
    (modifyIn? name f ss).map (List.map Scope.unlined)
      = (modifyIn? name g ss').map (List.map Scope.unlined) := by
  induction ss generalizing ss' with
  | nil =>
    cases ss' with
    | nil => rfl
    | cons s' rest' => cases hss
  | cons s rest ih =>
    cases ss' with
    | nil => cases hss
    | cons s' rest' =>
      obtain ⟨hs, hrest⟩ := List.cons.inj hss
      rw [modifyIn?, modifyIn?]
      -- the scope has the name in both tables or in neither
      rcases none_or_some_of_map_eq (Scope.modify?_alike hs hfg name) with
        ⟨hu, hu'⟩ | ⟨u, u', hu, hu', hview⟩
      · have hmore := ih hrest
        simp only [hu, hu', Option.map_map]
        have hview (s : Scope) (o : Option (List Scope)) :
            o.map (List.map Scope.unlined ∘ (s :: ·))
              = (o.map (List.map Scope.unlined)).map (s.unlined :: ·) := by
          rw [Option.map_map]
          rfl
        rw [hview, hview, hmore, hs]
      · simp only [hu, hu', Option.map_some, List.map_cons, hview, hrest]

/-- A change that both tables make or neither. -/
theorem modify?_alike (ht : t.unlined = t'.unlined) {f g : Symbol → Symbol}
    (hfg : ∀ x y, x.unlined = y.unlined → (f x).unlined = (g y).unlined) (name : String) :
    ((t.modify? name f).getD t).unlined = ((t'.modify? name g).getD t').unlined := by
  have hscopes : (modifyIn? name f t.scopes).map (List.map Scope.unlined)
      = (modifyIn? name g t'.scopes).map (List.map Scope.unlined) := modifyIn?_alike hfg ht
  rw [modify?, modify?]
  rcases none_or_some_of_map_eq hscopes with ⟨hss, hss'⟩ | ⟨ss, ss', hss, hss', hview⟩
  · rw [hss, hss']
    exact ht
  · rw [hss, hss']
    exact hview

/-- A reading marks alike symbols. -/
theorem markUsed_alike (ht : t.unlined = t'.unlined) (name : String) :
    (t.markUsed name).unlined = (t'.markUsed name).unlined := by
  refine modify?_alike ht (fun x y hxy => ?_) name
  rw [x.unlined_markUsed, y.unlined_markUsed, hxy]

/-- A store gives a value to alike symbols, on whatever lines it stands. -/
theorem store_alike (ht : t.unlined = t'.unlined) (name : String) (line line' : Nat) :
    (t.store name line).unlined = (t'.store name line').unlined := by
  refine modify?_alike ht (fun x y hxy => ?_) name
  rw [x.unlined_store, y.unlined_store, hxy]

end Table

end Tercet
