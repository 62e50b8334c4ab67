import Mathlib.Data.Set.Basic
import Tercet.Proofs.Check.Requests
import Tercet.Proofs.Symbol.Aging
import Tercet.Proofs.Token.Text
import Tercet.Proofs.Tree.Spelling

/-!
# `Tercet.Proofs.Check.Readiness`: which names may be read

A name is *ready* when some open scope has a symbol of it that has a value. The analysis lets
a name be read only where it is ready, and it makes few names ready: a declaration with a
first value, an assignment, a parameter and the announcement of a function make one name ready
each, and nothing else makes any. Both facts hold where nothing is reported, so each lemma here
looks back from a quiet checker: it was quiet before, what was read was ready, and what is ready
now was ready before or is one of the names just mentioned.

One request is dealt with in `Checker.leads_perform`, a row in `Checker.leads_serve`. What a row
of requests reads and makes ready is read off the requests (`rowReads` and `rowGains`), and for the
requests of an expression these are the names in its slots and none (`Expr.needs`).
-/

set_option autoImplicit false

namespace Tercet

/-! ### Symbols of a table -/

namespace Table

variable {t t' : Table} {x name : String}

/-- The symbols of a table are those of its scopes. -/
theorem mem_symbols {y : Symbol} : y ∈ t.symbols ↔ ∃ s ∈ t.scopes, y ∈ s.toList := by
  simp [symbols, outermostFirst]

/-- A changed scope has the symbols from before, but for the changed one. -/
theorem mem_of_modify? {s s' : Scope} {f : Symbol → Symbol} (h : s.modify? name f = some s')
    {y : Symbol} (hy : y ∈ s'.toList) :
    y ∈ s.toList ∨ ∃ z ∈ s.toList, z.name = name ∧ y = f z := by
  obtain ⟨z, hz, hreplace⟩ := Option.bind_eq_some_iff.mp h
  rw [Scope.toList_replace? hreplace, List.mem_map] at hy
  obtain ⟨w, hw, rfl⟩ := hy
  split
  · obtain ⟨hmem, hname⟩ := Scope.get?_eq_some_iff.mp hz
    exact Or.inr ⟨z, hmem, hname, rfl⟩
  · exact Or.inl hw

/-- So have scopes of which the first with the name is changed. The induction is on the scopes,
from the innermost outwards. -/
theorem mem_of_modifyIn? {f : Symbol → Symbol} {scopes scopes' : List Scope}
    (h : modifyIn? name f scopes = some scopes') {s' : Scope} (hs' : s' ∈ scopes') {y : Symbol}
    (hy : y ∈ s'.toList) :
    ∃ s ∈ scopes, y ∈ s.toList ∨ ∃ z ∈ s.toList, z.name = name ∧ y = f z := by
  induction scopes generalizing scopes' with
  | nil => cases h
  | cons s rest ih =>
      rw [modifyIn?] at h
      split at h
      · rename_i changed hchanged
        cases h
        rcases List.mem_cons.mp hs' with rfl | hs'
        · exact ⟨s, List.mem_cons_self, mem_of_modify? hchanged hy⟩
        · exact ⟨s', List.mem_cons_of_mem _ hs', Or.inl hy⟩
      -- this scope does not have the name, so the change is further out
      · obtain ⟨rest', hrest, rfl⟩ := Option.map_eq_some_iff.mp h
        rcases List.mem_cons.mp hs' with rfl | hs'
        · exact ⟨s', List.mem_cons_self, Or.inl hy⟩
        · obtain ⟨u, hu, hy⟩ := ih hrest hs'
          exact ⟨u, List.mem_cons_of_mem _ hu, hy⟩

/-- Changing the symbol of a name leaves all others as they are. -/
theorem mem_symbols_of_modify? {f : Symbol → Symbol} (h : t.modify? name f = some t')
    {y : Symbol} (hy : y ∈ t'.symbols) :
    y ∈ t.symbols ∨ ∃ z ∈ t.symbols, z.name = name ∧ y = f z := by
  obtain ⟨scopes', hscopes, rfl⟩ := Option.map_eq_some_iff.mp h
  obtain ⟨s', hs', hy⟩ := mem_symbols.mp hy
  obtain ⟨s, hs, hy | ⟨z, hz, hname, rfl⟩⟩ := mem_of_modifyIn? hscopes hs' hy
  · exact Or.inl (mem_symbols.mpr ⟨s, hs, hy⟩)
  · exact Or.inr ⟨z, mem_symbols.mpr ⟨s, hs, hz⟩, hname, rfl⟩

/-- Where the innermost scope is changed, a symbol is from before or in the new scope, and the
symbols of the scope that was changed were in the table. -/
theorem mem_symbols_of_modifyInnermost? {f : Scope → Option Scope}
    (h : t.modifyInnermost? f = some t') {y : Symbol} (hy : y ∈ t'.symbols) :
    y ∈ t.symbols ∨
      ∃ s s', f s = some s' ∧ (∀ z ∈ s.toList, z ∈ t.symbols) ∧ y ∈ s'.toList := by
  obtain ⟨s, s', rest, hs', rfl, rfl⟩ := exists_of_modifyInnermost? h
  obtain ⟨u, hu, hmem⟩ := mem_symbols.mp hy
  rcases List.mem_cons.mp hu with rfl | hu
  · exact Or.inr ⟨s, u, hs', fun z hz => mem_symbols.mpr ⟨s, List.mem_cons_self, hz⟩, hmem⟩
  · exact Or.inl (mem_symbols.mpr ⟨u, List.mem_cons_of_mem _ hu, hmem⟩)

/-- The name stands for something that has a value in some open scope. -/
def Ready (t : Table) (x : String) : Prop :=
  ∃ y ∈ t.symbols, y.name = x ∧ y.isInitialized = true

/-- What a name is found to stand for makes it ready if it has a value. -/
theorem ready_of_resolve? {y : Symbol} (h : t.resolve? x = some y)
    (hy : y.isInitialized = true) : t.Ready x := by
  obtain ⟨s, hs, hget⟩ := List.exists_of_findSome?_eq_some h
  obtain ⟨hmem, hname⟩ := Scope.get?_eq_some_iff.mp hget
  exact ⟨y, mem_symbols.mpr ⟨s, hs, hmem⟩, hname, hy⟩

namespace Ready

/-- A new scope has nothing in it, so what is ready was ready before. -/
theorem of_push (h : t.push.Ready x) : t.Ready x := by
  obtain ⟨y, hy, hname, hinit⟩ := h
  obtain ⟨s, hs, hy⟩ := mem_symbols.mp hy
  rcases List.mem_cons.mp hs with rfl | hs
  · cases hy
  · exact ⟨y, mem_symbols.mpr ⟨s, hs, hy⟩, hname, hinit⟩

/-- The scopes that stay open were open before. -/
theorem of_pop (h : t.pop.Ready x) : t.Ready x := by
  obtain ⟨y, hy, hname, hinit⟩ := h
  obtain ⟨s, hs, hy⟩ := mem_symbols.mp hy
  exact ⟨y, mem_symbols.mpr ⟨s, List.mem_of_mem_tail hs, hy⟩, hname, hinit⟩

/-- Reading a name makes no name ready. -/
theorem of_markUsed (h : (t.markUsed name).Ready x) : t.Ready x := by
  obtain ⟨y, hy, rfl, hinit⟩ := h
  rw [markUsed] at hy
  cases hmodify : t.modify? name Symbol.markUsed with
  | none =>
      rw [hmodify] at hy
      exact ⟨y, hy, rfl, hinit⟩
  | some t' =>
      rw [hmodify] at hy
      rcases mem_symbols_of_modify? hmodify hy with hy | ⟨z, hz, _, rfl⟩
      · exact ⟨y, hy, rfl, hinit⟩
      -- the symbol was ready before it was marked
      · refine ⟨z, hz, (Symbol.name_markUsed z).symm, ?_⟩
        cases z <;> exact hinit

/-- Storing into a name makes that name ready at most. -/
theorem of_store {line : Nat} (h : (t.store name line).Ready x) : t.Ready x ∨ x = name := by
  obtain ⟨y, hy, rfl, hinit⟩ := h
  rw [store] at hy
  cases hmodify : t.modify? name (Symbol.store line) with
  | none =>
      rw [hmodify] at hy
      exact Or.inl ⟨y, hy, rfl, hinit⟩
  | some t' =>
      rw [hmodify] at hy
      rcases mem_symbols_of_modify? hmodify hy with hy | ⟨z, hz, hname, rfl⟩
      · exact Or.inl ⟨y, hy, rfl, hinit⟩
      · exact Or.inr (by rw [Symbol.name_store, hname])

/-- A declaration makes its name ready, if it has a value. -/
theorem of_declare? {y : Symbol} (h : t.declare? y = some t') (hx : t'.Ready x) :
    t.Ready x ∨ x = y.name ∧ y.isInitialized = true := by
  obtain ⟨z, hz, rfl, hinit⟩ := hx
  rcases mem_symbols_of_modifyInnermost? h hz with hz | ⟨s, s', hs', hold, hz⟩
  · exact Or.inl ⟨z, hz, rfl, hinit⟩
  · rw [Scope.toList_insert? hs', List.mem_append, List.mem_singleton] at hz
    -- the scope has the symbols from before, and the new one
    rcases hz with hz | rfl
    · exact Or.inl ⟨z, hold z hz, rfl, hinit⟩
    · exact Or.inr ⟨rfl, hinit⟩

/-- A symbol that takes the place of another makes its name ready at most. -/
theorem of_replace? {y : Symbol} (h : t.modifyInnermost? (fun s => s.replace? y) = some t')
    (hx : t'.Ready x) : t.Ready x ∨ x = y.name := by
  obtain ⟨z, hz, rfl, hinit⟩ := hx
  rcases mem_symbols_of_modifyInnermost? h hz with hz | ⟨s, s', hs', hold, hz⟩
  · exact Or.inl ⟨z, hz, rfl, hinit⟩
  · rw [Scope.toList_replace? hs', List.mem_map] at hz
    -- each symbol of the scope is the one from before or the new one in its place
    obtain ⟨w, hw, rfl⟩ := hz
    split at hinit
    · rename_i hname
      rw [if_pos hname]
      exact Or.inr rfl
    · rename_i hname
      rw [if_neg hname]
      exact Or.inl ⟨w, hold w hw, rfl, hinit⟩

end Ready

/-- At the start no name is ready. -/
theorem not_ready_initial : ¬ initial.Ready x := by
  rintro ⟨y, hy, _⟩
  obtain ⟨s, hs, hy⟩ := mem_symbols.mp hy
  rw [List.mem_singleton.mp hs] at hy
  cases hy

end Table

/-! ### Looking back from a quiet checker -/

namespace Checker

/-- A checker that is quiet now was quiet before; then the names `reads` were ready, and only
the names `gains` have become ready. -/
structure Leads (c c₁ : Checker) (reads gains : Set String) : Prop where
  quiet : c.log = []
  reads : ∀ x ∈ reads, c.table.Ready x
  gains : ∀ x, c₁.table.Ready x → c.table.Ready x ∨ x ∈ gains

variable {c c₁ c₂ : Checker} {reads reads₁ gains gains₁ : Set String}

/-- A step that leaves the table as it is. -/
theorem Leads.of_table_eq (hquiet : c.log = []) (htable : c₁.table = c.table) :
    Leads c c₁ ∅ ∅ :=
  ⟨hquiet, fun _ hx => absurd hx (Set.notMem_empty _), fun _ hx => Or.inl (htable ▸ hx)⟩

/-- What the second of two steps reads is ready before both, unless the first has made it
ready. -/
theorem Leads.trans (h : Leads c c₁ reads gains) (h' : Leads c₁ c₂ reads₁ gains₁) :
    Leads c c₂ (reads ∪ (reads₁ \ gains)) (gains ∪ gains₁) where
  quiet := h.quiet
  reads x hx := by
    rcases hx with hx | ⟨hx, hnot⟩
    · exact h.reads x hx
    · exact (h.gains x (h'.reads x hx)).resolve_right hnot
  gains x hx := by
    rcases h'.gains x hx with hx | hx
    · exact (h.gains x hx).imp_right Or.inl
    · exact Or.inr (Or.inr hx)

/-- Fewer names may be said to be ready before, and more to be ready after. -/
theorem Leads.of_subset (h : Leads c c₁ reads gains) (hreads : reads₁ ⊆ reads)
    (hgains : gains ⊆ gains₁) : Leads c c₁ reads₁ gains₁ :=
  ⟨h.quiet, fun x hx => h.reads x (hreads hx), fun x hx => (h.gains x hx).imp_right (hgains ·)⟩

/-- Two steps of which the first makes no name ready. -/
theorem Leads.andThen (h : Leads c c₁ reads ∅) (h' : Leads c₁ c₂ reads₁ gains) :
    Leads c c₂ (reads ∪ reads₁) gains := by
  refine (h.trans h').of_subset ?_ (fun x hx => hx.resolve_left (Set.notMem_empty x))
  rintro x (hx | hx)
  · exact Or.inl hx
  · exact Or.inr ⟨hx, Set.notMem_empty x⟩

/-- A report leaves the table as it is. -/
theorem leads_reportAll {log : Log} (h : (c.reportAll log).log = []) :
    Leads c (c.reportAll log) ∅ ∅ :=
  .of_table_eq (List.append_eq_nil_iff.mp h).1 rfl

/-- A checker that has just reported is not quiet. -/
theorem report_log_ne_nil (c : Checker) (cause : Cause) (line : Nat) :
    (c.report cause line).log ≠ [] := by
  simp [report, reportAll]

/-- So does looking at the type of an expression. -/
theorem leads_infer {e : Expr} (h : (c.infer e).2.log = []) : Leads c (c.infer e).2 ∅ ∅ :=
  leads_reportAll h

/-- So does applying an operator. -/
theorem leads_combine {left right : Option DataType} {op : BinaryOp} {line : Nat}
    (h : (c.combine left right op line).2.log = []) :
    Leads c (c.combine left right op line).2 ∅ ∅ :=
  leads_reportAll h

/-- So does asking whether a value fits. -/
theorem leads_checkAssignable {expected actual : Option DataType} {line : Nat} {context : String}
    (h : (c.checkAssignable expected actual line context).2.log = []) :
    Leads c (c.checkAssignable expected actual line context).2 ∅ ∅ := by
  match expected, actual with
  | some e, some a =>
      by_cases hfits : fits e a = true
      · simp only [checkAssignable, hfits, if_true] at h ⊢
        exact .of_table_eq h rfl
      · simp only [checkAssignable, hfits] at h
        exact absurd h (report_log_ne_nil _ _ _)
  | none, _ | some _, none => exact .of_table_eq h rfl

/-- A name that is read was ready. -/
theorem leads_checkUse {name : String} {line : Nat} (h : (c.checkUse name line).2.log = []) :
    Leads c (c.checkUse name line).2 {name} ∅ := by
  cases hresolve : c.table.resolve? name with
  | none =>
      simp only [checkUse, hresolve] at h
      exact absurd h (report_log_ne_nil _ _ _)
  | some y =>
      by_cases hy : y.isInitialized = true
      · simp only [checkUse, hresolve, hy, if_true] at h ⊢
        refine ⟨h, ?_, fun x hx => Or.inl hx.of_markUsed⟩
        rintro x rfl
        exact Table.ready_of_resolve? hresolve hy
      · simp only [checkUse, hresolve, hy] at h
        exact absurd h (report_log_ne_nil _ _ _)

/-- A declared symbol is ready if it has a value. -/
theorem leads_declare {y : Symbol} (h : (c.declare y).2.log = []) :
    Leads c (c.declare y).2 ∅ {x | x = y.name ∧ y.isInitialized = true} := by
  cases hdeclare : c.table.declare? y with
  | none =>
      simp only [declare, hdeclare] at h ⊢
      exact (Leads.of_table_eq h rfl).of_subset (Set.Subset.refl _) (Set.empty_subset _)
  | some t =>
      simp only [declare, hdeclare] at h ⊢
      exact ⟨h, fun x hx => absurd hx (Set.notMem_empty x),
        fun x hx => Table.Ready.of_declare? hdeclare hx⟩

/-- A declaration makes its name ready if it has a first value. -/
theorem leads_checkDeclaration {name : String} {type : DataType} {initializer : Option Expr}
    {line : Nat} (h : (c.checkDeclaration name type initializer line).2.log = []) :
    Leads c (c.checkDeclaration name type initializer line).2 ∅
      {x | x = name ∧ initializer.isSome = true} := by
  cases hlookup : c.table.lookup? name with
  | some y =>
      simp only [checkDeclaration, checkFresh, hlookup] at h
      -- a name that is taken would have been reported
      exact absurd h (report_log_ne_nil _ _ _)
  | none =>
      cases initializer with
      | none =>
          simp only [checkDeclaration, checkFresh, hlookup] at h ⊢
          exact leads_declare h
      | some e =>
          simp only [checkDeclaration, checkFresh, hlookup] at h ⊢
          have hdeclare := leads_declare h
          have hassign := leads_checkAssignable hdeclare.quiet
          have hinfer := leads_infer hassign.quiet
          refine (hinfer.andThen (hassign.andThen hdeclare)).of_subset (Set.empty_subset _) ?_
          simp [Variable.declared, Symbol.name, Symbol.isInitialized]

/-- A store makes its name ready and reads nothing. -/
theorem leads_store (c : Checker) (h : c.log = []) (name : String) (line : Nat) :
    Leads c { c with table := c.table.store name line } ∅ {name} :=
  ⟨h, fun x hx => absurd hx (Set.notMem_empty x), fun _ hx => hx.of_store⟩

/-- An assignment makes its target ready. The store comes first, and what follows it leaves the
table as it is. -/
theorem leads_checkAssignment {name : String} {op : AssignOp} {value : Expr} {line : Nat}
    (h : (c.checkAssignment name op value line).2.log = []) :
    Leads c (c.checkAssignment name op value line).2 ∅ {name} := by
  cases hresolve : c.table.resolve? name with
  | none =>
      simp only [checkAssignment, hresolve] at h
      exact absurd h (report_log_ne_nil _ _ _)
  | some y =>
      cases hop : op.binary? with
      | none =>
          simp only [checkAssignment, hresolve, hop] at h ⊢
          -- from the last step back to the first, each is quiet because the next is
          have hfits := leads_checkAssignable h
          have hinfer := leads_infer hfits.quiet
          have hstore := leads_store c hinfer.quiet name line
          exact ((hstore.trans hinfer).trans hfits).of_subset (Set.empty_subset _) (by simp)
      | some binary =>
          simp only [checkAssignment, hresolve, hop] at h ⊢
          have hfits := leads_checkAssignable h
          have hcombine := leads_combine hfits.quiet
          have hinfer := leads_infer hcombine.quiet
          have hstore := leads_store c hinfer.quiet name line
          exact (((hstore.trans hinfer).trans hcombine).trans hfits).of_subset
            (Set.empty_subset _) (by simp)

/-- A name that is counted up or down was ready. -/
theorem leads_checkStep {name : String} {line : Nat} (h : (c.checkStep name line).2.log = []) :
    Leads c (c.checkStep name line).2 {name} ∅ := by
  have huse := @leads_checkUse c name line
  cases hstep : c.checkUse name line with
  | mk ok c' =>
      rw [hstep] at huse
      cases ok with
      | false =>
          simp only [checkStep, hstep] at h ⊢
          exact huse h
      | true =>
          simp only [checkStep, hstep] at h ⊢
          have hread := huse h
          -- the store makes no other name ready, and this one was ready before
          refine ⟨hread.quiet, hread.reads, fun x hx => ?_⟩
          rcases hx.of_store with hx | rfl
          · exact hread.gains x hx
          · exact Or.inl (hread.reads x rfl)

/-- A parameter has a value from the start, so its name is ready. -/
theorem leads_declareParameter {p : Parameter} {line : Nat}
    (h : (c.declareParameter p line).2.log = []) :
    Leads c (c.declareParameter p line).2 ∅ {p.name} := by
  cases hlookup : c.table.lookup? p.name with
  | some y =>
      simp only [declareParameter, checkFresh, hlookup] at h
      exact absurd h (report_log_ne_nil _ _ _)
  | none =>
      simp only [declareParameter, checkFresh, hlookup] at h ⊢
      exact (leads_declare h).of_subset (Set.Subset.refl _) (fun x hx => hx.1)

/-- The announcement or the definition of a function makes its name ready. -/
theorem leads_declareFunction {s : Signature} {defined : Bool}
    (h : (c.declareFunction s defined).2.log = []) :
    Leads c (c.declareFunction s defined).2 ∅ {s.name} := by
  cases hlookup : c.table.lookup? s.name with
  | none =>
      simp only [declareFunction, hlookup] at h ⊢
      exact (leads_declare h).of_subset (Set.Subset.refl _) (fun x hx => hx.1)
  | some y =>
      by_cases hcompletes : completes s y = true
      · simp only [declareFunction, hlookup, hcompletes, if_true] at h ⊢
        cases defined with
        | false =>
            exact (Leads.of_table_eq h rfl).of_subset (Set.Subset.refl _) (Set.empty_subset _)
        | true =>
            -- the definition stands where the prototype was
            simp only [if_true] at h ⊢
            cases hreplace : c.table.modifyInnermost? (fun scope =>
                scope.replace? (.function s true)) with
            | none =>
                simp only [hreplace] at h ⊢
                exact (Leads.of_table_eq h rfl).of_subset (Set.Subset.refl _)
                  (Set.empty_subset _)
            | some t =>
                simp only [hreplace] at h ⊢
                exact ⟨h, fun x hx => absurd hx (Set.notMem_empty x),
                  fun x hx => Table.Ready.of_replace? hreplace hx⟩
      · simp only [declareFunction, hlookup, hcompletes] at h
        exact absurd h (report_log_ne_nil _ _ _)

/-- Whether a name is free is found out without a change. -/
theorem leads_checkFresh {name : String} {line : Nat} (h : (c.checkFresh name line).2.log = []) :
    Leads c (c.checkFresh name line).2 ∅ ∅ := by
  cases hlookup : c.table.lookup? name with
  | some y =>
      simp only [checkFresh, hlookup] at h
      exact absurd h (report_log_ne_nil _ _ _)
  | none =>
      simp only [checkFresh, hlookup] at h ⊢
      exact .of_table_eq h rfl

end Checker

/-! ### Requests -/

/-- The names that a request reads. -/
def Request.reads : Request → Set String
  | .use name _ | .step name _ => {name}
  | _ => ∅

/-- The names that a request may make ready. -/
def Request.gains : Request → Set String
  | .declaration name _ initializer _ => {x | x = name ∧ initializer.isSome = true}
  | .parameter p _ => {p.name}
  | .function s _ => {s.name}
  | .assignment name _ _ _ => {name}
  | _ => ∅

/-- The names that must be ready before a row of requests: each is read by one of them, and none
before that has made it ready. -/
def rowReads : List Request → Set String
  | [] => ∅
  | q :: more => q.reads ∪ (rowReads more \ q.gains)

/-- The names that a row of requests may make ready. -/
def rowGains (row : List Request) : Set String :=
  {x | ∃ q ∈ row, x ∈ q.gains}

namespace Checker

variable {c : Checker}

/-- One request, looked back at from a quiet checker. -/
theorem leads_perform {q : Request} (h : (c.perform q).2.log = []) :
    Leads c (c.perform q).2 q.reads q.gains := by
  cases q with
  | push => exact ⟨h, fun _ hx => absurd hx (Set.notMem_empty _), fun _ hx => Or.inl hx.of_push⟩
  | pop => exact ⟨h, fun _ hx => absurd hx (Set.notMem_empty _), fun _ hx => Or.inl hx.of_pop⟩
  | fresh name line => exact leads_checkFresh h
  | declaration name type initializer line => exact leads_checkDeclaration h
  | parameter p line => exact leads_declareParameter h
  | function s defined => exact leads_declareFunction h
  | use name line => exact leads_checkUse h
  | assignment name op value line => exact leads_checkAssignment h
  | step name line => exact leads_checkStep h
  | infer e => exact leads_infer h
  | combine left right op line => exact leads_combine h
  | assignable expected actual line context => exact leads_checkAssignable h
  | unused => exact leads_reportAll h

/-- A row of requests, looked back at from a quiet checker. -/
theorem leads_serve {row : List Request} (h : (c.serve row).log = []) :
    Leads c (c.serve row) (rowReads row) (rowGains row) := by
  induction row generalizing c with
  | nil =>
      exact (Leads.of_table_eq h rfl).of_subset (Set.Subset.refl _) (Set.empty_subset _)
  | cons q more ih =>
      have hmore := ih (c := (c.perform q).2) h
      refine ((leads_perform hmore.quiet).trans hmore).of_subset (Set.Subset.refl _) ?_
      rintro x (hx | ⟨q', hq', hx⟩)
      · exact ⟨q, List.mem_cons_self, hx⟩
      · exact ⟨q', List.mem_cons_of_mem q hq', hx⟩

end Checker

/-- No request makes no name ready. -/
@[simp] theorem rowGains_nil : rowGains [] = ∅ := by
  simp [rowGains]

/-- What a row of requests makes ready, request by request. -/
@[simp] theorem rowGains_cons (q : Request) (more : List Request) :
    rowGains (q :: more) = q.gains ∪ rowGains more := by
  ext x
  simp [rowGains]

/-- What two rows of requests make ready. -/
@[simp] theorem rowGains_append (row row' : List Request) :
    rowGains (row ++ row') = rowGains row ∪ rowGains row' := by
  ext x
  simp [rowGains, or_and_right, exists_or]

/-- A scope of its own makes no name ready. -/
@[simp] theorem rowGains_bracketed (row : List Request) :
    rowGains (bracketed row) = rowGains row := by
  simp [bracketed, Request.gains]

/-- What the second of two rows reads must be ready before both, unless the first makes it so. -/
theorem rowReads_append (row row' : List Request) :
    rowReads (row ++ row') = rowReads row ∪ (rowReads row' \ rowGains row) := by
  induction row with
  | nil => simp [rowReads]
  | cons q more ih =>
      rw [List.cons_append, rowReads, ih, rowReads, rowGains_cons, Set.union_sdiff_distrib,
        Set.sdiff_sdiff, Set.union_comm (rowGains more), Set.union_assoc]

/-! ### The names of a tree -/

/-- The names among some slots. -/
def namesIn (slots : List Slot) : Set String :=
  {x | ∃ s ∈ slots, s.kind = .identifier ∧ s.text = some x ∧ Checker.isReserved x = false}

/-- There is no name among no slots. -/
@[simp] theorem namesIn_nil : namesIn [] = ∅ := by
  simp [namesIn]

/-- The names among two rows of slots. -/
@[simp] theorem namesIn_append (slots slots' : List Slot) :
    namesIn (slots ++ slots') = namesIn slots ∪ namesIn slots' := by
  ext x
  simp [namesIn, or_and_right, exists_or]

/-- A mark is no name. -/
@[simp] theorem namesIn_mark (kind : Kind) (slots : List Slot) :
    namesIn (Slot.mark kind :: slots) = namesIn slots := by
  simp [namesIn, Slot.mark]

/-- Neither is a mark with a line. -/
@[simp] theorem namesIn_first (kind : Kind) (line : Nat) (slots : List Slot) :
    namesIn (Slot.first kind line :: slots) = namesIn slots := by
  simp [namesIn, Slot.first]

/-- A word is a name unless it is reserved. -/
@[simp] theorem namesIn_firstWord (name : String) (line : Nat) (slots : List Slot) :
    namesIn (Slot.firstWord .identifier name line :: slots)
      = {x | x = name ∧ Checker.isReserved x = false} ∪ namesIn slots := by
  ext x
  simp [namesIn, Slot.firstWord, @eq_comm String name]

/-- A number is no name. -/
@[simp] theorem namesIn_number (text : String) (line : Nat) :
    namesIn [Slot.firstWord .number text line] = ∅ := by
  simp [namesIn, Slot.firstWord]

/-- The names of rows with commas between them are the names of the rows. -/
theorem namesIn_separated (rows : List (List Slot)) :
    namesIn (Slot.separated rows) = {x | ∃ row ∈ rows, x ∈ namesIn row} := by
  -- each row but the first has a comma before it
  have hcommas : namesIn (rows.tail.flatMap fun row => Slot.mark .comma :: row)
      = {x | ∃ row ∈ rows.tail, x ∈ namesIn row} := by
    generalize rows.tail = rows
    induction rows with
    | nil => simp
    | cons row rows ih =>
        rw [List.flatMap_cons, namesIn_append, ih, namesIn_mark]
        ext x
        simp
  cases rows with
  | nil => simp [Slot.separated]
  | cons row rows =>
      rw [List.tail_cons] at hcommas
      rw [Slot.separated, namesIn_append, hcommas]
      ext x
      simp

/-- The requests read the names, and make none ready. -/
structure Needs (row : List Request) (names : Set String) : Prop where
  reads : rowReads row = names
  gains : rowGains row = ∅

namespace Needs

variable {row row' : List Request} {names names' : Set String}

/-- No request reads no name. -/
theorem nil : Needs [] ∅ :=
  ⟨rfl, rowGains_nil⟩

/-- Two rows of requests. -/
theorem append (h : Needs row names) (h' : Needs row' names') :
    Needs (row ++ row') (names ∪ names') where
  reads := by rw [rowReads_append, h.reads, h'.reads, h.gains, Set.sdiff_empty]
  gains := by rw [rowGains_append, h.gains, h'.gains, Set.union_empty]

/-- Looking at types reads no name. -/
theorem infer_cons (e : Expr) (h : Needs row names) : Needs (.infer e :: row) names where
  reads := by simp [rowReads, Request.reads, Request.gains, h.reads]
  gains := by simp [Request.gains, h.gains]

/-- A name in an expression is read, unless it is a reserved word. -/
theorem use (name : String) (line : Nat) :
    Needs (useRequests name line) {x | x = name ∧ Checker.isReserved x = false} := by
  rw [useRequests]
  split
  -- a reserved word is not asked for
  · rename_i hreserved
    refine ⟨?_, rowGains_nil⟩
    rw [rowReads, eq_comm, Set.eq_empty_iff_forall_notMem]
    rintro x ⟨rfl, hx⟩
    rw [hreserved] at hx
    cases hx
  · rename_i hfree
    refine ⟨?_, by simp [Request.gains]⟩
    ext x
    simp only [rowReads, Request.reads, Set.empty_sdiff, Set.union_empty, Set.mem_singleton_iff,
      Set.mem_ofPred_eq, iff_self_and]
    rintro rfl
    exact Bool.eq_false_iff.mpr hfree

end Needs

mutual

/-- The requests for an expression read the names in its slots. -/
theorem Expr.needs (e : Expr) : Needs e.requests (namesIn e.slots) := by
  match e with
  | .term t => exact t.needs
  | .binary left op right =>
    rw [Expr.slots, namesIn_append, namesIn_mark]
    exact left.needs.append right.needs

/-- So do those for a term. -/
theorem Term.needs (t : Term) : Needs t.requests (namesIn t.slots) := by
  match t with
  | .factor f => exact f.needs
  | .binary left op right =>
    rw [Term.slots, namesIn_append, namesIn_mark]
    exact left.needs.append right.needs

/-- So do those for a factor. The name of a function is read like any other. -/
theorem Factor.needs (f : Factor) : Needs f.requests (namesIn f.slots) := by
  match f with
  | .number text line =>
    rw [Factor.slots, namesIn_number]
    exact .nil
  | .ident name line =>
    rw [Factor.slots, namesIn_firstWord, namesIn_nil, Set.union_empty]
    exact .use name line
  | .group inner line =>
    rw [Factor.slots, namesIn_first, namesIn_append, namesIn_mark, namesIn_nil, Set.union_empty]
    exact inner.needs
  | .call name args line =>
    rw [Factor.slots, namesIn_firstWord, namesIn_mark, namesIn_append, namesIn_mark, namesIn_nil,
      Set.union_empty, namesIn_separated]
    exact (Needs.use name line).append (needs_arguments args)

/-- So do those for the arguments of a call. -/
theorem needs_arguments (es : List Expr) :
    Needs (argumentRequests es) {x | ∃ row ∈ argumentSlots es, x ∈ namesIn row} := by
  match es with
  | [] => simpa [argumentRequests, argumentSlots] using Needs.nil
  | e :: es =>
    have hnames : {x | ∃ row ∈ argumentSlots (e :: es), x ∈ namesIn row}
        = namesIn e.slots ∪ {x | ∃ row ∈ argumentSlots es, x ∈ namesIn row} := by
      ext x
      simp [argumentSlots]
    rw [hnames]
    exact (e.needs.append (needs_arguments es)).infer_cons e

end

/-- So do those for an expression that is also looked at as a whole. -/
theorem Expr.needs_typed (e : Expr) : Needs e.typedRequests (namesIn e.slots) :=
  e.needs.infer_cons e

/-- So do those for one that may be left out. -/
theorem needs_optional (e : Option Expr) :
    Needs (optionalRequests e) (namesIn (optionSlots Expr.slots e)) := by
  match e with
  | some e => exact e.needs_typed
  | none =>
    rw [optionSlots, namesIn_nil]
    exact .nil

/-- The names of a first value are read before the declared name is ready. -/
theorem Declarator.rowReads_requests (type : DataType) (line : Nat) (d : Declarator) :
    rowReads (d.requests type line) = namesIn (optionSlots Expr.slots d.initializer) := by
  obtain ⟨name, _ | e⟩ := d
  · simp [Declarator.requests, rowReads, Request.reads, optionSlots]
  · rw [Declarator.requests, rowReads_append, e.needs.reads, e.needs.gains]
    simp [rowReads, Request.reads, optionSlots]

/-- A declared name becomes ready if it has a first value. -/
theorem Declarator.rowGains_requests (type : DataType) (line : Nat) (d : Declarator) :
    rowGains (d.requests type line) = {x | x = d.name ∧ d.initializer.isSome = true} := by
  obtain ⟨name, _ | e⟩ := d
  · simp [Declarator.requests, Request.gains]
  · simp [Declarator.requests, Request.gains, e.needs.gains]

/-- The target is stored into before the names of the value are looked at. -/
theorem Assignment.rowReads_requests (a : Assignment) :
    rowReads a.requests = namesIn a.value.slots \ {a.target} := by
  rw [Assignment.requests, rowReads, a.value.needs.reads]
  exact Set.empty_union _

/-- An assignment makes its target ready. -/
theorem Assignment.rowGains_requests (a : Assignment) : rowGains a.requests = {a.target} := by
  rw [Assignment.requests, rowGains_cons, a.value.needs.gains]
  exact Set.union_empty _

/-! ### Looking back from a quiet analysis -/

namespace Analysis

/-- `Checker.Leads` for the checkers of two analyses. -/
abbrev Leads (a b : Analysis) (reads gains : Set String) : Prop :=
  Checker.Leads a.toChecker b.toChecker reads gains

/-- A piece of the pass, looked back at from a quiet analysis. -/
theorem Passes.leads {a b : Analysis} {row : List Request} {trees : List Node}
    (h : a.Passes b row trees) (hquiet : b.log = []) :
    Leads a b (rowReads row) (rowGains row) := by
  rw [h.served] at hquiet
  rw [Leads, h.served]
  exact Checker.leads_serve hquiet

/-- A piece of the pass of which only matters what it makes ready. -/
theorem Passes.leads_gains {a b : Analysis} {row : List Request} {trees : List Node}
    {gains : Set String} (h : a.Passes b row trees) (hquiet : b.log = [])
    (hgains : rowGains row ⊆ gains) : Leads a b ∅ gains :=
  (h.leads hquiet).of_subset (Set.empty_subset _) hgains

/-- The names of an expression were ready. -/
theorem leads_typedExpr {e : Expr} {a : Analysis} (h : (typedExpr e a).log = []) :
    Leads a (typedExpr e a) (namesIn e.slots) ∅ := by
  have hleads := (passes_typedExpr e a).leads h
  rwa [e.needs_typed.reads, e.needs_typed.gains] at hleads

/-- So were those of one that may be left out. -/
theorem leads_optionalExpr {e : Option Expr} {a : Analysis}
    (h : (optionalExpr e a).log = []) :
    Leads a (optionalExpr e a) (namesIn (optionSlots Expr.slots e)) ∅ := by
  have hleads := (passes_optionalExpr e a).leads h
  rwa [(needs_optional e).reads, (needs_optional e).gains] at hleads

/-- The names of a first value were ready, and the declared name is ready if it has one. -/
theorem leads_declarator {type : DataType} {line : Nat} {d : Declarator} {a : Analysis}
    (h : (declarator type line a d).log = []) :
    Leads a (declarator type line a d) (namesIn (optionSlots Expr.slots d.initializer))
      {x | x = d.name ∧ d.initializer.isSome = true} := by
  have hleads := (passes_declarator type line d a).leads h
  rwa [d.rowReads_requests, d.rowGains_requests] at hleads

/-- The names of the value were ready or are the target, and the target is ready now. -/
theorem leads_assignment {s : Assignment} {a : Analysis} (h : (assignment s a).log = []) :
    Leads a (assignment s a) (namesIn s.value.slots \ {s.target}) {s.target} := by
  have hleads := (passes_assignment s a).leads h
  rwa [s.rowReads_requests, s.rowGains_requests] at hleads

end Analysis

/-- A name of a source is no reserved word. -/
theorem isReserved_of_admits {x : String} (h : Kind.identifier.admits x = true) :
    Checker.isReserved x = false := by
  simp only [Kind.admits, Bool.and_eq_true, beq_iff_eq] at h
  rw [Bool.eq_false_iff]
  intro hreserved
  have hall : ∀ y ∈ ["int", "double", "if", "while", "for", "return"],
      Kind.ofWord y ≠ .identifier := by decide
  exact hall x (Checker.isReserved_iff.mp hreserved) h.2

end Tercet
