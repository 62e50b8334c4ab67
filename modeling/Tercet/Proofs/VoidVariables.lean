import Tercet.Compilation
import Tercet.Proofs.Check.InForce
import Tercet.Proofs.Reading.Retained

/-!
# `Tercet.Proofs.VoidVariables`: which variables have the type `void`

The type `void` is for functions that return nothing, and a declaration of that type is not read.
Parameters are read with whatever type stands before their name, and a parameter is a variable of
its function. So a source can have variables of type `void` after all (`void_parameter_inForce`).

This is the only way (`voidVariables_compile`). Whatever the source, its declarations have the types
`int` and `double`. Each variable that is in force at some point of the analysis stems from one of
them or from a parameter of a function that is defined. Of several parameters of one name, the first
is in force.
-/

set_option autoImplicit false

namespace Tercet

/-! ### Where a tree has types of variables -/

/-- The declaration at the start of a counted loop. -/
def ForInit.declarations : Option ForInit → List Declaration
  | some (.declaration d) => [d]
  | some (.assignment _) | none => []

mutual

/-- The declarations inside of a statement. -/
def Stmt.declarations : Stmt → List Declaration
  | .block body _ | .function _ body _ => declarationsAll body
  | .declaration d => [d]
  | .ifThen _ body _ | .whileLoop _ body _ => body.declarations
  | .ifElse _ onTrue onFalse _ => onTrue.declarations ++ onFalse.declarations
  | .forLoop init _ _ body _ => ForInit.declarations init ++ body.declarations
  | .assignment _ | .prototype _ | .result _ _ => []

/-- The declarations inside of a row of statements. -/
def declarationsAll : List Stmt → List Declaration
  | [] => []
  | s :: more => s.declarations ++ declarationsAll more

end

mutual

/-- The heads of the functions that are defined inside of a statement. -/
def Stmt.definitions : Stmt → List Signature
  | .block body _ => definitionsAll body
  | .function s body _ => s :: definitionsAll body
  | .ifThen _ body _ | .whileLoop _ body _ | .forLoop _ _ _ body _ => body.definitions
  | .ifElse _ onTrue onFalse _ => onTrue.definitions ++ onFalse.definitions
  | .declaration _ | .assignment _ | .prototype _ | .result _ _ => []

/-- The heads of the functions that are defined inside of a row of statements. -/
def definitionsAll : List Stmt → List Signature
  | [] => []
  | s :: more => s.definitions ++ definitionsAll more

end

def Program.declarations (p : Program) : List Declaration :=
  declarationsAll p.body

def Program.definitions (p : Program) : List Signature :=
  definitionsAll p.body

/-! ### Declarations -/

/-- A well-formed declaration does not have the type `void`. -/
theorem Declaration.type_ne_void {d : Declaration} (h : d.wellFormed = true) : d.type ≠ .void := by
  simp only [wellFormed, Bool.and_eq_true, bne_iff_ne] at h
  exact h.1.1

/-- Neither does one at the start of a loop. -/
theorem ForInit.type_ne_void {init : Option ForInit} (h : init.all ForInit.wellFormed = true) :
    ∀ d ∈ ForInit.declarations init, d.type ≠ .void := by
  match init with
  | some (.declaration d) => exact List.forall_mem_singleton.mpr (Declaration.type_ne_void h)
  | some (.assignment _) | none => exact List.forall_mem_nil _

mutual

/-- Neither does any inside of a well-formed statement. -/
theorem Stmt.type_ne_void (s : Stmt) (h : s.wellFormed = true) :
    ∀ d ∈ s.declarations, d.type ≠ .void := by
  match s with
  | .block body _ | .function _ body _ => exact type_ne_void_all body h
  | .declaration d => exact List.forall_mem_singleton.mpr (Declaration.type_ne_void h)
  | .ifThen _ body _ | .whileLoop _ body _ =>
    simp only [Stmt.wellFormed, Bool.and_eq_true] at h
    exact body.type_ne_void h.2
  | .ifElse _ onTrue onFalse _ =>
    simp only [Stmt.wellFormed, Bool.and_eq_true] at h
    exact List.forall_mem_append.mpr ⟨onTrue.type_ne_void h.1.1.2, onFalse.type_ne_void h.2⟩
  | .forLoop init _ _ body _ =>
    simp only [Stmt.wellFormed, Bool.and_eq_true] at h
    exact List.forall_mem_append.mpr ⟨ForInit.type_ne_void h.1.1.1, body.type_ne_void h.2⟩
  | .assignment _ | .prototype _ | .result _ _ => exact List.forall_mem_nil _

/-- Neither does any inside of a row of them. -/
theorem type_ne_void_all (body : List Stmt) (h : wellFormedRow body = true) :
    ∀ d ∈ declarationsAll body, d.type ≠ .void := by
  match body with
  | [] => exact List.forall_mem_nil _
  | s :: more =>
    obtain ⟨hs, hmore⟩ := (Bool.and_eq_true _ _).mp h
    exact List.forall_mem_append.mpr ⟨s.type_ne_void hs, type_ne_void_all more hmore⟩

end

/-! ### Entries -/

/-- The entry is one of a function, or of one of the declarations. -/
def Entry.Declared (e : Entry) (ds : List Declaration) : Prop :=
  e.isFunction = true ∨ ∃ d ∈ ds, e ∈ d.entries

/-- The entries are those of declarations, after the parameters of a function or none. -/
def Headed (scope : List Entry) (fs : List Signature) (ds : List Declaration) : Prop :=
  ∃ head own, scope = head ++ own ∧ (head = [] ∨ ∃ f ∈ fs, head = f.parameterEntries) ∧
    ∀ e ∈ own, e.Declared ds

variable {ds ds' : List Declaration} {fs fs' : List Signature} {own scope : List Entry}

/-- What stems from some declarations stems from more. -/
theorem Entry.Declared.mono {e : Entry} (h : e.Declared ds) (hds : ds ⊆ ds') : e.Declared ds' := by
  rcases h with h | ⟨d, hd, he⟩
  · exact .inl h
  · exact .inr ⟨d, hds hd, he⟩

/-- More functions and declarations may be named. -/
theorem Headed.mono (h : Headed scope fs ds) (hfs : fs ⊆ fs') (hds : ds ⊆ ds') :
    Headed scope fs' ds' := by
  obtain ⟨head, own, hscope, hhead, hown⟩ := h
  refine ⟨head, own, hscope, hhead.imp_right ?_, fun e he => (hown e he).mono hds⟩
  exact fun ⟨f, hf, heq⟩ => ⟨f, hfs hf, heq⟩

/-- A scope without parameters. -/
theorem headed_of_declared (h : ∀ e ∈ own, e.Declared ds) : Headed own fs ds :=
  ⟨[], own, rfl, .inl rfl, h⟩

/-- Entries of two parts. -/
theorem declared_append {own own' : List Entry} (h : ∀ e ∈ own, e.Declared ds)
    (h' : ∀ e ∈ own', e.Declared ds') : ∀ e ∈ own ++ own', e.Declared (ds ++ ds') :=
  List.forall_mem_append.mpr ⟨fun e he => (h e he).mono (List.subset_append_left _ _),
    fun e he => (h' e he).mono (List.subset_append_right _ _)⟩

/-- Scopes of two parts. -/
theorem headed_append {scopes scopes' : List (List Entry)} (h : ∀ s ∈ scopes, Headed s fs ds)
    (h' : ∀ s ∈ scopes', Headed s fs' ds') :
    ∀ s ∈ scopes ++ scopes', Headed s (fs ++ fs') (ds ++ ds') :=
  List.forall_mem_append.mpr
    ⟨fun s hs => (h s hs).mono (List.subset_append_left _ _) (List.subset_append_left _ _),
      fun s hs => (h' s hs).mono (List.subset_append_right _ _) (List.subset_append_right _ _)⟩

/-- The entries of a declaration stem from it. -/
theorem Declaration.declared (d : Declaration) : ∀ e ∈ d.entries, e.Declared [d] :=
  fun _ he => .inr ⟨d, List.mem_singleton_self d, he⟩

/-- Those at the start of a loop stem from the declaration there. -/
theorem ForInit.declared (init : Option ForInit) :
    ∀ e ∈ ForInit.entries init, e.Declared (ForInit.declarations init) := by
  match init with
  | some (.declaration d) => exact d.declared
  | some (.assignment _) | none => exact List.forall_mem_nil _

mutual

/-- What a statement enters into the scope around it stems from its declarations. -/
theorem Stmt.declared (s : Stmt) : ∀ e ∈ s.entries, e.Declared s.declarations := by
  match s with
  | .block body _ => exact declared_all body
  | .declaration d => exact d.declared
  | .function _ _ _ | .prototype _ => exact List.forall_mem_singleton.mpr (.inl rfl)
  | .assignment _ | .ifThen _ _ _ | .ifElse _ _ _ _ | .whileLoop _ _ _ | .forLoop _ _ _ _ _
  | .result _ _ => exact List.forall_mem_nil _

/-- So does what a row of statements enters. -/
theorem declared_all (body : List Stmt) :
    ∀ e ∈ entriesAll body, e.Declared (declarationsAll body) := by
  match body with
  | [] => exact List.forall_mem_nil _
  | s :: more => exact declared_append s.declared (declared_all more)

end

mutual

/-- A scope that a statement opens starts with the parameters of a function or without any. -/
theorem Stmt.headed (s : Stmt) : ∀ scope ∈ s.scopes, Headed scope s.definitions s.declarations := by
  match s with
  | .block body _ => exact headed_all body
  | .ifThen _ body _ | .whileLoop _ body _ =>
    exact List.forall_mem_cons.mpr ⟨headed_of_declared body.declared, body.headed⟩
  | .ifElse _ onTrue onFalse _ =>
    exact List.forall_mem_cons.mpr
      ⟨headed_of_declared (declared_append onTrue.declared onFalse.declared),
        headed_append onTrue.headed onFalse.headed⟩
  | .forLoop init _ _ body _ =>
    refine List.forall_mem_cons.mpr
      ⟨headed_of_declared (declared_append (ForInit.declared init) body.declared), fun s hs => ?_⟩
    exact (body.headed s hs).mono (List.Subset.refl _) (List.subset_append_right _ _)
  | .function s body _ =>
    refine List.forall_mem_cons.mpr ⟨⟨s.parameterEntries, entriesAll body, rfl,
      .inr ⟨s, List.mem_cons_self, rfl⟩, declared_all body⟩, fun scope hscope => ?_⟩
    exact (headed_all body scope hscope).mono (List.subset_cons_self _ _) (List.Subset.refl _)
  | .declaration _ | .assignment _ | .prototype _ | .result _ _ => exact List.forall_mem_nil _

/-- So does one that a row of statements opens. -/
theorem headed_all (body : List Stmt) :
    ∀ scope ∈ scopesAll body, Headed scope (definitionsAll body) (declarationsAll body) := by
  match body with
  | [] => exact List.forall_mem_nil _
  | s :: more => exact headed_append s.headed (headed_all more)

end

/-- So does each scope of a program. The outermost has no parameters. -/
theorem Program.headed (p : Program) :
    ∀ scope ∈ p.scopes, Headed scope p.definitions p.declarations :=
  List.forall_mem_cons.mpr ⟨headed_of_declared (declared_all p.body), headed_all p.body⟩

mutual

/-- The parameters of a function come first in a scope. -/
theorem Stmt.exists_scope (s : Stmt) :
    ∀ f ∈ s.definitions, ∃ own, f.parameterEntries ++ own ∈ s.scopes := by
  match s with
  | .block body _ => exact exists_scope_all body
  | .ifThen _ body _ | .whileLoop _ body _ | .forLoop _ _ _ body _ =>
    intro f hf
    obtain ⟨own, hown⟩ := body.exists_scope f hf
    exact ⟨own, List.mem_cons_of_mem _ hown⟩
  | .ifElse _ onTrue onFalse _ =>
    intro f hf
    rcases List.mem_append.mp hf with hf | hf
    · obtain ⟨own, hown⟩ := onTrue.exists_scope f hf
      exact ⟨own, List.mem_cons_of_mem _ (List.mem_append_left _ hown)⟩
    · obtain ⟨own, hown⟩ := onFalse.exists_scope f hf
      exact ⟨own, List.mem_cons_of_mem _ (List.mem_append_right _ hown)⟩
  | .function s body _ =>
    -- the function itself, and those inside it
    refine List.forall_mem_cons.mpr ⟨⟨entriesAll body, List.mem_cons_self⟩, fun f hf => ?_⟩
    obtain ⟨own, hown⟩ := exists_scope_all body f hf
    exact ⟨own, List.mem_cons_of_mem _ hown⟩
  | .declaration _ | .assignment _ | .prototype _ | .result _ _ => exact List.forall_mem_nil _

/-- So they do in a row of statements. -/
theorem exists_scope_all (body : List Stmt) :
    ∀ f ∈ definitionsAll body, ∃ own, f.parameterEntries ++ own ∈ scopesAll body := by
  match body with
  | [] => exact List.forall_mem_nil _
  | s :: more =>
    intro f hf
    rcases List.mem_append.mp hf with hf | hf
    · obtain ⟨own, hown⟩ := s.exists_scope f hf
      exact ⟨own, List.mem_append_left _ hown⟩
    · obtain ⟨own, hown⟩ := exists_scope_all more f hf
      exact ⟨own, List.mem_append_right _ hown⟩

end

/-! ### Variables -/

/-- A name is bound to a variable exactly if its first entry is the variable. -/
theorem boundIn?_eq_some_iff_find? {entries : List Entry} {x : String} {e : Entry}
    (he : e.isFunction = false) :
    boundIn? entries x = some e ↔ entries.find? (fun e => e.name = x) = some e := by
  rw [← List.head?_filter, boundIn?]
  split
  · rename_i hnil
    rw [hnil, List.head?_nil]
  · rename_i s more hannounced
    rw [hannounced, List.head?_cons]
    -- a prototype and what completes it are functions
    refine iff_of_false (fun h => ?_) (fun h => ?_)
    · cases hfind : more.find? (Entry.completes s) with
      | none =>
        rw [hfind] at h
        cases h
        cases he
      | some definition =>
        rw [hfind] at h
        cases h
        obtain ⟨s', rfl, _⟩ := Entry.exists_of_completes (List.find?_some hfind)
        cases he
    · cases h
      cases he
  · rename_i hfirst
    rw [hfirst, List.head?_cons]

/-- What became a variable was not entered as a function. -/
theorem Entry.isFunction_of_ages_var {e : Entry} {v : Variable} (h : e.symbol.Ages (.var v)) :
    e.isFunction = false := by
  cases e with
  | var | parameter => rfl
  | function => cases h

/-- A variable that stems from a declaration has its type. -/
theorem Entry.Declared.exists_type {e : Entry} {v : Variable} (he : e.Declared ds)
    (h : e.symbol.Ages (.var v)) : ∃ d ∈ ds, v.type = d.type := by
  rcases he with hfunction | ⟨d, hd, hentry⟩
  · rw [isFunction_of_ages_var h] at hfunction
    cases hfunction
  · obtain ⟨declarator, _, rfl⟩ := List.mem_map.mp hentry
    cases h with
    | var h => exact ⟨d, hd, h.type⟩

namespace Program

variable {p : Program}

/-- A variable that is ever in force has the type of a declaration, or it is the first parameter of
its name of a function that is defined. -/
theorem type_of_holds {v : Variable} (h : p.Holds (.var v)) :
    (∃ d ∈ p.declarations, v.type = d.type) ∨
      ∃ s ∈ p.definitions, v.line = s.line ∧
        ∃ q, s.parameters.find? (fun q => q.name = v.name) = some q ∧ v.type = q.type := by
  obtain ⟨scope, hscope, own, hle, e, hbound, hages⟩ := h.exists_bound
  have hvariable : e.isFunction = false := Entry.isFunction_of_ages_var hages
  -- the first entry of the name stays the first while others are made
  have hfirst : scope.find? (fun e => e.name = v.name) = some e :=
    hle.find?_eq_some ((boundIn?_eq_some_iff_find? hvariable).mp hbound)
  obtain ⟨head, rest, rfl, hhead, hrest⟩ := p.headed scope hscope
  rw [List.find?_append, Option.or_eq_some_iff] at hfirst
  -- the first entry of the name is a parameter, or comes after the parameters
  rcases hfirst with hfirst | ⟨_, hlater⟩
  · rcases hhead with rfl | ⟨s, hs, rfl⟩
    · cases hfirst
    · rw [Signature.parameterEntries, List.find?_map, Option.map_eq_some_iff] at hfirst
      obtain ⟨q, hq, rfl⟩ := hfirst
      cases hages with
      | var hages => exact .inr ⟨s, hs, hages.line, q, hq, hages.type⟩
  · have hdeclared : e.Declared p.declarations := hrest e (List.mem_of_find?_eq_some hlater)
    exact .inl (hdeclared.exists_type hages)

/-- The first parameter of its name of a function that is defined is in force at some point. -/
theorem exists_holds_of_parameter {s : Signature} {x : String} {q : Parameter}
    (hs : s ∈ p.definitions) (hq : s.parameters.find? (fun q => q.name = x) = some q) :
    ∃ v, p.Holds (.var v) ∧ v.name = x ∧ v.line = s.line ∧ v.type = q.type := by
  obtain ⟨own, hscope⟩ := exists_scope_all p.body s hs
  have hfirst : (s.parameterEntries ++ own).find? (fun e => e.name = x)
      = some (.parameter q s.line) := by
    rw [List.find?_append, Option.or_eq_some_iff, Signature.parameterEntries, List.find?_map,
      Option.map_eq_some_iff]
    exact .inl ⟨q, hq, rfl⟩
  obtain ⟨y, hy, hname, hages⟩ := exists_holds_of_bound (List.mem_cons_of_mem _ hscope)
    ((boundIn?_eq_some_iff_find? rfl).mpr hfirst)
  cases hages with
  | var hages => exact ⟨_, hy, hname, hages.line, hages.type⟩

end Program

/-- Whatever the source, what it declares has the type `int` or `double`. A variable that is in
force at some point of its analysis, that is, after some of the requests that the analysis makes,
can have the type `void` all the same: exactly if it is the first parameter of its name of a
function that is defined, and the parameter has that type. -/
theorem voidVariables_compile (source : String) :
    (∀ d ∈ (compile source).program.declarations, d.type = .int ∨ d.type = .double) ∧
    (compile source).program.analyze.toChecker
      = Checker.initial.serve (compile source).program.requests ∧
    ∀ (x : String) (line : Nat),
      (∃ v, (compile source).program.Holds (.var v) ∧ v.name = x ∧ v.line = line ∧
        v.type = .void) ↔
      ∃ s ∈ (compile source).program.definitions, s.line = line ∧
        ∃ q, s.parameters.find? (fun q => q.name = x) = some q ∧ q.type = .void := by
  have hdeclared : ∀ d ∈ (compile source).program.declarations, d.type ≠ .void :=
    type_ne_void_all _ (wellFormed_ofTokens (tokensOf source).1)
  refine ⟨fun d hd => ?_, Program.serve_requests _, fun x line => ⟨?_, ?_⟩⟩
  · have hne := hdeclared d hd
    cases htype : d.type with
    | int => exact .inl rfl
    | double => exact .inr rfl
    | void => exact absurd htype hne
  · rintro ⟨v, hv, rfl, rfl, hvoid⟩
    rcases Program.type_of_holds hv with ⟨d, hd, htype⟩ | ⟨s, hs, hline, q, hq, htype⟩
    -- no declaration is of that type, so only a parameter is left
    · exact absurd (htype.symm.trans hvoid) (hdeclared d hd)
    · exact ⟨s, hs, hline.symm, q, hq, htype.symm.trans hvoid⟩
  · rintro ⟨s, hs, rfl, q, hq, hvoid⟩
    obtain ⟨v, hv, hname, hline, htype⟩ := Program.exists_holds_of_parameter hs hq
    exact ⟨v, hv, hname, hline, htype.trans hvoid⟩

/-- The second parameter is of type `void`. The third has its name and is refused. -/
def voidSecond : String :=
  "int f(int b, void a, double a) \x7b\n  for (double i = b;;) return i;\n\x7d"

/-- The second parameter is a variable of type `void`, and the first is none. The declaration in
the body has a type for variables. -/
theorem voidVariables_voidSecond :
    (∃ d ∈ (compile voidSecond).program.declarations, d.line = 2 ∧
      (d.type = .int ∨ d.type = .double)) ∧
    (∃ v, (compile voidSecond).program.Holds (.var v) ∧ v.name = "a" ∧ v.line = 1 ∧
      v.type = .void) ∧
    ¬ ∃ v, (compile voidSecond).program.Holds (.var v) ∧ v.name = "b" ∧ v.line = 1 ∧
      v.type = .void := by
  obtain ⟨hdeclared, _, hvoid⟩ := voidVariables_compile voidSecond
  have hlines : (compile voidSecond).program.declarations.map Declaration.line = [2] := by
    decide +kernel
  have hdefinitions : (compile voidSecond).program.definitions
      = [⟨.int, "f", [⟨.int, "b"⟩, ⟨.void, "a"⟩, ⟨.double, "a"⟩], 1⟩] := by decide +kernel
  refine ⟨?_, (hvoid "a" 1).mpr ?_, fun h => ?_⟩
  · obtain ⟨d, hd, hline⟩ := List.mem_map.mp (hlines ▸ List.mem_singleton_self 2)
    exact ⟨d, hd, hline, hdeclared d hd⟩
  · rw [hdefinitions]
    exact ⟨_, List.mem_singleton_self _, rfl, ⟨.void, "a"⟩, by decide, rfl⟩
  · obtain ⟨s, hs, _, q, hq, htype⟩ := (hvoid "b" 1).mp h
    rw [hdefinitions, List.mem_singleton] at hs
    subst hs
    cases hq
    cases htype

/-- A function with one parameter, of type `void`. -/
def voidParameter : String :=
  "int f(void a) \x7b return 1; \x7d"

/-- A parameter of type `void` is read, and is a variable of that type, and nothing is reported. -/
theorem void_parameter_inForce :
    (compile voidParameter).program.definitions = [⟨.int, "f", [⟨.void, "a"⟩], 1⟩] ∧
    (compile voidParameter).program.Holds (.var ⟨"a", .void, 1, some 1, false⟩) ∧
    (compile voidParameter).log = [] := by
  have hfacts : (compile voidParameter).program.definitions = [⟨.int, "f", [⟨.void, "a"⟩], 1⟩] ∧
      .var ⟨"a", .void, 1, some 1, false⟩ ∈ (Checker.initial.serve
        ((compile voidParameter).program.requests.take 2)).table.symbols ∧
      (compile voidParameter).log = [] := by
    decide +kernel
  exact ⟨hfacts.1, ⟨_, ⟨_, List.take_append_drop 2 _⟩, hfacts.2.1⟩, hfacts.2.2⟩

end Tercet
