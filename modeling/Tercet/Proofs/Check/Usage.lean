import Tercet.Proofs.Check.Marks

/-!
# `Tercet.Proofs.Check.Usage`: which variables are reported as unused

At the end of a program the analysis reports the variables that have never been read. The
result, `unused_analyze`, says which: a variable of the outermost scope is reported exactly if
no reading of its name was made while the name stood for it and it had a value. The reports come
last and stand in the order of the declarations. Stores are no readings, and of functions,
parameters and the variables of inner scopes nothing is said.

The marks say what has been read (`Checker.Records`). What is left is that at the end only the
outermost scope is open, and that no parameter is ever entered there (`History.Sheltered`).
-/

set_option autoImplicit false

namespace Tercet

namespace History

/-- The report on the variable that event `i` enters: there is one if the event enters a
variable, in the outermost scope and not a second time, and nothing ever reads it. -/
def unusedVariable? (h : List Event) (i : Nat) : Option Diagnostic :=
  match entryAt? h i with
  | some (.var x _ line _) =>
    if inside (h.take i) = some 0 ∧ FirstAt h x i ∧ ¬ IsRead h i then some ⟨.unused x, line⟩
    else none
  | _ => none

/-! ### The outermost scope -/

variable {row row' : List Event}

/-- The parameters in the row are entered into scopes that it opens. -/
def Sheltered (row : List Event) : Prop :=
  ∀ i p line, entryAt? row i = some (.parameter p line) → inside (row.take i) ≠ some 0

/-- Where nothing is entered, no parameter is. -/
theorem sheltered_of_entry?_eq_none (h : ∀ e ∈ row, e.entry? = none) : Sheltered row := by
  intro i p line hentry
  obtain ⟨e, he, hparameter⟩ := Option.bind_eq_some_iff.mp hentry
  rw [h e (List.mem_of_getElem? he)] at hparameter
  cases hparameter

/-- Two rows of which the first closes all that it opens. -/
theorem Sheltered.append (hrow : Balanced row) (h : Sheltered row) (h' : Sheltered row') :
    Sheltered (row ++ row') := by
  intro i p line hentry
  rcases Nat.lt_or_ge i row.length with hlt | hge
  · rw [entryAt?, List.getElem?_append_left hlt] at hentry
    rw [List.take_append_of_le_length (Nat.le_of_lt hlt)]
    exact h i p line hentry
  · rw [entryAt?, List.getElem?_append_right hge] at hentry
    rw [List.take_append, List.take_of_length_le hge, inside_append_of_eq_zero hrow.inside_eq]
    exact h' _ p line hentry

/-- A scope that is open at the end has been open all along. -/
theorem exists_inside_take {h : List Event} (hh : inside h = some 0) (i : Nat) :
    ∃ n, inside (h.take i) = some n := by
  have hopen : (inside (h.take i ++ h.drop i)).isSome = true := by
    rw [List.take_append_drop, hh]
    rfl
  exact Option.isSome_iff_exists.mp (isSome_inside_of_append hopen)

/-- Whatever is entered in a scope of its own is sheltered. -/
theorem sheltered_enclosed (hrow : Balanced row) : Sheltered (enclosed row) := by
  intro i p line hentry
  cases i with
  | zero => cases hentry
  | succ i =>
    have hentry : entryAt? (row ++ [.closed]) i = some (.parameter p line) := hentry
    -- the last event enters nothing
    have hlt : i < row.length := by
      by_contra hge
      rw [entryAt?, List.getElem?_append_right (Nat.le_of_not_lt hge)] at hentry
      cases hi : i - row.length <;> simp [hi, Event.entry?] at hentry
    obtain ⟨n, hn⟩ := exists_inside_take hrow.inside_eq i
    show level 1 ((row ++ [Event.closed]).take i) ≠ some 0
    rw [List.take_append_of_le_length (Nat.le_of_lt hlt), level_add hn 1]
    exact fun hzero => Nat.succ_ne_zero n (Option.some.inj hzero)

/-- Where only the outermost scope is open at the end, what is entered there stands in it
exactly if only that one was open at the entry. -/
theorem inside_drop_eq_zero_iff {h : List Event} {i : Nat} {entry : Entry}
    (hh : inside h = some 0) (hentry : entryAt? h i = some entry) :
    inside (h.drop (i + 1)) = some 0 ↔ inside (h.take i) = some 0 := by
  obtain ⟨e, he, hentered⟩ := Option.bind_eq_some_iff.mp hentry
  obtain ⟨hlt, hget⟩ := List.getElem?_eq_some_iff.mp he
  have hsplit : h = h.take i ++ ([e] ++ h.drop (i + 1)) := by
    rw [← hget]
    simp
  have hshift (n : Nat) : e.shift n = some n := by
    cases e with
    | entered => rfl
    | opened | closed | stored | read => cases hentered
  obtain ⟨n, hn⟩ := exists_inside_take hh i
  -- from the level of the entry on, the rest leads to the outermost scope
  have hrest : level n (h.drop (i + 1)) = some 0 := by
    rw [hsplit, inside, List.foldl_append] at hh
    rw [inside] at hn
    rw [hn] at hh
    have hcons : level n (e :: h.drop (i + 1)) = some 0 := hh
    rwa [level_cons, hshift] at hcons
  constructor
  · intro hzero
    have hn0 := level_add hzero n
    rw [Nat.zero_add, hrest] at hn0
    rw [hn, ← hn0]
  · intro hzero
    rw [hn] at hzero
    cases hzero
    exact hrest

end History

open History

/-- The requests of a tree shelter parameters, if none is entered into the scope in which they are
made: any other is entered in a scope of its own. -/
theorem Fills.sheltered {row : List Request} {entries : List Entry} {scopes : List (List Entry)}
    {reports : List Entry → Log} (h : Fills row entries scopes reports)
    (hentries : ∀ p line, Entry.parameter p line ∉ entries) : Sheltered (eventsOf row) := by
  induction h with
  | nil => exact sheltered_of_entry?_eq_none (List.forall_mem_nil _)
  | @quiet q hq =>
    refine sheltered_of_entry?_eq_none fun e he => ?_
    rw [eventsOf_singleton, Option.mem_toList] at he
    obtain ⟨_, _, rfl⟩ | ⟨_, _, rfl⟩ := Request.event_of_isQuiet hq he
    · rfl
    · rfl
  | @entered q e hq =>
    rw [eventsOf_singleton, hq]
    intro i p line hentry
    cases i with
    | zero => exact absurd (List.mem_singleton.mpr (Option.some.inj hentry).symm) (hentries p line)
    | succ i => cases hentry
  | append h _ ih ih' =>
    rw [eventsOf_append]
    simp only [List.mem_append, not_or, forall_and] at hentries
    exact (ih hentries.1).append h.balanced (ih' hentries.2)
  | bracketed h _ =>
    -- parameters are entered only here, behind the opening of a scope
    rw [eventsOf_bracketed]
    exact sheltered_enclosed h.balanced

mutual

/-- A statement enters no parameter into the scope around it. -/
theorem Stmt.parameter_not_mem_entries (s : Stmt) (p : Parameter) (line : Nat) :
    Entry.parameter p line ∉ s.entries := by
  match s with
  | .block body _ => exact parameter_not_mem_entriesAll body p line
  | .declaration d => simp [Stmt.entries, Declaration.entries]
  | .function _ _ _ | .prototype _ => simp [Stmt.entries]
  | .assignment _ | .ifThen _ _ _ | .ifElse _ _ _ _ | .whileLoop _ _ _ | .forLoop _ _ _ _ _
  | .result _ _ => exact List.not_mem_nil

/-- Nor does a row of statements. -/
theorem parameter_not_mem_entriesAll (body : List Stmt) (p : Parameter) (line : Nat) :
    Entry.parameter p line ∉ entriesAll body := by
  match body with
  | [] => exact List.not_mem_nil
  | s :: more =>
    rw [entriesAll, List.mem_append, not_or]
    exact ⟨s.parameter_not_mem_entries p line, parameter_not_mem_entriesAll more p line⟩

end

/-! ### What is reported -/

namespace History

variable {h : List Event} {i : Nat} {y : Symbol}

/-- The report on a symbol of the outermost scope is the report on its entry. -/
theorem Describes.unused?_eq (hy : Describes h i y) (hi : Accepted h 0 i)
    (hh : inside h = some 0) (hsheltered : Sheltered h) :
    Checker.unused? y = unusedVariable? h i := by
  obtain ⟨entry, hentry, hmatures⟩ := hy.source
  obtain ⟨entry', hentry', hinside, hfirst⟩ := hi
  obtain rfl : entry = entry' := Option.some.inj (hentry.symm.trans hentry')
  -- the entry was made with only the outermost scope open, where no parameter is entered
  have houter : inside (h.take i) = some 0 := (inside_drop_eq_zero_iff hh hentry).mp hinside
  cases entry with
  | parameter p line => exact absurd houter (hsheltered i p line hentry)
  | function s defined =>
    rw [unusedVariable?, hentry]
    cases hmatures with
    | ages hages =>
      cases hages
      rfl
    | completed => rfl
  | var x type line valued =>
    rw [unusedVariable?, hentry]
    cases hmatures with
    | ages hages =>
      cases hages with
      | @var _ w hw =>
        have hmark : w.used = true ↔ IsRead h i := hy.mark w.used rfl
        have hname : w.name = x := hw.name
        have hline : w.line = line := hw.line
        have hfirst : FirstAt h x i := hfirst
        show (if w.used then none else some (Diagnostic.mk (.unused w.name) w.line)) = _
        rw [hname, hline]
        by_cases hread : IsRead h i
        · simp [hmark, hread]
        · simp [hmark, hread, houter, hfirst]

/-- Of what is not accepted nothing is reported. -/
theorem unusedVariable?_eq_none (hh : inside h = some 0) (hi : ¬ Accepted h 0 i) :
    unusedVariable? h i = none := by
  rw [unusedVariable?]
  split
  · rename_i x type line valued hentry
    rw [if_neg]
    rintro ⟨houter, hfirst, _⟩
    exact hi ⟨_, hentry, (inside_drop_eq_zero_iff hh hentry).mpr houter, hfirst⟩
  · rfl

end History

namespace Checker

variable {c : Checker}

/-- Nothing has been reported about unread variables yet. -/
def Patient (c : Checker) : Prop :=
  ∀ d ∈ c.log, ∀ x, d.cause ≠ .unused x

/-- A report on something else. -/
theorem Patient.report (hc : c.Patient) {cause : Cause} (hcause : ∀ x, cause ≠ .unused x)
    (line : Nat) : (c.report cause line).Patient := by
  intro d hd
  rcases List.mem_append.mp hd with hd | hd
  · exact hc d hd
  · rw [List.mem_singleton.mp hd]
    exact hcause

/-- A function is reported at most because its name is taken. -/
theorem Patient.declareFunction (hc : c.Patient) (s : Signature) (defined : Bool) :
    (c.declareFunction s defined).2.Patient := by
  rw [Checker.declareFunction]
  split
  · rw [Patient, log_declare]
    exact hc
  · split
    · split
      · split <;> exact hc
      · exact hc
    · exact hc.report (fun _ => Cause.noConfusion) s.line

/-- No event reports unread variables. -/
theorem Patient.handle (hc : c.Patient) (e : Event) : (c.handle e).Patient := by
  cases e with
  | opened | closed => exact hc
  | entered entry =>
    show (c.enter entry).Patient
    cases hlookup : c.table.lookup? entry.name with
    | none =>
      simp only [enter, hlookup]
      rw [Patient, log_declare]
      exact hc
    | some old =>
      simp only [enter, hlookup]
      -- a taken name is reported, unless the two are a prototype and its function
      cases entry with
      | var | parameter => exact hc.report (fun _ => Cause.noConfusion) _
      | function s defined => exact hc.declareFunction s defined
  | stored x line =>
    show (c.write x line).Patient
    rw [write]
    split
    · exact hc.report (fun _ => Cause.noConfusion) line
    · exact hc
  | read x line =>
    show (c.checkUse x line).2.Patient
    rw [checkUse]
    split
    · exact hc.report (fun _ => Cause.noConfusion) line
    · split
      · exact hc
      · exact hc.report (fun _ => Cause.noConfusion) line

/-- So no row of events does. -/
theorem Patient.foldl (hc : c.Patient) (row : List Event) :
    (row.foldl Checker.handle c).Patient := by
  induction row generalizing c with
  | nil => exact hc
  | cons e more ih => exact ih (hc.handle e)

/-- What is said about types is not about unread variables. -/
theorem Patient.of_untyped (hc : c.untyped.Patient) : c.Patient := by
  intro d hd x hx
  refine hc d (List.mem_filter.mpr ⟨hd, ?_⟩) x hx
  rw [hx]
  rfl

/-- With only the outermost scope left open, the reports on the symbols are those on the
entries. -/
theorem Records.filterMap_unused? {h : List Event} (hc : c.Records h) (hh : inside h = some 0)
    (hsheltered : Sheltered h) :
    c.table.symbols.filterMap unused? = (List.range h.length).filterMap (unusedVariable? h) := by
  have hdepth : c.table.depth = 1 := by
    have hdepth := hc.follows.depth
    rw [hh] at hdepth
    exact (Option.some.inj hdepth).symm
  obtain ⟨s, hs⟩ := List.length_eq_one_iff.mp hdepth
  have hrow := hc.rows_accepted (k := 0) (s := s) (by rw [hs]; rfl)
  -- symbols and accepted entries go together, in the same order
  have hreports : s.toList.filterMap unused? = (accepted h 0).filterMap (unusedVariable? h) := by
    generalize accepted h 0 = entries, s.toList = symbols at hrow ⊢
    induction hrow with
    | nil => rfl
    | cons hhead _ ih =>
      rw [List.filterMap_cons, List.filterMap_cons, ih, hhead.2.unused?_eq hhead.1 hh hsheltered]
  calc c.table.symbols.filterMap unused?
      = s.toList.filterMap unused? := by
        rw [Table.symbols, Table.outermostFirst, hs]
        simp
    _ = (accepted h 0).filterMap (unusedVariable? h) := hreports
    _ = (List.range h.length).filterMap (unusedVariable? h) := by
        rw [accepted, List.filterMap_filter]
        refine List.filterMap_congr fun i _ => ?_
        -- the other entries are passed over
        by_cases hi : Accepted h 0 i
        · simp [hi]
        · simp [hi, unusedVariable?_eq_none hh hi]

end Checker

/-- The last reports are those on unread variables: one for each variable that is entered into
the outermost scope under a name that is free there, and that no reading of its name finds in
force and with a value. They have the lines of the declarations and stand in their order, and
there is no other report of the kind. -/
theorem unused_analyze (p : Program) :
    ∃ before : Log,
      p.analyze.log
        = before ++ (List.range p.events.length).filterMap (unusedVariable? p.events) ∧
      ∀ d ∈ before, ∀ x, d.cause ≠ .unused x := by
  have hend : inside p.events = some 0 := p.balanced.inside_eq
  have hrecords : (p.events.foldl Checker.handle Checker.initial).Records p.events :=
    Checker.records_initial.foldl (by rw [List.nil_append, hend]; rfl)
  have hpatient : (p.events.foldl Checker.handle Checker.initial).Patient :=
    Checker.Patient.foldl (fun _ hd => absurd hd List.not_mem_nil) p.events
  have hsheltered : Sheltered p.events := by
    rw [p.events_eq]
    exact (fills_all p.body).sheltered (parameter_not_mem_entriesAll p.body)
  rw [← untyped_stmts] at hrecords hpatient
  refine ⟨(Analysis.stmts p.body Analysis.initial).log, ?_, hpatient.of_untyped⟩
  rw [← hrecords.filterMap_unused? hend hsheltered]
  rfl

-- the second `x` is refused, the inner `x` takes the first reading, and `y` has no value
example : (List.range 9).filterMap (unusedVariable?
    [.entered (.var "x" .int 1 true), .entered (.var "x" .int 2 true),
      .entered (.var "y" .int 3 false), .opened, .entered (.var "x" .int 4 true), .read "x" 4,
      .closed, .read "y" 5, .stored "y" 6]) = [⟨.unused "x", 1⟩, ⟨.unused "y", 3⟩] := by
  decide

end Tercet
