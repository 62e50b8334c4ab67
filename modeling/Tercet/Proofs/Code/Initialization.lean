import Tercet.Proofs.Acceptance
import Tercet.Proofs.Check.Readiness
import Tercet.Proofs.Code.Freshness

/-!
# `Tercet.Proofs.Code.Initialization`: what is read has been written

The analysis and the lowering walk through a program independently. The first lets a name be
read once it has a value, the second lays down reads and writes. This module compares their
orders: in the listing of an accepted program without functions, an operand that is the name
of a variable is the target of an earlier instruction (`reads_written_of_accepted`).

The orders differ in two places, which are the exceptions of the theorem. An assignment counts
its target as written before the value is passed, so `x = x + 1` may read an `x` that has
never been written; and the step of a counted loop is passed before the body, but runs after
it. Both exceptions are regions of the listing that are owned by the name. Names of announced
functions may always be read.
-/

set_option autoImplicit false

namespace Tercet

/-! ### Which names become ready -/

mutual

/-- The functions that a statement announces. -/
def Stmt.prototypeNames : Stmt → List String
  | .block body _ | .function _ body _ => prototypeNamesAll body
  | .ifThen _ body _ | .whileLoop _ body _ | .forLoop _ _ _ body _ => body.prototypeNames
  | .ifElse _ onTrue onFalse _ => onTrue.prototypeNames ++ onFalse.prototypeNames
  | .prototype signature => [signature.name]
  | .declaration _ | .assignment _ | .result _ _ => []

/-- The functions that a row of statements announces. -/
def prototypeNamesAll : List Stmt → List String
  | [] => []
  | s :: more => s.prototypeNames ++ prototypeNamesAll more

end

/-- The functions that a program announces. -/
def Program.prototypeNames (p : Program) : List String :=
  prototypeNamesAll p.body

/-- The names that a statement may make ready. -/
def Stmt.gains (s : Stmt) : Set String :=
  {x | x ∈ s.storedNames ∨ x ∈ s.prototypeNames}

/-- The names that a row of statements may make ready. -/
def gainsAll (row : List Stmt) : Set String :=
  {x | x ∈ storedNamesAll row ∨ x ∈ prototypeNamesAll row}

/-- What two parts make ready, one after the other. -/
theorem gains_append {stored stored' announced announced' : List String} :
    {x | x ∈ stored ∨ x ∈ announced} ∪ {x | x ∈ stored' ∨ x ∈ announced'} ⊆
      {x | x ∈ stored ++ stored' ∨ x ∈ announced ++ announced'} := by
  rintro x ((hx | hx) | (hx | hx))
  · exact Or.inl (List.mem_append_left _ hx)
  · exact Or.inr (List.mem_append_left _ hx)
  · exact Or.inl (List.mem_append_right _ hx)
  · exact Or.inr (List.mem_append_right _ hx)

/-- The name to which a step assigns is one into which it stores. -/
theorem ForStep.storedNames_of_assigned {step : Option ForStep} {x : String}
    (hx : x ∈ ForStep.assigned step) : x ∈ ForStep.storedNames step := by
  match step with
  | some (.assignment _) => exact hx
  | some (.increment _ _) | some (.decrement _ _) | none => cases hx

/-- A declaration makes the names ready that have a first value. -/
theorem Declaration.rowGains_subset (d : Declaration) :
    rowGains d.requests ⊆ {x | x ∈ storedByDeclarators d.declarators} := by
  rw [requests]
  generalize d.declarators = ds
  induction ds with
  | nil => simp
  | cons first more ih =>
      rw [List.flatMap_cons, rowGains_append, first.rowGains_requests]
      rintro x (⟨rfl, hsome⟩ | hx)
      · simp [storedByDeclarators, hsome]
      · show x ∈ storedByDeclarators (first :: more)
        rw [storedByDeclarators, List.filter_cons]
        split
        · exact List.mem_cons_of_mem _ (ih hx)
        · exact ih hx

/-- So does the start of a loop. -/
theorem ForInit.rowGains_subset (init : Option ForInit) :
    rowGains (ForInit.requests init) ⊆ {x | x ∈ ForInit.storedNames init} := by
  match init with
  | some (.declaration d) => exact d.rowGains_subset
  | some (.assignment s) =>
    rw [ForInit.requests, s.rowGains_requests]
    simp [ForInit.storedNames]
  | none => simp [ForInit.requests]

/-- The step of a loop makes the name ready to which it assigns; one that is counted up or down
was ready before. -/
theorem ForStep.rowGains_subset (step : Option ForStep) :
    rowGains (ForStep.requests step) ⊆ {x | x ∈ ForStep.assigned step} := by
  match step with
  | some (.increment _ _) | some (.decrement _ _) => simp [ForStep.requests, Request.gains]
  | some (.assignment s) =>
    rw [ForStep.requests, s.rowGains_requests]
    simp [ForStep.assigned]
  | none => simp [ForStep.requests]

mutual

/-- Only the names into which a statement stores, and those of the functions that it announces,
become ready. -/
theorem Stmt.rowGains_subset {s : Stmt} (hfun : s.functionNames = []) :
    rowGains s.requests ⊆ s.gains := by
  match s with
  | .block body _ => exact rowGains_requestsAll_subset hfun
  | .declaration d => exact fun x hx => Or.inl (d.rowGains_subset hx)
  | .assignment s =>
    rw [Stmt.requests, s.rowGains_requests]
    rintro x rfl
    exact Or.inl List.mem_cons_self
  | .ifThen condition body _ | .whileLoop condition body _ =>
    rw [Stmt.requests, rowGains_bracketed, rowGains_append, condition.needs_typed.gains,
      Set.empty_union]
    exact body.rowGains_subset hfun
  | .ifElse condition onTrue onFalse _ =>
    -- the two sides are gone through one after the other, in one scope
    obtain ⟨htrue, hfalse⟩ := List.append_eq_nil_iff.mp hfun
    rw [Stmt.requests, rowGains_bracketed, rowGains_append, rowGains_append,
      condition.needs_typed.gains, Set.empty_union]
    exact (Set.union_subset_union (onTrue.rowGains_subset htrue)
      (onFalse.rowGains_subset hfalse)).trans gains_append
  | .forLoop init condition step body _ =>
    rw [Stmt.requests, rowGains_bracketed, rowGains_append, rowGains_append, rowGains_append,
      (needs_optional condition).gains, Set.empty_union]
    -- a name becomes ready in the start, after a round or in the body
    rintro x (hx | hx | hx)
    · exact Or.inl (List.mem_append_left _ (ForInit.rowGains_subset init hx))
    · exact Or.inl (List.mem_append_right _ (List.mem_append_right _
        (ForStep.storedNames_of_assigned (ForStep.rowGains_subset step hx))))
    · rcases body.rowGains_subset hfun hx with hx | hx
      · exact Or.inl (List.mem_append_right _ (List.mem_append_left _ hx))
      · exact Or.inr hx
  | .function _ _ _ => cases hfun
  | .prototype _ =>
    rw [Stmt.requests, rowGains_cons, rowGains_nil, Set.union_empty]
    rintro x rfl
    exact Or.inr List.mem_cons_self
  | .result value _ =>
    rw [Stmt.requests, (needs_optional value).gains]
    exact Set.empty_subset _

/-- So do those of a row of statements. -/
theorem rowGains_requestsAll_subset {row : List Stmt} (hfun : functionNamesAll row = []) :
    rowGains (requestsAll row) ⊆ gainsAll row := by
  match row with
  | [] => simp [requestsAll]
  | s :: more =>
    obtain ⟨hfun, hfun'⟩ := List.append_eq_nil_iff.mp hfun
    rw [requestsAll, rowGains_append]
    exact (Set.union_subset_union (s.rowGains_subset hfun)
      (rowGains_requestsAll_subset hfun')).trans gains_append

end

namespace Analysis

/-- The start of a loop makes the names ready into which it stores. -/
theorem leads_forInit {init : Option ForInit} {a : Analysis} (h : (forInit init a).log = []) :
    Leads a (forInit init a) ∅ {x | x ∈ ForInit.storedNames init} :=
  (passes_forInit init a).leads_gains h (ForInit.rowGains_subset init)

/-- The step of a loop makes the name ready to which it assigns. -/
theorem leads_forStep {step : Option ForStep} {a : Analysis} (h : (forStep step a).log = []) :
    Leads a (forStep step a) ∅ {x | x ∈ ForStep.assigned step} :=
  (passes_forStep step a).leads_gains h (ForStep.rowGains_subset step)

/-- A statement that defines no function makes no other names ready than those it stores into or
announces. -/
theorem leads_stmt {s : Stmt} (hfun : s.functionNames = []) {a : Analysis}
    (h : (stmt s a).log = []) : Leads a (stmt s a) ∅ s.gains :=
  (passes_stmt s a).leads_gains h (s.rowGains_subset hfun)

end Analysis

/-! ### Operands that have been written -/

/-- After some code an operand is a number, a name that was known before, or a target of the
code. -/
def Known (seen : Set String) (code : List Instr) (x : String) : Prop :=
  Kind.number.admits x = true ∨ x ∈ seen ∨ x ∈ targetsOf code

/-- The names that are known after some code. -/
def seenAfter (seen : Set String) (code : List Instr) : Set String :=
  seen ∪ {x | x ∈ targetsOf code}

/-- What is known after some code and more code is known after both. -/
theorem known_seenAfter {seen : Set String} {code code' : List Instr} {x : String} :
    Known (seenAfter seen code) code' x ↔ Known seen (code ++ code') x := by
  rw [Known, Known, targetsOf_append, List.mem_append]
  show _ ∨ (x ∈ seen ∨ x ∈ targetsOf code) ∨ _ ↔ _
  rw [or_assoc]

/-- What is known stays known when more code follows. -/
theorem Known.append {seen : Set String} {code : List Instr} {x : String}
    (h : Known seen code x) (code' : List Instr) : Known seen (code ++ code') x := by
  rw [Known, targetsOf_append, List.mem_append]
  exact h.imp_right (Or.imp_right Or.inl)

/-- What is known after some code is known before what follows it. -/
theorem Known.after {seen : Set String} {code : List Instr} {x : String}
    (h : Known seen code x) : Known (seenAfter seen code) [] x := by
  rw [known_seenAfter, List.append_nil]
  exact h

/-- What is known stays known when more was known before. -/
theorem Known.of_subset {seen seen' : Set String} {code : List Instr} {x : String}
    (h : Known seen code x) (hseen : seen ⊆ seen') : Known seen' code x :=
  h.imp_right (Or.imp_left (hseen ·))

/-- What was known before some code is known after it. -/
theorem subset_seenAfter (seen : Set String) (code : List Instr) : seen ⊆ seenAfter seen code :=
  fun _ hx => Or.inl hx

/-- Each operand of code at position `start` is known when it is read, or the instruction is in
a region that stores into it. -/
def Covers (seen : Set String) (start : Nat) (code : List Instr) (regions : List Region) : Prop :=
  ∀ ⦃i : Nat⦄ ⦃y : Instr⦄ ⦃x : String⦄, code[i]? = some y → x ∈ y.reads →
    Known seen (code.take i) x ∨ ∃ r ∈ regions, r.owner = .store x ∧ start + i ∈ r

namespace Covers

variable {seen seen' : Set String} {start next : Nat} {code code' : List Instr}
  {regions regions' : List Region}

/-- Code all of whose operands are known before it. -/
theorem of_known (hcode : ∀ y ∈ code, ∀ x ∈ y.reads, Known seen [] x) (start : Nat) :
    Covers seen start code [] := by
  intro i y x hy hx
  exact Or.inl ((hcode y (List.mem_of_getElem? hy) x hx).append (code.take i))

/-- One piece of code after another. The second may read what the first has written. -/
theorem append (h : Covers seen start code regions)
    (h' : Covers (seenAfter seen code) next code' regions') (hnext : next = start + code.length) :
    Covers seen start (code ++ code') (regions ++ regions') := by
  intro i y x hy hx
  -- the read is in the first piece or in the second
  by_cases hi : i < code.length
  · rw [List.getElem?_append_left hi] at hy
    rw [List.take_append_of_le_length (Nat.le_of_lt hi)]
    rcases h hy hx with hknown | ⟨r, hr, howner, hmem⟩
    · exact Or.inl hknown
    · exact Or.inr ⟨r, List.mem_append_left _ hr, howner, hmem⟩
  · obtain ⟨j, rfl⟩ : ∃ j, i = code.length + j := ⟨i - code.length, by omega⟩
    rw [List.getElem?_append_right (by omega), Nat.add_sub_cancel_left] at hy
    -- before an instruction of the second piece stands all of the first
    rw [List.take_length_add_append, ← Nat.add_assoc, ← hnext]
    rcases h' hy hx with hknown | ⟨r, hr, howner, hmem⟩
    · exact Or.inl (known_seenAfter.mp hknown)
    · exact Or.inr ⟨r, List.mem_append_right _ hr, howner, hmem⟩

/-- Code that asks for some names still does when more are known. -/
theorem of_subset (h : Covers seen start code regions) (hseen : seen ⊆ seen') :
    Covers seen' start code regions := by
  intro i y x hy hx
  rcases h hy hx with (hnumber | hknown | htarget) | hregion
  · exact Or.inl (Or.inl hnumber)
  · exact Or.inl (Or.inr (Or.inl (hseen hknown)))
  · exact Or.inl (Or.inr (Or.inr htarget))
  · exact Or.inr hregion

/-- Two pieces of code, of which the second asks for no more than the first. -/
theorem andThen (h : Covers seen start code regions) (h' : Covers seen next code' regions')
    (hnext : next = start + code.length) :
    Covers seen start (code ++ code') (regions ++ regions') :=
  h.append (h'.of_subset (subset_seenAfter seen code)) hnext

/-- Around code that may read a name before it is known there is a region that stores into the
name. -/
theorem wrap {name : String} (h : Covers (insert name seen) start code regions) :
    Covers seen start code (.ofCode (.store name) start code :: regions) := by
  intro i y x hy hx
  rcases h hy hx with (hnumber | (rfl | hknown) | htarget) | ⟨r, hr, howner, hmem⟩
  · exact Or.inl (Or.inl hnumber)
  · have hlt := (List.getElem?_eq_some_iff.mp hy).1
    exact Or.inr ⟨_, List.mem_cons_self, rfl, Nat.le_add_right _ _, Nat.add_lt_add_left hlt start⟩
  · exact Or.inl (Or.inr (Or.inl hknown))
  · exact Or.inl (Or.inr (Or.inr htarget))
  · exact Or.inr ⟨r, List.mem_cons_of_mem _ hr, howner, hmem⟩

end Covers

/-- The texts of the slots are ones that their kinds admit. -/
def Admitted (slots : List Slot) : Prop :=
  ∀ s ∈ slots, ∀ x ∈ s.text, s.kind.admits x = true

/-- The texts of two rows of slots are admitted if those of both together are. -/
theorem Admitted.of_append {slots slots' : List Slot} (h : Admitted (slots ++ slots')) :
    Admitted slots ∧ Admitted slots' :=
  List.forall_mem_append.mp h

/-- So are those of the first slot and of the rest. -/
theorem Admitted.of_cons {s : Slot} {slots : List Slot} (h : Admitted (s :: slots)) :
    (∀ x ∈ s.text, s.kind.admits x = true) ∧ Admitted slots :=
  List.forall_mem_cons.mp h

/-- Two operands that are computed one after the other, and the instruction that joins them. -/
theorem covers_join {seen : Set String} {start : Nat} {left right : List Instr} {l r : String}
    (hleft : Covers seen start left [] ∧ Known seen left l)
    (hright : Covers (seenAfter seen left) (start + left.length) right [] ∧
      Known (seenAfter seen left) right r) (target : String) (op : BinaryOp) :
    Covers seen start (left ++ (right ++ [.binary target l op r])) [] ∧
      Known seen (left ++ (right ++ [.binary target l op r])) target := by
  constructor
  · refine hleft.1.append (hright.1.append (.of_known ?_ _) rfl) rfl
    simp only [List.forall_mem_singleton, Instr.reads, List.forall_mem_cons]
    exact ⟨hleft.2.after.of_subset (subset_seenAfter _ _), hright.2.after⟩
  · refine Or.inr (Or.inr ?_)
    simp [targetsOf, Instr.target?]

mutual

/-- The operands of an expression are known if its names are. -/
theorem Expr.covers_code {e : Expr} {seen : Set String} (hadmits : Admitted e.slots)
    (hnames : namesIn e.slots ⊆ seen) (start t : Nat) :
    Covers seen start (e.code t) [] ∧ Known seen (e.code t) (e.operand t) := by
  match e with
  | .term x => exact x.covers_code hadmits hnames start t
  | .binary left op right =>
    obtain ⟨hleft, hright⟩ := hadmits.of_append
    rw [Expr.slots, namesIn_append, namesIn_mark, Set.union_subset_iff] at hnames
    exact covers_join (left.covers_code hleft hnames.1 start t)
      (right.covers_code hright.of_cons.2 (hnames.2.trans (subset_seenAfter _ _)) _ _) _ op

/-- So are those of a term. -/
theorem Term.covers_code {x : Term} {seen : Set String} (hadmits : Admitted x.slots)
    (hnames : namesIn x.slots ⊆ seen) (start t : Nat) :
    Covers seen start (x.code t) [] ∧ Known seen (x.code t) (x.operand t) := by
  match x with
  | .factor f => exact f.covers_code hadmits hnames start t
  | .binary left op right =>
    obtain ⟨hleft, hright⟩ := hadmits.of_append
    rw [Term.slots, namesIn_append, namesIn_mark, Set.union_subset_iff] at hnames
    exact covers_join (left.covers_code hleft hnames.1 start t)
      (right.covers_code hright.of_cons.2 (hnames.2.trans (subset_seenAfter _ _)) _ _) _ op

/-- So are those of a factor. A call reads its arguments when they are passed, after all of them
have been computed. -/
theorem Factor.covers_code {f : Factor} {seen : Set String} (hadmits : Admitted f.slots)
    (hnames : namesIn f.slots ⊆ seen) (start t : Nat) :
    Covers seen start (f.code t) [] ∧ Known seen (f.code t) (f.operand t) := by
  match f with
  | .number text _ =>
    exact ⟨.of_known (by simp [Factor.code]) start, Or.inl (hadmits.of_cons.1 text rfl)⟩
  | .ident name _ =>
    have hreserved := isReserved_of_admits (hadmits.of_cons.1 name rfl)
    refine ⟨.of_known (by simp [Factor.code]) start, Or.inr (Or.inl (hnames ?_))⟩
    rw [Factor.slots, namesIn_firstWord]
    exact Or.inl ⟨rfl, hreserved⟩
  | .group inner _ =>
    rw [Factor.slots, namesIn_first, namesIn_append, Set.union_subset_iff] at hnames
    exact inner.covers_code hadmits.of_cons.2.of_append.1 hnames.1 start t
  | .call name arguments _ =>
    rw [Factor.slots, argumentSlots_eq_map] at hadmits hnames
    rw [namesIn_firstWord, namesIn_mark, namesIn_append, namesIn_separated,
      Set.union_subset_iff, Set.union_subset_iff] at hnames
    have hargs : ∀ e ∈ arguments, Admitted e.slots ∧ namesIn e.slots ⊆ seen := by
      intro e he
      constructor
      · intro s hs
        exact hadmits.of_cons.2.of_cons.2.of_append.1 s
          (Slot.mem_separated (List.mem_map_of_mem he) hs)
      · intro x hx
        exact hnames.2.1 ⟨_, List.mem_map_of_mem he, hx⟩
    obtain ⟨hcovers, hoperands⟩ := covers_argumentCode hargs start t
    -- the arguments are computed, then passed, then the call is made
    constructor
    · refine hcovers.append (.append (.of_known ?_ _) (.of_known ?_ _) rfl) rfl
      · simp only [List.forall_mem_map, Instr.reads, List.forall_mem_singleton]
        exact fun v hv => (hoperands v hv).after
      · simp [Instr.reads]
    · refine Or.inr (Or.inr ?_)
      simp [Factor.code, Factor.operand, targetsOf, Instr.target?]

/-- So are those of a row of arguments. Each is computed after the ones before it, so more is
known by then. -/
theorem covers_argumentCode {es : List Expr} {seen : Set String}
    (hes : ∀ e ∈ es, Admitted e.slots ∧ namesIn e.slots ⊆ seen) (start t : Nat) :
    Covers seen start (argumentCode t es) [] ∧
      ∀ v ∈ argumentOperands t es, Known seen (argumentCode t es) v := by
  match es with
  | [] => exact ⟨.of_known (by simp [argumentCode]) start, by simp [argumentOperands]⟩
  | e :: es =>
    rw [List.forall_mem_cons] at hes
    obtain ⟨hfirst, hoperand⟩ := e.covers_code hes.1.1 hes.1.2 start t
    have hlater : ∀ e' ∈ es, Admitted e'.slots ∧ namesIn e'.slots ⊆ seenAfter seen (e.code t) :=
      fun e' he => ⟨(hes.2 e' he).1, (hes.2 e' he).2.trans (subset_seenAfter _ _)⟩
    obtain ⟨hmore, hoperands⟩ := covers_argumentCode hlater
      (start + (e.code t).length) (t + e.temporaryCount)
    refine ⟨hfirst.append hmore rfl, List.forall_mem_cons.mpr ⟨hoperand.append _, ?_⟩⟩
    exact fun v hv => known_seenAfter.mp (hoperands v hv)

end

/-- A store reads its target and its value. -/
theorem covers_storeCode {seen : Set String} {target value : String} (htarget : target ∈ seen)
    (hvalue : Known seen [] value) (op : AssignOp) (start t : Nat) :
    Covers seen start (storeCode t target op value) [] := by
  have hknown : Known seen [] target := Or.inr (Or.inl htarget)
  unfold storeCode
  cases op.joined? with
  | none => exact .of_known (by simpa [Instr.reads] using hvalue) start
  | some binary =>
      have hjoin : Covers seen start [.binary (temporary t) target binary value] [] :=
        .of_known (by simpa [Instr.reads] using ⟨hknown, hvalue⟩) start
      refine hjoin.append (.of_known ?_ _) rfl
      simp only [List.forall_mem_singleton, Instr.reads]
      exact Or.inr (Or.inl (Or.inr List.mem_cons_self))

/-- An assignment may read its target before it is known. -/
theorem Assignment.covers_code {a : Assignment} {seen : Set String} (hadmits : Admitted a.slots)
    (hnames : namesIn a.value.slots \ {a.target} ⊆ seen) (start t : Nat) :
    Covers (insert a.target seen) start (a.code t) [] := by
  have hvalue : namesIn a.value.slots ⊆ insert a.target seen := by
    intro x hx
    by_cases htarget : x = a.target
    · exact Or.inl htarget
    · exact Or.inr (hnames ⟨hx, htarget⟩)
  obtain ⟨hcovers, hknown⟩ := a.value.covers_code hadmits.of_cons.2.of_cons.2 hvalue start t
  exact hcovers.append (covers_storeCode (Or.inl (Or.inl rfl)) hknown.after _ _ _) rfl

/-- A declared name reads only its first value. -/
theorem Declarator.covers_code {d : Declarator} {seen : Set String} (hadmits : Admitted d.slots)
    (hnames : namesIn (optionSlots Expr.slots d.initializer) ⊆ seen) (start t : Nat) :
    Covers seen start (d.code t) [] := by
  obtain ⟨name, _ | e⟩ := d
  · exact .of_known (by simp [Declarator.code, Instr.reads]) start
  · obtain ⟨hcovers, hknown⟩ := e.covers_code hadmits.of_cons.2.of_cons.2 hnames start t
    exact hcovers.append (.of_known (by simpa [Instr.reads] using hknown.after) _) rfl

/-! ### The order of the analysis against the order of the code -/

/-- Every name that the analysis holds ready is known. -/
def ReadyWithin (a : Analysis) (seen : Set String) : Prop :=
  ∀ x, a.table.Ready x → x ∈ seen

/-- After a step that makes some names ready, every name that is ready is known if those are. -/
theorem ReadyWithin.of_leads {a b : Analysis} {seen seen' reads gains : Set String}
    (h : ReadyWithin a seen) (hleads : Analysis.Leads a b reads gains) (hseen : seen ⊆ seen')
    (hgains : gains ⊆ seen') : ReadyWithin b seen' :=
  fun x hx => (hleads.gains x hx).elim (fun hx => hseen (h x hx)) (hgains ·)

/-- The names that a step asks to be ready are known. -/
theorem ReadyWithin.names_subset {a b : Analysis} {seen reads gains : Set String}
    (h : ReadyWithin a seen) (hleads : Analysis.Leads a b reads gains) : reads ⊆ seen :=
  fun x hx => h x (hleads.reads x hx)

/-- A scope that opens makes no name ready. -/
theorem ReadyWithin.push {a : Analysis} {seen : Set String} (h : ReadyWithin a seen) :
    ReadyWithin a.push seen :=
  fun x hx => h x hx.of_push

/-- The names into which code stores are known after it. -/
theorem stored_subset_seenAfter {code : List Instr} {t n : Nat} {names : List String}
    {read : Multiset String} (h : Uses code t n names read 0) (seen : Set String) :
    {x | x ∈ names} ⊆ seenAfter seen code := by
  intro x hx
  refine Or.inr ?_
  show x ∈ targetsOf code
  rw [← Multiset.mem_coe, h.targets]
  exact Multiset.mem_add.mpr (Or.inr hx)

/-- What a statement makes ready is known after its code. -/
theorem Stmt.gains_subset_seenAfter (s : Stmt) {seen : Set String}
    (hannounced : ∀ f ∈ s.prototypeNames, f ∈ seen) {t l : Nat} :
    s.gains ⊆ seenAfter seen (s.code t l) := by
  rintro x (hx | hx)
  · exact stored_subset_seenAfter (s.uses_code t l) seen hx
  · exact Or.inl (hannounced x hx)

/-- What a declared name makes ready is known after its code. -/
theorem Declarator.gains_subset_seenAfter (d : Declarator) (t : Nat) (seen : Set String) :
    {x | x = d.name ∧ d.initializer.isSome = true} ⊆ seenAfter seen (d.code t) := by
  rintro x ⟨rfl, hsome⟩
  obtain ⟨name, _ | e⟩ := d
  · cases hsome
  · refine Or.inr ?_
    simp [Declarator.code, targetsOf, Instr.target?]

/-- The operands of a row of declared names are known if what is ready before it is. The induction
is on the row: each name is ready for the ones after it. -/
theorem covers_declaratorCode {type : DataType} {line : Nat} {ds : List Declarator}
    {a : Analysis} {seen : Set String}
    (hquiet : (ds.foldl (Analysis.declarator type line) a).log = [])
    (hadmits : ∀ d ∈ ds, Admitted d.slots) (hready : ReadyWithin a seen) (start t : Nat) :
    Covers seen start (declaratorCode t ds) [] := by
  induction ds generalizing a seen start t with
  | nil => exact .of_known (by simp [declaratorCode]) start
  | cons d ds ih =>
      rw [List.forall_mem_cons] at hadmits
      -- the rest of the row is a declaration as well
      have hmore := (Analysis.passes_declaration ⟨type, ds, line⟩
        (Analysis.declarator type line a d)).leads hquiet
      have hfirst := Analysis.leads_declarator hmore.quiet
      have hnext := hready.of_leads hfirst (subset_seenAfter seen (d.code t))
        (d.gains_subset_seenAfter t seen)
      exact (d.covers_code hadmits.1 (hready.names_subset hfirst) start t).append
        (ih hquiet hadmits.2 hnext _ _) rfl

/-- So are those of a declaration. -/
theorem Declaration.covers_code {d : Declaration} {a : Analysis} {seen : Set String}
    (hquiet : (Analysis.declaration d a).log = []) (hadmits : Admitted d.slots)
    (hready : ReadyWithin a seen) (start t : Nat) : Covers seen start (d.code t) [] := by
  refine covers_declaratorCode hquiet (fun x hx s hs => ?_) hready start t
  exact hadmits.of_cons.2 s (Slot.mem_separated (List.mem_map_of_mem hx) hs)

/-- So are those of the start of a loop, where an assignment has a region of its own. -/
theorem ForInit.covers_code {init : Option ForInit} {a : Analysis} {seen : Set String}
    (hquiet : (Analysis.forInit init a).log = [])
    (hadmits : Admitted (optionSlots ForInit.slots init)) (hready : ReadyWithin a seen)
    (start t : Nat) : Covers seen start (ForInit.code t init) (ForInit.regions start t init) := by
  match init with
  | some (.declaration d) => exact d.covers_code hquiet hadmits hready start t
  | some (.assignment s) =>
    exact (s.covers_code hadmits (hready.names_subset (Analysis.leads_assignment hquiet))
      start t).wrap
  | none => exact .of_known (by simp [ForInit.code]) start

/-- The step of a loop may read the name to which it assigns before it is known. -/
theorem ForStep.covers_code {step : Option ForStep} {a : Analysis} {seen : Set String}
    (hquiet : (Analysis.forStep step a).log = [])
    (hadmits : Admitted (optionSlots ForStep.slots step)) (hready : ReadyWithin a seen)
    (start t : Nat) :
    Covers (seen ∪ {x | x ∈ ForStep.assigned step}) start (ForStep.code t step) [] := by
  have hone : ∀ seen, Known seen [] "1" := fun _ => Or.inl (by decide)
  match step with
  | some (.increment target _) =>
    -- a name that is counted up has been checked to be ready
    have htarget := hready target ((Checker.leads_checkStep hquiet).reads target rfl)
    exact covers_storeCode (Or.inl htarget) (hone _) .add start t
  | some (.decrement target _) =>
    have htarget := hready target ((Checker.leads_checkStep hquiet).reads target rfl)
    exact covers_storeCode (Or.inl htarget) (hone _) .sub start t
  | some (.assignment s) =>
    refine (s.covers_code hadmits (hready.names_subset (Analysis.leads_assignment hquiet))
      start t).of_subset ?_
    rintro x (rfl | hx)
    · exact Or.inr List.mem_cons_self
    · exact Or.inl hx
  | none => exact .of_known (by simp [ForStep.code]) start

/-- Around the rounds of a loop stands the region of its step. -/
theorem covers_round {step : Option ForStep} {seen : Set String} {start : Nat}
    {round : List Instr} {regions : List Region}
    (h : Covers (seen ∪ {x | x ∈ ForStep.assigned step}) start round regions) :
    Covers seen start round
      ((ForStep.assigned step).map (fun x => .ofCode (.store x) start round) ++ regions) := by
  match step with
  | some (.assignment s) =>
    refine Covers.wrap (h.of_subset ?_)
    rintro x (hx | hx)
    · exact Or.inr hx
    · exact Or.inl (List.mem_singleton.mp hx)
  | some (.increment _ _) | some (.decrement _ _) | none =>
    refine h.of_subset ?_
    rintro x (hx | hx)
    · exact hx
    · cases hx

/-- The operands of a test are known if what is ready before it is. -/
theorem covers_testCode {e : Expr} {a : Analysis} {seen : Set String}
    (hquiet : (Analysis.typedExpr e a).log = []) (hadmits : Admitted e.slots)
    (hready : ReadyWithin a seen) (start t : Nat) (label : String) :
    Covers seen start (testCode t e label) [] := by
  obtain ⟨hcovers, hknown⟩ := e.covers_code hadmits
    (hready.names_subset (Analysis.leads_typedExpr hquiet)) start t
  exact hcovers.append (.of_known (by simpa [Instr.reads] using hknown.after) _) rfl

/-- So are those of the condition of a counted loop, if there is one. -/
theorem covers_conditionCode {condition : Option Expr} {a : Analysis} {seen : Set String}
    (hquiet : (Analysis.optionalExpr condition a).log = [])
    (hadmits : Admitted (optionSlots Expr.slots condition)) (hready : ReadyWithin a seen)
    (start t : Nat) (label : String) :
    Covers seen start (conditionCode t condition label) [] := by
  match condition with
  | some e => exact covers_testCode hquiet hadmits hready start t label
  | none => exact .of_known (by simp [conditionCode]) start

/-- Instructions that read nothing. -/
theorem covers_marks {marks : List Instr} (hmarks : readsOf marks = []) (seen : Set String)
    (start : Nat) : Covers seen start marks [] := by
  refine .of_known (fun y hy x hx => ?_) start
  have hread : x ∈ readsOf marks := List.mem_flatMap.mpr ⟨y, hy, hx⟩
  rw [hmarks] at hread
  cases hread

mutual

/-- What a statement reads has been written, or is about to be written in a region around. -/
theorem Stmt.covers_code {s : Stmt} {a : Analysis} {seen : Set String}
    (hquiet : (Analysis.stmt s a).log = []) (hadmits : Admitted s.slots)
    (hfun : s.functionNames = []) (hannounced : ∀ f ∈ s.prototypeNames, f ∈ seen)
    (hready : ReadyWithin a seen) (start t l : Nat) :
    Covers seen start (s.code t l) (s.regions start t l) := by
  match s with
  | .block body _ =>
    exact covers_codeAll (a := a.visit) hquiet hadmits.of_cons.2.of_append.1 hfun hannounced
      hready start t l
  | .declaration d =>
    exact d.covers_code (a := a.visit.countDeclaration) hquiet hadmits.of_append.1 hready start t
  | .assignment s =>
    have hassign := Analysis.leads_assignment (a := a.visit.countAssignment) hquiet
    exact (s.covers_code hadmits.of_append.1
      (ReadyWithin.names_subset (a := a.visit.countAssignment) hready hassign) start t).wrap
  | .ifThen condition body _ =>
    obtain ⟨hcond, hbody⟩ := hadmits.of_cons.2.of_append
    have hpushed : ReadyWithin a.visit.countIf.push seen := ReadyWithin.push hready
    -- the log only grows, so it is empty before the body as well
    have hquiet' := (Analysis.leads_stmt (s := body) hfun hquiet).quiet
    have htested := hpushed.of_leads (Analysis.leads_typedExpr hquiet') (Set.Subset.refl seen)
      (Set.empty_subset _)
    have htest := covers_testCode hquiet' hcond.of_cons.2.of_append.1 hpushed start t (labelName l)
    have hcode := body.covers_code hquiet hbody hfun hannounced htested
      (start + (testCode t condition (labelName l)).length) (t + condition.temporaryCount) (l + 1)
    have hmark : readsOf [.label (labelName l)] = [] := rfl
    simpa [Stmt.code, Stmt.regions] using
      htest.andThen (hcode.andThen (covers_marks hmark _ _) rfl) rfl
  | .ifElse condition onTrue onFalse _ =>
    obtain ⟨hcond, hsides⟩ := hadmits.of_cons.2.of_append
    obtain ⟨htrue, hfalse⟩ := hsides.of_append
    obtain ⟨hfun, hfun'⟩ := List.append_eq_nil_iff.mp hfun
    rw [Stmt.prototypeNames, List.forall_mem_append] at hannounced
    have hpushed : ReadyWithin a.visit.countIf.push seen := ReadyWithin.push hready
    have hquiet'' := (Analysis.leads_stmt (s := onFalse) hfun' hquiet).quiet
    have hleads := Analysis.leads_stmt (s := onTrue) hfun hquiet''
    have htested := hpushed.of_leads (Analysis.leads_typedExpr hleads.quiet)
      (Set.Subset.refl seen) (Set.empty_subset _)
    have htest := covers_testCode hleads.quiet hcond.of_cons.2.of_append.1 hpushed start t
      (labelName l)
    have hfirst := onTrue.covers_code hquiet'' htrue hfun hannounced.1 htested
      (start + (testCode t condition (labelName l)).length) (t + condition.temporaryCount) (l + 2)
    -- what the first side makes ready counts for the second
    have hside := htested.of_leads hleads
      (subset_seenAfter seen (onTrue.code (t + condition.temporaryCount) (l + 2)))
      (onTrue.gains_subset_seenAfter hannounced.1)
    have hsecond := onFalse.covers_code hquiet hfalse.of_cons.2 hfun'
      (fun f hf => subset_seenAfter _ _ (hannounced.2 f hf)) hside
      (start + (testCode t condition (labelName l)).length +
        (onTrue.code (t + condition.temporaryCount) (l + 2)).length + 2)
      (t + condition.temporaryCount + onTrue.temporaryCount) (l + 2 + onTrue.labelCount)
    have hmarks : readsOf [.goto (labelName (l + 1)), .label (labelName l)] = [] := rfl
    have hmark : readsOf [.label (labelName (l + 1))] = [] := rfl
    simpa [Stmt.code, Stmt.regions] using
      htest.andThen (hfirst.append ((covers_marks hmarks _ _).andThen
        (hsecond.andThen (covers_marks hmark _ _) rfl) rfl) rfl) rfl
  | .whileLoop condition body _ =>
    obtain ⟨hcond, hbody⟩ := hadmits.of_cons.2.of_append
    have hpushed : ReadyWithin a.visit.countWhile.push seen := ReadyWithin.push hready
    have hquiet' := (Analysis.leads_stmt (s := body) hfun hquiet).quiet
    have htested := hpushed.of_leads (Analysis.leads_typedExpr hquiet') (Set.Subset.refl seen)
      (Set.empty_subset _)
    have htest := covers_testCode hquiet' hcond.of_cons.2.of_append.1 hpushed (start + 1) t
      (labelName (l + 1))
    have hcode := body.covers_code hquiet hbody hfun hannounced htested
      (start + 1 + (testCode t condition (labelName (l + 1))).length)
      (t + condition.temporaryCount) (l + 2)
    have hentry : readsOf [.label (labelName l)] = [] := rfl
    have hmarks : readsOf [.goto (labelName l), .label (labelName (l + 1))] = [] := rfl
    simpa [Stmt.code, Stmt.regions] using
      (covers_marks hentry seen start).andThen
        (htest.andThen (hcode.andThen (covers_marks hmarks _ _) rfl) rfl) rfl
  | .forLoop init condition step body _ =>
    obtain ⟨hinits, hrest⟩ := hadmits.of_cons.2.of_cons.2.of_append
    obtain ⟨hcond, hrest⟩ := hrest.of_cons.2.of_append
    obtain ⟨hsteps, hrest⟩ := hrest.of_cons.2.of_append
    have hpushed : ReadyWithin a.visit.countFor.push seen := ReadyWithin.push hready
    have hstep := Analysis.leads_forStep (Analysis.leads_stmt (s := body) hfun hquiet).quiet
    have hcondition := Analysis.leads_optionalExpr hstep.quiet
    -- the start is written and checked first
    have hbegun := hpushed.of_leads (Analysis.leads_forInit hcondition.quiet)
      (subset_seenAfter seen (ForInit.code t init))
      (stored_subset_seenAfter (ForInit.uses_code init t) seen)
    have htested := hbegun.of_leads hcondition (Set.Subset.refl _) (Set.empty_subset _)
    -- the step is passed before the body, so the body may read what the step assigns
    have hentered := htested.of_leads hstep Set.subset_union_left Set.subset_union_right
    have hround := covers_round ((body.covers_code hquiet hrest.of_cons.2 hfun
      (fun f hf => Or.inl (Or.inl (hannounced f hf))) hentered
      (start + (ForInit.code t init).length + 1 +
        (conditionCode (t + ForInit.temporaryCount init) condition (labelName (l + 1))).length)
      (t + ForInit.temporaryCount init + conditionTemporaryCount condition) (l + 2)).andThen
      (ForStep.covers_code (Analysis.leads_stmt (s := body) hfun hquiet).quiet hsteps htested _
        (t + ForInit.temporaryCount init + conditionTemporaryCount condition +
          body.temporaryCount)) rfl)
    have hentry : readsOf [.label (labelName l)] = [] := rfl
    have hmarks : readsOf [.goto (labelName l), .label (labelName (l + 1))] = [] := rfl
    have hloop := (covers_marks hentry _ _).andThen
      ((covers_conditionCode hstep.quiet hcond hbegun _ (t + ForInit.temporaryCount init)
        (labelName (l + 1))).andThen (hround.andThen (covers_marks hmarks _ _) rfl) rfl) rfl
    simpa [Stmt.code, Stmt.regions] using
      (ForInit.covers_code hcondition.quiet hinits hpushed start t).append hloop rfl
  | .function _ _ _ => cases hfun
  | .prototype _ => exact covers_marks rfl seen start
  | .result none _ => exact covers_marks rfl seen start
  | .result (some e) _ =>
    obtain ⟨hcovers, hknown⟩ := e.covers_code hadmits.of_cons.2.of_append.1
      (ReadyWithin.names_subset (a := a.visit) hready (Analysis.leads_typedExpr hquiet)) start t
    exact hcovers.append (.of_known (by simpa [Instr.reads] using hknown.after) _) rfl

/-- So is what a row of statements reads. The induction is on the row: what a statement makes
ready is known after its code, which is before the code of the next. -/
theorem covers_codeAll {row : List Stmt} {a : Analysis} {seen : Set String}
    (hquiet : (Analysis.stmts row a).log = []) (hadmits : Admitted (rowSlots row))
    (hfun : functionNamesAll row = []) (hannounced : ∀ f ∈ prototypeNamesAll row, f ∈ seen)
    (hready : ReadyWithin a seen) (start t l : Nat) :
    Covers seen start (codeAll t l row) (regionsAll start t l row) := by
  match row with
  | [] => exact covers_marks rfl seen start
  | s :: more =>
    obtain ⟨hfirst, hmore⟩ := hadmits.of_append
    obtain ⟨hfun, hfun'⟩ := List.append_eq_nil_iff.mp hfun
    rw [prototypeNamesAll, List.forall_mem_append] at hannounced
    have hquiet' := ((Analysis.passes_stmts more (Analysis.stmt s a)).leads hquiet).quiet
    have hleads := Analysis.leads_stmt hfun hquiet'
    have hnext := hready.of_leads hleads (subset_seenAfter seen (s.code t l))
      (s.gains_subset_seenAfter hannounced.1)
    exact (s.covers_code hquiet' hfirst hfun hannounced.1 hready start t l).append
      (covers_codeAll (a := Analysis.stmt s a) hquiet hmore hfun'
        (fun f hf => Or.inl (hannounced.2 f hf)) hnext _ _ _) rfl

end

/-! ### Accepted sources -/

/-- In the code of an accepted source without functions, a name that is read and does not belong
to an announced function is the target of an earlier instruction. The exceptions are reads of
a name within an assignment to it, and within the rounds of a counted loop whose step assigns
to it: the region around the read stores into the name. Every variable has a name that the
lexer admits, so the theorem speaks of all of them. -/
theorem reads_written_of_accepted {source : String} {g : Emitter}
    (hcode : (compile source).code = some g)
    (hfun : (compile source).program.functionNames = []) {i : Nat} {y : Instr} {x : String}
    (hy : g.instructions[i]? = some y) (hx : x ∈ y.reads)
    (hname : Kind.identifier.admits x = true)
    (hvariable : x ∉ (compile source).program.prototypeNames) :
    x ∈ targetsOf (g.instructions.take i) ∨
      ∃ r ∈ (compile source).program.regions, r.owner = .store x ∧ i ∈ r := by
  obtain ⟨hquiet, rfl⟩ := code_eq_some_iff.mp hcode
  obtain ⟨_, _, _, _, hanalysis⟩ := stages_of_accepted hquiet
  have hstmts : (Analysis.stmts (compile source).program.body Analysis.initial).log = [] :=
    (List.append_eq_nil_iff.mp hanalysis).1
  -- at the start nothing is ready, and only the announced functions count as known
  have hready : ReadyWithin .initial {f | f ∈ (compile source).program.prototypeNames} :=
    fun x hx => absurd hx Table.not_ready_initial
  have hcovers := covers_codeAll hstmts (admits_of_accepted hquiet) hfun (fun f hf => hf) hready
    0 0 0
  rw [Program.instructions_lower] at hy ⊢
  rcases hcovers hy hx with (hnumber | hseen | htarget) | hregion
  · rw [Kind.admits_number_of_admits_identifier hname] at hnumber
    cases hnumber
  · exact absurd hseen hvariable
  · exact Or.inl htarget
  · rw [Nat.zero_add] at hregion
    exact Or.inr hregion

/-- The test of the loop reads `n`, which its declaration has written. -/
theorem reads_written_countdown :
    ∃ g, (compile "int n = 3;\nwhile (n) n = n - 1;").code = some g ∧
      ("n" ∈ targetsOf (g.instructions.take 2) ∨
        ∃ r ∈ (compile "int n = 3;\nwhile (n) n = n - 1;").program.regions,
          r.owner = .store "n" ∧ 2 ∈ r) := by
  have hquiet : (compile "int n = 3;\nwhile (n) n = n - 1;").log = [] := by decide +kernel
  have hread : (compile "int n = 3;\nwhile (n) n = n - 1;").program.lower.instructions[2]?
      = some (.ifNotGoto "n" "L1") := by decide +kernel
  refine ⟨_, code_eq_some_iff.mpr ⟨hquiet, rfl⟩, ?_⟩
  exact reads_written_of_accepted (code_eq_some_iff.mpr ⟨hquiet, rfl⟩) (by decide +kernel) hread
    List.mem_cons_self (by decide) (by decide +kernel)

/-- The body of the loop reads `i`, to which only the step assigns:
```
int i;
for (; 1; i = 2) { int y = i; y = y; }
```
-/
def stepAfterBody : String :=
  "int i;\nfor (; 1; i = 2) \x7b int y = i; y = y; \x7d"

/-- `f` is announced as a function and read, and further in there is a variable of that name:
```
int f();
int x = f;
if (x) { int f = 1; x = f; }
```
-/
def variableNamedAsFunction : String :=
  "int f();\nint x = f;\nif (x) \x7b int f = 1; x = f; \x7d"

/-- None of the exceptions can be left out. An assignment may read a variable that has never been
written, the body of a loop may read one that only the step writes, and a name that is announced as
a function may be read before the variable of that name is written. -/
theorem read_before_written :
    ((compile "int x;\nx = x + 1;").log = [] ∧
      (compile "int x;\nx = x + 1;").program.functionNames = [] ∧
      (compile "int x;\nx = x + 1;").program.prototypeNames = [] ∧
      (compile "int x;\nx = x + 1;").code.map Emitter.instructions
        = some [.declare "x", .binary "t0" "x" .add "1", .copy "x" "t0"] ∧
      "x" ∉ targetsOf [.declare "x"]) ∧
    ((compile stepAfterBody).log = [] ∧
      (compile stepAfterBody).program.functionNames = [] ∧
      (compile stepAfterBody).program.prototypeNames = [] ∧
      (compile stepAfterBody).code.map Emitter.instructions
        = some [.declare "i", .label "L0", .ifNotGoto "1" "L1", .copy "y" "i", .copy "y" "y",
          .copy "i" "2", .goto "L0", .label "L1"] ∧
      "i" ∉ targetsOf [.declare "i", .label "L0", .ifNotGoto "1" "L1"]) ∧
    (compile variableNamedAsFunction).log = [] ∧
      (compile variableNamedAsFunction).program.functionNames = [] ∧
      (compile variableNamedAsFunction).program.prototypeNames = ["f"] ∧
      (compile variableNamedAsFunction).code.map Emitter.instructions
        = some [.copy "x" "f", .ifNotGoto "x" "L0", .copy "f" "1", .copy "x" "f", .label "L0"] := by
  decide +kernel

end Tercet
