import Tercet.Proofs.Code.Temporaries

/-!
# `Tercet.Proofs.Code.Jumps`: jumps stay where they belong

A listing is flat, but the tree it comes from is not: the code of a function body, of an
assignment or of the rounds of a counted loop is a *region* of the listing, a stretch of
positions. `Stmt.regions` gives the regions of a statement whose code starts at a given
position.

Every jump leads to a label of its own statement, and no jump leads into a region or out of
one. `Confined` says this of a piece of code, up to jumps to labels that are still to be
placed around it: those `ahead` stand behind the code, those `behind` stand before it, and
only a jump ahead may be conditional. There is one rule for each way to put code together,
and `Stmt.confined_code` follows the tree with them. Together with the temporaries
(`Tercet.Proofs.Code.Temporaries`) this gives `wellScoped_lower`.
-/

set_option autoImplicit false

namespace Tercet

/-! ### Regions of a listing -/

/-- What the code of a region belongs to. -/
inductive Owner where
  /-- The body of a function. -/
  | body (function : String)
  /-- An assignment, or the rounds of a counted loop whose step is one. -/
  | store (target : String)
deriving DecidableEq, Repr

/-- A stretch of a listing, without the position `stop`. -/
structure Region where
  owner : Owner
  start : Nat
  stop : Nat
deriving DecidableEq, Repr

namespace Region

instance : Membership Nat Region where
  mem r i := r.start ≤ i ∧ i < r.stop

theorem mem_iff {r : Region} {i : Nat} : i ∈ r ↔ r.start ≤ i ∧ i < r.stop :=
  Iff.rfl

instance (r : Region) (i : Nat) : Decidable (i ∈ r) :=
  inferInstanceAs (Decidable (_ ∧ _))

/-- The region of some code. -/
def ofCode (owner : Owner) (start : Nat) (code : List Instr) : Region :=
  ⟨owner, start, start + code.length⟩

/-- Whether the region is that of a function body. -/
def isBody (r : Region) : Bool :=
  match r.owner with
  | .body _ => true
  | .store _ => false

end Region

/-- The region of an assignment. -/
def Assignment.region (start t : Nat) (a : Assignment) : Region :=
  .ofCode (.store a.target) start (a.code t)

/-- The regions of the start of a counted loop. -/
def ForInit.regions (start t : Nat) : Option ForInit → List Region
  | some (.assignment a) => [a.region start t]
  | some (.declaration _) | none => []

/-- The name to which the step of a counted loop assigns. Steps up or down are not counted
here: they read the name before they store into it. -/
def ForStep.assigned : Option ForStep → List String
  | some (.assignment a) => [a.target]
  | some (.increment _ _) | some (.decrement _ _) | none => []

mutual

/-- The regions of a statement whose code starts at position `start`, from temporary `t` and
label `l` on. -/
def Stmt.regions (start t l : Nat) : Stmt → List Region
  | .block body _ => regionsAll start t l body
  | .declaration _ | .prototype _ | .result _ _ => []
  | .assignment a => [a.region start t]
  | .ifThen condition body _ =>
    body.regions (start + (testCode t condition (labelName l)).length)
      (t + condition.temporaryCount) (l + 1)
  | .ifElse condition onTrue onFalse _ =>
    let tested := t + condition.temporaryCount
    let first := start + (testCode t condition (labelName l)).length
    -- a jump and a label stand between the two sides
    let second := first + (onTrue.code tested (l + 2)).length + 2
    onTrue.regions first tested (l + 2) ++
      onFalse.regions second (tested + onTrue.temporaryCount) (l + 2 + onTrue.labelCount)
  | .whileLoop condition body _ =>
    body.regions (start + 1 + (testCode t condition (labelName (l + 1))).length)
      (t + condition.temporaryCount) (l + 2)
  | .forLoop init condition step body _ =>
    let begun := t + ForInit.temporaryCount init
    let tested := begun + conditionTemporaryCount condition
    let first := start + (ForInit.code t init).length + 1 +
      (conditionCode begun condition (labelName (l + 1))).length
    let round := body.code tested (l + 2) ++ ForStep.code (tested + body.temporaryCount) step
    ForInit.regions start t init ++
      ((ForStep.assigned step).map (fun x => .ofCode (.store x) first round) ++
        body.regions first tested (l + 2))
  | .function signature body _ =>
    .ofCode (.body signature.name) (start + 1) (codeAll t l body) ::
      regionsAll (start + 1) t l body

/-- The regions of a row of statements. -/
def regionsAll (start t l : Nat) : List Stmt → List Region
  | [] => []
  | s :: more =>
    s.regions start t l ++
      regionsAll (start + (s.code t l).length) (t + s.temporaryCount) (l + s.labelCount) more

end

/-- The regions of a program. -/
def Program.regions (p : Program) : List Region :=
  regionsAll 0 0 0 p.body

/-- The function bodies of a program. -/
def Program.bodies (p : Program) : List Region :=
  p.regions.filter Region.isBody

/-! ### Confined code -/

namespace Instr

/-- The label to which an instruction may jump. -/
def jump? : Instr → Option String
  | .ifNotGoto _ target | .goto target => some target
  | .binary _ _ _ _ | .copy _ _ | .label _ | .param _ | .call _ _ | .declare _ | .result _ => none

/-- Whether an instruction jumps on a condition. -/
def isTest : Instr → Bool
  | .ifNotGoto _ _ => true
  | .binary _ _ _ _ | .copy _ _ | .label _ | .goto _ | .param _ | .call _ _ | .declare _
  | .result _ => false

end Instr

/-- Each jump of code at position `start` leads to a label of the code, on the same side of each
region, and forward if it has a condition. Jumps outside of all regions may also lead to the
labels `ahead`, which stand after the code, and those without a condition to the labels
`behind`, which stand before it. -/
structure Confined (start : Nat) (code : List Instr) (ahead behind : List Nat)
    (regions : List Region) : Prop where
  within : ∀ r ∈ regions, start ≤ r.start ∧ r.stop ≤ start + code.length
  lands : ∀ {i : Nat} {x : Instr} {name : String}, code[i]? = some x → x.jump? = some name →
    ∃ k, name = labelName k ∧
      ((∃ j, code[j]? = some (.label name) ∧ (x.isTest = true → i < j) ∧
          ∀ r ∈ regions, start + i ∈ r ↔ start + j ∈ r) ∨
        ((k ∈ ahead ∨ x.isTest = false ∧ k ∈ behind) ∧ ∀ r ∈ regions, start + i ∉ r))

namespace Confined

variable {start k : Nat} {code code' : List Instr} {ahead behind : List Nat}
  {regions regions' : List Region}

/-- Code without jumps. -/
theorem of_jumpless (start : Nat) (hcode : ∀ i ∈ code, i.jump? = none) :
    Confined start code ahead behind [] where
  within := by simp
  lands hx hjump := by
    rw [hcode _ (List.mem_of_getElem? hx)] at hjump
    cases hjump

/-- A test jumps to a label that stands after the code. -/
theorem ifNotGoto (start : Nat) (condition : String) (hk : k ∈ ahead) :
    Confined start [.ifNotGoto condition (labelName k)] ahead behind [] where
  within := by simp
  lands hx hjump := by
    cases List.mem_singleton.mp (List.mem_of_getElem? hx)
    cases hjump
    exact ⟨k, rfl, Or.inr ⟨Or.inl hk, by simp⟩⟩

/-- A jump without a condition may also go back. -/
theorem goto (start : Nat) (hk : k ∈ ahead ∨ k ∈ behind) :
    Confined start [.goto (labelName k)] ahead behind [] where
  within := by simp
  lands hx hjump := by
    cases List.mem_singleton.mp (List.mem_of_getElem? hx)
    cases hjump
    exact ⟨k, rfl, Or.inr ⟨hk.imp_right fun hk => ⟨rfl, hk⟩, by simp⟩⟩

/-- Code that needs no label around it. -/
theorem weaken (h : Confined start code [] [] regions) :
    Confined start code ahead behind regions where
  within := h.within
  lands hx hjump := by
    obtain ⟨k, hk, hland | ⟨hopen, _⟩⟩ := h.lands hx hjump
    · exact ⟨k, hk, Or.inl hland⟩
    · simp at hopen

/-- Pieces in a row keep their jumps. The labels around the whole are those around each piece. -/
theorem append {next : Nat} (h : Confined start code ahead behind regions)
    (h' : Confined next code' ahead behind regions') (hnext : next = start + code.length) :
    Confined start (code ++ code') ahead behind (regions ++ regions') where
  within r hr := by
    subst hnext
    rw [List.length_append]
    rcases List.mem_append.mp hr with hr | hr
    · have hwithin := h.within r hr
      omega
    · have hwithin := h'.within r hr
      omega
  lands {i x name} hx hjump := by
    subst hnext
    -- a position of one piece is in no region of the other, so jumps within a piece stay on
    -- the same side of all regions
    have hout : ∀ j < code.length, ∀ r ∈ regions', start + j ∉ r := by
      intro j hj r hr hmem
      have hwithin := h'.within r hr
      rw [Region.mem_iff] at hmem
      omega
    have hout' : ∀ j, ∀ r ∈ regions, start + code.length + j ∉ r := by
      intro j r hr hmem
      have hwithin := h.within r hr
      rw [Region.mem_iff] at hmem
      omega
    by_cases hi : i < code.length
    · rw [List.getElem?_append_left hi] at hx
      obtain ⟨k, hk, ⟨j, hj, hforward, hsame⟩ | ⟨hopen, hnone⟩⟩ := h.lands hx hjump
      · have hjlt : j < code.length := (List.getElem?_eq_some_iff.mp hj).1
        refine ⟨k, hk, Or.inl ⟨j, by rw [List.getElem?_append_left hjlt, hj], hforward, ?_⟩⟩
        intro r hr
        rcases List.mem_append.mp hr with hr | hr
        · exact hsame r hr
        · exact iff_of_false (hout i hi r hr) (hout j hjlt r hr)
      · refine ⟨k, hk, Or.inr ⟨hopen, fun r hr => ?_⟩⟩
        rcases List.mem_append.mp hr with hr | hr
        · exact hnone r hr
        · exact hout i hi r hr
    -- the same for a jump of the second piece, with positions counted from its start
    · obtain ⟨m, rfl⟩ : ∃ m, i = code.length + m := ⟨i - code.length, by omega⟩
      rw [List.getElem?_append_right (by omega), Nat.add_sub_cancel_left] at hx
      rw [← Nat.add_assoc]
      obtain ⟨k, hk, ⟨j, hj, hforward, hsame⟩ | ⟨hopen, hnone⟩⟩ := h'.lands hx hjump
      · refine ⟨k, hk, Or.inl ⟨code.length + j, ?_, fun ht => ?_, fun r hr => ?_⟩⟩
        · rw [List.getElem?_append_right (by omega), Nat.add_sub_cancel_left, hj]
        · have hlt := hforward ht
          omega
        · rw [← Nat.add_assoc]
          rcases List.mem_append.mp hr with hr | hr
          · exact iff_of_false (hout' m r hr) (hout' j r hr)
          · exact hsame r hr
      · refine ⟨k, hk, Or.inr ⟨hopen, fun r hr => ?_⟩⟩
        rcases List.mem_append.mp hr with hr | hr
        · exact hout' m r hr
        · exact hnone r hr

/-- A label after the code is no longer ahead of it. -/
theorem close (h : Confined start code (k :: ahead) behind regions) :
    Confined start (code ++ [.label (labelName k)]) ahead behind regions where
  within r hr := by
    have hwithin := h.within r hr
    rw [List.length_append]
    omega
  lands {i x name} hx hjump := by
    by_cases hi : i < code.length
    · rw [List.getElem?_append_left hi] at hx
      obtain ⟨m, hm, ⟨j, hj, hforward, hsame⟩ | ⟨hopen, hnone⟩⟩ := h.lands hx hjump
      · have hjlt : j < code.length := (List.getElem?_eq_some_iff.mp hj).1
        exact ⟨m, hm, Or.inl ⟨j, by rw [List.getElem?_append_left hjlt, hj], hforward, hsame⟩⟩
      · rw [List.mem_cons, or_assoc] at hopen
        rcases hopen with rfl | hopen
        -- the jump goes to the new label
        · refine ⟨m, hm, Or.inl ⟨code.length, ?_, fun _ => hi, fun r hr => ?_⟩⟩
          · rw [List.getElem?_append_right (Nat.le_refl _), Nat.sub_self, hm]
            rfl
          · refine iff_of_false (hnone r hr) fun hmem => ?_
            have hwithin := h.within r hr
            rw [Region.mem_iff] at hmem
            omega
        · exact ⟨m, hm, Or.inr ⟨hopen, hnone⟩⟩
    -- the last instruction is the label itself and does not jump
    · rw [List.getElem?_append_right (by omega)] at hx
      cases List.mem_singleton.mp (List.mem_of_getElem? hx)
      cases hjump

/-- A label before the code is no longer behind it. -/
theorem enter (h : Confined (start + 1) code ahead (k :: behind) regions) :
    Confined start (.label (labelName k) :: code) ahead behind regions where
  within r hr := by
    have hwithin := h.within r hr
    rw [List.length_cons]
    omega
  lands {i x name} hx hjump := by
    cases i with
    | zero =>
        cases hx
        cases hjump
    | succ i =>
        rw [List.getElem?_cons_succ] at hx
        rw [show start + (i + 1) = start + 1 + i by omega]
        obtain ⟨m, hm, ⟨j, hj, hforward, hsame⟩ | ⟨hopen, hnone⟩⟩ := h.lands hx hjump
        · refine ⟨m, hm, Or.inl ⟨j + 1, hj, fun ht => Nat.succ_lt_succ (hforward ht), ?_⟩⟩
          rw [show start + (j + 1) = start + 1 + j by omega]
          exact hsame
        · rw [List.mem_cons] at hopen
          rcases hopen with hahead | ⟨htest, rfl | hbehind⟩
          · exact ⟨m, hm, Or.inr ⟨Or.inl hahead, hnone⟩⟩
          -- the jump goes back to the new label
          · refine ⟨m, hm, Or.inl ⟨0, by rw [hm]; rfl, fun ht => ?_, fun r hr => ?_⟩⟩
            · rw [htest] at ht
              cases ht
            · refine iff_of_false (hnone r hr) fun hmem => ?_
              have hwithin := h.within r hr
              rw [Region.mem_iff] at hmem
              omega
          · exact ⟨m, hm, Or.inr ⟨Or.inr ⟨htest, hbehind⟩, hnone⟩⟩

/-- Code that needs no label around it may be a region. -/
theorem wrap (h : Confined start code [] [] regions) (owner : Owner) :
    Confined start code [] [] (.ofCode owner start code :: regions) where
  within r hr := by
    rcases List.mem_cons.mp hr with rfl | hr
    · exact ⟨Nat.le_refl _, Nat.le_refl _⟩
    · exact h.within r hr
  lands {i x name} hx hjump := by
    obtain ⟨k, hk, ⟨j, hj, hforward, hsame⟩ | ⟨hopen, _⟩⟩ := h.lands hx hjump
    · refine ⟨k, hk, Or.inl ⟨j, hj, hforward, fun r hr => ?_⟩⟩
      rcases List.mem_cons.mp hr with rfl | hr
      -- jump and label both lie in the whole code, so both lie in its region
      · have hi : i < code.length := (List.getElem?_eq_some_iff.mp hx).1
        have hj : j < code.length := (List.getElem?_eq_some_iff.mp hj).1
        have hall : ∀ m < code.length, start + m ∈ Region.ofCode owner start code :=
          fun m hm => ⟨Nat.le_add_right _ _, Nat.add_lt_add_left hm start⟩
        exact iff_of_true (hall i hi) (hall j hj)
      · exact hsame r hr
    · simp at hopen

end Confined

/-! ### The code of a tree -/

mutual

/-- Expressions are computed straight on, calls included. -/
theorem Expr.jumpless_code (e : Expr) (t : Nat) : ∀ i ∈ e.code t, i.jump? = none := by
  cases e with
  | term x => exact x.jumpless_code t
  | binary left _ right =>
    rw [Expr.code]
    simp only [List.forall_mem_append, List.forall_mem_singleton]
    exact ⟨left.jumpless_code t, right.jumpless_code _, rfl⟩

/-- So are terms. -/
theorem Term.jumpless_code (x : Term) (t : Nat) : ∀ i ∈ x.code t, i.jump? = none := by
  cases x with
  | factor f => exact f.jumpless_code t
  | binary left _ right =>
    rw [Term.code]
    simp only [List.forall_mem_append, List.forall_mem_singleton]
    exact ⟨left.jumpless_code t, right.jumpless_code _, rfl⟩

/-- So are factors. -/
theorem Factor.jumpless_code (f : Factor) (t : Nat) : ∀ i ∈ f.code t, i.jump? = none := by
  match f with
  | .number _ _ | .ident _ _ => simp [Factor.code]
  | .group inner _ => exact inner.jumpless_code t
  | .call _ arguments _ =>
    rw [Factor.code]
    simp only [List.forall_mem_append, List.forall_mem_singleton, List.forall_mem_map]
    exact ⟨jumpless_argumentCode arguments t, fun _ _ => rfl, rfl⟩

/-- So are the arguments of a call. -/
theorem jumpless_argumentCode (es : List Expr) (t : Nat) :
    ∀ i ∈ argumentCode t es, i.jump? = none := by
  match es with
  | [] => simp [argumentCode]
  | e :: es =>
    rw [argumentCode, List.forall_mem_append]
    exact ⟨e.jumpless_code t, jumpless_argumentCode es _⟩

end

/-- Storing does not jump, whether it joins or not. -/
theorem jumpless_storeCode (t : Nat) (target : String) (op : AssignOp) (value : String) :
    ∀ i ∈ storeCode t target op value, i.jump? = none := by
  unfold storeCode
  cases op.joined? with
  | none => simp [Instr.jump?]
  | some binary => simp [Instr.jump?]

/-- Neither does an assignment. -/
theorem Assignment.jumpless_code (a : Assignment) (t : Nat) :
    ∀ i ∈ a.code t, i.jump? = none := by
  rw [Assignment.code, List.forall_mem_append]
  exact ⟨a.value.jumpless_code t, jumpless_storeCode _ _ _ _⟩

/-- Neither does a declaration, by induction on its names. -/
theorem Declaration.jumpless_code (d : Declaration) (t : Nat) :
    ∀ i ∈ d.code t, i.jump? = none := by
  obtain ⟨type, declarators, line⟩ := d
  show ∀ i ∈ declaratorCode t declarators, i.jump? = none
  induction declarators generalizing t with
  | nil => simp [declaratorCode]
  | cons d ds ih =>
      rw [declaratorCode, List.forall_mem_append]
      refine ⟨?_, ih _⟩
      obtain ⟨name, _ | e⟩ := d
      · simp [Declarator.code, Instr.jump?]
      · simp only [Declarator.code, List.forall_mem_append, List.forall_mem_singleton]
        exact ⟨e.jumpless_code t, rfl⟩

/-- Neither does the step of a loop. -/
theorem ForStep.jumpless_code (step : Option ForStep) (t : Nat) :
    ∀ i ∈ ForStep.code t step, i.jump? = none := by
  match step with
  | some (.increment target _) => exact jumpless_storeCode t target .add "1"
  | some (.decrement target _) => exact jumpless_storeCode t target .sub "1"
  | some (.assignment a) => exact a.jumpless_code t
  | none => simp [ForStep.code]

/-- An assignment is one region, without jumps. -/
theorem Assignment.confined_code (a : Assignment) (start t : Nat) :
    Confined start (a.code t) [] [] [a.region start t] :=
  .wrap (.of_jumpless start (a.jumpless_code t)) _

/-- The start of a loop is a region if it is an assignment. -/
theorem ForInit.confined_code (init : Option ForInit) (start t : Nat) :
    Confined start (ForInit.code t init) [] [] (ForInit.regions start t init) := by
  match init with
  | some (.declaration d) => exact .of_jumpless start (d.jumpless_code t)
  | some (.assignment a) => exact a.confined_code start t
  | none => exact .of_jumpless start (by simp [ForInit.code])

/-- A test goes ahead. -/
theorem confined_testCode (e : Expr) (start t : Nat) {k : Nat} {ahead behind : List Nat}
    (hk : k ∈ ahead) : Confined start (testCode t e (labelName k)) ahead behind [] :=
  (Confined.of_jumpless start (e.jumpless_code t)).append (.ifNotGoto _ _ hk) rfl

/-- A condition that is left out has no test. -/
theorem confined_conditionCode (condition : Option Expr) (start t : Nat) {k : Nat}
    {ahead behind : List Nat} (hk : k ∈ ahead) :
    Confined start (conditionCode t condition (labelName k)) ahead behind [] := by
  match condition with
  | some e => exact confined_testCode e start t hk
  | none => exact .of_jumpless start (by simp [conditionCode])

/-- The rounds of a counted loop: the body and the step, and around them the region of the
step. -/
theorem confined_round {body : List Instr} {start : Nat} {regions : List Region}
    (hbody : Confined start body [] [] regions) (step : Option ForStep) (t : Nat) :
    Confined start (body ++ ForStep.code t step) [] []
      ((ForStep.assigned step).map
        (fun x => .ofCode (.store x) start (body ++ ForStep.code t step)) ++ regions) := by
  have hround : Confined start (body ++ ForStep.code t step) [] [] regions := by
    have hstep : Confined (start + body.length) (ForStep.code t step) [] [] [] :=
      .of_jumpless _ (ForStep.jumpless_code step t)
    simpa using hbody.append hstep rfl
  match step with
  | some (.assignment a) => exact hround.wrap _
  | some (.increment _ _) | some (.decrement _ _) | none => exact hround

mutual

/-- Every jump of a statement leads to a label of the statement. -/
theorem Stmt.confined_code (s : Stmt) (start t l : Nat) :
    Confined start (s.code t l) [] [] (s.regions start t l) := by
  match s with
  | .block body _ => exact confined_codeAll body start t l
  | .declaration d => exact .of_jumpless start (d.jumpless_code t)
  | .assignment a => exact a.confined_code start t
  | .ifThen condition body _ =>
    -- the label of the end is ahead of the test until it is placed
    have htest : Confined start (testCode t condition (labelName l)) [l] [] [] :=
      confined_testCode condition start t (by simp)
    have hbody := body.confined_code (start + (testCode t condition (labelName l)).length)
      (t + condition.temporaryCount) (l + 1)
    have hcode := (htest.append hbody.weaken rfl).close
    rw [List.append_assoc] at hcode
    exact hcode
  | .ifElse condition onTrue onFalse _ =>
    have htest : Confined start (testCode t condition (labelName l)) [l, l + 1] [] [] :=
      confined_testCode condition start t (by simp)
    have htrue := onTrue.confined_code (start + (testCode t condition (labelName l)).length)
      (t + condition.temporaryCount) (l + 2)
    have hfalse := onFalse.confined_code
      (start + (testCode t condition (labelName l)).length +
        (onTrue.code (t + condition.temporaryCount) (l + 2)).length + 2)
      (t + condition.temporaryCount + onTrue.temporaryCount) (l + 2 + onTrue.labelCount)
    -- both labels are ahead of the test; one is placed between the sides, one after them
    have hfirst := ((htest.append htrue.weaken rfl).append
      (.goto (k := l + 1) _ (by simp)) rfl).close
    have hcode := (hfirst.append hfalse.weaken (by simp; omega)).close
    simpa [Stmt.code, Stmt.regions] using hcode
  | .whileLoop condition body _ =>
    -- within the loop its first label is behind, for the jump back, and its last one ahead
    have htest : Confined (start + 1) (testCode t condition (labelName (l + 1))) [l + 1] [l] [] :=
      confined_testCode condition _ t (by simp)
    have hbody := body.confined_code
      (start + 1 + (testCode t condition (labelName (l + 1))).length)
      (t + condition.temporaryCount) (l + 2)
    have hround := (htest.append hbody.weaken rfl).append (.goto (k := l) _ (by simp)) rfl
    simpa [Stmt.code, Stmt.regions] using hround.close.enter
  | .forLoop init condition step body _ =>
    -- the start stands before the first label and is not part of the loop
    have hinit := ForInit.confined_code init start t
    have hcond : Confined (start + (ForInit.code t init).length + 1)
        (conditionCode (t + ForInit.temporaryCount init) condition (labelName (l + 1)))
        [l + 1] [l] [] :=
      confined_conditionCode condition _ _ (by simp)
    have hround := confined_round (body.confined_code
      (start + (ForInit.code t init).length + 1 +
        (conditionCode (t + ForInit.temporaryCount init) condition (labelName (l + 1))).length)
      (t + ForInit.temporaryCount init + conditionTemporaryCount condition) (l + 2)) step
      (t + ForInit.temporaryCount init + conditionTemporaryCount condition +
        body.temporaryCount)
    have hloop := ((hcond.append hround.weaken rfl).append (.goto (k := l) _ (by simp)) rfl)
    simpa [Stmt.code, Stmt.regions] using hinit.append hloop.close.enter rfl
  -- a body has all its labels inside, so nothing leads into it or out of it
  | .function signature body _ =>
    have hentry : Confined start [.label signature.name] [] [] [] :=
      .of_jumpless start (by simp [Instr.jump?])
    exact hentry.append ((confined_codeAll body (start + 1) t l).wrap _) rfl
  | .prototype _ => exact .of_jumpless start (by simp [Stmt.code])
  | .result none _ => exact .of_jumpless start (by simp [Stmt.code, Instr.jump?])
  | .result (some e) _ =>
    refine .of_jumpless start ?_
    rw [Stmt.code]
    simp only [List.forall_mem_append, List.forall_mem_singleton]
    exact ⟨e.jumpless_code t, rfl⟩

/-- Every jump of a row of statements leads to a label of the row. -/
theorem confined_codeAll (row : List Stmt) (start t l : Nat) :
    Confined start (codeAll t l row) [] [] (regionsAll start t l row) := by
  match row with
  | [] => exact .of_jumpless start (by simp [codeAll])
  | s :: more => exact (s.confined_code start t l).append (confined_codeAll more _ _ _) rfl

end

/-! ### Programs -/

/-- The labels of a listing are those that are named for branches and loops, and the entries of
the functions. -/
theorem labels_lower (p : Program) :
    (labelsOf p.lower.instructions : Multiset String)
      = labelNames 0 p.labelCount + (p.functionNames : Multiset String) := by
  have hg : Emitter.empty.Grows p.lower _ _ := places_lowerAll p.body rfl
  have hplaced := hg.placed
  rw [show Emitter.empty.placed = 0 from rfl, zero_add] at hplaced
  exact hplaced

/-- Numbers below the count are those of the labels. -/
theorem mem_labelNames {k m : Nat} : labelName k ∈ labelNames 0 m ↔ k < m := by
  rw [labelNames, Multiset.mem_coe, List.mem_map_of_injective labelName_injective,
    List.mem_range'_1]
  omega

/-- Each of them is named once. -/
theorem count_labelNames {k m : Nat} (hk : k < m) : (labelNames 0 m).count (labelName k) = 1 := by
  refine Multiset.count_eq_one_of_mem ?_ (mem_labelNames.mpr hk)
  rw [labelNames, Multiset.coe_nodup]
  exact List.Nodup.map labelName_injective List.nodup_range'

/-- The `n` temporaries and `m` labels of a listing are linear and well scoped, and no jump
leads into or out of one of the function bodies. -/
structure WellScoped (code : List Instr) (n m : Nat) (bodies : List Region) : Prop where
  temporaries : LinearTemporaries code n
  /-- Each label is placed exactly once. -/
  placedOnce : ∀ k < m, (labelsOf code).count (labelName k) = 1
  /-- Each jump leads to one of the labels, in the same function bodies, and forward if it has a
  condition. -/
  lands : ∀ {i : Nat} {x : Instr} {name : String}, code[i]? = some x → x.jump? = some name →
    ∃ k < m, name = labelName k ∧ ∃ j, code[j]? = some (.label name) ∧
      (x.isTest = true → i < j) ∧ ∀ r ∈ bodies, i ∈ r ↔ j ∈ r

/-- The listing of every program is well scoped, as long as no temporary is among its names and
no generated label among its functions. It has a temporary for each operator, call, compound
assignment and step up or down, one label for each branch with one side and two for each other
branch or loop. Numbers are mentioned with the names, but none that is cut from a source starts
with a letter. -/
theorem wellScoped_lower (p : Program) (hnames : ∀ s ∈ p.slots, ∀ x ∈ s.text, ¬ IsTemporary x)
    (hfunctions : ∀ f ∈ p.functionNames, ∀ k, f ≠ labelName k) :
    WellScoped p.lower.instructions p.temporaryCount p.labelCount p.bodies := by
  have hlabels := labels_lower p
  have hconfined := confined_codeAll p.body 0 0 0
  -- no entry of a function is taken for a label of a branch or a loop
  have hgenerated : ∀ k, labelName k ∉ (p.functionNames : Multiset String) :=
    fun k hk => hfunctions _ (Multiset.mem_coe.mp hk) k rfl
  refine ⟨?_, ?_, ?_⟩
  · rw [p.instructions_lower]
    exact p.linearTemporaries_code hnames
  · intro k hk
    rw [← Multiset.coe_count, hlabels, Multiset.count_add, count_labelNames hk,
      Multiset.count_eq_zero_of_notMem (hgenerated k)]
  -- outside of the whole program there are no labels, so a jump lands inside
  · intro i x name hx hjump
    rw [p.instructions_lower] at hx hlabels ⊢
    obtain ⟨k, rfl, ⟨j, hj, hforward, hsame⟩ | ⟨hopen, _⟩⟩ := hconfined.lands hx hjump
    · have hplaced : labelName k ∈ labelNames 0 p.labelCount + (p.functionNames : Multiset _) := by
        rw [← hlabels, Multiset.mem_coe, labelsOf, List.mem_filterMap]
        exact ⟨_, List.mem_of_getElem? hj, rfl⟩
      have hk : k < p.labelCount := by
        rcases Multiset.mem_add.mp hplaced with hk | hk
        · exact mem_labelNames.mp hk
        · exact absurd hk (hgenerated k)
      refine ⟨k, hk, rfl, j, hj, hforward, fun r hr => ?_⟩
      have hr := hsame r (List.mem_of_mem_filter hr)
      rwa [Nat.zero_add, Nat.zero_add] at hr
    · simp at hopen

/-- A function that counts in its body, within a program that branches around it. -/
def countingFunction : Program where
  body :=
    [.function ⟨.int, "count", [⟨.int, "n"⟩], 1⟩
       [.declaration ⟨.int, [⟨"i", some (.term (.factor (.number "0" 2)))⟩], 2⟩,
        .whileLoop (.term (.binary (.factor (.ident "i" 3)) .less (.ident "n" 3)))
          (.assignment ⟨"i", .add, .term (.factor (.number "1" 3)), 3⟩) 3,
        .result (some (.term (.factor (.ident "i" 4)))) 4] 1,
     .declaration ⟨.int, [⟨"x", some (.term (.factor (.call "count"
       [.term (.factor (.number "3" 5))] 5)))⟩], 5⟩,
     .ifElse (.term (.factor (.ident "x" 6)))
       (.assignment ⟨"x", .set, .term (.factor (.number "1" 6)), 6⟩)
       (.assignment ⟨"x", .set, .term (.factor (.number "2" 7)), 7⟩) 6]

/-- Its three temporaries and four labels are well scoped, and the body is where it should be. -/
theorem wellScoped_lower_countingFunction :
    WellScoped countingFunction.lower.instructions 3 4
      [⟨.body "count", 1, 10⟩] := by
  have hforms : ∀ s ∈ countingFunction.slots, ∀ x ∈ s.text, hasTemporaryForm x = false := by
    decide
  refine wellScoped_lower countingFunction (fun s hs x hx => not_isTemporary (hforms s hs x hx)) ?_
  intro f hf k hk
  obtain rfl : f = "count" := List.mem_singleton.mp hf
  have hhead := congrArg (fun x => x.toList.head?) hk
  simp [labelName, String.toList_append] at hhead

end Tercet
