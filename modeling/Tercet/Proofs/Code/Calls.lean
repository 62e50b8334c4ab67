import Mathlib.Data.List.Induction
import Tercet.Proofs.Code.Listing
import Tercet.Proofs.Code.Machine

/-!
# `Tercet.Proofs.Code.Calls`: what is handed to a call

A call takes what has been handed over since the last one. All arguments of a call are computed
before the first is handed over, so that calls inside the arguments are over by then, and nothing
stands between a handed operand and its call. `delivers_lower` says what follows for a whole
listing: its calls are those of the source in the order of evaluation, and each takes the operands
of its own arguments, whatever is nested in what. `Delivers` spells this out, in the listing and
in every run of it.

A listing is read from front to back, and operands are collected for the next call (`Collects`);
there is no reading in which something else comes between them and their call. The code of every
tree can be read, whatever follows (`Hands`), by induction on the tree. What holds at each place of
a listing that can be read is then a matter of splitting the reading there (`Collects.split`).
-/

set_option autoImplicit false

namespace Tercet

/-! ### The calls of a source -/

/-- A call of the source, with the number of the first temporary that its arguments may use. -/
structure SourceCall where
  function : String
  arguments : List Expr
  first : Nat

/-- A call of a listing, with the operands that are handed to it. -/
structure Handover where
  function : String
  operands : List String
  target : String
deriving DecidableEq, Repr

/-- The call as it stands in a listing. -/
def SourceCall.handover (c : SourceCall) : Handover :=
  ⟨c.function, argumentOperands c.first c.arguments,
    temporary (c.first + argumentTemporaryCount c.arguments)⟩

mutual

/-- The calls of an expression, from temporary `t` on. -/
def Expr.calls (t : Nat) : Expr → List SourceCall
  | .term x => x.calls t
  | .binary left _ right => left.calls t ++ right.calls (t + left.temporaryCount)

/-- The calls of a term. -/
def Term.calls (t : Nat) : Term → List SourceCall
  | .factor f => f.calls t
  | .binary left _ right => left.calls t ++ right.calls (t + left.temporaryCount)

/-- The calls of a factor: those in the arguments of a call come before it. -/
def Factor.calls (t : Nat) : Factor → List SourceCall
  | .number _ _ | .ident _ _ => []
  | .call name arguments _ => argumentCalls t arguments ++ [⟨name, arguments, t⟩]
  | .group inner _ => inner.calls t

/-- The calls in the arguments of a call. -/
def argumentCalls (t : Nat) : List Expr → List SourceCall
  | [] => []
  | e :: es => e.calls t ++ argumentCalls (t + e.temporaryCount) es

end

/-- The calls of an expression that may be left out. -/
def optionalCalls (t : Nat) : Option Expr → List SourceCall
  | some e => e.calls t
  | none => []

/-- The calls of a row of declared names. -/
def declaratorCalls (t : Nat) : List Declarator → List SourceCall
  | [] => []
  | d :: ds => optionalCalls t d.initializer ++ declaratorCalls (t + d.temporaryCount) ds

/-- The calls of the start of a counted loop. -/
def ForInit.calls (t : Nat) : Option ForInit → List SourceCall
  | some (.declaration d) => declaratorCalls t d.declarators
  | some (.assignment a) => a.value.calls t
  | none => []

/-- The calls of the step of a counted loop. -/
def ForStep.calls (t : Nat) : Option ForStep → List SourceCall
  | some (.assignment a) => a.value.calls t
  | some (.increment _ _) | some (.decrement _ _) | none => []

mutual

/-- The calls of a statement, in the order of evaluation. -/
def Stmt.calls (t : Nat) : Stmt → List SourceCall
  | .block body _ => callsAll t body
  | .declaration d => declaratorCalls t d.declarators
  | .assignment a => a.value.calls t
  | .ifThen condition body _ | .whileLoop condition body _ =>
    condition.calls t ++ body.calls (t + condition.temporaryCount)
  | .ifElse condition onTrue onFalse _ =>
    condition.calls t ++ (onTrue.calls (t + condition.temporaryCount) ++
      onFalse.calls (t + condition.temporaryCount + onTrue.temporaryCount))
  -- the step of a loop comes after its body
  | .forLoop init condition step body _ =>
    let tested := t + ForInit.temporaryCount init + conditionTemporaryCount condition
    ForInit.calls t init ++ (optionalCalls (t + ForInit.temporaryCount init) condition ++
      (body.calls tested ++ ForStep.calls (tested + body.temporaryCount) step))
  | .function _ body _ => callsAll t body
  | .prototype _ => []
  | .result value _ => optionalCalls t value

/-- The calls of a row of statements. -/
def callsAll (t : Nat) : List Stmt → List SourceCall
  | [] => []
  | s :: more => s.calls t ++ callsAll (t + s.temporaryCount) more

end

/-- The calls of a program, in the order of evaluation. -/
def Program.calls (p : Program) : List SourceCall :=
  callsAll 0 p.body

/-! ### Reading a listing -/

namespace Instr

/-- The operand that an instruction hands over. -/
def param? : Instr → Option String
  | .param value => some value
  | _ => none

/-- The target and the function of a call. -/
def called? : Instr → Option (String × String)
  | .call target function => some (target, function)
  | _ => none

/-- Whether the instruction has nothing to do with calls. -/
def isQuiet : Instr → Bool
  | .param _ | .call _ _ => false
  | _ => true

end Instr

/-- With some operands waiting at its start, these are the calls of a listing and what is handed
to each. -/
inductive Collects : List String → List Instr → List Handover → Prop
  | done : Collects [] [] []
  | param {waiting : List String} {value : String} {code : List Instr} {row : List Handover} :
    Collects (waiting ++ [value]) code row → Collects waiting (.param value :: code) row
  | call {waiting : List String} {target function : String} {code : List Instr}
      {row : List Handover} :
    Collects [] code row →
      Collects waiting (.call target function :: code) (⟨function, waiting, target⟩ :: row)
  /-- Anything else comes only when nothing is waiting. -/
  | quiet {i : Instr} {code : List Instr} {row : List Handover} :
    i.isQuiet = true → Collects [] code row → Collects [] (i :: code) row

/-- A call takes all that is waiting. -/
theorem Collects.exists_of_call {waiting : List String} {target function : String}
    {code : List Instr} {row : List Handover}
    (h : Collects waiting (.call target function :: code) row) :
    ∃ rest, row = ⟨function, waiting, target⟩ :: rest := by
  cases h with
  | @call _ _ _ _ rest _ => exact ⟨rest, rfl⟩
  | quiet hi => cases hi

/-- Anything else than handing over and calling has to wait until nothing does. -/
theorem Collects.eq_nil_of_isQuiet {waiting : List String} {i : Instr} {code : List Instr}
    {row : List Handover} (h : Collects waiting (i :: code) row) (hi : i.isQuiet = true) :
    waiting = [] := by
  cases h with
  | param | call => cases hi
  | quiet => rfl

/-- Operands that are handed over join those that wait already, in their order. -/
theorem Collects.params {waiting operands : List String} {code : List Instr} {row : List Handover}
    (h : Collects (waiting ++ operands) code row) :
    Collects waiting (operands.map .param ++ code) row := by
  induction operands generalizing waiting with
  | nil =>
    rw [List.append_nil] at h
    exact h
  | cons value more ih =>
    rw [List.append_cons] at h
    exact .param (ih h)

/-- Whatever follows the code, these are the calls that are read from it first. -/
def Hands (code : List Instr) (row : List Handover) : Prop :=
  ∀ more rest, Collects [] more rest → Collects [] (code ++ more) (row ++ rest)

namespace Hands

variable {code code' : List Instr} {row row' : List Handover}

/-- No code hands over nothing. -/
theorem nil : Hands [] [] := fun _ _ h => h

/-- Code in a row hands over in a row: the second part is what follows the first. -/
theorem append (h : Hands code row) (h' : Hands code' row') :
    Hands (code ++ code') (row ++ row') := by
  intro more rest hmore
  rw [List.append_assoc, List.append_assoc]
  exact h _ _ (h' _ _ hmore)

/-- Instructions that have nothing to do with calls may stand in front. -/
theorem quiet_append (marks : List Instr) (hmarks : marks.all Instr.isQuiet = true)
    (h : Hands code row) : Hands (marks ++ code) row := by
  intro more rest hmore
  induction marks with
  | nil => exact h _ _ hmore
  | cons i marks ih =>
    rw [List.all_cons, Bool.and_eq_true] at hmarks
    exact .quiet hmarks.1 (ih hmarks.2)

/-- Code that has nothing to do with calls hands over nothing. -/
theorem quiet {marks : List Instr} (hmarks : marks.all Instr.isQuiet = true) :
    Hands marks [] := by
  have h := nil.quiet_append marks hmarks
  rwa [List.append_nil] at h

/-- They may stand behind as well. -/
theorem append_quiet {marks : List Instr} (h : Hands code row)
    (hmarks : marks.all Instr.isQuiet = true) : Hands (code ++ marks) row := by
  have hboth := h.append (quiet hmarks)
  rwa [List.append_nil] at hboth

/-- The operands of a call stand right before it. -/
theorem call (operands : List String) (target function : String) :
    Hands (operands.map .param ++ [.call target function]) [⟨function, operands, target⟩] := by
  intro more rest hmore
  rw [List.append_assoc]
  exact .params (.call hmore)

end Hands

/-! ### The code of a tree -/

/-- The calls as they stand in a listing. -/
def handoversOf (calls : List SourceCall) : List Handover :=
  calls.map SourceCall.handover

/-- Calls in a row stand in a listing in a row. -/
theorem handoversOf_append (calls calls' : List SourceCall) :
    handoversOf (calls ++ calls') = handoversOf calls ++ handoversOf calls' :=
  List.map_append

mutual

/-- The calls of the left operand are over before those of the right one begin, and the join at
the end is quiet. -/
theorem Expr.hands_code (e : Expr) (t : Nat) : Hands (e.code t) (handoversOf (e.calls t)) := by
  cases e with
  | term x => exact x.hands_code t
  | binary left op right =>
    rw [Expr.calls, handoversOf_append]
    exact (left.hands_code t).append ((right.hands_code _).append_quiet rfl)

/-- The same for the factors of a term. -/
theorem Term.hands_code (x : Term) (t : Nat) : Hands (x.code t) (handoversOf (x.calls t)) := by
  cases x with
  | factor f => exact f.hands_code t
  | binary left op right =>
    rw [Term.calls, handoversOf_append]
    exact (left.hands_code t).append ((right.hands_code _).append_quiet rfl)

/-- A call comes after the calls inside its arguments. -/
theorem Factor.hands_code (f : Factor) (t : Nat) :
    Hands (f.code t) (handoversOf (f.calls t)) := by
  cases f with
  | number _ _ | ident _ _ => exact .nil
  | group inner _ => exact inner.hands_code t
  | call name arguments _ =>
    rw [Factor.calls, handoversOf_append]
    -- what stands in the arguments has been handed over and called by now
    exact (hands_argumentCode arguments t).append (.call _ _ name)

/-- Arguments are computed one after the other, and none is handed over yet. -/
theorem hands_argumentCode (es : List Expr) (t : Nat) :
    Hands (argumentCode t es) (handoversOf (argumentCalls t es)) := by
  cases es with
  | nil => exact .nil
  | cons e es =>
    rw [argumentCalls, handoversOf_append]
    exact (e.hands_code t).append (hands_argumentCode es _)

end

/-- Storing has nothing to do with calls, for each of the six operators. -/
theorem isQuiet_storeCode (t : Nat) (target : String) (op : AssignOp) (value : String) :
    (storeCode t target op value).all Instr.isQuiet = true := by
  cases op <;> rfl

/-- The calls of an assignment are those of its value. -/
theorem Assignment.hands_code (a : Assignment) (t : Nat) :
    Hands (a.code t) (handoversOf (a.value.calls t)) :=
  (a.value.hands_code t).append_quiet (isQuiet_storeCode _ a.target a.op _)

/-- Those of a declared name are in its initializer. -/
theorem Declarator.hands_code (d : Declarator) (t : Nat) :
    Hands (d.code t) (handoversOf (optionalCalls t d.initializer)) := by
  obtain ⟨name, initializer⟩ := d
  cases initializer with
  | none => exact .quiet rfl
  | some e => exact (e.hands_code t).append_quiet rfl

/-- Names of a declaration, by induction on them. -/
theorem hands_declaratorCode (ds : List Declarator) (t : Nat) :
    Hands (declaratorCode t ds) (handoversOf (declaratorCalls t ds)) := by
  induction ds generalizing t with
  | nil => exact .nil
  | cons d ds ih =>
    rw [declaratorCalls, handoversOf_append]
    exact (d.hands_code t).append (ih _)

/-- The start of a loop has the calls of what it is. -/
theorem ForInit.hands_code (init : Option ForInit) (t : Nat) :
    Hands (ForInit.code t init) (handoversOf (ForInit.calls t init)) := by
  match init with
  | some (.declaration d) => exact hands_declaratorCode d.declarators t
  | some (.assignment a) => exact a.hands_code t
  | none => exact .nil

/-- A step by one has no calls. -/
theorem ForStep.hands_code (step : Option ForStep) (t : Nat) :
    Hands (ForStep.code t step) (handoversOf (ForStep.calls t step)) := by
  match step with
  | some (.increment target _) => exact .quiet rfl
  | some (.decrement target _) => exact .quiet rfl
  | some (.assignment a) => exact a.hands_code t
  | none => exact .nil

/-- The jump after a condition is quiet. -/
theorem hands_testCode (e : Expr) (t : Nat) (label : String) :
    Hands (testCode t e label) (handoversOf (e.calls t)) :=
  (e.hands_code t).append_quiet rfl

/-- A condition that is left out has no calls. -/
theorem hands_conditionCode (condition : Option Expr) (t : Nat) (label : String) :
    Hands (conditionCode t condition label) (handoversOf (optionalCalls t condition)) := by
  match condition with
  | some e => exact hands_testCode e t label
  | none => exact .nil

mutual

/-- From the code of a statement its calls are read, each with the operands of its arguments. -/
theorem Stmt.hands_code (s : Stmt) (t l : Nat) :
    Hands (s.code t l) (handoversOf (s.calls t)) := by
  match s with
  | .block body _ => exact hands_codeAll body t l
  | .declaration d => exact hands_declaratorCode d.declarators t
  | .assignment a => exact a.hands_code t
  | .ifThen condition body _ =>
    rw [Stmt.calls, handoversOf_append]
    exact (hands_testCode condition t _).append ((body.hands_code _ _).append_quiet rfl)
  | .ifElse condition onTrue onFalse _ =>
    rw [Stmt.calls, handoversOf_append, handoversOf_append]
    refine (hands_testCode condition t _).append ((onTrue.hands_code _ _).append ?_)
    -- between the two sides stand a jump and a label
    exact ((onFalse.hands_code _ _).append_quiet rfl).quiet_append [_, _] rfl
  | .whileLoop condition body _ =>
    rw [Stmt.calls, handoversOf_append]
    exact ((hands_testCode condition t _).append
      ((body.hands_code _ _).append_quiet rfl)).quiet_append [_] rfl
  | .forLoop init condition step body _ =>
    simp only [Stmt.calls, handoversOf_append]
    refine (ForInit.hands_code init t).append (Hands.quiet_append [_] rfl ?_)
    exact (hands_conditionCode condition _ _).append ((body.hands_code _ _).append
      ((ForStep.hands_code step _).append_quiet rfl))
  -- in front of the body stands the label of its entry
  | .function _ body _ => exact (hands_codeAll body t l).quiet_append [_] rfl
  | .prototype _ => exact .nil
  | .result none _ => exact .quiet rfl
  | .result (some e) _ => exact (e.hands_code t).append_quiet rfl

/-- The calls of a row are those of its statements, one after the other. -/
theorem hands_codeAll (row : List Stmt) (t l : Nat) :
    Hands (codeAll t l row) (handoversOf (callsAll t row)) := by
  match row with
  | [] => exact .nil
  | s :: more =>
    rw [callsAll, handoversOf_append]
    exact (s.hands_code t l).append (hands_codeAll more _ _)

end

/-- From the listing of a program its calls are read, each with what is handed to it. -/
theorem Program.collects_lower (p : Program) :
    Collects [] p.lower.instructions (handoversOf p.calls) := by
  have h := hands_codeAll p.body 0 0 [] [] .done
  rw [List.append_nil, List.append_nil] at h
  rw [p.instructions_lower]
  exact h

/-! ### Places of a listing that can be read -/

/-- The operands that are waiting after some code, if others were waiting before it. -/
def waitingAfter (waiting : List String) (code : List Instr) : List String :=
  code.foldl (fun waiting i => match i with
    | .param value => waiting ++ [value]
    | _ => []) waiting

/-- The operands that are handed over directly before a place. -/
abbrev handed (before : List Instr) : List String :=
  waitingAfter [] before

/-- One more operand directly before the place. -/
theorem handed_append_param (before : List Instr) (value : String) :
    handed (before ++ [.param value]) = handed before ++ [value] := by
  rw [handed, waitingAfter, List.foldl_append]
  rfl

/-- Behind any other instruction nothing is waiting. -/
theorem handed_append_of_param? {i : Instr} (hi : i.param? = none) (before : List Instr) :
    handed (before ++ [i]) = [] := by
  rw [handed, waitingAfter, List.foldl_append]
  cases i with
  | param => cases hi
  | _ => rfl

/-- They are the last instructions before the place, and the one before them is another. -/
theorem exists_eq_append_handed (before : List Instr) :
    ∃ rest, before = rest ++ (handed before).map .param ∧
      rest.getLast?.bind Instr.param? = none := by
  -- the operands are the last instructions, so the induction takes instructions off the end
  induction before using List.reverseRecOn with
  | nil => exact ⟨[], rfl, rfl⟩
  | append_singleton before i ih =>
    cases hi : i.param? with
    | none =>
      rw [handed_append_of_param? hi]
      refine ⟨before ++ [i], (List.append_nil _).symm, ?_⟩
      rw [List.getLast?_concat, Option.bind_some, hi]
    | some value =>
      obtain ⟨rest, hrest, hlast⟩ := ih
      obtain rfl : i = .param value := by
        cases i with
        | param => exact congrArg Instr.param (Option.some.inj hi)
        | _ => cases hi
      refine ⟨rest, ?_, hlast⟩
      rw [handed_append_param, List.map_append, ← List.append_assoc, ← hrest]
      rfl

variable {code : List Instr} {row : List Handover}

/-- The instruction at a place, with all before and all behind it. -/
theorem eq_take_append_drop {k : Nat} {i : Instr} (hk : code[k]? = some i) :
    code = code.take k ++ i :: code.drop (k + 1) := by
  obtain ⟨hlt, rfl⟩ := List.getElem?_eq_some_iff.mp hk
  rw [List.getElem_cons_drop, List.take_append_drop]

/-- A reading can be split anywhere: it goes on with the operands that are waiting there. -/
theorem Collects.split {waiting : List String} {before more : List Instr}
    (h : Collects waiting (before ++ more) row) :
    ∃ first rest, row = first ++ rest ∧ first.length = before.countP (·.called?.isSome) ∧
      Collects (waitingAfter waiting before) more rest := by
  induction before generalizing waiting row with
  | nil => exact ⟨[], row, rfl, rfl, h⟩
  | cons i before ih =>
    cases h with
    | param h => exact ih h
    -- one call more has been read, and nothing is waiting after it
    | call h =>
      obtain ⟨first, rest, rfl, hlength, hrest⟩ := ih h
      refine ⟨_ :: first, rest, rfl, ?_, hrest⟩
      rw [List.length_cons, hlength, List.countP_cons_of_pos rfl]
    | quiet hi h =>
      obtain ⟨first, rest, hrow, hlength, hrest⟩ := ih h
      cases i with
      | param | call => cases hi
      | _ => exact ⟨first, rest, hrow, hlength, hrest⟩

/-- At a call, what has been handed over directly before it is what it takes. -/
theorem Collects.getElem?_of_call {before after : List Instr} {target function : String}
    (h : Collects [] (before ++ .call target function :: after) row) :
    row[before.countP (·.called?.isSome)]? = some ⟨function, handed before, target⟩ := by
  obtain ⟨first, rest, rfl, hlength, hrest⟩ := h.split
  obtain ⟨others, rfl⟩ := hrest.exists_of_call
  rw [← hlength, List.getElem?_append_right (Nat.le_refl _), Nat.sub_self]
  rfl

/-- At an instruction that has nothing to do with calls, nothing is waiting. -/
theorem Collects.handed_eq_nil {before after : List Instr} {i : Instr} (hi : i.isQuiet = true)
    (h : Collects [] (before ++ i :: after) row) : handed before = [] := by
  obtain ⟨first, rest, _, _, hrest⟩ := h.split
  exact hrest.eq_nil_of_isQuiet hi

/-- All operands that are handed over go to the calls, in order. -/
theorem Collects.filterMap_param? {waiting : List String} (h : Collects waiting code row) :
    waiting ++ code.filterMap Instr.param? = row.flatMap Handover.operands := by
  induction h with
  | done => rfl
  | param _ ih =>
    rw [List.append_assoc] at ih
    exact ih
  | call _ ih => exact congrArg (_ ++ ·) ih
  | @quiet i code row hi _ ih =>
    cases i with
    | param | call => cases hi
    | _ => exact ih

/-- The calls of a listing are those that are read from it. -/
theorem Collects.filterMap_called? {waiting : List String} (h : Collects waiting code row) :
    code.filterMap Instr.called? = row.map fun x => (x.target, x.function) := by
  induction h with
  | done => rfl
  | param _ ih => exact ih
  | call _ ih => exact congrArg (_ :: ·) ih
  | @quiet i code row hi _ ih =>
    cases i with
    | param | call => cases hi
    | _ => exact ih

/-! ### Runs -/

namespace Machine

variable {V : Type} {I : Interpretation V} {c d : Config V} {i : Instr}

/-- At a place where something quiet stands, nothing has been handed over. -/
theorem handed_take_of_isQuiet {k : Nat} (hcode : Collects [] code row)
    (hk : code[k]? = some i) (hi : i.isQuiet = true) : handed (code.take k) = [] := by
  rw [eq_take_append_drop hk] at hcode
  exact hcode.handed_eq_nil hi

/-- What is handed over one place later depends on the instruction in between. -/
theorem handed_take_succ {k : Nat} (hk : code[k]? = some i) :
    handed (code.take (k + 1)) = handed (code.take k ++ [i]) := by
  rw [List.take_add_one, hk]
  rfl

/-- What the machine has been handed are the values of the operands directly before its place. -/
def Settled (I : Interpretation V) (code : List Instr) (c : Config V) : Prop :=
  c.pending = (handed (code.take c.counter)).map (operand I c.store)

/-- A machine to which nothing has been handed is settled where nothing is waiting. -/
theorem settled_of_eq_nil (hpending : c.pending = [])
    (hhanded : handed (code.take c.counter) = []) : Settled I code c := by
  rw [Settled, hpending, hhanded]
  rfl

/-- A settled machine at a quiet instruction has been handed nothing. -/
theorem Settled.pending_eq_nil (hc : Settled I code c) (hcode : Collects [] code row)
    (hi : code[c.counter]? = some i) (hquiet : i.isQuiet = true) : c.pending = [] := by
  rw [hc, handed_take_of_isQuiet hcode hi hquiet]
  rfl

/-- A jump goes to a label, where nothing is waiting. -/
theorem Settled.jump {label : String} (hpending : c.pending = [])
    (hcode : Collects [] code row) (h : Machine.jump code c label = some d) :
    Settled I code d := by
  obtain ⟨k, hk, rfl⟩ := Option.map_eq_some_iff.mp h
  obtain ⟨hlt, hlabel, _⟩ := List.findIdx?_eq_some_iff_getElem.mp hk
  have hat : code[k]? = some (.label label) := by
    rw [List.getElem?_eq_getElem hlt, eq_of_beq hlabel]
  exact settled_of_eq_nil hpending (handed_take_of_isQuiet hcode hat rfl)

/-- A step keeps the machine settled. -/
theorem Settled.step (hc : Settled I code c) (hcode : Collects [] code row)
    (h : Machine.step I code c = some d) : Settled I code d := by
  cases hi : code[c.counter]? with
  | none =>
    rw [Machine.step, hi] at h
    cases h
  | some i =>
    -- after an instruction that is no `param`, nothing is waiting
    have hnext (hparam : i.param? = none) (hcounter : d.counter = c.counter + 1)
        (hpending : d.pending = []) : Settled I code d := by
      refine settled_of_eq_nil hpending ?_
      rw [hcounter, handed_take_succ hi]
      exact handed_append_of_param? hparam _
    cases i with
    -- the machine takes the value of the operand, and the operand is one that waits
    | param value =>
      simp only [Machine.step, hi, Option.some.injEq] at h
      subst h
      show c.pending ++ _ = List.map _ (handed (code.take (c.counter + 1)))
      rw [handed_take_succ hi, handed_append_param, List.map_append, hc]
      rfl
    | call target function =>
      simp only [Machine.step, hi, Option.some.injEq] at h
      subst h
      exact hnext rfl rfl rfl
    | binary | copy | label | declare =>
      simp only [Machine.step, hi, Option.some.injEq] at h
      subst h
      exact hnext rfl rfl (hc.pending_eq_nil hcode hi rfl)
    -- both ways out of a jump lead to places where nothing is waiting
    | goto label =>
      simp only [Machine.step, hi] at h
      exact .jump (hc.pending_eq_nil hcode hi rfl) hcode h
    | ifNotGoto condition label =>
      simp only [Machine.step, hi] at h
      split at h
      · cases h
        exact hnext rfl rfl (hc.pending_eq_nil hcode hi rfl)
      · exact .jump (hc.pending_eq_nil hcode hi rfl) hcode h
    | result value =>
      simp only [Machine.step, hi] at h
      cases h

/-- So does a run. -/
theorem Settled.stepN {n : Nat} (hc : Settled I code c) (hcode : Collects [] code row)
    (h : Machine.stepN I code n c = some d) : Settled I code d := by
  induction n generalizing c with
  | zero =>
    cases h
    exact hc
  | succ n ih =>
    obtain ⟨c', hstep, hrest⟩ := Option.bind_eq_some_iff.mp h
    exact ih (hc.step hcode hstep) hrest

end Machine

/-! ### The listing of a program -/

/-- The calls of a listing are these calls of a source. -/
structure Delivers (code : List Instr) (calls : List SourceCall) : Prop where
  /-- One for one, and in the same order. -/
  called : code.filterMap Instr.called? = calls.map fun c => (c.handover.target, c.function)
  /-- The operands of its arguments, and no others, stand right before a call. -/
  preceded : ∀ before target function after, code = before ++ .call target function :: after →
    ∃ c rest, calls[before.countP (·.called?.isSome)]? = some c ∧
      c.function = function ∧ c.handover.target = target ∧
      before = rest ++ (argumentOperands c.first c.arguments).map .param ∧
      rest.getLast?.bind Instr.param? = none
  /-- Nothing else is handed over. -/
  params : code.filterMap Instr.param? = calls.flatMap fun c => argumentOperands c.first c.arguments
  /-- In a run from the start or from a label, a call finds the values of its own operands. -/
  pending : ∀ {V : Type} (I : Interpretation V) (σ : Store V) (k n : Nat) (c : Machine.Config V)
    (target function : String), k = 0 ∨ (∃ name, code[k]? = some (.label name)) →
    Machine.stepN I code n ⟨k, σ, []⟩ = some c →
    code[c.counter]? = some (.call target function) →
    ∃ call, calls[(code.take c.counter).countP (·.called?.isSome)]? = some call ∧
      c.pending = (argumentOperands call.first call.arguments).map (Machine.operand I c.store)

/-- A listing from which the calls of a source are read delivers them. -/
theorem Collects.delivers {calls : List SourceCall}
    (h : Collects [] code (handoversOf calls)) : Delivers code calls := by
  -- the call of the source for a call of the listing
  have hcall : ∀ before target function after,
      code = before ++ .call target function :: after →
      ∃ c, calls[before.countP (·.called?.isSome)]? = some c ∧
        c.handover = ⟨function, handed before, target⟩ := by
    rintro before target function after rfl
    have hrow := h.getElem?_of_call
    rw [handoversOf, List.getElem?_map] at hrow
    exact Option.map_eq_some_iff.mp hrow
  refine ⟨?_, ?_, ?_, ?_⟩
  · rw [h.filterMap_called?, handoversOf, List.map_map]
    rfl
  · intro before target function after hcode
    obtain ⟨c, hc, hhandover⟩ := hcall before target function after hcode
    obtain ⟨rest, hrest, hlast⟩ := exists_eq_append_handed before
    have hoperands : argumentOperands c.first c.arguments = handed before :=
      congrArg Handover.operands hhandover
    refine ⟨c, rest, hc, congrArg Handover.function hhandover, congrArg Handover.target hhandover,
      ?_, hlast⟩
    rw [hoperands]
    exact hrest
  · have hparams := h.filterMap_param?
    rw [handoversOf, List.flatMap_map] at hparams
    exact hparams
  -- a run may start at the front or at a label, and at neither is anything waiting
  · intro V I σ k n c target function hstart hrun hat
    have hbegin : Machine.Settled I code ⟨k, σ, []⟩ := by
      refine Machine.settled_of_eq_nil rfl ?_
      rcases hstart with rfl | ⟨name, hlabel⟩
      · rfl
      · exact Machine.handed_take_of_isQuiet h hlabel rfl
    have hsettled := hbegin.stepN h hrun
    obtain ⟨call, hindex, hhandover⟩ := hcall _ _ _ _ (eq_take_append_drop hat)
    refine ⟨call, hindex, ?_⟩
    have hoperands : argumentOperands call.first call.arguments = handed (code.take c.counter) :=
      congrArg Handover.operands hhandover
    rw [hsettled, hoperands]

/-- Each argument has one operand. -/
theorem length_argumentOperands (t : Nat) (es : List Expr) :
    (argumentOperands t es).length = es.length := by
  induction es generalizing t with
  | nil => rfl
  | cons e es ih => exact congrArg (· + 1) (ih _)

/-- Calls never mix. In the listing of a program, and in every run of it, each call takes the
operands of its own arguments, in order, and nothing else is ever handed over. The operands are
what lowering answers for the arguments, one for each. -/
theorem delivers_lower :
    (∀ p : Program, Delivers p.lower.instructions p.calls) ∧
    ∀ (arguments : List Expr) (g : Emitter),
      (lowerArguments arguments g).1 = argumentOperands g.temps arguments ∧
      (argumentOperands g.temps arguments).length = arguments.length := by
  refine ⟨?_, ?_⟩
  · intro p
    exact p.collects_lower.delivers
  · intro arguments g
    obtain ⟨g', hlower, _⟩ := lays_lowerArguments arguments g.temps g.labels g rfl rfl
    refine ⟨?_, length_argumentOperands _ _⟩
    rw [hlower]

end Tercet
