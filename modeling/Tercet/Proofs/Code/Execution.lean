import Mathlib.Logic.Function.Basic
import Tercet.Proofs.Tree.Spelling

/-!
# `Tercet.Proofs.Code.Execution`: what programs mean

The structured meaning of a tree, over any interpretation of numbers, operators, truth and
calls. There is one flat store, which gives a value to every name. Expressions read the store
and do not change it, and a call is a function of its name and its arguments.

A statement ends in a store and an outcome: it is done, or it returns. Loops may go on
without end, so execution takes a bound on the rounds of each loop, and has no answer where
some loop does not end within the bound. A program ends in a store when some bound gives that
store (`Program.EndsIn`). Only names that stand in the program change their values
(`Program.EndsIn.keeps`).
-/

set_option autoImplicit false

namespace Tercet

/-- What numbers, operators, truth and calls stand for. -/
structure Interpretation (V : Type) where
  number : String → V
  binary : BinaryOp → V → V → V
  truth : V → Bool
  call : String → List V → V

/-- A value for every name. -/
abbrev Store (V : Type) :=
  String → V

/-- How an execution ends. -/
inductive Outcome (V : Type) where
  /-- The last statement is done. -/
  | done
  /-- A statement returns, perhaps with a value. -/
  | returns (value : Option V)
deriving DecidableEq, Repr

/-- A store and an outcome; nothing where a loop exceeds its bound. -/
abbrev Execution (V : Type) :=
  Option (Store V × Outcome V)

variable {V : Type}

/-- Goes on from the store of an execution, unless it has returned. -/
def Execution.andThen (x : Execution V) (next : Store V → Execution V) : Execution V :=
  match x with
  | some (σ, .done) => next σ
  | some (σ, .returns v) => some (σ, .returns v)
  | none => none

/-- Rounds of a loop for as long as its test holds, fewer than `bound` of them. -/
def Execution.loop (test : Store V → Bool) (round : Store V → Execution V) :
    (bound : Nat) → Store V → Execution V
  | 0, _ => none
  | bound + 1, σ =>
    if test σ then (round σ).andThen (loop test round bound) else some (σ, .done)

variable (I : Interpretation V)

mutual

/-- The value of an expression: its terms, joined from left to right. -/
def Expr.eval (σ : Store V) : Expr → V
  | .term t => t.eval σ
  | .binary left op right => I.binary op (left.eval σ) (right.eval σ)

/-- The value of a term: its factors, joined from left to right. -/
def Term.eval (σ : Store V) : Term → V
  | .factor f => f.eval σ
  | .binary left op right => I.binary op (left.eval σ) (right.eval σ)

/-- The value of a factor. -/
def Factor.eval (σ : Store V) : Factor → V
  | .number text _ => I.number text
  | .ident name _ => σ name
  | .call name arguments _ => I.call name (evalArguments σ arguments)
  | .group inner _ => inner.eval σ

/-- The values of the arguments of a call. -/
def evalArguments (σ : Store V) : List Expr → List V
  | [] => []
  | e :: es => e.eval σ :: evalArguments σ es

end

/-- The store after a value is stored, after joining it to the old one where the operator
says so. -/
def Store.assign (σ : Store V) (target : String) (op : AssignOp) (value : V) : Store V :=
  match op.joined? with
  | none => Function.update σ target value
  | some binary => Function.update σ target (I.binary binary (σ target) value)

/-- The store after a name is declared. Without an initializer it stays as it is. -/
def Declarator.exec (d : Declarator) (σ : Store V) : Store V :=
  match d.initializer with
  | none => σ
  | some e => Function.update σ d.name (e.eval I σ)

/-- The store after a declaration. -/
def Declaration.exec (d : Declaration) (σ : Store V) : Store V :=
  d.declarators.foldl (fun σ d => d.exec I σ) σ

/-- The store after an assignment. -/
def Assignment.exec (a : Assignment) (σ : Store V) : Store V :=
  σ.assign I a.target a.op (a.value.eval I σ)

/-- The store after the start of a counted loop. -/
def ForInit.exec : Option ForInit → Store V → Store V
  | some (.declaration d), σ => d.exec I σ
  | some (.assignment a), σ => a.exec I σ
  | none, σ => σ

/-- The store after what a counted loop does after each round. -/
def ForStep.exec : Option ForStep → Store V → Store V
  | some (.increment target _), σ => σ.assign I target .add (I.number "1")
  | some (.decrement target _), σ => σ.assign I target .sub (I.number "1")
  | some (.assignment a), σ => a.exec I σ
  | none, σ => σ

/-- Whether the condition of a counted loop holds. One that is left out always does. -/
def conditionHolds (condition : Option Expr) (σ : Store V) : Bool :=
  match condition with
  | some e => I.truth (e.eval I σ)
  | none => true

mutual

/-- The execution of a statement, each loop within `bound` rounds. A function or a prototype
is no step of an execution. -/
def Stmt.exec (bound : Nat) : Stmt → Store V → Execution V
  | .block body _, σ => execAll bound body σ
  | .declaration d, σ => some (d.exec I σ, .done)
  | .assignment a, σ => some (a.exec I σ, .done)
  | .ifThen condition body _, σ =>
    if I.truth (condition.eval I σ) then body.exec bound σ else some (σ, .done)
  | .ifElse condition onTrue onFalse _, σ =>
    if I.truth (condition.eval I σ) then onTrue.exec bound σ else onFalse.exec bound σ
  | .whileLoop condition body _, σ =>
    Execution.loop (fun σ => I.truth (condition.eval I σ)) (body.exec bound) bound σ
  | .forLoop init condition step body _, σ =>
    Execution.loop (conditionHolds I condition)
      (fun σ => (body.exec bound σ).andThen fun σ => some (ForStep.exec I step σ, .done))
      bound (ForInit.exec I init σ)
  | .function _ _ _, σ => some (σ, .done)
  | .prototype _, σ => some (σ, .done)
  | .result value _, σ => some (σ, .returns (value.map (·.eval I σ)))

/-- The execution of a row of statements. -/
def execAll (bound : Nat) : List Stmt → Store V → Execution V
  | [], σ => some (σ, .done)
  | s :: more, σ => (s.exec bound σ).andThen (execAll bound more)

end

/-- From the store `σ` the program ends in the store `σ'`, with the outcome `o`. -/
def Program.EndsIn (p : Program) (σ σ' : Store V) (o : Outcome V) : Prop :=
  ∃ bound, execAll I bound p.body σ = some (σ', o)

/-! ### Names that a program does not have -/

/-- The name stands in none of the slots. -/
def Slot.Lack (x : String) (slots : List Slot) : Prop :=
  ∀ s ∈ slots, s.kind = .identifier → s.text ≠ some x

variable {I}

/-- The execution keeps the value `v` of the name. -/
def Execution.Keeps (x : String) (v : V) (e : Execution V) : Prop :=
  ∀ σ' o, e = some (σ', o) → σ' x = v

namespace Execution.Keeps

variable {x : String} {v : V}

/-- An execution that has ended keeps the value if its store has it. -/
theorem some_iff {σ : Store V} {o : Outcome V} :
    Keeps x v (some (σ, o)) ↔ σ x = v := by
  constructor
  · intro h
    exact h σ o rfl
  · rintro h σ' o' heq
    cases heq
    exact h

/-- The next part starts from a store that has the value, unless there is no next part. -/
theorem andThen {e : Execution V} {next : Store V → Execution V} (he : Keeps x v e)
    (hnext : ∀ σ : Store V, σ x = v → Keeps x v (next σ)) : Keeps x v (e.andThen next) := by
  match e with
  | some (σ, .done) => exact hnext σ (some_iff.mp he)
  | some (σ, .returns w) => exact he
  | none => exact he

/-- Rounds that keep the value make a loop that does. The induction is on the bound, which is all
that ends a loop here. -/
theorem loop {test : Store V → Bool} {round : Store V → Execution V}
    (hround : ∀ σ : Store V, σ x = v → Keeps x v (round σ)) (bound : Nat) {σ : Store V}
    (hσ : σ x = v) : Keeps x v (Execution.loop test round bound σ) := by
  induction bound generalizing σ with
  | zero => intro σ' o h; cases h
  | succ bound ih =>
      rw [Execution.loop]
      split
      · exact (hround σ hσ).andThen fun σ' hσ' => ih hσ'
      · exact some_iff.mpr hσ

end Execution.Keeps

/-- A store into one name leaves the others, whether it joins or not. -/
theorem Store.assign_of_ne {σ : Store V} {target x : String} (h : x ≠ target) (op : AssignOp)
    (v : V) : σ.assign I target op v x = σ x := by
  cases hop : op.joined? with
  | none => simp only [Store.assign, hop, Function.update_of_ne h]
  | some binary => simp only [Store.assign, hop, Function.update_of_ne h]

/-- The target stands in the assignment, so a name that does not is another one. -/
theorem Assignment.exec_of_lack {a : Assignment} {x : String} (h : Slot.Lack x a.slots)
    (σ : Store V) : a.exec I σ x = σ x := by
  refine Store.assign_of_ne ?_ _ _
  rintro rfl
  exact h _ (List.mem_cons_self ..) rfl rfl

/-- Without an initializer nothing is stored. With one, the declared name is. -/
theorem Declarator.exec_of_lack {d : Declarator} {x : String} (h : Slot.Lack x d.slots)
    (σ : Store V) : d.exec I σ x = σ x := by
  obtain ⟨name, initializer⟩ := d
  cases initializer with
  | none => rfl
  | some e =>
      refine Function.update_of_ne ?_ _ _
      rintro rfl
      exact h _ (List.mem_cons_self ..) rfl rfl

/-- Names are declared one after the other, and each of them stands in the declaration. -/
theorem Declaration.exec_of_lack {d : Declaration} {x : String} (h : Slot.Lack x d.slots)
    (σ : Store V) : d.exec I σ x = σ x := by
  have hds : ∀ d' ∈ d.declarators, Slot.Lack x d'.slots := fun d' hd' s hs =>
    h s (List.mem_cons_of_mem _ (Slot.mem_separated (List.mem_map_of_mem hd') hs))
  unfold Declaration.exec
  -- the induction is on the names alone; the type and the line stay outside
  generalize d.declarators = ds at hds
  induction ds generalizing σ with
  | nil => rfl
  | cons d' ds ih =>
      rw [List.forall_mem_cons] at hds
      rw [List.foldl_cons, ih _ hds.2, d'.exec_of_lack hds.1]

/-- The start of a loop stores what its declaration or assignment stores. -/
theorem ForInit.exec_of_lack {init : Option ForInit} {x : String}
    (h : Slot.Lack x (optionSlots ForInit.slots init)) (σ : Store V) :
    ForInit.exec I init σ x = σ x := by
  match init with
  | some (.declaration d) => exact d.exec_of_lack h σ
  | some (.assignment a) => exact a.exec_of_lack h σ
  | none => rfl

/-- A step by one stores into its name. -/
theorem ForStep.exec_of_lack {step : Option ForStep} {x : String}
    (h : Slot.Lack x (optionSlots ForStep.slots step)) (σ : Store V) :
    ForStep.exec I step σ x = σ x := by
  match step with
  | some (.increment target _) | some (.decrement target _) =>
    rw [ForStep.exec, Store.assign_of_ne]
    rintro rfl
    exact h _ (List.mem_cons_self ..) rfl rfl
  | some (.assignment a) => exact a.exec_of_lack h σ
  | none => rfl

mutual

/-- A statement changes only names that stand in it. Loops are covered by `Keeps.loop`, so the
induction is on the tree and not on the rounds. -/
theorem Stmt.keeps_exec {s : Stmt} {x : String} {v : V} (h : Slot.Lack x s.slots)
    (bound : Nat) {σ : Store V} (hσ : σ x = v) : (s.exec I bound σ).Keeps x v := by
  match s with
  | .block body _ =>
    exact keeps_execAll (fun t ht => h t (List.mem_cons_of_mem _ (List.mem_append_left _ ht)))
      bound hσ
  | .declaration d =>
    rw [Stmt.exec, Execution.Keeps.some_iff, d.exec_of_lack fun t ht =>
      h t (List.mem_append_left _ ht)]
    exact hσ
  | .assignment a =>
    rw [Stmt.exec, Execution.Keeps.some_iff, a.exec_of_lack fun t ht =>
      h t (List.mem_append_left _ ht)]
    exact hσ
  | .ifThen condition body _ =>
    rw [Stmt.exec]
    split
    · exact body.keeps_exec (fun t ht => h t (by simp [Stmt.slots, ht])) bound hσ
    · exact Execution.Keeps.some_iff.mpr hσ
  | .ifElse condition onTrue onFalse _ =>
    rw [Stmt.exec]
    split
    · exact onTrue.keeps_exec (fun t ht => h t (by simp [Stmt.slots, ht])) bound hσ
    · exact onFalse.keeps_exec (fun t ht => h t (by simp [Stmt.slots, ht])) bound hσ
  | .whileLoop condition body _ =>
    exact Execution.Keeps.loop (fun σ hσ =>
      body.keeps_exec (fun t ht => h t (by simp [Stmt.slots, ht])) bound hσ) bound hσ
  | .forLoop init condition step body _ =>
    -- one round is the body and the step after it; the start comes once, before the loop
    refine Execution.Keeps.loop (fun σ hσ => ?_) bound ?_
    · refine (body.keeps_exec (fun t ht => h t (by simp [Stmt.slots, ht])) bound hσ).andThen ?_
      intro σ' hσ'
      rw [Execution.Keeps.some_iff, ForStep.exec_of_lack fun t ht =>
        h t (by simp [Stmt.slots, ht])]
      exact hσ'
    · rw [ForInit.exec_of_lack fun t ht => h t (by simp [Stmt.slots, ht])]
      exact hσ
  -- none of these touches the store: bodies of functions are not executed here
  | .function _ _ _ | .prototype _ | .result none _ | .result (some _) _ =>
    exact Execution.Keeps.some_iff.mpr hσ

/-- A row changes only names that stand in one of its statements. -/
theorem keeps_execAll {row : List Stmt} {x : String} {v : V} (h : Slot.Lack x (rowSlots row))
    (bound : Nat) {σ : Store V} (hσ : σ x = v) : (execAll I bound row σ).Keeps x v := by
  match row with
  | [] => exact Execution.Keeps.some_iff.mpr hσ
  | s :: more =>
    refine (s.keeps_exec (fun t ht => h t (List.mem_append_left _ ht)) bound hσ).andThen ?_
    intro σ' hσ'
    exact keeps_execAll (fun t ht => h t (List.mem_append_right _ ht)) bound hσ'

end

/-- A name that a program does not have keeps its value. -/
theorem Program.EndsIn.keeps {p : Program} {σ σ' : Store V} {o : Outcome V}
    (h : p.EndsIn I σ σ' o) {x : String} (hx : Slot.Lack x p.slots) : σ' x = σ x := by
  obtain ⟨bound, hend⟩ := h
  exact keeps_execAll hx bound rfl σ' o hend

end Tercet
