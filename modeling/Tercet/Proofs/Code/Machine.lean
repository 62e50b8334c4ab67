import Tercet.Code.Instr
import Tercet.Proofs.Code.Execution
import Tercet.Proofs.Token.Text

/-!
# `Tercet.Proofs.Code.Machine`: running a listing

A listing is run by a machine with a program counter, a store and the values handed over for
the next call. A step is a function, so a run is determined by its start. Two relations speak
of runs. `Reaches` says that a configuration comes after another. `Runs n` says that a
machine has not stopped within `n` steps; that is how a loop without end is told from one
that ends. A machine that has stopped runs no further (`not_runs_of_outcome?`).
-/

set_option autoImplicit false

namespace Tercet.Machine

variable {V : Type}

/-- The state of a machine. -/
structure Config (V : Type) where
  /-- The position of the next instruction. -/
  counter : Nat
  store : Store V
  /-- The values handed over since the last call, in their order. -/
  pending : List V

/-- The configuration one instruction further on. -/
def Config.next (c : Config V) : Config V :=
  { c with counter := c.counter + 1 }

/-- The configuration one instruction further on, with a value stored. -/
def Config.save (c : Config V) (target : String) (value : V) : Config V :=
  { c with counter := c.counter + 1, store := Function.update c.store target value }

/-- The value of an operand: a number stands for itself, any other text is a name. -/
def operand (I : Interpretation V) (σ : Store V) (text : String) : V :=
  if Kind.number.admits text then I.number text else σ text

/-- The configuration at a label, if the listing has it. -/
def jump (code : List Instr) (c : Config V) (name : String) : Option (Config V) :=
  (code.findIdx? (· == .label name)).map fun i => { c with counter := i }

variable (I : Interpretation V) (code : List Instr)

/-- The configuration after the next instruction; nothing at a `return`, at the end of the
listing, or where a label is missing. -/
def step (c : Config V) : Option (Config V) :=
  match code[c.counter]? with
  | some (.binary target left op right) =>
    some (c.save target (I.binary op (operand I c.store left) (operand I c.store right)))
  | some (.copy target value) => some (c.save target (operand I c.store value))
  | some (.label _) => some c.next
  | some (.ifNotGoto condition label) =>
    if I.truth (operand I c.store condition) then some c.next else jump code c label
  | some (.goto label) => jump code c label
  | some (.param value) =>
    some { c.next with pending := c.pending ++ [operand I c.store value] }
  | some (.call target function) =>
    some { c.save target (I.call function c.pending) with pending := [] }
  | some (.declare _) => some c.next
  | some (.result _) => none
  | none => none

/-- The configuration after `n` steps. -/
def stepN : (n : Nat) → Config V → Option (Config V)
  | 0, c => some c
  | n + 1, c => (step I code c).bind (stepN n)

/-- How a machine has stopped: at a `return`, or at the end of the listing. -/
def outcome? (c : Config V) : Option (Outcome V) :=
  match code[c.counter]? with
  | some (.result value) => some (.returns (value.map (operand I c.store)))
  | none => some .done
  | some _ => none

/-- The first instruction is next, and nothing has been handed over. -/
def start (σ : Store V) : Config V :=
  ⟨0, σ, []⟩

/-- From the store `σ` the listing stops in the store `σ'`, with the outcome `o`. -/
def EndsIn (σ σ' : Store V) (o : Outcome V) : Prop :=
  ∃ n c, stepN I code n (start σ) = some c ∧ c.store = σ' ∧ outcome? I code c = some o

/-- The second configuration comes after the first. -/
def Reaches (c d : Config V) : Prop :=
  ∃ n, stepN I code n c = some d

/-- The machine can make `n` steps. -/
def Runs (n : Nat) (c : Config V) : Prop :=
  (stepN I code n c).isSome

variable {I code}

/-- Steps may be made in two goes. The induction is on the first, since steps are counted from the
front. -/
theorem stepN_add (m n : Nat) (c : Config V) :
    stepN I code (m + n) c = (stepN I code m c).bind (stepN I code n) := by
  induction m generalizing c with
  | zero => rw [Nat.zero_add]; rfl
  | succ m ih =>
      rw [Nat.add_right_comm]
      show (step I code c).bind (stepN I code (m + n)) = _
      rw [show stepN I code (m + 1) c = (step I code c).bind (stepN I code m) from rfl,
        Option.bind_assoc]
      congr 1
      funext d
      exact ih d

/-- No steps at all. -/
theorem Reaches.refl (c : Config V) : Reaches I code c c :=
  ⟨0, rfl⟩

/-- One step. -/
theorem Reaches.of_step {c d : Config V} (h : step I code c = some d) : Reaches I code c d :=
  ⟨1, by rw [stepN, h]; rfl⟩

/-- The steps add up. -/
theorem Reaches.trans {c d e : Config V} (hcd : Reaches I code c d)
    (hde : Reaches I code d e) : Reaches I code c e := by
  obtain ⟨m, hm⟩ := hcd
  obtain ⟨n, hn⟩ := hde
  exact ⟨m + n, by rw [stepN_add, hm, Option.bind_some, hn]⟩

/-- A machine that can make more steps can make fewer. -/
theorem Runs.of_le {m n : Nat} {c : Config V} (h : Runs I code n c) (hmn : m ≤ n) :
    Runs I code m c := by
  obtain ⟨k, rfl⟩ := Nat.exists_eq_add_of_le hmn
  rw [Runs, stepN_add] at h
  cases hm : stepN I code m c with
  | none => rw [hm] at h; cases h
  | some d => rw [Runs, hm]; rfl

/-- A step that is made first is one step more. -/
theorem Runs.of_step {n : Nat} {c d : Config V} (hstep : step I code c = some d)
    (h : Runs I code n d) : Runs I code (n + 1) c := by
  rw [Runs, stepN, hstep]
  exact h

/-- Where the second configuration can go on for `n` steps, so can the first. -/
theorem Reaches.runs {n : Nat} {c d : Config V} (hcd : Reaches I code c d)
    (h : Runs I code n d) : Runs I code n c := by
  obtain ⟨m, hm⟩ := hcd
  have hmn : Runs I code (m + n) c := by
    rw [Runs, stepN_add, hm]
    exact h
  exact hmn.of_le (Nat.le_add_left n m)

/-- A machine that has stopped makes no step. -/
theorem step_eq_none_of_outcome? {c : Config V} {o : Outcome V}
    (h : outcome? I code c = some o) : step I code c = none := by
  unfold outcome? at h
  unfold step
  split at h
  · rename_i hcode
    rw [hcode]
  · rename_i hcode
    rw [hcode]
  · cases h

/-- Two runs from one configuration to a stop take the same steps. -/
theorem stepN_unique {m n : Nat} {c d e : Config V} (hd : stepN I code m c = some d)
    (he : stepN I code n c = some e) (hd' : step I code d = none)
    (he' : step I code e = none) : d = e := by
  induction m generalizing n c with
  | zero =>
      cases hd
      cases n with
      | zero => exact Option.some.inj he
      -- the first run has stopped, so the second cannot go further
      | succ n => rw [stepN, hd'] at he; cases he
  | succ m ih =>
      obtain ⟨c', hc, hd⟩ := Option.bind_eq_some_iff.mp hd
      cases n with
      | zero =>
          cases he
          rw [he'] at hc
          cases hc
      | succ n =>
          rw [stepN, hc, Option.bind_some] at he
          exact ih hd he

/-- After a stop no step is left. -/
theorem not_runs_of_outcome? {n : Nat} {c d : Config V} {o : Outcome V}
    (hcd : stepN I code n c = some d) (h : outcome? I code d = some o) :
    ¬ Runs I code (n + 1) c := by
  rw [Runs, stepN_add, hcd, Option.bind_some, stepN, step_eq_none_of_outcome? h]
  exact Bool.false_ne_true

/-- A listing ends in one store, with one outcome. -/
theorem EndsIn.unique {σ σ₁ σ₂ : Store V} {o₁ o₂ : Outcome V} (h₁ : EndsIn I code σ σ₁ o₁)
    (h₂ : EndsIn I code σ σ₂ o₂) : σ₁ = σ₂ ∧ o₁ = o₂ := by
  obtain ⟨m, c, hm, rfl, ho₁⟩ := h₁
  obtain ⟨n, d, hn, rfl, ho₂⟩ := h₂
  have hcd : c = d :=
    stepN_unique hm hn (step_eq_none_of_outcome? ho₁) (step_eq_none_of_outcome? ho₂)
  subst hcd
  exact ⟨rfl, Option.some.inj (ho₁.symm.trans ho₂)⟩

end Tercet.Machine
