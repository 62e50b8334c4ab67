import Tercet.Proofs.Code.Computation

/-!
# `Tercet.Proofs.Code.Simulation`: lowering preserves meaning

The machine on the listing of a program does what the structured execution of the program
does. `endsIn_iff_endsIn_lower` states it in both directions: the program ends in a store
exactly when its listing does, in the same one up to temporaries and with the same outcome.

A loop may go on without end, and then neither side may end. So `Follows` says of each
bounded execution what the machine does: it gets to where the code of the statement ends, it
stops at a `return`, or, where a loop exceeds the bound, it makes at least as many steps as
the bound. Each round of a loop passes the label at its head, which is a step, and that
is why the rounds of the execution bound the steps of the machine from below
(`Follows.loop`). A listing that stops after `n` steps thus rules out that the execution with
bound `n + 1` has no answer, and no second simulation is needed for the way back.
-/

set_option autoImplicit false

namespace Tercet

open Emit Emitter Machine
open Store (Agree)

variable {V : Type} {I : Interpretation V} {code : List Instr}

/-! ### Branches and loops -/

/-- What the machine does from `c` on, beside an execution within `bound`: where the
execution is done the machine gets to `stop`, where it returns the machine stops at a
`return` with the same value, and where it has no answer the machine makes `bound` steps. -/
def Follows (I : Interpretation V) (code : List Instr) (bound : Nat) (c : Config V)
    (stop : Nat) : Execution V → Prop
  | some (σ, .done) => ∃ τ, Reaches I code c ⟨stop, τ, []⟩ ∧ Agree 0 τ σ
  | some (σ, .returns v) =>
    ∃ d, Reaches I code c d ∧ Agree 0 d.store σ ∧ outcome? I code d = some (.returns v)
  | none => Runs I code bound c

namespace Follows

variable {bound : Nat} {c d : Config V} {stop : Nat} {x : Execution V}

/-- The machine may have something to do before it begins to follow. -/
theorem of_reaches (h : Reaches I code c d) (hx : Follows I code bound d stop x) :
    Follows I code bound c stop x := by
  match x with
  | some (σ, .done) =>
    obtain ⟨τ, hreach, hτ⟩ := hx
    exact ⟨τ, h.trans hreach, hτ⟩
  | some (σ, .returns v) =>
    obtain ⟨e, hreach, hτ, ho⟩ := hx
    exact ⟨e, h.trans hreach, hτ, ho⟩
  | none => exact h.runs hx

/-- One step first is one step more. -/
theorem of_step (h : step I code c = some d) (hx : Follows I code bound d stop x) :
    Follows I code (bound + 1) c stop x := by
  match x with
  | some (σ, .done) | some (σ, .returns v) => exact of_reaches (Reaches.of_step h) hx
  | none => exact Runs.of_step h hx

/-- Fewer steps are promised for a smaller bound. -/
theorem of_le {m : Nat} (hx : Follows I code bound c stop x) (hm : m ≤ bound) :
    Follows I code m c stop x := by
  match x with
  | some (σ, .done) | some (σ, .returns v) => exact hx
  | none => exact Runs.of_le hx hm

/-- After `x` has got to `middle`, what follows it goes on from there. -/
theorem andThen {middle : Nat} {next : Store V → Execution V}
    (hx : Follows I code bound c middle x)
    (hnext : ∀ σ τ, Agree 0 τ σ → Follows I code bound ⟨middle, τ, []⟩ stop (next σ)) :
    Follows I code bound c stop (x.andThen next) := by
  match x with
  | some (σ, .done) =>
    obtain ⟨τ, hreach, hτ⟩ := hx
    exact of_reaches hreach (hnext σ τ hτ)
  | some (σ, .returns v) => exact hx
  | none => exact hx

/-- What the machine does alike after every store. -/
theorem extend {middle : Nat} (hx : Follows I code bound c middle x)
    (h : ∀ τ : Store V, Reaches I code ⟨middle, τ, []⟩ ⟨stop, τ, []⟩) :
    Follows I code bound c stop x := by
  match x with
  | some (σ, .done) =>
    obtain ⟨τ, hreach, hτ⟩ := hx
    exact ⟨τ, hreach.trans (h τ), hτ⟩
  | some (σ, .returns v) => exact hx
  | none => exact hx

/-- A loop, from what its test and one round do. Its head is a label, so that each round
takes at least one step. -/
theorem loop {test : Store V → Bool} {round : Store V → Execution V}
    {head inside back out : Nat} {name : String} (hhead : code[head]? = some (.label name))
    (htest : ∀ σ τ, Agree 0 τ σ → ∃ τ', Agree 0 τ' σ ∧
      Reaches I code ⟨head + 1, τ, []⟩ ⟨if test σ then inside else out, τ', []⟩)
    (hround : ∀ σ τ, Agree 0 τ σ → Follows I code bound ⟨inside, τ, []⟩ back (round σ))
    (hback : ∀ τ : Store V, Reaches I code ⟨back, τ, []⟩ ⟨head, τ, []⟩)
    (hout : ∀ τ : Store V, Reaches I code ⟨out, τ, []⟩ ⟨stop, τ, []⟩)
    {n : Nat} (hn : n ≤ bound) {σ τ : Store V} (hτ : Agree 0 τ σ) :
    Follows I code n ⟨head, τ, []⟩ stop (Execution.loop test round n σ) := by
  -- on the rounds left, while the body keeps the whole bound for the loops inside it
  induction n generalizing σ τ with
  | zero => rfl
  | succ n ih =>
      have hn' : n ≤ bound := Nat.le_of_succ_le hn
      have hstep : step I code ⟨head, τ, []⟩ = some ⟨head + 1, τ, []⟩ := by
        rw [step, show code[(⟨head, τ, []⟩ : Config V).counter]? = _ from hhead]
        rfl
      obtain ⟨τ', hτ', hreach⟩ := htest σ τ hτ
      refine of_step hstep (of_reaches hreach ?_)
      rw [Execution.loop]
      split
      · refine ((hround σ τ' hτ').of_le hn').andThen ?_
        intro σ₁ τ₁ hτ₁
        exact of_reaches (hback τ₁) (ih hn' hτ₁)
      · exact ⟨τ', hout τ', hτ'⟩

end Follows

/-- Straight-line code is always done, so the bound does not matter. -/
theorem Takes.follows {g g' : Emitter} {σ σ' τ : Store V} (h : Takes I code g g' σ σ')
    (hτ : Agree 0 τ σ) (bound : Nat) :
    Follows I code bound ⟨g.counter, τ, []⟩ g'.counter (some (σ', .done)) :=
  h τ hτ

/-- An instruction that only goes on. -/
theorem reaches_emit_label {g : Emitter} {name : String}
    (hcode : (g.emit (.label name)).instructions <+: code) (τ : Store V) :
    Reaches I code ⟨g.counter, τ, []⟩ ⟨(g.emit (.label name)).counter, τ, []⟩ := by
  refine Reaches.of_step ?_
  rw [step, show code[(⟨g.counter, τ, []⟩ : Config V).counter]? = _
    from getElem?_counter hcode, counter_emit]
  rfl

/-- A jump leads to its label, because the label stands there and nowhere else. -/
theorem reaches_emit_goto {g : Emitter} {name : String} {k : Nat}
    (hnodup : (labelsOf code).Nodup) (hcode : (g.emit (.goto name)).instructions <+: code)
    (hk : code[k]? = some (.label name)) (τ : Store V) :
    Reaches I code ⟨g.counter, τ, []⟩ ⟨k, τ, []⟩ := by
  refine Reaches.of_step ?_
  rw [step, show code[(⟨g.counter, τ, []⟩ : Config V).counter]? = _
    from getElem?_counter hcode]
  exact jump_eq_some hnodup hk _

/-- The test of a branch falls through where the condition holds, and else goes to the
label. -/
theorem reaches_unlessGoto {e : Expr} {name : String} {g g' : Emitter} {u : Unit} {k : Nat}
    (hnodup : (labelsOf code).Nodup) (he : ∀ s ∈ e.slots, s.Plain)
    (h : unlessGoto e name g = (u, g')) (hcode : g'.instructions <+: code)
    (hk : code[k]? = some (.label name)) {σ τ : Store V} (hτ : Agree 0 τ σ) :
    ∃ τ', Agree 0 τ' σ ∧ Reaches I code ⟨g.counter, τ, []⟩
      ⟨if I.truth (e.eval I σ) then g'.counter else k, τ', []⟩ := by
  obtain ⟨r, g₁, hr, h⟩ := bind_eq_iff.mp h
  rw [← instr_eq_iff.mp h] at hcode ⊢
  have hv : Computes I code g g₁ r σ (e.eval I σ) :=
    e.computes_lower he hr ((grows_emit _ _).code.trans hcode) σ
  obtain ⟨τ₁, hreach, hagree, hval⟩ := hv.2 τ hτ
  refine ⟨τ₁, (hagree.of_le (Nat.zero_le _)).trans hτ, hreach.trans (Reaches.of_step ?_)⟩
  rw [step, show code[(⟨g₁.counter, τ₁, []⟩ : Config V).counter]? = _
    from getElem?_counter hcode]
  simp only [hval]
  split
  · rw [counter_emit]
    rfl
  · exact jump_eq_some hnodup hk _

/-- A condition that is left out falls through without code. -/
theorem reaches_unlessHolds {condition : Option Expr} {name : String} {g g' : Emitter}
    {u : Unit} {k : Nat} (hnodup : (labelsOf code).Nodup)
    (hslots : ∀ s ∈ optionSlots Expr.slots condition, s.Plain)
    (h : unlessHolds condition name g = (u, g')) (hcode : g'.instructions <+: code)
    (hk : code[k]? = some (.label name)) {σ τ : Store V} (hτ : Agree 0 τ σ) :
    ∃ τ', Agree 0 τ' σ ∧ Reaches I code ⟨g.counter, τ, []⟩
      ⟨if conditionHolds I condition σ then g'.counter else k, τ', []⟩ := by
  match condition with
  | some e => exact reaches_unlessGoto hnodup hslots h hcode hk hτ
  | none =>
    obtain ⟨_, rfl⟩ := pure_eq_iff.mp h
    exact ⟨τ, hτ, Reaches.refl _⟩

/-- The slots of a condition are those of its expression between two marks. -/
theorem forall_mem_conditionSlots {e : Expr} {P : Slot → Prop}
    (h : ∀ s ∈ conditionSlots e, P s) : ∀ s ∈ e.slots, P s :=
  fun s hs => h s (List.mem_cons_of_mem _ (List.mem_append_left _ hs))

/-! ### Statements -/

/-- Wherever the code of `x` is placed in the listing, the machine follows `run` from its first
instruction to the one after its last. -/
def Simulates (I : Interpretation V) (code : List Instr) (bound : Nat) (x : Emit Unit)
    (run : Store V → Execution V) : Prop :=
  ∀ ⦃g g' : Emitter⦄ ⦃u : Unit⦄, x g = (u, g') → g'.instructions <+: code →
    ∀ σ τ, Agree 0 τ σ → Follows I code bound ⟨g.counter, τ, []⟩ g'.counter (run σ)

section Forms

variable {bound line : Nat} {body : Stmt}

/-- Over the body, or through it, to the label behind it. -/
theorem simulates_ifThen {condition : Expr} (hnodup : (labelsOf code).Nodup)
    (hcond : ∀ s ∈ conditionSlots condition, s.Plain)
    (hbody : Simulates I code bound body.lower (body.exec I bound)) :
    Simulates I code bound (Stmt.ifThen condition body line).lower
      ((Stmt.ifThen condition body line).exec I bound) := by
  intro g g' u h hcode σ τ hτ
  obtain ⟨done, g₁, hdone, h⟩ := bind_eq_iff.mp h
  obtain ⟨_, rfl⟩ := newLabel_eq_iff.mp hdone
  obtain ⟨_, g₂, htest, h⟩ := bind_eq_iff.mp h
  obtain ⟨_, g₃, hthen, h⟩ := bind_eq_iff.mp h
  obtain rfl := instr_eq_iff.mp h
  -- what lies before the end of the statement is a part of the listing too
  have hcode₃ : g₃.instructions <+: code := (grows_emit _ _).code.trans hcode
  have hcode₂ := (body.places_lower.indented hthen).code.trans hcode₃
  obtain ⟨τ', hτ', hreach⟩ := reaches_unlessGoto (I := I) hnodup
    (forall_mem_conditionSlots hcond) htest hcode₂ (getElem?_counter hcode) hτ
  refine Follows.of_reaches hreach ?_
  rw [Stmt.exec]
  split
  · obtain ⟨g₄, hinner, rfl⟩ := indented_eq_iff.mp hthen
    exact (hbody hinner hcode₃ σ τ' hτ').extend (reaches_emit_label hcode)
  -- the test has jumped to the label already
  · exact ⟨τ', reaches_emit_label hcode τ', hτ'⟩

/-- The first side jumps over the second, and the test jumps to the second. -/
theorem simulates_ifElse {condition : Expr} {onTrue onFalse : Stmt}
    (hnodup : (labelsOf code).Nodup) (hcond : ∀ s ∈ conditionSlots condition, s.Plain)
    (htrue : Simulates I code bound onTrue.lower (onTrue.exec I bound))
    (hfalse : Simulates I code bound onFalse.lower (onFalse.exec I bound)) :
    Simulates I code bound (Stmt.ifElse condition onTrue onFalse line).lower
      ((Stmt.ifElse condition onTrue onFalse line).exec I bound) := by
  intro g g' u h hcode σ τ hτ
  obtain ⟨other, g₁, hother, h⟩ := bind_eq_iff.mp h
  obtain ⟨_, rfl⟩ := newLabel_eq_iff.mp hother
  obtain ⟨done, g₂, hdone, h⟩ := bind_eq_iff.mp h
  obtain ⟨_, rfl⟩ := newLabel_eq_iff.mp hdone
  obtain ⟨_, g₃, htest, h⟩ := bind_eq_iff.mp h
  obtain ⟨_, g₄, hthen, h⟩ := bind_eq_iff.mp h
  obtain ⟨_, g₅, hlabel, h⟩ := bind_eq_iff.mp h
  obtain rfl := instr_eq_iff.mp hlabel
  obtain ⟨_, g₆, helse, h⟩ := bind_eq_iff.mp h
  obtain rfl := instr_eq_iff.mp h
  -- each part is in the code, since what is emitted later goes behind it
  have hcode₆ : g₆.instructions <+: code := (grows_emit _ _).code.trans hcode
  have hcode₅ := (onFalse.places_lower.indented helse).code.trans hcode₆
  have hcode₄ := (grows_emit _ _).code.trans hcode₅
  obtain ⟨g₇, hinner, rfl⟩ := indented_eq_iff.mp hthen
  obtain ⟨_, g₈, hbody, hgoto⟩ := bind_eq_iff.mp hinner
  obtain rfl := instr_eq_iff.mp hgoto
  have hcode₈ : g₈.instructions <+: code := (grows_emit _ _).code.trans hcode₄
  obtain ⟨τ', hτ', hreach⟩ := reaches_unlessGoto (I := I) hnodup
    (forall_mem_conditionSlots hcond) htest ((onTrue.places_lower hbody).code.trans hcode₈)
    (getElem?_counter hcode₅) hτ
  refine Follows.of_reaches hreach ?_
  rw [Stmt.exec]
  split
  · -- over the alternative, to the label at the end
    refine (htrue hbody hcode₈ σ τ' hτ').extend ?_
    intro τ
    exact (reaches_emit_goto hnodup hcode₄ (getElem?_counter hcode) τ).trans
      (reaches_emit_label hcode τ)
  · obtain ⟨g₉, hinner, rfl⟩ := indented_eq_iff.mp helse
    exact Follows.of_reaches (reaches_emit_label hcode₅ τ')
      ((hfalse hinner hcode₆ σ τ' hτ').extend (reaches_emit_label hcode))

/-- The head of the loop is its first label, its inside comes after the test and its end is the
second label. `Follows.loop` does the rest. -/
theorem simulates_whileLoop {condition : Expr} (hnodup : (labelsOf code).Nodup)
    (hcond : ∀ s ∈ conditionSlots condition, s.Plain)
    (hbody : Simulates I code bound body.lower (body.exec I bound)) :
    Simulates I code bound (Stmt.whileLoop condition body line).lower
      ((Stmt.whileLoop condition body line).exec I bound) := by
  intro g g' u h hcode σ τ hτ
  obtain ⟨start, g₁, hstart, h⟩ := bind_eq_iff.mp h
  obtain ⟨_, rfl⟩ := newLabel_eq_iff.mp hstart
  obtain ⟨done, g₂, hdone, h⟩ := bind_eq_iff.mp h
  obtain ⟨_, rfl⟩ := newLabel_eq_iff.mp hdone
  obtain ⟨_, g₃, hlabel, h⟩ := bind_eq_iff.mp h
  obtain rfl := instr_eq_iff.mp hlabel
  obtain ⟨_, g₄, hround, h⟩ := bind_eq_iff.mp h
  obtain rfl := instr_eq_iff.mp h
  have hcode₄ : g₄.instructions <+: code := (grows_emit _ _).code.trans hcode
  obtain ⟨g₅, hinner, rfl⟩ := indented_eq_iff.mp hround
  obtain ⟨_, g₆, htest, hinner⟩ := bind_eq_iff.mp hinner
  obtain ⟨_, g₇, hlower, hgoto⟩ := bind_eq_iff.mp hinner
  obtain rfl := instr_eq_iff.mp hgoto
  have hcode₇ : g₇.instructions <+: code := (grows_emit _ _).code.trans hcode₄
  have hcode₆ := (body.places_lower hlower).code.trans hcode₇
  -- the jump back and the rounds meet at the head
  have hhead := getElem?_counter ((grows_unlessGoto htest).code.trans hcode₆)
  refine Follows.loop hhead (fun σ τ hτ => ?_) (hbody hlower hcode₇)
    (reaches_emit_goto hnodup hcode₄ hhead) (reaches_emit_label hcode) (Nat.le_refl _) hτ
  rw [← counter_emit]
  exact reaches_unlessGoto hnodup (forall_mem_conditionSlots hcond) htest hcode₆
    (getElem?_counter hcode) hτ

/-- A counted loop is a loop whose rounds end with a step, after a start of its own. -/
theorem simulates_forLoop {init : Option ForInit} {condition : Option Expr}
    {step : Option ForStep} (hnodup : (labelsOf code).Nodup)
    (hinits : ∀ s ∈ optionSlots ForInit.slots init, s.Plain)
    (hcond : ∀ s ∈ optionSlots Expr.slots condition, s.Plain)
    (hsteps : ∀ s ∈ optionSlots ForStep.slots step, s.Plain)
    (hbody : Simulates I code bound body.lower (body.exec I bound)) :
    Simulates I code bound (Stmt.forLoop init condition step body line).lower
      ((Stmt.forLoop init condition step body line).exec I bound) := by
  intro g g' u h hcode σ τ hτ
  rw [Stmt.lower_forLoop] at h
  obtain ⟨start, g₁, hstart, h⟩ := bind_eq_iff.mp h
  obtain ⟨_, rfl⟩ := newLabel_eq_iff.mp hstart
  obtain ⟨done, g₂, hdone, h⟩ := bind_eq_iff.mp h
  obtain ⟨_, rfl⟩ := newLabel_eq_iff.mp hdone
  obtain ⟨_, g₃, hinit, h⟩ := bind_eq_iff.mp h
  obtain ⟨_, g₄, hlabel, h⟩ := bind_eq_iff.mp h
  obtain rfl := instr_eq_iff.mp hlabel
  obtain ⟨_, g₅, hround, h⟩ := bind_eq_iff.mp h
  obtain rfl := instr_eq_iff.mp h
  have hcode₅ : g₅.instructions <+: code := (grows_emit _ _).code.trans hcode
  obtain ⟨g₆, hinner, rfl⟩ := indented_eq_iff.mp hround
  obtain ⟨_, g₇, htest, hinner⟩ := bind_eq_iff.mp hinner
  obtain ⟨_, g₈, hlower, hinner⟩ := bind_eq_iff.mp hinner
  obtain ⟨_, g₉, hstep, hgoto⟩ := bind_eq_iff.mp hinner
  obtain rfl := instr_eq_iff.mp hgoto
  have hcode₉ : g₉.instructions <+: code := (grows_emit _ _).code.trans hcode₅
  have hcode₈ := (ForStep.grows_lower hstep).code.trans hcode₉
  have hcode₇ := (body.places_lower hlower).code.trans hcode₈
  have hcode₄ := (grows_unlessHolds htest).code.trans hcode₇
  have hhead := getElem?_counter hcode₄
  -- the start of the loop is passed before its head
  obtain ⟨τ₀, hreach₀, hτ₀⟩ :=
    ForInit.takes_lower (I := I) hinits hinit ((grows_emit _ _).code.trans hcode₄) σ τ hτ
  -- one round: the body, and the step unless the body has returned
  have honce (σ τ : Store V) (hτ : Agree 0 τ σ) :
      Follows I code bound ⟨g₇.counter, τ, []⟩ g₉.counter ((body.exec I bound σ).andThen
        fun σ => some (ForStep.exec I step σ, .done)) := by
    refine (hbody hlower hcode₈ σ τ hτ).andThen fun σ' τ' hτ' => ?_
    exact (ForStep.takes_lower hsteps hstep hcode₉ σ').follows hτ' bound
  refine Follows.of_reaches hreach₀ (Follows.loop hhead (fun σ τ hτ => ?_) honce
    (reaches_emit_goto hnodup hcode₅ hhead) (reaches_emit_label hcode) (Nat.le_refl _) hτ₀)
  rw [← counter_emit]
  exact reaches_unlessHolds hnodup hcond htest hcode₇ (getElem?_counter hcode) hτ

/-- The machine stops at the instruction, and its outcome is the value of the operand there. -/
theorem simulates_result {value : Option Expr}
    (hvalue : ∀ s ∈ optionSlots Expr.slots value, s.Plain) :
    Simulates I code bound (Stmt.result value line).lower
      ((Stmt.result value line).exec I bound) := by
  intro g g' u h hcode σ τ hτ
  cases value with
  | none =>
      obtain rfl := instr_eq_iff.mp h
      refine ⟨_, Reaches.refl _, hτ, ?_⟩
      -- the machine stands at the `return` with no caller to go back to
      rw [outcome?, show code[(⟨g.counter, τ, []⟩ : Config V).counter]? = _
        from getElem?_counter hcode]
      rfl
  | some e =>
      obtain ⟨r, g₁, he, h⟩ := bind_eq_iff.mp h
      obtain rfl := instr_eq_iff.mp h
      have hv : Computes I code g g₁ r σ (e.eval I σ) :=
        e.computes_lower hvalue he ((grows_emit _ _).code.trans hcode) σ
      obtain ⟨τ', hreach, hagree, hval⟩ := hv.2 τ hτ
      refine ⟨_, hreach, (hagree.of_le (Nat.zero_le _)).trans hτ, ?_⟩
      rw [outcome?, show code[(⟨g₁.counter, τ', []⟩ : Config V).counter]? = _
        from getElem?_counter hcode]
      simp only [Option.map_some, hval]

end Forms

mutual

/-- The machine follows a statement. -/
theorem Stmt.simulates_lower {s : Stmt} (hnodup : (labelsOf code).Nodup)
    (hs : ∀ x ∈ s.slots, x.Plain) (hfun : s.functionNames = []) (bound : Nat) :
    Simulates I code bound s.lower (s.exec I bound) := by
  match s with
  | .block body _ =>
    rw [Stmt.slots, List.forall_mem_cons, List.forall_mem_append] at hs
    exact simulates_lowerAll hnodup hs.2.1 hfun bound
  | .declaration d =>
    rw [Stmt.slots, List.forall_mem_append] at hs
    exact fun g g' u h hcode σ τ hτ => (d.takes_lower hs.1 h hcode σ).follows hτ bound
  | .assignment a =>
    rw [Stmt.slots, List.forall_mem_append] at hs
    exact fun g g' u h hcode σ τ hτ => (a.takes_lower hs.1 h hcode σ).follows hτ bound
  | .ifThen _ body _ =>
    rw [Stmt.slots, List.forall_mem_cons, List.forall_mem_append] at hs
    exact simulates_ifThen hnodup hs.2.1 (body.simulates_lower hnodup hs.2.2 hfun bound)
  | .ifElse _ onTrue onFalse _ =>
    rw [Stmt.slots, List.forall_mem_cons, List.forall_mem_append, List.forall_mem_append,
      List.forall_mem_cons] at hs
    obtain ⟨_, hcond, htrue, _, hfalse⟩ := hs
    obtain ⟨hfun, hfun'⟩ := List.append_eq_nil_iff.mp hfun
    exact simulates_ifElse hnodup hcond (onTrue.simulates_lower hnodup htrue hfun bound)
      (onFalse.simulates_lower hnodup hfalse hfun' bound)
  | .whileLoop _ body _ =>
    rw [Stmt.slots, List.forall_mem_cons, List.forall_mem_append] at hs
    exact simulates_whileLoop hnodup hs.2.1 (body.simulates_lower hnodup hs.2.2 hfun bound)
  | .forLoop _ _ _ body _ =>
    rw [Stmt.slots, List.forall_mem_cons, List.forall_mem_cons, List.forall_mem_append,
      List.forall_mem_cons, List.forall_mem_append, List.forall_mem_cons,
      List.forall_mem_append, List.forall_mem_cons] at hs
    obtain ⟨_, _, hinits, _, hcond, _, hsteps, _, hbody⟩ := hs
    exact simulates_forLoop hnodup hinits hcond hsteps
      (body.simulates_lower hnodup hbody hfun bound)
  -- the code of a body would be run where the function stands, so functions are excluded
  | .function _ _ _ => cases hfun
  | .prototype _ =>
    intro g g' u h _ σ τ hτ
    obtain ⟨_, rfl⟩ := pure_eq_iff.mp h
    exact ⟨τ, Reaches.refl _, hτ⟩
  | .result none _ => exact simulates_result (by simp [optionSlots])
  | .result (some e) _ =>
    rw [Stmt.slots, List.forall_mem_cons, List.forall_mem_append] at hs
    exact simulates_result hs.2.1

/-- The machine follows a row of statements. -/
theorem simulates_lowerAll {row : List Stmt} (hnodup : (labelsOf code).Nodup)
    (hrow : ∀ x ∈ rowSlots row, x.Plain) (hfun : functionNamesAll row = []) (bound : Nat) :
    Simulates I code bound (lowerAll row) (execAll I bound row) := by
  intro g g' u h hcode σ τ hτ
  match row with
  | [] =>
    obtain ⟨_, rfl⟩ := pure_eq_iff.mp h
    exact ⟨τ, Reaches.refl _, hτ⟩
  | s :: more =>
    obtain ⟨_, g₁, hs, h⟩ := bind_eq_iff.mp h
    rw [rowSlots, List.forall_mem_append] at hrow
    obtain ⟨hfun, hfun'⟩ := List.append_eq_nil_iff.mp hfun
    have hcode₁ := (places_lowerAll more h).code.trans hcode
    have hfirst := s.simulates_lower hnodup hrow.1 hfun bound hs hcode₁ σ τ hτ
    exact hfirst.andThen (simulates_lowerAll hnodup hrow.2 hfun' bound h hcode)

end

/-! ### Programs -/

/-- A program without functions, with texts that the lexer admits, in which no name is that of
a temporary. -/
structure Program.Plain (p : Program) : Prop where
  noFunctions : p.functionNames = []
  admitted : ∀ s ∈ p.slots, ∀ x ∈ s.text, s.kind.admits x = true
  noTemporaries : ∀ s ∈ p.slots, s.kind = .identifier → ∀ x ∈ s.text, ¬ IsTemporary x

/-- To agree from the first temporary on is to agree on everything else. -/
theorem agree_zero_iff {τ σ : Store V} : Agree 0 τ σ ↔ ∀ x, ¬ IsTemporary x → τ x = σ x := by
  constructor
  · intro h x hx
    exact h x (olderThan_of_not_isTemporary hx 0)
  · intro h x hx
    exact h x fun ⟨k, hk⟩ => hx k (Nat.zero_le k) hk

/-- The machine follows a program from the first instruction to the end of the listing. -/
theorem Program.Plain.follows_lower {p : Program} (hp : p.Plain) (bound : Nat) (σ : Store V) :
    Follows I p.lower.instructions bound (start σ) p.lower.instructions.length
      (execAll I bound p.body σ) := by
  refine simulates_lowerAll (nodup_labels_lower p hp.noFunctions) ?_ hp.noFunctions bound
    rfl (List.prefix_refl _) σ σ (Agree.refl 0 σ)
  intro s hs x hx
  exact ⟨hp.admitted s hs x hx, fun hkind => hp.noTemporaries s hs hkind x hx⟩

/-- Where an execution ends, the machine that follows it to the end of the listing stops. -/
theorem Follows.endsIn {bound : Nat} {σ σ' : Store V} {o : Outcome V}
    (h : Follows I code bound (start σ) code.length (some (σ', o))) :
    ∃ τ, Machine.EndsIn I code σ τ o ∧ Agree 0 τ σ' := by
  match o with
  | .done =>
    obtain ⟨τ, ⟨n, hn⟩, hτ⟩ := h
    refine ⟨τ, ⟨n, _, hn, rfl, ?_⟩, hτ⟩
    rw [outcome?, show code[(⟨code.length, τ, []⟩ : Config V).counter]? = none
      from List.getElem?_eq_none (Nat.le_refl _)]
  | .returns v =>
    obtain ⟨d, ⟨n, hn⟩, hτ, ho⟩ := h
    exact ⟨d.store, ⟨n, d, hn, rfl, ho⟩, hτ⟩

/-- Lowering preserves meaning: a program ends in the store `σ'` exactly when its listing
stops, with the same outcome, in a store that differs from `σ'` in temporaries at most. The
program itself leaves the temporaries as they are. -/
theorem endsIn_iff_endsIn_lower (I : Interpretation V) (p : Program) (hp : p.Plain)
    (σ σ' : Store V) (o : Outcome V) :
    p.EndsIn I σ σ' o ↔
      (∃ τ, Machine.EndsIn I p.lower.instructions σ τ o ∧ ∀ x, ¬ IsTemporary x → τ x = σ' x) ∧
        ∀ x, IsTemporary x → σ' x = σ x := by
  -- a name of a temporary does not stand in the program, so it keeps its value
  have hkeeps : ∀ {σ₁ : Store V} {o₁ : Outcome V}, p.EndsIn I σ σ₁ o₁ →
      ∀ x, IsTemporary x → σ₁ x = σ x := by
    intro σ₁ o₁ h x hx
    refine h.keeps fun s hs hkind htext => ?_
    exact hp.noTemporaries s hs hkind x htext hx
  constructor
  · intro h
    refine ⟨?_, hkeeps h⟩
    obtain ⟨bound, hend⟩ := h
    have hfollows := hp.follows_lower (I := I) bound σ
    rw [hend] at hfollows
    obtain ⟨τ, hτ, hagree⟩ := hfollows.endsIn
    exact ⟨τ, hτ, agree_zero_iff.mp hagree⟩
  · rintro ⟨⟨τ, hτ, hagree⟩, htemps⟩
    obtain ⟨n, c, hn, hstore, ho⟩ := hτ
    -- with one more round than the machine makes steps, the execution must have an answer
    have hfollows := hp.follows_lower (I := I) (n + 1) σ
    cases hexec : execAll I (n + 1) p.body σ with
    | none =>
      -- the machine would make a step after it has stopped
      rw [hexec] at hfollows
      exact absurd hfollows (not_runs_of_outcome? hn ho)
    | some result =>
      obtain ⟨σ₁, o₁⟩ := result
      rw [hexec] at hfollows
      obtain ⟨τ₁, hτ₁, hagree₁⟩ := hfollows.endsIn
      obtain ⟨rfl, rfl⟩ := hτ₁.unique ⟨n, c, hn, hstore, ho⟩
      have hσ : σ₁ = σ' := by
        funext x
        by_cases hx : IsTemporary x
        · rw [hkeeps ⟨n + 1, hexec⟩ x hx, htemps x hx]
        · rw [← hagree x hx, agree_zero_iff.mp hagree₁ x hx]
      exact ⟨n + 1, hσ ▸ hexec⟩

/-- Numbers as they are usually read, and calls that add up their arguments. -/
def Interpretation.arithmetic : Interpretation Nat where
  number text := text.toList.foldl (fun n c => 10 * n + (c.toNat - '0'.toNat)) 0
  binary op a b :=
    match op with
    | .add => a + b
    | .sub => a - b
    | .mul => a * b
    | .div => a / b
    | .mod => a % b
    | .less => if a < b then 1 else 0
    | .lessEqual => if a ≤ b then 1 else 0
    | .greater => if a > b then 1 else 0
    | .greaterEqual => if a ≥ b then 1 else 0
    | .equal => if a = b then 1 else 0
    | .notEqual => if a = b then 0 else 1
  truth v := v != 0
  call _ vs := vs.sum

/-- A counted loop that adds up calls, and returns the sum. -/
def sumOfCalls : Program where
  body :=
    [.declaration ⟨.int, [⟨"total", some (.term (.factor (.number "0" 1)))⟩, ⟨"i", none⟩], 1⟩,
     .forLoop (some (.assignment ⟨"i", .set, .term (.factor (.number "1" 2)), 2⟩))
       (some (.term (.binary (.factor (.ident "i" 2)) .less (.number "4" 2))))
       (some (.increment "i" 2))
       (.assignment ⟨"total", .add, .term (.factor (.call "f"
         [.term (.factor (.ident "i" 3)),
          .binary (.term (.factor (.ident "i" 3))) .add (.factor (.number "10" 3))] 3)), 3⟩) 2,
     .result (some (.term (.factor (.ident "total" 4)))) 4]

/-- The loop returns 42, in the tree and in the listing. -/
theorem endsIn_lower_sumOfCalls :
    sumOfCalls.Plain ∧ ∃ σ' τ,
      sumOfCalls.EndsIn .arithmetic (fun _ => 0) σ' (.returns (some 42)) ∧
      Machine.EndsIn .arithmetic sumOfCalls.lower.instructions (fun _ => 0) τ
        (.returns (some 42)) ∧
      ∀ x, ¬ IsTemporary x → τ x = σ' x := by
  have hforms : ∀ s ∈ sumOfCalls.slots, ∀ x ∈ s.text, hasTemporaryForm x = false := by decide
  have hplain : sumOfCalls.Plain := by
    refine ⟨by decide, by decide, ?_⟩
    intro s hs _ x hx htemp
    have hform := hasTemporaryForm_of_isTemporary htemp
    rw [hforms s hs x hx] at hform
    cases hform
  have hends : ∃ σ', sumOfCalls.EndsIn .arithmetic (fun _ => 0) σ' (.returns (some 42)) :=
    ⟨_, 4, rfl⟩
  obtain ⟨σ', hσ'⟩ := hends
  obtain ⟨⟨τ, hτ, hagree⟩, _⟩ :=
    (endsIn_iff_endsIn_lower .arithmetic sumOfCalls hplain _ σ' _).mp hσ'
  exact ⟨hplain, σ', τ, hσ', hτ, hagree⟩

end Tercet
