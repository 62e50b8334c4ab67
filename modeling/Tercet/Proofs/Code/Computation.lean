import Tercet.Proofs.Code.Emission
import Tercet.Proofs.Code.Machine

/-!
# `Tercet.Proofs.Code.Computation`: straight-line code computes what it should

The code of an expression leaves the value of the expression in its operand
(`Expr.computes_lower`), and the code of a declaration or an assignment changes the store as
the execution does (`Declaration.takes_lower`, `Assignment.takes_lower`).

Machine and execution keep different stores, because the machine also writes temporaries.
`Store.Agree n` says that two stores differ at most in temporaries from number `n` on. While
an expression is computed the machine only writes temporaries of numbers not used before, so
the operands it has already computed keep their values; between statements the stores agree
on all that is no temporary.

Code is placed through emitters: a piece of lowering that leads from `g` to `g'` has its code
at the positions from `g.counter` to `g'.counter` of every listing that starts with the
instructions of `g'`.
-/

set_option autoImplicit false

namespace Tercet

open Emit Emitter Machine

variable {V : Type} {I : Interpretation V} {code : List Instr}

/-! ### Stores that agree up to temporaries -/

/-- The name is no temporary from number `n` on. -/
def OlderThan (n : Nat) (x : String) : Prop :=
  ∀ k, n ≤ k → x ≠ temporary k

/-- The stores differ at most in temporaries from number `n` on. -/
def Store.Agree (n : Nat) (τ σ : Store V) : Prop :=
  ∀ x, OlderThan n x → τ x = σ x

/-- A name that is old stays old. -/
theorem OlderThan.of_le {m n : Nat} {x : String} (h : OlderThan m x) (hmn : m ≤ n) :
    OlderThan n x :=
  fun k hk => h k (hmn.trans hk)

/-- A temporary is older than all that are named after it. -/
theorem olderThan_succ_temporary (n : Nat) : OlderThan (n + 1) (temporary n) := by
  intro k hk heq
  have hkn := temporary_inj.mp heq
  omega

namespace Store.Agree

variable {m n : Nat} {τ σ ρ : Store V}

/-- A store agrees with itself. -/
theorem refl (n : Nat) (σ : Store V) : Agree n σ σ :=
  fun _ _ => rfl

/-- Stores that agree with a third one agree. -/
theorem trans (h : Agree n τ σ) (h' : Agree n σ ρ) : Agree n τ ρ :=
  fun x hx => (h x hx).trans (h' x hx)

/-- With fewer temporaries to compare, stores still agree. -/
theorem of_le (h : Agree n τ σ) (hmn : m ≤ n) : Agree m τ σ :=
  fun x hx => h x (hx.of_le hmn)

/-- A temporary may be written. -/
theorem update_temporary (h : Agree n τ σ) {k : Nat} (hk : n ≤ k) (v : V) :
    Agree n (Function.update τ (temporary k) v) σ := by
  intro x hx
  rw [Function.update_of_ne (hx k hk)]
  exact h x hx

/-- The same value may be stored on both sides. -/
theorem update (h : Agree n τ σ) (x : String) (v : V) :
    Agree n (Function.update τ x v) (Function.update σ x v) := by
  intro y hy
  by_cases hyx : y = x
  · subst hyx
    rw [Function.update_self, Function.update_self]
  · rw [Function.update_of_ne hyx, Function.update_of_ne hyx]
    exact h y hy

/-- An operand that is old has one value in stores that agree. A number has it in any store. -/
theorem operand_eq (h : Agree n τ σ) {r : String} (hr : OlderThan n r) :
    operand I τ r = operand I σ r := by
  unfold operand
  split
  · rfl
  · exact h r hr

end Store.Agree

open Store (Agree)

/-- A temporary is no number. -/
theorem admits_number_temporary (n : Nat) : Kind.number.admits (temporary n) = false := by
  have htext : (temporary n).toList = 't' :: (toString n).toList := by
    rw [temporary, String.toList_append]
    rfl
  rw [Kind.admits, htext, Pattern.lexeme_number_of_not_isDigit (by decide)]
  simp

/-- A temporary is read from the store. -/
theorem operand_temporary (σ : Store V) (n : Nat) :
    operand I σ (temporary n) = σ (temporary n) := by
  rw [operand, admits_number_temporary]
  rfl

/-! ### Fetching and jumping -/

/-- In a listing that starts with the code so far, the next instruction stands at the
counter. -/
theorem getElem?_counter {g : Emitter} {i : Instr}
    (hcode : (g.emit i).instructions <+: code) : code[g.counter]? = some i := by
  obtain ⟨rest, rfl⟩ := hcode
  rw [instructions_emit, List.append_assoc, counter, List.getElem?_append_right (Nat.le_refl _),
    Nat.sub_self]
  rfl

/-- Where no label stands twice, a jump leads to the place of its label. -/
theorem jump_eq_some {k : Nat} {name : String} (hnodup : (labelsOf code).Nodup)
    (hk : code[k]? = some (.label name)) (c : Config V) :
    jump code c name = some { c with counter := k } := by
  obtain ⟨hlt, hget⟩ := List.getElem?_eq_some_iff.mp hk
  have hsplit : code = code.take k ++ .label name :: code.drop (k + 1) := by
    rw [← hget, List.cons_getElem_drop_succ, List.take_append_drop]
  -- a label before position `k` would make the name stand twice
  have hbefore : ∀ i ∈ code.take k, (i == .label name) = false := by
    intro i hi
    rw [beq_eq_false_iff_ne]
    rintro rfl
    rw [hsplit, labelsOf, List.filterMap_append] at hnodup
    have hdisjoint := (List.nodup_append.mp hnodup).2.2 name
      (List.mem_filterMap.mpr ⟨_, hi, rfl⟩) name (by simp [Instr.label?])
    exact hdisjoint rfl
  -- the machine looks for the first such label, and this is the only one
  have hfind : code.findIdx? (· == .label name) = some k := by
    rw [List.findIdx?_eq_some_iff_getElem]
    refine ⟨hlt, by rw [hget]; exact beq_self_eq_true _, ?_⟩
    intro j hj
    have hmem : code.get ⟨j, hj.trans hlt⟩ ∈ code.take k :=
      List.mem_take_iff_getElem.mpr ⟨j, by omega, rfl⟩
    rw [show code[j] = code.get ⟨j, hj.trans hlt⟩ from rfl, hbefore _ hmem]
    exact Bool.false_ne_true
  rw [jump, hfind]
  rfl

/-! ### Expressions -/

/-- A slot whose text its kind admits, and no name of which is that of a temporary. -/
def Slot.Plain (s : Slot) : Prop :=
  ∀ x ∈ s.text, s.kind.admits x = true ∧ (s.kind = .identifier → ¬ IsTemporary x)

/-- A number is not looked up. -/
theorem operand_number {text : String} (h : Kind.number.admits text = true) (σ : Store V) :
    operand I σ text = I.number text := by
  rw [operand, h]
  rfl

/-- A name of the source is read from the store. -/
theorem operand_name {x : String} (hx : Kind.identifier.admits x = true) (σ : Store V) :
    operand I σ x = σ x := by
  rw [operand, Kind.admits_number_of_admits_identifier hx]
  rfl

/-- A name of the source is as old as can be. -/
theorem olderThan_of_not_isTemporary {x : String} (hx : ¬ IsTemporary x) (n : Nat) :
    OlderThan n x :=
  fun k _ heq => hx ⟨k, heq⟩

/-- A number is no temporary. -/
theorem olderThan_of_admits_number {x : String} (hx : Kind.number.admits x = true) (n : Nat) :
    OlderThan n x := by
  rintro k _ rfl
  rw [admits_number_temporary] at hx
  cases hx

/-- The code between two emitters computes a value of the store `σ` into the operand `r`. It
starts from any store that agrees with `σ` and writes no temporary that is in use. -/
def Computes (I : Interpretation V) (code : List Instr) (g g' : Emitter) (r : String)
    (σ : Store V) (v : V) : Prop :=
  OlderThan g'.temps r ∧
  ∀ τ, Agree 0 τ σ → ∃ τ', Reaches I code ⟨g.counter, τ, []⟩ ⟨g'.counter, τ', []⟩ ∧
    Agree g.temps τ' τ ∧ operand I τ' r = v

/-- `Computes` for the arguments of a call, one after the other. -/
def ComputesAll (I : Interpretation V) (code : List Instr) (g g' : Emitter)
    (rs : List String) (σ : Store V) (vs : List V) : Prop :=
  (∀ r ∈ rs, OlderThan g'.temps r) ∧
  ∀ τ, Agree 0 τ σ → ∃ τ', Reaches I code ⟨g.counter, τ, []⟩ ⟨g'.counter, τ', []⟩ ∧
    Agree g.temps τ' τ ∧ rs.map (operand I τ') = vs

/-- An operand that needs no code. -/
theorem Computes.of_operand {g : Emitter} {r : String} {σ : Store V} {v : V}
    (hr : ∀ n, OlderThan n r) (hv : operand I σ r = v) : Computes I code g g r σ v := by
  refine ⟨hr _, fun τ hτ => ⟨τ, Reaches.refl _, Agree.refl _ _, ?_⟩⟩
  rw [hτ.operand_eq (hr 0), hv]

/-- Two operands and the instruction that joins them. -/
theorem Computes.join {g g₁ g₂ g₃ : Emitter} {l r t : String} {op : BinaryOp} {σ : Store V}
    {a b : V} (hl : Computes I code g g₁ l σ a) (hr : Computes I code g₁ g₂ r σ b)
    (hg : g.temps ≤ g₁.temps) (hg₁ : g₁.temps ≤ g₂.temps) (hjoin : join l op r g₂ = (t, g₃))
    (hcode : g₃.instructions <+: code) : Computes I code g g₃ t σ (I.binary op a b) := by
  obtain ⟨t, g₃, ht, h⟩ := bind_eq_iff.mp hjoin
  obtain ⟨_, g₄, hi, h⟩ := bind_eq_iff.mp h
  obtain ⟨rfl, rfl⟩ := pure_eq_iff.mp h
  obtain ⟨rfl, rfl⟩ := newTemp_eq_iff.mp ht
  rw [← instr_eq_iff.mp hi] at hcode ⊢
  refine ⟨olderThan_succ_temporary _, fun τ hτ => ?_⟩
  -- the machine after the left operand, after the right one, and after the join
  obtain ⟨τ₁, hreach₁, hagree₁, hval₁⟩ := hl.2 τ hτ
  obtain ⟨τ₂, hreach₂, hagree₂, hval₂⟩ :=
    hr.2 τ₁ ((hagree₁.of_le (Nat.zero_le _)).trans hτ)
  -- the second operand leaves the temporary of the first as it is
  have hleft : operand I τ₂ l = a := by rw [hagree₂.operand_eq hl.1, hval₁]
  refine ⟨Function.update τ₂ (temporary g₂.temps) (I.binary op a b),
    hreach₁.trans (hreach₂.trans (Reaches.of_step ?_)), ?_, ?_⟩
  · rw [step, show code[(⟨g₂.counter, τ₂, []⟩ : Config V).counter]? = _
      from getElem?_counter hcode]
    simp only [hleft, hval₂, Config.save, counter_emit]
    rfl
  · exact ((hagree₂.of_le hg).trans hagree₁).update_temporary (hg.trans hg₁) _
  · rw [operand_temporary, Function.update_self]

/-- Handing values over appends them to the pending ones. -/
theorem reaches_params {vs : List String} {g g' : Emitter} {u : Unit}
    (h : (vs.forM fun v => instr (.param v)) g = (u, g')) (hcode : g'.instructions <+: code)
    (τ : Store V) (pending : List V) :
    Reaches I code ⟨g.counter, τ, pending⟩
      ⟨g'.counter, τ, pending ++ vs.map (operand I τ)⟩ := by
  induction vs generalizing g pending with
  | nil =>
      obtain ⟨_, rfl⟩ := pure_eq_iff.mp h
      rw [List.map_nil, List.append_nil]
      exact Reaches.refl _
  | cons v vs ih =>
      obtain ⟨_, g₁, hv, h⟩ := bind_eq_iff.mp h
      obtain rfl := instr_eq_iff.mp hv
      -- one operand more is pending, and the store is as it was
      have hstep : step I code ⟨g.counter, τ, pending⟩
          = some ⟨(g.emit (.param v)).counter, τ, pending ++ [operand I τ v]⟩ := by
        rw [step, show code[(⟨g.counter, τ, pending⟩ : Config V).counter]? = _
          from getElem?_counter ((grows_params h).code.trans hcode), counter_emit]
        rfl
      have hrest := ih h (pending ++ [operand I τ v])
      rw [List.append_assoc] at hrest
      exact (Reaches.of_step hstep).trans hrest

mutual

/-- The code of an expression leaves its value in its operand: left side, right side, join. -/
theorem Expr.computes_lower {e : Expr} {g g' : Emitter} {r : String}
    (he : ∀ s ∈ e.slots, s.Plain) (h : e.lower g = (r, g'))
    (hcode : g'.instructions <+: code) (σ : Store V) :
    Computes I code g g' r σ (e.eval I σ) := by
  match e with
  | .term t => exact t.computes_lower he h hcode σ
  | .binary left op right =>
    obtain ⟨_, g₁, hl, h⟩ := bind_eq_iff.mp h
    obtain ⟨_, g₂, hr, h⟩ := bind_eq_iff.mp h
    rw [Expr.slots, List.forall_mem_append, List.forall_mem_cons] at he
    have hcode₂ := (grows_join h).code.trans hcode
    have hcode₁ := (right.grows_lower hr).code.trans hcode₂
    exact (left.computes_lower he.1 hl hcode₁ σ).join
      (right.computes_lower he.2.2 hr hcode₂ σ) (left.grows_lower hl).temps
      (right.grows_lower hr).temps h hcode

/-- The same for a term and its factors. -/
theorem Term.computes_lower {t : Term} {g g' : Emitter} {r : String}
    (ht : ∀ s ∈ t.slots, s.Plain) (h : t.lower g = (r, g'))
    (hcode : g'.instructions <+: code) (σ : Store V) :
    Computes I code g g' r σ (t.eval I σ) := by
  match t with
  | .factor f => exact f.computes_lower ht h hcode σ
  | .binary left op right =>
    obtain ⟨_, g₁, hl, h⟩ := bind_eq_iff.mp h
    obtain ⟨_, g₂, hr, h⟩ := bind_eq_iff.mp h
    rw [Term.slots, List.forall_mem_append, List.forall_mem_cons] at ht
    have hcode₂ := (grows_join h).code.trans hcode
    have hcode₁ := (right.grows_lower hr).code.trans hcode₂
    exact (left.computes_lower ht.1 hl hcode₁ σ).join
      (right.computes_lower ht.2.2 hr hcode₂ σ) (left.grows_lower hl).temps
      (right.grows_lower hr).temps h hcode

/-- Names and numbers are operands without code. A call is the longest case: the arguments are
computed, then handed over, and the answer goes to a new temporary. -/
theorem Factor.computes_lower {f : Factor} {g g' : Emitter} {r : String}
    (hf : ∀ s ∈ f.slots, s.Plain) (h : f.lower g = (r, g'))
    (hcode : g'.instructions <+: code) (σ : Store V) :
    Computes I code g g' r σ (f.eval I σ) := by
  match f with
  | .number text line =>
    obtain ⟨rfl, rfl⟩ := pure_eq_iff.mp h
    rw [Factor.slots, List.forall_mem_singleton] at hf
    have hadmits := (hf text rfl).1
    exact Computes.of_operand (olderThan_of_admits_number hadmits) (operand_number hadmits σ)
  | .ident name line =>
    obtain ⟨rfl, rfl⟩ := pure_eq_iff.mp h
    rw [Factor.slots, List.forall_mem_singleton] at hf
    obtain ⟨hadmits, htemp⟩ := hf name rfl
    exact Computes.of_operand (olderThan_of_not_isTemporary (htemp rfl))
      (operand_name hadmits σ)
  | .group inner line =>
    rw [Factor.slots, List.forall_mem_cons, List.forall_mem_append] at hf
    exact inner.computes_lower hf.2.1 h hcode σ
  | .call name arguments line =>
    obtain ⟨rs, g₁, hargs, h⟩ := bind_eq_iff.mp h
    obtain ⟨_, g₂, hparams, h⟩ := bind_eq_iff.mp h
    obtain ⟨t, g₃, ht, h⟩ := bind_eq_iff.mp h
    obtain ⟨_, g₄, hcall, h⟩ := bind_eq_iff.mp h
    obtain ⟨rfl, rfl⟩ := pure_eq_iff.mp h
    obtain ⟨rfl, rfl⟩ := newTemp_eq_iff.mp ht
    rw [← instr_eq_iff.mp hcall] at hcode ⊢
    have hcode₂ : g₂.instructions <+: code := (grows_emit _ _).code.trans hcode
    have hg₂ := grows_params hparams
    have hslots : ∀ e ∈ arguments, ∀ s ∈ e.slots, s.Plain := by
      intro e he s hs
      refine hf s (List.mem_cons_of_mem _ (List.mem_cons_of_mem _ (List.mem_append_left _ ?_)))
      rw [argumentSlots_eq_map]
      exact Slot.mem_separated (List.mem_map_of_mem he) hs
    have hall := computesAll_lowerArguments hslots hargs (hg₂.code.trans hcode₂) σ
    refine ⟨olderThan_succ_temporary _, fun τ hτ => ?_⟩
    obtain ⟨τ₁, hreach₁, hagree₁, hval₁⟩ := hall.2 τ hτ
    -- nothing was pending, so the call takes exactly its own arguments
    have hreach₂ : Reaches I code ⟨g₁.counter, τ₁, []⟩
        ⟨g₂.counter, τ₁, evalArguments I σ arguments⟩ := by
      rw [← hval₁]
      exact reaches_params hparams hcode₂ τ₁ []
    refine ⟨Function.update τ₁ (temporary g₂.temps) (I.call name (evalArguments I σ arguments)),
      hreach₁.trans (hreach₂.trans (Reaches.of_step ?_)), ?_, ?_⟩
    · rw [step, show code[(⟨g₂.counter, τ₁, evalArguments I σ arguments⟩ :
        Config V).counter]? = _ from getElem?_counter hcode]
      simp only [Config.save, counter_emit]
      rfl
    · exact hagree₁.update_temporary ((grows_lowerArguments hargs).temps.trans hg₂.temps) _
    · rw [operand_temporary, Function.update_self]
      rfl

/-- Arguments are computed one after the other, and later ones leave the operands of earlier ones,
which are older than their temporaries. -/
theorem computesAll_lowerArguments {es : List Expr} {g g' : Emitter} {rs : List String}
    (hes : ∀ e ∈ es, ∀ s ∈ e.slots, s.Plain) (h : lowerArguments es g = (rs, g'))
    (hcode : g'.instructions <+: code) (σ : Store V) :
    ComputesAll I code g g' rs σ (evalArguments I σ es) := by
  match es with
  | [] =>
    obtain ⟨rfl, rfl⟩ := pure_eq_iff.mp h
    exact ⟨by simp, fun τ _ => ⟨τ, Reaches.refl _, Agree.refl _ _, rfl⟩⟩
  | e :: es =>
    obtain ⟨r, g₁, he, h⟩ := bind_eq_iff.mp h
    obtain ⟨rs, g₂, hrest, h⟩ := bind_eq_iff.mp h
    obtain ⟨rfl, rfl⟩ := pure_eq_iff.mp h
    rw [List.forall_mem_cons] at hes
    have hg₂ := grows_lowerArguments hrest
    have hfirst := e.computes_lower hes.1 he (hg₂.code.trans hcode) σ
    have hmore := computesAll_lowerArguments hes.2 hrest hcode σ
    refine ⟨List.forall_mem_cons.mpr ⟨hfirst.1.of_le hg₂.temps, hmore.1⟩, fun τ hτ => ?_⟩
    obtain ⟨τ₁, hreach₁, hagree₁, hval₁⟩ := hfirst.2 τ hτ
    -- the later arguments leave the value of the first where it is
    obtain ⟨τ₂, hreach₂, hagree₂, hval₂⟩ :=
      hmore.2 τ₁ ((hagree₁.of_le (Nat.zero_le _)).trans hτ)
    refine ⟨τ₂, hreach₁.trans hreach₂,
      (hagree₂.of_le (e.grows_lower he).temps).trans hagree₁, ?_⟩
    rw [List.map_cons, hagree₂.operand_eq hfirst.1, hval₁, hval₂]
    rfl

end

/-! ### Statements without branches -/

/-- The code between two emitters takes the store `σ` to `σ'`, up to temporaries. -/
def Takes (I : Interpretation V) (code : List Instr) (g g' : Emitter) (σ σ' : Store V) :
    Prop :=
  ∀ τ, Agree 0 τ σ →
    ∃ τ', Reaches I code ⟨g.counter, τ, []⟩ ⟨g'.counter, τ', []⟩ ∧ Agree 0 τ' σ'

/-- No code changes nothing. -/
theorem Takes.refl (g : Emitter) (σ : Store V) : Takes I code g g σ σ :=
  fun τ hτ => ⟨τ, Reaches.refl _, hτ⟩

/-- Code in a row takes a store through another one. -/
theorem Takes.trans {g g₁ g' : Emitter} {σ σ₁ σ' : Store V} (h : Takes I code g g₁ σ σ₁)
    (h' : Takes I code g₁ g' σ₁ σ') : Takes I code g g' σ σ' := by
  intro τ hτ
  obtain ⟨τ₁, hreach₁, hτ₁⟩ := h τ hτ
  obtain ⟨τ₂, hreach₂, hτ₂⟩ := h' τ₁ hτ₁
  exact ⟨τ₂, hreach₁.trans hreach₂, hτ₂⟩

/-- A computed value is copied into a variable. -/
theorem Computes.takes_copy {g g₁ : Emitter} {x r : String} {σ : Store V} {v : V}
    (hv : Computes I code g g₁ r σ v) (hcode : (g₁.emit (.copy x r)).instructions <+: code) :
    Takes I code g (g₁.emit (.copy x r)) σ (Function.update σ x v) := by
  intro τ hτ
  obtain ⟨τ₁, hreach, hagree, hval⟩ := hv.2 τ hτ
  refine ⟨Function.update τ₁ x v, hreach.trans (Reaches.of_step ?_),
    ((hagree.of_le (Nat.zero_le _)).trans hτ).update x v⟩
  rw [step, show code[(⟨g₁.counter, τ₁, []⟩ : Config V).counter]? = _
    from getElem?_counter hcode]
  simp only [hval, Config.save, counter_emit]

/-- A name that stands in a plain slot is read from the store. -/
theorem Computes.of_name {g : Emitter} {x : String} {s : Slot} (hs : s.Plain)
    (hkind : s.kind = .identifier) (htext : s.text = some x) (σ : Store V) :
    Computes I code g g x σ (σ x) := by
  obtain ⟨hadmits, htemp⟩ := hs x htext
  rw [hkind] at hadmits
  exact Computes.of_operand (olderThan_of_not_isTemporary (htemp hkind))
    (operand_name hadmits σ)

/-- A computed value is stored, plainly or after joining it to the old one. -/
theorem Computes.takes_store {g g₁ g' : Emitter} {x r : String} {op : AssignOp} {u : Unit}
    {σ : Store V} {v : V} (hx : Computes I code g g x σ (σ x))
    (hv : Computes I code g g₁ r σ v) (hg : g.temps ≤ g₁.temps)
    (h : store x op r g₁ = (u, g')) (hcode : g'.instructions <+: code) :
    Takes I code g g' σ (σ.assign I x op v) := by
  cases hop : op.binary? with
  | none =>
    simp only [store, hop] at h
    rw [← instr_eq_iff.mp h] at hcode ⊢
    simp only [Store.assign, op.joined?_eq, hop]
    exact hv.takes_copy hcode
  | some binary =>
    simp only [store, hop] at h
    obtain ⟨t, g₂, hjoin, h⟩ := bind_eq_iff.mp h
    rw [← instr_eq_iff.mp h] at hcode ⊢
    simp only [Store.assign, op.joined?_eq, hop]
    have hcode₂ : g₂.instructions <+: code := (grows_emit _ _).code.trans hcode
    exact (hx.join hv (Nat.le_refl _) hg hjoin hcode₂).takes_copy hcode

/-- The value is computed from the store as it is, and then stored. -/
theorem Assignment.takes_lower {a : Assignment} {g g' : Emitter} {u : Unit}
    (ha : ∀ s ∈ a.slots, s.Plain) (h : a.lower g = (u, g'))
    (hcode : g'.instructions <+: code) (σ : Store V) :
    Takes I code g g' σ (a.exec I σ) := by
  obtain ⟨r, g₁, he, h⟩ := bind_eq_iff.mp h
  rw [Assignment.slots, List.forall_mem_cons, List.forall_mem_cons] at ha
  have hv : Computes I code g g₁ r σ (a.value.eval I σ) :=
    a.value.computes_lower ha.2.2 he ((grows_store h).code.trans hcode) σ
  exact (Computes.of_name ha.1 rfl rfl σ).takes_store hv (a.value.grows_lower he).temps h hcode

/-- A name without an initializer is an instruction that only goes on. -/
theorem Declarator.takes_lower {d : Declarator} {g g' : Emitter} {u : Unit}
    (hd : ∀ s ∈ d.slots, s.Plain) (h : d.lower g = (u, g'))
    (hcode : g'.instructions <+: code) (σ : Store V) :
    Takes I code g g' σ (d.exec I σ) := by
  obtain ⟨name, initializer⟩ := d
  cases initializer with
  | none =>
    rw [← instr_eq_iff.mp h] at hcode ⊢
    intro τ hτ
    refine ⟨τ, Reaches.of_step ?_, hτ⟩
    rw [step, show code[(⟨g.counter, τ, []⟩ : Config V).counter]? = _
      from getElem?_counter hcode, counter_emit]
    rfl
  | some e =>
    obtain ⟨r, g₁, he, h⟩ := bind_eq_iff.mp h
    rw [← instr_eq_iff.mp h] at hcode ⊢
    have hslots : ∀ s ∈ e.slots, s.Plain := fun s hs =>
      hd s (List.mem_cons_of_mem _ (List.mem_cons_of_mem _ hs))
    exact (e.computes_lower hslots he ((grows_emit _ _).code.trans hcode) σ).takes_copy hcode

/-- Names of a declaration, by induction on them, as the execution goes through them. -/
theorem takes_lowerDeclarators {ds : List Declarator} {g g' : Emitter} {u : Unit}
    (hds : ∀ d ∈ ds, ∀ s ∈ d.slots, s.Plain) (h : ds.forM Declarator.lower g = (u, g'))
    (hcode : g'.instructions <+: code) (σ : Store V) :
    Takes I code g g' σ (ds.foldl (fun σ d => d.exec I σ) σ) := by
  induction ds generalizing g σ with
  | nil =>
      obtain ⟨_, rfl⟩ := pure_eq_iff.mp h
      exact Takes.refl g σ
  | cons d ds ih =>
      obtain ⟨_, g₁, hd, h⟩ := bind_eq_iff.mp h
      rw [List.forall_mem_cons] at hds
      have hcode₁ := (grows_lowerDeclarators h).code.trans hcode
      exact (d.takes_lower hds.1 hd hcode₁ σ).trans (ih hds.2 h _)

/-- The slots of a declaration are its type and those of its names. -/
theorem Declaration.takes_lower {d : Declaration} {g g' : Emitter} {u : Unit}
    (hd : ∀ s ∈ d.slots, s.Plain) (h : d.lower g = (u, g'))
    (hcode : g'.instructions <+: code) (σ : Store V) :
    Takes I code g g' σ (d.exec I σ) := by
  refine takes_lowerDeclarators ?_ h hcode σ
  intro x hx s hs
  exact hd s (List.mem_cons_of_mem _ (Slot.mem_separated (List.mem_map_of_mem hx) hs))

/-- The start of a loop does what its declaration or assignment does. -/
theorem ForInit.takes_lower {init : Option ForInit} {g g' : Emitter} {u : Unit}
    (hinit : ∀ s ∈ optionSlots ForInit.slots init, s.Plain)
    (h : ForInit.lower init g = (u, g')) (hcode : g'.instructions <+: code) (σ : Store V) :
    Takes I code g g' σ (ForInit.exec I init σ) := by
  match init with
  | some (.declaration d) => exact d.takes_lower hinit h hcode σ
  | some (.assignment a) => exact a.takes_lower hinit h hcode σ
  | none =>
    obtain ⟨_, rfl⟩ := pure_eq_iff.mp h
    exact Takes.refl g σ

/-- A step by one joins the number `1` to its name. -/
theorem ForStep.takes_lower {step : Option ForStep} {g g' : Emitter} {u : Unit}
    (hstep : ∀ s ∈ optionSlots ForStep.slots step, s.Plain)
    (h : ForStep.lower step g = (u, g')) (hcode : g'.instructions <+: code) (σ : Store V) :
    Takes I code g g' σ (ForStep.exec I step σ) := by
  have hone : Computes I code g g "1" σ (I.number "1") :=
    Computes.of_operand (olderThan_of_admits_number (by decide))
      (operand_number (by decide) σ)
  -- counting up and down are assignments whose value is written out
  match step with
  | some (.increment target _) =>
    rw [ForStep.lower] at h
    exact (Computes.of_name (hstep _ (List.mem_cons_self ..)) rfl rfl σ).takes_store hone
      (Nat.le_refl _) h hcode
  | some (.decrement target _) =>
    rw [ForStep.lower] at h
    exact (Computes.of_name (hstep _ (List.mem_cons_self ..)) rfl rfl σ).takes_store hone
      (Nat.le_refl _) h hcode
  | some (.assignment a) => exact a.takes_lower hstep h hcode σ
  | none =>
    obtain ⟨_, rfl⟩ := pure_eq_iff.mp h
    exact Takes.refl g σ

end Tercet
