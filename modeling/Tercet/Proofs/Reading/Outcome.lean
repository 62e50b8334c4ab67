import Tercet.Proofs.Reading.Steps

/-!
# `Tercet.Proofs.Reading.Outcome`: what can be said of a reader that has run

A reader that has run, with or without success, has passed some tokens, none of them an end,
and has added some reports to the log; nothing else has changed (`Passes`). `Yields x p good`
says that of `x` at `p`, and also that, if `x` has succeeded without a report, its result and
the tokens it has passed are `good`. A reader that has reported something owes no more than
`Passes`: the log only grows, so its report is still there at the end.

The rules below follow the shape of readers, one for each step. In the rule for a bind the
demand on the second reader quantifies over what the first one has passed, and the token rows
are put together by the rule.
-/

set_option autoImplicit false

namespace Tercet

open Reader

/-- From `p` to `q`, a reader has passed `ts` and reported `ds`. -/
structure Passes (p q : Parser) (ts : List Token) (ds : Log) : Prop where
  ahead : p.ahead = ts ++ q.ahead
  eq_past : q = p.past ts q.ahead ds
  noEnd : ∀ t ∈ ts, t.kind ≠ .eof

namespace Passes

variable {p q r : Parser} {ts us : List Token} {ds es : Log}

/-- A reader that does nothing. -/
theorem refl (p : Parser) : Passes p p [] [] :=
  ⟨rfl, p.past_nil.symm, by simp⟩

/-- What two readers pass and report, one after the other. -/
theorem trans (h₁ : Passes p q ts ds) (h₂ : Passes q r us es) :
    Passes p r (ts ++ us) (ds ++ es) := by
  refine ⟨by rw [h₁.ahead, h₂.ahead, List.append_assoc], ?_, ?_⟩
  · have hr := h₂.eq_past
    rw [h₁.eq_past, Parser.past_past] at hr
    exact hr
  · intro t ht
    exact (List.mem_append.mp ht).elim (h₁.noEnd t) (h₂.noEnd t)

/-- Reading does not change which forms are read. -/
theorem forms_eq (h : Passes p q ts ds) : q.forms = p.forms := by
  rw [h.eq_past]
  rfl

/-- Reading does not change the closing token. -/
theorem last_eq (h : Passes p q ts ds) : q.last = p.last := by
  rw [h.eq_past]
  rfl

/-- What is reported is added to the log. -/
theorem log_eq (h : Passes p q ts ds) : q.log = p.log ++ ds := by
  rw [h.eq_past]
  rfl

/-- Passing the current token, unless it is an end. -/
theorem advance (p : Parser) :
    ∃ ts, Passes p { p with toStream := p.toStream.advance } ts [] ∧
      (p.kind ≠ .eof → ts = [p.current]) := by
  have hcurrent : p.current = p.following p.ahead := Parser.current_eq rfl
  have hkind : p.kind = (p.following p.ahead).kind := Parser.kind_eq rfl
  -- with nothing ahead, the current token is the closing one, which is not passed
  cases hahead : p.ahead with
  | nil =>
      refine ⟨[], ?_, ?_⟩
      · rw [Stream.advance, hahead]
        exact refl p
      · rw [hkind, hahead, Parser.following_nil, p.last_kind]
        exact fun h => absurd rfl h
  | cons t rest =>
      rw [hahead, Parser.following_cons] at hcurrent hkind
      by_cases ht : t.kind = .eof
      · refine ⟨[], ?_, fun h => absurd (hkind.trans ht) h⟩
        rw [Stream.advance, hahead]
        simp only [ht, if_pos]
        exact refl p
      · refine ⟨[t], ?_, fun _ => by rw [hcurrent]⟩
        rw [Stream.advance, hahead]
        simp only [ht, if_neg, not_false_eq_true]
        exact ⟨hahead, by simp [Parser.past], by simpa using ht⟩

end Passes

/-- What the reader has done at `p`: it has passed tokens and reported, and where it has
succeeded without a report, its result, the parser after it and the tokens passed are
`good`. -/
def Yields {α : Type} (x : Reader α) (p : Parser)
    (good : α → Parser → List Token → Prop) : Prop :=
  match x p with
  | .ok a q => ∃ ts ds, Passes p q ts ds ∧ (ds = [] → good a q ts)
  | .error _ q => ∃ ts ds, Passes p q ts ds

namespace Yields

variable {α β : Type} {p : Parser} {x : Reader α} {good good' : α → Parser → List Token → Prop}

/-- Less may be said of what is read. -/
theorem mono (h : Yields x p good) (hgood : ∀ a q ts, good a q ts → good' a q ts) :
    Yields x p good' := by
  unfold Yields at h ⊢
  split
  · rename_i a q hx
    rw [hx] at h
    obtain ⟨ts, ds, hpasses, hts⟩ := h
    exact ⟨ts, ds, hpasses, fun hds => hgood a q ts (hts hds)⟩
  · rename_i e q hx
    rwa [hx] at h

/-- A reader that only gives a result. -/
theorem pure {a : α} (h : good a p []) : Yields (Pure.pure a : Reader α) p good :=
  ⟨[], [], .refl p, fun _ => h⟩

/-- A reader that refuses has nothing to answer for. -/
theorem throw (e : SyntaxError) : Yields (MonadExcept.throw e : Reader α) p good :=
  ⟨[], [], .refl p⟩

/-- One reader after another. -/
theorem bind {f : α → Reader β} {post : β → Parser → List Token → Prop} (hx : Yields x p good)
    (hf : ∀ a q, q.forms = p.forms →
      Yields (f a) q fun b r us => ∀ ts, good a q ts → post b r (ts ++ us)) :
    Yields (x >>= f) p post := by
  have hbind : (x >>= f) p = EStateM.bind x f p := rfl
  unfold Yields at hx ⊢
  rw [hbind, EStateM.bind]
  cases hxp : x p with
  | error e q =>
      rw [hxp] at hx
      exact hx
  | ok a q =>
      rw [hxp] at hx
      obtain ⟨ts, ds, hpasses, hts⟩ := hx
      have hfa := hf a q hpasses.forms_eq
      unfold Yields at hfa
      cases hfq : f a q with
      | error e r =>
          rw [hfq] at hfa
          obtain ⟨us, es, hpasses'⟩ := hfa
          simp only [hfq]
          exact ⟨ts ++ us, ds ++ es, hpasses.trans hpasses'⟩
      | ok b r =>
          rw [hfq] at hfa
          obtain ⟨us, es, hpasses', hus⟩ := hfa
          simp only [hfq]
          refine ⟨ts ++ us, ds ++ es, hpasses.trans hpasses', fun hnil => ?_⟩
          -- if both together report nothing, neither does
          rw [List.append_eq_nil_iff] at hnil
          exact hus hnil.2 ts (hts hnil.1)

/-- Giving a function of what is read passes nothing more. -/
theorem map {post : β → Parser → List Token → Prop} (hx : Yields x p good) (f : α → β)
    (hf : ∀ a q ts, good a q ts → post (f a) q ts) :
    Yields (x >>= fun a => Pure.pure (f a)) p post := by
  refine hx.bind fun a q _ => .pure fun ts hts => ?_
  rw [List.append_nil]
  exact hf a q ts hts

/-- Looking at the parser passes nothing. -/
theorem get {f : Parser → Reader α} (h : Yields (f p) p good) :
    Yields (MonadState.get >>= f) p good := h

/-- Looking at the next kind passes nothing. -/
theorem kind {f : Kind → Reader α} (h : Yields (f p.kind) p good) :
    Yields (Reader.kind >>= f) p good := h

/-- Looking at the next line passes nothing. -/
theorem line {f : Nat → Reader α} (h : Yields (f p.current.line) p good) :
    Yields (Reader.line >>= f) p good := h

/-- A function on the parser, run as a reader. -/
theorem modifyGet {f : Parser → α × Parser} {ts : List Token} {ds : Log}
    (h : Passes p (f p).2 ts ds) (hgood : ds = [] → good (f p).1 (f p).2 ts) :
    Yields (MonadStateOf.modifyGet f : Reader α) p good :=
  ⟨ts, ds, h, hgood⟩

/-- Passing the current token gives it. -/
theorem advance (p : Parser) :
    Yields Reader.advance p fun t _ ts => t = p.current ∧ (p.kind ≠ .eof → ts = [t]) := by
  obtain ⟨ts, hpasses, hts⟩ := Passes.advance p
  exact ⟨ts, [], hpasses, fun _ => ⟨rfl, hts⟩⟩

/-- A token of the expected kind has been passed, and the one after it is current. -/
theorem expect {k : Kind} (hk : k ≠ .eof) (p : Parser) :
    Yields (Reader.expect k) p fun t q ts =>
      t.kind = k ∧ t = p.current ∧ ts = [t] ∧ q.current = p.peek 1 := by
  refine Yields.get ?_
  split
  · rename_i hkind
    obtain ⟨ts, hpasses, hts⟩ := Passes.advance p
    obtain rfl := hts (hkind ▸ hk)
    refine ⟨[p.current], [], hpasses, fun _ => ⟨hkind, rfl, rfl, ?_⟩⟩
    rw [Parser.current_eq rfl, Parser.following, hpasses.last_eq, Stream.peek, hpasses.ahead]
    rfl
  · exact .throw _

end Yields

end Tercet
