import Tercet.Proofs.Reading.Soundness

/-!
# `Tercet.Proofs.Reading.Parallel`: two runs side by side

What a reader does depends on the tokens ahead of it and on the table of forms. The tokens it
has passed do not matter, nor does what has been reported, and the bounds on nesting and on the
length of rows never come into play. All this is said by comparing two runs.

Two parsers stand beside each other if they have the same to read (`Parser.Beside`). Two readers
run `Parallel` at two such parsers if they pass the same tokens, make the same reports, and
either give the same result or refuse for the same reason. The rules follow the shape of
readers. A reader over a reader for the inside is treated under the hypothesis that the inner
readers run in parallel wherever fewer tokens remain: before an inner reader is called, some
token has been passed.

The readers of this module never report, so their runs are `silently` what `Soundness` has shown
of runs without reports.
-/

set_option autoImplicit false

namespace Tercet

open Reader Slot

/-! ### Parsers with the same to read -/

namespace Passes

variable {p q : Parser} {ts us : List Token} {ds es : Log}

/-- The tokens that remained are those passed and those that remain. -/
theorem remaining_eq (h : Passes p q ts ds) : p.remaining = ts.length + q.remaining := by
  rw [Stream.remaining, h.ahead, List.length_append]
  rfl

/-- The place moves on by as many tokens as are passed. -/
theorem position_eq (h : Passes p q ts ds) : q.position = p.position + ts.length := by
  rw [h.eq_past]
  simp [Parser.past, Stream.position, Nat.add_comm]

/-- From an end nothing can be passed. -/
theorem eq_nil_of_kind_eof (h : Passes p q ts ds) (hend : p.kind = .eof) : ts = [] := by
  cases ts with
  | nil => rfl
  | cons t ts =>
    have hkind : p.kind = t.kind := Parser.kind_eq h.ahead
    exact absurd (hkind.symm.trans hend) (h.noEnd t List.mem_cons_self)

/-- A report passes nothing. -/
theorem report (p : Parser) (d : Diagnostic) : Passes p (p.report d) [] [d] :=
  ⟨rfl, by simp [Parser.past, Parser.report], by simp⟩

/-- What has been passed and reported can be read off the two parsers. -/
theorem unique (h : Passes p q ts ds) (h' : Passes p q us es) : ts = us ∧ ds = es := by
  constructor
  · exact List.append_cancel_right (h.ahead.symm.trans h'.ahead)
  · exact List.append_cancel_left (h.log_eq.symm.trans h'.log_eq)

/-- Where the same has been passed and reported, the parsers are the same. -/
theorem right_unique {q' : Parser} (h : Passes p q ts ds) (h' : Passes p q' ts ds) : q = q' := by
  have hahead : q.ahead = q'.ahead := List.append_cancel_left (h.ahead.symm.trans h'.ahead)
  rw [h.eq_past, h'.eq_past, hahead]

/-- The token passed last is the one before. -/
theorem previousLine_eq (h : Passes p q ts ds) {t : Token} (ht : ts.getLast? = some t) :
    q.previousLine = t.line := by
  obtain ⟨before, rfl⟩ := List.getLast?_eq_some_iff.mp ht
  rw [h.eq_past, Parser.previousLine_past_concat]

end Passes

/-- The two parsers have the same tokens ahead and the same table. What they have passed and
reported may differ. -/
structure Parser.Beside (p p' : Parser) : Prop where
  ahead : p'.ahead = p.ahead
  last : p'.last = p.last
  forms : p'.forms = p.forms

namespace Parser.Beside

variable {p p' q q' : Parser} {ts : List Token} {ds : Log}

/-- A parser stands beside itself. -/
theorem refl (p : Parser) : p.Beside p :=
  ⟨rfl, rfl, rfl⟩

/-- Parsers beside each other see the same tokens ahead. -/
theorem peek (h : p.Beside p') (n : Nat) : p'.peek n = p.peek n := by
  rw [Stream.peek, Stream.peek, h.ahead, h.last]

/-- So they see the same current token. -/
theorem current (h : p.Beside p') : p'.current = p.current :=
  h.peek 0

/-- It is of the same kind. -/
theorem kind (h : p.Beside p') : p'.kind = p.kind :=
  congrArg Token.kind h.current

/-- The same number of tokens remain. -/
theorem remaining (h : p.Beside p') : p'.remaining = p.remaining :=
  congrArg List.length h.ahead

/-- A mismatch is refused in the same words. -/
theorem mismatched (h : p.Beside p') (expecting : String) :
    p'.mismatched expecting = p.mismatched expecting := by
  rw [Parser.mismatched, Parser.mismatched, h.current]

/-- So is a missing token. -/
theorem missing (h : p.Beside p') (k : Kind) : p'.missing k = p.missing k := by
  unfold Parser.missing
  rw [h.current, h.mismatched]

/-- After the same tokens, the same is left to read. -/
theorem passes (h : p.Beside p') (hq : Passes p q ts ds) (hq' : Passes p' q' ts ds) :
    q.Beside q' where
  ahead := by
    have hahead := h.ahead
    rw [hq.ahead, hq'.ahead] at hahead
    exact List.append_cancel_left hahead
  last := by rw [hq.last_eq, hq'.last_eq, h.last]
  forms := by rw [hq.forms_eq, hq'.forms_eq, h.forms]

end Parser.Beside

/-- From `p` to `q` and from `p'` to `q'` the same has been passed and reported. -/
structure Abreast (p p' q q' : Parser) (ts : List Token) (ds : Log) : Prop where
  left : Passes p q ts ds
  right : Passes p' q' ts ds
  beside : q.Beside q'

namespace Abreast

variable {p p' q q' r r' : Parser} {ts us : List Token} {ds es : Log}

/-- Before anything is passed. -/
theorem refl (h : p.Beside p') : Abreast p p' p p' [] [] :=
  ⟨.refl p, .refl p', h⟩

/-- First one row of tokens, then another. -/
theorem trans (h₁ : Abreast p p' q q' ts ds) (h₂ : Abreast q q' r r' us es) :
    Abreast p p' r r' (ts ++ us) (ds ++ es) :=
  ⟨h₁.left.trans h₂.left, h₁.right.trans h₂.right, h₂.beside⟩

/-- Once a token has been passed, the line before is the same. At the start it need not be: one
of the parsers may have passed tokens that the other has not. -/
theorem previousLine_eq (h : Abreast p p' q q' ts ds) (hts : ts ≠ []) :
    q'.previousLine = q.previousLine := by
  have hlast := List.getLast?_eq_some_getLast hts
  rw [h.left.previousLine_eq hlast, h.right.previousLine_eq hlast]

/-- The tokens that remained are those passed and those that remain. -/
theorem remaining_eq (h : Abreast p p' q q' ts ds) : p.remaining = ts.length + q.remaining :=
  h.left.remaining_eq

end Abreast

/-! ### Rules -/

/-- The readers do the same at the two parsers. If they succeed, their result, the first parser
after them, the tokens passed and the reports are `good`. -/
inductive Parallel {α : Type} (x y : Reader α) (p p' : Parser)
    (good : α → Parser → List Token → Log → Prop) : Prop where
  | gives {a : α} {q q' : Parser} {ts : List Token} {ds : Log} (hx : x p = .ok a q)
      (hy : y p' = .ok a q') (h : Abreast p p' q q' ts ds) (hgood : good a q ts ds)
  | refuses {e : SyntaxError} {q q' : Parser} {ts : List Token} {ds : Log}
      (hx : x p = .error e q) (hy : y p' = .error e q') (h : Abreast p p' q q' ts ds)

/-- Nothing has been reported, and the rest is as it should be. -/
def silently {α : Type} (good : α → Parser → List Token → Prop) :
    α → Parser → List Token → Log → Prop :=
  fun a q ts ds => ds = [] ∧ good a q ts

/-- Nothing has been reported. -/
abbrev quietly {α : Type} : α → Parser → List Token → Log → Prop :=
  silently fun _ _ _ => True

/-- After a reader that succeeds comes the next. -/
theorem Reader.bind_of_ok {α β : Type} {x : Reader α} {p q : Parser} {a : α}
    (h : x p = .ok a q) (f : α → Reader β) : (x >>= f) p = f a q := by
  show EStateM.bind x f p = _
  rw [EStateM.bind, h]

/-- A reader that refuses is the last. -/
theorem Reader.bind_of_error {α β : Type} {x : Reader α} {p q : Parser} {e : SyntaxError}
    (h : x p = .error e q) (f : α → Reader β) : (x >>= f) p = .error e q := by
  show EStateM.bind x f p = _
  rw [EStateM.bind, h]

/-- A function on the parser, run as a reader, succeeds. -/
theorem Reader.modifyGet_of_eq {α : Type} {f : Parser → α × Parser} {p q : Parser} {a : α}
    (h : f p = (a, q)) : (modifyGet f : Reader α) p = .ok a q := by
  have hok : (modifyGet f : Reader α) p = .ok (f p).1 (f p).2 := rfl
  rw [hok, h]

namespace Parallel

variable {α β : Type} {x y : Reader α} {p p' : Parser}
  {good good' : α → Parser → List Token → Log → Prop}

/-- Less may be said of what is read. -/
theorem mono (h : Parallel x y p p' good)
    (hgood : ∀ a q ts ds, good a q ts ds → good' a q ts ds) : Parallel x y p p' good' := by
  cases h with
  | gives hx hy h hread => exact .gives hx hy h (hgood _ _ _ _ hread)
  | refuses hx hy h => exact .refuses hx hy h

/-- Only what the readers do at these parsers matters. -/
theorem congr {x₁ y₁ : Reader α} (h : Parallel x₁ y₁ p p' good) (hx : x p = x₁ p)
    (hy : y p' = y₁ p') : Parallel x y p p' good := by
  cases h with
  | gives hx₁ hy₁ h hgood => exact .gives (hx.trans hx₁) (hy.trans hy₁) h hgood
  | refuses hx₁ hy₁ h => exact .refuses (hx.trans hx₁) (hy.trans hy₁) h

/-- At one parser, two readers that do the same give the same. -/
theorem eq (h : Parallel x y p p good) : x p = y p := by
  cases h with
  | gives hx hy h hgood => rw [hx, hy, h.left.right_unique h.right]
  | refuses hx hy h => rw [hx, hy, h.left.right_unique h.right]

/-- Readers that only give a result. -/
theorem pure {a : α} (hb : p.Beside p') (h : good a p [] []) :
    Parallel (Pure.pure a : Reader α) (Pure.pure a) p p' good :=
  .gives rfl rfl (.refl hb) h

/-- Readers that refuse in the same words. -/
theorem throw (hb : p.Beside p') (e : SyntaxError) :
    Parallel (MonadExcept.throw e : Reader α) (MonadExcept.throw e) p p' good :=
  .refuses rfl rfl (.refl hb)

/-- One reader after another, on both sides. -/
theorem bind {f g : α → Reader β} {post : β → Parser → List Token → Log → Prop}
    (h : Parallel x y p p' good)
    (hfg : ∀ a q q' ts ds, Abreast p p' q q' ts ds → good a q ts ds →
      Parallel (f a) (g a) q q' fun b r us es => post b r (ts ++ us) (ds ++ es)) :
    Parallel (x >>= f) (y >>= g) p p' post := by
  cases h with
  | refuses hx hy h => exact .refuses (bind_of_error hx f) (bind_of_error hy g) h
  | gives hx hy h hgood =>
    have hf := bind_of_ok hx f
    have hg := bind_of_ok hy g
    cases hfg _ _ _ _ _ h hgood with
    | gives hfx hgy h' hpost => exact .gives (hf.trans hfx) (hg.trans hgy) (h.trans h') hpost
    | refuses hfx hgy h' => exact .refuses (hf.trans hfx) (hg.trans hgy) (h.trans h')

/-- A function of what is read, on both sides. -/
theorem map {post : β → Parser → List Token → Log → Prop} (h : Parallel x y p p' good)
    (f : α → β) (hf : ∀ a q ts ds, good a q ts ds → post (f a) q ts ds) :
    Parallel (x >>= fun a => Pure.pure (f a)) (y >>= fun a => Pure.pure (f a)) p p' post := by
  refine h.bind fun a q q' ts ds hq hgood => .pure hq.beside ?_
  rw [List.append_nil, List.append_nil]
  exact hf a q ts ds hgood

/-- One reader after another, both without reports. -/
theorem bind_silently {P : α → Parser → List Token → Prop} {Q : β → Parser → List Token → Prop}
    {f g : α → Reader β} (h : Parallel x y p p' (silently P))
    (hfg : ∀ a q q' ts, Abreast p p' q q' ts [] → P a q ts →
      Parallel (f a) (g a) q q' (silently fun b r us => Q b r (ts ++ us))) :
    Parallel (x >>= f) (y >>= g) p p' (silently Q) := by
  refine h.bind fun a q q' ts ds hq hgood => ?_
  obtain ⟨rfl, hP⟩ := hgood
  exact hfg a q q' ts hq hP

/-- A result alone is given without reports. -/
theorem pure_quietly {a : α} (hb : p.Beside p') :
    Parallel (Pure.pure a : Reader α) (Pure.pure a) p p' quietly :=
  .pure hb ⟨rfl, trivial⟩

/-- A function of what is read without reports. -/
theorem map_quietly {P : α → Parser → List Token → Prop} (h : Parallel x y p p' (silently P))
    (f : α → β) :
    Parallel (x >>= fun a => Pure.pure (f a)) (y >>= fun a => Pure.pure (f a)) p p' quietly :=
  h.map f fun _ _ _ _ hP => ⟨hP.1, trivial⟩

/-- Only that nothing has been reported is kept. -/
theorem quiet {P : α → Parser → List Token → Prop} (h : Parallel x y p p' (silently P)) :
    Parallel x y p p' quietly :=
  h.mono fun _ _ _ _ hP => ⟨hP.1, trivial⟩

/-- Looking at the parsers passes nothing. -/
theorem get {f g : Parser → Reader α} (h : Parallel (f p) (g p') p p' good) :
    Parallel (MonadState.get >>= f) (MonadState.get >>= g) p p' good :=
  h.congr rfl rfl

/-- Looking at the next kind passes nothing. -/
theorem kind {f g : Kind → Reader α} (hb : p.Beside p')
    (h : Parallel (f p.kind) (g p.kind) p p' good) :
    Parallel (Reader.kind >>= f) (Reader.kind >>= g) p p' good :=
  h.congr rfl (by rw [← hb.kind]; rfl)

/-- Looking at the next line passes nothing. -/
theorem line {f g : Nat → Reader α} (hb : p.Beside p')
    (h : Parallel (f p.current.line) (g p.current.line) p p' good) :
    Parallel (Reader.line >>= f) (Reader.line >>= g) p p' good :=
  h.congr rfl (by rw [← hb.current]; rfl)

/-- Passing the current token, unless it is an end. -/
theorem advance (hb : p.Beside p') :
    Parallel Reader.advance Reader.advance p p'
      (silently fun t _ ts => t = p.current ∧ (p.kind ≠ .eof → ts = [t])) := by
  obtain ⟨ts, hp, hts⟩ := Passes.advance p
  obtain ⟨ts', hp', hts'⟩ := Passes.advance p'
  have hsame : ts' = ts := by
    by_cases hend : p.kind = .eof
    · rw [hp.eq_nil_of_kind_eof hend, hp'.eq_nil_of_kind_eof (hb.kind.trans hend)]
    · rw [hts hend, hts' (by rwa [hb.kind]), hb.current]
  subst hsame
  refine .gives rfl ?_ ⟨hp, hp', hb.passes hp hp'⟩ ⟨rfl, rfl, hts⟩
  show EStateM.Result.ok p'.current _ = _
  rw [hb.current]

/-- A token that is no end is passed. -/
theorem advance_of_ne (hb : p.Beside p') (hkind : p.kind ≠ .eof) :
    Parallel Reader.advance Reader.advance p p'
      (silently fun t _ ts => t = p.current ∧ ts = [t]) :=
  (advance hb).mono fun _ _ _ _ h => ⟨h.1, h.2.1, h.2.2 hkind⟩

/-- A token of the expected kind is passed on both sides, or refused on both. -/
theorem expect (hb : p.Beside p') {k : Kind} (hk : k ≠ .eof) :
    Parallel (Reader.expect k) (Reader.expect k) p p'
      (silently fun t _ ts => t.kind = k ∧ t = p.current ∧ ts = [t]) := by
  refine Parallel.get ?_
  simp only [hb.kind, hb.missing]
  split
  · rename_i hkind
    refine (advance_of_ne hb (hkind ▸ hk)).mono ?_
    rintro t q ts ds ⟨hds, rfl, hts⟩
    exact ⟨hds, hkind, rfl, hts⟩
  · exact .throw hb _

/-- Functions on parsers, run as readers, do not refuse. -/
theorem of_modifyGet {f g : Parser → α × Parser}
    (h : Parallel (MonadStateOf.modifyGet f) (MonadStateOf.modifyGet g) p p' good) :
    (g p').1 = (f p).1 ∧
      ∃ ts ds, Abreast p p' (f p).2 (g p').2 ts ds ∧ good (f p).1 (f p).2 ts ds := by
  cases h with
  | refuses hx hy h => cases hx
  | @gives a q q' ts ds hx hy h hgood =>
    have hf : (EStateM.Result.ok (f p).1 (f p).2 : EStateM.Result SyntaxError Parser α)
        = .ok a q := hx
    have hg : (EStateM.Result.ok (g p').1 (g p').2 : EStateM.Result SyntaxError Parser α)
        = .ok a q' := hy
    injection hf with ha hq
    injection hg with ha' hq'
    subst ha hq hq'
    exact ⟨ha', ts, ds, h, hgood⟩

/-- What is known of runs without reports, added to a run that makes none. -/
theorem yields {P : α → Parser → List Token → Prop} (h : Parallel x y p p' quietly)
    (hyields : Yields x p P) : Parallel x y p p' (silently P) := by
  cases h with
  | refuses hx hy h => exact .refuses hx hy h
  | gives hx hy h hgood =>
    rw [Yields, hx] at hyields
    obtain ⟨us, es, hpasses, hP⟩ := hyields
    obtain ⟨rfl, rfl⟩ := h.left.unique hpasses
    exact .gives hx hy h ⟨hgood.1, hP hgood.1⟩

end Parallel

/-! ### Rows -/

/-- A parser without tokens stands at an end. -/
theorem Parser.kind_of_remaining {p : Parser} (h : p.remaining = 0) : p.kind = .eof := by
  have hnil : p.ahead = [] := List.eq_nil_of_length_eq_zero h
  rw [Parser.kind_eq hnil, Parser.following_nil, p.last_kind]

/-- With room for all tokens that remain, items are read on after each comma. -/
theorem moreWithin_of_remaining {α : Type} (item : Reader α) {room : Nat} {p : Parser}
    (hroom : p.remaining ≤ room) :
    moreWithin item room p
      = (do
          if (← Reader.kind) = .comma then
            let _ ← advance
            let first ← item
            let others ← moreWithin item (room - 1)
            return first :: others
          else
            return [] : Reader (List α)) p := by
  cases room with
  | succ room => rfl
  | zero =>
    show _ = (if p.kind = .comma then _ else _ : Reader (List α)) p
    rw [Parser.kind_of_remaining (Nat.le_zero.mp hroom)]
    rfl

/-- With room for all tokens that remain, operands are read on after each operator. -/
theorem chainWithin_of_remaining {α β : Type} {op? : Kind → Option BinaryOp}
    (hend : op? .eof = none) (operand : Reader β) (join : α → BinaryOp → β → α) {room : Nat}
    (left : α) {p : Parser} (hroom : p.remaining ≤ room) :
    chainWithin op? operand join room left p
      = (do
          match op? (← Reader.kind) with
          | none => return left
          | some op =>
            let _ ← advance
            let right ← operand
            chainWithin op? operand join (room - 1) (join left op right) : Reader α) p := by
  cases room with
  | succ room => rfl
  | zero =>
    -- without room nothing is left but the end, which is no operator
    have hnone : op? p.kind = none := by
      rw [Parser.kind_of_remaining (Nat.le_zero.mp hroom), hend]
    symm
    show (match op? p.kind with | none => _ | some op => _ : Reader α) p = _
    rw [hnone]
    rfl

section Rows

variable {α : Type} {item item' : Reader α} {n : Nat}
  (hitem : ∀ q q', q.Beside q' → q.remaining < n → Parallel item item' q q' quietly)

include hitem

/-- Items after commas are read alike, with any room for them. -/
theorem parallel_moreWithin {room room' : Nat} {p p' : Parser} (hb : p.Beside p')
    (hn : p.remaining ≤ n) (hroom : p.remaining ≤ room) (hroom' : p.remaining ≤ room') :
    Parallel (moreWithin item room) (moreWithin item' room') p p' quietly := by
  -- each round passes a comma, so the tokens that remain become fewer
  induction hm : p.remaining using Nat.strong_induction_on generalizing room room' p p' with
  | _ m ih =>
    subst hm
    refine Parallel.congr ?_ (moreWithin_of_remaining item hroom)
      (moreWithin_of_remaining item' (by rwa [hb.remaining]))
    refine Parallel.kind hb ?_
    split
    · rename_i hkind
      refine (Parallel.advance_of_ne hb (by rw [hkind]; decide)).bind_silently ?_
      rintro t q q' _ hq ⟨-, rfl⟩
      have hq₁ : p.remaining = 1 + q.remaining := hq.remaining_eq
      refine (hitem q q' hq.beside (by omega)).bind_silently fun a r r' us hr _ => ?_
      have hr₁ := hr.remaining_eq
      exact (ih r.remaining (by omega) hr.beside (by omega) (by omega) (by omega) rfl).map_quietly _
    · exact .pure_quietly hb

/-- So is a row of items. -/
theorem parallel_separated {p p' : Parser} (hb : p.Beside p') (hn : p.remaining < n) :
    Parallel (separated item) (separated item') p p' quietly := by
  refine (hitem p p' hb hn).bind_silently fun a q q' ts hq _ => Parallel.get ?_
  have hq₁ := hq.remaining_eq
  have hq₂ := hq.beside.remaining
  exact (parallel_moreWithin hitem hq.beside (by omega) (Nat.le_refl _) (by omega)).map_quietly _

/-- Operands after operators are read alike, with any room for them. The tokens that remain become
fewer with each operator. -/
theorem parallel_chainWithin {β : Type} {op? : Kind → Option BinaryOp} (hend : op? .eof = none)
    (join : β → BinaryOp → α → β) {room room' : Nat} (left : β) {p p' : Parser}
    (hb : p.Beside p') (hn : p.remaining ≤ n) (hroom : p.remaining ≤ room)
    (hroom' : p.remaining ≤ room') :
    Parallel (chainWithin op? item join room left) (chainWithin op? item' join room' left) p p'
      quietly := by
  induction hm : p.remaining using Nat.strong_induction_on generalizing room room' left p p' with
  | _ m ih =>
    subst hm
    -- both rooms are large enough for one more round
    refine Parallel.congr ?_ (chainWithin_of_remaining hend item join left hroom)
      (chainWithin_of_remaining hend item' join left (by rwa [hb.remaining]))
    refine Parallel.kind hb ?_
    cases hop : op? p.kind with
    | none => exact .pure_quietly hb
    | some op =>
      have hkind : p.kind ≠ .eof := by
        intro hkind
        rw [hkind, hend] at hop
        cases hop
      refine (Parallel.advance_of_ne hb hkind).bind_silently ?_
      rintro t q q' _ hq ⟨-, rfl⟩
      have hq₁ : p.remaining = 1 + q.remaining := hq.remaining_eq
      refine (hitem q q' hq.beside (by omega)).bind_silently fun a r r' us hr _ => ?_
      have hr₁ := hr.remaining_eq
      exact ih r.remaining (by omega) _ hr.beside (by omega) (by omega) (by omega) rfl

/-- So is a row of operands. -/
theorem parallel_chain {β : Type} {op? : Kind → Option BinaryOp} (hend : op? .eof = none)
    (join : β → BinaryOp → α → β) (left : β) {p p' : Parser} (hb : p.Beside p')
    (hn : p.remaining ≤ n) :
    Parallel (chain op? item join left) (chain op? item' join left) p p' quietly :=
  Parallel.get (parallel_chainWithin hitem hend join left hb hn (Nat.le_refl _)
    (Nat.le_of_eq hb.remaining.symm))

end Rows

/-! ### Expressions -/

section Layers

variable {inner inner' : Reader Expr} {n : Nat}
  (hinner : ∀ q q', q.Beside q' → q.remaining < n → Parallel inner inner' q q' quietly)

include hinner

/-- Arguments are read alike. -/
theorem parallel_argumentsOf {p p' : Parser} (hb : p.Beside p') (hn : p.remaining < n) :
    Parallel (argumentsOf inner) (argumentsOf inner') p p' quietly := by
  refine Parallel.kind hb ?_
  split
  · exact .pure_quietly hb
  · exact parallel_separated hinner hb hn

/-- The inner reader is called after a parenthesis. -/
theorem parallel_factorOf {p p' : Parser} (hb : p.Beside p') (hn : p.remaining ≤ n) :
    Parallel (factorOf inner) (factorOf inner') p p' quietly := by
  refine Parallel.get ?_
  rw [hb.kind, hb.current]
  split
  -- a number
  · rename_i hkind
    exact (Parallel.advance hb).map_quietly _
  -- a name, perhaps called
  · rename_i hkind
    refine (Parallel.advance hb).bind_silently fun t q q' ts hq _ => Parallel.kind hq.beside ?_
    have hq₁ := hq.remaining_eq
    split
    · rename_i hopen
      refine (Parallel.advance_of_ne hq.beside (by rw [hopen]; decide)).bind_silently ?_
      rintro o r r' _ hr ⟨-, rfl⟩
      have hr₁ : q.remaining = 1 + r.remaining := hr.remaining_eq
      refine (parallel_argumentsOf hinner hr.beside (by omega)).bind_silently ?_
      intro es u u' us hu _
      exact (Parallel.expect hu.beside (by decide)).map_quietly _
    · exact .pure_quietly hq.beside
  -- an expression in parentheses
  · rename_i hkind
    refine (Parallel.advance_of_ne hb (by rw [hkind]; decide)).bind_silently ?_
    rintro o q q' _ hq ⟨-, rfl⟩
    have hq₁ : p.remaining = 1 + q.remaining := hq.remaining_eq
    refine (hinner q q' hq.beside (by omega)).bind_silently fun e r r' us hr _ => ?_
    exact (Parallel.expect hr.beside (by decide)).map_quietly _
  · rw [hb.mismatched]
    exact .throw hb _

/-- A term is read alike: a factor, then its products, then its comparisons. -/
theorem parallel_termOf {p p' : Parser} (hb : p.Beside p') (hn : p.remaining ≤ n) :
    Parallel (termOf inner) (termOf inner') p p' quietly := by
  -- factors after the first start with fewer tokens, and these are one more than enough
  have hfactor (q q' : Parser) (hq : q.Beside q') (hlt : q.remaining < n + 1) :=
    parallel_factorOf hinner hq (Nat.le_of_lt_succ hlt)
  refine (parallel_factorOf hinner hb hn).bind_silently fun f q q' ts hq _ => ?_
  have hq₁ := hq.remaining_eq
  refine (parallel_chain hfactor rfl _ _ hq.beside (by omega)).bind_silently ?_
  intro product r r' us hr _
  have hr₁ := hr.remaining_eq
  exact parallel_chain hfactor rfl _ _ hr.beside (by omega)

/-- An expression is read alike: a term, then its sums. -/
theorem parallel_exprOf {p p' : Parser} (hb : p.Beside p') (hn : p.remaining ≤ n) :
    Parallel (exprOf inner) (exprOf inner') p p' quietly := by
  have hterm (q q' : Parser) (hq : q.Beside q') (hlt : q.remaining < n + 1) :=
    parallel_termOf hinner hq (Nat.le_of_lt_succ hlt)
  refine (parallel_termOf hinner hb hn).bind_silently fun t q q' ts hq _ => ?_
  have hq₁ := hq.remaining_eq
  exact parallel_chain hterm rfl _ _ hq.beside (by omega)

end Layers

/-- Any bound on nesting will do that is no smaller than the number of tokens. -/
theorem parallel_exprWithin {depth depth' : Nat} {p p' : Parser} (hb : p.Beside p')
    (hdepth : p.remaining ≤ depth) (hdepth' : p.remaining ≤ depth') :
    Parallel (exprWithin depth) (exprWithin depth') p p' quietly := by
  induction depth generalizing depth' p p' with
  | zero =>
    -- no tokens, so the reader for the inside is not called
    have hnone (q : Parser) (h : q.remaining < p.remaining) : False := by omega
    cases depth' with
    | zero => exact parallel_exprOf (fun q _ _ h => (hnone q h).elim) hb (Nat.le_refl _)
    | succ depth' => exact parallel_exprOf (fun q _ _ h => (hnone q h).elim) hb (Nat.le_refl _)
  | succ depth ih =>
    cases depth' with
    | zero =>
      refine parallel_exprOf (fun q _ _ h => ?_) hb (Nat.le_refl _)
      omega
    | succ depth' =>
      refine parallel_exprOf (fun q q' hq h => ?_) hb (Nat.le_refl _)
      exact ih hq (by omega) (by omega)

/-- An expression is read alike, and what is read spells it. -/
theorem parallel_expr {p p' : Parser} (hb : p.Beside p') :
    Parallel expr expr p p' (silently (Spelled Expr.slots fun e => e.wellFormed = true)) :=
  Parallel.yields (Parallel.get (parallel_exprWithin hb (Nat.le_refl _)
    (Nat.le_of_eq hb.remaining.symm))) (yields_expr p)

/-! ### Parts of statements -/

section Parts

variable {p p' : Parser} (hb : p.Beside p')

include hb

/-- A type is read alike. -/
theorem parallel_dataType : Parallel dataType dataType p p'
    (silently fun type _ ts => p.current.kind = type.kind ∧ ts = [p.current]) := by
  refine Parallel.yields (Parallel.get ?_) (yields_dataType p)
  rw [hb.kind, hb.mismatched]
  split
  · exact (Parallel.advance hb).map_quietly _
  · exact .throw hb _

/-- A declared name is read alike. -/
theorem parallel_declarator : Parallel declarator declarator p p' quietly := by
  refine (Parallel.expect hb (by decide)).bind_silently fun t q q' ts hq _ => ?_
  refine Parallel.kind hq.beside ?_
  split
  · refine (Parallel.advance hq.beside).bind_silently fun a r r' us hr _ => ?_
    exact (parallel_expr hr.beside).map_quietly _
  · exact .pure_quietly hq.beside

/-- A declaration is read alike, or refused alike where its type is `void`. -/
theorem parallel_declaration : Parallel declaration declaration p p'
    (silently (Spelled Declaration.slots fun d => d.wellFormed = true)) := by
  refine Parallel.yields (Parallel.get ?_) (yields_declaration p)
  rw [hb.kind, hb.current, hb.peek]
  split
  · exact .throw hb _
  · refine (parallel_dataType hb).bind_silently fun type q q' ts hq _ => ?_
    exact (parallel_separated (fun r r' hr _ => parallel_declarator hr) hq.beside
      (Nat.lt_succ_self _)).map_quietly _

/-- An assignment is read alike. -/
theorem parallel_assignment : Parallel assignment assignment p p'
    (silently (Spelled Assignment.slots fun a => a.value.wellFormed = true)) := by
  refine Parallel.yields (Parallel.line hb ?_) (yields_assignment p)
  refine (Parallel.expect hb (by decide)).bind_silently fun t q q' ts hq _ => Parallel.get ?_
  rw [hq.beside.kind, hq.beside.current]
  split
  · exact .throw hq.beside _
  · refine (Parallel.advance hq.beside).bind_silently fun o r r' us hr _ => ?_
    exact (parallel_expr hr.beside).map_quietly _

/-- A parameter is read alike. -/
theorem parallel_parameter : Parallel parameter parameter p p' quietly := by
  refine (parallel_dataType hb).bind_silently fun type q q' ts hq _ => ?_
  exact (Parallel.expect hq.beside (by decide)).map_quietly _

/-- So are parameters, perhaps none. -/
theorem parallel_parameters : Parallel parameters parameters p p'
    (silently fun qs _ ts => Spells (Slot.separated (qs.map Parameter.slots)) ts) := by
  refine Parallel.yields (Parallel.kind hb ?_) (yields_parameters p)
  split
  · exact .pure_quietly hb
  · exact parallel_separated (fun q q' hq _ => parallel_parameter hq) hb (Nat.lt_succ_self _)

/-- A condition is read alike. -/
theorem parallel_condition : Parallel condition condition p p'
    (silently (Spelled conditionSlots fun e => e.wellFormed = true)) := by
  refine Parallel.yields ?_ (yields_condition p)
  refine (Parallel.expect hb (by decide)).bind_silently fun o q q' ts hq _ => ?_
  refine (parallel_expr hq.beside).bind_silently fun e r r' us hr _ => ?_
  exact (Parallel.expect hr.beside (by decide)).map_quietly _

/-- A part that may be left out is read alike if it is there. -/
theorem parallel_optionalBefore {α : Type} {part : Reader α}
    {P : α → Parser → List Token → Prop} {good : Option α → Parser → List Token → Prop}
    (close : Kind) (hpart : Parallel part part p p' (silently P))
    (hyields : Yields (optionalBefore close part) p good) :
    Parallel (optionalBefore close part) (optionalBefore close part) p p' (silently good) := by
  refine Parallel.yields (Parallel.kind hb ?_) hyields
  split
  · exact .pure_quietly hb
  · exact hpart.map_quietly _

/-- The start of a counted loop is read alike. -/
theorem parallel_forInit : Parallel forInit forInit p p'
    (silently (Spelled (optionSlots ForInit.slots) fun o => o.all ForInit.wellFormed = true)) := by
  refine Parallel.yields (Parallel.kind hb ?_) (yields_forInit p)
  split
  · exact .pure_quietly hb
  · split
    · exact (parallel_declaration hb).map_quietly _
    · exact (parallel_assignment hb).map_quietly _

/-- The step of a counted loop is read alike. -/
theorem parallel_forStep : Parallel forStep forStep p p' quietly := by
  have hsigned (f : Token → ForStep) :
      Parallel (do let t ← expect .identifier; let _ ← advance; return f t)
        (do let t ← expect .identifier; let _ ← advance; return f t) p p' quietly := by
    refine (Parallel.expect hb (by decide)).bind_silently fun t q q' ts hq _ => ?_
    exact (Parallel.advance hq.beside).map_quietly _
  refine Parallel.get ?_
  rw [hb.peek, hb.current]
  split
  · exact hsigned fun t => .increment t.text p.current.line
  · exact hsigned fun t => .decrement t.text p.current.line
  · exact (parallel_assignment hb).map_quietly _

end Parts

end Tercet
