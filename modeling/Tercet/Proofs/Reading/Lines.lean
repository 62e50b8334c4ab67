import Tercet.Proofs.Reading.Soundness

/-!
# `Tercet.Proofs.Reading.Lines`: where reading finds its lines

Reading makes up no lines. If the lines of the tokens never go back (`Stream.Orderly`), then
whatever is reported stands on the line of a token, the reports come in the order of the lines,
and the lines that the program keeps are lines of tokens as well (`located_ofTokens`).

`Locates L x p good` says so of one reader, with success or without: the reports that it has made
lie between the line of the next token before and that of the next token after
(`Places.within`), and where it refuses, its error is on the line of the token at which it stands.
The rules follow the shape of readers. Recovery fits in: the error is reported at the token where
the reader stopped, and skipping only goes on from there.
-/

set_option autoImplicit false

namespace Tercet

open Reader Slot

variable {L : Nat → Prop}

/-! ### Lines ahead -/

namespace Stream

/-- The lines of the tokens to be read, the closing one included. -/
def linesAhead (s : Stream) : List Nat :=
  (s.ahead ++ [s.last]).map Token.line

/-- All lines ahead are among `L`, and they never go back. -/
structure Orderly (L : Nat → Prop) (s : Stream) : Prop where
  known : ∀ line ∈ s.linesAhead, L line
  sorted : s.linesAhead.Pairwise (· ≤ ·)

/-- The next token is the first of those ahead. -/
theorem exists_linesAhead (s : Stream) : ∃ more, s.linesAhead = s.current.line :: more := by
  cases hahead : s.ahead with
  | nil => exact ⟨[], by simp [linesAhead, current, peek, hahead]⟩
  | cons t ts => exact ⟨_, by simp only [linesAhead, current, peek, hahead]; rfl⟩

/-- The line of the next token is a known one, at the end of the row as well, since the closing
token has a line too. -/
theorem Orderly.current {s : Stream} (h : s.Orderly L) : L s.current.line := by
  obtain ⟨more, hmore⟩ := s.exists_linesAhead
  exact h.known _ (by rw [hmore]; exact List.mem_cons_self)

/-- No line ahead is before that of the next token. -/
theorem Orderly.current_le {s : Stream} (h : s.Orderly L) {line : Nat}
    (hline : line ∈ s.linesAhead) : s.current.line ≤ line := by
  obtain ⟨more, hmore⟩ := s.exists_linesAhead
  have hsorted := h.sorted
  rw [hmore] at hline hsorted
  rcases List.mem_cons.mp hline with heq | hmem
  · exact Nat.le_of_eq heq.symm
  · exact (List.pairwise_cons.mp hsorted).1 line hmem

end Stream

namespace Passes

variable {p q : Parser} {ts : List Token} {ds : Log}

/-- The lines ahead are those of the tokens to be passed and those that are ahead after them. -/
theorem linesAhead_eq (h : Passes p q ts ds) :
    p.linesAhead = ts.map Token.line ++ q.linesAhead := by
  rw [Stream.linesAhead, Stream.linesAhead, h.ahead, h.last_eq, List.append_assoc,
    List.map_append]

/-- What is ahead later is a part of what is ahead now, so order and lines are kept. -/
theorem orderly (h : Passes p q ts ds) (hp : p.Orderly L) : q.Orderly L := by
  have hlines := h.linesAhead_eq
  refine ⟨fun line hline => hp.known line ?_, ?_⟩
  · rw [hlines]
    exact List.mem_append_right _ hline
  · have hsorted := hp.sorted
    rw [hlines] at hsorted
    exact (List.pairwise_append.mp hsorted).2.1

/-- Passing tokens never goes back: the next token after them is one of those that were ahead. -/
theorem current_le (h : Passes p q ts ds) (hp : p.Orderly L) :
    p.current.line ≤ q.current.line := by
  obtain ⟨more, hmore⟩ := q.exists_linesAhead
  refine hp.current_le ?_
  rw [h.linesAhead_eq, hmore]
  exact List.mem_append_right _ List.mem_cons_self

end Passes

/-! ### Reports on the way -/

/-- What is reported from `p` to `q` is in the order of the lines, between the next token of
`p` and that of `q`. -/
structure Places (L : Nat → Prop) (p q : Parser) (ds : Log) : Prop where
  known : ∀ d ∈ ds, L d.line
  family : ∀ d ∈ ds, d.family = .syntactic
  within : ∀ d ∈ ds, p.current.line ≤ d.line ∧ d.line ≤ q.current.line
  sorted : (ds.map Diagnostic.line).Pairwise (· ≤ ·)

/-- From `p` to `q` tokens have been passed, and the reports are in their places. -/
def Reaches (L : Nat → Prop) (p q : Parser) : Prop :=
  ∃ ts ds, Passes p q ts ds ∧ Places L p q ds

/-- Silence is in its place. -/
theorem places_nil (p q : Parser) : Places L p q [] where
  known := List.forall_mem_nil _
  family := List.forall_mem_nil _
  within := List.forall_mem_nil _
  sorted := .nil

/-- One report at the next token is in its place, however far reading goes after it. -/
theorem places_singleton {p q : Parser} {d : Diagnostic} (hknown : L d.line)
    (hfamily : d.family = .syntactic) (hline : d.line = p.current.line)
    (hle : p.current.line ≤ q.current.line) : Places L p q [d] where
  known := List.forall_mem_singleton.mpr hknown
  family := List.forall_mem_singleton.mpr hfamily
  within := List.forall_mem_singleton.mpr ⟨Nat.le_of_eq hline.symm, hline ▸ hle⟩
  sorted := List.pairwise_singleton _ _

namespace Reaches

variable {p q r : Parser}

/-- Standing still reports nothing. -/
theorem refl (p : Parser) : Reaches L p p :=
  ⟨[], [], .refl p, places_nil p p⟩

/-- Lines stay in order ahead of wherever reading gets to. -/
theorem orderly (h : Reaches L p q) (hp : p.Orderly L) : q.Orderly L := by
  obtain ⟨ts, ds, hpasses, _⟩ := h
  exact hpasses.orderly hp

/-- Two ways one after the other: the reports of the first lie before the middle, those of the
second behind it, so together they are still in order. -/
theorem trans (hp : p.Orderly L) (h : Reaches L p q) (h' : Reaches L q r) : Reaches L p r := by
  have hq := h.orderly hp
  obtain ⟨ts, ds, hpasses, hplaces⟩ := h
  obtain ⟨us, es, hpasses', hplaces'⟩ := h'
  have hpq := hpasses.current_le hp
  have hqr := hpasses'.current_le hq
  refine ⟨ts ++ us, ds ++ es, hpasses.trans hpasses', ?_, ?_, ?_, ?_⟩
  · exact List.forall_mem_append.mpr ⟨hplaces.known, hplaces'.known⟩
  · exact List.forall_mem_append.mpr ⟨hplaces.family, hplaces'.family⟩
  · refine List.forall_mem_append.mpr ⟨fun d hd => ?_, fun d hd => ?_⟩
    · exact ⟨(hplaces.within d hd).1, Nat.le_trans (hplaces.within d hd).2 hqr⟩
    · exact ⟨Nat.le_trans hpq (hplaces'.within d hd).1, (hplaces'.within d hd).2⟩
  · -- the line at `q` stands between the first reports and the others
    rw [List.map_append, List.pairwise_append]
    refine ⟨hplaces.sorted, hplaces'.sorted, ?_⟩
    intro line hline line' hline'
    obtain ⟨d, hd, rfl⟩ := List.mem_map.mp hline
    obtain ⟨e, he, rfl⟩ := List.mem_map.mp hline'
    exact Nat.le_trans (hplaces.within d hd).2 (hplaces'.within e he).1

/-- A report at the next token. -/
theorem report (hp : p.Orderly L) {d : Diagnostic} (hfamily : d.family = .syntactic)
    (hline : d.line = p.current.line) : Reaches L p (p.report d) := by
  refine ⟨[], [d], ⟨rfl, by simp [Parser.past, Parser.report], by simp⟩, ?_⟩
  exact places_singleton (hline ▸ hp.current) hfamily hline (Nat.le_refl _)

/-- A report at the next token, and the rest of a broken statement passed. -/
theorem synchronize (hp : p.Orderly L) {d : Diagnostic} (hfamily : d.family = .syntactic)
    (hline : d.line = p.current.line) (start : Nat) :
    Reaches L p { p.report d with toStream := p.toStream.synchronize start } := by
  obtain ⟨us, hpasses⟩ := exists_passes_synchronize p d start
  exact ⟨us, [d], hpasses,
    places_singleton (hline ▸ hp.current) hfamily hline (hpasses.current_le hp)⟩

end Reaches

/-- A token that is missing is missing in front of the next one. Marks and other kinds have two
different errors, and both are on the line of that token. -/
theorem Parser.line_missing (p : Parser) (k : Kind) : (p.missing k).line = p.current.line := by
  cases k <;> rfl

/-! ### Rules -/

/-- What the reader has done at `p`: its reports are in their places, and it gives something
`good` or refuses on the line of the token at which it stands. -/
def Locates {α : Type} (L : Nat → Prop) (x : Reader α) (p : Parser) (good : α → Prop) : Prop :=
  match x p with
  | .ok a q => Reaches L p q ∧ good a
  | .error e q => Reaches L p q ∧ e.line = q.current.line

namespace Locates

variable {α β : Type} {p : Parser} {x : Reader α} {good : α → Prop} {post : β → Prop}

/-- A reader that only returns is in its place. -/
theorem pure {a : α} (h : good a) : Locates L (Pure.pure a : Reader α) p good :=
  ⟨.refl p, h⟩

/-- An error on the line of the next token is in its place. -/
theorem throw {e : SyntaxError} (h : e.line = p.current.line) :
    Locates L (MonadExcept.throw e : Reader α) p good :=
  ⟨.refl p, h⟩

/-- One reader after another. The second starts where the first has got to, which is orderly
again. -/
theorem bind {f : α → Reader β} (hp : p.Orderly L) (hx : Locates L x p good)
    (hf : ∀ a q, q.Orderly L → good a → Locates L (f a) q post) :
    Locates L (x >>= f) p post := by
  have hbind : (x >>= f) p = EStateM.bind x f p := rfl
  unfold Locates at hx ⊢
  rw [hbind, EStateM.bind]
  cases hxp : x p with
  -- an error of the first reader is the error of both, at the same token
  | error e q =>
    rw [hxp] at hx
    exact hx
  | ok a q =>
    rw [hxp] at hx
    have hfa := hf a q (hx.1.orderly hp) hx.2
    unfold Locates at hfa
    cases hfq : f a q with
    | error e r =>
      rw [hfq] at hfa
      simp only [hfq]
      exact ⟨hx.1.trans hp hfa.1, hfa.2⟩
    | ok b r =>
      rw [hfq] at hfa
      simp only [hfq]
      exact ⟨hx.1.trans hp hfa.1, hfa.2⟩

/-- What is good may be said with less. -/
theorem mono {good' : α → Prop} (hx : Locates L x p good) (h : ∀ a, good a → good' a) :
    Locates L x p good' := by
  unfold Locates at hx ⊢
  split
  · rename_i a q hxp
    rw [hxp] at hx
    exact ⟨hx.1, h a hx.2⟩
  · rename_i e q hxp
    rwa [hxp] at hx

/-- What a reader gives may be wrapped up without reading on. -/
theorem map {f : α → β} (hp : p.Orderly L) (hx : Locates L x p good)
    (hf : ∀ a, good a → post (f a)) : Locates L (x >>= fun a => Pure.pure (f a)) p post :=
  hx.bind hp fun a _ _ ha => .pure (hf a ha)

/-- Looking at the parser moves nothing. -/
theorem get {f : Parser → Reader α} (h : Locates L (f p) p good) :
    Locates L (MonadState.get >>= f) p good := h

/-- Nor does looking at the kind of the next token. -/
theorem kind {f : Kind → Reader α} (h : Locates L (f p.kind) p good) :
    Locates L (Reader.kind >>= f) p good := h

/-- Nor does looking at its line. -/
theorem line {f : Nat → Reader α} (h : Locates L (f p.current.line) p good) :
    Locates L (Reader.line >>= f) p good := h

/-- The token passed is the next one. -/
theorem advance (hp : p.Orderly L) : Locates L Reader.advance p fun t => L t.line := by
  obtain ⟨ts, hpasses, _⟩ := Passes.advance p
  exact ⟨⟨ts, [], hpasses, places_nil _ _⟩, hp.current⟩

/-- A token that is expected is the next one or is missed there, on the line of the next one in
either case. -/
theorem expect (hp : p.Orderly L) (k : Kind) : Locates L (Reader.expect k) p fun t => L t.line := by
  refine Locates.get ?_
  split
  · exact .advance hp
  · exact .throw (p.line_missing k)

/-- The semicolon may be forgiven: then it is reported at the next token, and the reader goes on
in front of it. -/
theorem expectSemicolon (hp : p.Orderly L) : Locates L Reader.expectSemicolon p fun _ => True := by
  refine Locates.get ?_
  split
  · exact (Locates.advance hp).map hp fun _ _ => trivial
  · split
    · exact ⟨.report hp rfl (p.line_missing _), trivial⟩
    · exact .throw (p.line_missing _)

end Locates

/-! ### Rows -/

/-- Items behind commas, by induction on the room, which ends the recursion and means nothing
else. -/
theorem locates_moreWithin {α : Type} {item : Reader α} {good : α → Prop}
    (hitem : ∀ p, p.Orderly L → Locates L item p good) (room : Nat) {p : Parser}
    (hp : p.Orderly L) :
    Locates L (moreWithin item room) p fun items => ∀ a ∈ items, good a := by
  induction room generalizing p with
  | zero => exact .pure (List.forall_mem_nil _)
  | succ room ih =>
    refine Locates.kind ?_
    split
    · refine (Locates.advance hp).bind hp fun _ q hq _ => ?_
      refine (hitem q hq).bind hq fun a r hr ha => ?_
      exact (ih hr).map hr fun items hitems => List.forall_mem_cons.mpr ⟨ha, hitems⟩
    · exact .pure (List.forall_mem_nil _)

/-- Items with commas between them: a first one and then those behind commas. -/
theorem locates_separated {α : Type} {item : Reader α} {good : α → Prop}
    (hitem : ∀ p, p.Orderly L → Locates L item p good) {p : Parser} (hp : p.Orderly L) :
    Locates L (separated item) p fun items => ∀ a ∈ items, good a := by
  refine (hitem p hp).bind hp fun a q hq ha => Locates.get ?_
  exact (locates_moreWithin hitem _ hq).map hq fun items hitems =>
    List.forall_mem_cons.mpr ⟨ha, hitems⟩

/-- What is joined to something good stays good. -/
theorem locates_chain {α β : Type} {op? : Kind → Option BinaryOp} {operand : Reader β}
    {join : α → BinaryOp → β → α} {good : α → Prop} {goodOperand : β → Prop}
    (hoperand : ∀ p, p.Orderly L → Locates L operand p goodOperand)
    (hjoin : ∀ a op b, good a → goodOperand b → good (join a op b)) {left : α}
    (hleft : good left) {p : Parser} (hp : p.Orderly L) :
    Locates L (chain op? operand join left) p good := by
  refine Locates.get ?_
  -- the room is only there to end the recursion: every amount will do
  generalize p.remaining = room
  induction room generalizing left p with
  | zero => exact .pure hleft
  | succ room ih =>
    refine Locates.kind ?_
    split
    · exact .pure hleft
    · refine (Locates.advance hp).bind hp fun _ q hq _ => ?_
      exact (hoperand q hq).bind hq fun b r hr hb => ih (hjoin left _ b hleft hb) hr

/-! ### Expressions -/

section Layers

variable {inner : Reader Expr}
  (hinner : ∀ p, p.Orderly L → Locates L inner p fun e => Lined L e.slots)

include hinner

/-- Arguments are a row of expressions, or nothing in front of the closing mark. -/
theorem locates_argumentsOf {p : Parser} (hp : p.Orderly L) :
    Locates L (argumentsOf inner) p fun es => ∀ e ∈ es, Lined L e.slots := by
  refine Locates.kind ?_
  split
  · exact .pure (List.forall_mem_nil _)
  · exact locates_separated hinner hp

/-- A factor keeps the line of its first token and the lines of what is inside. -/
theorem locates_factorOf (p : Parser) (hp : p.Orderly L) :
    Locates L (factorOf inner) p fun f => Lined L f.slots := by
  -- whatever the factor turns out to be, it keeps the line of the token at its front
  have hline : L p.current.line := hp.current
  refine Locates.get ?_
  split
  · exact (Locates.advance hp).map hp fun t _ => by simpa [Factor.slots] using hline
  -- a name, and a call if an opening mark comes next
  · refine (Locates.advance hp).bind hp fun t q hq _ => Locates.kind ?_
    split
    · refine (Locates.advance hq).bind hq fun _ q hq _ => ?_
      refine (locates_argumentsOf hinner hq).bind hq fun es r hr hes => ?_
      refine (Locates.expect hr _).map hr fun _ _ => ?_
      simpa [Factor.slots, argumentSlots_eq_map] using ⟨hline, hes⟩
    · exact .pure (by simpa [Factor.slots] using hline)
  · refine (Locates.advance hp).bind hp fun _ q hq _ => ?_
    refine (hinner q hq).bind hq fun e r hr he => ?_
    refine (Locates.expect hr _).map hr fun _ _ => ?_
    simpa [Factor.slots] using ⟨hline, he⟩
  · exact .throw rfl

/-- A term is read in two chains, one for each pair of signs, and the second goes on from what the
first has given. -/
theorem locates_termOf (p : Parser) (hp : p.Orderly L) :
    Locates L (termOf inner) p fun t => Lined L t.slots := by
  have hjoin (t : Term) (op : BinaryOp) (f : Factor) (ht : Lined L t.slots)
      (hf : Lined L f.slots) : Lined L (Term.binary t op f).slots := by
    simpa [Term.slots] using ⟨ht, hf⟩
  refine (locates_factorOf hinner p hp).bind hp fun f q hq hf => ?_
  have hfirst : Lined L (Term.factor f).slots := hf
  refine (locates_chain (locates_factorOf hinner) hjoin hfirst hq).bind hq fun t r hr ht => ?_
  exact locates_chain (locates_factorOf hinner) hjoin ht hr

/-- An expression is one chain of terms. -/
theorem locates_exprOf (p : Parser) (hp : p.Orderly L) :
    Locates L (exprOf inner) p fun e => Lined L e.slots := by
  have hjoin (e : Expr) (op : BinaryOp) (t : Term) (he : Lined L e.slots)
      (ht : Lined L t.slots) : Lined L (Expr.binary e op t).slots := by
    simpa [Expr.slots] using ⟨he, ht⟩
  refine (locates_termOf hinner p hp).bind hp fun t q hq ht => ?_
  have hfirst : Lined L (Expr.term t).slots := ht
  exact locates_chain (locates_termOf hinner) hjoin hfirst hq

end Layers

/-- By induction on the depth. At depth zero the reader of what is inside refuses at once, on the
line of the next token. -/
theorem locates_exprWithin (depth : Nat) (p : Parser) (hp : p.Orderly L) :
    Locates L (exprWithin depth) p fun e => Lined L e.slots := by
  induction depth generalizing p with
  | zero => exact locates_exprOf (fun p _ => Locates.get (.throw rfl)) p hp
  | succ depth ih => exact locates_exprOf ih p hp

/-- The depth is that of the tokens that remain. -/
theorem locates_expr (p : Parser) (hp : p.Orderly L) :
    Locates L expr p fun e => Lined L e.slots :=
  Locates.get (locates_exprWithin _ p hp)

/-! ### Parts of statements -/

/-- A type is one token, or an error there. -/
theorem locates_dataType {p : Parser} (hp : p.Orderly L) :
    Locates L dataType p fun _ => True := by
  refine Locates.get ?_
  split
  · exact (Locates.advance hp).map hp fun _ _ => trivial
  · exact .throw rfl

/-- A declared name keeps no line, and its initializer has lines of its own. -/
theorem locates_declarator (p : Parser) (hp : p.Orderly L) :
    Locates L declarator p fun d => Lined L d.slots := by
  refine (Locates.expect hp _).bind hp fun _ q hq _ => Locates.kind ?_
  split
  · refine (Locates.advance hq).bind hq fun _ r hr _ => ?_
    exact (locates_expr r hr).map hr fun e he => by simpa [Declarator.slots] using he
  · exact .pure (by simp [Declarator.slots])

/-- The line of a declaration is that of its type. -/
theorem locates_declaration (p : Parser) (hp : p.Orderly L) :
    Locates L declaration p fun d => Lined L d.slots := by
  refine Locates.get ?_
  split
  · exact .throw rfl
  · refine (locates_dataType hp).bind hp fun type q hq _ => ?_
    refine (locates_separated locates_declarator hq).map hq fun ds hds => ?_
    simpa [Declaration.slots] using ⟨hp.current, hds⟩

/-- The line of an assignment is that of its target. The operator may be missing, which is an
error on the line of what stands there. -/
theorem locates_assignment (p : Parser) (hp : p.Orderly L) :
    Locates L assignment p fun a => Lined L a.slots := by
  refine Locates.line ((Locates.expect hp _).bind hp fun _ q hq _ => Locates.get ?_)
  split
  · exact .throw rfl
  · refine (Locates.advance hq).bind hq fun _ r hr _ => ?_
    refine (locates_expr r hr).map hr fun e he => ?_
    simpa [Assignment.slots] using ⟨hp.current, he⟩

/-- Parameters keep no lines. -/
theorem locates_parameters {p : Parser} (hp : p.Orderly L) :
    Locates L parameters p fun _ => True := by
  refine Locates.kind ?_
  split
  · exact .pure trivial
  · have hparameter (p : Parser) (hp : p.Orderly L) : Locates L parameter p fun _ => True := by
      refine (locates_dataType hp).bind hp fun _ q hq _ => ?_
      exact (Locates.expect hq _).map hq fun _ _ => trivial
    exact (locates_separated hparameter hp).mono fun _ _ => trivial

/-- The marks around a condition keep no lines. -/
theorem locates_condition {p : Parser} (hp : p.Orderly L) :
    Locates L condition p fun e => Lined L e.slots := by
  refine (Locates.expect hp _).bind hp fun _ q hq _ => ?_
  refine (locates_expr q hq).bind hq fun e r hr he => ?_
  exact (Locates.expect hr _).map hr fun _ _ => he

/-- A part that may be left out is left out exactly in front of the mark that closes it. -/
theorem locates_optionalBefore {α : Type} {part : Reader α} {good : α → Prop} (close : Kind)
    (hpart : ∀ p, p.Orderly L → Locates L part p good) {p : Parser} (hp : p.Orderly L) :
    Locates L (optionalBefore close part) p fun o => ∀ a ∈ o, good a := by
  refine Locates.kind ?_
  split
  · exact .pure fun a h => absurd h (Option.not_mem_none a)
  · refine (hpart p hp).map hp fun a ha b hb => ?_
    cases hb
    exact ha

/-- A step by one is recognised by the token after its name, and keeps the line of the name. -/
theorem locates_forStep (p : Parser) (hp : p.Orderly L) :
    Locates L forStep p fun step => Lined L step.slots := by
  refine Locates.get ?_
  split
  · refine (Locates.expect hp _).bind hp fun _ q hq _ => ?_
    refine (Locates.advance hq).map hq fun _ _ => ?_
    simpa [ForStep.slots] using hp.current
  · refine (Locates.expect hp _).bind hp fun _ q hq _ => ?_
    refine (Locates.advance hq).map hq fun _ _ => ?_
    simpa [ForStep.slots] using hp.current
  · exact (locates_assignment p hp).map hp fun _ ha => ha

/-- The start of a loop is left out, a declaration or an assignment, by the kind of the next
token. -/
theorem locates_forInit {p : Parser} (hp : p.Orderly L) :
    Locates L forInit p fun init => ∀ part ∈ init, Lined L part.slots := by
  refine Locates.kind ?_
  split
  · exact .pure fun a h => absurd h (Option.not_mem_none a)
  · split
    · refine (locates_declaration p hp).map hp fun d hd part hpart => ?_
      cases hpart
      exact hd
    · refine (locates_assignment p hp).map hp fun a ha part hpart => ?_
      cases hpart
      exact ha

/-! ### Statements -/

/-- The line of a result is that of its keyword. -/
theorem locates_resultStmt {p : Parser} (hp : p.Orderly L) :
    Locates L resultStmt p fun s => Lined L s.slots := by
  refine (Locates.advance hp).bind hp fun t q hq ht => ?_
  refine (locates_optionalBefore _ locates_expr hq).bind hq fun value r hr hvalue => ?_
  refine (Locates.expectSemicolon hr).map hr fun _ _ => ?_
  cases value with
  | none => simpa [Stmt.slots] using ht
  | some e => simpa [Stmt.slots] using ⟨ht, hvalue e rfl⟩

section Rows

variable {inner : Reader Stmt}
  (hinner : ∀ p, p.Orderly L → Locates L inner p fun s => Lined L s.slots)

include hinner

/-- A statement that is refused is reported at the token where its reader stands. -/
theorem reaches_recovered {p : Parser} (hp : p.Orderly L) :
    Reaches L p (recovered inner p).2 ∧ ∀ s ∈ (recovered inner p).1, Lined L s.slots := by
  have hread := hinner p hp
  unfold Locates at hread
  rw [recovered]
  cases hx : inner p with
  | ok s q =>
    rw [hx] at hread
    refine ⟨hread.1, fun s' hs' => ?_⟩
    cases hs'
    exact hread.2
  | error e q =>
    rw [hx] at hread
    -- the report comes before the skipping, at the token where the reader stopped
    refine ⟨hread.1.trans hp ?_, fun s h => absurd h (Option.not_mem_none s)⟩
    exact .synchronize (hread.1.orderly hp) rfl hread.2 p.position

/-- A row of statements, by induction on the room. Broken statements add reports and nothing
else. -/
theorem reaches_rowWithin (stop : Option Kind) (room : Nat) {p : Parser} (hp : p.Orderly L) :
    Reaches L p (rowWithin inner stop room p).2 ∧
      ∀ s ∈ (rowWithin inner stop room p).1, Lined L s.slots := by
  induction room generalizing p with
  | zero => exact ⟨.refl p, List.forall_mem_nil _⟩
  | succ room ih =>
    rw [rowWithin]
    split
    · exact ⟨.refl p, List.forall_mem_nil _⟩
    -- one statement, read or skipped, and then the others from where it ends
    · obtain ⟨hreaches, hfirst⟩ := reaches_recovered hinner hp
      obtain ⟨hreaches', hothers⟩ := ih (hreaches.orderly hp)
      refine ⟨hreaches.trans hp hreaches', List.forall_mem_append.mpr ⟨?_, hothers⟩⟩
      exact fun s hs => hfirst s (Option.mem_toList.mp hs)

/-- The line of a block is that of its opening mark. -/
theorem locates_blockOf {p : Parser} (hp : p.Orderly L) :
    Locates L (blockOf inner) p fun block =>
      L block.2 ∧ Lined L (rowSlots block.1) := by
  refine (Locates.expect hp _).bind hp fun t q hq ht => ?_
  have hrow : Locates L (modifyGet (rowOf inner (some .closeBrace)) : Reader (List Stmt)) q
      fun body => ∀ s ∈ body, Lined L s.slots :=
    reaches_rowWithin hinner (some .closeBrace) q.remaining hq
  refine hrow.bind hq fun body r hr hbody => ?_
  exact (Locates.expect hr _).map hr fun _ _ => ⟨ht, lined_rowSlots.mpr hbody⟩

/-- A function has the line of its return type. After the closing mark it is a prototype or has a
body. -/
theorem locates_functionOf {p : Parser} (hp : p.Orderly L) :
    Locates L (functionOf inner) p fun s => Lined L s.slots := by
  refine Locates.line ((locates_dataType hp).bind hp fun type q hq _ => ?_)
  refine (Locates.expect hq _).bind hq fun name q hq _ => ?_
  refine (Locates.expect hq _).bind hq fun _ q hq _ => ?_
  refine (locates_parameters hq).bind hq fun parameters q hq _ => ?_
  refine (Locates.expect hq _).bind hq fun _ q hq _ => Locates.kind ?_
  -- the line was looked up before the type was read
  have hsignature : Lined L (Signature.slots ⟨type, name.text, parameters, p.current.line⟩) := by
    simp [Signature.slots, Parameter.slots, hp.current]
  split
  · refine (Locates.advance hq).map hq fun _ _ => ?_
    simpa [Stmt.slots] using hsignature
  · refine (locates_blockOf hinner hq).map hq fun block hblock => ?_
    simpa [Stmt.slots] using ⟨hsignature, hblock⟩

/-- What starts with a type is a function if a name and an opening mark follow, and else a
declaration. -/
theorem locates_typedOf {p : Parser} (hp : p.Orderly L) :
    Locates L (typedOf inner) p fun s => Lined L s.slots := by
  refine Locates.get ?_
  split
  · exact locates_functionOf hinner hp
  · refine (locates_declaration p hp).bind hp fun d q hq hd => ?_
    exact (Locates.expectSemicolon hq).map hq fun _ _ => by simpa [Stmt.slots] using hd

/-- A branch has the line of its keyword. `else` keeps no line. -/
theorem locates_branchOf {p : Parser} (hp : p.Orderly L) :
    Locates L (branchOf inner) p fun s => Lined L s.slots := by
  refine (Locates.advance hp).bind hp fun t q hq ht => ?_
  refine (locates_condition hq).bind hq fun e q hq he => ?_
  refine (hinner q hq).bind hq fun onTrue q hq htrue => Locates.kind ?_
  split
  · refine (Locates.advance hq).bind hq fun _ q hq _ => ?_
    refine (hinner q hq).map hq fun onFalse hfalse => ?_
    simpa [Stmt.slots, conditionSlots] using ⟨ht, he, htrue, hfalse⟩
  · exact .pure (by simpa [Stmt.slots, conditionSlots] using ⟨ht, he, htrue⟩)

/-- So has a loop with a condition. -/
theorem locates_whileOf {p : Parser} (hp : p.Orderly L) :
    Locates L (whileOf inner) p fun s => Lined L s.slots := by
  refine (Locates.advance hp).bind hp fun t q hq ht => ?_
  refine (locates_condition hq).bind hq fun e q hq he => ?_
  refine (hinner q hq).map hq fun body hbody => ?_
  simpa [Stmt.slots, conditionSlots] using ⟨ht, he, hbody⟩

/-- So has a counted loop. Each of the three parts in its head may be left out. -/
theorem locates_forOf {p : Parser} (hp : p.Orderly L) :
    Locates L (forOf inner) p fun s => Lined L s.slots := by
  refine (Locates.advance hp).bind hp fun t q hq ht => ?_
  refine (Locates.expect hq _).bind hq fun _ q hq _ => ?_
  refine (locates_forInit hq).bind hq fun init q hq hinit => ?_
  refine (Locates.expect hq _).bind hq fun _ q hq _ => ?_
  refine (locates_optionalBefore _ locates_expr hq).bind hq fun condition q hq hcondition => ?_
  refine (Locates.expect hq _).bind hq fun _ q hq _ => ?_
  refine (locates_optionalBefore _ locates_forStep hq).bind hq fun step q hq hstep => ?_
  refine (Locates.expect hq _).bind hq fun _ q hq _ => ?_
  refine (hinner q hq).map hq fun body hbody => ?_
  simpa [Stmt.slots, lined_optionSlots] using ⟨ht, hinit, hcondition, hstep, hbody⟩

/-- Each form has its own reader, and `any` is read by the one that is given. -/
theorem locates_formOf (form : Form) {p : Parser} (hp : p.Orderly L) :
    Locates L (formOf inner form) p fun s => Lined L s.slots := by
  cases form with
  | typed => exact locates_typedOf hinner hp
  | assignment =>
    refine (locates_assignment p hp).bind hp fun a q hq ha => ?_
    exact (Locates.expectSemicolon hq).map hq fun _ _ => by simpa [Stmt.slots] using ha
  | branch => exact locates_branchOf hinner hp
  | whileLoop => exact locates_whileOf hinner hp
  | forLoop => exact locates_forOf hinner hp
  | block =>
    refine (locates_blockOf hinner hp).map hp fun block hblock => ?_
    simpa [Stmt.slots] using hblock
  | result => exact locates_resultStmt hp
  | any => exact hinner p hp

/-- The form is chosen by the kind of the next token. A kind without a form is an error there. -/
theorem locates_stmtOf (p : Parser) (hp : p.Orderly L) :
    Locates L (stmtOf inner) p fun s => Lined L s.slots := by
  refine Locates.get ?_
  split
  · exact locates_formOf hinner _ hp
  · exact .throw rfl

end Rows

/-- By induction on the depth, as for expressions. -/
theorem locates_stmtWithin (depth : Nat) (p : Parser) (hp : p.Orderly L) :
    Locates L (stmtWithin depth) p fun s => Lined L s.slots := by
  induction depth generalizing p with
  | zero => exact locates_stmtOf (fun p _ => Locates.get (.throw rfl)) p hp
  | succ depth ih => exact locates_stmtOf ih p hp

/-- The depth is that of the tokens that remain. -/
theorem locates_stmt (p : Parser) (hp : p.Orderly L) :
    Locates L stmt p fun s => Lined L s.slots :=
  Locates.get (locates_stmtWithin _ p hp)

/-! ### Programs -/

/-- Where the lines of a row of tokens never go back and its last token is an end, reading
reports in the order of the lines, at lines of tokens, and such are the lines of the program. -/
theorem located_ofTokens {tokens : List Token} {last : Token} (hlast : last.kind = .eof)
    (hsorted : ((tokens ++ [last]).map Token.line).Pairwise (· ≤ ·))
    (hknown : ∀ t ∈ tokens ++ [last], L t.line) :
    Lined L (Program.ofTokens (tokens ++ [last])).1.slots ∧
      ((Program.ofTokens (tokens ++ [last])).2.map Diagnostic.line).Pairwise (· ≤ ·) ∧
      ∀ d ∈ (Program.ofTokens (tokens ++ [last])).2, L d.line ∧ d.family = .syntactic := by
  have hstream : Stream.ofTokens (tokens ++ [last]) = ⟨[], tokens, last, hlast⟩ := by
    simp [Stream.ofTokens, hlast]
  -- nothing has been passed yet, so all lines are ahead
  have hp : (Parser.ofTokens (tokens ++ [last]) Forms.standard []).Orderly L := by
    show (Stream.ofTokens (tokens ++ [last])).Orderly L
    rw [hstream]
    exact ⟨List.forall_mem_map.mpr hknown, hsorted⟩
  obtain ⟨⟨ts, ds, hpasses, hplaces⟩, hrow⟩ := reaches_rowWithin locates_stmt none
    (Parser.ofTokens (tokens ++ [last]) Forms.standard []).remaining hp
  have hlog : (Program.ofTokens (tokens ++ [last])).2 = ds := hpasses.log_eq
  rw [hlog]
  exact ⟨lined_rowSlots.mpr hrow, hplaces.sorted, fun d hd =>
    ⟨hplaces.known d hd, hplaces.family d hd⟩⟩

end Tercet
