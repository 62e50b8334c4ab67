import Tercet.Proofs.Diagnostic.Misreading
import Tercet.Proofs.Locations
import Tercet.Proofs.Reading.Halting

/-!
# `Tercet.Proofs.Reading.Refusals`: which faults reading finds in a source

Reading refuses a statement with a syntax error, or misses the semicolon at its end and goes on.
These are all errors that it raises (`Raised`), and its log is made of their reports, one for
each. In a source their faults are ordinary (`Fault.Ordinary`): a quoted text is that of a token,
a brace is missed only at the end of the input, and what starts no statement is no name. So what
is reported says what has been found, but for the faults that are misread (`reported_ofTokens`).

`Blames` says so of one reader at one place, with success or without, and the rules follow the
shape of readers. Statements are settled by those inside them, which are read where fewer tokens
remain, so the induction is on the number of tokens.
-/

set_option autoImplicit false

namespace Tercet

open Reader Text

/-! ### Tokens of a source -/

namespace Token

/-- The text of the token fits its kind. -/
def Lexical (t : Token) : Prop :=
  t.kind.Writes t.text.toList ∨ ∃ line, t = Token.atEnd line

end Token

/-- The tokens of words that fit their kinds are lexical, and so is the closing one. -/
theorem lexical_tokensAfter {words : List Placed} {last : List Char}
    (hwrites : ∀ w ∈ words, w.kind.Writes w.text.toList) {before : List Char} :
    ∀ t ∈ tokensAfter before words last, t.Lexical := by
  induction words generalizing before with
  | nil => exact List.forall_mem_singleton.mpr (.inr ⟨_, rfl⟩)
  | cons w more ih =>
    rw [tokensAfter, List.forall_mem_cons]
    exact ⟨.inl (hwrites w List.mem_cons_self),
      ih fun v hv => hwrites v (List.mem_cons_of_mem w hv)⟩

/-- So are the tokens of a source. -/
theorem lexical_of_ofSource {source : String} {tokens : List Token}
    (h : Token.ofSource source = .ok tokens) : ∀ t ∈ tokens, t.Lexical := by
  have hstart : 1 = 1 + Lexeme.newlines [] := rfl
  obtain ⟨words, last, _, _, hwrites, rfl⟩ :=
    exists_written_of_scan (Token.ofSource_eq_ok_iff.mp h) hstart
  exact lexical_tokensAfter hwrites

/-- No word of a source holds a quote or a blank. -/
theorem Kind.Writes.plain {k : Kind} {text : String} (h : k.Writes text.toList) : Plain text where
  quote := h.not_mem_of (by decide) (by decide) (by decide) (by decide) (by decide +kernel)
  space := h.not_mem_of (by decide) (by decide) (by decide) (by decide) (by decide +kernel)

/-- A word that starts no statement is no name, and has no `m` in it. -/
theorem Kind.Writes.not_mem_of_standard {k : Kind} {cs : List Char} (h : k.Writes cs)
    (hform : Forms.standard k = none) : 'm' ∉ cs := by
  have hspelling : ∀ k ∈ Kind.all, Forms.standard k = none →
      ∀ spelling ∈ k.spelling?, 'm' ∉ spelling.toList := by decide +kernel
  cases h with
  | word => cases hform
  | whole _ hdigits => exact not_mem_of_all hdigits (by decide)
  | fraction _ hdigits _ hdecimals =>
    rw [List.mem_append, List.mem_cons, not_or, not_or]
    exact ⟨not_mem_of_all hdigits (by decide), by decide, not_mem_of_all hdecimals (by decide)⟩
  | fixed htext => exact hspelling k (Kind.mem_all k) hform _ (k.fixedText?_eq ▸ htext)

namespace Token.Lexical

variable {t : Token}

/-- The text of a token can be quoted. -/
theorem plain (h : t.Lexical) : Plain t.text := by
  rcases h with h | ⟨line, rfl⟩
  · exact h.plain
  · have hend : Plain Token.endText := ⟨by decide +kernel, by decide +kernel⟩
    exact hend

/-- Only the closing token is an end. -/
theorem text_of_eof (h : t.Lexical) (hkind : t.kind = .eof) : t.text = Token.endText := by
  rcases h with h | ⟨line, rfl⟩
  · rw [hkind] at h
    exact absurd h (Kind.not_writes_eof _)
  · rfl

/-- The word for what is absent is no part of a token that starts no statement. -/
theorem not_occurs_missing (h : t.Lexical) (hform : Forms.standard t.kind = none) :
    occurs "missing" t.text = false := by
  have hletter : 'm' ∉ t.text.toList := by
    rcases h with h | ⟨line, rfl⟩
    · exact h.not_mem_of_standard hform
    · have hend : 'm' ∉ Token.endText.toList := by decide +kernel
      exact hend
  rw [← Bool.not_eq_true, occurs_iff]
  exact Fault.not_infix_of_not_mem (by decide +kernel : 'm' ∈ "missing".toList) hletter

end Token.Lexical

/-- Two plain texts make one. -/
theorem Text.Plain.append {text text' : String} (h : Plain text) (h' : Plain text') :
    Plain (text ++ text') := by
  constructor
  · rw [String.toList_append, List.mem_append, not_or]
    exact ⟨h.quote, h'.quote⟩
  · rw [String.toList_append, List.mem_append, not_or]
    exact ⟨h.space, h'.space⟩

/-! ### Errors and their reports -/

/-- The parser can get here from the front of the tokens, by passing, reporting and skipping. -/
def Reachable (tokens : List Token) (p : Parser) : Prop :=
  (Parser.ofTokens tokens Forms.standard []).Moves p

/-- The errors that reading the tokens raises: where the parser can get, a statement is refused
with the error, or the semicolon is missing at the end of one. -/
inductive Raised (tokens : List Token) : SyntaxError → Prop
  | refused {p q : Parser} {e : SyntaxError} (hp : Reachable tokens p) (h : stmt p = .error e q) :
      Raised tokens e
  | unended {p : Parser} (hp : Reachable tokens p) (hkind : p.kind ≠ .semicolon)
      (hended : p.statementEnded = true) : Raised tokens (p.missing .semicolon)

/-- From `p` to `q` the reports are those of errors that reading raises. -/
structure Logs (tokens : List Token) (p q : Parser) : Prop where
  moves : p.Moves q
  reports : ∃ errors : List SyntaxError, q.log = p.log ++ errors.map SyntaxError.report ∧
    ∀ e ∈ errors, Raised tokens e

namespace Logs

variable {tokens : List Token} {p q r : Parser}

/-- Nothing has been reported. -/
theorem of_log_eq (hmoves : p.Moves q) (hlog : q.log = p.log) : Logs tokens p q :=
  ⟨hmoves, [], by simp [hlog], List.forall_mem_nil _⟩

/-- Nothing has happened. -/
theorem refl (p : Parser) : Logs tokens p p :=
  of_log_eq .refl rfl

/-- What is reported in two steps. -/
theorem trans (h : Logs tokens p q) (h' : Logs tokens q r) : Logs tokens p r := by
  obtain ⟨errors, hlog, hraised⟩ := h.reports
  obtain ⟨errors', hlog', hraised'⟩ := h'.reports
  refine ⟨h.moves.trans h'.moves, errors ++ errors', ?_,
    List.forall_mem_append.mpr ⟨hraised, hraised'⟩⟩
  rw [hlog', hlog, List.map_append, List.append_assoc]

/-- One error is reported. -/
theorem report {e : SyntaxError} (h : Raised tokens e) : Logs tokens p (p.report e.report) :=
  ⟨.report .refl _, [e], rfl, List.forall_mem_singleton.mpr h⟩

end Logs

/-! ### Rules -/

/-- What the reader has done at `p`: it has reported errors that are raised, and it gives something
`good` or refuses with an ordinary fault. -/
def Blames {α : Type} (tokens : List Token) (x : Reader α) (p : Parser)
    (good : α → Parser → Prop) : Prop :=
  match x p with
  | .ok a q => Logs tokens p q ∧ good a q
  | .error e q => Logs tokens p q ∧ e.fault.Ordinary

section Rules

variable {tokens : List Token} (htokens : ∀ t ∈ closed tokens, t.Lexical)
variable {α β : Type} {p : Parser} {x : Reader α} {good : α → Parser → Prop}
  {post : β → Parser → Prop}

namespace Reachable

/-- Wherever the parser can get, it reads the standard forms. -/
theorem forms_eq (hp : Reachable tokens p) : p.forms = Forms.standard :=
  Parser.Moves.forms_eq hp

include htokens in
/-- What it can look at are tokens of the row. -/
theorem lexical_peek (hp : Reachable tokens p) (n : Nat) : (p.peek n).Lexical := by
  refine htokens _ ?_
  rw [← Stream.tokens_ofTokens]
  have hrow : p.tokens = (Stream.ofTokens tokens).tokens := Parser.Moves.tokens_eq hp
  rw [← hrow]
  exact List.mem_of_getElem? (p.getElem?_tokens_peek n)

include htokens in
/-- So is the current token. -/
theorem lexical (hp : Reachable tokens p) : p.current.Lexical :=
  hp.lexical_peek htokens 0

end Reachable

namespace Blames

/-- A reader that only gives a result. -/
theorem pure {a : α} (h : good a p) : Blames tokens (Pure.pure a : Reader α) p good :=
  ⟨.refl p, h⟩

/-- A reader that refuses with an ordinary fault. -/
theorem throw {e : SyntaxError} (h : e.fault.Ordinary) :
    Blames tokens (MonadExcept.throw e : Reader α) p good :=
  ⟨.refl p, h⟩

/-- One reader after another. The second starts where the first has led, with no more tokens than
there were. -/
theorem bind {f : α → Reader β} (hp : Reachable tokens p) (hx : Blames tokens x p good)
    (hf : ∀ a q, Reachable tokens q → q.remaining ≤ p.remaining → good a q →
      Blames tokens (f a) q post) : Blames tokens (x >>= f) p post := by
  unfold Blames at hx ⊢
  cases hxp : x p with
  | error e q =>
    rw [hxp] at hx
    rw [bind_of_error hxp]
    exact hx
  | ok a q =>
    rw [hxp] at hx
    rw [bind_of_ok hxp]
    have hfa := hf a q (hp.trans hx.1.moves) hx.1.moves.remaining_le hx.2
    unfold Blames at hfa
    split
    · rename_i b r hr
      rw [hr] at hfa
      exact ⟨hx.1.trans hfa.1, hfa.2⟩
    · rename_i e r hr
      rw [hr] at hfa
      exact ⟨hx.1.trans hfa.1, hfa.2⟩

/-- Less may be said of what is read. -/
theorem mono {good' : α → Parser → Prop} (hx : Blames tokens x p good)
    (h : ∀ a q, good a q → good' a q) : Blames tokens x p good' := by
  unfold Blames at hx ⊢
  split
  · rename_i a q hxp
    rw [hxp] at hx
    exact ⟨hx.1, h a q hx.2⟩
  · rename_i e q hxp
    rwa [hxp] at hx

/-- A function of what is read. -/
theorem map {f : α → β} (hp : Reachable tokens p) (hx : Blames tokens x p good) :
    Blames tokens (x >>= fun a => Pure.pure (f a)) p fun _ _ => True :=
  hx.bind hp fun _ _ _ _ _ => .pure trivial

/-- Looking at the parser reports nothing. -/
theorem get {f : Parser → Reader α} (h : Blames tokens (f p) p good) :
    Blames tokens (MonadState.get >>= f) p good := h

/-- Looking at the next kind reports nothing. -/
theorem kind {f : Kind → Reader α} (h : Blames tokens (f p.kind) p good) :
    Blames tokens (Reader.kind >>= f) p good := h

/-- Looking at the next line reports nothing. -/
theorem line {f : Nat → Reader α} (h : Blames tokens (f p.current.line) p good) :
    Blames tokens (Reader.line >>= f) p good := h

/-- A token that is no end is gone when it has been passed. -/
theorem advance : Blames tokens Reader.advance p fun t q =>
    t = p.current ∧ (p.kind ≠ .eof → q.remaining < p.remaining) := by
  refine ⟨.of_log_eq (.advance .refl) rfl, rfl, fun hend => ?_⟩
  obtain ⟨-, -, hremaining⟩ := moves_advance hend rfl
  omega

end Blames

end Rules

/-! ### Marks -/

section Readers

variable {tokens : List Token} (htokens : ∀ t ∈ closed tokens, t.Lexical)

include htokens

/-- What is missing at a place is an ordinary fault, if a brace is missed only at an end. -/
theorem Reachable.ordinary_missing {p : Parser} (hp : Reachable tokens p) {k : Kind}
    (hbrace : k = .closeBrace → p.kind = .eof) : (p.missing k).fault.Ordinary := by
  have hplain := (hp.lexical htokens).plain
  cases k with
  | semicolon => exact .mark (.inl rfl) hplain
  | openParen => exact .mark (.inr (.inl rfl)) hplain
  | closeParen => exact .mark (.inr (.inr rfl)) hplain
  | closeBrace =>
    have htext := (hp.lexical htokens).text_of_eof (hbrace rfl)
    show (Fault.missing .closeBrace p.current.text).Ordinary
    rw [htext]
    exact .brace
  | _ => exact .mismatched _ _

/-- An expected token is passed, or it is missing. A brace is expected only where it can be
missing at an end. -/
theorem blames_expect {p : Parser} (hp : Reachable tokens p) {k : Kind} (hk : k ≠ .eof)
    (hbrace : k = .closeBrace → p.kind = k ∨ p.kind = .eof) :
    Blames tokens (expect k) p fun t q => t = p.current ∧ q.remaining < p.remaining := by
  refine Blames.get ?_
  split
  · rename_i hkind
    exact Blames.advance.mono fun t q h => ⟨h.1, h.2 (by rwa [hkind])⟩
  · rename_i hkind
    exact .throw (hp.ordinary_missing htokens fun h => (hbrace h).resolve_left hkind)

/-- A missing semicolon is reported where the statement has ended, and refused elsewhere. -/
theorem blames_expectSemicolon {p : Parser} (hp : Reachable tokens p) :
    Blames tokens expectSemicolon p fun _ _ => True := by
  refine Blames.get ?_
  split
  · exact Blames.advance.map hp
  · rename_i hkind
    split
    · rename_i hended
      exact ⟨.report (.unended hp hkind hended), trivial⟩
    · exact .throw (hp.ordinary_missing htokens Kind.noConfusion)

omit htokens

/-! ### Rows -/

/-- Items after commas. The induction is on the room for them. -/
theorem blames_moreWithin {α : Type} {item : Reader α}
    (hitem : ∀ p, Reachable tokens p → Blames tokens item p fun _ _ => True) (room : Nat)
    {p : Parser} (hp : Reachable tokens p) :
    Blames tokens (moreWithin item room) p fun _ _ => True := by
  induction room generalizing p with
  | zero => exact .pure trivial
  | succ room ih =>
    refine Blames.kind ?_
    split
    · refine Blames.advance.bind hp fun _ q hq _ _ => ?_
      refine (hitem q hq).bind hq fun _ r hr _ _ => ?_
      exact (ih hr).map hr
    · exact .pure trivial

/-- A row of items. -/
theorem blames_separated {α : Type} {item : Reader α}
    (hitem : ∀ p, Reachable tokens p → Blames tokens item p fun _ _ => True) {p : Parser}
    (hp : Reachable tokens p) : Blames tokens (separated item) p fun _ _ => True := by
  refine (hitem p hp).bind hp fun _ q hq _ _ => Blames.get ?_
  exact (blames_moreWithin hitem _ hq).map hq

/-- A row of operands. The induction is on the room for them. -/
theorem blames_chain {α β : Type} {op? : Kind → Option BinaryOp} {operand : Reader β}
    {join : α → BinaryOp → β → α}
    (hoperand : ∀ p, Reachable tokens p → Blames tokens operand p fun _ _ => True) (left : α)
    {p : Parser} (hp : Reachable tokens p) :
    Blames tokens (chain op? operand join left) p fun _ _ => True := by
  refine Blames.get ?_
  generalize p.remaining = room
  induction room generalizing left p with
  | zero => exact .pure trivial
  | succ room ih =>
    refine Blames.kind ?_
    split
    · exact .pure trivial
    · refine Blames.advance.bind hp fun _ q hq _ _ => ?_
      exact (hoperand q hq).bind hq fun b r hr _ _ => ih _ hr

/-- A part that may be left out. -/
theorem blames_optionalBefore {α : Type} {part : Reader α} (close : Kind)
    (hpart : ∀ p, Reachable tokens p → Blames tokens part p fun _ _ => True) {p : Parser}
    (hp : Reachable tokens p) : Blames tokens (optionalBefore close part) p fun _ _ => True := by
  refine Blames.kind ?_
  split
  · exact .pure trivial
  · exact (hpart p hp).map hp

include htokens

/-! ### Expressions -/

section Layers

variable {inner : Reader Expr}
  (hinner : ∀ p, Reachable tokens p → Blames tokens inner p fun _ _ => True)

include hinner

/-- A factor is refused if it starts with no token that can start one, or a parenthesis is
missing. -/
theorem blames_factorOf (p : Parser) (hp : Reachable tokens p) :
    Blames tokens (factorOf inner) p fun _ _ => True := by
  have harguments (q : Parser) (hq : Reachable tokens q) :
      Blames tokens (argumentsOf inner) q fun _ _ => True := by
    refine Blames.kind ?_
    split
    · exact .pure trivial
    · exact blames_separated hinner hq
  refine Blames.get ?_
  split
  · exact Blames.advance.map hp
  · refine Blames.advance.bind hp fun _ q hq _ _ => Blames.kind ?_
    split
    · refine Blames.advance.bind hq fun _ q hq _ _ => ?_
      refine (harguments q hq).bind hq fun _ r hr _ _ => ?_
      exact (blames_expect htokens hr (by decide) Kind.noConfusion).map hr
    · exact .pure trivial
  · refine Blames.advance.bind hp fun _ q hq _ _ => ?_
    refine (hinner q hq).bind hq fun _ r hr _ _ => ?_
    exact (blames_expect htokens hr (by decide) Kind.noConfusion).map hr
  · exact .throw (.mismatched _ _)

/-- A term is refused with one of its factors. -/
theorem blames_termOf (p : Parser) (hp : Reachable tokens p) :
    Blames tokens (termOf inner) p fun _ _ => True := by
  refine (blames_factorOf htokens hinner p hp).bind hp fun _ q hq _ _ => ?_
  refine (blames_chain (blames_factorOf htokens hinner) _ hq).bind hq fun _ r hr _ _ => ?_
  exact blames_chain (blames_factorOf htokens hinner) _ hr

/-- An expression is refused with one of its terms. -/
theorem blames_exprOf (p : Parser) (hp : Reachable tokens p) :
    Blames tokens (exprOf inner) p fun _ _ => True := by
  refine (blames_termOf htokens hinner p hp).bind hp fun _ q hq _ _ => ?_
  exact blames_chain (blames_termOf htokens hinner) _ hq

end Layers

/-- An expression, whatever the depth of its parentheses. The induction is on the bound. -/
theorem blames_expr (p : Parser) (hp : Reachable tokens p) :
    Blames tokens expr p fun _ _ => True := by
  refine Blames.get ?_
  generalize p.remaining = depth
  induction depth generalizing p with
  | zero => exact blames_exprOf htokens (fun p _ => Blames.get (.throw (.mismatched _ _))) p hp
  | succ depth ih => exact blames_exprOf htokens ih p hp

/-! ### Parts of statements -/

omit htokens in
/-- A type is refused as a mismatch. -/
theorem blames_dataType {p : Parser} (hp : Reachable tokens p) :
    Blames tokens dataType p fun _ _ => True := by
  refine Blames.get ?_
  split
  · exact Blames.advance.map hp
  · exact .throw (.mismatched _ _)

/-- A declared name is refused if there is no name, or with its first value. -/
theorem blames_declarator (p : Parser) (hp : Reachable tokens p) :
    Blames tokens declarator p fun _ _ => True := by
  refine (blames_expect htokens hp (by decide) Kind.noConfusion).bind hp fun _ q hq _ _ =>
    Blames.kind ?_
  split
  · refine Blames.advance.bind hq fun _ r hr _ _ => ?_
    exact (blames_expr htokens r hr).map hr
  · exact .pure trivial

/-- A declaration without a type for variables is refused with what has been read of it. -/
theorem blames_declaration (p : Parser) (hp : Reachable tokens p) :
    Blames tokens declaration p fun _ _ => True := by
  refine Blames.get ?_
  split
  · have hvoid : Plain "void" := ⟨by decide +kernel, by decide +kernel⟩
    exact .throw (.noViableAlternative (hvoid.append (hp.lexical_peek htokens 1).plain))
  · refine (blames_dataType hp).bind hp fun _ q hq _ _ => ?_
    exact (blames_separated (blames_declarator htokens) hq).map hq

/-- An assignment without a sign for it is refused with the name and what follows. -/
theorem blames_assignment (p : Parser) (hp : Reachable tokens p) :
    Blames tokens assignment p fun _ _ => True := by
  refine Blames.line ((blames_expect htokens hp (by decide) Kind.noConfusion).bind hp
    fun t q hq _ ht => Blames.get ?_)
  split
  · have htarget : Plain t.text := by
      rw [ht.1]
      exact (hp.lexical htokens).plain
    exact .throw (.noViableAlternative (htarget.append (hq.lexical htokens).plain))
  · refine Blames.advance.bind hq fun _ r hr _ _ => ?_
    exact (blames_expr htokens r hr).map hr

/-- Parameters, perhaps none. -/
theorem blames_parameters {p : Parser} (hp : Reachable tokens p) :
    Blames tokens parameters p fun _ _ => True := by
  have hparameter (q : Parser) (hq : Reachable tokens q) :
      Blames tokens parameter q fun _ _ => True := by
    refine (blames_dataType hq).bind hq fun _ r hr _ _ => ?_
    exact (blames_expect htokens hr (by decide) Kind.noConfusion).map hr
  refine Blames.kind ?_
  split
  · exact .pure trivial
  · exact blames_separated hparameter hp

/-- A condition is refused if a parenthesis is missing, or with its expression. -/
theorem blames_condition {p : Parser} (hp : Reachable tokens p) :
    Blames tokens condition p fun _ _ => True := by
  refine (blames_expect htokens hp (by decide) Kind.noConfusion).bind hp fun _ q hq _ _ => ?_
  refine (blames_expr htokens q hq).bind hq fun _ r hr _ _ => ?_
  exact (blames_expect htokens hr (by decide) Kind.noConfusion).map hr

/-- The step of a counted loop. -/
theorem blames_forStep (p : Parser) (hp : Reachable tokens p) :
    Blames tokens forStep p fun _ _ => True := by
  refine Blames.get ?_
  split
  · refine (blames_expect htokens hp (by decide) Kind.noConfusion).bind hp fun _ q hq _ _ => ?_
    exact Blames.advance.map hq
  · refine (blames_expect htokens hp (by decide) Kind.noConfusion).bind hp fun _ q hq _ _ => ?_
    exact Blames.advance.map hq
  · exact (blames_assignment htokens p hp).map hp

/-- The start of a counted loop. -/
theorem blames_forInit {p : Parser} (hp : Reachable tokens p) :
    Blames tokens forInit p fun _ _ => True := by
  refine Blames.kind ?_
  split
  · exact .pure trivial
  · split
    · exact (blames_declaration htokens p hp).map hp
    · exact (blames_assignment htokens p hp).map hp

/-! ### Statements -/

/-- A `return` is refused with its value, or its semicolon is missing. -/
theorem blames_resultStmt {p : Parser} (hp : Reachable tokens p) :
    Blames tokens resultStmt p fun _ _ => True := by
  refine Blames.advance.bind hp fun _ q hq _ _ => ?_
  refine (blames_optionalBefore _ (blames_expr htokens) hq).bind hq fun _ r hr _ _ => ?_
  exact (blames_expectSemicolon htokens hr).map hr

section Nested

variable {n : Nat}
  (hinner : ∀ q, Reachable tokens q → q.remaining < n → Blames tokens stmt q fun _ _ => True)

include hinner

omit htokens in
/-- What is refused in a row has been raised, and is reported after what the statement itself
has reported. -/
theorem logs_recovered {p : Parser} (hp : Reachable tokens p) (hn : p.remaining < n) :
    Logs tokens p (recovered stmt p).2 := by
  have hstmt := hinner p hp hn
  unfold Blames at hstmt
  unfold recovered
  cases hread : stmt p with
  | ok s q =>
    rw [hread] at hstmt
    exact hstmt.1
  | error e q =>
    rw [hread] at hstmt
    -- the refusal is reported and the rest of the statement skipped
    have hreport : Logs tokens q (q.report e.report) := .report (.refused hp hread)
    exact hstmt.1.trans (hreport.trans (.of_log_eq (.synchronize .refl p.position) rfl))

omit htokens in
/-- So it is for a row. The induction is on the room for its statements. -/
theorem logs_rowWithin (stop : Option Kind) (room : Nat) {p : Parser} (hp : Reachable tokens p)
    (hn : p.remaining < n) : Logs tokens p (rowWithin stmt stop room p).2 := by
  induction room generalizing p with
  | zero => exact .refl p
  | succ room ih =>
    unfold rowWithin
    split
    · exact .refl p
    · have hfirst := logs_recovered hinner hp hn
      have hless := hfirst.moves.remaining_le
      exact hfirst.trans (ih (hp.trans hfirst.moves) (by omega))

omit htokens in
/-- A row ends where it should, or at the end of the tokens. -/
theorem blames_row (stop : Option Kind) {p : Parser} (hp : Reachable tokens p)
    (hn : p.remaining < n) :
    Blames tokens (modifyGet (row stop)) p fun _ q => q.kind = .eof ∨ some q.kind = stop := by
  obtain ⟨-, ts, ds, -, -, -, hend⟩ := (parallel_row stop (.refl p) hp.forms_eq).of_modifyGet
  exact ⟨logs_rowWithin hinner stop p.remaining hp hn, hend⟩

/-- The closing brace can be missing only at the end of the tokens. -/
theorem blames_blockOf {p : Parser} (hp : Reachable tokens p) (hn : p.remaining ≤ n) :
    Blames tokens (blockOf stmt) p fun _ _ => True := by
  refine (blames_expect htokens hp (by decide) Kind.noConfusion).bind hp fun _ q hq _ hopen => ?_
  refine (blames_row hinner (some .closeBrace) hq (by omega)).bind hq fun _ r hr _ hend => ?_
  have hbrace : r.kind = .closeBrace ∨ r.kind = .eof := hend.symm.imp_left Option.some.inj
  exact (blames_expect htokens hr (by decide) fun _ => hbrace).map hr

/-- A function is refused where one of its marks is missing, with its parameters, or with its
body. -/
theorem blames_functionOf {p : Parser} (hp : Reachable tokens p) (hn : p.remaining ≤ n) :
    Blames tokens (functionOf stmt) p fun _ _ => True := by
  refine Blames.line ((blames_dataType hp).bind hp fun _ q₀ hq₀ h₀ _ => ?_)
  refine (blames_expect htokens hq₀ (by decide) Kind.noConfusion).bind hq₀
    fun _ q₁ hq₁ h₁ _ => ?_
  refine (blames_expect htokens hq₁ (by decide) Kind.noConfusion).bind hq₁
    fun _ q₂ hq₂ h₂ _ => ?_
  refine (blames_parameters htokens hq₂).bind hq₂ fun _ q₃ hq₃ h₃ _ => ?_
  refine (blames_expect htokens hq₃ (by decide) Kind.noConfusion).bind hq₃
    fun _ q₄ hq₄ h₄ _ => Blames.kind ?_
  split
  · exact Blames.advance.map hq₄
  · exact (blames_blockOf htokens hinner hq₄ (by omega)).map hq₄

/-- What starts with a type is a function or a declaration. -/
theorem blames_typedOf {p : Parser} (hp : Reachable tokens p) (hn : p.remaining ≤ n) :
    Blames tokens (typedOf stmt) p fun _ _ => True := by
  refine Blames.get ?_
  split
  · exact blames_functionOf htokens hinner hp hn
  · refine (blames_declaration htokens p hp).bind hp fun _ q hq _ _ => ?_
    exact (blames_expectSemicolon htokens hq).map hq

/-- A branch is refused with its condition or with one of its statements. Its first token is gone
by then. -/
theorem blames_branchOf {p : Parser} (hp : Reachable tokens p) (hn : p.remaining ≤ n)
    (hkind : p.kind ≠ .eof) : Blames tokens (branchOf stmt) p fun _ _ => True := by
  refine Blames.advance.bind hp fun _ q hq _ hfirst => ?_
  have hless := hfirst.2 hkind
  refine (blames_condition htokens hq).bind hq fun _ r hr hle _ => ?_
  refine (hinner r hr (by omega)).bind hr fun _ u hu hle' _ => Blames.kind ?_
  split
  · refine Blames.advance.bind hu fun _ v hv hle'' _ => ?_
    exact (hinner v hv (by omega)).map hv
  · exact .pure trivial

/-- A loop is refused with its condition or with its body. -/
theorem blames_whileOf {p : Parser} (hp : Reachable tokens p) (hn : p.remaining ≤ n)
    (hkind : p.kind ≠ .eof) : Blames tokens (whileOf stmt) p fun _ _ => True := by
  refine Blames.advance.bind hp fun _ q hq _ hfirst => ?_
  have hless := hfirst.2 hkind
  refine (blames_condition htokens hq).bind hq fun _ r hr hle _ => ?_
  exact (hinner r hr (by omega)).map hr

/-- A counted loop is refused where one of its marks is missing, or with one of its parts. -/
theorem blames_forOf {p : Parser} (hp : Reachable tokens p) (hn : p.remaining ≤ n)
    (hkind : p.kind ≠ .eof) : Blames tokens (forOf stmt) p fun _ _ => True := by
  refine Blames.advance.bind hp fun _ q₀ hq₀ _ hfirst => ?_
  have hless := hfirst.2 hkind
  refine (blames_expect htokens hq₀ (by decide) Kind.noConfusion).bind hq₀
    fun _ q₁ hq₁ h₁ _ => ?_
  refine (blames_forInit htokens hq₁).bind hq₁ fun _ q₂ hq₂ h₂ _ => ?_
  refine (blames_expect htokens hq₂ (by decide) Kind.noConfusion).bind hq₂
    fun _ q₃ hq₃ h₃ _ => ?_
  refine (blames_optionalBefore _ (blames_expr htokens) hq₃).bind hq₃ fun _ q₄ hq₄ h₄ _ => ?_
  refine (blames_expect htokens hq₄ (by decide) Kind.noConfusion).bind hq₄
    fun _ q₅ hq₅ h₅ _ => ?_
  refine (blames_optionalBefore _ (blames_forStep htokens) hq₅).bind hq₅ fun _ q₆ hq₆ h₆ _ => ?_
  refine (blames_expect htokens hq₆ (by decide) Kind.noConfusion).bind hq₆
    fun _ q₇ hq₇ h₇ _ => ?_
  exact (hinner q₇ hq₇ (by omega)).map hq₇

/-- A token that starts no statement is too much, and it is no name. -/
theorem blames_stmtOf {p : Parser} (hp : Reachable tokens p) (hn : p.remaining ≤ n) :
    Blames tokens (stmtOf stmt) p fun _ _ => True := by
  refine Blames.get ?_
  rw [hp.forms_eq]
  have hextra (hform : Forms.standard p.kind = none) :
      (Fault.extraneous p.current.text).Ordinary :=
    .extraneous (hp.lexical htokens).plain ((hp.lexical htokens).not_occurs_missing hform)
  -- the first token decides on the form
  cases hkind : p.kind with
  | kwInt | kwDouble | kwVoid => exact blames_typedOf htokens hinner hp hn
  | identifier =>
    refine (blames_assignment htokens p hp).bind hp fun _ q hq _ _ => ?_
    exact (blames_expectSemicolon htokens hq).map hq
  | kwIf => exact blames_branchOf htokens hinner hp hn (by simp [hkind])
  | kwWhile => exact blames_whileOf htokens hinner hp hn (by simp [hkind])
  | kwFor => exact blames_forOf htokens hinner hp hn (by simp [hkind])
  | openBrace => exact (blames_blockOf htokens hinner hp hn).map hp
  | kwReturn => exact blames_resultStmt htokens hp
  | _ => exact .throw (hextra (by rw [hkind]; rfl))

end Nested

/-- A statement is refused with an ordinary fault, wherever the parser can get. -/
theorem blames_stmt {p : Parser} (hp : Reachable tokens p) :
    Blames tokens stmt p fun _ _ => True := by
  induction hn : p.remaining using Nat.strong_induction_on generalizing p with
  | _ n ih =>
    have hinner (q : Parser) (hq : Reachable tokens q) (hless : q.remaining < n) :
        Blames tokens stmt q fun _ _ => True := ih q.remaining hless hq rfl
    have hstmt := blames_stmtOf htokens hinner hp (Nat.le_of_eq hn)
    unfold Blames at hstmt ⊢
    rwa [← stmtOf_eq_stmt hp.forms_eq fun _ _ _ => rfl]

/-- Every error that is raised has an ordinary fault. -/
theorem Raised.ordinary {e : SyntaxError} (h : Raised tokens e) : e.fault.Ordinary := by
  cases h with
  | @refused p q e hp hread =>
    have hstmt := blames_stmt htokens hp
    unfold Blames at hstmt
    rw [hread] at hstmt
    exact hstmt.2
  | unended hp _ _ => exact hp.ordinary_missing htokens Kind.noConfusion

/-- The log of a program holds the reports of errors that are raised, and nothing else. -/
theorem exists_log_ofTokens :
    ∃ errors : List SyntaxError, (Program.ofTokens tokens).2 = errors.map SyntaxError.report ∧
      ∀ e ∈ errors, Raised tokens e := by
  have hstart : Reachable tokens (Parser.ofTokens tokens Forms.standard []) := .refl
  have hrow := logs_rowWithin (fun q hq _ => blames_stmt htokens hq) none
    (Parser.ofTokens tokens Forms.standard []).remaining hstart (Nat.lt_succ_self _)
  exact hrow.reports

end Readers

/-! ### Sources -/

/-- The tokens of a source are closed as they are. -/
theorem lexical_closed_of_ofSource {source : String} {tokens : List Token}
    (h : Token.ofSource source = .ok tokens) : ∀ t ∈ closed tokens, t.Lexical := by
  have hlexical := lexical_of_ofSource h
  obtain ⟨⟨ts, line, rfl⟩, -⟩ := exists_of_ofSource h
  have hclosed : closed (ts ++ [Token.atEnd line]) = ts ++ [Token.atEnd line] := by
    simp [closed, Token.atEnd]
  rwa [hclosed]

/-- What is reported of a source. The log holds the reports of errors that reading raises. Each
such error has an ordinary fault, and its report says what the fault is by its shape and by what
is expected, whatever the text that is found, unless this text is misread; then it says something
else. -/
theorem reported_ofTokens {source : String} {tokens : List Token}
    (h : Token.ofSource source = .ok tokens) :
    (∃ errors : List SyntaxError, (Program.ofTokens tokens).2 = errors.map SyntaxError.report ∧
      ∀ e ∈ errors, Raised tokens e) ∧
    ∀ e, Raised tokens e → e.fault.Ordinary ∧ ∃ text, e.report = ⟨.malformed text, e.line⟩ ∧
      (e.fault.isMisread = false → text = e.fault.wording) ∧
      (e.fault.isMisread = true → text ≠ e.fault.wording ∧ e.fault.Misreads text) := by
  have htokens := lexical_closed_of_ofSource h
  refine ⟨exists_log_ofTokens htokens, fun e he => ?_⟩
  have hordinary := he.ordinary htokens
  exact ⟨hordinary, _, rfl, hordinary.reported⟩

/-- A branch without its opening parenthesis, and a name that is the word for what is absent. -/
def faultyRow : List Token :=
  [⟨.kwIf, "if", 1⟩, ⟨.number, "1", 1⟩, ⟨.semicolon, ";", 1⟩, ⟨.identifier, "missing", 2⟩,
    ⟨.semicolon, ";", 2⟩, .atEnd 2]

/-- The first fault is reported as what it is, and the second is misread. -/
theorem reported_faultyRow :
    Token.ofSource "if 1;\nmissing;" = .ok faultyRow ∧
    SyntaxError.report ⟨.missing .openParen "1", 1⟩
      = ⟨.malformed "Falta un paréntesis de apertura '('", 1⟩ ∧
    ∃ text, SyntaxError.report ⟨.noViableAlternative "missing;", 2⟩ = ⟨.malformed text, 2⟩ ∧
      text ≠ "Sintaxis incorrecta" := by
  have hsource : Token.ofSource "if 1;\nmissing;" = .ok faultyRow := by decide +kernel
  obtain ⟨-, hreported⟩ := reported_ofTokens hsource
  have hfirst : Raised faultyRow ⟨.missing .openParen "1", 1⟩ := .refused .refl rfl
  have hsecond : Raised faultyRow ⟨.noViableAlternative "missing;", 2⟩ :=
    .refused (.advance (.advance (.advance .refl))) rfl
  obtain ⟨-, text, htext, hright, -⟩ := hreported _ hfirst
  obtain ⟨-, text', htext', -, hmisread⟩ := hreported _ hsecond
  refine ⟨hsource, ?_, text', htext', (hmisread (by decide +kernel)).1⟩
  rw [htext, hright (by decide +kernel)]
  rfl

/-- A parenthesis that is missing before a semicolon is reported as a missing semicolon. -/
theorem missing_parenthesis_misread :
    ∃ tokens e, Token.ofSource "int a = (1;" = .ok tokens ∧ Raised tokens e ∧
      e.fault = .missing .closeParen ";" ∧ (Program.ofTokens tokens).2 = [e.report] ∧
      e.report = ⟨.malformed "Falta un punto y coma (;)", 1⟩ ∧
      e.fault.wording = "Falta un paréntesis de cierre ')'" := by
  refine ⟨[⟨.kwInt, "int", 1⟩, ⟨.identifier, "a", 1⟩, ⟨.assign, "=", 1⟩, ⟨.openParen, "(", 1⟩,
    ⟨.number, "1", 1⟩, ⟨.semicolon, ";", 1⟩, .atEnd 1], ⟨.missing .closeParen ";", 1⟩,
    by decide +kernel, .refused .refl rfl, rfl, ?_, by decide +kernel, rfl⟩
  rfl

end Tercet
