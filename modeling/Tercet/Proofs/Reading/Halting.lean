import Tercet.Proofs.Reading.Retained

/-!
# `Tercet.Proofs.Reading.Halting`: reading ends at the first end

Whatever the tokens, reading them comes to an end, and it ends at the first `eof`
(`reading_halts`). Three things are behind that.

A parser is only ever changed by passing a token, by reporting, and by skipping. `Parser.Moves`
is any number of these steps. They leave the row as it is, never go back and never pass an end,
so that every look at a token is a look into the row (`Parser.PlacedIn`).

A reader calls itself only where fewer tokens remain. So its value at a parser is settled by its
values there: whatever the inner reader does elsewhere, the outer one does the same
(`exprOf_eq_expr`, `stmtOf_eq_stmt`). This is what it means that the bounds on nesting are never
reached.

A loop passes a token in each round, so it is equal to its own unfolding, with no bound on the
rounds (`chain_of_some`, `moreWithin_eq_separated`, `row_of_more`).
-/

set_option autoImplicit false

namespace Tercet

open Reader

/-! ### The row and the places in it -/

/-- The row as it is read. One that does not end with an `eof` gets one, on the line of its last
token, or on line 1 if it is empty. -/
def closed (tokens : List Token) : List Token :=
  if tokens.getLast?.any fun t => t.kind == .eof then tokens
  else tokens ++ [Token.atEnd ((tokens.getLast?.map Token.line).getD 1)]

/-- The index of the first `eof`. -/
def firstEnd (tokens : List Token) : Nat :=
  (closed tokens).findIdx fun t => t.kind == .eof

namespace Stream

/-- A stream is read as the row with its end. -/
theorem tokens_ofTokens (tokens : List Token) : (ofTokens tokens).tokens = closed tokens := by
  cases hlast : tokens.getLast? with
  | none =>
    obtain rfl := List.getLast?_eq_none_iff.mp hlast
    rfl
  | some t =>
    by_cases heof : t.kind = .eof
    · have hparts : tokens.dropLast ++ [t] = tokens := List.dropLast_append_getLast? t hlast
      simp [ofTokens, closed, Stream.tokens, hlast, heof, hparts]
    · simp [ofTokens, closed, Stream.tokens, hlast, heof]

/-- At the start nothing has been passed. -/
theorem passed_ofTokens (tokens : List Token) : (ofTokens tokens).passed = [] := by
  unfold ofTokens
  split
  · rfl
  · split <;> rfl

/-- Looking ahead is looking into the row, and at its last token from there on. -/
theorem getElem?_tokens_peek (s : Stream) (n : Nat) :
    s.tokens[min (s.position + n) (s.tokens.length - 1)]? = some (s.peek n) := by
  have hlength : s.tokens.length - 1 = s.position + s.ahead.length := by
    simp [tokens, position]
  -- behind what has been passed, the row is what is ahead and the closing token
  have hrow (i : Nat) : s.tokens[s.position + i]? = (s.ahead ++ [s.last])[i]? := by
    rw [tokens, List.append_assoc, List.getElem?_append_right (by simp [position])]
    simp [position]
  rw [hlength, Nat.add_min_add_left, hrow, peek]
  by_cases hn : n < s.ahead.length
  · rw [Nat.min_eq_left (by omega), List.getElem?_append_left hn, List.getElem?_eq_getElem hn]
    rfl
  · rw [Nat.min_eq_right (by omega), List.getElem?_append_right (Nat.le_refl _),
      List.getElem?_eq_none (by omega : s.ahead.length ≤ n)]
    simp

/-- The line before is that of a token of the row. -/
theorem getElem?_tokens_previous (s : Stream) (h : s.position ≠ 0) :
    ∃ t, s.tokens[s.position - 1]? = some t ∧ s.previousLine = t.line := by
  cases hpassed : s.passed with
  | nil => exact absurd (by rw [position, hpassed]; rfl) h
  | cons t ts =>
    refine ⟨t, ?_, by rw [previousLine, hpassed]⟩
    simp [tokens, position, hpassed]

end Stream

/-- The parser stands in the row, no further than at its first end, and what it looks at is in
the row: the tokens from its place on, and the one before, if there is one. -/
structure Parser.PlacedIn (p : Parser) (tokens : List Token) : Prop where
  position_le : p.position ≤ firstEnd tokens
  peek : ∀ n, (closed tokens)[min (p.position + n) ((closed tokens).length - 1)]?
    = some (p.peek n)
  previous : p.position ≠ 0 →
    ∃ t, (closed tokens)[p.position - 1]? = some t ∧ p.previousLine = t.line

/-! ### Steps -/

/-- The parser gets from one place to another by passing tokens, reporting and skipping. -/
inductive Parser.Moves (p : Parser) : Parser → Prop where
  | refl : p.Moves p
  | advance {q : Parser} (h : p.Moves q) : p.Moves { q with toStream := q.toStream.advance }
  | report {q : Parser} (h : p.Moves q) (d : Diagnostic) : p.Moves (q.report d)
  | synchronize {q : Parser} (h : p.Moves q) (start : Nat) :
    p.Moves { q with toStream := q.toStream.synchronize start }

/-- Skipping passes tokens. -/
theorem Passes.synchronize (q : Parser) (start : Nat) :
    ∃ us, Passes q { q with toStream := q.toStream.synchronize start } us [] := by
  obtain ⟨us, hskip, hahead, hus⟩ := exists_skipTo start q.passed q.ahead
  refine ⟨us, hahead, ?_, hus⟩
  rw [Stream.synchronize, hskip]
  simp [Parser.past]

/-- What is left to pass after a first part. -/
theorem Passes.rest {p q r : Parser} {ts us : List Token} {ds es : Log} (hq : Passes p q ts ds)
    (hr : Passes p r (ts ++ us) (ds ++ es)) : Passes q r us es := by
  refine ⟨?_, ?_, fun t ht => hr.noEnd t (List.mem_append_right ts ht)⟩
  · have hahead := hq.ahead.symm.trans hr.ahead
    rw [List.append_assoc] at hahead
    exact List.append_cancel_left hahead
  · rw [hq.eq_past, Parser.past_past]
    exact hr.eq_past

namespace Parser.Moves

variable {p q r : Parser} {tokens : List Token}

/-- Steps can be put one after another. -/
theorem trans (h₁ : p.Moves q) (h₂ : q.Moves r) : p.Moves r := by
  induction h₂ with
  | refl => exact h₁
  | advance _ ih => exact ih.advance
  | report _ d ih => exact ih.report d
  | synchronize _ start ih => exact ih.synchronize start

/-- No step goes back or passes an end. -/
theorem passes (h : p.Moves q) : ∃ ts ds, Passes p q ts ds := by
  induction h with
  | refl => exact ⟨[], [], .refl p⟩
  | @advance q _ ih =>
    obtain ⟨ts, ds, hq⟩ := ih
    obtain ⟨us, hus, -⟩ := Passes.advance q
    exact ⟨_, _, hq.trans hus⟩
  | @report q _ d ih =>
    obtain ⟨ts, ds, hq⟩ := ih
    exact ⟨_, _, hq.trans (.report q d)⟩
  | @synchronize q _ start ih =>
    obtain ⟨ts, ds, hq⟩ := ih
    obtain ⟨us, hus⟩ := Passes.synchronize q start
    exact ⟨_, _, hq.trans hus⟩

/-- No step goes back. -/
theorem position_le (h : p.Moves q) : p.position ≤ q.position := by
  obtain ⟨ts, ds, hq⟩ := h.passes
  rw [hq.position_eq]
  omega

/-- No step changes which forms are read. -/
theorem forms_eq (h : p.Moves q) : q.forms = p.forms := by
  obtain ⟨ts, ds, hq⟩ := h.passes
  exact hq.forms_eq

/-- No step makes more tokens remain. -/
theorem remaining_le (h : p.Moves q) : q.remaining ≤ p.remaining := by
  obtain ⟨ts, ds, hq⟩ := h.passes
  rw [hq.remaining_eq]
  omega

/-- No step changes the row. -/
theorem tokens_eq (h : p.Moves q) : q.tokens = p.tokens := by
  induction h with
  | refl => rfl
  | advance _ ih => exact (Stream.tokens_advance _).trans ih
  | report _ d ih => exact ih
  | synchronize _ start ih => exact (Stream.tokens_synchronize _ start).trans ih

/-- Reports are made one by one. -/
theorem reports (p : Parser) (ds : Log) : p.Moves { p with log := p.log ++ ds } := by
  induction ds generalizing p with
  | nil =>
    rw [List.append_nil]
    exact .refl
  | cons d ds ih =>
    have hmore := (Moves.refl.report d).trans (ih (p.report d))
    rwa [Parser.report, List.append_assoc] at hmore

/-- What has been passed has been passed token by token. -/
theorem of_passes {ts : List Token} {ds : Log} (h : Passes p q ts ds) : p.Moves q := by
  induction ts generalizing p with
  | nil =>
    rw [h.eq_past, show q.ahead = p.ahead from h.ahead.symm]
    exact reports p ds
  | cons t ts ih =>
    have hcurrent : p.current = t := Parser.current_eq h.ahead
    obtain ⟨us, hus, hpassed⟩ := Passes.advance p
    have hend : p.current.kind ≠ .eof := by
      rw [hcurrent]
      exact h.noEnd t List.mem_cons_self
    rw [hpassed hend, hcurrent] at hus
    exact Moves.refl.advance.trans (ih (hus.rest h))

/-- The tokens passed hold no end, so the first end comes after them. -/
theorem firstEnd_eq (h : (Parser.ofTokens tokens Forms.standard []).Moves q) :
    firstEnd tokens
      = q.position + (q.ahead ++ [q.last]).findIdx fun t => t.kind == .eof := by
  obtain ⟨ts, ds, hq⟩ := h.passes
  have hpassed : q.passed = ts.reverse := by
    rw [hq.eq_past]
    show ts.reverse ++ (Stream.ofTokens tokens).passed = _
    rw [Stream.passed_ofTokens, List.append_nil]
  -- the row is what has been passed and what is ahead
  have hrow : closed tokens = ts ++ (q.ahead ++ [q.last]) := by
    rw [← Stream.tokens_ofTokens, ← List.append_assoc, ← List.reverse_reverse ts, ← hpassed]
    exact h.tokens_eq.symm
  have hnone : ¬(ts.findIdx fun t => t.kind == .eof) < ts.length := by
    rw [List.findIdx_lt_length]
    rintro ⟨t, ht, heof⟩
    exact hq.noEnd t ht (beq_iff_eq.mp heof)
  rw [firstEnd, hrow, List.findIdx_append, if_neg hnone, Stream.position, hpassed,
    List.length_reverse, Nat.add_comm]

/-- A parser that has started with a row stands in it. -/
theorem placedIn (h : (Parser.ofTokens tokens Forms.standard []).Moves q) :
    q.PlacedIn tokens := by
  have hrow : q.tokens = closed tokens := h.tokens_eq.trans (Stream.tokens_ofTokens tokens)
  refine ⟨?_, ?_, ?_⟩
  · rw [h.firstEnd_eq]
    exact Nat.le_add_right _ _
  · rw [← hrow]
    exact q.getElem?_tokens_peek
  · rw [← hrow]
    exact q.getElem?_tokens_previous

/-- At an end, it is the first one. -/
theorem position_eq_firstEnd (h : (Parser.ofTokens tokens Forms.standard []).Moves q)
    (hend : q.kind = .eof) : q.position = firstEnd tokens := by
  -- the token at which the parser stands is the first of those not passed
  have hzero : ((q.ahead ++ [q.last]).findIdx fun t => t.kind == .eof) = 0 := by
    rw [Parser.kind_eq rfl] at hend
    cases hahead : q.ahead with
    | nil => simp [q.last_kind]
    | cons t ts =>
      rw [hahead, Parser.following_cons] at hend
      simp [List.findIdx_cons, hend]
  rw [h.firstEnd_eq, hzero, Nat.add_zero]

end Parser.Moves

/-- The parser after a reader, which has succeeded or refused. -/
def Reader.after {α : Type} (x : Reader α) (p : Parser) : Parser :=
  match x p with
  | .ok _ q => q
  | .error _ q => q

/-- The reader only moves the parser. -/
def Reader.Moving {α : Type} (x : Reader α) : Prop :=
  ∀ p : Parser, p.forms = Forms.standard → p.Moves (x.after p)

/-- A reader that succeeds has moved the parser. -/
theorem Reader.Moving.moves_of_ok {α : Type} {x : Reader α} (hx : Moving x) {p q : Parser} {a : α}
    (hforms : p.forms = Forms.standard) (h : x p = .ok a q) : p.Moves q := by
  have hmoves := hx p hforms
  rwa [Reader.after, h] at hmoves

/-- Readers that move the parser do so one after another. -/
theorem Reader.Moving.bind {α β : Type} {x : Reader α} {f : α → Reader β} (hx : Moving x)
    (hf : ∀ a, Moving (f a)) : Moving (x >>= f) := by
  intro p hforms
  cases h : x p with
  | ok a q =>
    have hq := hx.moves_of_ok hforms h
    rw [Reader.after, bind_of_ok h]
    exact hq.trans (hf a q (hq.forms_eq.trans hforms))
  | error e q =>
    have hq := hx p hforms
    rw [Reader.after, bind_of_error h]
    rwa [Reader.after, h] at hq

/-- What two readers do alike is to move the parser. -/
theorem Parallel.moves {α : Type} {x y : Reader α} {p p' : Parser}
    {good : α → Parser → List Token → Log → Prop} (h : Parallel x y p p' good) :
    p.Moves (x.after p) := by
  cases h with
  | gives hx hy h hgood =>
    rw [Reader.after, hx]
    exact .of_passes h.left
  | refuses hx hy h =>
    rw [Reader.after, hx]
    exact .of_passes h.left

/-- An expression is read by moving the parser. -/
theorem moving_expr : Moving expr :=
  fun p _ => (parallel_expr (.refl p)).moves

/-- So is a term. -/
theorem moving_term : Moving term :=
  fun p _ => (parallel_termOf (fun _ _ hq _ => (parallel_expr hq).quiet) (.refl p)
    (Nat.le_refl _)).moves

/-- So is a factor. -/
theorem moving_factor : Moving factor :=
  fun p _ => (parallel_factorOf (fun _ _ hq _ => (parallel_expr hq).quiet) (.refl p)
    (Nat.le_refl _)).moves

/-- So is a declared name. -/
theorem moving_declarator : Moving declarator :=
  fun p _ => (parallel_declarator (.refl p)).moves

/-- So is a parameter. -/
theorem moving_parameter : Moving parameter :=
  fun p _ => (parallel_parameter (.refl p)).moves

/-- So is a statement. -/
theorem moving_stmt : Moving stmt :=
  fun p hforms => (parallel_stmt (.refl p) hforms).moves

/-- So is a row of statements. -/
theorem moving_row (stop : Option Kind) : Moving (modifyGet (row stop)) :=
  fun p hforms => (parallel_row stop (.refl p) hforms).moves

/-! ### Calls -/

/-- An expression is settled by the expressions inside it, which are read where fewer tokens
remain. -/
theorem exprOf_eq_expr {inner : Reader Expr} {p : Parser}
    (h : ∀ q : Parser, q.remaining < p.remaining → inner q = expr q) : exprOf inner p = expr p := by
  have hsame {inner : Reader Expr}
      (h : ∀ q : Parser, q.remaining < p.remaining → inner q = expr q) :
      exprOf inner p = exprOf expr p :=
    (parallel_exprOf (fun q q' hq hlt => (parallel_expr hq).quiet.congr (h q hlt) rfl) (.refl p)
      (Nat.le_refl _)).eq
  rw [hsame h]
  -- the bound starts as the number of tokens and goes down by one with each call
  symm
  show exprWithin p.remaining p = _
  cases hn : p.remaining with
  | zero => exact hsame fun q hlt => by omega
  | succ n =>
    refine hsame fun q hlt => ?_
    exact (parallel_exprWithin (.refl q) (by omega) (Nat.le_refl _)).eq

/-- A statement is settled by the statements inside it, which are read where fewer tokens
remain. -/
theorem stmtOf_eq_stmt {inner : Reader Stmt} {p : Parser} (hforms : p.forms = Forms.standard)
    (h : ∀ q : Parser, q.forms = Forms.standard → q.remaining < p.remaining →
      inner q = stmt q) : stmtOf inner p = stmt p := by
  have hsame {inner : Reader Stmt}
      (h : ∀ q : Parser, q.forms = Forms.standard → q.remaining < p.remaining →
        inner q = stmt q) : stmtOf inner p = stmtOf stmt p :=
    (parallel_stmtOf (fun q q' hq hq' hlt => (parallel_stmt hq hq').congr (h q hq' hlt) rfl)
      (.refl p) hforms (Nat.le_refl _)).eq
  rw [hsame h]
  -- as for expressions, the bound goes down with each call, and the tokens that remain do so too
  symm
  show stmtWithin p.remaining p = _
  cases hn : p.remaining with
  | zero => exact hsame fun q _ hlt => by omega
  | succ n =>
    refine hsame fun q hq hlt => ?_
    exact (parallel_stmtWithin (.refl q) hq (by omega) (Nat.le_refl _)).eq

/-! ### Loops -/

/-- What comes after a reader matters only where the reader leaves the parser. -/
theorem Reader.bind_congr {α β : Type} {x : Reader α} {f g : α → Reader β} {p : Parser}
    (h : ∀ a q, x p = .ok a q → f a q = g a q) : (x >>= f) p = (x >>= g) p := by
  cases hx : x p with
  | ok a q => rw [bind_of_ok hx, bind_of_ok hx, h a q hx]
  | error e q => rw [bind_of_error hx, bind_of_error hx]

/-- Only what the first reader does at the parser matters. -/
theorem Reader.bind_congr_left {α β : Type} {x y : Reader α} (f : α → Reader β) {p : Parser}
    (h : x p = y p) : (x >>= f) p = (y >>= f) p := by
  cases hy : y p with
  | ok a q => rw [bind_of_ok (h.trans hy), bind_of_ok hy]
  | error e q => rw [bind_of_error (h.trans hy), bind_of_error hy]

/-- A token that is no end is passed, and one fewer remains. -/
theorem moves_advance {p q : Parser} {t : Token} (hend : p.kind ≠ .eof)
    (h : (advance : Reader Token) p = .ok t q) :
    p.Moves q ∧ q.position = p.position + 1 ∧ q.remaining + 1 = p.remaining := by
  obtain ⟨ts, hpasses, hts⟩ := Passes.advance p
  obtain rfl := hts hend
  obtain rfl : { p with toStream := p.toStream.advance } = q := by
    injection h
  have hremaining := hpasses.remaining_eq
  rw [List.length_singleton] at hremaining
  exact ⟨.of_passes hpasses, hpasses.position_eq, by omega⟩

/-- A token and what is read after it leave fewer tokens. -/
theorem Reader.Moving.remaining_lt {α : Type} {x : Reader α} (hx : Moving x) {p q r : Parser}
    {t : Token} {a : α} (hforms : p.forms = Forms.standard) (hend : p.kind ≠ .eof)
    (hq : (advance : Reader Token) p = .ok t q) (hr : x q = .ok a r) :
    r.forms = Forms.standard ∧ r.remaining < p.remaining := by
  obtain ⟨hmoves, -, hremaining⟩ := moves_advance hend hq
  have hforms' := hmoves.forms_eq.trans hforms
  have hmoves' := hx.moves_of_ok hforms' hr
  have hle := hmoves'.remaining_le
  exact ⟨hmoves'.forms_eq.trans hforms', by omega⟩

section Operands

variable {α β : Type} {op? : Kind → Option BinaryOp} (join : α → BinaryOp → β → α) (left : α)
  {p : Parser}

/-- A row of operands ends where no operator follows. -/
theorem chainWithin_of_none (operand : Reader β) (hop : op? p.kind = none) (room : Nat) :
    chainWithin op? operand join room left p = .ok left p := by
  cases room with
  | zero => rfl
  | succ room =>
    rw [chainWithin, bind_of_ok (rfl : Reader.kind p = .ok p.kind p), hop]
    rfl

variable (hend : op? .eof = none) {operand : Reader β} (hoperand : Moving operand)

include hend

/-- With room for all tokens that remain, an operand is read after each operator. -/
theorem chainWithin_of_some (operand : Reader β) {op : BinaryOp} (hop : op? p.kind = some op)
    {room : Nat} (hroom : p.remaining ≤ room) :
    chainWithin op? operand join room left p
      = (do
          let _ ← advance
          let right ← operand
          chainWithin op? operand join (room - 1) (join left op right) : Reader α) p := by
  rw [chainWithin_of_remaining hend operand join left hroom,
    bind_of_ok (rfl : Reader.kind p = .ok p.kind p), hop]

/-- An operator is no end. -/
theorem kind_ne_eof_of_operator {op : BinaryOp} (hop : op? p.kind = some op) : p.kind ≠ .eof := by
  intro hkind
  rw [hkind, hend] at hop
  cases hop

include hoperand

/-- The bound on the number of operands does not matter, since each round passes an operator. -/
theorem chainWithin_eq_chain {room : Nat} (hforms : p.forms = Forms.standard)
    (hroom : p.remaining ≤ room) :
    chainWithin op? operand join room left p = chain op? operand join left p := by
  induction hm : p.remaining using Nat.strong_induction_on generalizing room left p with
  | _ m ih =>
    subst hm
    show _ = chainWithin op? operand join p.remaining left p
    cases hop : op? p.kind with
    | none => rw [chainWithin_of_none _ _ _ hop, chainWithin_of_none _ _ _ hop]
    | some op =>
      rw [chainWithin_of_some join left hend operand hop hroom,
        chainWithin_of_some join left hend operand hop (Nat.le_refl _)]
      refine bind_congr fun t q hq => bind_congr fun right r hr => ?_
      obtain ⟨hforms', hlt⟩ :=
        hoperand.remaining_lt hforms (kind_ne_eof_of_operator hend hop) hq hr
      -- both bounds have gone down by one, and the tokens by at least one
      rw [ih _ hlt _ hforms' (by omega) rfl, ih _ hlt _ hforms' (by omega) rfl]

/-- A row of operands is its own unfolding. -/
theorem chain_of_some (hforms : p.forms = Forms.standard) {op : BinaryOp}
    (hop : op? p.kind = some op) :
    chain op? operand join left p
      = (do
          let _ ← advance
          let right ← operand
          chain op? operand join (join left op right) : Reader α) p := by
  show chainWithin op? operand join p.remaining left p = _
  rw [chainWithin_of_some join left hend operand hop (Nat.le_refl _)]
  refine bind_congr fun t q hq => bind_congr fun right r hr => ?_
  obtain ⟨hforms', hlt⟩ := hoperand.remaining_lt hforms (kind_ne_eof_of_operator hend hop) hq hr
  exact chainWithin_eq_chain join _ hend hoperand hforms' (by omega)

end Operands

section Items

variable {α : Type} {p : Parser}

/-- A row of items ends where no comma follows. -/
theorem moreWithin_of_ne (item : Reader α) (hkind : p.kind ≠ .comma) (room : Nat) :
    moreWithin item room p = .ok [] p := by
  cases room with
  | zero => rfl
  | succ room =>
    rw [moreWithin, bind_of_ok (rfl : Reader.kind p = .ok p.kind p), if_neg hkind]
    rfl

/-- With room for all tokens that remain, an item is read after each comma. -/
theorem moreWithin_of_comma (item : Reader α) (hkind : p.kind = .comma) {room : Nat}
    (hroom : p.remaining ≤ room) :
    moreWithin item room p
      = (do
          let _ ← advance
          let first ← item
          let others ← moreWithin item (room - 1)
          return first :: others : Reader (List α)) p := by
  rw [moreWithin_of_remaining item hroom, bind_of_ok (rfl : Reader.kind p = .ok p.kind p),
    if_pos hkind]

variable {item : Reader α} (hitem : Moving item)

include hitem

/-- The bound on the number of items does not matter, since each round passes a comma. -/
theorem moreWithin_eq_moreWithin {room : Nat} (hforms : p.forms = Forms.standard)
    (hroom : p.remaining ≤ room) : moreWithin item room p = moreWithin item p.remaining p := by
  induction hm : p.remaining using Nat.strong_induction_on generalizing room p with
  | _ m ih =>
    subst hm
    by_cases hkind : p.kind = .comma
    · rw [moreWithin_of_comma item hkind hroom, moreWithin_of_comma item hkind (Nat.le_refl _)]
      refine bind_congr fun t q hq => bind_congr fun first r hr => bind_congr_left _ ?_
      obtain ⟨hforms', hlt⟩ := hitem.remaining_lt hforms (by rw [hkind]; decide) hq hr
      exact (ih _ hlt hforms' (by omega) rfl).trans (ih _ hlt hforms' (by omega) rfl).symm
    · rw [moreWithin_of_ne item hkind, moreWithin_of_ne item hkind]

/-- After a comma, a row of items starts again. -/
theorem moreWithin_eq_separated (hforms : p.forms = Forms.standard) (hkind : p.kind = .comma) :
    moreWithin item p.remaining p
      = (do
          let _ ← advance
          separated item : Reader (List α)) p := by
  rw [moreWithin_of_comma item hkind (Nat.le_refl _)]
  refine bind_congr fun t q hq => bind_congr fun first r hr => ?_
  obtain ⟨hforms', hlt⟩ := hitem.remaining_lt hforms (by rw [hkind]; decide) hq hr
  exact bind_congr_left _ (moreWithin_eq_moreWithin hitem hforms' (by omega))

end Items

/-! ### Reading a row of tokens -/

/-- The row has an end. -/
theorem firstEnd_lt (tokens : List Token) : firstEnd tokens < (closed tokens).length := by
  rw [firstEnd, List.findIdx_lt_length, ← Stream.tokens_ofTokens]
  refine ⟨(Stream.ofTokens tokens).last, ?_, ?_⟩
  · simp [Stream.tokens]
  · rw [(Stream.ofTokens tokens).last_kind]
    rfl

/-- Reading the tokens comes to an end at their first end. -/
structure Halts (tokens : List Token) : Prop where
  /-- There is a first end in the row. -/
  ends : firstEnd tokens < (closed tokens).length
  /-- Wherever the steps of reading have led, the parser stands in the row, and no step leads
  back. -/
  placed : ∀ p, (Parser.ofTokens tokens Forms.standard []).Moves p →
    p.PlacedIn tokens ∧ ∀ q, p.Moves q → p.position ≤ q.position
  /-- Readers are made of these steps, which they take one after another. -/
  steps : Moving (advance : Reader Token) ∧ (∀ e, Moving (report e)) ∧
    (∀ start, Moving (synchronize start)) ∧
    ∀ {α β : Type} (x : Reader α) (f : α → Reader β), Moving x → (∀ a, Moving (f a)) →
      Moving (x >>= f)
  /-- So the readers of the grammar only take such steps. -/
  readers : Moving factor ∧ Moving term ∧ Moving expr ∧ Moving declarator ∧ Moving parameter ∧
    Moving stmt ∧ ∀ stop, Moving (modifyGet (row stop))
  /-- An expression inside another is read where fewer tokens remain. -/
  exprs : ∀ (inner : Reader Expr) (p : Parser),
    (∀ q : Parser, q.remaining < p.remaining → inner q = expr q) → exprOf inner p = expr p
  /-- A statement inside another is read where fewer tokens remain. -/
  stmts : ∀ (inner : Reader Stmt) (p : Parser), p.forms = Forms.standard →
    (∀ q : Parser, q.forms = Forms.standard → q.remaining < p.remaining → inner q = stmt q) →
    stmtOf inner p = stmt p
  /-- A token that is passed at the start of a round is gone. -/
  advances : ∀ (p q : Parser) (t : Token), p.kind ≠ .eof →
    (advance : Reader Token) p = .ok t q → q.position = p.position + 1 ∧ q.remaining < p.remaining
  /-- A row of operands goes on as long as operators follow, one in each round. -/
  operands : ∀ {α β : Type} (op? : Kind → Option BinaryOp) (operand : Reader β)
    (join : α → BinaryOp → β → α) (left : α) (p : Parser), op? .eof = none → Moving operand →
    p.forms = Forms.standard →
    (op? p.kind = none → chain op? operand join left p = .ok left p) ∧
    ∀ op, op? p.kind = some op →
      chain op? operand join left p
        = (do
            let _ ← advance
            let right ← operand
            chain op? operand join (join left op right) : Reader α) p
  /-- A row of items goes on as long as commas follow, one in each round. -/
  items : ∀ {α : Type} (item : Reader α) (p : Parser), Moving item → p.forms = Forms.standard →
    (p.kind ≠ .comma → moreWithin item p.remaining p = .ok [] p) ∧
    (p.kind = .comma →
      moreWithin item p.remaining p = (advance >>= fun _ => separated item) p)
  /-- A row of statements goes on up to its stop or an end, and each round of it passes a token. -/
  rounds : ∀ (stop : Option Kind) (p : Parser), p.forms = Forms.standard →
    (p.kind = .eof ∨ some p.kind = stop → row stop p = ([], p)) ∧
    (¬(p.kind = .eof ∨ some p.kind = stop) →
      row stop p = Prod.map ((recovered stmt p).1.toList ++ ·) id
          (row stop (recovered stmt p).2) ∧
        p.position < (recovered stmt p).2.position)
  /-- The last place is that of the first end. -/
  finish : (row none (Parser.ofTokens tokens Forms.standard [])).2.position = firstEnd tokens

/-- Reading always comes to an end, at the first end of the row. -/
theorem reading_halts (tokens : List Token) : Halts tokens where
  ends := firstEnd_lt tokens
  placed p hp := ⟨hp.placedIn, fun q hq => hq.position_le⟩
  steps := ⟨fun _ _ => .advance .refl, fun e _ _ => .report .refl e.report,
    fun start _ _ => .synchronize .refl start, fun _ _ hx hf => hx.bind hf⟩
  readers := ⟨moving_factor, moving_term, moving_expr, moving_declarator, moving_parameter,
    moving_stmt, moving_row⟩
  exprs inner p h := exprOf_eq_expr h
  stmts inner p hforms h := stmtOf_eq_stmt hforms h
  advances p q t hend h := by
    obtain ⟨-, hposition, hremaining⟩ := moves_advance hend h
    exact ⟨hposition, by omega⟩
  operands op? operand join left p hend hoperand hforms :=
    ⟨fun hop => chainWithin_of_none join left operand hop p.remaining,
      fun op hop => chain_of_some join left hend hoperand hforms hop⟩
  items item p hitem hforms :=
    ⟨fun hkind => moreWithin_of_ne item hkind p.remaining, moreWithin_eq_separated hitem hforms⟩
  rounds stop p hforms := by
    refine ⟨rowWithin_of_end stmt p.remaining, fun hmore => ?_⟩
    obtain ⟨hround, ts, ds, hts, hpasses⟩ := row_of_more hforms hmore
    -- each round passes at least one token
    have hpassed : 0 < ts.length := List.length_pos_iff.mpr hts
    rw [hpasses.position_eq]
    exact ⟨hround, by omega⟩
  finish := by
    -- the outermost row stops at nothing but an end
    have hrow := parallel_row none (.refl (Parser.ofTokens tokens Forms.standard [])) rfl
    obtain ⟨-, ts, ds, h, -, -, hend⟩ := hrow.of_modifyGet
    exact (Parser.Moves.of_passes h.left).position_eq_firstEnd
      (hend.resolve_right (Option.some_ne_none _))

end Tercet
