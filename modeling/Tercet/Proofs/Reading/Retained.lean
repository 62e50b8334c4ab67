import Tercet.Proofs.Reading.Parallel

/-!
# `Tercet.Proofs.Reading.Retained`: what recovery keeps

Whatever the tokens, the program that is read is one of the grammar, and it is made of tokens of
the row, in their order (`retains_ofTokens`). Recovery leaves things out. It puts in nothing but
semicolons, which are forgiven where they are missing, so they are left out of the comparison:
`Retains slots ts` says that the slots other than semicolons are spelled by a subsequence of the
tokens.

The lemmas on statements compare two runs, as those on expressions do, and say at the same time
what is retained. One reader is compared in one lemma, and the theorem on programs, the locality
of recovery and the end of reading are all drawn from them. Where a statement is refused, how far
the skipping goes depends on the tokens ahead and on whether any have been passed
(`Stream.broken`), so it is the same in both runs.
-/

set_option autoImplicit false

namespace Tercet

open Reader Slot

/-! ### Retained tokens -/

/-- The slots without their semicolons. -/
def Slot.bare (slots : List Slot) : List Slot :=
  slots.filter fun s => s.kind != .semicolon

/-- Some of the tokens, in their order, spell the slots other than semicolons. -/
def Retains (slots : List Slot) (ts : List Token) : Prop :=
  ∃ kept, kept.Sublist ts ∧ Spells (bare slots) kept

namespace Retains

variable {slots more : List Slot} {ts us : List Token}

/-- No slots owe no tokens. -/
theorem nil (ts : List Token) : Retains [] ts :=
  ⟨[], List.nil_sublist ts, .nil⟩

/-- A semicolon owes nothing. -/
theorem semicolon {s : Slot} (hs : s.kind = .semicolon) (ts : List Token) : Retains [s] ts :=
  ⟨[], List.nil_sublist ts, by simp [bare, hs]⟩

/-- One row of slots after another. -/
theorem append (h : Retains slots ts) (h' : Retains more us) :
    Retains (slots ++ more) (ts ++ us) := by
  obtain ⟨kept, hkept, hspells⟩ := h
  obtain ⟨kept', hkept', hspells'⟩ := h'
  refine ⟨kept ++ kept', hkept.append hkept', ?_⟩
  rw [bare, List.filter_append]
  exact List.rel_append hspells hspells'

/-- A slot with its token. If it is a semicolon, the token is left over. -/
theorem cons {s : Slot} {t : Token} (hfits : s.Fits t) (h : Retains slots ts) :
    Retains (s :: slots) (t :: ts) := by
  obtain ⟨kept, hkept, hspells⟩ := h
  by_cases hs : s.kind = .semicolon
  · refine ⟨kept, hkept.cons t, ?_⟩
    rwa [bare, List.filter_cons_of_neg (by simp [hs])]
  · refine ⟨t :: kept, hkept.cons_cons t, ?_⟩
    rw [bare, List.filter_cons_of_pos (by simpa using hs)]
    exact .cons hfits hspells

/-- Tokens that are spelled out are retained. -/
theorem of_spells (h : Spells slots ts) : Retains slots ts := by
  induction h with
  | nil => exact nil []
  | cons hfits _ ih => exact cons hfits ih

/-- A statement does not start with a semicolon, so it retains a token. -/
theorem ne_nil {s : Stmt} (h : Retains s.slots ts) : ts ≠ [] := by
  rintro rfl
  obtain ⟨kept, hkept, hspells⟩ := h
  obtain ⟨slot, slots, hslots, -, hstarts⟩ := s.exists_slots_eq_cons
  have hkind : slot.kind ≠ .semicolon := by
    intro hkind
    rw [hkind] at hstarts
    cases hstarts
  rw [List.sublist_nil.mp hkept, hslots, bare,
    List.filter_cons_of_pos (by simpa using hkind)] at hspells
  cases hspells

end Retains

/-- The slots of two rows of statements. -/
theorem rowSlots_append (row row' : List Stmt) :
    rowSlots (row ++ row') = rowSlots row ++ rowSlots row' := by
  induction row with
  | nil => rfl
  | cons s row ih => rw [List.cons_append, rowSlots, rowSlots, ih, List.append_assoc]

/-- Two rows are well-formed if both of them are. -/
theorem wellFormedRow_append (row row' : List Stmt) :
    wellFormedRow (row ++ row') = (wellFormedRow row && wellFormedRow row') := by
  rw [wellFormedRow_eq_all, wellFormedRow_eq_all, wellFormedRow_eq_all, List.all_append]

/-! ### Skipping -/

namespace Stream

/-- The tokens that are skipped at the end of a broken statement. Before a closing brace none
are skipped, unless the statement is `fresh`: then nothing else has been passed of it. -/
def broken (fresh : Bool) : List Token → List Token
  | [] => []
  | t :: ts =>
    match t.kind with
    | .eof => []
    | .semicolon => [t]
    | .closeBrace => if fresh then [t] else []
    | _ => t :: broken false ts

/-- Any other token is skipped, and from then on the statement is not fresh. -/
theorem broken_cons {t : Token} (heof : t.kind ≠ .eof) (hsemicolon : t.kind ≠ .semicolon)
    (hclose : t.kind ≠ .closeBrace) (fresh : Bool) (ts : List Token) :
    broken fresh (t :: ts) = t :: broken false ts := by
  simp only [broken]

/-- What skipping passes is the end of the broken statement. The induction follows the skipping. -/
theorem skipTo_eq_broken {start : Nat} (passed ahead : List Token) (h : start ≤ passed.length) :
    (skipTo start passed ahead).1 = (broken (passed.length == start) ahead).reverse ++ passed := by
  fun_induction skipTo start passed ahead with
  | case1 passed => rfl
  | case2 passed t ts hkind => simp [broken, hkind]
  | case3 passed t ts hkind => simp [broken, hkind]
  | case4 passed t ts hkind hstart => simp [broken, hkind, hstart]
  | case5 passed t ts hkind hstart => simp [broken, hkind, hstart]
  | case6 passed t ts heof hsemicolon hclose ih =>
    -- from the second token on, something has been passed
    have hpassed : ((t :: passed).length == start) = false := by
      rw [List.length_cons, beq_eq_false_iff_ne]
      omega
    rw [ih (Nat.le_succ_of_le h), hpassed, broken_cons heof hsemicolon hclose, List.reverse_cons,
      List.append_assoc]
    rfl

/-- A fresh statement loses at least one token. -/
theorem broken_ne_nil {t : Token} (ht : t.kind ≠ .eof) (ts : List Token) :
    broken true (t :: ts) ≠ [] := by
  rw [broken]
  split
  · rename_i heof
    exact absurd heof ht
  · exact List.cons_ne_nil _ _
  · rw [if_pos rfl]
    exact List.cons_ne_nil _ _
  · exact List.cons_ne_nil _ _

end Stream

/-- At the end of a broken statement, the refusal is reported and the rest skipped. -/
theorem passes_synchronize (q : Parser) (d : Diagnostic) {start : Nat} (h : start ≤ q.position) :
    Passes q { q.report d with toStream := q.toStream.synchronize start }
      (Stream.broken (q.position == start) q.ahead) [d] := by
  obtain ⟨us, hpasses⟩ := exists_passes_synchronize q d start
  have hpassed := Stream.skipTo_eq_broken q.passed q.ahead h
  have hus : (us.reverse ++ q.passed) = (Stream.skipTo start q.passed q.ahead).1 :=
    (congrArg (fun r : Parser => r.passed) hpasses.eq_past).symm
  rw [hpassed, List.append_cancel_right_eq, List.reverse_inj] at hus
  rwa [hus] at hpasses

/-! ### Statements -/

/-- The tokens passed retain the statement, the grammar produces it, and no `else` is left that
it would have taken. -/
def StmtKept (s : Stmt) (q : Parser) (ts : List Token) (_ : Log) : Prop :=
  Retains s.slots ts ∧ s.wellFormed = true ∧ (s.endsOpen = true → q.kind ≠ .kwElse)

/-- The tokens passed retain the statements, and the row has ended where it should. -/
def RowKept (stop : Option Kind) (row : List Stmt) (q : Parser) (ts : List Token) (_ : Log) :
    Prop :=
  Retains (rowSlots row) ts ∧ wellFormedRow row = true ∧ (q.kind = .eof ∨ some q.kind = stop)

/-- Parsers beside each other find a statement ended alike, if the line before is the same. -/
theorem Parser.Beside.statementEnded {p p' : Parser} (hb : p.Beside p')
    (hline : p'.previousLine = p.previousLine) : p'.statementEnded = p.statementEnded := by
  rw [Parser.statementEnded, Parser.statementEnded, hb.kind, hb.forms, hb.current, hline]

/-- Whether a missing semicolon is forgiven depends on the line before. -/
theorem parallel_expectSemicolon {p p' : Parser} (hb : p.Beside p')
    (hline : p'.previousLine = p.previousLine) :
    Parallel expectSemicolon expectSemicolon p p' fun _ _ _ _ => True := by
  refine Parallel.get ?_
  simp only [hb.kind, hb.missing, hb.statementEnded hline]
  split
  · exact (Parallel.advance hb).map _ fun _ _ _ _ _ => trivial
  · split
    · exact .gives rfl rfl ⟨.report p _, .report p' _, ⟨hb.ahead, hb.last, hb.forms⟩⟩ trivial
    · exact .throw hb _

/-- What has an ending is read with it, or without it. -/
theorem parallel_ending {α : Type} {part : Reader α} {slots : α → List Slot} {good : α → Prop}
    {p p' : Parser} (hpart : Parallel part part p p' (silently (Spelled slots good)))
    (hne : ∀ a, slots a ≠ []) (f : α → Stmt) (hslots : ∀ a, (f a).slots = slots a ++ [ending])
    (hgood : ∀ a, good a → (f a).wellFormed = true) (hclosed : ∀ a, (f a).endsOpen = false) :
    Parallel (do let a ← part; expectSemicolon; return f a)
      (do let a ← part; expectSemicolon; return f a) p p' StmtKept := by
  refine hpart.bind fun a q q' ts ds hq hread => ?_
  obtain ⟨-, hspells, ha⟩ := hread
  -- some token has been passed, so both runs look at the same line before
  have hts : ts ≠ [] := by
    rintro rfl
    exact hne a (List.forall₂_nil_right_iff.mp hspells)
  refine (parallel_expectSemicolon hq.beside (hq.previousLine_eq hts)).map _ ?_
  intro _ r us es _
  refine ⟨?_, hgood a ha, ?_⟩
  · rw [hslots]
    exact (Retains.of_spells hspells).append (.semicolon rfl us)
  · rw [hclosed]
    intro hopen
    cases hopen

/-- A `return` is read alike, with its value and its semicolon or without them. -/
theorem parallel_resultStmt {p p' : Parser} (hb : p.Beside p') (hkind : p.kind = .kwReturn) :
    Parallel resultStmt resultStmt p p' StmtKept := by
  refine (Parallel.advance_of_ne hb (by rw [hkind]; decide)).bind ?_
  rintro _ q q' _ _ hq ⟨-, rfl, rfl⟩
  refine Parallel.bind (parallel_optionalBefore hq.beside _ (parallel_expr hq.beside)
    (yields_optionalBefore _ yields_expr q)) ?_
  rintro value r r' us _ hr ⟨rfl, hus, hvalue⟩
  -- the keyword has been passed, so both runs look at the same line before
  have hline := (hq.trans hr).previousLine_eq (List.cons_ne_nil p.current us)
  refine (parallel_expectSemicolon hr.beside hline).map _ ?_
  intro _ u vs es _
  refine ⟨?_, hvalue, fun h => nomatch h⟩
  have hfirst : Spells (Slot.first .kwReturn p.current.line :: optionSlots Expr.slots value)
      (p.current :: us) := .cons (fits_first.mpr ⟨hkind, rfl⟩) hus
  cases value with
  | none => exact (Retains.of_spells hfirst).append (.semicolon rfl vs)
  | some e => exact (Retains.of_spells hfirst).append (.semicolon rfl vs)

/-- With room for all tokens that remain, a row goes on where it has not come to an end. -/
theorem rowWithin_of_more (inner : Reader Stmt) {stop : Option Kind} {room : Nat} {p : Parser}
    (hroom : p.remaining ≤ room) (hmore : ¬(p.kind = .eof ∨ some p.kind = stop)) :
    rowWithin inner stop room p
      = ((recovered inner p).1.toList ++ (rowWithin inner stop (room - 1) (recovered inner p).2).1,
          (rowWithin inner stop (room - 1) (recovered inner p).2).2) := by
  cases room with
  | zero => exact absurd (.inl (Parser.kind_of_remaining (Nat.le_zero.mp hroom))) hmore
  | succ room =>
    rw [rowWithin, if_neg]
    · rfl
    · rwa [Bool.or_eq_true, Stream.atEnd, beq_iff_eq, beq_iff_eq]

/-- A row that goes on, as a reader: a statement with recovery, and then the rest. -/
theorem Reader.modifyGet_rowWithin (inner : Reader Stmt) {stop : Option Kind} {room : Nat}
    {p : Parser} (hroom : p.remaining ≤ room) (hmore : ¬(p.kind = .eof ∨ some p.kind = stop)) :
    (modifyGet (rowWithin inner stop room) : Reader (List Stmt)) p
      = (do
          let first ← modifyGet (recovered inner)
          let others ← modifyGet (rowWithin inner stop (room - 1))
          return first.toList ++ others : Reader (List Stmt)) p :=
  modifyGet_of_eq (rowWithin_of_more inner hroom hmore)

section Rows

variable {inner inner' : Reader Stmt} {n : Nat}
  (hinner : ∀ q q', q.Beside q' → q.forms = Forms.standard → q.remaining < n →
    Parallel inner inner' q q' StmtKept)

include hinner

/-- A statement is read alike or refused and skipped alike, and passes some token. -/
theorem parallel_recovered {p p' : Parser} (hb : p.Beside p') (hforms : p.forms = Forms.standard)
    (hn : p.remaining < n) (hend : p.kind ≠ .eof) :
    Parallel (modifyGet (recovered inner)) (modifyGet (recovered inner')) p p'
      fun o _ ts _ => ts ≠ [] ∧ Retains (rowSlots o.toList) ts ∧ wellFormedRow o.toList = true := by
  cases hinner p p' hb hforms hn with
  | @gives s q q' ts ds hx hy h hread =>
    have hp : recovered inner p = (some s, q) := by rw [recovered, hx]
    have hp' : recovered inner' p' = (some s, q') := by rw [recovered, hy]
    refine Parallel.gives (modifyGet_of_eq hp) (modifyGet_of_eq hp') h ⟨hread.1.ne_nil, ?_, ?_⟩
    · simpa [rowSlots] using hread.1
    · simpa [wellFormedRow] using hread.2.1
  | @refuses e q q' ts ds hx hy h =>
    have hp : recovered inner p
        = (none, { q.report e.report with toStream := q.toStream.synchronize p.position }) := by
      rw [recovered, hx]
    have hp' : recovered inner' p'
        = (none, { q'.report e.report with toStream := q'.toStream.synchronize p'.position }) := by
      rw [recovered, hy]
    have hq := h.left.position_eq
    have hq' := h.right.position_eq
    -- the statement is fresh in both runs or in neither
    have hfresh : (q'.position == p'.position) = (q.position == p.position) := by
      rw [hq, hq']
      simp
    have hleft := passes_synchronize q e.report (show p.position ≤ q.position by omega)
    have hright := passes_synchronize q' e.report (show p'.position ≤ q'.position by omega)
    rw [hfresh, h.beside.ahead] at hright
    refine Parallel.gives (modifyGet_of_eq hp) (modifyGet_of_eq hp')
      (h.trans ⟨hleft, hright, h.beside.passes hleft hright⟩) ⟨?_, .nil _, rfl⟩
    -- if nothing has been passed before the refusal, the skipping passes something
    intro hnil
    obtain ⟨rfl, hnil⟩ := List.append_eq_nil_iff.mp hnil
    have hahead : p.ahead = q.ahead := h.left.ahead
    rw [hq, List.length_nil, Nat.add_zero, beq_self_eq_true, ← hahead] at hnil
    cases hcases : p.ahead with
    | nil => exact hend (Parser.kind_of_remaining (by rw [Stream.remaining, hcases]; rfl))
    | cons t rest =>
      rw [Parser.kind_eq hcases, Parser.following_cons] at hend
      rw [hcases] at hnil
      exact Stream.broken_ne_nil hend rest hnil

/-- Each round of a row passes a token, so any bound on the rounds will do that is no smaller
than the number of tokens. -/
theorem parallel_rowWithin (stop : Option Kind) {room room' : Nat} {p p' : Parser}
    (hb : p.Beside p') (hforms : p.forms = Forms.standard) (hn : p.remaining < n)
    (hroom : p.remaining ≤ room) (hroom' : p.remaining ≤ room') :
    Parallel (modifyGet (rowWithin inner stop room)) (modifyGet (rowWithin inner' stop room')) p p'
      (RowKept stop) := by
  -- on the tokens that remain, and not on the bounds: these need not be the same
  induction hm : p.remaining using Nat.strong_induction_on generalizing room room' p p' with
  | _ m ih =>
    subst hm
    by_cases hend : p.kind = .eof ∨ some p.kind = stop
    · have hend' : p'.kind = .eof ∨ some p'.kind = stop := by rwa [hb.kind]
      exact .gives (modifyGet_of_eq (rowWithin_of_end inner room hend))
        (modifyGet_of_eq (rowWithin_of_end inner' room' hend')) (.refl hb) ⟨.nil _, rfl, hend⟩
    · have hend' : ¬(p'.kind = .eof ∨ some p'.kind = stop) := by rwa [hb.kind]
      refine Parallel.congr ?_ (modifyGet_rowWithin inner hroom hend)
        (modifyGet_rowWithin inner' (by rwa [hb.remaining]) hend')
      refine (parallel_recovered hinner hb hforms hn (fun h => hend (.inl h))).bind ?_
      rintro first q q' ts ds hq ⟨hts, hfirst, hwell⟩
      have hq₁ := hq.remaining_eq
      have hq₂ : 0 < ts.length := List.length_pos_iff.mpr hts
      refine (ih q.remaining (by omega) hq.beside (by rw [hq.left.forms_eq, hforms]) (by omega)
        (by omega) (by omega) rfl).map _ ?_
      rintro others r us es ⟨hothers, hwell', hlast⟩
      refine ⟨?_, ?_, hlast⟩
      · rw [rowSlots_append]
        exact hfirst.append hothers
      · rw [wellFormedRow_append, hwell, hwell']
        rfl

/-- So is a row with room for all the tokens. -/
theorem parallel_rowOf (stop : Option Kind) {p p' : Parser} (hb : p.Beside p')
    (hforms : p.forms = Forms.standard) (hn : p.remaining < n) :
    Parallel (modifyGet (rowOf inner stop)) (modifyGet (rowOf inner' stop)) p p'
      (RowKept stop) := by
  have hrow := parallel_rowWithin hinner stop hb hforms hn (Nat.le_refl _)
    (Nat.le_of_eq hb.remaining.symm)
  exact hrow.congr rfl rfl

/-- A block is read alike. Its closing brace ends the row. -/
theorem parallel_blockOf {p p' : Parser} (hb : p.Beside p') (hforms : p.forms = Forms.standard)
    (hn : p.remaining ≤ n) :
    Parallel (blockOf inner) (blockOf inner') p p' fun b _ ts _ =>
      Retains (Slot.first .openBrace b.2 :: (rowSlots b.1 ++ [mark .closeBrace])) ts ∧
        wellFormedRow b.1 = true := by
  refine (Parallel.expect hb (by decide)).bind ?_
  rintro o q q' _ _ hq ⟨rfl, hopen, -, rfl⟩
  have hq₁ : p.remaining = 1 + q.remaining := hq.remaining_eq
  refine (parallel_rowOf hinner (some .closeBrace) hq.beside
    (by rw [hq.left.forms_eq, hforms]) (by omega)).bind ?_
  rintro body r r' us es hr ⟨hbody, hwell, -⟩
  refine (Parallel.expect hr.beside (by decide)).map _ ?_
  rintro c u _ _ ⟨rfl, hclose, -, rfl⟩
  refine ⟨.cons (fits_first.mpr ⟨hopen, rfl⟩) (hbody.append ?_), hwell⟩
  exact .cons (fits_mark.mpr hclose) (.nil [])

/-- A function is read alike, its prototype with the semicolon after it. -/
theorem parallel_functionOf {p p' : Parser} (hb : p.Beside p')
    (hforms : p.forms = Forms.standard) (hn : p.remaining ≤ n) :
    Parallel (functionOf inner) (functionOf inner') p p' StmtKept := by
  refine Parallel.line hb ((parallel_dataType hb).bind ?_)
  rintro type q₁ q₁' _ _ h₁ ⟨rfl, htype, rfl⟩
  refine (Parallel.expect h₁.beside (by decide)).bind ?_
  rintro name q₂ q₂' _ _ h₂ ⟨rfl, hname, -, rfl⟩
  refine (Parallel.expect h₂.beside (by decide)).bind ?_
  rintro o q₃ q₃' _ _ h₃ ⟨rfl, hopen, -, rfl⟩
  refine (parallel_parameters h₃.beside).bind ?_
  rintro parameters q₄ q₄' us _ h₄ ⟨rfl, hus⟩
  refine (Parallel.expect h₄.beside (by decide)).bind ?_
  rintro c q₅ q₅' _ _ h₅ ⟨rfl, hclose, -, rfl⟩
  -- the head of the function, whatever comes after it
  have hhead : Retains (Signature.slots ⟨type, name.text, parameters, p.current.line⟩)
      (p.current :: name :: o :: (us ++ [c])) :=
    .of_spells (.cons (fits_first.mpr ⟨htype, rfl⟩) (.cons (fits_word.mpr ⟨hname, rfl⟩)
      (.cons (fits_mark.mpr hopen) (List.rel_append hus (.cons (fits_mark.mpr hclose) .nil)))))
  have hpassed := h₁.trans (h₂.trans (h₃.trans (h₄.trans h₅)))
  refine Parallel.kind h₅.beside ?_
  split
  · refine (Parallel.advance h₅.beside).map _ ?_
    rintro t r vs _ -
    refine ⟨?_, rfl, fun h => nomatch h⟩
    have hkept := hhead.append (.semicolon (s := mark .semicolon) rfl vs)
    simpa [Stmt.slots] using hkept
  -- with a body, which comes behind the whole head
  · have hq₅ := hpassed.remaining_eq
    refine (parallel_blockOf hinner h₅.beside (by rw [hpassed.left.forms_eq, hforms])
      (by omega)).map _ ?_
    rintro ⟨body, bodyLine⟩ r vs es ⟨hvs, hbody⟩
    refine ⟨?_, hbody, fun h => nomatch h⟩
    have hkept := hhead.append hvs
    simpa [Stmt.slots] using hkept

/-- What starts with a type is read alike. The tokens after it tell a function from a
declaration. -/
theorem parallel_typedOf {p p' : Parser} (hb : p.Beside p') (hforms : p.forms = Forms.standard)
    (hn : p.remaining ≤ n) : Parallel (typedOf inner) (typedOf inner') p p' StmtKept := by
  refine Parallel.get ?_
  rw [hb.peek, hb.peek]
  split
  · exact parallel_functionOf hinner hb hforms hn
  · exact parallel_ending (parallel_declaration hb) (fun _ => List.cons_ne_nil _ _) .declaration
      (fun _ => rfl) (fun _ h => h) (fun _ => rfl)

omit hinner in
/-- A keyword and the condition after it, and then whatever comes after them. -/
theorem parallel_headed {f g : Token → Expr → Reader Stmt} {k : Kind} {p p' : Parser}
    (hb : p.Beside p') (hkind : p.kind = k) (hk : k ≠ .eof)
    (hmore : ∀ e q q' ts, Abreast p p' q q' ts [] → q.remaining < p.remaining →
      Spells (Slot.first k p.current.line :: conditionSlots e) ts → e.wellFormed = true →
      Parallel (f p.current e) (g p.current e) q q' fun s r us ds => StmtKept s r (ts ++ us) ds) :
    Parallel (advance >>= fun t => condition >>= f t) (advance >>= fun t => condition >>= g t) p p'
      StmtKept := by
  refine (Parallel.advance_of_ne hb (hkind ▸ hk)).bind ?_
  rintro _ q₁ q₁' _ _ h₁ ⟨rfl, rfl, rfl⟩
  refine (parallel_condition h₁.beside).bind ?_
  rintro e q₂ q₂' cs _ h₂ ⟨rfl, hcs, he⟩
  have hq₁ : p.remaining = 1 + q₁.remaining := h₁.remaining_eq
  have hq₂ := h₂.remaining_eq
  exact hmore e q₂ q₂' _ (h₁.trans h₂) (by omega) (.cons (fits_first.mpr ⟨hkind, rfl⟩) hcs) he

/-- A branch is read alike. It takes the `else` that comes next, if there is one. -/
theorem parallel_branchOf {p p' : Parser} (hb : p.Beside p') (hforms : p.forms = Forms.standard)
    (hn : p.remaining ≤ n) (hkind : p.kind = .kwIf) :
    Parallel (branchOf inner) (branchOf inner') p p' StmtKept := by
  refine parallel_headed hb hkind (by decide) fun e q₁ q₁' ts h₁ hlt hts he => ?_
  have hforms₁ : q₁.forms = Forms.standard := h₁.left.forms_eq.trans hforms
  refine (hinner q₁ q₁' h₁.beside hforms₁ (by omega)).bind ?_
  rintro onTrue q₂ q₂' vs ds h₂ ⟨hvs, htrue, hopen⟩
  refine Parallel.kind h₂.beside ?_
  split
  · rename_i helse
    refine (Parallel.advance_of_ne h₂.beside (by rw [helse]; decide)).bind ?_
    rintro _ q₃ q₃' _ _ h₃ ⟨rfl, rfl, rfl⟩
    have hq₂ := h₂.remaining_eq
    have hq₃ := h₃.remaining_eq
    refine (hinner q₃ q₃' h₃.beside (by rw [h₃.left.forms_eq, h₂.left.forms_eq, hforms₁])
      (by omega)).map _ ?_
    rintro onFalse r ws es ⟨hws, hfalse, hopen'⟩
    -- had it ended open, it would have taken the `else` that is still there
    have hclosed : onTrue.endsOpen = false := by
      rw [Bool.eq_false_iff]
      exact fun h => hopen h helse
    refine ⟨?_, by simp [Stmt.wellFormed, he, htrue, hclosed, hfalse], hopen'⟩
    exact (Retains.of_spells hts).append (hvs.append (.cons (fits_mark.mpr helse) hws))
  · rename_i helse
    refine .pure h₂.beside ?_
    rw [List.append_nil]
    refine ⟨?_, by simp [Stmt.wellFormed, he, htrue], fun _ => helse⟩
    exact (Retains.of_spells hts).append hvs

/-- A loop is read alike. -/
theorem parallel_whileOf {p p' : Parser} (hb : p.Beside p') (hforms : p.forms = Forms.standard)
    (hn : p.remaining ≤ n) (hkind : p.kind = .kwWhile) :
    Parallel (whileOf inner) (whileOf inner') p p' StmtKept := by
  refine parallel_headed hb hkind (by decide) fun e q q' ts hq hlt hts he => ?_
  refine (hinner q q' hq.beside (hq.left.forms_eq.trans hforms) (by omega)).map _ ?_
  rintro body r vs ds ⟨hvs, hbody, hopen⟩
  refine ⟨?_, by simp [Stmt.wellFormed, he, hbody], hopen⟩
  exact (Retains.of_spells hts).append hvs

/-- A counted loop is read alike, part by part. -/
theorem parallel_forOf {p p' : Parser} (hb : p.Beside p') (hforms : p.forms = Forms.standard)
    (hn : p.remaining ≤ n) (hkind : p.kind = .kwFor) :
    Parallel (forOf inner) (forOf inner') p p' StmtKept := by
  refine (Parallel.advance_of_ne hb (by rw [hkind]; decide)).bind ?_
  rintro _ q₁ q₁' _ _ h₁ ⟨rfl, rfl, rfl⟩
  refine (Parallel.expect h₁.beside (by decide)).bind ?_
  rintro o q₂ q₂' _ _ h₂ ⟨rfl, hopen, -, rfl⟩
  refine (parallel_forInit h₂.beside).bind ?_
  rintro init q₃ q₃' is _ h₃ ⟨rfl, his, hinit⟩
  refine (Parallel.expect h₃.beside (by decide)).bind ?_
  rintro s₁ q₄ q₄' _ _ h₄ ⟨rfl, hs₁, -, rfl⟩
  refine (parallel_optionalBefore h₄.beside _ (parallel_expr h₄.beside)
    (yields_optionalBefore _ yields_expr q₄)).bind ?_
  rintro condition q₅ q₅' cs _ h₅ ⟨rfl, hcs, hcondition⟩
  refine (Parallel.expect h₅.beside (by decide)).bind ?_
  rintro s₂ q₆ q₆' _ _ h₆ ⟨rfl, hs₂, -, rfl⟩
  refine (parallel_optionalBefore h₆.beside _ (parallel_forStep h₆.beside)
    (yields_optionalBefore _ yields_forStep q₆)).bind ?_
  rintro step q₇ q₇' ss _ h₇ ⟨rfl, hss, hstep⟩
  refine (Parallel.expect h₇.beside (by decide)).bind ?_
  rintro c q₈ q₈' _ _ h₈ ⟨rfl, hclose, -, rfl⟩
  -- the body comes behind the keyword and the head, so fewer tokens remain there
  have hpassed := h₂.trans (h₃.trans (h₄.trans (h₅.trans (h₆.trans (h₇.trans h₈)))))
  have hq₁ : p.remaining = 1 + q₁.remaining := h₁.remaining_eq
  have hq₈ := hpassed.remaining_eq
  refine (hinner q₈ q₈' h₈.beside (by rw [hpassed.left.forms_eq, h₁.left.forms_eq, hforms])
    (by omega)).map _ ?_
  rintro body r vs ds ⟨hvs, hbody, hends⟩
  refine ⟨?_, by simp only [Stmt.wellFormed, hinit, hcondition, hstep, hbody]; rfl, hends⟩
  exact .cons (fits_first.mpr ⟨hkind, rfl⟩) (.cons (fits_mark.mpr hopen)
    ((Retains.of_spells his).append (.cons (fits_mark.mpr hs₁) ((Retains.of_spells hcs).append
      (.cons (fits_mark.mpr hs₂) ((Retains.of_spells hss).append
        (.cons (fits_mark.mpr hclose) hvs)))))))

/-- The table of the language sends each kind to the reader of its form. -/
theorem parallel_stmtOf {p p' : Parser} (hb : p.Beside p') (hforms : p.forms = Forms.standard)
    (hn : p.remaining ≤ n) : Parallel (stmtOf inner) (stmtOf inner') p p' StmtKept := by
  refine Parallel.get ?_
  rw [hb.kind, hb.forms, hb.current, hforms]
  cases hkind : p.kind with
  | kwInt | kwDouble | kwVoid => exact parallel_typedOf hinner hb hforms hn
  | identifier =>
    exact parallel_ending (parallel_assignment hb) (fun _ => List.cons_ne_nil _ _) .assignment
      (fun _ => rfl) (fun _ h => h) (fun _ => rfl)
  | kwIf => exact parallel_branchOf hinner hb hforms hn hkind
  | kwWhile => exact parallel_whileOf hinner hb hforms hn hkind
  | kwFor => exact parallel_forOf hinner hb hforms hn hkind
  | openBrace =>
    refine (parallel_blockOf hinner hb hforms hn).map _ ?_
    rintro ⟨body, line⟩ q ts ds ⟨hts, hbody⟩
    exact ⟨hts, hbody, fun h => nomatch h⟩
  | kwReturn => exact parallel_resultStmt hb hkind
  | _ => exact .throw hb _

end Rows

/-- Any bound on nesting will do that is no smaller than the number of tokens. -/
theorem parallel_stmtWithin {depth depth' : Nat} {p p' : Parser} (hb : p.Beside p')
    (hforms : p.forms = Forms.standard) (hdepth : p.remaining ≤ depth)
    (hdepth' : p.remaining ≤ depth') :
    Parallel (stmtWithin depth) (stmtWithin depth') p p' StmtKept := by
  induction depth generalizing depth' p p' with
  | zero =>
    -- without tokens there is nothing for the inner readers to be called at
    have hnone (q : Parser) (h : q.remaining < p.remaining) : False := by omega
    cases depth' with
    | zero => exact parallel_stmtOf (fun q _ _ _ h => (hnone q h).elim) hb hforms (Nat.le_refl _)
    | succ depth' =>
      exact parallel_stmtOf (fun q _ _ _ h => (hnone q h).elim) hb hforms (Nat.le_refl _)
  | succ depth ih =>
    cases depth' with
    | zero =>
      refine parallel_stmtOf (fun q _ _ _ h => ?_) hb hforms (Nat.le_refl _)
      omega
    | succ depth' =>
      refine parallel_stmtOf (fun q q' hq hq' h => ?_) hb hforms (Nat.le_refl _)
      exact ih hq hq' (by omega) (by omega)

/-- A statement is read alike. -/
theorem parallel_stmt {p p' : Parser} (hb : p.Beside p') (hforms : p.forms = Forms.standard) :
    Parallel stmt stmt p p' StmtKept :=
  Parallel.get (parallel_stmtWithin hb hforms (Nat.le_refl _) (Nat.le_of_eq hb.remaining.symm))

/-- So is a row of statements. -/
theorem parallel_row (stop : Option Kind) {p p' : Parser} (hb : p.Beside p')
    (hforms : p.forms = Forms.standard) :
    Parallel (modifyGet (row stop)) (modifyGet (row stop)) p p' (RowKept stop) :=
  parallel_rowOf (fun _ _ hq hforms _ => parallel_stmt hq hforms) stop hb hforms
    (Nat.lt_succ_self _)

/-! ### The loop over statements -/

/-- Any bound on the rounds will do that is no smaller than the number of tokens. -/
theorem rowWithin_eq_row (stop : Option Kind) {room : Nat} {p : Parser}
    (hforms : p.forms = Forms.standard) (hroom : p.remaining ≤ room) :
    rowWithin stmt stop room p = row stop p := by
  have hrow := parallel_rowWithin (fun _ _ hq hforms _ => parallel_stmt hq hforms) stop (.refl p)
    hforms (Nat.lt_succ_self _) hroom (Nat.le_refl _)
  obtain ⟨hsame, ts, ds, h, -⟩ := hrow.of_modifyGet
  exact Prod.ext hsame.symm (h.left.right_unique h.right)

/-- Where a row goes on, it passes a statement, read or refused, and some token with it. -/
theorem row_of_more {stop : Option Kind} {p : Parser} (hforms : p.forms = Forms.standard)
    (hmore : ¬(p.kind = .eof ∨ some p.kind = stop)) :
    row stop p = Prod.map ((recovered stmt p).1.toList ++ ·) id
        (row stop (recovered stmt p).2) ∧
      ∃ ts ds, ts ≠ [] ∧ Passes p (recovered stmt p).2 ts ds := by
  have hround := parallel_recovered (fun _ _ hq hforms _ => parallel_stmt hq hforms) (.refl p)
    hforms (Nat.lt_succ_self _) (fun h => hmore (.inl h))
  obtain ⟨-, ts, ds, h, hts, -⟩ := hround.of_modifyGet
  refine ⟨?_, ts, ds, hts, h.left⟩
  have hremaining := h.remaining_eq
  have hpassed : 0 < ts.length := List.length_pos_iff.mpr hts
  rw [row, rowOf, rowWithin_of_more stmt (Nat.le_refl _) hmore,
    rowWithin_eq_row stop (h.left.forms_eq.trans hforms) (by omega)]
  rfl

/-! ### Programs -/

/-- What is read from tokens is well-formed. -/
theorem wellFormed_ofTokens (tokens : List Token) :
    (Program.ofTokens tokens).1.wellFormed = true := by
  have hrow := parallel_row none (.refl (Parser.ofTokens tokens Forms.standard [])) rfl
  obtain ⟨-, ts, ds, h, -, hwell, -⟩ := hrow.of_modifyGet
  exact hwell

/-- Whatever the tokens, what is read is well-formed, and its tokens apart from semicolons stand
in the row before the first end, in their order: kinds, names and numbers. -/
theorem retains_ofTokens (tokens : List Token) :
    (Program.ofTokens tokens).1.wellFormed = true ∧
      ∃ kept, kept.Sublist (beforeEnd tokens) ∧
        Spells ((Program.ofTokens tokens).1.slots.filter fun s => s.kind != .semicolon) kept := by
  have hrow := parallel_row none (.refl (Parser.ofTokens tokens Forms.standard [])) rfl
  obtain ⟨-, ts, ds, h, ⟨kept, hsublist, hspells⟩, hwell, hend⟩ := hrow.of_modifyGet
  have hpassed := beforeEnd_eq_of_passes h.left (hend.resolve_right (Option.some_ne_none _))
  rw [hpassed] at hsublist
  exact ⟨hwell, kept, hsublist, hspells⟩

end Tercet
