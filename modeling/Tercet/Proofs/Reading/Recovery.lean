import Tercet.Proofs.Reading.Retained
import Tercet.Proofs.Reading.RoundTrip

/-!
# `Tercet.Proofs.Reading.Recovery`: a broken statement costs no other

Let tokens that spell statements come first, then tokens that are refused as a statement, up to a
semicolon, and then any tokens at all. The statements before are read as if nothing followed, and
those after as if nothing came before; in between there is one more report
(`ofTokens_of_broken`).

The row is cut in three. What stands before the broken statement is read back as printed
(`row_of_spells`). The broken statement is one round of the loop, and its run is set beside a run
that starts with it (`recovered_of_broken`). The rest is set beside a run over the rest alone
(`row_of_passes`).
-/

set_option autoImplicit false

namespace Tercet

open Reader Printed

/-! ### Before the broken statement -/

/-- Tokens that spell statements are read as those statements, whatever comes after them. Only an
`else` that the last of them would take must not. -/
theorem row_of_spells {stmts : List Stmt} (hwell : wellFormedRow stmts = true) {p : Parser}
    {ts rest : List Token} (hts : Spells (rowSlots stmts) ts) (hahead : p.ahead = ts ++ rest)
    (hforms : p.forms = Forms.standard)
    (hapart : ∀ s ∈ stmts.getLast?, s.endsOpen = true → (p.following rest).kind ≠ .kwElse) :
    ∃ q, Passes p q ts [] ∧ row none p = Prod.map (stmts ++ ·) id (row none q) := by
  have hread : ∀ s ∈ stmts, ReadsStmt stmt s := by
    intro s hs
    rw [wellFormedRow_eq_all, List.all_eq_true] at hwell
    exact reads_stmt (hwell s hs)
  -- each statement takes a token, so the bound on the rounds leaves room for the rest
  have hlength : stmts.length ≤ ts.length := by
    have hweight := Prints.weight_le hts.prints_standing
    rw [kept_standing] at hweight
    exact Nat.le_trans (length_le_weight_rowSlots stmts) hweight
  have hremaining : p.remaining = ts.length + rest.length := by
    rw [Stream.remaining, hahead, List.length_append]
  have hstop : ∀ k, (Forms.standard k).isSome = true → some k ≠ (none : Option Kind) :=
    fun _ _ => Option.some_ne_none _
  have hbelow : ElseBelow (standing ts ++ [⟨p.following rest, false⟩]) := by
    have hstanding := ElseBelow.standing (ts ++ [p.following rest])
    simpa [standing] using hstanding
  have hrow := rowWithin_append_of_prints hstop hread (p.remaining - stmts.length)
    hts.prints_standing (by rw [kept_standing, hahead]) hforms (by simp [standing]) hapart hbelow
  rw [kept_standing, reports_standing, Nat.add_sub_cancel' (by omega)] at hrow
  have hrest : rowWithin stmt none (p.remaining - stmts.length) (p.past ts rest [])
      = row none (p.past ts rest []) := by
    refine rowWithin_eq_row none hforms ?_
    show rest.length ≤ _
    omega
  rw [hrest] at hrow
  have hkinds := Prints.kind_ne_eof hts.prints_standing (all_kind_ne_eof_rowSlots stmts)
  rw [kept_standing] at hkinds
  exact ⟨p.past ts rest [], ⟨hahead, rfl, hkinds⟩, hrow⟩

/-! ### The broken statement -/

/-- A broken statement ends with its semicolon, if no closing brace comes before it. -/
theorem Stream.broken_append {ts : List Token}
    (hts : ∀ t ∈ ts, t.kind ≠ .semicolon ∧ t.kind ≠ .closeBrace ∧ t.kind ≠ .eof) {semi : Token}
    (hsemi : semi.kind = .semicolon) (fresh : Bool) (rest : List Token) :
    broken fresh (ts ++ semi :: rest) = ts ++ [semi] := by
  induction ts generalizing fresh with
  | nil => simp [broken, hsemi]
  | cons t ts ih =>
    rw [List.forall_mem_cons] at hts
    obtain ⟨⟨hsemicolon, hclose, heof⟩, hts⟩ := hts
    rw [List.cons_append, broken_cons heof hsemicolon hclose, ih hts, List.cons_append]

/-- One round of the loop at a broken statement passes it up to its semicolon. What is reported
is what its reader reports elsewhere, and then the refusal. -/
theorem recovered_of_broken {p p' q : Parser} {ts rest : List Token} {semi : Token}
    {e : SyntaxError} {ds : Log} (hb : p.Beside p') (hforms : p.forms = Forms.standard)
    (hahead : p.ahead = ts ++ semi :: rest)
    (hts : ∀ t ∈ ts, t.kind ≠ .semicolon ∧ t.kind ≠ .closeBrace ∧ t.kind ≠ .eof)
    (hsemi : semi.kind = .semicolon) (hrefused : stmt p = .error e q) (hlog : q.log = p.log ++ ds)
    (hbefore : q.position ≤ p.position + ts.length) :
    ∃ r, recovered stmt p' = (none, r) ∧ Passes p' r (ts ++ [semi]) (ds ++ [e.report]) := by
  cases parallel_stmt hb hforms with
  | gives hx hy h hgood =>
    rw [hrefused] at hx
    cases hx
  | @refuses e' u u' us es hx hy h =>
    rw [hrefused] at hx
    cases hx
    obtain rfl : es = ds := List.append_cancel_left (h.left.log_eq.symm.trans hlog)
    -- what has been passed before the refusal is part of the broken statement
    have hposition := h.left.position_eq
    have hparts : us ++ q.ahead = ts ++ semi :: rest := h.left.ahead.symm.trans hahead
    obtain ⟨vs, rfl, hleft⟩ : ∃ vs, ts = us ++ vs ∧ q.ahead = vs ++ semi :: rest := by
      rcases List.append_eq_append_iff.mp hparts with ⟨vs, hvs, hq⟩ | ⟨vs, hvs, hq⟩
      · exact ⟨vs, hvs, hq⟩
      · have hlength := congrArg List.length hvs
        rw [List.length_append] at hlength
        obtain rfl : vs = [] := List.eq_nil_of_length_eq_zero (by omega)
        exact ⟨[], by simpa using hvs.symm, hq.symm⟩
    have hposition' := h.right.position_eq
    -- from the refusal on, the rest of the broken statement is skipped
    have hskipped := passes_synchronize u' e.report (show p'.position ≤ u'.position by omega)
    rw [h.beside.ahead, hleft, Stream.broken_append
      (fun t ht => hts t (List.mem_append_right us ht)) hsemi] at hskipped
    refine ⟨_, by rw [recovered, hy], ?_⟩
    rw [List.append_assoc]
    exact h.right.trans hskipped

/-- Behind a statement that is refused, the row goes on. -/
theorem row_of_refused {p r : Parser} {ts : List Token} {ds : Log}
    (hforms : p.forms = Forms.standard) (hround : recovered stmt p = (none, r))
    (hpasses : Passes p r ts ds) (hts : ts ≠ []) : row none p = row none r := by
  have hmore : ¬(p.kind = .eof ∨ some p.kind = none) := by
    rintro (hend | hstop)
    · exact hts (hpasses.eq_nil_of_kind_eof hend)
    · cases hstop
  have hrow := (row_of_more hforms hmore).1
  rw [hround] at hrow
  exact hrow

/-! ### After the broken statement -/

/-- What stands ahead decides what is read and reported. -/
theorem row_of_beside {tokens : List Token} {p : Parser}
    (hb : (Parser.ofTokens tokens Forms.standard []).Beside p) :
    (row none p).1 = (Program.ofTokens tokens).1.body ∧
      (row none p).2.log = p.log ++ (Program.ofTokens tokens).2 := by
  obtain ⟨hsame, ts, ds, h, -⟩ := (parallel_row none hb rfl).of_modifyGet
  have hlog : (Program.ofTokens tokens).2 = ds := h.left.log_eq
  exact ⟨hsame, by rw [h.right.log_eq, hlog]⟩

namespace Parser

/-- The end of a row decides how it is closed. -/
theorem ofTokens_append (ts : List Token) {tokens : List Token} (hne : tokens ≠ [])
    (forms : Forms) (log : Log) :
    ofTokens (ts ++ tokens) forms log
      = { ofTokens tokens forms log with ahead := ts ++ (ofTokens tokens forms log).ahead } := by
  obtain ⟨t, ht⟩ : ∃ t, tokens.getLast? = some t := ⟨_, List.getLast?_eq_some_getLast hne⟩
  have hlast : (ts ++ tokens).getLast? = some t := by rw [List.getLast?_append, ht, Option.some_or]
  simp only [ofTokens, Stream.ofTokens, ht, hlast]
  by_cases heof : t.kind = .eof
  · simp [heof, List.dropLast_append_of_ne_nil hne]
  · simp [heof]

/-- The first token of a row is ahead of it, unless it is an end. -/
theorem exists_ahead_ofTokens_cons {t : Token} (ht : t.kind ≠ .eof) (tokens : List Token)
    (forms : Forms) (log : Log) : ∃ rest, (ofTokens (t :: tokens) forms log).ahead = t :: rest := by
  cases tokens with
  | nil => exact ⟨[], by simp [ofTokens, Stream.ofTokens, ht]⟩
  | cons u us =>
    have hsplit := ofTokens_append [t] (List.cons_ne_nil u us) forms log
    exact ⟨_, congrArg (fun p : Parser => p.ahead) hsplit⟩

/-- Once the first part of a row has been passed, the rest is ahead as it is alone. -/
theorem beside_ofTokens {ts tokens : List Token} (hne : tokens ≠ []) {forms : Forms}
    {log ds : Log} {q : Parser} (h : Passes (ofTokens (ts ++ tokens) forms log) q ts ds) :
    (ofTokens tokens forms log).Beside q := by
  have hahead := h.ahead
  have hlast := h.last_eq
  rw [ofTokens_append ts hne] at hahead hlast
  exact ⟨(List.append_cancel_left hahead).symm, hlast, h.forms_eq⟩

/-- No more tokens remain than the row has. -/
theorem remaining_ofTokens_le (tokens : List Token) (forms : Forms) (log : Log) :
    (ofTokens tokens forms log).remaining ≤ tokens.length := by
  simp only [ofTokens, Stream.ofTokens, Stream.remaining]
  split
  · exact Nat.zero_le _
  · split <;> simp

end Parser

/-- Past any tokens of a row, the rest of it is read as if nothing came before. -/
theorem row_of_passes {tokens after : List Token} {r : Parser} {ds : Log}
    (hpasses : Passes (Parser.ofTokens (tokens ++ after) Forms.standard []) r tokens ds) :
    (row none r).1 = (Program.ofTokens after).1.body ∧
      (row none r).2.log = ds ++ (Program.ofTokens after).2 := by
  have hlog : r.log = ds := hpasses.log_eq
  cases after with
  | nil =>
    -- the line of the closing token may differ, but both rows end here
    have hend : r.kind = .eof := by
      refine Parser.kind_of_remaining ?_
      have hremaining := hpasses.remaining_eq
      have hle := Parser.remaining_ofTokens_le (tokens ++ []) Forms.standard []
      rw [List.length_append, List.length_nil] at hle
      omega
    rw [row, rowOf, rowWithin_of_end stmt _ (.inl hend), hlog]
    exact ⟨rfl, (List.append_nil ds).symm⟩
  | cons t after =>
    rw [← hlog]
    exact row_of_beside (Parser.beside_ofTokens (List.cons_ne_nil t after) hpasses)

/-- Recovery is local. Let `ts` spell well-formed statements, and let the tokens `bad` after them,
up to a semicolon, be refused as a statement when they are read first. They must not start with an
`else` that the statements before would take. Then the statements before are read, those after are
read as they are alone, and what is reported is what the reader of the broken statement reports,
its refusal, and what is reported of the rest alone. -/
theorem ofTokens_of_broken (before : List Stmt) (hwell : wellFormedRow before = true)
    (ts : List Token) (hts : Spells (rowSlots before) ts) (bad : List Token)
    (hbad : ∀ t ∈ bad, t.kind ≠ .semicolon ∧ t.kind ≠ .closeBrace ∧ t.kind ≠ .eof)
    (hapart : ∀ s ∈ before.getLast?, s.endsOpen = true → ∀ t ∈ bad.head?, t.kind ≠ .kwElse)
    (semi : Token) (hsemi : semi.kind = .semicolon) (after : List Token) (e : SyntaxError)
    (q : Parser)
    (hrefused : stmt (Parser.ofTokens (bad ++ semi :: after) Forms.standard []) = .error e q)
    (hbefore : q.position ≤ bad.length) :
    Program.ofTokens (ts ++ bad ++ semi :: after)
      = (⟨before ++ (Program.ofTokens after).1.body⟩,
          q.log ++ [e.report] ++ (Program.ofTokens after).2) := by
  have hsemi' : semi.kind ≠ .eof := by rw [hsemi]; decide
  obtain ⟨rest, hrest⟩ := Parser.exists_ahead_ofTokens_cons hsemi' after Forms.standard []
  have hne : bad ++ semi :: after ≠ [] := by simp
  have hahead : (Parser.ofTokens (bad ++ semi :: after) Forms.standard []).ahead
      = bad ++ semi :: rest := by
    rw [Parser.ofTokens_append bad (List.cons_ne_nil semi after), hrest]
  -- the whole row has the statements ahead, and then what the broken row has
  have hahead' : (Parser.ofTokens (ts ++ (bad ++ semi :: after)) Forms.standard []).ahead
      = ts ++ (bad ++ semi :: rest) := by
    rw [Parser.ofTokens_append ts hne, hahead]
  have hnext (p : Parser) : ∀ s ∈ before.getLast?, s.endsOpen = true →
      (p.following (bad ++ semi :: rest)).kind ≠ .kwElse := by
    cases bad with
    | nil =>
      intro _ _ _
      show semi.kind ≠ .kwElse
      rw [hsemi]
      decide
    | cons t bad => exact fun s hs hopen => hapart s hs hopen t rfl
  -- from the start to `p` the statements are read, and from `p` to `r` the broken one is skipped
  obtain ⟨p, hp, hfirst⟩ := row_of_spells hwell hts hahead' rfl (hnext _)
  obtain ⟨r, hround, hbroken⟩ := recovered_of_broken (Parser.beside_ofTokens hne hp) rfl hahead hbad
    hsemi hrefused rfl (Nat.le_add_left_of_le hbefore)
  have hr : row none p = row none r := row_of_refused hp.forms_eq hround hbroken (by simp)
  have hrow : ts ++ (bad ++ semi :: after) = ts ++ (bad ++ [semi]) ++ after := by simp
  have hpasses := hp.trans hbroken
  rw [hrow] at hpasses
  obtain ⟨hbody, hlog⟩ := row_of_passes hpasses
  rw [List.append_assoc, Program.ofTokens, hfirst, hr, ← hbody]
  refine Prod.ext rfl ?_
  show (row none r).2.log = _
  rw [hlog]
  rfl

/-- A branch that ends open, on one line: `if (c) x = 1;`. -/
def openBranch : Stmt :=
  .ifThen (.term (.factor (.ident "c" 1)))
    (.assignment ⟨"x", .set, .term (.factor (.number "1" 1)), 1⟩) 1

def openBranchTokens : List Token :=
  [⟨.kwIf, "if", 1⟩, ⟨.openParen, "(", 1⟩, ⟨.identifier, "c", 1⟩, ⟨.closeParen, ")", 1⟩,
   ⟨.identifier, "x", 1⟩, ⟨.assign, "=", 1⟩, ⟨.number, "1", 1⟩, ⟨.semicolon, ";", 1⟩]

/-- A branch that misses a semicolon on its second line, and then has a number after its `else`,
where it is refused. -/
def brokenBranchTokens : List Token :=
  [⟨.kwIf, "if", 2⟩, ⟨.openParen, "(", 2⟩, ⟨.identifier, "a", 2⟩, ⟨.closeParen, ")", 2⟩,
   ⟨.identifier, "b", 2⟩, ⟨.assign, "=", 2⟩, ⟨.number, "1", 2⟩, ⟨.kwElse, "else", 3⟩,
   ⟨.number, "2", 3⟩]

/-- The branch before and the statement after are read. In between, the missing semicolon and the
number are reported. -/
theorem ofTokens_openBranch_brokenBranch :
    openBranch.endsOpen = true ∧ Spells (rowSlots [openBranch]) openBranchTokens ∧
      Program.ofTokens (openBranchTokens ++ brokenBranchTokens ++
          [⟨.semicolon, ";", 3⟩, ⟨.kwReturn, "return", 4⟩, ⟨.number, "3", 4⟩])
        = (⟨[openBranch, .result (some (.term (.factor (.number "3" 4)))) 4]⟩,
            [missingBefore ⟨.kwElse, "else", 3⟩, SyntaxError.report ⟨.extraneous "2", 3⟩,
              missingBefore (Token.atEnd 4)]) := by
  have hspells : Spells (rowSlots [openBranch]) openBranchTokens := by decide
  refine ⟨rfl, hspells, ?_⟩
  exact ofTokens_of_broken [openBranch] rfl openBranchTokens hspells brokenBranchTokens
    (by decide) (by simp [brokenBranchTokens]) ⟨.semicolon, ";", 3⟩ rfl
    [⟨.kwReturn, "return", 4⟩, ⟨.number, "3", 4⟩] ⟨.extraneous "2", 3⟩ _ rfl (by decide)

end Tercet
