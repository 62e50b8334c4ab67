import Tercet.Proofs.Acceptance
import Tercet.Proofs.Check.Unlined
import Tercet.Proofs.Reading.RoundTrip

/-!
# `Tercet.Proofs.Relayout`: where lines break does not matter

Sources may have the same tokens on different lines. `compile_relayout` compares their
compilations: both are accepted or neither, they have the same code, and if the first can be
read without a report, so can the second, the analyses complain about the same things in the
same order, and the counts are equal. Lines do matter to reading when something is wrong, since
the recovery from a missing semicolon looks at them; that is why the last part asks for quiet.

A row of tokens that is read in quiet is spelled by a tree, so another row with the same kinds
and texts is read as that tree with other lines (`ofTokens_of_same_words`). From there on lines
go into reports and symbols only: into no decision of the analysis (`alike_analyze`) and into
no code (`Program.lower_unlined`).
-/

set_option autoImplicit false

namespace Tercet

/-! ### Code -/

mutual

/-- The lines of an expression do not matter for its code. -/
theorem Expr.lower_unlined (e : Expr) : e.unlined.lower = e.lower := by
  match e with
  | .term t => exact t.lower_unlined
  | .binary left op right =>
    simp only [Expr.unlined, Expr.lower, left.lower_unlined, right.lower_unlined]

/-- Neither do those of a term. -/
theorem Term.lower_unlined (t : Term) : t.unlined.lower = t.lower := by
  match t with
  | .factor f => exact f.lower_unlined
  | .binary left op right =>
    simp only [Term.unlined, Term.lower, left.lower_unlined, right.lower_unlined]

/-- Neither do those of a factor. -/
theorem Factor.lower_unlined (f : Factor) : f.unlined.lower = f.lower := by
  match f with
  | .number _ _ | .ident _ _ => rfl
  | .call name arguments _ => simp only [Factor.unlined, Factor.lower, lower_unlinedArguments]
  | .group inner _ => exact inner.lower_unlined

/-- Neither do those of arguments. -/
theorem lower_unlinedArguments (es : List Expr) :
    lowerArguments (unlinedArguments es) = lowerArguments es := by
  match es with
  | [] => rfl
  | e :: es =>
    simp only [unlinedArguments, lowerArguments, e.lower_unlined, lower_unlinedArguments es]

end

/-- Neither do those of a first value. -/
theorem Declarator.lower_unlined (d : Declarator) : d.unlined.lower = d.lower := by
  obtain ⟨name, initializer⟩ := d
  cases initializer with
  | none => rfl
  | some e => simp only [Declarator.unlined, Declarator.lower, Option.map_some, e.lower_unlined]

/-- Neither does the line of a declaration. -/
theorem Declaration.lower_unlined (d : Declaration) : d.unlined.lower = d.lower := by
  rw [Declaration.lower, Declaration.lower, Declaration.unlined, List.forM_eq_forM,
    List.forM_map]
  exact congrArg _ (funext Declarator.lower_unlined)

/-- Neither do the lines of an assignment. -/
theorem Assignment.lower_unlined (a : Assignment) : a.unlined.lower = a.lower := by
  simp only [Assignment.unlined, Assignment.lower, a.value.lower_unlined]

/-- Neither do those of the start of a loop. -/
theorem ForInit.lower_unlined (init : Option ForInit) :
    ForInit.lower (init.map ForInit.unlined) = ForInit.lower init := by
  match init with
  | some (.declaration d) => exact d.lower_unlined
  | some (.assignment a) => exact a.lower_unlined
  | none => rfl

/-- Neither do those of the step of a loop. -/
theorem ForStep.lower_unlined (step : Option ForStep) :
    ForStep.lower (step.map ForStep.unlined) = ForStep.lower step := by
  match step with
  | some (.increment _ _) | some (.decrement _ _) => rfl
  | some (.assignment a) => exact a.lower_unlined
  | none => rfl

/-- A test jumps alike, on whatever line it stands. -/
theorem unlessGoto_unlined (e : Expr) (label : String) :
    Emit.unlessGoto e.unlined label = Emit.unlessGoto e label := by
  simp only [Emit.unlessGoto, e.lower_unlined]

mutual

/-- The lines of a statement do not matter for its code. A function is lowered with its signature,
of which only the name is written. -/
theorem Stmt.lower_unlined (s : Stmt) : s.unlined.lower = s.lower := by
  match s with
  | .block body _ => exact lower_unlinedRow body
  | .declaration d => exact d.lower_unlined
  | .assignment a => exact a.lower_unlined
  | .ifThen condition body _ | .whileLoop condition body _ =>
    simp only [Stmt.unlined, Stmt.lower, unlessGoto_unlined, body.lower_unlined]
  | .ifElse condition onTrue onFalse _ =>
    simp only [Stmt.unlined, Stmt.lower, unlessGoto_unlined, onTrue.lower_unlined,
      onFalse.lower_unlined]
  | .forLoop init none step body _ =>
    simp only [Stmt.unlined, Stmt.lower, Option.map_none, ForInit.lower_unlined,
      ForStep.lower_unlined, body.lower_unlined]
  | .forLoop init (some e) step body _ =>
    simp only [Stmt.unlined, Stmt.lower, Option.map_some, ForInit.lower_unlined,
      ForStep.lower_unlined, unlessGoto_unlined, body.lower_unlined]
  | .function signature body _ =>
    simp only [Stmt.unlined, Stmt.lower, lower_unlinedRow body]
    rfl
  | .prototype _ => rfl
  | .result none _ => rfl
  | .result (some e) _ =>
    simp only [Stmt.unlined, Stmt.lower, Option.map_some, e.lower_unlined]

/-- Neither do those of a row of statements. -/
theorem lower_unlinedRow (row : List Stmt) : lowerAll (unlinedRow row) = lowerAll row := by
  match row with
  | [] => rfl
  | s :: more => simp only [unlinedRow, lowerAll, s.lower_unlined, lower_unlinedRow more]

end

/-- Neither do those of a program. -/
theorem Program.lower_unlined (p : Program) : p.unlined.lower = p.lower := by
  rw [Program.lower, Program.lower, Program.unlined, lower_unlinedRow]

/-! ### Reading -/

/-- What a token is, wherever it stands. -/
def Token.word (t : Token) : Kind × String :=
  (t.kind, t.text)

/-- The words before the first end are those before the first end among the words. -/
theorem map_word_beforeEnd (tokens : List Token) :
    (beforeEnd tokens).map Token.word = (tokens.map Token.word).takeWhile fun w => w.1 != .eof := by
  rw [List.takeWhile_map]
  rfl

/-- Slots that one row of tokens suits are suited by any other with the same words. -/
theorem suits_of_same_words {slots : List Slot} {ts ts' : List Token}
    (h : List.Forall₂ Slot.Suits slots ts) (hsame : ts.map Token.word = ts'.map Token.word) :
    List.Forall₂ Slot.Suits slots ts' := by
  have hwords : List.Forall₂ (fun (s : Slot) (w : Kind × String) =>
      w.1 = s.kind ∧ ∀ text ∈ s.text, w.2 = text) slots (ts.map Token.word) :=
    List.forall₂_map_right_iff.mpr h
  rw [hsame] at hwords
  exact (List.forall₂_map_right_iff (f := Token.word)).mp hwords

/-- If a row of tokens is read without a report, then so is any other with the same words, and
the programs differ in their lines alone. -/
theorem ofTokens_of_same_words {tokens tokens' : List Token}
    (hsame : tokens.map Token.word = tokens'.map Token.word)
    (hquiet : (Program.ofTokens tokens).2 = []) :
    (Program.ofTokens tokens').2 = [] ∧
      (Program.ofTokens tokens').1.unlined = (Program.ofTokens tokens).1.unlined := by
  obtain ⟨hspells, hwell⟩ := tree_of_quiet hquiet
  have hbefore : (beforeEnd tokens).map Token.word = (beforeEnd tokens').map Token.word := by
    rw [map_word_beforeEnd, map_word_beforeEnd, hsame]
  -- the tree with the lines of the other tokens is spelled by these
  obtain ⟨q, hq, hspells'⟩ := Program.exists_relined (Program.ofTokens tokens).1
    (suits_of_same_words (hspells.imp fun _ _ h => h.suits) hbefore)
  have hwell' : q.wellFormed = true := by
    rw [← q.wellFormed_unlined, hq, Program.wellFormed_unlined]
    exact hwell
  have hrest : ∀ t ∈ (tokens'.dropWhile fun t => t.kind != .eof).head?, t.kind = .eof := by
    intro t ht
    have hfirst := List.head?_dropWhile_not (fun t : Token => t.kind != .eof) tokens'
    rw [ht] at hfirst
    simpa using hfirst
  -- reading undoes printing, so it is also what is read from them
  have hread := ofTokens_of_prints hwell' hspells'.prints_standing (.standing _) hrest
  rw [Printed.kept_standing, Printed.reports_standing, beforeEnd, List.takeWhile_append_dropWhile]
    at hread
  rw [hread]
  exact ⟨rfl, hq⟩

/-! ### Compiling -/

/-- Where nothing is wrong with the words, a compilation reports what the reading and the
analysis report. -/
theorem compile_of_ofSource {source : String} {tokens : List Token}
    (h : Token.ofSource source = .ok tokens) :
    (compile source).program = (Program.ofTokens tokens).1 ∧
      (compile source).stats = (Program.ofTokens tokens).1.analyze.stats ∧
      (compile source).log
        = (Program.ofTokens tokens).2 ++ (Program.ofTokens tokens).1.analyze.log := by
  have htokens : tokensOf source = (tokens, []) := by
    rw [tokensOf, h]
  simp only [compile, htokens, List.nil_append, and_self]

/-- The compilations of two rows of the same words that are read in quiet. -/
theorem alike_of_same_words {tokens tokens' : List Token}
    (hsame : tokens.map Token.word = tokens'.map Token.word)
    (hquiet : (Program.ofTokens tokens).2 = []) :
    (Program.ofTokens tokens).1.analyze.log.causes
        = (Program.ofTokens tokens').1.analyze.log.causes ∧
      (Program.ofTokens tokens).1.analyze.stats = (Program.ofTokens tokens').1.analyze.stats ∧
      (Program.ofTokens tokens).1.lower = (Program.ofTokens tokens').1.lower := by
  obtain ⟨_, hprogram⟩ := ofTokens_of_same_words hsame hquiet
  have halike := alike_analyze (Program.ofTokens tokens).1
  have halike' := alike_analyze (Program.ofTokens tokens').1
  rw [hprogram] at halike'
  refine ⟨?_, halike.stats.trans halike'.stats.symm, ?_⟩
  · exact halike.checker.causes.trans halike'.checker.causes.symm
  · rw [← Program.lower_unlined, ← hprogram, Program.lower_unlined]

/-- A source with the words of one that is accepted is accepted. -/
theorem accepted_of_same_words {source source' : String} {tokens tokens' : List Token}
    (h : Token.ofSource source = .ok tokens) (h' : Token.ofSource source' = .ok tokens')
    (hsame : tokens.map Token.word = tokens'.map Token.word)
    (haccepted : (compile source).log = []) : (compile source').log = [] := by
  rw [(compile_of_ofSource h).2.2, List.append_eq_nil_iff] at haccepted
  obtain ⟨hquiet, hclean⟩ := haccepted
  have hcauses := (alike_of_same_words hsame hquiet).1
  rw [hclean, eq_comm] at hcauses
  rw [(compile_of_ofSource h').2.2, (ofTokens_of_same_words hsame hquiet).1,
    List.map_eq_nil_iff.mp hcauses]
  rfl

/-- Layout does not matter. Of two sources with the same words, on whatever lines, both are
accepted or neither, and their code prints the same. If the first is read without a report,
then so is the second, both are reported for the same causes in the same order, and the counts
are equal. -/
theorem compile_relayout (source source' : String) (tokens tokens' : List Token)
    (h : Token.ofSource source = .ok tokens) (h' : Token.ofSource source' = .ok tokens')
    (hsame : tokens.map Token.word = tokens'.map Token.word) :
    ((compile source).log = [] ↔ (compile source').log = []) ∧
      (compile source).code.map Emitter.render = (compile source').code.map Emitter.render ∧
      ((Program.ofTokens tokens).2 = [] →
        (Program.ofTokens tokens').2 = [] ∧
          (compile source).log.causes = (compile source').log.causes ∧
          (compile source).stats = (compile source').stats) := by
  obtain ⟨hprogram, hstats, hlog⟩ := compile_of_ofSource h
  obtain ⟨hprogram', hstats', hlog'⟩ := compile_of_ofSource h'
  have haccepted : (compile source).log = [] ↔ (compile source').log = [] :=
    ⟨accepted_of_same_words h h' hsame, accepted_of_same_words h' h hsame.symm⟩
  refine ⟨haccepted, ?_, fun hquiet => ?_⟩
  · by_cases hclean : (compile source).log = []
    · have hquiet : (Program.ofTokens tokens).2 = [] :=
        (List.append_eq_nil_iff.mp (hlog.symm.trans hclean)).1
      have hlower := (alike_of_same_words hsame hquiet).2.2
      rw [← hprogram, ← hprogram'] at hlower
      rw [code_eq_some_iff.mpr ⟨hclean, hlower⟩, code_eq_some_iff.mpr ⟨haccepted.mp hclean, rfl⟩]
    · -- neither has code
      have hnone {source : String} (hlog : (compile source).log ≠ []) :
          (compile source).code = none :=
        Option.eq_none_iff_forall_ne_some.mpr fun g hg => hlog (code_eq_some_iff.mp hg).1
      rw [hnone hclean, hnone fun hclean' => hclean (haccepted.mpr hclean')]
  · obtain ⟨hcauses, hstatsEq, _⟩ := alike_of_same_words hsame hquiet
    refine ⟨(ofTokens_of_same_words hsame hquiet).1, ?_, ?_⟩
    · rw [hlog, hlog', hquiet, (ofTokens_of_same_words hsame hquiet).1]
      exact hcauses
    · rw [hstats, hstats', hstatsEq]

/-- A branch that reads and stores, on one line. -/
def branchOnOneLine : String :=
  "int x = 1; if (x) x = x + 2; else x = y;"

/-- The same words on eight lines. -/
def branchOnManyLines : String :=
  "int x // one\n= 1;\n\nif (x)\n  x = x /*\n\n*/ + 2; else\n  x = y;"

/-- The words of the branch, on the lines that are given. -/
def branchTokens (l₁ l₂ l₃ l₄ l₅ l₆ : Nat) : List Token :=
  [⟨.kwInt, "int", l₁⟩, ⟨.identifier, "x", l₁⟩, ⟨.assign, "=", l₂⟩, ⟨.number, "1", l₂⟩,
   ⟨.semicolon, ";", l₂⟩, ⟨.kwIf, "if", l₃⟩, ⟨.openParen, "(", l₃⟩, ⟨.identifier, "x", l₃⟩,
   ⟨.closeParen, ")", l₃⟩, ⟨.identifier, "x", l₄⟩, ⟨.assign, "=", l₄⟩, ⟨.identifier, "x", l₄⟩,
   ⟨.plus, "+", l₅⟩, ⟨.number, "2", l₅⟩, ⟨.semicolon, ";", l₅⟩, ⟨.kwElse, "else", l₅⟩,
   ⟨.identifier, "x", l₆⟩, ⟨.assign, "=", l₆⟩, ⟨.identifier, "y", l₆⟩, ⟨.semicolon, ";", l₆⟩,
   .atEnd l₆]

/-- A loop that is accepted, on one line. -/
def loopOnOneLine : String :=
  "int n = 3; while (n) n = n - 1;"

/-- The same words on five lines. -/
def loopOnManyLines : String :=
  "int n // three\n= 3;\nwhile (n)\n  n = n /* less\n one */ - 1;"

/-- The words of the loop, on the lines that are given. -/
def loopTokens (l₁ l₂ l₃ l₄ l₅ : Nat) : List Token :=
  [⟨.kwInt, "int", l₁⟩, ⟨.identifier, "n", l₁⟩, ⟨.assign, "=", l₂⟩, ⟨.number, "3", l₂⟩,
   ⟨.semicolon, ";", l₂⟩, ⟨.kwWhile, "while", l₃⟩, ⟨.openParen, "(", l₃⟩, ⟨.identifier, "n", l₃⟩,
   ⟨.closeParen, ")", l₃⟩, ⟨.identifier, "n", l₄⟩, ⟨.assign, "=", l₄⟩, ⟨.identifier, "n", l₄⟩,
   ⟨.minus, "-", l₅⟩, ⟨.number, "1", l₅⟩, ⟨.semicolon, ";", l₅⟩, .atEnd l₅]

/-- The branch is rejected on one line and on many, for the same cause. The loop is accepted on one
line and on many, with the same code. -/
theorem compile_relayout_branch :
    (Token.ofSource branchOnOneLine = .ok (branchTokens 1 1 1 1 1 1) ∧
      Token.ofSource branchOnManyLines = .ok (branchTokens 1 2 4 5 7 8) ∧
      (Program.ofTokens (branchTokens 1 1 1 1 1 1)).2 = [] ∧
      (compile branchOnOneLine).log = [⟨.undeclared "y", 1⟩] ∧
      (compile branchOnManyLines).log.causes = [.undeclared "y"]) ∧
    Token.ofSource loopOnOneLine = .ok (loopTokens 1 1 1 1 1) ∧
      Token.ofSource loopOnManyLines = .ok (loopTokens 1 2 3 4 5) ∧
      (compile loopOnOneLine).log = [] ∧ (compile loopOnManyLines).log = [] ∧
      ∃ text, (compile loopOnOneLine).code.map Emitter.render = some text ∧
        (compile loopOnManyLines).code.map Emitter.render = some text := by
  have hbranch : Token.ofSource branchOnOneLine = .ok (branchTokens 1 1 1 1 1 1) := by
    decide +kernel
  have hbranch' : Token.ofSource branchOnManyLines = .ok (branchTokens 1 2 4 5 7 8) := by
    decide +kernel
  have hquiet : (Program.ofTokens (branchTokens 1 1 1 1 1 1)).2 = [] := by decide +kernel
  have hlog : (compile branchOnOneLine).log = [⟨.undeclared "y", 1⟩] := by decide +kernel
  have hloop : Token.ofSource loopOnOneLine = .ok (loopTokens 1 1 1 1 1) := by decide +kernel
  have hloop' : Token.ofSource loopOnManyLines = .ok (loopTokens 1 2 3 4 5) := by decide +kernel
  have hclean : (compile loopOnOneLine).log = [] := by decide +kernel
  obtain ⟨haccepted, hcode, _⟩ := compile_relayout _ _ _ _ hloop hloop' rfl
  refine ⟨⟨hbranch, hbranch', hquiet, hlog, ?_⟩, hloop, hloop', hclean, haccepted.mp hclean, ?_⟩
  · have hcauses := ((compile_relayout _ _ _ _ hbranch hbranch' rfl).2.2 hquiet).2.1
    rw [← hcauses, hlog]
    rfl
  · rw [← hcode, code_eq_some_iff.mpr ⟨hclean, rfl⟩]
    exact ⟨_, rfl, rfl⟩

end Tercet
