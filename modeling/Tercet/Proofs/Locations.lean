import Tercet.Compilation
import Tercet.Proofs.Check.Lines
import Tercet.Proofs.Reading.Lines
import Tercet.Proofs.Token.Lossless

/-!
# `Tercet.Proofs.Locations`: diagnostics are ordered and stand on lines of the source

`located_compile` is about the log of any compilation. The syntactic diagnostics come first and
in the order of their lines, the semantic ones follow, and each stands on a line that the source
has: the line of one of its tokens, the closing one included (`OnToken`), or of the character at
which it cannot be cut (`OnStray`).

The semantic diagnostics are not in the order of their lines: an unread variable is reported when
the whole program has been passed, and a function when its body has been.

A line is followed from the source to the log in three steps. Tokens are numbered by the newlines
before them, so their lines never go back (`sorted_tokensAfter`). Reading reports at the token
where it stands (`located_ofTokens`), and the analysis at lines that the tree has
(`known_analyze`).
-/

set_option autoImplicit false

namespace Tercet

/-! ### Lines of tokens -/

/-- The line is that of a token of the source, which can be cut. -/
def OnToken (source : String) (line : Nat) : Prop :=
  ∃ tokens, Token.ofSource source = .ok tokens ∧ ∃ t ∈ tokens, t.line = line

/-- The line is that of the character at which the source cannot be cut. -/
def OnStray (source : String) (line : Nat) : Prop :=
  ∃ before c after, source.toList = before ++ c :: after ∧
    Pattern.firstMatch (c :: after) = none ∧ line = 1 + Lexeme.newlines before ∧
    Token.ofSource source = .error ⟨.unrecognized c, line⟩

/-- The last of the tokens is the closing one. -/
theorem exists_tokensAfter (before : List Char) (words : List Placed) (last : List Char) :
    ∃ ts line, tokensAfter before words last = ts ++ [Token.atEnd line] := by
  induction words generalizing before with
  | nil => exact ⟨[], _, rfl⟩
  | cons w more ih =>
    obtain ⟨ts, line, hts⟩ := ih (before ++ w.gap ++ w.text.toList)
    exact ⟨_ :: ts, line, by rw [tokensAfter, hts, List.cons_append]⟩

/-- Tokens stand between the line on which the text starts and the one on which it ends. -/
theorem line_tokensAfter {before last : List Char} {words : List Placed} {t : Token}
    (ht : t ∈ tokensAfter before words last) :
    1 + Lexeme.newlines before ≤ t.line ∧
      t.line ≤ 1 + Lexeme.newlines (before ++ written words last) := by
  induction words generalizing before with
  | nil =>
    obtain rfl := List.mem_singleton.mp ht
    simp [Token.atEnd, written]
  | cons w more ih =>
    rw [tokensAfter, List.mem_cons] at ht
    rcases ht with rfl | ht
    · simp only [written, Lexeme.newlines_append]
      omega
    · have hmore := ih ht
      simp only [written, Lexeme.newlines_append] at hmore ⊢
      omega

/-- The lines of tokens never go back. -/
theorem sorted_tokensAfter (before : List Char) (words : List Placed) (last : List Char) :
    ((tokensAfter before words last).map Token.line).Pairwise (· ≤ ·) := by
  induction words generalizing before with
  | nil => exact List.pairwise_singleton _ _
  | cons w more ih =>
    rw [tokensAfter, List.map_cons, List.pairwise_cons]
    refine ⟨?_, ih _⟩
    intro line hline
    obtain ⟨t, ht, rfl⟩ := List.mem_map.mp hline
    have hfrom := (line_tokensAfter ht).1
    simp only [Lexeme.newlines_append] at hfrom ⊢
    omega

/-- A source that cannot be cut is refused on the line of the first character that starts no
lexeme. -/
theorem onStray_of_ofSource {source : String} {e : SyntaxError}
    (h : Token.ofSource source = .error e) : OnStray source e.line := by
  have hparts := Lexeme.split_append 1 source.toList
  have hstop := Lexeme.firstMatch_split 1 source.toList
  have hsource := h
  rw [Token.ofSource] at h
  split at h
  · cases h
  · rename_i lexemes c rest hsplit
    cases h
    rw [hsplit] at hparts hstop
    exact ⟨_, c, rest, hparts.symm, hstop, Lexeme.endLine_eq lexemes, hsource⟩

/-! ### Lines within the source -/

/-- The line is there, and something of the source stands on it. -/
structure Located (source : String) (line : Nat) : Prop where
  one_le : 1 ≤ line
  le_last : line ≤ 1 + Lexeme.newlines source.toList
  place : OnToken source line ∨ OnStray source line

/-- The line of a character that cannot be cut is one of the source. -/
theorem located_of_onStray {source : String} {line : Nat} (h : OnStray source line) :
    Located source line := by
  have ⟨before, c, after, hsource, _, hline, _⟩ := h
  refine ⟨?_, ?_, .inr h⟩
  · omega
  · rw [hsource, Lexeme.newlines_append]
    omega

/-- The tokens of a source are in the order of their lines, and a closing one is the last. -/
theorem exists_of_ofSource {source : String} {tokens : List Token}
    (h : Token.ofSource source = .ok tokens) :
    (∃ ts line, tokens = ts ++ [Token.atEnd line]) ∧
      (tokens.map Token.line).Pairwise (· ≤ ·) ∧ ∀ t ∈ tokens, Located source t.line := by
  have hstart : 1 = 1 + Lexeme.newlines [] := rfl
  obtain ⟨words, last, hsource, _, _, rfl⟩ :=
    exists_written_of_scan (Token.ofSource_eq_ok_iff.mp h) hstart
  refine ⟨exists_tokensAfter [] words last, sorted_tokensAfter [] words last, fun t ht => ?_⟩
  obtain ⟨hfrom, hto⟩ := line_tokensAfter ht
  rw [List.nil_append, ← hsource] at hto
  exact ⟨hfrom, hto, .inl ⟨_, h, t, ht, rfl⟩⟩

/-! ### The log -/

/-- A log in two blocks is cut into them by the family. -/
theorem Log.ofFamily_of_blocks {first second : Log} (hfirst : ∀ d ∈ first, d.family = .syntactic)
    (hsecond : ∀ d ∈ second, d.family = .semantic) :
    (first ++ second).ofFamily .syntactic = first ∧
      (first ++ second).ofFamily .semantic = second := by
  have hnone : first.ofFamily .semantic = [] :=
    List.filter_eq_nil_iff.mpr fun d hd => by simp [hfirst d hd]
  have hnone' : second.ofFamily .syntactic = [] :=
    List.filter_eq_nil_iff.mpr fun d hd => by simp [hsecond d hd]
  have hall : first.ofFamily .syntactic = first :=
    List.filter_eq_self.mpr fun d hd => by simp [hfirst d hd]
  have hall' : second.ofFamily .semantic = second :=
    List.filter_eq_self.mpr fun d hd => by simp [hsecond d hd]
  simp only [ofFamily, List.filter_append] at hnone hnone' hall hall' ⊢
  rw [hnone, hnone', hall, hall', List.append_nil, List.nil_append]
  exact ⟨rfl, rfl⟩

/-- The log of a compilation is what cutting and reading report, and then what the analysis
does. -/
theorem exists_log_compile (source : String) :
    ∃ first second : Log, (compile source).log = first ++ second ∧
      (∀ d ∈ first, Located source d.line ∧ d.family = .syntactic) ∧
      (first.map Diagnostic.line).Pairwise (· ≤ ·) ∧
      ∀ d ∈ second, Located source d.line ∧ d.family = .semantic := by
  cases h : Token.ofSource source with
  | error e =>
    -- nothing is read, so that the one report is the only one
    have hlog : (compile source).log = [e.report] := by
      simp only [compile, tokensOf, h]
      rfl
    have hplace := located_of_onStray (onStray_of_ofSource h)
    exact ⟨[e.report], [], hlog, List.forall_mem_singleton.mpr ⟨hplace, rfl⟩,
      List.pairwise_singleton _ _, List.forall_mem_nil _⟩
  | ok tokens =>
    -- tokens are in the order of their lines, and reading and the analysis report at their lines
    obtain ⟨⟨ts, line, rfl⟩, hsorted, hlocated⟩ := exists_of_ofSource h
    obtain ⟨hslots, hlines, hreports⟩ := located_ofTokens rfl hsorted hlocated
    refine ⟨_, _, ?_, hreports, hlines, known_analyze hslots⟩
    simp only [compile, tokensOf, h, List.nil_append]

/-- Diagnostics are ordered and located. The syntactic ones come first, in the order of their
lines; the semantic ones follow; and the line of each is one of the source, on which a token
stands, or the character at which the source cannot be cut. -/
theorem located_compile (source : String) :
    (compile source).log = (compile source).log.ofFamily .syntactic ++
      (compile source).log.ofFamily .semantic ∧
    (((compile source).log.ofFamily .syntactic).map Diagnostic.line).Pairwise (· ≤ ·) ∧
    ∀ d ∈ (compile source).log, 1 ≤ d.line ∧ d.line ≤ 1 + Lexeme.newlines source.toList ∧
      (OnToken source d.line ∨ OnStray source d.line) := by
  obtain ⟨first, second, hlog, hfirst, hlines, hsecond⟩ := exists_log_compile source
  obtain ⟨hsyntactic, hsemantic⟩ := Log.ofFamily_of_blocks (fun d hd => (hfirst d hd).2)
    fun d hd => (hsecond d hd).2
  rw [hlog, hsyntactic, hsemantic]
  refine ⟨rfl, hlines, fun d hd => ?_⟩
  have hplace : Located source d.line := by
    rcases List.mem_append.mp hd with hd | hd
    · exact (hfirst d hd).1
    · exact (hsecond d hd).1
  exact ⟨hplace.one_le, hplace.le_last, hplace.place⟩

end Tercet
