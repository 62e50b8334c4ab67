import Tercet.Proofs.Token.Layout
import Tercet.Token.Cursor

/-!
# `Tercet.Proofs.Token.Lossless`: nothing of a source is lost

A source that can be cut is a row of words and gaps, and its tokens are the words with their
lines (`exists_written_of_scan`). So nothing but blanks and comments is ever dropped, and the
tokens say where in the source they stand.

Cutting moves a byte cursor over the source. `Cursor.next?` is one such move: by the length of
the spelling where the class has one spelling, by the length of the match elsewhere, with
newlines counted only in what is skipped. That a cursor moved in this way always stands
between two characters needs both to agree with the text that is cut, and no word to hold a
newline; then a run of moves passes the lexemes of `Lexeme.split` one by one (`run_split`).
-/

set_option autoImplicit false

namespace Tercet

/-! ### What a match is -/

/-- Blanks in front of a gap belong to it. -/
theorem Gap.append_blanks {after cs blanks : List Char} (h : Gap after cs)
    (hblanks : ∀ c ∈ blanks, Text.isBlank c = true) : Gap after (blanks ++ cs) := by
  induction blanks with
  | nil => exact h
  | cons c blanks ih =>
    have hmore := ih fun d hd => hblanks d (List.mem_cons_of_mem _ hd)
    exact .blank (hblanks c List.mem_cons_self) hmore

namespace Pattern

/-- A comment between marks is closed by its first closing mark. -/
theorem exists_of_throughClose? {cs text : List Char} (h : throughClose? cs = some text) :
    ∃ body, text = body ++ ['*', '/'] ∧ ¬ ['*', '/'] <:+: body := by
  fun_induction throughClose? cs generalizing text with
  | case1 rest =>
    cases h
    exact ⟨[], rfl, by decide⟩
  | case2 c cs hfront ih =>
    obtain ⟨inner, hinner, rfl⟩ := Option.map_eq_some_iff.1 h
    obtain ⟨body, rfl, hbody⟩ := ih hinner
    refine ⟨c :: body, rfl, ?_⟩
    rw [List.infix_cons_iff]
    rintro (hmark | hmark)
    -- a mark that starts here would have been taken for the closing one
    · obtain ⟨rest, hrest⟩ := throughClose?_append hinner
      obtain ⟨more, hmore⟩ := hmark
      obtain ⟨hstar, hslash⟩ := List.cons.inj hmore
      refine hfront (more ++ ['*', '/'] ++ rest) hstar.symm ?_
      rw [← hrest, ← hslash]
      rfl
    · exact hbody hmark
  | case3 => cases h

variable {text rest after cs : List Char} {p : Pattern}

/-- A comment to the end of the line stops before the newline, or at the end of the text. -/
theorem exists_of_lineComment (h : firstMatch (text ++ rest) = some (.lineComment, text)) :
    ∃ body, text = '/' :: '/' :: body ∧ '\n' ∉ body ∧ ∀ c ∈ rest.head?, c = '\n' := by
  obtain ⟨hlexeme, hne⟩ := lexeme_of_firstMatch h
  obtain ⟨tail, htail⟩ : ['/', '/'] <+: text ++ rest :=
    Decidable.byContradiction fun hnot =>
      hne (by rw [← hlexeme, lexeme_lineComment_eq_nil hnot])
  rw [← htail] at hlexeme
  have htext : '/' :: '/' :: tail.takeWhile (· != '\n') = text := hlexeme
  -- what follows the comment starts with the newline at which it stops
  have hstop : tail.dropWhile (· != '\n') = rest := by
    have hparts : '/' :: '/' :: tail.takeWhile (· != '\n') ++ tail.dropWhile (· != '\n')
        = text ++ rest := by
      rw [List.cons_append, List.cons_append, List.takeWhile_append_dropWhile, ← htail]
      rfl
    rw [← htext] at hparts
    exact List.append_cancel_left hparts
  refine ⟨_, htext.symm, fun hmem => ?_, fun c hc => ?_⟩
  · exact absurd (List.mem_takeWhile_imp hmem) (by decide)
  · have hhead := List.head?_dropWhile_not (· != '\n') tail
    rw [hstop, hc] at hhead
    simpa using hhead

/-- A comment between marks holds no closing mark but its last. -/
theorem exists_of_blockComment (h : firstMatch (text ++ rest) = some (.blockComment, text)) :
    ∃ body, text = '/' :: '*' :: (body ++ ['*', '/']) ∧ ¬ ['*', '/'] <:+: body := by
  obtain ⟨hlexeme, hne⟩ := lexeme_of_firstMatch h
  obtain ⟨tail, htail⟩ : ['/', '*'] <+: text ++ rest :=
    Decidable.byContradiction fun hnot =>
      hne (by rw [← hlexeme, lexeme_blockComment_eq_nil hnot])
  rw [← htail, List.cons_append, List.cons_append, List.nil_append] at hlexeme
  simp only [lexeme] at hlexeme
  split at hlexeme
  · rename_i closed hclosed
    obtain ⟨body, rfl, hbody⟩ := exists_of_throughClose? hclosed
    exact ⟨body, hlexeme.symm, hbody⟩
  · exact absurd hlexeme.symm hne

/-- A match that stands for no token goes before a gap. -/
theorem gap_of_skipped (h : firstMatch (text ++ rest) = some (p, text))
    (hkind : p.kind? text = none) (hrest : cs ++ after = rest) (hgap : Gap after cs) :
    Gap after (text ++ cs) := by
  cases p with
  | blank =>
    refine hgap.append_blanks fun c hc => ?_
    rw [← (lexeme_of_firstMatch h).1] at hc
    exact List.mem_takeWhile_imp hc
  | lineComment =>
    obtain ⟨body, rfl, hbody, hend⟩ := exists_of_lineComment h
    exact .lineComment hbody (hrest ▸ hend) hgap
  | blockComment =>
    obtain ⟨body, rfl, hbody⟩ := exists_of_blockComment h
    exact .blockComment hbody hgap
  | word | number | fixed => cases hkind

/-- Of the fixed texts, only keywords start as words do. -/
theorem mem_keywords_of_isWordStart {k : Kind} {c : Char} {cs : List Char}
    (hspelling : k.spelling? = some (String.ofList (c :: cs))) (hc : isWordStart c = true) :
    k ∈ Kind.keywords := by
  have hall : ∀ k ∈ Kind.all, k ∉ Kind.keywords →
      ∀ spelling ∈ k.spelling?, spelling.toList.head?.all isWordStart = false := by decide
  by_contra hk
  have hstart := hall k (Kind.mem_all k) hk _ hspelling
  simp [hc] at hstart

/-- A match of letters is a keyword or a name. -/
theorem writes_of_word (h : firstMatch (text ++ rest) = some (.word, text)) :
    (Kind.ofWord (String.ofList text)).Writes text := by
  obtain ⟨hlexeme, hne⟩ := lexeme_of_firstMatch h
  obtain ⟨c, cs, rfl⟩ := List.exists_cons_of_ne_nil hne
  simp only [List.cons_append, lexeme] at hlexeme
  split at hlexeme
  · rename_i hstart
    have hrest : ∀ d ∈ cs, isWordRest d = true := by
      rw [← (List.cons.inj hlexeme).2]
      exact fun d hd => List.mem_takeWhile_imp hd
    rw [Kind.ofWord]
    cases hfind : Kind.keywords.find? fun k => k.spelling? == some (String.ofList (c :: cs)) with
    | none =>
      -- a word that is no keyword is not the fixed text of any other kind either
      refine .word hstart hrest fun k htext => ?_
      rw [Kind.fixedText?_eq] at htext
      have hnone := List.find?_eq_none.mp hfind k (mem_keywords_of_isWordStart htext hstart)
      exact hnone (beq_iff_eq.mpr htext)
    | some keyword =>
      have hspelling : keyword.spelling? = some (String.ofList (c :: cs)) := by
        simpa using List.find?_some hfind
      simpa using Kind.Writes.fixed (keyword.fixedText?_eq.trans hspelling)
  · cases hlexeme

/-- A match of digits is a number. -/
theorem writes_of_number (h : firstMatch (text ++ rest) = some (.number, text)) :
    Kind.number.Writes text := by
  obtain ⟨hlexeme, hne⟩ := lexeme_of_firstMatch h
  simp only [lexeme] at hlexeme
  split at hlexeme
  · exact absurd hlexeme.symm hne
  · rename_i hdigits
    rw [← hlexeme]
    have hall : ∀ d ∈ (text ++ rest).takeWhile Char.isDigit, d.isDigit = true :=
      fun d hd => List.mem_takeWhile_imp hd
    generalize (text ++ rest).dropWhile Char.isDigit = tail
    -- a point counts only with digits behind it
    fun_cases fraction tail with
    | case2 tail hdecimals =>
      exact .fraction hdigits hall hdecimals fun d hd => List.mem_takeWhile_imp hd
    | _ =>
      rw [List.append_nil]
      exact .whole hdigits hall

/-- A match of a fixed text is a word of its kind. -/
theorem writes_of_fixed {k : Kind} (h : firstMatch (text ++ rest) = some (.fixed k, text)) :
    k.Writes text := by
  obtain ⟨hlexeme, hne⟩ := lexeme_of_firstMatch h
  simp only [lexeme] at hlexeme
  split at hlexeme
  · cases hspelling : k.spelling? with
    | none =>
      rw [hspelling] at hlexeme
      exact absurd hlexeme.symm hne
    | some spelling =>
      rw [hspelling] at hlexeme
      rw [← hlexeme]
      exact .fixed (k.fixedText?_eq.trans hspelling)
  · exact absurd hlexeme.symm hne

/-- A match that stands for a token is a word of its kind. -/
theorem writes_of_kind? {k : Kind} (h : firstMatch (text ++ rest) = some (p, text))
    (hkind : p.kind? text = some k) : k.Writes text := by
  cases p with
  | blank | lineComment | blockComment => cases hkind
  | word =>
    cases hkind
    exact writes_of_word h
  | number =>
    cases hkind
    exact writes_of_number h
  | fixed =>
    cases hkind
    exact writes_of_fixed h

end Pattern

/-! ### From tokens to words -/

/-- A text that goes before a gap widens the first gap of a source. -/
theorem exists_written_append {text : List Char} {words : List Placed} {last : List Char}
    (htext : ∀ after cs, cs ++ after = written words last → Gap after cs → Gap after (text ++ cs))
    (hgaps : Gapped words last) (hwrites : ∀ w ∈ words, w.kind.Writes w.text.toList) :
    ∃ words' last', text ++ written words last = written words' last' ∧ Gapped words' last' ∧
      (∀ w ∈ words', w.kind.Writes w.text.toList) ∧
      ∀ before, tokensAfter (before ++ text) words last = tokensAfter before words' last' := by
  cases words with
  | nil =>
    have hlast : Gap [] (text ++ last) := htext [] last (List.append_nil last) hgaps
    refine ⟨[], text ++ last, rfl, hlast, hwrites, fun before => ?_⟩
    rw [tokensAfter, tokensAfter, List.append_assoc]
  | cons w more =>
    -- the text goes into the gap before the first word
    obtain ⟨hgap, hmore⟩ := hgaps
    refine ⟨⟨text ++ w.gap, w.kind, w.text⟩ :: more, last, ?_, ⟨htext _ _ rfl hgap, hmore⟩, ?_,
      fun before => ?_⟩
    · rw [written, written, List.append_assoc]
    · intro v hv
      rcases List.mem_cons.mp hv with rfl | hv
      · exact hwrites w List.mem_cons_self
      · exact hwrites v (List.mem_cons_of_mem _ hv)
    · simp only [tokensAfter, List.append_assoc]

/-- A text that can be cut is a row of words, and its tokens are these words. -/
theorem exists_written_of_scan {line : Nat} {cs : List Char} {tokens : List Token}
    (h : Lexeme.scan line cs = some tokens) {before : List Char}
    (hline : line = 1 + Lexeme.newlines before) :
    ∃ words last, cs = written words last ∧ Gapped words last ∧
      (∀ w ∈ words, w.kind.Writes w.text.toList) ∧ tokens = tokensAfter before words last := by
  -- the recursion is that of the cutting: a match, and then what follows it
  induction line, cs using Lexeme.split.induct generalizing tokens before with
  | case1 line cs hmatch =>
    rw [Lexeme.scan, Lexeme.split_of_firstMatch_eq_none hmatch] at h
    cases cs with
    | nil =>
      cases h
      refine ⟨[], [], rfl, Gap.nil, by simp, ?_⟩
      rw [tokensAfter, List.append_nil, hline]
      rfl
    | cons => cases h
  | case2 line cs pattern text hmatch more left _ ih =>
    have hparts := Pattern.append_drop_of_firstMatch hmatch
    generalize cs.drop text.length = rest at hparts ih
    rw [← hparts] at hmatch h ⊢
    have hnext : line + Lexeme.newlines text = 1 + Lexeme.newlines (before ++ text) := by
      rw [Lexeme.newlines_append, hline, Nat.add_assoc]
    cases hkind : pattern.kind? text with
    | none =>
      -- what is skipped widens the gap before the next word
      rw [Lexeme.scan_of_skipped hmatch hkind] at h
      obtain ⟨words, last, rfl, hgaps, hwrites, rfl⟩ := ih h hnext
      obtain ⟨words', last', hwritten, hgaps', hwrites', htokens⟩ := exists_written_append
        (fun after cs hcs hgap => Pattern.gap_of_skipped hmatch hkind hcs hgap) hgaps hwrites
      exact ⟨words', last', hwritten, hgaps', hwrites', htokens before⟩
    | some k =>
      -- what stands for a token is the next word, without a gap before it
      rw [Lexeme.scan_of_kind hmatch hkind] at h
      obtain ⟨tokens', hscan, rfl⟩ := Option.map_eq_some_iff.1 h
      obtain ⟨words, last, rfl, hgaps, hwrites, rfl⟩ := ih hscan hnext
      refine ⟨⟨[], k, String.ofList text⟩ :: words, last, ?_, ⟨Gap.nil, hgaps⟩, ?_, ?_⟩
      · rw [written, List.nil_append, String.toList_ofList]
      · intro w hw
        rcases List.mem_cons.mp hw with rfl | hw
        · rw [String.toList_ofList]
          exact Pattern.writes_of_kind? hmatch hkind
        · exact hwrites w hw
      · rw [tokensAfter, List.append_nil, String.toList_ofList, hline]

/-! ### The cursor -/

/-- A text that is not empty has bytes. -/
theorem Text.byteSize_pos {cs : List Char} (h : cs ≠ []) : 0 < Text.byteSize cs := by
  obtain ⟨c, cs, rfl⟩ := List.exists_cons_of_ne_nil h
  rw [Text.byteSize_cons]
  exact Nat.add_pos_left (Char.utf8Size_pos c) _

namespace Cursor

/-- The number of bytes by which a match moves the cursor: the length of the spelling, where
the class has one, and else the length of the match. -/
def stride : Pattern → List Char → Nat
  | .fixed kind, _ => Text.byteSize (kind.spelling?.getD "").toList
  | _, text => Text.byteSize text

/-- The number of lines by which a match moves the cursor. Only what is skipped is searched
for newlines. -/
def lineStride (p : Pattern) (text : List Char) : Nat :=
  match p.kind? text with
  | none => Lexeme.newlines text
  | some _ => 0

/-- The lexeme at the cursor and the cursor behind it. There is none at the end, where no
class fits and where the cursor does not stand between characters. -/
def next? (c : Cursor) : Option (Lexeme × Cursor) :=
  if c.atEnd then none
  else
    c.remainder?.bind fun rest =>
      (Pattern.firstMatch rest).map fun (p, text) =>
        (⟨p, text, c.line⟩,
          { c.advance (stride p text) with line := c.line + lineStride p text })

/-- The cursor passes the lexemes one by one. -/
inductive Run : Cursor → List Lexeme → Cursor → Prop
  | stay (c : Cursor) : Run c [] c
  | move {c d e : Cursor} {l : Lexeme} {ls : List Lexeme} (hnext : c.next? = some (l, d))
      (hrun : Run d ls e) : Run c (l :: ls) e

/-- The cursor stands between two parts of the source. -/
structure Between (c : Cursor) (passed rest : List Char) : Prop where
  source_eq : c.source = passed ++ rest
  offset_eq : c.offset = Text.byteSize passed

variable {c d : Cursor} {passed rest : List Char} {l : Lexeme}

/-- A cursor between two parts has the second left. -/
theorem Between.remainder?_eq (h : c.Between passed rest) : c.remainder? = some rest := by
  rw [remainder?, h.source_eq, h.offset_eq, Text.dropBytes_append]

/-- A match moves the cursor by its own length, also where the spelling counts. -/
theorem stride_eq {p : Pattern} {cs text : List Char}
    (h : Pattern.firstMatch cs = some (p, text)) : stride p text = Text.byteSize text := by
  cases p with
  | fixed k =>
    obtain ⟨hlexeme, hne⟩ := Pattern.lexeme_of_firstMatch h
    simp only [Pattern.lexeme] at hlexeme
    split at hlexeme
    · rw [stride, hlexeme]
    · exact absurd hlexeme.symm hne
  | _ => rfl

/-- A match moves the cursor by its own lines, for a word has none. -/
theorem lineStride_eq {p : Pattern} {text rest : List Char}
    (h : Pattern.firstMatch (text ++ rest) = some (p, text)) :
    lineStride p text = Lexeme.newlines text := by
  cases hkind : p.kind? text with
  | none => simp only [lineStride, hkind]
  | some k => simp only [lineStride, hkind, (Pattern.writes_of_kind? h hkind).newlines_eq]

/-- It is not at the end if something is left. -/
theorem atEnd_eq_false (h : c.Between passed rest) (hne : rest ≠ []) : c.atEnd = false := by
  have hpos := Text.byteSize_pos hne
  simp [atEnd, h.source_eq, h.offset_eq]
  omega

/-- A cursor between two parts moves over the match at the front of the second. -/
theorem next?_of_firstMatch {p : Pattern} {text rest : List Char}
    (h : c.Between passed (text ++ rest))
    (hmatch : Pattern.firstMatch (text ++ rest) = some (p, text)) :
    c.next? = some (⟨p, text, c.line⟩,
      ⟨c.source, c.offset + Text.byteSize text, c.line + Lexeme.newlines text⟩) := by
  have hne : text ++ rest ≠ [] := by
    simp [(Pattern.lexeme_of_firstMatch hmatch).2]
  simp [next?, atEnd_eq_false h hne, h.remainder?_eq, hmatch, advance, stride_eq hmatch,
    lineStride_eq hmatch]

/-- Where no class fits, the cursor does not move. -/
theorem next?_of_firstMatch_eq_none (h : c.Between passed rest)
    (hmatch : Pattern.firstMatch rest = none) : c.next? = none := by
  simp [next?, h.remainder?_eq, hmatch]

/-- A cursor that moves over a text stands behind it. -/
theorem Between.move {text : List Char} (h : c.Between passed (text ++ rest)) (line : Nat) :
    Between ⟨c.source, c.offset + Text.byteSize text, line⟩ (passed ++ text) rest where
  source_eq := by rw [h.source_eq, List.append_assoc]
  offset_eq := by rw [h.offset_eq, Text.byteSize_append]

/-- One move takes the cursor on, to another place between two parts. -/
theorem Between.next (h : c.Between passed rest) (hnext : c.next? = some (l, d)) :
    ∃ rest', d.Between (passed ++ l.text) rest' ∧ d.source = c.source ∧ c.offset < d.offset := by
  cases hmatch : Pattern.firstMatch rest with
  | none =>
    rw [next?_of_firstMatch_eq_none h hmatch] at hnext
    cases hnext
  | some found =>
    obtain ⟨p, text⟩ := found
    have hparts := Pattern.append_drop_of_firstMatch hmatch
    rw [← hparts] at h hmatch
    rw [next?_of_firstMatch h hmatch] at hnext
    cases hnext
    have hpos := Text.byteSize_pos (Pattern.lexeme_of_firstMatch hmatch).2
    exact ⟨_, h.move _, rfl, Nat.lt_add_of_pos_right hpos⟩

/-- A cursor that has passed some lexemes stands behind them. -/
theorem Between.run (h : c.Between passed rest) {ls : List Lexeme} (hrun : c.Run ls d) :
    d.source = c.source ∧ ∃ rest', d.Between (passed ++ ls.flatMap Lexeme.text) rest' := by
  induction hrun generalizing passed rest with
  | stay c => exact ⟨rfl, rest, by simpa using h⟩
  | move hnext _ ih =>
    obtain ⟨rest', hbetween, hsource, _⟩ := h.next hnext
    obtain ⟨hsource', rest'', hend⟩ := ih hbetween
    exact ⟨hsource'.trans hsource, rest'', by simpa using hend⟩

/-- From any place between two parts, the cursor passes the lexemes of the second one by one,
and stops at what is left over. -/
theorem run_split (h : c.Between passed rest) :
    ∃ d, c.Run (Lexeme.split c.line rest).1 d ∧ d.next? = none ∧
      d.remainder? = some (Lexeme.split c.line rest).2 := by
  generalize hline : c.line = line
  induction line, rest using Lexeme.split.induct generalizing c passed with
  | case1 line rest hmatch =>
    rw [Lexeme.split_of_firstMatch_eq_none hmatch]
    exact ⟨c, .stay c, next?_of_firstMatch_eq_none h hmatch, h.remainder?_eq⟩
  | case2 line rest p text hmatch _ _ _ ih =>
    have hparts := Pattern.append_drop_of_firstMatch hmatch
    generalize rest.drop text.length = rest' at hparts ih
    rw [← hparts] at h hmatch ⊢
    have hnext := next?_of_firstMatch h hmatch
    obtain ⟨d, hrun, hstop, hleft⟩ := ih (h.move (c.line + Lexeme.newlines text)) (by rw [hline])
    rw [Lexeme.split_append_of_firstMatch hmatch, ← hline]
    rw [← hline] at hrun hleft
    exact ⟨d, .move hnext hrun, hstop, hleft⟩

end Cursor

/-- A source is its words and gaps, and no token is misplaced. The cursor that cuts it passes
the lexemes one by one, only moves on, and always stands between two characters. -/
theorem lossless_ofSource (source : String) :
    (∀ tokens, Token.ofSource source = .ok tokens →
      ∃ words last, source.toList = written words last ∧ Gapped words last ∧
        (∀ w ∈ words, w.kind.Writes w.text.toList) ∧ tokens = tokensAfter [] words last) ∧
    (∀ lexemes c, (Cursor.ofString source).Run lexemes c →
      (∃ passed rest, source.toList = passed ++ rest ∧ c.offset = Text.byteSize passed ∧
        c.remainder? = some rest) ∧
      ∀ l d, c.next? = some (l, d) → c.offset < d.offset) ∧
    ∃ c, (Cursor.ofString source).Run (Lexeme.split 1 source.toList).1 c ∧ c.next? = none ∧
      c.remainder? = some (Lexeme.split 1 source.toList).2 := by
  have hstart : (Cursor.ofString source).Between [] source.toList := ⟨rfl, rfl⟩
  refine ⟨fun tokens h => ?_, fun lexemes c hrun => ?_, Cursor.run_split hstart⟩
  · exact exists_written_of_scan (Token.ofSource_eq_ok_iff.1 h) rfl
  · obtain ⟨hsource, rest, hbetween⟩ := hstart.run hrun
    refine ⟨⟨_, rest, ?_, hbetween.offset_eq, hbetween.remainder?_eq⟩, fun l d hnext => ?_⟩
    · rw [← hbetween.source_eq, hsource]
      rfl
    · obtain ⟨_, _, _, hlt⟩ := hbetween.next hnext
      exact hlt

/-- A name between comments that hold wide characters. -/
def wideSource : String :=
  "/* ñ\n*/x1 // €"

/-- The source is its words and gaps. After the first comment the cursor stands behind eight
bytes, although these are fewer characters. -/
theorem lossless_wideSource :
    (∃ words last, wideSource.toList = written words last ∧ Gapped words last ∧
      (∀ w ∈ words, w.kind.Writes w.text.toList) ∧
      [⟨.identifier, "x1", 2⟩, Token.atEnd 2] = tokensAfter [] words last) ∧
    ∃ passed rest, wideSource.toList = passed ++ rest ∧ 8 = Text.byteSize passed ∧
      Cursor.remainder? ⟨wideSource.toList, 8, 2⟩ = some rest := by
  obtain ⟨hwords, hcursor, _⟩ := lossless_ofSource wideSource
  have hfirst : (Cursor.ofString wideSource).next?
      = some (⟨.blockComment, "/* ñ\n*/".toList, 1⟩, ⟨wideSource.toList, 8, 2⟩) := by
    decide +kernel
  exact ⟨hwords _ (by decide +kernel), (hcursor _ _ (.move hfirst (.stay _))).1⟩

end Tercet
