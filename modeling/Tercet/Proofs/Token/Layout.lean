import Mathlib.Data.List.Infix
import Mathlib.Data.List.TakeWhile
import Tercet.Proofs.Token.Text
import Tercet.Token.Lexeme

/-!
# `Tercet.Proofs.Token.Layout`: sources as words and gaps

A source is a row of words with gaps between them. A gap holds blanks and comments only, and
a word is what a token is written with. `written` puts such a row together, and `tokensAfter`
says which tokens it stands for, with the line of each counted from the text before it.

Cutting a source and writing one undo each other. `ofSource_written` starts from the words:
whatever the gaps are, as long as each gap between two words starts with a blank, the source
is cut into these words again. `exists_written_of_scan` starts from the source: if it can be
cut at all, it is such a row, though its words may touch.

Both go through `scan`, the cutting seen from outside: the tokens of a text, if all of it can be
cut. Blanks are cut in runs, but a gap is built up one blank at a time, so the lemma about a gap
(`scan_gap`) speaks of `scan`, to which the runs do not matter.
-/

set_option autoImplicit false

namespace Tercet

/-! ### Words and gaps -/

/-- A token of the kind can be written as the text. -/
inductive Kind.Writes : Kind → List Char → Prop
  | word {c : Char} {cs : List Char} (hstart : Pattern.isWordStart c = true)
      (hrest : ∀ d ∈ cs, Pattern.isWordRest d = true)
      (hfree : ∀ k : Kind, k.fixedText? ≠ some (String.ofList (c :: cs))) :
      Kind.Writes .identifier (c :: cs)
  | whole {digits : List Char} (hne : digits ≠ []) (hdigits : ∀ d ∈ digits, d.isDigit = true) :
      Kind.Writes .number digits
  | fraction {digits decimals : List Char} (hne : digits ≠ [])
      (hdigits : ∀ d ∈ digits, d.isDigit = true) (hsome : decimals ≠ [])
      (hdecimals : ∀ d ∈ decimals, d.isDigit = true) :
      Kind.Writes .number (digits ++ '.' :: decimals)
  | fixed {k : Kind} {text : String} (h : k.fixedText? = some text) : Kind.Writes k text.toList

/-- A text without words, in front of the text `after`. A comment to the end of the line stops
before the next newline or at the end of the source, and a comment between marks at the first
closing mark. -/
inductive Gap (after : List Char) : List Char → Prop
  | nil : Gap after []
  | blank {c : Char} {cs : List Char} (hc : Text.isBlank c = true) (h : Gap after cs) :
      Gap after (c :: cs)
  | lineComment {body cs : List Char} (hbody : '\n' ∉ body)
      (hend : ∀ c ∈ (cs ++ after).head?, c = '\n') (h : Gap after cs) :
      Gap after ('/' :: '/' :: body ++ cs)
  | blockComment {body cs : List Char} (hbody : ¬ ['*', '/'] <:+: body) (h : Gap after cs) :
      Gap after ('/' :: '*' :: (body ++ ['*', '/']) ++ cs)

/-- A word of a source, with the gap before it. -/
structure Placed where
  gap : List Char
  kind : Kind
  text : String
deriving DecidableEq, Repr

/-- The source that words and the gap after the last of them make up. -/
def written : List Placed → List Char → List Char
  | [], last => last
  | w :: more, last => w.gap ++ (w.text.toList ++ written more last)

/-- Each gap is one, in front of what follows it. -/
def Gapped : List Placed → List Char → Prop
  | [], last => Gap [] last
  | w :: more, last => Gap (w.text.toList ++ written more last) w.gap ∧ Gapped more last

/-- The tokens of a source of which `before` has been passed. The line of a token is one more
than the number of newlines before it. -/
def tokensAfter (before : List Char) : List Placed → List Char → List Token
  | [], last => [Token.atEnd (1 + Lexeme.newlines (before ++ last))]
  | w :: more, last =>
    ⟨w.kind, w.text, 1 + Lexeme.newlines (before ++ w.gap)⟩
      :: tokensAfter (before ++ w.gap ++ w.text.toList) more last

/-- Whether the text starts with a blank. -/
def startsBlank (cs : List Char) : Bool :=
  cs.head?.any Text.isBlank

/-! ### First matches -/

/-- A run goes on to where its class ends. -/
theorem takeWhile_append_of_head {α : Type} {p : α → Bool} {cs rest : List α}
    (hcs : ∀ c ∈ cs, p c = true) (hrest : ∀ c ∈ rest.head?, p c = false) :
    (cs ++ rest).takeWhile p = cs := by
  rw [List.takeWhile_append_of_pos hcs]
  cases rest with
  | nil => simp
  | cons d rest => simp [hrest d rfl]

/-- What follows the run is left. -/
theorem dropWhile_append_of_head {α : Type} {p : α → Bool} {cs rest : List α}
    (hcs : ∀ c ∈ cs, p c = true) (hrest : ∀ c ∈ rest.head?, p c = false) :
    (cs ++ rest).dropWhile p = rest := by
  rw [List.dropWhile_append_of_pos hcs]
  cases rest with
  | nil => simp
  | cons d rest => simp [hrest d rfl]

namespace Pattern

/-- No blank goes on with a word. -/
theorem not_isWordRest_of_isBlank {c : Char} (hc : Text.isBlank c = true) :
    isWordRest c = false := by
  have hranges : isWordRest c
      = (((decide (c.val ≥ 65 ∧ c.val ≤ 90) || (c.val ≥ 97 && c.val ≤ 122))
          || (c.val ≥ 48 && c.val ≤ 57)) || c == '_') := rfl
  rw [Bool.eq_false_iff]
  intro hword
  simp only [hranges, Bool.or_eq_true, Bool.and_eq_true, decide_eq_true_eq, beq_iff_eq,
    UInt32.le_iff_toNat_le, ge_iff_le] at hword
  rcases hword with hword | rfl
  · have hnat : c.toNat = c.val.toNat := rfl
    simp [Text.isBlank, Text.blankRuns] at hc
    simp at hword
    omega
  · exact absurd hc (by decide)

/-- No blank is a digit. -/
theorem not_isDigit_of_isBlank {c : Char} (hc : Text.isBlank c = true) : c.isDigit = false := by
  have hword := not_isWordRest_of_isBlank hc
  have hparts : isWordRest c = ((c.isAlpha || c.isDigit) || c == '_') := rfl
  rw [hparts, Bool.or_eq_false_iff, Bool.or_eq_false_iff] at hword
  exact hword.1.2

/-- What starts a word can go on with one. -/
theorem isWordRest_of_isWordStart {c : Char} (hc : isWordStart c = true) :
    isWordRest c = true := by
  have hparts : isWordRest c = ((c.isAlpha || c.isDigit) || c == '_') := rfl
  rw [isWordStart, Bool.or_eq_true] at hc
  rw [hparts]
  rcases hc with hc | hc <;> simp [hc]

/-- A comment starts with a slash. -/
theorem lexeme_lineComment_of_ne {c : Char} (hc : c ≠ '/') (cs : List Char) :
    lineComment.lexeme (c :: cs) = [] := by
  rw [lexeme]
  rintro _ heq
  simp at heq
  exact hc heq.1

/-- So does one between marks. -/
theorem lexeme_blockComment_of_ne {c : Char} (hc : c ≠ '/') (cs : List Char) :
    blockComment.lexeme (c :: cs) = [] := by
  rw [lexeme]
  rintro _ heq
  simp at heq
  exact hc heq.1

/-- Where a blank stands, the run of blanks is the first match. -/
theorem firstMatch_blank {c : Char} (hc : Text.isBlank c = true) (cs : List Char) :
    firstMatch (c :: cs) = some (.blank, c :: cs.takeWhile Text.isBlank) := by
  simp [firstMatch, all, lexeme, hc]

/-- Two slashes and what follows them up to the newline are the first match. -/
theorem firstMatch_lineComment {body rest : List Char} (hbody : '\n' ∉ body)
    (hend : ∀ c ∈ rest.head?, c = '\n') :
    firstMatch ('/' :: '/' :: body ++ rest) = some (.lineComment, '/' :: '/' :: body) := by
  have hblank : Text.isBlank '/' = false := by decide
  have hrun : (body ++ rest).takeWhile (· != '\n') = body := by
    refine takeWhile_append_of_head (fun c hc => ?_) (fun c hc => by simp [hend c hc])
    rw [bne_iff_ne]
    rintro rfl
    exact hbody hc
  simp [firstMatch, all, lexeme, hblank, hrun]

/-- The first closing mark after a text that holds none is the one behind it. -/
theorem throughClose?_append_close {body : List Char} (hbody : ¬ ['*', '/'] <:+: body)
    (rest : List Char) :
    throughClose? (body ++ ['*', '/'] ++ rest) = some (body ++ ['*', '/']) := by
  induction body with
  | nil => rfl
  | cons c body ih =>
    have hinner : ¬ ['*', '/'] <:+: body :=
      fun h => hbody (h.trans (List.suffix_cons c body).isInfix)
    -- a star and a slash at the front would be a closing mark of the text itself
    have hfront : ∀ more, c = '*' → body ++ ['*', '/'] ++ rest = '/' :: more → False := by
      rintro more rfl hmore
      cases body with
      | nil => simp at hmore
      | cons d body =>
        obtain ⟨rfl, _⟩ := List.cons.inj hmore
        exact hbody ⟨[], body, rfl⟩
    rw [List.cons_append, List.cons_append, throughClose?.eq_2 _ _ hfront, ih hinner]
    rfl

/-- A comment between marks is the first match, up to its first closing mark. -/
theorem firstMatch_blockComment {body : List Char} (hbody : ¬ ['*', '/'] <:+: body)
    (rest : List Char) :
    firstMatch ('/' :: '*' :: (body ++ ['*', '/']) ++ rest)
      = some (.blockComment, '/' :: '*' :: (body ++ ['*', '/'])) := by
  have hblank : Text.isBlank '/' = false := by decide
  have hclose := throughClose?_append_close hbody rest
  simp only [List.append_assoc, List.cons_append, List.nil_append] at hclose
  simp [firstMatch, all, lexeme, hblank, hclose]

section Words

variable {after : List Char} (hafter : ∀ c ∈ after.head?, Text.isBlank c = true)

include hafter

/-- A word in front of a blank or the end is the first match. -/
theorem firstMatch_word {c : Char} {cs : List Char} (hstart : isWordStart c = true)
    (hrest : ∀ d ∈ cs, isWordRest d = true) :
    firstMatch (c :: cs ++ after) = some (.word, c :: cs) := by
  -- no class before that of words fits its first character
  have hblank : Text.isBlank c = false := by
    rw [Bool.eq_false_iff]
    intro hc
    have hword := isWordRest_of_isWordStart hstart
    rw [not_isWordRest_of_isBlank hc] at hword
    cases hword
  have hslash : c ≠ '/' := by
    rintro rfl
    exact absurd hstart (by decide)
  have hrun : (cs ++ after).takeWhile isWordRest = cs :=
    takeWhile_append_of_head hrest fun d hd => not_isWordRest_of_isBlank (hafter d hd)
  have hnone : blank.lexeme (c :: (cs ++ after)) = [] := by simp [lexeme, hblank]
  have hfound : word.lexeme (c :: (cs ++ after)) = c :: cs := by simp [lexeme, hstart, hrun]
  simp [firstMatch, all, hnone, hfound, lexeme_lineComment_of_ne hslash,
    lexeme_blockComment_of_ne hslash]

/-- A blank ends a number. -/
theorem fraction_of_isBlank : fraction after = [] := by
  cases after with
  | nil => rfl
  | cons c after =>
    have hc : c ≠ '.' := by
      rintro rfl
      exact absurd (hafter _ rfl) (by decide)
    simp [fraction, hc]

/-- A point with digits behind it is the fraction, up to the blank. -/
theorem fraction_append_of_isBlank {decimals : List Char} (hne : decimals ≠ [])
    (hdecimals : ∀ d ∈ decimals, d.isDigit = true) :
    fraction ('.' :: (decimals ++ after)) = '.' :: decimals := by
  have hrun : (decimals ++ after).takeWhile Char.isDigit = decimals :=
    takeWhile_append_of_head hdecimals fun d hd => not_isDigit_of_isBlank (hafter d hd)
  rw [fraction, hrun]
  split
  · contradiction
  · rfl

omit hafter in
/-- Where digits stand, a number is the first match: the digits, and the fraction behind
them. -/
theorem firstMatch_digits {digits rest : List Char} (hne : digits ≠ [])
    (hdigits : ∀ d ∈ digits, d.isDigit = true) (hrest : ∀ d ∈ rest.head?, d.isDigit = false) :
    firstMatch (digits ++ rest) = some (.number, digits ++ fraction rest) := by
  have hnumber : number.lexeme (digits ++ rest) = digits ++ fraction rest := by
    simp only [lexeme, takeWhile_append_of_head hdigits hrest,
      dropWhile_append_of_head hdigits hrest]
  obtain ⟨d, digits, rfl⟩ := List.exists_cons_of_ne_nil hne
  have hd := hdigits d List.mem_cons_self
  have hblank : Text.isBlank d = false := by
    rw [Bool.eq_false_iff]
    intro hd'
    rw [not_isDigit_of_isBlank hd'] at hd
    cases hd
  -- a digit starts no word, and neither a gap
  have hword : isWordStart d = false := by
    rw [Bool.eq_false_iff]
    intro hd'
    rw [not_isDigit_of_isWordStart hd'] at hd
    cases hd
  have hslash : d ≠ '/' := by
    rintro rfl
    exact absurd hd (by decide)
  have hnone : blank.lexeme (d :: (digits ++ rest)) = [] := by simp [lexeme, hblank]
  have hnone' : word.lexeme (d :: (digits ++ rest)) = [] := by simp [lexeme, hword]
  rw [List.cons_append] at hnumber ⊢
  simp [firstMatch, all, hnone, hnone', hnumber, lexeme_lineComment_of_ne hslash,
    lexeme_blockComment_of_ne hslash]

/-- A text without blanks at the front of another text does not reach into the blanks behind
it. -/
theorem prefix_of_prefix_append {cs ds : List Char} (hcs : cs.all fun c => !Text.isBlank c) :
    cs <+: ds ++ after ↔ cs <+: ds := by
  refine ⟨fun h => ?_, fun h => h.trans (List.prefix_append ds after)⟩
  rcases List.prefix_or_prefix_of_prefix h (List.prefix_append ds after) with hle | ⟨more, rfl⟩
  · exact hle
  · rw [List.prefix_append_right_inj] at h
    cases more with
    | nil => simp
    | cons c more =>
      obtain ⟨rest, rfl⟩ := h
      have hc := List.all_eq_true.mp hcs c (by simp)
      rw [hafter c rfl] at hc
      cases hc

omit hafter in
/-- Where there are no two slashes, there is no comment to the end of the line. -/
theorem lexeme_lineComment_eq_nil {cs : List Char} (h : ¬ ['/', '/'] <+: cs) :
    lineComment.lexeme cs = [] := by
  rw [lexeme]
  rintro rest rfl
  exact h ⟨rest, rfl⟩

omit hafter in
/-- Where there is no opening mark, there is no comment between marks. -/
theorem lexeme_blockComment_eq_nil {cs : List Char} (h : ¬ ['/', '*'] <+: cs) :
    blockComment.lexeme cs = [] := by
  rw [lexeme]
  rintro rest rfl
  exact h ⟨rest, rfl⟩

/-- Blanks behind an operator do not change what any class cuts from it. -/
theorem lexeme_operator_append {k : Kind} (hk : k ∈ fixedKinds) {p : Pattern} (hp : p ∈ all) :
    p.lexeme ((k.spelling?.getD "").toList ++ after)
      = p.lexeme (k.spelling?.getD "").toList := by
  -- that these hold of every operator is found by looking at each
  have hhead : ∀ k ∈ fixedKinds, (k.spelling?.getD "").toList.head?.all
      fun c => !Text.isBlank c && !isWordStart c && !c.isDigit := by decide
  have hcomment : ∀ k ∈ fixedKinds, ¬ ['/', '/'] <+: (k.spelling?.getD "").toList
      ∧ ¬ ['/', '*'] <+: (k.spelling?.getD "").toList := by decide
  have hmarks : ∀ k ∈ fixedKinds, (k.spelling?.getD "").toList.all
      fun c => !Text.isBlank c := by decide
  have hne : ∀ k ∈ fixedKinds, (k.spelling?.getD "").toList ≠ [] := by decide
  obtain ⟨hline, hblock⟩ := hcomment k hk
  obtain ⟨c, cs, hcs⟩ := List.exists_cons_of_ne_nil (hne k hk)
  have hc : (Text.isBlank c = false ∧ isWordStart c = false) ∧ c.isDigit = false := by
    simpa [hcs] using hhead k hk
  cases p with
  | blank => simp [lexeme, hcs, hc.1.1]
  | lineComment =>
    rw [lexeme_lineComment_eq_nil hline, lexeme_lineComment_eq_nil]
    rwa [prefix_of_prefix_append hafter (by decide)]
  | blockComment =>
    rw [lexeme_blockComment_eq_nil hblock, lexeme_blockComment_eq_nil]
    rwa [prefix_of_prefix_append hafter (by decide)]
  | word => simp [lexeme, hcs, hc.1.2]
  | number => simp [lexeme, hcs, hc.2]
  | fixed k' =>
    have hk' : k' ∈ fixedKinds := by simpa [all] using hp
    simp only [lexeme, List.isPrefixOf_iff_prefix, prefix_of_prefix_append hafter (hmarks k' hk')]

/-- An operator in front of a blank or the end is the first match. -/
theorem firstMatch_operator {k : Kind} (hk : k ∈ fixedKinds) :
    firstMatch ((k.spelling?.getD "").toList ++ after)
      = some (.fixed k, (k.spelling?.getD "").toList) := by
  have halone : ∀ k ∈ fixedKinds, firstMatch (k.spelling?.getD "").toList
      = some (.fixed k, (k.spelling?.getD "").toList) := by decide
  -- alone it is, and the blanks behind it change nothing for any class
  rw [← halone k hk, firstMatch, firstMatch, ← List.head?_filterMap, ← List.head?_filterMap]
  congr 1
  refine List.filterMap_congr fun p hp => ?_
  rw [lexeme_operator_append hafter hk hp]

end Words

/-- A word in front of a blank or the end is the first match, and stands for its kind. -/
theorem exists_firstMatch_of_writes {k : Kind} {text after : List Char} (h : k.Writes text)
    (hafter : ∀ c ∈ after.head?, Text.isBlank c = true) :
    ∃ p, firstMatch (text ++ after) = some (p, text) ∧ p.kind? text = some k := by
  cases h with
  | @word c cs hstart hrest hfree =>
    refine ⟨.word, firstMatch_word hafter hstart hrest, ?_⟩
    have hnone : Kind.keywords.find? (fun k => k.spelling? == some (String.ofList (c :: cs)))
        = none := by
      refine List.find?_eq_none.mpr fun k _ => ?_
      rw [← Kind.fixedText?_eq, beq_iff_eq]
      exact hfree k
    rw [kind?, Kind.ofWord, hnone]
    rfl
  | whole hne hdigits =>
    refine ⟨.number, ?_, rfl⟩
    rw [firstMatch_digits hne hdigits fun c hc => not_isDigit_of_isBlank (hafter c hc),
      fraction_of_isBlank hafter, List.append_nil]
  | @fraction digits decimals hne hdigits hsome hdecimals =>
    refine ⟨.number, ?_, rfl⟩
    have hpoint : ∀ c ∈ ('.' :: (decimals ++ after)).head?, c.isDigit = false := by
      rintro c ⟨⟩
      decide
    rw [List.append_assoc, List.cons_append, firstMatch_digits hne hdigits hpoint,
      fraction_append_of_isBlank hafter hsome hdecimals]
  | @fixed k spelling htext =>
    have hspelling : k.spelling? = some spelling := Kind.fixedText?_eq k ▸ htext
    have hcases : ∀ k : Kind, k.spelling?.isSome = true → k ∈ Kind.keywords ∨ k ∈ fixedKinds := by
      intro k
      cases k <;> decide
    have hspelled : k.spelling?.getD "" = spelling := by rw [hspelling]; rfl
    rcases hcases k (by rw [hspelling]; rfl) with hk | hk
    -- a keyword is found as a word
    · have hword : ∀ k ∈ Kind.keywords,
          (k.spelling?.getD "").toList.head?.all isWordStart = true := by decide
      have hrest : ∀ k ∈ Kind.keywords,
          (k.spelling?.getD "").toList.tail.all isWordRest = true := by decide
      have hkind : ∀ k ∈ Kind.keywords, Kind.ofWord (k.spelling?.getD "") = k := by decide
      have hne : ∀ k ∈ Kind.keywords, (k.spelling?.getD "").toList ≠ [] := by decide
      rw [← hspelled]
      obtain ⟨c, cs, hcs⟩ := List.exists_cons_of_ne_nil (hne k hk)
      refine ⟨.word, ?_, ?_⟩
      · have hc := hword k hk
        have hds := hrest k hk
        rw [hcs] at hc hds ⊢
        exact firstMatch_word hafter hc (List.all_eq_true.mp hds)
      · rw [kind?, String.ofList_toList, hkind k hk]
    · refine ⟨.fixed k, ?_, rfl⟩
      rw [← hspelled]
      exact firstMatch_operator hafter hk

end Pattern

/-- A character of a class stands in a text only if the class has it. -/
theorem not_mem_of_all {p : Char → Bool} {cs : List Char} (hcs : ∀ d ∈ cs, p d = true) {c : Char}
    (hc : p c = false) : c ∉ cs := by
  intro hmem
  rw [hcs c hmem] at hc
  cases hc

/-- A character that is in no name, number or fixed spelling is in no word of a source. -/
theorem Kind.Writes.not_mem_of {k : Kind} {cs : List Char} (h : k.Writes cs) {d : Char}
    (hstart : Pattern.isWordStart d = false) (hrest : Pattern.isWordRest d = false)
    (hdigit : d.isDigit = false) (hpoint : d ≠ '.')
    (hspelling : ∀ k ∈ Kind.all, ∀ spelling ∈ k.spelling?, d ∉ spelling.toList) : d ∉ cs := by
  cases h with
  | @word c cs hc hcs =>
    rw [List.mem_cons, not_or]
    refine ⟨?_, not_mem_of_all hcs hrest⟩
    rintro rfl
    rw [hc] at hstart
    cases hstart
  | whole _ hdigits => exact not_mem_of_all hdigits hdigit
  | fraction _ hdigits _ hdecimals =>
    rw [List.mem_append, List.mem_cons, not_or, not_or]
    exact ⟨not_mem_of_all hdigits hdigit, hpoint, not_mem_of_all hdecimals hdigit⟩
  | fixed h => exact hspelling k (Kind.mem_all k) _ (Kind.fixedText?_eq k ▸ h)

/-- No word stands for the end. -/
theorem Kind.not_writes_eof (cs : List Char) : ¬ Kind.eof.Writes cs := by
  intro h
  cases h with
  | fixed htext =>
    rw [Kind.fixedText?_eq] at htext
    cases htext

/-- No word holds a newline. -/
theorem Kind.Writes.newlines_eq {k : Kind} {text : List Char} (h : k.Writes text) :
    Lexeme.newlines text = 0 :=
  List.count_eq_zero.mpr
    (h.not_mem_of (by decide) (by decide) (by decide) (by decide) (by decide))

/-! ### Cutting seen from outside -/

namespace Lexeme

/-- The newlines of two texts. -/
@[simp] theorem newlines_append (cs ds : List Char) :
    newlines (cs ++ ds) = newlines cs + newlines ds :=
  List.count_append

/-- The newlines of a text, with its first character apart. -/
theorem newlines_cons (c : Char) (cs : List Char) :
    newlines (c :: cs) = newlines [c] + newlines cs :=
  newlines_append [c] cs

/-- Where no class fits, all is left over. -/
theorem split_of_firstMatch_eq_none {cs : List Char} (h : Pattern.firstMatch cs = none)
    (line : Nat) : split line cs = ([], cs) := by
  rw [split]
  split
  · rfl
  · rename_i hsome
    rw [h] at hsome
    cases hsome

/-- What a match cuts off comes first, and the rest is cut from the line after it. -/
theorem split_append_of_firstMatch {p : Pattern} {text rest : List Char}
    (h : Pattern.firstMatch (text ++ rest) = some (p, text)) (line : Nat) :
    split line (text ++ rest)
      = (⟨p, text, line⟩ :: (split (line + newlines text) rest).1,
          (split (line + newlines text) rest).2) := by
  rw [split]
  split
  · rename_i hnone
    rw [h] at hnone
    cases hnone
  · rename_i p' text' hsome
    rw [h] at hsome
    obtain ⟨rfl, rfl⟩ := Prod.mk.inj (Option.some.inj hsome)
    rw [List.drop_left]

/-- Where the lexemes end, as many lines have been passed as there are newlines in them. -/
theorem endLine_eq (lexemes : List Lexeme) :
    endLine lexemes = 1 + newlines (lexemes.flatMap Lexeme.text) := by
  -- each lexeme moves the start on, so any start is allowed for
  suffices h : ∀ start, lexemes.foldl (fun line l => line + newlines l.text) start
      = start + newlines (lexemes.flatMap Lexeme.text) from h 1
  induction lexemes with
  | nil => exact fun _ => rfl
  | cons l more ih =>
    intro start
    rw [List.foldl_cons, ih, List.flatMap_cons, newlines_append, Nat.add_assoc]

/-- The tokens of a text that starts on `line`, with the closing one, if all of the text can be
cut. -/
def scan (line : Nat) (cs : List Char) : Option (List Token) :=
  match split line cs with
  | (lexemes, []) =>
    some (lexemes.filterMap token?
      ++ [Token.atEnd (lexemes.foldl (fun line l => line + newlines l.text) line)])
  | (_, _ :: _) => none

/-- An empty text has only the closing token. -/
theorem scan_nil (line : Nat) : scan line [] = some [Token.atEnd line] := by
  rw [scan, split_of_firstMatch_eq_none Pattern.firstMatch_nil]
  rfl

section Match

variable {p : Pattern} {text rest : List Char}
  (h : Pattern.firstMatch (text ++ rest) = some (p, text))

include h

/-- A match that stands for no token leads on. -/
theorem scan_of_skipped (hkind : p.kind? text = none) (line : Nat) :
    scan line (text ++ rest) = scan (line + newlines text) rest := by
  rw [scan, scan, split_append_of_firstMatch h]
  cases split (line + newlines text) rest with
  | mk lexemes left => cases left <;> simp [token?, hkind]

/-- A match that stands for a token gives it, and leads on. -/
theorem scan_of_kind {k : Kind} (hkind : p.kind? text = some k) (line : Nat) :
    scan line (text ++ rest)
      = (scan (line + newlines text) rest).map (⟨k, String.ofList text, line⟩ :: ·) := by
  rw [scan, scan, split_append_of_firstMatch h]
  cases split (line + newlines text) rest with
  | mk lexemes left => cases left <;> simp [token?, hkind]

end Match

/-- Blanks at the front do no more than lead on to a later line. -/
theorem scan_dropWhile_isBlank (cs : List Char) (line : Nat) :
    scan (line + newlines (cs.takeWhile Text.isBlank)) (cs.dropWhile Text.isBlank)
      = scan line cs := by
  cases cs with
  | nil => rfl
  | cons c cs =>
    by_cases hc : Text.isBlank c = true
    · have hparts :
          (c :: cs).takeWhile Text.isBlank ++ (c :: cs).dropWhile Text.isBlank = c :: cs :=
        List.takeWhile_append_dropWhile
      have hmatch : Pattern.firstMatch
          ((c :: cs).takeWhile Text.isBlank ++ (c :: cs).dropWhile Text.isBlank)
          = some (.blank, (c :: cs).takeWhile Text.isBlank) := by
        rw [hparts, Pattern.firstMatch_blank hc, List.takeWhile_cons_of_pos hc]
      rw [← scan_of_skipped hmatch rfl, hparts]
    · simp [hc, newlines]

/-- A blank is passed by itself, although blanks are cut in runs. -/
theorem scan_blank {c : Char} (hc : Text.isBlank c = true) (cs : List Char) (line : Nat) :
    scan line (c :: cs) = scan (line + newlines [c]) cs := by
  rw [← scan_dropWhile_isBlank (c :: cs), List.takeWhile_cons_of_pos hc,
    List.dropWhile_cons_of_pos hc, newlines_cons, ← Nat.add_assoc, scan_dropWhile_isBlank]

/-- A gap does no more than lead on to a later line. -/
theorem scan_gap {after gap : List Char} (h : Gap after gap) (line : Nat) :
    scan line (gap ++ after) = scan (line + newlines gap) after := by
  induction h generalizing line with
  | nil => rfl
  | @blank c cs hc _ ih =>
    rw [List.cons_append, scan_blank hc, ih, newlines_cons c cs, Nat.add_assoc]
  | @lineComment body cs hbody hend _ ih =>
    have hskip := scan_of_skipped (p := .lineComment)
      (Pattern.firstMatch_lineComment hbody hend) rfl line
    rw [List.append_assoc, hskip, ih, newlines_append _ cs, Nat.add_assoc]
  | @blockComment body cs hbody _ ih =>
    have hskip := scan_of_skipped (p := .blockComment)
      (Pattern.firstMatch_blockComment hbody (cs ++ after)) rfl line
    rw [List.append_assoc, hskip, ih, newlines_append _ cs, Nat.add_assoc]

/-- A word in front of a blank or the end is passed as one token. -/
theorem scan_word {k : Kind} {text : String} (hwrites : k.Writes text.toList) {after : List Char}
    (hafter : ∀ c ∈ after.head?, Text.isBlank c = true) (line : Nat) :
    scan line (text.toList ++ after) = (scan line after).map (⟨k, text, line⟩ :: ·) := by
  obtain ⟨p, hmatch, hkind⟩ := Pattern.exists_firstMatch_of_writes hwrites hafter
  rw [scan_of_kind hmatch hkind, hwrites.newlines_eq, String.ofList_toList, Nat.add_zero]

end Lexeme

/-- A source has tokens exactly if all of it can be cut. -/
theorem Token.ofSource_eq_ok_iff {source : String} {tokens : List Token} :
    Token.ofSource source = .ok tokens ↔ Lexeme.scan 1 source.toList = some tokens := by
  rw [Token.ofSource, Lexeme.scan]
  cases Lexeme.split 1 source.toList with
  | mk lexemes left => cases left <;> simp [Lexeme.endLine]

/-! ### From words to tokens -/

/-- What follows a word starts with a blank, if the next gap does. -/
theorem isBlank_of_mem_head?_written {words : List Placed} {last : List Char}
    (hapart : ∀ w ∈ words, startsBlank w.gap = true)
    (hlast : last = [] ∨ startsBlank last = true) :
    ∀ c ∈ (written words last).head?, Text.isBlank c = true := by
  have hhead : ∀ {cs : List Char} (rest : List Char), startsBlank cs = true →
      ∀ c ∈ (cs ++ rest).head?, Text.isBlank c = true := by
    intro cs rest hcs c hc
    cases cs with
    | nil => cases hcs
    | cons d cs =>
      cases hc
      exact hcs
  cases words with
  | nil =>
    rcases hlast with rfl | hlast
    · simp [written]
    · simpa [written] using hhead [] hlast
  | cons w more => exact hhead _ (hapart w List.mem_cons_self)

/-- A row of words that keep apart is cut into these words. -/
theorem scan_written {words : List Placed} {last : List Char} (hgaps : Gapped words last)
    (hwrites : ∀ w ∈ words, w.kind.Writes w.text.toList)
    (hapart : ∀ w ∈ words.tail, startsBlank w.gap = true)
    (hlast : words ≠ [] → last = [] ∨ startsBlank last = true) (before : List Char) :
    Lexeme.scan (1 + Lexeme.newlines before) (written words last)
      = some (tokensAfter before words last) := by
  induction words generalizing before with
  | nil =>
    have hgap : Gap [] last := hgaps
    have hscan := Lexeme.scan_gap hgap (1 + Lexeme.newlines before)
    rw [List.append_nil, Lexeme.scan_nil] at hscan
    rw [written, hscan, tokensAfter, Lexeme.newlines_append, Nat.add_assoc]
  | cons w more ih =>
    obtain ⟨hgap, hmore⟩ := hgaps
    rw [List.tail_cons] at hapart
    have hw := hwrites w List.mem_cons_self
    have hnext := isBlank_of_mem_head?_written hapart (hlast (List.cons_ne_nil _ _))
    have hrest := ih hmore (fun v hv => hwrites v (List.mem_cons_of_mem _ hv))
      (fun v hv => hapart v (List.mem_of_mem_tail hv)) (fun _ => hlast (List.cons_ne_nil _ _))
      (before ++ w.gap ++ w.text.toList)
    -- the gap leads on to the line of the word, and the word stays on it
    have hline : 1 + Lexeme.newlines before + Lexeme.newlines w.gap
        = 1 + Lexeme.newlines (before ++ w.gap) := by
      rw [Lexeme.newlines_append, Nat.add_assoc]
    rw [Lexeme.newlines_append, hw.newlines_eq, Nat.add_zero] at hrest
    rw [written, Lexeme.scan_gap hgap, hline, Lexeme.scan_word hw hnext, hrest]
    rfl

/-- Cutting a source gives back the words that it was written with, whatever the gaps are. -/
theorem ofSource_written {words : List Placed} {last : List Char} (hgaps : Gapped words last)
    (hwrites : ∀ w ∈ words, w.kind.Writes w.text.toList)
    (hapart : ∀ w ∈ words.tail, startsBlank w.gap = true)
    (hlast : words ≠ [] → last = [] ∨ startsBlank last = true) :
    Token.ofSource (String.ofList (written words last)) = .ok (tokensAfter [] words last) := by
  rw [Token.ofSource_eq_ok_iff, String.toList_ofList]
  exact scan_written hgaps hwrites hapart hlast []

/-- Five words between comments of both kinds, blanks and newlines. -/
def spacedWords : List Placed :=
  [⟨['/', '*', '\n', '/', '*', '/'], .kwInt, "int"⟩,
   ⟨['\n', '/', '/', '/', '*', '\n'], .identifier, "if_"⟩,
   ⟨[' ', '/', '*', '*', '*', '/'], .divAssign, "/="⟩,
   ⟨['\u00a0'], .number, "3.14"⟩,
   ⟨['\t', '/', '/', '\n'], .slash, "/"⟩]

/-- The five words are cut, each on its line. -/
theorem ofSource_spacedWords :
    Token.ofSource (String.ofList (written spacedWords ['\n', '/', '/', '\n']))
      = .ok [⟨.kwInt, "int", 2⟩, ⟨.identifier, "if_", 4⟩, ⟨.divAssign, "/=", 4⟩,
          ⟨.number, "3.14", 4⟩, ⟨.slash, "/", 5⟩, .atEnd 7] := by
  refine ofSource_written ⟨?_, ?_, ?_, ?_, ?_, ?_⟩ ?_ (by decide) (by decide)
  · exact .blockComment (by decide : ¬ ['*', '/'] <:+: ['\n', '/']) .nil
  · exact .blank rfl (.lineComment (by decide : '\n' ∉ ['/', '*']) (by simp) (.blank rfl .nil))
  · exact .blank rfl (.blockComment (by decide : ¬ ['*', '/'] <:+: ['*']) .nil)
  · exact .blank rfl .nil
  · exact .blank rfl (.lineComment (by decide : '\n' ∉ []) (by simp) (.blank rfl .nil))
  · exact .blank rfl (.lineComment (by decide : '\n' ∉ []) (by simp) (.blank rfl .nil))
  · have hname : "if_".toList = ['i', 'f', '_'] := by decide
    have hnumber : "3.14".toList = ['3'] ++ '.' :: ['1', '4'] := by decide
    intro w hw
    simp only [spacedWords, List.mem_cons, List.not_mem_nil, or_false] at hw
    rcases hw with rfl | rfl | rfl | rfl | rfl
    · exact .fixed rfl
    · rw [hname]
      refine .word (by decide) (List.all_eq_true.mp (by decide)) fun k => ?_
      cases k <;> decide
    · exact .fixed rfl
    · rw [hnumber]
      exact .fraction (by decide) (List.all_eq_true.mp (by decide)) (by decide)
        (List.all_eq_true.mp (by decide))
    · exact .fixed rfl

end Tercet
