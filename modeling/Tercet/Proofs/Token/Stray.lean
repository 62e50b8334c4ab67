import Tercet.Proofs.Token.Lossless

/-!
# `Tercet.Proofs.Token.Stray`: characters that start no lexeme

A source that cannot be cut is refused at its first character that starts no lexeme, and
`stray_ofSource` says all about that place: the source up to it can be cut on its own, the message
names the character, the line is counted by the newlines before it, and the character is one of
those that no class starts with. A source without such characters is never refused.

Two facts carry this. Which classes fit is seen from the first character, but for the sign of
inequality, which takes two (`firstMatch_cons_eq_none_iff`). And a class cuts the same from a text
and from any front of it that still holds the lexeme (`lexeme_eq_of_le`): a number, a comment or a
sign of two characters looks ahead, but never so that less text to look at would give another
answer. So the lexemes of a source are those of the part that they make up (`split_lexemes`).
-/

set_option autoImplicit false

namespace Tercet

namespace Pattern

/-! ### First characters -/

/-- The characters that are marks or operators by themselves. -/
def signs : List Char :=
  ['\x7b', '\x7d', '(', ')', '=', '<', '>', ';', ',', '+', '-', '*', '/', '%']

/-- The characters of the spelling of a kind; none, where it has no spelling. -/
def spelled (k : Kind) : List Char :=
  (k.spelling?.getD "").toList

/-- A class of one spelling cuts that or nothing. -/
theorem lexeme_fixed (k : Kind) (cs : List Char) :
    (fixed k).lexeme cs = if (spelled k).isPrefixOf cs then spelled k else [] := rfl

/-- Whether a lexeme of the class may start with the character. -/
def starts : Pattern → Char → Bool
  | blank, c => Text.isBlank c
  | lineComment, c | blockComment, c => c == '/'
  | word, c => isWordStart c
  | number, c => c.isDigit
  | fixed k, c => (spelled k).head? == some c

variable {p : Pattern} {c : Char} {cs ds : List Char}

/-- A class fits only where the first character does. -/
theorem starts_of_lexeme_ne_nil (h : p.lexeme (c :: cs) ≠ []) : p.starts c = true := by
  rw [← Bool.not_eq_false]
  intro hstarts
  apply h
  cases p with
  | blank => exact List.takeWhile_cons_of_neg (by rw [Bool.not_eq_true]; exact hstarts)
  | lineComment => exact lexeme_lineComment_of_ne (by simpa [starts] using hstarts) cs
  | blockComment => exact lexeme_blockComment_of_ne (by simpa [starts] using hstarts) cs
  | word =>
    have hword : isWordStart c = false := hstarts
    simp [lexeme, hword]
  | number => exact lexeme_number_of_not_isDigit hstarts
  | fixed k =>
    rw [lexeme_fixed]
    cases hspelled : spelled k with
    | nil => split <;> rfl
    | cons d rest =>
      have hd : d ≠ c := by simpa [starts, hspelled] using hstarts
      simp [List.isPrefixOf, hd]

/-- Nothing is cut exactly if no class fits. -/
theorem firstMatch_eq_none_iff : firstMatch cs = none ↔ ∀ p ∈ all, p.lexeme cs = [] := by
  rw [firstMatch, List.findSome?_eq_none_iff]
  refine forall₂_congr fun p _ => ?_
  cases p.lexeme cs <;> simp

/-- The first match is that of the first class that fits. -/
theorem firstMatch_eq_some_iff {text : List Char} :
    firstMatch cs = some (p, text) ↔ (∃ before after, all = before ++ p :: after ∧
      ∀ q ∈ before, q.lexeme cs = []) ∧ p.lexeme cs = text ∧ text ≠ [] := by
  constructor
  · intro h
    refine ⟨?_, lexeme_of_firstMatch h⟩
    rw [firstMatch, List.findSome?_eq_some_iff] at h
    obtain ⟨before, q, after, hall, hq, hbefore⟩ := h
    split at hq
    · cases hq
    · cases hq
      refine ⟨before, after, hall, fun q hq => ?_⟩
      -- a class that is passed over has cut nothing
      have hnone := hbefore q hq
      split at hnone
      · assumption
      · cases hnone
  · rintro ⟨⟨before, after, hall, hbefore⟩, rfl, hne⟩
    rw [firstMatch, List.findSome?_eq_some_iff]
    refine ⟨before, p, after, hall, ?_, fun q hq => by simp only [hbefore q hq]⟩
    split
    · contradiction
    · rfl

/-- A spelling is cut where it stands. -/
theorem lexeme_fixed_of_le {k : Kind} (h : spelled k <+: cs) : (fixed k).lexeme cs = spelled k := by
  rw [lexeme_fixed, if_pos (List.isPrefixOf_iff_prefix.mpr h)]

/-- Nothing is cut where it does not. -/
theorem lexeme_fixed_eq_nil {k : Kind} (h : ¬ spelled k <+: cs) : (fixed k).lexeme cs = [] := by
  rw [lexeme_fixed, if_neg (fun hle => h (List.isPrefixOf_iff_prefix.mp hle))]

/-- A kind of the table is one that is found by its spelling. -/
theorem mem_fixedKinds {k : Kind} (h : fixed k ∈ all) : k ∈ fixedKinds := by
  simpa [all] using h

/-- Every operator starts with a sign, but for the one of inequality. -/
theorem head_spelled {k : Kind} (hk : k ∈ fixedKinds) :
    (spelled k).head?.all signs.contains = true ∨ spelled k = ['!', '='] := by
  have hheads : ∀ k ∈ fixedKinds,
      (spelled k).head?.all signs.contains = true ∨ spelled k = ['!', '='] := by decide
  exact hheads k hk

/-- The character starts no lexeme in front of the text `after`. Only the sign of inequality needs
a second character. -/
structure Stray (c : Char) (after : List Char) : Prop where
  not_blank : Text.isBlank c = false
  not_letter : c.isAlpha = false
  not_digit : c.isDigit = false
  not_underscore : c ≠ '_'
  not_sign : c ∉ signs
  not_unequal : ¬ (c = '!' ∧ after.head? = some '=')

/-- No class fits a text exactly if its first character starts no lexeme. -/
theorem firstMatch_cons_eq_none_iff : firstMatch (c :: cs) = none ↔ Stray c cs := by
  rw [firstMatch_eq_none_iff]
  constructor
  · intro h
    -- a character of a class would be cut by it, at least alone
    have hword : isWordStart c = false := by
      rw [← Bool.not_eq_true]
      intro hc
      have hnone := h .word (by decide)
      simp [lexeme, hc] at hnone
    obtain ⟨hletter, hunderscore⟩ := Bool.or_eq_false_iff.mp hword
    refine ⟨?_, hletter, ?_, by simpa using hunderscore, fun hc => ?_, ?_⟩
    · rw [← Bool.not_eq_true]
      intro hc
      have hnone := h .blank (by decide)
      simp [lexeme, hc] at hnone
    · rw [← Bool.not_eq_true]
      intro hc
      have hnone := h .number (by decide)
      simp [lexeme, hc] at hnone
    -- each sign is the whole spelling of a kind
    · have hkinds : signs.all (fun c => fixedKinds.any fun k => spelled k == [c]) = true := by
        decide
      obtain ⟨k, hk, hspelled⟩ := List.any_eq_true.mp (List.all_eq_true.mp hkinds c hc)
      rw [beq_iff_eq] at hspelled
      have hnone := h (.fixed k) (by simp [all, hk])
      rw [lexeme_fixed_of_le (by simp [hspelled]), hspelled] at hnone
      cases hnone
    · rintro ⟨rfl, hnext⟩
      have hnone := h (.fixed .notEqual) (by decide)
      have hle : spelled .notEqual <+: '!' :: cs := by
        cases cs with
        | nil => cases hnext
        | cons d cs =>
          cases hnext
          exact List.prefix_append ['!', '='] cs
      rw [lexeme_fixed_of_le hle] at hnone
      exact absurd hnone (by decide)
  · intro h p hp
    -- what is cut starts with the character, and no class allows that
    by_contra hne
    have hstarts := starts_of_lexeme_ne_nil hne
    cases p with
    | blank => exact Bool.noConfusion (h.not_blank.symm.trans hstarts)
    | lineComment | blockComment =>
      have hc : c = '/' := by simpa [starts] using hstarts
      exact h.not_sign (hc ▸ by decide)
    | word =>
      rw [starts, isWordStart, h.not_letter, Bool.false_or, beq_iff_eq] at hstarts
      exact h.not_underscore hstarts
    | number => exact Bool.noConfusion (h.not_digit.symm.trans hstarts)
    | fixed k =>
      have hhead : (spelled k).head? = some c := by simpa [starts] using hstarts
      rcases head_spelled (mem_fixedKinds hp) with hsign | hspelled
      · rw [hhead] at hsign
        exact h.not_sign (by simpa using hsign)
      · have hle : spelled k <+: c :: cs := by
          by_contra hnot
          exact hne (lexeme_fixed_eq_nil hnot)
        rw [hspelled] at hle
        obtain ⟨rest, hrest⟩ := hle
        cases hrest
        exact h.not_unequal ⟨rfl, rfl⟩

/-! ### Less text to look at -/

/-- A run of characters is the same in any front of the text that holds it. -/
theorem takeWhile_eq_of_le {q : Char → Bool} (hds : ds <+: cs) (h : cs.takeWhile q <+: ds) :
    ds.takeWhile q = cs.takeWhile q := by
  obtain ⟨more, rfl⟩ := hds
  rw [List.takeWhile_append] at h ⊢
  split at h
  · rename_i hlength
    have hall : ds.takeWhile q = ds := (List.takeWhile_prefix q).eq_of_length hlength
    have hnone : more.takeWhile q = [] := by
      have hle := h.length_le
      rw [List.length_append] at hle
      exact List.length_eq_zero_iff.mp (by omega)
    rw [if_pos hlength, hnone, List.append_nil, hall]
  · rename_i hlength
    rw [if_neg hlength]

/-- The body of a comment is the front that ends with the first closing mark. -/
theorem throughClose?_eq_some_iff {body : List Char} :
    throughClose? cs = some body ↔
      body <+: cs ∧ ∃ inner, body = inner ++ ['*', '/'] ∧ ¬ ['*', '/'] <:+: inner := by
  constructor
  · intro h
    exact ⟨throughClose?_append h, exists_of_throughClose? h⟩
  · rintro ⟨⟨rest, rfl⟩, inner, rfl, hinner⟩
    exact throughClose?_append_close hinner rest

/-- The body is the same in any front of the text that holds it. -/
theorem throughClose?_eq_of_le (hds : ds <+: cs) (h : ∀ body ∈ throughClose? cs, body <+: ds) :
    throughClose? ds = throughClose? cs := by
  refine Option.ext fun body => ⟨fun hbody => ?_, fun hbody => ?_⟩
  · obtain ⟨hle, hshape⟩ := throughClose?_eq_some_iff.mp hbody
    exact throughClose?_eq_some_iff.mpr ⟨hle.trans hds, hshape⟩
  · exact throughClose?_eq_some_iff.mpr ⟨h body hbody, (throughClose?_eq_some_iff.mp hbody).2⟩

/-- Behind its opening, a comment is cut up to its closing mark, and not at all without one. -/
theorem lexeme_blockComment (rest : List Char) :
    blockComment.lexeme (['/', '*'] ++ rest)
      = ((throughClose? rest).map (['/', '*'] ++ ·)).getD [] := by
  simp only [lexeme, List.cons_append, List.nil_append]
  cases throughClose? rest <;> rfl

/-- The fraction is the same in any front of the text that holds it. -/
theorem fraction_eq_of_le (hds : ds <+: cs) (h : fraction cs <+: ds) :
    fraction ds = fraction cs := by
  cases ds with
  | nil => exact (List.prefix_nil.mp h).symm
  | cons d ds =>
    obtain ⟨more, rfl⟩ := hds
    by_cases hd : d = '.'
    · subst hd
      -- what follows the point is a run of digits, or none
      have hrun : ds.takeWhile Char.isDigit = (ds ++ more).takeWhile Char.isDigit := by
        refine takeWhile_eq_of_le (List.prefix_append ds more) ?_
        rw [List.cons_append, fraction] at h
        split at h
        · rename_i hnone
          rw [hnone]
          exact List.nil_prefix
        · exact (List.cons_prefix_cons.mp h).2
      rw [List.cons_append, fraction, fraction, hrun]
    · simp [fraction, hd]

/-- A class cuts the same from a text and from any front of it that holds the lexeme. Where it
cuts nothing, it cuts nothing from any front. -/
theorem lexeme_eq_of_le (hds : ds <+: cs) (h : p.lexeme cs <+: ds) : p.lexeme ds = p.lexeme cs := by
  cases p with
  | blank => exact takeWhile_eq_of_le hds h
  | lineComment =>
    by_cases hcs : ['/', '/'] <+: cs
    · obtain ⟨tail, rfl⟩ := hcs
      have hlexeme (rest : List Char) : lineComment.lexeme (['/', '/'] ++ rest)
          = ['/', '/'] ++ rest.takeWhile (· != '\n') := rfl
      rw [hlexeme] at h ⊢
      obtain ⟨front, rfl⟩ := (List.prefix_append _ _).trans h
      rw [List.prefix_append_right_inj] at hds h
      rw [hlexeme, takeWhile_eq_of_le hds h]
    · rw [lexeme_lineComment_eq_nil hcs,
        lexeme_lineComment_eq_nil fun hle => hcs (hle.trans hds)]
  | blockComment =>
    by_cases hopen : ['/', '*'] <+: ds
    · obtain ⟨front, rfl⟩ := hopen
      obtain ⟨tail, rfl⟩ := (List.prefix_append _ _).trans hds
      rw [List.prefix_append_right_inj] at hds
      rw [lexeme_blockComment] at h
      have hclose : throughClose? front = throughClose? tail := by
        refine throughClose?_eq_of_le hds fun body hbody => ?_
        rw [hbody] at h
        exact (List.prefix_append_right_inj _).mp h
      rw [lexeme_blockComment, lexeme_blockComment, hclose]
    -- a comment that is cut from the text would open in the front as well
    · rw [lexeme_blockComment_eq_nil hopen]
      by_contra hne
      obtain ⟨tail, rfl⟩ : ['/', '*'] <+: cs :=
        Decidable.byContradiction fun hnot => hne (lexeme_blockComment_eq_nil hnot).symm
      rw [lexeme_blockComment] at h hne
      cases hclose : throughClose? tail with
      | none => exact hne (by rw [hclose]; rfl)
      | some body =>
        rw [hclose] at h
        exact hopen ((List.prefix_append _ _).trans h)
  | word =>
    cases ds with
    | nil => exact (List.prefix_nil.mp h).symm
    | cons d ds =>
      obtain ⟨more, rfl⟩ := hds
      simp only [List.cons_append, lexeme] at h ⊢
      split
      · rename_i hd
        rw [if_pos hd, List.cons_prefix_cons] at h
        rw [takeWhile_eq_of_le (List.prefix_append ds more) h.2]
      · rfl
  | number =>
    simp only [lexeme] at h ⊢
    have hrun : ds.takeWhile Char.isDigit = cs.takeWhile Char.isDigit := by
      refine takeWhile_eq_of_le hds ?_
      split at h
      · rename_i hnone
        rw [hnone]
        exact List.nil_prefix
      · exact (List.prefix_append _ _).trans h
    rw [hrun]
    split at h
    · rfl
    · -- behind the same digits, the fraction is looked for in less text
      have hparts : cs.takeWhile Char.isDigit ++ ds.dropWhile Char.isDigit = ds := by
        rw [← hrun, List.takeWhile_append_dropWhile]
      have hfront : ds.dropWhile Char.isDigit <+: cs.dropWhile Char.isDigit := by
        rw [← List.prefix_append_right_inj (cs.takeWhile Char.isDigit), hparts,
          List.takeWhile_append_dropWhile]
        exact hds
      rw [← hparts, List.prefix_append_right_inj] at h
      rw [fraction_eq_of_le hfront h]
  | fixed k =>
    by_cases hcs : spelled k <+: cs
    · rw [lexeme_fixed_of_le hcs] at h ⊢
      rw [lexeme_fixed_of_le h]
    · rw [lexeme_fixed_eq_nil hcs, lexeme_fixed_eq_nil fun hle => hcs (hle.trans hds)]

/-- The first match is the same in any front of the text that holds it. -/
theorem firstMatch_eq_of_le {text : List Char} (h : firstMatch cs = some (p, text))
    (hds : ds <+: cs) (htext : text <+: ds) : firstMatch ds = some (p, text) := by
  obtain ⟨⟨before, after, hall, hbefore⟩, hlexeme, hne⟩ := firstMatch_eq_some_iff.mp h
  refine firstMatch_eq_some_iff.mpr ⟨⟨before, after, hall, fun q hq => ?_⟩, ?_, hne⟩
  · have hnone := hbefore q hq
    rw [lexeme_eq_of_le hds (hnone ▸ List.nil_prefix), hnone]
  · rw [lexeme_eq_of_le hds (hlexeme ▸ htext), hlexeme]

end Pattern

/-! ### Sources that cannot be cut -/

/-- What has been cut from a text is cut in the same way when it stands alone. -/
theorem Lexeme.split_lexemes (line : Nat) (cs : List Char) :
    split line ((split line cs).1.flatMap Lexeme.text) = ((split line cs).1, []) := by
  induction line, cs using Lexeme.split.induct with
  | case1 line cs hmatch =>
    rw [split_of_firstMatch_eq_none hmatch]
    exact split_of_firstMatch_eq_none Pattern.firstMatch_nil line
  | case2 line cs p text hmatch _ _ _ ih =>
    have hparts := Pattern.append_drop_of_firstMatch hmatch
    generalize cs.drop text.length = rest at hparts ih
    rw [← hparts] at hmatch ⊢
    have hle : (split (line + newlines text) rest).1.flatMap Lexeme.text <+: rest :=
      ⟨_, split_append _ rest⟩
    -- the first lexeme is cut from less text, but all of it is there
    have hmatch' := Pattern.firstMatch_eq_of_le hmatch
      ((List.prefix_append_right_inj text).mpr hle) (List.prefix_append _ _)
    rw [split_append_of_firstMatch hmatch, List.flatMap_cons, split_append_of_firstMatch hmatch',
      ih]

/-- A source that cannot be cut is refused at a character that starts no lexeme, and the part
before it can be cut. -/
theorem Token.exists_of_ofSource_eq_error {source : String} {e : SyntaxError}
    (h : Token.ofSource source = .error e) :
    ∃ before c after, source.toList = before ++ c :: after ∧
      (∃ tokens, Token.ofSource (String.ofList before) = .ok tokens) ∧
      e = ⟨.unrecognized c, 1 + Lexeme.newlines before⟩ ∧ Pattern.Stray c after := by
  have hparts := Lexeme.split_append 1 source.toList
  have hstop := Lexeme.firstMatch_split 1 source.toList
  have halone := Lexeme.split_lexemes 1 source.toList
  rw [ofSource] at h
  split at h
  · cases h
  · rename_i lexemes c after hsplit
    cases h
    rw [hsplit] at hparts hstop halone
    refine ⟨_, c, after, hparts.symm, ?_, by rw [Lexeme.endLine_eq], ?_⟩
    · simp only [ofSource, String.toList_ofList, halone]
      exact ⟨_, rfl⟩
    · exact Pattern.firstMatch_cons_eq_none_iff.mp hstop

/-- Whether the character starts a lexeme by itself, whatever follows it. -/
def Pattern.isPlain (c : Char) : Bool :=
  Text.isBlank c || c.isAlpha || c.isDigit || c == '_' || signs.contains c

/-- A character that starts no lexeme does not start one by itself. -/
theorem Pattern.Stray.not_isPlain {c : Char} {after : List Char} (h : Stray c after) :
    isPlain c = false := by
  simp [isPlain, h.not_blank, h.not_letter, h.not_digit, h.not_underscore, h.not_sign]

/-- A source that cannot be cut is refused at a character that starts no lexeme. What stands
before it can be cut, the message quotes the character, and its line is one more than the number of
newlines before it. A source is not refused if all of its characters start lexemes. -/
theorem stray_ofSource (source : String) :
    (∀ e, Token.ofSource source = .error e →
      ∃ before c after, source.toList = before ++ c :: after ∧
        (∃ tokens, Token.ofSource (String.ofList before) = .ok tokens) ∧
        e.message = "token recognition error at: '" ++ c.toString ++ "'" ∧
        e.line = 1 + Lexeme.newlines before ∧ Pattern.Stray c after) ∧
    ((∀ c ∈ source.toList, Pattern.isPlain c = true) →
      ∃ tokens, Token.ofSource source = .ok tokens) := by
  constructor
  · intro e h
    obtain ⟨before, c, after, hsource, hbefore, rfl, hstray⟩ := Token.exists_of_ofSource_eq_error h
    exact ⟨before, c, after, hsource, hbefore, rfl, rfl, hstray⟩
  · intro hplain
    cases h : Token.ofSource source with
    | ok tokens => exact ⟨tokens, rfl⟩
    | error e =>
      obtain ⟨before, c, after, hsource, _, _, hstray⟩ := Token.exists_of_ofSource_eq_error h
      have hc := hplain c (by simp [hsource])
      rw [hstray.not_isPlain] at hc
      cases hc

/-- A comment that is not closed, and on the next line a number with a second point. -/
def openComment : String :=
  "/*x\n1.5.y"

/-- The comment is read as operators and the number up to the second point, which starts nothing.
Without the points, the source is not refused. -/
theorem stray_openComment :
    Token.ofSource openComment = .error ⟨.unrecognized '.', 2⟩ ∧
    (∃ before c after, openComment.toList = before ++ c :: after ∧
      (∃ tokens, Token.ofSource (String.ofList before) = .ok tokens) ∧
      SyntaxError.message ⟨.unrecognized '.', 2⟩
        = "token recognition error at: '" ++ c.toString ++ "'" ∧
      2 = 1 + Lexeme.newlines before ∧ Pattern.Stray c after) ∧
    "/*x\n15y".toList.all Pattern.isPlain = true ∧
    ∃ tokens, Token.ofSource "/*x\n15y" = .ok tokens := by
  have hrefused : Token.ofSource openComment = .error ⟨.unrecognized '.', 2⟩ := by decide +kernel
  have hplain : "/*x\n15y".toList.all Pattern.isPlain = true := by decide
  exact ⟨hrefused, (stray_ofSource _).1 _ hrefused, hplain,
    (stray_ofSource _).2 (List.all_eq_true.mp hplain)⟩

end Tercet
