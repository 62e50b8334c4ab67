import Tercet.Proofs.Token.Stray

/-!
# `Tercet.Proofs.Token.Precedence`: the first match is the longest

Each class is a regular expression with preferences: a repetition takes as many characters as it
can, or as few, and an optional part is taken if it can be. `Regex.ways` lists all matches at the
front of a text, the preferred one first, and `Regex.find?` takes that one. The lexeme of a class is
the match of its expression (`find?_regex`), so the table of classes may be read as a table of
expressions that are tried in order.

The order of the table is right: where a class fits, none that is tried after it would cut more
(`pairwise_outreaches`). For most classes the order does not even matter. Blanks, words and numbers
share no first character with any other class, and a comment is as long as the longest operator. It
matters among the operators alone, where one may be the beginning of another.
-/

set_option autoImplicit false

namespace Tercet

/-! ### Regular expressions with preferences -/

/-- A regular expression over characters, in which only single characters are repeated. -/
inductive Regex where
  | empty
  /-- One character of the class. -/
  | one (accepts : Char → Bool)
  /-- As many characters of the class as possible. -/
  | most (accepts : Char → Bool)
  /-- As few characters of the class as possible. -/
  | fewest (accepts : Char → Bool)
  /-- The part, if possible. -/
  | maybe (part : Regex)
  | seq (first second : Regex)

namespace Regex

/-- The characters of the class at the front of a text, from none to all of them. -/
def runs (accepts : Char → Bool) : List Char → List (List Char)
  | [] => [[]]
  | c :: cs => [] :: if accepts c then (runs accepts cs).map (c :: ·) else []

/-- All matches at the front of a text, in the order of preference. -/
def ways : Regex → List Char → List (List Char)
  | empty, _ => [[]]
  | one _, [] => []
  | one accepts, c :: _ => if accepts c then [[c]] else []
  | most accepts, cs => (runs accepts cs).reverse
  | fewest accepts, cs => runs accepts cs
  | maybe part, cs => part.ways cs ++ [[]]
  -- another match of the second part is preferred to another one of the first
  | seq first second, cs =>
    (first.ways cs).flatMap fun text => (second.ways (cs.drop text.length)).map (text ++ ·)

/-- The preferred match at the front of a text. -/
def find? (r : Regex) (cs : List Char) : Option (List Char) :=
  (r.ways cs).head?

/-- The characters one by one. -/
def literal : List Char → Regex
  | [] => empty
  | c :: cs => seq (one (· == c)) (literal cs)

/-- At least one character of the class, and as many as possible. -/
def run (accepts : Char → Bool) : Regex :=
  seq (one accepts) (most accepts)

variable {r s : Regex} {accepts : Char → Bool} {c : Char} {cs text : List Char}

/-- As many characters as possible are those up to the first that the class lacks. -/
theorem find?_most (accepts : Char → Bool) (cs : List Char) :
    (most accepts).find? cs = some (cs.takeWhile accepts) := by
  rw [find?, ways, List.head?_reverse]
  -- the longest run is the last of the list
  induction cs with
  | nil => rfl
  | cons c cs ih =>
    rw [runs]
    split
    · rename_i hc
      rw [List.getLast?_cons, List.getLast?_map, ih, List.takeWhile_cons_of_pos hc]
      rfl
    · rename_i hc
      rw [List.takeWhile_cons_of_neg hc]
      rfl

/-- An optional part always matches, with its own match if it has one. -/
theorem find?_maybe (cs : List Char) : (maybe r).find? cs = some ((r.find? cs).getD []) := by
  rw [find?, find?, ways]
  cases r.ways cs <;> rfl

/-- After one character, only what follows has a choice. -/
theorem ways_one_seq (c : Char) (cs : List Char) :
    (seq (one accepts) s).ways (c :: cs)
      = if accepts c then (s.ways cs).map (c :: ·) else [] := by
  by_cases hc : accepts c = true <;> simp [ways, hc]

/-- So does the preferred match. -/
theorem find?_one_seq (c : Char) (cs : List Char) :
    (seq (one accepts) s).find? (c :: cs)
      = if accepts c then (s.find? cs).map (c :: ·) else none := by
  rw [find?, ways_one_seq]
  split
  · rw [List.head?_map, find?]
  · rfl

/-- The preferred match of two parts in a row is made up of their preferred matches, if what
follows the first has one. No other way to match the first part is tried then. -/
theorem find?_seq_of_some {front : List Char} (hr : r.find? cs = some front)
    (hs : s.find? (cs.drop front.length) = some text) :
    (seq r s).find? cs = some (front ++ text) := by
  obtain ⟨others, hothers⟩ := List.head?_eq_some_iff.mp hr
  obtain ⟨others', hothers'⟩ := List.head?_eq_some_iff.mp hs
  simp [find?, ways, hothers, hothers']

/-- Two parts in a row match nothing if the first does not. -/
theorem find?_seq_of_none (hr : r.find? cs = none) : (seq r s).find? cs = none := by
  simp [find?, ways, List.head?_eq_none_iff.mp hr]

/-- A run matches if it is not empty. -/
theorem find?_run (accepts : Char → Bool) (cs : List Char) :
    (run accepts).find? cs
      = if cs.takeWhile accepts = [] then none else some (cs.takeWhile accepts) := by
  cases cs with
  | nil => rfl
  | cons c cs =>
    rw [run, find?_one_seq, find?_most]
    by_cases hc : accepts c = true <;> simp [hc]

/-- A literal matches in one way or not at all. -/
theorem ways_literal (front cs : List Char) :
    (literal front).ways cs = if front.isPrefixOf cs then [front] else [] := by
  induction front generalizing cs with
  | nil => rfl
  | cons d front ih =>
    cases cs with
    | nil => rfl
    | cons c cs =>
      rw [literal, ways_one_seq, ih, List.isPrefixOf_cons_cons, Bool.beq_comm]
      by_cases hc : d = c
      · subst hc
        by_cases hfront : front.isPrefixOf cs = true <;> simp [hfront]
      · simp [hc]

/-- After a literal, the match is that of what follows. -/
theorem find?_literal_seq (front rest : List Char) :
    (seq (literal front) s).find? (front ++ rest) = (s.find? rest).map (front ++ ·) := by
  have hfits : front.isPrefixOf (front ++ rest) = true :=
    List.isPrefixOf_iff_prefix.mpr (List.prefix_append front rest)
  simp [find?, ways, ways_literal, hfits, List.head?_map]

/-- Where the literal does not stand, nothing behind it is tried. -/
theorem find?_literal_seq_eq_none {front : List Char} (h : ¬ front <+: cs) :
    (seq (literal front) s).find? cs = none := by
  rw [← List.isPrefixOf_iff_prefix] at h
  simp [find?, ways, ways_literal, h]

/-- With as few characters as possible, what follows is looked for right here, and then one
character later. -/
theorem ways_fewest_seq (c : Char) (cs : List Char) :
    (seq (fewest fun _ => true) s).ways (c :: cs)
      = s.ways (c :: cs) ++ ((seq (fewest fun _ => true) s).ways cs).map (c :: ·) := by
  simp [ways, runs, List.flatMap_map, List.map_flatMap, Function.comp_def]

end Regex

namespace Pattern

open Regex

variable {p q : Pattern} {cs text : List Char}

/-- The expression of a class. -/
def regex : Pattern → Regex
  | blank => run Text.isBlank
  | lineComment => seq (literal ['/', '/']) (most (· != '\n'))
  | blockComment => seq (literal ['/', '*']) (seq (fewest fun _ => true) (literal ['*', '/']))
  | word => seq (one isWordStart) (most isWordRest)
  | number => seq (run Char.isDigit) (maybe (seq (one (· == '.')) (run Char.isDigit)))
  | fixed k => literal (k.fixedText?.getD "").toList

/-- A comment that takes as few characters as possible ends at the first closing mark. -/
theorem find?_throughClose (cs : List Char) :
    (seq (fewest fun _ => true) (literal ['*', '/'])).find? cs = throughClose? cs := by
  fun_induction throughClose? cs with
  | case1 rest =>
    rw [find?, ways_fewest_seq, ways_literal]
    rfl
  | case2 c cs hopen ih =>
    -- the mark does not stand here, so one more character is taken
    have hnone : ['*', '/'].isPrefixOf (c :: cs) = false := by
      rw [← Bool.not_eq_true, List.isPrefixOf_iff_prefix]
      rintro ⟨rest, hrest⟩
      obtain ⟨rfl, rfl⟩ := List.cons.inj hrest
      exact hopen rest rfl rfl
    rw [← ih, find?, ways_fewest_seq, ways_literal, if_neg (by simp [hnone]), List.nil_append,
      List.head?_map, find?]
  | case3 => rfl

/-- The optional point with its digits is the fraction. -/
theorem find?_fraction (cs : List Char) :
    ((seq (one (· == '.')) (run Char.isDigit)).find? cs).getD [] = fraction cs := by
  cases cs with
  | nil => rfl
  | cons c cs =>
    rw [find?_one_seq, find?_run]
    by_cases hc : c = '.'
    · subst hc
      rw [fraction]
      by_cases hdigits : cs.takeWhile Char.isDigit = [] <;> simp [hdigits]
    · simp [fraction, hc]

/-- Without a first digit there is no number. -/
theorem lexeme_number_eq_nil (h : cs.takeWhile Char.isDigit = []) : number.lexeme cs = [] := by
  simp only [lexeme, h]

/-- A number is its digits and its fraction. -/
theorem lexeme_number (h : cs.takeWhile Char.isDigit ≠ []) :
    number.lexeme cs = cs.takeWhile Char.isDigit ++ fraction (cs.dropWhile Char.isDigit) := by
  simp only [lexeme]

/-- Every kind that is found by its spelling has one. -/
theorem spelled_ne_nil {k : Kind} (hk : k ∈ fixedKinds) : spelled k ≠ [] := by
  have hall : ∀ k ∈ fixedKinds, spelled k ≠ [] := by decide
  exact hall k hk

/-- The lexeme of a class is the preferred match of its expression. -/
theorem find?_regex (hp : p ∈ all) (cs : List Char) :
    p.regex.find? cs = if p.lexeme cs = [] then none else some (p.lexeme cs) := by
  cases p with
  | blank => exact find?_run Text.isBlank cs
  | lineComment =>
    by_cases hopen : ['/', '/'] <+: cs
    · obtain ⟨rest, rfl⟩ := hopen
      rw [regex, find?_literal_seq, find?_most]
      rfl
    · rw [regex, find?_literal_seq_eq_none hopen, lexeme_lineComment_eq_nil hopen, if_pos rfl]
  | blockComment =>
    by_cases hopen : ['/', '*'] <+: cs
    · obtain ⟨rest, rfl⟩ := hopen
      rw [regex, find?_literal_seq, find?_throughClose, lexeme_blockComment]
      cases throughClose? rest <;> rfl
    · rw [regex, find?_literal_seq_eq_none hopen, lexeme_blockComment_eq_nil hopen, if_pos rfl]
  | word =>
    cases cs with
    | nil => rfl
    | cons c cs =>
      rw [regex, find?_one_seq, find?_most]
      by_cases hc : isWordStart c = true <;> simp [lexeme, hc]
  | number =>
    have hrun := find?_run Char.isDigit cs
    by_cases hdigits : cs.takeWhile Char.isDigit = []
    · rw [if_pos hdigits] at hrun
      rw [regex, find?_seq_of_none hrun, lexeme_number_eq_nil hdigits, if_pos rfl]
    · rw [if_neg hdigits] at hrun
      -- what is left behind the digits is where the fraction is looked for
      have hrest := calc cs.drop (cs.takeWhile Char.isDigit).length
        _ = (cs.takeWhile Char.isDigit ++ cs.dropWhile Char.isDigit).drop
              (cs.takeWhile Char.isDigit).length := by rw [List.takeWhile_append_dropWhile]
        _ = cs.dropWhile Char.isDigit := List.drop_left
      rw [regex, find?_seq_of_some hrun (find?_maybe _), find?_fraction, hrest,
        lexeme_number hdigits, if_neg (by simp [hdigits])]
  | fixed k =>
    have hne : spelled k ≠ [] := spelled_ne_nil (mem_fixedKinds hp)
    have htext : (k.fixedText?.getD "").toList = spelled k := by rw [k.fixedText?_eq, spelled]
    rw [regex, htext, find?, ways_literal, lexeme_fixed]
    by_cases hfits : (spelled k).isPrefixOf cs = true <;> simp [hfits, hne]

/-- The preferred matches of a class are its lexemes that are not empty. -/
theorem find?_regex_eq_some_iff (hp : p ∈ all) :
    p.regex.find? cs = some text ↔ p.lexeme cs = text ∧ text ≠ [] := by
  rw [find?_regex hp]
  by_cases hnone : p.lexeme cs = []
  · rw [if_pos hnone, hnone]
    exact ⟨fun h => absurd h.symm (Option.some_ne_none text), fun h => absurd h.1.symm h.2⟩
  · rw [if_neg hnone, Option.some_inj]
    exact ⟨fun h => ⟨h, h ▸ hnone⟩, fun h => h.1⟩

/-- The expression of a class matches where the class cuts something. -/
theorem isSome_find?_regex (hp : p ∈ all) :
    (p.regex.find? cs).isSome = true ↔ p.lexeme cs ≠ [] := by
  rw [find?_regex hp]
  by_cases hnone : p.lexeme cs = [] <;> simp [hnone]

/-! ### The order of the classes -/

/-- Where the one class fits, the other does not cut more. -/
def Outreaches (p q : Pattern) : Prop :=
  ∀ cs, p.lexeme cs ≠ [] → (q.lexeme cs).length ≤ (p.lexeme cs).length

/-- A class cuts no more than itself. -/
theorem Outreaches.refl (p : Pattern) : Outreaches p p :=
  fun _ _ => Nat.le_refl _

/-- A class outreaches any with which it shares no first character. -/
theorem outreaches_of_apart (h : ∀ c, p.starts c = true → q.starts c = false) :
    Outreaches p q := by
  intro cs hp
  have hnone : q.lexeme cs = [] := by
    by_contra hq
    -- a text from which both cut would start with a character of both
    cases cs with
    | nil =>
      obtain ⟨rest, hrest⟩ := p.lexeme_append []
      exact hp (List.append_eq_nil_iff.mp hrest).1
    | cons c cs =>
      have hstarts := h c (starts_of_lexeme_ne_nil hp)
      rw [starts_of_lexeme_ne_nil hq] at hstarts
      cases hstarts
  rw [hnone]
  exact Nat.zero_le _

/-- Whether the lexemes of the class start with a sign. -/
def isSign : Pattern → Bool
  | lineComment | blockComment | fixed _ => true
  | blank | word | number => false

/-- A class of signs starts with one of the signs, or with the mark of inequality. -/
theorem mem_of_starts (hp : p ∈ all) (hsign : p.isSign = true) {c : Char}
    (hc : p.starts c = true) : c ∈ '!' :: signs := by
  cases p with
  | blank | word | number => cases hsign
  | lineComment | blockComment =>
    have hslash : c = '/' := by simpa [starts] using hc
    rw [hslash]
    decide
  | fixed k =>
    have hhead : (spelled k).head? = some c := by simpa [starts] using hc
    rcases head_spelled (mem_fixedKinds hp) with hsigns | hspelled
    · rw [hhead] at hsigns
      exact List.mem_cons_of_mem _ (by simpa using hsigns)
    · rw [hspelled] at hhead
      cases hhead
      exact List.mem_cons_self

/-- No other class does. -/
theorem not_starts_of_mem (hsign : p.isSign = false) {c : Char} (hc : c ∈ '!' :: signs) :
    p.starts c = false := by
  have hall : ('!' :: signs).all
      (fun c => !Text.isBlank c && !isWordStart c && !c.isDigit) = true := by decide
  have hthis := List.all_eq_true.mp hall c hc
  simp only [Bool.and_eq_true, Bool.not_eq_true'] at hthis
  cases p with
  | blank => exact hthis.1.1
  | word => exact hthis.1.2
  | number => exact hthis.2
  | lineComment | blockComment | fixed => cases hsign

/-- Blanks, words and numbers share no first character with each other or with signs. -/
theorem apart_of_isSign_eq_false (hp : p.isSign = false) (hq : q ∈ all) (hne : p ≠ q) {c : Char}
    (hc : p.starts c = true) : q.starts c = false := by
  rw [← Bool.not_eq_true]
  intro hc'
  cases hsign : q.isSign with
  | true =>
    rw [not_starts_of_mem hp (mem_of_starts hq hsign hc')] at hc
    cases hc
  | false =>
    -- both are blanks, words or numbers: their characters are told apart in pairs
    have hblank : Text.isBlank c = true → isWordStart c = false ∧ c.isDigit = false := by
      intro hblank
      refine ⟨?_, not_isDigit_of_isBlank hblank⟩
      rw [← Bool.not_eq_true]
      intro hword
      have hrest := isWordRest_of_isWordStart hword
      rw [not_isWordRest_of_isBlank hblank] at hrest
      cases hrest
    have hword : isWordStart c = true → c.isDigit = false := not_isDigit_of_isWordStart
    cases p <;> cases q <;> simp_all [isSign, starts]

/-- Where blanks, a word or a number can be cut, nothing else can. -/
theorem outreaches_of_isSign_eq_false (hp : p.isSign = false) (hq : q ∈ all) :
    Outreaches p q := by
  by_cases hne : p = q
  · exact hne ▸ .refl p
  · exact outreaches_of_apart fun c hc => apart_of_isSign_eq_false hp hq hne hc

/-- What a comment opens with. -/
def opening : Pattern → List Char
  | lineComment => ['/', '/']
  | blockComment => ['/', '*']
  | _ => []

/-- A comment is cut only where it opens. -/
theorem opening_of_lexeme_ne_nil (hp : p = lineComment ∨ p = blockComment)
    (h : p.lexeme cs ≠ []) : p.opening <+: cs := by
  by_contra hopen
  rcases hp with rfl | rfl
  · exact h (lexeme_lineComment_eq_nil hopen)
  · exact h (lexeme_blockComment_eq_nil hopen)

/-- A comment is at least as long as its opening. -/
theorem two_le_length_comment (hp : p = lineComment ∨ p = blockComment)
    (h : p.lexeme cs ≠ []) : 2 ≤ (p.lexeme cs).length := by
  obtain ⟨rest, rfl⟩ := opening_of_lexeme_ne_nil hp h
  rcases hp with rfl | rfl
  · exact Nat.le_add_left 2 _
  · rw [opening, lexeme_blockComment] at h ⊢
    cases hclose : throughClose? rest with
    | none => exact absurd (by rw [hclose]; rfl) h
    | some body => exact Nat.le_add_left 2 _

/-- The two kinds of comments are told apart by their second character. -/
theorem outreaches_of_comments (hp : p = lineComment ∨ p = blockComment)
    (hq : q = lineComment ∨ q = blockComment) : Outreaches p q := by
  intro cs h
  by_cases hnone : q.lexeme cs = []
  · rw [hnone]
    exact Nat.zero_le _
  · have hlength : p.opening.length = q.opening.length := by
      rcases hp with rfl | rfl <;> rcases hq with rfl | rfl <;> rfl
    have hsame : p.opening = q.opening :=
      (List.prefix_of_prefix_length_le (opening_of_lexeme_ne_nil hp h)
        (opening_of_lexeme_ne_nil hq hnone) (Nat.le_of_eq hlength)).eq_of_length hlength
    rcases hp with rfl | rfl <;> rcases hq with rfl | rfl
    · exact Nat.le_refl _
    · exact absurd hsame (by decide)
    · exact absurd hsame (by decide)
    · exact Nat.le_refl _

/-- Where a comment can be cut, an operator is at most as long, and nothing else can be cut. -/
theorem outreaches_comment (hp : p = lineComment ∨ p = blockComment) (hq : q ∈ all) :
    Outreaches p q := by
  cases hsign : q.isSign with
  | false =>
    have hmem : p ∈ all := by rcases hp with rfl | rfl <;> decide
    have hsign' : p.isSign = true := by rcases hp with rfl | rfl <;> rfl
    exact outreaches_of_apart fun c hc => not_starts_of_mem hsign (mem_of_starts hmem hsign' hc)
  | true =>
    cases q with
    | blank | word | number => cases hsign
    | lineComment => exact outreaches_of_comments hp (.inl rfl)
    | blockComment => exact outreaches_of_comments hp (.inr rfl)
    | fixed k =>
      -- no operator is longer than the opening of the comment
      have hlengths : ∀ k ∈ fixedKinds, (spelled k).length ≤ 2 := by decide
      intro cs h
      refine Nat.le_trans ?_ (two_le_length_comment hp h)
      rw [lexeme_fixed]
      split
      · exact hlengths k (mem_fixedKinds hq)
      · exact Nat.zero_le _

/-- An operator does not stand before one that it is the beginning of. -/
theorem pairwise_outreaches_fixed :
    fixedKinds.Pairwise fun k k' => Outreaches (fixed k) (fixed k') := by
  have horder : fixedKinds.Pairwise fun k k' =>
      spelled k <+: spelled k' → (spelled k').length ≤ (spelled k).length := by decide
  refine horder.imp fun {k k'} h cs hk => ?_
  by_cases hk' : spelled k' <+: cs
  · have hfits : spelled k <+: cs := by
      by_contra hnot
      exact hk (lexeme_fixed_eq_nil hnot)
    rw [lexeme_fixed_of_le hfits, lexeme_fixed_of_le hk']
    -- both stand at the front, so the shorter one is the beginning of the longer one
    rcases Nat.le_total (spelled k').length (spelled k).length with hle | hle
    · exact hle
    · exact h (List.prefix_of_prefix_length_le hfits hk' hle)
  · rw [lexeme_fixed_eq_nil hk']
    exact Nat.zero_le _

/-- Where a class fits, none that is tried after it would cut more. -/
theorem pairwise_outreaches : all.Pairwise Outreaches := by
  have hopen : ∀ p ∈ [blank, lineComment, blockComment, word, number], ∀ q ∈ all,
      Outreaches p q := by
    intro p hp q hq
    simp only [List.mem_cons, List.not_mem_nil, or_false] at hp
    rcases hp with rfl | rfl | rfl | rfl | rfl
    · exact outreaches_of_isSign_eq_false rfl hq
    · exact outreaches_comment (.inl rfl) hq
    · exact outreaches_comment (.inr rfl) hq
    · exact outreaches_of_isSign_eq_false rfl hq
    · exact outreaches_of_isSign_eq_false rfl hq
  rw [all, List.pairwise_append, List.pairwise_map]
  refine ⟨List.pairwise_of_forall_mem_list fun p hp q hq => hopen p hp q ?_,
    pairwise_outreaches_fixed, fun p hp q hq => hopen p hp q ?_⟩
  · exact List.mem_append_left _ hq
  · exact List.mem_append_right _ hq

end Pattern

/-- Where some class fits, the first in the table that does is the one that is cut, and its match is
at least as long as that of every other class. -/
theorem firstMatch_longest {cs : List Char}
    (h : ∃ p ∈ Pattern.all, (p.regex.find? cs).isSome = true) :
    ∃ p text, Pattern.firstMatch cs = some (p, text) ∧
      Pattern.all.find? (fun q => (q.regex.find? cs).isSome) = some p ∧
      p.regex.find? cs = some text ∧ text ≠ [] ∧ text <+: cs ∧
      ∀ q ∈ Pattern.all, ∀ other, q.regex.find? cs = some other → other.length ≤ text.length := by
  cases hmatch : Pattern.firstMatch cs with
  | none =>
    obtain ⟨p, hp, hfits⟩ := h
    rw [Pattern.isSome_find?_regex hp] at hfits
    exact absurd (Pattern.firstMatch_eq_none_iff.mp hmatch p hp) hfits
  | some found =>
    obtain ⟨p, text⟩ := found
    obtain ⟨⟨before, after, hall, hbefore⟩, hlexeme, hne⟩ :=
      Pattern.firstMatch_eq_some_iff.mp hmatch
    have hp : p ∈ Pattern.all := by simp [hall]
    have hnone : ∀ q ∈ before, q.regex.find? cs = none := by
      intro q hq
      rw [Pattern.find?_regex (by simp [hall, hq]), if_pos (hbefore q hq)]
    refine ⟨p, text, rfl, ?_, (Pattern.find?_regex_eq_some_iff hp).mpr ⟨hlexeme, hne⟩, hne,
      hlexeme ▸ p.lexeme_append cs, fun q hq other hother => ?_⟩
    · rw [List.find?_eq_some_iff_append]
      refine ⟨(Pattern.isSome_find?_regex hp).mpr (hlexeme ▸ hne), before, after, hall, ?_⟩
      intro q hq
      rw [hnone q hq]
      rfl
    · obtain ⟨hother, _⟩ := (Pattern.find?_regex_eq_some_iff hq).mp hother
      have horder := Pattern.pairwise_outreaches
      rw [hall, List.pairwise_append, List.pairwise_cons] at horder
      rw [← hother, ← hlexeme]
      -- a class that fits is the first one, or is tried after it
      rw [hall, List.mem_append, List.mem_cons] at hq
      rcases hq with hq | rfl | hq
      · rw [hbefore q hq]
        exact Nat.zero_le _
      · exact Nat.le_refl _
      · exact horder.2.1.1 q hq cs (hlexeme ▸ hne)

/-- An assignment operator behind a comment that holds one. -/
def commented : List Char :=
  ['/', '*', '=', '*', '/', '=']

/-- Division fits as well, but the comment is tried first and is longer. -/
theorem firstMatch_longest_commented :
    (∃ p ∈ Pattern.all, (p.regex.find? commented).isSome = true) ∧
    ∃ p text, Pattern.firstMatch commented = some (p, text) ∧
      Pattern.all.find? (fun q => (q.regex.find? commented).isSome) = some p ∧
      p.regex.find? commented = some text ∧ text ≠ [] ∧ text <+: commented ∧
      ∀ q ∈ Pattern.all, ∀ other, q.regex.find? commented = some other →
        other.length ≤ text.length := by
  have h : ∃ p ∈ Pattern.all, (p.regex.find? commented).isSome = true :=
    ⟨.fixed .slash, by decide, by decide⟩
  exact ⟨h, firstMatch_longest h⟩

end Tercet
