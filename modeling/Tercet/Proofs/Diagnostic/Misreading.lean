import Tercet.Proofs.Diagnostic.Wording
import Tercet.Token.Basic

/-!
# `Tercet.Proofs.Diagnostic.Misreading`: faults that are reported as what they are not

The short wording of a fault is found by looking for phrases in its message, and the message
quotes a text of the source. So the quoted text may be taken for a part of the message. This
module says exactly when (`Fault.isMisread`) for the faults that can be found in a source
(`Fault.Ordinary`).

The texts of a source hold no quotes and no blanks. A phrase without quotes therefore lies in one
of the parts between the quotes of a message (`infix_append_cons_iff`), and in the quoted text
only if it is a single word. A quoted mark is a whole part between two quotes
(`quoted_infix_twiceQuoted_iff`): the mark that is missing, or the text that is found in its
place. The second is the trouble, where that mark is looked for first.
-/

set_option autoImplicit false

namespace Tercet

namespace Text

variable {row before after : List Char} {c : Char}

/-- A front without `c` ends before the first `c`. -/
theorem prefix_append_cons_iff (hc : c ∉ row) (before after : List Char) :
    row <+: before ++ c :: after ↔ row <+: before := by
  refine ⟨fun h => ?_, fun h => h.trans (List.prefix_append _ _)⟩
  induction before generalizing row with
  | nil =>
    cases row with
    | nil => exact List.prefix_refl _
    | cons d row =>
      -- the front would start with `c`
      obtain ⟨rfl, -⟩ := List.cons_prefix_cons.mp h
      exact absurd List.mem_cons_self hc
  | cons b before ih =>
    cases row with
    | nil => exact List.nil_prefix
    | cons d row =>
      obtain ⟨rfl, hmore⟩ := List.cons_prefix_cons.mp h
      exact List.cons_prefix_cons.mpr ⟨rfl, ih (fun hmem => hc (List.mem_cons_of_mem d hmem)) hmore⟩

/-- A row of characters without `c` lies on one side of it. -/
theorem infix_append_cons_iff (hc : c ∉ row) :
    row <:+: before ++ c :: after ↔ row <:+: before ∨ row <:+: after := by
  induction before with
  | nil =>
    have hfront : row <+: c :: after ↔ row <+: [] := prefix_append_cons_iff hc [] after
    rw [List.nil_append, List.infix_cons_iff, hfront, List.prefix_nil, List.infix_nil]
  | cons b before ih =>
    have hfront : row <+: b :: (before ++ c :: after) ↔ row <+: b :: before :=
      prefix_append_cons_iff hc (b :: before) after
    rw [List.cons_append, List.infix_cons_iff, List.infix_cons_iff, hfront, ih, or_assoc]

/-- The mark around what a message quotes. -/
def quote : Char := '\x27'

/-- A character between quotes. -/
def quoted (c : Char) : List Char :=
  [quote, c, quote]

/-- A quoted character stands at the front of what follows a quote, or further back. -/
theorem quoted_infix_iff (hbefore : quote ∉ before) :
    quoted c <:+: before ++ quote :: after ↔ [c, quote] <+: after ∨ quoted c <:+: after := by
  induction before with
  | nil =>
    rw [List.nil_append, List.infix_cons_iff, quoted, List.cons_prefix_cons, eq_self, true_and]
  | cons b before ih =>
    rw [List.cons_append, List.infix_cons_iff, ih fun hmem => hbefore (List.mem_cons_of_mem b hmem),
      or_iff_right]
    rintro hfront
    obtain ⟨rfl, -⟩ := List.cons_prefix_cons.mp hfront
    exact hbefore List.mem_cons_self

/-- What is quoted at the front is the character alone. -/
theorem front_quoted_iff (hbefore : quote ∉ before) (hc : c ≠ quote) :
    [c, quote] <+: before ++ quote :: after ↔ before = [c] := by
  match before with
  | [] => simp [hc]
  | [b] => simp [eq_comm]
  | b :: d :: before =>
    have hd : quote ≠ d := fun h => hbefore (by simp [h])
    simp [hd]

section Parts

variable {part₀ part₁ part₂ part₃ : List Char}

/-- A text with two quoted parts. -/
def twiceQuoted (part₀ part₁ part₂ part₃ : List Char) : List Char :=
  part₀ ++ quote :: (part₁ ++ quote :: (part₂ ++ quote :: (part₃ ++ quote :: [])))

/-- A phrase without quotes lies in one of the parts. -/
theorem infix_twiceQuoted_iff (hrow : quote ∉ row) :
    row <:+: twiceQuoted part₀ part₁ part₂ part₃ ↔
      row <:+: part₀ ∨ row <:+: part₁ ∨ row <:+: part₂ ∨ row <:+: part₃ := by
  rw [twiceQuoted, infix_append_cons_iff hrow, infix_append_cons_iff hrow,
    infix_append_cons_iff hrow, infix_append_cons_iff hrow, List.infix_nil]
  refine or_congr_right (or_congr_right (or_congr_right (or_iff_left_of_imp ?_)))
  rintro rfl
  exact List.nil_infix

/-- A quoted character is one of the parts between quotes. -/
theorem quoted_infix_twiceQuoted_iff (hc : c ≠ quote) (h₀ : quote ∉ part₀) (h₁ : quote ∉ part₁)
    (h₂ : quote ∉ part₂) (h₃ : quote ∉ part₃) :
    quoted c <:+: twiceQuoted part₀ part₁ part₂ part₃ ↔
      part₁ = [c] ∨ part₂ = [c] ∨ part₃ = [c] := by
  have hnil : ¬ ([c, quote] <+: [] ∨ quoted c <:+: []) := by simp [quoted]
  rw [twiceQuoted, quoted_infix_iff h₀, front_quoted_iff h₁ hc, quoted_infix_iff h₁,
    front_quoted_iff h₂ hc, quoted_infix_iff h₂, front_quoted_iff h₃ hc, quoted_infix_iff h₃,
    or_iff_left hnil]

end Parts

/-- The text can stand between quotes, and no phrase of several words can come from it. -/
structure Plain (text : String) : Prop where
  quote : quote ∉ text.toList
  space : ' ' ∉ text.toList

end Text

open Text

namespace Fault

/-! ### What should be said -/

/-- The short wording of a fault of the grammar. It goes by the shape of the fault and by what is
expected, not by the text of the source that is quoted. -/
def wording : Fault → String
  | .missing .semicolon _ => "Falta un punto y coma (;)"
  | .missing .openParen _ => "Falta un paréntesis de apertura '('"
  | .missing .closeParen _ => "Falta un paréntesis de cierre ')'"
  -- a brace is missing only at the end of the input
  | .missing _ _ => "Falta: '\x7d' at '<EOF>'"
  | .mismatched _ _ => "Token inesperado o falta de un símbolo esperado"
  | .extraneous _ => "Símbolo adicional no esperado"
  | .noViableAlternative _ => "Sintaxis incorrecta"
  | .unrecognized c => message (.unrecognized c)

/-- Whether the text of the source that the message quotes is taken for a part of the message: a
mark whose absence has a wording that is tried before, or the word for what is absent. -/
def isMisread : Fault → Bool
  | .missing .openParen found => found == ";"
  | .missing .closeParen found => found == ";" || found == "("
  | .noViableAlternative input => occurs "missing" input
  | _ => false

/-- What is reported of a fault that is misread: that the mark is missing which has been found, or
that whatever follows the word in the source is missing. -/
inductive Misreads : Fault → String → Prop
  | mark {k k' : Kind} {found : String} (h : k'.spelling? = some found) :
      Misreads (.missing k found) (wording (.missing k' found))
  | word {input : String} (rest : String) :
      Misreads (.noViableAlternative input) ("Falta: " ++ rest)

/-- The fault is one of the grammar, and what it quotes is what a source can hold. -/
inductive Ordinary : Fault → Prop
  | mark {k : Kind} {found : String} (hk : k = .semicolon ∨ k = .openParen ∨ k = .closeParen)
      (hfound : Plain found) : Ordinary (.missing k found)
  | brace : Ordinary (.missing .closeBrace Token.endText)
  | mismatched (found expecting : String) : Ordinary (.mismatched found expecting)
  | extraneous {found : String} (hfound : Plain found) (hword : occurs "missing" found = false) :
      Ordinary (.extraneous found)
  | noViableAlternative {input : String} (hinput : Plain input) :
      Ordinary (.noViableAlternative input)

/-! ### The characters of a message -/

/-- The message about a missing mark quotes the mark and what is found. -/
theorem toList_missing {k : Kind} {c : Char} (hk : k.literal.toList = quoted c) (found : String) :
    (Fault.missing k found).message.toList
      = twiceQuoted "missing ".toList [c] " at ".toList found.toList := by
  have hat : " at '".toList = " at ".toList ++ [quote] := by simp [quote]
  have hend : "'".toList = [quote] := by simp [quote]
  rw [message_missing, String.toList_append, String.toList_append, String.toList_append,
    String.toList_append, hk, hat, hend]
  simp only [twiceQuoted, quoted, List.append_assoc, List.cons_append, List.nil_append]

/-- The message about a refused continuation quotes what has been read. -/
theorem toList_noViableAlternative (input : String) :
    (Fault.noViableAlternative input).message.toList
      = "no viable alternative at input ".toList ++ quote :: (input.toList ++ quote :: []) := by
  have hfront : "no viable alternative at input '".toList
      = "no viable alternative at input ".toList ++ [quote] := by simp [quote]
  have hend : "'".toList = [quote] := by simp [quote]
  show ("no viable alternative at input '" ++ input ++ "'").toList = _
  rw [String.toList_append, String.toList_append, hfront, hend]
  simp only [List.append_assoc, List.cons_append, List.nil_append]

/-- The message about an extra token quotes it, and then lists what may start a statement. -/
theorem toList_extraneous (found : String) :
    (Fault.extraneous found).message.toList
      = "extraneous input ".toList ++ quote :: (found.toList
          ++ quote :: (" expecting " ++ statementStarts).toList) := by
  have hfront : "extraneous input '".toList = "extraneous input ".toList ++ [quote] := by
    simp [quote]
  have hmiddle : "' expecting ".toList = quote :: " expecting ".toList := by simp [quote]
  show ("extraneous input '" ++ found ++ "' expecting " ++ statementStarts).toList = _
  rw [String.toList_append, String.toList_append, String.toList_append, String.toList_append,
    hfront, hmiddle]
  simp only [List.append_assoc, List.cons_append, List.nil_append]

/-! ### What is said -/

/-- A phrase lies in no part that lacks one of its characters. -/
theorem not_infix_of_not_mem {phrase part : List Char} {c : Char} (hphrase : c ∈ phrase)
    (hpart : c ∉ part) : ¬ phrase <:+: part :=
  fun h => hpart (h.subset hphrase)

section Missing

variable {k : Kind} {c : Char} {found : String} (hk : k.literal.toList = quoted c)
  (hfound : Plain found)

include hk hfound

/-- A missing mark is told from the rest by the word for it. -/
theorem classify_missing (hc : c ≠ ' ') :
    classify (Fault.missing k found).message = classifyMissing (Fault.missing k found).message := by
  have hmismatched : ¬ occurs "mismatched input" (Fault.missing k found).message = true := by
    have hspace : ' ' ∈ "mismatched input".toList := by simp
    have hletter : 'd' ∈ "mismatched input".toList := by simp
    rw [occurs_iff, toList_missing hk, infix_twiceQuoted_iff (by simp [quote])]
    -- the phrase has a blank, and the parts with blanks lack its last letter
    rintro (h | h | h | h)
    · exact not_infix_of_not_mem hletter (by simp) h
    · exact not_infix_of_not_mem hspace (by simpa using hc.symm) h
    · exact not_infix_of_not_mem hletter (by simp) h
    · exact not_infix_of_not_mem hspace hfound.space h
  have hmissing : occurs "missing" (Fault.missing k found).message = true := by
    have hword : "missing".toList <:+: "missing ".toList := ⟨[], [' '], by simp⟩
    rw [occurs_iff, toList_missing hk, infix_twiceQuoted_iff (by simp [quote])]
    exact .inl hword
  rw [classify, if_neg hmismatched, if_pos hmissing]

/-- A mark between quotes is the one that is missing, or the text that is found. -/
theorem occurs_mark_iff {phrase mark : String} {m : Char} (hphrase : phrase.toList = quoted m)
    (hmark : mark.toList = [m]) (hc : quote ≠ c) (hm : m ≠ quote) :
    occurs phrase (Fault.missing k found).message = true ↔ c = m ∨ found = mark := by
  have hparts : " at ".toList ≠ [m] := by
    intro h
    have hlength : " at ".toList.length = 1 := congrArg List.length h
    exact absurd hlength (by simp)
  rw [occurs_iff, hphrase, toList_missing hk, quoted_infix_twiceQuoted_iff hm (by simp [quote])
    (by simpa using hc) (by simp [quote]) hfound.quote, or_iff_right hparts, List.singleton_inj,
    ← hmark, String.toList_inj]

/-- Of the marks that have a wording, the first one that is missing or found decides. -/
theorem classifyMissing_eq (hc : quote ≠ c) :
    classifyMissing (Fault.missing k found).message =
      if c = ';' ∨ found = ";" then "Falta un punto y coma (;)"
      else if c = '(' ∨ found = "(" then "Falta un paréntesis de apertura '('"
      else if c = ')' ∨ found = ")" then "Falta un paréntesis de cierre ')'"
      else
        let rest :=
          (after? "missing".toList (Fault.missing k found).message.toList).getD []
        "Falta: " ++ String.ofList (trimChars rest) := by
  have hsemicolon : occurs "';'" (Fault.missing k found).message = true ↔ c = ';' ∨ found = ";" :=
    occurs_mark_iff hk hfound (by decide) (by decide) hc (by decide)
  have hopen : occurs "'('" (Fault.missing k found).message = true ↔ c = '(' ∨ found = "(" :=
    occurs_mark_iff hk hfound (by decide) (by decide) hc (by decide)
  have hclose : occurs "')'" (Fault.missing k found).message = true ↔ c = ')' ∨ found = ")" :=
    occurs_mark_iff hk hfound (by decide) (by decide) hc (by decide)
  simp only [classifyMissing, hsemicolon, hopen, hclose]

end Missing

/-- A message about a mismatch starts with the phrase that is looked for first, so nothing else
counts. -/
theorem classify_mismatched (found expecting : String) :
    classify (Fault.mismatched found expecting).message
      = "Token inesperado o falta de un símbolo esperado" := by
  have hoccurs : occurs "mismatched input" (Fault.mismatched found expecting).message = true := by
    have hfront : "mismatched input '".toList = "mismatched input".toList ++ " '".toList := by
      simp
    rw [occurs_iff]
    show _ <:+: ("mismatched input '" ++ found ++ "' expecting " ++ expecting).toList
    rw [String.toList_append, String.toList_append, String.toList_append, hfront,
      List.append_assoc, List.append_assoc, List.append_assoc]
    exact (List.prefix_append _ _).isInfix
  rw [classify, if_pos hoccurs]

/-- A phrase without quotes in a message with one quoted text. -/
theorem occurs_iff_of_quoting {message phrase text : String} {front back : List Char}
    (hmessage : message.toList = front ++ quote :: (text.toList ++ quote :: back))
    (hphrase : quote ∉ phrase.toList) :
    occurs phrase message = true ↔ (after? phrase.toList front).isSome = true ∨
      occurs phrase text = true ∨ (after? phrase.toList back).isSome = true := by
  rw [occurs_iff, hmessage, infix_append_cons_iff hphrase, infix_append_cons_iff hphrase,
    occurs_iff, isSome_after?_iff, isSome_after?_iff]

/-- So the phrase does not occur if none of the three parts has it. -/
theorem not_occurs_of_quoting {message phrase text : String} {front back : List Char}
    (hmessage : message.toList = front ++ quote :: (text.toList ++ quote :: back))
    (hphrase : quote ∉ phrase.toList) (hfront : ¬ (after? phrase.toList front).isSome = true)
    (htext : ¬ occurs phrase text = true) (hback : ¬ (after? phrase.toList back).isSome = true) :
    ¬ occurs phrase message = true := by
  rw [occurs_iff_of_quoting hmessage hphrase]
  rintro (h | h | h)
  · exact hfront h
  · exact htext h
  · exact hback h

/-- A phrase of several words does not occur in a plain text. -/
theorem not_occurs_of_space {phrase text : String} (hphrase : ' ' ∈ phrase.toList)
    (htext : Plain text) : ¬ occurs phrase text = true := by
  rw [occurs_iff]
  exact not_infix_of_not_mem hphrase htext.space

/-- An extra token is worded as such, if the word for what is absent is no part of it. -/
theorem classify_extraneous {found : String} (hfound : Plain found)
    (hword : ¬ occurs "missing" found = true) :
    classify (Fault.extraneous found).message = "Símbolo adicional no esperado" := by
  have hmessage := toList_extraneous found
  have hmismatched : ¬ occurs "mismatched input" (Fault.extraneous found).message = true := by
    exact not_occurs_of_quoting hmessage (by simp [quote]) (by decide)
      (not_occurs_of_space (by decide) hfound) (by decide)
  have hmissing : ¬ occurs "missing" (Fault.extraneous found).message = true := by
    exact not_occurs_of_quoting hmessage (by simp [quote]) (by decide)
      hword (by decide)
  have hextraneous : occurs "extraneous input" (Fault.extraneous found).message = true := by
    rw [occurs_iff_of_quoting hmessage (by simp [quote])]
    exact .inl (by decide)
  rw [classify, if_neg hmismatched, if_neg hmissing, if_pos hextraneous]

/-- A refused continuation is worded as such, unless the word for what is absent stands in what
has been read. -/
theorem classify_noViableAlternative {input : String} (hinput : Plain input) :
    classify (Fault.noViableAlternative input).message =
      if occurs "missing" input then classifyMissing (Fault.noViableAlternative input).message
      else "Sintaxis incorrecta" := by
  have hmessage := toList_noViableAlternative input
  -- a phrase with a blank does not come from the input, but the single word may
  have hmismatched :
      ¬ occurs "mismatched input" (Fault.noViableAlternative input).message = true := by
    exact not_occurs_of_quoting hmessage (by simp [quote]) (by decide)
      (not_occurs_of_space (by decide) hinput) (by decide)
  have hmissing : occurs "missing" (Fault.noViableAlternative input).message = true ↔
      occurs "missing" input = true := by
    rw [occurs_iff_of_quoting hmessage (by simp [quote]),
      or_iff_right_of_imp fun h => absurd h (by decide),
      or_iff_left_of_imp fun h => absurd h (by decide)]
  have hextraneous :
      ¬ occurs "extraneous input" (Fault.noViableAlternative input).message = true := by
    exact not_occurs_of_quoting hmessage (by simp [quote]) (by decide)
      (not_occurs_of_space (by decide) hinput) (by decide)
  have hviable :
      occurs "no viable alternative" (Fault.noViableAlternative input).message = true := by
    rw [occurs_iff_of_quoting hmessage (by simp [quote])]
    exact .inl (by decide)
  rw [classify, if_neg hmismatched]
  simp only [hmissing, hextraneous, hviable, if_true]
  rfl

/-- The word that is misread is no mark, so what follows it is reported. -/
theorem classifyMissing_noViableAlternative {input : String} (hinput : Plain input)
    (hword : occurs "missing" input = true) :
    ∃ rest, classifyMissing (Fault.noViableAlternative input).message = "Falta: " ++ rest := by
  have hmark (phrase : String) (m : Char) (hphrase : phrase.toList = quoted m) (hm : m ≠ quote) :
      ¬ occurs phrase (Fault.noViableAlternative input).message = true := by
    rw [occurs_iff, hphrase, toList_noViableAlternative, quoted_infix_iff (by simp [quote]),
      front_quoted_iff hinput.quote hm, quoted_infix_iff hinput.quote]
    rintro (h | h | h)
    -- the quoted text is longer than one character
    · rw [occurs_iff, h] at hword
      have hlength : "missing".toList.length ≤ 1 := hword.length_le
      exact absurd hlength (by simp)
    · exact absurd h (by simp)
    · exact absurd h (by simp [quoted])
  rw [classifyMissing, if_neg (hmark _ ';' (by decide) (by decide)),
    if_neg (hmark _ '(' (by decide) (by decide)),
    if_neg (hmark _ ')' (by decide) (by decide))]
  exact ⟨_, rfl⟩

/-- What is reported of a fault: what it is, or, where it is misread, something else. -/
def Reported (fault : Fault) : Prop :=
  (fault.isMisread = false → classify fault.message = fault.wording) ∧
  (fault.isMisread = true → classify fault.message ≠ fault.wording ∧
    fault.Misreads (classify fault.message))

/-- A fault that is not misread is reported if it is worded as what it is. -/
theorem reported_of_eq {fault : Fault} (hright : fault.isMisread = false)
    (h : classify fault.message = fault.wording) : fault.Reported :=
  ⟨fun _ => h, fun hmisread => absurd hmisread (by simp [hright])⟩

/-- A fault that is misread is reported if it is worded as something else, of the kind that is
said. -/
theorem reported_of_ne {fault : Fault} {text : String} (hmisread : fault.isMisread = true)
    (h : classify fault.message = text) (hne : text ≠ fault.wording)
    (htext : fault.Misreads text) : fault.Reported :=
  ⟨fun hright => absurd hright (by simp [hmisread]), fun _ => by rw [h]; exact ⟨hne, htext⟩⟩

/-- A refused continuation is misread if the word for what is absent stands in what has been
read. -/
theorem reported_noViableAlternative {input : String} (hinput : Plain input) :
    (Fault.noViableAlternative input).Reported := by
  by_cases hword : occurs "missing" input = true
  · obtain ⟨rest, hrest⟩ := classifyMissing_noViableAlternative hinput hword
    refine reported_of_ne hword (by rw [classify_noViableAlternative hinput, if_pos hword, hrest])
      ?_ (.word rest)
    -- the two texts start with different characters
    intro heq
    have hfront : "Falta: ".toList = 'F' :: "alta: ".toList := by simp
    have hother : "Sintaxis incorrecta".toList = 'S' :: "intaxis incorrecta".toList := by
      simp
    have hchars := congrArg String.toList heq
    rw [String.toList_append, hfront, wording, hother] at hchars
    exact absurd (List.cons.inj hchars).1 (by decide)
  · refine reported_of_eq (by simpa [isMisread] using hword) ?_
    rw [classify_noViableAlternative hinput, if_neg hword]
    rfl

/-- A missing parenthesis is taken for the mark that is found in its place, if that mark is looked
for first. -/
theorem reported_missing {k : Kind} {found : String} (hfound : Plain found)
    (hk : k = .semicolon ∨ k = .openParen ∨ k = .closeParen) :
    (Fault.missing k found).Reported := by
  obtain rfl | rfl | rfl := hk
  -- the semicolon is looked for first of all, so it is never misread
  · have hk : Kind.semicolon.literal.toList = quoted ';' := by decide
    refine reported_of_eq rfl ?_
    rw [classify_missing hk hfound (by decide), classifyMissing_eq hk hfound (by decide)]
    rfl
  · have hk : Kind.openParen.literal.toList = quoted '(' := by decide
    have htext := (classify_missing hk hfound (by decide)).trans
      (classifyMissing_eq hk hfound (by decide))
    by_cases hsemicolon : found = ";"
    · subst hsemicolon
      exact reported_of_ne rfl htext (by decide) (@Misreads.mark _ .semicolon _ rfl)
    · refine reported_of_eq (by simp [isMisread, hsemicolon]) (htext.trans ?_)
      rw [if_neg (by simp [hsemicolon]), if_pos (.inl rfl)]
      rfl
  · have hk : Kind.closeParen.literal.toList = quoted ')' := by decide
    have htext := (classify_missing hk hfound (by decide)).trans
      (classifyMissing_eq hk hfound (by decide))
    by_cases hsemicolon : found = ";"
    · subst hsemicolon
      exact reported_of_ne rfl htext (by decide) (@Misreads.mark _ .semicolon _ rfl)
    · by_cases hopen : found = "("
      · subst hopen
        exact reported_of_ne rfl htext (by decide) (@Misreads.mark _ .openParen _ rfl)
      · refine reported_of_eq (by simp [isMisread, hsemicolon, hopen]) (htext.trans ?_)
        rw [if_neg (by simp [hsemicolon]), if_neg (by simp [hopen]), if_pos (.inl rfl)]
        rfl

/-- Every ordinary fault is reported, by its kind. -/
theorem Ordinary.reported {fault : Fault} (h : fault.Ordinary) : fault.Reported := by
  cases h with
  | mark hk hfound => exact reported_missing hfound hk
  | brace => exact reported_of_eq rfl (by decide)
  | mismatched found expecting => exact reported_of_eq rfl (classify_mismatched found expecting)
  | extraneous hfound hword =>
    exact reported_of_eq rfl (classify_extraneous hfound (by simp [hword]))
  | noViableAlternative hinput => exact reported_noViableAlternative hinput

end Fault

end Tercet
