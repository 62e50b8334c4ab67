import Mathlib.Data.List.TakeWhile
import Tercet.Token.Basic
import Tercet.Token.Pattern

/-!
# `Tercet.Proofs.Token.Text`: texts that fit their kinds

A token of a source has a text that its kind admits: a word that is no keyword, a number, or
the one text of the kind. Tokens that come from elsewhere may have any text, so theorems
that depend on it ask for `Kind.admits`. The classes are those of the lexer, not new ones: a
name is a whole word lexeme and a number a whole number lexeme. The marks, operators and
keywords are a table of the language, `Kind.fixedTexts`, and the lexer's spellings agree with
it (`Kind.fixedText?_eq`).

Two facts are drawn from it. Names and numbers differ in their first character
(`admits_number_of_admits_identifier`), so an operand of an instruction says by its text which
of the two it is. And no admitted text holds a blank (`space_not_mem_of_admits`), so a text
that is quoted in a message cannot bring a phrase of several words into it.
-/

set_option autoImplicit false

namespace Tercet

namespace Kind

/-- The marks, operators and keywords of the language, each with the kind it stands for. -/
def fixedTexts : List (Kind × String) :=
  [(openBrace, "\x7b"), (closeBrace, "\x7d"), (openParen, "("), (closeParen, ")"),
   (semicolon, ";"), (comma, ","),
   (plus, "+"), (minus, "-"), (star, "*"), (slash, "/"), (percent, "%"),
   (less, "<"), (lessEqual, "<="), (greater, ">"), (greaterEqual, ">="),
   (equal, "=="), (notEqual, "!="),
   (assign, "="), (addAssign, "+="), (subAssign, "-="), (mulAssign, "*="), (divAssign, "/="),
   (modAssign, "%="), (increment, "++"), (decrement, "--"),
   (kwInt, "int"), (kwDouble, "double"), (kwVoid, "void"),
   (kwIf, "if"), (kwElse, "else"), (kwWhile, "while"), (kwFor, "for"), (kwReturn, "return")]

/-- The text of a kind that is written in one way only. -/
def fixedText? (k : Kind) : Option String :=
  fixedTexts.lookup k

/-- The lexer spells every kind as the table has it. -/
theorem fixedText?_eq (k : Kind) : k.fixedText? = k.spelling? := by
  cases k <;> rfl

end Kind

/-- Whether a token of the kind can have the text in a source. -/
def Kind.admits : Kind → String → Bool
  | .identifier, text =>
    text != "" && Pattern.word.lexeme text.toList == text.toList
      && Kind.ofWord text == .identifier
  | .number, text => text != "" && Pattern.number.lexeme text.toList == text.toList
  | .eof, text => text == Token.endText
  | kind, text => kind.fixedText? == some text

namespace Pattern

/-- A number starts with a digit. -/
theorem lexeme_number_of_not_isDigit {c : Char} {cs : List Char} (hc : c.isDigit = false) :
    number.lexeme (c :: cs) = [] := by
  simp [lexeme, hc]

/-- A letter or an underscore is no digit. -/
theorem not_isDigit_of_isWordStart {c : Char} (hc : isWordStart c = true) :
    c.isDigit = false := by
  rw [isWordStart, Bool.or_eq_true] at hc
  rcases hc with hc | hc
  · have hranges : c.isAlpha
        = (decide (c.val ≥ 65 ∧ c.val ≤ 90) || (c.val ≥ 97 && c.val ≤ 122)) := rfl
    have hdigits : c.isDigit = (c.val ≥ 48 && c.val ≤ 57) := rfl
    rw [hranges] at hc
    rw [hdigits]
    simp only [Bool.or_eq_true, Bool.and_eq_true, Bool.and_eq_false_iff, decide_eq_true_eq,
      decide_eq_false_iff_not, UInt32.le_iff_toNat_le, ge_iff_le] at hc ⊢
    simp at hc ⊢
    omega
  · rw [beq_iff_eq] at hc
    rw [hc]
    decide

/-- No character of a word is blank. -/
theorem space_not_mem_word {cs : List Char} (h : word.lexeme cs = cs) : ' ' ∉ cs := by
  cases cs with
  | nil => simp
  | cons c cs =>
      simp only [lexeme] at h
      split at h
      · rename_i hstart
        rw [List.cons.injEq] at h
        intro hmem
        rcases List.mem_cons.mp hmem with heq | hmem
        · rw [← heq] at hstart
          exact absurd hstart (by decide)
        · rw [← h.2] at hmem
          exact absurd (List.mem_takeWhile_imp hmem) (by decide)
      · cases h

/-- No character of a fraction is blank. -/
theorem space_not_mem_fraction (cs : List Char) : ' ' ∉ fraction cs := by
  fun_cases fraction cs with
  | case2 cs _ =>
    intro hmem
    rcases List.mem_cons.mp hmem with heq | hmem
    · exact absurd heq (by decide)
    · exact absurd (List.mem_takeWhile_imp hmem) (by decide)
  | _ => simp

/-- No character of a number is blank. -/
theorem space_not_mem_number {cs : List Char} (h : number.lexeme cs = cs) : ' ' ∉ cs := by
  rw [← h]
  simp only [lexeme]
  split
  · simp
  · rw [List.mem_append]
    rintro (hmem | hmem)
    · exact absurd (List.mem_takeWhile_imp hmem) (by decide)
    · exact space_not_mem_fraction _ hmem

end Pattern

namespace Kind

/-- A name is no number. -/
theorem admits_number_of_admits_identifier {text : String}
    (h : identifier.admits text = true) : number.admits text = false := by
  simp only [admits, Bool.and_eq_true, bne_iff_ne, ne_eq, beq_iff_eq] at h
  obtain ⟨⟨_, hword⟩, _⟩ := h
  have hnumber : Pattern.number.lexeme text.toList = [] := by
    cases hcs : text.toList with
    | nil => rfl
    | cons c cs =>
        rw [hcs] at hword
        simp only [Pattern.lexeme] at hword
        split at hword
        · rename_i hstart
          exact Pattern.lexeme_number_of_not_isDigit
            (Pattern.not_isDigit_of_isWordStart hstart)
        · cases hword
  simp [admits, hnumber]

/-- No admitted text holds a blank. -/
theorem space_not_mem_of_admits {k : Kind} {text : String} (h : k.admits text = true) :
    ' ' ∉ text.toList := by
  cases k with
  | identifier =>
    simp only [admits, Bool.and_eq_true, beq_iff_eq] at h
    exact Pattern.space_not_mem_word h.1.2
  | number =>
    simp only [admits, Bool.and_eq_true, beq_iff_eq] at h
    exact Pattern.space_not_mem_number h.2
  | eof =>
    simp only [admits, beq_iff_eq] at h
    rw [h]
    decide
  | _ =>
    -- every other kind has one text
    simp only [admits, fixedText?_eq, spelling?, beq_iff_eq, Option.some.injEq] at h
    rw [← h]
    decide

end Kind

end Tercet
