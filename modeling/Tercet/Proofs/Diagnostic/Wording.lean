import Tercet.Diagnostic.Wording

/-!
# `Tercet.Proofs.Diagnostic.Wording`: the short wording of a message

The wording is picked by the phrases that occur in a message, and a message quotes a text of
the source. Whether a phrase occurs is whether its characters stand in a row among those of
the message (`occurs_iff`). A phrase with a blank in it cannot come from a text without one,
so a quoted text without blanks never makes a missing semicolon look like a mismatch
(`classify_missing_semicolon`).
-/

set_option autoImplicit false

namespace Tercet

namespace Text

/-- What is looked for is found exactly if it stands somewhere in the row. -/
theorem isSome_after?_iff {part cs : List Char} :
    (after? part cs).isSome = true ↔ part <:+: cs := by
  induction cs with
  | nil => simp [after?]
  | cons c cs ih =>
      rw [after?, List.infix_cons_iff, ← List.isPrefixOf_iff_prefix]
      split
      · rename_i hstarts
        simp [hstarts]
      · rename_i hstarts
        rw [ih]
        simp [hstarts]

/-- So it is in a text. -/
theorem occurs_iff {part text : String} :
    occurs part text = true ↔ part.toList <:+: text.toList :=
  isSome_after?_iff

/-- A row of characters that ends with one that `after` lacks lies before `after`. -/
theorem infix_of_infix_append {row before after : List Char} {c : Char}
    (h : row ++ [c] <:+: before ++ after) (hc : c ∉ after) : row ++ [c] <:+: before := by
  obtain ⟨front, back, heq⟩ := h
  rcases List.append_eq_append_iff.mp heq with ⟨middle, hbefore, -⟩ | ⟨middle, hrow, hafter⟩
  · exact ⟨front, middle, hbefore.symm⟩
  · -- the row reaches into `after` only if its last character does
    rcases List.eq_nil_or_concat middle with rfl | ⟨middle, last, rfl⟩
    · exact ⟨front, [], by rw [hrow, List.append_nil, List.append_nil]⟩
    · rw [List.concat_eq_append, ← List.append_assoc, ← List.append_assoc] at hrow
      obtain rfl : c = last := List.singleton_inj.mp (List.append_inj' hrow rfl).2
      rw [hafter] at hc
      simp at hc

end Text

open Text

/-- The message about a missing token. -/
theorem Fault.message_missing (expected : Kind) (found : String) :
    (Fault.missing expected found).message
      = "missing " ++ expected.literal ++ " at '" ++ found ++ "'" := rfl

/-- A missing semicolon is worded as one, whatever text without a blank stands in its
place. -/
theorem classify_missing_semicolon {found : String} (hfound : ' ' ∉ found.toList) :
    classify (Fault.missing .semicolon found).message = "Falta un punto y coma (;)" := by
  -- all blanks of the message stand in its fixed front
  let phrase := "missing".toList ++ [' '] ++ "';'".toList ++ " at '".toList
  have hmessage : (Fault.missing .semicolon found).message.toList
      = phrase ++ (found.toList ++ "'".toList) := by
    have hliteral : Kind.semicolon.literal = "';'" := by decide
    have hword : "missing ".toList = "missing".toList ++ [' '] := by decide
    rw [Fault.message_missing, hliteral]
    simp only [String.toList_append, hword, phrase, List.append_assoc]
  have hmismatched :
      ¬ occurs "mismatched input" (Fault.missing .semicolon found).message = true := by
    rw [occurs_iff, hmessage]
    intro hinfix
    -- the other phrase would have its blank in the front, which does not hold its first word
    have hstart : "mismatched".toList ++ [' '] <:+: "mismatched input".toList := by decide
    have hafter : ' ' ∉ found.toList ++ "'".toList := by
      rw [List.mem_append]
      exact fun h => h.elim hfound (by decide)
    have hbefore := infix_of_infix_append (hstart.trans hinfix) hafter
    rw [← isSome_after?_iff] at hbefore
    exact absurd hbefore (by decide)
  have hmissing : occurs "missing" (Fault.missing .semicolon found).message = true := by
    rw [occurs_iff, hmessage]
    exact ⟨[], [' '] ++ "';'".toList ++ " at '".toList ++ (found.toList ++ "'".toList),
      by simp only [phrase, List.nil_append, List.append_assoc]⟩
  have hsemicolon : occurs "';'" (Fault.missing .semicolon found).message = true := by
    rw [occurs_iff, hmessage]
    exact ⟨"missing".toList ++ [' '], " at '".toList ++ (found.toList ++ "'".toList),
      by simp only [phrase, List.append_assoc]⟩
  rw [classify, if_neg hmismatched, if_pos hmissing, classifyMissing, if_pos hsemicolon]

end Tercet
