/-!
# `Tercet.Text.Lines`: the lines of a text

A newline ends a line. A text that ends with a newline has no further, empty line after it,
and the empty text has no line at all. Carriage returns at the end of a line are no part of
what is shown of it.
-/

set_option autoImplicit false

namespace Tercet.Text

/-- The lines of a text, without their newlines. -/
def lines : List Char → List (List Char)
  | [] => []
  | '\n' :: cs => [] :: lines cs
  | c :: cs =>
    match lines cs with
    | [] => [[c]]
    | line :: more => (c :: line) :: more

/-- The first newline ends the first line. -/
theorem lines_newline {cs : List Char} (h : '\n' ∉ cs) (ds : List Char) :
    lines (cs ++ '\n' :: ds) = cs :: lines ds := by
  induction cs with
  | nil => rfl
  | cons c cs ih =>
    have hc : c ≠ '\n' := by
      rintro rfl
      simp at h
    rw [List.cons_append, lines.eq_3 c _ hc, ih fun hmem => h (List.mem_cons_of_mem _ hmem)]

/-- A text without newlines is one line, unless it is empty. -/
theorem lines_of_not_mem {cs : List Char} (hne : cs ≠ []) (h : '\n' ∉ cs) : lines cs = [cs] := by
  induction cs with
  | nil => exact absurd rfl hne
  | cons c cs ih =>
    have hc : c ≠ '\n' := by
      rintro rfl
      simp at h
    rw [lines.eq_3 c _ hc]
    cases cs with
    | nil => rfl
    | cons d ds =>
      rw [ih (List.cons_ne_nil d ds) fun hmem => h (List.mem_cons_of_mem _ hmem)]

/-- A line without the carriage returns at its end. -/
def dropReturns (line : List Char) : List Char :=
  (line.reverse.dropWhile (· == '\r')).reverse

/-- The line of a text with a given number, counted from 1, as it is shown. -/
def lineAt? (source : String) (number : Nat) : Option String :=
  match number with
  | 0 => none
  | n + 1 => (lines source.toList)[n]?.map fun line => String.ofList (dropReturns line)

end Tercet.Text
