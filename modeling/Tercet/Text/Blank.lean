/-!
# `Tercet.Text.Blank`: blank characters and trimming

A character is blank when it carries Unicode's `White_Space` property: 25 code points, in
ten runs. Core's `Char.isWhitespace` knows only four of them, so the property is a table
here. Blanks separate tokens, and they are what `trim` takes off both ends of a text.
-/

set_option autoImplicit false

namespace Tercet.Text

/-- The runs of code points that are blank, each with both ends included. -/
def blankRuns : List (Nat × Nat) :=
  [(0x09, 0x0D), (0x20, 0x20), (0x85, 0x85), (0xA0, 0xA0), (0x1680, 0x1680),
   (0x2000, 0x200A), (0x2028, 0x2029), (0x202F, 0x202F), (0x205F, 0x205F), (0x3000, 0x3000)]

/-- Whether a character separates tokens. -/
def isBlank (c : Char) : Bool :=
  blankRuns.any fun (lo, hi) => decide (lo ≤ c.toNat) && decide (c.toNat ≤ hi)

/-- The characters between the leading and the trailing blanks. -/
def trimChars (cs : List Char) : List Char :=
  ((cs.dropWhile isBlank).reverse.dropWhile isBlank).reverse

/-- The text without the blanks at either end. -/
def trim (s : String) : String :=
  String.ofList (trimChars s.toList)

/-- The table holds 25 code points. -/
example : (blankRuns.map fun (lo, hi) => hi + 1 - lo).sum = 25 := by decide

end Tercet.Text
