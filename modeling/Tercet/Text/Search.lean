/-!
# `Tercet.Text.Search`: finding a part of a text

`after? part cs` is what follows the first occurrence of `part` in `cs`. A part occurs in a
text when there is such a rest.
-/

set_option autoImplicit false

namespace Tercet.Text

/-- What follows the first occurrence of a part in a text. -/
def after? (part : List Char) : List Char → Option (List Char)
  | [] => if part.isEmpty then some [] else none
  | c :: cs =>
    if part.isPrefixOf (c :: cs) then some ((c :: cs).drop part.length) else after? part cs

/-- Whether the part occurs in the text. -/
def occurs (part text : String) : Bool :=
  (after? part.toList text.toList).isSome

end Tercet.Text
