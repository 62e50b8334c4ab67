import Tercet.Token.Kind

/-!
# `Tercet.Token.Basic`: tokens

A token is a kind, the text that it stands for and the line on which it starts. Lines are
counted from 1. A token need not come from a source: the grammar reads any list of tokens,
also one whose texts do not fit their kinds.
-/

set_option autoImplicit false

namespace Tercet

/-- A word of the source, as the grammar sees it. -/
structure Token where
  kind : Kind
  text : String
  line : Nat
deriving DecidableEq, Repr

namespace Token

/-- The text that stands for the end of the input. -/
def endText : String := "<EOF>"

/-- The token that closes an input whose last line is `line`. -/
def atEnd (line : Nat) : Token :=
  ⟨.eof, endText, line⟩

/-- The token as a listing shows it: its line and kind, and its text where the kind leaves
the text open. -/
def display (t : Token) : String :=
  let placed := toString t.line ++ ":" ++ t.kind.name
  match t.kind with
  | .identifier | .number => placed ++ " (" ++ t.text ++ ")"
  | _ => placed

instance : ToString Token := ⟨display⟩

end Token

end Tercet
