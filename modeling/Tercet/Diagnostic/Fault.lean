import Tercet.Token.Kind

/-!
# `Tercet.Diagnostic.Fault`: why a text is refused

A fault is what stops the reading of a source at one place: a character that starts no
lexeme, or a token that the grammar does not allow where it stands. A `SyntaxError` is a
fault with its line. The wording of a fault is one function, `Fault.message`.
-/

set_option autoImplicit false

namespace Tercet

/-- What stops the reading of a source. -/
inductive Fault where
  /-- No lexeme starts with this character. -/
  | unrecognized (c : Char)
  /-- A closing or opening mark does not stand before the text `found`. -/
  | missing (expected : Kind) (found : String)
  /-- Something else should stand in place of the text `found`. -/
  | mismatched (found expecting : String)
  /-- No statement starts with the text `found`. -/
  | extraneous (found : String)
  /-- No rule of the grammar goes on with this input. -/
  | noViableAlternative (input : String)
deriving DecidableEq, Repr

namespace Fault

/-- The first tokens of statements, as a message lists them. -/
def statementStarts : String :=
  "\x7b'int', 'double', 'void', ID, 'if', 'while', 'for', 'return', '\x7b'\x7d"

/-- The first tokens of operands, as a message lists them. -/
def operandStarts : String :=
  "\x7bNUMERO, ID, '('\x7d"

/-- The data types, as a message lists them. -/
def typeNames : String :=
  "\x7b'int', 'double', 'void'\x7d"

/-- The wording of a fault. -/
def message : Fault → String
  | unrecognized c => "token recognition error at: '" ++ c.toString ++ "'"
  | missing expected found => "missing " ++ expected.literal ++ " at '" ++ found ++ "'"
  | mismatched found expecting => "mismatched input '" ++ found ++ "' expecting " ++ expecting
  | extraneous found => "extraneous input '" ++ found ++ "' expecting " ++ statementStarts
  | noViableAlternative input => "no viable alternative at input '" ++ input ++ "'"

end Fault

/-- A fault and the line on which it stands. -/
structure SyntaxError where
  fault : Fault
  line : Nat
deriving DecidableEq, Repr

namespace SyntaxError

/-- The wording of the fault. -/
def message (e : SyntaxError) : String :=
  e.fault.message

end SyntaxError

end Tercet
