/-!
# `Tercet.Token.Kind`: the kinds of tokens

A kind says what a token is for the grammar. Most kinds have one fixed spelling; numbers and
identifiers have many, and the end of the input has none. Three texts belong to a kind: its
`name`, which token listings print, its `spelling`, which sources contain, and its `literal`,
which messages about the grammar quote.
-/

set_option autoImplicit false

namespace Tercet

/-- What a token is for the grammar. -/
inductive Kind where
  | eof | number | identifier
  | openBrace | closeBrace | openParen | closeParen
  | assign | equal | notEqual
  | less | lessEqual | greater | greaterEqual
  | semicolon | comma
  | increment | decrement
  | addAssign | subAssign | mulAssign | divAssign | modAssign
  | plus | minus | slash | star | percent
  | kwInt | kwDouble | kwVoid | kwIf | kwElse | kwWhile | kwFor | kwReturn
deriving DecidableEq, Repr

namespace Kind

/-- Every kind, in the order in which the grammar introduces them. -/
def all : List Kind :=
  [eof, number, identifier,
   openBrace, closeBrace, openParen, closeParen,
   assign, equal, notEqual,
   less, lessEqual, greater, greaterEqual,
   semicolon, comma,
   increment, decrement,
   addAssign, subAssign, mulAssign, divAssign, modAssign,
   plus, minus, slash, star, percent,
   kwInt, kwDouble, kwVoid, kwIf, kwElse, kwWhile, kwFor, kwReturn]

/-- No kind is missing from the list. -/
theorem mem_all (k : Kind) : k ∈ all := by
  cases k <;> decide

/-- The name of the kind in a token listing. -/
def name : Kind → String
  | eof => "EOF"
  | number => "Number"
  | identifier => "Identifier"
  | openBrace => "OpenCurly"
  | closeBrace => "CloseCurly"
  | openParen => "OpenParen"
  | closeParen => "CloseParen"
  | assign => "Assignment"
  | equal => "Equals"
  | notEqual => "NotEquals"
  | less => "Less"
  | lessEqual => "LessEquals"
  | greater => "Greater"
  | greaterEqual => "GreaterEquals"
  | semicolon => "Semicolon"
  | comma => "Comma"
  | increment => "PlusPlus"
  | decrement => "MinusMinus"
  | addAssign => "PlusEquals"
  | subAssign => "MinusEquals"
  | mulAssign => "StarEquals"
  | divAssign => "SlashEquals"
  | modAssign => "PercentEquals"
  | plus => "Plus"
  | minus => "Dash"
  | slash => "Slash"
  | star => "Star"
  | percent => "Percent"
  | kwInt => "Int"
  | kwDouble => "Double"
  | kwVoid => "Void"
  | kwIf => "If"
  | kwElse => "Else"
  | kwWhile => "While"
  | kwFor => "For"
  | kwReturn => "Return"

instance : ToString Kind := ⟨name⟩

/-- The kind with a given name in token listings. -/
def ofName? (s : String) : Option Kind :=
  all.find? fun k => k.name == s

/-- The one way to write a token of this kind in a source, where there is one. -/
def spelling? : Kind → Option String
  | eof | number | identifier => none
  | openBrace => "\x7b"
  | closeBrace => "\x7d"
  | openParen => "("
  | closeParen => ")"
  | assign => "="
  | equal => "=="
  | notEqual => "!="
  | less => "<"
  | lessEqual => "<="
  | greater => ">"
  | greaterEqual => ">="
  | semicolon => ";"
  | comma => ","
  | increment => "++"
  | decrement => "--"
  | addAssign => "+="
  | subAssign => "-="
  | mulAssign => "*="
  | divAssign => "/="
  | modAssign => "%="
  | plus => "+"
  | minus => "-"
  | slash => "/"
  | star => "*"
  | percent => "%"
  | kwInt => "int"
  | kwDouble => "double"
  | kwVoid => "void"
  | kwIf => "if"
  | kwElse => "else"
  | kwWhile => "while"
  | kwFor => "for"
  | kwReturn => "return"

/-- How a message about the grammar quotes the kind: the spelling between quotes, or a word
for the kinds without a spelling. -/
def literal (k : Kind) : String :=
  match k.spelling?, k with
  | some s, _ => "'" ++ s ++ "'"
  | none, number => "NUMERO"
  | none, identifier => "ID"
  | none, _ => "<EOF>"

/-- The kinds spelled like an identifier. No identifier has their spelling. -/
def keywords : List Kind :=
  [kwInt, kwDouble, kwVoid, kwIf, kwElse, kwWhile, kwFor, kwReturn]

/-- The kind of a word: its keyword, or an identifier. -/
def ofWord (word : String) : Kind :=
  (keywords.find? fun k => k.spelling? == some word).getD identifier

/-- Whether the kind names a data type. -/
def isType : Kind → Bool
  | kwInt | kwDouble | kwVoid => true
  | _ => false

end Kind

end Tercet
