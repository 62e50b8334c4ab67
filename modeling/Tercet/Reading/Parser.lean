import Tercet.Diagnostic.Log
import Tercet.Diagnostic.Wording
import Tercet.Reading.Form
import Tercet.Reading.Stream

/-!
# `Tercet.Reading.Parser`: the steps of reading

A parser is a stream of tokens, the table of statement forms and the log of what has been
reported. A reader is a step that either reads something or refuses with a syntax error; in
both cases it leaves the parser where it stopped. This module has the steps that every rule
of the grammar is made of, and the two rules about where statements end.
-/

set_option autoImplicit false

namespace Tercet

/-- A stream of tokens, with the table of forms and the log. -/
structure Parser extends Stream where
  forms : Forms
  log : Log

/-- A step of reading. -/
abbrev Reader := EStateM SyntaxError Parser

namespace Parser

/-- The parser at the start of a row of tokens. -/
def ofTokens (tokens : List Token) (forms : Forms) (log : Log) : Parser :=
  { Stream.ofTokens tokens with forms, log }

/-- The parser with one more diagnostic in its log. -/
def report (p : Parser) (d : Diagnostic) : Parser :=
  { p with log := p.log ++ [d] }

/-- A cause, found at the next token. -/
def diagnose (p : Parser) (cause : Cause) : Diagnostic :=
  ⟨cause, p.current.line⟩

/-- Something else should stand in place of the next token. -/
def mismatched (p : Parser) (expecting : String) : SyntaxError :=
  ⟨.mismatched p.current.text expecting, p.current.line⟩

/-- A token of a kind should stand in place of the next one. A mark that ends or encloses
something is missing; anything else does not match. -/
def missing (p : Parser) (expected : Kind) : SyntaxError :=
  match expected with
  | .semicolon | .openParen | .closeParen | .closeBrace =>
    ⟨.missing expected p.current.text, p.current.line⟩
  | _ => p.mismatched expected.literal

/-- Whether the statement before the next token has plainly ended: a block or the program
ends here, a statement starts here, or the next token stands on a later line. -/
def statementEnded (p : Parser) : Bool :=
  p.kind == .closeBrace || p.kind == .eof || (p.forms p.kind).isSome
    || decide (p.previousLine < p.current.line)

end Parser

namespace Reader

/-- The kind of the next token. -/
def kind : Reader Kind :=
  return (← get).kind

/-- The line of the next token. -/
def line : Reader Nat :=
  return (← get).current.line

/-- Passes the next token. -/
def advance {ε : Type} : EStateM ε Parser Token :=
  modifyGet fun p => (p.current, { p with toStream := p.toStream.advance })

/-- Refuses, for a reason found at the next token. -/
def refuse {α : Type} (fault : Parser → SyntaxError) : Reader α := do
  throw (fault (← get))

/-- Passes a token of a kind, or refuses with a given error. -/
def expectOr {ε : Type} (kind : Kind) (error : Parser → ε) : EStateM ε Parser Token := do
  let p ← get
  if p.kind = kind then advance else throw (error p)

/-- Passes a token of a kind. -/
def expect (kind : Kind) : Reader Token :=
  expectOr kind fun p => p.missing kind

/-- Reports a syntax error and goes on. -/
def report (e : SyntaxError) : Reader Unit :=
  modify fun p => p.report e.report

/-- Passes the semicolon that ends a statement. One that is missing is reported, and the
statement stands all the same if it has plainly ended. -/
def expectSemicolon : Reader Unit := do
  let p ← get
  if p.kind = .semicolon then
    let _ ← advance
  else if p.statementEnded then
    report (p.missing .semicolon)
  else
    throw (p.missing .semicolon)

/-- Passes the rest of a broken statement that began at position `start`. -/
def synchronize (start : Nat) : Reader Unit :=
  modify fun p => { p with toStream := p.toStream.synchronize start }

/-- More items, each after a comma, at most `room` of them. -/
def moreWithin {α : Type} (item : Reader α) : (room : Nat) → Reader (List α)
  | 0 => return []
  | room + 1 => do
    if (← kind) = .comma then
      let _ ← advance
      let first ← item
      let others ← moreWithin item room
      return first :: others
    else
      return []

/-- One or more items with commas between them. No more commas can follow than there are
tokens. -/
def separated {α : Type} (item : Reader α) : Reader (List α) := do
  let first ← item
  let others ← moreWithin item (← get).remaining
  return first :: others

end Reader

end Tercet
