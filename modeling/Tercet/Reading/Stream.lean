import Tercet.Token.Basic

/-!
# `Tercet.Reading.Stream`: tokens being read

A stream is a place in a row of tokens: those passed, the latest first, those ahead, and the
`eof` token that closes the row. Looking ahead past the row finds the closing token again
and again. The stream moves one token at a time, and never past a token of kind `eof`, also
where one stands amid the row. Moving leaves the row as it is (`tokens_advance`,
`tokens_synchronize`).
-/

set_option autoImplicit false

namespace Tercet

/-- A place in a row of tokens. -/
structure Stream where
  passed : List Token
  ahead : List Token
  last : Token
  last_kind : last.kind = .eof

namespace Stream

/-- The stream at the start of a row. A row that does not end with an `eof` token is closed
by one on the line of its last token, or on line 1 if it is empty. -/
def ofTokens (tokens : List Token) : Stream :=
  match tokens.getLast? with
  | none => ⟨[], [], Token.atEnd 1, rfl⟩
  | some t =>
    if heof : t.kind = .eof then ⟨[], tokens.dropLast, t, heof⟩
    else ⟨[], tokens, Token.atEnd t.line, rfl⟩

/-- The whole row, whatever the place in it. -/
def tokens (s : Stream) : List Token :=
  s.passed.reverse ++ s.ahead ++ [s.last]

/-- The token `n` places ahead. -/
def peek (s : Stream) (n : Nat) : Token :=
  s.ahead[n]?.getD s.last

/-- The token to be read next. -/
def current (s : Stream) : Token :=
  s.peek 0

/-- The kind of the token to be read next. -/
def kind (s : Stream) : Kind :=
  s.current.kind

/-- How many tokens have been passed. -/
def position (s : Stream) : Nat :=
  s.passed.length

/-- How many tokens are ahead, the closing one apart. -/
def remaining (s : Stream) : Nat :=
  s.ahead.length

/-- Whether the next token closes the row, or would. -/
def atEnd (s : Stream) : Bool :=
  s.kind == .eof

/-- The line of the token passed last; at the start, that of the next token. -/
def previousLine (s : Stream) : Nat :=
  match s.passed with
  | [] => s.current.line
  | t :: _ => t.line

/-- The stream after the next token. -/
def advance (s : Stream) : Stream :=
  match s.ahead with
  | [] => s
  | t :: ts =>
    if t.kind = .eof then s else { s with passed := t :: s.passed, ahead := ts }

/-- Passes tokens up to the end of a broken statement: through the next semicolon, or up to
a closing brace or the end. A closing brace is passed as well if nothing has been passed
since the stream stood at `start`, so that some token always is. -/
def skipTo (start : Nat) (passed : List Token) : List Token → List Token × List Token
  | [] => (passed, [])
  | t :: ts =>
    match t.kind with
    | .eof => (passed, t :: ts)
    | .semicolon => (t :: passed, ts)
    | .closeBrace => if passed.length = start then (t :: passed, ts) else (passed, t :: ts)
    | _ => skipTo start (t :: passed) ts

/-- The stream after the broken statement that began at position `start`. -/
def synchronize (s : Stream) (start : Nat) : Stream :=
  let (passed, ahead) := skipTo start s.passed s.ahead
  { s with passed := passed, ahead := ahead }

/-- Passing a token leaves the row as it is. -/
@[simp] theorem tokens_advance (s : Stream) : s.advance.tokens = s.tokens := by
  fun_cases advance s with
  | case3 t ts hahead _ => simp [tokens, hahead]
  | _ => rfl

/-- Tokens only move from ahead to passed. -/
theorem skipTo_append (start : Nat) (passed ahead : List Token) :
    (skipTo start passed ahead).1.reverse ++ (skipTo start passed ahead).2
      = passed.reverse ++ ahead := by
  fun_induction skipTo start passed ahead <;> simp_all

/-- Passing a broken statement leaves the row as it is. -/
@[simp] theorem tokens_synchronize (s : Stream) (start : Nat) :
    (s.synchronize start).tokens = s.tokens := by
  simp only [tokens, synchronize, skipTo_append]

end Stream

end Tercet
