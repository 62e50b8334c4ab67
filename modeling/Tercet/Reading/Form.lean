import Tercet.Token.Kind

/-!
# `Tercet.Reading.Form`: how statements begin

The first token of a statement decides how it is read. `Forms` is that decision as a table
from kinds to forms. `Forms.standard` is the language's own table; a table can be extended
and changed entry by entry. A kind that has an entry also marks the place where a statement
before it must have ended.
-/

set_option autoImplicit false

namespace Tercet

/-- A way to read a statement. -/
inductive Form where
  /-- Variables, a function or a prototype: what starts with a type. -/
  | typed
  | assignment
  | branch
  | whileLoop
  | forLoop
  | block
  | result
  /-- Whatever the table says of the next token. -/
  | any
deriving DecidableEq, Repr

/-- Which form a kind begins. -/
abbrev Forms := Kind → Option Form

namespace Forms

/-- The table without entries. -/
def empty : Forms :=
  fun _ => none

/-- The table of the language. -/
def standard : Forms
  | .kwInt | .kwDouble | .kwVoid => some .typed
  | .identifier => some .assignment
  | .kwIf => some .branch
  | .kwWhile => some .whileLoop
  | .kwFor => some .forLoop
  | .openBrace => some .block
  | .kwReturn => some .result
  | _ => none

/-- The table with one entry set. -/
def register (forms : Forms) (kind : Kind) (form : Form) : Forms :=
  fun k => if k = kind then some form else forms k

/-- The table with all entries of the language set. -/
def withStandard (forms : Forms) : Forms :=
  fun k => (standard k).or (forms k)

/-- The number of entries. -/
def size (forms : Forms) : Nat :=
  Kind.all.countP fun k => (forms k).isSome

end Forms

end Tercet
