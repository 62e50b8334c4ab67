import Tercet.Text.Bytes

/-!
# `Tercet.Token.Cursor`: a place in a source

A cursor is a byte offset into a source, with the line it started from. Moving it is
unchecked, so it may come to stand inside a character or beyond the end, and then there is
no text to show.
-/

set_option autoImplicit false

namespace Tercet

/-- A byte offset into a source. -/
structure Cursor where
  source : List Char
  offset : Nat
  line : Nat
deriving DecidableEq, Repr

namespace Cursor

/-- The cursor at the front of a source. -/
def ofString (source : String) : Cursor :=
  ⟨source.toList, 0, 1⟩

/-- The cursor `n` bytes further on. -/
def advance (c : Cursor) (n : Nat) : Cursor :=
  { c with offset := c.offset + n }

/-- The text from the cursor on, where the cursor stands between characters. -/
def remainder? (c : Cursor) : Option (List Char) :=
  Text.dropBytes c.offset c.source

/-- The character at the cursor; the null character at the end of the source. -/
def current? (c : Cursor) : Option Char :=
  c.remainder?.map fun rest => rest.headD '\x00'

/-- Whether no byte of the source is left. -/
def atEnd (c : Cursor) : Bool :=
  decide (Text.byteSize c.source ≤ c.offset)

end Cursor

end Tercet
