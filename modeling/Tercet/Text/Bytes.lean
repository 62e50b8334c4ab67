/-!
# `Tercet.Text.Bytes`: texts addressed by byte

A text is a list of characters, and a byte offset into it counts the bytes of its UTF-8
form. Not every offset is a place between two characters, so dropping a number of bytes
may have no answer: `dropBytes` says when it has one.
-/

set_option autoImplicit false

namespace Tercet.Text

/-- The number of bytes of the UTF-8 form of a text. -/
def byteSize : List Char → Nat
  | [] => 0
  | c :: cs => c.utf8Size + byteSize cs

/-- What follows the first `n` bytes of a text. There is no answer when `n` falls inside a
character or beyond the end. -/
def dropBytes : Nat → List Char → Option (List Char)
  | 0, cs => some cs
  | _ + 1, [] => none
  | n + 1, c :: cs => if c.utf8Size ≤ n + 1 then dropBytes (n + 1 - c.utf8Size) cs else none
termination_by _ cs => cs.length

@[simp] theorem byteSize_cons (c : Char) (cs : List Char) :
    byteSize (c :: cs) = c.utf8Size + byteSize cs := rfl

@[simp] theorem byteSize_append (cs ds : List Char) :
    byteSize (cs ++ ds) = byteSize cs + byteSize ds := by
  induction cs with
  | nil => exact (Nat.zero_add _).symm
  | cons c cs ih => rw [List.cons_append, byteSize_cons, ih, byteSize_cons, Nat.add_assoc]

/-- Dropping the bytes of a leading part leaves the rest: the offsets that have an answer
are the ends of leading parts. -/
theorem dropBytes_append (cs ds : List Char) : dropBytes (byteSize cs) (cs ++ ds) = some ds := by
  induction cs with
  | nil => simp [byteSize, dropBytes]
  | cons c cs ih =>
    have hpos : 0 < c.utf8Size := Char.utf8Size_pos c
    obtain ⟨n, hn⟩ : ∃ n, byteSize (c :: cs) = n + 1 := ⟨byteSize (c :: cs) - 1, by simp; omega⟩
    have hle : c.utf8Size ≤ n + 1 := by simp at hn; omega
    have hrest : n + 1 - c.utf8Size = byteSize cs := by simp at hn; omega
    rw [hn, List.cons_append, dropBytes, if_pos hle, hrest, ih]

end Tercet.Text
