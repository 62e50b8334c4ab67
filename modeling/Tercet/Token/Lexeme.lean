import Tercet.Token.Basic
import Tercet.Token.Pattern
import Tercet.Diagnostic.Fault

/-!
# `Tercet.Token.Lexeme`: cutting a source into lexemes and tokens

`Lexeme.split` cuts a source from the front, one first match after the other, until nothing
is left or no class fits. Nothing of the source is lost: the lexemes and what is left over
make up the source again (`split_append`), and nothing that fits is left over
(`firstMatch_split`). The tokens are the lexemes that are neither blank
nor comment, with a closing token at the line that the last newline leads to.
-/

set_option autoImplicit false

namespace Tercet

/-- A piece of a source: the class that cut it, its text and the line on which it starts. -/
structure Lexeme where
  pattern : Pattern
  text : List Char
  line : Nat
deriving DecidableEq, Repr

namespace Lexeme

/-- The number of line ends in a text. -/
def newlines (cs : List Char) : Nat :=
  cs.count '\n'

/-- The lexemes at the front of a text that starts on `line`, and the text left over, which
is empty or starts with a character that starts no lexeme. -/
def split (line : Nat) (cs : List Char) : List Lexeme × List Char :=
  match _h : Pattern.firstMatch cs with
  | none => ([], cs)
  | some (pattern, text) =>
    let (more, left) := split (line + newlines text) (cs.drop text.length)
    (⟨pattern, text, line⟩ :: more, left)
termination_by cs.length
decreasing_by
  -- a match is not empty, so neither is the text, and less of it is left
  have hne := (Pattern.lexeme_of_firstMatch _h).2
  have htext : 0 < text.length := List.length_pos_iff.2 hne
  have hcs : cs ≠ [] := by
    rintro rfl
    simp [Pattern.firstMatch_nil] at _h
  have hlen : 0 < cs.length := List.length_pos_iff.2 hcs
  rw [List.length_drop]
  omega

/-- The lexemes and what is left over make up the text. -/
theorem split_append (line : Nat) (cs : List Char) :
    (split line cs).1.flatMap Lexeme.text ++ (split line cs).2 = cs := by
  fun_induction split line cs with
  | case1 => rfl
  | case2 line cs pattern text hmatch more left heq ih =>
    rw [heq] at ih
    rw [List.flatMap_cons, List.append_assoc, ih]
    exact Pattern.append_drop_of_firstMatch hmatch

/-- No class fits what is left over. -/
theorem firstMatch_split (line : Nat) (cs : List Char) :
    Pattern.firstMatch (split line cs).2 = none := by
  fun_induction split line cs with
  | case1 line cs hmatch => exact hmatch
  | case2 line cs pattern text hmatch more left heq ih =>
    rw [heq] at ih
    exact ih

/-- The token that a lexeme stands for. -/
def token? (l : Lexeme) : Option Token :=
  (l.pattern.kind? l.text).map fun kind => ⟨kind, String.ofList l.text, l.line⟩

/-- The line that follows a row of lexemes which starts on line 1. -/
def endLine (lexemes : List Lexeme) : Nat :=
  lexemes.foldl (fun line l => line + newlines l.text) 1

end Lexeme

namespace Token

/-- The tokens of a source, with the closing one; or the first character that starts no
lexeme. -/
def ofSource (source : String) : Except SyntaxError (List Token) :=
  match Lexeme.split 1 source.toList with
  | (lexemes, []) => .ok (lexemes.filterMap Lexeme.token? ++ [Token.atEnd (Lexeme.endLine lexemes)])
  | (lexemes, c :: _) => .error ⟨.unrecognized c, Lexeme.endLine lexemes⟩

end Token

end Tercet
