import Tercet.Text.Blank
import Tercet.Token.Kind

/-!
# `Tercet.Token.Pattern`: the lexical classes

A pattern is a class of lexemes. `Pattern.lexeme p cs` is the lexeme of class `p` at the
front of `cs`, and the empty text where there is none: no class holds the empty text. The
classes overlap (`//` starts a comment and is also two signs of division), so they stand in
a fixed order, `Pattern.all`, and `firstMatch` takes the first class that fits. An opened
comment that is never closed is no comment: its two characters are operators.
-/

set_option autoImplicit false

namespace Tercet

/-- A class of lexemes. -/
inductive Pattern where
  /-- A run of blank characters. -/
  | blank
  /-- From two slashes to the end of the line. -/
  | lineComment
  /-- From a slash and a star to the nearest star and slash. -/
  | blockComment
  /-- A letter or an underscore, then letters, digits and underscores. -/
  | word
  /-- Digits, then perhaps a point and digits. -/
  | number
  /-- The spelling of one kind. -/
  | fixed (kind : Kind)
deriving DecidableEq, Repr

namespace Pattern

/-- Whether a word may start with the character. -/
def isWordStart (c : Char) : Bool :=
  c.isAlpha || c == '_'

/-- Whether a word may go on with the character. -/
def isWordRest (c : Char) : Bool :=
  c.isAlphanum || c == '_'

/-- The text through the nearest star and slash. -/
def throughClose? : List Char → Option (List Char)
  | '*' :: '/' :: _ => some ['*', '/']
  | c :: cs => (throughClose? cs).map (c :: ·)
  | [] => none

/-- The point and the digits after it, at the front of a text. -/
def fraction : List Char → List Char
  | '.' :: cs =>
    match cs.takeWhile Char.isDigit with
    | [] => []
    | digits => '.' :: digits
  | _ => []

/-- The lexeme of the class at the front of a text; empty where there is none. -/
def lexeme : Pattern → List Char → List Char
  | blank, cs => cs.takeWhile Text.isBlank
  | lineComment, '/' :: '/' :: cs => '/' :: '/' :: cs.takeWhile (· != '\n')
  | lineComment, _ => []
  | blockComment, '/' :: '*' :: cs =>
    match throughClose? cs with
    | some body => '/' :: '*' :: body
    | none => []
  | blockComment, _ => []
  | word, c :: cs => if isWordStart c then c :: cs.takeWhile isWordRest else []
  | word, [] => []
  | number, cs =>
    match cs.takeWhile Char.isDigit with
    | [] => []
    | digits => digits ++ fraction (cs.dropWhile Char.isDigit)
  | fixed kind, cs =>
    let spelling := (kind.spelling?.getD "").toList
    if spelling.isPrefixOf cs then spelling else []

/-- The kinds that are found by their spelling alone. A spelling stands before its own
beginnings. -/
def fixedKinds : List Kind :=
  [.openBrace, .closeBrace, .openParen, .closeParen,
   .equal, .notEqual, .lessEqual, .greaterEqual,
   .increment, .decrement, .addAssign, .subAssign, .mulAssign, .divAssign, .modAssign,
   .assign, .less, .greater, .semicolon, .comma,
   .plus, .minus, .slash, .star, .percent]

/-- The classes in the order in which they are tried. -/
def all : List Pattern :=
  [blank, lineComment, blockComment, word, number] ++ fixedKinds.map fixed

/-- The first class that fits the front of a text, with its lexeme. -/
def firstMatch (cs : List Char) : Option (Pattern × List Char) :=
  all.findSome? fun p =>
    match p.lexeme cs with
    | [] => none
    | text => some (p, text)

/-- The kind of the token that a lexeme stands for. Blanks and comments stand for none. -/
def kind? : Pattern → List Char → Option Kind
  | blank, _ | lineComment, _ | blockComment, _ => none
  | word, text => some (Kind.ofWord (String.ofList text))
  | number, _ => some .number
  | fixed kind, _ => some kind

/-- A match is the lexeme of its class, and it is not empty. -/
theorem lexeme_of_firstMatch {cs text : List Char} {p : Pattern}
    (h : firstMatch cs = some (p, text)) : p.lexeme cs = text ∧ text ≠ [] := by
  obtain ⟨q, _, hq⟩ := List.exists_of_findSome?_eq_some h
  split at hq
  · simp at hq
  · next hne =>
    simp only [Option.some.injEq, Prod.mk.injEq] at hq
    obtain ⟨rfl, rfl⟩ := hq
    exact ⟨rfl, hne⟩

/-- What is found through the nearest star and slash stands at the front of the text. -/
theorem throughClose?_append {cs body : List Char} (h : throughClose? cs = some body) :
    ∃ rest, body ++ rest = cs := by
  fun_induction throughClose? cs generalizing body with
  | case1 rest =>
    cases h
    exact ⟨rest, rfl⟩
  | case2 c cs _ ih =>
    obtain ⟨inner, hinner, rfl⟩ := Option.map_eq_some_iff.1 h
    obtain ⟨rest, hrest⟩ := ih hinner
    exact ⟨rest, by rw [List.cons_append, hrest]⟩
  | case3 => cases h

/-- A fraction stands at the front of the text. -/
theorem fraction_append (cs : List Char) : ∃ rest, fraction cs ++ rest = cs := by
  fun_cases fraction cs with
  | case1 cs _ => exact ⟨_, rfl⟩
  | case2 cs _ =>
    exact ⟨cs.dropWhile Char.isDigit, by
      rw [List.cons_append, List.takeWhile_append_dropWhile]⟩
  | case3 => exact ⟨_, rfl⟩

/-- The lexeme of a class stands at the front of the text. -/
theorem lexeme_append (p : Pattern) (cs : List Char) : ∃ rest, p.lexeme cs ++ rest = cs := by
  fun_cases lexeme p cs with
  -- blanks
  | case1 cs => exact ⟨_, List.takeWhile_append_dropWhile⟩
  -- a comment to the end of the line
  | case2 cs => exact ⟨_, by
      rw [List.cons_append, List.cons_append, List.takeWhile_append_dropWhile]⟩
  -- a closed comment
  | case4 cs body hbody =>
    obtain ⟨rest, hrest⟩ := throughClose?_append hbody
    exact ⟨rest, by rw [List.cons_append, List.cons_append, hrest]⟩
  -- a word
  | case7 c cs hc => exact ⟨_, by
      rw [List.cons_append, List.takeWhile_append_dropWhile]⟩
  -- a number: the digits, and then perhaps a fraction of what follows them
  | case11 cs _ =>
    obtain ⟨rest, hrest⟩ := fraction_append (cs.dropWhile Char.isDigit)
    exact ⟨rest, by rw [List.append_assoc, hrest, List.takeWhile_append_dropWhile]⟩
  -- a fixed spelling
  | case12 kind cs spelling hspelling =>
    obtain ⟨rest, hrest⟩ := List.isPrefixOf_iff_prefix.1 hspelling
    exact ⟨rest, hrest⟩
  -- in all other cases the class does not fit
  | _ => exact ⟨_, rfl⟩

/-- A match and what follows it make up the text. -/
theorem append_drop_of_firstMatch {cs text : List Char} {p : Pattern}
    (h : firstMatch cs = some (p, text)) : text ++ cs.drop text.length = cs := by
  obtain ⟨rest, hrest⟩ := p.lexeme_append cs
  rw [(lexeme_of_firstMatch h).1] at hrest
  rw [← hrest, List.drop_left]

/-- No class holds the empty text. -/
theorem firstMatch_nil : firstMatch [] = none := by
  decide

end Pattern

end Tercet
