/-!
# `Tercet.Text.Outline`: nested records as indented text

An outline is a value made of names, records, lists and rows. It is printed one part a line,
four blanks deeper than what holds it, and with a comma after each part. Nothing inside a
part is escaped: names and numbers are printed as they are.
-/

set_option autoImplicit false

namespace Tercet

/-- A nested value to be printed. -/
inductive Outline where
  | atom (text : String)
  /-- A name with named parts in braces. -/
  | record (name : String) (fields : List (String × Outline))
  /-- A name with one part in parentheses. -/
  | tagged (name : String) (part : Outline)
  /-- Parts in brackets. -/
  | list (parts : List Outline)
  /-- Parts in parentheses. -/
  | row (parts : List Outline)

namespace Outline

/-- A number. -/
def nat (n : Nat) : Outline :=
  .atom (toString n)

/-- A text between quotes. -/
def quoted (s : String) : Outline :=
  .atom ("\"" ++ s ++ "\"")

/-- A part that may be absent. -/
def optional : Option Outline → Outline
  | none => .atom "None"
  | some part => .tagged "Some" part

/-- The blanks of one level. -/
def step : String := "    "

mutual

/-- The outline as text, where the lines after the first start with `margin`. -/
def renderAt (margin : String) : Outline → String
  | .atom text => text
  | .record name fields =>
    name ++ " \x7b\n" ++ renderFields (margin ++ step) fields ++ margin ++ "\x7d"
  | .tagged name part =>
    name ++ "(\n" ++ margin ++ step ++ renderAt (margin ++ step) part ++ ",\n" ++ margin ++ ")"
  | .list [] => "[]"
  | .list (part :: parts) =>
    "[\n" ++ renderParts (margin ++ step) (part :: parts) ++ margin ++ "]"
  | .row parts => "(\n" ++ renderParts (margin ++ step) parts ++ margin ++ ")"

/-- Named parts, each on lines of its own. -/
def renderFields (margin : String) : List (String × Outline) → String
  | [] => ""
  | (name, part) :: more =>
    margin ++ name ++ ": " ++ renderAt margin part ++ ",\n" ++ renderFields margin more

/-- Parts, each on lines of its own. -/
def renderParts (margin : String) : List Outline → String
  | [] => ""
  | part :: more => margin ++ renderAt margin part ++ ",\n" ++ renderParts margin more

end

/-- The outline as text. -/
def render (o : Outline) : String :=
  renderAt "" o

end Outline

end Tercet
