import Tercet.Diagnostic.Basic
import Tercet.Text.Blank
import Tercet.Text.Search

/-!
# `Tercet.Diagnostic.Wording`: short words for syntax errors

The message of a fault is technical; what is reported of it is shorter. `classify` picks the
short wording by the phrases that occur anywhere in the message, the first that fits in a
fixed order. The message quotes the source, so a name of the source that contains one of the
phrases takes part in the choice.
-/

set_option autoImplicit false

namespace Tercet

open Text (occurs)

/-- The short wording of a message that says that something is missing. Without one of the
marks that have a wording of their own, what follows the word is kept. -/
def classifyMissing (message : String) : String :=
  if occurs "';'" message then "Falta un punto y coma (;)"
  else if occurs "'('" message then "Falta un paréntesis de apertura '('"
  else if occurs "')'" message then "Falta un paréntesis de cierre ')'"
  else
    let rest := (Text.after? "missing".toList message.toList).getD []
    "Falta: " ++ String.ofList (Text.trimChars rest)

/-- The short wording of a message. A message with none of the known phrases is kept. -/
def classify (message : String) : String :=
  if occurs "mismatched input" message then "Token inesperado o falta de un símbolo esperado"
  else if occurs "missing" message then classifyMissing message
  else if occurs "extraneous input" message then "Símbolo adicional no esperado"
  else if occurs "no viable alternative" message then "Sintaxis incorrecta"
  else message

/-- The report of a message about the source on a line. -/
def Diagnostic.ofMessage (line : Nat) (message : String) : Diagnostic :=
  ⟨.malformed (classify message), line⟩

/-- The report of a syntax error. -/
def SyntaxError.report (e : SyntaxError) : Diagnostic :=
  Diagnostic.ofMessage e.line e.message

end Tercet
