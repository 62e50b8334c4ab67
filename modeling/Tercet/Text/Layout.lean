/-!
# `Tercet.Text.Layout`: printed reports

Reports are rows of lines. Their sections are parted by rules of sixty signs, and each
report opens with its title between two rules.
-/

set_option autoImplicit false

namespace Tercet.Text

/-- A rule of equal signs across a report. -/
def rule : String :=
  String.ofList (List.replicate 60 '=')

/-- A rule of hyphens under the heading of a section. -/
def thinRule : String :=
  String.ofList (List.replicate 60 '-')

/-- The head of a report. -/
def banner (title : String) : List String :=
  [rule, "         " ++ title, rule]

/-- Lines, each with a newline at its end. -/
def unlines (lines : List String) : String :=
  String.join (lines.map (· ++ "\n"))

end Tercet.Text
