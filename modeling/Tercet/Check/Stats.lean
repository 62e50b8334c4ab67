import Tercet.Text.Layout

/-!
# `Tercet.Check.Stats`: what a program is made of

Counts of the constructs met in a program, and the two ways in which they are printed.
-/

set_option autoImplicit false

namespace Tercet

/-- Counts of constructs. -/
structure Stats where
  declarations : Nat
  functions : Nat
  ifs : Nat
  whiles : Nat
  fors : Nat
  assignments : Nat
  nodes : Nat
deriving DecidableEq, Repr

namespace Stats

/-- Nothing has been counted. -/
def zero : Stats :=
  ⟨0, 0, 0, 0, 0, 0, 0⟩

/-- Branches and loops together. -/
def controlStructures (s : Stats) : Nat :=
  s.ifs + s.whiles + s.fors

/-- Loops of both kinds. -/
def loops (s : Stats) : Nat :=
  s.whiles + s.fors

/-- The counts as a report with a title. -/
def report (s : Stats) : String :=
  Text.unlines
    (Text.banner "ESTADÍSTICAS DEL CÓDIGO" ++
     ["  Declaraciones:          " ++ toString s.declarations,
      "  Funciones:              " ++ toString s.functions,
      "  Estructuras if:         " ++ toString s.ifs,
      "  Bucles while:           " ++ toString s.whiles,
      "  Bucles for:             " ++ toString s.fors,
      "  Asignaciones:           " ++ toString s.assignments,
      "  Nodos visitados:        " ++ toString s.nodes,
      Text.rule,
      "  Total estructuras control: " ++ toString s.controlStructures,
      "  Total bucles:             " ++ toString s.loops]) ++ Text.rule

/-- The counts as sentences. -/
def display (s : Stats) : String :=
  "\n".intercalate
    ["Se hicieron " ++ toString s.declarations ++ " declaraciones",
     "Se reconocieron " ++ toString s.functions ++ " funciones",
     "Se reconocieron " ++ toString s.whiles ++ " bucles while",
     "Se reconocieron " ++ toString s.fors ++ " bucles for",
     "Se reconocieron " ++ toString s.ifs ++ " estructuras if",
     "Se visitaron " ++ toString s.nodes ++ " nodos"]

instance : ToString Stats := ⟨display⟩

end Stats

end Tercet
