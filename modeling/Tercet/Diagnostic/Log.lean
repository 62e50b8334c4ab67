import Tercet.Diagnostic.Basic
import Tercet.Text.Layout

/-!
# `Tercet.Diagnostic.Log`: diagnostics in the order of discovery

A log keeps every diagnostic of one compilation, the earliest first. Its summary gives the
totals and then a section for each family that is not empty.
-/

set_option autoImplicit false

namespace Tercet

/-- Diagnostics, the earliest first. -/
abbrev Log := List Diagnostic

namespace Log

/-- The diagnostics of one family, in their order. -/
def ofFamily (log : Log) (family : Family) : Log :=
  log.filter fun d => d.family == family

/-- One section of the summary; nothing for an empty one. -/
def sectionLines (heading : String) (log : Log) : List String :=
  if log.isEmpty then []
  else ["", heading, Text.thinRule] ++ log.map fun d => "  " ++ d.display

/-- The report of a whole log. -/
def summary (log : Log) : String :=
  let syntactic := log.ofFamily .syntactic
  let semantic := log.ofFamily .semantic
  Text.unlines
    (Text.banner "REPORTE DE ERRORES" ++
     ["Total de errores: " ++ toString log.length,
      "  • Errores sintácticos: " ++ toString syntactic.length,
      "  • Errores semánticos: " ++ toString semantic.length,
      Text.rule] ++
     sectionLines "ERRORES SINTÁCTICOS:" syntactic ++
     sectionLines "ERRORES SEMÁNTICOS:" semantic ++
     [""]) ++ Text.rule

end Log

end Tercet
