import Tercet.Check.Analysis
import Tercet.Code.Lower
import Tercet.Reading.Stmt
import Tercet.Token.Lexeme

/-!
# `Tercet.Compilation`: from source to code

A compilation cuts a source into tokens, reads them as a program, checks the program and, if
nothing at all has been reported, lowers it. What is reported keeps the order of these
stages.
-/

set_option autoImplicit false

namespace Tercet

/-- The tokens of a source. A source that cannot be cut has none, and the reason is
reported. -/
def tokensOf (source : String) : List Token × Log :=
  match Token.ofSource source with
  | .ok tokens => (tokens, [])
  | .error e => ([], [e.report])

/-- All that a source gives. -/
structure Compilation where
  tokens : List Token
  program : Program
  log : Log
  table : Table
  stats : Stats
  /-- The code, if nothing has been reported. -/
  code : Option Emitter

/-- Compiles a source. -/
def compile (source : String) : Compilation :=
  let (tokens, lexical) := tokensOf source
  let (program, syntactic) := Program.ofTokens tokens
  let analysis := program.analyze
  let log := lexical ++ syntactic ++ analysis.log
  { tokens, program, log
    table := analysis.table
    stats := analysis.stats
    code := if log.isEmpty then some program.lower else none }

end Tercet
