import Tercet.Compilation
import Tercet.Text.Lines
import Tercet.Tree.Outline

/-!
# `Tercet.Cli`: what the command line prints

The command line compiles one file. Its first argument names the file; the flags after it ask
for the tokens, the tree and the symbols. `Cli.run` is the whole of its behaviour as a
function: of the arguments, of how the file reads, of whether text is coloured, and of what
the clock says. It gives the texts for the two output channels and the exit code: 0 where
there is nothing to report about the source, 1 where there is, and 2 where there is no source.
-/

set_option autoImplicit false

namespace Tercet.Cli

/-- Whether text is coloured. -/
structure Style where
  coloured : Bool

namespace Style

/-- A text in the rendition of a code, where text is coloured. -/
def paint (style : Style) (code text : String) : String :=
  if style.coloured then "\x1b[" ++ code ++ "m" ++ text ++ "\x1b[0m" else text

/-- A bold text. -/
def bold (style : Style) (text : String) : String :=
  style.paint "1" text

/-- A blue text. -/
def blue (style : Style) (text : String) : String :=
  style.paint "34" text

/-- A green text. -/
def green (style : Style) (text : String) : String :=
  style.paint "32" text

/-- A bold red text. -/
def boldRed (style : Style) (text : String) : String :=
  style.paint "1;31" text

/-- A bold yellow text. -/
def boldYellow (style : Style) (text : String) : String :=
  style.paint "1;33" text

end Style

/-- What the clock says about each stage, as it is printed. -/
structure Clock where
  tokenized : String
  parsed : String
  analyzed : String
  generated : String
  total : String

/-- Why a file gives no source. -/
inductive LoadError where
  | notFound
  | notText
  /-- Any other failure, in the words of the system. -/
  | other (text : String)
deriving DecidableEq, Repr

/-- The wording of a failure to read a file. -/
def LoadError.message : LoadError → String
  | .notFound => "No such file or directory (os error 2)"
  | .notText => "stream did not contain valid UTF-8"
  | .other text => text

/-- The source that the bytes of a file spell. -/
def decode (bytes : ByteArray) : Except LoadError String :=
  match String.fromUTF8? bytes with
  | some source => .ok source
  | none => .error .notText

/-- What a run of the command line leaves behind. -/
structure Outcome where
  exitCode : UInt8
  stdout : String
  stderr : String
deriving DecidableEq, Repr

/-- How the command line is used. -/
def usage : String := "tacc <file> [--tokens] [--ast] [--symbols]"

/-- The family of a diagnostic, in its colour. -/
def header (style : Style) (family : Family) : String :=
  let text := "[" ++ family.label ++ "]"
  match family with
  | .syntactic => style.boldYellow text
  | .semantic => style.boldRed text

/-- A diagnostic with the line of the source that it is about. -/
def diagnosticLines (style : Style) (file source : String) (d : Diagnostic) : List String :=
  let number := toString d.line
  let gutter := style.blue (String.ofList (List.replicate (number.length + 1) ' ') ++ "|")
  let quoted :=
    match Text.lineAt? source d.line with
    | some line =>
      [gutter, style.blue number ++ " " ++ style.blue "|" ++ " " ++ Text.trim line, gutter]
    | none => []
  let tip :=
    match d.cause.tip? with
    | some tip => [style.green "tip:" ++ " " ++ tip]
    | none => []
  [header style d.family ++ " Línea " ++ number ++ ": " ++ d.message,
   style.blue "->" ++ " " ++ file ++ ":" ++ number] ++ quoted ++ tip

/-- What is printed of a source about which something is reported. -/
def failureText (style : Style) (file source : String) (log : Log) : String :=
  Text.unlines (log.flatMap (diagnosticLines style file source)) ++ "\n" ++ log.summary ++ "\n"

/-- What is printed of a source about which nothing is reported. -/
def successText (style : Style) (clock : Clock) (showSymbols : Bool) (analysis : Analysis)
    (code : Emitter) : String :=
  (if showSymbols then "\n" ++ style.bold "TABLA DE SÍMBOLOS" ++ "\n" ++ analysis.table.display
   else "")
    ++ "\n" ++ analysis.stats.report ++ "\n"
    ++ "\n" ++ analysis.stats.display ++ "\n"
    ++ "Generated in " ++ clock.generated ++ "\n"
    ++ "\n" ++ style.bold "CÓDIGO INTERMEDIO (Three Address Code)" ++ "\n"
    ++ code.render ++ "\n"
    ++ "Total time: " ++ clock.total ++ "\n"

/-- Compiles a source and prints what the flags ask for. -/
def runSource (style : Style) (clock : Clock) (file source : String) (flags : List String) :
    Outcome :=
  let (tokens, lexical) := tokensOf source
  let (program, syntactic) := Program.ofTokens tokens
  let analysis := program.analyze
  let log := lexical ++ syntactic ++ analysis.log
  let stages :=
    "Tokenized in " ++ clock.tokenized ++ "\n"
      ++ (if flags.contains "--tokens" then
            Text.unlines (tokens.map fun t => "  " ++ t.display)
          else "")
      ++ "Parsed in " ++ clock.parsed ++ "\n"
      ++ (if flags.contains "--ast" then program.outline.render ++ "\n" else "")
      ++ "Analyzed in " ++ clock.analyzed ++ "\n"
  if log.isEmpty then
    ⟨0, stages ++ successText style clock (flags.contains "--symbols") analysis program.lower, ""⟩
  else
    ⟨1, stages ++ failureText style file source log, ""⟩

/-- A run of the command line, where `load` reads a file. -/
def run (style : Style) (clock : Clock) (load : String → Except LoadError String) :
    List String → Outcome
  | [] => ⟨2, "", style.bold "Usage:" ++ " " ++ usage ++ "\n"⟩
  | file :: flags =>
    match load file with
    | .ok source => runSource style clock file source flags
    | .error e =>
      ⟨2, "", style.boldRed "error:" ++ " failed to read " ++ file ++ ": " ++ e.message ++ "\n"⟩

end Tercet.Cli
