import Tercet.Cli

/-!
# `Tercet.Main`: the command line

Reads the file, takes the time of each stage, and prints what `Cli.run` says. Text is
coloured on a terminal.
-/

set_option autoImplicit false

namespace Tercet.Cli

/-- A span of time in the largest unit that it fills, without zeros at the end. -/
def duration (nanos : Nat) : String :=
  let (unit, digits) :=
    if nanos < 1000 then ("ns", 0)
    else if nanos < 1000000 then ("µs", 3)
    else if nanos < 1000000000 then ("ms", 6)
    else ("s", 9)
  let padded := (toString (Nat.pow 10 digits + nanos % Nat.pow 10 digits)).toList.drop 1
  let fraction := (padded.reverse.dropWhile (· == '0')).reverse
  toString (nanos / Nat.pow 10 digits)
    ++ (if fraction.isEmpty then "" else "." ++ String.ofList fraction) ++ unit

/-- Reads a file, with its failures as the command line words them. -/
def load (file : String) : IO (Except LoadError String) := do
  try
    return decode (← IO.FS.readBinFile file)
  catch e =>
    match e with
    | .noFileOrDirectory .. => return .error .notFound
    | e => return .error (.other (toString e))

/-- Runs a stage and says how long it took. -/
def timed {α : Type} (stage : Unit → α) : IO (α × Nat) := do
  let start ← IO.monoNanosNow
  let value ← IO.lazyPure stage
  return (value, (← IO.monoNanosNow) - start)

/-- How long each stage takes on a source. -/
def measure (source : String) : IO Clock := do
  let start ← IO.monoNanosNow
  let ((tokens, _), tokenized) ← timed fun _ => tokensOf source
  let ((program, _), parsed) ← timed fun _ => Program.ofTokens tokens
  let (_, analyzed) ← timed fun _ => program.analyze
  let (_, generated) ← timed fun _ => program.lower
  let total := (← IO.monoNanosNow) - start
  return ⟨duration tokenized, duration parsed, duration analyzed, duration generated,
    duration total⟩

end Tercet.Cli

open Tercet Tercet.Cli

/-- The command line. -/
def main (args : List String) : IO UInt32 := do
  let stdout ← IO.getStdout
  let stderr ← IO.getStderr
  let style : Style := ⟨← stdout.isTty⟩
  let loaded ←
    match args with
    | [] => pure (.error .notFound)
    | file :: _ => Cli.load file
  let clock ← measure (loaded.toOption.getD "")
  let outcome := Cli.run style clock (fun _ => loaded) args
  stdout.putStr outcome.stdout
  stdout.flush
  stderr.putStr outcome.stderr
  return outcome.exitCode.toUInt32
