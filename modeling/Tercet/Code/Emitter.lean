import Tercet.Code.Instr

/-!
# `Tercet.Code.Emitter`: laying down code

An emitter holds the code so far and counts what it has named: temporaries `t0`, `t1`, … and
labels `L0`, `L1`, …, each name once. A depth goes with every instruction; it only says how
far a listing indents it.
-/

set_option autoImplicit false

namespace Tercet

/-- Code being laid down. -/
structure Emitter where
  /-- The instructions in their order, each with its depth. -/
  code : Array (Nat × Instr)
  temps : Nat
  labels : Nat
  depth : Nat
deriving DecidableEq, Repr

namespace Emitter

/-- No code yet. -/
def empty : Emitter :=
  ⟨#[], 0, 0, 0⟩

/-- The instructions in their order. -/
def instructions (g : Emitter) : List Instr :=
  g.code.toList.map Prod.snd

/-- The instructions as text, one per line. -/
def lines (g : Emitter) : List String :=
  g.instructions.map Instr.display

/-- The blanks before an instruction. -/
def indentation (depth : Nat) : String :=
  String.ofList (List.replicate (2 * depth) ' ')

/-- The listing: the instructions, indented, between two marks. -/
def render (g : Emitter) : String :=
  "# === INICIO DEL PROGRAMA ===\n"
    ++ String.join (g.code.toList.map fun (depth, i) => indentation depth ++ i.display ++ "\n")
    ++ "# === FIN DEL PROGRAMA ==="

end Emitter

/-- A step that lays down code. -/
abbrev Emit := StateM Emitter

namespace Emit

/-- A temporary with a name of its own. -/
def newTemp : Emit String :=
  modifyGet fun g => ("t" ++ toString g.temps, { g with temps := g.temps + 1 })

/-- A label with a name of its own. -/
def newLabel : Emit String :=
  modifyGet fun g => ("L" ++ toString g.labels, { g with labels := g.labels + 1 })

/-- Lays down an instruction. -/
def instr (i : Instr) : Emit Unit :=
  modify fun g => { g with code := g.code.push (g.depth, i) }

/-- An instruction is laid down after all others. -/
@[simp] theorem instructions_instr (i : Instr) (g : Emitter) :
    (instr i g).2.instructions = g.instructions ++ [i] := by
  show Emitter.instructions { g with code := g.code.push (g.depth, i) } = _
  simp [Emitter.instructions]

/-- Instructions from here on stand one level deeper. -/
def indent : Emit Unit :=
  modify fun g => { g with depth := g.depth + 1 }

/-- Instructions from here on stand one level less deep, if there is one. -/
def dedent : Emit Unit :=
  modify fun g => { g with depth := g.depth - 1 }

/-- Code one level deeper. -/
def indented (body : Emit Unit) : Emit Unit := do
  indent
  body
  dedent

end Emit

end Tercet
