import Tercet.Code.Emitter
import Tercet.Tree.Stmt

/-!
# `Tercet.Code.Lower`: from trees to three-address code

Lowering an expression lays down the code that computes it and gives the operand that holds
its value: the number or the name itself, or the temporary of the last instruction. Operands
are computed from left to right, and all arguments of a call before the first is handed over.
Branches and loops become labels and jumps; a label is named before anything inside the
construct, so that names grow from the outside in.
-/

set_option autoImplicit false

namespace Tercet

open Emit

/-- Joins two operands and gives the temporary that holds the value. -/
def Emit.join (left : String) (op : BinaryOp) (right : String) : Emit String := do
  let target ← newTemp
  instr (.binary target left op right)
  return target

mutual

/-- The operand that holds the value of an expression. -/
def Expr.lower : Expr → Emit String
  | .term t => t.lower
  | .binary left op right => do
    let l ← left.lower
    let r ← right.lower
    join l op r

/-- The operand that holds the value of a term. -/
def Term.lower : Term → Emit String
  | .factor f => f.lower
  | .binary left op right => do
    let l ← left.lower
    let r ← right.lower
    join l op r

/-- The operand that holds the value of a factor. -/
def Factor.lower : Factor → Emit String
  | .number text _ => return text
  | .ident name _ => return name
  | .group inner _ => inner.lower
  | .call name args _ => do
    -- calls inside the arguments are done before the first operand is handed over
    let values ← lowerArguments args
    values.forM fun v => instr (.param v)
    let target ← newTemp
    instr (.call target name)
    return target

/-- The operands that hold the values of the arguments of a call. -/
def lowerArguments : List Expr → Emit (List String)
  | [] => return []
  | e :: es => do
    let value ← e.lower
    let values ← lowerArguments es
    return value :: values

end

/-- Stores an operand, after joining it to the old value where the operator says so. -/
def Emit.store (target : String) (op : AssignOp) (value : String) : Emit Unit := do
  match op.binary? with
  | none => instr (.copy target value)
  | some binary => instr (.copy target (← join target binary value))

/-- The code of one declared name. -/
def Declarator.lower (d : Declarator) : Emit Unit := do
  match d.initializer with
  | some e => instr (.copy d.name (← e.lower))
  | none => instr (.declare d.name)

/-- The code of a declaration. -/
def Declaration.lower (d : Declaration) : Emit Unit :=
  d.declarators.forM Declarator.lower

/-- The code of an assignment. -/
def Assignment.lower (a : Assignment) : Emit Unit := do
  store a.target a.op (← a.value.lower)

/-- The code of the start of a counted loop. -/
def ForInit.lower : Option ForInit → Emit Unit
  | some (.declaration d) => d.lower
  | some (.assignment a) => a.lower
  | none => return

/-- The code of what a counted loop does after each round. -/
def ForStep.lower : Option ForStep → Emit Unit
  | some (.increment target _) => store target .add "1"
  | some (.decrement target _) => store target .sub "1"
  | some (.assignment a) => a.lower
  | none => return

/-- Jumps to a label unless an expression holds. -/
def Emit.unlessGoto (condition : Expr) (label : String) : Emit Unit := do
  instr (.ifNotGoto (← condition.lower) label)

mutual

/-- The code of a statement. -/
def Stmt.lower : Stmt → Emit Unit
  | .block body _ => lowerAll body
  | .declaration d => d.lower
  | .assignment a => a.lower
  | .ifThen condition body _ => do
    let done ← newLabel
    unlessGoto condition done
    indented body.lower
    instr (.label done)
  | .ifElse condition onTrue onFalse _ => do
    let other ← newLabel
    let done ← newLabel
    unlessGoto condition other
    indented do
      onTrue.lower
      instr (.goto done)
    instr (.label other)
    indented onFalse.lower
    instr (.label done)
  | .whileLoop condition body _ => do
    let start ← newLabel
    let done ← newLabel
    instr (.label start)
    indented do
      unlessGoto condition done
      body.lower
      instr (.goto start)
    instr (.label done)
  | .forLoop init condition step body _ => do
    let start ← newLabel
    let done ← newLabel
    -- the start of the loop is passed once, before the label that rounds come back to
    ForInit.lower init
    instr (.label start)
    indented do
      match condition with
      | some e => unlessGoto e done
      | none => pure ()
      body.lower
      ForStep.lower step
      instr (.goto start)
    instr (.label done)
  | .function signature body _ => do
    instr (.label signature.name)
    indented (lowerAll body)
  | .prototype _ => return
  | .result none _ => instr (.result none)
  | .result (some e) _ => do
    instr (.result (some (← e.lower)))

/-- The code of a row of statements. -/
def lowerAll : List Stmt → Emit Unit
  | [] => return
  | s :: more => do
    s.lower
    lowerAll more

end

/-- The code of a program. -/
def Program.lower (p : Program) : Emitter :=
  (lowerAll p.body Emitter.empty).2

end Tercet
