import Tercet.Tree.Operator

/-!
# `Tercet.Code.Instr`: three-address instructions

An instruction has at most one operator. Its operands are names of variables, numbers or
temporaries, all as text.
-/

set_option autoImplicit false

namespace Tercet

/-- A three-address instruction. -/
inductive Instr where
  /-- `target = left op right` -/
  | binary (target left : String) (op : BinaryOp) (right : String)
  /-- `target = value` -/
  | copy (target value : String)
  | label (name : String)
  /-- Goes to a label if the condition does not hold. -/
  | ifNotGoto (condition target : String)
  | goto (target : String)
  /-- Hands a value to the next call. -/
  | param (value : String)
  /-- `target = call function` -/
  | call (target function : String)
  | declare (name : String)
  /-- Ends a function, perhaps with a value. -/
  | result (value : Option String)
deriving DecidableEq, Repr

namespace Instr

/-- The instruction as listings show it. -/
def display : Instr → String
  | binary target left op right => target ++ " = " ++ left ++ " " ++ op.symbol ++ " " ++ right
  | copy target value => target ++ " = " ++ value
  | label name => name ++ ":"
  | ifNotGoto condition target => "if not " ++ condition ++ " goto " ++ target
  | goto target => "goto " ++ target
  | param value => "param " ++ value
  | call target function => target ++ " = call " ++ function
  | declare name => "DECLARE " ++ name
  | result (some value) => "return " ++ value
  | result none => "return"

instance : ToString Instr := ⟨display⟩

end Instr

end Tercet
