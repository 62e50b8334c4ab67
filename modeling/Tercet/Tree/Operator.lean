import Tercet.Token.Kind

/-!
# `Tercet.Tree.Operator`: data types and operators

The three data types, the operators between values and the operators that store into a
variable, each with the token kinds that stand for it.
-/

set_option autoImplicit false

namespace Tercet

/-- A type of values. -/
inductive DataType where
  | int
  | double
  | void
deriving DecidableEq, Repr

namespace DataType

/-- The type as sources and messages write it. -/
def name : DataType → String
  | int => "int"
  | double => "double"
  | void => "void"

/-- Whether values of the type take part in arithmetic. -/
def isNumeric : DataType → Bool
  | int | double => true
  | void => false

/-- The type that a keyword names. -/
def ofKind? : Kind → Option DataType
  | .kwInt => some int
  | .kwDouble => some double
  | .kwVoid => some void
  | _ => none

end DataType

/-- An operator between two values. -/
inductive BinaryOp where
  | add | sub | mul | div | mod
  | less | lessEqual | greater | greaterEqual | equal | notEqual
deriving DecidableEq, Repr

namespace BinaryOp

/-- The operator as sources and listings write it. -/
def symbol : BinaryOp → String
  | add => "+"
  | sub => "-"
  | mul => "*"
  | div => "/"
  | mod => "%"
  | less => "<"
  | lessEqual => "<="
  | greater => ">"
  | greaterEqual => ">="
  | equal => "=="
  | notEqual => "!="

/-- The name of the operator in a tree listing. -/
def name : BinaryOp → String
  | add => "Add"
  | sub => "Sub"
  | mul => "Mul"
  | div => "Div"
  | mod => "Mod"
  | less => "Less"
  | lessEqual => "LessEquals"
  | greater => "Greater"
  | greaterEqual => "GreaterEquals"
  | equal => "Equals"
  | notEqual => "NotEquals"

/-- Whether the operator compares. -/
def isRelational : BinaryOp → Bool
  | less | lessEqual | greater | greaterEqual | equal | notEqual => true
  | _ => false

/-- The operator between terms that a kind stands for. -/
def additive? : Kind → Option BinaryOp
  | .plus => some add
  | .minus => some sub
  | _ => none

/-- The operator between factors that a kind stands for, among products. -/
def multiplicative? : Kind → Option BinaryOp
  | .star => some mul
  | .slash => some div
  | .percent => some mod
  | _ => none

/-- The operator between factors that a kind stands for, among comparisons. -/
def relational? : Kind → Option BinaryOp
  | .less => some less
  | .lessEqual => some lessEqual
  | .greater => some greater
  | .greaterEqual => some greaterEqual
  | .equal => some equal
  | .notEqual => some notEqual
  | _ => none

end BinaryOp

/-- An operator that stores into a variable: plainly, or after joining the value to the old
one. -/
inductive AssignOp where
  | set | add | sub | mul | div | mod
deriving DecidableEq, Repr

namespace AssignOp

/-- The name of the operator in a tree listing. -/
def name : AssignOp → String
  | set => "Assign"
  | add => "Add"
  | sub => "Sub"
  | mul => "Mul"
  | div => "Div"
  | mod => "Mod"

/-- The operator that a kind stands for. -/
def ofKind? : Kind → Option AssignOp
  | .assign => some set
  | .addAssign => some add
  | .subAssign => some sub
  | .mulAssign => some mul
  | .divAssign => some div
  | .modAssign => some mod
  | _ => none

/-- The operator that joins the new value to the old one, if there is one. -/
def binary? : AssignOp → Option BinaryOp
  | set => none
  | add => some .add
  | sub => some .sub
  | mul => some .mul
  | div => some .div
  | mod => some .mod

end AssignOp

end Tercet
