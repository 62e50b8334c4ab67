import Tercet.Tree.Stmt

/-!
# `Tercet.Symbol.Basic`: what a name stands for

A name stands for a variable or for a function. A variable remembers where it was first
given a value and whether it has been read. A function is announced by a prototype or
defined with a body, and always has a value.
-/

set_option autoImplicit false

namespace Tercet

/-- A variable in force. -/
structure Variable where
  name : String
  type : DataType
  line : Nat
  initializedAt : Option Nat
  used : Bool
deriving DecidableEq, Repr

namespace Variable

/-- A variable as it is declared, perhaps with a value. -/
def declared (name : String) (type : DataType) (line : Nat) (initializedAt : Option Nat) :
    Variable :=
  ⟨name, type, line, initializedAt, false⟩

/-- The variable after a value has been stored on a line. The first such line is kept. -/
def store (v : Variable) (line : Nat) : Variable :=
  { v with initializedAt := v.initializedAt.or (some line) }

/-- The variable after it has been read. -/
def markUsed (v : Variable) : Variable :=
  { v with used := true }

/-- The variable as symbol listings show it. -/
def display (v : Variable) : String :=
  "variable " ++ v.name ++ " : " ++ v.type.name ++ " (línea " ++ toString v.line ++ ")"
    ++ (match v.initializedAt with
        | some line => " inicializada en línea " ++ toString line
        | none => " sin inicializar")
    ++ (if v.used then ", usada" else "")

end Variable

/-- The head of a function as symbol listings show it. -/
def Signature.display (s : Signature) : String :=
  "función " ++ s.name ++ "("
    ++ ", ".intercalate (s.parameters.map fun p => p.type.name ++ " " ++ p.name)
    ++ ") -> " ++ s.returnType.name ++ " (línea " ++ toString s.line ++ ")"

/-- What a name stands for. -/
inductive Symbol where
  | var (v : Variable)
  /-- A function; one that is not `defined` has only been announced. -/
  | function (signature : Signature) (defined : Bool)
deriving DecidableEq, Repr

namespace Symbol

/-- The name itself. -/
def name : Symbol → String
  | var v => v.name
  | function s _ => s.name

/-- The line of the declaration. -/
def line : Symbol → Nat
  | var v => v.line
  | function s _ => s.line

/-- The type of the variable, or of what the function returns. -/
def type : Symbol → DataType
  | var v => v.type
  | function s _ => s.returnType

/-- Whether the name can be read. -/
def isInitialized : Symbol → Bool
  | var v => v.initializedAt.isSome
  | function _ _ => true

/-- The symbol after a value has been stored on a line. -/
def store (line : Nat) : Symbol → Symbol
  | var v => var (v.store line)
  | function s defined => function s defined

/-- The symbol after it has been read. -/
def markUsed : Symbol → Symbol
  | var v => var v.markUsed
  | function s defined => function s defined

/-- The symbol as listings show it. -/
def display : Symbol → String
  | var v => v.display
  | function s defined => s.display ++ if defined then "" else " [prototipo]"

instance : ToString Symbol := ⟨display⟩

/-- A store changes no name. -/
@[simp] theorem name_store (line : Nat) (s : Symbol) : (s.store line).name = s.name := by
  cases s <;> rfl

/-- Nor does a use. -/
@[simp] theorem name_markUsed (s : Symbol) : s.markUsed.name = s.name := by
  cases s <;> rfl

end Symbol

end Tercet
