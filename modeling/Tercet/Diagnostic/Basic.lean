import Tercet.Diagnostic.Fault

/-!
# `Tercet.Diagnostic.Basic`: what is reported about a program

A diagnostic is a cause and a line. A cause is either a malformed text or a broken rule about
names and types, and everything that is said about it follows from it: the family it belongs
to, the message and, for some causes, a tip. Names and types stand in a cause as they are
shown.
-/

set_option autoImplicit false

namespace Tercet

/-- The two families of diagnostics. -/
inductive Family where
  | syntactic
  | semantic
deriving DecidableEq, Repr

/-- The family as reports show it. -/
def Family.label : Family → String
  | .syntactic => "SINTÁCTICO"
  | .semantic => "SEMÁNTICO"

/-- What is wrong. -/
inductive Cause where
  /-- The text follows no rule of the grammar. -/
  | malformed (message : String)
  /-- The name stands for nothing here. -/
  | undeclared (name : String)
  /-- The variable is read before it has a value. -/
  | uninitialized (name : String)
  /-- The name is taken in this scope. -/
  | redeclared (name : String)
  /-- The variable is never read. -/
  | unused (name : String)
  /-- A value of type `actual` does not fit a variable of type `expected`. -/
  | incompatibleType (expected actual context : String)
  /-- Values of these types cannot be compared. -/
  | incompatibleComparison (left right : String)
  /-- A remainder of something that is no integer. -/
  | invalidModulo (left right : String)
  /-- The operator does not join values of these types. -/
  | incompatibleOperation (operator left right : String)
  /-- The function is declared a second time. -/
  | functionRedeclared (name : String)
deriving DecidableEq, Repr

namespace Cause

/-- A malformed text is a syntactic cause, all others are semantic. -/
def family : Cause → Family
  | malformed _ => .syntactic
  | _ => .semantic

/-- The name of the cause, without its particulars. -/
def name : Cause → String
  | malformed _ => "Syntax"
  | undeclared _ => "UndeclaredVariable"
  | uninitialized _ => "UseBeforeInit"
  | redeclared _ => "DoubleDeclaration"
  | unused _ => "UnusedVariable"
  | incompatibleType _ _ _ => "IncompatibleType"
  | incompatibleComparison _ _ => "IncompatibleComparison"
  | invalidModulo _ _ => "InvalidModulo"
  | incompatibleOperation _ _ _ => "IncompatibleOperation"
  | functionRedeclared _ => "FunctionAlreadyDeclared"

/-- The wording of a cause. A type that does not fit is introduced by where it happens,
unless that is left empty. -/
def message : Cause → String
  | malformed text => text
  | undeclared name => "Variable '" ++ name ++ "' no ha sido declarada"
  | uninitialized name => "Variable '" ++ name ++ "' usada sin inicializar"
  | redeclared name => "Variable '" ++ name ++ "' ya fue declarada en este contexto"
  | unused name => "Variable '" ++ name ++ "' declarada pero no usada"
  | incompatibleType expected actual context =>
    (if context.isEmpty then "" else context ++ ": ") ++ "Tipo incompatible: se intenta asignar '"
      ++ actual ++ "' a variable de tipo '" ++ expected ++ "'"
  | incompatibleComparison left right =>
    "Comparación incompatible entre '" ++ left ++ "' y '" ++ right ++ "'"
  | invalidModulo left right =>
    "El operador '%' requiere operandos 'int', se recibió '" ++ left ++ "' y '" ++ right ++ "'"
  | incompatibleOperation operator left right =>
    "Operación '" ++ operator ++ "' incompatible entre '" ++ left ++ "' y '" ++ right ++ "'"
  | functionRedeclared name => "Función '" ++ name ++ "' ya fue declarada en este contexto"

/-- What to do about a cause, where there is something to say. -/
def tip? : Cause → Option String
  | undeclared name =>
    some ("declare `" ++ name ++ "` before using it, e.g. `int " ++ name ++ ";`")
  | uninitialized name => some ("assign a value to `" ++ name ++ "` before reading it")
  | unused name => some ("remove `" ++ name ++ "` or use it in an expression")
  | incompatibleType expected _ _ =>
    if expected == "int" then some "`double` values are never converted to `int` implicitly"
    else none
  | _ => none

end Cause

/-- A cause and the line it is found on. -/
structure Diagnostic where
  cause : Cause
  line : Nat
deriving DecidableEq, Repr

namespace Diagnostic

/-- The family of the cause. -/
def family (d : Diagnostic) : Family :=
  d.cause.family

/-- The wording of the cause. -/
def message (d : Diagnostic) : String :=
  d.cause.message

/-- The family and the line, before the wording. -/
def display (d : Diagnostic) : String :=
  "[" ++ d.family.label ++ "] Línea " ++ toString d.line ++ ": " ++ d.message

instance : ToString Diagnostic := ⟨display⟩

end Diagnostic

/-- A syntax error in its own words. -/
def SyntaxError.raw (e : SyntaxError) : Diagnostic :=
  ⟨.malformed e.message, e.line⟩

end Tercet
