import Tercet.Tree.Expr

/-!
# `Tercet.Tree.Stmt`: statements and programs

A program is a row of statements. Every statement keeps the line of its first token.
-/

set_option autoImplicit false

namespace Tercet

/-- A name that a declaration introduces, perhaps with its first value. -/
structure Declarator where
  name : String
  initializer : Option Expr

/-- Variables of one type, declared together. -/
structure Declaration where
  type : DataType
  declarators : List Declarator
  line : Nat

/-- A value that is stored into a variable. -/
structure Assignment where
  target : String
  op : AssignOp
  value : Expr
  line : Nat

/-- What a counted loop does once, at its start. -/
inductive ForInit where
  | declaration (d : Declaration)
  | assignment (a : Assignment)

/-- What a counted loop does after each round. -/
inductive ForStep where
  | increment (target : String) (line : Nat)
  | decrement (target : String) (line : Nat)
  | assignment (a : Assignment)

/-- A parameter of a function. -/
structure Parameter where
  type : DataType
  name : String
deriving DecidableEq, Repr

/-- The head of a function. -/
structure Signature where
  returnType : DataType
  name : String
  parameters : List Parameter
  line : Nat
deriving DecidableEq, Repr

/-- A statement. -/
inductive Stmt where
  | block (body : List Stmt) (line : Nat)
  | declaration (d : Declaration)
  | assignment (a : Assignment)
  | ifThen (condition : Expr) (body : Stmt) (line : Nat)
  | ifElse (condition : Expr) (onTrue onFalse : Stmt) (line : Nat)
  | whileLoop (condition : Expr) (body : Stmt) (line : Nat)
  | forLoop (init : Option ForInit) (condition : Option Expr) (step : Option ForStep)
      (body : Stmt) (line : Nat)
  /-- A function with its body, whose opening brace stands on `bodyLine`. -/
  | function (signature : Signature) (body : List Stmt) (bodyLine : Nat)
  /-- A function announced without a body. -/
  | prototype (signature : Signature)
  | result (value : Option Expr) (line : Nat)

/-- A whole program. -/
structure Program where
  body : List Stmt

end Tercet
