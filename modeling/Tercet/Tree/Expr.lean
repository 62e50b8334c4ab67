import Tercet.Tree.Operator

/-!
# `Tercet.Tree.Expr`: expressions

An expression is a row of terms between sums and differences, and a term is a row of factors
between products and comparisons. Operators of one row apply from left to right, so a row is
nested to the left: `a - b - c` is `binary (binary (term a) sub b) sub c`. Parentheses are
kept as groups. The line of an expression or a term is the line of its first factor.
-/

set_option autoImplicit false

namespace Tercet

mutual

/-- Terms, joined from left to right. -/
inductive Expr where
  | term (only : Term)
  | binary (left : Expr) (op : BinaryOp) (right : Term)

/-- Factors, joined from left to right. -/
inductive Term where
  | factor (only : Factor)
  | binary (left : Term) (op : BinaryOp) (right : Factor)

/-- What operators join. -/
inductive Factor where
  | number (text : String) (line : Nat)
  | ident (name : String) (line : Nat)
  | call (name : String) (arguments : List Expr) (line : Nat)
  | group (inner : Expr) (line : Nat)

end

/-- The line on which a factor starts. -/
def Factor.line : Factor → Nat
  | .number _ line | .ident _ line | .call _ _ line | .group _ line => line

/-- The first factor of a term. -/
def Term.first : Term → Factor
  | .factor f => f
  | .binary left _ _ => left.first

/-- The line on which a term starts. -/
def Term.line (t : Term) : Nat :=
  t.first.line

/-- The factors of a term after the first, each with the operator before it. -/
def Term.rest : Term → List (BinaryOp × Factor)
  | .factor _ => []
  | .binary left op right => left.rest ++ [(op, right)]

/-- The first term of an expression. -/
def Expr.first : Expr → Term
  | .term t => t
  | .binary left _ _ => left.first

/-- The line on which an expression starts. -/
def Expr.line (e : Expr) : Nat :=
  e.first.line

/-- The terms of an expression after the first, each with the operator before it. -/
def Expr.rest : Expr → List (BinaryOp × Term)
  | .term _ => []
  | .binary left op right => left.rest ++ [(op, right)]

end Tercet
