import Tercet.Diagnostic.Log
import Tercet.Symbol.Table
import Tercet.Tree.Expr

/-!
# `Tercet.Check.Typing`: types of expressions

The type of an expression follows from what its names stand for. It may be unknown, because
a name stands for nothing; what is unknown is not complained about a second time. Comparisons
and remainders are integers whatever they are made of, and a sum, difference, product or
quotient takes the wider type of the two. Where two types do not go together, inference says
so at the line of the right operand and goes on. It does not look into the arguments of a
call: what they are is none of the call's type.
-/

set_option autoImplicit false

namespace Tercet

namespace BinaryOp

/-- Why an operator does not join two types, if it does not. -/
def clash? (op : BinaryOp) (left right : DataType) : Option Cause :=
  if op.isRelational then
    if left = right || (left.isNumeric && right.isNumeric) then none
    else some (.incompatibleComparison left.name right.name)
  else if op = .mod then
    if left = .int && right = .int then none
    else some (.invalidModulo left.name right.name)
  else
    if left.isNumeric && right.isNumeric then none
    else some (.incompatibleOperation op.symbol left.name right.name)

/-- The wider of two numeric types; the left one if they do not go together. -/
def wider (left right : DataType) : DataType :=
  match left, right with
  | .int, .double => .double
  | _, _ => left

/-- The type of what an operator gives. -/
def resultType (op : BinaryOp) (left right : Option DataType) : Option DataType :=
  if op.isRelational || op = .mod then
    some .int
  else
    match left, right with
    | some l, some r => some (wider l r)
    | _, _ => none

/-- The type of what an operator on a line gives, and what there is to say about it. -/
def combine (op : BinaryOp) (left right : Option DataType) (line : Nat) : Option DataType × Log :=
  (op.resultType left right,
    match left, right with
    | some l, some r => ((op.clash? l r).map fun cause => ⟨cause, line⟩).toList
    | _, _ => [])

end BinaryOp

/-- The type of a number: one with a point is no integer. -/
def numberType (text : String) : DataType :=
  if text.toList.contains '.' then .double else .int

mutual

/-- The type of an expression, and what there is to say about it, from left to right. -/
def Expr.infer (table : Table) : Expr → Option DataType × Log
  | .term t => t.infer table
  | .binary left op right =>
    let (l, first) := left.infer table
    let (r, second) := right.infer table
    let (type, third) := op.combine l r right.line
    (type, first ++ second ++ third)

/-- The type of a term, and what there is to say about it. -/
def Term.infer (table : Table) : Term → Option DataType × Log
  | .factor f => f.infer table
  | .binary left op right =>
    let (l, first) := left.infer table
    let (r, second) := right.infer table
    let (type, third) := op.combine l r right.line
    (type, first ++ second ++ third)

/-- The type of a factor, and what there is to say about it. -/
def Factor.infer (table : Table) : Factor → Option DataType × Log
  | .number text _ => (some (numberType text), [])
  | .ident name _ => ((table.resolve? name).map Symbol.type, [])
  | .call name _ _ => ((table.resolve? name).map Symbol.type, [])
  | .group inner _ => inner.infer table

end

end Tercet
