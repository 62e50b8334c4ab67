import Tercet.Reading.Parser
import Tercet.Tree.Expr

/-!
# `Tercet.Reading.Expr`: reading expressions

One reader per layer of the grammar, each over a reader for the expressions inside
parentheses. The knot is tied by `exprWithin`, which counts how many parentheses may still
open; `Reader.expr` allows as many as there are tokens, and more cannot open.
-/

set_option autoImplicit false

namespace Tercet.Reader

/-- A row of operands after `left`, joined from left to right, at most `room` of them. -/
def chainWithin {α β : Type} (op? : Kind → Option BinaryOp) (operand : Reader β)
    (join : α → BinaryOp → β → α) : (room : Nat) → α → Reader α
  | 0, left => return left
  | room + 1, left => do
    match op? (← kind) with
    | none => return left
    | some op =>
      let _ ← advance
      let right ← operand
      chainWithin op? operand join room (join left op right)

/-- A row of operands after `left`, joined from left to right. No more operators can follow
than there are tokens. -/
def chain {α β : Type} (op? : Kind → Option BinaryOp) (operand : Reader β)
    (join : α → BinaryOp → β → α) (left : α) : Reader α := do
  chainWithin op? operand join (← get).remaining left

/-- The arguments of a call, up to its closing parenthesis. -/
def argumentsOf (inner : Reader Expr) : Reader (List Expr) := do
  if (← kind) = .closeParen then
    return []
  else
    separated inner

/-- A number, a variable, a call, or an expression in parentheses. -/
def factorOf (inner : Reader Expr) : Reader Factor := do
  let p ← get
  let line := p.current.line
  match p.kind with
  | .number => return .number (← advance).text line
  | .identifier =>
    let name := (← advance).text
    if (← kind) = .openParen then
      let _ ← advance
      let arguments ← argumentsOf inner
      let _ ← expect .closeParen
      return .call name arguments line
    else
      return .ident name line
  | .openParen =>
    let _ ← advance
    let e ← inner
    let _ ← expect .closeParen
    return .group e line
  | _ => throw (p.mismatched Fault.operandStarts)

/-- Factors between products, and then factors between comparisons. -/
def termOf (inner : Reader Expr) : Reader Term := do
  let first ← factorOf inner
  -- after the first comparison no product is read any more, so `a < b * c` ends before `*`
  let product ← chain BinaryOp.multiplicative? (factorOf inner) .binary (.factor first)
  chain BinaryOp.relational? (factorOf inner) .binary product

/-- Terms between sums and differences. -/
def exprOf (inner : Reader Expr) : Reader Expr := do
  let first ← termOf inner
  chain BinaryOp.additive? (termOf inner) .binary (.term first)

/-- An expression in which at most `depth` parentheses are open at once. -/
def exprWithin : (depth : Nat) → Reader Expr
  | 0 => exprOf (refuse fun p => p.mismatched Fault.operandStarts)
  | depth + 1 => exprOf (exprWithin depth)

/-- An expression. -/
def expr : Reader Expr := do
  exprWithin (← get).remaining

/-- A term. -/
def term : Reader Term :=
  termOf expr

/-- A factor. -/
def factor : Reader Factor :=
  factorOf expr

end Tercet.Reader
