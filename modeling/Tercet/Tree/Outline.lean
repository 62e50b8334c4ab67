import Tercet.Text.Outline
import Tercet.Tree.Stmt

/-!
# `Tercet.Tree.Outline`: trees as outlines

The outline of a program names every node and every part of it. A row of operands is shown
as its first operand and the list of the others, each with the operator before it.
-/

set_option autoImplicit false

namespace Tercet

/-- The name of a data type in an outline. -/
def DataType.outline : DataType → Outline
  | .int => .atom "Int"
  | .double => .atom "Double"
  | .void => .atom "Void"

/-- A row of operands: the first, and the others with their operators. -/
def Outline.operands (name : String) (row : Outline × List Outline) : Outline :=
  .record name [("first", row.1), ("rest", .list row.2)]

/-- An operand with the operator before it. -/
def Outline.joined (op : BinaryOp) (operand : Outline) : Outline :=
  .row [.atom op.name, operand]

mutual

/-- The terms of an expression. -/
def Expr.outlineRow : Expr → Outline × List Outline
  | .term t => (.operands "Term" t.outlineRow, [])
  | .binary left op right =>
    let (first, rest) := left.outlineRow
    (first, rest ++ [.joined op (.operands "Term" right.outlineRow)])

/-- The factors of a term. -/
def Term.outlineRow : Term → Outline × List Outline
  | .factor f => (f.outline, [])
  | .binary left op right =>
    let (first, rest) := left.outlineRow
    (first, rest ++ [.joined op right.outline])

/-- A factor. -/
def Factor.outline : Factor → Outline
  | .number text line => .record "Number" [("text", .quoted text), ("line", .nat line)]
  | .ident name line => .record "Identifier" [("name", .quoted name), ("line", .nat line)]
  | .call name args line =>
    .record "Call"
      [("name", .quoted name), ("arguments", .list (outlineArguments args)), ("line", .nat line)]
  | .group inner line =>
    .record "Group"
      [("inner", .operands "Expression" inner.outlineRow), ("line", .nat line)]

/-- The arguments of a call. -/
def outlineArguments : List Expr → List Outline
  | [] => []
  | e :: es => .operands "Expression" e.outlineRow :: outlineArguments es

end

/-- An expression. -/
def Expr.outline (e : Expr) : Outline :=
  .operands "Expression" e.outlineRow

/-- A declared name. -/
def Declarator.outline (d : Declarator) : Outline :=
  .record "Declarator"
    [("name", .quoted d.name), ("initializer", .optional (d.initializer.map Expr.outline))]

/-- A declaration. -/
def Declaration.outline (d : Declaration) : Outline :=
  .record "DeclarationStmt"
    [("data_type", d.type.outline), ("declarators", .list (d.declarators.map Declarator.outline)),
     ("line", .nat d.line)]

/-- An assignment. -/
def Assignment.outline (a : Assignment) : Outline :=
  .record "AssignmentStmt"
    [("target", .quoted a.target), ("operator", .atom a.op.name), ("value", a.value.outline),
     ("line", .nat a.line)]

/-- The start of a counted loop. -/
def ForInit.outline : ForInit → Outline
  | .declaration d => .tagged "Declaration" d.outline
  | .assignment a => .tagged "Assignment" a.outline

/-- What a counted loop does after each round. -/
def ForStep.outline : ForStep → Outline
  | .increment target line => .record "Increment" [("target", .quoted target), ("line", .nat line)]
  | .decrement target line => .record "Decrement" [("target", .quoted target), ("line", .nat line)]
  | .assignment a => .tagged "Assignment" a.outline

/-- A parameter. -/
def Parameter.outline (p : Parameter) : Outline :=
  .record "Parameter" [("name", .quoted p.name), ("data_type", p.type.outline)]

/-- The parts of the head of a function that stand before its body. -/
def Signature.outlineFields (s : Signature) : List (String × Outline) :=
  [("return_type", s.returnType.outline), ("name", .quoted s.name),
   ("parameters", .list (s.parameters.map Parameter.outline))]

/-- Statements in braces. -/
def Outline.block (body : List Outline) (line : Nat) : Outline :=
  .record "BlockStmt" [("body", .list body), ("line", .nat line)]

/-- A branch. -/
def Outline.branch (condition onTrue : Outline) (onFalse : Option Outline) (line : Nat) : Outline :=
  .tagged "If" (.record "IfStmt"
    [("condition", condition), ("then_body", onTrue), ("else_body", .optional onFalse),
     ("line", .nat line)])

mutual

/-- A statement. -/
def Stmt.outline : Stmt → Outline
  | .block body line => .tagged "Block" (.block (outlineAll body) line)
  | .declaration d => .tagged "Declaration" d.outline
  | .assignment a => .tagged "Assignment" a.outline
  | .ifThen condition body line => .branch condition.outline body.outline none line
  | .ifElse condition onTrue onFalse line =>
    .branch condition.outline onTrue.outline (some onFalse.outline) line
  | .whileLoop condition body line =>
    .tagged "While" (.record "WhileStmt"
      [("condition", condition.outline), ("body", body.outline), ("line", .nat line)])
  | .forLoop init condition step body line =>
    .tagged "For" (.record "ForStmt"
      [("init", .optional (init.map ForInit.outline)),
       ("condition", .optional (condition.map Expr.outline)),
       ("step", .optional (step.map ForStep.outline)),
       ("body", body.outline), ("line", .nat line)])
  | .function s body bodyLine =>
    .tagged "Function" (.record "FunctionStmt"
      (s.outlineFields ++ [("body", .block (outlineAll body) bodyLine), ("line", .nat s.line)]))
  | .prototype s =>
    .tagged "Prototype" (.record "PrototypeStmt" (s.outlineFields ++ [("line", .nat s.line)]))
  | .result value line =>
    .tagged "Return" (.record "ReturnStmt"
      [("value", .optional (value.map Expr.outline)), ("line", .nat line)])

/-- A row of statements. -/
def outlineAll : List Stmt → List Outline
  | [] => []
  | s :: more => s.outline :: outlineAll more

end

/-- A program. -/
def Program.outline (p : Program) : Outline :=
  .record "Program" [("body", .list (outlineAll p.body))]

end Tercet
