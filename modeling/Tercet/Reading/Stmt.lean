import Tercet.Reading.Expr
import Tercet.Tree.Stmt

/-!
# `Tercet.Reading.Stmt`: reading statements and programs

Each form of statement has its reader, over a reader for the statements inside it. A row of
statements is read with recovery: a statement that is refused is reported, the rest of it is
passed, and the row goes on. The knot is tied by `stmtWithin`, which counts how deep
statements may still nest; `Reader.stmt` allows as many levels as there are tokens, and every
level takes one.
-/

set_option autoImplicit false

namespace Tercet.Reader

/-- The name of a data type. -/
def dataType : Reader DataType := do
  let p ← get
  match DataType.ofKind? p.kind with
  | some type =>
    let _ ← advance
    return type
  | none => throw (p.mismatched Fault.typeNames)

/-- A declared name, perhaps with its first value. -/
def declarator : Reader Declarator := do
  let name := (← expect .identifier).text
  if (← kind) = .assign then
    let _ ← advance
    return ⟨name, some (← expr)⟩
  else
    return ⟨name, none⟩

/-- Variables of one type. No variable is void. -/
def declaration : Reader Declaration := do
  let p ← get
  if p.kind = .kwVoid then
    throw ⟨.noViableAlternative ("void" ++ (p.peek 1).text), p.current.line⟩
  let type ← dataType
  let declarators ← separated declarator
  return ⟨type, declarators, p.current.line⟩

/-- A value stored into a variable. -/
def assignment : Reader Assignment := do
  let line ← line
  let target := (← expect .identifier).text
  let p ← get
  match AssignOp.ofKind? p.kind with
  | none => throw ⟨.noViableAlternative (target ++ p.current.text), p.current.line⟩
  | some op =>
    let _ ← advance
    let value ← expr
    return ⟨target, op, value, line⟩

/-- A parameter of a function. -/
def parameter : Reader Parameter := do
  let type ← dataType
  let name := (← expect .identifier).text
  return ⟨type, name⟩

/-- The parameters of a function, up to the closing parenthesis. -/
def parameters : Reader (List Parameter) := do
  if (← kind) = .closeParen then
    return []
  else
    separated parameter

/-- An expression in parentheses. -/
def condition : Reader Expr := do
  let _ ← expect .openParen
  let e ← expr
  let _ ← expect .closeParen
  return e

/-- What a counted loop does after each round. -/
def forStep : Reader ForStep := do
  let p ← get
  -- the sign after the name decides before the name itself is looked at
  match (p.peek 1).kind with
  | .increment =>
    let target := (← expect .identifier).text
    let _ ← advance
    return .increment target p.current.line
  | .decrement =>
    let target := (← expect .identifier).text
    let _ ← advance
    return .decrement target p.current.line
  | _ => return .assignment (← assignment)

/-- What a counted loop does at its start, up to the first semicolon. -/
def forInit : Reader (Option ForInit) := do
  let kind ← kind
  if kind = .semicolon then
    return none
  else if kind.isType then
    return some (.declaration (← declaration))
  else
    return some (.assignment (← assignment))

/-- A part that may be left out, before a token of kind `close`. -/
def optionalBefore {α : Type} (close : Kind) (part : Reader α) : Reader (Option α) := do
  if (← kind) = close then
    return none
  else
    return some (← part)

/-- A statement; or nothing, where it is refused. Then the refusal is reported and the rest
of the statement passed. -/
def recovered (inner : Reader Stmt) (p : Parser) : Option Stmt × Parser :=
  match inner p with
  | .ok s q => (some s, q)
  | .error e q =>
    -- reports made before the refusal are in the log of `q` and stand before this one
    (none, { q.report e.report with toStream := q.toStream.synchronize p.position })

/-- Statements up to a kind `stop` or the end, at most `room` of them, with recovery. -/
def rowWithin (inner : Reader Stmt) (stop : Option Kind) :
    (room : Nat) → Parser → List Stmt × Parser
  | 0, p => ([], p)
  | room + 1, p =>
    if p.atEnd || some p.kind == stop then
      ([], p)
    else
      let (first, q) := recovered inner p
      let (others, r) := rowWithin inner stop room q
      (first.toList ++ others, r)

/-- Statements up to a kind `stop` or the end, with recovery. Each takes a token, so there
are no more of them than tokens. -/
def rowOf (inner : Reader Stmt) (stop : Option Kind) (p : Parser) : List Stmt × Parser :=
  rowWithin inner stop p.remaining p

/-- Statements between braces, with the line of the opening one. -/
def blockOf (inner : Reader Stmt) : Reader (List Stmt × Nat) := do
  let line := (← expect .openBrace).line
  let body ← modifyGet (rowOf inner (some .closeBrace))
  let _ ← expect .closeBrace
  return (body, line)

/-- A function, with its body or announced without. -/
def functionOf (inner : Reader Stmt) : Reader Stmt := do
  let line ← line
  let returnType ← dataType
  let name := (← expect .identifier).text
  let _ ← expect .openParen
  let parameters ← parameters
  let _ ← expect .closeParen
  let signature : Signature := ⟨returnType, name, parameters, line⟩
  if (← kind) = .semicolon then
    let _ ← advance
    return .prototype signature
  else
    let (body, bodyLine) ← blockOf inner
    return .function signature body bodyLine

/-- What starts with a type: a function if a name and a parenthesis follow, else variables. -/
def typedOf (inner : Reader Stmt) : Reader Stmt := do
  let p ← get
  -- whether the first token really is a type is left to what reads it
  if (p.peek 1).kind = .identifier && (p.peek 2).kind = .openParen then
    functionOf inner
  else
    let d ← declaration
    expectSemicolon
    return .declaration d

/-- A branch, whatever its first token. -/
def branchOf (inner : Reader Stmt) : Reader Stmt := do
  let line := (← advance).line
  let cond ← condition
  let onTrue ← inner
  -- an `else` goes with the nearest branch, because the inner one has been offered it first
  if (← kind) = .kwElse then
    let _ ← advance
    let onFalse ← inner
    return .ifElse cond onTrue onFalse line
  else
    return .ifThen cond onTrue line

/-- A loop with a condition, whatever its first token. -/
def whileOf (inner : Reader Stmt) : Reader Stmt := do
  let line := (← advance).line
  let cond ← condition
  let body ← inner
  return .whileLoop cond body line

/-- A counted loop, whatever its first token. -/
def forOf (inner : Reader Stmt) : Reader Stmt := do
  let line := (← advance).line
  let _ ← expect .openParen
  let init ← forInit
  let _ ← expect .semicolon
  let cond ← optionalBefore .semicolon expr
  let _ ← expect .semicolon
  let step ← optionalBefore .closeParen forStep
  let _ ← expect .closeParen
  let body ← inner
  return .forLoop init cond step body line

/-- A return, whatever its first token. -/
def resultStmt : Reader Stmt := do
  let line := (← advance).line
  let value ← optionalBefore .semicolon expr
  expectSemicolon
  return .result value line

/-- A statement of a given form. -/
def formOf (inner : Reader Stmt) : Form → Reader Stmt
  | .typed => typedOf inner
  | .assignment => do
    let a ← assignment
    expectSemicolon
    return .assignment a
  | .branch => branchOf inner
  | .whileLoop => whileOf inner
  | .forLoop => forOf inner
  | .block => do
    let (body, line) ← blockOf inner
    return .block body line
  | .result => resultStmt
  | .any => inner

/-- A statement of the form that the table gives for its first token. -/
def stmtOf (inner : Reader Stmt) : Reader Stmt := do
  let p ← get
  match p.forms p.kind with
  | some form => formOf inner form
  | none => throw ⟨.extraneous p.current.text, p.current.line⟩

/-- A statement in which statements nest at most `depth` levels deep. -/
def stmtWithin : (depth : Nat) → Reader Stmt
  | 0 => stmtOf (refuse fun p => ⟨.extraneous p.current.text, p.current.line⟩)
  | depth + 1 => stmtOf (stmtWithin depth)

/-- A statement. -/
def stmt : Reader Stmt := do
  stmtWithin (← get).remaining

/-- A statement of a given form. -/
def form (f : Form) : Reader Stmt :=
  formOf stmt f

/-- Statements up to a kind `stop` or the end, with recovery. -/
def row (stop : Option Kind) (p : Parser) : List Stmt × Parser :=
  rowOf stmt stop p

end Tercet.Reader

namespace Tercet.Program

/-- The program that a row of tokens spells, with what is reported on the way. Statements
that cannot be read are left out. -/
def ofTokens (tokens : List Token) : Program × Log :=
  let (body, p) := Reader.row none (Parser.ofTokens tokens Forms.standard [])
  (⟨body⟩, p.log)

end Tercet.Program
