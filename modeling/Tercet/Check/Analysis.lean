import Tercet.Check.Checker
import Tercet.Check.Stats
import Tercet.Tree.Stmt

/-!
# `Tercet.Check.Analysis`: checking a whole program

One pass over a program, in the order in which it is written, applies the rules and counts
the constructs. A function, a branch and a loop each have a scope of their own, in which the
two sides of a branch share; a plain block has none. The value of a declaration is looked at
before the name is declared, the target of a store before its value, and a function is
declared in the scope around it when its body has been passed. At the end, what has not been
read in the scopes still open is reported.
-/

set_option autoImplicit false

namespace Tercet

/-- A checker on its way through a program, with the counts so far. -/
structure Analysis extends Checker where
  stats : Stats

namespace Analysis

/-- Before the first statement. -/
def initial : Analysis :=
  { Checker.initial with stats := Stats.zero }

/-- One more node of the tree. -/
def visit (a : Analysis) : Analysis :=
  { a with stats := { a.stats with nodes := a.stats.nodes + 1 } }

/-- One more declaration. -/
def countDeclaration (a : Analysis) : Analysis :=
  { a with stats := { a.stats with declarations := a.stats.declarations + 1 } }

/-- One more function. -/
def countFunction (a : Analysis) : Analysis :=
  { a with stats := { a.stats with functions := a.stats.functions + 1 } }

/-- One more branch. -/
def countIf (a : Analysis) : Analysis :=
  { a with stats := { a.stats with ifs := a.stats.ifs + 1 } }

/-- One more loop with a condition. -/
def countWhile (a : Analysis) : Analysis :=
  { a with stats := { a.stats with whiles := a.stats.whiles + 1 } }

/-- One more counted loop. -/
def countFor (a : Analysis) : Analysis :=
  { a with stats := { a.stats with fors := a.stats.fors + 1 } }

/-- One more assignment. -/
def countAssignment (a : Analysis) : Analysis :=
  { a with stats := { a.stats with assignments := a.stats.assignments + 1 } }

/-- The analysis after a change of its checker. -/
def update (a : Analysis) (f : Checker → Checker) : Analysis :=
  { a with toChecker := f a.toChecker }

/-- Opens a scope. -/
def push (a : Analysis) : Analysis :=
  a.update Checker.push

/-- Closes the innermost scope. -/
def pop (a : Analysis) : Analysis :=
  a.update Checker.pop

/-- Looks at the types of an expression. -/
def inferred (a : Analysis) (e : Expr) : Analysis :=
  a.update fun c => (c.infer e).2

/-- A name is read in an expression. -/
def use (a : Analysis) (name : String) (line : Nat) : Analysis :=
  if Checker.isReserved name then a else a.update fun c => (c.checkUse name line).2

mutual

/-- Passes the terms of an expression. -/
def terms : Expr → Analysis → Analysis
  | .term t, a => factors t a.visit
  | .binary left _ right, a => factors right (terms left a).visit

/-- Passes the factors of a term. -/
def factors : Term → Analysis → Analysis
  | .factor f, a => factor f a.visit
  | .binary left _ right, a => factor right (factors left a).visit

/-- Passes a factor. The arguments of a call are looked at one by one. -/
def factor : Factor → Analysis → Analysis
  | .number _ _, a => a
  | .ident name line, a => a.use name line
  | .call name args line, a => arguments args (a.use name line)
  | .group inner _, a => terms inner a.visit

/-- Passes the arguments of a call. -/
def arguments : List Expr → Analysis → Analysis
  | [], a => a
  | e :: es, a => arguments es (terms e (a.inferred e).visit)

end

/-- Passes an expression. -/
def expr (e : Expr) (a : Analysis) : Analysis :=
  terms e a.visit

/-- Looks at the types of an expression and passes it. -/
def typedExpr (e : Expr) (a : Analysis) : Analysis :=
  expr e (a.inferred e)

/-- Passes one declared name. -/
def declarator (type : DataType) (line : Nat) (a : Analysis) (d : Declarator) : Analysis :=
  -- the value is passed while the name is not yet in force
  let a :=
    match d.initializer with
    | some e => expr e a
    | none => a
  a.update fun c => (c.checkDeclaration d.name type d.initializer line).2

/-- Passes a declaration. -/
def declaration (d : Declaration) (a : Analysis) : Analysis :=
  d.declarators.foldl (declarator d.type d.line) a

/-- Passes an assignment. -/
def assignment (s : Assignment) (a : Analysis) : Analysis :=
  expr s.value (a.update fun c => (c.checkAssignment s.target s.op s.value s.line).2)

/-- Passes the start of a counted loop. -/
def forInit : Option ForInit → Analysis → Analysis
  | some (.declaration d), a => declaration d a
  | some (.assignment s), a => assignment s a
  | none, a => a

/-- Passes what a counted loop does after each round. -/
def forStep : Option ForStep → Analysis → Analysis
  | some (.increment target line), a => a.update fun c => (c.checkStep target line).2
  | some (.decrement target line), a => a.update fun c => (c.checkStep target line).2
  | some (.assignment s), a => assignment s a
  | none, a => a

/-- Passes an expression that may be left out. -/
def optionalExpr : Option Expr → Analysis → Analysis
  | some e, a => typedExpr e a
  | none, a => a

/-- Declares the parameters of a function. -/
def parameters (s : Signature) (a : Analysis) : Analysis :=
  s.parameters.foldl (fun a p => a.update fun c => (c.declareParameter p s.line).2) a

/-- Declares a function. -/
def signature (s : Signature) (defined : Bool) (a : Analysis) : Analysis :=
  a.update fun c => (c.declareFunction s defined).2

mutual

/-- Passes a statement. -/
def stmt : Stmt → Analysis → Analysis
  | .block body _, a => stmts body a.visit
  | .declaration d, a => declaration d a.visit.countDeclaration
  | .assignment s, a => assignment s a.visit.countAssignment
  | .ifThen condition body _, a =>
    (stmt body (typedExpr condition a.visit.countIf.push)).pop
  | .ifElse condition onTrue onFalse _, a =>
    (stmt onFalse (stmt onTrue (typedExpr condition a.visit.countIf.push))).pop
  | .whileLoop condition body _, a =>
    (stmt body (typedExpr condition a.visit.countWhile.push)).pop
  | .forLoop init condition step body _, a =>
    (stmt body (forStep step (optionalExpr condition (forInit init a.visit.countFor.push)))).pop
  -- the function itself is not in force within its body
  | .function s body _, a =>
    signature s true (stmts body (parameters s a.visit.countFunction.push)).pop
  | .prototype s, a => signature s false a.visit
  | .result value _, a => optionalExpr value a.visit

/-- Passes a row of statements. -/
def stmts : List Stmt → Analysis → Analysis
  | [], a => a
  | s :: more, a => stmts more (stmt s a)

end

end Analysis

/-- Checks a program. -/
def Program.analyze (p : Program) : Analysis :=
  (Analysis.stmts p.body Analysis.initial).update Checker.checkUnused

end Tercet
