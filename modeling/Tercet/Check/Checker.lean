import Tercet.Check.Typing

/-!
# `Tercet.Check.Checker`: the rules about names

A checker is a table of the names in force and a log. Each rule looks at one event of a
program (a declaration, a read, a store) and answers whether all is well, changing the table
and adding to the log. No rule stops the check: where something is wrong, the next event is
looked at all the same.
-/

set_option autoImplicit false

namespace Tercet

/-- The names in force, and what has been reported. -/
structure Checker where
  table : Table
  log : Log

namespace Checker

/-- The checker before the first event. -/
def initial : Checker :=
  ⟨Table.initial, []⟩

/-- Words that are never taken for the name of a variable. -/
def reservedWords : List String :=
  ["int", "double", "if", "while", "for", "return"]

/-- Whether a name is never taken for a variable. -/
def isReserved (name : String) : Bool :=
  reservedWords.contains name

/-- The checker with more in its log. -/
def reportAll (c : Checker) (log : Log) : Checker :=
  { c with log := c.log ++ log }

/-- The checker with one more diagnostic in its log. -/
def report (c : Checker) (cause : Cause) (line : Nat) : Checker :=
  c.reportAll [⟨cause, line⟩]

/-- The checker with a new innermost scope. -/
def push (c : Checker) : Checker :=
  { c with table := c.table.push }

/-- The checker without its innermost scope. -/
def pop (c : Checker) : Checker :=
  { c with table := c.table.pop }

/-- Declares a symbol in the innermost scope, if its name is free there. -/
def declare (c : Checker) (x : Symbol) : Bool × Checker :=
  match c.table.declare? x with
  | some table => (true, { c with table })
  | none => (false, c)

/-- A name must not be taken in the innermost scope. -/
def checkFresh (c : Checker) (name : String) (line : Nat) : Bool × Checker :=
  match c.table.lookup? name with
  | some _ => (false, c.report (.redeclared name) line)
  | none => (true, c)

/-- The type of an expression. -/
def infer (c : Checker) (e : Expr) : Option DataType × Checker :=
  let (type, log) := e.infer c.table
  (type, c.reportAll log)

/-- The type of what an operator gives. -/
def combine (c : Checker) (left right : Option DataType) (op : BinaryOp) (line : Nat) :
    Option DataType × Checker :=
  let (type, log) := op.combine left right line
  (type, c.reportAll log)

/-- Whether a value of one type fits a variable of another: the types are the same, or an
integer becomes a double. -/
def fits (expected actual : DataType) : Bool :=
  expected = actual || (expected = .double && actual = .int)

/-- A value must fit what it is stored into. Of unknown types nothing is said. -/
def checkAssignable (c : Checker) (expected actual : Option DataType) (line : Nat)
    (context : String) : Bool × Checker :=
  match expected, actual with
  | some e, some a =>
    if fits e a then (true, c)
    else (false, c.report (.incompatibleType e.name a.name context) line)
  | _, _ => (true, c)

/-- A variable is declared, perhaps with a first value, which must fit. -/
def checkDeclaration (c : Checker) (name : String) (type : DataType)
    (initializer : Option Expr) (line : Nat) : Bool × Checker :=
  match c.checkFresh name line with
  | (false, c) => (false, c)
  | (true, c) =>
    match initializer with
    | none => c.declare (.var (Variable.declared name type line none))
    | some e =>
      let (actual, c) := c.infer e
      -- a value that does not fit is reported, and the variable is declared all the same
      let (_, c) := c.checkAssignable (some type) actual line ("Inicialización de '" ++ name ++ "'")
      c.declare (.var (Variable.declared name type line (some line)))

/-- A parameter is declared. It has a value from the start. -/
def declareParameter (c : Checker) (p : Parameter) (line : Nat) : Bool × Checker :=
  match c.checkFresh p.name line with
  | (false, c) => (false, c)
  | (true, c) => c.declare (.var (Variable.declared p.name p.type line (some line)))

/-- Whether a function may be declared over what its name stands for: over a prototype of
the same return type. -/
def completes (signature : Signature) : Symbol → Bool
  | .function existing defined => !defined && existing.returnType = signature.returnType
  | .var _ => false

/-- A function is announced or defined. A prototype may be repeated, and completed once. -/
def declareFunction (c : Checker) (signature : Signature) (defined : Bool) : Bool × Checker :=
  match c.table.lookup? signature.name with
  | none => c.declare (.function signature defined)
  | some existing =>
    if completes signature existing then
      -- a repeated prototype changes nothing, a definition takes the prototype's place
      if defined then
        match c.table.modifyInnermost? fun s => s.replace? (.function signature true) with
        | some table => (true, { c with table })
        | none => (false, c)
      else
        (true, c)
    else
      (false, c.report (.functionRedeclared signature.name) signature.line)

/-- A name is read. It must stand for something that has a value, and then counts as used. -/
def checkUse (c : Checker) (name : String) (line : Nat) : Bool × Checker :=
  match c.table.resolve? name with
  | none => (false, c.report (.undeclared name) line)
  | some x =>
    if x.isInitialized then (true, { c with table := c.table.markUsed name })
    else (false, c.report (.uninitialized name) line)

/-- A value is stored into a name. The name counts as having a value from here on, also where
the value does not fit. -/
def checkAssignment (c : Checker) (name : String) (op : AssignOp) (value : Expr) (line : Nat) :
    Bool × Checker :=
  match c.table.resolve? name with
  | none => (false, c.report (.undeclared name) line)
  | some x =>
    -- the value is looked at after the store, so a first `x = x` finds `x` with a value
    let c := { c with table := c.table.store name line }
    let (actual, c) := c.infer value
    let (actual, c) :=
      match op.binary? with
      | none => (actual, c)
      | some binary => c.combine (some x.type) actual binary line
    let (_, c) := c.checkAssignable (some x.type) actual line ("Asignación a '" ++ name ++ "'")
    (true, c)

/-- A name is counted up or down: read, then stored into. -/
def checkStep (c : Checker) (name : String) (line : Nat) : Bool × Checker :=
  match c.checkUse name line with
  | (false, c) => (false, c)
  | (true, c) => (true, { c with table := c.table.store name line })

/-- What there is to say about a symbol that is never read. -/
def unused? : Symbol → Option Diagnostic
  | .var v => if v.used then none else some ⟨.unused v.name, v.line⟩
  | .function _ _ => none

/-- Every variable of the open scopes must have been read. -/
def checkUnused (c : Checker) : Checker :=
  c.reportAll (c.table.symbols.filterMap unused?)

end Checker

end Tercet
