import Tercet.Symbol.Scope

/-!
# `Tercet.Symbol.Table`: nested scopes

A table is a stack of scopes, the innermost first. Names are declared in the innermost scope
and found from the innermost outwards. There may be no scope at all; then nothing can be
declared or found.
-/

set_option autoImplicit false

namespace Tercet

/-- Open scopes, the innermost first. -/
structure Table where
  scopes : List Scope

namespace Table

/-- The table with one empty scope. -/
def initial : Table :=
  ⟨[Scope.empty]⟩

/-- The table with a new innermost scope. -/
def push (t : Table) : Table :=
  ⟨Scope.empty :: t.scopes⟩

/-- The innermost scope and the table without it. -/
def pop? (t : Table) : Option (Scope × Table) :=
  match t.scopes with
  | [] => none
  | s :: rest => some (s, ⟨rest⟩)

/-- The table without its innermost scope. -/
def pop (t : Table) : Table :=
  ⟨t.scopes.tail⟩

/-- The number of open scopes. -/
def depth (t : Table) : Nat :=
  t.scopes.length

/-- The innermost scope. -/
def innermost? (t : Table) : Option Scope :=
  t.scopes.head?

/-- The table with its innermost scope changed, where the change succeeds. -/
def modifyInnermost? (t : Table) (f : Scope → Option Scope) : Option Table :=
  match t.scopes with
  | [] => none
  | s :: rest => (f s).map fun s' => ⟨s' :: rest⟩

/-- The table with a symbol declared in the innermost scope, unless its name is taken there
or no scope is open. -/
def declare? (t : Table) (x : Symbol) : Option Table :=
  t.modifyInnermost? fun s => s.insert? x

/-- What a name stands for in the innermost scope alone. -/
def lookup? (t : Table) (name : String) : Option Symbol :=
  t.innermost?.bind fun s => s.get? name

/-- What a name stands for: its symbol in the innermost scope that has one. -/
def resolve? (t : Table) (name : String) : Option Symbol :=
  t.scopes.findSome? fun s => s.get? name

/-- Scopes with the symbol that a name stands for changed. -/
def modifyIn? (name : String) (f : Symbol → Symbol) : List Scope → Option (List Scope)
  | [] => none
  | s :: rest =>
    match s.modify? name f with
    | some s' => some (s' :: rest)
    | none => (modifyIn? name f rest).map (s :: ·)

/-- The table with the symbol that a name stands for changed, if there is one. -/
def modify? (t : Table) (name : String) (f : Symbol → Symbol) : Option Table :=
  (modifyIn? name f t.scopes).map Table.mk

/-- The table with the symbol that a name stands for marked as read. -/
def markUsed (t : Table) (name : String) : Table :=
  (t.modify? name Symbol.markUsed).getD t

/-- The table with the symbol that a name stands for given a value on a line. -/
def store (t : Table) (name : String) (line : Nat) : Table :=
  (t.modify? name (Symbol.store line)).getD t

/-- The open scopes, the outermost first. -/
def outermostFirst (t : Table) : List Scope :=
  t.scopes.reverse

/-- The symbols of all open scopes, the outermost scope first. -/
def symbols (t : Table) : List Symbol :=
  t.outermostFirst.flatMap Scope.toList

/-- One scope as listings show it: its level and size, then its symbols. -/
def scopeLines (level : Nat) (s : Scope) : List String :=
  ("Contexto " ++ toString level ++ " (" ++ toString s.size ++ " símbolos)")
    :: s.toList.map fun x => "  " ++ x.display

/-- The table as listings show it, the outermost scope first. -/
def display (t : Table) : String :=
  let lines := t.outermostFirst.zipIdx.flatMap fun (s, level) => scopeLines level s
  String.join (lines.map (· ++ "\n"))

instance : ToString Table := ⟨display⟩

end Table

end Tercet
