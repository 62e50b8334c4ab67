import Mathlib.Data.Set.Card
import Tercet.Tree.Stmt

/-!
# `Tercet.Proofs.Tree.Nodes`: the nodes of a tree and their places

The tree of a program has four sorts of nodes: statements, expressions, terms and factors. Each
node has a row of children, and a place is a path of child numbers, from a row of trees down to a
node (`rowAt?`).

Counting places needs no list of them. They are a set, and its size is put together from below:
the places of a node are its own and those in its children (`encard_places`), and the places in a
row are those in the first tree and those in the others (`encard_rowPlaces_cons`).
-/

set_option autoImplicit false

namespace Tercet

/-! ### The tree of a program -/

/-- A node of a tree. -/
inductive Node where
  | stmt (s : Stmt)
  | expr (e : Expr)
  | term (t : Term)
  | factor (f : Factor)

/-- What a node can be. -/
inductive Construct where
  | block | declaration | assignment | branch | whileLoop | forLoop | function | prototype | result
  | expr | term | factor
deriving DecidableEq, Repr

/-- Whether nodes of the construct are statements. -/
def Construct.isStatement : Construct → Bool
  | expr | term | factor => false
  | _ => true

/-- What a statement is. -/
def Stmt.construct : Stmt → Construct
  | .block _ _ => .block
  | .declaration _ => .declaration
  | .assignment _ => .assignment
  | .ifThen _ _ _ | .ifElse _ _ _ _ => .branch
  | .whileLoop _ _ _ => .whileLoop
  | .forLoop _ _ _ _ _ => .forLoop
  | .function _ _ _ => .function
  | .prototype _ => .prototype
  | .result _ _ => .result

/-- What a node is. -/
def Node.construct : Node → Construct
  | .stmt s => s.construct
  | .expr _ => .expr
  | .term _ => .term
  | .factor _ => .factor

/-- The terms of an expression. -/
def Expr.terms (e : Expr) : List Term :=
  e.first :: e.rest.map Prod.snd

/-- The factors of a term. -/
def Term.factors (t : Term) : List Factor :=
  t.first :: t.rest.map Prod.snd

/-- The first values in a declaration. -/
def Declaration.values (d : Declaration) : List Expr :=
  d.declarators.flatMap fun one => one.initializer.toList

/-- The expressions in the start of a counted loop. -/
def ForInit.values : Option ForInit → List Expr
  | some (.declaration d) => d.values
  | some (.assignment a) => [a.value]
  | none => []

/-- The expressions in what a counted loop does after each round. -/
def ForStep.values : Option ForStep → List Expr
  | some (.assignment a) => [a.value]
  | _ => []

/-- The nodes right below a statement. A declaration or an assignment in the head of a counted loop
is no node, but its expressions are, and the braces of a function are not a block. -/
def Stmt.children : Stmt → List Node
  | .block body _ | .function _ body _ => body.map .stmt
  | .declaration d => d.values.map .expr
  | .assignment a => [.expr a.value]
  | .ifThen condition body _ | .whileLoop condition body _ => [.expr condition, .stmt body]
  | .ifElse condition onTrue onFalse _ => [.expr condition, .stmt onTrue, .stmt onFalse]
  | .forLoop init condition step body _ =>
    (ForInit.values init ++ (condition.toList ++ ForStep.values step)).map .expr ++ [.stmt body]
  | .prototype _ => []
  | .result value _ => value.toList.map .expr

/-- The nodes right below a node. -/
def Node.children : Node → List Node
  | .stmt s => s.children
  | .expr e => e.terms.map .term
  | .term t => t.factors.map .factor
  | .factor (.call _ arguments _) => arguments.map .expr
  | .factor (.group inner _) => [.expr inner]
  | .factor (.number _ _) | .factor (.ident _ _) => []

/-! ### Places -/

/-- The node that a path of child numbers leads to. -/
def Node.at? : Node → List Nat → Option Node
  | n, [] => some n
  | n, i :: path => n.children[i]?.bind fun child => child.at? path

/-- The node at a place in a row of trees. The first number says in which. -/
def rowAt? (row : List Node) : List Nat → Option Node
  | [] => none
  | i :: path => row[i]?.bind fun n => n.at? path

/-- The places below a node, itself included, at which there is a node of one of the constructs. -/
def Node.places (n : Node) (kinds : Construct → Bool) : Set (List Nat) :=
  {path | ∃ m, n.at? path = some m ∧ kinds m.construct = true}

/-- The places in a row of trees at which there is a node of one of the constructs. -/
def rowPlaces (row : List Node) (kinds : Construct → Bool) : Set (List Nat) :=
  {path | ∃ m, rowAt? row path = some m ∧ kinds m.construct = true}

/-- The places in a program at which there is a node of one of the constructs. -/
def Program.places (p : Program) (kinds : Construct → Bool) : Set (List Nat) :=
  rowPlaces (p.body.map .stmt) kinds

section Places

variable {row row' : List Node} {n : Node} {kinds kinds' : Construct → Bool}

/-- The empty path leads to no node of a row, since its first number would say in which tree. -/
theorem nil_not_mem_rowPlaces : [] ∉ rowPlaces row kinds := by
  rintro ⟨m, hm, _⟩
  cases hm

@[simp] theorem rowPlaces_nil : rowPlaces [] kinds = ∅ := by
  ext path
  cases path <;> simp [rowPlaces, rowAt?]

/-- A path from a node is empty or a path into the row of its children. -/
theorem encard_places :
    (n.places kinds).encard
      = (if kinds n.construct then 1 else 0) + (rowPlaces n.children kinds).encard := by
  cases hkind : kinds n.construct with
  | false =>
    have hplaces : n.places kinds = rowPlaces n.children kinds := by
      ext path
      cases path with
      | nil => simp [Node.places, Node.at?, hkind, nil_not_mem_rowPlaces]
      | cons i path => rfl
    rw [hplaces]
    simp
  | true =>
    -- the empty path leads to the node itself
    have hplaces : n.places kinds = insert [] (rowPlaces n.children kinds) := by
      ext path
      cases path with
      | nil => simp [Node.places, Node.at?, hkind]
      | cons i path =>
        rw [Set.mem_insert_iff, or_iff_right (List.cons_ne_nil i path)]
        rfl
    rw [hplaces, Set.encard_insert_of_notMem nil_not_mem_rowPlaces, add_comm]
    rfl

/-- A path into a row leads into the first tree, or is one into the rest with its first number
moved on. -/
theorem rowPlaces_cons :
    rowPlaces (n :: row) kinds =
      List.cons 0 '' n.places kinds ∪ List.modifyHead (· + 1) '' rowPlaces row kinds := by
  ext path
  constructor
  · rintro ⟨m, hm, hkind⟩
    match path with
    | [] => cases hm
    | 0 :: path => exact .inl ⟨path, ⟨m, hm, hkind⟩, rfl⟩
    | (i + 1) :: path => exact .inr ⟨i :: path, ⟨m, hm, hkind⟩, rfl⟩
  · rintro (⟨path, hpath, rfl⟩ | ⟨path, ⟨m, hm, hkind⟩, rfl⟩)
    · exact hpath
    · cases path with
      | nil => cases hm
      | cons i path => exact ⟨m, hm, hkind⟩

/-- The places in a row are as many as those in its first tree and those in the others together:
the first numbers of the two are 0 and not 0. -/
theorem encard_rowPlaces_cons :
    (rowPlaces (n :: row) kinds).encard
      = (n.places kinds).encard + (rowPlaces row kinds).encard := by
  have hmoved : Function.Injective (List.modifyHead (· + 1) : List Nat → List Nat) := by
    rintro (_ | ⟨i, path⟩) (_ | ⟨j, path'⟩) h <;> simp_all
  -- a path with 0 in front is not one that has been moved on
  have hapart : Disjoint (List.cons 0 '' n.places kinds)
      (List.modifyHead (· + 1) '' rowPlaces row kinds) := by
    rw [Set.disjoint_left]
    rintro _ ⟨path, _, rfl⟩ ⟨path', hpath', heq⟩
    cases path' with
    | nil => cases heq
    | cons i path' => cases heq
  rw [rowPlaces_cons, Set.encard_union_eq hapart, List.cons_injective.encard_image,
    hmoved.encard_image]

/-- Rows one after the other, by induction on the first. -/
theorem encard_rowPlaces_append :
    (rowPlaces (row ++ row') kinds).encard
      = (rowPlaces row kinds).encard + (rowPlaces row' kinds).encard := by
  induction row with
  | nil => simp
  | cons n row ih =>
    rw [List.cons_append, encard_rowPlaces_cons, ih, encard_rowPlaces_cons, add_assoc]

/-- At a place there is one node only. -/
theorem encard_rowPlaces_or (h : ∀ c, kinds c = true → kinds' c = false) :
    (rowPlaces row fun c => kinds c || kinds' c).encard
      = (rowPlaces row kinds).encard + (rowPlaces row kinds').encard := by
  have hapart : Disjoint (rowPlaces row kinds) (rowPlaces row kinds') := by
    rw [Set.disjoint_left]
    rintro path ⟨m, hm, hkind⟩ ⟨m', hm', hkind'⟩
    rw [hm, Option.some.injEq] at hm'
    rw [← hm', h _ hkind] at hkind'
    cases hkind'
  rw [← Set.encard_union_eq hapart]
  congr 1
  ext path
  simp only [rowPlaces, Set.mem_ofPred_eq, Set.mem_union, Bool.or_eq_true, and_or_left, exists_or]

end Places

/-! ### Terms and factors -/

/-- An operator adds its right side at the end of the terms. -/
theorem Expr.terms_binary (left : Expr) (op : BinaryOp) (right : Term) :
    (Expr.binary left op right).terms = left.terms ++ [right] := by
  simp [Expr.terms, Expr.first, Expr.rest]

/-- An operator adds its right side at the end of the factors. -/
theorem Term.factors_binary (left : Term) (op : BinaryOp) (right : Factor) :
    (Term.binary left op right).factors = left.factors ++ [right] := by
  simp [Term.factors, Term.first, Term.rest]

end Tercet
