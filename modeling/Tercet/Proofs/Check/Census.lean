import Tercet.Proofs.Check.Requests

/-!
# `Tercet.Proofs.Check.Census`: the statistics count the places of the tree

The tree of a program has four sorts of nodes: statements, expressions, terms and factors. A place
in it is a path of child numbers, from the row of statements down to a node. The analysis counts as
it goes, while it declares, looks up and reports. The result, `census_analyze`, says that the counts
do not depend on any of that: each is the number of places at which a node of its construct stands,
and the count of nodes is the number of places altogether. So each node counts once, also in an
argument that is looked at twice, in the value of a declaration that is refused and in a store into
a name that stands for nothing.

That a piece of the pass counts the trees it deals with is part of `Analysis.Passes`.
-/

set_option autoImplicit false

namespace Tercet

/-- A count is the number of places of its constructs, since it starts at zero and the pass counts
the rows of statements. -/
theorem Program.encard_places {count : Stats → Nat} {kinds : Construct → Bool}
    (h : Stats.Tells count kinds) (p : Program) :
    (p.places kinds).encard = count p.analyze.stats := by
  have hcount : (count p.analyze.stats : ℕ∞) = count Stats.zero + (p.places kinds).encard :=
    (Analysis.passes_stmts p.body Analysis.initial).counted h
  have hzero : count Stats.zero = 0 := by cases h <;> rfl
  rw [hcount, hzero, Nat.cast_zero, zero_add]

/-- Whatever is reported about a program, its statistics are those of its tree. Declarations,
assignments, functions, branches and loops of both kinds are counted by the places at which they
stand as statements, and the count of nodes is that of the places of statements, expressions, terms
and factors. -/
theorem census_analyze (p : Program) :
    (p.places (· == .declaration)).encard = p.analyze.stats.declarations ∧
    (p.places (· == .assignment)).encard = p.analyze.stats.assignments ∧
    (p.places (· == .function)).encard = p.analyze.stats.functions ∧
    (p.places (· == .branch)).encard = p.analyze.stats.ifs ∧
    (p.places (· == .whileLoop)).encard = p.analyze.stats.whiles ∧
    (p.places (· == .forLoop)).encard = p.analyze.stats.fors ∧
    (p.places Construct.isStatement).encard + (p.places (· == .expr)).encard
      + (p.places (· == .term)).encard + (p.places (· == .factor)).encard
      = p.analyze.stats.nodes := by
  refine ⟨p.encard_places .declarations, p.encard_places .assignments, p.encard_places .functions,
    p.encard_places .ifs, p.encard_places .whiles, p.encard_places .fors, ?_⟩
  -- every construct is one of the four sorts, and only one
  have hall : (fun c => c.isStatement || c == .expr || c == .term || c == .factor)
      = fun _ : Construct => true := by
    funext c
    cases c <;> rfl
  rw [← p.encard_places .nodes, ← hall]
  simp only [Program.places]
  rw [encard_rowPlaces_or, encard_rowPlaces_or, encard_rowPlaces_or]
  all_goals intro c
  all_goals cases c <;> decide

/-- A declaration that is refused counts like any other, with its value. -/
example : Stats.nodes (Program.analyze ⟨[.declaration ⟨.int, [⟨"x", none⟩], 1⟩,
    .declaration ⟨.int, [⟨"x", some (.term (.factor (.ident "y" 2)))⟩], 2⟩]⟩).stats = 5 := by
  decide

end Tercet
