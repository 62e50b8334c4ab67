import Tercet.Proofs.Reading.Expr

/-!
# `Tercet.Proofs.Reading.Parts`: printed parts of statements are read back

Declarations, assignments, parameters, conditions and the three parts of the head of a counted
loop have no statements inside. They are read back as expressions are, from their tokens and
with an eye on what follows. A part that may be left out is told from its absence by its first
token, which is never the token that would follow.
-/

set_option autoImplicit false

namespace Tercet

open Reader Slot

/-- A type is read back from its word. -/
theorem gives_dataType {p : Parser} {t : Token} {rest : List Token} {type : DataType}
    (hahead : p.ahead = t :: rest) (ht : t.kind = type.kind) :
    Gives dataType p type [t] [] rest := by
  refine Gives.get ?_
  rw [Parser.kind_eq hahead, Parser.following_cons, ht,
    DataType.ofKind?_eq_some_iff.mpr rfl]
  exact .bind_advance hahead (ht ▸ type.kind_ne_eof) (.pure rfl _)

/-- Whether a declared name ends before a token of the kind. -/
def Kind.endsDeclarator (k : Kind) : Bool :=
  k.endsExpr && k != .assign

/-- A declared name is read back, with its first value if it has one. -/
theorem reads_declarator {d : Declarator} (hd : d.wellFormed = true) :
    Reads declarator d d.slots Kind.endsDeclarator := by
  intro p ts rest hts hahead hstop
  rw [Kind.endsDeclarator, Bool.and_eq_true, bne_iff_ne] at hstop
  obtain ⟨name, initializer⟩ := d
  cases initializer with
  | none =>
      obtain ⟨t, _, ⟨hkind : t.kind = .identifier, htext, -⟩, ⟨⟩, rfl⟩ :=
        List.forall₂_cons_left_iff.mp hts
      obtain rfl := htext name rfl
      refine Gives.bind_expect hahead hkind (by decide) (Gives.kind ?_)
      -- what follows is no `=`, so no value is read
      rw [Parser.kind_past, List.nil_append, if_neg hstop.2]
      exact .pure rfl _
  | some e =>
      obtain ⟨t, _, ⟨hkind : t.kind = .identifier, htext, -⟩, htail, rfl⟩ :=
        List.forall₂_cons_left_iff.mp hts
      obtain ⟨a, us, ⟨hassign : a.kind = .assign, -⟩, hus, rfl⟩ :=
        List.forall₂_cons_left_iff.mp htail
      obtain rfl := htext name rfl
      refine Gives.bind_expect hahead hkind (by decide) (Gives.kind ?_)
      rw [Parser.kind_past, List.cons_append, Parser.following_cons, if_pos hassign]
      refine Gives.bind_advance rfl (by rw [hassign]; decide) ?_
      refine Gives.map ?_ _
      exact reads_expr hd _ us rest hus rfl hstop.1

/-- Whether a declaration ends before a token of the kind. -/
def Kind.endsDeclaration (k : Kind) : Bool :=
  k.endsDeclarator && k != .comma

/-- A declaration is read back. Its type is not `void`, for which there is a complaint before
anything is read. -/
theorem reads_declaration {d : Declaration} (hd : d.wellFormed = true) :
    Reads declaration d d.slots Kind.endsDeclaration := by
  intro p ts rest hts hahead hstop
  obtain ⟨type, declarators, line⟩ := d
  simp only [Declaration.wellFormed, Bool.and_eq_true, bne_iff_ne, Bool.not_eq_true',
    List.isEmpty_eq_false_iff, List.all_eq_true] at hd
  obtain ⟨⟨hvoid, hne⟩, hdeclarators⟩ := hd
  obtain ⟨t, us, ⟨hkind : t.kind = type.kind, -, hline⟩, hus, rfl⟩ :=
    List.forall₂_cons_left_iff.mp hts
  obtain rfl := hline line rfl
  -- a type other than `void` is not written with its word
  have hnotVoid : p.kind ≠ .kwVoid := by
    rw [Parser.kind_eq hahead, List.cons_append, Parser.following_cons, hkind]
    revert hvoid
    cases type <;> decide
  refine Gives.get ?_
  rw [if_neg hnotVoid, Parser.current_eq hahead]
  refine Gives.bind_quiet (gives_dataType hahead hkind) ?_
  refine Gives.map ?_ _
  exact reads_separated hne (fun d hd => reads_declarator (hdeclarators d hd)) rfl _ us rest hus
    rfl hstop

/-- An assignment is read back. The token after the name tells the operator. -/
theorem reads_assignment {a : Assignment} (ha : a.value.wellFormed = true) :
    Reads assignment a a.slots Kind.endsExpr := by
  intro p ts rest hts hahead hstop
  obtain ⟨target, op, value, line⟩ := a
  obtain ⟨t, _, ⟨hkind : t.kind = .identifier, htext, hline⟩, htail, rfl⟩ :=
    List.forall₂_cons_left_iff.mp hts
  obtain ⟨o, us, ⟨hop : o.kind = op.kind, -⟩, hus, rfl⟩ := List.forall₂_cons_left_iff.mp htail
  obtain rfl := htext target rfl
  obtain rfl := hline line rfl
  refine Gives.line ?_
  rw [Parser.current_eq hahead]
  refine Gives.bind_expect hahead hkind (by decide) (Gives.get ?_)
  rw [Parser.kind_past, List.cons_append, Parser.following_cons, hop,
    AssignOp.ofKind?_eq_some_iff.mpr rfl]
  refine Gives.bind_advance rfl (hop ▸ op.kind_ne_eof) ?_
  refine Gives.map ?_ _
  exact reads_expr ha _ us rest hus rfl hstop

/-- A parameter is read back, whatever follows it. -/
theorem reads_parameter (q : Parameter) : Reads parameter q q.slots fun _ => true := by
  intro p ts rest hts hahead _
  obtain ⟨type, name⟩ := q
  obtain ⟨t, _, ⟨hkind : t.kind = type.kind, -⟩, htail, rfl⟩ :=
    List.forall₂_cons_left_iff.mp hts
  obtain ⟨u, _, ⟨hname : u.kind = .identifier, htext, -⟩, ⟨⟩, rfl⟩ :=
    List.forall₂_cons_left_iff.mp htail
  obtain rfl := htext name rfl
  refine Gives.bind_quiet (gives_dataType hahead hkind) ?_
  exact .bind_expect rfl hname (by decide) (.pure rfl _)

/-- Parameters are read back, up to the closing parenthesis. -/
theorem reads_parameters (qs : List Parameter) :
    Reads parameters qs (Slot.separated (qs.map Parameter.slots)) (· == .closeParen) := by
  refine reads_separated_closed (fun q _ => reads_parameter q) (fun q _ => ⟨_, _, rfl, ?_⟩) rfl rfl
  show q.type.kind ≠ _
  cases q.type <;> decide

/-- A condition is read back with its parentheses. -/
theorem reads_condition {e : Expr} (he : e.wellFormed = true) :
    Reads condition e (conditionSlots e) fun _ => true := by
  intro p ts rest hts hahead _
  obtain ⟨o, _, ⟨hopen : o.kind = .openParen, -⟩, htail, rfl⟩ :=
    List.forall₂_cons_left_iff.mp hts
  obtain ⟨us, _, rfl, hus, hlast⟩ := forall₂_append_left htail
  obtain ⟨c, _, ⟨hclose : c.kind = .closeParen, -⟩, ⟨⟩, rfl⟩ :=
    List.forall₂_cons_left_iff.mp hlast
  refine Gives.bind_expect hahead hopen (by decide) ?_
  refine Gives.bind_quiet (reads_expr he _ us ([c] ++ rest) hus ?_ ?_) ?_
  · simp
  · rw [List.cons_append, Parser.following_cons, hclose]
    rfl
  · exact .bind_expect rfl hclose (by decide) (.pure rfl _)

/-- A part that is left out is found missing before the token that follows it. -/
theorem reads_optionalBefore_none {α : Type} (close : Kind) (part : Reader α) :
    Reads (optionalBefore close part) none [] (· == close) := by
  intro p ts rest hts hahead hstop
  cases hts
  rw [beq_iff_eq] at hstop
  refine Gives.kind ?_
  rw [Parser.kind_eq hahead, List.nil_append, if_pos hstop]
  exact .pure hahead none

/-- A part that is there is read back, if it cannot be taken for what follows it. -/
theorem reads_optionalBefore_some {α : Type} {close : Kind} {part : Reader α} {a : α}
    {slots : List Slot} {stops : Kind → Bool} (hread : Reads part a slots stops)
    (hfirst : ∃ s more, slots = s :: more ∧ s.kind ≠ close) :
    Reads (optionalBefore close part) (some a) slots stops := by
  intro p ts rest hts hahead hstop
  obtain ⟨s, more, rfl, hs⟩ := hfirst
  refine Gives.kind ?_
  have hpart : p.kind ≠ close := by
    obtain ⟨t, _, ht, -, rfl⟩ := List.forall₂_cons_left_iff.mp hts
    rwa [Parser.kind_eq hahead, List.cons_append, Parser.following_cons, ht.1]
  rw [if_neg hpart]
  exact (hread p ts rest hts hahead hstop).map some

/-- No expression starts with a semicolon. -/
theorem Expr.exists_slots_eq_cons_ne_semicolon (e : Expr) :
    ∃ s more, e.slots = s :: more ∧ s.kind ≠ .semicolon := by
  obtain ⟨s, more, hslots, hs⟩ := e.exists_slots_eq_cons
  refine ⟨s, more, hslots, fun hsemicolon => ?_⟩
  rw [hsemicolon] at hs
  cases hs

/-- The condition of a counted loop is read back, if there is one. -/
theorem reads_forCondition {o : Option Expr} (ho : o.all Expr.wellFormed = true) :
    Reads (optionalBefore .semicolon expr) o (optionSlots Expr.slots o) (· == .semicolon) := by
  cases o with
  | none => exact reads_optionalBefore_none _ _
  | some e =>
      intro p ts rest hts hahead hstop
      rw [beq_iff_eq] at hstop
      refine reads_optionalBefore_some (reads_expr ho) e.exists_slots_eq_cons_ne_semicolon p ts
        rest hts hahead ?_
      rw [hstop]
      rfl

/-- The start of a counted loop is read back. Its first token tells a declaration from an
assignment. -/
theorem reads_forInit {o : Option ForInit} (ho : o.all ForInit.wellFormed = true) :
    Reads forInit o (optionSlots ForInit.slots o) (· == .semicolon) := by
  intro p ts rest hts hahead hstop
  rw [beq_iff_eq] at hstop
  refine Gives.kind ?_
  rw [Parser.kind_eq hahead]
  cases o with
  | none =>
      cases hts
      rw [List.nil_append, if_pos hstop]
      exact .pure hahead none
  | some i =>
      cases i with
      | declaration d =>
          have hd : d.wellFormed = true := ho
          -- a declaration starts with its type, which is neither a semicolon nor a name
          have hkind : (p.following (ts ++ rest)).kind = d.type.kind := by
            obtain ⟨t, _, ht, -, rfl⟩ := List.forall₂_cons_left_iff.mp hts
            rw [List.cons_append, Parser.following_cons, ht.1]
            rfl
          have hsemicolon : d.type.kind ≠ .semicolon := by cases d.type <;> decide
          have htype : d.type.kind.isType = true := by cases d.type <;> decide
          rw [hkind, if_neg hsemicolon, if_pos htype]
          refine Gives.map ?_ _
          exact reads_declaration hd p ts rest hts hahead (by rw [hstop]; rfl)
      | assignment a =>
          have ha : a.value.wellFormed = true := ho
          -- an assignment starts with a name, which is no type
          have hkind : (p.following (ts ++ rest)).kind = .identifier := by
            obtain ⟨t, _, ht, -, rfl⟩ := List.forall₂_cons_left_iff.mp hts
            rw [List.cons_append, Parser.following_cons, ht.1]
            rfl
          rw [hkind, if_neg (by decide), if_neg (by decide)]
          refine Gives.map ?_ _
          exact reads_assignment ha p ts rest hts hahead (by rw [hstop]; rfl)

/-- A name and the sign after it, which has been looked at before. -/
theorem gives_signed {p : Parser} {t u : Token} {rest : List Token} {sign : Kind}
    (hahead : p.ahead = t :: u :: rest) (hname : t.kind = .identifier) (hu : u.kind = sign)
    (hsign : sign ≠ .eof) (f : String → Nat → ForStep) :
    Gives (do
        let target := (← expect .identifier).text
        let _ ← advance
        return f target p.current.line) p (f t.text t.line) [t, u] [] rest := by
  rw [Parser.current_eq hahead]
  refine Gives.bind_expect hahead hname (by decide) ?_
  exact .bind_advance rfl (hu ▸ hsign) (.pure rfl _)

/-- The step of a counted loop is read back. -/
theorem reads_forStep {o : Option ForStep} (ho : o.all ForStep.wellFormed = true) :
    Reads (optionalBefore .closeParen forStep) o (optionSlots ForStep.slots o)
      (· == .closeParen) := by
  cases o with
  | none => exact reads_optionalBefore_none _ _
  | some s =>
      suffices hread : Reads forStep s s.slots (· == .closeParen) by
        refine reads_optionalBefore_some hread ?_
        cases s <;> exact ⟨_, _, rfl, by simp [firstWord]⟩
      intro p ts rest hts hahead hstop
      rw [beq_iff_eq] at hstop
      -- every step starts with a name, and what comes second tells them apart
      have hsecond (first second : Slot) (more : List Slot)
          (hslots : s.slots = first :: second :: more) : (p.peek 1).kind = second.kind := by
        rw [hslots] at hts
        obtain ⟨t, _, -, htail, rfl⟩ := List.forall₂_cons_left_iff.mp hts
        obtain ⟨u, _, hu, -, rfl⟩ := List.forall₂_cons_left_iff.mp htail
        rw [Stream.peek, hahead]
        exact hu.1
      refine Gives.get ?_
      cases s with
      | increment target line =>
          obtain ⟨t, _, ⟨hkind : t.kind = .identifier, htext, hline⟩, htail, rfl⟩ :=
            List.forall₂_cons_left_iff.mp hts
          obtain ⟨u, _, ⟨hsign : u.kind = .increment, -⟩, ⟨⟩, rfl⟩ :=
            List.forall₂_cons_left_iff.mp htail
          obtain rfl := htext target rfl
          obtain rfl := hline line rfl
          rw [hsecond _ _ _ rfl]
          exact gives_signed hahead hkind hsign (by decide) ForStep.increment
      | decrement target line =>
          obtain ⟨t, _, ⟨hkind : t.kind = .identifier, htext, hline⟩, htail, rfl⟩ :=
            List.forall₂_cons_left_iff.mp hts
          obtain ⟨u, _, ⟨hsign : u.kind = .decrement, -⟩, ⟨⟩, rfl⟩ :=
            List.forall₂_cons_left_iff.mp htail
          obtain rfl := htext target rfl
          obtain rfl := hline line rfl
          rw [hsecond _ _ _ rfl]
          exact gives_signed hahead hkind hsign (by decide) ForStep.decrement
      | assignment a =>
          have ha : a.value.wellFormed = true := ho
          have hread := (reads_assignment ha p ts rest hts hahead (by rw [hstop]; rfl)).map
            ForStep.assignment
          have hkind : (p.peek 1).kind = a.op.kind := hsecond _ _ _ rfl
          rw [hkind]
          -- no operator of an assignment is one of the two signs
          cases a.op <;> exact hread

end Tercet
