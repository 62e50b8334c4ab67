import Tercet.Proofs.Reading.Outcome
import Tercet.Proofs.Tree.Grammar

/-!
# `Tercet.Proofs.Reading.Soundness`: what is read without a report is what is printed

Printing undoes reading. If nothing is reported, the tokens before the end of the row spell
the program that has been read, token by token (`spells_ofTokens`). In particular none of them
has been skipped, and their kinds are a program of the grammar.

Each reader has one lemma, which says what it `Yields`. Readers with a reader inside are
treated under the hypothesis that the inner one does its part; the bounds on nesting play no
role, because a reader that has run out of them refuses. The table of forms does matter: some
readers pass their first token without looking at it, and it is the table that has seen it.
-/

set_option autoImplicit false

namespace Tercet

open Reader Slot

/-- What has been read is spelled by the tokens passed, and it is as the grammar asks. -/
def Spelled {α : Type} (slots : α → List Slot) (good : α → Prop) :
    α → Parser → List Token → Prop :=
  fun a _ ts => Spells (slots a) ts ∧ good a

/-! ## Rows -/

/-- Items after commas are spelled by what has been passed. The induction is on the room for
them. -/
theorem yields_moreWithin {α : Type} {item : Reader α} {slots : α → List Slot}
    {good : α → Prop} (hitem : ∀ p, Yields item p (Spelled slots good)) (room : Nat)
    (p : Parser) :
    Yields (moreWithin item room) p fun items _ ts =>
      Spells (items.flatMap fun a => mark .comma :: slots a) ts ∧ ∀ a ∈ items, good a := by
  induction room generalizing p with
  | zero => exact .pure ⟨.nil, by simp⟩
  | succ room ih =>
      refine Yields.kind ?_
      split
      · rename_i hkind
        refine (Yields.advance p).bind fun t q _ => ?_
        refine (hitem q).bind fun a q' _ => ?_
        refine (ih q').map _ ?_
        rintro items r us ⟨hus, hitems⟩ ts ⟨hts, ha⟩ _ ⟨rfl, hcomma⟩
        -- the token that was passed is the comma
        rw [hcomma (by rw [hkind]; decide)]
        refine ⟨?_, List.forall_mem_cons.mpr ⟨ha, hitems⟩⟩
        rw [List.flatMap_cons]
        exact .cons (fits_mark.mpr hkind) (List.rel_append hts hus)
      · exact .pure ⟨.nil, by simp⟩

/-- So is a row of items, of which there is at least one. -/
theorem yields_separated {α : Type} {item : Reader α} {slots : α → List Slot}
    {good : α → Prop} (hitem : ∀ p, Yields item p (Spelled slots good)) (p : Parser) :
    Yields (separated item) p fun items _ ts =>
      Spells (Slot.separated (items.map slots)) ts ∧ items ≠ [] ∧ ∀ a ∈ items, good a := by
  refine (hitem p).bind fun a q _ => Yields.get ?_
  refine (yields_moreWithin hitem _ q).map _ ?_
  rintro items r us ⟨hus, hitems⟩ ts ⟨hts, ha⟩
  refine ⟨?_, List.cons_ne_nil _ _, List.forall_mem_cons.mpr ⟨ha, hitems⟩⟩
  rw [List.map_cons, Slot.separated, List.flatMap_map]
  exact List.rel_append hts hus

/-- A row joined to what has been read before it: whatever spells the left part, the tokens of
the row after it spell the whole. -/
theorem yields_chainWithin {α β : Type} {op? : Kind → Option BinaryOp} {operand : Reader β}
    {join : α → BinaryOp → β → α} (slots : α → List Slot) {operandSlots : β → List Slot}
    (good : α → Prop) {goodOperand : β → Prop}
    (hop : ∀ k op, op? k = some op → k = op.kind)
    (hoperand : ∀ p, Yields operand p (Spelled operandSlots goodOperand))
    (hjoin : ∀ a op b, slots (join a op b) = slots a ++ mark op.kind :: operandSlots b)
    (hgood : ∀ k a op b, op? k = some op → good a → goodOperand b → good (join a op b))
    (room : Nat) (left : α) (p : Parser) :
    Yields (chainWithin op? operand join room left) p fun a _ ts =>
      ∀ us, Spells (slots left) us → good left → Spells (slots a) (us ++ ts) ∧ good a := by
  -- the left part grows with the row, so what spells it has to be arbitrary
  induction room generalizing left p with
  | zero =>
      refine .pure fun us hus hleft => ⟨?_, hleft⟩
      rwa [List.append_nil]
  | succ room ih =>
      refine Yields.kind ?_
      split
      · refine .pure fun us hus hleft => ⟨?_, hleft⟩
        rwa [List.append_nil]
      · rename_i op hkind
        have hopKind := hop _ _ hkind
        refine (Yields.advance p).bind fun t q _ => ?_
        refine (hoperand q).bind fun b q' _ => ?_
        refine (ih (join left op b) q').mono ?_
        rintro a r ts hrow us ⟨hus, hb⟩ _ ⟨rfl, hadvance⟩ vs hvs hleft
        rw [hadvance (by rw [hopKind]; exact op.kind_ne_eof)]
        have hjoined : Spells (slots (join left op b)) (vs ++ p.current :: us) := by
          rw [hjoin]
          exact List.rel_append hvs (.cons (fits_mark.mpr hopKind) hus)
        have hwhole := hrow _ hjoined (hgood _ left op b hkind hleft hb)
        rwa [List.append_assoc] at hwhole

/-- The same with room for all the tokens. -/
theorem yields_chain {α β : Type} {op? : Kind → Option BinaryOp} {operand : Reader β}
    {join : α → BinaryOp → β → α} (slots : α → List Slot) {operandSlots : β → List Slot}
    (good : α → Prop) {goodOperand : β → Prop}
    (hop : ∀ k op, op? k = some op → k = op.kind)
    (hoperand : ∀ p, Yields operand p (Spelled operandSlots goodOperand))
    (hjoin : ∀ a op b, slots (join a op b) = slots a ++ mark op.kind :: operandSlots b)
    (hgood : ∀ k a op b, op? k = some op → good a → goodOperand b → good (join a op b))
    (left : α) (p : Parser) :
    Yields (chain op? operand join left) p fun a _ ts =>
      ∀ us, Spells (slots left) us → good left → Spells (slots a) (us ++ ts) ∧ good a :=
  Yields.get (yields_chainWithin slots good hop hoperand hjoin hgood _ left p)

/-! ## Expressions -/

section Layers

variable {inner : Reader Expr}
  (hinner : ∀ p, Yields inner p (Spelled Expr.slots fun e => e.wellFormed = true))

include hinner

/-- The arguments of a call are spelled by what has been passed. -/
theorem yields_argumentsOf (p : Parser) :
    Yields (argumentsOf inner) p fun es _ ts =>
      Spells (Slot.separated (argumentSlots es)) ts ∧ wellFormedArguments es = true := by
  refine Yields.kind ?_
  split
  · exact .pure ⟨.nil, rfl⟩
  · refine (yields_separated hinner p).mono ?_
    rintro es q ts ⟨hts, -, hes⟩
    rw [argumentSlots_eq_map, wellFormedArguments_eq_all, List.all_eq_true]
    exact ⟨hts, hes⟩

/-- So is a factor. -/
theorem yields_factorOf (p : Parser) :
    Yields (factorOf inner) p (Spelled Factor.slots fun f => f.wellFormed = true) := by
  refine Yields.get ?_
  split
  -- a number
  · rename_i hkind
    refine (Yields.advance p).map _ ?_
    rintro t q _ ⟨rfl, hts⟩
    rw [hts (by rw [hkind]; decide)]
    exact ⟨.cons (fits_firstWord.mpr ⟨hkind, rfl, rfl⟩) .nil, rfl⟩
  -- a name, perhaps called
  · rename_i hkind
    refine (Yields.advance p).bind fun t q _ => Yields.kind ?_
    split
    · rename_i hopen
      refine (Yields.advance q).bind fun o q' _ => ?_
      refine (yields_argumentsOf hinner q').bind fun es q'' _ => ?_
      refine (Yields.expect (by decide) q'').map _ ?_
      rintro c r _ ⟨hclose, -, rfl, -⟩ us ⟨hus, hes⟩ _ ⟨rfl, hos⟩ _ ⟨rfl, hts⟩
      rw [hts (by rw [hkind]; decide), hos (by rw [hopen]; decide)]
      refine ⟨?_, hes⟩
      exact .cons (fits_firstWord.mpr ⟨hkind, rfl, rfl⟩) (.cons (fits_mark.mpr hopen)
        (List.rel_append hus (.cons (fits_mark.mpr hclose) .nil)))
    · refine .pure ?_
      rintro _ ⟨rfl, hts⟩
      rw [hts (by rw [hkind]; decide)]
      exact ⟨.cons (fits_firstWord.mpr ⟨hkind, rfl, rfl⟩) .nil, rfl⟩
  -- an expression in parentheses
  · rename_i hkind
    refine (Yields.advance p).bind fun o q _ => ?_
    refine (hinner q).bind fun e q' _ => ?_
    refine (Yields.expect (by decide) q').map _ ?_
    rintro c r _ ⟨hclose, -, rfl, -⟩ us ⟨hus, he⟩ _ ⟨rfl, hos⟩
    rw [hos (by rw [hkind]; decide)]
    exact ⟨.cons (fits_first.mpr ⟨hkind, rfl⟩)
      (List.rel_append hus (.cons (fits_mark.mpr hclose) .nil)), he⟩
  · exact .throw _

/-- Products keep the term a product. -/
theorem yields_products (left : Term) (p : Parser) :
    Yields (chain BinaryOp.multiplicative? (factorOf inner) .binary left) p fun t _ ts =>
      ∀ us, Spells left.slots us → left.wellFormed = true ∧ left.isProduct = true →
        Spells t.slots (us ++ ts) ∧ t.wellFormed = true ∧ t.isProduct = true := by
  refine yields_chain Term.slots (fun t => t.wellFormed = true ∧ t.isProduct = true) ?_
    (yields_factorOf hinner) ?_ ?_ left p
  · exact fun k op h => (BinaryOp.multiplicative?_eq_some_iff.mp h).2
  · exact fun t op f => rfl
  · intro k t op f h ht hf
    have hop := (BinaryOp.multiplicative?_eq_some_iff.mp h).1
    simp [Term.wellFormed, Term.isProduct, ht.1, ht.2, hf, hop]

/-- Comparisons keep the term well-formed. -/
theorem yields_comparisons (left : Term) (p : Parser) :
    Yields (chain BinaryOp.relational? (factorOf inner) .binary left) p fun t _ ts =>
      ∀ us, Spells left.slots us → left.wellFormed = true →
        Spells t.slots (us ++ ts) ∧ t.wellFormed = true := by
  refine yields_chain Term.slots (fun t => t.wellFormed = true) ?_ (yields_factorOf hinner) ?_ ?_
    left p
  · exact fun k op h => (BinaryOp.relational?_eq_some_iff.mp h).2
  · exact fun t op f => rfl
  · intro k t op f h ht hf
    have hop := (BinaryOp.relational?_eq_some_iff.mp h).1
    simp [Term.wellFormed, ht, hf, hop]

/-- A term is spelled by what has been passed: the first factor, then the products, then the
comparisons. -/
theorem yields_termOf (p : Parser) :
    Yields (termOf inner) p (Spelled Term.slots fun t => t.wellFormed = true) := by
  refine (yields_factorOf hinner p).bind fun f q _ => ?_
  refine (yields_products hinner (.factor f) q).bind fun product q' _ => ?_
  refine (yields_comparisons hinner product q').mono ?_
  rintro t r ws hws vs hvs us ⟨hus, hf⟩
  obtain ⟨hproduct, hgood⟩ := hvs us hus ⟨hf, rfl⟩
  rw [← List.append_assoc]
  exact hws (us ++ vs) hproduct hgood.1

/-- Sums keep the expression well-formed. -/
theorem yields_sums (left : Expr) (p : Parser) :
    Yields (chain BinaryOp.additive? (termOf inner) .binary left) p fun e _ ts =>
      ∀ us, Spells left.slots us → left.wellFormed = true →
        Spells e.slots (us ++ ts) ∧ e.wellFormed = true := by
  refine yields_chain Expr.slots (fun e => e.wellFormed = true) ?_ (yields_termOf hinner) ?_ ?_
    left p
  · exact fun k op h => (BinaryOp.additive?_eq_some_iff.mp h).2
  · exact fun e op t => rfl
  · intro k e op t h he ht
    have hop := (BinaryOp.additive?_eq_some_iff.mp h).1
    simp [Expr.wellFormed, he, ht, hop]

/-- An expression is spelled by what has been passed. -/
theorem yields_exprOf (p : Parser) :
    Yields (exprOf inner) p (Spelled Expr.slots fun e => e.wellFormed = true) := by
  refine (yields_termOf hinner p).bind fun t q _ => ?_
  refine (yields_sums hinner (.term t) q).mono ?_
  rintro e r vs hvs us ⟨hus, ht⟩
  exact hvs us hus ht

end Layers

/-- A reader that always refuses has passed nothing. -/
theorem yields_refuse {α : Type} {good : α → Parser → List Token → Prop}
    (fault : Parser → SyntaxError) (p : Parser) : Yields (refuse fault : Reader α) p good :=
  Yields.get (.throw _)

/-- So is one within any bound on nesting. -/
theorem yields_exprWithin (depth : Nat) (p : Parser) :
    Yields (exprWithin depth) p (Spelled Expr.slots fun e => e.wellFormed = true) := by
  induction depth generalizing p with
  | zero => exact yields_exprOf (yields_refuse _) p
  | succ depth ih => exact yields_exprOf ih p

/-- So is one within the bound that is used. -/
theorem yields_expr (p : Parser) :
    Yields expr p (Spelled Expr.slots fun e => e.wellFormed = true) :=
  Yields.get (yields_exprWithin _ p)

/-! ## Parts of statements -/

/-- A type has been read from its word. -/
theorem yields_dataType (p : Parser) :
    Yields dataType p fun type _ ts => p.current.kind = type.kind ∧ ts = [p.current] := by
  refine Yields.get ?_
  split
  · rename_i type hkind
    have hkind' : p.kind = type.kind := DataType.ofKind?_eq_some_iff.mp hkind
    refine (Yields.advance p).map _ ?_
    rintro t q _ ⟨rfl, hts⟩
    exact ⟨hkind', hts (by rw [hkind']; exact type.kind_ne_eof)⟩
  · exact .throw _

/-- A declared name is spelled by what has been passed. -/
theorem yields_declarator (p : Parser) :
    Yields declarator p (Spelled Declarator.slots fun d => d.wellFormed = true) := by
  refine (Yields.expect (by decide) p).bind fun t q _ => Yields.kind ?_
  split
  · rename_i hassign
    refine (Yields.advance q).bind fun a q' _ => ?_
    refine (yields_expr q').map _ ?_
    rintro e r us ⟨hus, he⟩ _ ⟨rfl, has⟩ _ ⟨hname, -, rfl, -⟩
    rw [has (by rw [hassign]; decide)]
    exact ⟨.cons (fits_word.mpr ⟨hname, rfl⟩) (.cons (fits_mark.mpr hassign) hus), he⟩
  · refine .pure ?_
    rintro _ ⟨hname, -, rfl, -⟩
    exact ⟨.cons (fits_word.mpr ⟨hname, rfl⟩) .nil, rfl⟩

/-- So is a declaration, whose type is not `void`. -/
theorem yields_declaration (p : Parser) :
    Yields declaration p (Spelled Declaration.slots fun d => d.wellFormed = true) := by
  refine Yields.get ?_
  split
  · exact .throw _
  · rename_i hvoid
    refine (yields_dataType p).bind fun type q _ => ?_
    refine (yields_separated yields_declarator q).map _ ?_
    rintro ds r us ⟨hus, hne, hds⟩ _ ⟨htype, rfl⟩
    refine ⟨.cons (fits_first.mpr ⟨htype, rfl⟩) hus, ?_⟩
    have hnotVoid : type ≠ .void := by
      rintro rfl
      exact hvoid htype
    simp only [Declaration.wellFormed, Bool.and_eq_true, bne_iff_ne, Bool.not_eq_true',
      List.isEmpty_eq_false_iff, List.all_eq_true]
    exact ⟨⟨hnotVoid, hne⟩, hds⟩

/-- So is an assignment. -/
theorem yields_assignment (p : Parser) :
    Yields assignment p (Spelled Assignment.slots fun a => a.value.wellFormed = true) := by
  refine Yields.line ((Yields.expect (by decide) p).bind fun t q _ => Yields.get ?_)
  split
  · exact .throw _
  · rename_i op hop
    have hkind : q.kind = op.kind := AssignOp.ofKind?_eq_some_iff.mp hop
    refine (Yields.advance q).bind fun o q' _ => ?_
    refine (yields_expr q').map _ ?_
    rintro e r us ⟨hus, he⟩ _ ⟨rfl, hos⟩ _ ⟨hname, rfl, rfl, -⟩
    rw [hos (by rw [hkind]; exact op.kind_ne_eof)]
    exact ⟨.cons (fits_firstWord.mpr ⟨hname, rfl, rfl⟩) (.cons (fits_mark.mpr hkind) hus), he⟩

/-- So are parameters. -/
theorem yields_parameters (p : Parser) :
    Yields parameters p fun qs _ ts => Spells (Slot.separated (qs.map Parameter.slots)) ts := by
  have hparameter (p : Parser) :
      Yields parameter p (Spelled Parameter.slots fun _ => True) := by
    refine (yields_dataType p).bind fun type q _ => ?_
    refine (Yields.expect (by decide) q).map _ ?_
    rintro t r _ ⟨hname, -, rfl, -⟩ _ ⟨htype, rfl⟩
    exact ⟨.cons (fits_mark.mpr htype) (.cons (fits_word.mpr ⟨hname, rfl⟩) .nil), trivial⟩
  refine Yields.kind ?_
  split
  · exact .pure .nil
  · exact (yields_separated hparameter p).mono fun qs q ts h => h.1

/-- So is a condition. -/
theorem yields_condition (p : Parser) :
    Yields condition p (Spelled conditionSlots fun e => e.wellFormed = true) := by
  refine (Yields.expect (by decide) p).bind fun o q _ => ?_
  refine (yields_expr q).bind fun e q' _ => ?_
  refine (Yields.expect (by decide) q').map _ ?_
  rintro c r _ ⟨hclose, -, rfl, -⟩ us ⟨hus, he⟩ _ ⟨hopen, -, rfl, -⟩
  exact ⟨.cons (fits_mark.mpr hopen) (List.rel_append hus (.cons (fits_mark.mpr hclose) .nil)),
    he⟩

/-- So is a part that may be left out. -/
theorem yields_optionalBefore {α : Type} {part : Reader α} {slots : α → List Slot}
    {good : α → Bool} (close : Kind)
    (hpart : ∀ p, Yields part p (Spelled slots fun a => good a = true)) (p : Parser) :
    Yields (optionalBefore close part) p
      (Spelled (optionSlots slots) fun o => o.all good = true) := by
  refine Yields.kind ?_
  split
  · exact .pure ⟨.nil, rfl⟩
  · exact (hpart p).map _ fun a q ts h => h

/-- So is the start of a counted loop. -/
theorem yields_forInit (p : Parser) :
    Yields forInit p
      (Spelled (optionSlots ForInit.slots) fun o => o.all ForInit.wellFormed = true) := by
  refine Yields.kind ?_
  split
  · exact .pure ⟨.nil, rfl⟩
  · split
    · exact (yields_declaration p).map _ fun d q ts h => h
    · exact (yields_assignment p).map _ fun a q ts h => h

/-- A name and the sign after it. The sign has been looked at before the name was passed, and
it is the next token once the name is. -/
theorem yields_signed {p : Parser} {sign : Kind} (hsign : (p.peek 1).kind = sign)
    (hne : sign ≠ .eof) (f : String → Nat → ForStep)
    (hslots : ∀ name line,
      (f name line).slots = [firstWord .identifier name line, mark sign])
    (hgood : ∀ name line, (f name line).wellFormed = true) :
    Yields (do
        let target := (← expect .identifier).text
        let _ ← advance
        return f target p.current.line) p
      (Spelled ForStep.slots fun s => s.wellFormed = true) := by
  refine (Yields.expect (by decide) p).bind fun t q _ => ?_
  refine (Yields.advance q).map _ ?_
  rintro u r _ ⟨rfl, hus⟩ _ ⟨hname, rfl, rfl, hcurrent⟩
  have hkind : q.kind = sign := by
    rw [← hsign, ← hcurrent]
    rfl
  rw [hus (hkind ▸ hne)]
  refine ⟨?_, hgood _ _⟩
  rw [hslots]
  exact .cons (fits_firstWord.mpr ⟨hname, rfl, rfl⟩) (.cons (fits_mark.mpr hkind) .nil)

/-- So is the step of a counted loop. -/
theorem yields_forStep (p : Parser) :
    Yields forStep p (Spelled ForStep.slots fun s => s.wellFormed = true) := by
  refine Yields.get ?_
  split
  · rename_i hsign
    exact yields_signed hsign (by decide) .increment (fun _ _ => rfl) (fun _ _ => rfl)
  · rename_i hsign
    exact yields_signed hsign (by decide) .decrement (fun _ _ => rfl) (fun _ _ => rfl)
  · exact (yields_assignment p).map _ fun a q ts h => h

/-- A semicolon that is missing is reported, so a reader that has reported nothing has passed
one. -/
theorem yields_expectSemicolon (p : Parser) :
    Yields expectSemicolon p fun _ _ ts => ∃ t, ts = [t] ∧ t.kind = .semicolon := by
  refine Yields.get ?_
  split
  · rename_i hkind
    refine (Yields.advance p).map _ ?_
    rintro t q ts ⟨rfl, hts⟩
    exact ⟨p.current, hts (by rw [hkind]; decide), hkind⟩
  · split
    · refine ⟨[], [(p.missing .semicolon).report], ⟨rfl, ?_, by simp⟩, by simp⟩
      simp [Parser.past, Parser.report]
    · exact .throw _

/-! ## Statements -/

/-- What has been read is spelled by the tokens passed, the grammar produces it, and no `else`
is left that it would have taken. -/
def StmtRead (s : Stmt) (q : Parser) (ts : List Token) : Prop :=
  Spells s.slots ts ∧ s.wellFormed = true ∧ (s.endsOpen = true → q.kind ≠ .kwElse)

/-- Skipping passes tokens up to an end at most. -/
theorem exists_skipTo (start : Nat) (passed ahead : List Token) :
    ∃ us, Stream.skipTo start passed ahead
        = (us.reverse ++ passed, (Stream.skipTo start passed ahead).2) ∧
      ahead = us ++ (Stream.skipTo start passed ahead).2 ∧ ∀ t ∈ us, t.kind ≠ .eof := by
  fun_induction Stream.skipTo start passed ahead with
  | case1 passed => exact ⟨[], rfl, rfl, by simp⟩
  | case2 passed t ts hkind => exact ⟨[], rfl, rfl, by simp⟩
  | case3 passed t ts hkind => exact ⟨[t], rfl, rfl, by simp [hkind]⟩
  | case4 passed t ts hkind hstart => exact ⟨[t], rfl, rfl, by simp [hkind]⟩
  | case5 passed t ts hkind hstart => exact ⟨[], rfl, rfl, by simp⟩
  -- any other token is passed, and the skipping goes on
  | case6 passed t ts heof hsemicolon hclose ih =>
      obtain ⟨us, hskip, hahead, hus⟩ := ih
      refine ⟨t :: us, ?_, by rw [List.cons_append, ← hahead], List.forall_mem_cons.mpr ⟨heof, hus⟩⟩
      rw [hskip]
      simp

/-- What is broken is reported and passed. -/
theorem exists_passes_synchronize (q : Parser) (d : Diagnostic) (start : Nat) :
    ∃ us, Passes q { q.report d with toStream := q.toStream.synchronize start } us [d] := by
  obtain ⟨us, hskip, hahead, hus⟩ := exists_skipTo start q.passed q.ahead
  have hstream : q.toStream.synchronize start
      = { q.toStream with
          passed := us.reverse ++ q.passed
          ahead := (Stream.skipTo start q.passed q.ahead).2 } := by
    rw [Stream.synchronize, hskip]
  rw [hstream]
  exact ⟨us, hahead, rfl, hus⟩

/-- What has an ending is read with it. -/
theorem yields_ending {α : Type} {part : Reader α} {slots : α → List Slot} {good : α → Prop}
    {p : Parser} (hpart : Yields part p (Spelled slots good)) (f : α → Stmt)
    (hslots : ∀ a, (f a).slots = slots a ++ [ending])
    (hgood : ∀ a, good a → (f a).wellFormed = true) (hclosed : ∀ a, (f a).endsOpen = false) :
    Yields (do let a ← part; expectSemicolon; return f a) p StmtRead := by
  refine hpart.bind fun a q _ => ?_
  refine (yields_expectSemicolon q).map _ ?_
  rintro _ r _ ⟨t, rfl, hsemicolon⟩ us ⟨hus, ha⟩
  refine ⟨?_, hgood a ha, fun hopen => ?_⟩
  · rw [hslots]
    exact List.rel_append hus (.cons (fits_ending.mpr hsemicolon) .nil)
  · rw [hclosed] at hopen
    cases hopen

/-- A return has been read with its value, if there is one. -/
theorem yields_resultStmt {p : Parser} (hkind : p.kind = .kwReturn) :
    Yields resultStmt p StmtRead := by
  refine (Yields.advance p).bind fun t q _ => ?_
  refine (yields_optionalBefore _ yields_expr q).bind fun value q' _ => ?_
  refine (yields_expectSemicolon q').map _ ?_
  rintro _ r _ ⟨u, rfl, hsemicolon⟩ us ⟨hus, hvalue⟩ _ ⟨rfl, hts⟩
  rw [hts (by rw [hkind]; decide)]
  refine ⟨?_, hvalue, fun h => nomatch h⟩
  cases value with
  | none =>
      cases hus
      exact .cons (fits_first.mpr ⟨hkind, rfl⟩) (.cons (fits_mark.mpr hsemicolon) .nil)
  | some e =>
      exact .cons (fits_first.mpr ⟨hkind, rfl⟩)
        (List.rel_append hus (.cons (fits_ending.mpr hsemicolon) .nil))

section Rows

variable {inner : Reader Stmt}
  (hinner : ∀ p, p.forms = Forms.standard → Yields inner p StmtRead)

include hinner

/-- A statement that is refused leaves a report. -/
theorem passes_recovered {p : Parser} (hforms : p.forms = Forms.standard) :
    ∃ ts ds, Passes p (recovered inner p).2 ts ds ∧
      (ds = [] → ∃ s, (recovered inner p).1 = some s ∧ StmtRead s (recovered inner p).2 ts) := by
  have hyields := hinner p hforms
  unfold Yields at hyields
  rw [recovered]
  cases hp : inner p with
  | ok s q =>
      rw [hp] at hyields
      obtain ⟨ts, ds, hpasses, hread⟩ := hyields
      exact ⟨ts, ds, hpasses, fun hds => ⟨s, rfl, hread hds⟩⟩
  | error e q =>
      -- how far the skipping goes does not matter: the report has been made
      rw [hp] at hyields
      obtain ⟨ts, ds, hpasses⟩ := hyields
      obtain ⟨us, hsynchronized⟩ := exists_passes_synchronize q e.report p.position
      exact ⟨ts ++ us, ds ++ [e.report], hpasses.trans hsynchronized, by simp⟩

/-- A row without a report has been read to where it ends. The bound on its length does not
cut it short, because each statement takes a token. -/
theorem passes_rowWithin (stop : Option Kind) (room : Nat) {p : Parser}
    (hforms : p.forms = Forms.standard) :
    ∃ ts ds, Passes p (rowWithin inner stop room p).2 ts ds ∧
      (ds = [] → Spells (rowSlots (rowWithin inner stop room p).1) ts ∧
        wellFormedRow (rowWithin inner stop room p).1 = true ∧
        (p.remaining ≤ room → (rowWithin inner stop room p).2.kind = .eof ∨
          some (rowWithin inner stop room p).2.kind = stop)) := by
  induction room generalizing p with
  | zero =>
      refine ⟨[], [], .refl p, fun _ => ⟨.nil, rfl, fun hroom => .inl ?_⟩⟩
      -- with no room there is no token left, and a parser without tokens stands at an end
      have hnil : p.ahead = [] := List.eq_nil_of_length_eq_zero (Nat.le_zero.mp hroom)
      show p.kind = .eof
      rw [Parser.kind_eq hnil, Parser.following_nil, p.last_kind]
  | succ room ih =>
      rw [rowWithin]
      split
      · rename_i hend
        refine ⟨[], [], .refl p, fun _ => ⟨.nil, rfl, fun _ => ?_⟩⟩
        rw [Bool.or_eq_true, Stream.atEnd, beq_iff_eq, beq_iff_eq] at hend
        exact hend
      · obtain ⟨ts, ds, hfirst, hread⟩ := passes_recovered hinner hforms
        have hforms' : (recovered inner p).2.forms = Forms.standard := by
          rw [hfirst.forms_eq, hforms]
        obtain ⟨us, es, hmore, hrow⟩ := ih hforms'
        refine ⟨ts ++ us, ds ++ es, hfirst.trans hmore, fun hnil => ?_⟩
        rw [List.append_eq_nil_iff] at hnil
        obtain ⟨s, hs, hspells, hwell, -⟩ := hread hnil.1
        obtain ⟨hspells', hwell', hends⟩ := hrow hnil.2
        have hrowEq : (recovered inner p).1.toList ++
            (rowWithin inner stop room (recovered inner p).2).1
              = s :: (rowWithin inner stop room (recovered inner p).2).1 := by
          rw [hs]
          rfl
        refine ⟨?_, ?_, fun hroom => hends ?_⟩
        · show Spells (rowSlots (_ ++ _)) _
          rw [hrowEq, rowSlots]
          exact List.rel_append hspells hspells'
        · show wellFormedRow (_ ++ _) = true
          rw [hrowEq, wellFormedRow, hwell, hwell']
          rfl
        · -- the statement has passed a token
          obtain ⟨slot, slots, hslots, -⟩ := s.exists_slots_eq_cons
          have hlength := hspells.length_eq
          have hahead := congrArg List.length hfirst.ahead
          rw [hslots, List.length_cons] at hlength
          rw [List.length_append] at hahead
          rw [Stream.remaining] at hroom ⊢
          omega

/-- A block is spelled by what has been passed, with its braces. -/
theorem yields_blockOf {p : Parser} (hforms : p.forms = Forms.standard) :
    Yields (blockOf inner) p fun b _ ts =>
      Spells (Slot.first .openBrace b.2 :: (rowSlots b.1 ++ [mark .closeBrace])) ts ∧
        wellFormedRow b.1 = true := by
  have hrow (q : Parser) (hq : q.forms = Forms.standard) :
      Yields (modifyGet (rowOf inner (some .closeBrace))) q fun row _ ts =>
        Spells (rowSlots row) ts ∧ wellFormedRow row = true := by
    obtain ⟨us, ds, hpasses, hread⟩ :=
      passes_rowWithin hinner (some .closeBrace) q.remaining hq
    exact .modifyGet hpasses fun hnil => ⟨(hread hnil).1, (hread hnil).2.1⟩
  refine (Yields.expect (by decide) p).bind fun o q hq => ?_
  refine (hrow q (hq.trans hforms)).bind fun body q' _ => ?_
  refine (Yields.expect (by decide) q').map _ ?_
  rintro c r _ ⟨hclose, -, rfl, -⟩ us ⟨hus, hbody⟩ _ ⟨hopen, -, rfl, -⟩
  refine ⟨.cons (fits_first.mpr ⟨hopen, rfl⟩) ?_, hbody⟩
  exact List.rel_append hus (.cons (fits_mark.mpr hclose) .nil)

/-- So is a function or its prototype. -/
theorem yields_functionOf {p : Parser} (hforms : p.forms = Forms.standard) :
    Yields (functionOf inner) p StmtRead := by
  refine Yields.line ((yields_dataType p).bind fun type q₁ h₁ => ?_)
  refine (Yields.expect (by decide) q₁).bind fun name q₂ h₂ => ?_
  refine (Yields.expect (by decide) q₂).bind fun o q₃ h₃ => ?_
  refine (yields_parameters q₃).bind fun parameters q₄ h₄ => ?_
  refine (Yields.expect (by decide) q₄).bind fun c q₅ h₅ => Yields.kind ?_
  -- the head of the function, whatever comes after it
  have hhead {us : List Token} (htype : p.current.kind = type.kind)
      (hname : name.kind = .identifier) (hopen : o.kind = .openParen)
      (hus : Spells (Slot.separated (parameters.map Parameter.slots)) us)
      (hclose : c.kind = .closeParen) :
      Spells (Signature.slots ⟨type, name.text, parameters, p.current.line⟩)
        (p.current :: name :: o :: (us ++ [c])) :=
    .cons (fits_first.mpr ⟨htype, rfl⟩) (.cons (fits_word.mpr ⟨hname, rfl⟩)
      (.cons (fits_mark.mpr hopen) (List.rel_append hus (.cons (fits_mark.mpr hclose) .nil))))
  split
  · rename_i hsemicolon
    refine (Yields.advance q₅).map _ ?_
    rintro t r _ ⟨rfl, hts⟩ _ ⟨hclose, -, rfl, -⟩ us hus _ ⟨hopen, -, rfl, -⟩ _
      ⟨hname, -, rfl, -⟩ _ ⟨htype, rfl⟩
    rw [hts (by rw [hsemicolon]; decide)]
    refine ⟨?_, rfl, fun h => nomatch h⟩
    have hspells := List.rel_append (hhead htype hname hopen hus hclose)
      (.cons (fits_mark.mpr hsemicolon) .nil)
    simpa [Stmt.slots] using hspells
  · have hforms' : q₅.forms = Forms.standard := by rw [h₅, h₄, h₃, h₂, h₁, hforms]
    refine (yields_blockOf hinner hforms').map _ ?_
    rintro ⟨body, bodyLine⟩ r vs ⟨hvs, hbody⟩ _ ⟨hclose, -, rfl, -⟩ us hus _ ⟨hopen, -, rfl, -⟩ _
      ⟨hname, -, rfl, -⟩ _ ⟨htype, rfl⟩
    refine ⟨?_, hbody, fun h => nomatch h⟩
    have hspells := List.rel_append (hhead htype hname hopen hus hclose) hvs
    simpa [Stmt.slots] using hspells

/-- So is what starts with a type. -/
theorem yields_typedOf {p : Parser} (hforms : p.forms = Forms.standard) :
    Yields (typedOf inner) p StmtRead := by
  refine Yields.get ?_
  split
  · exact yields_functionOf hinner hforms
  · exact yields_ending (yields_declaration p) .declaration (fun _ => rfl) (fun _ h => h)
      (fun _ => rfl)

/-- So is a branch, and an `else` that comes next belongs to it. -/
theorem yields_branchOf {p : Parser} (hforms : p.forms = Forms.standard)
    (hkind : p.kind = .kwIf) : Yields (branchOf inner) p StmtRead := by
  refine (Yields.advance p).bind fun t q₁ h₁ => ?_
  refine (yields_condition q₁).bind fun e q₂ h₂ => ?_
  refine (hinner q₂ (by rw [h₂, h₁, hforms])).bind fun onTrue q₃ h₃ => Yields.kind ?_
  split
  · rename_i helse
    refine (Yields.advance q₃).bind fun u q₄ h₄ => ?_
    refine (hinner q₄ (by rw [h₄, h₃, h₂, h₁, hforms])).map _ ?_
    rintro onFalse r ws ⟨hws, hfalse, hopen'⟩ _ ⟨rfl, hus⟩ vs ⟨hvs, htrue, hopen⟩ cs ⟨hcs, he⟩ _
      ⟨rfl, hts⟩
    rw [hts (by rw [hkind]; decide), hus (by rw [helse]; decide)]
    -- had it ended open, it would have taken the `else` that is still there
    have hclosed : onTrue.endsOpen = false := by
      rw [Bool.eq_false_iff]
      exact fun h => hopen h helse
    refine ⟨?_, by simp [Stmt.wellFormed, he, htrue, hclosed, hfalse], hopen'⟩
    exact .cons (fits_first.mpr ⟨hkind, rfl⟩)
      (List.rel_append hcs (List.rel_append hvs (.cons (fits_mark.mpr helse) hws)))
  · rename_i helse
    refine .pure ?_
    rintro vs ⟨hvs, htrue, -⟩ cs ⟨hcs, he⟩ _ ⟨rfl, hts⟩
    rw [hts (by rw [hkind]; decide), List.append_nil]
    refine ⟨?_, by simp [Stmt.wellFormed, he, htrue], fun _ => helse⟩
    exact .cons (fits_first.mpr ⟨hkind, rfl⟩) (List.rel_append hcs hvs)

/-- So is a loop. -/
theorem yields_whileOf {p : Parser} (hforms : p.forms = Forms.standard)
    (hkind : p.kind = .kwWhile) : Yields (whileOf inner) p StmtRead := by
  refine (Yields.advance p).bind fun t q₁ h₁ => ?_
  refine (yields_condition q₁).bind fun e q₂ h₂ => ?_
  refine (hinner q₂ (by rw [h₂, h₁, hforms])).map _ ?_
  rintro body r vs ⟨hvs, hbody, hopen⟩ cs ⟨hcs, he⟩ _ ⟨rfl, hts⟩
  rw [hts (by rw [hkind]; decide)]
  refine ⟨?_, by simp [Stmt.wellFormed, he, hbody], hopen⟩
  exact .cons (fits_first.mpr ⟨hkind, rfl⟩) (List.rel_append hcs hvs)

/-- So is a counted loop. -/
theorem yields_forOf {p : Parser} (hforms : p.forms = Forms.standard)
    (hkind : p.kind = .kwFor) : Yields (forOf inner) p StmtRead := by
  refine (Yields.advance p).bind fun t q₁ h₁ => ?_
  refine (Yields.expect (by decide) q₁).bind fun o q₂ h₂ => ?_
  refine (yields_forInit q₂).bind fun init q₃ h₃ => ?_
  refine (Yields.expect (by decide) q₃).bind fun s₁ q₄ h₄ => ?_
  refine (yields_optionalBefore _ yields_expr q₄).bind fun condition q₅ h₅ => ?_
  refine (Yields.expect (by decide) q₅).bind fun s₂ q₆ h₆ => ?_
  refine (yields_optionalBefore _ yields_forStep q₆).bind fun step q₇ h₇ => ?_
  refine (Yields.expect (by decide) q₇).bind fun c q₈ h₈ => ?_
  refine (hinner q₈ (by rw [h₈, h₇, h₆, h₅, h₄, h₃, h₂, h₁, hforms])).map _ ?_
  rintro body r vs ⟨hvs, hbody, hopen⟩ _ ⟨hclose, -, rfl, -⟩ ss ⟨hss, hstep⟩ _ ⟨hs₂, -, rfl, -⟩
    cs ⟨hcs, hcondition⟩ _ ⟨hs₁, -, rfl, -⟩ is ⟨his, hinit⟩ _ ⟨ho, -, rfl, -⟩ _ ⟨rfl, hts⟩
  rw [hts (by rw [hkind]; decide)]
  refine ⟨?_, by simp only [Stmt.wellFormed, hinit, hcondition, hstep, hbody]; rfl, hopen⟩
  exact .cons (fits_first.mpr ⟨hkind, rfl⟩) (.cons (fits_mark.mpr ho)
    (List.rel_append his (.cons (fits_mark.mpr hs₁) (List.rel_append hcs
      (.cons (fits_mark.mpr hs₂) (List.rel_append hss (.cons (fits_mark.mpr hclose) hvs)))))))

/-- The table of the language sends each kind to the reader of its form. -/
theorem yields_stmtOf {p : Parser} (hforms : p.forms = Forms.standard) :
    Yields (stmtOf inner) p StmtRead := by
  refine Yields.get ?_
  rw [hforms]
  cases hkind : p.kind with
  | kwInt | kwDouble | kwVoid => exact yields_typedOf hinner hforms
  | identifier =>
      exact yields_ending (yields_assignment p) .assignment (fun _ => rfl) (fun _ h => h)
        (fun _ => rfl)
  | kwIf => exact yields_branchOf hinner hforms hkind
  | kwWhile => exact yields_whileOf hinner hforms hkind
  | kwFor => exact yields_forOf hinner hforms hkind
  | openBrace =>
      refine (yields_blockOf hinner hforms).map _ ?_
      rintro ⟨body, line⟩ q ts ⟨hts, hbody⟩
      exact ⟨hts, hbody, fun h => nomatch h⟩
  | kwReturn => exact yields_resultStmt hkind
  | _ => exact .throw _

end Rows

/-- So is a statement within any bound on nesting. -/
theorem yields_stmtWithin (depth : Nat) {p : Parser} (hforms : p.forms = Forms.standard) :
    Yields (stmtWithin depth) p StmtRead := by
  induction depth generalizing p with
  | zero => exact yields_stmtOf (fun p _ => yields_refuse _ p) hforms
  | succ depth ih => exact yields_stmtOf (fun p hp => ih hp) hforms

/-- So is one within the bound that is used. -/
theorem yields_stmt {p : Parser} (hforms : p.forms = Forms.standard) :
    Yields stmt p StmtRead :=
  Yields.get (yields_stmtWithin _ hforms)

/-- The tokens passed up to an end are those before the first end. -/
theorem beforeEnd_eq_of_passes {tokens ts : List Token} {q : Parser} {ds : Log}
    (hpasses : Passes (Parser.ofTokens tokens Forms.standard []) q ts ds)
    (hend : q.kind = .eof) : ts = beforeEnd tokens := by
  obtain ⟨rest, hahead, hnext⟩ := Parser.exists_ahead_ofTokens tokens Forms.standard []
  have hrest : ∀ t ∈ rest.head?, t.kind = .eof := by
    intro t ht
    cases rest with
    | nil => cases ht
    | cons u rest =>
        obtain rfl : u = t := Option.some.inj ht
        rw [Parser.following_cons] at hnext
        rw [hnext, kind_closing]
  have hleft : ∀ t ∈ q.ahead.head?, t.kind = .eof := by
    intro t ht
    rw [Parser.kind_eq rfl] at hend
    cases hq : q.ahead with
    | nil => rw [hq] at ht; cases ht
    | cons u more =>
        rw [hq] at ht hend
        obtain rfl : u = t := Option.some.inj ht
        exact hend
  have hbefore : ∀ t ∈ beforeEnd tokens, t.kind ≠ .eof := by
    intro t ht
    simpa using List.mem_takeWhile_imp ht
  -- the tokens of the row are split at an end in two ways, and the first end is one place
  rw [← beforeEnd_append hpasses.noEnd hleft, ← hpasses.ahead, hahead,
    beforeEnd_append hbefore hrest]

/-- Where nothing is reported, the tokens before the end spell the program, and the grammar
produces it. -/
theorem tree_of_quiet {tokens : List Token} (h : (Program.ofTokens tokens).2 = []) :
    Spells (Program.ofTokens tokens).1.slots (beforeEnd tokens) ∧
      (Program.ofTokens tokens).1.wellFormed = true := by
  obtain ⟨ts, ds, hpasses, hread⟩ :=
    passes_rowWithin (fun p hp => yields_stmt hp) none
      (Parser.ofTokens tokens Forms.standard []).remaining
      (rfl : (Parser.ofTokens tokens Forms.standard []).forms = Forms.standard)
  have hlog := hpasses.log_eq
  rw [show (Parser.ofTokens tokens Forms.standard []).log = [] from rfl, List.nil_append] at hlog
  obtain ⟨hspells, hwell, hends⟩ := hread (hlog.symm.trans h)
  rw [← beforeEnd_eq_of_passes hpasses
    ((hends (Nat.le_refl _)).resolve_right (Option.some_ne_none _))]
  exact ⟨hspells, hwell⟩

/-- Printing undoes reading: where nothing is reported, the tokens before the first end spell
the program that has been read, which is well-formed. So none of them has been skipped, and
their kinds are a program of the grammar. -/
theorem spells_ofTokens (tokens : List Token) (h : (Program.ofTokens tokens).2 = []) :
    Spells (Program.ofTokens tokens).1.slots (beforeEnd tokens) ∧
      (Program.ofTokens tokens).1.wellFormed = true ∧
      Derives (.the .program) ((beforeEnd tokens).map Token.kind) := by
  obtain ⟨hspells, hwell⟩ := tree_of_quiet h
  have hderives := Program.derives (Program.ofTokens tokens).1 hwell
  rw [Spells.map_kind hspells] at hderives
  exact ⟨hspells, hwell, hderives⟩

/-- A branch with both sides, and after it an end that another token follows. -/
def endAmidSample : List Token :=
  [⟨.kwIf, "if", 1⟩, ⟨.openParen, "(", 1⟩, ⟨.identifier, "a", 1⟩, ⟨.closeParen, ")", 1⟩,
   ⟨.identifier, "x", 2⟩, ⟨.assign, "=", 2⟩, ⟨.number, "1", 3⟩, ⟨.semicolon, ";", 3⟩,
   ⟨.kwElse, "else", 3⟩, ⟨.openBrace, "\x7b", 4⟩, ⟨.closeBrace, "\x7d", 4⟩,
   ⟨.eof, "<EOF>", 5⟩, ⟨.kwElse, "else", 5⟩]

/-- What comes after the end is not read. -/
theorem spells_ofTokens_endAmidSample :
    (Program.ofTokens endAmidSample).2 = [] ∧
      Spells (Program.ofTokens endAmidSample).1.slots (endAmidSample.take 11) := by
  have hquiet : (Program.ofTokens endAmidSample).2 = [] := by decide
  exact ⟨hquiet, (spells_ofTokens endAmidSample hquiet).1⟩

end Tercet
