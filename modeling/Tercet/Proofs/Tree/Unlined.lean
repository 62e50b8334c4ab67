import Tercet.Proofs.Tree.Shape

/-!
# `Tercet.Proofs.Tree.Unlined`: trees without their lines

Trees keep lines, and two trees may differ in these alone. Leaving the lines out, that is,
setting them all to 0, gives each tree a common form with all such trees (`Program.unlined`).
Whether the grammar produces a tree can be told from that form (`Program.wellFormed_unlined`).

A row of tokens may suit the slots of a tree in kinds and texts and yet stand on other lines
(`Slot.Suits`). Then there is a tree that it spells, and it differs from the first in its lines
alone (`Program.exists_relined`). The proof goes over the tree: each part takes its lines from
the tokens that suit its own slots.
-/

set_option autoImplicit false

namespace Tercet

mutual

/-- The expression without its lines. -/
def Expr.unlined : Expr → Expr
  | .term t => .term t.unlined
  | .binary left op right => .binary left.unlined op right.unlined

/-- The term without its lines. -/
def Term.unlined : Term → Term
  | .factor f => .factor f.unlined
  | .binary left op right => .binary left.unlined op right.unlined

/-- The factor without its lines. -/
def Factor.unlined : Factor → Factor
  | .number text _ => .number text 0
  | .ident name _ => .ident name 0
  | .call name arguments _ => .call name (unlinedArguments arguments) 0
  | .group inner _ => .group inner.unlined 0

/-- The arguments of a call without their lines. -/
def unlinedArguments : List Expr → List Expr
  | [] => []
  | e :: es => e.unlined :: unlinedArguments es

end

/-- The declared name without the lines of its first value. -/
def Declarator.unlined (d : Declarator) : Declarator :=
  ⟨d.name, d.initializer.map Expr.unlined⟩

/-- The declaration without its lines. -/
def Declaration.unlined (d : Declaration) : Declaration :=
  ⟨d.type, d.declarators.map Declarator.unlined, 0⟩

/-- The assignment without its lines. -/
def Assignment.unlined (a : Assignment) : Assignment :=
  ⟨a.target, a.op, a.value.unlined, 0⟩

/-- The start of a counted loop without its lines. -/
def ForInit.unlined : ForInit → ForInit
  | .declaration d => .declaration d.unlined
  | .assignment a => .assignment a.unlined

/-- What a counted loop does after each round, without its lines. -/
def ForStep.unlined : ForStep → ForStep
  | .increment target _ => .increment target 0
  | .decrement target _ => .decrement target 0
  | .assignment a => .assignment a.unlined

/-- The head of a function without its line. -/
def Signature.unlined (s : Signature) : Signature :=
  { s with line := 0 }

mutual

/-- The statement without its lines. -/
def Stmt.unlined : Stmt → Stmt
  | .block body _ => .block (unlinedRow body) 0
  | .declaration d => .declaration d.unlined
  | .assignment a => .assignment a.unlined
  | .ifThen condition body _ => .ifThen condition.unlined body.unlined 0
  | .ifElse condition onTrue onFalse _ =>
    .ifElse condition.unlined onTrue.unlined onFalse.unlined 0
  | .whileLoop condition body _ => .whileLoop condition.unlined body.unlined 0
  | .forLoop init condition step body _ =>
    .forLoop (init.map ForInit.unlined) (condition.map Expr.unlined) (step.map ForStep.unlined)
      body.unlined 0
  | .function signature body _ => .function signature.unlined (unlinedRow body) 0
  | .prototype signature => .prototype signature.unlined
  | .result value _ => .result (value.map Expr.unlined) 0

/-- The row of statements without its lines. -/
def unlinedRow : List Stmt → List Stmt
  | [] => []
  | s :: more => s.unlined :: unlinedRow more

end

/-- The program without its lines. -/
def Program.unlined (p : Program) : Program :=
  ⟨unlinedRow p.body⟩

/-- The arguments lose their lines one by one. -/
theorem unlinedArguments_eq_map (es : List Expr) : unlinedArguments es = es.map Expr.unlined := by
  induction es with
  | nil => rfl
  | cons e es ih => rw [unlinedArguments, ih, List.map_cons]

/-! ### Lines and the grammar -/

/-- Whether a term is a product does not depend on its lines. -/
theorem Term.isProduct_unlined (t : Term) : t.unlined.isProduct = t.isProduct := by
  match t with
  | .factor f => rfl
  | .binary left op right => simp only [Term.unlined, Term.isProduct, left.isProduct_unlined]

mutual

/-- Whether the grammar produces an expression does not depend on its lines. -/
theorem Expr.wellFormed_unlined (e : Expr) : e.unlined.wellFormed = e.wellFormed := by
  match e with
  | .term t => exact t.wellFormed_unlined
  | .binary left op right =>
    simp only [Expr.unlined, Expr.wellFormed, left.wellFormed_unlined, right.wellFormed_unlined]

/-- The same holds for a term. -/
theorem Term.wellFormed_unlined (t : Term) : t.unlined.wellFormed = t.wellFormed := by
  match t with
  | .factor f => exact f.wellFormed_unlined
  | .binary left op right =>
    simp only [Term.unlined, Term.wellFormed, left.wellFormed_unlined, left.isProduct_unlined,
      right.wellFormed_unlined]

/-- The same holds for a factor. -/
theorem Factor.wellFormed_unlined (f : Factor) : f.unlined.wellFormed = f.wellFormed := by
  match f with
  | .number _ _ | .ident _ _ => rfl
  | .call _ arguments _ => exact wellFormed_unlinedArguments arguments
  | .group inner _ => exact inner.wellFormed_unlined

/-- The same holds for the arguments of a call. -/
theorem wellFormed_unlinedArguments (es : List Expr) :
    wellFormedArguments (unlinedArguments es) = wellFormedArguments es := by
  match es with
  | [] => rfl
  | e :: es =>
    simp only [unlinedArguments, wellFormedArguments, e.wellFormed_unlined,
      wellFormed_unlinedArguments es]

end

/-- A test of a part that may be left out. -/
theorem all_map_unlined {α : Type} {test : α → Bool} {unlined : α → α}
    (h : ∀ a, test (unlined a) = test a) (o : Option α) :
    (o.map unlined).all test = o.all test := by
  cases o with
  | none => rfl
  | some a => exact h a

/-- The same holds for a declared name. -/
theorem Declarator.wellFormed_unlined (d : Declarator) :
    d.unlined.wellFormed = d.wellFormed :=
  all_map_unlined Expr.wellFormed_unlined d.initializer

/-- The same holds for a declaration, which loses none of its names. -/
theorem Declaration.wellFormed_unlined (d : Declaration) :
    d.unlined.wellFormed = d.wellFormed := by
  have hall : (d.declarators.map Declarator.unlined).all Declarator.wellFormed
      = d.declarators.all Declarator.wellFormed := by
    rw [List.all_map]
    exact congrArg d.declarators.all (funext Declarator.wellFormed_unlined)
  simp only [wellFormed, unlined, List.isEmpty_map, hall]

/-- The same holds for the start of a counted loop. -/
theorem ForInit.wellFormed_unlined (init : ForInit) :
    init.unlined.wellFormed = init.wellFormed := by
  cases init with
  | declaration d => exact d.wellFormed_unlined
  | assignment a => exact a.value.wellFormed_unlined

/-- The same holds for what it does after each round. -/
theorem ForStep.wellFormed_unlined (step : ForStep) :
    step.unlined.wellFormed = step.wellFormed := by
  cases step with
  | increment | decrement => rfl
  | assignment a => exact a.value.wellFormed_unlined

/-- Whether a statement would take an `else` that follows does not depend on its lines. -/
theorem Stmt.endsOpen_unlined (s : Stmt) : s.unlined.endsOpen = s.endsOpen := by
  match s with
  | .ifElse _ _ onFalse _ => exact onFalse.endsOpen_unlined
  | .whileLoop _ body _ | .forLoop _ _ _ body _ => exact body.endsOpen_unlined
  | .ifThen _ _ _ | .block _ _ | .declaration _ | .assignment _ | .function _ _ _
  | .prototype _ | .result _ _ => rfl

mutual

/-- Whether the grammar produces a statement does not depend on its lines. -/
theorem Stmt.wellFormed_unlined (s : Stmt) : s.unlined.wellFormed = s.wellFormed := by
  match s with
  | .block body _ | .function _ body _ => exact wellFormed_unlinedRow body
  | .declaration d => exact d.wellFormed_unlined
  | .assignment a => exact a.value.wellFormed_unlined
  | .ifThen condition body _ | .whileLoop condition body _ =>
    simp only [Stmt.unlined, Stmt.wellFormed, condition.wellFormed_unlined,
      body.wellFormed_unlined]
  | .ifElse condition onTrue onFalse _ =>
    simp only [Stmt.unlined, Stmt.wellFormed, condition.wellFormed_unlined,
      onTrue.wellFormed_unlined, onTrue.endsOpen_unlined, onFalse.wellFormed_unlined]
  | .forLoop init condition step body _ =>
    simp only [Stmt.unlined, Stmt.wellFormed, all_map_unlined ForInit.wellFormed_unlined,
      all_map_unlined Expr.wellFormed_unlined, all_map_unlined ForStep.wellFormed_unlined,
      body.wellFormed_unlined]
  | .prototype _ => rfl
  | .result value _ => exact all_map_unlined Expr.wellFormed_unlined value

/-- The same holds for a row of statements. -/
theorem wellFormed_unlinedRow (row : List Stmt) :
    wellFormedRow (unlinedRow row) = wellFormedRow row := by
  match row with
  | [] => rfl
  | s :: more =>
    simp only [unlinedRow, wellFormedRow, s.wellFormed_unlined, wellFormed_unlinedRow more]

end

/-- Trees that differ in their lines alone are produced by the grammar together. -/
theorem Program.wellFormed_unlined (p : Program) : p.unlined.wellFormed = p.wellFormed :=
  wellFormed_unlinedRow p.body

/-! ### Taking the lines from other tokens -/

namespace Slot

/-- Whether a token may stand in the place, on whatever line. -/
def Suits (s : Slot) (t : Token) : Prop :=
  t.kind = s.kind ∧ ∀ text ∈ s.text, t.text = text

/-- A token that fits a slot suits it. -/
theorem Fits.suits {s : Slot} {t : Token} (h : s.Fits t) : s.Suits t :=
  ⟨h.1, h.2.1⟩

/-- A mark fixes no line, so a token that suits it fits it. -/
theorem Suits.fits_mark {k : Kind} {t : Token} (h : (mark k).Suits t) : (mark k).Fits t :=
  Slot.fits_mark.mpr h.1

/-- Neither does a name amid a node. -/
theorem Suits.fits_word {text : String} {t : Token} (h : (word text).Suits t) :
    (word text).Fits t :=
  Slot.fits_word.mpr ⟨h.1, h.2 text rfl⟩

/-- A token that suits the first slot of a node fits the one with its own line. -/
theorem Suits.fits_first {k : Kind} {line : Nat} {t : Token} (h : (first k line).Suits t) :
    (first k t.line).Fits t :=
  Slot.fits_first.mpr ⟨h.1, rfl⟩

/-- So does a name or number. -/
theorem Suits.fits_firstWord {k : Kind} {text : String} {line : Nat} {t : Token}
    (h : (firstWord k text line).Suits t) : (firstWord k text t.line).Fits t :=
  Slot.fits_firstWord.mpr ⟨h.1, h.2 text rfl, rfl⟩

/-- Where no line is fixed, tokens that suit the slots spell them. -/
theorem spells_of_suits {slots : List Slot} {ts : List Token}
    (hlines : ∀ s ∈ slots, s.line = none) (h : List.Forall₂ Suits slots ts) :
    Spells slots ts := by
  induction h with
  | nil => exact .nil
  | cons hsuits _ ih =>
    rw [List.forall_mem_cons] at hlines
    refine .cons ⟨hsuits.1, hsuits.2, fun line hline => ?_⟩ (ih hlines.2)
    rw [hlines.1] at hline
    cases hline

/-- A single mark. -/
theorem spells_mark {k : Kind} {ts : List Token} (h : List.Forall₂ Suits [mark k] ts) :
    Spells [mark k] ts :=
  spells_of_suits (List.forall_mem_singleton.mpr rfl) h

/-- A single ending. -/
theorem spells_ending {ts : List Token} (h : List.Forall₂ Suits [ending] ts) :
    Spells [ending] ts :=
  spells_of_suits (List.forall_mem_singleton.mpr rfl) h

end Slot

open Slot

/-- Whatever tokens suit the slots of `a`, there is something that they spell and that differs
from `a` in its lines alone. -/
def Relines {α : Type} (slots : α → List Slot) (unlined : α → α) (a : α) : Prop :=
  ∀ ts, List.Forall₂ Suits (slots a) ts → ∃ b, unlined b = unlined a ∧ Spells (slots b) ts

/-- What stands for a row, an item and another row splits before and after the item. -/
theorem forall₂_append_cons_left {α β : Type} {R : α → β → Prop} {as bs : List α} {a : α}
    {l : List β} (h : List.Forall₂ R (as ++ a :: bs) l) :
    ∃ us b vs, l = us ++ b :: vs ∧ List.Forall₂ R as us ∧ R a b ∧ List.Forall₂ R bs vs := by
  obtain ⟨us, _, rfl, hus, hrest⟩ := forall₂_append_left h
  cases hrest with
  | cons hab hvs => exact ⟨us, _, _, rfl, hus, hab, hvs⟩

section Rows

variable {α : Type} {slots : α → List Slot} {unlined : α → α}

/-- A part that may be left out takes its lines from the tokens, if it is there. -/
theorem relines_option {o : Option α} (h : ∀ a ∈ o, Relines slots unlined a) :
    Relines (optionSlots slots) (Option.map unlined) o := by
  intro ts hts
  cases o with
  | none =>
    cases hts
    exact ⟨none, rfl, .nil⟩
  | some a =>
    obtain ⟨b, hb, hspells⟩ := h a rfl ts hts
    exact ⟨some b, congrArg some hb, hspells⟩

/-- Rows of parts that each follow a comma. -/
theorem relines_commas {items : List α} (h : ∀ a ∈ items, Relines slots unlined a) :
    Relines (fun items => (items.map slots).flatMap fun row => mark .comma :: row)
      (List.map unlined) items := by
  intro ts hts
  induction items generalizing ts with
  | nil =>
    cases hts
    exact ⟨[], rfl, .nil⟩
  | cons a items ih =>
    rw [List.forall_mem_cons] at h
    cases hts with
    | cons hcomma hts =>
      -- the tokens split behind the first item
      obtain ⟨us, vs, rfl, hus, hvs⟩ := forall₂_append_left hts
      obtain ⟨b, hb, hspells⟩ := h.1 us hus
      obtain ⟨bs, hbs, hmore⟩ := ih h.2 vs hvs
      refine ⟨b :: bs, ?_, .cons hcomma.fits_mark (List.rel_append hspells hmore)⟩
      rw [List.map_cons, List.map_cons, hb, hbs]

/-- So do items with commas between them. -/
theorem relines_separated {items : List α} (h : ∀ a ∈ items, Relines slots unlined a) :
    Relines (fun items => separated (items.map slots)) (List.map unlined) items := by
  intro ts hts
  cases items with
  | nil =>
    cases hts
    exact ⟨[], rfl, .nil⟩
  | cons a items =>
    rw [List.forall_mem_cons] at h
    obtain ⟨us, vs, rfl, hus, hvs⟩ := forall₂_append_left hts
    obtain ⟨b, hb, hspells⟩ := h.1 us hus
    obtain ⟨bs, hbs, hmore⟩ := relines_commas h.2 vs hvs
    refine ⟨b :: bs, ?_, List.rel_append hspells hmore⟩
    rw [List.map_cons, List.map_cons, hb, hbs]

end Rows

mutual

/-- An expression takes its lines from the tokens of its terms. -/
theorem Expr.relines (e : Expr) : Relines Expr.slots Expr.unlined e := by
  intro ts hts
  match e with
  | .term t =>
    obtain ⟨t', ht, hspells⟩ := t.relines ts hts
    exact ⟨.term t', congrArg Expr.term ht, hspells⟩
  | .binary left op right =>
    obtain ⟨us, _, vs, rfl, hus, hop, hvs⟩ := forall₂_append_cons_left hts
    obtain ⟨left', hleft, hleft'⟩ := left.relines us hus
    obtain ⟨right', hright, hright'⟩ := right.relines vs hvs
    exact ⟨.binary left' op right', by simp only [Expr.unlined, hleft, hright],
      List.rel_append hleft' (.cons hop.fits_mark hright')⟩

/-- A term takes its lines from the tokens of its factors. -/
theorem Term.relines (t : Term) : Relines Term.slots Term.unlined t := by
  intro ts hts
  match t with
  | .factor f =>
    obtain ⟨f', hf, hspells⟩ := f.relines ts hts
    exact ⟨.factor f', congrArg Term.factor hf, hspells⟩
  | .binary left op right =>
    obtain ⟨us, _, vs, rfl, hus, hop, hvs⟩ := forall₂_append_cons_left hts
    obtain ⟨left', hleft, hleft'⟩ := left.relines us hus
    obtain ⟨right', hright, hright'⟩ := right.relines vs hvs
    exact ⟨.binary left' op right', by simp only [Term.unlined, hleft, hright],
      List.rel_append hleft' (.cons hop.fits_mark hright')⟩

/-- A factor takes its line from its first token. -/
theorem Factor.relines (f : Factor) : Relines Factor.slots Factor.unlined f := by
  intro ts hts
  match f with
  | .number text line =>
    cases hts with
    | @cons _ t _ _ hword hnil =>
      cases hnil
      exact ⟨.number text t.line, rfl, .cons hword.fits_firstWord .nil⟩
  | .ident name line =>
    cases hts with
    | @cons _ t _ _ hword hnil =>
      cases hnil
      exact ⟨.ident name t.line, rfl, .cons hword.fits_firstWord .nil⟩
  | .group inner line =>
    cases hts with
    | @cons _ t _ _ hopen hts =>
      obtain ⟨us, vs, rfl, hus, hvs⟩ := forall₂_append_left hts
      obtain ⟨inner', hinner, hspells⟩ := inner.relines us hus
      exact ⟨.group inner' t.line, by simp only [Factor.unlined, hinner],
        .cons hopen.fits_first
          (List.rel_append hspells (spells_mark hvs))⟩
  | .call name arguments line =>
    rw [Factor.slots, argumentSlots_eq_map] at hts
    cases hts with
    | @cons _ t _ _ hname hts =>
      cases hts with
      | cons hopen hts =>
        obtain ⟨us, vs, rfl, hus, hvs⟩ := forall₂_append_left hts
        -- only the name keeps a line, apart from those in the arguments
        obtain ⟨arguments', harguments, hspells⟩ :=
          relines_separated (relines_arguments arguments) us hus
        refine ⟨.call name arguments' t.line, ?_, ?_⟩
        · simp only [Factor.unlined, unlinedArguments_eq_map, harguments]
        · rw [Factor.slots, argumentSlots_eq_map]
          exact .cons hname.fits_firstWord (.cons hopen.fits_mark
            (List.rel_append hspells (spells_mark hvs)))

/-- Each argument takes its lines from its own tokens. -/
theorem relines_arguments (es : List Expr) : ∀ e ∈ es, Relines Expr.slots Expr.unlined e := by
  match es with
  | [] => exact List.forall_mem_nil _
  | e :: es => exact List.forall_mem_cons.mpr ⟨e.relines, relines_arguments es⟩

end

/-- A declared name takes its lines from the tokens of its first value. -/
theorem Declarator.relines (d : Declarator) : Relines Declarator.slots Declarator.unlined d := by
  intro ts hts
  obtain ⟨name, initializer⟩ := d
  cases initializer with
  | none =>
    refine ⟨⟨name, none⟩, rfl, spells_of_suits ?_ hts⟩
    exact List.forall_mem_singleton.mpr rfl
  | some e =>
    cases hts with
    | cons hname hts =>
      cases hts with
      | cons hassign hts =>
        obtain ⟨e', he, hspells⟩ := e.relines _ hts
        refine ⟨⟨name, some e'⟩, ?_, .cons hname.fits_word (.cons hassign.fits_mark hspells)⟩
        simp only [Declarator.unlined, Option.map_some, he]

/-- A declaration takes its line from its type. -/
theorem Declaration.relines (d : Declaration) :
    Relines Declaration.slots Declaration.unlined d := by
  intro ts hts
  obtain ⟨type, declarators, line⟩ := d
  cases hts with
  | @cons _ t _ _ htype hts =>
    obtain ⟨declarators', hdeclarators, hspells⟩ :=
      relines_separated (fun d _ => d.relines) _ hts
    refine ⟨⟨type, declarators', t.line⟩, ?_, .cons htype.fits_first hspells⟩
    simp only [Declaration.unlined, hdeclarators]

/-- An assignment takes its line from its target. -/
theorem Assignment.relines (a : Assignment) : Relines Assignment.slots Assignment.unlined a := by
  intro ts hts
  obtain ⟨target, op, value, line⟩ := a
  cases hts with
  | @cons _ t _ _ htarget hts =>
    cases hts with
    | cons hop hts =>
      obtain ⟨value', hvalue, hspells⟩ := value.relines _ hts
      refine ⟨⟨target, op, value', t.line⟩, ?_,
        .cons htarget.fits_firstWord (.cons hop.fits_mark hspells)⟩
      simp only [Assignment.unlined, hvalue]

/-- The start of a counted loop takes its lines as a declaration or an assignment does. -/
theorem ForInit.relines (init : ForInit) : Relines ForInit.slots ForInit.unlined init := by
  intro ts hts
  cases init with
  | declaration d =>
    obtain ⟨d', hd, hspells⟩ := d.relines ts hts
    exact ⟨.declaration d', congrArg ForInit.declaration hd, hspells⟩
  | assignment a =>
    obtain ⟨a', ha, hspells⟩ := a.relines ts hts
    exact ⟨.assignment a', congrArg ForInit.assignment ha, hspells⟩

/-- What a counted loop does after each round takes its line from its target. -/
theorem ForStep.relines (step : ForStep) : Relines ForStep.slots ForStep.unlined step := by
  intro ts hts
  cases step with
  | increment target line =>
    cases hts with
    | @cons _ t _ _ htarget hts =>
      exact ⟨.increment target t.line, rfl, .cons htarget.fits_firstWord (spells_mark hts)⟩
  | decrement target line =>
    cases hts with
    | @cons _ t _ _ htarget hts =>
      exact ⟨.decrement target t.line, rfl, .cons htarget.fits_firstWord (spells_mark hts)⟩
  | assignment a =>
    obtain ⟨a', ha, hspells⟩ := a.relines ts hts
    exact ⟨.assignment a', congrArg ForStep.assignment ha, hspells⟩

/-- A parameter keeps no line, and neither do the commas. -/
theorem line_eq_none_of_mem_separated {s : Slot} {parameters : List Parameter}
    (hs : s ∈ separated (parameters.map Parameter.slots)) : s.line = none := by
  have hslots (p : Parameter) : ∀ s ∈ p.slots, s.line = none := by
    intro s hs
    rcases List.mem_pair.mp hs with rfl | rfl <;> rfl
  cases parameters with
  | nil => cases hs
  | cons p more =>
    rw [List.map_cons, separated, List.mem_append, List.mem_flatMap] at hs
    rcases hs with hs | ⟨row, hrow, hs⟩
    · exact hslots p s hs
    · obtain ⟨q, _, rfl⟩ := List.mem_map.mp hrow
      rcases List.mem_cons.mp hs with rfl | hs
      · rfl
      · exact hslots q s hs

/-- The head of a function takes its line from its type. -/
theorem Signature.relines (s : Signature) : Relines Signature.slots Signature.unlined s := by
  intro ts hts
  obtain ⟨returnType, name, parameters, line⟩ := s
  cases hts with
  | @cons _ t _ _ htype hts =>
    refine ⟨⟨returnType, name, parameters, t.line⟩, rfl, .cons htype.fits_first ?_⟩
    refine spells_of_suits ?_ hts
    rw [List.forall_mem_cons, List.forall_mem_cons, List.forall_mem_append,
      List.forall_mem_singleton]
    exact ⟨rfl, rfl, fun _ => line_eq_none_of_mem_separated, rfl⟩

/-- A condition between its parentheses. -/
theorem relines_condition (e : Expr) : Relines conditionSlots Expr.unlined e := by
  intro ts hts
  cases hts with
  | cons hopen hts =>
    obtain ⟨us, vs, rfl, hus, hvs⟩ := forall₂_append_left hts
    obtain ⟨e', he, hspells⟩ := e.relines us hus
    exact ⟨e', he, .cons hopen.fits_mark (List.rel_append hspells (spells_mark hvs))⟩

mutual

/-- A statement takes its line from its first token, a function a second one from the brace of its
body. -/
theorem Stmt.relines (s : Stmt) : Relines Stmt.slots Stmt.unlined s := by
  intro ts hts
  match s with
  | .block body line =>
    cases hts with
    | @cons _ t _ _ hopen hts =>
      obtain ⟨us, vs, rfl, hus, hvs⟩ := forall₂_append_left hts
      obtain ⟨body', hbody, hspells⟩ := relines_row body us hus
      exact ⟨.block body' t.line, by simp only [Stmt.unlined, hbody],
        .cons hopen.fits_first (List.rel_append hspells (spells_mark hvs))⟩
  | .declaration d =>
    obtain ⟨us, vs, rfl, hus, hvs⟩ := forall₂_append_left hts
    obtain ⟨d', hd, hspells⟩ := d.relines us hus
    exact ⟨.declaration d', congrArg Stmt.declaration hd,
      List.rel_append hspells (spells_ending hvs)⟩
  | .assignment a =>
    obtain ⟨us, vs, rfl, hus, hvs⟩ := forall₂_append_left hts
    obtain ⟨a', ha, hspells⟩ := a.relines us hus
    exact ⟨.assignment a', congrArg Stmt.assignment ha,
      List.rel_append hspells (spells_ending hvs)⟩
  | .ifThen condition body line =>
    cases hts with
    | @cons _ t _ _ hif hts =>
      obtain ⟨us, vs, rfl, hus, hvs⟩ := forall₂_append_left hts
      obtain ⟨condition', hcondition, hspells⟩ := relines_condition condition us hus
      obtain ⟨body', hbody, hspells'⟩ := body.relines vs hvs
      exact ⟨.ifThen condition' body' t.line, by simp only [Stmt.unlined, hcondition, hbody],
        .cons hif.fits_first (List.rel_append hspells hspells')⟩
  | .whileLoop condition body line =>
    cases hts with
    | @cons _ t _ _ hwhile hts =>
      obtain ⟨us, vs, rfl, hus, hvs⟩ := forall₂_append_left hts
      obtain ⟨condition', hcondition, hspells⟩ := relines_condition condition us hus
      obtain ⟨body', hbody, hspells'⟩ := body.relines vs hvs
      exact ⟨.whileLoop condition' body' t.line, by simp only [Stmt.unlined, hcondition, hbody],
        .cons hwhile.fits_first (List.rel_append hspells hspells')⟩
  | .ifElse condition onTrue onFalse line =>
    cases hts with
    | @cons _ t _ _ hif hts =>
      obtain ⟨us, vs, rfl, hus, hvs⟩ := forall₂_append_left hts
      obtain ⟨condition', hcondition, hspells⟩ := relines_condition condition us hus
      obtain ⟨ws, _, xs, rfl, hws, helse, hxs⟩ := forall₂_append_cons_left hvs
      obtain ⟨onTrue', htrue, hspellsTrue⟩ := onTrue.relines ws hws
      obtain ⟨onFalse', hfalse, hspellsFalse⟩ := onFalse.relines xs hxs
      exact ⟨.ifElse condition' onTrue' onFalse' t.line,
        by simp only [Stmt.unlined, hcondition, htrue, hfalse],
        .cons hif.fits_first (List.rel_append hspells
          (List.rel_append hspellsTrue (.cons helse.fits_mark hspellsFalse)))⟩
  | .forLoop init condition step body line =>
    cases hts with
    | @cons _ t _ _ hfor hts =>
      cases hts with
      | cons hopen hts =>
        -- the tokens split at the two semicolons and at the closing parenthesis
        obtain ⟨is, _, us, rfl, his, hsemicolon, hus⟩ := forall₂_append_cons_left hts
        obtain ⟨cs, _, vs, rfl, hcs, hsemicolon', hvs⟩ := forall₂_append_cons_left hus
        obtain ⟨ss, _, ws, rfl, hss, hclose, hws⟩ := forall₂_append_cons_left hvs
        obtain ⟨init', hinit, hspellsInit⟩ := relines_option (fun a _ => a.relines) is his
        obtain ⟨condition', hcondition, hspellsCondition⟩ :=
          relines_option (fun a _ => a.relines) cs hcs
        obtain ⟨step', hstep, hspellsStep⟩ := relines_option (fun a _ => a.relines) ss hss
        obtain ⟨body', hbody, hspellsBody⟩ := body.relines ws hws
        exact ⟨.forLoop init' condition' step' body' t.line,
          by simp only [Stmt.unlined, hinit, hcondition, hstep, hbody],
          .cons hfor.fits_first (.cons hopen.fits_mark (List.rel_append hspellsInit
            (.cons hsemicolon.fits_mark (List.rel_append hspellsCondition
              (.cons hsemicolon'.fits_mark (List.rel_append hspellsStep
                (.cons hclose.fits_mark hspellsBody)))))))⟩
  | .function signature body bodyLine =>
    obtain ⟨us, t, vs, rfl, hus, hopen, hvs⟩ := forall₂_append_cons_left hts
    obtain ⟨ws, xs, rfl, hws, hxs⟩ := forall₂_append_left hvs
    obtain ⟨signature', hsignature, hspells⟩ := signature.relines us hus
    obtain ⟨body', hbody, hspells'⟩ := relines_row body ws hws
    exact ⟨.function signature' body' t.line, by simp only [Stmt.unlined, hsignature, hbody],
      List.rel_append hspells
        (.cons hopen.fits_first (List.rel_append hspells' (spells_mark hxs)))⟩
  | .prototype signature =>
    obtain ⟨us, vs, rfl, hus, hvs⟩ := forall₂_append_left hts
    obtain ⟨signature', hsignature, hspells⟩ := signature.relines us hus
    exact ⟨.prototype signature', congrArg Stmt.prototype hsignature,
      List.rel_append hspells (spells_mark hvs)⟩
  | .result none line =>
    cases hts with
    | @cons _ t _ _ hreturn hts =>
      exact ⟨.result none t.line, rfl, .cons hreturn.fits_first (spells_mark hts)⟩
  | .result (some e) line =>
    cases hts with
    | @cons _ t _ _ hreturn hts =>
      obtain ⟨us, vs, rfl, hus, hvs⟩ := forall₂_append_left hts
      obtain ⟨e', he, hspells⟩ := e.relines us hus
      exact ⟨.result (some e') t.line, by simp only [Stmt.unlined, Option.map_some, he],
        .cons hreturn.fits_first (List.rel_append hspells (spells_ending hvs))⟩

/-- The statements of a row take their lines from their own tokens. -/
theorem relines_row (row : List Stmt) : Relines rowSlots unlinedRow row := by
  intro ts hts
  match row with
  | [] =>
    cases hts
    exact ⟨[], rfl, .nil⟩
  | s :: more =>
    obtain ⟨us, vs, rfl, hus, hvs⟩ := forall₂_append_left hts
    obtain ⟨s', hs, hspells⟩ := s.relines us hus
    obtain ⟨more', hmore, hspells'⟩ := relines_row more vs hvs
    exact ⟨s' :: more', by simp only [unlinedRow, hs, hmore], List.rel_append hspells hspells'⟩

end

/-- Tokens that suit the slots of a program spell one that differs from it in its lines
alone. -/
theorem Program.exists_relined (p : Program) {ts : List Token}
    (hts : List.Forall₂ Suits p.slots ts) :
    ∃ q : Program, q.unlined = p.unlined ∧ Spells q.slots ts := by
  obtain ⟨body, hbody, hspells⟩ := relines_row p.body ts hts
  exact ⟨⟨body⟩, congrArg Program.mk hbody, hspells⟩

end Tercet
