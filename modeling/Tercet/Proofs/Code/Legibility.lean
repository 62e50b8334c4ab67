import Tercet.Proofs.Code.Decoding
import Tercet.Proofs.Code.Emission
import Tercet.Proofs.Reading.Refusals

/-!
# `Tercet.Proofs.Code.Legibility`: a listing tells its code

The code of a program is legible if the program comes from a source, with or without errors
(`legible_lower_compile`). The names and numbers of such a program are texts of tokens, and the
names that lowering makes up are a letter and digits. `Emit.Legible` says that a step of lowering
keeps to that, and its rules follow the steps.

Legible code can be read back from its listing, so no two codes have the same listing
(`unambiguous_render`).
-/

set_option autoImplicit false

namespace Tercet

open Text Listing

/-! ### Lowering keeps code legible -/

namespace Text

/-- Digits may stand in operands. -/
theorem isLegibleChar_of_isDigit {c : Char} (h : c.isDigit = true) : isLegibleChar c = true := by
  simp [isLegibleChar, Char.isAlphanum, h]

/-- A letter and a number make up a legible name, which is how temporaries and labels are named. -/
theorem isLegible_append_toString {s : String} (h : isLegible s = true) (n : Nat) :
    isLegible (s ++ toString n) = true := by
  obtain ⟨hne, hchars⟩ := isLegible_iff.mp h
  rw [isLegible_iff, String.toList_append]
  refine ⟨by simp [hne], List.forall_mem_append.mpr ⟨hchars, fun c hc => ?_⟩⟩
  rw [show (toString n).toList = Nat.toDigits 10 n from Nat.toList_repr] at hc
  exact isLegibleChar_of_isDigit (Nat.isDigit_of_mem_toDigits (by omega) (by omega) hc)

end Text

/-- From legible code the step leads to legible code, and its answer is good. -/
def Emit.Legible {α : Type} (x : Emit α) (good : α → Prop) : Prop :=
  ∀ ⦃g : Emitter⦄, g.Legible → (x g).2.Legible ∧ good (x g).1

namespace Emit.Legible

variable {α β : Type} {x : Emit α} {good : α → Prop} {good' : β → Prop}

/-- An answer that is good stays so. -/
theorem pure {a : α} (ha : good a) : Legible (Pure.pure a : Emit α) good :=
  fun _ hg => ⟨hg, ha⟩

/-- One step after another: the second may rely on the answer of the first. -/
theorem bind {f : α → Emit β} (hx : x.Legible good) (hf : ∀ a, good a → (f a).Legible good') :
    (x >>= f).Legible good' := by
  intro g hg
  obtain ⟨hcode, hgood⟩ := hx hg
  exact hf _ hgood hcode

/-- A temporary is named by `t` and a number. -/
theorem newTemp : Emit.newTemp.Legible fun t => isLegible t = true :=
  fun g hg => ⟨hg, isLegible_append_toString (by decide) g.temps⟩

/-- A label is named by `L` and a number. -/
theorem newLabel : Emit.newLabel.Legible fun l => isLegible l = true :=
  fun g hg => ⟨hg, isLegible_append_toString (by decide) g.labels⟩

/-- An instruction has to be legible by itself. -/
theorem instr {i : Instr} (hi : i.Legible) : (Emit.instr i).Legible fun _ => True := by
  intro g hg
  rw [Emitter.Legible, instructions_instr, List.forall_mem_append, List.forall_mem_singleton]
  exact ⟨⟨hg, hi⟩, trivial⟩

/-- The depth is no part of the instructions. -/
theorem indented {body : Emit Unit} (h : body.Legible fun _ => True) :
    body.indented.Legible fun _ => True :=
  fun g hg => h (g := { g with depth := g.depth + 1 }) hg

/-- The target of a join is a new temporary. -/
theorem join {l r : String} (hl : isLegible l = true) (op : BinaryOp) (hr : isLegible r = true) :
    (Emit.join l op r).Legible fun t => isLegible t = true := by
  refine newTemp.bind fun t ht => (instr ?_).bind fun _ _ => pure ht
  simp [Instr.Legible, Instr.texts, ht, hl, hr]

/-- A store mentions its target, its value and perhaps a temporary. -/
theorem store {target value : String} (htarget : isLegible target = true) (op : AssignOp)
    (hvalue : isLegible value = true) :
    (Emit.store target op value).Legible fun _ => True := by
  rw [Emit.store]
  split
  · exact instr (by simp [Instr.Legible, Instr.texts, htarget, hvalue])
  · refine (join htarget _ hvalue).bind fun t ht => instr ?_
    simp [Instr.Legible, Instr.texts, htarget, ht]

/-- Steps for the items of a row, one after the other. -/
theorem forM {items : List α} {f : α → Emit Unit}
    (hf : ∀ a ∈ items, (f a).Legible fun _ => True) : Legible (items.forM f) fun _ => True := by
  induction items with
  | nil => exact pure trivial
  | cons a items ih =>
    rw [List.forall_mem_cons] at hf
    exact hf.1.bind fun _ _ => ih hf.2

end Emit.Legible

namespace Slot

/-- The names and numbers of the slots are legible. -/
def Legible (slots : List Slot) : Prop :=
  ∀ s ∈ slots, s.kind = .identifier ∨ s.kind = .number → ∀ x ∈ s.text, isLegible x = true

variable {slots : List Slot}

@[simp] theorem legible_append {more : List Slot} :
    Legible (slots ++ more) ↔ Legible slots ∧ Legible more :=
  List.forall_mem_append

@[simp] theorem legible_mark_cons {k : Kind} : Legible (mark k :: slots) ↔ Legible slots := by
  simp [Legible, mark]

@[simp] theorem legible_first_cons {k : Kind} {line : Nat} :
    Legible (Slot.first k line :: slots) ↔ Legible slots := by
  simp [Legible, Slot.first]

@[simp] theorem legible_word_cons {text : String} :
    Legible (word text :: slots) ↔ isLegible text = true ∧ Legible slots := by
  simp [Legible, word]

@[simp] theorem legible_identifier_cons {text : String} {line : Nat} :
    Legible (firstWord .identifier text line :: slots)
      ↔ isLegible text = true ∧ Legible slots := by
  simp [Legible, firstWord]

@[simp] theorem legible_number_cons {text : String} {line : Nat} :
    Legible (firstWord .number text line :: slots) ↔ isLegible text = true ∧ Legible slots := by
  simp [Legible, firstWord]

/-- Commas have no texts. -/
theorem Legible.of_separated {rows : List (List Slot)} (h : Legible (separated rows)) :
    ∀ row ∈ rows, Legible row :=
  fun _ hrow s hs => h s (mem_separated hrow hs)

end Slot

open Slot

mutual

/-- The operand of an expression is legible, and so is its code. Both are shown together, since
the code of a join mentions operands. -/
theorem Expr.legible_lower (e : Expr) (h : Slot.Legible e.slots) :
    e.lower.Legible fun r => isLegible r = true := by
  cases e with
  | term t => exact t.legible_lower h
  | binary left op right =>
    rw [Expr.slots, legible_append, legible_mark_cons] at h
    exact (left.legible_lower h.1).bind fun l hl =>
      (right.legible_lower h.2).bind fun r hr => .join hl op hr

/-- So it is for a term. -/
theorem Term.legible_lower (t : Term) (h : Slot.Legible t.slots) :
    t.lower.Legible fun r => isLegible r = true := by
  cases t with
  | factor f => exact f.legible_lower h
  | binary left op right =>
    rw [Term.slots, legible_append, legible_mark_cons] at h
    exact (left.legible_lower h.1).bind fun l hl =>
      (right.legible_lower h.2).bind fun r hr => .join hl op hr

/-- A factor is a text of the source, or a new temporary if it is a call. -/
theorem Factor.legible_lower (f : Factor) (h : Slot.Legible f.slots) :
    f.lower.Legible fun r => isLegible r = true := by
  cases f with
  | number text line =>
    rw [Factor.slots, legible_number_cons] at h
    exact .pure h.1
  | ident name line =>
    rw [Factor.slots, legible_identifier_cons] at h
    exact .pure h.1
  | group inner line =>
    rw [Factor.slots, legible_first_cons, legible_append] at h
    exact inner.legible_lower h.1
  | call name arguments line =>
    rw [Factor.slots, legible_identifier_cons, legible_mark_cons, legible_append,
      argumentSlots_eq_map] at h
    have hargs := List.forall_mem_map.mp h.2.1.of_separated
    -- the operands come first, then they are handed over, and the call has a new temporary
    refine (legible_lowerArguments arguments hargs).bind fun values hvalues => ?_
    refine (Emit.Legible.forM fun v hv => .instr ?_).bind fun _ _ => ?_
    · simpa [Instr.Legible, Instr.texts] using hvalues v hv
    · refine Emit.Legible.newTemp.bind fun t ht => (Emit.Legible.instr ?_).bind fun _ _ => .pure ht
      simp [Instr.Legible, Instr.texts, ht, h.1]

/-- All operands of a call are legible before they are handed over. -/
theorem legible_lowerArguments (es : List Expr) (h : ∀ e ∈ es, Slot.Legible e.slots) :
    (lowerArguments es).Legible fun values => ∀ v ∈ values, isLegible v = true := by
  cases es with
  | nil => exact .pure (List.forall_mem_nil _)
  | cons e es =>
    rw [List.forall_mem_cons] at h
    exact (e.legible_lower h.1).bind fun v hv =>
      (legible_lowerArguments es h.2).bind fun values hvalues =>
        .pure (List.forall_mem_cons.mpr ⟨hv, hvalues⟩)

end

/-- A declared name is mentioned with or without a value. -/
theorem Declarator.legible_lower (d : Declarator) (h : Slot.Legible d.slots) :
    d.lower.Legible fun _ => True := by
  obtain ⟨name, initializer⟩ := d
  cases initializer with
  | none =>
    rw [Declarator.slots, legible_word_cons] at h
    exact .instr (by simp [Instr.Legible, Instr.texts, h.1])
  | some e =>
    rw [Declarator.slots, legible_word_cons, legible_mark_cons] at h
    refine (e.legible_lower h.2).bind fun r hr => .instr ?_
    simp [Instr.Legible, Instr.texts, h.1, hr]

/-- The names of a declaration, one after the other. -/
theorem Declaration.legible_lower (d : Declaration) (h : Slot.Legible d.slots) :
    d.lower.Legible fun _ => True := by
  rw [Declaration.slots, legible_first_cons] at h
  have hnames := List.forall_mem_map.mp h.of_separated
  exact .forM fun name hname => name.legible_lower (hnames name hname)

/-- An assignment mentions its target and the operand of its value. -/
theorem Assignment.legible_lower (a : Assignment) (h : Slot.Legible a.slots) :
    a.lower.Legible fun _ => True := by
  rw [Assignment.slots, legible_identifier_cons, legible_mark_cons] at h
  exact (a.value.legible_lower h.2).bind fun r hr => .store h.1 a.op hr

/-- The start of a loop is legible as what it is. -/
theorem ForInit.legible_lower (init : Option ForInit)
    (h : Slot.Legible (optionSlots ForInit.slots init)) :
    (ForInit.lower init).Legible fun _ => True := by
  cases init with
  | none => exact .pure trivial
  | some init =>
    cases init with
    | declaration d => exact d.legible_lower h
    | assignment a => exact a.legible_lower h

/-- A step by one mentions its name and the number `1`. -/
theorem ForStep.legible_lower (step : Option ForStep)
    (h : Slot.Legible (optionSlots ForStep.slots step)) :
    (ForStep.lower step).Legible fun _ => True := by
  cases step with
  | none => exact .pure trivial
  | some step =>
    cases step with
    | increment target line | decrement target line =>
      rw [optionSlots, ForStep.slots, legible_identifier_cons] at h
      exact .store h.1 _ (by decide)
    | assignment a => exact a.legible_lower h

/-- A test mentions its operand and a label. -/
theorem legible_unlessGoto (e : Expr) (h : Slot.Legible e.slots) {label : String}
    (hlabel : isLegible label = true) : (Emit.unlessGoto e label).Legible fun _ => True := by
  refine (e.legible_lower h).bind fun r hr => .instr ?_
  simp [Instr.Legible, Instr.texts, hr, hlabel]

/-- A condition that is left out mentions nothing. -/
theorem legible_unlessHolds (condition : Option Expr)
    (h : Slot.Legible (optionSlots Expr.slots condition)) {label : String}
    (hlabel : isLegible label = true) :
    (Emit.unlessHolds condition label).Legible fun _ => True := by
  cases condition with
  | none => exact .pure trivial
  | some e => exact legible_unlessGoto e h hlabel

/-- A label mentions its name. -/
theorem legible_label {name : String} (h : isLegible name = true) :
    (Emit.instr (.label name)).Legible fun _ => True :=
  .instr (by simp [Instr.Legible, Instr.texts, h])

/-- So does a jump. -/
theorem legible_goto {name : String} (h : isLegible name = true) :
    (Emit.instr (.goto name)).Legible fun _ => True :=
  .instr (by simp [Instr.Legible, Instr.texts, h])

mutual

/-- A statement with legible names and numbers is lowered to legible code. Its labels are new, and
they are legible from where they are named on. -/
theorem Stmt.legible_lower (s : Stmt) (h : Slot.Legible s.slots) :
    s.lower.Legible fun _ => True := by
  cases s with
  | block body line =>
    rw [Stmt.slots, legible_first_cons, legible_append] at h
    exact legible_lowerAll body h.1
  | declaration d =>
    rw [Stmt.slots, legible_append] at h
    exact d.legible_lower h.1
  | assignment a =>
    rw [Stmt.slots, legible_append] at h
    exact a.legible_lower h.1
  | ifThen condition body line =>
    simp only [Stmt.slots, conditionSlots, legible_first_cons, legible_append, legible_mark_cons]
      at h
    refine Emit.Legible.newLabel.bind fun done hdone => ?_
    refine (legible_unlessGoto condition h.1.1 hdone).bind fun _ _ => ?_
    exact (body.legible_lower h.2).indented.bind fun _ _ => legible_label hdone
  | ifElse condition onTrue onFalse line =>
    simp only [Stmt.slots, conditionSlots, legible_first_cons, legible_append, legible_mark_cons]
      at h
    refine Emit.Legible.newLabel.bind fun other hother => ?_
    refine Emit.Legible.newLabel.bind fun done hdone => ?_
    refine (legible_unlessGoto condition h.1.1 hother).bind fun _ _ => ?_
    refine ((onTrue.legible_lower h.2.1).bind fun _ _ => legible_goto hdone).indented.bind
      fun _ _ => ?_
    refine (legible_label hother).bind fun _ _ => ?_
    exact (onFalse.legible_lower h.2.2).indented.bind fun _ _ => legible_label hdone
  | whileLoop condition body line =>
    simp only [Stmt.slots, conditionSlots, legible_first_cons, legible_append, legible_mark_cons]
      at h
    refine Emit.Legible.newLabel.bind fun start hstart => ?_
    refine Emit.Legible.newLabel.bind fun done hdone => ?_
    refine (legible_label hstart).bind fun _ _ => ?_
    have hround := (legible_unlessGoto condition h.1.1 hdone).bind fun _ _ =>
      (body.legible_lower h.2).bind fun _ _ => legible_goto hstart
    exact hround.indented.bind fun _ _ => legible_label hdone
  | forLoop init condition step body line =>
    simp only [Stmt.slots, legible_first_cons, legible_append, legible_mark_cons] at h
    -- with the test as a step of its own, whether or not there is a condition
    rw [Stmt.lower_forLoop]
    refine Emit.Legible.newLabel.bind fun start hstart => ?_
    refine Emit.Legible.newLabel.bind fun done hdone => ?_
    refine (ForInit.legible_lower init h.1).bind fun _ _ => ?_
    refine (legible_label hstart).bind fun _ _ => ?_
    have hround := (legible_unlessHolds condition h.2.1 hdone).bind fun _ _ =>
      (body.legible_lower h.2.2.2).bind fun _ _ =>
        (ForStep.legible_lower step h.2.2.1).bind fun _ _ => legible_goto hstart
    exact hround.indented.bind fun _ _ => legible_label hdone
  -- the entry of a function is a label by a name of the source
  | function signature body bodyLine =>
    simp only [Stmt.slots, Signature.slots, legible_first_cons, legible_append, legible_word_cons]
      at h
    exact (legible_label h.1.1).bind fun _ _ => (legible_lowerAll body h.2.1).indented
  | prototype signature => exact .pure trivial
  | result value line =>
    cases value with
    | none => exact .instr (List.forall_mem_nil _)
    | some e =>
      rw [Stmt.slots, legible_first_cons, legible_append] at h
      refine (e.legible_lower h.1).bind fun r hr => .instr ?_
      simp [Instr.Legible, Instr.texts, hr]

/-- So it is for a row of statements. -/
theorem legible_lowerAll (row : List Stmt) (h : Slot.Legible (rowSlots row)) :
    (lowerAll row).Legible fun _ => True := by
  cases row with
  | nil => exact .pure trivial
  | cons s more =>
    rw [rowSlots, legible_append] at h
    exact (s.legible_lower h.1).bind fun _ _ => legible_lowerAll more h.2

end

/-! ### Code of a source -/

/-- Names and numbers of a source are legible. -/
theorem Kind.Writes.isLegible {k : Kind} {text : String} (h : k.Writes text.toList)
    (hk : k = .identifier ∨ k = .number) : isLegible text = true := by
  rw [isLegible_iff]
  -- letters, digits and underscores are what words go on with
  have hword {c : Char} (hc : Pattern.isWordRest c = true) : isLegibleChar c = true := by
    rw [isLegibleChar, show (c.isAlphanum || c == '_') = true from hc]
    rfl
  generalize text.toList = cs at h
  cases h with
  | word hstart hrest =>
    refine ⟨List.cons_ne_nil _ _, List.forall_mem_cons.mpr ⟨?_, fun d hd => hword (hrest d hd)⟩⟩
    exact hword (Pattern.isWordRest_of_isWordStart hstart)
  | whole hne hdigits => exact ⟨hne, fun d hd => isLegibleChar_of_isDigit (hdigits d hd)⟩
  | fraction hne hdigits hsome hdecimals =>
    refine ⟨by simp, List.forall_mem_append.mpr ⟨?_, List.forall_mem_cons.mpr ⟨by decide, ?_⟩⟩⟩
    · exact fun d hd => isLegibleChar_of_isDigit (hdigits d hd)
    · exact fun d hd => isLegibleChar_of_isDigit (hdecimals d hd)
  -- names and numbers have no text of their own
  | fixed htext =>
    rw [Kind.fixedText?_eq] at htext
    rcases hk with rfl | rfl <;> cases htext

/-- The names and numbers of a program come from tokens, also where reading has failed in between:
what is put in by recovery are semicolons. -/
theorem legible_ofTokens {tokens : List Token} (htokens : ∀ t ∈ tokens, t.Lexical) :
    Slot.Legible (Program.ofTokens tokens).1.slots := by
  have hrow := parallel_row none (.refl (Parser.ofTokens tokens Forms.standard [])) rfl
  obtain ⟨-, ts, ds, h, ⟨kept, hsublist, hspells⟩, -, hend⟩ := hrow.of_modifyGet
  rw [beforeEnd_eq_of_passes h.left (hend.resolve_right (Option.some_ne_none _))] at hsublist
  intro s hs hkind x hx
  -- only semicolons can be put in by recovery, so the slot has a token of the source
  have hbare : s ∈ bare (Program.ofTokens tokens).1.slots := by
    refine List.mem_filter.mpr ⟨hs, ?_⟩
    rcases hkind with hkind | hkind <;> rw [hkind] <;> rfl
  obtain ⟨t, ht, hfits⟩ := exists_mem_of_forall₂ hspells hbare
  have hmem : t ∈ tokens := List.takeWhile_subset _ (hsublist.subset ht)
  rw [← hfits.1] at hkind
  rw [← hfits.2.1 x hx]
  -- the closing token is neither a name nor a number
  rcases htokens t hmem with hwrites | ⟨line, rfl⟩
  · exact hwrites.isLegible hkind
  · rcases hkind with hkind | hkind <;> cases hkind

/-- Where a source cannot be cut, there are no tokens. -/
theorem lexical_tokensOf (source : String) : ∀ t ∈ (tokensOf source).1, t.Lexical := by
  rw [tokensOf]
  split
  · next h => exact lexical_of_ofSource h
  · exact List.forall_mem_nil _

/-- Whatever is reported about a source, the code of its program is legible. -/
theorem legible_lower_compile (source : String) : (compile source).program.lower.Legible := by
  have hempty : Emitter.empty.Legible := List.forall_mem_nil _
  exact (legible_lowerAll _ (legible_ofTokens (lexical_tokensOf source)) hempty).1

/-- A listing tells its code. Reading it as `decode?` does gives the instructions again, each with
its depth, so legible codes with the same listing are the same. The code of every source is
legible. -/
theorem unambiguous_render :
    (∀ g g' : Emitter, g.Legible → g'.Legible → g.render = g'.render → g.code = g'.code) ∧
    (∀ g : Emitter, g.Legible → decode? g.render = some g.code.toList) ∧
    ∀ source, (compile source).program.lower.Legible := by
  refine ⟨fun g g' hg hg' h => ?_, fun g hg => g.decode?_render hg, legible_lower_compile⟩
  have hcode := g.decode?_render hg
  rw [h, g'.decode?_render hg', Option.some.injEq] at hcode
  exact Array.toList_inj.mp hcode.symm

/-- Code whose names are words of listings. -/
def wordyCode : Emitter where
  code := #[(0, .copy "call" "goto"), (0, .ifNotGoto "goto" "not"), (1, .param "DECLARE"),
    (1, .call "if" "param"), (1, .binary "not" "call" .less "not"), (2, .goto "not"),
    (0, .label "not"), (0, .declare "return"), (0, .result (some "return")), (0, .result none)]
  temps := 0
  labels := 0
  depth := 0

/-- Names that look like words of a listing do no harm. -/
theorem unambiguous_wordyCode :
    wordyCode.Legible ∧ decode? wordyCode.render = some wordyCode.code.toList ∧
    ∀ g : Emitter, g.Legible → g.render = wordyCode.render → g.code = wordyCode.code := by
  have hlegible : wordyCode.Legible := by decide
  exact ⟨hlegible, unambiguous_render.2.1 _ hlegible,
    fun g hg => unambiguous_render.1 g _ hg hlegible⟩

/-- A blank in an operand would be taken for one between words. -/
example : (Instr.copy "x" "call f").display = (Instr.call "x" "f").display := by decide

end Tercet
