import Tercet.Proofs.Check.Walk
import Tercet.Proofs.Symbol.Aging
import Tercet.Proofs.Tree.Spelling

/-!
# `Tercet.Proofs.Check.Lines`: where the analysis finds its lines

A line goes from the tree into a symbol and from the tree or a symbol into a report. On that way
none is made up. `Checker.Known L` says so of a checker: its symbols were declared on lines of
`L`, and what it has reported is semantic and stands on lines of `L`. Every rule keeps it if the
line that the rule is given is one of `L`, so every request with such lines does
(`Checker.Known.perform`). The requests of a tree have its lines (`Stmt.lined_requests`), and the
result is `known_analyze`.

The one report that comes from a symbol is that of a variable that is never read. It needs the
lines of symbols to last: aging leaves them, and a definition that takes the place of a prototype
brings a line of its own.
-/

set_option autoImplicit false

namespace Tercet

open Slot

variable {L : Nat → Prop}

/-! ### First lines of expressions -/

/-- The line of a factor is that of its first token, which keeps one in each of the four forms. -/
theorem Factor.line_of_lined {f : Factor} (h : Lined L f.slots) : L f.line := by
  cases f with
  | number | ident | call | group =>
    simp only [Factor.slots, lined_first_cons, lined_firstWord_cons] at h
    exact h.1

/-- A term has the line of its first factor, so the recursion goes to the left. -/
theorem Term.line_of_lined {t : Term} (h : Lined L t.slots) : L t.line := by
  match t with
  | .factor f => exact f.line_of_lined h
  | .binary left _ _ =>
    rw [Term.slots, lined_append] at h
    exact left.line_of_lined h.1

/-! ### Tables -/

/-- What holds of the items of one row holds of the items related to them. -/
theorem forall_mem_of_forall₂ {α β : Type} {R : α → β → Prop} {P : α → Prop} {Q : β → Prop}
    {as : List α} {bs : List β} (hab : List.Forall₂ R as bs) (hR : ∀ a b, R a b → P a → Q b)
    (h : ∀ a ∈ as, P a) : ∀ b ∈ bs, Q b := by
  induction hab with
  | nil => exact List.forall_mem_nil _
  | cons hhead _ ih =>
    obtain ⟨hfirst, hmore⟩ := List.forall_mem_cons.mp h
    exact List.forall_mem_cons.mpr ⟨hR _ _ hhead hfirst, ih hmore⟩

/-- A symbol that is read or stored into stays where it was declared. -/
theorem Symbol.Ages.line_eq {x y : Symbol} (h : x.Ages y) : y.line = x.line := by
  cases h with
  | var h => exact h.line
  | function => rfl

/-- All symbols of the scope were declared on lines of `L`. -/
def Scope.Known (L : Nat → Prop) (s : Scope) : Prop :=
  ∀ x ∈ s.toList, L x.line

/-- All symbols in force were declared on lines of `L`. -/
def Table.Known (L : Nat → Prop) (t : Table) : Prop :=
  ∀ s ∈ t.scopes, s.Known L

/-- A new scope has no symbols at all. -/
theorem Scope.known_empty : Scope.empty.Known L :=
  List.forall_mem_nil _

namespace Table

variable {t t' : Table}

/-- The first table has one empty scope. -/
theorem known_initial : Table.initial.Known L :=
  List.forall_mem_singleton.mpr Scope.known_empty

/-- A new scope adds no symbols. -/
theorem Known.push (h : t.Known L) : t.push.Known L :=
  List.forall_mem_cons.mpr ⟨Scope.known_empty, h⟩

/-- The scopes that remain were there before. -/
theorem Known.pop (h : t.Known L) : t.pop.Known L :=
  fun s hs => h s (List.mem_of_mem_tail hs)

/-- Aging keeps the lines of symbols, so whatever lines are known stay the only ones. -/
theorem Known.ages (h : t.Known L) (hages : t.Ages t') : t'.Known L := by
  refine forall_mem_of_forall₂ hages (fun s s' hs => ?_) h
  exact forall_mem_of_forall₂ hs fun x y hxy hx => hxy.line_eq ▸ hx

/-- The innermost scope is changed into one whose symbols are known as well. -/
theorem Known.modifyInnermost? (h : t.Known L) {f : Scope → Option Scope}
    (hf : ∀ s s', f s = some s' → s.Known L → s'.Known L)
    (ht : t.modifyInnermost? f = some t') : t'.Known L := by
  obtain ⟨s, s', rest, hs', rfl, rfl⟩ := exists_of_modifyInnermost? ht
  obtain ⟨hinner, houter⟩ := List.forall_mem_cons.mp h
  exact List.forall_mem_cons.mpr ⟨hf s s' hs' hinner, houter⟩

/-- The new symbol is the only one whose line has to be known; all others were there. -/
theorem Known.declare? (h : t.Known L) {x : Symbol} (hx : L x.line)
    (ht : t.declare? x = some t') : t'.Known L := by
  refine h.modifyInnermost? (fun s s' hs' hs => ?_) ht
  rw [Scope.Known, Scope.toList_insert? hs']
  exact List.forall_mem_append.mpr ⟨hs, List.forall_mem_singleton.mpr hx⟩

/-- The symbol that is put in place brings its own line, and that of the old one is gone. -/
theorem Known.replace? (h : t.Known L) {x : Symbol} (hx : L x.line)
    (ht : t.modifyInnermost? (fun s => s.replace? x) = some t') : t'.Known L := by
  refine h.modifyInnermost? (fun s s' hs' hs => ?_) ht
  rw [Scope.Known, Scope.toList_replace? hs', List.forall_mem_map]
  intro y hy
  -- the symbol of that name has become the new one
  split
  · exact hx
  · exact hs y hy

/-- The symbols of a table are those of its scopes, in another order. -/
theorem Known.symbols (h : t.Known L) : ∀ x ∈ t.symbols, L x.line := by
  intro x hx
  obtain ⟨s, hs, hmem⟩ := List.mem_flatMap.mp hx
  exact h s (List.mem_reverse.mp hs) x hmem

end Table

/-! ### Types -/

/-- Whatever inference complains about is semantic: only what cannot be read is not. -/
theorem Cause.family_of_isTyping {cause : Cause} (h : cause.isTyping = true) :
    cause.family = .semantic := by
  cases cause with
  | malformed => cases h
  | _ => rfl

/-- The reports are semantic and stand on lines of `L`. -/
def Log.Known (L : Nat → Prop) (log : Log) : Prop :=
  ∀ d ∈ log, L d.line ∧ d.family = .semantic

/-- Reports are put behind each other. -/
theorem Log.Known.append {log more : Log} (h : log.Known L) (hmore : more.Known L) :
    (log ++ more).Known L :=
  List.forall_mem_append.mpr ⟨h, hmore⟩

/-- Two types clash on the line that the operator is given. Without two types there is no
report. -/
theorem BinaryOp.known_combine (op : BinaryOp) (left right : Option DataType) {line : Nat}
    (hline : L line) : (op.combine left right line).2.Known L := by
  intro d hd
  refine ⟨?_, Cause.family_of_isTyping (isTyping_of_mem_combine hd)⟩
  match left, right with
  | some l, some r =>
    simp only [combine, Option.mem_toList, Option.map_eq_some_iff] at hd
    obtain ⟨cause, _, rfl⟩ := hd
    exact hline
  | none, _ | some _, none => cases hd

mutual

/-- Inference reports an operator on the line of its right operand, which is a line of the tree. -/
theorem Expr.known_infer (t : Table) {e : Expr} (h : Lined L e.slots) : (e.infer t).2.Known L := by
  match e with
  | .term only => exact Term.known_infer t (e := only) h
  | .binary left op right =>
    simp only [Expr.slots, lined_append, lined_mark_cons] at h
    exact ((left.known_infer t h.1).append (right.known_infer t h.2)).append
      (op.known_combine _ _ (Term.line_of_lined h.2))

/-- So it does in a term, where the operands are factors. -/
theorem Term.known_infer (t : Table) {e : Term} (h : Lined L e.slots) : (e.infer t).2.Known L := by
  match e with
  | .factor only => exact Factor.known_infer t (f := only) h
  | .binary left op right =>
    simp only [Term.slots, lined_append, lined_mark_cons] at h
    exact ((left.known_infer t h.1).append (right.known_infer t h.2)).append
      (op.known_combine _ _ (Factor.line_of_lined h.2))

/-- A factor by itself is never complained about; what stands between parentheses may be. -/
theorem Factor.known_infer (t : Table) {f : Factor} (h : Lined L f.slots) :
    (f.infer t).2.Known L := by
  match f with
  | .number _ _ | .ident _ _ | .call _ _ _ => exact List.forall_mem_nil _
  | .group inner _ =>
    simp only [Factor.slots, lined_first_cons, lined_append] at h
    exact inner.known_infer t h.2.1

end

/-! ### Rules -/

namespace Checker

/-- The symbols were declared on lines of `L`, and so are the reports, which are semantic. -/
structure Known (L : Nat → Prop) (c : Checker) : Prop where
  table : c.table.Known L
  log : c.log.Known L

variable {c : Checker} {line : Nat}

/-- Nothing has been declared and nothing reported. -/
theorem known_initial : Checker.initial.Known L :=
  ⟨Table.known_initial, List.forall_mem_nil _⟩

/-- Reports do not touch the table. -/
theorem Known.reportAll (h : c.Known L) {log : Log} (hlog : log.Known L) :
    (c.reportAll log).Known L :=
  ⟨h.table, h.log.append hlog⟩

/-- One more report has to be semantic and on a known line. -/
theorem Known.report (h : c.Known L) {cause : Cause} (hcause : cause.family = .semantic)
    (hline : L line) : (c.report cause line).Known L :=
  h.reportAll (List.forall_mem_singleton.mpr ⟨hline, hcause⟩)

/-- Opening a scope reports nothing. -/
theorem Known.push (h : c.Known L) : c.push.Known L :=
  ⟨h.table.push, h.log⟩

/-- Closing one reports nothing either: unread variables are told of at the end. -/
theorem Known.pop (h : c.Known L) : c.pop.Known L :=
  ⟨h.table.pop, h.log⟩

/-- The reports of inference stand on lines of the expression. -/
theorem Known.infer (h : c.Known L) {e : Expr} (he : Lined L e.slots) : (c.infer e).2.Known L :=
  h.reportAll (e.known_infer c.table he)

/-- The operator of a store that computes is reported on the line it is given. -/
theorem Known.combine (h : c.Known L) (left right : Option DataType) (op : BinaryOp)
    (hline : L line) : (c.combine left right op line).2.Known L :=
  h.reportAll (op.known_combine left right hline)

/-- The line of a store is put into the symbol as the line of its last store, where no report
looks. It need not be known. -/
theorem Known.store (h : c.Known L) (name : String) (line : Nat) :
    Known L { c with table := c.table.store name line } :=
  ⟨h.table.ages (c.table.ages_store name line), h.log⟩

/-- A declaration that is refused changes nothing, and one that is made adds one symbol. -/
theorem Known.declare (h : c.Known L) {x : Symbol} (hx : L x.line) : (c.declare x).2.Known L := by
  rw [Checker.declare]
  split
  · rename_i t ht
    exact ⟨h.table.declare? hx ht, h.log⟩
  · exact h

/-- A name that is taken is reported on the line that asks for it, not on that of the symbol in
the way. -/
theorem Known.checkFresh (h : c.Known L) (name : String) (hline : L line) :
    (c.checkFresh name line).2.Known L := by
  rw [Checker.checkFresh]
  split
  · exact h.report rfl hline
  · exact h

/-- Types that do not fit are reported on the line of the store. -/
theorem Known.checkAssignable (h : c.Known L) (expected actual : Option DataType)
    (hline : L line) (context : String) :
    (c.checkAssignable expected actual line context).2.Known L := by
  match expected, actual with
  | none, _ | some _, none => exact h
  | some e, some a =>
    rw [Checker.checkAssignable]
    split
    · exact h
    · exact h.report rfl hline

/-- The initializer brings lines of its own, and everything else is on the line of the
declaration. -/
theorem Known.checkDeclaration (h : c.Known L) (name : String) (type : DataType)
    {initializer : Option Expr} (hvalue : ∀ e ∈ initializer, Lined L e.slots) (hline : L line) :
    (c.checkDeclaration name type initializer line).2.Known L := by
  have hfresh := h.checkFresh name hline
  rw [Checker.checkDeclaration]
  split
  -- the name is taken, and the report about it is all that happens
  · rename_i d hd
    rwa [hd] at hfresh
  · rename_i d hd
    rw [hd] at hfresh
    cases initializer with
    | none => exact hfresh.declare hline
    | some e =>
      exact ((hfresh.infer (hvalue e rfl)).checkAssignable _ _ hline _).declare hline

/-- A parameter has the line of the head that it belongs to. -/
theorem Known.declareParameter (h : c.Known L) (p : Parameter) (hline : L line) :
    (c.declareParameter p line).2.Known L := by
  have hfresh := h.checkFresh p.name hline
  rw [Checker.declareParameter]
  split
  · rename_i d hd
    rwa [hd] at hfresh
  · rename_i d hd
    rw [hd] at hfresh
    exact hfresh.declare hline

/-- A head is put down, completes a prototype or is in the way, and in each case its own line is
used. -/
theorem Known.declareFunction (h : c.Known L) {s : Signature} (hline : L s.line)
    (defined : Bool) : (c.declareFunction s defined).2.Known L := by
  rw [Checker.declareFunction]
  split
  · exact h.declare hline
  · split
    · split
      · split
        -- the definition stands where the prototype was, on its own line
        · rename_i t ht
          exact ⟨h.table.replace? (x := .function s true) hline ht, h.log⟩
        · exact h
      · exact h
    · exact h.report rfl hline

/-- A use that is refused is reported on its line, and one that is granted ages the symbol. -/
theorem Known.checkUse (h : c.Known L) (name : String) (hline : L line) :
    (c.checkUse name line).2.Known L := by
  rw [Checker.checkUse]
  split
  · exact h.report rfl hline
  · split
    · exact ⟨h.table.ages (c.table.ages_markUsed name), h.log⟩
    · exact h.report rfl hline

/-- The store itself brings no line that could be reported. The value and the operator may be. -/
theorem Known.checkAssignment (h : c.Known L) (name : String) (op : AssignOp) {value : Expr}
    (hvalue : Lined L value.slots) (hline : L line) :
    (c.checkAssignment name op value line).2.Known L := by
  rw [Checker.checkAssignment]
  split
  · exact h.report rfl hline
  · have hinfer := (h.store name line).infer hvalue
    cases op.binary? with
    | none => exact hinfer.checkAssignable _ _ hline _
    | some binary => exact (hinfer.combine _ _ binary hline).checkAssignable _ _ hline _

/-- A step reports what a use reports, and then stores. -/
theorem Known.checkStep (h : c.Known L) (name : String) (hline : L line) :
    (c.checkStep name line).2.Known L := by
  have huse := h.checkUse name hline
  rw [Checker.checkStep]
  split
  · rename_i d hd
    rwa [hd] at huse
  · rename_i d hd
    rw [hd] at huse
    exact huse.store name line

/-- A variable that is never read is reported where it was declared. -/
theorem line_of_unused? {x : Symbol} {d : Diagnostic} (h : unused? x = some d) :
    d.line = x.line ∧ d.family = .semantic := by
  cases x with
  | function => cases h
  | var v =>
    rw [unused?] at h
    split at h
    · cases h
    · cases h
      exact ⟨rfl, rfl⟩

/-- The lines come from the symbols here, and this is why the table has to be known. -/
theorem Known.checkUnused (h : c.Known L) : c.checkUnused.Known L := by
  refine h.reportAll fun d hd => ?_
  obtain ⟨x, hx, hunused⟩ := List.mem_filterMap.mp hd
  obtain ⟨hline, hfamily⟩ := line_of_unused? hunused
  exact ⟨hline ▸ h.table.symbols x hx, hfamily⟩

end Checker

/-! ### Requests -/

/-- The lines that a request brings with it, in itself or in its expression, are lines of `L`. -/
def Request.Lined (L : Nat → Prop) : Request → Prop
  | .push | .pop | .unused => True
  | .fresh _ line | .parameter _ line | .use _ line | .step _ line | .combine _ _ _ line
  | .assignable _ _ line _ => L line
  | .declaration _ _ initializer line => L line ∧ ∀ e ∈ initializer, Slot.Lined L e.slots
  | .function s _ => L s.line
  | .assignment _ _ value line => L line ∧ Slot.Lined L value.slots
  | .infer e => Slot.Lined L e.slots

/-- A request with known lines brings no others into the checker. -/
theorem Checker.Known.perform {c : Checker} (h : c.Known L) {q : Request} (hq : q.Lined L) :
    (c.perform q).2.Known L := by
  cases q with
  | push => exact h.push
  | pop => exact h.pop
  | fresh name line => exact h.checkFresh name hq
  | declaration name type initializer line => exact h.checkDeclaration name type hq.2 hq.1
  | parameter p line => exact h.declareParameter p hq
  | function s defined => exact h.declareFunction hq defined
  | use name line => exact h.checkUse name hq
  | assignment name op value line => exact h.checkAssignment name op hq.2 hq.1
  | step name line => exact h.checkStep name hq
  | infer e => exact h.infer hq
  | combine left right op line => exact h.combine left right op hq
  | assignable expected actual line context => exact h.checkAssignable expected actual hq context
  | unused => exact h.checkUnused

/-! ### Trees -/

/-- A reserved word asks for nothing, and any other name asks on its line. -/
theorem lined_useRequests (name : String) {line : Nat} (hline : L line) :
    ∀ q ∈ useRequests name line, q.Lined L := by
  rw [useRequests]
  split
  · exact List.forall_mem_nil _
  · exact List.forall_mem_singleton.mpr hline

mutual

/-- The requests for an expression have the lines of its slots. -/
theorem Expr.lined_requests {e : Expr} (he : Lined L e.slots) : ∀ q ∈ e.requests, q.Lined L := by
  match e with
  | .term t => exact t.lined_requests he
  | .binary left _ right =>
    simp only [Expr.slots, lined_append, lined_mark_cons] at he
    exact List.forall_mem_append.mpr ⟨left.lined_requests he.1, right.lined_requests he.2⟩

/-- So do those for a term. -/
theorem Term.lined_requests {t : Term} (ht : Lined L t.slots) : ∀ q ∈ t.requests, q.Lined L := by
  match t with
  | .factor f => exact f.lined_requests ht
  | .binary left _ right =>
    simp only [Term.slots, lined_append, lined_mark_cons] at ht
    exact List.forall_mem_append.mpr ⟨left.lined_requests ht.1, right.lined_requests ht.2⟩

/-- So do those for a factor. -/
theorem Factor.lined_requests {f : Factor} (hf : Lined L f.slots) :
    ∀ q ∈ f.requests, q.Lined L := by
  match f with
  | .number _ _ => exact List.forall_mem_nil _
  | .ident name line => exact lined_useRequests name (Factor.line_of_lined hf)
  | .call name args line =>
    have hline := Factor.line_of_lined hf
    simp only [Factor.slots, lined_firstWord_cons, lined_mark_cons, lined_append,
      lined_separated] at hf
    exact List.forall_mem_append.mpr
      ⟨lined_useRequests name hline, lined_argumentRequests hf.2.1⟩
  | .group inner line =>
    simp only [Factor.slots, lined_first_cons, lined_append] at hf
    exact inner.lined_requests hf.2.1

/-- So do those for the arguments of a call. -/
theorem lined_argumentRequests {es : List Expr} (hes : ∀ row ∈ argumentSlots es, Lined L row) :
    ∀ q ∈ argumentRequests es, q.Lined L := by
  match es with
  | [] => exact List.forall_mem_nil _
  | e :: es =>
    obtain ⟨he, hmore⟩ := List.forall_mem_cons.mp hes
    exact List.forall_mem_cons.mpr
      ⟨he, List.forall_mem_append.mpr ⟨e.lined_requests he, lined_argumentRequests hmore⟩⟩

end

/-- The request for the type has the expression with all its lines. -/
theorem Expr.lined_typedRequests {e : Expr} (he : Lined L e.slots) :
    ∀ q ∈ e.typedRequests, q.Lined L :=
  List.forall_mem_cons.mpr ⟨he, e.lined_requests he⟩

/-- What is left out has no lines. -/
theorem lined_optionalRequests {o : Option Expr} (ho : ∀ e ∈ o, Lined L e.slots) :
    ∀ q ∈ optionalRequests o, q.Lined L := by
  cases o with
  | none => exact List.forall_mem_nil _
  | some e => exact e.lined_typedRequests (ho e rfl)

/-- A declared name has the line of its declaration. -/
theorem Declarator.lined_requests (type : DataType) {line : Nat} (hline : L line) {d : Declarator}
    (hd : Lined L d.slots) : ∀ q ∈ d.requests type line, q.Lined L := by
  obtain ⟨name, initializer⟩ := d
  cases initializer with
  | none =>
    exact List.forall_mem_singleton.mpr ⟨hline, fun e he => absurd he (Option.not_mem_none e)⟩
  | some e =>
    simp only [Declarator.slots, lined_word_cons, lined_mark_cons] at hd
    exact List.forall_mem_append.mpr ⟨e.lined_requests hd, List.forall_mem_singleton.mpr
      ⟨hline, fun e' he' => Option.some.inj he' ▸ hd⟩⟩

/-- All names of a declaration stand on its line, and their initializers on lines of their own. -/
theorem Declaration.lined_requests {d : Declaration} (hd : Lined L d.slots) :
    ∀ q ∈ d.requests, q.Lined L := by
  simp only [Declaration.slots, lined_first_cons, lined_separated, List.forall_mem_map] at hd
  intro q hq
  obtain ⟨one, hone, hq⟩ := List.mem_flatMap.mp hq
  exact one.lined_requests d.type hd.1 (hd.2 one hone) q hq

/-- An assignment has the line of its target. -/
theorem Assignment.lined_requests {a : Assignment} (ha : Lined L a.slots) :
    ∀ q ∈ a.requests, q.Lined L := by
  simp only [Assignment.slots, lined_firstWord_cons, lined_mark_cons] at ha
  exact List.forall_mem_cons.mpr ⟨ha, a.value.lined_requests ha.2⟩

/-- The start of a loop is a declaration, an assignment or nothing. -/
theorem ForInit.lined_requests {o : Option ForInit} (ho : ∀ init ∈ o, Lined L init.slots) :
    ∀ q ∈ ForInit.requests o, q.Lined L := by
  match o with
  | none => exact List.forall_mem_nil _
  | some (.declaration d) => exact d.lined_requests (ho (.declaration d) rfl)
  | some (.assignment a) => exact a.lined_requests (ho (.assignment a) rfl)

/-- A step by one has the line of its name. -/
theorem ForStep.lined_requests {o : Option ForStep} (ho : ∀ step ∈ o, Lined L step.slots) :
    ∀ q ∈ ForStep.requests o, q.Lined L := by
  match o with
  | none => exact List.forall_mem_nil _
  | some (.assignment a) => exact a.lined_requests (ho (.assignment a) rfl)
  | some (.increment target line) | some (.decrement target line) =>
    have hstep := ho _ rfl
    simp only [ForStep.slots, lined_firstWord_cons] at hstep
    exact List.forall_mem_singleton.mpr hstep.1

/-- Requests in a scope of their own have the lines that they have without it. -/
theorem lined_bracketed {row : List Request} (h : ∀ q ∈ row, q.Lined L) :
    ∀ q ∈ bracketed row, q.Lined L :=
  List.forall_mem_cons.mpr ⟨trivial,
    List.forall_mem_append.mpr ⟨h, List.forall_mem_singleton.mpr trivial⟩⟩

mutual

/-- The requests for a statement have the lines of its slots. -/
theorem Stmt.lined_requests {s : Stmt} (hs : Lined L s.slots) : ∀ q ∈ s.requests, q.Lined L := by
  match s with
  | .block body line =>
    simp only [Stmt.slots, lined_first_cons, lined_append] at hs
    exact lined_requestsAll hs.2.1
  | .declaration d =>
    simp only [Stmt.slots, lined_append] at hs
    exact d.lined_requests hs.1
  | .assignment a =>
    simp only [Stmt.slots, lined_append] at hs
    exact a.lined_requests hs.1
  -- the keyword has a line as well, but no request is made on it
  | .ifThen condition body line | .whileLoop condition body line =>
    simp only [Stmt.slots, conditionSlots, lined_first_cons, lined_mark_cons, lined_append] at hs
    obtain ⟨_, ⟨hcondition, _⟩, hbody⟩ := hs
    exact lined_bracketed (List.forall_mem_append.mpr
      ⟨condition.lined_typedRequests hcondition, body.lined_requests hbody⟩)
  | .ifElse condition onTrue onFalse line =>
    simp only [Stmt.slots, conditionSlots, lined_first_cons, lined_mark_cons, lined_append] at hs
    obtain ⟨_, ⟨hcondition, _⟩, htrue, hfalse⟩ := hs
    have hsides := List.forall_mem_append.mpr
      ⟨onTrue.lined_requests htrue, onFalse.lined_requests hfalse⟩
    exact lined_bracketed (List.forall_mem_append.mpr
      ⟨condition.lined_typedRequests hcondition, hsides⟩)
  | .forLoop init condition step body line =>
    simp only [Stmt.slots, lined_first_cons, lined_mark_cons, lined_append,
      lined_optionSlots] at hs
    obtain ⟨_, hinit, hcondition, hstep, hbody⟩ := hs
    -- the step is looked at before the body, as the requests are
    have hround := List.forall_mem_append.mpr
      ⟨ForStep.lined_requests hstep, body.lined_requests hbody⟩
    exact lined_bracketed (List.forall_mem_append.mpr ⟨ForInit.lined_requests hinit,
      List.forall_mem_append.mpr ⟨lined_optionalRequests hcondition, hround⟩⟩)
  | .function s body bodyLine =>
    simp only [Stmt.slots, Signature.slots, lined_first_cons, lined_append] at hs
    obtain ⟨⟨hline, _⟩, _, hbody, _⟩ := hs
    -- parameters and the function itself have the line of the signature
    have hparameters : ∀ q ∈ s.parameterRequests, q.Lined L :=
      List.forall_mem_map.mpr fun _ _ => hline
    have hinside := lined_bracketed (List.forall_mem_append.mpr
      ⟨hparameters, lined_requestsAll hbody⟩)
    exact List.forall_mem_append.mpr ⟨hinside, List.forall_mem_singleton.mpr hline⟩
  | .prototype s =>
    simp only [Stmt.slots, Signature.slots, lined_first_cons, lined_append] at hs
    exact List.forall_mem_singleton.mpr hs.1.1
  | .result none line => exact List.forall_mem_nil _
  | .result (some e) line =>
    simp only [Stmt.slots, lined_first_cons, lined_append] at hs
    exact e.lined_typedRequests hs.2.1

/-- So do those for a row of statements. -/
theorem lined_requestsAll {body : List Stmt} (hbody : Lined L (rowSlots body)) :
    ∀ q ∈ requestsAll body, q.Lined L := by
  match body with
  | [] => exact List.forall_mem_nil _
  | s :: more =>
    rw [rowSlots, lined_append] at hbody
    exact List.forall_mem_append.mpr ⟨s.lined_requests hbody.1, lined_requestsAll hbody.2⟩

end

/-- The analysis of a program reports semantic causes only, on lines of the program. -/
theorem known_analyze {p : Program} (hp : Lined L p.slots) : p.analyze.log.Known L := by
  have hrequests : ∀ q ∈ p.requests, q.Lined L :=
    List.forall_mem_append.mpr ⟨lined_requestsAll hp, List.forall_mem_singleton.mpr trivial⟩
  rw [p.serve_requests]
  exact (Checker.serve_invariant (fun _ q hq h => h.perform (hrequests q hq))
    Checker.known_initial).log

end Tercet
