import Tercet.Proofs.Reading.Steps
import Tercet.Proofs.Tree.Shape

/-!
# `Tercet.Proofs.Reading.Expr`: printed expressions are read back

A reader reads a printed part back when it stops exactly at its end. That depends on what
follows: a name before a parenthesis is a call, and an operator goes on with the row before
it. `Reads` therefore asks of the next token that its kind ends the part, and the three
layers of an expression are ended by fewer and fewer kinds (`Kind.endsFactor`,
`Kind.endsTerm`, `Kind.endsExpr`).

The readers are defined over a reader for the expressions inside, and so are the lemmas: if
the inner reader reads every expression with fewer than `n` tokens, the layer reads what has
at most `n`. The bound that `exprWithin` counts down is then enough, because each pair of
parentheses takes two tokens away.
-/

set_option autoImplicit false

namespace Tercet

open Reader Slot

/-- The reader reads the printed part back as `a`, whatever stands before it, and after it
any token whose kind `stops` admits. -/
def Reads {α : Type} (x : Reader α) (a : α) (slots : List Slot) (stops : Kind → Bool) : Prop :=
  ∀ (p : Parser) (ts rest : List Token), Spells slots ts → p.ahead = ts ++ rest →
    stops (p.following rest).kind = true → Gives x p a ts [] rest

namespace Kind

/-- Whether a factor ends before a token of the kind. -/
def endsFactor (k : Kind) : Bool :=
  k != .openParen

/-- Whether a term ends before a token of the kind. -/
def endsTerm (k : Kind) : Bool :=
  k.endsFactor && (BinaryOp.multiplicative? k).isNone && (BinaryOp.relational? k).isNone

/-- Whether an expression ends before a token of the kind. -/
def endsExpr (k : Kind) : Bool :=
  k.endsTerm && (BinaryOp.additive? k).isNone

end Kind

namespace BinaryOp

/-- A factor ends before any operator. -/
theorem endsFactor_kind (op : BinaryOp) : op.kind.endsFactor = true := by
  cases op <;> rfl

/-- A term ends before a sum or a difference. -/
theorem endsTerm_kind_of_isAdditive {op : BinaryOp} (h : op.isAdditive = true) :
    op.kind.endsTerm = true := by
  revert h
  cases op <;> decide

/-- A comparison is no product. -/
theorem multiplicative?_kind_of_isRelational {op : BinaryOp} (h : op.isRelational = true) :
    (multiplicative? op.kind).isNone = true := by
  revert h
  cases op <;> decide

end BinaryOp

/-! ## Rows -/

/-- What follows one item of a row is the mark before the next one, or what follows the
row. -/
theorem stops_following {α : Type} (stops : Kind → Bool) {before : α → Kind}
    {slots : α → List Slot} {items : List α} (h : ∀ x ∈ items, stops (before x) = true)
    {p : Parser} {ts rest : List Token}
    (hts : Spells (items.flatMap fun x => mark (before x) :: slots x) ts)
    (hstop : stops (p.following rest).kind = true) :
    stops (p.following (ts ++ rest)).kind = true := by
  cases items with
  | nil =>
      cases hts
      exact hstop
  | cons x items =>
      rw [List.flatMap_cons, List.cons_append] at hts
      obtain ⟨t, more, ht, -, rfl⟩ := List.forall₂_cons_left_iff.mp hts
      rw [List.cons_append, Parser.following_cons, ht.1]
      exact h x List.mem_cons_self

/-- A row of operands is read to its end. -/
theorem gives_chainWithin {α β : Type} {op? : Kind → Option BinaryOp} {operand : Reader β}
    {join : α → BinaryOp → β → α} {slots : β → List Slot} {stops : Kind → Bool}
    {items : List (BinaryOp × β)} (hops : ∀ x ∈ items, op? x.1.kind = some x.1)
    (hread : ∀ x ∈ items, Reads operand x.2 (slots x.2) stops)
    (hstops : ∀ x ∈ items, stops x.1.kind = true) {room : Nat} (hroom : items.length ≤ room)
    (left : α) {p : Parser} {ts rest : List Token}
    (hts : Spells (items.flatMap (operandSlots slots)) ts) (hahead : p.ahead = ts ++ rest)
    (hnone : op? (p.following rest).kind = none) (hstop : stops (p.following rest).kind = true) :
    Gives (chainWithin op? operand join room left) p
      (items.foldl (fun left x => join left x.1 x.2) left) ts [] rest := by
  induction items generalizing room left p ts with
  | nil =>
      cases hts
      cases room with
      | zero => exact .pure hahead left
      | succ room =>
          refine Gives.kind ?_
          rw [Parser.kind_eq hahead, List.nil_append, hnone]
          exact .pure hahead left
  | cons x items ih =>
      obtain ⟨op, b⟩ := x
      cases room with
      | zero => simp at hroom
      | succ room =>
          rw [List.flatMap_cons, operandSlots, List.cons_append] at hts
          obtain ⟨t, more, ht, hmore, rfl⟩ := List.forall₂_cons_left_iff.mp hts
          obtain ⟨us, vs, rfl, hus, hvs⟩ := forall₂_append_left hmore
          rw [List.forall_mem_cons] at hops hread hstops
          have hkind : t.kind = op.kind := ht.1
          refine Gives.kind ?_
          rw [Parser.kind_eq hahead, List.cons_append, Parser.following_cons, hkind, hops.1]
          -- what follows the operand is the next operator, or what follows the row
          have hnext : stops (p.following (vs ++ rest)).kind = true :=
            stops_following stops hstops.2 hvs hstop
          refine Gives.bind_advance hahead (hkind ▸ op.kind_ne_eof) ?_
          refine Gives.bind_quiet (hread.1 _ us (vs ++ rest) hus ?_ hnext) ?_
          · rw [Parser.ahead_past, List.append_assoc]
          · exact ih hops.2 hread.2 hstops.2 (by simpa using hroom) _ hvs rfl hnone hstop

/-- A row is no longer than what is written for it, if something is written for each item. -/
theorem length_le_length_flatMap {α β : Type} {f : α → List β} {items : List α}
    (h : ∀ x ∈ items, f x ≠ []) : items.length ≤ (items.flatMap f).length := by
  induction items with
  | nil => exact Nat.zero_le _
  | cons x items ih =>
      rw [List.forall_mem_cons] at h
      have hx : 0 < (f x).length := List.length_pos_iff.mpr h.1
      have hitems := ih h.2
      rw [List.flatMap_cons, List.length_append, List.length_cons]
      omega

/-- The tokens ahead leave room for a row: each operand takes its operator. -/
theorem gives_chain {α β : Type} {op? : Kind → Option BinaryOp} {operand : Reader β}
    {join : α → BinaryOp → β → α} {slots : β → List Slot} {stops : Kind → Bool}
    {items : List (BinaryOp × β)} (hops : ∀ x ∈ items, op? x.1.kind = some x.1)
    (hread : ∀ x ∈ items, Reads operand x.2 (slots x.2) stops)
    (hstops : ∀ x ∈ items, stops x.1.kind = true) (left : α) {p : Parser}
    {ts rest : List Token} (hts : Spells (items.flatMap (operandSlots slots)) ts)
    (hahead : p.ahead = ts ++ rest) (hnone : op? (p.following rest).kind = none)
    (hstop : stops (p.following rest).kind = true) :
    Gives (chain op? operand join left) p
      (items.foldl (fun left x => join left x.1 x.2) left) ts [] rest := by
  have hroom : items.length ≤ p.remaining := by
    have hlength : items.length ≤ (items.flatMap (operandSlots slots)).length :=
      length_le_length_flatMap fun x _ => List.cons_ne_nil _ _
    rw [Stream.remaining, hahead, List.length_append, ← hts.length_eq]
    omega
  exact Gives.get (gives_chainWithin hops hread hstops hroom left hts hahead hnone hstop)

/-- Items that each follow a comma are read to the last. -/
theorem gives_moreWithin {α : Type} {item : Reader α} {slots : α → List Slot}
    {stops : Kind → Bool} {items : List α} (hread : ∀ a ∈ items, Reads item a (slots a) stops)
    (hcomma : stops .comma = true) {room : Nat} (hroom : items.length ≤ room) {p : Parser}
    {ts rest : List Token} (hts : Spells (items.flatMap fun a => mark .comma :: slots a) ts)
    (hahead : p.ahead = ts ++ rest) (hend : (p.following rest).kind ≠ .comma)
    (hstop : stops (p.following rest).kind = true) :
    Gives (moreWithin item room) p items ts [] rest := by
  induction items generalizing room p ts with
  | nil =>
      cases hts
      cases room with
      | zero => exact .pure hahead []
      | succ room =>
          refine Gives.kind ?_
          rw [Parser.kind_eq hahead, List.nil_append, if_neg hend]
          exact .pure hahead []
  | cons a items ih =>
      cases room with
      | zero => simp at hroom
      | succ room =>
          rw [List.flatMap_cons, List.cons_append] at hts
          obtain ⟨t, more, ht, hmore, rfl⟩ := List.forall₂_cons_left_iff.mp hts
          obtain ⟨us, vs, rfl, hus, hvs⟩ := forall₂_append_left hmore
          rw [List.forall_mem_cons] at hread
          have hkind : t.kind = .comma := ht.1
          -- behind the item stands the next comma, or what follows them all
          have hnext : stops (p.following (vs ++ rest)).kind = true :=
            stops_following stops (fun _ _ => hcomma) hvs hstop
          refine Gives.kind ?_
          rw [Parser.kind_eq hahead, List.cons_append, Parser.following_cons, if_pos hkind]
          refine Gives.bind_advance hahead (by rw [hkind]; decide) ?_
          refine Gives.bind_quiet (hread.1 _ us (vs ++ rest) hus ?_ hnext) ?_
          · rw [Parser.ahead_past, List.append_assoc]
          · refine Gives.map ?_ _
            exact ih hread.2 (by simpa using hroom) hvs rfl hend hstop

/-- One or more items with commas between them are read back. -/
theorem reads_separated {α : Type} {item : Reader α} {slots : α → List Slot}
    {stops : Kind → Bool} {items : List α} (hitems : items ≠ [])
    (hread : ∀ a ∈ items, Reads item a (slots a) stops) (hcomma : stops .comma = true) :
    Reads (separated item) items (Slot.separated (items.map slots))
      fun k => stops k && k != .comma := by
  intro p ts rest hts hahead hstop
  obtain ⟨a, items, rfl⟩ := List.exists_cons_of_ne_nil hitems
  rw [Bool.and_eq_true, bne_iff_ne] at hstop
  rw [List.map_cons, Slot.separated, List.flatMap_map] at hts
  obtain ⟨us, vs, rfl, hus, hvs⟩ := forall₂_append_left hts
  rw [List.forall_mem_cons] at hread
  have hnext : stops (p.following (vs ++ rest)).kind = true :=
    stops_following stops (fun _ _ => hcomma) hvs hstop.1
  refine Gives.bind_quiet (hread.1 p us (vs ++ rest) hus ?_ hnext) (Gives.get ?_)
  · rw [hahead, List.append_assoc]
  · have hroom : items.length ≤ (vs ++ rest).length := by
      -- each item has its comma, so there are no fewer tokens than items
      have hlength : items.length ≤ (items.flatMap fun a => mark .comma :: slots a).length :=
        length_le_length_flatMap fun _ _ => List.cons_ne_nil _ _
      rw [List.length_append, ← hvs.length_eq]
      exact Nat.le_add_right_of_le hlength
    refine Gives.map ?_ _
    exact gives_moreWithin hread.2 hcomma hroom hvs rfl hstop.2 hstop.1

/-- Items up to a closing parenthesis, perhaps none, are read back. -/
theorem reads_separated_closed {α : Type} {item : Reader α} {slots : α → List Slot}
    {stops : Kind → Bool} {items : List α} (hread : ∀ a ∈ items, Reads item a (slots a) stops)
    (hfirst : ∀ a ∈ items, ∃ s more, slots a = s :: more ∧ s.kind ≠ .closeParen)
    (hcomma : stops .comma = true) (hclose : stops .closeParen = true) :
    Reads (do if (← kind) = .closeParen then return [] else separated item) items
      (Slot.separated (items.map slots)) (· == .closeParen) := by
  intro p ts rest hts hahead hstop
  rw [beq_iff_eq] at hstop
  refine Gives.kind ?_
  rw [Parser.kind_eq hahead]
  cases items with
  | nil =>
      cases hts
      rw [List.nil_append, if_pos hstop]
      exact .pure hahead []
  | cons a items =>
      -- the first token of an item tells that there is one
      have hitem : (p.following (ts ++ rest)).kind ≠ .closeParen := by
        obtain ⟨s, more, hslots, hs⟩ := hfirst a List.mem_cons_self
        rw [List.map_cons, Slot.separated, hslots, List.cons_append] at hts
        obtain ⟨t, _, ht, -, rfl⟩ := List.forall₂_cons_left_iff.mp hts
        rwa [List.cons_append, Parser.following_cons, ht.1]
      rw [if_neg hitem]
      refine reads_separated (List.cons_ne_nil a items) hread hcomma p ts rest hts hahead ?_
      show (stops _ && _) = true
      rw [hstop, hclose]
      rfl

/-! ## The layers -/

section Layers

variable {inner : Reader Expr} {n : Nat}

/-- The arguments of a call are read back, up to its closing parenthesis. -/
theorem reads_argumentsOf {arguments : List Expr}
    (hinner : ∀ e ∈ arguments, Reads inner e e.slots Kind.endsExpr) :
    Reads (argumentsOf inner) arguments (Slot.separated (argumentSlots arguments))
      (· == .closeParen) := by
  rw [argumentSlots_eq_map]
  refine reads_separated_closed hinner (fun e _ => ?_) rfl rfl
  obtain ⟨s, more, hslots, hs⟩ := e.exists_slots_eq_cons
  refine ⟨s, more, hslots, fun hclose => ?_⟩
  rw [hclose] at hs
  cases hs

/-- A factor is read back by a reader that can read the expressions inside it. -/
theorem reads_factorOf
    (hinner : ∀ e, e.wellFormed = true → e.slots.length < n →
      Reads inner e e.slots Kind.endsExpr)
    {f : Factor} (hf : f.wellFormed = true) (hn : f.slots.length ≤ n) :
    Reads (factorOf inner) f f.slots Kind.endsFactor := by
  intro p ts rest hts hahead hstop
  refine Gives.get ?_
  cases f with
  | number text line =>
      obtain ⟨t, _, ⟨hkind : t.kind = .number, htext, hline⟩, ⟨⟩, rfl⟩ :=
        List.forall₂_cons_left_iff.mp hts
      obtain rfl := htext text rfl
      obtain rfl := hline line rfl
      rw [Parser.current_eq hahead, Parser.kind_eq hahead, List.cons_append,
        Parser.following_cons, hkind]
      exact .bind_advance hahead (by rw [hkind]; decide) (.pure rfl _)
  | ident name line =>
      obtain ⟨t, _, ⟨hkind : t.kind = .identifier, htext, hline⟩, ⟨⟩, rfl⟩ :=
        List.forall₂_cons_left_iff.mp hts
      obtain rfl := htext name rfl
      obtain rfl := hline line rfl
      rw [Parser.current_eq hahead, Parser.kind_eq hahead, List.cons_append,
        Parser.following_cons, hkind]
      refine Gives.bind_advance hahead (by rw [hkind]; decide) (Gives.kind ?_)
      -- with a parenthesis after it, the name would be read as a call
      have hnoCall : (p.following rest).kind ≠ .openParen := by
        simpa [Kind.endsFactor] using hstop
      rw [Parser.kind_past, List.nil_append, if_neg hnoCall]
      exact .pure rfl _
  | call name arguments line =>
      rw [Factor.slots] at hts
      obtain ⟨t, _, ⟨hkind : t.kind = .identifier, htext, hline⟩, htail, rfl⟩ :=
        List.forall₂_cons_left_iff.mp hts
      obtain ⟨o, _, ⟨hopen : o.kind = .openParen, -⟩, hmore, rfl⟩ :=
        List.forall₂_cons_left_iff.mp htail
      obtain ⟨us, _, rfl, hus, hlast⟩ := forall₂_append_left hmore
      obtain ⟨c, _, ⟨hclose : c.kind = .closeParen, -⟩, ⟨⟩, rfl⟩ :=
        List.forall₂_cons_left_iff.mp hlast
      obtain rfl := htext name rfl
      obtain rfl := hline line rfl
      rw [Parser.current_eq hahead, Parser.kind_eq hahead, List.cons_append,
        Parser.following_cons, hkind]
      refine Gives.bind_advance hahead (by rw [hkind]; decide) (Gives.kind ?_)
      rw [Parser.kind_past, List.cons_append, Parser.following_cons, if_pos hopen]
      refine Gives.bind_advance rfl (by rw [hopen]; decide) ?_
      -- each argument is shorter than the call, which has a name and two parentheses more
      have harguments : ∀ e ∈ arguments, Reads inner e e.slots Kind.endsExpr := by
        intro e he
        rw [Factor.wellFormed, wellFormedArguments_eq_all, List.all_eq_true] at hf
        refine hinner e (hf e he) ?_
        have hlength : e.slots.length ≤ (Slot.separated (argumentSlots arguments)).length := by
          rw [argumentSlots_eq_map]
          exact Slot.length_le_length_separated (List.mem_map_of_mem he)
        simp only [Factor.slots, List.length_cons, List.length_append] at hn
        omega
      refine Gives.bind_quiet (reads_argumentsOf harguments _ us ([c] ++ rest) hus ?_ ?_) ?_
      · simp
      · simpa using hclose
      · exact .bind_expect rfl hclose (by decide) (.pure rfl _)
  | group e line =>
      rw [Factor.slots] at hts
      obtain ⟨t, _, ⟨hkind : t.kind = .openParen, -, hline⟩, htail, rfl⟩ :=
        List.forall₂_cons_left_iff.mp hts
      obtain ⟨us, _, rfl, hus, hlast⟩ := forall₂_append_left htail
      obtain ⟨c, _, ⟨hclose : c.kind = .closeParen, -⟩, ⟨⟩, rfl⟩ :=
        List.forall₂_cons_left_iff.mp hlast
      obtain rfl := hline line rfl
      rw [Parser.current_eq hahead, Parser.kind_eq hahead, List.cons_append,
        Parser.following_cons, hkind]
      refine Gives.bind_advance hahead (by rw [hkind]; decide) ?_
      have he : Reads inner e e.slots Kind.endsExpr := by
        refine hinner e hf ?_
        simp only [Factor.slots, List.length_cons, List.length_append] at hn
        omega
      refine Gives.bind_quiet (he _ us ([c] ++ rest) hus ?_ ?_) ?_
      · simp
      · rw [List.cons_append, Parser.following_cons, hclose]
        rfl
      · exact .bind_expect rfl hclose (by decide) (.pure rfl _)

/-- A term is read back: its products first, and its comparisons after them. -/
theorem reads_termOf
    (hinner : ∀ e, e.wellFormed = true → e.slots.length < n →
      Reads inner e e.slots Kind.endsExpr)
    {t : Term} (ht : t.wellFormed = true) (hn : t.slots.length ≤ n) :
    Reads (termOf inner) t t.slots Kind.endsTerm := by
  intro p ts rest hts hahead hstop
  obtain ⟨hfirst, products, comparisons, hrest, hproducts, hcomparisons⟩ :=
    Term.wellFormed_row ht
  rw [t.slots_eq_row, hrest, List.flatMap_append] at hts hn
  simp only [List.length_append] at hn
  obtain ⟨us, _, rfl, hus, hrow⟩ := forall₂_append_left hts
  obtain ⟨vs, ws, rfl, hvs, hws⟩ := forall₂_append_left hrow
  simp only [Kind.endsTerm, Bool.and_eq_true, Option.isNone_iff_eq_none] at hstop
  obtain ⟨⟨hfactor, hproduct⟩, hcomparison⟩ := hstop
  have hread (items : List (BinaryOp × Factor))
      (hitems : ∀ x ∈ items, x.2.wellFormed = true)
      (hlength : (items.flatMap (operandSlots Factor.slots)).length ≤ n) :
      ∀ x ∈ items, Reads (factorOf inner) x.2 x.2.slots Kind.endsFactor := by
    intro x hx
    have hx' : (operandSlots Factor.slots x).length ≤ _ := length_le_length_flatMap_of_mem hx
    rw [operandSlots, List.length_cons] at hx'
    exact reads_factorOf hinner (hitems x hx) (by omega)
  -- an operator ends the factor before it, and a comparison ends the products before it
  have hops (items : List (BinaryOp × Factor)) : ∀ x ∈ items, x.1.kind.endsFactor = true :=
    fun x _ => x.1.endsFactor_kind
  have hwsFactor : (p.following (ws ++ rest)).kind.endsFactor = true :=
    stops_following Kind.endsFactor (hops comparisons) hws hfactor
  have hwsProduct : BinaryOp.multiplicative? (p.following (ws ++ rest)).kind = none := by
    rw [← Option.isNone_iff_eq_none]
    refine stops_following (fun k => (BinaryOp.multiplicative? k).isNone) ?_ hws ?_
    · exact fun x hx => BinaryOp.multiplicative?_kind_of_isRelational (hcomparisons x hx).1
    · rw [hproduct]
      rfl
  have hvsFactor : (p.following (vs ++ (ws ++ rest))).kind.endsFactor = true :=
    stops_following Kind.endsFactor (hops products) hvs hwsFactor
  -- the two rows, joined from the left, make the term
  have htree : comparisons.foldl (fun left x => Term.binary left x.1 x.2)
      (products.foldl (fun left x => Term.binary left x.1 x.2) (.factor t.first)) = t := by
    rw [← List.foldl_append, ← hrest, t.foldl_rest]
  rw [← htree]
  refine Gives.bind_quiet (reads_factorOf hinner hfirst (by omega) p us _ hus ?_ ?_) ?_
  · rw [hahead, List.append_assoc]
  · rw [List.append_assoc]
    exact hvsFactor
  refine Gives.bind_quiet (gives_chain ?_ (hread products ?_ (by omega)) (hops products) _ hvs
    ?_ hwsProduct hwsFactor) ?_
  · exact fun x hx => BinaryOp.multiplicative?_eq_some_iff.mpr ⟨(hproducts x hx).1, rfl⟩
  · exact fun x hx => (hproducts x hx).2
  · rw [Parser.ahead_past, List.append_assoc]
  refine gives_chain ?_ (hread comparisons ?_ (by omega)) (hops comparisons) _ hws rfl
    hcomparison hfactor
  · exact fun x hx => BinaryOp.relational?_eq_some_iff.mpr ⟨(hcomparisons x hx).1, rfl⟩
  · exact fun x hx => (hcomparisons x hx).2

/-- An expression is read back by a reader that can read the expressions inside it. -/
theorem reads_exprOf
    (hinner : ∀ e, e.wellFormed = true → e.slots.length < n →
      Reads inner e e.slots Kind.endsExpr)
    {e : Expr} (he : e.wellFormed = true) (hn : e.slots.length ≤ n) :
    Reads (exprOf inner) e e.slots Kind.endsExpr := by
  intro p ts rest hts hahead hstop
  obtain ⟨hfirst, hrest⟩ := Expr.wellFormed_row he
  rw [e.slots_eq_row] at hts hn
  rw [List.length_append] at hn
  obtain ⟨us, vs, rfl, hus, hvs⟩ := forall₂_append_left hts
  simp only [Kind.endsExpr, Bool.and_eq_true, Option.isNone_iff_eq_none] at hstop
  obtain ⟨hterm, hsum⟩ := hstop
  -- each operand has fewer tokens than the row with its operator
  have hread : ∀ x ∈ e.rest, Reads (termOf inner) x.2 x.2.slots Kind.endsTerm := by
    intro x hx
    have hx' : (operandSlots Term.slots x).length ≤ _ := length_le_length_flatMap_of_mem hx
    rw [operandSlots, List.length_cons] at hx'
    exact reads_termOf hinner (hrest x hx).2 (by omega)
  have hops : ∀ x ∈ e.rest, x.1.kind.endsTerm = true :=
    fun x hx => BinaryOp.endsTerm_kind_of_isAdditive (hrest x hx).1
  rw [← e.foldl_rest]
  refine Gives.bind_quiet (reads_termOf hinner hfirst (by omega) p us _ hus ?_ ?_) ?_
  · rw [hahead, List.append_assoc]
  · exact stops_following Kind.endsTerm hops hvs hterm
  · exact gives_chain
      (fun x hx => BinaryOp.additive?_eq_some_iff.mpr ⟨(hrest x hx).1, rfl⟩) hread hops _ hvs
      rfl hsum hterm

end Layers

/-- The bound on open parentheses never stops a printed expression. -/
theorem reads_exprWithin (depth : Nat) : ∀ e : Expr, e.wellFormed = true →
    e.slots.length ≤ depth → Reads (exprWithin depth) e e.slots Kind.endsExpr := by
  induction depth with
  | zero => exact fun e he hn => reads_exprOf (fun _ _ h => absurd h (Nat.not_lt_zero _)) he hn
  | succ depth ih =>
      exact fun e he hn =>
        reads_exprOf (fun e' he' h => ih e' he' (Nat.le_of_lt_succ h)) he hn

/-- A well-formed expression is read back. -/
theorem reads_expr {e : Expr} (he : e.wellFormed = true) :
    Reads expr e e.slots Kind.endsExpr := by
  intro p ts rest hts hahead hstop
  refine Gives.get (reads_exprWithin _ e he ?_ p ts rest hts hahead hstop)
  rw [Stream.remaining, hahead, List.length_append, ← hts.length_eq]
  exact Nat.le_add_right _ _

end Tercet
