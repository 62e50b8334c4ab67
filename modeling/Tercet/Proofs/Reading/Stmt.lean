import Tercet.Proofs.Reading.Parts
import Tercet.Proofs.Reading.Printed

/-!
# `Tercet.Proofs.Reading.Stmt`: printed statements are read back

Statements are read back from what is left of a printed one, and what the reading reports is
what the struck semicolons owe (`ReadsStmt`). What may follow a statement is what
`Stmt.EndsBefore` says: a token before which it has plainly ended, if a semicolon is missing, and
no `else` that it would take for itself.

As for expressions, the lemmas on the forms of statements are about a reader over a reader for
the statements inside. The measure that goes down is `weight`, the number of tokens that
cannot be struck: how many tokens are left depends on what has been struck, but never falls
below it.
-/

set_option autoImplicit false

namespace Tercet

open Reader Slot Printed

/-! ## Endings -/

/-- Whether a statement can end before a token of the kind, also without its semicolon: a
statement starts there, or a block or the program ends, or a branch goes on. -/
def Kind.endsStmt (k : Kind) : Bool :=
  (Forms.standard k).isSome || k == .closeBrace || k == .eof || k == .kwElse

/-- Where a statement can end, a declaration can. -/
theorem Kind.endsDeclaration_of_endsStmt {k : Kind} (h : k.endsStmt = true) :
    k.endsDeclaration = true := by
  revert h
  cases k <;> decide

/-- So can an expression. -/
theorem Kind.endsExpr_of_endsStmt {k : Kind} (h : k.endsStmt = true) : k.endsExpr = true := by
  revert h
  cases k <;> decide

/-- An ending is passed, or else its absence is reported, once the statement before it has
plainly ended. -/
theorem gives_expectSemicolon {p : Parser} {x : Printed} {rest : List Token}
    (hx : Printed.Fits ending x) (hahead : p.ahead = kept [x] ++ rest)
    (hforms : p.forms = Forms.standard)
    (hends : x.struck = true → (p.following rest).kind.endsStmt = true)
    (hline : x.struck = true → (p.following rest).kind = .kwElse →
      p.previousLine < (p.following rest).line) :
    Gives expectSemicolon p () (kept [x]) (reports [x] (p.following rest)) rest := by
  obtain ⟨t, struck⟩ := x
  refine Gives.get ?_
  cases struck with
  | false =>
      have hkind : t.kind = .semicolon := hx.1.1
      rw [Parser.kind_eq hahead, kept_cons_false, List.cons_append, Parser.following_cons,
        if_pos hkind]
      exact .bind_advance hahead (by rw [hkind]; decide) (.pure rfl _)
  | true =>
      replace hends := hends rfl
      have hkind : p.kind = (p.following rest).kind := Parser.kind_eq hahead
      have hcurrent : p.current = p.following rest := Parser.current_eq hahead
      have hsemicolon : (p.following rest).kind ≠ .semicolon := by
        intro hsemicolon
        rw [hsemicolon] at hends
        cases hends
      -- the four ways in which a statement plainly ends
      have hended : p.statementEnded = true := by
        rw [Parser.statementEnded, hkind, hcurrent, hforms]
        rw [Kind.endsStmt] at hends
        simp only [Bool.or_eq_true, decide_eq_true_eq, beq_iff_eq] at hends ⊢
        rcases hends with ((hstarts | hclose) | heof) | helse
        · exact .inl (.inr hstarts)
        · exact .inl (.inl (.inl hclose))
        · exact .inl (.inl (.inr heof))
        · exact .inr (hline rfl helse)
      rw [hkind, if_neg hsemicolon, if_pos hended, Gives]
      have hahead' : p.ahead = rest := hahead
      show EStateM.Result.ok () (p.report (missingBefore p.current)) = _
      rw [hcurrent, ← hahead']
      rfl

/-- A statement with an ending is read back from what it is made of. The token before the
ending decides whether an `else` after it is plainly apart. -/
theorem gives_ending {α : Type} {part : Reader α} {a : α} {slots : List Slot}
    {stops : Kind → Bool} (hread : Reads part a slots stops) (hsolid : slots.all isSolid = true)
    (hne : slots ≠ []) (hsemicolon : stops .semicolon = true)
    (hstops : ∀ k, Kind.endsStmt k = true → stops k = true) (f : α → Stmt) {p : Parser}
    {xs : List Printed} {rest : List Token} (hxs : Prints (slots ++ [ending]) xs)
    (hahead : p.ahead = kept xs ++ rest) (hforms : p.forms = Forms.standard)
    (hends : ∀ x ∈ xs, x.struck = true → (p.following rest).kind.endsStmt = true)
    (helse : ElseBelow (xs ++ [⟨p.following rest, false⟩])) :
    Gives (do let a ← part; expectSemicolon; return f a) p (f a) (kept xs)
      (reports xs (p.following rest)) rest := by
  obtain ⟨us, _, rfl, hus, hlast⟩ := forall₂_append_left hxs
  obtain ⟨x, _, hx, ⟨⟩, rfl⟩ := List.forall₂_cons_left_iff.mp hlast
  obtain ⟨ts, rfl, hts⟩ := Prints.solid_inv hus hsolid
  rw [kept_append, kept_standing, List.append_assoc] at hahead
  rw [kept_append, kept_standing, reports_append, reports_standing]
  replace hends : x.struck = true → (p.following rest).kind.endsStmt = true :=
    hends x (by simp)
  have hnext : stops (p.following (kept [x] ++ rest)).kind = true := by
    obtain ⟨t, struck⟩ := x
    cases struck with
    | false =>
        have hkind : t.kind = .semicolon := hx.1.1
        rw [kept_cons_false, List.cons_append, Parser.following_cons, hkind]
        exact hsemicolon
    | true => exact hstops _ (hends rfl)
  refine Gives.bind_quiet (hread p ts (kept [x] ++ rest) hts hahead hnext) ?_
  refine Gives.map (a := ()) ?_ fun _ => f a
  refine gives_expectSemicolon hx rfl hforms hends ?_
  intro hstruck hkind
  -- the token before the struck ending is the last one of the part
  have hts' : ts ≠ [] := by
    intro hnil
    rw [hnil] at hts
    exact hne (List.forall₂_nil_right_iff.mp hts)
  obtain ⟨before, t, rfl⟩ := (List.eq_nil_or_concat ts).resolve_left hts'
  rw [List.concat_eq_append, Parser.previousLine_past_concat]
  refine helse (standing before) ⟨t, false⟩ x ⟨p.following rest, false⟩ [] ?_ hstruck hkind
  simp [standing]

/-! ## Statements -/

/-- The printed statement can end before a token. -/
structure Stmt.EndsBefore (s : Stmt) (xs : List Printed) (next : Token) : Prop where
  /-- Anything can follow a statement that has all its tokens. -/
  ends : ∀ x ∈ xs, x.struck = true → next.kind.endsStmt = true
  /-- An `else` does not follow a statement that would take it for itself. -/
  apart : s.endsOpen = true → next.kind ≠ .kwElse
  below : ElseBelow (xs ++ [⟨next, false⟩])

/-- The last part of a statement ends where the whole does. -/
theorem Stmt.EndsBefore.last {s part : Stmt} {xs us : List Printed} {next : Token}
    (h : s.EndsBefore xs next) (hus : us <:+ xs)
    (hopen : part.endsOpen = true → s.endsOpen = true) : part.EndsBefore us next where
  ends x hx := h.ends x (hus.mem hx)
  apart hpart := h.apart (hopen hpart)
  below := by
    obtain ⟨front, rfl⟩ := hus
    exact h.below.of_infix ⟨front, [], by simp⟩

/-- The reader reads the statement back from what is left of it printed, and reports what
the struck tokens owe. -/
def ReadsStmt (x : Reader Stmt) (s : Stmt) : Prop :=
  ∀ (p : Parser) (xs : List Printed) (rest : List Token), Prints s.slots xs →
    p.ahead = kept xs ++ rest → p.forms = Forms.standard → s.EndsBefore xs (p.following rest) →
    Gives x p s (kept xs) (reports xs (p.following rest)) rest

section Forms

variable {inner : Reader Stmt} {n : Nat}

/-- After the type and the first name of a declaration, there is a value, another name, or
the ending. -/
theorem Declaration.exists_third_slot {d : Declaration} (hd : d.wellFormed = true) :
    ∃ name c more, d.slots ++ [ending] = Slot.first d.type.kind d.line :: word name :: c :: more ∧
      ((c.kind = .assign ∨ c.kind = .comma) ∧ c.isEnding = false ∨ c = ending ∧ more = []) := by
  obtain ⟨type, declarators, line⟩ := d
  cases declarators with
  | nil => simp [Declaration.wellFormed] at hd
  | cons d ds =>
      obtain ⟨name, initializer⟩ := d
      cases initializer with
      | some e => exact ⟨name, _, _, rfl, .inl ⟨.inl rfl, rfl⟩⟩
      | none =>
          cases ds with
          | nil => exact ⟨name, _, _, rfl, .inr ⟨rfl, rfl⟩⟩
          | cons d ds => exact ⟨name, _, _, rfl, .inl ⟨.inr rfl, rfl⟩⟩

/-- A declaration is read back with its ending, and is not taken for a function. -/
theorem reads_typed_declaration {d : Declaration} (hd : d.wellFormed = true) :
    ReadsStmt (typedOf inner) (.declaration d) := by
  intro p xs rest hxs hahead hforms hnext
  refine Gives.get ?_
  -- the third token is an `=`, a comma, the ending, or what follows a struck ending
  have hthird : (p.peek 2).kind ≠ .openParen := by
    obtain ⟨name, c, more, hslots, hc⟩ := Declaration.exists_third_slot hd
    rw [Stmt.slots, hslots] at hxs
    obtain ⟨t, _, rfl, -, htail⟩ := Prints.cons_inv hxs rfl
    obtain ⟨u, us, rfl, -, hus⟩ := Prints.cons_inv htail rfl
    have hpeek : p.peek 2 = follower us (p.following rest) := by
      rw [← following_kept_append, Stream.peek, hahead]
      rfl
    rw [hpeek]
    rcases hc with ⟨hkind, hstands⟩ | ⟨rfl, rfl⟩
    · obtain ⟨v, _, rfl, hv, -⟩ := Prints.cons_inv hus hstands
      rw [follower_cons_false, hv.1]
      rcases hkind with hkind | hkind <;> rw [hkind] <;> decide
    · obtain ⟨⟨v, struck⟩, _, hv, ⟨⟩, rfl⟩ := List.forall₂_cons_left_iff.mp hus
      cases struck with
      | false =>
          rw [follower_cons_false, hv.1.1]
          decide
      | true =>
          intro hopen
          have hends : (p.following rest).kind.endsStmt = true :=
            hnext.ends ⟨v, true⟩ (by simp) rfl
          rw [show p.following rest = follower [⟨v, true⟩] (p.following rest) from rfl, hopen]
            at hends
          cases hends
  rw [if_neg (by simp [hthird])]
  refine gives_ending (reads_declaration hd) d.all_isSolid_slots (List.cons_ne_nil _ _) rfl
    (fun k => Kind.endsDeclaration_of_endsStmt) _ hxs hahead hforms hnext.ends hnext.below

/-- So is an assignment. -/
theorem reads_assignment_stmt {a : Assignment} (ha : a.value.wellFormed = true) :
    ReadsStmt (formOf inner .assignment) (.assignment a) := by
  intro p xs rest hxs hahead hforms hnext
  exact gives_ending (reads_assignment ha) a.all_isSolid_slots (List.cons_ne_nil _ _) rfl
    (fun k => Kind.endsExpr_of_endsStmt) _ hxs hahead hforms hnext.ends hnext.below

/-- So is a `return`. Without a value, its semicolon is what tells so, and cannot be struck. -/
theorem reads_result {value : Option Expr} {line : Nat}
    (hvalue : value.all Expr.wellFormed = true) : ReadsStmt resultStmt (.result value line) := by
  intro p xs rest hxs hahead hforms hnext
  cases value with
  | none =>
      obtain ⟨t, _, rfl, ⟨hkind : t.kind = .kwReturn, -, hline⟩, htail⟩ :=
        Prints.cons_inv hxs rfl
      obtain ⟨u, _, rfl, ⟨hsemicolon : u.kind = .semicolon, -⟩, ⟨⟩⟩ := Prints.cons_inv htail rfl
      obtain rfl := hline line rfl
      refine Gives.bind_advance hahead (by rw [hkind]; decide) ?_
      have hending : Printed.Fits ending ⟨u, false⟩ :=
        ⟨⟨hsemicolon, by simp [ending], by simp [ending]⟩, by simp⟩
      show Gives _ _ _ ([] ++ [u]) _ _
      refine Gives.bind_quiet (reads_optionalBefore_none _ _ _ [] (u :: rest) .nil rfl
        (by simpa using hsemicolon)) ?_
      refine Gives.map (a := ()) ?_ fun _ => Stmt.result none t.line
      exact gives_expectSemicolon hending rfl hforms (by simp) (by simp)
  | some e =>
      rw [Stmt.slots] at hxs
      obtain ⟨t, us, rfl, ⟨hkind : t.kind = .kwReturn, -, hline⟩, hus⟩ := Prints.cons_inv hxs rfl
      obtain rfl := hline line rfl
      have hread := reads_optionalBefore_some (reads_expr hvalue)
        e.exists_slots_eq_cons_ne_semicolon
      refine Gives.bind_advance hahead (by rw [hkind]; decide) ?_
      refine gives_ending hread e.all_isSolid_slots ?_ rfl
        (fun k => Kind.endsExpr_of_endsStmt) (fun value => .result value t.line) hus rfl hforms
        (fun x hx => hnext.ends x (List.mem_cons_of_mem _ hx))
        (hnext.below.of_infix ⟨[⟨t, false⟩], [], by simp⟩)
      -- the value has a first token, so the row before the semicolon is not empty
      obtain ⟨s, more, hslots, -⟩ := e.exists_slots_eq_cons
      rw [hslots]
      exact List.cons_ne_nil _ _

/-- A keyword and the condition after it are read back, and then whatever comes after them. -/
theorem gives_headed {f : Token → Expr → Reader Stmt} {k : Kind} {e : Expr} {line : Nat}
    {slots : List Slot} {s : Stmt} {p : Parser} {xs : List Printed} {rest : List Token}
    (hk : k ≠ .eof) (he : e.wellFormed = true)
    (hxs : Prints (Slot.first k line :: (conditionSlots e ++ slots)) xs)
    (hahead : p.ahead = kept xs ++ rest)
    (hmore : ∀ t hs us, t.line = line → xs = hs ++ us → Prints slots us →
      Gives (f t e) (p.past (kept hs) (kept us ++ rest) []) s (kept us)
        (reports us (p.following rest)) rest) :
    Gives (advance >>= fun t => condition >>= f t) p s (kept xs)
      (reports xs (p.following rest)) rest := by
  obtain ⟨t, _, rfl, ⟨hkind : t.kind = k, -, hline⟩, htail⟩ := Prints.cons_inv hxs rfl
  obtain ⟨_, us, rfl, hcondition, hus⟩ := forall₂_append_left htail
  -- a condition has no ending, so all its tokens stand
  obtain ⟨cs, rfl, hcs⟩ := Prints.solid_inv hcondition (all_isSolid_conditionSlots e)
  have hbody := hmore t (⟨t, false⟩ :: standing cs) us (hline line rfl) rfl hus
  simp only [kept_cons_false, kept_append, kept_standing, reports_cons_false, reports_append,
    reports_standing, List.nil_append] at hahead hbody ⊢
  refine Gives.bind_advance hahead (hkind ▸ hk) ?_
  refine Gives.bind_quiet (reads_condition he _ cs (kept us ++ rest) hcs ?_ rfl) ?_
  · rw [Parser.ahead_past, List.append_assoc]
  · rwa [Parser.past_past]

/-- A loop is read back with its body. -/
theorem reads_whileOf {e : Expr} {body : Stmt} {line : Nat} (he : e.wellFormed = true)
    (hbody : ReadsStmt inner body) : ReadsStmt (whileOf inner) (.whileLoop e body line) := by
  intro p xs rest hxs hahead hforms hnext
  refine gives_headed (by decide) he hxs hahead fun t hs us hline hsplit hus => ?_
  subst hline
  refine Gives.map ?_ _
  exact hbody _ us rest hus rfl hforms (hnext.last ⟨hs, hsplit.symm⟩ id)

/-- A branch without `else` is read back. None may follow it, or it would be taken. -/
theorem reads_branchOf_ifThen {e : Expr} {body : Stmt} {line : Nat} (he : e.wellFormed = true)
    (hbody : ReadsStmt inner body) : ReadsStmt (branchOf inner) (.ifThen e body line) := by
  intro p xs rest hxs hahead hforms hnext
  have hnoElse : (p.following rest).kind ≠ .kwElse := hnext.apart rfl
  refine gives_headed (by decide) he hxs hahead fun t hs us hline hsplit hus => ?_
  subst hline
  have hends : body.EndsBefore us (p.following rest) :=
    hnext.last ⟨hs, hsplit.symm⟩ fun _ => rfl
  refine Gives.bind_last (hbody _ us rest hus rfl hforms hends) (Gives.kind ?_)
  rw [Parser.kind_past, Parser.following_past, if_neg hnoElse]
  exact .pure rfl _

/-- A branch with `else` is read back. Its first statement ends before the `else`, which it
does not take for itself. -/
theorem reads_branchOf_ifElse {e : Expr} {onTrue onFalse : Stmt} {line : Nat}
    (he : e.wellFormed = true) (hopen : onTrue.endsOpen = false)
    (htrue : ReadsStmt inner onTrue) (hfalse : ReadsStmt inner onFalse) :
    ReadsStmt (branchOf inner) (.ifElse e onTrue onFalse line) := by
  intro p xs rest hxs hahead hforms hnext
  refine gives_headed (by decide) he hxs hahead fun u hs ws hline hsplit hws => ?_
  subst hline
  obtain ⟨us, _, rfl, hus, hlast⟩ := forall₂_append_left hws
  obtain ⟨t, vs, rfl, ⟨helse : t.kind = .kwElse, -⟩, hvs⟩ := Prints.cons_inv hlast rfl
  rw [kept_append, kept_cons_false, reports_append, follower_cons_false, reports_cons_false,
    List.append_assoc]
  refine Gives.bind (htrue _ us (t :: kept vs ++ rest) hus rfl hforms ⟨?_, ?_, ?_⟩)
    (Gives.kind ?_)
  · intro _ _ _
    show t.kind.endsStmt = true
    rw [helse]
    rfl
  -- the first side does not end open, so it leaves the `else` alone
  · rw [hopen]
    exact fun h => absurd h Bool.false_ne_true
  · exact hnext.below.of_infix ⟨hs, vs ++ [⟨p.following rest, false⟩], by simp [hsplit]⟩
  rw [Parser.kind_past, List.cons_append, Parser.following_cons, if_pos helse]
  refine Gives.bind_advance rfl (by rw [helse]; decide) ?_
  refine Gives.map ?_ _
  exact hfalse _ vs rest hvs rfl hforms
    (hnext.last ⟨hs ++ us ++ [⟨t, false⟩], by simp [hsplit]⟩ id)

/-- A counted loop is read back with its body. -/
theorem reads_forOf {init : Option ForInit} {condition : Option Expr} {step : Option ForStep}
    {body : Stmt} {line : Nat} (hinit : init.all ForInit.wellFormed = true)
    (hcondition : condition.all Expr.wellFormed = true)
    (hstep : step.all ForStep.wellFormed = true) (hbody : ReadsStmt inner body) :
    ReadsStmt (forOf inner) (.forLoop init condition step body line) := by
  intro p xs rest hxs hahead hforms hnext
  rw [Stmt.slots] at hxs
  -- the semicolons in the head are marks, not endings: only the body can have lost any
  obtain ⟨t, _, rfl, ⟨hkind : t.kind = .kwFor, -, hline⟩, hxs₁⟩ := Prints.cons_inv hxs rfl
  obtain ⟨o, _, rfl, ⟨hopen : o.kind = .openParen, -⟩, hxs₂⟩ := Prints.cons_inv hxs₁ rfl
  obtain ⟨_, _, rfl, hinit', hxs₃⟩ := forall₂_append_left hxs₂
  obtain ⟨is, rfl, his⟩ :=
    Prints.solid_inv hinit' (all_isSolid_optionSlots ForInit.all_isSolid_slots init)
  obtain ⟨s, _, rfl, ⟨hs : s.kind = .semicolon, -⟩, hxs₄⟩ := Prints.cons_inv hxs₃ rfl
  obtain ⟨_, _, rfl, hcondition', hxs₅⟩ := forall₂_append_left hxs₄
  obtain ⟨cs, rfl, hcs⟩ :=
    Prints.solid_inv hcondition' (all_isSolid_optionSlots Expr.all_isSolid_slots condition)
  obtain ⟨s', _, rfl, ⟨hs' : s'.kind = .semicolon, -⟩, hxs₆⟩ := Prints.cons_inv hxs₅ rfl
  obtain ⟨_, _, rfl, hstep', hxs₇⟩ := forall₂_append_left hxs₆
  obtain ⟨ss, rfl, hss⟩ :=
    Prints.solid_inv hstep' (all_isSolid_optionSlots ForStep.all_isSolid_slots step)
  obtain ⟨c, us, rfl, ⟨hclose : c.kind = .closeParen, -⟩, hus⟩ := Prints.cons_inv hxs₇ rfl
  obtain rfl := hline line rfl
  simp only [kept_cons_false, kept_append, kept_standing, reports_cons_false, reports_append,
    reports_standing, List.nil_append] at hahead ⊢
  refine Gives.bind_advance hahead (by rw [hkind]; decide) ?_
  refine Gives.bind_expect rfl hopen (by decide) ?_
  refine Gives.bind_quiet (reads_forInit hinit _ is _ his ?_ ?_) ?_
  · rw [Parser.ahead_past, List.append_assoc]
  · simpa using hs
  refine Gives.bind_expect rfl hs (by decide) ?_
  refine Gives.bind_quiet (reads_forCondition hcondition _ cs _ hcs ?_ ?_) ?_
  · rw [Parser.ahead_past, List.append_assoc]
  · simpa using hs'
  refine Gives.bind_expect rfl hs' (by decide) ?_
  refine Gives.bind_quiet (reads_forStep hstep _ ss _ hss ?_ ?_) ?_
  · rw [Parser.ahead_past, List.append_assoc]
  · simpa using hclose
  refine Gives.bind_expect rfl hclose (by decide) ?_
  refine Gives.map ?_ _
  refine hbody _ us rest hus rfl hforms (hnext.last ?_ id)
  exact ⟨⟨t, false⟩ :: ⟨o, false⟩ :: standing is ++ ⟨s, false⟩ :: standing cs ++
    ⟨s', false⟩ :: standing ss ++ [⟨c, false⟩], by simp⟩

/-- What is left of a printed row of statements starts with the first token of a
statement. -/
theorem Prints.row_cases {row : List Stmt} {xs : List Printed} (h : Prints (rowSlots row) xs) :
    row = [] ∧ xs = [] ∨
      ∃ t us, xs = ⟨t, false⟩ :: us ∧ (Forms.standard t.kind).isSome = true := by
  cases row with
  | nil =>
      cases h
      exact .inl ⟨rfl, rfl⟩
  | cons s more =>
      obtain ⟨slot, slots, hslots, hstands, hstarts⟩ := s.exists_slots_eq_cons
      rw [rowSlots, hslots, List.cons_append] at h
      obtain ⟨t, us, rfl, ht, -⟩ := h.cons_inv hstands
      exact .inr ⟨t, us, rfl, by rwa [ht.1]⟩

/-- A row of statements is read back, and then whatever comes after it. Each statement is
followed by the next one, and never by an `else`; what follows the last one must not be an `else`
that it would take, and must end it plainly if a semicolon is missing. -/
theorem rowWithin_append_of_prints {stop : Option Kind}
    (hstop : ∀ k, (Forms.standard k).isSome = true → some k ≠ stop) {row : List Stmt}
    (hread : ∀ s ∈ row, ReadsStmt inner s) (room : Nat) {p : Parser} {xs : List Printed}
    {rest : List Token} (hxs : Prints (rowSlots row) xs) (hahead : p.ahead = kept xs ++ rest)
    (hforms : p.forms = Forms.standard)
    (hends : ∀ x ∈ xs, x.struck = true → (p.following rest).kind.endsStmt = true)
    (hapart : ∀ s ∈ row.getLast?, s.endsOpen = true → (p.following rest).kind ≠ .kwElse)
    (helse : ElseBelow (xs ++ [⟨p.following rest, false⟩])) :
    rowWithin inner stop (row.length + room) p
      = Prod.map (row ++ ·) id (rowWithin inner stop room
          (p.past (kept xs) rest (reports xs (p.following rest)))) := by
  induction row generalizing p xs with
  | nil =>
      cases hxs
      have hahead' : p.ahead = rest := hahead
      have hpast : p.past (kept []) rest (reports [] (p.following rest)) = p := by
        rw [← hahead']
        exact p.past_nil
      rw [hpast, List.length_nil, Nat.zero_add]
      rfl
  | cons s more ih =>
      rw [List.forall_mem_cons] at hread
      have hstarts : (Forms.standard p.kind).isSome = true := by
        rcases hxs.row_cases with ⟨hnil, -⟩ | ⟨t, us, rfl, ht⟩
        · cases hnil
        · rw [Parser.kind_eq hahead]
          exact ht
      -- the row goes on at a token that starts a statement
      have hgoesOn : ¬ (p.atEnd || some p.kind == stop) = true := by
        rw [Bool.or_eq_true, Stream.atEnd, beq_iff_eq, beq_iff_eq]
        rintro (heof | hstopped)
        · rw [heof] at hstarts
          cases hstarts
        · exact hstop _ hstarts hstopped
      rw [rowSlots] at hxs
      obtain ⟨us, vs, rfl, hus, hvs⟩ := forall₂_append_left hxs
      rw [kept_append, List.append_assoc] at hahead
      -- behind the statement comes the next one, if any, or else what follows the row
      have hnext : s.EndsBefore us (p.following (kept vs ++ rest)) := by
        rw [following_kept_append]
        rcases Prints.row_cases hvs with ⟨rfl, rfl⟩ | ⟨t, ws, rfl, ht⟩
        · exact ⟨fun x hx => hends x (List.mem_append_left _ hx), hapart s rfl,
            helse.of_append (by simp)⟩
        · refine ⟨fun _ _ _ => ?_, fun _ => ?_, helse.of_append (by simp)⟩
          · rw [follower_cons_false, Kind.endsStmt, ht]
            rfl
          · intro helse'
            rw [follower_cons_false] at helse'
            rw [helse'] at ht
            cases ht
      have hfirst : inner p = .ok s _ := hread.1 p us (kept vs ++ rest) hus hahead hforms hnext
      have hlast : ∀ s' ∈ more.getLast?, s'.endsOpen = true →
          (p.following rest).kind ≠ .kwElse := by
        intro s' hs'
        refine hapart s' ?_
        rw [List.getLast?_cons, hs']
        rfl
      have hmore := ih hread.2 hvs
        (p := p.past (kept us) (kept vs ++ rest) (reports us (p.following (kept vs ++ rest))))
        rfl hforms (fun x hx => hends x (List.mem_append_right _ hx)) hlast
        (helse.of_infix ⟨us, [], by simp⟩)
      rw [List.length_cons, Nat.succ_add, rowWithin, if_neg hgoesOn, recovered, hfirst]
      simp only [hmore, Parser.past_past, Parser.following_past]
      rw [following_kept_append, kept_append, reports_append]
      rfl

/-- A row of statements is read back up to where it ends. -/
theorem rowWithin_of_prints {stop : Option Kind}
    (hstop : ∀ k, (Forms.standard k).isSome = true → some k ≠ stop) {row : List Stmt}
    (hread : ∀ s ∈ row, ReadsStmt inner s) {room : Nat} (hroom : row.length ≤ room)
    {p : Parser} {xs : List Printed} {rest : List Token} (hxs : Prints (rowSlots row) xs)
    (hahead : p.ahead = kept xs ++ rest) (hforms : p.forms = Forms.standard)
    (hend : ((p.following rest).kind == .eof || some (p.following rest).kind == stop) = true)
    (hcloses : (p.following rest).kind = .eof ∨ (p.following rest).kind = .closeBrace)
    (helse : ElseBelow (xs ++ [⟨p.following rest, false⟩])) :
    rowWithin inner stop room p
      = (row, p.past (kept xs) rest (reports xs (p.following rest))) := by
  have hends : (p.following rest).kind.endsStmt = true := by
    rcases hcloses with h | h <;> rw [h] <;> rfl
  have hapart : (p.following rest).kind ≠ .kwElse := by
    rcases hcloses with h | h <;> rw [h] <;> decide
  have hrow := rowWithin_append_of_prints hstop hread (room - row.length) hxs hahead hforms
    (fun _ _ _ => hends) (fun _ _ _ => hapart) helse
  rw [Bool.or_eq_true, beq_iff_eq, beq_iff_eq] at hend
  -- behind the row the reader sees where it has to stop
  have hstopped := rowWithin_of_end inner (room - row.length)
    (p := p.past (kept xs) rest (reports xs (p.following rest))) hend
  rw [Nat.add_sub_cancel' hroom, hstopped] at hrow
  simpa using hrow

/-- Every statement has a token that cannot be struck. -/
theorem length_le_weight_rowSlots (row : List Stmt) : row.length ≤ weight (rowSlots row) := by
  induction row with
  | nil => exact Nat.le_refl 0
  | cons s more ih =>
      obtain ⟨slot, slots, hslots, hstands, -⟩ := s.exists_slots_eq_cons
      rw [rowSlots, hslots, List.cons_append, weight_cons_of_isEnding _ hstands, weight_append,
        List.length_cons]
      omega

/-- A statement is no heavier than a row with it. -/
theorem weight_le_weight_rowSlots {row : List Stmt} {s : Stmt} (hs : s ∈ row) :
    weight s.slots ≤ weight (rowSlots row) := by
  induction row with
  | nil => cases hs
  | cons first more ih =>
      rw [rowSlots, weight_append]
      rcases List.mem_cons.mp hs with rfl | hs
      · exact Nat.le_add_right _ _
      · exact Nat.le_add_left_of_le (ih hs)

/-- Statements between braces are read back. -/
theorem gives_blockOf {body : List Stmt} {line : Nat} (hread : ∀ s ∈ body, ReadsStmt inner s)
    {p : Parser} {xs : List Printed} {rest : List Token}
    (hxs : Prints (Slot.first .openBrace line :: (rowSlots body ++ [mark .closeBrace])) xs)
    (hahead : p.ahead = kept xs ++ rest) (hforms : p.forms = Forms.standard)
    (helse : ElseBelow xs) :
    Gives (blockOf inner) p (body, line) (kept xs) (reports xs (p.following rest)) rest := by
  obtain ⟨o, _, rfl, ⟨hopen : o.kind = .openBrace, -, hline⟩, htail⟩ := Prints.cons_inv hxs rfl
  obtain ⟨us, _, rfl, hus, hlast⟩ := forall₂_append_left htail
  obtain ⟨c, _, rfl, ⟨hclose : c.kind = .closeBrace, -⟩, ⟨⟩⟩ := Prints.cons_inv hlast rfl
  obtain rfl := hline line rfl
  -- what the last statement lacks is reported in front of the closing brace
  have hreports : reports (us ++ [⟨c, false⟩]) (p.following rest) = reports us c ++ [] := by
    rw [reports_append]
    rfl
  rw [kept_cons_false, kept_append] at hahead ⊢
  rw [reports_cons_false, hreports]
  refine Gives.bind_expect hahead hopen (by decide) ?_
  refine Gives.bind (Gives.modifyGet (rowWithin_of_prints ?_ hread ?_ hus ?_ hforms ?_ ?_ ?_)) ?_
  · intro k hk hstop
    obtain rfl := Option.some.inj hstop
    cases hk
  · -- there is room for the row, since every statement in it has kept a token
    have hlength := length_le_weight_rowSlots body
    have hweight := Prints.weight_le hus
    rw [Stream.remaining, Parser.ahead_past, List.length_append, List.length_append]
    omega
  · rw [Parser.ahead_past, List.append_assoc]
  · show (c.kind == .eof || some c.kind == some .closeBrace) = true
    rw [hclose]
    rfl
  · exact .inr hclose
  · exact helse.of_infix ⟨[⟨o, false⟩], [], by simp⟩
  · exact .bind_expect rfl hclose (by decide) (.pure rfl _)

/-- The table sends what starts like a function to the reader of functions, which reads its
head back and then does whatever is left. -/
theorem gives_typedOf_signature {signature : Signature} {s : Stmt} {p : Parser}
    {xs us : List Printed} {ds : Log} {rest : List Token} (hxs : Prints signature.slots xs)
    (hahead : p.ahead = kept xs ++ (kept us ++ rest))
    (hbody : Gives (do
        if (← kind) = .semicolon then
          let _ ← advance
          return Stmt.prototype signature
        else
          let (body, bodyLine) ← blockOf inner
          return Stmt.function signature body bodyLine)
      (p.past (kept xs) (kept us ++ rest) []) s (kept us) ds rest) :
    Gives (typedOf inner) p s (kept xs ++ kept us) ds rest := by
  obtain ⟨returnType, name, parameters, line⟩ := signature
  -- no slot of a head can be struck, so its tokens all stand
  obtain ⟨ts, rfl, hts⟩ := Prints.solid_inv hxs (Signature.all_isSolid_slots _)
  rw [Signature.slots] at hts
  obtain ⟨t, _, ⟨htype : t.kind = returnType.kind, -, hline⟩, hts₁, rfl⟩ :=
    List.forall₂_cons_left_iff.mp hts
  obtain ⟨u, _, ⟨hname : u.kind = .identifier, htext, -⟩, hts₂, rfl⟩ :=
    List.forall₂_cons_left_iff.mp hts₁
  obtain ⟨o, _, ⟨hopen : o.kind = .openParen, -⟩, hts₃, rfl⟩ :=
    List.forall₂_cons_left_iff.mp hts₂
  obtain ⟨qs, _, rfl, hqs, hts₄⟩ := forall₂_append_left hts₃
  obtain ⟨c, _, ⟨hclose : c.kind = .closeParen, -⟩, ⟨⟩, rfl⟩ :=
    List.forall₂_cons_left_iff.mp hts₄
  obtain rfl := hline line rfl
  obtain rfl := htext name rfl
  rw [kept_standing] at hahead hbody ⊢
  -- a name and a parenthesis behind the type tell a function from a declaration
  have hlook : ((p.peek 1).kind = .identifier && (p.peek 2).kind = .openParen) = true := by
    rw [Stream.peek, Stream.peek, hahead]
    simpa using ⟨hname, hopen⟩
  refine Gives.get ?_
  rw [if_pos hlook]
  refine Gives.line ?_
  rw [Parser.current_eq hahead]
  simp only [List.cons_append, List.append_assoc] at hahead hbody ⊢
  show Gives _ p s ([t] ++ _) _ _
  refine Gives.bind_quiet (gives_dataType (by rw [hahead]; simp) htype) ?_
  refine Gives.bind_expect (by simp) hname (by decide) ?_
  refine Gives.bind_expect (by simp) hopen (by decide) ?_
  refine Gives.bind_quiet (reads_parameters parameters _ qs _ hqs ?_ ?_) ?_
  · simp
  · simpa using hclose
  refine Gives.bind_expect (by simp) hclose (by decide) ?_
  simpa using hbody

/-- A function is read back with its body. -/
theorem reads_typedOf_function {signature : Signature} {body : List Stmt} {bodyLine : Nat}
    (hread : ∀ s ∈ body, ReadsStmt inner s) :
    ReadsStmt (typedOf inner) (.function signature body bodyLine) := by
  intro p xs rest hxs hahead hforms hnext
  rw [Stmt.slots] at hxs
  obtain ⟨hs, us, rfl, hhs, hus⟩ := forall₂_append_left hxs
  obtain ⟨ts, rfl, -⟩ := Prints.solid_inv hhs signature.all_isSolid_slots
  rw [kept_append, List.append_assoc] at hahead
  rw [kept_append, reports_append, reports_standing, List.nil_append]
  refine gives_typedOf_signature hhs hahead (Gives.kind ?_)
  have hbrace : (p.following (kept us ++ rest)).kind ≠ .semicolon := by
    obtain ⟨o, _, rfl, ⟨hopen : o.kind = .openBrace, -⟩, -⟩ := Prints.cons_inv hus rfl
    show o.kind ≠ _
    rw [hopen]
    decide
  rw [Parser.kind_past, if_neg hbrace]
  have hbelow : ElseBelow us :=
    hnext.below.of_infix ⟨standing ts, [⟨p.following rest, false⟩], by simp⟩
  exact .bind_last (gives_blockOf hread hus rfl hforms hbelow) (.pure rfl _)

/-- So is a prototype, whose semicolon cannot be struck. -/
theorem reads_typedOf_prototype {signature : Signature} :
    ReadsStmt (typedOf inner) (.prototype signature) := by
  intro p xs rest hxs hahead _ _
  rw [Stmt.slots] at hxs
  obtain ⟨hs, _, rfl, hhs, hlast⟩ := forall₂_append_left hxs
  obtain ⟨c, _, rfl, ⟨hsemicolon : c.kind = .semicolon, -⟩, ⟨⟩⟩ := Prints.cons_inv hlast rfl
  obtain ⟨ts, rfl, -⟩ := Prints.solid_inv hhs signature.all_isSolid_slots
  rw [kept_append, List.append_assoc] at hahead
  rw [kept_append, reports_append, reports_standing, List.nil_append]
  refine gives_typedOf_signature hhs hahead (Gives.kind ?_)
  rw [Parser.kind_past]
  show Gives (if c.kind = .semicolon then _ else _) _ _ _ _ _
  rw [if_pos hsemicolon]
  exact .bind_advance rfl (by rw [hsemicolon]; decide) (.pure rfl _)

/-! ## The knot -/

/-- The table gives the form for the first token of a statement. -/
theorem ReadsStmt.of_form {form : Form} {s : Stmt} {slot : Slot} {slots : List Slot}
    (hslots : s.slots = slot :: slots) (hstands : slot.isEnding = false)
    (hform : Forms.standard slot.kind = some form) (hread : ReadsStmt (formOf inner form) s) :
    ReadsStmt (stmtOf inner) s := by
  intro p xs rest hxs hahead hforms hnext
  have hentry : p.forms p.kind = some form := by
    rw [hslots] at hxs
    obtain ⟨t, us, rfl, ht, -⟩ := Prints.cons_inv hxs hstands
    rw [hforms, Parser.kind_eq hahead]
    show Forms.standard t.kind = _
    rw [ht.1, hform]
  refine Gives.get ?_
  rw [hentry]
  exact hread p xs rest hxs hahead hforms hnext

/-- A statement is read back by a reader that can read the statements inside it. -/
theorem reads_stmtOf
    (hinner : ∀ s, s.wellFormed = true → weight s.slots < n → ReadsStmt inner s)
    {s : Stmt} (hs : s.wellFormed = true) (hn : weight s.slots ≤ n) :
    ReadsStmt (stmtOf inner) s := by
  -- a row inside the statement is lighter, so each of its statements is
  have hrow {row : List Stmt} (hwell : wellFormedRow row = true)
      (hweight : weight (rowSlots row) < n) : ∀ s ∈ row, ReadsStmt inner s := by
    intro s hs
    rw [wellFormedRow_eq_all, List.all_eq_true] at hwell
    exact hinner s (hwell s hs) (Nat.lt_of_le_of_lt (weight_le_weight_rowSlots hs) hweight)
  have htype (type : DataType) : Forms.standard type.kind = some .typed := by
    cases type <;> rfl
  cases s with
  | block body line =>
      simp only [Stmt.slots, weight_append, weight_cons_of_isEnding, Slot.first] at hn
      refine .of_form rfl rfl rfl fun p xs rest hxs hahead hforms hnext => ?_
      exact .bind_last (gives_blockOf (hrow hs (by omega)) hxs hahead hforms
        (hnext.below.of_infix (List.prefix_append _ _).isInfix)) (.pure rfl _)
  | declaration d => exact .of_form rfl rfl (htype _) (reads_typed_declaration hs)
  | assignment a => exact .of_form rfl rfl rfl (reads_assignment_stmt hs)
  | ifThen condition body line =>
      simp only [Stmt.wellFormed, Bool.and_eq_true] at hs
      simp only [Stmt.slots, weight_append, weight_cons_of_isEnding, Slot.first] at hn
      exact .of_form rfl rfl rfl (reads_branchOf_ifThen hs.1 (hinner body hs.2 (by omega)))
  | ifElse condition onTrue onFalse line =>
      simp only [Stmt.wellFormed, Bool.and_eq_true, Bool.not_eq_true'] at hs
      simp only [Stmt.slots, weight_append, weight_cons_of_isEnding, Slot.first, mark] at hn
      exact .of_form rfl rfl rfl (reads_branchOf_ifElse hs.1.1.1 hs.1.2
        (hinner onTrue hs.1.1.2 (by omega)) (hinner onFalse hs.2 (by omega)))
  | whileLoop condition body line =>
      simp only [Stmt.wellFormed, Bool.and_eq_true] at hs
      simp only [Stmt.slots, weight_append, weight_cons_of_isEnding, Slot.first] at hn
      exact .of_form rfl rfl rfl (reads_whileOf hs.1 (hinner body hs.2 (by omega)))
  | forLoop init condition step body line =>
      simp only [Stmt.wellFormed, Bool.and_eq_true] at hs
      simp only [Stmt.slots, weight_append, weight_cons_of_isEnding, Slot.first, mark] at hn
      exact .of_form rfl rfl rfl
        (reads_forOf hs.1.1.1 hs.1.1.2 hs.1.2 (hinner body hs.2 (by omega)))
  | function signature body bodyLine =>
      simp only [Stmt.slots, weight_append, weight_cons_of_isEnding, Slot.first] at hn
      exact .of_form rfl rfl (htype _) (reads_typedOf_function (hrow hs (by omega)))
  | prototype signature => exact .of_form rfl rfl (htype _) reads_typedOf_prototype
  | result value line =>
      cases value <;> exact .of_form rfl rfl rfl (reads_result hs)

end Forms

/-- The bound on nesting never stops a printed statement. -/
theorem reads_stmtWithin (depth : Nat) : ∀ s : Stmt, s.wellFormed = true →
    weight s.slots ≤ depth → ReadsStmt (stmtWithin depth) s := by
  induction depth with
  | zero => exact fun s hs hn => reads_stmtOf (fun _ _ h => absurd h (Nat.not_lt_zero _)) hs hn
  | succ depth ih =>
      exact fun s hs hn =>
        reads_stmtOf (fun s' hs' h => ih s' hs' (Nat.le_of_lt_succ h)) hs hn

/-- A well-formed statement is read back. -/
theorem reads_stmt {s : Stmt} (hs : s.wellFormed = true) : ReadsStmt stmt s := by
  intro p xs rest hxs hahead hforms hnext
  refine Gives.get (reads_stmtWithin _ s hs ?_ p xs rest hxs hahead hforms hnext)
  have hweight := hxs.weight_le
  rw [Stream.remaining, hahead, List.length_append]
  omega

end Tercet
