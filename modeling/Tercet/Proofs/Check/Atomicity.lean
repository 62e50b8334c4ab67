import Tercet.Proofs.Check.Usage

/-!
# `Tercet.Proofs.Check.Atomicity`: a request is served or refused as a whole

Requests to a checker are atomic (`atomic_perform`): one that is refused has no effect but a
diagnostic, and no diagnostic is ever taken back. Each rule has its own lemma, and all of them rest
on two: a verdict of `true` refuses nothing, and a report is one diagnostic. Only declarations need
more, because they could fail on a name that is taken, and have made sure before that it is free.
-/

set_option autoImplicit false

namespace Tercet

/-- Whether the request is about types or about the whole table, and not about one name. -/
def Request.isInspection : Request → Bool
  | infer _ | combine _ _ _ _ | assignable _ _ _ _ | unused => true
  | _ => false

namespace Checker

/-- The log goes on from the log before, and a refusal adds one diagnostic and nothing else. -/
structure Atomic (c : Checker) (answer : Bool × Checker) : Prop where
  kept : c.log <+: answer.2.log
  refused : c.table.scopes ≠ [] → answer.1 = false →
    answer.2.table = c.table ∧ ∃ d, answer.2.log = c.log ++ [d]

variable {c c' : Checker}

/-- A rule that is met may change the table, as long as the log goes on. -/
theorem atomic_true (h : c.log <+: c'.log) : c.Atomic (true, c') :=
  ⟨h, fun _ hfalse => Bool.noConfusion hfalse⟩

/-- A rule that is broken reports it, and does nothing else. -/
theorem atomic_report (cause : Cause) (line : Nat) : c.Atomic (false, c.report cause line) :=
  ⟨List.prefix_append _ _, fun _ _ => ⟨rfl, ⟨cause, line⟩, rfl⟩⟩

/-- A declaration under a free name, after reports that leave the table, is not refused. -/
theorem atomic_declare {x : Symbol} (htable : c'.table = c.table) (hlog : c.log <+: c'.log)
    (hfree : c.table.lookup? x.name = none) : c.Atomic (c'.declare x) where
  kept := by
    rw [log_declare]
    exact hlog
  refused hne hfalse := by
    rw [Table.lookup?_eq_at?, ← htable] at hfree
    obtain ⟨t, ht⟩ := Table.exists_declare? (htable ▸ hne) hfree
    rw [declare, ht] at hfalse
    cases hfalse

/-- Asking whether a name is free. -/
theorem atomic_checkFresh (name : String) (line : Nat) : c.Atomic (c.checkFresh name line) := by
  rw [checkFresh]
  split
  · exact atomic_report _ line
  · exact atomic_true (List.prefix_refl _)

/-- Asking whether a value fits. If one of the two types is unknown, it does. -/
theorem atomic_checkAssignable (expected actual : Option DataType) (line : Nat)
    (context : String) : c.Atomic (c.checkAssignable expected actual line context) := by
  match expected, actual with
  | some e, some a =>
    rw [checkAssignable]
    split
    · exact atomic_true (List.prefix_refl _)
    · exact atomic_report _ line
  | none, _ | some _, none => exact atomic_true (List.prefix_refl _)

/-- A declaration is refused if its name is taken, before its first value is looked at. -/
theorem atomic_checkDeclaration (name : String) (type : DataType) (initializer : Option Expr)
    (line : Nat) : c.Atomic (c.checkDeclaration name type initializer line) := by
  cases hlookup : c.table.lookup? name with
  | some y =>
    simp only [checkDeclaration, checkFresh, hlookup]
    exact atomic_report _ line
  | none =>
    cases initializer with
    | none =>
      simp only [checkDeclaration, checkFresh, hlookup]
      exact atomic_declare rfl (List.prefix_refl _) hlookup
    | some e =>
      simp only [checkDeclaration, checkFresh, hlookup]
      -- what is said about the types of the first value comes before the declaration
      have hinfer : c.log <+: (c.infer e).2.log := List.prefix_append _ _
      exact atomic_declare (table_checkAssignable _ _ _ _ _)
        (hinfer.trans (atomic_checkAssignable _ _ line _).kept) hlookup

/-- So is the declaration of a parameter. -/
theorem atomic_declareParameter (p : Parameter) (line : Nat) :
    c.Atomic (c.declareParameter p line) := by
  cases hlookup : c.table.lookup? p.name with
  | some y =>
    simp only [declareParameter, checkFresh, hlookup]
    exact atomic_report _ line
  | none =>
    simp only [declareParameter, checkFresh, hlookup]
    exact atomic_declare rfl (List.prefix_refl _) hlookup

/-- A function is refused if its name is taken, unless by a prototype of the same return type. -/
theorem atomic_declareFunction (s : Signature) (defined : Bool) :
    c.Atomic (c.declareFunction s defined) := by
  cases hlookup : c.table.lookup? s.name with
  | none =>
    simp only [declareFunction, hlookup]
    exact atomic_declare rfl (List.prefix_refl _) hlookup
  | some old =>
    simp only [declareFunction, hlookup]
    split
    · split
      -- the name is taken, so there is a symbol to be replaced
      · have htaken : (c.table.at? 0 (Symbol.function s true).name).isSome = true := by
          rw [← Table.lookup?_eq_at?]
          exact Option.isSome_of_eq_some hlookup
        obtain ⟨t, ht⟩ := Table.exists_replace? htaken
        simp only [ht]
        exact atomic_true (List.prefix_refl _)
      · exact atomic_true (List.prefix_refl _)
    · exact atomic_report _ s.line

/-- The use of a name is refused if the name stands for nothing or has no value. -/
theorem atomic_checkUse (name : String) (line : Nat) : c.Atomic (c.checkUse name line) := by
  rw [checkUse]
  split
  · exact atomic_report _ line
  · split
    · exact atomic_true (List.prefix_refl _)
    · exact atomic_report _ line

/-- So is counting a variable up or down, which is a use and a store. -/
theorem atomic_checkStep (name : String) (line : Nat) : c.Atomic (c.checkStep name line) := by
  have huse := atomic_checkUse (c := c) name line
  rw [checkStep]
  generalize c.checkUse name line = answer at huse
  obtain ⟨verdict, d⟩ := answer
  cases verdict with
  | false => exact huse
  | true => exact atomic_true huse.kept

/-- A store is refused if its name stands for nothing. Whether the value fits has no say in it. -/
theorem atomic_checkAssignment (name : String) (op : AssignOp) (value : Expr) (line : Nat) :
    c.Atomic (c.checkAssignment name op value line) := by
  cases hresolve : c.table.resolve? name with
  | none =>
    simp only [checkAssignment, hresolve]
    exact atomic_report _ line
  | some x =>
    simp only [checkAssignment, hresolve]
    refine atomic_true (List.IsPrefix.trans ?_ (atomic_checkAssignable _ _ line _).kept)
    -- the value is looked at, and where the store computes something, so is the operator
    cases op.binary? with
    | none => exact List.prefix_append _ _
    | some binary => exact (List.prefix_append _ _).trans (List.prefix_append _ _)

/-- A request whose reply is the verdict of a rule. -/
theorem Atomic.perform {request : Request} {answer : Bool × Checker} (h : c.Atomic answer)
    (heq : c.perform request = (.verdict answer.1, answer.2)) :
    c.log <+: (c.perform request).2.log ∧
      (c.table.scopes ≠ [] → (c.perform request).1 = .verdict false →
        (c.perform request).2.table = c.table ∧
          ∃ d, (c.perform request).2.log = c.log ++ [d]) := by
  rw [heq]
  exact ⟨h.kept, fun hne hreply => h.refused hne (Reply.verdict.inj hreply)⟩

/-- A request that only looks leaves the table as it is. -/
theorem table_perform_of_isInspection {request : Request} (h : request.isInspection = true) :
    (c.perform request).2.table = c.table := by
  cases request with
  | infer | combine | unused => rfl
  | assignable expected actual line context =>
    exact table_checkAssignable c expected actual line context
  | _ => cases h

/-- What a checker has reported stays reported. A request that is refused, while a scope is
open, leaves the table as it is and adds one diagnostic; and looking at types, or for what has
not been read, never changes the table. -/
theorem atomic_perform (c : Checker) (request : Request) :
    c.log <+: (c.perform request).2.log ∧
    (c.table.scopes ≠ [] → (c.perform request).1 = .verdict false →
      (c.perform request).2.table = c.table ∧
        ∃ d, (c.perform request).2.log = c.log ++ [d]) ∧
    (request.isInspection = true → (c.perform request).2.table = c.table) := by
  rw [← and_assoc]
  refine ⟨?_, table_perform_of_isInspection⟩
  cases request with
  -- scopes and types are answered without a verdict
  | push | pop => exact ⟨List.prefix_refl _, fun _ hreply => Reply.noConfusion hreply⟩
  | infer | combine | unused =>
    exact ⟨List.prefix_append _ _, fun _ hreply => Reply.noConfusion hreply⟩
  | fresh name line => exact (atomic_checkFresh name line).perform rfl
  | declaration name type initializer line =>
    exact (atomic_checkDeclaration name type initializer line).perform rfl
  | parameter p line => exact (atomic_declareParameter p line).perform rfl
  | function s defined => exact (atomic_declareFunction s defined).perform rfl
  | use name line => exact (atomic_checkUse name line).perform rfl
  | assignment name op value line => exact (atomic_checkAssignment name op value line).perform rfl
  | step name line => exact (atomic_checkStep name line).perform rfl
  | assignable expected actual line context =>
    exact (atomic_checkAssignable expected actual line context).perform rfl

/-- After `int x;`, counting `x` up is refused, because `x` has no value yet. -/
theorem atomic_perform_bareVariable :
    bareVariable.table.scopes ≠ [] ∧
    (bareVariable.toChecker.perform (.step "x" 2)).1 = .verdict false ∧
    (bareVariable.toChecker.perform (.step "x" 2)).2.table = bareVariable.table ∧
    (∃ d, (bareVariable.toChecker.perform (.step "x" 2)).2.log = bareVariable.log ++ [d]) ∧
    Request.unused.isInspection = true ∧
    (bareVariable.toChecker.perform .unused).2.table = bareVariable.table := by
  have hne : bareVariable.table.scopes ≠ [] := by decide +kernel
  have hrefused : (bareVariable.toChecker.perform (.step "x" 2)).1 = .verdict false := by
    decide +kernel
  obtain ⟨htable, hlog⟩ := (atomic_perform _ (.step "x" 2)).2.1 hne hrefused
  exact ⟨hne, hrefused, htable, hlog, rfl, (atomic_perform _ .unused).2.2 rfl⟩

end Checker

end Tercet
