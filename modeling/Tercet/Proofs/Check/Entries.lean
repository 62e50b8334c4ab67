import Mathlib.Data.List.Basic
import Tercet.Diagnostic.Log
import Tercet.Proofs.Check.History

/-!
# `Tercet.Proofs.Check.Entries`: what a row of entries binds, and which entries are refused

Names are entered into a scope one after the other: variables, parameters, prototypes and
definitions of functions. Without any table, the row of entries says what a name is bound to
(`boundIn?`): to its first entry, except that a prototype gives way to the first definition of
the same return type. It also says which entries are refused, and with which report
(`refusal?`), because that depends on what the name is bound to before.

Two counts follow. Of the variables and parameters of a free name all but the first are refused
(`refusalCount_of_free`), and of the definitions of a name at most one is admitted
(`length_defines_admitted_le`).
-/

set_option autoImplicit false

namespace Tercet

/-! ### Rows of entries -/

namespace Entry

def isFunction : Entry → Bool
  | function _ _ => true
  | _ => false

/-- Whether the entry is the definition of a function of the name. -/
def defines (x : String) : Entry → Bool
  | function s true => s.name = x
  | _ => false

/-- Whether the entry defines what a prototype announces. -/
def completes (announced : Signature) : Entry → Bool
  | function s true => announced.returnType = s.returnType
  | _ => false

/-- Whether a name that is bound to the first entry may be entered again by the second: only to
repeat or to complete a prototype. -/
def allows : Entry → Entry → Bool
  | function announced false, function s _ => announced.returnType = s.returnType
  | _, _ => false

/-- The report on an entry whose name is taken. -/
def refused : Entry → Diagnostic
  | var x _ line _ => ⟨.redeclared x, line⟩
  | parameter p line => ⟨.redeclared p.name, line⟩
  | function s _ => ⟨.functionRedeclared s.name, s.line⟩

end Entry

/-- What a name is bound to in a scope into which the entries have been made, in this order. -/
def boundIn? (entries : List Entry) (x : String) : Option Entry :=
  match entries.filter fun e => e.name = x with
  | [] => none
  | .function s false :: more => some ((more.find? (Entry.completes s)).getD (.function s false))
  | first :: _ => some first

/-- The report on an entry that is made after others. A variable or parameter must not be bound
in the scope, and a function only to a prototype of the same return type. -/
def refusal? (before : List Entry) (e : Entry) : Option Diagnostic :=
  (boundIn? before e.name).bind fun bound => if bound.allows e then none else some e.refused

/-- The reports on a row of entries that is made after others. -/
def refusals (before : List Entry) : List Entry → Log
  | [] => []
  | e :: more => (refusal? before e).toList ++ refusals (before ++ [e]) more

/-- The entries of a row that are not refused. -/
def admitted (before : List Entry) : List Entry → List Entry
  | [] => []
  | e :: more =>
    (if (refusal? before e).isNone then [e] else []) ++ admitted (before ++ [e]) more

/-- The entries of a second row are made after those of the first. -/
theorem refusals_append (before row row' : List Entry) :
    refusals before (row ++ row') = refusals before row ++ refusals (before ++ row) row' := by
  induction row generalizing before with
  | nil => simp [refusals]
  | cons e more ih => simp [refusals, ih]

/-- A name is free if no entry has it. -/
theorem boundIn?_eq_none_iff {entries : List Entry} {x : String} :
    boundIn? entries x = none ↔ x ∉ entries.map Entry.name := by
  rw [List.mem_map, boundIn?]
  split
  · rename_i hnil
    simpa using hnil
  · rename_i hcons
    have hmem := List.mem_filter.mp (hcons ▸ List.mem_cons_self)
    simpa using ⟨_, hmem.1, by simpa using hmem.2⟩
  · rename_i first _ _ hcons
    have hmem := List.mem_filter.mp (hcons ▸ List.mem_cons_self (a := first))
    simpa using ⟨_, hmem.1, by simpa using hmem.2⟩

/-- What completes a prototype is a definition of its return type. -/
theorem Entry.exists_of_completes {announced : Signature} {e : Entry}
    (h : e.completes announced = true) :
    ∃ s, e = .function s true ∧ announced.returnType = s.returnType := by
  match e with
  | .function s true => exact ⟨s, rfl, of_decide_eq_true h⟩
  | .function _ false | .var _ _ _ _ | .parameter _ _ => cases h

/-- An entry that defines a name has that name. -/
theorem Entry.name_of_defines {e : Entry} {x : String} (h : e.defines x = true) :
    e.name = x := by
  match e with
  | .function s true => exact of_decide_eq_true h
  | .function _ false | .var _ _ _ _ | .parameter _ _ => cases h

/-- Only a prototype may be entered again, and only by a function of its return type. -/
theorem Entry.exists_of_allows {bound e : Entry} (h : bound.allows e = true) :
    ∃ announced s defined, bound = .function announced false ∧ e = .function s defined ∧
      announced.returnType = s.returnType := by
  match bound, e with
  | .function announced false, .function s defined =>
    exact ⟨announced, s, defined, rfl, rfl, of_decide_eq_true h⟩
  | .function _ true, _ | .var _ _ _ _, _ | .parameter _ _, _ => cases h
  | .function _ false, .var _ _ _ _ | .function _ false, .parameter _ _ => cases h

/-- What another entry changes: nothing for other names, and for its own name it counts only
where that is free, or where it completes a prototype. -/
theorem boundIn?_append (entries : List Entry) (e : Entry) (x : String) :
    boundIn? (entries ++ [e]) x =
      if e.name = x then
        match boundIn? entries x with
        | none => some e
        | some (.function s false) => some (if e.completes s then e else .function s false)
        | some bound => some bound
      else boundIn? entries x := by
  rw [boundIn?, boundIn?, List.filter_append]
  -- the entry counts only under its own name
  by_cases hname : e.name = x
  · rw [if_pos hname, List.filter_singleton, decide_eq_true hname, cond_true]
    cases entries.filter fun e => e.name = x with
    | nil => cases e with
      | function s defined => cases defined <;> rfl
      | var | parameter => rfl
    | cons first more =>
      match first with
      | .var _ _ _ _ | .parameter _ _ | .function _ true => rfl
      | .function s false =>
        rw [List.cons_append]
        simp only [List.find?_append]
        -- a definition that has been found stays
        cases hfind : more.find? (Entry.completes s) with
        | none =>
          rw [List.find?_singleton]
          simp only [Option.none_or, Option.getD_none]
          split <;> rfl
        | some found =>
          obtain ⟨s', rfl, _⟩ := Entry.exists_of_completes (List.find?_some hfind)
          rfl
  · rw [if_neg hname, List.filter_singleton, decide_eq_false hname, cond_false, List.append_nil]

/-- For other names an entry changes nothing. -/
theorem boundIn?_append_of_ne {entries : List Entry} {e : Entry} {x : String} (h : e.name ≠ x) :
    boundIn? (entries ++ [e]) x = boundIn? entries x := by
  rw [boundIn?_append, if_neg h]

/-- A free name is bound to its first entry. -/
theorem boundIn?_append_of_free {entries : List Entry} {e : Entry}
    (h : boundIn? entries e.name = none) : boundIn? (entries ++ [e]) e.name = some e := by
  rw [boundIn?_append, if_pos rfl, h]

/-- What is bound stays bound, unless it is a prototype that is completed. -/
theorem boundIn?_append_of_bound {entries : List Entry} {e bound : Entry} {x : String}
    (h : boundIn? entries x = some bound)
    (hkeep : ∀ s, bound = .function s false → e.completes s = false) :
    boundIn? (entries ++ [e]) x = some bound := by
  rw [boundIn?_append, h]
  split
  · match bound with
    | .var _ _ _ _ | .parameter _ _ | .function _ true => rfl
    | .function s false =>
      have hne : e.completes s ≠ true := by simp [hkeep s rfl]
      exact congrArg some (if_neg hne)
  · rfl

/-- A prototype that is completed. -/
theorem boundIn?_append_of_completes {entries : List Entry} {e : Entry} {s : Signature}
    (h : boundIn? entries e.name = some (.function s false)) (he : e.completes s = true) :
    boundIn? (entries ++ [e]) e.name = some e := by
  rw [boundIn?_append, if_pos rfl, h]
  exact congrArg some (if_pos he)

/-! ### Counting reports and definitions -/

/-- The name of which a report says that it is taken. -/
def Cause.taken? : Cause → Option String
  | .redeclared x | .functionRedeclared x => some x
  | _ => none

/-- The report on an entry names it. -/
theorem Entry.taken?_refused (e : Entry) : e.refused.cause.taken? = some e.name := by
  cases e <;> rfl

/-- An entry that is refused is reported in one way. -/
theorem eq_refused_of_refusal? {before : List Entry} {e : Entry} {d : Diagnostic}
    (h : refusal? before e = some d) : d = e.refused := by
  obtain ⟨bound, _, hd⟩ := Option.bind_eq_some_iff.mp h
  exact (Option.some.inj (Option.ite_none_left_eq_some.mp hd).2).symm

/-- A variable or parameter is refused exactly if its name is bound. -/
theorem refusal?_of_not_isFunction (before : List Entry) {e : Entry}
    (he : e.isFunction = false) :
    refusal? before e = if (boundIn? before e.name).isSome then some e.refused else none := by
  rw [refusal?]
  cases boundIn? before e.name with
  | none => rfl
  | some bound =>
    have hrefused : ¬ bound.allows e = true := by
      intro hallows
      obtain ⟨_, _, _, _, rfl, _⟩ := Entry.exists_of_allows hallows
      cases he
    exact if_neg hrefused

/-- How often a row of entries is refused under a name. -/
def refusalCount (before entries : List Entry) (x : String) : Nat :=
  (refusals before entries).countP fun d => d.cause.taken? = some x

/-- The first of a row of entries is counted on its own. -/
theorem refusalCount_cons (before : List Entry) (e : Entry) (more : List Entry) (x : String) :
    refusalCount before (e :: more) x =
      (if e.name = x ∧ (refusal? before e).isSome then 1 else 0)
        + refusalCount (before ++ [e]) more x := by
  rw [refusalCount, refusals, List.countP_append]
  refine congrArg (· + _) ?_
  cases h : refusal? before e with
  | none => simp
  | some d =>
    rw [eq_refused_of_refusal? h]
    simp [e.taken?_refused]

section Counting

variable {x : String} {entries before : List Entry}

/-- A name that is bound stays bound. -/
theorem isSome_boundIn?_append {e : Entry} (h : (boundIn? before x).isSome = true) :
    (boundIn? (before ++ [e]) x).isSome = true := by
  rw [Option.isSome_iff_ne_none, ne_eq, boundIn?_eq_none_iff, not_not] at h ⊢
  rw [List.map_append]
  exact List.mem_append_left _ h

/-- After an entry its name is bound. -/
theorem isSome_boundIn?_append_self (before : List Entry) (e : Entry) :
    (boundIn? (before ++ [e]) e.name).isSome = true := by
  rw [Option.isSome_iff_ne_none, ne_eq, boundIn?_eq_none_iff, not_not]
  simp

/-- Once a name is bound, each variable or parameter of that name is refused. -/
theorem refusalCount_of_bound (hvars : ∀ e ∈ entries, e.name = x → e.isFunction = false)
    (hbound : (boundIn? before x).isSome = true) :
    refusalCount before entries x = entries.countP fun e => e.name = x := by
  induction entries generalizing before with
  | nil => rfl
  | cons e more ih =>
    have hmore := ih (fun e' he' => hvars e' (List.mem_cons_of_mem e he'))
      (isSome_boundIn?_append (e := e) hbound)
    rw [refusalCount_cons, hmore, List.countP_cons, Nat.add_comm]
    refine congrArg _ ?_
    by_cases hname : e.name = x
    · have hrefusal := refusal?_of_not_isFunction before
        (hvars e List.mem_cons_self hname)
      rw [hname, if_pos hbound] at hrefusal
      simp [hname, hrefusal]
    · simp [hname]

/-- Of the variables and parameters of a free name, all but the first are refused. -/
theorem refusalCount_of_free (hvars : ∀ e ∈ entries, e.name = x → e.isFunction = false)
    (hfree : boundIn? before x = none) :
    refusalCount before entries x = (entries.countP fun e => e.name = x) - 1 := by
  induction entries generalizing before with
  | nil => rfl
  | cons e more ih =>
    have hvars' : ∀ e' ∈ more, e'.name = x → e'.isFunction = false :=
      fun e' he' => hvars e' (List.mem_cons_of_mem e he')
    rw [refusalCount_cons, List.countP_cons]
    by_cases hname : e.name = x
    -- the first binds the name, and is not refused
    · subst hname
      rw [refusalCount_of_bound hvars' (isSome_boundIn?_append_self before e)]
      simp [refusal?, hfree]
    · rw [ih hvars' (by rw [boundIn?_append_of_ne hname, hfree])]
      simp [hname]

/-- An entry under a name that is bound is admitted only if that is allowed. -/
theorem allows_of_refusal? {e bound : Entry} (hbound : boundIn? before e.name = some bound)
    (h : refusal? before e = none) : bound.allows e = true := by
  by_contra hallows
  rw [refusal?, hbound, Option.bind_some, if_neg hallows] at h
  cases h

/-- Nothing is defined over what is bound to a variable or to a definition. -/
theorem defines_admitted_of_bound {bound : Entry} (hbound : boundIn? before x = some bound)
    (hsettled : ∀ s, bound ≠ .function s false) :
    (admitted before entries).filter (Entry.defines x) = [] := by
  induction entries generalizing before with
  | nil => rfl
  | cons e more ih =>
    have hbound' := boundIn?_append_of_bound (e := e) hbound fun s hs => absurd hs (hsettled s)
    rw [admitted, List.filter_append, ih hbound', List.append_nil, List.filter_eq_nil_iff]
    intro e' he' hdefines
    obtain ⟨hadmitted, rfl⟩ : refusal? before e = none ∧ e' = e := by simpa using he'
    rw [← Entry.name_of_defines hdefines] at hbound
    obtain ⟨s, _, _, hs, _⟩ := Entry.exists_of_allows (allows_of_refusal? hbound hadmitted)
    exact hsettled s hs

/-- The definition of a function that is admitted is what its name is bound to. -/
theorem boundIn?_append_of_defines {e : Entry} (hdefines : e.defines x = true)
    (hadmitted : refusal? before e = none) :
    boundIn? (before ++ [e]) x = some e ∧ ∀ s, e ≠ .function s false := by
  have hname := Entry.name_of_defines hdefines
  subst hname
  match e with
  | .function s true =>
    refine ⟨?_, by simp⟩
    cases hbound : boundIn? before (Entry.function s true).name with
    | none => exact boundIn?_append_of_free hbound
    -- what is bound and admits a definition is a prototype that it completes
    | some bound =>
      obtain ⟨announced, _, _, rfl, heq, htype⟩ :=
        Entry.exists_of_allows (allows_of_refusal? hbound hadmitted)
      cases heq
      exact boundIn?_append_of_completes hbound (decide_eq_true htype)
  | .function _ false | .var _ _ _ _ | .parameter _ _ => cases hdefines

/-- At most one definition of a name is admitted. -/
theorem length_defines_admitted_le (before entries : List Entry) (x : String) :
    ((admitted before entries).filter (Entry.defines x)).length ≤ 1 := by
  induction entries generalizing before with
  | nil => exact Nat.zero_le 1
  | cons e more ih =>
    rw [admitted, List.filter_append, List.length_append]
    by_cases h : refusal? before e = none ∧ e.defines x = true
    -- after the first definition there is no other
    · obtain ⟨hbound, hsettled⟩ := boundIn?_append_of_defines h.2 h.1
      rw [defines_admitted_of_bound hbound hsettled]
      simp [h.1, h.2]
    · have hnone : (if (refusal? before e).isNone then [e] else []).filter (Entry.defines x)
          = [] := by
        rw [List.filter_eq_nil_iff]
        intro e' he' hdefines
        obtain ⟨hadmitted, rfl⟩ : refusal? before e = none ∧ e' = e := by simpa using he'
        exact h ⟨hadmitted, hdefines⟩
      rw [hnone, List.length_nil, Nat.zero_add]
      exact ih (before ++ [e])

end Counting

end Tercet
