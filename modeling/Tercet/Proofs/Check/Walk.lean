import Tercet.Proofs.Check.Scopes
import Tercet.Proofs.Symbol.Lookup

/-!
# `Tercet.Proofs.Check.Walk`: the analysis as a row of events

The pass of the analysis over a program does two things at once: it follows the names, and it
looks at types. The types never touch the table, so they can be left out. What remains of the
requests of the pass is a row of events, at most one for each request (`eventsOf`), and for each
event what it does to a checker (`Checker.handle`).

`untyped_stmts` says that this is all: apart from what it reports about types, the analysis of
a row of statements handles their events one after the other. Facts about names can then be
proved event by event.
-/

set_option autoImplicit false

namespace Tercet

/-! ### The events of a row of requests -/

/-- The events of a row of requests, in order. -/
def eventsOf (row : List Request) : List Event :=
  row.filterMap Request.event?

/-- The events of a program are those of the requests that its tree makes. -/
def Program.events (p : Program) : List Event :=
  eventsOf p.requests

/-- Events in a scope of their own. -/
def enclosed (row : List Event) : List Event :=
  .opened :: (row ++ [.closed])

/-- The first request comes first, if it means something for the table. -/
theorem eventsOf_cons (q : Request) (more : List Request) :
    eventsOf (q :: more) = q.event?.toList ++ eventsOf more := by
  rw [eventsOf, List.filterMap_cons]
  cases q.event? <;> rfl

/-- A request is at most one event. -/
theorem eventsOf_singleton (q : Request) : eventsOf [q] = q.event?.toList := by
  rw [eventsOf_cons]
  exact List.append_nil _

/-- Rows one after the other have their events one after the other. -/
theorem eventsOf_append (row row' : List Request) :
    eventsOf (row ++ row') = eventsOf row ++ eventsOf row' :=
  List.filterMap_append

/-- A scope is opened and closed where this is asked for. -/
theorem eventsOf_bracketed (row : List Request) :
    eventsOf (bracketed row) = enclosed (eventsOf row) := by
  rw [bracketed, eventsOf_cons, eventsOf_append]
  rfl

/-- The request at the end of a program is no event. -/
theorem Program.events_eq (p : Program) : p.events = eventsOf (requestsAll p.body) := by
  rw [events, requests, eventsOf_append]
  exact List.append_nil _

/-- The event of a quiet request, if there is one, is a reading or a store. -/
theorem Request.event_of_isQuiet {q : Request} {e : Event} (h : q.isQuiet = true)
    (he : q.event? = some e) :
    (∃ name line, e = .read name line) ∨ ∃ name line, e = .stored name line := by
  cases q with
  | use name line | step name line => exact .inl ⟨name, line, (Option.some.inj he).symm⟩
  | assignment name op value line => exact .inr ⟨name, line, (Option.some.inj he).symm⟩
  | infer e => cases he
  | _ => cases h

/-! ### Scopes are closed again -/

namespace History

/-- The row closes the scopes that it opens, and no others. -/
def Balanced (row : List Event) : Prop :=
  ∀ k, row.foldl (fun k e => k.bind e.shift) (some k) = some k

variable {row row' : List Event}

/-- Rows that are balanced can follow each other. -/
theorem Balanced.append (h : Balanced row) (h' : Balanced row') : Balanced (row ++ row') := by
  intro k
  rw [List.foldl_append, h, h']

/-- A balanced row in a scope of its own: its level is one higher in between. -/
theorem Balanced.enclosed (h : Balanced row) : Balanced (enclosed row) := by
  intro k
  rw [Tercet.enclosed, List.foldl_cons, List.foldl_append]
  exact congrArg (List.foldl _ · [Event.closed]) (h (k + 1))

/-- The scope in which a balanced row starts is the one in which it ends. -/
theorem Balanced.inside_eq (h : Balanced row) : inside row = some 0 :=
  h 0

end History

open History

/-- The requests of a tree close the scopes that they open, and no others. -/
theorem Fills.balanced {row : List Request} {entries : List Entry} {scopes : List (List Entry)}
    {reports : List Entry → Log} (h : Fills row entries scopes reports) :
    Balanced (eventsOf row) := by
  induction h with
  | nil => exact fun _ => rfl
  -- a reading or a store stays in the scope where it happens
  | @quiet q hq =>
    rw [eventsOf_singleton]
    cases hevent : q.event? with
    | none => exact fun _ => rfl
    | some e =>
      obtain ⟨_, _, rfl⟩ | ⟨_, _, rfl⟩ := Request.event_of_isQuiet hq hevent
      · exact fun _ => rfl
      · exact fun _ => rfl
  | entered hq =>
    rw [eventsOf_singleton, hq]
    exact fun _ => rfl
  | append _ _ ih ih' =>
    rw [eventsOf_append]
    exact ih.append ih'
  | bracketed _ ih =>
    rw [eventsOf_bracketed]
    exact ih.enclosed

/-- So do those of a program. -/
theorem Program.balanced (p : Program) : Balanced p.events := by
  rw [p.events_eq]
  exact (fills_all p.body).balanced

/-! ### What an event does to a checker -/

/-- What a name stands for once it has been entered. -/
def Entry.symbol : Entry → Symbol
  | .var name type line valued =>
    .var (Variable.declared name type line (if valued then some line else none))
  | .parameter p line => .var (Variable.declared p.name p.type line (some line))
  | .function s defined => .function s defined

/-- Whether the cause is about types. -/
def Cause.isTyping : Cause → Bool
  | .incompatibleType _ _ _ | .incompatibleComparison _ _ | .invalidModulo _ _
  | .incompatibleOperation _ _ _ => true
  | _ => false

namespace Checker

/-- Enters a name into the innermost scope. Where it is taken, a variable is refused, while a
function may complete its prototype. -/
def enter (c : Checker) (entry : Entry) : Checker :=
  match c.table.lookup? entry.name, entry with
  | none, _ => (c.declare entry.symbol).2
  | some _, .var name _ line _ => c.report (.redeclared name) line
  | some _, .parameter p line => c.report (.redeclared p.name) line
  | some _, .function s defined => (c.declareFunction s defined).2

/-- Stores into a name, which must stand for something. -/
def write (c : Checker) (name : String) (line : Nat) : Checker :=
  match c.table.resolve? name with
  | none => c.report (.undeclared name) line
  | some _ => { c with table := c.table.store name line }

/-- What an event does to a checker. -/
def handle (c : Checker) : Event → Checker
  | .opened => c.push
  | .closed => c.pop
  | .entered entry => c.enter entry
  | .stored name line => c.write name line
  | .read name line => (c.checkUse name line).2

/-- The checker without what it has reported about types. -/
def untyped (c : Checker) : Checker :=
  ⟨c.table, c.log.filter fun d => !d.cause.isTyping⟩

/-! ### Leaving types out -/

variable {c : Checker}

/-- Reports about types are left out, whatever they are. -/
theorem untyped_reportAll {log : Log} (h : ∀ d ∈ log, d.cause.isTyping = true) :
    (c.reportAll log).untyped = c.untyped := by
  have hnone : log.filter (fun d => !d.cause.isTyping) = [] := by
    simpa using h
  simp [untyped, reportAll, hnone]

/-- Any other report stays. -/
theorem untyped_report {cause : Cause} (h : cause.isTyping = false) (line : Nat) :
    (c.report cause line).untyped = c.untyped.report cause line := by
  simp [untyped, report, reportAll, h]

end Checker

/-- Each of the three ways in which an operator refuses its operands is a matter of types. -/
theorem BinaryOp.isTyping_of_clash? {op : BinaryOp} {left right : DataType} {cause : Cause}
    (h : op.clash? left right = some cause) : cause.isTyping = true := by
  -- comparisons first, then the remainder, then the other operators
  rw [clash?] at h
  split at h
  · split at h
    · cases h
    · cases h
      rfl
  · split at h
    · split at h
      · cases h
      · cases h
        rfl
    · split at h
      · cases h
      · cases h
        rfl

/-- What is said about an operator is about types. -/
theorem BinaryOp.isTyping_of_mem_combine {op : BinaryOp} {left right : Option DataType}
    {line : Nat} {d : Diagnostic} (h : d ∈ (op.combine left right line).2) :
    d.cause.isTyping = true := by
  match left, right with
  | some l, some r =>
    simp only [combine, Option.mem_toList, Option.map_eq_some_iff] at h
    obtain ⟨cause, hcause, rfl⟩ := h
    exact isTyping_of_clash? hcause
  | none, _ | some _, none => cases h

mutual

/-- What inference says about an expression is about types. -/
theorem Expr.isTyping_of_mem_infer {t : Table} {e : Expr} {d : Diagnostic}
    (h : d ∈ (e.infer t).2) : d.cause.isTyping = true := by
  match e with
  | .term only => exact Term.isTyping_of_mem_infer (e := only) h
  | .binary left op right =>
    simp only [Expr.infer, List.mem_append] at h
    rcases h with (h | h) | h
    · exact Expr.isTyping_of_mem_infer h
    · exact Term.isTyping_of_mem_infer h
    · exact BinaryOp.isTyping_of_mem_combine h

/-- So is what it says about a term. -/
theorem Term.isTyping_of_mem_infer {t : Table} {e : Term} {d : Diagnostic}
    (h : d ∈ (e.infer t).2) : d.cause.isTyping = true := by
  match e with
  | .factor only => exact Factor.isTyping_of_mem_infer (f := only) h
  | .binary left op right =>
    simp only [Term.infer, List.mem_append] at h
    rcases h with (h | h) | h
    · exact Term.isTyping_of_mem_infer h
    · exact Factor.isTyping_of_mem_infer h
    · exact BinaryOp.isTyping_of_mem_combine h

/-- A factor is complained about only for what stands between its parentheses. -/
theorem Factor.isTyping_of_mem_infer {t : Table} {f : Factor} {d : Diagnostic}
    (h : d ∈ (f.infer t).2) : d.cause.isTyping = true := by
  match f with
  | .number _ _ | .ident _ _ | .call _ _ _ => cases h
  | .group inner _ => exact Expr.isTyping_of_mem_infer (e := inner) h

end

namespace Checker

variable {c : Checker}

/-- Types aside, inference does nothing. -/
@[simp] theorem untyped_infer (e : Expr) : (c.infer e).2.untyped = c.untyped :=
  untyped_reportAll fun _ => Expr.isTyping_of_mem_infer

/-- Neither does applying an operator to types. -/
@[simp] theorem untyped_combine (left right : Option DataType) (op : BinaryOp) (line : Nat) :
    (c.combine left right op line).2.untyped = c.untyped :=
  untyped_reportAll fun _ => BinaryOp.isTyping_of_mem_combine

/-- Neither does comparing types. -/
@[simp] theorem untyped_checkAssignable (expected actual : Option DataType) (line : Nat)
    (context : String) :
    (c.checkAssignable expected actual line context).2.untyped = c.untyped := by
  match expected, actual with
  | some e, some a =>
    rw [checkAssignable]
    split
    · rfl
    · exact untyped_reportAll (by simp [Cause.isTyping])
  | none, _ | some _, none => rfl

/-- Comparing types does not touch the table. -/
theorem table_checkAssignable (c : Checker) (expected actual : Option DataType) (line : Nat)
    (context : String) : (c.checkAssignable expected actual line context).2.table = c.table := by
  show (c.checkAssignable expected actual line context).2.untyped.table = c.table
  rw [untyped_checkAssignable]
  rfl

/-- To declare a symbol reports nothing, also where it fails. -/
theorem log_declare (c : Checker) (x : Symbol) : (c.declare x).2.log = c.log := by
  rw [declare]
  split <;> rfl

/-- Whether a declaration goes through depends on the table alone. -/
theorem untyped_declare (y : Symbol) : (c.declare y).2.untyped = (c.untyped.declare y).2 := by
  simp only [declare, untyped]
  cases c.table.declare? y <;> rfl

/-- A declaration is the entry of its name, types aside. -/
theorem untyped_checkDeclaration (name : String) (type : DataType) (initializer : Option Expr)
    (line : Nat) :
    (c.checkDeclaration name type initializer line).2.untyped
      = c.untyped.handle (.entered (.var name type line initializer.isSome)) := by
  have htable : c.untyped.table = c.table := rfl
  cases hlookup : c.table.lookup? name with
  -- the name is taken: both sides report that, and the initializer is not looked at
  | some y =>
    simp only [checkDeclaration, checkFresh, handle, enter, Entry.name, htable, hlookup]
    exact untyped_report rfl line
  | none =>
    cases initializer with
    | none =>
      simp only [checkDeclaration, checkFresh, handle, enter, Entry.name, htable, hlookup]
      exact untyped_declare _
    -- the variable is declared also where the value does not fit
    | some e =>
      simp only [checkDeclaration, checkFresh, handle, enter, Entry.name, htable, hlookup,
        untyped_declare, untyped_checkAssignable, untyped_infer]
      rfl

/-- A parameter is the entry of its name. -/
theorem untyped_declareParameter (p : Parameter) (line : Nat) :
    (c.declareParameter p line).2.untyped = c.untyped.handle (.entered (.parameter p line)) := by
  have htable : c.untyped.table = c.table := rfl
  cases hlookup : c.table.lookup? p.name with
  | some y =>
    simp only [declareParameter, checkFresh, handle, enter, Entry.name, htable, hlookup]
    exact untyped_report rfl line
  | none =>
    simp only [declareParameter, checkFresh, handle, enter, Entry.name, htable, hlookup]
    exact untyped_declare _

/-- A head is the entry of its name. Only here a name that is taken may still be entered, over its
prototype. -/
theorem untyped_declareFunction (s : Signature) (defined : Bool) :
    (c.declareFunction s defined).2.untyped
      = c.untyped.handle (.entered (.function s defined)) := by
  have htable : c.untyped.table = c.table := rfl
  cases hlookup : c.table.lookup? s.name with
  | none =>
    simp only [declareFunction, handle, enter, Entry.name, htable, hlookup]
    exact untyped_declare _
  | some y =>
    simp only [declareFunction, handle, enter, Entry.name, htable, hlookup]
    split
    · split
      -- the prototype is replaced in the table, which both sides have in common
      · cases c.table.modifyInnermost? fun scope => scope.replace? (.function s true) <;> rfl
      · rfl
    · exact untyped_report rfl s.line

/-- A use is a reading. Whether it is granted can be seen in the table. -/
theorem untyped_checkUse (name : String) (line : Nat) :
    (c.checkUse name line).2.untyped = c.untyped.handle (.read name line) := by
  have htable : c.untyped.table = c.table := rfl
  cases hresolve : c.table.resolve? name with
  | none =>
    simp only [checkUse, handle, htable, hresolve]
    exact untyped_report rfl line
  | some y =>
    simp only [checkUse, handle, htable, hresolve]
    split
    · rfl
    · exact untyped_report rfl line

/-- An assignment is a store, types aside. -/
theorem untyped_checkAssignment (name : String) (op : AssignOp) (value : Expr) (line : Nat) :
    (c.checkAssignment name op value line).2.untyped = c.untyped.handle (.stored name line) := by
  have htable : c.untyped.table = c.table := rfl
  cases hresolve : c.table.resolve? name with
  | none =>
    simp only [checkAssignment, handle, write, htable, hresolve]
    exact untyped_report rfl line
  | some y =>
    simp only [checkAssignment, handle, write, htable, hresolve, untyped_checkAssignable]
    cases op.binary? with
    | none => simp; rfl
    | some binary => simp; rfl

/-- Counting a name up or down is reading it: if that goes well, the name has a value, and the
store changes nothing. -/
theorem untyped_checkStep (name : String) (line : Nat) :
    (c.checkStep name line).2.untyped = c.untyped.handle (.read name line) := by
  rw [← untyped_checkUse]
  cases hresolve : c.table.resolve? name with
  | none => simp only [checkStep, checkUse, hresolve]
  | some y =>
    by_cases hy : y.isInitialized = true
    -- reading marks the symbol where it stands, so the store finds the same one
    · obtain ⟨k, hk, hat⟩ := Table.exists_resolvesAt hresolve
      have hmarked : (c.table.markUsed name).at? k name = some y.markUsed := by
        rw [Table.at?_markUsed hk, if_pos ⟨rfl, rfl⟩, hat]
        rfl
      have hresolve' : (c.table.markUsed name).resolve? name = some y.markUsed := by
        have hk' : (c.table.markUsed name).ResolvesAt name k := by
          refine ⟨by rw [hmarked]; rfl, fun m hm => ?_⟩
          rw [Table.at?_markUsed hk, if_neg (fun h => Nat.ne_of_lt hm h.1), hk.first m hm]
        rw [hk'.resolve?_eq, hmarked]
      have hinit : y.markUsed.isInitialized = true := by
        cases y <;> exact hy
      simp only [checkStep, checkUse, hresolve, hy, if_true,
        Table.store_eq_self hresolve' hinit]
    -- without a value the use is refused, and there is no store
    · simp only [checkStep, checkUse, hresolve, hy]
      rfl

/-- Types aside, a request from a tree does to a checker what its event does. -/
theorem untyped_perform {q : Request} (hq : q.isOfTree = true) :
    (c.perform q).2.untyped = q.event?.toList.foldl handle c.untyped := by
  cases q with
  | push | pop => rfl
  | declaration name type initializer line =>
    exact untyped_checkDeclaration name type initializer line
  | parameter p line => exact untyped_declareParameter p line
  | function s defined => exact untyped_declareFunction s defined
  | use name line => exact untyped_checkUse name line
  | assignment name op value line => exact untyped_checkAssignment name op value line
  | step name line => exact untyped_checkStep name line
  | infer e => exact untyped_infer e
  | fresh | combine | assignable | unused => cases hq

/-- Rows of such requests do what their events do, one after the other. -/
theorem untyped_serve {row : List Request} (hrow : ∀ q ∈ row, q.isOfTree = true) :
    (c.serve row).untyped = (eventsOf row).foldl handle c.untyped := by
  induction row generalizing c with
  | nil => rfl
  | cons q more ih =>
    obtain ⟨hq, hmore⟩ := List.forall_mem_cons.mp hrow
    rw [eventsOf_cons, List.foldl_append, ← untyped_perform hq]
    exact ih hmore

end Checker

/-! ### The analysis -/

/-- A piece of the pass over a tree handles the events of its requests, types aside. -/
theorem Analysis.Passes.untyped_eq {a b : Analysis} {row : List Request} {trees : List Node}
    {entries : List Entry} {scopes : List (List Entry)} {reports : List Entry → Log}
    (h : a.Passes b row trees) (hfills : Fills row entries scopes reports) :
    b.toChecker.untyped = (eventsOf row).foldl Checker.handle a.toChecker.untyped := by
  rw [h.served, Checker.untyped_serve hfills.isOfTree]

/-- Apart from types and from what is said at the end about variables that are never read, the
analysis of a program handles its events one by one. -/
theorem untyped_stmts (p : Program) :
    (Analysis.stmts p.body Analysis.initial).toChecker.untyped
      = p.events.foldl Checker.handle Checker.initial := by
  rw [(Analysis.passes_stmts p.body Analysis.initial).untyped_eq (fills_all p.body), p.events_eq]
  rfl

/-- The last request changes nothing in the table, so the table at the end is that of the events. -/
theorem Program.table_analyze (p : Program) :
    p.analyze.table = (p.events.foldl Checker.handle Checker.initial).table := by
  rw [← untyped_stmts p]
  rfl

end Tercet
