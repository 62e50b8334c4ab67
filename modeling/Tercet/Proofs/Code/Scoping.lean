import Tercet.Proofs.Acceptance
import Tercet.Proofs.Code.Simulation

/-!
# `Tercet.Proofs.Code.Scoping`: scopes against one flat store

The analysis resolves a name to its innermost declaration, but a listing has only names, and
puts all variables of one name into one place. This module gives programs a second meaning,
with a frame of variables for each open scope (`Stmt.execIn`), and compares it with what the
listing does. Scopes are opened and closed where the analysis does so: one for each branch and
each loop, shared by its parts, and none for a plain block. A global variable that is declared
without a value has the one from before the program. A nested one has none, and an execution
that reads it has no answer: the listing finds there what an earlier round or an earlier scope
has left.

The two meanings differ where a nested scope declares a name again: `shadowed_value_lost` is
a source that is accepted and leaves another value in a global variable. They agree for all
programs that do not do that (`Program.unshadowed`). Then each name has at most one variable
at a time, and `Agrees` says that the flat store holds its value. `Stmt.simulated_exec` proves
that executions keep this, and `endsIn_lower_of_endsScoped` takes it to the listing.
-/

set_option autoImplicit false

namespace Tercet

variable {V : Type}

/-! ### Frames -/

/-- What a scope has for a name: whether it is declared, and the value it holds. Before the
declaration, that is the value of a variable that is declared without one. -/
structure Place (V : Type) where
  declared : Bool
  value : Option V
deriving DecidableEq, Repr

/-- The places of all names in one scope. -/
abbrev Frame (V : Type) :=
  String → Place V

/-- A nested scope without variables. One that is declared without a value has none. -/
def Frame.empty : Frame V :=
  fun _ => ⟨false, none⟩

/-- The outermost scope without variables. One that is declared without a value has that of the
store. -/
def Frame.ofStore (σ : Store V) : Frame V :=
  fun x => ⟨false, some (σ x)⟩

/-- The frame after a name is declared, with this value if any. -/
def Frame.put (f : Frame V) (x : String) (value : Option V) : Frame V :=
  Function.update f x ⟨true, value⟩

/-- The places of all open scopes, the innermost first. -/
abbrev Frames (V : Type) :=
  List (Frame V)

namespace Frames

/-- The value of a name: that of its innermost declaration. -/
def read (x : String) : Frames V → Option V
  | [] => none
  | f :: fs => if (f x).declared then (f x).value else read x fs

/-- The frames after a value is stored into the innermost declaration of a name. -/
def write (x : String) (v : V) : Frames V → Option (Frames V)
  | [] => none
  | f :: fs =>
    if (f x).declared then some (f.put x (some v) :: fs) else (write x v fs).map (f :: ·)

/-- The frames after a name is declared with a value in the innermost scope. -/
def declare (x : String) (v : V) : Frames V → Frames V
  | [] => []
  | f :: fs => f.put x (some v) :: fs

/-- The frames after a name is declared without a value in the innermost scope. One that is
declared there again, in a later round of a loop, loses its value. -/
def declareBare (x : String) : Frames V → Frames V
  | [] => []
  | f :: fs => f.put x (if (f x).declared then none else (f x).value) :: fs

/-- The frames after a function is announced: its name is taken in the innermost scope. -/
def announce (x : String) : Frames V → Frames V
  | [] => []
  | f :: fs => f.put x (f x).value :: fs

end Frames

/-! ### Execution in scopes -/

/-- Frames and an outcome; nothing where a variable without a value is read, a name is not
declared, or a loop exceeds its bound. -/
abbrev ScopedExecution (V : Type) :=
  Option (Frames V × Outcome V)

namespace ScopedExecution

/-- Goes on from the frames of an execution, unless it has returned. -/
def andThen (x : ScopedExecution V) (next : Frames V → ScopedExecution V) : ScopedExecution V :=
  match x with
  | some (fs, .done) => next fs
  | some (fs, .returns v) => some (fs, .returns v)
  | none => none

/-- Rounds of a loop for as long as its test holds, fewer than `bound` of them. -/
def loop (test : Frames V → Option Bool) (round : Frames V → ScopedExecution V) :
    (bound : Nat) → Frames V → ScopedExecution V
  | 0, _ => none
  | bound + 1, fs =>
    match test fs with
    | some true => (round fs).andThen (loop test round bound)
    | some false => some (fs, .done)
    | none => none

/-- An execution within a scope of its own. -/
def inScope (fs : Frames V) (run : Frames V → ScopedExecution V) : ScopedExecution V :=
  (run (Frame.empty :: fs)).map fun (fs, o) => (fs.tail, o)

end ScopedExecution

open ScopedExecution (inScope)

variable (I : Interpretation V)

mutual

/-- The value of an expression, if all variables in it have one. -/
def Expr.evalIn (fs : Frames V) : Expr → Option V
  | .term t => t.evalIn fs
  | .binary left op right => do
    return I.binary op (← left.evalIn fs) (← right.evalIn fs)

/-- The value of a term. -/
def Term.evalIn (fs : Frames V) : Term → Option V
  | .factor f => f.evalIn fs
  | .binary left op right => do
    return I.binary op (← left.evalIn fs) (← right.evalIn fs)

/-- The value of a factor. -/
def Factor.evalIn (fs : Frames V) : Factor → Option V
  | .number text _ => some (I.number text)
  | .ident name _ => fs.read name
  | .call name arguments _ => (evalArgumentsIn fs arguments).map (I.call name)
  | .group inner _ => inner.evalIn fs

/-- The values of the arguments of a call. -/
def evalArgumentsIn (fs : Frames V) : List Expr → Option (List V)
  | [] => some []
  | e :: es => do
    return (← e.evalIn fs) :: (← evalArgumentsIn fs es)

end

/-- The frames after a value is stored, after joining it to the old one where the operator
says so. -/
def Frames.assign (fs : Frames V) (target : String) (op : AssignOp) (value : V) :
    Option (Frames V) :=
  match op.joined? with
  | none => fs.write target value
  | some binary => (fs.read target).bind fun old => fs.write target (I.binary binary old value)

/-- The frames after a name is declared. -/
def Declarator.execIn (d : Declarator) (fs : Frames V) : Option (Frames V) :=
  match d.initializer with
  | none => some (fs.declareBare d.name)
  | some e => (e.evalIn I fs).map fun v => fs.declare d.name v

/-- The frames after some names are declared. -/
def execDeclaratorsIn : List Declarator → Frames V → Option (Frames V)
  | [], fs => some fs
  | d :: ds, fs => (d.execIn I fs).bind (execDeclaratorsIn ds)

/-- The frames after an assignment. -/
def Assignment.execIn (a : Assignment) (fs : Frames V) : Option (Frames V) :=
  (a.value.evalIn I fs).bind fun v => fs.assign I a.target a.op v

/-- The frames after the start of a counted loop. -/
def ForInit.execIn : Option ForInit → Frames V → Option (Frames V)
  | some (.declaration d), fs => execDeclaratorsIn I d.declarators fs
  | some (.assignment a), fs => a.execIn I fs
  | none, fs => some fs

/-- The frames after what a counted loop does after each round. -/
def ForStep.execIn : Option ForStep → Frames V → Option (Frames V)
  | some (.increment target _), fs => fs.assign I target .add (I.number "1")
  | some (.decrement target _), fs => fs.assign I target .sub (I.number "1")
  | some (.assignment a), fs => a.execIn I fs
  | none, fs => some fs

/-- Whether a condition holds. One that is left out always does. -/
def conditionHoldsIn (condition : Option Expr) (fs : Frames V) : Option Bool :=
  match condition with
  | some e => (e.evalIn I fs).map I.truth
  | none => some true

/-- An execution that is done with its frames. -/
def doneIn (fs : Option (Frames V)) : ScopedExecution V :=
  fs.map (·, .done)

mutual

/-- The execution of a statement in scopes, each loop within `bound` rounds. -/
def Stmt.execIn (bound : Nat) : Stmt → Frames V → ScopedExecution V
  | .block body _, fs => execAllIn bound body fs
  | .declaration d, fs => doneIn (execDeclaratorsIn I d.declarators fs)
  | .assignment a, fs => doneIn (a.execIn I fs)
  | .ifThen condition body _, fs =>
    inScope fs fun fs => (condition.evalIn I fs).bind fun v =>
      if I.truth v then body.execIn bound fs else some (fs, .done)
  | .ifElse condition onTrue onFalse _, fs =>
    inScope fs fun fs => (condition.evalIn I fs).bind fun v =>
      if I.truth v then onTrue.execIn bound fs else onFalse.execIn bound fs
  | .whileLoop condition body _, fs =>
    inScope fs (ScopedExecution.loop (conditionHoldsIn I (some condition)) (body.execIn bound)
      bound)
  | .forLoop init condition step body _, fs =>
    inScope fs fun fs => (ForInit.execIn I init fs).bind
      (ScopedExecution.loop (conditionHoldsIn I condition)
        (fun fs => (body.execIn bound fs).andThen fun fs => doneIn (ForStep.execIn I step fs))
        bound)
  | .function _ _ _, fs => some (fs, .done)
  | .prototype signature, fs => some (fs.announce signature.name, .done)
  | .result none _, fs => some (fs, .returns none)
  | .result (some e) _, fs => (e.evalIn I fs).map fun v => (fs, .returns (some v))

/-- The execution of a row of statements in scopes. -/
def execAllIn (bound : Nat) : List Stmt → Frames V → ScopedExecution V
  | [], fs => some (fs, .done)
  | s :: more, fs => (s.execIn bound fs).andThen (execAllIn bound more)

end

/-- In scopes, the program ends with these global variables and this outcome, if those that are
declared without a value have that of the store. -/
def Program.EndsScoped (p : Program) (σ : Store V) (globals : Frame V) (o : Outcome V) : Prop :=
  ∃ bound, execAllIn I bound p.body [Frame.ofStore σ] = some ([globals], o)

/-- Whether a program ends within a bound, with this outcome and with such global variables. -/
def Program.scopedResult [DecidableEq V] (p : Program) (bound : Nat) (σ : Store V)
    (o : Outcome V) (test : Frame V → Bool) : Bool :=
  match execAllIn I bound p.body [Frame.ofStore σ] with
  | some ([globals], o') => o' = o && test globals
  | _ => false

/-- The result of an execution can be computed, and so there are such global variables. -/
theorem exists_endsScoped {I : Interpretation V} [DecidableEq V] {p : Program} {bound : Nat}
    {σ : Store V} {o : Outcome V} {test : Frame V → Bool}
    (h : p.scopedResult I bound σ o test = true) :
    ∃ globals, p.EndsScoped I σ globals o ∧ test globals = true := by
  unfold Program.scopedResult at h
  split at h
  case h_1 globals o' heq =>
    rw [Bool.and_eq_true, decide_eq_true_eq] at h
    exact ⟨globals, ⟨bound, h.1 ▸ heq⟩, h.2⟩
  case h_2 => cases h

/-! ### Programs that declare no visible name again -/

/-- The names that the start of a counted loop declares. -/
def ForInit.declaredNames : Option ForInit → List String
  | some (.declaration d) => d.declarators.map Declarator.name
  | some (.assignment _) | none => []

mutual

/-- The names that a statement declares in the scope in which it stands. -/
def Stmt.declaredNames : Stmt → List String
  | .block body _ => declaredNamesAll body
  | .declaration d => d.declarators.map Declarator.name
  | .prototype signature => [signature.name]
  | .assignment _ | .ifThen _ _ _ | .ifElse _ _ _ _ | .whileLoop _ _ _ | .forLoop _ _ _ _ _
  | .function _ _ _ | .result _ _ => []

/-- The names that a row of statements declares in the scope in which it stands. -/
def declaredNamesAll : List Stmt → List String
  | [] => []
  | s :: more => s.declaredNames ++ declaredNamesAll more

end

/-- The names that a statement declares in the scope that it opens. -/
def Stmt.innerNames : Stmt → List String
  | .ifThen _ body _ | .whileLoop _ body _ => body.declaredNames
  | .ifElse _ onTrue onFalse _ => onTrue.declaredNames ++ onFalse.declaredNames
  | .forLoop init _ _ body _ => ForInit.declaredNames init ++ body.declaredNames
  | .block _ _ | .declaration _ | .assignment _ | .function _ _ _ | .prototype _
  | .result _ _ => []

mutual

/-- Whether no scope within a statement declares a name that is declared around it. -/
def Stmt.unshadowed (visible : List String) : Stmt → Bool
  | .block body _ => unshadowedAll visible body
  | .ifThen condition body line =>
    let inner := (Stmt.ifThen condition body line).innerNames
    inner.all (· ∉ visible) && body.unshadowed (inner ++ visible)
  | .ifElse condition onTrue onFalse line =>
    let inner := (Stmt.ifElse condition onTrue onFalse line).innerNames
    inner.all (· ∉ visible) &&
      (onTrue.unshadowed (inner ++ visible) && onFalse.unshadowed (inner ++ visible))
  | .whileLoop condition body line =>
    let inner := (Stmt.whileLoop condition body line).innerNames
    inner.all (· ∉ visible) && body.unshadowed (inner ++ visible)
  | .forLoop init condition step body line =>
    let inner := (Stmt.forLoop init condition step body line).innerNames
    inner.all (· ∉ visible) && body.unshadowed (inner ++ visible)
  | .declaration _ | .assignment _ | .function _ _ _ | .prototype _ | .result _ _ => true

/-- Whether no scope within a row of statements declares a name that is declared around it. -/
def unshadowedAll (visible : List String) : List Stmt → Bool
  | [] => true
  | s :: more => s.unshadowed visible && unshadowedAll visible more

end

/-- Whether no scope of a program declares a name that is declared around it. -/
def Program.unshadowed (p : Program) : Bool :=
  unshadowedAll (declaredNamesAll p.body) p.body

/-! ### Frames and a flat store -/

/-- The variables of a frame are among its names, and the flat store holds the values of those
names. -/
structure Frame.Fits (σ : Store V) (f : Frame V) (names : List String) : Prop where
  within : ∀ x, (f x).declared = true → x ∈ names
  value : ∀ x ∈ names, ∀ v, (f x).value = some v → σ x = v

namespace Frame.Fits

variable {σ : Store V} {f : Frame V} {names : List String} {x : String} {v : V}

/-- The store changes for another scope. -/
theorem update_of_notMem (h : f.Fits σ names) (hx : x ∉ names) (v : V) :
    f.Fits (Function.update σ x v) names := by
  refine ⟨h.within, fun y hy w hw => ?_⟩
  rw [Function.update_of_ne (ne_of_mem_of_not_mem hy hx)]
  exact h.value y hy w hw

/-- A name is declared, with the value that the store has for it, if any. -/
theorem put {σ' : Store V} (h : f.Fits σ names) (hx : x ∈ names) {value : Option V}
    (hvalue : ∀ v, value = some v → σ' x = v) (hother : ∀ y, y ≠ x → σ' y = σ y) :
    (f.put x value).Fits σ' names := by
  refine ⟨fun y hy => ?_, fun y hy w hw => ?_⟩ <;> by_cases hyx : y = x
  · rw [hyx]
    exact hx
  · rw [Frame.put, Function.update_of_ne hyx] at hy
    exact h.within y hy
  · subst hyx
    rw [Frame.put, Function.update_self] at hw
    exact hvalue w hw
  · rw [Frame.put, Function.update_of_ne hyx] at hw
    rw [hother y hyx]
    exact h.value y hy w hw

end Frame.Fits

/-- The flat store fits the frames of all scopes with these names. -/
def Agrees (scopes : List (List String)) (fs : Frames V) (σ : Store V) : Prop :=
  List.Forall₂ (Frame.Fits σ) fs scopes

namespace Agrees

variable {here : List String} {scopes : List (List String)} {fs fs' : Frames V} {σ : Store V}
  {x : String} {v : V}

/-- What is read in scopes is what the flat store has, since the innermost declaration is the only
one of the name. -/
theorem read_eq (h : Agrees scopes fs σ) (hread : fs.read x = some v) : σ x = v := by
  induction h with
  | nil => cases hread
  | @cons f names _ _ hf _ ih =>
      rw [Frames.read] at hread
      split at hread
      -- the scope has the name, and its values are those of the store
      · exact hf.value x (hf.within x (by assumption)) v hread
      · exact ih hread

/-- A name of none of the scopes may have any value. -/
theorem update_of_notMem (h : Agrees scopes fs σ) (hx : ∀ names ∈ scopes, x ∉ names) (v : V) :
    Agrees scopes fs (Function.update σ x v) := by
  induction h with
  | nil => exact .nil
  | cons hf _ ih =>
      rw [List.forall_mem_cons] at hx
      exact .cons (hf.update_of_notMem hx.1 v) (ih hx.2)

/-- A value is stored into a variable of the innermost scope. -/
theorem put {f : Frame V} (h : Agrees (here :: scopes) (f :: fs) σ)
    (hdisjoint : (here :: scopes).Pairwise List.Disjoint) (hx : x ∈ here) (v : V) :
    Agrees (here :: scopes) (f.put x (some v) :: fs) (Function.update σ x v) := by
  obtain ⟨hf, hrest⟩ := List.forall₂_cons.mp h
  have hvalue : ∀ w, some v = some w → Function.update σ x v x = w := by
    rintro w ⟨⟩
    exact Function.update_self x v σ
  exact .cons (hf.put hx hvalue fun y hyx => Function.update_of_ne hyx v σ)
    (update_of_notMem hrest
      (fun names hnames hmem => (List.pairwise_cons.mp hdisjoint).1 names hnames hx hmem) v)

/-- Only a declared name can be written. -/
theorem exists_mem_of_write (h : Agrees scopes fs σ) (hwrite : fs.write x v = some fs') :
    ∃ names ∈ scopes, x ∈ names := by
  induction h generalizing fs' with
  | nil => cases hwrite
  | @cons f names fs scopes hf _ ih =>
      rw [Frames.write] at hwrite
      split at hwrite
      case isTrue hx => exact ⟨names, List.mem_cons_self, hf.within x hx⟩
      case isFalse =>
        obtain ⟨rest, hwritten, _⟩ := Option.map_eq_some_iff.mp hwrite
        obtain ⟨outer, houter, hmem⟩ := ih hwritten
        exact ⟨outer, List.mem_cons_of_mem _ houter, hmem⟩

/-- A value is stored into the innermost variable of a name. -/
theorem write (h : Agrees scopes fs σ) (hdisjoint : scopes.Pairwise List.Disjoint)
    (hwrite : fs.write x v = some fs') : Agrees scopes fs' (Function.update σ x v) := by
  induction h generalizing fs' with
  | nil => cases hwrite
  | @cons f names fs scopes hf hrest ih =>
      rw [Frames.write] at hwrite
      split at hwrite
      case isTrue hx =>
        rw [← Option.some.inj hwrite]
        exact put (.cons hf hrest) hdisjoint (hf.within x hx) v
      case isFalse =>
        obtain ⟨rest, hwritten, rfl⟩ := Option.map_eq_some_iff.mp hwrite
        obtain ⟨hhere, hothers⟩ := List.pairwise_cons.mp hdisjoint
        -- the name is one of an outer scope, so this one does not have it
        obtain ⟨outer, houter, hmem⟩ := exists_mem_of_write hrest hwritten
        exact .cons (hf.update_of_notMem (fun hmem' => hhere outer houter hmem' hmem) v)
          (ih hothers hwritten)

/-- A name is declared with a value. -/
theorem declare (h : Agrees (here :: scopes) fs σ)
    (hdisjoint : (here :: scopes).Pairwise List.Disjoint) (hx : x ∈ here) (v : V) :
    Agrees (here :: scopes) (fs.declare x v) (Function.update σ x v) := by
  obtain ⟨f, rest, _, _, rfl⟩ := List.forall₂_cons_right_iff.mp h
  exact h.put hdisjoint hx v

/-- A name is declared without a value. -/
theorem declareBare (h : Agrees (here :: scopes) fs σ) (hx : x ∈ here) :
    Agrees (here :: scopes) (fs.declareBare x) σ := by
  obtain ⟨f, rest, hf, hrest, rfl⟩ := List.forall₂_cons_right_iff.mp h
  refine .cons (hf.put hx (fun v hv => ?_) fun _ _ => rfl) hrest
  split at hv
  · cases hv
  · exact hf.value x hx v hv

/-- A function that is announced takes a name and has no value. -/
theorem announce (h : Agrees (here :: scopes) fs σ) (hx : x ∈ here) :
    Agrees (here :: scopes) (fs.announce x) σ := by
  obtain ⟨f, rest, hf, hrest, rfl⟩ := List.forall₂_cons_right_iff.mp h
  exact .cons (hf.put hx (hf.value x hx) fun _ _ => rfl) hrest

/-- A new scope has no values that could differ. -/
theorem push (h : Agrees scopes fs σ) (names : List String) :
    Agrees (names :: scopes) (Frame.empty :: fs) σ :=
  .cons ⟨fun _ hx => (Bool.false_ne_true hx).elim, fun _ _ _ hx => by cases hx⟩ h

/-- What a closed scope has left in the store is not looked at any more. -/
theorem pop (h : Agrees (here :: scopes) fs σ) : Agrees scopes fs.tail σ := by
  obtain ⟨f, rest, _, hrest, rfl⟩ := List.forall₂_cons_right_iff.mp h
  exact hrest

/-- The outermost scope before anything is declared. -/
theorem ofStore (names : List String) (σ : Store V) : Agrees [names] [Frame.ofStore σ] σ :=
  .cons ⟨fun _ hx => (Bool.false_ne_true hx).elim, fun _ _ _ hv => Option.some.inj hv⟩ .nil

end Agrees

/-! ### Executions that agree -/

variable {I}

mutual

/-- Where an expression has a value in scopes, it has the same one with a flat store. The other
way round it need not: a variable without a value stops the first and not the second. -/
theorem Expr.eval_of_evalIn {e : Expr} {scopes : List (List String)} {fs : Frames V}
    {σ : Store V} (h : Agrees scopes fs σ) {v : V} (he : e.evalIn I fs = some v) :
    e.eval I σ = v := by
  match e with
  | .term t => exact t.eval_of_evalIn h he
  | .binary left op right =>
    obtain ⟨a, ha, he⟩ := Option.bind_eq_some_iff.mp he
    obtain ⟨b, hb, he⟩ := Option.bind_eq_some_iff.mp he
    rw [Expr.eval, left.eval_of_evalIn h ha, right.eval_of_evalIn h hb]
    exact Option.some.inj he

/-- So it is for a term. -/
theorem Term.eval_of_evalIn {t : Term} {scopes : List (List String)} {fs : Frames V}
    {σ : Store V} (h : Agrees scopes fs σ) {v : V} (ht : t.evalIn I fs = some v) :
    t.eval I σ = v := by
  match t with
  | .factor f => exact f.eval_of_evalIn h ht
  | .binary left op right =>
    obtain ⟨a, ha, ht⟩ := Option.bind_eq_some_iff.mp ht
    obtain ⟨b, hb, ht⟩ := Option.bind_eq_some_iff.mp ht
    rw [Term.eval, left.eval_of_evalIn h ha, right.eval_of_evalIn h hb]
    exact Option.some.inj ht

/-- So it is for a factor, whose name is the only thing that is read. -/
theorem Factor.eval_of_evalIn {f : Factor} {scopes : List (List String)} {fs : Frames V}
    {σ : Store V} (h : Agrees scopes fs σ) {v : V} (hf : f.evalIn I fs = some v) :
    f.eval I σ = v := by
  match f with
  | .number text _ => exact Option.some.inj hf
  | .ident name _ => exact h.read_eq hf
  | .group inner _ => exact inner.eval_of_evalIn h hf
  | .call name arguments _ =>
    obtain ⟨vs, hvs, rfl⟩ := Option.map_eq_some_iff.mp hf
    rw [Factor.eval, evalArguments_of_evalArgumentsIn h hvs]

/-- So it is for the arguments of a call, one after the other. -/
theorem evalArguments_of_evalArgumentsIn {es : List Expr} {scopes : List (List String)}
    {fs : Frames V} {σ : Store V} (h : Agrees scopes fs σ) {vs : List V}
    (hes : evalArgumentsIn I fs es = some vs) : evalArguments I σ es = vs := by
  match es with
  | [] => exact Option.some.inj hes
  | e :: es =>
    obtain ⟨v, hv, hes⟩ := Option.bind_eq_some_iff.mp hes
    obtain ⟨ws, hws, hes⟩ := Option.bind_eq_some_iff.mp hes
    rw [evalArguments, e.eval_of_evalIn h hv, evalArguments_of_evalArgumentsIn h hws]
    exact Option.some.inj hes

end

section Parts

variable {here : List String} {scopes : List (List String)} {fs fs' : Frames V} {σ : Store V}

/-- A store that joins reads the old value first, which is there and the same on both sides. -/
theorem Agrees.assign (h : Agrees scopes fs σ) (hdisjoint : scopes.Pairwise List.Disjoint)
    {target : String} {op : AssignOp} {v : V} (hassign : fs.assign I target op v = some fs') :
    Agrees scopes fs' (σ.assign I target op v) := by
  cases hop : op.joined? with
  | none =>
      simp only [Frames.assign, Store.assign, hop] at hassign ⊢
      exact h.write hdisjoint hassign
  | some binary =>
      simp only [Frames.assign, Store.assign, hop] at hassign ⊢
      obtain ⟨old, hold, hwrite⟩ := Option.bind_eq_some_iff.mp hassign
      rw [h.read_eq hold]
      exact h.write hdisjoint hwrite

/-- The value is computed before the store. -/
theorem Assignment.agrees_exec {a : Assignment} (h : Agrees scopes fs σ)
    (hdisjoint : scopes.Pairwise List.Disjoint) (hexec : a.execIn I fs = some fs') :
    Agrees scopes fs' (a.exec I σ) := by
  obtain ⟨v, hv, hassign⟩ := Option.bind_eq_some_iff.mp hexec
  rw [Assignment.exec, a.value.eval_of_evalIn h hv]
  exact h.assign hdisjoint hassign

/-- Without an initializer a variable loses its value in scopes and keeps one in the flat store,
which does not contradict it. -/
theorem Declarator.agrees_exec {d : Declarator} (h : Agrees (here :: scopes) fs σ)
    (hdisjoint : (here :: scopes).Pairwise List.Disjoint) (hname : d.name ∈ here)
    (hexec : d.execIn I fs = some fs') : Agrees (here :: scopes) fs' (d.exec I σ) := by
  obtain ⟨name, _ | e⟩ := d
  · rw [← Option.some.inj hexec]
    exact h.declareBare hname
  · obtain ⟨v, hv, rfl⟩ := Option.map_eq_some_iff.mp hexec
    simp only [Declarator.exec, e.eval_of_evalIn h hv]
    exact h.declare hdisjoint hname v

/-- The names of a declaration, by induction on them. -/
theorem agrees_execDeclarators {ds : List Declarator} (h : Agrees (here :: scopes) fs σ)
    (hdisjoint : (here :: scopes).Pairwise List.Disjoint)
    (hnames : ∀ x ∈ ds.map Declarator.name, x ∈ here)
    (hexec : execDeclaratorsIn I ds fs = some fs') :
    Agrees (here :: scopes) fs' (ds.foldl (fun σ d => d.exec I σ) σ) := by
  induction ds generalizing fs σ with
  | nil =>
      rw [← Option.some.inj hexec]
      exact h
  | cons d ds ih =>
      rw [List.map_cons, List.forall_mem_cons] at hnames
      obtain ⟨fs₁, hfirst, hmore⟩ := Option.bind_eq_some_iff.mp hexec
      exact ih (d.agrees_exec h hdisjoint hnames.1 hfirst) hnames.2 hmore

/-- The start of a loop declares into the scope of the loop. -/
theorem ForInit.agrees_exec {init : Option ForInit} (h : Agrees (here :: scopes) fs σ)
    (hdisjoint : (here :: scopes).Pairwise List.Disjoint)
    (hnames : ∀ x ∈ ForInit.declaredNames init, x ∈ here)
    (hexec : ForInit.execIn I init fs = some fs') :
    Agrees (here :: scopes) fs' (ForInit.exec I init σ) := by
  match init with
  | some (.declaration d) => exact agrees_execDeclarators h hdisjoint hnames hexec
  | some (.assignment a) => exact a.agrees_exec h hdisjoint hexec
  | none =>
    rw [← Option.some.inj hexec]
    exact h

/-- The step of a loop stores into whatever scope has the name. -/
theorem ForStep.agrees_exec {step : Option ForStep} (h : Agrees scopes fs σ)
    (hdisjoint : scopes.Pairwise List.Disjoint) (hexec : ForStep.execIn I step fs = some fs') :
    Agrees scopes fs' (ForStep.exec I step σ) := by
  match step with
  | some (.increment target _) =>
    show Agrees scopes fs' (σ.assign I target .add (I.number "1"))
    exact h.assign hdisjoint hexec
  | some (.decrement target _) =>
    show Agrees scopes fs' (σ.assign I target .sub (I.number "1"))
    exact h.assign hdisjoint hexec
  | some (.assignment a) => exact a.agrees_exec h hdisjoint hexec
  | none =>
    rw [← Option.some.inj hexec]
    exact h

/-- A condition that can be decided in scopes is decided in the same way. One that is left out
holds. -/
theorem conditionHolds_of_conditionHoldsIn {condition : Option Expr} (h : Agrees scopes fs σ)
    {b : Bool} (hcond : conditionHoldsIn I condition fs = some b) :
    conditionHolds I condition σ = b := by
  match condition with
  | some e =>
    obtain ⟨v, hv, rfl⟩ := Option.map_eq_some_iff.mp hcond
    rw [conditionHolds, e.eval_of_evalIn h hv]
  | none => exact Option.some.inj hcond

end Parts

/-- Where the execution in scopes ends, so does the one with a flat store: with the same
outcome, and in a store that agrees. -/
def Simulated (scopes : List (List String)) (x : ScopedExecution V) (y : Execution V) : Prop :=
  ∀ ⦃fs : Frames V⦄ ⦃o : Outcome V⦄, x = some (fs, o) → ∃ σ, y = some (σ, o) ∧ Agrees scopes fs σ

namespace Simulated

variable {scopes : List (List String)} {fs : Frames V} {σ : Store V}

/-- Frames and a store that agree, with one outcome. -/
theorem of_agrees (h : Agrees scopes fs σ) (o : Outcome V) :
    Simulated scopes (some (fs, o)) (some (σ, o)) := by
  intro fs' o' heq
  cases heq
  exact ⟨σ, rfl, h⟩

/-- An execution in scopes that has no end promises nothing. -/
theorem none (scopes : List (List String)) (y : Execution V) : Simulated scopes none y := by
  intro fs o heq
  cases heq

/-- A step that is done or has no end. -/
theorem doneIn {next : Option (Frames V)} {σ : Store V}
    (h : ∀ fs, next = some fs → Agrees scopes fs σ) :
    Simulated scopes (doneIn next) (some (σ, .done)) := by
  cases next with
  | none => exact .none scopes _
  | some fs => exact of_agrees (h fs rfl) .done

/-- Both executions go on, or both have returned. -/
theorem andThen {x : ScopedExecution V} {y : Execution V} {next : Frames V → ScopedExecution V}
    {next' : Store V → Execution V} (h : Simulated scopes x y)
    (hnext : ∀ fs σ, Agrees scopes fs σ → Simulated scopes (next fs) (next' σ)) :
    Simulated scopes (x.andThen next) (y.andThen next') := by
  match x with
  | some (fs, .done) =>
    obtain ⟨σ, rfl, hagrees⟩ := h rfl
    exact hnext fs σ hagrees
  | some (fs, .returns v) =>
    obtain ⟨σ, rfl, hagrees⟩ := h rfl
    exact of_agrees hagrees _
  | .none => exact .none scopes _

/-- Loops go round together. The induction is on the bound, which is the same on both sides. -/
theorem loop {test : Frames V → Option Bool} {test' : Store V → Bool}
    {round : Frames V → ScopedExecution V} {round' : Store V → Execution V}
    (htest : ∀ fs σ b, Agrees scopes fs σ → test fs = some b → test' σ = b)
    (hround : ∀ fs σ, Agrees scopes fs σ → Simulated scopes (round fs) (round' σ)) (bound : Nat)
    {fs : Frames V} {σ : Store V} (h : Agrees scopes fs σ) :
    Simulated scopes (ScopedExecution.loop test round bound fs)
      (Execution.loop test' round' bound σ) := by
  induction bound generalizing fs σ with
  | zero => exact .none scopes _
  | succ bound ih =>
      cases hfs : test fs with
      -- the test reads a variable without a value
      | none =>
          simp only [ScopedExecution.loop, hfs]
          exact .none scopes _
      | some b =>
          have hσ := htest fs σ b h hfs
          cases b with
          | true =>
              simp only [ScopedExecution.loop, Execution.loop, hfs, hσ, if_true]
              exact (hround fs σ h).andThen fun fs σ h => ih h
          | false =>
              simp only [ScopedExecution.loop, Execution.loop, hfs, hσ]
              exact of_agrees h .done

/-- An execution in a scope of its own, which may use the names `inner`. -/
theorem inScope {run : Frames V → ScopedExecution V} {y : Execution V} {inner : List String}
    (h : Simulated (inner :: scopes) (run (Frame.empty :: fs)) y) :
    Simulated scopes (inScope fs run) y := by
  intro fs' o heq
  obtain ⟨⟨fs₁, o₁⟩, hrun, heq⟩ := Option.map_eq_some_iff.mp heq
  cases heq
  obtain ⟨σ, rfl, hagrees⟩ := h hrun
  exact ⟨σ, rfl, hagrees.pop⟩

/-- Both executions take the same side of a branch. -/
theorem branch {e : Expr} (h : Agrees scopes fs σ) {x x' : ScopedExecution V}
    {y y' : Execution V} (htrue : Simulated scopes x y) (hfalse : Simulated scopes x' y') :
    Simulated scopes ((e.evalIn I fs).bind fun v => if I.truth v then x else x')
      (if I.truth (e.eval I σ) then y else y') := by
  cases he : e.evalIn I fs with
  | none => exact .none scopes _
  | some v =>
      rw [e.eval_of_evalIn h he, Option.bind_some]
      by_cases hv : I.truth v = true
      · simp only [hv, if_true]
        exact htrue
      · simp only [hv]
        exact hfalse

end Simulated

/-- A new scope that declares no visible name is apart from all others. -/
theorem pairwise_disjoint_cons {inner : List String} {scopes : List (List String)}
    (hinner : inner.all (· ∉ scopes.flatten) = true)
    (hdisjoint : scopes.Pairwise List.Disjoint) : (inner :: scopes).Pairwise List.Disjoint := by
  refine List.pairwise_cons.mpr ⟨fun names hnames x hx hmem => ?_, hdisjoint⟩
  have hnot := List.all_eq_true.mp hinner x hx
  rw [decide_eq_true_eq] at hnot
  exact hnot (List.mem_flatten.mpr ⟨names, hnames, hmem⟩)

mutual

/-- A statement that declares no visible name again does the same in scopes and with a flat
store. -/
theorem Stmt.simulated_exec {s : Stmt} {here : List String} {scopes : List (List String)}
    (hdisjoint : (here :: scopes).Pairwise List.Disjoint)
    (hdeclared : ∀ x ∈ s.declaredNames, x ∈ here)
    (hun : s.unshadowed (here :: scopes).flatten = true) (bound : Nat) {fs : Frames V}
    {σ : Store V} (h : Agrees (here :: scopes) fs σ) :
    Simulated (here :: scopes) (s.execIn I bound fs) (s.exec I bound σ) := by
  match s with
  | .block body _ => exact simulated_execAll hdisjoint hdeclared hun bound h
  | .declaration d =>
    exact .doneIn fun _ hexec => agrees_execDeclarators h hdisjoint hdeclared hexec
  | .assignment a => exact .doneIn fun _ hexec => a.agrees_exec h hdisjoint hexec
  -- the body may be a plain statement, but its declarations are in a scope of its own
  | .ifThen condition body _ =>
    obtain ⟨hinner, hbody⟩ := Bool.and_eq_true_iff.mp hun
    have hinside := h.push body.declaredNames
    exact .inScope (.branch hinside
      (body.simulated_exec (pairwise_disjoint_cons hinner hdisjoint) (fun _ hx => hx) hbody bound
        hinside) (.of_agrees hinside .done))
  | .ifElse condition onTrue onFalse _ =>
    -- both sides are in one scope, though only one of them is executed
    obtain ⟨hinner, hsides⟩ := Bool.and_eq_true_iff.mp hun
    obtain ⟨htrue, hfalse⟩ := Bool.and_eq_true_iff.mp hsides
    have hapart := pairwise_disjoint_cons hinner hdisjoint
    have hinside := h.push (onTrue.declaredNames ++ onFalse.declaredNames)
    exact .inScope (.branch hinside
      (onTrue.simulated_exec hapart (fun _ hx => List.mem_append_left _ hx) htrue bound hinside)
      (onFalse.simulated_exec hapart (fun _ hx => List.mem_append_right _ hx) hfalse bound
        hinside))
  | .whileLoop condition body _ =>
    obtain ⟨hinner, hbody⟩ := Bool.and_eq_true_iff.mp hun
    have hapart := pairwise_disjoint_cons hinner hdisjoint
    exact .inScope (.loop
      (fun _ _ _ h hb =>
        show conditionHolds I (some condition) _ = _ from conditionHolds_of_conditionHoldsIn h hb)
      (fun fs σ h => body.simulated_exec hapart (fun _ hx => hx) hbody bound h) bound
      (h.push body.declaredNames))
  | .forLoop init condition step body _ =>
    obtain ⟨hinner, hbody⟩ := Bool.and_eq_true_iff.mp hun
    have hapart := pairwise_disjoint_cons hinner hdisjoint
    -- one scope for the start, all rounds and all steps
    refine .inScope (?_ : Simulated ((ForInit.declaredNames init ++ body.declaredNames) :: _) _ _)
    cases hinit : ForInit.execIn I init (Frame.empty :: fs) with
    | none => exact .none _ _
    | some fs₁ =>
        rw [Option.bind_some]
        refine .loop (fun fs σ b h hb => conditionHolds_of_conditionHoldsIn h hb)
          (fun fs σ h => ?_) bound
          (ForInit.agrees_exec (h.push _) hapart (fun _ hx => List.mem_append_left _ hx) hinit)
        exact (body.simulated_exec hapart (fun _ hx => List.mem_append_right _ hx) hbody bound
          h).andThen fun fs σ h => .doneIn fun _ hexec => ForStep.agrees_exec h hapart hexec
  -- a function is no step of an execution, on either side
  | .function _ _ _ => exact .of_agrees h .done
  | .prototype signature =>
    exact .of_agrees (h.announce (hdeclared _ List.mem_cons_self)) .done
  | .result none _ => exact .of_agrees h _
  | .result (some e) _ =>
    intro fs' o heq
    obtain ⟨v, hv, heq⟩ := Option.map_eq_some_iff.mp heq
    cases heq
    refine ⟨σ, ?_, h⟩
    rw [Stmt.exec, Option.map_some, e.eval_of_evalIn h hv]

/-- `Stmt.simulated_exec` for a row of statements. -/
theorem simulated_execAll {row : List Stmt} {here : List String} {scopes : List (List String)}
    (hdisjoint : (here :: scopes).Pairwise List.Disjoint)
    (hdeclared : ∀ x ∈ declaredNamesAll row, x ∈ here)
    (hun : unshadowedAll (here :: scopes).flatten row = true) (bound : Nat) {fs : Frames V}
    {σ : Store V} (h : Agrees (here :: scopes) fs σ) :
    Simulated (here :: scopes) (execAllIn I bound row fs) (execAll I bound row σ) := by
  match row with
  | [] => exact .of_agrees h .done
  | s :: more =>
    obtain ⟨hfirst, hmore⟩ := Bool.and_eq_true_iff.mp hun
    rw [declaredNamesAll, List.forall_mem_append] at hdeclared
    exact (s.simulated_exec hdisjoint hdeclared.1 hfirst bound h).andThen fun fs σ h =>
      simulated_execAll hdisjoint hdeclared.2 hmore bound h

end

/-! ### Accepted sources -/

/-- Declared names stand in the declaration. -/
theorem Declaration.notMem_names_of_lack {d : Declaration} {x : String}
    (h : Slot.Lack x d.slots) : x ∉ d.declarators.map Declarator.name := by
  intro hx
  obtain ⟨d', hd', rfl⟩ := List.mem_map.mp hx
  have hword : Slot.word d'.name ∈ d'.slots := by
    unfold Declarator.slots
    split <;> exact List.mem_cons_self
  exact h _ (List.mem_cons_of_mem _ (Slot.mem_separated (List.mem_map_of_mem hd') hword)) rfl rfl

mutual

/-- A name that does not stand in a statement is not declared by it. Only blocks and declarations
declare into the scope around them, and prototypes do. -/
theorem Stmt.notMem_declaredNames_of_lack {s : Stmt} {x : String} (h : Slot.Lack x s.slots) :
    x ∉ s.declaredNames := by
  match s with
  | .block body _ =>
    exact notMem_declaredNamesAll_of_lack fun t ht =>
      h t (List.mem_cons_of_mem _ (List.mem_append_left _ ht))
  | .declaration d => exact d.notMem_names_of_lack fun t ht => h t (List.mem_append_left _ ht)
  | .prototype signature =>
    intro hx
    rw [List.mem_singleton.mp hx] at h
    exact h (Slot.word signature.name) (by simp [Stmt.slots, Signature.slots]) rfl rfl
  | .assignment _ | .ifThen _ _ _ | .ifElse _ _ _ _ | .whileLoop _ _ _ | .forLoop _ _ _ _ _
  | .function _ _ _ | .result _ _ => exact List.not_mem_nil

/-- A name that does not stand in a row of statements is not declared by it. -/
theorem notMem_declaredNamesAll_of_lack {row : List Stmt} {x : String}
    (h : Slot.Lack x (rowSlots row)) : x ∉ declaredNamesAll row := by
  match row with
  | [] => exact List.not_mem_nil
  | s :: more =>
    rw [declaredNamesAll, List.mem_append]
    rintro (hx | hx)
    · exact s.notMem_declaredNames_of_lack (fun t ht => h t (List.mem_append_left _ ht)) hx
    · exact notMem_declaredNamesAll_of_lack (fun t ht => h t (List.mem_append_right _ ht)) hx

end

/-- Where an accepted program without functions declares no visible name again, its listing
keeps to the scopes: if the program ends in scopes, the listing stops, with the same outcome,
in a store that has the values of all global variables. -/
theorem endsIn_lower_of_endsScoped (I : Interpretation V) {source : String} {g : Emitter}
    (hcode : (compile source).code = some g)
    (hfun : (compile source).program.functionNames = [])
    (htemps : ∀ s ∈ (compile source).program.slots, s.kind = .identifier →
      ∀ x ∈ s.text, ¬ IsTemporary x)
    (hun : (compile source).program.unshadowed = true) {σ : Store V} {globals : Frame V}
    {o : Outcome V} (hends : (compile source).program.EndsScoped I σ globals o) :
    ∃ τ, Machine.EndsIn I g.instructions σ τ o ∧
      ∀ x, (globals x).declared = true → ∀ v, (globals x).value = some v → τ x = v := by
  obtain ⟨hquiet, rfl⟩ := code_eq_some_iff.mp hcode
  obtain ⟨bound, hscoped⟩ := hends
  have hplain : (compile source).program.Plain := ⟨hfun, admits_of_accepted hquiet, htemps⟩
  -- the program with a flat store
  have hall : unshadowedAll [declaredNamesAll (compile source).program.body].flatten
      (compile source).program.body = true := by
    rw [List.flatten_singleton]
    exact hun
  obtain ⟨σ', hflat, hagrees⟩ := simulated_execAll (List.pairwise_singleton _ _)
    (fun _ hx => hx) hall bound (.ofStore _ σ) hscoped
  obtain ⟨hfits, _⟩ := List.forall₂_cons.mp hagrees
  -- the listing
  have hfollows := hplain.follows_lower (I := I) bound σ
  rw [hflat] at hfollows
  obtain ⟨τ, hτ, hagree⟩ := hfollows.endsIn
  refine ⟨τ, hτ, fun x hx v hv => ?_⟩
  have hdeclared := hfits.within x hx
  -- a global variable is declared somewhere, and no declared name is that of a temporary
  have hnot : ¬ IsTemporary x := fun htemp =>
    notMem_declaredNamesAll_of_lack
      (fun s hs hkind htext => htemps s hs hkind x htext htemp) hdeclared
  rw [agree_zero_iff.mp hagree x hnot]
  exact hfits.value x hdeclared v hv

/-- A global variable without a first value is doubled in a loop with a variable of its own. -/
def doublingSource : String :=
  "int n;\nn = n + 1;\nwhile (n < 5) \x7b\n  int k;\n  k = n * 2;\n  n = k;\n\x7d"

/-- The listing ends with 8 in the global variable. -/
theorem endsIn_lower_doublingSource :
    ∃ g τ, (compile doublingSource).code = some g ∧
      Machine.EndsIn .arithmetic g.instructions (fun _ => 0) τ .done ∧ τ "n" = 8 := by
  have hfacts : (compile doublingSource).log = [] ∧
      (compile doublingSource).program.functionNames = [] ∧
      (∀ s ∈ (compile doublingSource).program.slots, ∀ x ∈ s.text, hasTemporaryForm x = false) ∧
      (compile doublingSource).program.unshadowed = true ∧
      (compile doublingSource).program.scopedResult .arithmetic 4 (fun _ => 0) .done
        (fun globals => globals "n" = ⟨true, some 8⟩) = true := by
    decide +kernel
  obtain ⟨hquiet, hfun, hforms, hun, hresult⟩ := hfacts
  obtain ⟨globals, hends, hn⟩ := exists_endsScoped hresult
  rw [decide_eq_true_eq] at hn
  have hcode := code_eq_some_iff.mpr ⟨hquiet, rfl⟩
  obtain ⟨τ, hτ, hglobals⟩ := endsIn_lower_of_endsScoped .arithmetic hcode hfun
    (fun s hs _ x hx => not_isTemporary (hforms s hs x hx)) hun hends
  exact ⟨_, τ, hcode, hτ, hglobals "n" (by rw [hn]) 8 (by rw [hn])⟩

/-- The branch declares a variable of the same name as the global one. -/
def shadowingSource : String :=
  "int x = 1;\nif (x) \x7b\n  int x = 2;\n  x = x;\n\x7d\nint y = x;\ny = y;"

/-- The listing of an accepted program may store a value of a nested variable into a global
one, and go on with it. -/
theorem shadowed_value_lost :
    ∃ g globals τ, (compile shadowingSource).code = some g ∧
      (compile shadowingSource).program.functionNames = [] ∧
      (∀ s ∈ (compile shadowingSource).program.slots, ∀ x ∈ s.text, ¬ IsTemporary x) ∧
      (compile shadowingSource).program.EndsScoped .arithmetic (fun _ => 0) globals .done ∧
      globals "x" = ⟨true, some 1⟩ ∧ globals "y" = ⟨true, some 1⟩ ∧
      Machine.EndsIn .arithmetic g.instructions (fun _ => 0) τ .done ∧
      τ "x" = 2 ∧ τ "y" = 2 := by
  have hfacts : (compile shadowingSource).log = [] ∧
      (compile shadowingSource).program.functionNames = [] ∧
      (∀ s ∈ (compile shadowingSource).program.slots, ∀ x ∈ s.text, hasTemporaryForm x = false) ∧
      (compile shadowingSource).program.scopedResult .arithmetic 3 (fun _ => 0) .done
        (fun globals => globals "x" = ⟨true, some 1⟩ ∧ globals "y" = ⟨true, some 1⟩) = true ∧
      (Machine.stepN .arithmetic (compile shadowingSource).program.lower.instructions 7
        (Machine.start fun _ => 0)).any (fun c => Machine.outcome? .arithmetic
          (compile shadowingSource).program.lower.instructions c = some .done ∧
          c.store "x" = 2 ∧ c.store "y" = 2) = true := by
    decide +kernel
  obtain ⟨hquiet, hfun, hforms, hresult, hrun⟩ := hfacts
  obtain ⟨globals, hends, hglobals⟩ := exists_endsScoped hresult
  rw [decide_eq_true_eq] at hglobals
  obtain ⟨c, hc, hstops⟩ := (Option.any_eq_true _ _).mp hrun
  obtain ⟨hdone, hx, hy⟩ := of_decide_eq_true hstops
  exact ⟨_, globals, c.store, code_eq_some_iff.mpr ⟨hquiet, rfl⟩, hfun,
    fun s hs x hx => not_isTemporary (hforms s hs x hx), hends, hglobals.1, hglobals.2,
    ⟨7, c, hc, rfl, hdone⟩, hx, hy⟩

end Tercet
