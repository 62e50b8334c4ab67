import Tercet.Compilation
import Tercet.Proofs.Code.Jumps

/-!
# `Tercet.Proofs.Code.Freshness`: when generated names are fresh

Temporaries and labels are named by counters alone. No name is given twice by a counter, but
nothing keeps a source from using the same names: `t0` is a variable and `L0` a function as
good as any other. This module counts what follows from that. A listing puts values into its
temporaries, each once, and into the names into which the source itself stores; and it takes
the values of its temporaries, each once, and of the names and numbers that the source itself
reads (`uses_lower`). So a temporary is unique in a listing exactly if the source neither
stores into nor reads a variable of its name, and a label exactly if no function has its name
(`count_generated_lower`).
-/

set_option autoImplicit false

namespace Tercet

/-! ### The names into which a source stores -/

/-- The names into which a row of declared names stores: those with a first value. -/
def storedByDeclarators (ds : List Declarator) : List String :=
  (ds.filter fun d => d.initializer.isSome).map Declarator.name

/-- The names into which the start of a counted loop stores. -/
def ForInit.storedNames : Option ForInit → List String
  | some (.declaration d) => storedByDeclarators d.declarators
  | some (.assignment a) => [a.target]
  | none => []

/-- The names into which the step of a counted loop stores. -/
def ForStep.storedNames : Option ForStep → List String
  | some (.increment target _) | some (.decrement target _) => [target]
  | some (.assignment a) => [a.target]
  | none => []

mutual

/-- The names into which a statement stores, once for each place. -/
def Stmt.storedNames : Stmt → List String
  | .block body _ | .function _ body _ => storedNamesAll body
  | .declaration d => storedByDeclarators d.declarators
  | .assignment a => [a.target]
  | .ifThen _ body _ | .whileLoop _ body _ => body.storedNames
  | .ifElse _ onTrue onFalse _ => onTrue.storedNames ++ onFalse.storedNames
  | .forLoop init _ step body _ =>
    ForInit.storedNames init ++ (body.storedNames ++ ForStep.storedNames step)
  | .prototype _ | .result _ _ => []

/-- The names into which a row of statements stores. -/
def storedNamesAll : List Stmt → List String
  | [] => []
  | s :: more => s.storedNames ++ storedNamesAll more

end

/-- The names into which a program stores. -/
def Program.storedNames (p : Program) : List String :=
  storedNamesAll p.body

/-! ### The names and numbers that a source reads -/

mutual

/-- The names and numbers in an expression, once for each place. -/
def Expr.readTexts : Expr → List String
  | .term t => t.readTexts
  | .binary left _ right => left.readTexts ++ right.readTexts

/-- The names and numbers in a term. -/
def Term.readTexts : Term → List String
  | .factor f => f.readTexts
  | .binary left _ right => left.readTexts ++ right.readTexts

/-- The names and numbers in a factor. The name of a called function is not read. -/
def Factor.readTexts : Factor → List String
  | .number text _ => [text]
  | .ident name _ => [name]
  | .call _ arguments _ => argumentReadTexts arguments
  | .group inner _ => inner.readTexts

/-- The names and numbers in the arguments of a call. -/
def argumentReadTexts : List Expr → List String
  | [] => []
  | e :: es => e.readTexts ++ argumentReadTexts es

end

/-- What a store reads beside its value: the target, if the value is joined to the old one. -/
def AssignOp.readTexts (op : AssignOp) (target : String) : List String :=
  match op.joined? with
  | none => []
  | some _ => [target]

/-- The names and numbers that an assignment reads. -/
def Assignment.readTexts (a : Assignment) : List String :=
  a.value.readTexts ++ a.op.readTexts a.target

/-- The names and numbers in the first value of a declared name. -/
def Declarator.readTexts (d : Declarator) : List String :=
  match d.initializer with
  | none => []
  | some e => e.readTexts

/-- The names and numbers that the start of a counted loop reads. -/
def ForInit.readTexts : Option ForInit → List String
  | some (.declaration d) => d.declarators.flatMap Declarator.readTexts
  | some (.assignment a) => a.readTexts
  | none => []

/-- The names and numbers that the step of a counted loop reads. -/
def ForStep.readTexts : Option ForStep → List String
  | some (.increment target _) | some (.decrement target _) => ["1", target]
  | some (.assignment a) => a.readTexts
  | none => []

/-- The names and numbers in a condition that may be left out. -/
def conditionReadTexts : Option Expr → List String
  | some e => e.readTexts
  | none => []

mutual

/-- The names and numbers that a statement reads, once for each place. -/
def Stmt.readTexts : Stmt → List String
  | .block body _ | .function _ body _ => readTextsAll body
  | .declaration d => d.declarators.flatMap Declarator.readTexts
  | .assignment a => a.readTexts
  | .ifThen condition body _ | .whileLoop condition body _ =>
    condition.readTexts ++ body.readTexts
  | .ifElse condition onTrue onFalse _ =>
    condition.readTexts ++ (onTrue.readTexts ++ onFalse.readTexts)
  | .forLoop init condition step body _ =>
    ForInit.readTexts init ++
      (conditionReadTexts condition ++ (body.readTexts ++ ForStep.readTexts step))
  | .result value _ => conditionReadTexts value
  | .prototype _ => []

/-- The names and numbers that a row of statements reads. -/
def readTextsAll : List Stmt → List String
  | [] => []
  | s :: more => s.readTexts ++ readTextsAll more

end

/-- The names and numbers that a program reads. -/
def Program.readTexts (p : Program) : List String :=
  readTextsAll p.body

/-! ### What a listing uses -/

/-- The temporaries with `n` numbers from `first` on. -/
def temporaryNames (first n : Nat) : Multiset String :=
  (List.range' first n).map temporary

/-- The temporaries of two runs of numbers, one behind the other, are those of the whole run. -/
theorem temporaryNames_add (first m n : Nat) :
    temporaryNames first (m + n) = temporaryNames first m + temporaryNames (first + m) n := by
  rw [temporaryNames, temporaryNames, temporaryNames, Multiset.coe_add, ← List.map_append,
    List.range'_append_1]

/-- No two numbers have one name, so each temporary is there once. -/
theorem count_temporaryNames {k n : Nat} (hk : k < n) :
    (temporaryNames 0 n).count (temporary k) = 1 := by
  have hinjective : Function.Injective temporary := fun _ _ => temporary_inj.mp
  refine Multiset.count_eq_one_of_mem ?_ ?_
  · rw [temporaryNames, Multiset.coe_nodup]
    exact List.Nodup.map hinjective List.nodup_range'
  · rw [temporaryNames, Multiset.mem_coe, List.mem_map_of_injective hinjective,
      List.mem_range'_1]
    omega

/-- The code uses the `n` temporaries from `t` on. It puts values into them, once each, and into
the names `stored`. It takes the values of them, once each, and of the operands `read`, except
for those in `pending`, which are left to the code after it. -/
structure Uses (code : List Instr) (t n : Nat) (stored read pending : Multiset String) : Prop where
  targets : (targetsOf code : Multiset String) = temporaryNames t n + stored
  operands : (readsOf code : Multiset String) + pending = temporaryNames t n + read

namespace Uses

variable {code code' : List Instr} {t m n : Nat} {a a' r r' p p' q : Multiset String}

/-- What pieces in a row use adds up, and so does what they leave to the code after them. -/
theorem append (h : Uses code t m a r p) (h' : Uses code' (t + m) n a' r' p') :
    Uses (code ++ code') t (m + n) (a + a') (r + r') (p + p') := by
  constructor
  · rw [targetsOf_append, ← Multiset.coe_add, h.targets, h'.targets, temporaryNames_add]
    abel
  · rw [readsOf_append, ← Multiset.coe_add, add_add_add_comm, h.operands, h'.operands,
      temporaryNames_add]
    abel

/-- Counts and names may be written in another form. -/
theorem of_eq (h : Uses code t m a r p) (hmn : m = n) (hstored : a = a') (hread : r = r') :
    Uses code t n a' r' p := by
  subst hmn hstored hread
  exact h

/-- Operands that are both read and pending come from within the code. -/
theorem settle (h : Uses code t m a r p) (hmn : m = n) (hstored : a = a') (hread : r = r' + q)
    (hpending : p = p' + q) : Uses code t n a' r' p' := by
  subst hmn hstored hread hpending
  refine ⟨h.targets, add_right_cancel (b := q) ?_⟩
  rw [add_assoc, add_assoc]
  exact h.operands

/-- Code that neither puts nor takes values. -/
theorem of_idle (t : Nat) (htargets : targetsOf code = []) (hreads : readsOf code = []) :
    Uses code t 0 0 0 0 := by
  constructor
  · rw [htargets]
    rfl
  · rw [hreads]
    rfl

/-- A join puts a value into the next temporary and leaves it to the code after it. -/
theorem binary (t : Nat) (left : String) (op : BinaryOp) (right : String) :
    Uses [.binary (temporary t) left op right] t 1 0 ({left} + {right}) {temporary t} :=
  ⟨rfl, add_comm _ _⟩

/-- A call does so too. Its operands have been handed over before. -/
theorem call (t : Nat) (function : String) :
    Uses [.call (temporary t) function] t 1 0 0 {temporary t} :=
  ⟨rfl, rfl⟩

/-- A copy uses no temporary of its own. -/
theorem copy (t : Nat) (target value : String) : Uses [.copy target value] t 0 {target} {value} 0 :=
  ⟨rfl, rfl⟩

/-- A test takes its operand. -/
theorem ifNotGoto (t : Nat) (condition label : String) :
    Uses [.ifNotGoto condition label] t 0 0 {condition} 0 :=
  ⟨rfl, rfl⟩

/-- Operands are taken as they are handed over. -/
theorem params (values : List String) (t : Nat) : Uses (values.map .param) t 0 0 values 0 := by
  have htargets : targetsOf (values.map .param) = [] := by
    rw [targetsOf, List.filterMap_map, List.filterMap_eq_nil_iff]
    exact fun _ _ => rfl
  have hreads : readsOf (values.map .param) = values := by
    rw [readsOf, List.flatMap_map]
    exact List.flatMap_singleton' values
  constructor
  · rw [htargets]
    rfl
  · rw [hreads, add_zero]
    exact (zero_add _).symm

/-- Two values are joined. -/
theorem join {left right : List Instr} {x y : String} (h : Uses left t m 0 r {x})
    (h' : Uses right (t + m) n 0 r' {y}) (op : BinaryOp) :
    Uses (left ++ (right ++ [.binary (temporary (t + m + n)) x op y])) t (m + (n + 1)) 0 (r + r')
      {temporary (t + m + n)} := by
  refine (h.append (h'.append (binary _ x op y))).settle rfl rfl
    (?_ : _ = _ + ({x} + {y})) ?_ <;> abel

/-- What is joined is read from the target, which is a name that the source reads there. -/
theorem store (t : Nat) (target : String) (op : AssignOp) (value : String) :
    Uses (storeCode t target op value) t op.temporaryCount {target}
      ({value} + op.readTexts target) 0 := by
  unfold storeCode AssignOp.temporaryCount AssignOp.readTexts
  cases op.joined? with
  | none => exact copy t target value
  | some binary =>
    -- the joined value is put into the temporary and copied from there
    refine ((Uses.binary t target binary value).append (copy _ target (temporary t))).settle rfl
      (zero_add _) (?_ : _ = _ + {temporary t}) (add_comm _ _)
    rw [Multiset.coe_singleton]
    abel

/-- The value of an expression is taken right after its code. -/
theorem take {x : String} (h : Uses code t m 0 r {x}) (h' : Uses code' (t + m) n a ({x} + r') 0) :
    Uses (code ++ code') t (m + n) a (r + r') 0 := by
  refine (h.append h').settle rfl (zero_add _) (?_ : _ = _ + {x}) (add_comm _ _)
  abel

/-- The value of an expression is all that is taken after its code. -/
theorem takeOnly {x : String} (h : Uses code t m 0 r {x}) (h' : Uses code' (t + m) 0 a {x} 0) :
    Uses (code ++ code') t m a r 0 :=
  (h.take (h'.of_eq rfl rfl (add_zero _).symm)).of_eq rfl rfl (add_zero _)

end Uses

mutual

/-- An expression reads its names and numbers and leaves its operand to be taken. -/
theorem Expr.uses_code (e : Expr) (t : Nat) :
    Uses (e.code t) t e.temporaryCount 0 e.readTexts {e.operand t} := by
  match e with
  | .term x => exact x.uses_code t
  | .binary left op right =>
    rw [Expr.readTexts, ← Multiset.coe_add]
    exact (left.uses_code t).join (right.uses_code _) op

/-- So does a term. -/
theorem Term.uses_code (x : Term) (t : Nat) :
    Uses (x.code t) t x.temporaryCount 0 x.readTexts {x.operand t} := by
  match x with
  | .factor f => exact f.uses_code t
  | .binary left op right =>
    rw [Term.readTexts, ← Multiset.coe_add]
    exact (left.uses_code t).join (right.uses_code _) op

/-- So does a factor. A name or a number is at once read and left to be taken. -/
theorem Factor.uses_code (f : Factor) (t : Nat) :
    Uses (f.code t) t f.temporaryCount 0 f.readTexts {f.operand t} := by
  match f with
  | .number _ _ | .ident _ _ => exact ⟨rfl, rfl⟩
  | .group inner _ => exact inner.uses_code t
  | .call name arguments _ =>
    -- the operands of the arguments are handed over before the call
    refine ((uses_argumentCode arguments t).append ((Uses.params _ _).append
      (Uses.call _ name))).settle ?_ rfl
      (?_ : _ = _ + (argumentOperands t arguments : Multiset String)) ?_
    · rw [Factor.temporaryCount, Nat.zero_add]
    · rw [add_zero, Factor.readTexts]
    · rw [zero_add, add_comm, Factor.operand, Nat.add_zero]

/-- Arguments leave one operand each. -/
theorem uses_argumentCode (es : List Expr) (t : Nat) :
    Uses (argumentCode t es) t (argumentTemporaryCount es) 0 (argumentReadTexts es)
      (argumentOperands t es) := by
  match es with
  | [] => exact .of_idle t rfl rfl
  | e :: es =>
    rw [argumentReadTexts, ← Multiset.coe_add]
    exact (e.uses_code t).append (uses_argumentCode es _)

end

/-- An assignment takes the operand of its value. -/
theorem Assignment.uses_code (a : Assignment) (t : Nat) :
    Uses (a.code t) t a.temporaryCount {a.target} a.readTexts 0 := by
  rw [Assignment.readTexts, ← Multiset.coe_add]
  exact (a.value.uses_code t).take (.store _ a.target a.op _)

/-- Only names with an initializer are stored into. -/
theorem uses_declaratorCode (ds : List Declarator) (t : Nat) :
    Uses (declaratorCode t ds) t (declaratorTemporaryCount ds) (storedByDeclarators ds)
      (ds.flatMap Declarator.readTexts) 0 := by
  induction ds generalizing t with
  | nil => exact .of_idle t rfl rfl
  | cons d ds ih =>
      rw [List.flatMap_cons, ← Multiset.coe_add]
      obtain ⟨name, _ | e⟩ := d
      -- without an initializer there is an instruction, but it uses nothing
      · have hdeclare : Uses [.declare name] t 0 0 0 0 := .of_idle t rfl rfl
        refine (hdeclare.append (ih t)).of_eq ?_ (zero_add _) rfl
        rw [declaratorTemporaryCount, Declarator.temporaryCount]
      · exact ((e.uses_code t).takeOnly (.copy _ name _)).append (ih _)

/-- The start of a loop uses what its declaration or assignment does. -/
theorem ForInit.uses_code (init : Option ForInit) (t : Nat) :
    Uses (ForInit.code t init) t (ForInit.temporaryCount init) (ForInit.storedNames init)
      (ForInit.readTexts init) 0 := by
  match init with
  | some (.declaration d) => exact uses_declaratorCode d.declarators t
  | some (.assignment a) => exact a.uses_code t
  | none => exact .of_idle t rfl rfl

/-- A step by one reads its name and the number `1`. -/
theorem ForStep.uses_code (step : Option ForStep) (t : Nat) :
    Uses (ForStep.code t step) t (ForStep.temporaryCount step) (ForStep.storedNames step)
      (ForStep.readTexts step) 0 := by
  match step with
  | some (.increment target _) => exact .store t target .add "1"
  | some (.decrement target _) => exact .store t target .sub "1"
  | some (.assignment a) => exact a.uses_code t
  | none => exact .of_idle t rfl rfl

/-- A test takes the operand of its condition. -/
theorem uses_testCode (e : Expr) (t : Nat) (label : String) :
    Uses (testCode t e label) t e.temporaryCount 0 e.readTexts 0 :=
  (e.uses_code t).takeOnly (.ifNotGoto _ _ label)

/-- A condition that is left out uses nothing. -/
theorem uses_conditionCode (condition : Option Expr) (t : Nat) (label : String) :
    Uses (conditionCode t condition label) t (conditionTemporaryCount condition) 0
      (conditionReadTexts condition) 0 := by
  match condition with
  | some e => exact uses_testCode e t label
  | none => exact .of_idle t rfl rfl

mutual

/-- The code of a statement uses its temporaries, the names into which the statement stores and
the names and numbers that it reads. -/
theorem Stmt.uses_code (s : Stmt) (t l : Nat) :
    Uses (s.code t l) t s.temporaryCount s.storedNames s.readTexts 0 := by
  have hmarks : ∀ (marks : List Instr) (t : Nat), targetsOf marks = [] → readsOf marks = [] →
      Uses marks t 0 0 0 0 := fun _ t => .of_idle t
  -- labels and jumps use nothing, and the rest is put together from the parts
  match s with
  | .block body _ => exact uses_codeAll body t l
  | .declaration d => exact uses_declaratorCode d.declarators t
  | .assignment a => exact a.uses_code t
  | .ifThen condition body _ =>
    refine ((uses_testCode condition t _).append
      ((body.uses_code _ _).append (hmarks _ _ rfl rfl))).of_eq rfl ?_ ?_
    · rw [Stmt.storedNames]
      abel
    · rw [Stmt.readTexts, ← Multiset.coe_add]
      abel
  | .ifElse condition onTrue onFalse _ =>
    refine ((uses_testCode condition t _).append ((onTrue.uses_code _ _).append
      ((hmarks [_, _] _ rfl rfl).append ((onFalse.uses_code _ _).append
        (hmarks _ _ rfl rfl))))).of_eq ?_ ?_ ?_
    · rw [Stmt.temporaryCount]
      omega
    · rw [Stmt.storedNames, ← Multiset.coe_add]
      abel
    · rw [Stmt.readTexts, ← Multiset.coe_add, ← Multiset.coe_add]
      abel
  | .whileLoop condition body _ =>
    refine ((hmarks [_] t rfl rfl).append ((uses_testCode condition _ _).append
      ((body.uses_code _ _).append (hmarks _ _ rfl rfl)))).of_eq ?_ ?_ ?_
    · rw [Stmt.temporaryCount]
      omega
    · rw [Stmt.storedNames]
      abel
    · rw [Stmt.readTexts, ← Multiset.coe_add]
      abel
  | .forLoop init condition step body _ =>
    refine ((ForInit.uses_code init t).append ((hmarks [_] _ rfl rfl).append
      ((uses_conditionCode condition _ _).append ((body.uses_code _ _).append
        ((ForStep.uses_code step _).append (hmarks _ _ rfl rfl)))))).of_eq ?_ ?_ ?_
    · rw [Stmt.temporaryCount]
      omega
    · rw [Stmt.storedNames, ← Multiset.coe_add, ← Multiset.coe_add]
      abel
    · rw [Stmt.readTexts, ← Multiset.coe_add, ← Multiset.coe_add, ← Multiset.coe_add]
      abel
  | .function _ body _ =>
    refine ((hmarks [_] t rfl rfl).append (uses_codeAll body _ _)).of_eq ?_ (zero_add _)
      (zero_add _)
    rw [Stmt.temporaryCount, Nat.zero_add]
  -- neither has an operand
  | .prototype _ | .result none _ => exact hmarks _ t rfl rfl
  | .result (some e) _ => exact (e.uses_code t).takeOnly ⟨rfl, rfl⟩

/-- The code of a row of statements uses what the code of its statements does. -/
theorem uses_codeAll (row : List Stmt) (t l : Nat) :
    Uses (codeAll t l row) t (temporaryCountAll row) (storedNamesAll row) (readTextsAll row)
      0 := by
  match row with
  | [] => exact .of_idle t rfl rfl
  | s :: more =>
    rw [storedNamesAll, readTextsAll, ← Multiset.coe_add, ← Multiset.coe_add]
    exact (s.uses_code t l).append (uses_codeAll more _ _)

end

/-- A listing uses its temporaries, the names into which the program stores and the names and
numbers that it reads. -/
theorem uses_lower (p : Program) :
    Uses p.lower.instructions 0 p.temporaryCount p.storedNames p.readTexts 0 := by
  rw [p.instructions_lower]
  exact uses_codeAll p.body 0 0

/-- How often generated names stand in a listing. A temporary is the target of one instruction,
and of one more for each store of the source into a variable of the same name. It is an operand
once, and once more for each place where the source reads such a variable. A label is placed
once, and once more for each function of the same name. -/
theorem count_generated_lower (p : Program) :
    (∀ k < p.temporaryCount,
      (targetsOf p.lower.instructions).count (temporary k)
        = 1 + p.storedNames.count (temporary k) ∧
      (readsOf p.lower.instructions).count (temporary k)
        = 1 + p.readTexts.count (temporary k)) ∧
    ∀ k < p.labelCount, (labelsOf p.lower.instructions).count (labelName k)
      = 1 + p.functionNames.count (labelName k) := by
  constructor
  · intro k hk
    -- at the end of a listing nothing is left to be taken
    have hoperands := (uses_lower p).operands
    rw [add_zero] at hoperands
    constructor
    · rw [← Multiset.coe_count, (uses_lower p).targets, Multiset.count_add,
        count_temporaryNames hk, Multiset.coe_count]
    · rw [← Multiset.coe_count, hoperands, Multiset.count_add, count_temporaryNames hk,
        Multiset.coe_count]
  · intro k hk
    rw [← Multiset.coe_count, labels_lower, Multiset.count_add, count_labelNames hk,
      Multiset.coe_count]

/-- Nothing is reported about a variable `t0` or a function `L0`, and both names are given to
what is generated as well. -/
theorem generated_names_not_fresh :
    (compile "int t0 = 1;\nt0 = t0 + 1;").log = [] ∧
    (compile "int t0 = 1;\nt0 = t0 + 1;").code.map Emitter.instructions
      = some [.copy "t0" "1", .binary (temporary 0) "t0" .add "1", .copy "t0" (temporary 0)] ∧
    (compile "int L0() \x7bif (1) return 2; return 3;\x7d").log = [] ∧
    (compile "int L0() \x7bif (1) return 2; return 3;\x7d").code.map Emitter.instructions
      = some [.label "L0", .ifNotGoto "1" (labelName 0), .result (some "2"),
          .label (labelName 0), .result (some "3")] ∧
    temporary 0 = "t0" ∧ labelName 0 = "L0" := by
  decide +kernel

end Tercet
