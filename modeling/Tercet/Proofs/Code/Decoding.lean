import Tercet.Code.Emitter
import Tercet.Proofs.Token.Layout
import Tercet.Text.Lines

/-!
# `Tercet.Proofs.Code.Decoding`: reading a listing back

Nine forms of instructions share the lines of a listing, and a name of the source may be `goto`,
`param` or `call` like the words of the listing itself. All the same a listing can be read back.
The number of its words and the place of the equals sign say which form an instruction has, before
any name is looked at (`Instr.ofWords?_words`), and an instruction without a first blank says how
far its line is indented. `decode?` reads a listing in this way, and `Emitter.decode?_render` says
that it finds the code again.

What this asks of the code is that its operands, names and labels be legible: of at least one
character, and of letters, digits, underscores and points alone. In particular they have no blanks,
so blanks part the words, and no newlines.
-/

set_option autoImplicit false

namespace Tercet

/-! ### Legible code -/

namespace Text

/-- Whether a character may stand in an operand. -/
def isLegibleChar (c : Char) : Bool :=
  c.isAlphanum || c == '_' || c == '.'

/-- Whether the text has a character, and only letters, digits, underscores and points. -/
def isLegible (s : String) : Bool :=
  s != "" && s.toList.all isLegibleChar

/-- Whether the text has a character, and neither blanks nor newlines. -/
def isWord (s : String) : Bool :=
  s != "" && s.toList.all fun c => c != ' ' && c != '\n'

variable {s : String}

/-- Legible texts, said of their characters. -/
theorem isLegible_iff :
    isLegible s = true ↔ s.toList ≠ [] ∧ ∀ c ∈ s.toList, isLegibleChar c = true := by
  simp [isLegible]

/-- Words, said of their characters. -/
theorem isWord_iff :
    isWord s = true ↔ s.toList ≠ [] ∧ ' ' ∉ s.toList ∧ '\n' ∉ s.toList := by
  simp only [isWord, Bool.and_eq_true, bne_iff_ne, ne_eq, String.toList_eq_nil_iff,
    List.all_eq_true]
  refine and_congr_right fun _ => ⟨?_, ?_⟩
  · intro h
    exact ⟨fun hc => (h _ hc).1 rfl, fun hc => (h _ hc).2 rfl⟩
  · rintro ⟨hspace, hnewline⟩ c hc
    exact ⟨fun heq => hspace (heq ▸ hc), fun heq => hnewline (heq ▸ hc)⟩

/-- What may stand in an operand is no blank and no newline. -/
theorem isWord_of_isLegible (h : isLegible s = true) : isWord s = true := by
  obtain ⟨hne, hchars⟩ := isLegible_iff.mp h
  refine isWord_iff.mpr ⟨hne, fun hmem => ?_, fun hmem => ?_⟩
  · exact absurd (hchars _ hmem) (by decide)
  · exact absurd (hchars _ hmem) (by decide)

/-- A label is shown with a colon behind it, and is still one word. -/
theorem isWord_colon (h : isWord s = true) : isWord (s ++ ":") = true := by
  rw [isWord_iff] at h ⊢
  simpa using h.2

end Text

open Text

namespace Instr

/-- The operands, names and labels of an instruction. -/
def texts : Instr → List String
  | binary target left _ right => [target, left, right]
  | copy target value => [target, value]
  | label name => [name]
  | ifNotGoto condition target => [condition, target]
  | goto target => [target]
  | param value => [value]
  | call target function => [target, function]
  | declare name => [name]
  | result value => value.toList

/-- The operands, names and labels are legible. -/
def Legible (i : Instr) : Prop :=
  ∀ x ∈ i.texts, isLegible x = true

instance (i : Instr) : Decidable i.Legible :=
  inferInstanceAs (Decidable (∀ x ∈ i.texts, isLegible x = true))

end Instr

namespace Emitter

/-- The operands, names and labels of all instructions are legible. -/
def Legible (g : Emitter) : Prop :=
  ∀ i ∈ g.instructions, i.Legible

instance (g : Emitter) : Decidable g.Legible :=
  inferInstanceAs (Decidable (∀ i ∈ g.instructions, i.Legible))

end Emitter

/-! ### The words of an instruction -/

namespace BinaryOp

/-- The operator with a symbol. -/
def ofSymbol? (symbol : String) : Option BinaryOp :=
  [add, sub, mul, div, mod, less, lessEqual, greater, greaterEqual, equal, notEqual].find?
    fun op => op.symbol == symbol

/-- No two operators have one symbol. -/
theorem ofSymbol?_symbol (op : BinaryOp) : ofSymbol? op.symbol = some op := by
  cases op <;> decide

end BinaryOp

namespace Instr

/-- The words of an instruction, in the order in which a listing shows them. -/
def words : Instr → List String
  | binary target left op right => [target, "=", left, op.symbol, right]
  | copy target value => [target, "=", value]
  | label name => [name ++ ":"]
  | ifNotGoto condition target => ["if", "not", condition, "goto", target]
  | goto target => ["goto", target]
  | param value => ["param", value]
  | call target function => [target, "=", "call", function]
  | declare name => ["DECLARE", name]
  | result (some value) => ["return", value]
  | result none => ["return"]

/-- The instruction with the words. -/
def ofWords? : List String → Option Instr
  | [target, "=", left, symbol, right] =>
    (BinaryOp.ofSymbol? symbol).map fun op => .binary target left op right
  | ["if", "not", condition, "goto", target] => some (.ifNotGoto condition target)
  | [target, "=", "call", function] => some (.call target function)
  | [target, "=", value] => some (.copy target value)
  | ["goto", target] => some (.goto target)
  | ["param", value] => some (.param value)
  | ["DECLARE", name] => some (.declare name)
  | ["return", value] => some (.result (some value))
  | [word] =>
    if word = "return" then some (.result none)
    else if word.toList.getLast? = some ':' then
      some (.label (String.ofList word.toList.dropLast))
    else none
  | _ => none

/-- The words alone say what the instruction is, whatever the names among them. -/
theorem ofWords?_words (i : Instr) : ofWords? i.words = some i := by
  cases i with
  | binary => simp [words, ofWords?, BinaryOp.ofSymbol?_symbol]
  | label name =>
    -- the other single word does not end in a colon
    have hname : name ++ ":" ≠ "return" := by
      intro h
      have hlast := congrArg (fun word : String => word.toList.getLast?) h
      simp at hlast
    simp [words, ofWords?, hname]
  | result value => cases value <;> simp [words, ofWords?]
  | _ => simp [words, ofWords?]

/-- Every instruction shows something. -/
theorem words_ne_nil (i : Instr) : i.words ≠ [] := by
  cases i with
  | result value => cases value <;> exact List.cons_ne_nil _ _
  | _ => exact List.cons_ne_nil _ _

/-- A listing shows the words with single blanks between them. -/
theorem toList_display (i : Instr) :
    i.display.toList = [' '].intercalate (i.words.map String.toList) := by
  cases i with
  | result value => cases value <;> simp [display, words]
  | _ => simp [display, words]

/-- The words of a legible instruction are words. This is where legibility is needed: an operand
with a blank in it would be two of them. -/
theorem isWord_words {i : Instr} (hi : i.Legible) : ∀ w ∈ i.words, isWord w = true := by
  have htexts : ∀ x ∈ i.texts, isWord x = true := fun x hx => isWord_of_isLegible (hi x hx)
  -- the words that listings use themselves
  have hmarks : ∀ w ∈ ["=", "if", "not", "goto", "param", "call", "DECLARE", "return"],
      isWord w = true := by decide
  cases i with
  | binary _ _ op _ =>
    have hsymbol : isWord op.symbol = true := by cases op <;> decide
    simp_all [words, texts]
  | label name => simpa [words] using isWord_colon (htexts name List.mem_cons_self)
  | result value => cases value <;> simp_all [words, texts]
  | _ => simp_all [words, texts]

end Instr

/-! ### Reading a listing -/

namespace Listing

/-- The depth and the instruction on a line. The blanks that indent it stand for words without
characters, one for each blank. -/
def ofLine? (line : List Char) : Option (Nat × Instr) :=
  let words := line.splitOn ' '
  (Instr.ofWords? ((words.dropWhile List.isEmpty).map String.ofList)).map fun i =>
    ((words.takeWhile List.isEmpty).length / 2, i)

/-- The code on the lines of a listing, apart from the first and the last, which are marks. -/
def decode? (listing : String) : Option (List (Nat × Instr)) :=
  ((lines listing.toList).drop 1).dropLast.mapM ofLine?

/-- The line of an instruction. -/
def line (item : Nat × Instr) : List Char :=
  List.replicate (2 * item.1) ' ' ++ item.2.display.toList

/-- The line before all instructions. -/
def header : String :=
  "# === INICIO DEL PROGRAMA ==="

/-- The line after all instructions. -/
def footer : String :=
  "# === FIN DEL PROGRAMA ==="

section Parts

variable {α : Type} {sep a : α} {parts : List (List α)}

/-- Empty parts in front come to as many separators. -/
theorem intercalate_replicate_nil (sep : α) (n : Nat) (hparts : parts ≠ []) :
    [sep].intercalate (List.replicate n [] ++ parts)
      = List.replicate n sep ++ [sep].intercalate parts := by
  induction n with
  | zero => rfl
  | succ n ih =>
    have hmore : List.replicate n [] ++ parts ≠ [] := by simp [hparts]
    rw [List.replicate_succ, List.cons_append, List.intercalate_cons_of_ne_nil hmore, ih]
    rfl

/-- What stands in a joined text is the separator or stands in one of the parts. -/
theorem mem_intercalate_singleton (h : a ∈ [sep].intercalate parts) :
    a = sep ∨ ∃ part ∈ parts, a ∈ part := by
  induction parts with
  | nil => simp at h
  | cons part parts ih =>
    cases parts with
    | nil => exact .inr ⟨part, List.mem_cons_self, by simpa using h⟩
    | cons next parts =>
      rw [List.intercalate_cons_cons, List.mem_append, List.mem_append, List.mem_singleton] at h
      rcases h with (hpart | hsep) | hmore
      · exact .inr ⟨part, List.mem_cons_self, hpart⟩
      · exact .inl hsep
      · obtain hsep | ⟨other, hother, ha⟩ := ih hmore
        · exact .inl hsep
        · exact .inr ⟨other, List.mem_cons_of_mem _ hother, ha⟩

end Parts

variable {item : Nat × Instr}

/-- A line is cut at its blanks into its words. The blanks of the indentation give empty words in
front. -/
theorem splitOn_line (hitem : item.2.Legible) :
    (line item).splitOn ' '
      = List.replicate (2 * item.1) [] ++ item.2.words.map String.toList := by
  have hwords : item.2.words.map String.toList ≠ [] := by simp [Instr.words_ne_nil]
  -- the blanks in front and those between the words are separators alike
  rw [line, Instr.toList_display, ← intercalate_replicate_nil ' ' _ hwords]
  refine List.splitOn_intercalate ' ' (List.forall_mem_append.mpr ⟨?_, ?_⟩) (by simp [hwords])
  · intro w hw
    rw [List.eq_of_mem_replicate hw]
    exact List.not_mem_nil
  · exact List.forall_mem_map.mpr fun w hw => (isWord_iff.mp (Instr.isWord_words hitem w hw)).2.1

/-- A line tells its instruction and how deep it stands. -/
theorem ofLine?_line (hitem : item.2.Legible) : ofLine? (line item) = some item := by
  -- where the first word with a character stands, the indentation ends
  have hblank : ∀ w ∈ List.replicate (2 * item.1) ([] : List Char), w.isEmpty = true := by
    intro w hw
    rw [List.eq_of_mem_replicate hw]
    rfl
  have hfirst : ∀ w ∈ (item.2.words.map String.toList).head?, w.isEmpty = false := by
    intro w hw
    obtain ⟨x, hx, rfl⟩ := List.mem_map.mp (List.mem_of_head? hw)
    exact List.isEmpty_eq_false_iff.mpr (isWord_iff.mp (Instr.isWord_words hitem x hx)).1
  rw [ofLine?, splitOn_line hitem, takeWhile_append_of_head hblank hfirst,
    dropWhile_append_of_head hblank hfirst]
  simp [Instr.ofWords?_words, Function.comp_def]

/-- An instruction stands on one line. -/
theorem newline_not_mem_line (hitem : item.2.Legible) : '\n' ∉ line item := by
  rw [line, Instr.toList_display, List.mem_append, not_or]
  refine ⟨by simp, fun hmem => ?_⟩
  obtain hsep | ⟨w, hw, hmem⟩ := mem_intercalate_singleton hmem
  · exact absurd hsep (by decide)
  · obtain ⟨x, hx, rfl⟩ := List.mem_map.mp hw
    exact (isWord_iff.mp (Instr.isWord_words hitem x hx)).2.2 hmem

variable {code : List (Nat × Instr)}

/-- Cutting a listing at newlines gives the lines of its instructions back, and then those of
whatever follows. -/
theorem lines_flatMap (hcode : ∀ item ∈ code, item.2.Legible) (after : List Char) :
    lines ((code.flatMap fun item => line item ++ ['\n']) ++ after)
      = code.map line ++ lines after := by
  induction code with
  | nil => rfl
  | cons item code ih =>
    rw [List.forall_mem_cons] at hcode
    rw [List.flatMap_cons, List.append_assoc, List.append_assoc, List.singleton_append,
      lines_newline (newline_not_mem_line hcode.1), ih hcode.2, List.map_cons, List.cons_append]

/-- Each line is read as its instruction, by induction on the code. -/
theorem mapM_ofLine? (hcode : ∀ item ∈ code, item.2.Legible) :
    (code.map line).mapM ofLine? = some code := by
  induction code with
  | nil => rfl
  | cons item code ih =>
    rw [List.forall_mem_cons] at hcode
    rw [List.map_cons, List.mapM_cons, ofLine?_line hcode.1, ih hcode.2]
    rfl

end Listing

open Listing

namespace Emitter

/-- A listing is its header, the lines of the instructions, and its footer. -/
theorem toList_render (g : Emitter) :
    g.render.toList = header.toList ++ '\n' ::
      ((g.code.toList.flatMap fun item => line item ++ ['\n']) ++ footer.toList) := by
  have hline (item : Nat × Instr) :
      (indentation item.1 ++ item.2.display ++ "\n").toList = line item ++ ['\n'] := by
    simp [indentation, line]
  have hheader : header ++ "\n" = "# === INICIO DEL PROGRAMA ===\n" := by simp [header]
  -- the header ends its own line, so the newline is taken apart from it
  have hrender : g.render = header ++ "\n" ++ String.join (g.code.toList.map fun item =>
      indentation item.1 ++ item.2.display ++ "\n") ++ footer := by
    rw [hheader]
    rfl
  rw [hrender, String.toList_append, String.toList_append, String.toList_append,
    String.toList_join, List.flatMap_map]
  simp only [hline]
  simp

/-- Reading the listing of legible code gives the code. -/
theorem decode?_render {g : Emitter} (hg : g.Legible) :
    decode? g.render = some g.code.toList := by
  have hcode : ∀ item ∈ g.code.toList, item.2.Legible := fun item hitem =>
    hg item.2 (List.mem_map_of_mem hitem)
  have hheader : '\n' ∉ header.toList := by simp [header]
  have hfooter : Text.lines footer.toList = [footer.toList] :=
    lines_of_not_mem (by simp [footer]) (by simp [footer])
  rw [decode?, g.toList_render, lines_newline hheader, lines_flatMap hcode, hfooter,
    List.drop_one, List.tail_cons, List.dropLast_concat, mapM_ofLine? hcode]

end Emitter

end Tercet
