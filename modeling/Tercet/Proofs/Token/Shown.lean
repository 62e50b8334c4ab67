import Tercet.Proofs.Token.Stray
import Tercet.Text.Lines

/-!
# `Tercet.Proofs.Token.Shown`: the line of a token shows the token

Lines are counted in two ways. Cutting a source adds up the newlines of what it passes, and
`Text.lineAt?` looks a line up by its number, in the source as it is cut at newlines. The first
counts every newline, inside of comments too. The second leaves out an empty last line and does not
show carriage returns at the end of a line.

They agree where it matters (`shown_ofSource`). A part of a source without newlines stands whole on
the line that the newlines before it lead to (`Text.exists_lines_getElem?`). It is no empty line, so
it is not left out; and a part that holds no carriage return is not shortened with the end of its
line.

What a line is does not depend on the way in which it is looked up: `Text.Around` says it of the
parts of a text, and `Text.isLine_of_lineAt?` that whatever is looked up is such a part.
-/

set_option autoImplicit false

namespace Tercet

namespace Text

/-! ### What a line is -/

/-- The parts of a text around one of its lines: what stands above it, carriage returns that end
it and are not shown, and what stands below it. -/
structure Around (text above line returns below : List Char) : Prop where
  parts : text = above ++ (line ++ (returns ++ below))
  /-- The line starts the text, or a newline comes right before it. -/
  starts : ∀ c ∈ above.getLast?, c = '\n'
  /-- A newline comes right after the line and its carriage returns, or the text ends there. -/
  ends : ∀ c ∈ below.head?, c = '\n'
  unbroken : '\n' ∉ line
  returned : ∀ c ∈ returns, c = '\r'
  /-- No more carriage returns could be taken off. -/
  trimmed : ∀ c ∈ line.getLast?, c ≠ '\r'

/-- The line of a text with a given number, which is one more than the newlines above it. -/
def IsLine (source : String) (number : Nat) (line : String) : Prop :=
  ∃ above returns below, Around source.toList above line.toList returns below ∧
    number = 1 + above.count '\n'

/-- Only the empty text has no line. -/
theorem eq_nil_of_lines_eq_nil {cs : List Char} (h : lines cs = []) : cs = [] := by
  fun_cases lines cs with
  | case1 => rfl
  | case2 cs => cases h
  | case3 c cs hc hlines => rw [lines.eq_3 c cs hc, hlines] at h; cases h
  | case4 c cs hc line more hlines => rw [lines.eq_3 c cs hc, hlines] at h; cases h

/-- A text that ends with a newline if it is not empty, and holds none, is empty. -/
theorem eq_nil_of_count_eq_zero {cs : List Char} (hlast : ∀ c ∈ cs.getLast?, c = '\n')
    (hcount : cs.count '\n' = 0) : cs = [] := by
  cases hcs : cs.getLast? with
  | none => exact List.getLast?_eq_none_iff.mp hcs
  | some c =>
    have hmem := List.mem_of_getLast? hcs
    rw [hlast c hcs] at hmem
    exact absurd hmem (List.count_eq_zero.mp hcount)

/-- A line found by its index has so many newlines above it, none inside, and one or an end of the
text on either side. The induction is on the text, as it is cut. -/
theorem exists_of_lines_getElem? {cs row : List Char} {n : Nat} (h : (lines cs)[n]? = some row) :
    ∃ above below, cs = above ++ (row ++ below) ∧ n = above.count '\n' ∧ '\n' ∉ row ∧
      (∀ c ∈ above.getLast?, c = '\n') ∧ ∀ c ∈ below.head?, c = '\n' := by
  fun_induction lines cs generalizing n row with
  | case1 => cases h
  | case2 cs ih =>
    cases n with
    | zero =>
      cases h
      exact ⟨[], '\n' :: cs, rfl, rfl, List.not_mem_nil, by simp, by simp⟩
    | succ n =>
      obtain ⟨above, below, rfl, rfl, hrow, hstarts, hends⟩ := ih h
      refine ⟨'\n' :: above, below, rfl, List.count_cons_self.symm, hrow, ?_, hends⟩
      cases above with
      | nil => simp
      | cons a above => simpa using hstarts
  | case3 c cs hc hlines =>
    obtain rfl := eq_nil_of_lines_eq_nil hlines
    cases n with
    | zero =>
      cases h
      exact ⟨[], [], rfl, rfl, by simpa using Ne.symm hc, by simp, by simp⟩
    | succ n => cases h
  | case4 c cs hc line more hlines ih =>
    rw [hlines] at ih
    cases n with
    | zero =>
      cases h
      obtain ⟨above, below, rfl, hcount, hrow, hstarts, hends⟩ := ih (n := 0) rfl
      -- nothing stands above the first line, so the character is the first of that line
      obtain rfl := eq_nil_of_count_eq_zero hstarts hcount.symm
      exact ⟨[], below, rfl, rfl, by simpa [Ne.symm hc] using hrow, by simp, hends⟩
    | succ n =>
      obtain ⟨above, below, rfl, hcount, hrow, hstarts, hends⟩ := ih (n := n + 1) h
      refine ⟨c :: above, below, rfl, by rw [List.count_cons_of_ne hc, hcount], hrow, ?_, hends⟩
      cases above with
      | nil => cases hcount
      | cons a above => simpa using hstarts

/-- What is not shown of a line is carriage returns, and nothing but them is left out. -/
theorem exists_dropReturns_append (row : List Char) :
    ∃ returns, row = dropReturns row ++ returns ∧ (∀ c ∈ returns, c = '\r') ∧
      ∀ c ∈ (dropReturns row).getLast?, c ≠ '\r' := by
  refine ⟨(row.reverse.takeWhile (· == '\r')).reverse, ?_, fun c hc => ?_, fun c hc => ?_⟩
  · rw [dropReturns, ← List.reverse_append, List.takeWhile_append_dropWhile, List.reverse_reverse]
  · simpa using List.mem_takeWhile_imp (List.mem_reverse.mp hc)
  · have hhead := List.head?_dropWhile_not (· == '\r') row.reverse
    rw [dropReturns, List.getLast?_reverse] at hc
    rw [hc] at hhead
    simpa using hhead

/-- Whatever is looked up by a number is the line of that number. -/
theorem isLine_of_lineAt? {source line : String} {number : Nat}
    (h : lineAt? source number = some line) : IsLine source number line := by
  cases number with
  | zero => cases h
  | succ n =>
    obtain ⟨row, hlines, rfl⟩ := Option.map_eq_some_iff.mp h
    obtain ⟨above, below, hparts, hcount, hrow, hstarts, hends⟩ := exists_of_lines_getElem? hlines
    obtain ⟨returns, hreturns, hreturned, htrimmed⟩ := exists_dropReturns_append row
    refine ⟨above, returns, below, ?_, by rw [hcount, Nat.add_comm]⟩
    rw [String.toList_ofList]
    exact {
      parts := by rw [hparts, ← List.append_assoc (dropReturns row), ← hreturns]
      starts := hstarts
      ends := hends
      unbroken := fun hmem => hrow (hreturns ▸ List.mem_append_left _ hmem)
      returned := hreturned
      trimmed := htrimmed }

/-! ### A part of a text on its line -/

/-- The line that the newlines before a row lead to ends with that row, if a newline or the end
of the text comes after it. -/
theorem exists_lines_getElem? (before : List Char) {row below : List Char} (hne : row ≠ [])
    (hrow : '\n' ∉ row) (hbelow : ∀ c ∈ below.head?, c = '\n') :
    ∃ left, (lines (before ++ (row ++ below)))[Lexeme.newlines before]? = some (left ++ row) := by
  induction before with
  | nil =>
    refine ⟨[], ?_⟩
    cases below with
    | nil =>
      rw [List.append_nil, List.nil_append, lines_of_not_mem hne hrow]
      rfl
    | cons c below =>
      -- the row is the whole of the first line
      obtain rfl := hbelow c rfl
      rw [List.nil_append, lines_newline hrow]
      rfl
  | cons b before ih =>
    obtain ⟨left, hleft⟩ := ih
    by_cases hb : b = '\n'
    · subst hb
      exact ⟨left, by simpa [Lexeme.newlines, lines] using hleft⟩
    · -- the character belongs to the first line of what follows it
      have hcount : Lexeme.newlines (b :: before) = Lexeme.newlines before :=
        List.count_cons_of_ne hb
      rw [hcount, List.cons_append, lines.eq_3 b _ hb]
      cases hlines : lines (before ++ (row ++ below)) with
      | nil =>
        rw [hlines] at hleft
        cases hleft
      | cons line more =>
        rw [hlines] at hleft
        cases hindex : Lexeme.newlines before with
        | zero =>
          rw [hindex] at hleft
          cases hleft
          exact ⟨b :: left, rfl⟩
        | succ n =>
          rw [hindex] at hleft
          exact ⟨left, hleft⟩

/-- Carriage returns are dropped only from what follows the last other character. -/
theorem dropReturns_append {cs : List Char} (hcs : ∀ c ∈ cs.getLast?, c ≠ '\r')
    (ds : List Char) : dropReturns (cs ++ ds) = cs ++ dropReturns ds := by
  have hkept : cs.reverse.dropWhile (· == '\r') = cs.reverse := by
    cases hrev : cs.reverse with
    | nil => rfl
    | cons c more =>
      have hlast : c ∈ cs.getLast? := by rw [← List.head?_reverse, hrev]; rfl
      exact List.dropWhile_cons_of_neg (by simpa using hcs c hlast)
  rw [dropReturns, dropReturns, List.reverse_append, List.dropWhile_append, hkept]
  split
  · rename_i hnone
    simp [List.isEmpty_iff.mp hnone]
  · rw [List.reverse_append, List.reverse_reverse]

/-- A part of a source that holds no newline and no carriage return is shown whole on its line. -/
theorem exists_lineAt? {source : String} {before part after : List Char}
    (hsource : source.toList = before ++ (part ++ after)) (hne : part ≠ [])
    (hnewline : '\n' ∉ part) (hreturn : '\r' ∉ part) :
    ∃ line, lineAt? source (1 + Lexeme.newlines before) = some line ∧ part <:+: line.toList := by
  -- the rest of the line, up to the next newline
  obtain ⟨right, below, hafter, hright, hbelow⟩ : ∃ right below, right ++ below = after ∧
      '\n' ∉ right ∧ ∀ c ∈ below.head?, c = '\n' := by
    refine ⟨after.takeWhile (· != '\n'), after.dropWhile (· != '\n'),
      List.takeWhile_append_dropWhile, fun hmem => ?_, fun c hc => ?_⟩
    · exact absurd (List.mem_takeWhile_imp hmem) (by decide)
    · have hhead := List.head?_dropWhile_not (· != '\n') after
      rw [hc] at hhead
      simpa using hhead
  have hrow : '\n' ∉ part ++ right := List.not_mem_append hnewline hright
  obtain ⟨left, hline⟩ := exists_lines_getElem? before (List.append_ne_nil_of_left_ne_nil hne right)
    hrow hbelow
  rw [List.append_assoc, hafter, ← hsource] at hline
  -- carriage returns are dropped behind the part only
  have hlast : ∀ c ∈ (left ++ part).getLast?, c ≠ '\r' := by
    intro c hc
    rw [List.getLast?_append_of_ne_nil _ hne] at hc
    rintro rfl
    exact hreturn (List.mem_of_getLast? hc)
  refine ⟨String.ofList (left ++ part ++ dropReturns right), ?_, ?_⟩
  · rw [Nat.add_comm, lineAt?, hline, Option.map_some, ← List.append_assoc,
      dropReturns_append hlast]
  · rw [String.toList_ofList]
    exact ⟨left, dropReturns right, rfl⟩

end Text

/-- A token other than the closing one stands in the source, on its line. -/
theorem exists_of_mem_tokensAfter {before last : List Char} {words : List Placed} {t : Token}
    (hwrites : ∀ w ∈ words, w.kind.Writes w.text.toList)
    (ht : t ∈ tokensAfter before words last) (hkind : t.kind ≠ .eof) :
    ∃ front rest, before ++ written words last = front ++ (t.text.toList ++ rest) ∧
      t.line = 1 + Lexeme.newlines front ∧ t.kind.Writes t.text.toList := by
  induction words generalizing before with
  | nil =>
    obtain rfl := List.mem_singleton.mp ht
    exact absurd rfl hkind
  | cons w more ih =>
    obtain ⟨hw, hmore⟩ := List.forall_mem_cons.mp hwrites
    rw [tokensAfter, List.mem_cons] at ht
    rcases ht with rfl | ht
    · exact ⟨before ++ w.gap, written more last, by rw [written, List.append_assoc], rfl, hw⟩
    · obtain ⟨front, rest, hparts, hline, hword⟩ := ih hmore ht
      refine ⟨front, rest, ?_, hline, hword⟩
      rw [← hparts, written, List.append_assoc, List.append_assoc]

/-- No word is empty. -/
theorem Kind.Writes.ne_nil {k : Kind} {cs : List Char} (h : k.Writes cs) : cs ≠ [] := by
  cases h with
  | word => exact List.cons_ne_nil _ _
  | whole hne => exact hne
  | fraction hne => exact List.append_ne_nil_of_left_ne_nil hne _
  | fixed htext =>
    have hall : ∀ k ∈ Kind.all, ∀ spelling ∈ k.spelling?, spelling.toList ≠ [] := by decide
    exact hall k (Kind.mem_all k) _ (k.fixedText?_eq ▸ htext)

/-- The line on which a token stands is one of the source and shows the token. Where the source
cannot be cut, the line of the error shows the character that starts no lexeme. In both cases, what
is looked up under the number is the row between two newlines that has so many newlines above it. -/
theorem shown_ofSource (source : String) :
    (∀ tokens, Token.ofSource source = .ok tokens → ∀ t ∈ tokens, t.kind ≠ .eof →
      ∃ line, Text.lineAt? source t.line = some line ∧ Text.IsLine source t.line line ∧
        t.text.toList <:+: line.toList) ∧
    ∀ e, Token.ofSource source = .error e →
      ∃ c line, e.fault = .unrecognized c ∧ Text.lineAt? source e.line = some line ∧
        Text.IsLine source e.line line ∧ c ∈ line.toList := by
  constructor
  · intro tokens h t ht hkind
    have hstart : 1 = 1 + Lexeme.newlines [] := rfl
    obtain ⟨words, last, hsource, _, hwrites, rfl⟩ :=
      exists_written_of_scan (Token.ofSource_eq_ok_iff.mp h) hstart
    -- the source is made up of words and gaps, and the token is one of the words
    obtain ⟨front, rest, hparts, hline, hword⟩ := exists_of_mem_tokensAfter hwrites ht hkind
    rw [List.nil_append, ← hsource] at hparts
    obtain ⟨line, hlookup, hpart⟩ := Text.exists_lineAt? hparts hword.ne_nil
      (List.count_eq_zero.mp hword.newlines_eq)
      (hword.not_mem_of (by decide) (by decide) (by decide) (by decide) (by decide))
    rw [← hline] at hlookup
    exact ⟨line, hlookup, Text.isLine_of_lineAt? hlookup, hpart⟩
  · intro e h
    obtain ⟨before, c, after, hsource, _, rfl, hstray⟩ := Token.exists_of_ofSource_eq_error h
    -- the character is no blank, so neither a newline nor a carriage return
    have hblank {d : Char} (hd : Text.isBlank d = true) : d ∉ [c] := by
      rw [List.mem_singleton]
      rintro rfl
      rw [hstray.not_blank] at hd
      cases hd
    obtain ⟨line, hline, hpart⟩ := Text.exists_lineAt? hsource (List.cons_ne_nil c [])
      (hblank (by decide)) (hblank (by decide))
    exact ⟨c, line, rfl, hline, Text.isLine_of_lineAt? hline, hpart.subset List.mem_cons_self⟩

/-- Lines that end with carriage returns, and a comment over two of them. -/
def returnedLines : String :=
  "x\r\n/*\r\n*/ y\r\r\n"

/-- The line of `y` shows it without its carriage return, and so does the line of the character
that cannot be cut. -/
theorem shown_returnedLines :
    Token.ofSource returnedLines
      = .ok [⟨.identifier, "x", 1⟩, ⟨.identifier, "y", 3⟩, Token.atEnd 4] ∧
    (∃ line, Text.lineAt? returnedLines 3 = some line ∧ Text.IsLine returnedLines 3 line ∧
      "y".toList <:+: line.toList) ∧
    Token.ofSource (returnedLines ++ "#\r") = .error ⟨.unrecognized '#', 4⟩ ∧
    ∃ c line, Fault.unrecognized '#' = .unrecognized c ∧
      Text.lineAt? (returnedLines ++ "#\r") 4 = some line ∧
      Text.IsLine (returnedLines ++ "#\r") 4 line ∧ c ∈ line.toList := by
  have htokens : Token.ofSource returnedLines
      = .ok [⟨.identifier, "x", 1⟩, ⟨.identifier, "y", 3⟩, Token.atEnd 4] := by decide +kernel
  have hrefused : Token.ofSource (returnedLines ++ "#\r") = .error ⟨.unrecognized '#', 4⟩ := by
    decide +kernel
  exact ⟨htokens, (shown_ofSource _).1 _ htokens ⟨.identifier, "y", 3⟩ (by simp) (by decide),
    hrefused, (shown_ofSource _).2 _ hrefused⟩

end Tercet
