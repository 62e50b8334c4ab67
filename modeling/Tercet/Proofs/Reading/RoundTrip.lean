import Tercet.Proofs.Diagnostic.Wording
import Tercet.Proofs.Reading.Stmt
import Tercet.Proofs.Token.Text

/-!
# `Tercet.Proofs.Reading.RoundTrip`: printed programs are read back

Reading undoes printing. Whatever tokens spell a well-formed program, also with lines and
texts that the tree leaves open, are read as that program without a report
(`ofTokens_of_spells`). If some endings are struck out, the program is still the same, and
each of them is reported once, at the token that came after it
(`ofTokens_of_semicolons_struck`). Both are cases of `ofTokens_of_prints`.
-/

set_option autoImplicit false

namespace Tercet

open Printed

/-- What is left of a printed tree holds no end of the input. -/
theorem Prints.kind_ne_eof {slots : List Slot} {xs : List Printed} (h : Prints slots xs)
    (hslots : (slots.all fun s => s.kind != .eof) = true) :
    ∀ t ∈ kept xs, t.kind ≠ .eof := by
  induction h with
  | nil => simp [kept]
  | @cons s x slots xs hx _ ih =>
      rw [List.all_cons, Bool.and_eq_true, bne_iff_ne] at hslots
      obtain ⟨t, struck⟩ := x
      cases struck with
      | true => exact ih hslots.2
      | false =>
          rw [kept_cons_false, List.forall_mem_cons]
          refine ⟨?_, ih hslots.2⟩
          rw [hx.1.1]
          exact hslots.1

/-- What is left of a printed program is read back as the program, and what is reported is
what the struck tokens owe. -/
theorem ofTokens_of_prints {p : Program} (hp : p.wellFormed = true) {xs : List Printed}
    (hxs : Prints p.slots xs) (helse : ElseBelow xs) {tail : List Token}
    (htail : ∀ t ∈ tail.head?, t.kind = .eof) :
    Program.ofTokens (kept xs ++ tail) = (p, reports xs (closing (kept xs ++ tail))) := by
  have hkept : ∀ t ∈ kept xs, t.kind ≠ .eof :=
    Prints.kind_ne_eof hxs (all_kind_ne_eof_rowSlots p.body)
  obtain ⟨rest, hahead, hnext⟩ :=
    Parser.exists_ahead_ofTokens_append hkept htail Forms.standard []
  have hend := kind_closing (kept xs ++ tail)
  rw [Program.wellFormed, wellFormedRow_eq_all, List.all_eq_true] at hp
  -- each statement leaves a token, so the loop has rounds enough
  have hroom : p.body.length ≤
      (Parser.ofTokens (kept xs ++ tail) Forms.standard []).remaining := by
    have hlength := length_le_weight_rowSlots p.body
    have hweight : weight (rowSlots p.body) ≤ (kept xs).length := Prints.weight_le hxs
    rw [Stream.remaining, hahead, List.length_append]
    omega
  have hstop : ∀ k, (Forms.standard k).isSome = true → some k ≠ none :=
    fun _ _ => Option.some_ne_none _
  have hrow := rowWithin_of_prints hstop (fun s hs => reads_stmt (hp s hs)) hroom hxs hahead rfl
    (by rw [hnext, hend]; rfl) (.inl (by rw [hnext, hend]))
    (helse.append_of_ne (by rw [hnext, hend]; decide))
  rw [hnext] at hrow
  rw [Program.ofTokens, Reader.row, Reader.rowOf, hrow]
  rfl

/-- Reading undoes printing: the tokens of a well-formed program, up to the end of the row or
an `eof`, are read as the program itself, and nothing is reported. -/
theorem ofTokens_of_spells (p : Program) (hp : p.wellFormed = true) (ts tail : List Token)
    (hts : Spells p.slots ts) (htail : ∀ t ∈ tail.head?, t.kind = .eof) :
    Program.ofTokens (ts ++ tail) = (p, []) := by
  have hread := ofTokens_of_prints hp hts.prints_standing (.standing ts) htail
  rwa [kept_standing, reports_standing] at hread

/-- A program of six lines, with most forms of statements:
```
int n = 2, m;
if (n < 3)
  while (m) m += f(n, 1) * 2;
else {
  for (; n - 1; i++) return;
}
```
-/
def nestedSample : Program where
  body :=
    [.declaration ⟨.int, [⟨"n", some (.term (.factor (.number "2" 1)))⟩, ⟨"m", none⟩], 1⟩,
     .ifElse (.term (.binary (.factor (.ident "n" 2)) .less (.number "3" 2)))
       (.whileLoop (.term (.factor (.ident "m" 3)))
         (.assignment ⟨"m", .add, .term (.binary (.factor (.call "f"
           [.term (.factor (.ident "n" 3)), .term (.factor (.number "1" 3))] 3)) .mul
           (.number "2" 3)), 3⟩) 3)
       (.block
         [.forLoop none
           (some (.binary (.term (.factor (.ident "n" 5))) .sub (.factor (.number "1" 5))))
           (some (.increment "i" 5)) (.result none 5) 5] 4) 2]

/-- The sample without two of its endings, the one before the branch and the one before its
`else`. -/
def nestedSamplePrinted : List Printed :=
  [⟨⟨.kwInt, "int", 1⟩, false⟩, ⟨⟨.identifier, "n", 1⟩, false⟩, ⟨⟨.assign, "=", 1⟩, false⟩,
   ⟨⟨.number, "2", 1⟩, false⟩, ⟨⟨.comma, ",", 1⟩, false⟩, ⟨⟨.identifier, "m", 1⟩, false⟩,
   ⟨⟨.semicolon, ";", 1⟩, true⟩,
   ⟨⟨.kwIf, "if", 2⟩, false⟩, ⟨⟨.openParen, "(", 2⟩, false⟩, ⟨⟨.identifier, "n", 2⟩, false⟩,
   ⟨⟨.less, "<", 2⟩, false⟩, ⟨⟨.number, "3", 2⟩, false⟩, ⟨⟨.closeParen, ")", 2⟩, false⟩,
   ⟨⟨.kwWhile, "while", 3⟩, false⟩, ⟨⟨.openParen, "(", 3⟩, false⟩,
   ⟨⟨.identifier, "m", 3⟩, false⟩, ⟨⟨.closeParen, ")", 3⟩, false⟩,
   ⟨⟨.identifier, "m", 3⟩, false⟩, ⟨⟨.addAssign, "+=", 3⟩, false⟩,
   ⟨⟨.identifier, "f", 3⟩, false⟩, ⟨⟨.openParen, "(", 3⟩, false⟩,
   ⟨⟨.identifier, "n", 3⟩, false⟩, ⟨⟨.comma, ",", 3⟩, false⟩, ⟨⟨.number, "1", 3⟩, false⟩,
   ⟨⟨.closeParen, ")", 3⟩, false⟩, ⟨⟨.star, "*", 3⟩, false⟩, ⟨⟨.number, "2", 3⟩, false⟩,
   ⟨⟨.semicolon, ";", 3⟩, true⟩,
   ⟨⟨.kwElse, "else", 4⟩, false⟩, ⟨⟨.openBrace, "\x7b", 4⟩, false⟩,
   ⟨⟨.kwFor, "for", 5⟩, false⟩, ⟨⟨.openParen, "(", 5⟩, false⟩, ⟨⟨.semicolon, ";", 5⟩, false⟩,
   ⟨⟨.identifier, "n", 5⟩, false⟩, ⟨⟨.minus, "-", 5⟩, false⟩, ⟨⟨.number, "1", 5⟩, false⟩,
   ⟨⟨.semicolon, ";", 5⟩, false⟩, ⟨⟨.identifier, "i", 5⟩, false⟩,
   ⟨⟨.increment, "++", 5⟩, false⟩, ⟨⟨.closeParen, ")", 5⟩, false⟩,
   ⟨⟨.kwReturn, "return", 5⟩, false⟩, ⟨⟨.semicolon, ";", 5⟩, false⟩,
   ⟨⟨.closeBrace, "\x7d", 6⟩, false⟩]

/-- The sample is read back from its tokens. -/
theorem ofTokens_nestedSample :
    nestedSample.wellFormed = true ∧
      Spells nestedSample.slots (nestedSamplePrinted.map token) ∧
      Program.ofTokens (nestedSamplePrinted.map token ++ [⟨.eof, "<EOF>", 6⟩])
        = (nestedSample, []) :=
  have hspells : Spells nestedSample.slots (nestedSamplePrinted.map token) := by decide
  ⟨by decide, hspells,
    ofTokens_of_spells nestedSample (by decide) _ _ hspells (by simp)⟩

/-! ## Struck semicolons -/

/-- The report of a missing semicolon, in its short wording. -/
def semicolonReport (t : Token) : Diagnostic :=
  ⟨.malformed "Falta un punto y coma (;)", t.line⟩

/-- A text that fits its kind keeps the short wording as it is. -/
theorem missingBefore_of_admits {t : Token} (h : t.kind.admits t.text = true) :
    missingBefore t = semicolonReport t := by
  have hwording := classify_missing_semicolon (Kind.space_not_mem_of_admits h)
  show (⟨.malformed (classify (Fault.missing .semicolon t.text).message), t.line⟩ : Diagnostic)
    = _
  rw [hwording]
  rfl

/-- The closing token of a row has the text of an end if the `eof` in the row has. -/
theorem admits_closing {ts tail : List Token} (hts : ∀ t ∈ ts, t.kind ≠ .eof)
    (htail : ∀ t ∈ tail.head?, t.kind = .eof ∧ t.text = Token.endText) :
    (closing (ts ++ tail)).kind.admits (closing (ts ++ tail)).text = true := by
  have htext : (closing (ts ++ tail)).text = Token.endText := by
    rw [closing_append hts]
    cases tail with
    | nil => rfl
    | cons e more =>
        obtain ⟨hkind, htext⟩ := htail e rfl
        rw [List.find?_cons_of_pos (by simp [hkind]), Option.getD_some, htext]
  rw [kind_closing, htext]
  rfl

/-- Missing semicolons lose nothing. Of a printed program whose texts fit their kinds, strike
any endings, as long as an `else` after one of them stands below the token before it. What is
left is read as the same program as the whole, and what is reported is one missing semicolon
for each struck one, in their order, on the line of the token that came after it. -/
theorem ofTokens_of_semicolons_struck (p : Program) (hp : p.wellFormed = true)
    (xs : List Printed) (hxs : Prints p.slots xs)
    (htexts : ∀ x ∈ xs, x.token.kind.admits x.token.text = true) (helse : ElseBelow xs)
    (tail : List Token)
    (htail : ∀ t ∈ tail.head?, t.kind = .eof ∧ t.text = Token.endText) :
    Program.ofTokens (xs.map token ++ tail) = (p, []) ∧
      Program.ofTokens (kept xs ++ tail)
        = (p, (followers xs (closing (kept xs ++ tail))).map semicolonReport) ∧
      (Program.ofTokens (kept xs ++ tail)).2.length = xs.countP struck := by
  have heof : ∀ t ∈ tail.head?, t.kind = .eof := fun t ht => (htail t ht).1
  have hwhole : Spells p.slots (xs.map token) :=
    List.forall₂_map_right_iff.mpr (hxs.imp fun _ _ h => h.1)
  have hfull := ofTokens_of_prints hp hwhole.prints_standing (.standing _) heof
  rw [kept_standing, reports_standing] at hfull
  have hreports : reports xs (closing (kept xs ++ tail))
      = (followers xs (closing (kept xs ++ tail))).map semicolonReport := by
    refine List.map_congr_left fun t ht => missingBefore_of_admits ?_
    -- what follows a struck token is printed, or it is the closing token
    rcases mem_kept_or_eq_of_mem_followers ht with hmem | rfl
    · obtain ⟨x, hx, rfl⟩ := List.mem_map.mp hmem
      exact htexts x (List.mem_of_mem_filter hx)
    · exact admits_closing (Prints.kind_ne_eof hxs (all_kind_ne_eof_rowSlots p.body)) htail
  have hkept := ofTokens_of_prints hp hxs helse heof
  rw [hreports] at hkept
  refine ⟨hfull, hkept, ?_⟩
  rw [hkept, List.length_map, length_followers]

/-- Without the two endings the sample is read as the same program, with two reports. -/
theorem ofTokens_nestedSample_struck :
    nestedSample.wellFormed = true ∧ Prints nestedSample.slots nestedSamplePrinted ∧
      (∀ x ∈ nestedSamplePrinted, x.token.kind.admits x.token.text = true) ∧
      ElseBelow nestedSamplePrinted ∧
      Program.ofTokens (kept nestedSamplePrinted ++ [⟨.eof, "<EOF>", 6⟩])
        = (nestedSample, [⟨.malformed "Falta un punto y coma (;)", 2⟩,
            ⟨.malformed "Falta un punto y coma (;)", 4⟩]) :=
  have hprints : Prints nestedSample.slots nestedSamplePrinted := by decide
  have htexts : ∀ x ∈ nestedSamplePrinted, x.token.kind.admits x.token.text = true := by decide
  have hbelow : ElseBelow nestedSamplePrinted := by decide
  ⟨by decide, hprints, htexts, hbelow,
    (ofTokens_of_semicolons_struck nestedSample (by decide) _ hprints htexts hbelow _
      (by simp [Token.endText])).2.1⟩

end Tercet
