import Tercet.Compilation
import Tercet.Proofs.Reading.Soundness
import Tercet.Proofs.Token.Text

/-!
# `Tercet.Proofs.Acceptance`: what is known of an accepted source

A source is accepted when its compilation reports nothing. Then nothing is reported by any of
the stages: the source is cut into tokens (`admits_of_mem_ofSource`: each with a text that its
kind admits), the tokens before the end spell the program, so that its names and numbers are
those of the tokens, and the analysis of the program ends with an empty log.
-/

set_option autoImplicit false

namespace Tercet

open Reader

/-! ### Texts of lexemes -/

namespace Pattern

/-- Cutting a word again leaves it as it is. -/
theorem lexeme_word_lexeme (cs : List Char) :
    word.lexeme (word.lexeme cs) = word.lexeme cs := by
  cases cs with
  | nil => rfl
  | cons c cs =>
      by_cases hc : isWordStart c = true
      · simp only [lexeme, hc, if_true, List.takeWhile_takeWhile, and_self]
        simp
      · simp [lexeme, hc]

/-- A fraction is empty or starts with a point, which is no digit. -/
theorem takeWhile_fraction (cs : List Char) : (fraction cs).takeWhile Char.isDigit = [] := by
  fun_cases fraction cs with
  | case2 cs _ => rfl
  | _ => rfl

/-- Cutting a fraction again leaves it as it is. -/
theorem fraction_fraction (cs : List Char) : fraction (fraction cs) = fraction cs := by
  fun_cases fraction cs with
  | case2 cs hne =>
    have hagain : (cs.takeWhile Char.isDigit).takeWhile Char.isDigit
        = cs.takeWhile Char.isDigit := by simp [List.takeWhile_takeWhile]
    rw [fraction, hagain]
    split
    · contradiction
    · rfl
  | _ => rfl

/-- Cutting a number again leaves it as it is. -/
theorem lexeme_number_lexeme (cs : List Char) :
    number.lexeme (number.lexeme cs) = number.lexeme cs := by
  cases hdigits : cs.takeWhile Char.isDigit with
  | nil => simp [lexeme, hdigits]
  | cons d digits =>
      have hall : ∀ c ∈ d :: digits, c.isDigit = true := by
        rw [← hdigits]
        exact fun c hc => List.mem_takeWhile_imp hc
      -- the digits end where the fraction begins
      have htake : (d :: digits ++ fraction (cs.dropWhile Char.isDigit)).takeWhile Char.isDigit
          = d :: digits := by
        rw [List.takeWhile_append_of_pos hall, takeWhile_fraction, List.append_nil]
      have hdrop : (d :: digits ++ fraction (cs.dropWhile Char.isDigit)).dropWhile Char.isDigit
          = fraction (cs.dropWhile Char.isDigit) := by
        have hparts := List.takeWhile_append_dropWhile (p := Char.isDigit)
          (l := d :: digits ++ fraction (cs.dropWhile Char.isDigit))
        rw [htake] at hparts
        exact List.append_cancel_left hparts
      simp only [lexeme, hdigits, htake, hdrop, fraction_fraction]

/-- A word lexeme is a keyword or a name. -/
theorem admits_ofWord {text : String} (hne : text ≠ "")
    (hword : word.lexeme text.toList = text.toList) :
    (Kind.ofWord text).admits text = true := by
  cases hfind : Kind.keywords.find? fun k => k.spelling? == some text with
  | none =>
      have hkind : Kind.ofWord text = .identifier := by rw [Kind.ofWord, hfind]; rfl
      simp [hkind, Kind.admits, hne, hword]
  | some k =>
      have hkind : Kind.ofWord text = k := by rw [Kind.ofWord, hfind]; rfl
      have hspelling : k.spelling? = some text := by simpa using List.find?_some hfind
      have hall : ∀ k ∈ Kind.keywords, k.spelling?.all k.admits = true := by decide
      have hadmits := hall k (List.mem_of_find?_eq_some hfind)
      rwa [hspelling, Option.all_some, ← hkind] at hadmits

/-- The kind of a lexeme that is found by its spelling admits it. -/
theorem admits_fixed {kind : Kind} {cs : List Char} (hkind : kind ∈ fixedKinds)
    (hne : (fixed kind).lexeme cs ≠ []) :
    kind.admits (String.ofList ((fixed kind).lexeme cs)) = true := by
  have hlexeme : (fixed kind).lexeme cs = (kind.spelling?.getD "").toList := by
    simp only [lexeme] at hne ⊢
    split
    · rfl
    · rename_i hnot
      rw [if_neg hnot] at hne
      exact absurd rfl hne
  have hall : ∀ k ∈ fixedKinds, k.admits (k.spelling?.getD "") = true := by decide
  rw [hlexeme, String.ofList_toList]
  exact hall kind hkind

/-- The kind that a lexeme stands for admits its text. -/
theorem admits_of_kind? {p : Pattern} {cs : List Char} {kind : Kind} (hp : p ∈ all)
    (hne : p.lexeme cs ≠ []) (hkind : p.kind? (p.lexeme cs) = some kind) :
    kind.admits (String.ofList (p.lexeme cs)) = true := by
  have hempty : String.ofList (p.lexeme cs) ≠ "" := by
    intro h
    exact hne (by simpa using congrArg String.toList h)
  cases p with
  | blank | lineComment | blockComment => cases hkind
  | word =>
      cases hkind
      refine admits_ofWord hempty ?_
      rw [String.toList_ofList, lexeme_word_lexeme]
  | number =>
      cases hkind
      simp [Kind.admits, hne, lexeme_number_lexeme]
  | fixed k =>
      cases hkind
      exact admits_fixed (by simpa [all] using hp) hne

/-- A match is of one of the classes. -/
theorem mem_all_of_firstMatch {cs text : List Char} {p : Pattern}
    (h : firstMatch cs = some (p, text)) : p ∈ all := by
  obtain ⟨q, hq, hfits⟩ := List.exists_of_findSome?_eq_some h
  split at hfits
  · cases hfits
  · obtain ⟨rfl, _⟩ := Prod.mk.inj (Option.some.inj hfits)
    exact hq

end Pattern

/-- A lexeme is what its class cuts from some text. -/
theorem Lexeme.exists_lexeme_of_mem_split {line : Nat} {cs : List Char} {l : Lexeme}
    (hl : l ∈ (Lexeme.split line cs).1) :
    l.pattern ∈ Pattern.all ∧ l.text ≠ [] ∧ ∃ cs, l.pattern.lexeme cs = l.text := by
  fun_induction Lexeme.split line cs with
  | case1 => cases hl
  | case2 line cs pattern text hmatch more left heq ih =>
    rw [heq] at ih
    rcases List.mem_cons.mp hl with rfl | hl
    · obtain ⟨hlexeme, hne⟩ := Pattern.lexeme_of_firstMatch hmatch
      exact ⟨Pattern.mem_all_of_firstMatch hmatch, hne, cs, hlexeme⟩
    · exact ih hl

/-- Each token of a source has a text that its kind admits. -/
theorem admits_of_mem_ofSource {source : String} {tokens : List Token}
    (h : Token.ofSource source = .ok tokens) {t : Token} (ht : t ∈ tokens) :
    t.kind.admits t.text = true := by
  unfold Token.ofSource at h
  split at h
  · rename_i lexemes hsplit
    cases h
    rcases List.mem_append.mp ht with ht | ht
    · obtain ⟨l, hl, htoken⟩ := List.mem_filterMap.mp ht
      obtain ⟨kind, hkind, rfl⟩ := Option.map_eq_some_iff.mp htoken
      have hmem : l ∈ (Lexeme.split 1 source.toList).1 := by rw [hsplit]; exact hl
      obtain ⟨hpattern, hne, cs, hcs⟩ := Lexeme.exists_lexeme_of_mem_split hmem
      rw [← hcs] at hne hkind
      show kind.admits (String.ofList l.text) = true
      rw [← hcs]
      exact Pattern.admits_of_kind? hpattern hne hkind
    · rw [List.mem_singleton.mp ht]
      rfl
  · cases h

/-! ### Accepted sources -/

/-- The stages of an accepted source report nothing. -/
theorem stages_of_accepted {source : String} (h : (compile source).log = []) :
    ∃ tokens, Token.ofSource source = .ok tokens ∧
      (Program.ofTokens tokens).1 = (compile source).program ∧
      (Program.ofTokens tokens).2 = [] ∧ (compile source).program.analyze.log = [] := by
  have hlog : (tokensOf source).2 ++ (Program.ofTokens (tokensOf source).1).2
      ++ (compile source).program.analyze.log = [] := h
  rw [List.append_eq_nil_iff, List.append_eq_nil_iff] at hlog
  obtain ⟨⟨hlexical, hsyntactic⟩, hanalysis⟩ := hlog
  have htokens : Token.ofSource source = .ok (tokensOf source).1 := by
    unfold tokensOf at hlexical ⊢
    split at hlexical
    · rename_i tokens hok
      rw [hok]
    · cases hlexical
  exact ⟨_, htokens, rfl, hsyntactic, hanalysis⟩

/-- The names and numbers of an accepted program are texts that their kinds admit. -/
theorem admits_of_accepted {source : String} (h : (compile source).log = []) :
    ∀ s ∈ (compile source).program.slots, ∀ x ∈ s.text, s.kind.admits x = true := by
  obtain ⟨tokens, htokens, hprogram, hquiet, _⟩ := stages_of_accepted h
  intro s hs x hx
  rw [← hprogram] at hs
  obtain ⟨t, ht, hfits⟩ := exists_mem_of_forall₂ (tree_of_quiet hquiet).1 hs
  have hadmits := admits_of_mem_ofSource htokens (List.takeWhile_subset _ ht)
  rwa [hfits.1, hfits.2.1 x hx] at hadmits

/-- A source has code exactly if it is accepted, and then that of its program. -/
theorem code_eq_some_iff {source : String} {g : Emitter} :
    (compile source).code = some g ↔
      (compile source).log = [] ∧ (compile source).program.lower = g := by
  show (if (compile source).log.isEmpty then some (compile source).program.lower else none)
    = some g ↔ _
  cases (compile source).log <;> simp

end Tercet
