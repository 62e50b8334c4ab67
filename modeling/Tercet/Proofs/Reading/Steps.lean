import Mathlib.Data.List.TakeWhile
import Tercet.Proofs.Tree.Spelling
import Tercet.Reading.Stmt

/-!
# `Tercet.Proofs.Reading.Steps`: where a reader leaves the parser

A reader does three things to a parser: it passes tokens, it reports diagnostics, and it
leaves everything else alone. `Parser.past` is the parser after a given row of tokens and
reports, and every state that reading can reach has that form.

`Gives x p a ts ds rest` says that the reader `x` succeeds at `p`: it passes the tokens `ts`,
leaves `rest` ahead, reports `ds` and gives `a`. Readers are run forward by composing such
facts along the binds of a `do` block (`Gives.bind`), so the tokens that a rule passes appear
in the order in which it passes them.
-/

set_option autoImplicit false

namespace Tercet

open Reader

namespace Parser

/-- The parser after the tokens `ts`, with `rest` ahead of it and `ds` reported. -/
def past (p : Parser) (ts rest : List Token) (ds : Log) : Parser :=
  { p with passed := ts.reverse ++ p.passed, ahead := rest, log := p.log ++ ds }

/-- The token that is current once `rest` is ahead. -/
def following (p : Parser) (rest : List Token) : Token :=
  rest[0]?.getD p.last

/-- What is ahead after some tokens. -/
@[simp] theorem ahead_past (p : Parser) (ts rest : List Token) (ds : Log) :
    (p.past ts rest ds).ahead = rest := rfl

/-- What follows does not depend on what has been passed. -/
@[simp] theorem following_past (p : Parser) (ts rest more : List Token) (ds : Log) :
    (p.past ts rest ds).following more = p.following more := rfl

/-- The first token ahead is current. -/
@[simp] theorem following_cons (p : Parser) (t : Token) (rest : List Token) :
    p.following (t :: rest) = t := rfl

/-- With nothing ahead, the closing token is current. -/
@[simp] theorem following_nil (p : Parser) : p.following [] = p.last := rfl

/-- The current token is the first ahead, or the closing one. -/
theorem current_eq {p : Parser} {rest : List Token} (h : p.ahead = rest) :
    p.current = p.following rest := by
  rw [← h]
  rfl

/-- After no tokens and no reports, the parser is as it was. -/
theorem past_nil (p : Parser) : p.past [] p.ahead [] = p := by
  simp [past]

/-- Passing one row of tokens and then another is passing both. -/
@[simp] theorem past_past (p : Parser) (ts us rest more : List Token) (ds es : Log) :
    (p.past ts rest ds).past us more es = p.past (ts ++ us) more (ds ++ es) := by
  simp [past]

/-- The kind that comes next is that of the first token ahead. -/
theorem kind_eq {p : Parser} {rest : List Token} (h : p.ahead = rest) :
    p.kind = (p.following rest).kind := by
  rw [← current_eq h]
  rfl

/-- The kind that comes next after some tokens. -/
@[simp] theorem kind_past (p : Parser) (ts rest : List Token) (ds : Log) :
    (p.past ts rest ds).kind = (p.following rest).kind := rfl

/-- After a token, its line is the line before. -/
theorem previousLine_past_concat (p : Parser) (ts rest : List Token) (t : Token) (ds : Log) :
    (p.past (ts ++ [t]) rest ds).previousLine = t.line := by
  simp [past, Stream.previousLine]

end Parser

/-- The reader succeeds at `p` with `a`, passing `ts`, leaving `rest` ahead and reporting
`ds`. -/
def Gives {α : Type} (x : Reader α) (p : Parser) (a : α) (ts : List Token) (ds : Log)
    (rest : List Token) : Prop :=
  x p = .ok a (p.past ts rest ds)

namespace Gives

variable {α β : Type} {p : Parser} {ts us rest : List Token} {ds es : Log} {a : α} {b : β}

/-- One reader after another passes the tokens of both. -/
theorem bind {x : Reader α} {f : α → Reader β} (hx : Gives x p a ts ds (us ++ rest))
    (hf : Gives (f a) (p.past ts (us ++ rest) ds) b us es rest) :
    Gives (x >>= f) p b (ts ++ us) (ds ++ es) rest := by
  have hbind : (x >>= f) p = f a (p.past ts (us ++ rest) ds) := by
    show EStateM.bind x f p = _
    rw [EStateM.bind, hx]
  rw [Gives, hbind, hf, Parser.past_past]

/-- A reader that gives its result at once. -/
theorem pure (h : p.ahead = rest) (a : α) :
    Gives (Pure.pure a : Reader α) p a [] [] rest := by
  rw [Gives, ← h, Parser.past_nil]
  rfl

/-- What comes after the last token passes nothing. -/
theorem bind_last {x : Reader α} {f : α → Reader β} (hx : Gives x p a ts ds rest)
    (hf : Gives (f a) (p.past ts rest ds) b [] [] rest) :
    Gives (x >>= f) p b ts ds rest := by
  have hbind : Gives (x >>= f) p b (ts ++ []) (ds ++ []) rest := bind hx hf
  rwa [List.append_nil, List.append_nil] at hbind

/-- Giving a function of what is read changes nothing else. -/
theorem map {x : Reader α} (hx : Gives x p a ts ds rest) (f : α → β) :
    Gives (x >>= fun a => Pure.pure (f a)) p (f a) ts ds rest :=
  bind_last hx (.pure rfl _)

/-- Looking at the parser passes nothing. -/
theorem get {f : Parser → Reader β} (h : Gives (f p) p b ts ds rest) :
    Gives (MonadState.get >>= f) p b ts ds rest := h

/-- Looking at the next kind passes nothing. -/
theorem kind {f : Kind → Reader β} (h : Gives (f p.kind) p b ts ds rest) :
    Gives (Reader.kind >>= f) p b ts ds rest := h

/-- Looking at the next line passes nothing. -/
theorem line {f : Nat → Reader β} (h : Gives (f p.current.line) p b ts ds rest) :
    Gives (Reader.line >>= f) p b ts ds rest := h

/-- A function on the parser, run as a reader. -/
theorem modifyGet {f : Parser → α × Parser} (h : f p = (a, p.past ts rest ds)) :
    Gives (MonadStateOf.modifyGet f : Reader α) p a ts ds rest := by
  show (match f p with | (a, q) => EStateM.Result.ok a q) = _
  rw [h]

/-- Passing a token that is no end. -/
theorem advance {t : Token} (h : p.ahead = t :: rest) (ht : t.kind ≠ .eof) :
    Gives Reader.advance p t [t] [] rest := by
  have hcurrent : p.current = t := by rw [Parser.current_eq h, Parser.following_cons]
  show EStateM.Result.ok p.current { p with toStream := p.toStream.advance } = _
  rw [hcurrent, Stream.advance, h]
  simp [ht, Parser.past]

/-- Passing a token of the expected kind. -/
theorem expect {k : Kind} {t : Token} (h : p.ahead = t :: rest) (ht : t.kind = k)
    (hk : k ≠ .eof) : Gives (Reader.expect k) p t [t] [] rest := by
  refine Gives.get ?_
  have hkind : p.kind = k := by rw [Parser.kind_eq h, Parser.following_cons, ht]
  rw [if_pos hkind]
  exact Gives.advance h (ht ▸ hk)

/-- A reader after a token. -/
theorem bind_advance {f : Token → Reader β} {t : Token} (h : p.ahead = t :: (us ++ rest))
    (ht : t.kind ≠ .eof) (hf : Gives (f t) (p.past [t] (us ++ rest) []) b us es rest) :
    Gives (Reader.advance >>= f) p b (t :: us) es rest :=
  bind (advance h ht) hf

/-- A reader after a token of the expected kind. -/
theorem bind_expect {f : Token → Reader β} {k : Kind} {t : Token}
    (h : p.ahead = t :: (us ++ rest)) (ht : t.kind = k) (hk : k ≠ .eof)
    (hf : Gives (f t) (p.past [t] (us ++ rest) []) b us es rest) :
    Gives (Reader.expect k >>= f) p b (t :: us) es rest :=
  bind (expect h ht hk) hf

/-- A reader after one that reports nothing. -/
theorem bind_quiet {x : Reader α} {f : α → Reader β} (hx : Gives x p a ts [] (us ++ rest))
    (hf : Gives (f a) (p.past ts (us ++ rest) []) b us es rest) :
    Gives (x >>= f) p b (ts ++ us) es rest :=
  bind hx hf

end Gives

/-- A row ends at an end and where it is told to. -/
theorem rowWithin_of_end (inner : Reader Stmt) {stop : Option Kind} (room : Nat) {p : Parser}
    (hend : p.kind = .eof ∨ some p.kind = stop) : rowWithin inner stop room p = ([], p) := by
  cases room with
  | zero => rfl
  | succ room =>
    rw [rowWithin, if_pos]
    rwa [Bool.or_eq_true, Stream.atEnd, beq_iff_eq, beq_iff_eq]

/-! ## The start of a row -/

/-- The tokens of a row before the first `eof`: those that reading is about. -/
def beforeEnd (tokens : List Token) : List Token :=
  tokens.takeWhile fun t => t.kind != .eof

/-- The token that ends a row for its readers: its first `eof`, or the one that closes it. -/
def closing (tokens : List Token) : Token :=
  (tokens.find? fun t => t.kind == .eof).getD
    (Token.atEnd ((tokens.getLast?.map Token.line).getD 1))

/-- The closing token is an end. -/
theorem kind_closing (tokens : List Token) : (closing tokens).kind = .eof := by
  rw [closing]
  cases hfind : tokens.find? fun t => t.kind == .eof with
  | none => rfl
  | some t => simpa using List.find?_some hfind

/-- Tokens that are no ends, before an end or at the end of the row. -/
theorem closing_append {ts tail : List Token} (hts : ∀ t ∈ ts, t.kind ≠ .eof) :
    closing (ts ++ tail) =
      (tail.find? fun t => t.kind == .eof).getD
        (Token.atEnd (((ts ++ tail).getLast?.map Token.line).getD 1)) := by
  have hnone : (ts.find? fun t => t.kind == .eof) = none := by
    simpa using hts
  rw [closing, List.find?_append, hnone, Option.none_or]

/-- Tokens that are no ends stand before the first end. -/
theorem beforeEnd_append {ts tail : List Token} (hts : ∀ t ∈ ts, t.kind ≠ .eof)
    (htail : ∀ t ∈ tail.head?, t.kind = .eof) : beforeEnd (ts ++ tail) = ts := by
  have hnil : tail.takeWhile (fun t => t.kind != .eof) = [] := by
    cases tail with
    | nil => rfl
    | cons t tail => rw [List.takeWhile_cons_of_neg (by simp [htail t rfl])]
  rw [beforeEnd, List.takeWhile_append_of_pos (by simpa using hts), hnil, List.append_nil]

namespace Parser

/-- A parser starts with the tokens before an end ahead of it, and finds the closing token
after them. What follows an `eof` amid the row is never current. -/
theorem exists_ahead_ofTokens_append {ts tail : List Token} (hts : ∀ t ∈ ts, t.kind ≠ .eof)
    (htail : ∀ t ∈ tail.head?, t.kind = .eof) (forms : Forms) (log : Log) :
    ∃ rest, (ofTokens (ts ++ tail) forms log).ahead = ts ++ rest ∧
      (ofTokens (ts ++ tail) forms log).following rest = closing (ts ++ tail) := by
  rw [closing_append hts]
  cases tail with
  | nil =>
      -- the row has no end, and one is put after its last token
      refine ⟨[], ?_⟩
      rw [List.append_nil, ofTokens, Stream.ofTokens, following]
      cases hlast : ts.getLast? with
      | none => exact ⟨(List.getLast?_eq_none_iff.mp hlast).symm, rfl⟩
      | some t => simp [dif_neg (hts t (List.mem_of_getLast? hlast))]
  | cons e more =>
      have he : e.kind = .eof := htail e rfl
      have hfind : ((e :: more).find? fun t => t.kind == .eof) = some e :=
        List.find?_cons_of_pos (by simp [he])
      rw [hfind, Option.getD_some]
      obtain ⟨l, hlast⟩ : ∃ l, (ts ++ e :: more).getLast? = some l :=
        ⟨_, List.getLast?_eq_some_getLast (by simp)⟩
      simp only [ofTokens, Stream.ofTokens, following, hlast]
      -- a row that ends with an `eof` is closed by it, and another one gets its own
      by_cases hl : l.kind = .eof
      · simp only [dif_pos hl]
        rw [List.dropLast_append_of_ne_nil (List.cons_ne_nil e more)]
        refine ⟨(e :: more).dropLast, rfl, ?_⟩
        cases more with
        | nil => simpa using hlast.symm
        | cons e' more => rfl
      · simp only [dif_neg hl]
        exact ⟨e :: more, rfl, rfl⟩

/-- A parser starts with all tokens before the first end ahead of it. -/
theorem exists_ahead_ofTokens (tokens : List Token) (forms : Forms) (log : Log) :
    ∃ rest, (ofTokens tokens forms log).ahead = beforeEnd tokens ++ rest ∧
      (ofTokens tokens forms log).following rest = closing tokens := by
  have hsplit : beforeEnd tokens ++ (tokens.dropWhile fun t => t.kind != .eof) = tokens :=
    List.takeWhile_append_dropWhile
  have hall : ∀ t ∈ beforeEnd tokens, t.kind ≠ .eof := by
    intro t ht
    simpa using List.mem_takeWhile_imp ht
  -- the rest starts with the first end
  have hend : ∀ t ∈ (tokens.dropWhile fun t => t.kind != .eof).head?, t.kind = .eof := by
    intro t ht
    have hhead := List.head?_dropWhile_not (fun t : Token => t.kind != .eof) tokens
    rw [ht] at hhead
    simpa using hhead
  have h := exists_ahead_ofTokens_append hall hend forms log
  rwa [hsplit] at h

end Parser

end Tercet
