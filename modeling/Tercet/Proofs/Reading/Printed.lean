import Tercet.Proofs.Reading.Steps
import Tercet.Proofs.Tree.Shape

/-!
# `Tercet.Proofs.Reading.Printed`: printed trees with semicolons struck out

A printed tree from which some endings may be missing is a row of tokens, each of which
stands or is struck. Only an ending can be struck (`Prints`), so the tree still says where
every token was. What is left to read are the tokens that stand (`kept`), and each struck
semicolon owes one report, about the first token after it that stands (`reports`).

One layout would be misread: an `else` that follows a struck semicolon on the same line as
the token before it. There the statement has not plainly ended. `ElseBelow` rules it out.
-/

set_option autoImplicit false

namespace Tercet

open Slot

/-- A printed token, which stands or is struck out. -/
structure Printed where
  token : Token
  struck : Bool
deriving DecidableEq, Repr

namespace Printed

/-- Whether the token may stand in the place; struck, whether it may be missing there. -/
def Fits (s : Slot) (x : Printed) : Prop :=
  s.Fits x.token ∧ (x.struck = true → s.isEnding = true)

instance (s : Slot) (x : Printed) : Decidable (Fits s x) :=
  inferInstanceAs (Decidable (_ ∧ (_ → _)))

/-- Printed tokens that all stand. -/
def standing (ts : List Token) : List Printed :=
  ts.map fun t => ⟨t, false⟩

/-- The tokens that are left. -/
def kept (xs : List Printed) : List Token :=
  (xs.filter fun x => !x.struck).map token

/-- The first token that is left, with `next` after all of them. -/
def follower (xs : List Printed) (next : Token) : Token :=
  (kept xs)[0]?.getD next

/-- The tokens after those that are struck out, one for each, in their order. -/
def followers : List Printed → Token → List Token
  | [], _ => []
  | x :: xs, next =>
    if x.struck then follower xs next :: followers xs next else followers xs next

/-- What reading reports about a semicolon that is missing before a token. -/
def missingBefore (t : Token) : Diagnostic :=
  SyntaxError.report ⟨.missing .semicolon t.text, t.line⟩

/-- What reading reports about the semicolons that are struck out. -/
def reports (xs : List Printed) (next : Token) : Log :=
  (followers xs next).map missingBefore

/-- Where an `else` follows a struck token, it stands on a later line than the token before
that one. -/
def ElseBelow (xs : List Printed) : Prop :=
  ∀ before x y z after, xs = before ++ x :: y :: z :: after → y.struck = true →
    z.token.kind = .kwElse → x.token.line < z.token.line

/-! ## What is left -/

/-- Tokens that stand are left. -/
@[simp] theorem kept_standing (ts : List Token) : kept (standing ts) = ts := by
  simp [kept, standing, List.filter_map, Function.comp_def]

/-- What is left of two rows. -/
@[simp] theorem kept_append (xs ys : List Printed) : kept (xs ++ ys) = kept xs ++ kept ys := by
  simp [kept]

/-- A first token that stands is left. -/
@[simp] theorem kept_cons_false (t : Token) (xs : List Printed) :
    kept (⟨t, false⟩ :: xs) = t :: kept xs := rfl

/-- What the parser sees after a part is the first token that is left, or what follows the part. -/
theorem following_kept_append (p : Parser) (xs : List Printed) (rest : List Token) :
    p.following (kept xs ++ rest) = follower xs (p.following rest) := by
  rw [follower, Parser.following]
  cases kept xs <;> rfl

/-- A first token that stands is what follows. -/
@[simp] theorem follower_cons_false (t next : Token) (xs : List Printed) :
    follower (⟨t, false⟩ :: xs) next = t := rfl

/-- What follows a row is looked for in the next. -/
theorem follower_append (xs ys : List Printed) (next : Token) :
    follower (xs ++ ys) next = follower xs (follower ys next) := by
  rw [follower, kept_append, follower, follower]
  cases kept xs <;> rfl

/-! ## What is reported -/

/-- One token for each that is struck. -/
theorem length_followers (xs : List Printed) (next : Token) :
    (followers xs next).length = xs.countP struck := by
  induction xs with
  | nil => rfl
  | cons x xs ih =>
      rw [followers, List.countP_cons]
      split <;> simp_all

/-- What follows a struck token is left, or it is what follows the whole. -/
theorem mem_kept_or_eq_of_mem_followers {xs : List Printed} {next t : Token}
    (h : t ∈ followers xs next) : t ∈ kept xs ∨ t = next := by
  induction xs with
  | nil => cases h
  | cons x xs ih =>
      have hmore (ht : t ∈ kept xs ∨ t = next) : t ∈ kept (x :: xs) ∨ t = next := by
        refine ht.imp_left fun ht => ?_
        rw [← List.singleton_append, kept_append, List.mem_append]
        exact .inr ht
      rw [followers] at h
      split at h
      -- the first is struck, so the first token that is left after it is one of them
      · rcases List.mem_cons.mp h with rfl | h
        · refine hmore ?_
          rw [follower]
          cases kept xs with
          | nil => exact .inr rfl
          | cons u us => exact .inl List.mem_cons_self
        · exact hmore (ih h)
      · exact hmore (ih h)

/-- Of a token that stands nothing is reported. -/
@[simp] theorem reports_cons_false (t next : Token) (xs : List Printed) :
    reports (⟨t, false⟩ :: xs) next = reports xs next := rfl

/-- The reports on two rows. What follows the first is looked for in the second. -/
theorem reports_append (xs ys : List Printed) (next : Token) :
    reports (xs ++ ys) next = reports xs (follower ys next) ++ reports ys next := by
  induction xs with
  | nil => rfl
  | cons x xs ih =>
      simp only [reports, List.cons_append, followers, follower_append] at ih ⊢
      split
      · rw [List.map_cons, ih]
        rfl
      · exact ih

/-- Of tokens that all stand nothing is reported. -/
@[simp] theorem reports_standing (ts : List Token) (next : Token) :
    reports (standing ts) next = [] := by
  induction ts with
  | nil => rfl
  | cons t ts ih => exact ih

/-! ## Where `else` stands -/

/-- The layout of a row is that of its first three tokens and that of the rest. -/
theorem elseBelow_cons_iff {x y z : Printed} {xs : List Printed} :
    ElseBelow (x :: y :: z :: xs) ↔
      (y.struck = true → z.token.kind = .kwElse → x.token.line < z.token.line) ∧
        ElseBelow (y :: z :: xs) := by
  constructor
  · intro h
    refine ⟨h [] x y z xs rfl, fun before x' y' z' after hxs => ?_⟩
    exact h (x :: before) x' y' z' after (by rw [hxs]; rfl)
  · rintro ⟨hfirst, hmore⟩ before x' y' z' after hxs
    cases before with
    | nil =>
        obtain ⟨rfl, rfl, rfl, -⟩ : x = x' ∧ y = y' ∧ z = z' ∧ xs = after := by
          simpa using hxs
        exact hfirst
    | cons w before => exact hmore before x' y' z' after (List.cons.inj hxs).2

/-- Too few tokens for one between two others. -/
theorem elseBelow_of_length {xs : List Printed} (h : xs.length < 3) : ElseBelow xs := by
  intro before x y z after hxs
  rw [hxs] at h
  simp only [List.length_append, List.length_cons] at h
  omega

/-- The layout can be checked token by token. -/
instance decidableElseBelow : (xs : List Printed) → Decidable (ElseBelow xs)
  | [] => isTrue (elseBelow_of_length (by decide))
  | [_] => isTrue (elseBelow_of_length (by simp))
  | [_, _] => isTrue (elseBelow_of_length (by simp))
  | x :: y :: z :: xs =>
    have := decidableElseBelow (y :: z :: xs)
    decidable_of_iff' _ elseBelow_cons_iff

/-- A part of a row has the layout. -/
theorem ElseBelow.of_infix {xs ys : List Printed} (h : ElseBelow ys) (hxs : xs <:+: ys) :
    ElseBelow xs := by
  obtain ⟨front, back, rfl⟩ := hxs
  intro before x y z after hxs
  exact h (front ++ before) x y z (after ++ back) (by simp [hxs])

/-- A part is read with the token after it in view. If that token is printed, it is the next
one of the whole. -/
theorem ElseBelow.of_append {xs ys : List Printed} {next : Token}
    (h : ElseBelow (xs ++ ys ++ [⟨next, false⟩])) (hys : ∀ y ∈ ys.head?, y.struck = false) :
    ElseBelow (xs ++ [⟨follower ys next, false⟩]) := by
  cases ys with
  | nil => rwa [List.append_nil] at h
  | cons y ys =>
      obtain ⟨t, struck⟩ := y
      obtain rfl : struck = false := hys _ rfl
      rw [follower_cons_false]
      exact h.of_infix ⟨[], ys ++ [⟨next, false⟩], by simp⟩

/-- A token that is no `else` can follow anything. -/
theorem ElseBelow.append_of_ne {xs : List Printed} {next : Token} (h : ElseBelow xs)
    (hnext : next.kind ≠ .kwElse) : ElseBelow (xs ++ [⟨next, false⟩]) := by
  intro before x y z after hxs hy hz
  rcases List.eq_nil_or_concat after with rfl | ⟨after, w, rfl⟩
  · -- the three end with the token that follows
    have hxs' : xs ++ [⟨next, false⟩] = (before ++ [x, y]) ++ [z] := by
      rw [hxs]
      simp
    obtain rfl := List.singleton_inj.mp (List.append_inj' hxs' rfl).2
    exact absurd hz hnext
  · refine h before x y z after ?_ hy hz
    have hxs' : xs ++ [⟨next, false⟩] = (before ++ x :: y :: z :: after) ++ [w] := by
      rw [hxs]
      simp
    exact (List.append_inj' hxs' rfl).1

/-- So do tokens that all stand. -/
theorem ElseBelow.standing (ts : List Token) : ElseBelow (standing ts) := by
  intro before x y z after hts hy
  have hmem : y ∈ Printed.standing ts := by
    rw [hts]
    simp
  obtain ⟨t, -, rfl⟩ := List.mem_map.mp hmem
  cases hy

end Printed

/-- The printed tokens stand for the slots, one by one. -/
abbrev Prints : List Slot → List Printed → Prop :=
  List.Forall₂ Printed.Fits

open Printed

/-- A token that is no ending stands. -/
theorem Prints.cons_inv {s : Slot} {slots : List Slot} {xs : List Printed}
    (h : Prints (s :: slots) xs) (hs : s.isEnding = false) :
    ∃ t us, xs = ⟨t, false⟩ :: us ∧ s.Fits t ∧ Prints slots us := by
  obtain ⟨⟨t, struck⟩, us, ⟨hfits, hstruck⟩, hus, rfl⟩ := List.forall₂_cons_left_iff.mp h
  cases struck with
  | false => exact ⟨t, us, rfl, hfits, hus⟩
  | true => exact absurd (hstruck rfl) (by rw [hs]; decide)

/-- Where no slot is an ending, all tokens stand. -/
theorem Prints.solid_inv {slots : List Slot} {xs : List Printed} (h : Prints slots xs)
    (hslots : slots.all isSolid = true) : ∃ ts, xs = standing ts ∧ Spells slots ts := by
  induction h with
  | nil => exact ⟨[], rfl, .nil⟩
  | @cons s x slots xs hx hxs ih =>
      rw [List.all_cons, Bool.and_eq_true] at hslots
      obtain ⟨ts, rfl, hts⟩ := ih hslots.2
      have hs : s.isEnding = false := by
        have hsolid := hslots.1
        rw [isSolid, Bool.and_eq_true] at hsolid
        simpa using hsolid.2
      obtain ⟨t, us, heq, hfits, -⟩ := Prints.cons_inv (List.Forall₂.cons hx hxs) hs
      obtain ⟨rfl, rfl⟩ := List.cons.inj heq
      exact ⟨t :: ts, rfl, .cons hfits hts⟩

/-- A printed tree without struck tokens is one that is spelled out. -/
theorem Spells.prints_standing {slots : List Slot} {ts : List Token} (h : Spells slots ts) :
    Prints slots (standing ts) := by
  induction h with
  | nil => exact .nil
  | cons ht _ ih => exact .cons ⟨ht, by simp⟩ ih

/-- The number of tokens that cannot be struck. -/
def weight (slots : List Slot) : Nat :=
  slots.countP fun s => !s.isEnding

/-- The weight of two rows. -/
theorem weight_append (slots more : List Slot) :
    weight (slots ++ more) = weight slots + weight more :=
  List.countP_append

/-- A token that is no ending weighs one. -/
theorem weight_cons_of_isEnding {s : Slot} (slots : List Slot) (hs : s.isEnding = false) :
    weight (s :: slots) = weight slots + 1 := by
  rw [weight, List.countP_cons_of_pos (by simp [hs])]
  rfl

/-- At least the tokens that cannot be struck are left. -/
theorem Prints.weight_le {slots : List Slot} {xs : List Printed} (h : Prints slots xs) :
    weight slots ≤ (kept xs).length := by
  induction h with
  | nil => exact Nat.le_refl 0
  | @cons s x slots xs hx _ ih =>
      obtain ⟨t, struck⟩ := x
      cases struck with
      | false =>
          have hcons : weight (s :: slots) ≤ weight slots + 1 := by
            rw [weight, List.countP_cons]
            split <;> simp [weight]
          rw [kept_cons_false, List.length_cons]
          omega
      | true =>
          have hcons : weight (s :: slots) = weight slots := by
            rw [weight, List.countP_cons_of_neg (by simp [hx.2 rfl])]
            rfl
          rw [hcons]
          exact ih

end Tercet
