/-
What a wildcard pattern means.

A pattern is a list of tokens, and it matches a list when the list can be cut into pieces,
one for each token.  A star stands for a piece without the separator and a globstar for
any piece.  A matcher tries the places where such a piece may end, from the front or from
the back, and finds one exactly when there is one.
-/
import Mathlib.Data.List.Basic
import Mathlib.Data.List.Infix
import Mathlib.Data.List.TakeWhile
import Mathlib.Tactic.Common

namespace Glob

variable {α : Type*}

inductive Token (α : Type*) where
  | lit (a : α)
  /-- Any one item. -/
  | one
  /-- Any items but the separator. -/
  | star
  /-- Any items. -/
  | globstar
  deriving DecidableEq, Repr

/-- A list of tokens matches all of a list; `sep` is the separator. -/
inductive Matches (sep : α) : List (Token α) → List α → Prop
  | nil : Matches sep [] []
  | lit {a : α} {ts : List (Token α)} {f : List α} : Matches sep ts f →
      Matches sep (.lit a :: ts) (a :: f)
  | one {a : α} {ts : List (Token α)} {f : List α} : Matches sep ts f →
      Matches sep (.one :: ts) (a :: f)
  | star {run : List α} {ts : List (Token α)} {f : List α} : sep ∉ run → Matches sep ts f →
      Matches sep (.star :: ts) (run ++ f)
  | globstar {run : List α} {ts : List (Token α)} {f : List α} : Matches sep ts f →
      Matches sep (.globstar :: ts) (run ++ f)

section Tokens

variable {sep : α} {ts : List (Token α)} {f : List α}

theorem matches_nil : Matches sep [] f ↔ f = [] := by
  constructor
  · intro h
    cases h
    rfl
  · rintro rfl
    exact .nil

theorem not_matches_lit_nil {a : α} : ¬ Matches sep (.lit a :: ts) [] := by
  intro h
  cases h

theorem not_matches_one_nil : ¬ Matches sep (.one :: ts) [] := by
  intro h
  cases h

theorem matches_lit {a b : α} : Matches sep (.lit a :: ts) (b :: f) ↔ a = b ∧ Matches sep ts f := by
  constructor
  · intro h
    cases h with
    | lit h => exact ⟨rfl, h⟩
  · rintro ⟨rfl, h⟩
    exact .lit h

theorem matches_one {b : α} : Matches sep (.one :: ts) (b :: f) ↔ Matches sep ts f := by
  constructor
  · intro h
    cases h with
    | one h => exact h
  · intro h
    exact .one h

theorem matches_star : Matches sep (.star :: ts) f ↔
    ∃ run rest, f = run ++ rest ∧ sep ∉ run ∧ Matches sep ts rest := by
  constructor
  · intro h
    cases h with
    | star hrun h => exact ⟨_, _, rfl, hrun, h⟩
  · rintro ⟨run, rest, rfl, hrun, h⟩
    exact .star hrun h

theorem matches_globstar : Matches sep (.globstar :: ts) f ↔
    ∃ run rest, f = run ++ rest ∧ Matches sep ts rest := by
  constructor
  · intro h
    cases h with
    | globstar h => exact ⟨_, _, rfl, h⟩
  · rintro ⟨run, rest, rfl, h⟩
    exact .globstar h

end Tokens

/-! ### Where a piece may end

A matcher tries the ends of a piece one after the other and does not go back once
one has led to a match.  From the longest piece or from the shortest, it finds one if
there is any.
-/

/-- Try `f` at the places `0..=i` of a list, the last one first. -/
def tryDown (f : List α → Bool) (l : List α) : Nat → Bool
  | 0 => f l
  | i + 1 => f (l.drop (i + 1)) || tryDown f l i

theorem tryDown_iff {f : List α → Bool} {l : List α} {n : Nat} :
    tryDown f l n = true ↔ ∃ i, i ≤ n ∧ f (l.drop i) = true := by
  induction n with
  | zero =>
      rw [tryDown]
      constructor
      · intro h
        exact ⟨0, Nat.le_refl 0, h⟩
      · rintro ⟨i, hi, h⟩
        rw [Nat.le_zero.mp hi] at h
        exact h
  | succ n ih =>
      rw [tryDown, Bool.or_eq_true, ih]
      constructor
      · rintro (h | ⟨i, hi, h⟩)
        · exact ⟨n + 1, Nat.le_refl _, h⟩
        · exact ⟨i, Nat.le_succ_of_le hi, h⟩
      · rintro ⟨i, hi, h⟩
        rcases Nat.le_or_eq_of_le_succ hi with hi | rfl
        · exact .inr ⟨i, hi, h⟩
        · exact .inl h

/-- Every place of a list is the end of a piece of it. -/
theorem tryDown_length_iff {f : List α → Bool} {l : List α} :
    tryDown f l l.length = true ↔ ∃ run rest, l = run ++ rest ∧ f rest = true := by
  rw [tryDown_iff]
  constructor
  · rintro ⟨i, -, h⟩
    exact ⟨l.take i, l.drop i, (List.take_append_drop i l).symm, h⟩
  · rintro ⟨run, rest, rfl, h⟩
    exact ⟨run.length, by simp, by simpa using h⟩

/-- The places up to the first separator are the ends of the pieces without it. -/
theorem tryDown_takeWhile_iff {f : List α → Bool} {sep : α} {p : α → Bool}
    (hp : ∀ a, p a = true ↔ a ≠ sep) {l : List α} :
    tryDown f l (l.takeWhile p).length = true ↔
      ∃ run rest, l = run ++ rest ∧ sep ∉ run ∧ f rest = true := by
  rw [tryDown_iff]
  constructor
  · rintro ⟨i, hi, h⟩
    refine ⟨l.take i, l.drop i, (List.take_append_drop i l).symm, ?_, h⟩
    intro hmem
    have hsub : l.take i <+: l.takeWhile p :=
      List.prefix_of_prefix_length_le (List.take_prefix i l) (List.takeWhile_prefix p)
        (by rw [List.length_take]; omega)
    have hkept := List.mem_takeWhile_imp (hsub.subset hmem)
    exact (hp sep).mp hkept rfl
  · rintro ⟨run, rest, rfl, hrun, h⟩
    refine ⟨run.length, ?_, by simpa using h⟩
    have hall : ∀ a ∈ run, p a = true := fun a ha => (hp a).mpr fun heq => hrun (heq ▸ ha)
    rw [List.takeWhile_append_of_pos hall, List.length_append]
    omega

end Glob
