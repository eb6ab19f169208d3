/-
The run a list ends in.

How often its last element is repeated there, counted for one element: `n` copies end a
list just where the run it ends in is that long.
-/
import Mathlib.Data.List.DropRight
import Mathlib.Data.List.Infix
import Mathlib.Tactic.Common

namespace EndRun

variable {α : Type}

/-- Copies of one element that end a list do not reach over another. -/
theorem replicate_suffix_of_append {a b : α} (hab : a ≠ b) {n : Nat} {l after : List α}
    (h : List.replicate n b <:+ l ++ a :: after) : List.replicate n b <:+ after := by
  rcases List.suffix_or_suffix_of_suffix h (List.suffix_append l (a :: after)) with hin | hover
  · rcases List.suffix_cons_iff.mp hin with heq | hin
    · have hmem : a ∈ List.replicate n b := by
        rw [heq]
        exact List.mem_cons_self
      exact absurd (List.eq_of_mem_replicate hmem) hab
    · exact hin
  · have hmem : a ∈ List.replicate n b := hover.subset List.mem_cons_self
    exact absurd (List.eq_of_mem_replicate hmem) hab

variable [DecidableEq α]

/-- The length of the run of `a` that a list ends in. -/
def trailing (a : α) (l : List α) : Nat := (l.rtakeWhile (· = a)).length

@[simp] theorem trailing_nil (a : α) : trailing a ([] : List α) = 0 := rfl

@[simp] theorem trailing_concat_self (a : α) (l : List α) :
    trailing a (l ++ [a]) = trailing a l + 1 := by
  unfold trailing
  rw [List.rtakeWhile_concat_pos _ _ _ (by simp), List.length_append, List.length_singleton]

theorem trailing_concat_of_ne {a b : α} (h : b ≠ a) (l : List α) : trailing a (l ++ [b]) = 0 := by
  unfold trailing
  rw [List.rtakeWhile_concat_neg _ _ _ (by simpa using h), List.length_nil]

theorem trailing_le_length (a : α) (l : List α) : trailing a l ≤ l.length :=
  (List.rtakeWhile_suffix _ l).length_le

/-- **Copies that end a list are part of its last run.** -/
theorem replicate_suffix_iff {a : α} {n : Nat} {l : List α} :
    List.replicate n a <:+ l ↔ n ≤ trailing a l := by
  induction l using List.reverseRecOn generalizing n with
  | nil => simp [List.suffix_nil]
  | append_singleton l b ih =>
      cases n with
      | zero => simp
      | succ n =>
          rw [List.replicate_succ', List.suffix_concat_iff]
          by_cases hb : b = a
          · subst hb
            simp only [List.append_eq_nil_iff, List.cons_ne_nil, and_false, false_or,
              List.append_left_inj, exists_eq_left', ih, trailing_concat_self]
            omega
          · rw [trailing_concat_of_ne hb]
            simp only [List.append_eq_nil_iff, List.cons_ne_nil, and_false, false_or]
            constructor
            · rintro ⟨t, heq, -⟩
              exact absurd (List.append_inj' heq rfl).2 (by simpa using Ne.symm hb)
            · intro hn
              exact absurd hn (Nat.not_succ_le_zero n)

end EndRun
