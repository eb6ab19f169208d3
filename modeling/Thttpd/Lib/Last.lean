/-
Settings that the last update decides.

Each update says what a setting becomes, or nothing about it.  After a list of updates the
setting is what the last one said that said anything, and what it was where none did.
-/
import Mathlib.Data.List.Induction
import Mathlib.Tactic.Common

namespace Updates

variable {α β : Type*} {f : α → Option β} {l : List α} {b : β}

/-- What the last update says of those that say anything. -/
def last (f : α → Option β) (l : List α) : Option β := (l.filterMap f).getLast?

theorem last_append (l l' : List α) : last f (l ++ l') = (last f l').or (last f l) := by
  rw [last, List.filterMap_append, List.getLast?_append]
  rfl

theorem last_singleton (a : α) : last f [a] = f a := by
  unfold last
  cases h : f a with
  | none => simp [h]
  | some b => simp [h]

theorem last_eq_none_iff : last f l = none ↔ ∀ a ∈ l, f a = none := by
  rw [last, List.getLast?_eq_none_iff, List.filterMap_eq_nil_iff]

/-- **The updates one after the other.** -/
theorem foldl_getD (f : α → Option β) (b : β) (l : List α) :
    l.foldl (fun b a => (f a).getD b) b = (last f l).getD b := by
  induction l using List.reverseRecOn with
  | nil => rfl
  | append_singleton l a ih =>
      rw [List.foldl_append, ih, last_append, last_singleton, List.foldl_cons, List.foldl_nil]
      cases f a with
      | none => rfl
      | some c => rfl

/-- The update that decides, among those of a kind. -/
theorem exists_last {p : α → Bool} (h : last f (l.filter p) = some b) :
    ∃ pre a post, l = pre ++ a :: post ∧ p a = true ∧ f a = some b ∧
      ∀ x ∈ post, p x = true → f x = none := by
  induction l using List.reverseRecOn with
  | nil => cases h
  | append_singleton l a ih =>
      by_cases hdecides : p a = true ∧ f a ≠ none
      · obtain ⟨hp, hne⟩ := hdecides
        obtain ⟨c, hc⟩ := Option.ne_none_iff_exists'.mp hne
        rw [List.filter_append, List.filter_cons_of_pos hp, List.filter_nil, last_append, last_singleton,
          hc] at h
        refine ⟨l, a, [], rfl, hp, hc.trans h, ?_⟩
        intro x hx
        cases hx
      · have hsilent : last f ([a].filter p) = none := by
          refine last_eq_none_iff.mpr fun x hx => ?_
          obtain ⟨hx, hp⟩ := List.mem_filter.mp hx
          rw [List.mem_singleton.mp hx] at hp ⊢
          exact Decidable.not_not.mp fun hne => hdecides ⟨hp, hne⟩
        rw [List.filter_append, last_append, hsilent, Option.none_or] at h
        obtain ⟨pre, a', post, rfl, hp, hsays, hpost⟩ := ih h
        refine ⟨pre, a', post ++ [a], by simp, hp, hsays, fun x hx hpx => ?_⟩
        rcases List.mem_append.mp hx with hx | hx
        · exact hpost x hx hpx
        · rw [List.mem_singleton.mp hx] at hpx ⊢
          exact Decidable.not_not.mp fun hne => hdecides ⟨hpx, hne⟩

/-- Updates that agree. -/
theorem last_of_agree (h : ∀ a ∈ l, f a = none ∨ f a = some b) (hex : ∃ a ∈ l, f a ≠ none) :
    last f l = some b := by
  cases hlast : last f l with
  | none =>
      obtain ⟨a, ha, hne⟩ := hex
      exact absurd (last_eq_none_iff.mp hlast a ha) hne
  | some c =>
      obtain ⟨a, ha, hc⟩ := List.mem_filterMap.mp (List.mem_of_getLast? hlast)
      rcases h a ha with hnone | hsome
      · rw [hnone] at hc
        cases hc
      · rw [← hc, hsome]

end Updates
