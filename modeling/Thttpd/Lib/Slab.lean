/-
A slab: a table with stable keys, some of them vacant.

`count p` is how many entries satisfy `p`.  What the operations do to it is all that
an invariant relating a counter to the entries needs.

An entry is reached by its key alone.  `at?` reads, `put` writes a new entry at a
vacant key and `update` exchanges the one there is, for another or for nothing.  Each
comes with a lemma for its own key and one for every other key, and with what it
does to a count, so that an invariant of the entries is kept or carried over by
citing one of them.
-/
import Mathlib.Data.List.Basic
import Mathlib.Tactic.Common

/-- Key `k` holds an entry when the list does. -/
abbrev Slab (α : Type) := List (Option α)

namespace Slab

variable {α : Type}

/-- The entry at a key. -/
def at? (s : Slab α) (k : Nat) : Option α := (s[k]?).join

/-- A key that `insert` may hand out: a vacant one, or the first past the end. -/
def Vacant (s : Slab α) (k : Nat) : Prop := k ≤ s.length ∧ s.at? k = none

/-- Put an entry at a key; past the end the table grows. -/
def put (s : Slab α) (k : Nat) (a : α) : Slab α :=
  if k < s.length then s.set k (some a) else s ++ [some a]

/-- Replace or remove the entry at a key. -/
def update (s : Slab α) (k : Nat) (o : Option α) : Slab α := s.set k o

/-- The number of entries. -/
def len (s : Slab α) : Nat := s.countP Option.isSome

/-- The number of entries that satisfy `p`. -/
def count (p : α → Bool) (s : Slab α) : Nat := s.countP fun o => o.any p

/-- The sum of a number for each entry. -/
def sumOf (f : α → Int) : Slab α → Int
  | [] => 0
  | some a :: s => f a + sumOf f s
  | none :: s => sumOf f s

/-- Change every entry in place. -/
def mapEntries (f : Nat → α → α) (s : Slab α) : Slab α := s.mapIdx fun k o => o.map (f k)

theorem at?_eq_some {s : Slab α} {k : Nat} {a : α} :
    s.at? k = some a ↔ s[k]? = some (some a) := by
  unfold at?
  cases s[k]? with
  | none => simp
  | some o => cases o <;> simp

/-- The entry at `k` is exchanged for `o`, and the count for what each weighs. -/
theorem count_update (p : α → Bool) {s : Slab α} {k : Nat} {a : α} (h : s.at? k = some a)
    (o : Option α) :
    count p (s.update k o) + (p a).toNat = count p s + (o.any p).toNat := by
  rw [at?_eq_some] at h
  obtain ⟨hk, hka⟩ := List.getElem?_eq_some_iff.mp h
  have hmem : (s[k].any p) = true → 0 < s.countP fun o => o.any p := by
    intro hp
    exact List.countP_pos_iff.mpr ⟨s[k], List.getElem_mem hk, hp⟩
  unfold count update
  rw [List.countP_set hk]
  rw [hka] at hmem ⊢
  simp only [Option.any_some] at hmem ⊢
  generalize List.countP (fun o => Option.any p o) s = n at hmem ⊢
  by_cases hpa : p a = true <;> by_cases hpo : o.any p = true <;>
    simp [hpa, hpo] at hmem ⊢ <;> omega

/-- A new entry is counted once. -/
theorem count_put (p : α → Bool) {s : Slab α} {k : Nat} (h : s.Vacant k) (a : α) :
    count p (s.put k a) = count p s + (p a).toNat := by
  obtain ⟨-, hnone⟩ := h
  unfold count put
  split
  · rename_i hk
    have hvac : s[k] = none := by
      unfold at? at hnone
      rw [List.getElem?_eq_getElem hk] at hnone
      simpa using hnone
    rw [List.countP_set hk, hvac]
    by_cases hpa : p a = true <;> simp [hpa]
  · by_cases hpa : p a = true <;> simp [hpa]

/-- Changes that `p` does not see leave the count. -/
theorem count_mapEntries {p : α → Bool} {f : Nat → α → α} (h : ∀ k a, p (f k a) = p a)
    (s : Slab α) : count p (s.mapEntries f) = count p s := by
  induction s generalizing f with
  | nil => rfl
  | cons o s ih =>
      have htail := ih fun k => h (k + 1)
      unfold count mapEntries at htail ⊢
      rw [List.mapIdx_cons, List.countP_cons, List.countP_cons, htail]
      cases o <;> simp [h]

theorem at?_update {s : Slab α} {k : Nat} {a : α} (h : s.at? k = some a) (o : Option α) :
    (s.update k o).at? k = o := by
  obtain ⟨hk, -⟩ := List.getElem?_eq_some_iff.mp (at?_eq_some.mp h)
  unfold at? update
  rw [List.getElem?_set_self hk]
  rfl

/-- The other entries stay. -/
theorem at?_update_ne {s : Slab α} {j k : Nat} (h : j ≠ k) (o : Option α) :
    (s.update k o).at? j = s.at? j := by
  unfold at? update
  rw [List.getElem?_set_ne (Ne.symm h)]

theorem at?_put {s : Slab α} {k : Nat} (h : s.Vacant k) (a : α) : (s.put k a).at? k = some a := by
  obtain ⟨hle, -⟩ := h
  unfold at? put
  split
  · rename_i hlt
    rw [List.getElem?_set_self hlt]
    rfl
  · have hk : k = s.length := by omega
    rw [hk, List.getElem?_concat_length]
    rfl

theorem at?_put_ne {s : Slab α} {j k : Nat} (h : s.Vacant k) (hj : j ≠ k) (a : α) :
    (s.put k a).at? j = s.at? j := by
  obtain ⟨hle, -⟩ := h
  unfold at? put
  split
  · rw [List.getElem?_set_ne (Ne.symm hj)]
  · rcases Nat.lt_or_ge j s.length with hlt | hge
    · rw [List.getElem?_append_left hlt]
    · rw [List.getElem?_eq_none (by rw [List.length_append, List.length_singleton]; omega),
        List.getElem?_eq_none hge]

theorem at?_mapEntries (f : Nat → α → α) (s : Slab α) (k : Nat) :
    (s.mapEntries f).at? k = (s.at? k).map (f k) := by
  unfold at? mapEntries
  rw [List.getElem?_mapIdx]
  cases s[k]? <;> rfl

/-- What holds of every entry, a new or changed one included. -/
theorem forall_update {P : α → Prop} {s : Slab α} {k : Nat} {o : Option α}
    (hs : ∀ a, some a ∈ s → P a) (ho : ∀ a, o = some a → P a) :
    ∀ a, some a ∈ s.update k o → P a := by
  intro a ha
  rcases List.mem_or_eq_of_mem_set ha with h | h
  · exact hs a h
  · exact ho a h.symm

theorem forall_put {P : α → Prop} {s : Slab α} {k : Nat} {b : α}
    (hs : ∀ a, some a ∈ s → P a) (hb : P b) : ∀ a, some a ∈ s.put k b → P a := by
  intro a ha
  unfold put at ha
  split at ha
  · rcases List.mem_or_eq_of_mem_set ha with h | h
    · exact hs a h
    · cases h; exact hb
  · rcases List.mem_append.mp ha with h | h
    · exact hs a h
    · simp only [List.mem_singleton, Option.some.injEq] at h
      subst h; exact hb

theorem forall_mapEntries {P : α → Prop} {f : Nat → α → α} {s : Slab α}
    (hs : ∀ k a, some a ∈ s → P (f k a)) : ∀ a, some a ∈ s.mapEntries f → P a := by
  intro a ha
  obtain ⟨k, hk, hka⟩ := List.mem_mapIdx.mp ha
  cases ho : s[k] with
  | none => rw [ho] at hka; cases hka
  | some b =>
      rw [ho] at hka
      simp only [Option.map_some, Option.some.injEq] at hka
      subst hka
      exact hs k b (ho ▸ List.getElem_mem hk)

/-- A sum over the entries that satisfy `p` is at most as many times the largest of them. -/
theorem sumOf_le {f : α → Int} {p : α → Bool} {bound : Int} {s : Slab α}
    (h : ∀ a, some a ∈ s → f a ≤ if p a then bound else 0) : sumOf f s ≤ count p s * bound := by
  induction s with
  | nil => simp [sumOf, count]
  | cons o s ih =>
      have hrest := ih fun a ha => h a (List.mem_cons_of_mem _ ha)
      cases o with
      | none =>
          have hcount : count p (none :: s) = count p s := by simp [count]
          rw [sumOf, hcount]
          exact hrest
      | some a =>
          have ha := h a List.mem_cons_self
          rw [sumOf]
          cases hp : p a with
          | false =>
              have hcount : count p (some a :: s) = count p s := by simp [count, hp]
              rw [hp] at ha
              simp only [Bool.false_eq_true, if_false] at ha
              rw [hcount]
              omega
          | true =>
              have hcount : count p (some a :: s) = count p s + 1 := by simp [count, hp]
              rw [hp] at ha
              simp only [if_true] at ha
              rw [hcount, Int.natCast_add, Int.add_mul]
              omega

theorem count_le_len (p : α → Bool) (s : Slab α) : count p s ≤ len s := by
  refine List.countP_mono_left ?_
  intro o _ ho
  cases o with
  | none => cases ho
  | some a => rfl

theorem count_pos {p : α → Bool} {s : Slab α} {a : α} (h : some a ∈ s) (hp : p a = true) :
    0 < count p s := List.countP_pos_iff.mpr ⟨some a, h, hp⟩

theorem len_eq_count (s : Slab α) : len s = count (fun _ => true) s := by
  refine List.countP_congr ?_
  intro o _
  cases o <;> simp

theorem len_put {s : Slab α} {k : Nat} (h : s.Vacant k) (a : α) : len (s.put k a) = len s + 1 := by
  rw [len_eq_count, len_eq_count, count_put _ h]
  rfl

theorem len_update {s : Slab α} {k : Nat} {a : α} (h : s.at? k = some a) (o : Option α) :
    len (s.update k o) ≤ len s := by
  have hcount := count_update (fun _ => true) h o
  have hone : (o.any fun _ => true).toNat ≤ 1 := Bool.toNat_le _
  rw [len_eq_count, len_eq_count]
  simp only [Bool.toNat_true] at hcount
  omega

theorem len_mapEntries (f : Nat → α → α) (s : Slab α) : len (s.mapEntries f) = len s := by
  rw [len_eq_count, len_eq_count]
  exact count_mapEntries (p := fun _ => true) (f := f) (fun _ _ => rfl) s

theorem mem_of_at? {s : Slab α} {k : Nat} {a : α} (h : s.at? k = some a) : some a ∈ s :=
  List.mem_of_getElem? (at?_eq_some.mp h)

end Slab
