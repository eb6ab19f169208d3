/-
Finite maps in the order in which they are iterated, and sums over lists.

A hash map is a list of entries with distinct keys.  Its order is whatever the hash
function makes it, so a result about hash maps is one about every such list; where a
program builds a map of its own, `Hasher` stands for the order it comes out in.

What a program does with a map is looked at twice, by key and in order.  A look-up
does not depend on the order and an iteration does, so a statement about a map that
is iterated is one for every order of its entries.
-/
import Mathlib.Data.List.Nodup
import Mathlib.Data.List.Perm.Basic

/-- The entries of a finite map, in the order of its iterator. -/
structure Assoc (κ ν : Type) where
  entries : List (κ × ν)
  nodup : (entries.map Prod.fst).Nodup

namespace Assoc

variable {κ ν : Type} [DecidableEq κ]

/-- The keys, in the order of the entries. -/
def keys (m : Assoc κ ν) : List κ := m.entries.map Prod.fst

/-- The value at a key. -/
def get? (m : Assoc κ ν) (k : κ) : Option ν :=
  (m.entries.find? fun e => e.1 = k).map Prod.snd

/-- Whether there is one. -/
def contains (m : Assoc κ ν) (k : κ) : Bool := (m.get? k).isSome

/-- Change the value at `k`, if there is one. -/
def modify (m : Assoc κ ν) (k : κ) (f : ν → ν) : Assoc κ ν where
  entries := m.entries.map fun e => if e.1 = k then (e.1, f e.2) else e
  nodup := by
    have h : (m.entries.map fun e => if e.1 = k then (e.1, f e.2) else e).map Prod.fst =
        m.entries.map Prod.fst := by
      rw [List.map_map]
      refine List.map_congr_left fun e _ => ?_
      simp only [Function.comp]
      split <;> rfl
    rw [h]
    exact m.nodup

/-- The map of nothing. -/
def empty : Assoc κ ν := ⟨[], List.nodup_nil⟩

/-- Set the value at `k`; a new key comes last. -/
def insert (m : Assoc κ ν) (k : κ) (v : ν) : Assoc κ ν :=
  if h : k ∈ m.keys then m.modify k fun _ => v
  else ⟨m.entries ++ [(k, v)], by
    rw [List.map_append]
    exact List.nodup_append.mpr ⟨m.nodup, List.nodup_singleton k, fun a ha b hb hab => by
      obtain rfl := List.mem_singleton.mp hb
      exact h (hab ▸ ha)⟩⟩

/-- Some of the entries are a map too. -/
def part (m : Assoc κ ν) (l : List (κ × ν)) (h : l.Sublist m.entries) : Assoc κ ν :=
  ⟨l, m.nodup.sublist (h.map Prod.fst)⟩

/-! ### Looking up

A key occurs once, so a look-up and membership of an entry are the same thing.
-/

/-- What is looked up is an entry. -/
theorem get?_eq_some_iff {m : Assoc κ ν} {k : κ} {v : ν} :
    m.get? k = some v ↔ (k, v) ∈ m.entries := by
  obtain ⟨entries, hnd⟩ := m
  unfold get?
  induction entries with
  | nil => simp
  | cons e rest ih =>
      rw [List.map_cons, List.nodup_cons] at hnd
      rw [List.find?_cons]
      by_cases he : e.1 = k
      · have habsent : (k, v) ∉ rest := fun hmem =>
          hnd.1 (he ▸ List.mem_map_of_mem hmem)
        simp only [he, decide_true, Option.map_some, Option.some.injEq, List.mem_cons, habsent,
          or_false]
        exact ⟨fun h => Prod.ext he.symm h.symm, fun h => congrArg Prod.snd h.symm⟩
      · have hne : (k, v) ≠ e := fun h => he (congrArg Prod.fst h).symm
        simp only [he, decide_false, List.mem_cons, hne, false_or]
        exact ih hnd.2

theorem mem_keys_iff {m : Assoc κ ν} {k : κ} : k ∈ m.keys ↔ ∃ v, m.get? k = some v := by
  simp only [keys, List.mem_map, get?_eq_some_iff]
  constructor
  · rintro ⟨⟨k', v⟩, he, rfl⟩
    exact ⟨v, he⟩
  · rintro ⟨v, he⟩
    exact ⟨(k, v), he, rfl⟩

/-- A key is contained when it has a value. -/
theorem contains_iff {m : Assoc κ ν} {k : κ} : m.contains k = true ↔ k ∈ m.keys := by
  rw [contains, Option.isSome_iff_exists, mem_keys_iff]

theorem get?_eq_none_iff {m : Assoc κ ν} {k : κ} : m.get? k = none ↔ k ∉ m.keys := by
  rw [mem_keys_iff, ← Option.isSome_iff_exists, Bool.not_eq_true, Option.isSome_eq_false_iff,
    Option.isNone_iff_eq_none]

/-- The order of the entries does not matter to a look-up. -/
theorem get?_of_perm {m m' : Assoc κ ν} (h : m.entries.Perm m'.entries) (k : κ) :
    m.get? k = m'.get? k := by
  refine Option.ext fun v => ?_
  rw [get?_eq_some_iff, get?_eq_some_iff, h.mem_iff]

/-- Changing a value changes no key. -/
theorem keys_modify (m : Assoc κ ν) (k : κ) (f : ν → ν) : (m.modify k f).keys = m.keys := by
  unfold keys modify
  rw [List.map_map]
  refine List.map_congr_left fun e _ => ?_
  simp only [Function.comp]
  split <;> rfl

/-- And no other value. -/
theorem get?_modify (m : Assoc κ ν) (k k' : κ) (f : ν → ν) :
    (m.modify k f).get? k' = if k' = k then (m.get? k').map f else m.get? k' := by
  simp only [get?, modify]
  induction m.entries with
  | nil => simp
  | cons e rest ih =>
      simp only [List.map_cons, List.find?_cons]
      by_cases hek : e.1 = k
      · by_cases hek' : e.1 = k'
        · simp [hek, hek'.symm.trans hek]
        · simp only [hek, if_true]
          rw [hek] at hek'
          simpa [hek'] using ih
      · by_cases hek' : e.1 = k'
        · have hne : k' ≠ k := fun h => hek (hek'.trans h)
          simp [hek', hne]
        · simpa [hek, hek'] using ih

theorem entries_insert_of_not_mem {m : Assoc κ ν} {k : κ} (v : ν) (h : k ∉ m.keys) :
    (m.insert k v).entries = m.entries ++ [(k, v)] := by
  unfold insert
  rw [dif_neg h]

/-- A new key has its value, and the others keep theirs. -/
theorem get?_insert_of_not_mem {m : Assoc κ ν} {k : κ} (v : ν) (h : k ∉ m.keys) (k' : κ) :
    (m.insert k v).get? k' = if k' = k then some v else m.get? k' := by
  have hnone := get?_eq_none_iff.mpr h
  unfold get? at hnone ⊢
  rw [entries_insert_of_not_mem v h, List.find?_append]
  by_cases hk : k' = k
  · subst hk
    rw [Option.map_eq_none_iff.mp hnone]
    simp
  · rw [if_neg hk]
    have hlast : [(k, v)].find? (fun e => decide (e.1 = k')) = none := by
      simpa using fun h : k = k' => hk h.symm
    rw [hlast, Option.or_none]

/-- What is looked up in a part was in the whole. -/
theorem get?_part_iff {m : Assoc κ ν} {p : κ × ν → Bool} {k : κ} {v : ν} :
    (m.part (m.entries.filter p) List.filter_sublist).get? k = some v ↔
      m.get? k = some v ∧ p (k, v) = true := by
  rw [get?_eq_some_iff, get?_eq_some_iff]
  exact List.mem_filter

/-- Writing every entry of a map into a store, one after the other. -/
theorem get_foldl {σ μ : Type} (get : σ → κ → Option ν) (put : σ → κ × μ → σ) (g : μ → ν → ν)
    (hput : ∀ s e k, get (put s e) k = if k = e.1 then (get s k).map (g e.2) else get s k)
    (w : Assoc κ μ) (s : σ) (k : κ) :
    get (w.entries.foldl put s) k =
      (w.get? k).elim (get s k) fun x => (get s k).map (g x) := by
  obtain ⟨entries, hnd⟩ := w
  unfold get?
  induction entries generalizing s with
  | nil => rfl
  | cons e rest ih =>
      rw [List.map_cons, List.nodup_cons] at hnd
      rw [List.foldl_cons, List.find?_cons, ih (put s e) hnd.2, hput]
      by_cases hk : e.1 = k
      · -- No later entry has the same key.
        have hnone : rest.find? (fun e => e.1 = k) = none := by
          rw [List.find?_eq_none]
          intro f hf hfk
          exact hnd.1 (hk ▸ of_decide_eq_true hfk ▸ List.mem_map_of_mem hf)
        simp [hnone, hk]
      · have hk' : k ≠ e.1 := fun h => hk h.symm
        simp [hk, hk']

end Assoc

/-- A way in which hash maps order their entries. -/
structure Hasher (κ ν : Type) where
  order : Assoc κ ν → Assoc κ ν
  perm : ∀ m, (order m).entries.Perm m.entries

/-! ### Sums

Sums of weights, as programs make them by a fold in machine arithmetic.
-/

namespace Tally

/-- The sum of `f` over a list. -/
def total {α : Type} (f : α → Nat) : List α → Nat
  | [] => 0
  | a :: rest => f a + total f rest

section

variable {α β : Type} {f g : α → Nat}

theorem total_cons (a : α) (l : List α) : total f (a :: l) = f a + total f l := rfl

theorem total_perm {l l' : List α} (h : l.Perm l') : total f l = total f l' := by
  induction h with
  | nil => rfl
  | cons a _ ih => simp [total_cons, ih]
  | swap a b l => simp only [total_cons]; omega
  | trans _ _ ih ih' => exact ih.trans ih'

theorem total_map (h : β → α) (l : List β) : total f (l.map h) = total (fun b => f (h b)) l := by
  induction l with
  | nil => rfl
  | cons b rest ih => simp [total_cons, ih]

theorem total_congr {l : List α} (h : ∀ a ∈ l, f a = g a) : total f l = total g l := by
  induction l with
  | nil => rfl
  | cons a rest ih =>
      simp only [total_cons]
      rw [h a (by simp), ih fun b hb => h b (by simp [hb])]

theorem le_total_of_mem {l : List α} {a : α} (h : a ∈ l) : f a ≤ total f l := by
  induction l with
  | nil => cases h
  | cons b rest ih =>
      simp only [total_cons]
      rcases List.mem_cons.mp h with rfl | h
      · exact Nat.le_add_right _ _
      · exact Nat.le_trans (ih h) (Nat.le_add_left _ _)

/-- A sum of natural numbers is positive when one of them is. -/
theorem total_pos_iff {l : List α} : 0 < total f l ↔ ∃ a ∈ l, 0 < f a := by
  constructor
  · intro h
    induction l with
    | nil => cases h
    | cons b rest ih =>
        simp only [total_cons] at h
        by_cases hb : 0 < f b
        · exact ⟨b, by simp, hb⟩
        · obtain ⟨a, ha, hfa⟩ := ih (by omega)
          exact ⟨a, by simp [ha], hfa⟩
  · rintro ⟨a, ha, hfa⟩
    exact Nat.lt_of_lt_of_le hfa (le_total_of_mem ha)

/-- A part of the list adds up to no more. -/
theorem total_sublist {l l' : List α} (h : l.Sublist l') : total f l ≤ total f l' := by
  induction h with
  | slnil => exact Nat.le_refl _
  | cons a _ ih => exact Nat.le_trans ih (Nat.le_add_left _ _)
  | cons_cons a _ ih => exact Nat.add_le_add_left ih _

/-- What is filtered out adds nothing, if it is zero. -/
theorem total_filter {l : List α} {keep : α → Bool} (h : ∀ a ∈ l, keep a = false → f a = 0) :
    total f (l.filter keep) = total f l := by
  induction l with
  | nil => rfl
  | cons a rest ih =>
      have ih' := ih fun b hb => h b (by simp [hb])
      cases hk : keep a with
      | true => simp [hk, total_cons, ih']
      | false => simp [hk, total_cons, ih', h a (by simp) hk]

/-- A sum in machine arithmetic is the sum, wrapped. -/
theorem foldl_wrap (m : Nat) (l : List α) (acc : Nat) :
    l.foldl (fun acc a => (acc + f a) % m) (acc % m) = (acc + total f l) % m := by
  induction l generalizing acc with
  | nil => rfl
  | cons a rest ih =>
      rw [List.foldl_cons, Nat.mod_add_mod, ih]
      simp [total_cons, Nat.add_assoc]

end

end Tally
