/-
Cutting a list at a separator.

The parts of a list determine it, and a cut of the parts in two is a cut of the list at a
separator.  Text is cut at an ASCII character where its bytes are.

Programs cut text and put it together again in many ways, and compare with programs
that look for the separator in the bytes.  Here a cut is one function, `List.splitOn`
for characters and for bytes, and what is cut is got back from the parts: every
statement about parts is turned into one about where they stand.
-/
import Thttpd.Lib.Utf8

namespace Text

section

variable {α : Type} [DecidableEq α]

/-- A separator between two lists separates their parts. -/
theorem splitOn_append_sep (c : α) (u v : List α) :
    (u ++ c :: v).splitOn c = u.splitOn c ++ v.splitOn c :=
  List.splitOnP_append_cons u v (by simp)

/-- A separator in front begins with an empty part. -/
theorem splitOn_cons_sep (c : α) (s : List α) : (c :: s).splitOn c = [] :: s.splitOn c := by
  rw [List.splitOn_cons_eq_if_modifyHead, if_pos (by simp)]

/-- Anything else joins the first part. -/
theorem splitOn_cons_ne {c x : α} (hx : x ≠ c) {s h : List α} {t : List (List α)}
    (hs : s.splitOn c = h :: t) : (x :: s).splitOn c = (x :: h) :: t := by
  rw [List.splitOn_cons_eq_if_modifyHead, if_neg (by simp [hx]), hs]
  rfl

/-- The parts determine the list. -/
theorem splitOn_inj {c : α} {s s' : List α} : s.splitOn c = s'.splitOn c ↔ s = s' := by
  refine ⟨fun h => ?_, fun h => by rw [h]⟩
  have hs : [c].intercalate (s.splitOn c) = s := List.intercalate_splitOn c
  rw [← hs, h, List.intercalate_splitOn]

/-- There is always a first part. -/
theorem exists_splitOn (c : α) (s : List α) : ∃ h t, s.splitOn c = h :: t :=
  List.exists_cons_of_ne_nil (List.splitOn_ne_nil c s)

/-- The parts are made of items of the list. -/
theorem subset_of_mem_splitOn {c : α} {s part : List α} (h : part ∈ s.splitOn c) : part ⊆ s := by
  have hjoined : ∀ parts : List (List α), part ∈ parts → part ⊆ [c].intercalate parts := by
    intro parts
    induction parts with
    | nil => exact fun hp => absurd hp List.not_mem_nil
    | cons first rest ih =>
        intro hp
        cases rest with
        | nil =>
            rw [List.mem_singleton.mp hp]
            simp
        | cons r rest =>
            rw [List.intercalate_cons_cons]
            rcases List.mem_cons.mp hp with rfl | hp
            · exact fun x hx => List.mem_append_left _ (List.mem_append_left _ hx)
            · exact fun x hx => List.mem_append_right _ (ih hp hx)
  have hsub := hjoined _ h
  rwa [List.intercalate_splitOn] at hsub

/-- A list cut into one empty part is empty. -/
theorem splitOn_eq_nil {c : α} {s : List α} : s.splitOn c = [[]] ↔ s = [] := by
  rw [← List.splitOn_nil c, splitOn_inj]

/-- A list of one part is that part. -/
theorem eq_of_splitOn {c : α} {s a : List α} (h : s.splitOn c = [a]) : s = a := by
  have hs : [c].intercalate (s.splitOn c) = s := List.intercalate_splitOn c
  rw [← hs, h]
  simp

/-- The first part stands at the front. -/
theorem head?_of_splitOn {c d : α} {s h : List α} {t : List (List α)} (hs : s.splitOn c = h :: t)
    (hd : h.head? = some d) : s.head? = some d := by
  cases s with
  | nil =>
      cases hs
      cases hd
  | cons x s =>
      by_cases hx : x = c
      · rw [hx, splitOn_cons_sep] at hs
        cases hs
        cases hd
      · obtain ⟨h', t', hs'⟩ := exists_splitOn c s
        rw [splitOn_cons_ne hx hs'] at hs
        cases hs
        exact hd

/-- And what another one starts with stands after a separator. -/
theorem exists_drop_of_splitOn {c d : α} : ∀ {s h : List α} {t : List (List α)},
    s.splitOn c = h :: t → ∀ a ∈ t, a.head? = some d → ∃ i, [c, d] <+: s.drop i := by
  intro s
  induction s with
  | nil =>
      intro h t hs a ha
      cases hs
      cases ha
  | cons x s ih =>
      intro h t hs a ha hd
      obtain ⟨h', t', hs'⟩ := exists_splitOn c s
      have hlater : a ∈ t' → ∃ i, [c, d] <+: (x :: s).drop i := by
        intro ha
        obtain ⟨i, hi⟩ := ih hs' a ha hd
        exact ⟨i + 1, hi⟩
      by_cases hx : x = c
      · rw [hx, splitOn_cons_sep, hs'] at hs
        cases hs
        rcases List.mem_cons.mp ha with rfl | ha
        · obtain ⟨rest, hrest⟩ := List.head?_eq_some_iff.mp (head?_of_splitOn hs' hd)
          refine ⟨0, ?_⟩
          rw [List.drop_zero, hx, hrest]
          exact ⟨rest, rfl⟩
        · exact hlater ha
      · rw [splitOn_cons_ne hx hs'] at hs
        cases hs
        exact hlater ha

/-- Where the parts can be taken apart, the list can, at a separator. -/
theorem exists_append_of_splitOn {c : α} : ∀ {s : List α} {A B : List (List α)},
    s.splitOn c = A ++ B → A ≠ [] → B ≠ [] →
      ∃ a b, s = a ++ c :: b ∧ a.splitOn c = A ∧ b.splitOn c = B := by
  intro s
  induction s with
  | nil =>
      intro A B hs hA hB
      have hlen := congrArg List.length hs
      rw [List.length_append] at hlen
      have := List.length_pos_iff.mpr hA
      have := List.length_pos_iff.mpr hB
      simp at hlen
      omega
  | cons x s ih =>
      intro A B hs hA hB
      obtain ⟨p, A, rfl⟩ := List.exists_cons_of_ne_nil hA
      by_cases hx : x = c
      · rw [hx, splitOn_cons_sep, List.cons_append, List.cons.injEq] at hs
        obtain ⟨rfl, hs⟩ := hs
        cases A with
        | nil => exact ⟨[], s, by rw [hx]; rfl, rfl, hs⟩
        | cons q A =>
            obtain ⟨a, b, rfl, ha, hb⟩ := ih hs (List.cons_ne_nil q A) hB
            exact ⟨x :: a, b, rfl, by rw [hx, splitOn_cons_sep, ha], hb⟩
      · obtain ⟨h, t, ht⟩ := exists_splitOn c s
        rw [splitOn_cons_ne hx ht, List.cons_append, List.cons.injEq] at hs
        obtain ⟨rfl, rfl⟩ := hs
        obtain ⟨a, b, rfl, ha, hb⟩ := ih (A := h :: A) ht (List.cons_ne_nil h A) hB
        exact ⟨x :: a, b, rfl, splitOn_cons_ne hx ha, hb⟩

/-- A first part that is not the only one ends at a separator. -/
theorem eq_cons_of_splitOn {c : α} {s p : List α} {B : List (List α)} (hs : s.splitOn c = p :: B)
    (hB : B ≠ []) : ∃ b, s = p ++ c :: b ∧ b.splitOn c = B := by
  obtain ⟨a, b, rfl, ha, hb⟩ := exists_append_of_splitOn (A := [p]) hs (List.cons_ne_nil p []) hB
  rw [eq_of_splitOn ha]
  exact ⟨b, rfl, hb⟩

/-- A part between others stands between two separators. -/
theorem eq_between_of_splitOn {c : α} {s p : List α} {A B : List (List α)}
    (hs : s.splitOn c = A ++ p :: B) (hA : A ≠ []) (hB : B ≠ []) :
    ∃ a b, s = a ++ c :: (p ++ c :: b) ∧ a.splitOn c = A ∧ b.splitOn c = B := by
  obtain ⟨a, t, rfl, ha, ht⟩ := exists_append_of_splitOn hs hA (List.cons_ne_nil p B)
  obtain ⟨b, rfl, hb⟩ := eq_cons_of_splitOn ht hB
  exact ⟨a, b, rfl, ha, hb⟩

/-- What holds no separator goes to the first part. -/
theorem splitOn_append_of_notMem {c : α} {s : List α} (h : c ∉ s) (t : List α) :
    (s ++ t).splitOn c = (t.splitOn c).modifyHead (s ++ ·) := by
  induction s with
  | nil =>
      cases ht : t.splitOn c with
      | nil => exact absurd ht (List.splitOn_ne_nil c t)
      | cons x xs => simp [ht]
  | cons b s ih =>
      have hb : (b == c) = false := by
        rw [beq_eq_false_iff_ne]
        rintro rfl
        exact h List.mem_cons_self
      rw [List.cons_append, List.splitOn_cons_eq_if_modifyHead, hb, ih fun hmem =>
        h (List.mem_cons_of_mem b hmem), List.modifyHead_modifyHead]
      rfl

end

/-- An ASCII character is a byte of its own, so it may be looked for in the bytes. -/
theorem splitOn_asBytes {d : Char} (hd : d.toNat < 0x80) (s : Str) :
    (asBytes s).splitOn (UInt8.ofNat d.toNat) = (s.splitOn d).map asBytes := by
  have hbyte : (UInt8.ofNat d.toNat).toNat < 0x80 := by
    rw [UInt8.toNat_ofNat', Nat.mod_eq_of_lt (by omega)]
    exact hd
  have hchar : byteChar (UInt8.ofNat d.toNat) = d := by
    apply Char.toNat_inj.mp
    rw [byteChar_toNat, UInt8.toNat_ofNat', Nat.mod_eq_of_lt (by omega)]
  induction s with
  | nil => rfl
  | cons x s ih =>
      rw [asBytes_cons]
      by_cases hx : x = d
      · rw [hx, utf8EncodeChar_ascii hd, List.singleton_append, splitOn_cons_sep, splitOn_cons_sep, ih]
        rfl
      · have hnot : UInt8.ofNat d.toNat ∉ String.utf8EncodeChar x := by
          intro hmem
          have hin : UInt8.ofNat d.toNat ∈ asBytes [x] := by
            rw [asBytes_cons]
            exact List.mem_append_left _ hmem
          have hmem := byteChar_mem_of_asBytes hbyte hin
          rw [hchar, List.mem_singleton] at hmem
          exact hx hmem.symm
        obtain ⟨y, ys, hs⟩ := exists_splitOn d s
        rw [splitOn_append_of_notMem hnot, ih, splitOn_cons_ne hx hs, hs]
        simp [asBytes_cons]

end Text
