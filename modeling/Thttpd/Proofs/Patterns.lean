/-
What is kept of the pattern of a throttle rule, here and in the C server.

The C server takes one slash off a pattern and every slash that stands after a bar; this
one takes every slash off the front and one after each bar.  Cut at the bars, both do to
each alternative what they do to a pattern of its own, so they differ where an alternative
starts with two slashes and nowhere else.

The bytes of a pattern and its characters are cut the same way, since a slash and a
bar are ASCII. So the comparison is made over any alphabet, once, and then taken to
the two programs: the C server's over bytes, this one's over text.  What holds the
argument together is `others`, all that is no slash: neither program touches it, so
two patterns are the same when their slashes are.
-/
import Thttpd.Core.ThrottleFile
import Thttpd.Legacy.ThrottleFile
import Thttpd.Proofs.Glob
import Thttpd.Lib.Split
import Thttpd.Lib.Block

namespace Thttpd

open Text

/-! ### Slashes

Everything here is about one letter `c` and a bar that is another.  Cutting at the
bars turns the passes over the whole pattern into passes over each alternative, and
an alternative is left alone by both programs or differs by how many slashes it
loses.
-/

section

variable {α : Type} [DecidableEq α]

/-- One `c` less at the front. -/
def stripOne (c : α) : List α → List α
  | [] => []
  | x :: s => if x = c then s else x :: s

/-- All of them less. -/
def stripAll (c : α) (s : List α) : List α := s.dropWhile (· == c)

theorem stripAll_cons (c : α) (s : List α) : stripAll c (c :: s) = stripAll c s := by
  simp [stripAll]

/-- Nothing is taken off the front of what does not begin with one. -/
theorem stripAll_of_head {c : α} {s : List α} (h : s.head? ≠ some c) : stripAll c s = s := by
  cases s with
  | nil => rfl
  | cons x s =>
      have hx : x ≠ c := fun hx => h (by rw [hx]; rfl)
      simp [stripAll, hx]

/-- Taking all leaves none. -/
theorem head?_stripAll (c : α) (s : List α) : (stripAll c s).head? ≠ some c := by
  intro h
  have hne : stripAll c s ≠ [] := by
    intro hnil
    rw [hnil] at h
    cases h
  have hhead := List.head_dropWhile_not (· == c) hne
  rw [List.head?_eq_some_head hne] at h
  simp only [Option.some.injEq] at h
  rw [show (List.dropWhile (· == c) s).head hne = c from h] at hhead
  simp at hhead

/-- After one there is no other. -/
theorem head?_stripOne_iff {c : α} {s : List α} :
    (stripOne c s).head? ≠ some c ↔ ¬ [c, c] <+: s := by
  cases s with
  | nil => simp [stripOne]
  | cons x s =>
      by_cases hx : x = c
      · subst hx
        cases s with
        | nil => simp [stripOne]
        | cons y s =>
            rw [List.cons_prefix_cons, List.cons_prefix_cons]
            simp [stripOne, eq_comm]
      · rw [List.cons_prefix_cons]
        simp [stripOne, hx, Ne.symm hx]

/-- Taking one first makes no difference to taking all. -/
theorem stripAll_stripOne (c : α) (s : List α) : stripAll c (stripOne c s) = stripAll c s := by
  cases s with
  | nil => rfl
  | cons x s =>
      by_cases hx : x = c
      · subst hx
        simp [stripOne, stripAll_cons]
      · simp [stripOne, hx]

/-- Taking one is taking all exactly when there is no second. -/
theorem stripAll_eq_stripOne_iff {c : α} {s : List α} :
    stripAll c s = stripOne c s ↔ ¬ [c, c] <+: s := by
  rw [← head?_stripOne_iff, ← stripAll_stripOne]
  constructor
  · intro h
    rw [← h]
    exact head?_stripAll c _
  · exact stripAll_of_head

/-- Slashes at the front belong to the first alternative. -/
theorem splitOn_stripAll {c d : α} (hcd : d ≠ c) : ∀ {s h : List α} {t : List (List α)},
    s.splitOn c = h :: t → (stripAll d s).splitOn c = stripAll d h :: t := by
  intro s
  induction s with
  | nil =>
      intro h t hs
      cases hs
      rfl
  | cons x s ih =>
      intro h t hs
      by_cases hxc : x = c
      · subst hxc
        rw [splitOn_cons_sep] at hs
        cases hs
        rw [stripAll_of_head (by simpa using Ne.symm hcd), splitOn_cons_sep]
        rfl
      · obtain ⟨h', t', hs'⟩ := exists_splitOn c s
        rw [splitOn_cons_ne hxc hs'] at hs
        cases hs
        by_cases hxd : x = d
        · subst hxd
          rw [stripAll_cons, stripAll_cons]
          exact ih hs'
        · rw [stripAll_of_head (by simpa using hxd), stripAll_of_head (by simpa using hxd),
            splitOn_cons_ne hxc hs']

/-- The same for one. -/
theorem splitOn_stripOne {c d : α} (hcd : d ≠ c) {s h : List α} {t : List (List α)}
    (hs : s.splitOn c = h :: t) : (stripOne d s).splitOn c = stripOne d h :: t := by
  cases s with
  | nil =>
      cases hs
      rfl
  | cons x s =>
      by_cases hxc : x = c
      · subst hxc
        rw [splitOn_cons_sep] at hs
        cases hs
        simp [stripOne, Ne.symm hcd, splitOn_cons_sep]
      · obtain ⟨h', t', hs'⟩ := exists_splitOn c s
        rw [splitOn_cons_ne hxc hs'] at hs
        cases hs
        by_cases hxd : x = d
        · simp [stripOne, hxd, hs']
        · simp [stripOne, hxd, splitOn_cons_ne hxc hs']

/-- What is no slash. -/
def others (d : α) (s : List α) : List α := s.filter (· ≠ d)

theorem others_stripOne (d : α) (s : List α) : others d (stripOne d s) = others d s := by
  cases s with
  | nil => rfl
  | cons x s =>
      by_cases hx : x = d
      · simp [others, stripOne, hx]
      · simp [others, stripOne, hx]

theorem others_stripAll (d : α) (s : List α) : others d (stripAll d s) = others d s := by
  induction s with
  | nil => rfl
  | cons x s ih =>
      by_cases hx : x = d
      · subst hx
        rw [stripAll_cons, ih]
        simp [others]
      · rw [stripAll_of_head (by simpa using hx)]

theorem others_append (d : α) (s t : List α) : others d (s ++ t) = others d s ++ others d t :=
  List.filter_append s t

/-- What differs from nothing in slashes only starts with one. -/
theorem head_of_others {d : α} {t : List α} (h : others d t = []) (hne : t ≠ []) :
    ∃ t', t = d :: t' := by
  obtain ⟨x, t', rfl⟩ := List.exists_cons_of_ne_nil hne
  have hx := List.filter_eq_nil_iff.mp h x List.mem_cons_self
  exact ⟨t', by rw [show x = d by simpa using hx]⟩

/-- Cutting and leaving the slashes out can be done in either order. -/
theorem splitOn_others {c d : α} (hcd : d ≠ c) (s : List α) :
    (others d s).splitOn c = (s.splitOn c).map (others d) := by
  induction s with
  | nil => rfl
  | cons x s ih =>
      obtain ⟨h, t, hs⟩ := exists_splitOn c s
      rw [hs, List.map_cons] at ih
      by_cases hxc : x = c
      · subst hxc
        have hkeep : others d (x :: s) = x :: others d s := by simp [others, Ne.symm hcd]
        rw [hkeep, splitOn_cons_sep, splitOn_cons_sep, ih, hs]
        rfl
      · rw [splitOn_cons_ne hxc hs]
        by_cases hxd : x = d
        · have hdrop : ∀ l, others d (x :: l) = others d l := fun l => by simp [others, hxd]
          rw [hdrop, ih, List.map_cons, hdrop]
        · have hkeep : ∀ l, others d (x :: l) = x :: others d l := fun l => by simp [others, hxd]
          rw [hkeep, splitOn_cons_ne hxc ih, List.map_cons, hkeep]

end

/-- Replacing `|/` takes one slash off each alternative but the first. -/
theorem splitOn_replace : ∀ (n : Nat) {q h : Str} {t : List Str}, q.length ≤ n →
    q.splitOn '|' = h :: t →
    (replace "|/".toList "|".toList q).splitOn '|' = h :: t.map (stripOne '/') := by
  intro n
  induction n with
  | zero =>
      intro q h t hn hq
      rw [List.length_eq_zero_iff.mp (Nat.le_zero.mp hn)] at hq ⊢
      cases hq
      rfl
  | succ n ih =>
      intro q h t hn hq
      cases q with
      | nil =>
          cases hq
          rfl
      | cons c q =>
          rw [List.length_cons] at hn
          obtain ⟨h', t', hq'⟩ := exists_splitOn '|' q
          rw [replace_cons]
          by_cases hc : c = '|'
          · subst hc
            rw [splitOn_cons_sep, hq'] at hq
            cases hq
            by_cases hslash : q.head? = some '/'
            · obtain ⟨rest, rfl⟩ := List.head?_eq_some_iff.mp hslash
              obtain ⟨h'', t'', hrest⟩ := exists_splitOn '|' rest
              rw [splitOn_cons_ne (by decide) hrest] at hq'
              cases hq'
              rw [if_pos (by rfl)]
              show ('|' :: replace _ _ rest).splitOn '|' = _
              rw [splitOn_cons_sep, ih (by simp at hn; omega) hrest]
              rfl
            · have hnot : ¬ "|/".toList.isPrefixOf ('|' :: q) = true := by
                rw [List.isPrefixOf_iff_prefix]
                intro hpre
                obtain ⟨-, hpre⟩ := List.cons_prefix_cons.mp hpre
                obtain ⟨rest, rfl⟩ := hpre
                exact hslash rfl
              rw [if_neg hnot, splitOn_cons_sep, ih (by omega) hq', List.map_cons]
              have hkeep : stripOne '/' h' = h' := by
                cases h' with
                | nil => rfl
                | cons x h' =>
                    have hx : x ≠ '/' := fun hx => hslash (head?_of_splitOn hq' (by rw [hx]; rfl))
                    simp [stripOne, hx]
              rw [hkeep]
          · have hnot : ¬ "|/".toList.isPrefixOf (c :: q) = true := by
              rw [List.isPrefixOf_iff_prefix]
              exact fun hpre => hc (List.cons_prefix_cons.mp hpre).1.symm
            rw [splitOn_cons_ne hc hq'] at hq
            cases hq
            rw [if_neg hnot, splitOn_cons_ne hc (ih (by omega) hq')]

/-- The loop takes all slashes off them. -/
theorem splitOn_nukeBarSlash : ∀ (fuel : Nat) {p h : Bytes} {t : List Bytes}, p.length ≤ fuel →
    p.splitOn 124 = h :: t →
    (Legacy.nukeBarSlash fuel p).splitOn 124 = h :: t.map (stripAll 47) := by
  intro fuel
  induction fuel with
  | zero =>
      intro p h t hn hp
      rw [List.length_eq_zero_iff.mp (Nat.le_zero.mp hn)] at hp ⊢
      cases hp
      rfl
  | succ fuel ih =>
      intro p h t hn hp
      unfold Legacy.nukeBarSlash
      split
      · rename_i cp hcp
        obtain ⟨before, after, rfl, rfl, rest, rfl⟩ := findBytes_eq_some hcp
        have hshorter : (before ++ ([124, 47] ++ rest)).take (before.length + 1)
            ++ (before ++ ([124, 47] ++ rest)).drop (before.length + 2) = before ++ 124 :: rest := by
          simp [List.take_append, List.drop_append, List.take_of_length_le]
        rw [hshorter]
        obtain ⟨hb, tb, hbefore⟩ := exists_splitOn 124 before
        obtain ⟨hr, tr, hrest⟩ := exists_splitOn 124 rest
        have hp' : (before ++ 124 :: 47 :: rest).splitOn 124 = h :: t := hp
        rw [splitOn_append_sep, splitOn_cons_ne (by decide) hrest, hbefore] at hp'
        cases hp'
        have hlen : (before ++ 124 :: rest).length ≤ fuel := by
          simp at hn ⊢
          omega
        have hless : (before ++ 124 :: rest).splitOn 124 = h :: (tb ++ hr :: tr) := by
          rw [splitOn_append_sep, hbefore, hrest]
          rfl
        rw [ih hlen hless]
        simp [stripAll_cons]
      · rename_i hnone
        have hkeep : t.map (stripAll 47) = t.map id := by
          refine List.map_congr_left fun a ha => stripAll_of_head fun hhead => ?_
          obtain ⟨i, hi⟩ := exists_drop_of_splitOn hp a ha hhead
          exact findBytes_eq_none hnone i hi
        rw [hkeep, List.map_id, hp]

theorem splitOn_keptPattern {p h : Str} {t : List Str} (hp : p.splitOn '|' = h :: t) :
    (keptPattern p).splitOn '|' = stripAll '/' h :: t.map (stripOne '/') :=
  splitOn_replace _ (Nat.le_refl _) (splitOn_stripAll (by decide) hp)

theorem dropSlash_eq (s : Bytes) : Legacy.dropSlash s = stripOne 47 s := by
  cases s with
  | nil => rfl
  | cons x s =>
      by_cases hx : x = 47
      · simp [Legacy.dropSlash, stripOne, hx]
      · show Legacy.dropSlash (x :: s) = if x = 47 then s else x :: s
        rw [if_neg hx]
        unfold Legacy.dropSlash
        split
        · rename_i heq
          exact absurd (List.cons.inj heq).1 hx
        · rfl

theorem splitOn_storedPattern {p h : Bytes} {t : List Bytes} (hp : p.splitOn 124 = h :: t) :
    (Legacy.storedPattern p).splitOn 124 = stripOne 47 h :: t.map (stripAll 47) := by
  unfold Legacy.storedPattern
  rw [dropSlash_eq]
  exact splitOn_nukeBarSlash _ (Nat.le_refl _) (splitOn_stripOne (by decide) hp)

/-- Only slashes are lost of a pattern. -/
theorem others_keptPattern (p : Str) : others '/' (keptPattern p) = others '/' p := by
  obtain ⟨h, t, hp⟩ := exists_splitOn '|' p
  rw [← splitOn_inj (c := '|'), splitOn_others (by decide), splitOn_others (by decide),
    splitOn_keptPattern hp, hp]
  simp [others_stripAll, others_stripOne]

theorem others_storedPattern (p : Bytes) : others 47 (Legacy.storedPattern p) = others 47 p := by
  obtain ⟨h, t, hp⟩ := exists_splitOn 124 p
  rw [← splitOn_inj (c := 124), splitOn_others (by decide), splitOn_others (by decide),
    splitOn_storedPattern hp, hp]
  simp [others_stripAll, others_stripOne]

/-- Nothing is left in the C server of a bare slash. -/
theorem storedPattern_eq_nil {p : Bytes} : Legacy.storedPattern p = [] ↔ p = [] ∨ p = [47] := by
  constructor
  · intro h
    obtain ⟨a, t, hp⟩ := exists_splitOn 124 p
    rw [← splitOn_eq_nil (c := 124), splitOn_storedPattern hp] at h
    obtain ⟨ha, ht⟩ := List.cons.inj h
    rw [List.map_eq_nil_iff] at ht
    rw [eq_of_splitOn (hp.trans (by rw [ht]))]
    cases a with
    | nil => exact .inl rfl
    | cons x a =>
        by_cases hx : x = 47
        · simp only [stripOne, if_pos hx] at ha
          exact .inr (by rw [hx, ha])
        · simp [stripOne, hx] at ha
  · rintro (rfl | rfl)
    · rfl
    · rfl

/-- And here of slashes only. -/
theorem keptPattern_eq_nil {p : Str} : keptPattern p = [] ↔ ∀ c ∈ p, c = '/' := by
  have hall : stripAll '/' p = [] ↔ ∀ c ∈ p, c = '/' := by
    simp [stripAll, List.dropWhile_eq_nil_iff]
  rw [← hall]
  constructor
  · intro h
    obtain ⟨a, t, hp⟩ := exists_splitOn '|' p
    rw [← splitOn_eq_nil (c := '|'), splitOn_keptPattern hp] at h
    obtain ⟨ha, ht⟩ := List.cons.inj h
    rw [List.map_eq_nil_iff] at ht
    rw [eq_of_splitOn (hp.trans (by rw [ht]))]
    exact ha
  · intro h
    unfold keptPattern
    have h : p.dropWhile (· == '/') = [] := h
    rw [h]
    rfl

/-! ### Patterns

The texts of the file as each server reads them.  The C server keeps a pattern of a
single slash as the empty pattern, which is no rule, and so does this one with any
number of slashes.
-/

/-- A slash is a byte of its own. -/
theorem slash_sameClass : SameClass (· == 47) (· == '/') := SameClass.char (d := '/') (by decide)

theorem stripAll_asBytes (s : Str) : stripAll 47 (asBytes s) = asBytes (stripAll '/' s) :=
  slash_sameClass.dropWhile s

theorem stripOne_asBytes (s : Str) : stripOne 47 (asBytes s) = asBytes (stripOne '/' s) := by
  cases s with
  | nil => rfl
  | cons c s =>
      obtain ⟨b, bs, henc, hall⟩ := slash_sameClass.encode c
      by_cases hc : c = '/'
      · subst hc
        rfl
      · have hb : b ≠ 47 := by
          have := (hall b List.mem_cons_self).trans (beq_eq_false_iff_ne.mpr hc)
          simpa using this
        have hkeep : stripOne '/' (c :: s) = c :: s := by simp [stripOne, hc]
        rw [hkeep, asBytes_cons, henc, List.cons_append]
        simp [stripOne, hb]

theorem others_asBytes (s : Str) : others 47 (asBytes s) = asBytes (others '/' s) := by
  induction s with
  | nil => rfl
  | cons c s ih =>
      obtain ⟨b, bs, henc, hall⟩ := slash_sameClass.encode c
      rw [asBytes_cons, henc]
      by_cases hc : c = '/'
      · subst hc
        have hbs : others 47 (b :: bs) = [] := by
          refine List.filter_eq_nil_iff.mpr fun x hx => ?_
          simpa using hall x hx
        have hdrop : others '/' ('/' :: s) = others '/' s := by simp [others]
        rw [hdrop, ← ih]
        unfold others at hbs ⊢
        rw [List.filter_append, hbs, List.nil_append]
      · have hbs : others 47 (b :: bs) = b :: bs := by
          refine List.filter_eq_self.mpr fun x hx => ?_
          have := (hall x hx).trans (beq_eq_false_iff_ne.mpr hc)
          simpa using this
        have hkeep : others '/' (c :: s) = c :: others '/' s := by simp [others, hc]
        rw [hkeep, asBytes_cons, henc, ← ih]
        unfold others at hbs ⊢
        rw [List.filter_append, hbs]

/--
**The same pattern is kept, and no alternative of it starts with a slash, exactly
when none starts with two in the file.**

The source takes all slashes off the front of the pattern and one off each
alternative behind it, and for the C server it is the other way round.
-/
theorem keptPattern_agrees_iff (p : Str) :
    (asBytes (keptPattern p) = Legacy.storedPattern (asBytes p) ∧
      ∀ a ∈ (keptPattern p).splitOn '|', a.head? ≠ some '/') ↔
    ∀ a ∈ p.splitOn '|', ¬ ['/', '/'] <+: a := by
  obtain ⟨h, t, hp⟩ := exists_splitOn '|' p
  have hbytes : (asBytes p).splitOn 124 = asBytes h :: t.map asBytes := by
    rw [splitOn_bar_asBytes, hp]
    rfl
  have hsame : asBytes (keptPattern p) = Legacy.storedPattern (asBytes p) ↔
      stripAll '/' h = stripOne '/' h ∧ t.map (stripOne '/') = t.map (stripAll '/') := by
    rw [← splitOn_inj (c := 124), splitOn_bar_asBytes, splitOn_keptPattern hp,
      splitOn_storedPattern hbytes, List.map_cons, List.cons.injEq, stripOne_asBytes, asBytes_inj]
    refine and_congr_right fun _ => ?_
    have hmaps : (t.map asBytes).map (stripAll 47) = (t.map (stripAll '/')).map asBytes := by
      rw [List.map_map, List.map_map]
      exact List.map_congr_left fun s _ => stripAll_asBytes s
    rw [hmaps]
    exact (List.map_injective_iff.mpr fun _ _ => asBytes_inj.mp).eq_iff
  rw [hsame, splitOn_keptPattern hp, hp, stripAll_eq_stripOne_iff]
  simp only [List.forall_mem_cons, List.forall_mem_map, head?_stripOne_iff]
  constructor
  · rintro ⟨⟨hhead, -⟩, -, htail⟩
    exact ⟨hhead, htail⟩
  · rintro ⟨hhead, htail⟩
    refine ⟨⟨hhead, List.map_congr_left fun a ha => ?_⟩, head?_stripAll _ _, htail⟩
    exact (stripAll_eq_stripOne_iff.mpr (htail a ha)).symm

end Thttpd
