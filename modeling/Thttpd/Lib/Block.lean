/-
Blocks of lines with an empty line at the end.

Each line of a block is ended by a carriage return and a line feed and the block by an
empty line, as the head of an HTTP message is.  If no line is empty or holds a line end
of its own, the empty line is found nowhere but at the end, so a reader that looks for
it takes the block off whatever follows.

Most of the file is about the search, which goes through the bytes from the front
and knows nothing of lines.  A search that passes over a part of the bytes can be
continued behind it (`findBytes_skip`, `findBytes_append_of_none`), and a block is
passed over line by line.
-/
import Thttpd.Lib.Text

namespace Text

/-! ### Searching for bytes

A needle is found at a place when it stands there and at no place before.  What is
found stays found when more bytes come; what is not found may be found across the
seam, unless the needle has a byte that the first part does not.
-/

/-- What begins with a byte is first found where that byte first is. -/
theorem findBytes_of_notMem {c : UInt8} {a : Bytes} (h : c ∉ a) (needle b : Bytes) :
    findBytes (c :: needle) (a ++ c :: (needle ++ b)) = some a.length := by
  induction a with
  | nil => simp [findBytes]
  | cons x a ih =>
      have hne : c ≠ x := fun heq => h (by simp [heq])
      rw [List.cons_append, findBytes, ih fun hmem => h (List.mem_cons_of_mem x hmem)]
      simp [List.isPrefixOf, hne]

/-- A byte the needle does not begin with is passed over. -/
theorem findBytes_cons {c b : UInt8} (h : c ≠ b) (needle bs : Bytes) :
    findBytes (c :: needle) (b :: bs) = (findBytes (c :: needle) bs).map (· + 1) := by
  rw [findBytes]
  simp [List.isPrefixOf, h]

/-- A part without the needle's first byte is passed over. -/
theorem findBytes_append {c : UInt8} {a : Bytes} (h : c ∉ a) (needle bs : Bytes) :
    findBytes (c :: needle) (a ++ bs) = (findBytes (c :: needle) bs).map (· + a.length) := by
  induction a with
  | nil => simp
  | cons x a ih =>
      have hne : c ≠ x := fun heq => h (by simp [heq])
      rw [List.cons_append, findBytes_cons hne, ih fun hmem => h (List.mem_cons_of_mem x hmem),
        Option.map_map]
      congr 1

/-- What stands at the front is found there. -/
theorem findBytes_of_isPrefix {needle bs : Bytes} (h : needle <+: bs) : findBytes needle bs = some 0 := by
  cases bs with
  | nil => rw [findBytes, if_pos (List.prefix_nil.mp h)]
  | cons b bs => rw [findBytes, if_pos (List.isPrefixOf_iff_prefix.mpr h)]

/-- Where nothing begins before it, the search goes on from there. -/
theorem findBytes_skip {needle before after : Bytes}
    (hfirst : ∀ x y, before = x ++ y → y ≠ [] → ¬ needle <+: y ++ after) :
    findBytes needle (before ++ after) = (findBytes needle after).map (· + before.length) := by
  induction before with
  | nil => simp
  | cons b before ih =>
      have hb := hfirst [] (b :: before) rfl (List.cons_ne_nil b before)
      rw [List.cons_append] at hb ⊢
      rw [findBytes, if_neg fun hp => hb (List.isPrefixOf_iff_prefix.mp hp),
        ih fun x y hxy hy => hfirst (b :: x) y (congrArg (b :: ·) hxy) hy, Option.map_map]
      congr 1

/-- Where something is first found, from what stands before it. -/
theorem findBytes_of_first {needle before after : Bytes} (h : needle <+: after)
    (hfirst : ∀ x y, before = x ++ y → y ≠ [] → ¬ needle <+: y ++ after) :
    findBytes needle (before ++ after) = some before.length := by
  rw [findBytes_skip hfirst, findBytes_of_isPrefix h]
  exact congrArg some (Nat.zero_add before.length)

theorem findBytes_eq_some {needle : Bytes} : ∀ {bs : Bytes} {pos : Nat},
    findBytes needle bs = some pos →
      ∃ before after, bs = before ++ after ∧ before.length = pos ∧ needle <+: after := by
  intro bs
  induction bs with
  | nil =>
      intro pos h
      unfold findBytes at h
      split at h
      · rename_i hnil
        cases h
        exact ⟨[], [], rfl, rfl, hnil ▸ List.nil_prefix⟩
      · cases h
  | cons b bs ih =>
      intro pos h
      rw [findBytes] at h
      split at h
      · rename_i hb
        cases h
        exact ⟨[], b :: bs, rfl, rfl, List.isPrefixOf_iff_prefix.mp hb⟩
      · obtain ⟨pos, hpos, rfl⟩ := Option.map_eq_some_iff.mp h
        obtain ⟨before, after, rfl, rfl, hafter⟩ := ih hpos
        exact ⟨b :: before, after, rfl, rfl, hafter⟩

/-- Nothing is found before the first place. -/
theorem findBytes_le {needle : Bytes} : ∀ {bs : Bytes} {pos i : Nat},
    findBytes needle bs = some pos → needle <+: bs.drop i → pos ≤ i := by
  intro bs
  induction bs with
  | nil =>
      intro pos i h _
      unfold findBytes at h
      split at h
      · cases h
        exact Nat.zero_le i
      · cases h
  | cons b bs ih =>
      intro pos i h hi
      rw [findBytes] at h
      split at h
      · cases h
        exact Nat.zero_le i
      · rename_i hnot
        obtain ⟨pos, hpos, rfl⟩ := Option.map_eq_some_iff.mp h
        cases i with
        | zero => exact absurd (List.isPrefixOf_iff_prefix.mpr hi) hnot
        | succ i => exact Nat.succ_le_succ (ih hpos hi)

/-- What is not found is nowhere. -/
theorem findBytes_eq_none {needle : Bytes} : ∀ {bs : Bytes}, findBytes needle bs = none →
    ∀ i, ¬ needle <+: bs.drop i := by
  intro bs
  induction bs with
  | nil =>
      intro h i hi
      rw [findBytes] at h
      split at h
      · cases h
      · rename_i hne
        rw [List.drop_nil] at hi
        exact hne (List.prefix_nil.mp hi)
  | cons b bs ih =>
      intro h i hi
      rw [findBytes] at h
      split at h
      · cases h
      · rename_i hnot
        cases i with
        | zero => exact hnot (List.isPrefixOf_iff_prefix.mpr hi)
        | succ i => exact ih (Option.map_eq_none_iff.mp h) i hi

/-- What is found is found whatever follows. -/
theorem findBytes_append_of_some {needle s : Bytes} {pos : Nat} (h : findBytes needle s = some pos)
    (r : Bytes) : findBytes needle (s ++ r) = some pos := by
  induction s generalizing pos with
  | nil =>
      unfold findBytes at h
      split at h
      · rename_i hnil
        cases h
        rw [hnil]
        exact findBytes_of_isPrefix List.nil_prefix
      · cases h
  | cons b s ih =>
      rw [findBytes] at h
      rw [List.cons_append, findBytes]
      split at h
      · rename_i hb
        cases h
        have hprefix := (List.isPrefixOf_iff_prefix.mp hb).trans (List.prefix_append (b :: s) r)
        exact if_pos (List.isPrefixOf_iff_prefix.mpr hprefix)
      · rename_i hnot
        obtain ⟨pos, hpos, rfl⟩ := Option.map_eq_some_iff.mp h
        split
        · rename_i hb
          -- the place is before the one found, so it lies within
          have hprefix := List.isPrefixOf_iff_prefix.mp hb
          obtain ⟨before, after, hs, -, hafter⟩ := findBytes_eq_some hpos
          have hlen : needle.length ≤ (b :: s).length := by
            rw [hs, List.length_cons, List.length_append]
            have := hafter.length_le
            omega
          have hin : needle <+: b :: s :=
            List.prefix_of_prefix_length_le hprefix (List.prefix_append (b :: s) r) hlen
          exact absurd (List.isPrefixOf_iff_prefix.mpr hin) hnot
        · rw [ih hpos]
          rfl

/-- What is not found before a byte it does not hold is found after it. -/
theorem findBytes_append_of_none {needle s : Bytes} {b : UInt8} (hb : b ∉ needle)
    (h : findBytes needle s = none) (r : Bytes) :
    findBytes needle (s ++ b :: r) = (findBytes needle (b :: r)).map (· + s.length) := by
  induction s with
  | nil => simp
  | cons c s ih =>
      rw [findBytes] at h
      split at h
      · cases h
      rename_i hnot
      have hskip : ¬ needle.isPrefixOf (c :: (s ++ b :: r)) = true := by
        intro hp
        obtain ⟨rest, hrest⟩ := List.isPrefixOf_iff_prefix.mp hp
        rcases Nat.lt_or_ge (c :: s).length needle.length with hlt | hge
        · have hget := congrArg (fun l => l[(c :: s).length]?) hrest
          rw [← List.cons_append] at hget
          simp only [List.getElem?_append_left hlt, List.getElem?_append_right (Nat.le_refl _),
            Nat.sub_self] at hget
          exact hb (List.mem_of_getElem? hget)
        · have hin : needle <+: c :: s :=
            List.prefix_of_prefix_length_le ⟨rest, hrest⟩ (List.prefix_append (c :: s) (b :: r)) hge
          exact hnot (List.isPrefixOf_iff_prefix.mpr hin)
      rw [List.cons_append, findBytes, if_neg hskip, ih (Option.map_eq_none_iff.mp h),
        Option.map_map]
      congr 1

/-! ### Lines

A line is some bytes without a line end.  Of a block of lines it is shown where its
end is found, and then that one line may be anything at all, as long as it holds no
empty line itself.
-/

/-- The empty line that ends a block, with the end of the line before it. -/
def blankLine : Bytes := [13, 10, 13, 10]

/-- Bytes of a line: some, and no line end among them. -/
structure IsLine (l : Bytes) : Prop where
  nonempty : l ≠ []
  noCr : (13 : UInt8) ∉ l
  noLf : (10 : UInt8) ∉ l

/-- The lines, each with its end, and the empty line. -/
def block (lines : List Bytes) : Bytes := lines.flatMap (· ++ [13, 10]) ++ [13, 10]

/-- A block of one line more. -/
theorem block_cons (l : Bytes) (ls : List Bytes) :
    block (l :: ls) = l ++ 13 :: 10 :: block ls := by
  simp [block]

/-- A block of at least one line ends with the blank line. -/
theorem blankLine_suffix {lines : List Bytes} (hne : lines ≠ []) : blankLine <:+ block lines := by
  induction lines with
  | nil => exact absurd rfl hne
  | cons l ls ih =>
      rw [block_cons]
      cases ls with
      | nil => exact List.suffix_append l blankLine
      | cons l' ls =>
          have hrest := ih (List.cons_ne_nil l' ls)
          exact (hrest.trans (List.suffix_append [13, 10] _)).trans (List.suffix_append l _)

/-- Every carriage return is followed by a line feed. -/
def CrLfOnly (bs : Bytes) : Prop := ∀ i : Nat, bs[i]? = some 13 → bs[i + 1]? = some 10

theorem CrLfOnly.crlf {bs : Bytes} (h : CrLfOnly bs) : CrLfOnly (13 :: 10 :: bs) := by
  intro i hi
  match i with
  | 0 => rfl
  | 1 => simp at hi
  | i + 2 => exact h i hi

theorem CrLfOnly.append {a bs : Bytes} (ha : (13 : UInt8) ∉ a) (h : CrLfOnly bs) :
    CrLfOnly (a ++ bs) := by
  intro i hi
  rcases Nat.lt_or_ge i a.length with hlt | hge
  · rw [List.getElem?_append_left hlt] at hi
    exact absurd (List.mem_of_getElem? hi) ha
  · rw [List.getElem?_append_right hge] at hi
    rw [List.getElem?_append_right (by omega), Nat.sub_add_comm hge]
    exact h _ hi

theorem block_crLfOnly {lines : List Bytes} (h : ∀ l ∈ lines, IsLine l) :
    CrLfOnly (block lines) := by
  induction lines with
  | nil =>
      have hnil : CrLfOnly [] := by
        intro i hi
        simp at hi
      exact hnil.crlf
  | cons l ls ih =>
      rw [block_cons]
      exact (ih fun m hm => h m (List.mem_cons_of_mem l hm)).crlf.append (h l List.mem_cons_self).noCr

/-- A line that another follows does not end the block. -/
theorem findBytes_line {l rest : Bytes} (hl : (13 : UInt8) ∉ l) (hrest : rest.head? ≠ some 13) :
    findBytes blankLine (l ++ 13 :: 10 :: rest)
      = (findBytes blankLine rest).map (· + (l.length + 2)) := by
  have hskip : findBytes blankLine (13 :: 10 :: rest) = (findBytes blankLine rest).map (· + 2) := by
    have hnot : blankLine.isPrefixOf (13 :: 10 :: rest) = false := by
      cases rest with
      | nil => rfl
      | cons b bs =>
          have hb : (13 : UInt8) ≠ b := fun heq => hrest (by simp [heq])
          simp [blankLine, List.isPrefixOf, hb]
    unfold blankLine at hnot ⊢
    rw [findBytes, hnot, findBytes_cons (by decide), if_neg (by simp), Option.map_map]
    rfl
  unfold blankLine at hskip ⊢
  rw [findBytes_append hl, hskip, Option.map_map]
  congr 1
  funext n
  simp only [Function.comp_apply]
  omega

/-- **The first empty line of a block is its end**, whatever follows. -/
theorem findBytes_block {lines : List Bytes} (hne : lines ≠ []) (h : ∀ l ∈ lines, IsLine l)
    (body : Bytes) :
    findBytes blankLine (block lines ++ body) = some ((block lines).length - 4) := by
  obtain ⟨l, ls, rfl⟩ := List.exists_cons_of_ne_nil hne
  clear hne
  induction ls generalizing l with
  | nil =>
      have hl := h l List.mem_cons_self
      have hcut : block [l] ++ body = l ++ 13 :: ([10, 13, 10] ++ body) := by simp [block]
      have hlen : (block [l]).length = l.length + 4 := by simp [block]
      rw [hcut, hlen, Nat.add_sub_cancel]
      exact findBytes_of_notMem hl.noCr _ _
  | cons m ms ih =>
      have hl := h l List.mem_cons_self
      have hm := h m (List.mem_cons_of_mem l List.mem_cons_self)
      have htail := ih m fun x hx => h x (List.mem_cons_of_mem l hx)
      have hhead : (block (m :: ms) ++ body).head? ≠ some 13 := by
        obtain ⟨b, bs, rfl⟩ := List.exists_cons_of_ne_nil hm.nonempty
        have hb : b ≠ 13 := fun heq => hm.noCr (by simp [heq])
        simpa [block] using hb
      have hlen : 4 ≤ (block (m :: ms)).length := by
        rw [block_cons]
        simp only [block, List.length_append, List.length_cons, List.length_nil]
        omega
      rw [block_cons, List.append_assoc, List.cons_append, List.cons_append,
        findBytes_line hl.noCr hhead, htail, Option.map_some]
      congr 1
      simp only [List.length_append, List.length_cons]
      omega

/-- The empty line stands at the end of a block and nowhere else. -/
theorem blankLine_at_end {lines : List Bytes} (hne : lines ≠ []) (h : ∀ l ∈ lines, IsLine l) {i : Nat}
    (hi : blankLine <+: (block lines).drop i) : i + 4 = (block lines).length := by
  have hfirst := findBytes_block hne h []
  rw [List.append_nil] at hfirst
  have hle := findBytes_le hfirst hi
  have hlen := hi.length_le
  rw [List.length_drop] at hlen
  have hfour : blankLine.length = 4 := rfl
  omega

/-- A line that may hold anything. -/
theorem findBytes_block_tail {pre t : Bytes} {after : List Bytes} (hpre : IsLine pre)
    (hne : after ≠ []) (hafter : ∀ l ∈ after, IsLine l) :
    findBytes blankLine (block ((pre ++ t) :: after)) =
        some ((block ((pre ++ t) :: after)).length - 4) ↔
      findBytes blankLine (t ++ [13, 10]) = none := by
  have hfour := (blankLine_suffix hne).length_le
  have hblank : blankLine.length = 4 := rfl
  have hcut : block ((pre ++ t) :: after) = pre ++ ((t ++ [13, 10]) ++ block after) := by
    simp [block_cons]
  have hshift := findBytes_append hpre.noCr [10, 13, 10] ((t ++ [13, 10]) ++ block after)
  rw [← hcut] at hshift
  have hlen : (block ((pre ++ t) :: after)).length =
      pre.length + (t.length + 2 + (block after).length) := by
    rw [hcut]
    simp only [List.length_append, List.length_cons, List.length_nil]
  unfold blankLine at *
  rw [hshift, hlen]
  cases hfind : findBytes [13, 10, 13, 10] (t ++ [13, 10]) with
  | some pos =>
      obtain ⟨before, rest, hbytes, hpos, hrest⟩ := findBytes_eq_some hfind
      have hbound := congrArg List.length hbytes
      have hfits := hrest.length_le
      rw [List.length_append, List.length_append] at hbound
      simp only [List.length_cons, List.length_nil] at hbound hfits
      rw [findBytes_append_of_some hfind, Option.map_some, Option.some.injEq]
      simp only [List.length_cons, List.length_nil] at hfour
      constructor
      · intro heq
        omega
      · intro heq
        cases heq
  | none =>
      obtain ⟨l, ls, rfl⟩ := List.exists_cons_of_ne_nil hne
      have hl := hafter l List.mem_cons_self
      obtain ⟨b, bs, rfl⟩ := List.exists_cons_of_ne_nil hl.nonempty
      have hb : b ∉ [13, 10, 13, 10] := by
        have hcr : b ≠ 13 := fun heq => hl.noCr (by simp [heq])
        have hlf : b ≠ 10 := fun heq => hl.noLf (by simp [heq])
        simp [hcr, hlf]
      have hend := findBytes_block hne hafter []
      unfold blankLine at hend
      rw [List.append_nil] at hend
      have hhead : block ((b :: bs) :: ls) = b :: (bs ++ 13 :: 10 :: block ls) := by
        simp [block_cons]
      rw [hhead] at hend hfour ⊢
      rw [findBytes_append_of_none hb hfind, hend, Option.map_some, Option.map_some,
        Option.some.injEq]
      simp only [List.length_append, List.length_cons, List.length_nil] at hfour ⊢
      rw [iff_true]
      omega

/--
**The first empty line of a block in which one line may hold anything** is its end
just where that line, with its end, holds none.
-/
theorem findBytes_block_line {before after : List Bytes} {pre t : Bytes}
    (hbefore : ∀ l ∈ before, IsLine l) (hpre : IsLine pre) (hne : after ≠ [])
    (hafter : ∀ l ∈ after, IsLine l) :
    findBytes blankLine (block (before ++ (pre ++ t) :: after)) =
        some ((block (before ++ (pre ++ t) :: after)).length - 4) ↔
      findBytes blankLine (t ++ [13, 10]) = none := by
  induction before with
  | nil => exact findBytes_block_tail hpre hne hafter
  | cons l before ih =>
      have hl := hbefore l List.mem_cons_self
      have hrest := ih fun x hx => hbefore x (List.mem_cons_of_mem l hx)
      have hhead : (block (before ++ (pre ++ t) :: after)).head? ≠ some 13 := by
        have hfirst : ∀ {x : Bytes}, IsLine x →
            ∀ y xs, (block ((x ++ y) :: xs)).head? ≠ some 13 := by
          intro x hx y xs
          obtain ⟨b, bs, rfl⟩ := List.exists_cons_of_ne_nil hx.nonempty
          have hb : b ≠ 13 := fun heq => hx.noCr (by simp [heq])
          simpa [block] using hb
        cases before with
        | nil => exact hfirst hpre t after
        | cons m ms =>
            have hm := hfirst (hbefore m (List.mem_cons_of_mem l List.mem_cons_self)) []
              (ms ++ (pre ++ t) :: after)
            rwa [List.append_nil] at hm
      have hlines : before ++ (pre ++ t) :: after ≠ [] := by simp
      have hfour := (blankLine_suffix hlines).length_le
      have hblank : blankLine.length = 4 := rfl
      rw [← hrest, List.cons_append, block_cons, findBytes_line hl.noCr hhead,
        Option.map_eq_some_iff]
      simp only [List.length_append, List.length_cons]
      constructor
      · rintro ⟨pos, hpos, heq⟩
        rw [hpos, Option.some.injEq]
        omega
      · intro hpos
        exact ⟨_, hpos, by omega⟩

end Text
