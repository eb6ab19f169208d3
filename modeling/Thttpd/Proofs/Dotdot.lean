/-
Cleaning a path here and in the C server.

The C server rewrites the file name until none of four patterns occurs in it.  Seen as a
list of components, every rewriting leaves out what a walk along them would not miss: a
component that stays, a `..` at the top, a name with the `..` after it.  So where its
loops end they have followed the walk that drops a `..` at the root, all but the last
component; and a `..` that comes last is only taken back with a name when a slash stands
before the name.

The comparison is by components, which are the parts between slashes, and by the
walk along them (`Climb`).  Each of the C loops is shown to leave out components that
the walk does not miss, so it leaves the walk where it was (`Leads.elide`); and
where no loop finds anything more, the components that are left are those the walk
has kept.
-/
import Thttpd.Legacy.Dotdot
import Thttpd.Proofs.Glob
import Thttpd.Proofs.Url
import Thttpd.Lib.Split
import Thttpd.Lib.Block

namespace Thttpd

open Text

/-! ### Components in bytes

A component goes down, goes up, or stays.  In bytes or in characters it does the
same, since dots and slashes are ASCII.
-/

/-- What a component does to the names before it. -/
def segmentKind (part : Bytes) : Climb.Kind :=
  if part = [] ∨ part = [46] then .stay
  else if part = [46, 46] then .up
  else .down

/-- A component does the same in bytes. -/
theorem segmentKind_asBytes (part : Str) : segmentKind (asBytes part) = componentKind part := by
  have hnil : asBytes part = [] ↔ part = [] := asBytes_inj (t := [])
  have hdot : asBytes part = [46] ↔ part = ['.'] := asBytes_inj (t := ['.'])
  have hdots : asBytes part = [46, 46] ↔ part = ['.', '.'] := asBytes_inj (t := ['.', '.'])
  simp only [segmentKind, componentKind, hnil, hdot, hdots]

/-- What goes down is neither empty nor dots. -/
theorem segmentKind_eq_down {part : Bytes} :
    segmentKind part = .down ↔ part ≠ [] ∧ part ≠ [46] ∧ part ≠ [46, 46] := by
  unfold segmentKind
  by_cases h : part = [] ∨ part = [46]
  · rw [if_pos h]
    refine iff_of_false (by simp) ?_
    rintro ⟨h1, h2, -⟩
    exact h.elim h1 h2
  · by_cases hup : part = [46, 46]
    · simp [hup]
    · rw [if_neg h, if_neg hup]
      push Not at h
      exact iff_of_true rfl ⟨h.1, h.2, hup⟩

/-- The walk along some components, a `..` at the root dropped. -/
def settled (parts : List Bytes) : List Bytes := Climb.settle segmentKind [] parts

/--
The last component of a file name is `last`, those before it lead to `kept`, and `P`
holds of them.
-/
def Leads (P : List Bytes → Prop) (kept : List Bytes) (last file : Bytes) : Prop :=
  ∃ front, file.splitOn 47 = front ++ [last] ∧ settled front = kept ∧ P front

section

variable {P Q : List Bytes → Prop} {kept : List Bytes} {last file file' : Bytes}

/-- Any beginning of the components is one of those before the last. -/
theorem Leads.cut (h : Leads P kept last file) {A B : List Bytes} (hfile : file.splitOn 47 = A ++ B)
    (hB : B ≠ []) : ∃ t, B = t ++ [last] ∧ settled (A ++ t) = kept ∧ P (A ++ t) := by
  obtain ⟨front, hsplit, hkept, hfront⟩ := h
  obtain ⟨t, b, rfl⟩ := (List.eq_nil_or_concat B).resolve_left hB
  rw [hfile, List.concat_eq_append, ← List.append_assoc] at hsplit
  obtain ⟨rfl, hlast⟩ := List.append_inj' hsplit rfl
  rw [List.singleton_inj] at hlast
  exact ⟨t, by rw [List.concat_eq_append, hlast], hkept, hfront⟩

/--
**Leaving out components that the walk does not miss changes nothing.**

This is the one lemma the loops have in common: each removes a piece of the name,
and the piece is a run of components that lead nowhere.
-/
theorem Leads.elide (h : Leads P kept last file) {A X B : List Bytes}
    (hfile : file.splitOn 47 = A ++ (X ++ B)) (hB : B ≠ []) (hfile' : file'.splitOn 47 = A ++ B)
    (hX : ∀ t, settled (A ++ (X ++ t)) = settled (A ++ t)) (hP : ∀ t, P (A ++ (X ++ t)) → P (A ++ t)) :
    Leads P kept last file' := by
  rw [← List.append_assoc] at hfile
  obtain ⟨t, rfl, hkept, hfront⟩ := h.cut hfile hB
  rw [List.append_assoc] at hkept hfront
  exact ⟨A ++ t, by rw [hfile', List.append_assoc], by rw [← hX, hkept], hP t hfront⟩

theorem Leads.mono (h : Leads P kept last file) (hPQ : ∀ front, P front → Q front) :
    Leads Q kept last file := by
  obtain ⟨front, hsplit, hkept, hfront⟩ := h
  exact ⟨front, hsplit, hkept, hPQ front hfront⟩

theorem mem_of_elided {α : Type} {c : α} {A X t : List α} (h : c ∈ A ++ t) : c ∈ A ++ (X ++ t) :=
  ((List.sublist_append_right X t).append_left A).subset h

/-- What stays is not missed. -/
theorem settled_stay (A : List Bytes) {x : Bytes} (hx : segmentKind x = .stay) (t : List Bytes) :
    settled (A ++ ([x] ++ t)) = settled (A ++ t) :=
  Climb.settle_congr (.stay A t hx)

/-! ### The loops

One lemma for each loop of the C function, in the order in which it runs them.  What
a loop has removed for good is remembered in `P`, so that the later ones need not
look for it.
-/

/-- A loop that drops `part/` while it stands in front leaves out components `part`. -/
theorem Leads.dropLeading {part : Bytes} {g : Bytes → Bytes} (hpart : (47 : UInt8) ∉ part)
    (hg : ∀ file, (∃ f, file = part ++ 47 :: f ∧ g file = g f) ∨
      (¬ part ++ [47] <+: file ∧ g file = file))
    (hX : ∀ t, settled ([part] ++ t) = settled t) (hP : ∀ t, P ([part] ++ t) → P t)
    (h : Leads P kept last file) :
    Leads (fun front => P front ∧ front.head? ≠ some part) kept last (g file) := by
  induction hn : file.length using Nat.strong_induction_on generalizing file with
  | _ n ih =>
      rcases hg file with ⟨f, hfile, heq⟩ | ⟨hstop, heq⟩
      · have hshort : f.length < n := by
          rw [← hn, hfile]
          simp
          omega
        have hsplit : file.splitOn 47 = [] ++ ([part] ++ f.splitOn 47) := by
          rw [hfile, splitOn_cons_of_notMem hpart]
          rfl
        rw [heq]
        exact ih f.length hshort (h.elide hsplit (List.splitOn_ne_nil 47 f) rfl hX hP) rfl
      · obtain ⟨front, hsplit, hkept, hfront⟩ := h
        rw [heq]
        refine ⟨front, hsplit, hkept, hfront, fun hhead => hstop ?_⟩
        obtain ⟨t, rfl⟩ := List.head?_eq_some_iff.mp hhead
        obtain ⟨b, rfl, -⟩ := eq_cons_of_splitOn hsplit (by simp)
        exact ⟨b, by simp⟩

/-- `./` in front is left out. -/
theorem Leads.dropDotSlash (h : Leads P kept last file) (hP : ∀ t, P ([[46]] ++ t) → P t) :
    Leads (fun front => P front ∧ front.head? ≠ some [46]) kept last (Legacy.dropDotSlash file) := by
  refine h.dropLeading (by decide) (fun file => ?_) (fun t => settled_stay [] rfl t) hP
  fun_cases Legacy.dropDotSlash file with
  | case1 f => exact .inl ⟨f, rfl, rfl⟩
  | case2 _ hnot =>
      refine .inr ⟨fun hpre => ?_, rfl⟩
      obtain ⟨f, hf⟩ := hpre
      exact hnot f hf.symm

/-- `../` in front is left out, at the top. -/
theorem Leads.dropDotDotSlash (h : Leads P kept last file) (hP : ∀ t, P ([[46, 46]] ++ t) → P t) :
    Leads (fun front => P front ∧ front.head? ≠ some [46, 46]) kept last
      (Legacy.dropDotDotSlash file) := by
  refine h.dropLeading (by decide) (fun file => ?_) (fun t => Climb.settle_up rfl t) hP
  fun_cases Legacy.dropDotDotSlash file with
  | case1 f => exact .inl ⟨f, rfl, rfl⟩
  | case2 _ hnot =>
      refine .inr ⟨fun hpre => ?_, rfl⟩
      obtain ⟨f, hf⟩ := hpre
      exact hnot f hf.symm

/-- Where `/part/` is found. -/
theorem found_split (part : Bytes) (hpart : (47 : UInt8) ∉ part) {cp : Nat}
    (h : findBytes (47 :: (part ++ [47])) file = some cp) :
    ∃ before after, file = before ++ 47 :: (part ++ 47 :: after) ∧ before.length = cp ∧
      file.splitOn 47 = before.splitOn 47 ++ ([part] ++ after.splitOn 47) := by
  obtain ⟨before, tail, rfl, hcp, after, rfl⟩ := findBytes_eq_some h
  refine ⟨before, after, by simp, hcp, ?_⟩
  have hsplit : 47 :: (part ++ [47]) ++ after = 47 :: (part ++ 47 :: after) := by simp
  rw [hsplit, splitOn_append_sep, splitOn_cons_of_notMem hpart]
  rfl

/-- Where it is not, no component between two slashes is `part`. -/
theorem not_found (part : Bytes) (h : findBytes (47 :: (part ++ [47])) file = none) {A B : List Bytes}
    (hA : A ≠ []) (hB : B ≠ []) : file.splitOn 47 ≠ A ++ part :: B := by
  intro hsplit
  obtain ⟨a, b, rfl, -, -⟩ := eq_between_of_splitOn hsplit hA hB
  refine findBytes_eq_none h a.length ⟨b, ?_⟩
  simp

/-- Without two slashes in a row there is nothing to collapse. -/
theorem Leads.collapseSlashes (h : Leads P kept last file) (hP : ∀ front, P front → [] ∉ front)
    (fuel : Nat) : Legacy.collapseSlashes fuel file = file := by
  cases fuel with
  | zero => rfl
  | succ fuel =>
      cases hcp : findBytes [47, 47] file with
      | none => rw [Legacy.collapseSlashes, hcp]
      | some cp =>
          obtain ⟨before, after, -, -, hsplit⟩ := found_split [] (by decide) hcp
          rw [← List.append_assoc] at hsplit
          obtain ⟨t, -, -, hfront⟩ := h.cut hsplit (List.splitOn_ne_nil 47 after)
          exact absurd (by simp) (hP _ hfront)

/-- The components before the last are no empty ones. -/
def NonEmpty (front : List Bytes) : Prop := ∀ c ∈ front, c ≠ []

/-- And no dots either. -/
def NonDot (front : List Bytes) : Prop := ∀ c ∈ front, c ≠ [] ∧ c ≠ [46]

/-- Where no `/./` is left, and no `./` in front, no component but the last is a dot. -/
theorem Leads.nonDot (h : Leads (fun front => NonEmpty front ∧ front.head? ≠ some [46]) kept last file)
    (hnone : findBytes [47, 46, 47] file = none) : Leads NonDot kept last file := by
  obtain ⟨front, hsplit, hkept, hfront, hhead⟩ := h
  refine ⟨front, hsplit, hkept, fun c hc => ⟨hfront c hc, ?_⟩⟩
  rintro rfl
  obtain ⟨A, B, rfl⟩ := List.append_of_mem hc
  have hA : A ≠ [] := by
    rintro rfl
    exact hhead rfl
  rw [List.append_assoc, List.cons_append] at hsplit
  exact not_found [46] hnone hA (by simp) hsplit

theorem Leads.elideSlashDot (fuel : Nat) : ∀ {file : Bytes}, file.length ≤ fuel →
    Leads (fun front => NonEmpty front ∧ front.head? ≠ some [46]) kept last file →
    Leads NonDot kept last (Legacy.elideSlashDot fuel file) := by
  induction fuel with
  | zero =>
      intro file hn h
      rw [List.length_eq_zero_iff.mp (Nat.le_zero.mp hn)] at h ⊢
      exact h.nonDot (by decide)
  | succ fuel ih =>
      intro file hn h
      cases hcp : findBytes [47, 46, 47] file with
      | none =>
          rw [Legacy.elideSlashDot, hcp]
          exact h.nonDot hcp
      | some cp =>
          rw [Legacy.elideSlashDot, hcp]
          obtain ⟨before, after, rfl, rfl, hsplit⟩ := found_split [46] (by decide) hcp
          have hless : (before ++ 47 :: ([46] ++ 47 :: after)).take before.length
              ++ (before ++ 47 :: ([46] ++ 47 :: after)).drop (before.length + 2)
                = before ++ 47 :: after := by
            rw [List.take_left, List.drop_append]
            simp
          simp only [hless]
          refine ih ?_ (h.elide hsplit (List.splitOn_ne_nil 47 after) (splitOn_append_sep 47 before after)
            (fun t => settled_stay _ rfl t) fun t hfront => ?_)
          · simp at hn ⊢
            omega
          · obtain ⟨hfront, hhead⟩ := hfront
            refine ⟨fun c hc => hfront c (mem_of_elided hc), ?_⟩
            have hne := List.splitOn_ne_nil 47 before
            rw [List.head?_append_of_ne_nil _ hne] at hhead ⊢
            exact hhead

theorem dropDotDotSlash_length (file : Bytes) : (Legacy.dropDotDotSlash file).length ≤ file.length := by
  fun_induction Legacy.dropDotDotSlash file with
  | case1 file ih =>
      simp
      omega
  | case2 => exact Nat.le_refl _

theorem throughLastSlash_name {x : Bytes} (hx : (47 : UInt8) ∉ x) : Legacy.throughLastSlash x = [] := by
  refine List.rdropWhile_eq_nil_iff.mpr fun b hb => ?_
  rw [bne_iff_ne]
  rintro rfl
  exact hx hb

/-- The cut is behind the last slash. -/
theorem throughLastSlash_slash {x : Bytes} (hx : (47 : UInt8) ∉ x) (a : Bytes) :
    Legacy.throughLastSlash (a ++ 47 :: x) = a ++ [47] := by
  have hall : ∀ b ∈ x.reverse, (b != 47) = true := by
    intro b hb
    rw [bne_iff_ne]
    rintro rfl
    exact hx (List.mem_reverse.mp hb)
  unfold Legacy.throughLastSlash List.rdropWhile
  rw [List.reverse_append, List.reverse_cons, List.append_assoc, List.dropWhile_append_of_pos hall]
  simp

theorem throughLastSlash_length (file : Bytes) : (Legacy.throughLastSlash file).length ≤ file.length :=
  (List.rdropWhile_prefix _ file).length_le

/-- Cutting behind the last slash drops the last component. -/
theorem splitOn_throughLastSlash {A : List Bytes} {x before : Bytes}
    (h : before.splitOn 47 = A ++ [x]) (after : Bytes) :
    (Legacy.throughLastSlash before ++ after).splitOn 47 = A ++ after.splitOn 47 := by
  have hx : (47 : UInt8) ∉ x := notMem_of_mem_splitOn (s := before) (by rw [h]; simp)
  by_cases hA : A = []
  · rw [hA] at h ⊢
    rw [eq_of_splitOn h, throughLastSlash_name hx]
    rfl
  · obtain ⟨a, b, rfl, rfl, hb⟩ := exists_append_of_splitOn h hA (List.cons_ne_nil x [])
    rw [eq_of_splitOn hb, throughLastSlash_slash hx, List.append_assoc, List.singleton_append,
      splitOn_append_sep]

/-- Where no `/../` is left, and no `../` in front, the names left are what the walk kept. -/
theorem Leads.done (h : Leads (fun front => NonDot front ∧ front.head? ≠ some [46, 46]) kept last file)
    (hnone : findBytes [47, 46, 46, 47] file = none) : file.splitOn 47 = kept ++ [last] := by
  obtain ⟨front, hsplit, rfl, hfront, hhead⟩ := h
  have hdown : ∀ c ∈ front, segmentKind c = .down := by
    intro c hc
    refine segmentKind_eq_down.mpr ⟨(hfront c hc).1, (hfront c hc).2, ?_⟩
    rintro rfl
    obtain ⟨A, B, rfl⟩ := List.append_of_mem hc
    have hA : A ≠ [] := by
      rintro rfl
      exact hhead rfl
    rw [List.append_assoc, List.cons_append] at hsplit
    exact not_found [46, 46] hnone hA (by simp) hsplit
  rw [hsplit, settled, Climb.settle_of_down hdown]

/-- Before the first `/../` stands a name. -/
theorem Leads.name_before {before after : Bytes}
    (h : Leads (fun front => NonDot front ∧ front.head? ≠ some [46, 46]) kept last
      (before ++ 47 :: ([46, 46] ++ 47 :: after)))
    (hfirst : findBytes [47, 46, 46, 47] (before ++ 47 :: ([46, 46] ++ 47 :: after))
      = some before.length) {A : List Bytes} {x : Bytes} (hbefore : before.splitOn 47 = A ++ [x]) :
    segmentKind x = .down := by
  have hsplit : (before ++ 47 :: ([46, 46] ++ 47 :: after)).splitOn 47
      = A ++ [x] ++ ([46, 46] :: after.splitOn 47) := by
    rw [splitOn_append_sep, splitOn_cons_of_notMem (by decide), hbefore]
  obtain ⟨t, -, -, hfront, hhead⟩ := h.cut hsplit (List.cons_ne_nil _ _)
  have hx : x ≠ [] ∧ x ≠ [46] := hfront x (by simp)
  refine segmentKind_eq_down.mpr ⟨hx.1, hx.2, ?_⟩
  rintro rfl
  have hA : A ≠ [] := by
    rintro rfl
    exact hhead rfl
  obtain ⟨a, b, rfl, -, hb⟩ := exists_append_of_splitOn hbefore hA (List.cons_ne_nil _ [])
  rw [eq_of_splitOn hb] at hfirst
  -- it would be an earlier one
  have hle := findBytes_le (i := a.length) hfirst
    ⟨[46, 46] ++ 47 :: after, by rw [List.append_assoc, List.drop_left]; rfl⟩
  rw [List.length_append, List.length_cons] at hle
  omega

/-- A name goes with the `..` behind it. -/
theorem Leads.elideDotDot (fuel : Nat) : ∀ {file : Bytes}, file.length ≤ fuel →
    Leads NonDot kept last file → (Legacy.elideDotDot fuel file).splitOn 47 = kept ++ [last] := by
  induction fuel with
  | zero =>
      intro file hn h
      rw [List.length_eq_zero_iff.mp (Nat.le_zero.mp hn)] at h ⊢
      have h := h.dropDotDotSlash fun t hfront c hc => hfront c (List.mem_append_right _ hc)
      exact h.done (by decide)
  | succ fuel ih =>
      intro file hn h
      have hless := dropDotDotSlash_length file
      have h := h.dropDotDotSlash fun t hfront c hc => hfront c (List.mem_append_right _ hc)
      unfold Legacy.elideDotDot
      simp only
      generalize Legacy.dropDotDotSlash file = file at h hless ⊢
      cases hcp : findBytes [47, 46, 46, 47] file with
      | none => exact h.done hcp
      | some cp =>
          obtain ⟨before, after, rfl, rfl, hsplit⟩ := found_split [46, 46] (by decide) hcp
          obtain ⟨A, x, hbefore⟩ := (List.eq_nil_or_concat (before.splitOn 47)).resolve_left
            (List.splitOn_ne_nil 47 before)
          rw [List.concat_eq_append] at hbefore
          have hx := h.name_before hcp hbefore
          have hrest : (before ++ 47 :: ([46, 46] ++ 47 :: after)).drop (before.length + 4) = after := by
            rw [List.drop_append]
            simp
          simp only [List.take_left, hrest]
          refine ih ?_ (Leads.elide (X := [x, [46, 46]]) (h.mono fun front hfront => hfront.1) ?_ (List.splitOn_ne_nil 47 after)
            (splitOn_throughLastSlash hbefore after) (fun t => ?_) fun t hfront => ?_)
          · have hle := throughLastSlash_length before
            simp at hn hless ⊢
            omega
          · rw [hsplit, hbefore, List.append_assoc]
            rfl
          · exact Climb.settle_congr (.pair A t hx rfl)
          · exact fun c hc => hfront c (mem_of_elided hc)

/-! ### The end of a file name

A `..` that comes last has no slash behind it and is looked for apart.  The C code
wants a slash before the name it takes back, so at the top of a path it takes
nothing back.
-/

/-- Nothing is elided at the end when the last component is no `..`. -/
theorem elideLastDotDot_of_ne {A : List Bytes} (h : file.splitOn 47 = A ++ [last])
    (hlast : last ≠ [46, 46]) (fuel : Nat) : Legacy.elideLastDotDot fuel file = file := by
  cases fuel with
  | zero => rfl
  | succ fuel =>
      rw [Legacy.elideLastDotDot, if_neg]
      rintro ⟨-, hdrop⟩
      have hfile := List.take_append_drop (file.length - 3) file
      rw [hdrop] at hfile
      rw [← hfile, splitOn_append_sep] at h
      exact hlast (List.singleton_inj.mp (List.append_inj' h rfl).2).symm

/-- The part before a last `/..`. -/
theorem lastDotDot_cut (f : Bytes) : (f ++ [47, 46, 46]).take ((f ++ [47, 46, 46]).length - 3) = f ∧
    (f ++ [47, 46, 46]).drop ((f ++ [47, 46, 46]).length - 3) = [47, 46, 46] := by
  simp

/-- Or when no slash stands before the name. -/
theorem elideLastDotDot_single {x : Bytes} (h : file.splitOn 47 = [x, [46, 46]]) (fuel : Nat) :
    Legacy.elideLastDotDot fuel file = file := by
  have hx : (47 : UInt8) ∉ x := notMem_of_mem_splitOn (s := file) (by rw [h]; simp)
  obtain ⟨b, rfl, hb⟩ := eq_cons_of_splitOn h (List.cons_ne_nil _ [])
  rw [eq_of_splitOn hb]
  cases fuel with
  | zero => rfl
  | succ fuel =>
      rw [Legacy.elideLastDotDot, (lastDotDot_cut x).1, throughLastSlash_name hx]
      simp

/-- Else both go. -/
theorem elideLastDotDot_pair {A : List Bytes} {x y : Bytes}
    (h : file.splitOn 47 = A ++ [x] ++ [y, [46, 46]]) (hx : x ≠ [46, 46]) (fuel : Nat) :
    (Legacy.elideLastDotDot (fuel + 1) file).splitOn 47 = A ++ [x] := by
  have hy : (47 : UInt8) ∉ y := notMem_of_mem_splitOn (s := file) (by rw [h]; simp)
  obtain ⟨a, b, rfl, ha, hb⟩ := eq_between_of_splitOn h (by simp) (List.cons_ne_nil _ [])
  rw [eq_of_splitOn hb]
  have hfile : a ++ 47 :: (y ++ 47 :: [46, 46]) = (a ++ 47 :: y) ++ [47, 46, 46] := by simp
  rw [hfile, Legacy.elideLastDotDot, if_pos ⟨by simp; omega, (lastDotDot_cut _).2⟩,
    (lastDotDot_cut _).1, throughLastSlash_slash hy]
  split
  · rename_i hnil
    simp at hnil
  · rename_i hcs
    rw [← hcs, List.dropLast_concat, elideLastDotDot_of_ne ha hx, ha]

/--
**What is left of a file name without two slashes in a row.**

The loops are taken in the order of the source.  What is left over is a `..` at the
end, which only the last of them takes care of, and only where two names stand in
front of it.
-/
theorem Leads.deDotdot (h : Leads NonEmpty kept last file) :
    (Legacy.deDotdot file).splitOn 47 =
      if last = [46, 46] ∧ 2 ≤ kept.length then kept.dropLast else kept ++ [last] := by
  have hdown : ∀ c ∈ kept, segmentKind c = .down := by
    obtain ⟨front, -, rfl, -⟩ := h
    exact Climb.settle_down (by simp)
  have hcollapse := h.collapseSlashes (fun front hfront hmem => hfront [] hmem rfl) file.length
  have h := h.dropDotSlash fun t hfront c hc => hfront c (List.mem_append_right _ hc)
  have h := Leads.elideSlashDot _ (Nat.le_refl _) h
  have h := Leads.elideDotDot _ (Nat.le_refl _) h
  unfold Legacy.deDotdot
  simp only [hcollapse]
  generalize Legacy.elideDotDot _ _ = file at h ⊢
  by_cases hlast : last = [46, 46]
  · subst hlast
    rcases List.eq_nil_or_concat kept with rfl | ⟨kept, y, rfl⟩
    · have hfile : file = [46, 46] := eq_of_splitOn h
      rw [hfile]
      decide
    · rw [List.concat_eq_append] at *
      rcases List.eq_nil_or_concat kept with rfl | ⟨kept, x, rfl⟩
      · rw [elideLastDotDot_single h, h]
        rfl
      · rw [List.concat_eq_append] at *
        have hx : x ≠ [46, 46] := (segmentKind_eq_down.mp (hdown x (by simp))).2.2
        rw [List.append_assoc] at h
        obtain ⟨fuel, hfuel⟩ : ∃ fuel, file.length = fuel + 1 := by
          refine Nat.exists_eq_succ_of_ne_zero fun hzero => ?_
          rw [List.length_eq_zero_iff.mp hzero] at h
          have := congrArg List.length h
          simp at this
        rw [hfuel, elideLastDotDot_pair h hx, if_pos ⟨rfl, by simp⟩, List.dropLast_concat]
  · rw [if_neg fun hboth => hlast hboth.1, elideLastDotDot_of_ne h hlast, h]

/-! ### Accepted file names

The C server refuses a file name that begins with a slash or goes up, and then
leaves out what leads nowhere.  `ending` is what the loops come to, written as a
function of the components.
-/

/-- A file name leaves the root by an empty component in front, or by a `..`. -/
theorem head_of_leavesRoot (h : Legacy.leavesRoot file = true) :
    (∃ B, B ≠ [] ∧ file.splitOn 47 = [] :: B) ∨ ∃ B, file.splitOn 47 = [46, 46] :: B := by
  fun_cases Legacy.leavesRoot file with
  | case1 f => exact .inl ⟨_, List.splitOn_ne_nil 47 f, splitOn_cons_sep 47 f⟩
  | case2 => exact .inr ⟨[], by decide⟩
  | case3 f => exact .inr ⟨_, splitOn_cons_of_notMem (s := [46, 46]) (by decide) f⟩
  | case4 => simp [Legacy.leavesRoot] at h

theorem not_leavesRoot {x : Bytes} {B : List Bytes} (h : file.splitOn 47 = x :: B) (hx : x ≠ [46, 46])
    (hroot : x ≠ [] ∨ B = []) : Legacy.leavesRoot file = false := by
  rw [Bool.eq_false_iff]
  intro hleaves
  rcases head_of_leavesRoot hleaves with ⟨B', hB', hsplit⟩ | ⟨B', hsplit⟩
  · rw [h, List.cons.injEq] at hsplit
    exact hroot.elim (fun hne => hne hsplit.1) fun hnil => hB' (hsplit.2.symm.trans hnil)
  · rw [h, List.cons.injEq] at hsplit
    exact hx hsplit.1

/-- A component that is neither empty nor a dot. -/
def leads (c : Bytes) : Bool := c ≠ [] ∧ c ≠ [46]

/-- The components of a file name that lead somewhere. -/
def pathNames (file : Bytes) : List Bytes := (file.splitOn 47).filter leads

theorem filter_leads_of_down {A : List Bytes} (h : ∀ c ∈ A, segmentKind c = .down) :
    A.filter leads = A := by
  refine List.filter_eq_self.mpr fun c hc => ?_
  have hc := segmentKind_eq_down.mp (h c hc)
  simp [leads, hc.1, hc.2.1]

/-- Where a file name leads whose components before the last lead to `kept`; `none` is a 400. -/
def ending (kept : List Bytes) (last : Bytes) : Option (List Bytes) :=
  if last = [46, 46] then
    match kept with
    | [] => none
    | [x] => some [x, [46, 46]]
    | _ => some kept.dropLast
  else some (Climb.settle segmentKind kept [last])

/-- A last component that is no `..` is kept, if it leads somewhere. -/
theorem settle_last (hlast : last ≠ [46, 46]) :
    Climb.settle segmentKind kept [last] = kept ++ [last].filter leads := by
  show Climb.settleStep segmentKind kept last = _
  unfold Climb.settleStep segmentKind leads
  by_cases h : last = [] ∨ last = [46]
  · rcases h with rfl | rfl
    · simp
    · simp
  · rw [if_neg h, if_neg hlast]
    push Not at h
    simp [h.1, h.2]

/-- **What the C server accepts, and where it leads.** -/
theorem Leads.cleaned (h : Leads NonEmpty kept last file) :
    (if Legacy.leavesRoot (Legacy.deDotdot file) then none else some (Legacy.deDotdot file)).map pathNames
      = ending kept last := by
  have hsplit := h.deDotdot
  have hdown : ∀ c ∈ kept, segmentKind c = .down := by
    obtain ⟨front, -, rfl, -⟩ := h
    exact Climb.settle_down (by simp)
  generalize Legacy.deDotdot file = file at hsplit ⊢
  unfold ending
  by_cases hlast : last = [46, 46]
  · subst hlast
    match kept with
    | [] =>
        have hfile : file = [46, 46] := eq_of_splitOn hsplit
        rw [hfile]
        rfl
    | [x] =>
        have hx := segmentKind_eq_down.mp (hdown x (by simp))
        have hsplit : file.splitOn 47 = [x, [46, 46]] := hsplit
        rw [not_leavesRoot hsplit hx.2.2 (.inl hx.1)]
        simp [pathNames, hsplit, leads, hx.1, hx.2.1]
    | x :: y :: kept =>
        have hx := segmentKind_eq_down.mp (hdown x (by simp))
        rw [if_pos ⟨rfl, by simp⟩] at hsplit
        have hnames : pathNames file = (x :: y :: kept).dropLast := by
          rw [pathNames, hsplit]
          exact filter_leads_of_down fun c hc => hdown c (List.dropLast_subset _ hc)
        rw [List.dropLast_cons_cons] at hsplit
        rw [not_leavesRoot hsplit hx.2.2 (.inl hx.1)]
        simp [hnames]
  · rw [if_neg fun hboth => hlast hboth.1] at hsplit
    have hnames : pathNames file = kept ++ [last].filter leads := by
      rw [pathNames, hsplit, List.filter_append, filter_leads_of_down hdown]
    have hstays : Legacy.leavesRoot file = false := by
      cases kept with
      | nil => exact not_leavesRoot hsplit hlast (.inr rfl)
      | cons x kept =>
          have hx := segmentKind_eq_down.mp (hdown x List.mem_cons_self)
          exact not_leavesRoot hsplit hx.2.2 (.inl hx.1)
    rw [hstays, if_neg hlast, settle_last hlast, ← hnames]
    rfl

end

/-! ### Paths

Here this server's walk, which refuses to go above the root, and the C server's,
which stays there, are compared.
-/

/--
**Where the C server leads a path without two slashes in a row.**

The C function works on a buffer with a zero at its end, so the name must hold none.
-/
theorem cleanFilename_eq {q : Str} {front : List Str} {last : Str}
    (hq : q.splitOn '/' = front ++ [last]) (hnul : '\x00' ∉ '/' :: q)
    (hdouble : ¬ ['/', '/'] <:+: '/' :: q) :
    (Legacy.cleanFilename (asBytes ('/' :: q))).map pathNames
      = ending ((Climb.settle componentKind [] front).map asBytes) (asBytes last) := by
  cases q with
  | nil =>
      have hq : [] ++ [[]] = front ++ [last] := hq
      obtain ⟨rfl, hlast⟩ := List.append_inj' hq rfl
      rw [List.singleton_inj] at hlast
      rw [← hlast]
      decide
  | cons x q =>
      have hfile : Legacy.origfilename (asBytes ('/' :: x :: q)) = asBytes (x :: q) := by
        obtain ⟨b, bs, hbytes⟩ := List.exists_cons_of_ne_nil
          (fun hnil => List.cons_ne_nil x q (asBytes_inj (t := []) |>.mp hnil))
        unfold Legacy.origfilename
        rw [cString_of_noNul (nul_notMem_asBytes.mpr hnul)]
        have hdrop : (asBytes ('/' :: x :: q)).drop 1 = asBytes (x :: q) := rfl
        rw [hdrop, hbytes]
      have hfront : NonEmpty (front.map asBytes) := by
        intro c hc hnil
        obtain ⟨d, hd, rfl⟩ := List.mem_map.mp hc
        rw [asBytes_inj (t := []) |>.mp hnil] at hd
        obtain ⟨A, B, rfl⟩ := List.append_of_mem hd
        have hsplit : ('/' :: x :: q).splitOn '/' = ([] :: A) ++ [] :: (B ++ [last]) := by
          rw [splitOn_cons_sep, hq]
          simp
        obtain ⟨a, b, hpath, -, -⟩ := eq_between_of_splitOn hsplit (List.cons_ne_nil _ _) (by simp)
        exact hdouble ⟨a, b, by rw [hpath]; simp⟩
      have hleads : Leads NonEmpty ((Climb.settle componentKind [] front).map asBytes) (asBytes last)
          (asBytes (x :: q)) := by
        refine ⟨front.map asBytes, ?_, Climb.settle_map segmentKind_asBytes front [], hfront⟩
        have hbytes := splitOn_asBytes (d := '/') (by decide) (x :: q)
        rw [hq, List.map_append] at hbytes
        exact hbytes
      unfold Legacy.cleanFilename
      rw [hfile]
      exact hleads.cleaned

/-- Whether it is accepted by both and leads to the same components, or by neither. -/
def SameCleaning (p : Str) : Prop :=
  (normalizePath p).map (fun r => pathNames (asBytes r))
    = (Legacy.cleanFilename (asBytes p)).map pathNames

instance (p : Str) : Decidable (SameCleaning p) := inferInstanceAs (Decidable (_ = _))

/-- Some beginning of the path goes up more often than down. -/
def Climbs (p : Str) : Prop :=
  ∃ parts, parts <+: p.splitOn '/' ∧ parts.countP IsName < parts.count ['.', '.']

/-- The path ends by going up, and nothing is left of it. -/
def EndsAtRoot (p : Str) : Prop :=
  (p.splitOn '/').getLast? = some ['.', '.'] ∧
    (p.splitOn '/').countP IsName = (p.splitOn '/').count ['.', '.']

theorem ending_eq_none_iff {kept : List Bytes} {last : Bytes} :
    ending kept last = none ↔ last = [46, 46] ∧ kept = [] := by
  unfold ending
  by_cases hlast : last = [46, 46]
  · rw [if_pos hlast]
    match kept with
    | [] => simp [hlast]
    | [x] => simp
    | x :: y :: kept => simp
  · simp [hlast]

theorem pathNames_joinComponents {cs : List Str} (hslash : ∀ c ∈ cs, '/' ∉ c)
    (hname : ∀ c ∈ cs, IsName c) : pathNames (asBytes (joinComponents cs)) = cs.map asBytes := by
  by_cases hne : cs = []
  · rw [hne]
    decide
  · have hdown : ∀ c ∈ cs.map asBytes, segmentKind c = .down := by
      intro c hc
      obtain ⟨d, hd, rfl⟩ := List.mem_map.mp hc
      rw [segmentKind_asBytes]
      exact componentKind_eq_down.mpr (hname d hd)
    have hsplit := splitOn_asBytes (d := '/') (by decide) (joinComponents cs)
    rw [splitOn_joinComponents hslash hne] at hsplit
    have hsplit : (asBytes (joinComponents cs)).splitOn 47 = [] :: cs.map asBytes := hsplit
    rw [pathNames, hsplit, List.filter_cons_of_neg (by simp [leads]), filter_leads_of_down hdown]

/-- A path that does not climb is a walk, and what the walk keeps are its names. -/
theorem exists_walk {p : Str} (hdouble : ¬ ['/', '/'] <:+: p) (hclimbs : ¬ Climbs p) :
    ∃ cs, Climb.walkFrom componentKind [] (p.splitOn '/') = some cs ∧
      normalizePath p = some (joinComponents cs) ∧
      pathNames (asBytes (joinComponents cs)) = cs.map asBytes := by
  have hnone : normalizePath p ≠ none := by
    rw [Ne, normalizePath_eq_none_iff]
    exact not_or.mpr ⟨hdouble, hclimbs⟩
  obtain ⟨r, hr⟩ := Option.ne_none_iff_exists'.mp hnone
  have hwalk := hr
  rw [normalizePath_eq, if_neg fun h => hdouble (containsStr_iff.mp h)] at hwalk
  obtain ⟨cs, hcs, rfl⟩ := Option.map_eq_some_iff.mp hwalk
  obtain ⟨hcancels, hdown⟩ := Climb.walkFrom_eq_some_iff.mp hcs
  refine ⟨cs, hcs, hr, pathNames_joinComponents (fun c hc => ?_) fun c hc => ?_⟩
  · exact notMem_of_mem_splitOn (mem_of_cancels hcancels hc)
  · exact componentKind_eq_down.mp (hdown c hc)

/-- As many names as `..` leave nothing. -/
theorem endsAtRoot_iff {p : Str} {cs : List Str}
    (h : Climb.walkFrom componentKind [] (p.splitOn '/') = some cs) :
    EndsAtRoot p ↔ (p.splitOn '/').getLast? = some ['.', '.'] ∧ cs = [] := by
  have hlen := Climb.length_of_walkFrom h
  rw [downs_eq, ups_eq, List.length_nil] at hlen
  refine and_congr_right fun _ => ?_
  rw [← List.length_eq_zero_iff]
  omega

theorem asBytes_eq_dots {part : Str} : asBytes part = [46, 46] ↔ part = ['.', '.'] :=
  asBytes_inj (t := ['.', '.'])

/-- The C server ends where the walk does, unless a `..` takes back its last name. -/
theorem ending_of_walk {front cs : List Str} {last : Str}
    (hwalk : Climb.walkFrom componentKind [] (front ++ [last]) = some cs)
    (hroot : ¬ (last = ['.', '.'] ∧ cs = [])) :
    ending ((Climb.settle componentKind [] front).map asBytes) (asBytes last)
      = some (cs.map asBytes) := by
  unfold ending
  by_cases hlast : last = ['.', '.']
  · obtain ⟨hne, rfl⟩ := Climb.settle_of_walkFrom_up (componentKind_eq_up.mpr hlast) hwalk
    rw [if_pos (asBytes_eq_dots.mpr hlast)]
    match hkept : Climb.settle componentKind [] front with
    | [] => exact absurd hkept hne
    | [x] => exact absurd ⟨hlast, by rw [hkept]; rfl⟩ hroot
    | x :: y :: kept => exact congrArg some (List.map_dropLast ..).symm
  · have hmap := Climb.settle_map segmentKind_asBytes [last] (Climb.settle componentKind [] front)
    rw [← Climb.settle_append, Climb.settle_of_walkFrom hwalk] at hmap
    rw [if_neg fun h => hlast (asBytes_eq_dots.mp h), ← hmap]
    rfl

/-- There the name stays, with the `..` after it. -/
theorem ending_at_root {front : List Str}
    (hwalk : Climb.walkFrom componentKind [] (front ++ [['.', '.']]) = some []) :
    ∃ name, ending ((Climb.settle componentKind [] front).map asBytes) [46, 46]
      = some [name, [46, 46]] := by
  obtain ⟨hne, hdrop⟩ := Climb.settle_of_walkFrom_up rfl hwalk
  match hkept : Climb.settle componentKind [] front with
  | [] => exact absurd hkept hne
  | [x] => exact ⟨asBytes x, rfl⟩
  | x :: y :: kept =>
      rw [hkept] at hdrop
      cases hdrop

/--
**Path cleaning is that of the C server** on paths without two slashes in a row, but
that this server refuses to climb above the root where the C server stays there, and
takes back the last name of a path where the C server keeps it and the `..` after
it.

The two differences are by design in the one server and by the order of the loops in
the other, and for all other paths the names that are left are the same.
-/
theorem path_cleaning_matches {p : Str} (hslash : p.head? = some '/') (hnul : '\x00' ∉ p)
    (hdouble : ¬ ['/', '/'] <:+: p) :
    (normalizePath p = none ↔ Climbs p) ∧
    (¬ Climbs p → ¬ EndsAtRoot p → SameCleaning p) ∧
    (¬ Climbs p → EndsAtRoot p → normalizePath p = some ['/'] ∧
      ∃ name, (Legacy.cleanFilename (asBytes p)).map pathNames = some [name, [46, 46]]) ∧
    (Climbs p → (Legacy.cleanFilename (asBytes p) = none ↔
      (p.splitOn '/').getLast? = some ['.', '.'] ∧
        Climb.settle componentKind [] (p.splitOn '/').dropLast = [])) := by
  obtain ⟨q, rfl⟩ := List.head?_eq_some_iff.mp hslash
  obtain ⟨front, last, hq⟩ := (List.eq_nil_or_concat (q.splitOn '/')).resolve_left
    (List.splitOn_ne_nil '/' q)
  rw [List.concat_eq_append] at hq
  have hparts : ('/' :: q).splitOn '/' = [] :: (front ++ [last]) := by rw [splitOn_cons_sep, hq]
  have hlegacy := cleanFilename_eq hq hnul hdouble
  have hnone : normalizePath ('/' :: q) = none ↔ Climbs ('/' :: q) := by
    rw [normalizePath_eq_none_iff]
    exact or_iff_right hdouble
  have hlast : ([] :: (front ++ [last])).getLast? = some last := by
    rw [← List.cons_append, List.getLast?_concat]
  refine ⟨hnone, fun hclimbs hroot => ?_, fun hclimbs hroot => ?_, fun hclimbs => ?_⟩
  · obtain ⟨cs, hwalk, hnormal, hnames⟩ := exists_walk hdouble hclimbs
    rw [endsAtRoot_iff hwalk] at hroot
    rw [hparts, hlast] at hroot
    rw [hparts, Climb.walkFrom_stay rfl] at hwalk
    unfold SameCleaning
    rw [hlegacy, ending_of_walk hwalk fun h => hroot ⟨congrArg some h.1, h.2⟩, hnormal,
      Option.map_some, hnames]
  · obtain ⟨cs, hwalk, hnormal, hnames⟩ := exists_walk hdouble hclimbs
    obtain ⟨hup, rfl⟩ := (endsAtRoot_iff hwalk).mp hroot
    rw [hparts, hlast, Option.some.injEq] at hup
    subst hup
    rw [hparts, Climb.walkFrom_stay rfl] at hwalk
    refine ⟨hnormal, ?_⟩
    rw [hlegacy]
    exact ending_at_root hwalk
  · rw [hparts, ← Option.map_eq_none_iff (f := pathNames), hlegacy, ending_eq_none_iff, hlast,
      Option.some.injEq, asBytes_eq_dots, List.map_eq_nil_iff, ← List.cons_append, List.dropLast_concat]
    rfl

/-- `/a/./b/../c/` is `/a/c` in both. -/
theorem path_cleaning_matches_nested : SameCleaning "/a/./b/../c/".toList := by
  have h := path_cleaning_matches (p := "/a/./b/../c/".toList) (by decide) (by decide) (by decide)
  refine h.2.1 (fun hclimbs => ?_) (by unfold EndsAtRoot; decide)
  exact absurd (h.1.mpr hclimbs) (by decide)

/--
Paths that are not cleaned alike: one climbs above the root, one is back there at
its end, and one has two slashes in a row.
-/
theorem paths_cleaned_apart :
    ("/../a".toList.head? = some '/' ∧ '\x00' ∉ "/../a".toList ∧ ¬ SameCleaning "/../a".toList) ∧
      ("/a/..".toList.head? = some '/' ∧ '\x00' ∉ "/a/..".toList ∧ ¬ SameCleaning "/a/..".toList) ∧
      "/a//b".toList.head? = some '/' ∧ '\x00' ∉ "/a//b".toList ∧
        ¬ SameCleaning "/a//b".toList := by
  decide

end Thttpd
