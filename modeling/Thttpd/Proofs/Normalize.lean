/-
Where two normalizers agree.

They differ in three places.  The proxy takes a temporary directory with no name after its
prefix for one, it ends the name of a pytest directory at fewer kinds of white space, and
its pattern for `PWD=` holds a line feed where an escape was meant, so that it replaces a
text that nobody writes.

A text on which the two agree is one where none of this shows.  That nothing makes up for
it later is the work here: after the first difference the passes that follow can neither
undo it nor bring the other text to it.

The argument is by position.  A text is read from its front as names of temporary
directories and single characters in between (`read_induct`), which is how every
pass reads it too.  Where the two normalizers write different things, the texts part
behind a piece of name they share, a stem, and the characters that follow it differ
(`Parted`).  The passes that look for port numbers keep texts parted, because no
phrase of theirs reaches into a stem; the last pass, over `PWD=`, is the one that
could bring them together, and `Fork.eq_of_run_eq` is that it does not.
-/
import Thttpd.Proofs.Passes

namespace Thttpd.Migrate

open Text Rewrite

/-! ### A text as names and characters

The three heads are told apart by their first differing letter, so at most one
begins at any place.  What is written for each is the same in every pass over paths,
and only how far its name goes on is not.
-/

/-- How a temporary directory begins, and the characters its name goes on with. -/
def names : List (Str × (Char → Bool)) :=
  [(golden, isIdentifier), (diff, isIdentifier), (pytest, fun c => !proxyStops c)]

/-- Two beginnings are never found at one place. -/
theorem names_unique {n n' : Str × (Char → Bool)} (hn : n ∈ names) (hn' : n' ∈ names) {v v' : Str}
    (h : n.1 ++ v = n'.1 ++ v') : n = n' ∧ v = v' := by
  have hapart : ∀ {a b : Str}, a.isPrefixOf b = false → b.isPrefixOf a = false → a ++ v ≠ b ++ v' := by
    intro a b hab hba heq
    exact Phrase.not_prefix_append hab hba v' (heq ▸ List.prefix_append a v)
  simp only [names, List.mem_cons, List.not_mem_nil, or_false] at hn hn'
  rcases hn with rfl | rfl | rfl <;> rcases hn' with rfl | rfl | rfl
  · exact ⟨rfl, List.append_cancel_left h⟩
  · exact absurd h (hapart (by decide) (by decide))
  · exact absurd h (hapart (by decide) (by decide))
  · exact absurd h (hapart (by decide) (by decide))
  · exact ⟨rfl, List.append_cancel_left h⟩
  · exact absurd h (hapart (by decide) (by decide))
  · exact absurd h (hapart (by decide) (by decide))
  · exact absurd h (hapart (by decide) (by decide))
  · exact ⟨rfl, List.append_cancel_left h⟩

/-- What of a name the arguments below use. -/
structure NameLike (n : Str × (Char → Bool)) : Prop where
  ne : n.1 ≠ []
  slash : n.2 '/' = false
  letter : n.2 'P' = true
  notMem : 'P' ∉ n.1
  avoids : Phrase.Avoids "/tmp/".toList n.1.tail = true
  temp : "/tmp/".toList <+: n.1

theorem nameLike_of_mem {n : Str × (Char → Bool)} (h : n ∈ names) : NameLike n := by
  simp only [names, List.mem_cons, List.not_mem_nil, or_false] at h
  rcases h with rfl | rfl | rfl
  · exact ⟨by decide, by decide, by decide, by decide, by decide, by decide⟩
  · exact ⟨by decide, by decide, by decide, by decide, by decide, by decide⟩
  · exact ⟨by decide, by decide, by decide, by decide, by decide, by decide⟩

/-- No name begins here. -/
def NoName (s : Str) : Prop := ∀ n ∈ names, ¬ n.1 <+: s

theorem noName_iff {s : Str} : NoName s ↔ ¬ golden <+: s ∧ ¬ diff <+: s ∧ ¬ pytest <+: s := by
  simp only [NoName, names, List.forall_mem_cons, List.not_mem_nil, false_imp_iff, implies_true, and_true]

/-- A phrase is not found where another head begins. -/
theorem rule_apart {w : Phrase Char} {head : Str} (h : w.head.isPrefixOf head = false)
    (h' : head.isPrefixOf w.head = false) (t : Str) : w.rule (head ++ t) = none :=
  Phrase.rule_none_of_not_head (Phrase.not_prefix_append h h' t)

/-- The proxy replaces the head and whatever name follows, an empty one too. -/
theorem proxyPaths_temp {head : Str} (hhead : head ∈ [golden, diff]) (v : Str) :
    proxyPaths (head ++ v) = some ("/tmp/thttpd_NORMALIZED".toList, v.dropWhile isIdentifier) := by
  simp only [List.mem_cons, List.not_mem_nil, or_false] at hhead
  unfold proxyPaths either
  rcases hhead with rfl | rfl
  · have hfound := Phrase.rule_head_append (w := tempWord golden false) v
    rw [show (tempWord golden false).rule (golden ++ v) = _ from hfound]
    rfl
  · have hfound := Phrase.rule_head_append (w := tempWord diff false) v
    rw [rule_apart (by decide) (by decide), show (tempWord diff false).rule (diff ++ v) = _ from hfound]
    rfl

theorem proxyPaths_pytest (v : Str) :
    proxyPaths (pytest ++ v) =
      some ("/tmp/pytest_NORMALIZED".toList, v.dropWhile fun c => !proxyStops c) := by
  have hfound := Phrase.rule_head_append (w := pytestWord proxyStops) v
  unfold proxyPaths either
  rw [rule_apart (by decide) (by decide), rule_apart (by decide) (by decide),
    show (pytestWord proxyStops).rule (pytest ++ v) = _ from hfound]
  rfl

/-- The harness wants a name of one character at least. -/
theorem harnessPaths_temp {head : Str} (hhead : head ∈ [golden, diff]) (v : Str) :
    harnessPaths (head ++ v) = if (v.takeWhile isIdentifier).isEmpty then none
      else some ("/tmp/thttpd_NORMALIZED".toList, v.dropWhile isIdentifier) := by
  simp only [List.mem_cons, List.not_mem_nil, or_false] at hhead
  unfold harnessPaths either
  rcases hhead with rfl | rfl
  · have hfound := Phrase.rule_head_append (w := tempWord golden true) v
    rw [show (tempWord golden true).rule (golden ++ v) = _ from hfound, rule_apart (by decide) (by decide),
      rule_apart (by decide) (by decide), Option.or_none, Option.or_none]
    rfl
  · have hfound := Phrase.rule_head_append (w := tempWord diff true) v
    rw [rule_apart (by decide) (by decide), show (tempWord diff true).rule (diff ++ v) = _ from hfound,
      rule_apart (by decide) (by decide), Option.or_none]
    rfl

theorem harnessPaths_pytest (v : Str) :
    harnessPaths (pytest ++ v) =
      some ("/tmp/pytest_NORMALIZED".toList, v.dropWhile fun c => !harnessStops c) := by
  have hfound := Phrase.rule_head_append (w := pytestWord harnessStops) v
  unfold harnessPaths either
  rw [rule_apart (by decide) (by decide), rule_apart (by decide) (by decide),
    show (pytestWord harnessStops).rule (pytest ++ v) = _ from hfound]
  rfl

theorem proxyPaths_of_noName {s : Str} (h : NoName s) : proxyPaths s = none := by
  obtain ⟨hgolden, hdiff, hpytest⟩ := noName_iff.mp h
  unfold proxyPaths either
  rw [Phrase.rule_none_of_not_head hgolden, Phrase.rule_none_of_not_head hdiff, Phrase.rule_none_of_not_head hpytest]
  rfl

/-- Between the names the two passes do the same, which is nothing. -/
theorem harnessPaths_of_noName {s : Str} (h : NoName s) : harnessPaths s = none := by
  obtain ⟨hgolden, hdiff, hpytest⟩ := noName_iff.mp h
  unfold harnessPaths either
  rw [Phrase.rule_none_of_not_head hgolden, Phrase.rule_none_of_not_head hdiff, Phrase.rule_none_of_not_head hpytest]
  rfl

/-- At every place one of the heads begins, or none. -/
theorem name_cases (s : Str) :
    NoName s ∨ (∃ head ∈ [golden, diff], ∃ v, s = head ++ v) ∨ ∃ v, s = pytest ++ v := by
  by_cases hgolden : golden <+: s
  · obtain ⟨v, rfl⟩ := hgolden
    exact .inr (.inl ⟨golden, List.mem_cons_self, v, rfl⟩)
  by_cases hdiff : diff <+: s
  · obtain ⟨v, rfl⟩ := hdiff
    exact .inr (.inl ⟨diff, List.mem_cons_of_mem _ List.mem_cons_self, v, rfl⟩)
  by_cases hpytest : pytest <+: s
  · obtain ⟨v, rfl⟩ := hpytest
    exact .inr (.inr ⟨v, rfl⟩)
  exact .inl (noName_iff.mpr ⟨hgolden, hdiff, hpytest⟩)

/--
Induction over a text that is read as names, as far as the proxy takes them to go,
and single characters.
-/
theorem read_induct {P : Str → Prop} (nil : P [])
    (temp : ∀ head ∈ [golden, diff], ∀ v : Str, P (v.dropWhile isIdentifier) → P (head ++ v))
    (pytest : ∀ v : Str, P (v.dropWhile fun c => !proxyStops c) → P (pytest ++ v))
    (char : ∀ c s, NoName (c :: s) → P s → P (c :: s)) (s : Str) : P s := by
  induction s using proper_proxyPaths.induct with
  | nil => exact nil
  | some c s new rest h ih =>
      rcases name_cases (c :: s) with hno | ⟨head, hhead, v, hv⟩ | ⟨v, hv⟩
      · rw [proxyPaths_of_noName hno] at h
        cases h
      · rw [hv] at h ⊢
        rw [proxyPaths_temp hhead] at h
        cases h
        exact temp head hhead v ih
      · rw [hv] at h ⊢
        rw [proxyPaths_pytest] at h
        cases h
        exact pytest v ih
  | none c s h ih =>
      rcases name_cases (c :: s) with hno | ⟨head, hhead, v, hv⟩ | ⟨v, hv⟩
      · exact char c s hno ih
      · rw [hv, proxyPaths_temp hhead] at h
        cases h
      · rw [hv, proxyPaths_pytest] at h
        cases h

/-! ### Where the paths part

Both ways to part are here: a temporary directory without a name, where one text
keeps its head and the other does not, and a pytest directory whose name the harness
ends earlier.
-/

theorem keepsHead_proxyPaths : KeepsHead proxyPaths :=
  (Phrase.keepsHead (by decide) (by decide)).either
    ((Phrase.keepsHead (by decide) (by decide)).either (Phrase.keepsHead (by decide) (by decide)))

theorem keepsHead_harnessPaths : KeepsHead harnessPaths :=
  (Phrase.keepsHead (by decide) (by decide)).either
    ((Phrase.keepsHead (by decide) (by decide)).either (Phrase.keepsHead (by decide) (by decide)))

/-- What the two texts still share of a name when they part. -/
def stems : List Str := ["/tmp/thttpd_".toList, "/tmp/pytest_NORMALIZED".toList]

/-- Two texts that go apart right behind a stem. -/
def Parted (a b : Str) : Prop :=
  ∃ x, ∃ stem ∈ stems, ∃ y z, a = x ++ (stem ++ y) ∧ b = x ++ (stem ++ z) ∧ y.head? ≠ z.head?

theorem Parted.append {a b : Str} (h : Parted a b) (w : Str) : Parted (w ++ a) (w ++ b) := by
  obtain ⟨x, stem, hstem, y, z, rfl, rfl, hne⟩ := h
  exact ⟨w ++ x, stem, hstem, y, z, by simp, by simp, hne⟩

/-- Texts that part are different. -/
theorem Parted.ne {a b : Str} (h : Parted a b) : a ≠ b := by
  obtain ⟨x, stem, -, y, z, rfl, rfl, hne⟩ := h
  intro heq
  exact hne (congrArg List.head? (List.append_cancel_left (List.append_cancel_left heq)))

/-- No name begins behind the first character of another. -/
theorem noName_of_avoids {u w : Str} (h : Phrase.Avoids "/tmp/".toList u = true) (hw : w <:+ u)
    (hne : w ≠ []) (t : Str) : NoName (w ++ t) := by
  intro n hn hstart
  exact Phrase.not_prefix_of_avoids h hw hne t ((nameLike_of_mem hn).temp.trans hstart)

theorem mem_names_of_temp {head : Str} (hhead : head ∈ [golden, diff]) : (head, isIdentifier) ∈ names := by
  simp only [List.mem_cons, List.not_mem_nil, or_false] at hhead
  rcases hhead with rfl | rfl
  · exact List.mem_cons_self
  · exact List.mem_cons_of_mem _ List.mem_cons_self

section Temp

variable {head : Str} (hhead : head ∈ [golden, diff]) (v : Str)

include hhead

theorem run_proxyPaths_temp :
    run proxyPaths (head ++ v) =
      "/tmp/thttpd_NORMALIZED".toList ++ run proxyPaths (v.dropWhile isIdentifier) := by
  have hne : head ++ v ≠ [] := List.append_ne_nil_of_left_ne_nil (nameLike_of_mem (mem_names_of_temp hhead)).ne v
  exact run_of_match proper_proxyPaths hne (proxyPaths_temp hhead v)

theorem run_harnessPaths_temp (hv : v.takeWhile isIdentifier ≠ []) :
    run harnessPaths (head ++ v) =
      "/tmp/thttpd_NORMALIZED".toList ++ run harnessPaths (v.dropWhile isIdentifier) := by
  have hne : head ++ v ≠ [] := List.append_ne_nil_of_left_ne_nil (nameLike_of_mem (mem_names_of_temp hhead)).ne v
  have hfound := harnessPaths_temp hhead v
  rw [if_neg (by simpa using hv)] at hfound
  exact run_of_match proper_harnessPaths hne hfound

/-- Without a name the proxy still writes its own. -/
theorem parted_of_unnamed (hv : v.takeWhile isIdentifier = []) :
    Parted (run proxyPaths (head ++ v)) (run harnessPaths (head ++ v)) := by
  have hname := nameLike_of_mem (mem_names_of_temp hhead)
  have hharness : run harnessPaths (head ++ v) = head ++ run harnessPaths v := by
    refine run_copy ?_
    intro w hw hne
    obtain ⟨c, tl, htl⟩ := List.exists_cons_of_ne_nil hname.ne
    replace htl : head = c :: tl := htl
    rw [htl] at hw
    rcases List.suffix_cons_iff.mp hw with rfl | hw
    · rw [← htl, harnessPaths_temp hhead, hv]
      rfl
    · have htail : (head, isIdentifier).1.tail = tl := by rw [show (head, isIdentifier).1 = c :: tl from htl]; rfl
      exact harnessPaths_of_noName (noName_of_avoids (htail ▸ hname.avoids) hw hne v)
  rw [run_proxyPaths_temp hhead, hharness]
  simp only [List.mem_cons, List.not_mem_nil, or_false] at hhead
  rcases hhead with rfl | rfl
  · refine ⟨[], _, List.mem_cons_self, "NORMALIZED".toList ++ _, "golden_".toList ++ _, rfl, rfl, ?_⟩
    exact fun hc => absurd (show some 'N' = some 'g' from hc) (by decide)
  · refine ⟨[], _, List.mem_cons_self, "NORMALIZED".toList ++ _, "diff_".toList ++ _, rfl, rfl, ?_⟩
    exact fun hc => absurd (show some 'N' = some 'd' from hc) (by decide)

end Temp

/-! White space that ends a pytest directory for the harness only. -/

/-- What ends the name for the proxy ends it for the harness. -/
theorem harnessStops_of_proxyStops {c : Char} (h : proxyStops c = true) : harnessStops c = true := by
  unfold proxyStops isAsciiWhitespace at h
  simp only [Bool.or_eq_true, beq_iff_eq] at h
  rcases h with rfl | (((rfl | rfl) | rfl) | rfl) | rfl
  · decide
  · decide
  · decide
  · decide
  · decide
  · decide

/-- The harness's name ends where the proxy's does, if it has no white space. -/
theorem dropWhile_stops_eq {v : Str} (h : ∀ c ∈ v.takeWhile (fun c => !proxyStops c), Harness.isSpace c = false) :
    (v.dropWhile fun c => !harnessStops c) = v.dropWhile fun c => !proxyStops c := by
  induction v with
  | nil => rfl
  | cons d v ih =>
      by_cases hd : proxyStops d = true
      · rw [List.dropWhile_cons_of_neg (by simp [harnessStops_of_proxyStops hd]),
          List.dropWhile_cons_of_neg (by simp [hd])]
      · rw [List.takeWhile_cons_of_pos (by simpa using hd)] at h
        have hspace := h d List.mem_cons_self
        have hslash : d ≠ '/' := by
          rintro rfl
          exact hd rfl
        have hstop : harnessStops d = false := by
          unfold harnessStops
          rw [hspace, beq_eq_false_iff_ne.mpr hslash]
          rfl
        rw [List.dropWhile_cons_of_pos (by simp [hstop]), List.dropWhile_cons_of_pos (by simpa using hd)]
        exact ih fun c hc => h c (List.mem_cons_of_mem d hc)

/-- Otherwise it ends at a character that does not end the proxy's. -/
theorem exists_head_of_space {v : Str} {c : Char} (hc : c ∈ v.takeWhile fun c => !proxyStops c)
    (hspace : Harness.isSpace c = true) :
    ∃ d, (v.dropWhile fun c => !harnessStops c).head? = some d ∧ proxyStops d = false := by
  induction v with
  | nil => cases hc
  | cons d v ih =>
      by_cases hd : proxyStops d = true
      · rw [List.takeWhile_cons_of_neg (by simp [hd])] at hc
        cases hc
      · have hd' : proxyStops d = false := by simpa using hd
        by_cases hstop : harnessStops d = true
        · rw [List.dropWhile_cons_of_neg (by simp [hstop])]
          exact ⟨d, rfl, hd'⟩
        · rw [List.takeWhile_cons_of_pos (by simp [hd'])] at hc
          rw [List.dropWhile_cons_of_pos (by simpa using hstop)]
          rcases List.mem_cons.mp hc with rfl | hc
          · refine absurd ?_ hstop
            unfold harnessStops
            rw [hspace, Bool.or_true]
          · exact ih hc

theorem run_proxyPaths_pytest (v : Str) :
    run proxyPaths (pytest ++ v) =
      "/tmp/pytest_NORMALIZED".toList ++ run proxyPaths (v.dropWhile fun c => !proxyStops c) :=
  run_of_match proper_proxyPaths (List.append_ne_nil_of_left_ne_nil (by decide) v) (proxyPaths_pytest v)

theorem run_harnessPaths_pytest (v : Str) :
    run harnessPaths (pytest ++ v) =
      "/tmp/pytest_NORMALIZED".toList ++ run harnessPaths (v.dropWhile fun c => !harnessStops c) :=
  run_of_match proper_harnessPaths (List.append_ne_nil_of_left_ne_nil (by decide) v) (harnessPaths_pytest v)

/-- So with white space that only the harness knows the harness is behind. -/
theorem parted_of_space {v : Str} {c : Char} (hc : c ∈ v.takeWhile fun c => !proxyStops c)
    (hspace : Harness.isSpace c = true) :
    Parted (run proxyPaths (pytest ++ v)) (run harnessPaths (pytest ++ v)) := by
  rw [run_proxyPaths_pytest, run_harnessPaths_pytest]
  refine ⟨[], _, List.mem_cons_of_mem _ List.mem_cons_self, _, _, rfl, rfl, ?_⟩
  obtain ⟨d, hd, hstop⟩ := exists_head_of_space hc hspace
  rw [head?_run proper_proxyPaths keepsHead_proxyPaths, head?_run proper_harnessPaths keepsHead_harnessPaths, hd]
  intro hhead
  have hnot := List.head?_dropWhile_not (fun c => !proxyStops c) v
  rw [hhead] at hnot
  simp [hstop] at hnot

/-! ### The passes over port numbers

No phrase for a port number reaches into a stem, so in front of the parting it is
found in both texts at the same places, and it is not found across.
-/

/-- What of a phrase for a port number the arguments below use. -/
structure PortLike (w : Phrase Char) : Prop where
  ne : w.head ≠ []
  first : w.new.head? = w.head.head?
  slash : '/' ∉ w.head ∧ w.tail '/' = false
  stem : ∀ stem ∈ stems, Phrase.Avoids w.head stem = true
  plain : w.head.head? ∉ "PWD=/".toList.map some
  pwd : Phrase.Avoids "PWD=/".toList w.head = true ∧ Phrase.Avoids "PWD=/".toList w.new = true
  letter : w.tail 'P' = false
  latin : w.new.all (fun c => c.toNat < 256) = true

theorem portLike_of_mem {w : Phrase Char} (h : w ∈ portWords) : PortLike w := by
  simp only [portWords, List.map_cons, List.map_nil, List.mem_cons, List.not_mem_nil, or_false] at h
  rcases h with rfl | rfl | rfl | rfl
  · exact ⟨by decide, by decide, by decide, by decide, by decide, by decide, by decide, by decide⟩
  · exact ⟨by decide, by decide, by decide, by decide, by decide, by decide, by decide, by decide⟩
  · exact ⟨by decide, by decide, by decide, by decide, by decide, by decide, by decide, by decide⟩
  · exact ⟨by decide, by decide, by decide, by decide, by decide, by decide, by decide, by decide⟩

/-- What each pass keeps, they keep together. -/
theorem portPasses_rel {Q : Str → Str → Prop}
    (step : ∀ w ∈ portWords, ∀ {a b}, Q a b → Q (run w.rule a) (run w.rule b)) {a b : Str} (h : Q a b) :
    Q (portPasses a) (portPasses b) := by
  have hall : ∀ ws : List (Phrase Char), ws ⊆ portWords → ∀ {a b}, Q a b →
      Q (ws.foldl (fun s w => run w.rule s) a) (ws.foldl (fun s w => run w.rule s) b) := by
    intro ws
    induction ws with
    | nil =>
        intro _ a b h
        exact h
    | cons w ws ih =>
        intro hsub a b h
        rw [List.cons_subset] at hsub
        exact ih hsub.2 (step w hsub.1 h)
  exact hall portWords (List.Subset.refl _) h

/-- One such pass keeps texts parted. -/
theorem Parted.run_port {w : Phrase Char} (hw : PortLike w) {a b : Str} (h : Parted a b) :
    Parted (run w.rule a) (run w.rule b) := by
  obtain ⟨x, stem, hstem, y, z, rfl, rfl, hne⟩ := h
  have hslash : ∃ stem', stem = '/' :: stem' := by
    simp only [stems, List.mem_cons, List.not_mem_nil, or_false] at hstem
    rcases hstem with rfl | rfl
    · exact ⟨_, rfl⟩
    · exact ⟨_, rfl⟩
  have hrun : ∀ t, run w.rule (x ++ (stem ++ t)) = run w.rule x ++ (stem ++ run w.rule t) := by
    intro t
    obtain ⟨stem', rfl⟩ := hslash
    rw [List.cons_append, Phrase.run_cut hw.ne hw.slash.1 hw.slash.2, ← List.cons_append,
      Phrase.run_avoids (hw.stem _ hstem)]
  have hhead := head?_run (Phrase.proper hw.ne) (Phrase.keepsHead hw.ne hw.first)
  exact ⟨run w.rule x, stem, hstem, run w.rule y, run w.rule z, hrun y, hrun z, by rwa [hhead, hhead]⟩

theorem Parted.portPasses {a b : Str} (h : Parted a b) : Parted (portPasses a) (portPasses b) :=
  portPasses_rel (fun _ hw _ _ hab => hab.run_port (portLike_of_mem hw)) h

/-! ### The directory after `PWD=`

The proxy looks for a literal that holds a line feed, so in a text anybody writes
its pass does nothing, and the harness's replaces what stands behind `PWD=/`.  Equal
texts stay equal when there is nothing to replace; when there is, they differ; and
texts that were different before do not become equal.
-/

/-- The text begins with what the harness's last pass replaces. -/
def PwdAt (s : Str) : Prop := ∃ c v, s = "PWD=/".toList ++ c :: v ∧ c ≠ '\n'

def HasPwd (s : Str) : Prop := ∃ t, t <:+ s ∧ PwdAt t

theorem hasPwd_cons {c : Char} {s : Str} : HasPwd (c :: s) ↔ PwdAt (c :: s) ∨ HasPwd s := by
  constructor
  · rintro ⟨t, ht, hat⟩
    rcases List.suffix_cons_iff.mp ht with rfl | ht
    · exact .inl hat
    · exact .inr ⟨t, ht, hat⟩
  · rintro (hat | ⟨t, ht, hat⟩)
    · exact ⟨c :: s, List.suffix_rfl, hat⟩
    · exact ⟨t, ht.trans (List.suffix_cons c s), hat⟩

/-- An empty text has none. -/
theorem not_hasPwd_nil : ¬ HasPwd [] := by
  rintro ⟨t, ht, c, v, rfl, -⟩
  cases List.suffix_nil.mp ht

/-- The text begins with the literal part of it. -/
theorem PwdAt.prefix {s : Str} (h : PwdAt s) : "PWD=/".toList <+: s := by
  obtain ⟨c, v, rfl, -⟩ := h
  exact List.prefix_append _ _

/-- The harness replaces nothing where no such text begins. -/
theorem rule_pwdWord_of_not {s : Str} (h : ¬ PwdAt s) : pwdWord.rule s = none := by
  by_contra hsome
  obtain ⟨⟨new, rest⟩, hr⟩ := Option.ne_none_iff_exists'.mp hsome
  obtain ⟨t, rfl, htake, -, -⟩ := Phrase.rule_eq_some_iff.mp hr
  cases t with
  | nil => exact htake rfl rfl
  | cons c v =>
      refine h ⟨c, v, rfl, ?_⟩
      rintro rfl
      exact htake rfl rfl

theorem pwdAt_of_literal {s : Str} (h : pwdLiteral.head <+: s) : PwdAt s := by
  obtain ⟨t, rfl⟩ := h
  exact ⟨'[', "^\n]*".toList ++ t, rfl, by decide⟩

/-- Where the harness replaces nothing, the proxy replaces nothing. -/
theorem run_pwd_eq_of_not {s : Str} (h : ¬ HasPwd s) : run pwdLiteral.rule s = run pwdWord.rule s := by
  have hat : ∀ t, t <:+ s → ¬ PwdAt t := fun t ht hc => h ⟨t, ht, hc⟩
  rw [run_eq_self fun t ht => Phrase.rule_none_of_not_head fun hc => hat t ht (pwdAt_of_literal hc),
    run_eq_self fun t ht => rule_pwdWord_of_not (hat t ht)]

/-- Two texts that are equal, or that part behind a stem. -/
inductive Fork : Str → Str → Prop
  | done : Fork [] []
  | stem {stem y z : Str} : stem ∈ stems → y.head? ≠ z.head? → Fork (stem ++ y) (stem ++ z)
  | cons {a b : Str} (c : Char) : Fork a b → Fork (c :: a) (c :: b)

theorem Fork.refl (s : Str) : Fork s s := by
  induction s with
  | nil => exact .done
  | cons c s ih => exact .cons c ih

theorem Parted.fork {a b : Str} (h : Parted a b) : Fork a b := by
  obtain ⟨x, stem, hstem, y, z, rfl, rfl, hne⟩ := h
  induction x with
  | nil =>
      show Fork (stem ++ y) (stem ++ z)
      exact .stem hstem hne
  | cons c x ih => exact .cons c ih

theorem stem_slash {stem : Str} (h : stem ∈ stems) : stem.head? = some '/' := by
  simp only [stems, List.mem_cons, List.not_mem_nil, or_false] at h
  rcases h with rfl | rfl
  · rfl
  · rfl

theorem head?_stem_append {stem : Str} (h : stem ∈ stems) (y : Str) : (stem ++ y).head? = some '/' := by
  rw [List.head?_append, stem_slash h]
  rfl

theorem Fork.head? {a b : Str} (h : Fork a b) : a.head? = b.head? := by
  cases h with
  | done => rfl
  | stem hstem _ => rw [head?_stem_append hstem, head?_stem_append hstem]
  | cons c _ => rfl

/-- A text that is found in one of the two before they part is found in the other. -/
theorem Fork.split {u : Str} (hu : ∀ stem ∈ stems, Phrase.Avoids stem u = true) {a b : Str} (h : Fork a b)
    (hstart : u <+: a ∨ u <+: b) : ∃ a' b', a = u ++ a' ∧ b = u ++ b' ∧ Fork a' b' := by
  induction u generalizing a b with
  | nil => exact ⟨a, b, rfl, rfl, h⟩
  | cons c u ih =>
      have hall : ∀ stem ∈ stems, ((c :: u).isPrefixOf stem = false ∧ stem.isPrefixOf (c :: u) = false) ∧
          Phrase.Avoids stem u = true := by
        intro stem hstem
        have h := hu stem hstem
        unfold Phrase.Avoids at h
        rw [List.tails_cons, List.all_cons, Bool.and_eq_true] at h
        exact ⟨by simpa using h.1, h.2⟩
      cases h with
      | done =>
          rcases hstart with hp | hp
          · cases List.prefix_nil.mp hp
          · cases List.prefix_nil.mp hp
      | @stem stem y z hstem _ =>
          obtain ⟨⟨h₁, h₂⟩, -⟩ := hall stem hstem
          rcases hstart with hp | hp
          · exact absurd hp (Phrase.not_prefix_append h₁ h₂ y)
          · exact absurd hp (Phrase.not_prefix_append h₁ h₂ z)
      | @cons a b d h =>
          have hstart' : c = d ∧ (u <+: a ∨ u <+: b) := by
            rcases hstart with hp | hp
            · rw [List.cons_prefix_cons] at hp
              exact ⟨hp.1, .inl hp.2⟩
            · rw [List.cons_prefix_cons] at hp
              exact ⟨hp.1, .inr hp.2⟩
          obtain ⟨rfl, hp⟩ := hstart'
          obtain ⟨a', b', rfl, rfl, h'⟩ := ih (fun stem hstem => (hall stem hstem).2) h hp
          exact ⟨a', b', rfl, rfl, h'⟩

/-- What the proxy leaves of its literal text and the harness does not, and its turns. -/
def turns : List Str := ["\n]*".toList, "]*\n".toList, "*\n]".toList]

theorem turn_cons {c : Char} {s : Str} (h : c :: s ∈ turns) : s ++ [c] ∈ turns ∧ c ≠ 'P' ∧ c ≠ '/' := by
  have hall : ∀ s ∈ turns, s.tail ++ s.head?.toList ∈ turns ∧ s.head? ≠ some 'P' ∧ s.head? ≠ some '/' := by
    decide
  simpa using hall _ h

/-- Both passes begin at a capital P. -/
theorem pwd_of_ne {c : Char} (hc : c ≠ 'P') (s : Str) :
    pwdLiteral.rule (c :: s) = none ∧ pwdWord.rule (c :: s) = none := by
  have hhead : some 'P' ≠ some c := by simpa using hc.symm
  exact ⟨Phrase.rule_of_head_ne (w := pwdLiteral) (by decide) hhead s,
    Phrase.rule_of_head_ne (w := pwdWord) (by decide) hhead s⟩

theorem proper_pwdLiteral : Proper pwdLiteral.rule := Phrase.proper (by decide)

theorem proper_pwdWord : Proper pwdWord.rule := Phrase.proper (by decide)

theorem keepsHead_pwdLiteral : KeepsHead pwdLiteral.rule := Phrase.keepsHead (by decide) (by decide)

theorem keepsHead_pwdWord : KeepsHead pwdWord.rule := Phrase.keepsHead (by decide) (by decide)

/-- Once the harness is a few characters behind, it stays behind. -/
theorem Fork.ne_turn {a b : Str} (h : Fork a b) :
    ∀ s ∈ turns, run pwdLiteral.rule a ≠ s ++ run pwdWord.rule b := by
  induction h with
  | done =>
      intro s hs heq
      rw [run_nil, run_nil, List.append_nil] at heq
      rw [← heq] at hs
      revert hs
      decide
  | @stem stem y z hstem _ =>
      intro s hs heq
      obtain ⟨c, s, rfl⟩ : ∃ c s', s = c :: s' := by
        cases s with
        | nil => exact absurd hs (by decide)
        | cons c s => exact ⟨c, s, rfl⟩
      have hhead := head?_run proper_pwdLiteral keepsHead_pwdLiteral (stem ++ y)
      rw [heq, head?_stem_append hstem] at hhead
      exact (turn_cons hs).2.2 (Option.some.inj hhead)
  | @cons a b d _ ih =>
      intro s hs heq
      obtain ⟨c, s, rfl⟩ : ∃ c s', s = c :: s' := by
        cases s with
        | nil => exact absurd hs (by decide)
        | cons c s => exact ⟨c, s, rfl⟩
      obtain ⟨hturn, hP, -⟩ := turn_cons hs
      have hhead := head?_run proper_pwdLiteral keepsHead_pwdLiteral (d :: a)
      rw [heq] at hhead
      obtain rfl : c = d := Option.some.inj hhead
      rw [run_of_none (pwd_of_ne hP a).1, run_of_none (pwd_of_ne hP b).2, List.cons_append,
        List.cons.injEq] at heq
      refine ih _ hturn ?_
      rw [heq.2, List.append_assoc]
      rfl

/-- What the proxy does look for is replaced, and the pass goes on behind it. -/
theorem run_pwdLiteral_head (a : Str) :
    run pwdLiteral.rule (pwdLiteral.head ++ a) = "PWD=NORMALIZED".toList ++ run pwdLiteral.rule a := by
  have hfound := Phrase.rule_head_append (w := pwdLiteral) a
  have hrun := run_of_match proper_pwdLiteral (List.append_ne_nil_of_left_ne_nil (by decide) a) hfound
  rwa [show pwdLiteral.tail = fun _ => false from rfl, dropWhile_false] at hrun

theorem run_pwdWord_head {c : Char} (hc : c ≠ '\n') (v : Str) :
    run pwdWord.rule ("PWD=/".toList ++ c :: v) =
      "PWD=NORMALIZED".toList ++ run pwdWord.rule ((c :: v).dropWhile pwdWord.tail) := by
  have hpos : pwdWord.tail c = true := by simpa [pwdWord] using hc
  have hfound := Phrase.rule_head_append (w := pwdWord) (c :: v)
  rw [List.takeWhile_cons_of_pos hpos] at hfound
  exact run_of_match proper_pwdWord (List.append_ne_nil_of_left_ne_nil (by decide) _) hfound

/--
**The last passes make equal what was equal and has no directory after `PWD=`, and
nothing else.**

A fork is two texts that are equal, or that part behind a stem; the passes that are
left cannot bring together what was set apart there.
-/
theorem Fork.eq_of_run_eq {a b : Str} (h : Fork a b)
    (heq : run pwdLiteral.rule a = run pwdWord.rule b) : a = b ∧ ¬ HasPwd b := by
  induction h with
  | done => exact ⟨rfl, not_hasPwd_nil⟩
  | @stem stem y z hstem hne =>
      have hliteral : ∀ stem ∈ stems, Phrase.Avoids pwdLiteral.head stem = true := by decide
      have hword : ∀ stem ∈ stems, Phrase.Avoids pwdWord.head stem = true := by decide
      rw [Phrase.run_avoids (hliteral stem hstem), Phrase.run_avoids (hword stem hstem)] at heq
      have hhead := congrArg List.head? (List.append_cancel_left heq)
      rw [head?_run proper_pwdLiteral keepsHead_pwdLiteral,
        head?_run proper_pwdWord keepsHead_pwdWord] at hhead
      exact absurd hhead hne
  | @cons a b c h ih =>
      by_cases hliteral : pwdLiteral.head <+: c :: a
      · -- Both replace, and the harness leaves the end of the literal text behind.
        obtain ⟨a', b', ha, hb, hfork⟩ := (Fork.cons c h).split (by decide) (.inl hliteral)
        have hharness : run pwdWord.rule (pwdLiteral.head ++ b') =
            "PWD=NORMALIZED".toList ++ ("\n]*".toList ++ run pwdWord.rule b') := by
          rw [← Phrase.run_avoids (w := pwdWord) (u := "\n]*".toList) (by decide)]
          exact run_pwdWord_head (c := '[') (by decide) _
        rw [ha, hb, run_pwdLiteral_head, hharness] at heq
        exact absurd (List.append_cancel_left heq) (hfork.ne_turn _ List.mem_cons_self)
      · by_cases hat : PwdAt (c :: b)
        · -- Only the harness replaces.
          obtain ⟨a', b', ha, hb, hfork⟩ := (Fork.cons c h).split (u := "PWD=".toList) (by decide)
            (.inr ((List.prefix_append _ _).trans hat.prefix))
          obtain ⟨d, v, hv, hd⟩ := hat
          obtain rfl : b' = '/' :: d :: v := List.append_cancel_left (hb.symm.trans hv)
          obtain ⟨a'', rfl⟩ : ∃ a'', a' = '/' :: a'' := by
            have hhead := hfork.head?
            cases a' with
            | nil => cases hhead
            | cons x a'' => exact ⟨a'', by rw [Option.some.inj hhead]⟩
          have hproxy : run pwdLiteral.rule ("PWD=/".toList ++ a'') =
              "PWD=/".toList ++ run pwdLiteral.rule a'' := by
            refine run_copy ?_
            intro w hw hne
            rcases List.suffix_cons_iff.mp hw with rfl | hw
            · exact Phrase.rule_none_of_not_head (ha ▸ hliteral)
            · exact Phrase.rule_of_avoids (u := "WD=/".toList) (by decide) hw hne a''
          have hwhole : run pwdLiteral.rule (c :: a) = "PWD=/".toList ++ run pwdLiteral.rule a'' := by
            rw [ha]
            exact hproxy
          rw [hwhole, hv, run_pwdWord_head hd] at heq
          have hchar := congrArg (fun l => l[4]?) heq
          have hfalse : some '/' = some 'N' := hchar
          exact absurd hfalse (by decide)
        · rw [run_of_none (Phrase.rule_none_of_not_head hliteral), run_of_none (rule_pwdWord_of_not hat),
            List.cons.injEq] at heq
          obtain ⟨rfl, hno⟩ := ih heq.2
          refine ⟨rfl, ?_⟩
          rw [hasPwd_cons]
          rintro (hc | hc)
          · exact hat hc
          · exact hno hc

/-! ### What the other passes do to `PWD=`

The directory is looked for last, in what the other passes have left, so what counts
is not where it stands in the body but whether a pass before wrote over it.  A pass
writes over it only when it stands inside a name.
-/

/-- Where none begins in the front part, one is found in the rest or not at all. -/
theorem hasPwd_append {u s : Str} (h : ∀ w, w <:+ u → w ≠ [] → ¬ PwdAt (w ++ s)) :
    HasPwd (u ++ s) ↔ HasPwd s := by
  induction u with
  | nil => rfl
  | cons c u ih =>
      have hfront : ¬ PwdAt (c :: (u ++ s)) := h (c :: u) List.suffix_rfl (by simp)
      rw [List.cons_append, hasPwd_cons, or_iff_right hfront]
      exact ih fun w hw => h w (hw.trans (List.suffix_cons c u))

theorem hasPwd_of_avoids {u : Str} (h : Phrase.Avoids "PWD=/".toList u = true) (s : Str) :
    HasPwd (u ++ s) ↔ HasPwd s :=
  hasPwd_append fun _ hw hne hat => Phrase.not_prefix_of_avoids h hw hne s hat.prefix

theorem hasPwd_of_notMem {u : Str} (h : 'P' ∉ u) (s : Str) : HasPwd (u ++ s) ↔ HasPwd s := by
  refine hasPwd_append ?_
  rintro w hw hne ⟨c, v, heq, -⟩
  obtain ⟨d, w, rfl⟩ := List.exists_cons_of_ne_nil hne
  obtain rfl : d = 'P' := (List.cons.inj heq).1
  exact h (hw.subset List.mem_cons_self)

section Run

variable {m : Rule Char} (hp : Proper m) (hk : KeepsHead m)
  (hplain : ∀ c ∈ "PWD=".toList, ∀ s, m (c :: s) = none)
  (hslash : ∀ s new rest, m ('/' :: s) = some (new, rest) →
    s.head? = some 't' ∧ ∃ new', new = '/' :: 't' :: new')

include hp hk hplain hslash

/--
A pass that leaves `PWD=` alone, and no name that begins with a line feed, keeps
what begins with `PWD=` and a directory.
-/
theorem pwdAt_run (s : Str) : PwdAt (run m s) ↔ PwdAt s := by
  have hdir : ∀ x : Str, (∃ c v, run m x = '/' :: c :: v ∧ c ≠ '\n') ↔
      ∃ c v, x = '/' :: c :: v ∧ c ≠ '\n' := by
    intro x
    cases x with
    | nil => simp [run_nil]
    | cons d x =>
        by_cases hd : d = '/'
        · subst hd
          rcases hm : m ('/' :: x) with _ | ⟨new, rest⟩
          · have hhead := head?_run hp hk x
            rw [run_of_none hm]
            cases x with
            | nil => simp [run_nil]
            | cons e x =>
                obtain ⟨y, hy⟩ : ∃ y, run m (e :: x) = e :: y := by
                  rcases hrun : run m (e :: x) with _ | ⟨f, y⟩
                  · rw [hrun] at hhead
                    cases hhead
                  · rw [hrun] at hhead
                    exact ⟨y, by rw [Option.some.inj hhead]⟩
                simp [hy]
          · obtain ⟨hx, new', rfl⟩ := hslash x new rest hm
            rw [run_of_some hp hm]
            cases x with
            | nil => cases hx
            | cons e x =>
                obtain rfl : e = 't' := Option.some.inj hx
                simp
        · have hhead := head?_run hp hk (d :: x)
          constructor
          · rintro ⟨c, v, hrun, -⟩
            rw [hrun] at hhead
            exact absurd (Option.some.inj hhead).symm hd
          · rintro ⟨c, v, hx, -⟩
            exact absurd (List.cons.inj hx).1 hd
  constructor
  · rintro ⟨c, v, hrun, hc⟩
    obtain ⟨x, rfl, hx⟩ := (run_eq_append_iff hp hk hplain).mp
      (show run m s = "PWD=".toList ++ '/' :: c :: v from hrun)
    obtain ⟨c', v', rfl, hc'⟩ := (hdir x).mp ⟨c, v, hx, hc⟩
    exact ⟨c', v', rfl, hc'⟩
  · rintro ⟨c, v, rfl, hc⟩
    obtain ⟨c', v', hrun, hc'⟩ := (hdir ('/' :: c :: v)).mpr ⟨c, v, rfl, hc⟩
    exact ⟨c', v', (run_eq_append_iff hp hk hplain).mpr ⟨'/' :: c :: v, rfl, hrun⟩, hc'⟩

theorem hasPwd_run_of_none {c : Char} {s : Str} (hnone : m (c :: s) = none)
    (ih : HasPwd (run m s) ↔ HasPwd s) : HasPwd (run m (c :: s)) ↔ HasPwd (c :: s) := by
  have hat := pwdAt_run hp hk hplain hslash (c :: s)
  rw [run_of_none hnone] at hat ⊢
  rw [hasPwd_cons, hasPwd_cons, hat, ih]

end Run

/-- The passes over port numbers neither make nor take one away. -/
theorem hasPwd_run_port {w : Phrase Char} (hw : PortLike w) (s : Str) :
    HasPwd (run w.rule s) ↔ HasPwd s := by
  have hp := Phrase.proper hw.ne
  have hnone : ∀ c ∈ "PWD=/".toList, ∀ s, w.rule (c :: s) = none :=
    fun c hc s => Phrase.rule_of_head_ne hw.ne (fun heq => hw.plain (heq ▸ List.mem_map_of_mem hc)) s
  induction s using hp.induct with
  | nil => rfl
  | some c s new rest h ih =>
      rw [run_of_some hp h]
      obtain ⟨t, hs, -, rfl, rfl⟩ := Phrase.rule_eq_some_iff.mp h
      have hrun : 'P' ∉ t.takeWhile w.tail := by
        intro hmem
        have hP := List.mem_takeWhile_imp hmem
        rw [hw.letter] at hP
        cases hP
      have hsplit := hasPwd_of_notMem hrun (t.dropWhile w.tail)
      rw [List.takeWhile_append_dropWhile] at hsplit
      rw [hs, hasPwd_of_avoids hw.pwd.2, hasPwd_of_avoids hw.pwd.1, hsplit]
      exact ih
  | none c s h ih =>
      refine hasPwd_run_of_none hp (Phrase.keepsHead hw.ne hw.first) ?_ ?_ h ih
      · intro d hd
        exact hnone d (List.mem_append_left ['/'] hd)
      · intro t new rest hsome
        rw [hnone '/' (by decide)] at hsome
        cases hsome

theorem hasPwd_portPasses (s : Str) : HasPwd (portPasses s) ↔ HasPwd s := by
  have h := portPasses_rel (Q := fun a b => HasPwd a ↔ HasPwd s) (a := s) (b := s)
    (fun w hw a b hab => (hasPwd_run_port (portLike_of_mem hw) a).trans hab) Iff.rfl
  exact h

/-! ### The texts on which the normalizers agree

The three conditions are about the text as it comes, before any pass.  `Agreeing` is
shown to go through the same reading as the passes: what it says of a text is what
it says of the text behind the first name or character, and something about that
name.
-/

/-- The text ends in the name of a temporary directory, which may go on. -/
def InName (u : Str) : Prop := ∃ n ∈ names, ∃ run, n.1 ++ run <:+ u ∧ ∀ c ∈ run, n.2 c = true

structure Agreeing (s : Str) : Prop where
  /-- Every temporary directory has a name. -/
  named : ∀ head ∈ [golden, diff], ∀ v, head ++ v <:+ s → v.takeWhile isIdentifier ≠ []
  /-- Up to where the proxy ends it, the name of a pytest directory has no white space. -/
  ended : ∀ v, pytest ++ v <:+ s → ∀ c ∈ v.takeWhile (fun c => !proxyStops c), Harness.isSpace c = false
  /-- `PWD=` and a directory are found within a name only. -/
  pwd : ∀ u t, s = u ++ t → PwdAt t → InName u

/-- An ending of two parts lies in the second or reaches into the first. -/
theorem suffix_append_cases {t a b : Str} (h : t <:+ a ++ b) :
    t <:+ b ∨ ∃ w, w <:+ a ∧ w ≠ [] ∧ t = w ++ b := by
  induction a with
  | nil => exact .inl h
  | cons c a ih =>
      rcases List.suffix_cons_iff.mp h with rfl | h
      · exact .inr ⟨c :: a, List.suffix_rfl, by simp, rfl⟩
      · rcases ih h with h | ⟨w, hw, hne, rfl⟩
        · exact .inl h
        · exact .inr ⟨w, hw.trans (List.suffix_cons c a), hne, rfl⟩

theorem not_inName_nil : ¬ InName [] := by
  rintro ⟨n, hn, run, hsuffix, -⟩
  have hnil := List.suffix_nil.mp hsuffix
  exact (nameLike_of_mem hn).ne (List.append_eq_nil_iff.mp hnil).1

/-- A name is found in front of another, or behind it. -/
theorem suffix_name {n : Str × (Char → Bool)} (hn : n ∈ names) {v t : Str} (h : t <:+ n.1 ++ v)
    (htmp : "/tmp/".toList <+: t) : t = n.1 ++ v ∨ t <:+ v.dropWhile n.2 := by
  have hname := nameLike_of_mem hn
  have hv : v.takeWhile n.2 ++ v.dropWhile n.2 = v := List.takeWhile_append_dropWhile
  rw [← hv, ← List.append_assoc] at h
  rcases suffix_append_cases h with h | ⟨w, hw, hne, rfl⟩
  · exact .inr h
  · rcases suffix_append_cases hw with hw | ⟨w', hw', hne', rfl⟩
    · -- There is no slash in a name.
      obtain ⟨d, w, rfl⟩ := List.exists_cons_of_ne_nil hne
      obtain ⟨x, hx⟩ := htmp
      obtain rfl : '/' = d := (List.cons.inj hx).1
      have hclass := List.mem_takeWhile_imp (hw.subset List.mem_cons_self)
      rw [hname.slash] at hclass
      cases hclass
    · obtain ⟨c, tl, htl⟩ := List.exists_cons_of_ne_nil hname.ne
      rw [htl] at hw'
      rcases List.suffix_cons_iff.mp hw' with rfl | hw'
      · left
        rw [htl, List.append_assoc, hv]
      · have havoids := hname.avoids
        rw [htl, List.tail_cons] at havoids
        rw [List.append_assoc] at htmp
        exact absurd htmp (Phrase.not_prefix_of_avoids havoids hw' hne' _)

/-- A directory inside a name is taken away with the name. -/
theorem pwd_name_iff {n : Str × (Char → Bool)} (hn : n ∈ names) (v : Str) :
    (∀ u t, n.1 ++ v = u ++ t → PwdAt t → InName u) ↔
      ∀ u t, v.dropWhile n.2 = u ++ t → PwdAt t → InName u := by
  have hname := nameLike_of_mem hn
  have hv : v.takeWhile n.2 ++ v.dropWhile n.2 = v := List.takeWhile_append_dropWhile
  have hstop : ∀ {d x}, v.dropWhile n.2 = d :: x → n.2 d = false := by
    intro d x hd
    have hnot := List.head?_dropWhile_not n.2 v
    rw [hd] at hnot
    simpa using hnot
  constructor
  · intro h u t hrest hat
    obtain ⟨n', hn', run, hsuffix, hrun⟩ := h (n.1 ++ (v.takeWhile n.2 ++ u)) t
      (by rw [List.append_assoc, List.append_assoc, ← hrest, hv]) hat
    cases u with
    | nil =>
        obtain ⟨c, x, rfl, -⟩ := hat
        have hP : n.2 'P' = false := hstop hrest
        rw [hname.letter] at hP
        cases hP
    | cons d u =>
        have hd : n.2 d = false := hstop hrest
        have hdrop : (v.takeWhile n.2 ++ d :: u).dropWhile n.2 = d :: u := by
          rw [List.dropWhile_append_of_pos fun c hc => List.mem_takeWhile_imp hc,
            List.dropWhile_cons_of_neg (by simp [hd])]
        rcases suffix_name hn hsuffix ((nameLike_of_mem hn').temp.trans (List.prefix_append _ _)) with
          heq | hsuffix
        · obtain ⟨rfl, rfl⟩ := names_unique hn' hn heq
          have hclass := hrun d (by simp)
          rw [hd] at hclass
          cases hclass
        · rw [hdrop] at hsuffix
          exact ⟨n', hn', run, hsuffix, hrun⟩
  · intro h u t hall hat
    have ht : t <:+ (n.1 ++ v.takeWhile n.2) ++ v.dropWhile n.2 := by
      rw [List.append_assoc, hv, hall]
      exact List.suffix_append u t
    rcases suffix_append_cases ht with ⟨u₀, hu₀⟩ | ⟨w, hw, hne, rfl⟩
    · obtain ⟨n', hn', run, hsuffix, hrun⟩ := h u₀ t hu₀.symm hat
      have hu : u = n.1 ++ (v.takeWhile n.2 ++ u₀) := by
        have htail : u ++ t = (n.1 ++ (v.takeWhile n.2 ++ u₀)) ++ t := by
          rw [← hall, List.append_assoc, List.append_assoc, hu₀, hv]
        exact List.append_cancel_right htail
      refine ⟨n', hn', run, hsuffix.trans ?_, hrun⟩
      rw [hu, ← List.append_assoc]
      exact List.suffix_append _ _
    · rcases suffix_append_cases hw with ⟨r, hr⟩ | ⟨w', hw', hne', rfl⟩
      · have hu : u = n.1 ++ r := by
          have htail : u ++ (w ++ v.dropWhile n.2) = (n.1 ++ r) ++ (w ++ v.dropWhile n.2) := by
            rw [← hall, List.append_assoc, ← List.append_assoc r, hr, hv]
          exact List.append_cancel_right htail
        refine ⟨n, hn, r, by rw [hu], ?_⟩
        intro c hc
        exact List.mem_takeWhile_imp (hr ▸ List.mem_append_left w hc)
      · -- There is no such letter in the head.
        obtain ⟨d, w, rfl⟩ := List.exists_cons_of_ne_nil hne'
        obtain ⟨c, x, heq, -⟩ := hat
        obtain rfl : d = 'P' := (List.cons.inj heq).1
        exact absurd (hw'.subset List.mem_cons_self) hname.notMem

theorem suffix_name_iff {n n' : Str × (Char → Bool)} (hn : n ∈ names) (hn' : n' ∈ names) {v v' : Str} :
    n'.1 ++ v' <:+ n.1 ++ v ↔ (n' = n ∧ v' = v) ∨ n'.1 ++ v' <:+ v.dropWhile n.2 := by
  constructor
  · intro h
    rcases suffix_name hn h ((nameLike_of_mem hn').temp.trans (List.prefix_append _ _)) with heq | h
    · exact .inl (names_unique hn' hn heq)
    · exact .inr h
  · rintro (⟨rfl, rfl⟩ | h)
    · exact List.suffix_rfl
    · exact h.trans ((List.dropWhile_suffix _).trans (List.suffix_append _ _))

theorem mem_names_pytest : (pytest, fun c => !proxyStops c) ∈ names := by simp [names]

theorem agreeing_nil : Agreeing [] where
  named := by
    intro head hhead v hsuffix
    have hnil := (List.append_eq_nil_iff.mp (List.suffix_nil.mp hsuffix)).1
    exact absurd hnil (nameLike_of_mem (mem_names_of_temp hhead)).ne
  ended := by
    intro v hsuffix
    have hnil := (List.append_eq_nil_iff.mp (List.suffix_nil.mp hsuffix)).1
    exact absurd hnil (by decide)
  pwd := by
    rintro u t hall ⟨c, v, rfl, -⟩
    have hnil := (List.append_eq_nil_iff.mp hall.symm).2
    cases hnil

/-- A character that begins no name adds one condition only, about `PWD=`. -/
theorem agreeing_cons {c : Char} {s : Str} (hno : NoName (c :: s)) :
    Agreeing (c :: s) ↔ ¬ PwdAt (c :: s) ∧ Agreeing s := by
  have hsuffix : ∀ {n : Str × (Char → Bool)}, n ∈ names → ∀ {v}, n.1 ++ v <:+ c :: s → n.1 ++ v <:+ s := by
    intro n hn v h
    rcases List.suffix_cons_iff.mp h with heq | h
    · exact absurd (heq ▸ List.prefix_append n.1 v) (hno n hn)
    · exact h
  constructor
  · intro h
    refine ⟨?_, ?_, ?_, ?_⟩
    · intro hat
      exact not_inName_nil (h.pwd [] (c :: s) rfl hat)
    · intro head hhead v hv
      exact h.named head hhead v (hv.trans (List.suffix_cons c s))
    · intro v hv
      exact h.ended v (hv.trans (List.suffix_cons c s))
    · rintro u t rfl hat
      obtain ⟨n, hn, run, hrun, hclass⟩ := h.pwd (c :: u) t rfl hat
      rcases List.suffix_cons_iff.mp hrun with heq | hrun
      · refine absurd ?_ (hno n hn)
        rw [← List.cons_append, ← heq, List.append_assoc]
        exact List.prefix_append _ _
      · exact ⟨n, hn, run, hrun, hclass⟩
  · rintro ⟨hat, h⟩
    refine ⟨?_, ?_, ?_⟩
    · intro head hhead v hv
      exact h.named head hhead v (hsuffix (mem_names_of_temp hhead) hv)
    · intro v hv
      exact h.ended v (hsuffix mem_names_pytest hv)
    · intro u t hall hpwd
      cases u with
      | nil =>
          rw [List.nil_append] at hall
          exact absurd (hall ▸ hpwd) hat
      | cons d u =>
          obtain ⟨n, hn, run, hrun, hclass⟩ := h.pwd u t (List.cons.inj hall).2 hpwd
          exact ⟨n, hn, run, hrun.trans (List.suffix_cons d u), hclass⟩

/-- A name is fine by itself, or what comes after it does not matter. -/
theorem agreeing_temp {head : Str} (hhead : head ∈ [golden, diff]) (v : Str) :
    Agreeing (head ++ v) ↔ v.takeWhile isIdentifier ≠ [] ∧ Agreeing (v.dropWhile isIdentifier) := by
  have hn := mem_names_of_temp hhead
  have hrest : v.dropWhile isIdentifier <:+ head ++ v :=
    (List.dropWhile_suffix _).trans (List.suffix_append _ _)
  constructor
  · intro h
    refine ⟨h.named head hhead v List.suffix_rfl, ?_, ?_, ?_⟩
    · intro head' hhead' v' hv'
      exact h.named head' hhead' v' (hv'.trans hrest)
    · intro v' hv'
      exact h.ended v' (hv'.trans hrest)
    · exact (pwd_name_iff hn v).mp h.pwd
  · rintro ⟨hnamed, h⟩
    refine ⟨?_, ?_, (pwd_name_iff hn v).mpr h.pwd⟩
    · intro head' hhead' v' hv'
      rcases (suffix_name_iff hn (mem_names_of_temp hhead')).mp hv' with ⟨-, rfl⟩ | hv'
      · exact hnamed
      · exact h.named head' hhead' v' hv'
    · intro v' hv'
      rcases (suffix_name_iff hn mem_names_pytest).mp hv' with ⟨heq, -⟩ | hv'
      · have hne : pytest ∉ [golden, diff] := by decide
        have hsame : pytest = head := (Prod.ext_iff.mp heq).1
        exact absurd (hsame ▸ hhead) hne
      · exact h.ended v' hv'

/-- A pytest directory agrees when the harness finds its end at the same place. -/
theorem agreeing_pytest (v : Str) :
    Agreeing (pytest ++ v) ↔
      (∀ c ∈ v.takeWhile (fun c => !proxyStops c), Harness.isSpace c = false) ∧
        Agreeing (v.dropWhile fun c => !proxyStops c) := by
  have hrest : (v.dropWhile fun c => !proxyStops c) <:+ pytest ++ v :=
    (List.dropWhile_suffix _).trans (List.suffix_append _ _)
  constructor
  · intro h
    refine ⟨h.ended v List.suffix_rfl, ?_, ?_, ?_⟩
    · intro head' hhead' v' hv'
      exact h.named head' hhead' v' (hv'.trans hrest)
    · intro v' hv'
      exact h.ended v' (hv'.trans hrest)
    · exact (pwd_name_iff mem_names_pytest v).mp h.pwd
  · rintro ⟨hended, h⟩
    refine ⟨?_, ?_, (pwd_name_iff mem_names_pytest v).mpr h.pwd⟩
    · intro head' hhead' v' hv'
      rcases (suffix_name_iff mem_names_pytest (mem_names_of_temp hhead')).mp hv' with ⟨heq, -⟩ | hv'
      · have hne : pytest ∉ [golden, diff] := by decide
        have hsame : head' = pytest := (Prod.ext_iff.mp heq).1
        exact absurd (hsame ▸ hhead') hne
      · exact h.named head' hhead' v' hv'
    · intro v' hv'
      rcases (suffix_name_iff mem_names_pytest mem_names_pytest).mp hv' with ⟨-, rfl⟩ | hv'
      · exact hended
      · exact h.ended v' hv'

/-! ### Agreement

By the induction along the names and characters: a text on which nothing shows is
left equal by the passes over paths, and any other is parted by them for good.
-/

/-- After the passes over paths, the two texts are equal or part for good. -/
theorem paths_eq_or_parted (s : Str) :
    run proxyPaths s = run harnessPaths s ∨ Parted (run proxyPaths s) (run harnessPaths s) := by
  induction s using read_induct with
  | nil => exact .inl rfl
  | temp head hhead v ih =>
      by_cases hv : v.takeWhile isIdentifier = []
      · exact .inr (parted_of_unnamed hhead v hv)
      · rw [run_proxyPaths_temp hhead, run_harnessPaths_temp hhead v hv]
        rcases ih with heq | hparted
        · exact .inl (by rw [heq])
        · exact .inr (hparted.append _)
  | pytest v ih =>
      by_cases hv : ∀ c ∈ v.takeWhile (fun c => !proxyStops c), Harness.isSpace c = false
      · rw [run_proxyPaths_pytest, run_harnessPaths_pytest, dropWhile_stops_eq hv]
        rcases ih with heq | hparted
        · exact .inl (by rw [heq])
        · exact .inr (hparted.append _)
      · simp only [not_forall, Bool.not_eq_false] at hv
        obtain ⟨c, hc, hspace⟩ := hv
        exact .inr (parted_of_space hc hspace)
  | char c s hno ih =>
      rw [run_of_none (proxyPaths_of_noName hno), run_of_none (harnessPaths_of_noName hno)]
      rcases ih with heq | hparted
      · exact .inl (by rw [heq])
      · exact .inr (hparted.append [c])

theorem pwdAt_run_proxyPaths (s : Str) : PwdAt (run proxyPaths s) ↔ PwdAt s := by
  refine pwdAt_run proper_proxyPaths keepsHead_proxyPaths ?_ ?_ s
  · intro c hc s
    refine proxyPaths_of_noName ?_
    intro n hn hstart
    obtain ⟨x, hx⟩ := (nameLike_of_mem hn).temp.trans hstart
    obtain rfl : '/' = c := (List.cons.inj hx).1
    revert hc
    decide
  · intro s new rest h
    rcases name_cases ('/' :: s) with hno | ⟨head, hhead, v, hv⟩ | ⟨v, hv⟩
    · rw [proxyPaths_of_noName hno] at h
      cases h
    · have hs : s.head? = some 't' := by
        simp only [List.mem_cons, List.not_mem_nil, or_false] at hhead
        rcases hhead with rfl | rfl
        · rw [(List.cons.inj hv).2]
          rfl
        · rw [(List.cons.inj hv).2]
          rfl
      rw [hv, proxyPaths_temp hhead] at h
      obtain ⟨rfl, -⟩ := Prod.mk.inj (Option.some.inj h)
      exact ⟨hs, _, rfl⟩
    · have hs : s.head? = some 't' := by
        rw [(List.cons.inj hv).2]
        rfl
      rw [hv, proxyPaths_pytest] at h
      obtain ⟨rfl, -⟩ := Prod.mk.inj (Option.some.inj h)
      exact ⟨hs, _, rfl⟩

/--
The passes over paths leave equal texts, with no directory after `PWD=`, exactly of
the texts that agree.
-/
theorem paths_agree_iff (s : Str) :
    (run proxyPaths s = run harnessPaths s ∧ ¬ HasPwd (run proxyPaths s)) ↔ Agreeing s := by
  induction s using read_induct with
  | nil => exact iff_of_true ⟨rfl, not_hasPwd_nil⟩ agreeing_nil
  | temp head hhead v ih =>
      rw [agreeing_temp hhead]
      by_cases hv : v.takeWhile isIdentifier = []
      · refine iff_of_false ?_ ?_
        · rintro ⟨heq, -⟩
          exact (parted_of_unnamed hhead v hv).ne heq
        · rintro ⟨hne, -⟩
          exact hne hv
      · rw [run_proxyPaths_temp hhead, run_harnessPaths_temp hhead v hv, List.append_right_inj,
          hasPwd_of_avoids (by decide), and_iff_right hv]
        exact ih
  | pytest v ih =>
      rw [agreeing_pytest]
      by_cases hv : ∀ c ∈ v.takeWhile (fun c => !proxyStops c), Harness.isSpace c = false
      · rw [run_proxyPaths_pytest, run_harnessPaths_pytest, dropWhile_stops_eq hv, List.append_right_inj,
          hasPwd_of_avoids (by decide), and_iff_right hv]
        exact ih
      · refine iff_of_false ?_ ?_
        · simp only [not_forall, Bool.not_eq_false] at hv
          obtain ⟨c, hc, hspace⟩ := hv
          rintro ⟨heq, -⟩
          exact (parted_of_space hc hspace).ne heq
        · rintro ⟨hall, -⟩
          exact hv hall
  | char c s hno ih =>
      have hat := pwdAt_run_proxyPaths (c :: s)
      rw [run_of_none (proxyPaths_of_noName hno)] at hat
      rw [agreeing_cons hno, run_of_none (proxyPaths_of_noName hno),
        run_of_none (harnessPaths_of_noName hno), List.cons.injEq, hasPwd_cons, hat, not_or]
      constructor
      · rintro ⟨⟨-, heq⟩, hpwd, hhas⟩
        exact ⟨hpwd, ih.mp ⟨heq, hhas⟩⟩
      · rintro ⟨hpwd, hagree⟩
        obtain ⟨heq, hhas⟩ := ih.mpr hagree
        exact ⟨⟨rfl, heq⟩, hpwd, hhas⟩

/-- The two normalizers on a text. -/
theorem normalized_text_eq_iff (s : Str) : Harness.normalizeBody s = normalizeValue s ↔ Agreeing s := by
  unfold Harness.normalizeBody normalizeValue
  rw [harness_normalizePaths_eq, harness_normalizeCgiOutput_eq, harness_normalizePwd_eq,
    normalizePaths_eq, normalizeCgiOutput_eq, normalizePwd_eq, ← paths_agree_iff]
  rcases paths_eq_or_parted s with heq | hparted
  · rw [← heq, and_iff_right rfl, ← hasPwd_portPasses]
    constructor
    · intro hrun
      exact ((Fork.refl _).eq_of_run_eq hrun.symm).2
    · intro hno
      exact (run_pwd_eq_of_not hno).symm
  · refine iff_of_false ?_ ?_
    · intro hrun
      exact hparted.portPasses.ne (hparted.portPasses.fork.eq_of_run_eq hrun.symm).1
    · rintro ⟨heq, -⟩
      exact hparted.ne heq

/-! ### Bytes

Bodies are bytes, read as Latin-1, one byte for each character.  Neither normalizer
writes anything outside that range, so equal texts are equal bytes and the harness
never fails to encode what it wrote.
-/

/-- A text of Latin-1. -/
def Latin1 (s : Str) : Prop := ∀ c ∈ s, c.toNat < 256

/-- A pass that writes Latin-1 keeps Latin-1. -/
theorem Latin1.run {m : Rule Char} (hp : Proper m) (hw : Writes (fun c => c.toNat < 256) m) {s : Str}
    (h : Latin1 s) : Latin1 (run m s) := run_all hp hw h

theorem writes_latin1 {w : Phrase Char} (h : w.new.all (fun c => c.toNat < 256) = true) :
    Writes (fun c => c.toNat < 256) w.rule :=
  Phrase.writes (by simpa using h)

theorem latin1_portPasses {s : Str} (h : Latin1 s) : Latin1 (portPasses s) := by
  refine portPasses_rel (Q := fun a _ => Latin1 a) (b := []) ?_ h
  intro w hw a _ ha
  have hport := portLike_of_mem hw
  exact ha.run (Phrase.proper hport.ne) (writes_latin1 hport.latin)

theorem latin1_proxy {s : Str} (h : Latin1 s) : Latin1 (normalizeValue s) := by
  have hpaths : Writes (fun c => c.toNat < 256) proxyPaths :=
    (writes_latin1 (by decide)).either ((writes_latin1 (by decide)).either (writes_latin1 (by decide)))
  unfold normalizeValue
  rw [normalizePaths_eq, normalizeCgiOutput_eq, normalizePwd_eq]
  exact (latin1_portPasses (h.run proper_proxyPaths hpaths)).run proper_pwdLiteral (writes_latin1 (by decide))

theorem latin1_harness {s : Str} (h : Latin1 s) : Latin1 (Harness.normalizeBody s) := by
  have hpaths : Writes (fun c => c.toNat < 256) harnessPaths :=
    (writes_latin1 (by decide)).either ((writes_latin1 (by decide)).either (writes_latin1 (by decide)))
  unfold Harness.normalizeBody
  rw [harness_normalizePaths_eq, harness_normalizeCgiOutput_eq, harness_normalizePwd_eq]
  exact (latin1_portPasses (h.run proper_harnessPaths hpaths)).run proper_pwdWord (writes_latin1 (by decide))

/-- What is read from bytes is such a text. -/
theorem latin1_bytesToLatin1 (bytes : Bytes) : Latin1 (bytesToLatin1 bytes) := by
  intro c hc
  obtain ⟨b, -, rfl⟩ := List.mem_map.mp hc
  have hb := b.toNat_lt
  rw [show (Char.ofNat b.toNat).toNat = b.toNat from byteChar_toNat b]
  omega

/-- A text of Latin-1 can be had back from its bytes. -/
theorem bytesToLatin1_latin1ToBytes {s : Str} (h : Latin1 s) : bytesToLatin1 (latin1ToBytes s) = s := by
  unfold bytesToLatin1 latin1ToBytes
  rw [List.map_map]
  refine (List.map_congr_left ?_).trans (List.map_id s)
  intro c hc
  have hlt := h c hc
  show Char.ofNat (UInt8.ofNat c.toNat).toNat = c
  rw [UInt8.toNat_ofNat', Nat.mod_eq_of_lt (by omega), Char.ofNat_toNat]

theorem latin1ToBytes_inj {s t : Str} (hs : Latin1 s) (ht : Latin1 t) :
    latin1ToBytes s = latin1ToBytes t ↔ s = t := by
  constructor
  · intro h
    rw [← bytesToLatin1_latin1ToBytes hs, h, bytesToLatin1_latin1ToBytes ht]
  · rintro rfl
    rfl

/--
**The two normalizers agree on a body exactly when its text is agreeing**: every
temporary directory of the golden or diff runs has a name, no pytest directory has
white space in its name that only the harness knows, and `PWD=/` comes before
anything but a line feed only within such names.  The harness raises for no body.

The text of a body is its bytes read as Latin-1, so every body has one and the
harness has nothing to raise for.
-/
theorem normalizers_agree_iff (body : Bytes) :
    Harness.normalizeBodyBytes body = some (normalizeBodyBytes body) ↔ Agreeing (bytesToLatin1 body) := by
  have hlatin := latin1_bytesToLatin1 body
  have hencode : Harness.normalizeBodyBytes body =
      some (latin1ToBytes (Harness.normalizeBody (bytesToLatin1 body))) := by
    have hall : (Harness.normalizeBody (bytesToLatin1 body)).all (fun c => c.toNat < 256) = true := by
      rw [List.all_eq_true]
      intro c hc
      exact decide_eq_true (latin1_harness hlatin c hc)
    unfold Harness.normalizeBodyBytes Harness.encodeLatin1
    exact if_pos hall
  rw [hencode, Option.some.injEq]
  show _ = latin1ToBytes (normalizeValue (bytesToLatin1 body)) ↔ _
  rw [latin1ToBytes_inj (latin1_harness hlatin) (latin1_proxy hlatin), normalized_text_eq_iff]

/-- **The working directory of a script is replaced by the harness only.** -/
theorem pwd_not_normalized :
    Harness.normalizeBodyBytes (asBytes "PWD=/srv/www\n".toList) =
        some (asBytes "PWD=NORMALIZED\n".toList) ∧
      normalizeBodyBytes (asBytes "PWD=/srv/www\n".toList) = asBytes "PWD=/srv/www\n".toList := by
  exact ⟨by decide +kernel, by decide +kernel⟩

end Thttpd.Migrate
