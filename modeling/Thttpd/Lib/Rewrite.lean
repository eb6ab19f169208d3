/-
Rewriting a list in one pass.

A rule looks at the front of what is left.  Where it applies it says what to write and
where to go on, and elsewhere one item is copied.  What a pass does is said by three
equations and an induction over the places it comes to, and then by what can be read off
the rule alone: when a stretch is copied, when the pass of a list is the passes of its
parts, and when the first item stays the first.

A rule is a function of what is left of the list, and it is not asked about what was
written before.  So the pass of a list is determined place by place, and a statement
about all of it is an induction over the places where the pass stops to look.
-/
import Mathlib.Data.List.Basic
import Mathlib.Data.List.Infix
import Mathlib.Data.List.TakeWhile
import Mathlib.Tactic.Common

namespace Rewrite

variable {α : Type*}

/-- What is written for the front of a list, and what is left of the list. -/
abbrev Rule (α : Type*) := List α → Option (List α × List α)

/-- The pass, where the first items belong to what has been rewritten. -/
def runFrom (m : Rule α) : Nat → List α → List α
  | _, [] => []
  | k + 1, _ :: s => runFrom m k s
  | 0, c :: s =>
      match m (c :: s) with
      | some (new, rest) => new ++ runFrom m (s.length - rest.length) s
      | none => c :: runFrom m 0 s

def run (m : Rule α) (s : List α) : List α := runFrom m 0 s

/-- A rule that rewrites at least one item, and leaves the rest as it is. -/
def Proper (m : Rule α) : Prop :=
  ∀ ⦃c s new rest⦄, m (c :: s) = some (new, rest) → rest <:+ s

/-- A rule that writes the item first which it found first. -/
def KeepsHead (m : Rule α) : Prop :=
  ∀ ⦃c s new rest⦄, m (c :: s) = some (new, rest) → new.head? = some c

/-- A rule that writes nothing but items of a kind. -/
def Writes (P : α → Prop) (m : Rule α) : Prop :=
  ∀ ⦃c s new rest⦄, m (c :: s) = some (new, rest) → ∀ a ∈ new, P a

variable {m : Rule α}

/-! ### The equations

What the pass does at the end of the list, where the rule applies, and where it does
not.  These three determine it, since every step leaves less of the list than there
was.
-/

theorem runFrom_eq (k : Nat) (s : List α) : runFrom m k s = run m (s.drop k) := by
  induction s generalizing k with
  | nil => simp [runFrom, run]
  | cons c s ih =>
      cases k with
      | zero => rfl
      | succ k => exact ih k

theorem run_nil : run m [] = [] := rfl

theorem run_of_none {c : α} {s : List α} (h : m (c :: s) = none) : run m (c :: s) = c :: run m s := by
  simp only [run, runFrom, h]

theorem run_of_some (hp : Proper m) {c : α} {s new rest : List α}
    (h : m (c :: s) = some (new, rest)) : run m (c :: s) = new ++ run m rest := by
  have hrest : s.drop (s.length - rest.length) = rest :=
    (List.suffix_iff_eq_drop.mp (hp h)).symm
  simp only [run, runFrom, h]
  rw [runFrom_eq, hrest]
  rfl

theorem run_of_match (hp : Proper m) {s new rest : List α} (hne : s ≠ [])
    (h : m s = some (new, rest)) : run m s = new ++ run m rest := by
  obtain ⟨c, s, rfl⟩ := List.exists_cons_of_ne_nil hne
  exact run_of_some hp h

/--
Induction over the places a pass comes to: the end of the list, a place where the
rule applies, with what it leaves, and a place where it does not, with the tail.
-/
theorem Proper.induct (hp : Proper m) {P : List α → Prop} (nil : P [])
    (some : ∀ c s new rest, m (c :: s) = some (new, rest) → P rest → P (c :: s))
    (none : ∀ c s, m (c :: s) = none → P s → P (c :: s)) (s : List α) : P s := by
  induction hn : s.length using Nat.strong_induction_on generalizing s with
  | _ n ih =>
      cases s with
      | nil => exact nil
      | cons c s =>
          subst hn
          rcases hm : m (c :: s) with _ | ⟨new, rest⟩
          · exact none c s hm (ih s.length (by simp) s rfl)
          · refine some c s new rest hm (ih rest.length ?_ rest rfl)
            have hle := (hp hm).length_le
            rw [List.length_cons]
            omega

/-- What satisfies the equations is the pass. -/
theorem eq_run (hp : Proper m) {f : List α → List α} (nil : f [] = [])
    (some : ∀ c s new rest, m (c :: s) = some (new, rest) → f (c :: s) = new ++ f rest)
    (none : ∀ c s, m (c :: s) = none → f (c :: s) = c :: f s) (s : List α) : f s = run m s := by
  induction s using hp.induct with
  | nil => exact nil
  | some c s new rest hm ih => rw [some c s new rest hm, run_of_some hp hm, ih]
  | none c s hm ih => rw [none c s hm, run_of_none hm, ih]

/-! ### What can be read off the rule

Most passes are over lists of which one knows where the rule applies.  These lemmas
take such a list apart and put the pass together again, without going through the
equations.
-/

/-- Where the rule does not apply, the pass copies. -/
theorem run_copy {u t : List α} (h : ∀ w, w <:+ u → w ≠ [] → m (w ++ t) = none) :
    run m (u ++ t) = u ++ run m t := by
  induction u with
  | nil => rfl
  | cons c u ih =>
      have hc : m (c :: (u ++ t)) = none := h (c :: u) List.suffix_rfl (by simp)
      rw [List.cons_append, run_of_none hc, ih fun w hw => h w (hw.trans (List.suffix_cons c u)),
        List.cons_append]

theorem run_eq_self {s : List α} (h : ∀ t, t <:+ s → m t = none) : run m s = s := by
  have hcopy := run_copy (m := m) (u := s) (t := []) fun w hw _ => by simpa using h w hw
  simpa [run_nil] using hcopy

/-- The pass of a list whose parts the rule does not connect. -/
theorem run_append (hp : Proper m) {u t : List α}
    (h : ∀ w, w <:+ u → w ≠ [] → m (w ++ t) = (m w).map fun r => (r.1, r.2 ++ t)) :
    run m (u ++ t) = run m u ++ run m t := by
  induction u using hp.induct with
  | nil => rfl
  | some c s new rest hm ih =>
      have hsuffix : rest <:+ c :: s := (hp hm).trans (List.suffix_cons c s)
      have hall : m (c :: (s ++ t)) = some (new, rest ++ t) := by
        have hfront := h (c :: s) List.suffix_rfl (by simp)
        rwa [hm] at hfront
      rw [List.cons_append, run_of_some hp hall, ih fun w hw => h w (hw.trans hsuffix),
        run_of_some hp hm, List.append_assoc]
  | none c s hm ih =>
      have hall : m (c :: (s ++ t)) = none := by
        have hfront := h (c :: s) List.suffix_rfl (by simp)
        rwa [hm] at hfront
      rw [List.cons_append, run_of_none hall,
        ih fun w hw => h w (hw.trans (List.suffix_cons c s)), run_of_none hm, List.cons_append]

theorem head?_run (hp : Proper m) (hk : KeepsHead m) (s : List α) : (run m s).head? = s.head? := by
  cases s with
  | nil => rfl
  | cons c s =>
      rcases hm : m (c :: s) with _ | ⟨new, rest⟩
      · rw [run_of_none hm]
        rfl
      · have hnew := hk hm
        rw [run_of_some hp hm]
        cases new with
        | nil => cases hnew
        | cons d new => exact hnew

/-- A word at whose items the rule never applies is found in the result where it was. -/
theorem run_eq_append_iff (hp : Proper m) (hk : KeepsHead m) {w : List α}
    (hplain : ∀ c ∈ w, ∀ s, m (c :: s) = none) {s y : List α} :
    run m s = w ++ y ↔ ∃ x, s = w ++ x ∧ run m x = y := by
  induction w generalizing s with
  | nil => simp
  | cons c w ih =>
      have hw : ∀ d ∈ w, ∀ s, m (d :: s) = none := fun d hd => hplain d (List.mem_cons_of_mem c hd)
      constructor
      · intro h
        have hhead := head?_run hp hk s
        rw [h] at hhead
        cases s with
        | nil => cases hhead
        | cons d s =>
            obtain rfl : c = d := by simpa using hhead
            rw [run_of_none (hplain c List.mem_cons_self s), List.cons_append, List.cons.injEq] at h
            obtain ⟨x, rfl, hx⟩ := (ih hw).mp h.2
            exact ⟨x, rfl, hx⟩
      · rintro ⟨x, rfl, rfl⟩
        rw [List.cons_append, run_of_none (hplain c List.mem_cons_self _), (ih hw).mpr ⟨x, rfl, rfl⟩,
          List.cons_append]

/-- The items of the result are items of the list or written by the rule. -/
theorem run_all (hp : Proper m) {P : α → Prop} (hnew : Writes P m) {s : List α}
    (hs : ∀ a ∈ s, P a) : ∀ a ∈ run m s, P a := by
  induction s using hp.induct with
  | nil => exact hs
  | some c s new rest hm ih =>
      rw [run_of_some hp hm]
      intro a ha
      rcases List.mem_append.mp ha with ha | ha
      · exact hnew hm a ha
      · exact ih (fun b hb => hs b (List.mem_cons_of_mem c ((hp hm).subset hb))) a ha
  | none c s hm ih =>
      rw [run_of_none hm]
      intro a ha
      rcases List.mem_cons.mp ha with rfl | ha
      · exact hs a List.mem_cons_self
      · exact ih (fun b hb => hs b (List.mem_cons_of_mem c hb)) a ha

/-! ### Words

The rules here: a literal text, then all the items of a class that follow it. -/

/-- The first of two rules that applies. -/
def either (m m' : Rule α) : Rule α := fun s => (m s).or (m' s)

theorem Proper.either {m' : Rule α} (hp : Proper m) (hp' : Proper m') : Proper (either m m') := by
  intro c s new rest h
  rcases Option.or_eq_some_iff.mp h with h | ⟨-, h⟩
  · exact hp h
  · exact hp' h

theorem KeepsHead.either {m' : Rule α} (hk : KeepsHead m) (hk' : KeepsHead m') :
    KeepsHead (either m m') := by
  intro c s new rest h
  rcases Option.or_eq_some_iff.mp h with h | ⟨-, h⟩
  · exact hk h
  · exact hk' h

theorem Writes.either {P : α → Prop} {m' : Rule α} (hw : Writes P m) (hw' : Writes P m') :
    Writes P (either m m') := by
  intro c s new rest h
  rcases Option.or_eq_some_iff.mp h with h | ⟨-, h⟩
  · exact hw h
  · exact hw' h

/--
A literal text and a class of items: the rule takes the text and every item of the
class behind it, and writes something new for both.
-/
structure Phrase (α : Type*) where
  head : List α
  /-- The class of the items after the head. -/
  tail : α → Bool
  /-- Whether there must be one. -/
  some : Bool
  new : List α

namespace Phrase

variable [DecidableEq α] (w : Phrase α)

def rule : Rule α := fun s =>
  if w.head.isPrefixOf s then
    let t := s.drop w.head.length
    if w.some && (t.takeWhile w.tail).isEmpty then none else Option.some (w.new, t.dropWhile w.tail)
  else none

variable {w}

/-- What the rule makes of its head and what comes after. -/
theorem rule_head_append (t : List α) :
    w.rule (w.head ++ t) =
      if w.some && (t.takeWhile w.tail).isEmpty then none else Option.some (w.new, t.dropWhile w.tail) := by
  have hhead : w.head.isPrefixOf (w.head ++ t) = true := List.isPrefixOf_iff_prefix.mpr (List.prefix_append _ _)
  simp only [rule, hhead, if_true, List.drop_left]

theorem rule_none_of_not_head {s : List α} (h : ¬ w.head <+: s) : w.rule s = none := by
  unfold rule
  rw [if_neg fun hc => h (List.isPrefixOf_iff_prefix.mp hc)]

theorem rule_eq_some_iff {s new rest : List α} :
    w.rule s = Option.some (new, rest) ↔
      ∃ t, s = w.head ++ t ∧ (w.some = true → t.takeWhile w.tail ≠ []) ∧ new = w.new ∧
        rest = t.dropWhile w.tail := by
  constructor
  · intro h
    by_cases hhead : w.head <+: s
    · obtain ⟨t, rfl⟩ := hhead
      rw [rule_head_append] at h
      split at h
      · cases h
      · rename_i hsome
        cases h
        refine ⟨t, rfl, ?_, rfl, rfl⟩
        intro hs hempty
        rw [hs, hempty] at hsome
        exact hsome rfl
    · rw [rule_none_of_not_head hhead] at h
      cases h
  · rintro ⟨t, rfl, hsome, rfl, rfl⟩
    rw [rule_head_append, if_neg]
    intro hc
    rw [Bool.and_eq_true, List.isEmpty_iff] at hc
    exact hsome hc.1 hc.2

theorem proper (hne : w.head ≠ []) : Proper w.rule := by
  intro c s new rest h
  obtain ⟨t, hs, -, -, rfl⟩ := rule_eq_some_iff.mp h
  obtain ⟨a, head, hhead⟩ := List.exists_cons_of_ne_nil hne
  rw [hhead, List.cons_append, List.cons.injEq] at hs
  rw [hs.2]
  exact (List.dropWhile_suffix _).trans (List.suffix_append _ _)

theorem keepsHead (hne : w.head ≠ []) (hnew : w.new.head? = w.head.head?) : KeepsHead w.rule := by
  intro c s new rest h
  obtain ⟨t, hs, -, rfl, -⟩ := rule_eq_some_iff.mp h
  obtain ⟨a, head, hhead⟩ := List.exists_cons_of_ne_nil hne
  rw [hhead, List.cons_append, List.cons.injEq] at hs
  rw [hnew, hhead, hs.1]
  rfl

theorem writes {P : α → Prop} (h : ∀ a ∈ w.new, P a) : Writes P w.rule := by
  intro c s new rest hsome
  obtain ⟨t, -, -, rfl, -⟩ := rule_eq_some_iff.mp hsome
  exact h

/-- The rule applies nowhere but at the first item of its head. -/
theorem rule_of_head_ne (hne : w.head ≠ []) {c : α} (hc : w.head.head? ≠ Option.some c) (s : List α) :
    w.rule (c :: s) = none := by
  refine rule_none_of_not_head ?_
  rintro ⟨t, ht⟩
  obtain ⟨a, head, hhead⟩ := List.exists_cons_of_ne_nil hne
  rw [hhead, List.cons_append, List.cons.injEq] at ht
  rw [hhead, ht.1] at hc
  exact hc rfl

omit [DecidableEq α] in
/-- A list that is at odds with another does not begin what begins with that. -/
theorem not_prefix_append [BEq α] [LawfulBEq α] {a b : List α} (h : a.isPrefixOf b = false)
    (h' : b.isPrefixOf a = false) (t : List α) : ¬ a <+: b ++ t := by
  intro hstart
  rcases List.prefix_or_prefix_of_prefix hstart (List.prefix_append b t) with hc | hc
  · rw [List.isPrefixOf_iff_prefix.mpr hc] at h
    cases h
  · rw [List.isPrefixOf_iff_prefix.mpr hc] at h'
    cases h'

/-- The text `head` begins nowhere in `u`, whatever comes after `u`. -/
def Avoids (head u : List α) : Bool :=
  u.tails.all fun v => v.isEmpty || (!v.isPrefixOf head && !head.isPrefixOf v)

theorem not_prefix_of_avoids {head u v : List α} (h : Avoids head u = true) (hv : v <:+ u) (hne : v ≠ [])
    (t : List α) : ¬ head <+: v ++ t := by
  have hpair := List.all_eq_true.mp h v ((List.mem_tails v u).mpr hv)
  simp only [List.isEmpty_iff, hne, Bool.or_eq_true, Bool.and_eq_true, Bool.not_eq_true', false_or] at hpair
  exact not_prefix_append hpair.2 hpair.1 t

theorem rule_of_avoids {u v : List α} (h : Avoids w.head u = true) (hv : v <:+ u) (hne : v ≠ [])
    (t : List α) : w.rule (v ++ t) = none :=
  rule_none_of_not_head (not_prefix_of_avoids h hv hne t)

theorem run_avoids {u : List α} (h : Avoids w.head u = true) (t : List α) :
    run w.rule (u ++ t) = u ++ run w.rule t :=
  run_copy fun _ hv hne => rule_of_avoids h hv hne t

/-- An item outside the phrase cuts the pass. -/
theorem run_cut (hne : w.head ≠ []) {x : α} (hx : x ∉ w.head) (htail : w.tail x = false)
    (u b : List α) : run w.rule (u ++ x :: b) = run w.rule u ++ run w.rule (x :: b) := by
  refine run_append (proper hne) ?_
  intro v _ _
  by_cases hhead : w.head <+: v
  · obtain ⟨t, rfl⟩ := hhead
    have htake : (t ++ x :: b).takeWhile w.tail = t.takeWhile w.tail := by
      rw [List.takeWhile_append]
      split
      · rename_i hfull
        have hall : t.takeWhile w.tail = t := (List.takeWhile_prefix _).eq_of_length hfull
        simp [htail, hall]
      · rfl
    have hdrop : (t ++ x :: b).dropWhile w.tail = t.dropWhile w.tail ++ x :: b := by
      rw [List.dropWhile_append]
      split
      · rename_i hempty
        rw [List.isEmpty_iff.mp hempty, List.dropWhile_cons_of_neg (by simp [htail])]
        rfl
      · rfl
    rw [List.append_assoc, rule_head_append, rule_head_append, htake, hdrop]
    split
    · rfl
    · rfl
  · rw [rule_none_of_not_head hhead, rule_none_of_not_head]
    · rfl
    · -- A head that does not end within `v` would hold the item.
      intro hall
      rcases Nat.lt_or_ge v.length w.head.length with hlen | hlen
      · obtain ⟨t, ht⟩ := hall
        have hx' : x ∈ w.head := by
          have hget : (w.head ++ t)[v.length]? = Option.some x := by simp [ht]
          rw [List.getElem?_append_left hlen] at hget
          exact List.mem_of_getElem? hget
        exact hx hx'
      · exact hhead (List.prefix_of_prefix_length_le hall (List.prefix_append v _) hlen)

end Phrase

end Rewrite
