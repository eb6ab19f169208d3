/-
Passes that settle a list.

A list is settled for a rule that applies nowhere in it.  A pass settles the list for its own
phrases, and leaves it settled for others, if nothing it writes takes part in a match.  That
is a property of the phrases alone, so it can be computed, and passes that have it do nothing
the second time.

Passes that rewrite a text may undo each other's work: what one writes may be what
another looks for.  Nothing of the kind happens when no phrase begins, goes on or
ends within what another writes, and this is decided by looking at the phrases, of
which there are finitely many.
-/
import Thttpd.Lib.Rewrite

namespace Rewrite

variable {α : Type*} [DecidableEq α] {m : Rule α}

/-- The rule applies nowhere in the list. -/
def Settled (m : Rule α) (s : List α) : Prop := ∀ t, t <:+ s → m t = none

/-- The first of several phrases that applies. -/
def anyOf (ws : List (Phrase α)) : Rule α := fun s => ws.findSome? fun w => w.rule s

/-- Passes one after the other, each for several phrases. -/
def runAll (ps : List (List (Phrase α))) (s : List α) : List α :=
  ps.foldl (fun s ws => run (anyOf ws) s) s

namespace Phrase

/-- The rule does not apply within `u`, whatever comes after `u`. -/
def Inert (w : Phrase α) (u : List α) : Bool :=
  u.tails.all fun v => v.isEmpty || (!v.isPrefixOf w.head && !w.head.isPrefixOf v) ||
    (w.some && w.head.isPrefixOf v && (v.drop w.head.length).head?.any fun a => !w.tail a)

/-- What is written for one phrase takes no part in a match of another. -/
def Apart (ws : List (Phrase α)) : Bool :=
  ws.all fun w => !w.head.isEmpty && w.new.head? == w.head.head? &&
    ws.all fun w' => w.Inert w'.new && Avoids w'.new w.head.tail

variable {w : Phrase α}

theorem rule_of_inert {u v : List α} (h : w.Inert u = true) (hv : v <:+ u) (hne : v ≠ []) (t : List α) :
    w.rule (v ++ t) = none := by
  have hplace := List.all_eq_true.mp h v ((List.mem_tails v u).mpr hv)
  rw [Bool.or_eq_true, Bool.or_eq_true, List.isEmpty_iff, or_iff_right hne] at hplace
  rcases hplace with hodd | hfound
  · rw [Bool.and_eq_true, Bool.not_eq_true', Bool.not_eq_true'] at hodd
    exact rule_none_of_not_head (not_prefix_append hodd.2 hodd.1 t)
  · -- The head is there, and an item that is not of the class follows it.
    rw [Bool.and_eq_true, Bool.and_eq_true] at hfound
    obtain ⟨⟨hsome, hhead⟩, hstop⟩ := hfound
    obtain ⟨x, rfl⟩ := List.isPrefixOf_iff_prefix.mp hhead
    rw [List.drop_left] at hstop
    cases x with
    | nil => cases hstop
    | cons a x =>
        have ha : w.tail a = false := by simpa using hstop
        rw [List.append_assoc, rule_head_append, List.cons_append,
          List.takeWhile_cons_of_neg (by rw [ha]; exact Bool.false_ne_true), hsome]
        rfl

theorem avoids_of_suffix {head u v : List α} (h : Avoids head u = true) (hv : v <:+ u) :
    Avoids head v = true := by
  refine List.all_eq_true.mpr fun x hx => List.all_eq_true.mp h x ?_
  exact (List.mem_tails x u).mpr (((List.mem_tails x v).mp hx).trans hv)

theorem rule_nil (hne : w.head ≠ []) : w.rule [] = none :=
  rule_none_of_not_head fun h => hne (List.prefix_nil.mp h)

end Phrase

open Phrase

/-! ### One pass

After the pass the phrase applies nowhere: not within what was written, not across
its edges, and not in what was copied.
-/

/-- A word that the pass writes no part of was there before. -/
theorem append_of_run (hp : Proper m) {u : List α}
    (hnew : ∀ ⦃c s new rest⦄, m (c :: s) = some (new, rest) → Avoids new u = true) {s y : List α}
    (h : run m s = u ++ y) : ∃ x, s = u ++ x ∧ run m x = y := by
  induction u generalizing s with
  | nil => exact ⟨s, rfl, h⟩
  | cons c u ih =>
      cases s with
      | nil => cases h
      | cons d s =>
          rcases hm : m (d :: s) with _ | ⟨new, rest⟩
          · rw [run_of_none hm, List.cons_append] at h
            obtain ⟨rfl, hrun⟩ := List.cons.inj h
            obtain ⟨x, rfl, hx⟩ := ih (fun _ _ _ _ hsome =>
              avoids_of_suffix (hnew hsome) (List.suffix_cons d u)) hrun
            exact ⟨x, rfl, hx⟩
          · rw [run_of_some hp hm] at h
            exact absurd ⟨_, h⟩ (not_prefix_of_avoids (hnew hm) List.suffix_rfl (List.cons_ne_nil c u) y)

omit [DecidableEq α] in
theorem takeWhile_ne_nil_iff {p : α → Bool} {s : List α} :
    s.takeWhile p ≠ [] ↔ s.head?.any p = true := by
  cases s with
  | nil => simp
  | cons a s =>
      rw [List.takeWhile_cons]
      by_cases ha : p a = true
      · simp [ha]
      · simp [ha]

/--
**A pass settles a list** for a phrase that takes no part of what it writes, if the
phrase applied nowhere but where the pass rewrites.
-/
theorem settled_run {w : Phrase α} (hp : Proper m) (hk : KeepsHead m) (hne : w.head ≠ [])
    (hnew : ∀ ⦃c s new rest⦄, m (c :: s) = some (new, rest) →
      w.Inert new = true ∧ Avoids new w.head.tail = true)
    {s : List α} (h : ∀ t, t <:+ s → m t = none → w.rule t = none) : Settled w.rule (run m s) := by
  induction s using hp.induct with
  | nil =>
      intro t ht
      obtain rfl := List.suffix_nil.mp ht
      exact rule_nil hne
  | some c s new rest hm ih =>
      have hrest := ih fun t ht => h t (ht.trans ((hp hm).trans (List.suffix_cons c s)))
      rw [run_of_some hp hm]
      intro t ht
      rcases List.suffix_or_suffix_of_suffix ht (List.suffix_append new (run m rest)) with hin | ⟨u, rfl⟩
      · exact hrest t hin
      · by_cases hu : u = []
        · subst hu
          exact hrest _ List.suffix_rfl
        · have hsuffix : u <:+ new := by
            obtain ⟨v, hv⟩ := ht
            rw [← List.append_assoc] at hv
            exact ⟨v, List.append_cancel_right hv⟩
          exact rule_of_inert (hnew hm).1 hsuffix hu _
  | none c s hm ih =>
      have hrest := ih fun t ht => h t (ht.trans (List.suffix_cons c s))
      rw [run_of_none hm]
      intro t ht
      rcases List.suffix_cons_iff.mp ht with rfl | hin
      · -- A match that begins with the copied item was a match in `s`.
        by_contra hmatch
        obtain ⟨⟨new, rest⟩, hsome⟩ := Option.ne_none_iff_exists'.mp hmatch
        obtain ⟨y, hy, htail, -, -⟩ := rule_eq_some_iff.mp hsome
        obtain ⟨a, head, hhead⟩ := List.exists_cons_of_ne_nil hne
        rw [hhead, List.cons_append] at hy
        obtain ⟨rfl, hrun⟩ := List.cons.inj hy
        have hword : head = w.head.tail := by rw [hhead]; rfl
        obtain ⟨x, rfl, rfl⟩ := append_of_run hp (fun _ _ _ _ hsome => hword ▸ (hnew hsome).2) hrun
        have hnone := h _ List.suffix_rfl hm
        rw [← List.cons_append, ← hhead] at hnone
        have hfound : w.rule (w.head ++ x) = some (w.new, x.dropWhile w.tail) :=
          rule_eq_some_iff.mpr ⟨x, rfl, fun hs => by
            rw [takeWhile_ne_nil_iff, ← head?_run hp hk]
            exact takeWhile_ne_nil_iff.mp (htail hs), rfl, rfl⟩
        rw [hfound] at hnone
        cases hnone
      · exact hrest t hin

/-! ### Several phrases

A pass for several phrases tries them in order at every place.
-/

section

variable {ws ws' : List (Phrase α)}

theorem anyOf_eq_none_iff {s : List α} : anyOf ws s = none ↔ ∀ w ∈ ws, w.rule s = none :=
  List.findSome?_eq_none_iff

theorem mem_of_anyOf {s new rest : List α} (h : anyOf ws s = some (new, rest)) :
    ∃ w ∈ ws, w.rule s = some (new, rest) :=
  List.exists_of_findSome?_eq_some h

theorem anyOf_singleton (w : Phrase α) : anyOf [w] = w.rule := by
  funext s
  simp [anyOf]

theorem proper_anyOf (h : ∀ w ∈ ws, w.head ≠ []) : Proper (anyOf ws) := by
  intro c s new rest hsome
  obtain ⟨w, hw, hrule⟩ := mem_of_anyOf hsome
  exact proper (h w hw) hrule

theorem keepsHead_anyOf (h : ∀ w ∈ ws, w.head ≠ [] ∧ w.new.head? = w.head.head?) :
    KeepsHead (anyOf ws) := by
  intro c s new rest hsome
  obtain ⟨w, hw, hrule⟩ := mem_of_anyOf hsome
  exact keepsHead (h w hw).1 (h w hw).2 hrule

theorem head_of_apart (h : Apart ws = true) {w : Phrase α} (hw : w ∈ ws) :
    w.head ≠ [] ∧ w.new.head? = w.head.head? := by
  have hall := List.all_eq_true.mp h w hw
  rw [Bool.and_eq_true, Bool.and_eq_true, Bool.not_eq_true', beq_iff_eq] at hall
  exact ⟨fun hnil => by simp [hnil] at hall, hall.1.2⟩

theorem pair_of_apart (h : Apart ws = true) {w w' : Phrase α} (hw : w ∈ ws) (hw' : w' ∈ ws) :
    w.Inert w'.new = true ∧ Avoids w'.new w.head.tail = true := by
  have hall := List.all_eq_true.mp h w hw
  rw [Bool.and_eq_true] at hall
  exact Bool.and_eq_true_iff.mp (List.all_eq_true.mp hall.2 w' hw')

/-- A pass settles the list for its phrases, and leaves it settled for others. -/
theorem settled_run_anyOf (h : Apart ws = true) (hsub : ∀ w ∈ ws', w ∈ ws) {w : Phrase α} (hw : w ∈ ws)
    {s : List α} (hs : w ∈ ws' ∨ Settled w.rule s) : Settled w.rule (run (anyOf ws') s) := by
  refine settled_run (proper_anyOf fun w' hw' => (head_of_apart h (hsub w' hw')).1)
    (keepsHead_anyOf fun w' hw' => head_of_apart h (hsub w' hw')) (head_of_apart h hw).1 ?_ ?_
  · intro c s new rest hsome
    obtain ⟨w', hw', hrule⟩ := mem_of_anyOf hsome
    obtain ⟨-, -, -, rfl, -⟩ := rule_eq_some_iff.mp hrule
    exact pair_of_apart h hw (hsub w' hw')
  · intro t ht hnone
    rcases hs with hown | hsettled
    · exact anyOf_eq_none_iff.mp hnone w hown
    · exact hsettled t ht

theorem settled_runAll (h : Apart ws = true) {ps : List (List (Phrase α))}
    (hsub : ∀ w ∈ ps.flatten, w ∈ ws) {w : Phrase α} (hw : w ∈ ws) {s : List α}
    (hs : w ∈ ps.flatten ∨ Settled w.rule s) : Settled w.rule (runAll ps s) := by
  induction ps generalizing s with
  | nil => exact hs.resolve_left (by simp)
  | cons p ps ih =>
      rw [List.flatten_cons] at hs hsub
      have hpart : ∀ w ∈ p, w ∈ ws := fun w hp => hsub w (List.mem_append_left _ hp)
      refine ih (fun w hp => hsub w (List.mem_append_right p hp)) ?_
      rw [List.mem_append, or_assoc] at hs
      rcases hs with hown | hlater | hsettled
      · exact .inr (settled_run_anyOf h hpart hw (.inl hown))
      · exact .inl hlater
      · exact .inr (settled_run_anyOf h hpart hw (.inr hsettled))

theorem runAll_of_settled {ps : List (List (Phrase α))} {s : List α}
    (h : ∀ w ∈ ps.flatten, Settled w.rule s) : runAll ps s = s := by
  induction ps with
  | nil => rfl
  | cons p ps ih =>
      rw [List.flatten_cons] at h
      have hself : run (anyOf p) s = s := run_eq_self fun t ht =>
        anyOf_eq_none_iff.mpr fun w hw => h w (List.mem_append_left _ hw) t ht
      show runAll ps (run (anyOf p) s) = s
      rw [hself]
      exact ih fun w hw => h w (List.mem_append_right p hw)

/-- **Passes for phrases that are apart do nothing the second time.** -/
theorem runAll_runAll {ps : List (List (Phrase α))} (h : Apart ps.flatten = true) (s : List α) :
    runAll ps (runAll ps s) = runAll ps s :=
  runAll_of_settled fun _ hw => settled_runAll h (fun _ hv => hv) hw (.inl hw)

end

end Rewrite
