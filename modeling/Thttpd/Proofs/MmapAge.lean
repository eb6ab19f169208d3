/-
The expiry age of the cache of mapped files.

Each cleanup that finds the cache above its limit halves the age, each other one doubles
it again up to 120 seconds.  That is 2^12 times an odd number of nanoseconds: as long as
the first kind is never more than 12 ahead of the second, the age is 120 seconds over a
power of two.  One more and something is cut off, so the age passes 120 seconds on its
way back, or stays at zero.
-/
import Thttpd.Core.Mmc
import Thttpd.Lib.Backoff

namespace Thttpd

open Text

namespace Mappings

/-- For each cleanup of a run, whether it finds the cache above its limit. -/
def oversizes (s : Mappings) : List Op → List Bool
  | [] => []
  | .cleanup now :: ops => s.oversize now :: (s.cleanup now).oversizes ops
  | .map fs path now :: ops => (s.map fs path now).1.oversizes ops
  | .release id :: ops => (s.release id).oversizes ops

theorem after_append (s : Mappings) (ops rest : List Op) :
    s.after (ops ++ rest) = (s.after ops).after rest := by
  induction ops generalizing s with
  | nil => rfl
  | cons op ops ih => exact ih _

theorem oversizes_append (s : Mappings) (ops rest : List Op) :
    s.oversizes (ops ++ rest) = s.oversizes ops ++ (s.after ops).oversizes rest := by
  induction ops generalizing s with
  | nil => rfl
  | cons op ops ih =>
      cases op with
      | map fs path now => exact ih _
      | release id => exact ih _
      | cleanup now => exact congrArg (s.oversize now :: ·) (ih _)

/-- Mapping a file leaves the age alone. -/
theorem map_expireAge (s : Mappings) (fs : FileTable) (path : Str) (now : Nat) :
    (s.map fs path now).1.cache.expireAge = s.cache.expireAge := by
  unfold map
  repeat' split
  all_goals rfl

/--
**The age is adapted by the cleanups alone.**

Mapping a file does not look at the age, and a cleanup looks at the size of the
cache once.
-/
theorem expireAge_after (s : Mappings) (ops : List Op) :
    (s.after ops).cache.expireAge
      = (s.oversizes ops).foldl (fun a oversized => Backoff.adjust defaultExpireAge oversized a)
        s.cache.expireAge := by
  induction ops generalizing s with
  | nil => rfl
  | cons op ops ih =>
      cases op with
      | map fs path now =>
          refine (ih _).trans ?_
          show List.foldl _ (s.map fs path now).1.cache.expireAge _ = _
          rw [map_expireAge]
          rfl
      | release id => exact ih _
      | cleanup now => exact ih _

theorem expireAge_run (maxSize : Nat) (ops : List Op) :
    ((withMaxSize maxSize).after ops).cache.expireAge
      = Backoff.amount defaultExpireAge ((withMaxSize maxSize).oversizes ops) :=
  expireAge_after _ ops

theorem defaultExpireAge_eq : defaultExpireAge = 29296875 * 2 ^ 12 := by decide

/-! ### Sane ages -/

/--
The age is positive and at most 120 seconds, and it is 120 seconds again after
enough cleanups that find the cache within its limit.
-/
def AgeSane (s : Mappings) : Prop :=
  0 < s.cache.expireAge ∧ s.cache.expireAge ≤ defaultExpireAge ∧
    ∃ n, ∀ more, (∀ found ∈ s.oversizes more, found = false) → n ≤ (s.oversizes more).length →
      (s.after more).cache.expireAge = defaultExpireAge

/-- The age is sane throughout a run. -/
def StaysSane (maxSize : Nat) (ops : List Op) : Prop :=
  ∀ before rest, ops = before ++ rest → ((withMaxSize maxSize).after before).AgeSane

theorem ageSane_of_within {maxSize : Nat} {ops : List Op}
    (h : Backoff.Within 12 ((withMaxSize maxSize).oversizes ops)) :
    ((withMaxSize maxSize).after ops).AgeSane := by
  have hpos : 0 < defaultExpireAge := by decide
  have hexact := Backoff.amount_mul_pow defaultExpireAge_eq hpos h
  unfold AgeSane
  rw [expireAge_run]
  refine ⟨?_, ?_, Backoff.depth ((withMaxSize maxSize).oversizes ops), fun more hunder hn => ?_⟩
  · refine Nat.pos_of_ne_zero fun hzero => ?_
    rw [hzero, Nat.zero_mul] at hexact
    exact absurd hexact (by decide)
  · exact Nat.le_trans (Nat.le_mul_of_pos_right _ (Nat.two_pow_pos _)) (Nat.le_of_eq hexact)
  · have hfalse := List.eq_replicate_iff.mpr ⟨rfl, hunder⟩
    rw [← after_append, expireAge_run, oversizes_append, hfalse]
    exact Backoff.amount_back defaultExpireAge_eq hpos h hn

/-! ### An age that is lost -/

/-- All handles can be dropped. -/
theorem after_releases (s : Mappings) :
    s.after (s.handles.map fun h => .release h.id) = { s with handles := [] } ∧
      s.oversizes (s.handles.map fun h => .release h.id) = [] := by
  obtain ⟨cache, handles, nextId⟩ := s
  induction handles with
  | nil => exact ⟨rfl, rfl⟩
  | cons h handles ih =>
      have hdrop : (⟨cache, h :: handles, nextId⟩ : Mappings).release h.id
          = ⟨cache, handles, nextId⟩ := by
        unfold release
        rw [List.eraseP_cons_of_pos (by simp)]
      rw [List.map_cons]
      show (release _ h.id).after _ = _ ∧ (release _ h.id).oversizes _ = _
      rw [hdrop]
      exact ih

/-- Without handles, everything is expired in the end. -/
theorem cleanup_empties {s : Mappings} (hs : s.handles = []) :
    ∃ now, (s.retained now).entries = [] := by
  refine ⟨Tally.total (fun e => e.2.lastUsed) s.cache.entries.entries + s.cache.expireAge, ?_⟩
  show s.cache.entries.entries.filter _ = []
  rw [List.filter_eq_nil_iff]
  intro e he
  have hle : e.2.lastUsed ≤ Tally.total (fun e => e.2.lastUsed) s.cache.entries.entries :=
    Tally.le_total_of_mem (f := fun e => e.2.lastUsed) he
  simp only [keeps, strongCount, hs, List.countP_nil, Bool.or_eq_true, decide_eq_true_eq, not_or]
  omega

/-- An empty cache is within its limit, and stays empty. -/
theorem cleanups_of_empty {s : Mappings} (hs : s.cache.entries.entries = []) (now n : Nat) :
    s.oversizes (List.replicate n (.cleanup now)) = List.replicate n false := by
  induction n generalizing s with
  | zero => rfl
  | succ n ih =>
      have hkept : (s.retained now).entries = [] := by
        show s.cache.entries.entries.filter _ = []
        rw [hs]
        rfl
      have hsize : s.oversize now = false := by
        unfold oversize
        rw [hkept]
        simp [Tally.total]
      rw [List.replicate_succ, List.replicate_succ]
      show s.oversize now :: (s.cleanup now).oversizes _ = _
      rw [hsize, ih hkept]

/--
From every state there are cleanups, as many as one likes, that find the cache
within its limit.
-/
theorem exists_calm (s : Mappings) (n : Nat) :
    ∃ more, (∀ found ∈ s.oversizes more, found = false) ∧ n ≤ (s.oversizes more).length := by
  obtain ⟨hdropped, hnone⟩ := s.after_releases
  obtain ⟨now, hempty⟩ := cleanup_empties (s := { s with handles := [] }) rfl
  have hsize : oversize { s with handles := [] } now = false := by
    unfold oversize
    rw [hempty]
    simp [Tally.total]
  have hcalm : s.oversizes ((s.handles.map fun h => .release h.id) ++
      (.cleanup now :: List.replicate n (.cleanup now))) = false :: List.replicate n false := by
    rw [oversizes_append, hnone, hdropped]
    show oversize _ now :: (cleanup _ now).oversizes _ = _
    rw [hsize, cleanups_of_empty hempty]
  refine ⟨(s.handles.map fun h => .release h.id) ++
    (.cleanup now :: List.replicate n (.cleanup now)), ?_, ?_⟩
  · rw [hcalm]
    intro found hfound
    rcases List.mem_cons.mp hfound with h | h
    · exact h
    · exact List.eq_of_mem_replicate h
  · rw [hcalm]
    simp

/--
**The age stays sane exactly if the cleanups that find the cache above its limit are
never more than 12 ahead of the others.**

The default age is an odd number times 2 to the 12th, so 12 halvings are exact and
the 13th cuts something off that no doubling brings back.
-/
theorem age_stays_sane_iff (maxSize : Nat) (ops : List Op) :
    StaysSane maxSize ops ↔ Backoff.Within 12 ((withMaxSize maxSize).oversizes ops) := by
  constructor
  · intro hsane
    by_contra hwithin
    obtain ⟨-, -, n, hback⟩ := hsane ops [] (List.append_nil ops).symm
    obtain ⟨more, hunder, hn⟩ := ((withMaxSize maxSize).after ops).exists_calm n
    have hodd : Odd 29296875 := ⟨14648437, rfl⟩
    have hlost : Backoff.Lost 29296875 (Backoff.amount defaultExpireAge
        ((withMaxSize maxSize).oversizes (ops ++ more))) := by
      refine Backoff.lost_of_not_within defaultExpireAge_eq hodd fun h => hwithin fun l hl => ?_
      refine h l (hl.trans ?_)
      rw [oversizes_append]
      exact List.prefix_append _ _
    refine hlost.ne_limit defaultExpireAge_eq hodd ?_
    rw [← expireAge_run, after_append]
    exact hback more hunder hn
  · rintro hwithin before rest rfl
    refine ageSane_of_within fun l hl => hwithin l (hl.trans ?_)
    rw [oversizes_append]
    exact List.prefix_append _ _

/-- A file of two bytes. -/
def twoBytes : FileTable := fun _ => some ⟨some ⟨1, 1, 2, 0, 0⟩, [104, 105], true⟩

/-- A file above the limit is held while the age is halved 37 times: it is zero then. -/
def heldLong : List Op := .map twoBytes "/f".toList 0 :: List.replicate 37 (.cleanup 0)

/-- It is dropped after 13 times, and the age passes 120 seconds on its way back. -/
def droppedLate : List Op :=
  .map twoBytes "/f".toList 0 :: (List.replicate 13 (.cleanup 0)
    ++ .release 0 :: List.replicate 14 (.cleanup defaultExpireAge))

theorem age_reaches_zero :
    ¬ StaysSane 1 heldLong ∧ ((withMaxSize 1).after heldLong).cache.expireAge = 0 ∧
      ((withMaxSize 1).after droppedLate).cache.expireAge = 239999991808 := by
  have hzero : ((withMaxSize 1).after heldLong).cache.expireAge = 0 := by decide +kernel
  refine ⟨fun h => ?_, hzero, by decide +kernel⟩
  have hpos := (h heldLong [] (List.append_nil _).symm).1
  omega

end Mappings

end Thttpd
