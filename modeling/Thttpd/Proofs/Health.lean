/-
Health flips exactly on runs.

A backend is unhealthy when so many probes in a row have failed and since then never so
many in a row have succeeded.  The counters carry the proof: each is the length of the
run of its kind that the outcomes end in, so a threshold is met just when a run of that
length ends the history, and what came before is the state the latch was in.

Where the source counts, the statement speaks of the list of outcomes alone, the
last one at its end.  `FailedSince` is a property of such a list, and the two lemmas
about one more outcome say when it changes.
-/
import Thttpd.Migrate.Health
import Thttpd.Lib.Runs

namespace Thttpd.Migrate

open EndRun

/--
So many failures in a row have occurred, and no such number of successes in a row
has been completed since they were.  The last such run of failures is meant: what
holds since an earlier one holds since the last.
-/
def FailedSince (f s : Nat) (outcomes : List Bool) : Prop :=
  ∃ before after, outcomes = before ++ List.replicate f false ++ after ∧
    ¬ List.replicate s true <:+: after

theorem not_failedSince_nil {f : Nat} (hf : 1 ≤ f) (s : Nat) : ¬ FailedSince f s [] := by
  rintro ⟨before, after, h, -⟩
  have hlen := congrArg List.length h
  simp only [List.length_nil, List.length_append, List.length_replicate] at hlen
  omega

/-- A failure makes the backend fail when it completes a run of them. -/
theorem failedSince_failure {f s : Nat} (hs : 1 ≤ s) (outcomes : List Bool) :
    FailedSince f s (outcomes ++ [false]) ↔
      FailedSince f s outcomes ∨ f ≤ trailing false (outcomes ++ [false]) := by
  constructor
  · rintro ⟨before, after, h, hnone⟩
    rcases List.eq_nil_or_concat after with rfl | ⟨rest, last, rfl⟩
    · refine .inr (replicate_suffix_iff.mp ⟨before, ?_⟩)
      rw [h, List.append_nil]
    · rw [List.concat_eq_append, ← List.append_assoc] at h
      obtain ⟨h, -⟩ := List.append_inj' h rfl
      refine .inl ⟨before, rest, h, fun hin => hnone ?_⟩
      exact hin.trans (List.prefix_concat _ _).isInfix
  · rintro (⟨before, after, rfl, hnone⟩ | hrun)
    · refine ⟨before, after ++ [false], by simp, fun hin => ?_⟩
      rcases List.infix_concat_iff.mp hin with hend | hin
      · have hnil := replicate_suffix_of_append (by decide) hend
        rw [List.suffix_nil, List.replicate_eq_nil_iff] at hnil
        omega
      · exact hnone hin
    · obtain ⟨before, hbefore⟩ := replicate_suffix_iff.mpr hrun
      refine ⟨before, [], by rw [List.append_nil, hbefore], fun hin => ?_⟩
      rw [List.infix_nil, List.replicate_eq_nil_iff] at hin
      omega

/-- A success lets it fail on until it completes a run of them. -/
theorem failedSince_success {f s : Nat} (hf : 1 ≤ f) (outcomes : List Bool) :
    FailedSince f s (outcomes ++ [true]) ↔
      FailedSince f s outcomes ∧ trailing true (outcomes ++ [true]) < s := by
  obtain ⟨k, rfl⟩ : ∃ k, f = k + 1 := ⟨f - 1, by omega⟩
  constructor
  · rintro ⟨before, after, h, hnone⟩
    rcases List.eq_nil_or_concat after with rfl | ⟨rest, last, rfl⟩
    · -- the outcomes would end in a failure
      rw [List.append_nil, List.replicate_succ', ← List.append_assoc] at h
      exact absurd (List.append_inj' h rfl).2 (by decide)
    · rw [List.concat_eq_append] at h hnone
      have hrun : ¬ List.replicate s true <:+ outcomes ++ [true] := by
        intro hend
        rw [h, List.replicate_succ', ← List.append_assoc before, List.append_assoc] at hend
        exact hnone (replicate_suffix_of_append (by decide) hend).isInfix
      rw [← List.append_assoc] at h
      obtain ⟨h, -⟩ := List.append_inj' h rfl
      refine ⟨⟨before, rest, h, fun hin => hnone ?_⟩, ?_⟩
      · exact hin.trans (List.prefix_append _ _).isInfix
      · rw [replicate_suffix_iff] at hrun
        omega
  · rintro ⟨⟨before, after, rfl, hnone⟩, hrun⟩
    refine ⟨before, after ++ [true], by simp, fun hin => ?_⟩
    rcases List.infix_concat_iff.mp hin with hend | hin
    · have hlong : List.replicate s true <:+
          before ++ List.replicate (k + 1) false ++ after ++ [true] := by
        rw [List.append_assoc _ after]
        exact hend.trans (List.suffix_append _ _)
      rw [replicate_suffix_iff] at hlong
      omega
    · exact hnone hin

namespace ProbedHealth

/--
What the probes so far have left: the latch says whether the backend has failed, and
each counter is the number of outcomes of its kind at the end of the list.
-/
structure Reflects (cfg : HealthConfig) (outcomes : List Bool) (b : ProbedHealth) : Prop where
  failures : b.consecutiveFailures = trailing false outcomes
  successes : b.consecutiveSuccesses = trailing true outcomes
  flipped : b.health = .unhealthy ↔
    FailedSince cfg.failureThreshold cfg.successThreshold outcomes
  settled : b.health = .healthy ∨ b.health = .unhealthy

theorem countUp_of_lt {checks : Bool} {n : Nat} (h : n + 1 < 4294967296) :
    countUp checks n = some (n + 1) := by
  unfold countUp
  rw [if_neg (by omega), u32_of_lt h]

section

variable {cfg : HealthConfig} {outcomes : List Bool} {b : ProbedHealth}

/--
**One more outcome** is reflected in the state.

A counter of the other kind goes back to zero, and the latch flips only when the run
that the outcome completes is long enough; that is the moment the property of the
list changes too.
-/
theorem Reflects.update (checks : Bool) (hf : 1 ≤ cfg.failureThreshold) (hs : 1 ≤ cfg.successThreshold)
    (h : Reflects cfg outcomes b) (hlen : outcomes.length + 1 < 4294967296) (success : Bool) :
    ∃ b', updateHealth checks cfg b success = some b' ∧ Reflects cfg (outcomes ++ [success]) b' := by
  obtain ⟨hfail, hsucc, hflip, hset⟩ := h
  have hle := trailing_le_length false outcomes
  have hle' := trailing_le_length true outcomes
  cases success with
  | true =>
      have hup : countUp checks b.consecutiveSuccesses = some (trailing true outcomes + 1) := by
        rw [hsucc]
        exact countUp_of_lt (by omega)
      refine ⟨_, by simp only [updateHealth, hup, if_true]; rfl, ?_, ?_, ?_, ?_⟩
      · exact (trailing_concat_of_ne (by decide) _).symm
      · exact (trailing_concat_self true outcomes).symm
      · rw [failedSince_success hf, trailing_concat_self, ← hflip]
        split
        · rename_i hmet
          simp only [reduceCtorEq, false_iff, not_and, not_lt]
          exact fun _ => hmet.1
        · rename_i hnot
          rcases hset with hset | hset <;> simp [hset] at hnot ⊢
          exact hnot
      · split
        · exact .inl rfl
        · exact hset
  | false =>
      have hup : countUp checks b.consecutiveFailures = some (trailing false outcomes + 1) := by
        rw [hfail]
        exact countUp_of_lt (by omega)
      refine ⟨_, by simp only [updateHealth, hup, if_false, Bool.false_eq_true]; rfl, ?_, ?_, ?_, ?_⟩
      · exact (trailing_concat_self false outcomes).symm
      · exact (trailing_concat_of_ne (by decide) _).symm
      · rw [failedSince_failure hs, trailing_concat_self, ← hflip]
        split
        · rename_i hmet
          simp [hmet.1]
        · rename_i hnot
          rcases hset with hset | hset <;> simp [hset] at hnot ⊢
          exact hnot
      · split
        · exact .inr rfl
        · exact hset

/-- **A new backend reflects every outcome it is given.** -/
theorem probe_reflects (checks : Bool) (hf : 1 ≤ cfg.failureThreshold)
    (hs : 1 ≤ cfg.successThreshold) (hlen : outcomes.length < 4294967296) :
    ∃ b, probe checks cfg new outcomes = some b ∧ Reflects cfg outcomes b := by
  induction outcomes using List.reverseRecOn with
  | nil =>
      refine ⟨new, rfl, rfl, rfl, ?_, .inl rfl⟩
      exact iff_of_false (by decide) (not_failedSince_nil hf _)
  | append_singleton outcomes success ih =>
      rw [List.length_append, List.length_singleton] at hlen
      obtain ⟨b, hb, hreflects⟩ := ih (by omega)
      obtain ⟨b', hb', hreflects'⟩ := hreflects.update checks hf hs hlen success
      refine ⟨b', ?_, hreflects'⟩
      unfold probe at hb ⊢
      rw [List.foldlM_append, hb]
      exact (bind_pure _).trans hb'

/--
**Health flips exactly on runs**, and the counters are the length of the current
run.

The thresholds are at least one, and no run of 2³² probes is counted, where the
counters would wrap.
-/
theorem health_flips_on_runs (checks : Bool) {cfg : HealthConfig} (hf : 1 ≤ cfg.failureThreshold)
    (hs : 1 ≤ cfg.successThreshold) {outcomes : List Bool} (hlen : outcomes.length < 4294967296) :
    ∃ b, probe checks cfg new outcomes = some b ∧
      (b.health = .unhealthy ↔
        FailedSince cfg.failureThreshold cfg.successThreshold outcomes) ∧
      b.consecutiveFailures = trailing false outcomes ∧
      b.consecutiveSuccesses = trailing true outcomes ∧
      (b.consecutiveFailures = 0 ∨ b.consecutiveSuccesses = 0) := by
  obtain ⟨b, hb, hfail, hsucc, hflip, -⟩ := probe_reflects checks hf hs hlen
  refine ⟨b, hb, hflip, hfail, hsucc, ?_⟩
  rw [hfail, hsucc]
  rcases List.eq_nil_or_concat outcomes with rfl | ⟨rest, last, rfl⟩
  · exact .inl rfl
  · rw [List.concat_eq_append]
    cases last with
    | true => exact .inl (trailing_concat_of_ne (by decide) _)
    | false => exact .inr (trailing_concat_of_ne (by decide) _)

/-- Three failures, a success, and a failure again, with the default thresholds. -/
theorem health_flips_on_runs_default :
    ∃ b, probe true ⟨3, 2⟩ new [false, false, false, true, false] = some b ∧
      (b.health = .unhealthy ↔ FailedSince 3 2 [false, false, false, true, false]) ∧
      b.consecutiveFailures = trailing false [false, false, false, true, false] ∧
      b.consecutiveSuccesses = trailing true [false, false, false, true, false] ∧
      (b.consecutiveFailures = 0 ∨ b.consecutiveSuccesses = 0) :=
  health_flips_on_runs true (by decide) (by decide) (by decide)

end

end ProbedHealth

end Thttpd.Migrate
