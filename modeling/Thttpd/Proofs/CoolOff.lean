/-
The cool-off under interleaving.

A probe that fails starts a new cool-off, but `trip` publishes `Open` before it has
renewed `opened_at`, and the probe slot is free before either.  `orderly` is the
condition under which nothing slips through: no check passes while the time of opening
is still to be renewed, no probe fails between another caller's check and its return,
and no renewal is put back by an older reading of the clock.  `Kept` is the invariant
of such runs.

The accesses are those of the source, one atomic operation each, and between any two
of them every other caller may make some of its own.  So the condition is on steps,
not on calls, and so is the invariant.
-/
import Thttpd.Migrate.Atomics
import Thttpd.Proofs.Breaker
import Thttpd.Lib.Lts

namespace Thttpd.Migrate

namespace Callers

/-- The step is none of the three that can shorten a cool-off. -/
def orderly (c : Callers) : Act → Bool
  | .run i =>
      match c.places[i]? with
      | some .admitCheck => !c.breaker.cooled c.now || c.places.all fun p => !p.renewing
      | some (.tripAt _ t) => c.began.all (· ≤ t) || (c.places.eraseIdx i).any Place.renewing
      | some p => !observes c.breaker p || c.places.all fun p => !p.passed
      | none => true
  | _ => true

/-- A step that meets `ok`. -/
def StepWhen (ok : Callers → Act → Bool) (c c' : Callers) : Prop :=
  ∃ a, ok c a = true ∧ c.step a = some c'

/-- What a run of any number of callers can reach. -/
def ReachableWhen (ok : Callers → Act → Bool) : Callers → Prop :=
  Lts.Reachable (fun c => ∃ cfg now n, c = start cfg now n) (StepWhen ok)

/-- What holds of an orderly run. -/
structure Kept (c : Callers) : Prop where
  past : ∀ t ∈ c.began, t ≤ c.now
  /-- Once no caller has it still to do, the time of opening is renewed. -/
  renewed : (∀ p ∈ c.places, p.renewing = false) → ∀ u, c.breaker.openedAt = some u →
    ∀ t ∈ c.began, t ≤ u
  /-- A caller past the check has waited since every trip of a half-open breaker. -/
  waited : ∀ p ∈ c.places, p.passed = true → ∀ t ∈ c.began, t + coolOff ≤ c.now

variable {c c' : Callers}

theorem Kept.start (cfg : CircuitConfig) (now n : Nat) : Kept (start cfg now n) where
  past := by simp [Callers.start]
  renewed := by simp [Callers.start]
  waited := by simp [Callers.start]

theorem Kept.tick (hk : Kept c) (nanos : Nat) : Kept { c with now := c.now + nanos } where
  past := fun t ht => Nat.le_add_right_of_le (hk.past t ht)
  renewed := hk.renewed
  waited := fun p hp hpass t ht => Nat.le_add_right_of_le (hk.waited p hp hpass t ht)

/-! ### What an access can do

Most accesses are of no consequence for the cool-off; three kinds are, and each has
a lemma of its own.
-/

/--
An access that neither passes the check, nor begins to trip a half-open breaker, nor
writes the time of opening.
-/
structure Plain (now : Nat) (b : Breaker) (p : Place) : Prop where
  openedAt : (access now b p).1.openedAt = b.openedAt ∨ (access now b p).1.openedAt = none
  renewing : p.renewing = true → (access now b p).2.renewing = true
  passed : (access now b p).2.passed = true → p.passed = true

theorem plain_of (now : Nat) {b : Breaker} {p : Place}
    (hcheck : p = .admitCheck → b.cooled now = false) (hat : ∀ probing t, p ≠ .tripAt probing t)
    (hobs : observes b p = false) : Plain now b p := by
  cases p with
  | returned v => exact ⟨.inl rfl, id, id⟩
  | routeLoad => cases hs : b.state <;> constructor <;> simp [access, hs, Place.renewing, Place.passed]
  | routeCheck =>
      cases hc : b.cooled now <;> constructor <;>
        simp [access, hc, Place.renewing, Place.passed]
  | routeProbe => exact ⟨.inl rfl, id, id⟩
  | admitLoad => cases hs : b.state <;> constructor <;> simp [access, hs, Place.renewing, Place.passed]
  | admitCheck =>
      have hc := hcheck rfl
      constructor <;> simp [access, hc, Place.renewing, Place.passed]
  | admitSwap =>
      cases hp : b.probeInFlight <;> constructor <;>
        simp [access, hp, Place.renewing, Place.passed]
  | admitStore => exact ⟨.inl rfl, id, by simp [access, Place.passed]⟩
  | recordLoad success =>
      by_cases hs : b.state = .halfOpen <;> constructor <;>
        simp [access, hs, Place.renewing, Place.passed]
  | recordFree success =>
      cases success <;> constructor <;> simp [access, Place.renewing, Place.passed]
  | recordCount success =>
      by_cases hr : b.cfg.minRequests ≤ (b.window.count b.cfg now success).total ∧
          b.cfg.rateExceeds (b.window.count b.cfg now success).errors
            (b.window.count b.cfg now success).total = true <;> constructor <;>
        simp [access, hr, Place.renewing, Place.passed]
  | releaseLoad =>
      by_cases hs : b.state = .halfOpen <;> constructor <;>
        simp [access, hs, Place.renewing, Place.passed]
  | releaseFree => exact ⟨.inl rfl, fun _ => rfl, id⟩
  | tripStore probing => exact ⟨.inl rfl, id, id⟩
  | tripNow probing => exact ⟨.inl rfl, id, id⟩
  | tripAt probing t => exact absurd rfl (hat probing t)
  | tripWindow => exact ⟨.inl rfl, id, id⟩
  | closeStore => exact ⟨.inl rfl, id, id⟩
  | closeAt => exact ⟨.inr rfl, id, id⟩
  | closeWindow => exact ⟨.inl rfl, id, id⟩

/--
A load that finds half-open and trips it leads to a place where `opened_at` is still
to be written.
-/
theorem access_of_observes (now : Nat) {b : Breaker} {p : Place} (h : observes b p = true) :
    (access now b p).1 = b ∧ (access now b p).2.renewing = true ∧
      (access now b p).2.passed = false := by
  cases p with
  | recordLoad success =>
      simp only [observes, Bool.and_eq_true, decide_eq_true_eq, Bool.not_eq_true'] at h
      obtain ⟨hs, rfl⟩ := h
      simp [access, hs, Place.renewing, Place.passed]
  | releaseLoad =>
      have hs : b.state = .halfOpen := of_decide_eq_true h
      simp [access, hs, Place.renewing, Place.passed]
  | _ => cases h

/-! ### One access of one caller

The other callers stay where they are, so what is kept of all of them is checked for
the one that moved.
-/

variable {i : Nat} {p p' : Place} {b' : Breaker}

theorem mem_set_of_ne {places : List Place} {j : Nat} {q : Place} (hij : i ≠ j)
    (hj : places[j]? = some q) : q ∈ places.set i p' := by
  refine List.mem_iff_getElem?.mpr ⟨j, ?_⟩
  rw [List.getElem?_set_ne hij, hj]

/-- If nobody renews after a move, and the caller that moved did not before, nobody did. -/
theorem forall_of_set {places : List Place} (hp : places[i]? = some p) (hold : p.renewing = false)
    (h : ∀ q ∈ places.set i p', q.renewing = false) : ∀ q ∈ places, q.renewing = false := by
  intro q hq
  obtain ⟨j, hj⟩ := List.mem_iff_getElem?.mp hq
  by_cases hij : i = j
  · subst hij
    rw [hp] at hj
    cases hj
    exact hold
  · exact h q (mem_set_of_ne hij hj)

theorem mem_set_self {places : List Place} (hp : places[i]? = some p) : p' ∈ places.set i p' :=
  List.mem_set (List.getElem?_eq_some_iff.mp hp).1 p'

/-- A plain move keeps what is kept. -/
theorem Kept.plain (hk : Kept c) (hp : c.places[i]? = some p)
    (hat : b'.openedAt = c.breaker.openedAt ∨ b'.openedAt = none)
    (hren : p.renewing = true → p'.renewing = true) (hpass : p'.passed = true → p.passed = true) :
    Kept ⟨b', c.now, c.places.set i p', c.began⟩ where
  past := hk.past
  renewed := by
    intro hnone u hu
    rcases hat with hat | hat
    · refine hk.renewed ?_ u (hat ▸ hu)
      cases hpr : p.renewing with
      | false => exact forall_of_set hp hpr hnone
      | true =>
          have hcon := hnone p' (mem_set_self hp)
          rw [hren hpr] at hcon
          cases hcon
    · rw [hat] at hu
      cases hu
  waited := by
    intro q hq hqp
    rcases List.mem_or_eq_of_mem_set hq with hq | rfl
    · exact hk.waited q hq hqp
    · exact hk.waited p (List.mem_of_getElem? hp) (hpass hqp)

/-- A check that passes while nobody renews. -/
theorem Kept.check (hk : Kept c)
    (hcool : c.breaker.cooled c.now = true) (hnone : ∀ q ∈ c.places, q.renewing = false) :
    Kept ⟨c.breaker, c.now, c.places.set i .admitSwap, c.began⟩ where
  past := hk.past
  renewed := fun _ => hk.renewed hnone
  waited := by
    intro q hq hqp t ht
    rcases List.mem_or_eq_of_mem_set hq with hq | rfl
    · exact hk.waited q hq hqp t ht
    · obtain ⟨u, hu, hle⟩ := Breaker.cooled_eq_true hcool
      have htu := hk.renewed hnone u hu t ht
      have hpos := coolOff_pos
      show t + coolOff ≤ c.now
      omega

/-- A half-open breaker begins to be tripped while nobody is past a check. -/
theorem Kept.observe (hk : Kept c) (hp : c.places[i]? = some p)
    (hren : p'.renewing = true) (hpass : p'.passed = false)
    (hnone : ∀ q ∈ c.places, q.passed = false) :
    Kept ⟨c.breaker, c.now, c.places.set i p', c.now :: c.began⟩ where
  past := by
    intro t ht
    rcases List.mem_cons.mp ht with rfl | ht
    · exact Nat.le_refl _
    · exact hk.past t ht
  renewed := by
    intro hno
    have hcon := hno p' (mem_set_self hp)
    rw [hren] at hcon
    cases hcon
  waited := by
    intro q hq hqp
    rcases List.mem_or_eq_of_mem_set hq with hq | rfl
    · rw [hnone q hq] at hqp
      cases hqp
    · rw [hpass] at hqp
      cases hqp

/-- The time of opening is written, and not put back. -/
theorem Kept.renew {t : Nat} (hk : Kept c)
    (hlate : (∀ m ∈ c.began, m ≤ t) ∨ ∃ j q, j ≠ i ∧ c.places[j]? = some q ∧ q.renewing = true) :
    Kept ⟨{ c.breaker with openedAt := some t }, c.now, c.places.set i .tripWindow, c.began⟩ where
  past := hk.past
  renewed := by
    intro hno u hu m hm
    rcases hlate with hall | ⟨j, q, hji, hj, hq⟩
    · obtain rfl : t = u := Option.some.inj hu
      exact hall m hm
    · rw [hno q (mem_set_of_ne (Ne.symm hji) hj)] at hq
      cases hq
  waited := by
    intro q hq hqp
    rcases List.mem_or_eq_of_mem_set hq with hq | rfl
    · exact hk.waited q hq hqp
    · cases hqp

/-! ### Runs

The step lemma by the kind of the access, and the run lemma by induction over the
steps.
-/

theorem all_not {places : List Place} {f : Place → Bool}
    (h : (places.all fun p => !f p) = true) : ∀ q ∈ places, f q = false := by
  intro q hq
  simpa using List.all_eq_true.mp h q hq

/-- **An orderly access keeps what is kept.** -/
theorem Kept.run (hk : Kept c) (hp : c.places[i]? = some p) (hok : c.orderly (.run i) = true) :
    Kept ⟨(access c.now c.breaker p).1, c.now, c.places.set i (access c.now c.breaker p).2,
      if observes c.breaker p then c.now :: c.began else c.began⟩ := by
  simp only [orderly, hp] at hok
  by_cases hobs : observes c.breaker p = true
  · -- The load of `record(false)` or `release_probe`.
    obtain ⟨hb, hren, hpass⟩ := access_of_observes c.now hobs
    have hnone : ∀ q ∈ c.places, q.passed = false := by
      cases p with
      | recordLoad success => exact all_not (by simpa [hobs] using hok)
      | releaseLoad => exact all_not (by simpa [hobs] using hok)
      | _ => cases hobs
    rw [if_pos hobs, hb]
    exact hk.observe hp hren hpass hnone
  · rw [if_neg hobs]
    have hplain (hcheck : p = .admitCheck → c.breaker.cooled c.now = false)
        (hat : ∀ probing t, p ≠ .tripAt probing t) :
        Kept ⟨(access c.now c.breaker p).1, c.now, c.places.set i (access c.now c.breaker p).2,
          c.began⟩ := by
      have h := plain_of c.now hcheck hat (by simpa using hobs)
      exact hk.plain hp h.openedAt h.renewing h.passed
    cases p with
    | admitCheck =>
        cases hcool : c.breaker.cooled c.now with
        | false => exact hplain (fun _ => hcool) (by simp)
        | true =>
            have hnone : ∀ q ∈ c.places, q.renewing = false := all_not (by simpa [hcool] using hok)
            have hacc : access c.now c.breaker .admitCheck = (c.breaker, .admitSwap) := by
              simp [access, hcool]
            rw [hacc]
            exact hk.check hcool hnone
    | tripAt probing t =>
        refine hk.renew ?_
        rcases Bool.or_eq_true _ _ ▸ hok with hall | hany
        · exact .inl fun m hm => of_decide_eq_true (List.all_eq_true.mp hall m hm)
        · obtain ⟨q, hq, hren⟩ := List.any_eq_true.mp hany
          obtain ⟨j, hji, hj⟩ := List.mem_eraseIdx_iff_getElem?.mp hq
          exact .inr ⟨j, q, hji, hj, hren⟩
    | _ => exact hplain (by simp) (by simp)

theorem Kept.enter (hk : Kept c) (hp : c.places[i]? = some p) (hret : p.isReturned = true)
    (call : Call) : Kept { c with places := c.places.set i call.entry } := by
  refine hk.plain hp (.inl rfl) ?_ ?_
  · cases p with
    | returned v => exact fun h => nomatch h
    | _ => cases hret
  · cases call <;> exact fun h => nomatch h

theorem run_eq_some (h : c.step (.run i) = some c') :
    ∃ p, c.places[i]? = some p ∧ p.isReturned = false ∧
      c' = ⟨(access c.now c.breaker p).1, c.now, c.places.set i (access c.now c.breaker p).2,
        if observes c.breaker p then c.now :: c.began else c.began⟩ := by
  cases hp : c.places[i]? with
  | none => simp [Callers.step, hp] at h
  | some p =>
      cases hret : p.isReturned with
      | true => simp [Callers.step, hp, hret] at h
      | false =>
          refine ⟨p, rfl, hret, ?_⟩
          simpa [Callers.step, hp, hret] using h.symm

theorem enter_eq_some {call : Call} (h : c.step (.enter i call) = some c') :
    ∃ p, c.places[i]? = some p ∧ p.isReturned = true ∧
      c' = { c with places := c.places.set i call.entry } := by
  cases hp : c.places[i]? with
  | none => simp [Callers.step, hp] at h
  | some p =>
      cases hret : p.isReturned with
      | true =>
          refine ⟨p, rfl, hret, ?_⟩
          simpa [Callers.step, hp, hret] using h.symm
      | false => simp [Callers.step, hp, hret] at h

/-- **An orderly step keeps what is kept.** -/
theorem Kept.step {a : Act} (hk : Kept c) (hok : c.orderly a = true) (hstep : c.step a = some c') :
    Kept c' := by
  cases a with
  | tick nanos =>
      cases hstep
      exact hk.tick nanos
  | enter i call =>
      obtain ⟨p, hp, hret, rfl⟩ := enter_eq_some hstep
      exact hk.enter hp hret call
  | run i =>
      obtain ⟨p, hp, -, rfl⟩ := run_eq_some hstep
      exact hk.run hp hok

theorem Kept.of_reachable (h : ReachableWhen orderly c) : Kept c := by
  refine Lts.Reachable.invariant Kept h ?_ ?_
  · rintro c ⟨cfg, now, n, rfl⟩
    exact Kept.start cfg now n
  · rintro c c' hk ⟨a, hok, hstep⟩
    exact hk.step hok hstep

/-- What a run reaches is reachable. -/
theorem reachable_of_run {ok : Callers → Act → Bool} {acts : List Act} (h : ReachableWhen ok c)
    (hrun : c.run ok acts = some c') : ReachableWhen ok c' := by
  induction acts generalizing c with
  | nil =>
      cases hrun
      exact h
  | cons a acts ih =>
      rw [Callers.run] at hrun
      split at hrun
      · rename_i hok
        obtain ⟨c₁, hc₁, hrest⟩ := Option.bind_eq_some_iff.mp hrun
        exact ih (Lts.Reachable.tail h ⟨a, hok, hc₁⟩) hrest
      · cases hrun

/--
A call of `try_admit` that returns true has found the breaker closed, or was past
the check of the cool-off.
-/
theorem closed_or_passed (hp : c.places[i]? = some p) (hadm : p.admitting = true)
    (hstep : c.step (.run i) = some c')
    (hret : c'.places[i]? = some (.returned (some true))) :
    (p = .admitLoad ∧ c.breaker.state = .closed) ∨ p = .admitStore := by
  obtain ⟨p', hp', -, rfl⟩ := run_eq_some hstep
  obtain rfl : p = p' := Option.some.inj (hp.symm.trans hp')
  have hnext : (access c.now c.breaker p).2 = .returned (some true) := by
    have hlt := (List.getElem?_eq_some_iff.mp hp).1
    simpa [List.getElem?_set_self hlt] using hret
  cases p with
  | admitLoad => cases hs : c.breaker.state <;> simp [access, hs] at hnext ⊢
  | admitCheck => cases hc : c.breaker.cooled c.now <;> simp [access, hc] at hnext
  | admitSwap => cases hf : c.breaker.probeInFlight <;> simp [access, hf] at hnext
  | admitStore => exact .inr rfl
  | _ => cases hadm

/--
**A failed probe restarts the cool-off**, in every orderly run of any number of
callers: a `try_admit` that returns true has found the breaker closed, or returns a
cool-off or more after every moment at which a half-open breaker began to be
tripped.  The accesses the callers make are those of the methods.

The moment at which a half-open breaker begins to be tripped is noted by the run,
since the breaker itself writes it down only later.
-/
theorem failed_probe_restarts_coolOff (h : ReachableWhen orderly c)
    (hp : c.places[i]? = some p) (hadm : p.admitting = true) (hstep : c.step (.run i) = some c')
    (hret : c'.places[i]? = some (.returned (some true))) :
    ((p = .admitLoad ∧ c.breaker.state = .closed) ∨ ∀ t ∈ c'.began, t + coolOff ≤ c'.now) ∧
      ∀ now (b : Breaker), b.Whole now := by
  refine ⟨?_, fun now b => b.whole now⟩
  rcases closed_or_passed hp hadm hstep hret with hclosed | rfl
  · exact .inl hclosed
  · refine .inr ?_
    obtain ⟨p', hp', -, rfl⟩ := run_eq_some hstep
    obtain rfl := Option.some.inj (hp.symm.trans hp')
    exact (Kept.of_reachable h).waited _ (List.mem_of_getElem? hp) rfl

/-! ### Runs to try things on

Two callers, and accesses of theirs in a chosen order.
-/

/-- Two callers of a breaker that opens at the first failure. -/
def two : Callers := start (.half 10 1) 0 2

/-- Caller `i` calls a method and makes `n` accesses of it. -/
def doing (i : Nat) (call : Call) (n : Nat) : List Act :=
  .enter i call :: List.replicate n (.run i)

/-- The breaker opens and cools, and the first caller claims its probe. -/
def probes : List Act :=
  doing 0 (.record false) 6 ++ .tick coolOff :: doing 0 .tryAdmit 4

/-- A run that meets its condition, and a test of what it comes to. -/
theorem exists_of_acts (ok : Callers → Act → Bool) (acts : List Act) (test : Callers → Bool)
    (h : (two.run ok acts).any test = true) : ∃ c, ReachableWhen ok c ∧ test c = true := by
  obtain ⟨c, hrun, htest⟩ := (Option.any_eq_true _ _).mp h
  exact ⟨c, reachable_of_run (Lts.Reachable.start ⟨_, _, _, rfl⟩) hrun, htest⟩

theorem failed_probe_restarts_coolOff_sample :
    ∃ c c', ReachableWhen orderly c ∧ c.places[1]? = some .admitStore ∧
      c.step (.run 1) = some c' ∧ c'.places[1]? = some (.returned (some true)) ∧
      c'.began ≠ [] ∧ ∀ t ∈ c'.began, t + coolOff ≤ c'.now := by
  obtain ⟨c, hc, htest⟩ := exists_of_acts orderly
    (probes ++ doing 0 (.record false) 6 ++ .tick coolOff :: doing 1 .tryAdmit 3)
    (fun c => c.places[1]? = some .admitStore ∧
      (c.step (.run 1)).any fun c' =>
        c'.places[1]? = some (.returned (some true)) ∧ c'.began ≠ [])
    (by decide +kernel)
  obtain ⟨hp, hafter⟩ := of_decide_eq_true htest
  obtain ⟨c', hstep, htest'⟩ := (Option.any_eq_true _ _).mp hafter
  obtain ⟨hret, hbegan⟩ := of_decide_eq_true htest'
  refine ⟨c, c', hc, hp, hstep, hret, hbegan, ?_⟩
  rcases (failed_probe_restarts_coolOff hc hp rfl hstep hret).1 with ⟨habs, -⟩ | hwait
  · cases habs
  · exact hwait

/--
The probe fails, and before `opened_at` is renewed another caller is admitted by the
old one.
-/
theorem admitted_inside_trip :
    ∃ c c', ReachableWhen (fun _ _ => true) c ∧ c.places[1]? = some .admitStore ∧
      c.step (.run 1) = some c' ∧ c'.places[1]? = some (.returned (some true)) ∧
      ∃ t ∈ c'.began, c'.now < t + coolOff := by
  obtain ⟨c, hc, htest⟩ := exists_of_acts (fun _ _ => true)
    (probes ++ doing 0 (.record false) 3 ++ doing 1 .tryAdmit 3)
    (fun c => c.places[1]? = some .admitStore ∧
      (c.step (.run 1)).any fun c' =>
        c'.places[1]? = some (.returned (some true)) ∧ ∃ t ∈ c'.began, c'.now < t + coolOff)
    (by decide +kernel)
  obtain ⟨hp, hafter⟩ := of_decide_eq_true htest
  obtain ⟨c', hstep, htest'⟩ := (Option.any_eq_true _ _).mp hafter
  obtain ⟨hret, hshort⟩ := of_decide_eq_true htest'
  exact ⟨c, c', hc, hp, hstep, hret, hshort⟩

end Callers

end Thttpd.Migrate
