/-
A half-open breaker and its probe.

A breaker that has become half-open waits for one outcome and takes the first that
comes.  When a probe is only ever claimed while no other request admitted to the
backend is unresolved, that outcome is the probe's own; a request that was admitted
before the breaker opened and comes back late can answer for it otherwise.

The claim itself is nothing but a flag.  A request that is dropped at an await, or
unwound by a panic, takes the knowledge of it away: the breaker then stays half-open
for ever, since nobody is admitted to it and nobody is left to tell it anything.
-/
import Thttpd.Proofs.Probe

namespace Thttpd.Migrate

open Text

namespace Watched

variable {k : Crates} {w w' : Watched} {l : Label} {n : Str}

/-! ### Probes that are claimed alone -/

/-- No task holds an unresolved admission to `n`. -/
def idle (s : Proxy) (n : Str) : Bool := s.tasks.all fun task => task.pc.holds ≠ some n

/--
A step that claims no probe, or claims it while no other request admitted to the
backend is unresolved.
-/
def claimsAlone (k : Crates) (w : Watched) : Label → Bool
  | .run t i =>
      match w.proxy.moveOf k t i with
      | some (_, .breakerAdmit name _ _) =>
          !(w.proxy.state name = some .opened && (w.proxy.pool.breakerAdmit w.proxy.now name).1)
            || idle w.proxy name
      | _ => true
  | _ => true

theorem not_holds_of_idle {s : Proxy} (h : idle s n = true) (t : Nat) : ¬ s.Holds t n := by
  intro hh
  obtain ⟨task, htask, hn⟩ := Option.bind_eq_some_iff.mp hh
  have := List.all_eq_true.mp h task (List.mem_of_getElem? htask)
  exact of_decide_eq_true this hn

/--
Nobody else is in flight to the backend of a breaker that is not closed, apart from
the request that probes it.
-/
structure Sole (w : Watched) (n : Str) : Prop where
  opened : w.proxy.state n = some .opened → w.admitted n = []
  halfOpen : w.proxy.state n = some .halfOpen → ∃ p, w.prober n = some p ∧
    (∀ t, w.proxy.Holds t n → t = p) ∧ (w.admitted n = [] ∨ w.admitted n = [p])

theorem Sole.init (h : Init w) : Sole w n := by
  obtain ⟨backends, cfg, routing, maxBodyBytes, now, rfl⟩ := h
  obtain ⟨hh, ho⟩ := start_state_ne_halfOpen backends cfg routing maxBodyBytes now n
  exact ⟨fun h => absurd h ho, fun h => absurd h hh⟩

/-- A step that admits nobody has no newcomer. -/
theorem newcomer_eq_nil {s s' : Proxy} (h : ∀ t, s'.Holds t n → s.Holds t n) :
    newcomer s l s' n = [] := by
  unfold newcomer
  split
  · rename_i t _
    exact if_neg fun hc => hc.1 (h t hc.2)
  · rfl

/-- What a step that admits nobody leaves of the admitted tasks. -/
theorem admittedAfter_of_quiet {s' : Proxy} (h : ∀ t, s'.Holds t n → w.proxy.Holds t n)
    (hst : s'.state n = w.proxy.state n) :
    w.admittedAfter l s' n = (w.admitted n).filter fun t => s'.Holds t n := by
  have hno : ¬ (s'.state n = some .opened ∧ w.proxy.state n ≠ some .opened) := by
    rintro ⟨h₁, h₂⟩
    exact h₂ (hst ▸ h₁)
  rw [admittedAfter, if_neg hno, newcomer_eq_nil h, List.append_nil]

/-- A step that neither admits anybody nor touches the breaker. -/
theorem Sole.of_quiet (hs : Sole w n) (hstep : w.step k l = some w')
    (hst : w'.proxy.state n = w.proxy.state n)
    (hh : ∀ t, w'.proxy.Holds t n → w.proxy.Holds t n) : Sole w' n := by
  obtain ⟨-, hprober, hadm⟩ := step_eq_some hstep
  have hadm' := congrFun hadm n
  rw [admittedAfter_of_quiet hh hst] at hadm'
  constructor
  · intro ho
    rw [hst] at ho
    rw [hadm', hs.opened ho]
    rfl
  · intro hho
    have hho' := hho
    rw [hst] at hho'
    obtain ⟨p, hp, honly, hlist⟩ := hs.halfOpen hho'
    refine ⟨p, ?_, fun t ht => honly t (hh t ht), ?_⟩
    · rw [hprober, proberAfter, if_pos hho, if_pos hho', hp]
    · rw [hadm']
      rcases hlist with hl | hl
      · exact .inl (by rw [hl]; rfl)
      · rw [hl, List.filter_singleton]
        cases decide (w'.proxy.Holds p n) with
        | true => exact .inr rfl
        | false => exact .inl rfl

/--
**A probe that is claimed alone stays alone.**

One case for each effect of a step.  Only a claim makes a request new at a breaker
that is not closed, and the condition says that nobody else is there then.
-/
theorem Sole.step (hs : Sole w n) (hok : claimsAlone k w l = true)
    (hstep : w.step k l = some w') : Sole w' n := by
  obtain ⟨hproxy, hprober, hadm⟩ := step_eq_some hstep
  cases Proxy.step_effect hproxy n with
  | quiet hst hh => exact hs.of_quiet hstep hst fun t => (hh t).mp
  | admitted t _ hc hst =>
      -- The breaker is closed, and stays so.
      rw [← hst] at hc
      constructor
      · intro ho
        rw [ho] at hc
        simp at hc
      · intro hho
        rw [hho] at hc
        simp at hc
  | claimed t henters ho hho hnot hh =>
      obtain ⟨i, job, admitted, refused, rfl, hmove, hentry⟩ := henters
      have hidle : idle w.proxy n = true := by
        simpa [claimsAlone, hmove, ho, hentry] using hok
      refine ⟨?_, fun _ => ⟨t, ?_, ?_, .inr ?_⟩⟩
      · intro h
        rw [hho] at h
        cases h
      · rw [hprober, proberAfter, if_pos hho, if_neg (by rw [ho]; decide)]
        rfl
      · intro t' ht'
        rcases (hh t').mp ht' with rfl | hold
        · rfl
        · exact absurd hold (not_holds_of_idle hidle t')
      · have hnew : newcomer w.proxy (.run t i) w'.proxy n = [t] :=
          if_pos ⟨hnot, (hh t).mpr (.inl rfl)⟩
        rw [hadm, admittedAfter, if_neg (by rw [hho]; simp), hs.opened ho, hnew]
        rfl
  | settled t _ hheld hne hkeep hh =>
      refine ⟨?_, fun h => absurd h hne⟩
      intro ho
      rw [hadm, admittedAfter]
      split
      · rfl
      · rename_i hno
        have ho' : w.proxy.state n = some .opened := by
          by_contra hc
          exact hno ⟨ho, hc⟩
        rw [hs.opened ho', newcomer_eq_nil fun t' ht' => ((hh t').mp ht').2]
        rfl
  | lost t _ _ hst hh => exact hs.of_quiet hstep hst fun t' ht' => ((hh t').mp ht').2

theorem Sole.of_reachable (h : ReachableWhen k (claimsAlone k) w) : Sole w n := by
  refine Lts.Reachable.invariant (fun w => Sole w n) h (fun _ => Sole.init) ?_
  rintro w w' hs ⟨l, hok, hstep⟩
  exact hs.step hok hstep

/--
A step that takes a breaker out of half-open is an outcome or a release of a request
admitted to the backend.
-/
theorem tells_of_leaves (hho : w.proxy.state n = some .halfOpen) (hstep : w.step k l = some w')
    (hne : w'.proxy.state n ≠ some .halfOpen) :
    ∃ t, w.proxy.Holds t n ∧ w.proxy.Tells k l t n := by
  obtain ⟨hproxy, -, -⟩ := step_eq_some hstep
  cases Proxy.step_effect hproxy n with
  | quiet hst _ => exact absurd (hst.trans hho) hne
  | admitted t _ _ hst => exact absurd (hst.trans hho) hne
  | claimed t _ _ hho' => exact absurd hho' hne
  | settled t htells hheld => exact ⟨t, hheld, htells⟩
  | lost t _ _ hst => exact absurd (hst.trans hho) hne

/--
**Only its own probe resolves a half-open breaker**, in every run in which a probe
is claimed only while no other request admitted to the backend is unresolved; and to
a backend whose breaker is not closed there is then at most one request in flight
that has been admitted since it last opened.

The condition is on the steps that claim a probe and on nothing else.  Requests
admitted while the breaker was closed may still be in flight when the probe is
claimed, and they would resolve it.
-/
theorem half_open_resolved_by_prober (k : Crates) {w : Watched}
    (h : ReachableWhen k (claimsAlone k) w) (n : Str) :
    (w.proxy.state n = some .halfOpen → ∃ p, w.prober n = some p ∧
      ∀ l w', w.step k l = some w' → w'.proxy.state n ≠ some .halfOpen →
        w.proxy.Tells k l p n) ∧
    (w.proxy.state n = some .opened ∨ w.proxy.state n = some .halfOpen →
      (w.admitted n).length ≤ 1) := by
  have hs : Sole w n := Sole.of_reachable h
  constructor
  · intro hho
    obtain ⟨p, hp, honly, -⟩ := hs.halfOpen hho
    refine ⟨p, hp, ?_⟩
    intro l w' hstep hne
    obtain ⟨t, hheld, htells⟩ := tells_of_leaves hho hstep hne
    rw [← honly t hheld]
    exact htells
  · rintro (ho | hho)
    · rw [hs.opened ho]
      exact Nat.zero_le 1
    · obtain ⟨p, -, -, hlist⟩ := hs.halfOpen hho
      rcases hlist with hl | hl <;> rw [hl] <;> simp

theorem half_open_resolved_by_prober_sample :
    ∃ w, ReachableWhen .sample (claimsAlone .sample) w ∧
      w.proxy.state backendA = some .halfOpen ∧ (w.admitted backendA).length ≤ 1 ∧
      ∃ p, w.prober backendA = some p ∧
        ∀ l w', w.step .sample l = some w' → w'.proxy.state backendA ≠ some .halfOpen →
          w.proxy.Tells .sample l p backendA := by
  obtain ⟨w, hw, htest⟩ := exists_of_run .sample (claimsAlone .sample)
    (sends 0 ++ failsAndCools 0 ++ sends 1)
    (fun w => w.proxy.state backendA = some .halfOpen) (by decide +kernel)
  have hho := of_decide_eq_true htest
  obtain ⟨hown, hsole⟩ := half_open_resolved_by_prober .sample hw backendA
  exact ⟨w, hw, hho, hsole (.inr hho), hown hho⟩

/-- The first request succeeds. -/
def lateSuccess : Label := .run 0 (.answer (.ok ⟨200, [], []⟩))

/--
A request admitted before the breaker opened answers late, and its success closes
the breaker under the probe of another request.
-/
theorem late_outcome_closes_half_open :
    ∃ w, ReachableWhen .sample (fun _ _ => true) w ∧
      w.proxy.state backendA = some .halfOpen ∧ w.prober backendA = some 2 ∧
      ∃ l w', w.step .sample l = some w' ∧ w'.proxy.state backendA = some .closed ∧
        w'.proxy.Holds 2 backendA ∧ ¬ w.proxy.Tells .sample l 2 backendA := by
  obtain ⟨w, hw, htest⟩ := exists_of_run .sample (fun _ _ => true)
    (sends 0 ++ sends 1 ++ failsAndCools 1 ++ sends 2)
    (fun w => w.proxy.state backendA = some .halfOpen ∧ w.prober backendA = some 2 ∧
      (w.step .sample lateSuccess).any fun w' =>
        w'.proxy.state backendA = some .closed ∧ w'.proxy.Holds 2 backendA)
    (by decide +kernel)
  obtain ⟨hho, hp, hafter⟩ := of_decide_eq_true htest
  obtain ⟨w', hstep, htest'⟩ := (Option.any_eq_true _ _).mp hafter
  obtain ⟨hclosed, hheld⟩ := of_decide_eq_true htest'
  refine ⟨w, hw, hho, hp, lateSuccess, w', hstep, hclosed, hheld, ?_⟩
  rintro ⟨i, job, m, hl, -⟩
  cases hl

/-! ### Probes that are not lost -/

/-- A step that neither drops nor unwinds the task a half-open breaker waits for. -/
def keepsProber (k : Crates) (w : Watched) (l : Label) : Bool :=
  match w.proxy.lost k l with
  | some t =>
      match w.proxy.held t with
      | some n => !(w.proxy.state n = some .halfOpen && w.prober n = some t)
      | none => true
  | none => true

/--
A half-open breaker has a live task that claimed its probe and has not told it
anything.
-/
def Attended (w : Watched) (n : Str) : Prop :=
  w.proxy.state n = some .halfOpen → ∃ t, w.prober n = some t ∧ w.proxy.Holds t n

/--
**A probe that is not lost is attended.**

While the breaker stays half-open the one who claimed its probe stays the same, so
it is enough that this task is not lost.
-/
theorem Attended.step (ha : Attended w n) (hok : keepsProber k w l = true)
    (hstep : w.step k l = some w') : Attended w' n := by
  obtain ⟨hproxy, hprober, -⟩ := step_eq_some hstep
  intro hho'
  have hkept (hst : w'.proxy.state n = w.proxy.state n) :
      ∃ t, w'.prober n = some t ∧ w.prober n = some t ∧ w.proxy.Holds t n := by
    have hho : w.proxy.state n = some .halfOpen := hst ▸ hho'
    obtain ⟨t, ht, hheld⟩ := ha hho
    exact ⟨t, by rw [hprober, proberAfter, if_pos hho', if_pos hho, ht], ht, hheld⟩
  cases Proxy.step_effect hproxy n with
  | quiet hst hh =>
      obtain ⟨t, ht, -, hheld⟩ := hkept hst
      exact ⟨t, ht, (hh t).mpr hheld⟩
  | admitted t _ _ hst _ hh =>
      obtain ⟨t', ht', -, hheld⟩ := hkept hst
      exact ⟨t', ht', (hh t').mpr (.inr hheld)⟩
  | claimed t henters ho _ _ hh =>
      obtain ⟨i, job, admitted, refused, rfl, -, -⟩ := henters
      refine ⟨t, ?_, (hh t).mpr (.inl rfl)⟩
      rw [hprober, proberAfter, if_pos hho', if_neg (by rw [ho]; decide)]
      rfl
  | settled t _ _ hne => exact absurd hho' hne
  | lost t hlost hheld hst hh =>
      obtain ⟨t', ht', hp, hheld'⟩ := hkept hst
      refine ⟨t', ht', (hh t').mpr ⟨?_, hheld'⟩⟩
      -- The lost task is another one, because the condition excludes the prober.
      rintro rfl
      unfold Proxy.Holds at hheld
      simp [keepsProber, hlost, hheld, hp, hst ▸ hho'] at hok

theorem Attended.of_reachable (h : ReachableWhen k (keepsProber k) w) : Attended w n := by
  refine Lts.Reachable.invariant (fun w => Attended w n) h ?_ ?_
  · rintro w ⟨backends, cfg, routing, maxBodyBytes, now, rfl⟩ hho
    exact absurd hho (start_state_ne_halfOpen backends cfg routing maxBodyBytes now n).1
  · rintro w w' ha ⟨l, hok, hstep⟩
    exact ha.step hok hstep

/-- A task that ends its admission and is not lost takes the breaker out of half-open. -/
theorem leaves_of_ends {t : Nat} (hheld : w.proxy.Holds t n) (hstep : w.step k l = some w')
    (hends : ¬ w'.proxy.Holds t n) (hlost : w.proxy.lost k l ≠ some t) :
    w'.proxy.state n ≠ some .halfOpen := by
  obtain ⟨hproxy, -, -⟩ := step_eq_some hstep
  cases Proxy.step_effect hproxy n with
  | quiet _ hh => exact absurd ((hh t).mpr hheld) hends
  | admitted _ _ _ _ _ hh => exact absurd ((hh t).mpr (.inr hheld)) hends
  | claimed _ _ _ _ _ hh => exact absurd ((hh t).mpr (.inr hheld)) hends
  | settled _ _ _ hne => exact hne
  | lost t' hl _ _ hh =>
      have ht : t = t' := by
        by_contra hc
        exact hends ((hh t).mpr ⟨hc, hheld⟩)
      exact absurd (ht ▸ hl) hlost

/--
**No probe is stranded**, in every run in which no task that holds a current claim
is dropped at an await or unwound by a panic: a half-open breaker has a task in
flight that claimed its probe and has neither recorded an outcome nor released it,
and once that task has done so the breaker is half-open no more.

A task may be dropped at any await, when the client goes away, and nothing in the
source releases its probe then.
-/
theorem half_open_probe_in_flight (k : Crates) {w : Watched}
    (h : ReachableWhen k (keepsProber k) w) (n : Str)
    (hho : w.proxy.state n = some .halfOpen) :
    ∃ t, w.prober n = some t ∧ w.proxy.Holds t n ∧
      ∀ l w', w.step k l = some w' → ¬ w'.proxy.Holds t n → w.proxy.lost k l ≠ some t →
        w'.proxy.state n ≠ some .halfOpen := by
  obtain ⟨t, ht, hheld⟩ := Attended.of_reachable h hho
  exact ⟨t, ht, hheld, fun l w' hstep hends hlost => leaves_of_ends hheld hstep hends hlost⟩

theorem half_open_probe_in_flight_sample :
    ∃ w, ReachableWhen .sample (keepsProber .sample) w ∧
      w.proxy.state backendA = some .halfOpen ∧
      ∃ t, w.prober backendA = some t ∧ w.proxy.Holds t backendA := by
  obtain ⟨w, hw, htest⟩ := exists_of_run .sample (keepsProber .sample)
    (sends 0 ++ failsAndCools 0 ++ sends 1)
    (fun w => w.proxy.state backendA = some .halfOpen) (by decide +kernel)
  have hho := of_decide_eq_true htest
  obtain ⟨t, ht, hheld, -⟩ := half_open_probe_in_flight .sample hw backendA hho
  exact ⟨w, hw, hho, t, ht, hheld⟩

/-- A half-open breaker that nobody will tell anything. -/
def Stranded (w : Watched) (n : Str) : Prop :=
  w.proxy.state n = some .halfOpen ∧ ∀ t, ¬ w.proxy.Holds t n

/-- It stays so. -/
theorem Stranded.step (hs : Stranded w n) (hstep : w.step k l = some w') : Stranded w' n := by
  obtain ⟨hho, hnone⟩ := hs
  obtain ⟨hproxy, -, -⟩ := step_eq_some hstep
  cases Proxy.step_effect hproxy n with
  | quiet hst hh => exact ⟨hst.trans hho, fun t ht => hnone t ((hh t).mp ht)⟩
  | admitted t _ hc => rw [hho] at hc; simp at hc
  | claimed t _ ho => rw [hho] at ho; cases ho
  | settled t _ hheld => exact absurd hheld (hnone t)
  | lost t _ hheld => exact absurd hheld (hnone t)

/--
**A stranded breaker never leaves half-open**, whatever happens.

Nobody holds the probe, nobody can claim another while the breaker is half-open, and
only the one who holds it could end that.
-/
theorem Stranded.forever {w₀ : Watched} (h : Lts.Reachable (· = w₀) (StepWhen k fun _ _ => true) w)
    (hs : Stranded w₀ n) : Stranded w n := by
  refine h.invariant (fun w => Stranded w n) ?_ ?_
  · rintro _ rfl
    exact hs
  · rintro w w' hs ⟨l, -, hstep⟩
    exact hs.step hstep

/--
A client goes away while its request probes the backend, and the backend is excluded
from then on.
-/
theorem dropped_probe_strands_breaker :
    ∃ w, ReachableWhen .sample (fun _ _ => true) w ∧
      w.proxy.state backendA = some .halfOpen ∧ (∀ t, ¬ w.proxy.Holds t backendA) ∧
      ∀ w', Lts.Reachable (· = w) (StepWhen .sample fun _ _ => true) w' →
        w'.proxy.state backendA = some .halfOpen := by
  obtain ⟨w, hw, htest⟩ := exists_of_run .sample (fun _ _ => true)
    (sends 0 ++ failsAndCools 0 ++ sends 1 ++ [.drop 1])
    (fun w => w.proxy.state backendA = some .halfOpen ∧ idle w.proxy backendA)
    (by decide +kernel)
  obtain ⟨hho, hidle⟩ := of_decide_eq_true htest
  have hs : Stranded w backendA := ⟨hho, not_holds_of_idle hidle⟩
  exact ⟨w, hw, hs.1, hs.2, fun w' hw' => (Stranded.forever hw' hs).1⟩

end Watched

end Thttpd.Migrate
