/-
Who holds the probe of a breaker.

A breaker does not know who calls it.  To say which request a half-open breaker waits
for, this file reads off the place of a task to which backend it has been admitted
without having told the breaker of an outcome, and lets an observer follow a run of
the proxy: who claimed the current probe of each breaker, and who has been admitted
since it last opened.

`Proxy.step_effect` says what one step can do to one breaker and to the requests
admitted to its backend.  Everything about whole runs follows from it.

The two halves meet in `Effect`: its cases are told apart by what happens to the
state of the breaker, and each says what happens to the requests that hold an
admission.  A claim about probes is then a claim about a list of such effects, with
no place of the program in it.
-/
import Thttpd.Migrate.Server
import Mathlib.Tactic.Common

namespace Thttpd.Migrate

open Text

/--
The backend a task has been admitted to, before it has recorded an outcome there or
released its probe.
-/
def Pc.holds : Pc → Option Str
  | .checkShadow chosen => some chosen
  | .build d | .forwarding d _ | .readRequest d _ | .buildPrimary d _ _ _
  | .forwardingPrimary d _ _ _ | .readResponse d _ _ _ => some d.backend
  | .dispatch m _ _ => some m.decision.backend
  | .settle backend _ _ => some backend
  | .mirrorBuild m | .mirrorForwarding m _ | .mirrorRead m _ => some m.shadow
  | _ => none

/-- A move begins and ends an admission as its breaker call does. -/
def Move.Fits (pc : Pc) : Move → Prop
  | .goto pc' => pc'.holds = pc.holds
  | .breakerAdmit name admitted refused =>
      pc.holds = none ∧ admitted.holds = some name ∧ refused.holds = none
  | .record name _ pc' => pc.holds = some name ∧ pc'.holds = none
  | .release name pc' => pc.holds = some name ∧ pc'.holds = none
  | .spawn child pc' => child.holds = none ∧ pc'.holds = pc.holds
  | .unwind => True

theorem holds_reply (r : Option Reply) : (Pc.reply r).holds = none := by
  cases r <;> rfl

theorem holds_filtered (candidates : List Str) : (filtered candidates).holds = none := by
  unfold filtered
  split <;> rfl

theorem holds_decided (p : BackendPool) (now : Nat) (job : Job) (chosen : Str) :
    (decided p now job chosen).holds = some chosen := by
  unfold decided
  split <;> rfl

theorem holds_begin (p : BackendPool) (job : Job) : (begin p job).holds = none := by
  unfold begin
  split
  · rfl
  · split <;> rfl

theorem drawStep_fits {p : BackendPool} {candidates : List Str} {n : Nat} {m : Move}
    (h : drawStep p candidates n = some m) : m.Fits (.draw candidates) := by
  unfold drawStep at h
  split at h
  · cases h; rfl
  · split at h
    · split at h
      · cases h; rfl
      · cases h; rfl
    · cases h

theorem primaryStep_fits (p : BackendPool) (now : Nat) (routing : RoutingConfig) :
    (primaryStep p now routing).Fits .primary := by
  unfold primaryStep
  split <;> rfl

theorem buildStep_fits (k : Crates) (p : BackendPool) (job : Job) (d : RoutingDecision) :
    (buildStep k p job d).Fits (.build d) := by
  unfold buildStep
  split
  · trivial
  · split
    · rfl
    · exact ⟨rfl, rfl⟩

theorem forwardingStep_fits (job : Job) (d : RoutingDecision) (sent : ProxyRequest)
    (result : Except Str Response) :
    (forwardingStep job d result).Fits (.forwarding d sent) := by
  cases result with
  | error e => exact ⟨rfl, rfl⟩
  | ok resp =>
      simp only [forwardingStep]
      split
      · exact ⟨rfl, rfl⟩
      · trivial

theorem readRequestStep_fits (job : Job) (d : RoutingDecision) (shadow : Str) :
    (readRequestStep job d shadow).Fits (.readRequest d shadow) := by
  unfold readRequestStep
  split
  · rfl
  · exact ⟨rfl, rfl⟩

theorem buildPrimaryStep_fits (k : Crates) (p : BackendPool) (job : Job) (d : RoutingDecision)
    (shadow : Str) (c : Capped) (rest : Body) :
    (buildPrimaryStep k p job d shadow c rest).Fits (.buildPrimary d shadow c rest) := by
  unfold buildPrimaryStep
  split
  · trivial
  · split
    · rfl
    · exact ⟨rfl, rfl⟩

theorem forwardingPrimaryStep_fits (d : RoutingDecision) (shadow : Str) (body : Bytes)
    (sent : ProxyRequest) (result : Except Str Response) :
    (forwardingPrimaryStep d shadow body result).Fits (.forwardingPrimary d shadow body sent) := by
  cases result with
  | error e => exact ⟨rfl, rfl⟩
  | ok resp => rfl

theorem readResponseStep_fits (k : Crates) (job : Job) (d : RoutingDecision) (shadow : Str)
    (body : Bytes) (resp : Response) :
    (readResponseStep k job d shadow body resp).Fits (.readResponse d shadow body resp) := by
  unfold readResponseStep
  split
  · rfl
  · exact ⟨rfl, rfl⟩

theorem mirrorBuildStep_fits (k : Crates) (p : BackendPool) (job : Job) (m : Mirror) :
    (mirrorBuildStep k p job m).Fits (.mirrorBuild m) := by
  unfold mirrorBuildStep
  split
  · trivial
  · split
    · rfl
    · exact ⟨rfl, rfl⟩

theorem mirrorForwardingStep_fits (job : Job) (m : Mirror) (sent : ProxyRequest)
    (result : Except Str Response) :
    (mirrorForwardingStep job m result).Fits (.mirrorForwarding m sent) := by
  cases result with
  | error e => exact ⟨rfl, rfl⟩
  | ok resp => rfl

theorem mirrorReadStep_fits (k : Crates) (job : Job) (m : Mirror) (resp : Response) :
    (mirrorReadStep k job m resp).Fits (.mirrorRead m resp) := by
  unfold mirrorReadStep
  split <;> exact ⟨rfl, rfl⟩

/--
**Every move of the program fits its place**: a task is admitted only when it holds
nothing, and tells only the breaker it was admitted by.

One lemma for each place of the program that asks a breaker or tells it something;
at all the others a task holds what it held.
-/
theorem advance_fits {k : Crates} {p : BackendPool} {now : Nat} {job : Job} {pc : Pc} {i : Input}
    {m : Move} (h : advance k p now job pc i = some m) : m.Fits pc := by
  unfold advance at h
  split at h
  · cases h; exact holds_filtered _
  · cases h; rfl
  · exact drawStep_fits h
  · cases h; exact ⟨rfl, rfl, holds_filtered _⟩
  · cases h; exact primaryStep_fits ..
  · cases h; exact ⟨rfl, rfl, rfl⟩
  · cases h; exact holds_decided ..
  · cases h; exact buildStep_fits ..
  · cases h; exact forwardingStep_fits ..
  · cases h; exact readRequestStep_fits ..
  · cases h; exact buildPrimaryStep_fits ..
  · cases h; exact forwardingPrimaryStep_fits ..
  · cases h; exact readResponseStep_fits ..
  · cases h; exact ⟨rfl, rfl⟩
  · cases h; exact ⟨rfl, holds_reply _⟩
  · cases h; exact ⟨rfl, rfl, rfl⟩
  · cases h; exact mirrorBuildStep_fits ..
  · cases h; exact mirrorForwardingStep_fits ..
  · cases h; exact mirrorReadStep_fits ..
  · cases h

namespace Proxy

/-- The state of the breaker of a backend. -/
def state (s : Proxy) (n : Str) : Option State := s.pool.state n

/-- The backend task `t` is admitted to and has not told of an outcome. -/
def held (s : Proxy) (t : Nat) : Option Str := (s.tasks[t]?).bind fun task => task.pc.holds

/-- Task `t` is in flight with an unresolved admission to `n`. -/
def Holds (s : Proxy) (t : Nat) (n : Str) : Prop := s.held t = some n

instance (s : Proxy) (t : Nat) (n : Str) : Decidable (s.Holds t n) :=
  inferInstanceAs (Decidable (s.held t = some n))

theorem held_of_task {s : Proxy} {t : Nat} {task : Task} (h : s.tasks[t]? = some task) :
    s.held t = task.pc.holds := by
  simp [held, h]

/-- Only the task that moves changes what it holds. -/
theorem held_setPc {s : Proxy} {t : Nat} {task : Task} (h : s.tasks[t]? = some task) (job : Job)
    (pc : Pc) (t' : Nat) : (s.setPc t job pc).held t' = if t' = t then pc.holds else s.held t' := by
  obtain ⟨hlt, -⟩ := List.getElem?_eq_some_iff.mp h
  by_cases ht : t' = t
  · subst ht
    simp [held, setPc, List.getElem?_set_self hlt]
  · simp [held, setPc, List.getElem?_set_ne (Ne.symm ht), ht]

/-- A new task that holds nothing is nobody's concern. -/
theorem held_spawn (s : Proxy) (job : Job) {pc : Pc} (hpc : pc.holds = none) (t : Nat) :
    (s.spawn job pc).held t = s.held t := by
  rcases Nat.lt_trichotomy t s.tasks.length with hlt | heq | hgt
  · simp [held, spawn, List.getElem?_append_left hlt]
  · subst heq
    simp [held, spawn, hpc]
  · have h₁ : s.tasks[t]? = none := List.getElem?_eq_none (Nat.le_of_lt hgt)
    have h₂ : (s.tasks ++ [⟨job, pc⟩])[t]? = none :=
      List.getElem?_eq_none (by simp; omega)
    simp [held, spawn, h₁, h₂]

/-- The task a step drops, or unwinds by a panic. -/
def lost (k : Crates) (s : Proxy) : Label → Option Nat
  | .drop t => some t
  | .run t i =>
      match s.moveOf k t i with
      | some (_, .unwind) => some t
      | _ => none
  | _ => none

/-- A step in which task `t` records an outcome at `n`, or releases its probe there. -/
def Tells (k : Crates) (s : Proxy) (l : Label) (t : Nat) (n : Str) : Prop :=
  ∃ i job m, l = .run t i ∧ s.moveOf k t i = some (job, m) ∧
    ((∃ success pc, m = .record n success pc) ∨ ∃ pc, m = .release n pc)

/-- A step in which task `t` is admitted to `n`. -/
def Enters (k : Crates) (s : Proxy) (l : Label) (t : Nat) (n : Str) : Prop :=
  ∃ i job admitted refused, l = .run t i ∧
    s.moveOf k t i = some (job, .breakerAdmit n admitted refused) ∧
    (s.pool.breakerAdmit s.now n).1 = true

/--
What a step can do to the breaker of `n` and to the requests admitted to it: nothing
to either, one request admitted by a closed breaker or by an open one, one that
tells an outcome, or one that gives up what it holds without a word.
-/
inductive Effect (k : Crates) (n : Str) (s : Proxy) (l : Label) (s' : Proxy) : Prop
  | quiet : s'.state n = s.state n → (∀ t, s'.Holds t n ↔ s.Holds t n) → Effect k n s l s'
  | admitted (t : Nat) : s.Enters k l t n →
      (s.state n = some .closed ∨ s.state n = none) → s'.state n = s.state n →
      ¬ s.Holds t n → (∀ t', s'.Holds t' n ↔ t' = t ∨ s.Holds t' n) → Effect k n s l s'
  | claimed (t : Nat) : s.Enters k l t n →
      s.state n = some .opened → s'.state n = some .halfOpen →
      ¬ s.Holds t n → (∀ t', s'.Holds t' n ↔ t' = t ∨ s.Holds t' n) → Effect k n s l s'
  | settled (t : Nat) : s.Tells k l t n → s.Holds t n → s'.state n ≠ some .halfOpen →
      (s.state n ≠ some .halfOpen → s'.state n = s.state n ∨ s'.state n = some .opened) →
      (∀ t', s'.Holds t' n ↔ t' ≠ t ∧ s.Holds t' n) → Effect k n s l s'
  | lost (t : Nat) : s.lost k l = some t → s.Holds t n → s'.state n = s.state n →
      (∀ t', s'.Holds t' n ↔ t' ≠ t ∧ s.Holds t' n) → Effect k n s l s'

section Effects

variable {k : Crates} {n : Str} {s s' : Proxy} {l : Label} {t : Nat} {task : Task} {job : Job}

/-- A task that moves on without a breaker call. -/
theorem effect_of_same (htask : s.tasks[t]? = some task) (hst : s'.state n = s.state n)
    {pc : Pc} (hpc : pc.holds = task.pc.holds)
    (hheld : ∀ t', s'.held t' = if t' = t then pc.holds else s.held t') : Effect k n s l s' := by
  refine .quiet hst ?_
  intro t'
  unfold Holds
  rw [hheld t']
  split
  · rename_i ht
    rw [ht, hpc, held_of_task htask]
  · rfl

/-- A task that gives up what it holds, without a word. -/
theorem effect_of_lost (htask : s.tasks[t]? = some task) (hlost : s.lost k l = some t)
    (hst : s'.state n = s.state n)
    (hheld : ∀ t', s'.held t' = if t' = t then none else s.held t') : Effect k n s l s' := by
  by_cases hn : s.Holds t n
  · refine .lost t hlost hn hst ?_
    intro t'
    unfold Holds
    rw [hheld t']
    by_cases ht : t' = t <;> simp [ht]
  · refine .quiet hst ?_
    intro t'
    unfold Holds
    rw [hheld t']
    by_cases ht : t' = t
    · subst ht
      unfold Holds at hn
      simp [hn]
    · simp [ht]

/-- A task that tells the breaker of `name`. -/
theorem effect_of_told {name : Str} (htask : s.tasks[t]? = some task)
    (htells : s.Tells k l t name) (hname : task.pc.holds = some name)
    (hne : s'.state name ≠ some .halfOpen)
    (hstep : s.state name ≠ some .halfOpen →
      s'.state name = s.state name ∨ s'.state name = some .opened)
    (hother : n ≠ name → s'.state n = s.state n)
    (hheld : ∀ t', s'.held t' = if t' = t then none else s.held t') : Effect k n s l s' := by
  have hhas : s.held t = some name := by rw [held_of_task htask, hname]
  by_cases hn : n = name
  · subst hn
    refine .settled t htells hhas hne hstep ?_
    intro t'
    unfold Holds
    rw [hheld t']
    by_cases ht : t' = t <;> simp [ht]
  · refine .quiet (hother hn) ?_
    intro t'
    unfold Holds
    rw [hheld t']
    by_cases ht : t' = t
    · subst ht
      simp [hhas, Ne.symm hn]
    · simp [ht]

/-- A task that asks to be admitted to `name`. -/
theorem effect_of_asked {name : Str} {i : Input} {admitted refused : Pc}
    (htask : s.tasks[t]? = some task) (hl : l = .run t i)
    (hmove : s.moveOf k t i = some (job, .breakerAdmit name admitted refused))
    (hnone : task.pc.holds = none) (hyes : admitted.holds = some name)
    (hno : refused.holds = none) (hs' : s' = s.perform t job (.breakerAdmit name admitted refused)) : Effect k n s l s' := by
  have hhas : s.held t = none := by rw [held_of_task htask, hnone]
  have hstate : ∀ n, s'.state n = (s.pool.breakerAdmit s.now name).2.state n := by
    intro n; rw [hs']; rfl
  have hheld : ∀ t', s'.held t' =
      if t' = t then (if (s.pool.breakerAdmit s.now name).1 then admitted else refused).holds
      else s.held t' := by
    intro t'
    rw [hs']
    exact held_setPc (s := { s with pool := (s.pool.breakerAdmit s.now name).2 }) htask job _ t'
  by_cases hn : n = name
  · subst hn
    have hjoined (hok : (s.pool.breakerAdmit s.now n).1 = true) (t' : Nat) :
        s'.Holds t' n ↔ t' = t ∨ s.Holds t' n := by
      unfold Holds
      rw [hheld t']
      by_cases ht : t' = t <;> simp [ht, hok, hyes]
    have hnot : ¬ s.Holds t n := by simp [Holds, hhas]
    rcases s.pool.breakerAdmit_cases s.now n with ⟨hok, hst, hc⟩ | ⟨hok, ho, hh⟩ | ⟨hok, hst⟩
    · exact .admitted t ⟨i, job, admitted, refused, hl, hmove, hok⟩ hc ((hstate n).trans hst)
        hnot (hjoined hok)
    · exact .claimed t ⟨i, job, admitted, refused, hl, hmove, hok⟩ ho ((hstate n).trans hh)
        hnot (hjoined hok)
    · refine .quiet ((hstate n).trans hst) ?_
      intro t'
      unfold Holds
      rw [hheld t']
      by_cases ht : t' = t
      · subst ht
        simp [hok, hno, hhas]
      · simp [ht]
  · refine .quiet ((hstate n).trans (BackendPool.state_breakerAdmit_of_ne hn)) ?_
    intro t'
    unfold Holds
    rw [hheld t']
    by_cases ht : t' = t
    · subst ht
      cases (s.pool.breakerAdmit s.now name).1 <;> simp [hyes, hno, hhas, Ne.symm hn]
    · simp [ht]

/-- The move of a task. -/
theorem perform_effect {m : Move} {i : Input} (htask : s.tasks[t]? = some task)
    (hm : advance k s.pool s.now task.job task.pc i = some m) :
    Effect k n s (.run t i) (s.perform t task.job m) := by
  have hmove : s.moveOf k t i = some (task.job, m) := by simp [moveOf, htask, hm]
  have hfits := advance_fits hm
  cases m with
  | goto pc => exact effect_of_same htask rfl hfits (held_setPc htask _ pc)
  | breakerAdmit name admitted refused =>
      exact effect_of_asked htask rfl hmove hfits.1 hfits.2.1 hfits.2.2 rfl
  | record name success pc =>
      have hheld : ∀ t', (s.perform t task.job (.record name success pc)).held t' =
          if t' = t then none else s.held t' := by
        intro t'
        rw [← hfits.2]
        exact held_setPc (s := { s with pool := s.pool.recordOutcome s.now name success })
          htask _ pc t'
      exact effect_of_told htask ⟨i, _, _, rfl, hmove, .inl ⟨success, pc, rfl⟩⟩ hfits.1
        (s.pool.state_recordOutcome_ne_halfOpen s.now name success)
        BackendPool.state_recordOutcome_of_ne
        (BackendPool.state_setBreaker_of_ne _) hheld
  | release name pc =>
      have hheld : ∀ t', (s.perform t task.job (.release name pc)).held t' =
          if t' = t then none else s.held t' := by
        intro t'
        rw [← hfits.2]
        exact held_setPc (s := { s with pool := s.pool.breakerReleaseProbe s.now name })
          htask _ pc t'
      exact effect_of_told htask ⟨i, _, _, rfl, hmove, .inr ⟨pc, rfl⟩⟩ hfits.1
        (s.pool.state_breakerReleaseProbe_ne_halfOpen s.now name)
        (fun h => .inl (BackendPool.state_breakerReleaseProbe_of_ne h))
        (BackendPool.state_setBreaker_of_ne _) hheld
  | spawn child pc =>
      refine effect_of_same htask rfl hfits.2 ?_
      intro t'
      rw [perform, held_spawn _ _ hfits.1, held_setPc htask]
  | unwind =>
      exact effect_of_lost htask (by simp [lost, hmove]) rfl (held_setPc htask _ .gone)

end Effects

/--
**What one step can do to one breaker.**

What may happen between two steps of a task is another step, so an invariant of the
whole proxy is proved from this alone.
-/
theorem step_effect {k : Crates} {s s' : Proxy} {l : Label} (h : s.step k l = some s') (n : Str) :
    Effect k n s l s' := by
  cases l with
  | tick nanos => cases h; exact .quiet rfl fun _ => Iff.rfl
  | setHealth name health => cases h; exact .quiet rfl fun _ => Iff.rfl
  | setWeight name w => cases h; exact .quiet rfl fun _ => Iff.rfl
  | configure routing => cases h; exact .quiet rfl fun _ => Iff.rfl
  | request req freshId =>
      cases h
      refine .quiet rfl ?_
      intro t
      unfold Holds
      rw [held_spawn _ _ (holds_begin _ _)]
  | run t i =>
      simp only [step, moveOf] at h
      split at h
      · rename_i task htask
        simp only [Option.map_map, Option.map_eq_some_iff, Function.comp] at h
        obtain ⟨m, hm, rfl⟩ := h
        exact perform_effect htask hm
      · cases h
  | drop t =>
      simp only [step] at h
      split at h
      · rename_i task htask
        split at h
        · cases h
          exact effect_of_lost htask rfl rfl (held_setPc htask _ .gone)
        · cases h
      · cases h

end Proxy

/-! ### The observer

The observer changes nothing.  It notes what a step did and is asked afterwards, so
that a claim can speak of the request whose admission is the current probe although
the breaker has no memory of it.
-/

/-- A proxy and what an observer has noted of its run. -/
structure Watched where
  proxy : Proxy
  /-- The task that claimed the probe a breaker is half-open for. -/
  prober : Str → Option Nat
  /-- The tasks admitted since the breaker last opened that are still unresolved. -/
  admitted : Str → List Nat

/-- The task that makes a step. -/
def Label.task : Label → Option Nat
  | .run t _ => some t
  | _ => none

namespace Watched

/-- Who holds the probe after a step. -/
def proberAfter (w : Watched) (l : Label) (s' : Proxy) (n : Str) : Option Nat :=
  if s'.state n = some .halfOpen then
    if w.proxy.state n = some .halfOpen then w.prober n else l.task
  else none

/-- The task a step admits to `n`. -/
def newcomer (s : Proxy) (l : Label) (s' : Proxy) (n : Str) : List Nat :=
  match l.task with
  | some t => if ¬ s.Holds t n ∧ s'.Holds t n then [t] else []
  | none => []

/-- Who has been admitted since the breaker last opened and is unresolved after a step. -/
def admittedAfter (w : Watched) (l : Label) (s' : Proxy) (n : Str) : List Nat :=
  if s'.state n = some .opened ∧ w.proxy.state n ≠ some .opened then []
  else (w.admitted n).filter (fun t => s'.Holds t n) ++ newcomer w.proxy l s' n

/-- One step of the proxy, watched. -/
def step (k : Crates) (w : Watched) (l : Label) : Option Watched :=
  (w.proxy.step k l).map fun s' => ⟨s', w.proberAfter l s', w.admittedAfter l s'⟩

/-- A proxy that has just been started. -/
def Init (w : Watched) : Prop :=
  ∃ backends cfg routing maxBodyBytes now,
    w = ⟨Proxy.start backends cfg routing maxBodyBytes now, fun _ => none, fun _ => []⟩

/-- The steps that meet a condition on the state before them. -/
def StepWhen (k : Crates) (ok : Watched → Label → Bool) (w w' : Watched) : Prop :=
  ∃ l, ok w l = true ∧ w.step k l = some w'

/-- The states of the runs whose steps all meet a condition. -/
def ReachableWhen (k : Crates) (ok : Watched → Label → Bool) : Watched → Prop :=
  Lts.Reachable Init (StepWhen k ok)

theorem step_eq_some {k : Crates} {w w' : Watched} {l : Label} (h : w.step k l = some w') :
    w.proxy.step k l = some w'.proxy ∧ w'.prober = w.proberAfter l w'.proxy ∧
      w'.admitted = w.admittedAfter l w'.proxy := by
  obtain ⟨s', hs, rfl⟩ := Option.map_eq_some_iff.mp h
  exact ⟨hs, rfl, rfl⟩

/-- A run given by what happens in it; it ends where the condition fails. -/
def run (k : Crates) (ok : Watched → Label → Bool) (w : Watched) : List Label → Option Watched
  | [] => some w
  | l :: ls => if ok w l then (w.step k l).bind fun w' => run k ok w' ls else none

theorem start_state_ne_halfOpen (backends : List (Str × Str × Nat)) (cfg : CircuitConfig)
    (routing : RoutingConfig) (maxBodyBytes now : Nat) (n : Str) :
    (Proxy.start backends cfg routing maxBodyBytes now).state n ≠ some .halfOpen ∧
      (Proxy.start backends cfg routing maxBodyBytes now).state n ≠ some .opened := by
  simp only [Proxy.state, Proxy.start, BackendPool.state, BackendPool.withBreakerCfg]
  split <;> simp [Breaker.new]

/-- What a run reaches is reachable. -/
theorem reachable_of_run {k : Crates} {ok : Watched → Label → Bool} {w w' : Watched}
    {ls : List Label} (h : ReachableWhen k ok w) (hrun : w.run k ok ls = some w') :
    ReachableWhen k ok w' := by
  induction ls generalizing w with
  | nil => cases hrun; exact h
  | cons l ls ih =>
      rw [run] at hrun
      split at hrun
      · rename_i hok
        obtain ⟨w₁, hw₁, hrest⟩ := Option.bind_eq_some_iff.mp hrun
        exact ih (Lts.Reachable.tail h ⟨l, hok, hw₁⟩) hrest
      · cases hrun

end Watched

/-! ### A run to try things on

One backend, one failure, and the requests that come after it.
-/

/-- The name of the only backend. -/
def backendA : Str := "a".toList

/-- A proxy in front of one backend whose breaker opens at the first failure. -/
def Watched.sample : Watched where
  proxy := Proxy.start [(backendA, "127.0.0.1:8080".toList, 1)]
    ⟨fun errors total => total < 2 * errors, 10, 1⟩ ⟨.activeActive, none, none, []⟩ 1048576 0
  prober := fun _ => none
  admitted := fun _ => []

theorem Watched.sample_reachable (k : Crates) (ok : Watched → Label → Bool) :
    Watched.ReachableWhen k ok Watched.sample :=
  Lts.Reachable.start ⟨_, _, _, _, _, rfl⟩

/-- A request for `/` that becomes task `t` and goes on until it waits for the backend. -/
def sends (t : Nat) : List Label :=
  [.request ⟨"GET".toList, ⟨['/'], some ['/']⟩, [], []⟩ "id".toList,
   .run t .go, .run t .go, .run t (.pick 0), .run t .go, .run t .go, .run t .go]

/-- The backend fails a request, and the cool-off passes. -/
def failsAndCools (t : Nat) : List Label :=
  [.run t (.answer (.error "refused".toList)), .tick coolOff]

/-- A run that meets its condition, and a test of what it comes to. -/
theorem exists_of_run (k : Crates) (ok : Watched → Label → Bool) (ls : List Label)
    (test : Watched → Bool) (h : (Watched.sample.run k ok ls).any test = true) :
    ∃ w, Watched.ReachableWhen k ok w ∧ test w = true := by
  obtain ⟨w, hrun, htest⟩ := (Option.any_eq_true _ _).mp h
  exact ⟨w, Watched.reachable_of_run (Watched.sample_reachable k ok) hrun, htest⟩

end Thttpd.Migrate
