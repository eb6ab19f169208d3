/-
The breaker as a state machine.

Each method is one step, and any number of callers may come in any order, so what a
breaker has seen is a list of events in the order of the clock.  `Runs` grows that
list; an event keeps the breaker it found, so what an event did can be asked later.
The invariant of a run is `Sound`, and `Event.effect` is the one place where the
methods are taken apart.

`Runs` keeps the history, since the claims are about pasts: that a breaker opened
because of something, and that a probe was settled before another was claimed.
`Sound` relates the breaker as it is to that history, and is kept by every call that
does not wrap the window's total.
-/
import Thttpd.Migrate.Circuit

namespace Thttpd.Migrate

/-- A call, the time it is made at and the breaker it finds. -/
structure Event where
  now : Nat
  call : Call
  before : Breaker

namespace Event

/-- The breaker the call leaves. -/
def after (e : Event) : Breaker :=
  match e.call with
  | .tryAdmit => (e.before.tryAdmit e.now).2
  | .canRoute => e.before
  | .record success => e.before.record e.now success
  | .releaseProbe => e.before.releaseProbe e.now

/-- Whether the call runs `trip`. -/
def trips (e : Event) : Bool :=
  match e.call with
  | .record success =>
      if e.before.state = .halfOpen then !success
      else
        let w := e.before.window.count e.before.cfg e.now success
        e.before.cfg.minRequests ≤ w.total && e.before.cfg.rateExceeds w.errors w.total
  | .releaseProbe => e.before.state = .halfOpen
  | _ => false

/-- Whether the call is admitted by an open breaker. -/
def claims (e : Event) : Bool :=
  e.call = .tryAdmit && e.before.state = .opened && (e.before.tryAdmit e.now).1

/-- Whether the call ends a probe, if one is in flight. -/
def settles (e : Event) : Bool :=
  match e.call with
  | .record _ | .releaseProbe => true
  | _ => false

/-- What the window holds when the call comes to count in it. -/
def counted (e : Event) : Nat :=
  if fromSecs e.before.cfg.windowSecs < e.now - e.before.window.started then 0
  else e.before.window.total

/-- The call does not count one outcome more than a `u32` can. -/
def fits (e : Event) : Bool :=
  match e.call with
  | .record _ => e.before.state = .halfOpen || e.counted + 1 < 4294967296
  | _ => true

/-- What a call can do to a breaker. -/
inductive Effect (e : Event) : Prop
  | same (hafter : e.after = e.before) (htrips : e.trips = false) (hclaims : e.claims = false)
  | claimed (hopen : e.before.state = .opened) (hcooled : e.before.cooled e.now = true)
      (htrips : e.trips = false) (hstate : e.after.state = .halfOpen)
      (hprobe : e.after.probeInFlight = true) (hat : e.after.openedAt = e.before.openedAt)
      (hwindow : e.after.window = e.before.window)
  | tripped (htrips : e.trips = true) (hsettles : e.settles = true) (hclaims : e.claims = false)
      (hstate : e.after.state = .opened)
      (hprobe : e.before.state ≠ .halfOpen → e.after.probeInFlight = e.before.probeInFlight)
      (hfreed : e.before.state = .halfOpen → e.after.probeInFlight = false)
      (hat : e.after.openedAt = some e.now) (hwindow : e.after.window = Window.new e.now)
  | closed (hsettles : e.settles = true) (htrips : e.trips = false) (hclaims : e.claims = false)
      (hstate : e.after.state = .closed) (hprobe : e.after.probeInFlight = false)
      (hat : e.after.openedAt = none) (hwindow : e.after.window = Window.new e.now)
  | noted (success : Bool) (hcall : e.call = .record success) (hopen : e.before.state ≠ .halfOpen)
      (htrips : e.trips = false) (hclaims : e.claims = false)
      (hafter : e.after = { e.before with
        window := e.before.window.count e.before.cfg e.now success })

theorem effect_tryAdmit (now : Nat) (b : Breaker) : Effect ⟨now, .tryAdmit, b⟩ := by
  have htrips : trips ⟨now, .tryAdmit, b⟩ = false := rfl
  cases hs : b.state with
  | closed => exact .same (by simp [after, Breaker.tryAdmit, hs]) htrips (by simp [claims, hs])
  | halfOpen => exact .same (by simp [after, Breaker.tryAdmit, hs]) htrips (by simp [claims, hs])
  | opened =>
      cases hc : b.cooled now with
      | false =>
          exact .same (by simp [after, Breaker.tryAdmit, hs, hc]) htrips
            (by simp [claims, Breaker.tryAdmit, hs, hc])
      | true =>
          cases hp : b.probeInFlight with
          | true =>
              exact .same (by simp [after, Breaker.tryAdmit, hs, hc, hp]) htrips
                (by simp [claims, Breaker.tryAdmit, hs, hc, hp])
          | false =>
              have hafter : after ⟨now, .tryAdmit, b⟩ =
                  { b with probeInFlight := true, state := .halfOpen } := by
                simp [after, Breaker.tryAdmit, hs, hc, hp]
              exact .claimed hs hc htrips (by rw [hafter]) (by rw [hafter]) (by rw [hafter])
                (by rw [hafter])

theorem effect_releaseProbe (now : Nat) (b : Breaker) : Effect ⟨now, .releaseProbe, b⟩ := by
  by_cases hs : b.state = .halfOpen
  · have hafter : after ⟨now, .releaseProbe, b⟩ =
        Breaker.trip now { b with probeInFlight := false } := if_pos hs
    exact .tripped (decide_eq_true hs) rfl rfl (by rw [hafter]; rfl) (fun h => absurd hs h)
      (fun _ => by rw [hafter]; rfl) (by rw [hafter]; rfl) (by rw [hafter]; rfl)
  · exact .same (if_neg hs) (by simp [trips, hs]) rfl

theorem effect_record (now : Nat) (success : Bool) (b : Breaker) :
    Effect ⟨now, .record success, b⟩ := by
  by_cases hs : b.state = .halfOpen
  · cases success with
    | true =>
        have hafter : after ⟨now, .record true, b⟩ =
            Breaker.close now { b with probeInFlight := false } := if_pos hs
        exact .closed rfl (by simp [trips, hs]) rfl (by rw [hafter]; rfl) (by rw [hafter]; rfl)
          (by rw [hafter]; rfl) (by rw [hafter]; rfl)
    | false =>
        have hafter : after ⟨now, .record false, b⟩ =
            Breaker.trip now { b with probeInFlight := false } := if_pos hs
        exact .tripped (if_pos hs) rfl rfl (by rw [hafter]; rfl) (fun h => absurd hs h)
          (fun _ => by rw [hafter]; rfl) (by rw [hafter]; rfl) (by rw [hafter]; rfl)
  · by_cases hr : b.cfg.minRequests ≤ (b.window.count b.cfg now success).total ∧
        b.cfg.rateExceeds (b.window.count b.cfg now success).errors
          (b.window.count b.cfg now success).total = true
    · have hafter : after ⟨now, .record success, b⟩ =
          Breaker.trip now { b with window := b.window.count b.cfg now success } := by
        simp only [after, Breaker.record, if_neg hs, if_pos hr]
      have htrips : trips ⟨now, .record success, b⟩ = true := by
        simpa only [trips, if_neg hs, Bool.and_eq_true, decide_eq_true_eq] using hr
      exact .tripped htrips rfl rfl (by rw [hafter]; rfl) (fun _ => by rw [hafter]; rfl)
        (fun h => absurd h hs) (by rw [hafter]; rfl) (by rw [hafter]; rfl)
    · refine .noted success rfl hs ?_ rfl ?_
      · simpa [trips, hs] using hr
      · simp only [after, Breaker.record, if_neg hs, if_neg hr]

/-- **What a call can do**, whatever the breaker. -/
theorem effect (e : Event) : Effect e := by
  obtain ⟨now, call, b⟩ := e
  cases call with
  | tryAdmit => exact effect_tryAdmit now b
  | canRoute => exact .same rfl rfl rfl
  | record success => exact effect_record now success b
  | releaseProbe => exact effect_releaseProbe now b

end Event

/-! ### Runs

The calls come one after the other here, each with the time it is made at, and time
does not go back.
-/

/--
The calls made on a new breaker so far, the time of the last one and the breaker as
it is now.  Every call meets `ok`.
-/
inductive Runs (ok : Event → Prop) (cfg : CircuitConfig) (start : Nat) :
    List Event → Nat → Breaker → Prop
  | new : Runs ok cfg start [] start (Breaker.new cfg start)
  | call {h : List Event} {now : Nat} {b : Breaker} (later : Nat) (call : Call) :
      Runs ok cfg start h now b → now ≤ later → ok ⟨later, call, b⟩ →
      Runs ok cfg start (h ++ [⟨later, call, b⟩]) later (Event.after ⟨later, call, b⟩)

/-- What holds of a breaker after any number of calls. -/
structure Sound (h : List Event) (now : Nat) (b : Breaker) : Prop where
  /-- The probe slot is taken in half-open and only there. -/
  probe : b.probeInFlight = true ↔ b.state = .halfOpen
  /-- A breaker that is not closed has opened at some time. -/
  opened : b.openedAt = none ↔ b.state = .closed
  counts : b.window.errors ≤ b.window.total
  past : ∀ e ∈ h, e.now ≤ now
  /-- The time of opening is that of a trip. -/
  opener : ∀ t, b.openedAt = some t → ∃ e ∈ h, e.trips = true ∧ e.now = t
  /-- It is not before any other. -/
  since : ∀ e ∈ h, e.trips = true → ∀ t, b.openedAt = some t → e.now ≤ t
  /-- A claim has been settled, unless its probe is still in flight. -/
  settled : ∀ pre e post, h = pre ++ e :: post → e.claims = true → b.state ≠ .halfOpen →
    ∃ d ∈ post, d.settles = true

namespace Sound

theorem new (cfg : CircuitConfig) (start : Nat) : Sound [] start (Breaker.new cfg start) where
  probe := by simp [Breaker.new]
  opened := by simp [Breaker.new]
  counts := Nat.le_refl 0
  past := by simp
  opener := by simp [Breaker.new]
  since := by simp
  settled := by simp

/-- Counting keeps the errors below the total, as long as the total does not wrap. -/
theorem count_errors_le {cfg : CircuitConfig} {now : Nat} {success : Bool} {w : Window}
    (hle : w.errors ≤ w.total)
    (hfit : (if fromSecs cfg.windowSecs < now - w.started then 0 else w.total) + 1 < 4294967296) :
    (w.count cfg now success).errors ≤ (w.count cfg now success).total := by
  by_cases hroll : fromSecs cfg.windowSecs < now - w.started
  · rw [Window.count_of_rolled hroll]
    cases success with
    | true => exact Nat.zero_le 1
    | false => exact Nat.le_refl 1
  · rw [if_neg hroll] at hfit
    rw [Window.count_of_kept hroll]
    have he : w.errors + 1 < 4294967296 := Nat.lt_of_le_of_lt (Nat.succ_le_succ hle) hfit
    cases success with
    | true =>
        show w.errors ≤ u32 (w.total + 1)
        rw [u32_of_lt hfit]
        exact Nat.le_succ_of_le hle
    | false =>
        show u32 (w.errors + 1) ≤ u32 (w.total + 1)
        rw [u32_of_lt hfit, u32_of_lt he]
        exact Nat.succ_le_succ hle

/-- Where an event of a longer history stands. -/
theorem split_snoc {h pre post : List Event} {e f : Event} (heq : h ++ [e] = pre ++ f :: post) :
    (post = [] ∧ f = e) ∨ ∃ rest, post = rest ++ [e] ∧ h = pre ++ f :: rest := by
  rcases List.eq_nil_or_concat post with rfl | ⟨rest, last, rfl⟩
  · exact .inl ⟨rfl, (List.append_inj' heq rfl).2 |> List.cons.inj |>.1 |>.symm⟩
  · rw [List.concat_eq_append, ← List.cons_append, ← List.append_assoc] at heq
    obtain ⟨hh, hlast⟩ := List.append_inj' heq rfl
    obtain rfl := (List.cons.inj hlast).1
    exact .inr ⟨rest, List.concat_eq_append, hh⟩

variable {h : List Event} {now : Nat} {e : Event}

/--
A call that is no claim leaves every earlier claim settled, if it settles one or
leaves the state.
-/
theorem settled_snoc (hs : Sound h now e.before) (hclaims : e.claims = false)
    (hor : e.settles = true ∨ e.after.state = e.before.state) :
    ∀ pre f post, h ++ [e] = pre ++ f :: post → f.claims = true → e.after.state ≠ .halfOpen →
      ∃ d ∈ post, d.settles = true := by
  intro pre f post heq hf hne
  rcases split_snoc heq with ⟨-, rfl⟩ | ⟨rest, rfl, hh⟩
  · rw [hclaims] at hf
    cases hf
  · rcases hor with hset | hst
    · exact ⟨e, by simp, hset⟩
    · obtain ⟨d, hd, hds⟩ := hs.settled pre f rest hh hf (hst ▸ hne)
      exact ⟨d, List.mem_append_left _ hd, hds⟩

theorem past_snoc (hs : Sound h now e.before) (hle : now ≤ e.now) :
    ∀ f ∈ h ++ [e], f.now ≤ e.now := by
  intro f hf
  rcases List.mem_append.mp hf with hf | hf
  · exact Nat.le_trans (hs.past f hf) hle
  · rw [List.mem_singleton.mp hf]

theorem opener_snoc (hs : Sound h now e.before)
    (hat : e.after.openedAt = e.before.openedAt ∨ e.after.openedAt = none) :
    ∀ t, e.after.openedAt = some t → ∃ f ∈ h ++ [e], f.trips = true ∧ f.now = t := by
  intro t ht
  rcases hat with hat | hat
  · obtain ⟨f, hf, hft⟩ := hs.opener t (hat ▸ ht)
    exact ⟨f, List.mem_append_left _ hf, hft⟩
  · rw [hat] at ht
    cases ht

/--
A call that does not trip keeps the time of opening behind every trip, if it leaves
that time or forgets it.
-/
theorem since_snoc (hs : Sound h now e.before) (htrips : e.trips = false)
    (hat : e.after.openedAt = e.before.openedAt ∨ e.after.openedAt = none) :
    ∀ f ∈ h ++ [e], f.trips = true → ∀ t, e.after.openedAt = some t → f.now ≤ t := by
  intro f hf hft t ht
  rcases List.mem_append.mp hf with hf | hf
  · rcases hat with hat | hat
    · exact hs.since f hf hft t (hat ▸ ht)
    · rw [hat] at ht
      cases ht
  · rw [List.mem_singleton.mp hf, htrips] at hft
    cases hft

/-- A call that neither trips nor claims keeps a breaker sound whose state it leaves alone. -/
theorem unmoved (hs : Sound h now e.before) (hle : now ≤ e.now) (htrips : e.trips = false)
    (hclaims : e.claims = false) (hstate : e.after.state = e.before.state)
    (hprobe : e.after.probeInFlight = e.before.probeInFlight)
    (hat : e.after.openedAt = e.before.openedAt)
    (hcounts : e.after.window.errors ≤ e.after.window.total) : Sound (h ++ [e]) e.now e.after := by
  refine ⟨?_, ?_, hcounts, hs.past_snoc hle, hs.opener_snoc (.inl hat),
    hs.since_snoc htrips (.inl hat), hs.settled_snoc hclaims (.inr hstate)⟩
  · rw [hprobe, hstate]
    exact hs.probe
  · rw [hstate, hat]
    exact hs.opened

/--
**Every call keeps the breaker sound**, unless it wraps the total of the window.

One case for each effect.  Most of the conditions of `Sound` are about the past and
only grow by the new event; the state, the time of opening and the window are read
off the effect.
-/
theorem call (hs : Sound h now e.before) (hle : now ≤ e.now) (hfit : e.fits = true) :
    Sound (h ++ [e]) e.now e.after := by
  have hpast := hs.past_snoc hle
  cases e.effect with
  | same hafter htrips hclaims =>
      refine hs.unmoved hle htrips hclaims (by rw [hafter]) (by rw [hafter]) (by rw [hafter]) ?_
      rw [hafter]
      exact hs.counts
  | claimed hopen hcooled htrips hstate hprobe hat hwindow =>
      refine ⟨by simp [hstate, hprobe], ?_, ?_, hpast, hs.opener_snoc (.inl hat),
        hs.since_snoc htrips (.inl hat), ?_⟩
      · have hne : e.before.openedAt ≠ none := fun hn => by
          rw [hs.opened.mp hn] at hopen
          cases hopen
        simp [hstate, hat, hne]
      · rw [hwindow]
        exact hs.counts
      · intro pre f post _ _ hne
        exact absurd hstate hne
  | tripped htrips hsettles hclaims hstate hprobe hfreed hat hwindow =>
      refine ⟨?_, by simp [hstate, hat], by simp [hwindow, Window.new], hpast, ?_, ?_,
        hs.settled_snoc hclaims (.inl hsettles)⟩
      · by_cases hb : e.before.state = .halfOpen
        · simp [hstate, hfreed hb]
        · simp [hstate, hprobe hb, hs.probe, hb]
      · intro t ht
        exact ⟨e, by simp, htrips, Option.some.inj (hat.symm.trans ht)⟩
      · intro f hf _ t ht
        obtain rfl : e.now = t := Option.some.inj (hat.symm.trans ht)
        exact hpast f hf
  | closed hsettles htrips hclaims hstate hprobe hat hwindow =>
      exact ⟨by simp [hstate, hprobe], by simp [hstate, hat], by simp [hwindow, Window.new], hpast,
        hs.opener_snoc (.inr hat), hs.since_snoc htrips (.inr hat), hs.settled_snoc hclaims (.inl hsettles)⟩
  | noted success hcall hopen htrips hclaims hafter =>
      refine hs.unmoved hle htrips hclaims (by rw [hafter]) (by rw [hafter]) (by rw [hafter]) ?_
      rw [hafter]
      refine count_errors_le hs.counts ?_
      simp only [Event.fits, hcall, hopen, decide_false, Bool.false_or] at hfit
      exact of_decide_eq_true hfit

end Sound

theorem Runs.sound {cfg : CircuitConfig} {start : Nat} {h : List Event} {now : Nat} {b : Breaker}
    (hr : Runs (fun e => e.fits = true) cfg start h now b) : Sound h now b := by
  induction hr with
  | new => exact Sound.new cfg start
  | call later call _ hle hfit ih => exact Sound.call (e := ⟨later, call, _⟩) ih hle hfit

/-! ### Admission

What an admission says about the breaker it was given by.
-/

namespace Breaker

variable {b : Breaker} {t t' : Nat}

/-- A cool-off that has passed stays so. -/
theorem cooled_mono (hle : t ≤ t') (h : b.cooled t = true) : b.cooled t' = true := by
  unfold cooled at h ⊢
  cases hat : b.openedAt with
  | none => simp [hat] at h
  | some u =>
      simp only [hat, decide_eq_true_eq] at h ⊢
      omega

theorem cooled_eq_true (h : b.cooled t = true) : ∃ u, b.openedAt = some u ∧ coolOff ≤ t - u := by
  unfold cooled at h
  cases hat : b.openedAt with
  | none => simp [hat] at h
  | some u => exact ⟨u, rfl, by simpa [hat] using h⟩

/-- A breaker that could be routed to admits, then and later. -/
theorem tryAdmit_of_canRoute (hle : t ≤ t') (h : b.canRoute t = true) :
    (b.tryAdmit t').1 = true := by
  unfold canRoute at h
  unfold tryAdmit
  cases hs : b.state with
  | closed => rfl
  | halfOpen => simp [hs] at h
  | opened =>
      simp only [hs, Bool.and_eq_true, Bool.not_eq_true'] at h
      simp [cooled_mono hle h.1, h.2]

/-- An open breaker admits only when its cool-off has passed. -/
theorem cooled_of_tryAdmit (hs : b.state = .opened) (h : (b.tryAdmit t).1 = true) :
    b.cooled t = true := by
  by_contra hc
  simp [tryAdmit, hs, hc] at h

end Breaker

theorem coolOff_pos : 0 < coolOff := by decide

/--
**The breaker is a sound state machine**, in every run in which no outcome is
counted in a window that already holds as many as a `u32` can.

The seven parts are: the probe flag and the time of opening are functions of the
state; the window is consistent; asking changes nothing, and what was answered is
kept as long as nobody comes in between; and an open breaker admits only a cool-off
after every trip and with no earlier probe unsettled.
-/
theorem breaker_state_machine {cfg : CircuitConfig} {start : Nat} {h : List Event} {now : Nat}
    {b : Breaker} (hr : Runs (fun e => e.fits = true) cfg start h now b) :
    (b.probeInFlight = true ↔ b.state = .halfOpen) ∧
    (b.openedAt = none ↔ b.state = .closed) ∧
    b.window.errors ≤ b.window.total ∧
    (∀ t, Event.after ⟨t, .canRoute, b⟩ = b) ∧
    (∀ t t', now ≤ t → t ≤ t' → b.canRoute t = true → (b.tryAdmit t').1 = true) ∧
    (∀ t, now ≤ t → b.state = .opened → (b.tryAdmit t).1 = true →
      (∃ e ∈ h, e.trips = true) ∧ ∀ e ∈ h, e.trips = true → e.now + coolOff ≤ t) ∧
    (∀ t, now ≤ t → b.state = .opened → (b.tryAdmit t).1 = true →
      ∀ pre e post, h = pre ++ e :: post → e.claims = true → ∃ d ∈ post, d.settles = true) := by
  have hs := hr.sound
  refine ⟨hs.probe, hs.opened, hs.counts, fun _ => rfl, ?_, ?_, ?_⟩
  · intro t t' _ hle hroute
    exact Breaker.tryAdmit_of_canRoute hle hroute
  · intro t _ hopen hadm
    obtain ⟨u, hu, hcool⟩ := Breaker.cooled_eq_true (Breaker.cooled_of_tryAdmit hopen hadm)
    obtain ⟨f, hf, hft, -⟩ := hs.opener u hu
    refine ⟨⟨f, hf, hft⟩, ?_⟩
    intro e he het
    have hle := hs.since e he het u hu
    have hpos := coolOff_pos
    omega
  · intro t _ hopen hadm pre e post heq hclaims
    exact hs.settled pre e post heq hclaims (by rw [hopen]; simp)

/-- A breaker that opens above one error in two. -/
def CircuitConfig.half (windowSecs minRequests : Nat) : CircuitConfig :=
  ⟨fun errors total => total < 2 * errors, windowSecs, minRequests⟩

theorem breaker_state_machine_sample :
    ∃ h b, Runs (fun e => e.fits = true) (.half 10 1) 0 h 0 b ∧
      b.state = .opened ∧ (b.tryAdmit coolOff).1 = true ∧ b.openedAt ≠ none ∧
      (∃ e ∈ h, e.trips = true) ∧ ∀ e ∈ h, e.trips = true → e.now + coolOff ≤ coolOff := by
  have hr : Runs (fun e => e.fits = true) (.half 10 1) 0 _ 0 _ :=
    Runs.call 0 (.record false) Runs.new (Nat.le_refl 0) (by decide)
  obtain ⟨-, hopened, -, -, -, hsince, -⟩ := breaker_state_machine hr
  refine ⟨_, _, hr, by decide, by decide, ?_, hsince coolOff (Nat.zero_le _) (by decide) (by decide)⟩
  intro hn
  exact absurd (hopened.mp hn) (by decide)

/-! ### A window that holds too much

A window so long that a `u32` does not hold the outcomes in it.
-/

/-- A breaker with a window of a year and the usual volume. -/
def yearly : CircuitConfig := .half 31536000 20

/--
A success, with one error and `total` outcomes in the window, counts and does
nothing else.
-/
theorem yearly_success {total later : Nat} (hyear : later ≤ 31536000 * 1000000000) :
    Event.after ⟨later, .record true, ⟨.closed, none, false, ⟨1, total, 0⟩, yearly⟩⟩ =
      ⟨.closed, none, false, ⟨1, u32 (total + 1), 0⟩, yearly⟩ := by
  have hcount : Window.count yearly later true ⟨1, total, 0⟩ = ⟨1, u32 (total + 1), 0⟩ :=
    Window.count_of_kept (Nat.not_lt.mpr hyear)
  have hrate : ∀ n, ¬ (yearly.minRequests ≤ n ∧ yearly.rateExceeds 1 n = true) := by
    rintro n ⟨hmin, hlt⟩
    have h20 : 20 ≤ n := hmin
    have h2 : n < 2 := of_decide_eq_true hlt
    omega
  show Breaker.record later true ⟨.closed, none, false, ⟨1, total, 0⟩, yearly⟩ = _
  unfold Breaker.record
  rw [if_neg (by simp)]
  simp only [hcount]
  exact if_neg (hrate _)

/-- One error and then a success every millisecond. -/
theorem yearly_run (n : Nat) (hn : n < 4294967295) :
    ∃ h, Runs (fun _ => True) yearly 0 h (n * 1000000)
      ⟨.closed, none, false, ⟨1, n + 1, 0⟩, yearly⟩ := by
  induction n with
  | zero => exact ⟨_, Runs.call 0 (.record false) Runs.new (Nat.le_refl 0) trivial⟩
  | succ n ih =>
      obtain ⟨h, hr⟩ := ih (by omega)
      have hr' := Runs.call ((n + 1) * 1000000) (.record true) hr (by omega) trivial
      rw [yearly_success (by omega), u32_of_lt (by omega)] at hr'
      exact ⟨_, hr'⟩

/-- The window's total wraps, and then holds fewer outcomes than errors. -/
theorem window_total_wraps :
    ∃ h now b, Runs (fun _ => True) yearly 0 h now b ∧ ¬ b.window.errors ≤ b.window.total := by
  obtain ⟨h, hr⟩ := yearly_run 4294967294 (by omega)
  have hr' := Runs.call (4294967295 * 1000000) (.record true) hr (by omega) trivial
  rw [yearly_success (by omega)] at hr'
  have hwrap : u32 (4294967294 + 1 + 1) = 0 := rfl
  rw [hwrap] at hr'
  exact ⟨_, _, _, hr', Nat.not_succ_le_zero 0⟩

end Thttpd.Migrate
