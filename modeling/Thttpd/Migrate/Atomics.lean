/-
The breaker at the grain of its memory accesses.

The methods of `Breaker` in `rust/crates/thttpd-migrate/src/circuit.rs` are not
atomic: `state` and `probe_in_flight` are atomics, `opened_at` and `window` have a
mutex each, and no lock spans two of them.  Here a caller stands at a `Place` between
two accesses, and one access (a load, a store, a lock section, the compare-exchange)
is one step.  In `*self.opened_at.lock() = Some(Instant::now())` the right side is
evaluated first, so the clock is read before the lock is taken, in a step of its own.

`Migrate/Circuit.lean` has the methods in one piece; a caller that is alone does what
they say, which is `runAlone_tryAdmit` and its companions.
-/
import Thttpd.Migrate.Circuit
import Mathlib.Tactic.Common

namespace Thttpd.Migrate

/-- The place a caller has come to: before its next access. -/
inductive Place where
  /-- Outside the breaker, with what the last method returned. -/
  | returned (value : Option Bool)
  /-- `can_route`: before the load of the state, the lock section of `opened_at`, and
  the load of the probe flag. -/
  | routeLoad
  | routeCheck
  | routeProbe
  /-- `try_admit`: before the load of the state. -/
  | admitLoad
  /-- `try_admit`: before the lock section of `opened_at`. -/
  | admitCheck
  /-- `try_admit`: before the compare-exchange. -/
  | admitSwap
  /-- `try_admit`: before the store of the state. -/
  | admitStore
  /-- `record`: before the load of the state. -/
  | recordLoad (success : Bool)
  /-- `record` in half-open: before the probe slot is freed. -/
  | recordFree (success : Bool)
  /-- `record` elsewhere: before the lock section of the window. -/
  | recordCount (success : Bool)
  | releaseLoad
  | releaseFree
  /-- `trip`: before the store of the state.  The flag tells whether it was called for a
  half-open breaker. -/
  | tripStore (probing : Bool)
  /-- `trip`: before the clock is read. -/
  | tripNow (probing : Bool)
  /-- `trip`: before the lock section of `opened_at`. -/
  | tripAt (probing : Bool) (t : Nat)
  | tripWindow
  | closeStore
  | closeAt
  | closeWindow
  deriving DecidableEq, Repr

/-- Where a method begins. -/
def Call.entry : Call → Place
  | .tryAdmit => .admitLoad
  | .canRoute => .routeLoad
  | .record success => .recordLoad success
  | .releaseProbe => .releaseLoad

namespace Place

def isReturned : Place → Bool
  | .returned _ => true
  | _ => false

/-- Inside `try_admit`. -/
def admitting : Place → Bool
  | .admitLoad | .admitCheck | .admitSwap | .admitStore => true
  | _ => false

/-- Past the check of the cool-off in `try_admit`. -/
def passed : Place → Bool
  | .admitSwap | .admitStore => true
  | _ => false

/-- Tripping a half-open breaker, and `opened_at` not yet written. -/
def renewing : Place → Bool
  | .recordFree success => !success
  | .releaseFree => true
  | .tripStore probing | .tripNow probing | .tripAt probing _ => probing
  | _ => false

end Place

/-- The next access of a caller: the breaker after it, and the caller's next place. -/
def access (now : Nat) (b : Breaker) : Place → Breaker × Place
  | .returned value => (b, .returned value)
  | .routeLoad =>
      match b.state with
      | .closed => (b, .returned (some true))
      | .opened => (b, .routeCheck)
      | .halfOpen => (b, .returned (some false))
  | .routeCheck => if b.cooled now then (b, .routeProbe) else (b, .returned (some false))
  | .routeProbe => (b, .returned (some !b.probeInFlight))
  | .admitLoad =>
      match b.state with
      | .closed => (b, .returned (some true))
      | .opened => (b, .admitCheck)
      | .halfOpen => (b, .returned (some false))
  | .admitCheck => if b.cooled now then (b, .admitSwap) else (b, .returned (some false))
  | .admitSwap =>
      if b.probeInFlight then (b, .returned (some false))
      else ({ b with probeInFlight := true }, .admitStore)
  | .admitStore => ({ b with state := .halfOpen }, .returned (some true))
  | .recordLoad success =>
      if b.state = .halfOpen then (b, .recordFree success) else (b, .recordCount success)
  | .recordFree success =>
      ({ b with probeInFlight := false }, if success then .closeStore else .tripStore true)
  | .recordCount success =>
      let w := b.window.count b.cfg now success
      let b := { b with window := w }
      if b.cfg.minRequests ≤ w.total ∧ b.cfg.rateExceeds w.errors w.total then
        (b, .tripStore false)
      else (b, .returned none)
  | .releaseLoad => if b.state = .halfOpen then (b, .releaseFree) else (b, .returned none)
  | .releaseFree => ({ b with probeInFlight := false }, .tripStore true)
  | .tripStore probing => ({ b with state := .opened }, .tripNow probing)
  | .tripNow probing => (b, .tripAt probing now)
  | .tripAt _ t => ({ b with openedAt := some t }, .tripWindow)
  | .tripWindow => ({ b with window := Window.new now }, .returned none)
  | .closeStore => ({ b with state := .closed }, .closeAt)
  | .closeAt => ({ b with openedAt := none }, .closeWindow)
  | .closeWindow => ({ b with window := Window.new now }, .returned none)

/-- The load that makes `record(false)` or `release_probe` trip a half-open breaker. -/
def observes (b : Breaker) : Place → Bool
  | .recordLoad success => b.state = .halfOpen && !success
  | .releaseLoad => b.state = .halfOpen
  | _ => false

/-! ### Any number of callers -/

structure Callers where
  breaker : Breaker
  now : Nat
  places : List Place
  /-- When a half-open breaker began to be tripped, for the record: no step looks at it. -/
  began : List Nat

/-- What can happen. -/
inductive Act where
  | tick (nanos : Nat)
  /-- Caller `i` calls a method. -/
  | enter (i : Nat) (call : Call)
  /-- Caller `i` makes its next access. -/
  | run (i : Nat)

namespace Callers

/-- `n` callers of a new breaker. -/
def start (cfg : CircuitConfig) (now n : Nat) : Callers :=
  ⟨Breaker.new cfg now, now, List.replicate n (.returned none), []⟩

def step (c : Callers) : Act → Option Callers
  | .tick nanos => some { c with now := c.now + nanos }
  | .enter i call =>
      match c.places[i]? with
      | some p => if p.isReturned then some { c with places := c.places.set i call.entry } else none
      | none => none
  | .run i =>
      match c.places[i]? with
      | some p =>
          if p.isReturned then none
          else some ⟨(access c.now c.breaker p).1, c.now, c.places.set i (access c.now c.breaker p).2,
            if observes c.breaker p then c.now :: c.began else c.began⟩
      | none => none

/-- A run from `c` whose steps all meet `ok`. -/
def run (ok : Callers → Act → Bool) (c : Callers) : List Act → Option Callers
  | [] => some c
  | a :: acts => if ok c a then (c.step a).bind fun c' => run ok c' acts else none

end Callers

/-! ### A caller that is alone -/

/-- The next `n` accesses of a caller, with nobody else and no time in between. -/
def runAlone (now : Nat) : Nat → Breaker → Place → Breaker × Place
  | 0, b, p => (b, p)
  | n + 1, b, p => runAlone now n (access now b p).1 (access now b p).2

section

variable (now : Nat) (b : Breaker)

theorem runAlone_tryAdmit :
    runAlone now 4 b (Call.entry .tryAdmit) =
      ((b.tryAdmit now).2, .returned (some (b.tryAdmit now).1)) := by
  cases hs : b.state with
  | closed => simp [runAlone, access, Call.entry, Breaker.tryAdmit, hs]
  | halfOpen => simp [runAlone, access, Call.entry, Breaker.tryAdmit, hs]
  | opened =>
      cases hc : b.cooled now with
      | false => simp [runAlone, access, Call.entry, Breaker.tryAdmit, hs, hc]
      | true =>
          cases hp : b.probeInFlight with
          | false => simp [runAlone, access, Call.entry, Breaker.tryAdmit, hs, hc, hp]
          | true => simp [runAlone, access, Call.entry, Breaker.tryAdmit, hs, hc, hp]

theorem runAlone_canRoute :
    runAlone now 3 b (Call.entry .canRoute) = (b, .returned (some (b.canRoute now))) := by
  cases hs : b.state with
  | closed => simp [runAlone, access, Call.entry, Breaker.canRoute, hs]
  | halfOpen => simp [runAlone, access, Call.entry, Breaker.canRoute, hs]
  | opened =>
      cases hc : b.cooled now with
      | false => simp [runAlone, access, Call.entry, Breaker.canRoute, hs, hc]
      | true => simp [runAlone, access, Call.entry, Breaker.canRoute, hs, hc]

theorem runAlone_releaseProbe :
    runAlone now 6 b (Call.entry .releaseProbe) = (b.releaseProbe now, .returned none) := by
  by_cases hs : b.state = .halfOpen
  · simp [runAlone, access, Call.entry, Breaker.releaseProbe, Breaker.trip, hs]
  · simp [runAlone, access, Call.entry, Breaker.releaseProbe, hs]

theorem runAlone_record (success : Bool) :
    runAlone now 6 b (Call.entry (.record success)) = (b.record now success, .returned none) := by
  by_cases hs : b.state = .halfOpen
  · cases success with
    | true => simp [runAlone, access, Call.entry, Breaker.record, Breaker.close, hs]
    | false => simp [runAlone, access, Call.entry, Breaker.record, Breaker.trip, hs]
  · by_cases hr : b.cfg.minRequests ≤ (b.window.count b.cfg now success).total ∧
        b.cfg.rateExceeds (b.window.count b.cfg now success).errors
          (b.window.count b.cfg now success).total = true
    · simp only [runAlone, access, Call.entry, Breaker.record, if_neg hs, if_pos hr, Breaker.trip]
    · simp only [runAlone, access, Call.entry, Breaker.record, if_neg hs, if_neg hr]

/--
Taken apart into its accesses and made of them again with nobody in between, every
method is what it is in one piece.
-/
structure Breaker.Whole : Prop where
  tryAdmit : runAlone now 4 b (Call.entry .tryAdmit) =
    ((b.tryAdmit now).2, .returned (some (b.tryAdmit now).1))
  canRoute : runAlone now 3 b (Call.entry .canRoute) = (b, .returned (some (b.canRoute now)))
  releaseProbe : runAlone now 6 b (Call.entry .releaseProbe) = (b.releaseProbe now, .returned none)
  record : ∀ success, runAlone now 6 b (Call.entry (.record success)) =
    (b.record now success, .returned none)

/-- So a run of callers who wait for each other is a run of the methods. -/
theorem Breaker.whole : b.Whole now :=
  ⟨runAlone_tryAdmit now b, runAlone_canRoute now b, runAlone_releaseProbe now b, runAlone_record now b⟩

end

end Thttpd.Migrate
