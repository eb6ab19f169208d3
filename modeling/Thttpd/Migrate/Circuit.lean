/-
The circuit breaker: `rust/crates/thttpd-migrate/src/circuit.rs`.

Every method of `Breaker` is a function of the time at which it runs, in
nanoseconds of the monotonic clock.  The counters of the window are `u32` and wrap.
The comparison of the error rate with the threshold is floating point, and nothing
depends on its outcome in particular, so the configuration carries it as a test on
the two counters.
-/
import Thttpd.Lib.Text

namespace Thttpd.Migrate

open Text

/-- The value a `u32` keeps of an arithmetic result. -/
def u32 (n : Nat) : Nat := n % 4294967296

theorem u32_of_lt {n : Nat} (h : n < 4294967296) : u32 n = n := Nat.mod_eq_of_lt h

/-- `Duration::from_secs`. -/
def fromSecs (n : Nat) : Nat := n * 1000000000

structure CircuitConfig where
  /-- `errors as f64 / total as f64 > error_rate_threshold`. -/
  rateExceeds : Nat → Nat → Bool
  windowSecs : Nat
  minRequests : Nat

inductive State where
  | closed
  | opened
  | halfOpen
  deriving DecidableEq, Repr

/-- Cool-off before an open breaker allows a half-open probe. -/
def coolOff : Nat := fromSecs 5

structure Window where
  errors : Nat
  total : Nat
  started : Nat
  deriving DecidableEq, Repr

structure Breaker where
  state : State
  openedAt : Option Nat
  /-- Set when a caller promotes the breaker to half-open. -/
  probeInFlight : Bool
  window : Window
  cfg : CircuitConfig

def Window.new (now : Nat) : Window := ⟨0, 0, now⟩

/-- One outcome more, in a window that starts over once its time is up. -/
def Window.count (cfg : CircuitConfig) (now : Nat) (success : Bool) (w : Window) : Window :=
  let w := if fromSecs cfg.windowSecs < now - w.started then Window.new now else w
  let w := { w with total := u32 (w.total + 1) }
  if success then w else { w with errors := u32 (w.errors + 1) }

theorem Window.count_of_rolled {cfg : CircuitConfig} {now : Nat} {success : Bool} {w : Window}
    (h : fromSecs cfg.windowSecs < now - w.started) :
    w.count cfg now success = ⟨if success then 0 else 1, 1, now⟩ := by
  unfold Window.count
  rw [if_pos h]
  cases success <;> rfl

theorem Window.count_of_kept {cfg : CircuitConfig} {now : Nat} {success : Bool} {w : Window}
    (h : ¬ fromSecs cfg.windowSecs < now - w.started) :
    w.count cfg now success =
      ⟨if success then w.errors else u32 (w.errors + 1), u32 (w.total + 1), w.started⟩ := by
  unfold Window.count
  rw [if_neg h]
  cases success <;> rfl

namespace Breaker

def new (cfg : CircuitConfig) (now : Nat) : Breaker :=
  ⟨.closed, none, false, Window.new now, cfg⟩

/-- The probe flag is left as it is. -/
def trip (now : Nat) (b : Breaker) : Breaker :=
  { b with state := .opened, openedAt := some now, window := Window.new now }

def close (now : Nat) (b : Breaker) : Breaker :=
  { b with state := .closed, openedAt := none, window := Window.new now }

/-- Release a claimed probe without recording an outcome. -/
def releaseProbe (now : Nat) (b : Breaker) : Breaker :=
  if b.state = .halfOpen then ({ b with probeInFlight := false }).trip now else b

/-- Record a request outcome and update the circuit state. -/
def record (now : Nat) (success : Bool) (b : Breaker) : Breaker :=
  if b.state = .halfOpen then
    let b := { b with probeInFlight := false }
    if success then b.close now else b.trip now
  else
    let w := b.window.count b.cfg now success
    let b := { b with window := w }
    if b.cfg.minRequests ≤ w.total ∧ b.cfg.rateExceeds w.errors w.total then b.trip now else b

/-- Whether the cool-off has passed since the breaker opened. -/
def cooled (now : Nat) (b : Breaker) : Bool :=
  match b.openedAt with
  | some t => coolOff ≤ now - t
  | none => false

/-- Whether the breaker's backend may be considered for routing; changes nothing. -/
def canRoute (now : Nat) (b : Breaker) : Bool :=
  match b.state with
  | .closed => true
  | .opened => b.cooled now && !b.probeInFlight
  | .halfOpen => false

/--
Admit a request, and whether it was: a cooled open breaker becomes half-open for the
one caller that finds the probe slot free.
-/
def tryAdmit (now : Nat) (b : Breaker) : Bool × Breaker :=
  match b.state with
  | .closed => (true, b)
  | .opened =>
      if b.cooled now then
        if b.probeInFlight then (false, b)
        else (true, { b with probeInFlight := true, state := .halfOpen })
      else (false, b)
  | .halfOpen => (false, b)

end Breaker

/-- A call of one of the methods. -/
inductive Call where
  | tryAdmit
  | canRoute
  | record (success : Bool)
  | releaseProbe
  deriving DecidableEq, Repr

namespace Breaker

/-! ### What a method does to the state -/

/--
An admission that succeeds leaves the breaker closed, or makes an open one
half-open; one that fails changes nothing.
-/
theorem tryAdmit_cases (now : Nat) (b : Breaker) :
    (b.tryAdmit now = (true, b) ∧ b.state = .closed) ∨
    (b.tryAdmit now = (true, { b with probeInFlight := true, state := .halfOpen }) ∧
      b.state = .opened) ∨
    b.tryAdmit now = (false, b) := by
  unfold tryAdmit
  cases hs : b.state with
  | closed => exact .inl ⟨rfl, rfl⟩
  | opened =>
      simp only
      split
      · split
        · exact .inr (.inr rfl)
        · exact .inr (.inl ⟨rfl, trivial⟩)
      · exact .inr (.inr rfl)
  | halfOpen => exact .inr (.inr rfl)

/-- A recorded outcome never leaves the breaker half-open. -/
theorem record_state_ne_halfOpen (now : Nat) (success : Bool) (b : Breaker) :
    (b.record now success).state ≠ .halfOpen := by
  unfold record
  split
  · cases success <;> simp [close, trip]
  · rename_i hb
    simp only
    split
    · simp [trip]
    · exact hb

/-- Outside half-open, an outcome leaves the state or trips the breaker. -/
theorem record_state_of_ne {now : Nat} {success : Bool} {b : Breaker} (hb : b.state ≠ .halfOpen) :
    (b.record now success).state = b.state ∨ (b.record now success).state = .opened := by
  unfold record
  rw [if_neg hb]
  simp only
  split
  · exact .inr rfl
  · exact .inl rfl

theorem releaseProbe_state_ne_halfOpen (now : Nat) (b : Breaker) :
    (b.releaseProbe now).state ≠ .halfOpen := by
  unfold releaseProbe
  split
  · simp [trip]
  · rename_i hb
    exact hb

theorem releaseProbe_of_ne {now : Nat} {b : Breaker} (hb : b.state ≠ .halfOpen) :
    b.releaseProbe now = b := if_neg hb

end Breaker

end Thttpd.Migrate
