/-
Backends and their breakers: `rust/crates/thttpd-migrate/src/backend.rs`.

A backend is known by its name, as the key of both maps is.  The map of the
backends is a list in its iteration order, which does not change while no key is
added; the map of the breakers is only ever asked for one name.

A call of one of the methods of a breaker is a single change of the pool here.  What
may happen in between its atomic accesses is the subject of `Migrate/Atomics`.
-/
import Thttpd.Migrate.Circuit

namespace Thttpd.Migrate

open Text

inductive Health where
  | healthy
  | degraded
  | unhealthy
  deriving DecidableEq, Repr

structure Backend where
  name : Str
  address : Str
  weight : Nat
  health : Health
  deriving DecidableEq, Repr

def Backend.isRoutable (b : Backend) : Bool := b.health != .unhealthy

structure BackendPool where
  backends : List Backend
  breakers : Str → Option Breaker

namespace BackendPool

/-- Every backend healthy, with a breaker of its own. -/
def withBreakerCfg (backends : List (Str × Str × Nat)) (cfg : CircuitConfig) (now : Nat) :
    BackendPool where
  backends := backends.map fun (name, address, weight) => ⟨name, address, weight, .healthy⟩
  breakers := fun name =>
    if name ∈ backends.map Prod.fst then some (Breaker.new cfg now) else none

def get (p : BackendPool) (name : Str) : Option Backend :=
  p.backends.find? fun b => b.name = name

/-- Change the backend called `name`. -/
def setBackend (p : BackendPool) (name : Str) (f : Backend → Backend) : BackendPool :=
  { p with backends := p.backends.map fun b => if b.name = name then f b else b }

/-- Change the breaker called `name`. -/
def setBreaker (p : BackendPool) (name : Str) (f : Breaker → Breaker) : BackendPool :=
  { p with breakers := fun n => if n = name then (p.breakers n).map f else p.breakers n }

/-- Whether the backend called `name` is routable; one that is gone is not. -/
def isRoutable (p : BackendPool) (name : Str) : Bool :=
  match p.get name with
  | some b => b.isRoutable
  | none => false

def weight (p : BackendPool) (name : Str) : Nat :=
  match p.get name with
  | some b => b.weight
  | none => 0

def address (p : BackendPool) (name : Str) : Str :=
  match p.get name with
  | some b => b.address
  | none => []

def breakerCanRoute (p : BackendPool) (now : Nat) (name : Str) : Bool :=
  match p.breakers name with
  | some b => b.canRoute now
  | none => true

/-- Side-effectful admission to the backend called `name`. -/
def breakerAdmit (p : BackendPool) (now : Nat) (name : Str) : Bool × BackendPool :=
  match p.breakers name with
  | some b => ((b.tryAdmit now).1, p.setBreaker name fun b => (b.tryAdmit now).2)
  | none => (true, p)

def breakerReleaseProbe (p : BackendPool) (now : Nat) (name : Str) : BackendPool :=
  p.setBreaker name (Breaker.releaseProbe now)

def recordOutcome (p : BackendPool) (now : Nat) (name : Str) (success : Bool) : BackendPool :=
  p.setBreaker name (Breaker.record now success)

/-- The state of the breaker called `name`. -/
def state (p : BackendPool) (name : Str) : Option State := (p.breakers name).map Breaker.state

/-! ### What the operations do to the states

The state of a breaker is what the other modules ask about.  These lemmas say what
each operation does to it, for its own breaker and for all others, so that no proof
about runs takes a pool apart.
-/

theorem state_setBreaker_of_ne {p : BackendPool} {name n : Str} (f : Breaker → Breaker)
    (h : n ≠ name) : (p.setBreaker name f).state n = p.state n := by
  simp only [state, setBreaker, if_neg h]

theorem state_setBreaker_self (p : BackendPool) (name : Str) (f : Breaker → Breaker) :
    (p.setBreaker name f).state name = (p.breakers name).map fun b => (f b).state := by
  simp only [state, setBreaker, if_true, Option.map_map]
  rfl

/-- Nothing but the breaker asked for changes. -/
theorem state_breakerAdmit_of_ne {p : BackendPool} {now : Nat} {name n : Str} (h : n ≠ name) :
    (p.breakerAdmit now name).2.state n = p.state n := by
  unfold breakerAdmit
  split
  · exact state_setBreaker_of_ne _ h
  · rfl

/-- What an admission does to the state of its own breaker. -/
theorem breakerAdmit_cases (p : BackendPool) (now : Nat) (name : Str) :
    ((p.breakerAdmit now name).1 = true ∧
      (p.breakerAdmit now name).2.state name = p.state name ∧
      (p.state name = some .closed ∨ p.state name = none)) ∨
    ((p.breakerAdmit now name).1 = true ∧ p.state name = some .opened ∧
      (p.breakerAdmit now name).2.state name = some .halfOpen) ∨
    ((p.breakerAdmit now name).1 = false ∧
      (p.breakerAdmit now name).2.state name = p.state name) := by
  unfold breakerAdmit
  cases hb : p.breakers name with
  | none => exact .inl ⟨rfl, rfl, .inr (by simp [state, hb])⟩
  | some b =>
      have hst : p.state name = some b.state := by simp [state, hb]
      simp only [state_setBreaker_self, hb, Option.map_some, hst, Option.some.injEq]
      rcases b.tryAdmit_cases now with ⟨h, hc⟩ | ⟨h, ho⟩ | h
      · exact .inl ⟨by rw [h], by rw [h], .inl hc⟩
      · exact .inr (.inl ⟨by rw [h], ho, by rw [h]⟩)
      · exact .inr (.inr ⟨by rw [h], by rw [h]⟩)

theorem state_recordOutcome_ne_halfOpen (p : BackendPool) (now : Nat) (name : Str)
    (success : Bool) : (p.recordOutcome now name success).state name ≠ some .halfOpen := by
  unfold recordOutcome
  rw [state_setBreaker_self]
  cases p.breakers name with
  | none => simp
  | some b => simpa using b.record_state_ne_halfOpen now success

/-- An outcome outside half-open keeps the state or opens the breaker. -/
theorem state_recordOutcome_of_ne {p : BackendPool} {now : Nat} {name : Str} {success : Bool}
    (h : p.state name ≠ some .halfOpen) :
    (p.recordOutcome now name success).state name = p.state name ∨
      (p.recordOutcome now name success).state name = some .opened := by
  unfold recordOutcome
  rw [state_setBreaker_self]
  cases hb : p.breakers name with
  | none => exact .inl (by simp [state, hb])
  | some b =>
      have hne : b.state ≠ .halfOpen := by
        intro hc
        exact h (by simp [state, hb, hc])
      simp only [state, hb, Option.map_some, Option.some.injEq]
      exact Breaker.record_state_of_ne hne

theorem state_breakerReleaseProbe_ne_halfOpen (p : BackendPool) (now : Nat) (name : Str) :
    (p.breakerReleaseProbe now name).state name ≠ some .halfOpen := by
  unfold breakerReleaseProbe
  rw [state_setBreaker_self]
  cases p.breakers name with
  | none => simp
  | some b => simpa using b.releaseProbe_state_ne_halfOpen now

/-- Outside half-open nothing is released. -/
theorem state_breakerReleaseProbe_of_ne {p : BackendPool} {now : Nat} {name : Str}
    (h : p.state name ≠ some .halfOpen) :
    (p.breakerReleaseProbe now name).state name = p.state name := by
  unfold breakerReleaseProbe
  rw [state_setBreaker_self]
  cases hb : p.breakers name with
  | none => simp [state, hb]
  | some b =>
      have hne : b.state ≠ .halfOpen := by
        intro hc
        exact h (by simp [state, hb, hc])
      simp only [state, hb, Option.map_some, Breaker.releaseProbe_of_ne hne]

end BackendPool

end Thttpd.Migrate
