/-
Active health checks: `update_health` in `rust/crates/thttpd-migrate/src/health.rs`.

The atomics of a `Backend` that a probe changes are taken by themselves; its name
and its configuration do not matter here.  The counters are `u32`: `fetch_add` wraps
around, while the sum that is compared with a threshold aborts in a build with
overflow checks.

A probe is done to one backend at a time by the one task that probes, so an outcome
is a step and a history a list of outcomes.
-/
import Thttpd.Migrate.Backend

namespace Thttpd.Migrate

structure HealthConfig where
  failureThreshold : Nat
  successThreshold : Nat
  deriving DecidableEq, Repr

/-- What the probes have left of a backend. -/
structure ProbedHealth where
  health : Health
  consecutiveFailures : Nat
  consecutiveSuccesses : Nat
  deriving DecidableEq, Repr

namespace ProbedHealth

/-- A new backend is healthy. -/
def new : ProbedHealth := ⟨.healthy, 0, 0⟩

/-- `fetch_add(1) + 1`, which is also what is stored; `none` is a panic. -/
def countUp (checks : Bool) (n : Nat) : Option Nat :=
  if checks ∧ 4294967296 ≤ n + 1 then none else some (u32 (n + 1))

/-- Update a backend's health from a single probe outcome. -/
def updateHealth (checks : Bool) (cfg : HealthConfig) (b : ProbedHealth) (success : Bool) :
    Option ProbedHealth :=
  if success then
    match countUp checks b.consecutiveSuccesses with
    | none => none
    | some n =>
        let health := if cfg.successThreshold ≤ n ∧ b.health ≠ .healthy then .healthy else b.health
        some ⟨health, 0, n⟩
  else
    match countUp checks b.consecutiveFailures with
    | none => none
    | some n =>
        let health :=
          if cfg.failureThreshold ≤ n ∧ b.health ≠ .unhealthy then .unhealthy else b.health
        some ⟨health, n, 0⟩

/-- One probe after another. -/
def probe (checks : Bool) (cfg : HealthConfig) (b : ProbedHealth) (outcomes : List Bool) :
    Option ProbedHealth :=
  outcomes.foldlM (updateHealth checks cfg) b

end ProbedHealth

end Thttpd.Migrate
