/-
Weights that change while the proxy runs: `rust/crates/thttpd-migrate/src/state.rs`,
and the commands that change them, in `control.rs`.

The weights are kept twice: in the pool, where the router reads them, and in the live
configuration.  A command runs under `control_lock`, so it is one step for every other
command; the router takes no lock, so for it each single write to the pool is a step.
The order of those writes is that in which a hash map is iterated.  `set_weights` is
given its map; the one `rollback` makes comes out in the order of a `Hasher`.

Left out are the drain flag and its grace period, and the snapshot that a command
writes to `state.json`: no command reads either.
-/
import Thttpd.Migrate.Config

namespace Thttpd.Migrate

open Text

/-- The value a `u64` keeps of an arithmetic result. -/
def u64 (n : Nat) : Nat := n % 18446744073709551616

namespace BackendPool

/-- One write to the pool: the backend called as the entry says has its weight. -/
def setWeight (p : BackendPool) (e : Str × Nat) : BackendPool :=
  p.setBackend e.1 ({ · with weight := e.2 })

/-- The pool after every entry has been written. -/
def setWeights (p : BackendPool) (entries : List (Str × Nat)) : BackendPool :=
  entries.foldl setWeight p

/-- The pool after each single write, as a router sees it that takes no lock. -/
def writes (p : BackendPool) : List (Str × Nat) → List BackendPool
  | [] => []
  | e :: rest => p.setWeight e :: (p.setWeight e).writes rest

/-- The weight of a backend once a set of weights is applied. -/
def prospective (weights : Assoc Str Nat) (b : Backend) : Nat :=
  (weights.get? b.name).getD b.weight

/-- The sum of the weights to be, in `u64`. -/
def prospectiveTotal (p : BackendPool) (weights : Assoc Str Nat) : Nat :=
  p.backends.foldl (fun acc b => u64 (acc + prospective weights b)) 0

/-- The weights of a rollback: everything for the target. -/
def rollbackWeights (p : BackendPool) (target : Str) : Assoc Str Nat :=
  p.backends.foldl (fun m b => m.insert b.name (if b.name = target then 100 else 0)) Assoc.empty

end BackendPool

namespace BackendPool

theorem names_setWeight (p : BackendPool) (e : Str × Nat) :
    (p.setWeight e).backends.map Backend.name = p.backends.map Backend.name := by
  simp only [setWeight, setBackend, List.map_map]
  refine List.map_congr_left fun b _ => ?_
  simp only [Function.comp]
  split <;> rfl

theorem names_setWeights (p : BackendPool) (entries : List (Str × Nat)) :
    (p.setWeights entries).backends.map Backend.name = p.backends.map Backend.name := by
  unfold setWeights
  induction entries generalizing p with
  | nil => rfl
  | cons e rest ih => rw [List.foldl_cons, ih, names_setWeight]

end BackendPool

/-- The same writes in the live configuration. -/
def configWeights (backends : Assoc Str BackendConfig) (entries : List (Str × Nat)) :
    Assoc Str BackendConfig :=
  entries.foldl (fun m e => m.modify e.1 ({ · with weight := e.2 })) backends

/-- The live configuration, and the pool the router uses. -/
structure LiveState where
  config : ProxyConfig
  pool : BackendPool

/-- The pool a configuration is started with, its backends in the order of its own map. -/
def poolOf (cfg : ProxyConfig) (order : List (Str × BackendConfig)) (now : Nat) : BackendPool :=
  BackendPool.withBreakerCfg (order.map fun e => (e.1, e.2.address, e.2.weight))
    cfg.circuitBreaker now

namespace LiveState

/-- Apply a set of weights to the pool and to the live configuration. -/
def setWeights (s : LiveState) (weights : Assoc Str Nat) : Except Str LiveState :=
  match weights.keys.find? fun name => (s.pool.get name).isNone with
  | some name => .error ("unknown backend in set-weight: ".toList ++ name)
  | none =>
      if 0 < s.pool.prospectiveTotal weights then
        .ok ⟨{ s.config with backends := configWeights s.config.backends weights.entries },
          s.pool.setWeights weights.entries⟩
      else
        .error "set-weight would leave total weight at 0; keep at least one backend > 0".toList

/--
The routing after a rollback: in shadow mode the target becomes the primary, and the
previous primary is mirrored to.
-/
def rollbackRouting (routing : RoutingConfig) (keys : List Str) (target : Str) : RoutingConfig :=
  if routing.mode = .shadow then
    let previousPrimary := routing.primaryBackend
    if previousPrimary ≠ some target then
      { routing with
        primaryBackend := some target
        shadowBackend :=
          ((previousPrimary.filter fun name => name ≠ target).or
            (routing.shadowBackend.filter fun name => name ≠ target)).or
            (keys.find? fun name => name ≠ target) }
    else routing
  else routing

/-- Everything for the target. -/
def rollback (h : Hasher Str Nat) (s : LiveState) (target : Str) : Except Str LiveState :=
  if (s.pool.get target).isSome then
    let weights := h.order (s.pool.rollbackWeights target)
    let backends := configWeights s.config.backends weights.entries
    .ok ⟨{ s.config with backends, routing := rollbackRouting s.config.routing backends.keys target },
      s.pool.setWeights weights.entries⟩
  else .error ("unknown backend in rollback target: ".toList ++ target)

end LiveState

/-- A command that changes weights. -/
inductive ControlRequest where
  | setWeight (weights : Assoc Str Nat)
  | rollback (target : Str)

/-- What a command answers, and the state it leaves. -/
def LiveState.handle (h : Hasher Str Nat) (s : LiveState) : ControlRequest → Except Str Unit × LiveState
  | .setWeight weights =>
      match s.setWeights weights with
      | .ok s' => (.ok (), s')
      | .error e => (.error ("set-weight failed: ".toList ++ e), s)
  | .rollback target =>
      match s.rollback h target with
      | .ok s' => (.ok (), s')
      | .error e => (.error ("rollback failed: ".toList ++ e), s)

/-! ### What a command does -/

namespace LiveState

variable {s s' : LiveState} {weights : Assoc Str Nat} {h : Hasher Str Nat} {target : Str}

/-- A set of weights that is accepted names known backends and leaves a total. -/
theorem setWeights_eq_ok (hok : s.setWeights weights = .ok s') :
    (∀ name ∈ weights.keys, (s.pool.get name).isSome = true) ∧
    0 < s.pool.prospectiveTotal weights ∧
    s' = ⟨{ s.config with backends := configWeights s.config.backends weights.entries },
      s.pool.setWeights weights.entries⟩ := by
  unfold setWeights at hok
  split at hok
  · cases hok
  · rename_i hfind
    split at hok
    · rename_i htotal
      refine ⟨?_, htotal, (Except.ok.inj hok).symm⟩
      intro name hname
      simpa [Option.isSome_iff_ne_none] using List.find?_eq_none.mp hfind name hname
    · cases hok

theorem rollback_eq_ok (hok : s.rollback h target = .ok s') :
    (s.pool.get target).isSome = true ∧
    s' = ⟨{ s.config with
        backends := configWeights s.config.backends (h.order (s.pool.rollbackWeights target)).entries
        routing := rollbackRouting s.config.routing
          (configWeights s.config.backends (h.order (s.pool.rollbackWeights target)).entries).keys
          target },
      s.pool.setWeights (h.order (s.pool.rollbackWeights target)).entries⟩ := by
  unfold rollback at hok
  split at hok
  · rename_i hknown
    exact ⟨hknown, (Except.ok.inj hok).symm⟩
  · cases hok

end LiveState

end Thttpd.Migrate
