/-
Weighted routing: `rust/crates/thttpd-migrate/src/router.rs`.

First the parts of `decide` between two calls of a breaker.  How they follow on each
other is in `Migrate/Server.lean`, where other requests may come in between; a call of
`decide` that runs alone is `Router.decide`, at the end of this file.
-/
import Thttpd.Migrate.Backend

namespace Thttpd.Migrate

open Text

inductive RoutingMode where
  | activeActive
  | shadow
  | canary
  deriving DecidableEq, Repr

structure RoutingConfig where
  mode : RoutingMode
  primaryBackend : Option Str
  shadowBackend : Option Str
  excludePaths : List Str
  deriving DecidableEq, Repr

structure RoutingDecision where
  backend : Str
  shadow : Option Str
  requestId : Str
  deriving DecidableEq, Repr

/-- A backend the weighted draw may pick; no breaker changes. -/
def isCandidate (p : BackendPool) (now : Nat) (name : Str) : Bool :=
  p.isRoutable name && 0 < p.weight name && p.breakerCanRoute now name

/-- The sum of the weights, in `u32`. -/
def totalWeight (p : BackendPool) (candidates : List Str) : Nat :=
  candidates.foldl (fun acc name => u32 (acc + p.weight name)) 0

/-- The first candidate whose running sum passes `pick`. -/
def scan (p : BackendPool) (pick : Nat) : Nat → List Str → Option Str
  | _, [] => none
  | acc, name :: rest =>
      let acc := u32 (acc + p.weight name)
      if pick < acc then some name else scan p pick acc rest

/-- The candidate a draw selects, the last one if the scan finds none. -/
def select (p : BackendPool) (candidates : List Str) (pick : Nat) : Option Str :=
  (scan p pick 0 candidates).or candidates.getLast?

/-- The configured primary backend, if it can be routed to. -/
def eligiblePrimary (p : BackendPool) (now : Nat) (routing : RoutingConfig) : Option Str := do
  let name ← routing.primaryBackend
  let backend ← p.get name
  if backend.isRoutable && p.breakerCanRoute now name then some name else none

/-- The shadow of a decision: checked, and not admitted. -/
def eligibleShadow (p : BackendPool) (now : Nat) (routing : RoutingConfig) (chosen : Str) :
    Option Str :=
  if routing.mode = .shadow then do
    let name ← routing.shadowBackend
    let backend ← p.get name
    if name ≠ chosen ∧ backend.isRoutable ∧ p.breakerCanRoute now name then some name else none
  else none

/-! ### A decision that is made alone -/

namespace Router

/--
The loop of the weighted draw: the chosen backend, and the pool after its admission.
`draws` are the random numbers of the rounds, each brought below the total.
-/
def loop (now : Nat) : Nat → BackendPool → (Nat → Nat) → List Str → Option Str × BackendPool
  | 0, p, _, _ => (none, p)
  | rounds + 1, p, draws, candidates =>
      let total := totalWeight p candidates
      if total = 0 then (none, p)
      else
        match select p candidates (draws 0 % total) with
        | none => (none, p)
        | some selected =>
            let (admitted, p') := p.breakerAdmit now selected
            if admitted then (some selected, p')
            else
              let rest := candidates.filter fun name => name ≠ selected
              if rest = [] then (none, p')
              else loop now rounds p' (fun i => draws (i + 1)) rest

/-- The backends that can be drawn. -/
def candidates (p : BackendPool) (now : Nat) : List Str :=
  (p.backends.map Backend.name).filter (isCandidate p now)

/--
The backend a request goes to, and the pool after its admission.  A round of the loop
removes a candidate, so there are never more rounds than candidates.
-/
def choose (p : BackendPool) (now : Nat) (routing : RoutingConfig) (draws : Nat → Nat) :
    Option Str × BackendPool :=
  match routing.mode with
  | .shadow =>
      match eligiblePrimary p now routing with
      | none => (none, p)
      | some name =>
          let (admitted, p') := p.breakerAdmit now name
          (if admitted then some name else none, p')
  | .activeActive | .canary =>
      if candidates p now = [] then (none, p)
      else loop now (candidates p now).length p draws (candidates p now)

/-- The whole decision. -/
def decide (p : BackendPool) (now : Nat) (routing : RoutingConfig) (requestId : Str)
    (draws : Nat → Nat) : Option RoutingDecision × BackendPool :=
  let (chosen, p') := choose p now routing draws
  match chosen with
  | none => (none, p')
  | some name => (some ⟨name, eligibleShadow p' now routing name, requestId⟩, p')

end Router

end Thttpd.Migrate
