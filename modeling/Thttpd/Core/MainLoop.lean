/-
The main loop: `run` and `handle_accept` in `rust/crates/thttpd-core/src/eventloop.rs`.

`Turn` is one turn of the loop, phase by phase: signals, the poll, new connections, the
events of connections, paused connections whose time has come, and the periodic update.
What the outside decides is the relation's choice: the signals, what the poll reports, what
`accept` returns, the vacant key the slab hands out, and a `World` for every handler.

A handler touches the registry in a few places only, and which of them it came by is read
off what it leaves: `process_request` and `dispatch_cgi` reach the registry through
`transition_to_sending` alone, which is also what makes a connection `Sending`.

Left out are the timer wheel, in which this server never creates a timer, the clean-up of
the file cache and the access log's reopening on SIGHUP.  A connection that cannot be
registered leaves its key to the next one, so nothing has changed.
-/
import Thttpd.Core.Poll
import Thttpd.Core.Server

namespace Thttpd

open Text

/-- What `run` has returned. -/
inductive LoopEnd where
  | stopped
  /-- `poll` failed. -/
  | failed
  deriving DecidableEq, Repr

structure Loop where
  server : Server
  registry : Registry
  lastThrottleUpdate : Nat
  ended : Option LoopEnd

/-- `THROTTLE_TIME`, in nanoseconds. -/
def throttlePeriod : Nat := 2 * nanosPerSec

/-! ### Listeners -/

/-- The registry once the first `n` of the listeners are registered. -/
def registerFirst (listeners : Nat) : Nat → Except Str Registry
  | 0 => .ok Registry.empty
  | n + 1 => do
      let r ← registerFirst listeners n
      match listenToken n with
      | none =>
          .error ("too many listen sockets (".toList ++ natStr listeners ++ "): maximum is ".toList ++
            natStr maxListeners)
      | some token =>
          match r.register token .readable with
          | none => .error "File exists (os error 17)".toList
          | some r => .ok r

def registerListeners (listeners : Nat) : Except Str Registry := registerFirst listeners listeners

/-- The first `n` listeners are deregistered. -/
def deregisterListeners : Nat → Registry → Registry
  | 0, r => r
  | n + 1, r =>
      let r := deregisterListeners n r
      r.orKeep (r.deregister n)

/-! ### What a handler does to the registry -/

/-- `close_connection`, if the connection has its stream. -/
def closeRegistry (k : Nat) (slot : ConnSlot) (r : Registry) : Registry :=
  if slot.stream.isSome then r.orKeep (r.deregister (connToken k)) else r

def readRegistry (k : Nat) (v : View) (out : Outcome) (r : Registry) : Registry :=
  match out.slot with
  | none => closeRegistry k v.slot r
  | some slot =>
      if slot.state = .sending ∧ slot.stream.isSome then
        r.orKeep (r.reregister (connToken k) .writable)
      else r

def sendRegistry (w : World) (k : Nat) (v : View) (out : Outcome) (r : Registry) : Registry :=
  match out.slot with
  | none => closeRegistry k v.slot r
  | some slot =>
      if slot.stream.isNone then r
      else match slot.state with
        | .lingering => r.orKeep (r.reregister (connToken k) .readable)
        | .pausing => r.orKeep (r.deregister (connToken k))
        | _ =>
            match w.write with
            | .wouldBlock => r
            | _ => r.orKeep (r.reregister (connToken k) .writable)

def pauseRegistry (w : World) (k : Nat) (v : View) (out : Outcome) (r : Registry) : Registry :=
  if !pauseOver w v.slot.throttle then r
  else if v.slot.stream.isNone then r
  else sendRegistry w k (wake v) out (r.orKeep (r.register (connToken k) .writable))

def eventRegistry (w : World) (k : Nat) (v : View) (out : Outcome) (r : Registry) : Registry :=
  match v.slot.state with
  | .reading => readRegistry k v out r
  | .sending => sendRegistry w k v out r
  | .lingering => closeRegistry k v.slot r
  | .pausing => pauseRegistry w k v out r
  | .free => r

/-! ### The phases of a turn -/

namespace Loop

/-- `handle_connection_event`. -/
def event (pf : Platform) (cfg : ServerConfig) (w : World) (k : Nat) (l : Loop) :
    Except Panic Loop :=
  match l.server.conns.at? k with
  | some slot => do
      let out ← handleConnectionEvent pf cfg w (l.server.view slot)
      pure { l with
        server := l.server.after k out
        registry := eventRegistry w k (l.server.view slot) out l.registry }
  | none => .ok l

/-- `resume_ready_paused_connections`, for one of the connections it found. -/
def resume (pf : Platform) (w : World) (k : Nat) (l : Loop) : Except Panic Loop :=
  match l.server.conns.at? k with
  | some slot =>
      if slot.state = .pausing then do
        let out ← handlePause pf w (l.server.view slot)
        pure { l with
          server := l.server.after k out
          registry := pauseRegistry w k (l.server.view slot) out l.registry }
      else .ok l
  | none => .ok l

/-- The connections `resume_ready_paused_connections` finds. -/
def readyKeys (now : Nat) (l : Loop) : List Nat :=
  (List.range l.server.conns.length).filter fun k =>
    (l.server.conns.at? k).any fun slot =>
      slot.state == .pausing &&
        (match slot.throttle.pauseUntil with
          | some deadline => decide (deadline ≤ now)
          | none => true)

/-- Whether the periodic update wakes a connection. -/
def wakes (w : World) (slot : ConnSlot) : Bool :=
  slot.state == .pausing && slot.throttle.isThrottled &&
    (match slot.throttle.pauseUntil with
      | some deadline => decide (deadline ≤ w.now)
      | none => false)

/-- The registry after the periodic update. -/
def tickRegistry (w : Nat → World) (conns : Slab ConnSlot) (r : Registry) : Registry :=
  (List.range conns.length).foldl (fun r k =>
    if (conns.at? k).any (fun slot => wakes (w k) slot && slot.stream.isSome) then
      r.orKeep (r.register (connToken k) .writable)
    else r) r

/-- The periodic update, when it is due. -/
def tick (pf : Platform) (now : Nat) (w : Nat → World) (l : Loop) : Except Panic Loop :=
  if throttlePeriod ≤ now - l.lastThrottleUpdate then do
    let server ← Thttpd.tick pf w l.server
    pure { l with
      server
      registry := tickRegistry w l.server.conns l.registry
      lastThrottleUpdate := now }
  else .ok l

/-- SIGUSR1. -/
def startDrain (listeners : Nat) (l : Loop) : Loop :=
  { l with
    server := { l.server with draining := true }
    registry := deregisterListeners listeners l.registry }

def finish (e : LoopEnd) (l : Loop) : Loop := { l with ended := some e }

/-- `conns.is_empty()`. -/
def idle (l : Loop) : Bool := decide (l.server.conns.len = 0)

/-- The end of a turn. -/
def finishIfDrained (l : Loop) : Loop := if l.server.draining && l.idle then l.finish .stopped else l

/-! ### The time to wait -/

def least : List Nat → Option Nat
  | [] => none
  | n :: ns =>
      match least ns with
      | none => some n
      | some m => some (min n m)

def nextPauseDeadline (now : Nat) (l : Loop) : Option Nat :=
  least ((l.server.conns.filterMap fun o => o.bind fun slot =>
    if slot.state = .pausing then slot.throttle.pauseUntil else none).map (· - now))

def nextThrottleDeadline (now : Nat) (l : Loop) : Option Nat :=
  if l.server.shared.throttles.isSome then some (throttlePeriod - (now - l.lastThrottleUpdate))
  else none

/-- How long the poll may wait; the clock is read twice. -/
def timeout (pauseNow updateNow : Nat) (l : Loop) : Nat :=
  (least ((l.nextPauseDeadline pauseNow).toList ++ (l.nextThrottleDeadline updateNow).toList)).getD
    (60 * nanosPerSec)

/-! ### A turn -/

/-- The signals are looked at, and the loop goes on. -/
inductive Signalled (listeners : Nat) : Loop → Loop → Prop
  | quiet {l : Loop} : Signalled listeners l l
  | drain {l : Loop} : l.server.draining = false → l.idle = false →
      Signalled listeners l (l.startDrain listeners)

/-- The loop of `handle_accept`, up to the error that ends it. -/
inductive Accepting : Loop → Loop → Prop
  | done {l : Loop} : Accepting l l
  | full {l l' : Loop} : maxConnections ≤ l.server.conns.len → Accepting l l' → Accepting l l'
  | unregistered {l l' : Loop} : l.server.conns.len < maxConnections → Accepting l l' →
      Accepting l l'
  | taken {l l' : Loop} {k : Nat} {r : Registry} (peer : PeerAddr) :
      l.server.conns.len < maxConnections → l.server.conns.Vacant k →
      l.registry.register (connToken k) .readable = some r →
      Accepting { l with server := l.server.accept k peer, registry := r } l' → Accepting l l'

/-- `handle_accept`. -/
inductive Accept (l : Loop) : Loop → Prop
  | draining : l.server.draining = true → Accept l l
  | accepting {l' : Loop} : l.server.draining = false → Accepting l l' → Accept l l'

/-- The first phase, over the events of the poll. -/
inductive Accepts (listeners : Nat) : List Token → Loop → Loop → Prop
  | nil {l : Loop} : Accepts listeners [] l l
  | listener {l l₁ l₂ : Loop} {t : Token} {ts : List Token} : isListenToken t = true →
      t < listeners → Accept l l₁ → Accepts listeners ts l₁ l₂ → Accepts listeners (t :: ts) l l₂
  | other {l l' : Loop} {t : Token} {ts : List Token} :
      ¬ (isListenToken t = true ∧ t < listeners) → Accepts listeners ts l l' →
      Accepts listeners (t :: ts) l l'

/-- The second phase, over the same events. -/
inductive Events (pf : Platform) (cfg : ServerConfig) : List Token → Loop → Loop → Prop
  | nil {l : Loop} : Events pf cfg [] l l
  | connection {l l₁ l₂ : Loop} {t : Token} {ts : List Token} {k : Nat} (w : World) :
      slabKeyFromToken t = some k → l.event pf cfg w k = .ok l₁ → Events pf cfg ts l₁ l₂ →
      Events pf cfg (t :: ts) l l₂
  | listener {l l' : Loop} {t : Token} {ts : List Token} : slabKeyFromToken t = none →
      Events pf cfg ts l l' → Events pf cfg (t :: ts) l l'

/-- The connections found are resumed; no clock shows less than when they were looked for. -/
inductive Resumes (pf : Platform) (now : Nat) : List Nat → Loop → Loop → Prop
  | nil {l : Loop} : Resumes pf now [] l l
  | cons {l l₁ l₂ : Loop} {k : Nat} {ks : List Nat} (w : World) : now ≤ w.now →
      l.resume pf w k = .ok l₁ → Resumes pf now ks l₁ l₂ → Resumes pf now (k :: ks) l l₂

/-- A turn in which the poll reported events, at a time `now` after it. -/
inductive Served (pf : Platform) (cfg : ServerConfig) (listeners now : Nat) : Loop → Loop → Prop
  | intro {l l₁ l₂ l₃ l₄ l₅ : Loop} {events : List Token} {tickNow : Nat} (w : Nat → World) :
      Signalled listeners l l₁ → (∀ t ∈ events, l₁.registry t ≠ none) →
      Accepts listeners events l₁ l₂ → Events pf cfg events l₂ l₃ →
      Resumes pf now (l₃.readyKeys now) l₃ l₄ → l₄.tick pf tickNow w = .ok l₅ →
      Served pf cfg listeners now l l₅.finishIfDrained

inductive Turn (pf : Platform) (cfg : ServerConfig) (listeners : Nat) : Loop → Loop → Prop
  | terminated {l : Loop} : l.ended = none → Turn pf cfg listeners l (l.finish .stopped)
  | drained {l : Loop} : l.ended = none → l.server.draining = false → l.idle = true →
      Turn pf cfg listeners l ((l.startDrain listeners).finish .stopped)
  | interrupted {l l' : Loop} : l.ended = none → Signalled listeners l l' →
      Turn pf cfg listeners l l'
  | pollFailed {l l' : Loop} : l.ended = none → Signalled listeners l l' →
      Turn pf cfg listeners l (l'.finish .failed)
  | served {l l' : Loop} (now : Nat) : l.ended = none → Served pf cfg listeners now l l' →
      Turn pf cfg listeners l l'

/-- `run` before its first turn, of a server with the rules of a throttle file, or without. -/
structure Init (listeners : Nat) (l : Loop) : Prop where
  server : ∃ throttles, (throttles = none ∨ ∃ content, throttles = ThrottleTable.load content) ∧
    l.server = Server.start throttles
  registered : registerListeners listeners = .ok l.registry
  running : l.ended = none

/-- The loops of a server with that many listeners. -/
def Reachable (pf : Platform) (cfg : ServerConfig) (listeners : Nat) (l : Loop) : Prop :=
  Lts.Reachable (Init listeners) (Turn pf cfg listeners) l

end Loop

end Thttpd
