/-
The whole server: `Server` in `rust/crates/thttpd-core/src/server.rs` and the loop
`run` in `eventloop.rs`.

`Step` is one thing the loop does: accept a connection, handle an event, resume a
paused connection, update the throttle averages, or start draining.  The steps may
come in any order, which is more than the phases of the loop allow, so what holds
over every run of `Step` holds over every run of the loop.  A handler that aborts
makes no step.
-/
import Thttpd.Core.EventLoop
import Thttpd.Core.ThrottleFile
import Thttpd.Lib.Slab
import Thttpd.Lib.Lts

namespace Thttpd

open Text Fs

structure Server where
  shared : Shared
  conns : Slab ConnSlot
  draining : Bool

/-- What holds of a server that has just been started. -/
structure Server.Init (s : Server) : Prop where
  noConns : s.conns = []
  noCgis : s.shared.activeCgis = 0
  noCalls : s.shared.cgiCalls = []
  newTable : ∀ table, s.shared.throttles = some table →
    ∀ e ∈ table, ∃ pattern maxLimit minLimit, e = ThrottleEntry.new pattern maxLimit minLimit

/-- A connection the periodic update wakes. -/
def tickSlot (shared : Shared) (w : World) (slot : ConnSlot) : ConnSlot :=
  match slot.throttle.pauseUntil with
  | some deadline =>
      if slot.state = .pausing ∧ slot.throttle.isThrottled ∧ deadline ≤ w.now then
        (wake ⟨shared, slot⟩).slot
      else slot
  | none => slot

/-- The averages of the table, if there is one. -/
def tickTable (pf : Platform) : Option ThrottleTable → Except Panic (Option ThrottleTable)
  | some table => do
      let table' ← table.updateAverages pf
      pure (some table')
  | none => .ok none

/-- The periodic throttle update; the clock is read anew for each connection. -/
def tick (pf : Platform) (w : Nat → World) (s : Server) : Except Panic Server := do
  let throttles ← tickTable pf s.shared.throttles
  let shared := { s.shared with throttles }
  pure { s with shared, conns := s.conns.mapEntries fun k => tickSlot shared (w k) }

/-- What a handler of the connection at `k` leaves of the server. -/
def Server.after (s : Server) (k : Nat) (out : Outcome) : Server :=
  { s with shared := out.shared, conns := s.conns.update k out.slot }

/-- The server as the handler of one connection sees it. -/
def Server.view (s : Server) (slot : ConnSlot) : View := ⟨s.shared, slot⟩

/-- A new connection at `k`. -/
def Server.accept (s : Server) (k : Nat) (peer : PeerAddr) : Server :=
  { s with
    shared := { s.shared with stats :=
      { s.shared.stats with connections := s.shared.stats.connections + 1 } }
    conns := s.conns.put k (ConnSlot.accepted peer) }

/-- An event on the connection at `k`; nothing happens if there is none. -/
def Server.event (pf : Platform) (cfg : ServerConfig) (w : World) (k : Nat) (s : Server) :
    Except Panic Server :=
  match s.conns.at? k with
  | some slot => do
      let out ← handleConnectionEvent pf cfg w (s.view slot)
      pure (s.after k out)
  | none => .ok s

/-- Resume the connection at `k` if it is paused and its time has come. -/
def Server.resume (pf : Platform) (w : World) (k : Nat) (s : Server) : Except Panic Server :=
  match s.conns.at? k with
  | some slot =>
      if slot.state = .pausing then do
        let out ← handlePause pf w (s.view slot)
        pure (s.after k out)
      else .ok s
  | none => .ok s

inductive Step (pf : Platform) (cfg : ServerConfig) : Server → Server → Prop
  | accept {s : Server} {k : Nat} (peer : PeerAddr) :
      s.draining = false → s.conns.len < maxConnections → s.conns.Vacant k →
      Step pf cfg s (s.accept k peer)
  | event {s s' : Server} (w : World) (k : Nat) :
      s.event pf cfg w k = .ok s' → Step pf cfg s s'
  | resume {s s' : Server} (w : World) (k : Nat) :
      s.resume pf w k = .ok s' → Step pf cfg s s'
  | tick {s s' : Server} (w : Nat → World) :
      tick pf w s = .ok s' → Step pf cfg s s'
  | drain {s : Server} : Step pf cfg s { s with draining := true }

/-- An event changes its connection by the handler, or nothing. -/
theorem Server.event_cases {pf : Platform} {cfg : ServerConfig} {w : World} {k : Nat}
    {s s' : Server} (h : s.event pf cfg w k = .ok s') :
    s' = s ∨ ∃ slot out, s.conns.at? k = some slot ∧
      handleConnectionEvent pf cfg w (s.view slot) = .ok out ∧ s' = s.after k out := by
  unfold Server.event at h
  split at h
  · rename_i slot hk
    obtain ⟨out, hout, h⟩ := bind_eq_ok.mp h
    cases h
    exact .inr ⟨slot, out, hk, hout, rfl⟩
  · cases h
    exact .inl rfl

/-- A paused connection is resumed by the handler of its events. -/
theorem Server.resume_cases {pf : Platform} (cfg : ServerConfig) {w : World} {k : Nat}
    {s s' : Server} (h : s.resume pf w k = .ok s') :
    s' = s ∨ ∃ slot out, s.conns.at? k = some slot ∧
      handleConnectionEvent pf cfg w (s.view slot) = .ok out ∧ s' = s.after k out := by
  unfold Server.resume at h
  split at h
  · rename_i slot hk
    split at h
    · rename_i hs
      obtain ⟨out, hout, h⟩ := bind_eq_ok.mp h
      cases h
      refine .inr ⟨slot, out, hk, ?_, rfl⟩
      have hs' : (s.view slot).slot.state = .pausing := hs
      simp only [handleConnectionEvent, hs']
      exact hout
    · cases h
      exact .inl rfl
  · cases h
    exact .inl rfl

/--
**One step only ever changes one connection, and by one of its handlers**, apart
from the periodic update.
-/
theorem Step.cases {pf : Platform} {cfg : ServerConfig} {s s' : Server} (h : Step pf cfg s s') :
    (∃ k peer, s.conns.Vacant k ∧ s' = s.accept k peer) ∨
    (∃ w k slot out, s.conns.at? k = some slot ∧
      handleConnectionEvent pf cfg w (s.view slot) = .ok out ∧ s' = s.after k out) ∨
    (∃ w, Thttpd.tick pf w s = .ok s') ∨
    (s'.shared = s.shared ∧ s'.conns = s.conns) := by
  cases h with
  | accept peer _ _ hvac => exact .inl ⟨_, peer, hvac, rfl⟩
  | event w k h =>
      rcases Server.event_cases h with rfl | ⟨slot, out, hk, hout, rfl⟩
      · exact .inr (.inr (.inr ⟨rfl, rfl⟩))
      · exact .inr (.inl ⟨w, k, slot, out, hk, hout, rfl⟩)
  | resume w k h =>
      rcases Server.resume_cases cfg h with rfl | ⟨slot, out, hk, hout, rfl⟩
      · exact .inr (.inr (.inr ⟨rfl, rfl⟩))
      · exact .inr (.inl ⟨w, k, slot, out, hk, hout, rfl⟩)
  | tick w h => exact .inr (.inr (.inl ⟨w, h⟩))
  | drain => exact .inr (.inr (.inr ⟨rfl, rfl⟩))

/-- The states of a server that was started with `cfg`. -/
def Server.Reachable (pf : Platform) (cfg : ServerConfig) (s : Server) : Prop :=
  Lts.Reachable Server.Init (Step pf cfg) s

/-- A server that has just been started. -/
def Server.start (throttles : Option ThrottleTable) : Server :=
  ⟨Shared.start throttles, [], false⟩

/-- The states of a server that was started with this table. -/
def Server.RunsFrom (pf : Platform) (cfg : ServerConfig) (throttles : Option ThrottleTable)
    (s : Server) : Prop := Lts.Reachable (· = Server.start throttles) (Step pf cfg) s

/-- The states of a server that was started with the rules of a throttle file, or without. -/
def Server.Launched (pf : Platform) (cfg : ServerConfig) (s : Server) : Prop :=
  ∃ throttles, (throttles = none ∨ ∃ content, throttles = ThrottleTable.load content) ∧
    s.RunsFrom pf cfg throttles

theorem Server.RunsFrom.reachable {pf : Platform} {cfg : ServerConfig}
    {throttles : Option ThrottleTable} {s : Server} (h : s.RunsFrom pf cfg throttles)
    (hnew : ∀ table, throttles = some table → ∀ e ∈ table, ∃ pattern maxLimit minLimit,
      e = ThrottleEntry.new pattern maxLimit minLimit) : s.Reachable pf cfg := by
  obtain ⟨s₀, rfl, hrun⟩ := h
  exact ⟨_, ⟨rfl, rfl, rfl, hnew⟩, hrun⟩

theorem Server.Launched.reachable {pf : Platform} {cfg : ServerConfig} {s : Server}
    (h : s.Launched pf cfg) : s.Reachable pf cfg := by
  obtain ⟨throttles, hload, hrun⟩ := h
  refine hrun.reachable fun table htable => ?_
  rcases hload with rfl | ⟨content, rfl⟩
  · cases htable
  · exact ThrottleTable.load_new htable

/-- Its first connection, at the first key. -/
def Server.first (throttles : Option ThrottleTable) : Server :=
  (Server.start throttles).accept 0 localPeer

theorem Server.first_reachable (pf : Platform) (cfg : ServerConfig)
    {throttles : Option ThrottleTable}
    (h : ∀ table, throttles = some table → ∀ e ∈ table, ∃ pattern maxLimit minLimit,
      e = ThrottleEntry.new pattern maxLimit minLimit) :
    (Server.first throttles).Reachable pf cfg := by
  have hinit : (Server.start throttles).Init := ⟨rfl, rfl, rfl, h⟩
  have hroom : Slab.len ([] : Slab ConnSlot) < maxConnections := by decide
  exact (Lts.Reachable.start hinit).tail (.accept localPeer rfl hroom ⟨Nat.le_refl 0, rfl⟩)

end Thttpd
