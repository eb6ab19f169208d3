/-
Which connections requests are processed on.

Results about a request speak of a connection that is `Untouched`: as `accept` left
it, apart from the bytes it received.  This file shows that every connection is, as
long as it reads and no program waits for its body, in every state of every run.  So
`handle_read` only ever processes a request on such a connection.

The other states need no invariant: a connection that sends, pauses or lingers never
goes back to reading, which is shown of every handler on the way.
-/
import Thttpd.Proofs.Senders
import Thttpd.Proofs.Route

namespace Thttpd

open Text Fs

/-- A connection that still reads is untouched, unless its request waits for a body. -/
def Fresh (slot : ConnSlot) : Prop :=
  slot.state = .reading → slot.pendingCgiBody = false → ∀ shared, Untouched ⟨shared, slot⟩

/-- A connection that does not read. -/
theorem Fresh.of_state {slot : ConnSlot} (h : slot.state ≠ .reading) : Fresh slot := by
  intro hs
  exact absurd hs h

theorem Answered.fresh {pf : Platform} {w : World} {v v' : View} (h : Answered pf w v v') :
    Fresh v'.slot := by
  obtain ⟨u, -, h⟩ := h
  obtain ⟨⟨decision, throttles⟩, -, h⟩ := bind_eq_ok.mp h
  simp only [pure, Except.pure, Except.ok.injEq] at h
  subst h
  refine .of_state ?_
  show (sendingSlot pf w u.slot decision).state ≠ .reading
  rw [sendingSlot_state]
  simp

theorem Waits.fresh {v v' : View} (h : Waits v v') : Fresh v'.slot := by
  intro _ hp
  cases h.pending.symm.trans hp

/-- What is shared plays no part. -/
theorem Untouched.withShared {v : View} (h : Untouched v) (shared : Shared) :
    Untouched ⟨shared, v.slot⟩ := ⟨h.isCgi, h.checked, h.pending, h.received⟩

/-- Receiving bytes, and looking at them, leaves a connection untouched. -/
theorem Untouched.scan {v : View} (h : Untouched v) (bytes : Bytes) (checkedIdx : Nat)
    (state : ParseState) :
    Untouched (v.mapHttp fun http =>
      { http.receive bytes with checkedIdx := checkedIdx, parseState := state }) := by
  obtain ⟨buf, checkedIdx₀, state₀, hhttp⟩ := h.received
  refine ⟨h.isCgi, h.checked, h.pending, buf ++ bytes, checkedIdx, state, ?_⟩
  show { v.slot.http.receive bytes with checkedIdx := checkedIdx, parseState := state } = _
  rw [hhttp]
  rfl

/-! ### Handlers

What a handler leaves open is either the connection it found, with the bytes it
received, one whose request waits for a body, or one that is done with reading.
-/

/-- Every slot a handler leaves open is fresh. -/
def LeavesFresh (out : Outcome) : Prop := ∀ slot, out.slot = some slot → Fresh slot

theorem LeavesFresh.close (v : View) : LeavesFresh (closeConnection v) := by
  intro slot hs
  cases hs

theorem LeavesFresh.keep {v : View} (h : Fresh v.slot) : LeavesFresh v.keep := by
  intro slot hs
  cases hs
  exact h

theorem resumeCgi_fresh {pf : Platform} {cfg : ServerConfig} {w : World} {v : View}
    {out : Outcome} (hq : Quiet v) (hp : v.slot.pendingCgiBody = true)
    (h : resumeCgi pf cfg w v = .ok out) : LeavesFresh out := by
  have ha : Alike v (bodyArrived v) := ⟨rfl, rfl, rfl, rfl, rfl⟩
  unfold resumeCgi at h
  split at h
  · obtain ⟨v', hv', h⟩ := bind_eq_ok.mp h
    simp only [pure, Except.pure, Except.ok.injEq] at h
    subst h
    rcases dispatchCgi_cases (ha.quiet hq) hv' with h | h
    · exact .keep h.fresh
    · exact .keep h.fresh
  · simp only [pure, Except.pure, Except.ok.injEq] at h
    subst h
    refine .keep ?_
    intro _ hp'
    cases hp.symm.trans hp'

theorem refuseUnparsed_fresh {pf : Platform} {w : World} {v : View} {out : Outcome}
    (hq : Quiet v) (h : refuseUnparsed pf w v = .ok out) : LeavesFresh out := by
  obtain ⟨v', rfl, ha⟩ := refuseUnparsed_answered hq h
  exact .keep ha.fresh

/-- Bytes that came make a request, or leave the connection untouched. -/
theorem detectRequest_fresh {pf : Platform} {cfg : ServerConfig} {w : World} {v : View}
    {out : Outcome} {bytes : Bytes} (hq : Quiet v) (hu : Untouched v)
    (h : detectRequest pf cfg w (v.mapHttp fun http => http.receive bytes) = .ok out) :
    LeavesFresh out := by
  have hscan : ∀ checkedIdx state,
      Quiet (v.mapHttp fun http =>
        { http.receive bytes with checkedIdx := checkedIdx, parseState := state }) := by
    intro checkedIdx state
    exact (Alike.mapHttp v _).quiet hq
  unfold detectRequest at h
  simp only at h
  split at h
  · simp only [pure, Except.pure, Except.ok.injEq] at h
    subst h
    refine .keep ?_
    intro _ _ shared
    exact (hu.scan bytes _ _).withShared shared
  · exact refuseUnparsed_fresh (hscan _ _) h
  · obtain ⟨v', hv', h⟩ := bind_eq_ok.mp h
    simp only [pure, Except.pure, Except.ok.injEq] at h
    subst h
    rcases processRequest_cases (hscan _ _) hv' with h | h
    · exact .keep h.fresh
    · exact .keep h.fresh

theorem handleRead_fresh {pf : Platform} {cfg : ServerConfig} {w : World} {v : View}
    {out : Outcome} (hq : Quiet v) (hs : v.slot.state = .reading) (hf : Fresh v.slot)
    (h : handleRead pf cfg w v = .ok out) : LeavesFresh out := by
  unfold handleRead at h
  simp only at h
  split at h
  · exact refuseUnparsed_fresh hq h
  split at h
  · simp only [pure, Except.pure, Except.ok.injEq] at h
    subst h
    exact .close v
  split at h
  · simp only [pure, Except.pure, Except.ok.injEq] at h
    subst h
    exact .keep hf
  · simp only [pure, Except.pure, Except.ok.injEq] at h
    subst h
    exact .close v
  split at h
  · simp only [pure, Except.pure, Except.ok.injEq] at h
    subst h
    exact .close v
  split at h
  · rename_i hp
    exact resumeCgi_fresh ((Alike.mapHttp v _).quiet hq) hp h
  · rename_i hp
    have hp' : v.slot.pendingCgiBody = false := Bool.eq_false_iff.mpr hp
    exact detectRequest_fresh hq (hf hs hp' v.shared) h

/-- A connection that sends does not go back to reading. -/
theorem handleSend_fresh {pf : Platform} {w : World} {v : View} {out : Outcome}
    (hs : v.slot.state = .sending) (h : handleSend pf w v = .ok out) : LeavesFresh out := by
  have hsending : v.slot.state ≠ .reading := by
    rw [hs]
    simp
  cases handleSend_ends h with
  | finished _ => exact .keep (.of_state (by simp [transitionToLingering]))
  | paused _ _ => exact .keep (.of_state (by simp [pauseSending]))
  | closed => exact .close v
  | blocked _ _ => exact .keep (.of_state hsending)
  | wrote =>
      intro slot hslot
      refine .of_state ?_
      rcases afterWrite_state hslot with hstate | hstate
      · rw [hstate]
        simp
      · rw [hstate]
        exact hsending

theorem handlePause_fresh {pf : Platform} {w : World} {v : View} {out : Outcome}
    (hf : Fresh v.slot) (h : handlePause pf w v = .ok out) : LeavesFresh out := by
  cases handlePause_ends h with
  | waits => exact .keep hf
  | closed => exact .close _
  | woke h => exact handleSend_fresh rfl h

/-- **Every event leaves its connection fresh.** -/
theorem handleConnectionEvent_fresh {pf : Platform} {cfg : ServerConfig} {w : World}
    {v : View} {out : Outcome} (ho : Orderly v.shared.throttles v.slot)
    (hfit : SendersFit v.shared.throttles) (hf : Fresh v.slot)
    (h : handleConnectionEvent pf cfg w v = .ok out) : LeavesFresh out := by
  cases handleConnectionEvent_ends h with
  | reading hs h => exact handleRead_fresh ⟨ho.reading hs, hfit⟩ hs hf h
  | sending hs h => exact handleSend_fresh hs h
  | pausing _ h => exact handlePause_fresh hf h
  | lingering _ => exact .close v
  | free _ => exact .keep hf

/-! ### The server

New connections are untouched by construction, and ticks do not look at what a
connection has read.
-/

theorem fresh_accepted (peer : PeerAddr) : Fresh (ConnSlot.accepted peer) := by
  intro _ _ shared
  exact ⟨rfl, rfl, rfl, _, _, _, rfl⟩

theorem tickSlot_fresh {shared : Shared} {w : World} {slot : ConnSlot} (h : Fresh slot) :
    Fresh (tickSlot shared w slot) := by
  unfold tickSlot
  split
  · split
    · exact .of_state (by simp [wake])
    · exact h
  · exact h

/--
**In every state of every run, a connection that reads is untouched**, unless its
request waits for a body.

Results about requests are stated for an untouched connection, and this is why that
is no restriction.
-/
theorem Server.Reachable.untouched {pf : Platform} {cfg : ServerConfig} {s : Server}
    (h : s.Reachable pf cfg) {k : Nat} {slot : ConnSlot} (hk : s.conns.at? k = some slot)
    (hs : slot.state = .reading) (hp : slot.pendingCgiBody = false) : Untouched (s.view slot) := by
  have hfresh : Fresh slot :=
    h.slots fresh_accepted
      (fun _ _ _ ho hfit hf hout => handleConnectionEvent_fresh ho hfit hf hout)
      (fun _ _ _ hf => tickSlot_fresh hf) slot (Slab.mem_of_at? hk)
  exact hfresh hs hp s.shared

end Thttpd
