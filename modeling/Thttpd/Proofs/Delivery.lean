/-
Responses arrive exactly, over every run of the server.

While a connection sends or pauses, what its socket has accepted is the response up
to `bytes_sent`.  Only a write moves `bytes_sent`, and it moves it by what the socket
accepted of the part that comes next; pauses, wake-ups and refusals to write leave
both alone.

The socket is a stream: what it accepted is a list of bytes that only grows.  So the
account of a response can be kept against that list, and a partial write needs no
argument of its own, since the invariant is about the sum of what was written.
-/
import Thttpd.Proofs.Senders

namespace Thttpd

open Text Fs

/-! ### The invariant of a connection

A connection has a response from the moment it was answered.  In the two states that
send, the account is open; a lingering connection has closed it; and one that reads
has nothing to account for.
-/

/--
A response on its way: its recorded length is its length, no more has been sent than
that, and what the socket accepted since it was made is the response up to there.
-/
structure InFlight (slot : ConnSlot) : Prop where
  length : slot.http.responseLen = slot.http.response.length
  lower : 0 ≤ slot.http.bytesSent
  upper : slot.http.bytesSent ≤ slot.http.responseLen
  written : ∃ stream, slot.stream = some stream ∧
    stream.written = slot.http.response.take slot.http.bytesSent.toNat

/-- What holds of a connection in each of its states. -/
structure Delivery (slot : ConnSlot) : Prop where
  reading : slot.state = .reading → ∃ stream, slot.stream = some stream ∧ stream.written = []
  inFlight : slot.state = .sending ∨ slot.state = .pausing → InFlight slot
  lingering : slot.state = .lingering →
    InFlight slot ∧ slot.http.bytesSent = slot.http.responseLen

/-- The connection a handler leaves, if it leaves one, is in order. -/
def Delivers (out : Outcome) : Prop := ∀ slot, out.slot = some slot → Delivery slot

theorem Delivery.ofSending {slot : ConnSlot} (hs : slot.state = .sending) (h : InFlight slot) :
    Delivery slot :=
  ⟨fun hr => (by rw [hs] at hr; cases hr), fun _ => h, fun hl => (by rw [hs] at hl; cases hl)⟩

theorem Delivery.ofPausing {slot : ConnSlot} (hs : slot.state = .pausing) (h : InFlight slot) :
    Delivery slot :=
  ⟨fun hr => (by rw [hs] at hr; cases hr), fun _ => h, fun hl => (by rw [hs] at hl; cases hl)⟩

theorem Delivery.ofLingering {slot : ConnSlot} (hs : slot.state = .lingering) (h : InFlight slot)
    (hall : slot.http.bytesSent = slot.http.responseLen) : Delivery slot :=
  ⟨fun hr => (by rw [hs] at hr; cases hr),
    fun hf => (by rw [hs] at hf; rcases hf with hf | hf <;> cases hf), fun _ => ⟨h, hall⟩⟩

theorem Delivery.ofReading {slot : ConnSlot} {stream : Stream} (hs : slot.state = .reading)
    (hst : slot.stream = some stream) (hw : stream.written = []) : Delivery slot :=
  ⟨fun _ => ⟨stream, hst, hw⟩, fun hf => (by rw [hs] at hf; rcases hf with hf | hf <;> cases hf),
    fun hl => (by rw [hs] at hl; cases hl)⟩

theorem delivers_close (v : View) : Delivers (closeConnection v) := fun _ hs => by cases hs

theorem delivers_keep {v : View} (h : Delivery v.slot) : Delivers v.keep := by
  intro slot hs
  cases hs
  exact h

/-- A change of the connection that the invariant does not see. -/
theorem InFlight.congr {slot slot' : ConnSlot} (h : InFlight slot)
    (hresp : slot'.http.response = slot.http.response)
    (hlen : slot'.http.responseLen = slot.http.responseLen)
    (hsent : slot'.http.bytesSent = slot.http.bytesSent) (hstream : slot'.stream = slot.stream) :
    InFlight slot' := by
  refine ⟨?_, ?_, ?_, ?_⟩
  · rw [hlen, hresp]; exact h.length
  · rw [hsent]; exact h.lower
  · rw [hsent, hlen]; exact h.upper
  · rw [hstream, hresp, hsent]; exact h.written

/-! ### Starting to send

The response is made and its length recorded at one place, and nothing has been sent
then.
-/

theorem sendingSlot_stream (pf : Platform) (w : World) (slot : ConnSlot) (d : ThrottleDecision) :
    (sendingSlot pf w slot d).stream = slot.stream := by
  cases d <;> rfl

theorem sendingSlot_bytesSent (pf : Platform) (w : World) (slot : ConnSlot)
    (d : ThrottleDecision) : (sendingSlot pf w slot d).http.bytesSent = 0 := by
  cases d <;> rfl

theorem sendingSlot_length (pf : Platform) (w : World) {slot : ConnSlot} (d : ThrottleDecision)
    (h : slot.http.responseLen = slot.http.response.length) :
    (sendingSlot pf w slot d).http.responseLen = (sendingSlot pf w slot d).http.response.length := by
  obtain ⟨len, hlen⟩ := fillHeaderLen_eq slot
  have hfill : (fillHeaderLen slot).responseLen = (fillHeaderLen slot).response.length := by
    rw [hlen]; exact h
  cases d with
  | unlimited => exact hfill
  | allow tnums maxLimit minLimit => exact hfill
  | reject => rfl

/-- A connection that has written nothing yet starts to send. -/
theorem transitionToSending_delivery {pf : Platform} {w : World} {u v' : View} {stream : Stream}
    (hlen : u.slot.http.responseLen = u.slot.http.response.length)
    (hst : u.slot.stream = some stream) (hw : stream.written = [])
    (h : transitionToSending pf w u = .ok v') : Delivery v'.slot := by
  obtain ⟨⟨decision, throttles⟩, -, h⟩ := bind_eq_ok.mp h
  cases h
  refine .ofSending (sendingSlot_state pf w u.slot decision)
    ⟨sendingSlot_length pf w decision hlen, ?_, ?_, stream, ?_, ?_⟩
  · exact Int.le_of_eq (sendingSlot_bytesSent pf w u.slot decision).symm
  · show (sendingSlot pf w u.slot decision).http.bytesSent ≤ _
    rw [sendingSlot_bytesSent]
    exact Int.natCast_nonneg _
  · exact (sendingSlot_stream pf w u.slot decision).trans hst
  · show stream.written
      = List.take (sendingSlot pf w u.slot decision).http.bytesSent.toNat _
    rw [sendingSlot_bytesSent, hw]
    rfl

theorem answered_delivery {pf : Platform} {w : World} {v v' : View} {stream : Stream}
    (hst : v.slot.stream = some stream) (hw : stream.written = []) (h : Answered pf w v v') :
    Delivery v'.slot := by
  obtain ⟨u, hp, h⟩ := h
  exact transitionToSending_delivery hp.length (hp.stream.trans hst) hw h

theorem handleRead_delivers {pf : Platform} {cfg : ServerConfig} {w : World} {v : View}
    {out : Outcome} (hq : Quiet v) (hs : v.slot.state = .reading) (hd : Delivery v.slot)
    (h : handleRead pf cfg w v = .ok out) : Delivers out := by
  obtain ⟨stream, hst, hw⟩ := hd.reading hs
  rcases handleRead_cases hq h with rfl | ⟨v', rfl, ha⟩ | ⟨v', rfl, ha⟩
  · exact delivers_close v
  · exact delivers_keep (.ofReading (ha.state.trans hs) (ha.stream.trans hst) hw)
  · exact delivers_keep (answered_delivery hst hw ha)

/-! ### Sending

A write takes a part of what is left, and the socket accepts a prefix of that part.
-/

theorem chargeBody_http (w : World) (v : View) (sentBefore : Int) :
    (chargeBody w v sentBefore).slot.http = v.slot.http ∧
      (chargeBody w v sentBefore).slot.stream = v.slot.stream := by
  unfold chargeBody
  simp only
  split <;> exact ⟨rfl, rfl⟩

/--
**The socket accepting the next part of the response keeps the account exact.**

What the socket had is the response up to the count, and what it accepted begins
where that ends.
-/
theorem countWritten_inFlight {v : View} {stream : Stream} {chunk : Bytes}
    (h : InFlight v.slot) (hst : v.slot.stream = some stream)
    (hchunk : chunk <+: v.slot.http.response.drop v.slot.http.bytesSent.toNat) :
    InFlight (countWritten v stream chunk).slot := by
  have hlower := h.lower
  have hupper := h.upper
  have hlen : chunk.length ≤ v.slot.http.response.length - v.slot.http.bytesSent.toNat := by
    simpa using hchunk.length_le
  have hlength := h.length
  refine ⟨h.length, ?_, ?_, ⟨stream.written ++ chunk⟩, rfl, ?_⟩
  · show 0 ≤ v.slot.http.bytesSent + chunk.length
    omega
  · show v.slot.http.bytesSent + chunk.length ≤ v.slot.http.responseLen
    omega
  · obtain ⟨stream', hst', hw⟩ := h.written
    cases hst.symm.trans hst'
    show stream.written ++ chunk
      = v.slot.http.response.take (v.slot.http.bytesSent + chunk.length).toNat
    have hsum : (v.slot.http.bytesSent + chunk.length).toNat
        = v.slot.http.bytesSent.toNat + chunk.length := by omega
    rw [hsum, List.take_add, hw, ← List.prefix_iff_eq_take.mp hchunk]

theorem afterWrite_delivers {w : World} {v : View} {stream : Stream} {chunk : Bytes}
    (h : InFlight v.slot) (hs : v.slot.state = .sending) (hst : v.slot.stream = some stream)
    (hchunk : chunk <+: v.slot.http.response.drop v.slot.http.bytesSent.toNat) :
    Delivers (afterWrite w v stream chunk) := by
  obtain ⟨hhttp, hstream⟩ := chargeBody_http w (countWritten v stream chunk) v.slot.http.bytesSent
  have hin : InFlight (chargeBody w (countWritten v stream chunk) v.slot.http.bytesSent).slot :=
    (countWritten_inFlight h hst hchunk).congr (by rw [hhttp]) (by rw [hhttp]) (by rw [hhttp])
      hstream
  unfold afterWrite
  simp only
  split
  · rename_i hall
    refine delivers_keep (.ofLingering rfl (hin.congr rfl rfl rfl rfl) ?_)
    have hle := hin.upper
    have hge : _ ≤ _ := of_decide_eq_true hall
    exact Int.le_antisymm hle hge
  · exact delivers_keep (.ofSending ((chargeBody_state w _ _).trans hs) hin)

/-- What is left to send. -/
theorem InFlight.remaining {slot : ConnSlot} {remaining : Bytes} (h : InFlight slot)
    (hrem : sliceFrom slot.http.response (asUsize slot.http.bytesSent) = .ok remaining) :
    remaining = slot.http.response.drop slot.http.bytesSent.toNat := by
  unfold sliceFrom at hrem
  rw [asUsize_of_nonneg h.lower] at hrem
  split at hrem
  · cases hrem
  · cases hrem
    rfl

theorem handleSend_delivers {pf : Platform} {w : World} {v : View} {out : Outcome}
    (hs : v.slot.state = .sending) (hin : InFlight v.slot)
    (h : handleSend pf w v = .ok out) : Delivers out := by
  cases handleSend_ends h with
  | finished hall =>
      refine delivers_keep (.ofLingering rfl (hin.congr rfl rfl rfl rfl) ?_)
      have hge : _ ≤ _ := of_decide_eq_true hall
      exact Int.le_antisymm hin.upper hge
  | paused _ _ => exact delivers_keep (.ofPausing rfl (hin.congr rfl rfl rfl rfl))
  | closed => exact delivers_close v
  | blocked _ _ => exact delivers_keep (.ofSending hs hin)
  | @wrote _ _ _ remaining _ _ hst hrem _ =>
      refine afterWrite_delivers hin hs hst ?_
      rw [← hin.remaining hrem]
      exact (List.take_prefix _ _).trans (List.take_prefix _ _)

theorem wake_inFlight {v : View} (h : InFlight v.slot) : InFlight (wake v).slot :=
  h.congr rfl rfl rfl rfl

theorem handlePause_delivers {pf : Platform} {w : World} {v : View} {out : Outcome}
    (hs : v.slot.state = .pausing) (hd : Delivery v.slot) (h : handlePause pf w v = .ok out) :
    Delivers out := by
  cases handlePause_ends h with
  | waits => exact delivers_keep hd
  | closed => exact delivers_close _
  | woke h => exact handleSend_delivers rfl (wake_inFlight (hd.inFlight (.inr hs))) h

theorem handleConnectionEvent_delivers {pf : Platform} {cfg : ServerConfig} {w : World}
    {v : View} {out : Outcome} (ho : Orderly v.shared.throttles v.slot)
    (hfit : SendersFit v.shared.throttles) (hd : Delivery v.slot)
    (h : handleConnectionEvent pf cfg w v = .ok out) : Delivers out := by
  cases handleConnectionEvent_ends h with
  | reading hs h => exact handleRead_delivers ⟨ho.reading hs, hfit⟩ hs hd h
  | sending hs h => exact handleSend_delivers hs (hd.inFlight (.inl hs)) h
  | pausing hs h => exact handlePause_delivers hs hd h
  | lingering _ => exact delivers_close v
  | free _ => exact delivers_keep hd

/-! ### The server

Ticks wake paused connections, and that does not move the account.
-/

theorem tickSlot_delivery {shared : Shared} {w : World} {slot : ConnSlot} (h : Delivery slot) :
    Delivery (tickSlot shared w slot) := by
  unfold tickSlot
  split
  · split
    · rename_i hc
      exact .ofSending rfl (wake_inFlight (v := ⟨shared, slot⟩) (h.inFlight (.inr hc.1)))
    · exact h
  · exact h

/-- Every connection of a server is in order. -/
def Delivering (s : Server) : Prop := ∀ slot, some slot ∈ s.conns → Delivery slot

theorem Server.Reachable.delivering {pf : Platform} {cfg : ServerConfig} {s : Server}
    (h : s.Reachable pf cfg) : Delivering s :=
  h.slots (fun _ => .ofReading rfl rfl rfl)
    (fun _ _ _ ho hfit hd hout => handleConnectionEvent_delivers ho hfit hd hout)
    (fun _ _ _ hd => tickSlot_delivery hd)

/--
**In every state of every run**, a connection that sends or pauses has a response of
the recorded length, has sent no more than it, and its socket has accepted exactly
the response up to there, all of it since the request was answered; and a connection
that lingers has sent everything.

The invariant is `Delivery`, proved of every handler on its own; nothing is assumed
of the socket but that it accepts a part of what is written to it.
-/
theorem response_delivery_exact {pf : Platform} {cfg : ServerConfig} {s : Server}
    (h : s.Reachable pf cfg) {slot : ConnSlot} (hslot : some slot ∈ s.conns) :
    (slot.state = .reading → ∃ stream, slot.stream = some stream ∧ stream.written = []) ∧
    (slot.state = .sending ∨ slot.state = .pausing →
      slot.http.responseLen = slot.http.response.length ∧
      0 ≤ slot.http.bytesSent ∧ slot.http.bytesSent ≤ slot.http.responseLen ∧
      ∃ stream, slot.stream = some stream ∧
        stream.written = slot.http.response.take slot.http.bytesSent.toNat) ∧
    (slot.state = .lingering → slot.http.bytesSent = slot.http.responseLen) := by
  have hd := h.delivering slot hslot
  refine ⟨hd.reading, ?_, fun hs => (hd.lingering hs).2⟩
  intro hs
  have hin := hd.inFlight hs
  exact ⟨hin.length, hin.lower, hin.upper, hin.written⟩

/-! ### A response half sent

A socket that takes five bytes of a response and no more.
-/

/-- The same server after its socket took five bytes. -/
def halfSentServer : Server :=
  resultOf (Server.start none) (sendingServer.event .epoch wwwConfig
    { World.still (wwwTree []) with write := .accepted 5 } 0)

theorem halfSentServer_reachable : halfSentServer.Reachable .epoch wwwConfig :=
  sendingServer_reachable.tail (.event _ 0 (eq_ok_of_panicOf _ (by decide +kernel)))

/-- It is still sending, and the socket has the first five bytes. -/
theorem response_delivery_exact_sample :
    ∃ slot stream, some slot ∈ halfSentServer.conns ∧ slot.state = .sending ∧
      slot.stream = some stream ∧ stream.written = slot.http.response.take 5 := by
  have hslot : (halfSentServer.conns.at? 0).isSome := by decide +kernel
  obtain ⟨slot, hs⟩ := Option.isSome_iff_exists.mp hslot
  have hstate : (halfSentServer.conns.at? 0).map (fun s => (s.state, s.http.bytesSent))
      = some (.sending, 5) := by decide +kernel
  rw [hs] at hstate
  simp only [Option.map_some, Option.some.injEq, Prod.mk.injEq] at hstate
  obtain ⟨-, hsend, -⟩ := response_delivery_exact halfSentServer_reachable (Slab.mem_of_at? hs)
  obtain ⟨-, -, -, stream, hst, hw⟩ := hsend (.inl hstate.1)
  refine ⟨slot, stream, Slab.mem_of_at? hs, hstate.1, hst, ?_⟩
  rw [hw, hstate.2]
  rfl

end Thttpd
