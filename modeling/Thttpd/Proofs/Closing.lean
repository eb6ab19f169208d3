/-
A connection from its answer to its end.

`ConnStep` is what a step of the server can do to a connection it keeps, with the rest
of the server and the world left open.  Once a request is answered, such steps move
the count of bytes sent and let go of the mapping of the file, and nothing else of
the HTTP part changes, so what is logged at the end is decided by the answer and by
that count.
-/
import Thttpd.Proofs.Delivery

namespace Thttpd

open Text Fs

/-! ### The steps of one connection

Seen from one connection, a step of the server is an event of its own, a tick, or
nothing.  What the event finds of the rest of the server is arbitrary, since other
connections had their turns in between.
-/

/-- One step of a connection that stays open. -/
inductive ConnStep (pf : Platform) (cfg : ServerConfig) : ConnSlot → ConnSlot → Prop
  | event {slot slot' : ConnSlot} {out : Outcome} (shared : Shared) (w : World) :
      handleConnectionEvent pf cfg w ⟨shared, slot⟩ = .ok out → out.slot = some slot' →
      ConnStep pf cfg slot slot'
  | tick (shared : Shared) (w : World) (slot : ConnSlot) :
      ConnStep pf cfg slot (tickSlot shared w slot)

/-- Any number of steps. -/
def ConnRun (pf : Platform) (cfg : ServerConfig) : ConnSlot → ConnSlot → Prop :=
  Relation.ReflTransGen (ConnStep pf cfg)

/--
**A step of the server ends a connection, leaves it alone, or makes one step of
it.**

What a step may do to the other connections is left out: the step of one connection
takes the rest of the server and the world as they come, so a run of the server is a
run of each of its connections.
-/
theorem Step.conn {pf : Platform} {cfg : ServerConfig} {s s' : Server} {k : Nat} {slot : ConnSlot}
    (h : Step pf cfg s s') (hk : s.conns.at? k = some slot) :
    s'.conns.at? k = none ∨ ∃ slot', s'.conns.at? k = some slot' ∧
      (slot' = slot ∨ ConnStep pf cfg slot slot') := by
  rcases h.cases with ⟨j, peer, hvac, rfl⟩ | ⟨w, j, slot₀, out, hj, hout, rfl⟩ | ⟨w, ht⟩ |
    ⟨-, hconns⟩
  · have hne : k ≠ j := by
      rintro rfl
      cases hvac.2.symm.trans hk
    exact .inr ⟨slot, (Slab.at?_put_ne hvac hne _).trans hk, .inl rfl⟩
  · by_cases hjk : k = j
    · subst hjk
      cases hk.symm.trans hj
      have hat : (s.after k out).conns.at? k = out.slot := Slab.at?_update hj out.slot
      rw [hat]
      cases hslot : out.slot with
      | none => exact .inl rfl
      | some slot' => exact .inr ⟨slot', rfl, .inr (.event s.shared w hout hslot)⟩
    · exact .inr ⟨slot, (Slab.at?_update_ne hjk out.slot).trans hk, .inl rfl⟩
  · obtain ⟨throttles, -, ht⟩ := bind_eq_ok.mp ht
    cases ht
    refine .inr ⟨tickSlot { s.shared with throttles := throttles } (w k) slot, ?_, .inr (.tick _ _ _)⟩
    refine (Slab.at?_mapEntries _ _ k).trans ?_
    rw [hk]
    rfl
  · rw [hconns]
    exact .inr ⟨slot, hk, .inl rfl⟩

/-! ### What a step keeps

The response and what is logged of it are written once.  Afterwards only the count of
bytes goes up, and the mapping is let go when all is sent.
-/

/-- The same answer, sent to another point. -/
def SameAnswer (slot slot' : ConnSlot) : Prop :=
  ∃ sent file, slot'.http = { slot.http with bytesSent := sent, fileAddress := file }

theorem SameAnswer.refl (slot : ConnSlot) : SameAnswer slot slot := ⟨_, _, rfl⟩

theorem SameAnswer.trans {a b c : ConnSlot} (h₁ : SameAnswer a b) (h₂ : SameAnswer b c) :
    SameAnswer a c := by
  obtain ⟨sent₁, file₁, h₁⟩ := h₁
  obtain ⟨sent₂, file₂, h₂⟩ := h₂
  refine ⟨sent₂, file₂, ?_⟩
  rw [h₂, h₁]

/-- A state in which a request has been answered. -/
def ConnState.Answering (state : ConnState) : Prop :=
  state = .sending ∨ state = .pausing ∨ state = .lingering

/-- What is kept of a connection on which a request was answered. -/
structure StaysAnswered (slot slot' : ConnSlot) : Prop where
  answering : slot'.state.Answering
  same : SameAnswer slot slot'
  delivery : Delivery slot → Delivery slot'

/-- A write moves the count. -/
theorem afterWrite_same {w : World} {v : View} {stream : Stream} {chunk : Bytes} {slot : ConnSlot}
    (h : (afterWrite w v stream chunk).slot = some slot) : SameAnswer v.slot slot := by
  obtain ⟨hhttp, -⟩ := chargeBody_http w (countWritten v stream chunk) v.slot.http.bytesSent
  unfold afterWrite at h
  simp only at h
  split at h
  · cases h
    refine ⟨v.slot.http.bytesSent + chunk.length, none, ?_⟩
    show { (chargeBody w (countWritten v stream chunk) v.slot.http.bytesSent).slot.http with
      fileAddress := none } = _
    rw [hhttp]
    rfl
  · cases h
    exact ⟨v.slot.http.bytesSent + chunk.length, v.slot.http.fileAddress, hhttp⟩

theorem handleSend_stays {pf : Platform} {w : World} {v : View} {out : Outcome} {slot' : ConnSlot}
    (hs : v.slot.state = .sending) (h : handleSend pf w v = .ok out)
    (hslot : out.slot = some slot') : StaysAnswered v.slot slot' := by
  have hdelivery : Delivery v.slot → Delivery slot' := fun hd =>
    handleSend_delivers hs (hd.inFlight (.inl hs)) h slot' hslot
  cases handleSend_ends h with
  | finished _ =>
      cases hslot
      exact ⟨.inr (.inr rfl), ⟨_, _, rfl⟩, hdelivery⟩
  | paused _ _ =>
      cases hslot
      exact ⟨.inr (.inl rfl), ⟨_, _, rfl⟩, hdelivery⟩
  | closed _ => cases hslot
  | blocked _ _ =>
      cases hslot
      exact ⟨.inl hs, .refl _, hdelivery⟩
  | wrote =>
      refine ⟨?_, afterWrite_same hslot, hdelivery⟩
      rcases afterWrite_state hslot with hlinger | hkeep
      · exact .inr (.inr hlinger)
      · exact .inl (hkeep.trans hs)

theorem handlePause_stays {pf : Platform} {w : World} {v : View} {out : Outcome} {slot' : ConnSlot}
    (hs : v.slot.state = .pausing) (h : handlePause pf w v = .ok out)
    (hslot : out.slot = some slot') : StaysAnswered v.slot slot' := by
  have hdelivery : Delivery v.slot → Delivery slot' := fun hd =>
    handlePause_delivers hs hd h slot' hslot
  cases handlePause_ends h with
  | waits =>
      cases hslot
      exact ⟨.inr (.inl hs), .refl _, hdelivery⟩
  | closed => cases hslot
  | woke h =>
      obtain ⟨hanswering, hsame, -⟩ := handleSend_stays (v := wake v) rfl h hslot
      exact ⟨hanswering, hsame, hdelivery⟩

theorem tickSlot_stays {shared : Shared} {w : World} {slot : ConnSlot}
    (hs : slot.state.Answering) : StaysAnswered slot (tickSlot shared w slot) := by
  refine ⟨?_, ?_, tickSlot_delivery⟩
  · unfold tickSlot
    repeat' split
    all_goals first
      | exact .inl rfl
      | exact hs
  · unfold tickSlot
    repeat' split
    all_goals exact ⟨_, _, rfl⟩

/--
**After its answer, a connection keeps the answer at every step.**

The event must be one of a state that sends, pauses or lingers, since the connection
no longer reads.
-/
theorem ConnStep.stays {pf : Platform} {cfg : ServerConfig} {slot slot' : ConnSlot}
    (hs : slot.state.Answering) (h : ConnStep pf cfg slot slot') : StaysAnswered slot slot' := by
  cases h with
  | event shared w hout hslot =>
      cases handleConnectionEvent_ends hout with
      | reading hread _ =>
          have hread : slot.state = .reading := hread
          rw [hread] at hs
          rcases hs with hs | hs | hs <;> cases hs
      | sending hsend h => exact handleSend_stays hsend h hslot
      | pausing hpause h => exact handlePause_stays hpause h hslot
      | lingering _ => cases hslot
      | free _ =>
          cases hslot
          exact ⟨hs, .refl _, id⟩
  | tick shared w => exact tickSlot_stays hs

/-- **And over every run.** -/
theorem ConnRun.stays {pf : Platform} {cfg : ServerConfig} {slot slot' : ConnSlot}
    (hs : slot.state.Answering) (h : ConnRun pf cfg slot slot') : StaysAnswered slot slot' := by
  induction h with
  | refl => exact ⟨hs, .refl slot, id⟩
  | tail _ hstep ih =>
      obtain ⟨hanswering, hsame, hdelivery⟩ := ih
      have hnext := hstep.stays hanswering
      exact ⟨hnext.answering, hsame.trans hnext.same, fun hd => hnext.delivery (hdelivery hd)⟩

/-! ### The end

Closing writes the entry of the log from what the connection holds then.
-/

/-- What an answered connection has written is its response up to the count. -/
theorem Delivery.answering {slot : ConnSlot} (h : Delivery slot) (hs : slot.state.Answering) :
    InFlight slot := by
  rcases hs with hs | hs | hs
  · exact h.inFlight (.inl hs)
  · exact h.inFlight (.inr hs)
  · exact (h.lingering hs).1

/-- If closing a connection adds an entry to the log, it is the entry of the connection. -/
theorem closeConnection_entry {slot : ConnSlot} {shared : Shared} {entry : LogEntry}
    (h : (closeConnection ⟨shared, slot⟩).shared.accessLog = shared.accessLog ++ [entry]) :
    entry = logEntry slot := by
  by_cases hpos : 0 < (logEntry slot).status
  · have hnew : shared.accessLog ++ [logEntry slot] = shared.accessLog ++ [entry] := by
      rw [← h]
      exact (if_pos hpos).symm
    exact (List.singleton_inj.mp (List.append_cancel_left hnew)).symm
  · have hnone : shared.accessLog = shared.accessLog ++ [entry] := by
      rw [← h]
      exact (if_neg hpos).symm
    exact absurd hnone (by simp)

/-- The stream stays with the connection up to its answer. -/
theorem Prepares.stream {pf : Platform} {cfg : ServerConfig} {w : World} {v u : View}
    (h : Prepares pf cfg w v u) : u.slot.stream = v.slot.stream := by
  have hrelease : ∀ (x : View) (charge : Option Int),
      (releaseCgi x charge).slot.stream = x.slot.stream := by
    intro x charge
    unfold releaseCgi
    split <;> rfl
  cases h with
  | page hu => exact hu.stream
  | file hx _ hu => exact hu.stream.trans hx.stream
  | refused hx _ hu => exact hu.stream.trans hx.stream
  | ran hx _ _ hu => exact (hu.stream.trans (hrelease _ _)).trans hx.stream

/-- A connection that had written nothing when its request was answered. -/
theorem Answers.delivery {pf : Platform} {cfg : ServerConfig} {w : World} {v u v' : View}
    (h : Answers pf cfg w v u v') (hst : v.slot.stream = some ⟨[]⟩) : Delivery v'.slot :=
  transitionToSending_delivery h.length (h.prepares.stream.trans hst) rfl h.sends

theorem Answers.answering {pf : Platform} {cfg : ServerConfig} {w : World} {v u v' : View}
    (h : Answers pf cfg w v u v') : v'.slot.state.Answering := by
  obtain ⟨⟨d, throttles⟩, -, hsend⟩ := bind_eq_ok.mp h.sends
  cases hsend
  exact .inl (sendingSlot_state pf w u.slot d)

end Thttpd
