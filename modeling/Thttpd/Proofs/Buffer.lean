/-
The indices into the read buffer stay in range.

`handle_read` advances them in three places: the socket read, the detection machine
and, while the body of a request to a program is waited for, the read again; and a full
buffer is only noticed at the next event.  A buffer in memory that holds the bytes of
a connection holds them after every event too, and none of its accesses aborts on the
way, whatever length the request declares.

The buffer of the source is 60000 bytes long and is written to by the socket at one
index and read at others.  The model of the program elsewhere keeps the bytes
received and forgets the buffer.  Here the two go side by side: `Holds` says that the
buffer has those bytes in front, and each function over indices is shown to be the
function over the bytes, with no access that would abort.
-/
import Thttpd.Core.ReadBuffer
import Thttpd.Proofs.Delivery

namespace Thttpd

open Text

/-- A sum that fits is the sum. -/
theorem Platform.usize_of_lt (pf : Platform) {x : Nat} (h : x < 18446744073709551616) :
    pf.usize x = .ok x := if_pos h

/-- A slice within the buffer does not abort. -/
theorem slice_of_le {data : Bytes} {start stop : Nat} (h₁ : start ≤ stop)
    (h₂ : stop ≤ data.length) : slice data start stop = .ok ((data.take stop).drop start) := by
  unfold slice
  rw [if_neg (Nat.not_lt.mpr h₁), if_neg (Nat.not_lt.mpr h₂)]

/-! ### A buffer and the bytes it holds

Four indices are kept in order: what was checked, what was read, and the length of
the buffer.  Everything a handler computes with them is a difference of two in that
order, or the end of a body, whose declared length is the one number here that comes
from outside.
-/

/--
The buffer in memory holds the bytes the connection has received, and the indices
are in range.
-/
structure ReadBuffer.Holds (b : ReadBuffer) (http : HttpConn) : Prop where
  size : b.readBuf.length = readBufSize
  readIdx : b.readIdx = http.readIdx
  checkedIdx : b.checkedIdx = http.checkedIdx
  bytes : b.readBuf.take b.readIdx = http.readBuf
  ok : BufferOk http

namespace ReadBuffer.Holds

variable {b : ReadBuffer} {http : HttpConn}

/-- What was checked was read. -/
theorem checked_le (h : b.Holds http) : b.checkedIdx ≤ b.readIdx := by
  rw [h.checkedIdx, h.readIdx]
  exact h.ok.checked

/-- What was read is in the buffer. -/
theorem read_le (h : b.Holds http) : b.readIdx ≤ readBufSize := by
  rw [h.readIdx]
  exact h.ok.read

theorem read_le_length (h : b.Holds http) : b.readIdx ≤ b.readBuf.length := by
  rw [h.size]
  exact h.read_le

theorem new (peer : PeerAddr) : ReadBuffer.new.Holds (ConnSlot.accepted peer).http where
  size := List.length_replicate
  readIdx := rfl
  checkedIdx := rfl
  bytes := List.take_zero
  ok := ⟨Nat.le_refl 0, Nat.zero_le _, fun cl hcl => by cases hcl⟩

/-- The room that is left can be computed. -/
theorem bufRemaining (h : b.Holds http) (pf : Platform) :
    b.bufRemaining pf = .ok (readBufSize - http.readIdx) := by
  unfold ReadBuffer.bufRemaining Platform.usizeSub
  rw [if_pos h.read_le, h.readIdx]

/-- The head is a slice of what was read. -/
theorem head (h : b.Holds http) : b.head = .ok http.requestBytes := by
  unfold ReadBuffer.head HttpConn.requestBytes
  rw [slice_of_le (Nat.zero_le _) (Nat.le_trans h.checked_le h.read_le_length), List.drop_zero,
    ← h.bytes, List.take_take, Nat.min_eq_left (h.checkedIdx ▸ h.checked_le), h.checkedIdx]

/-- So is the part of the body that has come. -/
theorem body (h : b.Holds http) : b.body = .ok (http.readBuf.drop http.checkedIdx) := by
  unfold ReadBuffer.body
  rw [slice_of_le h.checked_le h.read_le_length, h.bytes, h.checkedIdx]

/-- The end of the largest body that can be declared is still an index. -/
theorem bodyEnd (h : b.Holds http) (pf : Platform) {cl : Int} (h₀ : 0 ≤ cl) (h₁ : cl ≤ i64Max) :
    b.bodyEnd pf cl = .ok (http.checkedIdx + asUsize cl) := by
  have hchecked := h.checked_le
  have hread := h.read_le
  unfold readBufSize at hread
  unfold i64Max at h₁
  unfold ReadBuffer.bodyEnd
  rw [asUsize_of_nonneg h₀, pf.usize_of_lt (by omega), h.checkedIdx]

/-- Whether a body is still to come is told by its bytes. -/
theorem bodyPending (h : b.Holds http) (pf : Platform) :
    b.bodyPending pf http.contentLength = .ok (Thttpd.bodyPending http) := by
  unfold Thttpd.bodyPending
  cases hcl : http.contentLength with
  | none => rfl
  | some cl =>
      obtain ⟨h₀, h₁⟩ := h.ok.length cl hcl
      by_cases hpos : 0 < cl
      · simp only [ReadBuffer.bodyPending, h.bodyEnd pf h₀ h₁, h.readIdx, hpos]
        simp [bind, Except.bind, pure, Except.pure]
      · simp [ReadBuffer.bodyPending, hpos, pure, Except.pure]

theorem bodyComplete (h : b.Holds http) (pf : Platform) :
    b.bodyComplete pf http.contentLength = .ok (Thttpd.bodyComplete http) := by
  unfold Thttpd.bodyComplete
  cases hcl : http.contentLength with
  | none => rfl
  | some cl =>
      obtain ⟨h₀, h₁⟩ := h.ok.length cl hcl
      by_cases hpos : 0 < cl
      · simp only [ReadBuffer.bodyComplete, if_pos hpos, h.bodyEnd pf h₀ h₁, h.readIdx]
        rfl
      · simp [ReadBuffer.bodyComplete, hpos, pure, Except.pure]

theorem postBody (h : b.Holds http) (pf : Platform) :
    b.postBody pf http.contentLength = .ok (Thttpd.postBody http) := by
  unfold Thttpd.postBody
  cases hcl : http.contentLength with
  | none => rfl
  | some cl =>
      obtain ⟨h₀, h₁⟩ := h.ok.length cl hcl
      simp only [ReadBuffer.postBody, h.bodyEnd pf h₀ h₁, h.readIdx, h.body, bind, Except.bind,
        pure, Except.pure, Option.bind_some]
      split <;> rfl

/-- `dispatch_cgi` aborts nowhere, and hands on the body there is. -/
theorem dispatchCgi (h : b.Holds http) (pf : Platform) :
    b.dispatchCgi pf http.contentLength
      = .ok (if Thttpd.bodyPending http then none else Thttpd.postBody http) := by
  unfold ReadBuffer.dispatchCgi
  rw [h.bodyPending, h.postBody]
  cases Thttpd.bodyPending http <;> rfl

/-- It holds them for every connection that has read the same. -/
theorem same {http' : HttpConn} (h : b.Holds http) (hs : SameBytes http http') :
    b.Holds http' where
  size := h.size
  readIdx := by
    unfold HttpConn.readIdx
    rw [hs.readBuf]
    exact h.readIdx
  checkedIdx := h.checkedIdx.trans hs.checkedIdx.symm
  bytes := h.bytes.trans hs.readBuf.symm
  ok := h.ok.same hs

/-! ### One event

A read stores what the socket gave, lets the detection machine go over it, and
answers if a request is complete.  The buffer after it holds the bytes of the
connection after it, so the next event begins where this one did.
-/

/-- A request just detected is read from the buffer. -/
theorem processRequest {http₀ : HttpConn} (h : b.Holds http) (pf : Platform)
    (hlen : http₀.contentLength = http.contentLength) :
    ∃ body, b.processRequest pf http₀ = .ok body := by
  have hhead : (readRequest pf { http₀ with
      readBuf := http.requestBytes, checkedIdx := b.checkedIdx }).contentLength
        = (readRequest pf http).contentLength := by
    have hbytes : HttpConn.requestBytes { http₀ with
        readBuf := http.requestBytes, checkedIdx := http.checkedIdx } = http.requestBytes := by
      unfold HttpConn.requestBytes
      rw [List.take_take, Nat.min_self]
    rw [readRequest_contentLength, readRequest_contentLength, h.checkedIdx, hbytes]
    simp only [hlen]
  have hdispatch := (h.same (readRequest_sameBytes pf http)).dispatchCgi pf
  rw [← hhead] at hdispatch
  unfold ReadBuffer.processRequest
  rw [h.head]
  exact ⟨_, hdispatch⟩

theorem resumeCgi (h : b.Holds http) (pf : Platform) :
    ∃ body, b.resumeCgi pf http.contentLength = .ok body := by
  unfold ReadBuffer.resumeCgi
  rw [h.bodyComplete, h.dispatchCgi]
  cases Thttpd.bodyComplete http
  · exact ⟨none, rfl⟩
  · exact ⟨_, rfl⟩

/-- What a read puts into the window is received. -/
theorem store (h : b.Holds http) (pf : Platform) (bytes : Bytes) :
    ∃ b', (b.store (bytes.take (readBufSize - http.readIdx))).advance pf
        (bytes.take (readBufSize - http.readIdx)).length = .ok b' ∧
      b'.Holds (http.receive (bytes.take (readBufSize - http.readIdx))) := by
  have hread := h.read_le
  have hidx := h.readIdx
  have hroom : b.readIdx + (bytes.take (readBufSize - http.readIdx)).length ≤ readBufSize := by
    rw [List.length_take]
    omega
  generalize hnew : bytes.take (readBufSize - http.readIdx) = new at hroom
  have htake : (b.readBuf.take b.readIdx).length = b.readIdx :=
    List.length_take_of_le h.read_le_length
  refine ⟨⟨(b.store new).readBuf, b.readIdx + new.length, b.checkedIdx⟩, ?_, ?_⟩
  · unfold ReadBuffer.advance
    have hlt : b.readIdx + new.length < 18446744073709551616 := by
      unfold readBufSize at hroom
      omega
    show pf.usize (b.readIdx + new.length) >>= _ = _
    rw [pf.usize_of_lt hlt]
    rfl
  · refine ⟨?_, ?_, h.checkedIdx, ?_, hnew ▸ h.ok.receive bytes⟩
    · show (b.readBuf.take b.readIdx ++ (new ++ b.readBuf.drop (b.readIdx + new.length))).length = _
      rw [List.length_append, htake, List.length_append, List.length_drop, h.size]
      omega
    · show b.readIdx + new.length = (http.readBuf ++ new).length
      rw [List.length_append, h.readIdx]
      rfl
    · show (b.readBuf.take b.readIdx ++ (new ++ b.readBuf.drop (b.readIdx + new.length))).take
        (b.readIdx + new.length) = http.readBuf ++ new
      rw [List.take_append, htake, List.take_of_length_le (by omega), Nat.add_sub_cancel_left,
        List.take_left, h.bytes]

end ReadBuffer.Holds

/-- The loop over indices is the loop over the bytes at them. -/
theorem ReadBuffer.gotRequestAt_eq (pf : Platform) (readBuf : Bytes)
    (hsize : readBuf.length < 18446744073709551616) : ∀ (left idx : Nat) (state : ParseState),
    idx + left ≤ readBuf.length → ReadBuffer.gotRequestAt pf readBuf left idx state
      = .ok (gotRequestFrom ((readBuf.drop idx).take left) idx state) := by
  intro left
  induction left with
  | zero =>
      intro idx state _
      rfl
  | succ left ih =>
      intro idx state hle
      have hlt : idx < readBuf.length := by omega
      have hidx : pf.usize (idx + 1) = .ok (idx + 1) := pf.usize_of_lt (by omega)
      rw [List.drop_eq_getElem_cons hlt, List.take_succ_cons, gotRequestFrom,
        ReadBuffer.gotRequestAt, List.getElem?_eq_getElem hlt]
      simp only
      cases parseByte state readBuf[idx] with
      | next state' =>
          simp only [hidx]
          exact ih (idx + 1) state' (by omega)
      | stop verdict consumed state' =>
          cases consumed
          · rfl
          · simp only [hidx]
            rfl

namespace ReadBuffer.Holds

variable {b : ReadBuffer} {http : HttpConn}

/-- The machine reads at the checked index and stops at the read one. -/
theorem gotRequest (h : b.Holds http) (pf : Platform) :
    b.gotRequest pf http.parseState
      = .ok (Thttpd.gotRequest http.readBuf http.checkedIdx http.parseState) := by
  have hchecked := h.checked_le
  have hlength := h.read_le_length
  unfold ReadBuffer.gotRequest Thttpd.gotRequest
  rw [gotRequestAt_eq pf b.readBuf (by rw [h.size]; decide) _ _ _ (by omega), ← List.drop_take,
    h.bytes, h.checkedIdx]

/-- The detection machine keeps to the bytes received, and so does what follows. -/
theorem detectRequest (h : b.Holds http) (pf : Platform) :
    ∃ b', b.detectRequest pf http = .ok b' ∧ b'.Holds http.detected := by
  have hdetected : { b with checkedIdx :=
      (Thttpd.gotRequest http.readBuf http.checkedIdx http.parseState).2.1 }.Holds http.detected :=
    ⟨h.size, h.readIdx, rfl, h.bytes, h.ok.detected⟩
  refine ⟨_, ?_, hdetected⟩
  unfold ReadBuffer.detectRequest
  rw [h.gotRequest]
  rcases hgot : Thttpd.gotRequest http.readBuf http.checkedIdx http.parseState with
    ⟨verdict, checkedIdx, state⟩
  rw [hgot] at hdetected
  cases verdict with
  | noRequest => rfl
  | badRequest => rfl
  | gotRequest =>
      obtain ⟨body, hbody⟩ := hdetected.processRequest pf (rfl : http.contentLength = _)
      show (ReadBuffer.processRequest pf { b with checkedIdx := checkedIdx } http >>= _) = _
      rw [hbody]
      rfl

/--
**An event on a connection that reads makes no access out of range**, and leaves a
buffer that holds what the connection then has.

The room is computed from the index before anything is read, and a full buffer is
answered without reading.
-/
theorem handleRead {slot : ConnSlot} (h : b.Holds slot.http) (pf : Platform) (w : World) :
    ∃ b', b.handleRead pf w slot = .ok b' ∧
      b'.Holds (if slot.stream.isNone then slot.http else slot.loaded w) := by
  unfold ReadBuffer.handleRead
  rw [h.bufRemaining]
  show ∃ b', (if readBufSize - slot.http.readIdx = 0 then pure b
    else if slot.stream.isNone then pure b else _) = Except.ok b' ∧ _
  by_cases hfull : readBufSize - slot.http.readIdx = 0
  · refine ⟨b, by rw [if_pos hfull]; rfl, ?_⟩
    split
    · exact h
    · unfold ConnSlot.loaded
      rw [hfull]
      split <;> exact h
  rw [if_neg hfull]
  by_cases hstream : slot.stream.isNone = true
  · refine ⟨b, by rw [if_pos hstream]; rfl, ?_⟩
    rw [if_pos hstream]
    exact h
  rw [if_neg hstream, if_neg hstream]
  have hwindow : b.window = .ok (b.readBuf.drop b.readIdx) :=
    if_neg (Nat.not_lt.mpr h.read_le_length)
  have hlength : (b.readBuf.drop b.readIdx).length = readBufSize - slot.http.readIdx := by
    rw [List.length_drop, h.size, h.readIdx]
  rw [hwindow]
  simp only [bind, Except.bind, hlength]
  unfold ConnSlot.loaded
  cases w.read with
  | wouldBlock => exact ⟨b, rfl, h⟩
  | failed => exact ⟨b, rfl, h⟩
  | data bytes =>
      simp only
      by_cases hnil : bytes.take (readBufSize - slot.http.readIdx) = []
      · rw [if_pos hnil, if_pos hnil]
        exact ⟨b, rfl, h⟩
      rw [if_neg hnil, if_neg hnil]
      obtain ⟨b', hstore, hb'⟩ := h.store pf bytes
      rw [hstore]
      simp only
      by_cases hpending : slot.pendingCgiBody = true
      · rw [if_pos hpending, if_pos hpending]
        obtain ⟨body, hbody⟩ := hb'.resumeCgi pf
        refine ⟨b', ?_, hb'⟩
        have hbody : b'.resumeCgi pf slot.http.contentLength = .ok body := hbody
        rw [hbody]
        rfl
      · rw [if_neg hpending, if_neg hpending]
        exact hb'.detectRequest pf

end ReadBuffer.Holds

/-! ### What the handlers leave of the bytes read

Only a read touches them.  The bytes stay in the connection while it sends, because a
request is answered once.
-/

section

variable {pf : Platform} {cfg : ServerConfig} {w : World} {v : View}

/-- Preparing an answer reads the request and leaves it. -/
theorem Prepares.sameBytes {u : View} (h : Prepares pf cfg w v u) :
    SameBytes v.slot.http u.slot.http := by
  cases h with
  | page hu => exact hu.bytes
  | file hx _ hu => exact hx.bytes.trans hu.bytes
  | refused hx _ hu => exact hx.bytes.trans hu.bytes
  | ran hx _ _ hu =>
      refine (hx.bytes.trans ?_).trans hu.bytes
      unfold afterCgi
      rw [releaseCgi_http]
      exact ⟨rfl, rfl, id⟩

theorem transitionToSending_sameBytes {v' : View} (h : transitionToSending pf w v = .ok v') :
    SameBytes v.slot.http v'.slot.http := by
  obtain ⟨⟨d, throttles⟩, -, h⟩ := bind_eq_ok.mp h
  cases h
  obtain ⟨len, hlen⟩ := fillHeaderLen_eq v.slot
  show SameBytes v.slot.http (sendingSlot pf w v.slot d).http
  unfold sendingSlot
  rw [hlen]
  cases d <;> exact ⟨rfl, rfl, id⟩

/-- What a connection has read is what came, whatever follows from it. -/
theorem handleRead_sameBytes {out : Outcome} {slot : ConnSlot} (h : handleRead pf cfg w v = .ok out)
    (hslot : out.slot = some slot) : SameBytes (v.slot.loaded w) slot.http := by
  cases handleRead_ends h with
  | closed => cases hslot
  | goesOn hu =>
      cases hslot
      exact hu.bytes
  | answered ha =>
      cases hslot
      exact ha.prepares.sameBytes.trans (transitionToSending_sameBytes ha.sends)

/-- Sending leaves it alone. -/
theorem handleSend_sameBytes {out : Outcome} {slot : ConnSlot} (h : handleSend pf w v = .ok out)
    (hslot : out.slot = some slot) : SameBytes v.slot.http slot.http := by
  cases handleSend_ends h with
  | finished _ =>
      cases hslot
      exact ⟨rfl, rfl, id⟩
  | paused _ _ =>
      cases hslot
      exact .refl _
  | closed => cases hslot
  | blocked _ _ =>
      cases hslot
      exact .refl _
  | @wrote limit n stream remaining _ _ _ _ _ =>
      have hhttp := (chargeBody_http w (countWritten v stream
        ((remaining.take (min limit remaining.length)).take n)) v.slot.http.bytesSent).1
      unfold afterWrite at hslot
      simp only at hslot
      split at hslot <;>
      · cases hslot
        simp only [transitionToLingering, hhttp]
        exact ⟨rfl, rfl, id⟩

theorem handlePause_sameBytes {out : Outcome} {slot : ConnSlot} (h : handlePause pf w v = .ok out)
    (hslot : out.slot = some slot) : SameBytes v.slot.http slot.http := by
  cases handlePause_ends h with
  | waits =>
      cases hslot
      exact .refl _
  | closed => cases hslot
  | woke h => exact handleSend_sameBytes (v := wake v) h hslot

theorem tickSlot_http (shared : Shared) (w : World) (slot : ConnSlot) :
    (tickSlot shared w slot).http = slot.http := by
  unfold tickSlot
  split
  · split <;> rfl
  · rfl

/-- Every event but one that reads. -/
theorem handleConnectionEvent_sameBytes {out : Outcome} {slot : ConnSlot}
    (hs : v.slot.state ≠ .reading) (h : handleConnectionEvent pf cfg w v = .ok out)
    (hslot : out.slot = some slot) : SameBytes v.slot.http slot.http := by
  cases handleConnectionEvent_ends h with
  | reading hr _ => exact absurd hr hs
  | sending _ h => exact handleSend_sameBytes h hslot
  | pausing _ h => exact handlePause_sameBytes h hslot
  | lingering _ => cases hslot
  | free _ =>
      cases hslot
      exact .refl _

end

/-! ### Runs with buffers

Buffers are in the memory of the process and are no part of the state of the model,
so they are carried along a run: an accept makes one, an event on a connection that
reads moves it, and nothing else touches it.
-/

/-- The read buffers of the connections, by key. -/
abbrev Buffers := Nat → ReadBuffer

/-- What an event on connection `k` does to the buffers. -/
def Server.readInto (pf : Platform) (w : World) (k : Nat) (s : Server) (bufs : Buffers) :
    Except Panic Buffers :=
  match s.conns.at? k with
  | some slot =>
      if slot.state = .reading then do
        let b ← (bufs k).handleRead pf w slot
        pure (Function.update bufs k b)
      else .ok bufs
  | none => .ok bufs

/-- A step of the server, with the buffers in memory. -/
inductive BufferedStep (pf : Platform) (cfg : ServerConfig) :
    Server × Buffers → Server × Buffers → Prop
  | accept {s : Server} {bufs : Buffers} {k : Nat} (peer : PeerAddr) :
      s.draining = false → s.conns.len < maxConnections → s.conns.Vacant k →
      BufferedStep pf cfg (s, bufs) (s.accept k peer, Function.update bufs k .new)
  | event {s s' : Server} {bufs bufs' : Buffers} (w : World) (k : Nat) :
      s.event pf cfg w k = .ok s' → s.readInto pf w k bufs = .ok bufs' →
      BufferedStep pf cfg (s, bufs) (s', bufs')
  | resume {s s' : Server} {bufs : Buffers} (w : World) (k : Nat) :
      s.resume pf w k = .ok s' → BufferedStep pf cfg (s, bufs) (s', bufs)
  | tick {s s' : Server} {bufs : Buffers} (w : Nat → World) :
      tick pf w s = .ok s' → BufferedStep pf cfg (s, bufs) (s', bufs)
  | drain {s : Server} {bufs : Buffers} :
      BufferedStep pf cfg (s, bufs) ({ s with draining := true }, bufs)

/-- A server with the buffers of the run that led to it. -/
def Server.Buffered (pf : Platform) (cfg : ServerConfig) (s : Server) (bufs : Buffers) : Prop :=
  Lts.Reachable (fun p : Server × Buffers => p.1.Init) (BufferedStep pf cfg) (s, bufs)

theorem BufferedStep.step {pf : Platform} {cfg : ServerConfig} {p q : Server × Buffers}
    (h : BufferedStep pf cfg p q) : Step pf cfg p.1 q.1 := by
  cases h with
  | accept peer hd hroom hvac => exact .accept peer hd hroom hvac
  | event w k h _ => exact .event w k h
  | resume w k h => exact .resume w k h
  | tick w h => exact .tick w h
  | drain => exact .drain

theorem Server.Buffered.reachable {pf : Platform} {cfg : ServerConfig} {s : Server}
    {bufs : Buffers} (h : s.Buffered pf cfg bufs) : s.Reachable pf cfg :=
  h.forget (fun _ hinit => hinit) (fun _ _ hstep => hstep.step)

/-- Every buffer holds the bytes of its connection. -/
def Holding (p : Server × Buffers) : Prop :=
  ∀ k slot, p.1.conns.at? k = some slot → (p.2 k).Holds slot.http

/-- A handler left `out`, and the buffer `b`. -/
theorem Holding.after {s : Server} {bufs : Buffers} {k : Nat} {slot : ConnSlot} {out : Outcome}
    {b : ReadBuffer} (h : Holding (s, bufs)) (hk : s.conns.at? k = some slot)
    (hb : ∀ slot', out.slot = some slot' → b.Holds slot'.http) :
    Holding (s.after k out, Function.update bufs k b) := by
  intro j slot' hj
  have hj : (s.conns.update k out.slot).at? j = some slot' := hj
  by_cases hjk : j = k
  · subst hjk
    rw [Slab.at?_update hk] at hj
    show (Function.update bufs j b j).Holds slot'.http
    rw [Function.update_self]
    exact hb slot' hj
  · rw [Slab.at?_update_ne hjk] at hj
    show (Function.update bufs k b j).Holds slot'.http
    rw [Function.update_of_ne hjk]
    exact h j slot' hj

/-- The same, when the buffer was left alone. -/
theorem Holding.after_same {s : Server} {bufs : Buffers} {k : Nat} {slot : ConnSlot} {out : Outcome}
    (h : Holding (s, bufs)) (hk : s.conns.at? k = some slot)
    (hb : ∀ slot', out.slot = some slot' → SameBytes slot.http slot'.http) :
    Holding (s.after k out, bufs) := by
  have hafter := Holding.after h hk fun slot' hslot' => (h k slot hk).same (hb slot' hslot')
  rw [Function.update_eq_self] at hafter
  exact hafter

/-- A new connection has an empty buffer. -/
theorem Holding.accept {s : Server} {bufs : Buffers} {k : Nat} {peer : PeerAddr}
    (h : Holding (s, bufs)) (hvac : s.conns.Vacant k) :
    Holding (s.accept k peer, Function.update bufs k .new) := by
  intro j slot hj
  have hj : (s.conns.put k (ConnSlot.accepted peer)).at? j = some slot := hj
  by_cases hjk : j = k
  · subst hjk
    rw [Slab.at?_put hvac] at hj
    cases hj
    show (Function.update bufs j .new j).Holds _
    rw [Function.update_self]
    exact .new peer
  · rw [Slab.at?_put_ne hvac hjk] at hj
    show (Function.update bufs k .new j).Holds slot.http
    rw [Function.update_of_ne hjk]
    exact h j slot hj

/-- A connection that reads has a socket. -/
theorem Server.Reachable.reading_stream {pf : Platform} {cfg : ServerConfig} {s : Server} {slot : ConnSlot}
    (hs : s.Reachable pf cfg) (hmem : some slot ∈ s.conns) (hr : slot.state = .reading) :
    slot.stream.isNone = false := by
  obtain ⟨stream, hst, -⟩ := (hs.delivering slot hmem).reading hr
  rw [hst]
  rfl

/--
**An event keeps every buffer in step with its connection.**

The connection is the one of the model, where a buffer is the list of bytes
received.  `Holds` says that the array in memory begins with these bytes and that the
two indices are lengths of such lists.
-/
theorem Holding.event {pf : Platform} {cfg : ServerConfig} {w : World} {k : Nat} {s s' : Server}
    {bufs bufs' : Buffers} (hs : s.Reachable pf cfg) (h : Holding (s, bufs))
    (hev : s.event pf cfg w k = .ok s') (hbuf : s.readInto pf w k bufs = .ok bufs') :
    Holding (s', bufs') := by
  unfold Server.event at hev
  unfold Server.readInto at hbuf
  cases hk : s.conns.at? k with
  | none =>
      simp only [hk] at hev hbuf
      cases hev
      cases hbuf
      exact h
  | some slot =>
      simp only [hk] at hev hbuf
      obtain ⟨out, hout, hev⟩ := bind_eq_ok.mp hev
      cases hev
      split at hbuf
      · rename_i hr
        obtain ⟨b, hb, hbuf⟩ := bind_eq_ok.mp hbuf
        cases hbuf
        obtain ⟨b', hb', hholds⟩ := (h k slot hk).handleRead pf w
        have hsame : b = b' := Except.ok.inj (hb.symm.trans hb')
        rw [hs.reading_stream (Slab.mem_of_at? hk) hr] at hholds
        refine h.after hk fun slot' hslot' => ?_
        have hread : handleRead pf cfg w (s.view slot) = .ok out := by
          have hr' : (s.view slot).slot.state = .reading := hr
          rw [handleConnectionEvent, hr'] at hout
          exact hout
        rw [hsame]
        exact hholds.same (handleRead_sameBytes hread hslot')
      · rename_i hr
        cases hbuf
        exact h.after_same hk fun slot' => handleConnectionEvent_sameBytes hr hout

theorem Holding.resume {pf : Platform} {w : World} {k : Nat} {s s' : Server} {bufs : Buffers}
    (h : Holding (s, bufs)) (hev : s.resume pf w k = .ok s') : Holding (s', bufs) := by
  unfold Server.resume at hev
  split at hev
  · rename_i slot hk
    split at hev
    · obtain ⟨out, hout, hev⟩ := bind_eq_ok.mp hev
      cases hev
      exact h.after_same hk fun slot' => handlePause_sameBytes hout
    · cases hev
      exact h
  · cases hev
    exact h

theorem Holding.tick {pf : Platform} {w : Nat → World} {s s' : Server} {bufs : Buffers}
    (h : Holding (s, bufs)) (ht : tick pf w s = .ok s') : Holding (s', bufs) := by
  obtain ⟨throttles, -, ht⟩ := bind_eq_ok.mp ht
  cases ht
  intro k slot hk
  have hk : (s.conns.mapEntries _).at? k = some slot := hk
  rw [Slab.at?_mapEntries] at hk
  obtain ⟨slot₀, hk₀, rfl⟩ := Option.map_eq_some_iff.mp hk
  rw [tickSlot_http]
  exact h k slot₀ hk₀

theorem Holding.step {pf : Platform} {cfg : ServerConfig} {p q : Server × Buffers}
    (hs : p.1.Reachable pf cfg) (h : Holding p) (hstep : BufferedStep pf cfg p q) : Holding q := by
  cases hstep with
  | accept peer _ _ hvac => exact h.accept hvac
  | event w k hev hbuf => exact h.event hs hev hbuf
  | resume w k hev => exact h.resume hev
  | tick w ht => exact h.tick ht
  | drain => exact h

theorem Server.Buffered.holding {pf : Platform} {cfg : ServerConfig} {s : Server} {bufs : Buffers}
    (h : s.Buffered pf cfg bufs) : Holding (s, bufs) := by
  have hboth : s.Reachable pf cfg ∧ Holding (s, bufs) := by
    refine Lts.Reachable.invariant
      (fun p : Server × Buffers => p.1.Reachable pf cfg ∧ Holding p) h ?_ ?_
    · intro p hinit
      refine ⟨.start hinit, fun k slot hk => ?_⟩
      rw [hinit.noConns] at hk
      cases hk
    · intro p q hp hstep
      exact ⟨hp.1.tail hstep.step, hp.2.step hp.1 hstep⟩
  exact hboth.2

/-- The buffers can follow every step. -/
theorem Step.buffered {pf : Platform} {cfg : ServerConfig} {s s' : Server} {bufs : Buffers}
    (hb : s.Buffered pf cfg bufs) (h : Step pf cfg s s') :
    ∃ bufs', BufferedStep pf cfg (s, bufs) (s', bufs') := by
  cases h with
  | accept peer hd hroom hvac => exact ⟨_, .accept peer hd hroom hvac⟩
  | event w k h =>
      have hread : ∃ bufs', s.readInto pf w k bufs = .ok bufs' := by
        unfold Server.readInto
        split
        · rename_i slot hk
          split
          · obtain ⟨b, hb, -⟩ := (hb.holding k slot hk).handleRead pf w
            have hb : ReadBuffer.handleRead pf w slot (bufs k) = .ok b := hb
            rw [hb]
            exact ⟨_, rfl⟩
          · exact ⟨_, rfl⟩
        · exact ⟨_, rfl⟩
      obtain ⟨bufs', hbufs'⟩ := hread
      exact ⟨bufs', .event w k h hbufs'⟩
  | resume w k h => exact ⟨_, .resume w k h⟩
  | tick w h => exact ⟨_, .tick w h⟩
  | drain => exact ⟨_, .drain⟩

theorem Server.Reachable.buffered {pf : Platform} {cfg : ServerConfig} {s : Server}
    (h : s.Reachable pf cfg) : ∃ bufs, s.Buffered pf cfg bufs :=
  h.remember (fun _ hinit => ⟨fun _ => .new, hinit⟩) (fun _ _ _ hb hstep => hstep.buffered hb)

/--
**In every state of every run the indices into every read buffer are in range.**
Every run has its buffers in memory, and with them: the indices are ordered and
within the 60000 bytes, so the room that is left can be computed; the end of a body
of any length that can be declared does not overflow; the head and the body are
slices within the buffer, with the bytes the connection received; and whatever comes
next, no access the handler makes to the buffer aborts, and it leaves the indices
ordered.

The buffers are modelled beside the connections, as arrays with indices into them
and with every access checked, and a run of the server is followed by a run of its
buffers.
-/
theorem read_buffer_in_range {pf : Platform} {cfg : ServerConfig} {s : Server}
    (h : s.Reachable pf cfg) :
    (∃ bufs, s.Buffered pf cfg bufs) ∧
    ∀ bufs, s.Buffered pf cfg bufs → ∀ k slot, s.conns.at? k = some slot →
      ((bufs k).checkedIdx ≤ (bufs k).readIdx ∧ (bufs k).readIdx ≤ 60000 ∧
        (bufs k).readBuf.length = 60000) ∧
      (bufs k).bufRemaining pf = .ok (60000 - (bufs k).readIdx) ∧
      (∀ cl, 0 ≤ cl → cl ≤ i64Max →
        (bufs k).bodyEnd pf cl = .ok ((bufs k).checkedIdx + cl.toNat)) ∧
      (bufs k).head = .ok (slot.http.readBuf.take slot.http.checkedIdx) ∧
      (bufs k).body = .ok (slot.http.readBuf.drop slot.http.checkedIdx) ∧
      ∀ w, ∃ b, (bufs k).handleRead pf w slot = .ok b ∧
        b.checkedIdx ≤ b.readIdx ∧ b.readIdx ≤ 60000 ∧ b.readBuf.length = 60000 := by
  refine ⟨h.buffered, ?_⟩
  intro bufs hbufs k slot hk
  have hholds : (bufs k).Holds slot.http := hbufs.holding k slot hk
  refine ⟨⟨hholds.checked_le, hholds.read_le, hholds.size⟩, ?_, ?_, hholds.head, hholds.body, ?_⟩
  · rw [hholds.bufRemaining, hholds.readIdx]
    rfl
  · intro cl h₀ h₁
    rw [hholds.bodyEnd pf h₀ h₁, asUsize_of_nonneg h₀, hholds.checkedIdx]
  · intro w
    obtain ⟨b, hb, hb'⟩ := hholds.handleRead pf w
    exact ⟨b, hb, hb'.checked_le, hb'.read_le, hb'.size⟩

/-! ### The longest body

A body may be declared as long as a number can be.  The connection waits for it, with
its indices where they were.
-/

/-- A server that has the head of a request and waits for the longest body there can be. -/
def longestBodyServer : Server :=
  resultOf (Server.start none) ((Server.first none).event .epoch cgiConfig
    { World.still scriptTree with
      read := .data (asBytes
        "POST /a.cgi HTTP/1.0\r\nContent-Length: 9223372036854775807\r\n\r\n".toList) } 0)

theorem longestBodyServer_reachable : longestBodyServer.Reachable .epoch cgiConfig :=
  (Server.first_reachable .epoch cgiConfig (fun _ h => by cases h)).tail
    (.event _ 0 (eq_ok_of_panicOf _ (by decide +kernel)))

/-- Its connection waits, and where the body will end can be computed. -/
theorem read_buffer_in_range_longest :
    (longestBodyServer.conns.at? 0).map ConnSlot.pendingCgiBody = some true ∧
    ∃ bufs, longestBodyServer.Buffered .epoch cgiConfig bufs ∧
      (bufs 0).bodyEnd .epoch 9223372036854775807
        = .ok ((bufs 0).checkedIdx + 9223372036854775807) := by
  have hwaits : (longestBodyServer.conns.at? 0).map ConnSlot.pendingCgiBody = some true := by
    decide +kernel
  obtain ⟨slot, hslot, -⟩ := Option.map_eq_some_iff.mp hwaits
  obtain ⟨⟨bufs, hbufs⟩, hrange⟩ := read_buffer_in_range longestBodyServer_reachable
  obtain ⟨-, -, hend, -⟩ := hrange bufs hbufs 0 slot hslot
  exact ⟨hwaits, bufs, hbufs, hend 9223372036854775807 (by decide) (by decide)⟩

end Thttpd
