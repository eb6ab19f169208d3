/-
How many body bytes a round of sending lets through.

A connection under rules may have sent its share for each second since it started.  The
limit on a write keeps it to that as long as the share is positive.  But a positive share
is also how `handle_send` tells that there is a limit at all: when more connections share
a rule than it has bytes a second, the share rounds down to zero and the connection sends
as if it had no rule.  `rate_cap_kept_iff` says that this is the only way past the cap.
-/
import Thttpd.Proofs.Accounting

namespace Thttpd

open Text

/-- Wrapping around never makes a number larger. -/
theorem Platform.usize_le {pf : Platform} {x y : Nat} (h : pf.usize x = .ok y) : y ≤ x := by
  unfold Platform.usize at h
  split at h
  · cases h
    exact Nat.le_refl x
  split at h
  · cases h
  · cases h
    exact Nat.mod_le _ _

/-! ### The cap -/

/-- What a connection may have sent by now: its share for each second. -/
def rateCap (w : World) (t : ConnThrottle) : Int := t.maxLimit * elapsedSecs w t.startedAt

/-- The round left the connection with no more body bytes than before, or than its cap. -/
def CapKept (w : World) (v : View) (out : Outcome) : Prop :=
  ∀ slot, out.slot = some slot →
    slot.throttle.bodyBytes ≤ max v.slot.throttle.bodyBytes (rateCap w v.slot.throttle)

/-- The socket would take bytes past the head of the response. -/
def TakesBody (w : World) (slot : ConnSlot) : Prop :=
  slot.http.bytesSent < slot.http.responseLen ∧
    ∃ n : Nat, w.write = .accepted n ∧ 0 < n ∧ (slot.throttle.headerLen : Int)
      < slot.http.bytesSent + min (n : Int) (slot.http.responseLen - slot.http.bytesSent)

/-- A view `handle_send` is called on: of a connection that sends, or of one just woken. -/
inductive Server.SendsFrom (s : Server) : View → Prop
  | sending {k : Nat} {slot : ConnSlot} : s.conns.at? k = some slot → slot.state = .sending →
      s.SendsFrom (s.view slot)
  | woken {k : Nat} {slot : ConnSlot} : s.conns.at? k = some slot → slot.state = .pausing →
      s.SendsFrom (wake (s.view slot))

theorem rateCap_nonneg {w : World} {t : ConnThrottle} (h : 0 < t.maxLimit) : 0 ≤ rateCap w t :=
  Int.mul_nonneg (by omega) (Int.natCast_nonneg _)

theorem rateCap_nonpos {w : World} {t : ConnThrottle} (h : ¬ 0 < t.maxLimit) : rateCap w t ≤ 0 :=
  Int.mul_nonpos_of_nonpos_of_nonneg (by omega) (Int.natCast_nonneg _)

/-! ### The limit on a write -/

/-- A positive share limits a write to what is left of the head and of the cap. -/
theorem writeLimit_capped {pf : Platform} {w : World} {slot : ConnSlot} {limit : Nat}
    (hne : slot.throttle.tnums ≠ []) (hpos : 0 < slot.throttle.maxLimit)
    (hcap : rateCap w slot.throttle ≤ i64Max) (hbody : 0 ≤ slot.throttle.bodyBytes)
    (hmax : slot.throttle.bodyBytes ≤ i64Max) (h : writeLimit pf w slot = .ok limit) :
    (limit : Int) ≤ max (slot.throttle.headerLen - slot.http.bytesSent) 0
      + max (rateCap w slot.throttle - slot.throttle.bodyBytes) 0 := by
  have hmin : i64Min = -9223372036854775808 := rfl
  have hcap₀ := rateCap_nonneg (w := w) hpos
  unfold writeLimit at h
  simp only [isThrottled_iff.mpr hne, hpos, decide_true, Bool.and_self, if_true] at h
  obtain ⟨product, hproduct, h⟩ := bind_eq_ok.mp h
  have hproduct : product = rateCap w slot.throttle :=
    Platform.i64_eq (by rw [hmin]; exact Int.le_trans (by decide) hcap₀) hcap hproduct
  obtain ⟨allowance, hallowance, h⟩ := bind_eq_ok.mp h
  have hmaxval : i64Max = 9223372036854775807 := rfl
  have hallowance := Platform.i64_eq (by rw [hmin]; omega) (by omega) hallowance
  have hle := Platform.usize_le h
  omega

/-- Without one, all the rest may go. -/
theorem writeLimit_uncapped (pf : Platform) (w : World) {slot : ConnSlot}
    (h : ¬ 0 < slot.throttle.maxLimit) :
    writeLimit pf w slot = .ok ((slot.http.responseLen : Int) - slot.http.bytesSent).toNat := by
  unfold writeLimit
  simp only [h, decide_false, Bool.and_false, Bool.false_eq_true, if_false]
  rfl

/-! ### One round -/

/-- What a round that wrote `chunk` leaves on the account. -/
theorem afterWrite_bodyBytes {w : World} {v : View} {stream : Stream} {chunk : Bytes}
    {slot : ConnSlot} (hne : v.slot.throttle.tnums ≠ [])
    (hbody : v.slot.throttle.bodyBytes = max (v.slot.http.bytesSent - v.slot.throttle.headerLen) 0)
    (h : (afterWrite w v stream chunk).slot = some slot) :
    slot.throttle.bodyBytes
      = max (v.slot.http.bytesSent + chunk.length - v.slot.throttle.headerLen) 0 := by
  have hle : v.slot.http.bytesSent ≤ (countWritten v stream chunk).slot.http.bytesSent := by
    show v.slot.http.bytesSent ≤ v.slot.http.bytesSent + chunk.length
    omega
  have hcharged := chargeBody_bodyBytes (w := w) (v := countWritten v stream chunk) hne hle hbody
  unfold afterWrite at h
  simp only at h
  split at h <;>
  · cases h
    exact hcharged

/-- So the cap is kept when that is not too much. -/
theorem afterWrite_capKept {w : World} {v : View} {stream : Stream} {chunk : Bytes}
    (hne : v.slot.throttle.tnums ≠ [])
    (hbody : v.slot.throttle.bodyBytes
      = max (v.slot.http.bytesSent - v.slot.throttle.headerLen) 0) :
    CapKept w v (afterWrite w v stream chunk) ↔
      max (v.slot.http.bytesSent + chunk.length - v.slot.throttle.headerLen) 0
        ≤ max v.slot.throttle.bodyBytes (rateCap w v.slot.throttle) := by
  obtain ⟨slot, hslot⟩ : ∃ slot, (afterWrite w v stream chunk).slot = some slot := by
    unfold afterWrite
    simp only
    split <;> exact ⟨_, rfl⟩
  constructor
  · intro hcap
    rw [← afterWrite_bodyBytes hne hbody hslot]
    exact hcap slot hslot
  · intro hle slot' hslot'
    rw [afterWrite_bodyBytes hne hbody hslot']
    exact hle

/-- A round that leaves the account alone keeps the cap. -/
theorem capKept_of_same {w : World} {v : View} {out : Outcome}
    (h : ∀ slot, out.slot = some slot → slot.throttle.bodyBytes = v.slot.throttle.bodyBytes) :
    CapKept w v out := by
  intro slot hslot
  rw [h slot hslot]
  exact Int.le_max_left _ _

/-- A socket that answered something else took no body. -/
theorem not_takesBody {w : World} {slot : ConnSlot} (h : ∀ n, w.write ≠ .accepted n) :
    ¬ TakesBody w slot := by
  rintro ⟨-, n, hwrite, -⟩
  exact h n hwrite

/-- The round that writes. -/
theorem wrote_capKept_iff {pf : Platform} {w : World} {v : View} {limit n : Nat} {stream : Stream}
    {remaining : Bytes} (hin : InFlight v.slot) (hne : v.slot.throttle.tnums ≠ [])
    (hbody : v.slot.throttle.bodyBytes = max (v.slot.http.bytesSent - v.slot.throttle.headerLen) 0)
    (hlen : (v.slot.http.response.length : Int) ≤ i64Max)
    (hmore : v.slot.http.bytesSent < v.slot.http.responseLen)
    (hlimit : writeLimit pf w v.slot = .ok limit)
    (hrem : sliceFrom v.slot.http.response (asUsize v.slot.http.bytesSent) = .ok remaining)
    (hwrite : w.write = .accepted n) :
    CapKept w v (afterWrite w v stream ((remaining.take (min limit remaining.length)).take n)) ↔
      0 < v.slot.throttle.maxLimit ∨ ¬ TakesBody w v.slot := by
  have hlength := hin.length
  have hlower := hin.lower
  have hremaining : (remaining.length : Int)
      = v.slot.http.responseLen - v.slot.http.bytesSent := by
    rw [hin.remaining hrem, List.length_drop]
    omega
  rw [afterWrite_capKept hne hbody, List.length_take, List.length_take]
  by_cases hpos : 0 < v.slot.throttle.maxLimit
  · refine iff_of_true ?_ (.inl hpos)
    by_cases hcap : rateCap w v.slot.throttle ≤ i64Max
    · have hle := writeLimit_capped hne hpos hcap (by omega) (by omega) hlimit
      omega
    · -- the product overflows, and no response is that long
      omega
  · have hcap := rateCap_nonpos (w := w) hpos
    rw [writeLimit_uncapped pf w hpos] at hlimit
    have hlimit := Except.ok.inj hlimit
    constructor
    · intro hle
      refine .inr ?_
      rintro ⟨-, n', hwrite', hn', hhead⟩
      cases hwrite.symm.trans hwrite'
      omega
    · rintro (hpos' | htakes)
      · exact absurd hpos' hpos
      · by_contra hgt
        refine htakes ⟨hmore, n, hwrite, ?_, ?_⟩
        · omega
        · omega

/--
**A round keeps the cap exactly when the share is positive or no body byte is
taken.**

With a positive share a round sends no more than the time that has passed allows;
without one the length of the next part is not bounded at all, and only a socket
that takes nothing past the head keeps the cap.
-/
theorem handleSend_capKept_iff {pf : Platform} {w : World} {v : View} {out : Outcome}
    (hm : Metered v.slot) (hin : InFlight v.slot) (hs : v.slot.state = .sending)
    (hne : v.slot.throttle.tnums ≠ []) (hlen : (v.slot.http.response.length : Int) ≤ i64Max)
    (h : handleSend pf w v = .ok out) :
    CapKept w v out ↔ 0 < v.slot.throttle.maxLimit ∨ ¬ TakesBody w v.slot := by
  have hbody := (hm.sending (.inl hs) hne).1
  cases handleSend_ends h with
  | finished hall =>
      refine iff_of_true (capKept_of_same fun slot hslot => by cases hslot; rfl) (.inr ?_)
      rintro ⟨hlt, -⟩
      have hall : (v.slot.http.responseLen : Int) ≤ v.slot.http.bytesSent := of_decide_eq_true hall
      omega
  | paused hall hlimit =>
      refine iff_of_true (capKept_of_same fun slot hslot => by cases hslot; rfl) ?_
      by_cases hpos : 0 < v.slot.throttle.maxLimit
      · exact .inl hpos
      · rw [writeLimit_uncapped pf w hpos] at hlimit
        refine .inr ?_
        rintro ⟨hlt, -⟩
        have := Except.ok.inj hlimit
        omega
  | closed hwhy =>
      refine iff_of_true (capKept_of_same fun slot hslot => by cases hslot) (.inr ?_)
      rcases hwhy with hst | hfailed
      · obtain ⟨stream, hst', -⟩ := hin.written
        cases hst.symm.trans hst'
      · exact not_takesBody (by simp [hfailed])
  | blocked _ hblocked =>
      exact iff_of_true (capKept_of_same fun slot hslot => by cases hslot; rfl)
        (.inr (not_takesBody (by simp [hblocked])))
  | wrote hall hlimit _ hrem hwrite =>
      have hmore : ¬ (v.slot.http.responseLen : Int) ≤ v.slot.http.bytesSent :=
        of_decide_eq_false hall
      exact wrote_capKept_iff hin hne hbody hlen (by omega) hlimit hrem hwrite

theorem Server.SendsFrom.inFlight {pf : Platform} {cfg : ServerConfig} {s : Server} {v : View}
    (h : s.Reachable pf cfg) (hv : s.SendsFrom v) :
    Metered v.slot ∧ InFlight v.slot ∧ v.slot.state = .sending := by
  cases hv with
  | @sending k slot hk hs =>
      have hmem := Slab.mem_of_at? hk
      exact ⟨h.metered slot hmem, (h.delivering slot hmem).inFlight (.inl hs), hs⟩
  | @woken k slot hk hs =>
      have hmem := Slab.mem_of_at? hk
      exact ⟨wake_metered (v := s.view slot) (h.metered slot hmem) hs,
        wake_inFlight (v := s.view slot) ((h.delivering slot hmem).inFlight (.inr hs)), rfl⟩

/--
**In every state of every run, a round of sending keeps a connection to its rate cap
exactly when its share is positive or the socket takes no byte past the head.**  The
response is in a vector, which the language keeps to `isize::MAX` bytes.

What the round starts from is an invariant of the run, so nothing has to be assumed
of the connection but that it sends.
-/
theorem rate_cap_kept_iff {pf : Platform} {cfg : ServerConfig} {s : Server} {v : View} {w : World}
    {out : Outcome} (h : s.Reachable pf cfg) (hv : s.SendsFrom v)
    (hne : v.slot.throttle.tnums ≠ []) (hlen : (v.slot.http.response.length : Int) ≤ i64Max)
    (hout : handleSend pf w v = .ok out) :
    CapKept w v out ↔ 0 < v.slot.throttle.maxLimit ∨ ¬ TakesBody w v.slot := by
  obtain ⟨hm, hin, hs⟩ := hv.inFlight h
  exact handleSend_capKept_iff hm hin hs hne hlen hout

/-! ### One byte a second for two -/

/-- One byte a second for everything. -/
def oneByteFile : Bytes := asBytes "** 1\n".toList

/-- What `handle_send` sees of a connection. -/
def Server.viewAt (s : Server) (k : Nat) : View :=
  s.view ((s.conns.at? k).getD (ConnSlot.accepted localPeer))

theorem Server.viewAt_sends {s : Server} {k : Nat}
    (h : (s.conns.at? k).map ConnSlot.state = some .sending) : s.SendsFrom (s.viewAt k) := by
  obtain ⟨slot, hslot, hstate⟩ := Option.map_eq_some_iff.mp h
  unfold Server.viewAt
  rw [hslot]
  exact .sending hslot hstate

/-- **The second connection has a share of nothing, and sends the file.** -/
theorem zero_share_sends :
    (∀ e ∈ (ThrottleTable.load oneByteFile).getD [], 0 ≤ e.maxLimit ∧ 0 ≤ e.minLimit) ∧
    (bothAskedServer oneByteFile).RunsFrom .epoch wwwConfig (ThrottleTable.load oneByteFile) ∧
    (bothAskedServer oneByteFile).SendsFrom ((bothAskedServer oneByteFile).viewAt 1) ∧
    ((bothAskedServer oneByteFile).viewAt 1).slot.throttle.tnums ≠ [] ∧
    ((bothAskedServer oneByteFile).viewAt 1).slot.throttle.maxLimit = 0 ∧
    ∃ out, handleSend .epoch eagerWorld ((bothAskedServer oneByteFile).viewAt 1) = .ok out ∧
      ¬ CapKept eagerWorld ((bothAskedServer oneByteFile).viewAt 1) out := by
  refine ⟨by decide +kernel, bothAskedServer_runs oneByteFile (by decide +kernel) (by decide +kernel), Server.viewAt_sends (by decide +kernel),
    by decide +kernel, by decide +kernel, resultOf ((bothAskedServer oneByteFile).viewAt 1).keep
      (handleSend .epoch eagerWorld ((bothAskedServer oneByteFile).viewAt 1)),
    eq_ok_of_panicOf _ (by decide +kernel), ?_⟩
  intro hcap
  have hthree : (resultOf ((bothAskedServer oneByteFile).viewAt 1).keep (handleSend .epoch eagerWorld
      ((bothAskedServer oneByteFile).viewAt 1))).slot.map (fun slot => slot.throttle.bodyBytes) = some 3 := by
    decide +kernel
  obtain ⟨slot, hslot, hbody⟩ := Option.map_eq_some_iff.mp hthree
  have hle := hcap slot hslot
  rw [hbody] at hle
  exact absurd hle (by decide +kernel)

/-- The first had the byte a second to itself, and is held to it. -/
theorem rate_cap_kept_first :
    ∃ out, handleSend .epoch eagerWorld ((firstAskedServer oneByteFile).viewAt 0) = .ok out ∧
      CapKept eagerWorld ((firstAskedServer oneByteFile).viewAt 0) out := by
  have hout : handleSend .epoch eagerWorld ((firstAskedServer oneByteFile).viewAt 0)
      = .ok (resultOf ((firstAskedServer oneByteFile).viewAt 0).keep
          (handleSend .epoch eagerWorld ((firstAskedServer oneByteFile).viewAt 0))) :=
    eq_ok_of_panicOf _ (by decide +kernel)
  exact ⟨_, hout, (rate_cap_kept_iff ((firstAskedServer_runs oneByteFile (by decide +kernel)).reachable fun _ h => ThrottleTable.load_new h)
    (Server.viewAt_sends (by decide +kernel)) (by decide +kernel) (by decide +kernel) hout).mpr
      (.inl (by decide +kernel))⟩

end Thttpd
