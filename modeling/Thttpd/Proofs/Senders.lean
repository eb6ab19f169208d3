/-
The sender counts of the throttle table, over every run of the server.

A rule's count is the number of open connections that hold the rule.  Each handler
exchanges its own connection's claims with the table (`Settled`), so the difference
between a count and the number of holders never moves.

`Settled` is a statement about one handler and one connection: whatever the handler
adds to the count of a rule, it adds to the connection's own rules, and whatever it
takes away it takes from both.  No handler touches the rules of another connection,
so the step lemma needs nothing else, and the run lemma is an induction over the
steps of the server.
-/
import Thttpd.Proofs.Dispatch

namespace Thttpd

open Text Fs

/-! ### Handlers settle their claims

The two sides of the account are the table after the handler and the rules the
connection is left with.  Closing gives everything back; a handler that leaves the
connection alone has nothing to settle.
-/

/-- The rules a handler leaves its connection with; a closed one has none. -/
def Outcome.tnums (out : Outcome) : List Nat :=
  match out.slot with
  | some slot => slot.throttle.tnums
  | none => []

/--
A connection as it may be found: its rules are in the table, and it has none while
it is still reading.
-/
structure Orderly (throttles : Option ThrottleTable) (slot : ConnSlot) : Prop where
  entered : Entered (rulesIn throttles) slot.throttle.tnums
  reading : slot.state = .reading → slot.throttle.tnums = []

/--
The handler changed the table by what it changed of its connection's claims.  A
connection that it leaves reading has none, so nothing is forgotten when a later
request asks the table anew.
-/
structure Settled (v : View) (out : Outcome) : Prop where
  exchange : Exchange v.shared.throttles v.slot.throttle.tnums out.shared.throttles out.tnums
  reading : ∀ slot, out.slot = some slot → slot.state = .reading → slot.throttle.tnums = []

theorem closeConnection_settled {v : View} (h : Orderly v.shared.throttles v.slot) :
    Settled v (closeConnection v) := by
  refine ⟨?_, fun slot hs => by cases hs⟩
  show Exchange _ _ (if v.slot.throttle.isThrottled = true then _ else _) []
  by_cases ht : v.slot.throttle.isThrottled = true
  · rw [if_pos ht]
    exact exchange_clear h.entered
  · rw [if_neg ht]
    have hnil := isThrottled_eq_false (Bool.eq_false_iff.mpr ht)
    rw [hnil]
    exact .refl (.nil _)

/-- A connection that stays as it was in all that matters here. -/
theorem keep_settled {v u : View} (h : Orderly v.shared.throttles v.slot)
    (hthrottles : u.shared.throttles = v.shared.throttles)
    (htnums : u.slot.throttle.tnums = v.slot.throttle.tnums)
    (hstate : u.slot.state = .reading → v.slot.state = .reading) : Settled v u.keep := by
  constructor
  · show Exchange _ _ u.shared.throttles u.slot.throttle.tnums
    rw [hthrottles, htnums]
    exact .refl h.entered
  · intro slot hs hr
    cases hs
    rw [htnums]
    exact h.reading (hstate hr)

/-! ### Entering the sending state

This is the one place where rules are taken.  The table either counts a sender for
each rule it hands out, or refuses and hands out none, and the slot gets just the
rules that were counted.
-/

theorem sendingSlot_state (pf : Platform) (w : World) (slot : ConnSlot) (d : ThrottleDecision) :
    (sendingSlot pf w slot d).state = .sending := by
  cases d <;> rfl

/-- Starting the clock of a throttle leaves its other fields. -/
theorem started_keeps {α : Type} (f : ConnThrottle → α)
    (hf : ∀ w http t, f (startThrottle w http t) = f t) (starts : Bool) (w : World)
    (http : HttpConn) (t : ConnThrottle) :
    f (if starts = true then startThrottle w http t else t) = f t := by
  split
  · exact hf w http t
  · rfl

/-- The rules of a connection that starts sending: those just given, or those it had. -/
theorem sendingSlot_tnums (pf : Platform) (w : World) {slot : ConnSlot} {d : ThrottleDecision}
    (h : d ≠ .unlimited → slot.throttle.tnums = []) :
    (sendingSlot pf w slot d).throttle.tnums
      = if d = .unlimited then slot.throttle.tnums else d.tnums := by
  have hkeep := fun http => started_keeps ConnThrottle.tnums (fun _ _ _ => rfl)
    (slot.throttle.checked && slot.throttle.isThrottled) w http slot.throttle
  cases d with
  | unlimited => exact hkeep _
  | allow tnums maxLimit minLimit => rfl
  | reject => exact (hkeep _).trans (h (by simp))

theorem transitionToSending_settled {pf : Platform} {w : World} {v u v' : View} (hq : Quiet v)
    (hp : Prepared v u) (h : transitionToSending pf w u = .ok v') : Settled v v'.keep := by
  obtain ⟨⟨decision, throttles⟩, hadmitted, h⟩ := bind_eq_ok.mp h
  simp only [pure, Except.pure, Except.ok.injEq] at h
  subst h
  constructor
  · show Exchange _ _ throttles (sendingSlot pf w u.slot decision).throttle.tnums
    unfold entryDecision at hadmitted
    by_cases hask : (!u.slot.isCgi && !u.slot.throttle.checked) = true
    · rw [if_pos hask] at hadmitted
      simp only [Bool.and_eq_true, Bool.not_eq_true'] at hask
      have hnil := hp.unclaimed hask.1 hask.2
      have hex := hp.exchange
      rw [hnil, hq.tnums] at hex
      rw [sendingSlot_tnums pf w fun _ => hnil, hq.tnums]
      have hanswer := hex.trans (exchange_askThrottle pf (hex.fit hq.fit) hadmitted)
      by_cases hd : decision = .unlimited
      · rw [if_pos hd, hnil]
        rw [hd] at hanswer
        exact hanswer
      · rw [if_neg hd]
        exact hanswer
    · rw [if_neg hask] at hadmitted
      simp only [Except.ok.injEq, Prod.mk.injEq] at hadmitted
      obtain ⟨rfl, rfl⟩ := hadmitted
      rw [sendingSlot_tnums pf w (by simp), if_pos rfl]
      exact hp.exchange
  · intro slot hs hr
    cases hs
    cases (sendingSlot_state pf w u.slot decision).symm.trans hr

theorem handleRead_settled {pf : Platform} {cfg : ServerConfig} {w : World} {v : View}
    {out : Outcome} (ho : Orderly v.shared.throttles v.slot) (hs : v.slot.state = .reading)
    (hfit : SendersFit v.shared.throttles)
    (h : handleRead pf cfg w v = .ok out) : Settled v out := by
  have hq : Quiet v := ⟨ho.reading hs, hfit⟩
  rcases handleRead_cases hq h with rfl | ⟨v', rfl, ha⟩ | ⟨v', rfl, u, hp, hu⟩
  · exact closeConnection_settled ho
  · exact keep_settled ho ha.throttles (by rw [ha.throttle]) (fun hr => ha.state ▸ hr)
  · exact transitionToSending_settled hq hp hu

/-! ### Sending

From here on rules are only ever given back, all at once, when the connection is
closed.  Charging bytes and starting a pause change rates and clocks, and neither is
a claim.
-/

/-- Charging the body moves no claim. -/
theorem chargeBody_exchange {v : View} (w : World) (sentBefore : Int)
    (h : Entered (rulesIn v.shared.throttles) v.slot.throttle.tnums) :
    Exchange v.shared.throttles v.slot.throttle.tnums
      (chargeBody w v sentBefore).shared.throttles
      (chargeBody w v sentBefore).slot.throttle.tnums := by
  unfold chargeBody
  simp only
  split
  · exact exchange_addBytes _ _ h
  · exact .refl h

theorem chargeBody_state (w : World) (v : View) (sentBefore : Int) :
    (chargeBody w v sentBefore).slot.state = v.slot.state := by
  unfold chargeBody
  simp only
  split <;> rfl

theorem afterWrite_shared (w : World) (v : View) (stream : Stream) (chunk : Bytes) :
    (afterWrite w v stream chunk).shared
      = (chargeBody w (countWritten v stream chunk) v.slot.http.bytesSent).shared := by
  unfold afterWrite
  simp only
  split <;> rfl

/-- Writing calls no program. -/
theorem afterWrite_calls (w : World) (v : View) (stream : Stream) (chunk : Bytes) :
    (afterWrite w v stream chunk).shared.cgiCalls = v.shared.cgiCalls := by
  rw [afterWrite_shared]
  unfold chargeBody
  simp only
  split <;> rfl

/-- After a write the connection lingers or goes on as before. -/
theorem afterWrite_state {w : World} {v : View} {stream : Stream} {chunk : Bytes} {slot : ConnSlot}
    (h : (afterWrite w v stream chunk).slot = some slot) :
    slot.state = .lingering ∨ slot.state = v.slot.state := by
  unfold afterWrite at h
  simp only at h
  split at h
  · cases h
    exact .inl rfl
  · cases h
    exact .inr (chargeBody_state w (countWritten v stream chunk) v.slot.http.bytesSent)

theorem afterWrite_settled {w : World} {v : View} {stream : Stream} (chunk : Bytes)
    (ho : Orderly v.shared.throttles v.slot) (hs : v.slot.state = .sending) :
    Settled v (afterWrite w v stream chunk) := by
  have hex := chargeBody_exchange (v := countWritten v stream chunk) w v.slot.http.bytesSent
    ho.entered
  refine ⟨?_, ?_⟩
  · unfold afterWrite
    simp only
    split
    · exact hex
    · exact hex
  · intro slot hslot hr
    rcases afterWrite_state hslot with hstate | hstate
    · cases hstate.symm.trans hr
    · cases (hstate.trans hs).symm.trans hr

theorem handleSend_settled {pf : Platform} {w : World} {v : View} {out : Outcome}
    (ho : Orderly v.shared.throttles v.slot) (hs : v.slot.state = .sending)
    (h : handleSend pf w v = .ok out) : Settled v out := by
  cases handleSend_ends h with
  | finished _ => exact keep_settled ho rfl rfl (fun hr => by cases hr)
  | paused _ _ => exact keep_settled ho rfl rfl (fun hr => by cases hr)
  | closed => exact closeConnection_settled ho
  | blocked _ _ => exact keep_settled ho rfl rfl id
  | wrote => exact afterWrite_settled _ ho hs

theorem wake_tnums (v : View) : (wake v).slot.throttle.tnums = v.slot.throttle.tnums := by
  unfold wake refreshShare
  cases v.shared.throttles <;> rfl

theorem wake_orderly {v : View} (ho : Orderly v.shared.throttles v.slot) :
    Orderly (wake v).shared.throttles (wake v).slot :=
  ⟨by rw [wake_tnums]; exact ho.entered, fun hr => by cases hr⟩

/-- A handler that starts from the woken connection settles the paused one too. -/
theorem Settled.of_wake {v : View} {out : Outcome} (h : Settled (wake v) out) :
    Settled v out := by
  refine ⟨?_, h.reading⟩
  have hex := h.exchange
  rw [wake_tnums] at hex
  exact hex

theorem handlePause_settled {pf : Platform} {w : World} {v : View} {out : Outcome}
    (ho : Orderly v.shared.throttles v.slot) (h : handlePause pf w v = .ok out) :
    Settled v out := by
  cases handlePause_ends h with
  | waits => exact keep_settled ho rfl rfl id
  | closed => exact (closeConnection_settled (wake_orderly ho)).of_wake
  | woke h => exact (handleSend_settled (wake_orderly ho) rfl h).of_wake

/--
**Every event settles its claims.**

By the state the event finds the connection in.
-/
theorem handleConnectionEvent_settled {pf : Platform} {cfg : ServerConfig} {w : World}
    {v : View} {out : Outcome} (ho : Orderly v.shared.throttles v.slot)
    (hfit : SendersFit v.shared.throttles)
    (h : handleConnectionEvent pf cfg w v = .ok out) : Settled v out := by
  cases handleConnectionEvent_ends h with
  | reading hs h => exact handleRead_settled ho hs hfit h
  | sending hs h => exact handleSend_settled ho hs h
  | pausing _ h => exact handlePause_settled ho h
  | lingering _ => exact closeConnection_settled ho
  | free _ => exact keep_settled ho rfl rfl id

/-! ### The server

What one handler does is one entry of the slab exchanged for another, and the number
of holders changes by the difference of the two.  New connections hold nothing, and a
tick changes neither a count nor a claim.
-/

/-- Whether a connection holds rule `t`. -/
def ConnSlot.holds (t : Nat) (slot : ConnSlot) : Bool := slot.throttle.tnums.contains t

/-- The number of open connections that hold rule `t`. -/
def Server.holders (s : Server) (t : Nat) : Nat := s.conns.count (ConnSlot.holds t)

/--
The invariant: counts are numbers of holders, every connection is orderly, and there
are not too many of them.
-/
structure Counted (s : Server) : Prop where
  count : ∀ t, sendersIn s.shared.throttles t = s.holders t
  orderly : ∀ slot, some slot ∈ s.conns → Orderly s.shared.throttles slot
  room : s.conns.len ≤ maxConnections

/-- No count comes near the end of `i64`. -/
theorem Counted.fit {s : Server} (h : Counted s) : SendersFit s.shared.throttles := by
  intro t
  rw [h.count t]
  have hholders : s.holders t ≤ maxConnections := Nat.le_trans (Slab.count_le_len _ _) h.room
  unfold maxConnections at hholders
  unfold i64Max
  omega

theorem claims_eq_toNat (slot : ConnSlot) (t : Nat) :
    claims slot.throttle.tnums t = ((slot.holds t).toNat : Int) := by
  unfold claims ConnSlot.holds
  by_cases ht : t ∈ slot.throttle.tnums <;> simp [ht]

theorem claims_outcome (out : Outcome) (t : Nat) :
    claims out.tnums t = ((out.slot.any (ConnSlot.holds t)).toNat : Int) := by
  unfold Outcome.tnums
  cases out.slot with
  | none => simp [claims]
  | some slot => exact claims_eq_toNat slot t

/-- A handler that settles keeps the invariant. -/
theorem Counted.after {s : Server} {k : Nat} {slot : ConnSlot} {out : Outcome} (h : Counted s)
    (hk : s.conns.at? k = some slot) (hset : Settled (s.view slot) out) :
    Counted (s.after k out) := by
  have hex : Exchange s.shared.throttles slot.throttle.tnums out.shared.throttles out.tnums :=
    hset.exchange
  constructor
  · intro t
    have hs := hex.senders t
    have hc := Slab.count_update (ConnSlot.holds t) hk out.slot
    have h0 : sendersIn s.shared.throttles t = (s.conns.count (ConnSlot.holds t) : Nat) :=
      h.count t
    rw [claims_eq_toNat, claims_outcome] at hs
    show sendersIn out.shared.throttles t
      = (Slab.count (ConnSlot.holds t) (s.conns.update k out.slot) : Nat)
    omega
  rotate_left
  · exact Nat.le_trans (Slab.len_update hk out.slot) h.room
  · refine Slab.forall_update ?_ ?_
    · intro a ha
      obtain ⟨hent, hread⟩ := h.orderly a ha
      refine ⟨?_, hread⟩
      show Entered (rulesIn out.shared.throttles) _
      rw [hex.rules]
      exact hent
    · intro a ha
      refine ⟨?_, hset.reading a ha⟩
      have hent := hex.entered
      unfold Outcome.tnums at hent
      rw [ha] at hent
      exact hent

theorem Counted.accept {s : Server} {k : Nat} {peer : PeerAddr} (h : Counted s)
    (hroom : s.conns.len < maxConnections) (hk : s.conns.Vacant k) :
    Counted (s.accept k peer) := by
  constructor
  · intro t
    show sendersIn s.shared.throttles t
      = (Slab.count (ConnSlot.holds t) (s.conns.put k (ConnSlot.accepted peer)) : Nat)
    rw [Slab.count_put (ConnSlot.holds t) hk, h.count t]
    rfl
  · exact Slab.forall_put h.orderly ⟨.nil _, fun _ => rfl⟩
  · show Slab.len (s.conns.put k (ConnSlot.accepted peer)) ≤ maxConnections
    rw [Slab.len_put hk]
    omega

theorem tickSlot_tnums (shared : Shared) (w : World) (slot : ConnSlot) :
    (tickSlot shared w slot).throttle.tnums = slot.throttle.tnums := by
  unfold tickSlot
  split
  · split
    · exact wake_tnums _
    · rfl
  · rfl

theorem tickSlot_reading {shared : Shared} {w : World} {slot : ConnSlot}
    (h : (tickSlot shared w slot).state = .reading) : slot.state = .reading := by
  unfold tickSlot at h
  split at h
  · split at h
    · cases h
    · exact h
  · exact h

theorem tickTable_senders {pf : Platform} {ts ts' : Option ThrottleTable}
    (h : tickTable pf ts = .ok ts') :
    rulesIn ts' = rulesIn ts ∧ ∀ t, sendersIn ts' t = sendersIn ts t := by
  cases ts with
  | none =>
      cases h
      exact ⟨rfl, fun _ => rfl⟩
  | some table =>
      obtain ⟨table', havg, h⟩ := bind_eq_ok.mp h
      cases h
      exact updateAverages_senders havg

theorem Counted.tick {pf : Platform} {w : Nat → World} {s s' : Server} (h : Counted s)
    (ht : tick pf w s = .ok s') : Counted s' := by
  obtain ⟨throttles, hup, ht⟩ := bind_eq_ok.mp ht
  simp only [pure, Except.pure, Except.ok.injEq] at ht
  subst ht
  have hsame := tickTable_senders hup
  constructor
  · intro t
    show sendersIn throttles t = (Slab.count (ConnSlot.holds t) (s.conns.mapEntries _) : Nat)
    rw [hsame.2 t, h.count t, Slab.count_mapEntries]
    · rfl
    · intro k slot
      unfold ConnSlot.holds
      rw [tickSlot_tnums]
  · refine Slab.forall_mapEntries ?_
    intro k slot hslot
    obtain ⟨hent, hread⟩ := h.orderly slot hslot
    constructor
    · rw [tickSlot_tnums]
      show Entered (rulesIn throttles) _
      rw [hsame.1]
      exact hent
    · intro hr
      rw [tickSlot_tnums]
      exact hread (tickSlot_reading hr)
  · show Slab.len (s.conns.mapEntries _) ≤ maxConnections
    rw [Slab.len_mapEntries]
    exact h.room

/-- An event is handled, or there is nothing to handle. -/
theorem Counted.event {pf : Platform} {cfg : ServerConfig} {w : World} {k : Nat} {s s' : Server}
    (h : Counted s) (hev : s' = s ∨ ∃ slot out, s.conns.at? k = some slot ∧
      handleConnectionEvent pf cfg w (s.view slot) = .ok out ∧ s' = s.after k out) :
    Counted s' := by
  rcases hev with rfl | ⟨slot, out, hk, hout, rfl⟩
  · exact h
  · exact h.after hk (handleConnectionEvent_settled (h.orderly _ (Slab.mem_of_at? hk)) h.fit hout)

/-- **One step of the server keeps the counts.** -/
theorem Counted.step {pf : Platform} {cfg : ServerConfig} {s s' : Server} (h : Counted s)
    (hstep : Step pf cfg s s') : Counted s' := by
  cases hstep with
  | accept peer _ hroom hvac => exact h.accept hroom hvac
  | event w k hev => exact h.event (Server.event_cases hev)
  | resume w k hev => exact h.event (Server.resume_cases cfg hev)
  | tick w ht => exact h.tick ht
  | drain => exact ⟨h.count, h.orderly, h.room⟩

theorem Counted.init {s : Server} (h : s.Init) : Counted s := by
  constructor
  · intro t
    unfold Server.holders
    rw [h.noConns]
    unfold sendersIn
    split
    · rename_i table htable
      unfold ThrottleTable.senders
      split
      · rename_i e he
        obtain ⟨p, mx, mn, rfl⟩ := h.newTable table htable e (List.mem_of_getElem? he)
        rfl
      · rfl
    · rfl
  · intro slot hs
    rw [h.noConns] at hs
    cases hs
  · rw [h.noConns]
    exact Nat.zero_le _

theorem Server.Reachable.counted {pf : Platform} {cfg : ServerConfig} {s : Server}
    (h : s.Reachable pf cfg) : Counted s :=
  Lts.Reachable.invariant Counted h (fun _ => .init) (fun _ _ hc hs => hc.step hs)

/--
**What every handler keeps of a connection holds of every connection in every state
of every run.**

This is the induction over runs that most invariants of single connections use: what
has to be shown is that a new connection has the property, and that a handler and a
tick keep it.
-/
theorem Server.Reachable.slots {pf : Platform} {cfg : ServerConfig} {P : ConnSlot → Prop}
    (haccept : ∀ peer, P (ConnSlot.accepted peer))
    (hevent : ∀ (w : World) (v : View) (out : Outcome), Orderly v.shared.throttles v.slot →
      SendersFit v.shared.throttles → P v.slot →
      handleConnectionEvent pf cfg w v = .ok out → ∀ slot, out.slot = some slot → P slot)
    (htick : ∀ shared w slot, P slot → P (tickSlot shared w slot)) {s : Server}
    (h : s.Reachable pf cfg) : ∀ slot, some slot ∈ s.conns → P slot := by
  have hboth : Counted s ∧ ∀ slot, some slot ∈ s.conns → P slot := by
    refine Lts.Reachable.invariant (fun s => Counted s ∧ ∀ slot, some slot ∈ s.conns → P slot) h
      (fun s hs => ⟨.init hs, ?_⟩) (fun s s' hi hstep => ⟨hi.1.step hstep, ?_⟩)
    · intro slot hslot
      rw [hs.noConns] at hslot
      cases hslot
    · obtain ⟨hc, hi⟩ := hi
      rcases hstep.cases with ⟨k, peer, -, rfl⟩ | ⟨w, k, slot, out, hk, hout, rfl⟩ | ⟨w, ht⟩ |
        ⟨-, hconns⟩
      · exact Slab.forall_put hi (haccept peer)
      · have hmem := Slab.mem_of_at? hk
        exact Slab.forall_update hi
          (hevent w (s.view slot) out (hc.orderly slot hmem) hc.fit (hi slot hmem) hout)
      · obtain ⟨throttles, -, ht⟩ := bind_eq_ok.mp ht
        cases ht
        exact Slab.forall_mapEntries fun k slot hslot => htick _ _ slot (hi slot hslot)
      · rw [hconns]
        exact hi
  exact hboth.2

/--
**In every state of every run, the count of a rule is the number of open connections
that hold it**, so it is never negative, and it is zero when there are none.

The count is an `i64` that is moved by one at a time, from several places, and never
set; that it is right in every state is a statement about all of these places at
once.
-/
theorem sender_counts_conserved {pf : Platform} {cfg : ServerConfig} {s : Server}
    (h : s.Reachable pf cfg) {table : ThrottleTable} (htable : s.shared.throttles = some table)
    {t : Nat} {e : ThrottleEntry} (he : table[t]? = some e) :
    e.numSending = s.holders t ∧ 0 ≤ e.numSending ∧ (s.holders t = 0 → e.numSending = 0) := by
  have hcount := h.counted.count t
  have hsend : sendersIn s.shared.throttles t = e.numSending := by
    simp [htable, sendersIn, ThrottleTable.senders, he]
  rw [hsend] at hcount
  refine ⟨hcount, by omega, fun h0 => by omega⟩

/-! ### A connection under a rule

One client that asked for a file, under a rule for every name.
-/

/-- A thousand bytes a second for everything. -/
def ruleForAll : ThrottleTable := [ThrottleEntry.new "**".toList 1000 0]

/-- A server whose one connection asked for a file under that rule. -/
def sendingServer : Server :=
  resultOf (Server.start none) ((Server.first (some ruleForAll)).event .epoch wwwConfig
    { World.still (wwwTree [("f.txt".toList, plainFile [1, 2, 3])]) with
      read := .data (asBytes "GET /f.txt HTTP/1.0\r\n\r\n".toList) } 0)

theorem sendingServer_reachable : sendingServer.Reachable .epoch wwwConfig := by
  have hfirst : (Server.first (some ruleForAll)).Reachable .epoch wwwConfig := by
    refine Server.first_reachable _ _ ?_
    intro table ht e he
    cases ht
    rw [List.mem_singleton.mp he]
    exact ⟨_, _, _, rfl⟩
  exact hfirst.tail (.event _ 0 (eq_ok_of_panicOf _ (by decide +kernel)))

/-- The count of its rule is one. -/
theorem sender_counts_conserved_sample :
    ∃ table e, sendingServer.shared.throttles = some table ∧ table[0]? = some e ∧
      sendingServer.holders 0 = 1 ∧ e.numSending = 1 := by
  have htable : (sendingServer.shared.throttles.bind fun table => table[0]?).isSome := by
    decide +kernel
  have hone : sendingServer.holders 0 = 1 := by decide +kernel
  obtain ⟨e, he⟩ := Option.isSome_iff_exists.mp htable
  obtain ⟨table, ht, he⟩ := Option.bind_eq_some_iff.mp he
  refine ⟨table, e, ht, he, hone, ?_⟩
  rw [(sender_counts_conserved sendingServer_reachable ht he).1, hone]
  rfl

/-! ### Two connections under a rule

And two of them, so that the rule is held twice and its share is half of it.
-/

/-- A world with a file of three bytes, where a request for it arrives. -/
def threeByteWorld : World :=
  { World.still (wwwTree [("f.txt".toList, plainFile [1, 2, 3])]) with
    read := .data (asBytes "GET /f.txt HTTP/1.0\r\n\r\n".toList) }

/-- A socket that takes everything. -/
def eagerWorld : World := { World.still (wwwTree []) with write := .accepted 1000 }

/-- Two connections under the rules of a file. -/
def twoServer (content : Bytes) : Server :=
  (Server.first (ThrottleTable.load content)).accept 1 localPeer

/-- The first has asked for the three bytes. -/
def firstAskedServer (content : Bytes) : Server :=
  resultOf (Server.start none) ((twoServer content).event .epoch wwwConfig threeByteWorld 0)

/-- Both have. -/
def bothAskedServer (content : Bytes) : Server :=
  resultOf (Server.start none) ((firstAskedServer content).event .epoch wwwConfig threeByteWorld 1)

section

variable (content : Bytes)

theorem firstAskedServer_runs
    (h : panicOf ((twoServer content).event .epoch wwwConfig threeByteWorld 0) = none) :
    (firstAskedServer content).RunsFrom .epoch wwwConfig (ThrottleTable.load content) := by
  have hstart : (Server.start (ThrottleTable.load content)).RunsFrom .epoch wwwConfig
      (ThrottleTable.load content) := Lts.Reachable.start rfl
  have hfirst : (Server.first (ThrottleTable.load content)).RunsFrom .epoch wwwConfig
      (ThrottleTable.load content) :=
    hstart.tail (.accept localPeer rfl (by decide : 0 < 4096) ⟨Nat.le_refl 0, rfl⟩)
  have htwo : (twoServer content).RunsFrom .epoch wwwConfig (ThrottleTable.load content) :=
    hfirst.tail (.accept localPeer rfl (by decide : 1 < 4096) ⟨Nat.le_refl 1, rfl⟩)
  exact htwo.tail (.event threeByteWorld 0 (eq_ok_of_panicOf _ h))

theorem bothAskedServer_runs
    (h : panicOf ((twoServer content).event .epoch wwwConfig threeByteWorld 0) = none)
    (h' : panicOf ((firstAskedServer content).event .epoch wwwConfig threeByteWorld 1) = none) :
    (bothAskedServer content).RunsFrom .epoch wwwConfig (ThrottleTable.load content) :=
  (firstAskedServer_runs content h).tail (.event threeByteWorld 1 (eq_ok_of_panicOf _ h'))

end

end Thttpd
