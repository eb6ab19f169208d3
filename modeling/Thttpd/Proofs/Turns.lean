/-
What holds over the turns of the main loop.

A connection that waits is never forgotten: it is registered for the event its state waits
for, or it is paused and the poll does not sleep past its deadline.  Once the server drains
nobody new gets in, and the loop ends when the last connection does.

The four results are about the loop as it runs, and about no single handler.  Each is
assembled from what `MainLoop` says of the registry and from a step lemma of its
own: `RestsPast` for the pauses, `Tallied` for the counters, `Closes` for a drain.
They are tried on one connection that comes while the server serves and hangs up
while it drains.
-/
import Thttpd.Proofs.MainLoop

namespace Thttpd

open Text Fs

/-! ### A connection that comes, and hangs up while the server drains

Four states of one loop, each reached from the one before by a turn that is written
out.  They satisfy the hypotheses of every result below.
-/

namespace Loop

/-- One listener, and nobody yet. -/
def listening : Loop :=
  ⟨Server.start none, Registry.empty.put 0 (some .readable), 0, none⟩

/-- The first connection. -/
def greeted : Loop :=
  { listening with
    server := Server.first none
    registry := listening.registry.put (connToken 0) (some .readable) }

/-- SIGUSR1 arrived. -/
def leaving : Loop := greeted.startDrain 1

/-- The connection is closed. -/
def gone : Loop :=
  { leaving with
    server := { leaving.server with conns := [none] }
    registry := leaving.registry.put (connToken 0) none }

def hangUpWorld : World := { World.still (wwwTree []) with read := .data [] }

/-- The loop starts here. -/
theorem listening_reachable : listening.Reachable .epoch wwwConfig 1 :=
  .start ⟨⟨none, .inl rfl, rfl⟩, rfl, rfl⟩

/-- The poll returned the listener's event, and a connection was accepted. -/
theorem greeted_reachable : greeted.Reachable .epoch wwwConfig 1 := by
  have hpolled : ∀ t ∈ [0], listening.registry t ≠ none := by
    intro t ht
    rw [List.mem_singleton.mp ht]
    rintro ⟨⟩
  have haccept : Accept listening greeted :=
    .accepting rfl (.taken localPeer (by decide : 0 < 4096) ⟨Nat.le_refl 0, rfl⟩ rfl .done)
  have haccepts : Accepts 1 [0] listening greeted := .listener rfl (by decide) haccept .nil
  have htick : greeted.tick .epoch 0 (fun _ => hangUpWorld) = .ok greeted := rfl
  exact listening_reachable.tail
    (.served 0 rfl (.intro _ .quiet hpolled haccepts (.listener rfl .nil) .nil htick))

theorem leaving_reachable : leaving.Reachable .epoch wwwConfig 1 :=
  greeted_reachable.tail (.interrupted rfl (.drain rfl rfl))

/-- While the server drains, the client hangs up, and its connection is closed. -/
theorem leaving_hangs_up : Served .epoch wwwConfig 1 0 leaving (gone.finish .stopped) := by
  have hpolled : ∀ t ∈ [connToken 0], leaving.registry t ≠ none := by
    intro t ht
    rw [List.mem_singleton.mp ht]
    rintro ⟨⟩
  have hevents : Events .epoch wwwConfig [connToken 0] leaving gone :=
    .connection hangUpWorld rfl rfl .nil
  have htick : gone.tick .epoch 0 (fun _ => hangUpWorld) = .ok gone := rfl
  exact .intro _ .quiet hpolled (.other (by decide) .nil) hevents .nil htick

end Loop

/-! ### The least of the deadlines

The poll is given the time until the next pause ends as its timeout.  That it is not
late for any of them is the part of `no_connection_forgotten` that the registry
cannot give.
-/

namespace Loop

/-- The smallest deadline is at or before each. -/
theorem least_le {ns : List Nat} {n : Nat} (h : n ∈ ns) : ∃ m, least ns = some m ∧ m ≤ n := by
  induction ns with
  | nil => cases h
  | cons a ns ih =>
      rw [least]
      rcases List.mem_cons.mp h with rfl | hmem
      · cases least ns with
        | none => exact ⟨n, rfl, Nat.le_refl n⟩
        | some m => exact ⟨min n m, rfl, Nat.min_le_left n m⟩
      · obtain ⟨m, hm, hle⟩ := ih hmem
        simp only [hm]
        exact ⟨min a m, rfl, Nat.le_trans (Nat.min_le_right a m) hle⟩

/-- The poll does not sleep past the deadline of a paused connection. -/
theorem timeout_le {l : Loop} {k : Nat} {slot : ConnSlot} {deadline : Nat}
    (hk : l.server.conns.at? k = some slot) (hs : slot.state = .pausing)
    (hd : slot.throttle.pauseUntil = some deadline) (pauseNow updateNow : Nat) :
    l.timeout pauseNow updateNow ≤ deadline - pauseNow := by
  have hin : deadline - pauseNow ∈ (l.server.conns.filterMap fun o => o.bind fun slot =>
      if slot.state = .pausing then slot.throttle.pauseUntil else none).map (· - pauseNow) := by
    refine List.mem_map.mpr ⟨deadline, List.mem_filterMap.mpr ⟨some slot, Slab.mem_of_at? hk, ?_⟩, rfl⟩
    rw [Option.bind_some, if_pos hs]
    exact hd
  obtain ⟨n, hn, hle⟩ := least_le hin
  have hmem : n ∈ (l.nextPauseDeadline pauseNow).toList ++
      (l.nextThrottleDeadline updateNow).toList := by
    unfold nextPauseDeadline
    rw [hn]
    exact List.mem_append_left _ (List.mem_singleton.mpr rfl)
  obtain ⟨m, hm, hmn⟩ := least_le hmem
  unfold timeout
  rw [hm]
  exact Nat.le_trans hmn hle

end Loop

/--
**No connection is forgotten.**  In every state the loop can be in, what is
registered is a listener of a server that does not drain, or an open connection, for
the event its state waits for; every listener of a server that does not drain is
registered; and every open connection is, or it is paused until a deadline that the
poll does not sleep past.

Both directions are needed: an entry that stays behind would wake the loop for
nobody, and a connection without an entry and without a deadline would never be
served again.
-/
theorem no_connection_forgotten {pf : Platform} {cfg : ServerConfig} {listeners : Nat} {l : Loop}
    (h : l.Reachable pf cfg listeners) :
    (∀ t e, l.registry t = some e →
      (t < listeners ∧ l.server.draining = false ∧ e = .readable) ∨
      ∃ k slot, t = connToken k ∧ l.server.conns.at? k = some slot ∧
        slot.state.interest = some e) ∧
    (∀ t < listeners, l.server.draining = false → l.registry t = some .readable) ∧
    (∀ k slot, l.server.conns.at? k = some slot →
      (∃ e, slot.state.interest = some e ∧ l.registry (connToken k) = some e) ∨
      (slot.state = .pausing ∧ l.registry (connToken k) = none ∧
        ∃ deadline, slot.throttle.pauseUntil = some deadline ∧
          ∀ pauseNow updateNow, l.timeout pauseNow updateNow ≤ deadline - pauseNow)) := by
  have hr := h.registered
  refine ⟨?_, ?_, ?_⟩
  · intro t e ht
    by_cases hlt : t < maxListeners
    · rw [hr.listening t hlt] at ht
      split at ht
      · rename_i hopen
        cases ht
        exact .inl ⟨hopen.1, hopen.2, rfl⟩
      · cases ht
    · have htoken : t = connToken (t - connBase) :=
        (Nat.add_sub_cancel' (Nat.le_of_not_lt hlt)).symm
      rw [htoken, hr.follows] at ht
      obtain ⟨slot, hk, hinterest⟩ := Option.bind_eq_some_iff.mp ht
      exact .inr ⟨_, slot, htoken, hk, hinterest⟩
  · intro t ht hopen
    rw [hr.listening t (Nat.lt_of_lt_of_le ht hr.bound), if_pos ⟨ht, hopen⟩]
  · intro k slot hk
    have ha := h.server.awake slot (Slab.mem_of_at? hk)
    have hentry := hr.follows k
    rw [hk] at hentry
    cases hs : slot.state with
    | pausing =>
        obtain ⟨deadline, hd⟩ := Option.isSome_iff_exists.mp (ha.deadline hs)
        exact .inr ⟨rfl, hentry.trans (entryFor_some hs), deadline, hd, Loop.timeout_le hk hs hd⟩
    | free => exact absurd hs ha.notFree
    | reading => exact .inl ⟨.readable, rfl, hentry.trans (entryFor_some hs)⟩
    | sending => exact .inl ⟨.writable, rfl, hentry.trans (entryFor_some hs)⟩
    | lingering => exact .inl ⟨.readable, rfl, hentry.trans (entryFor_some hs)⟩

theorem greeted_not_forgotten :
    Loop.greeted.registry 0 = some .readable ∧
      ∃ e, ConnState.interest .reading = some e ∧ Loop.greeted.registry (connToken 0) = some e := by
  obtain ⟨-, hlisteners, hconns⟩ := no_connection_forgotten Loop.greeted_reachable
  refine ⟨hlisteners 0 (by decide) rfl, ?_⟩
  rcases hconns 0 (ConnSlot.accepted localPeer) rfl with hwaits | ⟨hpauses, -⟩
  · exact hwaits
  · cases hpauses

/-! ### Paused connections

A turn reads the clock once and resumes whoever's deadline has come by then.  A
connection that is paused afterwards was not found ready, or was paused again by a
handler of this turn, and a handler never pauses until a time that has passed.
-/

/-- If it is paused, then until after `now`. -/
def RestsPast (now : Nat) (slot : ConnSlot) : Prop :=
  slot.state = .pausing → ∃ deadline, slot.throttle.pauseUntil = some deadline ∧ now < deadline

section Pauses

variable {pf : Platform} {w : World} {v : View} {out : Outcome} {now : Nat}

theorem RestsPast.of_state {slot : ConnSlot} (h : slot.state ≠ .pausing) : RestsPast now slot :=
  fun hs => absurd hs h

/-- A write that is to pause pauses for a second from its own time on. -/
theorem handleSend_rests (hnow : now ≤ w.now) (hs : v.slot.state = .sending)
    (h : handleSend pf w v = .ok out) {slot : ConnSlot} (hslot : out.slot = some slot) :
    RestsPast now slot := by
  cases handleSend_ends h with
  | finished _ =>
      cases hslot
      exact .of_state (by rintro ⟨⟩)
  | paused _ _ =>
      cases hslot
      exact fun _ => ⟨w.now + nanosPerSec, rfl, Nat.lt_of_le_of_lt hnow (Nat.lt_add_of_pos_right (by decide))⟩
  | closed _ => cases hslot
  | blocked _ _ =>
      cases hslot
      refine .of_state ?_
      rw [hs]
      rintro ⟨⟩
  | wrote =>
      refine .of_state ?_
      rcases afterWrite_state hslot with hl | hk
      · rw [hl]
        rintro ⟨⟩
      · rw [hk, hs]
        rintro ⟨⟩

/-- A pause that is not over stays as it is, and one that is over goes on with a write. -/
theorem handlePause_rests (hnow : now ≤ w.now) (h : handlePause pf w v = .ok out) {slot : ConnSlot}
    (hslot : out.slot = some slot) : RestsPast now slot := by
  unfold handlePause at h
  split at h
  · rename_i hover
    cases h
    cases hslot
    unfold pauseOver at hover
    intro _
    cases hd : v.slot.throttle.pauseUntil with
    | none => simp only [hd, Bool.not_true, Bool.false_eq_true] at hover
    | some deadline =>
        simp only [hd, Bool.not_eq_true', decide_eq_false_iff_not, Nat.not_le] at hover
        exact ⟨deadline, rfl, Nat.lt_of_le_of_lt hnow hover⟩
  · simp only at h
    split at h
    · cases h
      cases hslot
    · exact handleSend_rests (v := wake v) hnow rfl h hslot

end Pauses

namespace Loop

section Resuming

variable {pf : Platform} {l l' : Loop} {now k : Nat}

/-- A connection that was looked at rests, and the others are as they were. -/
theorem resume_rests {w : World} (hnow : now ≤ w.now) (h : l.resume pf w k = .ok l') :
    (∀ slot, l'.server.conns.at? k = some slot → RestsPast now slot) ∧
      ∀ j, j ≠ k → l'.server.conns.at? j = l.server.conns.at? j := by
  unfold resume at h
  split at h
  · rename_i slot hk
    split at h
    · obtain ⟨out, hout, h⟩ := bind_eq_ok.mp h
      cases h
      refine ⟨fun slot' hslot' => ?_, fun j hj => Slab.at?_update_ne hj _⟩
      exact handlePause_rests hnow hout ((Slab.at?_update hk _).symm.trans hslot')
    · rename_i hs
      cases h
      refine ⟨fun slot' hslot' => .of_state ?_, fun _ _ => rfl⟩
      rw [hk, Option.some.injEq] at hslot'
      rwa [← hslot']
  · rename_i hk
    cases h
    refine ⟨fun slot' hslot' => ?_, fun _ _ => rfl⟩
    rw [hk] at hslot'
    cases hslot'

theorem Resumes.rests {ks : List Nat} (h : Resumes pf now ks l l')
    (hrest : k ∈ ks ∨ ∀ slot, l.server.conns.at? k = some slot → RestsPast now slot) :
    ∀ slot, l'.server.conns.at? k = some slot → RestsPast now slot := by
  induction h with
  | nil => exact hrest.resolve_left List.not_mem_nil
  | @cons m m₁ m₂ j js w hnow hresume _ ih =>
      obtain ⟨hthis, hothers⟩ := resume_rests hnow hresume
      apply ih
      by_cases hj : k = j
      · subst hj
        exact .inr hthis
      · rcases hrest with hmem | hold
        · exact .inl ((List.mem_cons.mp hmem).resolve_left hj)
        · rw [hothers k hj]
          exact .inr hold

/-- Whoever is not found ready rests. -/
theorem rests_of_not_ready {slot : ConnSlot} (hk : l.server.conns.at? k = some slot)
    (hnot : k ∉ l.readyKeys now) : RestsPast now slot := by
  intro hs
  by_contra hnone
  refine hnot (List.mem_filter.mpr ⟨List.mem_range.mpr ?_, ?_⟩)
  · exact (List.getElem?_eq_some_iff.mp (Slab.at?_eq_some.mp hk)).1
  · rw [hk, Option.any_some, hs]
    cases hd : slot.throttle.pauseUntil with
    | none => rfl
    | some deadline =>
        have hle : deadline ≤ now := Nat.le_of_not_lt fun hlt => hnone ⟨deadline, hd, hlt⟩
        simp only [hle, decide_true]
        rfl

/-- The periodic update wakes, and sets no deadline. -/
theorem tick_rests {tickNow : Nat} {w : Nat → World} (h : l.tick pf tickNow w = .ok l')
    (hrest : ∀ slot, l.server.conns.at? k = some slot → RestsPast now slot) :
    ∀ slot, l'.server.conns.at? k = some slot → RestsPast now slot := by
  unfold tick at h
  split at h
  · obtain ⟨server, hserver, h⟩ := bind_eq_ok.mp h
    cases h
    obtain ⟨throttles, -, hserver⟩ := bind_eq_ok.mp hserver
    cases hserver
    intro slot' hslot'
    have hmap := (Slab.at?_mapEntries _ l.server.conns k).symm.trans hslot'
    obtain ⟨slot, hk, rfl⟩ := Option.map_eq_some_iff.mp hmap
    unfold tickSlot
    split
    · split
      · exact .of_state (by rintro ⟨⟩)
      · exact hrest slot hk
    · exact hrest slot hk
  · cases h
    exact hrest

end Resuming

/--
**A pause ends in the first turn that looks after its deadline.**  After a turn that
looked for paused connections at `now`, whoever is paused is paused until later.

The handlers may pause a connection again in the same turn, and then its deadline is
a new one.
-/
theorem no_pause_outlives_turn {pf : Platform} {cfg : ServerConfig} {listeners now : Nat}
    {l l' : Loop} (h : Served pf cfg listeners now l l') {k : Nat} {slot : ConnSlot}
    (hk : l'.server.conns.at? k = some slot) (hs : slot.state = .pausing) :
    ∃ deadline, slot.throttle.pauseUntil = some deadline ∧ now < deadline := by
  obtain ⟨w, -, -, -, -, hresumes, htick⟩ := h
  rw [finishIfDrained_server] at hk
  refine tick_rests htick (hresumes.rests ?_) slot hk hs
  refine or_iff_not_imp_left.mpr fun hready slot' hslot' => ?_
  exact rests_of_not_ready hslot' hready

end Loop

namespace Loop

/-- A connection without a response, paused until then. -/
def sleeper (deadline : Nat) : ConnSlot :=
  { ConnSlot.accepted localPeer with
    state := .pausing
    throttle := { ConnThrottle.new with pauseUntil := some deadline } }

/-- Two paused connections. -/
def napping : Loop :=
  { listening with server := { listening.server with conns := [some (sleeper 0), some (sleeper 7)] } }

/-- The first was resumed. -/
def roused : Loop :=
  { napping with
    server := { napping.server with
      conns := [some { ConnSlot.accepted localPeer with state := .lingering }, some (sleeper 7)] }
    registry := (napping.registry.put (connToken 0) (some .writable)).put (connToken 0)
      (some .readable) }

theorem napping_rouses : Served .epoch wwwConfig 1 0 napping roused := by
  have hready : napping.readyKeys 0 = [0] := rfl
  have hresumes : Resumes .epoch 0 (napping.readyKeys 0) napping roused := by
    rw [hready]
    exact .cons hangUpWorld (Nat.le_refl 0) rfl .nil
  have htick : roused.tick .epoch 0 (fun _ => hangUpWorld) = .ok roused := rfl
  exact .intro _ .quiet (by rintro t ⟨⟩) .nil .nil hresumes htick

theorem roused_rests : ∃ deadline, (sleeper 7).throttle.pauseUntil = some deadline ∧ 0 < deadline := by
  have hsecond : roused.server.conns.at? 1 = some (sleeper 7) := rfl
  exact no_pause_outlives_turn napping_rouses hsecond rfl

end Loop

/-! ### What is counted

The counters only grow, and what bounds them is a relation between two: a request is
counted when a connection stops being one that is read from.  So the requests counted
and the connections still to be answered are together at most the connections
accepted.
-/

/-- A connection whose request has not been answered. -/
def ConnSlot.unanswered (slot : ConnSlot) : Bool := decide (slot.state = .reading)

/-- A handler counts no connection, and a request when it answers one. -/
structure Tallies (v : View) (out : Outcome) : Prop where
  connections : out.shared.stats.connections = v.shared.stats.connections
  requests : out.shared.stats.requests + (out.slot.any ConnSlot.unanswered).toNat ≤
    v.shared.stats.requests + v.slot.unanswered.toNat

section Tallies

variable {pf : Platform} {cfg : ServerConfig} {w : World} {v u v' : View} {out : Outcome}

/-- Any state but one owes no answer. -/
theorem unanswered_of_ne {slot : ConnSlot} (h : slot.state ≠ .reading) : slot.unanswered = false :=
  decide_eq_false h

/-- Nothing was counted, and no connection came back to its request. -/
theorem Tallies.of_same (hstats : out.shared.stats.connections = v.shared.stats.connections)
    (hrequests : out.shared.stats.requests = v.shared.stats.requests)
    (hslot : ∀ slot, out.slot = some slot → slot.unanswered = true → v.slot.unanswered = true) :
    Tallies v out := by
  refine ⟨hstats, ?_⟩
  rw [hrequests]
  refine Nat.add_le_add_left ?_ _
  cases hs : out.slot with
  | none => exact Nat.zero_le _
  | some slot =>
      rw [Option.any_some]
      cases hun : slot.unanswered with
      | false => exact Nat.zero_le _
      | true => rw [hslot slot hs hun]

/-- A connection that goes takes nothing with it. -/
theorem Tallies.close (v : View) : Tallies v (closeConnection v) :=
  .of_same rfl rfl (by rintro slot ⟨⟩)

theorem afterCgi_stats (w : World) (v : View) (pathInfo : Str) (throttles : Option ThrottleTable)
    (d : ThrottleDecision) (call : CgiCall) :
    (afterCgi w v pathInfo throttles d call).shared.stats = v.shared.stats := by
  unfold afterCgi releaseCgi
  split <;> rfl

/-- Preparing an answer counts nothing; that is left to the handler. -/
theorem Prepares.stats (h : Prepares pf cfg w v u) : u.shared.stats = v.shared.stats := by
  cases h with
  | page hu => rw [hu.shared]
  | file hx _ hu =>
      have hstats := congrArg Shared.stats hx.shared
      exact (congrArg Shared.stats hu.shared).trans hstats
  | refused hx _ hu =>
      have hstats := congrArg Shared.stats hx.shared
      exact (congrArg Shared.stats hu.shared).trans hstats
  | ran hx _ _ hu =>
      have hstats := congrArg Shared.stats hx.shared
      exact (congrArg Shared.stats hu.shared).trans ((afterCgi_stats ..).trans hstats)

/-- A write changes one count. -/
theorem afterWrite_stats (w : World) (v : View) (stream : Stream) (chunk : Bytes) :
    (afterWrite w v stream chunk).shared.stats.connections = v.shared.stats.connections ∧
      (afterWrite w v stream chunk).shared.stats.requests = v.shared.stats.requests := by
  have hcharge : (chargeBody w (countWritten v stream chunk) v.slot.http.bytesSent).shared.stats =
      (countWritten v stream chunk).shared.stats := by
    unfold chargeBody
    simp only
    split <;> rfl
  have hconnections := congrArg ServerStats.connections hcharge
  have hrequests := congrArg ServerStats.requests hcharge
  unfold afterWrite
  simp only
  split <;> exact ⟨hconnections, hrequests⟩

/-- The read that comes to an answer counts it, and its connection owes none from then on. -/
theorem handleRead_tallies (hs : v.slot.state = .reading) (h : handleRead pf cfg w v = .ok out) :
    Tallies v out := by
  have hload : (v.loaded w).shared = v.shared := rfl
  cases handleRead_ends h with
  | closed => exact .close v
  | goesOn hu =>
      have hshared := hu.shared.trans hload
      refine .of_same ?_ ?_ fun _ _ _ => decide_eq_true hs
      · exact congrArg (fun s => s.stats.connections) hshared
      · exact congrArg (fun s => s.stats.requests) hshared
  | @answered u v' ha =>
      have hstats := ha.prepares.stats
      have hconnections := congrArg ServerStats.connections hstats
      obtain ⟨⟨decision, throttles⟩, -, hsends⟩ := bind_eq_ok.mp ha.sends
      cases hsends
      refine ⟨hconnections, ?_⟩
      have hnot : (sendingSlot pf w u.slot decision).unanswered = false := by
        refine unanswered_of_ne ?_
        rw [sendingSlot_state]
        rintro ⟨⟩
      show u.shared.stats.requests + 1 + (sendingSlot pf w u.slot decision).unanswered.toNat ≤ _
      rw [hnot, hstats, ConnSlot.unanswered, decide_eq_true hs]
      exact Nat.le_refl _

/-- A write counts bytes only. -/
theorem handleSend_tallies (hs : v.slot.state = .sending) (h : handleSend pf w v = .ok out) :
    Tallies v out := by
  have hslot : ∀ slot, out.slot = some slot → slot.unanswered = true → v.slot.unanswered = true := by
    intro slot hslot hun
    have hreading := of_decide_eq_true hun
    rcases handleSend_state hs h hslot with hstate | hstate | hstate <;>
      exact absurd (hreading.symm.trans hstate) (by rintro ⟨⟩)
  cases handleSend_ends h with
  | finished _ => exact .of_same rfl rfl hslot
  | paused _ _ => exact .of_same rfl rfl hslot
  | closed _ => exact .close v
  | blocked _ _ => exact .of_same rfl rfl hslot
  | @wrote limit n stream remaining _ _ _ _ _ =>
      have hstats := afterWrite_stats w v stream ((remaining.take (min limit remaining.length)).take n)
      exact .of_same hstats.1 hstats.2 hslot

theorem handleConnectionEvent_tallies (h : handleConnectionEvent pf cfg w v = .ok out) :
    Tallies v out := by
  cases handleConnectionEvent_ends h with
  | reading hs hread => exact handleRead_tallies hs hread
  | sending hs hsend => exact handleSend_tallies hs hsend
  | pausing hs hpause =>
      have hv : v.slot.unanswered = false := unanswered_of_ne (by rw [hs]; rintro ⟨⟩)
      cases handlePause_ends hpause with
      | waits => exact .of_same rfl rfl fun _ h hun => by cases h; exact hun
      | closed => exact .of_same rfl rfl (by rintro slot ⟨⟩)
      | woke hsend =>
          obtain ⟨hconnections, hrequests⟩ := handleSend_tallies (v := wake v) rfl hsend
          refine ⟨hconnections, ?_⟩
          rw [hv]
          exact hrequests
  | lingering _ => exact .close v
  | free _ => exact .of_same rfl rfl fun _ h hun => by cases h; exact hun

end Tallies

/-- Every connection and every answer is counted. -/
structure Tallied (s : Server) : Prop where
  held : s.conns.len ≤ s.shared.stats.connections
  answered : s.shared.stats.requests + Slab.count ConnSlot.unanswered s.conns ≤
    s.shared.stats.connections

theorem tickSlot_unanswered (shared : Shared) (w : World) (slot : ConnSlot) :
    (tickSlot shared w slot).unanswered = slot.unanswered := by
  unfold ConnSlot.unanswered
  rw [tickSlot_state]
  split
  · rename_i hw
    unfold Loop.wakes at hw
    simp only [Bool.and_eq_true, beq_iff_eq] at hw
    rw [hw.1.1]
    rfl
  · rfl

/-- A step counts a connection when it takes its key, and an answer when one is given. -/
theorem Tallied.step {pf : Platform} {cfg : ServerConfig} {s s' : Server} (h : Tallied s)
    (hstep : Step pf cfg s s') : Tallied s' := by
  obtain ⟨hheld, hanswered⟩ := h
  rcases hstep.cases with ⟨k, peer, hvac, rfl⟩ | ⟨w, k, slot, out, hk, hout, rfl⟩ | ⟨w, ht⟩ |
    ⟨hshared, hconns⟩
  · have hlen := Slab.len_put hvac (ConnSlot.accepted peer)
    have hcount := Slab.count_put ConnSlot.unanswered hvac (ConnSlot.accepted peer)
    have hnew : (ConnSlot.accepted peer).unanswered = true := rfl
    rw [hnew, Bool.toNat_true] at hcount
    refine ⟨?_, ?_⟩
    · show (s.conns.put k _).len ≤ s.shared.stats.connections + 1
      rw [hlen]
      exact Nat.succ_le_succ hheld
    · show s.shared.stats.requests + Slab.count ConnSlot.unanswered (s.conns.put k _) ≤
        s.shared.stats.connections + 1
      rw [hcount, ← Nat.add_assoc]
      exact Nat.succ_le_succ hanswered
  · obtain ⟨hconnections, hrequests⟩ := handleConnectionEvent_tallies hout
    have hlen := Slab.len_update hk out.slot
    have hcount := Slab.count_update ConnSlot.unanswered hk out.slot
    have hsome : out.slot.isSome.toNat ≤ 1 := Bool.toNat_le _
    refine ⟨?_, ?_⟩
    · show (s.conns.update k out.slot).len ≤ out.shared.stats.connections
      rw [hconnections]
      show _ ≤ s.shared.stats.connections
      omega
    · show out.shared.stats.requests + Slab.count ConnSlot.unanswered (s.conns.update k out.slot) ≤
        out.shared.stats.connections
      rw [hconnections]
      show _ ≤ s.shared.stats.connections
      have hview : out.shared.stats.requests + (out.slot.any ConnSlot.unanswered).toNat ≤
        s.shared.stats.requests + slot.unanswered.toNat := hrequests
      omega
  · obtain ⟨throttles, -, ht⟩ := bind_eq_ok.mp ht
    cases ht
    refine ⟨?_, ?_⟩
    · show (s.conns.mapEntries _).len ≤ _
      rw [Slab.len_mapEntries]
      exact hheld
    · show _ + Slab.count ConnSlot.unanswered (s.conns.mapEntries _) ≤ _
      rw [Slab.count_mapEntries fun _ _ => tickSlot_unanswered _ _ _]
      exact hanswered
  · refine ⟨?_, ?_⟩
    · rw [hshared, hconns]
      exact hheld
    · rw [hshared, hconns]
      exact hanswered

theorem Server.Launched.tallied {pf : Platform} {cfg : ServerConfig} {s : Server}
    (h : s.Launched pf cfg) : Tallied s := by
  obtain ⟨throttles, -, hrun⟩ := h
  refine Lts.Reachable.invariant Tallied hrun ?_ (fun _ _ ht hstep => ht.step hstep)
  rintro s rfl
  exact ⟨Nat.le_refl 0, Nat.le_refl 0⟩

/--
**The main loop refines the server.**  What holds in every state of a server that was
launched holds in every state of its loop, and each turn is a sequence of the
server's steps.

So every invariant of the server's runs is one of the program's, and nothing about
the order in which the loop serves its connections has to be proved again.
-/
theorem main_loop_refines_server {pf : Platform} {cfg : ServerConfig} {listeners : Nat} {l : Loop}
    (h : l.Reachable pf cfg listeners) :
    l.server.Launched pf cfg ∧
      ∀ l', Loop.Turn pf cfg listeners l l' →
        Relation.ReflTransGen (Step pf cfg) l.server l'.server :=
  ⟨h.launched, fun _ hturn => hturn.follows⟩

theorem greeted_refines : Loop.greeted.server.Launched .epoch wwwConfig :=
  (main_loop_refines_server Loop.greeted_reachable).1

/--
**No more answers than connections.**  The connections accepted are at least those
that are open, and at least the requests answered with those still being read.

Every connection is counted when it is accepted, and a request is counted at most
once for a connection.
-/
theorem requests_within_connections {pf : Platform} {cfg : ServerConfig} {listeners : Nat}
    {l : Loop} (h : l.Reachable pf cfg listeners) :
    l.server.conns.len ≤ l.server.shared.stats.connections ∧
      l.server.shared.stats.requests + Slab.count ConnSlot.unanswered l.server.conns ≤
        l.server.shared.stats.connections :=
  ⟨h.launched.tallied.held, h.launched.tallied.answered⟩

theorem greeted_counted :
    Loop.greeted.server.shared.stats.requests +
      Slab.count ConnSlot.unanswered Loop.greeted.server.conns ≤
        Loop.greeted.server.shared.stats.connections :=
  (requests_within_connections Loop.greeted_reachable).2

/-! ### Draining

A drain is a flag that nothing takes back.  While it is up the pending connections
are left to wait, so the table can only get emptier (`Closes`), and the turn in
which it gets empty is the last one.
-/

/-- Nobody new got in. -/
structure Closes (s s' : Server) : Prop where
  draining : s'.draining = s.draining
  connections : s'.shared.stats.connections = s.shared.stats.connections
  keys : ∀ k, s.conns.at? k = none → s'.conns.at? k = none

namespace Closes

variable {pf : Platform} {cfg : ServerConfig} {s s' s'' : Server}

theorem refl (s : Server) : Closes s s := ⟨rfl, rfl, fun _ => id⟩

theorem trans (h₁ : Closes s s') (h₂ : Closes s' s'') : Closes s s'' :=
  ⟨h₂.draining.trans h₁.draining, h₂.connections.trans h₁.connections,
    fun k hk => h₂.keys k (h₁.keys k hk)⟩

theorem after {w : World} {k : Nat} {slot : ConnSlot} {out : Outcome}
    (hk : s.conns.at? k = some slot)
    (hout : handleConnectionEvent pf cfg w (s.view slot) = .ok out) : Closes s (s.after k out) := by
  refine ⟨rfl, (handleConnectionEvent_tallies hout).connections, fun j hj => ?_⟩
  have hne : j ≠ k := by
    rintro rfl
    rw [hk] at hj
    cases hj
  exact (Slab.at?_update_ne hne out.slot).trans hj

theorem event {w : World} {k : Nat} (h : s.event pf cfg w k = .ok s') : Closes s s' := by
  rcases Server.event_cases h with rfl | ⟨slot, out, hk, hout, rfl⟩
  · exact .refl s'
  · exact .after hk hout

theorem resume (cfg : ServerConfig) {w : World} {k : Nat} (h : s.resume pf w k = .ok s') :
    Closes s s' := by
  rcases Server.resume_cases cfg h with rfl | ⟨slot, out, hk, hout, rfl⟩
  · exact .refl s'
  · exact .after hk hout

theorem tick {w : Nat → World} (h : Thttpd.tick pf w s = .ok s') : Closes s s' := by
  obtain ⟨throttles, -, h⟩ := bind_eq_ok.mp h
  cases h
  refine ⟨rfl, rfl, fun k hk => ?_⟩
  rw [Slab.at?_mapEntries, hk]
  rfl

end Closes

namespace Loop

section Draining

variable {pf : Platform} {cfg : ServerConfig} {listeners : Nat} {l l' : Loop}

theorem Events.closes {ts : List Token} (h : Events pf cfg ts l l') : Closes l.server l'.server := by
  induction h with
  | nil => exact .refl _
  | connection w _ hevent _ ih => exact (Closes.event (event_server hevent)).trans ih
  | listener _ _ ih => exact ih

theorem Resumes.closes (cfg : ServerConfig) {now : Nat} {ks : List Nat}
    (h : Resumes pf now ks l l') : Closes l.server l'.server := by
  induction h with
  | nil => exact .refl _
  | cons w _ hresume _ ih => exact (Closes.resume cfg (resume_server hresume)).trans ih

theorem tick_closes {now : Nat} {w : Nat → World} (h : l.tick pf now w = .ok l') :
    Closes l.server l'.server := by
  rcases tick_server h with hsame | htick
  · rw [hsame]
    exact .refl _
  · exact .tick htick

/-- A second signal to drain changes nothing. -/
theorem Signalled.same (h : Signalled listeners l l') (hd : l.server.draining = true) : l' = l := by
  cases h with
  | quiet => rfl
  | drain hopen _ =>
      rw [hd] at hopen
      cases hopen

/-- A server that drains lets the pending connections wait. -/
theorem Accepts.same {ts : List Token} (h : Accepts listeners ts l l')
    (hd : l.server.draining = true) : l' = l := by
  induction h with
  | nil => rfl
  | other _ _ ih => exact ih hd
  | listener _ _ hacc _ ih =>
      cases hacc with
      | draining _ => exact ih hd
      | accepting hopen _ =>
          rw [hd] at hopen
          cases hopen

theorem Served.closes {now : Nat} (h : Served pf cfg listeners now l l')
    (hd : l.server.draining = true) : Closes l.server l'.server := by
  obtain ⟨w, hsignal, -, haccepts, hevents, hresumes, htick⟩ := h
  obtain rfl := hsignal.same hd
  obtain rfl := haccepts.same hd
  rw [finishIfDrained_server]
  exact hevents.closes.trans ((hresumes.closes cfg).trans (tick_closes htick))

/-- A turn of a draining loop closes, whatever else it does. -/
theorem Turn.closes (h : Turn pf cfg listeners l l') (hd : l.server.draining = true) :
    Closes l.server l'.server := by
  cases h with
  | terminated _ => exact .refl _
  | drained _ hopen _ =>
      rw [hd] at hopen
      cases hopen
  | interrupted _ hsignal =>
      rw [hsignal.same hd]
      exact .refl _
  | pollFailed _ hsignal =>
      rw [hsignal.same hd]
      exact .refl _
  | served _ _ hserved => exact hserved.closes hd

/-- The loop looks whether a connection is left by looking at the table. -/
theorem idle_iff (l : Loop) : l.idle = true ↔ ∀ k, l.server.conns.at? k = none := by
  unfold idle
  rw [decide_eq_true_iff]
  unfold Slab.len
  rw [List.countP_eq_zero]
  constructor
  · intro h k
    cases hk : l.server.conns.at? k with
    | none => rfl
    | some slot => exact absurd rfl (h (some slot) (Slab.mem_of_at? hk))
  · intro h o ho hsome
    obtain ⟨slot, rfl⟩ := Option.isSome_iff_exists.mp hsome
    obtain ⟨k, hk⟩ := List.mem_iff_getElem?.mp ho
    have hat := Slab.at?_eq_some.mpr hk
    rw [h k] at hat
    cases hat

/-- No handler ends the loop, and none starts it again. -/
theorem event_ended {w : World} {k : Nat} (h : l.event pf cfg w k = .ok l') : l'.ended = l.ended := by
  unfold event at h
  split at h
  · obtain ⟨out, -, h⟩ := bind_eq_ok.mp h
    cases h
    rfl
  · cases h
    rfl

theorem resume_ended {w : World} {k : Nat} (h : l.resume pf w k = .ok l') : l'.ended = l.ended := by
  unfold resume at h
  split at h
  · split at h
    · obtain ⟨out, -, h⟩ := bind_eq_ok.mp h
      cases h
      rfl
    · cases h
      rfl
  · cases h
    rfl

theorem tick_ended {now : Nat} {w : Nat → World} (h : l.tick pf now w = .ok l') :
    l'.ended = l.ended := by
  unfold tick at h
  split at h
  · obtain ⟨server, -, h⟩ := bind_eq_ok.mp h
    cases h
    rfl
  · cases h
    rfl

theorem Events.ended {ts : List Token} (h : Events pf cfg ts l l') : l'.ended = l.ended := by
  induction h with
  | nil => rfl
  | connection w _ hevent _ ih => exact ih.trans (event_ended hevent)
  | listener _ _ ih => exact ih

theorem Resumes.ended {now : Nat} {ks : List Nat} (h : Resumes pf now ks l l') :
    l'.ended = l.ended := by
  induction h with
  | nil => rfl
  | cons w _ hresume _ ih => exact ih.trans (resume_ended hresume)

/-- A turn that drains ends the loop when it closes the last connection. -/
theorem Served.ended {now : Nat} (h : Served pf cfg listeners now l l')
    (hd : l.server.draining = true) (hrunning : l.ended = none) :
    l'.ended = if l'.idle then some .stopped else none := by
  have hd' := (h.closes hd).draining.trans hd
  obtain ⟨w, hsignal, -, haccepts, hevents, hresumes, htick⟩ := h
  obtain rfl := hsignal.same hd
  obtain rfl := haccepts.same hd
  rw [finishIfDrained_server] at hd'
  have hended := (tick_ended htick).trans (hresumes.ended.trans (hevents.ended.trans hrunning))
  unfold idle
  rw [finishIfDrained_server]
  unfold finishIfDrained
  rw [hd', Bool.true_and]
  show (if idle _ then _ else _ : Loop).ended = if idle _ then _ else _
  split
  · rfl
  · exact hended

end Draining

/--
**A drain is final.**  From a state in which the server drains, every run lets nobody
new in: no connection is counted, no key is taken that was vacant, no listener is
registered.  A turn that serves ends the loop exactly when no connection is left.

The flag is never taken back, and with it the listeners are gone from the registry.
-/
theorem drain_is_final {pf : Platform} {cfg : ServerConfig} {listeners : Nat} {l l' : Loop}
    (h : l.Reachable pf cfg listeners) (hd : l.server.draining = true)
    (hrun : Relation.ReflTransGen (Turn pf cfg listeners) l l') :
    l'.server.draining = true ∧
    l'.server.shared.stats.connections = l.server.shared.stats.connections ∧
    (∀ k, l.server.conns.at? k = none → l'.server.conns.at? k = none) ∧
    (∀ t < maxListeners, l'.registry t = none) ∧
    ∀ now l'', l'.ended = none → Served pf cfg listeners now l' l'' →
      (l''.ended = some .stopped ↔ ∀ k, l''.server.conns.at? k = none) := by
  obtain ⟨hreach, hcloses⟩ : l'.Reachable pf cfg listeners ∧ Closes l.server l'.server := by
    induction hrun with
    | refl => exact ⟨h, .refl _⟩
    | tail _ hturn ih =>
        exact ⟨ih.1.tail hturn, ih.2.trans (hturn.closes (ih.2.draining.trans hd))⟩
  have hd' := hcloses.draining.trans hd
  refine ⟨hd', hcloses.connections, hcloses.keys, fun t ht => ?_, fun now l'' hrunning hserved => ?_⟩
  · rw [hreach.registered.listening t ht, hd']
    exact if_neg (by rintro ⟨-, ⟨⟩⟩)
  · rw [hserved.ended hd' hrunning, ← idle_iff]
    cases l''.idle <;> decide

theorem gone_for_good :
    gone.server.shared.stats.connections = 1 ∧ gone.server.conns.at? 0 = none := by
  have hrun : Relation.ReflTransGen (Turn .epoch wwwConfig 1) leaving (gone.finish .stopped) :=
    .single (.served 0 rfl leaving_hangs_up)
  obtain ⟨-, hconnections, -⟩ := drain_is_final leaving_reachable rfl hrun
  obtain ⟨-, -, -, -, hend⟩ := drain_is_final leaving_reachable rfl .refl
  exact ⟨hconnections, (hend 0 _ rfl leaving_hangs_up).mp rfl 0⟩

end Loop

end Thttpd
