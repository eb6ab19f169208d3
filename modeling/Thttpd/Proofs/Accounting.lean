/-
Throttle accounting, over every run of the server.

Two books are kept.  A connection counts the body bytes it has sent, and a rule counts
the body bytes of the connections under it since the averages were updated, with a flat
charge for every program.  The first is an invariant of the connection.  The second is
compared with a ledger that goes along with a run and knows nothing of the counters: at
every event it looks at what the socket took and which programs were called.

The ledger has to be told of each event what no counter says.  What the socket took
is read off the stream, and what was run off the calls that were made, so that the
counters of the program appear on one side of the comparison only
(`handleConnectionEvent_booked`).
-/
import Thttpd.Proofs.Delivery
import Thttpd.Proofs.Route

namespace Thttpd

open Text Fs

/-! ### The bytes counted for a rule

A rule is an entry of the table and a server may have no table at all.  `bytesIn`
reads a counter of both, and each operation on the table is taken to it once.
-/

/-- The bytes counted for rule `t` since the averages were updated. -/
def ThrottleTable.bytesAt (table : ThrottleTable) (t : Nat) : Int :=
  ((table.map ThrottleEntry.bytesSinceAvg)[t]?).getD 0

/-- The same for a server that may have no table. -/
def bytesIn (throttles : Option ThrottleTable) (t : Nat) : Int :=
  match throttles with
  | some table => table.bytesAt t
  | none => 0

/-- It reads nothing but the counters. -/
theorem bytesIn_congr {ts ts' : Option ThrottleTable}
    (h : ts'.map (List.map ThrottleEntry.bytesSinceAvg)
      = ts.map (List.map ThrottleEntry.bytesSinceAvg)) (t : Nat) :
    bytesIn ts' t = bytesIn ts t := by
  cases ts with
  | none =>
      cases ts' with
      | none => rfl
      | some table' => cases h
  | some table =>
      cases ts' with
      | none => cases h
      | some table' =>
          simp only [Option.map_some, Option.some.injEq] at h
          unfold bytesIn ThrottleTable.bytesAt
          simp only
          rw [h]

/-- A connection that gives its rules back takes no bytes along. -/
theorem bytesIn_clear (ts : Option ThrottleTable) (tnums : List Nat) (t : Nat) :
    bytesIn (ts.map fun table => table.clear tnums) t = bytesIn ts t := by
  refine bytesIn_congr ?_ t
  cases ts with
  | none => rfl
  | some table => exact congrArg some (clear_map _ (fun _ _ => rfl) table tnums)

/-- Admitting a connection charges nothing. -/
theorem bytesIn_askThrottle {pf : Platform} {ts ts' : Option ThrottleTable} {filename : Str}
    {d : ThrottleDecision} (h : askThrottle pf ts filename = .ok (d, ts')) (t : Nat) :
    bytesIn ts' t = bytesIn ts t :=
  bytesIn_congr (askThrottle_map _ (fun _ _ => rfl) h) t

theorem bytesAt_modify (table : ThrottleTable) (x t : Nat) (n : Int) :
    ThrottleTable.bytesAt
        (table.modify x fun e => { e with bytesSinceAvg := e.bytesSinceAvg + n }) t
      = table.bytesAt t + if x = t ∧ x < table.length then n else 0 := by
  unfold ThrottleTable.bytesAt
  rw [List.getElem?_map, List.getElem?_map, List.getElem?_modify]
  by_cases hxt : x = t
  · subst hxt
    cases hx : table[x]? with
    | none =>
        have hlt : ¬ x < table.length := by
          intro hlt
          rw [List.getElem?_eq_getElem hlt] at hx
          cases hx
        simp [hlt]
    | some e =>
        have hlt : x < table.length := (List.getElem?_eq_some_iff.mp hx).1
        simp [hlt]
  · simp [hxt]

/-- A charge is added to each rule that is named. -/
theorem addBytes_bytesAt (n : Int) (tnums : List Nat) (table : ThrottleTable)
    (h : Entered table.length tnums) (t : Nat) :
    (table.addBytes tnums n).bytesAt t = table.bytesAt t + claims tnums t * n :=
  foldl_modify_claims ThrottleTable.bytesAt
    (fun e => { e with bytesSinceAvg := e.bytesSinceAvg + n }) n
    (fun table x t => bytesAt_modify table x t n) tnums table h t

/-- **A charge counts once for each rule of the connection.** -/
theorem bytesIn_addBytes {ts : Option ThrottleTable} {tnums : List Nat}
    (h : Entered (rulesIn ts) tnums) (n : Int) (t : Nat) :
    bytesIn (ts.map fun table => table.addBytes tnums n) t
      = bytesIn ts t + claims tnums t * n := by
  cases ts with
  | none =>
      have hnot : t ∉ tnums := fun ht => absurd (h.bound t ht) (Nat.not_lt_zero t)
      simp [bytesIn, claims, hnot]
  | some table => exact addBytes_bytesAt n tnums table h t

/-! ### The account of a connection

`Metered` says in each state what the connection has counted and what its rules are.
It is about one connection, so it is kept by every handler separately, and by the
periodic update, which touches nothing of it.
-/

/-- What a connection counts in each of its states. -/
structure Metered (slot : ConnSlot) : Prop where
  reading : slot.state = .reading → slot.throttle.bodyBytes = 0 ∧ slot.isCgi = false
  cgi : slot.isCgi = true → slot.throttle.tnums = []
  sending : slot.state = .sending ∨ slot.state = .pausing → slot.throttle.tnums ≠ [] →
    slot.throttle.bodyBytes = max (slot.http.bytesSent - slot.throttle.headerLen) 0 ∧
      slot.throttle.headerLen = slot.http.responseHeaderLen

/-- Every slot a handler leaves open is metered. -/
def Meters (out : Outcome) : Prop := ∀ slot, out.slot = some slot → Metered slot

/-- Who is closed has no account any more. -/
theorem Meters.close (v : View) : Meters (closeConnection v) := by
  intro slot hs
  cases hs

/-- Who is left as it was keeps its own. -/
theorem Meters.keep {v : View} (h : Metered v.slot) : Meters v.keep := by
  intro slot hs
  cases hs
  exact h

/-- A connection that stays as it was in all that is metered. -/
theorem Metered.congr {slot slot' : ConnSlot} (h : Metered slot)
    (hreading : slot'.state = .reading → slot.state = .reading)
    (hsending : slot'.state = .sending ∨ slot'.state = .pausing →
      slot.state = .sending ∨ slot.state = .pausing)
    (hcgi : slot'.isCgi = slot.isCgi) (htnums : slot'.throttle.tnums = slot.throttle.tnums)
    (hbody : slot'.throttle.bodyBytes = slot.throttle.bodyBytes)
    (hheader : slot'.throttle.headerLen = slot.throttle.headerLen)
    (hsent : slot'.http.bytesSent = slot.http.bytesSent)
    (hlen : slot'.http.responseHeaderLen = slot.http.responseHeaderLen) : Metered slot' := by
  refine ⟨?_, ?_, ?_⟩
  · intro hs
    rw [hbody, hcgi]
    exact h.reading (hreading hs)
  · rw [hcgi, htnums]
    exact h.cgi
  · rw [htnums, hbody, hheader, hsent, hlen]
    exact fun hs => h.sending (hsending hs)

/--
What a prepared response leaves of the account: nothing counted yet, and rules only
for a connection that runs no program.
-/
structure Unmetered (u : View) : Prop where
  body : u.slot.throttle.bodyBytes = 0
  cgi : u.slot.isCgi = true → u.slot.throttle.tnums = []

theorem releaseCgi_throttle (v : View) (charge : Option Int) :
    (releaseCgi v charge).slot.throttle
      = if v.slot.throttle.isThrottled then ConnThrottle.new else v.slot.throttle := by
  unfold releaseCgi
  split <;> simp_all

theorem admittedThrottle_bodyBytes (t : ConnThrottle) (d : ThrottleDecision) :
    (admittedThrottle t d).bodyBytes = t.bodyBytes := by
  cases d <;> rfl

theorem cgiThrottle_bodyBytes (t : ConnThrottle) (d : ThrottleDecision) :
    (cgiThrottle t d).bodyBytes = t.bodyBytes := by
  cases d <;> rfl

/-- However an answer was prepared, nothing of it has been counted. -/
theorem Prepares.unmetered {pf : Platform} {cfg : ServerConfig} {w : World} {v u : View}
    (hbody : v.slot.throttle.bodyBytes = 0) (hcgi : v.slot.isCgi = false)
    (h : Prepares pf cfg w v u) : Unmetered u := by
  cases h with
  | page hu =>
      refine ⟨by rw [hu.throttle, hbody], fun hc => ?_⟩
      rw [hu.isCgi, hcgi] at hc
      cases hc
  | file hx _ hu =>
      refine ⟨?_, fun hc => ?_⟩
      · rw [hu.throttle]
        show (admittedThrottle _ _).bodyBytes = 0
        rw [admittedThrottle_bodyBytes, hx.throttle, hbody]
      · rw [hu.isCgi] at hc
        have hxc := hx.isCgi
        rw [hcgi] at hxc
        cases hc.symm.trans hxc
  | refused hx _ hu =>
      refine ⟨?_, fun hc => ?_⟩
      · rw [hu.throttle]
        show (_ : ConnThrottle).bodyBytes = 0
        exact (congrArg ConnThrottle.bodyBytes hx.throttle).trans hbody
      · rw [hu.isCgi] at hc
        have hxc := hx.isCgi
        rw [hcgi] at hxc
        cases hc.symm.trans hxc
  | @ran x _ _ _ d throttles call hx _ _ hu =>
      have hthrottle : u.slot.throttle = if (cgiThrottle x.slot.throttle d).isThrottled then
          ConnThrottle.new else cgiThrottle x.slot.throttle d :=
        hu.throttle.trans (releaseCgi_throttle _ _)
      rw [hx.throttle] at hthrottle
      by_cases ht : (cgiThrottle v.slot.throttle d).isThrottled = true
      · rw [if_pos ht] at hthrottle
        exact ⟨by rw [hthrottle]; rfl, fun _ => by rw [hthrottle]; rfl⟩
      · rw [if_neg ht] at hthrottle
        refine ⟨by rw [hthrottle, cgiThrottle_bodyBytes, hbody], fun _ => ?_⟩
        rw [hthrottle]
        exact isThrottled_eq_false (Bool.eq_false_iff.mpr ht)

/-! ### Starting to send

A connection under rules is told where the body of its response begins, because only
the body is charged.  Without rules the length of the head is not looked for, and
nothing is charged either.
-/

theorem sendingSlot_isCgi (pf : Platform) (w : World) (slot : ConnSlot) (d : ThrottleDecision) :
    (sendingSlot pf w slot d).isCgi = slot.isCgi := by
  cases d <;> rfl

theorem sendingSlot_bodyBytes (pf : Platform) (w : World) (slot : ConnSlot)
    (d : ThrottleDecision) :
    (sendingSlot pf w slot d).throttle.bodyBytes = slot.throttle.bodyBytes := by
  cases d <;> exact started_keeps ConnThrottle.bodyBytes (fun _ _ _ => rfl) _ w _ slot.throttle

/-- A connection under rules starts with the length of the response's head. -/
theorem sendingSlot_headerLen (pf : Platform) (w : World) {slot : ConnSlot} {d : ThrottleDecision}
    (hchecked : d = .unlimited → slot.throttle.tnums ≠ [] → slot.throttle.checked = true)
    (hreject : d = .reject → slot.throttle.tnums = [])
    (h : (sendingSlot pf w slot d).throttle.tnums ≠ []) :
    (sendingSlot pf w slot d).throttle.headerLen
      = (sendingSlot pf w slot d).http.responseHeaderLen := by
  have hkeep := fun http => started_keeps ConnThrottle.tnums (fun _ _ _ => rfl)
    (slot.throttle.checked && slot.throttle.isThrottled) w http slot.throttle
  cases d with
  | unlimited =>
      have hne : slot.throttle.tnums ≠ [] := fun hnil => h ((hkeep _).trans hnil)
      have hthrottled : (slot.throttle.checked && slot.throttle.isThrottled) = true := by
        rw [hchecked rfl hne, Bool.true_and]
        exact isThrottled_iff.mpr hne
      show (if _ then _ else _ : ConnThrottle).headerLen = _
      rw [if_pos hthrottled]
      rfl
  | allow tnums maxLimit minLimit => rfl
  | reject => exact absurd ((hkeep _).trans (hreject rfl)) h

/-- The answer of the table is `unlimited` for whoever did not ask. -/
theorem entryDecision_cases {pf : Platform} {u : View} {d : ThrottleDecision}
    {throttles : Option ThrottleTable} (h : entryDecision pf u = .ok (d, throttles)) :
    (u.slot.isCgi = false ∧ u.slot.throttle.checked = false ∧
      askThrottle pf u.shared.throttles u.slot.http.origFilename = .ok (d, throttles)) ∨
    (d = .unlimited ∧ throttles = u.shared.throttles ∧
      (u.slot.isCgi = false → u.slot.throttle.checked = true)) := by
  unfold entryDecision at h
  split at h
  · rename_i hask
    simp only [Bool.and_eq_true, Bool.not_eq_true'] at hask
    exact .inl ⟨hask.1, hask.2, h⟩
  · rename_i hask
    simp only [Except.ok.injEq, Prod.mk.injEq] at h
    refine .inr ⟨h.1.symm, h.2.symm, fun hcgi => ?_⟩
    simpa [hcgi] using hask

/-- The account begins at zero, behind the head. -/
theorem transitionToSending_metered {pf : Platform} {w : World} {u v' : View} (hu : Unmetered u)
    (hunclaimed : u.slot.isCgi = false → u.slot.throttle.checked = false →
      u.slot.throttle.tnums = []) (h : transitionToSending pf w u = .ok v') : Metered v'.slot := by
  obtain ⟨⟨d, throttles⟩, hentry, h⟩ := bind_eq_ok.mp h
  simp only [pure, Except.pure, Except.ok.injEq] at h
  subst h
  have hnever : (sendingSlot pf w u.slot d).state ≠ .reading := by
    rw [sendingSlot_state]
    simp
  have hasked : d ≠ .unlimited → u.slot.throttle.tnums = [] := by
    intro hd
    rcases entryDecision_cases hentry with ⟨hcgi, hchecked, -⟩ | ⟨hd', -⟩
    · exact hunclaimed hcgi hchecked
    · exact absurd hd' hd
  have hcgi : (sendingSlot pf w u.slot d).isCgi = true →
      (sendingSlot pf w u.slot d).throttle.tnums = [] := by
    rw [sendingSlot_isCgi]
    intro hcgi
    rcases entryDecision_cases hentry with ⟨hno, -⟩ | ⟨rfl, -⟩
    · cases hcgi.symm.trans hno
    · rw [sendingSlot_tnums pf w (by simp), if_pos rfl]
      exact hu.cgi hcgi
  refine ⟨fun hr => absurd hr hnever, hcgi, fun _ hne => ⟨?_, ?_⟩⟩
  · show (sendingSlot pf w u.slot d).throttle.bodyBytes
      = max ((sendingSlot pf w u.slot d).http.bytesSent - _) 0
    rw [sendingSlot_bodyBytes, sendingSlot_bytesSent, hu.body]
    omega
  · refine sendingSlot_headerLen pf w ?_ (fun hd => hasked (by simp [hd])) hne
    intro _ htnums
    rcases entryDecision_cases hentry with ⟨hno, hchecked, -⟩ | ⟨-, -, hchecked⟩
    · exact absurd (hunclaimed hno hchecked) htnums
    · refine hchecked ?_
      cases hc : u.slot.isCgi with
      | false => rfl
      | true => exact absurd (hu.cgi hc) htnums

/-- A read that answers opens the account. -/
theorem handleRead_meters {pf : Platform} {cfg : ServerConfig} {w : World} {v : View}
    {out : Outcome} (hq : Quiet v) (hm : Metered v.slot) (hs : v.slot.state = .reading)
    (h : handleRead pf cfg w v = .ok out) : Meters out := by
  cases handleRead_ends h with
  | closed => exact .close v
  | goesOn hu =>
      have hstate : _ = v.slot.state := hu.state
      refine .keep ⟨?_, ?_, ?_⟩
      · intro _
        rw [hu.throttle, hu.isCgi]
        exact hm.reading hs
      · rw [hu.isCgi, hu.throttle]
        exact hm.cgi
      · intro hsend
        rw [hstate, hs] at hsend
        rcases hsend with hsend | hsend <;> cases hsend
  | answered ha =>
      have hq' : Quiet (v.loaded w) := (Alike.mapHttp v _).quiet hq
      have hunmetered := Prepares.unmetered (v := v.loaded w) (hm.reading hs).1 (hm.reading hs).2
        ha.prepares
      exact .keep (transitionToSending_metered hunmetered
        (ha.prepares.carried hq').unclaimed ha.sends)

/-! ### Sending

A write counts what it wrote past the head.  The head may go out in several writes,
or together with the first bytes of the body, so what is counted is a difference of
two positions.
-/

/-- Charging changes one field of the connection. -/
theorem chargeBody_slot (w : World) (v : View) (sentBefore : Int) :
    (chargeBody w v sentBefore).slot.isCgi = v.slot.isCgi ∧
      (chargeBody w v sentBefore).slot.throttle.tnums = v.slot.throttle.tnums ∧
      (chargeBody w v sentBefore).slot.throttle.headerLen = v.slot.throttle.headerLen := by
  unfold chargeBody
  simp only
  split <;> exact ⟨rfl, rfl, rfl⟩

/-- **Charging what was written keeps the account.** -/
theorem chargeBody_bodyBytes {w : World} {v : View} {sentBefore : Int}
    (hne : v.slot.throttle.tnums ≠ []) (hle : sentBefore ≤ v.slot.http.bytesSent)
    (h : v.slot.throttle.bodyBytes = max (sentBefore - v.slot.throttle.headerLen) 0) :
    (chargeBody w v sentBefore).slot.throttle.bodyBytes
      = max (v.slot.http.bytesSent - v.slot.throttle.headerLen) 0 := by
  unfold chargeBody
  simp only [isThrottled_iff.mpr hne, true_and]
  split
  · show v.slot.throttle.bodyBytes + _ = _
    rw [h]
    omega
  · rw [h]
    omega

/-- A write that goes on, and one that ends the response. -/
theorem afterWrite_meters {w : World} {v : View} {stream : Stream} {chunk : Bytes}
    (hm : Metered v.slot) (hs : v.slot.state = .sending) :
    Meters (afterWrite w v stream chunk) := by
  obtain ⟨hcgi, htnums, hheader⟩ :=
    chargeBody_slot w (countWritten v stream chunk) v.slot.http.bytesSent
  have hhttp := (chargeBody_http w (countWritten v stream chunk) v.slot.http.bytesSent).1
  have hcharged : Metered (chargeBody w (countWritten v stream chunk) v.slot.http.bytesSent).slot := by
    refine ⟨?_, ?_, ?_⟩
    · rw [chargeBody_state]
      intro hr
      cases hs.symm.trans hr
    · rw [hcgi, htnums]
      exact hm.cgi
    · intro _ hne
      rw [htnums] at hne
      obtain ⟨hbody, hlen⟩ := hm.sending (.inl hs) hne
      have hle : v.slot.http.bytesSent ≤ (countWritten v stream chunk).slot.http.bytesSent := by
        show v.slot.http.bytesSent ≤ v.slot.http.bytesSent + chunk.length
        omega
      rw [chargeBody_bodyBytes hne hle hbody, hhttp, hheader]
      exact ⟨rfl, hlen⟩
  unfold afterWrite
  simp only
  split
  · exact .keep (hcharged.congr (fun hr => by cases hr)
      (fun hf => by rcases hf with hf | hf <;> cases hf) rfl rfl rfl rfl rfl rfl)
  · exact .keep hcharged

theorem handleSend_meters {pf : Platform} {w : World} {v : View} {out : Outcome}
    (hm : Metered v.slot) (hs : v.slot.state = .sending) (h : handleSend pf w v = .ok out) :
    Meters out := by
  cases handleSend_ends h with
  | finished _ =>
      exact .keep (hm.congr (fun hr => by cases hr)
        (fun hf => by rcases hf with hf | hf <;> cases hf) rfl rfl rfl rfl rfl rfl)
  | paused _ _ =>
      exact .keep (hm.congr (fun hr => by cases hr) (fun _ => .inl hs) rfl rfl rfl rfl rfl rfl)
  | closed => exact .close v
  | blocked _ _ => exact .keep hm
  | wrote => exact afterWrite_meters hm hs

theorem wake_throttle (v : View) :
    (wake v).slot.throttle.bodyBytes = v.slot.throttle.bodyBytes ∧
      (wake v).slot.throttle.headerLen = v.slot.throttle.headerLen := by
  unfold wake refreshShare
  cases v.shared.throttles <;> exact ⟨rfl, rfl⟩

/-- Waking is no write. -/
theorem wake_metered {v : View} (hm : Metered v.slot) (hs : v.slot.state = .pausing) :
    Metered (wake v).slot :=
  hm.congr (fun hr => by cases hr) (fun _ => .inr hs) rfl (wake_tnums v) (wake_throttle v).1
    (wake_throttle v).2 rfl rfl

theorem handlePause_meters {pf : Platform} {w : World} {v : View} {out : Outcome}
    (hm : Metered v.slot) (hs : v.slot.state = .pausing) (h : handlePause pf w v = .ok out) :
    Meters out := by
  cases handlePause_ends h with
  | waits => exact .keep hm
  | closed => exact .close _
  | woke h => exact handleSend_meters (wake_metered hm hs) rfl h

theorem handleConnectionEvent_meters {pf : Platform} {cfg : ServerConfig} {w : World} {v : View}
    {out : Outcome} (ho : Orderly v.shared.throttles v.slot)
    (hfit : SendersFit v.shared.throttles) (hm : Metered v.slot)
    (h : handleConnectionEvent pf cfg w v = .ok out) : Meters out := by
  cases handleConnectionEvent_ends h with
  | reading hs h => exact handleRead_meters ⟨ho.reading hs, hfit⟩ hm hs h
  | sending hs h => exact handleSend_meters hm hs h
  | pausing hs h => exact handlePause_meters hm hs h
  | lingering _ => exact .close v
  | free _ => exact .keep hm

theorem tickSlot_metered {shared : Shared} {w : World} {slot : ConnSlot} (h : Metered slot) :
    Metered (tickSlot shared w slot) := by
  unfold tickSlot
  split
  · split
    · rename_i hc
      exact wake_metered (v := ⟨shared, slot⟩) h hc.1
    · exact h
  · exact h

theorem metered_accepted (peer : PeerAddr) : Metered (ConnSlot.accepted peer) := by
  refine ⟨fun _ => ⟨rfl, rfl⟩, fun _ => rfl, ?_⟩
  intro hf
  rcases hf with hf | hf <;> cases hf

/-- **Every connection keeps its account**, in every state of every run. -/
theorem Server.Reachable.metered {pf : Platform} {cfg : ServerConfig} {s : Server}
    (h : s.Reachable pf cfg) : ∀ slot, some slot ∈ s.conns → Metered slot :=
  h.slots metered_accepted
    (fun _ _ _ ho hfit hm hout => handleConnectionEvent_meters ho hfit hm hout)
    (fun _ _ _ hm => tickSlot_metered hm)

/-! ### The ledger

What an event adds is a function of the connection before it and after it.  A
connection that was closed has added nothing, since its socket is gone with what it
took; the counters were moved by earlier events.
-/

/--
The body bytes a connection's socket has taken: all that lies past the head of the
response.
-/
def ConnSlot.bodyWritten (slot : ConnSlot) : Int :=
  match slot.stream with
  | some stream => max ((stream.written.length : Int) - slot.http.responseHeaderLen) 0
  | none => 0

/-- The body bytes an event wrote for rule `t`; a connection it closed wrote none. -/
def bodyBooked (slot : ConnSlot) (after : Option ConnSlot) (t : Nat) : Int :=
  match after with
  | some slot' => claims slot'.throttle.tnums t * (slot'.bodyWritten - slot.bodyWritten)
  | none => 0

/-- The rules a script runs under. -/
def scriptRules (pf : Platform) (throttles : Option ThrottleTable) (call : CgiCall) : List Nat :=
  match askThrottle pf throttles (call.scriptName.getD []) with
  | .ok (d, _) => d.tnums
  | .error _ => []

/-- What the programs called are charged to rule `t`, those that could be run. -/
def cgiBooked (pf : Platform) (w : World) (throttles : Option ThrottleTable) (t : Nat) :
    List CgiCall → Int
  | [] => 0
  | call :: rest =>
      (if (w.execCgi call).isSome then claims (scriptRules pf throttles call) t * cgiBytecount
        else 0) + cgiBooked pf w throttles t rest

/-- What an event on a connection adds to the ledger. -/
def booked (pf : Platform) (w : World) (v : View) (out : Outcome) (t : Nat) : Int :=
  bodyBooked v.slot out.slot t +
    cgiBooked pf w v.shared.throttles t (out.shared.cgiCalls.drop v.shared.cgiCalls.length)

/-- The counters moved by what the ledger says. -/
def Booked (pf : Platform) (w : World) (v : View) (out : Outcome) : Prop :=
  ∀ t, bytesIn out.shared.throttles t = bytesIn v.shared.throttles t + booked pf w v out t

/-- No program was called. -/
theorem booked_of_calls {pf : Platform} {w : World} {v : View} {out : Outcome}
    (h : out.shared.cgiCalls = v.shared.cgiCalls) (t : Nat) :
    booked pf w v out t = bodyBooked v.slot out.slot t := by
  unfold booked
  rw [h, List.drop_length]
  simp [cgiBooked]

theorem bytesIn_close (v : View) (t : Nat) :
    bytesIn (closeConnection v).shared.throttles t = bytesIn v.shared.throttles t := by
  show bytesIn (if v.slot.throttle.isThrottled = true then _ else _) t = _
  split
  · exact bytesIn_clear _ _ t
  · rfl

/-- Closing adds nothing and moves no counter. -/
theorem closeConnection_booked (pf : Platform) (w : World) (v : View) :
    Booked pf w v (closeConnection v) := by
  intro t
  rw [bytesIn_close, booked_of_calls (by rfl)]
  simp [bodyBooked, closeConnection]

/-- Neither table nor socket changed. -/
theorem keep_booked {pf : Platform} {w : World} {v u : View}
    (hthrottles : u.shared.throttles = v.shared.throttles)
    (hcalls : u.shared.cgiCalls = v.shared.cgiCalls)
    (hbody : u.slot.throttle.tnums ≠ [] → u.slot.bodyWritten = v.slot.bodyWritten) :
    Booked pf w v u.keep := by
  intro t
  rw [booked_of_calls (by exact hcalls)]
  show bytesIn u.shared.throttles t = _ + claims u.slot.throttle.tnums t * _
  rw [hthrottles]
  by_cases hnil : u.slot.throttle.tnums = []
  · simp [hnil, claims_nil]
  · simp [hbody hnil]

/-! ### Programs in the ledger

A program is charged to the rules of its script with a flat amount, when it is
admitted and before it has written anything.  Its rules are given back at once, so
the body it writes is charged to nobody.
-/

/-- The rules of the ledger are those the table gave. -/
theorem scriptRules_cgiCall {pf : Platform} {cfg : ServerConfig} {w : World} {slot : ConnSlot}
    {script info : Str} {ts ts' : Option ThrottleTable} {d : ThrottleDecision}
    (h : askThrottle pf ts script = .ok (d, ts')) :
    scriptRules pf ts (cgiCall cfg w slot script info) = d.tnums := by
  have hname : (cgiCall cfg w slot script info).scriptName = some script :=
    buildEnvp_scriptName _ _ _
  unfold scriptRules
  rw [hname, Option.getD_some, h]

/-- Calling a program and releasing its rules charges each of them once. -/
theorem releaseCgi_bytesIn {v : View} (charge : Option Int)
    (h : Entered (rulesIn v.shared.throttles) v.slot.throttle.tnums) (t : Nat) :
    bytesIn (releaseCgi v charge).shared.throttles t
      = bytesIn v.shared.throttles t + claims v.slot.throttle.tnums t * charge.getD 0 := by
  unfold releaseCgi
  by_cases ht : v.slot.throttle.isThrottled = true
  · simp only [ht, if_true]
    cases charge with
    | none => simp [bytesIn_clear]
    | some n =>
        have hmap : (v.shared.throttles.map fun table =>
            (table.addBytes v.slot.throttle.tnums n).clear v.slot.throttle.tnums)
            = (v.shared.throttles.map fun table => table.addBytes v.slot.throttle.tnums n).map
                fun table => table.clear v.slot.throttle.tnums := by
          rw [Option.map_map]
          rfl
        rw [hmap, bytesIn_clear, bytesIn_addBytes h]
        rfl
  · have hnil := isThrottled_eq_false (Bool.eq_false_iff.mpr ht)
    simp [ht, hnil, claims_nil]

/--
**What a prepared response added to the counters**: the charge of the program it
took, if it took one.

A file that is prepared charges nothing, since nothing of it has been sent.  A
program that was run is charged a fixed number of bytes for each of its rules, and
gives these back at once.
-/
theorem Prepares.bytesIn {pf : Platform} {cfg : ServerConfig} {w : World} {v u : View}
    (hq : Quiet v) (h : Prepares pf cfg w v u) (t : Nat) :
    bytesIn u.shared.throttles t = bytesIn v.shared.throttles t +
      cgiBooked pf w v.shared.throttles t (u.shared.cgiCalls.drop v.shared.cgiCalls.length) := by
  -- Asking the table and calling nobody moves no counter.
  have hasked : ∀ {x : View} {filename : Str} {d : ThrottleDecision}
      {throttles : Option ThrottleTable}, Dressed v x →
      askThrottle pf x.shared.throttles filename = .ok (d, throttles) →
      u.shared = { x.shared with throttles } →
      Thttpd.bytesIn u.shared.throttles t = Thttpd.bytesIn v.shared.throttles t +
        cgiBooked pf w v.shared.throttles t (u.shared.cgiCalls.drop v.shared.cgiCalls.length) := by
    intro x filename d throttles hx hask hu
    have hbytes := bytesIn_askThrottle hask t
    rw [hx.shared] at hbytes hu
    rw [hu, List.drop_length, cgiBooked, Int.add_zero]
    exact hbytes
  cases h with
  | page hu => simp [hu.shared, cgiBooked]
  | file hx hask hu => exact hasked hx hask hu.shared
  | refused hx hask hu => exact hasked hx hask hu.shared
  | @ran x _ _ pathInfo d throttles call hx hask hcall hu =>
      have hqx : Quiet x := hq.of_dressed hx
      have hex := exchange_askThrottle pf hqx.fit hask
      have hent : Entered (rulesIn throttles) (cgiThrottle x.slot.throttle d).tnums := by
        rw [cgiThrottle_tnums hqx.tnums]
        exact hex.entered
      have hcalls : u.shared.cgiCalls = v.shared.cgiCalls ++ [call] := by
        rw [hu.shared]
        refine (releaseCgi_keeps _ _).2.1.trans ?_
        show x.shared.cgiCalls ++ [call] = _
        rw [hx.shared]
      have hbytes := releaseCgi_bytesIn (v := cgiStarted ((beginCgi x pathInfo).admitted throttles
        (cgiThrottle x.slot.throttle d)) call) (cgiCharge w call) hent t
      have hrules : scriptRules pf v.shared.throttles call = d.tnums := by
        rw [hcall, ← hx.shared]
        exact scriptRules_cgiCall hask
      rw [hcalls, List.drop_left, cgiBooked, cgiBooked, hu.shared]
      refine hbytes.trans ?_
      show Thttpd.bytesIn throttles t + claims (cgiThrottle x.slot.throttle d).tnums t * _ = _
      rw [bytesIn_askThrottle hask, hx.shared, cgiThrottle_tnums hqx.tnums, hrules, cgiCharge]
      cases w.execCgi call <;> simp

/-- Starting to send moves no counter. -/
theorem transitionToSending_bytesIn {pf : Platform} {w : World} {u v' : View}
    (h : transitionToSending pf w u = .ok v') (t : Nat) :
    bytesIn v'.shared.throttles t = bytesIn u.shared.throttles t ∧
      v'.shared.cgiCalls = u.shared.cgiCalls := by
  obtain ⟨⟨d, throttles⟩, hentry, h⟩ := bind_eq_ok.mp h
  simp only [pure, Except.pure, Except.ok.injEq] at h
  subst h
  refine ⟨?_, rfl⟩
  show bytesIn throttles t = _
  rcases entryDecision_cases hentry with ⟨-, -, hask⟩ | ⟨-, rfl, -⟩
  · exact bytesIn_askThrottle hask t
  · rfl

/-- A socket that took nothing has taken no body. -/
theorem bodyWritten_nil {slot : ConnSlot} {stream : Stream} (hst : slot.stream = some stream)
    (hw : stream.written = []) : slot.bodyWritten = 0 := by
  unfold ConnSlot.bodyWritten
  rw [hst]
  simp only [hw, List.length_nil]
  omega

/-- A read books the programs it ran. -/
theorem handleRead_booked {pf : Platform} {cfg : ServerConfig} {w : World} {v : View}
    {out : Outcome} (hq : Quiet v) (hs : v.slot.state = .reading) (hd : Delivery v.slot)
    (h : handleRead pf cfg w v = .ok out) : Booked pf w v out := by
  obtain ⟨stream, hst, hw⟩ := hd.reading hs
  cases handleRead_ends h with
  | closed => exact closeConnection_booked pf w v
  | goesOn hu =>
      refine keep_booked (congrArg Shared.throttles hu.shared) (congrArg Shared.cgiCalls hu.shared) ?_
      intro hne
      rw [hu.throttle] at hne
      exact absurd hq.tnums hne
  | @answered u v' ha =>
      intro t
      have hq' : Quiet (v.loaded w) := (Alike.mapHttp v _).quiet hq
      obtain ⟨hbytes, hcalls⟩ := transitionToSending_bytesIn ha.sends t
      have hbody : v'.slot.bodyWritten = 0 := by
        obtain ⟨⟨d, throttles⟩, -, hsend⟩ := bind_eq_ok.mp ha.sends
        cases hsend
        refine bodyWritten_nil ?_ hw
        exact (sendingSlot_stream pf w u.slot d).trans
          ((ha.prepares.carried hq').stream.trans hst)
      show bytesIn v'.shared.throttles t = _ + (bodyBooked v.slot (some v'.slot) t +
        cgiBooked pf w v.shared.throttles t (v'.shared.cgiCalls.drop _))
      rw [hbytes, hcalls, ha.prepares.bytesIn hq' t, bodyBooked, hbody, bodyWritten_nil hst hw,
        Int.sub_self, Int.mul_zero, Int.zero_add]
      rfl

/-! ### Writes in the ledger

The ledger looks at the stream, the counter at the position in the response.  That
the two agree is what `Delivery` says of a connection in flight.
-/

/-- The socket has what the connection counts. -/
theorem InFlight.bodyWritten {slot : ConnSlot} (h : InFlight slot) :
    slot.bodyWritten = max (slot.http.bytesSent - slot.http.responseHeaderLen) 0 := by
  obtain ⟨stream, hst, hw⟩ := h.written
  have hlower := h.lower
  have hupper := h.upper
  have hlength := h.length
  unfold ConnSlot.bodyWritten
  rw [hst]
  simp only
  rw [hw, List.length_take]
  omega

/-- Each rule is charged the body bytes of the write. -/
theorem chargeBody_bytesIn {w : World} {v : View} {sentBefore : Int}
    (hent : Entered (rulesIn v.shared.throttles) v.slot.throttle.tnums)
    (hle : sentBefore ≤ v.slot.http.bytesSent) (t : Nat) :
    bytesIn (chargeBody w v sentBefore).shared.throttles t
      = bytesIn v.shared.throttles t + claims v.slot.throttle.tnums t *
        (max (v.slot.http.bytesSent - v.slot.throttle.headerLen) 0
          - max (sentBefore - v.slot.throttle.headerLen) 0) := by
  unfold chargeBody
  simp only
  split
  · exact bytesIn_addBytes hent _ t
  · rename_i hnot
    by_cases ht : v.slot.throttle.isThrottled = true
    · have hzero : max (v.slot.http.bytesSent - (v.slot.throttle.headerLen : Int)) 0
          - max (sentBefore - v.slot.throttle.headerLen) 0 = 0 := by
        have : ¬ 0 < max (v.slot.http.bytesSent - (v.slot.throttle.headerLen : Int)) 0
          - max (sentBefore - v.slot.throttle.headerLen) 0 := fun hpos => hnot ⟨ht, hpos⟩
        omega
      rw [hzero, Int.mul_zero, Int.add_zero]
    · rw [isThrottled_eq_false (Bool.eq_false_iff.mpr ht), claims_nil, Int.zero_mul, Int.add_zero]

/--
**A write moves the counters by what the socket took of the body.**

A write that is still within the head charges nothing, and the one that crosses its
end charges what lies behind.  That is why the ledger counts what was written of the
body and not what was written.
-/
theorem afterWrite_booked {pf : Platform} {w : World} {v : View} {stream : Stream} {chunk : Bytes}
    (ho : Orderly v.shared.throttles v.slot) (hm : Metered v.slot) (hin : InFlight v.slot)
    (hs : v.slot.state = .sending) (hst : v.slot.stream = some stream)
    (hchunk : chunk <+: v.slot.http.response.drop v.slot.http.bytesSent.toNat) :
    Booked pf w v (afterWrite w v stream chunk) := by
  have hin' := countWritten_inFlight hin hst hchunk
  obtain ⟨hhttp, hstream⟩ := chargeBody_http w (countWritten v stream chunk) v.slot.http.bytesSent
  obtain ⟨-, htnums, -⟩ := chargeBody_slot w (countWritten v stream chunk) v.slot.http.bytesSent
  intro t
  -- the connection that is left, lingering or not, has the same socket, head and rules
  have hafter : ∃ slot', (afterWrite w v stream chunk).slot = some slot' ∧
      slot'.throttle.tnums = v.slot.throttle.tnums ∧
      slot'.bodyWritten = (countWritten v stream chunk).slot.bodyWritten := by
    unfold afterWrite
    simp only
    split
    · refine ⟨_, rfl, htnums, ?_⟩
      show ConnSlot.bodyWritten { (chargeBody w (countWritten v stream chunk) _).slot with
        state := _, http := _ } = _
      unfold ConnSlot.bodyWritten
      rw [hstream]
      simp only [hhttp]
    · refine ⟨_, rfl, htnums, ?_⟩
      unfold ConnSlot.bodyWritten
      rw [hstream, hhttp]
  obtain ⟨slot', hslot', htnums', hbody'⟩ := hafter
  rw [booked_of_calls (afterWrite_calls w v stream chunk), hslot', bodyBooked, htnums', hbody',
    hin'.bodyWritten, hin.bodyWritten, afterWrite_shared]
  have hgrows : v.slot.http.bytesSent ≤ (countWritten v stream chunk).slot.http.bytesSent := by
    show v.slot.http.bytesSent ≤ v.slot.http.bytesSent + chunk.length
    omega
  refine (chargeBody_bytesIn (v := countWritten v stream chunk) ho.entered hgrows t).trans ?_
  by_cases hnil : v.slot.throttle.tnums = []
  · show bytesIn v.shared.throttles t + claims v.slot.throttle.tnums t * _ = _
    rw [hnil, claims_nil, Int.zero_mul, Int.zero_mul]
  · have hhead : v.slot.throttle.headerLen = v.slot.http.responseHeaderLen :=
      (hm.sending (.inl hs) hnil).2
    show bytesIn v.shared.throttles t + claims v.slot.throttle.tnums t *
      (max (_ - (v.slot.throttle.headerLen : Int)) 0 - max (_ - (v.slot.throttle.headerLen : Int)) 0)
        = _
    rw [hhead]
    rfl

theorem handleSend_booked {pf : Platform} {w : World} {v : View} {out : Outcome}
    (ho : Orderly v.shared.throttles v.slot) (hm : Metered v.slot) (hin : InFlight v.slot)
    (hs : v.slot.state = .sending) (h : handleSend pf w v = .ok out) : Booked pf w v out := by
  cases handleSend_ends h with
  | finished _ => exact keep_booked rfl rfl fun _ => rfl
  | paused _ _ => exact keep_booked rfl rfl fun _ => rfl
  | closed => exact closeConnection_booked pf w v
  | blocked _ _ => exact keep_booked rfl rfl fun _ => rfl
  | wrote _ _ hst hrem _ =>
      refine afterWrite_booked ho hm hin hs hst ?_
      rw [← hin.remaining hrem]
      exact (List.take_prefix _ _).trans (List.take_prefix _ _)

/-- A pause that ends goes on with a write. -/
theorem handlePause_booked {pf : Platform} {w : World} {v : View} {out : Outcome}
    (ho : Orderly v.shared.throttles v.slot) (hm : Metered v.slot) (hin : InFlight v.slot)
    (hs : v.slot.state = .pausing) (h : handlePause pf w v = .ok out) : Booked pf w v out := by
  cases handlePause_ends h with
  | waits => exact keep_booked rfl rfl fun _ => rfl
  | closed => exact closeConnection_booked pf w (wake v)
  | woke h =>
      exact handleSend_booked (v := wake v) (wake_orderly ho) (wake_metered hm hs)
        (wake_inFlight hin) rfl h

/--
**Every event moves the counters by what it adds to the ledger.**

By the state the event finds the connection in; each handler has its own lemma.
-/
theorem handleConnectionEvent_booked {pf : Platform} {cfg : ServerConfig} {w : World} {v : View}
    {out : Outcome} (ho : Orderly v.shared.throttles v.slot)
    (hfit : SendersFit v.shared.throttles) (hm : Metered v.slot)
    (hd : Delivery v.slot) (h : handleConnectionEvent pf cfg w v = .ok out) :
    Booked pf w v out := by
  cases handleConnectionEvent_ends h with
  | reading hs h => exact handleRead_booked ⟨ho.reading hs, hfit⟩ hs hd h
  | sending hs h => exact handleSend_booked ho hm (hd.inFlight (.inl hs)) hs h
  | pausing hs h => exact handlePause_booked ho hm (hd.inFlight (.inr hs)) hs h
  | lingering _ => exact closeConnection_booked pf w v
  | free _ => exact keep_booked rfl rfl fun _ => rfl

/-! ### Runs with a ledger

A ledger is carried along the steps.  The periodic update sets it to zero, as it does
the counters; every other step adds what its event did.
-/

/-- What has been booked for each rule since the averages were updated. -/
abbrev Ledger := Nat → Int

/-- What the event that led from `s` to `s'` on connection `k` adds. -/
def Server.booked (pf : Platform) (w : World) (k : Nat) (s s' : Server) (t : Nat) : Int :=
  match s.conns.at? k with
  | some slot => Thttpd.booked pf w (s.view slot) ⟨s'.shared, s'.conns.at? k⟩ t
  | none => 0

/-- A step of the server, with its ledger. -/
inductive BookedStep (pf : Platform) (cfg : ServerConfig) :
    Server × Ledger → Server × Ledger → Prop
  | accept {s : Server} {books : Ledger} {k : Nat} (peer : PeerAddr) :
      s.draining = false → s.conns.len < maxConnections → s.conns.Vacant k →
      BookedStep pf cfg (s, books) (s.accept k peer, books)
  | event {s s' : Server} {books : Ledger} (w : World) (k : Nat) :
      s.event pf cfg w k = .ok s' →
      BookedStep pf cfg (s, books) (s', fun t => books t + s.booked pf w k s' t)
  | resume {s s' : Server} {books : Ledger} (w : World) (k : Nat) :
      s.resume pf w k = .ok s' →
      BookedStep pf cfg (s, books) (s', fun t => books t + s.booked pf w k s' t)
  /-- The averages of the table, if there is one, are updated. -/
  | tick {s s' : Server} {books : Ledger} (w : Nat → World) :
      tick pf w s = .ok s' →
      BookedStep pf cfg (s, books) (s', if s.shared.throttles.isSome then fun _ => 0 else books)
  | drain {s : Server} {books : Ledger} :
      BookedStep pf cfg (s, books) ({ s with draining := true }, books)

/-- A server with the ledger of the run that led to it. -/
def Server.Kept (pf : Platform) (cfg : ServerConfig) (s : Server) (books : Ledger) : Prop :=
  Lts.Reachable (fun p : Server × Ledger => p.1.Init ∧ p.2 = fun _ => 0) (BookedStep pf cfg)
    (s, books)

theorem BookedStep.step {pf : Platform} {cfg : ServerConfig} {p q : Server × Ledger}
    (h : BookedStep pf cfg p q) : Step pf cfg p.1 q.1 := by
  cases h with
  | accept peer hd hroom hvac => exact .accept peer hd hroom hvac
  | event w k h => exact .event w k h
  | resume w k h => exact .resume w k h
  | tick w h => exact .tick w h
  | drain => exact .drain

/-- Every run has a ledger. -/
theorem Step.booked {pf : Platform} {cfg : ServerConfig} {s s' : Server} (h : Step pf cfg s s')
    (books : Ledger) : ∃ books', BookedStep pf cfg (s, books) (s', books') := by
  cases h with
  | accept peer hd hroom hvac => exact ⟨_, .accept peer hd hroom hvac⟩
  | event w k h => exact ⟨_, .event w k h⟩
  | resume w k h => exact ⟨_, .resume w k h⟩
  | tick w h => exact ⟨_, .tick w h⟩
  | drain => exact ⟨_, .drain⟩

theorem Server.Reachable.kept {pf : Platform} {cfg : ServerConfig} {s : Server}
    (h : s.Reachable pf cfg) : ∃ books, s.Kept pf cfg books :=
  h.remember (fun _ hinit => ⟨fun _ => 0, hinit, rfl⟩) (fun _ _ books _ hstep => hstep.booked books)

theorem Server.Kept.reachable {pf : Platform} {cfg : ServerConfig} {s : Server} {books : Ledger}
    (h : s.Kept pf cfg books) : s.Reachable pf cfg :=
  h.forget (fun _ hinit => hinit.1) (fun _ _ hstep => hstep.step)

/-- The counters of the table are the ledger. -/
def Balanced (p : Server × Ledger) : Prop := ∀ t, bytesIn p.1.shared.throttles t = p.2 t

/-- An event whose connection was not touched adds nothing. -/
theorem Server.booked_same (pf : Platform) (w : World) (k : Nat) (s : Server) (t : Nat) :
    s.booked pf w k s t = 0 := by
  unfold Server.booked
  split
  · rename_i slot hk
    rw [booked_of_calls (by rfl), hk]
    simp [bodyBooked, Server.view]
  · rfl

/-- What an event adds, from the connection it leaves. -/
theorem Server.booked_after {pf : Platform} {w : World} {k : Nat} {s : Server} {slot : ConnSlot}
    {out : Outcome} (hk : s.conns.at? k = some slot) (t : Nat) :
    s.booked pf w k (s.after k out) t = Thttpd.booked pf w (s.view slot) out t := by
  have hafter : (s.after k out).conns.at? k = out.slot := Slab.at?_update hk out.slot
  unfold Server.booked
  rw [hk]
  simp only
  rw [hafter]
  rfl

/-- An event on a connection, or on none. -/
theorem Balanced.event {pf : Platform} {cfg : ServerConfig} {w : World} {k : Nat} {s s' : Server}
    {books : Ledger} (hs : s.Reachable pf cfg) (h : Balanced (s, books))
    (hev : s' = s ∨ ∃ slot out, s.conns.at? k = some slot ∧
      handleConnectionEvent pf cfg w (s.view slot) = .ok out ∧ s' = s.after k out) :
    Balanced (s', fun t => books t + s.booked pf w k s' t) := by
  intro t
  rcases hev with rfl | ⟨slot, out, hk, hout, rfl⟩
  · show bytesIn s'.shared.throttles t = books t + s'.booked pf w k s' t
    rw [Server.booked_same, Int.add_zero]
    exact h t
  · have hmem := Slab.mem_of_at? hk
    have hb := handleConnectionEvent_booked (hs.counted.orderly slot hmem) hs.counted.fit
      (hs.metered slot hmem) (hs.delivering slot hmem) hout t
    have hbefore : bytesIn (s.view slot).shared.throttles t = books t := h t
    show bytesIn out.shared.throttles t = books t + s.booked pf w k (s.after k out) t
    rw [Server.booked_after hk, hb, hbefore]

/-- The update sets every counter to zero. -/
theorem updateAverages_bytes {pf : Platform} : ∀ {table table' : ThrottleTable},
    table.updateAverages pf = .ok table' → ∀ e ∈ table', e.bytesSinceAvg = 0 := by
  intro table
  induction table with
  | nil =>
      intro table' h e he
      cases h
      cases he
  | cons x rest ih =>
      intro table' h e he
      rw [ThrottleTable.updateAverages, List.mapM_cons] at h
      obtain ⟨x', hx, h⟩ := bind_eq_ok.mp h
      obtain ⟨rest', hrest, h⟩ := bind_eq_ok.mp h
      cases h
      rcases List.mem_cons.mp he with rfl | he
      · obtain ⟨twice, -, hx⟩ := bind_eq_ok.mp hx
        obtain ⟨sum, -, hx⟩ := bind_eq_ok.mp hx
        cases hx
        rfl
      · exact ih hrest e he

theorem tickTable_bytesIn {pf : Platform} {table : ThrottleTable} {ts : Option ThrottleTable}
    (h : tickTable pf (some table) = .ok ts) (t : Nat) : bytesIn ts t = 0 := by
  obtain ⟨table', havg, h⟩ := bind_eq_ok.mp h
  cases h
  show ThrottleTable.bytesAt table' t = 0
  unfold ThrottleTable.bytesAt
  rw [List.getElem?_map]
  cases he : table'[t]? with
  | none => rfl
  | some e => exact updateAverages_bytes havg e (List.mem_of_getElem? he)

/-- **A step keeps the counters and the ledger equal.** -/
theorem Balanced.step {pf : Platform} {cfg : ServerConfig} {p q : Server × Ledger}
    (hs : p.1.Reachable pf cfg) (h : Balanced p) (hstep : BookedStep pf cfg p q) :
    Balanced q := by
  cases hstep with
  | accept peer _ _ _ => exact h
  | event w k hev => exact h.event hs (Server.event_cases hev)
  | resume w k hev => exact h.event hs (Server.resume_cases cfg hev)
  | @tick s s' books w ht =>
      obtain ⟨throttles, hup, ht⟩ := bind_eq_ok.mp ht
      cases ht
      intro t
      show bytesIn throttles t = (if s.shared.throttles.isSome then fun _ => 0 else books) t
      cases hts : s.shared.throttles with
      | none =>
          rw [hts] at hup
          cases hup
          have := h t
          rw [hts] at this
          exact this
      | some table =>
          rw [hts] at hup
          exact tickTable_bytesIn hup t
  | drain => exact h

theorem Balanced.init {p : Server × Ledger} (h : p.1.Init ∧ p.2 = fun _ => 0) : Balanced p := by
  obtain ⟨hinit, hbooks⟩ := h
  intro t
  rw [hbooks]
  unfold bytesIn
  split
  · rename_i table htable
    unfold ThrottleTable.bytesAt
    rw [List.getElem?_map]
    cases he : table[t]? with
    | none => rfl
    | some e =>
        obtain ⟨pattern, maxLimit, minLimit, rfl⟩ :=
          hinit.newTable table htable e (List.mem_of_getElem? he)
        rfl
  · rfl

theorem Server.Kept.balanced {pf : Platform} {cfg : ServerConfig} {s : Server} {books : Ledger}
    (h : s.Kept pf cfg books) : Balanced (s, books) := by
  have hboth : s.Reachable pf cfg ∧ Balanced (s, books) := by
    refine Lts.Reachable.invariant
      (fun p : Server × Ledger => p.1.Reachable pf cfg ∧ Balanced p) h ?_ ?_
    · intro p hinit
      exact ⟨Lts.Reachable.start hinit.1, .init hinit⟩
    · intro p q hp hstep
      exact ⟨hp.1.tail hstep.step, hp.2.step hp.1 hstep⟩
  exact hboth.2

/--
**In every state of every run the throttle accounts are exact.**  A connection under
rules that sends or pauses has counted the body bytes it sent; every run has a
ledger, and with any ledger of the run the counter of each rule is what the ledger
says; and a connection that ran a program holds no rule, so nothing of its response
is counted.

The ledger is a second account of the same run, kept by what the sockets took and
which programs were run, and not by what the handlers computed, so that the counters
are compared with something they were not made from.
-/
theorem throttle_accounting_exact {pf : Platform} {cfg : ServerConfig} {s : Server}
    (h : s.Reachable pf cfg) :
    (∀ slot, some slot ∈ s.conns → slot.isCgi = false → slot.throttle.tnums ≠ [] →
      slot.state = .sending ∨ slot.state = .pausing →
      slot.throttle.bodyBytes = max 0 (slot.http.bytesSent - slot.throttle.headerLen)) ∧
    (∃ books, s.Kept pf cfg books) ∧
    (∀ books, s.Kept pf cfg books → ∀ table, s.shared.throttles = some table →
      ∀ t e, table[t]? = some e → e.bytesSinceAvg = books t) ∧
    (∀ slot, some slot ∈ s.conns → slot.isCgi = true → slot.throttle.tnums = []) := by
  refine ⟨?_, h.kept, ?_, fun slot hslot => (h.metered slot hslot).cgi⟩
  · intro slot hslot _ hne hstate
    rw [((h.metered slot hslot).sending hstate hne).1]
    exact Int.max_comm _ _
  · intro books hkept table htable t e he
    have hbal := hkept.balanced t
    rw [show (s, books).1.shared.throttles = some table from htable] at hbal
    simpa [bytesIn, ThrottleTable.bytesAt, he] using hbal

/-! ### A file under a rule

Three bytes that were charged to the one rule there is.
-/

/-- The server of one connection under a rule, after the socket took the whole reply. -/
def wholeSentServer : Server :=
  resultOf (Server.start none) (sendingServer.event .epoch wwwConfig
    { World.still (wwwTree []) with write := .accepted 1000 } 0)

theorem wholeSentServer_reachable : wholeSentServer.Reachable .epoch wwwConfig :=
  sendingServer_reachable.tail (.event _ 0 (eq_ok_of_panicOf _ (by decide +kernel)))

/-- The three bytes of the file were booked for its rule. -/
theorem throttle_accounting_exact_file :
    ∃ books, wholeSentServer.Kept .epoch wwwConfig books ∧ books 0 = 3 := by
  obtain ⟨-, ⟨books, hkept⟩, hbytes, -⟩ := throttle_accounting_exact wholeSentServer_reachable
  have hthree : (wholeSentServer.shared.throttles.bind fun table =>
      (table[0]?).map ThrottleEntry.bytesSinceAvg) = some 3 := by decide +kernel
  obtain ⟨table, htable, he⟩ := Option.bind_eq_some_iff.mp hthree
  obtain ⟨e, he, hcount⟩ := Option.map_eq_some_iff.mp he
  exact ⟨books, hkept, (hbytes books hkept table htable 0 e he).symm.trans hcount⟩

end Thttpd
