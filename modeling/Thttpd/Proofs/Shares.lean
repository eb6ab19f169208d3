/-
What the periodic update does to the shares.

The C server gives every connection that sends or pauses its share anew.  Here only a
connection whose pause is over gets one; the others keep the limit they were admitted
or last woken with.  So the update leaves every connection its share exactly when those
it passes over have theirs already, and the shares of a rule then add up to no more than
the rule.

That last step rests on the marker for "no limit", which is a number a share could be: a
share of -1 would make the running minimum start again.  It never is one, because a rule
that small refuses every request.

The two servers are compared in the same state.  The C server's update is modelled
beside this one's, over the same table and connections, so that what the one leaves
undone can be seen from what the other does.
-/
import Thttpd.Proofs.Senders
import Thttpd.Legacy.Thttpd

namespace Thttpd

open Text

/-! ### The share of a rule

The share of a connection is the minimum of its rules' shares.  It is computed by a
loop that starts with a marker for no limit, and the loop is the minimum as long as
no share equals the marker.
-/

/-- What a rule leaves for one of its senders. -/
def ThrottleEntry.share (e : ThrottleEntry) : Int := e.maxLimit.tdiv (max e.numSending 1)

/-- One step of `fair_share_for`. -/
def shareStep (table : ThrottleTable) (maxLimit : Int) (tnum : Nat) : Int :=
  match table[tnum]? with
  | some e => ThrottleTable.minLimited maxLimit e.share
  | none => maxLimit

theorem fairShareFor_eq (table : ThrottleTable) (tnums : List Nat) :
    table.fairShareFor tnums = tnums.foldl (shareStep table) throttleNolimit := rfl

/-- No rule in the list has a share that reads as "no limit". -/
def NoMarker (table : ThrottleTable) (tnums : List Nat) : Prop :=
  ∀ t ∈ tnums, ∀ e, table[t]? = some e → e.share ≠ throttleNolimit

theorem NoMarker.tail {table : ThrottleTable} {t : Nat} {tnums : List Nat}
    (h : NoMarker table (t :: tnums)) : NoMarker table tnums :=
  fun t' ht' => h t' (List.mem_cons_of_mem _ ht')

/-- Once there is a limit, the running minimum is one. -/
theorem foldl_shareStep_le {table : ThrottleTable} : ∀ {tnums : List Nat} (maxLimit : Int),
    NoMarker table tnums → maxLimit ≠ throttleNolimit →
      tnums.foldl (shareStep table) maxLimit ≤ maxLimit ∧
      ∀ t ∈ tnums, ∀ e, table[t]? = some e → tnums.foldl (shareStep table) maxLimit ≤ e.share := by
  intro tnums
  induction tnums with
  | nil =>
      intro maxLimit _ _
      exact ⟨Int.le_refl _, fun t ht => by cases ht⟩
  | cons x rest ih =>
      intro maxLimit hno hmax
      rw [List.foldl_cons]
      cases hx : table[x]? with
      | none =>
          have hstep : shareStep table maxLimit x = maxLimit := by simp [shareStep, hx]
          rw [hstep]
          obtain ⟨hle, hall⟩ := ih maxLimit hno.tail hmax
          refine ⟨hle, fun t ht e he => ?_⟩
          rcases List.mem_cons.mp ht with rfl | ht
          · cases hx.symm.trans he
          · exact hall t ht e he
      | some ex =>
          have hshare := hno x List.mem_cons_self ex hx
          have hstep : shareStep table maxLimit x = min maxLimit ex.share := by
            simp [shareStep, hx, ThrottleTable.minLimited, hmax]
          rw [hstep]
          obtain ⟨hle, hall⟩ := ih (min maxLimit ex.share) hno.tail (by omega)
          refine ⟨by omega, fun t ht e he => ?_⟩
          rcases List.mem_cons.mp ht with rfl | ht
          · cases hx.symm.trans he
            omega
          · exact hall t ht e he

/--
**The fair share is at most the share of each rule.**

Induction on the rules of the connection, with the running minimum as an
accumulator.
-/
theorem fairShareFor_le {table : ThrottleTable} : ∀ {tnums : List Nat}, NoMarker table tnums →
    ∀ t ∈ tnums, ∀ e, table[t]? = some e → table.fairShareFor tnums ≤ e.share := by
  intro tnums
  rw [fairShareFor_eq]
  induction tnums with
  | nil =>
      intro _ t ht
      cases ht
  | cons x rest ih =>
      intro hno t ht e he
      rw [List.foldl_cons]
      cases hx : table[x]? with
      | none =>
          have hstep : shareStep table throttleNolimit x = throttleNolimit := by
            simp [shareStep, hx]
          rw [hstep]
          rcases List.mem_cons.mp ht with rfl | ht
          · cases hx.symm.trans he
          · exact ih hno.tail t ht e he
      | some ex =>
          have hshare := hno x List.mem_cons_self ex hx
          have hstep : shareStep table throttleNolimit x = ex.share := by
            simp [shareStep, hx, ThrottleTable.minLimited]
          rw [hstep]
          obtain ⟨hle, hall⟩ := foldl_shareStep_le _ hno.tail hshare
          rcases List.mem_cons.mp ht with rfl | ht
          · cases hx.symm.trans he
            exact hle
          · exact hall t ht e he

/-- The limits and the counts decide the share. -/
theorem fairShareFor_congr {table table' : ThrottleTable}
    (h : table'.map (fun e => (e.maxLimit, e.numSending))
      = table.map (fun e => (e.maxLimit, e.numSending))) (tnums : List Nat) :
    table'.fairShareFor tnums = table.fairShareFor tnums := by
  rw [fairShareFor_eq, fairShareFor_eq]
  congr 1
  funext maxLimit t
  have ht : (table'[t]?).map (fun e => (e.maxLimit, e.numSending))
      = (table[t]?).map (fun e => (e.maxLimit, e.numSending)) := by
    rw [← List.getElem?_map, ← List.getElem?_map, h]
  unfold shareStep ThrottleEntry.share
  cases h' : table'[t]? <;> cases h₀ : table[t]? <;> simp [h', h₀] at ht ⊢
  rw [ht.1, ht.2]

/-! ### Rules in a run

The limits in the table are those of the file, and the number of senders is bounded
by the connections there may be.
-/

theorem tickTable_map {β : Type} (f : ThrottleEntry → β)
    (hf : ∀ e r b, f { e with rate := r, bytesSinceAvg := b } = f e) {pf : Platform}
    {ts ts' : Option ThrottleTable} (h : tickTable pf ts = .ok ts') :
    ts'.map (List.map f) = ts.map (List.map f) := by
  cases ts with
  | none =>
      cases h
      rfl
  | some table =>
      obtain ⟨table', havg, h⟩ := bind_eq_ok.mp h
      cases h
      exact congrArg some (updateAverages_map f hf havg)

/--
The rules have the limits they had at the start, every rule a connection holds
admits requests, and there are not too many connections.
-/
structure Rated (lims : Option (List (Int × Int))) (s : Server) : Prop where
  limits : limitsIn s.shared.throttles = lims
  granted : ∀ slot, some slot ∈ s.conns → Granted lims slot.throttle.tnums
  room : s.conns.len ≤ maxConnections

namespace Rated

variable {lims : Option (List (Int × Int))} {pf : Platform} {cfg : ServerConfig} {s s' : Server}

theorem event {w : World} {k : Nat} (hc : Counted s) (h : Rated lims s)
    (hev : s' = s ∨ ∃ slot out, s.conns.at? k = some slot ∧
      handleConnectionEvent pf cfg w (s.view slot) = .ok out ∧ s' = s.after k out) :
    Rated lims s' := by
  rcases hev with rfl | ⟨slot, out, hk, hout, rfl⟩
  · exact h
  have hmem := Slab.mem_of_at? hk
  have hex : Exchange s.shared.throttles slot.throttle.tnums out.shared.throttles out.tnums :=
    (handleConnectionEvent_settled (hc.orderly slot hmem) hc.fit hout).exchange
  have hlimits : limitsIn out.shared.throttles = lims := hex.limits.trans h.limits
  refine ⟨hlimits, Slab.forall_update h.granted ?_, ?_⟩
  · intro slot' hslot'
    have hgranted := hex.granted (h.limits.symm ▸ h.granted slot hmem)
    unfold Outcome.tnums at hgranted
    rw [hslot', hlimits] at hgranted
    exact hgranted
  · exact Nat.le_trans (Slab.len_update hk out.slot) h.room

theorem tick {w : Nat → World} (h : Rated lims s) (ht : tick pf w s = .ok s') : Rated lims s' := by
  obtain ⟨throttles, hup, ht⟩ := bind_eq_ok.mp ht
  cases ht
  refine ⟨?_, Slab.forall_mapEntries fun k slot hslot => ?_, ?_⟩
  · exact (tickTable_map _ (fun _ _ _ => rfl) hup).trans h.limits
  · rw [tickSlot_tnums]
    exact h.granted slot hslot
  · show Slab.len (s.conns.mapEntries _) ≤ maxConnections
    rw [Slab.len_mapEntries]
    exact h.room

theorem step (hc : Counted s) (h : Rated lims s) (hstep : Step pf cfg s s') : Rated lims s' := by
  cases hstep with
  | @accept k peer _ hroom hvac =>
      refine ⟨h.limits, Slab.forall_put h.granted (.nil _), ?_⟩
      show Slab.len (s.conns.put k (ConnSlot.accepted peer)) ≤ maxConnections
      rw [Slab.len_put hvac]
      omega
  | event w k hev => exact h.event hc (Server.event_cases hev)
  | resume w k hev => exact h.event hc (Server.resume_cases cfg hev)
  | tick w ht => exact h.tick ht
  | drain => exact ⟨h.limits, h.granted, h.room⟩

end Rated

theorem Server.RunsFrom.rated {pf : Platform} {cfg : ServerConfig}
    {throttles : Option ThrottleTable} {s : Server} (h : s.RunsFrom pf cfg throttles)
    (hnew : ∀ table, throttles = some table → ∀ e ∈ table, ∃ pattern maxLimit minLimit,
      e = ThrottleEntry.new pattern maxLimit minLimit) : Rated (limitsIn throttles) s := by
  have hboth : Counted s ∧ Rated (limitsIn throttles) s := by
    refine Lts.Reachable.invariant (fun s => Counted s ∧ Rated (limitsIn throttles) s) h ?_ ?_
    · rintro s rfl
      refine ⟨.init ⟨rfl, rfl, rfl, hnew⟩, rfl, ?_, Nat.zero_le _⟩
      intro slot hslot
      cases hslot
    · intro s s' hs hstep
      exact ⟨hs.1.step hstep, hs.2.step hs.1 hstep⟩
  exact hboth.2

/--
With the rules of a file, a rule that somebody holds has a limit of at least
nothing, or one far below.
-/
theorem Server.Launched.limit {pf : Platform} {cfg : ServerConfig} {s : Server}
    (h : s.Launched pf cfg) {table : ThrottleTable} (htable : s.shared.throttles = some table)
    {slot : ConnSlot} (hslot : some slot ∈ s.conns) {t : Nat} (ht : t ∈ slot.throttle.tnums)
    {e : ThrottleEntry} (he : table[t]? = some e) :
    0 ≤ e.maxLimit ∨ e.maxLimit < -4611686018427387904 := by
  obtain ⟨throttles, hload, hrun⟩ := h
  have hrules : ∀ table, throttles = some table → ∀ e ∈ table, ∃ pattern maxLimit minLimit,
      0 ≤ minLimit ∧ e = ThrottleEntry.new pattern maxLimit minLimit := by
    intro table htable
    rcases hload with rfl | ⟨content, rfl⟩
    · cases htable
    · exact ThrottleTable.load_rules htable
  have hrated : Rated (limitsIn throttles) s := hrun.rated fun table htable e he => by
    obtain ⟨pattern, maxLimit, minLimit, -, rfl⟩ := hrules table htable e he
    exact ⟨_, _, _, rfl⟩
  -- the limits now are those the rule had in the file
  have hnow : ((limitsIn throttles).bind fun l => l[t]?) = some (e.maxLimit, e.minLimit) := by
    rw [← hrated.limits, htable]
    simp [limitsIn, he]
  refine hrated.granted slot hslot t ht _ _ hnow ?_
  obtain ⟨l, hl, hlt⟩ := Option.bind_eq_some_iff.mp hnow
  obtain ⟨table₀, htable₀, rfl⟩ := Option.map_eq_some_iff.mp hl
  rw [List.getElem?_map] at hlt
  obtain ⟨e₀, he₀, hlim⟩ := Option.map_eq_some_iff.mp hlt
  obtain ⟨pattern, maxLimit, minLimit, hmin, rfl⟩ :=
    hrules table₀ htable₀ e₀ (List.mem_of_getElem? he₀)
  cases hlim
  exact hmin

/-- Among at most so many senders, such a limit leaves no share of -1. -/
theorem share_ne_marker {e : ThrottleEntry} (hcount : e.numSending ≤ 4096)
    (h : 0 ≤ e.maxLimit ∨ e.maxLimit < -4611686018427387904) : e.share ≠ throttleNolimit := by
  unfold ThrottleEntry.share throttleNolimit
  have hpos : 0 < max e.numSending 1 := by omega
  rcases h with h | h
  · have := Int.tdiv_nonneg h (Int.le_of_lt hpos)
    omega
  · intro hone
    have hdiv : (-e.maxLimit).tdiv (max e.numSending 1) = 1 := by
      rw [Int.neg_tdiv, hone]
      rfl
    rw [Int.tdiv_eq_ediv_of_nonneg (by omega)] at hdiv
    have hlt := Int.lt_mul_ediv_self_add (x := -e.maxLimit) hpos
    rw [hdiv] at hlt
    omega

theorem Server.Launched.room {pf : Platform} {cfg : ServerConfig} {s : Server}
    (h : s.Launched pf cfg) : s.conns.len ≤ maxConnections := by
  obtain ⟨throttles, hload, hrun⟩ := h
  refine (hrun.rated fun table htable => ?_).room
  rcases hload with rfl | ⟨content, rfl⟩
  · cases htable
  · exact ThrottleTable.load_new htable

/--
**No share reads as "no limit".**

A share of -1 would need a maximum that is negative and of the size of the number of
senders, and such a rule refuses every request.
-/
theorem Server.Launched.noMarker {pf : Platform} {cfg : ServerConfig} {s : Server}
    (h : s.Launched pf cfg) {table : ThrottleTable} (htable : s.shared.throttles = some table)
    {slot : ConnSlot} (hslot : some slot ∈ s.conns) : NoMarker table slot.throttle.tnums := by
  intro t ht e he
  refine share_ne_marker ?_ (h.limit htable hslot ht he)
  have hcount := h.reachable.counted.count t
  rw [htable] at hcount
  simp only [sendersIn, ThrottleTable.senders, he] at hcount
  have hle : s.holders t ≤ maxConnections := Nat.le_trans (Slab.count_le_len _ _) h.room
  unfold maxConnections at hle
  omega

/-! ### After the update

Who is due is woken with a new share, and everybody else keeps the old one.
-/

/-- A connection whose rate is limited by rules. -/
def ConnSlot.Limited (slot : ConnSlot) : Prop :=
  (slot.state = .sending ∨ slot.state = .pausing) ∧ slot.throttle.tnums ≠ []

instance (slot : ConnSlot) : Decidable slot.Limited := inferInstanceAs (Decidable (_ ∧ _))

/-- Its limit is the share the counts of the table leave it. -/
def ConnSlot.HasShare (throttles : Option ThrottleTable) (slot : ConnSlot) : Prop :=
  ∀ table, throttles = some table →
    slot.throttle.maxLimit = table.fairShareFor slot.throttle.tnums

/-- Its pause is over. -/
def ConnSlot.Due (w : World) (slot : ConnSlot) : Prop :=
  slot.state = .pausing ∧ ∃ deadline, slot.throttle.pauseUntil = some deadline ∧ deadline ≤ w.now

/-- Every limited connection has its share. -/
def Server.Redistributed (s : Server) : Prop :=
  ∀ k slot, s.conns.at? k = some slot → slot.Limited → slot.HasShare s.shared.throttles

/-- The limits of the connections under rule `t`, added up. -/
def Server.limitSum (s : Server) (t : Nat) : Int :=
  s.conns.sumOf fun slot =>
    if slot.Limited ∧ t ∈ slot.throttle.tnums then slot.throttle.maxLimit else 0

/-- They are no more than the rule allows. -/
def Server.WithinLimits (s : Server) : Prop :=
  ∀ table, s.shared.throttles = some table → ∀ t e, table[t]? = some e → 0 ≤ e.maxLimit →
    s.limitSum t ≤ e.maxLimit

/--
**When every connection has its share, the shares of a rule add up to no more than
it.**

There are as many limits as the rule has senders, and each is at most a sender's
share of it.
-/
theorem Server.Redistributed.withinLimits {pf : Platform} {cfg : ServerConfig} {s : Server}
    (h : s.Launched pf cfg) (hshare : s.Redistributed) : s.WithinLimits := by
  intro table htable t e he hmax
  have hcount : e.numSending = s.holders t := by
    have := h.reachable.counted.count t
    rw [htable] at this
    simpa [sendersIn, ThrottleTable.senders, he] using this
  have hpos : 0 < max e.numSending 1 := by omega
  have hnonneg : 0 ≤ e.share := Int.tdiv_nonneg hmax (Int.le_of_lt hpos)
  have hsum : s.limitSum t ≤ s.holders t * e.share := by
    refine Slab.sumOf_le fun slot hslot => ?_
    obtain ⟨k, hk⟩ := List.getElem?_of_mem hslot
    split
    · rename_i hlim
      have hholds : slot.holds t = true := by
        unfold ConnSlot.holds
        simpa using hlim.2
      rw [if_pos hholds, hshare k slot (Slab.at?_eq_some.mpr hk) hlim.1 table htable]
      exact fairShareFor_le (h.noMarker htable hslot) t hlim.2 e he
    · split
      · exact hnonneg
      · exact Int.le_refl 0
  refine Int.le_trans hsum ?_
  rw [← hcount]
  unfold ThrottleEntry.share
  rw [Int.tdiv_eq_ediv_of_nonneg hmax]
  have hmul := Int.mul_ediv_self_le (x := e.maxLimit) (k := max e.numSending 1) (by omega)
  by_cases hone : 0 < e.numSending
  · have hmaxone : max e.numSending 1 = e.numSending := by omega
    rw [hmaxone] at hmul ⊢
    exact hmul
  · have hzero : e.numSending = 0 := by omega
    rw [hzero, Int.zero_mul]
    exact hmax

/-- What the update does to one connection. -/
theorem tickSlot_due {shared : Shared} {w : World} {slot : ConnSlot}
    (hne : slot.throttle.tnums ≠ []) (h : slot.Due w) :
    tickSlot shared w slot = (wake ⟨shared, slot⟩).slot := by
  obtain ⟨hs, deadline, hd, hle⟩ := h
  unfold tickSlot
  rw [hd]
  simp only
  rw [if_pos ⟨hs, isThrottled_iff.mpr hne, hle⟩]

theorem tickSlot_not_due {shared : Shared} {w : World} {slot : ConnSlot} (h : ¬ slot.Due w) :
    tickSlot shared w slot = slot := by
  unfold tickSlot
  split
  · rename_i deadline hd
    rw [if_neg fun hc => h ⟨hc.1, deadline, hd, hc.2.2⟩]
  · rfl

/--
**The update leaves a limited connection its share when it wakes it, or when it had
it.**

The averages change nothing in a share, which is made from limits and counts.
-/
theorem tickSlot_hasShare {pf : Platform} {shared : Shared} {throttles : Option ThrottleTable}
    {w : World} {slot : ConnSlot} (hup : tickTable pf shared.throttles = .ok throttles)
    (hne : slot.throttle.tnums ≠ []) :
    (tickSlot { shared with throttles := throttles } w slot).HasShare throttles ↔
      slot.Due w ∨ slot.HasShare shared.throttles := by
  by_cases hdue : slot.Due w
  · refine iff_of_true ?_ (.inl hdue)
    intro table htable
    rw [tickSlot_due hne hdue]
    simp only [wake, refreshShare, htable]
  · rw [tickSlot_not_due hdue]
    have hsame := tickTable_map (fun e => (e.maxLimit, e.numSending)) (fun _ _ _ => rfl) hup
    have hiff : slot.HasShare throttles ↔ slot.HasShare shared.throttles := by
      unfold ConnSlot.HasShare
      cases hts : shared.throttles with
      | none =>
          rw [hts] at hsame
          cases throttles with
          | none => exact Iff.rfl
          | some table => cases hsame
      | some table =>
          rw [hts] at hsame
          cases throttles with
          | none => cases hsame
          | some table' =>
              have hshare := fairShareFor_congr (Option.some.inj hsame) slot.throttle.tnums
              simp [hshare]
    rw [hiff]
    exact ⟨.inr, fun h => h.resolve_left hdue⟩

theorem tickSlot_limited {shared : Shared} {w : World} {slot : ConnSlot} :
    (tickSlot shared w slot).Limited ↔ slot.Limited := by
  unfold ConnSlot.Limited
  rw [tickSlot_tnums]
  refine and_congr_left fun hne => ?_
  by_cases hdue : slot.Due w
  · rw [tickSlot_due hne hdue]
    exact iff_of_true (.inl rfl) (.inr hdue.1)
  · rw [tickSlot_not_due hdue]

/-- The update redistributes exactly when the connections it passes over need nothing. -/
theorem tick_redistributed_iff {pf : Platform} {w : Nat → World} {s s' : Server}
    (ht : tick pf w s = .ok s') : s'.Redistributed ↔
      ∀ k slot, s.conns.at? k = some slot → slot.Limited →
        slot.Due (w k) ∨ slot.HasShare s.shared.throttles := by
  obtain ⟨throttles, hup, ht⟩ := bind_eq_ok.mp ht
  cases ht
  have hat : ∀ k, (s.conns.mapEntries fun k => tickSlot { s.shared with throttles } (w k)).at? k
      = (s.conns.at? k).map (tickSlot { s.shared with throttles } (w k)) :=
    fun k => Slab.at?_mapEntries _ s.conns k
  constructor
  · intro h k slot hk hlim
    have hk' := hat k
    rw [hk, Option.map_some] at hk'
    exact (tickSlot_hasShare hup hlim.2).mp (h k _ hk' (tickSlot_limited.mpr hlim))
  · intro h k slot' hk' hlim'
    obtain ⟨slot, hk, rfl⟩ := Option.map_eq_some_iff.mp ((hat k).symm.trans hk')
    have hlim := tickSlot_limited.mp hlim'
    exact (tickSlot_hasShare hup hlim.2).mpr (h k slot hk hlim)

/--
**The update of the C server gives every limited connection its share.**

The C server divides by the number of senders as it is, and a rule somebody holds
has at least one.
-/
theorem legacy_redistributes {pf : Platform} {cfg : ServerConfig} {s : Server}
    (h : s.Reachable pf cfg) {k : Nat} {slot : ConnSlot} (hk : s.conns.at? k = some slot)
    (hlim : slot.Limited) {table : ThrottleTable} (htable : s.shared.throttles = some table) :
    (Legacy.updateConnection table slot).throttle.maxLimit
      = table.fairShareFor slot.throttle.tnums := by
  have hone : ∀ t ∈ slot.throttle.tnums, ∀ e, table[t]? = some e → max e.numSending 1 = e.numSending := by
    intro t ht e he
    have hcount := h.counted.count t
    rw [htable] at hcount
    simp only [sendersIn, ThrottleTable.senders, he] at hcount
    have hpos : 0 < s.holders t := by
      refine Slab.count_pos (Slab.mem_of_at? hk) ?_
      unfold ConnSlot.holds
      simpa using ht
    omega
  unfold Legacy.updateConnection
  rw [if_pos hlim.1]
  show Legacy.maxLimitFor table slot.throttle.tnums = _
  unfold Legacy.maxLimitFor ThrottleTable.fairShareFor
  refine List.foldl_ext _ _ _ fun maxLimit t ht => ?_
  cases he : table[t]? with
  | none => rfl
  | some e =>
      simp only [hone t ht e he]
      rfl

/--
**After the periodic update every connection under rules has the share the C server
would give it, and the shares of a rule are within it, exactly when each such
connection was due to be woken or had its share before.**  The C server's update
needs no such condition.

The first part is exact: a connection that is neither due nor in possession of its
share before the update is without it after.
-/
theorem bandwidth_redistributed_iff {pf : Platform} {cfg : ServerConfig} {w : Nat → World}
    {s s' : Server} (h : s.Launched pf cfg) (ht : tick pf w s = .ok s') :
    ((s'.Redistributed ∧ s'.WithinLimits) ↔
      ∀ k slot, s.conns.at? k = some slot → slot.Limited →
        slot.Due (w k) ∨ slot.HasShare s.shared.throttles) ∧
    ∀ table, s'.shared.throttles = some table → ∀ k slot, s'.conns.at? k = some slot →
      slot.Limited → (Legacy.updateConnection table slot).throttle.maxLimit
        = table.fairShareFor slot.throttle.tnums := by
  have h' : s'.Launched pf cfg := by
    obtain ⟨throttles, hload, hrun⟩ := h
    exact ⟨throttles, hload, hrun.tail (.tick w ht)⟩
  constructor
  · rw [← tick_redistributed_iff ht]
    exact ⟨fun hboth => hboth.1, fun hshare => ⟨hshare, hshare.withinLimits h'⟩⟩
  · intro table htable k slot hk hlim
    exact legacy_redistributes h'.reachable hk hlim htable

/-! ### A thousand bytes a second for two

The second connection comes while the first sends, and the update passes over both.
-/

/-- A thousand bytes a second for everything. -/
def thousandFile : Bytes := asBytes "** 1000\n".toList

/-- The clocks of the update. -/
def stillWorlds : Nat → World := fun _ => World.still (wwwTree [])

/-- The server of two connections, after the update. -/
def updatedServer : Server :=
  resultOf (Server.start none) (tick .epoch stillWorlds (bothAskedServer thousandFile))

/--
**The first connection keeps the thousand it was admitted with, and the second has
five hundred on top.**

Two connections under a rule of a thousand bytes a second have fifteen hundred
between them.
-/
theorem update_passes_over :
    (bothAskedServer thousandFile).Launched .epoch wwwConfig ∧
    tick .epoch stillWorlds (bothAskedServer thousandFile) = .ok updatedServer ∧
    ¬ updatedServer.Redistributed ∧ ¬ updatedServer.WithinLimits := by
  refine ⟨⟨_, .inr ⟨thousandFile, rfl⟩, bothAskedServer_runs _ (by decide +kernel)
    (by decide +kernel)⟩, eq_ok_of_panicOf _ (by decide +kernel), ?_, ?_⟩
  · intro h
    have hslot : ((updatedServer.conns.at? 0).bind fun slot =>
        updatedServer.shared.throttles.map fun table => (decide slot.Limited,
          slot.throttle.maxLimit, table.fairShareFor slot.throttle.tnums))
        = some (true, 1000, 500) := by decide +kernel
    obtain ⟨slot, hk, hslot⟩ := Option.bind_eq_some_iff.mp hslot
    obtain ⟨table, htable, hvals⟩ := Option.map_eq_some_iff.mp hslot
    simp only [Prod.mk.injEq, decide_eq_true_eq] at hvals
    have hshare := h 0 slot hk hvals.1 table htable
    omega
  · intro h
    have hrule : (updatedServer.shared.throttles.bind fun table =>
        (table[0]?).map ThrottleEntry.maxLimit) = some 1000 := by decide +kernel
    obtain ⟨table, htable, he⟩ := Option.bind_eq_some_iff.mp hrule
    obtain ⟨e, he, hmax⟩ := Option.map_eq_some_iff.mp he
    have hsum : updatedServer.limitSum 0 = 1500 := by decide +kernel
    have hle := h table htable 0 e he (by omega)
    omega

/-! ### Two bytes a second for two

The first connection has to wait for its next byte, and the update finds its pause
over.
-/

/-- Two bytes a second for everything. -/
def twoByteFile : Bytes := asBytes "** 2\n".toList

/-- The first connection has sent the two bytes of its second. -/
def spentServer : Server :=
  resultOf (Server.start none) ((firstAskedServer twoByteFile).event .epoch wwwConfig eagerWorld 0)

/-- And waits for the next. -/
def pausedServer : Server :=
  resultOf (Server.start none) (spentServer.event .epoch wwwConfig eagerWorld 0)

/-- Meanwhile the second has asked, and was admitted with its share of one. -/
def sharedServer : Server :=
  resultOf (Server.start none) (pausedServer.event .epoch wwwConfig threeByteWorld 1)

/-- The clocks of an update a second later. -/
def laterWorlds : Nat → World := fun _ => { World.still (wwwTree []) with now := nanosPerSec }

def wokenServer : Server := resultOf (Server.start none) (tick .epoch laterWorlds sharedServer)

theorem sharedServer_launched : sharedServer.Launched .epoch wwwConfig := by
  have hasked := firstAskedServer_runs twoByteFile (by decide +kernel)
  have hspent : spentServer.RunsFrom .epoch wwwConfig (ThrottleTable.load twoByteFile) :=
    hasked.tail (.event eagerWorld 0 (eq_ok_of_panicOf _ (by decide +kernel)))
  have hpaused : pausedServer.RunsFrom .epoch wwwConfig (ThrottleTable.load twoByteFile) :=
    hspent.tail (.event eagerWorld 0 (eq_ok_of_panicOf _ (by decide +kernel)))
  exact ⟨_, .inr ⟨twoByteFile, rfl⟩,
    hpaused.tail (.event threeByteWorld 1 (eq_ok_of_panicOf _ (by decide +kernel)))⟩

/-- The update wakes the first with one byte a second, which the second has already. -/
theorem bandwidth_redistributed_woken :
    tick .epoch laterWorlds sharedServer = .ok wokenServer ∧
    sharedServer.conns.map (·.map fun slot => (slot.state, slot.throttle.maxLimit))
      = [some (.pausing, 2), some (.sending, 1)] ∧
    wokenServer.conns.map (·.map fun slot => (slot.state, slot.throttle.maxLimit))
      = [some (.sending, 1), some (.sending, 1)] ∧
    wokenServer.Redistributed ∧ wokenServer.WithinLimits := by
  have htick : tick .epoch laterWorlds sharedServer = .ok wokenServer :=
    eq_ok_of_panicOf _ (by decide +kernel)
  refine ⟨htick, by decide +kernel, by decide +kernel,
    (bandwidth_redistributed_iff sharedServer_launched htick).1.mpr ?_⟩
  intro k slot hk hlim
  -- the first is due, and the second has what the table leaves it
  have hall : ∀ o ∈ sharedServer.conns, ∀ slot ∈ o,
      (slot.state = .pausing ∧ slot.throttle.pauseUntil = some nanosPerSec) ∨
      some slot.throttle.maxLimit = sharedServer.shared.throttles.map
        fun table => table.fairShareFor slot.throttle.tnums := by decide +kernel
  rcases hall _ (Slab.mem_of_at? hk) slot rfl with ⟨hpausing, huntil⟩ | hshare
  · exact .inl ⟨hpausing, nanosPerSec, huntil, Nat.le_refl _⟩
  · refine .inr fun table htable => ?_
    rw [htable] at hshare
    exact Option.some.inj hshare

end Thttpd
