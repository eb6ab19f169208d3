/-
What a connection and the throttle table do with each other.

A handler asks the table to admit its connection, charges the rules the connection holds,
releases them, or reads the connection's share anew.  It touches the table in no other
way.  `Deal` is one of these, and an event is a series of them, so what every deal keeps
of the table and of the connections holds over every run: `Server.Holds.step` packs that
induction.

The induction over runs is the same for every invariant of the throttle: prove that
each of the four dealings keeps it and that it is true of a connection that has
nothing, and the rest is `DealsKeep` and its lemmas.
-/
import Thttpd.Proofs.Accounting

namespace Thttpd

open Text Fs

/-- The table, and what one connection has of it. -/
structure Stake where
  throttles : Option ThrottleTable
  tnums : List Nat
  maxLimit : Int

def View.stake (v : View) : Stake :=
  ⟨v.shared.throttles, v.slot.throttle.tnums, v.slot.throttle.maxLimit⟩

/-- A closed connection has nothing. -/
def Outcome.stake (out : Outcome) : Stake :=
  match out.slot with
  | some slot => View.stake ⟨out.shared, slot⟩
  | none => ⟨out.shared.throttles, [], nolimit⟩

theorem Outcome.stake_throttles (out : Outcome) : out.stake.throttles = out.shared.throttles := by
  unfold Outcome.stake
  cases out.slot <;> rfl

/-- The rate a decision sets, if it sets one. -/
def ThrottleDecision.limit (maxLimit : Int) : ThrottleDecision → Int
  | .allow _ maxLimit _ => maxLimit
  | _ => maxLimit

/--
One dealing of a connection with the table.  Who asks holds nothing yet and can be
counted, and a program does not take the rate with the rules.
-/
inductive Deal (pf : Platform) : Stake → Stake → Prop
  | ask {ts ts' : Option ThrottleTable} {filename : Str} {d : ThrottleDecision}
      {maxLimit maxLimit' : Int} :
      SendersFit ts → askThrottle pf ts filename = .ok (d, ts') →
      maxLimit' = maxLimit ∨ maxLimit' = d.limit maxLimit →
      Deal pf ⟨ts, [], maxLimit⟩ ⟨ts', d.tnums, maxLimit'⟩
  | charge {ts : Option ThrottleTable} {tnums : List Nat} {maxLimit n : Int} : 0 ≤ n →
      Deal pf ⟨ts, tnums, maxLimit⟩ ⟨ts.map fun table => table.addBytes tnums n, tnums, maxLimit⟩
  | release {ts : Option ThrottleTable} {tnums : List Nat} {maxLimit : Int} :
      Deal pf ⟨ts, tnums, maxLimit⟩ ⟨ts.map fun table => table.clear tnums, [], nolimit⟩
  | share {table : ThrottleTable} {tnums : List Nat} {maxLimit : Int} :
      Deal pf ⟨some table, tnums, maxLimit⟩ ⟨some table, tnums, table.fairShareFor tnums⟩

/-- A series of them. -/
abbrev Deals (pf : Platform) : Stake → Stake → Prop := Relation.ReflTransGen (Deal pf)

variable {pf : Platform} {cfg : ServerConfig} {w : World}

/-! ### Up to the response

A response is prepared in one of a few ways.  A file asks for itself, and a program
asks before it is called, and pays and gives its rules back when it is done.
-/

theorem Dressed.stake {v u : View} (h : Dressed v u) : u.stake = v.stake := by
  unfold View.stake
  rw [h.shared, h.throttle]

/-- Asking, for a connection that takes the rules and the rate or the rules alone. -/
theorem deal_ask {v : View} {filename : Str} {d : ThrottleDecision}
    {throttles : Option ThrottleTable} {throttle : ConnThrottle}
    (hq : Quiet v)
    (hask : askThrottle pf v.shared.throttles filename = .ok (d, throttles))
    (htnums : throttle.tnums = d.tnums)
    (hlimit : throttle.maxLimit = v.slot.throttle.maxLimit ∨
      throttle.maxLimit = d.limit v.slot.throttle.maxLimit) :
    Deal pf v.stake (v.admitted throttles throttle).stake := by
  have hdeal := Deal.ask hq.fit hask hlimit
  rw [← htnums] at hdeal
  unfold View.stake
  rw [hq.tnums]
  exact hdeal

/-- A program that is done pays and gives its rules back. -/
theorem releaseCgi_deals (v : View) {charge : Option Int} (hcharge : ∀ n, charge = some n → 0 ≤ n) :
    Deals pf v.stake (releaseCgi v charge).stake := by
  unfold releaseCgi
  by_cases ht : v.slot.throttle.isThrottled = true
  · simp only [ht, if_true]
    cases charge with
    | none => exact .single .release
    | some n =>
        refine .tail (.single (.charge (hcharge n rfl))) ?_
        have hrelease : Deal pf
            ⟨v.shared.throttles.map fun table => table.addBytes v.slot.throttle.tnums n,
              v.slot.throttle.tnums, v.slot.throttle.maxLimit⟩
            ⟨(v.shared.throttles.map fun table => table.addBytes v.slot.throttle.tnums n).map
              fun table => table.clear v.slot.throttle.tnums, [], nolimit⟩ := .release
        rw [Option.map_map] at hrelease
        exact hrelease
  · simp only [ht, Bool.false_eq_true, if_false]
    exact .refl

/-- **A response that is being prepared deals with the table as the connection does.** -/
theorem Prepares.deals {v u : View} (hq : Quiet v)
    (h : Prepares pf cfg w v u) : Deals pf v.stake u.stake := by
  cases h with
  | page hu =>
      rw [hu.stake]
  | @file x _ _ d throttles hx hask hu =>
      have hxq := hq.of_dressed hx
      rw [hu.stake, ← hx.stake]
      refine .single (deal_ask hxq hask (admittedThrottle_tnums hxq.tnums d) (.inr ?_))
      cases d <;> rfl
  | @refused x _ _ throttles hx hask hu =>
      have hxq := hq.of_dressed hx
      rw [hu.stake, ← hx.stake]
      exact .single (deal_ask hxq hask hxq.tnums (.inl rfl))
  | @ran x _ _ pathInfo d throttles call hx hask _ hu =>
      have hxq := hq.of_dressed hx
      rw [hu.stake, ← hx.stake]
      have hlimit : (cgiThrottle x.slot.throttle d).maxLimit = x.slot.throttle.maxLimit := by
        cases d <;> rfl
      have hadmitted : Deal pf x.stake (cgiStarted ((beginCgi x pathInfo).admitted throttles
          (cgiThrottle x.slot.throttle d)) call).stake :=
        deal_ask hxq hask (cgiThrottle_tnums hxq.tnums d) (.inl hlimit)
      refine .trans (.single hadmitted) (releaseCgi_deals _ fun n hn => ?_)
      obtain ⟨-, -, rfl⟩ := Option.map_eq_some_iff.mp hn
      decide

/-- The rate of a connection that starts sending: the one just given, or the one it had. -/
theorem sendingSlot_maxLimit (pf : Platform) (w : World) (slot : ConnSlot) (d : ThrottleDecision) :
    (sendingSlot pf w slot d).throttle.maxLimit = d.limit slot.throttle.maxLimit := by
  have hkeep := fun http => started_keeps ConnThrottle.maxLimit (fun _ _ _ => rfl)
    (slot.throttle.checked && slot.throttle.isThrottled) w http slot.throttle
  cases d with
  | unlimited => exact hkeep _
  | allow tnums maxLimit minLimit => rfl
  | reject => exact hkeep _

/-- Starting to send asks for whoever has not asked yet. -/
theorem transitionToSending_deals {u v' : View}
    (hunclaimed : u.slot.isCgi = false → u.slot.throttle.checked = false →
      Quiet u) (h : transitionToSending pf w u = .ok v') :
    Deals pf u.stake v'.stake := by
  obtain ⟨⟨d, throttles⟩, hentry, h⟩ := bind_eq_ok.mp h
  simp only [pure, Except.pure, Except.ok.injEq] at h
  subst h
  rcases entryDecision_cases hentry with ⟨hcgi, hchecked, hask⟩ | ⟨rfl, rfl, -⟩
  · have hquiet := hunclaimed hcgi hchecked
    have hnil := hquiet.tnums
    have htnums : (sendingSlot pf w u.slot d).throttle.tnums = d.tnums := by
      rw [sendingSlot_tnums pf w fun _ => hnil, hnil]
      split
      · rename_i hd
        rw [hd]
        rfl
      · rfl
    exact .single (deal_ask hquiet hask htnums (.inr (sendingSlot_maxLimit pf w u.slot d)))
  · have hsame : (sendingView pf w u .unlimited u.shared.throttles).stake = u.stake := by
      show Stake.mk u.shared.throttles (sendingSlot pf w u.slot .unlimited).throttle.tnums
        (sendingSlot pf w u.slot .unlimited).throttle.maxLimit = _
      rw [sendingSlot_tnums pf w (by simp), if_pos rfl, sendingSlot_maxLimit]
      rfl
    rw [hsame]

/-! ### Events

What the handlers do is a series of dealings, and which ones does not matter to an
invariant.
-/

/-- A connection that is closed gives its rules back. -/
theorem closeConnection_deals (pf : Platform) (v : View) :
    Deals pf v.stake (closeConnection v).stake := by
  have hrelease : (closeConnection v).shared.throttles
      = v.shared.throttles.map fun table => table.clear v.slot.throttle.tnums := by
    show (if v.slot.throttle.isThrottled = true then _ else _) = _
    split
    · rfl
    · rename_i ht
      rw [isThrottled_eq_false (Bool.eq_false_iff.mpr ht)]
      exact Option.map_id'.symm
  refine .single ?_
  show Deal pf v.stake ⟨(closeConnection v).shared.throttles, [], nolimit⟩
  rw [hrelease]
  exact .release

theorem handleRead_deals {v : View} {out : Outcome} (hq : Quiet v)
    (h : handleRead pf cfg w v = .ok out) : Deals pf v.stake out.stake := by
  cases handleRead_ends h with
  | closed => exact closeConnection_deals pf v
  | @goesOn u hu =>
      have hsame : u.keep.stake = v.stake := hu.stake
      rw [hsame]
  | answered ha =>
      have hq' : Quiet (v.loaded w) := (Alike.mapHttp v _).quiet hq
      exact (ha.prepares.deals hq').trans
        (transitionToSending_deals ((ha.prepares.carried hq').quiet hq') ha.sends)

theorem chargeBody_deals (w : World) (v : View) (sentBefore : Int) :
    Deals pf v.stake (chargeBody w v sentBefore).stake := by
  unfold chargeBody
  simp only
  split
  · rename_i hdelta
    exact .single (.charge (Int.le_of_lt hdelta.2))
  · exact .refl

theorem handleSend_deals {v : View} {out : Outcome} (h : handleSend pf w v = .ok out) :
    Deals pf v.stake out.stake := by
  cases handleSend_ends h with
  | finished _ => exact .refl
  | paused _ _ => exact .refl
  | closed => exact closeConnection_deals pf v
  | blocked _ _ => exact .refl
  | @wrote limit n stream remaining _ _ _ _ _ =>
      have hcharge : Deals pf v.stake _ := chargeBody_deals w
        (countWritten v stream ((remaining.take (min limit remaining.length)).take n))
        v.slot.http.bytesSent
      unfold afterWrite
      simp only
      split
      · exact hcharge
      · exact hcharge

/-- A connection that wakes reads its share. -/
theorem wake_deals (pf : Platform) (v : View) : Deals pf v.stake (wake v).stake := by
  have hwake : (wake v).stake
      = ⟨v.shared.throttles, v.slot.throttle.tnums, (refreshShare v.shared v.slot.throttle).maxLimit⟩ := by
    show Stake.mk v.shared.throttles (wake v).slot.throttle.tnums _ = _
    rw [wake_tnums]
    rfl
  rw [hwake]
  unfold View.stake refreshShare
  cases v.shared.throttles with
  | none => exact .refl
  | some table => exact .single .share

theorem handlePause_deals {v : View} {out : Outcome} (h : handlePause pf w v = .ok out) :
    Deals pf v.stake out.stake := by
  cases handlePause_ends h with
  | waits => exact .refl
  | closed => exact (wake_deals pf v).trans (closeConnection_deals pf (wake v))
  | woke h => exact (wake_deals pf v).trans (handleSend_deals h)

/-- **An event is a series of deals.** -/
theorem handleConnectionEvent_deals {v : View} {out : Outcome}
    (ho : Orderly v.shared.throttles v.slot) (hfit : SendersFit v.shared.throttles)
    (h : handleConnectionEvent pf cfg w v = .ok out) : Deals pf v.stake out.stake := by
  cases handleConnectionEvent_ends h with
  | reading hs h => exact handleRead_deals ⟨ho.reading hs, hfit⟩ h
  | sending _ h => exact handleSend_deals h
  | pausing _ h => exact handlePause_deals h
  | lingering _ => exact closeConnection_deals pf v
  | free _ => exact .refl

/-! ### Runs

The update of the averages is the one change of the table that is not a dealing, so
an invariant has to be shown to survive it on its own.
-/

section

variable {Table : Option ThrottleTable → Prop} {Conn : List Nat → Int → Prop}

/--
What is said of the table and of what a connection has of it survives every deal,
and is true of a connection that has nothing.
-/
structure DealsKeep (pf : Platform) (Table : Option ThrottleTable → Prop)
    (Conn : List Nat → Int → Prop) : Prop where
  deal : ∀ a b, Deal pf a b → Table a.throttles → Conn a.tnums a.maxLimit →
    Table b.throttles ∧ Conn b.tnums b.maxLimit
  nothing : Conn [] nolimit

/-- It is true of the table and of every connection. -/
structure Server.Holds (Table : Option ThrottleTable → Prop) (Conn : List Nat → Int → Prop)
    (s : Server) : Prop where
  table : Table s.shared.throttles
  conns : ∀ slot, some slot ∈ s.conns → Conn slot.throttle.tnums slot.throttle.maxLimit

theorem DealsKeep.deals (hkeep : DealsKeep pf Table Conn) {a b : Stake} (h : Deals pf a b)
    (htable : Table a.throttles) (hconn : Conn a.tnums a.maxLimit) :
    Table b.throttles ∧ Conn b.tnums b.maxLimit := by
  induction h with
  | refl => exact ⟨htable, hconn⟩
  | tail _ hdeal ih => exact hkeep.deal _ _ hdeal ih.1 ih.2

/-- The update wakes connections, which is a deal with the new table. -/
theorem tickSlot_deals (pf : Platform) (shared : Shared) (w : World) (slot : ConnSlot) :
    Deals pf (View.stake ⟨shared, slot⟩) (View.stake ⟨shared, tickSlot shared w slot⟩) := by
  unfold tickSlot
  split
  · split
    · exact wake_deals pf ⟨shared, slot⟩
    · exact .refl
  · exact .refl

/--
**What deals keep, and the update keeps of the table, one step of the server
keeps.**

A new connection has nothing, an event is a series of deals, and the update is
covered by a hypothesis of its own, since it is where rates are made and invariants
differ most.
-/
theorem Server.Holds.step (hkeep : DealsKeep pf Table Conn) {s s' : Server} (hc : Counted s)
    (h : s.Holds Table Conn) (hstep : Step pf cfg s s')
    (htick : ∀ ts, tickTable pf s.shared.throttles = .ok ts → Table ts) : s'.Holds Table Conn := by
  rcases hstep.cases with ⟨k, peer, -, rfl⟩ | ⟨w, k, slot, out, hk, hout, rfl⟩ | ⟨w, ht⟩ |
    ⟨hshared, hconns⟩
  · exact ⟨h.table, Slab.forall_put h.conns hkeep.nothing⟩
  · have hmem := Slab.mem_of_at? hk
    have hdeals := handleConnectionEvent_deals (hc.orderly slot hmem) hc.fit hout
    have hkept := hkeep.deals hdeals h.table (h.conns slot hmem)
    constructor
    · have htable := hkept.1
      rw [Outcome.stake_throttles] at htable
      exact htable
    · refine Slab.forall_update h.conns fun slot' hslot' => ?_
      have hconn := hkept.2
      unfold Outcome.stake at hconn
      rw [hslot'] at hconn
      exact hconn
  · obtain ⟨throttles, hup, ht⟩ := bind_eq_ok.mp ht
    cases ht
    refine ⟨htick _ hup, Slab.forall_mapEntries fun k slot hslot => ?_⟩
    exact (hkeep.deals (tickSlot_deals pf { s.shared with throttles } (w k) slot) (htick _ hup)
      (h.conns slot hslot)).2
  · exact ⟨hshared ▸ h.table, hconns ▸ h.conns⟩

/--
**And so does a run, from a table whose rules are new, by steps that the update
survives.**

The steps of the run may be restricted, and what the restriction says is handed to
the update.
-/
theorem Server.Holds.run (hkeep : DealsKeep pf Table Conn) {Go : Server → Server → Prop}
    {throttles : Option ThrottleTable} {s : Server}
    (hgo : ∀ s s', Go s s' → Step pf cfg s s')
    (htick : ∀ s s' ts, Go s s' → Table s.shared.throttles →
      tickTable pf s.shared.throttles = .ok ts → Table ts)
    (hnew : ∀ table, throttles = some table → ∀ e ∈ table, ∃ pattern maxLimit minLimit,
      e = ThrottleEntry.new pattern maxLimit minLimit)
    (hstart : Table throttles) (h : Lts.Reachable (· = Server.start throttles) Go s) :
    s.Holds Table Conn := by
  have hboth : Counted s ∧ s.Holds Table Conn := by
    refine Lts.Reachable.invariant (fun s => Counted s ∧ s.Holds Table Conn) h ?_ ?_
    · rintro s rfl
      refine ⟨.init ⟨rfl, rfl, rfl, hnew⟩, hstart, fun slot hslot => ?_⟩
      cases hslot
    · intro s s' hs hstep
      exact ⟨hs.1.step (hgo s s' hstep), hs.2.step hkeep hs.1 (hgo s s' hstep)
        fun ts hts => htick s s' ts hstep hs.2.table hts⟩
  exact hboth.2

/-- The rules of a file are new. -/
theorem ThrottleTable.load_eq_new {content : Bytes} {table₀ : ThrottleTable}
    (hload : ThrottleTable.load content = some table₀) :
    ∀ table, some table₀ = some table → ∀ e ∈ table, ∃ pattern maxLimit minLimit,
      e = ThrottleEntry.new pattern maxLimit minLimit := by
  rintro table htable
  cases htable
  exact ThrottleTable.load_new hload

end

end Thttpd
