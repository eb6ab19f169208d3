/-
The main loop, over every run.

A turn is a sequence of the server's steps, so what holds over every run of those holds in
the loop.  What the loop adds is the poll registry.  `Registered` says that it follows the
connections: the entry of each is the one its state waits for.  A paused connection has
none, and is found again by its deadline, which the poll does not sleep past.

A handler is gone through once.  `eventRegistry_kept` reads off its outcome what it
did to the registry: whatever state it leaves its connection in, the entry it leaves
is the one of that state, and it touches no other.  An accept, a resume and the
periodic update are the same to one key at a time, so each act of the loop keeps
`Registered`, and `Loop.Reachable.registered` is the induction over the run.
-/
import Thttpd.Core.MainLoop
import Thttpd.Proofs.Delivery

namespace Thttpd

open Text Fs

/-- The event a connection waits for, in each state. -/
def ConnState.interest : ConnState → Option Interest
  | .reading => some .readable
  | .sending => some .writable
  | .lingering => some .readable
  | .pausing => none
  | .free => none

/-- The entry of a key of the connection table. -/
def entryFor (o : Option ConnSlot) : Option Interest := o.bind fun slot => slot.state.interest

/-! ### Connections

A connection that is open reads, sends, lingers or pauses.  The first three wait for
an event of their socket.  A paused one waits for none, so it must have a deadline,
and that every handler leaves it one is the invariant here (`Awake`).
-/

/-- An open connection has its stream, which the registry is asked about. -/
theorem Delivery.stream {slot : ConnSlot} (h : Delivery slot) (hs : slot.state ≠ .free) :
    slot.stream.isSome = true := by
  cases hstate : slot.state with
  | reading =>
      obtain ⟨stream, hstream, -⟩ := h.reading hstate
      rw [hstream]
      rfl
  | sending =>
      obtain ⟨stream, hstream, -⟩ := (h.inFlight (.inl hstate)).written
      rw [hstream]
      rfl
  | pausing =>
      obtain ⟨stream, hstream, -⟩ := (h.inFlight (.inr hstate)).written
      rw [hstream]
      rfl
  | lingering =>
      obtain ⟨stream, hstream, -⟩ := (h.lingering hstate).1.written
      rw [hstream]
      rfl
  | free => exact absurd hstate hs

/-- A connection that is still served, with a deadline if it waits for no event. -/
structure Awake (slot : ConnSlot) : Prop where
  notFree : slot.state ≠ .free
  deadline : slot.state = .pausing → slot.throttle.pauseUntil.isSome = true

theorem Awake.of_state {slot : ConnSlot}
    (h : slot.state = .reading ∨ slot.state = .sending ∨ slot.state = .lingering) : Awake slot := by
  refine ⟨fun hf => ?_, fun hp => ?_⟩
  · rw [hf] at h
    rcases h with h | h | h <;> cases h
  · rw [hp] at h
    rcases h with h | h | h <;> cases h

/-- A read goes on reading or comes to an answer. -/
theorem handleRead_state {pf : Platform} {cfg : ServerConfig} {w : World} {v : View} {out : Outcome}
    {slot : ConnSlot} (hq : Quiet v) (hs : v.slot.state = .reading)
    (h : handleRead pf cfg w v = .ok out) (hslot : out.slot = some slot) :
    slot.state = .reading ∨ slot.state = .sending := by
  rcases handleRead_cases hq h with rfl | ⟨v', rfl, ha⟩ | ⟨v', rfl, u, -, ha⟩
  · cases hslot
  · cases hslot
    exact .inl (ha.state.trans hs)
  · cases hslot
    obtain ⟨⟨decision, throttles⟩, -, ha⟩ := bind_eq_ok.mp ha
    cases ha
    exact .inr (sendingSlot_state pf w u.slot decision)

/-- Whoever stops a connection in the middle of an answer gives it a deadline. -/
theorem handleSend_awake {pf : Platform} {w : World} {v : View} {out : Outcome} {slot : ConnSlot}
    (hs : v.slot.state = .sending) (h : handleSend pf w v = .ok out) (hslot : out.slot = some slot) :
    Awake slot := by
  cases handleSend_ends h with
  | finished _ =>
      cases hslot
      exact .of_state (.inr (.inr rfl))
  | paused _ _ =>
      cases hslot
      exact ⟨fun hf => (by cases hf), fun _ => rfl⟩
  | closed _ => cases hslot
  | blocked _ _ =>
      cases hslot
      exact .of_state (.inr (.inl hs))
  | wrote =>
      rcases afterWrite_state hslot with hl | hk
      · exact .of_state (.inr (.inr hl))
      · exact .of_state (.inr (.inl (hk.trans hs)))

theorem handlePause_awake {pf : Platform} {w : World} {v : View} {out : Outcome} {slot : ConnSlot}
    (ha : Awake v.slot) (h : handlePause pf w v = .ok out) (hslot : out.slot = some slot) :
    Awake slot := by
  cases handlePause_ends h with
  | waits =>
      cases hslot
      exact ha
  | closed => cases hslot
  | woke h => exact handleSend_awake (v := wake v) rfl h hslot

theorem tickSlot_awake {shared : Shared} {w : World} {slot : ConnSlot} (h : Awake slot) :
    Awake (tickSlot shared w slot) := by
  unfold tickSlot
  split
  · split
    · exact .of_state (.inr (.inl rfl))
    · exact h
  · exact h

/--
**So nobody is paused for ever**, in any state of a server.

A pause ends by a deadline, and every pause has one.
-/
theorem Server.Reachable.awake {pf : Platform} {cfg : ServerConfig} {s : Server}
    (h : s.Reachable pf cfg) : ∀ slot, some slot ∈ s.conns → Awake slot := by
  refine h.slots (fun _ => .of_state (.inl rfl)) ?_ (fun _ _ _ ha => tickSlot_awake ha)
  intro w v out ho hpos ha hout slot hslot
  cases handleConnectionEvent_ends hout with
  | reading hs hread =>
      rcases handleRead_state ⟨ho.reading hs, hpos⟩ hs hread hslot with hr | hr
      · exact .of_state (.inl hr)
      · exact .of_state (.inr (.inl hr))
  | sending hs hsend => exact handleSend_awake hs hsend hslot
  | pausing _ hpause => exact handlePause_awake ha hpause hslot
  | lingering _ => cases hslot
  | free _ =>
      cases hslot
      exact ha

/-! ### A turn is a sequence of steps

The loop takes its signals, accepts what is pending, serves the events the poll
returned and then looks after the paused connections.  Each of these is nothing but
steps of the server, so what is proved of every run of the server
(`Server.Launched`) is had for the loop without another induction.
-/

namespace Loop

section Steps

variable {pf : Platform} {cfg : ServerConfig} {listeners : Nat} {l l' : Loop}

/-- The server of a later loop is reached from that of an earlier one. -/
def Follows (pf : Platform) (cfg : ServerConfig) (l l' : Loop) : Prop :=
  Relation.ReflTransGen (Step pf cfg) l.server l'.server

/-- An event is the step of its connection, or of nobody if the connection is gone by then. -/
theorem event_server {w : World} {k : Nat} (h : l.event pf cfg w k = .ok l') :
    l.server.event pf cfg w k = .ok l'.server := by
  unfold event at h
  unfold Server.event
  cases hk : l.server.conns.at? k with
  | none =>
      rw [hk] at h
      cases h
      rfl
  | some slot =>
      rw [hk] at h
      obtain ⟨out, hout, h⟩ := bind_eq_ok.mp h
      cases h
      exact bind_eq_ok.mpr ⟨out, hout, rfl⟩

theorem resume_server {w : World} {k : Nat} (h : l.resume pf w k = .ok l') :
    l.server.resume pf w k = .ok l'.server := by
  unfold resume at h
  unfold Server.resume
  cases hk : l.server.conns.at? k with
  | none =>
      rw [hk] at h
      cases h
      rfl
  | some slot =>
      rw [hk] at h
      by_cases hs : slot.state = .pausing
      · simp only [if_pos hs] at h ⊢
        obtain ⟨out, hout, h⟩ := bind_eq_ok.mp h
        cases h
        exact bind_eq_ok.mpr ⟨out, hout, rfl⟩
      · simp only [if_neg hs] at h ⊢
        cases h
        rfl

theorem tick_server {now : Nat} {w : Nat → World} (h : l.tick pf now w = .ok l') :
    l'.server = l.server ∨ Thttpd.tick pf w l.server = .ok l'.server := by
  unfold tick at h
  split at h
  · obtain ⟨server, hserver, h⟩ := bind_eq_ok.mp h
    cases h
    exact .inr hserver
  · cases h
    exact .inl rfl

theorem Signalled.follows (h : Signalled listeners l l') : Follows pf cfg l l' := by
  cases h with
  | quiet => exact .refl
  | drain _ _ => exact .single .drain

theorem Accepting.follows (h : Accepting l l') (hopen : l.server.draining = false) :
    Follows pf cfg l l' := by
  induction h with
  | done => exact .refl
  | full _ _ ih => exact ih hopen
  | unregistered _ _ ih => exact ih hopen
  | taken peer hroom hvacant _ _ ih => exact .head (.accept peer hopen hroom hvacant) (ih hopen)

theorem Accept.follows (h : Accept l l') : Follows pf cfg l l' := by
  cases h with
  | draining _ => exact .refl
  | accepting hopen hacc => exact hacc.follows hopen

theorem Accepts.follows {ts : List Token} (h : Accepts listeners ts l l') : Follows pf cfg l l' := by
  induction h with
  | nil => exact .refl
  | listener _ _ hacc _ ih => exact hacc.follows.trans ih
  | other _ _ ih => exact ih

theorem Events.follows {ts : List Token} (h : Events pf cfg ts l l') : Follows pf cfg l l' := by
  induction h with
  | nil => exact .refl
  | connection w _ hevent _ ih => exact .head (.event w _ (event_server hevent)) ih
  | listener _ _ ih => exact ih

theorem Resumes.follows {now : Nat} {ks : List Nat} (h : Resumes pf now ks l l') :
    Follows pf cfg l l' := by
  induction h with
  | nil => exact .refl
  | cons w _ hresume _ ih => exact .head (.resume w _ (resume_server hresume)) ih

theorem tick_follows {now : Nat} {w : Nat → World} (h : l.tick pf now w = .ok l') :
    Follows pf cfg l l' := by
  rcases tick_server h with hsame | htick
  · unfold Follows
    rw [hsame]
  · exact .single (.tick w htick)

theorem finishIfDrained_server (l : Loop) : l.finishIfDrained.server = l.server := by
  unfold finishIfDrained
  split <;> rfl

theorem Served.follows {now : Nat} (h : Served pf cfg listeners now l l') : Follows pf cfg l l' := by
  obtain ⟨w, hsignal, -, haccepts, hevents, hresumes, htick⟩ := h
  unfold Follows
  rw [finishIfDrained_server]
  have hread : Follows pf cfg l _ := hsignal.follows.trans (haccepts.follows.trans hevents.follows)
  exact hread.trans (hresumes.follows.trans (tick_follows htick))

/--
**A turn of the loop is a sequence of steps of the server.**

A turn that serves accepts connections, handles the events it was told of one after
the other, resumes those whose pause is over, and ticks; the others serve nobody.
-/
theorem Turn.follows (h : Turn pf cfg listeners l l') : Follows pf cfg l l' := by
  cases h with
  | terminated _ => exact .refl
  | drained _ _ _ => exact .single .drain
  | interrupted _ hsignal => exact hsignal.follows
  | pollFailed _ hsignal => exact hsignal.follows
  | served _ _ hserved => exact hserved.follows

end Steps

/-- What holds of every server that was launched holds in the loop. -/
theorem Reachable.launched {pf : Platform} {cfg : ServerConfig} {listeners : Nat} {l : Loop}
    (h : l.Reachable pf cfg listeners) : l.server.Launched pf cfg := by
  refine Lts.Reachable.invariant (fun l => l.server.Launched pf cfg) h ?_ ?_
  · rintro l ⟨⟨throttles, hload, hstart⟩, -, -⟩
    exact ⟨throttles, hload, .start hstart⟩
  · rintro l l' ⟨throttles, hload, s₀, h₀, hrun⟩ hturn
    exact ⟨throttles, hload, s₀, h₀, hrun.trans hturn.follows⟩

/-- In particular a loop that came to be holds a server that came to be. -/
theorem Reachable.server {pf : Platform} {cfg : ServerConfig} {listeners : Nat} {l : Loop}
    (h : l.Reachable pf cfg listeners) : l.server.Reachable pf cfg := h.launched.reachable

end Loop

/-! ### What a handler leaves of the registry

The source registers, reregisters and deregisters in the middle of its handlers.
Each of the three lemmas on reading, sending and pausing goes through the ways its
handler can end and compares the last call it made with the state it left.
-/

/-- The entry of one connection follows it, and the others stay. -/
structure Kept (k : Nat) (o : Option ConnSlot) (r r' : Registry) : Prop where
  here : r' (connToken k) = entryFor o
  others : ∀ t, t ≠ connToken k → r' t = r t

theorem Kept.same {k : Nat} {o : Option ConnSlot} {r : Registry}
    (h : r (connToken k) = entryFor o) : Kept k o r r := ⟨h, fun _ _ => rfl⟩

theorem Kept.put {k : Nat} {o : Option ConnSlot} {e : Option Interest} (r : Registry)
    (h : e = entryFor o) : Kept k o r (r.put (connToken k) e) :=
  ⟨(Registry.put_same r _ _).trans h, fun _ ht => Registry.put_other r ht _⟩

section Handlers

variable {pf : Platform} {cfg : ServerConfig} {w : World} {k : Nat} {v : View} {out : Outcome}
variable {r : Registry}

/-- The entry of a connection is decided by its state. -/
theorem entryFor_some {slot : ConnSlot} {state : ConnState} (h : slot.state = state) :
    entryFor (some slot) = state.interest := by
  rw [← h]
  rfl

/-- Who is closed has no entry, registered before or not. -/
theorem closeRegistry_kept (hstream : v.slot.stream.isSome = true) :
    Kept k none r (closeRegistry k v.slot r) := by
  unfold closeRegistry
  rw [if_pos hstream, Registry.orKeep_deregister]
  exact .put r rfl

/-- Who changes over between reading and writing has the new entry. -/
theorem reregister_kept {o : Option ConnSlot} {interest old : Interest}
    (hr : r (connToken k) = some old) (h : some interest = entryFor o) :
    Kept k o r (r.orKeep (r.reregister (connToken k) interest)) := by
  have hpresent : r (connToken k) ≠ none := by
    rw [hr]
    exact Option.some_ne_none old
  rw [Registry.orKeep_reregister_of_present hpresent]
  exact .put r h

theorem readRegistry_kept (hstream : v.slot.stream.isSome = true)
    (hr : r (connToken k) = some .readable)
    (hout : ∀ slot, out.slot = some slot →
      (slot.state = .reading ∨ slot.state = .sending) ∧ slot.stream.isSome = true) :
    Kept k out.slot r (readRegistry k v out r) := by
  unfold readRegistry
  cases hslot : out.slot with
  | none => exact closeRegistry_kept hstream
  | some slot =>
      obtain ⟨hstate, hst⟩ := hout slot hslot
      rcases hstate with hreading | hsending
      · have hnot : ¬ (slot.state = .sending ∧ slot.stream.isSome = true) := by
          intro hboth
          rw [hreading] at hboth
          cases hboth.1
        simp only [if_neg hnot]
        exact .same (hr.trans (entryFor_some hreading).symm)
      · simp only [if_pos (And.intro hsending hst)]
        exact reregister_kept hr (entryFor_some hsending).symm

theorem handleSend_state {slot : ConnSlot} (hs : v.slot.state = .sending)
    (h : handleSend pf w v = .ok out) (hslot : out.slot = some slot) :
    slot.state = .lingering ∨ slot.state = .pausing ∨ slot.state = .sending := by
  cases handleSend_ends h with
  | finished _ =>
      cases hslot
      exact .inl rfl
  | paused _ _ =>
      cases hslot
      exact .inr (.inl rfl)
  | closed _ => cases hslot
  | blocked _ _ =>
      cases hslot
      exact .inr (.inr hs)
  | wrote =>
      rcases afterWrite_state hslot with hl | hk
      · exact .inl hl
      · exact .inr (.inr (hk.trans hs))

theorem sendRegistry_kept (hs : v.slot.state = .sending) (hstream : v.slot.stream.isSome = true)
    (hr : r (connToken k) = some .writable) (h : handleSend pf w v = .ok out)
    (hout : ∀ slot, out.slot = some slot → slot.stream.isSome = true) :
    Kept k out.slot r (sendRegistry w k v out r) := by
  unfold sendRegistry
  cases hslot : out.slot with
  | none => exact closeRegistry_kept hstream
  | some slot =>
      have hsome : ¬ slot.stream.isNone = true := by
        have := hout slot hslot
        rw [Option.isSome_iff_ne_none] at this
        rwa [Option.isNone_iff_eq_none]
      simp only [if_neg hsome]
      rcases handleSend_state hs h hslot with hstate | hstate | hstate
      · simp only [hstate]
        exact reregister_kept hr (entryFor_some hstate).symm
      · simp only [hstate]
        rw [Registry.orKeep_deregister]
        exact .put r (entryFor_some hstate).symm
      · simp only [hstate]
        cases w.write with
        | wouldBlock => exact .same (hr.trans (entryFor_some hstate).symm)
        | failed => exact reregister_kept hr (entryFor_some hstate).symm
        | accepted n => exact reregister_kept hr (entryFor_some hstate).symm

theorem pauseRegistry_kept (hs : v.slot.state = .pausing) (hstream : v.slot.stream.isSome = true)
    (hr : r (connToken k) = none) (h : handlePause pf w v = .ok out)
    (hout : ∀ slot, out.slot = some slot → slot.stream.isSome = true) :
    Kept k out.slot r (pauseRegistry w k v out r) := by
  unfold handlePause at h
  unfold pauseRegistry
  by_cases hover : (!pauseOver w v.slot.throttle) = true
  · rw [if_pos hover] at h ⊢
    cases h
    exact .same (hr.trans (entryFor_some hs).symm)
  · have hsome : ¬ v.slot.stream.isNone = true := by
      rw [Option.isSome_iff_ne_none] at hstream
      rwa [Option.isNone_iff_eq_none]
    have hwoken : (wake v).slot.stream.isNone = v.slot.stream.isNone := rfl
    rw [if_neg hover] at h ⊢
    simp only [hwoken, if_neg hsome] at h ⊢
    -- The stream was deregistered for the pause, so it can be registered again.
    rw [Registry.orKeep_register_of_absent hr]
    have hsent := sendRegistry_kept (k := k) (v := wake v)
      (r := r.put (connToken k) (some .writable)) rfl hstream (Registry.put_same r _ _) h hout
    exact ⟨hsent.here, fun t ht => (hsent.others t ht).trans (Registry.put_other r ht _)⟩

/--
**A handler leaves its connection the entry of the state it leaves it in.**

The handlers change the state of their connection, and the loop registers it anew
for what that state waits for.
-/
theorem eventRegistry_kept (hq : v.slot.state = .reading → Quiet v) (hne : v.slot.state ≠ .free)
    (hstream : v.slot.stream.isSome = true) (hr : r (connToken k) = entryFor (some v.slot))
    (h : handleConnectionEvent pf cfg w v = .ok out)
    (hout : ∀ slot, out.slot = some slot → slot.stream.isSome = true) :
    Kept k out.slot r (eventRegistry w k v out r) := by
  unfold eventRegistry
  cases handleConnectionEvent_ends h with
  | reading hs hread =>
      rw [entryFor_some hs] at hr
      simp only [hs]
      exact readRegistry_kept hstream hr fun slot hslot =>
        ⟨handleRead_state (hq hs) hs hread hslot, hout slot hslot⟩
  | sending hs hsend =>
      rw [entryFor_some hs] at hr
      simp only [hs]
      exact sendRegistry_kept hs hstream hr hsend hout
  | pausing hs hpause =>
      rw [entryFor_some hs] at hr
      simp only [hs]
      exact pauseRegistry_kept hs hstream hr hpause hout
  | lingering hs =>
      simp only [hs]
      exact closeRegistry_kept hstream
  | free hs => exact absurd hs hne

end Handlers

/-! ### The registry follows the connections

`Registered` is about all tokens at once: the listeners stand below the connections
(`connToken_not_lt`), so an entry belongs to one of the two and a change to one
leaves the other.
-/

theorem Server.Reachable.quiet {pf : Platform} {cfg : ServerConfig} {s : Server} {k : Nat}
    {slot : ConnSlot} (h : s.Reachable pf cfg) (hk : s.conns.at? k = some slot)
    (hs : slot.state = .reading) : Quiet (s.view slot) :=
  ⟨(h.counted.orderly slot (Slab.mem_of_at? hk)).reading hs, h.counted.fit⟩

/-- Every connection of a running server is in one of the served states and has its stream. -/
theorem Server.Reachable.served {pf : Platform} {cfg : ServerConfig} {s : Server} {k : Nat}
    {slot : ConnSlot} (h : s.Reachable pf cfg) (hk : s.conns.at? k = some slot) :
    slot.state ≠ .free ∧ slot.stream.isSome = true :=
  have hne := (h.awake slot (Slab.mem_of_at? hk)).notFree
  ⟨hne, (h.delivering slot (Slab.mem_of_at? hk)).stream hne⟩

/-- The registry of a loop with that many listeners. -/
structure Registered (listeners : Nat) (l : Loop) : Prop where
  bound : listeners ≤ maxListeners
  listening : ∀ i < maxListeners, l.registry i =
    if i < listeners ∧ l.server.draining = false then some .readable else none
  follows : ∀ k, l.registry (connToken k) = entryFor (l.server.conns.at? k)

section Listeners

/-- The start registers the listeners one after the other, and no token beyond them. -/
theorem registerFirst_registers {listeners n : Nat} {r : Registry}
    (h : registerFirst listeners n = .ok r) :
    n ≤ maxListeners ∧ ∀ t, r t = if t < n then some .readable else none := by
  induction n generalizing r with
  | zero =>
      cases h
      exact ⟨Nat.zero_le _, fun t => (if_neg (Nat.not_lt_zero t)).symm⟩
  | succ n ih =>
      rw [registerFirst] at h
      obtain ⟨r₀, hr₀, h⟩ := bind_eq_ok.mp h
      obtain ⟨-, hentries⟩ := ih hr₀
      have hfree : r₀ n = none := (hentries n).trans (if_neg (Nat.lt_irrefl n))
      unfold listenToken at h
      by_cases hn : n < maxListeners
      · simp only [if_pos hn, Registry.register_of_absent hfree, Except.ok.injEq] at h
        subst h
        refine ⟨hn, fun t => ?_⟩
        by_cases ht : t = n
        · rw [ht, Registry.put_same, if_pos (Nat.lt_succ_self n)]
        · rw [Registry.put_other r₀ ht, hentries t]
          have hiff : t < n + 1 ↔ t < n := Nat.lt_succ_iff_lt_or_eq.trans (or_iff_left ht)
          simp only [hiff]
      · simp only [if_neg hn] at h
        cases h

/-- A drain takes exactly them out. -/
theorem deregisterListeners_apply (n : Nat) (r : Registry) (t : Token) :
    deregisterListeners n r t = if t < n then none else r t := by
  induction n with
  | zero => exact (if_neg (Nat.not_lt_zero t)).symm
  | succ n ih =>
      rw [deregisterListeners, Registry.orKeep_deregister]
      by_cases ht : t = n
      · rw [ht, Registry.put_same, if_pos (Nat.lt_succ_self n)]
      · rw [Registry.put_other _ ht, ih]
        have hiff : t < n + 1 ↔ t < n := Nat.lt_succ_iff_lt_or_eq.trans (or_iff_left ht)
        simp only [hiff]

end Listeners

namespace Registered

variable {pf : Platform} {cfg : ServerConfig} {listeners : Nat} {l l' : Loop}

theorem init (h : Loop.Init listeners l) : Registered listeners l := by
  obtain ⟨hbound, hentries⟩ := registerFirst_registers h.registered
  obtain ⟨throttles, -, hstart⟩ := h.server
  refine ⟨hbound, fun i _ => ?_, fun k => ?_⟩
  · rw [hentries i, hstart]
    simp only [Server.start, and_true]
  · have hk := connToken_not_lt hbound k
    have hnone : l.server.conns.at? k = none := by
      rw [hstart]
      rfl
    rw [hentries, if_neg hk, hnone]
    rfl

theorem startDrain (h : Registered listeners l) : Registered listeners (l.startDrain listeners) := by
  refine ⟨h.bound, fun i hi => ?_, fun k => ?_⟩
  · have hoff : ¬ (i < listeners ∧ (l.startDrain listeners).server.draining = false) := by
      rintro ⟨-, hd⟩
      cases hd
    rw [if_neg hoff]
    refine (deregisterListeners_apply listeners l.registry i).trans ?_
    by_cases hlt : i < listeners
    · exact if_pos hlt
    · rw [if_neg hlt, h.listening i hi, if_neg fun hb => hlt hb.1]
  · have hk := connToken_not_lt h.bound k
    exact (deregisterListeners_apply listeners l.registry (connToken k)).trans
      ((if_neg hk).trans (h.follows k))

theorem finish (h : Registered listeners l) (e : LoopEnd) : Registered listeners (l.finish e) :=
  ⟨h.bound, h.listening, h.follows⟩

theorem accept {k : Nat} {r : Registry} (h : Registered listeners l) (peer : PeerAddr)
    (hvacant : l.server.conns.Vacant k) (hr : l.registry.register (connToken k) .readable = some r) :
    Registered listeners { l with server := l.server.accept k peer, registry := r } := by
  have hnone : l.registry (connToken k) = none := by
    rw [h.follows k, hvacant.2]
    rfl
  rw [Registry.register_of_absent hnone] at hr
  cases hr
  refine ⟨h.bound, fun i hi => ?_, fun j => ?_⟩
  · exact (Registry.put_other _ (connToken_ne_listener hi k) _).trans (h.listening i hi)
  · by_cases hj : j = k
    · subst hj
      refine (Registry.put_same _ _ _).trans ?_
      show _ = entryFor ((l.server.conns.put j _).at? j)
      rw [Slab.at?_put hvacant]
      rfl
    · refine (Registry.put_other _ (fun ht => hj (connToken_injective ht)) _).trans ?_
      show _ = entryFor ((l.server.conns.put k _).at? j)
      rw [Slab.at?_put_ne hvacant hj]
      exact h.follows j

/-- One connection and its entry change together. -/
theorem kept {k : Nat} {slot : ConnSlot} {out : Outcome} {r : Registry} (h : Registered listeners l)
    (hk : l.server.conns.at? k = some slot) (hr : Kept k out.slot l.registry r) :
    Registered listeners { l with server := l.server.after k out, registry := r } := by
  refine ⟨h.bound, fun i hi => ?_, fun j => ?_⟩
  · exact (hr.others i (connToken_ne_listener hi k)).trans (h.listening i hi)
  · show r _ = entryFor ((l.server.conns.update k out.slot).at? j)
    by_cases hj : j = k
    · subst hj
      rw [Slab.at?_update hk]
      exact hr.here
    · rw [Slab.at?_update_ne hj]
      exact (hr.others _ fun ht => hj (connToken_injective ht)).trans (h.follows j)

theorem event {w : World} {k : Nat} (h : Registered listeners l) (hs : l.server.Reachable pf cfg)
    (he : l.event pf cfg w k = .ok l') : Registered listeners l' := by
  have hs' : l'.server.Reachable pf cfg := hs.tail (.event w k (Loop.event_server he))
  unfold Loop.event at he
  split at he
  · rename_i slot hk
    obtain ⟨out, hout, he⟩ := bind_eq_ok.mp he
    cases he
    obtain ⟨hne, hstream⟩ := hs.served hk
    refine h.kept hk (eventRegistry_kept (hs.quiet hk) hne hstream ((h.follows k).trans ?_) hout ?_)
    · rw [hk]
      rfl
    · intro slot' hslot'
      exact (hs'.served ((Slab.at?_update hk out.slot).trans hslot')).2
  · cases he
    exact h

theorem resume {w : World} {k : Nat} (h : Registered listeners l) (hs : l.server.Reachable pf cfg)
    (he : l.resume pf w k = .ok l') : Registered listeners l' := by
  have hs' : l'.server.Reachable pf cfg := hs.tail (.resume w k (Loop.resume_server he))
  unfold Loop.resume at he
  split at he
  · rename_i slot hk
    split at he
    · rename_i hpausing
      obtain ⟨out, hout, he⟩ := bind_eq_ok.mp he
      cases he
      refine h.kept hk (pauseRegistry_kept hpausing (hs.served hk).2 ?_ hout ?_)
      · rw [h.follows k, hk]
        exact entryFor_some hpausing
      · intro slot' hslot'
        exact (hs'.served ((Slab.at?_update hk out.slot).trans hslot')).2
    · cases he
      exact h
  · cases he
    exact h

end Registered

/-! ### The periodic update and the registry

The update wakes paused connections behind the registry's back: it changes them in
the table and registers them afterwards, in the order of the keys.  So the entries
are followed through a fold, and `wakesAt` says which of them it has come to.
-/

/-- Whether the periodic update wakes the connection of a key. -/
def wakesAt (w : Nat → World) (conns : Slab ConnSlot) (k : Nat) : Bool :=
  (conns.at? k).any fun slot => Loop.wakes (w k) slot && slot.stream.isSome

/-- The entries of the connections that wake, after the first of them are registered. -/
theorem wakeFold_apply (p : Nat → Bool) (ks : List Nat) (r : Registry) (t : Token) :
    ks.foldl (fun r k => if p k then r.orKeep (r.register (connToken k) .writable) else r) r t =
      if ∃ k ∈ ks, p k = true ∧ t = connToken k then some ((r t).getD .writable) else r t := by
  induction ks generalizing r with
  | nil => exact (if_neg fun ⟨_, hk, _⟩ => List.not_mem_nil hk).symm
  | cons k ks ih =>
      rw [List.foldl_cons, ih]
      by_cases hp : p k = true
      · rw [if_pos hp, Registry.orKeep_register_apply]
        by_cases ht : t = connToken k
        · have hhead : ∃ j ∈ k :: ks, p j = true ∧ t = connToken j := ⟨k, List.mem_cons_self, hp, ht⟩
          rw [if_pos ht, if_pos hhead]
          exact ite_self _
        · rw [if_neg ht]
          refine if_congr ⟨fun ⟨j, hj, hb⟩ => ⟨j, List.mem_cons_of_mem k hj, hb⟩, ?_⟩ rfl rfl
          rintro ⟨j, hj, hpj, htj⟩
          rcases List.mem_cons.mp hj with rfl | hj
          · exact absurd htj ht
          · exact ⟨j, hj, hpj, htj⟩
      · rw [if_neg hp]
        refine if_congr ⟨fun ⟨j, hj, hb⟩ => ⟨j, List.mem_cons_of_mem k hj, hb⟩, ?_⟩ rfl rfl
        rintro ⟨j, hj, hpj, htj⟩
        rcases List.mem_cons.mp hj with rfl | hj
        · exact absurd hpj hp
        · exact ⟨j, hj, hpj, htj⟩

theorem tickRegistry_listener {w : Nat → World} {conns : Slab ConnSlot} {r : Registry} {i : Nat}
    (hi : i < maxListeners) : Loop.tickRegistry w conns r i = r i :=
  (wakeFold_apply (wakesAt w conns) _ r i).trans
    (if_neg fun ⟨k, _, _, hk⟩ => connToken_ne_listener hi k hk)

/-- After the update the entry of a connection is that of the state it now has. -/
theorem tickRegistry_connection (w : Nat → World) (conns : Slab ConnSlot) (r : Registry) (k : Nat) :
    Loop.tickRegistry w conns r (connToken k) =
      if wakesAt w conns k then some ((r (connToken k)).getD .writable) else r (connToken k) := by
  refine (wakeFold_apply (wakesAt w conns) _ r (connToken k)).trans (if_congr ?_ rfl rfl)
  constructor
  · rintro ⟨j, -, hp, hj⟩
    rwa [connToken_injective hj]
  · intro hp
    refine ⟨k, List.mem_range.mpr ?_, hp, rfl⟩
    by_contra hge
    have hnone : conns.at? k = none := by
      unfold Slab.at?
      rw [List.getElem?_eq_none (Nat.le_of_not_lt hge)]
      rfl
    rw [wakesAt, hnone] at hp
    cases hp

/-- The update makes the connections it wakes send, and leaves the others their state. -/
theorem tickSlot_state (shared : Shared) (w : World) (slot : ConnSlot) :
    (tickSlot shared w slot).state = if Loop.wakes w slot then .sending else slot.state := by
  unfold tickSlot Loop.wakes
  cases slot.throttle.pauseUntil with
  | none => simp only [Bool.and_false, Bool.false_eq_true, if_false]
  | some deadline =>
      by_cases h : slot.state = .pausing ∧ slot.throttle.isThrottled ∧ deadline ≤ w.now
      · simp only [if_pos h]
        obtain ⟨hs, ht, hd⟩ := h
        simp only [hs, ht, hd, decide_true, beq_self_eq_true, Bool.and_true, if_true]
        rfl
      · simp only [if_neg h]
        rw [if_neg]
        intro hb
        simp only [Bool.and_eq_true, beq_iff_eq, decide_eq_true_eq] at hb
        exact h ⟨hb.1.1, hb.1.2, hb.2⟩

namespace Registered

variable {pf : Platform} {cfg : ServerConfig} {listeners : Nat} {l l' : Loop}

theorem tick {now : Nat} {w : Nat → World} (h : Registered listeners l)
    (hs : l.server.Reachable pf cfg) (ht : l.tick pf now w = .ok l') : Registered listeners l' := by
  unfold Loop.tick at ht
  split at ht
  · obtain ⟨server, hserver, ht⟩ := bind_eq_ok.mp ht
    cases ht
    obtain ⟨throttles, -, hserver⟩ := bind_eq_ok.mp hserver
    cases hserver
    refine ⟨h.bound, fun i hi => (tickRegistry_listener hi).trans (h.listening i hi), fun k => ?_⟩
    refine (tickRegistry_connection w l.server.conns l.registry k).trans ?_
    rw [h.follows k]
    show _ = entryFor ((l.server.conns.mapEntries _).at? k)
    rw [Slab.at?_mapEntries, wakesAt]
    cases hk : l.server.conns.at? k with
    | none => rfl
    | some slot =>
        obtain ⟨-, hstream⟩ := hs.served hk
        rw [Option.any_some, hstream, Bool.and_true, Option.map_some]
        have hstate := tickSlot_state { l.server.shared with throttles } (w k) slot
        by_cases hw : Loop.wakes (w k) slot = true
        · have hpausing : slot.state = .pausing := by
            unfold Loop.wakes at hw
            simp only [Bool.and_eq_true, beq_iff_eq] at hw
            exact hw.1.1
          rw [if_pos hw] at hstate ⊢
          rw [entryFor_some hpausing, entryFor_some hstate]
          rfl
        · rw [if_neg hw] at hstate ⊢
          rw [entryFor_some rfl, entryFor_some hstate]
  · cases ht
    exact h

theorem signalled (h : Registered listeners l) (hs : Loop.Signalled listeners l l') :
    Registered listeners l' := by
  cases hs with
  | quiet => exact h
  | drain _ _ => exact h.startDrain

theorem accepting (ha : Loop.Accepting l l') (h : Registered listeners l) :
    Registered listeners l' := by
  induction ha with
  | done => exact h
  | full _ _ ih => exact ih h
  | unregistered _ _ ih => exact ih h
  | taken peer _ hvacant hr _ ih => exact ih (h.accept peer hvacant hr)

theorem accepts {ts : List Token} (ha : Loop.Accepts listeners ts l l') (h : Registered listeners l) :
    Registered listeners l' := by
  induction ha with
  | nil => exact h
  | other _ _ ih => exact ih h
  | listener _ _ hacc _ ih =>
      refine ih ?_
      cases hacc with
      | draining _ => exact h
      | accepting _ hall => exact accepting hall h

theorem events {ts : List Token} (he : Loop.Events pf cfg ts l l') (hs : l.server.Reachable pf cfg)
    (h : Registered listeners l) : Registered listeners l' := by
  induction he with
  | nil => exact h
  | connection w _ hevent _ ih =>
      exact ih (hs.tail (.event w _ (Loop.event_server hevent))) (h.event hs hevent)
  | listener _ _ ih => exact ih hs h

theorem resumes {now : Nat} {ks : List Nat} (he : Loop.Resumes pf now ks l l')
    (hs : l.server.Reachable pf cfg) (h : Registered listeners l) : Registered listeners l' := by
  induction he with
  | nil => exact h
  | cons w _ hresume _ ih =>
      exact ih (hs.tail (.resume w _ (Loop.resume_server hresume))) (h.resume hs hresume)

theorem finishIfDrained (h : Registered listeners l) : Registered listeners l.finishIfDrained := by
  unfold Loop.finishIfDrained
  split
  · exact h.finish .stopped
  · exact h

/-- A turn keeps the registry with the connections. -/
theorem turn (h : Registered listeners l) (hs : l.server.Reachable pf cfg)
    (ht : Loop.Turn pf cfg listeners l l') : Registered listeners l' := by
  cases ht with
  | terminated _ => exact h.finish .stopped
  | drained _ _ _ => exact h.startDrain.finish .stopped
  | interrupted _ hsignal => exact h.signalled hsignal
  | pollFailed _ hsignal => exact (h.signalled hsignal).finish .failed
  | served now _ hserved =>
      obtain ⟨w, hsignal, -, haccepts, hevents, hresumes, htick⟩ := hserved
      have reach {m m' : Loop} (hm : m.server.Reachable pf cfg) (hmm' : Loop.Follows pf cfg m m') :
          m'.server.Reachable pf cfg := by
        obtain ⟨s₀, h₀, hrun⟩ := hm
        exact ⟨s₀, h₀, hrun.trans hmm'⟩
      have hs₂ := reach (reach hs hsignal.follows) haccepts.follows
      have hs₃ := reach hs₂ hevents.follows
      have h₃ := events hevents hs₂ (accepts haccepts (h.signalled hsignal))
      exact ((resumes hresumes hs₃ h₃).tick (reach hs₃ hresumes.follows) htick).finishIfDrained

end Registered

theorem Loop.Reachable.registered {pf : Platform} {cfg : ServerConfig} {listeners : Nat} {l : Loop}
    (h : l.Reachable pf cfg listeners) : Registered listeners l := by
  have hboth : l.Reachable pf cfg listeners ∧ Registered listeners l := by
    refine Lts.Reachable.invariant
      (fun l => l.Reachable pf cfg listeners ∧ Registered listeners l) h ?_ ?_
    · intro l hl
      exact ⟨.start hl, .init hl⟩
    · rintro l l' ⟨hreach, hl⟩ hturn
      exact ⟨hreach.tail hturn, hl.turn hreach.server hturn⟩
  exact hboth.2

end Thttpd
