/-
What reading a request does to a connection, whatever the request is.

There are many ways through `process_request`, and they end in the same three ways:
the connection is closed, it goes on reading, or a response was prepared and handed
to `transition_to_sending`.  `handleRead_cases` says so, with what a prepared
response leaves of the socket and of the throttle claims.  Results about whole runs
start from there and do not look at the paths again.
-/
import Thttpd.Proofs.Throttle
import Thttpd.Proofs.Requests

namespace Thttpd

open Text Fs

/-! ### Ways a dispatch changes a view -/

/-- Nothing but the HTTP part and the counters changed. -/
structure Alike (v u : View) : Prop where
  state : u.slot.state = v.slot.state
  stream : u.slot.stream = v.slot.stream
  throttle : u.slot.throttle = v.slot.throttle
  isCgi : u.slot.isCgi = v.slot.isCgi
  throttles : u.shared.throttles = v.shared.throttles

/--
The claims of the connection changed with the table, and a connection that has not
been admitted claims nothing.
-/
structure Carried (v u : View) : Prop where
  stream : u.slot.stream = v.slot.stream
  exchange : Exchange v.shared.throttles v.slot.throttle.tnums
    u.shared.throttles u.slot.throttle.tnums
  unclaimed : u.slot.isCgi = false → u.slot.throttle.checked = false →
    u.slot.throttle.tnums = []

/-- A view ready for `transition_to_sending`. -/
structure Prepared (v u : View) : Prop extends Carried v u where
  length : u.slot.http.responseLen = u.slot.http.response.length

/-- A connection that claims nothing, beside a table that counts no less than nothing. -/
structure Quiet (v : View) : Prop where
  tnums : v.slot.throttle.tnums = []
  fit : SendersFit v.shared.throttles

/-- The connection got an answer. -/
def Answered (pf : Platform) (w : World) (v v' : View) : Prop :=
  ∃ u, Prepared v u ∧ transitionToSending pf w u = .ok v'

theorem Alike.refl (v : View) : Alike v v := ⟨rfl, rfl, rfl, rfl, rfl⟩

theorem Alike.trans {v u x : View} (h₁ : Alike v u) (h₂ : Alike u x) : Alike v x :=
  ⟨h₂.state.trans h₁.state, h₂.stream.trans h₁.stream, h₂.throttle.trans h₁.throttle,
    h₂.isCgi.trans h₁.isCgi, h₂.throttles.trans h₁.throttles⟩

theorem Alike.mapHttp (v : View) (f : HttpConn → HttpConn) : Alike v (v.mapHttp f) :=
  ⟨rfl, rfl, rfl, rfl, rfl⟩

theorem Alike.quiet {v u : View} (h : Alike v u) (hq : Quiet v) : Quiet u :=
  ⟨by rw [h.throttle]; exact hq.tnums, by rw [h.throttles]; exact hq.fit⟩

theorem Quiet.carried {v u : View} (hq : Quiet v) (h : Alike v u) : Carried v u := by
  have hnil : u.slot.throttle.tnums = [] := by rw [h.throttle, hq.tnums]
  refine ⟨h.stream, ?_, fun _ _ => hnil⟩
  rw [h.throttles, hnil, hq.tnums]
  exact .refl (.nil _)

theorem Prepared.of_alike {v u x : View} (h : Alike v u) (hp : Prepared u x) : Prepared v x := by
  refine ⟨⟨hp.stream.trans h.stream, ?_, hp.unclaimed⟩, hp.length⟩
  rw [← h.throttles, ← h.throttle]
  exact hp.exchange

theorem Answered.of_alike {pf : Platform} {w : World} {v u v' : View} (h : Alike v u)
    (ha : Answered pf w u v') : Answered pf w v v' := by
  obtain ⟨x, hx, ht⟩ := ha
  exact ⟨x, hx.of_alike h, ht⟩

/-! ### The four ways to a response -/

theorem Dressed.alike {v u : View} (h : Dressed v u) : Alike v u :=
  ⟨h.state, h.stream, h.throttle, h.isCgi, by rw [h.shared]⟩

theorem Carried.of_dressed {v x u : View} (hc : Carried v x) (h : Dressed x u) : Carried v u := by
  refine ⟨h.stream.trans hc.stream, ?_, ?_⟩
  · rw [h.shared, h.throttle]
    exact hc.exchange
  · rw [h.isCgi, h.throttle]
    exact hc.unclaimed

theorem Quiet.of_dressed {v x : View} (hq : Quiet v) (h : Dressed v x) : Quiet x :=
  h.alike.quiet hq

theorem Carried.from_dressed {v x u : View} (h : Dressed v x) (hc : Carried x u) : Carried v u := by
  refine ⟨hc.stream.trans h.stream, ?_, hc.unclaimed⟩
  rw [← h.shared, ← h.throttle]
  exact hc.exchange

theorem admittedThrottle_tnums {t : ConnThrottle} (h : t.tnums = []) (d : ThrottleDecision) :
    (admittedThrottle t d).tnums = d.tnums := by
  cases d <;> simp [admittedThrottle, ThrottleDecision.tnums, h]

theorem admittedThrottle_checked (t : ConnThrottle) (d : ThrottleDecision) :
    (admittedThrottle t d).checked = true := by
  cases d <;> rfl

/-- A connection that has not been admitted can still be. -/
theorem Carried.quiet {v u : View} (h : Carried v u) (hq : Quiet v) (hcgi : u.slot.isCgi = false)
    (hchecked : u.slot.throttle.checked = false) : Quiet u := by
  have hnil := h.unclaimed hcgi hchecked
  have hex := h.exchange
  rw [hnil, hq.tnums] at hex
  exact ⟨hnil, hex.fit hq.fit⟩

/-- The connection once the table has admitted or refused a file. -/
theorem carried_admitted {pf : Platform} {v : View} {filename : Str} {d : ThrottleDecision}
    {throttles : Option ThrottleTable} (hq : Quiet v)
    (h : askThrottle pf v.shared.throttles filename = .ok (d, throttles)) :
    Carried v (v.admitted throttles (admittedThrottle v.slot.throttle d)) := by
  refine ⟨rfl, ?_, ?_⟩
  · rw [hq.tnums]
    show Exchange _ _ _ (admittedThrottle v.slot.throttle d).tnums
    rw [admittedThrottle_tnums hq.tnums]
    exact exchange_askThrottle pf hq.fit h
  · intro _ hchecked
    have : (admittedThrottle v.slot.throttle d).checked = false := hchecked
    rw [admittedThrottle_checked] at this
    cases this

/-- A refused program claims nothing. -/
theorem carried_refused {pf : Platform} {v : View} {filename : Str}
    {throttles : Option ThrottleTable} (hq : Quiet v)
    (h : askThrottle pf v.shared.throttles filename = .ok (.reject, throttles)) :
    Carried v (v.admitted throttles v.slot.throttle) := by
  refine ⟨rfl, ?_, fun _ _ => hq.tnums⟩
  show Exchange _ v.slot.throttle.tnums _ v.slot.throttle.tnums
  rw [hq.tnums]
  exact exchange_askThrottle pf hq.fit h

theorem isThrottled_iff {t : ConnThrottle} : t.isThrottled = true ↔ t.tnums ≠ [] := by
  simp [ConnThrottle.isThrottled]

theorem isThrottled_eq_false {t : ConnThrottle} (h : t.isThrottled = false) : t.tnums = [] := by
  simpa [ConnThrottle.isThrottled] using h

/-- A finished program's claims are given back. -/
theorem releaseCgi_carried {v u : View} (charge : Option Int) (hc : Carried v u)
    (hcgi : u.slot.isCgi = true) : Carried v (releaseCgi u charge) := by
  unfold releaseCgi
  by_cases ht : u.slot.throttle.isThrottled = true
  · simp only [ht, if_true]
    refine ⟨hc.stream, ?_, fun hf => absurd hf (by simp [hcgi])⟩
    have hin := hc.exchange.entered
    cases charge with
    | none => exact hc.exchange.trans (exchange_clear hin)
    | some n =>
        have hadd := exchange_addBytes u.slot.throttle.tnums n hin
        have hclear := exchange_clear hadd.entered
        rw [Option.map_map] at hclear
        exact hc.exchange.trans (hadd.trans hclear)
  · simp only [ht, Bool.false_eq_true, if_false]
    exact ⟨hc.stream, hc.exchange, fun _ _ => isThrottled_eq_false (by simpa using ht)⟩

theorem cgiThrottle_tnums {t : ConnThrottle} (h : t.tnums = []) (d : ThrottleDecision) :
    (cgiThrottle t d).tnums = d.tnums := by
  cases d <;> simp [cgiThrottle, ThrottleDecision.tnums, h]

/-- A program may claim without having been checked: it is flagged before it runs. -/
theorem carried_afterCgi {pf : Platform} {w : World} {v : View} {filename pathInfo : Str}
    {d : ThrottleDecision} {throttles : Option ThrottleTable} {call : CgiCall} (hq : Quiet v)
    (h : askThrottle pf v.shared.throttles filename = .ok (d, throttles)) :
    Carried v (afterCgi w v pathInfo throttles d call) := by
  refine releaseCgi_carried _ ⟨rfl, ?_, fun hf => by cases hf⟩ rfl
  show Exchange _ v.slot.throttle.tnums throttles (cgiThrottle v.slot.throttle d).tnums
  rw [hq.tnums, cgiThrottle_tnums hq.tnums]
  exact exchange_askThrottle pf hq.fit h

/--
**Whichever way a response came about, the claims changed with the table.**

The four ways to a response ask the table once, or not at all, and take over what
they are given.
-/
theorem Prepares.carried {pf : Platform} {cfg : ServerConfig} {w : World} {v u : View} (hq : Quiet v)
    (h : Prepares pf cfg w v u) : Carried v u := by
  cases h with
  | page hu => exact hq.carried hu.alike
  | file hx hask hu =>
      exact ((carried_admitted (hq.of_dressed hx) hask).of_dressed hu).from_dressed hx
  | refused hx hask hu =>
      exact ((carried_refused (hq.of_dressed hx) hask).of_dressed hu).from_dressed hx
  | ran hx hask _ hu =>
      exact ((carried_afterCgi (hq.of_dressed hx) hask).of_dressed hu).from_dressed hx

theorem Answers.answered {pf : Platform} {cfg : ServerConfig} {w : World} {v u v' : View} (hq : Quiet v)
    (h : Answers pf cfg w v u v') : Answered pf w v v' :=
  ⟨u, ⟨h.prepares.carried hq, h.length⟩, h.sends⟩

/-! ### Requests -/

/-- The connection waits for the body of its request. -/
structure Waits (v v' : View) : Prop extends Alike v v' where
  pending : v'.slot.pendingCgiBody = true

theorem Processed.cases {pf : Platform} {cfg : ServerConfig} {w : World} {v v' : View} (hq : Quiet v)
    (h : Processed pf cfg w v v') : Waits v v' ∨ Answered pf w v v' := by
  rcases h with ⟨u, hu, rfl⟩ | ⟨u, ha⟩
  · obtain ⟨hstate, hstream, hthrottle, hcgi, hthrottles⟩ := hu.alike
    exact .inl ⟨⟨hstate, hstream, hthrottle, hcgi, hthrottles⟩, rfl⟩
  · exact .inr (ha.answered hq)

/-- A CGI dispatch answers, or waits for the body. -/
theorem dispatchCgi_cases {pf : Platform} {cfg : ServerConfig} {w : World} {v v' : View}
    (hq : Quiet v) (h : dispatchCgi pf cfg w v = .ok v') :
    Waits v v' ∨ Answered pf w v v' := (dispatchCgi_processed h).cases hq

/-- **A request is answered, or its body is waited for.** -/
theorem processRequest_cases {pf : Platform} {cfg : ServerConfig} {w : World} {v v' : View}
    (hq : Quiet v) (h : processRequest pf cfg w v = .ok v') :
    Waits v v' ∨ Answered pf w v v' := (processRequest_processed h).cases hq

/-! ### Reading -/

/-- What reading leaves: the connection closed, still reading, or answered. -/
def ReadOutcome (pf : Platform) (w : World) (v : View) (out : Outcome) : Prop :=
  out = closeConnection v ∨ (∃ v', out = v'.keep ∧ Alike v v') ∨
    (∃ v', out = v'.keep ∧ Answered pf w v v')

theorem refuseUnparsed_answered {pf : Platform} {w : World} {v : View} {out : Outcome}
    (hq : Quiet v) (h : refuseUnparsed pf w v = .ok out) :
    ∃ v', out = v'.keep ∧ Answered pf w v v' := by
  obtain ⟨v', hv', h⟩ := bind_eq_ok.mp h
  cases h
  exact ⟨v', rfl, _, ⟨hq.carried (Dressed.respond v _ _).alike, rfl⟩, hv'⟩

/-- **Reading closes the connection, goes on, or ends in an answer.** -/
theorem handleRead_cases {pf : Platform} {cfg : ServerConfig} {w : World} {v : View}
    {out : Outcome} (hq : Quiet v) (h : handleRead pf cfg w v = .ok out) :
    ReadOutcome pf w v out := by
  cases handleRead_ends h with
  | closed => exact .inl rfl
  | goesOn hu => exact .inr (.inl ⟨_, rfl, (Alike.mapHttp v _).trans hu.alike⟩)
  | answered ha =>
      have hloaded : Alike v (v.loaded w) := .mapHttp v _
      exact .inr (.inr ⟨_, rfl, (ha.answered (hloaded.quiet hq)).of_alike hloaded⟩)

end Thttpd
