/-
A rule with a minimum rate locks itself out.

A request is refused while the rate of a rule is below its minimum, and the rate rises
only by what admitted requests send.  So a rule that asks for a minimum keeps the rate of
nothing it started with, and refuses whatever reaches it.  The check doubles the maximum
of the rule first, and a build that checks for overflow aborts there when that is too
much.

The first half is an invariant of runs, and a deal with the table cannot break it:
refusing changes nothing, and only a connection that holds the rule charges it.  The
second half follows one request, from the check of the table to the page it is
answered with, through every place of the program that asks the table.
-/
import Thttpd.Proofs.Deals
import Thttpd.Proofs.Missing

namespace Thttpd

open Text Fs

/-! ### One rule of the table

The changes a table undergoes are looked at rule by rule: senders are released,
bytes are charged, averages are renewed.  A locked rule has no sender to release, no
byte charged and an average of zero.
-/

/-- The rule at `t`, if there is a table with one. -/
def ruleIn (throttles : Option ThrottleTable) (t : Nat) : Option ThrottleEntry :=
  throttles.bind fun table => table[t]?

theorem getElem?_foldl_modify {f : ThrottleEntry → ThrottleEntry} {t : Nat} {tnums : List Nat} :
    ∀ {table : ThrottleTable}, t ∉ tnums →
      (tnums.foldl (fun (tb : ThrottleTable) tnum => tb.modify tnum f) table)[t]? = table[t]? := by
  induction tnums with
  | nil => intro table _; rfl
  | cons x xs ih =>
      intro table h
      rw [List.mem_cons, not_or] at h
      obtain ⟨hx, hxs⟩ := h
      rw [List.foldl_cons, ih hxs, List.getElem?_modify]
      simp only [if_neg (Ne.symm hx), id_map']

/-- Releasing and charging other rules leaves this one. -/
theorem ruleIn_clear {ts : Option ThrottleTable} {tnums : List Nat} {t : Nat} (h : t ∉ tnums) :
    ruleIn (ts.map fun table => table.clear tnums) t = ruleIn ts t := by
  cases ts with
  | none => rfl
  | some table => exact getElem?_foldl_modify h

theorem ruleIn_addBytes {ts : Option ThrottleTable} {tnums : List Nat} {t : Nat} (n : Int)
    (h : t ∉ tnums) : ruleIn (ts.map fun table => table.addBytes tnums n) t = ruleIn ts t := by
  cases ts with
  | none => rfl
  | some table => exact getElem?_foldl_modify h

/-- The averages are updated rule by rule. -/
theorem updateAverages_getElem? {pf : Platform} {e : ThrottleEntry} :
    ∀ {table table' : ThrottleTable} {t : Nat}, table.updateAverages pf = .ok table' →
      table[t]? = some e → ∃ e', ThrottleTable.updateRate pf e = .ok e' ∧ table'[t]? = some e' := by
  intro table
  induction table with
  | nil =>
      intro table' t _ he
      cases he
  | cons x rest ih =>
      intro table' t h he
      rw [ThrottleTable.updateAverages, List.mapM_cons] at h
      obtain ⟨x', hx, h⟩ := bind_eq_ok.mp h
      obtain ⟨rest', hrest, h⟩ := bind_eq_ok.mp h
      cases h
      cases t with
      | zero =>
          cases he
          exact ⟨x', hx, rfl⟩
      | succ t =>
          rw [List.getElem?_cons_succ] at he
          obtain ⟨e', he', ht⟩ := ih hrest he
          exact ⟨e', he', ht⟩

/-- The number is an `i64`. -/
def FitsI64 (x : Int) : Prop := i64Min ≤ x ∧ x ≤ i64Max

instance (x : Int) : Decidable (FitsI64 x) := inferInstanceAs (Decidable (_ ∧ _))

/-- Twice the maximum of the rule is one. -/
def ThrottleEntry.Doubles (e : ThrottleEntry) : Prop := FitsI64 (e.maxLimit * 2)

instance (e : ThrottleEntry) : Decidable e.Doubles := inferInstanceAs (Decidable (FitsI64 _))

/-- A rule that nobody may use yet. -/
structure ThrottleEntry.Locked (e : ThrottleEntry) : Prop where
  rate : e.rate = 0
  bytes : e.bytesSinceAvg = 0
  senders : e.numSending = 0
  min : 0 < e.minLimit

theorem ThrottleEntry.Locked.new {pattern : Str} {maxLimit minLimit : Int} (h : 0 < minLimit) :
    (ThrottleEntry.new pattern maxLimit minLimit).Locked := ⟨rfl, rfl, rfl, h⟩

/-- A locked rule admits nobody. -/
theorem checkFrom_locked {pf : Platform} {filename : Str} {t : Nat} {e₀ : ThrottleEntry}
    (hlocked : e₀.Locked) : ∀ {rest done : ThrottleTable} {tnums : List Nat}
      {maxLimit minLimit : Int} {d : ThrottleDecision} {table : ThrottleTable},
      ThrottleTable.checkFrom pf filename done tnums maxLimit minLimit rest = .ok (d, table) →
      (done ++ rest)[t]? = some e₀ → t ∉ tnums → table[t]? = some e₀ ∧ t ∉ d.tnums := by
  intro rest
  induction rest with
  | nil =>
      intro done tnums maxLimit minLimit d table h he ht
      simp only [ThrottleTable.checkFrom, Except.ok.injEq, Prod.mk.injEq] at h
      obtain ⟨rfl, rfl⟩ := h
      rw [List.append_nil] at he
      exact ⟨he, by rwa [decision_tnums]⟩
  | cons e rest ih =>
      intro done tnums maxLimit minLimit d table h he ht
      unfold ThrottleTable.checkFrom at h
      split at h
      · simp only [Except.ok.injEq, Prod.mk.injEq] at h
        obtain ⟨rfl, rfl⟩ := h
        exact ⟨he, by rwa [decision_tnums]⟩
      split at h
      · obtain ⟨twice, -, h⟩ := bind_eq_ok.mp h
        split at h
        · simp only [Except.ok.injEq, Prod.mk.injEq] at h
          obtain ⟨rfl, rfl⟩ := h
          exact ⟨(getElem?_foldl_modify ht).trans he, List.not_mem_nil⟩
        · -- the locked rule would have refused, so this is another one
          rename_i hpass
          have hne : done.length ≠ t := by
            rintro rfl
            have hsame : e = e₀ := by simpa using he
            have hrate := hlocked.rate
            have hmin := hlocked.min
            rw [hsame] at hpass
            omega
          obtain ⟨e', -, h⟩ := bind_eq_ok.mp h
          refine ih h ?_ ?_
          · rw [← he]
            simp only [List.append_assoc, List.singleton_append]
            rcases Nat.lt_or_ge t done.length with hlt | hge
            · rw [List.getElem?_append_left hlt, List.getElem?_append_left hlt]
            · obtain ⟨k, hk⟩ : ∃ k, t - done.length = k + 1 := ⟨t - done.length - 1, by omega⟩
              rw [List.getElem?_append_right hge, List.getElem?_append_right hge, hk]
              rfl
          · rw [List.mem_append, List.mem_singleton]
            exact fun hor => hor.elim ht fun heq => hne heq.symm
      · refine ih h ?_ ht
        rw [← he]
        simp

theorem askThrottle_locked {pf : Platform} {ts ts' : Option ThrottleTable} {filename : Str}
    {d : ThrottleDecision} {t : Nat} {e₀ : ThrottleEntry} (hlocked : e₀.Locked)
    (h : askThrottle pf ts filename = .ok (d, ts')) (he : ruleIn ts t = some e₀) :
    ruleIn ts' t = some e₀ ∧ t ∉ d.tnums := by
  cases ts with
  | none => cases he
  | some table =>
      obtain ⟨⟨d', table'⟩, hcheck, h⟩ := bind_eq_ok.mp h
      cases h
      exact checkFrom_locked hlocked hcheck (List.nil_append table ▸ he) List.not_mem_nil

/-- The average of nothing is nothing. -/
theorem updateRate_locked {pf : Platform} {e e' : ThrottleEntry} (hlocked : e.Locked)
    (h : ThrottleTable.updateRate pf e = .ok e') : e' = e := by
  obtain ⟨twice, htwice, h⟩ := bind_eq_ok.mp h
  obtain ⟨sum, hsum, h⟩ := bind_eq_ok.mp h
  cases h
  have hzero : twice = 0 := by
    rw [hlocked.rate] at htwice
    exact Platform.i64_eq (by decide) (by decide) htwice
  have hsum : sum = 0 := by
    rw [hzero, hlocked.bytes] at hsum
    exact Platform.i64_eq (by decide) (by decide) hsum
  have hrate := hlocked.rate
  have hbytes := hlocked.bytes
  rw [hsum]
  cases e
  simp only at hrate hbytes
  simp [hrate, hbytes]

/--
**Deals leave a locked rule as it is, with nobody holding it.**

Asking is refused, and the other three dealings are with the rules a connection
holds, of which this is none.
-/
theorem locked_dealsKeep {pf : Platform} {t : Nat} {e₀ : ThrottleEntry} (hlocked : e₀.Locked) :
    DealsKeep pf (fun ts => ruleIn ts t = some e₀) (fun tnums _ => t ∉ tnums) := by
  refine ⟨fun a b hdeal htable hconn => ?_, List.not_mem_nil⟩
  cases hdeal with
  | ask _ hask _ => exact askThrottle_locked hlocked hask htable
  | charge _ => exact ⟨(ruleIn_addBytes _ hconn).trans htable, hconn⟩
  | release => exact ⟨(ruleIn_clear hconn).trans htable, List.not_mem_nil⟩
  | share => exact ⟨htable, hconn⟩

theorem tickTable_locked {pf : Platform} {ts ts' : Option ThrottleTable} {t : Nat}
    {e₀ : ThrottleEntry} (hlocked : e₀.Locked) (h : tickTable pf ts = .ok ts')
    (he : ruleIn ts t = some e₀) : ruleIn ts' t = some e₀ := by
  cases ts with
  | none => cases he
  | some table =>
      obtain ⟨table', havg, h⟩ := bind_eq_ok.mp h
      cases h
      obtain ⟨e', he', ht⟩ := updateAverages_getElem? havg he
      rw [updateRate_locked hlocked he'] at ht
      exact ht

/--
**A rule that starts locked stays as it was loaded.**

The update makes the average of nothing, so the rule stays as it is there too.
-/
theorem Server.RunsFrom.locked {pf : Platform} {cfg : ServerConfig}
    {throttles : Option ThrottleTable} {s : Server} {t : Nat} {e₀ : ThrottleEntry}
    (h : s.RunsFrom pf cfg throttles)
    (hnew : ∀ table, throttles = some table → ∀ e ∈ table, ∃ pattern maxLimit minLimit,
      e = ThrottleEntry.new pattern maxLimit minLimit)
    (hlocked : e₀.Locked) (he : ruleIn throttles t = some e₀) :
    ruleIn s.shared.throttles t = some e₀ := by
  have hholds : s.Holds (fun ts => ruleIn ts t = some e₀) (fun tnums _ => t ∉ tnums) :=
    .run (locked_dealsKeep hlocked) (fun _ _ hstep => hstep)
      (fun _ _ _ _ he hts => tickTable_locked hlocked hts he) hnew he h
  exact hholds.table

/-! ### The check of a request that comes to the rule

The check goes through the rules in their order and stops at the first that refuses,
or after ten that match.  A request comes to a rule when none of those before it ends
the check.
-/

/--
The check of a request comes to rule `t`, and the rule is for it: those before it
neither refuse the request nor are ten for it.
-/
def ThrottleTable.Reaches (pf : Platform) (table : ThrottleTable) (filename : Str) (t : Nat) : Prop :=
  (∃ e, table[t]? = some e ∧ matchPattern e.pattern filename = true) ∧
  ∃ d before, ThrottleTable.checkRequest pf (table.take t) filename = .ok (d, before) ∧
    d ≠ .reject ∧ d.tnums.length < maxThrottleNums

/-- The check goes on with the rules that are left. -/
theorem checkFrom_append {pf : Platform} {filename : Str} : ∀ {pre done : ThrottleTable}
    {tnums : List Nat} {maxLimit minLimit : Int} {d : ThrottleDecision} {before : ThrottleTable},
    ThrottleTable.checkFrom pf filename done tnums maxLimit minLimit pre = .ok (d, before) →
    d ≠ .reject → d.tnums.length < maxThrottleNums → ∃ maxLimit' minLimit', ∀ post,
      ThrottleTable.checkFrom pf filename done tnums maxLimit minLimit (pre ++ post)
        = ThrottleTable.checkFrom pf filename before d.tnums maxLimit' minLimit' post := by
  intro pre
  induction pre with
  | nil =>
      intro done tnums maxLimit minLimit d before h _ _
      simp only [ThrottleTable.checkFrom, Except.ok.injEq, Prod.mk.injEq] at h
      obtain ⟨rfl, rfl⟩ := h
      refine ⟨maxLimit, minLimit, fun post => ?_⟩
      rw [decision_tnums, List.nil_append]
  | cons e pre ih =>
      intro done tnums maxLimit minLimit d before h hd hlen
      unfold ThrottleTable.checkFrom at h
      split at h
      · rename_i hten
        simp only [Except.ok.injEq, Prod.mk.injEq] at h
        obtain ⟨rfl, rfl⟩ := h
        rw [decision_tnums] at hlen
        exact absurd hten (Nat.not_le.mpr hlen)
      rename_i hten
      split at h
      · rename_i hmatch
        obtain ⟨twice, htwice, h⟩ := bind_eq_ok.mp h
        split at h
        · simp only [Except.ok.injEq, Prod.mk.injEq] at h
          exact absurd h.1.symm hd
        · rename_i hpass
          obtain ⟨e', hsender, h⟩ := bind_eq_ok.mp h
          obtain ⟨maxLimit', minLimit', hrest⟩ := ih h hd hlen
          refine ⟨maxLimit', minLimit', fun post => ?_⟩
          rw [← hrest, List.cons_append]
          conv_lhs => unfold ThrottleTable.checkFrom
          rw [if_neg hten, if_pos hmatch, htwice]
          refine (if_neg hpass).trans ?_
          rw [hsender]
          rfl
      · rename_i hmatch
        obtain ⟨maxLimit', minLimit', hrest⟩ := ih h hd hlen
        refine ⟨maxLimit', minLimit', fun post => ?_⟩
        rw [← hrest, List.cons_append]
        conv_lhs => unfold ThrottleTable.checkFrom
        rw [if_neg hten, if_neg hmatch]

/--
A build that does not check for overflow does every operation; one that does, those
that fit.
-/
theorem Platform.i64_ok_iff {pf : Platform} {x : Int} :
    (∃ y, pf.i64 x = .ok y) ↔ pf.overflowChecks = false ∨ FitsI64 x := by
  unfold Platform.i64 FitsI64
  split
  · rename_i hfits
    exact iff_of_true ⟨x, rfl⟩ (.inr hfits)
  · rename_i hfits
    cases hchecks : pf.overflowChecks with
    | false => exact iff_of_true ⟨_, rfl⟩ (.inl rfl)
    | true =>
        refine iff_of_false (fun ⟨y, hy⟩ => by cases hy) ?_
        simpa using hfits

/-- What comes to a locked rule is refused, unless doubling its maximum aborts. -/
theorem checkRequest_reaches {pf : Platform} {table : ThrottleTable} {filename : Str} {t : Nat}
    {e₀ : ThrottleEntry} (hlocked : e₀.Locked) (he : table[t]? = some e₀)
    (h : table.Reaches pf filename t) :
    ∃ table', table.checkRequest pf filename
      = pf.i64 (e₀.maxLimit * 2) >>= fun _ => .ok (.reject, table') := by
  obtain ⟨⟨e, het, hmatch⟩, d, before, hbefore, hd, hlen⟩ := h
  cases he.symm.trans het
  obtain ⟨hlt, hget⟩ := List.getElem?_eq_some_iff.mp he
  have hsplit : table = table.take t ++ e₀ :: table.drop (t + 1) := by
    rw [← hget, List.getElem_cons_drop, List.take_append_drop]
  obtain ⟨maxLimit, minLimit, hrest⟩ := checkFrom_append hbefore hd hlen
  have hcheck : ThrottleTable.checkRequest pf (table.take t ++ e₀ :: table.drop (t + 1)) filename
      = pf.i64 (e₀.maxLimit * 2) >>= fun _ =>
        .ok (.reject, ThrottleTable.clear (before ++ e₀ :: table.drop (t + 1)) d.tnums) := by
    unfold ThrottleTable.checkRequest
    rw [hrest, ThrottleTable.checkFrom, if_neg (Nat.not_le.mpr hlen), if_pos hmatch]
    have hrate := hlocked.rate
    have hmin := hlocked.min
    congr 1
    funext twice
    exact if_pos (.inr (by omega))
  rw [← hsplit] at hcheck
  exact ⟨_, hcheck⟩

/--
**It is refused exactly in a build that does not check for overflow, or when twice
the maximum fits.**

The maximum is doubled before anything is compared, so a build with overflow checks
stops there.
-/
theorem checkRequest_reject_iff {pf : Platform} {table : ThrottleTable} {filename : Str} {t : Nat}
    {e₀ : ThrottleEntry} (hlocked : e₀.Locked) (he : table[t]? = some e₀)
    (h : table.Reaches pf filename t) :
    (∃ table', table.checkRequest pf filename = .ok (.reject, table')) ↔
      pf.overflowChecks = false ∨ e₀.Doubles := by
  unfold ThrottleEntry.Doubles
  rw [← Platform.i64_ok_iff]
  obtain ⟨table', hcheck⟩ := checkRequest_reaches hlocked he h
  rw [hcheck]
  constructor
  · rintro ⟨_, hok⟩
    obtain ⟨y, hy, -⟩ := bind_eq_ok.mp hok
    exact ⟨y, hy⟩
  · rintro ⟨y, hy⟩
    exact ⟨table', by rw [hy]; rfl⟩

/-- One can be added to a count that fits. -/
theorem ThrottleEntry.addSender_total (pf : Platform) {e : ThrottleEntry}
    (hcount : 0 ≤ e.numSending ∧ e.numSending < i64Max) : ∃ e', e.addSender pf = .ok e' := by
  have hmore : pf.i64 e.oneMore = .ok e.oneMore := by
    refine if_pos ?_
    unfold ThrottleEntry.oneMore
    unfold i64Min i64Max at *
    split <;> omega
  unfold ThrottleEntry.addSender
  rw [hmore]
  exact ⟨_, rfl⟩

/-- A check that may double every maximum and count at every rule comes to an end. -/
theorem checkFrom_total {pf : Platform} (filename : Str) : ∀ {rest : ThrottleTable}
    (done : ThrottleTable) (tnums : List Nat) (maxLimit minLimit : Int),
    (∀ e ∈ rest, pf.overflowChecks = false ∨ e.Doubles) →
    (∀ e ∈ rest, 0 ≤ e.numSending ∧ e.numSending < i64Max) →
      ∃ r, ThrottleTable.checkFrom pf filename done tnums maxLimit minLimit rest = .ok r := by
  intro rest
  induction rest with
  | nil =>
      intro done tnums maxLimit minLimit _ _
      exact ⟨_, rfl⟩
  | cons e rest ih =>
      intro done tnums maxLimit minLimit h hcounts
      have hrest := fun e he => h e (List.mem_cons_of_mem _ he)
      have hfits := fun e he => hcounts e (List.mem_cons_of_mem _ he)
      unfold ThrottleTable.checkFrom
      split
      · exact ⟨_, rfl⟩
      split
      · obtain ⟨twice, htwice⟩ := Platform.i64_ok_iff.mpr (h e List.mem_cons_self)
        rw [htwice]
        by_cases hreject : twice < e.rate ∨ e.rate < e.minLimit
        · exact ⟨_, if_pos hreject⟩
        · obtain ⟨e', hsender⟩ := e.addSender_total pf (hcounts e List.mem_cons_self)
          obtain ⟨r, hr⟩ := ih _ _ _ _ hrest hfits
          refine ⟨r, (if_neg hreject).trans ?_⟩
          rw [hsender]
          exact hr
      · exact ih _ _ _ _ hrest hfits

theorem askThrottle_total {pf : Platform} {table : ThrottleTable} (filename : Str)
    (h : ∀ e ∈ table, pf.overflowChecks = false ∨ e.Doubles) (hcounts : SendersFit (some table)) :
    ∃ r, askThrottle pf (some table) filename = .ok r := by
  obtain ⟨⟨d, table'⟩, hcheck⟩ := checkFrom_total (throttleMatchPath filename)
    [] [] throttleNolimit throttleNolimit h fun _ => hcounts.rule
  refine ⟨(d, some table'), ?_⟩
  show (ThrottleTable.checkRequest pf table _ >>= _) = _
  unfold ThrottleTable.checkRequest
  rw [hcheck]
  rfl

/-! ### The answer

What is refused is answered with a page of its own, which is sent without asking the
table.  `Asks` lists the places where a request may be refused, so that the answer is
followed from each of them by one lemma.
-/

/-- The response is the page that says the request is over its bandwidth limit. -/
def OverLimitPage (pf : Platform) (w : World) (http : HttpConn) : Prop :=
  ∃ http' arg, http'.mimeFlag = http.mimeFlag ∧ http'.httpVersion = http.httpVersion ∧
    http.response = errorResponse pf w http' (.overLimit arg)

/-- Its status is 503. -/
theorem OverLimitPage.status {pf : Platform} {w : World} {http : HttpConn}
    (h : OverLimitPage pf w http) (hp : http.mimeFlag = true → Unbroken http.httpVersion) :
    replyStatus http = some 503 := by
  obtain ⟨http', arg, hmime, hversion, hresponse⟩ := h
  rw [← hmime, ← hversion] at hp
  unfold replyStatus
  rw [hresponse, ← hmime]
  exact errorResponse_status (e := .overLimit arg) hp (by simp [ErrorReply.overLimit])

/-- The page is sent as it is, and stands in for a response that the table refuses. -/
theorem sendingSlot_overLimit {pf : Platform} {w : World} {slot : ConnSlot} {d : ThrottleDecision}
    (h : d = .reject ∨ OverLimitPage pf w slot.http) :
    OverLimitPage pf w (sendingSlot pf w slot d).http := by
  obtain ⟨len, hlen⟩ := fillHeaderLen_eq slot
  have hkept : OverLimitPage pf w slot.http →
      OverLimitPage pf w { fillHeaderLen slot with bytesSent := 0 } := by
    rw [hlen]
    exact id
  cases d with
  | reject => exact ⟨{ fillHeaderLen slot with bytesSent := 0 }, _, rfl, rfl, rfl⟩
  | unlimited => exact hkept (h.resolve_left (by simp))
  | allow tnums maxLimit minLimit => exact hkept (h.resolve_left (by simp))

/--
What a refused request is answered with: the page with the status 503, and no
program is called for it.
-/
structure OverLimit (pf : Platform) (w : World) (v v' : View) : Prop where
  page : OverLimitPage pf w v'.slot.http
  status : (v'.slot.http.mimeFlag = true → Unbroken v'.slot.http.httpVersion) →
    replyStatus v'.slot.http = some 503
  calls : v'.shared.cgiCalls = v.shared.cgiCalls

/-- A response that is such a page, or is refused, is answered so. -/
theorem transitionToSending_overLimit {pf : Platform} {w : World} {u v' : View}
    (hpage : OverLimitPage pf w u.slot.http ∨
      ∃ throttles, entryDecision pf u = .ok (.reject, throttles))
    (h : transitionToSending pf w u = .ok v') : OverLimit pf w u v' := by
  obtain ⟨⟨d, throttles⟩, hentry, h⟩ := bind_eq_ok.mp h
  cases h
  have hsent : OverLimitPage pf w (sendingSlot pf w u.slot d).http := by
    refine sendingSlot_overLimit ?_
    rcases hpage with hpage | ⟨throttles', hreject⟩
    · exact .inr hpage
    · cases hentry.symm.trans hreject
      exact .inl rfl
  exact ⟨hsent, hsent.status, rfl⟩

/--
The program asks the table about `filename` for a view, and goes on with the answer.
These are all the places where it does.
-/
inductive Asks (pf : Platform) (cfg : ServerConfig) (w : World) (v : View) :
    Str → Except Panic View → Prop
  | entry : v.slot.isCgi = false → v.slot.throttle.checked = false →
      Asks pf cfg w v (throttleMatchPath v.slot.http.origFilename) (transitionToSending pf w v)
  | file (file opened : Path) (node : Node) :
      Asks pf cfg w v (throttleMatchPath v.slot.http.origFilename)
        (serveFile pf w v file opened node)
  | program (script pathInfo : Str) :
      Asks pf cfg w v (throttleMatchPath script) (admitCgi pf cfg w v script pathInfo)

theorem askThrottle_reject {pf : Platform} {ts : Option ThrottleTable} {table table' : ThrottleTable}
    {name filename : Str} (htable : ts = some table)
    (hreject : table.checkRequest pf filename = .ok (.reject, table'))
    (hname : throttleMatchPath name = filename) :
    askThrottle pf ts name = .ok (.reject, some table') := by
  rw [htable]
  unfold askThrottle
  simp only [hname, hreject]
  rfl

/--
**Whoever asks and is refused answers so.**

In some of these places a response has been prepared already, in others none has;
the page is the same.
-/
theorem Asks.overLimit {pf : Platform} {cfg : ServerConfig} {w : World} {v v' : View}
    {filename : Str} {out : Except Panic View} {table table' : ThrottleTable}
    (h : Asks pf cfg w v filename out) (htable : v.shared.throttles = some table)
    (hreject : table.checkRequest pf filename = .ok (.reject, table')) (hout : out = .ok v') :
    OverLimit pf w v v' := by
  cases h with
  | entry hcgi hchecked =>
      refine transitionToSending_overLimit (.inr ⟨some table', ?_⟩) hout
      unfold entryDecision
      rw [hcgi, hchecked]
      exact askThrottle_reject htable hreject rfl
  | file file opened node =>
      unfold serveFile at hout
      rw [askThrottle_reject htable hreject rfl] at hout
      have hover := transitionToSending_overLimit (.inl ?_) hout
      · exact ⟨hover.page, hover.status, hover.calls⟩
      · exact ⟨_, _, rfl, rfl, rfl⟩
  | program script pathInfo =>
      unfold admitCgi at hout
      rw [askThrottle_reject htable hreject rfl] at hout
      have hover := transitionToSending_overLimit (.inl ?_) hout
      · exact ⟨hover.page, hover.status, hover.calls⟩
      · exact ⟨_, _, rfl, rfl, rfl⟩

/-- Starting to send comes to an end when every maximum may be doubled. -/
theorem transitionToSending_total {pf : Platform} (w : World) {u : View} {table : ThrottleTable}
    (htable : u.shared.throttles = some table)
    (hfits : ∀ e ∈ table, pf.overflowChecks = false ∨ e.Doubles)
    (hcounts : SendersFit (some table)) : ∃ v', transitionToSending pf w u = .ok v' := by
  have hentry : ∃ r, entryDecision pf u = .ok r := by
    unfold entryDecision
    split
    · rw [htable]
      exact askThrottle_total _ hfits hcounts
    · exact ⟨_, rfl⟩
  obtain ⟨r, hr⟩ := hentry
  unfold transitionToSending
  rw [hr]
  exact ⟨_, rfl⟩

/-- Checking a request leaves every maximum. -/
theorem checkRequest_fits {pf : Platform} {table table' : ThrottleTable} {filename : Str}
    {d : ThrottleDecision} (hcheck : table.checkRequest pf filename = .ok (d, table'))
    (hfits : ∀ e ∈ table, pf.overflowChecks = false ∨ e.Doubles) :
    ∀ e ∈ table', pf.overflowChecks = false ∨ e.Doubles := by
  intro e' he'
  have hmap := checkFrom_map ThrottleEntry.maxLimit (fun _ _ => rfl) pf _ table [] [] _ _ _ _ hcheck
  have hmem : e'.maxLimit ∈ table.map ThrottleEntry.maxLimit := by
    have := List.mem_map_of_mem (f := ThrottleEntry.maxLimit) he'
    rwa [hmap] at this
  obtain ⟨e, he, hsame⟩ := List.mem_map.mp hmem
  have hfit := hfits e he
  unfold ThrottleEntry.Doubles at hfit ⊢
  rwa [hsame] at hfit

theorem Asks.total {pf : Platform} {cfg : ServerConfig} {w : World} {v : View} {filename : Str}
    {out : Except Panic View} {table table' : ThrottleTable} (h : Asks pf cfg w v filename out)
    (htable : v.shared.throttles = some table)
    (hreject : table.checkRequest pf filename = .ok (.reject, table'))
    (hfits : ∀ e ∈ table, pf.overflowChecks = false ∨ e.Doubles)
    (hcounts : SendersFit v.shared.throttles) : ∃ v', out = .ok v' := by
  have hleft : ∀ name, throttleMatchPath name = filename → SendersFit (some table') :=
    fun name hname => (exchange_askThrottle pf hcounts
      (askThrottle_reject htable hreject hname)).fit hcounts
  cases h with
  | entry _ _ => exact transitionToSending_total w htable hfits (htable ▸ hcounts)
  | file file opened node =>
      unfold serveFile
      rw [askThrottle_reject htable hreject rfl]
      exact transitionToSending_total w rfl (checkRequest_fits hreject hfits) (hleft _ rfl)
  | program script pathInfo =>
      unfold admitCgi
      rw [askThrottle_reject htable hreject rfl]
      exact transitionToSending_total w rfl (checkRequest_fits hreject hfits) (hleft _ rfl)

/-- The table refuses the request, and whatever the handler answers says 503. -/
def Refused (pf : Platform) (w : World) (v : View) (table : ThrottleTable) (filename : Str)
    (out : Except Panic View) : Prop :=
  (∃ table', table.checkRequest pf filename = .ok (.reject, table')) ∧
  ∀ v', out = .ok v' → OverLimit pf w v v'

/--
**A rule that was loaded with a minimum is in every state of every run as it was loaded, with a
rate, a byte count and a sender count of zero, and a request that comes to it is refused with 503
exactly when the build does not check for overflow or twice the maximum of the rule fits.**  There
is always an answer when that is so of every rule and one can be added to every count, which in a
run it can.
-/
theorem min_rule_locked_out_iff {pf : Platform} {cfg : ServerConfig} {content : Bytes}
    {table₀ : ThrottleTable} {t : Nat} {e₀ : ThrottleEntry} {s : Server}
    (hload : ThrottleTable.load content = some table₀) (he₀ : table₀[t]? = some e₀)
    (hmin : 0 < e₀.minLimit) (hrun : s.RunsFrom pf cfg (some table₀)) :
    (ruleIn s.shared.throttles t = some e₀ ∧
      e₀.rate = 0 ∧ e₀.bytesSinceAvg = 0 ∧ e₀.numSending = 0) ∧
    SendersFit s.shared.throttles ∧ ∀ w v table filename out, v.shared.throttles = some table → table[t]? = some e₀ →
      Asks pf cfg w v filename out → table.Reaches pf filename t →
      (Refused pf w v table filename out ↔ pf.overflowChecks = false ∨ e₀.Doubles) ∧
      (SendersFit v.shared.throttles → (∀ e ∈ table, pf.overflowChecks = false ∨ e.Doubles) →
        ∃ v', out = .ok v') := by
  have hnew := ThrottleTable.load_eq_new hload
  have hlocked : e₀.Locked := by
    obtain ⟨pattern, maxLimit, minLimit, rfl⟩ := hnew table₀ rfl e₀ (List.mem_of_getElem? he₀)
    exact .new hmin
  refine ⟨⟨hrun.locked hnew hlocked he₀, hlocked.rate, hlocked.bytes, hlocked.senders⟩,
    (hrun.reachable hnew).counted.fit, ?_⟩
  intro w v table filename out htable he hasks hreaches
  have hiff := checkRequest_reject_iff hlocked he hreaches
  refine ⟨⟨fun h => hiff.mp h.1, fun h => ?_⟩, fun hcounts hfits => ?_⟩
  · obtain ⟨table', hreject⟩ := hiff.mpr h
    exact ⟨⟨table', hreject⟩, fun v' hout => hasks.overLimit htable hreject hout⟩
  · obtain ⟨table', hreject⟩ := hiff.mpr (hfits e₀ (List.mem_of_getElem? he))
    exact hasks.total htable hreject hfits hcounts

/-! ### Five to ten bytes a second for everything

The rule of a file with one line, and what becomes of two clients.
-/

def minimumFile : Bytes := asBytes "** 5-10\n".toList

def minimumRule : ThrottleEntry := .new "**".toList 10 5

/-- A connection that is about to send something for `/f.txt`. -/
def pageView (throttles : Option ThrottleTable) : View :=
  ⟨Shared.start throttles, { ConnSlot.accepted localPeer with
    http := { HttpConn.new with origFilename := "/f.txt".toList } }⟩

/-- After a client has asked for a file, the next one is still refused. -/
theorem min_rule_locked_out_next :
    ruleIn (firstAskedServer minimumFile).shared.throttles 0 = some minimumRule ∧
    Refused .epoch threeByteWorld (pageView (some [minimumRule])) [minimumRule] "f.txt".toList
      (transitionToSending .epoch threeByteWorld (pageView (some [minimumRule]))) := by
  have hload : ThrottleTable.load minimumFile = some [minimumRule] := by decide +kernel
  have hrun := firstAskedServer_runs minimumFile (by decide +kernel)
  rw [hload] at hrun
  obtain ⟨⟨hrule, -⟩, -, hall⟩ := min_rule_locked_out_iff (t := 0) hload rfl (by decide) hrun
  refine ⟨hrule, (hall threeByteWorld (pageView (some [minimumRule])) [minimumRule] _ _ rfl rfl
    (.entry rfl rfl) ?_).1.mpr (.inr (by decide))⟩
  exact ⟨⟨minimumRule, rfl, by decide +kernel⟩, .unlimited, [], rfl, by simp, by decide⟩

/-- A maximum that cannot be doubled. -/
def hugeFile : Bytes := asBytes "** 1-9223372036854775807\n".toList

def hugeRule : ThrottleEntry := .new "**".toList 9223372036854775807 1

/--
**A build that checks for overflow aborts the request instead.**

So the condition on the maximum is needed: without it the claim is false of such a
build.
-/
theorem huge_min_rule_aborts :
    ¬ ∀ (pf : Platform) (cfg : ServerConfig) (content : Bytes) (table₀ : ThrottleTable) (t : Nat)
      (e₀ : ThrottleEntry) (s : Server), ThrottleTable.load content = some table₀ →
      table₀[t]? = some e₀ → 0 < e₀.minLimit → s.RunsFrom pf cfg (some table₀) →
      ∀ w v table filename out, s.shared.throttles = some table →
        v.shared.throttles = some table → Asks pf cfg w v filename out →
        table.Reaches pf filename t → Refused pf w v table filename out := by
  intro hall
  have hload : ThrottleTable.load hugeFile = some [hugeRule] := by decide +kernel
  obtain ⟨⟨table', hreject⟩, -⟩ := hall .epoch wwwConfig hugeFile [hugeRule] 0 hugeRule
    (Server.start (some [hugeRule])) hload rfl (by decide) (Lts.Reachable.start rfl)
    threeByteWorld (pageView (some [hugeRule])) [hugeRule] _ _ rfl rfl (.entry rfl rfl)
    ⟨⟨hugeRule, rfl, by decide +kernel⟩, .unlimited, [], rfl, by simp, by decide⟩
  have habort : panicOf (ThrottleTable.checkRequest .epoch [hugeRule]
      (throttleMatchPath (pageView (some [hugeRule])).slot.http.origFilename)) = some .overflow := by
    decide +kernel
  rw [hreject] at habort
  cases habort

end Thttpd
