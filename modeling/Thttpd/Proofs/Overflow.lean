/-
The arithmetic of the throttle.

The program doubles the maximum of a rule, multiplies the share of a connection by the
seconds it has been sending, and doubles the rate of a rule, all in `i64`.  Rates cannot
grow too large when the traffic between two updates is not.  The maximum of a rule is any
`i64` a file has, and a large one leaves no room for the product or the double.

Two things are kept in every run: rates stay modest as long as little is sent, and
no limit exceeds a bound on the maxima of the file.  From these it is read off in any
state which of the computations fit, and the condition on maxima and limits is
exact.
-/
import Thttpd.Proofs.Lockout
import Thttpd.Proofs.RateCap
import Thttpd.Proofs.Shares
import Mathlib.Algebra.Group.Int.Defs
import Mathlib.Algebra.Group.Nat.Defs

namespace Thttpd

open Text Fs

/-! ### All rules of the table

Most of what is proved here is proved of every rule at once.  A change to the table
is a modification of one rule or of all of them in turn, and a property of rules
that such a modification keeps is kept by the table.
-/

/-- Every rule there is has the property. -/
def EveryRule (P : ThrottleEntry → Prop) (throttles : Option ThrottleTable) : Prop :=
  ∀ table, throttles = some table → ∀ e ∈ table, P e

section

variable {P : ThrottleEntry → Prop}

instance [DecidablePred P] (throttles : Option ThrottleTable) : Decidable (EveryRule P throttles) :=
  match throttles with
  | none => isTrue fun _ htable => by cases htable
  | some table => decidable_of_iff (∀ e ∈ table, P e)
      ⟨fun h _ htable => by cases htable; exact h, fun h => h table rfl⟩

theorem forall_foldl_modify {f : ThrottleEntry → ThrottleEntry} (hf : ∀ e, P e → P (f e))
    (tnums : List Nat) : ∀ {table : ThrottleTable}, (∀ e ∈ table, P e) →
      ∀ e ∈ tnums.foldl (fun (tb : ThrottleTable) tnum => tb.modify tnum f) table, P e := by
  induction tnums with
  | nil =>
      intro table h
      exact h
  | cons x xs ih =>
      intro table h
      rw [List.foldl_cons]
      refine ih fun e he => ?_
      obtain ⟨k, hk⟩ := List.getElem?_of_mem he
      rw [List.getElem?_modify] at hk
      obtain ⟨e₀, he₀, rfl⟩ := Option.map_eq_some_iff.mp hk
      have h₀ := h e₀ (List.mem_of_getElem? he₀)
      split
      · exact hf e₀ h₀
      · exact h₀

/-- Asking the table changes the sender counts of its rules. -/
theorem EveryRule.askThrottle {pf : Platform} (hsenders : ∀ e n, P e → P { e with numSending := n })
    {ts ts' : Option ThrottleTable} {filename : Str} {d : ThrottleDecision}
    (hask : Thttpd.askThrottle pf ts filename = .ok (d, ts')) (h : EveryRule P ts) :
    EveryRule P ts' := by
  intro table' htable' e' he'
  have hmap := askThrottle_map (fun e : ThrottleEntry => { e with numSending := 0 })
    (fun _ _ => rfl) hask
  rw [htable'] at hmap
  obtain ⟨table, rfl, hsame⟩ := Option.map_eq_some_iff.mp hmap.symm
  have hmem := List.mem_map_of_mem (f := fun e : ThrottleEntry => { e with numSending := 0 }) he'
  rw [← hsame] at hmem
  obtain ⟨e, he, hsame⟩ := List.mem_map.mp hmem
  have hsame' : e' = { e with numSending := e'.numSending } := by
    cases e
    cases e'
    simp only [ThrottleEntry.mk.injEq] at hsame ⊢
    simp [hsame]
  rw [hsame']
  exact hsenders e _ (h table rfl e he)

/--
**What neither counting senders nor charging bytes changes survives every deal.**

Asking and releasing move the sender counts, and charging moves the byte counts.
-/
theorem EveryRule.deal {pf : Platform} (hsenders : ∀ e n, P e → P { e with numSending := n })
    (hcharge : ∀ e n, 0 ≤ n → P e → P { e with bytesSinceAvg := e.bytesSinceAvg + n })
    {a b : Stake} (hdeal : Deal pf a b) (h : EveryRule P a.throttles) : EveryRule P b.throttles := by
  cases hdeal with
  | ask _ hask _ => exact h.askThrottle hsenders hask
  | @charge ts tnums _ n hn =>
      intro table htable
      obtain ⟨table₀, rfl, rfl⟩ := Option.map_eq_some_iff.mp htable
      exact forall_foldl_modify (fun e he => hcharge e n hn he) tnums (h table₀ rfl)
  | @release ts tnums _ =>
      intro table htable
      obtain ⟨table₀, rfl, rfl⟩ := Option.map_eq_some_iff.mp htable
      exact forall_foldl_modify (fun e he => hsenders e _ he) tnums (h table₀ rfl)
  | share => exact h

/-- The update makes new averages of the old ones. -/
theorem EveryRule.tickTable {pf : Platform} {Q : ThrottleEntry → Prop}
    (hupdate : ∀ e e', P e → ThrottleTable.updateRate pf e = .ok e' → Q e')
    {ts ts' : Option ThrottleTable} (htick : Thttpd.tickTable pf ts = .ok ts')
    (h : EveryRule P ts) : EveryRule Q ts' := by
  intro table' htable' e' he'
  cases ts with
  | none =>
      cases htick
      cases htable'
  | some table =>
      obtain ⟨table'', havg, htick⟩ := bind_eq_ok.mp htick
      cases htick
      cases htable'
      obtain ⟨t, ht⟩ := List.getElem?_of_mem he'
      have hlen : table'.length = table.length := (updateAverages_senders havg).1
      have hlt : t < table.length := by
        rw [← hlen]
        exact (List.getElem?_eq_some_iff.mp ht).1
      obtain ⟨e'', hrate, ht'⟩ := updateAverages_getElem? havg (List.getElem?_eq_getElem hlt)
      cases ht.symm.trans ht'
      exact hupdate _ _ (h table rfl _ (List.getElem_mem hlt)) hrate

end

/-! ### Rates

The average is two thirds of the old rate and a third of half the bytes since the
last update.  With fewer than 2⁶² bytes between two updates it does not get above
2⁶¹, and the sum is computed on the way without leaving the type.
-/

/-- Rate and byte count are no less than nothing, and the rate is at most 2⁶¹. -/
structure ThrottleEntry.Modest (e : ThrottleEntry) : Prop where
  bytes : 0 ≤ e.bytesSinceAvg
  rate : 0 ≤ e.rate
  bound : e.rate ≤ 2 ^ 61

/-- Fewer than 2⁶² bytes since the last update. -/
def ThrottleEntry.Calm (e : ThrottleEntry) : Prop := e.bytesSinceAvg < 2 ^ 62

instance (e : ThrottleEntry) : Decidable e.Calm := inferInstanceAs (Decidable (_ < _))

/-- The new average can be computed. -/
def ThrottleEntry.Updates (e : ThrottleEntry) : Prop :=
  FitsI64 (2 * e.rate) ∧ FitsI64 (2 * e.rate + e.bytesSinceAvg.tdiv throttleTime)

theorem half_calm {e : ThrottleEntry} (h : e.Modest) (hcalm : e.Calm) :
    0 ≤ e.bytesSinceAvg.tdiv throttleTime ∧
      e.bytesSinceAvg.tdiv throttleTime ≤ 2 ^ 61 := by
  have hbytes := h.bytes
  unfold ThrottleEntry.Calm at hcalm
  unfold throttleTime
  rw [Int.tdiv_eq_ediv_of_nonneg hbytes]
  omega

/--
**With little traffic the average of a modest rate can be computed.**

What is left is arithmetic: two rates and half the bytes are below 2⁶³.
-/
theorem ThrottleEntry.Modest.updates {e : ThrottleEntry} (h : e.Modest) (hcalm : e.Calm) :
    e.Updates := by
  have hrate := h.rate
  have hbound := h.bound
  obtain ⟨hlo, hhi⟩ := half_calm h hcalm
  unfold Updates FitsI64 i64Min i64Max
  omega

/-- It is modest again. -/
theorem ThrottleEntry.Modest.updateRate {pf : Platform} {e e' : ThrottleEntry} (h : e.Modest)
    (hcalm : e.Calm) (hupdate : ThrottleTable.updateRate pf e = .ok e') : e'.Modest := by
  obtain ⟨⟨htwice₀, htwice₁⟩, hsum₀, hsum₁⟩ := h.updates hcalm
  obtain ⟨twice, htwice, hupdate⟩ := bind_eq_ok.mp hupdate
  obtain ⟨sum, hsum, hupdate⟩ := bind_eq_ok.mp hupdate
  cases hupdate
  have htwice := Platform.i64_eq htwice₀ htwice₁ htwice
  subst htwice
  have hsum := Platform.i64_eq hsum₀ hsum₁ hsum
  subst hsum
  have hrate := h.rate
  have hbound := h.bound
  obtain ⟨hlo, hhi⟩ := half_calm h hcalm
  refine ⟨Int.le_refl 0, ?_, ?_⟩
  · exact Int.tdiv_nonneg (by omega) (by decide)
  · show (_ : Int).tdiv 3 ≤ _
    rw [Int.tdiv_eq_ediv_of_nonneg (by omega)]
    omega

theorem modest_dealsKeep (pf : Platform) :
    DealsKeep pf (EveryRule ThrottleEntry.Modest) (fun _ _ => True) := by
  refine ⟨fun a b hdeal htable _ => ⟨htable.deal ?_ ?_ hdeal, trivial⟩, trivial⟩
  · intro e n h
    exact ⟨h.bytes, h.rate, h.bound⟩
  · intro e n hn h
    exact ⟨Int.add_nonneg h.bytes hn, h.rate, h.bound⟩

/-! ### Shares

A share is a quotient of the maximum of a rule by its senders, so it is no larger
than the maximum, or than nothing.  The smallest share of all the rules of a
connection is its limit.
-/

/-- A share is no more than what it is a share of, or than nothing. -/
theorem share_le {maxLimit n B : Int} (hB : 0 ≤ B) (hmax : maxLimit ≤ B) (hn : 0 < n) :
    maxLimit.tdiv n ≤ B :=
  Int.le_trans (Int.tdiv_le_tdiv hn hmax) (Int.tdiv_le_self n hB)

theorem minLimited_le {maxLimit l B : Int} (hmax : maxLimit ≤ B) (hl : l ≤ B) :
    ThrottleTable.minLimited maxLimit l ≤ B := by
  unfold ThrottleTable.minLimited
  split
  · exact hl
  · omega

theorem oneMore_pos (e : ThrottleEntry) : 0 < e.oneMore := by
  unfold ThrottleEntry.oneMore
  split <;> omega

/-- The limit that comes with an admission is bounded as those of the rules are. -/
theorem checkFrom_limit_le {pf : Platform} {filename : Str} {B : Int} (hB : 0 ≤ B) :
    ∀ {rest done : ThrottleTable} {tnums : List Nat} {maxLimit minLimit : Int}
      {d : ThrottleDecision} {table : ThrottleTable},
      ThrottleTable.checkFrom pf filename done tnums maxLimit minLimit rest = .ok (d, table) →
      (∀ e ∈ rest, 0 ≤ e.numSending ∧ e.numSending < i64Max) → (∀ e ∈ rest, e.maxLimit ≤ B) →
      maxLimit ≤ B → ∀ l, l ≤ B → d.limit l ≤ B := by
  have hdecision : ∀ (tnums : List Nat) (maxLimit minLimit l : Int), maxLimit ≤ B → l ≤ B →
      (ThrottleTable.decision tnums maxLimit minLimit).limit l ≤ B := by
    intro tnums maxLimit minLimit l hmax hl
    unfold ThrottleTable.decision
    split
    · exact hl
    · exact hmax
  intro rest
  induction rest with
  | nil =>
      intro done tnums maxLimit minLimit d table h _ _ hmax l hl
      simp only [ThrottleTable.checkFrom, Except.ok.injEq, Prod.mk.injEq] at h
      rw [← h.1]
      exact hdecision _ _ _ l hmax hl
  | cons e rest ih =>
      intro done tnums maxLimit minLimit d table h hcounts hrules hmax l hl
      have hrest := fun e he => hrules e (List.mem_cons_of_mem _ he)
      have hfits := fun e he => hcounts e (List.mem_cons_of_mem _ he)
      unfold ThrottleTable.checkFrom at h
      split at h
      · simp only [Except.ok.injEq, Prod.mk.injEq] at h
        rw [← h.1]
        exact hdecision _ _ _ l hmax hl
      split at h
      · obtain ⟨twice, -, h⟩ := bind_eq_ok.mp h
        split at h
        · simp only [Except.ok.injEq, Prod.mk.injEq] at h
          rw [← h.1]
          exact hl
        · obtain ⟨e', hsender, h⟩ := bind_eq_ok.mp h
          obtain ⟨hlo, hhi⟩ := hcounts e List.mem_cons_self
          obtain rfl := ThrottleEntry.addSender_eq hlo hhi hsender
          have hshare := share_le hB (hrules e List.mem_cons_self)
            (show 0 < e.numSending + 1 by omega)
          exact ih h hfits hrest (minLimited_le hmax hshare) l hl
      · exact ih h hfits hrest hmax l hl

theorem fairShareFor_le_bound {table : ThrottleTable} {B : Int} (hB : 0 ≤ B)
    (hrules : ∀ e ∈ table, e.maxLimit ≤ B) (tnums : List Nat) : table.fairShareFor tnums ≤ B := by
  have hfold : ∀ maxLimit, maxLimit ≤ B → tnums.foldl (shareStep table) maxLimit ≤ B := by
    induction tnums with
    | nil =>
        intro maxLimit hmax
        exact hmax
    | cons t tnums ih =>
        intro maxLimit hmax
        rw [List.foldl_cons]
        refine ih _ ?_
        unfold shareStep
        split
        · rename_i e he
          exact minLimited_le hmax (share_le hB (hrules e (List.mem_of_getElem? he)) (by omega))
        · exact hmax
  exact hfold throttleNolimit (by unfold throttleNolimit; omega)

/--
**When no rule has a larger maximum, no connection has a larger limit.**

The limit of a connection is a share, or the marker for none, and neither is above a
bound on the maxima.
-/
theorem limited_dealsKeep (pf : Platform) {B : Int} (hB : 0 ≤ B) :
    DealsKeep pf (EveryRule fun e => e.maxLimit ≤ B) (fun _ maxLimit => maxLimit ≤ B) := by
  refine ⟨fun a b hdeal htable hconn => ⟨htable.deal ?_ ?_ hdeal, ?_⟩, by unfold nolimit; omega⟩
  · intro e n h
    exact h
  · intro e n _ h
    exact h
  cases hdeal with
  | @ask ts ts' filename d maxLimit maxLimit' hfit hask hlimit =>
      rcases hlimit with rfl | rfl
      · exact hconn
      cases ts with
      | none =>
          cases hask
          exact hconn
      | some table =>
          obtain ⟨⟨d', table'⟩, hcheck, hask⟩ := bind_eq_ok.mp hask
          cases hask
          exact checkFrom_limit_le hB hcheck (fun _ => hfit.rule) (htable table rfl)
            (by unfold throttleNolimit; omega) _ hconn
  | charge _ => exact hconn
  | release =>
      show nolimit ≤ B
      unfold nolimit
      omega
  | @share table tnums _ => exact fairShareFor_le_bound hB (htable table rfl) tnums

/-! ### Runs

From the table of the file on, a run is a list of steps in each of which little is
sent.  Rates are bounded by what was sent, limits by the file.
-/

/--
The states of a server that was started with this table, when little is sent between
two updates.
-/
def Server.RunsCalmly (pf : Platform) (cfg : ServerConfig) (throttles : Option ThrottleTable)
    (s : Server) : Prop :=
  Lts.Reachable (· = Server.start throttles)
    (fun s s' => EveryRule ThrottleEntry.Calm s.shared.throttles ∧ Step pf cfg s s') s

theorem Server.RunsCalmly.runsFrom {pf : Platform} {cfg : ServerConfig}
    {throttles : Option ThrottleTable} {s : Server} (h : s.RunsCalmly pf cfg throttles) :
    s.RunsFrom pf cfg throttles := by
  exact Lts.Reachable.mono h fun _ _ hgo => hgo.2

/-- Rates stay modest. -/
theorem Server.RunsCalmly.modest {pf : Platform} {cfg : ServerConfig} {content : Bytes}
    {table₀ : ThrottleTable} {s : Server} (h : s.RunsCalmly pf cfg (some table₀))
    (hload : ThrottleTable.load content = some table₀) :
    EveryRule ThrottleEntry.Modest s.shared.throttles := by
  have hnew := ThrottleTable.load_eq_new hload
  have hholds : s.Holds (EveryRule ThrottleEntry.Modest) (fun _ _ => True) := by
    refine .run (modest_dealsKeep pf) (fun _ _ hgo => hgo.2) ?_ hnew ?_ h
    · rintro s s' ts ⟨hcalm, -⟩ htable hts
      refine EveryRule.tickTable (P := fun e => e.Modest ∧ e.Calm) ?_ hts ?_
      · intro e e' he hupdate
        exact he.1.updateRate he.2 hupdate
      · intro table heq e he
        exact ⟨htable table heq e he, hcalm table heq e he⟩
    · intro table htable e he
      obtain ⟨pattern, maxLimit, minLimit, rfl⟩ := hnew table htable e he
      exact ⟨Int.le_refl 0, Int.le_refl 0, Int.natCast_nonneg (2 ^ 61)⟩
  exact hholds.table

/-- Limits stay below a bound on the maxima of the file. -/
theorem Server.RunsFrom.limited {pf : Platform} {cfg : ServerConfig} {content : Bytes}
    {table₀ : ThrottleTable} {s : Server} {B : Int} (h : s.RunsFrom pf cfg (some table₀))
    (hload : ThrottleTable.load content = some table₀) (hB : 0 ≤ B)
    (hrules : ∀ e ∈ table₀, e.maxLimit ≤ B) :
    s.Holds (EveryRule fun e => e.maxLimit ≤ B) (fun _ maxLimit => maxLimit ≤ B) := by
  refine .run (limited_dealsKeep pf hB) (fun _ _ hstep => hstep) ?_
    (ThrottleTable.load_eq_new hload) ?_ h
  · intro s s' ts _ htable hts
    refine htable.tickTable ?_ hts
    intro e e' he hupdate
    obtain ⟨twice, -, hupdate⟩ := bind_eq_ok.mp hupdate
    obtain ⟨sum, -, hupdate⟩ := bind_eq_ok.mp hupdate
    cases hupdate
    exact he
  · rintro table htable
    cases htable
    exact hrules

/--
No computation of the throttle leaves `i64`, and none divides by zero: the doubled
maximum of a rule, one sender more, the body bytes a connection may have sent after
so many seconds, less those it has, the rolling average, and the divisions of a
maximum among senders.
-/
structure Server.ArithmeticFits (s : Server) : Prop where
  check : EveryRule ThrottleEntry.Doubles s.shared.throttles
  admitted : EveryRule (fun e => FitsI64 e.oneMore) s.shared.throttles
  send : ∀ v, s.SendsFrom v → v.slot.throttle.isThrottled = true → 0 < v.slot.throttle.maxLimit →
    ∀ elapsed : Nat, elapsed < 2 ^ 31 → FitsI64 (v.slot.throttle.maxLimit * elapsed) ∧
      FitsI64 (v.slot.throttle.maxLimit * elapsed - v.slot.throttle.bodyBytes)
  update : EveryRule ThrottleEntry.Updates s.shared.throttles
  divisors : EveryRule (fun e => e.oneMore ≠ 0 ∧ max e.numSending 1 ≠ 0)
    s.shared.throttles ∧ throttleTime ≠ 0

/--
The product of a limit and fewer than 2³¹ seconds is an `i64` when the limit is not
above 2³² + 2, and for larger limits not always.
-/
theorem product_fits_iff {maxLimit bodyBytes : Int} (hpos : 0 < maxLimit) (hbody : 0 ≤ bodyBytes)
    (hvec : bodyBytes ≤ i64Max) :
    (∀ elapsed : Nat, elapsed < 2 ^ 31 → FitsI64 (maxLimit * elapsed) ∧
      FitsI64 (maxLimit * elapsed - bodyBytes)) ↔ maxLimit ≤ 2 ^ 32 + 2 := by
  constructor
  · intro h
    have hmost := (h 2147483647 (by decide)).1.2
    unfold i64Max at hmost
    omega
  · intro hmax elapsed helapsed
    have hproduct : maxLimit * elapsed ≤ (2 ^ 32 + 2) * (2 ^ 31 - 1) :=
      Int.mul_le_mul hmax (by omega) (by omega) (by omega)
    have hnonneg : 0 ≤ maxLimit * elapsed := Int.mul_nonneg (by omega) (by omega)
    unfold FitsI64
    unfold i64Min i64Max at *
    omega

/-- The maxima are those of the file. -/
theorem everyRule_maxLimit_iff {throttles : Option ThrottleTable} {table₀ : ThrottleTable}
    {P : Int → Prop} (hlimits : limitsIn throttles = limitsIn (some table₀)) :
    EveryRule (fun e => P e.maxLimit) throttles ↔ ∀ e ∈ table₀, P e.maxLimit := by
  cases throttles with
  | none => cases hlimits
  | some table =>
      have hmap : table.map ThrottleEntry.maxLimit = table₀.map ThrottleEntry.maxLimit := by
        have hfst := congrArg (List.map Prod.fst) (Option.some.inj hlimits)
        rw [List.map_map, List.map_map] at hfst
        exact hfst
      have hall : (∀ e ∈ table, P e.maxLimit) ↔ ∀ e ∈ table₀, P e.maxLimit := by
        rw [← List.forall_mem_map (f := ThrottleEntry.maxLimit) (P := P), hmap, List.forall_mem_map]
      rw [← hall]
      exact ⟨fun h => h table rfl, fun h _ htable => by cases htable; exact h⟩

theorem doubles_iff (e : ThrottleEntry) : e.Doubles ↔ -2 ^ 62 ≤ e.maxLimit ∧ e.maxLimit < 2 ^ 62 := by
  unfold ThrottleEntry.Doubles FitsI64 i64Min i64Max
  omega

/-- A view to send from has an account that is no longer than its response. -/
theorem Server.SendsFrom.bodyBytes {pf : Platform} {cfg : ServerConfig} {s : Server} {v : View}
    (h : s.Reachable pf cfg) (hv : s.SendsFrom v) (ht : v.slot.throttle.isThrottled = true) :
    0 ≤ v.slot.throttle.bodyBytes ∧
      v.slot.throttle.bodyBytes ≤ v.slot.http.response.length := by
  obtain ⟨hm, hin, hs⟩ := hv.inFlight h
  have hbody := (hm.sending (.inl hs) (isThrottled_iff.mp ht)).1
  have hlength := hin.length
  have hupper := hin.upper
  omega

/--
**While fewer than 2⁶² bytes are sent between two updates, the computations of the
throttle stay within `i64` exactly when every maximum of the file lies from -2⁶² to
below 2⁶² and no connection under rules has a limit above 2³² + 2**, which is so
when no maximum of the file is above it.  A response is in a vector, which the
language keeps to `isize::MAX` bytes.

From the bounds to the computations it is arithmetic.  The other way a maximum or a
limit beyond its bound is put into the computation that leaves the type; the time a
connection has been sending is what makes the product large.
-/
theorem throttle_arithmetic_fits_iff {pf : Platform} {cfg : ServerConfig} {content : Bytes}
    {table₀ : ThrottleTable} {s : Server} (hload : ThrottleTable.load content = some table₀)
    (hrun : s.RunsCalmly pf cfg (some table₀))
    (hcalm : EveryRule ThrottleEntry.Calm s.shared.throttles)
    (hlen : ∀ v, s.SendsFrom v → (v.slot.http.response.length : Int) ≤ i64Max) :
    (s.ArithmeticFits ↔ (∀ e ∈ table₀, -2 ^ 62 ≤ e.maxLimit ∧ e.maxLimit < 2 ^ 62) ∧
      ∀ v, s.SendsFrom v → v.slot.throttle.isThrottled = true →
        v.slot.throttle.maxLimit ≤ 2 ^ 32 + 2) ∧
    ((∀ e ∈ table₀, -2 ^ 62 ≤ e.maxLimit ∧ e.maxLimit ≤ 2 ^ 32 + 2) → s.ArithmeticFits) := by
  have hnew := ThrottleTable.load_eq_new hload
  have hlimits := (hrun.runsFrom.rated hnew).limits
  have hreach := hrun.runsFrom.reachable hnew
  have hsend : ∀ v, s.SendsFrom v → v.slot.throttle.isThrottled = true →
      ((0 < v.slot.throttle.maxLimit → ∀ elapsed : Nat, elapsed < 2 ^ 31 →
        FitsI64 (v.slot.throttle.maxLimit * elapsed) ∧
          FitsI64 (v.slot.throttle.maxLimit * elapsed - v.slot.throttle.bodyBytes)) ↔
        v.slot.throttle.maxLimit ≤ 2 ^ 32 + 2) := by
    intro v hv ht
    obtain ⟨hbody, hresponse⟩ := hv.bodyBytes hreach ht
    have hfits := hlen v hv
    by_cases hpos : 0 < v.slot.throttle.maxLimit
    · rw [← product_fits_iff hpos hbody (by omega)]
      exact ⟨fun h => h hpos, fun h _ => h⟩
    · exact iff_of_true (fun h => absurd h hpos) (by omega)
  have hiff : s.ArithmeticFits ↔ (∀ e ∈ table₀, -2 ^ 62 ≤ e.maxLimit ∧ e.maxLimit < 2 ^ 62) ∧
      ∀ v, s.SendsFrom v → v.slot.throttle.isThrottled = true →
        v.slot.throttle.maxLimit ≤ 2 ^ 32 + 2 := by
    rw [← everyRule_maxLimit_iff (P := fun m => -2 ^ 62 ≤ m ∧ m < 2 ^ 62) hlimits]
    constructor
    · intro h
      refine ⟨fun table htable e he => (doubles_iff e).mp (h.check table htable e he), ?_⟩
      exact fun v hv ht => (hsend v hv ht).mp (h.send v hv ht)
    · rintro ⟨hrules, hconns⟩
      refine ⟨fun table htable e he => (doubles_iff e).mpr (hrules table htable e he), ?_,
        fun v hv ht => (hsend v hv ht).mpr (hconns v hv ht), ?_, ?_, by decide⟩
      · intro table htable e he
        have hcount := (htable ▸ hreach.counted.fit).rule he
        unfold FitsI64 ThrottleEntry.oneMore
        unfold i64Min i64Max at *
        split <;> omega
      · exact fun table htable e he =>
          (hrun.modest hload table htable e he).updates (hcalm table htable e he)
      · intro table _ e _
        have hpos := oneMore_pos e
        omega
  refine ⟨hiff, fun hfile => hiff.mpr ⟨fun e he => ?_, fun v hv _ => ?_⟩⟩
  · have := hfile e he
    omega
  · have hholds := hrun.runsFrom.limited hload (B := 2 ^ 32 + 2) (by omega)
      fun e he => (hfile e he).2
    cases hv with
    | @sending k slot hk _ => exact hholds.conns slot (Slab.mem_of_at? hk)
    | @woken k slot hk _ =>
        exact ((limited_dealsKeep pf (by omega)).deals (wake_deals pf (s.view slot)) hholds.table
          (hholds.conns slot (Slab.mem_of_at? hk))).2

/-! ### A thousand bytes a second

A rule as an administrator would write it, and one as large as the parser allows.
-/

theorem calm_load (content : Bytes) : EveryRule ThrottleEntry.Calm (ThrottleTable.load content) := by
  intro table htable e he
  obtain ⟨pattern, maxLimit, minLimit, rfl⟩ := ThrottleTable.load_new htable e he
  show (0 : Int) < 2 ^ 62
  decide

/-- A client has asked for a file under the rule. -/
theorem firstAskedServer_runsCalmly :
    (firstAskedServer thousandFile).RunsCalmly .epoch wwwConfig (ThrottleTable.load thousandFile) := by
  have hcalm := calm_load thousandFile
  have hstart : (Server.start (ThrottleTable.load thousandFile)).RunsCalmly .epoch wwwConfig
      (ThrottleTable.load thousandFile) := Lts.Reachable.start rfl
  have hfirst : (Server.first (ThrottleTable.load thousandFile)).RunsCalmly .epoch wwwConfig
      (ThrottleTable.load thousandFile) :=
    hstart.tail ⟨hcalm, .accept localPeer rfl (by decide : 0 < 4096) ⟨Nat.le_refl 0, rfl⟩⟩
  have htwo : (twoServer thousandFile).RunsCalmly .epoch wwwConfig
      (ThrottleTable.load thousandFile) :=
    hfirst.tail ⟨hcalm, .accept localPeer rfl (by decide : 1 < 4096) ⟨Nat.le_refl 1, rfl⟩⟩
  exact htwo.tail ⟨hcalm, .event threeByteWorld 0 (eq_ok_of_panicOf _ (by decide +kernel))⟩

/-- Nothing leaves `i64` while it is sent. -/
theorem throttle_arithmetic_fits_first : (firstAskedServer thousandFile).ArithmeticFits := by
  have hload : ThrottleTable.load thousandFile = some [.new "**".toList 1000 0] := by decide +kernel
  have hrun := firstAskedServer_runsCalmly
  rw [hload] at hrun
  refine (throttle_arithmetic_fits_iff hload hrun (by decide +kernel) ?_).2 (by decide)
  -- the only response is the one to the first client
  have hshort : ∀ o ∈ (firstAskedServer thousandFile).conns, ∀ slot ∈ o,
      slot.http.response.length < 1000 := by decide +kernel
  have hfits : ∀ n : Nat, n < 1000 → (n : Int) ≤ i64Max := by
    intro n hn
    unfold i64Max
    omega
  intro v hv
  cases hv with
  | sending hk _ => exact hfits _ (hshort _ (Slab.mem_of_at? hk) _ rfl)
  | @woken k slot hk _ => exact hfits _ (hshort _ (Slab.mem_of_at? hk) slot rfl)

/-- The largest maximum there is, for everything. -/
def largestFile : Bytes := asBytes "** 9223372036854775807\n".toList

def largestRule : ThrottleEntry := .new "**".toList 9223372036854775807 0

/--
**A maximum that cannot be doubled makes a debug build abort the first request under
it.**

The first request is enough, since the maximum is doubled before anything else is
looked at.
-/
theorem huge_max_overflows :
    (¬ ∀ (pf : Platform) (cfg : ServerConfig) (content : Bytes) (table₀ : ThrottleTable)
      (s : Server), ThrottleTable.load content = some table₀ →
      s.RunsCalmly pf cfg (some table₀) → EveryRule ThrottleEntry.Calm s.shared.throttles →
      (∀ v, s.SendsFrom v → (v.slot.http.response.length : Int) ≤ i64Max) → s.ArithmeticFits) ∧
    panicOf (ThrottleTable.checkRequest .epoch [largestRule] "f.txt".toList) = some .overflow := by
  refine ⟨fun hall => ?_, by decide +kernel⟩
  have hload : ThrottleTable.load largestFile = some [largestRule] := by decide +kernel
  have hcalm := calm_load largestFile
  rw [hload] at hcalm
  have hfits := hall .epoch wwwConfig largestFile [largestRule] (Server.start (some [largestRule]))
    hload (Lts.Reachable.start rfl) hcalm ?_
  · exact absurd (hfits.check _ rfl largestRule List.mem_cons_self) (by decide)
  · rintro v hv
    cases hv with
    | sending hk _ => cases hk
    | woken hk _ => cases hk

end Thttpd
