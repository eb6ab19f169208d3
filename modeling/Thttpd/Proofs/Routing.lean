/-
What a decision does to the pool, and when it is made.

A decision that is made alone claims the probe of the backend it returns, and touches
nothing else.  Whether one is made at all depends on sums of weights in `u32`: the
second half of the file says for which weights these are the sums they are meant to be.

The sums matter because the source adds in `u32` and wraps.  A total of zero that is
none would mean that no backend is ever chosen, so it is said for which weights
every sum a decision can make fits: all of them, in whatever order and whichever
backends are candidates.
-/
import Thttpd.Migrate.State
import Thttpd.Proofs.Breaker

namespace Thttpd.Migrate

open Text

/-! ### One admission

An admission looks at one breaker and changes at most that one.
-/

/--
The pool after an admission to `name`: nothing has changed, or a cooled open breaker
is half-open with its probe claimed.
-/
structure ClaimsAtMost (p p' : BackendPool) (now : Nat) (name : Str) : Prop where
  backends : p'.backends = p.backends
  others : ∀ n, n ≠ name → p'.breakers n = p.breakers n
  own : p'.breakers name = p.breakers name ∨
    ∃ b, p.breakers name = some b ∧ b.state = .opened ∧ b.cooled now = true ∧
      p'.breakers name = some { b with state := .halfOpen, probeInFlight := true }

namespace ClaimsAtMost

variable {p p' : BackendPool} {now : Nat} {name n : Str}

theorem isRoutable_eq (h : ClaimsAtMost p p' now name) : p'.isRoutable n = p.isRoutable n := by
  unfold BackendPool.isRoutable BackendPool.get
  rw [h.backends]

/-- Of any other backend the breaker says what it said before. -/
theorem breakerCanRoute_eq (h : ClaimsAtMost p p' now name) (hn : n ≠ name) :
    p'.breakerCanRoute now n = p.breakerCanRoute now n := by
  unfold BackendPool.breakerCanRoute
  rw [h.others n hn]

end ClaimsAtMost

namespace BackendPool

variable {p : BackendPool} {now : Nat} {name : Str}

theorem breakers_setBreaker_self (f : Breaker → Breaker) :
    (p.setBreaker name f).breakers name = (p.breakers name).map f := if_pos rfl

theorem breakers_setBreaker_of_ne (f : Breaker → Breaker) {n : Str} (h : n ≠ name) :
    (p.setBreaker name f).breakers n = p.breakers n := if_neg h

theorem claimsAtMost_breakerAdmit (p : BackendPool) (now : Nat) (name : Str) :
    ClaimsAtMost p (p.breakerAdmit now name).2 now name := by
  unfold breakerAdmit
  cases hb : p.breakers name with
  | none => exact ⟨rfl, fun _ _ => rfl, .inl rfl⟩
  | some b =>
      refine ⟨rfl, fun n hn => breakers_setBreaker_of_ne _ hn, ?_⟩
      have hset : (p.setBreaker name fun b => (b.tryAdmit now).2).breakers name =
          some (b.tryAdmit now).2 := by rw [breakers_setBreaker_self, hb]; rfl
      show (p.setBreaker name fun b => (b.tryAdmit now).2).breakers name = _ ∨ _
      rw [hset, hb]
      rcases b.tryAdmit_cases now with ⟨h, -⟩ | ⟨h, ho⟩ | h
      · exact .inl (by rw [h])
      · have hadm : (b.tryAdmit now).1 = true := by rw [h]
        exact .inr ⟨b, rfl, ho, Breaker.cooled_of_tryAdmit ho hadm, by rw [h]⟩
      · exact .inl (by rw [h])

/-- An admission that is refused changes nothing. -/
theorem breakerAdmit_of_refused (h : (p.breakerAdmit now name).1 = false) :
    (p.breakerAdmit now name).2 = p := by
  unfold breakerAdmit at h ⊢
  cases hb : p.breakers name with
  | none => rfl
  | some b =>
      simp only [hb] at h
      have hsame : (b.tryAdmit now).2 = b := by
        rcases b.tryAdmit_cases now with ⟨ha, -⟩ | ⟨ha, -⟩ | ha
        · rw [ha] at h; cases h
        · rw [ha] at h; cases h
        · rw [ha]
      obtain ⟨backends, breakers⟩ := p
      simp only [setBreaker, BackendPool.mk.injEq, true_and]
      funext n
      split
      · rename_i hn
        subst hn
        simp only at hb
        rw [hb, Option.map_some, hsame]
      · rfl

/-- A backend that could be routed to is admitted. -/
theorem breakerAdmit_of_canRoute (h : p.breakerCanRoute now name = true) :
    (p.breakerAdmit now name).1 = true := by
  unfold breakerCanRoute at h
  unfold breakerAdmit
  cases hb : p.breakers name with
  | none => rfl
  | some b =>
      simp only [hb] at h
      exact Breaker.tryAdmit_of_canRoute (Nat.le_refl now) h

end BackendPool

/-! ### One decision

A draw picks a candidate, and an admission may refuse it; then the draw is made
again without it.  The loop ends, since a candidate goes in every round.
-/

theorem scan_mem {p : BackendPool} {pick acc : Nat} {candidates : List Str} {name : Str}
    (h : scan p pick acc candidates = some name) : name ∈ candidates := by
  induction candidates generalizing acc with
  | nil => cases h
  | cons c rest ih =>
      rw [scan] at h
      split at h
      · obtain rfl := Option.some.inj h
        exact List.mem_cons_self
      · exact List.mem_cons_of_mem _ (ih h)

/-- What is selected is a candidate. -/
theorem select_mem {p : BackendPool} {pick : Nat} {candidates : List Str} {name : Str}
    (h : select p candidates pick = some name) : name ∈ candidates := by
  rw [select, Option.or_eq_some_iff] at h
  rcases h with h | ⟨-, h⟩
  · exact scan_mem h
  · exact List.mem_of_getLast? h

/-- A non-empty list of candidates has one to select. -/
theorem select_isSome (p : BackendPool) (pick : Nat) {candidates : List Str}
    (h : candidates ≠ []) : ∃ name, select p candidates pick = some name := by
  unfold select
  cases scan p pick 0 candidates with
  | some name => exact ⟨name, rfl⟩
  | none => exact ⟨_, List.getLast?_eq_some_getLast h⟩

namespace Router

variable {p p' : BackendPool} {now : Nat} {draws : Nat → Nat} {routing : RoutingConfig}

/-- Without weights nothing is selected. -/
theorem loop_of_zero {rounds : Nat} {candidates : List Str} (h : totalWeight p candidates = 0) :
    loop now (rounds + 1) p draws candidates = (none, p) := by
  rw [loop]
  exact if_pos h

theorem loop_of_selected {rounds : Nat} {candidates : List Str} {selected : Str}
    (h : totalWeight p candidates ≠ 0)
    (hsel : select p candidates (draws 0 % totalWeight p candidates) = some selected) :
    loop now (rounds + 1) p draws candidates =
      if (p.breakerAdmit now selected).1 then (some selected, (p.breakerAdmit now selected).2)
      else if (candidates.filter fun name => name ≠ selected) = [] then
        (none, (p.breakerAdmit now selected).2)
      else loop now rounds (p.breakerAdmit now selected).2 (fun i => draws (i + 1))
        (candidates.filter fun name => name ≠ selected) := by
  rw [loop]
  simp only [if_neg h, hsel]

/--
The loop ends with nothing chosen and nothing changed, or with a candidate and at
most its probe claimed.
-/
theorem loop_spec (rounds : Nat) (p : BackendPool) (draws : Nat → Nat) (candidates : List Str) :
    loop now rounds p draws candidates = (none, p) ∨
    ∃ name ∈ candidates, ∃ p', loop now rounds p draws candidates = (some name, p') ∧
      ClaimsAtMost p p' now name := by
  induction rounds generalizing p draws candidates with
  | zero => exact .inl rfl
  | succ rounds ih =>
      by_cases hzero : totalWeight p candidates = 0
      · exact .inl (loop_of_zero hzero)
      by_cases hnil : candidates = []
      · exact absurd (by rw [hnil]; rfl) hzero
      obtain ⟨selected, hsel⟩ :=
        select_isSome p (draws 0 % totalWeight p candidates) hnil
      have hmem := select_mem hsel
      rw [loop_of_selected hzero hsel]
      cases hadm : (p.breakerAdmit now selected).1 with
      | true =>
          exact .inr ⟨selected, hmem, _, rfl, BackendPool.claimsAtMost_breakerAdmit p now selected⟩
      | false =>
          -- A lost admission has changed nothing, and the loop goes on.
          rw [if_neg Bool.false_ne_true, BackendPool.breakerAdmit_of_refused hadm]
          by_cases hrest : (candidates.filter fun name => name ≠ selected) = []
          · exact .inl (if_pos hrest)
          · rw [if_neg hrest]
            rcases ih p (fun i => draws (i + 1)) (candidates.filter fun name => name ≠ selected) with
              hnone | ⟨name, hname, p', hsome, hclaims⟩
            · exact .inl hnone
            · exact .inr ⟨name, (List.mem_filter.mp hname).1, p', hsome, hclaims⟩

theorem isCandidate_of_mem {name : Str} (h : name ∈ candidates p now) :
    p.isRoutable name = true ∧ 0 < p.weight name ∧ p.breakerCanRoute now name = true := by
  have hc := (List.mem_filter.mp h).2
  simp only [isCandidate, Bool.and_eq_true, decide_eq_true_eq] at hc
  exact ⟨hc.1.1, hc.1.2, hc.2⟩

theorem eligiblePrimary_spec {name : Str} (h : eligiblePrimary p now routing = some name) :
    routing.primaryBackend = some name ∧ p.isRoutable name = true ∧
      p.breakerCanRoute now name = true := by
  unfold eligiblePrimary at h
  obtain ⟨n, hn, h⟩ := Option.bind_eq_some_iff.mp h
  obtain ⟨backend, hb, h⟩ := Option.bind_eq_some_iff.mp h
  split at h
  · rename_i hc
    obtain rfl := Option.some.inj h
    rw [Bool.and_eq_true] at hc
    exact ⟨hn, by simp [BackendPool.isRoutable, hb, hc.1], hc.2⟩
  · cases h

theorem eligibleShadow_spec {chosen s : Str} (h : eligibleShadow p now routing chosen = some s) :
    routing.mode = .shadow ∧ routing.shadowBackend = some s ∧ s ≠ chosen ∧
      p.isRoutable s = true ∧ p.breakerCanRoute now s = true := by
  unfold eligibleShadow at h
  split at h
  · rename_i hmode
    obtain ⟨n, hn, h⟩ := Option.bind_eq_some_iff.mp h
    obtain ⟨backend, hb, h⟩ := Option.bind_eq_some_iff.mp h
    split at h
    · rename_i hc
      obtain rfl := Option.some.inj h
      exact ⟨hmode, hn, hc.1, by simp [BackendPool.isRoutable, hb, hc.2.1], hc.2.2⟩
    · cases h
  · cases h

/-- What a backend has to be, to be chosen. -/
structure Eligible (p : BackendPool) (now : Nat) (routing : RoutingConfig) (name : Str) : Prop where
  routable : p.isRoutable name = true
  canRoute : p.breakerCanRoute now name = true
  named : routing.mode = .shadow → routing.primaryBackend = some name
  weight : routing.mode ≠ .shadow → 0 < p.weight name

theorem choose_of_no_primary (hmode : routing.mode = .shadow)
    (h : eligiblePrimary p now routing = none) : choose p now routing draws = (none, p) := by
  unfold choose
  simp only [hmode, h]

theorem choose_of_primary {name : Str} (hmode : routing.mode = .shadow)
    (h : eligiblePrimary p now routing = some name) :
    choose p now routing draws = (some name, (p.breakerAdmit now name).2) := by
  have hadm := BackendPool.breakerAdmit_of_canRoute (eligiblePrimary_spec h).2.2
  unfold choose
  simp only [hmode, h, hadm, if_true]

theorem choose_weighted (hmode : routing.mode ≠ .shadow) :
    choose p now routing draws =
      if candidates p now = [] then (none, p)
      else loop now (candidates p now).length p draws (candidates p now) := by
  unfold choose
  cases h : routing.mode with
  | shadow => exact absurd h hmode
  | activeActive => rfl
  | canary => rfl

/--
**A choice** changes nothing, or is an eligible backend with at most its probe
claimed.

The loop of the draw is the only part that can change anything, and it stops at the
first backend that admits the request.
-/
theorem choose_spec (p : BackendPool) (now : Nat) (routing : RoutingConfig) (draws : Nat → Nat) :
    choose p now routing draws = (none, p) ∨
    ∃ name p', choose p now routing draws = (some name, p') ∧ Eligible p now routing name ∧
      ClaimsAtMost p p' now name := by
  by_cases hmode : routing.mode = .shadow
  · cases hprimary : eligiblePrimary p now routing with
    | none => exact .inl (choose_of_no_primary hmode hprimary)
    | some name =>
        obtain ⟨hname, hroutable, hroute⟩ := eligiblePrimary_spec hprimary
        refine .inr ⟨name, _, choose_of_primary hmode hprimary, ?_, ?_⟩
        · exact ⟨hroutable, hroute, fun _ => hname, fun h => absurd hmode h⟩
        · exact BackendPool.claimsAtMost_breakerAdmit p now name
  · rw [choose_weighted hmode]
    by_cases hnil : candidates p now = []
    · exact .inl (if_pos hnil)
    · rw [if_neg hnil]
      rcases loop_spec (candidates p now).length p draws (candidates p now) with
        hnone | ⟨name, hmem, p', hsome, hclaims⟩
      · exact .inl hnone
      · obtain ⟨hroutable, hweight, hroute⟩ := isCandidate_of_mem hmem
        exact .inr ⟨name, p', hsome,
          ⟨hroutable, hroute, fun h => absurd h hmode, fun _ => hweight⟩, hclaims⟩

theorem decide_of_none {requestId : Str} (h : choose p now routing draws = (none, p')) :
    decide p now routing requestId draws = (none, p') := by
  unfold decide
  simp only [h]

theorem decide_of_some {requestId name : Str} (h : choose p now routing draws = (some name, p')) :
    decide p now routing requestId draws =
      (some ⟨name, eligibleShadow p' now routing name, requestId⟩, p') := by
  unfold decide
  simp only [h]

/-- What a decision is made of. -/
structure Decided (p p' : BackendPool) (now : Nat) (routing : RoutingConfig)
    (d : RoutingDecision) : Prop where
  eligible : Eligible p now routing d.backend
  claims : ClaimsAtMost p p' now d.backend
  shadow : ∀ s, d.shadow = some s → routing.mode = .shadow ∧ routing.shadowBackend = some s ∧
    s ≠ d.backend ∧ p.isRoutable s = true ∧ p.breakerCanRoute now s = true

theorem decide_spec (p : BackendPool) (now : Nat) (routing : RoutingConfig) (requestId : Str)
    (draws : Nat → Nat) :
    decide p now routing requestId draws = (none, p) ∨
    ∃ d p', decide p now routing requestId draws = (some d, p') ∧ Decided p p' now routing d := by
  rcases choose_spec p now routing draws with hnone | ⟨name, p', hsome, heligible, hclaims⟩
  · exact .inl (decide_of_none hnone)
  · refine .inr ⟨_, p', decide_of_some hsome, heligible, hclaims, ?_⟩
    intro s hs
    obtain ⟨hmode, hname, hne, hroutable, hroute⟩ := eligibleShadow_spec hs
    rw [hclaims.isRoutable_eq] at hroutable
    rw [hclaims.breakerCanRoute_eq hne] at hroute
    exact ⟨hmode, hname, hne, hroutable, hroute⟩

end Router

/--
**A decision claims at most the probe it uses.**

The draws are arbitrary numbers, so this holds of every request however the random
choices fall.
-/
theorem decide_claims_at_most_its_probe (p : BackendPool) (now : Nat) (routing : RoutingConfig)
    (requestId : Str) (draws : Nat → Nat) :
    let r := Router.decide p now routing requestId draws
    r.2.backends = p.backends ∧
    (r.1 = none → r.2 = p) ∧
    (∀ n, r.2.breakers n ≠ p.breakers n → ∃ d b, r.1 = some d ∧ d.backend = n ∧
      p.breakers n = some b ∧ b.state = .opened ∧ b.cooled now = true ∧
      r.2.breakers n = some { b with state := .halfOpen, probeInFlight := true }) ∧
    (∀ d, r.1 = some d →
      p.isRoutable d.backend = true ∧ p.breakerCanRoute now d.backend = true ∧
      (routing.mode = .shadow → routing.primaryBackend = some d.backend) ∧
      (routing.mode ≠ .shadow → 0 < p.weight d.backend) ∧
      ∀ s, d.shadow = some s → routing.mode = .shadow ∧ routing.shadowBackend = some s ∧
        s ≠ d.backend ∧ p.isRoutable s = true ∧ p.breakerCanRoute now s = true ∧
        r.2.breakers s = p.breakers s) := by
  intro r
  rcases Router.decide_spec p now routing requestId draws with hnone | ⟨d, p', hsome, hd⟩
  · have hr : r = (none, p) := hnone
    rw [hr]
    exact ⟨rfl, fun _ => rfl, fun n h => absurd rfl h, fun d h => nomatch h⟩
  · have hr : r = (some d, p') := hsome
    rw [hr]
    refine ⟨hd.claims.backends, (fun h => nomatch h), ?_, ?_⟩
    · intro n hn
      by_cases hnd : n = d.backend
      · subst hnd
        rcases hd.claims.own with hsame | ⟨b, hb, hopen, hcooled, hafter⟩
        · exact absurd hsame hn
        · exact ⟨d, b, rfl, rfl, hb, hopen, hcooled, hafter⟩
      · exact absurd (hd.claims.others n hnd) hn
    · intro d' hd'
      obtain rfl : d = d' := Option.some.inj hd'
      refine ⟨hd.eligible.routable, hd.eligible.canRoute, hd.eligible.named, hd.eligible.weight, ?_⟩
      intro s hs
      obtain ⟨hmode, hname, hne, hroutable, hroute⟩ := hd.shadow s hs
      exact ⟨hmode, hname, hne, hroutable, hroute, hd.claims.others s hne⟩

/-! ### Sums of weights

A sum in machine arithmetic is the sum when all of its parts fit together.
-/

open Tally

/-- Every partial sum of the weights fits a `u32`. -/
def Fits {α : Type} (weight : α → Nat) (l : List α) : Prop :=
  ∀ part, part <+: l → total weight part < 4294967296

theorem fits_iff {α : Type} {weight : α → Nat} {l : List α} :
    Fits weight l ↔ total weight l < 4294967296 := by
  constructor
  · intro h
    exact h l (List.prefix_refl l)
  · intro h part hpart
    exact Nat.lt_of_le_of_lt (total_sublist hpart.sublist) h

/-- The two pools have the same backends with the same weights. -/
def SameWeights (p q : BackendPool) : Prop :=
  p.backends.map (fun b => (b.name, b.weight)) = q.backends.map fun b => (b.name, b.weight)

/--
However healthy the backends are and whatever their breakers say, the sums of a
decision fit, and one is made whenever there is a backend for it.
-/
structure Routes (p : BackendPool) : Prop where
  sums : ∀ q now, SameWeights q p → Fits q.weight (Router.candidates q now)
  weighted : ∀ q now routing requestId draws, SameWeights q p → routing.mode ≠ .shadow →
    Router.candidates q now ≠ [] →
    (Router.decide q now routing requestId draws).1.isSome = true
  shadow : ∀ q now routing requestId draws, SameWeights q p → routing.mode = .shadow →
    (eligiblePrimary q now routing).isSome = true →
    (Router.decide q now routing requestId draws).1.isSome = true

/-- The total the code makes is the total, wrapped. -/
theorem totalWeight_eq (p : BackendPool) (candidates : List Str) :
    totalWeight p candidates = u32 (total p.weight candidates) := by
  have h := foldl_wrap (f := p.weight) 4294967296 candidates 0
  rw [Nat.zero_add] at h
  exact h

namespace BackendPool

variable {p q : BackendPool}

/-- With distinct names, a backend is found under its name. -/
theorem get_of_mem (hnd : (p.backends.map Backend.name).Nodup) {b : Backend}
    (hb : b ∈ p.backends) : p.get b.name = some b := by
  unfold get
  generalize p.backends = l at hnd hb
  induction l with
  | nil => cases hb
  | cons c rest ih =>
      rw [List.map_cons, List.nodup_cons] at hnd
      rw [List.find?_cons]
      rcases List.mem_cons.mp hb with rfl | hb
      · simp
      · have hne : c.name ≠ b.name := fun h => hnd.1 (h ▸ List.mem_map_of_mem hb)
        simp only [hne, decide_false]
        exact ih hnd.2 hb

theorem weight_of_mem (hnd : (p.backends.map Backend.name).Nodup) {b : Backend}
    (hb : b ∈ p.backends) : p.weight b.name = b.weight := by
  unfold weight
  rw [get_of_mem hnd hb]

theorem total_names (hnd : (p.backends.map Backend.name).Nodup) :
    total p.weight (p.backends.map Backend.name) = total Backend.weight p.backends := by
  rw [total_map]
  exact total_congr fun b hb => weight_of_mem hnd hb

end BackendPool

namespace SameWeights

variable {p q : BackendPool}

theorem names (h : SameWeights q p) : q.backends.map Backend.name = p.backends.map Backend.name := by
  have := congrArg (List.map Prod.fst) h
  simpa only [List.map_map, Function.comp_def] using this

theorem total_eq (h : SameWeights q p) :
    total Backend.weight q.backends = total Backend.weight p.backends := by
  have := congrArg (total Prod.snd) h
  simpa only [total_map] using this

end SameWeights

/-! ### When every accepted weight is routable

Weights are accepted by `validate` at the start and by `set_weights` later, and the
two check sums of different widths.
-/

section

variable {p : BackendPool}

/-- The candidates' weights are among the pool's. -/
theorem total_candidates_le (hnd : (p.backends.map Backend.name).Nodup) (now : Nat) :
    total p.weight (Router.candidates p now) ≤ total Backend.weight p.backends := by
  rw [← BackendPool.total_names hnd]
  exact total_sublist List.filter_sublist

/-- With sums that fit, the weighted draw ends in its first round. -/
theorem choose_weighted_isSome {now : Nat} {routing : RoutingConfig} (draws : Nat → Nat)
    (hfits : Fits p.weight (Router.candidates p now)) (hmode : routing.mode ≠ .shadow)
    (hnil : Router.candidates p now ≠ []) :
    ∃ name, (Router.choose p now routing draws).1 = some name := by
  obtain ⟨first, hfirst⟩ := List.exists_mem_of_ne_nil _ hnil
  have hpos : 0 < total p.weight (Router.candidates p now) :=
    total_pos_iff.mpr ⟨first, hfirst, (Router.isCandidate_of_mem hfirst).2.1⟩
  have htotal : totalWeight p (Router.candidates p now) ≠ 0 := by
    rw [totalWeight_eq, u32_of_lt (fits_iff.mp hfits)]
    exact Nat.ne_of_gt hpos
  obtain ⟨selected, hsel⟩ := select_isSome p
    (draws 0 % totalWeight p (Router.candidates p now)) hnil
  have hadm := BackendPool.breakerAdmit_of_canRoute
    (Router.isCandidate_of_mem (select_mem hsel)).2.2
  obtain ⟨rounds, hlen⟩ : ∃ rounds, (Router.candidates p now).length = rounds + 1 :=
    Nat.exists_eq_succ_of_ne_zero (by simpa using hnil)
  refine ⟨selected, ?_⟩
  rw [Router.choose_weighted hmode, if_neg hnil, hlen, Router.loop_of_selected htotal hsel,
    if_pos hadm]

theorem decide_isSome_of_choose {now : Nat} {routing : RoutingConfig} {requestId name : Str}
    {draws : Nat → Nat} (h : (Router.choose p now routing draws).1 = some name) :
    (Router.decide p now routing requestId draws).1.isSome = true := by
  have hpair : Router.choose p now routing draws =
      (some name, (Router.choose p now routing draws).2) := Prod.ext h rfl
  rw [Router.decide_of_some hpair]
  rfl

theorem Routes.of_total (hnd : (p.backends.map Backend.name).Nodup)
    (h : total Backend.weight p.backends < 4294967296) : Routes p := by
  have hsums : ∀ q now, SameWeights q p → Fits q.weight (Router.candidates q now) := by
    intro q now hq
    refine fits_iff.mpr (Nat.lt_of_le_of_lt (total_candidates_le ?_ now) ?_)
    · rw [hq.names]
      exact hnd
    · rw [hq.total_eq]
      exact h
  refine ⟨hsums, ?_, ?_⟩
  · intro q now routing requestId draws hq hmode hnil
    obtain ⟨name, hname⟩ := choose_weighted_isSome draws (hsums q now hq) hmode hnil
    exact decide_isSome_of_choose hname
  · intro q now routing requestId draws hq hmode hprimary
    obtain ⟨name, hname⟩ := Option.isSome_iff_exists.mp hprimary
    have hchosen : (Router.choose q now routing draws).1 = some name := by
      rw [Router.choose_of_primary hmode hname]
    exact decide_isSome_of_choose hchosen

/-- The pool as a proxy starts with it: everyone healthy, every breaker closed. -/
def fresh (p : BackendPool) : BackendPool :=
  BackendPool.withBreakerCfg (p.backends.map fun b => (b.name, b.address, b.weight)) (.half 30 20) 0

theorem fresh_sameWeights (p : BackendPool) : SameWeights (fresh p) p := by
  simp only [SameWeights, fresh, BackendPool.withBreakerCfg, List.map_map, Function.comp_def]

theorem fresh_isRoutable {b : Backend} (hnd : (p.backends.map Backend.name).Nodup)
    (hb : b ∈ (fresh p).backends) : (fresh p).isRoutable b.name = true := by
  have hget := BackendPool.get_of_mem ((fresh_sameWeights p).names ▸ hnd) hb
  have hhealthy : b.health = .healthy := by
    obtain ⟨-, -, rfl⟩ := List.mem_map.mp hb
    rfl
  simp only [BackendPool.isRoutable, hget, Backend.isRoutable, hhealthy]
  rfl

theorem fresh_canRoute (p : BackendPool) (now : Nat) (name : Str) :
    (fresh p).breakerCanRoute now name = true := by
  unfold BackendPool.breakerCanRoute fresh BackendPool.withBreakerCfg
  simp only
  split
  · rename_i b hb
    split at hb
    · obtain rfl := Option.some.inj hb
      rfl
    · cases hb
  · rfl

/-- Then everything with a weight is a candidate, and the draw sums all of the weights. -/
theorem total_candidates_fresh (hnd : (p.backends.map Backend.name).Nodup) :
    total (fresh p).weight (Router.candidates (fresh p) 0) = total Backend.weight p.backends := by
  have hnd' : ((fresh p).backends.map Backend.name).Nodup := (fresh_sameWeights p).names ▸ hnd
  unfold Router.candidates
  rw [total_filter, BackendPool.total_names hnd', (fresh_sameWeights p).total_eq]
  intro name hname hnot
  obtain ⟨b, hb, rfl⟩ := List.mem_map.mp hname
  simpa [isCandidate, fresh_isRoutable hnd hb, fresh_canRoute] using hnot

/--
**Weights are routable exactly when their sum fits.**

If the sum does not fit, the loop that makes it overflows as soon as every backend
is a candidate; if it does, every sum made from some of the weights fits as well.
-/
theorem routes_iff (hnd : (p.backends.map Backend.name).Nodup) :
    Routes p ↔ total Backend.weight p.backends < 4294967296 := by
  constructor
  · intro h
    rw [← total_candidates_fresh hnd]
    exact fits_iff.mp (h.sums (fresh p) 0 (fresh_sameWeights p))
  · exact Routes.of_total hnd

end

theorem names_poolOf (cfg : ProxyConfig) (order : List (Str × BackendConfig)) (now : Nat) :
    (poolOf cfg order now).backends.map Backend.name = order.map Prod.fst := by
  simp only [poolOf, BackendPool.withBreakerCfg, List.map_map, Function.comp_def]

theorem total_poolOf (cfg : ProxyConfig) (order : List (Str × BackendConfig)) (now : Nat) :
    total Backend.weight (poolOf cfg order now).backends = total (fun e => e.2.weight) order := by
  simp only [poolOf, BackendPool.withBreakerCfg, total_map]

/--
**Accepted weights are routable exactly when their sum fits a `u32`**: those
`validate` accepts, with the sum it makes itself, and those `set_weights` accepts.

The sum of the weights is a `u32` wherever it is made, so what is accepted has to be
small enough for all of these places.
-/
theorem accepted_weights_routable_iff (k : Parsers) (cfg : ProxyConfig)
    (order : List (Str × BackendConfig)) (now : Nat) (s s' : LiveState) (weights : Assoc Str Nat) :
    (validate k cfg = .ok () → order.Perm cfg.backends.entries →
      ((Fits (fun e => e.2.weight) cfg.backends.entries ∧ Routes (poolOf cfg order now)) ↔
        total (fun e => e.2.weight) cfg.backends.entries < 4294967296)) ∧
    ((s.pool.backends.map Backend.name).Nodup → s.setWeights weights = .ok s' →
      (Routes s'.pool ↔ total Backend.weight s'.pool.backends < 4294967296)) := by
  constructor
  · intro _ hperm
    have hnd : ((poolOf cfg order now).backends.map Backend.name).Nodup := by
      rw [names_poolOf]
      exact (hperm.map Prod.fst).nodup_iff.mpr cfg.backends.nodup
    rw [routes_iff hnd, fits_iff, total_poolOf, total_perm hperm, and_self]
  · intro hnd hok
    obtain ⟨-, -, rfl⟩ := LiveState.setWeights_eq_ok hok
    refine routes_iff ?_
    rw [BackendPool.names_setWeights]
    exact hnd

/-! ### Two backends to try things on

Two backends whose weights add up to the first sum that does not fit.
-/

/-- The parsers as they behave on the addresses below. -/
def Parsers.sample : Parsers := ⟨fun _ => none, fun _ => none⟩

theorem pair_nodup : [['a'], ['b']].Nodup := by decide

/-- Two backends with the given weights. -/
def pairConfig (wa wb : Nat) : ProxyConfig where
  listen := "127.0.0.1:8080".toList
  metricsListen := "127.0.0.1:9100".toList
  backends := ⟨[(['a'], ⟨"127.0.0.1:8081".toList, wa, ['/']⟩),
    (['b'], ⟨"127.0.0.1:8082".toList, wb, ['/']⟩)], pair_nodup⟩
  routing := ⟨.activeActive, none, none, []⟩
  circuitBreaker := .half 30 20

def pairState (wa wb : Nat) : LiveState :=
  ⟨pairConfig wa wb, poolOf (pairConfig wa wb) (pairConfig wa wb).backends.entries 0⟩

/-- Weights for both of them. -/
def pairWeights (wa wb : Nat) : Assoc Str Nat :=
  ⟨[(['a'], wa), (['b'], wb)], pair_nodup⟩

theorem accepted_weights_routable_iff_sample :
    Fits (fun e : Str × BackendConfig => e.2.weight) (pairConfig 95 5).backends.entries ∧
    Routes (pairState 95 5).pool ∧
    ∃ s', (pairState 95 5).setWeights (pairWeights 0 100) = .ok s' ∧ Routes s'.pool := by
  have h := accepted_weights_routable_iff .sample (pairConfig 95 5)
    (pairConfig 95 5).backends.entries 0 (pairState 95 5)
  obtain ⟨hfits, hroutes⟩ := ((h (pairState 95 5) (pairWeights 0 100)).1 rfl
    (List.Perm.refl _)).mpr (by decide)
  refine ⟨hfits, hroutes, _, rfl, ?_⟩
  exact ((h _ (pairWeights 0 100)).2 (by decide) rfl).mpr (by decide)

/--
Two weights of `2^31` are accepted, wrap to a total of zero, and no request is
routed any more; two others are accepted by `validate` because their sum wraps.
-/
theorem accepted_weights_overflow :
    (∃ s', (pairState 1 1).setWeights (pairWeights 2147483648 2147483648) = .ok s' ∧
      Router.candidates s'.pool 0 = [['a'], ['b']] ∧
      ∀ requestId draws,
        (Router.decide s'.pool 0 s'.config.routing requestId draws).1 = none) ∧
    validate .sample (pairConfig 4294967295 2) = .ok () ∧
    ¬ Fits (fun e : Str × BackendConfig => e.2.weight) (pairConfig 4294967295 2).backends.entries := by
  refine ⟨⟨_, rfl, rfl, fun _ _ => rfl⟩, rfl, ?_⟩
  rw [fits_iff]
  decide

end Thttpd.Migrate
