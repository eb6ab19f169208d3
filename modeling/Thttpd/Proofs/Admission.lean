/-
What one admission does to the throttle table.

The loop over the table counts the request at each matching rule as it comes to it, and
takes the counts back when a later rule refuses.  In the end either nothing has changed,
or the first ten matching rules each have one sender more and nothing else has.

The loop carries two running values with a marker for "none yet", a minimum that
starts at -1 and a maximum that does too.  As long as no rule's value is the marker,
they are the minimum and the maximum of the list, and this is shown of any fold of
that kind before the loop is looked at.
-/
import Thttpd.Proofs.Throttle

namespace Thttpd

open Text

namespace ThrottleTable

/-! ### Folds with a sentinel

A fold that starts with a marker and takes the first value as it is.  What it comes
to is the fold without the marker.
-/

/--
From "no limit" a running value is what it is without the sentinel, as long as the
sentinel does not come up.
-/
theorem foldl_limited {f g : Int → Int → Int} {P : Int → Prop}
    (hfirst : ∀ l, f throttleNolimit l = l) (hg : ∀ m l, P m → P l → P (g m l))
    (hfg : ∀ m l, P m → P l → f m l = g m l) {a : Int} {ls : List Int} (ha : P a)
    (hls : ∀ l ∈ ls, P l) : (a :: ls).foldl f throttleNolimit = ls.foldl g a := by
  rw [List.foldl_cons, hfirst]
  induction ls generalizing a with
  | nil => rfl
  | cons l ls ih =>
      have hl := hls l List.mem_cons_self
      rw [List.foldl_cons, List.foldl_cons, hfg a l ha hl]
      exact ih (hg a l ha hl) fun l' hl' => hls l' (List.mem_cons_of_mem l hl')

/-- The running minimum is the minimum. -/
theorem min?_of_foldl {ls : List Int} (hne : ls ≠ []) (hls : ∀ l ∈ ls, 0 ≤ l) :
    ls.min? = some (ls.foldl minLimited throttleNolimit) := by
  obtain ⟨a, ls, rfl⟩ := List.exists_cons_of_ne_nil hne
  rw [foldl_limited (g := min) (P := (0 ≤ ·)) (fun l => if_pos rfl) (by omega) ?_
    (hls a List.mem_cons_self) fun l hl => hls l (List.mem_cons_of_mem a hl)]
  · rfl
  · intro m l hm _
    exact if_neg (by unfold throttleNolimit; omega)

/-- And the running maximum is the maximum. -/
theorem max?_of_foldl {ls : List Int} (hne : ls ≠ []) (hls : ∀ l ∈ ls, -1 ≤ l) :
    ls.max? = some (ls.foldl maxLimited throttleNolimit) := by
  obtain ⟨a, ls, rfl⟩ := List.exists_cons_of_ne_nil hne
  rw [foldl_limited (g := max) (P := (-1 ≤ ·)) (fun l => if_pos rfl) (by omega) ?_
    (hls a List.mem_cons_self) fun l hl => hls l (List.mem_cons_of_mem a hl)]
  · rfl
  · intro m l hm hl
    unfold maxLimited throttleNolimit
    split <;> omega

/-! ### The loop

What the loop has gathered after each rule is what the rules so far say, of those
that match and up to the tenth.
-/

/-- The matching rules with their places, in order. -/
def matching (table : ThrottleTable) (filename : Str) (start : Nat) : List (ThrottleEntry × Nat) :=
  (table.zipIdx start).filter fun p => matchPattern p.1.pattern filename

/-- The share of one more sender. -/
def shareOf (e : ThrottleEntry) : Int := e.maxLimit.tdiv (e.numSending + 1)

/-- What the loop has gathered when it does not refuse. -/
theorem checkFrom_allow {pf : Platform} {filename : Str} {rest : ThrottleTable} :
    ∀ {done : ThrottleTable} {tnums : List Nat} {maxLimit minLimit : Int} {d : ThrottleDecision}
      {table' : ThrottleTable},
      (∀ e ∈ rest, 0 ≤ e.numSending ∧ e.numSending < i64Max) →
      checkFrom pf filename done tnums maxLimit minLimit rest = .ok (d, table') → d ≠ .reject →
      let picked := (matching rest filename done.length).take (maxThrottleNums - tnums.length)
      d = decision (tnums ++ picked.map Prod.snd)
        ((picked.map fun p => shareOf p.1).foldl minLimited maxLimit)
        ((picked.map fun p => p.1.minLimit).foldl maxLimited minLimit) := by
  induction rest with
  | nil =>
      intro done tnums maxLimit minLimit d table' _ h _
      simp only [checkFrom, Except.ok.injEq, Prod.mk.injEq] at h
      simp [matching, h.1]
  | cons e rest ih =>
      intro done tnums maxLimit minLimit d table' hcounts h hd
      have hfits := fun e he => hcounts e (List.mem_cons_of_mem _ he)
      unfold checkFrom at h
      split at h
      · rename_i hten
        simp only [Except.ok.injEq, Prod.mk.injEq] at h
        simp [Nat.sub_eq_zero_of_le hten, h.1]
      · rename_i hten
        split at h
        · rename_i hmatch
          obtain ⟨twice, -, h⟩ := bind_eq_ok.mp h
          split at h
          · simp only [Except.ok.injEq, Prod.mk.injEq] at h
            exact absurd h.1.symm hd
          · obtain ⟨e', hsender, h⟩ := bind_eq_ok.mp h
            obtain ⟨hlo, hhi⟩ := hcounts e List.mem_cons_self
            obtain rfl := ThrottleEntry.addSender_eq hlo hhi hsender
            have hroom : maxThrottleNums - tnums.length =
                (maxThrottleNums - (tnums ++ [done.length]).length) + 1 := by
              rw [List.length_append, List.length_singleton]
              omega
            have hnext := ih hfits h hd
            simp only [List.length_append, List.length_singleton] at hnext hroom
            simp only [matching, List.zipIdx_cons, List.filter_cons, hmatch, if_true] at hnext ⊢
            rw [hroom, List.take_succ_cons]
            simpa [shareOf] using hnext
        · rename_i hmatch
          have hnext := ih hfits h hd
          simpa [matching, List.zipIdx_cons, List.filter_cons, hmatch] using hnext

/-- When one can be added to the count of every rule, the senders fit. -/
theorem sendersFit_of_forall {table : ThrottleTable}
    (hcounts : ∀ e ∈ table, 0 ≤ e.numSending ∧ e.numSending < i64Max) : SendersFit (some table) := by
  intro t
  show 0 ≤ table.senders t ∧ table.senders t < i64Max
  unfold senders
  cases ht : table[t]? with
  | none => exact ⟨Int.le_refl 0, by decide⟩
  | some e => exact hcounts e (List.mem_of_getElem? ht)

/-- Checking a request adds the senders of its decision, and changes nothing else. -/
theorem checkRequest_entries {pf : Platform} {table table' : ThrottleTable} {filename : Str}
    {d : ThrottleDecision} (hcounts : ∀ e ∈ table, 0 ≤ e.numSending ∧ e.numSending < i64Max)
    (h : checkRequest pf table filename = .ok (d, table')) (i : Nat) :
    table'[i]? = table[i]?.map fun e =>
      if i ∈ d.tnums then { e with numSending := e.numSending + 1 } else e := by
  have hex := checkFrom_exchange pf filename (sendersFit_of_forall hcounts) table [] [] _ _ d table'
    h (.nil _) (.refl (.nil _))
  have hcount := hex.senders i
  have hmap := checkFrom_map (fun e => { e with numSending := 0 }) (fun _ _ => rfl) pf filename
    table [] [] _ _ d table' h
  have hi := congrArg (fun l => l[i]?) hmap
  simp only [List.nil_append, List.getElem?_map] at hi
  simp only [sendersIn, senders, claims, List.not_mem_nil, if_false] at hcount
  cases ht : table[i]? with
  | none =>
      rw [ht, Option.map_none, Option.map_eq_none_iff] at hi
      rw [hi]
      rfl
  | some e =>
      rw [ht, Option.map_some] at hi
      obtain ⟨e', he', heq⟩ := Option.map_eq_some_iff.mp hi
      rw [ht, he'] at hcount
      simp only at hcount
      rw [he', Option.map_some]
      congr 1
      obtain ⟨pattern', max', min', rate', bytes', num'⟩ := e'
      obtain ⟨pattern, max, min, rate, bytes, num⟩ := e
      simp only [ThrottleEntry.mk.injEq, and_true] at heq hcount
      obtain ⟨rfl, rfl, rfl, rfl, rfl⟩ := heq
      split at hcount
      · rename_i hmem
        rw [if_pos hmem]
        simp only [ThrottleEntry.mk.injEq, true_and]
        omega
      · rename_i hmem
        rw [if_neg hmem]
        simp only [ThrottleEntry.mk.injEq, true_and]
        omega

/-- A matching rule is at its place in the table. -/
theorem getElem?_of_mem_matching {table : ThrottleTable} {filename : Str}
    {p : ThrottleEntry × Nat} (hp : p ∈ table.matching filename 0) : table[p.2]? = some p.1 := by
  obtain ⟨e, i⟩ := p
  exact List.mk_mem_zipIdx_iff_getElem?.mp (List.mem_filter.mp hp).1

theorem filterMap_snd {α β : Type} {picked : List (α × Nat)} {f : Nat → Option β} {g : α × Nat → β}
    (h : ∀ p ∈ picked, f p.2 = some (g p)) : (picked.map Prod.snd).filterMap f = picked.map g := by
  rw [List.filterMap_map]
  exact (List.filterMap_congr h).trans (congrFun List.filterMap_eq_map picked)

/-- What is true of a table after a request was admitted under these rules. -/
structure Admitted (table table' : ThrottleTable) (filename : Str) (tnums : List Nat)
    (maxLimit minLimit : Int) : Prop where
  /-- The rules are the first ten that match. -/
  rules : tnums = ((table.matching filename 0).map Prod.snd).take maxThrottleNums
  matched : tnums ≠ []
  entries : ∀ i, table'[i]? = table[i]?.map fun e =>
    if i ∈ tnums then { e with numSending := e.numSending + 1 } else e
  max : (∀ e ∈ table, 0 ≤ e.maxLimit) →
    (tnums.filterMap fun i => table'[i]?.map fun e => e.maxLimit.tdiv e.numSending).min? =
      some maxLimit
  min : (∀ e ∈ table, -1 ≤ e.minLimit) →
    (tnums.filterMap fun i => table'[i]?.map ThrottleEntry.minLimit).max? = some minLimit

/--
**The first ten rules that match, with one sender more each, are an admission.**  The
limits are folded from what the rules have after the check, the shares among one
sender more and the minima as they were.
-/
theorem admitted_of_picked {table table' : ThrottleTable} {filename : Str}
    {picked : List (ThrottleEntry × Nat)} (hcounts : ∀ e ∈ table, 0 ≤ e.numSending)
    (hpicked : (matching table filename 0).take maxThrottleNums = picked)
    (hne : picked.map Prod.snd ≠ [])
    (hentries : ∀ i, table'[i]? = table[i]?.map fun e =>
      if i ∈ picked.map Prod.snd then { e with numSending := e.numSending + 1 } else e) :
    Admitted table table' filename (picked.map Prod.snd)
      ((picked.map fun p => shareOf p.1).foldl minLimited throttleNolimit)
      ((picked.map fun p => p.1.minLimit).foldl maxLimited throttleNolimit) := by
  -- A picked rule stands in the new table with one sender more.
  have hrule : ∀ p ∈ picked, table'[p.2]? = some { p.1 with numSending := p.1.numSending + 1 } ∧
      p.1 ∈ table := by
    intro p hp
    have hold : table[p.2]? = some p.1 :=
      getElem?_of_mem_matching (List.mem_of_mem_take (hpicked ▸ hp))
    refine ⟨?_, List.mem_of_getElem? hold⟩
    rw [hentries p.2, hold, Option.map_some]
    exact congrArg some (if_pos (List.mem_map_of_mem hp))
  have hnil : picked ≠ [] := fun hnil => hne (by rw [hnil]; rfl)
  have hshares : (picked.map Prod.snd).filterMap
      (fun i => table'[i]?.map fun e => e.maxLimit.tdiv e.numSending) =
        picked.map fun p => shareOf p.1 := by
    refine filterMap_snd fun p hp => ?_
    rw [(hrule p hp).1, Option.map_some]
    rfl
  have hmins : (picked.map Prod.snd).filterMap
      (fun i => table'[i]?.map ThrottleEntry.minLimit) = picked.map fun p => p.1.minLimit := by
    refine filterMap_snd fun p hp => ?_
    rw [(hrule p hp).1, Option.map_some]
  refine ⟨?_, hne, hentries, ?_, ?_⟩
  · rw [← hpicked, List.map_take]
  · intro hmax
    rw [hshares]
    refine min?_of_foldl (by simpa using hnil) ?_
    intro l hl
    obtain ⟨p, hp, rfl⟩ := List.mem_map.mp hl
    have hnum := hcounts p.1 (hrule p hp).2
    exact Int.tdiv_nonneg (hmax p.1 (hrule p hp).2) (by omega)
  · intro hmin
    rw [hmins]
    refine max?_of_foldl (by simpa using hnil) ?_
    intro l hl
    obtain ⟨p, hp, rfl⟩ := List.mem_map.mp hl
    exact hmin p.1 (hrule p hp).2

/--
**A check is all or nothing**, when one can be added to every count: they are `i64`,
and in a running server numbers of connections.

The check goes through the rules one by one and counts a sender for each that
matches, before it knows whether a later one refuses.  A refusal takes these back,
and what is left has to be the table as it was.
-/
theorem check_request_all_or_nothing (pf : Platform) (table table' : ThrottleTable) (filename : Str)
    (hcounts : ∀ e ∈ table, 0 ≤ e.numSending ∧ e.numSending < i64Max) (d : ThrottleDecision)
    (h : checkRequest pf table filename = .ok (d, table')) :
    match d with
    | .reject => table' = table
    | .unlimited => table' = table
    | .allow tnums maxLimit minLimit => Admitted table table' filename tnums maxLimit minLimit := by
  have hentries := checkRequest_entries hcounts h
  have hsame : d.tnums = [] → table' = table := by
    intro hnil
    refine List.ext_getElem? fun i => ?_
    rw [hentries i, hnil]
    simp
  cases d with
  | reject => exact hsame rfl
  | unlimited => exact hsame rfl
  | allow tnums maxLimit minLimit =>
      have hd := checkFrom_allow hcounts h (by simp)
      simp only [List.length_nil, Nat.sub_zero, List.nil_append] at hd
      generalize hpicked : (matching table filename 0).take maxThrottleNums = picked at hd
      unfold decision at hd
      split at hd
      · cases hd
      rename_i hne
      simp only [ThrottleDecision.allow.injEq] at hd
      obtain ⟨rfl, rfl, rfl⟩ := hd
      exact admitted_of_picked (fun e he => (hcounts e he).1) hpicked hne hentries

/-- Two rules for the same file, both with room. -/
def twoRules (minLimit minLimit' : Int) : ThrottleTable :=
  [.new "*".toList 100 minLimit, .new "**".toList 60 minLimit']

theorem check_request_all_or_nothing_two :
    checkRequest .epoch (twoRules 0 0) "a".toList = .ok (.allow [0, 1] 60 0,
        [{ ThrottleEntry.new "*".toList 100 0 with numSending := 1 },
         { ThrottleEntry.new "**".toList 60 0 with numSending := 1 }]) ∧
      Admitted (twoRules 0 0) [{ ThrottleEntry.new "*".toList 100 0 with numSending := 1 },
        { ThrottleEntry.new "**".toList 60 0 with numSending := 1 }] "a".toList [0, 1] 60 0 :=
  have hcheck : checkRequest .epoch (twoRules 0 0) "a".toList = .ok (.allow [0, 1] 60 0,
        [{ ThrottleEntry.new "*".toList 100 0 with numSending := 1 },
         { ThrottleEntry.new "**".toList 60 0 with numSending := 1 }]) := by decide +kernel
  ⟨hcheck, check_request_all_or_nothing .epoch (twoRules 0 0) _ "a".toList (by decide) _ hcheck⟩

/-- **A negative minimum is taken for the sentinel.** -/
theorem check_request_min_lost :
    ∃ table', checkRequest .epoch (twoRules (-1) (-5)) "a".toList =
        .ok (.allow [0, 1] 60 (-5), table') ∧
      ([0, 1].filterMap fun i => table'[i]?.map ThrottleEntry.minLimit).max? = some (-1) :=
  ⟨_, rfl, rfl⟩

end ThrottleTable

end Thttpd
