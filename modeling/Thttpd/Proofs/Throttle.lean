/-
The sender counts of the throttle table.

`Exchange` says that a change of the table goes with a change of one connection's
rules: for each rule the count moved by what the connection's claim on it moved.
Every operation on the table that a connection makes is an exchange, exchanges
compose, and a run of them leaves the count equal to the number of claims.

The table is shared and the rules of a connection are its own, so the invariant is
about both: for each rule, the counted senders are the connections that claim it.  An
exchange keeps it without knowing of any other connection, and this is why a step of
one connection is enough to look at.
-/
import Thttpd.Core.Server

namespace Thttpd

/-! ### What the operations leave alone

Every operation is a pass over the rules that maps entries, and all but two fields
of an entry are never written.
-/

section Kept

variable {β : Type} (f : ThrottleEntry → β)

theorem map_foldl_modify {g : ThrottleEntry → ThrottleEntry} (hg : ∀ e, f (g e) = f e)
    (tnums : List Nat) : ∀ (table : ThrottleTable),
      (tnums.foldl (fun (tb : ThrottleTable) tnum => tb.modify tnum g) table).map f
        = table.map f := by
  induction tnums with
  | nil => intro table; rfl
  | cons x xs ih =>
      intro table
      rw [List.foldl_cons, ih]
      refine List.ext_getElem? fun t => ?_
      rw [List.getElem?_map, List.getElem?_map, List.getElem?_modify]
      by_cases hxt : x = t
      · cases table[t]? <;> simp [hxt, hg]
      · simp [hxt]

/-- Releasing changes counts only. -/
theorem clear_map (hf : ∀ e n, f { e with numSending := n } = f e) (table : ThrottleTable)
    (tnums : List Nat) : (table.clear tnums).map f = table.map f :=
  map_foldl_modify f (fun _ => hf _ _) tnums table

/-- Charging changes the counters only. -/
theorem addBytes_map (hf : ∀ e n, f { e with bytesSinceAvg := n } = f e) (table : ThrottleTable)
    (tnums : List Nat) (n : Int) : (table.addBytes tnums n).map f = table.map f :=
  map_foldl_modify f (fun _ => hf _ _) tnums table

/-- Checking a request changes sender counts and nothing else. -/
theorem checkFrom_map (hf : ∀ e n, f { e with numSending := n } = f e) (pf : Platform)
    (filename : Text.Str) : ∀ (rest done : ThrottleTable) (tnums : List Nat)
      (maxLimit minLimit : Int) (d : ThrottleDecision) (table : ThrottleTable),
      ThrottleTable.checkFrom pf filename done tnums maxLimit minLimit rest = .ok (d, table) →
      table.map f = (done ++ rest).map f := by
  intro rest
  induction rest with
  | nil =>
      intro done tnums maxLimit minLimit d table h
      simp only [ThrottleTable.checkFrom, Except.ok.injEq, Prod.mk.injEq] at h
      rw [← h.2, List.append_nil]
  | cons e rest ih =>
      intro done tnums maxLimit minLimit d table h
      unfold ThrottleTable.checkFrom at h
      split at h
      · simp only [Except.ok.injEq, Prod.mk.injEq] at h
        rw [h.2]
      · split at h
        · obtain ⟨twice, -, h⟩ := bind_eq_ok.mp h
          split at h
          · simp only [Except.ok.injEq, Prod.mk.injEq] at h
            rw [← h.2, clear_map f hf]
          · obtain ⟨e', he', h⟩ := bind_eq_ok.mp h
            have hsender : f e' = f e := ThrottleEntry.addSender_keeps hf he'
            rw [ih _ _ _ _ d table h]
            simp [hsender]
        · rw [ih _ _ _ _ d table h]
          simp

theorem askThrottle_map (hf : ∀ e n, f { e with numSending := n } = f e) {pf : Platform}
    {ts ts' : Option ThrottleTable} {filename : Text.Str} {d : ThrottleDecision}
    (h : askThrottle pf ts filename = .ok (d, ts')) : ts'.map (List.map f) = ts.map (List.map f) := by
  cases ts with
  | none =>
      simp only [askThrottle, Except.ok.injEq, Prod.mk.injEq] at h
      rw [← h.2]
  | some table =>
      obtain ⟨⟨d', table'⟩, hcheck, h⟩ := bind_eq_ok.mp h
      simp only [pure, Except.pure, Except.ok.injEq, Prod.mk.injEq] at h
      rw [← h.2]
      exact congrArg some (checkFrom_map f hf pf _ table [] [] _ _ _ _ hcheck)

theorem updateAverages_map (hf : ∀ e r b, f { e with rate := r, bytesSinceAvg := b } = f e)
    {pf : Platform} : ∀ {table table' : ThrottleTable},
      table.updateAverages pf = .ok table' → table'.map f = table.map f := by
  intro table
  induction table with
  | nil =>
      intro table' h
      simp only [ThrottleTable.updateAverages, List.mapM_nil, pure, Except.pure,
        Except.ok.injEq] at h
      rw [← h]
  | cons e rest ih =>
      intro table' h
      rw [ThrottleTable.updateAverages, List.mapM_cons] at h
      obtain ⟨e', he, h⟩ := bind_eq_ok.mp h
      obtain ⟨rest', hrest, h⟩ := bind_eq_ok.mp h
      simp only [pure, Except.pure, Except.ok.injEq] at h
      obtain ⟨twice, -, he⟩ := bind_eq_ok.mp he
      obtain ⟨sum, -, he⟩ := bind_eq_ok.mp he
      simp only [pure, Except.pure, Except.ok.injEq] at he
      rw [← h, List.map_cons, List.map_cons, ih hrest, ← he, hf]

end Kept

/-! ### Counts and claims

A connection claims each rule it holds once (`Entered`), and a server without a
table has no rules.
-/

/-- The senders counted for rule `t`. -/
def ThrottleTable.senders (table : ThrottleTable) (t : Nat) : Int :=
  match table[t]? with
  | some e => e.numSending
  | none => 0

/-- The same for a server that may have no table. -/
def sendersIn (throttles : Option ThrottleTable) (t : Nat) : Int :=
  match throttles with
  | some table => table.senders t
  | none => 0

/-- Counts to which one can be added: the code counts in `i64`. -/
def SendersFit (throttles : Option ThrottleTable) : Prop :=
  ∀ t, 0 ≤ sendersIn throttles t ∧ sendersIn throttles t < Text.i64Max

/-- The number of rules. -/
def rulesIn (throttles : Option ThrottleTable) : Nat :=
  match throttles with
  | some table => table.length
  | none => 0

/-- What a connection with these rules claims of rule `t`. -/
def claims (tnums : List Nat) (t : Nat) : Int := if t ∈ tnums then 1 else 0

/-- Rules a connection may hold in a table of `n`: each once, and all of them there. -/
structure Entered (n : Nat) (tnums : List Nat) : Prop where
  nodup : tnums.Nodup
  bound : ∀ t ∈ tnums, t < n

/-- The limits of the rules, the larger one first; nothing changes them. -/
def limitsIn (throttles : Option ThrottleTable) : Option (List (Int × Int)) :=
  throttles.map (List.map fun e => (e.maxLimit, e.minLimit))

/--
Limits under which a request can be admitted.  A rule with a negative limit refuses
everything, unless twice the limit overflows.
-/
def Admissible (maxLimit minLimit : Int) : Prop :=
  0 ≤ minLimit → 0 ≤ maxLimit ∨ maxLimit < -4611686018427387904

/-- Rules that admit requests. -/
def Granted (limits : Option (List (Int × Int))) (tnums : List Nat) : Prop :=
  ∀ t ∈ tnums, ∀ maxLimit minLimit, (limits.bind fun l => l[t]?) = some (maxLimit, minLimit) →
    Admissible maxLimit minLimit

/-- The table went from `ts` to `ts'` while a connection went from `a` to `b`. -/
structure Exchange (ts : Option ThrottleTable) (a : List Nat) (ts' : Option ThrottleTable)
    (b : List Nat) : Prop where
  rules : rulesIn ts' = rulesIn ts
  limits : limitsIn ts' = limitsIn ts
  senders : ∀ t, sendersIn ts' t + claims a t = sendersIn ts t + claims b t
  entered : Entered (rulesIn ts') b
  granted : Granted (limitsIn ts) a → Granted (limitsIn ts') b

/-- The counts of the rules of a table. -/
theorem SendersFit.rule {table : ThrottleTable} (h : SendersFit (some table)) {e : ThrottleEntry}
    (he : e ∈ table) : 0 ≤ e.numSending ∧ e.numSending < Text.i64Max := by
  obtain ⟨t, ht, rfl⟩ := List.mem_iff_getElem.mp he
  have hfit := h t
  simpa [sendersIn, ThrottleTable.senders, List.getElem?_eq_getElem ht] using hfit

/-- Who holds no rules claims none. -/
theorem claims_nil (t : Nat) : claims [] t = 0 := rfl

/-- Nothing has been granted to it either. -/
theorem Granted.nil (limits : Option (List (Int × Int))) : Granted limits [] := by
  intro t ht
  cases ht

/-- A request that was admitted shows what the limits are like. -/
theorem admissible_of_admitted {pf : Platform} {maxLimit minLimit rate twice : Int}
    (htwice : pf.i64 (maxLimit * 2) = .ok twice) (h : ¬ (twice < rate ∨ rate < minLimit)) :
    Admissible maxLimit minLimit := by
  intro hmin
  by_contra hneg
  have hlo : Text.i64Min ≤ maxLimit * 2 := by
    unfold Text.i64Min
    omega
  have hhi : maxLimit * 2 ≤ Text.i64Max := by
    unfold Text.i64Max
    omega
  have hexact := Platform.i64_eq hlo hhi htwice
  omega

namespace Entered

theorem nil (n : Nat) : Entered n [] := ⟨List.nodup_nil, by simp⟩

theorem mono {n m : Nat} {tnums : List Nat} (h : Entered n tnums) (hnm : n ≤ m) :
    Entered m tnums :=
  ⟨h.nodup, fun t ht => Nat.lt_of_lt_of_le (h.bound t ht) hnm⟩

theorem last_notMem {n : Nat} {tnums : List Nat} (h : Entered n tnums) : n ∉ tnums :=
  fun hmem => Nat.lt_irrefl n (h.bound n hmem)

/-- One rule more, the first that was out of bounds. -/
theorem concat {n : Nat} {tnums : List Nat} (h : Entered n tnums) :
    Entered (n + 1) (tnums ++ [n]) := by
  refine ⟨List.nodup_append.mpr ⟨h.nodup, by simp, ?_⟩, ?_⟩
  · intro x hx y hy hxy
    simp only [List.mem_singleton] at hy
    exact h.last_notMem (by rw [← hy, ← hxy]; exact hx)
  · intro t ht
    simp only [List.mem_append, List.mem_singleton] at ht
    rcases ht with ht | ht
    · have := h.bound t ht; omega
    · omega

end Entered

namespace Exchange

variable {ts ts' ts'' : Option ThrottleTable} {a b c : List Nat}

theorem refl (h : Entered (rulesIn ts) a) : Exchange ts a ts a :=
  ⟨rfl, rfl, fun _ => rfl, h, id⟩

theorem trans (h₁ : Exchange ts a ts' b) (h₂ : Exchange ts' b ts'' c) : Exchange ts a ts'' c := by
  refine ⟨h₂.rules.trans h₁.rules, h₂.limits.trans h₁.limits, ?_, h₂.entered,
    fun h => h₂.granted (h₁.granted h)⟩
  intro t
  have := h₁.senders t
  have := h₂.senders t
  omega

/-- Nothing claimed before or after: the counts stand. -/
theorem senders_eq (h : Exchange ts [] ts' []) (t : Nat) : sendersIn ts' t = sendersIn ts t := by
  have := h.senders t
  simpa [claims_nil] using this

theorem fit (h : Exchange ts [] ts' []) (hfit : SendersFit ts) : SendersFit ts' := by
  intro t
  rw [h.senders_eq t]
  exact hfit t

end Exchange

/-! ### Operations on one entry

A pass over a list of rule numbers changes the entries it names, one after the
other.
-/

/-- Changing one entry changes the count of that rule. -/
theorem senders_modify (table : ThrottleTable) (i t : Nat) (f : ThrottleEntry → ThrottleEntry)
    {d : Int} (hf : ∀ e, (f e).numSending = e.numSending + d) :
    ThrottleTable.senders (table.modify i f) t
      = table.senders t + if i = t ∧ i < table.length then d else 0 := by
  unfold ThrottleTable.senders
  rw [List.getElem?_modify]
  by_cases hit : i = t
  · subst hit
    cases ht : table[i]? with
    | none =>
        have hlt : ¬ i < table.length := by
          intro hlt
          rw [List.getElem?_eq_getElem hlt] at ht
          cases ht
        simp [hlt]
    | some e =>
        have hlt : i < table.length := (List.getElem?_eq_some_iff.mp ht).1
        simp [hlt, hf]
  · cases table[t]? <;> simp [hit]

/-- A change of entries that keeps their counts. -/
theorem senders_foldl_modify (f : ThrottleEntry → ThrottleEntry)
    (hf : ∀ e, (f e).numSending = e.numSending) (tnums : List Nat) :
    ∀ (table : ThrottleTable) (t : Nat),
      ThrottleTable.senders (tnums.foldl (fun tb tnum => tb.modify tnum f) table) t
        = table.senders t := by
  induction tnums with
  | nil => intro table t; rfl
  | cons x xs ih =>
      intro table t
      rw [List.foldl_cons, ih, senders_modify table x t f (d := 0) (by simpa using hf)]
      simp

theorem length_foldl_modify (f : ThrottleEntry → ThrottleEntry) (tnums : List Nat) :
    ∀ (table : ThrottleTable),
      (tnums.foldl (fun (tb : ThrottleTable) tnum => tb.modify tnum f) table).length
        = table.length := by
  induction tnums with
  | nil => intro table; rfl
  | cons x xs ih => intro table; rw [List.foldl_cons, ih, List.length_modify]

/-! ### Releasing

A connection that is closed, or that ran a program, gives back every rule it holds.
-/

/--
What one change of an entry adds to a figure of its rule, a pass over the rules of a
connection adds once for each.
-/
theorem foldl_modify_claims (figure : ThrottleTable → Nat → Int)
    (f : ThrottleEntry → ThrottleEntry) (d : Int) (hmodify : ∀ (table : ThrottleTable) x t, figure (table.modify x f) t
      = figure table t + if x = t ∧ x < table.length then d else 0) (tnums : List Nat) :
    ∀ table : ThrottleTable, Entered table.length tnums → ∀ t,
      figure (tnums.foldl (fun (tb : ThrottleTable) tnum => tb.modify tnum f) table) t
        = figure table t + claims tnums t * d := by
  induction tnums with
  | nil => intro table _ t; simp [claims_nil]
  | cons x xs ih =>
      intro table h t
      obtain ⟨hx, hxs⟩ := List.nodup_cons.mp h.nodup
      have hxlt : x < table.length := h.bound x (by simp)
      have hrest := ih (table.modify x f)
        ⟨hxs, fun t ht => by rw [List.length_modify]; exact h.bound t (by simp [ht])⟩ t
      rw [List.foldl_cons, hrest, hmodify]
      unfold claims
      by_cases hxt : x = t
      · subst hxt
        simp [hx, hxlt]
      · have hiff : t ∈ x :: xs ↔ t ∈ xs := by
          rw [List.mem_cons]
          exact ⟨fun h => h.resolve_left fun h => hxt h.symm, Or.inr⟩
        simp [hxt, hiff]

theorem clear_senders (tnums : List Nat) (table : ThrottleTable)
    (h : Entered table.length tnums) (t : Nat) :
    (table.clear tnums).senders t = table.senders t - claims tnums t := by
  have hfold := foldl_modify_claims ThrottleTable.senders
    (fun e => { e with numSending := e.numSending - 1 }) (-1)
    (fun table x t => senders_modify table x t _ fun _ => rfl) tnums table h t
  unfold ThrottleTable.clear
  rw [hfold]
  omega

/-- **Releasing a connection's rules takes back exactly its claims.** -/
theorem exchange_clear {ts : Option ThrottleTable} {tnums : List Nat}
    (h : Entered (rulesIn ts) tnums) :
    Exchange ts tnums (ts.map fun table => table.clear tnums) [] := by
  cases ts with
  | none =>
      have hnil : tnums = [] := by
        cases tnums with
        | nil => rfl
        | cons x xs => exact absurd (h.bound x (by simp)) (Nat.not_lt_zero x)
      rw [hnil]
      exact .refl (.nil _)
  | some table =>
      have hlimits : limitsIn (some (table.clear tnums)) = limitsIn (some table) :=
        congrArg some (clear_map _ (fun _ _ => rfl) table tnums)
      refine ⟨length_foldl_modify _ _ _, hlimits, ?_, .nil _, fun _ => .nil _⟩
      intro t
      show (table.clear tnums).senders t + claims tnums t = table.senders t + claims [] t
      rw [clear_senders tnums table h t, claims_nil]
      omega

/-- Charging bytes to rules moves no count. -/
theorem exchange_addBytes {ts : Option ThrottleTable} {a : List Nat} (tnums : List Nat) (n : Int)
    (h : Entered (rulesIn ts) a) :
    Exchange ts a (ts.map fun table => table.addBytes tnums n) a := by
  cases ts with
  | none => exact .refl h
  | some table =>
      have hlen : (table.addBytes tnums n).length = table.length := length_foldl_modify _ _ _
      have hlimits : limitsIn (some (table.addBytes tnums n)) = limitsIn (some table) :=
        congrArg some (addBytes_map _ (fun _ _ => rfl) table tnums n)
      refine ⟨hlen, hlimits, ?_, ?_, fun hg => hlimits.symm ▸ hg⟩
      · intro t
        show (table.addBytes tnums n).senders t + claims a t = table.senders t + claims a t
        unfold ThrottleTable.addBytes
        rw [senders_foldl_modify (fun e => { e with bytesSinceAvg := e.bytesSinceAvg + n })
          (fun _ => rfl)]
      · show Entered (table.addBytes tnums n).length a
        rw [hlen]
        exact h

/-! ### Admitting

The loop counts the request at each matching rule as it comes to it, and a refusal
takes back what was counted.  The invariant of the loop is therefore about the table
as it was before, the claims so far, and the table as it stands.
-/

/-- The rules a decision gives a connection. -/
def ThrottleDecision.tnums : ThrottleDecision → List Nat
  | .allow tnums _ _ => tnums
  | _ => []

theorem decision_tnums (tnums : List Nat) (maxLimit minLimit : Int) :
    (ThrottleTable.decision tnums maxLimit minLimit).tnums = tnums := by
  unfold ThrottleTable.decision
  split
  · rename_i h; rw [h]; rfl
  · rfl

theorem senders_at (done rest : ThrottleTable) (e : ThrottleEntry) :
    ThrottleTable.senders (done ++ e :: rest) done.length = e.numSending := by
  simp [ThrottleTable.senders]

/-- One entry in the middle of the table admits a sender. -/
theorem senders_addSender (done rest : ThrottleTable) {e e' : ThrottleEntry}
    (hadmitted : e'.numSending = e.numSending + 1) (t : Nat) :
    ThrottleTable.senders (done ++ e' :: rest) t
      = ThrottleTable.senders (done ++ e :: rest) t + if done.length = t then 1 else 0 := by
  unfold ThrottleTable.senders
  by_cases ht : done.length = t
  · subst ht
    simp [hadmitted]
  · rcases Nat.lt_or_ge t done.length with hlt | hge
    · rw [List.getElem?_append_left hlt, List.getElem?_append_left hlt]
      simp [ht]
    · obtain ⟨k, hk⟩ : ∃ k, t - done.length = k + 1 :=
        ⟨t - done.length - 1, by omega⟩
      rw [List.getElem?_append_right hge, List.getElem?_append_right hge, hk]
      simp [ht]

theorem claims_concat {tnums : List Nat} {x : Nat} (hx : x ∉ tnums) (t : Nat) :
    claims (tnums ++ [x]) t = claims tnums t + if x = t then 1 else 0 := by
  unfold claims
  by_cases hxt : x = t
  · subst hxt
    simp [hx]
  · have : t ∈ tnums ++ [x] ↔ t ∈ tnums := by
      simp only [List.mem_append, List.mem_singleton]
      exact ⟨fun h => h.resolve_right fun h => hxt h.symm, Or.inl⟩
    simp [this, hxt]

/-- One rule more is claimed, whose limits have let a request through. -/
theorem Exchange.claim {pf : Platform} {orig done rest : ThrottleTable} {e e' : ThrottleEntry}
    {tnums : List Nat} (hfit : SendersFit (some orig)) (hin : Entered done.length tnums)
    (hex : Exchange (some orig) [] (some (done ++ e :: rest)) tnums)
    (hadm : Admissible e.maxLimit e.minLimit) (hsender : e.addSender pf = .ok e') :
    Exchange (some orig) [] (some (done ++ [e'] ++ rest)) (tnums ++ [done.length]) := by
  have hnew := hin.last_notMem
  -- the rule has not been claimed yet, so its count is the one it had
  have hcount : e.numSending = sendersIn (some orig) done.length := by
    have hs := hex.senders done.length
    have hc : claims tnums done.length = 0 := if_neg hnew
    simp only [sendersIn, senders_at, hc, claims_nil] at hs ⊢
    omega
  obtain ⟨hlo, hhi⟩ := hfit done.length
  rw [← hcount] at hlo hhi
  obtain rfl := ThrottleEntry.addSender_eq hlo hhi hsender
  have hlen := hex.rules
  simp only [rulesIn, List.length_append, List.length_cons] at hlen
  have hsame : limitsIn (some (done ++ [{ e with numSending := e.numSending + 1 }] ++ rest))
      = limitsIn (some (done ++ e :: rest)) := by
    simp [limitsIn]
  refine ⟨?_, hsame.trans hex.limits, ?_, hin.concat.mono ?_, ?_⟩
  · simp only [rulesIn, List.length_append, List.length_singleton]
    omega
  · intro t
    have hs := hex.senders t
    rw [claims_concat hnew]
    simp only [sendersIn, List.append_assoc, List.singleton_append] at hs ⊢
    rw [senders_addSender done rest (e := e) rfl t]
    omega
  · simp only [rulesIn, List.length_append, List.length_singleton]
    omega
  · intro hg t ht maxLimit minLimit hlim
    rw [hsame] at hlim
    rcases List.mem_append.mp ht with ht | ht
    · exact hex.granted hg t ht _ _ hlim
    · rw [List.mem_singleton.mp ht] at hlim
      have hlim : (e.maxLimit, e.minLimit) = (maxLimit, minLimit) := by
        simpa [limitsIn] using hlim
      cases hlim
      exact hadm

/--
The loop over the table: the senders of `orig` plus what has been claimed so far are
the senders of the table as it stands, and at the end the claims are those of the
decision.
-/
theorem checkFrom_exchange (pf : Platform) (filename : Text.Str) {orig : ThrottleTable}
    (hfit : SendersFit (some orig)) : ∀ (rest done : ThrottleTable) (tnums : List Nat)
      (maxLimit minLimit : Int) (d : ThrottleDecision) (table : ThrottleTable),
      ThrottleTable.checkFrom pf filename done tnums maxLimit minLimit rest = .ok (d, table) →
      Entered done.length tnums → Exchange (some orig) [] (some (done ++ rest)) tnums →
      Exchange (some orig) [] (some table) d.tnums := by
  intro rest
  induction rest with
  | nil =>
      intro done tnums maxLimit minLimit d table h _ hex
      simp only [ThrottleTable.checkFrom, Except.ok.injEq, Prod.mk.injEq] at h
      obtain ⟨rfl, rfl⟩ := h
      rw [decision_tnums]
      simpa using hex
  | cons e rest ih =>
      intro done tnums maxLimit minLimit d table h hin hex
      unfold ThrottleTable.checkFrom at h
      split at h
      · -- Ten rules are enough.
        simp only [Except.ok.injEq, Prod.mk.injEq] at h
        obtain ⟨rfl, rfl⟩ := h
        rw [decision_tnums]
        exact hex
      · split at h
        · obtain ⟨twice, htwice, h⟩ := bind_eq_ok.mp h
          split at h
          · -- Over the limit: everything claimed is taken back.
            simp only [Except.ok.injEq, Prod.mk.injEq] at h
            obtain ⟨rfl, rfl⟩ := h
            exact hex.trans (exchange_clear hex.entered)
          · rename_i hpass
            obtain ⟨e', hsender, h⟩ := bind_eq_ok.mp h
            have hin' : Entered (done ++ [e']).length (tnums ++ [done.length]) := by
              simpa using hin.concat
            exact ih _ _ _ _ d table h hin'
              (hex.claim hfit hin (admissible_of_admitted htwice hpass) hsender)
        · refine ih _ _ _ _ d table h (hin.mono ?_) (by simpa using hex)
          simp only [List.length_append]
          omega

/--
**Asking the table claims exactly the rules of the answer.**

A refusal claims nothing, and neither does an answer without rules.
-/
theorem exchange_askThrottle (pf : Platform) {ts ts' : Option ThrottleTable} {filename : Text.Str}
    {d : ThrottleDecision} (hfit : SendersFit ts)
    (h : askThrottle pf ts filename = .ok (d, ts')) : Exchange ts [] ts' d.tnums := by
  cases ts with
  | none =>
      simp only [askThrottle, Except.ok.injEq, Prod.mk.injEq] at h
      obtain ⟨rfl, rfl⟩ := h
      exact .refl (.nil _)
  | some table =>
      obtain ⟨⟨d', table'⟩, hcheck, h⟩ := bind_eq_ok.mp h
      simp only [pure, Except.pure, Except.ok.injEq, Prod.mk.injEq] at h
      obtain ⟨rfl, rfl⟩ := h
      exact checkFrom_exchange pf _ hfit table [] [] _ _ _ _ hcheck (.nil _) (.refl (.nil _))

/-! ### Updating the averages

The update writes rates and sets counters to zero, and leaves the counts of senders
alone.
-/

/-- The count of a rule, or none for a rule there is not. -/
theorem senders_eq_getD (table : ThrottleTable) (t : Nat) :
    table.senders t = ((table.map ThrottleEntry.numSending)[t]?).getD 0 := by
  unfold ThrottleTable.senders
  rw [List.getElem?_map]
  cases table[t]? <;> rfl

theorem updateAverages_senders {pf : Platform} {table table' : ThrottleTable}
    (h : table.updateAverages pf = .ok table') :
    table'.length = table.length ∧ ∀ t, table'.senders t = table.senders t := by
  have hmap := updateAverages_map ThrottleEntry.numSending (fun _ _ _ => rfl) h
  refine ⟨by simpa using congrArg List.length hmap, ?_⟩
  intro t
  rw [senders_eq_getD, senders_eq_getD, hmap]

end Thttpd
