/-
When the comparison of two responses finds nothing.

Headers are grouped by name, the values of a name sorted, and the groups compared name by
name.  Nothing of a header list is lost by that but its order: two lists agree on every
name exactly when their normalized pairs are the same multiset.

The comparison of bodies is one of digests.  So equality of the bodies is concluded
under a premise, that the two at hand do not share a digest without being equal, and
nothing else is assumed of the digest.
-/
import Thttpd.Proofs.Mirror

namespace Thttpd.Migrate

open Text

/-! ### Groups of a list of pairs

A list of pairs is determined up to order by its groups.
-/

section Groups

variable {α β : Type} [DecidableEq α]

/-- The second parts of the pairs whose first part is `key`. -/
def groupOf (l : List (α × β)) (key : α) : List β := (l.filter fun e => e.1 = key).map Prod.snd

/-- A group has its pairs, up to the key that they share. -/
theorem map_groupOf (l : List (α × β)) (key : α) :
    (groupOf l key).map (Prod.mk key) = l.filter fun e => e.1 = key := by
  unfold groupOf
  rw [List.map_map]
  refine (List.map_congr_left ?_).trans (List.map_id _)
  intro e he
  have hkey : e.1 = key := of_decide_eq_true (List.mem_filter.mp he).2
  simp [← hkey]

/-- Two lists of pairs are the same multiset exactly when their groups are. -/
theorem perm_iff_groups [DecidableEq β] {l l' : List (α × β)} :
    l.Perm l' ↔ ∀ key, (groupOf l key).Perm (groupOf l' key) := by
  constructor
  · intro h key
    exact (h.filter _).map _
  · intro h
    rw [List.perm_iff_count]
    intro e
    have hgroup := (h e.1).map (Prod.mk e.1)
    rw [map_groupOf, map_groupOf] at hgroup
    have hcount := List.perm_iff_count.mp hgroup e
    rwa [List.count_filter (by simp), List.count_filter (by simp)] at hcount

theorem groupOf_eq_nil_iff {l : List (α × β)} {key : α} :
    groupOf l key = [] ↔ key ∉ l.map Prod.fst := by
  unfold groupOf
  rw [List.map_eq_nil_iff, List.filter_eq_nil_iff]
  constructor
  · intro h hmem
    obtain ⟨e, he, hkey⟩ := List.mem_map.mp hmem
    exact h e he (by simp [hkey])
  · intro h e he hkey
    exact h (List.mem_map.mpr ⟨e, he, of_decide_eq_true hkey⟩)

end Groups

/-! ### Headers

The source groups in a map whose keys are the names in lower case, and sorts the
values of each name.  Two groups are compared as sorted lists, so as multisets.
-/

/--
A header list as the comparison sees it: each name in lower case with its normalized
value.
-/
def normalizedPairs (headers : List (Str × Str)) : List (Str × Str) :=
  headers.map fun h => (asciiLower h.1, normalizeHeaderValue (asciiLower h.1) h.2)

theorem sort_eq_iff_perm {l l' : List Str} : sort l = sort l' ↔ l.Perm l' := by
  constructor
  · intro h
    have hsorted : l.Perm (sort l) := (List.perm_insertionSort _ l).symm
    rw [h] at hsorted
    exact hsorted.trans (List.perm_insertionSort _ l')
  · exact sort_eq_of_perm

/-- The sorted values of a name are its group of the normalized pairs. -/
theorem valuesOf_eq (headers : List (Str × Str)) (key : Str) :
    valuesOf headers key = sort (groupOf (normalizedPairs headers) key) := by
  unfold valuesOf groupOf normalizedPairs
  rw [List.filter_map, List.map_map]
  refine congrArg sort (List.map_congr_left ?_)
  intro h hmem
  have hkey : asciiLower h.1 = key := of_decide_eq_true (List.mem_filter.mp hmem).2
  simp [hkey]

/-- What is grouped under a name. -/
theorem lookup_grouped (headers : List (Str × Str)) (key : Str) :
    (groupedNormalizedHeaders headers).lookup key =
      if key ∈ (normalizedPairs headers).map Prod.fst then some (valuesOf headers key) else none := by
  have hlookup : ∀ keys : List Str,
      (keys.map fun k => (k, valuesOf headers k)).lookup key =
        if key ∈ keys then some (valuesOf headers key) else none := by
    intro keys
    induction keys with
    | nil => rfl
    | cons k keys ih =>
        rw [List.map_cons, List.lookup_cons]
        by_cases hk : key = k
        · simp [hk]
        · rw [beq_eq_false_iff_ne.mpr hk]
          simp [hk, ih]
  have hmem : key ∈ sortedKeys (headers.map fun h => asciiLower h.1) ↔
      key ∈ (normalizedPairs headers).map Prod.fst := by
    rw [mem_sortedKeys]
    simp [normalizedPairs]
  unfold groupedNormalizedHeaders
  rw [hlookup]
  simp only [hmem]

/-- A name does not mismatch when both lists have it, with the same values. -/
theorem no_mismatch_iff {a b : List (Str × Str)} {key : Str} :
    (match (groupedNormalizedHeaders a).lookup key, (groupedNormalizedHeaders b).lookup key with
      | some e, some a => if e ≠ a then some (key, some e, some a) else none
      | e, a => some (key, e, a)) = none ↔
    key ∈ (normalizedPairs a).map Prod.fst ∧ key ∈ (normalizedPairs b).map Prod.fst ∧
      valuesOf a key = valuesOf b key := by
  rw [lookup_grouped, lookup_grouped]
  by_cases ha : key ∈ (normalizedPairs a).map Prod.fst
  · by_cases hb : key ∈ (normalizedPairs b).map Prod.fst
    · simp only [if_true, ha, hb, true_and]
      by_cases hv : valuesOf a key = valuesOf b key
      · simp [hv]
      · simp [hv]
    · simp [ha, hb]
  · simp [ha]

/--
**Two header lists match exactly when they are the same multiset of normalized
pairs.**

Every name of either list is asked about, so a name that only one of them has is a
mismatch, and the names with their sorted values are all there is of a list.
-/
theorem normalizeHeaderValues_eq_nil_iff {a b : List (Str × Str)} :
    normalizeHeaderValues a b = [] ↔ (normalizedPairs a).Perm (normalizedPairs b) := by
  have hkeys : ∀ (headers : List (Str × Str)) (key : Str),
      key ∈ (groupedNormalizedHeaders headers).map Prod.fst ↔
        key ∈ (normalizedPairs headers).map Prod.fst := by
    intro headers key
    rw [mem_keys_grouped]
    simp [normalizedPairs]
  have hnil : normalizeHeaderValues a b = [] ↔ ∀ key,
      key ∈ (normalizedPairs a).map Prod.fst ∨ key ∈ (normalizedPairs b).map Prod.fst →
      key ∈ (normalizedPairs a).map Prod.fst ∧ key ∈ (normalizedPairs b).map Prod.fst ∧
        valuesOf a key = valuesOf b key := by
    unfold normalizeHeaderValues
    rw [List.filterMap_eq_nil_iff]
    simp only [mem_sortedKeys, List.mem_append, hkeys]
    exact forall₂_congr fun key _ => no_mismatch_iff
  rw [hnil, perm_iff_groups]
  constructor
  · intro h key
    by_cases hmem : key ∈ (normalizedPairs a).map Prod.fst ∨ key ∈ (normalizedPairs b).map Prod.fst
    · rw [← sort_eq_iff_perm, ← valuesOf_eq, ← valuesOf_eq]
      exact (h key hmem).2.2
    · rw [not_or] at hmem
      rw [groupOf_eq_nil_iff.mpr hmem.1, groupOf_eq_nil_iff.mpr hmem.2]
  · intro h key hmem
    have hboth : key ∈ (normalizedPairs a).map Prod.fst ↔ key ∈ (normalizedPairs b).map Prod.fst := by
      rw [← not_iff_not, ← groupOf_eq_nil_iff, ← groupOf_eq_nil_iff]
      exact ⟨fun ha => (ha ▸ h key).symm.eq_nil, fun hb => (hb ▸ h key).eq_nil⟩
    have ha : key ∈ (normalizedPairs a).map Prod.fst := hmem.elim id hboth.mpr
    refine ⟨ha, hboth.mp ha, ?_⟩
    rw [valuesOf_eq, valuesOf_eq]
    exact sort_eq_of_perm (h key)

/-! ### Bodies

A digest is printed as hexadecimal text, and different digests are different texts.
-/

theorem hexDigit_inj {m n : Nat} (hm : m < 16) (hn : n < 16)
    (h : Nat.digitChar m = Nat.digitChar n) : m = n := by
  have hall : ∀ m < 16, ∀ n < 16, Nat.digitChar m = Nat.digitChar n → m = n := by decide
  exact hall m hm n hn h

/-- Different digests print differently. -/
theorem hexEncode_inj {a b : Bytes} (h : hexEncode a = hexEncode b) : a = b := by
  induction a generalizing b with
  | nil =>
      cases b with
      | nil => rfl
      | cons y b => simp [hexEncode] at h
  | cons x a ih =>
      cases b with
      | nil => simp [hexEncode] at h
      | cons y b =>
          simp only [hexEncode, List.flatMap_cons, List.cons_append, List.nil_append,
            List.cons.injEq] at h
          obtain ⟨hhi, hlo, hrest⟩ := h
          have hx := x.toNat_lt
          have hy := y.toNat_lt
          have hhigh := hexDigit_inj (by omega) (by omega) hhi
          have hlow := hexDigit_inj (by omega) (by omega) hlo
          have hxy : x = y := UInt8.toNat_inj.mp (by omega)
          rw [hxy, ih hrest]

/-! ### Responses

Status, headers and body are compared in turn, and a cut body is reported by itself.
-/

/--
The comparison finds nothing exactly when the statuses, the headers up to
normalization and order, and the digests of the normalized bodies agree, and neither
side was cut.
-/
theorem diffResponses_eq_nil_iff {k : Crates} {primary shadow : Captured} {ctx : RequestContext} :
    diffResponses k primary shadow ctx = [] ↔
      primary.status = shadow.status ∧ (primary.truncated = false ∧ shadow.truncated = false) ∧
      (normalizedPairs primary.headers).Perm (normalizedPairs shadow.headers) ∧
      k.sha256 (normalizeBodyBytes primary.body) = k.sha256 (normalizeBodyBytes shadow.body) := by
  have hstatus : diffStatus primary.status shadow.status ctx = [] ↔ primary.status = shadow.status := by
    unfold diffStatus
    by_cases h : primary.status = shadow.status
    · simp [h]
    · simp [h]
  have htruncation : diffTruncation primary.truncated shadow.truncated ctx = [] ↔
      primary.truncated = false ∧ shadow.truncated = false := by
    unfold diffTruncation
    rw [← Bool.or_eq_false_iff]
    by_cases h : (primary.truncated || shadow.truncated) = true
    · simp [h]
    · simp [h]
  have hbody : (primary.truncated || shadow.truncated) = false →
      (diffBody k primary.body shadow.body (primary.truncated || shadow.truncated) ctx = [] ↔
        k.sha256 (normalizeBodyBytes primary.body) = k.sha256 (normalizeBodyBytes shadow.body)) := by
    intro hfull
    unfold diffBody
    by_cases h : sha256Hex k (normalizeBodyBytes primary.body) = sha256Hex k (normalizeBodyBytes shadow.body)
    · simp [h, hexEncode_inj h]
    · have hne : k.sha256 (normalizeBodyBytes primary.body) ≠ k.sha256 (normalizeBodyBytes shadow.body) := by
        intro hc
        exact h (congrArg hexEncode hc)
      simp [h, hne, hfull]
  unfold diffResponses
  rw [List.append_eq_nil_iff, List.append_eq_nil_iff, List.append_eq_nil_iff, hstatus, htruncation,
    diffHeaders_eq_nil, normalizeHeaderValues_eq_nil_iff, and_assoc, and_assoc]
  refine and_congr_right fun _ => and_congr_right fun hcut => and_congr_right fun _ => ?_
  exact hbody (by simp [hcut.1, hcut.2])

/--
**The comparison is empty exactly on equivalent responses**, unless the digests of
the two normalized bodies collide; whether it is empty does not depend on which
response is the primary, nor on the order of either header list.

The equivalence does not mention the code: equal status, nothing cut, normalized
pairs that are a permutation of each other, and equal bodies once normalized.
-/
theorem diff_empty_iff_equivalent (k : Crates) (primary shadow : Captured) (ctx : RequestContext) :
    ((k.sha256 (normalizeBodyBytes primary.body) = k.sha256 (normalizeBodyBytes shadow.body) →
        normalizeBodyBytes primary.body = normalizeBodyBytes shadow.body) →
      (diffResponses k primary shadow ctx = [] ↔
        primary.status = shadow.status ∧ (primary.truncated = false ∧ shadow.truncated = false) ∧
        (normalizedPairs primary.headers).Perm (normalizedPairs shadow.headers) ∧
        normalizeBodyBytes primary.body = normalizeBodyBytes shadow.body)) ∧
    (∀ name ∈ timestampHeaders, ∀ value, isTimestamp value = true →
      normalizeHeaderValue name value = "<timestamp>".toList) ∧
    (diffResponses k primary shadow ctx = [] ↔ diffResponses k shadow primary ctx = []) ∧
    (∀ headers, headers.Perm primary.headers →
      (diffResponses k { primary with headers } shadow ctx = [] ↔
        diffResponses k primary shadow ctx = [])) ∧
    ∀ headers, headers.Perm shadow.headers →
      (diffResponses k primary { shadow with headers } ctx = [] ↔
        diffResponses k primary shadow ctx = []) := by
  refine ⟨?_, ?_, ?_, ?_, ?_⟩
  · intro hcollision
    rw [diffResponses_eq_nil_iff]
    have hsame : k.sha256 (normalizeBodyBytes primary.body) = k.sha256 (normalizeBodyBytes shadow.body) ↔
        normalizeBodyBytes primary.body = normalizeBodyBytes shadow.body :=
      ⟨hcollision, fun h => congrArg k.sha256 h⟩
    rw [hsame]
  · intro name hname value hvalue
    unfold normalizeHeaderValue
    simp [hname, hvalue]
  · rw [diffResponses_eq_nil_iff, diffResponses_eq_nil_iff, List.perm_comm, and_comm (a := _ = false)]
    simp only [eq_comm]
  · intro headers hperm
    have hpairs : (normalizedPairs headers).Perm (normalizedPairs primary.headers) := hperm.map _
    rw [diffResponses_eq_nil_iff, diffResponses_eq_nil_iff, hpairs.congr_left]
  · intro headers hperm
    have hpairs : (normalizedPairs headers).Perm (normalizedPairs shadow.headers) := hperm.map _
    rw [diffResponses_eq_nil_iff, diffResponses_eq_nil_iff, hpairs.congr_right]

/-- An empty answer with a date and two cookies. -/
def datedAnswer : Captured :=
  ⟨200, [("Date".toList, "Tue, 09 Jun 2026 03:20:35 GMT".toList),
    ("Set-Cookie".toList, "a=1".toList), ("Set-Cookie".toList, "b=2".toList)], [], false⟩

/-- Another date, and the cookies in another order and spelling. -/
def redatedAnswer : Captured :=
  ⟨200, [("set-cookie".toList, "b=2".toList), ("set-cookie".toList, "a=1".toList),
    ("date".toList, "Wed, 10 Jun 2026 04:00:00 GMT".toList)], [], false⟩

theorem diff_empty_redated :
    diffResponses .sample datedAnswer redatedAnswer rootJob.context = [] := by
  have hheaders : (normalizedPairs datedAnswer.headers).Perm (normalizedPairs redatedAnswer.headers) := by
    decide +kernel
  have hbody : normalizeBodyBytes datedAnswer.body = normalizeBodyBytes redatedAnswer.body := rfl
  exact ((diff_empty_iff_equivalent .sample datedAnswer redatedAnswer rootJob.context).1
    fun _ => hbody).mpr ⟨rfl, ⟨rfl, rfl⟩, hheaders, hbody⟩

end Thttpd.Migrate
