/-
What the shadow comparison makes of two equal responses.

The comparison groups headers by name and sorts their values, so the order in which a
header map is iterated plays no part, and a body that fits the cap is compared whole
however it was cut into frames.  What remains is the capture: the primary's headers
are stripped first and the shadow's are not, so exactly the hop-by-hop headers of the
response are reported.
-/
import Thttpd.Migrate.Server
import Mathlib.Data.List.Dedup
import Mathlib.Data.List.Perm.Basic

namespace Thttpd.Migrate

open Text

/-! ### Sorting and grouping -/

theorem sort_eq_of_perm {l l' : List Str} (h : l.Perm l') : sort l = sort l' := by
  have hp : (sort l).Perm (sort l') :=
    (List.perm_insertionSort _ l).trans (h.trans (List.perm_insertionSort _ l').symm)
  exact hp.eq_of_pairwise (fun _ _ _ _ => le_antisymm) (List.pairwise_insertionSort _ l)
    (List.pairwise_insertionSort _ l')

@[simp] theorem mem_sortedKeys {names : List Str} {n : Str} : n ∈ sortedKeys names ↔ n ∈ names := by
  simp [sortedKeys, sort]

/-- The keys of the grouped headers are their lower-cased names. -/
theorem mem_keys_grouped {headers : List (Str × Str)} {key : Str} :
    key ∈ (groupedNormalizedHeaders headers).map Prod.fst ↔
      ∃ h ∈ headers, asciiLower h.1 = key := by
  simp [groupedNormalizedHeaders]

/-- The order of the headers does not matter. -/
theorem grouped_eq_of_perm {a b : List (Str × Str)} (h : a.Perm b) :
    groupedNormalizedHeaders a = groupedNormalizedHeaders b := by
  have hkeys : sortedKeys (a.map fun h => asciiLower h.1) =
      sortedKeys (b.map fun h => asciiLower h.1) :=
    sort_eq_of_perm ((h.map _).dedup)
  have hvalues : ∀ key, valuesOf a key = valuesOf b key := by
    intro key
    exact sort_eq_of_perm ((h.filter _).map _)
  simp only [groupedNormalizedHeaders, hkeys, hvalues]

theorem lookup_isSome_iff_mem_keys {α : Type} {l : List (Str × α)} {key : Str} :
    (l.lookup key).isSome = true ↔ key ∈ l.map Prod.fst := by
  simp only [List.lookup_isSome_iff, List.mem_map, beq_iff_eq, eq_comm (b := key)]

/-- Headers that group to the same do not mismatch. -/
theorem normalizeHeaderValues_eq_nil {a b : List (Str × Str)}
    (h : groupedNormalizedHeaders a = groupedNormalizedHeaders b) :
    normalizeHeaderValues a b = [] := by
  unfold normalizeHeaderValues
  rw [h]
  refine List.filterMap_eq_nil_iff.mpr ?_
  intro key hkey
  have hkey' : key ∈ (groupedNormalizedHeaders b).map Prod.fst := by simpa using hkey
  obtain ⟨v, hv⟩ := Option.isSome_iff_exists.mp (lookup_isSome_iff_mem_keys.mpr hkey')
  simp [hv]

/-- Headers that do not mismatch have the same names. -/
theorem exists_of_no_mismatch {a b : List (Str × Str)} (h : normalizeHeaderValues a b = [])
    {hdr : Str × Str} (hmem : hdr ∈ b) : ∃ hdr' ∈ a, asciiLower hdr'.1 = asciiLower hdr.1 := by
  have hkey : asciiLower hdr.1 ∈ (groupedNormalizedHeaders b).map Prod.fst :=
    mem_keys_grouped.mpr ⟨hdr, hmem, rfl⟩
  have hnone := List.filterMap_eq_nil_iff.mp h (asciiLower hdr.1)
    (mem_sortedKeys.mpr (List.mem_append_right _ hkey))
  split at hnone
  · rename_i e _ he _
    exact mem_keys_grouped.mp (lookup_isSome_iff_mem_keys.mp (by rw [he]; rfl))
  · cases hnone

/-! ### The pipeline -/

/--
What `handle_shadow` hands to `dispatch_shadow`, for a request that is answered by
`primary`; `none` when a body could not be read.
-/
def mirrorOf (k : Crates) (job : Job) (d : RoutingDecision) (shadow : Str) (primary : Response) :
    Option Mirror :=
  match readRequestStep job d shadow with
  | .goto (.buildPrimary _ _ c _) =>
      match readResponseStep k job d shadow c.buffered primary with
      | .goto (.dispatch m _ _) => some m
      | _ => none
  | _ => none

/-- The divergences a mirror ends with, once the shadow has answered. -/
def divergencesOf (k : Crates) (job : Job) (m : Mirror) (resp : Response) :
    Option (List Divergence) :=
  match mirrorReadStep k job m resp with
  | .record _ _ (.compared divergences) => some divergences
  | _ => none

/--
`handle_shadow`, `dispatch_shadow` and `diff_responses` for a request that the
primary answers with `primary` and the shadow with `resp`.
-/
def shadowPipeline (k : Crates) (job : Job) (d : RoutingDecision) (shadow : Str)
    (primary resp : Response) : Option (List Divergence) :=
  (mirrorOf k job d shadow primary).bind fun m => divergencesOf k job m resp

/--
Two complete responses with the same status, headers and body; neither the order of
the header maps nor the frames need be the same.
-/
structure Response.Same (a b : Response) : Prop where
  status : a.status = b.status
  headers : a.headers.Perm b.headers
  data : dataOf a.body = dataOf b.body
  complete : Complete a.body
  complete' : Complete b.body

section Pipeline

variable {k : Crates} {job : Job} {d : RoutingDecision} {shadow : Str} {a b : Response}

theorem mirrorOf_eq (hreq : Complete job.req.body)
    (hfit : (dataOf job.req.body).length ≤ job.maxBodyBytes) (ha : Complete a.body)
    (hlen : (dataOf a.body).length ≤ job.maxBodyBytes) :
    mirrorOf k job d shadow a = some ⟨d, shadow, job.headers k, dataOf job.req.body,
      ⟨a.status, primaryHeaders k a, dataOf a.body, false⟩⟩ := by
  simp only [mirrorOf, readRequestStep, readCapped_of_fits hreq hfit, readResponseStep,
    readCapped_of_fits ha hlen, captured]

theorem divergencesOf_eq (m : Mirror) (hb : Complete b.body)
    (hlen : (dataOf b.body).length ≤ job.maxBodyBytes) :
    divergencesOf k job m b = some (diffResponses k m.primary
      ⟨b.status, shadowHeaders k b, dataOf b.body, false⟩ job.context) := by
  simp only [divergencesOf, mirrorReadStep, readCapped_of_fits hb hlen, compareShadow]

/-- Of two equal responses only the headers can differ once captured. -/
theorem diffResponses_eq_headers {status : Nat} {body : Bytes} {p s : List (Str × Str)}
    {ctx : RequestContext} :
    diffResponses k ⟨status, p, body, false⟩ ⟨status, s, body, false⟩ ctx = diffHeaders p s ctx := by
  simp [diffResponses, diffStatus, diffTruncation, diffBody]

theorem diffHeaders_eq_nil {p s : List (Str × Str)} {ctx : RequestContext} :
    diffHeaders p s ctx = [] ↔ normalizeHeaderValues p s = [] := by
  unfold diffHeaders
  by_cases h : normalizeHeaderValues p s = [] <;> simp [h]

/-- Whether a header is hop-by-hop does not depend on the case of its name. -/
theorem isHopByHop_congr {n n' : Str} (h : asciiLower n = asciiLower n') :
    isHopByHop n = isHopByHop n' := by
  simp only [isHopByHop, eqIgnoreAsciiCase, h]

theorem mem_shadowHeaders {h : Str × Bytes} (hmem : h ∈ b.headers) :
    toPair h ∈ shadowHeaders k b :=
  List.mem_map_of_mem ((k.iter_perm _).mem_iff.mpr hmem)

/-- No captured header of a primary response is hop-by-hop. -/
theorem not_isHopByHop_of_mem_primaryHeaders {h : Str × Str} (hmem : h ∈ primaryHeaders k a) :
    isHopByHop h.1 = false := by
  obtain ⟨h₀, hmem₀, rfl⟩ := List.mem_map.mp hmem
  exact not_isHopByHop_of_mem_strip ((k.iter_perm _).mem_iff.mp hmem₀)

/-- The captured headers of two equal responses match exactly when nothing was stripped. -/
theorem headers_match_iff (hperm : a.headers.Perm b.headers) :
    normalizeHeaderValues (primaryHeaders k a) (shadowHeaders k b) = [] ↔
      ∀ h ∈ a.headers, isHopByHop h.1 = false := by
  constructor
  · intro hnil h hmem
    have hmem' : toPair h ∈ shadowHeaders k b := mem_shadowHeaders (hperm.mem_iff.mp hmem)
    obtain ⟨h', hin, hlower⟩ := exists_of_no_mismatch hnil hmem'
    have hname : asciiLower h.1 = asciiLower h'.1 := hlower.symm
    rw [isHopByHop_congr hname]
    exact not_isHopByHop_of_mem_primaryHeaders hin
  · intro hclean
    refine normalizeHeaderValues_eq_nil (grouped_eq_of_perm ?_)
    unfold primaryHeaders shadowHeaders collectHeaders
    rw [strip_of_clean hclean]
    exact ((k.iter_perm _).trans (hperm.trans (k.iter_perm _).symm)).map _

end Pipeline

/--
**Two equal responses are reported exactly when they carry a hop-by-hop header**,
for every request whose body fits the cap and every response whose body does.

The response to the client has been stripped of the headers of the hop before it is
compared, and the shadow's has not.
-/
theorem shadow_comparison_quiet_iff (k : Crates) (job : Job) (d : RoutingDecision) (shadow : Str)
    {primary resp : Response} (hreq : Complete job.req.body)
    (hfit : (dataOf job.req.body).length ≤ job.maxBodyBytes) (hsame : primary.Same resp)
    (hlen : (dataOf primary.body).length ≤ job.maxBodyBytes) :
    shadowPipeline k job d shadow primary resp = some [] ↔
      ∀ h ∈ primary.headers, isHopByHop h.1 = false := by
  have hlen' : (dataOf resp.body).length ≤ job.maxBodyBytes := hsame.data ▸ hlen
  unfold shadowPipeline
  rw [mirrorOf_eq hreq hfit hsame.complete hlen, Option.bind_some,
    divergencesOf_eq _ hsame.complete' hlen', ← hsame.status, ← hsame.data,
    diffResponses_eq_headers, Option.some.injEq, diffHeaders_eq_nil]
  exact headers_match_iff hsame.headers

/-- A request for `/` without a body. -/
def rootJob : Job :=
  ⟨⟨"GET".toList, ⟨['/'], some ['/']⟩, [], []⟩, "id".toList,
    ⟨.shadow, some "c".toList, some "rust".toList, []⟩, 1048576⟩

def rootDecision : RoutingDecision := ⟨"c".toList, some "rust".toList, "id".toList⟩

/-- A form, posted in two frames. -/
def formJob : Job :=
  { rootJob with
    req := ⟨"POST".toList, ⟨['/'], some ['/']⟩, [],
      [.data (asBytes "a=1".toList), .data (asBytes "&b=2".toList)]⟩ }

/-- Five bytes in two frames. -/
def framedAnswer : Response :=
  ⟨200, [("content-length".toList, asBytes ['5']), ("content-type".toList, asBytes "text/plain".toList)],
    [.data (asBytes "he".toList), .data (asBytes "llo".toList)]⟩

/-- The same bytes in one frame, with trailers behind it and the headers in another order. -/
def reframedAnswer : Response :=
  ⟨200, [("content-type".toList, asBytes "text/plain".toList), ("content-length".toList, asBytes ['5'])],
    [.data (asBytes "hello".toList), .trailers]⟩

theorem framedAnswer_same : framedAnswer.Same reframedAnswer where
  status := rfl
  headers := .swap _ _ []
  data := by decide
  complete := by simp [framedAnswer, Complete]
  complete' := by simp [reframedAnswer, Complete]

/-- Neither the frames nor the order of the headers are reported. -/
theorem shadow_comparison_quiet_sample :
    shadowPipeline .sample formJob rootDecision "rust".toList framedAnswer reframedAnswer = some [] := by
  have hreq : Complete formJob.req.body := by simp [formJob, Complete]
  rw [shadow_comparison_quiet_iff .sample formJob rootDecision _ hreq (by decide) framedAnswer_same
    (by decide)]
  decide

/-- An empty answer whose headers are `headers`. -/
def emptyAnswer (headers : HeaderMap) : Response := ⟨200, headers, []⟩

/--
Every answer of thttpd carries `Connection: close`, and so every pair of equal
answers diverges.
-/
theorem connection_close_diverges :
    shadowPipeline .sample rootJob rootDecision "rust".toList
      (emptyAnswer [("connection".toList, asBytes "close".toList)])
      (emptyAnswer [("connection".toList, asBytes "close".toList)]) =
    some [⟨.headers, "matching normalized headers".toList, "connection".toList, ['/'],
      "GET".toList, false⟩] := by
  decide +kernel

end Thttpd.Migrate
