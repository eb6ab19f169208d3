/-
What the user and the primary see of shadow mode.

The single backend of active mode gets the request as it comes, and its response is
passed on.  In shadow mode both bodies are read up to the cap and put together again, and
the headers of the response are turned into text and back.  The bodies survive that unless
a stream fails while it is read.  A header value survives it when it is text, and a value
with a byte of 128 or above is not: it comes back empty.

The two modes are written as functions from a job and a response to what is sent and
returned, with the same names for the parts they share.  A difference can then come
from two places only: the body, which shadow mode takes apart and puts together, and
the headers, which it turns into text and back.
-/
import Thttpd.Proofs.Capped
import Thttpd.Migrate.Server
import Thttpd.Lib.Case
import Thttpd.Lib.Utf8

namespace Thttpd.Migrate

open Text

/-! ### The two modes

What each of them sends and returns.  `none` is a panic, or a request that cannot be
built.
-/

/-- The request active mode sends; `none` if it sends none. -/
def activeSent (k : Crates) (p : BackendPool) (job : Job) (d : RoutingDecision) :
    Option ProxyRequest :=
  match buildStep k p job d with
  | .goto (.forwarding _ sent) => some sent
  | _ => none

/-- What active mode returns for the response of its backend; `none` is a panic. -/
def activeAnswer (job : Job) (d : RoutingDecision) (resp : Response) : Option Reply :=
  match forwardingStep job d (.ok resp) with
  | .record _ _ (.answered r) => some r
  | _ => none

/-- The request shadow mode sends to the primary. -/
def shadowSent (k : Crates) (p : BackendPool) (job : Job) (d : RoutingDecision) (shadow : Str) :
    Option ProxyRequest :=
  match readRequestStep job d shadow with
  | .goto (.buildPrimary d shadow c rest) =>
      match buildPrimaryStep k p job d shadow c rest with
      | .goto (.forwardingPrimary _ _ _ sent) => some sent
      | _ => none
  | _ => none

/-- What shadow mode returns for the response of the primary. -/
def shadowAnswer (k : Crates) (job : Job) (d : RoutingDecision) (shadow : Str) (resp : Response) :
    Option Reply :=
  match readRequestStep job d shadow with
  | .goto (.buildPrimary d shadow c _) =>
      match readResponseStep k job d shadow c.buffered resp with
      | .goto (.dispatch _ _ reply) => reply
      | .record _ _ (.answered r) => some r
      | _ => none
  | .record _ _ (.answered r) => some r
  | _ => none

/-- The same request line, headers and body. -/
structure ProxyRequest.Same (a b : ProxyRequest) : Prop where
  method : a.method = b.method
  uri : a.uri = b.uri
  headers : a.headers = b.headers
  body : collect a.body = collect b.body

/-- The same status, headers in any order, and body. -/
structure Reply.Same (a b : Reply) : Prop where
  status : a.status = b.status
  headers : a.headers.Perm b.headers
  body : collect a.body = collect b.body

/--
For this request and this response of the backend, neither the backend nor the user
can tell shadow mode from active mode.
-/
structure Invisible (k : Crates) (p : BackendPool) (job : Job) (d : RoutingDecision) (shadow : Str)
    (resp : Response) : Prop where
  request : ∃ a b, activeSent k p job d = some a ∧ shadowSent k p job d shadow = some b ∧ a.Same b
  reply : ∃ a b, activeAnswer job d resp = some a ∧ shadowAnswer k job d shadow resp = some b ∧
    a.Same b

/-! ### Bodies

By `Capped`, a body that was read up to the cap and put together again is the body.
What is left are the streams that fail, which active mode passes on frame by frame
and shadow mode does not.
-/

theorem collect_full (bytes : Bytes) : collect (full bytes) = .ok bytes := by
  unfold full
  by_cases h : bytes = []
  · rw [if_pos h, h]
    rfl
  · rw [if_neg h]
    simp [collect, Except.map]

/-- What was read in part is put together again. -/
theorem collect_chained {cap : Nat} {body rest : Body} {c : Capped}
    (h : readCapped cap body = (.ok c, rest)) : collect (chained c rest) = collect body := by
  rcases body_cases cap body with hfit | hfails | hexceeds
  · rw [readCapped_of_fits hfit.complete hfit.length] at h
    cases h
    exact (collect_full _).trans (collect_of_complete hfit.complete).symm
  · exact absurd hfails (not_failsWithin_of_ok h)
  · obtain ⟨before, d, after, rfl, hok, hle, hlt⟩ := exists_crossing hexceeds
    rw [readCapped_of_crosses hok hle hlt] at h
    cases h
    show collect (([dataOf before ++ d.take _, d.drop _].filter (· ≠ [])).map Frame.data ++ rest) = _
    rw [collect_filter]
    exact (drains_crossed hok).mp (drains_new _ rest)

/-- A stream that fails has no bytes to its end. -/
theorem collect_of_fails {cap : Nat} {body : Body} (h : FailsWithin cap body) :
    ∃ e, collect body = .error e := by
  obtain ⟨before, e, after, rfl, hok, -⟩ := h
  refine ⟨e, ?_⟩
  rw [collect_append hok, collect]
  rfl

/-! ### Header names and values

A header value is bytes, and text in this library is the printable part of ASCII
with the tab.
-/

/--
What the types for header names and values guarantee: a name is a token in lower
case, and a value has no control bytes but the tab.
-/
structure HeaderMap.Valid (m : HeaderMap) : Prop where
  name : ∀ h ∈ m, headerName h.1 = some h.1
  value : ∀ h ∈ m, ∀ b ∈ h.2, (0x20 ≤ b ∧ b ≠ 0x7F) ∨ b = 0x09

/-- A name in lower case stays as it is. -/
theorem asciiLower_asciiLower (s : Str) : asciiLower (asciiLower s) = asciiLower s := by
  have hchar : ∀ c : Char, c.toLower.toLower = c.toLower := by
    intro c
    apply Char.toNat_inj.mp
    rw [toLower_toNat, toLower_toNat]
    by_cases h : 65 ≤ c.toNat ∧ c.toNat ≤ 90
    · rw [if_pos h, if_neg (by omega)]
    · rw [if_neg h, if_neg h]
  simp [asciiLower, hchar]

theorem asciiLower_of_headerName {n m : Str} (h : headerName n = some m) : asciiLower n = m := by
  unfold headerName at h
  split at h
  · exact Option.some.inj h
  · cases h

/-- Of the names a `Connection` field lists, those that are header names are removed. -/
theorem mem_strip_iff {m : HeaderMap} (hvalid : m.Valid) {h : Str × Bytes} :
    h ∈ stripHopByHop m ↔ h ∈ m ∧ h.1 ∉ connectionTokens m ∧ isHopByHop h.1 = false := by
  have hlisted : h ∈ m → (h.1 ∈ ((connectionTokens m).filterMap headerName).filter m.containsKey ↔
      h.1 ∈ connectionTokens m) := by
    intro hmem
    have hkey : m.containsKey h.1 = true := by
      unfold HeaderMap.containsKey
      exact List.any_eq_true.mpr ⟨h, hmem, by simp⟩
    rw [List.mem_filter, and_iff_left hkey, List.mem_filterMap]
    constructor
    · rintro ⟨t, ht, hname⟩
      have hlower : asciiLower t = t := by
        unfold connectionTokens at ht
        obtain ⟨hin, -⟩ := List.mem_filter.mp ht
        obtain ⟨s, -, hs⟩ := List.mem_flatMap.mp hin
        obtain ⟨t', -, rfl⟩ := List.mem_map.mp hs
        exact asciiLower_asciiLower _
      rwa [← asciiLower_of_headerName hname, hlower]
    · intro ht
      exact ⟨h.1, ht, hvalid.name h hmem⟩
  simp only [stripHopByHop, foldl_remove, List.mem_filter, List.mem_map, decide_eq_true_eq]
  constructor
  · rintro ⟨⟨hmem, hnot⟩, hhop⟩
    refine ⟨hmem, ?_, ?_⟩
    · intro ht
      exact hnot (List.mem_filter.mp ((hlisted hmem).mpr ht))
    · by_contra hc
      exact hhop ⟨⟨h, ⟨hmem, hnot⟩, rfl⟩, by simpa using hc⟩
  · rintro ⟨hmem, hnot, hhop⟩
    refine ⟨⟨hmem, ?_⟩, ?_⟩
    · intro hc
      exact hnot ((hlisted hmem).mp (List.mem_filter.mpr hc))
    · rintro ⟨-, hc⟩
      rw [hhop] at hc
      cases hc

/-- Stripping adds nothing. -/
theorem stripHopByHop_sublist (m : HeaderMap) : (stripHopByHop m).Sublist m := by
  simp only [stripHopByHop, foldl_remove]
  exact List.filter_sublist.trans List.filter_sublist

/-- Text that was made of bytes is those bytes again. -/
theorem asBytes_of_toStr {value : Bytes} {s : Str} (h : toStr value = some s) : asBytes s = value := by
  unfold toStr at h
  split at h
  · rename_i hall
    obtain rfl := Option.some.inj h
    rw [List.all_eq_true] at hall
    clear h
    induction value with
    | nil => rfl
    | cons b value ih =>
        have hb := hall b List.mem_cons_self
        have hsmall : b.toNat < 0x80 := by
          simp only [Bool.or_eq_true, Bool.and_eq_true, decide_eq_true_eq, beq_iff_eq] at hb
          rcases hb with ⟨-, hb⟩ | rfl
          · have : b.toNat < 0x7F := hb
            omega
          · decide
        have hchar : (Char.ofNat b.toNat).toNat = b.toNat := byteChar_toNat b
        rw [List.map_cons, asBytes_cons, utf8EncodeChar_ascii (by omega), hchar, UInt8.ofNat_toNat,
          ih fun x hx => hall x (List.mem_cons_of_mem b hx), List.singleton_append]
  · cases h

/-- A value that was text is a value again. -/
theorem headerValue_of_toStr {value : Bytes} {s : Str} (h : toStr value = some s) :
    headerValue s = some value := by
  have hbytes := asBytes_of_toStr h
  unfold toStr at h
  split at h
  · rename_i hall
    unfold headerValue
    rw [hbytes, if_pos]
    rw [List.all_eq_true] at hall ⊢
    intro b hb
    have hok := hall b hb
    simp only [Bool.or_eq_true, Bool.and_eq_true, decide_eq_true_eq, beq_iff_eq, bne_iff_ne] at hok ⊢
    rcases hok with ⟨hge, hlt⟩ | hok
    · refine .inl ⟨hge, ?_⟩
      rintro rfl
      exact absurd hlt (by decide)
    · exact .inr hok
  · cases h

/-- The value of a returned header: what is not text is lost. -/
def returnedValue (value : Bytes) : Bytes := if (toStr value).isSome then value else []

theorem headerValue_toPair (value : Bytes) :
    headerValue ((toStr value).getD []) = some (returnedValue value) := by
  unfold returnedValue
  rcases h : toStr value with _ | s
  · rfl
  · rw [Option.getD_some, headerValue_of_toStr h]
    rfl

theorem toStr_returnedValue (value : Bytes) : (toStr (returnedValue value)).isSome = true := by
  unfold returnedValue
  split
  · assumption
  · rfl

/-- A value that a header may have is text when it is ASCII. -/
theorem toStr_isSome_iff {value : Bytes}
    (hvalid : ∀ b ∈ value, (0x20 ≤ b ∧ b ≠ 0x7F) ∨ b = 0x09) :
    (toStr value).isSome = true ↔ ∀ b ∈ value, b < 0x80 := by
  have hbyte : ∀ b ∈ value,
      (((0x20 ≤ b && b < 0x7F) || b == 0x09) = true ↔ b < 0x80) := by
    intro b hb
    have hv := hvalid b hb
    simp only [Bool.or_eq_true, Bool.and_eq_true, decide_eq_true_eq, beq_iff_eq, UInt8.le_iff_toNat_le,
      UInt8.lt_iff_toNat_lt, ← UInt8.toNat_inj, ne_eq, UInt8.reduceToNat] at hv ⊢
    omega
  unfold toStr
  split
  · rename_i hall
    rw [List.all_eq_true] at hall
    simp only [Option.isSome_some, true_iff]
    intro b hb
    exact (hbyte b hb).mp (hall b hb)
  · rename_i hall
    simp only [Option.isSome_none, Bool.false_eq_true, false_iff]
    intro hsmall
    refine hall (List.all_eq_true.mpr ?_)
    intro b hb
    exact (hbyte b hb).mpr (hsmall b hb)

/-! ### The returned headers

A header survives the way through text when its value is text.  Order may change, as
a header map gives its names back in an order of its own.
-/

/-- A response header the user gets from the backend, and not from the proxy. -/
def Returned (m : HeaderMap) (h : Str × Bytes) : Prop :=
  h.1 ∉ connectionTokens m ∧ isHopByHop h.1 = false ∧ h.1 ≠ xRequestId

theorem rebuild_fold {m : HeaderMap} (hname : ∀ h ∈ m, headerName h.1 = some h.1) :
    ∀ acc : HeaderMap, (m.map toPair).foldl (fun m h =>
        if eqIgnoreAsciiCase h.1 xRequestId then m
        else match headerName h.1, headerValue h.2 with
          | some name, some value => HeaderMap.append m name value
          | _, _ => m) acc =
      acc ++ (m.remove xRequestId).map fun h => (h.1, returnedValue h.2) := by
  induction m with
  | nil =>
      intro acc
      simp [HeaderMap.remove]
  | cons h m ih =>
      intro acc
      have hh := hname h List.mem_cons_self
      have hrest := ih fun x hx => hname x (List.mem_cons_of_mem h hx)
      have hcase : eqIgnoreAsciiCase h.1 xRequestId = true ↔ h.1 = xRequestId := by
        have hlower : asciiLower xRequestId = xRequestId := by decide
        simp [eqIgnoreAsciiCase, asciiLower_of_headerName hh, hlower]
      rw [List.map_cons, List.foldl_cons, hrest]
      by_cases hx : h.1 = xRequestId
      · have hskip : HeaderMap.remove (h :: m) xRequestId = HeaderMap.remove m xRequestId := by
          simp [HeaderMap.remove, hx]
        simp only [toPair, hcase.mpr hx, if_true, hskip]
      · have hkeep : HeaderMap.remove (h :: m) xRequestId = h :: HeaderMap.remove m xRequestId := by
          simp [HeaderMap.remove, hx]
        have hne : ¬ eqIgnoreAsciiCase h.1 xRequestId = true := fun hc => hx (hcase.mp hc)
        simp only [toPair, if_neg hne, hh, headerValue_toPair, hkeep, HeaderMap.append, List.map_cons,
          List.append_assoc, List.singleton_append]

theorem rebuildShadowResponseHeaders_eq {m : HeaderMap}
    (hname : ∀ h ∈ m, headerName h.1 = some h.1) (id : Bytes) :
    rebuildShadowResponseHeaders (m.map toPair) id =
      ((m.remove xRequestId).map fun h => (h.1, returnedValue h.2)) ++ [(xRequestId, id)] := by
  refine (congrArg (HeaderMap.insert · xRequestId id) (rebuild_fold hname [])).trans ?_
  rw [List.nil_append, HeaderMap.insert]
  congr 1
  refine List.filter_eq_self.mpr ?_
  intro h hmem
  obtain ⟨h₀, hmem₀, rfl⟩ := List.mem_map.mp hmem
  exact (List.mem_filter.mp hmem₀).2

/-- The headers come back as they are exactly when their values are text. -/
theorem returned_perm_iff {l l' : HeaderMap} (hperm : l'.Perm l) :
    l.Perm (l'.map fun h => (h.1, returnedValue h.2)) ↔ ∀ h ∈ l, (toStr h.2).isSome = true := by
  constructor
  · intro h x hx
    obtain ⟨x₀, -, rfl⟩ := List.mem_map.mp (h.mem_iff.mp hx)
    exact toStr_returnedValue x₀.2
  · intro htext
    have hsame : ∀ h ∈ l', (h.1, returnedValue h.2) = h := by
      intro h hmem
      rw [returnedValue, if_pos (htext h (hperm.mem_iff.mp hmem))]
    rw [List.map_congr_left hsame, List.map_id']
    exact hperm.symm

/-- The headers of the two replies agree exactly when every returned value is ASCII. -/
theorem reply_headers_perm_iff {k : Crates} {resp : Response} (hvalid : resp.headers.Valid)
    (id : Bytes) :
    (HeaderMap.insert (stripHopByHop resp.headers) xRequestId id).Perm
        (rebuildShadowResponseHeaders (primaryHeaders k resp) id) ↔
      ∀ h ∈ resp.headers, Returned resp.headers h → ∀ b ∈ h.2, b < 0x80 := by
  have hiter := k.iter_perm (stripHopByHop resp.headers)
  have hremoved : (HeaderMap.remove (k.iter (stripHopByHop resp.headers)) xRequestId).Perm
      ((stripHopByHop resp.headers).remove xRequestId) := hiter.filter _
  have hsub := stripHopByHop_sublist resp.headers
  have hname : ∀ h ∈ k.iter (stripHopByHop resp.headers), headerName h.1 = some h.1 := by
    intro h hmem
    exact hvalid.name h (hsub.subset (hiter.mem_iff.mp hmem))
  rw [primaryHeaders, collectHeaders, rebuildShadowResponseHeaders_eq hname, HeaderMap.insert,
    List.perm_append_right_iff, returned_perm_iff hremoved]
  constructor
  · rintro h x hx ⟨hlisted, hhop, hid⟩
    rw [← toStr_isSome_iff (hvalid.value x hx)]
    refine h x (List.mem_filter.mpr ⟨?_, by simpa using hid⟩)
    exact (mem_strip_iff hvalid).mpr ⟨hx, hlisted, hhop⟩
  · intro h x hx
    obtain ⟨hstrip, hid⟩ := List.mem_filter.mp hx
    obtain ⟨hmem, hlisted, hhop⟩ := (mem_strip_iff hvalid).mp hstrip
    rw [toStr_isSome_iff (hvalid.value x hmem)]
    exact h x hmem ⟨hlisted, hhop, by simpa using hid⟩

/-! ### Shadow mode

The request that reaches the primary, and the answer that reaches the user.
-/

section Modes

variable {k : Crates} {p : BackendPool} {job : Job} {d : RoutingDecision} {shadow : Str}
  {resp : Response}

/-- The identifier is a header value: it was one, or it was drawn. -/
theorem headerValue_requestId (hid : (headerValue job.freshId).isSome = true) :
    ∃ id, headerValue job.requestId = some id := by
  unfold Job.requestId
  rcases h : ((job.req.headers.getAll xRequestId).head?).bind toStr with _ | s
  · exact Option.isSome_iff_exists.mp hid
  · obtain ⟨value, -, hvalue⟩ := Option.bind_eq_some_iff.mp h
    exact ⟨value, headerValue_of_toStr hvalue⟩

/-- The two modes build the same request from the body they have. -/
theorem rebuild_of_rebuild {headers : List (Str × Str)} {body : Body} {addr : Str}
    {sent : ProxyRequest} (h : job.rebuild k headers body addr = some sent) (body' : Body) :
    job.rebuild k headers body' addr = some { sent with body := body' } ∧ sent.body = body := by
  simp only [Job.rebuild, rebuildForBackendStreaming] at h ⊢
  split at h
  · rename_i hok
    obtain rfl := Option.some.inj h
    rw [if_pos hok]
    exact ⟨rfl, rfl⟩
  · cases h

theorem shadowSent_of_activeSent (shadow : Str) {sent : ProxyRequest} {c : Capped} {rest : Body}
    (hsent : activeSent k p job d = some sent)
    (hread : readCapped job.maxBodyBytes job.req.body = (.ok c, rest)) :
    shadowSent k p job d shadow = some { sent with body := chained c rest } ∧
      sent.body = job.req.body := by
  unfold activeSent buildStep at hsent
  unfold shadowSent readRequestStep buildPrimaryStep
  rcases hbuild : job.rebuild k (job.headers k) job.req.body (p.address d.backend) with _ | built
  · simp [hbuild] at hsent
  · obtain ⟨hagain, hbody⟩ := rebuild_of_rebuild hbuild (chained c rest)
    by_cases hroute : p.isRoutable d.backend = true
    · simp only [hbuild, hroute, if_true, Option.some.injEq] at hsent
      subst hsent
      exact ⟨by simp only [hread, hagain, hroute, if_true], hbody⟩
    · simp [hbuild, hroute] at hsent

/-- What active mode returns. -/
theorem activeAnswer_eq {id : Bytes} (hid : headerValue job.requestId = some id) :
    activeAnswer job d resp =
      some ⟨resp.status, (stripHopByHop resp.headers).insert xRequestId id, resp.body⟩ := by
  simp only [activeAnswer, forwardingStep, activeReply, hid]

/-- Both streams could be read up to the cap. -/
theorem shadowAnswer_of_ok {id : Bytes} {c c' : Capped} {rest rest' : Body}
    (hid : headerValue job.requestId = some id)
    (hreq : readCapped job.maxBodyBytes job.req.body = (.ok c, rest))
    (hresp : readCapped job.maxBodyBytes resp.body = (.ok c', rest')) :
    shadowAnswer k job d shadow resp =
      some ⟨resp.status, rebuildShadowResponseHeaders (primaryHeaders k resp) id,
        chained c' rest'⟩ := by
  simp only [shadowAnswer, readRequestStep, hreq, readResponseStep, hresp, shadowReply, hid]

theorem shadowAnswer_of_error {c : Capped} {rest rest' : Body} {e : Str}
    (hreq : readCapped job.maxBodyBytes job.req.body = (.ok c, rest))
    (hresp : readCapped job.maxBodyBytes resp.body = (.error e, rest')) :
    shadowAnswer k job d shadow resp = some badGateway := by
  simp only [shadowAnswer, readRequestStep, hreq, readResponseStep, hresp]

end Modes

/--
**Shadow mode is invisible exactly when both bodies can be read up to the cap and
every returned header value is ASCII.** The request is one that active mode sends,
the drawn identifier is a header value, and the response headers are such as a
header map can hold.

Active mode streams a body and shadow mode reads it first, so a body that fails
within the cap is passed on in the one and ends the request in the other; and shadow
mode keeps header values as texts.
-/
theorem shadow_mode_invisible_iff (k : Crates) (p : BackendPool) (job : Job) (d : RoutingDecision)
    (shadow : Str) (resp : Response) {sent : ProxyRequest} (hsent : activeSent k p job d = some sent)
    (hid : (headerValue job.freshId).isSome = true) (hvalid : resp.headers.Valid) :
    Invisible k p job d shadow resp ↔
      ¬ FailsWithin job.maxBodyBytes job.req.body ∧ ¬ FailsWithin job.maxBodyBytes resp.body ∧
      ∀ h ∈ resp.headers, Returned resp.headers h → ∀ b ∈ h.2, b < 0x80 := by
  obtain ⟨id, hid⟩ := headerValue_requestId hid
  rcases hreq : readCapped job.maxBodyBytes job.req.body with ⟨e | c, rest⟩
  · -- Shadow mode sends nothing.
    have hnone : shadowSent k p job d shadow = none := by
      simp only [shadowSent, readRequestStep, hreq]
    refine iff_of_false ?_ ?_
    · rintro ⟨⟨a, b, -, hb, -⟩, -⟩
      rw [hnone] at hb
      cases hb
    · rintro ⟨hok, -⟩
      exact hok (failsWithin_of_error hreq)
  · rcases hresp : readCapped job.maxBodyBytes resp.body with ⟨e | c', rest'⟩
    · -- The user gets the proxy's own answer, which is complete.
      have hfails := failsWithin_of_error hresp
      refine iff_of_false ?_ ?_
      · rintro ⟨-, a, b, ha, hb, hsame⟩
        rw [activeAnswer_eq hid] at ha
        rw [shadowAnswer_of_error hreq hresp] at hb
        obtain rfl := Option.some.inj ha
        obtain rfl := Option.some.inj hb
        obtain ⟨e', he'⟩ := collect_of_fails hfails
        have hbody : collect resp.body = collect badGateway.body := hsame.body
        rw [he', badGateway, plain, collect_full] at hbody
        cases hbody
      · rintro ⟨-, hok, -⟩
        exact hok hfails
    · obtain ⟨hshadow, hbody⟩ := shadowSent_of_activeSent shadow hsent hreq
      rw [and_iff_right (not_failsWithin_of_ok hreq), and_iff_right (not_failsWithin_of_ok hresp),
        ← reply_headers_perm_iff (k := k) hvalid id]
      constructor
      · rintro ⟨-, a, b, ha, hb, hsame⟩
        rw [activeAnswer_eq hid] at ha
        rw [shadowAnswer_of_ok hid hreq hresp] at hb
        obtain rfl := Option.some.inj ha
        obtain rfl := Option.some.inj hb
        exact hsame.headers
      · intro hheaders
        refine ⟨⟨_, _, hsent, hshadow, rfl, rfl, rfl, ?_⟩, _, _, activeAnswer_eq hid,
          shadowAnswer_of_ok hid hreq hresp, rfl, hheaders, ?_⟩
        · rw [hbody]
          exact (collect_chained hreq).symm
        · exact (collect_chained hresp).symm

/-- An upload of four bytes in two frames, under a cap of three. -/
def postJob : Job :=
  ⟨⟨"POST".toList, ⟨['/'], some ['/']⟩, [], [.data [97, 98], .data [99, 100]]⟩, "id".toList,
    ⟨.shadow, some "c".toList, some "rust".toList, []⟩, 3⟩

def postDecision : RoutingDecision := ⟨"c".toList, some "rust".toList, "id".toList⟩

/-- One healthy backend. -/
def postPool : BackendPool :=
  .withBreakerCfg [("c".toList, "127.0.0.1:8080".toList, 1)] ⟨fun _ _ => false, 60, 1⟩ 0

/-- A page that sets two cookies and names its author. -/
def postAnswer (author : Bytes) : Response :=
  ⟨200, [("set-cookie".toList, asBytes "a=1".toList), ("set-cookie".toList, asBytes "b=2".toList),
    ("x-author".toList, author)], [.data [111, 107, 33], .data [33]]⟩

theorem shadow_mode_invisible_post :
    Invisible .sample postPool postJob postDecision "rust".toList
      (postAnswer (asBytes "Jose".toList)) := by
  have hsent : (activeSent .sample postPool postJob postDecision).isSome = true := by decide +kernel
  obtain ⟨sent, hsent⟩ := Option.isSome_iff_exists.mp hsent
  have hfails : ∀ {body : Body}, Complete body → ¬ FailsWithin 3 body := by
    rintro body hok ⟨before, e, after, rfl, -⟩
    exact hok e (by simp)
  have hascii : ∀ h ∈ (postAnswer (asBytes "Jose".toList)).headers, ∀ b ∈ h.2, b < 0x80 := by
    decide +kernel
  refine (shadow_mode_invisible_iff .sample postPool postJob postDecision "rust".toList _ hsent
    (by decide +kernel) ⟨by decide +kernel, by decide +kernel⟩).mpr ⟨?_, ?_, ?_⟩
  · exact hfails (by simp [postJob, Complete])
  · exact hfails (by simp [postAnswer, Complete])
  · intro h hmem _
    exact hascii h hmem

/--
**A header value in Latin-1 comes back empty.**  Active mode returns the name as the
backend wrote it, and shadow mode returns none.
-/
theorem latin1_header_visible :
    activeAnswer postJob postDecision (postAnswer [74, 111, 115, 0xE9]) =
      some ⟨200, [("set-cookie".toList, asBytes "a=1".toList),
        ("set-cookie".toList, asBytes "b=2".toList), ("x-author".toList, [74, 111, 115, 0xE9]),
        (xRequestId, asBytes "id".toList)], [.data [111, 107, 33], .data [33]]⟩ ∧
    shadowAnswer .sample postJob postDecision "rust".toList (postAnswer [74, 111, 115, 0xE9]) =
      some ⟨200, [("set-cookie".toList, asBytes "a=1".toList),
        ("set-cookie".toList, asBytes "b=2".toList), ("x-author".toList, []),
        (xRequestId, asBytes "id".toList)], [.data [111, 107, 33], .data [33]]⟩ ∧
    ¬ Invisible .sample postPool postJob postDecision "rust".toList
      (postAnswer [74, 111, 115, 0xE9]) := by
  have hactive : activeAnswer postJob postDecision (postAnswer [74, 111, 115, 0xE9]) =
      some ⟨200, [("set-cookie".toList, asBytes "a=1".toList),
        ("set-cookie".toList, asBytes "b=2".toList), ("x-author".toList, [74, 111, 115, 0xE9]),
        (xRequestId, asBytes "id".toList)], [.data [111, 107, 33], .data [33]]⟩ := by
    decide +kernel
  have hshadow : shadowAnswer .sample postJob postDecision "rust".toList
      (postAnswer [74, 111, 115, 0xE9]) =
      some ⟨200, [("set-cookie".toList, asBytes "a=1".toList),
        ("set-cookie".toList, asBytes "b=2".toList), ("x-author".toList, []),
        (xRequestId, asBytes "id".toList)], [.data [111, 107, 33], .data [33]]⟩ := by
    decide +kernel
  refine ⟨hactive, hshadow, ?_⟩
  rintro ⟨-, a, b, ha, hb, hsame⟩
  obtain rfl := Option.some.inj (hactive.symm.trans ha)
  obtain rfl := Option.some.inj (hshadow.symm.trans hb)
  have hmem := hsame.headers.mem_iff.mp
    (show ("x-author".toList, [74, 111, 115, 0xE9]) ∈ _ by decide +kernel)
  revert hmem
  decide +kernel

end Thttpd.Migrate
