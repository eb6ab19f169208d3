/-
The head of an answer.

`requestHead` says which head a request is answered with and which status is kept for
the log, as a function of the request, the configuration and the tree.  The body is
left open: it is what follows the head.  `processRequest_carries` says that this is
what processing a request leaves, for a request with a protocol version.

An answer is traced through three functions: the handler that prepares it, the one
that looks for the end of its head, and the table, which may put a refusal in its
place.  `Drafted` and `Carries` are the two ends of that way, and every handler is
shown to come to the second from the first.
-/
import Thttpd.Proofs.Route
import Thttpd.Proofs.Accounting
import Thttpd.Proofs.Head

namespace Thttpd

open Text Fs

/-! ### Responses with a head

The length of the head is either known, because the head was written here, or it is
looked for in the bytes, which comes to the same when the head has no empty line
inside.
-/

/--
A connection whose response has this head, and what it keeps for the log.  The length
of the head is known from writing it or was found by looking for its end.
-/
structure Carries (http : HttpConn) (head : Head) (code : Nat) : Prop where
  response : ∃ body, http.response = head.render ++ body
  code : http.statusCode = code
  headerLen : http.responseHeaderLen = (headerEndOffset http.response).getD 0 ∨
    http.responseHeaderLen = head.render.length

/-- A connection with its response in place, before the end of the head is looked for. -/
structure Drafted (http : HttpConn) (head : Head) (code : Nat) : Prop where
  mime : http.mimeFlag = true
  response : ∃ body, http.response = head.render ++ body
  code : http.statusCode = code
  headerLen : http.responseHeaderLen = 0 ∨ http.responseHeaderLen = head.render.length

/-- The first line of a head. -/
theorem fullHead_first (pf : Platform) (now : Int) (http : HttpConn) (status : Nat)
    (text type : Str) (length mtime : Int) (extra : List (Str × Str)) (rangeLen : Int) :
    ∃ part, part = partialContent http status length (modTime now mtime) ∧
      (fullHead pf now http status text type length mtime extra rangeLen).status
        = (if part = true then 206 else status) ∧
      (fullHead pf now http status text type length mtime extra rangeLen).statusText
        = if part = true then "Partial Content".toList else text :=
  ⟨_, rfl, rfl, rfl⟩

/-- Only a 200 is changed. -/
theorem fullHead_status {status : Nat} (hs : status ≠ 200) (pf : Platform) (now : Int)
    (http : HttpConn) (text type : Str) (length mtime : Int) (extra : List (Str × Str))
    (rangeLen : Int) :
    (fullHead pf now http status text type length mtime extra rangeLen).status = status := by
  obtain ⟨part, hpart, hstatus, -⟩ :=
    fullHead_first pf now http status text type length mtime extra rangeLen
  have hno : part = false := by
    rw [hpart]
    simp [partialContent, hs]
  rw [hstatus, hno]
  rfl

/-- The head of an error page. -/
def errorHead (pf : Platform) (w : World) (http : HttpConn) (e : ErrorReply) : Head :=
  fullHead pf w.unixNow http e.status e.title textHtml (-1) 0 e.extraHeaders http.rangeLen

theorem errorResponse_eq (pf : Platform) (w : World) {http : HttpConn} (e : ErrorReply)
    (hm : http.mimeFlag = true) :
    ∃ body, errorResponse pf w http e = (errorHead pf w http e).render ++ body := by
  refine ⟨errorPage e.status e.title e.form e.arg (some http.userAgent), ?_⟩
  unfold errorResponse buildFullResponse
  simp only [hm, if_true]
  rfl

/-- The reply to a request that the table refuses when the response is ready. -/
def rejectHead (pf : Platform) (w : World) (http : HttpConn) : Head :=
  errorHead pf w http (.overLimit http.origFilename)

/-- The length of the head is looked for when it is not known. -/
theorem fillHeaderLen_headerLen {slot : ConnSlot} {head : Head} {code : Nat}
    (h : Drafted slot.http head code) (hcgi : slot.isCgi = false) :
    (fillHeaderLen slot).responseHeaderLen = (headerEndOffset slot.http.response).getD 0 ∨
      (fillHeaderLen slot).responseHeaderLen = head.render.length := by
  unfold fillHeaderLen
  simp only [hcgi, h.mime, Bool.not_false, Bool.true_and, beq_iff_eq]
  split
  · cases headerEndOffset slot.http.response with
    | none =>
        rename_i hzero
        exact .inl hzero
    | some stop => exact .inl rfl
  · rename_i hzero
    exact .inr (h.headerLen.resolve_left hzero)

/--
**A prepared response is sent as it is, or the refusal of the table in its place.**

The table is asked when sending starts, after the response was built, and its
refusal is a response of its own with its own head.
-/
theorem sendingSlot_carries (pf : Platform) (w : World) {slot : ConnSlot} {head : Head}
    {code : Nat} (h : Drafted slot.http head code) (hcgi : slot.isCgi = false)
    (d : ThrottleDecision) :
    if d = .reject then Carries (sendingSlot pf w slot d).http (rejectHead pf w slot.http) 503
    else Carries (sendingSlot pf w slot d).http head code := by
  obtain ⟨len, hlen⟩ := fillHeaderLen_eq slot
  have hfill : Carries { fillHeaderLen slot with bytesSent := 0 } head code := by
    have hhead := fillHeaderLen_headerLen h hcgi
    rw [hlen] at hhead ⊢
    exact ⟨h.response, h.code, hhead⟩
  cases d with
  | unlimited =>
      rw [if_neg (by simp)]
      exact hfill
  | allow tnums maxLimit minLimit =>
      rw [if_neg (by simp)]
      exact hfill
  | reject =>
      rw [if_pos rfl]
      have hmime : ({ fillHeaderLen slot with bytesSent := 0 } : HttpConn).mimeFlag = true := by
        rw [hlen]
        exact h.mime
      obtain ⟨body, hbody⟩ := errorResponse_eq pf w
        (.overLimit ({ fillHeaderLen slot with bytesSent := 0 } : HttpConn).origFilename) hmime
      refine ⟨⟨body, ?_⟩, rfl, .inl rfl⟩
      show errorResponse pf w { fillHeaderLen slot with bytesSent := 0 } _ = _
      rw [hbody, hlen]
      rfl

/-- An answer that was admitted before. -/
theorem transitionToSending_checked {pf : Platform} {w : World} {u v' : View} {head : Head}
    {code : Nat} (h : Drafted u.slot.http head code) (hcgi : u.slot.isCgi = false)
    (hchecked : u.slot.throttle.checked = true) (ht : transitionToSending pf w u = .ok v') :
    Carries v'.slot.http head code := by
  obtain ⟨⟨d, throttles⟩, hentry, ht⟩ := bind_eq_ok.mp ht
  cases ht
  rcases entryDecision_cases hentry with ⟨-, hno, -⟩ | ⟨rfl, -, -⟩
  · rw [hchecked] at hno
    cases hno
  · have hs := sendingSlot_carries pf w h hcgi .unlimited
    rwa [if_neg (by simp)] at hs

/-- The head an answer is sent with that was not, and what is kept for the log. -/
def entryHead (pf : Platform) (w : World) (throttles : Option ThrottleTable) (http : HttpConn)
    (head : Head) : Head × Nat :=
  if rejected pf throttles http.origFilename then (rejectHead pf w http, 503) else (head, 0)

theorem transitionToSending_unchecked {pf : Platform} {w : World} {u v' : View} {head : Head}
    (h : Drafted u.slot.http head 0) (hcgi : u.slot.isCgi = false)
    (hchecked : u.slot.throttle.checked = false) (ht : transitionToSending pf w u = .ok v') :
    Carries v'.slot.http (entryHead pf w u.shared.throttles u.slot.http head).1
      (entryHead pf w u.shared.throttles u.slot.http head).2 := by
  obtain ⟨⟨d, throttles⟩, hentry, ht⟩ := bind_eq_ok.mp ht
  cases ht
  have hs := sendingSlot_carries pf w h hcgi d
  rcases entryDecision_cases hentry with ⟨-, -, hask⟩ | ⟨-, -, hno⟩
  · unfold entryHead
    rw [rejected_of_askThrottle hask]
    cases d <;> exact hs
  · rw [hno hcgi] at hchecked
    cases hchecked

/-! ### The answer to a request

One definition for each function that decides about the head, in the source's order
and with its names, and one lemma that the function leaves it.
-/

/-- The head of a reply about a file. -/
def fileFullHead (pf : Platform) (w : World) (http : HttpConn) (status : Nat) (statusText : Str)
    (opened : Path) (length : Int) (node : Node) : Head :=
  fullHead pf w.unixNow http status statusText (figureMime opened).mimeType length node.attr.mtime
    (encodingHeaders (figureMime opened)) http.rangeLen

theorem fileHead_eq (pf : Platform) (w : World) {http : HttpConn} (status : Nat) (statusText : Str)
    (opened : Path) (length : Int) (node : Node) (hm : http.mimeFlag = true) :
    fileHead pf w http status statusText opened length node
      = (fileFullHead pf w http status statusText opened length node).render := by
  unfold fileHead buildFullResponse
  simp only [hm, if_true]
  rfl

/-- The head of the answer about a file that was admitted, and the status for the log. -/
def replyHead (pf : Platform) (w : World) (http : HttpConn) (opened : Path) (node : Node) :
    Head × Nat :=
  if http.method = .head then (fileFullHead pf w http 200 okText opened node.len node, 200)
  else if notModified http node then
    (fileFullHead pf w http 304 "Not Modified".toList opened (-1) node, 304)
  else if (w.mmap opened).isSome then
    (fileFullHead pf w http 200 okText opened node.len node, if http.gotRange then 206 else 200)
  else (errorHead pf w http (.notFound http.encodedUrl), 0)

/-- The head of a listing, or of the refusal when there is none. -/
def listingHead (pf : Platform) (w : World) (http : HttpConn) (opened : Path) (node : Node) : Head :=
  if (pf.generateListing w.fs opened http.origFilename).isSome then
    fullHead pf w.unixNow http 200 okText textHtml (-1) node.attr.mtime []
      (resultOf http.rangeLen (listingRangeLength pf w http node))
  else errorHead pf w http (.internalError opened.toStr)

/-- The head of the answer about a path that passed the checks. -/
def checkedHead (pf : Platform) (w : World) (throttles : Option ThrottleTable) (http : HttpConn)
    (opened : Path) (node : Node) : Head × Nat :=
  if node.isDir then entryHead pf w throttles http (listingHead pf w http opened node)
  else if rejected pf throttles http.origFilename then
    (rejectHead pf w (fillLastByte http node.len), 503)
  else replyHead pf w (fillLastByte http node.len) opened node

/-- The head of the answer about a path. -/
def staticHead (pf : Platform) (cfg : ServerConfig) (w : World) (throttles : Option ThrottleTable)
    (http : HttpConn) (file : Path) : Head × Nat :=
  match staticCheck pf cfg w http file with
  | .error e => entryHead pf w throttles http (errorHead pf w http e)
  | .ok (opened, node) => checkedHead pf w throttles http opened node

/-- The head of the answer to a request for a file. -/
def requestHead (pf : Platform) (cfg : ServerConfig) (w : World) (v : View) : Option (Head × Nat) :=
  match route pf cfg w v.slot.http with
  | .refused http e => some (entryHead pf w v.shared.throttles http (errorHead pf w http e))
  | .static http file =>
      some (staticHead pf cfg w v.shared.throttles { http with charset := cfg.charset } file)
  | .program _ => none

/-- A request on its way to an answer. -/
structure Unanswered (v : View) : Prop where
  isCgi : v.slot.isCgi = false
  checked : v.slot.throttle.checked = false
  mime : v.slot.http.mimeFlag = true
  code : v.slot.http.statusCode = 0
  headerLen : v.slot.http.responseHeaderLen = 0

theorem sendError_carries {pf : Platform} {w : World} {v v' : View} {e : ErrorReply}
    (hv : Unanswered v) (h : sendError pf w v e = .ok v') :
    Carries v'.slot.http
      (entryHead pf w v.shared.throttles v.slot.http (errorHead pf w v.slot.http e)).1
      (entryHead pf w v.shared.throttles v.slot.http (errorHead pf w v.slot.http e)).2 := by
  have hdraft : Drafted (v.respond (errorResponse pf w v.slot.http e) .none).slot.http
      (errorHead pf w v.slot.http e) 0 :=
    ⟨hv.mime, errorResponse_eq pf w e hv.mime, hv.code, .inl hv.headerLen⟩
  have hs := transitionToSending_unchecked hdraft hv.isCgi hv.checked h
  exact hs

theorem serveListing_carries {pf : Platform} {w : World} {v v' : View} {file opened : Path}
    {node : Node} (hv : Unanswered v) (h : serveListing pf w v file opened node = .ok v') :
    Carries v'.slot.http
      (entryHead pf w v.shared.throttles v.slot.http (listingHead pf w v.slot.http opened node)).1
      (entryHead pf w v.shared.throttles v.slot.http
        (listingHead pf w v.slot.http opened node)).2 := by
  unfold serveListing at h
  unfold listingHead
  cases hlist : pf.generateListing w.fs opened v.slot.http.origFilename with
  | some body =>
      rw [hlist] at h
      obtain ⟨rangeLen, hrange, h⟩ := bind_eq_ok.mp h
      rw [hrange]
      have hdraft : Drafted (listingReply pf w v file opened node body rangeLen).slot.http
          (fullHead pf w.unixNow v.slot.http 200 okText textHtml (-1) node.attr.mtime []
            rangeLen) 0 := by
        refine ⟨hv.mime, ⟨body, ?_⟩, hv.code, .inl hv.headerLen⟩
        show withBody v.slot.http (buildFullResponse pf w.unixNow v.slot.http 200 okText textHtml
          (-1) node.attr.mtime [] rangeLen) body = _
        simp only [withBody, buildFullResponse, hv.mime, if_true]
      have hs := transitionToSending_unchecked hdraft hv.isCgi hv.checked h
      exact hs
  | none =>
      rw [hlist] at h
      exact sendError_carries hv h

/-- A file that was admitted. -/
theorem replyFile_carries {pf : Platform} {w : World} {v v' : View} {file opened : Path}
    {node : Node} (hcgi : v.slot.isCgi = false) (hchecked : v.slot.throttle.checked = true)
    (hm : v.slot.http.mimeFlag = true) (hcode : v.slot.http.statusCode = 0)
    (hlen : v.slot.http.responseHeaderLen = 0)
    (h : replyFile pf w v file opened node = .ok v') :
    Carries v'.slot.http (replyHead pf w v.slot.http opened node).1
      (replyHead pf w v.slot.http opened node).2 := by
  unfold replyFile at h
  unfold replyHead
  split at h
  · rename_i hhead
    rw [if_pos hhead]
    refine transitionToSending_checked (u := headReply pf w v opened node)
      ⟨hm, ⟨[], ?_⟩, rfl, .inl hlen⟩ hcgi hchecked h
    show headOnly v.slot.http _ = _
    rw [headOnly, hm, if_pos rfl, fileHead_eq pf w _ _ _ _ _ hm, List.append_nil]
  rename_i hhead
  rw [if_neg hhead]
  split at h
  · rename_i hmod
    rw [if_pos hmod]
    refine transitionToSending_checked (u := notModifiedReply pf w v opened node)
      ⟨hm, ⟨[], ?_⟩, rfl, .inl hlen⟩ hcgi hchecked h
    show headOnly v.slot.http _ = _
    rw [headOnly, hm, if_pos rfl, fileHead_eq pf w _ _ _ _ _ hm, List.append_nil]
  rename_i hmod
  rw [if_neg hmod]
  split at h
  · rename_i data hdata
    obtain ⟨body, -, h⟩ := bind_eq_ok.mp h
    rw [if_pos (by rw [hdata]; rfl)]
    refine transitionToSending_checked (u := dataReply pf w v file opened node data body)
      ⟨hm, ⟨body, ?_⟩, rfl, .inr ?_⟩ hcgi hchecked h
    · show withBody v.slot.http _ body = _
      rw [withBody, hm, if_pos rfl, fileHead_eq pf w _ _ _ _ _ hm]
    · show (if v.slot.http.mimeFlag then (fileHead pf w v.slot.http 200 okText opened node.len
        node).length else 0) = _
      rw [hm, if_pos rfl, fileHead_eq pf w _ _ _ _ _ hm]
  · rename_i hnone
    rw [if_neg (by rw [hnone]; simp)]
    exact transitionToSending_checked (u := v.respond (errorResponse pf w v.slot.http _) .none)
      ⟨hm, errorResponse_eq pf w _ hm, hcode, .inl hlen⟩ hcgi hchecked h

/-- Filling in the end of a range changes nothing else. -/
theorem fillLastByte_keeps {β : Type} (f : HttpConn → β)
    (hf : ∀ http last, f { http with lastByteIndex := last } = f http) (http : HttpConn)
    (size : Int) : f (fillLastByte http size) = f http := by
  unfold fillLastByte
  split
  · exact hf http _
  · rfl

theorem serveFile_carries {pf : Platform} {w : World} {v v' : View} {file opened : Path}
    {node : Node} (hv : Unanswered v) (hdir : node.isDir = false)
    (h : serveFile pf w v file opened node = .ok v') :
    Carries v'.slot.http (checkedHead pf w v.shared.throttles v.slot.http opened node).1
      (checkedHead pf w v.shared.throttles v.slot.http opened node).2 := by
  obtain ⟨⟨d, throttles⟩, hask, h⟩ := bind_eq_ok.mp h
  have hm : (fillLastByte v.slot.http node.len).mimeFlag = true :=
    (fillLastByte_keeps HttpConn.mimeFlag (fun _ _ => rfl) _ _).trans hv.mime
  have hcode : (fillLastByte v.slot.http node.len).statusCode = 0 :=
    (fillLastByte_keeps HttpConn.statusCode (fun _ _ => rfl) _ _).trans hv.code
  have hlen : (fillLastByte v.slot.http node.len).responseHeaderLen = 0 :=
    (fillLastByte_keeps HttpConn.responseHeaderLen (fun _ _ => rfl) _ _).trans hv.headerLen
  have hreply : replyFile pf w (fileView v node d throttles) file opened node = .ok v' →
      Carries v'.slot.http (replyHead pf w (fillLastByte v.slot.http node.len) opened node).1
        (replyHead pf w (fillLastByte v.slot.http node.len) opened node).2 :=
    replyFile_carries (v := fileView v node d throttles) hv.isCgi
      (admittedThrottle_checked v.slot.throttle d) hm hcode hlen
  unfold checkedHead
  rw [if_neg (by simp [hdir]), rejected_of_askThrottle hask]
  cases d with
  | reject =>
      have hdraft : Drafted (overLimitReply pf w (fileView v node .reject throttles)).slot.http
          (rejectHead pf w (fillLastByte v.slot.http node.len)) 503 :=
        ⟨hm, errorResponse_eq pf w _ hm, rfl, .inl hlen⟩
      exact transitionToSending_checked hdraft hv.isCgi
        (admittedThrottle_checked v.slot.throttle .reject) h
  | unlimited => exact hreply h
  | allow tnums maxLimit minLimit => exact hreply h

theorem serveStatic_carries {pf : Platform} {cfg : ServerConfig} {w : World} {v v' : View}
    {file : Path} (hv : Unanswered v) (h : serveStatic pf cfg w v file = .ok v') :
    Carries v'.slot.http
      (staticHead pf cfg w v.shared.throttles (v.withCharset cfg).slot.http file).1
      (staticHead pf cfg w v.shared.throttles (v.withCharset cfg).slot.http file).2 := by
  have hv' : Unanswered (v.withCharset cfg) := ⟨hv.isCgi, hv.checked, hv.mime, hv.code, hv.headerLen⟩
  unfold serveStatic at h
  unfold staticHead
  cases hcheck : staticCheck pf cfg w (v.withCharset cfg).slot.http file with
  | error e =>
      rw [hcheck] at h
      have hs := sendError_carries hv' h
      exact hs
  | ok checked =>
      obtain ⟨opened, node⟩ := checked
      rw [hcheck] at h
      simp only at h ⊢
      unfold serveChecked at h
      cases hdir : node.isDir with
      | true =>
          rw [if_pos hdir] at h
          have hs := serveListing_carries hv' h
          unfold checkedHead
          rw [if_pos hdir]
          exact hs
      | false =>
          rw [if_neg (by simp [hdir])] at h
          have hs := serveFile_carries hv' hdir h
          exact hs

/-- What neither the headers nor the path decide is as the request line left it. -/
theorem route_http_keeps {β : Type} (f : HttpConn → β)
    (hr : ∀ http got first last, f { http with
      gotRange := got, firstByteIndex := first, lastByteIndex := last } = f http)
    (hm : ∀ http since, f { http with ifModifiedSince := since } = f http)
    (hh : ∀ header http, f (readFields header http) = f http)
    (hp : ∀ http filename dir info, f { http with
      origFilename := filename, vhostDir := dir, pathInfo := info } = f http)
    (pf : Platform) (cfg : ServerConfig) (w : World) (http : HttpConn) :
    f (route pf cfg w http).http = f (readRequestLine pf http) := by
  have hread := readRequest_line f hr hm hh pf http
  unfold route
  split
  · rfl
  unfold routeUrl
  split
  · exact hread
  split
  · exact hread
  · rename_i normalized _
    have hres := resolveRequest_keeps f hp pf cfg w (readRequest pf http) normalized
    unfold routePath
    split
    · exact hres.trans hread
    split
    · exact hres.trans hread
    · exact hres.trans hread

/-- A connection that was only read from is not answered. -/
theorem Untouched.unread {v : View} (hv : Untouched v) : Unanswered v := by
  obtain ⟨buf, checkedIdx, state, hhttp⟩ := hv.received
  refine ⟨hv.isCgi, hv.checked, ?_, ?_, ?_⟩
  all_goals
    rw [hhttp]
    rfl

/-- A request that is not answered yet stays so up to its route. -/
theorem Untouched.unanswered {v : View} (hv : Untouched v) {pf : Platform} (cfg : ServerConfig)
    (w : World) (hm : (readRequestLine pf v.slot.http).mimeFlag = true) :
    Unanswered (v.setHttp (route pf cfg w v.slot.http).http) := by
  obtain ⟨buf, checkedIdx, state, hhttp⟩ := hv.received
  refine ⟨hv.isCgi, hv.checked, ?_, ?_, ?_⟩
  · exact (route_http_keeps HttpConn.mimeFlag (fun _ _ _ _ => rfl) (fun _ _ => rfl) (fun _ _ => rfl)
      (fun _ _ _ _ => rfl) pf cfg w _).trans hm
  · refine (route_http_keeps HttpConn.statusCode (fun _ _ _ _ => rfl) (fun _ _ => rfl)
      (fun _ _ => rfl) (fun _ _ _ _ => rfl) pf cfg w _).trans ?_
    rw [hhttp]
    rfl
  · refine (route_http_keeps HttpConn.responseHeaderLen (fun _ _ _ _ => rfl) (fun _ _ => rfl)
      (fun _ _ => rfl) (fun _ _ _ _ => rfl) pf cfg w _).trans ?_
    rw [hhttp]
    rfl

/--
**The answer to a request for a file has the head that the request, the
configuration and the tree decide.**

`requestHead` follows the same branches as the code but makes no response and asks
nobody, so what a head says can be read off it without a run.
-/
theorem processRequest_carries {pf : Platform} {cfg : ServerConfig} {w : World} {v v' : View}
    {head : Head} {code : Nat} (hv : Untouched v)
    (hm : (readRequestLine pf v.slot.http).mimeFlag = true)
    (hhead : requestHead pf cfg w v = some (head, code))
    (h : processRequest pf cfg w v = .ok v') : Carries v'.slot.http head code := by
  have hun := hv.unanswered cfg w hm
  rw [processRequest_eq] at h
  unfold requestHead at hhead
  cases hroute : route pf cfg w v.slot.http with
  | refused http e =>
      rw [hroute] at h hhead hun
      have hs := sendError_carries hun h
      simp only [Option.some.injEq] at hhead
      rw [← Prod.eta (entryHead _ _ _ _ _), Prod.mk.injEq] at hhead
      rw [← hhead.1, ← hhead.2]
      exact hs
  | static http file =>
      rw [hroute] at h hhead hun
      have hs := serveStatic_carries hun h
      simp only [Option.some.injEq] at hhead
      rw [← Prod.eta (staticHead _ _ _ _ _ _), Prod.mk.injEq] at hhead
      rw [← hhead.1, ← hhead.2]
      exact hs
  | program http =>
      rw [hroute] at hhead
      cases hhead

/-! ### What an answer leaves alone

Some facts about a connection have nothing to do with its answer, such as the path
it was read from.  A fact that the few writes of a handler keep is kept by the
handlers, whatever they answer.
-/

/-- Something about a connection that does not depend on its answer. -/
def KeptByAnswer {β : Type} (f : HttpConn → β) : Prop :=
  ∀ (http : HttpConn) (response : Bytes) (responseLen responseHeaderLen statusCode : Nat)
    (fileAddress : Option Bytes) (bytesSent lastByteIndex : Int) (payload : Payload) (charset : Str),
    f { http with
      response := response, responseLen := responseLen, responseHeaderLen := responseHeaderLen,
      statusCode := statusCode, fileAddress := fileAddress, bytesSent := bytesSent,
      lastByteIndex := lastByteIndex, payload := payload, charset := charset } = f http

section

variable {β : Type} {f : HttpConn → β} {pf : Platform} {cfg : ServerConfig} {w : World} {v v' : View}

/-- Setting the charset keeps it. -/
theorem KeptByAnswer.charset (hf : KeptByAnswer f) (http : HttpConn) (charset : Str) :
    f { http with charset := charset } = f http := hf http _ _ _ _ _ _ _ _ charset

/-- So does putting a response in place. -/
theorem KeptByAnswer.respond (hf : KeptByAnswer f) (v : View) (response : Bytes) (payload : Payload) :
    f (v.respond response payload).slot.http = f v.slot.http :=
  hf v.slot.http response response.length _ _ _ _ _ payload _

theorem KeptByAnswer.fillLastByte (hf : KeptByAnswer f) (http : HttpConn) (size : Int) :
    f (fillLastByte http size) = f http :=
  fillLastByte_keeps f (fun http last => hf http _ _ _ _ _ _ last _ _) http size

theorem transitionToSending_keeps (hf : KeptByAnswer f) (h : transitionToSending pf w v = .ok v') :
    f v'.slot.http = f v.slot.http := by
  obtain ⟨⟨d, throttles⟩, -, h⟩ := bind_eq_ok.mp h
  cases h
  obtain ⟨len, hlen⟩ := fillHeaderLen_eq v.slot
  have hfill : f { fillHeaderLen v.slot with bytesSent := 0 } = f v.slot.http := by
    rw [hlen]
    exact hf v.slot.http _ _ len _ _ 0 _ _ _
  cases d with
  | unlimited => exact hfill
  | allow tnums maxLimit minLimit => exact hfill
  | reject =>
      refine Eq.trans ?_ hfill
      exact hf { fillHeaderLen v.slot with bytesSent := 0 } _ _ _ _ _ _ _ _ _

theorem sendError_keeps (hf : KeptByAnswer f) {e : ErrorReply} (h : sendError pf w v e = .ok v') :
    f v'.slot.http = f v.slot.http := by
  have hs := transitionToSending_keeps hf h
  exact hs.trans (hf.respond v _ _)

theorem replyFile_keeps (hf : KeptByAnswer f) {file opened : Path} {node : Node}
    (h : replyFile pf w v file opened node = .ok v') : f v'.slot.http = f v.slot.http := by
  unfold replyFile at h
  split at h
  · have hs := transitionToSending_keeps hf h
    exact hs.trans (hf v.slot.http _ _ _ 200 _ _ _ _ _)
  split at h
  · have hs := transitionToSending_keeps hf h
    exact hs.trans (hf v.slot.http _ _ _ 304 _ _ _ _ _)
  split at h
  · obtain ⟨body, -, h⟩ := bind_eq_ok.mp h
    have hs := transitionToSending_keeps hf h
    exact hs.trans (hf v.slot.http _ _ _ _ _ _ _ _ _)
  · exact sendError_keeps hf h

theorem serveFile_keeps (hf : KeptByAnswer f) {file opened : Path} {node : Node}
    (h : serveFile pf w v file opened node = .ok v') : f v'.slot.http = f v.slot.http := by
  obtain ⟨⟨d, throttles⟩, -, h⟩ := bind_eq_ok.mp h
  have hfill := hf.fillLastByte v.slot.http node.len
  cases d with
  | reject =>
      have hs := transitionToSending_keeps hf h
      refine (hs.trans ?_).trans hfill
      exact hf (fillLastByte v.slot.http node.len) _ _ _ 503 _ _ _ _ _
  | unlimited =>
      have hs := replyFile_keeps hf h
      exact hs.trans hfill
  | allow tnums maxLimit minLimit =>
      have hs := replyFile_keeps hf h
      exact hs.trans hfill

theorem serveStatic_keeps (hf : KeptByAnswer f) {file : Path}
    (h : serveStatic pf cfg w v file = .ok v') : f v'.slot.http = f v.slot.http := by
  have hcharset := hf.charset v.slot.http cfg.charset
  unfold serveStatic at h
  split at h
  · have hs := sendError_keeps hf h
    exact hs.trans hcharset
  unfold serveChecked at h
  split at h
  · unfold serveListing at h
    split at h
    · obtain ⟨rangeLen, -, h⟩ := bind_eq_ok.mp h
      have hs := transitionToSending_keeps hf h
      exact (hs.trans (hf.respond _ _ _)).trans hcharset
    · have hs := sendError_keeps hf h
      exact hs.trans hcharset
  · have hs := serveFile_keeps hf h
    exact hs.trans hcharset

theorem runCgi_keeps (hf : KeptByAnswer f) {call : CgiCall} (h : runCgi pf w v call = .ok v') :
    f v'.slot.http = f v.slot.http := by
  have hrelease : ∀ charge, (releaseCgi (cgiStarted v call) charge).slot.http = v.slot.http :=
    fun charge => releaseCgi_http (cgiStarted v call) charge
  unfold runCgi at h
  split at h
  · have hs := transitionToSending_keeps hf h
    rw [hs, hf.respond, hrelease]
  · have hs := sendError_keeps hf h
    rw [hs, hrelease]

/--
A program is told what follows its script, and that is all that changes of what is
kept.
-/
theorem dispatchCgi_keeps (hf : KeptByAnswer f) (h : dispatchCgi pf cfg w v = .ok v') :
    ∃ info, f v'.slot.http = f { v.slot.http with pathInfo := info } ∧
      (info = v.slot.http.pathInfo ∨ info = (resolveScript cfg w v.slot.http).2) := by
  have hcharset := hf.charset v.slot.http cfg.charset
  unfold dispatchCgi at h
  split at h
  · cases h
    exact ⟨_, hcharset, .inl rfl⟩
  split at h
  · have hs := sendError_keeps hf h
    exact ⟨_, hs.trans hcharset, .inl rfl⟩
  refine ⟨_, ?_, .inr rfl⟩
  have hinfo := hf.charset { v.slot.http with pathInfo := (resolveScript cfg w v.slot.http).2 }
    cfg.charset
  unfold startCgi at h
  simp only at h
  split at h
  · obtain ⟨⟨d, throttles⟩, -, h⟩ := bind_eq_ok.mp h
    cases d with
    | reject =>
        have hs := sendError_keeps hf h
        exact hs.trans hinfo
    | unlimited =>
        have hs := runCgi_keeps hf h
        exact hs.trans hinfo
    | allow tnums maxLimit minLimit =>
        have hs := runCgi_keeps hf h
        exact hs.trans hinfo
  · have hs := sendError_keeps hf h
    exact hs.trans hinfo

end

/-! ### What the replies put into a head

A header value that came from the client could end its line early.  The one reply
that puts anything of a request into a header is the 401, whose realm is a part of
the URL.
-/

/-- An error reply that puts nothing but its own lines into a head. -/
structure ErrorReply.Plain (e : ErrorReply) : Prop where
  status : 300 ≤ e.status ∧ e.status ≤ 599
  title : NoBreak e.title
  headers : ∀ p ∈ e.extraHeaders, NoBreak p.1 ∧ NoBreak p.2

namespace ErrorReply

/-- A reply that adds no header of its own. -/
theorem plain_mk {status : Nat} {title : Str} (form arg : Str) (hs : 300 ≤ status ∧ status ≤ 599)
    (ht : NoBreak title) : (ErrorReply.mk status title form arg []).Plain := by
  refine ⟨hs, ht, ?_⟩
  intro p hp
  cases hp

/-- A page without a header of its own. -/
theorem badRequest_plain (arg : Str) : (badRequest arg).Plain :=
  plain_mk _ _ (by decide) (by decide)

theorem notFound_plain (arg : Str) : (notFound arg).Plain :=
  plain_mk _ _ (by decide) (by decide)

theorem internalError_plain (arg : Str) : (internalError arg).Plain :=
  plain_mk _ _ (by decide) (by decide)

theorem notImplemented_plain (arg : Str) : (notImplemented arg).Plain :=
  plain_mk _ _ (by decide) (by decide)

theorem overLimit_plain (arg : Str) : (overLimit arg).Plain :=
  plain_mk _ _ (by decide) (by decide)

theorem tooManyCgis_plain (arg : Str) : (tooManyCgis arg).Plain :=
  plain_mk _ _ (by decide) (by decide)

theorem forbidden_plain (form arg : Str) : (forbidden form arg).Plain :=
  plain_mk _ _ (by decide) (by decide)

end ErrorReply

/-- The realm is a part of the URL. -/
theorem authRealm_subset (url : Str) : authRealm url ⊆ url := by
  unfold authRealm
  split
  · rename_i dir rest h
    obtain ⟨rfl, -⟩ := rsplitOnce_eq_some h
    exact List.Subset.trans (List.dropWhile_sublist _).subset (List.subset_append_left _ _)
  · exact List.nil_subset url

theorem unauthorizedReply_plain {url : Str} (h : NoBreak url) : (unauthorizedReply url).Plain := by
  have hstatus : 300 ≤ 401 ∧ 401 ≤ 599 := by decide
  have htitle : NoBreak err401Title := by decide
  refine ⟨hstatus, htitle, ?_⟩
  intro p hp
  rw [List.mem_singleton.mp hp]
  have hname : NoBreak "WWW-Authenticate".toList := by decide
  refine ⟨hname, ?_⟩
  exact (NoBreak.append (by decide) (h.of_subset (authRealm_subset url))).append (by decide)

/-- **Every refusal on the way to a path is plain.** -/
theorem route_refused_plain {pf : Platform} {cfg : ServerConfig} {w : World} {http http' : HttpConn}
    {e : ErrorReply} (h : route pf cfg w http = .refused http' e) : e.Plain := by
  unfold route at h
  split at h
  · rename_i e' he
    cases h
    unfold requestLineCheck at he
    split at he
    · cases he
      exact ErrorReply.badRequest_plain _
    split at he
    · cases he
      exact ErrorReply.notImplemented_plain _
    · cases he
  unfold routeUrl at h
  split at h
  · cases h
    exact ErrorReply.internalError_plain _
  split at h
  · cases h
    unfold badPathReply
    split
    · exact ErrorReply.badRequest_plain _
    · exact ErrorReply.notFound_plain _
  unfold routePath at h
  split at h
  · cases h
  split at h
  · cases h
    exact ErrorReply.forbidden_plain _ _
  · cases h

theorem statError_plain (http : HttpConn) (file : Path) (e : ErrorKind) :
    (statError http file e).Plain := by
  unfold statError
  split
  · exact ErrorReply.notFound_plain _
  split
  · exact ErrorReply.internalError_plain _
  · exact ErrorReply.forbidden_plain _ _

/-- **Every refusal of `serve_static` is plain**: the realm of a 401 is a part of the URL. -/
theorem staticCheck_error_plain {pf : Platform} {cfg : ServerConfig} {w : World} {http : HttpConn}
    {file : Path} {e : ErrorReply} (hurl : NoBreak http.encodedUrl)
    (h : staticCheck pf cfg w http file = .error e) : e.Plain := by
  rcases bind_eq_error.mp h with hpath | ⟨opened, -, h⟩
  · unfold staticPath at hpath
    split at hpath
    · cases hpath
    split at hpath
    · cases hpath
      exact ErrorReply.internalError_plain _
    split at hpath
    · cases hpath
    split at hpath
    · cases hpath
    · cases hpath
      exact ErrorReply.forbidden_plain _ _
  rcases bind_eq_error.mp h with hstat | ⟨node, -, h⟩
  · unfold statCheck at hstat
    split at hstat
    · cases hstat
    · cases hstat
      exact statError_plain _ _ _
  rcases bind_eq_error.mp h with hauth | ⟨-, -, h⟩
  · cases hres : authCheck2 pf w.fs opened http.authorization with
    | noAuthFile => rw [hres] at hauth; cases hauth
    | ok => rw [hres] at hauth; cases hauth
    | unauthorized =>
        rw [hres] at hauth
        cases hauth
        exact unauthorizedReply_plain hurl
    | forbidden =>
        rw [hres] at hauth
        cases hauth
        exact ErrorReply.forbidden_plain _ _
  rcases bind_eq_error.mp h with hnode | ⟨-, -, h⟩
  · unfold nodeCheck at hnode
    split at hnode
    · cases hnode
    unfold fileCheck at hnode
    repeat' split at hnode
    all_goals first
      | cases hnode; exact ErrorReply.forbidden_plain _ _
      | cases hnode
  · cases h

/-! ### Heads that are built for a request

`BuiltFor` is what can be said of a head whatever the answer is: the version is the
request's, and the rest is the server's own text and one charset.
-/

/-- The types and encodings of the table. -/
theorem lookupType_noBreak {ext t : Str} (h : lookupType ext = some t) : NoBreak t := by
  obtain ⟨row, hrow, rfl⟩ := Option.map_eq_some_iff.mp h
  have htable : ∀ row ∈ mimeTable, NoBreak row.2.toList := by decide +kernel
  exact htable row (List.mem_of_find?_eq_some hrow)

theorem lookupEncoding_noBreak {ext enc : Str} (h : lookupEncoding ext = some enc) :
    NoBreak enc := by
  unfold lookupEncoding at h
  repeat' split at h
  all_goals cases h
  all_goals decide

theorem walkExtensions_noBreak (exts encodings : List Str) (h : ∀ enc ∈ encodings, NoBreak enc) :
    NoBreak (walkExtensions exts encodings).1 ∧
      ∀ enc ∈ (walkExtensions exts encodings).2, NoBreak enc := by
  induction exts generalizing encodings with
  | nil =>
      have hdefault : NoBreak "application/octet-stream".toList := by decide
      exact ⟨hdefault, h⟩
  | cons ext rest ih =>
      unfold walkExtensions
      cases hext : lookupEncoding ext with
      | none =>
          simp only
          split
          · rename_i t ht
            exact ⟨lookupType_noBreak ht, h⟩
          · exact ih encodings h
      | some new =>
          have hmore : ∀ enc ∈ encodings ++ [new], NoBreak enc := by
            intro enc henc
            rcases List.mem_append.mp henc with hold | hnew
            · exact h enc hold
            · rw [List.mem_singleton.mp hnew]
              exact lookupEncoding_noBreak hext
          simp only
          split
          · rename_i t ht
            exact ⟨lookupType_noBreak ht, hmore⟩
          · exact ih _ hmore

theorem NoBreak.intercalate {ts : List Str} (h : ∀ t ∈ ts, NoBreak t) :
    NoBreak ([','].intercalate ts) := by
  induction ts with
  | nil => decide
  | cons t ts ih =>
      have hrest := ih fun t' ht' => h t' (List.mem_cons_of_mem t ht')
      have ht := h t List.mem_cons_self
      cases ts with
      | nil => simpa using ht
      | cons t' ts =>
          rw [List.intercalate_cons_cons]
          exact (ht.append (by decide)).append hrest

/-- Types and encodings are single lines. -/
theorem figureMime_noBreak (file : Path) :
    NoBreak (figureMime file).mimeType ∧
      ∀ p ∈ encodingHeaders (figureMime file), NoBreak p.1 ∧ NoBreak p.2 := by
  unfold figureMime
  cases file.fileName with
  | none => exact ⟨by decide, fun p hp => by cases hp⟩
  | some name =>
      obtain ⟨htype, hencodings⟩ :=
        walkExtensions_noBreak (name.splitOn '.').tail.reverse [] (fun enc henc => by cases henc)
      refine ⟨htype, ?_⟩
      intro p hp
      simp only [encodingHeaders] at hp
      split at hp
      · rename_i enc henc
        split at henc
        · cases henc
        cases henc
        rw [List.mem_singleton.mp hp]
        have hname : NoBreak contentEncoding := by decide
        exact ⟨hname, .intercalate hencodings⟩
      · cases hp

/-- A connection with this version and one of these charsets. -/
structure Speaks (version : Str) (charsets : List Str) (http : HttpConn) : Prop where
  version : http.httpVersion = version
  charset : http.charset ∈ charsets
  url : NoBreak http.encodedUrl

/--
A head that `build_full_response` writes, with a status, a type and headers of the
server's own.
-/
inductive BuiltFor (pf : Platform) (w : World) (version : Str) (charsets : List Str) : Head → Prop
  | head {http : HttpConn} {status : Nat} {statusText contentType : Str}
      {extra : List (Str × Str)} (length mtime rangeLen : Int) :
      Speaks version charsets http → 200 ≤ status ∧ status ≤ 599 → NoBreak statusText →
      NoBreak contentType → (∀ p ∈ extra, NoBreak p.1 ∧ NoBreak p.2) →
      BuiltFor pf w version charsets
        (fullHead pf w.unixNow http status statusText contentType length mtime extra rangeLen)

section

variable {pf : Platform} {w : World} {version : Str} {charsets : List Str} {http : HttpConn}

theorem Speaks.fillLastByte (h : Speaks version charsets http) (size : Int) :
    Speaks version charsets (fillLastByte http size) where
  version := (fillLastByte_keeps HttpConn.httpVersion (fun _ _ => rfl) _ _).trans h.version
  charset := by
    rw [fillLastByte_keeps HttpConn.charset (fun _ _ => rfl)]
    exact h.charset
  url := by
    rw [fillLastByte_keeps HttpConn.encodedUrl (fun _ _ => rfl)]
    exact h.url

theorem errorHead_builtFor (h : Speaks version charsets http) {e : ErrorReply} (he : e.Plain) :
    BuiltFor pf w version charsets (errorHead pf w http e) :=
  .head _ _ _ h ⟨Nat.le_trans (by decide) he.status.1, he.status.2⟩ he.title (by decide) he.headers

theorem entryHead_builtFor {throttles : Option ThrottleTable} (h : Speaks version charsets http)
    {head : Head} (hb : BuiltFor pf w version charsets head) :
    BuiltFor pf w version charsets (entryHead pf w throttles http head).1 := by
  unfold entryHead
  split
  · exact errorHead_builtFor h (ErrorReply.overLimit_plain _)
  · exact hb

theorem fileFullHead_builtFor (h : Speaks version charsets http) {status : Nat} {statusText : Str}
    (opened : Path) (length : Int) (node : Node) (hs : 200 ≤ status ∧ status ≤ 599)
    (ht : NoBreak statusText) :
    BuiltFor pf w version charsets (fileFullHead pf w http status statusText opened length node) :=
  .head _ _ _ h hs ht (figureMime_noBreak opened).1 (figureMime_noBreak opened).2

theorem replyHead_builtFor (h : Speaks version charsets http) (opened : Path) (node : Node) :
    BuiltFor pf w version charsets (replyHead pf w http opened node).1 := by
  unfold replyHead
  split
  · exact fileFullHead_builtFor h _ _ _ (by decide) (by decide)
  split
  · exact fileFullHead_builtFor h _ _ _ (by decide) (by decide)
  split
  · exact fileFullHead_builtFor h _ _ _ (by decide) (by decide)
  · exact errorHead_builtFor h (ErrorReply.notFound_plain _)

theorem listingHead_builtFor (h : Speaks version charsets http) (opened : Path) (node : Node) :
    BuiltFor pf w version charsets (listingHead pf w http opened node) := by
  unfold listingHead
  split
  · exact .head _ _ _ h (by decide) (by decide) (by decide) (fun p hp => by cases hp)
  · exact errorHead_builtFor h (ErrorReply.internalError_plain _)

theorem checkedHead_builtFor {throttles : Option ThrottleTable} (h : Speaks version charsets http)
    (opened : Path) (node : Node) :
    BuiltFor pf w version charsets (checkedHead pf w throttles http opened node).1 := by
  unfold checkedHead
  split
  · exact entryHead_builtFor h (listingHead_builtFor h opened node)
  split
  · exact errorHead_builtFor (h.fillLastByte _) (ErrorReply.overLimit_plain _)
  · exact replyHead_builtFor (h.fillLastByte _) opened node

theorem staticHead_builtFor {cfg : ServerConfig} {throttles : Option ThrottleTable}
    (h : Speaks version charsets http) (file : Path) :
    BuiltFor pf w version charsets (staticHead pf cfg w throttles http file).1 := by
  unfold staticHead
  split
  · rename_i e he
    exact entryHead_builtFor h (errorHead_builtFor h (staticCheck_error_plain h.url he))
  · exact checkedHead_builtFor h _ _

end

/-- The URL is one word, or the root. -/
theorem readRequestLine_url_unbroken (pf : Platform) (http : HttpConn) :
    Unbroken (readRequestLine pf http).encodedUrl := by
  show Unbroken (((requestWords http.requestBytes)[1]?).getD ['/'])
  cases hw : (requestWords http.requestBytes)[1]? with
  | none => decide
  | some w => exact unbroken_of_mem (List.mem_of_getElem? hw)

/-- The version is one word. -/
theorem readRequestLine_version_unbroken {pf : Platform} {http : HttpConn}
    (hm : (readRequestLine pf http).mimeFlag = true) :
    Unbroken (readRequestLine pf http).httpVersion ∧ (readRequestLine pf http).httpVersion ≠ [] := by
  have hsome : (requestWords http.requestBytes)[2]?.isSome = true := hm
  obtain ⟨word, hw⟩ := Option.isSome_iff_exists.mp hsome
  have hversion : (readRequestLine pf http).httpVersion = word := by
    show ((requestWords http.requestBytes)[2]?).getD _ = word
    rw [hw]
    rfl
  rw [hversion]
  have hmem := List.mem_of_getElem? hw
  exact ⟨unbroken_of_mem hmem, (mem_splitWhitespace hmem).1⟩

/-- What a request goes on with speaks as the request line says. -/
theorem route_speaks (pf : Platform) (cfg : ServerConfig) (w : World) {v : View}
    (hv : Untouched v) :
    Speaks (readRequestLine pf v.slot.http).httpVersion [defaultCharset]
      (route pf cfg w v.slot.http).http where
  version := route_http_keeps HttpConn.httpVersion (fun _ _ _ _ => rfl) (fun _ _ => rfl)
    (fun _ _ => rfl) (fun _ _ _ _ => rfl) pf cfg w _
  charset := by
    obtain ⟨buf, checkedIdx, state, hhttp⟩ := hv.received
    rw [route_http_keeps HttpConn.charset (fun _ _ _ _ => rfl) (fun _ _ => rfl)
      (fun _ _ => rfl) (fun _ _ _ _ => rfl), hhttp]
    exact List.mem_singleton.mpr rfl
  url := by
    rw [route_http_keeps HttpConn.encodedUrl (fun _ _ _ _ => rfl) (fun _ _ => rfl)
      (fun _ _ => rfl) (fun _ _ _ _ => rfl)]
    exact .of_unbroken (readRequestLine_url_unbroken pf v.slot.http)

/--
**Every head a request for a file is answered with is built for its version**, with
the charset of the configuration or the default.

A request that is refused before its file is looked at has the default charset, and
what comes after that the configured one.
-/
theorem requestHead_builtFor {pf : Platform} {cfg : ServerConfig} {w : World} {v : View}
    {head : Head} {code : Nat} (hv : Untouched v)
    (h : requestHead pf cfg w v = some (head, code)) :
    BuiltFor pf w (readRequestLine pf v.slot.http).httpVersion [defaultCharset, cfg.charset]
      head := by
  have hspeaks := route_speaks pf cfg w hv
  unfold requestHead at h
  cases hroute : route pf cfg w v.slot.http with
  | refused http e =>
      rw [hroute] at h hspeaks
      have hwide : Speaks _ [defaultCharset, cfg.charset] http :=
        ⟨hspeaks.version, List.mem_cons.mpr (.inl (List.mem_singleton.mp hspeaks.charset)),
          hspeaks.url⟩
      have hb : BuiltFor pf w (readRequestLine pf v.slot.http).httpVersion _
          (entryHead pf w v.shared.throttles http (errorHead pf w http e)).1 :=
        entryHead_builtFor hwide (errorHead_builtFor hwide (route_refused_plain hroute))
      rwa [Option.some.inj h] at hb
  | static http file =>
      rw [hroute] at h hspeaks
      have hwide : Speaks (readRequestLine pf v.slot.http).httpVersion [defaultCharset, cfg.charset]
          { http with charset := cfg.charset } :=
        ⟨hspeaks.version, by simp, hspeaks.url⟩
      have hb : BuiltFor pf w (readRequestLine pf v.slot.http).httpVersion _
          (staticHead pf cfg w v.shared.throttles { http with charset := cfg.charset } file).1 :=
        staticHead_builtFor hwide file
      rwa [Option.some.inj h] at hb
  | program http =>
      rw [hroute] at h
      cases h

/-- A request for a file has a head. -/
theorem requestHead_isSome {pf : Platform} {cfg : ServerConfig} {w : World} {v : View}
    (h : (route pf cfg w v.slot.http).isProgram = false) :
    ∃ head code, requestHead pf cfg w v = some (head, code) := by
  unfold requestHead
  cases hroute : route pf cfg w v.slot.http with
  | refused http e => exact ⟨_, _, rfl⟩
  | static http file => exact ⟨_, _, rfl⟩
  | program http =>
      rw [hroute] at h
      cases h

/-- A request for a file is answered at once. -/
theorem processRequest_answers {pf : Platform} {cfg : ServerConfig} {w : World} {v v' : View}
    (hroute : (route pf cfg w v.slot.http).isProgram = false)
    (h : processRequest pf cfg w v = .ok v') :
    ∃ http u, Answers pf cfg w (v.setHttp http) u v' := by
  rw [processRequest_eq] at h
  cases hr : route pf cfg w v.slot.http with
  | refused http e =>
      rw [hr] at h
      exact ⟨http, sendError_answers h⟩
  | static http file =>
      rw [hr] at h
      exact ⟨http, serveStatic_answers h⟩
  | program http =>
      rw [hr] at hroute
      cases hroute

end Thttpd
