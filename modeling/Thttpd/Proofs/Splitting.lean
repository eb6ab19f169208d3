/-
No response is split.

The text of a client gets into a header block in two places: the protocol word of the
status line and the directory of the URL in the realm of a 401.  Both come from the
words of the request line, which hold no white space, so no line of the block is
broken and the blank line stands at its end only.  Then the length that is found by
looking for the blank line is the true one, and what is counted behind it at the end
are the bytes of the body.

A header block is judged as bytes: where the blank line is first found is where the
block ends.  The texts in a head that a client can choose were all read off the
request line, so the branch a response came from makes no difference to the
argument.
-/
import Thttpd.Proofs.Status
import Thttpd.Proofs.Tdate

namespace Thttpd

open Text Fs

/-! ### Header blocks

The first blank line is the last four bytes.
-/

/-- A header block whose blank line is its end and nothing else. -/
structure HeaderBlock (headers : Bytes) : Prop where
  blank : blankLine <:+ headers
  only : ∀ i, blankLine <+: headers.drop i → i + 4 = headers.length
  crlf : CrLfOnly headers
  found : ∀ body, headerEndOffset (headers ++ body) = some headers.length

theorem Head.Clean.headerBlock {h : Head} (hc : h.Clean) : HeaderBlock h.render :=
  ⟨by rw [h.render_eq_block]; exact blankLine_suffix h.lines_ne_nil, fun _ hi => hc.blankLine_at_end hi, hc.crLfOnly, hc.headerEndOffset⟩

/-! ### Heads of one request

Whatever a client can choose of a head is a word of its request line, and a word
holds no white space and so no line end.  The dates are those the server formats
itself.
-/

/--
The dates of a platform are those of `format_http_date`.  Where a build with overflow
checks aborts, nothing is sent.
-/
def DatesFormatted (pf : Platform) : Prop :=
  ∀ timestamp, formatHttpDate false timestamp = .ok (pf.formatHttpDate timestamp)

theorem fixedType_noBreak {charset contentType : Str} (hc : NoBreak charset)
    (ht : NoBreak contentType) : NoBreak (fixedType charset contentType) := by
  have hcharset : NoBreak (if charset = [] then defaultCharset else charset) := by
    split
    · decide
    · exact hc
  unfold fixedType
  simp only
  split
  · exact (ht.append (by decide)).append hcharset
  · exact ht

/-- Every header line is text of one line, if what is put into it is. -/
theorem fullHead_headers_noBreak {pf : Platform} {now : Int} {http : HttpConn} {status : Nat}
    {statusText contentType : Str} {length mtime rangeLen : Int} {extra : List (Str × Str)}
    (hdate : ∀ t, NoBreak (pf.formatHttpDate t)) (hcharset : NoBreak http.charset)
    (htype : NoBreak contentType) (hextra : ∀ p ∈ extra, NoBreak p.1 ∧ NoBreak p.2) :
    ∀ p ∈ (fullHead pf now http status statusText contentType length mtime extra rangeLen).headers,
      NoBreak p.1 ∧ NoBreak p.2 := by
  have hfixed : NoBreak "Content-Type".toList ∧ NoBreak "Date".toList ∧
      NoBreak "Last-Modified".toList := by decide
  have hlengths : NoBreak "Content-Range".toList ∧ NoBreak "Content-Length".toList := by decide
  have hencoding : NoBreak contentEncoding := by decide
  intro p hp
  simp only [fullHead, List.mem_append] at hp
  generalize modTime now mtime = modTime at hp
  rcases hp with (((hp | hp) | hp) | hp) | hp
  · simp only [List.mem_cons, List.not_mem_nil, or_false] at hp
    rcases hp with rfl | rfl | rfl | rfl | rfl | rfl
    · decide
    · exact ⟨hfixed.1, fixedType_noBreak hcharset htype⟩
    · exact ⟨hfixed.2.1, hdate _⟩
    · exact ⟨hfixed.2.2, hdate _⟩
    · decide
    · decide
  · generalize (if partialContent http status length modTime = true then 206 else status) = final
      at hp
    split at hp
    · rw [List.mem_singleton.mp hp]
      decide
    · cases hp
  · obtain ⟨q, hq, rfl⟩ := List.mem_map.mp hp
    exact ⟨hencoding, (hextra q (List.mem_filter.mp hq).1).2⟩
  · split at hp
    · simp only [List.mem_cons, List.not_mem_nil, or_false] at hp
      rcases hp with rfl | rfl
      · have hdash : NoBreak ['-'] := by decide
        have hslash : NoBreak ['/'] := by decide
        have hbytes : NoBreak "bytes ".toList := by decide
        exact ⟨hlengths.1, ((((hbytes.append (intStr_noBreak _)).append hdash).append
          (intStr_noBreak _)).append hslash).append (intStr_noBreak _)⟩
      · exact ⟨hlengths.2, intStr_noBreak _⟩
    split at hp
    · rw [List.mem_singleton.mp hp]
      exact ⟨hlengths.2, intStr_noBreak _⟩
    · cases hp
  · exact hextra p (List.mem_filter.mp hp).1

/--
**A head built for a request is clean**: its version is a word, and the charset and
the dates are text of one line.

The other texts of a head are the server's own.
-/
theorem BuiltFor.clean {pf : Platform} {w : World} {version : Str} {charsets : List Str} {head : Head}
    (hdates : DatesFormatted pf) (hcs : ∀ c ∈ charsets, NoBreak c) (hu : Unbroken version)
    (h : BuiltFor pf w version charsets head) : head.Clean := by
  have hdate : ∀ t, NoBreak (pf.formatHttpDate t) := fun t => formatHttpDate_noBreak (hdates t)
  cases h with
  | @head http status statusText contentType extra length mtime rangeLen hspeaks hstatus htext htype hextra =>
      refine ⟨?_, ?_, ?_⟩
      · show NoBreak (if http.httpVersion = [] then "HTTP/1.0".toList else http.httpVersion)
        split
        · decide
        · rw [hspeaks.version]
          exact .of_unbroken hu
      · obtain ⟨part, -, -, ht⟩ := fullHead_first pf w.unixNow http status statusText contentType
          length mtime extra rangeLen
        rw [ht]
        split
        · decide
        · exact htext
      · exact fullHead_headers_noBreak hdate (hcs _ hspeaks.charset) htype hextra

/-! ### Responses that are framed

The number of bytes after the head is computed from the length of the head, which is
found by a search.  If the search finds the end of the block, what is logged is what
was written behind it.
-/

/-- A connection on which the bytes after the head are counted. -/
structure Accounted (head : Head) (slot : ConnSlot) : Prop where
  headerLen : slot.http.responseHeaderLen = head.render.length
  written : ∃ stream, slot.stream = some stream ∧ stream.written <+: slot.http.response
  logged : ∀ stream shared entry, slot.stream = some stream →
    (closeConnection ⟨shared, slot⟩).shared.accessLog = shared.accessLog ++ [entry] →
    entry.bytesSent = ((stream.written.drop head.render.length).length : Int)

/--
A response with this head, whose end is where it seems to be.  Unless a program was
started for it, the bytes after the head are what is logged, whenever the connection
is closed.
-/
structure Framed (pf : Platform) (cfg : ServerConfig) (head : Head) (slot : ConnSlot) : Prop where
  block : HeaderBlock head.render
  response : ∃ body, slot.http.response = head.render ++ body
  accounted : slot.isCgi = false → ∀ slot', ConnRun pf cfg slot slot' → Accounted head slot'

theorem Carries.headerLen_of_clean {http : HttpConn} {head : Head} {code : Nat} (hc : head.Clean)
    (h : Carries http head code) : http.responseHeaderLen = head.render.length := by
  rcases h.headerLen with hfound | hknown
  · obtain ⟨body, hbody⟩ := h.response
    rw [hfound, hbody, hc.headerEndOffset]
    rfl
  · exact hknown

/-- What is logged of a response on its way is what was written after the head. -/
theorem accounted_of_inFlight {slot : ConnSlot} {head : Head} (hin : InFlight slot)
    (hlen : slot.http.responseHeaderLen = head.render.length) : Accounted head slot := by
  obtain ⟨stream, hstream, hwritten⟩ := hin.written
  refine ⟨hlen, ⟨stream, hstream, ?_⟩, ?_⟩
  · rw [hwritten]
    exact List.take_prefix _ _
  · intro stream' shared entry hstream' happend
    cases hstream.symm.trans hstream'
    have hentry : entry.bytesSent = max (slot.http.bytesSent - slot.http.responseHeaderLen) 0 := by
      rw [closeConnection_entry happend]
      rfl
    have hlower := hin.lower
    have hupper := hin.upper
    rw [hin.length] at hupper
    rw [hentry, hlen, hwritten, List.length_drop, List.length_take]
    omega

/--
**A response with a clean head is framed**, from its answer to its end.

Being framed is a statement about the rest of the connection's life: whatever steps
follow, what is logged is what was written behind the head.
-/
theorem Carries.framed {pf : Platform} {cfg : ServerConfig} {slot : ConnSlot} {head : Head}
    {code : Nat} (hc : head.Clean) (h : Carries slot.http head code) (hs : slot.state.Answering)
    (hd : Delivery slot) : Framed pf cfg head slot := by
  refine ⟨hc.headerBlock, h.response, ?_⟩
  intro _ slot' hrun
  have hstays := hrun.stays hs
  exact accounted_of_inFlight ((hstays.delivery hd).answering hstays.answering)
    ((h.same hstays.same).headerLen_of_clean hc)

/-! ### The pages of a request for a program

A program writes its own head, which is not looked at here.  Before and after its
call the server may answer with a page of its own, and these are like any other
page.
-/

/-- The head of an error page that the table may refuse. -/
def pageHead (pf : Platform) (w : World) (v : View) (e : ErrorReply) : Head :=
  (entryHead pf w v.shared.throttles v.slot.http (errorHead pf w v.slot.http e)).1

/-- The head the server puts in front of a call: none if the program answers. -/
def callHead (pf : Platform) (w : World) (v : View) (call : CgiCall) : Option Head :=
  match w.execCgi call with
  | some _ => none
  | none => some (errorHead pf w v.slot.http (.internalError v.slot.http.encodedUrl))

/-- The same for a script that is there. -/
def admitHead (pf : Platform) (cfg : ServerConfig) (w : World) (v : View) (script pathInfo : Str) :
    Option Head :=
  match askThrottle pf v.shared.throttles script with
  | .ok (.reject, throttles) =>
      some (pageHead pf w (v.admitted throttles v.slot.throttle) (.overLimit v.slot.http.encodedUrl))
  | _ => callHead pf w v (cgiCall cfg w v.slot script pathInfo)

/-- The same for a request whose body is there. -/
def startHead (pf : Platform) (cfg : ServerConfig) (w : World) (v : View) : Option Head :=
  let (script, pathInfo) := resolveScript cfg w v.slot.http
  if runnable cfg w script then admitHead pf cfg w (beginCgi v pathInfo) script pathInfo
  else some (pageHead pf w (beginCgi v pathInfo) (.notFound v.slot.http.encodedUrl))

/--
The head of the page a request for a program is answered with, if it is not the
program that answers and the body is there.
-/
def programHead (pf : Platform) (cfg : ServerConfig) (w : World) (v : View) : Option Head :=
  if bodyPending v.slot.http then none
  else if cgiLimitReached cfg v.shared then
    some (pageHead pf w (v.withCharset cfg) (.tooManyCgis v.slot.http.encodedUrl))
  else startHead pf cfg w (v.withCharset cfg)

/-- The answer has this head, or it is a program's, or the body is waited for. -/
def FramedBy (pf : Platform) (cfg : ServerConfig) (v : View) : Option Head → Prop
  | some head => Framed pf cfg head v.slot
  | none => v.slot.pendingCgiBody = true ∨
      v.slot.isCgi = true ∧ ∃ script output, v.slot.http.response = cgiResponse script output

/-- A request on its way to an answer, with what may be put into its head. -/
structure Ready (version : Str) (charsets : List Str) (v : View) : Prop where
  unanswered : Unanswered v
  speaks : Speaks version charsets v.slot.http
  stream : v.slot.stream = some ⟨[]⟩

section

variable {pf : Platform} {cfg : ServerConfig} {w : World} {version : Str} {charsets : List Str}
variable {v v' : View}

theorem Ready.withCharset (h : Ready version charsets v) (hc : cfg.charset ∈ charsets) :
    Ready version charsets (v.withCharset cfg) :=
  ⟨⟨h.unanswered.isCgi, h.unanswered.checked, h.unanswered.mime, h.unanswered.code,
    h.unanswered.headerLen⟩, ⟨h.speaks.version, hc, h.speaks.url⟩, h.stream⟩

theorem Ready.beginCgi (h : Ready version charsets v) (pathInfo : Str) :
    Ready version charsets (beginCgi v pathInfo) :=
  ⟨⟨h.unanswered.isCgi, h.unanswered.checked, h.unanswered.mime, h.unanswered.code,
    h.unanswered.headerLen⟩, ⟨h.speaks.version, h.speaks.charset, h.speaks.url⟩, h.stream⟩

/-- The rest of the server is of no matter. -/
theorem Ready.withShared (h : Ready version charsets v) (shared : Shared) :
    Ready version charsets ⟨shared, v.slot⟩ :=
  ⟨⟨h.unanswered.isCgi, h.unanswered.checked, h.unanswered.mime, h.unanswered.code,
    h.unanswered.headerLen⟩, h.speaks, h.stream⟩

/-- A program's response is not asked about again. -/
theorem transitionToSending_program (hcgi : v.slot.isCgi = true)
    (h : transitionToSending pf w v = .ok v') :
    v'.slot.isCgi = true ∧ v'.slot.http.response = v.slot.http.response := by
  obtain ⟨⟨d, throttles⟩, hentry, h⟩ := bind_eq_ok.mp h
  cases h
  obtain ⟨len, hlen⟩ := fillHeaderLen_eq v.slot
  rcases entryDecision_cases hentry with ⟨hno, -, -⟩ | ⟨rfl, -, -⟩
  · rw [hcgi] at hno
    cases hno
  · refine ⟨(sendingSlot_isCgi pf w v.slot .unlimited).trans hcgi, ?_⟩
    show (fillHeaderLen v.slot).response = _
    rw [hlen]

variable (hdates : DatesFormatted pf) (hcs : ∀ c ∈ charsets, NoBreak c) (hu : Unbroken version)

include hdates hcs hu

theorem sendError_framed (hv : Ready version charsets v) {e : ErrorReply} (he : e.Plain)
    (h : sendError pf w v e = .ok v') : Framed pf cfg (pageHead pf w v e) v'.slot := by
  have hbuilt : BuiltFor pf w version charsets (pageHead pf w v e) :=
    entryHead_builtFor hv.speaks (errorHead_builtFor hv.speaks he)
  have hcarries : Carries v'.slot.http (pageHead pf w v e) _ := sendError_carries hv.unanswered h
  have hanswers : ∃ u, Answers pf cfg w v u v' := sendError_answers h
  obtain ⟨u, hanswers⟩ := hanswers
  exact hcarries.framed (hbuilt.clean hdates hcs hu) hanswers.answering (hanswers.delivery hv.stream)

/-- A call that fails is answered with a page, whose bytes count as a program's. -/
theorem runCgi_framed (hv : Ready version charsets v) {call : CgiCall}
    (h : runCgi pf w v call = .ok v') : FramedBy pf cfg v' (callHead pf w v call) := by
  have hsent : ∀ charge response,
      transitionToSending pf w ((releaseCgi (cgiStarted v call) charge).respond response .none)
        = .ok v' → v'.slot.isCgi = true ∧ v'.slot.http.response = response :=
    fun charge _ => transitionToSending_program (releaseCgi_keeps (cgiStarted v call) charge).1
  have hhttp : ∀ charge, (releaseCgi (cgiStarted v call) charge).slot.http = v.slot.http :=
    fun charge => releaseCgi_http (cgiStarted v call) charge
  unfold runCgi at h
  unfold callHead
  cases hexec : w.execCgi call with
  | some out =>
      rw [hexec] at h
      have hprogram := hsent (some cgiBytecount) _ h
      exact .inr ⟨hprogram.1, _, _, hprogram.2⟩
  | none =>
      rw [hexec] at h
      have hprogram := hsent none _ h
      have hbuilt : BuiltFor pf w version charsets
          (errorHead pf w v.slot.http (.internalError v.slot.http.encodedUrl)) :=
        errorHead_builtFor hv.speaks (ErrorReply.internalError_plain _)
      refine ⟨(hbuilt.clean hdates hcs hu).headerBlock, ?_, ?_⟩
      · obtain ⟨body, hbody⟩ := errorResponse_eq pf w
          (.internalError v.slot.http.encodedUrl) hv.unanswered.mime
        refine ⟨body, hprogram.2.trans ?_⟩
        rw [hhttp, hbody]
      · intro hno
        rw [hprogram.1] at hno
        cases hno

theorem admitCgi_framed (hv : Ready version charsets v) {script pathInfo : Str}
    (h : admitCgi pf cfg w v script pathInfo = .ok v') :
    FramedBy pf cfg v' (admitHead pf cfg w v script pathInfo) := by
  obtain ⟨⟨d, throttles⟩, hask, h⟩ := bind_eq_ok.mp h
  unfold admitHead
  rw [hask]
  cases d with
  | reject =>
      exact sendError_framed hdates hcs hu (v := endCgi (v.admitted throttles v.slot.throttle)) (hv.withShared _)
        (ErrorReply.overLimit_plain _) h
  | unlimited =>
      exact runCgi_framed hdates hcs hu (v := v.admitted throttles v.slot.throttle) (hv.withShared _) h
  | allow tnums maxLimit minLimit =>
      have hready : Ready version charsets (v.admitted throttles { v.slot.throttle with tnums := tnums }) :=
        ⟨⟨hv.unanswered.isCgi, hv.unanswered.checked, hv.unanswered.mime, hv.unanswered.code,
          hv.unanswered.headerLen⟩, hv.speaks, hv.stream⟩
      exact runCgi_framed hdates hcs hu hready h

theorem startCgi_framed (hv : Ready version charsets v) (h : startCgi pf cfg w v = .ok v') :
    FramedBy pf cfg v' (startHead pf cfg w v) := by
  unfold startCgi at h
  unfold startHead
  simp only at h ⊢
  split at h
  · rename_i hrun
    rw [if_pos hrun]
    exact admitCgi_framed hdates hcs hu (hv.beginCgi _) h
  · rename_i hrun
    rw [if_neg hrun]
    have hready := (hv.beginCgi (resolveScript cfg w v.slot.http).2).withShared
      (endCgi (beginCgi v (resolveScript cfg w v.slot.http).2)).shared
    exact sendError_framed hdates hcs hu hready (ErrorReply.notFound_plain _) h

/--
**A request for a program is answered with a framed page, or by the program.**

Which head it is, is decided by the same checks in the same order, so it can be
named beforehand.
-/
theorem dispatchCgi_framed (hv : Ready version charsets v) (hc : cfg.charset ∈ charsets)
    (h : dispatchCgi pf cfg w v = .ok v') : FramedBy pf cfg v' (programHead pf cfg w v) := by
  have hready := hv.withCharset hc
  unfold dispatchCgi at h
  unfold programHead
  split at h
  · rename_i hpending
    rw [if_pos hpending]
    cases h
    exact .inl rfl
  rename_i hpending
  rw [if_neg hpending]
  split at h
  · rename_i hlimit
    rw [if_pos hlimit]
    exact sendError_framed hdates hcs hu hready (ErrorReply.tooManyCgis_plain _) h
  · rename_i hlimit
    rw [if_neg hlimit]
    exact startCgi_framed hdates hcs hu hready h

end

/-! ### Requests

A request with a version, from its last byte to the answer, also when a body is
waited for in between.
-/

/-- The head the server answers a request with at once. -/
def answerHead (pf : Platform) (cfg : ServerConfig) (w : World) (v : View) : Option Head :=
  match route pf cfg w v.slot.http with
  | .program http => programHead pf cfg w (v.setHttp http)
  | _ => (requestHead pf cfg w v).map Prod.fst

/--
The connection of a request whose body is waited for: more bytes may come, and the
rest of the server goes on.
-/
inductive AwaitsBody (pf : Platform) (cfg : ServerConfig) (w : World) (v : View) : View → Prop
  | first {u : View} : processRequest pf cfg w v = .ok u → u.slot.pendingCgiBody = true →
      AwaitsBody pf cfg w v u
  | more {u : View} (shared : Shared) (bytes : Bytes) : AwaitsBody pf cfg w v u →
      AwaitsBody pf cfg w v ⟨shared, { u.slot with http := u.slot.http.receive bytes }⟩

/-- The head of the refusal when the buffer is full. -/
def refusalHead (pf : Platform) (w : World) (v : View) : Head :=
  (entryHead pf w v.shared.throttles v.slot.http (unparsedHead v.slot.http.userAgent)).1

section

variable {pf : Platform} {cfg : ServerConfig} {w : World} {v : View}

/-- A request is ready when its route is known. -/
theorem Untouched.ready (cfg : ServerConfig) (w : World) (hv : Untouched v)
    (hstream : v.slot.stream = some ⟨[]⟩)
    (hm : (readRequestLine pf v.slot.http).mimeFlag = true) :
    Ready (readRequestLine pf v.slot.http).httpVersion [defaultCharset, cfg.charset]
      (v.setHttp (route pf cfg w v.slot.http).http) := by
  have hspeaks := route_speaks pf cfg w hv
  refine ⟨hv.unanswered cfg w hm, ⟨hspeaks.version, ?_, hspeaks.url⟩, hstream⟩
  exact List.mem_cons.mpr (.inl (List.mem_singleton.mp hspeaks.charset))

/-- Only a program's body is waited for. -/
theorem processRequest_waits {u : View} (hv : Untouched v) (h : processRequest pf cfg w v = .ok u)
    (hp : u.slot.pendingCgiBody = true) :
    u = awaitBody ((v.setHttp (route pf cfg w v.slot.http).http).withCharset cfg) := by
  rw [processRequest_eq] at h
  cases hroute : route pf cfg w v.slot.http with
  | refused http e =>
      rw [hroute] at h
      have hs := congrArg (fun s => s.2.2) (sendError_sent h)
      cases hp.symm.trans (hs.trans hv.pending)
  | static http file =>
      rw [hroute] at h
      have hs := serveStatic_sent (v := v.setHttp http) hv.isCgi hv.checked h
      cases hp.symm.trans ((congrArg (fun s => s.2.2) hs).trans hv.pending)
  | program http =>
      rw [hroute] at h
      cases hbody : bodyPending http with
      | true => exact dispatchCgi_pending (v := v.setHttp http) hbody h
      | false =>
          have hran := dispatchCgi_ran (v := v.setHttp http) hbody h
          cases hp.symm.trans (hran.pending.trans hv.pending)

/-- A request that waits for its body stays ready. -/
theorem AwaitsBody.ready {u : View} (hv : Untouched v) (hstream : v.slot.stream = some ⟨[]⟩)
    (hm : (readRequestLine pf v.slot.http).mimeFlag = true) (h : AwaitsBody pf cfg w v u) :
    Ready (readRequestLine pf v.slot.http).httpVersion [defaultCharset, cfg.charset] u := by
  induction h with
  | first hproc hp =>
      rw [processRequest_waits hv hproc hp]
      have hready := (hv.ready cfg w hstream hm).withCharset (List.mem_cons_of_mem _ (.head _))
      exact ⟨⟨hready.unanswered.isCgi, hready.unanswered.checked, hready.unanswered.mime,
        hready.unanswered.code, hready.unanswered.headerLen⟩, hready.speaks, hready.stream⟩
  | more shared bytes _ ih =>
      exact ⟨⟨ih.unanswered.isCgi, ih.unanswered.checked, ih.unanswered.mime, ih.unanswered.code,
        ih.unanswered.headerLen⟩, ⟨ih.speaks.version, ih.speaks.charset, ih.speaks.url⟩, ih.stream⟩

theorem unparsedHead_clean (userAgent : Str) : (unparsedHead userAgent).Clean := by
  have hfirst : NoBreak "HTTP/1.0".toList ∧ NoBreak "Bad Request".toList := by decide
  have htype : NoBreak "Content-Type".toList ∧ NoBreak textHtml := by decide
  have hlength : NoBreak "Content-Length".toList := by decide
  unfold unparsedHead
  generalize (unparsedPage userAgent).length = n
  refine ⟨hfirst.1, hfirst.2, ?_⟩
  intro p hp
  rcases List.mem_cons.mp hp with rfl | hp
  · exact htype
  · rw [List.mem_singleton.mp hp]
    exact ⟨hlength, natStr_noBreak n⟩

theorem refuseUnparsed_framed {version : Str} {charsets : List Str} (hdates : DatesFormatted pf)
    (hcs : ∀ c ∈ charsets, NoBreak c) (hu : Unbroken version) (hv : Ready version charsets v)
    {out : Outcome} {slot : ConnSlot} (h : refuseUnparsed pf w v = .ok out)
    (hslot : out.slot = some slot) : Framed pf cfg (refusalHead pf w v) slot := by
  obtain ⟨hcarries, hanswering⟩ := refuseUnparsed_carries hv.unanswered h hslot
  have hclean : (refusalHead pf w v).Clean := by
    have hreject : BuiltFor pf w version charsets (rejectHead pf w v.slot.http) :=
      errorHead_builtFor hv.speaks (ErrorReply.overLimit_plain _)
    unfold refusalHead entryHead
    split
    · exact hreject.clean hdates hcs hu
    · exact unparsedHead_clean _
  have hdelivery : Delivery slot := by
    obtain ⟨v', hsend, h⟩ := bind_eq_ok.mp h
    cases h
    cases hslot
    have hlen : ∀ response, (v.respond response .none).slot.http.responseLen
        = (v.respond response .none).slot.http.response.length := fun _ => rfl
    exact transitionToSending_delivery (hlen _) hv.stream rfl hsend
  exact Carries.framed hclean hcarries hanswering hdelivery

theorem charsets_noBreak (hcharset : NoBreak cfg.charset) :
    ∀ c ∈ [defaultCharset, cfg.charset], NoBreak c := by
  have hdefault : NoBreak defaultCharset := by decide
  simp [hdefault, hcharset]

/-- A request for a file is answered with a framed response. -/
theorem processRequest_framed (hdates : DatesFormatted pf) (hcharset : NoBreak cfg.charset)
    (hv : Untouched v) (hstream : v.slot.stream = some ⟨[]⟩)
    (hm : (readRequestLine pf v.slot.http).mimeFlag = true)
    (hroute : (route pf cfg w v.slot.http).isProgram = false) {v' : View}
    (h : processRequest pf cfg w v = .ok v') :
    FramedBy pf cfg v' ((requestHead pf cfg w v).map Prod.fst) := by
  have hcs := charsets_noBreak hcharset
  obtain ⟨head, code, hhead⟩ := requestHead_isSome hroute
  obtain ⟨http, u, hanswers⟩ := processRequest_answers hroute h
  rw [hhead]
  have hclean := (requestHead_builtFor hv hhead).clean hdates hcs
    (readRequestLine_version_unbroken hm).1
  exact (processRequest_carries hv hm hhead h).framed hclean hanswers.answering
    (hanswers.delivery hstream)

/--
**No response is split, and its head is as long as it is counted.**  This holds of
the answer to every request with a protocol version, also of the pages that stand in
for a program and of those that come after the wait for a body.

The first part is about requests that are answered at once, the second about those
whose body is waited for, at whatever moment it arrives or the buffer is full.
-/
theorem responses_framed (hdates : DatesFormatted pf) (hcharset : NoBreak cfg.charset)
    (hv : Untouched v) (hstream : v.slot.stream = some ⟨[]⟩)
    (hm : (readRequestLine pf v.slot.http).mimeFlag = true) :
    (∀ v', processRequest pf cfg w v = .ok v' → FramedBy pf cfg v' (answerHead pf cfg w v)) ∧
    ∀ u, AwaitsBody pf cfg w v u →
      (∀ w' v', dispatchCgi pf cfg w' (bodyArrived u) = .ok v' →
        FramedBy pf cfg v' (programHead pf cfg w' (bodyArrived u))) ∧
      ∀ w' out slot, refuseUnparsed pf w' u = .ok out → out.slot = some slot →
        Framed pf cfg (refusalHead pf w' u) slot := by
  have hcs := charsets_noBreak hcharset
  have hu := (readRequestLine_version_unbroken hm).1
  have hmem : cfg.charset ∈ [defaultCharset, cfg.charset] := List.mem_cons_of_mem _ (.head _)
  constructor
  · intro v' h
    have hready := hv.ready cfg w hstream hm
    have hfile := fun hroute => processRequest_framed hdates hcharset hv hstream hm hroute h
    rw [processRequest_eq] at h
    unfold answerHead
    cases hroute : route pf cfg w v.slot.http with
    | refused http e =>
        rw [hroute] at hfile
        exact hfile rfl
    | static http file =>
        rw [hroute] at hfile
        exact hfile rfl
    | program http =>
        rw [hroute] at h hready
        exact dispatchCgi_framed hdates hcs hu hready hmem h
  · intro u hwaits
    have hready := hwaits.ready hv hstream hm
    refine ⟨?_, fun w' out slot h hslot => refuseUnparsed_framed hdates hcs hu hready h hslot⟩
    intro w' v' h
    have harrived : Ready (readRequestLine pf v.slot.http).httpVersion
        [defaultCharset, cfg.charset] (bodyArrived u) :=
      ⟨⟨hready.unanswered.isCgi, hready.unanswered.checked, hready.unanswered.mime,
        hready.unanswered.code, hready.unanswered.headerLen⟩, hready.speaks, hready.stream⟩
    exact dispatchCgi_framed hdates hcs hu harrived hmem h

end

/-! ### Requests that show it

One request that is answered with a block, and one without a version that is
answered with none.
-/

/-- A platform that formats dates as `format_http_date` does. -/
def Platform.dated : Platform :=
  { Platform.epoch with
    formatHttpDate := fun timestamp => resultOf [] (Thttpd.formatHttpDate false timestamp) }

theorem dated_formats : DatesFormatted Platform.dated := by
  intro timestamp
  obtain ⟨date, hdate⟩ := formatHttpDate_unchecked timestamp
  show _ = Except.ok (resultOf [] (Thttpd.formatHttpDate false timestamp))
  rw [hdate]
  rfl

/-- A request for a file below a name that is no directory. -/
def wordyRequest : String := "GET /f.txt/x HTTP/1.0;a=b\r\nHost: h\r\n\r\n"

/-- The answer to it. -/
def wordyAnswer : View :=
  resultOf (requestView wordyRequest)
    (processRequest .dated wwwConfig (World.still tenByteTree) (requestView wordyRequest))

/-- It is answered, with a framed response. -/
theorem responses_framed_sample :
    processRequest .dated wwwConfig (World.still tenByteTree) (requestView wordyRequest)
      = .ok wordyAnswer ∧
    ∃ head, answerHead .dated wwwConfig (World.still tenByteTree) (requestView wordyRequest)
        = some head ∧ Framed .dated wwwConfig head wordyAnswer.slot := by
  have hanswered : processRequest .dated wwwConfig (World.still tenByteTree)
      (requestView wordyRequest) = .ok wordyAnswer := eq_ok_of_panicOf _ (by decide +kernel)
  have hsome : (answerHead .dated wwwConfig (World.still tenByteTree)
      (requestView wordyRequest)).isSome = true := by decide +kernel
  have hcharset : NoBreak wwwConfig.charset := by decide
  have hmime : (readRequestLine .dated (requestView wordyRequest).slot.http).mimeFlag = true := by
    decide +kernel
  have hstream : (requestView wordyRequest).slot.stream = some ⟨[]⟩ := rfl
  have huntouched := requestView_untouched wordyRequest
  obtain ⟨head, hhead⟩ := Option.isSome_iff_exists.mp hsome
  refine ⟨hanswered, head, hhead, ?_⟩
  clear hsome
  -- what is known of the request is enough, and its text must not be evaluated again
  generalize requestView wordyRequest = v at hanswered hmime hstream huntouched hhead
  generalize wordyAnswer = v' at hanswered ⊢
  have hframed := (responses_framed dated_formats hcharset huntouched hstream hmime).1 v' hanswered
  rw [hhead] at hframed
  exact hframed

/-- A request without a protocol version. -/
def bareRequest : String := "GET /f.txt\r\n"

/-- The file it asks for. -/
def tenByteNode : Node := plainFile [0, 1, 2, 3, 4, 5, 6, 7, 8, 9]

/-- The header block that is built for it. -/
def bareHeaders : Bytes :=
  fileHead .epoch (World.still tenByteTree) (tenByteAnswer bareRequest).slot.http 200 okText
    (.parse "/www/f.txt".toList) tenByteNode.len tenByteNode

/--
**A request without a protocol version is answered with the bytes of the file and no
header block**, so there is no end of one to find.
-/
theorem bare_request_without_head :
    (gotRequest (asBytes bareRequest.toList) 0 .firstWord).1 = .gotRequest ∧
    processRequest .epoch wwwConfig (World.still tenByteTree) (requestView bareRequest)
      = .ok (tenByteAnswer bareRequest) ∧
    (tenByteAnswer bareRequest).slot.isCgi = false ∧
    (tenByteAnswer bareRequest).slot.http.response = bareHeaders ++ [0, 1, 2, 3, 4, 5, 6, 7, 8, 9] ∧
    headerEndOffset (bareHeaders ++ [0, 1, 2, 3, 4, 5, 6, 7, 8, 9]) ≠ some bareHeaders.length := by
  refine ⟨by decide +kernel, eq_ok_of_panicOf _ (by decide +kernel), by decide +kernel, ?_, ?_⟩
  · decide +kernel
  · decide +kernel

end Thttpd
