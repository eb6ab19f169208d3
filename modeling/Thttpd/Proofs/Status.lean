/-
The status in the log and the status on the wire.

Two things decide them.  `build_full_response` writes a status and may turn a 200 into
a 206; the branches of `serve_static` set a status for the log on their own, and where
none was set the log looks for it in the response, behind a protocol that starts with
`HTTP/`.  `statusKept` says of a request, a configuration and a tree when the two
come to the same.

The log is written when the connection is closed, which may be many steps after the
answer.  What was kept of the answer does not change on the way, so the two statuses
are compared once, when the response is built, and the comparison holds at every
later point.
-/
import Thttpd.Proofs.Answer
import Thttpd.Proofs.Closing
import Thttpd.Proofs.Consistency

namespace Thttpd

open Text Fs

/-! ### Logging what was sent

Two statuses of one connection: the one in the status line of its response, and the
one its log entry would have if it were closed now.
-/

/--
If the connection is closed as it is, one entry is logged, with the status that its
response has in its status line.
-/
def LoggedAsSent (slot : ConnSlot) : Prop :=
  ∃ status, wireStatus slot.http.response = some status ∧ ∀ shared,
    ∃ entry, (closeConnection ⟨shared, slot⟩).shared.accessLog = shared.accessLog ++ [entry] ∧
      entry.status = status

/-- Whenever it is closed from now on. -/
def LogsAsSent (pf : Platform) (cfg : ServerConfig) (slot : ConnSlot) : Prop :=
  ∀ slot', ConnRun pf cfg slot slot' → LoggedAsSent slot'

/-- The entry is the one of the connection. -/
theorem LoggedAsSent.status {slot : ConnSlot} (h : LoggedAsSent slot) :
    wireStatus slot.http.response = some (logEntry slot).status := by
  obtain ⟨status, hwire, hlog⟩ := h
  obtain ⟨entry, happend, rfl⟩ := hlog (Shared.start none)
  rw [hwire, closeConnection_entry happend]

/-- A head whose first line can be read back. -/
structure Head.Readable (h : Head) : Prop where
  protocol : Unbroken h.protocol
  nonempty : h.protocol ≠ []
  statusText : NoBreak h.statusText
  status : 0 < h.status ∧ h.status ≤ 65535

/-- What is kept for the log is the status of the head, or can be found in it. -/
def KeepsStatus (head : Head) (code : Nat) : Prop :=
  if 0 < code then code = head.status else isHttp head.protocol = true

theorem loggedStatusCode_carries {http : HttpConn} {head : Head} {code : Nat}
    (h : Carries http head code) (hr : head.Readable) :
    loggedStatusCode http
      = if 0 < code then code else if isHttp head.protocol then head.status else 0 := by
  obtain ⟨body, hbody⟩ := h.response
  unfold loggedStatusCode
  rw [h.code, hbody, statusCodeFromResponse_render hr.protocol hr.nonempty hr.statusText
    hr.status.2]
  cases isHttp head.protocol <;> rfl

/--
**A response is logged as sent just when its status was kept.**

The status on the wire is read off the response, as a client does it.
-/
theorem loggedAsSent_iff {slot : ConnSlot} {head : Head} {code : Nat}
    (h : Carries slot.http head code) (hr : head.Readable) :
    LoggedAsSent slot ↔ KeepsStatus head code := by
  obtain ⟨body, hbody⟩ := h.response
  have hwire : wireStatus slot.http.response = some head.status := by
    rw [hbody]
    exact wireStatus_render hr.protocol body
  have hlogged := loggedStatusCode_carries h hr
  have hpos := hr.status.1
  have hentry : KeepsStatus head code ↔ (logEntry slot).status = head.status := by
    show _ ↔ loggedStatusCode slot.http = head.status
    rw [hlogged]
    unfold KeepsStatus
    split
    · exact Iff.rfl
    · split
      · rename_i hhttp
        exact ⟨fun _ => rfl, fun _ => hhttp⟩
      · rename_i hhttp
        exact ⟨fun hyes => absurd hyes hhttp, fun hzero => by omega⟩
  rw [hentry]
  constructor
  · intro hlogs
    exact Option.some.inj (hlogs.status.symm.trans hwire)
  · intro hsame
    refine ⟨head.status, hwire, fun shared => ⟨logEntry slot, ?_, hsame⟩⟩
    exact if_pos (by rw [hsame]; exact hpos)

theorem Carries.same {slot slot' : ConnSlot} {head : Head} {code : Nat}
    (h : Carries slot.http head code) (hs : SameAnswer slot slot') :
    Carries slot'.http head code := by
  obtain ⟨sent, file, hs⟩ := hs
  rw [hs]
  exact ⟨h.response, h.code, h.headerLen⟩

/--
**And so it is at every later point.**

The answer stays as it is until the end, so nothing has to be shown of later points
but this.
-/
theorem logsAsSent_iff {pf : Platform} {cfg : ServerConfig} {slot : ConnSlot} {head : Head}
    {code : Nat} (hs : slot.state.Answering) (h : Carries slot.http head code)
    (hr : head.Readable) : LogsAsSent pf cfg slot ↔ KeepsStatus head code := by
  constructor
  · intro hall
    exact (loggedAsSent_iff h hr).mp (hall slot .refl)
  · intro hkeeps slot' hrun
    exact (loggedAsSent_iff (h.same (hrun.stays hs).same) hr).mpr hkeeps

/-! ### The heads of requests

The protocol in the status line comes from the request line, so it is a word, and
the status can be read back from behind it.
-/

section

variable {pf : Platform} {w : World} {version : Str} {charsets : List Str} {head : Head}

theorem BuiltFor.protocol (h : BuiltFor pf w version charsets head) (hne : version ≠ []) :
    head.protocol = version := by
  cases h with
  | head length mtime rangeLen hspeaks hstatus htext htype hextra =>
      rw [← hspeaks.version] at hne ⊢
      exact if_neg hne

/-- A head that was built for a version that is a word can be read back. -/
theorem BuiltFor.readable (h : BuiltFor pf w version charsets head) (hu : Unbroken version)
    (hne : version ≠ []) : head.Readable := by
  have hprotocol := h.protocol hne
  cases h with
  | head length mtime rangeLen hspeaks hstatus htext htype hextra =>
      refine ⟨by rwa [hprotocol], by rwa [hprotocol], ?_, ?_⟩
      all_goals
        obtain ⟨part, -, hs, ht⟩ := fullHead_first pf w.unixNow _ _ _ _ length mtime _ rangeLen
      · rw [ht]
        cases part with
        | true =>
            have hpartial : NoBreak "Partial Content".toList := by decide
            exact hpartial
        | false => exact htext
      · rw [hs]
        cases part with
        | true =>
            have hpartial : 0 < 206 ∧ 206 ≤ 65535 := by decide
            exact hpartial
        | false =>
            rw [if_neg (by decide)]
            omega

end

/-! ### When the status is kept

The condition follows the branches of `serve_static`: which of them sets a status
for the log, and whether it sets the one that the builder writes.
-/

/--
Whether the range that was asked for, cut to the file, is a part of it and not all
of it.
-/
def asksPart (http : HttpConn) (size : Int) : Bool :=
  let first := (fillLastByte http size).firstByteIndex
  let last := (fillLastByte http size).lastByteIndex
  http.gotRange && decide (first ≤ last) && !(first == 0 && last == size - 1)

/-- Whether the status is kept of the reply to a request for a file. -/
def fileStatusKept (w : World) (http : HttpConn) (opened : Path) (node : Node) : Bool :=
  if http.method = .head then !asksPart http node.len
  else if notModified http node then true
  else if (w.mmap opened).isSome then !http.gotRange || asksPart http node.len
  else isHttp http.httpVersion

/-- Whether it is kept of the reply to a request for a path. -/
def staticStatusKept (pf : Platform) (cfg : ServerConfig) (w : World) (http : HttpConn)
    (file : Path) : Bool :=
  match staticCheck pf cfg w http file with
  | .error _ => isHttp http.httpVersion
  | .ok (opened, node) =>
      if node.isDir then isHttp http.httpVersion else fileStatusKept w http opened node

/--
Whether it is kept of the reply to a request.  A request that the table refuses is
logged as refused.
-/
def statusKept (pf : Platform) (cfg : ServerConfig) (w : World) (v : View) : Bool :=
  match route pf cfg w v.slot.http with
  | .refused http _ =>
      rejected pf v.shared.throttles http.origFilename || isHttp http.httpVersion
  | .static http file =>
      rejected pf v.shared.throttles http.origFilename
        || staticStatusKept pf cfg w { http with charset := cfg.charset } file
  | .program _ => true

section

variable {pf : Platform} {w : World} {http : HttpConn}

/-- The head of a file has a 206 when a part is asked for. -/
theorem fileFullHead_status (pf : Platform) (w : World) (hif : http.rangeIf = none) (opened : Path) (node : Node) :
    (fileFullHead pf w (fillLastByte http node.len) 200 okText opened node.len node).status
      = if asksPart http node.len then 206 else 200 := by
  have hpart : ∀ modTime, partialContent (fillLastByte http node.len) 200 node.len modTime
      = asksPart http node.len := by
    intro modTime
    simp only [partialContent, asksPart, (fillLastByte_rangeIf http node.len).trans hif,
      fillLastByte_keeps HttpConn.gotRange (fun _ _ => rfl), Option.isNone_none, Bool.true_or,
      Bool.and_true, beq_self_eq_true, Bool.not_and, bne, Bool.or_comm]
  unfold fileFullHead
  obtain ⟨part, hyes, hstatus, -⟩ := fullHead_first pf w.unixNow (fillLastByte http node.len) 200 okText
    (figureMime opened).mimeType node.len node.attr.mtime (encodingHeaders (figureMime opened))
    (fillLastByte http node.len).rangeLen
  rw [hstatus, hyes, hpart]

theorem rejectHead_status (pf : Platform) (w : World) (http : HttpConn) :
    (rejectHead pf w http).status = 503 := by
  have h503 : 503 ≠ 200 := by decide
  exact fullHead_status h503 ..

/-- A page or a listing is logged with the status that is found in it. -/
theorem entryHead_keepsStatus (pf : Platform) (w : World) (throttles : Option ThrottleTable)
    {head : Head} (hp : head.protocol = http.httpVersion) :
    KeepsStatus (entryHead pf w throttles http head).1 (entryHead pf w throttles http head).2 ↔
      (rejected pf throttles http.origFilename || isHttp http.httpVersion) = true := by
  unfold entryHead
  split
  · rename_i hrej
    have hstatus := rejectHead_status pf w http
    simp [KeepsStatus, hstatus, hrej]
  · rename_i hrej
    simp [KeepsStatus, hrej, hp]

theorem replyHead_keepsStatus (hif : http.rangeIf = none) (hne : http.httpVersion ≠ [])
    (opened : Path) (node : Node) :
    KeepsStatus (replyHead pf w (fillLastByte http node.len) opened node).1
        (replyHead pf w (fillLastByte http node.len) opened node).2 ↔
      fileStatusKept w http opened node = true := by
  have hmethod := fillLastByte_keeps HttpConn.method (fun _ _ => rfl) http node.len
  have hgot := fillLastByte_keeps HttpConn.gotRange (fun _ _ => rfl) http node.len
  have hversion := fillLastByte_keeps HttpConn.httpVersion (fun _ _ => rfl) http node.len
  have hmod : notModified (fillLastByte http node.len) node = notModified http node :=
    fillLastByte_keeps (fun http => notModified http node) (fun _ _ => rfl) http node.len
  have hstatus := fileFullHead_status pf w hif opened node
  unfold replyHead fileStatusKept
  rw [hmethod, hmod, hgot]
  split
  · cases hpart : asksPart http node.len <;> simp [KeepsStatus, hstatus, hpart]
  split
  · have h304 : (fileFullHead pf w (fillLastByte http node.len) 304 "Not Modified".toList opened (-1)
        node).status = 304 := fullHead_status (by decide) ..
    have hpos : 0 < 304 := by decide
    unfold KeepsStatus
    rw [if_pos hpos, h304]
    simp
  split
  · cases hg : http.gotRange with
    | false =>
        have hpart : asksPart http node.len = false := by simp [asksPart, hg]
        simp [KeepsStatus, hstatus, hpart]
    | true => cases hpart : asksPart http node.len <;> simp [KeepsStatus, hstatus, hpart]
  · have hprotocol : (errorHead pf w (fillLastByte http node.len)
        (.notFound (fillLastByte http node.len).encodedUrl)).protocol = http.httpVersion := by
      rw [← hversion] at hne ⊢
      exact if_neg hne
    simp [KeepsStatus, hprotocol]

theorem staticHead_keepsStatus (pf : Platform) (cfg : ServerConfig) (w : World)
    (throttles : Option ThrottleTable) {http : HttpConn} (hif : http.rangeIf = none) (hne : http.httpVersion ≠ []) (file : Path) :
    KeepsStatus (staticHead pf cfg w throttles http file).1
        (staticHead pf cfg w throttles http file).2 ↔
      (rejected pf throttles http.origFilename || staticStatusKept pf cfg w http file) = true := by
  have herror : ∀ e, (errorHead pf w http e).protocol = http.httpVersion := fun e => if_neg hne
  unfold staticHead staticStatusKept
  cases staticCheck pf cfg w http file with
  | error e => exact entryHead_keepsStatus pf w throttles (herror e)
  | ok checked =>
      obtain ⟨opened, node⟩ := checked
      simp only
      unfold checkedHead
      cases hdir : node.isDir with
      | true =>
          have hlisting : (listingHead pf w http opened node).protocol = http.httpVersion := by
            unfold listingHead
            split
            · exact if_neg hne
            · exact herror _
          exact entryHead_keepsStatus pf w throttles hlisting
      | false =>
          simp only [Bool.false_eq_true, if_false]
          cases hrej : rejected pf throttles http.origFilename with
          | true =>
              have hstatus := rejectHead_status pf w (fillLastByte http node.len)
              simp [KeepsStatus, hstatus]
          | false =>
              rw [if_neg (by decide), replyHead_keepsStatus hif hne]
              simp

end

/-! ### Requests

Every branch is put together with the head its answer has.
-/

theorem requestHead_keepsStatus {pf : Platform} {cfg : ServerConfig} {w : World} {v : View}
    {head : Head} {code : Nat} (hv : Untouched v)
    (hne : (readRequestLine pf v.slot.http).httpVersion ≠ [])
    (h : requestHead pf cfg w v = some (head, code)) :
    KeepsStatus head code ↔ statusKept pf cfg w v = true := by
  have hspeaks := route_speaks pf cfg w hv
  have hif : (route pf cfg w v.slot.http).http.rangeIf = none := by
    obtain ⟨buf, checkedIdx, state, hhttp⟩ := hv.received
    rw [route_http_keeps HttpConn.rangeIf (fun _ _ _ _ => rfl) (fun _ _ => rfl)
      (fun _ _ => rfl) (fun _ _ _ _ => rfl), hhttp]
    rfl
  rw [← hspeaks.version] at hne
  unfold requestHead at h
  unfold statusKept
  cases hroute : route pf cfg w v.slot.http with
  | refused http e =>
      rw [hroute] at h hne
      have hprotocol : (errorHead pf w http e).protocol = http.httpVersion := if_neg hne
      have hkeeps := entryHead_keepsStatus pf w v.shared.throttles hprotocol
      rwa [Option.some.inj h] at hkeeps
  | static http file =>
      rw [hroute] at h hne hif
      have hstatic : ({ http with charset := cfg.charset } : HttpConn).rangeIf = none ∧
          ({ http with charset := cfg.charset } : HttpConn).httpVersion ≠ [] := ⟨hif, hne⟩
      have hkeeps := staticHead_keepsStatus pf cfg w v.shared.throttles hstatic.1 hstatic.2 file
      rwa [Option.some.inj h] at hkeeps
  | program http =>
      rw [hroute] at h
      cases h

/-- The page for a request that was never parsed. -/
def unparsedPage (userAgent : Str) : Bytes :=
  let e := ErrorReply.badRequest []
  errorPage e.status e.title e.form e.arg (some userAgent)

/-- And the head in front of it. -/
def unparsedHead (userAgent : Str) : Head where
  protocol := "HTTP/1.0".toList
  status := 400
  statusText := "Bad Request".toList
  headers := [("Content-Type".toList, textHtml),
    ("Content-Length".toList, natStr (unparsedPage userAgent).length)]

theorem refuseUnparsed_carries {pf : Platform} {w : World} {v : View} {out : Outcome}
    {slot : ConnSlot} (hv : Unanswered v) (h : refuseUnparsed pf w v = .ok out)
    (hslot : out.slot = some slot) :
    Carries slot.http
      (entryHead pf w v.shared.throttles v.slot.http (unparsedHead v.slot.http.userAgent)).1
      (entryHead pf w v.shared.throttles v.slot.http (unparsedHead v.slot.http.userAgent)).2 ∧
      slot.state.Answering := by
  obtain ⟨v', hsend, h⟩ := bind_eq_ok.mp h
  cases h
  cases hslot
  constructor
  · have hdraft : Drafted (v.respond (buildErrorResponse (.badRequest []) v.slot.http.userAgent)
        .none).slot.http (unparsedHead v.slot.http.userAgent) 0 :=
      ⟨hv.mime, ⟨unparsedPage v.slot.http.userAgent, rfl⟩, hv.code, .inl hv.headerLen⟩
    have hs := transitionToSending_unchecked hdraft hv.isCgi hv.checked hsend
    exact hs
  · obtain ⟨⟨d, throttles⟩, -, hsend⟩ := bind_eq_ok.mp hsend
    cases hsend
    exact .inl (sendingSlot_state pf w _ d)

theorem refuseUnparsed_logsAsSent {pf : Platform} {cfg : ServerConfig} {w : World} {v : View}
    {out : Outcome} {slot : ConnSlot} (hv : Untouched v) (h : refuseUnparsed pf w v = .ok out)
    (hslot : out.slot = some slot) : LogsAsSent pf cfg slot := by
  obtain ⟨hcarries, hanswered⟩ := refuseUnparsed_carries hv.unread h hslot
  obtain ⟨buf, checkedIdx, state, hhttp⟩ := hv.received
  have hword : Unbroken "HTTP/1.0".toList ∧ "HTTP/1.0".toList ≠ [] := by decide
  have htitle : NoBreak "Bad Request".toList ∧ NoBreak "Service Unavailable".toList := by decide
  unfold entryHead at hcarries
  split at hcarries
  · have hprotocol : (rejectHead pf w v.slot.http).protocol = "HTTP/1.0".toList := by
      rw [hhttp]
      rfl
    have hstatus := rejectHead_status pf w v.slot.http
    have htext : (rejectHead pf w v.slot.http).statusText = "Service Unavailable".toList := by
      rw [hhttp]
      rfl
    refine (logsAsSent_iff hanswered hcarries ⟨?_, ?_, ?_, ?_⟩).mpr ?_
    · rw [hprotocol]
      exact hword.1
    · rw [hprotocol]
      exact hword.2
    · rw [htext]
      exact htitle.2
    · rw [hstatus]
      decide
    · simp [KeepsStatus, hstatus]
  · have hbounds : 0 < 400 ∧ 400 ≤ 65535 := by decide
    have hhttp10 : isHttp "HTTP/1.0".toList = true := by decide
    exact (logsAsSent_iff hanswered hcarries ⟨hword.1, hword.2, htitle.1, hbounds⟩).mpr hhttp10

/--
**A request for a file is logged with the status it was answered with, whenever the
connection is closed, just when that status was kept; and so is every request that
was never parsed.**  Whenever it is closed: a step of the server ends a connection,
leaves it as it is, or takes it one of the steps that were looked at.

`statusKept` is a function of the request, the configuration, the tree and the
table, and follows neither the builder nor the log.
-/
theorem logged_status_sent_iff {pf : Platform} {cfg : ServerConfig} {w : World} {v : View}
    (hv : Untouched v) :
    (∀ v', processRequest pf cfg w v = .ok v' →
      (readRequestLine pf v.slot.http).mimeFlag = true →
      (route pf cfg w v.slot.http).isProgram = false →
      (LogsAsSent pf cfg v'.slot ↔ statusKept pf cfg w v = true)) ∧
    (∀ out slot, refuseUnparsed pf w v = .ok out → out.slot = some slot →
      LogsAsSent pf cfg slot) ∧
    ∀ (s s' : Server) (k : Nat) (slot : ConnSlot), Step pf cfg s s' → s.conns.at? k = some slot →
      s'.conns.at? k = none ∨ ∃ slot', s'.conns.at? k = some slot' ∧
        (slot' = slot ∨ ConnStep pf cfg slot slot') := by
  refine ⟨?_, fun out slot h hslot => refuseUnparsed_logsAsSent hv h hslot,
    fun s s' k slot hstep hk => hstep.conn hk⟩
  intro v' h hmime hroute
  obtain ⟨head, code, hhead⟩ := requestHead_isSome hroute
  obtain ⟨hunbroken, hne⟩ := readRequestLine_version_unbroken hmime
  have hcarries := processRequest_carries hv hmime hhead h
  have hreadable := (requestHead_builtFor hv hhead).readable hunbroken hne
  obtain ⟨http, u, hanswers⟩ := processRequest_answers hroute h
  rw [logsAsSent_iff hanswers.answering hcarries hreadable, requestHead_keepsStatus hv hne hhead]

/-! ### Statuses that are not kept

Three requests for the same file that are logged wrongly or not at all, each for
another reason.
-/

theorem requestView_untouched (head : String) : Untouched (requestView head) :=
  ⟨rfl, rfl, rfl, _, _, _, rfl⟩

/-- The answer to a request, over a tree with a file of ten bytes. -/
def tenByteAnswer (head : String) : View :=
  resultOf (requestView head)
    (processRequest .epoch wwwConfig (World.still tenByteTree) (requestView head))

/-- A request that is answered, with its status on the wire and what is logged of it. -/
structure Reported (head : String) (wire : Nat) (logged : List Nat) : Prop where
  mime : (readRequestLine .epoch (requestView head).slot.http).mimeFlag = true
  noProgram : (route .epoch wwwConfig (World.still tenByteTree)
    (requestView head).slot.http).isProgram = false
  answered : processRequest .epoch wwwConfig (World.still tenByteTree) (requestView head)
    = .ok (tenByteAnswer head)
  wire : wireStatus (tenByteAnswer head).slot.http.response = some wire
  logged : (closeConnection (tenByteAnswer head)).shared.accessLog.map LogEntry.status = logged

theorem Reported.of_run {head : String} {wire : Nat} {logged : List Nat}
    (h : (readRequestLine .epoch (requestView head).slot.http).mimeFlag = true ∧
      (route .epoch wwwConfig (World.still tenByteTree)
        (requestView head).slot.http).isProgram = false ∧
      panicOf (processRequest .epoch wwwConfig (World.still tenByteTree) (requestView head)) = none ∧
      wireStatus (tenByteAnswer head).slot.http.response = some wire ∧
      (closeConnection (tenByteAnswer head)).shared.accessLog.map LogEntry.status = logged) :
    Reported head wire logged :=
  ⟨h.1, h.2.1, eq_ok_of_panicOf _ h.2.2.1, h.2.2.2.1, h.2.2.2.2⟩

/-- All of a file, asked for as a range. -/
def wholeRangeRequest : String := "GET /f.txt HTTP/1.0\r\nRange: bytes=0-\r\n\r\n"

/-- A part of a file, only asked about. -/
def headRangeRequest : String := "HEAD /f.txt HTTP/1.0\r\nRange: bytes=2-5\r\n\r\n"

/-- A protocol of another name. -/
def strangeRequest : String := "GET /f.txt FOO\r\n\r\n"

/--
**A range that is all of a file is answered with a 200 and logged as a 206**, a
range of a file that is only asked about the other way round, and a protocol that
does not start with `HTTP/` keeps a request out of the log.
-/
theorem logged_status_differs :
    Reported wholeRangeRequest 200 [206] ∧ Reported headRangeRequest 206 [200] ∧
      Reported strangeRequest 400 [] ∧
      ¬ LogsAsSent .epoch wwwConfig (tenByteAnswer wholeRangeRequest).slot := by
  refine ⟨.of_run (by decide +kernel), .of_run (by decide +kernel), .of_run (by decide +kernel), ?_⟩
  intro h
  have hlogged : LoggedAsSent (tenByteAnswer wholeRangeRequest).slot := h _ .refl
  exact absurd hlogged.status (by decide +kernel)

/-- A part of a file. -/
def partRequest : String := "GET /f.txt HTTP/1.0\r\nRange: bytes=2-5\r\n\r\n"

/-- It is sent as a 206 and logged as one. -/
theorem logged_status_sent_sample :
    Reported partRequest 206 [206] ∧
      LogsAsSent .epoch wwwConfig (tenByteAnswer partRequest).slot := by
  have hreported : Reported partRequest 206 [206] := .of_run (by decide +kernel)
  refine ⟨hreported, ?_⟩
  exact ((logged_status_sent_iff (requestView_untouched partRequest)).1 _ hreported.answered
    hreported.mime hreported.noProgram).mpr (by decide +kernel)

end Thttpd
