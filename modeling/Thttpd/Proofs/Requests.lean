/-
Every way a handler can end.

Between the bytes of a request and `transition_to_sending` the program asks the throttle
table at most once, runs at most one program, and otherwise only fills in the HTTP part
of the connection.  `Prepares` lists the four ways this can go, with the changes each
makes to the state that all connections share, and `handleRead_ends` says that reading
does nothing else.  `handleSend_ends` and `handlePause_ends` do the same for a response
on its way.  Invariants over runs are derived from these cases.

The handlers of the source call each other and pass a connection on that is half way
to its answer.  Here each of them is taken to one of a few relations, `Prepares`
above all, so that an invariant is proved of the relation and holds whatever the
handlers did.
-/
import Thttpd.Proofs.Parse
import Thttpd.Core.Server

namespace Thttpd

open Text Fs

/-! ### What only the connection sees

Reading a request fills in one field after the other and none of them is seen by
anybody else.  `Dressed` says so: the same connection, with another HTTP part in
which the bytes read and the declared length are as they were.
-/

/-- The declared length of a body is one the parser accepts. -/
def LengthOk (http : HttpConn) : Prop := ∀ cl, http.contentLength = some cl → 0 ≤ cl ∧ cl ≤ i64Max

/-- The indices into the read buffer are in range. -/
structure BufferOk (http : HttpConn) : Prop where
  checked : http.checkedIdx ≤ http.readIdx
  read : http.readIdx ≤ readBufSize
  length : LengthOk http

/-- The same bytes read, looked at as far, and a declared length as good. -/
structure SameBytes (http http' : HttpConn) : Prop where
  readBuf : http'.readBuf = http.readBuf
  checkedIdx : http'.checkedIdx = http.checkedIdx
  length : LengthOk http → LengthOk http'

theorem SameBytes.refl (http : HttpConn) : SameBytes http http := ⟨rfl, rfl, id⟩

/-- And again. -/
theorem SameBytes.trans {a b c : HttpConn} (h₁ : SameBytes a b) (h₂ : SameBytes b c) :
    SameBytes a c :=
  ⟨h₂.readBuf.trans h₁.readBuf, h₂.checkedIdx.trans h₁.checkedIdx,
    fun h => h₂.length (h₁.length h)⟩

theorem BufferOk.same {http http' : HttpConn} (h : BufferOk http) (hs : SameBytes http http') :
    BufferOk http' := by
  refine ⟨?_, ?_, hs.length h.length⟩
  · unfold HttpConn.readIdx
    rw [hs.readBuf, hs.checkedIdx]
    exact h.checked
  · unfold HttpConn.readIdx
    rw [hs.readBuf]
    exact h.read

/--
Nothing but the HTTP part changed, and there not the bytes read, or whether a body
is waited for.
-/
structure Dressed (v u : View) : Prop where
  shared : u.shared = v.shared
  slot : ∃ http pending, u.slot = { v.slot with http := http, pendingCgiBody := pending }
  bytes : SameBytes v.slot.http u.slot.http

namespace Dressed

variable {v u x : View}

theorem refl (v : View) : Dressed v v := ⟨rfl, ⟨_, _, rfl⟩, .refl _⟩

theorem trans (h₁ : Dressed v u) (h₂ : Dressed u x) : Dressed v x := by
  obtain ⟨http₁, pending₁, hslot₁⟩ := h₁.slot
  obtain ⟨http₂, pending₂, hslot₂⟩ := h₂.slot
  refine ⟨h₂.shared.trans h₁.shared, ⟨http₂, pending₂, ?_⟩, h₁.bytes.trans h₂.bytes⟩
  rw [hslot₂, hslot₁]

theorem state (h : Dressed v u) : u.slot.state = v.slot.state := by
  obtain ⟨http, pending, hslot⟩ := h.slot
  rw [hslot]

theorem stream (h : Dressed v u) : u.slot.stream = v.slot.stream := by
  obtain ⟨http, pending, hslot⟩ := h.slot
  rw [hslot]

theorem throttle (h : Dressed v u) : u.slot.throttle = v.slot.throttle := by
  obtain ⟨http, pending, hslot⟩ := h.slot
  rw [hslot]

theorem isCgi (h : Dressed v u) : u.slot.isCgi = v.slot.isCgi := by
  obtain ⟨http, pending, hslot⟩ := h.slot
  rw [hslot]

/-- A change of the HTTP part that leaves the buffer and the declared length. -/
theorem of_http (hshared : u.shared = v.shared) (hslot : u.slot = { v.slot with http := u.slot.http })
    (hbuf : u.slot.http.readBuf = v.slot.http.readBuf)
    (hidx : u.slot.http.checkedIdx = v.slot.http.checkedIdx)
    (hlen : u.slot.http.contentLength = v.slot.http.contentLength) : Dressed v u :=
  ⟨hshared, ⟨_, _, hslot⟩, hbuf, hidx, fun h cl hcl => h cl (hlen ▸ hcl)⟩

theorem mapHttp (v : View) {f : HttpConn → HttpConn}
    (hbuf : (f v.slot.http).readBuf = v.slot.http.readBuf)
    (hidx : (f v.slot.http).checkedIdx = v.slot.http.checkedIdx)
    (hlen : (f v.slot.http).contentLength = v.slot.http.contentLength) :
    Dressed v (v.mapHttp f) := of_http rfl rfl hbuf hidx hlen

theorem respond (v : View) (response : Bytes) (payload : Payload) :
    Dressed v (v.respond response payload) := mapHttp v rfl rfl rfl

theorem withCharset (v : View) (cfg : ServerConfig) : Dressed v (v.withCharset cfg) :=
  mapHttp v rfl rfl rfl

end Dressed

theorem readConditions_buffer (pf : Platform) (header : String → Option Str) (http : HttpConn) :
    (readConditions pf header http).readBuf = http.readBuf ∧
      (readConditions pf header http).checkedIdx = http.checkedIdx ∧
      (readConditions pf header http).contentLength = http.contentLength := by
  unfold readConditions parseRange
  simp only
  repeat' split
  all_goals exact ⟨rfl, rfl, rfl⟩

/-- The declared length comes from its header, if there is one. -/
theorem readRequest_contentLength (pf : Platform) (http : HttpConn) :
    (readRequest pf http).contentLength =
      match extractHeader pf (headerBytes http.requestBytes) "Content-Length" with
      | some cl => (parseI64 (trim cl)).filter fun v => 0 ≤ v
      | none => http.contentLength := by
  have hlen := (readConditions_buffer pf (extractHeader pf (headerBytes http.requestBytes))
    (readRequestLine pf http)).2.2
  show (match extractHeader pf (headerBytes http.requestBytes) "Content-Length" with
      | some cl => (parseI64 (trim cl)).filter fun v => 0 ≤ v
      | none => (readConditions pf (extractHeader pf (headerBytes http.requestBytes))
          (readRequestLine pf http)).contentLength) = _
  rw [hlen]
  rfl

/-- It is one the parser accepts. -/
theorem readRequest_lengthOk {pf : Platform} {http : HttpConn} (h : LengthOk http) :
    LengthOk (readRequest pf http) := by
  intro cl hcl
  rw [readRequest_contentLength] at hcl
  split at hcl
  · obtain ⟨hparse, hpos⟩ := Option.filter_eq_some_iff.mp hcl
    exact ⟨by simpa using hpos, (parseI64_range hparse).2⟩
  · exact h cl hcl

theorem readRequest_sameBytes (pf : Platform) (http : HttpConn) :
    SameBytes http (readRequest pf http) := by
  obtain ⟨hbuf, hidx, -⟩ := readConditions_buffer pf
    (extractHeader pf (headerBytes (readRequestLine pf http).requestBytes))
    (readRequestLine pf http)
  exact ⟨hbuf, hidx, readRequest_lengthOk⟩

theorem dressed_readRequest (pf : Platform) (v : View) :
    Dressed v (v.mapHttp (readRequest pf)) :=
  ⟨rfl, ⟨_, _, rfl⟩, readRequest_sameBytes pf v.slot.http⟩

theorem dressed_resolveRequest (pf : Platform) (cfg : ServerConfig) (w : World) (v : View)
    (normalized : Str) :
    Dressed v (v.mapHttp fun http => resolveRequest pf cfg w http normalized) :=
  .mapHttp v (resolveRequest_keeps HttpConn.readBuf (fun _ _ _ _ => rfl) pf cfg w _ normalized)
    (resolveRequest_keeps HttpConn.checkedIdx (fun _ _ _ _ => rfl) pf cfg w _ normalized)
    (resolveRequest_keeps HttpConn.contentLength (fun _ _ _ _ => rfl) pf cfg w _ normalized)

/-! ### The four ways

A page or a response with nothing behind it; a file; a request the table refuses;
and a program, which is counted in and out around its call.
-/

/-- What a finished program costs its rules. -/
def cgiCharge (w : World) (call : CgiCall) : Option Int :=
  (w.execCgi call).map fun _ => cgiBytecount

/-- Releasing a program's rules changes nothing of the response. -/
theorem releaseCgi_http (v : View) (charge : Option Int) :
    (releaseCgi v charge).slot.http = v.slot.http := by
  unfold releaseCgi
  split <;> rfl

/-- The view a program leaves: it was counted, called, and released again. -/
def afterCgi (w : World) (v : View) (pathInfo : Str) (throttles : Option ThrottleTable)
    (d : ThrottleDecision) (call : CgiCall) : View :=
  releaseCgi (cgiStarted ((beginCgi v pathInfo).admitted throttles
    (cgiThrottle v.slot.throttle d)) call) (cgiCharge w call)

/-- From a request to a view with its response in place. -/
inductive Prepares (pf : Platform) (cfg : ServerConfig) (w : World) (v : View) : View → Prop
  /-- Nobody was asked. -/
  | page {u : View} : Dressed v u → Prepares pf cfg w v u
  /-- A file, admitted or refused. -/
  | file {x u : View} {filename : Str} {d : ThrottleDecision} {throttles : Option ThrottleTable} :
      Dressed v x → askThrottle pf x.shared.throttles filename = .ok (d, throttles) →
      Dressed (x.admitted throttles (admittedThrottle x.slot.throttle d)) u → Prepares pf cfg w v u
  /-- A program that was refused. -/
  | refused {x u : View} {filename : Str} {throttles : Option ThrottleTable} :
      Dressed v x → askThrottle pf x.shared.throttles filename = .ok (.reject, throttles) →
      Dressed (x.admitted throttles x.slot.throttle) u → Prepares pf cfg w v u
  /-- A program that ran. -/
  | ran {x u : View} {filename pathInfo : Str} {d : ThrottleDecision}
      {throttles : Option ThrottleTable} {call : CgiCall} :
      Dressed v x → askThrottle pf x.shared.throttles filename = .ok (d, throttles) →
      call = cgiCall cfg w (beginCgi x pathInfo).slot filename pathInfo →
      Dressed (afterCgi w x pathInfo throttles d call) u → Prepares pf cfg w v u

/-- The request was answered. -/
structure Answers (pf : Platform) (cfg : ServerConfig) (w : World) (v u v' : View) : Prop where
  prepares : Prepares pf cfg w v u
  length : u.slot.http.responseLen = u.slot.http.response.length
  sends : transitionToSending pf w u = .ok v'

variable {pf : Platform} {cfg : ServerConfig} {w : World} {v v' : View}

/-- What was prepared from a connection was prepared from the one before it. -/
theorem Prepares.of_dressed {x u : View} (h : Dressed v x) (hp : Prepares pf cfg w x u) :
    Prepares pf cfg w v u := by
  cases hp with
  | page hu => exact .page (h.trans hu)
  | file hx hask hu => exact .file (h.trans hx) hask hu
  | refused hx hask hu => exact .refused (h.trans hx) hask hu
  | ran hx hask hcall hu => exact .ran (h.trans hx) hask hcall hu

theorem Answers.of_dressed {x u : View} (h : Dressed v x) (ha : Answers pf cfg w x u v') :
    Answers pf cfg w v u v' := ⟨ha.prepares.of_dressed h, ha.length, ha.sends⟩

/-- An error page needs nobody. -/
theorem sendError_answers {e : ErrorReply} (h : sendError pf w v e = .ok v') :
    ∃ u, Answers pf cfg w v u v' :=
  ⟨_, .page (.respond v _ _), rfl, h⟩

/-! ### Files

A path that went through the checks asks the table once and then prepares what it
sends.
-/

theorem replyFile_dressed {file opened : Path} {node : Node}
    (h : replyFile pf w v file opened node = .ok v') :
    ∃ u, Dressed v u ∧ u.slot.http.responseLen = u.slot.http.response.length ∧
      transitionToSending pf w u = .ok v' := by
  unfold replyFile at h
  split at h
  · exact ⟨headReply pf w v opened node, .of_http rfl rfl rfl rfl rfl, rfl, h⟩
  split at h
  · exact ⟨notModifiedReply pf w v opened node, .of_http rfl rfl rfl rfl rfl, rfl, h⟩
  split at h
  · rename_i data _
    obtain ⟨body, -, h⟩ := bind_eq_ok.mp h
    exact ⟨dataReply pf w v file opened node data body, .of_http rfl rfl rfl rfl rfl, rfl, h⟩
  · exact ⟨_, .respond v _ _, rfl, h⟩

theorem dressed_fillLastByte (v : View) (size : Int) :
    Dressed v (v.mapHttp fun http => fillLastByte http size) := by
  refine .mapHttp v ?_ ?_ ?_ <;>
  · unfold fillLastByte
    split <;> rfl

theorem serveFile_answers {file opened : Path} {node : Node}
    (h : serveFile pf w v file opened node = .ok v') : ∃ u, Answers pf cfg w v u v' := by
  obtain ⟨⟨decision, throttles⟩, hask, h⟩ := bind_eq_ok.mp h
  have hfill := dressed_fillLastByte v node.len
  have hreply : replyFile pf w (fileView v node decision throttles) file opened node = .ok v' →
      ∃ u, Answers pf cfg w v u v' := by
    intro h
    obtain ⟨u, hu, hlen, hsend⟩ := replyFile_dressed h
    exact ⟨u, .file hfill hask hu, hlen, hsend⟩
  cases decision with
  | reject =>
      exact ⟨overLimitReply pf w (fileView v node .reject throttles),
        .file hfill hask (.of_http rfl rfl rfl rfl rfl), rfl, h⟩
  | unlimited => exact hreply h
  | allow tnums maxLimit minLimit => exact hreply h

/--
**A request for a file is answered** in one of the four ways.

Every branch ends in a page, a file, or a refusal, with the connection dressed on
the way.
-/
theorem serveStatic_answers {file : Path} (h : serveStatic pf cfg w v file = .ok v') :
    ∃ u, Answers pf cfg w v u v' := by
  have hcharset := Dressed.withCharset v cfg
  have hanswer : (∃ u, Answers pf cfg w (v.withCharset cfg) u v') → ∃ u, Answers pf cfg w v u v' := by
    rintro ⟨u, ha⟩
    exact ⟨u, ha.of_dressed hcharset⟩
  unfold serveStatic at h
  split at h
  · exact hanswer (sendError_answers h)
  · unfold serveChecked at h
    split at h
    · unfold serveListing at h
      split at h
      · obtain ⟨rangeLen, -, h⟩ := bind_eq_ok.mp h
        exact hanswer ⟨_, .page (.respond _ _ _), rfl, h⟩
      · exact hanswer (sendError_answers h)
    · exact hanswer (serveFile_answers h)

/-! ### Programs

The count of running programs goes up before the call and down after it, so nothing
of it is left when the handler returns.
-/

/-- A program that was called is answered with what it printed, or with an error. -/
theorem runCgi_answers {filename pathInfo : Str} {d : ThrottleDecision}
    {throttles : Option ThrottleTable} {call : CgiCall}
    (hask : askThrottle pf v.shared.throttles filename = .ok (d, throttles))
    (hcall : call = cgiCall cfg w (beginCgi v pathInfo).slot filename pathInfo)
    (h : runCgi pf w ((beginCgi v pathInfo).admitted throttles (cgiThrottle v.slot.throttle d)) call
      = .ok v') : ∃ u, Answers pf cfg w v u v' := by
  have hrun : ∀ charge response payload, cgiCharge w call = charge →
      Dressed (afterCgi w v pathInfo throttles d call)
        ((releaseCgi (cgiStarted ((beginCgi v pathInfo).admitted throttles
          (cgiThrottle v.slot.throttle d)) call) charge).respond response payload) := by
    rintro charge response payload rfl
    exact .respond _ _ _
  unfold runCgi at h
  split at h
  · rename_i out hout
    exact ⟨_, .ran (.refl v) hask hcall (hrun _ _ _ (by simp [cgiCharge, hout])), rfl, h⟩
  · rename_i hout
    exact ⟨_, .ran (.refl v) hask hcall (hrun _ _ _ (by simp [cgiCharge, hout])), rfl, h⟩

/-- Counting a program in and out again changes nothing. -/
theorem endCgi_beginCgi (v : View) (pathInfo : Str) (throttles : Option ThrottleTable)
    (throttle : ConnThrottle) :
    endCgi ((beginCgi v pathInfo).admitted throttles throttle)
      = (v.mapHttp fun http => { http with pathInfo := pathInfo }).admitted throttles throttle := by
  simp [endCgi, beginCgi, View.admitted, View.mapHttp]

theorem startCgi_answers (h : startCgi pf cfg w v = .ok v') : ∃ u, Answers pf cfg w v u v' := by
  unfold startCgi at h
  simp only at h
  split at h
  · obtain ⟨⟨decision, throttles⟩, hask, h⟩ := bind_eq_ok.mp h
    cases decision with
    | reject =>
        simp only at h
        rw [endCgi_beginCgi] at h
        exact ⟨_, .refused (.mapHttp v rfl rfl rfl) hask (.respond _ _ _), rfl, h⟩
    | unlimited => exact runCgi_answers hask rfl h
    | allow tnums maxLimit minLimit => exact runCgi_answers hask rfl h
  · have hsame : endCgi (beginCgi v (resolveScript cfg w v.slot.http).2)
        = v.mapHttp fun http => { http with pathInfo := (resolveScript cfg w v.slot.http).2 } := by
      simp [endCgi, beginCgi, View.mapHttp]
    rw [hsame] at h
    obtain ⟨u, ha⟩ := sendError_answers h
    exact ⟨u, ha.of_dressed (.mapHttp v rfl rfl rfl)⟩

/-! ### Requests

The route decides between the two, and a program's body may still be missing.
-/

/-- A request is answered, or its body is waited for. -/
def Processed (pf : Platform) (cfg : ServerConfig) (w : World) (v v' : View) : Prop :=
  (∃ u, Dressed v u ∧ v' = awaitBody u) ∨ ∃ u, Answers pf cfg w v u v'

theorem Processed.of_dressed {x : View} (h : Dressed v x) (hp : Processed pf cfg w x v') :
    Processed pf cfg w v v' := by
  rcases hp with ⟨u, hu, rfl⟩ | ⟨u, ha⟩
  · exact .inl ⟨u, h.trans hu, rfl⟩
  · exact .inr ⟨u, ha.of_dressed h⟩

theorem dispatchCgi_processed (h : dispatchCgi pf cfg w v = .ok v') : Processed pf cfg w v v' := by
  have hcharset := Dressed.withCharset v cfg
  unfold dispatchCgi at h
  split at h
  · cases h
    exact .inl ⟨_, hcharset, rfl⟩
  split at h
  · exact .of_dressed hcharset (.inr (sendError_answers h))
  · exact .of_dressed hcharset (.inr (startCgi_answers h))

theorem chooseHandler_processed {file : Path} (h : chooseHandler pf cfg w v file = .ok v') :
    Processed pf cfg w v v' := by
  unfold chooseHandler at h
  split at h
  · exact dispatchCgi_processed h
  split at h
  · exact .inr (sendError_answers h)
  · exact .inr (serveStatic_answers h)

/--
**Every request is answered or waits for its body.**

Only a program waits, and only for its body.
-/
theorem processRequest_processed (h : processRequest pf cfg w v = .ok v') :
    Processed pf cfg w v v' := by
  unfold processRequest at h
  split at h
  · exact .of_dressed (.mapHttp v rfl rfl rfl) (.inr (sendError_answers h))
  · refine .of_dressed (dressed_readRequest pf v) ?_
    unfold routeRequest at h
    split at h
    · exact .inr (sendError_answers h)
    split at h
    · exact .inr (sendError_answers h)
    · exact .of_dressed (dressed_resolveRequest pf cfg w _ _) (chooseHandler_processed h)

/-! ### Reading

An event on a reading connection stores what came, and goes on by what the detection
machine says of it, or, when a body was waited for, by whether it is there.
-/

/-- The detection machine has looked at the bytes. -/
def HttpConn.detected (http : HttpConn) : HttpConn :=
  { http with
    checkedIdx := (gotRequest http.readBuf http.checkedIdx http.parseState).2.1
    parseState := (gotRequest http.readBuf http.checkedIdx http.parseState).2.2 }

/--
The HTTP part once the bytes that came have been stored, and looked at unless the
body of a request is waited for.
-/
def ConnSlot.loaded (w : World) (slot : ConnSlot) : HttpConn :=
  match w.read with
  | .data bytes =>
      if bytes.take (readBufSize - slot.http.readIdx) = [] then slot.http
      else if slot.pendingCgiBody then
        slot.http.receive (bytes.take (readBufSize - slot.http.readIdx))
      else (slot.http.receive (bytes.take (readBufSize - slot.http.readIdx))).detected
  | _ => slot.http

/-- The connection with what has been read. -/
def View.loaded (w : World) (v : View) : View := v.mapHttp fun _ => v.slot.loaded w

/-- How reading ends. -/
inductive ReadEnds (pf : Platform) (cfg : ServerConfig) (w : World) (v : View) : Outcome → Prop
  | closed : ReadEnds pf cfg w v (closeConnection v)
  | goesOn {u : View} : Dressed (v.loaded w) u → ReadEnds pf cfg w v u.keep
  | answered {u v' : View} : Answers pf cfg w (v.loaded w) u v' → ReadEnds pf cfg w v v'.keep

/-- A buffer that is no request is answered with a page. -/
theorem refuseUnparsed_ends {out : Outcome} (h : refuseUnparsed pf w (v.loaded w) = .ok out) :
    ReadEnds pf cfg w v out := by
  obtain ⟨v', hv', h⟩ := bind_eq_ok.mp h
  cases h
  exact .answered ⟨.page (.respond _ _ _), rfl, hv'⟩

theorem Processed.ends (h : Processed pf cfg w (v.loaded w) v') : ReadEnds pf cfg w v v'.keep := by
  rcases h with ⟨u, hu, rfl⟩ | ⟨u, ha⟩
  · obtain ⟨http, pending, hslot⟩ := hu.slot
    refine .goesOn ⟨hu.shared, ⟨http, true, ?_⟩, hu.bytes⟩
    unfold awaitBody
    rw [hslot]
  · exact .answered ha

/-- The bytes that came fit into the buffer. -/
theorem BufferOk.receive {http : HttpConn} (h : BufferOk http) (bytes : Bytes) :
    BufferOk (http.receive (bytes.take (readBufSize - http.readIdx))) := by
  have hchecked := h.checked
  have hread := h.read
  unfold HttpConn.readIdx at hchecked hread
  refine ⟨?_, ?_, h.length⟩
  · show http.checkedIdx ≤ (http.readBuf ++ bytes.take _).length
    rw [List.length_append]
    omega
  · show (http.readBuf ++ bytes.take (readBufSize - http.readBuf.length)).length ≤ readBufSize
    rw [List.length_append, List.length_take]
    omega

/-- The detection machine stays within the bytes read. -/
theorem BufferOk.detected {http : HttpConn} (h : BufferOk http) : BufferOk http.detected := by
  refine ⟨?_, h.read, h.length⟩
  have hidx := (gotRequestFrom_idx (http.readBuf.drop http.checkedIdx)
    http.checkedIdx http.parseState).2
  have hchecked := h.checked
  unfold HttpConn.readIdx at hchecked
  rw [List.length_drop] at hidx
  show (gotRequestFrom (http.readBuf.drop http.checkedIdx) http.checkedIdx http.parseState).2.1
    ≤ http.readBuf.length
  omega

theorem BufferOk.loaded {slot : ConnSlot} (w : World) (h : BufferOk slot.http) :
    BufferOk (slot.loaded w) := by
  unfold ConnSlot.loaded
  split
  · split
    · exact h
    split
    · exact h.receive _
    · exact (h.receive _).detected
  · exact h

theorem resumeCgi_ends {out : Outcome} (h : resumeCgi pf cfg w (v.loaded w) = .ok out) :
    ReadEnds pf cfg w v out := by
  unfold resumeCgi at h
  split at h
  · obtain ⟨v', hv', h⟩ := bind_eq_ok.mp h
    cases h
    have hbody : Dressed (v.loaded w) (bodyArrived (v.loaded w)) :=
      ⟨rfl, ⟨_, false, rfl⟩, .refl _⟩
    exact (Processed.of_dressed hbody (dispatchCgi_processed hv')).ends
  · cases h
    exact .goesOn (.refl _)

/-- What the verdict of the detection machine leads to. -/
theorem detectRequest_eq (v : View) :
    detectRequest pf cfg w v =
      match (gotRequest v.slot.http.readBuf v.slot.http.checkedIdx v.slot.http.parseState).1 with
      | .noRequest => pure (v.mapHttp HttpConn.detected).keep
      | .badRequest => refuseUnparsed pf w (v.mapHttp HttpConn.detected)
      | .gotRequest =>
          processRequest pf cfg w (v.mapHttp HttpConn.detected) >>= fun v => pure v.keep := by
  rfl

theorem detectRequest_ends {x : View} {out : Outcome} (hx : v.loaded w = x.mapHttp HttpConn.detected)
    (h : detectRequest pf cfg w x = .ok out) : ReadEnds pf cfg w v out := by
  rw [detectRequest_eq, ← hx] at h
  split at h
  · cases h
    exact .goesOn (.refl _)
  · exact refuseUnparsed_ends h
  · obtain ⟨v', hv', h⟩ := bind_eq_ok.mp h
    cases h
    exact (processRequest_processed hv').ends

/--
**Reading closes the connection, goes on, or ends in one of the four ways.**

A read may find the peer gone, a full buffer, a part of a head, a complete head, or
the rest of a body.
-/
theorem handleRead_ends {out : Outcome} (h : handleRead pf cfg w v = .ok out) :
    ReadEnds pf cfg w v out := by
  unfold handleRead at h
  simp only at h
  split at h
  · rename_i hroom
    refine refuseUnparsed_ends (?_ : refuseUnparsed pf w (v.loaded w) = _)
    have hsame : v.loaded w = v := by
      unfold View.loaded ConnSlot.loaded
      rw [hroom]
      split <;> simp [View.mapHttp]
    rw [hsame]
    exact h
  split at h
  · cases h
    exact .closed
  split at h
  · rename_i hread
    cases h
    have hsame : v.loaded w = v := by simp [View.loaded, ConnSlot.loaded, hread, View.mapHttp]
    refine .goesOn ?_
    rw [hsame]
    exact .refl v
  · cases h
    exact .closed
  rename_i bytes hread
  split at h
  · cases h
    exact .closed
  rename_i hbytes
  split at h
  · rename_i hpending
    have hpending : v.slot.pendingCgiBody = true := hpending
    refine resumeCgi_ends (?_ : resumeCgi pf cfg w (v.loaded w) = _)
    have hloaded : v.loaded w = v.mapHttp fun http =>
        http.receive (bytes.take (readBufSize - v.slot.http.readIdx)) := by
      unfold View.loaded ConnSlot.loaded
      rw [hread]
      simp only [hbytes, if_false]
      rw [if_pos hpending]
      rfl
    rw [hloaded]
    exact h
  · rename_i hpending
    have hpending : ¬ v.slot.pendingCgiBody = true := hpending
    refine detectRequest_ends ?_ h
    unfold View.loaded ConnSlot.loaded
    rw [hread]
    simp only [hbytes, if_false]
    rw [if_neg hpending]
    rfl

/-! ### Sending

What is left of the response goes to the socket, up to what the rules of the
connection allow.  An event in this state ends in one of five ways, and the
connection is in a state that fits each.
-/

/-- How a round of sending ends. -/
inductive SendEnds (pf : Platform) (w : World) (v : View) : Outcome → Prop
  | finished : allSent v.slot.http = true → SendEnds pf w v (transitionToLingering v).keep
  | paused : allSent v.slot.http = false → writeLimit pf w v.slot = .ok 0 →
      SendEnds pf w v (pauseSending w v).keep
  | closed : v.slot.stream = none ∨ w.write = .failed → SendEnds pf w v (closeConnection v)
  | blocked : allSent v.slot.http = false → w.write = .wouldBlock → SendEnds pf w v v.keep
  | wrote {limit n : Nat} {stream : Stream} {remaining : Bytes} :
      allSent v.slot.http = false → writeLimit pf w v.slot = .ok limit →
      v.slot.stream = some stream →
      sliceFrom v.slot.http.response (asUsize v.slot.http.bytesSent) = .ok remaining →
      w.write = .accepted n →
      SendEnds pf w v
        (afterWrite w v stream ((remaining.take (min limit remaining.length)).take n))

/--
**A round of sending finishes, pauses, closes, blocks or writes.**

All may be sent already, the rules may ask for a pause, and a write that does not
block may fail, take nothing for now, or take a part.
-/
theorem handleSend_ends {out : Outcome} (h : handleSend pf w v = .ok out) :
    SendEnds pf w v out := by
  unfold handleSend at h
  split at h
  · rename_i hall
    cases h
    exact .finished hall
  rename_i hall
  have hall : allSent v.slot.http = false := Bool.eq_false_iff.mpr hall
  obtain ⟨limit, hlimit, h⟩ := bind_eq_ok.mp h
  split at h
  · rename_i hzero
    cases h
    exact .paused hall (hzero ▸ hlimit)
  split at h
  · rename_i hstream
    cases h
    exact .closed (.inl hstream)
  rename_i stream hstream
  obtain ⟨remaining, hremaining, h⟩ := bind_eq_ok.mp h
  split at h
  · rename_i hwrite
    cases h
    exact .blocked hall hwrite
  · rename_i hwrite
    cases h
    exact .closed (.inr hwrite)
  · rename_i hwrite
    cases h
    exact .wrote hall hlimit hstream hremaining hwrite

/-- How an event on a paused connection ends. -/
inductive PauseEnds (pf : Platform) (w : World) (v : View) : Outcome → Prop
  | waits : PauseEnds pf w v v.keep
  | closed : PauseEnds pf w v (closeConnection (wake v))
  | woke {out : Outcome} : handleSend pf w (wake v) = .ok out → PauseEnds pf w v out

/-- A pause that is over goes on with a round of sending. -/
theorem handlePause_ends {out : Outcome} (h : handlePause pf w v = .ok out) :
    PauseEnds pf w v out := by
  unfold handlePause at h
  split at h
  · cases h
    exact .waits
  simp only at h
  split at h
  · cases h
    exact .closed
  · exact .woke h

/-- How an event ends, by the state it finds the connection in. -/
inductive EventEnds (pf : Platform) (cfg : ServerConfig) (w : World) (v : View) : Outcome → Prop
  | reading {out : Outcome} : v.slot.state = .reading → handleRead pf cfg w v = .ok out →
      EventEnds pf cfg w v out
  | sending {out : Outcome} : v.slot.state = .sending → handleSend pf w v = .ok out →
      EventEnds pf cfg w v out
  | pausing {out : Outcome} : v.slot.state = .pausing → handlePause pf w v = .ok out →
      EventEnds pf cfg w v out
  | lingering : v.slot.state = .lingering → EventEnds pf cfg w v (closeConnection v)
  | free : v.slot.state = .free → EventEnds pf cfg w v v.keep

theorem handleConnectionEvent_ends {out : Outcome} (h : handleConnectionEvent pf cfg w v = .ok out) :
    EventEnds pf cfg w v out := by
  unfold handleConnectionEvent at h
  split at h
  · rename_i hs
    exact .reading hs h
  · rename_i hs
    exact .sending hs h
  · rename_i hs
    cases h
    exact .lingering hs
  · rename_i hs
    exact .pausing hs h
  · rename_i hs
    cases h
    exact .free hs

end Thttpd
