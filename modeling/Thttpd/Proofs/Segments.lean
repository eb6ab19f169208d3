/-
A request to a program does not depend on how its bytes arrive.

A cut in the head makes the detection machine go on later; a cut in the body makes
`dispatch_cgi` put the request off, and `handle_read` takes it up again from what the
first pass left on the connection.  Either way the last read of the request leads to one
and the same dispatch: the head has been read with the same result, since nothing in it
looks past its end, and the connection is otherwise as it was accepted.

The cut is compared with the one read, dispatch by dispatch.  `Waiting` is what a
connection can be while bytes are missing: in the head with a detection machine that
is half way, or in the body with everything of the head read already.  From either of
the two a read leads on to the same dispatch once the last byte is there.
-/
import Mathlib.Data.List.Forall2
import Thttpd.Proofs.Route
import Thttpd.Proofs.Senders

namespace Thttpd

open Text Fs

/-! ### Bytes after the head

Every function between the head and the route is gone through once, to see that it
looks at no byte behind the head.  Each is a projection of the next, so the lemmas
are short and there are many of them.
-/

section

variable {pf : Platform} {cfg : ServerConfig} {w : World} {http : HttpConn}

/-- The same route with more bytes in the buffer. -/
def Route.receive (bytes : Bytes) : Route → Route
  | .refused http reply => .refused (http.receive bytes) reply
  | .static http file => .static (http.receive bytes) file
  | .program http => .program (http.receive bytes)

theorem requestBytes_receive (h : http.checkedIdx ≤ http.readIdx) (bytes : Bytes) :
    (http.receive bytes).requestBytes = http.requestBytes :=
  List.take_append_of_le_length h

theorem readRequestLine_receive (pf : Platform) (h : http.checkedIdx ≤ http.readIdx) (bytes : Bytes) :
    readRequestLine pf (http.receive bytes) = (readRequestLine pf http).receive bytes := by
  have hmethod : parseMethod (http.receive bytes).readBuf (http.receive bytes).checkedIdx
      = parseMethod http.readBuf http.checkedIdx := by
    unfold parseMethod
    have htake := requestBytes_receive h bytes
    unfold HttpConn.requestBytes at htake
    rw [htake]
  unfold readRequestLine
  simp only [requestBytes_receive h, hmethod]
  rfl

/-- A range is parsed alike. -/
theorem parseRange_receive (http : HttpConn) (range : Str) (bytes : Bytes) :
    parseRange (http.receive bytes) range = (parseRange http range).receive bytes := by
  unfold parseRange
  simp only
  repeat' split
  all_goals rfl

theorem readConditions_receive (header : String → Option Str) (bytes : Bytes) :
    readConditions pf header (http.receive bytes)
      = (readConditions pf header http).receive bytes := by
  unfold readConditions
  cases header "If-Modified-Since" with
  | none =>
      cases header "Range" with
      | none => rfl
      | some range => exact parseRange_receive http range bytes
  | some ims =>
      cases header "Range" with
      | none => rfl
      | some range =>
          exact parseRange_receive { http with ifModifiedSince := pf.parseHttpDate ims } range bytes

/--
**The head is read the same whatever follows it.**

The reader stops at the index the detection machine has left, and nothing it looks
at lies behind that.
-/
theorem readRequest_receive (h : http.checkedIdx ≤ http.readIdx) (bytes : Bytes) :
    readRequest pf (http.receive bytes) = (readRequest pf http).receive bytes := by
  have hline := readRequestLine_receive pf h bytes
  have hbytes : ((readRequestLine pf http).receive bytes).requestBytes
      = (readRequestLine pf http).requestBytes := requestBytes_receive h bytes
  unfold readRequest readHeaders
  rw [hline, hbytes]
  simp only
  rw [readConditions_receive]
  rfl

theorem applyVhost_receive (pf : Platform) (cfg : ServerConfig) (http : HttpConn) (bytes : Bytes) :
    applyVhost pf cfg (http.receive bytes) = (applyVhost pf cfg http).receive bytes := by
  unfold applyVhost
  show (if (cfg.vhost && !http.host.isEmpty) = true then _ else _) = _
  split <;> rfl

theorem splitPathInfo_receive (http : HttpConn) (bytes : Bytes) :
    splitPathInfo cfg w (http.receive bytes) = (splitPathInfo cfg w http).receive bytes := by
  unfold splitPathInfo
  show (if (cfg.vhost && !http.vhostDir.isEmpty) = true then _ else
    if (stripUntil (fun path => w.fs.exists_ (docFile cfg path)) http.origFilename.length
      http.origFilename []).2.1 = [] then _ else _) = _
  split
  · rfl
  · simp only
    split <;> rfl

theorem resolveRequest_receive (http : HttpConn) (normalized : Str) (bytes : Bytes) :
    resolveRequest pf cfg w (http.receive bytes) normalized
      = (resolveRequest pf cfg w http normalized).receive bytes := by
  have hvhost := applyVhost_receive pf cfg { http with origFilename := normalized } bytes
  unfold resolveRequest
  rw [← splitPathInfo_receive, ← hvhost]
  rfl

/-- The file of a request is of its head. -/
theorem requestFile_receive (http : HttpConn) (normalized : Str) (bytes : Bytes) :
    requestFile pf cfg (http.receive bytes) normalized = requestFile pf cfg http normalized := by
  have hvhost := applyVhost_receive pf cfg { http with origFilename := normalized } bytes
  have hname := congrArg HttpConn.origFilename hvhost
  exact congrArg (docFile cfg) hname

/-- So is what is decided about a path. -/
theorem routePath_receive (http : HttpConn) (file : Path) (bytes : Bytes) :
    routePath cfg (http.receive bytes) file = (routePath cfg http file).receive bytes := by
  unfold routePath
  show (if isCgi cfg http.origFilename then _ else if http.pathInfo ≠ [] then _ else _) = _
  repeat' split
  all_goals rfl

theorem routeUrl_receive (http : HttpConn) (bytes : Bytes) :
    routeUrl pf cfg w (http.receive bytes) = (routeUrl pf cfg w http).receive bytes := by
  have hencoded : (http.receive bytes).encodedUrl = http.encodedUrl := rfl
  have hdecoded : (http.receive bytes).decodedUrl = http.decodedUrl := rfl
  unfold routeUrl
  rw [hencoded, hdecoded]
  split
  · rfl
  cases normalizePath http.decodedUrl with
  | none => rfl
  | some normalized =>
      simp only
      rw [resolveRequest_receive, requestFile_receive, routePath_receive]

theorem route_receive (h : http.checkedIdx ≤ http.readIdx) (bytes : Bytes) :
    route pf cfg w (http.receive bytes) = (route pf cfg w http).receive bytes := by
  have hcheck : requestLineCheck ((readRequestLine pf http).receive bytes)
      = requestLineCheck (readRequestLine pf http) := by
    have hbytes : ((readRequestLine pf http).receive bytes).requestBytes
        = (readRequestLine pf http).requestBytes := requestBytes_receive h bytes
    unfold requestLineCheck
    rw [hbytes]
    rfl
  unfold route
  rw [readRequestLine_receive pf h, hcheck, readRequest_receive h]
  cases requestLineCheck (readRequestLine pf http) with
  | some e => rfl
  | none => exact routeUrl_receive (readRequest pf http) bytes

/-- Of the world, a route looks at the tree only. -/
theorem route_fs {w' : World} (h : w'.fs = w.fs) : route pf cfg w' http = route pf cfg w http := by
  have hresolve : ∀ http normalized, resolveRequest pf cfg w' http normalized
      = resolveRequest pf cfg w http normalized := by
    intro http normalized
    unfold resolveRequest splitPathInfo
    rw [h]
  unfold route routeUrl
  simp only [hresolve]

end

/-! ### The same dispatch

Between two reads other connections are served, and they may change what a program
is chosen and admitted by.  What has to be as it was is named in `Moment.Same`, and
the rest, the other connections and the log among it, may be anything.
-/

/--
What a handler finds when it is called: the shared state as the other connections
left it, and the world.
-/
structure Moment where
  shared : Shared
  world : World

/--
Nothing that a program is chosen, admitted or told by has changed: the tree, the
name of the host, the throttle table and the count of running programs.
-/
structure Moment.Same (m m' : Moment) : Prop where
  fs : m'.world.fs = m.world.fs
  hostname : m'.world.hostname = m.world.hostname
  throttles : m'.shared.throttles = m.shared.throttles
  activeCgis : m'.shared.activeCgis = m.shared.activeCgis

/-- A fresh connection that has these bytes in its buffer, looked at so far. -/
def receivedSlot (peer : PeerAddr) (buf : Bytes) (checkedIdx : Nat) (state : ParseState) :
    ConnSlot :=
  { ConnSlot.accepted peer with http := .received buf checkedIdx state }

/--
A fresh connection whose request has been read as `http`, with these bytes in its
buffer.
-/
def programSlot (peer : PeerAddr) (http : HttpConn) (buf : Bytes) : ConnSlot :=
  { ConnSlot.accepted peer with http := { http with readBuf := buf } }

section

variable {pf : Platform} {cfg : ServerConfig} {m m' : Moment} {peer : PeerAddr}
  {http : HttpConn} {buf buf' : Bytes}

theorem resolveScript_same (hm : m.Same m') (cfg : ServerConfig) (http : HttpConn)
    (buf buf' : Bytes) :
    resolveScript cfg m'.world { http with readBuf := buf' }
      = resolveScript cfg m.world { http with readBuf := buf } := by
  unfold resolveScript
  rw [hm.fs]

/-- A script that could be run still can. -/
theorem runnable_same (hm : m.Same m') (script : Str) :
    runnable cfg m'.world script = runnable cfg m.world script := by
  unfold runnable
  rw [hm.fs]

theorem cgiLimitReached_same (hm : m.Same m') :
    cgiLimitReached cfg m'.shared = cgiLimitReached cfg m.shared := by
  unfold cgiLimitReached
  rw [hm.activeCgis]

/-- The same script is run. -/
theorem ranScript_same (hm : m.Same m') (pf : Platform) (cfg : ServerConfig) (http : HttpConn)
    (buf buf' : Bytes) :
    ranScript pf cfg m'.world m'.shared { http with readBuf := buf' }
      = ranScript pf cfg m.world m.shared { http with readBuf := buf } := by
  unfold ranScript
  simp only [resolveScript_same hm cfg http buf buf', runnable_same hm,
    cgiLimitReached_same hm, hm.throttles]

/-- Two connections of which the throttle table is asked the same. -/
structure SameEntry (v v' : View) : Prop where
  throttles : v'.shared.throttles = v.shared.throttles
  isCgi : v'.slot.isCgi = v.slot.isCgi
  throttle : v'.slot.throttle = v.slot.throttle
  origFilename : v'.slot.http.origFilename = v.slot.http.origFilename

/-- Whether an error page can be sent does not depend on the page. -/
theorem SameEntry.sendError {w w' : World} {v v' u : View} {e e' : ErrorReply}
    (hs : SameEntry v v') (h : sendError pf w v e = .ok u) :
    ∃ u', sendError pf w' v' e' = .ok u' := by
  obtain ⟨⟨d, throttles⟩, hd, -⟩ := bind_eq_ok.mp h
  have hentry : entryDecision pf (v'.respond (errorResponse pf w' v'.slot.http e') .none)
      = entryDecision pf (v.respond (errorResponse pf w v.slot.http e) .none) := by
    unfold entryDecision
    show (if (!v'.slot.isCgi && !v'.slot.throttle.checked) = true then
      askThrottle pf v'.shared.throttles v'.slot.http.origFilename else
        .ok (.unlimited, v'.shared.throttles)) = _
    rw [hs.isCgi, hs.throttle, hs.throttles, hs.origFilename]
    rfl
  unfold Thttpd.sendError transitionToSending
  rw [hentry, hd]
  exact ⟨_, rfl⟩

/-- A program that was called is always answered for. -/
theorem runCgi_answered (pf : Platform) (w : World) (v : View) (call : CgiCall) :
    ∃ v', runCgi pf w v call = .ok v' := by
  have hentry : ∀ (u : View) (charge : Option Int),
      u.shared = (releaseCgi (cgiStarted v call) charge).shared →
      u.slot.isCgi = (releaseCgi (cgiStarted v call) charge).slot.isCgi →
      ∃ v', transitionToSending pf w u = .ok v' := by
    intro u charge _ hcgi
    have hcgi : u.slot.isCgi = true := hcgi.trans (releaseCgi_keeps (cgiStarted v call) charge).1
    refine ⟨sendingView pf w u .unlimited u.shared.throttles, ?_⟩
    unfold transitionToSending entryDecision
    rw [if_neg (by simp [hcgi])]
    rfl
  unfold runCgi
  split
  · exact hentry _ (some cgiBytecount) rfl rfl
  · exact hentry _ none rfl rfl

theorem SameEntry.admitCgi {w w' : World} {v v' u : View} {script info : Str}
    (hs : SameEntry v v') (h : admitCgi pf cfg w v script info = .ok u) :
    ∃ u', admitCgi pf cfg w' v' script info = .ok u' := by
  obtain ⟨⟨d, throttles⟩, hd, h⟩ := bind_eq_ok.mp h
  unfold Thttpd.admitCgi
  rw [hs.throttles, hd]
  cases d with
  | reject =>
      have hreject : SameEntry
          (endCgi (v.admitted throttles (cgiThrottle v.slot.throttle .reject)))
          (endCgi (v'.admitted throttles (cgiThrottle v'.slot.throttle .reject))) :=
        ⟨rfl, hs.isCgi, hs.throttle, hs.origFilename⟩
      exact hreject.sendError h
  | unlimited => exact runCgi_answered pf w' _ _
  | allow tnums maxLimit minLimit => exact runCgi_answered pf w' _ _

/--
**A dispatch that works once works again.**

Its checks look at the head, the tree, the table and the count of programs, all of
which are the same at both moments.
-/
theorem dispatchCgi_same {v : View} (hm : m.Same m')
    (hp : bodyPending { http with readBuf := buf } = false)
    (hp' : bodyPending { http with readBuf := buf' } = false)
    (h : dispatchCgi pf cfg m.world ⟨m.shared, programSlot peer http buf⟩ = .ok v) :
    ∃ v', dispatchCgi pf cfg m'.world ⟨m'.shared, programSlot peer http buf'⟩ = .ok v' := by
  let x : View := (⟨m.shared, programSlot peer http buf⟩ : View).withCharset cfg
  let x' : View := (⟨m'.shared, programSlot peer http buf'⟩ : View).withCharset cfg
  have hsame : SameEntry x x' := ⟨hm.throttles, rfl, rfl, rfl⟩
  have hbegin : ∀ info, SameEntry (beginCgi x info) (beginCgi x' info) :=
    fun _ => ⟨hm.throttles, rfl, rfl, rfl⟩
  have hend : ∀ info, SameEntry (endCgi (beginCgi x info)) (endCgi (beginCgi x' info)) :=
    fun _ => ⟨hm.throttles, rfl, rfl, rfl⟩
  have hresolve : resolveScript cfg m'.world x'.slot.http = resolveScript cfg m.world x.slot.http :=
    resolveScript_same hm cfg { http with charset := cfg.charset } buf buf'
  unfold dispatchCgi at h ⊢
  rw [if_neg (by exact Bool.eq_false_iff.mp hp)] at h
  rw [if_neg (by exact Bool.eq_false_iff.mp hp'), cgiLimitReached_same hm]
  split at h
  · rename_i hlim
    rw [if_pos hlim]
    exact hsame.sendError h
  rename_i hlim
  rw [if_neg hlim]
  unfold startCgi at h ⊢
  rw [hresolve]
  simp only [runnable_same hm] at h ⊢
  split at h
  · rename_i hrun
    rw [if_pos hrun]
    exact (hbegin _).admitCgi h
  · rename_i hrun
    rw [if_neg hrun]
    exact (hend _).sendError h

end

/-! ### The request

Head and body together are what the client sends, and the buffer must take both.
Whatever comes behind the declared length is put into the buffer too, and
`dispatch_cgi` hands on as much as was declared.
-/

/--
A request to a program: a head that the detection machine takes to its last byte and
`process_request` sends to `dispatch_cgi`, with `http` what it left of the
connection, and a body of the declared length.  The two fit into the buffer.
-/
structure CgiRequest (pf : Platform) (cfg : ServerConfig) (w : World) (head body : Bytes)
    (http : HttpConn) : Prop where
  detected : gotRequest head 0 .firstWord = (.gotRequest, head.length, .gotRequest)
  routed : route pf cfg w (.received head head.length .gotRequest) = .program http
  length : body.length = (http.contentLength.getD 0).toNat
  fits : (head ++ body).length ≤ readBufSize

/--
Two calls of `execute_cgi` that differ at most in what comes after the first `n`
bytes of the body.
-/
structure SameCall (n : Nat) (call call' : CgiCall) : Prop where
  scriptPath : call'.scriptPath = call.scriptPath
  workingDir : call'.workingDir = call.workingDir
  env : call'.env = call.env
  postBody : call'.postBody.map (List.take n) = call.postBody.map (List.take n)

theorem route_program_sameBytes {pf : Platform} {cfg : ServerConfig} {w : World}
    {http http' : HttpConn} (h : route pf cfg w http = .program http') : SameBytes http http' := by
  obtain ⟨normalized, hres, -⟩ := route_program h
  rw [hres.resolved]
  exact (readRequest_sameBytes pf http).trans
    (dressed_resolveRequest pf cfg w ⟨Shared.start none,
      { ConnSlot.accepted localPeer with http := readRequest pf http }⟩ normalized).bytes

/-- The body is there exactly when it is not waited for. -/
theorem bodyComplete_eq (http : HttpConn) : bodyComplete http = !bodyPending http := by
  unfold bodyComplete bodyPending
  cases http.contentLength with
  | none => rfl
  | some cl =>
      simp only
      by_cases hcl : 0 < cl
      · simp only [hcl, if_true, decide_true, Bool.true_and, ← decide_not, Nat.not_lt]
      · simp [hcl]

namespace CgiRequest

variable {pf : Platform} {cfg : ServerConfig} {m m' : Moment} {peer : PeerAddr}
  {head body : Bytes} {http : HttpConn} {got : Bytes}

theorem readBuf (h : CgiRequest pf cfg m.world head body http) : http.readBuf = head :=
  (route_program_sameBytes h.routed).readBuf

theorem checkedIdx (h : CgiRequest pf cfg m.world head body http) :
    http.checkedIdx = head.length := (route_program_sameBytes h.routed).checkedIdx

theorem lengthOk (h : CgiRequest pf cfg m.world head body http) : LengthOk http :=
  (route_program_sameBytes h.routed).length fun _ hcl => nomatch hcl

/-- A head is not nothing. -/
theorem head_ne_nil (h : CgiRequest pf cfg m.world head body http) : head ≠ [] := by
  rintro rfl
  cases h.detected

/-- Nor is a request. -/
theorem length_pos (h : CgiRequest pf cfg m.world head body http) : 0 < (head ++ body).length :=
  List.length_pos_iff.mpr (List.append_ne_nil_of_left_ne_nil h.head_ne_nil body)

/-- A declared length is the length of the body. -/
theorem declared (h : CgiRequest pf cfg m.world head body http) {cl : Int}
    (hcl : http.contentLength = some cl) : cl = body.length ∧ asUsize cl = body.length := by
  obtain ⟨h₀, -⟩ := h.lengthOk cl hcl
  have hlen : body.length = cl.toNat := by
    have hlen := h.length
    rw [hcl] at hlen
    exact hlen
  rw [asUsize_of_nonneg h₀]
  omega

/-- With the head there, the body is waited for while bytes of it are missing. -/
theorem bodyPending_eq (h : CgiRequest pf cfg m.world head body http)
    (hgot : head.length ≤ got.length) :
    bodyPending { http with readBuf := got } = decide (got.length < (head ++ body).length) := by
  unfold bodyPending HttpConn.readIdx
  simp only [h.checkedIdx, List.length_append]
  cases hcl : http.contentLength with
  | none =>
      have hlen := h.length
      rw [hcl] at hlen
      have hbody : body.length = 0 := hlen
      simp only [hbody, Nat.add_zero]
      exact (decide_eq_false (by omega)).symm
  | some cl =>
      obtain ⟨hint, hnat⟩ := h.declared hcl
      simp only [hnat, ← Bool.decide_and]
      exact decide_eq_decide.mpr (by omega)

/-- Once the request is there, nothing is waited for. -/
theorem not_pending (h : CgiRequest pf cfg m.world head body http) (hgot : head ++ body <+: got) :
    bodyPending { http with readBuf := got } = false := by
  have hlen := hgot.length_le
  rw [h.bodyPending_eq (Nat.le_trans (List.prefix_append head body).length_le hlen)]
  exact decide_eq_false (Nat.not_lt.mpr hlen)

/-- The body a program is given starts with the declared one. -/
theorem postBody_eq (h : CgiRequest pf cfg m.world head body http) (extra : Bytes) :
    postBody { http with readBuf := head ++ body ++ extra }
      = http.contentLength.map fun _ => body ++ extra := by
  unfold postBody HttpConn.readIdx
  simp only [h.checkedIdx]
  cases hcl : http.contentLength with
  | none => rfl
  | some cl =>
      simp only [Option.bind_some, (h.declared hcl).2, List.length_append, Option.map_some]
      rw [if_pos (by omega), List.append_assoc, List.drop_left]

/--
**The calls do not depend on the bytes after the request.**

The body handed on is the declared length of what the buffer has, so it is the same
however much has come behind it.
-/
theorem ranCall_same (h : CgiRequest pf cfg m.world head body http) (hm : m.Same m')
    (extra : Bytes) :
    List.Forall₂ (SameCall body.length)
      (ranCall pf cfg m.world m.shared (programSlot peer http (head ++ body))).toList
      (ranCall pf cfg m'.world m'.shared (programSlot peer http (head ++ body ++ extra))).toList := by
  have hscript := ranScript_same hm pf cfg http (head ++ body) (head ++ body ++ extra)
  have hresolve := resolveScript_same hm cfg http (head ++ body) (head ++ body ++ extra)
  have hctx : ∀ info, cgiContext cfg m'.world (programSlot peer http (head ++ body ++ extra)) info
      = cgiContext cfg m.world (programSlot peer http (head ++ body)) info := by
    intro info
    unfold cgiContext
    rw [hm.hostname]
    rfl
  have hbody := h.postBody_eq extra
  have hwhole := h.postBody_eq []
  rw [List.append_nil, List.append_nil] at hwhole
  unfold ranCall programSlot
  rw [hscript, hresolve]
  cases ranScript pf cfg m.world m.shared { http with readBuf := head ++ body } with
  | none => exact .nil
  | some script =>
      refine .cons ⟨rfl, rfl, ?_, ?_⟩ .nil
      · exact congrArg (fun ctx => buildEnvp ctx script (cfg.cgiPattern.getD [])) (hctx _)
      · show (postBody { http with readBuf := head ++ body ++ extra }).map _
          = (postBody { http with readBuf := head ++ body }).map _
        rw [hbody, hwhole]
        cases http.contentLength with
        | none => rfl
        | some cl => simp

end CgiRequest

/-! ### One read

A read ends in the head, at its end, or in the body, and the detection machine is
called only while the head is not there.  Both ways to the end are taken here.
-/

section

variable {pf : Platform} {cfg : ServerConfig} {m m' : Moment} {peer : PeerAddr}
  {head body : Bytes} {http : HttpConn} {got chunk : Bytes} {slot : ConnSlot}

/-- What the buffer holds after a read: no more than fits. -/
def stored (got chunk : Bytes) : Bytes := (got ++ chunk).take readBufSize

/-- A connection on which part of a request has arrived. -/
inductive Waiting (cfg : ServerConfig) (peer : PeerAddr) (head : Bytes) (http : HttpConn)
    (got : Bytes) : ConnSlot → Prop
  /-- Part of the head: the detection machine has found nothing. -/
  | head {idx : Nat} {state : ParseState} :
      got.length < head.length → gotRequest got 0 .firstWord = (.noRequest, idx, state) →
      Waiting cfg peer head http got (receivedSlot peer got idx state)
  /-- The head and part of the body: the dispatch was put off. -/
  | body : head <+: got →
      Waiting cfg peer head http got
        { programSlot peer { http with charset := cfg.charset } got with pendingCgiBody := true }

theorem stored_eq (hroom : got.length ≤ readBufSize) :
    stored got chunk = got ++ chunk.take (readBufSize - got.length) := by
  unfold stored
  rw [List.take_append, List.take_of_length_le hroom]

theorem handleConnectionEvent_data {w : World} {v : View} (hstate : v.slot.state = .reading)
    (hstream : v.slot.stream.isNone = false) (hroom : v.slot.http.readBuf.length < readBufSize)
    (hread : w.read = .data chunk) (hchunk : chunk ≠ []) :
    handleConnectionEvent pf cfg w v =
      if v.slot.pendingCgiBody then
        resumeCgi pf cfg w (v.mapHttp fun http =>
          { http with readBuf := stored http.readBuf chunk })
      else detectRequest pf cfg w (v.mapHttp fun http =>
          { http with readBuf := stored http.readBuf chunk }) := by
  have hroom' : ¬ readBufSize - v.slot.http.readIdx = 0 := Nat.sub_ne_zero_of_lt hroom
  have htake : chunk.take (readBufSize - v.slot.http.readIdx) ≠ [] := by
    rw [Ne, List.take_eq_nil_iff]
    rintro (h | h)
    · exact hroom' h
    · exact hchunk h
  have hmap : (v.mapHttp fun http => { http with readBuf := stored http.readBuf chunk })
      = v.mapHttp fun http => http.receive (chunk.take (readBufSize - v.slot.http.readIdx)) := by
    unfold View.mapHttp
    simp only [stored_eq (Nat.le_of_lt hroom)]
    rfl
  unfold handleConnectionEvent handleRead
  simp only [hstate, hread, hstream, htake, hmap, hroom', if_false, Bool.false_eq_true]
  rfl

/-- Detection goes on where it was broken off. -/
theorem gotRequest_resumed (chunk : Bytes) {idx : Nat} {state : ParseState}
    (hroom : got.length ≤ readBufSize)
    (hno : gotRequest got 0 .firstWord = (.noRequest, idx, state)) :
    gotRequest (stored got chunk) idx state = gotRequest (stored got chunk) 0 .firstWord := by
  have hmore : (gotRequest got 0 .firstWord).1.asksForMore = true := by
    rw [hno]
    rfl
  have hon := gotRequest_resumes.goesOn (Nat.zero_le _) hmore
    (chunk.take (readBufSize - got.length))
  rw [hno] at hon
  rw [stored_eq hroom]
  exact hon

/-- The machine has looked at what came. -/
theorem receivedSlot_detected {shared : Shared} {idx idx' : Nat} {state state' : ParseState}
    {verdict : GotRequest} (hdet : gotRequest got idx state = (verdict, idx', state')) :
    (⟨shared, receivedSlot peer got idx state⟩ : View).mapHttp HttpConn.detected
      = ⟨shared, receivedSlot peer got idx' state'⟩ := by
  show (⟨shared, receivedSlot peer got (gotRequest got idx state).2.1
    (gotRequest got idx state).2.2⟩ : View) = _
  rw [hdet]

/-- It asks for more. -/
theorem detectRequest_more {w : World} {v : View}
    (h : (gotRequest v.slot.http.readBuf v.slot.http.checkedIdx v.slot.http.parseState).1
      = .noRequest) :
    detectRequest pf cfg w v = .ok (v.mapHttp HttpConn.detected).keep := by
  rw [detectRequest_eq, h]
  rfl

/-- It found a request. -/
theorem detectRequest_found {w : World} {v : View}
    (h : (gotRequest v.slot.http.readBuf v.slot.http.checkedIdx v.slot.http.parseState).1
      = .gotRequest) :
    detectRequest pf cfg w v
      = processRequest pf cfg w (v.mapHttp HttpConn.detected) >>= fun v => pure v.keep := by
  rw [detectRequest_eq, h]

/-- The machine looks at every byte of the head before it finds the request. -/
theorem CgiRequest.noRequest (h : CgiRequest pf cfg m.world head body http) (hpre : got <+: head)
    (hlt : got.length < head.length) :
    ∃ idx state, gotRequest got 0 .firstWord = (.noRequest, idx, state) := by
  obtain ⟨rest, hrest⟩ := hpre
  have hdet := h.detected
  have hidx := (gotRequestFrom_idx (got.drop 0) 0 .firstWord).2
  rw [List.drop_zero, Nat.zero_add] at hidx
  cases hmore : (gotRequest got 0 .firstWord).1.asksForMore with
  | true =>
      have hno := GotRequest.asksForMore_iff.mp hmore
      exact ⟨_, _, Prod.ext hno rfl⟩
  | false =>
      have hstops := gotRequest_resumes.stops (Nat.zero_le _) hmore rest
      rw [hrest, hdet] at hstops
      have hlen : head.length = (gotRequest got 0 .firstWord).2.1 := congrArg (fun r => r.2.1) hstops
      exact absurd (hlen ▸ hidx) (Nat.not_le.mpr hlt)

theorem CgiRequest.detectRequest_head (h : CgiRequest pf cfg m.world head body http)
    (hm : m.Same m') (hhead : head <+: got) {idx : Nat} {state : ParseState}
    (hgot : gotRequest got idx state = gotRequest got 0 .firstWord) :
    detectRequest pf cfg m'.world ⟨m'.shared, receivedSlot peer got idx state⟩
      = dispatchCgi pf cfg m'.world ⟨m'.shared, programSlot peer http got⟩
        >>= fun v => pure v.keep := by
  obtain ⟨rest, rfl⟩ := hhead
  have hdone : (gotRequest head 0 .firstWord).1.asksForMore = false := by
    rw [h.detected]
    rfl
  have hstops := gotRequest_resumes.stops (Nat.zero_le _) hdone rest
  have hdet : gotRequest (head ++ rest) idx state = (.gotRequest, head.length, .gotRequest) :=
    hgot.trans (hstops.trans h.detected)
  have hroute : route pf cfg m'.world ((HttpConn.received head head.length .gotRequest).receive rest)
      = .program (http.receive rest) := by
    rw [route_receive (Nat.le_refl _), route_fs hm.fs, h.routed]
    rfl
  have hhttp : http.receive rest = { http with readBuf := head ++ rest } := by
    unfold HttpConn.receive
    rw [h.readBuf]
  rw [detectRequest_found (by exact congrArg Prod.fst hdet), receivedSlot_detected hdet]
  simp only [processRequest_eq]
  show ((route pf cfg m'.world ((HttpConn.received head head.length .gotRequest).receive rest)).follow
    pf cfg m'.world _ >>= fun v => pure v.keep) = _
  rw [hroute]
  simp only [Route.follow, hhttp]
  rfl

/-- Where a read on a waiting connection goes on. -/
theorem Waiting.read_head {w : World} {shared : Shared} {idx : Nat} {state : ParseState}
    (hroom : got.length < readBufSize) (hread : w.read = .data chunk) (hchunk : chunk ≠ []) :
    handleConnectionEvent pf cfg w ⟨shared, receivedSlot peer got idx state⟩
      = detectRequest pf cfg w ⟨shared, receivedSlot peer (stored got chunk) idx state⟩ :=
  handleConnectionEvent_data (v := ⟨shared, receivedSlot peer got idx state⟩) rfl rfl hroom hread
    hchunk

theorem Waiting.read_body {w : World} {shared : Shared} (hroom : got.length < readBufSize)
    (hread : w.read = .data chunk) (hchunk : chunk ≠ []) :
    handleConnectionEvent pf cfg w
        ⟨shared, { programSlot peer http got with pendingCgiBody := true }⟩
      = resumeCgi pf cfg w
        ⟨shared, { programSlot peer http (stored got chunk) with pendingCgiBody := true }⟩ :=
  handleConnectionEvent_data (v := ⟨shared, { programSlot peer http got with
    pendingCgiBody := true }⟩) rfl rfl hroom hread hchunk

/--
**The read that completes a request dispatches it**, whatever was put off before.

The cases are whether the head is complete with this read or was before.
-/
theorem Waiting.completes (hw : Waiting cfg peer head http got slot)
    (h : CgiRequest pf cfg m.world head body http) (hm : m.Same m')
    (hgot : got.length < (head ++ body).length) (hread : m'.world.read = .data chunk)
    (hchunk : chunk ≠ []) (hall : head ++ body <+: stored got chunk) :
    handleConnectionEvent pf cfg m'.world ⟨m'.shared, slot⟩
      = dispatchCgi pf cfg m'.world ⟨m'.shared, programSlot peer http (stored got chunk)⟩
        >>= fun v => pure v.keep := by
  have hroom : got.length < readBufSize := Nat.lt_of_lt_of_le hgot h.fits
  have hhead : head <+: stored got chunk := (List.prefix_append _ _).trans hall
  cases hw with
  | head _ hno =>
      rw [Waiting.read_head hroom hread hchunk]
      exact h.detectRequest_head hm hhead (gotRequest_resumed chunk (Nat.le_of_lt hroom) hno)
  | body _ =>
      rw [Waiting.read_body hroom hread hchunk]
      have hthere : bodyComplete { http with readBuf := stored got chunk } = true := by
        rw [bodyComplete_eq, h.not_pending hall]
        rfl
      unfold resumeCgi
      rw [if_pos (by exact hthere)]
      rfl

/-- Short of its body, a dispatch is put off. -/
theorem CgiRequest.dispatchCgi_waits {w : World} {shared : Shared}
    (h : CgiRequest pf cfg m.world head body http) (hhead : head <+: got)
    (hlt : got.length < (head ++ body).length) :
    dispatchCgi pf cfg w ⟨shared, programSlot peer http got⟩
      = .ok ⟨shared, { programSlot peer { http with charset := cfg.charset } got with
        pendingCgiBody := true }⟩ := by
  have hpending := (h.bodyPending_eq hhead.length_le).trans (decide_eq_true hlt)
  unfold dispatchCgi
  rw [if_pos (by exact hpending)]
  rfl

/-- Short of its head, the machine asks for more. -/
theorem CgiRequest.detectRequest_short {w : World} {shared : Shared} {idx : Nat}
    {state : ParseState} (h : CgiRequest pf cfg m.world head body http)
    (hpre : got <+: head ++ body) (hhead : ¬ head <+: got)
    (hgot : gotRequest got idx state = gotRequest got 0 .firstWord) :
    ∃ slot', detectRequest pf cfg w ⟨shared, receivedSlot peer got idx state⟩
        = .ok ⟨shared, some slot'⟩ ∧ Waiting cfg peer head http got slot' := by
  have hhead' : head <+: head ++ body := List.prefix_append head body
  have hshort : got.length < head.length := by
    by_contra hlong
    exact hhead (List.prefix_of_prefix_length_le hhead' hpre (Nat.not_lt.mp hlong))
  obtain ⟨idx', state', hno⟩ := h.noRequest
    (List.prefix_of_prefix_length_le hpre hhead' (Nat.le_of_lt hshort)) hshort
  have hdet := hgot.trans hno
  refine ⟨_, ?_, .head hshort hno⟩
  rw [detectRequest_more (by exact congrArg Prod.fst hdet), receivedSlot_detected hdet]
  rfl

/--
**A read that leaves a request incomplete calls no program.**

The bytes are stored and looked at, and the state that is left is one that waits
again.
-/
theorem Waiting.goesOn (hw : Waiting cfg peer head http got slot)
    (h : CgiRequest pf cfg m.world head body http) (hm : m.Same m')
    (hread : m'.world.read = .data chunk) (hchunk : chunk ≠ [])
    (hpre : got ++ chunk <+: head ++ body) (hlt : (got ++ chunk).length < (head ++ body).length) :
    ∃ slot', handleConnectionEvent pf cfg m'.world ⟨m'.shared, slot⟩
        = .ok ⟨m'.shared, some slot'⟩ ∧
      Waiting cfg peer head http (got ++ chunk) slot' := by
  have hlen : got.length ≤ (got ++ chunk).length := by simp
  have hroom : got.length < readBufSize := Nat.lt_of_le_of_lt hlen (Nat.lt_of_lt_of_le hlt h.fits)
  have hstored : stored got chunk = got ++ chunk :=
    List.take_of_length_le (Nat.le_of_lt (Nat.lt_of_lt_of_le hlt h.fits))
  cases hw with
  | head _ hno =>
      have hon := gotRequest_resumed chunk (Nat.le_of_lt hroom) hno
      rw [Waiting.read_head hroom hread hchunk]
      rw [hstored] at hon ⊢
      by_cases hhead : head <+: got ++ chunk
      · rw [h.detectRequest_head hm hhead hon, h.dispatchCgi_waits hhead hlt]
        exact ⟨_, rfl, .body hhead⟩
      · exact h.detectRequest_short hpre hhead hon
  | body hhead =>
      have hhead' := hhead.trans (List.prefix_append got chunk)
      have hmissing : bodyComplete { http with readBuf := got ++ chunk } = false := by
        rw [bodyComplete_eq, h.bodyPending_eq hhead'.length_le, decide_eq_true hlt]
        rfl
      rw [Waiting.read_body hroom hread hchunk, hstored]
      unfold resumeCgi
      rw [if_neg (by exact Bool.eq_false_iff.mp hmissing)]
      exact ⟨_, rfl, .body hhead'⟩

end

/-! ### After the request

A connection that is done with its request sends, lingers, or is closed, and none of
these reads again.
-/

section

variable {pf : Platform} {cfg : ServerConfig} {w : World} {v : View} {out : Outcome}

/-- No program was called, and nothing is read any more. -/
structure Silent (v : View) (out : Outcome) : Prop where
  calls : out.shared.cgiCalls = v.shared.cgiCalls
  state : ∀ slot, out.slot = some slot → slot.state ≠ .reading

/-- Closing calls no program. -/
theorem closeConnection_silent (v : View) : Silent v (closeConnection v) :=
  ⟨rfl, fun _ h => nomatch h⟩

/-- Nor does leaving a connection alone. -/
theorem keep_silent {u : View} (hcalls : u.shared.cgiCalls = v.shared.cgiCalls)
    (hstate : u.slot.state ≠ .reading) : Silent v u.keep := by
  refine ⟨hcalls, ?_⟩
  intro slot h
  cases h
  exact hstate

theorem handleSend_silent (hs : v.slot.state ≠ .reading) (h : handleSend pf w v = .ok out) :
    Silent v out := by
  cases handleSend_ends h with
  | finished _ => exact keep_silent rfl (fun hr => nomatch hr)
  | paused _ _ => exact keep_silent rfl (fun hr => nomatch hr)
  | closed _ => exact closeConnection_silent v
  | blocked _ _ => exact keep_silent rfl hs
  | wrote _ _ _ _ _ =>
      refine ⟨afterWrite_calls _ _ _ _, ?_⟩
      intro slot hslot
      rcases afterWrite_state hslot with hstate | hstate
      · rw [hstate]
        simp
      · rw [hstate]
        exact hs

/-- **A connection that is not reading calls no program and does not read again.** -/
theorem handleConnectionEvent_silent (hs : v.slot.state ≠ .reading)
    (h : handleConnectionEvent pf cfg w v = .ok out) : Silent v out := by
  cases handleConnectionEvent_ends h with
  | reading hr _ => exact absurd hr hs
  | sending _ h => exact handleSend_silent hs h
  | lingering _ => exact closeConnection_silent v
  | free _ => exact keep_silent rfl hs
  | pausing _ h =>
      cases handlePause_ends h with
      | waits => exact keep_silent rfl hs
      | closed => exact ⟨rfl, fun _ h => nomatch h⟩
      | woke h =>
          have hsilent := handleSend_silent (v := wake v) (fun hr => nomatch hr) h
          exact ⟨hsilent.calls, hsilent.state⟩

/-- A program request with its body is answered at once. -/
theorem dispatchCgi_sending {v' : View} (hp : bodyPending v.slot.http = false)
    (hpending : v.slot.pendingCgiBody = false) (h : dispatchCgi pf cfg w v = .ok v') :
    v'.slot.state = .sending := by
  rcases dispatchCgi_processed h with ⟨u, -, rfl⟩ | ⟨u, ha⟩
  · have hkeeps := (dispatchCgi_ran hp h).pending
    rw [hpending] at hkeeps
    cases hkeeps
  · obtain ⟨⟨d, throttles⟩, -, h⟩ := bind_eq_ok.mp ha.sends
    cases h
    exact sendingSlot_state pf w u.slot d

end

/-! ### A connection and its programs

The reads of one connection, with whatever happened between them, as a list of
moments.  An induction over that list puts the reads together, and the one that
completes the request is the only one that calls.
-/

/-- The bytes that can be read at a moment. -/
def Moment.received (m : Moment) : Bytes :=
  match m.world.read with
  | .data bytes => bytes
  | _ => []

/-- The calls of `execute_cgi` a handler made. -/
def Moment.calls (m : Moment) (out : Outcome) : List CgiCall :=
  out.shared.cgiCalls.drop m.shared.cgiCalls.length

/--
The calls of `execute_cgi` of each event of a connection, and the connection that is
left.  Between two events the others may do what they like.
-/
def connectionCalls (pf : Platform) (cfg : ServerConfig) :
    Option ConnSlot → List Moment → Except Panic (List (List CgiCall) × Option ConnSlot)
  | slot, [] => .ok ([], slot)
  | none, _ :: _ => .ok ([], none)
  | some slot, m :: ms => do
      let out ← handleConnectionEvent pf cfg m.world ⟨m.shared, slot⟩
      let (calls, last) ← connectionCalls pf cfg out.slot ms
      pure (m.calls out :: calls, last)

section

variable {pf : Platform} {cfg : ServerConfig} {m : Moment} {peer : PeerAddr}
  {head body : Bytes} {http : HttpConn} {slot : ConnSlot}

theorem Moment.read_eq (h : m.received ≠ []) : m.world.read = .data m.received := by
  unfold Moment.received at h ⊢
  split at h
  · rename_i bytes hread
    simp only [hread]
  · exact absurd rfl h

/-- The calls of the first event and those of the others. -/
theorem connectionCalls_cons {ms : List Moment} {out : Outcome} {calls : List (List CgiCall)}
    {last : Option ConnSlot}
    (h : handleConnectionEvent pf cfg m.world ⟨m.shared, slot⟩ = .ok out)
    (hrest : connectionCalls pf cfg out.slot ms = .ok (calls, last)) :
    connectionCalls pf cfg (some slot) (m :: ms) = .ok (m.calls out :: calls, last) := by
  unfold connectionCalls
  rw [h]
  show (connectionCalls pf cfg out.slot ms >>= _) = _
  rw [hrest]
  rfl

/-- A connection that is done with its request calls no program, however long it goes on. -/
theorem connectionCalls_silent : ∀ (ms : List Moment) {slot : ConnSlot}
    {calls : List (List CgiCall)} {last : Option ConnSlot}, slot.state ≠ .reading →
    connectionCalls pf cfg (some slot) ms = .ok (calls, last) → ∀ c ∈ calls, c = [] := by
  intro ms
  induction ms with
  | nil =>
      intro slot calls last _ h c hc
      cases h
      cases hc
  | cons m ms ih =>
      intro slot calls last hs h c hc
      obtain ⟨out, hout, h⟩ := bind_eq_ok.mp h
      obtain ⟨⟨calls', last'⟩, hrest, h⟩ := bind_eq_ok.mp h
      cases h
      have hsilent := handleConnectionEvent_silent hs hout
      rcases List.mem_cons.mp hc with rfl | hc
      · unfold Moment.calls
        rw [hsilent.calls, List.drop_length]
      · cases hslot : out.slot with
        | none =>
            rw [hslot] at hrest
            cases ms with
            | nil => cases hrest; cases hc
            | cons m' ms' => cases hrest; cases hc
        | some slot' =>
            rw [hslot] at hrest
            exact ih (hsilent.state slot' hslot) hrest c hc

/--
The reads of a request of which `got` is there: `n` of them leave it incomplete and
call no program, and the next one completes it, makes `calls` and leaves `last`.
-/
structure Served (pf : Platform) (cfg : ServerConfig) (request got : Bytes) (slot : ConnSlot)
    (reads : List Moment) (n : Nat) (calls : List CgiCall) (last : ConnSlot) : Prop where
  calls : connectionCalls pf cfg (some slot) (reads.take (n + 1))
    = .ok (List.replicate n [] ++ [calls], some last)
  before : (got ++ ((reads.take n).map Moment.received).flatten).length < request.length
  complete : request <+: got ++ ((reads.take (n + 1)).map Moment.received).flatten

/-- What the dispatch of a request leads to, at whatever moment it happens. -/
structure Dispatched (pf : Platform) (cfg : ServerConfig) (m : Moment) (peer : PeerAddr)
    (http : HttpConn) (request : Bytes) (n : Nat) (calls : List CgiCall) (last : ConnSlot) :
    Prop where
  same : List.Forall₂ (SameCall n)
    (ranCall pf cfg m.world m.shared (programSlot peer http request)).toList calls
  state : last.state = .sending

/-- The read that completes a request makes the calls of the dispatch. -/
theorem Waiting.dispatches {m' : Moment} {got : Bytes} {v : View}
    (hw : Waiting cfg peer head http got slot)
    (h : CgiRequest pf cfg m.world head body http) (hm : m.Same m')
    (hgot : got.length < (head ++ body).length) (hread : m'.received ≠ [])
    (hall : head ++ body <+: got ++ m'.received)
    (hdispatch : dispatchCgi pf cfg m.world ⟨m.shared, programSlot peer http (head ++ body)⟩
      = .ok v) :
    ∃ out last, handleConnectionEvent pf cfg m'.world ⟨m'.shared, slot⟩ = .ok out ∧
      out.slot = some last ∧
      Dispatched pf cfg m peer http (head ++ body) body.length (m'.calls out) last := by
  have hstored : head ++ body <+: stored got m'.received :=
    List.prefix_take_iff.mpr ⟨hall, h.fits⟩
  obtain ⟨extra, hextra⟩ := hstored
  have hp' := h.not_pending (List.prefix_append (head ++ body) extra)
  obtain ⟨v', hv'⟩ := dispatchCgi_same hm (h.not_pending (List.prefix_refl _)) hp' hdispatch
  refine ⟨v'.keep, v'.slot, ?_, rfl, ?_, ?_⟩
  · rw [hw.completes h hm hgot (Moment.read_eq hread) hread ⟨extra, hextra⟩, ← hextra, hv']
    rfl
  · show List.Forall₂ _ _ (newCalls ⟨m'.shared, programSlot peer http (head ++ body ++ extra)⟩ v')
    rw [dispatchCgi_newCalls (by exact hp') hv']
    exact h.ranCall_same hm extra
  · exact dispatchCgi_sending (by exact hp') rfl hv'

/--
**However the rest of a request is cut, one read completes it and dispatches it.**

Induction on the list of reads: each leaves the request incomplete or completes it,
and after the one that completes it the connection is silent.
-/
theorem Waiting.served {v : View} (h : CgiRequest pf cfg m.world head body http)
    (hdispatch : dispatchCgi pf cfg m.world ⟨m.shared, programSlot peer http (head ++ body)⟩
      = .ok v) :
    ∀ (reads : List Moment) {got : Bytes} {slot : ConnSlot},
      Waiting cfg peer head http got slot → got.length < (head ++ body).length →
      (∀ r ∈ reads, m.Same r ∧ r.received ≠ []) →
      head ++ body <+: got ++ (reads.map Moment.received).flatten →
      ∃ n calls last, Served pf cfg (head ++ body) got slot reads n calls last ∧
        Dispatched pf cfg m peer http (head ++ body) body.length calls last := by
  intro reads
  induction reads with
  | nil =>
      intro got slot _ hgot _ hall
      have hlen := hall.length_le
      rw [List.map_nil, List.flatten_nil, List.append_nil] at hlen
      exact absurd hgot (Nat.not_lt.mpr hlen)
  | cons r reads ih =>
      intro got slot hw hgot hreads hall
      obtain ⟨hm, hread⟩ := hreads r List.mem_cons_self
      rw [List.map_cons, List.flatten_cons, ← List.append_assoc] at hall
      by_cases hlt : (got ++ r.received).length < (head ++ body).length
      · have hpre : got ++ r.received <+: head ++ body :=
          List.prefix_of_prefix_length_le (List.prefix_append _ _) hall (Nat.le_of_lt hlt)
        obtain ⟨slot', hevent, hw'⟩ := hw.goesOn h hm (Moment.read_eq hread) hread hpre hlt
        obtain ⟨n, calls, last, hs, hd⟩ := ih hw' hlt
          (fun r' hr' => hreads r' (List.mem_cons_of_mem r hr')) hall
        have hnone : r.calls ⟨r.shared, some slot'⟩ = [] := List.drop_length
        refine ⟨n + 1, calls, last, ⟨?_, ?_, ?_⟩, hd⟩
        · rw [List.take_succ_cons, connectionCalls_cons hevent hs.calls, hnone]
          rfl
        · rw [List.take_succ_cons, List.map_cons, List.flatten_cons, ← List.append_assoc]
          exact hs.before
        · rw [List.take_succ_cons, List.map_cons, List.flatten_cons, ← List.append_assoc]
          exact hs.complete
      · have hpre : head ++ body <+: got ++ r.received :=
          List.prefix_of_prefix_length_le hall (List.prefix_append _ _) (Nat.not_lt.mp hlt)
        obtain ⟨out, last, hevent, hslot, hd⟩ := hw.dispatches h hm hgot hread hpre hdispatch
        refine ⟨0, r.calls out, last, ⟨?_, ?_, ?_⟩, hd⟩
        · refine connectionCalls_cons hevent ?_
          rw [hslot]
          rfl
        · simpa using hgot
        · simpa using hpre

theorem CgiRequest.accepted (h : CgiRequest pf cfg m.world head body http) (peer : PeerAddr) :
    Waiting cfg peer head http [] (.accepted peer) := by
  show Waiting cfg peer head http [] (receivedSlot peer [] 0 .firstWord)
  exact .head (List.length_pos_iff.mpr h.head_ne_nil) rfl

/-- The request in one read is one dispatch. -/
theorem CgiRequest.one_read {out : Outcome} (h : CgiRequest pf cfg m.world head body http)
    (hread : m.world.read = .data (head ++ body))
    (hout : handleConnectionEvent pf cfg m.world ⟨m.shared, .accepted peer⟩ = .ok out) :
    ∃ v, dispatchCgi pf cfg m.world ⟨m.shared, programSlot peer http (head ++ body)⟩ = .ok v ∧
      m.calls out = (ranCall pf cfg m.world m.shared (programSlot peer http (head ++ body))).toList := by
  have hstored : stored [] (head ++ body) = head ++ body := List.take_of_length_le h.fits
  have hwhole : head ++ body <+: stored [] (head ++ body) :=
    ⟨[], by rw [hstored, List.append_nil]⟩
  rw [(h.accepted peer).completes h ⟨rfl, rfl, rfl, rfl⟩ h.length_pos hread
    (List.length_pos_iff.mp h.length_pos) hwhole, hstored] at hout
  obtain ⟨v, hv, hkeep⟩ := bind_eq_ok.mp hout
  cases hkeep
  exact ⟨v, hv, dispatchCgi_newCalls (by exact h.not_pending (List.prefix_refl _)) hv⟩

/--
**A request to a program does not depend on how its bytes arrive.**  At `m` the whole
request comes in one read.  Cut it into reads in any way, with the tree, the host name, the
throttle table and the count of running programs as they were at `m`: no program is called
while bytes of the request are missing, and the read that completes it makes the same call
as the one read, up to bytes after the declared body.  There is exactly one call when the
program is there, below the limit and not refused by the table, and none otherwise; and the
connection makes no further call.
-/
theorem cgi_calls_segmented {out : Outcome} {reads : List Moment}
    (h : CgiRequest pf cfg m.world head body http)
    (hread : m.world.read = .data (head ++ body))
    (hout : handleConnectionEvent pf cfg m.world ⟨m.shared, .accepted peer⟩ = .ok out)
    (hreads : ∀ r ∈ reads, m.Same r ∧ r.received ≠ [])
    (hall : head ++ body <+: (reads.map Moment.received).flatten) :
    ∃ n calls last,
      Served pf cfg (head ++ body) [] (.accepted peer) reads n calls last ∧
      List.Forall₂ (SameCall body.length) (m.calls out) calls ∧
      calls.length = (if (ranScript pf cfg m.world m.shared http).isSome then 1 else 0) ∧
      ∀ later callss slot, connectionCalls pf cfg (some last) later = .ok (callss, slot) →
        ∀ c ∈ callss, c = [] := by
  obtain ⟨v, hdispatch, hcalls⟩ := h.one_read hread hout
  obtain ⟨n, calls, last, hserved, hdone⟩ := Waiting.served h hdispatch reads (h.accepted peer)
    h.length_pos hreads (by simpa using hall)
  refine ⟨n, calls, last, hserved, hcalls ▸ hdone.same, ?_, ?_⟩
  · have hscript : ranScript pf cfg m.world m.shared { http with readBuf := head ++ body }
        = ranScript pf cfg m.world m.shared http := rfl
    rw [← hdone.same.length_eq]
    unfold ranCall programSlot
    simp only [hscript]
    cases ranScript pf cfg m.world m.shared http <;> rfl
  · intro later callss slot hlater
    exact connectionCalls_silent later (by rw [hdone.state]; exact fun hr => nomatch hr) hlater

end

/-! ### A form that is posted

Three reads of a form: the head in two parts, and the body with a line end behind
it.
-/

theorem Route.eq_program {r : Route} (h : r.isProgram = true) : r = .program r.http := by
  cases r with
  | refused http reply => cases h
  | static http file => cases h
  | program http => rfl

/-- The head of a request with a body of two bytes. -/
def postHead : Bytes := asBytes "POST /a.cgi HTTP/1.0\r\nContent-Length: 2\r\n\r\n".toList

/-- Bytes come in, and nothing else has happened. -/
def postMoment (bytes : Bytes) : Moment :=
  ⟨Shared.start none, { World.still scriptTree with read := .data bytes }⟩

/-- A cut in the head, one in the body, and a line end after it. -/
def postReads : List Moment :=
  [postMoment (postHead.take 12), postMoment (postHead.drop 12 ++ [111]), postMoment [107, 13, 10]]

theorem postHead_request :
    CgiRequest .epoch cgiConfig (postMoment (postHead ++ [111, 107])).world postHead [111, 107]
      (route .epoch cgiConfig (postMoment (postHead ++ [111, 107])).world
        (.received postHead postHead.length .gotRequest)).http where
  detected := by decide +kernel
  routed := Route.eq_program (by decide +kernel)
  length := by decide +kernel
  fits := by decide

/-- The program is called once, and not by the first two reads. -/
theorem cgi_calls_segmented_post :
    ∃ n calls last, Served .epoch cgiConfig (postHead ++ [111, 107]) [] (.accepted localPeer)
      postReads n calls last ∧ calls.length = 1 := by
  have hout := eq_ok_of_panicOf (x := handleConnectionEvent .epoch cgiConfig
    (postMoment (postHead ++ [111, 107])).world
    ⟨(postMoment (postHead ++ [111, 107])).shared, .accepted localPeer⟩)
    (View.keep ⟨Shared.start none, .accepted localPeer⟩) (by decide +kernel)
  have hreads : ∀ r ∈ postReads, (postMoment (postHead ++ [111, 107])).Same r ∧ r.received ≠ [] := by
    intro r hr
    simp only [postReads, List.mem_cons, List.not_mem_nil, or_false] at hr
    rcases hr with rfl | rfl | rfl
    · exact ⟨⟨rfl, rfl, rfl, rfl⟩, by decide +kernel⟩
    · exact ⟨⟨rfl, rfl, rfl, rfl⟩, by decide +kernel⟩
    · exact ⟨⟨rfl, rfl, rfl, rfl⟩, by decide +kernel⟩
  obtain ⟨n, calls, last, hserved, -, hone, -⟩ :=
    cgi_calls_segmented postHead_request rfl hout hreads ⟨[13, 10], by decide +kernel⟩
  refine ⟨n, calls, last, hserved, hone.trans ?_⟩
  rw [if_pos (by decide +kernel)]

end Thttpd
