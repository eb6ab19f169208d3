/-
What a request gets: the content of a path, the run of a program, or neither.

`serveRequest` is a request from its head to its answer.  `route` says where it
goes, and `sentPayload` and `ranScript` say what comes of it there, as functions of
the request, the configuration and the tree alone.  The two results at the end are
equations, so that a property of what is sent can be turned into a condition on
those inputs.

`route` has no state: it is a function of the connection as it was read, of the tree
and of the configuration, with a constructor for each of the three ends.  That the
program does what the route says (`processRequest_eq`) is the bridge between the
handlers, which pass views around, and the conditions on requests that the results
are stated with.
-/
import Thttpd.Proofs.Dispatch
import Thttpd.Proofs.Range

namespace Thttpd

open Text Fs

/--
What came after the head of a request: the rest of its body, and the server and the
world as they were by then.
-/
structure Later where
  body : Bytes
  shared : Shared
  world : World

/--
A connection that waited for its body, once it is there.  The other connections went
on in the meantime; the programs they ran are not counted.
-/
def Later.resume (later : Later) (v : View) : View :=
  bodyArrived
    { shared := { later.shared with cgiCalls := v.shared.cgiCalls }
      slot := { v.slot with http := v.slot.http.receive later.body } }

/--
A request from its head to its answer.  A program whose body comes later is
dispatched again when it is there; the tree is the same all through.
-/
def serveRequest (pf : Platform) (cfg : ServerConfig) (w : World) (v : View) (later : Later) :
    Except Panic View := do
  let v ← processRequest pf cfg w v
  if v.slot.pendingCgiBody then
    dispatchCgi pf cfg { later.world with fs := w.fs } (later.resume v)
  else pure v

/-- Nothing comes after the head, and nothing else happens. -/
def Later.nothing (w : World) (v : View) : Later := ⟨[], v.shared, w⟩

/-- A connection as `accept` left it, apart from the bytes it received. -/
structure Untouched (v : View) : Prop where
  isCgi : v.slot.isCgi = false
  checked : v.slot.throttle.checked = false
  pending : v.slot.pendingCgiBody = false
  received : ∃ buf checkedIdx state, v.slot.http = .received buf checkedIdx state

/-- Nothing has been sent on it. -/
theorem Untouched.payload {v : View} (h : Untouched v) : v.slot.http.payload = .none := by
  obtain ⟨buf, checkedIdx, state, hhttp⟩ := h.received
  rw [hhttp]
  rfl

/-! ### Where a request goes

The order of the checks is that of the source: the request line, the length of the
URL, the path, the host, the program pattern.  A refusal at any of them is a page.
-/

/-- A request is refused, goes to a program, or goes to a file. -/
inductive Route where
  /-- To an error page. -/
  | refused (http : HttpConn) (reply : ErrorReply)
  /-- To `serve_static`, with a path. -/
  | static (http : HttpConn) (file : Path)
  /-- To `dispatch_cgi`. -/
  | program (http : HttpConn)

/-- The HTTP part a route leads on with. -/
def Route.http : Route → HttpConn
  | .refused http _ => http
  | .static http _ => http
  | .program http => http

/-- Whether the route leads to a program. -/
def Route.isProgram : Route → Bool
  | .program _ => true
  | _ => false

/-- The choice for a path that cleaned up, with the request resolved. -/
def routePath (cfg : ServerConfig) (http : HttpConn) (file : Path) : Route :=
  if isCgi cfg http.origFilename then .program http
  else if http.pathInfo ≠ [] then
    .refused http (.forbidden ErrorReply.pathinfoOnFile http.encodedUrl)
  else .static http file

/-- The choice for a request whose headers have been read. -/
def routeUrl (pf : Platform) (cfg : ServerConfig) (w : World) (http : HttpConn) : Route :=
  if maxUrlLength < byteLen http.encodedUrl then .refused http (.internalError http.encodedUrl)
  else match normalizePath http.decodedUrl with
    | none => .refused http (badPathReply http.decodedUrl)
    | some normalized =>
        routePath cfg (resolveRequest pf cfg w http normalized)
          (requestFile pf cfg http normalized)

/--
**Where a request goes.**

The branches of the source up to the point where it is clear who answers, as a
function that changes nothing.
-/
def route (pf : Platform) (cfg : ServerConfig) (w : World) (http : HttpConn) : Route :=
  match requestLineCheck (readRequestLine pf http) with
  | some e => .refused (readRequestLine pf http) e
  | none => routeUrl pf cfg w (readRequest pf http)

/-- The view with another HTTP part. -/
def View.setHttp (v : View) (http : HttpConn) : View := v.mapHttp fun _ => http

/-- Do what a route says. -/
def Route.follow (pf : Platform) (cfg : ServerConfig) (w : World) (v : View) :
    Route → Except Panic View
  | .refused http reply => sendError pf w (v.setHttp http) reply
  | .static http file => serveStatic pf cfg w (v.setHttp http) file
  | .program http => dispatchCgi pf cfg w (v.setHttp http)

theorem chooseHandler_eq (pf : Platform) (cfg : ServerConfig) (w : World) (v : View)
    (http : HttpConn) (file : Path) :
    chooseHandler pf cfg w (v.setHttp http) file = (routePath cfg http file).follow pf cfg w v := by
  unfold chooseHandler routePath
  show (if isCgi cfg http.origFilename = true then _ else if http.pathInfo ≠ [] then _ else _) = _
  split
  · rfl
  · split <;> rfl

/--
**Processing a request is following its route.**

From here on the proofs about requests are about routes, and what each of them does
is proved once.
-/
theorem processRequest_eq (pf : Platform) (cfg : ServerConfig) (w : World) (v : View) :
    processRequest pf cfg w v = (route pf cfg w v.slot.http).follow pf cfg w v := by
  unfold processRequest route
  cases requestLineCheck (readRequestLine pf v.slot.http) with
  | some e => rfl
  | none =>
      simp only
      unfold routeRequest routeUrl
      show (if maxUrlLength < byteLen (readRequest pf v.slot.http).encodedUrl then _ else
        match normalizePath (readRequest pf v.slot.http).decodedUrl with
        | none => _
        | some normalized => _) = _
      split
      · rfl
      · cases normalizePath (readRequest pf v.slot.http).decodedUrl with
        | none => rfl
        | some normalized => exact chooseHandler_eq pf cfg w v _ _

/-! ### What the throttle table lets through

The table is asked with the path as it was cleaned.  A reply that has been admitted
keeps its payload; one that has not may still become a refusal, which has none.
-/

/-- Whether the throttle table refuses a request path. -/
def rejected (pf : Platform) (throttles : Option ThrottleTable) (filename : Str) : Bool :=
  match askThrottle pf throttles filename with
  | .ok (.reject, _) => true
  | _ => false

theorem rejected_of_askThrottle {pf : Platform} {throttles throttles' : Option ThrottleTable}
    {filename : Str} {d : ThrottleDecision} (h : askThrottle pf throttles filename = .ok (d, throttles')) :
    rejected pf throttles filename = (d == .reject) := by
  unfold rejected
  rw [h]
  cases d <;> rfl

/-- What a view has to do with content and programs. -/
def View.sent (v : View) : Payload × List CgiCall × Bool :=
  (v.slot.http.payload, v.shared.cgiCalls, v.slot.pendingCgiBody)

theorem sendingSlot_payload (pf : Platform) (w : World) (slot : ConnSlot) (d : ThrottleDecision) :
    (sendingSlot pf w slot d).http.payload
      = if d = .reject then .none else slot.http.payload := by
  have hfill : (fillHeaderLen slot).payload = slot.http.payload := by
    unfold fillHeaderLen
    simp only
    split
    · split <;> rfl
    · rfl
  cases d with
  | unlimited => exact hfill
  | allow tnums maxLimit minLimit => exact hfill
  | reject => rfl

theorem sendingSlot_pending (pf : Platform) (w : World) (slot : ConnSlot) (d : ThrottleDecision) :
    (sendingSlot pf w slot d).pendingCgiBody = slot.pendingCgiBody := by
  cases d <;> rfl

/-- An answer that was admitted before keeps its payload. -/
theorem transitionToSending_sent {pf : Platform} {w : World} {u v' : View}
    (hadm : u.slot.isCgi = true ∨ u.slot.throttle.checked = true)
    (h : transitionToSending pf w u = .ok v') : v'.sent = u.sent := by
  obtain ⟨⟨d, throttles⟩, hd, h⟩ := bind_eq_ok.mp h
  cases h
  have hno : entryDecision pf u = .ok (.unlimited, u.shared.throttles) := by
    unfold entryDecision
    rw [if_neg]
    rcases hadm with h | h <;> simp [h]
  cases hno.symm.trans hd
  have hp := sendingSlot_payload pf w u.slot .unlimited
  have hq := sendingSlot_pending pf w u.slot .unlimited
  simp only [View.sent, sendingView, hp, hq]
  rfl

/-- One that was not may still be refused. -/
theorem transitionToSending_entry {pf : Platform} {w : World} {u v' : View}
    (hcgi : u.slot.isCgi = false) (hchecked : u.slot.throttle.checked = false)
    (h : transitionToSending pf w u = .ok v') :
    v'.sent = (if rejected pf u.shared.throttles u.slot.http.origFilename then .none
      else u.slot.http.payload, u.shared.cgiCalls, u.slot.pendingCgiBody) := by
  obtain ⟨⟨d, throttles⟩, hd, h⟩ := bind_eq_ok.mp h
  cases h
  unfold entryDecision at hd
  rw [if_pos (by simp [hcgi, hchecked])] at hd
  have hp := sendingSlot_payload pf w u.slot d
  have hq := sendingSlot_pending pf w u.slot d
  simp only [View.sent, sendingView, hp, hq, rejected_of_askThrottle hd]
  cases d <;> rfl

/-- An answer with no payload has none. -/
theorem transitionToSending_none {pf : Platform} {w : World} {u v' : View}
    (hnone : u.slot.http.payload = .none) (h : transitionToSending pf w u = .ok v') :
    v'.sent = (.none, u.shared.cgiCalls, u.slot.pendingCgiBody) := by
  obtain ⟨⟨d, throttles⟩, hd, h⟩ := bind_eq_ok.mp h
  cases h
  have hp := sendingSlot_payload pf w u.slot d
  have hq := sendingSlot_pending pf w u.slot d
  rw [hnone] at hp
  simp only [View.sent, sendingView, hp, hq, ite_self]

theorem sendError_sent {pf : Platform} {w : World} {v v' : View} {e : ErrorReply}
    (h : sendError pf w v e = .ok v') :
    v'.sent = (.none, v.shared.cgiCalls, v.slot.pendingCgiBody) :=
  transitionToSending_none (u := v.respond (errorResponse pf w v.slot.http e) .none) rfl h

/-! ### What a file request is sent

Of the ways `serve_static` can end there are two with content: a listing, and a file
that is sent with its data.
-/

/-- Whether a file that was admitted goes out, and not only its head or nothing. -/
def sendsData (w : World) (http : HttpConn) (opened : Path) (node : Node) : Bool :=
  decide (http.method ≠ .head) && !notModified http node && (w.mmap opened).isSome

/-- What goes out for a path that passed the checks. -/
def checkedPayload (pf : Platform) (w : World) (throttles : Option ThrottleTable)
    (http : HttpConn) (file opened : Path) (node : Node) : Payload :=
  if rejected pf throttles http.origFilename then .none
  else if node.isDir then
    if (pf.generateListing w.fs opened http.origFilename).isSome then .listing file opened
    else .none
  else if sendsData w http opened node then .file file opened
  else .none

theorem checkedPayload_eq_file {pf : Platform} {w : World} {throttles : Option ThrottleTable}
    {http : HttpConn} {file opened handed o : Path} {node : Node} :
    checkedPayload pf w throttles http file opened node = .file handed o ↔
      handed = file ∧ o = opened ∧ rejected pf throttles http.origFilename = false ∧
        node.isDir = false ∧ sendsData w http opened node = true := by
  unfold checkedPayload
  cases rejected pf throttles http.origFilename <;> cases node.isDir <;>
    cases sendsData w http opened node <;>
    cases (pf.generateListing w.fs opened http.origFilename).isSome <;> simp [eq_comm]

theorem checkedPayload_eq_listing {pf : Platform} {w : World} {throttles : Option ThrottleTable}
    {http : HttpConn} {file opened handed o : Path} {node : Node} :
    checkedPayload pf w throttles http file opened node = .listing handed o ↔
      handed = file ∧ o = opened ∧ rejected pf throttles http.origFilename = false ∧
        node.isDir = true ∧ (pf.generateListing w.fs opened http.origFilename).isSome = true := by
  unfold checkedPayload
  cases rejected pf throttles http.origFilename <;> cases node.isDir <;>
    cases sendsData w http opened node <;>
    cases (pf.generateListing w.fs opened http.origFilename).isSome <;> simp [eq_comm]

/-- What goes out for a path handed to `serve_static`. -/
def staticPayload (pf : Platform) (cfg : ServerConfig) (w : World)
    (throttles : Option ThrottleTable) (http : HttpConn) (file : Path) : Payload :=
  match staticCheck pf cfg w http file with
  | .error _ => .none
  | .ok (opened, node) => checkedPayload pf w throttles http file opened node

theorem replyFile_sent {pf : Platform} {w : World} {v v' : View} {file opened : Path}
    {node : Node} (hchecked : v.slot.throttle.checked = true)
    (h : replyFile pf w v file opened node = .ok v') :
    v'.sent = (if sendsData w v.slot.http opened node then .file file opened else .none,
      v.shared.cgiCalls, v.slot.pendingCgiBody) := by
  unfold replyFile at h
  split at h
  · rename_i hhead
    rw [if_neg (by simp [sendsData, hhead])]
    exact transitionToSending_none (u := headReply pf w v opened node) rfl h
  rename_i hhead
  split at h
  · rename_i hmod
    rw [if_neg (by simp [sendsData, hmod])]
    exact transitionToSending_none (u := notModifiedReply pf w v opened node) rfl h
  rename_i hmod
  split at h
  · rename_i data hdata
    obtain ⟨body, -, h⟩ := bind_eq_ok.mp h
    rw [if_pos (by simp [sendsData, hhead, hmod, hdata])]
    exact transitionToSending_sent (u := dataReply pf w v file opened node data body)
      (.inr hchecked) h
  · rename_i hnone
    rw [if_neg (by simp [sendsData, hnone])]
    exact sendError_sent h

theorem sendsData_fillLastByte (w : World) (http : HttpConn) (size : Int) (opened : Path)
    (node : Node) : sendsData w (fillLastByte http size) opened node
      = sendsData w http opened node := by
  unfold fillLastByte
  split <;> rfl

theorem serveFile_sent {pf : Platform} {w : World} {v v' : View} {file opened : Path}
    {node : Node} (hdir : node.isDir = false)
    (h : serveFile pf w v file opened node = .ok v') :
    v'.sent = (checkedPayload pf w v.shared.throttles v.slot.http file opened node,
      v.shared.cgiCalls, v.slot.pendingCgiBody) := by
  obtain ⟨⟨d, throttles⟩, hadmitted, h⟩ := bind_eq_ok.mp h
  have hreply : replyFile pf w (fileView v node d throttles) file opened node = .ok v' →
      v'.sent = (if sendsData w v.slot.http opened node then .file file opened else .none,
        v.shared.cgiCalls, v.slot.pendingCgiBody) := by
    intro h
    rw [replyFile_sent (admittedThrottle_checked v.slot.throttle d) h,
      ← sendsData_fillLastByte w v.slot.http node.len]
    rfl
  unfold checkedPayload
  rw [rejected_of_askThrottle hadmitted, hdir]
  cases d with
  | reject =>
      exact transitionToSending_none (u := overLimitReply pf w (fileView v node .reject throttles))
        rfl h
  | unlimited => exact hreply h
  | allow tnums maxLimit minLimit => exact hreply h

theorem serveListing_sent {pf : Platform} {w : World} {v v' : View} {file opened : Path}
    {node : Node} (hcgi : v.slot.isCgi = false) (hchecked : v.slot.throttle.checked = false)
    (hdir : node.isDir = true) (h : serveListing pf w v file opened node = .ok v') :
    v'.sent = (checkedPayload pf w v.shared.throttles v.slot.http file opened node,
      v.shared.cgiCalls, v.slot.pendingCgiBody) := by
  unfold serveListing at h
  unfold checkedPayload
  cases hlist : pf.generateListing w.fs opened v.slot.http.origFilename with
  | some body =>
      rw [hlist] at h
      obtain ⟨rangeLen, -, h⟩ := bind_eq_ok.mp h
      simp only [hdir, if_true, Option.isSome_some]
      exact transitionToSending_entry (u := listingReply pf w v file opened node body rangeLen)
        hcgi hchecked h
  | none =>
      rw [hlist] at h
      simp only [hdir, if_true, Option.isSome_none, Bool.false_eq_true, if_false, ite_self]
      exact sendError_sent h

/--
**What a request for a file is sent.**

The content is a function of the tree and the request; the table decides whether it
is sent or the refusal in its place.
-/
theorem serveStatic_sent {pf : Platform} {cfg : ServerConfig} {w : World} {v v' : View}
    {file : Path} (hcgi : v.slot.isCgi = false) (hchecked : v.slot.throttle.checked = false)
    (h : serveStatic pf cfg w v file = .ok v') :
    v'.sent = (staticPayload pf cfg w v.shared.throttles (v.withCharset cfg).slot.http file,
      v.shared.cgiCalls, v.slot.pendingCgiBody) := by
  unfold serveStatic at h
  unfold staticPayload
  cases hcheck : staticCheck pf cfg w (v.withCharset cfg).slot.http file with
  | error e =>
      rw [hcheck] at h
      have hs := sendError_sent h
      exact hs
  | ok checked =>
      obtain ⟨opened, node⟩ := checked
      rw [hcheck] at h
      simp only at h ⊢
      unfold serveChecked at h
      cases hdir : node.isDir with
      | true =>
          rw [if_pos hdir] at h
          have hs := serveListing_sent (v := v.withCharset cfg) hcgi hchecked hdir h
          exact hs
      | false =>
          rw [if_neg (by simp [hdir])] at h
          have hs := serveFile_sent hdir h
          exact hs

/-! ### What a program request runs

The script is resolved a second time in `dispatch_cgi`, from what the path has left
of it, and it has to be there, to be no directory, and to be admitted.
-/

/-- The script that is run for a request with its body, if one is. -/
def ranScript (pf : Platform) (cfg : ServerConfig) (w : World) (shared : Shared)
    (http : HttpConn) : Option Str :=
  let script := (resolveScript cfg w http).1
  if !cgiLimitReached cfg shared && runnable cfg w script
      && !rejected pf shared.throttles script then some script
  else none

/-- The call of `execute_cgi` for a request with its body, if there is one. -/
def ranCall (pf : Platform) (cfg : ServerConfig) (w : World) (shared : Shared)
    (slot : ConnSlot) : Option CgiCall :=
  (ranScript pf cfg w shared slot.http).map fun script =>
    cgiCall cfg w slot script (resolveScript cfg w slot.http).2

/-- The calls of `execute_cgi` for a script, at most one. -/
def Calls (cfg : ServerConfig) (script : Option Str) (calls : List CgiCall) : Prop :=
  calls.map (fun call => (call.scriptPath, call.scriptName))
    = (script.map fun s => (scriptFile cfg s, some s)).toList

/-- A view that ran at most one program more, the given script. -/
def Ran (cfg : ServerConfig) (v v' : View) (script : Option Str) : Prop :=
  ∃ calls, v'.sent = (.none, v.shared.cgiCalls ++ calls, v.slot.pendingCgiBody) ∧
    Calls cfg script calls

/-- The script is told its own URL path. -/
theorem buildEnvp_scriptName (ctx : CgiContext) (script pattern : Str) :
    (buildEnvp ctx script pattern).lookup "SCRIPT_NAME".toList = some script := by
  unfold buildEnvp
  cases ctx.pathInfo <;> cases ctx.pathTranslated <;> rfl

theorem cgiCall_calls (cfg : ServerConfig) (w : World) (slot : ConnSlot) (script info : Str) :
    Calls cfg (some script) [cgiCall cfg w slot script info] := by
  have hname : (cgiCall cfg w slot script info).scriptName = some script :=
    buildEnvp_scriptName _ _ _
  unfold Calls
  simp only [List.map_cons, List.map_nil, hname]
  rfl

theorem ranCall_calls (pf : Platform) (cfg : ServerConfig) (w : World) (shared : Shared)
    (slot : ConnSlot) :
    Calls cfg (ranScript pf cfg w shared slot.http) (ranCall pf cfg w shared slot).toList := by
  unfold ranCall
  cases ranScript pf cfg w shared slot.http with
  | none => rfl
  | some script => exact cgiCall_calls cfg w slot script _

theorem releaseCgi_keeps (v : View) (charge : Option Int) :
    (releaseCgi v charge).slot.isCgi = v.slot.isCgi ∧
      (releaseCgi v charge).shared.cgiCalls = v.shared.cgiCalls ∧
      (releaseCgi v charge).slot.pendingCgiBody = v.slot.pendingCgiBody := by
  unfold releaseCgi
  simp only
  split <;> exact ⟨rfl, rfl, rfl⟩

/-- A call is made and recorded. -/
theorem runCgi_sent {pf : Platform} {w : World} {v v' : View} {call : CgiCall}
    (h : runCgi pf w v call = .ok v') :
    v'.sent = (.none, v.shared.cgiCalls ++ [call], v.slot.pendingCgiBody) := by
  have hkeeps : ∀ charge, (releaseCgi (cgiStarted v call) charge).shared.cgiCalls
      = v.shared.cgiCalls ++ [call] ∧
      (releaseCgi (cgiStarted v call) charge).slot.pendingCgiBody = v.slot.pendingCgiBody :=
    fun charge => (releaseCgi_keeps (cgiStarted v call) charge).2
  unfold runCgi at h
  split at h
  · rename_i out _
    obtain ⟨hcalls, hpend⟩ := hkeeps (some cgiBytecount)
    rw [transitionToSending_none (u := (releaseCgi (cgiStarted v call) (some cgiBytecount)).respond
      (cgiResponse call.scriptPath (cgiBytes out)) .none) rfl h]
    show (_, (releaseCgi (cgiStarted v call) (some cgiBytecount)).shared.cgiCalls,
      (releaseCgi (cgiStarted v call) (some cgiBytecount)).slot.pendingCgiBody) = _
    rw [hcalls, hpend]
  · obtain ⟨hcalls, hpend⟩ := hkeeps none
    rw [sendError_sent h, hcalls, hpend]

theorem admitCgi_sent {pf : Platform} {cfg : ServerConfig} {w : World} {v v' : View}
    {script pathInfo : Str} (h : admitCgi pf cfg w v script pathInfo = .ok v') :
    v'.sent = (.none, v.shared.cgiCalls ++ (if rejected pf v.shared.throttles script then []
      else [cgiCall cfg w v.slot script pathInfo]), v.slot.pendingCgiBody) := by
  obtain ⟨⟨d, throttles⟩, hadmitted, h⟩ := bind_eq_ok.mp h
  rw [rejected_of_askThrottle hadmitted]
  cases d with
  | reject =>
      have hs := sendError_sent h
      simp only [beq_self_eq_true, if_true, List.append_nil]
      exact hs
  | unlimited =>
      have hs := runCgi_sent h
      exact hs
  | allow tnums maxLimit minLimit =>
      have hs := runCgi_sent h
      exact hs

theorem startCgi_sent {pf : Platform} {cfg : ServerConfig} {w : World} {v v' : View}
    (hlim : cgiLimitReached cfg v.shared = false) (h : startCgi pf cfg w v = .ok v') :
    v'.sent = (.none, v.shared.cgiCalls ++ (ranCall pf cfg w v.shared v.slot).toList,
      v.slot.pendingCgiBody) := by
  unfold startCgi at h
  unfold ranCall ranScript
  simp only at h ⊢
  cases hrun : runnable cfg w (resolveScript cfg w v.slot.http).1 with
  | true =>
      rw [if_pos hrun] at h
      have hs := admitCgi_sent h
      have hbegin : (beginCgi v (resolveScript cfg w v.slot.http).2).shared.throttles
          = v.shared.throttles := rfl
      rw [hbegin] at hs
      cases hrej : rejected pf v.shared.throttles (resolveScript cfg w v.slot.http).1 with
      | true =>
          rw [hrej] at hs
          simp only [Bool.not_true, Bool.and_false]
          exact hs
      | false =>
          rw [hrej] at hs
          simp only [hlim, Bool.not_false, Bool.and_true, if_true]
          exact hs
  | false =>
      rw [if_neg (by simp [hrun])] at h
      have hs := sendError_sent h
      simp only [Bool.and_false, Bool.false_and, Bool.false_eq_true, if_false, Option.map_none,
        Option.toList_none, List.append_nil]
      exact hs

theorem dispatchCgi_pending {pf : Platform} {cfg : ServerConfig} {w : World} {v v' : View}
    (hp : bodyPending v.slot.http = true) (h : dispatchCgi pf cfg w v = .ok v') :
    v' = awaitBody (v.withCharset cfg) := by
  unfold dispatchCgi at h
  rw [if_pos hp] at h
  cases h
  rfl

/--
**A program request with its body leaves at most one call, and which.**

A call is recorded with the script, its path and the request, so a claim can ask
afterwards what was run.
-/
theorem dispatchCgi_sent {pf : Platform} {cfg : ServerConfig} {w : World} {v v' : View}
    (hp : bodyPending v.slot.http = false) (h : dispatchCgi pf cfg w v = .ok v') :
    v'.sent = (.none, v.shared.cgiCalls ++ (ranCall pf cfg w v.shared v.slot).toList,
      v.slot.pendingCgiBody) := by
  unfold dispatchCgi at h
  rw [if_neg (by simp [hp])] at h
  cases hlim : cgiLimitReached cfg v.shared with
  | true =>
      rw [if_pos hlim] at h
      have hs := sendError_sent h
      unfold ranCall ranScript
      simp only [hlim, Bool.not_true, Bool.false_and, Bool.false_eq_true, if_false,
        Option.map_none, Option.toList_none, List.append_nil]
      exact hs
  | false =>
      rw [if_neg (by simp [hlim])] at h
      have hs := startCgi_sent (v := v.withCharset cfg) hlim h
      exact hs

theorem dispatchCgi_ran {pf : Platform} {cfg : ServerConfig} {w : World} {v v' : View}
    (hp : bodyPending v.slot.http = false) (h : dispatchCgi pf cfg w v = .ok v') :
    Ran cfg v v' (ranScript pf cfg w v.shared v.slot.http) :=
  ⟨_, dispatchCgi_sent hp h, ranCall_calls pf cfg w v.shared v.slot⟩

/-! ### The whole request

With a body that comes later the request is dispatched twice, and only the second
dispatch can call.  So the calls between the first view and the last are those of one
dispatch.
-/

/-- The content a request is sent. -/
def requestPayload (pf : Platform) (cfg : ServerConfig) (w : World) (v : View) : Payload :=
  match route pf cfg w v.slot.http with
  | .static http file =>
      staticPayload pf cfg w v.shared.throttles { http with charset := cfg.charset } file
  | _ => .none

/--
The path of a request passes every check of `serve_static`, up to the throttle
table, and stands for `node`.
-/
def Passes (pf : Platform) (cfg : ServerConfig) (w : World) (v : View) (http : HttpConn)
    (handed opened : Path) (node : Node) : Prop :=
  route pf cfg w v.slot.http = .static http handed ∧
    staticCheck pf cfg w { http with charset := cfg.charset } handed = .ok (opened, node) ∧
    rejected pf v.shared.throttles http.origFilename = false

/-- A request for a file that is there, readable and asked for with its content. -/
def SendsFile (pf : Platform) (cfg : ServerConfig) (w : World) (v : View)
    (handed opened : Path) : Prop :=
  ∃ http node, Passes pf cfg w v http handed opened node ∧ node.isDir = false ∧
    sendsData w { http with charset := cfg.charset } opened node = true

/-- A request for a directory that can be listed. -/
def SendsListing (pf : Platform) (cfg : ServerConfig) (w : World) (v : View)
    (handed opened : Path) : Prop :=
  ∃ http node, Passes pf cfg w v http handed opened node ∧ node.isDir = true ∧
    (pf.generateListing w.fs opened http.origFilename).isSome = true

/-- Content that is sent was found by `serve_static`. -/
theorem requestPayload_static {pf : Platform} {cfg : ServerConfig} {w : World} {v : View}
    (h : requestPayload pf cfg w v ≠ .none) :
    ∃ http file opened node, route pf cfg w v.slot.http = .static http file ∧
      staticCheck pf cfg w { http with charset := cfg.charset } file = .ok (opened, node) ∧
      requestPayload pf cfg w v = checkedPayload pf w v.shared.throttles
        { http with charset := cfg.charset } file opened node := by
  unfold requestPayload at h ⊢
  cases hroute : route pf cfg w v.slot.http with
  | refused http reply => rw [hroute] at h; exact absurd rfl h
  | program http => rw [hroute] at h; exact absurd rfl h
  | static http file =>
      rw [hroute] at h
      simp only [staticPayload] at h ⊢
      cases hcheck : staticCheck pf cfg w { http with charset := cfg.charset } file with
      | error e => rw [hcheck] at h; exact absurd rfl h
      | ok checked => exact ⟨http, file, checked.1, checked.2, rfl, hcheck, rfl⟩

/-- A file goes out exactly when the request passes for one. -/
theorem requestPayload_eq_file {pf : Platform} {cfg : ServerConfig} {w : World} {v : View}
    {handed opened : Path} :
    requestPayload pf cfg w v = .file handed opened ↔ SendsFile pf cfg w v handed opened := by
  constructor
  · intro h
    obtain ⟨http, file, opened', node, hroute, hcheck, heq⟩ :=
      requestPayload_static (by rw [h]; simp)
    obtain ⟨rfl, rfl, hrej, hdir, hdata⟩ := checkedPayload_eq_file.mp (heq.symm.trans h)
    exact ⟨http, node, ⟨hroute, hcheck, hrej⟩, hdir, hdata⟩
  · rintro ⟨http, node, ⟨hroute, hcheck, hrej⟩, hdir, hdata⟩
    simp only [requestPayload, hroute, staticPayload, hcheck]
    exact checkedPayload_eq_file.mpr ⟨rfl, rfl, hrej, hdir, hdata⟩

/-- A listing goes out exactly when the request passes for one. -/
theorem requestPayload_eq_listing {pf : Platform} {cfg : ServerConfig} {w : World} {v : View}
    {handed opened : Path} :
    requestPayload pf cfg w v = .listing handed opened ↔
      SendsListing pf cfg w v handed opened := by
  constructor
  · intro h
    obtain ⟨http, file, opened', node, hroute, hcheck, heq⟩ :=
      requestPayload_static (by rw [h]; simp)
    obtain ⟨rfl, rfl, hrej, hdir, hlist⟩ := checkedPayload_eq_listing.mp (heq.symm.trans h)
    exact ⟨http, node, ⟨hroute, hcheck, hrej⟩, hdir, hlist⟩
  · rintro ⟨http, node, ⟨hroute, hcheck, hrej⟩, hdir, hlist⟩
    simp only [requestPayload, hroute, staticPayload, hcheck]
    exact checkedPayload_eq_listing.mpr ⟨rfl, rfl, hrej, hdir, hlist⟩

/-- Whether the body that was declared has not come, neither with the head nor after. -/
def bodyMissing (http : HttpConn) (body : Bytes) : Bool :=
  bodyPending http && bodyPending (http.receive body)

/-- The shared state a program is started from: as it was when the body was there. -/
def Later.sharedFor (later : Later) (shared : Shared) (http : HttpConn) : Shared :=
  if bodyPending http then later.shared else shared

/-- The script a request runs. -/
def requestScript (pf : Platform) (cfg : ServerConfig) (w : World) (v : View) (later : Later) :
    Option Str :=
  match route pf cfg w v.slot.http with
  | .program http =>
      if bodyMissing http later.body then none
      else ranScript pf cfg w (later.sharedFor v.shared http) http
  | _ => none

/-- The calls of `execute_cgi` between two views. -/
def newCalls (v v' : View) : List CgiCall := v'.shared.cgiCalls.drop v.shared.cgiCalls.length

theorem dispatchCgi_newCalls {pf : Platform} {cfg : ServerConfig} {w : World} {v v' : View}
    (hp : bodyPending v.slot.http = false) (h : dispatchCgi pf cfg w v = .ok v') :
    newCalls v v' = (ranCall pf cfg w v.shared v.slot).toList := by
  have hcalls : v'.shared.cgiCalls = v.shared.cgiCalls
      ++ (ranCall pf cfg w v.shared v.slot).toList :=
    congrArg (fun s => s.2.1) (dispatchCgi_sent hp h)
  unfold newCalls
  rw [hcalls, List.drop_left]

/-- What a request leaves of content and programs. -/
structure Sent (cfg : ServerConfig) (v v' : View) (payload : Payload) (script : Option Str) :
    Prop where
  payload : v'.slot.http.payload = payload
  calls : Calls cfg script (newCalls v v')

/-- What holds of every program that was run is what holds of the script. -/
theorem Sent.forall_calls {cfg : ServerConfig} {v v' : View} {payload : Payload}
    {script : Option Str} (h : Sent cfg v v' payload script) (P : Path → Option Str → Prop) :
    (∀ call ∈ newCalls v v', P call.scriptPath call.scriptName) ↔
      ∀ s, script = some s → P (scriptFile cfg s) (some s) := by
  have hmap : (∀ call ∈ newCalls v v', P call.scriptPath call.scriptName) ↔
      ∀ pair ∈ (newCalls v v').map (fun call => (call.scriptPath, call.scriptName)),
        P pair.1 pair.2 := by
    simp
  have hcalls := h.calls
  unfold Calls at hcalls
  rw [hmap, hcalls]
  cases script <;> simp

theorem Sent.of_sent {cfg : ServerConfig} {v v' : View} {payload : Payload} {pending : Bool}
    (h : v'.sent = (payload, v.shared.cgiCalls, pending)) : Sent cfg v v' payload none := by
  simp only [View.sent, Prod.mk.injEq] at h
  refine ⟨h.1, ?_⟩
  unfold newCalls
  rw [h.2.1, List.drop_length]
  rfl

theorem Ran.sent {cfg : ServerConfig} {v v' : View} {script : Option Str}
    (h : Ran cfg v v' script) : Sent cfg v v' .none script := by
  obtain ⟨calls, hsent, hcalls⟩ := h
  simp only [View.sent, Prod.mk.injEq] at hsent
  refine ⟨hsent.1, ?_⟩
  unfold newCalls
  rw [hsent.2.1, List.drop_left]
  exact hcalls

theorem Ran.pending {cfg : ServerConfig} {v v' : View} {script : Option Str}
    (h : Ran cfg v v' script) : v'.slot.pendingCgiBody = v.slot.pendingCgiBody := by
  obtain ⟨calls, hsent, -⟩ := h
  exact congrArg (fun s => s.2.2) hsent

/-- The second dispatch of a program whose body came later. -/
theorem awaited_sent {pf : Platform} {cfg : ServerConfig} {w : World} {v v' : View}
    {http : HttpConn} {later : Later}
    (h : dispatchCgi pf cfg { later.world with fs := w.fs }
      (later.resume (awaitBody ((v.setHttp http).withCharset cfg))) = .ok v')
    (hnone : http.payload = .none) :
    Sent cfg v v' .none (if bodyPending (http.receive later.body) then none
      else ranScript pf cfg w later.shared http) := by
  cases hp : bodyPending (http.receive later.body) with
  | true =>
      rw [dispatchCgi_pending (by exact hp) h]
      exact .of_sent (v := v) (by
        show (http.payload, v.shared.cgiCalls, true) = _
        rw [hnone])
  | false =>
      have hran := dispatchCgi_ran (by exact hp) h
      have hs := hran.sent
      exact ⟨hs.payload, hs.calls⟩

theorem readRequest_payload (pf : Platform) (http : HttpConn) :
    (readRequest pf http).payload = http.payload := by
  have hcond := readConditions_keeps HttpConn.payload (fun _ _ _ _ => rfl) (fun _ _ => rfl) pf
  exact hcond _ (readRequestLine pf http)

/-- What is known of a request that got as far as a path. -/
structure Resolved (pf : Platform) (cfg : ServerConfig) (w : World) (http http' : HttpConn)
    (normalized : Str) : Prop where
  cleaned : normalizePath (readRequest pf http).decodedUrl = some normalized
  resolved : http' = resolveRequest pf cfg w (readRequest pf http) normalized

theorem route_static {pf : Platform} {cfg : ServerConfig} {w : World} {http http' : HttpConn}
    {file : Path} (h : route pf cfg w http = .static http' file) :
    ∃ normalized, Resolved pf cfg w http http' normalized ∧
      file = requestFile pf cfg (readRequest pf http) normalized ∧
      isCgi cfg http'.origFilename = false ∧ http'.pathInfo = [] := by
  unfold route routeUrl routePath at h
  split at h
  · cases h
  split at h
  · cases h
  split at h
  · cases h
  rename_i normalized hclean
  split at h
  · cases h
  rename_i hcgi
  split at h
  · cases h
  rename_i hinfo
  cases h
  exact ⟨normalized, ⟨hclean, rfl⟩, rfl, by simpa using hcgi, by simpa using hinfo⟩

theorem route_program {pf : Platform} {cfg : ServerConfig} {w : World} {http http' : HttpConn}
    (h : route pf cfg w http = .program http') :
    ∃ normalized, Resolved pf cfg w http http' normalized ∧
      isCgi cfg http'.origFilename = true := by
  unfold route routeUrl routePath at h
  split at h
  · cases h
  split at h
  · cases h
  split at h
  · cases h
  rename_i normalized hclean
  split at h
  · rename_i hcgi
    cases h
    exact ⟨normalized, ⟨hclean, rfl⟩, hcgi⟩
  · split at h <;> cases h

/-- A program request has no content to send. -/
theorem route_program_payload {pf : Platform} {cfg : ServerConfig} {w : World}
    {http http' : HttpConn} (h : route pf cfg w http = .program http') :
    http'.payload = http.payload := by
  obtain ⟨normalized, hres, -⟩ := route_program h
  rw [hres.resolved, resolveRequest_keeps HttpConn.payload fun _ _ _ _ => rfl,
    readRequest_payload]

/-- What passing every check of `serve_static` means. -/
theorem staticCheck_ok {pf : Platform} {cfg : ServerConfig} {w : World} {http : HttpConn}
    {file opened : Path} {node : Node}
    (h : staticCheck pf cfg w http file = .ok (opened, node)) :
    staticPath cfg w http file = .ok opened ∧ w.fs.stat opened = .ok node ∧
      (authCheck2 pf w.fs opened http.authorization = .noAuthFile ∨
        authCheck2 pf w.fs opened http.authorization = .ok) := by
  obtain ⟨opened', hpath, h⟩ := bind_eq_ok.mp h
  obtain ⟨node', hstat, h⟩ := bind_eq_ok.mp h
  obtain ⟨_, hauth, h⟩ := bind_eq_ok.mp h
  obtain ⟨_, _, h⟩ := bind_eq_ok.mp h
  cases h
  refine ⟨hpath, ?_, ?_⟩
  · unfold statCheck at hstat
    split at hstat
    · rename_i n hn
      cases hstat
      exact hn
    · cases hstat
  · unfold authReply at hauth
    split at hauth
    · rename_i ha
      exact .inl ha
    · rename_i ha
      exact .inr ha
    · cases hauth
    · cases hauth

/--
**What a request is sent and what it runs are functions of the request, the
configuration and the tree.**

This is what makes claims about content and programs possible without following a
run: who asks what was sent asks these two functions.
-/
theorem serveRequest_sent {pf : Platform} {cfg : ServerConfig} {w : World} {v v' : View}
    {later : Later} (hv : Untouched v) (h : serveRequest pf cfg w v later = .ok v') :
    Sent cfg v v' (requestPayload pf cfg w v) (requestScript pf cfg w v later) := by
  obtain ⟨v₁, hproc, h⟩ := bind_eq_ok.mp h
  rw [processRequest_eq] at hproc
  unfold requestPayload requestScript
  -- A request that does not wait for a body ends where `process_request` does.
  have hdone : v₁.slot.pendingCgiBody = false → v' = v₁ := by
    intro hp
    rw [if_neg (by simp [hp])] at h
    cases h
    rfl
  cases hroute : route pf cfg w v.slot.http with
  | refused http reply =>
      rw [hroute] at hproc
      have hs := sendError_sent hproc
      rw [hdone ((congrArg (fun s => s.2.2) hs).trans hv.pending)]
      exact .of_sent hs
  | static http file =>
      rw [hroute] at hproc
      have hs := serveStatic_sent (v := v.setHttp http) hv.isCgi hv.checked hproc
      rw [hdone ((congrArg (fun s => s.2.2) hs).trans hv.pending)]
      exact .of_sent hs
  | program http =>
      rw [hroute] at hproc
      simp only
      have hnone : http.payload = .none := (route_program_payload hroute).trans hv.payload
      cases hp : bodyPending http with
      | true =>
          have hv₁ := dispatchCgi_pending (v := v.setHttp http) hp hproc
          subst hv₁
          have hpend : (awaitBody ((v.setHttp http).withCharset cfg)).slot.pendingCgiBody
              = true := rfl
          rw [if_pos hpend] at h
          have hs := awaited_sent h hnone
          simpa [bodyMissing, Later.sharedFor, hp] using hs
      | false =>
          have hran := dispatchCgi_ran (v := v.setHttp http) hp hproc
          rw [hdone (hran.pending.trans hv.pending)]
          have hs := hran.sent
          simp only [bodyMissing, Later.sharedFor, hp, Bool.false_and, Bool.false_eq_true, if_false]
          exact ⟨hs.payload, hs.calls⟩

end Thttpd
