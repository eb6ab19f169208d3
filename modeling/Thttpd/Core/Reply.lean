/-
From a finished response to a connection that sends it: the error replies,
`transition_to_sending` and their helpers in `rust/crates/thttpd-core/src/eventloop.rs`.

Every refusal in the source has the same shape — an error page, the header block in
front of it unless the request was HTTP/0.9, then `transition_to_sending`.
`ErrorReply` is what they differ in.
-/
import Thttpd.Core.Connection
import Thttpd.Http.Response

namespace Thttpd

open Text Fs

/-- Patterns are stored without a leading slash, so one is taken off the path. -/
def throttleMatchPath (path : Str) : Str :=
  match path with
  | '/' :: rest => rest
  | path => path

/-- Where the body begins: after the first blank line. -/
def headerEndOffset (response : Bytes) : Option Nat :=
  match findBytes [13, 10, 13, 10] response with
  | some pos => some (pos + 4)
  | none => (findBytes [10, 10] response).map (· + 2)

/-- An error reply: what its page says and what its head adds. -/
structure ErrorReply where
  status : Nat
  title : Str
  form : Str
  arg : Str
  extraHeaders : List (Str × Str) := []

namespace ErrorReply

def badRequest (arg : Str) : ErrorReply :=
  { status := 400
    title := "Bad Request".toList
    form := "Your request has bad syntax or is inherently impossible to satisfy.\n".toList
    arg }

def notFound (arg : Str) : ErrorReply :=
  { status := 404
    title := "Not Found".toList
    form := "The requested URL '%.80s' was not found on this server.\n".toList
    arg }

def internalError (arg : Str) : ErrorReply :=
  { status := 500
    title := "Internal Error".toList
    form := "There was an unusual problem serving the requested URL '%.80s'.\n".toList
    arg }

def notImplemented (arg : Str) : ErrorReply :=
  { status := 501
    title := "Not Implemented".toList
    form := "The requested method '%.80s' is not implemented by this server.\n".toList
    arg }

def overLimit (arg : Str) : ErrorReply :=
  { status := 503
    title := "Service Unavailable".toList
    form := "The requested URL '%.80s' is temporarily over its bandwidth limit.\n".toList
    arg }

def tooManyCgis (arg : Str) : ErrorReply :=
  { status := 503
    title := "Service Unavailable".toList
    form := "Too many concurrent CGI requests. Please try again later.\n".toList
    arg }

/-- A refusal to serve a resource, with the reason as its form. -/
def forbidden (form arg : Str) : ErrorReply :=
  { status := 403, title := "Forbidden".toList, form, arg }

def notAccessible : Str := "The requested URL '%.80s' is not accessible.\n".toList

def outsideTree : Str :=
  "The requested URL '%.80s' resolves to a file outside the permitted web server directory tree.\n".toList

def notWorldReadable : Str :=
  "The requested URL '%.80s' resolves to a file that is not world-readable.\n".toList

def markedExecutable : Str :=
  "The requested URL '%.80s' resolves to a file which is marked executable but is not a CGI file; retrieving it is forbidden.\n".toList

def pathinfoOnFile : Str :=
  "The requested URL '%.80s' resolves to a file plus CGI-style pathinfo, but the file is not a valid CGI file.\n".toList

end ErrorReply

def textHtml : Str := "text/html".toList

/-- The bytes of an error reply. -/
def errorResponse (pf : Platform) (w : World) (http : HttpConn) (e : ErrorReply) : Bytes :=
  let body := errorPage e.status e.title e.form e.arg (some http.userAgent)
  if http.mimeFlag then
    buildFullResponse pf w.unixNow http e.status e.title textHtml (-1) 0 e.extraHeaders http.rangeLen ++ body
  else body

/-- `build_error_response`, for requests that were never parsed. -/
def buildErrorResponse (e : ErrorReply) (userAgent : Str) : Bytes :=
  let body := errorPage e.status e.title e.form e.arg (some userAgent)
  buildResponse e.status e.title
    [("Content-Type".toList, textHtml), ("Content-Length".toList, natStr body.length)] body

/-- Ask the throttle table, if there is one, to admit a request. -/
def askThrottle (pf : Platform) (throttles : Option ThrottleTable) (filename : Str) :
    Except Panic (ThrottleDecision × Option ThrottleTable) :=
  match throttles with
  | none => .ok (.unlimited, none)
  | some table => do
      let (decision, table') ← table.checkRequest pf (throttleMatchPath filename)
      pure (decision, some table')

/-- The header length of a response that did not come with one. -/
def fillHeaderLen (slot : ConnSlot) : HttpConn :=
  let http := slot.http
  if !slot.isCgi && http.mimeFlag && http.responseHeaderLen == 0 then
    match headerEndOffset http.response with
    | some stop => { http with responseHeaderLen := stop }
    | none => http
  else http

/-- Nothing else of the connection changes. -/
theorem fillHeaderLen_eq (slot : ConnSlot) :
    ∃ len, fillHeaderLen slot = { slot.http with responseHeaderLen := len } := by
  unfold fillHeaderLen
  simp only
  split
  · split
    · exact ⟨_, rfl⟩
    · exact ⟨slot.http.responseHeaderLen, rfl⟩
  · exact ⟨slot.http.responseHeaderLen, rfl⟩

/-- The rules a response was admitted under, as the connection keeps them. -/
def startThrottle (w : World) (http : HttpConn) (t : ConnThrottle) : ConnThrottle :=
  { t with headerLen := http.responseHeaderLen, startedAt := some w.now, activeAt := some w.now }

/-- The slot of `transition_to_sending`, once the throttle table has decided. -/
def sendingSlot (pf : Platform) (w : World) (slot : ConnSlot) (decision : ThrottleDecision) :
    ConnSlot :=
  let http := { fillHeaderLen slot with bytesSent := 0 }
  let throttle := if slot.throttle.checked && slot.throttle.isThrottled then
      startThrottle w http slot.throttle else slot.throttle
  match decision with
  | .unlimited => { slot with state := .sending, http, throttle }
  | .allow tnums maxLimit minLimit =>
      { slot with
        state := .sending
        http
        throttle := startThrottle w http { throttle with tnums, maxLimit, minLimit } }
  | .reject =>
      let response := errorResponse pf w http (.overLimit http.origFilename)
      { slot with
        state := .sending
        throttle
        http := { http with
          response
          responseLen := response.length
          statusCode := 503
          responseHeaderLen := (headerEndOffset response).getD 0
          payload := .none } }

/-- A response that was not admitted before is admitted now. -/
def entryDecision (pf : Platform) (v : View) :
    Except Panic (ThrottleDecision × Option ThrottleTable) :=
  if !v.slot.isCgi && !v.slot.throttle.checked then
    askThrottle pf v.shared.throttles v.slot.http.origFilename
  else .ok (.unlimited, v.shared.throttles)

/-- The view in which the response starts to be sent. -/
def sendingView (pf : Platform) (w : World) (v : View) (decision : ThrottleDecision)
    (throttles : Option ThrottleTable) : View :=
  { shared := { v.shared with
      throttles
      stats := { v.shared.stats with requests := v.shared.stats.requests + 1 } }
    slot := sendingSlot pf w v.slot decision }

def transitionToSending (pf : Platform) (w : World) (v : View) : Except Panic View := do
  let (decision, throttles) ← entryDecision pf v
  pure (sendingView pf w v decision throttles)

/-- Answer with an error page. -/
def sendError (pf : Platform) (w : World) (v : View) (e : ErrorReply) : Except Panic View :=
  transitionToSending pf w (v.respond (errorResponse pf w v.slot.http e) .none)

end Thttpd
