/-
Running CGI programs: `dispatch_cgi` and `extract_cgi_status` in
`rust/crates/thttpd-core/src/eventloop.rs`.
-/
import Thttpd.Core.Reply

namespace Thttpd

open Text Fs

/-! ### Stripping path components

Three loops of the source shorten a URL path from the right, one component at a
time, and stop before nothing is left.  They differ in what they stop at. -/

/-- The path without its last component, and that component. -/
def stripComponent (path : Str) : Option (Str × Str) :=
  match rsplitOnce '/' path with
  | some (before, stripped) => if before = [] then none else some (before, stripped)
  | none => none

/--
Strip until `found`; the result is what is left and what was stripped, and whether
the search ended at something found.
-/
def stripUntil (found : Str → Bool) : Nat → Str → Str → Str × Str × Bool
  | 0, path, info => (path, info, found path)
  | fuel + 1, path, info =>
      if found path then (path, info, true)
      else match stripComponent path with
        | some (before, stripped) => stripUntil found fuel before ('/' :: stripped ++ info)
        | none => (path, info, false)

/-- On-disk path of a URL path, the leading slash taken off. -/
def scriptFile (cfg : ServerConfig) (path : Str) : Path := cfg.root.join (path.drop 1)

/--
The script of a CGI request and what follows it: the longest prefix that exists,
unless the request was split before or nothing exists.
-/
def resolveScript (cfg : ServerConfig) (w : World) (http : HttpConn) : Str × Str :=
  if http.pathInfo = [] then
    match stripUntil (fun path => w.fs.exists_ (scriptFile cfg path)) http.origFilename.length
        http.origFilename [] with
    | (path, info, true) => (path, info)
    | (_, _, false) => (http.origFilename, [])
  else (http.origFilename, http.pathInfo)

/-! ### What the program is told -/

/-- A host name without its port. -/
def hostWithoutPort (host : Str) : Str :=
  match rsplitOnce ':' host with
  | some (name, _) => name
  | none => host

/--
The client: the forwarded address if there is one, else the peer's without port and
without the prefix of a mapped IPv4 address.
-/
def cgiRemoteAddr (slot : ConnSlot) : Str :=
  if slot.http.xForwardedFor ≠ [] then slot.http.xForwardedFor
  else
    let peer := match slot.peerAddr with
      | some addr => addr.withPort
      | none => []
    let ip := ((hostWithoutPort peer).dropWhile (· == '[')).rdropWhile (· == ']')
    let mapped := "::ffff:".toList
    if mapped.isPrefixOf ip then ip.drop mapped.length else ip

private def header (name : String) (value : Str) : List (Str × Str) :=
  if value = [] then [] else [(name.toList, value)]

private def nonEmpty (s : Str) : Option Str := if s = [] then none else some s

def cgiContext (cfg : ServerConfig) (w : World) (slot : ConnSlot) (pathInfo : Str) :
    CgiContext :=
  let http := slot.http
  { serverSoftware := "sthttpd/2.27.0 03oct2014".toList
    serverName := w.hostname
    gatewayInterface := "CGI/1.1".toList
    serverProtocol := "HTTP/1.0".toList
    serverPort := cfg.port
    requestMethod := http.method.asStr
    queryString := http.query
    remoteAddr := cgiRemoteAddr slot
    contentType := nonEmpty http.contentType
    contentLength := http.contentLength
    httpHeaders :=
      (if http.host = [] then [] else [("Host".toList, hostWithoutPort http.host)])
      ++ header "User-Agent" http.userAgent ++ header "Referer" http.referer
      ++ header "Accept" http.accept ++ header "Accept-Encoding" http.acceptEncoding
      ++ header "Accept-Language" http.acceptLanguage ++ header "Cookie" http.cookie
    pathInfo := nonEmpty pathInfo
    pathTranslated := if pathInfo = [] then none
      else some (cfg.root.join (pathInfo.drop 1)).toStr
    remoteUser := none
    authType := none }

/-- Everything buffered after the head, once the declared length is there. -/
def postBody (http : HttpConn) : Option Bytes :=
  http.contentLength.bind fun len =>
    if http.checkedIdx + asUsize len ≤ http.readIdx then some (http.readBuf.drop http.checkedIdx)
    else none

/-- The call of `execute_cgi`. -/
def cgiCall (cfg : ServerConfig) (w : World) (slot : ConnSlot) (script pathInfo : Str) :
    CgiCall :=
  let resolved := scriptFile cfg script
  { scriptPath := resolved
    workingDir := resolved.parent.getD cfg.root
    env := buildEnvp (cgiContext cfg w slot pathInfo) script (cfg.cgiPattern.getD [])
    postBody := postBody slot.http }

/-! ### What the program answered -/

def cgiStatusText (status : Nat) : Str :=
  match status with
  | 200 => "OK".toList
  | 302 => "Found".toList
  | 304 => "Not Modified".toList
  | 400 => "Bad Request".toList
  | 401 => "Unauthorized".toList
  | 403 => "Forbidden".toList
  | 404 => "Not Found".toList
  | 408 => "Request Timeout".toList
  | 500 => "Internal Error".toList
  | 501 => "Not Implemented".toList
  | 503 => "Service Unavailable".toList
  | _ => "Something".toList

/-- What one header line does to the status and to whether it has been set. -/
def cgiStatusLine (acc : Nat × Bool) (line : Str) : Nat × Bool :=
  match splitOnce ':' line with
  | none => acc
  | some (name, value) =>
      if eqIgnoreAsciiCase (trim name) "status".toList then
        match parseInt 0 65535 ((trim value).takeWhile Char.isDigit) with
        | some code => (code.toNat, true)
        | none => acc
      else if !acc.2 && eqIgnoreAsciiCase (trim name) "location".toList then (302, true)
      else acc

/-- The end of the program's header lines. -/
def cgiHeaderEnd (output : Bytes) : Option Nat :=
  match findBytes [13, 10, 13, 10] output with
  | some pos => some pos
  | none => findBytes [10, 10] output

def extractCgiStatus (output : Bytes) : Nat × Str :=
  match cgiHeaderEnd output with
  | none => (200, "OK".toList)
  | some stop =>
      let status := ((lines (fromUtf8Lossy (output.take stop))).foldl cgiStatusLine (200, false)).1
      (status, cgiStatusText status)

/-- Standard output, or standard error when there is none. -/
def cgiBytes (out : CgiOutput) : Bytes := if out.stdout = [] then out.stderr else out.stdout

def cgiResponse (script : Path) (output : Bytes) : Bytes :=
  if isNphScript script then output
  else
    let (status, text) := extractCgiStatus output
    asBytes ("HTTP/1.0 ".toList ++ natStr status ++ [' '] ++ text ++ crlf) ++ output

/-! ### The dispatch -/

/-- Whether the declared body has not arrived yet. -/
def bodyPending (http : HttpConn) : Bool :=
  match http.contentLength with
  | some cl => decide (0 < cl) && decide (http.readIdx < http.checkedIdx + asUsize cl)
  | none => false

/-- Whether no further CGI program may be started. -/
def cgiLimitReached (cfg : ServerConfig) (shared : Shared) : Bool :=
  decide (0 < cfg.limit) && decide (cfg.limit ≤ shared.activeCgis)

/-- Forget the throttle of a finished program, charging `charge` to its rules. -/
def releaseCgi (v : View) (charge : Option Int) : View :=
  let shared := { v.shared with activeCgis := v.shared.activeCgis - 1 }
  if v.slot.throttle.isThrottled then
    let tnums := v.slot.throttle.tnums
    { shared := { shared with throttles := shared.throttles.map fun table =>
        ((match charge with
          | some n => table.addBytes tnums n
          | none => table).clear tnums) }
      slot := { v.slot with throttle := ConnThrottle.new } }
  else { v with shared }

/-- The view a program is started from. -/
def cgiStarted (v : View) (call : CgiCall) : View :=
  { shared := { v.shared with cgiCalls := v.shared.cgiCalls ++ [call] }
    slot := { v.slot with isCgi := true } }

/-- Run the program and answer with what it prints. -/
def runCgi (pf : Platform) (w : World) (v : View) (call : CgiCall) : Except Panic View :=
  match w.execCgi call with
  | some out =>
      transitionToSending pf w ((releaseCgi (cgiStarted v call) (some cgiBytecount)).respond
        (cgiResponse call.scriptPath (cgiBytes out)) .none)
  | none =>
      sendError pf w (releaseCgi (cgiStarted v call) none)
        (.internalError v.slot.http.encodedUrl)

/-- One program more, and what follows the script kept as PATH_INFO. -/
def beginCgi (v : View) (pathInfo : Str) : View :=
  { shared := { v.shared with activeCgis := v.shared.activeCgis + 1 }
    slot := { v.slot with http := { v.slot.http with pathInfo } } }

/-- One program fewer. -/
def endCgi (v : View) : View :=
  { v with shared := { v.shared with activeCgis := v.shared.activeCgis - 1 } }

/-- The rules an admitted program runs under. -/
def cgiThrottle (t : ConnThrottle) : ThrottleDecision → ConnThrottle
  | .allow tnums _ _ => { t with tnums }
  | _ => t

/-- Whether there is something to run. -/
def runnable (cfg : ServerConfig) (w : World) (script : Str) : Bool :=
  w.fs.exists_ (scriptFile cfg script) && !w.fs.isDir (scriptFile cfg script)

/-- A script that is there: admit it and run it. -/
def admitCgi (pf : Platform) (cfg : ServerConfig) (w : World) (v : View) (script pathInfo : Str) :
    Except Panic View := do
  let (decision, throttles) ← askThrottle pf v.shared.throttles script
  let v := v.admitted throttles (cgiThrottle v.slot.throttle decision)
  match decision with
  | .reject => sendError pf w (endCgi v) (.overLimit v.slot.http.encodedUrl)
  | _ => runCgi pf w v (cgiCall cfg w v.slot script pathInfo)

/-- A request with its body, below the limit: find the script. -/
def startCgi (pf : Platform) (cfg : ServerConfig) (w : World) (v : View) : Except Panic View :=
  let (script, pathInfo) := resolveScript cfg w v.slot.http
  if runnable cfg w script then admitCgi pf cfg w (beginCgi v pathInfo) script pathInfo
  else sendError pf w (endCgi (beginCgi v pathInfo)) (.notFound v.slot.http.encodedUrl)

/-- The dispatch is put off until the body is there. -/
def awaitBody (v : View) : View := { v with slot := { v.slot with pendingCgiBody := true } }

def dispatchCgi (pf : Platform) (cfg : ServerConfig) (w : World) (v : View) :
    Except Panic View :=
  if bodyPending v.slot.http then pure (awaitBody (v.withCharset cfg))
  else if cgiLimitReached cfg v.shared then
    sendError pf w (v.withCharset cfg) (.tooManyCgis v.slot.http.encodedUrl)
  else startCgi pf cfg w (v.withCharset cfg)

end Thttpd
