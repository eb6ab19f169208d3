/-
Serving files: `serve_static` in `rust/crates/thttpd-core/src/eventloop.rs`.

The checks come first, in the source's order, each with the reply it refuses with
(`staticCheck`).  What passes them is a directory, which is listed, or a file, for
which the throttle table is asked before anything is read.
-/
import Thttpd.Core.Reply
import Thttpd.Http.Auth
import Thttpd.Http.Mime

namespace Thttpd

open Text Fs

/--
The path to open.  Unless the check is off, it is the canonical one, and it must lie
inside the canonical document root; a path that cannot be canonicalized is kept for
the existence check to refuse.
-/
def staticPath (cfg : ServerConfig) (w : World) (http : HttpConn) (file : Path) :
    Except ErrorReply Path :=
  if cfg.noSymlinkCheck then .ok file
  else match w.fs.canonicalize cfg.root with
    | .error _ => .error (.internalError cfg.dir)
    | .ok root =>
        match w.fs.canonicalize file with
        | .error _ => .ok file
        | .ok canonical =>
            if canonical.startsWith root then .ok canonical
            else .error (.forbidden ErrorReply.outsideTree http.encodedUrl)

/-- The reply to a file that cannot be looked at. -/
def statError (http : HttpConn) (file : Path) (e : ErrorKind) : ErrorReply :=
  if e = .notFound then .notFound http.encodedUrl
  else if file.components.any fun name => name ≠ Path.dotdot ∧ 255 < byteLen name then
    .internalError http.encodedUrl
  else .forbidden ErrorReply.notAccessible http.encodedUrl

/-- The realm is the directory part of the URL. -/
def authRealm (encodedUrl : Str) : Str :=
  match rsplitOnce '/' encodedUrl with
  | some (dir, _) => dir.dropWhile (· == '/')
  | none => []

def unauthorizedReply (encodedUrl : Str) : ErrorReply :=
  { status := 401
    title := err401Title
    form := err401Form
    arg := encodedUrl
    extraHeaders := [("WWW-Authenticate".toList,
      "Basic realm=\"".toList ++ authRealm encodedUrl ++ "\"".toList)] }

/-- The permission checks that only files go through. -/
def fileCheck (http : HttpConn) (node : Node) : Except ErrorReply Unit :=
  if node.attr.mode &&& 0o004 = 0 then
    .error (.forbidden ErrorReply.notWorldReadable http.encodedUrl)
  else if node.attr.mode &&& 0o001 ≠ 0 then
    .error (.forbidden ErrorReply.markedExecutable http.encodedUrl)
  else if http.pathInfo ≠ [] then
    .error (.forbidden ErrorReply.pathinfoOnFile http.encodedUrl)
  else .ok ()

/-- What must be there to be served. -/
def statCheck (w : World) (http : HttpConn) (opened : Path) : Except ErrorReply Node :=
  match w.fs.stat opened with
  | .ok node => .ok node
  | .error e => .error (statError http opened e)

/-- What the result of the authorization check comes to. -/
def authReply (http : HttpConn) : AuthResult → Except ErrorReply Unit
  | .noAuthFile => .ok ()
  | .ok => .ok ()
  | .unauthorized => .error (unauthorizedReply http.encodedUrl)
  | .forbidden => .error (.forbidden ErrorReply.notAccessible http.encodedUrl)

/-- Directories are listed without further checks. -/
def nodeCheck (http : HttpConn) (node : Node) : Except ErrorReply Unit :=
  if node.isDir then .ok () else fileCheck http node

/-- Every check of `serve_static`, and what passed them. -/
def staticCheck (pf : Platform) (cfg : ServerConfig) (w : World) (http : HttpConn)
    (file : Path) : Except ErrorReply (Path × Node) := do
  let opened ← staticPath cfg w http file
  let node ← statCheck w http opened
  authReply http (authCheck2 pf w.fs opened http.authorization)
  nodeCheck http node
  pure (opened, node)

/-! ### Replies -/

/-- `Content-Encoding`, when the name calls for one. -/
def encodingHeaders (mime : MimeInfo) : List (Str × Str) :=
  match mime.encoding with
  | some enc => [(contentEncoding, enc)]
  | none => []

def okText : Str := "OK".toList

/-- A response with a body: head and body, or the body alone for HTTP/0.9. -/
def withBody (http : HttpConn) (head body : Bytes) : Bytes :=
  if http.mimeFlag then head ++ body else body

/-- A response without one. -/
def headOnly (http : HttpConn) (head : Bytes) : Bytes := if http.mimeFlag then head else []

/-- The view with the listing of a directory as its response. -/
def listingReply (pf : Platform) (w : World) (v : View) (file opened : Path) (node : Node)
    (body : Bytes) (rangeLen : Int) : View :=
  let head := buildFullResponse pf w.unixNow v.slot.http 200 okText textHtml (-1)
    node.attr.mtime [] rangeLen
  v.respond (withBody v.slot.http head body) (.listing file opened)

/-- A range that is asked of a listing is not cut to it, so its length may leave `i64`. -/
def listingRangeLength (pf : Platform) (w : World) (http : HttpConn) (node : Node) :
    Except Panic Int :=
  if http.mimeFlag && partialContent http 200 (-1) (modTime w.unixNow node.attr.mtime) then
    rangeLength pf http
  else pure http.rangeLen

/-- List a directory. -/
def serveListing (pf : Platform) (w : World) (v : View) (file opened : Path) (node : Node) :
    Except Panic View :=
  match pf.generateListing w.fs opened v.slot.http.origFilename with
  | some body => do
      let rangeLen ← listingRangeLength pf w v.slot.http node
      transitionToSending pf w (listingReply pf w v file opened node body rangeLen)
  | none => sendError pf w v (.internalError opened.toStr)

/-- A range without an end, or with one past the file, ends with the file. -/
def fillLastByte (http : HttpConn) (fileSize : Int) : HttpConn :=
  if http.gotRange && (http.lastByteIndex == -1 || decide (fileSize ≤ http.lastByteIndex)) then
    { http with lastByteIndex := fileSize - 1 }
  else http

/-- The bytes of the file that the request asks for. -/
def rangeBody (pf : Platform) (http : HttpConn) (data : Bytes) : Except Panic Bytes :=
  if http.gotRange then do
    let start := asUsize http.firstByteIndex
    let stop ← pf.usize (asUsize http.lastByteIndex + 1)
    if start < data.length ∧ stop ≤ data.length then slice data start stop else pure data
  else pure data

/-- The head of a reply about a file. -/
def fileHead (pf : Platform) (w : World) (http : HttpConn) (status : Nat) (statusText : Str)
    (opened : Path) (length : Int) (node : Node) : Bytes :=
  let mime := figureMime opened
  buildFullResponse pf w.unixNow http status statusText mime.mimeType length node.attr.mtime
    (encodingHeaders mime) http.rangeLen

/-- The view with the reply to `HEAD`. -/
def headReply (pf : Platform) (w : World) (v : View) (opened : Path) (node : Node) : View :=
  let head := fileHead pf w v.slot.http 200 okText opened node.len node
  (v.respond (headOnly v.slot.http head) .none).mapHttp fun http => { http with statusCode := 200 }

/-- The view with the reply to a conditional request for a file that did not change. -/
def notModifiedReply (pf : Platform) (w : World) (v : View) (opened : Path) (node : Node) :
    View :=
  let head := fileHead pf w v.slot.http 304 "Not Modified".toList opened (-1) node
  (v.respond (headOnly v.slot.http head) .none).mapHttp fun http => { http with statusCode := 304 }

/-- The view with the file, mapped as `data` and cut down to `body`. -/
def dataReply (pf : Platform) (w : World) (v : View) (file opened : Path) (node : Node)
    (data body : Bytes) : View :=
  let head := fileHead pf w v.slot.http 200 okText opened node.len node
  (v.respond (withBody v.slot.http head body) (.file file opened)).mapHttp fun http =>
    { http with
      fileAddress := some data
      responseHeaderLen := if http.mimeFlag then head.length else 0
      bytesSent := 0
      statusCode := if http.gotRange then 206 else 200 }

/-- Whether the client's copy is fresh. -/
def notModified (http : HttpConn) (node : Node) : Bool :=
  match http.ifModifiedSince with
  | some ims => decide ((node.attr.mtime : Int) ≤ ims)
  | none => false

/-- A file the throttle table admitted. -/
def replyFile (pf : Platform) (w : World) (v : View) (file opened : Path) (node : Node) :
    Except Panic View :=
  if v.slot.http.method = .head then transitionToSending pf w (headReply pf w v opened node)
  else if notModified v.slot.http node then
    transitionToSending pf w (notModifiedReply pf w v opened node)
  else match w.mmap opened with
    | some data => do
        let body ← rangeBody pf v.slot.http data
        transitionToSending pf w (dataReply pf w v file opened node data body)
    | none => sendError pf w v (.notFound v.slot.http.encodedUrl)

/-- The view with the reply to a request over its bandwidth limit. -/
def overLimitReply (pf : Platform) (w : World) (v : View) : View :=
  let reply := errorResponse pf w v.slot.http (.overLimit v.slot.http.origFilename)
  (v.respond reply .none).mapHttp fun http => { http with statusCode := 503 }

/-- The throttle bookkeeping of an admitted request. -/
def admittedThrottle (t : ConnThrottle) : ThrottleDecision → ConnThrottle
  | .allow tnums maxLimit minLimit => { t with tnums, maxLimit, minLimit, checked := true }
  | _ => { t with checked := true }

/-- The view a file is served from, once the throttle table has answered. -/
def fileView (v : View) (node : Node) (decision : ThrottleDecision)
    (throttles : Option ThrottleTable) : View :=
  (v.mapHttp fun http => fillLastByte http node.len).admitted throttles
    (admittedThrottle v.slot.throttle decision)

/-- Serve a file that passed the checks. -/
def serveFile (pf : Platform) (w : World) (v : View) (file opened : Path) (node : Node) :
    Except Panic View := do
  let (decision, throttles) ← askThrottle pf v.shared.throttles v.slot.http.origFilename
  let v := fileView v node decision throttles
  match decision with
  | .reject => transitionToSending pf w (overLimitReply pf w v)
  | _ => replyFile pf w v file opened node

/-- What is done with a path that passed the checks. -/
def serveChecked (pf : Platform) (w : World) (v : View) (file opened : Path) (node : Node) :
    Except Panic View :=
  if node.isDir then serveListing pf w v file opened node
  else serveFile pf w v file opened node

def serveStatic (pf : Platform) (cfg : ServerConfig) (w : World) (v : View) (file : Path) :
    Except Panic View :=
  match staticCheck pf cfg w (v.withCharset cfg).slot.http file with
  | .error e => sendError pf w (v.withCharset cfg) e
  | .ok (opened, node) => serveChecked pf w (v.withCharset cfg) file opened node

end Thttpd
