/-
From the bytes of a request to its handler: `process_request` and `extract_header`
in `rust/crates/thttpd-core/src/eventloop.rs`.

The function is cut where the source has its blocks: read the request line, refuse
what cannot be served, read the headers, clean the path, apply the virtual host,
split off PATH_INFO, and choose between a CGI program and a file.
-/
import Thttpd.Core.Static
import Thttpd.Core.CgiDispatch
import Thttpd.Http.Parse
import Thttpd.Http.Tdate
import Thttpd.Http.Url

namespace Thttpd

open Text Fs

/-- The longest URL that is served. -/
def maxUrlLength : Nat := 10000

/-! ### Request line and headers -/

/-- The value of the first line that starts with `name:`, case aside. -/
def extractHeader (pf : Platform) (headers : Bytes) (name : String) : Option Str :=
  let search := name.toList ++ [':']
  let searchLower := pf.toLowercase search
  ((lines (fromUtf8Lossy headers)).find? fun line =>
      searchLower.isPrefixOf (pf.toLowercase line)).map fun line =>
    trim (dropBytes (byteLen search) line)

/-- The words of the request line, which ends at the first carriage return. -/
def requestWords (buf : Bytes) : List Str :=
  splitWhitespace (fromUtf8Lossy (buf.takeWhile (· != 13)))

/-- The bytes after the first line feed. -/
def headerBytes (buf : Bytes) : Bytes :=
  match findBytes [10] buf with
  | some pos => buf.drop (pos + 1)
  | none => buf

/-- The part of the buffer the request detection has accepted. -/
def HttpConn.requestBytes (http : HttpConn) : Bytes := http.readBuf.take http.checkedIdx

/-- Everything the request line decides, and the host. -/
def readRequestLine (pf : Platform) (http : HttpConn) : HttpConn :=
  let buf := http.requestBytes
  let words := requestWords buf
  let url := (words[1]?).getD ['/']
  let version := words[2]?
  let versionStr := version.getD "HTTP/0.9".toList
  let decoded := percentDecode url
  { http with
    method := parseMethod http.readBuf http.checkedIdx
    httpVersion := versionStr
    oneOne := version.isSome && !versionStr.isEmpty
      && !eqIgnoreAsciiCase versionStr "HTTP/1.0".toList
    encodedUrl := url
    host := (extractHeader pf (headerBytes buf) "Host").getD []
    mimeFlag := version.isSome
    decodedUrl := match splitOnce '?' decoded with
      | some (path, _) => path
      | none => decoded
    query := match splitOnce '?' decoded with
      | some (_, query) => query
      | none => http.query }

/-- `Range: bytes=N-M` with one range and a first position. -/
def parseRange (http : HttpConn) (range : Str) : HttpConn :=
  if range.contains ',' then http
  else match splitOnce '=' range with
    | none => http
    | some (_, spec) =>
        match splitOnce '-' spec with
        | none => http
        | some (firstStr, rest) =>
            if firstStr = [] then http
            else match parseI64 firstStr with
              | none => http
              | some first =>
                  let http := { http with
                    gotRange := true
                    firstByteIndex := if first < 0 then 0 else first }
                  if rest = [] then http
                  else match parseI64 rest with
                    | none => http
                    | some last => { http with lastByteIndex := if last < 0 then -1 else last }

/-- The first address of `X-Forwarded-For`. -/
def firstForwarded (xff : Str) : Str := trim ((xff.splitOn ',').headD [])

/-- The headers that make a request conditional or partial. -/
def readConditions (pf : Platform) (header : String → Option Str) (http : HttpConn) : HttpConn :=
  let http := match header "If-Modified-Since" with
    | some ims => { http with ifModifiedSince := pf.parseHttpDate ims }
    | none => http
  match header "Range" with
  | some range => parseRange http range
  | none => http

/-- The headers whose values are kept as they are, or nearly. -/
def readFields (header : String → Option Str) (http : HttpConn) : HttpConn :=
  { http with
    contentType := (header "Content-Type").getD http.contentType
    contentLength := match header "Content-Length" with
      | some cl => (parseI64 (trim cl)).filter fun v => 0 ≤ v
      | none => http.contentLength
    userAgent := (header "User-Agent").getD http.userAgent
    referer := (header "Referer").getD http.referer
    accept := (header "Accept").getD http.accept
    acceptEncoding := (header "Accept-Encoding").getD http.acceptEncoding
    acceptLanguage := (header "Accept-Language").getD http.acceptLanguage
    cookie := (header "Cookie").getD http.cookie
    authorization := (header "Authorization").getD http.authorization
    xForwardedFor := match header "X-Forwarded-For" with
      | some xff => if firstForwarded xff = [] then http.xForwardedFor else firstForwarded xff
      | none => http.xForwardedFor }

/-- The request headers. -/
def readHeaders (pf : Platform) (http : HttpConn) : HttpConn :=
  let header := extractHeader pf (headerBytes http.requestBytes)
  readFields header (readConditions pf header http)

/-- Request line and headers. -/
def readRequest (pf : Platform) (http : HttpConn) : HttpConn :=
  readHeaders pf (readRequestLine pf http)

/--
What is refused before the headers are read: HTTP/1.1 without a host, and unknown
methods.
-/
def requestLineCheck (http : HttpConn) : Option ErrorReply :=
  if http.oneOne && http.host.isEmpty then some (.badRequest http.httpVersion)
  else if http.method = .unknown then
    some (.notImplemented ((requestWords http.requestBytes).headD "UNKNOWN".toList))
  else none

/-! ### From the URL to a file -/

/-- The file of a cleaned URL path; the root stands for its index. -/
def docFile (cfg : ServerConfig) (path : Str) : Path :=
  if path = ['/'] then cfg.root.join "index.html".toList else cfg.root.join (path.drop 1)

/-- The reply to a path that does not clean up. -/
def badPathReply (decoded : Str) : ErrorReply :=
  if containsStr ['/', '/'] decoded then .badRequest decoded else .notFound decoded

/-- The host goes in front of the path when virtual hosting is on. -/
def applyVhost (pf : Platform) (cfg : ServerConfig) (http : HttpConn) : HttpConn :=
  if cfg.vhost && !http.host.isEmpty then
    let hostdir := pf.toLowercase http.host
    { http with origFilename := '/' :: hostdir ++ http.origFilename, vhostDir := hostdir }
  else http

/--
Split off what follows the longest prefix that exists, unless a virtual host was
applied.
-/
def splitPathInfo (cfg : ServerConfig) (w : World) (http : HttpConn) : HttpConn :=
  if cfg.vhost && !http.vhostDir.isEmpty then http
  else
    let (path, info, _) := stripUntil (fun path => w.fs.exists_ (docFile cfg path))
      http.origFilename.length http.origFilename []
    if info = [] then http else { http with pathInfo := info, origFilename := path }

/-- The paths left when components are stripped one at a time. -/
def shorterPaths : Nat → Str → List Str
  | 0, _ => []
  | fuel + 1, path =>
      match stripComponent path with
      | some (before, _) => before :: shorterPaths fuel before
      | none => []

/-- Whether a path, or one of its shorter prefixes, matches the CGI pattern. -/
def isCgi (cfg : ServerConfig) (path : Str) : Bool :=
  match cfg.cgiPattern with
  | some pattern =>
      matchPattern pattern path || (shorterPaths path.length path).any (matchPattern pattern)
  | none => false

/-- The resolved request: cleaned path, virtual host, PATH_INFO. -/
def resolveRequest (pf : Platform) (cfg : ServerConfig) (w : World) (http : HttpConn)
    (normalized : Str) : HttpConn :=
  splitPathInfo cfg w (applyVhost pf cfg { http with origFilename := normalized })

/--
Resolving a request sets three fields of the connection, and what does not look at
them is kept.
-/
theorem resolveRequest_keeps {β : Type} (f : HttpConn → β)
    (hf : ∀ http filename dir info, f { http with
      origFilename := filename, vhostDir := dir, pathInfo := info } = f http)
    (pf : Platform) (cfg : ServerConfig) (w : World) (http : HttpConn) (normalized : Str) :
    f (resolveRequest pf cfg w http normalized) = f http := by
  unfold resolveRequest splitPathInfo applyVhost
  repeat' split
  all_goals exact hf http _ _ _

/-- The file `process_request` hands to `serve_static`. -/
def requestFile (pf : Platform) (cfg : ServerConfig) (http : HttpConn) (normalized : Str) :
    Path :=
  docFile cfg (applyVhost pf cfg { http with origFilename := normalized }).origFilename

/-- The choice between a program, a refusal and a file. -/
def chooseHandler (pf : Platform) (cfg : ServerConfig) (w : World) (v : View) (file : Path) :
    Except Panic View :=
  if isCgi cfg v.slot.http.origFilename then dispatchCgi pf cfg w v
  else if v.slot.http.pathInfo ≠ [] then
    sendError pf w v (.forbidden ErrorReply.pathinfoOnFile v.slot.http.encodedUrl)
  else serveStatic pf cfg w v file

/-- A request whose headers have been read. -/
def routeRequest (pf : Platform) (cfg : ServerConfig) (w : World) (v : View) :
    Except Panic View :=
  if maxUrlLength < byteLen v.slot.http.encodedUrl then
    sendError pf w v (.internalError v.slot.http.encodedUrl)
  else match normalizePath v.slot.http.decodedUrl with
    | none => sendError pf w v (badPathReply v.slot.http.decodedUrl)
    | some normalized =>
        chooseHandler pf cfg w (v.mapHttp fun http => resolveRequest pf cfg w http normalized)
          (requestFile pf cfg v.slot.http normalized)

def processRequest (pf : Platform) (cfg : ServerConfig) (w : World) (v : View) :
    Except Panic View :=
  match requestLineCheck (readRequestLine pf v.slot.http) with
  | some e => sendError pf w (v.mapHttp (readRequestLine pf)) e
  | none => routeRequest pf cfg w (v.mapHttp (readRequest pf))

end Thttpd
