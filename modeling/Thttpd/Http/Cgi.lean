/-
Calling CGI programs: `rust/crates/thttpd-http/src/cgi.rs`.

The program itself is outside: `CgiCall` is everything it is started with and
`CgiOutput` what it printed.
-/
import Thttpd.Platform

namespace Thttpd

open Text Fs

structure CgiContext where
  serverSoftware : Str
  serverName : Str
  gatewayInterface : Str
  serverProtocol : Str
  serverPort : Nat
  requestMethod : Str
  queryString : Str
  remoteAddr : Str
  contentType : Option Str
  contentLength : Option Int
  /-- The `http_headers` map, header by header. -/
  httpHeaders : List (Str × Str)
  pathInfo : Option Str
  pathTranslated : Option Str
  remoteUser : Option Str
  authType : Option Str

/-- The request headers a program sees, in the order it sees them. -/
def cgiHeaderOrder : List (String × String) :=
  [("Referer", "HTTP_REFERER"), ("User-Agent", "HTTP_USER_AGENT"), ("Accept", "HTTP_ACCEPT"),
   ("Accept-Encoding", "HTTP_ACCEPT_ENCODING"), ("Accept-Language", "HTTP_ACCEPT_LANGUAGE"),
   ("Cookie", "HTTP_COOKIE"), ("Host", "HTTP_HOST")]

private def optionalVar (name : String) : Option Str → List (Str × Str)
  | some v => [(name.toList, v)]
  | none => []

def buildEnvp (ctx : CgiContext) (scriptPath cgiPattern : Str) : List (Str × Str) :=
  [("PATH".toList, "/usr/local/bin:/usr/ucb:/bin:/usr/bin".toList),
   ("SERVER_SOFTWARE".toList, ctx.serverSoftware),
   ("SERVER_NAME".toList, ctx.serverName),
   ("GATEWAY_INTERFACE".toList, ctx.gatewayInterface),
   ("SERVER_PROTOCOL".toList, ctx.serverProtocol),
   ("SERVER_PORT".toList, natStr ctx.serverPort),
   ("REQUEST_METHOD".toList, ctx.requestMethod)]
  ++ optionalVar "PATH_INFO" ctx.pathInfo
  ++ optionalVar "PATH_TRANSLATED" ctx.pathTranslated
  ++ [("SCRIPT_NAME".toList, scriptPath)]
  ++ (if ctx.queryString = [] then [] else [("QUERY_STRING".toList, ctx.queryString)])
  ++ [("REMOTE_ADDR".toList, ctx.remoteAddr)]
  ++ optionalVar "AUTH_TYPE" ctx.authType
  ++ optionalVar "REMOTE_USER" ctx.remoteUser
  ++ cgiHeaderOrder.flatMap (fun row =>
      match ctx.httpHeaders.lookup row.1.toList with
      | some value => [(row.2.toList, value)]
      | none => [])
  ++ optionalVar "CONTENT_TYPE" ctx.contentType
  ++ optionalVar "CONTENT_LENGTH" (ctx.contentLength.map intStr)
  ++ [("CGI_PATTERN".toList, cgiPattern)]

/-- What `execute_cgi` is called with. -/
structure CgiCall where
  scriptPath : Path
  workingDir : Path
  env : List (Str × Str)
  postBody : Option Bytes
  deriving DecidableEq, Repr

/-- The URL path of the script, as the program is told it. -/
def CgiCall.scriptName (call : CgiCall) : Option Str := call.env.lookup "SCRIPT_NAME".toList

/-- What a program that ran printed. -/
structure CgiOutput where
  stdout : Bytes
  stderr : Bytes

/-- A program that writes its own status line. -/
def isNphScript (script : Path) : Bool :=
  match script.fileName with
  | some name => "nph-".toList.isPrefixOf name
  | none => false

end Thttpd
