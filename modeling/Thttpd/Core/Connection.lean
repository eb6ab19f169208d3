/-
Server and connection state: `rust/crates/thttpd-core/src/connection.rs`,
`server.rs` and the configuration fields the request path reads.

A handler of one connection changes that connection's slot and the state all
connections share, and nothing of the other connections, so the handlers work on a
`View`: the shared state and one slot.  `Server` puts the slots back together.

`World` is what the outside answers while a handler runs: the file tree, the clock,
the socket, the CGI program.  Each handler call gets its own.
-/
import Thttpd.Http.Conn
import Thttpd.Http.Cgi
import Thttpd.Core.Throttle

namespace Thttpd

open Text Fs

structure ServerConfig where
  dir : Str
  port : Nat
  vhost : Bool
  noSymlinkCheck : Bool
  cgiPattern : Option Str
  charset : Str
  cgiLimit : Option Int

/-- The document root. -/
def ServerConfig.root (cfg : ServerConfig) : Path := Path.parse cfg.dir

/-- `Server::cgi_limit`: fifty unless configured, zero meaning no limit. -/
def ServerConfig.limit (cfg : ServerConfig) : Int := cfg.cgiLimit.getD 50

/-- `THROTTLE_NOLIMIT` again, under the connection table's name. -/
def nolimit : Int := -1

/-- Throttle bookkeeping of one connection; instants are nanoseconds. -/
structure ConnThrottle where
  tnums : List Nat
  maxLimit : Int
  minLimit : Int
  headerLen : Nat
  bodyBytes : Int
  startedAt : Option Nat
  activeAt : Option Nat
  pauseUntil : Option Nat
  checked : Bool
  deriving DecidableEq, Repr

namespace ConnThrottle

/-- `ConnThrottle::new`, which is also what `reset` leaves. -/
def new : ConnThrottle where
  tnums := []
  maxLimit := nolimit
  minLimit := nolimit
  headerLen := 0
  bodyBytes := 0
  startedAt := none
  activeAt := none
  pauseUntil := none
  checked := false

def isThrottled (t : ConnThrottle) : Bool := !t.tnums.isEmpty

end ConnThrottle

/-- A socket, as the bytes it has accepted so far. -/
structure Stream where
  written : Bytes
  deriving DecidableEq, Repr

/-- The two ways an address is printed. -/
structure PeerAddr where
  ip : Str
  withPort : Str
  deriving DecidableEq, Repr

structure ConnSlot where
  state : ConnState
  stream : Option Stream
  http : HttpConn
  peerAddr : Option PeerAddr
  throttle : ConnThrottle
  isCgi : Bool
  pendingCgiBody : Bool

/-- The slot `handle_accept` fills in. -/
def ConnSlot.accepted (peer : PeerAddr) : ConnSlot where
  state := .reading
  stream := some ⟨[]⟩
  http := HttpConn.new
  peerAddr := some peer
  throttle := ConnThrottle.new
  isCgi := false
  pendingCgiBody := false

/--
The counters of the server.  They are `u64` in the source and have no end here, which
makes a difference after 2⁶⁴ connections or bytes.
-/
structure ServerStats where
  connections : Nat
  requests : Nat
  bytesSent : Nat
  deriving DecidableEq, Repr

/-- What the access log is given. -/
structure LogEntry where
  remoteAddr : Str
  method : Str
  url : Str
  protocol : Str
  status : Nat
  bytesSent : Int
  referer : Str
  userAgent : Str
  deriving DecidableEq, Repr

/--
The state all connections share.  `cgiCalls` is not in the source: it records every
call of `execute_cgi`.
-/
structure Shared where
  throttles : Option ThrottleTable
  activeCgis : Int
  stats : ServerStats
  accessLog : List LogEntry
  cgiCalls : List CgiCall

/-- The answer of a non-blocking `read`; no data is the end of the stream. -/
inductive ReadResult where
  | data (bytes : Bytes)
  | wouldBlock
  | failed

/-- The answer of a non-blocking `write`: how many bytes were accepted at most. -/
inductive WriteResult where
  | accepted (n : Nat)
  | wouldBlock
  | failed

/-- What the outside answers while one handler runs. -/
structure World where
  fs : FileSystem
  /-- `MmapCache::map`: the mapped bytes, or none when the file cannot be opened. -/
  mmap : Path → Option Bytes
  /-- `Instant::now`, in nanoseconds. -/
  now : Nat
  /-- `SystemTime::now`, in seconds since the epoch. -/
  unixNow : Int
  hostname : Str
  /-- The program started by a call; none when it cannot be started. -/
  execCgi : CgiCall → Option CgiOutput
  read : ReadResult
  write : WriteResult

/-- The server as the handler of one connection sees it. -/
structure View where
  shared : Shared
  slot : ConnSlot

namespace View

/-- Change the HTTP part of the slot. -/
def mapHttp (v : View) (f : HttpConn → HttpConn) : View :=
  { v with slot := { v.slot with http := f v.slot.http } }

/-- The configured charset goes with the connection. -/
def withCharset (v : View) (cfg : ServerConfig) : View :=
  v.mapHttp fun http => { http with charset := cfg.charset }

/-- The throttle table answered, and the connection keeps what it was given. -/
def admitted (v : View) (throttles : Option ThrottleTable) (throttle : ConnThrottle) : View :=
  { shared := { v.shared with throttles }, slot := { v.slot with throttle } }

/-- Put a finished response into the slot. -/
def respond (v : View) (response : Bytes) (payload : Payload) : View :=
  v.mapHttp fun http =>
    { http with response := response, responseLen := response.length, payload := payload }

end View

/-! ### A server to try requests on -/

/--
A world at rest over a file tree: mapping reads the file, and the socket and the
programs have nothing to say.
-/
def World.still (fs : FileSystem) : World where
  fs := fs
  mmap := fun p => (fs.read p).toOption
  now := 0
  unixNow := 0
  hostname := "localhost".toList
  execCgi := fun _ => none
  read := .wouldBlock
  write := .wouldBlock

/-- A tree with these entries at its root, where the server also runs. -/
def rootTree (entries : List (Str × Node)) : FileSystem where
  rootAttr := ⟨0o755, 0, true⟩
  entries := entries
  cwd := []
  cwd_plain := by simp

/-- A tree with the entries of `/www`. -/
def wwwTree (entries : List (Str × Node)) : FileSystem :=
  rootTree [("www".toList, .dir ⟨0o755, 0, true⟩ entries)]

/-- A file anyone may read and nobody may execute. -/
def plainFile (content : Bytes) : Node := .file ⟨0o644, 0, true⟩ content

/-- A directory anyone may enter. -/
def plainDir (entries : List (Str × Node)) : Node := .dir ⟨0o755, 0, true⟩ entries

/-- Serve `/www`, files only. -/
def wwwConfig : ServerConfig where
  dir := "/www".toList
  port := 80
  vhost := false
  noSymlinkCheck := false
  cgiPattern := none
  charset := "iso-8859-1".toList
  cgiLimit := none

/-- Programs are what ends in `.cgi`. -/
def cgiConfig : ServerConfig := { wwwConfig with cgiPattern := some "**.cgi".toList }

/-- A program that matches with its own path. -/
def scriptTree : FileSystem := wwwTree [("a.cgi".toList, .file ⟨0o755, 0, true⟩ [])]

def localPeer : PeerAddr := ⟨"127.0.0.1".toList, "127.0.0.1:9".toList⟩

/-- The state of a server that has just been started. -/
def Shared.start (throttles : Option ThrottleTable) : Shared where
  throttles := throttles
  activeCgis := 0
  stats := ⟨0, 0, 0⟩
  accessLog := []
  cgiCalls := []

/-- A connection that received the head of a request. -/
def requestView (head : String) : View :=
  ⟨Shared.start none,
    { ConnSlot.accepted localPeer with
      http := .received (asBytes head.toList) (asBytes head.toList).length .gotRequest }⟩

end Thttpd
