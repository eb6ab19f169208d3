/-
Connection state of the HTTP layer: `rust/crates/thttpd-http/src/conn.rs`,
`method.rs` and `parse_state.rs`.

The read buffer holds exactly the bytes received so far, so its length is the
source's `read_idx`.  `payload` is not a field of the source: it says whose bytes
the body of `response` is made of, so that results can speak about them.
-/
import Thttpd.Platform

namespace Thttpd

open Text Fs

inductive Method where
  | get
  | head
  | post
  | unknown
  deriving DecidableEq, Repr

def Method.parse (s : Str) : Method :=
  if s = "GET".toList then .get
  else if s = "HEAD".toList then .head
  else if s = "POST".toList then .post
  else .unknown

def Method.asStr : Method → Str
  | .get => "GET".toList
  | .head => "HEAD".toList
  | .post => "POST".toList
  | .unknown => "UNKNOWN".toList

/-- States of the request-detection machine. -/
inductive ParseState where
  | firstWord
  | firstWs
  | secondWord
  | secondWs
  | thirdWord
  | thirdWs
  | lf
  | cr
  | crlf
  | crlfcr
  | line
  | gotRequest
  | bogus
  deriving DecidableEq, Repr

/-- What the machine says about the bytes seen so far. -/
inductive GotRequest where
  | noRequest
  | gotRequest
  | badRequest
  deriving DecidableEq, Repr

/-- States of a connection. -/
inductive ConnState where
  | free
  | reading
  | sending
  | pausing
  | lingering
  deriving DecidableEq, Repr

/-- Whose bytes a response carries. -/
inductive Payload where
  /-- None but the server's own. -/
  | none
  /-- A file: the path handed to `serve_static` and the path opened. -/
  | file (handed opened : Path)
  /-- The listing of a directory, with the same two paths. -/
  | listing (handed opened : Path)
  deriving DecidableEq, Repr

structure HttpConn where
  readBuf : Bytes
  checkedIdx : Nat
  parseState : ParseState
  method : Method
  httpVersion : Str
  oneOne : Bool
  vhostDir : Str
  encodedUrl : Str
  decodedUrl : Str
  pathInfo : Str
  query : Str
  origFilename : Str
  host : Str
  xForwardedFor : Str
  contentType : Str
  contentLength : Option Int
  referer : Str
  userAgent : Str
  cookie : Str
  authorization : Str
  charset : Str
  accept : Str
  acceptEncoding : Str
  acceptLanguage : Str
  ifModifiedSince : Option Int
  mimeFlag : Bool
  gotRange : Bool
  firstByteIndex : Int
  lastByteIndex : Int
  rangeIf : Option Int
  response : Bytes
  responseLen : Nat
  responseHeaderLen : Nat
  statusCode : Nat
  fileAddress : Option Bytes
  bytesSent : Int
  payload : Payload
  deriving Repr

namespace HttpConn

/-- The bytes received so far. -/
def readIdx (http : HttpConn) : Nat := http.readBuf.length

/-- Bytes arrived. -/
def receive (http : HttpConn) (bytes : Bytes) : HttpConn :=
  { http with readBuf := http.readBuf ++ bytes }

/-- `HttpConn::new`. -/
def new : HttpConn where
  readBuf := []
  checkedIdx := 0
  parseState := .firstWord
  method := .unknown
  httpVersion := []
  oneOne := false
  vhostDir := []
  encodedUrl := []
  decodedUrl := []
  pathInfo := []
  query := []
  origFilename := []
  host := []
  xForwardedFor := []
  contentType := []
  contentLength := none
  referer := []
  userAgent := []
  cookie := []
  authorization := []
  charset := "iso-8859-1".toList
  accept := []
  acceptEncoding := []
  acceptLanguage := []
  ifModifiedSince := none
  mimeFlag := true
  gotRange := false
  firstByteIndex := 0
  lastByteIndex := -1
  rangeIf := none
  response := []
  responseLen := 0
  responseHeaderLen := 0
  statusCode := 0
  fileAddress := none
  bytesSent := 0
  payload := .none

/-- A connection that has received bytes and parsed none of them. -/
def received (buf : Bytes) (checkedIdx : Nat) (state : ParseState) : HttpConn :=
  { new with readBuf := buf, checkedIdx := checkedIdx, parseState := state }

end HttpConn

end Thttpd
