/-
The event loop: `rust/crates/thttpd-core/src/eventloop.rs`.

A handler of one connection is a function of the world and the `View` of that
connection; it may close the connection, which leaves no slot.
-/
import Thttpd.Core.Request

namespace Thttpd

open Text Fs

/-- The size of a connection's read buffer. -/
def readBufSize : Nat := 60000

/-- The most connections at a time. -/
def maxConnections : Nat := 4096

/-- One second of the monotonic clock. -/
def nanosPerSec : Nat := 1000000000

/-- What a handler leaves: the shared state, and the slot unless it was closed. -/
structure Outcome where
  shared : Shared
  slot : Option ConnSlot

/-- The connection stays open. -/
def View.keep (v : View) : Outcome := ⟨v.shared, some v.slot⟩

/-! ### Closing

The entry of the log is written from what the connection holds, and its rules are
given back.
-/

/-- The status in the status line of a response. -/
def statusCodeFromResponse (response : Bytes) : Option Nat :=
  (findBytes [13, 10] response).bind fun stop =>
    (fromUtf8 (response.take stop)).bind fun line =>
      match splitWhitespace line with
      | protocol :: status :: _ =>
          if "HTTP/".toList.isPrefixOf protocol then (parseInt 0 65535 status).map Int.toNat
          else none
      | _ => none

def loggedStatusCode (http : HttpConn) : Nat :=
  if 0 < http.statusCode then http.statusCode else (statusCodeFromResponse http.response).getD 0

/-- Body bytes sent, the head left out. -/
def entityBytesSent (bytesSent : Int) (headerLen : Nat) : Int := max (bytesSent - headerLen) 0

def logEntry (slot : ConnSlot) : LogEntry :=
  let http := slot.http
  { remoteAddr := if http.xForwardedFor ≠ [] then http.xForwardedFor
      else match slot.peerAddr with
        | some addr => addr.ip
        | none => ['-']
    method := http.method.asStr
    url := http.encodedUrl
    protocol := if http.mimeFlag then http.httpVersion else []
    status := loggedStatusCode http
    bytesSent := entityBytesSent http.bytesSent http.responseHeaderLen
    referer := http.referer
    userAgent := http.userAgent }

/-- Log the request, release its throttle and drop the slot. -/
def closeConnection (v : View) : Outcome :=
  let entry := logEntry v.slot
  { shared := { v.shared with
      accessLog := if 0 < entry.status then v.shared.accessLog ++ [entry] else v.shared.accessLog
      throttles := if v.slot.throttle.isThrottled then
          v.shared.throttles.map fun table => table.clear v.slot.throttle.tnums
        else v.shared.throttles }
    slot := none }

/-! ### Reading

A read puts what came behind what there is, and the detection machine looks at the
new bytes only.
-/

/-- The reply to a request that was never parsed. -/
def refuseUnparsed (pf : Platform) (w : World) (v : View) : Except Panic Outcome := do
  let reply := buildErrorResponse (.badRequest []) v.slot.http.userAgent
  let v ← transitionToSending pf w (v.respond reply .none)
  pure v.keep

/-- Whether the declared body is there. -/
def bodyComplete (http : HttpConn) : Bool :=
  match http.contentLength with
  | some cl => if 0 < cl then decide (http.checkedIdx + asUsize cl ≤ http.readIdx) else true
  | none => true

/-- The connection no longer waits for a body. -/
def bodyArrived (v : View) : View := { v with slot := { v.slot with pendingCgiBody := false } }

/-- Take up a CGI dispatch that was waiting for its body. -/
def resumeCgi (pf : Platform) (cfg : ServerConfig) (w : World) (v : View) :
    Except Panic Outcome :=
  if bodyComplete v.slot.http then do
    let v ← dispatchCgi pf cfg w (bodyArrived v)
    pure v.keep
  else pure v.keep

/-- Look for a complete request in what has been read. -/
def detectRequest (pf : Platform) (cfg : ServerConfig) (w : World) (v : View) :
    Except Panic Outcome :=
  let http := v.slot.http
  let (verdict, checkedIdx, parseState) :=
    gotRequest http.readBuf http.checkedIdx http.parseState
  let v := v.mapHttp fun http => { http with checkedIdx, parseState }
  match verdict with
  | .noRequest => pure v.keep
  | .badRequest => refuseUnparsed pf w v
  | .gotRequest => do
      let v ← processRequest pf cfg w v
      pure v.keep

def handleRead (pf : Platform) (cfg : ServerConfig) (w : World) (v : View) :
    Except Panic Outcome :=
  let room := readBufSize - v.slot.http.readIdx
  if room = 0 then refuseUnparsed pf w v
  else if v.slot.stream.isNone then pure (closeConnection v)
  else match w.read with
    | .wouldBlock => pure v.keep
    | .failed => pure (closeConnection v)
    | .data bytes =>
        let bytes := bytes.take room
        if bytes = [] then pure (closeConnection v)
        else
          let v := v.mapHttp fun http => http.receive bytes
          if v.slot.pendingCgiBody then resumeCgi pf cfg w v
          else detectRequest pf cfg w v

/-! ### Sending

Each round asks what the rules leave for it, writes that much at most, and decides
whether to go on, to pause or to end.
-/

/-- Enter the lingering state; the mapping of the file is let go. -/
def transitionToLingering (v : View) : View :=
  { v with slot := { v.slot with
      state := .lingering
      http := { v.slot.http with fileAddress := none } } }

/-- Whole seconds since `t`, at least one. -/
def elapsedSecs (w : World) (startedAt : Option Nat) : Nat :=
  match startedAt with
  | some t => max ((w.now - t) / nanosPerSec) 1
  | none => 1

/-- How many bytes may be written this round. -/
def writeLimit (pf : Platform) (w : World) (slot : ConnSlot) : Except Panic Nat :=
  let sent := slot.http.bytesSent
  if slot.throttle.isThrottled && decide (0 < slot.throttle.maxLimit) then do
    let remainingHeader := (max ((slot.throttle.headerLen : Int) - sent) 0).toNat
    let product ← pf.i64 (slot.throttle.maxLimit * elapsedSecs w slot.throttle.startedAt)
    let allowance ← pf.i64 (product - slot.throttle.bodyBytes)
    pf.usize (remainingHeader + (max allowance 0).toNat)
  else pure ((slot.http.responseLen : Int) - sent).toNat

/-- Wait for the next throttle window. -/
def pauseSending (w : World) (v : View) : View :=
  { v with slot := { v.slot with
      state := .pausing
      throttle := { v.slot.throttle with pauseUntil := some (w.now + nanosPerSec) } } }

/-- The socket took `chunk`. -/
def countWritten (v : View) (stream : Stream) (chunk : Bytes) : View :=
  { shared := { v.shared with stats :=
      { v.shared.stats with bytesSent := v.shared.stats.bytesSent + chunk.length } }
    slot := { v.slot with
      stream := some ⟨stream.written ++ chunk⟩
      http := { v.slot.http with bytesSent := v.slot.http.bytesSent + chunk.length } } }

/-- The rules of a connection are charged `delta` body bytes. -/
def chargeRules (w : World) (v : View) (delta : Int) : View :=
  { shared := { v.shared with
      throttles := v.shared.throttles.map fun table =>
        table.addBytes v.slot.throttle.tnums delta }
    slot := { v.slot with throttle := { v.slot.throttle with
      bodyBytes := v.slot.throttle.bodyBytes + delta
      activeAt := some w.now } } }

/-- Body bytes are charged to the throttle, header bytes never. -/
def chargeBody (w : World) (v : View) (sentBefore : Int) : View :=
  let headerLen : Int := v.slot.throttle.headerLen
  let delta := max (v.slot.http.bytesSent - headerLen) 0 - max (sentBefore - headerLen) 0
  if v.slot.throttle.isThrottled ∧ 0 < delta then chargeRules w v delta else v

/-- Whether everything has been sent. -/
def allSent (http : HttpConn) : Bool := decide ((http.responseLen : Int) ≤ http.bytesSent)

/-- What follows a write. -/
def afterWrite (w : World) (v : View) (stream : Stream) (chunk : Bytes) : Outcome :=
  let v' := chargeBody w (countWritten v stream chunk) v.slot.http.bytesSent
  if allSent v'.slot.http then (transitionToLingering v').keep else v'.keep

def handleSend (pf : Platform) (w : World) (v : View) : Except Panic Outcome :=
  if allSent v.slot.http then pure (transitionToLingering v).keep
  else do
    let limit ← writeLimit pf w v.slot
    if limit = 0 then pure (pauseSending w v).keep
    else match v.slot.stream with
      | none => pure (closeConnection v)
      | some stream => do
          let remaining ← sliceFrom v.slot.http.response (asUsize v.slot.http.bytesSent)
          match w.write with
          | .wouldBlock => pure v.keep
          | .failed => pure (closeConnection v)
          | .accepted n =>
              pure (afterWrite w v stream ((remaining.take (min limit remaining.length)).take n))

/-- The share the throttle table now leaves for a connection. -/
def refreshShare (shared : Shared) (t : ConnThrottle) : ConnThrottle :=
  match shared.throttles with
  | some table => { t with maxLimit := table.fairShareFor t.tnums }
  | none => t

/-- Back from a pause. -/
def wake (v : View) : View :=
  { v with slot := { v.slot with
      state := .sending
      throttle := { refreshShare v.shared v.slot.throttle with pauseUntil := none } } }

def pauseOver (w : World) (t : ConnThrottle) : Bool :=
  match t.pauseUntil with
  | some deadline => decide (deadline ≤ w.now)
  | none => true

def handlePause (pf : Platform) (w : World) (v : View) : Except Panic Outcome :=
  if !pauseOver w v.slot.throttle then pure v.keep
  else
    let v := wake v
    if v.slot.stream.isNone then pure (closeConnection v) else handleSend pf w v

/-- Whatever the socket says, a lingering connection is closed. -/
def handleLinger (v : View) : Outcome := closeConnection v

def handleConnectionEvent (pf : Platform) (cfg : ServerConfig) (w : World) (v : View) :
    Except Panic Outcome :=
  match v.slot.state with
  | .reading => handleRead pf cfg w v
  | .sending => handleSend pf w v
  | .lingering => pure (handleLinger v)
  | .pausing => handlePause pf w v
  | .free => pure v.keep

end Thttpd
