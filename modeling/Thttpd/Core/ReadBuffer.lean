/-
The read buffer in memory: `read_buf`, `read_idx` and `checked_idx` of
`rust/crates/thttpd-http/src/conn.rs`, and every access `handle_read`,
`process_request` and `dispatch_cgi` make to them.

`HttpConn` keeps the bytes received and nothing else.  The source keeps them at the
front of a vector of fixed size, where each index, each slice and each sum it forms
could abort.  The functions here form them in the order of the source; what is done
with the bytes is left to the handlers.
-/
import Thttpd.Core.EventLoop

namespace Thttpd

open Text

/-- `a - b` on a 64-bit `usize`. -/
def Platform.usizeSub (pf : Platform) (a b : Nat) : Except Panic Nat :=
  if b ≤ a then .ok (a - b)
  else if pf.overflowChecks then .error .overflow
  else .ok (a + 18446744073709551616 - b)

structure ReadBuffer where
  readBuf : Bytes
  readIdx : Nat
  checkedIdx : Nat
  deriving Repr

namespace ReadBuffer

/-- The buffer of `HttpConn::new`. -/
def new : ReadBuffer := ⟨List.replicate readBufSize 0, 0, 0⟩

/-- `READ_BUF_SIZE - read_idx`. -/
def bufRemaining (pf : Platform) (b : ReadBuffer) : Except Panic Nat :=
  pf.usizeSub readBufSize b.readIdx

/-- `read_buf[read_idx..]`, where a read may put bytes. -/
def window (b : ReadBuffer) : Except Panic Bytes := sliceFrom b.readBuf b.readIdx

/-- A read put `bytes` at the start of the window. -/
def store (b : ReadBuffer) (bytes : Bytes) : ReadBuffer :=
  { b with readBuf :=
      b.readBuf.take b.readIdx ++ (bytes ++ b.readBuf.drop (b.readIdx + bytes.length)) }

/-- `read_idx += n`. -/
def advance (pf : Platform) (b : ReadBuffer) (n : Nat) : Except Panic ReadBuffer := do
  let readIdx ← pf.usize (b.readIdx + n)
  pure { b with readIdx }

/-- The loop of `got_request`, with `left` bytes between the index and `read_idx`. -/
def gotRequestAt (pf : Platform) (readBuf : Bytes) :
    Nat → Nat → ParseState → Except Panic (GotRequest × Nat × ParseState)
  | 0, idx, state => .ok (.noRequest, idx, state)
  | left + 1, idx, state =>
      match readBuf[idx]? with
      -- an index after the end aborts as a slice would
      | none => .error .sliceEnd
      | some c =>
          match parseByte state c with
          | .next state' => do
              let idx ← pf.usize (idx + 1)
              gotRequestAt pf readBuf left idx state'
          | .stop verdict true state' => do
              let idx ← pf.usize (idx + 1)
              pure (verdict, idx, state')
          | .stop verdict false state' => .ok (verdict, idx, state')

def gotRequest (pf : Platform) (b : ReadBuffer) (state : ParseState) :
    Except Panic (GotRequest × Nat × ParseState) :=
  gotRequestAt pf b.readBuf (b.readIdx - b.checkedIdx) b.checkedIdx state

/-- `read_buf[..checked_idx]`. -/
def head (b : ReadBuffer) : Except Panic Bytes := slice b.readBuf 0 b.checkedIdx

/-- `read_buf[body_start..read_idx]`. -/
def body (b : ReadBuffer) : Except Panic Bytes := slice b.readBuf b.checkedIdx b.readIdx

/-- `body_start + (cl as usize)`. -/
def bodyEnd (pf : Platform) (b : ReadBuffer) (cl : Int) : Except Panic Nat :=
  pf.usize (b.checkedIdx + asUsize cl)

/-- Whether `dispatch_cgi` puts the request off. -/
def bodyPending (pf : Platform) (b : ReadBuffer) : Option Int → Except Panic Bool
  | some cl =>
      if 0 < cl then do
        let stop ← b.bodyEnd pf cl
        pure (decide (b.readIdx < stop))
      else pure false
  | none => pure false

/-- The body `dispatch_cgi` hands to the program. -/
def postBody (pf : Platform) (b : ReadBuffer) : Option Int → Except Panic (Option Bytes)
  | some len => do
      let stop ← b.bodyEnd pf len
      if stop ≤ b.readIdx then do
        let body ← b.body
        pure (some body)
      else pure none
  | none => pure none

/-- What `dispatch_cgi` does to the buffer: nothing, but it looks. -/
def dispatchCgi (pf : Platform) (b : ReadBuffer) (contentLength : Option Int) :
    Except Panic (Option Bytes) := do
  let pending ← b.bodyPending pf contentLength
  if pending then pure none else b.postBody pf contentLength

/-- Whether a body that was waited for is there. -/
def bodyComplete (pf : Platform) (b : ReadBuffer) : Option Int → Except Panic Bool
  | some cl =>
      if 0 < cl then do
        let stop ← b.bodyEnd pf cl
        pure (decide (stop ≤ b.readIdx))
      else pure true
  | none => pure true

/-- A request whose body is waited for. -/
def resumeCgi (pf : Platform) (b : ReadBuffer) (contentLength : Option Int) :
    Except Panic (Option Bytes) := do
  let complete ← b.bodyComplete pf contentLength
  if complete then b.dispatchCgi pf contentLength else pure none

/--
A request just detected.  Whether it is for a program is not asked: each request
makes the accesses of one that is.
-/
def processRequest (pf : Platform) (b : ReadBuffer) (http : HttpConn) :
    Except Panic (Option Bytes) := do
  let head ← b.head
  b.dispatchCgi pf
    (readRequest pf { http with readBuf := head, checkedIdx := b.checkedIdx }).contentLength

/-- Look for a complete request, and take it up. -/
def detectRequest (pf : Platform) (b : ReadBuffer) (http : HttpConn) : Except Panic ReadBuffer := do
  let (verdict, checkedIdx, _) ← b.gotRequest pf http.parseState
  let b := { b with checkedIdx }
  match verdict with
  | .gotRequest => do
      let _ ← b.processRequest pf http
      pure b
  | _ => pure b

/-- The buffer after `handle_read`. -/
def handleRead (pf : Platform) (w : World) (slot : ConnSlot) (b : ReadBuffer) :
    Except Panic ReadBuffer := do
  let room ← b.bufRemaining pf
  if room = 0 then pure b
  else if slot.stream.isNone then pure b
  else do
    let window ← b.window
    match w.read with
    | .data bytes =>
        let bytes := bytes.take window.length
        if bytes = [] then pure b
        else do
          let b ← (b.store bytes).advance pf bytes.length
          if slot.pendingCgiBody then do
            let _ ← b.resumeCgi pf slot.http.contentLength
            pure b
          else b.detectRequest pf slot.http
    | _ => pure b

end ReadBuffer

end Thttpd
