/-
Request detection: `rust/crates/thttpd-http/src/parse.rs`.

One byte moves the machine from state to state or ends it, and `gotRequest` runs it
over the bytes not looked at yet.
-/
import Thttpd.Http.Conn

namespace Thttpd

open Text

/-- What one byte does: go on in a state, or stop with a verdict. -/
inductive ParseStep where
  | next (state : ParseState)
  | stop (verdict : GotRequest) (consumed : Bool) (state : ParseState)
  deriving DecidableEq, Repr

def isBlank (c : UInt8) : Bool := c == 32 || c == 9

def isCr (c : UInt8) : Bool := c == 13

def isLf (c : UInt8) : Bool := c == 10

@[simp] theorem isBlank_iff {c : UInt8} : isBlank c = true ↔ c = 32 ∨ c = 9 := by simp [isBlank]

@[simp] theorem isCr_iff {c : UInt8} : isCr c = true ↔ c = 13 := by simp [isCr]

@[simp] theorem isLf_iff {c : UInt8} : isLf c = true ↔ c = 10 := by simp [isLf]

/-- Malformed: the offending byte is not consumed. -/
def ParseStep.bad : ParseStep := .stop .badRequest false .bogus

/-- Complete, the last byte included. -/
def ParseStep.done : ParseStep := .stop .gotRequest true .gotRequest

/-- The transition table. -/
def parseByte (state : ParseState) (c : UInt8) : ParseStep :=
  match state with
  | .firstWord =>
      if isBlank c then .next .firstWs
      else if isCr c || isLf c then .bad
      else .next .firstWord
  | .firstWs =>
      if isBlank c then .next .firstWs
      else if isCr c || isLf c then .bad
      else .next .secondWord
  | .secondWord =>
      if isBlank c then .next .secondWs
      else if isCr c || isLf c then .done
      else .next .secondWord
  | .secondWs =>
      if isBlank c then .next .secondWs
      else if isCr c || isLf c then .bad
      else .next .thirdWord
  | .thirdWord =>
      if isBlank c then .next .thirdWs
      else if isCr c then .next .cr
      else if isLf c then .next .lf
      else .next .thirdWord
  | .thirdWs =>
      if isBlank c then .next .thirdWs
      else if isCr c then .next .cr
      else if isLf c then .next .lf
      else .bad
  | .lf =>
      if isCr c then .next .cr
      else if isLf c then .done
      else .next .line
  | .cr =>
      if isLf c then .next .crlf
      else if isCr c then .done
      else .next .line
  | .crlf =>
      if isCr c then .next .crlfcr
      else if isLf c then .done
      else .next .line
  | .line =>
      if isCr c then .next .cr
      else if isLf c then .next .lf
      else .next .line
  | .crlfcr =>
      if isCr c || isLf c then .done
      else .next .line
  | .gotRequest => .stop .noRequest false .gotRequest
  | .bogus => .stop .noRequest false .bogus

/-- The loop, over the bytes from index `idx` on. -/
def gotRequestFrom : Bytes → Nat → ParseState → GotRequest × Nat × ParseState
  | [], idx, state => (.noRequest, idx, state)
  | c :: rest, idx, state =>
      match parseByte state c with
      | .next state' => gotRequestFrom rest (idx + 1) state'
      | .stop verdict consumed state' => (verdict, if consumed then idx + 1 else idx, state')

def gotRequest (readBuf : Bytes) (checkedIdx : Nat) (state : ParseState) :
    GotRequest × Nat × ParseState :=
  gotRequestFrom (readBuf.drop checkedIdx) checkedIdx state

/-- The method is the first word of the request line. -/
def parseMethod (readBuf : Bytes) (stop : Nat) : Method :=
  Method.parse (fromUtf8Lossy ((readBuf.take stop).takeWhile fun b => b != 32 && b != 9))

end Thttpd
