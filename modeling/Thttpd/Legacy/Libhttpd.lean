/-
The parts of the server this one is a port of that it has to agree with:
`httpd_got_request`, `bufgets` and `strdecode` in `legacy/src/libhttpd.c`.

The C function keeps its place in the connection: `checked_idx` stays at the byte
that ended the scan, and a complete request leaves `checked_state` as it was.
-/
import Thttpd.Http.Conn

namespace Thttpd.Legacy

open Text

/-- The values of `checked_state`. -/
inductive CheckedState where
  | firstWord
  | firstWs
  | secondWord
  | secondWs
  | thirdWord
  | thirdWs
  | line
  | lf
  | cr
  | crlf
  | crlfcr
  | bogus
  deriving DecidableEq, Repr

/-- One turn of the `switch`: the state it leaves, and the value returned if it returns. -/
def checkByte (state : CheckedState) (c : UInt8) : CheckedState × Option GotRequest :=
  match state with
  | .firstWord =>
      if c = 32 ∨ c = 9 then (.firstWs, none)
      else if c = 10 ∨ c = 13 then (.bogus, some .badRequest)
      else (.firstWord, none)
  | .firstWs =>
      if c = 32 ∨ c = 9 then (.firstWs, none)
      else if c = 10 ∨ c = 13 then (.bogus, some .badRequest)
      else (.secondWord, none)
  | .secondWord =>
      if c = 32 ∨ c = 9 then (.secondWs, none)
      else if c = 10 ∨ c = 13 then (.secondWord, some .gotRequest)
      else (.secondWord, none)
  | .secondWs =>
      if c = 32 ∨ c = 9 then (.secondWs, none)
      else if c = 10 ∨ c = 13 then (.bogus, some .badRequest)
      else (.thirdWord, none)
  | .thirdWord =>
      if c = 32 ∨ c = 9 then (.thirdWs, none)
      else if c = 10 then (.lf, none)
      else if c = 13 then (.cr, none)
      else (.thirdWord, none)
  | .thirdWs =>
      if c = 32 ∨ c = 9 then (.thirdWs, none)
      else if c = 10 then (.lf, none)
      else if c = 13 then (.cr, none)
      else (.bogus, some .badRequest)
  | .line =>
      if c = 10 then (.lf, none)
      else if c = 13 then (.cr, none)
      else (.line, none)
  | .lf =>
      if c = 10 then (.lf, some .gotRequest)
      else if c = 13 then (.cr, none)
      else (.line, none)
  | .cr =>
      if c = 10 then (.crlf, none)
      else if c = 13 then (.cr, some .gotRequest)
      else (.line, none)
  | .crlf =>
      if c = 10 then (.crlf, some .gotRequest)
      else if c = 13 then (.crlfcr, none)
      else (.line, none)
  | .crlfcr =>
      if c = 10 ∨ c = 13 then (.crlfcr, some .gotRequest)
      else (.line, none)
  | .bogus => (.bogus, some .badRequest)

/-- The loop, over the bytes from index `idx` on. -/
def httpdGotRequestFrom : Bytes → Nat → CheckedState → GotRequest × Nat × CheckedState
  | [], idx, state => (.noRequest, idx, state)
  | c :: rest, idx, state =>
      match checkByte state c with
      | (state', some verdict) => (verdict, idx, state')
      | (state', none) => httpdGotRequestFrom rest (idx + 1) state'

def httpdGotRequest (readBuf : Bytes) (checkedIdx : Nat) (state : CheckedState) :
    GotRequest × Nat × CheckedState :=
  httpdGotRequestFrom (readBuf.drop checkedIdx) checkedIdx state

/-- The next line of the bytes from `checked_idx` on, and what follows its end. -/
def bufgets : Bytes → Option (Bytes × Bytes)
  | [] => none
  | c :: rest =>
      if c = 10 ∨ c = 13 then
        if c = 13 ∧ rest.head? = some 10 then some ([], rest.tail) else some ([], rest)
      else (bufgets rest).map fun (line, rest') => (c :: line, rest')

/-- `isxdigit`, for the bytes of a string. -/
def isxdigit (c : UInt8) : Bool :=
  (48 ≤ c && c ≤ 57) || (97 ≤ c && c ≤ 102) || (65 ≤ c && c ≤ 70)

/-- The value of a hexadecimal digit. -/
def hexit (c : UInt8) : UInt8 :=
  if 48 ≤ c && c ≤ 57 then c - 48
  else if 97 ≤ c && c ≤ 102 then c - 97 + 10
  else if 65 ≤ c && c ≤ 70 then c - 65 + 10
  else 0

/-- The bytes `strdecode` copies, up to the one that ends the string. -/
def strdecode : Bytes → Bytes
  | [] => []
  | c :: x :: y :: from_ =>
      if c = 37 ∧ isxdigit x ∧ isxdigit y then (hexit x * 16 + hexit y) :: strdecode from_
      else c :: strdecode (x :: y :: from_)
  | c :: from_ => c :: strdecode from_

end Thttpd.Legacy
