/-
URL decoding and path cleaning: `rust/crates/thttpd-http/src/url.rs`.
-/
import Thttpd.Lib.Text

namespace Thttpd

open Text

/-- The value of one hexadecimal digit. -/
def fromHex (b : UInt8) : Option UInt8 :=
  if 48 ≤ b && b ≤ 57 then some (b - 48)
  else if 97 ≤ b && b ≤ 102 then some (b - 97 + 10)
  else if 65 ≤ b && b ≤ 70 then some (b - 65 + 10)
  else none

/-- The byte two hexadecimal digits stand for. -/
def escapedByte : Bytes → Option UInt8
  | hi :: lo :: _ =>
      match fromHex hi, fromHex lo with
      | some h, some l => some (h * 16 + l)
      | _, _ => none
  | _ => none

/-- The decoding loop; the counter skips the digits of an escape just read. -/
def percentDecodeFrom : Nat → Bytes → Bytes
  | _, [] => []
  | k + 1, _ :: bs => percentDecodeFrom k bs
  | 0, b :: bs =>
      if b == 37 then
        match escapedByte bs with
        | some v => v :: percentDecodeFrom 2 bs
        | none => b :: percentDecodeFrom 0 bs
      else if b == 43 then 32 :: percentDecodeFrom 0 bs
      else b :: percentDecodeFrom 0 bs

def percentDecode (input : Str) : Str := fromUtf8Lossy (percentDecodeFrom 0 (asBytes input))

/-- One component of the path: `..` takes back the last one, and fails at the root. -/
def pushComponent (components : Option (List Str)) (part : Str) : Option (List Str) :=
  components.bind fun cs =>
    if part = [] ∨ part = ['.'] then some cs
    else if part = ['.', '.'] then (if cs = [] then none else some cs.dropLast)
    else some (cs ++ [part])

/-- The spelling of a cleaned path. -/
def joinComponents (cs : List Str) : Str := '/' :: ['/'].intercalate cs

def normalizePath (path : Str) : Option Str :=
  if containsStr ['/', '/'] path then none
  else ((path.splitOn '/').foldl pushComponent (some [])).map joinComponents

end Thttpd
