/-
One line of the throttle file in the C server: `read_throttlefile` in
`legacy/src/thttpd.c`.

A conversion of `sscanf` takes the bytes that fit it and leaves the rest, so what follows
the last conversion of a format is not looked at.  A number that is no `long` has no
meaning in C; here it is kept, and such a rule counts as none.
-/
import Thttpd.Legacy.Match

namespace Thttpd.Legacy

open Text

/-- `isspace`, in the C locale. -/
def isspace (c : UInt8) : Bool := c == 32 || (9 ≤ c && c ≤ 13)

/-- `isdigit`. -/
def isdigit (c : UInt8) : Bool := 48 ≤ c && c ≤ 57

/-- A blank in a format: any white space, or none. -/
def scanSpace (s : Bytes) : Bytes := s.dropWhile isspace

/-- `%4900[^ \t]`. -/
def scanWord (s : Bytes) : Option (Bytes × Bytes) :=
  let word := (s.takeWhile fun c => c != 32 && c != 9).take 4900
  if word = [] then none else some (word, s.drop word.length)

/-- The digits of a number. -/
def scanDigits (s : Bytes) : Option (Nat × Bytes) :=
  (parseDigits ((s.takeWhile isdigit).map byteChar)).map fun n => (n, s.dropWhile isdigit)

/-- `%ld`: white space, a sign, and digits. -/
def scanLong (s : Bytes) : Option (Int × Bytes) :=
  match scanSpace s with
  | 45 :: s => (scanDigits s).map fun (n, s) => (-(n : Int), s)
  | 43 :: s => (scanDigits s).map fun (n, s) => ((n : Int), s)
  | s => (scanDigits s).map fun (n, s) => ((n : Int), s)

/-- A byte of the format that has to be there. -/
def scanByte (c : UInt8) : Bytes → Option Bytes
  | [] => none
  | b :: s => if b = c then some s else none

/-- `" %4900[^ \t] %ld-%ld"`, when it converts all three. -/
def scanMinMax (s : Bytes) : Option (Bytes × Int × Int) := do
  let (pattern, s) ← scanWord (scanSpace s)
  let (minLimit, s) ← scanLong (scanSpace s)
  let s ← scanByte 45 s
  let (maxLimit, _) ← scanLong s
  pure (pattern, minLimit, maxLimit)

/-- `" %4900[^ \t] %ld"`, when it converts both. -/
def scanMax (s : Bytes) : Option (Bytes × Int × Int) := do
  let (pattern, s) ← scanWord (scanSpace s)
  let (maxLimit, _) ← scanLong (scanSpace s)
  pure (pattern, 0, maxLimit)

/-- "Nuke any leading slashes in pattern": one of them. -/
def dropSlash : Bytes → Bytes
  | 47 :: s => s
  | s => s

/-- While there is a `|/`, its slash is taken out. -/
def nukeBarSlash : Nat → Bytes → Bytes
  | 0, pattern => pattern
  | fuel + 1, pattern =>
      match findBytes [124, 47] pattern with
      | some cp => nukeBarSlash fuel (pattern.take (cp + 1) ++ pattern.drop (cp + 2))
      | none => pattern

/-- The pattern that is stored; every turn of the loop takes a byte out. -/
def storedPattern (pattern : Bytes) : Bytes :=
  nukeBarSlash (dropSlash pattern).length (dropSlash pattern)

/-- Pattern, minimum and maximum of the rule in a line. -/
def readThrottleLine (buf : Bytes) : Option (Bytes × Int × Int) :=
  let s := cString buf
  ((scanMinMax s).orElse fun _ => scanMax s).map fun (pattern, limits) =>
    (storedPattern pattern, limits)

/--
The same for a line that makes a usable rule: both limits are `long`, and something
is left of the pattern.
-/
def throttleRule (buf : Bytes) : Option (Bytes × Int × Int) :=
  (readThrottleLine buf).filter fun (pattern, minLimit, maxLimit) =>
    pattern ≠ [] ∧ (i64Min ≤ minLimit ∧ minLimit ≤ i64Max) ∧ i64Min ≤ maxLimit ∧ maxLimit ≤ i64Max

example : throttleRule (asBytes " //a|//b 5- 10x".toList) = some (asBytes "/a|b".toList, 5, 10) := by
  decide

end Thttpd.Legacy
