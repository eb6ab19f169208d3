/-
The pattern matcher this server's is a port of: `legacy/src/match.c`.

A C string is the bytes of a buffer before the first NUL.  The pattern of `match_one` is
given with its length, and the byte after it is a `|` or the NUL, so a star at its end is
never taken for the first half of a double one.
-/
import Thttpd.Lib.Text
import Thttpd.Lib.Glob

namespace Thttpd.Legacy

open Text

/-- The string a buffer holds. -/
def cString (buffer : Bytes) : Bytes := buffer.takeWhile (· != 0)

/-- `strcspn(string, "/")`. -/
def untilSlash (string : Bytes) : Nat := (string.takeWhile (· != 47)).length

def matchOne : Bytes → Bytes → Bool
  | [], string => string.isEmpty
  | 42 :: 42 :: p, string => Glob.tryDown (matchOne p) string string.length
  | 42 :: p, string => Glob.tryDown (matchOne p) string (untilSlash string)
  | _ :: _, [] => false
  | c :: p, b :: string => if c = 63 ∨ c = b then matchOne p string else false

theorem matchOne_cons {p f : Bytes} {c b : UInt8} (hc : c ≠ 42) :
    matchOne (c :: p) (b :: f) = if c = 63 ∨ c = b then matchOne p f else false := by
  rw [matchOne]
  all_goals simp_all

/-- `match`: each alternative is tried, up to the first that matches. -/
def match_ (pattern string : Bytes) : Bool :=
  ((cString pattern).splitOn 124).any fun alternative => matchOne alternative (cString string)

end Thttpd.Legacy
