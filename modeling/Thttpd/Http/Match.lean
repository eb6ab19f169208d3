/-
Shell-style patterns: `rust/crates/thttpd-match/src/lib.rs`.

`*` stands for any run of bytes without a slash, `**` for any run at all, `?` for
one byte, and `|` separates alternatives.  The matcher works on bytes.
-/
import Thttpd.Lib.Text

namespace Thttpd

open Text

/-- The byte `/`. -/
def slashByte : UInt8 := 47

/-- Try `f` at every suffix, the whole list first. -/
def anySuffix (f : Bytes → Bool) : Bytes → Bool
  | [] => f []
  | b :: bs => f (b :: bs) || anySuffix f bs

/-- Try `f` at every suffix that is reached without stepping over a slash. -/
def anySuffixInName (f : Bytes → Bool) : Bytes → Bool
  | [] => f []
  | b :: bs => f (b :: bs) || (b != slashByte && anySuffixInName f bs)

def matchSingle : Bytes → Bytes → Bool
  | [], file => file.isEmpty
  | [42, 42], _ => true
  | 42 :: 42 :: p, file => anySuffix (matchSingle p) file
  | [42], file => !file.contains slashByte
  | 42 :: p, file => anySuffixInName (matchSingle p) file
  | 63 :: p, file =>
      match file with
      | [] => false
      | _ :: fs => matchSingle p fs
  | c :: p, file =>
      match file with
      | [] => false
      | b :: fs => c == b && matchSingle p fs

theorem matchSingle_one {p f : Bytes} {b : UInt8} :
    matchSingle (63 :: p) (b :: f) = matchSingle p f := by
  rw [matchSingle]

def matchPattern (pattern filename : Str) : Bool :=
  (pattern.splitOn '|').any fun sub => matchSingle (asBytes sub) (asBytes filename)

end Thttpd
