/-
The loops of the normalizers: `rust/crates/thttpd-migrate/src/diff.rs`.

The code moves a byte index and takes `value[i..]` at each turn, which panics within a
character.  Here the loops are as they stand in the code, and `none` is such a panic or a loop
that has had all its turns.
-/
import Thttpd.Lib.Walk
import Thttpd.Migrate.Diff

namespace Thttpd.Migrate.Bytewise

open Text

/-- Go on to the end of a run, and write something for what was passed. -/
def passRun (p : UInt8 → Bool) (fuel : Nat) (value : Str) (i : Nat) (out new : Str) :
    Option (Nat × Str) :=
  (skipWhile p (asBytes value) fuel i).map fun i => (i, out ++ new)

def pathsTurn (fuel : Nat) (value : Str) (i : Nat) (out : Str) : Option (Nat × Str) :=
  (strFrom value i).bind fun rest =>
    let matchedLen :=
      if golden.isPrefixOf rest then some (byteLen golden)
      else if diff.isPrefixOf rest then some (byteLen diff)
      else none
    match matchedLen with
    | some plen =>
        passRun (fun b => isIdentifier (byteChar b)) fuel value (i + plen) out
          "/tmp/thttpd_NORMALIZED".toList
    | none =>
        if pytest.isPrefixOf rest then
          passRun (fun b => !(byteChar b == '/' || isAsciiWhitespace (byteChar b))) fuel value
            (i + byteLen pytest) out "/tmp/pytest_NORMALIZED".toList
        else copyChar rest i out

def normalizePaths (fuel : Nat) (value : Str) : Option Str :=
  walk (pathsTurn fuel value) (byteLen value) fuel 0 []

/-- `str::find`. -/
def find (needle s : Str) : Option Nat := (before needle s).map byteLen

/-- The head of a pattern is cut off at the byte where the tail was found. -/
def splitPattern (pattern : Str) : Option (Option (Str × TailClass)) :=
  match find "\\d+".toList pattern with
  | some idx => (strTo pattern idx).map fun head => some (head, .digit)
  | none =>
      match find ".*".toList pattern with
      | some idx => (strTo pattern idx).map fun head => some (head, .any)
      | none =>
          match find "[^\\n]*".toList pattern with
          | some idx => (strTo pattern idx).map fun head => some (head, .nonl)
          | none => some none

/-- A `\d+` that found no digit is no match. -/
def regexTurn (fuel : Nat) (haystack head : Str) (tail : TailClass) (replacement : Str) (i : Nat)
    (out : Str) : Option (Nat × Str) :=
  (strFrom haystack i).bind fun rest =>
    if head.isPrefixOf rest then
      (skipWhile (fun b => tail.accepts (byteChar b)) (asBytes haystack) fuel (i + byteLen head)).bind
        fun j =>
          if tail = .digit ∧ j = i + byteLen head then copyChar rest i out
          else some (j, out ++ replacement)
    else copyChar rest i out

def regexReplace (fuel : Nat) (haystack pattern replacement : Str) : Option Str :=
  (splitPattern pattern).bind fun split =>
    match split with
    | some (head, tail) =>
        walk (regexTurn fuel haystack (unescapeRegexLiteral head) tail replacement) (byteLen haystack)
          fuel 0 []
    | none => some (replace pattern replacement haystack)

def normalizeCgiOutput (fuel : Nat) (value : Str) : Option Str :=
  (regexReplace fuel value "SERVER_PORT=\\d+".toList "SERVER_PORT=PORT".toList).bind fun value =>
  (regexReplace fuel value "HTTP_HOST=127\\.0\\.0\\.1:\\d+".toList
    "HTTP_HOST=127.0.0.1:PORT".toList).bind fun value =>
  (regexReplace fuel value "Host: 127\\.0\\.0\\.1:\\d+".toList
    "Host: 127.0.0.1:PORT".toList).bind fun value =>
  regexReplace fuel value "Host=127\\.0\\.0\\.1:\\d+".toList "Host=127.0.0.1:PORT".toList

def normalizePwd (fuel : Nat) (value : Str) : Option Str :=
  regexReplace fuel value "PWD=/[^\n]*".toList "PWD=NORMALIZED".toList

def normalizeValue (fuel : Nat) (value : Str) : Option Str :=
  ((normalizePaths fuel value).bind (normalizeCgiOutput fuel)).bind (normalizePwd fuel)

end Thttpd.Migrate.Bytewise
