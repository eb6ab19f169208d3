/-
The path check of the C server: `de_dotdot` and what `httpd_parse_request` does around it,
in `legacy/src/libhttpd.c`.

The file name is rewritten in place, one occurrence after the other.  Every turn of a loop
takes bytes out, so its length bounds the turns.
-/
import Thttpd.Legacy.Match

namespace Thttpd.Legacy

open Text

/-- "Collapse any multiple / sequences." -/
def collapseSlashes : Nat → Bytes → Bytes
  | 0, file => file
  | fuel + 1, file =>
      match findBytes [47, 47] file with
      | some cp =>
          collapseSlashes fuel (file.take (cp + 1) ++ (file.drop (cp + 2)).dropWhile (· == 47))
      | none => file

/-- "Remove leading ./": all of them. -/
def dropDotSlash : Bytes → Bytes
  | 46 :: 47 :: file => dropDotSlash file
  | file => file

/-- "and any /./ sequences". -/
def elideSlashDot : Nat → Bytes → Bytes
  | 0, file => file
  | fuel + 1, file =>
      match findBytes [47, 46, 47] file with
      | some cp => elideSlashDot fuel (file.take cp ++ file.drop (cp + 2))
      | none => file

/-- "Removing leading ../": all of them. -/
def dropDotDotSlash : Bytes → Bytes
  | 46 :: 46 :: 47 :: file => dropDotDotSlash file
  | file => file

/-- A file name up to its last slash. -/
def throughLastSlash (file : Bytes) : Bytes := file.rdropWhile (· != 47)

/-- "Alternate between removing leading ../ and removing xxx/../". -/
def elideDotDot : Nat → Bytes → Bytes
  | 0, file => file
  | fuel + 1, file =>
      let file := dropDotDotSlash file
      match findBytes [47, 46, 46, 47] file with
      | some cp => elideDotDot fuel (throughLastSlash (file.take cp) ++ file.drop (cp + 4))
      | none => file

/-- "Also elide any xxx/.. at the end", where a slash stands before the xxx. -/
def elideLastDotDot : Nat → Bytes → Bytes
  | 0, file => file
  | fuel + 1, file =>
      if 3 < file.length ∧ file.drop (file.length - 3) = [47, 46, 46] then
        match throughLastSlash (file.take (file.length - 3)) with
        | [] => file
        | c :: cs => elideLastDotDot fuel (c :: cs).dropLast
      else file

def deDotdot (file : Bytes) : Bytes :=
  let file := collapseSlashes file.length file
  let file := dropDotSlash file
  let file := elideSlashDot file.length file
  let file := elideDotDot file.length file
  elideLastDotDot file.length file

/-- The file name a decoded URL names: without its first slash, and `.` at the top level. -/
def origfilename (decodedurl : Bytes) : Bytes :=
  match (cString decodedurl).drop 1 with
  | [] => [46]
  | file => file

/-- Whether a cleaned file name is answered with a 400. -/
def leavesRoot : Bytes → Bool
  | 47 :: _ => true
  | [46, 46] => true
  | 46 :: 46 :: 47 :: _ => true
  | _ => false

/-- The cleaned file name of a decoded URL; `none` is a 400. -/
def cleanFilename (decodedurl : Bytes) : Option Bytes :=
  let file := deDotdot (origfilename decodedurl)
  if leavesRoot file then none else some file

example : cleanFilename (asBytes "/a/./b/../../../c/d/..".toList) = some (asBytes "c".toList) := by decide

example : cleanFilename (asBytes "/a/..".toList) = some (asBytes "a/..".toList) := by decide

end Thttpd.Legacy
