/-
Content types by file name: `rust/crates/thttpd-mime/src/types.rs`.

The extension is looked up as it is spelled; the source compares with the literal
patterns of a match.  The pairs of `mimeTable` are the arms of `lookup_type` in their
order, and `walkExtensions` is the loop over the parts of the name between dots,
from the last one back; the part before the first dot is no extension.
-/
import Thttpd.Lib.Fs

namespace Thttpd

open Text Fs

structure MimeInfo where
  mimeType : Str
  encoding : Option Str
  deriving DecidableEq, Repr

def lookupEncoding (ext : Str) : Option Str :=
  if ext = "gz".toList then some "gzip".toList
  else if ext = "bz2".toList then some "x-bzip2".toList
  else if ext = "Z".toList then some "compress".toList
  else none

/-- The extension table, in the source's order. -/
def mimeTable : List (String × String) :=
  [("html", "text/html"), ("htm", "text/html"), ("css", "text/css"),
   ("js", "application/javascript"), ("txt", "text/plain"), ("json", "application/json"),
   ("xml", "application/xml"), ("png", "image/png"), ("jpg", "image/jpeg"),
   ("jpeg", "image/jpeg"), ("gif", "image/gif"), ("svg", "image/svg+xml"),
   ("ico", "image/x-icon"), ("pdf", "application/pdf"), ("zip", "application/zip"),
   ("tar", "application/x-tar"), ("mp3", "audio/mpeg"), ("mp4", "video/mp4"),
   ("webm", "video/webm"), ("wav", "audio/wav"), ("ogg", "audio/ogg"),
   ("doc", "application/msword"), ("xls", "application/vnd.ms-excel"),
   ("ppt", "application/vnd.ms-powerpoint"), ("swf", "application/x-shockwave-flash"),
   ("wasm", "application/wasm")]

def lookupType (ext : Str) : Option Str :=
  (mimeTable.find? fun row => row.1.toList = ext).map fun row => row.2.toList

/-- Walk the extensions from the right, gathering encodings up to the first type. -/
def walkExtensions : List Str → List Str → Str × List Str
  | [], encodings => ("application/octet-stream".toList, encodings)
  | ext :: rest, encodings =>
      let encodings := match lookupEncoding ext with
        | some enc => encodings ++ [enc]
        | none => encodings
      match lookupType ext with
      | some t => (t, encodings)
      | none => walkExtensions rest encodings

def figureMime (file : Path) : MimeInfo :=
  match file.fileName with
  | none => ⟨"application/octet-stream".toList, none⟩
  | some name =>
      -- What stands before the first dot is the name and no extension.
      let (mimeType, encodings) := walkExtensions (name.splitOn '.').tail.reverse []
      ⟨mimeType, if encodings = [] then none else some ([','].intercalate encodings)⟩

end Thttpd
