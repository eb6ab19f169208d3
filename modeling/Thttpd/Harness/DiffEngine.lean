/-
The normalizers of the test harness: `harness/diff_engine.py`.

Texts are Latin-1 here, as `normalize_body_bytes` decodes them.  Of such a text the
characters that `\s` and `\d` match are those below.
-/
import Thttpd.Lib.Regex

namespace Thttpd.Harness

open Text Regex

/-- `\s`. -/
def isSpace (c : Char) : Bool :=
  c == ' ' || ('\t' ≤ c && c ≤ '\r') || ('\x1C' ≤ c && c ≤ '\x1F') || c == '\x85' || c == '\xA0'

/-- `\d`. -/
def isDigit (c : Char) : Bool := '0' ≤ c && c ≤ '9'

/-- `[a-zA-Z0-9_]`. -/
def isWord (c : Char) : Bool :=
  ('a' ≤ c && c ≤ 'z') || ('A' ≤ c && c ≤ 'Z') || ('0' ≤ c && c ≤ '9') || c == '_'

/-- `.`. -/
def isDot (c : Char) : Bool := c != '\n'

/-- `/tmp/thttpd_(?:golden|diff)_[a-zA-Z0-9_]+`. -/
def tempDirRe : Pattern where
  head := "/tmp/thttpd_".toList
  tail := .seq (.alt (.lit "golden".toList) (.lit "diff".toList)) (.seq (.lit "_".toList) (.plus isWord))
  head_ne := by decide

/-- `/tmp/pytest-.*?(?=[/\s]|$)`. -/
def pytestTempDirRe : Pattern where
  head := "/tmp/pytest-".toList
  tail := .seq (.few isDot) (.ahead (.alt (.cls fun c => c == '/' || isSpace c) .eol))
  head_ne := by decide

def normalizePaths (value : Str) : Str :=
  let value := tempDirRe.sub "/tmp/thttpd_NORMALIZED".toList value
  pytestTempDirRe.sub "/tmp/pytest_NORMALIZED".toList value

/-- A literal text and `\d+`. -/
def portRe (head : Str) (h : head ≠ []) : Pattern := ⟨head, .plus isDigit, h⟩

def normalizeCgiOutput (value : Str) : Str :=
  let value := (portRe "SERVER_PORT=".toList (by decide)).sub "SERVER_PORT=PORT".toList value
  let value := (portRe "HTTP_HOST=127.0.0.1:".toList (by decide)).sub
    "HTTP_HOST=127.0.0.1:PORT".toList value
  let value := (portRe "Host: 127.0.0.1:".toList (by decide)).sub "Host: 127.0.0.1:PORT".toList value
  (portRe "Host=127.0.0.1:".toList (by decide)).sub "Host=127.0.0.1:PORT".toList value

/-- `PWD=/[^\n]+`. -/
def pwdRe : Pattern := ⟨"PWD=/".toList, .plus fun c => c != '\n', by decide⟩

def normalizePwd (value : Str) : Str := pwdRe.sub "PWD=NORMALIZED".toList value

def normalizeBody (value : Str) : Str := normalizePwd (normalizeCgiOutput (normalizePaths value))

/-- `decode("latin-1")`. -/
def decodeLatin1 (bytes : Bytes) : Str := bytes.map byteChar

/-- `encode("latin-1")`, which raises for a character of another set. -/
def encodeLatin1 (s : Str) : Option Bytes :=
  if s.all fun c => c.toNat < 256 then some (s.map fun c => UInt8.ofNat c.toNat) else none

/-- The normalized body; `none` is an exception. -/
def normalizeBodyBytes (value : Bytes) : Option Bytes := encodeLatin1 (normalizeBody (decodeLatin1 value))

end Thttpd.Harness
