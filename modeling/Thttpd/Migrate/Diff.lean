/-
Response diffing for shadow mode: `rust/crates/thttpd-migrate/src/diff.rs`.

The normalizers walk a string by character.  Where the code moves a byte index they
count the characters to pass over; the loops with the index are in `DiffLoops`, and
do the same.  A `BTreeMap` is the list of its entries in key order.
-/
import Thttpd.Migrate.Forwarder
import Mathlib.Data.List.Sort
import Mathlib.Data.List.Lex
import Mathlib.Data.Char

namespace Thttpd.Migrate

open Text

inductive Field where
  | status
  | headers
  | body
  | contentLength
  | connectionLifecycle
  deriving DecidableEq, Repr

structure Divergence where
  field : Field
  expected : Str
  actual : Str
  path : Str
  method : Str
  truncated : Bool
  deriving DecidableEq, Repr

/-- What the diff needs to know of the inbound request. -/
structure RequestContext where
  path : Str
  method : Str
  requestId : Str
  deriving DecidableEq, Repr

def Divergence.new (field : Field) (expected actual : Str) (ctx : RequestContext) : Divergence :=
  ⟨field, expected, actual, ctx.path, ctx.method, false⟩

/-! ### Normalizers

Each takes a text once from its beginning to its end.  A match is replaced and passed
over, and everything else is copied.
-/

/-- The characters `from..until` of a text satisfy a test. -/
def allAt (s : Str) (start stop : Nat) (p : Char → Bool) : Bool :=
  ((s.take stop).drop start).all p

/-- RFC 1123 timestamp: 29 bytes with the delimiters and the digits in their places. -/
def isTimestamp (value : Str) : Bool :=
  let b := fun i => value.getD i '\x00'
  byteLen value == 29 && value.length == 29
    && b 3 == ',' && b 4 == ' ' && b 7 == ' ' && b 11 == ' ' && b 16 == ' ' && b 25 == ' '
    && b 19 == ':' && b 22 == ':' && (value.drop 26).take 3 == "GMT".toList
    && allAt value 5 7 Char.isDigit && allAt value 12 16 Char.isDigit
    && allAt value 17 19 Char.isDigit && allAt value 20 22 Char.isDigit
    && allAt value 23 25 Char.isDigit
    && (b 0).isUpper && allAt value 1 3 Char.isLower
    && (b 8).isUpper && (b 9).isLower && (b 10).isLower

def timestampHeaders : List Str := ["date".toList, "last-modified".toList]

/-- `u8::is_ascii_whitespace`. -/
def isAsciiWhitespace (c : Char) : Bool :=
  c == ' ' || c == '\t' || c == '\n' || c == '\x0C' || c == '\r'

/-- How many characters at the head satisfy a test. -/
def runLength (p : Char → Bool) (s : Str) : Nat := (s.takeWhile p).length

/-- How the names of temporary directories begin. -/
def golden : Str := "/tmp/thttpd_golden_".toList
def diff : Str := "/tmp/thttpd_diff_".toList
def pytest : Str := "/tmp/pytest-".toList

def isIdentifier (c : Char) : Bool := c.isAlphanum || c == '_'

/-- `skip` characters belong to a match that has been replaced. -/
def normalizePathsFrom : Nat → Str → Str
  | _, [] => []
  | skip + 1, _ :: cs => normalizePathsFrom skip cs
  | 0, c :: cs =>
      let s := c :: cs
      if golden.isPrefixOf s then
        "/tmp/thttpd_NORMALIZED".toList ++
          normalizePathsFrom (golden.length + runLength isIdentifier (s.drop golden.length) - 1) cs
      else if diff.isPrefixOf s then
        "/tmp/thttpd_NORMALIZED".toList ++
          normalizePathsFrom (diff.length + runLength isIdentifier (s.drop diff.length) - 1) cs
      else if pytest.isPrefixOf s then
        "/tmp/pytest_NORMALIZED".toList ++
          normalizePathsFrom (pytest.length +
            runLength (fun c => !(c == '/' || isAsciiWhitespace c)) (s.drop pytest.length) - 1) cs
      else c :: normalizePathsFrom 0 cs

/-- Replace temporary directories with a placeholder. -/
def normalizePaths (value : Str) : Str := normalizePathsFrom 0 value

/-- The class of characters a pattern ends in. -/
inductive TailClass where
  | digit
  | any
  | nonl
  deriving DecidableEq, Repr

def TailClass.accepts : TailClass → Char → Bool
  | .digit, c => c.isDigit
  | .any, _ => true
  | .nonl, c => c != '\n'

/-- The text before the first occurrence of a needle. -/
def before (needle : Str) : Str → Option Str
  | [] => if needle.isEmpty then some [] else none
  | c :: cs => if needle.isPrefixOf (c :: cs) then some [] else (before needle cs).map (c :: ·)

/-- The head of a pattern and the class of its tail; `none` is a plain literal. -/
def splitPattern (pattern : Str) : Option (Str × TailClass) :=
  match before "\\d+".toList pattern with
  | some head => some (head, .digit)
  | none =>
      match before ".*".toList pattern with
      | some head => some (head, .any)
      | none =>
          match before "[^\\n]*".toList pattern with
          | some head => some (head, .nonl)
          | none => none

def unescapeRegexLiteral (s : Str) : Str := replace "\\.".toList ".".toList s

/-- Walk the text; a `\d+` needs at least one digit. -/
def regexReplaceFrom (head : Str) (tail : TailClass) (replacement : Str) : Nat → Str → Str
  | _, [] => []
  | skip + 1, _ :: cs => regexReplaceFrom head tail replacement skip cs
  | 0, c :: cs =>
      let s := c :: cs
      if head.isPrefixOf s then
        let run := runLength tail.accepts (s.drop head.length)
        if tail = .digit ∧ run = 0 then c :: regexReplaceFrom head tail replacement 0 cs
        else
          replacement ++ regexReplaceFrom head tail replacement (head.length + run - 1) cs
      else c :: regexReplaceFrom head tail replacement 0 cs

/-- Literal-prefix replacement for the fixed patterns below. -/
def regexReplace (haystack pattern replacement : Str) : Str :=
  match splitPattern pattern with
  | some (head, tail) => regexReplaceFrom (unescapeRegexLiteral head) tail replacement 0 haystack
  | none => replace pattern replacement haystack

def normalizeCgiOutput (value : Str) : Str :=
  let value := regexReplace value "SERVER_PORT=\\d+".toList "SERVER_PORT=PORT".toList
  let value := regexReplace value "HTTP_HOST=127\\.0\\.0\\.1:\\d+".toList
    "HTTP_HOST=127.0.0.1:PORT".toList
  let value := regexReplace value "Host: 127\\.0\\.0\\.1:\\d+".toList
    "Host: 127.0.0.1:PORT".toList
  regexReplace value "Host=127\\.0\\.0\\.1:\\d+".toList "Host=127.0.0.1:PORT".toList

/-- The pattern holds a line feed and not an escape. -/
def normalizePwd (value : Str) : Str :=
  regexReplace value "PWD=/[^\n]*".toList "PWD=NORMALIZED".toList

def normalizeValue (value : Str) : Str := normalizePwd (normalizeCgiOutput (normalizePaths value))

def normalizeHeaderValue (name value : Str) : Str :=
  if timestampHeaders.contains name && isTimestamp value then "<timestamp>".toList
  else normalizeValue value

def bytesToLatin1 (bytes : Bytes) : Str := bytes.map fun b => Char.ofNat b.toNat

/-- The low byte of each character. -/
def latin1ToBytes (s : Str) : Bytes := s.map fun c => UInt8.ofNat c.toNat

def normalizeBodyBytes (body : Bytes) : Bytes :=
  latin1ToBytes (normalizePwd (normalizeCgiOutput (normalizePaths (bytesToLatin1 body))))

/-- Two hexadecimal digits for each byte. -/
def hexEncode (bytes : Bytes) : Str :=
  bytes.flatMap fun b =>
    [Nat.digitChar (b.toNat / 16), Nat.digitChar (b.toNat % 16)]

def sha256Hex (k : Crates) (data : Bytes) : Str := hexEncode (k.sha256 data)

/-! ### Headers

Names are compared in lower case and values normalized by name; the values of a name
are sorted, so their order plays no part.
-/

/-- The order of strings. -/
def sort (l : List Str) : List Str := l.insertionSort (· ≤ ·)

/-- The keys of a map or a set, in order. -/
def sortedKeys (names : List Str) : List Str := sort names.dedup

/-- The normalized values of one header, in order. -/
def valuesOf (headers : List (Str × Str)) (key : Str) : List Str :=
  sort ((headers.filter fun h => asciiLower h.1 = key).map fun h => normalizeHeaderValue key h.2)

def groupedNormalizedHeaders (headers : List (Str × Str)) : List (Str × List Str) :=
  (sortedKeys (headers.map fun h => asciiLower h.1)).map fun key => (key, valuesOf headers key)

/-- The headers on which two responses differ. -/
def normalizeHeaderValues (expected actual : List (Str × Str)) :
    List (Str × Option (List Str) × Option (List Str)) :=
  let exp := groupedNormalizedHeaders expected
  let act := groupedNormalizedHeaders actual
  (sortedKeys (exp.map Prod.fst ++ act.map Prod.fst)).filterMap fun key =>
    match exp.lookup key, act.lookup key with
    | some e, some a => if e ≠ a then some (key, some e, some a) else none
    | e, a => some (key, e, a)

/-- The names joined as a log line shows them. -/
def joinNames (names : List Str) : Str := List.intercalate ", ".toList names

/-! ### The comparison

Status, headers and body in turn, with a divergence for each difference.
-/

def diffStatus (primary shadow : Nat) (ctx : RequestContext) : List Divergence :=
  if primary ≠ shadow then [.new .status (natStr primary) (natStr shadow) ctx] else []

def diffTruncation (primary shadow : Bool) (ctx : RequestContext) : List Divergence :=
  if primary || shadow then
    [{ Divergence.new .body "full body".toList "truncated at cap".toList ctx with
        truncated := true }]
  else []

def diffHeaders (primary shadow : List (Str × Str)) (ctx : RequestContext) : List Divergence :=
  let mismatches := normalizeHeaderValues primary shadow
  if mismatches ≠ [] then
    [.new .headers "matching normalized headers".toList (joinNames (mismatches.map Prod.fst)) ctx]
  else []

def diffBody (k : Crates) (primary shadow : Bytes) (truncated : Bool) (ctx : RequestContext) :
    List Divergence :=
  let expHash := sha256Hex k (normalizeBodyBytes primary)
  let actHash := sha256Hex k (normalizeBodyBytes shadow)
  if truncated = false ∧ expHash ≠ actHash then [.new .body expHash actHash ctx] else []

/-- A response as the comparison sees it. -/
structure Captured where
  status : Nat
  headers : List (Str × Str)
  body : Bytes
  truncated : Bool
  deriving DecidableEq, Repr

def diffResponses (k : Crates) (primary shadow : Captured) (ctx : RequestContext) :
    List Divergence :=
  diffStatus primary.status shadow.status ctx ++
    diffTruncation primary.truncated shadow.truncated ctx ++
    diffHeaders primary.headers shadow.headers ctx ++
    diffBody k primary.body shadow.body (primary.truncated || shadow.truncated) ctx

end Thttpd.Migrate
