/-
Directory listings: `rust/crates/thttpd-http/src/dirlist.rs`.

What the directory holds is given as the list of its entries; how they are read is not
modelled.  A time is a number of seconds since the epoch.
-/
import Thttpd.Platform

namespace Thttpd

open Text

/-! ### Times -/

def isLeap (year : Nat) : Bool := (year % 4 == 0 && year % 100 != 0) || year % 400 == 0

/-- Whole years are taken off; each has a day, so `fuel` days are enough. -/
def yearOf : Nat → Nat → Nat → Nat × Nat
  | 0, days, year => (year, days)
  | fuel + 1, days, year =>
      let daysInYear := if isLeap year then 366 else 365
      if days < daysInYear then (year, days) else yearOf fuel (days - daysInYear) (year + 1)

def monthDays (leap : Bool) : List Nat :=
  [31, if leap then 29 else 28, 31, 30, 31, 30, 31, 31, 30, 31, 30, 31]

/-- The month a day of the year lies in, and the day of the month, both from zero. -/
def monthOf : List Nat → Nat → Nat → Nat × Nat
  | [], _, remaining => (11, remaining)
  | md :: rest, i, remaining =>
      if remaining < md then (i, remaining) else monthOf rest (i + 1) (remaining - md)

/-- Year, month and day, the last two from one. -/
def daysToYmd (days : Nat) : Nat × Nat × Nat :=
  let (year, days) := yearOf days days 1970
  let (month, day) := monthOf (monthDays (isLeap year)) 0 days
  (year, month + 1, day + 1)

def lsMonthNames : List String :=
  ["Jan", "Feb", "Mar", "Apr", "May", "Jun", "Jul", "Aug", "Sep", "Oct", "Nov", "Dec"]

/-- A time as `ls` prints it: with the year once it is half a year ago. -/
def formatLsTime (nowSecs secs : Nat) : Str :=
  let (year, month, day) := daysToYmd (secs / 86400)
  let time := secs % 86400
  let date := ((lsMonthNames[month - 1]?).getD "???").toList ++ ' ' :: (natStr day).leftpad 2 ' '
  if 60 * 60 * 24 * 182 < nowSecs - secs then date ++ "  ".toList ++ natStr year
  else
    date ++ ' ' :: (natStr (time / 3600)).leftpad 2 '0' ++
      ':' :: (natStr (time % 3600 / 60)).leftpad 2 '0'

/-! ### Names -/

/-- What a link leaves as it is. -/
def isUnreserved (b : UInt8) : Bool :=
  (65 ≤ b && b ≤ 90) || (97 ≤ b && b ≤ 122) || (48 ≤ b && b ≤ 57) ||
    b == 46 || b == 45 || b == 95 || b == 126

/-- An upper-case hexadecimal digit. -/
def hexDigit (n : UInt8) : Char := byteChar (if n < 10 then 48 + n else 55 + n)

def encodeByte (b : UInt8) : Str :=
  if isUnreserved b then [byteChar b] else ['%', hexDigit (b / 16), hexDigit (b % 16)]

def urlEncode (s : Str) : Str := (asBytes s).flatMap encodeByte

/-- The first eighty bytes, up to the last whole character. -/
def truncateTo80 (s : Str) : Str := takeBytes 80 s

/-! ### Entries -/

inductive FileKind where
  | dir
  | symlink
  | other
  deriving DecidableEq, Repr

/-- An entry of the directory, with what the two looks at it say. -/
structure DirEntry where
  name : Str
  /-- `symlink_metadata`: the kind, the mode bits, the links, the size and the time. -/
  kind : FileKind
  modeBits : Nat
  nlink : Nat
  ownLen : Nat
  mtime : Nat
  /-- `DirEntry::metadata`, which follows no links either: of a link this is what the link
  itself is, not what it leads to. -/
  isDir : Bool
  len : Nat
  /-- `read_link`. -/
  target : Option Str
  deriving DecidableEq, Repr

namespace DirEntry

def modeStr (e : DirEntry) : Str :=
  [match e.kind with | .dir => 'd' | .symlink => 'l' | .other => '-',
   if e.modeBits / 4 % 2 = 1 then 'r' else '-',
   if e.modeBits / 2 % 2 = 1 then 'w' else '-',
   if e.modeBits % 2 = 1 then 'x' else '-']

def size (e : DirEntry) : Nat := if e.isDir then e.ownLen else e.len

def fileClass (e : DirEntry) : Str :=
  if e.isDir then ['/']
  else if e.kind = .symlink then ['@']
  else if e.modeBits % 2 = 1 then ['*']
  else []

/-- Where a symbolic link leads. -/
def linkText (e : DirEntry) : Str :=
  if e.kind = .symlink then
    match e.target with
    | some target => " -&gt; ".toList ++ target
    | none => []
  else []

end DirEntry

/-- The URL of the directory with a slash at the end. -/
def urlPrefix (urlPath : Str) : Str :=
  if urlPath.getLast? = some '/' then urlPath else urlPath ++ ['/']

/-- The target of the link to an entry. -/
def listingHref (urlPath : Str) (e : DirEntry) : Str :=
  '/' :: urlPrefix urlPath ++ urlEncode e.name ++ if e.isDir then ['/'] else []

def listingLine (nowSecs : Nat) (urlPath : Str) (e : DirEntry) : Str :=
  e.modeStr ++ ' ' :: (natStr e.nlink).leftpad 3 ' ' ++ "  ".toList ++
    (natStr e.size).leftpad 10 ' ' ++ "  ".toList ++ formatLsTime nowSecs e.mtime ++
    "  <A HREF=\"".toList ++ listingHref urlPath e ++ "\">".toList ++ truncateTo80 e.name ++
    "</A>".toList ++ e.linkText ++ e.fileClass ++ ['\n']

/-- The order of the listing: names without letter case. -/
def listingOrder (pf : Platform) (a b : DirEntry) : Bool :=
  decide (asBytes (pf.toLowercase a.name) ≤ asBytes (pf.toLowercase b.name))

/-- The page for a directory with these entries. -/
def listingPage (pf : Platform) (nowSecs : Nat) (urlPath : Str) (entries : List DirEntry) : Str :=
  "<HTML>\n<HEAD><TITLE>Index of ".toList ++ urlPath ++
    "</TITLE></HEAD>\n<BODY BGCOLOR=\"#99cc99\" TEXT=\"#000000\" LINK=\"#2020ff\" VLINK=\"#4040cc\">\n<H2>Index of ".toList ++
    urlPath ++ "</H2>\n<PRE>\nmode  links  bytes  last-changed  name\n<HR>".toList ++
    (entries.mergeSort (listingOrder pf)).flatMap (listingLine nowSecs urlPath) ++
    "</PRE></BODY>\n</HTML>\n".toList

/-- `generate_listing`, once the entries have been read. -/
def generateListing (pf : Platform) (nowSecs : Nat) (urlPath : Str) (entries : List DirEntry) :
    Bytes :=
  asBytes (listingPage pf nowSecs urlPath entries)

/-- Every entry has its line. -/
theorem listingLine_shown (pf : Platform) (nowSecs : Nat) (urlPath : Str) {entries : List DirEntry}
    {e : DirEntry} (h : e ∈ entries) :
    listingLine nowSecs urlPath e <:+: listingPage pf nowSecs urlPath entries := by
  obtain ⟨before, after, hsplit⟩ := List.append_of_mem
    ((entries.mergeSort_perm (listingOrder pf)).mem_iff.mpr h)
  have hinside : ∀ top bottom : Str, listingLine nowSecs urlPath e <:+:
      top ++ (before.flatMap (listingLine nowSecs urlPath) ++
        (listingLine nowSecs urlPath e ++ after.flatMap (listingLine nowSecs urlPath))) ++ bottom := by
    intro top bottom
    refine ⟨top ++ before.flatMap (listingLine nowSecs urlPath),
      after.flatMap (listingLine nowSecs urlPath) ++ bottom, ?_⟩
    simp only [List.append_assoc]
  unfold listingPage
  rw [hsplit, List.flatMap_append, List.flatMap_cons]
  exact hinside _ _

/-- The line holds the link. -/
theorem listingHref_shown (nowSecs : Nat) (urlPath : Str) (e : DirEntry) :
    "<A HREF=\"".toList ++ listingHref urlPath e ++ "\">".toList <:+:
      listingLine nowSecs urlPath e := by
  refine ⟨e.modeStr ++ ' ' :: (natStr e.nlink).leftpad 3 ' ' ++ "  ".toList ++
    (natStr e.size).leftpad 10 ' ' ++ "  ".toList ++ formatLsTime nowSecs e.mtime ++ "  ".toList,
    truncateTo80 e.name ++ "</A>".toList ++ e.linkText ++ e.fileClass ++ ['\n'], ?_⟩
  have hsep : "  <A HREF=\"".toList = "  ".toList ++ "<A HREF=\"".toList := by decide
  unfold listingLine
  rw [hsep]
  simp only [List.append_assoc]

end Thttpd
