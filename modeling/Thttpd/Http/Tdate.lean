/-
HTTP dates: `rust/crates/thttpd-tdate/src/lib.rs`.

A year is an `i32`, a month and a day are `u32`, and a timestamp is an `i64`, so
division rounds towards zero.  Counting up can leave the type for timestamps far
enough from the epoch: a build with overflow checks aborts there, any other wraps
around.
-/
import Thttpd.Platform

namespace Thttpd

open Text

def isLeapYear (y : Int) : Bool :=
  (y.tmod 4 == 0 && y.tmod 100 != 0) || y.tmod 400 == 0

def daysInYear (y : Int) : Nat := if isLeapYear y then 366 else 365

def daysInMonth (m : Nat) (y : Int) : Nat :=
  match m with
  | 0 | 2 | 4 | 6 | 7 | 9 | 11 => 31
  | 3 | 5 | 8 | 10 => 30
  | 1 => if isLeapYear y then 29 else 28
  | _ => 0

def secsPerDay : Int := 86400

/-- `x` is the exact result of an operation on `i32`. -/
def checkedI32 (checks : Bool) (x : Int) : Except Panic Int :=
  if -2147483648 ≤ x ∧ x ≤ 2147483647 then .ok x
  else if checks then .error .overflow
  else .ok (x.bmod 4294967296)

/-- `x` is the exact result of an operation on `u32`. -/
def checkedU32 (checks : Bool) (x : Nat) : Except Panic Nat :=
  if x < 4294967296 then .ok x
  else if checks then .error .overflow
  else .ok (x % 4294967296)

/-- The cast `x as u32` of an `i64`. -/
def asU32 (x : Int) : Nat := (x % 4294967296).toNat

/-- Whole years are taken off, at most `fuel` of them. -/
def takeYears (checks : Bool) : Nat → Int → Int → Except Panic (Int × Int)
  | 0, remaining, year => .ok (remaining, year)
  | fuel + 1, remaining, year =>
      if remaining < daysInYear year * secsPerDay then .ok (remaining, year)
      else do
        let next ← checkedI32 checks (year + 1)
        takeYears checks fuel (remaining - daysInYear year * secsPerDay) next

/-- Whole months are taken off, at most `fuel` of them. -/
def takeMonths (year : Int) : Nat → Int → Nat → Int × Nat
  | 0, remaining, month => (remaining, month)
  | fuel + 1, remaining, month =>
      if remaining < daysInMonth month year * secsPerDay then (remaining, month)
      else takeMonths year fuel (remaining - daysInMonth month year * secsPerDay) (month + 1)

def weekdayNames : List Str :=
  ["Sun", "Mon", "Tue", "Wed", "Thu", "Fri", "Sat"].map String.toList

def monthNames : List Str :=
  ["Jan", "Feb", "Mar", "Apr", "May", "Jun", "Jul", "Aug", "Sep", "Oct", "Nov", "Dec"].map
    String.toList

/-- An entry of a table of names; an index past its end aborts. -/
def nameAt (names : List Str) (i : Nat) : Except Panic Str :=
  match names[i]? with
  | some name => .ok name
  | none => .error .sliceEnd

/-- The format `{:02}`. -/
def twoDigits (n : Nat) : Str := if n < 10 then '0' :: natStr n else natStr n

/-- No year is shorter than this. -/
def secsPerShortYear : Nat := 31536000

def formatHttpDate (checks : Bool) (timestamp : Int) : Except Panic Str := do
  let (inYear, year) ←
    takeYears checks (timestamp.toNat / secsPerShortYear + 1) timestamp 1970
  let (inMonth, month) := takeMonths year 12 inYear 0
  let day ← checkedU32 checks (asU32 (inMonth.tdiv secsPerDay) + 1)
  let inDay := inMonth.tmod secsPerDay
  let hour := asU32 (inDay.tdiv 3600)
  let min := asU32 ((inDay.tmod 3600).tdiv 60)
  let sec := asU32 ((inDay.tmod 3600).tmod 60)
  let totalDays := (timestamp.tdiv secsPerDay).bmod 4294967296
  let weekday ← nameAt weekdayNames ((totalDays.tmod 7 + 7).tmod 7).toNat
  let monthName ← nameAt monthNames month
  pure (weekday ++ ", ".toList ++ twoDigits day ++ [' '] ++ monthName ++ [' '] ++ intStr year
    ++ [' '] ++ twoDigits hour ++ [':'] ++ twoDigits min ++ [':'] ++ twoDigits sec
    ++ " GMT".toList)

/-! ### Reading a date -/

/-- `x` is the exact result of an operation on `i64`. -/
def checkedI64 (checks : Bool) (x : Int) : Except Panic Int :=
  if i64Min ≤ x ∧ x ≤ i64Max then .ok x
  else if checks then .error .overflow
  else .ok (x.bmod 18446744073709551616)

/-- The difference `x - y` on `u32`. -/
def subU32 (checks : Bool) (x y : Nat) : Except Panic Nat :=
  if y ≤ x then .ok (x - y)
  else if checks then .error .overflow
  else .ok (x + 4294967296 - y)

/-- Parse a `u32`, which may have a plus sign but no minus sign. -/
def parseU32 (s : Str) : Option Nat :=
  (parseDigits (if s.head? = some '+' then s.tail else s)).filter (· < 4294967296)

def parseI32 (s : Str) : Option Int := parseInt (-2147483648) 2147483647 s

def monthNum (name : Str) : Option Nat :=
  [("Jan".toList, 0), ("Feb".toList, 1), ("Mar".toList, 2), ("Apr".toList, 3), ("May".toList, 4),
    ("Jun".toList, 5), ("Jul".toList, 6), ("Aug".toList, 7), ("Sep".toList, 8), ("Oct".toList, 9),
    ("Nov".toList, 10), ("Dec".toList, 11)].lookup name

/-- The days of `n` years from `yr` on are added. -/
def addYears (checks : Bool) : Nat → Int → Int → Except Panic Int
  | 0, _, days => .ok days
  | n + 1, yr, days => do
      let days ← checkedI64 checks (days + daysInYear yr)
      addYears checks n (yr + 1) days

/-- The days of `n` months from `m` on are added. -/
def addMonths (checks : Bool) (year : Int) : Nat → Nat → Int → Except Panic Int
  | 0, _, days => .ok days
  | n + 1, m, days => do
      let days ← checkedI64 checks (days + daysInMonth m year)
      addMonths checks year n (m + 1) days

/-- What the three forms of a date are read into. -/
structure DateFields where
  year : Int
  month : Nat
  day : Nat
  hour : Nat
  min : Nat
  sec : Nat
  deriving DecidableEq

/-- The days from 1970 to the start of a year, negative for an earlier one. -/
def daysToYear (checks : Bool) (year : Int) : Except Panic Int :=
  if year < 1970 then do
    let days ← addYears checks (1970 - year).toNat year 0
    checkedI64 checks (-days)
  else addYears checks (year - 1970).toNat 1970 0

def dateToEpoch (checks : Bool) (f : DateFields) : Except Panic Int := do
  let days ← daysToYear checks f.year
  let days ← addMonths checks f.year f.month 0 days
  let before ← subU32 checks f.day 1
  let days ← checkedI64 checks (days + before)
  let secs ← checkedI64 checks (days * 86400)
  let hours ← checkedI64 checks (f.hour * 3600)
  let secs ← checkedI64 checks (secs + hours)
  let mins ← checkedI64 checks (f.min * 60)
  let secs ← checkedI64 checks (secs + mins)
  checkedI64 checks (secs + f.sec)

/-- Hours, minutes and seconds. -/
def timeParts (time : Str) : Option (Nat × Nat × Nat) :=
  match time.splitOn ':' with
  | [hour, min, sec] => do
      let hour ← parseU32 hour
      let min ← parseU32 min
      let sec ← parseU32 sec
      some (hour, min, sec)
  | _ => none

/-- `Sun, 06 Nov 1994 08:49:37 GMT`. -/
def rfc1123Fields (s : Str) : Option DateFields :=
  match splitWhitespace s with
  | [_, day, month, year, time, zone] =>
      if zone ≠ "GMT".toList then none
      else do
        let day ← parseU32 day
        let month ← monthNum month
        let year ← parseI32 year
        let (hour, min, sec) ← timeParts time
        some ⟨year, month, day, hour, min, sec⟩
  | _ => none

/-- `Sunday, 06-Nov-94 08:49:37 GMT`, with the year as it stands there. -/
def rfc850Fields (s : Str) : Option DateFields :=
  match (s.splitOnP fun c => c == ' ' || c == ',').filter (· ≠ []) with
  | [_, date, time, zone] =>
      if zone ≠ "GMT".toList then none
      else match date.splitOn '-' with
        | [day, month, year] => do
            let day ← parseU32 day
            let month ← monthNum month
            let year ← parseI32 year
            let (hour, min, sec) ← timeParts time
            some ⟨year, month, day, hour, min, sec⟩
        | _ => none
  | _ => none

/-- `Sun Nov  6 08:49:37 1994`. -/
def asctimeFields (s : Str) : Option DateFields :=
  match splitWhitespace s with
  | [_, month, day, time, year] => do
      let month ← monthNum month
      let day ← parseU32 day
      let (hour, min, sec) ← timeParts time
      let year ← parseI32 year
      some ⟨year, month, day, hour, min, sec⟩
  | _ => none

def parseRfc1123 (checks : Bool) (s : Str) : Except Panic (Option Int) :=
  match rfc1123Fields s with
  | some f => some <$> dateToEpoch checks f
  | none => .ok none

/-- The century of a year of two digits. -/
def pivotYear (checks : Bool) (year : Int) : Except Panic Int :=
  if year < 70 then checkedI32 checks (year + 2000)
  else if year < 100 then checkedI32 checks (year + 1900)
  else .ok year

/--
The century is added before the time is read, which makes no difference: nothing
overflows there.
-/
def parseRfc850 (checks : Bool) (s : Str) : Except Panic (Option Int) :=
  match rfc850Fields s with
  | some f => do
      let year ← pivotYear checks f.year
      some <$> dateToEpoch checks { f with year := year }
  | none => .ok none

def parseAsctime (checks : Bool) (s : Str) : Except Panic (Option Int) :=
  match asctimeFields s with
  | some f => some <$> dateToEpoch checks f
  | none => .ok none

def parseHttpDate (checks : Bool) (input : Str) : Except Panic (Option Int) :=
  let s := trim input
  match parseI64 s with
  | some ts => .ok (some ts)
  | none => do
      match ← parseRfc1123 checks s with
      | some ts => pure (some ts)
      | none =>
          match ← parseRfc850 checks s with
          | some ts => pure (some ts)
          | none => parseAsctime checks s

/--
A date as a request is read.  Where the reading aborts, which is for a day 00 in a
build with overflow checks, nothing comes of the request and no date stands for it
here.
-/
def Platform.parseHttpDate (pf : Platform) (input : Str) : Option Int :=
  resultOf none (Thttpd.parseHttpDate pf.overflowChecks input)

end Thttpd
