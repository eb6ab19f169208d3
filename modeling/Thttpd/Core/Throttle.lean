/-
Bandwidth throttling: `rust/crates/thttpd-core/src/throttle.rs`.

A rule has a pattern, its two limits, and what is counted for it: a rate, the bytes
since the last update of the rate, and the connections that hold it.  A connection
knows its rules by their places in the table.

What a check and an update compute is computed in `i64`, with a panic where a build
with overflow checks has one.  `clear` and `add_bytes` are on numbers without an end:
a count is one of connections, and 2⁶³ bytes between two updates are more than a
server sends.
-/
import Thttpd.Platform
import Thttpd.Http.Match

namespace Thttpd

open Text

/-- Seconds between two updates of the averages. -/
def throttleTime : Int := 2

/-- The most rules one connection may match. -/
def maxThrottleNums : Nat := 10

/-- What one CGI response is charged. -/
def cgiBytecount : Int := 25000

/-- No limit. -/
def throttleNolimit : Int := -1

structure ThrottleEntry where
  pattern : Str
  maxLimit : Int
  minLimit : Int
  rate : Int
  bytesSinceAvg : Int
  numSending : Int
  deriving DecidableEq, Repr

/-- `ThrottleEntry::new`. -/
def ThrottleEntry.new (pattern : Str) (maxLimit minLimit : Int) : ThrottleEntry :=
  { pattern, maxLimit, minLimit, rate := 0, bytesSinceAvg := 0, numSending := 0 }

/-- One sender more than there are; a negative count is first put back to zero. -/
def ThrottleEntry.oneMore (e : ThrottleEntry) : Int :=
  (if e.numSending < 0 then 0 else e.numSending) + 1

def ThrottleEntry.addSender (pf : Platform) (e : ThrottleEntry) : Except Panic ThrottleEntry := do
  let numSending ← pf.i64 e.oneMore
  pure { e with numSending }

/-- Of a count that is not negative and not the largest there is, one more is one more. -/
theorem ThrottleEntry.addSender_eq {pf : Platform} {e e' : ThrottleEntry} (hlo : 0 ≤ e.numSending)
    (hhi : e.numSending < i64Max) (h : e.addSender pf = .ok e') :
    e' = { e with numSending := e.numSending + 1 } := by
  obtain ⟨n, hn, h⟩ := bind_eq_ok.mp h
  cases h
  have hmore : e.oneMore = e.numSending + 1 := by
    unfold oneMore
    rw [if_neg (Int.not_lt.mpr hlo)]
  rw [hmore] at hn
  have hmin : i64Min ≤ e.numSending + 1 := by
    unfold i64Min
    omega
  rw [Platform.i64_eq hmin hhi hn]

/-- Only the count changes. -/
theorem ThrottleEntry.addSender_keeps {β : Type} {f : ThrottleEntry → β}
    (hf : ∀ e n, f { e with numSending := n } = f e) {pf : Platform} {e e' : ThrottleEntry}
    (h : e.addSender pf = .ok e') : f e' = f e := by
  obtain ⟨n, -, h⟩ := bind_eq_ok.mp h
  cases h
  exact hf e n

inductive ThrottleDecision where
  | unlimited
  | allow (tnums : List Nat) (maxLimit minLimit : Int)
  | reject
  deriving DecidableEq, Repr

abbrev ThrottleTable := List ThrottleEntry

namespace ThrottleTable

/-- `clear`: one sender less on each of `tnums`. -/
def clear (table : ThrottleTable) (tnums : List Nat) : ThrottleTable :=
  tnums.foldl (fun t tnum => t.modify tnum fun e => { e with numSending := e.numSending - 1 }) table

def addBytes (table : ThrottleTable) (tnums : List Nat) (n : Int) : ThrottleTable :=
  tnums.foldl (fun t tnum => t.modify tnum fun e => { e with bytesSinceAvg := e.bytesSinceAvg + n })
    table

/-- A running minimum in which "no limit" is the largest value. -/
def minLimited (maxLimit l : Int) : Int := if maxLimit = throttleNolimit then l else min maxLimit l

/-- A running maximum in which "no limit" is the smallest value. -/
def maxLimited (minLimit l : Int) : Int := if minLimit = throttleNolimit then l else max minLimit l

/-- The end of `check_request`: nothing matched, or these rules did. -/
def decision (tnums : List Nat) (maxLimit minLimit : Int) : ThrottleDecision :=
  if tnums = [] then .unlimited else .allow tnums maxLimit minLimit

/-- The loop of `check_request`: `done` are the entries already visited. -/
def checkFrom (pf : Platform) (filename : Str) (done : ThrottleTable) (tnums : List Nat)
    (maxLimit minLimit : Int) : ThrottleTable → Except Panic (ThrottleDecision × ThrottleTable)
  | [] => .ok (decision tnums maxLimit minLimit, done)
  | e :: rest =>
      if maxThrottleNums ≤ tnums.length then
        .ok (decision tnums maxLimit minLimit, done ++ e :: rest)
      else if matchPattern e.pattern filename then do
        let twice ← pf.i64 (e.maxLimit * 2)
        if twice < e.rate ∨ e.rate < e.minLimit then
          -- Take back the senders counted for this request so far.
          .ok (.reject, clear (done ++ e :: rest) tnums)
        else do
          let e' ← e.addSender pf
          checkFrom pf filename (done ++ [e']) (tnums ++ [done.length])
            (minLimited maxLimit (e.maxLimit.tdiv e'.numSending))
            (maxLimited minLimit e.minLimit) rest
      else checkFrom pf filename (done ++ [e]) tnums maxLimit minLimit rest

def checkRequest (pf : Platform) (table : ThrottleTable) (filename : Str) :
    Except Panic (ThrottleDecision × ThrottleTable) :=
  checkFrom pf filename [] [] throttleNolimit throttleNolimit table

/-- `fair_share_for`: what the senders of each matched rule leave for one of them. -/
def fairShareFor (table : ThrottleTable) (tnums : List Nat) : Int :=
  tnums.foldl (fun maxLimit tnum =>
    match table[tnum]? with
    | some e => minLimited maxLimit (e.maxLimit.tdiv (max e.numSending 1))
    | none => maxLimit) throttleNolimit

/-- `update_rate`: the rolling average. -/
def updateRate (pf : Platform) (e : ThrottleEntry) : Except Panic ThrottleEntry := do
  let twice ← pf.i64 (2 * e.rate)
  let sum ← pf.i64 (twice + e.bytesSinceAvg.tdiv throttleTime)
  pure { e with rate := sum.tdiv 3, bytesSinceAvg := 0 }

def updateAverages (pf : Platform) (table : ThrottleTable) : Except Panic ThrottleTable :=
  table.mapM (updateRate pf)

end ThrottleTable

end Thttpd
