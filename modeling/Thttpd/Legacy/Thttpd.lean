/-
The periodic throttle update of the C server: the loop of `update_throttles` in
`legacy/src/thttpd.c` that hands out the bandwidth.

In C a rule that is not there, or one that counts no sender, has no meaning in this loop;
the connections it runs over hold neither.
-/
import Thttpd.Core.Connection

namespace Thttpd.Legacy

/-- The limit of a connection with these rules. -/
def maxLimitFor (throttles : ThrottleTable) (tnums : List Nat) : Int :=
  tnums.foldl (fun maxLimit tnum =>
    match throttles[tnum]? with
    | some e =>
        let l := e.maxLimit.tdiv e.numSending
        if maxLimit = throttleNolimit then l else min maxLimit l
    | none => maxLimit) throttleNolimit

/-- What `update_throttles` does to one connection. -/
def updateConnection (throttles : ThrottleTable) (slot : ConnSlot) : ConnSlot :=
  if slot.state = .sending ∨ slot.state = .pausing then
    { slot with throttle := { slot.throttle with
        maxLimit := maxLimitFor throttles slot.throttle.tnums } }
  else slot

end Thttpd.Legacy
