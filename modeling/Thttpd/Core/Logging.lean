/-
Access log lines: `rust/crates/thttpd-core/src/logging.rs`.

`Tm` is what `localtime_r` made of the present time.  A field is cut at a byte, which would
panic within a character, so a line is an `Option`.
-/
import Thttpd.Core.Server
import Thttpd.Lib.IpAddr
import Thttpd.Lib.Slice

namespace Thttpd

open Text

/-- The fields of `libc::tm` that are printed. -/
structure Tm where
  mday : Int
  mon : Int
  year : Int
  hour : Int
  min : Int
  sec : Int
  gmtoff : Int
  /-- The year of the present is not one the `i32` sum overflows on. -/
  year_fits : year + 1900 ≤ 2147483647

/-- `{:0w$}`: the sign, and zeros up to the width. -/
def padInt (width : Nat) (n : Int) : Str :=
  let sign := if n < 0 then ['-'] else []
  let digits := natStr n.natAbs
  sign ++ List.replicate (width - sign.length - digits.length) '0' ++ digits

def months : List Str :=
  ["Jan", "Feb", "Mar", "Apr", "May", "Jun", "Jul", "Aug", "Sep", "Oct", "Nov", "Dec"].map String.toList

/-- `dd/Mon/YYYY:HH:MM:SS +ZZZZ`. -/
def cernLocaltime (tm : Tm) : Str :=
  let zone := tm.gmtoff.tdiv 60
  let sign := if 0 ≤ zone then '+' else '-'
  let zone := if zone < 0 then -zone else zone
  let zone := zone.tdiv 60 * 100 + zone.tmod 60
  padInt 2 tm.mday ++ ['/'] ++ (months[min (asUsize tm.mon) 11]?).getD [] ++ ['/']
    ++ padInt 4 (tm.year + 1900) ++ [':'] ++ padInt 2 tm.hour ++ [':'] ++ padInt 2 tm.min ++ [':']
    ++ padInt 2 tm.sec ++ [' ', sign] ++ padInt 4 zone

/-- Where the characters of a text begin, from byte `i` on. -/
def charIndices : Nat → Str → List Nat
  | _, [] => []
  | i, c :: s => i :: charIndices (i + c.utf8Size) s

/-- At most `n` characters. -/
def truncate (s : Str) (n : Nat) : Option Str :=
  match (charIndices 0 s)[n]? with
  | some idx => strTo s idx
  | none => some s

/-- The format string of a line. -/
def cernLine (addr user date method url protocol status bytes referer userAgent : Str) : Str :=
  addr ++ " - ".toList ++ user ++ " [".toList ++ date ++ "] \"".toList ++ method ++ [' '] ++ url
    ++ [' '] ++ protocol ++ "\" ".toList ++ status ++ [' '] ++ bytes ++ " \"".toList ++ referer
    ++ "\" \"".toList ++ userAgent ++ ['"'] ++ ['\n']

def formatCernLine (tm : Tm) (remoteUser : Str) (entry : LogEntry) : Option Str := do
  let user := if remoteUser = [] then ['-'] else remoteUser
  let bytes := if 0 ≤ entry.bytesSent then intStr entry.bytesSent else ['-']
  let addr ← truncate entry.remoteAddr 80
  let user ← truncate user 80
  let method ← truncate entry.method 80
  let url ← truncate entry.url 300
  let protocol ← truncate entry.protocol 80
  let referer ← truncate entry.referer 200
  let userAgent ← truncate entry.userAgent 200
  pure (cernLine addr user (cernLocaltime tm) method url protocol (natStr entry.status) bytes referer
    userAgent)

/-- The line `close_connection` logs: nobody is ever authenticated in it. -/
def logLine (tm : Tm) (entry : LogEntry) : Option Str := formatCernLine tm ['-'] entry

/-- A client's address, in the two ways it is printed. -/
def PeerAddr.of (addr : Net.SocketAddr) : PeerAddr := ⟨addr.ip.display, addr.display⟩

/-- Every connection has come from a socket address. -/
def Server.FromSockets (s : Server) : Prop :=
  ∀ slot, some slot ∈ s.conns → ∃ addr, slot.peerAddr = some (PeerAddr.of addr)

/-- The states of a server that has logged what happened since it was started. -/
def Server.Logging (pf : Platform) (cfg : ServerConfig) (s : Server) : Prop :=
  Lts.Reachable (fun s => s.Init ∧ s.shared.accessLog = [])
    (fun s s' => Step pf cfg s s' ∧ s'.FromSockets) s

end Thttpd
