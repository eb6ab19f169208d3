/-
The handshake of a daemon with the process it was started from: `daemonize_with_handshake` and
`DaemonHandshake` in `rust/crates/thttpd-core/src/startup.rs`, and the use `main` makes of them.

Three processes share a pipe: the parent, which reads one byte; the child it forks; and the
daemon the child forks.  They take their steps in any order.  `Fault` is what can happen to
them at any time.
-/
import Thttpd.Core.Startup

namespace Thttpd.Handshake

open Text

/-- The original process, from the first fork on. -/
inductive Parent where
  /-- The write end is still open. -/
  | forked
  | reading
  | exited (status : UInt8)
  | killed
  deriving DecidableEq, Repr

/-- The process between the forks. -/
inductive Child where
  | detaching
  /-- The second fork is done, and `exit(0)` is next. -/
  | forked
  | gone
  deriving DecidableEq, Repr

inductive Daemon where
  | unborn
  /-- There is no `DaemonHandshake` yet. -/
  | redirecting
  | preparing
  | serving
  | gone (reported : Bool)
  deriving DecidableEq, Repr

structure State where
  parent : Parent
  child : Child
  daemon : Daemon
  pipe : List UInt8
  deriving DecidableEq, Repr

/-- After the first fork. -/
def State.start : State := ⟨.forked, .detaching, .unborn, []⟩

def Parent.listens : Parent → Bool
  | forked | reading => true
  | exited _ | killed => false

def Child.alive : Child → Bool
  | detaching | forked => true
  | gone => false

def Daemon.alive : Daemon → Bool
  | redirecting | preparing | serving => true
  | unborn | gone _ => false

/-- `DaemonHandshake::reported`, for a success. -/
def Daemon.reported : Daemon → Bool
  | serving => true
  | gone reported => reported
  | unborn | redirecting | preparing => false

/-- Somebody holds the write end. -/
def State.writers (s : State) : Bool := s.parent == .forked || s.child.alive || s.daemon.alive

/-- The status the parent makes of what it reads, or nothing if the read blocks. -/
def State.read (s : State) : Option UInt8 :=
  match s.pipe with
  | code :: _ => some code
  | [] => if s.writers then none else some 1

/-- `report`: without a reader the write fails, which is ignored. -/
def State.report (s : State) (code : UInt8) : State :=
  if s.parent.listens then { s with pipe := s.pipe ++ [code] } else s

/-- A step of one of the processes, where startup ends with `result` in the daemon. -/
inductive Step (result : Except Str Startup.Started) (s : State) : State → Prop
  | closes : s.parent = .forked → Step result s { s with parent := .reading }
  | reads {status : UInt8} : s.parent = .reading → s.read = some status →
      Step result s { s with parent := .exited status, pipe := s.pipe.tail }
  /-- `setsid`, or the second fork. -/
  | detachFails : s.child = .detaching → Step result s { s with child := .gone }
  | forks : s.child = .detaching → Step result s { s with child := .forked, daemon := .redirecting }
  | leaves : s.child = .forked → Step result s { s with child := .gone }
  | redirectFails : s.daemon = .redirecting → Step result s { s with daemon := .gone false }
  | redirects : s.daemon = .redirecting → Step result s { s with daemon := .preparing }
  /-- `process::exit` drops nothing, so nothing is written. -/
  | fails {text : Str} : result = .error text → s.daemon = .preparing →
      Step result s { s with daemon := .gone false }
  | reports {started : Startup.Started} : result = .ok started → s.daemon = .preparing →
      Step result s { s.report 0 with daemon := .serving }
  | ends : s.daemon = .serving → Step result s { s with daemon := .gone true }

/-- What can happen to them. -/
inductive Fault (s : State) : State → Prop
  /-- The read fails. -/
  | readFails : s.parent = .reading → Fault s { s with parent := .exited 1 }
  /-- A panic drops the handshake, which reports a failure. -/
  | panics : s.daemon = .preparing → Fault s { s.report 1 with daemon := .gone false }
  | killParent : s.parent.listens = true → Fault s { s with parent := .killed }
  | killChild : s.child.alive = true → Fault s { s with child := .gone }
  | killDaemon : s.daemon.alive = true → Fault s { s with daemon := .gone s.daemon.reported }

def Move (result : Except Str Startup.Started) (s s' : State) : Prop := Step result s s' ∨ Fault s s'

end Thttpd.Handshake
