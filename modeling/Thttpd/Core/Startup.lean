/-
How the server starts: `main` from the configuration on, `rust/crates/thttpd-core/src/startup.rs`,
and the opening of the log in `logging.rs`.

What the operating system does is an oracle that knows what was asked of it before.  The text
of an error is what is printed behind `thttpd: `; the program then exits with 1.

One `bind` stands for the calls that make a listening socket, and `daemonize` for the forks
and the redirections; who learns of the success is another matter.
-/
import Thttpd.Core.Config
import Thttpd.Core.MainLoop
import Thttpd.Lib.IpAddr
import Thttpd.Lib.Trial

namespace Thttpd.Startup

open Text Fs Net Trial

/-- An entry of the user database. -/
structure User where
  uid : Nat
  gid : Nat
  deriving DecidableEq, Repr

structure OsError where
  rawOsError : Option Int
  text : Str
  deriving DecidableEq, Repr

inductive Act where
  | openLog (path : Str)
  | chmodLog
  /-- `User::from_name`, for the owner of the log. -/
  | findOwner (name : Str)
  | chownLog (uid gid : Nat)
  | writePidfile (path : Str) (daemon : Bool)
  | readThrottles (path : Str)
  | daemonize (keepStdout : Bool)
  | chroot (dir : Str)
  /-- `chdir("/")` in the jail. -/
  | chdirRoot
  | chdirData (dir : Path)
  | resolve (host : Str) (port : Nat)
  | bind (addr : SocketAddr)
  /-- `User::from_name`, for the user to become. -/
  | findUser (name : Str)
  | setgid (gid : Nat)
  | initgroups (name : Str) (gid : Nat)
  | setuid (uid : Nat)
  | installSignals
  | newPoll
  | reportSuccess
  | run (listeners : Nat)
  deriving DecidableEq

def Act.Answer : Act → Type
  | findOwner _ => Option User
  | findUser _ => Option User
  | readThrottles _ => Bytes
  | resolve _ _ => List SocketAddr
  | _ => Unit

abbrev Os := Oracle Act.Answer OsError

abbrev Event := Asked Act OsError

abbrev Boot (α : Type) := Trial Act.Answer OsError Str α

/-- Ask, and print the error behind a text. -/
def must (a : Act) (context : Str) : Boot a.Answer := ask a fun e => context ++ e.text

/-! ### The access log

The log goes to the system's log, to standard output, to a file or nowhere.  A file
is given to the configured user, and named from the jail once there is one.
-/

inductive LogTarget where
  | syslog
  | stdout
  | file (path : Path)
  | disabled
  deriving DecidableEq

/-- The names of a path; a `.` counts in front only. -/
def names (p : Path) : List Str :=
  match p.comps with
  | [] => []
  | c :: cs => (if c = Path.dot ∧ p.absolute then [] else [c]) ++ cs.filter (· ≠ Path.dot)

/-- Whether two paths are the same, name by name. -/
def samePath (p q : Path) : Bool := p.absolute == q.absolute && names p == names q

def LogTarget.isStdout (target : LogTarget) : Bool := target == .stdout

def userNotFound (name : Str) : Str := "user '".toList ++ name ++ "' not found".toList

/-- `configure_logfile`, by a process that is root or not. -/
def configureLogfile (root : Bool) (c : Config.ServerConfig) : Boot Unit := do
  must .chmodLog "logfile: ".toList
  match root, c.user with
  | true, some name =>
      match ← must (.findOwner name) "logfile: ".toList with
      | some user => must (.chownLog user.uid user.gid) "logfile: ".toList
      | none => fail ("logfile: ".toList ++ userNotFound name)
  | _, _ => pure ()

def openLog (root : Bool) (c : Config.ServerConfig) : Boot LogTarget :=
  match c.logfile with
  | none => pure .syslog
  | some path =>
      if samePath (.parse path) (.parse ['-']) then pure .stdout
      else if samePath (.parse path) (.parse "/dev/null".toList) then pure .disabled
      else do
        must (.openLog path) "logfile: ".toList
        configureLogfile root c
        pure (.file (.parse path))

/-- The path in the jail, if it leads there. -/
def pathAfterChroot (path jailDir : Path) : Option Path :=
  if !path.absolute then none
  else if jailDir.absolute && jailDir.components.isPrefixOf path.components then
    some ⟨true, path.components.drop jailDir.components.length, false⟩
  else none

def LogTarget.remapAfterChroot (jailDir : Path) : LogTarget → LogTarget
  | .file path => .file ((pathAfterChroot path jailDir).getD path)
  | target => target

/-! ### Before the jail

What is named in the file system as the process was started: the file with its
number, and the throttle file.
-/

def writePidfile (c : Config.ServerConfig) (daemon : Bool) : Boot Unit :=
  match c.pidfile with
  | some path => must (.writePidfile path daemon) ("writing pidfile ".toList ++ path ++ ": ".toList)
  | none => pure ()

def loadThrottles (c : Config.ServerConfig) : Boot (Option ThrottleTable) :=
  match c.throttleFile with
  | none => pure none
  | some path => do
      let context := "throttle file ".toList ++ path ++ ": ".toList
      let content ← must (.readThrottles path) context
      match ThrottleTable.load content with
      | some table => pure (some table)
      | none => fail (context ++ "stream did not contain valid UTF-8".toList)

/-- Become a daemon, which writes its own number. -/
def detach (c : Config.ServerConfig) (keepStdout : Bool) : Boot Unit :=
  if c.daemonize then do
    must (.daemonize keepStdout) "daemonize: ".toList
    writePidfile c true
  else pure ()

/-! ### The jail

The directory is made the root, if that is asked for, and the process goes to the
data directory, if there is one.
-/

/-- The serving root from here on. -/
def doChroot (c : Config.ServerConfig) : Boot Path :=
  if c.doChroot then do
    must (.chroot c.dir) "chroot failed: ".toList
    must .chdirRoot "chdir after chroot failed: ".toList
    pure (.parse ['/'])
  else pure (.parse c.dir)

def dataDirChdirPath (configDir : Path) (dataDir : Str) (doChroot : Bool) : Path :=
  if (Path.parse dataDir).absolute then .parse dataDir
  else if doChroot then (Path.parse ['/']).join dataDir
  else configDir.join dataDir

def effectiveDirAfterChdir (configDir : Path) (dataDir : Str) (doChroot : Bool) : Path :=
  if (Path.parse dataDir).absolute then .parse dataDir
  else if doChroot then (Path.parse ['/']).join dataDir
  else if configDir.absolute then configDir.join dataDir
  else .parse ['.']

def applyDataDir (c : Config.ServerConfig) (dir : Path) : Boot Path :=
  match c.dataDir with
  | none => pure dir
  | some dataDir => do
      let chdirTo := dataDirChdirPath dir dataDir c.doChroot
      must (.chdirData chdirTo) ("data_dir chdir ".toList ++ chdirTo.toStr ++ ": ".toList)
      pure (effectiveDirAfterChdir dir dataDir c.doChroot)

/-! ### Listeners

Every address that is found is bound, and a family that is not there is passed over.
-/

/-- `EAFNOSUPPORT` and `EPFNOSUPPORT`. -/
def isIgnorableBindError (e : OsError) : Bool := e.rawOsError == some 97 || e.rawOsError == some 96

def v4Unspecified (port : Nat) : SocketAddr := ⟨.v4 0 0 0 0, .ofNat port, 0⟩

def v6Unspecified (port : Nat) : SocketAddr := ⟨.v6 (.replicate 8 0), .ofNat port, 0⟩

/-- What of a failed `bind` is fatal. -/
def fatalError (context : Str) : Except OsError Unit → Option Str
  | .ok () => none
  | .error e => if isIgnorableBindError e then none else some (context ++ e.text)

def bound (addr : SocketAddr) : Except OsError Unit → List SocketAddr
  | .ok () => [addr]
  | .error _ => []

/-- The listeners, and the error that is fatal: both families are tried. -/
def bindWildcards (port : Nat) : Boot (List SocketAddr × Option Str) := do
  let v6 ← attempt (.bind (v6Unspecified port))
  let v4 ← attempt (.bind (v4Unspecified port))
  let fatal6 := fatalError ("IPv6 [::]:".toList ++ natStr port ++ ": ".toList) v6
  let fatal4 := fatalError ("IPv4 0.0.0.0:".toList ++ natStr port ++ ": ".toList) v4
  pure (bound (v6Unspecified port) v6 ++ bound (v4Unspecified port) v4, fatal4.or fatal6)

/-- One address after the other, up to the error that is fatal. -/
def bindEach : List SocketAddr → Boot (List SocketAddr × Option Str)
  | [] => pure ([], none)
  | addr :: addrs => do
      let answer ← attempt (.bind { addr with scopeId := 0 })
      match fatalError (addr.display ++ ": ".toList) answer with
      | some e => pure ([], some e)
      | none => do
          let (listeners, fatal) ← bindEach addrs
          pure (bound { addr with scopeId := 0 } answer ++ listeners, fatal)

/-- An address that cannot be resolved has no addresses. -/
def resolveHostname (host : Str) (port : Nat) : Boot (List SocketAddr) := do
  let answer : Except OsError (List SocketAddr) ← attempt (Act.resolve host port)
  pure (answer.toOption.getD []).eraseDups

def bindFailed (text : Str) : Str := "bind failed: ".toList ++ text

/-- There has to be a listener, and no error that is fatal. -/
def usable : List SocketAddr × Option Str → Boot (List SocketAddr)
  | (_, some e) => fail (bindFailed e)
  | ([], none) => fail (bindFailed "no usable listen address".toList)
  | (listeners, none) => pure listeners

def bindListeners (c : Config.ServerConfig) : Boot (List SocketAddr) :=
  match c.hostname with
  | none => do usable (← bindWildcards c.port)
  | some host => do
      let addrs ← resolveHostname host c.port
      if addrs = [] then
        fail (bindFailed ("could not resolve hostname '".toList ++ host ++ ['\'']))
      else usable (← bindEach addrs)

/-- The loop has no token for more. -/
def checkListeners (listeners : List SocketAddr) : Boot Unit :=
  if maxListeners < listeners.length then
    fail ("too many listen sockets (".toList ++ natStr listeners.length ++ "): maximum is ".toList ++
      natStr maxListeners)
  else pure ()

/-! ### Privileges

The user is looked up by name, and without a configured one the process stays what
it is.
-/

/-- `CString::new`. -/
def checkName (username : Str) : Boot Unit :=
  match username.findIdx? (· == Char.ofNat 0) with
  | some pos =>
      fail ("invalid username: nul byte found in provided data at position: ".toList ++ natStr pos)
  | none => pure ()

def dropPrivileges (c : Config.ServerConfig) : Boot Unit :=
  match c.user with
  | none => pure ()
  | some username => do
      match ← must (.findUser username) ("User::from_name(".toList ++ username ++ "): ".toList) with
      | none => fail (userNotFound username)
      | some user =>
          must (.setgid user.gid) "setgid: ".toList
          checkName username
          must (.initgroups username user.gid) "initgroups: ".toList
          must (.setuid user.uid) "setuid: ".toList

/-! ### All of it

The parts in the order of `main`.
-/

/-- The server `main` made, with its listeners. -/
structure Started where
  /-- `config.dir`. -/
  dir : Path
  accessLog : LogTarget
  listeners : List SocketAddr
  throttles : Option ThrottleTable

/-- Up to the server that is ready to run. -/
def prepare (root : Bool) (c : Config.ServerConfig) : Boot Started := do
  let log ← openLog root c
  writePidfile c false
  let throttles ← loadThrottles c
  detach c log.isStdout
  let jail ← doChroot c
  let dir ← applyDataDir c jail
  let listeners ← bindListeners c
  checkListeners listeners
  dropPrivileges c
  must .installSignals "signal handler setup failed: ".toList
  must .newPoll "server setup failed: ".toList
  pure {
    dir
    accessLog := if c.doChroot then log.remapAfterChroot (.parse c.dir) else log
    listeners
    throttles }

/-- The parent is told, and whether it hears is ignored. -/
def reportSuccess (c : Config.ServerConfig) : Boot Unit :=
  if c.daemonize then do
    let _ ← attempt .reportSuccess
    pure ()
  else pure ()

/-- `main`, by a process that is root or not. -/
def main (root : Bool) (c : Config.ServerConfig) : Boot Started := do
  let started ← prepare root c
  reportSuccess c
  must (.run started.listeners.length) "event loop error: ".toList
  pure started

end Thttpd.Startup
