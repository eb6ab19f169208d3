/-
Command line and configuration file: `rust/crates/thttpd-core/src/config.rs`, and the start
of `main.rs`.

`clap` and the file system are parameters.  A path is the text it is given as.

The command line is read three times: `normalizeLegacyArgs` rewrites old spellings,
`togglesFrom` looks for the switches among what it is given, and `clap` parses.
`fromCli` then takes the fields `clap` found, in an order of its own, over those of
the file, and applies the switches in the order of the command line.
-/
import Thttpd.Http.Tdate

namespace Thttpd.Config

open Text

/-- Legacy spellings and what they are rewritten to. -/
def legacySpellings : List (Str × Str) :=
  [("-h".toList, "--hostname".toList), ("-dd".toList, "--data-dir".toList),
    ("-nor".toList, "--nor".toList), ("-nov".toList, "--nov".toList),
    ("-g".toList, "--global-passwd".toList), ("-nog".toList, "--no-global-passwd".toList),
    ("-noP".toList, "--no-global-passwd".toList), ("-s".toList, "--symlinks".toList),
    ("-nos".toList, "--no-symlinks".toList)]

/-- What `clap` is given for an argument. -/
def spelling (arg : Str) : Str := (legacySpellings.lookup arg).getD arg

/-- What follows `-h` and `-dd` is passed through. -/
def normalizeLegacyArgs : List Str → List Str
  | [] => []
  | [arg] => [spelling arg]
  | arg :: next :: args =>
      if arg = "-h".toList ∨ arg = "-dd".toList then spelling arg :: next :: normalizeLegacyArgs args
      else spelling arg :: normalizeLegacyArgs (next :: args)

/-- The switches that can be given both ways, where the last one is meant to win. -/
inductive LegacyToggle where
  | chroot (on : Bool)
  | symlinkCheck (on : Bool)
  | vhost (on : Bool)
  | globalPasswd (on : Bool)
  deriving DecidableEq, Repr

/-- The arguments that are switches. -/
def toggleArgs : List (Str × LegacyToggle) :=
  [("-r".toList, .chroot true), ("--chroot".toList, .chroot true), ("--nor".toList, .chroot false),
    ("--symlinks".toList, .symlinkCheck true), ("--no-symlinks".toList, .symlinkCheck false),
    ("-v".toList, .vhost true), ("--vhost".toList, .vhost true), ("--nov".toList, .vhost false),
    ("--global-passwd".toList, .globalPasswd true),
    ("--no-global-passwd".toList, .globalPasswd false)]

/-- The arguments the next argument belongs to. -/
def valueArgs : List Str :=
  ["-p", "--port", "-d", "--dir", "--data-dir", "-u", "--user", "-l", "--log", "-c", "--cgipat", "-T",
    "--charset", "-P", "--p3p", "-M", "--maxage", "-C", "--config", "-t", "--throttle-file", "-H",
    "--hostname", "-i", "--pidfile", "--cgi-limit"].map String.toList

/-- The switches from here on; a value that belongs to an argument is passed over. -/
def togglesFrom : Bool → List Str → List LegacyToggle
  | _, [] => []
  | true, _ :: args => togglesFrom false args
  | false, arg :: args =>
      match toggleArgs.lookup arg with
      | some toggle => toggle :: togglesFrom false args
      | none => togglesFrom (valueArgs.contains arg) args

/-- The switches in their order; the first argument is the program. -/
def legacyToggleEvents (args : List Str) : List LegacyToggle := togglesFrom false (args.drop 1)

/-- What `clap` parses the arguments into, as the source declares it. -/
structure Cli where
  port : Option Nat
  dir : Option Str
  chroot : Bool
  noChroot : Bool
  dataDir : Option Str
  symlinks : Bool
  noSymlinks : Bool
  user : Option Str
  logfile : Option Str
  cgipat : Option Str
  charset : Option Str
  p3p : Option Str
  maxAge : Option Int
  noVhost : Bool
  vhost : Bool
  globalPasswd : Bool
  noGlobalPasswd : Bool
  configFile : Option Str
  debug : Bool
  throttleFile : Option Str
  hostname : Option Str
  pidfile : Option Str
  cgiLimit : Option Int
  legacyVersion : Bool
  deriving DecidableEq, Repr

/-- What the server is run with. -/
structure ServerConfig where
  port : Nat
  dir : Str
  doChroot : Bool
  /-- Skip the check for links that lead out of the tree. -/
  noSymlinkCheck : Bool
  dataDir : Option Str
  user : Option Str
  logfile : Option Str
  cgiPattern : Option Str
  cgiLimit : Option Int
  charset : Str
  p3p : Option Str
  maxAge : Int
  vhost : Bool
  globalPasswd : Bool
  urlPattern : Option Str
  localPattern : Option Str
  noEmptyReferers : Bool
  hostname : Option Str
  throttleFile : Option Str
  pidfile : Option Str
  daemonize : Bool
  deriving DecidableEq, Repr

namespace ServerConfig

/-- `ServerConfig::default`. -/
def initial : ServerConfig where
  port := 80
  dir := ['.']
  doChroot := false
  noSymlinkCheck := false
  dataDir := none
  user := none
  logfile := none
  cgiPattern := none
  cgiLimit := none
  charset := "iso-8859-1".toList
  p3p := none
  maxAge := -1
  vhost := false
  globalPasswd := true
  urlPattern := none
  localPattern := none
  noEmptyReferers := false
  hostname := none
  throttleFile := none
  pidfile := none
  daemonize := true

/-! ### The configuration file -/

/-- An option of the file that needs a value. -/
def required (name : Str) (value : Option Str) : Except Str Str :=
  match value with
  | some v => .ok v
  | none => .error ("value required for ".toList ++ name ++ " option".toList)

/-- And one that may not have one. -/
def noValue (name : Str) (value : Option Str) : Except Str Unit :=
  if value.isSome then .error ("no value required for ".toList ++ name ++ " option".toList) else .ok ()

/-- A value that has to parse. -/
def parsed {α : Type} (parse : Str → Option α) (kind name : Str) (value : Option Str) : Except Str α := do
  let v ← required name value
  match parse v with
  | some a => .ok a
  | none => .error ("invalid ".toList ++ kind ++ " for ".toList ++ name ++ " option".toList)

/-- A number for a port. -/
def parseU16 (s : Str) : Option Nat :=
  (parseDigits (if s.head? = some '+' then s.tail else s)).filter (· < 65536)

/-- One option of the file.  Names are those of the file's own, and an unknown one is an error. -/
def applyConfigOption (c : ServerConfig) (name : Str) (value : Option Str) :
    Except Str ServerConfig := do
  let key := asciiLower name
  if key = "debug".toList then
    noValue name value
    .ok { c with daemonize := false }
  else if key = "port".toList then
    let port ← parsed parseU16 "port".toList name value
    .ok { c with port }
  else if key = "dir".toList then
    let dir ← required name value
    .ok { c with dir }
  else if key = "chroot".toList then
    noValue name value
    .ok { c with doChroot := true, noSymlinkCheck := true }
  else if key = "nochroot".toList then
    noValue name value
    .ok { c with doChroot := false, noSymlinkCheck := false }
  else if key = "data_dir".toList then
    let dir ← required name value
    .ok { c with dataDir := some dir }
  else if key = "symlink".toList ∨ key = "symlinks".toList then
    noValue name value
    .ok { c with noSymlinkCheck := false }
  else if key = "nosymlink".toList ∨ key = "nosymlinks".toList then
    noValue name value
    .ok { c with noSymlinkCheck := true }
  else if key = "user".toList then
    let user ← required name value
    .ok { c with user := some user }
  else if key = "cgipat".toList then
    let pattern ← required name value
    .ok { c with cgiPattern := some pattern }
  else if key = "cgilimit".toList then
    let limit ← parsed parseI32 "integer".toList name value
    .ok { c with cgiLimit := some limit }
  else if key = "urlpat".toList then
    let pattern ← required name value
    .ok { c with urlPattern := some pattern }
  else if key = "noemptyreferers".toList then
    noValue name value
    .ok { c with noEmptyReferers := true }
  else if key = "localpat".toList then
    let pattern ← required name value
    .ok { c with localPattern := some pattern }
  else if key = "throttles".toList then
    let path ← required name value
    .ok { c with throttleFile := some path }
  else if key = "host".toList then
    let hostname ← required name value
    .ok { c with hostname := some hostname }
  else if key = "logfile".toList then
    let logfile ← required name value
    .ok { c with logfile := some logfile }
  else if key = "vhost".toList then
    noValue name value
    .ok { c with vhost := true }
  else if key = "novhost".toList then
    noValue name value
    .ok { c with vhost := false }
  else if key = "globalpasswd".toList then
    noValue name value
    .ok { c with globalPasswd := true }
  else if key = "noglobalpasswd".toList then
    noValue name value
    .ok { c with globalPasswd := false }
  else if key = "pidfile".toList then
    let path ← required name value
    .ok { c with pidfile := some path }
  else if key = "charset".toList then
    let charset ← required name value
    .ok { c with charset }
  else if key = "p3p".toList then
    let p3p ← required name value
    .ok { c with p3p := some p3p }
  else if key = "max_age".toList then
    let maxAge ← parsed parseI32 "integer".toList name value
    .ok { c with maxAge }
  else .error ("unknown config option '".toList ++ name ++ "'".toList)

/-- One option of line `number`; an error names the place. -/
def applyOptionAt (path : Str) (number : Nat) (c : ServerConfig) (option : Str) :
    Except Str ServerConfig :=
  let parts := (splitOnce '=' option).elim (option, none) fun p => (p.1, some p.2)
  (c.applyConfigOption parts.1 parts.2).mapError fun error =>
    path ++ ":".toList ++ natStr number ++ ": ".toList ++ error

/-- The options of a line, up to a comment. -/
def optionsOf (rawLine : Str) : List Str := splitWhitespace (rawLine.takeWhile (· ≠ '#'))

/-- The options of all lines, from the first on. -/
def applyConfigFile (readFile : Str → Except Str Str) (c : ServerConfig) (path : Str) :
    Except Str ServerConfig := do
  let contents ← (readFile path).mapError fun error => path ++ ": ".toList ++ error
  (lines contents).zipIdx.foldlM
    (fun c line => (optionsOf line.1).foldlM (applyOptionAt path (line.2 + 1)) c) c

/-- The defaults, and the configuration file if there is one. -/
def fromFile (readFile : Str → Except Str Str) (cli : Cli) : Except Str ServerConfig :=
  match cli.configFile with
  | some path => initial.applyConfigFile readFile path
  | none => .ok initial

/-! ### The command line -/

/-- The arguments override what is configured, in an order of the code's own. -/
def withArgs (c : ServerConfig) (cli : Cli) : ServerConfig :=
  let c := { c with port := cli.port.getD c.port, dir := cli.dir.getD c.dir }
  let c := if cli.chroot then { c with doChroot := true, noSymlinkCheck := true } else c
  let c := if cli.noChroot then { c with doChroot := false, noSymlinkCheck := false } else c
  let c := { c with dataDir := cli.dataDir.or c.dataDir }
  let c := if cli.symlinks then { c with noSymlinkCheck := false } else c
  let c := if cli.noSymlinks then { c with noSymlinkCheck := true } else c
  let c := { c with
    user := cli.user.or c.user
    logfile := cli.logfile.or c.logfile
    cgiPattern := cli.cgipat.or c.cgiPattern
    cgiLimit := cli.cgiLimit.or c.cgiLimit
    charset := cli.charset.getD c.charset
    p3p := cli.p3p.or c.p3p
    maxAge := cli.maxAge.getD c.maxAge }
  let c := if cli.vhost then { c with vhost := true } else c
  let c := if cli.noVhost then { c with vhost := false } else c
  let c := if cli.globalPasswd then { c with globalPasswd := true } else c
  let c := if cli.noGlobalPasswd then { c with globalPasswd := false } else c
  let c := { c with
    hostname := cli.hostname.or c.hostname
    throttleFile := cli.throttleFile.or c.throttleFile
    pidfile := cli.pidfile.or c.pidfile }
  if cli.debug then { c with daemonize := false } else c

/-- The file, the command line over it, and then the switches in their order. -/
def fromCli (readFile : Str → Except Str Str) (cli : Cli) : Except Str ServerConfig :=
  (fromFile readFile cli).map fun c => c.withArgs cli

/-- A switch sets its field, and one for a jail the check of links too. -/
def applyToggle (c : ServerConfig) : LegacyToggle → ServerConfig
  | .chroot true => { c with doChroot := true, noSymlinkCheck := true }
  | .chroot false => { c with doChroot := false, noSymlinkCheck := false }
  | .symlinkCheck true => { c with noSymlinkCheck := false }
  | .symlinkCheck false => { c with noSymlinkCheck := true }
  | .vhost enabled => { c with vhost := enabled }
  | .globalPasswd enabled => { c with globalPasswd := enabled }

def applyLegacyToggleOrder (c : ServerConfig) (events : List LegacyToggle) : ServerConfig :=
  events.foldl applyToggle c

end ServerConfig

/-- The configuration from the rewritten arguments and what `clap` made of them. -/
def configured (readFile : Str → Except Str Str) (cli : Cli) (args : List Str) :
    Except Str ServerConfig :=
  (ServerConfig.fromCli readFile cli).map fun c => c.applyLegacyToggleOrder (legacyToggleEvents args)

/-- How the program ends before it serves. -/
inductive Exit where
  /-- `clap` refused the arguments, or showed the help. -/
  | usage
  | version
  | config (error : Str)
  deriving DecidableEq, Repr

/-- `main` up to the configuration it serves with. -/
def start (parse : List Str → Option Cli) (readFile : Str → Except Str Str) (raw : List Str) :
    Except Exit ServerConfig :=
  let args := normalizeLegacyArgs raw
  match parse args with
  | none => .error .usage
  | some cli =>
      if cli.legacyVersion then .error .version else (configured readFile cli args).mapError .config

end Thttpd.Config
