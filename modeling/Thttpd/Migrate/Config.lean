/-
The proxy's configuration and its checks: `rust/crates/thttpd-migrate/src/config.rs`.

The configuration has the fields that `validate`, the control plane and the start of
the proxy read.  Two checks end in a parser from outside the repository, and its
answer is a parameter: the text of its error, or nothing.
-/
import Thttpd.Migrate.Router
import Thttpd.Lib.Assoc

namespace Thttpd.Migrate

open Text

structure BackendConfig where
  address : Str
  weight : Nat
  healthPath : Str
  deriving DecidableEq, Repr

structure ProxyConfig where
  listen : Str
  metricsListen : Str
  backends : Assoc Str BackendConfig
  routing : RoutingConfig
  circuitBreaker : CircuitConfig

/-- What the parsers of a socket address and of a `Uri` say against a text. -/
structure Parsers where
  socketAddr : Str → Option Str
  uri : Str → Option Str

/-- Stop with a message unless a condition holds. -/
def ensure (b : Bool) (message : Str) : Except Str Unit :=
  if b then .ok () else .error message

/-- Stop with a message if a parser has one. -/
def ensureParsed (e : Option Str) (message : Str → Str) : Except Str Unit :=
  match e with
  | none => .ok ()
  | some e => .error (message e)

/-- The text before the first `]:`, with its bracket, and the text after it. -/
def splitBracket : Str → Option (Str × Str)
  | [] => none
  | c :: s =>
      if c = ']' ∧ s.head? = some ':' then some ([c], s.drop 1)
      else (splitBracket s).map fun (host, port) => (c :: host, port)

/-- The host and the port of an authority; a bracketed host keeps its brackets. -/
def splitHostPort (authority : Str) : Str × Option Str :=
  if authority.head? = some '[' then
    match splitBracket authority with
    | some (host, port) => (host, some port)
    | none => (authority, none)
  else
    match rsplitOnce ':' authority with
    | some (host, port) => (host, some port)
    | none => (authority, none)

/-- Whether an address is `host:port`, and not a full URL. -/
def validateBackendAddress (k : Parsers) (address : Str) : Except Str Unit := do
  ensure (address ≠ []) "address is empty".toList
  ensure (!containsStr "://".toList address)
    "remove the scheme; expected host:port, not a full URL".toList
  ensure (!(address.contains '/' || address.contains '?' || address.contains '#'))
    "remove the path/query/fragment; expected host:port".toList
  ensure (!address.any isWhitespace) "address must not contain whitespace".toList
  let (host, port) := splitHostPort address
  ensure (host ≠ []) "address must include a host".toList
  match port with
  | none =>
      .error ("address must include a port (e.g. 127.0.0.1:8081), got '".toList ++ address ++ ['\''])
  | some port =>
      ensure (port ≠ [] && port.all Char.isDigit)
        ("address port must be numeric, got '".toList ++ address ++ ['\''])
      ensureParsed (k.uri ("http://".toList ++ address ++ ['/'])) fun e =>
        "invalid host:port '".toList ++ address ++ "': ".toList ++ e

/-- The check of every backend's address. -/
def validateAddresses (k : Parsers) : List (Str × BackendConfig) → Except Str Unit
  | [] => .ok ()
  | (name, backend) :: rest =>
      match validateBackendAddress k backend.address with
      | .error e =>
          .error ("backends.".toList ++ name ++
            ".address must be host:port (e.g. 127.0.0.1:8081): ".toList ++ e)
      | .ok () => validateAddresses k rest

/-- The sum of the configured weights, in `u32`. -/
def configuredWeight (backends : Assoc Str BackendConfig) : Nat :=
  backends.entries.foldl (fun acc e => u32 (acc + e.2.weight)) 0

/-- The check of the two backends of shadow mode. -/
def validateShadow (cfg : ProxyConfig) : Except Str Unit := do
  let primary := cfg.routing.primaryBackend
  let shadow := cfg.routing.shadowBackend
  ensure primary.isSome "routing.mode = shadow requires routing.primary_backend".toList
  ensure shadow.isSome "routing.mode = shadow requires routing.shadow_backend".toList
  ensure (primary ≠ shadow) "routing.primary_backend and routing.shadow_backend must differ".toList
  ensure (primary.any cfg.backends.contains)
    "routing.primary_backend names an unknown backend".toList
  ensure (shadow.any cfg.backends.contains)
    "routing.shadow_backend names an unknown backend".toList

def validate (k : Parsers) (cfg : ProxyConfig) : Except Str Unit := do
  ensure (cfg.backends.entries ≠ []) "at least one backend required".toList
  validateAddresses k cfg.backends.entries
  ensure (0 < configuredWeight cfg.backends) "at least one backend must have weight > 0".toList
  if cfg.routing.mode = .shadow then validateShadow cfg
  ensureParsed (k.socketAddr cfg.listen) fun e =>
    "listen must be host:port, e.g. 127.0.0.1:8080: ".toList ++ e
  ensureParsed (k.socketAddr cfg.metricsListen) fun e =>
    "metrics.listen must be host:port, e.g. 127.0.0.1:9100: ".toList ++ e

end Thttpd.Migrate
