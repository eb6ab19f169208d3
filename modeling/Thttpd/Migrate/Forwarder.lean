/-
Requests and responses as the proxy forwards them:
`rust/crates/thttpd-migrate/src/forwarder.rs`.

`HeaderMap` is the multimap of the `http` crate: names that compare byte for byte,
because that crate lower-cases them, and for each name its values.  The order in
which such a map is iterated is documented to be arbitrary, so it is a parameter,
together with the other answers that come from outside the proxy: which URIs parse,
and the digest of a body.
-/
import Thttpd.Platform

namespace Thttpd.Migrate

open Text

abbrev HeaderMap := List (Str × Bytes)

/-- The functions of other crates the proxy calls. -/
structure Crates where
  /-- The entries of a header map in the order of its iterator. -/
  iter : HeaderMap → HeaderMap
  iter_perm : ∀ m, (iter m).Perm m
  /-- Whether a string parses as a `Uri`. -/
  parsesUri : Str → Bool
  /-- SHA-256. -/
  sha256 : Bytes → Bytes

/--
The crates as they behave on a request for `/` at `127.0.0.1:8080` whose bodies are
empty.
-/
def Crates.sample : Crates where
  iter := id
  iter_perm := List.Perm.refl
  parsesUri := fun _ => true
  sha256 := fun _ =>
    [0xe3, 0xb0, 0xc4, 0x42, 0x98, 0xfc, 0x1c, 0x14, 0x9a, 0xfb, 0xf4, 0xc8, 0x99, 0x6f, 0xb9, 0x24,
     0x27, 0xae, 0x41, 0xe4, 0x64, 0x9b, 0x93, 0x4c, 0xa4, 0x95, 0x99, 0x1b, 0x78, 0x52, 0xb8, 0x55]

namespace HeaderMap

def getAll (m : HeaderMap) (name : Str) : List Bytes :=
  (m.filter fun h => h.1 = name).map Prod.snd

def containsKey (m : HeaderMap) (name : Str) : Bool := m.any fun h => h.1 = name

def remove (m : HeaderMap) (name : Str) : HeaderMap := m.filter fun h => h.1 ≠ name

/-- Set the one value of a name. -/
def insert (m : HeaderMap) (name : Str) (value : Bytes) : HeaderMap :=
  m.remove name ++ [(name, value)]

/-- Add a value to a name. -/
def append (m : HeaderMap) (name : Str) (value : Bytes) : HeaderMap := m ++ [(name, value)]

end HeaderMap

/-- `HeaderValue::to_str`: a value of visible characters and tabs is text. -/
def toStr (value : Bytes) : Option Str :=
  if value.all fun b => (0x20 ≤ b && b < 0x7F) || b == 0x09 then
    some (value.map fun b => Char.ofNat b.toNat)
  else none

/-- A name and a value as text; a value that is none becomes empty. -/
def toPair (h : Str × Bytes) : Str × Str := (h.1, (toStr h.2).getD [])

/-- A character a header name may consist of. -/
def isTokenChar (c : Char) : Bool :=
  c.isAlphanum || "!#$%&'*+-.^_`|~".toList.contains c

/-- `HeaderName::from_str`. -/
def headerName (s : Str) : Option Str :=
  if s ≠ [] ∧ s.length < 65536 ∧ s.all isTokenChar then some (asciiLower s) else none

/-- `HeaderValue::from_str`. -/
def headerValue (s : Str) : Option Bytes :=
  let bytes := asBytes s
  if bytes.all fun b => (0x20 ≤ b && b != 0x7F) || b == 0x09 then some bytes else none

/-- Hop-by-hop headers, which must not be forwarded across a proxy hop. -/
def hopByHop : List Str :=
  ["connection".toList, "keep-alive".toList, "proxy-authenticate".toList,
   "proxy-authorization".toList, "te".toList, "trailer".toList,
   "transfer-encoding".toList, "upgrade".toList]

def isHopByHop (name : Str) : Bool := hopByHop.any fun h => eqIgnoreAsciiCase h name

/-- The names listed by the `Connection` fields, lower-cased. -/
def connectionTokens (m : HeaderMap) : List Str :=
  (((m.getAll "connection".toList).filterMap toStr).flatMap fun s =>
    (s.splitOn ',').map fun t => asciiLower (trim t)).filter fun t => t ≠ []

/-- The headers of a request that are forwarded. -/
def forwardedHeaders (k : Crates) (m : HeaderMap) : List (Str × Str) :=
  ((k.iter m).filter fun h =>
    !isHopByHop h.1 && !(connectionTokens m).contains (asciiLower h.1)).map toPair

/-- Strip hop-by-hop headers from a response, first those the `Connection` fields list. -/
def stripHopByHop (m : HeaderMap) : HeaderMap :=
  let connectionListed := ((connectionTokens m).filterMap headerName).filter m.containsKey
  let m := connectionListed.foldl HeaderMap.remove m
  let toRemove := (m.map Prod.fst).filter isHopByHop
  toRemove.foldl HeaderMap.remove m

structure Uri where
  path : Str
  pathAndQuery : Option Str
  deriving DecidableEq, Repr

/-- One item of a body stream: data, trailers, or the error that ends it. -/
inductive Frame where
  | data (bytes : Bytes)
  | trailers
  | error (text : Str)
  deriving DecidableEq, Repr

/-- What is left of a body stream. -/
abbrev Body := List Frame

/-- A buffered body; an empty one has no frame. -/
def full (bytes : Bytes) : Body := if bytes = [] then [] else [.data bytes]

/-- Buffered chunks and a stream that is read after them. -/
structure ChainedBody where
  chunks : List Bytes
  rest : Option Body

namespace ChainedBody

/-- Empty chunks are skipped. -/
def new (chunks : List Bytes) (rest : Option Body) : ChainedBody := ⟨chunks.filter (· ≠ []), rest⟩

/-- The next frame, if there is one, and the body after it. -/
def pollFrame (b : ChainedBody) : Option Frame × ChainedBody :=
  match b.chunks with
  | chunk :: chunks => (some (.data chunk), ⟨chunks, b.rest⟩)
  | [] =>
      match b.rest with
      | some (frame :: frames) => (some frame, ⟨[], some frames⟩)
      | _ => (none, b)

end ChainedBody

structure Request where
  method : Str
  uri : Uri
  headers : HeaderMap
  body : Body

structure Response where
  status : Nat
  headers : HeaderMap
  body : Body

/-- A request on its way to a backend. -/
structure ProxyRequest where
  method : Str
  uri : Str
  headers : List (Str × Str)
  body : Body

/-- The headers of a rebuilt request; a `Host` is added when there is none. -/
def rebuiltHeaders (headers : List (Str × Str)) (backendAddr : Str) : List (Str × Str) :=
  let kept := headers.filter fun h => !isHopByHop h.1
  if kept.any fun h => eqIgnoreAsciiCase h.1 "host".toList then kept
  else kept ++ [("host".toList, backendAddr)]

/-- Whether the request builder accepts a header. -/
def buildable (h : Str × Str) : Bool := (headerName h.1).isSome && (headerValue h.2).isSome

/--
Rebuild a request for the backend at `backendAddr`; `none` is the panic of one of
the two `expect`s.
-/
def rebuildForBackendStreaming (k : Crates) (uri : Uri) (method : Str)
    (headers : List (Str × Str)) (body : Body) (backendAddr : Str) : Option ProxyRequest :=
  let target := "http://".toList ++ backendAddr ++ uri.pathAndQuery.getD ['/']
  let rebuilt := rebuiltHeaders headers backendAddr
  if k.parsesUri target = true ∧ rebuilt.all buildable = true then
    some ⟨method, target, rebuilt, body⟩
  else none

/-- The same with a buffered body. -/
def rebuildForBackend (k : Crates) (uri : Uri) (method : Str) (headers : List (Str × Str))
    (body : Bytes) (backendAddr : Str) : Option ProxyRequest :=
  rebuildForBackendStreaming k uri method headers (full body) backendAddr

inductive ForwardError where
  /-- The client's error, as it prints. -/
  | request (text : Str)
  | notRoutable
  deriving DecidableEq, Repr

def ForwardError.text : ForwardError → Str
  | .request e => "backend request failed: ".toList ++ e
  | .notRoutable => "backend not routable".toList

/-! ### What is stripped -/

theorem foldl_remove (names : List Str) (m : HeaderMap) :
    names.foldl HeaderMap.remove m = m.filter fun h => h.1 ∉ names := by
  induction names generalizing m with
  | nil => simp
  | cons n names ih =>
      rw [List.foldl_cons, ih, HeaderMap.remove, List.filter_filter]
      refine List.filter_congr ?_
      intro h _
      by_cases hn : h.1 = n <;> simp [hn]

/-- No hop-by-hop header is left. -/
theorem not_isHopByHop_of_mem_strip {m : HeaderMap} {h : Str × Bytes}
    (hmem : h ∈ stripHopByHop m) : isHopByHop h.1 = false := by
  simp only [stripHopByHop, foldl_remove] at hmem
  obtain ⟨hin, hnot⟩ := List.mem_filter.mp hmem
  by_contra hc
  have hlist := of_decide_eq_true hnot
  exact hlist (List.mem_filter.mpr ⟨List.mem_map_of_mem hin, by simpa using hc⟩)

/--
A map without hop-by-hop headers is left as it is: what a `Connection` field lists
needs that field.
-/
theorem strip_of_clean {m : HeaderMap} (hclean : ∀ h ∈ m, isHopByHop h.1 = false) :
    stripHopByHop m = m := by
  have hconn : m.getAll "connection".toList = [] := by
    unfold HeaderMap.getAll
    rw [List.map_eq_nil_iff, List.filter_eq_nil_iff]
    intro h hmem hname
    have hname' : h.1 = "connection".toList := of_decide_eq_true hname
    have := hclean h hmem
    rw [hname'] at this
    revert this
    decide
  have hlisted : connectionTokens m = [] := by
    unfold connectionTokens
    rw [hconn]
    rfl
  have hhop : (m.map Prod.fst).filter isHopByHop = [] := by
    rw [List.filter_eq_nil_iff]
    intro n hn
    obtain ⟨h, hmem, rfl⟩ := List.mem_map.mp hn
    simp [hclean h hmem]
  simp [stripHopByHop, hlisted, hhop]

end Thttpd.Migrate
