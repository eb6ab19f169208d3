/-
Shadow mode: `rust/crates/thttpd-migrate/src/shadow.rs`, and the capture of the
primary response in `handle_shadow` of `server.rs`.

A response is captured twice by different code: the primary's after its hop-by-hop
headers have been stripped, the shadow's as it comes.
-/
import Thttpd.Migrate.Router
import Thttpd.Migrate.Diff

namespace Thttpd.Migrate

open Text

/-- What `read_capped` has read. -/
structure Capped where
  buffered : Bytes
  /-- The rest of the frame that crossed the cap. -/
  tail : Option Bytes
  truncated : Bool
  deriving DecidableEq, Repr

/-- Read frames after `buf`; also what is left of the stream. -/
def readCappedFrom (maxBytes : Nat) : Bytes → Body → Except Str Capped × Body
  | buf, [] => (.ok ⟨buf, none, false⟩, [])
  | _, .error e :: rest => (.error e, rest)
  | buf, .trailers :: rest => readCappedFrom maxBytes buf rest
  | buf, .data d :: rest =>
      if buf.length + d.length ≤ maxBytes then readCappedFrom maxBytes (buf ++ d) rest
      else
        let remaining := maxBytes - buf.length
        (.ok ⟨buf ++ d.take remaining, some (d.drop remaining), true⟩, rest)

/-- Read up to `maxBytes` of a body. -/
def readCapped (maxBytes : Nat) (body : Body) : Except Str Capped × Body :=
  readCappedFrom maxBytes [] body

/-- The body of a request or a response of which only `c` was buffered. -/
def chained (c : Capped) (rest : Body) : Body :=
  if c.truncated then
    ([c.buffered, c.tail.getD []].filter (· ≠ [])).map Frame.data ++ rest
  else full c.buffered

/-- The headers of a mirrored request, whose length is that of the buffered body. -/
def shadowHeadersForBody (headers : List (Str × Str)) (bodyLen : Nat) : List (Str × Str) :=
  (headers.filter fun h =>
    !eqIgnoreAsciiCase h.1 "content-length".toList &&
      !eqIgnoreAsciiCase h.1 "transfer-encoding".toList) ++
    [("content-length".toList, natStr bodyLen)]

/-- A header map as the comparison collects it. -/
def collectHeaders (k : Crates) (m : HeaderMap) : List (Str × Str) := (k.iter m).map toPair

/-- The headers of the primary response that are compared and returned to the user. -/
def primaryHeaders (k : Crates) (resp : Response) : List (Str × Str) :=
  collectHeaders k (stripHopByHop resp.headers)

/-- The headers of the shadow response that are compared. -/
def shadowHeaders (k : Crates) (resp : Response) : List (Str × Str) :=
  collectHeaders k resp.headers

/-- What `handle_shadow` passes to `dispatch_shadow`. -/
structure Mirror where
  decision : RoutingDecision
  shadow : Str
  headers : List (Str × Str)
  body : Bytes
  primary : Captured
  deriving DecidableEq, Repr

/-- What went wrong with a mirrored request as a divergence. -/
def lifecycle (expected actual : Str) (ctx : RequestContext) : Divergence :=
  .new .connectionLifecycle expected actual ctx

/-- The comparison with the response of the shadow, whose body has been read. -/
def compareShadow (k : Crates) (m : Mirror) (ctx : RequestContext) (resp : Response)
    (c : Capped) : List Divergence :=
  diffResponses k m.primary ⟨resp.status, shadowHeaders k resp, c.buffered, c.truncated⟩ ctx

/-! ### Reading a body that fits -/

/-- The data of a body. -/
def dataOf : Body → Bytes
  | [] => []
  | .data d :: rest => d ++ dataOf rest
  | _ :: rest => dataOf rest

/-- A body that no error ends. -/
def Complete (body : Body) : Prop := ∀ e, Frame.error e ∉ body

/-- A body that fits is read whole, however it is cut into frames. -/
theorem readCappedFrom_of_fits {cap : Nat} {body : Body} (hok : Complete body) :
    ∀ buf : Bytes, buf.length + (dataOf body).length ≤ cap →
      readCappedFrom cap buf body = (.ok ⟨buf ++ dataOf body, none, false⟩, []) := by
  induction body with
  | nil => intro buf _; simp [readCappedFrom, dataOf]
  | cons f rest ih =>
      have hrest : Complete rest := fun e he => hok e (List.mem_cons_of_mem _ he)
      intro buf hlen
      cases f with
      | data d =>
          rw [dataOf, List.length_append] at hlen
          rw [readCappedFrom, if_pos (by omega), ih hrest (buf ++ d) (by simp; omega), dataOf,
            List.append_assoc]
      | trailers => exact ih hrest buf hlen
      | error e => exact absurd List.mem_cons_self (hok e)

theorem readCapped_of_fits {cap : Nat} {body : Body} (hok : Complete body)
    (hlen : (dataOf body).length ≤ cap) :
    readCapped cap body = (.ok ⟨dataOf body, none, false⟩, []) := by
  have h := readCappedFrom_of_fits hok [] (by simpa using hlen)
  simpa [readCapped] using h

end Thttpd.Migrate
