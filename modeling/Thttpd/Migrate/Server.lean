/-
The proxy at work: `handle` and `handle_shadow` in
`rust/crates/thttpd-migrate/src/server.rs`, `decide` in `router.rs` and
`dispatch_shadow` in `shadow.rs`, for any number of requests at once.

A request is a task, and `Pc` is the place its code has come to: before the next call
of a breaker, or at an await.  `advance` is the text of the program: what a task does
next, as a `Move` that contains at most one breaker call.  A breaker call is one step
of the proxy, and between two steps of one task any other task may move, backends may
change health or weight, the configuration may be replaced, and time passes.

The server drops the future of a handler when its client goes away or when draining
runs out of time.  That can happen at every await of `handle` and `handle_shadow`.
The task that mirrors a request is detached and is never dropped.
-/
import Thttpd.Migrate.Shadow
import Thttpd.Lib.Lts

namespace Thttpd.Migrate

open Text

/--
Whether `path` matches an exclude pattern; one that ends in `*` matches what begins
with the rest of it.
-/
def isExcluded (path : Str) (patterns : List Str) : Bool :=
  patterns.any fun p =>
    if p.getLast? = some '*' then p.dropLast.isPrefixOf path else path == p

/-- What the user receives. -/
structure Reply where
  status : Nat
  headers : HeaderMap
  body : Body
  deriving DecidableEq, Repr

def plain (status : Nat) (text : String) : Reply := ⟨status, [], full (asBytes text.toList)⟩

def notFound : Reply := plain 404 "not found"

def backendUnavailable : Reply := plain 503 "no available backend"

def badGateway : Reply := plain 502 "bad gateway"

/-- `StatusCode::is_server_error`. -/
def isServerError (status : Nat) : Bool := 500 ≤ status && status < 600

def xRequestId : Str := "x-request-id".toList

/-- A request in progress and the configuration it was accepted under. -/
structure Job where
  req : Request
  /-- The identifier drawn for a request that brings none. -/
  freshId : Str
  routing : RoutingConfig
  maxBodyBytes : Nat

namespace Job

/-- The identifier the client sent, or the one drawn. -/
def requestId (job : Job) : Str :=
  (((job.req.headers.getAll xRequestId).head?).bind toStr).getD job.freshId

/-- The headers forwarded to a backend. -/
def headers (k : Crates) (job : Job) : List (Str × Str) :=
  ((forwardedHeaders k job.req.headers).filter fun h => !eqIgnoreAsciiCase h.1 xRequestId) ++
    [(xRequestId, job.requestId)]

def context (job : Job) : RequestContext := ⟨job.req.uri.path, job.req.method, job.requestId⟩

/-- The request for the backend at `addr`; `none` is a panic. -/
def rebuild (k : Crates) (job : Job) (headers : List (Str × Str)) (body : Body) (addr : Str) :
    Option ProxyRequest :=
  rebuildForBackendStreaming k job.req.uri job.req.method headers body addr

end Job

/-- The response to the user of a single backend; `none` is a panic. -/
def activeReply (job : Job) (resp : Response) : Option Reply :=
  match headerValue job.requestId with
  | some id => some ⟨resp.status, (stripHopByHop resp.headers).insert xRequestId id, resp.body⟩
  | none => none

/-- The captured headers as a map again. -/
def rebuildShadowResponseHeaders (captured : List (Str × Str)) (id : Bytes) : HeaderMap :=
  HeaderMap.insert
    (captured.foldl (fun m h =>
      if eqIgnoreAsciiCase h.1 xRequestId then m
      else match headerName h.1, headerValue h.2 with
        | some name, some value => HeaderMap.append m name value
        | _, _ => m) [])
    xRequestId id

/-- The response to the user in shadow mode; `none` is a panic. -/
def shadowReply (k : Crates) (job : Job) (resp : Response) (c : Capped) (rest : Body) :
    Option Reply :=
  match headerValue job.requestId with
  | some id =>
      some ⟨resp.status, rebuildShadowResponseHeaders (primaryHeaders k resp) id, chained c rest⟩
  | none => none

/-! ### The program of a task -/

/-- The place a task has come to. -/
inductive Pc where
  /-- `decide`: the backends not looked at yet, and the candidates so far. -/
  | filter (todo candidates : List Str)
  /-- `decide`: at the head of the loop. -/
  | draw (candidates : List Str)
  /-- `decide`: before the admission to the selected candidate. -/
  | admitSelected (candidates : List Str) (selected : Str)
  /-- `decide` in shadow mode: before looking at the primary. -/
  | primary
  | admitPrimary (name : Str)
  /-- `decide`: admitted, before looking at the shadow. -/
  | checkShadow (chosen : Str)
  /-- `handle`: before the request is rebuilt. -/
  | build (d : RoutingDecision)
  /-- `handle`: waiting for the backend. -/
  | forwarding (d : RoutingDecision) (sent : ProxyRequest)
  /-- `handle_shadow`: waiting for the request body. -/
  | readRequest (d : RoutingDecision) (shadow : Str)
  | buildPrimary (d : RoutingDecision) (shadow : Str) (c : Capped) (rest : Body)
  /-- `handle_shadow`: waiting for the primary. -/
  | forwardingPrimary (d : RoutingDecision) (shadow : Str) (body : Bytes) (sent : ProxyRequest)
  /-- `handle_shadow`: waiting for the body of the primary response. -/
  | readResponse (d : RoutingDecision) (shadow : Str) (body : Bytes) (resp : Response)
  /-- `handle_shadow`: before the mirror is spawned. -/
  | dispatch (m : Mirror) (success : Bool) (reply : Option Reply)
  /-- `handle_shadow`: before the outcome of the primary is recorded. -/
  | settle (backend : Str) (success : Bool) (reply : Option Reply)
  /-- The spawned task of `dispatch_shadow`: before its admission. -/
  | mirrorAdmit (m : Mirror)
  | mirrorBuild (m : Mirror)
  /-- `dispatch_shadow`: waiting for the shadow. -/
  | mirrorForwarding (m : Mirror) (sent : ProxyRequest)
  /-- `dispatch_shadow`: waiting for the body of the shadow response. -/
  | mirrorRead (m : Mirror) (resp : Response)
  /-- The handler has returned. -/
  | answered (reply : Reply)
  /-- The mirror has ended. -/
  | compared (divergences : List Divergence)
  /-- The task was dropped, or unwound by a panic. -/
  | gone

/-- What a task hears from outside. -/
inductive Input where
  /-- Nothing; or the await is over. -/
  | go
  /-- A random number. -/
  | pick (n : Nat)
  /-- The client's answer. -/
  | answer (result : Except Str Response)

/-- What a task does in one step. -/
inductive Move where
  | goto (pc : Pc)
  | breakerAdmit (name : Str) (admitted refused : Pc)
  | record (name : Str) (success : Bool) (pc : Pc)
  | release (name : Str) (pc : Pc)
  | spawn (child pc : Pc)
  /-- A panic unwinds the task. -/
  | unwind

/-- Where a handler goes with its reply; a reply that could not be made is a panic. -/
def Pc.reply : Option Reply → Pc
  | some r => .answered r
  | none => .gone

/-- The end of the filter. -/
def filtered (candidates : List Str) : Pc :=
  if candidates = [] then .answered backendUnavailable else .draw candidates

/-- One round of the loop: a draw below the total weight selects a candidate. -/
def drawStep (p : BackendPool) (candidates : List Str) (n : Nat) : Option Move :=
  if totalWeight p candidates = 0 then some (.goto (.answered backendUnavailable))
  else if n < totalWeight p candidates then
    match select p candidates n with
    | some name => some (.goto (.admitSelected candidates name))
    | none => some (.goto (.answered backendUnavailable))
  else none

/-- After a lost admission the loop goes on with the other candidates. -/
def retry (candidates : List Str) (selected : Str) : Pc :=
  filtered (candidates.filter fun name => name ≠ selected)

def primaryStep (p : BackendPool) (now : Nat) (routing : RoutingConfig) : Move :=
  match eligiblePrimary p now routing with
  | some name => .goto (.admitPrimary name)
  | none => .goto (.answered backendUnavailable)

/-- The decision is made; with a shadow the handler continues in `handle_shadow`. -/
def decided (p : BackendPool) (now : Nat) (job : Job) (chosen : Str) : Pc :=
  match eligibleShadow p now job.routing chosen with
  | some shadow => .readRequest ⟨chosen, some shadow, job.requestId⟩ shadow
  | none => .build ⟨chosen, none, job.requestId⟩

/-- `forward` refuses before it asks the client when the decision's backend is not routable. -/
def buildStep (k : Crates) (p : BackendPool) (job : Job) (d : RoutingDecision) : Move :=
  match job.rebuild k (job.headers k) job.req.body (p.address d.backend) with
  | none => .unwind
  | some sent =>
      if p.isRoutable d.backend then .goto (.forwarding d sent)
      else .record d.backend false (.answered badGateway)

def forwardingStep (job : Job) (d : RoutingDecision) : Except Str Response → Move
  | .ok resp =>
      match activeReply job resp with
      | some r => .record d.backend (!isServerError resp.status) (.answered r)
      | none => .unwind
  | .error _ => .record d.backend false (.answered badGateway)

def readRequestStep (job : Job) (d : RoutingDecision) (shadow : Str) : Move :=
  match readCapped job.maxBodyBytes job.req.body with
  | (.ok c, rest) => .goto (.buildPrimary d shadow c rest)
  | (.error _, _) => .record d.backend false (.answered badGateway)

def buildPrimaryStep (k : Crates) (p : BackendPool) (job : Job) (d : RoutingDecision)
    (shadow : Str) (c : Capped) (rest : Body) : Move :=
  match job.rebuild k (job.headers k) (chained c rest) (p.address d.backend) with
  | none => .unwind
  | some sent =>
      if p.isRoutable d.backend then .goto (.forwardingPrimary d shadow c.buffered sent)
      else .record d.backend false (.answered badGateway)

def forwardingPrimaryStep (d : RoutingDecision) (shadow : Str) (body : Bytes) :
    Except Str Response → Move
  | .ok resp => .goto (.readResponse d shadow body resp)
  | .error _ => .record d.backend false (.answered badGateway)

/-- The primary response as it is handed to the mirror. -/
def captured (k : Crates) (resp : Response) (c : Capped) : Captured :=
  ⟨resp.status, primaryHeaders k resp, c.buffered, c.truncated⟩

def readResponseStep (k : Crates) (job : Job) (d : RoutingDecision) (shadow : Str) (body : Bytes)
    (resp : Response) : Move :=
  match readCapped job.maxBodyBytes resp.body with
  | (.ok c, rest) =>
      .goto (.dispatch ⟨d, shadow, job.headers k, body, captured k resp c⟩
        (!isServerError resp.status) (shadowReply k job resp c rest))
  | (.error _, _) => .record d.backend false (.answered badGateway)

/-- The primary's routability is tested here too, and its failure charged to nobody. -/
def mirrorBuildStep (k : Crates) (p : BackendPool) (job : Job) (m : Mirror) : Move :=
  match rebuildForBackend k job.req.uri job.req.method
      (shadowHeadersForBody m.headers m.body.length) m.body (p.address m.shadow) with
  | none => .unwind
  | some sent =>
      if p.isRoutable m.decision.backend then .goto (.mirrorForwarding m sent)
      else .release m.shadow (.compared
        [lifecycle "ok".toList ("error: ".toList ++ ForwardError.notRoutable.text) job.context])

def mirrorForwardingStep (job : Job) (m : Mirror) : Except Str Response → Move
  | .ok resp => .goto (.mirrorRead m resp)
  | .error e =>
      .record m.shadow false (.compared
        [lifecycle "ok".toList ("error: ".toList ++ (ForwardError.request e).text) job.context])

def mirrorReadStep (k : Crates) (job : Job) (m : Mirror) (resp : Response) : Move :=
  match readCapped job.maxBodyBytes resp.body with
  | (.ok c, _) =>
      .record m.shadow (!isServerError resp.status) (.compared (compareShadow k m job.context resp c))
  | (.error e, _) =>
      .record m.shadow false (.compared
        [lifecycle "complete response body".toList ("body read error: ".toList ++ e) job.context])

/-- What a task does next. -/
def advance (k : Crates) (p : BackendPool) (now : Nat) (job : Job) : Pc → Input → Option Move
  | .filter [] candidates, .go => some (.goto (filtered candidates))
  | .filter (name :: todo) candidates, .go =>
      some (.goto (.filter todo
        (if isCandidate p now name then candidates ++ [name] else candidates)))
  | .draw candidates, .pick n => drawStep p candidates n
  | .admitSelected candidates selected, .go =>
      some (.breakerAdmit selected (.checkShadow selected) (retry candidates selected))
  | .primary, .go => some (primaryStep p now job.routing)
  | .admitPrimary name, .go =>
      some (.breakerAdmit name (.checkShadow name) (.answered backendUnavailable))
  | .checkShadow chosen, .go => some (.goto (decided p now job chosen))
  | .build d, .go => some (buildStep k p job d)
  | .forwarding d _, .answer result => some (forwardingStep job d result)
  | .readRequest d shadow, .go => some (readRequestStep job d shadow)
  | .buildPrimary d shadow c rest, .go => some (buildPrimaryStep k p job d shadow c rest)
  | .forwardingPrimary d shadow body _, .answer result =>
      some (forwardingPrimaryStep d shadow body result)
  | .readResponse d shadow body resp, .go => some (readResponseStep k job d shadow body resp)
  | .dispatch m success reply, .go =>
      some (.spawn (.mirrorAdmit m) (.settle m.decision.backend success reply))
  | .settle backend success reply, .go => some (.record backend success (Pc.reply reply))
  | .mirrorAdmit m, .go => some (.breakerAdmit m.shadow (.mirrorBuild m) (.compared []))
  | .mirrorBuild m, .go => some (mirrorBuildStep k p job m)
  | .mirrorForwarding m _, .answer result => some (mirrorForwardingStep job m result)
  | .mirrorRead m resp, .go => some (mirrorReadStep k job m resp)
  | _, _ => none

/-- Where `handle` begins. -/
def begin (p : BackendPool) (job : Job) : Pc :=
  if isExcluded job.req.uri.path job.routing.excludePaths then .answered notFound
  else if job.routing.mode = .shadow then .primary
  else .filter (p.backends.map Backend.name) []

/-- A handler that waits, and may therefore be dropped. -/
def Pc.droppable : Pc → Bool
  | .forwarding .. | .readRequest .. | .forwardingPrimary .. | .readResponse .. => true
  | _ => false

/-! ### The proxy -/

structure Task where
  job : Job
  pc : Pc

/-- A task keeps its number; one that has ended keeps its last place. -/
structure Proxy where
  pool : BackendPool
  now : Nat
  routing : RoutingConfig
  maxBodyBytes : Nat
  tasks : List Task

/-- What can happen. -/
inductive Label where
  | tick (nanos : Nat)
  | setHealth (name : Str) (h : Health)
  | setWeight (name : Str) (w : Nat)
  | configure (routing : RoutingConfig)
  | request (req : Request) (freshId : Str)
  | run (t : Nat) (i : Input)
  | drop (t : Nat)

namespace Proxy

/-- Task `t` has come to `pc`. -/
def setPc (s : Proxy) (t : Nat) (job : Job) (pc : Pc) : Proxy :=
  { s with tasks := s.tasks.set t ⟨job, pc⟩ }

/-- A new task. -/
def spawn (s : Proxy) (job : Job) (pc : Pc) : Proxy :=
  { s with tasks := s.tasks ++ [⟨job, pc⟩] }

/-- Let task `t` make a move. -/
def perform (s : Proxy) (t : Nat) (job : Job) : Move → Proxy
  | .goto pc => s.setPc t job pc
  | .breakerAdmit name admitted refused =>
      let (ok, pool) := s.pool.breakerAdmit s.now name
      { s with pool }.setPc t job (if ok then admitted else refused)
  | .record name success pc =>
      { s with pool := s.pool.recordOutcome s.now name success }.setPc t job pc
  | .release name pc =>
      { s with pool := s.pool.breakerReleaseProbe s.now name }.setPc t job pc
  | .spawn child pc => (s.setPc t job pc).spawn job child
  | .unwind => s.setPc t job .gone

/-- What task `t` does next. -/
def moveOf (k : Crates) (s : Proxy) (t : Nat) (i : Input) : Option (Job × Move) :=
  match s.tasks[t]? with
  | some task => (advance k s.pool s.now task.job task.pc i).map fun m => (task.job, m)
  | none => none

/-- One step. -/
def step (k : Crates) (s : Proxy) : Label → Option Proxy
  | .tick nanos => some { s with now := s.now + nanos }
  | .setHealth name h => some { s with pool := s.pool.setBackend name ({ · with health := h }) }
  | .setWeight name w => some { s with pool := s.pool.setBackend name ({ · with weight := w }) }
  | .configure routing => some { s with routing }
  | .request req freshId =>
      let job : Job := ⟨req, freshId, s.routing, s.maxBodyBytes⟩
      some (s.spawn job (begin s.pool job))
  | .run t i => (moveOf k s t i).map fun (job, m) => s.perform t job m
  | .drop t =>
      match s.tasks[t]? with
      | some task => if task.pc.droppable then some (s.setPc t task.job .gone) else none
      | none => none

/-- A proxy that has just been started. -/
def start (backends : List (Str × Str × Nat)) (cfg : CircuitConfig) (routing : RoutingConfig)
    (maxBodyBytes now : Nat) : Proxy :=
  ⟨BackendPool.withBreakerCfg backends cfg now, now, routing, maxBodyBytes, []⟩

end Proxy

end Thttpd.Migrate
