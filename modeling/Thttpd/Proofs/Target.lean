/-
What a request target can do to the proxy.

The proxy looks at a target twice.  It compares the path, as the client spelled it, with
the exclude patterns, while the backend decodes and cleans the path it is given.  And it
appends path and query to the address of the backend, which is right for a text that begins
with a slash or a question mark, and not for the asterisk of `OPTIONS *`.
-/
import Thttpd.Http.Url
import Thttpd.Migrate.Server
import Thttpd.Proofs.Control

namespace Thttpd.Migrate

open Text

/-! ### Excluded paths -/

/-- The path thttpd serves for a request target; `none` if it refuses. -/
def servedPath (uri : Uri) : Option Str := normalizePath (percentDecode uri.path)

/-- Every pattern that matches one path matches the other. -/
theorem excluded_imp_iff {served path : Str} :
    (∀ patterns, isExcluded served patterns = true → isExcluded path patterns = true) ↔
      path = served ∨ (served.getLast? = some '*' ∧ served <+: path) := by
  constructor
  · intro h
    by_cases hstar : served.getLast? = some '*'
    · -- The pattern that matches what begins with the served path.
      have hlast : (served ++ ['*']).getLast? = some '*' := by simp
      have hmatch := h [served ++ ['*']] (by simp [isExcluded])
      simp only [isExcluded, List.any_cons, List.any_nil, Bool.or_false, if_pos hlast,
        List.dropLast_concat, List.isPrefixOf_iff_prefix] at hmatch
      exact .inr ⟨hstar, hmatch⟩
    · -- The pattern that is the served path.
      have hmatch := h [served] (by simp [isExcluded, hstar])
      simp only [isExcluded, List.any_cons, List.any_nil, Bool.or_false, if_neg hstar,
        beq_iff_eq] at hmatch
      exact .inl hmatch
  · rintro (rfl | ⟨hstar, hstart⟩) patterns hserved
    · exact hserved
    · unfold isExcluded at hserved ⊢
      obtain ⟨p, hp, hmatch⟩ := List.any_eq_true.mp hserved
      refine List.any_eq_true.mpr ⟨p, hp, ?_⟩
      by_cases hwild : p.getLast? = some '*'
      · rw [if_pos hwild, List.isPrefixOf_iff_prefix] at hmatch ⊢
        exact hmatch.trans hstart
      · rw [if_neg hwild, beq_iff_eq] at hmatch
        rw [← hmatch] at hwild
        exact absurd hstar hwild

/-- The handler answers at once exactly when the path as it was spelled is excluded. -/
theorem begin_eq_notFound_iff {p : BackendPool} {job : Job} :
    begin p job = .answered notFound ↔ isExcluded job.req.uri.path job.routing.excludePaths = true := by
  unfold begin
  by_cases hex : isExcluded job.req.uri.path job.routing.excludePaths = true
  · simp [hex]
  · by_cases hmode : job.routing.mode = .shadow
    · simp [hex, hmode]
    · simp [hex, hmode]

/--
**Excluded paths are excluded as the backend sees them exactly when the client
spells the path as the backend serves it**, or begins with a served path that ends
in an asterisk.  For every request and every configuration but its exclude patterns.

Both directions are over all lists of patterns: for a path that is spelled otherwise
a list is given that excludes it only as it is served.
-/
theorem excluded_as_served_iff (p : BackendPool) (job : Job) :
    (∀ patterns served, servedPath job.req.uri = some served → isExcluded served patterns = true →
      begin p { job with routing := { job.routing with excludePaths := patterns } }
        = .answered notFound) ↔
    ∀ served, servedPath job.req.uri = some served →
      job.req.uri.path = served ∨ (served.getLast? = some '*' ∧ served <+: job.req.uri.path) := by
  simp only [begin_eq_notFound_iff]
  constructor
  · intro h served hserved
    exact excluded_imp_iff.mp fun patterns => h patterns served hserved
  · intro h patterns served hserved
    exact excluded_imp_iff.mpr (h served hserved) patterns

/-- A request for `path` in active mode, with `/metrics` excluded. -/
def metricsJob (path : String) : Job :=
  ⟨⟨"GET".toList, ⟨path.toList, some path.toList⟩, [], []⟩, "id".toList,
    ⟨.activeActive, none, none, ["/metrics".toList]⟩, 1048576⟩

/-- Spelled as it is served, the path is excluded as the backend sees it. -/
theorem spelled_as_served :
    servedPath (metricsJob "/metrics").req.uri = some (metricsJob "/metrics").req.uri.path ∧
    ∀ p : BackendPool, begin p (metricsJob "/metrics") = .answered notFound := by
  refine ⟨by decide +kernel, fun p => ?_⟩
  exact begin_eq_notFound_iff.mpr (by decide +kernel)

/--
**An escape gets past an exclude pattern.**  The backend serves `/metrics` for
`/%6detrics`, and the proxy goes on to look for a backend.

The pattern is compared with the path as it was sent, and the escape is resolved by
the backend.
-/
theorem escape_not_excluded :
    servedPath (metricsJob "/%6detrics").req.uri = some "/metrics".toList ∧
    isExcluded "/metrics".toList (metricsJob "/%6detrics").routing.excludePaths = true ∧
    ∀ p : BackendPool, begin p (metricsJob "/%6detrics") = .filter (p.backends.map Backend.name) [] := by
  refine ⟨by decide +kernel, by decide +kernel, ?_⟩
  intro p
  have hraw : isExcluded (metricsJob "/%6detrics").req.uri.path
      (metricsJob "/%6detrics").routing.excludePaths = false := by decide +kernel
  unfold begin
  rw [hraw]
  rfl

/-! ### The backend's URI -/

/-- What ends an authority. -/
def endsAuthority (c : Char) : Bool := c == '/' || c == '?' || c == '#'

/-- The authority of a URI with the scheme `http`, and what comes after it. -/
def authorityOf (uri : Str) : Str := (uri.drop "http://".length).takeWhile fun c => !endsAuthority c
def afterAuthority (uri : Str) : Str := (uri.drop "http://".length).dropWhile fun c => !endsAuthority c

/--
Path and query of a target that has a path: they begin with a slash, or the path is
empty and there is a query.
-/
def Rooted (pathAndQuery : Str) : Prop :=
  pathAndQuery.head? = some '/' ∨ pathAndQuery.head? = some '?'

/-- The forms of a request target. -/
inductive Target where
  /-- `/path?query`. -/
  | origin (pathAndQuery : Str) (rooted : pathAndQuery.head? = some '/')
  /-- `http://host/path?query`; `none` if nothing follows the host. -/
  | absolute (pathAndQuery : Option Str) (rooted : ∀ pq ∈ pathAndQuery, Rooted pq)
  /-- `host:port`, of `CONNECT`. -/
  | authority
  /-- `*`, of `OPTIONS`. -/
  | asterisk

namespace Target

/--
What `Uri::path_and_query` and `as_str` make of a target: the asterisk counts as a
path, an empty path with no query is a slash, and an authority has neither.
-/
def pathAndQuery : Target → Option Str
  | origin pq _ => some pq
  | absolute pq _ => some (pq.getD ['/'])
  | authority => none
  | asterisk => some ['*']

/-- `Uri::path`: the text before the query; an empty path is a slash. -/
def path : Target → Str
  | origin pq _ => pq.takeWhile (· ≠ '?')
  | absolute pq _ =>
      match pq.getD ['/'] with
      | '?' :: _ => ['/']
      | pq => pq.takeWhile (· ≠ '?')
  | authority => []
  | asterisk => ['*']

def uri (t : Target) : Uri := ⟨t.path, t.pathAndQuery⟩

/-- The path and query of the inbound request, a slash if there is none. -/
def inbound (t : Target) : Str := t.pathAndQuery.getD ['/']

end Target

/-- The longest text the `http` crate parses as a `Uri`. -/
def maxUriLen : Nat := 65534

/--
How the parser of the `http` crate takes an absolute URI apart: the authority goes
as far as the next delimiter, and the URI parses when both parts do and it is not
too long.
-/
structure UriGrammar (parses : Str → Bool) where
  authority : Str → Prop
  pathAndQuery : Str → Prop
  parses_iff : ∀ a pq, (∀ c ∈ a, endsAuthority c = false) → Rooted pq →
    (parses ("http://".toList ++ a ++ pq) = true ↔
      authority a ∧ pathAndQuery pq ∧ byteLen ("http://".toList ++ a ++ pq) ≤ maxUriLen)

/-- The server accepts the path and query of a target. -/
def Target.Accepted {parses : Str → Bool} (g : UriGrammar parses) : Target → Prop
  | .origin pq _ => g.pathAndQuery pq
  | .absolute pq _ => ∀ x ∈ pq, g.pathAndQuery x
  | _ => True

theorem byteLen_append (s t : Str) : byteLen (s ++ t) = byteLen s + byteLen t := by
  have hacc : ∀ (s : Str) (n : Nat), s.foldl (fun n c => n + c.utf8Size) n = n + byteLen s := by
    intro s
    induction s with
    | nil =>
        intro n
        rfl
    | cons c s ih =>
        intro n
        simp only [byteLen, List.foldl_cons]
        rw [ih, ih (0 + c.utf8Size)]
        omega
  show (s ++ t).foldl (fun n c => n + c.utf8Size) 0 = _
  rw [List.foldl_append, hacc t]
  rfl

/-- An address that passed validation has no delimiter, and parses as an authority. -/
theorem validateBackendAddress_spec {k : Parsers} {address : Str}
    (h : validateBackendAddress k address = .ok ()) :
    (∀ c ∈ address, endsAuthority c = false) ∧
      k.uri ("http://".toList ++ address ++ ['/']) = none := by
  unfold validateBackendAddress at h
  obtain ⟨-, h⟩ := of_ensure h
  obtain ⟨-, h⟩ := of_ensure h
  obtain ⟨hdelim, h⟩ := of_ensure h
  obtain ⟨-, h⟩ := of_ensure h
  obtain ⟨-, h⟩ := of_ensure h
  constructor
  · intro c hc
    have hnot : ∀ d : Char, address.contains d = false → c ≠ d := by
      rintro d hd rfl
      simp [hc] at hd
    simp only [Bool.not_eq_true', Bool.or_eq_false_iff] at hdelim
    obtain ⟨⟨h₁, h₂⟩, h₃⟩ := hdelim
    simp [endsAuthority, hnot _ h₁, hnot _ h₂, hnot _ h₃]
  · split at h
    · cases h
    · obtain ⟨-, h⟩ := of_ensure h
      unfold ensureParsed at h
      split at h
      · assumption
      · cases h

section Authority

variable {a pq : Str}

theorem authorityOf_append (ha : ∀ c ∈ a, endsAuthority c = false) (pq : Str) :
    authorityOf ("http://".toList ++ a ++ pq) = a ++ pq.takeWhile fun c => !endsAuthority c := by
  unfold authorityOf
  rw [List.append_assoc]
  show (a ++ pq).takeWhile _ = _
  exact List.takeWhile_append_of_pos fun c hc => by simp [ha c hc]

theorem afterAuthority_append (ha : ∀ c ∈ a, endsAuthority c = false) (pq : Str) :
    afterAuthority ("http://".toList ++ a ++ pq) = pq.dropWhile fun c => !endsAuthority c := by
  unfold afterAuthority
  rw [List.append_assoc]
  show (a ++ pq).dropWhile _ = _
  exact List.dropWhile_append_of_pos fun c hc => by simp [ha c hc]

/-- Before a delimiter, nothing is added to the authority. -/
theorem Rooted.split (h : Rooted pq) :
    (pq.takeWhile fun c => !endsAuthority c) = [] ∧ (pq.dropWhile fun c => !endsAuthority c) = pq := by
  cases pq with
  | nil => simp [Rooted] at h
  | cons c pq =>
      have hc : endsAuthority c = true := by
        rcases h with h | h
        · simp only [List.head?_cons, Option.some.injEq] at h
          simp [endsAuthority, h]
        · simp only [List.head?_cons, Option.some.injEq] at h
          simp [endsAuthority, h]
      simp [hc]

end Authority

/-- Every target but the asterisk gives a path and query that can follow an authority. -/
theorem Target.rooted_inbound {t : Target} (h : t ≠ .asterisk) : Rooted t.inbound := by
  cases t with
  | origin pq rooted => exact .inl rooted
  | absolute pq rooted =>
      cases pq with
      | none => exact .inl rfl
      | some pq => exact rooted pq rfl
  | authority => exact .inl rfl
  | asterisk => exact absurd rfl h

theorem Target.Accepted.inbound {parses : Str → Bool} {g : UriGrammar parses} {t : Target}
    (h : t.Accepted g) (hslash : g.pathAndQuery ['/']) (hform : t ≠ .asterisk) :
    g.pathAndQuery t.inbound := by
  cases t with
  | origin pq rooted => exact h
  | absolute pq rooted =>
      cases pq with
      | none => exact hslash
      | some pq => exact h pq rfl
  | authority => exact hslash
  | asterisk => exact absurd rfl hform

/--
The rebuilt request goes to the backend at `addr`, for the inbound path and query,
and building it does not panic.
-/
def Directed (k : Crates) (t : Target) (method : Str) (headers : List (Str × Str)) (body : Body)
    (addr : Str) : Prop :=
  ∃ sent, rebuildForBackendStreaming k t.uri method headers body addr = some sent ∧
    authorityOf sent.uri = addr ∧ afterAuthority sent.uri = t.inbound

/-- What is rebuilt, when the builder accepts the headers. -/
theorem rebuild_eq_some_iff {k : Crates} {t : Target} {method : Str} {headers : List (Str × Str)}
    {body : Body} {addr : Str} {sent : ProxyRequest}
    (hbuild : (rebuiltHeaders headers addr).all buildable = true) :
    rebuildForBackendStreaming k t.uri method headers body addr = some sent ↔
      k.parsesUri ("http://".toList ++ addr ++ t.inbound) = true ∧
        sent = ⟨method, "http://".toList ++ addr ++ t.inbound, rebuiltHeaders headers addr, body⟩ := by
  show (if k.parsesUri ("http://".toList ++ addr ++ t.inbound) = true ∧
      (rebuiltHeaders headers addr).all buildable = true then
    some (ProxyRequest.mk method ("http://".toList ++ addr ++ t.inbound) (rebuiltHeaders headers addr) body)
    else none) = some sent ↔ _
  generalize "http://".toList ++ addr ++ t.inbound = target
  by_cases hparse : k.parsesUri target = true
  · rw [if_pos ⟨hparse, hbuild⟩, and_iff_right hparse, Option.some.injEq]
    exact eq_comm
  · rw [if_neg fun hc => hparse hc.1]
    simp [hparse]

/--
**A request is directed to the chosen backend exactly when its target is not the
asterisk and the backend's URI is not too long.**  The address is one the
configuration accepts, the target one the server accepts, and the headers such as
the builder accepts.

The grammar of URIs is that of the library, by its documentation; the length is what
its parser refuses at.
-/
theorem request_directed_iff (k : Crates) (parsers : Parsers) (g : UriGrammar k.parsesUri)
    (hparser : ∀ s, parsers.uri s = none ↔ k.parsesUri s = true) (t : Target) (method : Str)
    (headers : List (Str × Str)) (body : Body) {addr : Str}
    (hvalid : validateBackendAddress parsers addr = .ok ())
    (haccepted : t.Accepted g)
    (hbuild : (rebuiltHeaders headers addr).all buildable = true) :
    Directed k t method headers body addr ↔
      t ≠ .asterisk ∧ byteLen addr + byteLen t.inbound + 7 ≤ maxUriLen := by
  obtain ⟨hdelim, hslash⟩ := validateBackendAddress_spec hvalid
  obtain ⟨hauthority, hroot, -⟩ :=
    (g.parses_iff addr ['/'] hdelim (.inl rfl)).mp ((hparser _).mp hslash)
  have hlen : byteLen ("http://".toList ++ addr ++ t.inbound) = byteLen addr + byteLen t.inbound + 7 := by
    have hscheme : byteLen "http://".toList = 7 := by decide
    rw [byteLen_append, byteLen_append, hscheme]
    omega
  constructor
  · rintro ⟨sent, hsent, hauth, -⟩
    obtain ⟨hparses, rfl⟩ := (rebuild_eq_some_iff hbuild).mp hsent
    have hform : t ≠ .asterisk := by
      rintro rfl
      -- The asterisk is taken for a part of the port.
      rw [authorityOf_append hdelim] at hauth
      simp [Target.inbound, Target.pathAndQuery, endsAuthority] at hauth
    refine ⟨hform, ?_⟩
    rw [← hlen]
    exact ((g.parses_iff addr t.inbound hdelim (t.rooted_inbound hform)).mp hparses).2.2
  · rintro ⟨hform, hle⟩
    have hrooted := t.rooted_inbound hform
    have hparses := (g.parses_iff addr t.inbound hdelim hrooted).mpr
      ⟨hauthority, haccepted.inbound hroot hform, hlen ▸ hle⟩
    refine ⟨_, (rebuild_eq_some_iff hbuild).mpr ⟨hparses, rfl⟩, ?_, ?_⟩
    · rw [authorityOf_append hdelim, hrooted.split.1, List.append_nil]
    · rw [afterAuthority_append hdelim, hrooted.split.2]

/-- A character that needs no escape. -/
def isVisible (c : Char) : Bool := '!' ≤ c && c ≤ '~'

/-- The parser on URIs of visible characters. -/
def parsesPlain (s : Str) : Bool :=
  authorityOf s ≠ [] && (authorityOf s).all isVisible && (afterAuthority s).all isVisible &&
    byteLen s ≤ maxUriLen

def plainCrates : Crates := { Crates.sample with parsesUri := parsesPlain }

def plainParsers : Parsers :=
  ⟨fun _ => none, fun s => if parsesPlain s then none else some "invalid uri character".toList⟩

def plainGrammar : UriGrammar plainCrates.parsesUri where
  authority := fun a => a ≠ [] ∧ a.all isVisible = true
  pathAndQuery := fun pq => pq.all isVisible = true
  parses_iff := by
    intro a pq ha hpq
    show parsesPlain _ = true ↔ _
    unfold parsesPlain
    rw [authorityOf_append ha, afterAuthority_append ha, hpq.split.1, hpq.split.2, List.append_nil]
    simp only [Bool.and_eq_true, decide_eq_true_eq, and_assoc]

def localBackend : Str := "127.0.0.1:8081".toList

theorem request_directed_page :
    Directed plainCrates (.origin "/index.html?x=1".toList rfl) "GET".toList
      [("host".toList, "example.com".toList)] [] localBackend := by
  have haccepted : "/index.html?x=1".toList.all isVisible = true := by decide +kernel
  refine (request_directed_iff plainCrates plainParsers plainGrammar ?_
    (.origin "/index.html?x=1".toList rfl) _ _ _ (by decide +kernel) haccepted
    (by decide +kernel)).mpr ⟨by simp, by decide +kernel⟩
  intro s
  show (if parsesPlain s then none else some _) = none ↔ parsesPlain s = true
  by_cases h : parsesPlain s = true
  · simp [h]
  · simp [h]

/--
**`OPTIONS *` is sent somewhere else.**  The asterisk follows the port of the
backend, and is read as a part of it.

The address and the target are joined as texts, and the asterisk brings no slash.
-/
theorem asterisk_misdirected :
    (rebuildForBackendStreaming plainCrates Target.asterisk.uri "OPTIONS".toList
        [("host".toList, "example.com".toList)] [] localBackend).map ProxyRequest.uri =
      some "http://127.0.0.1:8081*".toList ∧
    authorityOf "http://127.0.0.1:8081*".toList = "127.0.0.1:8081*".toList ∧
    ¬ Directed plainCrates .asterisk "OPTIONS".toList [("host".toList, "example.com".toList)] []
      localBackend := by
  have huri : (rebuildForBackendStreaming plainCrates Target.asterisk.uri "OPTIONS".toList
      [("host".toList, "example.com".toList)] [] localBackend).map ProxyRequest.uri =
      some "http://127.0.0.1:8081*".toList := by decide +kernel
  refine ⟨huri, by decide +kernel, ?_⟩
  rintro ⟨sent, hsent, hauth, -⟩
  rw [hsent, Option.map_some, Option.some.injEq] at huri
  rw [huri] at hauth
  revert hauth
  decide +kernel

end Thttpd.Migrate
