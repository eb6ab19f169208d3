/-
Paths that lead to nothing.

`process_request` strips components off a path until something exists and keeps what
it stripped as PATH_INFO.  The loop also ends when one component is left, and it does
not ask whether what exists is a directory, so a missing path of two or more
components ends with a PATH_INFO and is refused as a file that is no program.

What the property wants is said without the loop: the longest prefix that exists
(`longestExisting`), whether it is a directory, and what the answer and the
PATH_INFO then are.  The loop is compared with it in `splitPathInfo_whole` and
`splitPathInfo_cut`, and after that only the two paths of a request are followed to
its answer, since no handler changes them.
-/
import Thttpd.Proofs.Scripts
import Thttpd.Proofs.Confinement
import Thttpd.Proofs.Answer

namespace Thttpd

open Text Fs

/-! ### Prefixes that exist

Prefixes are taken at the slashes, longest first, which is the order the loop goes
in.
-/

/-- The longest prefix of a path that exists. -/
def longestExisting (cfg : ServerConfig) (w : World) (path : Str) : Option Str :=
  (testedPaths path).find? fun p => w.fs.exists_ (docFile cfg p)

/-- The path does not exist, and what exists of it is a directory or nothing. -/
def Missing (cfg : ServerConfig) (w : World) (path : Str) : Prop :=
  longestExisting cfg w path = none ∨
    ∃ dir, longestExisting cfg w path = some dir ∧ dir ≠ path ∧ w.fs.isDir (docFile cfg dir) = true

/-- What PATH_INFO is meant to be: what follows a file. -/
def FollowsFile (cfg : ServerConfig) (w : World) (path filename info : Str) : Prop :=
  w.fs.exists_ (docFile cfg filename) = true ∧ w.fs.isDir (docFile cfg filename) = false ∧
    filename ++ info = path

/-- A path that exists is its own longest prefix. -/
theorem longestExisting_of_exists {cfg : ServerConfig} {w : World} {path : Str}
    (h : w.fs.exists_ (docFile cfg path) = true) : longestExisting cfg w path = some path :=
  List.find?_cons_of_pos h

/-- Without virtual hosts, a path that exists or is one component is not split. -/
theorem splitPathInfo_whole {cfg : ServerConfig} (hvhost : cfg.vhost = false) {w : World}
    (http : HttpConn) (h : w.fs.exists_ (docFile cfg http.origFilename) = true ∨
      stripComponent http.origFilename = none) : splitPathInfo cfg w http = http := by
  have hinfo := (stripUntil_info (fun path => w.fs.exists_ (docFile cfg path))
    http.origFilename).mpr h
  unfold splitPathInfo
  rw [hvhost, if_neg (by simp)]
  simp only
  rw [if_pos hinfo]

/-- Any other is cut at its longest prefix that exists, or at its first component. -/
theorem splitPathInfo_cut {cfg : ServerConfig} (hvhost : cfg.vhost = false) {w : World}
    (http : HttpConn) (habsent : w.fs.exists_ (docFile cfg http.origFilename) = false)
    (hstrip : stripComponent http.origFilename ≠ none) :
    ∃ path info, info ≠ [] ∧ path ++ info = http.origFilename ∧
      splitPathInfo cfg w http = { http with pathInfo := info, origFilename := path } ∧
      longestExisting cfg w http.origFilename
        = if w.fs.exists_ (docFile cfg path) then some path else none := by
  have hinfo := mt (stripUntil_info (fun path => w.fs.exists_ (docFile cfg path))
    http.origFilename).mp (by simp [habsent, hstrip])
  obtain ⟨happend, hfind⟩ := stripUntil_spec (fun path => w.fs.exists_ (docFile cfg path))
    http.origFilename.length http.origFilename []
  rw [List.append_nil] at happend
  refine ⟨_, _, hinfo, happend, ?_, hfind⟩
  unfold splitPathInfo
  rw [hvhost, if_neg (by simp)]
  simp only
  rw [if_neg hinfo]

/-! ### The status of a reply

An answer has its status in the first line, or, to a request of HTTP/0.9, only in
the page it shows.  So the status is read off what was sent in either case.
-/

/--
The status in the title of an error page, which is all that an answer to an HTTP/0.9
request says about it.
-/
def titleStatus (response : Bytes) : Option Nat :=
  parseDigits (((response.drop 20).takeWhile (· != 32)).map byteChar)

/-- The status a connection is answered with. -/
def replyStatus (http : HttpConn) : Option Nat :=
  if http.mimeFlag then wireStatus http.response else titleStatus http.response

/-- The page begins with its title. -/
theorem errorPage_start (status : Nat) (title form arg : Str) (userAgent : Option Str) :
    ∃ rest, errorPage status title form arg userAgent
      = asBytes "<HTML>\n<HEAD><TITLE>".toList ++ (asBytes (natStr status) ++ 32 :: rest) := by
  unfold errorPage
  simp only [asBytes_append, List.append_assoc, List.singleton_append]
  exact ⟨_, rfl⟩

/-- The title begins with the status. -/
theorem titleStatus_errorPage (status : Nat) (title form arg : Str) (userAgent : Option Str) :
    titleStatus (errorPage status title form arg userAgent) = some status := by
  obtain ⟨rest, hrest⟩ := errorPage_start status title form arg userAgent
  have hlen : (asBytes "<HTML>\n<HEAD><TITLE>".toList).length = 20 := by decide
  unfold titleStatus
  rw [hrest, List.drop_left' hlen, takeWhile_natStr]

/-- The status of an error reply can be read off it. -/
theorem errorResponse_status {pf : Platform} {w : World} {http : HttpConn} {e : ErrorReply}
    (hp : http.mimeFlag = true → Unbroken http.httpVersion) (hs : e.status ≠ 200) :
    (if http.mimeFlag then wireStatus (errorResponse pf w http e)
      else titleStatus (errorResponse pf w http e)) = some e.status := by
  cases hm : http.mimeFlag with
  | false =>
      have hpage : errorResponse pf w http e
          = errorPage e.status e.title e.form e.arg (some http.userAgent) := by
        unfold errorResponse
        simp only [hm, Bool.false_eq_true, if_false]
      rw [if_neg (by decide), hpage, titleStatus_errorPage]
  | true =>
      obtain ⟨body, hbody⟩ := errorResponse_eq pf w e hm
      have hprotocol : Unbroken (errorHead pf w http e).protocol := by
        show Unbroken (if http.httpVersion = [] then "HTTP/1.0".toList else http.httpVersion)
        split
        · decide
        · exact hp hm
      rw [if_pos rfl, hbody, wireStatus_render hprotocol]
      exact congrArg some (fullHead_status hs ..)

/-- The path of a request and what follows it. -/
def HttpConn.paths (http : HttpConn) : Str × Str := (http.origFilename, http.pathInfo)

theorem keptByAnswer_paths : KeptByAnswer HttpConn.paths := fun _ _ _ _ _ _ _ _ _ _ => rfl

/-! ### Without a throttle table

The table could refuse any request with a 503, which is no answer about a path.
Without one every reply that is prepared is sent.
-/

section

variable {pf : Platform} {cfg : ServerConfig} {w : World} {v : View}

/-- Nobody refuses a response. -/
theorem transitionToSending_unthrottled (pf : Platform) (w : World) (v : View)
    (hthr : v.shared.throttles = none) :
    ∃ v', transitionToSending pf w v = .ok v' ∧
      v'.slot.http.response = v.slot.http.response ∧ v'.slot.http.mimeFlag = v.slot.http.mimeFlag := by
  have hentry : entryDecision pf v = .ok (.unlimited, none) := by
    unfold entryDecision
    rw [hthr]
    split <;> rfl
  obtain ⟨len, hlen⟩ := fillHeaderLen_eq v.slot
  refine ⟨sendingView pf w v .unlimited none, ?_, ?_, ?_⟩
  · unfold transitionToSending
    rw [hentry]
    rfl
  · show (fillHeaderLen v.slot).response = _
    rw [hlen]
  · show (fillHeaderLen v.slot).mimeFlag = _
    rw [hlen]

theorem sendError_unthrottled (pf : Platform) (w : World) {v : View} (hthr : v.shared.throttles = none) (e : ErrorReply) :
    ∃ v', sendError pf w v e = .ok v' ∧
      v'.slot.http.response = errorResponse pf w v.slot.http e ∧
      v'.slot.http.mimeFlag = v.slot.http.mimeFlag := by
  have hs := transitionToSending_unthrottled pf w
    (v.respond (errorResponse pf w v.slot.http e) .none) hthr
  exact hs

/-- The status of a reply that was sent. -/
theorem sendError_replyStatus (pf : Platform) (w : World) {v : View} (hthr : v.shared.throttles = none)
    (hp : v.slot.http.mimeFlag = true → Unbroken v.slot.http.httpVersion) {e : ErrorReply}
    (hs : e.status ≠ 200) :
    ∃ v', sendError pf w v e = .ok v' ∧ replyStatus v'.slot.http = some e.status := by
  obtain ⟨v', hsend, hresponse, hmime⟩ := sendError_unthrottled pf w hthr e
  refine ⟨v', hsend, ?_⟩
  unfold replyStatus
  rw [hresponse, hmime]
  exact errorResponse_status hp hs

end

/-! ### Requests for a path

A path that is whole goes on as it is: it is a program, it is there, or looking for
it fails in one of several ways.  A path that was split goes on as the file in front
of the split, with something behind it, and a file that is no program is refused for
that.
-/

/-- A request for a path, by a server without virtual hosts and without a table. -/
structure PathRequest (pf : Platform) (cfg : ServerConfig) (v : View) (path : Str) : Prop where
  untouched : Untouched v
  noVhost : cfg.vhost = false
  unthrottled : v.shared.throttles = none
  line : requestLineCheck (readRequestLine pf v.slot.http) = none
  short : byteLen (readRequestLine pf v.slot.http).encodedUrl ≤ maxUrlLength
  normalized : normalizePath (readRequestLine pf v.slot.http).decodedUrl = some path

/-- The connection before its path is split. -/
def unsplit (pf : Platform) (v : View) (path : Str) : HttpConn :=
  { readRequest pf v.slot.http with origFilename := path }

/--
The path exists, or what exists of it is no directory, or it is one component that
is a program or that cannot be found.
-/
def Reportable (cfg : ServerConfig) (w : World) (path : Str) : Prop :=
  w.fs.exists_ (docFile cfg path) = true ∨
  (∃ file, longestExisting cfg w path = some file ∧ w.fs.isDir (docFile cfg file) = false) ∨
  (stripComponent path = none ∧
    (isCgi cfg path = true ∨ (w.fs.stat (docFile cfg path) = .error .notFound ∧
      (cfg.noSymlinkCheck = true ∨ ∃ root, w.fs.canonicalize cfg.root = .ok root))))

section

variable {pf : Platform} {cfg : ServerConfig} {w : World} {v : View} {path : Str}

/-- Past the request line the path decides the route. -/
theorem PathRequest.route_eq (hr : PathRequest pf cfg v path) :
    route pf cfg w v.slot.http
      = routePath cfg (splitPathInfo cfg w (unsplit pf v path)) (docFile cfg path) := by
  have hurl := readRequest_line HttpConn.encodedUrl (fun _ _ _ _ => rfl) (fun _ _ => rfl)
    (fun _ _ => rfl) pf v.slot.http
  have hdecoded := readRequest_line HttpConn.decodedUrl (fun _ _ _ _ => rfl) (fun _ _ => rfl)
    (fun _ _ => rfl) pf v.slot.http
  have hvhost : applyVhost pf cfg (unsplit pf v path) = unsplit pf v path := by
    unfold applyVhost
    rw [hr.noVhost, if_neg (by simp)]
  have hfile : requestFile pf cfg (readRequest pf v.slot.http) path = docFile cfg path :=
    congrArg (fun http : HttpConn => docFile cfg http.origFilename) hvhost
  have hresolved : resolveRequest pf cfg w (readRequest pf v.slot.http) path
      = splitPathInfo cfg w (unsplit pf v path) := congrArg (splitPathInfo cfg w) hvhost
  unfold route
  rw [hr.line]
  simp only
  unfold routeUrl
  rw [hurl, hdecoded, if_neg (Nat.not_lt.mpr hr.short), hr.normalized]
  simp only
  rw [hfile, hresolved]

theorem unsplit_pathInfo (pf : Platform) (path : Str) (hv : Untouched v) :
    (unsplit pf v path).pathInfo = [] :=
  readRequest_pathInfo pf hv

/-- A script that exists, or is one component, has nothing after it. -/
theorem resolveScript_info {http : HttpConn} (hinfo : http.pathInfo = [])
    (h : w.fs.exists_ (docFile cfg http.origFilename) = true ∨
      stripComponent http.origFilename = none) : (resolveScript cfg w http).2 = [] := by
  have hscript : w.fs.exists_ (scriptFile cfg http.origFilename) = true ∨
      stripComponent http.origFilename = none := by
    rcases h with hexists | hsingle
    · by_cases hroot : http.origFilename = ['/']
      · right
        rw [hroot]
        rfl
      · left
        unfold docFile at hexists
        rw [if_neg hroot] at hexists
        exact hexists
    · exact .inr hsingle
  have hnil := (stripUntil_info (fun path => w.fs.exists_ (scriptFile cfg path))
    http.origFilename).mpr hscript
  unfold resolveScript
  rw [if_pos hinfo]
  split
  · rename_i path info heq
    rw [heq] at hnil
    exact hnil
  · rfl

/--
**Whatever the answer, the path stays as it was split.**

A path is split once more when a program is looked for, and the second time leaves
what the first made of it.
-/
theorem PathRequest.paths {v' : View} (hr : PathRequest pf cfg v path)
    (h : processRequest pf cfg w v = .ok v') :
    v'.slot.http.paths = (splitPathInfo cfg w (unsplit pf v path)).paths := by
  have hinfo := unsplit_pathInfo pf path hr.untouched
  have hscript : (resolveScript cfg w (splitPathInfo cfg w (unsplit pf v path))).2
      = (splitPathInfo cfg w (unsplit pf v path)).pathInfo := by
    by_cases hwhole : w.fs.exists_ (docFile cfg path) = true ∨ stripComponent path = none
    · rw [splitPathInfo_whole hr.noVhost (unsplit pf v path) hwhole,
        resolveScript_info hinfo hwhole, hinfo]
    · obtain ⟨habsent, hstrip⟩ := not_or.mp hwhole
      obtain ⟨filename, info, hne, -, hsplit, -⟩ := splitPathInfo_cut hr.noVhost
        (unsplit pf v path) (Bool.eq_false_iff.mpr habsent) hstrip
      rw [hsplit]
      unfold resolveScript
      rw [if_neg hne]
  rw [processRequest_eq, hr.route_eq] at h
  unfold routePath at h
  split at h
  · obtain ⟨info, hs, rfl | rfl⟩ := dispatchCgi_keeps keptByAnswer_paths h
    · exact hs
    · exact hs.trans (Prod.ext rfl hscript)
  split at h
  · have hs := sendError_keeps keptByAnswer_paths h
    exact hs
  · have hs := serveStatic_keeps keptByAnswer_paths h
    exact hs

theorem unsplit_version (pf : Platform) (v : View) (path : Str)
    (hm : (unsplit pf v path).mimeFlag = true) :
    Unbroken (unsplit pf v path).httpVersion := by
  have hmime := readRequest_line HttpConn.mimeFlag (fun _ _ _ _ => rfl) (fun _ _ => rfl)
    (fun _ _ => rfl) pf v.slot.http
  have hversion := readRequest_line HttpConn.httpVersion (fun _ _ _ _ => rfl) (fun _ _ => rfl)
    (fun _ _ => rfl) pf v.slot.http
  show Unbroken (readRequest pf v.slot.http).httpVersion
  rw [hversion]
  exact (readRequestLine_version_unbroken (hmime.symm.trans hm)).1

/--
What is said about a file that is not there: not found, unless the look-up failed
for another reason or the root itself cannot be found.
-/
theorem staticCheck_absent (pf : Platform) (cfg : ServerConfig) (http : HttpConn) {file : Path}
    (h : w.fs.exists_ file = false) :
    ∃ e, staticCheck pf cfg w http file = .error e ∧ e.status ≠ 200 ∧
      (e.status = 404 ↔ w.fs.stat file = .error .notFound ∧
        (cfg.noSymlinkCheck = true ∨ ∃ root, w.fs.canonicalize cfg.root = .ok root)) := by
  obtain ⟨kind, hstat⟩ : ∃ kind, w.fs.stat file = .error kind := by
    unfold FileSystem.exists_ at h
    cases hs : w.fs.stat file with
    | ok node => rw [hs] at h; cases h
    | error kind => exact ⟨kind, rfl⟩
  have hcanonical : ∃ kind, w.fs.canonicalize file = .error kind := by
    unfold FileSystem.canonicalize
    cases hn : w.fs.canonicalNames file with
    | error kind => exact ⟨kind, rfl⟩
    | ok names =>
        obtain ⟨node, hnode, -⟩ := (FileSystem.canonicalNames_real hn).node
        unfold FileSystem.stat at hstat
        rw [hn] at hstat
        simp only [hnode] at hstat
        cases hstat
  obtain ⟨kind', hcanonical⟩ := hcanonical
  have hstatError : staticPath cfg w http file = .ok file →
      staticCheck pf cfg w http file = .error (statError http file kind) := by
    intro hpath
    have hcheck : statCheck w http file = .error (statError http file kind) := by
      unfold statCheck
      rw [hstat]
    exact bind_eq_error.mpr (.inr ⟨file, hpath, bind_eq_error.mpr (.inl hcheck)⟩)
  have hkind : (statError http file kind).status ≠ 200 ∧
      ((statError http file kind).status = 404 ↔ kind = .notFound) := by
    unfold statError
    split
    · rename_i hnot
      simp [ErrorReply.notFound, hnot]
    split
    · rename_i hnot _
      simp [ErrorReply.internalError, hnot]
    · rename_i hnot _
      simp [ErrorReply.forbidden, hnot]
  have hopened : (cfg.noSymlinkCheck = true ∨ ∃ root, w.fs.canonicalize cfg.root = .ok root) →
      staticPath cfg w http file = .ok file := by
    intro hroot
    unfold staticPath
    rcases hroot with hoff | ⟨root, hroot⟩
    · rw [if_pos hoff]
    · split
      · rfl
      · rw [hroot, hcanonical]
  by_cases hroot : cfg.noSymlinkCheck = true ∨ ∃ root, w.fs.canonicalize cfg.root = .ok root
  · refine ⟨_, hstatError (hopened hroot), hkind.1, ?_⟩
    rw [hkind.2, hstat]
    simp [hroot]
  · obtain ⟨hon, hnone⟩ := not_or.mp hroot
    obtain ⟨kind'', hrootError⟩ : ∃ kind, w.fs.canonicalize cfg.root = .error kind := by
      cases hc : w.fs.canonicalize cfg.root with
      | ok root => exact absurd ⟨root, hc⟩ hnone
      | error kind => exact ⟨kind, rfl⟩
    have hpath : staticPath cfg w http file = .error (.internalError cfg.dir) := by
      unfold staticPath
      rw [if_neg hon, hrootError]
    refine ⟨.internalError cfg.dir, ?_, ?_, ?_⟩
    · exact bind_eq_error.mpr (.inl hpath)
    · simp [ErrorReply.internalError]
    · simp only [hroot, and_false, iff_false]
      simp [ErrorReply.internalError]

/-- Where a path goes that is not split. -/
theorem PathRequest.route_whole (hr : PathRequest pf cfg v path)
    (h : w.fs.exists_ (docFile cfg path) = true ∨ stripComponent path = none) :
    route pf cfg w v.slot.http = if isCgi cfg path then .program (unsplit pf v path)
      else .static (unsplit pf v path) (docFile cfg path) := by
  have hinfo := unsplit_pathInfo pf path hr.untouched
  rw [hr.route_eq, splitPathInfo_whole hr.noVhost (unsplit pf v path) h]
  unfold routePath
  rw [if_neg (c := (unsplit pf v path).pathInfo ≠ []) (by simp [hinfo])]
  rfl

/-- And has something after what is left of it, whatever that is. -/
theorem PathRequest.cut_paths {v' : View} (hr : PathRequest pf cfg v path)
    (habsent : w.fs.exists_ (docFile cfg path) = false) (hstrip : stripComponent path ≠ none)
    (h : processRequest pf cfg w v = .ok v') :
    v'.slot.http.pathInfo ≠ [] ∧ v'.slot.http.origFilename ++ v'.slot.http.pathInfo = path ∧
      longestExisting cfg w path
        = if w.fs.exists_ (docFile cfg v'.slot.http.origFilename) then
            some v'.slot.http.origFilename else none := by
  have hpaths := hr.paths h
  obtain ⟨filename, info, hne, happend, hsplit, hlongest⟩ := splitPathInfo_cut hr.noVhost
    (unsplit pf v path) habsent hstrip
  rw [hsplit] at hpaths
  simp only [HttpConn.paths, Prod.mk.injEq] at hpaths
  obtain ⟨hname, hrest⟩ := hpaths
  rw [hname, hrest]
  exact ⟨hne, happend, hlongest⟩

/-- The answer to one component that is not there. -/
theorem PathRequest.single_answered (hr : PathRequest pf cfg v path)
    (habsent : w.fs.exists_ (docFile cfg path) = false) (hsingle : stripComponent path = none)
    (hcgi : isCgi cfg path = false) :
    ∃ v' status, processRequest pf cfg w v = .ok v' ∧ replyStatus v'.slot.http = some status ∧
      (status = 404 ↔ w.fs.stat (docFile cfg path) = .error .notFound ∧
        (cfg.noSymlinkCheck = true ∨ ∃ root, w.fs.canonicalize cfg.root = .ok root)) := by
  have hroute := hr.route_whole (w := w) (.inr hsingle)
  rw [if_neg (by simp [hcgi])] at hroute
  obtain ⟨e, hcheck, hne, h404⟩ := staticCheck_absent pf cfg
    ((v.setHttp (unsplit pf v path)).withCharset cfg).slot.http habsent
  have hthr : ((v.setHttp (unsplit pf v path)).withCharset cfg).shared.throttles = none :=
    hr.unthrottled
  obtain ⟨v', hsend, hstatus⟩ := sendError_replyStatus pf w hthr (unsplit_version pf v path) hne
  refine ⟨v', e.status, ?_, hstatus, h404⟩
  rw [processRequest_eq, hroute]
  show serveStatic pf cfg w (v.setHttp (unsplit pf v path)) (docFile cfg path) = .ok v'
  unfold serveStatic
  rw [hcheck]
  exact hsend

theorem Reportable.notFound (hr : PathRequest pf cfg v path) (h : Reportable cfg w path)
    (hmissing : Missing cfg w path) (hroute : (route pf cfg w v.slot.http).isProgram = false) :
    ∃ v', processRequest pf cfg w v = .ok v' ∧ replyStatus v'.slot.http = some 404 := by
  have hnoCgi : stripComponent path = none → isCgi cfg path = false := by
    intro hsingle
    rw [hr.route_whole (.inr hsingle)] at hroute
    cases hcgi : isCgi cfg path with
    | false => rfl
    | true =>
        rw [hcgi, if_pos rfl] at hroute
        cases hroute
  rcases h with hexists | ⟨file, hlongest, hdir⟩ | ⟨hsingle, hcgi | hstat⟩
  · have hlongest := longestExisting_of_exists hexists
    rcases hmissing with hnone | ⟨dir, hsome, hne, -⟩
    · cases hnone.symm.trans hlongest
    · cases hsome.symm.trans hlongest
      exact absurd rfl hne
  · rcases hmissing with hnone | ⟨dir, hsome, -, hisDir⟩
    · cases hnone.symm.trans hlongest
    · cases hsome.symm.trans hlongest
      cases hdir.symm.trans hisDir
  · cases (hnoCgi hsingle).symm.trans hcgi
  · have habsent : w.fs.exists_ (docFile cfg path) = false := by
      unfold FileSystem.exists_
      rw [hstat.1]
    obtain ⟨v', status, hrun, hstatus, h404⟩ := hr.single_answered habsent hsingle (hnoCgi hsingle)
    refine ⟨v', hrun, ?_⟩
    rw [hstatus, h404.mpr hstat]

theorem Reportable.pathInfo {v' : View} (hr : PathRequest pf cfg v path)
    (h : Reportable cfg w path) (hrun : processRequest pf cfg w v = .ok v')
    (hne : v'.slot.http.pathInfo ≠ []) :
    FollowsFile cfg w path v'.slot.http.origFilename v'.slot.http.pathInfo := by
  have hnotWhole : ¬ (w.fs.exists_ (docFile cfg path) = true ∨ stripComponent path = none) := by
    intro hwhole
    have hpaths := hr.paths hrun
    rw [splitPathInfo_whole hr.noVhost (unsplit pf v path) hwhole] at hpaths
    exact hne ((congrArg Prod.snd hpaths).trans (unsplit_pathInfo pf path hr.untouched))
  obtain ⟨hexists, hstrip⟩ := not_or.mp hnotWhole
  obtain ⟨-, happend, hlongest⟩ := hr.cut_paths (Bool.eq_false_iff.mpr hexists) hstrip hrun
  rcases h with hyes | ⟨file, hfile, hdir⟩ | ⟨hsingle, -⟩
  · exact absurd hyes hexists
  · split at hlongest
    · rename_i hfound
      cases hlongest.symm.trans hfile
      exact ⟨hfound, hdir, happend⟩
    · cases hlongest.symm.trans hfile
  · exact absurd hsingle hstrip

end

/-! ### A missing path of two components

The one tree these requests are made to has one file, and nothing of the name they
begin with.
-/

end Thttpd
