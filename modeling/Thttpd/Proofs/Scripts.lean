/-
Which files are run as programs.

Two loops decide.  One strips components off the request path until something
matches the CGI pattern, and only asks whether anything does.  The other strips
until something exists, and runs that.  They agree when the file that exists is one
that matches, and nothing makes sure of it: a directory whose name matches turns
every file below it into a program.

What the loops come to is first said without them.  A request has a path, and names
the longest prefix of it that exists (`namedFile`); `startsScript_iff` says which
named files are started.

The claim about scripts is then one about files and paths.  `NamesFile` is a
condition on the tree, the request and what the server has to spare, `patternPaths`
lists the paths the pattern is held against, and the file runs by mistake when only
a path other than its own is matched.
-/
import Thttpd.Proofs.Route

namespace Thttpd

open Text Fs

/-! ### The loops

Both loops strip one component after the other off the end of a path and stop at the
first that is found, or when nothing is left to strip.  What was stripped is kept in
front of what had been stripped before.
-/

theorem stripComponent_eq_some {path before stripped : Str}
    (h : stripComponent path = some (before, stripped)) :
    path = before ++ '/' :: stripped ∧ before ≠ [] := by
  unfold stripComponent at h
  split at h
  · rename_i b s hr
    split at h
    · cases h
    · rename_i hne
      cases h
      exact ⟨(rsplitOnce_eq_some hr).1, hne⟩
  · cases h

theorem stripComponent_length {path before stripped : Str}
    (h : stripComponent path = some (before, stripped)) : before.length < path.length := by
  rw [(stripComponent_eq_some h).1, List.length_append, List.length_cons]
  omega

/--
**The loop takes the path apart**, and what it ends at is the first of the tested
paths that is found, if any is.

The loop is run with fuel, and the fuel needed is the length of the path, since each
round strips something.
-/
theorem stripUntil_spec (found : Str → Bool) (fuel : Nat) : ∀ path info : Str,
    (stripUntil found fuel path info).1 ++ (stripUntil found fuel path info).2.1 = path ++ info ∧
      (path :: shorterPaths fuel path).find? found
        = if found (stripUntil found fuel path info).1 then
            some (stripUntil found fuel path info).1 else none := by
  induction fuel with
  | zero =>
      intro path info
      refine ⟨rfl, ?_⟩
      show [path].find? found = if found path then some path else none
      cases hf : found path <;> simp [hf]
  | succ fuel ih =>
      intro path info
      unfold stripUntil shorterPaths
      cases hf : found path with
      | true =>
          rw [if_pos rfl]
          refine ⟨rfl, ?_⟩
          rw [List.find?_cons_of_pos hf, if_pos hf]
      | false =>
          rw [if_neg (by decide), List.find?_cons_of_neg (by simp [hf])]
          cases hs : stripComponent path with
          | none =>
              refine ⟨rfl, ?_⟩
              rw [if_neg (by simp [hf])]
              rfl
          | some parts =>
              obtain ⟨before, stripped⟩ := parts
              obtain ⟨happend, hfind⟩ := ih before ('/' :: stripped ++ info)
              refine ⟨?_, hfind⟩
              rw [happend, (stripComponent_eq_some hs).1]
              simp

/-- What was stripped before stays at the end. -/
theorem stripUntil_suffix (found : Str → Bool) (fuel : Nat) : ∀ path info : Str,
    info <:+ (stripUntil found fuel path info).2.1 := by
  induction fuel with
  | zero =>
      intro path info
      exact List.suffix_rfl
  | succ fuel ih =>
      intro path info
      unfold stripUntil
      split
      · exact List.suffix_rfl
      split
      · rename_i before stripped _
        exact (List.suffix_append ('/' :: stripped) info).trans (ih before _)
      · exact List.suffix_rfl

/-- Nothing is stripped of a path that is found or is one component. -/
theorem stripUntil_info (found : Str → Bool) (path : Str) :
    (stripUntil found path.length path []).2.1 = [] ↔
      found path = true ∨ stripComponent path = none := by
  cases hlen : path.length with
  | zero =>
      rw [List.eq_nil_of_length_eq_zero hlen]
      exact ⟨fun _ => .inr rfl, fun _ => rfl⟩
  | succ fuel =>
      unfold stripUntil
      cases hf : found path with
      | true => simp
      | false =>
          cases hs : stripComponent path with
          | none => simp
          | some parts =>
              obtain ⟨before, stripped⟩ := parts
              have hsuffix := stripUntil_suffix found fuel before ('/' :: stripped ++ [])
              simp only [Bool.false_eq_true, if_false, false_or, reduceCtorEq, iff_false]
              intro hnil
              rw [hnil] at hsuffix
              exact absurd (List.suffix_nil.mp hsuffix) (by simp)

/-- Whether a path is one of the configured programs. -/
def matchesCgi (cfg : ServerConfig) (path : Str) : Bool :=
  match cfg.cgiPattern with
  | some pattern => matchPattern pattern path
  | none => false

/-- The paths the first loop tries: the whole path and its shorter prefixes. -/
def testedPaths (path : Str) : List Str := path :: shorterPaths path.length path

/-- Fuel beyond the length of the path makes no difference. -/
theorem shorterPaths_fuel : ∀ {n m : Nat} {path : Str}, path.length ≤ n → path.length ≤ m →
    shorterPaths n path = shorterPaths m path := by
  intro n
  induction n with
  | zero =>
      intro m path hn _
      rw [List.eq_nil_of_length_eq_zero (Nat.le_zero.mp hn)]
      cases m <;> rfl
  | succ n ih =>
      intro m path hn hm
      cases m with
      | zero =>
          rw [List.eq_nil_of_length_eq_zero (Nat.le_zero.mp hm)]
          rfl
      | succ m =>
          unfold shorterPaths
          cases hs : stripComponent path with
          | none => rfl
          | some parts =>
              have hshort := stripComponent_length hs
              exact congrArg (parts.1 :: ·) (ih (by omega) (by omega))

theorem testedPaths_strip {path before stripped : Str}
    (h : stripComponent path = some (before, stripped)) :
    testedPaths path = path :: testedPaths before := by
  have hshort := stripComponent_length h
  unfold testedPaths
  obtain ⟨n, hn⟩ : ∃ n, path.length = n + 1 := ⟨path.length - 1, by omega⟩
  rw [hn, shorterPaths, h]
  exact congrArg (path :: before :: ·) (shorterPaths_fuel (by omega) (Nat.le_refl _))

theorem testedPaths_single {path : Str} (h : stripComponent path = none) : testedPaths path = [path] := by
  unfold testedPaths
  cases path.length with
  | zero => rfl
  | succ n => rw [shorterPaths, h]

/--
Where the loop ends, among the paths: it has passed those it does not find, each of
several components, and it stops at one that it finds or that is a single component.
-/
theorem stripUntil_tested (found : Str → Bool) (fuel : Nat) : ∀ {path : Str} (info : Str),
    path.length ≤ fuel →
    ∃ passed, testedPaths path = passed ++ testedPaths (stripUntil found fuel path info).1 ∧
      (∀ p ∈ passed, found p = false ∧ stripComponent p ≠ none) ∧
      (found (stripUntil found fuel path info).1 = true ∨
        stripComponent (stripUntil found fuel path info).1 = none) := by
  induction fuel with
  | zero =>
      intro path info hlen
      rw [List.eq_nil_of_length_eq_zero (Nat.le_zero.mp hlen)]
      exact ⟨[], rfl, nofun, .inr rfl⟩
  | succ fuel ih =>
      intro path info hlen
      rw [stripUntil]
      cases hf : found path with
      | true => exact ⟨[], rfl, nofun, .inl hf⟩
      | false =>
          rw [if_neg Bool.false_ne_true]
          cases hs : stripComponent path with
          | none => exact ⟨[], rfl, nofun, .inr hs⟩
          | some parts =>
              have hshort := stripComponent_length hs
              obtain ⟨passed, hpassed, hnot, hend⟩ :=
                ih ('/' :: parts.2 ++ info) (show parts.1.length ≤ fuel by omega)
              refine ⟨path :: passed, ?_, ?_, hend⟩
              · rw [testedPaths_strip hs, hpassed]
                rfl
              · rintro p (_ | ⟨_, hp⟩)
                · exact ⟨hf, by rw [hs]; exact Option.some_ne_none _⟩
                · exact hnot p hp

theorem stripUntil_found (found : Str → Bool) (fuel : Nat) : ∀ path info : Str,
    path.length ≤ fuel →
    (stripUntil found fuel path info).2.2 = found (stripUntil found fuel path info).1 := by
  induction fuel with
  | zero => exact fun _ _ _ => rfl
  | succ fuel ih =>
      intro path info hlen
      rw [stripUntil]
      cases hf : found path with
      | true => exact hf.symm
      | false =>
          rw [if_neg Bool.false_ne_true]
          cases hs : stripComponent path with
          | none => exact hf.symm
          | some parts =>
              have hshort := stripComponent_length hs
              exact ih _ _ (show parts.1.length ≤ fuel by omega)

/-! ### Where a request goes

The first loop decides whether the request is for a program.  The second is run by
the handler and decides which one it is.
-/

theorem isCgi_iff (cfg : ServerConfig) (path : Str) :
    isCgi cfg path = true ↔ ∃ p ∈ testedPaths path, matchesCgi cfg p = true := by
  unfold isCgi matchesCgi testedPaths
  cases cfg.cgiPattern with
  | none => simp
  | some pattern => simp

/-- The connection of a request that got as far as a path. -/
def resolvedHttp (pf : Platform) (cfg : ServerConfig) (w : World) (http : HttpConn) :
    Option HttpConn :=
  if (requestLineCheck (readRequestLine pf http)).isSome then none
  else if maxUrlLength < byteLen (readRequest pf http).encodedUrl then none
  else (normalizePath (readRequest pf http).decodedUrl).map
    (resolveRequest pf cfg w (readRequest pf http))

/-- A request goes to a program exactly when its path, or a shorter one, matches. -/
theorem route_program_iff (pf : Platform) (cfg : ServerConfig) (w : World)
    (http http' : HttpConn) :
    route pf cfg w http = .program http' ↔
      resolvedHttp pf cfg w http = some http' ∧ isCgi cfg http'.origFilename = true := by
  unfold route resolvedHttp routeUrl routePath
  cases requestLineCheck (readRequestLine pf http) with
  | some e => simp
  | none =>
      simp only [Option.isSome_none, Bool.false_eq_true, if_false]
      by_cases hlen : maxUrlLength < byteLen (readRequest pf http).encodedUrl
      · simp [hlen]
      · simp only [hlen, if_false]
        cases normalizePath (readRequest pf http).decodedUrl with
        | none => simp
        | some normalized =>
            simp only [Option.map_some, Option.some.injEq]
            constructor
            · intro h
              split at h
              · rename_i hcgi
                cases h
                exact ⟨rfl, hcgi⟩
              · split at h <;> cases h
            · rintro ⟨rfl, hcgi⟩
              rw [if_pos hcgi]

/--
Whether the script of a request can be started: its body is there, the limit is not
reached, it exists and is no directory, and the throttle table admits it.
-/
def startable (pf : Platform) (cfg : ServerConfig) (w : World) (shared : Shared)
    (http : HttpConn) (later : Later) : Bool :=
  !bodyMissing http later.body && !cgiLimitReached cfg (later.sharedFor shared http)
    && runnable cfg w (resolveScript cfg w http).1
    && !rejected pf (later.sharedFor shared http).throttles (resolveScript cfg w http).1

/--
A request one of whose paths matches, and whose path resolves to a script that can
be started.
-/
def StartsScript (pf : Platform) (cfg : ServerConfig) (w : World) (v : View) (later : Later)
    (script : Str) : Prop :=
  ∃ http, resolvedHttp pf cfg w v.slot.http = some http ∧
    (∃ p ∈ testedPaths http.origFilename, matchesCgi cfg p = true) ∧
    startable pf cfg w v.shared http later = true ∧
    script = (resolveScript cfg w http).1

/--
**What a request runs**: the script of its path, when a path that is tried matches
and the script can be started.

The claim about scripts is about `requestScript`, which is what the code computes;
`StartsScript` says the same as a condition.
-/
theorem requestScript_eq_some (pf : Platform) (cfg : ServerConfig) (w : World) (v : View)
    (later : Later) (script : Str) :
    requestScript pf cfg w v later = some script ↔ StartsScript pf cfg w v later script := by
  have hrun : ∀ http, (if bodyMissing http later.body then none
      else ranScript pf cfg w (later.sharedFor v.shared http) http) = some script ↔
      startable pf cfg w v.shared http later = true ∧ script = (resolveScript cfg w http).1 := by
    intro http
    unfold startable ranScript
    cases bodyMissing http later.body with
    | true => simp
    | false =>
        simp only [Bool.false_eq_true, if_false, Bool.not_false, Bool.true_and]
        split
        · rename_i hall
          simp [hall, eq_comm]
        · rename_i hall
          simp [hall]
  constructor
  · intro h
    unfold requestScript at h
    cases hroute : route pf cfg w v.slot.http with
    | refused http reply => rw [hroute] at h; cases h
    | static http file => rw [hroute] at h; cases h
    | program http =>
        rw [hroute] at h
        obtain ⟨hres, hcgi⟩ := (route_program_iff pf cfg w _ _).mp hroute
        exact ⟨http, hres, (isCgi_iff cfg _).mp hcgi, (hrun http).mp h⟩
  · rintro ⟨http, hres, hmatch, hstart⟩
    have hroute := (route_program_iff pf cfg w _ _).mpr ⟨hres, (isCgi_iff cfg _).mpr hmatch⟩
    unfold requestScript
    rw [hroute]
    exact (hrun http).mpr hstart

/-! ### The file a request names

A path names the longest of its prefixes that exists.  Both loops start with what is
left of the path, so the file is the same one whether the path was split before the
handler was called or is split there.
-/

/-- The file a path names: the longest of its prefixes that exists. -/
def namedFile (cfg : ServerConfig) (w : World) (path : Str) : Option Str :=
  (testedPaths path).find? fun p => w.fs.exists_ (scriptFile cfg p)

/-- The path of a request whose line is accepted, once it is cleaned. -/
def cleanedPath (pf : Platform) (http : HttpConn) : Option Str :=
  if (requestLineCheck (readRequestLine pf http)).isSome then none
  else if maxUrlLength < byteLen (readRequest pf http).encodedUrl then none
  else normalizePath (readRequest pf http).decodedUrl

/-- The connection of a request with that path, behind its virtual host. -/
def hostHttp (pf : Platform) (cfg : ServerConfig) (http : HttpConn) (cleaned : Str) : HttpConn :=
  applyVhost pf cfg { readRequest pf http with origFilename := cleaned }

/-- The path of a request: cleaned, behind its virtual host. -/
def requestPath (pf : Platform) (cfg : ServerConfig) (http : HttpConn) : Option Str :=
  (cleanedPath pf http).map fun cleaned => (hostHttp pf cfg http cleaned).origFilename

/-- Whether the name of a virtual host stands in front of the path. -/
def hosted (pf : Platform) (cfg : ServerConfig) (http : HttpConn) : Bool :=
  cfg.vhost && !(readRequest pf http).host.isEmpty &&
    !(pf.toLowercase (readRequest pf http).host).isEmpty

/--
A request names a file that may be started: one that is there and no directory, with
the body it needs, a program to spare, and the leave of the throttle table.
-/
structure NamesFile (pf : Platform) (cfg : ServerConfig) (w : World) (v : View) (later : Later)
    (path file : Str) : Prop where
  asked : requestPath pf cfg v.slot.http = some path
  named : namedFile cfg w path = some file
  plain : w.fs.isDir (scriptFile cfg file) = false
  body : bodyMissing (readRequest pf v.slot.http) later.body = false
  limit : cgiLimitReached cfg (later.sharedFor v.shared (readRequest pf v.slot.http)) = false
  admitted : rejected pf (later.sharedFor v.shared (readRequest pf v.slot.http)).throttles file = false

/--
The paths the pattern is held against: those of the file, so its own and those of
the directories above it; but behind a virtual host, where nothing is split off,
those of the whole request.
-/
def patternPaths (pf : Platform) (cfg : ServerConfig) (http : HttpConn) (path file : Str) : List Str :=
  if hosted pf cfg http then testedPaths path else testedPaths file

theorem docFile_of_ne {path : Str} (h : path ≠ ['/']) (cfg : ServerConfig) :
    docFile cfg path = scriptFile cfg path := if_neg h

/-- The root is a single component. -/
theorem ne_root_of_strip {path : Str} (h : stripComponent path ≠ none) : path ≠ ['/'] := by
  rintro rfl
  exact h rfl

section Named

variable {cfg : ServerConfig} {w : World}

theorem namedFile_exists {path file : Str} (h : namedFile cfg w path = some file) :
    w.fs.exists_ (scriptFile cfg file) = true :=
  List.find?_some (p := fun p => w.fs.exists_ (scriptFile cfg p)) h

theorem namedFile_self {path : Str} (h : w.fs.exists_ (scriptFile cfg path) = true) :
    namedFile cfg w path = some path := List.find?_cons_of_pos h

theorem namedFile_getD {path file : Str} :
    namedFile cfg w path = some file ↔
      (namedFile cfg w path).getD path = file ∧ w.fs.exists_ (scriptFile cfg file) = true := by
  constructor
  · intro h
    rw [h]
    exact ⟨rfl, namedFile_exists h⟩
  · rintro ⟨hfile, hexists⟩
    cases hnamed : namedFile cfg w path with
    | some named =>
        rw [hnamed] at hfile
        exact congrArg some hfile
    | none =>
        rw [hnamed] at hfile
        rw [show file = path from hfile.symm] at hexists
        rw [namedFile_self hexists] at hnamed
        cases hnamed

/-- What is stripped of an unsplit path leaves the file it names. -/
theorem resolveScript_unsplit {http : HttpConn} (hinfo : http.pathInfo = []) :
    (resolveScript cfg w http).1 = (namedFile cfg w http.origFilename).getD http.origFilename := by
  have hspec := (stripUntil_spec (fun path => w.fs.exists_ (scriptFile cfg path))
    http.origFilename.length http.origFilename []).2
  have hfound := stripUntil_found (fun path => w.fs.exists_ (scriptFile cfg path))
    http.origFilename.length http.origFilename [] (Nat.le_refl _)
  unfold resolveScript namedFile testedPaths
  rw [if_pos hinfo, hspec]
  generalize stripUntil (fun path => w.fs.exists_ (scriptFile cfg path)) http.origFilename.length
    http.origFilename [] = left at hfound ⊢
  obtain ⟨q, info, found⟩ := left
  cases found with
  | true => rw [if_pos hfound.symm]; rfl
  | false => rw [if_neg (by simpa using hfound.symm)]; rfl

/-- A path that is not split names itself, if it names anything. -/
theorem namedFile_unsplit {path file : Str}
    (h : w.fs.exists_ (docFile cfg path) = true ∨ stripComponent path = none)
    (hnamed : namedFile cfg w path = some file) : file = path := by
  by_cases hstrip : stripComponent path = none
  · unfold namedFile at hnamed
    rw [testedPaths_single hstrip] at hnamed
    exact List.mem_singleton.mp (List.mem_of_find?_eq_some hnamed)
  · have hexists := h.resolve_right hstrip
    rw [docFile_of_ne (ne_root_of_strip hstrip)] at hexists
    exact (Option.some.inj ((namedFile_self hexists).symm.trans hnamed)).symm

variable (cfg w) in
/-- A path that is split is split behind the file it names, if it names any. -/
theorem namedFile_split (path : Str) :
    namedFile cfg w path =
      let file := (stripUntil (fun p => w.fs.exists_ (docFile cfg p)) path.length path []).1
      if w.fs.exists_ (scriptFile cfg file) then some file else none := by
  obtain ⟨passed, hpaths, hpassed, hend⟩ :=
    stripUntil_tested (fun p => w.fs.exists_ (docFile cfg p)) path.length [] (Nat.le_refl path.length)
  have hnone : passed.find? (fun p => w.fs.exists_ (scriptFile cfg p)) = none := by
    refine List.find?_eq_none.mpr fun p hp => ?_
    obtain ⟨habsent, hstrip⟩ := hpassed p hp
    rw [docFile_of_ne (ne_root_of_strip hstrip)] at habsent
    rw [habsent]
    exact Bool.false_ne_true
  simp only
  generalize (stripUntil (fun p => w.fs.exists_ (docFile cfg p)) path.length path []).1 = file
    at hpaths hend
  unfold namedFile
  rw [hpaths, List.find?_append, hnone, Option.none_or]
  cases hexists : w.fs.exists_ (scriptFile cfg file) with
  | true => exact List.find?_cons_of_pos hexists
  | false =>
      have hsingle : stripComponent file = none := by
        by_contra hstrip
        have hfound := hend.resolve_right hstrip
        rw [docFile_of_ne (ne_root_of_strip hstrip), hexists] at hfound
        cases hfound
      rw [testedPaths_single hsingle, List.find?_cons_of_neg (by rw [hexists]; exact Bool.false_ne_true)]
      rfl

/--
**The script is the file the path names**, if that exists, whether the path was
split before or not.

The script is looked for in what is left of the path after the split, and found
where the whole path would have led.
-/
theorem resolveScript_named {base : HttpConn} (hinfo : base.pathInfo = []) {file : Str} :
    (resolveScript cfg w (splitPathInfo cfg w base)).1 = file ∧
        w.fs.exists_ (scriptFile cfg file) = true ↔
      namedFile cfg w base.origFilename = some file := by
  have hwhole : (resolveScript cfg w base).1 = file ∧ w.fs.exists_ (scriptFile cfg file) = true ↔
      namedFile cfg w base.origFilename = some file := by
    rw [resolveScript_unsplit hinfo]
    exact namedFile_getD.symm
  unfold splitPathInfo
  split
  · exact hwhole
  · have hsplit := namedFile_split cfg w base.origFilename
    generalize stripUntil (fun path => w.fs.exists_ (docFile cfg path)) base.origFilename.length
      base.origFilename [] = left at hsplit ⊢
    obtain ⟨q, info, found⟩ := left
    simp only at hsplit ⊢
    split
    · exact hwhole
    · rename_i hne
      rw [hsplit, resolveScript, if_neg hne]
      constructor
      · rintro ⟨rfl, hexists⟩
        exact if_pos hexists
      · intro h
        split at h
        · rename_i hexists
          rw [← Option.some.inj h]
          exact ⟨rfl, hexists⟩
        · cases h

/-- What is left of a path in front of what was split off. -/
theorem splitPathInfo_origFilename {base : HttpConn} {file : Str}
    (hnamed : namedFile cfg w base.origFilename = some file) :
    (splitPathInfo cfg w base).origFilename =
      if cfg.vhost && !base.vhostDir.isEmpty then base.origFilename else file := by
  unfold splitPathInfo
  split
  · rfl
  · have hsplit := namedFile_split cfg w base.origFilename
    have hinfo := stripUntil_info (fun path => w.fs.exists_ (docFile cfg path)) base.origFilename
    generalize stripUntil (fun path => w.fs.exists_ (docFile cfg path)) base.origFilename.length
      base.origFilename [] = left at hsplit hinfo ⊢
    obtain ⟨q, info, found⟩ := left
    simp only at hsplit hinfo ⊢
    split
    · rename_i hnil
      exact (namedFile_unsplit (hinfo.mp hnil) hnamed).symm
    · rw [hnamed] at hsplit
      split at hsplit
      · exact (Option.some.inj hsplit).symm
      · cases hsplit

end Named

section Starts

variable {pf : Platform} {cfg : ServerConfig} {w : World} {v : View} {later : Later}

theorem resolvedHttp_eq (http : HttpConn) :
    resolvedHttp pf cfg w http =
      (cleanedPath pf http).map fun cleaned => splitPathInfo cfg w (hostHttp pf cfg http cleaned) := by
  unfold resolvedHttp cleanedPath
  split
  · rfl
  · split <;> rfl

/-- Nothing is split off the path while the request is read. -/
theorem readRequest_pathInfo (pf : Platform) (hv : Untouched v) :
    (readRequest pf v.slot.http).pathInfo = [] := by
  have hread := readRequest_line HttpConn.pathInfo (fun _ _ _ _ => rfl) (fun _ _ => rfl)
    (fun _ _ => rfl) pf v.slot.http
  obtain ⟨buf, checkedIdx, state, hhttp⟩ := hv.received
  rw [hread, hhttp]
  rfl

theorem hostHttp_pathInfo (hv : Untouched v) (cleaned : Str) :
    (hostHttp pf cfg v.slot.http cleaned).pathInfo = [] := by
  have hnone := readRequest_pathInfo pf hv
  unfold hostHttp applyVhost
  split <;> exact hnone

theorem applyVhost_vhostDir (http : HttpConn) :
    (applyVhost pf cfg http).vhostDir =
      if cfg.vhost && !http.host.isEmpty then pf.toLowercase http.host else http.vhostDir := by
  unfold applyVhost
  split <;> rfl

theorem hostHttp_hosted (hv : Untouched v) (cleaned : Str) :
    (cfg.vhost && !(hostHttp pf cfg v.slot.http cleaned).vhostDir.isEmpty) =
      hosted pf cfg v.slot.http := by
  have hread := readRequest_line HttpConn.vhostDir (fun _ _ _ _ => rfl) (fun _ _ => rfl)
    (fun _ _ => rfl) pf v.slot.http
  obtain ⟨buf, checkedIdx, state, hhttp⟩ := hv.received
  have hnone : (readRequest pf v.slot.http).vhostDir = [] := by
    rw [hread, hhttp]
    rfl
  have hdir : (hostHttp pf cfg v.slot.http cleaned).vhostDir =
      if cfg.vhost && !(readRequest pf v.slot.http).host.isEmpty then
        pf.toLowercase (readRequest pf v.slot.http).host
      else [] := by
    refine (applyVhost_vhostDir _).trans ?_
    simp only [hnone]
  rw [hdir, hosted]
  cases cfg.vhost with
  | false => rfl
  | true => cases (readRequest pf v.slot.http).host.isEmpty <;> rfl

variable (pf cfg w v later) in
/-- Resolving a request leaves its body, and so what the body is waited for with. -/
theorem hostHttp_body (cleaned : Str) (body : Bytes) (shared : Shared) :
    bodyMissing (splitPathInfo cfg w (hostHttp pf cfg v.slot.http cleaned)) body =
        bodyMissing (readRequest pf v.slot.http) body ∧
      later.sharedFor shared (splitPathInfo cfg w (hostHttp pf cfg v.slot.http cleaned)) =
        later.sharedFor shared (readRequest pf v.slot.http) :=
  ⟨resolveRequest_keeps (bodyMissing · body) (fun _ _ _ _ => rfl) pf cfg w _ cleaned,
    resolveRequest_keeps (later.sharedFor shared ·) (fun _ _ _ _ => rfl) pf cfg w _ cleaned⟩

/--
**Which files are started**: those that are named and may be, where the pattern
matches one of the paths it is held against.

The right side does not mention the loops: a file that exists and is no directory,
and a path that matches.
-/
theorem startsScript_iff (hv : Untouched v) {file : Str} :
    StartsScript pf cfg w v later file ↔
      ∃ path, NamesFile pf cfg w v later path file ∧
        ∃ p ∈ patternPaths pf cfg v.slot.http path file, matchesCgi cfg p = true := by
  have hruns : ∀ script, runnable cfg w script = true ↔
      w.fs.exists_ (scriptFile cfg script) = true ∧ w.fs.isDir (scriptFile cfg script) = false := by
    intro script
    unfold runnable
    rw [Bool.and_eq_true, Bool.not_eq_true']
  have hpaths : ∀ cleaned, namedFile cfg w (hostHttp pf cfg v.slot.http cleaned).origFilename = some file →
      testedPaths (splitPathInfo cfg w (hostHttp pf cfg v.slot.http cleaned)).origFilename =
        patternPaths pf cfg v.slot.http (hostHttp pf cfg v.slot.http cleaned).origFilename file := by
    intro cleaned hnamed
    rw [splitPathInfo_origFilename hnamed, hostHttp_hosted hv, patternPaths, apply_ite testedPaths]
  constructor
  · rintro ⟨http, hres, hmatch, hstart, hfile⟩
    rw [resolvedHttp_eq] at hres
    obtain ⟨cleaned, hclean, rfl⟩ := Option.map_eq_some_iff.mp hres
    obtain ⟨hbody, hshared⟩ := hostHttp_body pf cfg w v later cleaned later.body v.shared
    unfold startable at hstart
    rw [hbody, hshared, ← hfile] at hstart
    simp only [Bool.and_eq_true, Bool.not_eq_true'] at hstart
    obtain ⟨⟨⟨hbody, hlimit⟩, hrun⟩, hadmitted⟩ := hstart
    obtain ⟨hexists, hplain⟩ := (hruns file).mp hrun
    have hnamed := (resolveScript_named (hostHttp_pathInfo hv cleaned)).mp ⟨hfile.symm, hexists⟩
    rw [hpaths cleaned hnamed] at hmatch
    refine ⟨_, ⟨?_, hnamed, hplain, hbody, hlimit, hadmitted⟩, hmatch⟩
    rw [requestPath, hclean]
    rfl
  · rintro ⟨path, ⟨hpath, hnamed, hplain, hbody, hlimit, hadmitted⟩, hmatch⟩
    obtain ⟨cleaned, hclean, rfl⟩ := Option.map_eq_some_iff.mp hpath
    rw [← hpaths cleaned hnamed] at hmatch
    obtain ⟨hfile, hexists⟩ := (resolveScript_named (hostHttp_pathInfo hv cleaned)).mpr hnamed
    obtain ⟨hbody', hshared⟩ := hostHttp_body pf cfg w v later cleaned later.body v.shared
    refine ⟨splitPathInfo cfg w (hostHttp pf cfg v.slot.http cleaned), ?_, hmatch, ?_, hfile.symm⟩
    · rw [resolvedHttp_eq, hclean]
      rfl
    · unfold startable
      rw [hbody', hshared, hfile, hbody, hlimit, hadmitted, (hruns file).mpr ⟨hexists, hplain⟩]
      rfl

end Starts

/-! ### The property and its condition

A program that was run is identified by the path of its file.  The pattern is for URL
paths, and the URL path of a file is the part of it behind the document root.
-/

/-- Every program that was run matches the CGI pattern with its own URL path. -/
def OnlyScripts (cfg : ServerConfig) (v v' : View) : Prop :=
  ∀ call ∈ newCalls v v', ∃ script, call.scriptName = some script ∧ matchesCgi cfg script = true

/--
A file is run for the sake of another path: the request names it and it does not
match the pattern, but a directory above it does or, behind a virtual host, some
other path of the request.
-/
structure Mistaken (pf : Platform) (cfg : ServerConfig) (w : World) (v : View) (later : Later)
    (path file : Str) : Prop where
  names : NamesFile pf cfg w v later path file
  unlike : matchesCgi cfg file = false
  other : ∃ p ∈ patternPaths pf cfg v.slot.http path file, p ≠ file ∧ matchesCgi cfg p = true

/--
**Only programs are run exactly when** no file is named below a directory that
matches in its place.

Two searches go up the request path: one stops where the pattern matches, the other
where a file exists.  The file the second one stops at need not match.
-/
theorem only_scripts_run_iff {pf : Platform} {cfg : ServerConfig} {w : World} {v v' : View}
    {later : Later} (hv : Untouched v) (h : serveRequest pf cfg w v later = .ok v') :
    OnlyScripts cfg v v' ↔ ¬ ∃ path file, Mistaken pf cfg w v later path file := by
  unfold OnlyScripts
  rw [(serveRequest_sent hv h).forall_calls fun _ name =>
    ∃ script, name = some script ∧ matchesCgi cfg script = true]
  constructor
  · rintro hall ⟨path, file, hnames, hunlike, p, hp, -, hmatch⟩
    have hstarts := (startsScript_iff hv).mpr ⟨path, hnames, p, hp, hmatch⟩
    obtain ⟨script, hscript, hlike⟩ := hall file ((requestScript_eq_some ..).mpr hstarts)
    rw [← Option.some.inj hscript, hunlike] at hlike
    cases hlike
  · intro hnone file hfile
    obtain ⟨path, hnames, p, hp, hmatch⟩ := (startsScript_iff hv).mp ((requestScript_eq_some ..).mp hfile)
    refine ⟨file, rfl, ?_⟩
    by_contra hunlike
    refine hnone ⟨path, file, hnames, Bool.eq_false_iff.mpr hunlike, p, hp, ?_, hmatch⟩
    rintro rfl
    exact hunlike hmatch

/-! ### A text file that is run

A directory whose name ends in what the pattern asks of programs.
-/

/-- A directory named like a program, with a text file in it. -/
def cgiDirTree : FileSystem :=
  wwwTree [("a.cgi".toList, plainDir [("b.txt".toList, .file ⟨0o755, 0, true⟩ [104, 105])])]

/-- A request for the text file. -/
def textView : View := requestView "GET /a.cgi/b.txt HTTP/1.0\r\n\r\n"

/-- What it gets. -/
def textAnswer : View :=
  resultOf textView (serveRequest .epoch cgiConfig (World.still cgiDirTree) textView
    (.nothing (World.still cgiDirTree) textView))

/--
**The text file is run as a program.**

The directory matches, so every request below it is for a program, and the file that
is there is started.
-/
theorem text_file_is_run :
    serveRequest .epoch cgiConfig (World.still cgiDirTree) textView
        (.nothing (World.still cgiDirTree) textView) = .ok textAnswer ∧
      ¬ OnlyScripts cgiConfig textView textAnswer := by
  refine ⟨eq_ok_of_panicOf _ (by decide +kernel), ?_⟩
  intro h
  have hcalls : (newCalls textView textAnswer).map CgiCall.scriptName
      = [some "/a.cgi/b.txt".toList] := by decide +kernel
  have hmem : some "/a.cgi/b.txt".toList ∈
      (newCalls textView textAnswer).map CgiCall.scriptName := by
    rw [hcalls]
    exact List.mem_singleton.mpr rfl
  obtain ⟨call, hcall, hname⟩ := List.mem_map.mp hmem
  obtain ⟨script, hscript, hm⟩ := h call hcall
  cases hname.symm.trans hscript
  exact absurd hm (by decide +kernel)

/-- A request for a program that matches with its own path. -/
def scriptView : View := requestView "GET /a.cgi HTTP/1.0\r\n\r\n"

theorem only_scripts_run_sample :
    OnlyScripts cgiConfig scriptView (resultOf scriptView
      (serveRequest .epoch cgiConfig (World.still scriptTree) scriptView
        (.nothing (World.still scriptTree) scriptView))) := by
  refine (only_scripts_run_iff ⟨rfl, rfl, rfl, _, _, _, rfl⟩
    (eq_ok_of_panicOf _ (by decide +kernel))).mpr ?_
  rintro ⟨path, file, hnames, hunlike, -⟩
  have hpath : requestPath .epoch cgiConfig scriptView.slot.http = some "/a.cgi".toList := by
    decide +kernel
  cases hpath.symm.trans hnames.asked
  have hfile : namedFile cgiConfig (World.still scriptTree) "/a.cgi".toList = some "/a.cgi".toList := by
    decide +kernel
  cases hfile.symm.trans hnames.named
  exact absurd hunlike (by decide +kernel)

end Thttpd
