/-
Requests stay inside the document root, and when they do not.

A cleaned URL path is a list of plain names, and so is every prefix of it: whatever
is joined from one lies below the root.  Two things break this.  A virtual host is
put in front of the path as it came, so it may be absolute or climb with `..`; and
a program is started without looking where the links on its path lead, while a file
is only opened once its canonical form is known to lie below the root.

The two kinds of confinement are kept apart.  A path is lexically inside when its
names are those of the root followed by names that do not climb; its canonical form
is inside when this holds of the path the links lead to.  Without links the second
follows from the first, and with them it is what the check of the source looks at.
-/
import Thttpd.Proofs.Scripts

namespace Thttpd

open Text Fs

/-! ### Lexically inside

A path is joined to the root by its names.  An absolute path replaces the root, as
`Path::join` has it, and a `..` in it climbs.
-/

/-- A path below the root: the root's names, and then none that climbs. -/
def InsideLex (root p : Path) : Prop :=
  p.absolute = root.absolute ∧ root.comps <+: p.comps ∧
    Path.dotdot ∉ p.comps.drop root.comps.length

instance (root p : Path) : Decidable (InsideLex root p) :=
  decidable_of_iff (p.absolute = root.absolute ∧ root.comps.isPrefixOf p.comps = true ∧
    (p.comps.drop root.comps.length).contains Path.dotdot = false)
    (by simp [InsideLex])

/--
What has to be true of a string for the path joined from it to lie inside: it does
not climb, or, if it replaces the root, lies inside by itself.
-/
def JoinConfined (root : Path) (s : Str) : Prop :=
  if s.head? = some '/' then InsideLex root (Path.parse s) else Path.dotdot ∉ (Path.parse s).comps

theorem insideLex_join (root : Path) (s : Str) :
    InsideLex root (root.join s) ↔ JoinConfined root s := by
  unfold JoinConfined
  by_cases habs : s.head? = some '/'
  · rw [if_pos habs, Path.join, if_pos habs]
  · rw [if_neg habs]
    obtain ⟨hab, hcomps⟩ := Path.join_of_relative (p := root) habs
    unfold InsideLex
    rw [hcomps, List.drop_left]
    exact ⟨fun h => h.2.2, fun hno => ⟨hab, List.prefix_append _ _, hno⟩⟩

/-! ### Clean paths

What `normalize_path` returns begins with a slash and consists of names, none of
which climbs.
-/

/-- A URL path of plain names: it begins with one slash and never climbs. -/
structure CleanPath (path : Str) : Prop where
  slash : ∃ rest, path = '/' :: rest ∧ rest.head? ≠ some '/'
  noDotdot : Path.dotdot ∉ (Path.parse path).comps

theorem CleanPath.confined {path : Str} (h : CleanPath path) (root : Path) :
    JoinConfined root (path.drop 1) := by
  obtain ⟨rest, rfl, hrel⟩ := h.slash
  have hno := h.noDotdot
  rw [Path.parse_comps_cons] at hno
  unfold JoinConfined
  rw [List.drop_one, List.tail_cons, if_neg hrel]
  exact hno

/-- The names a cleaned path is put together from. -/
structure PlainNames (cs : List Str) : Prop where
  noSlash : ∀ c ∈ cs, '/' ∉ c
  nonempty : ∀ c ∈ cs, c ≠ []
  noDotdot : ∀ c ∈ cs, c ≠ Path.dotdot

theorem pushComponent_plain {cs cs' : List Str} {part : Str} (h : PlainNames cs)
    (hslash : '/' ∉ part) (hp : pushComponent (some cs) part = some cs') : PlainNames cs' := by
  unfold pushComponent at hp
  simp only [Option.bind_some] at hp
  split at hp
  · cases hp
    exact h
  rename_i hskip
  split at hp
  · split at hp
    · cases hp
    · cases hp
      exact ⟨fun c hc => h.noSlash c (List.dropLast_subset _ hc),
        fun c hc => h.nonempty c (List.dropLast_subset _ hc),
        fun c hc => h.noDotdot c (List.dropLast_subset _ hc)⟩
  · rename_i hup
    cases hp
    have hcases : ∀ {P : Str → Prop}, (∀ c ∈ cs, P c) → P part → ∀ c ∈ cs ++ [part], P c := by
      intro P hcs hpart c hc
      rcases List.mem_append.mp hc with hc | hc
      · exact hcs c hc
      · rw [List.mem_singleton.mp hc]
        exact hpart
    exact ⟨hcases h.noSlash hslash, hcases h.nonempty fun h => hskip (.inl h),
      hcases h.noDotdot hup⟩

theorem foldl_pushComponent_none (parts : List Str) :
    parts.foldl pushComponent none = none := by
  induction parts with
  | nil => rfl
  | cons part parts ih => exact ih

theorem foldl_pushComponent_plain : ∀ (parts : List Str) {cs cs' : List Str}, PlainNames cs →
    (∀ part ∈ parts, '/' ∉ part) → parts.foldl pushComponent (some cs) = some cs' →
    PlainNames cs' := by
  intro parts
  induction parts with
  | nil =>
      intro cs cs' h _ hf
      cases hf
      exact h
  | cons part parts ih =>
      intro cs cs' h hslash hf
      rw [List.foldl_cons] at hf
      cases hp : pushComponent (some cs) part with
      | none =>
          rw [hp, foldl_pushComponent_none] at hf
          cases hf
      | some cs₁ =>
          rw [hp] at hf
          exact ih (pushComponent_plain h (hslash part (by simp)) hp)
            (fun q hq => hslash q (by simp [hq])) hf

/--
**A path that cleans up is clean.**

The components are names since the fold takes out the rest, and there is one slash
in front of them since the text is put together so.
-/
theorem normalizePath_clean {path normalized : Str} (h : normalizePath path = some normalized) :
    CleanPath normalized := by
  unfold normalizePath at h
  split at h
  · cases h
  obtain ⟨cs, hfold, rfl⟩ := Option.map_eq_some_iff.mp h
  have hplain := foldl_pushComponent_plain _ ⟨by simp, by simp, by simp⟩
    (fun part hpart => notMem_of_mem_splitOn hpart) hfold
  have hcomps := Path.parse_comps_intercalate hplain.noSlash hplain.nonempty
  refine ⟨⟨_, rfl, ?_⟩, ?_⟩
  · cases cs with
    | nil => simp
    | cons c cs =>
        intro hhead
        obtain ⟨x, xs, hc⟩ := List.exists_cons_of_ne_nil (hplain.nonempty c (by simp))
        have hx : x = '/' := by
          cases cs with
          | nil => simpa [List.intercalate, hc] using hhead
          | cons d ds => simpa [List.intercalate, hc] using hhead
        exact hplain.noSlash c (by simp) (by rw [hc, hx]; simp)
  · show Path.dotdot ∉ (Path.parse ('/' :: _)).comps
    rw [Path.parse_comps_cons, hcomps]
    exact fun hmem => hplain.noDotdot _ hmem rfl

/-! ### Prefixes

Components are only ever taken off the end, and a prefix of a path that does not
climb does not climb.
-/

theorem CleanPath.strip {path before stripped : Str} (h : CleanPath path)
    (hs : stripComponent path = some (before, stripped)) : CleanPath before := by
  obtain ⟨hpath, hne⟩ := stripComponent_eq_some hs
  obtain ⟨rest, hrest, hrel⟩ := h.slash
  have hno := h.noDotdot
  rw [hpath, Path.parse_comps_append] at hno
  obtain ⟨x, xs, rfl⟩ := List.exists_cons_of_ne_nil hne
  rw [hpath, List.cons_append, List.cons.injEq] at hrest
  obtain ⟨rfl, hxs⟩ := hrest
  refine ⟨⟨xs, rfl, fun hhead => hrel ?_⟩, fun hmem => hno (List.mem_append_left _ hmem)⟩
  cases xs with
  | nil => cases hhead
  | cons y ys => rw [← hxs]; exact hhead

/-- Whatever survives stripping one component survives the loop. -/
theorem stripUntil_preserves {P : Str → Prop}
    (hstrip : ∀ path before stripped, P path → stripComponent path = some (before, stripped) →
      P before) (found : Str → Bool) : ∀ (fuel : Nat) (path info : Str), P path →
      P (stripUntil found fuel path info).1 := by
  intro fuel
  induction fuel with
  | zero => intro path info h; exact h
  | succ fuel ih =>
      intro path info h
      unfold stripUntil
      split
      · exact h
      · split
        · rename_i before stripped hs
          exact ih _ _ (hstrip _ _ _ h hs)
        · exact h

theorem resolveScript_preserves {P : Str → Prop}
    (hstrip : ∀ path before stripped, P path → stripComponent path = some (before, stripped) →
      P before) (cfg : ServerConfig) (w : World) {http : HttpConn} (h : P http.origFilename) :
    P (resolveScript cfg w http).1 := by
  have hp := stripUntil_preserves hstrip (fun path => w.fs.exists_ (scriptFile cfg path))
    http.origFilename.length http.origFilename [] h
  unfold resolveScript
  split
  · split
    · rename_i path info heq
      rw [heq] at hp
      exact hp
    · exact h
  · exact h

/-! ### Without a virtual host

Then the path that is joined to the root is the cleaned one, or a prefix of it, so
the file of the request lies inside.
-/

/-- Whether the host goes in front of the path. -/
def vhostApplies (cfg : ServerConfig) (http : HttpConn) : Bool := cfg.vhost && !http.host.isEmpty

theorem applyVhost_off {pf : Platform} {cfg : ServerConfig} (http : HttpConn)
    (h : vhostApplies cfg http = false) : applyVhost pf cfg http = http := by
  unfold vhostApplies at h
  unfold applyVhost
  rw [h]
  rfl

theorem applyVhost_on {pf : Platform} {cfg : ServerConfig} (http : HttpConn)
    (h : vhostApplies cfg http = true) :
    (applyVhost pf cfg http).origFilename = '/' :: (pf.toLowercase http.host ++ http.origFilename)
      := by
  unfold vhostApplies at h
  unfold applyVhost
  rw [if_pos h]
  rfl

theorem splitPathInfo_clean {cfg : ServerConfig} {w : World} {http : HttpConn}
    (h : CleanPath http.origFilename) : CleanPath (splitPathInfo cfg w http).origFilename := by
  have hp := stripUntil_preserves (fun _ _ _ hc hs => hc.strip hs)
    (fun path => w.fs.exists_ (docFile cfg path)) http.origFilename.length http.origFilename [] h
  unfold splitPathInfo
  split
  · exact h
  · simp only
    split
    · exact h
    · exact hp

theorem resolveRequest_clean {pf : Platform} {cfg : ServerConfig} {w : World} {http : HttpConn}
    {normalized : Str} (hvhost : vhostApplies cfg http = false) (h : CleanPath normalized) :
    CleanPath (resolveRequest pf cfg w http normalized).origFilename := by
  unfold resolveRequest
  rw [applyVhost_off { http with origFilename := normalized } hvhost]
  exact splitPathInfo_clean h

/-- The file of a request lies inside, unless the host says otherwise. -/
theorem requestFile_inside_iff (pf : Platform) (cfg : ServerConfig) (http : HttpConn)
    {normalized : Str} (h : CleanPath normalized) :
    InsideLex cfg.root (requestFile pf cfg http normalized) ↔
      (vhostApplies cfg http = true →
        JoinConfined cfg.root (pf.toLowercase http.host ++ normalized)) := by
  unfold requestFile
  cases hvhost : vhostApplies cfg http with
  | false =>
      rw [applyVhost_off { http with origFilename := normalized } hvhost]
      refine ⟨fun _ hf => (by cases hf), ?_⟩
      intro _
      show InsideLex cfg.root (docFile cfg normalized)
      unfold docFile
      split
      · rw [insideLex_join]
        unfold JoinConfined
        rw [if_neg (by decide)]
        decide
      · rw [insideLex_join]
        exact h.confined cfg.root
  | true =>
      rw [applyVhost_on { http with origFilename := normalized } hvhost]
      obtain ⟨rest, hrest, -⟩ := h.slash
      unfold docFile
      rw [if_neg (by simp [hrest]), insideLex_join]
      simp

/-! ### Links

`serve_static` resolves the path and compares the result with the resolved root,
unless the check is turned off.
-/

/-- The canonical form of a path lies below the canonical root. -/
def canonicalInside (cfg : ServerConfig) (w : World) (p : Path) : Bool :=
  match w.fs.canonicalize cfg.root, w.fs.canonicalize p with
  | .ok root, .ok canonical => canonical.startsWith root
  | _, _ => false

theorem stat_of_canonicalize_error {fs : FileSystem} {p : Path} {e : ErrorKind}
    (h : fs.canonicalize p = .error e) : fs.stat p = .error e := by
  unfold FileSystem.canonicalize at h
  unfold FileSystem.stat
  split at h
  · cases h
  · rename_i e' he
    cases h
    rfl

/--
**A file that is opened lies below the root by its canonical form**, when links are
checked.

The check resolves the path and the root and compares the two by names, so the path
that is opened has no link left on it.
-/
theorem staticCheck_canonical {pf : Platform} {cfg : ServerConfig} {w : World} {http : HttpConn}
    {file opened : Path} {node : Node} (hlinks : cfg.noSymlinkCheck = false)
    (h : staticCheck pf cfg w http file = .ok (opened, node)) :
    w.fs.canonicalize file = .ok opened ∧ canonicalInside cfg w file = true := by
  obtain ⟨hpath, hstat, -⟩ := staticCheck_ok h
  unfold staticPath at hpath
  rw [hlinks, if_neg (by simp)] at hpath
  split at hpath
  · cases hpath
  · rename_i root hroot
    split at hpath
    · rename_i e he
      cases hpath
      rw [stat_of_canonicalize_error he] at hstat
      cases hstat
    · rename_i canonical hcanon
      split at hpath
      · rename_i hin
        cases hpath
        refine ⟨hcanon, ?_⟩
        unfold canonicalInside
        rw [hroot, hcanon]
        exact hin
      · cases hpath

/-! ### The property and its condition

Content is judged by the path it was asked for under and the one that was opened,
and a program by the path it was started with.  The condition is on the host in front
of the path and, for a program, on where the links on its way lead.
-/

/-- A path inside the document root, links included unless they are not checked. -/
def Inside (cfg : ServerConfig) (w : World) (p : Path) : Prop :=
  InsideLex cfg.root p ∧ (cfg.noSymlinkCheck = false → canonicalInside cfg w p = true)

instance (cfg : ServerConfig) (w : World) (p : Path) : Decidable (Inside cfg w p) :=
  inferInstanceAs (Decidable (InsideLex cfg.root p ∧
    (cfg.noSymlinkCheck = false → canonicalInside cfg w p = true)))

/-- The path handed to `serve_static` whose content is sent, and the path opened. -/
def Payload.paths : Payload → Option (Path × Path)
  | .none => Option.none
  | .file handed opened => some (handed, opened)
  | .listing handed opened => some (handed, opened)

/-- Everything that was sent or run came from inside the document root. -/
def Confined (cfg : ServerConfig) (w : World) (v v' : View) : Prop :=
  (∀ handed opened, v'.slot.http.payload.paths = some (handed, opened) → Inside cfg w handed) ∧
  (∀ call ∈ newCalls v v', Inside cfg w call.scriptPath)

/-- The host of a request leaves its path inside the root. -/
def HostConfined (pf : Platform) (cfg : ServerConfig) (http : HttpConn) : Prop :=
  vhostApplies cfg http = true → ∀ normalized, normalizePath http.decodedUrl = some normalized →
    JoinConfined cfg.root (pf.toLowercase http.host ++ normalized)

/--
A script is found inside the root: a host in front of its path does not lead out of
it, and neither does a link on the way, when links are to be checked.
-/
def ScriptConfined (cfg : ServerConfig) (w : World) (http : HttpConn) (script : Str) : Prop :=
  (vhostApplies cfg http = true → JoinConfined cfg.root (script.drop 1)) ∧
  (cfg.noSymlinkCheck = false → canonicalInside cfg w (scriptFile cfg script) = true)

/-- Content is sent for a request, as a file or as a listing. -/
def SendsContent (pf : Platform) (cfg : ServerConfig) (w : World) (v : View)
    (handed opened : Path) : Prop :=
  SendsFile pf cfg w v handed opened ∨ SendsListing pf cfg w v handed opened

theorem requestPayload_paths {pf : Platform} {cfg : ServerConfig} {w : World} {v : View}
    {handed opened : Path} :
    (requestPayload pf cfg w v).paths = some (handed, opened) ↔
      SendsContent pf cfg w v handed opened := by
  unfold SendsContent
  rw [← requestPayload_eq_file, ← requestPayload_eq_listing]
  cases requestPayload pf cfg w v <;> simp [Payload.paths]

/-- Content is sent only from a path that passed the checks. -/
theorem SendsContent.passes {pf : Platform} {cfg : ServerConfig} {w : World} {v : View}
    {handed opened : Path} (h : SendsContent pf cfg w v handed opened) :
    ∃ http node, Passes pf cfg w v http handed opened node := by
  rcases h with ⟨http, node, hpass, -⟩ | ⟨http, node, hpass, -⟩
  · exact ⟨http, node, hpass⟩
  · exact ⟨http, node, hpass⟩

/-- The content a request is sent comes from inside exactly when its host is confined. -/
theorem payload_inside_iff {pf : Platform} {cfg : ServerConfig} {w : World} {v : View}
    {handed opened : Path} (h : SendsContent pf cfg w v handed opened) :
    Inside cfg w handed ↔ HostConfined pf cfg (readRequest pf v.slot.http) := by
  obtain ⟨http, node, hroute, hcheck, -⟩ := h.passes
  obtain ⟨normalized, ⟨hclean, -⟩, rfl, -⟩ := route_static hroute
  have hlex := requestFile_inside_iff pf cfg (readRequest pf v.slot.http)
    (normalizePath_clean hclean)
  constructor
  · rintro ⟨hin, -⟩ hvhost normalized' hnorm
    cases hclean.symm.trans hnorm
    exact hlex.mp hin hvhost
  · intro hhost
    exact ⟨hlex.mpr fun hvhost => hhost hvhost normalized hclean,
      fun hlinks => (staticCheck_canonical hlinks hcheck).2⟩

/-- So does a script, when it is confined. -/
theorem script_inside_iff {pf : Platform} {cfg : ServerConfig} {w : World} {v : View}
    {later : Later} {script : Str} (h : StartsScript pf cfg w v later script) :
    Inside cfg w (scriptFile cfg script) ↔
      ScriptConfined cfg w (readRequest pf v.slot.http) script := by
  obtain ⟨http, hres, hmatch, -, rfl⟩ := h
  have hroute := (route_program_iff pf cfg w _ _).mpr ⟨hres, (isCgi_iff cfg _).mpr hmatch⟩
  obtain ⟨normalized, hresolved, -⟩ := route_program hroute
  unfold Inside ScriptConfined scriptFile
  rw [insideLex_join]
  refine and_congr_left fun _ => ⟨fun hin _ => hin, fun hin => ?_⟩
  cases hvhost : vhostApplies cfg (readRequest pf v.slot.http) with
  | true => exact hin hvhost
  | false =>
      -- Without a virtual host the script is a prefix of a clean path.
      have hclean : CleanPath http.origFilename := by
        rw [hresolved.resolved]
        exact resolveRequest_clean hvhost (normalizePath_clean hresolved.cleaned)
      exact (resolveScript_preserves (fun _ _ _ hc hs => hc.strip hs) cfg w hclean).confined _

/--
**A request stays inside the document root exactly when** it is sent content only
under a confined host, and starts only a confined script.

The right side asks about the request, the tree and what the request may be sent: a
host that does not lead out in front of the path of anything that is sent, and a
program whose canonical place is below the root.
-/
theorem document_root_confined_iff {pf : Platform} {cfg : ServerConfig} {w : World}
    {v v' : View} {later : Later} (hv : Untouched v)
    (h : serveRequest pf cfg w v later = .ok v') :
    Confined cfg w v v' ↔
      (∀ handed opened, SendsContent pf cfg w v handed opened →
        HostConfined pf cfg (readRequest pf v.slot.http)) ∧
      (∀ script, StartsScript pf cfg w v later script →
        ScriptConfined cfg w (readRequest pf v.slot.http) script) := by
  have hsent := serveRequest_sent hv h
  unfold Confined
  rw [hsent.payload, hsent.forall_calls fun p _ => Inside cfg w p]
  simp only [requestPayload_paths, requestScript_eq_some]
  constructor
  · rintro ⟨hcontent, hscript⟩
    exact ⟨fun handed opened hp => (payload_inside_iff hp).mp (hcontent handed opened hp),
      fun script hs => (script_inside_iff hs).mp (hscript script hs)⟩
  · rintro ⟨hcontent, hscript⟩
    exact ⟨fun handed opened hp => (payload_inside_iff hp).mpr (hcontent handed opened hp),
      fun script hs => (script_inside_iff hs).mpr (hscript script hs)⟩

/-! ### Two ways out

A host that climbs out of the root, and a program that is a link.
-/

/-- A secret and a program beside the document root, and a link to the program in it. -/
def outsideTree : FileSystem :=
  rootTree
    [("www".toList, plainDir [("a.cgi".toList, .symlink "/b.cgi".toList)]),
     ("secret.txt".toList, plainFile (asBytes "s".toList)),
     ("b.cgi".toList, .file ⟨0o755, 0, true⟩ [])]

/-- Virtual hosts, and links followed anywhere. -/
def vhostConfig : ServerConfig := { wwwConfig with vhost := true, noSymlinkCheck := true }

/-- A host that climbs. -/
def climbingView : View := requestView "GET /secret.txt HTTP/1.1\r\nHost: ..\r\n\r\n"

def climbingAnswer : View :=
  resultOf climbingView (serveRequest .epoch vhostConfig (World.still outsideTree) climbingView
    (.nothing (World.still outsideTree) climbingView))

/-- A program that is a link out of the root. -/
def linkView : View := requestView "GET /a.cgi HTTP/1.0\r\n\r\n"

def linkAnswer : View :=
  resultOf linkView (serveRequest .epoch cgiConfig (World.still outsideTree) linkView
    (.nothing (World.still outsideTree) linkView))

/--
**A file outside the root is sent, and a program outside the root is run**, the
second with links checked.

In both cases the tree has a file beside the root and the request is one a client
can send.
-/
theorem requests_leave_document_root :
    (serveRequest .epoch vhostConfig (World.still outsideTree) climbingView
        (.nothing (World.still outsideTree) climbingView) = .ok climbingAnswer ∧
      ¬ Confined vhostConfig (World.still outsideTree) climbingView climbingAnswer) ∧
    (serveRequest .epoch cgiConfig (World.still outsideTree) linkView
        (.nothing (World.still outsideTree) linkView) = .ok linkAnswer ∧
      ¬ Confined cgiConfig (World.still outsideTree) linkView linkAnswer) := by
  refine ⟨⟨eq_ok_of_panicOf _ (by decide +kernel), ?_⟩,
    eq_ok_of_panicOf _ (by decide +kernel), ?_⟩
  · intro h
    have hpath : climbingAnswer.slot.http.payload.paths = some
        (Path.parse "/www/../secret.txt".toList, Path.parse "/www/../secret.txt".toList) := by
      decide +kernel
    exact absurd (h.1 _ _ hpath) (by decide +kernel)
  · intro h
    have hcalls : (newCalls linkView linkAnswer).map CgiCall.scriptPath
        = [Path.parse "/www/a.cgi".toList] := by decide +kernel
    have hmem : Path.parse "/www/a.cgi".toList ∈
        (newCalls linkView linkAnswer).map CgiCall.scriptPath := by
      rw [hcalls]
      exact List.mem_singleton.mpr rfl
    obtain ⟨call, hcall, hpath⟩ := List.mem_map.mp hmem
    have hin := h.2 call hcall
    rw [hpath] at hin
    exact absurd hin (by decide +kernel)

/-- A request for a file in the root. -/
def tenByteView : View := requestView "GET /f.txt HTTP/1.0\r\n\r\n"

theorem document_root_confined_sample :
    Confined wwwConfig (World.still tenByteTree) tenByteView (resultOf tenByteView
      (serveRequest .epoch wwwConfig (World.still tenByteTree) tenByteView
        (.nothing (World.still tenByteTree) tenByteView))) := by
  refine (document_root_confined_iff ⟨rfl, rfl, rfl, _, _, _, rfl⟩
    (eq_ok_of_panicOf _ (by decide +kernel))).mpr ⟨?_, ?_⟩
  · intro _ _ _ hvhost
    cases hvhost
  · intro script hscript
    have hnone : requestScript .epoch wwwConfig (World.still tenByteTree) tenByteView
        (.nothing (World.still tenByteTree) tenByteView) = none := by decide +kernel
    cases hnone.symm.trans ((requestScript_eq_some ..).mpr hscript)

end Thttpd
