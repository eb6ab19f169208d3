/-
Which content a password file protects.

A password file protects the directory it stands in, with everything below.  Where a
resource stands is its canonical path; the nearest protected directory at or above
it, inside the document root, is the one whose password file must accept the
credentials (`Covered`).

For a path without links the code's walk over the parent directories is just that.
It is not for a listing, where the walk starts above the directory that is listed;
for a program, for which nobody walks; and for a path over a link, when links are
not resolved, which need not stand where it says.  Each of these is a `Gap`, and so
is a password file that is asked for; a request with none of them is covered.

Both sides are in terms of canonical places.  A resource has the place its links lead
to, and the name it was asked for under; the password file itself is judged by both,
since it must be sent under neither.
-/
import Mathlib.Data.List.Infix
import Thttpd.Proofs.Confinement

namespace Thttpd

open Text Fs

/-! ### The nearest password file

From a directory upwards the first that holds a password file decides.  Its lines are
searched for the user, and the first line with that name is the one that counts.
-/

/-- The absolute path with these names. -/
def absPath (names : List Str) : Path := ⟨true, names, false⟩

/-- The directories from `names` upwards, nearest first. -/
def upwards (names : List Str) : List (List Str) := names.inits.reverse

/--
The nearest directory at or above `names`, still inside `root`, that holds a
password file.
-/
def nearestAuth (fs : FileSystem) (root names : List Str) : Option (List Str) :=
  ((upwards names).takeWhile root.isPrefixOf).find? fun dir => hasAuthFile fs (absPath dir)

/-- Credentials that the password file of a directory accepts. -/
def Accepts (pf : Platform) (fs : FileSystem) (dir : List Str) (authorization : Str) : Prop :=
  checkHtpasswd pf fs ((absPath dir).join authFile) authorization = .ok

/-- The hash a password file has for a user: that of the user's first line. -/
def hashOf (user content : Str) : Option Str :=
  (lines content).findSome? fun line =>
    (splitOnce ':' (trimEnd line)).bind fun entry => if entry.1 = user then some entry.2 else none

/--
The request carries Basic credentials, and its password is that of the user's line
in the password file of the directory.
-/
def Verified (pf : Platform) (fs : FileSystem) (dir : List Str) (authorization : Str) : Prop :=
  ∃ user pass bytes content hash, parseBasicAuth pf authorization = some (user, pass) ∧
    fs.read ((absPath dir).join authFile) = .ok bytes ∧ fromUtf8 bytes = some content ∧
    hashOf user content = some hash ∧ verifyPassword pf pass hash = true

theorem checkLines_eq_ok {pf : Platform} {user pass : Str} : ∀ {ls : List Str},
    checkLines pf user pass ls = .ok ↔
      ∃ hash, (ls.findSome? fun line => (splitOnce ':' (trimEnd line)).bind fun entry =>
        if entry.1 = user then some entry.2 else none) = some hash ∧
        verifyPassword pf pass hash = true := by
  intro ls
  induction ls with
  | nil => simp [checkLines]
  | cons line rest ih =>
      unfold checkLines
      rw [List.findSome?_cons]
      simp only
      by_cases hempty : trimEnd line = []
      · rw [if_pos hempty, hempty]
        exact ih
      · rw [if_neg hempty]
        cases hsplit : splitOnce ':' (trimEnd line) with
        | none => exact ih
        | some entry =>
            obtain ⟨lineUser, lineHash⟩ := entry
            simp only [Option.bind_some]
            by_cases huser : lineUser = user
            · rw [if_neg (not_not.mpr huser), if_pos huser]
              cases hverify : verifyPassword pf pass lineHash with
              | true => simp [hverify]
              | false => simp [hverify]
            · rw [if_pos huser, if_neg huser]
              exact ih

/--
**What the check of the password file accepts.**

The lines are searched for the user in order, and the first one with that name
decides, whether its hash is right or not.
-/
theorem accepts_iff_verified {pf : Platform} {fs : FileSystem} {dir : List Str} {authorization : Str} :
    Accepts pf fs dir authorization ↔ Verified pf fs dir authorization := by
  unfold Accepts checkHtpasswd Verified
  cases parseBasicAuth pf authorization with
  | none => simp
  | some credentials =>
      obtain ⟨user, pass⟩ := credentials
      simp only
      cases fs.read ((absPath dir).join authFile) with
      | error e => simp
      | ok bytes =>
          simp only
          cases htext : fromUtf8 bytes with
          | none => simp [htext]
          | some content =>
              simp only
              rw [checkLines_eq_ok]
              constructor
              · rintro ⟨hash, hfirst, hverify⟩
                exact ⟨user, pass, bytes, content, hash, rfl, rfl, htext, hfirst, hverify⟩
              · rintro ⟨user', pass', bytes', content', hash, hcred, hread, htext', hfirst, hverify⟩
                obtain ⟨rfl, rfl⟩ := Prod.mk.inj (Option.some.inj hcred)
                cases hread
                cases htext.symm.trans htext'
                exact ⟨hash, hfirst, hverify⟩

/--
Nothing protects a directory inside the document root, or the nearest password file
accepts the credentials.
-/
def Covered (pf : Platform) (cfg : ServerConfig) (fs : FileSystem) (names : List Str)
    (authorization : Str) : Prop :=
  ∀ root dir, fs.canonicalNames cfg.root = .ok root → nearestAuth fs root names = some dir →
    Accepts pf fs dir authorization

/-- A place is protected, by a nearest password file that does not know the credentials. -/
def Denied (pf : Platform) (cfg : ServerConfig) (fs : FileSystem) (names : List Str)
    (authorization : Str) : Prop :=
  ∃ root dir, fs.canonicalNames cfg.root = .ok root ∧ nearestAuth fs root names = some dir ∧
    ¬ Verified pf fs dir authorization

theorem denied_iff {pf : Platform} {cfg : ServerConfig} {fs : FileSystem} {names : List Str}
    {authorization : Str} :
    Denied pf cfg fs names authorization ↔ ¬ Covered pf cfg fs names authorization := by
  unfold Denied Covered
  constructor
  · rintro ⟨root, dir, hroot, hdir, hdenied⟩ hcov
    exact hdenied (accepts_iff_verified.mp (hcov root dir hroot hdir))
  · intro hnot
    by_contra hnone
    refine hnot fun root dir hroot hdir => ?_
    by_contra hdenied
    exact hnone ⟨root, dir, hroot, hdir, fun hok => hdenied (accepts_iff_verified.mpr hok)⟩

theorem upwards_concat (names : List Str) (name : Str) :
    upwards (names ++ [name]) = (names ++ [name]) :: upwards names := by
  unfold upwards
  rw [List.inits_append]
  simp

theorem upwards_eq_cons (names : List Str) :
    upwards names = names :: names.inits.dropLast.reverse := by
  rcases List.eq_nil_or_concat' names with rfl | ⟨ys, y, rfl⟩
  · rfl
  · rw [upwards_concat, List.inits_append]
    simp [upwards]

/-! ### The walk of the code

The walk goes up from the parent of the path that was opened and stops at the first
directory with a password file.  For a path without links that is the nearest one.
-/

theorem checkLines_ne_noAuthFile (pf : Platform) (user pass : Str) :
    ∀ lines, checkLines pf user pass lines ≠ .noAuthFile := by
  intro lines
  induction lines with
  | nil => simp [checkLines]
  | cons line rest ih =>
      unfold checkLines
      simp only
      split
      · exact ih
      · split
        · exact ih
        · split
          · exact ih
          · split <;> simp

theorem checkHtpasswd_ne_noAuthFile (pf : Platform) (fs : FileSystem) (p : Path)
    (authorization : Str) : checkHtpasswd pf fs p authorization ≠ .noAuthFile := by
  unfold checkHtpasswd
  split
  · simp
  · split
    · simp
    · split
      · simp
      · exact checkLines_ne_noAuthFile _ _ _ _

/-- Real names are their own components. -/
theorem absPath_components {fs : FileSystem} {names : List Str} (h : fs.Real names) :
    (absPath names).components = names := by
  unfold Path.components absPath
  rw [List.filter_eq_self]
  intro name hname
  simpa using (h.plain name hname).1

theorem ancestors_absPath {fs : FileSystem} {names : List Str} (h : fs.Real names) :
    ancestors (absPath names) = names.inits.dropLast.reverse.map absPath := by
  unfold ancestors
  rw [absPath_components h]
  rfl

/-- A password file above a path that was let through accepts the credentials. -/
theorem accepts_of_authCheck2 {pf : Platform} {fs : FileSystem} {names dir : List Str}
    {authorization : Str} (hreal : fs.Real names)
    (hauth : authCheck2 pf fs (absPath names) authorization = .noAuthFile ∨
      authCheck2 pf fs (absPath names) authorization = .ok)
    (hdir : (names.inits.dropLast.reverse).find? (fun d => hasAuthFile fs (absPath d))
      = some dir) : Accepts pf fs dir authorization := by
  have hfind : (ancestors (absPath names)).find? (hasAuthFile fs) = some (absPath dir) := by
    rw [ancestors_absPath hreal, List.find?_map]
    show Option.map absPath (List.find? (fun d => hasAuthFile fs (absPath d)) _) = _
    rw [hdir]
    rfl
  unfold authCheck2 at hauth
  rw [hfind] at hauth
  rcases hauth with h | h
  · exact absurd h (checkHtpasswd_ne_noAuthFile _ _ _ _)
  · exact h

theorem find?_of_takeWhile {α : Type} {p q : α → Bool} {l : List α} {a : α}
    (h : (l.takeWhile q).find? p = some a) : l.find? p = some a := by
  rw [← List.takeWhile_append_dropWhile (p := q) (l := l), List.find?_append, h]
  rfl

/--
**A file that was let through is covered**, once its links are resolved.

The walk begins at the parent of the file, so what it finds is the nearest password
file at or above the directory the file stands in.
-/
theorem covered_of_authCheck2 {pf : Platform} {cfg : ServerConfig} {fs : FileSystem}
    {names : List Str} {authorization : Str} (hreal : fs.Real names) (hne : names ≠ [])
    (hauth : authCheck2 pf fs (absPath names) authorization = .noAuthFile ∨
      authCheck2 pf fs (absPath names) authorization = .ok) :
    Covered pf cfg fs names.dropLast authorization := by
  intro root dir _ hnear
  refine accepts_of_authCheck2 hreal hauth ?_
  obtain ⟨ys, y, rfl⟩ := (List.eq_nil_or_concat' names).resolve_left hne
  rw [List.dropLast_concat] at hnear
  have hinits : (ys ++ [y]).inits.dropLast.reverse = upwards ys := by
    rw [List.inits_append]
    simp [upwards]
  rw [hinits]
  exact find?_of_takeWhile hnear

/-- A directory inside the root that holds a password file is the nearest to itself. -/
theorem nearestAuth_self {fs : FileSystem} {root names : List Str} (hin : root <+: names)
    (hown : hasAuthFile fs (absPath names) = true) : nearestAuth fs root names = some names := by
  unfold nearestAuth
  rw [upwards_eq_cons, List.takeWhile_cons_of_pos (List.isPrefixOf_iff_prefix.mpr hin)]
  exact List.find?_cons_of_pos hown

/--
**A directory that was let through is covered** if its own password file, where it
has one, accepts the credentials.

A listing is of the directory itself, and the walk begins above it, so its own
password file is not asked and has to be spoken for here.
-/
theorem covered_of_listing {pf : Platform} {cfg : ServerConfig} {fs : FileSystem}
    {names : List Str} {authorization : Str} (hreal : fs.Real names)
    (hauth : authCheck2 pf fs (absPath names) authorization = .noAuthFile ∨
      authCheck2 pf fs (absPath names) authorization = .ok)
    (hown : ∀ root, fs.canonicalNames cfg.root = .ok root → root <+: names →
      hasAuthFile fs (absPath names) = true → Accepts pf fs names authorization) :
    Covered pf cfg fs names authorization := by
  intro root dir hroot hnear
  unfold nearestAuth at hnear
  rw [upwards_eq_cons, List.takeWhile_cons] at hnear
  split at hnear
  · rename_i hin
    rw [List.find?_cons] at hnear
    split at hnear
    · rename_i hself
      rw [← Option.some.inj hnear]
      exact hown root hroot (List.isPrefixOf_iff_prefix.mp hin) hself
    · exact accepts_of_authCheck2 hreal hauth (find?_of_takeWhile hnear)
  · cases hnear

/-! ### The property and its condition

What can go wrong is listed by kind, each in terms of the request, the tree and the
configuration.
-/

/--
What is sent of a file that stands at `names`: it is covered where it stands, and it
is no password file, neither there nor under the name it was opened with.
-/
def FileCovered (pf : Platform) (cfg : ServerConfig) (fs : FileSystem) (opened : Path)
    (names : List Str) (authorization : Str) : Prop :=
  Covered pf cfg fs names.dropLast authorization ∧
    names.getLast? ≠ some authFile ∧ opened.fileName ≠ some authFile

/-- Everything a request is sent, and the program it runs, is covered where it stands. -/
structure AuthCovered (pf : Platform) (cfg : ServerConfig) (w : World) (v v' : View)
    (authorization : Str) : Prop where
  file : ∀ handed opened names, v'.slot.http.payload = .file handed opened →
    w.fs.canonicalNames opened = .ok names → FileCovered pf cfg w.fs opened names authorization
  listing : ∀ handed opened names, v'.slot.http.payload = .listing handed opened →
    w.fs.canonicalNames opened = .ok names → Covered pf cfg w.fs names authorization
  script : ∀ call ∈ newCalls v v', ∀ names, w.fs.canonicalNames call.scriptPath = .ok names →
    Covered pf cfg w.fs names.dropLast authorization

/-- What a request, a tree and a configuration can have that nobody looks at. -/
inductive Gap (pf : Platform) (cfg : ServerConfig) (w : World) (v : View) (later : Later)
    (authorization : Str) : Prop
  /-- The file that is asked for is a password file, or a link of that name leads to it. -/
  | authFile (handed opened : Path) (names : List Str) (sent : SendsFile pf cfg w v handed opened)
      (stands : w.fs.canonicalNames opened = .ok names)
      (named : names.getLast? = some authFile ∨ opened.fileName = some authFile)
  /-- A directory is asked for that holds a password file itself, and the walk for a listing
  starts above it. -/
  | ownFile (handed opened : Path) (names root : List Str) (sent : SendsListing pf cfg w v handed opened)
      (stands : w.fs.canonicalNames opened = .ok names) (rooted : w.fs.canonicalNames cfg.root = .ok root)
      (inside : root <+: names) (holds : hasAuthFile w.fs (absPath names) = true)
      (unknown : ¬ Verified pf w.fs names authorization)
  /-- Links are not resolved, and one leads to a file at a protected place. -/
  | linkedFile (handed opened : Path) (names : List Str) (unchecked : cfg.noSymlinkCheck = true)
      (sent : SendsFile pf cfg w v handed opened) (stands : w.fs.canonicalNames opened = .ok names)
      (link : opened ≠ absPath names) (denied : Denied pf cfg w.fs names.dropLast authorization)
  /-- Or to a protected directory. -/
  | linkedListing (handed opened : Path) (names : List Str) (unchecked : cfg.noSymlinkCheck = true)
      (sent : SendsListing pf cfg w v handed opened) (stands : w.fs.canonicalNames opened = .ok names)
      (link : opened ≠ absPath names) (denied : Denied pf cfg w.fs names authorization)
  /-- A program is asked for that stands at a protected place. -/
  | program (path file p : Str) (names : List Str) (asked : NamesFile pf cfg w v later path file)
      (tried : p ∈ patternPaths pf cfg v.slot.http path file) (matched : matchesCgi cfg p = true)
      (stands : w.fs.canonicalNames (scriptFile cfg file) = .ok names)
      (denied : Denied pf cfg w.fs names.dropLast authorization)

/-- A path passes the checks with the request's own credentials. -/
theorem Passes.authorization {pf : Platform} {cfg : ServerConfig} {w : World} {v : View}
    {http : HttpConn} {handed opened : Path} {node : Node}
    (h : Passes pf cfg w v http handed opened node) :
    http.authorization = (readRequest pf v.slot.http).authorization := by
  obtain ⟨normalized, hres, -⟩ := route_static h.1
  rw [hres.resolved, resolveRequest_keeps HttpConn.authorization fun _ _ _ _ => rfl]

theorem canonicalize_eq_ok {fs : FileSystem} {p q : Path} (h : fs.canonicalize p = .ok q) :
    ∃ names, fs.canonicalNames p = .ok names ∧ q = absPath names := by
  unfold FileSystem.canonicalize at h
  split at h
  · rename_i names hn
    cases h
    exact ⟨names, hn, rfl⟩
  · cases h

/-- Over a link a path is opened only when links are not resolved. -/
theorem unchecked_of_link {pf : Platform} {cfg : ServerConfig} {w : World} {http : HttpConn}
    {file opened : Path} {node : Node} {names : List Str}
    (h : staticCheck pf cfg w http file = .ok (opened, node))
    (hnames : w.fs.canonicalNames opened = .ok names) (hlink : opened ≠ absPath names) :
    cfg.noSymlinkCheck = true := by
  by_contra hlinks
  obtain ⟨hcanon, -⟩ := staticCheck_canonical (Bool.not_eq_true _ ▸ hlinks) h
  obtain ⟨real, hreal, rfl⟩ := canonicalize_eq_ok hcanon
  cases (FileSystem.canonicalNames_of_real (FileSystem.canonicalNames_real hreal)).symm.trans hnames
  exact hlink rfl

/-- A file has a name. -/
theorem names_ne_nil {fs : FileSystem} {names : List Str} {node : Node}
    (hstat : fs.stat (absPath names) = .ok node) (hreal : fs.Real names)
    (hfile : node.isDir = false) : names ≠ [] := by
  rintro rfl
  unfold FileSystem.stat at hstat
  rw [show fs.canonicalNames (absPath []) = .ok [] from
    FileSystem.canonicalNames_of_real hreal] at hstat
  cases hstat
  cases hfile

section Covering

variable {pf : Platform} {cfg : ServerConfig} {w : World} {v : View} {later : Later}
  {handed opened : Path} {names : List Str}

/-- What the walk over the parents said of a path without links. -/
theorem Passes.let {http : HttpConn} {node : Node} (h : Passes pf cfg w v http handed opened node)
    (hplain : opened = absPath names) :
    authCheck2 pf w.fs (absPath names) (readRequest pf v.slot.http).authorization = .noAuthFile ∨
      authCheck2 pf w.fs (absPath names) (readRequest pf v.slot.http).authorization = .ok := by
  rw [← hplain, ← h.authorization]
  exact (staticCheck_ok h.2.1).2.2

/-- A file that is sent is covered where it stands, without the gaps for files. -/
theorem fileCovered_of_sent (h : SendsFile pf cfg w v handed opened)
    (hnames : w.fs.canonicalNames opened = .ok names)
    (hgap : ¬ Gap pf cfg w v later (readRequest pf v.slot.http).authorization) :
    FileCovered pf cfg w.fs opened names (readRequest pf v.slot.http).authorization := by
  refine ⟨?_, fun hname => hgap (.authFile handed opened names h hnames (.inl hname)),
    fun hname => hgap (.authFile handed opened names h hnames (.inr hname))⟩
  have hsent := h
  obtain ⟨http, node, hpass, hfile, -⟩ := h
  have hreal := FileSystem.canonicalNames_real hnames
  by_cases hplain : opened = absPath names
  · have hstat := (staticCheck_ok hpass.2.1).2.1
    rw [hplain] at hstat
    exact covered_of_authCheck2 hreal (names_ne_nil hstat hreal hfile) (hpass.let hplain)
  · by_contra hnot
    exact hgap (.linkedFile handed opened names (unchecked_of_link hpass.2.1 hnames hplain) hsent hnames
      hplain (denied_iff.mpr hnot))

/-- So is a directory that is listed, without the gaps for listings. -/
theorem listingCovered_of_sent (h : SendsListing pf cfg w v handed opened)
    (hnames : w.fs.canonicalNames opened = .ok names)
    (hgap : ¬ Gap pf cfg w v later (readRequest pf v.slot.http).authorization) :
    Covered pf cfg w.fs names (readRequest pf v.slot.http).authorization := by
  have hsent := h
  obtain ⟨http, node, hpass, -⟩ := h
  by_cases hplain : opened = absPath names
  · refine covered_of_listing (FileSystem.canonicalNames_real hnames) (hpass.let hplain) ?_
    intro root hroot hin hown
    by_contra hnot
    exact hgap (.ownFile handed opened names root hsent hnames hroot hin hown
      fun hok => hnot (accepts_iff_verified.mpr hok))
  · by_contra hnot
    exact hgap (.linkedListing handed opened names (unchecked_of_link hpass.2.1 hnames hplain) hsent
      hnames hplain (denied_iff.mpr hnot))

end Covering

/--
**Content and programs are covered exactly when there is no gap.**

From right to left the parts of a request are taken one by one, each without the
gaps of its kind.  From left to right a gap is a thing that is sent or run although
the nearest password file knows nothing of the credentials, or the password file
itself.
-/
theorem auth_covered_iff {pf : Platform} {cfg : ServerConfig} {w : World} {v v' : View}
    {later : Later} (hv : Untouched v) (h : serveRequest pf cfg w v later = .ok v') :
    AuthCovered pf cfg w v v' (readRequest pf v.slot.http).authorization ↔
      ¬ Gap pf cfg w v later (readRequest pf v.slot.http).authorization := by
  have hsent := serveRequest_sent hv h
  have hcalls := hsent.forall_calls fun p _ => ∀ names, w.fs.canonicalNames p = .ok names →
    Covered pf cfg w.fs names.dropLast (readRequest pf v.slot.http).authorization
  have hpay := hsent.payload
  constructor
  · intro hc hgap
    cases hgap with
    | authFile handed opened names sent stands named =>
        have hp := hpay.trans (requestPayload_eq_file.mpr sent)
        obtain ⟨-, hplace, hname⟩ := hc.file handed opened names hp stands
        exact named.elim hplace hname
    | ownFile handed opened names root sent stands rooted inside holds unknown =>
        have hp := hpay.trans (requestPayload_eq_listing.mpr sent)
        have hcov := hc.listing handed opened names hp stands
        exact unknown (accepts_iff_verified.mp
          (hcov root names rooted (nearestAuth_self inside holds)))
    | linkedFile handed opened names unchecked sent stands link denied =>
        have hp := hpay.trans (requestPayload_eq_file.mpr sent)
        exact denied_iff.mp denied (hc.file handed opened names hp stands).1
    | linkedListing handed opened names unchecked sent stands link denied =>
        have hp := hpay.trans (requestPayload_eq_listing.mpr sent)
        exact denied_iff.mp denied (hc.listing handed opened names hp stands)
    | program path file p names asked tried matched stands denied =>
        have hstarts := (startsScript_iff hv).mpr ⟨path, asked, p, tried, matched⟩
        exact denied_iff.mp denied
          (hcalls.mp hc.script file ((requestScript_eq_some ..).mpr hstarts) names stands)
  · intro hgap
    refine ⟨?_, ?_, hcalls.mpr ?_⟩
    · intro handed opened names hp hnames
      have hfile := requestPayload_eq_file.mp (hpay.symm.trans hp)
      exact fileCovered_of_sent hfile hnames hgap
    · intro handed opened names hp hnames
      have hlisting := requestPayload_eq_listing.mp (hpay.symm.trans hp)
      exact listingCovered_of_sent hlisting hnames hgap
    · intro file hfile names hnames
      obtain ⟨path, hasked, p, htried, hmatched⟩ :=
        (startsScript_iff hv).mp ((requestScript_eq_some ..).mp hfile)
      by_contra hnot
      exact hgap (.program path file p names hasked htried hmatched hnames (denied_iff.mpr hnot))

/-! ### A protected program that anyone runs

Two requests below protected directories: one that should have been refused, and one
that is let in rightly.
-/

/-- A program beside a password file. -/
def protectedTree : FileSystem :=
  wwwTree [(authFile, plainFile (asBytes "u:x\n".toList)),
    ("a.cgi".toList, .file ⟨0o755, 0, true⟩ [])]

/-- What a request for it without credentials gets. -/
def protectedAnswer : View :=
  resultOf scriptView (serveRequest .epoch cgiConfig (World.still protectedTree) scriptView
    (.nothing (World.still protectedTree) scriptView))

/-- **It is run.** -/
theorem protected_program_is_run :
    serveRequest .epoch cgiConfig (World.still protectedTree) scriptView
        (.nothing (World.still protectedTree) scriptView) = .ok protectedAnswer ∧
      ¬ AuthCovered .epoch cgiConfig (World.still protectedTree) scriptView protectedAnswer
        (readRequest .epoch scriptView.slot.http).authorization := by
  refine ⟨eq_ok_of_panicOf _ (by decide +kernel), ?_⟩
  intro h
  have hcalls : (newCalls scriptView protectedAnswer).map CgiCall.scriptPath
      = [Path.parse "/www/a.cgi".toList] := by decide +kernel
  have hmem : Path.parse "/www/a.cgi".toList ∈
      (newCalls scriptView protectedAnswer).map CgiCall.scriptPath := by
    rw [hcalls]
    exact List.mem_singleton.mpr rfl
  obtain ⟨call, hcall, hpath⟩ := List.mem_map.mp hmem
  have hcov := h.script call hcall ["www".toList, "a.cgi".toList]
    (by rw [hpath]; decide +kernel) ["www".toList] ["www".toList] (by decide +kernel)
    (by decide +kernel)
  exact absurd hcov (by unfold Accepts; decide +kernel)

/-- The password of one user, and the credentials in base64. -/
def onePassword : Platform :=
  { Platform.epoch with
    crypt := fun key salt =>
      if key = "pw".toList ∧ salt.take 2 = "ab".toList then some "abzlUXK5ed5rs".toList else none
    base64Decode := fun s => if s = "dTpwdw==".toList then some (asBytes "u:pw".toList) else none }

/-- A file beside a password file. -/
def guardedTree : FileSystem :=
  wwwTree [(authFile, plainFile (asBytes "u:abzlUXK5ed5rs\n".toList)), ("f.txt".toList, plainFile [104, 105])]

/-- A request for it with the password. -/
def knownView : View :=
  requestView "GET /f.txt HTTP/1.0\r\nAuthorization: Basic dTpwdw==\r\n\r\n"

def knownAnswer : View :=
  resultOf knownView (serveRequest onePassword wwwConfig (World.still guardedTree) knownView
    (.nothing (World.still guardedTree) knownView))

/-- The protected file is sent to the user its password file knows. -/
theorem auth_covered_sample :
    requestPayload onePassword wwwConfig (World.still guardedTree) knownView
        = .file (Path.parse "/www/f.txt".toList) (Path.parse "/www/f.txt".toList) ∧
      AuthCovered onePassword wwwConfig (World.still guardedTree) knownView knownAnswer
        (readRequest onePassword knownView.slot.http).authorization := by
  have hpay : requestPayload onePassword wwwConfig (World.still guardedTree) knownView
      = .file (Path.parse "/www/f.txt".toList) (Path.parse "/www/f.txt".toList) := by
    decide +kernel
  refine ⟨hpay, (auth_covered_iff ⟨rfl, rfl, rfl, _, _, _, rfl⟩
    (eq_ok_of_panicOf _ (by decide +kernel))).mpr ?_⟩
  intro hgap
  cases hgap with
  | authFile handed opened names sent stands named =>
      cases hpay.symm.trans (requestPayload_eq_file.mpr sent)
      have hplace : (World.still guardedTree).fs.canonicalNames (Path.parse "/www/f.txt".toList)
          = .ok ["www".toList, "f.txt".toList] := by decide +kernel
      cases hplace.symm.trans stands
      exact absurd named (by decide)
  | ownFile handed opened names root sent => cases hpay.symm.trans (requestPayload_eq_listing.mpr sent)
  | linkedFile handed opened names unchecked => cases unchecked
  | linkedListing handed opened names unchecked => cases unchecked
  | program path file p names asked tried matched => cases matched

end Thttpd
