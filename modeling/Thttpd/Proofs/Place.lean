/-
Which directory is served.

`configured` says it of a configuration: the one it names, seen from where the process was
started, or the data directory in it, in the jail if there is one.  The process moves on its
way, and what it is left with as `config.dir` leads to that directory from where it stands.

A path is followed in a graph of directories, in which `..` and links lead wherever
they do, so nothing here is about texts alone: two paths are compared by where they
lead from a place.  What carries the proof is that the data directory is named
relative to the place the process stands in at that time.
-/
import Thttpd.Lib.Dirs
import Thttpd.Proofs.Startup

namespace Thttpd.Startup

open Text Fs Net Trial Dirs

section Places

variable {D : Type} (g : Graph D)

/-- Where an act leaves the process. -/
def Act.move (p : Place D) : Act → Option (Place D)
  | .chroot dir => (g.resolve p (.parse dir)).map fun d => ⟨d, p.cwd⟩
  | .chdirRoot => (g.resolve p (.parse ['/'])).map fun d => ⟨p.root, d⟩
  | .chdirData dir => (g.resolve p dir).map fun d => ⟨p.root, d⟩
  | _ => some p

/-- The place after one more act that was asked for. -/
def follow (p : Place D) (e : Event) : Option (Place D) :=
  match e.error with
  | none => e.act.move g p
  | some _ => some p

/-- Where the process stands after what it asked for. -/
def placeAfter (p : Place D) (t : List Event) : Option (Place D) := t.foldlM (follow g) p

/-- The directory a configuration means. -/
def configured (p : Place D) (c : Config.ServerConfig) : Option D :=
  if c.doChroot then do
    let jail ← g.resolve p (.parse c.dir)
    match c.dataDir with
    | none => some jail
    | some dataDir => g.resolve ⟨jail, jail⟩ (.parse dataDir)
  else
    match c.dataDir with
    | none => g.resolve p (.parse c.dir)
    | some dataDir => g.resolve p ((Path.parse c.dir).join dataDir)

/-- What was asked for later moves the process on from there. -/
theorem placeAfter_append (p : Place D) (t t' : List Event) :
    placeAfter g p (t ++ t') = (placeAfter g p t).bind fun q => placeAfter g q t' :=
  List.foldlM_append

/-- Few acts move the process. -/
theorem Act.move_still (p : Place D) {a : Act} (h : stage a ≤ 1 ∨ 5 ≤ stage a) :
    a.move g p = some p := by
  cases a with
  | chroot dir => exact absurd h (by decide : ¬ (2 ≤ 1 ∨ 5 ≤ 2))
  | chdirRoot => exact absurd h (by decide : ¬ (3 ≤ 1 ∨ 5 ≤ 3))
  | chdirData dir => exact absurd h (by decide : ¬ (4 ≤ 1 ∨ 5 ≤ 4))
  | _ => rfl

/-- Nobody moves before the jail or after the data directory. -/
theorem placeAfter_still (p : Place D) {es : List Event}
    (h : ∀ e ∈ es, stage e.act ≤ 1 ∨ 5 ≤ stage e.act) : placeAfter g p es = some p := by
  induction es with
  | nil => rfl
  | cons e es ih =>
      have hstays : follow g p e = some p := by
        unfold follow
        split
        · exact e.act.move_still g p (h e List.mem_cons_self)
        · rfl
      unfold placeAfter
      rw [List.foldlM_cons, hstays]
      exact ih fun e' he' => h e' (List.mem_cons_of_mem e he')

end Places

section Runs

variable {os : Os} {t t' : List Event} {c : Config.ServerConfig}

/-- The jail is asked for in two acts, the root and the move to it. -/
theorem doChroot_asks {dir : Path} (h : doChroot c os t = (t', .ok dir)) :
    (c.doChroot = true ∧ t' = t ++ [⟨.chroot c.dir, none⟩, ⟨.chdirRoot, none⟩] ∧
        dir = .parse ['/']) ∨
      (c.doChroot = false ∧ t' = t ∧ dir = .parse c.dir) := by
  unfold doChroot at h
  by_cases hchroot : c.doChroot = true
  · rw [if_pos hchroot] at h
    obtain ⟨t₁, u₁, h₁, h⟩ := bind_ok.mp h
    obtain ⟨t₂, u₂, h₂, h⟩ := bind_ok.mp h
    obtain ⟨rfl, rfl⟩ := pure_ok.mp h
    rw [must_ok h₂, must_ok h₁, List.append_assoc]
    exact .inl ⟨hchroot, rfl, rfl⟩
  · rw [if_neg hchroot] at h
    obtain ⟨rfl, rfl⟩ := pure_ok.mp h
    exact .inr ⟨Bool.eq_false_iff.mpr hchroot, rfl, rfl⟩

/-- The data directory is moved to in one. -/
theorem applyDataDir_asks {jail dir : Path} (h : applyDataDir c jail os t = (t', .ok dir)) :
    (c.dataDir = none ∧ t' = t ∧ dir = jail) ∨
      ∃ dataDir, c.dataDir = some dataDir ∧
        t' = t ++ [⟨.chdirData (dataDirChdirPath jail dataDir c.doChroot), none⟩] ∧
        dir = effectiveDirAfterChdir jail dataDir c.doChroot := by
  unfold applyDataDir at h
  cases hdata : c.dataDir with
  | none =>
      simp only [hdata] at h
      obtain ⟨rfl, rfl⟩ := pure_ok.mp h
      exact .inl ⟨rfl, rfl, rfl⟩
  | some dataDir =>
      simp only [hdata] at h
      obtain ⟨t₁, u₁, h₁, h⟩ := bind_ok.mp h
      obtain ⟨rfl, rfl⟩ := pure_ok.mp h
      exact .inr ⟨dataDir, rfl, must_ok h₁, rfl⟩

/-- The questions of a program of some stages. -/
theorem asks_of_staged {α : Type} {m : Boot α} {lo hi : Nat} {r : Except Str α}
    (hm : Staged stage lo hi m) (h : m os t = (t', r)) :
    ∃ es, t' = t ++ es ∧ ∀ e ∈ es, lo ≤ stage e.act ∧ stage e.act ≤ hi := by
  obtain ⟨es, hes, -, hin⟩ := hm os t
  rw [h] at hes
  exact ⟨es, hes, hin⟩

/-- What is asked before the jail, in it, for the data directory, and after. -/
theorem prepare_asks {root : Bool} {started : Started}
    (h : prepare root c os [] = (t, .ok started)) :
    ∃ files jail after dir os₁ os₂, t = files ++ (jail ++ after) ∧
      (∀ e ∈ files, stage e.act ≤ 1) ∧ (∀ e ∈ after, 5 ≤ stage e.act) ∧
      (doChroot c os files = (os₁, .ok dir) ∧ applyDataDir c dir os os₁ = (os₂, .ok started.dir)) ∧
      os₂ = files ++ jail := by
  obtain ⟨t₁, log, hlog, h⟩ := bind_ok.mp h
  obtain ⟨t₂, u₂, hpidfile, h⟩ := bind_ok.mp h
  obtain ⟨t₃, throttles, hthrottles, h⟩ := bind_ok.mp h
  obtain ⟨t₄, u₄, hdetach, h⟩ := bind_ok.mp h
  obtain ⟨t₅, jail, hjail, h⟩ := bind_ok.mp h
  obtain ⟨t₆, dir, hdir, h⟩ := bind_ok.mp h
  obtain ⟨t₇, listeners, hlisteners, h⟩ := bind_ok.mp h
  obtain ⟨t₈, u₈, hcheck, h⟩ := bind_ok.mp h
  obtain ⟨t₉, u₉, hdrop, h⟩ := bind_ok.mp h
  obtain ⟨t₁₀, u₁₀, hsignals, h⟩ := bind_ok.mp h
  obtain ⟨t₁₁, u₁₁, hpoll, h⟩ := bind_ok.mp h
  obtain ⟨rfl, rfl⟩ := pure_ok.mp h
  obtain ⟨es₁, rfl, hin₁⟩ := asks_of_staged (openLog_staged root c) hlog
  obtain ⟨es₂, rfl, hin₂⟩ := asks_of_staged (writePidfile_staged c false) hpidfile
  obtain ⟨es₃, rfl, hin₃⟩ := asks_of_staged (loadThrottles_staged c) hthrottles
  obtain ⟨es₄, rfl, hin₄⟩ := asks_of_staged (detach_staged c log.isStdout) hdetach
  obtain ⟨es₅, rfl, -⟩ := asks_of_staged (doChroot_staged c) hjail
  obtain ⟨es₆, rfl, -⟩ := asks_of_staged (applyDataDir_staged c jail) hdir
  obtain ⟨es₇, rfl, hin₇⟩ := asks_of_staged (bindListeners_staged c) hlisteners
  obtain ⟨es₈, rfl, hin₈⟩ := asks_of_staged (checkListeners_staged listeners) hcheck
  obtain ⟨es₉, rfl, hin₉⟩ := asks_of_staged (dropPrivileges_staged c) hdrop
  rw [must_ok hpoll, must_ok hsignals]
  refine ⟨t₁ ++ es₂ ++ es₃ ++ es₄, es₅ ++ es₆,
    es₇ ++ (es₈ ++ (es₉ ++ ([⟨.installSignals, none⟩] ++ [⟨.newPoll, none⟩]))),
    jail, _, _, ?_, ?_, ?_,
    ⟨hjail, hdir⟩, (List.append_assoc _ es₅ es₆)⟩
  · simp only [List.append_assoc]
  · intro e he
    simp only [List.mem_append] at he
    rcases he with ((he | he) | he) | he
    · exact Nat.le_trans (hin₁ e he).2 (by decide)
    · exact Nat.le_trans (hin₂ e he).2 (by decide)
    · exact Nat.le_trans (hin₃ e he).2 (by decide)
    · exact (hin₄ e he).2
  · intro e he
    simp only [List.mem_append, List.mem_singleton] at he
    rcases he with he | he | he | rfl | rfl
    · exact (hin₇ e he).1
    · exact (hin₈ e he).1
    · exact Nat.le_trans (by decide) (hin₉ e he).1
    · decide
    · decide

/-- In the jail, at its root. -/
theorem placeAfter_jail {D : Type} (g : Graph D) (p : Place D) (dir : Str) :
    placeAfter g p [⟨.chroot dir, none⟩, ⟨.chdirRoot, none⟩] =
      (g.resolve p (.parse dir)).map fun d => ⟨d, d⟩ := by
  unfold placeAfter
  rw [List.foldlM_cons]
  show ((g.resolve p (.parse dir)).map fun d => (⟨d, p.cwd⟩ : Place D)) >>= _ = _
  cases g.resolve p (.parse dir) with
  | none => rfl
  | some d => rfl

/-- The move to the data directory is a move from where the process stands. -/
theorem placeAfter_chdirData {D : Type} {g : Graph D} {p q : Place D} {dir : Path}
    (h : placeAfter g p [⟨.chdirData dir, none⟩] = some q) :
    q.root = p.root ∧ g.resolve p dir = some q.cwd := by
  change ((g.resolve p dir).map fun d => (⟨p.root, d⟩ : Place D)) >>= pure = some q at h
  cases hdir : g.resolve p dir with
  | none =>
      rw [hdir] at h
      cases h
  | some d =>
      rw [hdir] at h
      cases h
      exact ⟨rfl, rfl⟩

/-! ### The data directory

The source turns a path into the one to move to and, when it has moved, the
configured directory into the one to serve.  Each is a join, and a join with an
absolute path drops what stands before it.
-/

theorem relative_of_not {s : Str} (h : ¬ (Path.parse s).absolute = true) : s.head? ≠ some '/' :=
  fun hhead => h (decide_eq_true hhead)

/-- In the jail what is moved to and what is served are one path, from the root. -/
theorem dataDir_in_jail (dataDir : Str) :
    effectiveDirAfterChdir (.parse ['/']) dataDir true =
        dataDirChdirPath (.parse ['/']) dataDir true ∧
      (dataDirChdirPath (.parse ['/']) dataDir true).absolute = true ∧
      (dataDirChdirPath (.parse ['/']) dataDir true).comps = (Path.parse dataDir).comps := by
  unfold effectiveDirAfterChdir dataDirChdirPath
  by_cases habs : (Path.parse dataDir).absolute = true
  · rw [if_pos habs, if_pos habs]
    exact ⟨rfl, habs, rfl⟩
  · rw [if_neg habs, if_neg habs, if_pos rfl, if_pos rfl]
    obtain ⟨habsolute, hcomps⟩ := Path.join_of_relative (p := .parse ['/']) (relative_of_not habs)
    exact ⟨rfl, habsolute, hcomps⟩

/-- The path to move to is the data directory as it is named from there. -/
theorem dataDirChdirPath_eq_join (dir : Path) (dataDir : Str) :
    dataDirChdirPath dir dataDir false = dir.join dataDir := by
  unfold dataDirChdirPath
  by_cases habs : (Path.parse dataDir).absolute = true
  · unfold Path.join
    rw [if_pos habs, if_pos (of_decide_eq_true habs)]
  · rw [if_neg habs, if_neg Bool.false_ne_true]

/-- Outside, what is served is the path moved to, or where that has led. -/
theorem effectiveDirAfterChdir_outside (dir : Path) (dataDir : Str) :
    (effectiveDirAfterChdir dir dataDir false = dir.join dataDir ∧
        (dir.join dataDir).absolute = true) ∨
      effectiveDirAfterChdir dir dataDir false = .parse Path.dot := by
  unfold effectiveDirAfterChdir
  by_cases habs : (Path.parse dataDir).absolute = true
  · have hjoin : dir.join dataDir = .parse dataDir := if_pos (of_decide_eq_true habs)
    rw [if_pos habs, hjoin]
    exact .inl ⟨rfl, habs⟩
  · rw [if_neg habs, if_neg Bool.false_ne_true]
    by_cases hdir : dir.absolute = true
    · rw [if_pos hdir]
      exact .inl ⟨rfl, (Path.join_of_relative (relative_of_not habs)).1.trans hdir⟩
    · rw [if_neg hdir]
      exact .inr rfl

/-! ### The serving root

In the jail and outside it are two arguments, because the root that absolute paths
start from is another one.
-/

section Served

variable {D : Type} (g : Graph D) {start place : Place D} {files moves : List Event} {dir : Path}

/-- A directory is the one that was configured, and the process is where it should be. -/
structure Served (c : Config.ServerConfig) (start place : Place D) (dir : Path) : Prop where
  serves : g.resolve place dir = configured g start c
  stands : c.doChroot = true ∨ c.dataDir ≠ none → configured g start c = some place.cwd
  jailed : c.doChroot = true → g.resolve start (.parse c.dir) = some place.root

theorem served_in_jail (hchroot : c.doChroot = true)
    (h : applyDataDir c (.parse ['/']) os (files ++ [⟨.chroot c.dir, none⟩, ⟨.chdirRoot, none⟩]) =
      (files ++ moves, .ok dir))
    (hmoves : placeAfter g start moves = some place) : Served g c start place dir := by
  rcases applyDataDir_asks h with ⟨hdata, hsame, rfl⟩ | ⟨dataDir, hdata, hsame, rfl⟩
  · rw [List.append_cancel_left hsame, placeAfter_jail] at hmoves
    obtain ⟨jail, hjail, rfl⟩ := Option.map_eq_some_iff.mp hmoves
    have hconfigured : configured g start c = some jail := by
      unfold configured
      rw [if_pos hchroot, hjail, hdata]
      rfl
    exact ⟨(g.resolve_root _).trans hconfigured.symm, fun _ => hconfigured, fun _ => hjail⟩
  · rw [List.append_assoc] at hsame
    rw [List.append_cancel_left hsame, placeAfter_append, placeAfter_jail, hchroot] at hmoves
    obtain ⟨q, hq, hmoves⟩ := Option.bind_eq_some_iff.mp hmoves
    obtain ⟨jail, hjail, rfl⟩ := Option.map_eq_some_iff.mp hq
    obtain ⟨hroot, hcwd⟩ := placeAfter_chdirData hmoves
    obtain ⟨heffective, habsolute, hcomps⟩ := dataDir_in_jail dataDir
    have hconfigured : configured g start c = some place.cwd := by
      unfold configured
      rw [if_pos hchroot, hjail, hdata]
      show g.resolve ⟨jail, jail⟩ (.parse dataDir) = _
      rw [← hcwd, g.resolve_under_root, g.resolve_under_root, hcomps]
    refine ⟨?_, fun _ => hconfigured, fun _ => hjail.trans (congrArg some hroot.symm)⟩
    rw [hchroot, heffective, g.resolve_absolute habsolute hroot, hcwd, hconfigured]

/-- Outside the jail absolute paths are those of the machine. -/
theorem served_outside (hchroot : c.doChroot = false)
    (h : applyDataDir c (.parse c.dir) os files = (files ++ moves, .ok dir))
    (hmoves : placeAfter g start moves = some place) : Served g c start place dir := by
  have hno : ¬ c.doChroot = true := Bool.eq_false_iff.mp hchroot
  rcases applyDataDir_asks h with ⟨hdata, hsame, rfl⟩ | ⟨dataDir, hdata, hsame, rfl⟩
  · rw [List.append_right_eq_self.mp hsame] at hmoves
    cases hmoves
    refine ⟨?_, fun hmoved => ?_, fun hyes => absurd hyes hno⟩
    · unfold configured
      rw [if_neg hno, hdata]
    · rcases hmoved with hyes | hsome
      · exact absurd hyes hno
      · exact absurd hdata hsome
  · rw [List.append_cancel_left hsame, hchroot, dataDirChdirPath_eq_join] at hmoves
    obtain ⟨hroot, hcwd⟩ := placeAfter_chdirData hmoves
    have hconfigured : configured g start c = some place.cwd := by
      unfold configured
      rw [if_neg hno, hdata]
      exact hcwd
    refine ⟨?_, fun _ => hconfigured, fun hyes => absurd hyes hno⟩
    rw [hchroot, hconfigured]
    rcases effectiveDirAfterChdir_outside (.parse c.dir) dataDir with ⟨hpath, habsolute⟩ | hdot
    · rw [hpath, g.resolve_absolute habsolute hroot, hcwd]
    · rw [hdot, g.resolve_dot]

/--
**What is served is what was configured.**  Wherever the process was started and
whatever the names it was given lead to, the directory it ends up serving is the one
they named there, the data directory named from the jail or from the directory it is
in; and a process that moved stands in it.

A name is resolved in the directory the process is in at that moment, and below the
root it has at that moment, so the order of the calls is what the statement is
about.
-/
theorem serving_root_configured {root : Bool} {started : Started}
    (h : prepare root c os [] = (t, .ok started)) (hplace : placeAfter g start t = some place) :
    Served g c start place started.dir := by
  obtain ⟨files, moves, after, jail, os₁, os₂, rfl, hfiles, hafter, ⟨hjail, hdir⟩, rfl⟩ :=
    prepare_asks h
  have hmoves : placeAfter g start moves = some place := by
    rw [placeAfter_append, placeAfter_still g start fun e he => .inl (hfiles e he),
      Option.bind_some, placeAfter_append] at hplace
    obtain ⟨q, hq, hrest⟩ := Option.bind_eq_some_iff.mp hplace
    rw [placeAfter_still g q fun e he => .inr (hafter e he)] at hrest
    rw [hq, hrest]
  rcases doChroot_asks hjail with ⟨hchroot, rfl, rfl⟩ | ⟨hchroot, rfl, rfl⟩
  · exact served_in_jail g hchroot hdir hmoves
  · exact served_outside g hchroot hdir hmoves

end Served

end Runs

/-- A tree without end, where every name leads further down. -/
def endless : Graph (List Str) where
  enter _ d name := if name = Path.dot then some d else some (d ++ [name])
  dot _ _ := if_pos rfl

/-- An operating system that does what it is asked, and knows nobody. -/
def willing : Os
  | _, .findOwner _ => .ok none
  | _, .findUser _ => .ok none
  | _, .readThrottles _ => .ok []
  | _, .resolve _ _ => .ok []
  | _, .openLog _ => .ok ()
  | _, .chmodLog => .ok ()
  | _, .chownLog _ _ => .ok ()
  | _, .writePidfile _ _ => .ok ()
  | _, .daemonize _ => .ok ()
  | _, .chroot _ => .ok ()
  | _, .chdirRoot => .ok ()
  | _, .chdirData _ => .ok ()
  | _, .bind _ => .ok ()
  | _, .setgid _ => .ok ()
  | _, .initgroups _ _ => .ok ()
  | _, .setuid _ => .ok ()
  | _, .installSignals => .ok ()
  | _, .newPoll => .ok ()
  | _, .reportSuccess => .ok ()
  | _, .run _ => .ok ()

def jailedConfig : Config.ServerConfig :=
  { Config.ServerConfig.initial with
    dir := "srv".toList, doChroot := true, dataDir := some "www".toList }

/-- `/www` in the jail `srv`. -/
theorem jailed_serves : Served endless jailedConfig ⟨[], []⟩
    ⟨["srv".toList], ["srv".toList, "www".toList]⟩ ((Path.parse ['/']).join "www".toList) := by
  have hrun : prepare false jailedConfig willing [] =
      ((prepare false jailedConfig willing []).1,
        .ok {
          dir := (Path.parse ['/']).join "www".toList
          accessLog := .syslog
          listeners := [v6Unspecified 80, v4Unspecified 80]
          throttles := none }) := rfl
  exact serving_root_configured endless hrun rfl

end Thttpd.Startup
