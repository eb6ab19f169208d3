/-
The order of startup, whatever the operating system answers.

Files are opened before the jail, sockets are bound in it, and both before the process
becomes another user; what serves comes after all of that.  The order is proved once for every
oracle: each act has a `stage`, and a program that is `Staged` asks in the order of the stages
whatever the answers are.

`Ready` is what has happened by the time the parent is told and the loop runs.  It speaks of
the history and of the answers the operating system gave in it, so that a start that becomes
some user is not taken for one that becomes the user of the configuration.
-/
import Thttpd.Core.Startup
import Thttpd.Proofs.MainLoop

namespace Thttpd.Startup

open Text Fs Net Trial

/-- When an act has its turn. -/
def stage : Act → Nat
  | .openLog _ | .chmodLog | .findOwner _ | .chownLog _ _ | .writePidfile _ false
  | .readThrottles _ => 0
  | .daemonize _ | .writePidfile _ true => 1
  | .chroot _ => 2
  | .chdirRoot => 3
  | .chdirData _ => 4
  | .resolve _ _ | .bind _ => 5
  | .findUser _ => 6
  | .setgid _ => 7
  | .initgroups _ _ => 8
  | .setuid _ => 9
  | .installSignals => 10
  | .newPoll => 11
  | .reportSuccess => 12
  | .run _ => 13

/-! ### Stages

A stage is a number for each act, and a program asks within an interval of stages
(`Staged`, from the library of trials).  Sequences, attempts and loops keep to the
interval of their parts, so the proof for `main` is put together the way `main` is.
-/

section Stages

variable {lo hi : Nat} {a : Act}

theorem must_staged (context : Str) (hlo : lo ≤ stage a) (hhi : stage a ≤ hi) :
    Staged stage lo hi (must a context) := .ask hlo hhi

theorem configureLogfile_staged (root : Bool) (c : Config.ServerConfig) :
    Staged stage 0 0 (configureLogfile root c) := by
  refine .both (must_staged _ (Nat.le_refl 0) (Nat.le_refl 0)) fun _ => ?_
  split
  · refine .both (must_staged _ (Nat.le_refl 0) (Nat.le_refl 0)) fun owner => ?_
    cases owner with
    | some user => exact must_staged _ (Nat.le_refl 0) (Nat.le_refl 0)
    | none => exact .fail _
  · exact .pure ()

theorem openLog_staged (root : Bool) (c : Config.ServerConfig) : Staged stage 0 0 (openLog root c) := by
  unfold openLog
  split
  · exact .pure _
  · split
    · exact .pure _
    · split
      · exact .pure _
      · exact .both (must_staged _ (Nat.le_refl 0) (Nat.le_refl 0)) fun _ =>
          .both (configureLogfile_staged root c) fun _ => .pure _

theorem writePidfile_staged (c : Config.ServerConfig) (daemon : Bool) :
    Staged stage daemon.toNat daemon.toNat (writePidfile c daemon) := by
  unfold writePidfile
  split
  · cases daemon <;> exact must_staged _ (Nat.le_refl _) (Nat.le_refl _)
  · exact .pure ()

theorem loadThrottles_staged (c : Config.ServerConfig) : Staged stage 0 0 (loadThrottles c) := by
  unfold loadThrottles
  split
  · exact .pure none
  · refine .both (must_staged _ (Nat.le_refl 0) (Nat.le_refl 0)) fun content => ?_
    split
    · exact .pure _
    · exact .fail _

theorem detach_staged (c : Config.ServerConfig) (keepStdout : Bool) :
    Staged stage 1 1 (detach c keepStdout) := by
  unfold detach
  split
  · exact .both (must_staged _ (Nat.le_refl 1) (Nat.le_refl 1)) fun _ => writePidfile_staged c true
  · exact .pure ()

theorem doChroot_staged (c : Config.ServerConfig) : Staged stage 2 3 (doChroot c) := by
  unfold doChroot
  split
  · refine .bind (must_staged _ (Nat.le_refl 2) (Nat.le_refl 2)) (fun _ => ?_) (Nat.le_refl 2)
      (by decide)
    exact .bind (must_staged _ (by decide) (Nat.le_refl 3)) (fun _ => .pure _) (by decide)
      (Nat.le_refl 3)
  · exact .pure _

theorem applyDataDir_staged (c : Config.ServerConfig) (dir : Path) :
    Staged stage 4 4 (applyDataDir c dir) := by
  unfold applyDataDir
  split
  · exact .pure dir
  · exact .both (must_staged _ (Nat.le_refl 4) (Nat.le_refl 4)) fun _ => .pure _

theorem usable_staged (r : List SocketAddr × Option Str) : Staged stage 5 5 (usable r) := by
  unfold usable
  split
  · exact .fail _
  · exact .fail _
  · exact .pure _

theorem bindEach_staged (addrs : List SocketAddr) : Staged stage 5 5 (bindEach addrs) := by
  induction addrs with
  | nil => exact .pure _
  | cons addr addrs ih =>
      refine .both (.attempt (Nat.le_refl 5) (Nat.le_refl 5)) fun answer => ?_
      split
      · exact .pure _
      · exact .both ih fun _ => .pure _

theorem bindListeners_staged (c : Config.ServerConfig) : Staged stage 5 5 (bindListeners c) := by
  unfold bindListeners
  split
  · refine .both ?_ usable_staged
    exact .both (.attempt (Nat.le_refl 5) (Nat.le_refl 5)) fun _ =>
      .both (.attempt (Nat.le_refl 5) (Nat.le_refl 5)) fun _ => .pure _
  · refine .both (.both (.attempt (Nat.le_refl 5) (Nat.le_refl 5)) fun _ => .pure _) fun addrs => ?_
    split
    · exact .fail _
    · exact .both (bindEach_staged addrs) usable_staged

theorem checkListeners_staged (listeners : List SocketAddr) :
    Staged stage 5 5 (checkListeners listeners) := by
  unfold checkListeners
  split
  · exact .fail _
  · exact .pure ()

theorem checkName_staged (username : Str) : Staged stage 7 7 (checkName username) := by
  unfold checkName
  split
  · exact .fail _
  · exact .pure ()

theorem dropPrivileges_staged (c : Config.ServerConfig) : Staged stage 6 9 (dropPrivileges c) := by
  unfold dropPrivileges
  split
  · exact .pure ()
  · rename_i username _
    refine .bind (must_staged _ (Nat.le_refl 6) (Nat.le_refl 6)) (fun user => ?_) (Nat.le_refl 6)
      (by decide)
    cases user with
    | none => exact .fail _
    | some user =>
        refine .bind (must_staged _ (Nat.le_succ 6) (Nat.le_refl 7)) (fun _ => ?_) (by decide)
          (by decide)
        refine .bind (checkName_staged username) (fun _ => ?_) (Nat.le_refl 7) (by decide)
        refine .bind (must_staged _ (Nat.le_succ 7) (Nat.le_refl 8)) (fun _ => ?_) (by decide)
          (by decide)
        exact must_staged _ (Nat.le_succ 8) (Nat.le_refl 9)

/--
**Everything up to the report asks in its order.**

The program is put together of parts with stages of their own; what is shown here is
that these follow each other.
-/
theorem prepare_staged (root : Bool) (c : Config.ServerConfig) :
    Staged stage 0 11 (prepare root c) := by
  refine .bind (openLog_staged root c) (fun log => ?_) (Nat.le_refl 0) (by decide)
  refine .bind (writePidfile_staged c false) (fun _ => ?_) (Nat.le_refl 0) (by decide)
  refine .bind (loadThrottles_staged c) (fun throttles => ?_) (Nat.le_refl 0) (by decide)
  refine .bind ((detach_staged c log.isStdout).weaken (by decide) (Nat.le_refl 1)) (fun _ => ?_)
    (by decide) (by decide)
  refine .bind ((doChroot_staged c).weaken (by decide) (Nat.le_refl 3)) (fun jail => ?_) (by decide)
    (by decide)
  refine .bind ((applyDataDir_staged c jail).weaken (by decide) (Nat.le_refl 4)) (fun dir => ?_)
    (by decide) (by decide)
  refine .bind ((bindListeners_staged c).weaken (by decide) (Nat.le_refl 5)) (fun listeners => ?_)
    (by decide) (by decide)
  refine .bind (checkListeners_staged listeners) (fun _ => ?_) (by decide) (by decide)
  refine .bind ((dropPrivileges_staged c).weaken (by decide) (Nat.le_refl 9)) (fun _ => ?_)
    (by decide) (by decide)
  refine .bind (must_staged _ (by decide) (Nat.le_refl 10)) (fun _ => ?_) (by decide) (by decide)
  exact .bind (must_staged _ (by decide) (Nat.le_refl 11)) (fun _ => .pure _) (by decide)
    (Nat.le_refl 11)

theorem reportSuccess_staged (c : Config.ServerConfig) : Staged stage 12 12 (reportSuccess c) := by
  unfold reportSuccess
  split
  · exact .both (.attempt (Nat.le_refl 12) (Nat.le_refl 12)) fun _ => .pure ()
  · exact .pure ()

/-- What follows the preparations. -/
def serve (c : Config.ServerConfig) (started : Started) : Boot Started := do
  reportSuccess c
  must (.run started.listeners.length) "event loop error: ".toList
  pure started

theorem main_eq (root : Bool) (c : Config.ServerConfig) : main root c = prepare root c >>= serve c :=
  rfl

theorem serve_staged (c : Config.ServerConfig) (started : Started) :
    Staged stage 12 13 (serve c started) := by
  refine .bind (reportSuccess_staged c) (fun _ => ?_) (Nat.le_refl 12) (Nat.le_succ 12)
  exact .bind (must_staged _ (Nat.le_succ 12) (Nat.le_refl 13)) (fun _ => .pure started)
    (Nat.le_succ 12) (Nat.le_refl 13)

/-- So does all of `main`. -/
theorem main_staged (root : Bool) (c : Config.ServerConfig) : Staged stage 0 13 (main root c) :=
  .bind (prepare_staged root c) (fun started => (serve_staged c started).weaken (by decide)
    (Nat.le_refl 13)) (by decide) (by decide)

end Stages

/-! ### What has happened by then

The history of a start that succeeded is read backwards: a question that had to be
answered was answered, and what was done with the answer stands behind it in the
history.
-/

/-- A failure that does not end the start: a family of addresses that is not there. -/
def Tolerated : Act → OsError → Prop
  | .bind _, e => isIgnorableBindError e = true
  | _, _ => False

section Values

variable {os : Os} {t t' : List Event} {c : Config.ServerConfig}

/-- Nothing failed on the way. -/
theorem openLog_calm (root : Bool) (c : Config.ServerConfig) : Calm Tolerated (openLog root c) := by
  unfold openLog
  split
  · exact .pure _
  · split
    · exact .pure _
    · split
      · exact .pure _
      · refine .bind (.ask _ _) fun _ => .bind (.bind (.ask _ _) fun _ => ?_) fun _ => .pure _
        split
        · refine .bind (.ask _ _) fun owner => ?_
          cases owner with
          | some user => exact .ask _ _
          | none => exact .fail _
        · exact .pure ()

theorem writePidfile_calm (c : Config.ServerConfig) (daemon : Bool) :
    Calm Tolerated (writePidfile c daemon) := by
  unfold writePidfile
  split
  · exact .ask _ _
  · exact .pure ()

theorem loadThrottles_calm (c : Config.ServerConfig) : Calm Tolerated (loadThrottles c) := by
  unfold loadThrottles
  split
  · exact .pure none
  · refine .bind (.ask _ _) fun content => ?_
    split
    · exact .pure _
    · exact .fail _

theorem detach_calm (c : Config.ServerConfig) (keepStdout : Bool) :
    Calm Tolerated (detach c keepStdout) := by
  unfold detach
  split
  · exact .bind (.ask _ _) fun _ => writePidfile_calm c true
  · exact .pure ()

theorem applyDataDir_calm (c : Config.ServerConfig) (dir : Path) :
    Calm Tolerated (applyDataDir c dir) := by
  unfold applyDataDir
  split
  · exact .pure dir
  · exact .bind (.ask _ _) fun _ => .pure _

/-- The table is none, or that of a file. -/
theorem loadThrottles_loads {throttles : Option ThrottleTable}
    (h : loadThrottles c os t = (t', .ok throttles)) :
    throttles = none ∨ ∃ content, throttles = ThrottleTable.load content := by
  unfold loadThrottles at h
  cases hfile : c.throttleFile with
  | none =>
      simp only [hfile] at h
      exact .inl (pure_ok.mp h).2
  | some path =>
      simp only [hfile] at h
      obtain ⟨t₁, content, -, h⟩ := bind_ok.mp h
      cases htable : ThrottleTable.load content with
      | none =>
          simp only [htable] at h
          cases h
      | some table =>
          simp only [htable] at h
          exact .inr ⟨content, (pure_ok.mp h).2.trans htable.symm⟩

/-- A question that had to be answered and was answered goes on with that answer. -/
theorem must_ok {a : Act} {context : Str} {r : a.Answer} (h : must a context os t = (t', .ok r)) :
    t' = t ++ [⟨a, none⟩] := (ask_ok.mp h).2

/-- What a question that had to be answered was answered with. -/
theorem must_answer {a : Act} {context : Str} {r : a.Answer}
    (h : must a context os t = (t', .ok r)) : os t a = .ok r := (ask_ok.mp h).1

theorem must_goes {a : Act} {context : Str} {r : a.Answer}
    (h : must a context os t = (t', .ok r)) : Goes Tolerated t t' ∧ ⟨a, none⟩ ∈ t' := by
  refine ⟨Calm.ask a _ os t t' r h, ?_⟩
  rw [must_ok h]
  exact List.mem_append_right t (List.mem_singleton.mpr rfl)

/-- The process is in its jail. -/
def Jailed (c : Config.ServerConfig) (t : List Event) : Prop :=
  c.doChroot = true → ⟨.chroot c.dir, none⟩ ∈ t ∧ ⟨.chdirRoot, none⟩ ∈ t

theorem doChroot_jails {dir : Path} (h : doChroot c os t = (t', .ok dir)) :
    Goes Tolerated t t' ∧ Jailed c t' := by
  unfold doChroot at h
  split at h
  · obtain ⟨t₁, u₁, hchroot, h⟩ := bind_ok.mp h
    obtain ⟨t₂, u₂, hchdir, h⟩ := bind_ok.mp h
    obtain ⟨hgoes₁, hmem₁⟩ := must_goes hchroot
    obtain ⟨hgoes₂, hmem₂⟩ := must_goes hchdir
    rw [(pure_ok.mp h).1]
    exact ⟨hgoes₁.trans hgoes₂, fun _ => ⟨hgoes₂.mem hmem₁, hmem₂⟩⟩
  · rename_i hno
    rw [(pure_ok.mp h).1]
    exact ⟨.refl t, fun hyes => absurd hyes hno⟩

/--
The process is the user it was told to become: the one the user database had under
that name when it was asked, and nothing happened between the answer and the three
calls that take the user on.
-/
def Dropped (os : Os) (c : Config.ServerConfig) (t : List Event) : Prop :=
  ∀ name, c.user = some name → ∃ before user,
    os before (.findUser name) = .ok (some user) ∧
    before ++ [⟨.findUser name, none⟩, ⟨.setgid user.gid, none⟩,
      ⟨.initgroups name user.gid, none⟩, ⟨.setuid user.uid, none⟩] <+: t

theorem Dropped.later (h : Dropped os c t) (hlater : t <+: t') : Dropped os c t' := by
  intro name hname
  obtain ⟨before, user, hfound, htaken⟩ := h name hname
  exact ⟨before, user, hfound, htaken.trans hlater⟩

theorem checkName_ok {username : Str} {u : Unit} (h : checkName username os t = (t', .ok u)) :
    t' = t := by
  unfold checkName at h
  cases hfound : username.findIdx? (· == Char.ofNat 0) with
  | some pos =>
      simp only [hfound] at h
      cases h
  | none =>
      simp only [hfound] at h
      exact (pure_ok.mp h).1

theorem dropPrivileges_drops {u : Unit} (h : dropPrivileges c os t = (t', .ok u)) :
    Goes Tolerated t t' ∧ Dropped os c t' := by
  unfold dropPrivileges at h
  cases hname : c.user with
  | none =>
      simp only [hname] at h
      rw [(pure_ok.mp h).1]
      refine ⟨.refl t, fun name hsome => ?_⟩
      rw [hname] at hsome
      cases hsome
  | some username =>
      simp only [hname] at h
      obtain ⟨t₁, found, hfind, h⟩ := bind_ok.mp h
      cases found with
      | none => cases h
      | some user =>
          obtain ⟨t₂, u₂, hsetgid, h⟩ := bind_ok.mp h
          obtain ⟨t₃, u₃, hcheck, h⟩ := bind_ok.mp h
          obtain ⟨t₄, u₄, hinit, hsetuid⟩ := bind_ok.mp h
          obtain rfl := checkName_ok hcheck
          have hgoes := (must_goes hfind).1.trans ((must_goes hsetgid).1.trans
            ((must_goes hinit).1.trans (must_goes hsetuid).1))
          refine ⟨hgoes, fun name hsome => ?_⟩
          rw [hname] at hsome
          cases hsome
          refine ⟨t, user, must_answer hfind, ?_⟩
          rw [must_ok hsetuid, must_ok hinit, must_ok hsetgid, must_ok hfind]
          simp only [List.append_assoc, List.cons_append, List.nil_append, List.prefix_refl]

/-! ### Listeners

Sockets are bound one after the other, and an address whose family is not there is
passed over.  So the listeners that are left were each bound, and the loop has a
token for every one.
-/

/-- Each of the addresses was bound. -/
def Bound (listeners : List SocketAddr) (t : List Event) : Prop :=
  ∀ addr ∈ listeners, ⟨.bind addr, none⟩ ∈ t

/-- An attempt whose failure would have been fatal. -/
theorem attempt_bind {addr : SocketAddr} {context : Str} {answer : Except OsError Unit}
    (h : (attempt (Act.bind addr) : Boot _) os t = (t', .ok answer))
    (hfatal : fatalError context answer = none) :
    Goes Tolerated t t' ∧ Bound (bound addr answer) t' := by
  obtain ⟨-, rfl⟩ := attempt_ok.mp h
  cases answer with
  | ok u =>
      refine ⟨.snoc (by rintro err ⟨⟩), fun a ha => ?_⟩
      rw [List.mem_singleton.mp ha]
      exact List.mem_append_right t (List.mem_singleton.mpr rfl)
  | error e =>
      refine ⟨.snoc ?_, fun a ha => absurd ha List.not_mem_nil⟩
      intro err herr
      cases herr
      have hignored : (if isIgnorableBindError e then none else some (context ++ e.text)) = none :=
        hfatal
      show isIgnorableBindError e = true
      by_contra hnot
      rw [if_neg hnot] at hignored
      cases hignored

theorem bindWildcards_binds {port : Nat} {listeners : List SocketAddr}
    (h : bindWildcards port os t = (t', .ok (listeners, none))) :
    Goes Tolerated t t' ∧ Bound listeners t' := by
  obtain ⟨t₁, v6, h6, h⟩ := bind_ok.mp h
  obtain ⟨t₂, v4, h4, h⟩ := bind_ok.mp h
  obtain ⟨rfl, hresult⟩ := pure_ok.mp h
  obtain ⟨rfl, hfatal⟩ := Prod.mk.inj hresult
  obtain ⟨hfatal4, hfatal6⟩ := Option.or_eq_none_iff.mp hfatal.symm
  obtain ⟨hgoes₁, hbound₁⟩ := attempt_bind h6 hfatal6
  obtain ⟨hgoes₂, hbound₂⟩ := attempt_bind h4 hfatal4
  refine ⟨hgoes₁.trans hgoes₂, fun addr haddr => ?_⟩
  rcases List.mem_append.mp haddr with haddr | haddr
  · exact hgoes₂.mem (hbound₁ addr haddr)
  · exact hbound₂ addr haddr

theorem bindEach_binds {addrs listeners : List SocketAddr}
    (h : bindEach addrs os t = (t', .ok (listeners, none))) :
    Goes Tolerated t t' ∧ Bound listeners t' := by
  induction addrs generalizing t listeners with
  | nil =>
      obtain ⟨rfl, hresult⟩ := pure_ok.mp h
      cases hresult
      exact ⟨.refl t', fun a ha => absurd ha List.not_mem_nil⟩
  | cons addr addrs ih =>
      obtain ⟨t₁, answer, hattempt, h⟩ := bind_ok.mp h
      cases hfatal : fatalError (addr.display ++ ": ".toList) answer with
      | some e =>
          simp only [hfatal] at h
          cases (pure_ok.mp h).2
      | none =>
          simp only [hfatal] at h
          obtain ⟨t₂, ⟨rest, fatal⟩, hrest, h⟩ := bind_ok.mp h
          obtain ⟨rfl, hresult⟩ := pure_ok.mp h
          cases hresult
          obtain ⟨hgoes₁, hbound₁⟩ := attempt_bind hattempt hfatal
          obtain ⟨hgoes₂, hbound₂⟩ := ih hrest
          refine ⟨hgoes₁.trans hgoes₂, fun a ha => ?_⟩
          rcases List.mem_append.mp ha with ha | ha
          · exact hgoes₂.mem (hbound₁ a ha)
          · exact hbound₂ a ha

/-- A start with no listener left does not succeed. -/
theorem usable_ok {r : List SocketAddr × Option Str} {listeners : List SocketAddr}
    (h : usable r os t = (t', .ok listeners)) : t' = t ∧ r = (listeners, none) ∧ listeners ≠ [] := by
  obtain ⟨found, fatal⟩ := r
  cases fatal with
  | some e =>
      cases found <;> cases h
  | none =>
      cases found with
      | nil => cases h
      | cons addr addrs =>
          obtain ⟨ht, rfl⟩ := pure_ok.mp h
          exact ⟨ht, rfl, List.cons_ne_nil addr addrs⟩

theorem bindListeners_binds {listeners : List SocketAddr}
    (h : bindListeners c os t = (t', .ok listeners)) :
    Goes Tolerated t t' ∧ Bound listeners t' ∧ listeners ≠ [] := by
  unfold bindListeners at h
  cases hname : c.hostname with
  | none =>
      simp only [hname] at h
      obtain ⟨t₁, r, hbind, h⟩ := bind_ok.mp h
      obtain ⟨rfl, rfl, hne⟩ := usable_ok h
      obtain ⟨hgoes, hbound⟩ := bindWildcards_binds hbind
      exact ⟨hgoes, hbound, hne⟩
  | some host =>
      simp only [hname] at h
      obtain ⟨t₁, addrs, hresolve, h⟩ := bind_ok.mp h
      by_cases hnone : addrs = []
      · simp only [if_pos hnone] at h
        cases h
      · simp only [if_neg hnone] at h
        obtain ⟨t₂, r, hbind, h⟩ := bind_ok.mp h
        obtain ⟨rfl, rfl, hne⟩ := usable_ok h
        obtain ⟨t₃, answer, hasked, hpure⟩ := bind_ok.mp hresolve
        obtain ⟨rfl, haddrs⟩ := pure_ok.mp hpure
        obtain ⟨-, rfl⟩ := attempt_ok.mp hasked
        obtain ⟨hgoes, hbound⟩ := bindEach_binds hbind
        -- A name that could not be resolved has no addresses, so this question was answered.
        have hanswered : ∀ e, answer ≠ .error e := by
          rintro e rfl
          exact hnone haddrs
        refine ⟨Goes.trans (.snoc ?_) hgoes, hbound, hne⟩
        intro err herr
        cases answer with
        | ok found => cases herr
        | error e => exact absurd rfl (hanswered e)

/-- Nor one with more than there are tokens for. -/
theorem checkListeners_checks {listeners : List SocketAddr} {u : Unit}
    (h : checkListeners listeners os t = (t', .ok u)) :
    t' = t ∧ listeners.length ≤ maxListeners := by
  unfold checkListeners at h
  by_cases hmany : maxListeners < listeners.length
  · rw [if_pos hmany] at h
    cases h
  · rw [if_neg hmany] at h
    exact ⟨(pure_ok.mp h).1, Nat.le_of_not_lt hmany⟩

end Values

/-- The loop has a token for each of that many listeners. -/
theorem registerFirst_ok (listeners : Nat) {n : Nat} (hn : n ≤ maxListeners) :
    ∃ r, registerFirst listeners n = .ok r := by
  induction n with
  | zero => exact ⟨Registry.empty, rfl⟩
  | succ n ih =>
      obtain ⟨r, hr⟩ := ih (Nat.le_of_succ_le hn)
      have hfree : r n = none :=
        ((registerFirst_registers hr).2 n).trans (if_neg (Nat.lt_irrefl n))
      refine ⟨r.put n (some .readable), ?_⟩
      rw [registerFirst]
      refine bind_eq_ok.mpr ⟨r, hr, ?_⟩
      unfold listenToken
      simp only [if_pos (Nat.lt_of_succ_le hn), Registry.register_of_absent hfree]

/-- What has happened before the server serves. -/
structure Ready (os : Os) (c : Config.ServerConfig) (t : List Event) (started : Started) : Prop where
  jailed : Jailed c t
  bound : Bound started.listeners t
  listens : started.listeners ≠ []
  /-- The tokens of the poll have room for 16. -/
  few : started.listeners.length ≤ maxListeners
  dropped : Dropped os c t
  /-- The main loop starts from here. -/
  loop : ∃ registry, ∀ now, Loop.Init started.listeners.length
    ⟨Server.start started.throttles, registry, now, none⟩

theorem prepare_ready {root : Bool} {c : Config.ServerConfig} {os : Os} {t t' : List Event}
    {started : Started} (h : prepare root c os t = (t', .ok started)) :
    Goes Tolerated t t' ∧ Ready os c t' started := by
  obtain ⟨t₁, log, hlog, h⟩ := bind_ok.mp h
  obtain ⟨t₂, u₂, hpidfile, h⟩ := bind_ok.mp h
  obtain ⟨t₃, throttles, hthrottles, h⟩ := bind_ok.mp h
  obtain ⟨t₄, u₄, hdetach, h⟩ := bind_ok.mp h
  obtain ⟨t₅, jail, hjail, h⟩ := bind_ok.mp h
  obtain ⟨t₆, dir, hdir, h⟩ := bind_ok.mp h
  obtain ⟨t₇, listeners, hlisteners, h⟩ := bind_ok.mp h
  obtain ⟨t₈, u₈, hcheck, h⟩ := bind_ok.mp h
  obtain ⟨t₉, u₉, hdrop, h⟩ := bind_ok.mp h
  obtain ⟨t₁₀, u₁₀, hsignals, h⟩ := bind_ok.mp h
  obtain ⟨t₁₁, u₁₁, hpoll, h⟩ := bind_ok.mp h
  obtain ⟨rfl, rfl⟩ := pure_ok.mp h
  obtain ⟨hgoes₅, hjailed⟩ := doChroot_jails hjail
  obtain ⟨hgoes₇, hbound, hne⟩ := bindListeners_binds hlisteners
  obtain ⟨rfl, hfew⟩ := checkListeners_checks hcheck
  obtain ⟨hgoes₉, hdropped⟩ := dropPrivileges_drops hdrop
  have hgoes₃ := (openLog_calm root c os t t₁ log hlog).trans
    ((writePidfile_calm c false os t₁ t₂ u₂ hpidfile).trans
      (loadThrottles_calm c os t₂ t₃ throttles hthrottles))
  have hgoes₄ := detach_calm c log.isStdout os t₃ t₄ u₄ hdetach
  have hgoes₆ := applyDataDir_calm c jail os t₅ t₆ dir hdir
  have hlast := (must_goes hsignals).1.trans (must_goes hpoll).1
  have hserving := hgoes₉.trans hlast
  obtain ⟨registry, hregistry⟩ := registerFirst_ok listeners.length hfew
  refine ⟨hgoes₃.trans (hgoes₄.trans (hgoes₅.trans (hgoes₆.trans (hgoes₇.trans hserving)))), ?_⟩
  constructor
  · intro hchroot
    have hlater := hgoes₆.trans (hgoes₇.trans hserving)
    exact ⟨hlater.mem (hjailed hchroot).1, hlater.mem (hjailed hchroot).2⟩
  · exact fun addr haddr => hserving.mem (hbound addr haddr)
  · exact hne
  · exact hfew
  · exact hdropped.later hlast.isPrefix
  · exact ⟨registry, fun _ => ⟨⟨throttles, loadThrottles_loads hthrottles, rfl⟩, hregistry, rfl⟩⟩

/--
**The order of startup.**  Whatever the operating system answers, what is asked of it
comes in the order of the stages: the files, the daemon, the jail, the sockets, the
other user, the loop.  The parent is told of a success, and the loop runs, only when
the jail, the sockets and the other user are as configured, and nothing has failed
but the binding of a family of addresses that is not there.

The answers of the operating system are arbitrary and may depend on what was asked
before, so this is about every way in which startup can fail.
-/
theorem startup_order (root : Bool) (c : Config.ServerConfig) (os : Os) :
    ((main root c os []).1.map fun e => stage e.act).Pairwise (· ≤ ·) ∧
    ((∃ e ∈ (main root c os []).1, stage .reportSuccess ≤ stage e.act) →
      ∃ before after started, (main root c os []).1 = before ++ after ∧
        Ready os c before started ∧ (∀ e ∈ before, stage e.act < stage .reportSuccess) ∧
        (∀ e ∈ after, stage .reportSuccess ≤ stage e.act) ∧
        ∀ e ∈ before, ∀ err, e.error = some err → Tolerated e.act err) := by
  obtain ⟨es, hes, hsorted, -⟩ := main_staged root c os []
  have hhistory : (main root c os []).1 = es := hes.trans (List.nil_append es)
  refine ⟨hhistory ▸ hsorted, ?_⟩
  rintro ⟨e, he, hlate⟩
  obtain ⟨before, hbefore, -, hin⟩ := prepare_staged root c os []
  have hearly : ∀ e ∈ before, stage e.act < stage .reportSuccess :=
    fun e he => Nat.lt_succ_of_le (hin e he).2
  rw [List.nil_append] at hbefore
  rw [main_eq] at he ⊢
  cases hrun : prepare root c os [] with
  | mk t r =>
      rw [hrun] at hbefore
      change t = before at hbefore
      subst hbefore
      cases r with
      | error text =>
          have hsame : ((prepare root c >>= serve c) os []).1 = t := by
            show (Trial.bind (prepare root c) (serve c) os []).1 = t
            unfold Trial.bind
            rw [hrun]
          rw [hsame] at he
          exact absurd hlate (Nat.not_le_of_lt (hearly e he))
      | ok started =>
          have hsame : (prepare root c >>= serve c) os [] = serve c started os t := by
            show Trial.bind (prepare root c) (serve c) os [] = _
            unfold Trial.bind
            rw [hrun]
          obtain ⟨hgoes, hready⟩ := prepare_ready hrun
          obtain ⟨after, hafter, -, hserves⟩ := serve_staged c started os t
          obtain ⟨asked, hasked, htolerated⟩ := hgoes
          rw [List.nil_append] at hasked
          subst hasked
          exact ⟨t, after, started, (congrArg Prod.fst hsame).trans hafter, hready, hearly,
            fun e he => (hserves e he).1, htolerated⟩

end Thttpd.Startup
