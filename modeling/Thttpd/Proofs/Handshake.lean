/-
What the parent of a daemon learns.

`Inv` is what holds whatever the order of the steps: one byte at most is written, it says
whether the startup was a success, and it stays in the pipe for as long as the parent listens.
That the parent is not left waiting is `parent_moves`, and `weight` gets less with every move.

Every process is a small machine and a move is a step of one of them or a fault,
which may kill whoever is still alive.  The invariant is about the pipe between
daemon and parent, for that is all they share, and each of the lemmas below moves
one process and shows what that can do to the pipe.
-/
import Thttpd.Core.Handshake
import Thttpd.Lib.Lts
import Thttpd.Proofs.Place

namespace Thttpd.Handshake

open Text

variable {result : Except Str Startup.Started} {s s' : State}

/-- Nothing has been written yet. -/
def Daemon.early : Daemon → Bool
  | unborn | redirecting | preparing => true
  | serving | gone _ => false

/-- The byte for an outcome. -/
def codeOf (success : Bool) : UInt8 := if success then 0 else 1

/--
**What holds in every state.**  A daemon that reported a success has made its
preparations; what is in the pipe is what it reported; as long as it has nothing to
report the pipe is empty, and a success stays in it until the parent has read it;
the parent exits with 0 after a success only; and before the child has detached
there is no daemon.
-/
structure Inv (result : Except Str Startup.Started) (s : State) : Prop where
  success : s.daemon.reported = true → ∃ started, result = .ok started
  byte : ∀ code ∈ s.pipe, code = codeOf s.daemon.reported
  early : s.daemon.early = true → s.pipe = []
  unread : s.daemon.reported = true → s.parent.listens = true → s.pipe = [0]
  status : ∀ status, s.parent = .exited status → status = 0 ∧ s.daemon.reported = true ∨ status = 1
  unborn : s.child = .detaching → s.daemon = .unborn

/-- Nothing was written when the parent forks. -/
theorem start_inv : Inv result .start := by
  constructor
  · intro h
    cases h
  · intro code h
    cases h
  · intro _
    rfl
  · intro h
    cases h
  · intro status h
    cases h
  · intro _
    rfl

/-! ### Steps of one process

One lemma for each process that can move.  A process that moves on without a word
leaves the pipe as it is, and only its own part of the invariant has to be looked at
again.
-/

/-- The parent moves on, and nobody else. -/
theorem Inv.parent (h : Inv result s) {parent : Parent} {pipe : List UInt8}
    (hpipe : ∀ code ∈ pipe, code ∈ s.pipe)
    (hlistens : parent.listens = true → s.parent.listens = true ∧ pipe = s.pipe)
    (hstatus : ∀ status, parent = .exited status →
      status = 0 ∧ s.daemon.reported = true ∨ status = 1) :
    Inv result { s with parent, pipe } := by
  constructor
  · exact h.success
  · intro code hcode
    exact h.byte code (hpipe code hcode)
  · intro hearly
    refine List.eq_nil_iff_forall_not_mem.mpr fun code hcode => ?_
    have hmem := hpipe code hcode
    rw [h.early hearly] at hmem
    cases hmem
  · intro hreported hlistening
    obtain ⟨hlistened, hsame⟩ := hlistens hlistening
    show pipe = [0]
    rw [hsame, h.unread hreported hlistened]
  · exact hstatus
  · exact h.unborn

/-- The child moves on, and nobody else. -/
theorem Inv.child (h : Inv result s) {child : Child} (hchild : child ≠ .detaching) :
    Inv result { s with child } :=
  ⟨h.success, h.byte, h.early, h.unread, h.status, fun hdetaching => absurd hdetaching hchild⟩

/-- The daemon moves on without a word. -/
theorem Inv.daemon (h : Inv result s) {daemon : Daemon} (hborn : s.daemon ≠ .unborn)
    (hreported : daemon.reported = s.daemon.reported)
    (hearly : daemon.early = true → s.daemon.early = true) : Inv result { s with daemon } := by
  constructor
  · intro hyes
    exact h.success (hreported.symm.trans hyes)
  · intro code hcode
    show code = codeOf daemon.reported
    rw [hreported]
    exact h.byte code hcode
  · intro hyes
    exact h.early (hearly hyes)
  · intro hyes hlistening
    exact h.unread (hreported.symm.trans hyes) hlistening
  · intro status hstatus
    show status = 0 ∧ daemon.reported = true ∨ status = 1
    rw [hreported]
    exact h.status status hstatus
  · intro hdetaching
    exact absurd (h.unborn hdetaching) hborn

/-- A report is none of the parent's doing. -/
theorem report_parent (code : UInt8) : (s.report code).parent = s.parent := by
  unfold State.report
  split <;> rfl

/-- Nor of the child's. -/
theorem report_child (code : UInt8) : (s.report code).child = s.child := by
  unfold State.report
  split <;> rfl

/-- It puts a byte into the pipe, if the parent still listens. -/
theorem report_pipe (code : UInt8) :
    (s.report code).pipe = if s.parent.listens then s.pipe ++ [code] else s.pipe := by
  unfold State.report
  split <;> rfl

/-- The daemon says how it went, and moves on. -/
theorem Inv.report (h : Inv result s) (daemon : Daemon) (hpreparing : s.daemon = .preparing)
    (hdaemon : daemon.early = false)
    (hsuccess : daemon.reported = true → ∃ started, result = .ok started) :
    Inv result { s.report (codeOf daemon.reported) with daemon } := by
  have hempty : s.pipe = [] := h.early (hpreparing ▸ rfl)
  have hpipe : (s.report (codeOf daemon.reported)).pipe =
      if s.parent.listens then [codeOf daemon.reported] else [] := by
    rw [report_pipe, hempty]
    rfl
  constructor
  · exact hsuccess
  · intro code hcode
    rw [hpipe] at hcode
    by_cases hlistens : s.parent.listens = true
    · rw [if_pos hlistens] at hcode
      exact List.mem_singleton.mp hcode
    · rw [if_neg hlistens] at hcode
      cases hcode
  · intro hearly
    exact absurd (hdaemon.symm.trans hearly) Bool.false_ne_true
  · intro hreported hlistening
    rw [report_parent] at hlistening
    show (s.report (codeOf daemon.reported)).pipe = [0]
    rw [hpipe, if_pos hlistening, hreported]
    rfl
  · intro status hstatus
    rw [report_parent] at hstatus
    rcases h.status status hstatus with ⟨-, hreported⟩ | hone
    · rw [hpreparing] at hreported
      cases hreported
    · exact .inr hone
  · intro hdetaching
    rw [report_child] at hdetaching
    have hunborn := h.unborn hdetaching
    rw [hpreparing] at hunborn
    cases hunborn

/-! ### Every move

The moves of the program, then those of whoever kills its processes.  A panic of the
daemon drops the handshake, and dropping it writes the byte for a failure, so it is
a report like any other.
-/

/-- What the parent reads is what the daemon said, or that nobody is left to say it. -/
theorem Inv.read (h : Inv result s) {status : UInt8} (hread : s.read = some status) :
    status = 0 ∧ s.daemon.reported = true ∨ status = 1 := by
  unfold State.read at hread
  cases hpipe : s.pipe with
  | nil =>
      simp only [hpipe] at hread
      by_cases hwriters : s.writers = true
      · rw [if_pos hwriters] at hread
        cases hread
      · rw [if_neg hwriters] at hread
        exact .inr (Option.some.inj hread).symm
  | cons code codes =>
      simp only [hpipe] at hread
      obtain rfl := Option.some.inj hread
      have hcode := h.byte code (hpipe ▸ List.mem_cons_self)
      by_cases hreported : s.daemon.reported = true
      · rw [hreported] at hcode
        exact .inl ⟨hcode, hreported⟩
      · rw [Bool.eq_false_iff.mpr hreported] at hcode
        exact .inr hcode

/-- A step of the program keeps it. -/
theorem step_inv (h : Inv result s) (hstep : Step result s s') : Inv result s' := by
  cases hstep with
  | closes hparent =>
      refine h.parent (fun _ hcode => hcode) (fun _ => ⟨hparent ▸ rfl, rfl⟩) ?_
      intro status hstatus
      cases hstatus
  | reads hparent hread =>
      refine h.parent (fun _ hcode => List.mem_of_mem_tail hcode) ?_ ?_
      · intro hlistens
        cases hlistens
      · intro status hstatus
        cases hstatus
        exact h.read hread
  | detachFails hchild => exact h.child (by decide)
  | forks hchild =>
      have hunborn := h.unborn hchild
      have hempty := h.early (hunborn ▸ rfl)
      constructor
      · intro hreported
        cases hreported
      · intro code hcode
        rw [hempty] at hcode
        cases hcode
      · intro _
        exact hempty
      · intro hreported
        cases hreported
      · intro status hstatus
        rcases h.status status hstatus with ⟨-, hreported⟩ | hone
        · rw [hunborn] at hreported
          cases hreported
        · exact .inr hone
      · intro hdetaching
        cases hdetaching
  | leaves hchild => exact h.child (by decide)
  | redirectFails hdaemon =>
      refine h.daemon (hdaemon ▸ by decide) (hdaemon ▸ rfl) ?_
      intro hearly
      cases hearly
  | redirects hdaemon =>
      exact h.daemon (hdaemon ▸ by decide) (hdaemon ▸ rfl) fun _ => hdaemon ▸ rfl
  | fails herror hdaemon =>
      refine h.daemon (hdaemon ▸ by decide) (hdaemon ▸ rfl) ?_
      intro hearly
      cases hearly
  | reports hok hdaemon => exact h.report .serving hdaemon rfl fun _ => ⟨_, hok⟩
  | ends hdaemon =>
      refine h.daemon (hdaemon ▸ by decide) (hdaemon ▸ rfl) ?_
      intro hearly
      cases hearly

/-- So does a fault. -/
theorem fault_inv (h : Inv result s) (hfault : Fault s s') : Inv result s' := by
  cases hfault with
  | readFails hparent =>
      refine h.parent (fun _ hcode => hcode) ?_ ?_
      · intro hlistens
        cases hlistens
      · intro status hstatus
        cases hstatus
        exact .inr rfl
  | panics hdaemon =>
      refine h.report (.gone false) hdaemon rfl ?_
      intro hreported
      cases hreported
  | killParent hlistens =>
      refine h.parent (fun _ hcode => hcode) ?_ ?_
      · intro hkilled
        cases hkilled
      · intro status hstatus
        cases hstatus
  | killChild halive => exact h.child (by decide)
  | killDaemon halive =>
      refine h.daemon ?_ rfl ?_
      · intro hunborn
        rw [hunborn] at halive
        cases halive
      · intro hearly
        cases hearly

/-- So does every move. -/
theorem move_inv (h : Inv result s) (hmove : Move result s s') : Inv result s' := by
  rcases hmove with hstep | hfault
  · exact step_inv h hstep
  · exact fault_inv h hfault

/-! ### Nobody is left waiting

A read blocks while the pipe is empty and somebody still has its other end open.  As
long as the parent listens there is a byte to read, or nobody who could write one,
or somebody who can still move; and since every move leaves less to do, the last of
these does not go on.
-/

/-- The steps the parent has left, at most. -/
def Parent.weight : Parent → Nat
  | forked => 2
  | reading => 1
  | exited _ | killed => 0

/-- The child has the daemon still to fork. -/
def Child.weight : Child → Nat
  | detaching => 5
  | forked => 1
  | gone => 0

/-- The daemon has to redirect its output, to prepare, and to serve. -/
def Daemon.weight : Daemon → Nat
  | redirecting => 3
  | preparing => 2
  | serving => 1
  | unborn | gone _ => 0

/-- What is left to do. -/
def State.weight (s : State) : Nat := s.parent.weight + s.child.weight + s.daemon.weight

theorem Parent.weight_pos {parent : Parent} (h : parent.listens = true) : 0 < parent.weight := by
  cases parent with
  | forked => decide
  | reading => decide
  | exited status => cases h
  | killed => cases h

theorem Child.weight_pos {child : Child} (h : child.alive = true) : 0 < child.weight := by
  cases child with
  | detaching => decide
  | forked => decide
  | gone => cases h

theorem Daemon.weight_pos {daemon : Daemon} (h : daemon.alive = true) : 0 < daemon.weight := by
  cases daemon with
  | redirecting => decide
  | preparing => decide
  | serving => decide
  | unborn => cases h
  | gone reported => cases h

/-- A report is no work that is counted; moving on from it is. -/
theorem report_weight {code : UInt8} {daemon : Daemon} :
    State.weight { s.report code with daemon } =
      s.parent.weight + s.child.weight + daemon.weight := by
  unfold State.weight
  show (s.report code).parent.weight + (s.report code).child.weight + _ = _
  rw [report_parent, report_child]

theorem step_weight (h : Inv result s) (hstep : Step result s s') : s'.weight < s.weight := by
  cases hstep with
  | closes hparent => simp [State.weight, hparent, Parent.weight]
  | reads hparent hread => simp [State.weight, hparent, Parent.weight]
  | detachFails hchild => simp [State.weight, hchild, Child.weight]
  | forks hchild => simp [State.weight, hchild, h.unborn hchild, Child.weight, Daemon.weight]
  | leaves hchild => simp [State.weight, hchild, Child.weight]
  | redirectFails hdaemon => simp [State.weight, hdaemon, Daemon.weight]
  | redirects hdaemon => simp [State.weight, hdaemon, Daemon.weight]
  | fails herror hdaemon => simp [State.weight, hdaemon, Daemon.weight]
  | reports hok hdaemon =>
      rw [report_weight]
      simp [State.weight, hdaemon, Daemon.weight]
  | ends hdaemon => simp [State.weight, hdaemon, Daemon.weight]

/-- Whoever is killed has nothing left to do. -/
theorem fault_weight (hfault : Fault s s') : s'.weight < s.weight := by
  cases hfault with
  | readFails hparent => simp [State.weight, hparent, Parent.weight]
  | panics hdaemon =>
      rw [report_weight]
      simp [State.weight, hdaemon, Daemon.weight]
  | killParent hlistens =>
      have hpos := Parent.weight_pos hlistens
      show 0 + s.child.weight + s.daemon.weight < s.parent.weight + s.child.weight + s.daemon.weight
      omega
  | killChild halive =>
      have hpos := Child.weight_pos halive
      show s.parent.weight + 0 + s.daemon.weight < s.parent.weight + s.child.weight + s.daemon.weight
      omega
  | killDaemon halive =>
      have hpos := Daemon.weight_pos halive
      show s.parent.weight + s.child.weight + 0 < s.parent.weight + s.child.weight + s.daemon.weight
      omega

/-- With nobody left to write, the read does not block. -/
theorem reads_of_alone (h : s.writers = false) : ∃ status, s.read = some status := by
  unfold State.read
  cases s.pipe with
  | nil => exact ⟨1, if_neg (Bool.eq_false_iff.mp h)⟩
  | cons code codes => exact ⟨code, rfl⟩

/-- A daemon that is alive can move. -/
theorem daemon_moves (h : s.daemon.alive = true) : ∃ s', Step result s s' := by
  cases hdaemon : s.daemon with
  | redirecting => exact ⟨_, .redirects hdaemon⟩
  | preparing =>
      cases result with
      | ok started => exact ⟨_, .reports rfl hdaemon⟩
      | error text => exact ⟨_, .fails rfl hdaemon⟩
  | serving => exact ⟨_, .ends hdaemon⟩
  | unborn =>
      rw [hdaemon] at h
      cases h
  | gone reported =>
      rw [hdaemon] at h
      cases h

/-- While the parent listens, somebody can take a step. -/
theorem parent_moves (hlistens : s.parent.listens = true) : ∃ s', Step result s s' := by
  cases hparent : s.parent with
  | forked => exact ⟨_, .closes hparent⟩
  | reading =>
      cases hchild : s.child with
      | detaching => exact ⟨_, .forks hchild⟩
      | forked => exact ⟨_, .leaves hchild⟩
      | gone =>
          by_cases halive : s.daemon.alive = true
          · exact daemon_moves halive
          · have halone : s.writers = false := by
              simp [State.writers, hparent, hchild, halive, Child.alive]
            obtain ⟨status, hread⟩ := reads_of_alone halone
            exact ⟨_, .reads hparent hread⟩
  | exited status =>
      rw [hparent] at hlistens
      cases hlistens
  | killed =>
      rw [hparent] at hlistens
      cases hlistens

/-- Every move leaves less to do. -/
theorem run_ends {n : Nat} (h : Inv result s) (hn : s.weight < n) :
    Acc (fun s' s => Move result s s') s := by
  induction n generalizing s with
  | zero => exact absurd hn (Nat.not_lt_zero _)
  | succ n ih =>
      refine .intro s fun s' hmove => ih (move_inv h hmove) ?_
      have hless : s'.weight < s.weight := by
        rcases hmove with hstep | hfault
        · exact step_weight h hstep
        · exact fault_weight hfault
      exact Nat.lt_of_lt_of_le hless (Nat.le_of_lt_succ hn)

/-- The invariant holds in every state that is reached. -/
theorem reachable_inv (h : Lts.Reachable (· = State.start) (Move result) s) : Inv result s := by
  refine h.invariant (Inv result) ?_ fun _ _ => move_inv
  intro s₀ hstart
  rw [hstart]
  exact start_inv

/--
**The parent learns how it went.**  In whatever order the three processes take their
steps, and whichever of them is killed: the parent exits with 0 or 1; with 0 only
when the daemon is ready to serve and has said so; once it has, 0 is what there is
to read; somebody has a step to take for as long as the parent listens; and no run
goes on for ever.

Safety and progress are read off the invariant, and termination from a measure that
every step makes smaller.
-/
theorem parent_learns (root : Bool) (c : Config.ServerConfig) (os : Startup.Os) {s : State}
    (h : Lts.Reachable (· = State.start) (Move (Startup.prepare root c os []).2) s) :
    (∀ status, s.parent = .exited status → status = 0 ∨ status = 1) ∧
    (s.parent = .exited 0 → s.daemon.reported = true ∧
      ∃ started, Startup.Ready os c (Startup.prepare root c os []).1 started) ∧
    (s.daemon.reported = true → s.parent = .reading → s.read = some 0) ∧
    (s.parent.listens = true → ∃ s', Step (Startup.prepare root c os []).2 s s') ∧
    Acc (fun s' s => Move (Startup.prepare root c os []).2 s s') s := by
  have hinv := reachable_inv h
  refine ⟨?_, ?_, ?_, parent_moves, run_ends hinv (Nat.lt_succ_self _)⟩
  · intro status hstatus
    rcases hinv.status status hstatus with ⟨hzero, -⟩ | hone
    · exact .inl hzero
    · exact .inr hone
  · intro hzero
    rcases hinv.status 0 hzero with ⟨-, hreported⟩ | hone
    · obtain ⟨started, hok⟩ := hinv.success hreported
      exact ⟨hreported, started, (Startup.prepare_ready (Prod.ext rfl hok)).2⟩
    · exact absurd hone (by decide)
  · intro hreported hreading
    have hpipe := hinv.unread hreported (hreading ▸ rfl)
    unfold State.read
    rw [hpipe]

/-- The forks, a start that succeeds, and the parent hears of it. -/
theorem success_heard : ∃ started,
    Startup.Ready Startup.willing .initial (Startup.prepare false .initial Startup.willing []).1 started := by
  have hstart : Lts.Reachable (· = State.start)
      (Move (Startup.prepare false .initial Startup.willing []).2) .start := .start rfl
  have hforked := (hstart.tail (.inl (.closes rfl))).tail (.inl (.forks rfl))
  have hreported := (hforked.tail (.inl (.redirects rfl))).tail (.inl (.reports rfl rfl))
  have hheard := hreported.tail (.inl (.reads rfl rfl))
  exact ((parent_learns false .initial Startup.willing hheard).2.1 rfl).2

end Thttpd.Handshake
