/-
What one run of the timers does.

A run fires the timers that are due when it starts, in order and once each: what it puts
back is due later than that, so the entries that are due or cancelled only get fewer, and
the loop ends.  The marks in the wheel are those of the cancelled timers, so every other
timer is still there afterwards, and the next deadline is the smallest of theirs.

The loop of a run is followed through two lists that are made of the heap as it is
at the start: the entries it takes out (`taken`) and those of them that fire
(`due`).  Each round takes the first of one list, or of both, and leaves the rest, so
the induction is on the length of `taken`, and what has fired at the end is all of
`due`.
-/
import Thttpd.Proofs.Timers

namespace Thttpd

namespace TimerWheel

/-! ### Marks

A mark stands for a cancelled timer whose entry is still in the heap.  Marks go when
their entries go, and no call leaves a mark without one.
-/

/-- What a run does to marks: only those of entries it drops are gone. -/
theorem run_marks {w : TimerWheel} (hg : w.Good) (fuel now : Nat) (clock : Nat → Nat) {id : Nat}
    (h : (run fuel w now clock).wheel.Has id ∨ ¬ w.Has id) :
    id ∈ (run fuel w now clock).wheel.cancelled ↔ id ∈ w.cancelled := by
  have hinv := run_invariant now clock
    (fun v _ => v.Good ∧ (∀ id, v.Has id → w.Has id) ∧
      ∀ id, v.Has id ∨ ¬ w.Has id → (id ∈ v.cancelled ↔ id ∈ w.cancelled)) ?_ ?_ fuel
    ⟨hg, fun _ h => h, fun _ _ => Iff.rfl⟩
  · exact hinv.2.2 id h
  · rintro v fired e rest ⟨hv, hhas, hmarks⟩ hheap -
    have hup : ∀ id, (v.dropFirst e rest).Has id → v.Has id := by
      rintro id ⟨x, hx, hid⟩
      exact ⟨x, by rw [hheap]; exact List.mem_cons_of_mem e hx, hid⟩
    refine ⟨hv.dropFirst hheap, fun id hid => hhas id (hup id hid), fun id hid => ?_⟩
    have hne : id ≠ e.id := by
      rcases hid with ⟨x, hx, rfl⟩ | hnot
      · exact hv.notMem_rest hheap x hx
      · rintro rfl
        exact hnot (hhas e.id ⟨e, by rw [hheap]; exact List.mem_cons_self, rfl⟩)
    rw [← hmarks id (hid.imp_left (hup id))]
    show id ∈ v.cancelled.erase e.id ↔ _
    rw [Finset.mem_erase]
    exact and_iff_right hne
  · rintro v fired e rest ⟨hv, hhas, hmarks⟩ hheap - -
    have hup : ∀ id, (v.fireFirst e rest (clock fired.length)).Has id → v.Has id := by
      rintro id ⟨x, hx, hid⟩
      rcases mem_putBack.mp hx with hx | ⟨period, -, rfl⟩
      · exact ⟨x, by rw [hheap]; exact List.mem_cons_of_mem e hx, hid⟩
      · exact ⟨e, by rw [hheap]; exact List.mem_cons_self, hid⟩
    exact ⟨hv.fireFirst hheap _, fun id hid => hhas id (hup id hid),
      fun id hid => hmarks id (hid.imp_left (hup id))⟩

/-- A call marks the timer it cancels, and a timer that is there keeps its mark. -/
theorem mark_step {w : TimerWheel} (hg : w.Good) {op : Op} (hs : w.Spares op) {id : Nat}
    (h : (w.step op).1.Has id ∨ (w.step op).1.nextId ≤ id) :
    (w.Has id ∨ w.nextId ≤ id) ∧
      (id ∈ (w.step op).1.cancelled ↔ id ∈ w.cancelled ∨ op = .cancel id) := by
  have hle := w.nextId_le_step op
  have hnew : ∀ {e : TimerEntry} {heap : List TimerEntry}, e.id = w.nextId →
      (∃ x ∈ push heap e, x.id = id) → (∃ x ∈ heap, x.id = id) ∨ w.nextId ≤ id := by
    rintro e heap he ⟨x, hx, hid⟩
    rcases mem_push.mp hx with rfl | hx
    · exact .inr (by omega)
    · exact .inl ⟨x, hx, hid⟩
  cases op with
  | create now delay =>
      refine ⟨?_, by simp [step, create]⟩
      rcases h with h | h
      · exact hnew rfl h
      · exact .inr (Nat.le_trans hle h)
  | createPeriodic now period =>
      refine ⟨?_, by simp [step, createPeriodic]⟩
      rcases h with h | h
      · exact hnew rfl h
      · exact .inr (Nat.le_trans hle h)
  | cancel id' =>
      refine ⟨h, ?_⟩
      show id ∈ insert id' w.cancelled ↔ _
      rw [Finset.mem_insert, or_comm, Op.cancel.injEq, eq_comm]
  | reset id' now delay =>
      change (w.reset id' now delay).1.Has id ∨ (w.reset id' now delay).1.nextId ≤ id at h
      change _ ∧ (id ∈ (w.reset id' now delay).1.cancelled ↔ _)
      rcases w.reset_cases id' now delay with ⟨-, heq⟩ | ⟨old, hold, hold', heq⟩
      · rw [heq] at h ⊢
        exact ⟨h, by simp⟩
      · have hlive : id' ∉ w.cancelled := fun hc => hs ⟨hc, old, hold, hold'⟩
        rw [heq] at h ⊢
        refine ⟨?_, by simp [Finset.erase_eq_of_notMem hlive]⟩
        rcases h with h | h
        · refine (hnew rfl h).imp_left ?_
          rintro ⟨x, hx, hid⟩
          exact ⟨x, List.mem_of_mem_eraseP hx, hid⟩
        · exact .inr (Nat.le_trans (Nat.le_succ _) h)
  | run fuel now clock =>
      have hsame : (run fuel w now clock).wheel.nextId = w.nextId := w.nextId_run fuel now clock
      have hup := (w.run_shrinks fuel now clock).1
      have hfar : w.nextId ≤ id → ¬ w.Has id := by
        rintro hid ⟨e, he, rfl⟩
        exact absurd (hg.id_lt e he) (Nat.not_lt_of_le hid)
      change (run fuel w now clock).wheel.Has id ∨ (run fuel w now clock).wheel.nextId ≤ id at h
      rw [hsame] at h
      refine ⟨h.imp_left (hup id), ?_⟩
      show id ∈ (run fuel w now clock).wheel.cancelled ↔ _
      rw [run_marks hg fuel now clock (h.imp_right hfar)]
      simp

/--
**The marks are those of the timers that were cancelled.**

Induction on the operations from the end.  Under the condition nothing takes the mark
off an entry that is still there.
-/
theorem marked_iff {ops : List Op} : new.Always Spares ops →
    ∀ id, (new.after ops).Has id ∨ (new.after ops).nextId ≤ id →
      (id ∈ (new.after ops).cancelled ↔ Op.cancel id ∈ ops) := by
  induction ops using List.reverseRecOn with
  | nil =>
      intro _ id _
      simp [after, new]
  | append_singleton ops op ih =>
      intro hs id h
      obtain ⟨hops, hop, -⟩ := always_append.mp hs
      rw [after_append] at h ⊢
      obtain ⟨hbefore, hmark⟩ := mark_step (after_good new_good ops) hop h
      show id ∈ ((new.after ops).step op).1.cancelled ↔ _
      rw [hmark, ih hops id hbefore, List.mem_append, List.mem_singleton, eq_comm (a := op)]

/-! ### Periods

A timer that fires is due again one period later.  With a period of zero it would be
due again at once and the loop would not end, so the results ask for periods that
are none.
-/

/-- No periodic timer fires again at once. -/
def PositivePeriods (w : TimerWheel) : Prop := ∀ e ∈ w.heap, ∀ p, e.period = some p → 0 < p

theorem PositivePeriods.run {w : TimerWheel} (h : w.PositivePeriods) (fuel now : Nat)
    (clock : Nat → Nat) : (run fuel w now clock).wheel.PositivePeriods := by
  refine run_invariant now clock (fun w _ => w.PositivePeriods) ?_ ?_ fuel h
  · intro v fired e rest hv hheap _ x hx
    exact hv x (by rw [hheap]; exact List.mem_cons_of_mem e hx)
  · intro v fired e rest hv hheap _ _ x hx
    rcases mem_putBack.mp hx with hx | ⟨period, -, rfl⟩
    · exact hv x (by rw [hheap]; exact List.mem_cons_of_mem e hx)
    · exact hv e (by rw [hheap]; exact List.mem_cons_self)

theorem PositivePeriods.step {w : TimerWheel} (h : w.PositivePeriods) {op : Op}
    (hop : ∀ now period, op = .createPeriodic now period → 0 < period) :
    (w.step op).1.PositivePeriods := by
  have hpush : ∀ {e : TimerEntry} {heap : List TimerEntry}, (∀ p, e.period = some p → 0 < p) →
      (∀ x ∈ heap, ∀ p, x.period = some p → 0 < p) → ∀ x ∈ push heap e, ∀ p, x.period = some p → 0 < p := by
    intro e heap he hheap x hx
    rcases mem_push.mp hx with rfl | hx
    · exact he
    · exact hheap x hx
  cases op with
  | create now delay =>
      refine hpush (fun p hp => ?_) h
      cases hp
  | createPeriodic now period =>
      refine hpush (fun p hp => ?_) h
      cases hp
      exact hop now period rfl
  | cancel id => exact h
  | reset id now delay =>
      show (w.reset id now delay).1.PositivePeriods
      rcases w.reset_cases id now delay with ⟨-, heq⟩ | ⟨old, hold, -, heq⟩
      · rw [heq]
        exact h
      · rw [heq]
        exact hpush (h old hold) fun x hx => h x (List.mem_of_mem_eraseP hx)
  | run fuel now clock => exact h.run fuel now clock

/-- So no sequence of calls leaves a periodic timer that is due at once. -/
theorem positivePeriods_after {ops : List Op} : ∀ {w : TimerWheel}, w.PositivePeriods →
    (∀ now period, Op.createPeriodic now period ∈ ops → 0 < period) →
      (w.after ops).PositivePeriods := by
  induction ops with
  | nil => exact fun h _ => h
  | cons op ops ih =>
      intro w h hops
      refine ih (h.step fun now period heq => ?_) fun now period hmem => ?_
      · exact hops now period (heq ▸ List.mem_cons_self)
      · exact hops now period (List.mem_cons_of_mem op hmem)

/-! ### The loop

What is dropped or fired is always the first entry of the heap, and the rest is as
it was, but for an entry that is put back: it is later than now, so it is in neither
list.
-/

/-- An entry that is not cancelled. -/
def Live (w : TimerWheel) (e : TimerEntry) : Prop := e ∈ w.heap ∧ e.id ∉ w.cancelled

/-- The entries that a run fires. -/
def due (w : TimerWheel) (now : Nat) : List TimerEntry :=
  w.heap.filter fun e => e.id ∉ w.cancelled ∧ e.deadline ≤ now

/-- The entries that its loop takes from the heap. -/
def taken (w : TimerWheel) (now : Nat) : List TimerEntry :=
  w.heap.filter fun e => e.id ∈ w.cancelled ∨ e.deadline ≤ now

variable {now : Nat} {clock : Nat → Nat}

/-- The other entries keep their marks when one is dropped. -/
theorem mark_dropFirst {w : TimerWheel} (hg : w.Good) {e : TimerEntry} {rest : List TimerEntry}
    (hw : w.heap = e :: rest) : ∀ x ∈ rest, (x.id ∈ w.cancelled.erase e.id ↔ x.id ∈ w.cancelled) := by
  intro x hx
  rw [Finset.mem_erase]
  exact and_iff_right (hg.notMem_rest hw x hx)

/-- A dropped entry was cancelled, so nothing that is to fire is lost with it. -/
theorem due_dropFirst {w : TimerWheel} (hg : w.Good) {e : TimerEntry} {rest : List TimerEntry}
    (hw : w.heap = e :: rest) (hc : e.id ∈ w.cancelled) :
    w.due now = (w.dropFirst e rest).due now := by
  unfold due dropFirst
  rw [hw, List.filter_cons_of_neg (by simp [hc])]
  refine List.filter_congr fun x hx => ?_
  simp only [mark_dropFirst hg hw x hx]

/-- It is the first of those that are taken. -/
theorem taken_dropFirst {w : TimerWheel} (hg : w.Good) {e : TimerEntry} {rest : List TimerEntry}
    (hw : w.heap = e :: rest) (hc : e.id ∈ w.cancelled) :
    w.taken now = e :: (w.dropFirst e rest).taken now := by
  unfold taken dropFirst
  rw [hw, List.filter_cons_of_pos (by simp [hc])]
  congr 1
  refine List.filter_congr fun x hx => ?_
  simp only [mark_dropFirst hg hw x hx]

/-- The entries that are not cancelled are the same without it. -/
theorem live_dropFirst {w : TimerWheel} (hg : w.Good) {e : TimerEntry} {rest : List TimerEntry}
    (hw : w.heap = e :: rest) (hc : e.id ∈ w.cancelled) (x : TimerEntry) :
    (w.dropFirst e rest).Live x ↔ w.Live x := by
  unfold Live dropFirst
  rw [hw, List.mem_cons]
  constructor
  · rintro ⟨hx, hmark⟩
    exact ⟨.inr hx, fun h => hmark ((mark_dropFirst hg hw x hx).mpr h)⟩
  · rintro ⟨rfl | hx, hmark⟩
    · exact absurd hc hmark
    · exact ⟨hx, fun h => hmark ((mark_dropFirst hg hw x hx).mp h)⟩

/-- What is put back is not counted by a condition that it fails. -/
theorem filter_putBack {p : TimerEntry → Bool} {rest : List TimerEntry} {e : TimerEntry} {t : Nat}
    (h : ∀ period, e.period = some period → p { e with deadline := t + period } = false) :
    (putBack rest e t).filter p = rest.filter p := by
  unfold putBack
  cases hp : e.period with
  | none => rfl
  | some period =>
      have hfail := h period hp
      rw [hp] at hfail
      exact filter_push hfail rest

section

variable {w : TimerWheel} {e : TimerEntry} {rest : List TimerEntry} {t : Nat}

/-- An entry that fires is the first of those that are to fire. -/
theorem due_fireFirst (hw : w.heap = e :: rest) (hc : e.id ∉ w.cancelled) (hdue : e.deadline ≤ now)
    (hp : ∀ p, e.period = some p → 0 < p) (ht : now ≤ t) :
    w.due now = e :: (w.fireFirst e rest t).due now := by
  unfold due fireFirst
  rw [hw, List.filter_cons_of_pos (by simp [hc, hdue]), filter_putBack]
  intro period hperiod
  have := hp period hperiod
  simp only [decide_eq_false_iff_not, not_and, Nat.not_le]
  intro _
  omega

theorem taken_fireFirst (hw : w.heap = e :: rest) (hc : e.id ∉ w.cancelled) (hdue : e.deadline ≤ now)
    (hp : ∀ p, e.period = some p → 0 < p) (ht : now ≤ t) :
    w.taken now = e :: (w.fireFirst e rest t).taken now := by
  unfold taken fireFirst
  rw [hw, List.filter_cons_of_pos (by simp [hdue]), filter_putBack]
  intro period hperiod
  have := hp period hperiod
  simp only [decide_eq_false_iff_not, not_or, Nat.not_le]
  exact ⟨hc, by omega⟩

/-- After an entry has fired, the later ones are those from before and itself, put back. -/
theorem live_fireFirst (hw : w.heap = e :: rest) (hc : e.id ∉ w.cancelled) (hdue : e.deadline ≤ now)
    (hp : ∀ p, e.period = some p → 0 < p) (ht : now ≤ t) (x : TimerEntry) :
    (w.fireFirst e rest t).Live x ∧ now < x.deadline ↔
      (w.Live x ∧ now < x.deadline) ∨
        ∃ p, e.period = some p ∧ x = { e with deadline := t + p } := by
  unfold Live fireFirst
  rw [hw, mem_putBack, List.mem_cons]
  constructor
  · rintro ⟨⟨hx | hx, hmark⟩, hlater⟩
    · exact .inl ⟨⟨.inr hx, hmark⟩, hlater⟩
    · exact .inr hx
  · rintro (⟨⟨rfl | hx, hmark⟩, hlater⟩ | ⟨p, hperiod, rfl⟩)
    · omega
    · exact ⟨⟨.inl hx, hmark⟩, hlater⟩
    · have := hp p hperiod
      refine ⟨⟨.inr ⟨p, hperiod, rfl⟩, hc⟩, ?_⟩
      show now < t + p
      omega

end

/-- If the first entry is later than now, so are all. -/
theorem later_of_first {w : TimerWheel} (hg : w.Good)
    (h : ∀ e ∈ w.heap.head?, e.id ∉ w.cancelled ∧ now < e.deadline) :
    ∀ x ∈ w.heap, now < x.deadline := by
  have hsorted := hg.sorted
  cases hw : w.heap with
  | nil => simp
  | cons e rest =>
      rw [hw] at h hsorted
      obtain ⟨-, hlt⟩ := h e rfl
      intro x hx
      rcases List.mem_cons.mp hx with rfl | hx
      · exact hlt
      · have hle := (List.pairwise_cons.mp hsorted).1 x hx
        simp only [TimerEntry.le] at hle
        omega

/-- The entry that a timer gets back after it fired after `n` others. -/
def PutBack (clock : Nat → Nat) (n : Nat) (fired : List TimerEntry) (x : TimerEntry) : Prop :=
  ∃ (i : Nat) (f : TimerEntry) (p : Nat), fired[i]? = some f ∧ f.period = some p ∧
    x = { f with deadline := clock (n + i) + p }

theorem putBack_cons {n : Nat} {e : TimerEntry} {fired : List TimerEntry} {x : TimerEntry} :
    PutBack clock n (e :: fired) x ↔
      (∃ p, e.period = some p ∧ x = { e with deadline := clock n + p }) ∨
        PutBack clock (n + 1) fired x := by
  constructor
  · rintro ⟨i, f, p, hf, hp, rfl⟩
    cases i with
    | zero =>
        cases hf
        exact .inl ⟨p, hp, rfl⟩
    | succ i => exact .inr ⟨i, f, p, hf, hp, by rw [Nat.add_right_comm]; rfl⟩
  · rintro (⟨p, hp, rfl⟩ | ⟨i, f, p, hf, hp, rfl⟩)
    · exact ⟨0, e, p, rfl, hp, rfl⟩
    · exact ⟨i + 1, f, p, hf, hp, by rw [Nat.add_right_comm]; rfl⟩

/--
**The loop ends, with the due entries fired in the order of the heap.**

Each round takes the top of the heap, and what is put back lies later than the run,
so the entries that are due become fewer.
-/
theorem runLoop_spec (hclock : ∀ n, now ≤ clock n) (fuel : Nat) :
    ∀ (w : TimerWheel) (fired : List TimerEntry), w.Good → w.PositivePeriods →
      (w.taken now).length < fuel →
      (runLoop now clock fuel w fired).finished = true ∧
        (runLoop now clock fuel w fired).fired = fired ++ w.due now ∧
        ∀ x, (runLoop now clock fuel w fired).wheel.Live x ↔
          (w.Live x ∧ now < x.deadline) ∨ PutBack clock fired.length (w.due now) x := by
  induction fuel with
  | zero =>
      intro w fired _ _ hfuel
      exact absurd hfuel (Nat.not_lt_zero _)
  | succ fuel ih =>
      intro w fired hg hp hfuel
      rcases w.round_cases now with ⟨e, rest, hw, hc⟩ | ⟨e, rest, hw, hc, hdue⟩ | hstop
      · rw [taken_dropFirst hg hw hc, List.length_cons] at hfuel
        have hp' : (w.dropFirst e rest).PositivePeriods := fun x hx =>
          hp x (by rw [hw]; exact List.mem_cons_of_mem e hx)
        obtain ⟨hend, hfired, hlive⟩ := ih _ fired (hg.dropFirst hw) hp' (by omega)
        rw [runLoop_drop hw hc, due_dropFirst hg hw hc]
        refine ⟨hend, hfired, fun x => ?_⟩
        rw [hlive x, live_dropFirst hg hw hc]
      · have hpe := hp e (by rw [hw]; exact List.mem_cons_self)
        have ht := hclock fired.length
        rw [taken_fireFirst hw hc hdue hpe ht, List.length_cons] at hfuel
        have hp' : (w.fireFirst e rest (clock fired.length)).PositivePeriods := by
          intro x hx
          rcases mem_putBack.mp hx with hx | ⟨period, -, rfl⟩
          · exact hp x (by rw [hw]; exact List.mem_cons_of_mem e hx)
          · exact hpe
        obtain ⟨hend, hfired, hlive⟩ := ih _ (fired ++ [e]) (hg.fireFirst hw _) hp' (by omega)
        rw [runLoop_fire hw hc hdue, due_fireFirst hw hc hdue hpe ht]
        refine ⟨hend, by rw [hfired]; simp, fun x => ?_⟩
        rw [hlive x, live_fireFirst hw hc hdue hpe ht, putBack_cons, List.length_append, or_assoc]
        rfl
      · have hlater := later_of_first hg hstop
        have hnone : w.due now = [] := by
          unfold due
          rw [List.filter_eq_nil_iff]
          intro x hx
          have := hlater x hx
          simp only [decide_eq_true_eq, not_and, Nat.not_le]
          exact fun _ => this
        rw [runLoop_stop hstop, hnone]
        refine ⟨rfl, by simp, fun x => ?_⟩
        constructor
        · exact fun hx => .inl ⟨hx, hlater x hx.1⟩
        · rintro (⟨hx, -⟩ | ⟨i, f, p, hf, -⟩)
          · exact hx
          · simp at hf

/-- Cleaning up keeps what is not cancelled. -/
theorem live_dropTop {w : TimerWheel} (hg : w.Good) (x : TimerEntry) : w.dropTop.Live x ↔ w.Live x := by
  refine (dropTop_invariant (fun v => v.Good ∧ (v.Live x ↔ w.Live x)) ?_ w ⟨hg, Iff.rfl⟩).2
  rintro v e rest ⟨hv, hlive⟩ hheap hc
  exact ⟨hv.dropFirst hheap, (live_dropFirst hv hheap hc x).trans hlive⟩

/--
**A run ends, fires what is due, and keeps what is later.**

The heap is at least as long as the list of what is due, which is why that much fuel
is enough.
-/
theorem run_spec {w : TimerWheel} (hg : w.Good) (hp : w.PositivePeriods)
    (hclock : ∀ n, now ≤ clock n) {fuel : Nat} (hfuel : w.heap.length < fuel) :
    (run fuel w now clock).finished = true ∧ (run fuel w now clock).fired = w.due now ∧
      ∀ x, (run fuel w now clock).wheel.Live x ↔
        (w.Live x ∧ now < x.deadline) ∨ PutBack clock 0 (w.due now) x := by
  have hle : (w.taken now).length ≤ w.heap.length := List.length_filter_le _ _
  obtain ⟨hend, hfired, hlive⟩ := runLoop_spec hclock fuel w [] hg hp (by omega)
  have hloop : (runLoop now clock fuel w []).wheel.Good :=
    runLoop_invariant now clock (fun w _ => w.Good) (fun _ _ _ _ h hw _ => h.dropFirst hw)
      (fun _ _ _ _ h hw _ _ => h.fireFirst hw _) fuel w [] hg
  unfold run
  dsimp only
  rw [if_pos hend]
  exact ⟨hend, hfired, fun x => (live_dropTop hloop x).trans (hlive x)⟩

/-! ### The next deadline

The wheel tells its owner how long to sleep by searching the heap, which may have
cancelled entries at any place, for the smallest deadline that is not one of theirs.
-/

/-- One entry more in the search for the smallest deadline. -/
def earlier (w : TimerWheel) (earliest : Option Nat) (entry : TimerEntry) : Option Nat :=
  if w.isCancelled entry.id then earliest
  else match earliest with
    | none => some entry.deadline
    | some e => if entry.deadline < e then some entry.deadline else some e

/-- What the search has found among some deadlines: the smallest, or that there are none. -/
def Smallest (found : Option Nat) (deadlines : Nat → Prop) : Prop :=
  match found with
  | none => ∀ d, ¬ deadlines d
  | some d => deadlines d ∧ ∀ d', deadlines d' → d ≤ d'

theorem Smallest.earlier {w : TimerWheel} {found : Option Nat} {P : Nat → Prop}
    (h : Smallest found P) (e : TimerEntry) :
    Smallest (w.earlier found e) fun d => P d ∨ (e.id ∉ w.cancelled ∧ e.deadline = d) := by
  unfold TimerWheel.earlier
  by_cases hc : e.id ∈ w.cancelled
  · have hmark : w.isCancelled e.id = true := by simpa [isCancelled] using hc
    rw [if_pos hmark]
    have hsame : (fun d => P d ∨ (e.id ∉ w.cancelled ∧ e.deadline = d)) = P := by
      funext d
      simp [hc]
    rw [hsame]
    exact h
  · have hmark : ¬ w.isCancelled e.id = true := by simpa [isCancelled] using hc
    rw [if_neg hmark]
    cases found with
    | none =>
        refine ⟨.inr ⟨hc, rfl⟩, ?_⟩
        rintro d (hd | ⟨-, rfl⟩)
        · exact absurd hd (h d)
        · exact Nat.le_refl _
    | some d =>
        obtain ⟨hd, hmin⟩ := h
        dsimp only
        split
        · rename_i hlt
          refine ⟨.inr ⟨hc, rfl⟩, ?_⟩
          rintro d' (hd' | ⟨-, rfl⟩)
          · exact Nat.le_trans (Nat.le_of_lt hlt) (hmin d' hd')
          · exact Nat.le_refl _
        · rename_i hge
          refine ⟨.inl hd, ?_⟩
          rintro d' (hd' | ⟨-, rfl⟩)
          · exact hmin d' hd'
          · exact Nat.le_of_not_lt hge

/--
**The search finds the smallest deadline that is not cancelled.**

The search passes over the entries that were cancelled, whose callback will never be
called.
-/
theorem earliest_smallest (w : TimerWheel) :
    Smallest w.earliest fun d => ∃ e, w.Live e ∧ e.deadline = d := by
  have hfold : ∀ (heap : List TimerEntry) (found : Option Nat) (P : Nat → Prop), Smallest found P →
      Smallest (heap.foldl w.earlier found)
        fun d => P d ∨ ∃ e ∈ heap, e.id ∉ w.cancelled ∧ e.deadline = d := by
    intro heap
    induction heap with
    | nil =>
        intro found P h
        simpa using h
    | cons e heap ih =>
        intro found P h
        have hnext := ih _ _ (h.earlier (w := w) e)
        rw [List.foldl_cons]
        simpa [or_assoc] using hnext
  have hall := hfold w.heap none (fun _ => False) fun _ h => h
  show Smallest (w.heap.foldl w.earlier none) _
  simpa [Live, and_assoc] using hall

/-! ### A run of the timers

The statement is about timers and says nothing of marks: a timer is what has been
made and not been cancelled since.
-/

/-- An entry of a timer that has been made and not cancelled. -/
def IsTimer (ops : List Op) (e : TimerEntry) : Prop :=
  e ∈ (new.after ops).heap ∧ Op.cancel e.id ∉ ops

/-- That is an entry without a mark. -/
theorem isTimer_iff_live {ops : List Op} (hs : new.Always Spares ops) (e : TimerEntry) :
    IsTimer ops e ↔ (new.after ops).Live e := by
  refine and_congr_right fun he => not_congr ?_
  exact (marked_iff hs e.id (.inl ⟨e, he, rfl⟩)).symm

/-- The deadline first, then the id. -/
def FiresBefore (a b : TimerEntry) : Prop :=
  a.deadline < b.deadline ∨ a.deadline = b.deadline ∧ a.id < b.id

/-- The heap is kept in the order of firing, so what is due is fired in it. -/
theorem due_ordered {w : TimerWheel} (hg : w.Good) : (w.due now).Pairwise FiresBefore := by
  have hids : w.heap.Pairwise fun a b => a.id ≠ b.id := List.pairwise_map.mp hg.nodup
  refine ((hg.sorted.and hids).imp ?_).filter _
  rintro a b ⟨hle, hne⟩
  simp only [TimerEntry.le] at hle
  unfold FiresBefore
  omega

/--
**A run ends, fires every timer that is due once and in order, and no other**: those
that fired and are periodic are put back later, the others that are later stay as
they are, and what the wheel then waits for is the first of them.

Two assumptions are needed, and both are of the caller: no reset brings a cancelled
timer back, and no period is zero.
-/
theorem run_fires_due_once {ops : List Op} (hspares : new.Always Spares ops)
    (hperiods : ∀ now period, Op.createPeriodic now period ∈ ops → 0 < period)
    (hclock : ∀ n, now ≤ clock n) {fuel : Nat} (hfuel : (new.after ops).heap.length < fuel) :
    let r := run fuel (new.after ops) now clock
    let ops' := ops ++ [.run fuel now clock]
    r.finished = true ∧ r.fired.Pairwise FiresBefore ∧
      (∀ e, e ∈ r.fired ↔ IsTimer ops e ∧ e.deadline ≤ now) ∧ r.count = r.fired.length ∧
      (∀ e, IsTimer ops' e ↔ (IsTimer ops e ∧ now < e.deadline) ∨ PutBack clock 0 r.fired e) ∧
      (∀ e, PutBack clock 0 r.fired e → now < e.deadline) ∧
      ∃ next, (∀ later, r.wheel.nextDeadline later = next.map (· - later)) ∧
        Smallest next fun d => ∃ e, IsTimer ops' e ∧ e.deadline = d := by
  have hg := after_good new_good ops
  have hp : (new.after ops).PositivePeriods :=
    positivePeriods_after (fun e he => by simp [new] at he) hperiods
  obtain ⟨hend, hfired, hlive⟩ := run_spec hg hp hclock hfuel
  intro r ops'
  have hspares' : new.Always Spares ops' := always_append.mpr ⟨hspares, trivial, trivial⟩
  have hwheel : new.after ops' = r.wheel := after_append new ops [.run fuel now clock]
  have htimer : ∀ e, IsTimer ops' e ↔ r.wheel.Live e := by
    intro e
    rw [isTimer_iff_live hspares', hwheel]
  refine ⟨hend, ?_, fun e => ?_, rfl, fun e => ?_, ?_, r.wheel.earliest, fun _ => rfl, ?_⟩
  · rw [hfired]
    exact due_ordered hg
  · rw [hfired, isTimer_iff_live hspares, due, List.mem_filter, decide_eq_true_eq, and_assoc.symm]
    rfl
  · rw [htimer, hlive e, isTimer_iff_live hspares, hfired]
  · rintro e ⟨i, f, p, hf, hperiod, rfl⟩
    rw [hfired] at hf
    have hmem := List.mem_filter.mp (List.mem_of_getElem? hf)
    have hpos := hp f hmem.1 p hperiod
    have hlater := hclock (0 + i)
    show now < clock (0 + i) + p
    omega
  · have hsmallest := r.wheel.earliest_smallest
    simp only [← htimer] at hsmallest
    exact hsmallest

/-- A periodic timer, one that is cancelled, and one that is reset. -/
def threeTimers : List Op :=
  [.createPeriodic 0 5, .create 0 4, .create 0 3, .cancel 1, .reset 2 1 8]

theorem run_fires_due_once_three :
    (run 4 (new.after threeTimers) 10 fun _ => 11).finished = true ∧
      ∀ e, e ∈ (run 4 (new.after threeTimers) 10 fun _ => 11).fired ↔
        IsTimer threeTimers e ∧ e.deadline ≤ 10 := by
  have hspares : new.Always Spares threeTimers := by
    refine ⟨trivial, trivial, trivial, trivial, ?_, trivial⟩
    rintro ⟨hc, -⟩
    revert hc
    decide
  have hperiods : ∀ now period, Op.createPeriodic now period ∈ threeTimers → 0 < period := by
    intro now period h
    simp only [threeTimers, List.mem_cons, Op.createPeriodic.injEq, reduceCtorEq, List.not_mem_nil,
      or_false] at h
    omega
  obtain ⟨hend, -, hfired, -⟩ :=
    @run_fires_due_once 10 (fun _ => 11) threeTimers hspares hperiods (fun _ => by decide) 4
      (by decide)
  exact ⟨hend, hfired⟩

end TimerWheel

end Thttpd
