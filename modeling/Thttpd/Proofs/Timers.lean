/-
What a timer wheel does with its timers.

The loop of `run` makes two kinds of steps: it drops a cancelled entry and its mark, or
it fires an entry that is due and puts it back if it is periodic.  What both keep, a run
keeps, and so do the calls around it.  The order of the heap and the ids in it are kept
by every call; that a cancelled timer stays silent is kept as long as no reset finds the
entry of a cancelled one.

Cancelling marks an entry and leaves it in the heap, and a reset takes an entry of
the id out of the heap and puts another in, under a new id.  Everything that can go
wrong lies between the two: the reset does not ask for the mark.  `Silenced` is the
state in which nothing can go wrong any more, every entry of the timer being marked,
and it is shown to stay unless a reset finds such an entry.
-/
import Thttpd.Core.Timers

namespace Thttpd

namespace TimerEntry

instance : Std.Total le where
  total a b := by
    simp only [le]
    omega

instance : IsTrans TimerEntry le where
  trans a b c h h' := by
    simp only [le] at h h' ⊢
    omega

end TimerEntry

namespace TimerWheel

/-! ### The heap

A list in the order of firing stands for the heap, as what the wheel does with a
heap depends on its order alone.
-/

/-- A pushed entry is there, beside the others. -/
theorem mem_push {heap : List TimerEntry} {e x : TimerEntry} : x ∈ push heap e ↔ x = e ∨ x ∈ heap :=
  List.mem_orderedInsert TimerEntry.le

theorem push_perm (heap : List TimerEntry) (e : TimerEntry) : (push heap e).Perm (e :: heap) :=
  List.perm_orderedInsert TimerEntry.le e heap

/-- An entry that does not count is not counted in the heap either. -/
theorem filter_push {p : TimerEntry → Bool} {e : TimerEntry} (h : p e = false)
    (heap : List TimerEntry) : (push heap e).filter p = heap.filter p := by
  induction heap with
  | nil => simp [push, h]
  | cons x heap ih =>
      unfold push at ih ⊢
      rw [List.orderedInsert_cons]
      split
      · rw [List.filter_cons_of_neg (by simp [h])]
      · rw [List.filter_cons, List.filter_cons, ih]

/-- What is left of a heap after its first entry has fired. -/
def putBack (rest : List TimerEntry) (e : TimerEntry) (now : Nat) : List TimerEntry :=
  match e.period with
  | some period => push rest { e with deadline := now + period }
  | none => rest

theorem mem_putBack {rest : List TimerEntry} {e x : TimerEntry} {now : Nat} :
    x ∈ putBack rest e now ↔
      x ∈ rest ∨ ∃ period, e.period = some period ∧ x = { e with deadline := now + period } := by
  unfold putBack
  cases hp : e.period with
  | none => simp
  | some period =>
      rw [mem_push]
      constructor
      · rintro (rfl | h)
        · exact .inr ⟨period, rfl, rfl⟩
        · exact .inl h
      · rintro (h | ⟨_, hperiod, rfl⟩)
        · exact .inr h
        · cases hperiod
          exact .inl rfl

/-- A timer of this id is in the heap. -/
def Has (w : TimerWheel) (id : Nat) : Prop := ∃ e ∈ w.heap, e.id = id

/--
The heap is in order, and its entries are different timers made so far, each with a
callback of its own.
-/
structure Good (w : TimerWheel) : Prop where
  sorted : w.heap.Pairwise TimerEntry.le
  nodup : (w.heap.map (·.id)).Nodup
  callbacks : (w.heap.map (·.callback)).Nodup
  id_lt : ∀ e ∈ w.heap, e.id < w.nextId
  callback_lt : ∀ e ∈ w.heap, e.callback < w.nextId

/-- Two entries of one id are one. -/
theorem Good.eq_of_id {w : TimerWheel} (h : w.Good) {e f : TimerEntry} (he : e ∈ w.heap)
    (hf : f ∈ w.heap) (hid : e.id = f.id) : e = f := List.inj_on_of_nodup_map h.nodup he hf hid

theorem new_good : new.Good := by
  constructor <;> simp [new]

/-! ### The steps of a run

The loop is taken apart into its rounds, so that no proof below has to follow the
loop itself.  Whatever a round keeps, the loop keeps, however far it gets before the
fuel is used up.
-/

/-- A cancelled entry at the top is dropped with its mark. -/
def dropFirst (w : TimerWheel) (e : TimerEntry) (rest : List TimerEntry) : TimerWheel :=
  { w with heap := rest, cancelled := w.cancelled.erase e.id }

/-- An entry at the top fires. -/
def fireFirst (w : TimerWheel) (e : TimerEntry) (rest : List TimerEntry) (now : Nat) : TimerWheel :=
  { w with heap := putBack rest e now }

variable {now : Nat} {clock : Nat → Nat}

/-- A cancelled entry at the top is dropped. -/
theorem runLoop_drop {w : TimerWheel} {e : TimerEntry} {rest : List TimerEntry}
    (hw : w.heap = e :: rest) (hc : e.id ∈ w.cancelled) (fuel : Nat) (fired : List TimerEntry) :
    runLoop now clock (fuel + 1) w fired = runLoop now clock fuel (w.dropFirst e rest) fired := by
  rw [runLoop, hw]
  exact if_pos (by simpa [isCancelled] using hc)

/-- One that is due fires. -/
theorem runLoop_fire {w : TimerWheel} {e : TimerEntry} {rest : List TimerEntry}
    (hw : w.heap = e :: rest) (hc : e.id ∉ w.cancelled) (hdue : e.deadline ≤ now) (fuel : Nat)
    (fired : List TimerEntry) :
    runLoop now clock (fuel + 1) w fired
      = runLoop now clock fuel (w.fireFirst e rest (clock fired.length)) (fired ++ [e]) := by
  have hnot : w.isCancelled e.id = false := by simpa [isCancelled] using hc
  rw [runLoop, hw]
  simp only [hnot, Bool.false_eq_true, if_false, if_pos hdue]
  unfold fireFirst putBack
  cases e.period with
  | none => rfl
  | some period => rfl

/-- At one that is later the loop ends. -/
theorem runLoop_stop {w : TimerWheel} (h : ∀ e ∈ w.heap.head?, e.id ∉ w.cancelled ∧ now < e.deadline)
    (fuel : Nat) (fired : List TimerEntry) :
    runLoop now clock (fuel + 1) w fired = ⟨w, fired, true⟩ := by
  rw [runLoop]
  cases hw : w.heap with
  | nil => rfl
  | cons e rest =>
      obtain ⟨hc, hlt⟩ := h e (by rw [hw]; rfl)
      have hnot : w.isCancelled e.id = false := by simpa [isCancelled] using hc
      simp only [hnot, Bool.false_eq_true, if_false, if_neg (Nat.not_le_of_lt hlt)]

/-- A round of the loop drops an entry, fires one or ends the loop. -/
theorem round_cases (w : TimerWheel) (now : Nat) :
    (∃ e rest, w.heap = e :: rest ∧ e.id ∈ w.cancelled) ∨
    (∃ e rest, w.heap = e :: rest ∧ e.id ∉ w.cancelled ∧ e.deadline ≤ now) ∨
    ∀ e ∈ w.heap.head?, e.id ∉ w.cancelled ∧ now < e.deadline := by
  cases hw : w.heap with
  | nil => simp
  | cons e rest =>
      by_cases hc : e.id ∈ w.cancelled
      · exact .inl ⟨e, rest, rfl, hc⟩
      · by_cases hdue : e.deadline ≤ now
        · exact .inr (.inl ⟨e, rest, rfl, hc, hdue⟩)
        · refine .inr (.inr fun f hf => ?_)
          cases hf
          exact ⟨hc, by omega⟩

/-- What dropping an entry keeps, dropping those at the top keeps. -/
theorem dropTop_invariant (Inv : TimerWheel → Prop)
    (hdrop : ∀ w e rest, Inv w → w.heap = e :: rest → e.id ∈ w.cancelled → Inv (w.dropFirst e rest)) :
    ∀ w, Inv w → Inv w.dropTop := by
  have hlist : ∀ (heap : List TimerEntry) (w : TimerWheel), w.heap = heap → Inv w → Inv w.dropTop := by
    intro heap
    induction heap with
    | nil =>
        intro w hw h
        unfold dropTop
        rw [hw]
        show Inv { w with heap := [] }
        rw [← hw]
        exact h
    | cons e rest ih =>
        intro w hw h
        by_cases hc : e.id ∈ w.cancelled
        · have heq : w.dropTop = (w.dropFirst e rest).dropTop := by
            unfold dropTop dropFirst
            rw [hw, dropCancelled, if_pos hc]
          rw [heq]
          exact ih _ rfl (hdrop w e rest h hw hc)
        · have heq : w.dropTop = w := by
            unfold dropTop
            rw [hw, dropCancelled, if_neg hc]
            show { w with heap := e :: rest } = w
            rw [← hw]
          rw [heq]
          exact h
  exact fun w h => hlist w.heap w rfl h

section Invariant

variable (now : Nat) (clock : Nat → Nat) (Inv : TimerWheel → List TimerEntry → Prop)
  (hdrop : ∀ w fired e rest, Inv w fired → w.heap = e :: rest → e.id ∈ w.cancelled →
    Inv (w.dropFirst e rest) fired)
  (hfire : ∀ w fired e rest, Inv w fired → w.heap = e :: rest → e.id ∉ w.cancelled →
    e.deadline ≤ now → Inv (w.fireFirst e rest (clock fired.length)) (fired ++ [e]))

include hdrop hfire

/--
**What both kinds of steps keep, the loop keeps**, however far it gets.

A round drops a cancelled entry or fires one that is due, and these are the two
kinds of steps.
-/
theorem runLoop_invariant (fuel : Nat) : ∀ w fired, Inv w fired →
    Inv (runLoop now clock fuel w fired).wheel (runLoop now clock fuel w fired).fired := by
  induction fuel with
  | zero =>
      intro w fired h
      exact h
  | succ fuel ih =>
      intro w fired h
      rcases round_cases w now with ⟨e, rest, hw, hc⟩ | ⟨e, rest, hw, hc, hdue⟩ | hstop
      · rw [runLoop_drop hw hc]
        exact ih _ _ (hdrop w fired e rest h hw hc)
      · rw [runLoop_fire hw hc hdue]
        exact ih _ _ (hfire w fired e rest h hw hc hdue)
      · rw [runLoop_stop hstop]
        exact h

/-- **What both kinds of steps keep, a run keeps.** -/
theorem run_invariant (fuel : Nat) {w : TimerWheel} (h : Inv w []) :
    Inv (run fuel w now clock).wheel (run fuel w now clock).fired := by
  have hloop := runLoop_invariant now clock Inv hdrop hfire fuel w [] h
  unfold run
  dsimp only
  split
  · exact dropTop_invariant (fun w => Inv w (runLoop now clock fuel _ []).fired)
      (fun w e rest hw heap hc => hdrop w _ e rest hw heap hc) _ hloop
  · exact hloop

end Invariant

/-! ### The heap stays good

Ids are handed out in order and never twice, and each entry that is pushed has a new
one.  A reset gives its timer a new id together with its old callback, so an id names
a timer once and a callback goes with it.
-/

/-- What is left of a good heap is good. -/
theorem Good.tail {w : TimerWheel} (h : w.Good) {e : TimerEntry} {rest : List TimerEntry}
    (hw : w.heap = e :: rest) (cancelled : Finset Nat) :
    Good { w with heap := rest, cancelled := cancelled } := by
  obtain ⟨hsorted, hnodup, hcallbacks, hid, hcallback⟩ := h
  rw [hw] at hsorted hnodup hcallbacks hid hcallback
  exact ⟨(List.pairwise_cons.mp hsorted).2, (List.nodup_cons.mp hnodup).2,
    (List.nodup_cons.mp hcallbacks).2,
    fun x hx => hid x (List.mem_cons_of_mem _ hx), fun x hx => hcallback x (List.mem_cons_of_mem _ hx)⟩

/-- An entry with an id and a callback of its own can be put into the heap. -/
theorem Good.push {w : TimerWheel} (h : w.Good) {e : TimerEntry} {nextId : Nat}
    (hnext : w.nextId ≤ nextId) (hnew : ¬ w.Has e.id)
    (hown : ∀ x ∈ w.heap, x.callback ≠ e.callback) (hid : e.id < nextId)
    (hcallback : e.callback < nextId) (cancelled : Finset Nat) :
    Good ⟨push w.heap e, nextId, cancelled⟩ := by
  have hperm := push_perm w.heap e
  constructor
  · exact List.Pairwise.orderedInsert e w.heap h.sorted
  · refine (hperm.map _).nodup_iff.mpr (List.nodup_cons.mpr ⟨?_, h.nodup⟩)
    rw [List.mem_map]
    exact hnew
  · refine (hperm.map _).nodup_iff.mpr (List.nodup_cons.mpr ⟨?_, h.callbacks⟩)
    rw [List.mem_map]
    rintro ⟨x, hx, hsame⟩
    exact hown x hx hsame
  · intro x hx
    rcases mem_push.mp hx with rfl | hx
    · exact hid
    · exact Nat.lt_of_lt_of_le (h.id_lt x hx) hnext
  · intro x hx
    rcases mem_push.mp hx with rfl | hx
    · exact hcallback
    · exact Nat.lt_of_lt_of_le (h.callback_lt x hx) hnext

theorem Good.dropFirst {w : TimerWheel} (h : w.Good) {e : TimerEntry} {rest : List TimerEntry}
    (hw : w.heap = e :: rest) : (w.dropFirst e rest).Good := h.tail hw _

/-- The first entry's id is not among the rest. -/
theorem Good.notMem_rest {w : TimerWheel} (h : w.Good) {e : TimerEntry} {rest : List TimerEntry}
    (hw : w.heap = e :: rest) : ∀ x ∈ rest, x.id ≠ e.id := by
  have hnodup := h.nodup
  rw [hw] at hnodup
  intro x hx hid
  exact (List.nodup_cons.mp hnodup).1 (List.mem_map.mpr ⟨x, hx, hid⟩)

theorem Good.callback_notMem_rest {w : TimerWheel} (h : w.Good) {e : TimerEntry}
    {rest : List TimerEntry} (hw : w.heap = e :: rest) : ∀ x ∈ rest, x.callback ≠ e.callback := by
  have hnodup := h.callbacks
  rw [hw] at hnodup
  intro x hx hid
  exact (List.nodup_cons.mp hnodup).1 (List.mem_map.mpr ⟨x, hx, hid⟩)

/-- An entry that is put back has its old id, and no other has it. -/
theorem Good.fireFirst {w : TimerWheel} (h : w.Good) {e : TimerEntry} {rest : List TimerEntry}
    (hw : w.heap = e :: rest) (now : Nat) : (w.fireFirst e rest now).Good := by
  have hrest := h.tail hw w.cancelled
  have he : e ∈ w.heap := by
    rw [hw]
    exact List.mem_cons_self
  unfold TimerWheel.fireFirst putBack
  cases e.period with
  | none => exact hrest
  | some period =>
      refine hrest.push (e := ⟨e.id, now + period, some period, e.callback⟩) (Nat.le_refl _) ?_
        (h.callback_notMem_rest (e := e) hw) (h.id_lt e he) (h.callback_lt e he) _
      rintro ⟨x, hx, hid⟩
      exact h.notMem_rest hw x hx hid

/-- A run keeps it. -/
theorem run_good {w : TimerWheel} (h : w.Good) (fuel now : Nat) (clock : Nat → Nat) :
    (run fuel w now clock).wheel.Good :=
  run_invariant now clock (fun w _ => w.Good) (fun _ _ _ _ h hw _ => h.dropFirst hw)
    (fun _ _ _ _ h hw _ _ => h.fireFirst hw _) fuel h

/-- What a reset finds, and what it leaves. -/
theorem reset_cases (w : TimerWheel) (id now delay : Nat) :
    (¬ w.Has id ∧ w.reset id now delay = (w, none)) ∨
    ∃ old ∈ w.heap, old.id = id ∧ w.reset id now delay =
      (⟨push (w.heap.eraseP (·.id = id)) ⟨w.nextId, now + delay, old.period, old.callback⟩,
        w.nextId + 1, w.cancelled.erase id⟩, some w.nextId) := by
  unfold reset
  cases hf : w.heap.find? (·.id = id) with
  | none =>
      refine .inl ⟨?_, rfl⟩
      rintro ⟨e, he, hid⟩
      have := List.find?_eq_none.mp hf e he
      simp [hid] at this
  | some old =>
      have hid : old.id = id := by simpa using List.find?_some hf
      exact .inr ⟨old, List.mem_of_find?_eq_some hf, hid, rfl⟩

theorem Good.eraseP {w : TimerWheel} (h : w.Good) (id : Nat) (cancelled : Finset Nat) :
    Good { w with heap := w.heap.eraseP (·.id = id), cancelled := cancelled } :=
  ⟨h.sorted.sublist List.eraseP_sublist, h.nodup.sublist (List.eraseP_sublist.map _),
    h.callbacks.sublist (List.eraseP_sublist.map _),
    fun x hx => h.id_lt x (List.mem_of_mem_eraseP hx),
    fun x hx => h.callback_lt x (List.mem_of_mem_eraseP hx)⟩

/-- The entry that is erased was the only one of its id. -/
theorem id_ne_of_mem_eraseP {heap : List TimerEntry} {id : Nat} (h : (heap.map (·.id)).Nodup) :
    ∀ x ∈ heap.eraseP (·.id = id), x.id ≠ id := by
  induction heap with
  | nil => simp
  | cons e heap ih =>
      obtain ⟨hnot, hnodup⟩ := List.nodup_cons.mp h
      intro x hx
      by_cases he : e.id = id
      · rw [List.eraseP_cons_of_pos (by simpa using he)] at hx
        intro hid
        exact hnot (List.mem_map.mpr ⟨x, hx, hid.trans he.symm⟩)
      · rw [List.eraseP_cons_of_neg (by simpa using he)] at hx
        rcases List.mem_cons.mp hx with rfl | hx
        · exact he
        · exact ih hnodup x hx

theorem Good.not_has_nextId {w : TimerWheel} (h : w.Good) : ¬ w.Has w.nextId := by
  rintro ⟨e, he, hid⟩
  have := h.id_lt e he
  omega

theorem Good.callback_ne_nextId {w : TimerWheel} (h : w.Good) :
    ∀ x ∈ w.heap, x.callback ≠ w.nextId := fun x hx => Nat.ne_of_lt (h.callback_lt x hx)

/--
**Every call keeps the heap good.**

The numbers of timers and callbacks are taken from one counter, so a new one is new
to the heap.
-/
theorem step_good {w : TimerWheel} (h : w.Good) (op : Op) : (w.step op).1.Good := by
  cases op with
  | create now delay =>
      exact h.push (Nat.le_succ _) h.not_has_nextId h.callback_ne_nextId (Nat.lt_succ_self _)
        (Nat.lt_succ_self _) _
  | createPeriodic now period =>
      exact h.push (Nat.le_succ _) h.not_has_nextId h.callback_ne_nextId (Nat.lt_succ_self _)
        (Nat.lt_succ_self _) _
  | cancel id => exact ⟨h.sorted, h.nodup, h.callbacks, h.id_lt, h.callback_lt⟩
  | reset id now delay =>
      show (w.reset id now delay).1.Good
      rcases w.reset_cases id now delay with ⟨-, heq⟩ | ⟨old, hold, hid, heq⟩
      · rw [heq]
        exact h
      · rw [heq]
        have herase := h.eraseP id w.cancelled
        have hown : ∀ x ∈ w.heap.eraseP (·.id = id), x.callback ≠ old.callback := by
          intro x hx hsame
          have heq := List.inj_on_of_nodup_map h.callbacks (List.mem_of_mem_eraseP hx) hold hsame
          exact id_ne_of_mem_eraseP h.nodup x hx (heq ▸ hid)
        exact herase.push (e := ⟨w.nextId, now + delay, old.period, old.callback⟩) (Nat.le_succ _)
          herase.not_has_nextId hown (Nat.lt_succ_self _)
          (Nat.lt_succ_of_lt (h.callback_lt old hold)) _
  | run fuel now clock => exact run_good h fuel now clock

/-- So does a sequence of calls. -/
theorem after_good {w : TimerWheel} (h : w.Good) : ∀ ops, (w.after ops).Good := by
  intro ops
  induction ops generalizing w with
  | nil => exact h
  | cons op ops ih => exact ih (step_good h op)

theorem nextId_run (w : TimerWheel) (fuel now : Nat) (clock : Nat → Nat) :
    (run fuel w now clock).wheel.nextId = w.nextId :=
  run_invariant now clock (fun v _ => v.nextId = w.nextId) (fun _ _ _ _ h _ _ => h)
    (fun _ _ _ _ h _ _ _ => h) fuel rfl

/-- Ids are handed out once. -/
theorem nextId_le_step (w : TimerWheel) (op : Op) : w.nextId ≤ (w.step op).1.nextId := by
  cases op with
  | create now delay => exact Nat.le_succ _
  | createPeriodic now period => exact Nat.le_succ _
  | cancel id => exact Nat.le_refl _
  | reset id now delay =>
      show w.nextId ≤ (w.reset id now delay).1.nextId
      rcases w.reset_cases id now delay with ⟨-, heq⟩ | ⟨old, -, -, heq⟩
      · rw [heq]
      · rw [heq]
        exact Nat.le_succ _
  | run fuel now clock => exact Nat.le_of_eq (w.nextId_run fuel now clock).symm

/-! ### A cancelled timer

Of a sequence of calls each is looked at with the wheel as it is then (`Always`).  In
one direction a silenced timer stays silent while every reset spares the cancelled
ones; in the other the first reset that does not is a timer that comes back.
-/

/-- Every entry of a timer, and every entry with its callback, is marked. -/
def Silenced (id callback : Nat) (w : TimerWheel) : Prop :=
  ∀ e ∈ w.heap, e.id = id ∨ e.callback = callback → e.id ∈ w.cancelled

/-- A call resets no timer whose entry is marked. -/
def Spares (w : TimerWheel) : Op → Prop
  | .reset id _ _ => ¬ (id ∈ w.cancelled ∧ w.Has id)
  | _ => True

instance (w : TimerWheel) : (op : Op) → Decidable (w.Spares op)
  | .reset id _ _ => inferInstanceAs (Decidable (¬ (id ∈ w.cancelled ∧ ∃ e ∈ w.heap, e.id = id)))
  | .create _ _ | .createPeriodic _ _ | .cancel _ | .run _ _ _ => inferInstanceAs (Decidable True)

/-- Every call of a sequence meets a condition, on the wheel as it is then. -/
def Always (P : TimerWheel → Op → Prop) (w : TimerWheel) : List Op → Prop
  | [] => True
  | op :: ops => P w op ∧ (w.step op).1.Always P ops

theorem always_append {P : TimerWheel → Op → Prop} {w : TimerWheel} {ops rest : List Op} :
    w.Always P (ops ++ rest) ↔ w.Always P ops ∧ (w.after ops).Always P rest := by
  induction ops generalizing w with
  | nil => simp [Always, TimerWheel.after]
  | cons op ops ih =>
      show P w op ∧ (w.step op).1.Always P (ops ++ rest) ↔ _
      rw [ih]
      exact and_assoc.symm

theorem after_append (w : TimerWheel) (ops rest : List Op) :
    w.after (ops ++ rest) = (w.after ops).after rest := by
  induction ops generalizing w with
  | nil => rfl
  | cons op ops ih => exact ih _

/-- A condition fails somewhere if it does not hold always. -/
theorem always_of_splits {P : TimerWheel → Op → Prop} : ∀ {w : TimerWheel} {ops : List Op},
    (∀ before op rest, ops = before ++ op :: rest → P (w.after before) op) → w.Always P ops := by
  intro w ops
  induction ops generalizing w with
  | nil => exact fun _ => trivial
  | cons op ops ih =>
      intro h
      refine ⟨h [] op ops rfl, ih fun before op' rest heq => ?_⟩
      exact h (op :: before) op' rest (by rw [heq, List.cons_append])

variable {id callback : Nat}

theorem Silenced.dropFirst {w : TimerWheel} (h : w.Silenced id callback) (hg : w.Good)
    {e : TimerEntry} {rest : List TimerEntry} (hw : w.heap = e :: rest) :
    (w.dropFirst e rest).Silenced id callback := by
  intro x hx hid
  have hmark := h x (by rw [hw]; exact List.mem_cons_of_mem e hx) hid
  exact Finset.mem_erase.mpr ⟨hg.notMem_rest hw x hx, hmark⟩

theorem Silenced.fireFirst {w : TimerWheel} (h : w.Silenced id callback) {e : TimerEntry}
    {rest : List TimerEntry} (hw : w.heap = e :: rest) (hc : e.id ∉ w.cancelled) (now : Nat) :
    (w.fireFirst e rest now).Silenced id callback := by
  intro x hx hid
  rcases mem_putBack.mp hx with hx | ⟨period, -, rfl⟩
  · exact h x (by rw [hw]; exact List.mem_cons_of_mem e hx) hid
  · exact absurd (h e (by rw [hw]; exact List.mem_cons_self) hid) hc

/--
**A run leaves a silenced timer silent.**

What fires is the callback of an entry that is not marked, and a silenced timer has
none.
-/
theorem Silenced.run {w : TimerWheel} (h : w.Silenced id callback) (hg : w.Good)
    (fuel now : Nat) (clock : Nat → Nat) :
    (run fuel w now clock).wheel.Silenced id callback ∧
      ∀ f ∈ (run fuel w now clock).fired, f.callback ≠ callback := by
  have hinv := run_invariant now clock
    (fun w fired => (w.Good ∧ w.Silenced id callback) ∧ ∀ f ∈ fired, f.callback ≠ callback)
    ?_ ?_ fuel ⟨⟨hg, h⟩, by simp⟩
  · exact ⟨hinv.1.2, hinv.2⟩
  · rintro w fired e rest ⟨⟨hg, h⟩, hfired⟩ hw -
    exact ⟨⟨hg.dropFirst hw, h.dropFirst hg hw⟩, hfired⟩
  · rintro w fired e rest ⟨⟨hg, h⟩, hfired⟩ hw hc -
    refine ⟨⟨hg.fireFirst hw _, h.fireFirst hw hc _⟩, fun f hf => ?_⟩
    rcases List.mem_append.mp hf with hf | hf
    · exact hfired f hf
    · rw [List.mem_singleton.mp hf]
      intro hcallback
      exact hc (h e (by rw [hw]; exact List.mem_cons_self) (.inr hcallback))

/-- A new entry belongs to another timer. -/
theorem Silenced.push {w : TimerWheel} (h : w.Silenced id callback) {e : TimerEntry} {nextId : Nat}
    (hid : e.id ≠ id) (hcallback : e.callback ≠ callback) :
    (⟨push w.heap e, nextId, w.cancelled⟩ : TimerWheel).Silenced id callback := by
  intro x hx hx'
  rcases mem_push.mp hx with rfl | hx
  · rcases hx' with hx' | hx'
    · exact absurd hx' hid
    · exact absurd hx' hcallback
  · exact h x hx hx'

/-- **A call leaves a silenced timer silent**, unless it resets a cancelled one. -/
theorem Silenced.step {w : TimerWheel} (h : w.Silenced id callback) (hg : w.Good)
    (hid : id < w.nextId) (hcallback : callback < w.nextId) {op : Op} (hs : w.Spares op) :
    (w.step op).1.Silenced id callback ∧ ∀ f ∈ (w.step op).2, f.callback ≠ callback := by
  have hnone : ∀ f ∈ ([] : List TimerEntry), f.callback ≠ callback := by simp
  cases op with
  | create now delay => exact ⟨h.push (Nat.ne_of_gt hid) (Nat.ne_of_gt hcallback), hnone⟩
  | createPeriodic now period => exact ⟨h.push (Nat.ne_of_gt hid) (Nat.ne_of_gt hcallback), hnone⟩
  | cancel id' =>
      refine ⟨?_, hnone⟩
      intro x hx hx'
      exact Finset.mem_insert_of_mem (h x hx hx')
  | run fuel now clock => exact h.run hg fuel now clock
  | reset id' now delay =>
      refine ⟨?_, hnone⟩
      show (w.reset id' now delay).1.Silenced id callback
      rcases w.reset_cases id' now delay with ⟨-, heq⟩ | ⟨old, hold, hold', heq⟩
      · rw [heq]
        exact h
      · have hlive : id' ∉ w.cancelled := fun hc => hs ⟨hc, old, hold, hold'⟩
        have hother : old.callback ≠ callback := by
          intro hsame
          exact hlive (hold' ▸ h old hold (.inr hsame))
        rw [heq, Finset.erase_eq_of_notMem hlive]
        refine Silenced.push (w := { w with heap := w.heap.eraseP (·.id = id') }) ?_
          (Nat.ne_of_gt hid) hother
        exact fun x hx => h x (List.mem_of_mem_eraseP hx)

/-- A silenced timer cannot be reset. -/
theorem Silenced.reset {w : TimerWheel} (h : w.Silenced id callback) {now delay : Nat}
    (hs : w.Spares (.reset id now delay)) : (w.reset id now delay).2 = none := by
  rcases w.reset_cases id now delay with ⟨-, heq⟩ | ⟨old, hold, hid, -⟩
  · rw [heq]
  · exact absurd ⟨hid ▸ h old hold (.inl hid), old, hold, hid⟩ hs

/-- **A silenced timer stays silent** through a sequence of calls. -/
theorem Silenced.after {ops : List Op} : ∀ {w : TimerWheel}, w.Silenced id callback → w.Good →
    id < w.nextId → callback < w.nextId → w.Always Spares ops →
      (∀ f ∈ w.firings ops, f.callback ≠ callback) ∧
        ∀ before now delay rest, ops = before ++ .reset id now delay :: rest →
          ((w.after before).reset id now delay).2 = none := by
  induction ops with
  | nil =>
      intro w h hg hid hcallback hs
      refine ⟨by simp [firings], fun before now delay rest heq => ?_⟩
      simp at heq
  | cons op ops ih =>
      intro w h hg hid hcallback hs
      obtain ⟨hop, hops⟩ := hs
      obtain ⟨hnext, hfired⟩ := h.step hg hid hcallback hop
      have hle := w.nextId_le_step op
      obtain ⟨hfirings, hresets⟩ := ih hnext (step_good hg op) (by omega) (by omega) hops
      constructor
      · intro f hf
        rcases List.mem_append.mp hf with hf | hf
        · exact hfired f hf
        · exact hfirings f hf
      · intro before now delay rest heq
        cases before with
        | nil =>
            cases heq
            exact h.reset hop
        | cons op' before =>
            cases heq
            exact hresets before now delay rest rfl

/--
Once a timer that is there has been cancelled, its callback is not called again, and
a reset of it finds nothing.
-/
def CancelIsFinal (ops : List Op) : Prop :=
  ∀ before id rest e, ops = before ++ .cancel id :: rest → e ∈ (new.after before).heap → e.id = id →
    (∀ f ∈ ((new.after before).cancel id).firings rest, f.callback ≠ e.callback) ∧
      ∀ before' now delay rest', rest = before' ++ .reset id now delay :: rest' →
        ((((new.after before).cancel id).after before').reset id now delay).2 = none

/-- Cancelling a timer that is there silences it. -/
theorem Good.silenced_cancel {w : TimerWheel} (h : w.Good) {e : TimerEntry} (he : e ∈ w.heap) :
    (w.cancel e.id).Silenced e.id e.callback := by
  intro x hx hsame
  have hxe : x = e := by
    rcases hsame with hsame | hsame
    · exact h.eq_of_id hx he hsame
    · exact List.inj_on_of_nodup_map h.callbacks hx he hsame
  rw [hxe]
  exact Finset.mem_insert_self _ _

/-- An id is only had from the wheel, so a call uses one that has been handed out. -/
def Issued (w : TimerWheel) : Op → Prop
  | .cancel id => id < w.nextId
  | .reset id _ _ => id < w.nextId
  | _ => True

/-- Only timers that have been made are marked. -/
def MarksIssued (w : TimerWheel) : Prop := ∀ id ∈ w.cancelled, id < w.nextId

/-- A run makes no timers and no marks. -/
theorem run_shrinks (w : TimerWheel) (fuel now : Nat) (clock : Nat → Nat) :
    (∀ id, (run fuel w now clock).wheel.Has id → w.Has id) ∧
      (run fuel w now clock).wheel.cancelled ⊆ w.cancelled := by
  refine run_invariant now clock
    (fun v _ => (∀ id, v.Has id → w.Has id) ∧ v.cancelled ⊆ w.cancelled) ?_ ?_ fuel
    ⟨fun _ h => h, fun _ h => h⟩
  · rintro v fired e rest ⟨hhas, hmarks⟩ hv -
    refine ⟨fun id hid => hhas id ?_, fun id hid => hmarks (Finset.mem_of_mem_erase hid)⟩
    obtain ⟨x, hx, hid⟩ := hid
    exact ⟨x, by rw [hv]; exact List.mem_cons_of_mem e hx, hid⟩
  · rintro v fired e rest ⟨hhas, hmarks⟩ hv - -
    refine ⟨fun id hid => hhas id ?_, hmarks⟩
    obtain ⟨x, hx, hid⟩ := hid
    rcases mem_putBack.mp hx with hx | ⟨period, -, rfl⟩
    · exact ⟨x, by rw [hv]; exact List.mem_cons_of_mem e hx, hid⟩
    · exact ⟨e, by rw [hv]; exact List.mem_cons_self, hid⟩

theorem MarksIssued.step {w : TimerWheel} (h : w.MarksIssued) {op : Op} (hop : w.Issued op) :
    (w.step op).1.MarksIssued := by
  have hle := w.nextId_le_step op
  intro id hid
  refine Nat.lt_of_lt_of_le ?_ hle
  cases op with
  | create now delay => exact h id hid
  | createPeriodic now period => exact h id hid
  | cancel id' =>
      rcases Finset.mem_insert.mp hid with rfl | hid
      · exact hop
      · exact h id hid
  | reset id' now delay =>
      change id ∈ (w.reset id' now delay).1.cancelled at hid
      rcases w.reset_cases id' now delay with ⟨-, heq⟩ | ⟨old, -, -, heq⟩
      · rw [heq] at hid
        exact h id hid
      · rw [heq] at hid
        exact h id (Finset.mem_of_mem_erase hid)
  | run fuel now clock => exact h id ((w.run_shrinks fuel now clock).2 hid)

/-- The entry of a marked timer was there and marked before, or was just marked. -/
theorem marked_step {w : TimerWheel} (h : w.MarksIssued) {op : Op} {id : Nat}
    (hc : id ∈ (w.step op).1.cancelled) (hid : (w.step op).1.Has id) :
    id ∈ w.cancelled ∧ w.Has id ∨ op = .cancel id ∧ w.Has id := by
  have hnew : ∀ {e : TimerEntry} {heap : List TimerEntry}, e.id = w.nextId → id ∈ w.cancelled →
      (∃ x ∈ push heap e, x.id = id) → ∃ x ∈ heap, x.id = id := by
    rintro e heap he hmark ⟨x, hx, hid⟩
    rcases mem_push.mp hx with rfl | hx
    · have := h id hmark
      omega
    · exact ⟨x, hx, hid⟩
  cases op with
  | create now delay => exact .inl ⟨hc, hnew rfl hc hid⟩
  | createPeriodic now period => exact .inl ⟨hc, hnew rfl hc hid⟩
  | cancel id' =>
      rcases Finset.mem_insert.mp hc with rfl | hc
      · exact .inr ⟨rfl, hid⟩
      · exact .inl ⟨hc, hid⟩
  | reset id' now delay =>
      change id ∈ (w.reset id' now delay).1.cancelled at hc
      change (w.reset id' now delay).1.Has id at hid
      rcases w.reset_cases id' now delay with ⟨-, heq⟩ | ⟨old, -, -, heq⟩
      · rw [heq] at hc hid
        exact .inl ⟨hc, hid⟩
      · rw [heq] at hc hid
        have hmark := Finset.mem_of_mem_erase hc
        obtain ⟨x, hx, hid⟩ := hnew rfl hmark hid
        exact .inl ⟨hmark, x, List.mem_of_mem_eraseP hx, hid⟩
  | run fuel now clock =>
      obtain ⟨hhas, hmarks⟩ := w.run_shrinks fuel now clock
      exact .inl ⟨hmarks hc, hhas id hid⟩

/-- **An entry that is marked was cancelled while it was there.** -/
theorem cancelled_of_marked {ops : List Op} : new.Always Issued ops →
    (new.after ops).MarksIssued ∧ ∀ id ∈ (new.after ops).cancelled, (new.after ops).Has id →
      ∃ before rest, ops = before ++ .cancel id :: rest ∧ (new.after before).Has id := by
  induction ops using List.reverseRecOn with
  | nil =>
      intro _
      refine ⟨fun id hid => ?_, fun id hid => ?_⟩
      · simp [TimerWheel.after, new] at hid
      · simp [TimerWheel.after, new] at hid
  | append_singleton ops op ih =>
      intro hissued
      obtain ⟨hops, hop, -⟩ := always_append.mp hissued
      obtain ⟨hmarks, hfound⟩ := ih hops
      rw [after_append]
      refine ⟨hmarks.step hop, fun id hc hid => ?_⟩
      rcases marked_step hmarks hc hid with ⟨hc, hid⟩ | ⟨rfl, hid⟩
      · obtain ⟨before, rest, heq, hhas⟩ := hfound id hc hid
        exact ⟨before, rest ++ [op], by rw [heq]; simp, hhas⟩
      · exact ⟨ops, [], rfl, hid⟩

/--
**Cancelling is final exactly if no reset finds the entry of a cancelled timer.**

The condition is about the calls: each reset is looked at in the state it finds the
wheel in.
-/
theorem cancel_final_iff {ops : List Op} (hissued : new.Always Issued ops) :
    CancelIsFinal ops ↔ new.Always Spares ops := by
  constructor
  · intro hfinal
    refine always_of_splits fun before op rest heq => ?_
    cases op with
    | reset id now delay =>
        rintro ⟨hc, hid⟩
        rw [heq] at hissued
        obtain ⟨before', rest', hbefore, e, he, hid'⟩ :=
          (cancelled_of_marked (always_append.mp hissued).1).2 id hc hid
        have hnone := (hfinal before' id (rest' ++ .reset id now delay :: rest) e
          (by rw [heq, hbefore]; simp) he hid').2 rest' now delay rest rfl
        have hsame : ((new.after before').cancel id).after rest' = new.after before := by
          rw [hbefore, after_append]
          rfl
        rw [hsame] at hnone
        rcases (new.after before).reset_cases id now delay with ⟨hnot, -⟩ | ⟨old, -, -, hsome⟩
        · exact hnot hid
        · rw [hsome] at hnone
          cases hnone
    | _ => trivial
  · rintro hspares before id rest e rfl he rfl
    have hg := after_good new_good before
    obtain ⟨-, -, hrest⟩ := always_append.mp hspares
    exact (hg.silenced_cancel he).after (step_good hg (.cancel e.id)) (hg.id_lt e he)
      (hg.callback_lt e he) hrest

/-- Of two timers the second is reset, the first cancelled, and reset when its entry is gone. -/
def settling : List Op :=
  [.create 0 5, .create 0 7, .reset 1 1 5, .cancel 0, .run 3 10 (fun _ => 10), .reset 0 11 5,
    .run 3 20 fun _ => 20]

/-- The cancelled timer stays cancelled, and the other fires once. -/
theorem cancel_final_settling :
    CancelIsFinal settling ∧ (new.firings settling).map TimerEntry.id = [2] := by
  refine ⟨(cancel_final_iff ?_).mpr ?_, by decide⟩
  · exact ⟨trivial, trivial, (by decide : 1 < 2), (by decide : 0 < 3), trivial, (by decide : 0 < 3),
      trivial, trivial⟩
  · exact ⟨trivial, trivial, by decide, trivial, trivial, by decide, trivial, trivial⟩

/-- A timer is cancelled, reset and due. -/
def revival : List Op := [.create 0 5, .cancel 0, .reset 0 1 5, .run 3 10 fun _ => 10]

/-- The reset revives the timer: it finds the entry, and the callback runs. -/
theorem reset_revives_cancelled :
    ¬ CancelIsFinal revival ∧
      ((new.after [.create 0 5, .cancel 0]).reset 0 1 5).2 = some 1 ∧
      new.firings revival = [⟨1, 6, none, 0⟩] := by
  refine ⟨fun h => ?_, by decide, by decide⟩
  have hnone := (h [.create 0 5] 0 [.reset 0 1 5, .run 3 10 fun _ => 10] ⟨0, 5, none, 0⟩ rfl
    (by decide) rfl).2 [] 1 5 _ rfl
  revert hnone
  decide

end TimerWheel

end Thttpd
