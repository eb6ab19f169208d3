/-
Timers: `rust/crates/thttpd-timers/src/lib.rs`.

The heap is a list that starts with its smallest entry, which is what a binary heap of
reversed entries yields first.  Instants and durations are nanoseconds.  A callback is a
boxed object of its own, so it is known by the timer it was made for; a reset hands it
to a new timer.  A `TimerId` is the number it wraps.
-/
import Mathlib.Data.Finset.Basic
import Mathlib.Data.List.Sort

namespace Thttpd

structure TimerEntry where
  id : Nat
  deadline : Nat
  period : Option Nat
  callback : Nat
  deriving DecidableEq

namespace TimerEntry

/-- `cmp`: the deadline first, then the id. -/
def le (a b : TimerEntry) : Prop := a.deadline < b.deadline ∨ a.deadline = b.deadline ∧ a.id ≤ b.id

instance : DecidableRel le := fun _ _ => inferInstanceAs (Decidable (_ ∨ _))

end TimerEntry

structure TimerWheel where
  heap : List TimerEntry
  /-- A `u64` in the source; no wheel makes so many timers that it ends. -/
  nextId : Nat
  cancelled : Finset Nat
  deriving DecidableEq

namespace TimerWheel

def new : TimerWheel := ⟨[], 0, ∅⟩

/-- An entry is put into the heap. -/
def push (heap : List TimerEntry) (entry : TimerEntry) : List TimerEntry :=
  heap.orderedInsert TimerEntry.le entry

def create (w : TimerWheel) (now delay : Nat) : TimerWheel × Nat :=
  ({ w with heap := push w.heap ⟨w.nextId, now + delay, none, w.nextId⟩, nextId := w.nextId + 1 },
    w.nextId)

def createPeriodic (w : TimerWheel) (now period : Nat) : TimerWheel × Nat :=
  ({ w with
      heap := push w.heap ⟨w.nextId, now + period, some period, w.nextId⟩
      nextId := w.nextId + 1 },
    w.nextId)

def cancel (w : TimerWheel) (id : Nat) : TimerWheel :=
  { w with cancelled := insert id w.cancelled }

def isCancelled (w : TimerWheel) (id : Nat) : Bool := id ∈ w.cancelled

def reset (w : TimerWheel) (id : Nat) (now delay : Nat) : TimerWheel × Option Nat :=
  match w.heap.find? (·.id = id) with
  | none => (w, none)
  | some old =>
      ({ heap := push (w.heap.eraseP (·.id = id)) ⟨w.nextId, now + delay, old.period, old.callback⟩
         nextId := w.nextId + 1
         cancelled := w.cancelled.erase id },
        some w.nextId)

/--
What `run` has done: the wheel, the entries as they fired, and whether its loop has
ended.
-/
structure RunResult where
  wheel : TimerWheel
  fired : List TimerEntry
  finished : Bool

/-- The number that `run` returns, counted up with each entry that fires. -/
def RunResult.count (r : RunResult) : Nat := r.fired.length

/--
The loop of `run`, for at most `fuel` rounds.  `clock n` is what the clock shows
after the callback that runs after `n` others.
-/
def runLoop (now : Nat) (clock : Nat → Nat) : Nat → TimerWheel → List TimerEntry → RunResult
  | 0, w, fired => ⟨w, fired, false⟩
  | fuel + 1, w, fired =>
      match w.heap with
      | [] => ⟨w, fired, true⟩
      | entry :: rest =>
          if w.isCancelled entry.id then
            runLoop now clock fuel
              { w with heap := rest, cancelled := w.cancelled.erase entry.id } fired
          else if entry.deadline ≤ now then
            -- it is asked once more whether the entry is cancelled, and it is not
            match entry.period with
            | some period =>
                let entry' := { entry with deadline := clock fired.length + period }
                runLoop now clock fuel
                  { w with heap := if w.isCancelled entry.id then rest else push rest entry' }
                  (fired ++ [entry])
            | none => runLoop now clock fuel { w with heap := rest } (fired ++ [entry])
          else ⟨w, fired, true⟩

/-- The cancelled entries at the top of a heap are dropped, and their marks. -/
def dropCancelled : List TimerEntry → Finset Nat → List TimerEntry × Finset Nat
  | [], cancelled => ([], cancelled)
  | entry :: rest, cancelled =>
      if entry.id ∈ cancelled then dropCancelled rest (cancelled.erase entry.id)
      else (entry :: rest, cancelled)

/-- Clean up the cancelled entries at the top. -/
def dropTop (w : TimerWheel) : TimerWheel :=
  let (heap, cancelled) := dropCancelled w.heap w.cancelled
  { w with heap := heap, cancelled := cancelled }

/-- Only after its loop has ended does `run` clean up and return. -/
def run (fuel : Nat) (w : TimerWheel) (now : Nat) (clock : Nat → Nat) : RunResult :=
  let r := runLoop now clock fuel w []
  if r.finished then { r with wheel := r.wheel.dropTop } else r

/-- The smallest deadline of the entries that are not cancelled. -/
def earliest (w : TimerWheel) : Option Nat :=
  w.heap.foldl
    (fun earliest entry =>
      if w.isCancelled entry.id then earliest
      else match earliest with
        | none => some entry.deadline
        | some e => if entry.deadline < e then some entry.deadline else some e)
    none

def nextDeadline (w : TimerWheel) (now : Nat) : Option Nat := w.earliest.map (· - now)

/-! ### Runs -/

/-- A call of the wheel, with what the clock shows. -/
inductive Op where
  | create (now delay : Nat)
  | createPeriodic (now period : Nat)
  | cancel (id : Nat)
  | reset (id : Nat) (now delay : Nat)
  | run (fuel : Nat) (now : Nat) (clock : Nat → Nat)

/-- The wheel after a call, and what fires in it. -/
def step (w : TimerWheel) : Op → TimerWheel × List TimerEntry
  | .create now delay => ((w.create now delay).1, [])
  | .createPeriodic now period => ((w.createPeriodic now period).1, [])
  | .cancel id => (w.cancel id, [])
  | .reset id now delay => ((w.reset id now delay).1, [])
  | .run fuel now clock => ((run fuel w now clock).wheel, (run fuel w now clock).fired)

/-- The wheel after a sequence of calls. -/
def after (w : TimerWheel) : List Op → TimerWheel
  | [] => w
  | op :: ops => (w.step op).1.after ops

/-- What fires in a sequence of calls. -/
def firings (w : TimerWheel) : List Op → List TimerEntry
  | [] => []
  | op :: ops => (w.step op).2 ++ (w.step op).1.firings ops

end TimerWheel

end Thttpd
