/-
Walks that go down by a name and up again.

Each item of a walk stays where it is, goes up, or goes down by a name.  The walk keeps
the names it has gone down by, the last one last, and it fails when it goes up from the
place where it began.

Two things are said of it without the stack.  It fails exactly when some beginning of it
goes up more often than down.  And when it does not fail, what it keeps is what is left
when every way up is cancelled with the last way down before it, in whatever order that
is done.

A walk can also be followed without failing, staying at the beginning where it would go up
from there.
-/
import Mathlib.Data.List.Basic
import Mathlib.Logic.Relation
import Mathlib.Tactic.Common

namespace Climb

/-- What an item of a walk does. -/
inductive Kind where
  | stay
  | up
  | down
  deriving DecidableEq, Repr

variable {α : Type*} (kind : α → Kind)

/-- One item; `none` is a walk that has failed. -/
def step (trail : Option (List α)) (x : α) : Option (List α) :=
  trail.bind fun cs =>
    match kind x with
    | .stay => some cs
    | .up => if cs = [] then none else some cs.dropLast
    | .down => some (cs ++ [x])

/-- The walk from where `cs` are the names gone down by. -/
def walkFrom (cs items : List α) : Option (List α) := items.foldl (step kind) (some cs)

/-- One item, where there is no way up from the beginning. -/
def settleStep (cs : List α) (x : α) : List α :=
  match kind x with
  | .stay => cs
  | .up => cs.dropLast
  | .down => cs ++ [x]

/-- The walk that stays at the beginning instead of failing. -/
def settle (cs items : List α) : List α := items.foldl (settleStep kind) cs

/-- How often a walk goes down, and up. -/
def downs (items : List α) : Nat := items.countP fun x => kind x = .down
def ups (items : List α) : Nat := items.countP fun x => kind x = .up

/-- One item that stays, or one way up with the way down just before it, is left out. -/
inductive Cancels : List α → List α → Prop
  | stay (a b : List α) {x : α} (hx : kind x = .stay) : Cancels (a ++ x :: b) (a ++ b)
  | pair (a b : List α) {x u : α} (hx : kind x = .down) (hu : kind u = .up) :
      Cancels (a ++ x :: u :: b) (a ++ b)

variable {kind}

theorem foldl_step_none (items : List α) : items.foldl (step kind) none = none := by
  induction items with
  | nil => rfl
  | cons x xs ih => exact ih

theorem walkFrom_stay {cs items : List α} {x : α} (hx : kind x = .stay) :
    walkFrom kind cs (x :: items) = walkFrom kind cs items := by
  simp [walkFrom, step, hx]

theorem walkFrom_down {cs items : List α} {x : α} (hx : kind x = .down) :
    walkFrom kind cs (x :: items) = walkFrom kind (cs ++ [x]) items := by
  simp [walkFrom, step, hx]

theorem walkFrom_up {cs items : List α} {x : α} (hx : kind x = .up) (hcs : cs ≠ []) :
    walkFrom kind cs (x :: items) = walkFrom kind cs.dropLast items := by
  simp [walkFrom, step, hx, hcs]

theorem walkFrom_up_nil {items : List α} {x : α} (hx : kind x = .up) :
    walkFrom kind [] (x :: items) = none := by
  simp [walkFrom, step, hx, foldl_step_none]

theorem walkFrom_append (cs a b : List α) :
    walkFrom kind cs (a ++ b) = (walkFrom kind cs a).bind fun kept => walkFrom kind kept b := by
  unfold walkFrom
  rw [List.foldl_append]
  cases a.foldl (step kind) (some cs) with
  | none => exact foldl_step_none b
  | some kept => rfl

/-! ### When it fails

The walk fails at the first step up from its beginning, and then no later step
matters.
-/

/-- A beginning with too many ways up is not empty. -/
theorem exists_prefix_cons {n : Nat} {x : α} {items : List α} :
    (∃ pre, pre <+: x :: items ∧ n + downs kind pre < ups kind pre) ↔
      ∃ pre, pre <+: items ∧ n + downs kind (x :: pre) < ups kind (x :: pre) := by
  constructor
  · rintro ⟨pre, hpre, hlt⟩
    cases pre with
    | nil => simp [ups] at hlt
    | cons y pre =>
        obtain ⟨rfl, hrest⟩ := List.cons_prefix_cons.mp hpre
        exact ⟨pre, hrest, hlt⟩
  · rintro ⟨pre, hpre, hlt⟩
    exact ⟨x :: pre, List.cons_prefix_cons.mpr ⟨rfl, hpre⟩, hlt⟩

/-- **A walk fails exactly when some beginning of it goes up too often.** -/
theorem walkFrom_eq_none_iff {items : List α} : ∀ {cs : List α},
    walkFrom kind cs items = none ↔
      ∃ pre, pre <+: items ∧ cs.length + downs kind pre < ups kind pre := by
  induction items with
  | nil =>
      intro cs
      simp [walkFrom, ups]
  | cons x items ih =>
      intro cs
      rw [exists_prefix_cons]
      cases hx : kind x with
      | stay =>
          rw [walkFrom_stay hx, ih]
          simp [downs, ups, hx]
      | down =>
          rw [walkFrom_down hx, ih]
          simp only [downs, ups, List.countP_cons, hx, List.length_append, List.length_singleton]
          simp [Nat.add_assoc, Nat.add_comm 1]
      | up =>
          by_cases hcs : cs = []
          · rw [hcs, walkFrom_up_nil hx]
            refine iff_of_true rfl ⟨[], List.nil_prefix, ?_⟩
            simp [downs, ups, hx]
          · have hpos : 0 < cs.length := List.length_pos_iff.mpr hcs
            rw [walkFrom_up hx hcs, ih]
            simp only [downs, ups, List.countP_cons, hx, List.length_dropLast]
            refine exists_congr fun pre => and_congr_right fun _ => ?_
            simp only [reduceCtorEq, decide_false, decide_true, Bool.false_eq_true, if_false, if_true]
            omega

/-- A walk that does not fail keeps as many names as it goes down more often than up. -/
theorem length_of_walkFrom {items : List α} : ∀ {cs kept : List α},
    walkFrom kind cs items = some kept →
      kept.length + ups kind items = cs.length + downs kind items := by
  induction items with
  | nil =>
      intro cs kept h
      rw [walkFrom, List.foldl_nil, Option.some.injEq] at h
      rw [h]
      rfl
  | cons x items ih =>
      intro cs kept h
      cases hx : kind x with
      | stay =>
          rw [walkFrom_stay hx] at h
          simpa [downs, ups, hx] using ih h
      | down =>
          rw [walkFrom_down hx] at h
          have hlen := ih h
          simp only [downs, ups, List.countP_cons, hx, List.length_append, List.length_singleton] at hlen ⊢
          simp
          omega
      | up =>
          by_cases hnil : cs = []
          · rw [hnil, walkFrom_up_nil hx] at h
            cases h
          · have hpos : 0 < cs.length := List.length_pos_iff.mpr hnil
            rw [walkFrom_up hx hnil] at h
            have hlen := ih h
            simp only [downs, ups, List.countP_cons, hx, List.length_dropLast] at hlen ⊢
            simp
            omega

/-! ### What it keeps

A step down and the step up behind it are left out together.  Doing so again and
again ends in a list of names, the same one in whatever order it is done.
-/

/-- Leaving out what cancels does not change where a walk leads. -/
theorem walkFrom_congr {cs l l' : List α} (h : Cancels kind l l') :
    walkFrom kind cs l = walkFrom kind cs l' := by
  have hkeep : ∀ (o : Option (List α)) {x : α}, kind x = .stay → step kind o x = o := by
    intro o x hx
    cases o with
    | none => rfl
    | some cs => simp [step, hx]
  have hback : ∀ (o : Option (List α)) {x u : α}, kind x = .down → kind u = .up →
      step kind (step kind o x) u = o := by
    intro o x u hx hu
    cases o with
    | none => rfl
    | some cs => simp [step, hx, hu]
  cases h with
  | stay a b hx => simp only [walkFrom, List.foldl_append, List.foldl_cons, hkeep _ hx]
  | pair a b hx hu => simp only [walkFrom, List.foldl_append, List.foldl_cons, hback _ hx hu]

/-- A walk that only goes down keeps all of it. -/
theorem walkFrom_of_down {items : List α} : ∀ {cs : List α}, (∀ x ∈ items, kind x = .down) →
    walkFrom kind cs items = some (cs ++ items) := by
  induction items with
  | nil =>
      intro cs _
      simp [walkFrom]
  | cons x items ih =>
      intro cs h
      rw [walkFrom_down (h x (by simp)), ih fun y hy => h y (by simp [hy])]
      simp

/-- What a walk keeps is reached by cancelling, and goes down only. -/
theorem cancels_of_walkFrom {items : List α} : ∀ {cs kept : List α}, (∀ c ∈ cs, kind c = .down) →
    walkFrom kind cs items = some kept →
    Relation.ReflTransGen (Cancels kind) (cs ++ items) kept ∧ ∀ c ∈ kept, kind c = .down := by
  induction items with
  | nil =>
      intro cs kept hcs h
      rw [walkFrom, List.foldl_nil, Option.some.injEq] at h
      rw [← h, List.append_nil]
      exact ⟨.refl, hcs⟩
  | cons x items ih =>
      intro cs kept hcs h
      cases hx : kind x with
      | stay =>
          rw [walkFrom_stay hx] at h
          obtain ⟨hrun, hkept⟩ := ih hcs h
          exact ⟨.head (.stay cs items hx) hrun, hkept⟩
      | down =>
          rw [walkFrom_down hx] at h
          have hcs' : ∀ c ∈ cs ++ [x], kind c = .down := by
            intro c hc
            rcases List.mem_append.mp hc with hc | hc
            · exact hcs c hc
            · rw [List.mem_singleton.mp hc, hx]
          simpa using ih hcs' h
      | up =>
          by_cases hnil : cs = []
          · rw [hnil, walkFrom_up_nil hx] at h
            cases h
          · rw [walkFrom_up hx hnil] at h
            -- the last name kept is the one this way up cancels with
            obtain ⟨hrun, hkept⟩ := ih (fun c hc => hcs c (List.dropLast_subset cs hc)) h
            have hlast : kind (cs.getLast hnil) = .down := hcs _ (List.getLast_mem hnil)
            have hstep := Cancels.pair cs.dropLast items hlast hx
            rw [List.append_cons, List.dropLast_concat_getLast] at hstep
            exact ⟨.head hstep hrun, hkept⟩

/-- **What a walk keeps is the one list of names it cancels to.** -/
theorem walkFrom_eq_some_iff {items kept : List α} :
    walkFrom kind [] items = some kept ↔
      Relation.ReflTransGen (Cancels kind) items kept ∧ ∀ c ∈ kept, kind c = .down := by
  constructor
  · intro h
    exact cancels_of_walkFrom (by simp) h
  · rintro ⟨hrun, hkept⟩
    have hsame : walkFrom kind [] items = walkFrom kind [] kept := by
      clear hkept
      induction hrun with
      | refl => rfl
      | tail _ hstep ih => exact ih.trans (walkFrom_congr hstep)
    rw [hsame, walkFrom_of_down hkept, List.nil_append]

/-! ### Staying at the beginning

The other way to go on where there is nothing to take back: stay.
-/

theorem settle_append (cs a b : List α) :
    settle kind cs (a ++ b) = settle kind (settle kind cs a) b :=
  List.foldl_append

/-- **Where the walk does not fail, they are the same.** -/
theorem settle_of_walkFrom {items : List α} : ∀ {cs kept : List α},
    walkFrom kind cs items = some kept → settle kind cs items = kept := by
  induction items with
  | nil =>
      intro cs kept h
      exact Option.some.inj h
  | cons x items ih =>
      intro cs kept h
      show settle kind (settleStep kind cs x) items = kept
      cases hx : kind x with
      | stay =>
          rw [walkFrom_stay hx] at h
          rw [settleStep, hx]
          exact ih h
      | down =>
          rw [walkFrom_down hx] at h
          rw [settleStep, hx]
          exact ih h
      | up =>
          by_cases hnil : cs = []
          · rw [hnil, walkFrom_up_nil hx] at h
            cases h
          · rw [walkFrom_up hx hnil] at h
            rw [settleStep, hx]
            exact ih h

/-- Leaving out what cancels makes no difference here either. -/
theorem settle_congr {cs l l' : List α} (h : Cancels kind l l') :
    settle kind cs l = settle kind cs l' := by
  cases h with
  | stay a b hx =>
      rw [settle_append, settle_append]
      show settle kind (settleStep kind _ _) b = _
      rw [settleStep, hx]
  | pair a b hx hu =>
      rw [settle_append, settle_append]
      show settle kind (settleStep kind (settleStep kind _ _) _) b = _
      rw [settleStep, settleStep, hx, hu]
      simp

/-- And neither does a way up at the beginning. -/
theorem settle_up {u : α} (hu : kind u = .up) (items : List α) :
    settle kind [] (u :: items) = settle kind [] items := by
  show settle kind (settleStep kind [] u) items = _
  rw [settleStep, hu]
  rfl

theorem settle_of_down {items : List α} (h : ∀ x ∈ items, kind x = .down) :
    settle kind [] items = items := by
  rw [settle_of_walkFrom (walkFrom_of_down h), List.nil_append]

/-- A walk that ends by going up takes back the last name, and there is one. -/
theorem settle_of_walkFrom_up {front kept : List α} {u : α} (hu : kind u = .up)
    (h : walkFrom kind [] (front ++ [u]) = some kept) :
    settle kind [] front ≠ [] ∧ kept = (settle kind [] front).dropLast := by
  rw [walkFrom_append] at h
  obtain ⟨names, hnames, h⟩ := Option.bind_eq_some_iff.mp h
  rw [settle_of_walkFrom hnames]
  by_cases hnil : names = []
  · rw [hnil, walkFrom_up_nil hu] at h
    cases h
  · rw [walkFrom_up hu hnil] at h
    exact ⟨hnil, (Option.some.inj h).symm⟩

/-- What it keeps goes down only. -/
theorem settle_down {items : List α} : ∀ {cs : List α}, (∀ c ∈ cs, kind c = .down) →
    ∀ c ∈ settle kind cs items, kind c = .down := by
  induction items with
  | nil => exact fun hcs => hcs
  | cons x items ih =>
      intro cs hcs
      have hstep : ∀ c ∈ settleStep kind cs x, kind c = .down := by
        unfold settleStep
        cases hx : kind x with
        | stay => exact hcs
        | up => exact fun c hc => hcs c (List.dropLast_subset cs hc)
        | down =>
            intro c hc
            rcases List.mem_append.mp hc with hc | hc
            · exact hcs c hc
            · rw [List.mem_singleton.mp hc, hx]
      exact ih hstep

/-- Walks over names and over their images. -/
theorem settle_map {β : Type*} {kind' : β → Kind} {f : α → β} (hf : ∀ x, kind' (f x) = kind x)
    (items : List α) : ∀ cs : List α,
      settle kind' (cs.map f) (items.map f) = (settle kind cs items).map f := by
  induction items with
  | nil => exact fun _ => rfl
  | cons x items ih =>
      intro cs
      have hstep : settleStep kind' (cs.map f) (f x) = (settleStep kind cs x).map f := by
        unfold settleStep
        rw [hf]
        cases kind x with
        | stay => rfl
        | up => exact (List.map_dropLast ..).symm
        | down => simp
      show settle kind' (settleStep kind' (cs.map f) (f x)) (items.map f) = _
      rw [hstep, ih]
      rfl

end Climb
