/-
Programs that ask the outside, one question after the other.

An oracle answers a question or fails, and may look at what was asked before.  A program
leaves a history of its questions and ends with a value or an error.  `Staged` says that the
questions come in the order of their stages whatever the answers are; a program that ends
with a value is taken apart by `bind_ok` and `ask_ok`.

The history holds the answers that failed as well.  What an error along the way has
to do with the outcome is therefore a statement about the history: a program that
ends with a value met only such failures as it may go on after (`Calm`), and one
that asks a question it needs an answer to ends there if it gets none.
-/
import Mathlib.Data.List.Basic
import Mathlib.Tactic.Common

namespace Trial

/-- A question, and the error if there was no answer. -/
structure Asked (A E : Type) where
  act : A
  error : Option E
  deriving DecidableEq

/--
The outside, which knows the history: an answer may depend on everything that was
asked before, so that a second question may be answered another way than the first.
-/
abbrev Oracle {A : Type} (R : A → Type) (E : Type) := List (Asked A E) → (a : A) → Except E (R a)

end Trial

open Trial in
/-- A program with questions in `A`, answers in `R`, and errors in `B` of its own. -/
def Trial {A : Type} (R : A → Type) (E B α : Type) :=
  Oracle R E → List (Asked A E) → List (Asked A E) × Except B α

namespace Trial

variable {A : Type} {R : A → Type} {E B α β : Type}

protected def pure (a : α) : Trial R E B α := fun _ t => (t, .ok a)

def fail (b : B) : Trial R E B α := fun _ t => (t, .error b)

protected def bind (m : Trial R E B α) (f : α → Trial R E B β) : Trial R E B β := fun os t =>
  match m os t with
  | (t', .ok a) => f a os t'
  | (t', .error b) => (t', .error b)

instance : Monad (Trial R E B) where
  pure := Trial.pure
  bind := Trial.bind

/-- Ask, and go on with an answer or an error. -/
def attempt (a : A) : Trial R E B (Except E (R a)) := fun os t =>
  match os t a with
  | .ok r => (t ++ [⟨a, none⟩], .ok (.ok r))
  | .error e => (t ++ [⟨a, some e⟩], .ok (.error e))

/-- Ask, and end with an error if there is no answer. -/
def ask (a : A) (report : E → B) : Trial R E B (R a) := do
  match ← attempt a with
  | .ok r => Trial.pure r
  | .error e => fail (report e)

/-- Ask for each in turn. -/
def each (act : α → Trial R E B β) : List α → Trial R E B (List β)
  | [] => Trial.pure []
  | a :: as => do
      let b ← act a
      let bs ← each act as
      Trial.pure (b :: bs)

/-! ### A program that ends with a value

From the end of a run back to its parts: which questions were put, and what was
answered.  These take the place of unfolding the program.
-/

section Values

variable {os : Oracle R E} {t t' : List (Asked A E)}

theorem pure_ok {a b : α} : (Pure.pure a : Trial R E B α) os t = (t', .ok b) ↔ t' = t ∧ b = a := by
  show (t, Except.ok a) = (t', Except.ok b) ↔ _
  rw [Prod.mk.injEq, Except.ok.injEq]
  exact ⟨fun h => ⟨h.1.symm, h.2.symm⟩, fun h => ⟨h.1.symm, h.2.symm⟩⟩

theorem bind_ok {m : Trial R E B α} {f : α → Trial R E B β} {b : β} :
    (m >>= f) os t = (t', .ok b) ↔
      ∃ t₁ a, m os t = (t₁, .ok a) ∧ f a os t₁ = (t', .ok b) := by
  show Trial.bind m f os t = _ ↔ _
  unfold Trial.bind
  cases h : m os t with
  | mk t₁ r =>
      cases r with
      | ok a =>
          constructor
          · intro hf
            exact ⟨t₁, a, rfl, hf⟩
          · rintro ⟨t₂, c, hm, hf⟩
            cases hm
            exact hf
      | error e =>
          constructor
          · intro hf
            cases hf
          · rintro ⟨t₂, c, hm, -⟩
            cases hm

theorem attempt_ok {a : A} {r : Except E (R a)} :
    (attempt a : Trial R E B _) os t = (t', .ok r) ↔
      os t a = r ∧ t' = t ++ [⟨a, (match r with | .ok _ => none | .error e => some e)⟩] := by
  unfold attempt
  cases h : os t a with
  | ok s =>
      constructor
      · intro hr
        cases hr
        exact ⟨rfl, rfl⟩
      · rintro ⟨rfl, rfl⟩
        rfl
  | error e =>
      constructor
      · intro hr
        cases hr
        exact ⟨rfl, rfl⟩
      · rintro ⟨rfl, rfl⟩
        rfl

theorem ask_ok {a : A} {report : E → B} {r : R a} :
    ask a report os t = (t', .ok r) ↔ os t a = .ok r ∧ t' = t ++ [⟨a, none⟩] := by
  unfold ask
  rw [bind_ok]
  constructor
  · rintro ⟨t₁, answer, hattempt, h⟩
    obtain ⟨hos, rfl⟩ := attempt_ok.mp hattempt
    cases answer with
    | ok s =>
        cases h
        exact ⟨hos, rfl⟩
    | error e => cases h
  · rintro ⟨hos, rfl⟩
    exact ⟨_, .ok r, attempt_ok.mpr ⟨hos, rfl⟩, rfl⟩

end Values

/-! ### Stages

A stage is a number, and a program of stages `lo` to `hi` asks nothing before the
one or after the other.  The order of a whole program is composed of the orders of
its parts, without a look at the answers, so it holds of every run, the failed ones
included.
-/

/--
In every run the questions come in the order of their stages, all between `lo` and
`hi`, whatever is answered and however the run ends.
-/
def Staged (stage : A → Nat) (lo hi : Nat) (m : Trial R E B α) : Prop :=
  ∀ os t, ∃ es, (m os t).1 = t ++ es ∧ (es.map fun e => stage e.act).Pairwise (· ≤ ·) ∧
    ∀ e ∈ es, lo ≤ stage e.act ∧ stage e.act ≤ hi

namespace Staged

variable {stage : A → Nat} {lo mid hi : Nat}

theorem pure (a : α) : Staged stage lo hi (Pure.pure a : Trial R E B α) :=
  fun _ t => ⟨[], (List.append_nil t).symm, .nil, fun _ h => absurd h List.not_mem_nil⟩

theorem fail (b : B) : Staged stage lo hi (fail b : Trial R E B α) :=
  fun _ t => ⟨[], (List.append_nil t).symm, .nil, fun _ h => absurd h List.not_mem_nil⟩

theorem weaken {lo' hi' : Nat} {m : Trial R E B α} (h : Staged stage lo hi m) (hlo : lo' ≤ lo)
    (hhi : hi ≤ hi') : Staged stage lo' hi' m := by
  intro os t
  obtain ⟨es, hes, hsorted, hin⟩ := h os t
  exact ⟨es, hes, hsorted, fun e he =>
    ⟨Nat.le_trans hlo (hin e he).1, Nat.le_trans (hin e he).2 hhi⟩⟩

/-- What comes later is asked at later stages. -/
theorem bind {m : Trial R E B α} {f : α → Trial R E B β} (hm : Staged stage lo mid m)
    (hf : ∀ a, Staged stage mid hi (f a)) (hlo : lo ≤ mid) (hhi : mid ≤ hi) :
    Staged stage lo hi (m >>= f) := by
  intro os t
  obtain ⟨es₁, hes₁, hsorted₁, hin₁⟩ := hm os t
  show ∃ es, (Trial.bind m f os t).1 = _ ∧ _
  unfold Trial.bind
  cases hrun : m os t with
  | mk t₁ r =>
      rw [hrun] at hes₁
      cases r with
      | error b =>
          exact ⟨es₁, hes₁, hsorted₁, fun e he => ⟨(hin₁ e he).1, Nat.le_trans (hin₁ e he).2 hhi⟩⟩
      | ok a =>
          obtain ⟨es₂, hes₂, hsorted₂, hin₂⟩ := hf a os t₁
          refine ⟨es₁ ++ es₂, ?_, ?_, fun e he => ?_⟩
          · show (f a os t₁).1 = _
            rw [hes₂, ← List.append_assoc]
            exact congrArg (· ++ es₂) hes₁
          · rw [List.map_append, List.pairwise_append]
            refine ⟨hsorted₁, hsorted₂, fun i hi j hj => ?_⟩
            obtain ⟨e₁, he₁, rfl⟩ := List.mem_map.mp hi
            obtain ⟨e₂, he₂, rfl⟩ := List.mem_map.mp hj
            exact Nat.le_trans (hin₁ e₁ he₁).2 (hin₂ e₂ he₂).1
          · rcases List.mem_append.mp he with he | he
            · exact ⟨(hin₁ e he).1, Nat.le_trans (hin₁ e he).2 hhi⟩
            · exact ⟨Nat.le_trans hlo (hin₂ e he).1, (hin₂ e he).2⟩

theorem attempt {a : A} (hlo : lo ≤ stage a) (hhi : stage a ≤ hi) :
    Staged stage lo hi (attempt a : Trial R E B _) := by
  intro os t
  unfold Trial.attempt
  cases os t a with
  | ok r =>
      exact ⟨_, rfl, List.pairwise_singleton _ _, fun e he => by
        rw [List.mem_singleton.mp he]
        exact ⟨hlo, hhi⟩⟩
  | error e =>
      exact ⟨_, rfl, List.pairwise_singleton _ _, fun e he => by
        rw [List.mem_singleton.mp he]
        exact ⟨hlo, hhi⟩⟩

theorem ask {a : A} {report : E → B} (hlo : lo ≤ stage a) (hhi : stage a ≤ hi) :
    Staged stage lo hi (ask a report : Trial R E B _) := by
  refine bind (attempt hlo hhi) (fun answer => ?_) (Nat.le_trans hlo hhi) (Nat.le_refl hi)
  cases answer with
  | ok r => exact pure r
  | error e => exact fail (report e)

/-- Programs of one stage, one after the other. -/
theorem both {m : Trial R E B α} {f : α → Trial R E B β} (hm : Staged stage lo lo m)
    (hf : ∀ a, Staged stage lo lo (f a)) : Staged stage lo lo (m >>= f) :=
  bind hm hf (Nat.le_refl lo) (Nat.le_refl lo)

end Staged

/-! ### What a program that ends with a value put up with

Some questions may fail without ending the program.  `Calm` says of which kind those
are, and like the stages it is composed from the parts.
-/

/-- The history goes on, and what fails in it is of that kind. -/
def Goes (ok : A → E → Prop) (t t' : List (Asked A E)) : Prop :=
  ∃ es, t' = t ++ es ∧ ∀ e ∈ es, ∀ err, e.error = some err → ok e.act err

namespace Goes

variable {ok : A → E → Prop} {t t' t'' : List (Asked A E)}

theorem refl (t : List (Asked A E)) : Goes ok t t :=
  ⟨[], (List.append_nil t).symm, fun _ h => absurd h List.not_mem_nil⟩

theorem trans (h₁ : Goes ok t t') (h₂ : Goes ok t' t'') : Goes ok t t'' := by
  obtain ⟨es₁, rfl, hok₁⟩ := h₁
  obtain ⟨es₂, rfl, hok₂⟩ := h₂
  refine ⟨es₁ ++ es₂, List.append_assoc t es₁ es₂, fun e he => ?_⟩
  rcases List.mem_append.mp he with he | he
  · exact hok₁ e he
  · exact hok₂ e he

/-- A history is never taken back. -/
theorem isPrefix (h : Goes ok t t') : t <+: t' := by
  obtain ⟨es, rfl, -⟩ := h
  exact List.prefix_append t es

theorem mem (h : Goes ok t t') {e : Asked A E} (he : e ∈ t) : e ∈ t' := h.isPrefix.subset he

/-- One more question. -/
theorem snoc {e : Asked A E} (h : ∀ err, e.error = some err → ok e.act err) : Goes ok t (t ++ [e]) :=
  ⟨[e], rfl, fun e' he => by
    rw [List.mem_singleton.mp he]
    exact h⟩

end Goes

/-- When the program ends with a value, only failures of that kind have happened. -/
def Calm (ok : A → E → Prop) (m : Trial R E B α) : Prop :=
  ∀ os t t' a, m os t = (t', .ok a) → Goes ok t t'

namespace Calm

variable {ok : A → E → Prop}

theorem pure (a : α) : Calm ok (Pure.pure a : Trial R E B α) := by
  intro os t t' b h
  rw [(pure_ok.mp h).1]
  exact .refl t

theorem fail (b : B) : Calm ok (fail b : Trial R E B α) := by
  intro os t t' a h
  cases h

theorem bind {m : Trial R E B α} {f : α → Trial R E B β} (hm : Calm ok m)
    (hf : ∀ a, Calm ok (f a)) : Calm ok (m >>= f) := by
  intro os t t' b h
  obtain ⟨t₁, a, hrun, h⟩ := bind_ok.mp h
  exact (hm os t t₁ a hrun).trans (hf a os t₁ t' b h)

/-- A question that has to be answered. -/
theorem ask (a : A) (report : E → B) : Calm ok (ask a report : Trial R E B _) := by
  intro os t t' r h
  rw [(ask_ok.mp h).2]
  exact .snoc (by rintro err ⟨⟩)

end Calm

end Trial
