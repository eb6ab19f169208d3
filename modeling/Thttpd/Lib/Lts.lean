/-
Runs of a transition system, and the invariant rule.

A system is a set of initial states and a step relation.  A run whose steps all
meet a condition is a run of the system restricted to those steps, so one rule
serves both.
-/
import Mathlib.Logic.Relation

namespace Lts

variable {σ : Type*}

/-- The states a run from an initial one can be in. -/
def Reachable (init : σ → Prop) (step : σ → σ → Prop) (s : σ) : Prop :=
  ∃ s₀, init s₀ ∧ Relation.ReflTransGen step s₀ s

variable {init : σ → Prop} {step : σ → σ → Prop}

/-- **What holds at the start and survives every step holds throughout.** -/
theorem Reachable.invariant (Inv : σ → Prop) {s : σ} (h : Reachable init step s)
    (hinit : ∀ s, init s → Inv s) (hstep : ∀ s t, Inv s → step s t → Inv t) : Inv s := by
  obtain ⟨s₀, h₀, hrun⟩ := h
  induction hrun with
  | refl => exact hinit s₀ h₀
  | tail _ ht ih => exact hstep _ _ ih ht

/-- One more step. -/
theorem Reachable.tail {s t : σ} (h : Reachable init step s) (ht : step s t) :
    Reachable init step t := by
  obtain ⟨s₀, h₀, hrun⟩ := h
  exact ⟨s₀, h₀, hrun.tail ht⟩

theorem Reachable.start {s : σ} (h : init s) : Reachable init step s :=
  ⟨s, h, .refl⟩

/-- A run of a system with fewer steps is a run. -/
theorem Reachable.mono {step' : σ → σ → Prop} {s : σ} (h : Reachable init step s)
    (hstep : ∀ s t, step s t → step' s t) : Reachable init step' s := by
  obtain ⟨s₀, h₀, hrun⟩ := h
  exact ⟨s₀, h₀, Relation.ReflTransGen.mono hstep _ _ hrun⟩

/-! ### Ghosts

A ghost is a part of the state that the steps carry along and do not look at. -/

section

variable {γ : Type*} {ginit : σ × γ → Prop} {gstep : σ × γ → σ × γ → Prop}

/-- Without its ghost, a run is a run. -/
theorem Reachable.forget {p : σ × γ} (hinit : ∀ p, ginit p → init p.1)
    (hstep : ∀ p q, gstep p q → step p.1 q.1) (h : Reachable ginit gstep p) :
    Reachable init step p.1 := by
  refine Reachable.invariant (fun p : σ × γ => Reachable init step p.1) h ?_ ?_
  · intro p hp
    exact .start (hinit p hp)
  · intro p q hp hpq
    exact hp.tail (hstep p q hpq)

/-- A run has a ghost when the ghost can follow each step of it, from wherever it can be. -/
theorem Reachable.remember {s : σ} (hinit : ∀ s, init s → ∃ g, ginit (s, g))
    (hstep : ∀ s s' g, Reachable ginit gstep (s, g) → step s s' → ∃ g', gstep (s, g) (s', g'))
    (h : Reachable init step s) : ∃ g, Reachable ginit gstep (s, g) := by
  refine Reachable.invariant (fun s => ∃ g, Reachable ginit gstep (s, g)) h ?_ ?_
  · intro s hs
    obtain ⟨g, hg⟩ := hinit s hs
    exact ⟨g, .start hg⟩
  · rintro s s' ⟨g, hg⟩ hss'
    obtain ⟨g', hg'⟩ := hstep s s' g hg hss'
    exact ⟨g', hg.tail hg'⟩

end

end Lts
