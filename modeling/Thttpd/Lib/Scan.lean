/-
Scanners that are called again when more has arrived.

A scanner looks at a buffer from an index on, in a state, and says what it found,
where it stopped and in which state.  A driver calls it each time the buffer has
grown, with the index and the state of the call before, until it no longer asks for
more.  `Resumes` says that a call can be broken off and taken up again, and then the
calls together say what one call on the whole buffer says.
-/
import Mathlib.Data.List.Basic
import Mathlib.Tactic.Common

namespace Scan

variable {β σ τ ρ : Type*}

/-- From a buffer, an index and a state to a verdict, an index and a state. -/
abbrev Scanner (β σ ρ : Type*) := List β → Nat → σ → ρ × Nat × σ

/--
The calls on a buffer that grows chunk by chunk, up to the first one that does not
ask for more.
-/
def feed (scan : Scanner β σ ρ) (more : ρ → Bool) :
    List β → Nat → σ → List (List β) → List (ρ × Nat × σ)
  | _, _, _, [] => []
  | buf, idx, s, chunk :: chunks =>
      let r := scan (buf ++ chunk) idx s
      if more r.1 then r :: feed scan more (buf ++ chunk) r.2.1 r.2.2 chunks else [r]

/--
A scanner that asks for more can go on where it stopped, and one that does not has
seen all it will look at.
-/
structure Resumes (scan : Scanner β σ ρ) (more : ρ → Bool) : Prop where
  goesOn : ∀ {buf : List β} {idx : Nat} {s : σ}, idx ≤ buf.length →
    more (scan buf idx s).1 = true → ∀ rest,
      scan (buf ++ rest) (scan buf idx s).2.1 (scan buf idx s).2.2 = scan (buf ++ rest) idx s
  stops : ∀ {buf : List β} {idx : Nat} {s : σ}, idx ≤ buf.length →
    more (scan buf idx s).1 = false → ∀ rest, scan (buf ++ rest) idx s = scan buf idx s

section Resuming

variable {scan : Scanner β σ ρ} {more : ρ → Bool}

/--
**The last call says what one call on the whole buffer says**, after a first call
that asked for more.
-/
theorem Resumes.feed_last (h : Resumes scan more) {idx : Nat} {s : σ} :
    ∀ (chunks : List (List β)) (buf : List β), idx ≤ buf.length →
      more (scan buf idx s).1 = true →
      (feed scan more buf (scan buf idx s).2.1 (scan buf idx s).2.2 chunks).getLastD
        (scan buf idx s) = scan (buf ++ chunks.flatten) idx s := by
  intro chunks
  induction chunks with
  | nil =>
      intro buf _ _
      rw [List.flatten_nil, List.append_nil]
      rfl
  | cons chunk chunks ih =>
      intro buf hidx hmore
      have hlen : idx ≤ (buf ++ chunk).length := by
        rw [List.length_append]
        omega
      rw [feed, h.goesOn hidx hmore, List.flatten_cons, ← List.append_assoc]
      cases hm : more (scan (buf ++ chunk) idx s).1 with
      | true =>
          rw [if_pos rfl, List.getLastD_cons]
          exact ih (buf ++ chunk) hlen hm
      | false => exact (h.stops hlen hm chunks.flatten).symm

/--
When one call on the whole buffer asks for more, so does every call on the way, and
there is one for each chunk.
-/
theorem Resumes.feed_more (h : Resumes scan more) {idx : Nat} {s : σ} :
    ∀ (chunks : List (List β)) (buf : List β), idx ≤ buf.length →
      more (scan buf idx s).1 = true →
      more (scan (buf ++ chunks.flatten) idx s).1 = true →
      (feed scan more buf (scan buf idx s).2.1 (scan buf idx s).2.2 chunks).length
          = chunks.length ∧
        ∀ r ∈ feed scan more buf (scan buf idx s).2.1 (scan buf idx s).2.2 chunks,
          more r.1 = true := by
  intro chunks
  induction chunks with
  | nil => intro buf _ _ _; simp [feed]
  | cons chunk chunks ih =>
      intro buf hidx hmore hwhole
      have hlen : idx ≤ (buf ++ chunk).length := by
        rw [List.length_append]
        omega
      rw [List.flatten_cons, ← List.append_assoc] at hwhole
      rw [feed, h.goesOn hidx hmore]
      cases hm : more (scan (buf ++ chunk) idx s).1 with
      | true =>
          obtain ⟨hcount, hall⟩ := ih (buf ++ chunk) hlen hm hwhole
          refine ⟨congrArg (· + 1) hcount, ?_⟩
          intro r hr
          rcases List.mem_cons.mp hr with rfl | hr
          · exact hm
          · exact hall r hr
      | false =>
          rw [h.stops hlen hm, hm] at hwhole
          cases hwhole

end Resuming

/-- **Two scanners that agree call by call agree over every way the buffer may grow.** -/
theorem feed_forall₂ {scan₁ : Scanner β σ ρ} {scan₂ : Scanner β τ ρ} {more : ρ → Bool}
    {Agree : ρ × Nat × σ → ρ × Nat × τ → Prop} (Rel : Nat × σ → Nat × τ → Prop)
    (hcall : ∀ buf i s j t, Rel (i, s) (j, t) → Agree (scan₁ buf i s) (scan₂ buf j t))
    (hverdict : ∀ {r₁ r₂}, Agree r₁ r₂ → r₁.1 = r₂.1)
    (hrel : ∀ {r₁ r₂}, Agree r₁ r₂ → more r₁.1 = true → Rel r₁.2 r₂.2) :
    ∀ (chunks : List (List β)) (buf : List β) (i : Nat) (s : σ) (j : Nat) (t : τ),
      Rel (i, s) (j, t) →
      List.Forall₂ Agree (feed scan₁ more buf i s chunks) (feed scan₂ more buf j t chunks) := by
  intro chunks
  induction chunks with
  | nil => intro buf i s j t _; exact .nil
  | cons chunk chunks ih =>
      intro buf i s j t hst
      have hagree := hcall (buf ++ chunk) i s j t hst
      rw [feed, feed, ← hverdict hagree]
      cases hm : more (scan₁ (buf ++ chunk) i s).1 with
      | true => exact .cons hagree (ih _ _ _ _ _ (hrel hagree hm))
      | false => exact .cons hagree .nil

end Scan
