/-
Reading from a stream that comes in pieces.

A read takes what the piece at hand has, so that what is asked for may come together from
several of them.  How the stream was cut does not show in what is read.
-/
import Mathlib.Data.List.Basic

namespace Chunks

variable {α : Type*}

/-- The pieces a stream comes in; an empty one would be its end. -/
structure Pieces (chunks : List (List α)) (stream : List α) : Prop where
  flatten : chunks.flatten = stream
  ne_nil : ∀ c ∈ chunks, c ≠ []

/-- Read exactly `n` items; `none` if the stream ends before. -/
def readExact : Nat → List (List α) → Option (List α × List (List α))
  | 0, chunks => some ([], chunks)
  | _ + 1, [] => none
  | n + 1, c :: chunks =>
      if c.isEmpty then none
      else if n + 1 < c.length then some (c.take (n + 1), c.drop (n + 1) :: chunks)
      else (readExact (n + 1 - c.length) chunks).map fun r => (c ++ r.1, r.2)

variable {chunks : List (List α)} {stream : List α}

theorem Pieces.head_ne {c : List α} (h : Pieces (c :: chunks) stream) : c.isEmpty = false := by
  simpa using h.ne_nil c List.mem_cons_self

theorem Pieces.tail {c : List α} (h : Pieces (c :: chunks) stream) :
    ∃ rest, stream = c ++ rest ∧ Pieces chunks rest :=
  ⟨chunks.flatten, by rw [← h.flatten, List.flatten_cons],
    rfl, fun d hd => h.ne_nil d (List.mem_cons_of_mem c hd)⟩

theorem Pieces.cons {c : List α} (h : Pieces chunks stream) (hne : c ≠ []) :
    Pieces (c :: chunks) (c ++ stream) :=
  ⟨by rw [List.flatten_cons, h.flatten], List.forall_mem_cons.mpr ⟨hne, h.ne_nil⟩⟩

/-- **What is read is the front of the stream**, and the rest of it comes in pieces again. -/
theorem readExact_append {front rest : List α} (h : Pieces chunks (front ++ rest)) :
    ∃ left, readExact front.length chunks = some (front, left) ∧ Pieces left rest := by
  induction chunks generalizing front with
  | nil =>
      obtain ⟨rfl, rfl⟩ := List.append_eq_nil_iff.mp h.flatten.symm
      exact ⟨[], rfl, rfl, by simp⟩
  | cons c chunks ih =>
      rcases front with _ | ⟨a, front⟩
      · exact ⟨c :: chunks, rfl, h⟩
      obtain ⟨tail, heq, htail⟩ := h.tail
      rw [List.length_cons, readExact, if_neg (by simp [h.head_ne])]
      rcases List.append_eq_append_iff.mp heq with ⟨t, hc, hrest⟩ | ⟨t, hfront, hrest⟩
      · -- The piece ends the read.
        subst hc hrest
        rcases t with _ | ⟨b, t⟩
        · rw [if_neg (by simp), List.append_nil, List.length_cons, Nat.sub_self]
          have hnone : readExact 0 chunks = some ([], chunks) := by
            unfold readExact
            rfl
          exact ⟨chunks, by rw [hnone, Option.map_some, List.append_nil], htail⟩
        · refine ⟨(b :: t) :: chunks, ?_, htail.cons (by simp)⟩
          rw [if_pos (by simp)]
          have hlen : front.length + 1 = (a :: front).length := rfl
          rw [hlen, List.take_left, List.drop_left]
      · have hpieces : Pieces chunks (t ++ rest) := hrest ▸ htail
        obtain ⟨left, hread, hleft⟩ := ih hpieces
        have hlen : front.length + 1 = c.length + t.length := by
          rw [← List.length_append, ← hfront, List.length_cons]
        refine ⟨left, ?_, hleft⟩
        rw [if_neg (by omega), hlen, Nat.add_sub_cancel_left, hread, Option.map_some, hfront]

/-- A stream that is too short fails the read. -/
theorem readExact_short {n : Nat} (h : Pieces chunks stream) (hn : stream.length < n) :
    readExact n chunks = none := by
  induction chunks generalizing n stream with
  | nil =>
      obtain ⟨n, rfl⟩ : ∃ m, n = m + 1 := ⟨n - 1, by omega⟩
      rfl
  | cons c chunks ih =>
      obtain ⟨n, rfl⟩ : ∃ m, n = m + 1 := ⟨n - 1, by omega⟩
      obtain ⟨rest, rfl, hrest⟩ := h.tail
      rw [List.length_append] at hn
      rw [readExact, if_neg (by simp [h.head_ne]), if_neg (by omega), ih hrest (by omega)]
      rfl

end Chunks
