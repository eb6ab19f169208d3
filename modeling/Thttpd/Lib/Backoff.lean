/-
An amount that is halved under pressure and doubled back, in whole numbers.

It starts at its limit, is halved in every round with pressure and doubled in every
other one, unless it has reached the limit.  If the limit is an odd number times a power
of two, halving is exact as many times as that power says; after that something is cut
off, and the limit is never met again.

The history that decides is not the number of rounds with pressure but how far they
are ahead of the others, where being ahead is counted from the last time the others
had caught up.  That is `depth`, and the amount is a function of it as long as
nothing has been cut off.
-/
import Mathlib.Algebra.Ring.Parity
import Mathlib.Data.List.Infix
import Mathlib.Tactic.Common
import Mathlib.Tactic.Ring

namespace Backoff

/--
One round: half of the amount under pressure, and otherwise twice as much of it,
unless it has reached the limit.
-/
def adjust (limit : Nat) (pressure : Bool) (a : Nat) : Nat :=
  if pressure then a / 2 else if a < limit then a * 2 else a

/-- The amount after some rounds. -/
def amount (limit : Nat) (rounds : List Bool) : Nat :=
  rounds.foldl (fun a pressure => adjust limit pressure a) limit

/--
How far the rounds with pressure are ahead, counted anew whenever the others have
caught up.
-/
def depth (rounds : List Bool) : Nat :=
  rounds.foldl (fun d pressure => if pressure then d + 1 else d - 1) 0

theorem amount_concat (limit : Nat) (rounds : List Bool) (pressure : Bool) :
    amount limit (rounds ++ [pressure]) = adjust limit pressure (amount limit rounds) := by
  simp [amount]

theorem depth_concat (rounds : List Bool) (pressure : Bool) :
    depth (rounds ++ [pressure]) = if pressure then depth rounds + 1 else depth rounds - 1 := by
  simp [depth]

/-- The rounds with pressure are never more than `k` ahead. -/
def Within (k : Nat) (rounds : List Bool) : Prop := ∀ l, l <+: rounds → depth l ≤ k

theorem within_concat {k : Nat} {rounds : List Bool} {pressure : Bool} :
    Within k (rounds ++ [pressure]) ↔ Within k rounds ∧ depth (rounds ++ [pressure]) ≤ k := by
  constructor
  · exact fun h => ⟨fun l hl => h l (hl.trans (List.prefix_append _ _)), h _ (List.prefix_refl _)⟩
  · rintro ⟨h, hlast⟩ l hl
    rcases List.prefix_concat_iff.mp hl with rfl | hl
    · exact hlast
    · exact h l hl

variable {limit m k : Nat}

/--
**As long as halving is exact, the amount is the limit halved as often as the rounds
with pressure are ahead.**
-/
theorem amount_mul_pow (hlimit : limit = m * 2 ^ k) (hpos : 0 < limit) {rounds : List Bool} :
    Within k rounds → amount limit rounds * 2 ^ depth rounds = limit := by
  induction rounds using List.reverseRecOn with
  | nil =>
      intro _
      simp [amount, depth]
  | append_singleton rounds pressure ih =>
      intro h
      obtain ⟨hrounds, hlast⟩ := within_concat.mp h
      have hexact := ih hrounds
      rw [depth_concat] at hlast ⊢
      rw [amount_concat]
      cases pressure with
      | true =>
          simp only [if_true] at hlast ⊢
          -- the power of two that is left makes the amount even
          obtain ⟨j, hj⟩ : ∃ j, k = depth rounds + 1 + j := ⟨k - (depth rounds + 1), by omega⟩
          have hamount : amount limit rounds = 2 * (m * 2 ^ j) := by
            have hsplit : limit = 2 * (m * 2 ^ j) * 2 ^ depth rounds := by
              rw [hlimit, hj]
              ring
            exact Nat.eq_of_mul_eq_mul_right (Nat.two_pow_pos _) (hexact.trans hsplit)
          unfold adjust
          rw [if_pos rfl, hamount, Nat.mul_div_cancel_left _ (by decide)]
          rw [hamount] at hexact
          rw [← hexact]
          ring
      | false =>
          simp only [Bool.false_eq_true, if_false]
          unfold adjust
          rw [if_neg Bool.false_ne_true]
          cases hd : depth rounds with
          | zero =>
              rw [hd] at hexact
              simp only [pow_zero, mul_one] at hexact
              rw [hexact, if_neg (Nat.lt_irrefl _)]
              simp
          | succ d =>
              rw [hd, pow_succ] at hexact
              have hlt : amount limit rounds < limit := by
                have hpow := Nat.two_pow_pos d
                have hamount : 0 < amount limit rounds := by
                  refine Nat.pos_of_ne_zero fun hzero => ?_
                  rw [hzero, Nat.zero_mul] at hexact
                  omega
                calc amount limit rounds < amount limit rounds * 2 := by omega
                  _ ≤ amount limit rounds * (2 ^ d * 2) := Nat.mul_le_mul_left _ (by omega)
                  _ = limit := hexact
              rw [if_pos hlt, Nat.add_sub_cancel]
              exact (show amount limit rounds * 2 * 2 ^ d = amount limit rounds * (2 ^ d * 2) by
                ring).trans hexact

/-- Rounds without pressure bring the amount back to the limit. -/
theorem amount_back (hlimit : limit = m * 2 ^ k) (hpos : 0 < limit) {rounds : List Bool}
    (h : Within k rounds) {n : Nat} (hn : depth rounds ≤ n) :
    amount limit (rounds ++ List.replicate n false) = limit := by
  have hback : ∀ n, Within k (rounds ++ List.replicate n false) ∧
      depth (rounds ++ List.replicate n false) = depth rounds - n := by
    intro n
    induction n with
    | zero => simpa using h
    | succ n ih =>
        rw [List.replicate_succ', ← List.append_assoc, within_concat, depth_concat]
        have hle := ih.1 _ (List.prefix_refl _)
        simp only [Bool.false_eq_true, if_false]
        exact ⟨⟨ih.1, by omega⟩, by omega⟩
  obtain ⟨hwithin, hdepth⟩ := hback n
  have hexact := amount_mul_pow hlimit hpos hwithin
  rw [hdepth, Nat.sub_eq_zero_of_le hn] at hexact
  simpa using hexact

/--
An amount from which doubling never meets the limit: a power of two times a number
below `m`, which stands for the odd part of the limit.
-/
def Lost (m a : Nat) : Prop := ∃ b i, b < m ∧ a = b * 2 ^ i

theorem Lost.adjust {a : Nat} (h : Lost m a) (pressure : Bool) : Lost m (adjust limit pressure a) := by
  obtain ⟨b, i, hb, rfl⟩ := h
  unfold Backoff.adjust
  cases pressure with
  | true =>
      rw [if_pos rfl]
      cases i with
      | zero => exact ⟨b / 2, 0, Nat.lt_of_le_of_lt (Nat.div_le_self _ _) hb, by simp⟩
      | succ i =>
          refine ⟨b, i, hb, ?_⟩
          rw [pow_succ, ← mul_assoc, Nat.mul_div_cancel _ (by decide)]
  | false =>
      rw [if_neg Bool.false_ne_true]
      split
      · exact ⟨b, i + 1, hb, by rw [pow_succ, mul_assoc]⟩
      · exact ⟨b, i, hb, rfl⟩

theorem Lost.ne_limit (hlimit : limit = m * 2 ^ k) (hodd : Odd m) {a : Nat} (h : Lost m a) :
    a ≠ limit := by
  obtain ⟨b, i, hb, rfl⟩ := h
  rw [hlimit]
  intro heq
  rcases Nat.le_total i k with hik | hik
  · obtain ⟨j, rfl⟩ := Nat.exists_eq_add_of_le hik
    rw [pow_add, mul_left_comm, mul_comm b] at heq
    have hbm := Nat.eq_of_mul_eq_mul_left (Nat.two_pow_pos i) heq
    have := Nat.le_mul_of_pos_right m (Nat.two_pow_pos j)
    omega
  · obtain ⟨j, rfl⟩ := Nat.exists_eq_add_of_le hik
    rw [pow_add, mul_left_comm, mul_comm m] at heq
    have hbm := Nat.eq_of_mul_eq_mul_left (Nat.two_pow_pos k) heq
    cases j with
    | zero => omega
    | succ j =>
        rw [pow_succ, ← mul_assoc] at hbm
        rw [← hbm] at hodd
        exact (Nat.not_odd_iff_even.mpr (even_two.mul_left _)) hodd

/-- **Once the rounds with pressure were too far ahead, the limit is lost.** -/
theorem lost_of_not_within (hlimit : limit = m * 2 ^ k) (hodd : Odd m) {rounds : List Bool} :
    ¬ Within k rounds → Lost m (amount limit rounds) := by
  have hm : 0 < m := by
    obtain ⟨r, rfl⟩ := hodd
    omega
  have hpos : 0 < limit := by
    rw [hlimit]
    exact Nat.mul_pos hm (Nat.two_pow_pos k)
  induction rounds using List.reverseRecOn with
  | nil =>
      intro h
      refine absurd (fun l hl => ?_) h
      rw [List.prefix_nil.mp hl]
      exact Nat.zero_le _
  | append_singleton rounds pressure ih =>
      intro h
      rw [amount_concat]
      by_cases hrounds : Within k rounds
      · have hlast : k < depth (rounds ++ [pressure]) := by
          by_contra hle
          exact h (within_concat.mpr ⟨hrounds, by omega⟩)
        have hle := hrounds rounds (List.prefix_refl _)
        rw [depth_concat] at hlast
        cases pressure with
        | false =>
            simp only [Bool.false_eq_true, if_false] at hlast
            omega
        | true =>
            simp only [if_true] at hlast
            have hdepth : depth rounds = k := by omega
            have hexact := amount_mul_pow hlimit hpos hrounds
            rw [hdepth] at hexact
            have hamount : amount limit rounds = m :=
              Nat.eq_of_mul_eq_mul_right (Nat.two_pow_pos k) (hexact.trans hlimit)
            unfold Backoff.adjust
            rw [if_pos rfl, hamount]
            exact ⟨m / 2, 0, by omega, by simp⟩
      · exact (ih hrounds).adjust pressure

end Backoff
