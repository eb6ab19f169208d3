/-
Loops that move an index over the bytes of a text.

Such a loop takes the text from the index on, which fails within a character, and a loop that
stays where it is never ends.  It is run for a number of turns here, so that one answer, `none`,
stands for both.  A loop whose turns follow a rule comes to its end and has made the pass of
the rule.
-/
import Thttpd.Lib.Rewrite
import Thttpd.Lib.Slice

namespace Text

open Rewrite

/-- `while i < bytes.len() && p(bytes[i]) { i += 1 }`. -/
def skipWhile (p : UInt8 → Bool) (bytes : Bytes) : Nat → Nat → Option Nat
  | 0, _ => none
  | fuel + 1, i => if bytes[i]?.any p then skipWhile p bytes fuel (i + 1) else some i

/-- `while i < len { .. }`, where a turn moves the index and adds to the result. -/
def walk (turn : Nat → Str → Option (Nat × Str)) (len : Nat) : Nat → Nat → Str → Option Str
  | 0, _, _ => none
  | fuel + 1, i, out =>
      if i < len then (turn i out).bind fun r => walk turn len fuel r.1 r.2 else some out

/-- A turn that copies the first character of what is left. -/
def copyChar (rest : Str) (i : Nat) (out : Str) : Option (Nat × Str) :=
  rest.head?.map fun c => (i + c.utf8Size, out ++ [c])

/-! ### The inner loop -/

theorem skipWhile_eq (p : UInt8 → Bool) (a b : Bytes) {fuel : Nat} (h : b.length < fuel) :
    skipWhile p (a ++ b) fuel a.length = some (a.length + (b.takeWhile p).length) := by
  induction b generalizing a fuel with
  | nil =>
      obtain ⟨n, rfl⟩ : ∃ n, fuel = n + 1 := ⟨fuel - 1, by omega⟩
      rw [skipWhile, List.getElem?_append_right le_rfl]
      simp
  | cons x b ih =>
      obtain ⟨n, rfl⟩ : ∃ n, fuel = n + 1 := ⟨fuel - 1, by omega⟩
      rw [List.length_cons] at h
      rw [skipWhile, List.getElem?_append_right le_rfl, Nat.sub_self, List.getElem?_cons_zero,
        Option.any_some]
      by_cases hx : p x = true
      · have hlt : b.length < n := by omega
        have hnext := ih (a ++ [x]) hlt
        rw [List.append_assoc, List.singleton_append, List.length_append, List.length_singleton] at hnext
        rw [if_pos hx, hnext, List.takeWhile_cons_of_pos hx, List.length_cons, Nat.add_assoc,
          Nat.add_comm 1]
      · rw [if_neg hx, List.takeWhile_cons_of_neg hx]
        rfl

/-- A class that is the same for all characters beyond ASCII can be told by each byte. -/
theorem SameClass.ofByteChar {Q : Char → Bool} {v : Bool} (h : ∀ c : Char, 0x80 ≤ c.toNat → Q c = v) :
    SameClass (fun b => Q (byteChar b)) Q := by
  refine ⟨fun c hc => ?_, v, fun b hb => h _ (by rwa [byteChar_toNat]), h⟩
  have hchar : byteChar (UInt8.ofNat c.toNat) = c := by
    apply Char.toNat_inj.mp
    rw [byteChar_toNat, UInt8.toNat_ofNat', Nat.mod_eq_of_lt (by omega)]
  rw [hchar]

/-- The loop behind a head comes to the end of the run that follows it. -/
theorem skipWhile_run {P : UInt8 → Bool} {Q : Char → Bool} (h : SameClass P Q) (a head t : Str)
    {fuel : Nat} (hfuel : (asBytes (a ++ (head ++ t))).length < fuel) :
    skipWhile P (asBytes (a ++ (head ++ t))) fuel ((asBytes a).length + byteLen head) =
      some (asBytes (a ++ head ++ t.takeWhile Q)).length := by
  rw [← List.append_assoc] at hfuel ⊢
  rw [asBytes_append, List.length_append] at hfuel
  rw [byteLen_eq, ← List.length_append, ← asBytes_append, asBytes_append (a ++ head),
    skipWhile_eq P _ _ (by omega), h.takeWhile, asBytes_append (a ++ head), List.length_append]

/-! ### The outer loop -/

section

variable {m : Rule Char} {value : Str} {turn : Nat → Str → Option (Nat × Str)}

/-- At every place in the text a turn does what the rule says there. -/
def Follows (m : Rule Char) (value : Str) (turn : Nat → Str → Option (Nat × Str)) : Prop :=
  ∀ ⦃a c s⦄, value = a ++ c :: s → ∃ b new rest, value = b ++ rest ∧
    (∀ out, turn (asBytes a).length out = some ((asBytes b).length, out ++ new)) ∧
    (m (c :: s) = some (new, rest) ∨ m (c :: s) = none ∧ new = [c] ∧ rest = s)

theorem copyChar_cons (a : Str) (c : Char) (s out : Str) :
    copyChar (c :: s) (asBytes a).length out = some ((asBytes (a ++ [c])).length, out ++ [c]) := by
  rw [copyChar, List.head?_cons, Option.map_some, asBytes_append, List.length_append,
    asBytes_length_cons]
  rfl

/--
**A loop whose turns follow a rule makes the pass of the rule**, in no more turns
than the text has characters.
-/
theorem walk_eq (hp : Proper m) (h : Follows m value turn) {a s : Str} (hvalue : value = a ++ s)
    {fuel : Nat} (hfuel : s.length < fuel) (out : Str) :
    walk turn (byteLen value) fuel (asBytes a).length out = some (out ++ run m s) := by
  have hplace : ∀ {a s}, value = a ++ s → byteLen value = (asBytes a).length + (asBytes s).length := by
    intro a s hs
    rw [byteLen_eq, hs, asBytes_append, List.length_append]
  induction fuel generalizing a s out with
  | zero => omega
  | succ fuel ih =>
      rw [walk]
      cases s with
      | nil =>
          have hend : byteLen value = (asBytes a).length := hplace hvalue
          rw [if_neg (by omega), run_nil, List.append_nil]
      | cons c s =>
          obtain ⟨b, new, rest, hb, hturn, hrule⟩ := h hvalue
          have hmore : (asBytes a).length < byteLen value := by
            rw [hplace hvalue, asBytes_length_cons]
            have := c.utf8Size_pos
            omega
          have hrest : rest.length ≤ s.length ∧ run m (c :: s) = new ++ run m rest := by
            rcases hrule with hsome | ⟨hnone, rfl, rfl⟩
            · exact ⟨(hp hsome).length_le, run_of_some hp hsome⟩
            · exact ⟨le_rfl, run_of_none hnone⟩
          rw [List.length_cons] at hfuel
          rw [if_pos hmore, hturn, hrest.2, ← List.append_assoc]
          exact ih hb (by omega) (out ++ new)

end

end Text
