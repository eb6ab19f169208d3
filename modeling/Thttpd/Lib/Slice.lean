/-
Text that is cut at a byte.

A place in a text is a number of bytes.  The text can be cut there if no character lies
across it, which its bytes tell, and a cut anywhere else fails.

What a program asks with `is_char_boundary` or risks with a slice is thereby a
question about how the text is put together: a text cut at a place is two texts, and
a place where it can be cut is the length of a part in front.
-/
import Thttpd.Lib.Utf8

namespace Text

/-- `str::is_char_boundary`. -/
def isCharBoundary (s : Str) (i : Nat) : Bool :=
  i == 0 || ((asBytes s)[i]?.map fun b => !isCont b).getD (i == (asBytes s).length)

/-- `&s[..i]`, which panics within a character. -/
def strTo (s : Str) (i : Nat) : Option Str :=
  if isCharBoundary s i then fromUtf8 ((asBytes s).take i) else none

/-- `&s[i..]`. -/
def strFrom (s : Str) (i : Nat) : Option Str :=
  if isCharBoundary s i then fromUtf8 ((asBytes s).drop i) else none

/-! ### Where a text can be cut

The place is looked up in the bytes: it is the beginning of a character when the
byte there is no continuation byte, or when it is the end.
-/

/-- The bytes of a character but the first continue it. -/
theorem utf8EncodeChar_cont (c : Char) :
    ∃ b bs, String.utf8EncodeChar c = b :: bs ∧ isCont b = false ∧ ∀ x ∈ bs, isCont x = true := by
  have hbyte : ∀ {n : Nat}, n < 256 → (UInt8.ofNat n).toNat = n := by
    intro n hn
    rw [UInt8.toNat_ofNat', Nat.mod_eq_of_lt hn]
  have hfirst : ∀ {n : Nat}, n < 256 → (n < 0x80 ∨ 0xBF < n) → isCont (UInt8.ofNat n) = false := by
    intro n hn hout
    rw [Bool.eq_false_iff, Ne, isCont_iff, hbyte hn]
    omega
  have hrest : ∀ (l : List Nat), ∀ x ∈ l.map (fun n => UInt8.ofNat (n % 64 + 128)), isCont x = true := by
    intro l x hx
    obtain ⟨n, -, rfl⟩ := List.mem_map.mp hx
    rw [isCont_iff, hbyte (by omega)]
    omega
  have hvalid : c.val.toNat < 0x110000 := by
    rcases c.valid with hlow | ⟨-, hhigh⟩
    · have : c.val.toNat < 0xD800 := hlow
      omega
    · exact hhigh
  unfold String.utf8EncodeChar
  simp only
  generalize c.val.toNat = v at *
  split
  · exact ⟨_, [], rfl, hfirst (by omega) (by omega), hrest []⟩
  split
  · exact ⟨_, [_], rfl, hfirst (by omega) (by omega), hrest [v]⟩
  split
  · exact ⟨_, [_, _], rfl, hfirst (by omega) (by omega), hrest [v / 64, v]⟩
  · exact ⟨_, [_, _, _], rfl, hfirst (by omega) (by omega), hrest [v / 4096, v / 64, v]⟩

theorem asBytes_length_cons (c : Char) (s : Str) :
    (asBytes (c :: s)).length = c.utf8Size + (asBytes s).length := by
  rw [asBytes_cons, List.length_append, String.length_utf8EncodeChar]

/-- The length in bytes is what it says. -/
theorem byteLen_eq (s : Str) : byteLen s = (asBytes s).length := by
  have hacc : ∀ (s : Str) (n : Nat), s.foldl (fun n c => n + c.utf8Size) n = n + (asBytes s).length := by
    intro s
    induction s with
    | nil => exact fun n => rfl
    | cons c s ih =>
        intro n
        rw [List.foldl_cons, ih, asBytes_length_cons, Nat.add_assoc]
  rw [byteLen, hacc, Nat.zero_add]

theorem length_le_byteLen (s : Str) : s.length ≤ byteLen s := by
  rw [byteLen_eq]
  induction s with
  | nil => exact Nat.zero_le _
  | cons c s ih =>
      have := c.utf8Size_pos
      rw [asBytes_length_cons, List.length_cons]
      omega

theorem isCharBoundary_zero (s : Str) : isCharBoundary s 0 = true := rfl

/-- The places behind a character are those of the text behind it. -/
theorem isCharBoundary_cons (c : Char) (s : Str) (i : Nat) :
    isCharBoundary (c :: s) (c.utf8Size + i) = isCharBoundary s i := by
  have hpos := c.utf8Size_pos
  obtain ⟨b, bs, henc, hb, -⟩ := utf8EncodeChar_cont c
  have hget : (asBytes (c :: s))[c.utf8Size + i]? = (asBytes s)[i]? := by
    rw [asBytes_cons, ← String.length_utf8EncodeChar, List.getElem?_append_right (by omega),
      Nat.add_sub_cancel_left]
  have hend : (c.utf8Size + i == (asBytes (c :: s)).length) = (i == (asBytes s).length) := by
    rw [asBytes_length_cons, Bool.eq_iff_iff, beq_iff_eq, beq_iff_eq]
    omega
  have hne : (c.utf8Size + i == 0) = false := by
    rw [beq_eq_false_iff_ne]
    omega
  rw [isCharBoundary, hget, hend, hne, Bool.false_or, isCharBoundary]
  rcases Nat.eq_zero_or_pos i with rfl | hi
  · -- The text behind the character begins with a first byte, or is at its end.
    cases s with
    | nil => rfl
    | cons d s =>
        obtain ⟨b, bs, henc, hb, -⟩ := utf8EncodeChar_cont d
        rw [asBytes_cons, henc]
        simp [hb]
  · have hi0 : (i == 0) = false := by
      rw [beq_eq_false_iff_ne]
      omega
    rw [hi0, Bool.false_or]

/-- Within a character there is no place to cut. -/
theorem isCharBoundary_within {c : Char} (s : Str) {i : Nat} (hpos : 0 < i) (hlt : i < c.utf8Size) :
    isCharBoundary (c :: s) i = false := by
  obtain ⟨b, bs, henc, -, hbs⟩ := utf8EncodeChar_cont c
  have hlen := String.length_utf8EncodeChar c
  rw [henc, List.length_cons] at hlen
  obtain ⟨j, rfl⟩ : ∃ j, i = j + 1 := ⟨i - 1, by omega⟩
  have hj : j < bs.length := by omega
  have hget : (asBytes (c :: s))[j + 1]? = some bs[j] := by
    rw [asBytes_cons, henc, List.cons_append, List.getElem?_cons_succ, List.getElem?_append_left hj,
      List.getElem?_eq_getElem hj]
  rw [isCharBoundary, hget]
  simp [hbs _ (List.getElem_mem hj)]

/-- **A text can be cut where one of its parts ends**, and nowhere else. -/
theorem isCharBoundary_iff {s : Str} {i : Nat} :
    isCharBoundary s i = true ↔ ∃ a b, s = a ++ b ∧ (asBytes a).length = i := by
  induction s generalizing i with
  | nil =>
      cases i with
      | zero => exact ⟨fun _ => ⟨[], [], rfl, rfl⟩, fun _ => rfl⟩
      | succ i =>
          refine ⟨fun h => (by cases h), ?_⟩
          rintro ⟨a, b, hnil, hlen⟩
          rw [(List.append_eq_nil_iff.mp hnil.symm).1] at hlen
          cases hlen
  | cons c s ih =>
      rcases Nat.eq_zero_or_pos i with rfl | hpos
      · exact ⟨fun _ => ⟨[], c :: s, rfl, rfl⟩, fun _ => isCharBoundary_zero _⟩
      rcases Nat.lt_or_ge i c.utf8Size with hlt | hge
      · rw [isCharBoundary_within s hpos hlt]
        refine ⟨fun h => (by cases h), ?_⟩
        rintro ⟨a, b, hs, hlen⟩
        cases a with
        | nil =>
            rw [← hlen] at hpos
            cases hpos
        | cons d a =>
            obtain ⟨rfl, -⟩ := List.cons.inj hs
            rw [asBytes_length_cons] at hlen
            omega
      · obtain ⟨j, rfl⟩ : ∃ j, i = c.utf8Size + j := ⟨i - c.utf8Size, by omega⟩
        rw [isCharBoundary_cons, ih]
        constructor
        · rintro ⟨a, b, rfl, rfl⟩
          exact ⟨c :: a, b, rfl, asBytes_length_cons c a⟩
        · rintro ⟨a, b, hs, hlen⟩
          cases a with
          | nil =>
              rw [← hlen] at hpos
              cases hpos
          | cons d a =>
              obtain ⟨rfl, rfl⟩ := List.cons.inj hs
              rw [asBytes_length_cons] at hlen
              exact ⟨a, b, rfl, by omega⟩

/-- The end of a part is one. -/
theorem isCharBoundary_append (a b : Str) : isCharBoundary (a ++ b) (asBytes a).length = true :=
  isCharBoundary_iff.mpr ⟨a, b, rfl, rfl⟩

/-- Up to there the text is the part. -/
theorem strTo_append (a b : Str) : strTo (a ++ b) (asBytes a).length = some a := by
  rw [strTo, if_pos (isCharBoundary_append a b), asBytes_append, List.take_left, fromUtf8_asBytes]

/-- And from there it is the rest. -/
theorem strFrom_append (a b : Str) : strFrom (a ++ b) (asBytes a).length = some b := by
  rw [strFrom, if_pos (isCharBoundary_append a b), asBytes_append, List.drop_left, fromUtf8_asBytes]

/-! ### The characters within a number of bytes

`takeBytes n` is what a program gets that goes back to the last boundary within `n`
bytes.
-/

/-- They are a part in front of the text. -/
theorem prefix_takeBytes (n : Nat) (s : Str) : takeBytes n s <+: s := by
  induction s generalizing n with
  | nil => exact List.nil_prefix
  | cons c s ih =>
      rw [takeBytes]
      split
      · obtain ⟨t, ht⟩ := ih (n - c.utf8Size)
        exact ⟨t, by rw [List.cons_append, ht]⟩
      · exact List.nil_prefix

/-- They are within the number of bytes. -/
theorem takeBytes_length_le (n : Nat) (s : Str) : (asBytes (takeBytes n s)).length ≤ n := by
  induction s generalizing n with
  | nil => exact Nat.zero_le n
  | cons c s ih =>
      rw [takeBytes]
      split
      · have := ih (n - c.utf8Size)
        rw [asBytes_length_cons]
        omega
      · exact Nat.zero_le n

/-- They reach as far as any part that ends there. -/
theorem takeBytes_longest {a b : Str} {n : Nat} (h : (asBytes a).length ≤ n) :
    (asBytes a).length ≤ (asBytes (takeBytes n (a ++ b))).length := by
  induction a generalizing n with
  | nil => exact Nat.zero_le _
  | cons c a ih =>
      rw [asBytes_length_cons] at h ⊢
      rw [List.cons_append, takeBytes, if_pos (by omega), asBytes_length_cons]
      have := ih (n := n - c.utf8Size) (by omega)
      omega

theorem takeBytes_eq_self {n : Nat} {s : Str} (h : (asBytes s).length ≤ n) : takeBytes n s = s := by
  induction s generalizing n with
  | nil => rfl
  | cons c s ih =>
      rw [asBytes_length_cons] at h
      rw [takeBytes, if_pos (by omega), ih (by omega)]

end Text
