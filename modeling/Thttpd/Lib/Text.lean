/-
Text and bytes.

A Rust `String` is a list of characters here and a `Vec<u8>` a list of bytes, so a
string is valid text by construction and a byte offset only matters where the
program counts bytes.  What follows is the part of the standard string library a
server of text protocols leans on: encoding and lossy decoding, splitting at a
character, trimming, line iteration, integer parsing and substring search, each
with the behaviour its documentation gives.

Everything is structurally recursive, so a concrete run can be evaluated.
-/
import Mathlib.Data.List.Basic
import Mathlib.Data.List.DropRight
import Mathlib.Tactic.Common

namespace Text

/-- A string, character by character. -/
abbrev Str := List Char

/-- A byte buffer. -/
abbrev Bytes := List UInt8

/-! ### Encoding

Encoding is that of the core library.  Decoding is the lossy one: every ill-formed
sequence becomes one replacement character, and what belongs to the sequence is
decided byte by byte, as the standard prescribes.
-/

/-- The UTF-8 bytes of a string. -/
def asBytes (s : Str) : Bytes := s.flatMap String.utf8EncodeChar

/-- The length of a string in bytes, which is what `len()` counts. -/
def byteLen (s : Str) : Nat := s.foldl (fun n c => n + c.utf8Size) 0

/-- The character an undecodable byte sequence becomes. -/
def replacement : Char := Char.ofNat 0xFFFD

/-- A continuation byte. -/
def isCont (b : UInt8) : Bool := 0x80 ≤ b && b ≤ 0xBF

/-- The second byte of a three-byte sequence, which depends on the first. -/
def second3 (b c : UInt8) : Bool :=
  if b == 0xE0 then 0xA0 ≤ c && c ≤ 0xBF
  else if b == 0xED then 0x80 ≤ c && c ≤ 0x9F
  else isCont c

/-- The second byte of a four-byte sequence. -/
def second4 (b c : UInt8) : Bool :=
  if b == 0xF0 then 0x90 ≤ c && c ≤ 0xBF
  else if b == 0xF4 then 0x80 ≤ c && c ≤ 0x8F
  else isCont c

/-- The six payload bits of a continuation byte. -/
def low6 (b : UInt8) : Nat := b.toNat % 64

/--
The character at the head of `b :: rest` and how many bytes of `rest` belong to it.
An ill-formed sequence is one replacement character and gives back the bytes it
did not accept.
-/
def decodeChar (b : UInt8) (rest : Bytes) : Char × Nat :=
  if b < 0x80 then (Char.ofNat b.toNat, 0)
  else if 0xC2 ≤ b && b ≤ 0xDF then
    match rest with
    | c :: _ =>
        if isCont c then (Char.ofNat ((b.toNat % 32) * 64 + low6 c), 1) else (replacement, 0)
    | [] => (replacement, 0)
  else if 0xE0 ≤ b && b ≤ 0xEF then
    match rest with
    | c :: d :: _ =>
        if !second3 b c then (replacement, 0)
        else if !isCont d then (replacement, 1)
        else (Char.ofNat ((b.toNat % 16) * 4096 + low6 c * 64 + low6 d), 2)
    | [c] => (replacement, if second3 b c then 1 else 0)
    | [] => (replacement, 0)
  else if 0xF0 ≤ b && b ≤ 0xF4 then
    match rest with
    | c :: d :: e :: _ =>
        if !second4 b c then (replacement, 0)
        else if !isCont d then (replacement, 1)
        else if !isCont e then (replacement, 2)
        else (Char.ofNat ((b.toNat % 8) * 262144 + low6 c * 4096 + low6 d * 64 + low6 e), 3)
    | [c, d] => (replacement, if !second4 b c then 0 else if isCont d then 2 else 1)
    | [c] => (replacement, if second4 b c then 1 else 0)
    | [] => (replacement, 0)
  else (replacement, 0)

private def decodeFrom : Nat → Bytes → Str
  | _, [] => []
  | k + 1, _ :: bs => decodeFrom k bs
  | 0, b :: bs => (decodeChar b bs).1 :: decodeFrom (decodeChar b bs).2 bs

/-- Decode UTF-8, one replacement character for each ill-formed sequence. -/
def fromUtf8Lossy (bs : Bytes) : Str := decodeFrom 0 bs

theorem fromUtf8Lossy_nil : fromUtf8Lossy [] = [] := rfl

/-! An ASCII byte belongs to no longer sequence, so text can be cut there before or after
it is decoded. -/

theorem not_isCont_of_ascii {c : UInt8} (hc : c < 0x80) : isCont c = false := by
  have : ¬ (0x80 : UInt8) ≤ c := by simpa using hc
  simp [isCont, this]

theorem not_second3_of_ascii {c : UInt8} (hc : c < 0x80) (b : UInt8) : second3 b c = false := by
  have hlow : ¬ (0x80 : UInt8) ≤ c := by simpa using hc
  have hmid : ¬ (0xA0 : UInt8) ≤ c := fun h => hlow (UInt8.le_trans (by decide) h)
  simp [second3, not_isCont_of_ascii hc, hlow, hmid]

theorem not_second4_of_ascii {c : UInt8} (hc : c < 0x80) (b : UInt8) : second4 b c = false := by
  have hlow : ¬ (0x80 : UInt8) ≤ c := by simpa using hc
  have hmid : ¬ (0x90 : UInt8) ≤ c := fun h => hlow (UInt8.le_trans (by decide) h)
  simp [second4, not_isCont_of_ascii hc, hlow, hmid]

/-- A character ends before an ASCII byte. -/
theorem decodeChar_append {c : UInt8} (hc : c < 0x80) (b : UInt8) (xs ys : Bytes) :
    decodeChar b (xs ++ c :: ys) = decodeChar b xs := by
  have h1 := not_isCont_of_ascii hc
  have h3 := not_second3_of_ascii hc b
  have h4 := not_second4_of_ascii hc b
  unfold decodeChar
  match xs with
  | [] =>
      match ys with
      | [] => simp [h1, h3, h4]
      | [y] => simp [h1, h3, h4]
      | y :: z :: ys => simp [h1, h3, h4]
  | [x] =>
      match ys with
      | [] => cases hs : second3 b x <;> cases ht : second4 b x <;> simp [h1, hs, ht]
      | y :: ys => cases hs : second3 b x <;> cases ht : second4 b x <;> simp [h1, hs, ht]
  | [x, y] => cases ht : second4 b x <;> cases hy : isCont y <;> simp [h1, ht, hy]
  | x :: y :: z :: xs => simp

/-- A character takes no more bytes than there are. -/
theorem decodeChar_le (b : UInt8) (xs : Bytes) : (decodeChar b xs).2 ≤ xs.length := by
  unfold decodeChar
  repeat' split
  all_goals simp

private theorem decodeFrom_drop : ∀ (k : Nat) (bs : Bytes), k ≤ bs.length →
    decodeFrom k bs = decodeFrom 0 (bs.drop k) := by
  intro k
  induction k with
  | zero => intro bs _; rfl
  | succ k ih =>
      intro bs hk
      cases bs with
      | nil => cases hk
      | cons b bs => exact ih bs (Nat.le_of_succ_le_succ hk)

/-- Decoding one character after the other. -/
theorem fromUtf8Lossy_step (b : UInt8) (bs : Bytes) :
    fromUtf8Lossy (b :: bs) = (decodeChar b bs).1 :: fromUtf8Lossy (bs.drop (decodeChar b bs).2) := by
  unfold fromUtf8Lossy
  rw [decodeFrom, decodeFrom_drop _ _ (decodeChar_le b bs)]

theorem decodeFrom_append {c : UInt8} (hc : c < 0x80) (ys : Bytes) :
    ∀ (xs : Bytes) (k : Nat), k ≤ xs.length →
      decodeFrom k (xs ++ c :: ys) = decodeFrom k xs ++ decodeFrom 0 (c :: ys) := by
  intro xs
  induction xs with
  | nil =>
      intro k hk
      rw [Nat.le_zero.mp hk]
      rfl
  | cons x xs ih =>
      intro k hk
      cases k with
      | zero =>
          rw [List.cons_append, decodeFrom, decodeFrom, decodeChar_append hc,
            ih _ (decodeChar_le x xs), List.cons_append]
      | succ k => exact ih k (Nat.le_of_succ_le_succ hk)

/-- **Decoding commutes with cutting at an ASCII byte.** -/
theorem fromUtf8Lossy_append {c : UInt8} (hc : c < 0x80) (xs ys : Bytes) :
    fromUtf8Lossy (xs ++ c :: ys)
      = fromUtf8Lossy xs ++ Char.ofNat c.toNat :: fromUtf8Lossy ys := by
  unfold fromUtf8Lossy
  rw [decodeFrom_append hc ys xs 0 (Nat.zero_le _), decodeFrom]
  simp [decodeChar, hc]

/-! An ASCII byte is the character of its number, and no longer sequence decodes to one;
only what lies outside Unicode would come out as NUL. -/

/-- The character of an ASCII byte. -/
def byteChar (b : UInt8) : Char := Char.ofNat b.toNat

theorem byteChar_toNat (b : UInt8) : (byteChar b).toNat = b.toNat := by
  have hvalid : b.toNat.isValidChar := .inl (by have := b.toNat_lt; omega)
  unfold byteChar Char.ofNat
  rw [dif_pos hvalid]
  rfl

theorem byteChar_inj {a b : UInt8} (h : byteChar a = byteChar b) : a = b :=
  UInt8.toNat.inj (by rw [← byteChar_toNat, ← byteChar_toNat, h])

theorem fromUtf8Lossy_cons {b : UInt8} (hb : b < 0x80) (bs : Bytes) :
    fromUtf8Lossy (b :: bs) = byteChar b :: fromUtf8Lossy bs :=
  fromUtf8Lossy_append hb [] bs

theorem fromUtf8Lossy_ascii_append {as : Bytes} (has : ∀ b ∈ as, b < 0x80) (bs : Bytes) :
    fromUtf8Lossy (as ++ bs) = as.map byteChar ++ fromUtf8Lossy bs := by
  induction as with
  | nil => rfl
  | cons a as ih =>
      rw [List.cons_append, fromUtf8Lossy_cons (has a (by simp)),
        ih fun b hb => has b (by simp [hb])]
      rfl

theorem ofNat_ne_of_large {n : Nat} {c : Char} (hn : 0x80 ≤ n) (hc : c.toNat < 0x80)
    (h0 : c ≠ '\x00') : Char.ofNat n ≠ c := by
  rintro rfl
  by_cases hv : n.isValidChar
  · have hnat : (Char.ofNat n).toNat = n := by
      unfold Char.ofNat
      rw [dif_pos hv]
      rfl
    omega
  · refine h0 ?_
    unfold Char.ofNat
    rw [dif_neg hv]
    rfl

theorem second3_large {b c : UInt8} (hlo : 0xE0 ≤ b.toNat) (hhi : b.toNat ≤ 0xEF)
    (h : second3 b c = true) (m : Nat) : 0x80 ≤ b.toNat % 16 * 4096 + low6 c * 64 + m := by
  unfold second3 at h
  unfold low6
  split at h
  · simp only [Bool.and_eq_true, decide_eq_true_eq] at h
    have hc : 0xA0 ≤ c.toNat ∧ c.toNat ≤ 0xBF := h
    omega
  · rename_i hne
    have hb : b.toNat ≠ 0xE0 := by
      intro hb
      exact hne (by simpa using UInt8.toNat.inj hb)
    omega

theorem second4_large {b c : UInt8} (hlo : 0xF0 ≤ b.toNat) (hhi : b.toNat ≤ 0xF4)
    (h : second4 b c = true) (m k : Nat) :
    0x80 ≤ b.toNat % 8 * 262144 + low6 c * 4096 + m + k := by
  unfold second4 at h
  unfold low6
  split at h
  · simp only [Bool.and_eq_true, decide_eq_true_eq] at h
    have hc : 0x90 ≤ c.toNat ∧ c.toNat ≤ 0xBF := h
    omega
  · rename_i hne
    have hb : b.toNat ≠ 0xF0 := by
      intro hb
      exact hne (by simpa using UInt8.toNat.inj hb)
    omega

/-- A character that is ASCII and not NUL is a byte of its own. -/
theorem decodeChar_ascii {b : UInt8} {rest : Bytes} {c : Char} (hc : c.toNat < 0x80)
    (h0 : c ≠ '\x00') (h : (decodeChar b rest).1 = c) : byteChar b = c := by
  have hrep : replacement ≠ c := ofNat_ne_of_large (by decide) hc h0
  have hlarge : ∀ {n : Nat}, 0x80 ≤ n → Char.ofNat n ≠ c := fun hn => ofNat_ne_of_large hn hc h0
  unfold decodeChar at h
  split at h
  · exact h
  · rename_i hb
    have hb : 0x80 ≤ b.toNat := by
      have : ¬ b.toNat < 128 := hb
      omega
    split at h
    · rename_i h2
      have h2 : 0xC2 ≤ b.toNat ∧ b.toNat ≤ 0xDF := by
        simp only [Bool.and_eq_true, decide_eq_true_eq] at h2
        exact h2
      repeat' split at h
      all_goals first
        | exact absurd h hrep
        | exact absurd h (hlarge (by omega))
    · split at h
      · rename_i h3
        have h3 : 0xE0 ≤ b.toNat ∧ b.toNat ≤ 0xEF := by
          simp only [Bool.and_eq_true, decide_eq_true_eq] at h3
          exact h3
        repeat' split at h
        all_goals first
          | exact absurd h hrep
          | skip
        rename_i x _ _ hs _
        have hs : second3 b x = true := by simpa using hs
        exact absurd h (hlarge (second3_large h3.1 h3.2 hs _))
      · split at h
        · rename_i h4
          have h4 : 0xF0 ≤ b.toNat ∧ b.toNat ≤ 0xF4 := by
            simp only [Bool.and_eq_true, decide_eq_true_eq] at h4
            exact h4
          repeat' split at h
          all_goals first
            | exact absurd h hrep
            | skip
          rename_i x _ _ _ hs _ _
          have hs : second4 b x = true := by simpa using hs
          exact absurd h (hlarge (second4_large h4.1 h4.2 hs _ _))
        · exact absurd h hrep

private theorem decodeFrom_mem {c : Char} (hc : c.toNat < 0x80) (h0 : c ≠ '\x00') :
    ∀ (bs : Bytes) (k : Nat), c ∈ decodeFrom k bs → ∃ b ∈ bs, byteChar b = c := by
  intro bs
  induction bs with
  | nil => intro k h; simp [decodeFrom] at h
  | cons b bs ih =>
      intro k h
      cases k with
      | zero =>
          rw [decodeFrom] at h
          rcases List.mem_cons.mp h with h | h
          · exact ⟨b, by simp, decodeChar_ascii hc h0 h.symm⟩
          · obtain ⟨b', hb', heq⟩ := ih _ h
            exact ⟨b', by simp [hb'], heq⟩
      | succ k =>
          obtain ⟨b', hb', heq⟩ := ih k h
          exact ⟨b', by simp [hb'], heq⟩

/-- An ASCII character of the text is a byte of the data. -/
theorem notMem_fromUtf8Lossy {b : UInt8} (hb : (byteChar b).toNat < 0x80)
    (h0 : byteChar b ≠ '\x00') {bs : Bytes} (h : b ∉ bs) : byteChar b ∉ fromUtf8Lossy bs := by
  intro hmem
  obtain ⟨a, ha, heq⟩ := decodeFrom_mem hb h0 bs 0 hmem
  exact h (byteChar_inj heq ▸ ha)

/-- Strict decoding: bytes that are no text are refused. -/
def fromUtf8 (bs : Bytes) : Option Str :=
  if asBytes (fromUtf8Lossy bs) = bs then some (fromUtf8Lossy bs) else none

/-! ### Splitting at a character

What a split at the first or the last occurrence says about its parts: put together
they are the text, and the one part does not hold the character.
-/

/-- The parts before and after the first occurrence of `c`. -/
def splitOnce (c : Char) : Str → Option (Str × Str)
  | [] => none
  | x :: xs =>
      if x = c then some ([], xs)
      else match splitOnce c xs with
        | some (a, b) => some (x :: a, b)
        | none => none

/-- Another character at the end stays with the part after. -/
theorem splitOnce_concat {c d : Char} (hd : d ≠ c) (s : Str) :
    splitOnce c (s ++ [d]) = (splitOnce c s).map fun parts => (parts.1, parts.2 ++ [d]) := by
  induction s with
  | nil => simp [splitOnce, hd]
  | cons x s ih =>
      rw [List.cons_append, splitOnce, splitOnce, ih]
      by_cases hx : x = c
      · rw [if_pos hx, if_pos hx]
        rfl
      · rw [if_neg hx, if_neg hx]
        cases splitOnce c s with
        | none => rfl
        | some parts => rfl

theorem splitOnce_append {c : Char} {a : Str} (h : c ∉ a) (b : Str) :
    splitOnce c (a ++ c :: b) = some (a, b) := by
  induction a with
  | nil => simp [splitOnce]
  | cons x a ih =>
      have hx : ¬ x = c := fun hxc => h (hxc ▸ List.mem_cons_self)
      rw [List.cons_append, splitOnce, if_neg hx, ih fun hmem => h (List.mem_cons_of_mem x hmem)]

theorem splitOnce_eq_none {c : Char} {s : Str} (h : c ∉ s) : splitOnce c s = none := by
  induction s with
  | nil => rfl
  | cons x s ih =>
      have hx : ¬ x = c := fun hxc => h (hxc ▸ List.mem_cons_self)
      rw [splitOnce, if_neg hx, ih fun hmem => h (List.mem_cons_of_mem x hmem)]

/-- The first occurrence really is the first. -/
theorem notMem_of_splitOnce {c : Char} : ∀ {s a b : Str}, splitOnce c s = some (a, b) → c ∉ a := by
  intro s
  induction s with
  | nil =>
      intro a b h
      cases h
  | cons x xs ih =>
      intro a b h
      unfold splitOnce at h
      split at h
      · cases h
        exact List.not_mem_nil
      · rename_i hx
        split at h
        · rename_i a' b' hxs
          cases h
          intro hc
          rcases List.mem_cons.mp hc with rfl | hc
          · exact hx rfl
          · exact ih hxs hc
        · cases h

/-- The parts before and after the last occurrence of `c`. -/
def rsplitOnce (c : Char) : Str → Option (Str × Str)
  | [] => none
  | x :: xs =>
      match rsplitOnce c xs with
      | some (a, b) => some (x :: a, b)
      | none => if x = c then some ([], xs) else none

theorem notMem_of_rsplitOnce {c : Char} : ∀ {s : Str}, rsplitOnce c s = none → c ∉ s := by
  intro s
  induction s with
  | nil => simp
  | cons x xs ih =>
      intro h hmem
      rw [rsplitOnce] at h
      cases hr : rsplitOnce c xs with
      | some p => simp [hr] at h
      | none =>
          rcases List.mem_cons.mp hmem with rfl | hxs
          · simp [hr] at h
          · exact ih hr hxs

/-- The last occurrence really is one, and nothing after it is another. -/
theorem rsplitOnce_eq_some {c : Char} {s a b : Str} (h : rsplitOnce c s = some (a, b)) :
    s = a ++ c :: b ∧ c ∉ b := by
  induction s generalizing a b with
  | nil => simp [rsplitOnce] at h
  | cons x xs ih =>
      rw [rsplitOnce] at h
      cases hr : rsplitOnce c xs with
      | some p =>
          obtain ⟨a', b'⟩ := p
          simp only [hr, Option.some.injEq, Prod.mk.injEq] at h
          obtain ⟨rfl, rfl⟩ := h
          obtain ⟨hxs, hb⟩ := ih hr
          exact ⟨by rw [hxs]; rfl, hb⟩
      | none =>
          simp only [hr] at h
          split at h
          · rename_i hxc
            simp only [Option.some.injEq, Prod.mk.injEq] at h
            obtain ⟨rfl, rfl⟩ := h
            exact ⟨by rw [hxc]; rfl, notMem_of_rsplitOnce hr⟩
          · cases h

/-- No part of a split holds the separator. -/
theorem notMem_of_mem_splitOn {α : Type} [DecidableEq α] {c : α} :
    ∀ {s part : List α}, part ∈ s.splitOn c → c ∉ part := by
  intro s
  induction s with
  | nil =>
      intro part h
      rw [List.splitOn_nil, List.mem_singleton] at h
      simp [h]
  | cons x xs ih =>
      intro part h
      rw [List.splitOn_cons_eq_if_modifyHead] at h
      split at h
      · rcases List.mem_cons.mp h with rfl | h
        · simp
        · exact ih h
      · rename_i hx
        cases hs : xs.splitOn c with
        | nil => exact absurd hs (List.splitOn_ne_nil c xs)
        | cons y ys =>
            rw [hs, List.modifyHead_cons] at h
            rcases List.mem_cons.mp h with rfl | h
            · have hy : c ∉ y := ih (by rw [hs]; simp)
              intro hmem
              rcases List.mem_cons.mp hmem with rfl | hmem
              · simp at hx
              · exact hy hmem
            · exact ih (by rw [hs]; simp [h])

/-! ### White space, trimming and lines

White space is that of Unicode.  A line ends at a line feed, with or without a
carriage return before it, and text behind the last line feed is a line if there is
any.
-/

/-- The characters with the Unicode `White_Space` property. -/
def isWhitespace (c : Char) : Bool :=
  let n := c.toNat
  (0x09 ≤ n && n ≤ 0x0D) || n == 0x20 || n == 0x85 || n == 0xA0 || n == 0x1680
    || (0x2000 ≤ n && n ≤ 0x200A) || n == 0x2028 || n == 0x2029 || n == 0x202F
    || n == 0x205F || n == 0x3000

def trimStart (s : Str) : Str := s.dropWhile isWhitespace

def trimEnd (s : Str) : Str := s.rdropWhile isWhitespace

def trim (s : Str) : Str := trimEnd (trimStart s)

theorem trimStart_append (s t : Str) :
    trimStart (s ++ t) = if trimStart s = [] then trimStart t else trimStart s ++ t := by
  simp [trimStart, List.dropWhile_append]

theorem trimEnd_append (s t : Str) :
    trimEnd (s ++ t) = if trimEnd t = [] then trimEnd s else s ++ trimEnd t := by
  simp only [trimEnd, List.rdropWhile, List.reverse_append, List.dropWhile_append,
    List.isEmpty_iff, List.reverse_eq_nil_iff]
  split <;> simp

theorem trimStart_eq_nil {s : Str} : trimStart s = [] ↔ ∀ c ∈ s, isWhitespace c = true :=
  List.dropWhile_eq_nil_iff

theorem trimEnd_eq_nil {s : Str} : trimEnd s = [] ↔ ∀ c ∈ s, isWhitespace c = true :=
  List.rdropWhile_eq_nil_iff

theorem trimEnd_length_le (s : Str) : (trimEnd s).length ≤ s.length :=
  (List.rdropWhile_prefix _ s).length_le

/-- After white space, only white space leaves the trimmed text as it is. -/
theorem trim_append_iff {c : Char} (hc : isWhitespace c = true) (s t : Str) :
    trim (s ++ c :: t) = trim s ↔ ∀ d ∈ t, isWhitespace d = true := by
  have hall : (∀ d ∈ c :: t, isWhitespace d = true) ↔ ∀ d ∈ t, isWhitespace d = true := by
    simp [hc]
  unfold trim
  rw [trimStart_append]
  by_cases hs : trimStart s = []
  · rw [if_pos hs, hs]
    constructor
    · intro h
      have hnil : trimStart (c :: t) = [] := by
        by_contra hne
        -- the first character left is no white space, so trimming keeps it
        obtain ⟨d, rest, hd⟩ := List.exists_cons_of_ne_nil hne
        have hwhite := trimEnd_eq_nil.mp h d (by rw [hd]; simp)
        have hhead : isWhitespace ((trimStart (c :: t)).head hne) = false :=
          List.head_dropWhile_not isWhitespace hne
        simp only [hd, List.head_cons] at hhead
        rw [hwhite] at hhead
        cases hhead
      exact hall.mp (trimStart_eq_nil.mp hnil)
    · intro h
      rw [trimStart_eq_nil.mpr (hall.mpr h)]
  · rw [if_neg hs, trimEnd_append]
    constructor
    · intro h
      by_contra hne
      have hend : trimEnd (c :: t) ≠ [] := fun hnil => hne (hall.mp (trimEnd_eq_nil.mp hnil))
      rw [if_neg hend] at h
      have hlen := congrArg List.length h
      rw [List.length_append] at hlen
      have hle := trimEnd_length_le (trimStart s)
      have hpos := List.length_pos_iff.mpr hend
      omega
    · intro h
      rw [if_pos (trimEnd_eq_nil.mpr (hall.mpr h))]

/-- Text with no white space at its ends is trimmed already. -/
theorem trim_of_ends {s : Str} (hfirst : ∀ c ∈ s.head?, isWhitespace c = false)
    (hlast : ∀ c ∈ s.getLast?, isWhitespace c = false) : trim s = s := by
  have hstart : trimStart s = s := by
    cases s with
    | nil => rfl
    | cons c s => exact List.dropWhile_cons_of_neg (by simp [hfirst c rfl])
  unfold trim
  rw [hstart]
  exact List.rdropWhile_eq_self_iff.mpr fun hne =>
    by simp [hlast _ (List.getLast?_eq_some_getLast hne)]

/-- The non-empty runs between white space. -/
def splitWhitespace (s : Str) : List Str :=
  (s.splitOnP isWhitespace).filter (· ≠ [])

/-- A separator between two parts separates their runs. -/
theorem runs_append {p : Char → Bool} {c : Char} (hc : p c = true) (s t : Str) :
    ((s ++ c :: t).splitOnP p).filter (· ≠ [])
      = (s.splitOnP p).filter (· ≠ []) ++ (t.splitOnP p).filter (· ≠ []) := by
  rw [List.splitOnP_append_cons s t hc, List.filter_append]

/-- A part without separators is one run, unless it is empty. -/
theorem runs_of_none {p : Char → Bool} {s : Str} (h : ∀ c ∈ s, p c = false) :
    (s.splitOnP p).filter (· ≠ []) = if s = [] then [] else [s] := by
  rw [List.splitOnP_eq_singleton h]
  by_cases hs : s = [] <;> simp [hs]

theorem splitWhitespace_append {c : Char} (hc : isWhitespace c = true) (s t : Str) :
    splitWhitespace (s ++ c :: t) = splitWhitespace s ++ splitWhitespace t := runs_append hc s t

theorem splitWhitespace_of_none {s : Str} (h : ∀ c ∈ s, isWhitespace c = false) :
    splitWhitespace s = if s = [] then [] else [s] := runs_of_none h

/-- A run is not empty and holds no white space. -/
theorem mem_splitWhitespace {s w : Str} (h : w ∈ splitWhitespace s) :
    w ≠ [] ∧ ∀ c ∈ w, isWhitespace c = false := by
  unfold splitWhitespace at h
  obtain ⟨hmem, hne⟩ := List.mem_filter.mp h
  refine ⟨of_decide_eq_true hne, ?_⟩
  clear h hne
  induction s generalizing w with
  | nil =>
      rw [List.splitOnP_nil, List.mem_singleton] at hmem
      simp [hmem]
  | cons x xs ih =>
      rw [List.splitOnP_cons_eq_if_modifyHead] at hmem
      split at hmem
      · rcases List.mem_cons.mp hmem with rfl | hmem
        · simp
        · exact ih hmem
      · rename_i hx
        cases hs : xs.splitOnP isWhitespace with
        | nil => exact absurd hs (List.splitOnP_ne_nil _ xs)
        | cons y ys =>
            rw [hs, List.modifyHead_cons] at hmem
            rcases List.mem_cons.mp hmem with rfl | hmem
            · intro c hc
              rcases List.mem_cons.mp hc with rfl | hc
              · simpa using hx
              · exact ih (by rw [hs]; simp) c hc
            · exact ih (by rw [hs]; simp [hmem])

private def stripCr (s : Str) : Str := if s.getLast? = some '\r' then s.dropLast else s

/--
A line ends at a line feed, with one carriage return before it dropped; what follows
the last line feed counts only if it is not empty.
-/
def linesOf : List Str → List Str
  | [] => []
  | [last] => if last = [] then [] else [last]
  | l :: rest => stripCr l :: linesOf rest

def lines (s : Str) : List Str := linesOf (s.splitOn '\n')

theorem splitOn_cons_of_notMem {α : Type} [DecidableEq α] {c : α} {s : List α} (h : c ∉ s)
    (t : List α) : (s ++ c :: t).splitOn c = s :: t.splitOn c := by
  unfold List.splitOn
  rw [List.splitOnP_append_cons s t (by simp),
    List.splitOnP_eq_singleton (fun x hx => by simpa using fun hxc : x = c => h (hxc ▸ hx))]
  rfl

theorem linesOf_cons (l : Str) {rest : List Str} (h : rest ≠ []) :
    linesOf (l :: rest) = stripCr l :: linesOf rest := by
  cases rest with
  | nil => exact absurd rfl h
  | cons r rest => rfl

theorem lines_lf {s : Str} (h : '\n' ∉ s) (hcr : s.getLast? ≠ some '\r') (t : Str) :
    lines (s ++ '\n' :: t) = s :: lines t := by
  unfold lines
  rw [splitOn_cons_of_notMem h, linesOf_cons _ (List.splitOn_ne_nil _ _), stripCr, if_neg hcr]

theorem lines_crlf {s : Str} (h : '\n' ∉ s) (t : Str) :
    lines (s ++ '\r' :: '\n' :: t) = s :: lines t := by
  have hsplit : s ++ '\r' :: '\n' :: t = (s ++ ['\r']) ++ '\n' :: t := by simp
  have hnot : '\n' ∉ s ++ ['\r'] := by simp [h]
  unfold lines
  rw [hsplit, splitOn_cons_of_notMem hnot, linesOf_cons _ (List.splitOn_ne_nil _ _), stripCr,
    if_pos (by simp), List.dropLast_concat]

/-- What no line feed ends is a line of its own, unless it is empty. -/
theorem lines_last {s : Str} (h : '\n' ∉ s) : lines s = if s = [] then [] else [s] := by
  unfold lines List.splitOn
  rw [List.splitOnP_eq_singleton (fun x hx => by simpa using fun hxc : x = '\n' => h (hxc ▸ hx))]
  rfl

/-- No line holds a line feed. -/
theorem notMem_of_mem_lines {s l : Str} (h : l ∈ lines s) : '\n' ∉ l := by
  have hall : ∀ ls : List Str, (∀ part ∈ ls, '\n' ∉ part) → ∀ l ∈ linesOf ls, '\n' ∉ l := by
    intro ls
    induction ls with
    | nil => simp [linesOf]
    | cons part rest ih =>
        intro hparts l hl
        have hpart := hparts part List.mem_cons_self
        cases rest with
        | nil =>
            rw [linesOf] at hl
            split at hl
            · cases hl
            · rwa [List.mem_singleton.mp hl]
        | cons r rest =>
            rw [linesOf_cons part (List.cons_ne_nil r rest), List.mem_cons] at hl
            rcases hl with rfl | hl
            · unfold stripCr
              split
              · exact fun hc => hpart ((List.dropLast_subset part) hc)
              · exact hpart
            · exact ih (fun p hp => hparts p (List.mem_cons_of_mem part hp)) l hl
  exact hall _ (fun part hpart => notMem_of_mem_splitOn hpart) l h

theorem linesOf_append {rest : List Str} (h : rest ≠ []) (ls : List Str) :
    linesOf (ls ++ rest) = ls.map stripCr ++ linesOf rest := by
  induction ls with
  | nil => rfl
  | cons l ls ih =>
      rw [List.cons_append, linesOf_cons l (List.append_ne_nil_of_right_ne_nil ls h), ih]
      rfl

/-- A line feed cuts the lines of a text in two. -/
theorem lines_append (s t : Str) : lines (s ++ '\n' :: t) = lines (s ++ ['\n']) ++ lines t := by
  have hsplit : ∀ u : Str, (s ++ '\n' :: u).splitOn '\n' = s.splitOn '\n' ++ u.splitOn '\n' :=
    fun u => List.splitOnP_append_cons s u (by simp)
  unfold lines
  rw [hsplit, hsplit, linesOf_append (List.splitOn_ne_nil _ _),
    linesOf_append (List.splitOn_ne_nil _ _)]
  simp [linesOf]

/--
Whether the last line is ended makes no difference to what does not look at carriage
returns.
-/
theorem filterMap_lines_concat {α : Type} {f : Str → Option α} (hnil : f [] = none)
    (hcr : ∀ l, f (l ++ ['\r']) = f l) (s : Str) :
    (lines (s ++ ['\n'])).filterMap f = (lines s).filterMap f := by
  have hstrip : ∀ l, f (stripCr l) = f l := by
    intro l
    unfold stripCr
    split
    · rename_i h
      obtain ⟨l, rfl⟩ := List.getLast?_eq_some_iff.mp h
      rw [List.dropLast_concat, hcr]
    · rfl
  have hlines : ∀ ls : List Str, (linesOf ls).filterMap f = ls.filterMap f := by
    intro ls
    induction ls with
    | nil => rfl
    | cons l rest ih =>
        cases rest with
        | nil =>
            by_cases hl : l = []
            · simp [linesOf, hl, hnil]
            · simp [linesOf, hl]
        | cons r rest =>
            rw [linesOf_cons l (List.cons_ne_nil r rest), List.filterMap_cons, List.filterMap_cons,
              hstrip, ih]
  have hsplit : (s ++ ['\n']).splitOn '\n' = s.splitOn '\n' ++ [[]] :=
    List.splitOnP_append_cons s [] (by simp)
  unfold lines
  rw [hsplit, linesOf_append (List.cons_ne_nil _ _), hlines]
  simp [linesOf, List.filterMap_map, hstrip]

/-! ### ASCII case

Only the letters of ASCII change; everything else is compared as it is.
-/

/-- ASCII-only lower case, as `to_ascii_lowercase` and `eq_ignore_ascii_case` use it. -/
def asciiLower (s : Str) : Str := s.map Char.toLower

def eqIgnoreAsciiCase (s t : Str) : Bool := asciiLower s = asciiLower t

/-! ### Numbers

Parsers of the standard library refuse what is empty, holds anything but digits
behind a sign, or does not fit.
-/

/-- A decimal numeral; the empty string is none. -/
def parseDigits (s : Str) : Option Nat :=
  if s = [] ∨ s.any (fun c => !c.isDigit) then none
  else some (s.foldl (fun n c => n * 10 + (c.toNat - '0'.toNat)) 0)

theorem isDigit_bounds {c : Char} (h : c.isDigit = true) : 48 ≤ c.toNat ∧ c.toNat ≤ 57 := by
  simp only [Char.isDigit, Bool.and_eq_true, decide_eq_true_eq] at h
  exact ⟨h.1, h.2⟩

theorem parseDigits_digits {ds : Str} {n : Nat} (h : parseDigits ds = some n) :
    ds ≠ [] ∧ ∀ c ∈ ds, c.isDigit = true := by
  unfold parseDigits at h
  split at h
  · cases h
  · rename_i hds
    rw [not_or] at hds
    refine ⟨hds.1, fun c hc => ?_⟩
    by_contra hdigit
    exact hds.2 (List.any_eq_true.mpr ⟨c, hc, by simpa using hdigit⟩)

/-- A leading zero changes nothing. -/
theorem parseDigits_zero_cons {s : Str} (h : s ≠ []) : parseDigits ('0' :: s) = parseDigits s := by
  have hzero : ('0' : Char).isDigit = true := by decide
  unfold parseDigits
  simp [h, hzero]

def inRange (lo hi n : Int) : Option Int := if lo ≤ n ∧ n ≤ hi then some n else none

/-- Parse a signed integer of the range `[lo, hi]`, with an optional sign. -/
def parseInt (lo hi : Int) : Str → Option Int
  | '-' :: ds => (parseDigits ds).bind fun n => inRange lo hi (-(n : Int))
  | '+' :: ds => (parseDigits ds).bind fun n => inRange lo hi (n : Int)
  | ds => (parseDigits ds).bind fun n => inRange lo hi (n : Int)

/-- The largest `i64`. -/
def i64Max : Int := 9223372036854775807

/-- The smallest `i64`. -/
def i64Min : Int := -9223372036854775808

def parseI64 (s : Str) : Option Int := parseInt i64Min i64Max s

theorem inRange_eq_some {lo hi n m : Int} (h : inRange lo hi n = some m) : lo ≤ m ∧ m ≤ hi := by
  unfold inRange at h
  split at h
  · rename_i hr
    simp only [Option.some.injEq] at h
    omega
  · cases h

/-- A parsed `i64` is one. -/
theorem parseI64_range {s : Str} {n : Int} (h : parseI64 s = some n) :
    i64Min ≤ n ∧ n ≤ i64Max := by
  unfold parseI64 parseInt at h
  split at h <;>
  · obtain ⟨k, -, hk⟩ := Option.bind_eq_some_iff.mp h
    exact inRange_eq_some hk

/-- Without a minus sign it is not negative. -/
theorem parseI64_nonneg {s : Str} {n : Int} (hs : '-' ∉ s) (h : parseI64 s = some n) : 0 ≤ n := by
  have hnat : ∀ {k : Nat}, inRange i64Min i64Max (k : Int) = some n → 0 ≤ n := by
    intro k hk
    unfold inRange at hk
    split at hk
    · cases hk
      exact Int.natCast_nonneg k
    · cases hk
  unfold parseI64 parseInt at h
  split at h
  · exact absurd List.mem_cons_self hs
  · obtain ⟨k, -, hk⟩ := Option.bind_eq_some_iff.mp h
    exact hnat hk
  · obtain ⟨k, -, hk⟩ := Option.bind_eq_some_iff.mp h
    exact hnat hk

/-- A number that is parsed is made of signs and digits. -/
theorem parseI64_chars {num : Str} {v : Int} (h : parseI64 num = some v) :
    num ≠ [] ∧ ∀ c ∈ num, 43 ≤ c.toNat ∧ c.toNat ≤ 57 := by
  have hdigits : ∀ {ds : Str} {n : Nat}, parseDigits ds = some n →
      ds ≠ [] ∧ ∀ c ∈ ds, 43 ≤ c.toNat ∧ c.toNat ≤ 57 := by
    intro ds n hds
    obtain ⟨hne, hall⟩ := parseDigits_digits hds
    refine ⟨hne, fun c hc => ?_⟩
    have := isDigit_bounds (hall c hc)
    omega
  unfold parseI64 parseInt at h
  split at h
  · obtain ⟨n, hn, -⟩ := Option.bind_eq_some_iff.mp h
    exact ⟨List.cons_ne_nil _ _, List.forall_mem_cons.mpr ⟨by decide, (hdigits hn).2⟩⟩
  · obtain ⟨n, hn, -⟩ := Option.bind_eq_some_iff.mp h
    exact ⟨List.cons_ne_nil _ _, List.forall_mem_cons.mpr ⟨by decide, (hdigits hn).2⟩⟩
  · obtain ⟨n, hn, -⟩ := Option.bind_eq_some_iff.mp h
    exact hdigits hn

theorem mem_of_mem_trim {c : Char} {s : Str} (h : c ∈ trim s) : c ∈ s := by
  unfold trim trimEnd trimStart at h
  exact List.dropWhile_sublist _ |>.subset ((List.rdropWhile_prefix _ _).subset h)

def natStr (n : Nat) : Str := Nat.toDigits 10 n

def intStr : Int → Str
  | .ofNat n => natStr n
  | .negSucc n => '-' :: natStr (n + 1)

/-! ### Substrings

Search by trying every place in order, so the first occurrence is found.
-/

/-- Where `needle` first occurs in a byte string. -/
def findBytes (needle : Bytes) : Bytes → Option Nat
  | [] => if needle = [] then some 0 else none
  | b :: bs => if needle.isPrefixOf (b :: bs) then some 0 else (findBytes needle bs).map (· + 1)

def containsStr (needle s : Str) : Bool := s.tails.any needle.isPrefixOf

private def replaceFrom (needle new : Str) : Nat → Str → Str
  | _, [] => []
  | k + 1, _ :: s => replaceFrom needle new k s
  | 0, c :: s =>
      if needle.isPrefixOf (c :: s) then new ++ replaceFrom needle new (needle.length - 1) s
      else c :: replaceFrom needle new 0 s

/-- Replace every occurrence of a non-empty `needle`, scanning left to right. -/
def replace (needle new s : Str) : Str := replaceFrom needle new 0 s

private theorem replaceFrom_eq (needle new : Str) (k : Nat) (s : Str) :
    replaceFrom needle new k s = replace needle new (s.drop k) := by
  induction s generalizing k with
  | nil => simp [replace, replaceFrom]
  | cons c s ih =>
      cases k with
      | zero => rfl
      | succ k => exact ih k

theorem replace_cons (needle new : Str) (c : Char) (s : Str) :
    replace needle new (c :: s) =
      if needle.isPrefixOf (c :: s) then new ++ replace needle new (s.drop (needle.length - 1))
      else c :: replace needle new s := by
  rw [replace, replaceFrom, replaceFrom_eq]
  rfl

/-- The longest prefix of at most `n` bytes that does not split a character. -/
def takeBytes : Nat → Str → Str
  | _, [] => []
  | n, c :: s => if c.utf8Size ≤ n then c :: takeBytes (n - c.utf8Size) s else []

/-- What is left after the first `n` bytes. -/
def dropBytes : Nat → Str → Str
  | 0, s => s
  | _ + 1, [] => []
  | n + 1, c :: s => dropBytes (n + 1 - c.utf8Size) s

theorem mem_of_mem_dropBytes {c : Char} {n : Nat} {s : Str} (h : c ∈ dropBytes n s) : c ∈ s := by
  induction s generalizing n with
  | nil => cases n <;> exact h
  | cons d s ih =>
      cases n with
      | zero => exact h
      | succ n => exact List.mem_cons_of_mem d (ih h)

end Text
