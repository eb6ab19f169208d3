/-
Encoding and decoding are inverse.

Text that was encoded is decoded again, so bytes made from text are text, and a byte
below 128 stands for itself wherever it is found in them.

The decoder is the lossy one, which replaces what it cannot read, so that decoding
never fails; what is shown here is that on encoded text there is nothing to replace.
The last part is about classes of characters that a program tests one byte at a
time: as long as the class is decided by ASCII, the bytes and the characters of a
text are cut, skipped and filtered at the same places.
-/
import Thttpd.Lib.Text

namespace Text

/-! ### One character

The four lengths of a sequence are taken one by one.  A lead byte tells the length,
and the ranges of the second byte are those that leave out overlong forms and
surrogates, which no character has.
-/

/-- A continuation byte, by its number. -/
theorem isCont_iff {c : UInt8} : isCont c = true ↔ 0x80 ≤ c.toNat ∧ c.toNat ≤ 0xBF := by
  unfold isCont
  rw [Bool.and_eq_true, decide_eq_true_eq, decide_eq_true_eq]
  exact Iff.rfl

theorem second3_of_toNat {b c : UInt8} (hc : 0x80 ≤ c.toNat ∧ c.toNat ≤ 0xBF)
    (hE0 : b.toNat = 0xE0 → 0xA0 ≤ c.toNat) (hED : b.toNat = 0xED → c.toNat ≤ 0x9F) :
    second3 b c = true := by
  unfold second3
  split
  · rename_i hb
    rw [beq_iff_eq] at hb
    rw [Bool.and_eq_true, decide_eq_true_eq, decide_eq_true_eq]
    exact ⟨hE0 (by rw [hb]; rfl), hc.2⟩
  split
  · rename_i hb
    rw [beq_iff_eq] at hb
    rw [Bool.and_eq_true, decide_eq_true_eq, decide_eq_true_eq]
    exact ⟨hc.1, hED (by rw [hb]; rfl)⟩
  · exact isCont_iff.mpr hc

theorem second4_of_toNat {b c : UInt8} (hc : 0x80 ≤ c.toNat ∧ c.toNat ≤ 0xBF)
    (hF0 : b.toNat = 0xF0 → 0x90 ≤ c.toNat) (hF4 : b.toNat = 0xF4 → c.toNat ≤ 0x8F) :
    second4 b c = true := by
  unfold second4
  split
  · rename_i hb
    rw [beq_iff_eq] at hb
    rw [Bool.and_eq_true, decide_eq_true_eq, decide_eq_true_eq]
    exact ⟨hF0 (by rw [hb]; rfl), hc.2⟩
  split
  · rename_i hb
    rw [beq_iff_eq] at hb
    rw [Bool.and_eq_true, decide_eq_true_eq, decide_eq_true_eq]
    exact ⟨hc.1, hF4 (by rw [hb]; rfl)⟩
  · exact isCont_iff.mpr hc

/-- Whether a byte lies between two, in numbers. -/
theorem between_iff {lo hi b : UInt8} :
    (lo ≤ b && b ≤ hi) = true ↔ lo.toNat ≤ b.toNat ∧ b.toNat ≤ hi.toNat := by
  rw [Bool.and_eq_true, decide_eq_true_eq, decide_eq_true_eq]
  exact Iff.rfl

/-- A byte below 128 is the character. -/
theorem decodeChar_one {b : UInt8} (hb : b.toNat < 0x80) (rest : Bytes) :
    decodeChar b rest = (Char.ofNat b.toNat, 0) := by
  have hlt : b < 0x80 := hb
  unfold decodeChar
  rw [if_pos hlt]

/-- Two bytes are read as a character from 128 on. -/
theorem decodeChar_two {b c : UInt8} (hb : 0xC2 ≤ b.toNat ∧ b.toNat ≤ 0xDF)
    (hc : 0x80 ≤ c.toNat ∧ c.toNat ≤ 0xBF) (rest : Bytes) :
    decodeChar b (c :: rest) = (Char.ofNat (b.toNat % 32 * 64 + low6 c), 1) := by
  have hlo : ¬ b < 0x80 := by
    show ¬ b.toNat < 128
    omega
  have htwo : (0xC2 ≤ b && b ≤ 0xDF) = true := between_iff.mpr hb
  rw [decodeChar, if_neg hlo, if_pos htwo]
  simp only [isCont_iff.mpr hc, if_true]

/-- Three bytes, which are no surrogate. -/
theorem decodeChar_three {b c d : UInt8} (hb : 0xE0 ≤ b.toNat ∧ b.toNat ≤ 0xEF)
    (hc : second3 b c = true) (hd : 0x80 ≤ d.toNat ∧ d.toNat ≤ 0xBF) (rest : Bytes) :
    decodeChar b (c :: d :: rest)
      = (Char.ofNat (b.toNat % 16 * 4096 + low6 c * 64 + low6 d), 2) := by
  have hlo : ¬ b < 0x80 := by
    show ¬ b.toNat < 128
    omega
  have htwo : ¬ (0xC2 ≤ b && b ≤ 0xDF) = true := by
    rw [between_iff]
    show ¬ (194 ≤ b.toNat ∧ b.toNat ≤ 223)
    omega
  have hthree : (0xE0 ≤ b && b ≤ 0xEF) = true := between_iff.mpr hb
  rw [decodeChar, if_neg hlo, if_neg htwo, if_pos hthree]
  simp [hc, isCont_iff.mpr hd]

/-- Four bytes, up to the last character there is. -/
theorem decodeChar_four {b c d e : UInt8} (hb : 0xF0 ≤ b.toNat ∧ b.toNat ≤ 0xF4)
    (hc : second4 b c = true) (hd : 0x80 ≤ d.toNat ∧ d.toNat ≤ 0xBF)
    (he : 0x80 ≤ e.toNat ∧ e.toNat ≤ 0xBF) (rest : Bytes) :
    decodeChar b (c :: d :: e :: rest)
      = (Char.ofNat (b.toNat % 8 * 262144 + low6 c * 4096 + low6 d * 64 + low6 e), 3) := by
  have hlo : ¬ b < 0x80 := by
    show ¬ b.toNat < 128
    omega
  have htwo : ¬ (0xC2 ≤ b && b ≤ 0xDF) = true := by
    rw [between_iff]
    show ¬ (194 ≤ b.toNat ∧ b.toNat ≤ 223)
    omega
  have hthree : ¬ (0xE0 ≤ b && b ≤ 0xEF) = true := by
    rw [between_iff]
    show ¬ (224 ≤ b.toNat ∧ b.toNat ≤ 239)
    omega
  have hfour : (0xF0 ≤ b && b ≤ 0xF4) = true := between_iff.mpr hb
  rw [decodeChar, if_neg hlo, if_neg htwo, if_neg hthree, if_pos hfour]
  simp [hc, isCont_iff.mpr hd, isCont_iff.mpr he]

/-- **A character that was encoded is decoded again**, whatever follows it. -/
theorem decodeChar_utf8EncodeChar (c : Char) (rest : Bytes) :
    ∃ b bs, String.utf8EncodeChar c = b :: bs ∧ decodeChar b (bs ++ rest) = (c, bs.length) := by
  have hbyte : ∀ {n : Nat}, n < 256 → (UInt8.ofNat n).toNat = n := by
    intro n hn
    rw [UInt8.toNat_ofNat', Nat.mod_eq_of_lt hn]
  have hchar : ∀ {n : Nat}, n = c.val.toNat → Char.ofNat n = c := by
    rintro n rfl
    exact Char.ofNat_toNat c
  have hvalid : c.val.toNat < 0xD800 ∨ 0xDFFF < c.val.toNat ∧ c.val.toNat < 0x110000 := c.valid
  unfold String.utf8EncodeChar
  simp only
  generalize hv : c.val.toNat = v at *
  split
  · refine ⟨_, [], rfl, ?_⟩
    rw [decodeChar_one (by rw [hbyte (by omega)]; omega), hbyte (by omega), hchar rfl]
    rfl
  split
  · refine ⟨_, [_], rfl, ?_⟩
    have h₁ := hbyte (show v / 64 % 32 + 192 < 256 by omega)
    have h₂ := hbyte (show v % 64 + 128 < 256 by omega)
    rw [List.singleton_append, decodeChar_two (by omega) (by omega), low6, h₁, h₂,
      hchar (by omega)]
    rfl
  split
  · refine ⟨_, [_, _], rfl, ?_⟩
    have h₁ := hbyte (show v / 4096 % 16 + 224 < 256 by omega)
    have h₂ := hbyte (show v / 64 % 64 + 128 < 256 by omega)
    have h₃ := hbyte (show v % 64 + 128 < 256 by omega)
    rw [List.cons_append, List.singleton_append, decodeChar_three (by omega)
      (second3_of_toNat (by omega) (by omega) (by omega)) (by omega), low6, low6, h₁, h₂, h₃,
      hchar (by omega)]
    rfl
  · refine ⟨_, [_, _, _], rfl, ?_⟩
    have h₁ := hbyte (show v / 262144 % 8 + 240 < 256 by omega)
    have h₂ := hbyte (show v / 4096 % 64 + 128 < 256 by omega)
    have h₃ := hbyte (show v / 64 % 64 + 128 < 256 by omega)
    have h₄ := hbyte (show v % 64 + 128 < 256 by omega)
    rw [List.cons_append, List.cons_append, List.singleton_append, decodeChar_four (by omega)
      (second4_of_toNat (by omega) (by omega) (by omega)) (by omega) (by omega), low6, low6, low6,
      h₁, h₂, h₃, h₄, hchar (by omega)]
    rfl

/-- An ASCII character is encoded as itself. -/
theorem utf8EncodeChar_ascii {c : Char} (h : c.toNat < 0x80) :
    String.utf8EncodeChar c = [UInt8.ofNat c.toNat] := by
  have hle : c.val.toNat ≤ 0x7f := Nat.le_of_lt_succ h
  unfold String.utf8EncodeChar
  simp only
  rw [if_pos hle]
  rfl

/-- The bytes of a longer sequence lie above ASCII. -/
theorem utf8EncodeChar_large {c : Char} (h : 0x80 ≤ c.toNat) {b : UInt8}
    (hb : b ∈ String.utf8EncodeChar c) : 0x80 ≤ b.toNat := by
  have hbyte : ∀ {n : Nat}, n < 256 → (UInt8.ofNat n).toNat = n := by
    intro n hn
    rw [UInt8.toNat_ofNat', Nat.mod_eq_of_lt hn]
  have hlarge : ¬ c.val.toNat ≤ 0x7f := by
    have : 0x80 ≤ c.val.toNat := h
    omega
  unfold String.utf8EncodeChar at hb
  simp only [if_neg hlarge] at hb
  generalize c.val.toNat = v at hb
  split at hb
  · simp only [List.mem_cons, List.not_mem_nil, or_false] at hb
    rcases hb with rfl | rfl
    all_goals rw [hbyte (by omega)]; omega
  split at hb
  · simp only [List.mem_cons, List.not_mem_nil, or_false] at hb
    rcases hb with rfl | rfl | rfl
    all_goals rw [hbyte (by omega)]; omega
  · simp only [List.mem_cons, List.not_mem_nil, or_false] at hb
    rcases hb with rfl | rfl | rfl | rfl
    all_goals rw [hbyte (by omega)]; omega

/-! ### Text

Encoding goes character by character, so what holds of a character holds of a text.
The same is not true of decoding, where a sequence may be cut short; it is true
behind a text that was encoded.
-/

theorem asBytes_cons (c : Char) (s : Str) :
    asBytes (c :: s) = String.utf8EncodeChar c ++ asBytes s := List.flatMap_cons

@[simp] theorem asBytes_append (s t : Str) : asBytes (s ++ t) = asBytes s ++ asBytes t :=
  List.flatMap_append

/-- **Text that was encoded is decoded again**, whatever follows it. -/
theorem fromUtf8Lossy_asBytes (s : Str) (rest : Bytes) :
    fromUtf8Lossy (asBytes s ++ rest) = s ++ fromUtf8Lossy rest := by
  induction s with
  | nil => rfl
  | cons c s ih =>
      obtain ⟨b, bs, henc, hdec⟩ := decodeChar_utf8EncodeChar c (asBytes s ++ rest)
      rw [asBytes_cons, henc, List.append_assoc, List.cons_append, fromUtf8Lossy_step, hdec]
      simp only [List.drop_left, ih, List.cons_append]

/-- The strict decoder takes what was encoded. -/
theorem fromUtf8_asBytes (s : Str) : fromUtf8 (asBytes s) = some s := by
  have hdec : fromUtf8Lossy (asBytes s) = s := by
    simpa [fromUtf8Lossy_nil] using fromUtf8Lossy_asBytes s []
  unfold fromUtf8
  rw [hdec, if_pos rfl]

/-- An ASCII byte of encoded text is a character of it. -/
theorem byteChar_mem_of_asBytes {b : UInt8} (hb : b.toNat < 0x80) {s : Str} (h : b ∈ asBytes s) :
    byteChar b ∈ s := by
  obtain ⟨c, hc, hbc⟩ := List.mem_flatMap.mp h
  by_cases hascii : c.toNat < 0x80
  · rw [utf8EncodeChar_ascii hascii, List.mem_singleton] at hbc
    have hchar : byteChar b = c := by
      apply Char.toNat_inj.mp
      rw [byteChar_toNat, hbc, UInt8.toNat_ofNat', Nat.mod_eq_of_lt (by omega)]
    rwa [hchar]
  · have := utf8EncodeChar_large (Nat.le_of_not_lt hascii) hbc
    omega

/-- ASCII text, byte by byte. -/
theorem map_byteChar_asBytes {s : Str} (h : ∀ c ∈ s, c.toNat < 0x80) :
    (asBytes s).map byteChar = s := by
  induction s with
  | nil => rfl
  | cons c s ih =>
      have hc := h c List.mem_cons_self
      have hchar : byteChar (UInt8.ofNat c.toNat) = c := by
        apply Char.toNat_inj.mp
        rw [byteChar_toNat, UInt8.toNat_ofNat', Nat.mod_eq_of_lt (by omega)]
      rw [asBytes_cons, utf8EncodeChar_ascii hc, List.map_append, List.map_singleton, hchar,
        ih fun d hd => h d (List.mem_cons_of_mem c hd), List.singleton_append]

/-- A character is one ASCII byte or several others. -/
theorem utf8EncodeChar_cases (c : Char) :
    (c.toNat < 0x80 ∧ String.utf8EncodeChar c = [UInt8.ofNat c.toNat]) ∨
    (0x80 ≤ c.toNat ∧ ∃ b bs, String.utf8EncodeChar c = b :: bs ∧
      ∀ x ∈ b :: bs, 0x80 ≤ x.toNat) := by
  by_cases hascii : c.toNat < 0x80
  · exact .inl ⟨hascii, utf8EncodeChar_ascii hascii⟩
  · have hlarge : 0x80 ≤ c.toNat := Nat.le_of_not_lt hascii
    obtain ⟨b, bs, henc, -⟩ := decodeChar_utf8EncodeChar c []
    exact .inr ⟨hlarge, b, bs, henc, fun x hx => utf8EncodeChar_large hlarge (henc ▸ hx)⟩

/-- No two texts have the same bytes. -/
theorem asBytes_inj {s t : Str} : asBytes s = asBytes t ↔ s = t := by
  refine ⟨fun h => ?_, fun h => by rw [h]⟩
  have hdec := congrArg fromUtf8 h
  rw [fromUtf8_asBytes, fromUtf8_asBytes] at hdec
  exact Option.some.inj hdec

/-- The first byte belongs to the first character. -/
theorem exists_head?_of_asBytes {s : Str} {b : UInt8} (h : b ∈ (asBytes s).head?) :
    ∃ c ∈ s.head?, b ∈ String.utf8EncodeChar c := by
  cases s with
  | nil => cases h
  | cons c s =>
      rw [asBytes_cons, List.head?_append_of_ne_nil _ String.utf8EncodeChar_ne_nil] at h
      exact ⟨c, rfl, List.mem_of_mem_head? h⟩

/--
A property of bytes and one of characters that say the same of ASCII, and the same
of everything else.
-/
structure SameClass (P : UInt8 → Bool) (Q : Char → Bool) : Prop where
  ascii : ∀ c : Char, c.toNat < 0x80 → P (UInt8.ofNat c.toNat) = Q c
  large : ∃ v, (∀ b : UInt8, 0x80 ≤ b.toNat → P b = v) ∧ ∀ c : Char, 0x80 ≤ c.toNat → Q c = v

section

variable {P : UInt8 → Bool} {Q : Char → Bool}

/-- All bytes of a character are in the class of the character. -/
theorem SameClass.encode (h : SameClass P Q) (c : Char) :
    ∃ b bs, String.utf8EncodeChar c = b :: bs ∧ ∀ x ∈ b :: bs, P x = Q c := by
  obtain ⟨v, hbytes, hchars⟩ := h.large
  rcases utf8EncodeChar_cases c with ⟨hascii, henc⟩ | ⟨hlarge, b, bs, henc, hall⟩
  · refine ⟨_, [], henc, fun x hx => ?_⟩
    rw [List.mem_singleton.mp hx]
    exact h.ascii c hascii
  · refine ⟨b, bs, henc, fun x hx => ?_⟩
    rw [hchars c hlarge]
    exact hbytes x (hall x hx)

/-- So text is cut at the same place as its bytes. -/
theorem SameClass.takeWhile (h : SameClass P Q) (s : Str) :
    (asBytes s).takeWhile P = asBytes (s.takeWhile Q) := by
  induction s with
  | nil => rfl
  | cons c s ih =>
      obtain ⟨b, bs, henc, hall⟩ := h.encode c
      rw [asBytes_cons, henc]
      cases hc : Q c with
      | true =>
          rw [List.takeWhile_append_of_pos fun x hx => (hall x hx).trans hc, ih,
            List.takeWhile_cons_of_pos hc, asBytes_cons, henc]
      | false =>
          have hb : P b = false := (hall b List.mem_cons_self).trans hc
          rw [List.takeWhile_cons_of_neg (by simp [hc]), List.cons_append,
            List.takeWhile_cons_of_neg (by simp [hb])]
          rfl

theorem SameClass.dropWhile (h : SameClass P Q) (s : Str) :
    (asBytes s).dropWhile P = asBytes (s.dropWhile Q) := by
  have hsplit : asBytes (s.takeWhile Q) ++ (asBytes s).dropWhile P
      = asBytes (s.takeWhile Q) ++ asBytes (s.dropWhile Q) := by
    rw [← h.takeWhile, List.takeWhile_append_dropWhile, h.takeWhile, ← asBytes_append,
      List.takeWhile_append_dropWhile]
  exact List.append_cancel_left hsplit

theorem SameClass.filter (h : SameClass P Q) (s : Str) :
    (asBytes s).filter P = asBytes (s.filter Q) := by
  induction s with
  | nil => rfl
  | cons c s ih =>
      obtain ⟨b, bs, henc, hall⟩ := h.encode c
      rw [asBytes_cons, List.filter_append, ih, henc]
      cases hc : Q c with
      | true =>
          rw [List.filter_eq_self.mpr fun x hx => (hall x hx).trans hc, List.filter_cons_of_pos hc,
            asBytes_cons, henc]
      | false =>
          have hnone : (b :: bs).filter P = [] := by
            refine List.filter_eq_nil_iff.mpr fun x hx => ?_
            rw [hall x hx, hc]
            exact Bool.false_ne_true
          rw [hnone, List.filter_cons_of_neg (by simp [hc]), List.nil_append]

theorem SameClass.forall_mem (h : SameClass P Q) {s : Str} :
    (∀ b ∈ asBytes s, P b = true) ↔ ∀ c ∈ s, Q c = true := by
  constructor
  · intro hall c hc
    obtain ⟨b, bs, henc, hclass⟩ := h.encode c
    rw [← hclass b List.mem_cons_self]
    refine hall b (List.mem_flatMap.mpr ⟨c, hc, ?_⟩)
    rw [henc]
    exact List.mem_cons_self
  · intro hall b hb
    obtain ⟨c, hc, hb⟩ := List.mem_flatMap.mp hb
    obtain ⟨b', bs, henc, hclass⟩ := h.encode c
    rw [henc] at hb
    rw [hclass b hb]
    exact hall c hc

/-! ### Classes

Digits, letters, white space and single marks are all classes decided by ASCII, and
so is what is built of them by `or` and `not`.
-/

/-- One ASCII character. -/
theorem SameClass.char {d : Char} (hd : d.toNat < 0x80) :
    SameClass (· == UInt8.ofNat d.toNat) (· == d) := by
  refine ⟨fun c hc => ?_, false, fun b hb => ?_, fun c hc => ?_⟩
  · rw [Bool.eq_iff_iff, beq_iff_eq, beq_iff_eq, ← UInt8.toNat_inj, ← Char.toNat_inj,
      UInt8.toNat_ofNat', UInt8.toNat_ofNat', Nat.mod_eq_of_lt (by omega), Nat.mod_eq_of_lt (by omega)]
  · rw [beq_eq_false_iff_ne]
    rintro rfl
    rw [UInt8.toNat_ofNat'] at hb
    omega
  · rw [beq_eq_false_iff_ne]
    rintro rfl
    omega

/-- A range of ASCII. -/
theorem SameClass.range (lo hi : UInt8) (hhi : hi.toNat < 0x80) :
    SameClass (fun b => lo ≤ b && b ≤ hi) (fun c => lo.toNat ≤ c.toNat && c.toNat ≤ hi.toNat) := by
  refine ⟨fun c hc => ?_, false, fun b hb => ?_, fun c hc => ?_⟩
  · rw [Bool.eq_iff_iff, between_iff, UInt8.toNat_ofNat', Nat.mod_eq_of_lt (by omega)]
    simp
  · rw [Bool.eq_false_iff]
    intro h
    have := between_iff.mp h
    omega
  · rw [Bool.eq_false_iff]
    intro h
    simp only [Bool.and_eq_true, decide_eq_true_eq] at h
    omega

theorem SameClass.or {P' : UInt8 → Bool} {Q' : Char → Bool} (h : SameClass P Q)
    (h' : SameClass P' Q') : SameClass (fun b => P b || P' b) (fun c => Q c || Q' c) := by
  obtain ⟨v, hbytes, hchars⟩ := h.large
  obtain ⟨v', hbytes', hchars'⟩ := h'.large
  refine ⟨fun c hc => ?_, v || v', fun b hb => ?_, fun c hc => ?_⟩
  · simp only [h.ascii c hc, h'.ascii c hc]
  · simp only [hbytes b hb, hbytes' b hb]
  · simp only [hchars c hc, hchars' c hc]

theorem SameClass.not (h : SameClass P Q) : SameClass (fun b => !P b) (fun c => !Q c) := by
  obtain ⟨v, hbytes, hchars⟩ := h.large
  refine ⟨fun c hc => ?_, !v, fun b hb => ?_, fun c hc => ?_⟩
  · simp only [h.ascii c hc]
  · simp only [hbytes b hb]
  · simp only [hchars c hc]

end

/-- A text without a NUL character has no NUL byte, so C reads all of it. -/
theorem nul_notMem_asBytes {s : Str} : (0 : UInt8) ∉ asBytes s ↔ '\x00' ∉ s := by
  have hclass := (SameClass.char (d := '\x00') (by decide)).not.forall_mem (s := s)
  constructor
  · intro h hs
    have := hclass.mp (fun b hb => by simpa using fun hb0 : b = 0 => h (hb0 ▸ hb)) _ hs
    simp at this
  · intro h hs
    have := hclass.mpr (fun c hc => by simpa using fun hc0 : c = '\x00' => h (hc0 ▸ hc)) _ hs
    simp at this

end Text
