/-
What a line of the throttle file means here and in the C server.

The C server lets `sscanf` find the pattern and the numbers: it skips what white space
there is, ends a pattern at a space, at a tab or after 4900 bytes, and stops where a
number ends.  This one cuts the line at white space, takes the first two words and wants
the second to be a number, or two with a dash between, and nothing else.  Each reading
has a grammar here, and the lines that mean the same are told by comparing the two.

A grammar is a relation between a line and what is made of it, and each program is
shown to compute its grammar, in both directions (`readThrottleLine_iff`,
`parseLine_iff`).  The comparison is then of two relations, and neither program
occurs in it.
-/
import Thttpd.Proofs.Patterns

namespace Thttpd

open Text

/-! ### Cutting

A scan takes the longest beginning in a class and leaves the rest.
-/

section

variable {α : Type} {P : α → Bool} {a rest : List α}

/-- What is in the class is taken, up to what is not. -/
theorem takeWhile_append_stop (ha : ∀ x ∈ a, P x = true) (hrest : ∀ x ∈ rest.head?, P x = false) :
    (a ++ rest).takeWhile P = a := by
  rw [List.takeWhile_append_of_pos ha]
  cases rest with
  | nil => simp
  | cons x rest =>
      rw [List.takeWhile_cons_of_neg (by simp [hrest x rfl]), List.append_nil]

/-- And the rest begins with that. -/
theorem dropWhile_append_stop (ha : ∀ x ∈ a, P x = true) (hrest : ∀ x ∈ rest.head?, P x = false) :
    (a ++ rest).dropWhile P = rest := by
  rw [List.dropWhile_append_of_pos ha]
  cases rest with
  | nil => rfl
  | cons x rest => rw [List.dropWhile_cons_of_neg (by simp [hrest x rfl])]

theorem dropWhile_stops (P : α → Bool) (s : List α) : ∀ x ∈ (s.dropWhile P).head?, P x = false := by
  intro x hx
  have h := List.head?_dropWhile_not P s
  rw [hx] at h
  exact h

theorem of_mem_takeWhile {s : List α} {x : α} (h : x ∈ s.takeWhile P) : P x = true :=
  List.all_eq_true.mp List.all_takeWhile x h

end

/-! ### Numbers

Both programs read digits, the C server after white space and with a sign, this one
with a sign only.  The grammars keep the value without a bound, and whether it fits a
type is asked apart.
-/

/-- A numeral is made of digits, and of one at least. -/
theorem isdigit_iff {b : UInt8} : Legacy.isdigit b = true ↔ 48 ≤ b.toNat ∧ b.toNat ≤ 57 := by
  unfold Legacy.isdigit
  exact between_iff

theorem isDigit_byteChar (b : UInt8) : (byteChar b).isDigit = Legacy.isdigit b := by
  rw [Bool.eq_iff_iff, isdigit_iff, ← byteChar_toNat, Char.isDigit, Bool.and_eq_true,
    decide_eq_true_eq, decide_eq_true_eq]
  exact Iff.rfl

theorem isspace_iff {b : UInt8} :
    Legacy.isspace b = true ↔ b.toNat = 32 ∨ 9 ≤ b.toNat ∧ b.toNat ≤ 13 := by
  unfold Legacy.isspace
  rw [Bool.or_eq_true, between_iff, beq_iff_eq, ← UInt8.toNat_inj]
  exact Iff.rfl

/-- Digits and what they are worth, byte by byte. -/
def Digits (ds : Bytes) (n : Nat) : Prop := parseDigits (ds.map byteChar) = some n

theorem Digits.isdigit {ds : Bytes} {n : Nat} (h : Digits ds n) :
    ds ≠ [] ∧ ∀ b ∈ ds, Legacy.isdigit b = true := by
  obtain ⟨hne, hall⟩ := parseDigits_digits h
  refine ⟨fun hds => hne (by rw [hds]; rfl), fun b hb => ?_⟩
  rw [← isDigit_byteChar]
  exact hall _ (List.mem_map_of_mem hb)

/-- A number, with or without a sign. -/
inductive Numeral : Bytes → Int → Prop
  | plain {ds : Bytes} {n : Nat} : Digits ds n → Numeral ds n
  | plus {ds : Bytes} {n : Nat} : Digits ds n → Numeral (43 :: ds) n
  | minus {ds : Bytes} {n : Nat} : Digits ds n → Numeral (45 :: ds) (-n)

/-- It starts with a sign or a digit. -/
theorem Numeral.head {num : Bytes} {v : Int} (h : Numeral num v) :
    ∃ b ds, num = b :: ds ∧ (b = 43 ∨ b = 45 ∨ Legacy.isdigit b = true) := by
  cases h with
  | @plain ds n hds =>
      obtain ⟨hne, hall⟩ := hds.isdigit
      obtain ⟨b, ds, rfl⟩ := List.exists_cons_of_ne_nil hne
      exact ⟨b, ds, rfl, .inr (.inr (hall b List.mem_cons_self))⟩
  | @plus ds n hds => exact ⟨43, ds, rfl, .inl rfl⟩
  | @minus ds n hds => exact ⟨45, ds, rfl, .inr (.inl rfl)⟩

/-- So in a number there is ASCII only, no white space and no NUL. -/
theorem Numeral.mem {num : Bytes} {v : Int} (h : Numeral num v) :
    ∀ b ∈ num, 43 ≤ b.toNat ∧ b.toNat ≤ 57 := by
  have hdigits : ∀ {ds : Bytes} {n : Nat}, Digits ds n → ∀ b ∈ ds, 43 ≤ b.toNat ∧ b.toNat ≤ 57 := by
    intro ds n hds b hb
    have := isdigit_iff.mp (hds.isdigit.2 b hb)
    omega
  cases h with
  | plain hds => exact hdigits hds
  | plus hds => exact List.forall_mem_cons.mpr ⟨by decide, hdigits hds⟩
  | minus hds => exact List.forall_mem_cons.mpr ⟨by decide, hdigits hds⟩

/-- `%ld` takes `v`, after some white space, and leaves `rest`. -/
def ReadsLong (s : Bytes) (v : Int) (rest : Bytes) : Prop :=
  ∃ gap num, s = gap ++ (num ++ rest) ∧ (∀ b ∈ gap, Legacy.isspace b = true) ∧ Numeral num v ∧
    ∀ b ∈ rest.head?, Legacy.isdigit b = false

theorem scanDigits_iff {s rest : Bytes} {n : Nat} :
    Legacy.scanDigits s = some (n, rest) ↔
      ∃ ds, s = ds ++ rest ∧ Digits ds n ∧ ∀ b ∈ rest.head?, Legacy.isdigit b = false := by
  unfold Legacy.scanDigits
  constructor
  · intro h
    obtain ⟨m, hm, heq⟩ := Option.map_eq_some_iff.mp h
    cases heq
    exact ⟨_, List.takeWhile_append_dropWhile.symm, hm, dropWhile_stops _ s⟩
  · rintro ⟨ds, rfl, hds, hrest⟩
    rw [takeWhile_append_stop hds.isdigit.2 hrest, dropWhile_append_stop hds.isdigit.2 hrest]
    exact Option.map_eq_some_iff.mpr ⟨n, hds, rfl⟩

theorem scanLong_scanSpace (s : Bytes) : Legacy.scanLong (Legacy.scanSpace s) = Legacy.scanLong s := by
  have hskip : Legacy.scanSpace (Legacy.scanSpace s) = Legacy.scanSpace s :=
    List.dropWhile_idempotent _ s
  unfold Legacy.scanLong
  rw [hskip]

/-- A number at the front is read. -/
theorem scanLong_numeral {num rest : Bytes} {v : Int} (hnum : Numeral num v)
    (hrest : ∀ b ∈ rest.head?, Legacy.isdigit b = false) :
    Legacy.scanLong (num ++ rest) = some (v, rest) := by
  obtain ⟨b, ds, hb, hhead⟩ := hnum.head
  have hspace : Legacy.isspace b = false := by
    rw [Bool.eq_false_iff]
    intro hb
    have := isspace_iff.mp hb
    rcases hhead with rfl | rfl | hdigit
    · revert this
      decide
    · revert this
      decide
    · have := isdigit_iff.mp hdigit
      omega
  have hskip : Legacy.scanSpace (num ++ rest) = num ++ rest := by
    rw [hb, List.cons_append, Legacy.scanSpace, List.dropWhile_cons_of_neg (by simp [hspace])]
  unfold Legacy.scanLong
  rw [hskip]
  cases hnum with
  | @plus ds n hds =>
      rw [List.cons_append]
      simp only [scanDigits_iff.mpr ⟨ds, rfl, hds, hrest⟩, Option.map_some]
  | @minus ds n hds =>
      rw [List.cons_append]
      simp only [scanDigits_iff.mpr ⟨ds, rfl, hds, hrest⟩, Option.map_some]
  | @plain ds n hds =>
      have hdigit : Legacy.isdigit b = true := hds.isdigit.2 b (by rw [hb]; exact List.mem_cons_self)
      rw [hb, List.cons_append] at *
      split
      · rename_i heq
        rw [(List.cons.inj heq).1] at hdigit
        cases hdigit
      · rename_i heq
        rw [(List.cons.inj heq).1] at hdigit
        cases hdigit
      · have hscan := scanDigits_iff.mpr ⟨b :: ds, rfl, hds, hrest⟩
        rw [List.cons_append] at hscan
        rw [hscan]
        rfl

/--
**`%ld` has its grammar.**

White space in front is skipped, a sign may follow, and the digits go on as far as
there are any.
-/
theorem scanLong_iff {s rest : Bytes} {v : Int} :
    Legacy.scanLong s = some (v, rest) ↔ ReadsLong s v rest := by
  constructor
  · intro h
    have hs : s = s.takeWhile Legacy.isspace ++ Legacy.scanSpace s :=
      List.takeWhile_append_dropWhile.symm
    have hgap : ∀ b ∈ s.takeWhile Legacy.isspace, Legacy.isspace b = true :=
      fun b hb => of_mem_takeWhile hb
    unfold Legacy.scanLong at h
    split at h
    · rename_i heq
      obtain ⟨⟨n, s'⟩, hn, hv⟩ := Option.map_eq_some_iff.mp h
      cases hv
      obtain ⟨ds, rfl, hds, hrest⟩ := scanDigits_iff.mp hn
      rw [heq] at hs
      exact ⟨_, 45 :: ds, hs, hgap, .minus hds, hrest⟩
    · rename_i heq
      obtain ⟨⟨n, s'⟩, hn, hv⟩ := Option.map_eq_some_iff.mp h
      cases hv
      obtain ⟨ds, rfl, hds, hrest⟩ := scanDigits_iff.mp hn
      rw [heq] at hs
      exact ⟨_, 43 :: ds, hs, hgap, .plus hds, hrest⟩
    · obtain ⟨⟨n, s'⟩, hn, hv⟩ := Option.map_eq_some_iff.mp h
      cases hv
      obtain ⟨ds, hsplit, hds, hrest⟩ := scanDigits_iff.mp hn
      rw [hsplit] at hs
      exact ⟨_, ds, hs, hgap, .plain hds, hrest⟩
  · rintro ⟨gap, num, rfl, hgap, hnum, hrest⟩
    have hskip : Legacy.scanSpace (gap ++ (num ++ rest)) = Legacy.scanSpace (num ++ rest) :=
      List.dropWhile_append_of_pos hgap
    rw [← scanLong_scanSpace, hskip, scanLong_scanSpace]
    exact scanLong_numeral hnum hrest

/-! ### The grammar of the C server

`sscanf` goes through a format from the left and counts what it has converted.  The
line is tried with the longer format first, and what it comes to is whichever
converts all of its own.
-/

/-- `" %4900[^ \t]"` takes `word` and leaves `rest`. -/
structure ReadsWord (s word rest : Bytes) : Prop where
  split : ∃ gap, s = gap ++ (word ++ rest) ∧ ∀ b ∈ gap, Legacy.isspace b = true
  ne_nil : word ≠ []
  head : ∀ b ∈ word.head?, Legacy.isspace b = false
  mem : ∀ b ∈ word, b ≠ 32 ∧ b ≠ 9
  length : word.length ≤ 4900
  ended : word.length = 4900 ∨ ∀ b ∈ rest.head?, b = 32 ∨ b = 9

theorem scanWord_iff {s word rest : Bytes} :
    Legacy.scanWord (Legacy.scanSpace s) = some (word, rest) ↔ ReadsWord s word rest := by
  constructor
  · intro h
    have hs : s = s.takeWhile Legacy.isspace ++ Legacy.scanSpace s :=
      List.takeWhile_append_dropWhile.symm
    have hstop : ∀ b ∈ (Legacy.scanSpace s).head?, Legacy.isspace b = false :=
      dropWhile_stops Legacy.isspace s
    unfold Legacy.scanWord at h
    generalize Legacy.scanSpace s = t at h hs hstop
    simp only at h
    split at h
    · cases h
    · rename_i hne
      cases h
      have hpre : (t.takeWhile fun c => c != 32 && c != 9).take 4900 <+: t :=
        (List.take_prefix _ _).trans (List.takeWhile_prefix _)
      generalize hword : (t.takeWhile fun c => c != 32 && c != 9).take 4900 = word at hne hpre
      obtain ⟨rest, rfl⟩ := hpre
      rw [List.drop_left]
      refine ⟨⟨_, hs, fun b hb => of_mem_takeWhile hb⟩, hne, fun b hb => hstop b ?_, ?_, ?_, ?_⟩
      · rw [List.head?_append, hb]
        rfl
      · intro b hb
        rw [← hword] at hb
        have hb := of_mem_takeWhile (List.mem_of_mem_take hb)
        simpa using hb
      · rw [← hword]
        exact List.length_take_le _ _
      · by_cases hlong : 4900 ≤ ((word ++ rest).takeWhile fun c => c != 32 && c != 9).length
        · left
          rw [← hword, List.length_take, Nat.min_eq_left hlong]
        · right
          rw [List.take_of_length_le (by omega)] at hword
          have hrest := dropWhile_stops (fun c : UInt8 => c != 32 && c != 9) (word ++ rest)
          have hdrop : (word ++ rest).dropWhile (fun c => c != 32 && c != 9) = rest := by
            have hcut := List.takeWhile_append_dropWhile (p := fun c : UInt8 => c != 32 && c != 9)
              (l := word ++ rest)
            rw [hword] at hcut
            exact List.append_cancel_left hcut
          rw [hdrop] at hrest
          intro b hb
          have := hrest b hb
          simpa [or_iff_not_imp_left] using this
  · rintro ⟨⟨gap, rfl, hgap⟩, hne, hhead, hmem, hlen, hend⟩
    have hskip : Legacy.scanSpace (gap ++ (word ++ rest)) = word ++ rest := by
      refine dropWhile_append_stop hgap fun b hb => hhead b ?_
      rwa [List.head?_append_of_ne_nil _ hne] at hb
    have hall : ∀ b ∈ word, (b != 32 && b != 9) = true := fun b hb => by simpa using hmem b hb
    have htake : ((word ++ rest).takeWhile fun c => c != 32 && c != 9).take 4900 = word := by
      rcases hend with hfull | hend
      · rw [List.takeWhile_append_of_pos hall, ← hfull, List.take_left]
      · have hstop : ∀ b ∈ rest.head?, (b != 32 && b != 9) = false := by
          intro b hb
          rcases hend b hb with rfl | rfl
          · rfl
          · rfl
        rw [takeWhile_append_stop hall hstop, List.take_of_length_le hlen]
    unfold Legacy.scanWord
    rw [hskip]
    simp only [htake, if_neg hne, List.drop_left]

/--
What `sscanf` makes of a line: the form with two numbers if it converts all of it,
else the form with one.
-/
inductive ReadsRule : Bytes → Bytes → Int → Int → Prop
  | minMax {s word s₁ s₂ s₃ : Bytes} {lo hi : Int} : ReadsWord s word s₁ →
      ReadsLong s₁ lo (45 :: s₂) → ReadsLong s₂ hi s₃ → ReadsRule s word lo hi
  | max {s word s₁ s₂ : Bytes} {hi : Int} : ReadsWord s word s₁ → ReadsLong s₁ hi s₂ →
      (∀ s₃ v s₄, s₂ = 45 :: s₃ → ¬ ReadsLong s₃ v s₄) → ReadsRule s word 0 hi

theorem scanByte_iff {c : UInt8} {s rest : Bytes} :
    Legacy.scanByte c s = some rest ↔ s = c :: rest := by
  cases s with
  | nil => simp [Legacy.scanByte]
  | cons b s =>
      unfold Legacy.scanByte
      by_cases hb : b = c
      · simp [hb]
      · simp [hb]

/-- The form with two numbers. -/
theorem scanMinMax_iff {s word : Bytes} {lo hi : Int} :
    Legacy.scanMinMax s = some (word, lo, hi) ↔ ∃ s₁ s₂ s₃, ReadsWord s word s₁ ∧
      ReadsLong s₁ lo (45 :: s₂) ∧ ReadsLong s₂ hi s₃ := by
  unfold Legacy.scanMinMax
  constructor
  · intro h
    obtain ⟨⟨word', s₁⟩, hword, h⟩ := Option.bind_eq_some_iff.mp h
    obtain ⟨⟨lo', s₂⟩, hlo, h⟩ := Option.bind_eq_some_iff.mp h
    obtain ⟨s₂', hdash, h⟩ := Option.bind_eq_some_iff.mp h
    obtain ⟨⟨hi', s₃⟩, hhi, h⟩ := Option.bind_eq_some_iff.mp h
    cases h
    rw [scanLong_scanSpace] at hlo
    rw [scanByte_iff.mp hdash] at hlo
    exact ⟨s₁, s₂', s₃, scanWord_iff.mp hword, scanLong_iff.mp hlo, scanLong_iff.mp hhi⟩
  · rintro ⟨s₁, s₂, s₃, hword, hlo, hhi⟩
    have hlo := scanLong_iff.mpr hlo
    rw [← scanLong_scanSpace] at hlo
    refine Option.bind_eq_some_iff.mpr ⟨_, scanWord_iff.mpr hword, ?_⟩
    refine Option.bind_eq_some_iff.mpr ⟨_, hlo, ?_⟩
    refine Option.bind_eq_some_iff.mpr ⟨_, scanByte_iff.mpr rfl, ?_⟩
    exact Option.bind_eq_some_iff.mpr ⟨_, scanLong_iff.mpr hhi, rfl⟩

/-- The form with one. -/
theorem scanMax_iff {s word : Bytes} {lo hi : Int} :
    Legacy.scanMax s = some (word, lo, hi) ↔ lo = 0 ∧ ∃ s₁ s₂, ReadsWord s word s₁ ∧
      ReadsLong s₁ hi s₂ := by
  unfold Legacy.scanMax
  constructor
  · intro h
    obtain ⟨⟨word', s₁⟩, hword, h⟩ := Option.bind_eq_some_iff.mp h
    obtain ⟨⟨hi', s₂⟩, hhi, h⟩ := Option.bind_eq_some_iff.mp h
    cases h
    rw [scanLong_scanSpace] at hhi
    exact ⟨rfl, s₁, s₂, scanWord_iff.mp hword, scanLong_iff.mp hhi⟩
  · rintro ⟨rfl, s₁, s₂, hword, hhi⟩
    have hhi := scanLong_iff.mpr hhi
    rw [← scanLong_scanSpace] at hhi
    refine Option.bind_eq_some_iff.mpr ⟨_, scanWord_iff.mpr hword, ?_⟩
    exact Option.bind_eq_some_iff.mpr ⟨_, hhi, rfl⟩

/--
**A line is read by its grammar.**

Two scans are tried, the one with a minimum first, and a line that fits both is read
by the first.
-/
theorem readThrottleLine_iff {buf pattern : Bytes} {lo hi : Int} :
    Legacy.readThrottleLine buf = some (pattern, lo, hi) ↔
      ∃ word, ReadsRule (Legacy.cString buf) word lo hi ∧ pattern = Legacy.storedPattern word := by
  unfold Legacy.readThrottleLine
  simp only
  generalize Legacy.cString buf = s
  constructor
  · intro h
    obtain ⟨⟨word, lo', hi'⟩, hscan, heq⟩ := Option.map_eq_some_iff.mp h
    cases heq
    refine ⟨word, ?_, rfl⟩
    cases hboth : Legacy.scanMinMax s with
    | some rule =>
        rw [hboth] at hscan
        cases hscan
        obtain ⟨s₁, s₂, s₃, hword, hlo, hhi⟩ := scanMinMax_iff.mp hboth
        exact .minMax hword hlo hhi
    | none =>
        rw [hboth] at hscan
        obtain ⟨rfl, s₁, s₂, hword, hhi⟩ := scanMax_iff.mp hscan
        refine .max hword hhi fun s₃ v s₄ hdash hv => ?_
        rw [hdash] at hhi
        rw [scanMinMax_iff.mpr ⟨s₁, s₃, s₄, hword, hhi, hv⟩] at hboth
        cases hboth
  · rintro ⟨word, h, rfl⟩
    refine Option.map_eq_some_iff.mpr ⟨(word, lo, hi), ?_, rfl⟩
    cases h with
    | minMax hword hlo hhi =>
        rw [scanMinMax_iff.mpr ⟨_, _, _, hword, hlo, hhi⟩]
        rfl
    | max hword hhi hnot =>
        cases hboth : Legacy.scanMinMax s with
        | none => exact scanMax_iff.mpr ⟨rfl, _, _, hword, hhi⟩
        | some rule =>
            obtain ⟨s₁, s₂, s₃, hword', hlo', hhi'⟩ := scanMinMax_iff.mp hboth
            cases (scanWord_iff.mpr hword).symm.trans (scanWord_iff.mpr hword')
            cases (scanLong_iff.mpr hhi).symm.trans (scanLong_iff.mpr hlo')
            exact absurd hhi' (hnot _ _ _ rfl)

/--
The rule a line makes in the C server: the numbers are `long`, and the pattern is no
bare slash.
-/
structure LegacyRule (s word : Bytes) (lo hi : Int) : Prop where
  reads : ReadsRule (Legacy.cString s) word lo hi
  named : word ≠ [47]
  fitsLo : i64Min ≤ lo ∧ lo ≤ i64Max
  fitsHi : i64Min ≤ hi ∧ hi ≤ i64Max

theorem ReadsRule.word {s word : Bytes} {lo hi : Int} (h : ReadsRule s word lo hi) :
    ∃ rest v rest', ReadsWord s word rest ∧ ReadsLong rest v rest' := by
  cases h with
  | minMax hword hlo hhi => exact ⟨_, _, _, hword, hlo⟩
  | max hword hhi hnot => exact ⟨_, _, _, hword, hhi⟩

theorem throttleRule_iff {s pattern : Bytes} {lo hi : Int} :
    Legacy.throttleRule s = some (pattern, lo, hi) ↔
      ∃ word, LegacyRule s word lo hi ∧ pattern = Legacy.storedPattern word := by
  unfold Legacy.throttleRule
  rw [Option.filter_eq_some_iff, readThrottleLine_iff]
  simp only [decide_eq_true_eq]
  constructor
  · rintro ⟨⟨word, hreads, rfl⟩, hne, hlo, hhi⟩
    refine ⟨word, ⟨hreads, ?_, hlo, hhi⟩, rfl⟩
    rintro rfl
    exact hne (by decide)
  · rintro ⟨word, ⟨hreads, hnamed, hlo, hhi⟩, rfl⟩
    refine ⟨⟨word, hreads, rfl⟩, ?_, hlo, hhi⟩
    obtain ⟨_, _, _, hword, -⟩ := hreads.word
    rw [Ne, storedPattern_eq_nil]
    exact not_or.mpr ⟨hword.ne_nil, hnamed⟩

/-- No rule is made of a line that has not the form. -/
theorem throttleRule_eq_none_iff {s : Bytes} :
    Legacy.throttleRule s = none ↔ ¬ ∃ word lo hi, LegacyRule s word lo hi := by
  rw [Option.eq_none_iff_forall_ne_some]
  constructor
  · rintro h ⟨word, lo, hi, hrule⟩
    exact h _ (throttleRule_iff.mpr ⟨word, hrule, rfl⟩)
  · rintro h ⟨pattern, lo, hi⟩ hsome
    obtain ⟨word, hrule, -⟩ := throttleRule_iff.mp hsome
    exact h ⟨word, lo, hi, hrule⟩

/-! ### The grammar of this server

A pattern, white space, a rate, and then nothing or anything behind more white
space.
-/

/--
A rate: the larger limit alone, or both with a dash between; the first number has no
dash of its own.
-/
inductive Rate : Str → Int → Int → Prop
  | max {num : Str} {hi : Int} : '-' ∉ num → parseI64 num = some hi → Rate num 0 hi
  | minMax {num num' : Str} {lo hi : Int} : '-' ∉ num → parseI64 num = some lo →
      parseI64 num' = some hi → Rate (num ++ '-' :: num') lo hi

/--
A rule line: a pattern that is not all slashes, white space, a rate, and after it
nothing or anything that starts with white space.
-/
structure RuleLine (line pattern gap rate tail : Str) (lo hi : Int) : Prop where
  split : line = pattern ++ (gap ++ (rate ++ tail))
  unbroken : ∀ c ∈ pattern, isWhitespace c = false
  named : ∃ c ∈ pattern, c ≠ '/'
  gap_ne_nil : gap ≠ []
  gap_white : ∀ c ∈ gap, isWhitespace c = true
  rate : Rate rate lo hi
  ended : ∀ c ∈ tail.head?, isWhitespace c = true

/-- What is parsed is a number, in bytes. -/
theorem numeral_of_parseI64 {num : Str} {v : Int} (h : parseI64 num = some v) :
    Numeral (asBytes num) v := by
  have hascii : ∀ {ds : Str} {n : Nat}, parseDigits ds = some n → Digits (asBytes ds) n := by
    intro ds n hds
    have hsmall : ∀ c ∈ ds, c.toNat < 0x80 := by
      intro c hc
      have hdigit := (parseDigits_digits hds).2 c hc
      simp only [Char.isDigit, Bool.and_eq_true, decide_eq_true_eq] at hdigit
      have : c.toNat ≤ 57 := hdigit.2
      omega
    unfold Digits
    rw [map_byteChar_asBytes hsmall]
    exact hds
  have hrange : ∀ {n w : Int}, inRange i64Min i64Max n = some w → w = n := by
    intro n w hw
    unfold inRange at hw
    split at hw
    · cases hw
      rfl
    · cases hw
  unfold parseI64 parseInt at h
  split at h
  · obtain ⟨n, hn, h⟩ := Option.bind_eq_some_iff.mp h
    rw [hrange h]
    exact .minus (hascii hn)
  · obtain ⟨n, hn, h⟩ := Option.bind_eq_some_iff.mp h
    rw [hrange h]
    exact .plus (hascii hn)
  · obtain ⟨n, hn, h⟩ := Option.bind_eq_some_iff.mp h
    rw [hrange h]
    exact .plain (hascii hn)

theorem Rate.chars {rate : Str} {lo hi : Int} (h : Rate rate lo hi) :
    rate ≠ [] ∧ ∀ c ∈ rate, 43 ≤ c.toNat ∧ c.toNat ≤ 57 := by
  cases h with
  | max hdash hnum => exact parseI64_chars hnum
  | @minMax num num' _ _ hdash hlo hhi =>
      refine ⟨List.append_ne_nil_of_right_ne_nil num (List.cons_ne_nil _ _), ?_⟩
      rw [List.forall_mem_append, List.forall_mem_cons]
      exact ⟨(parseI64_chars hlo).2, by decide, (parseI64_chars hhi).2⟩

theorem Rate.unbroken {rate : Str} {lo hi : Int} (h : Rate rate lo hi) :
    ∀ c ∈ rate, isWhitespace c = false := by
  intro c hc
  have := h.chars.2 c hc
  simp only [isWhitespace, Bool.or_eq_false_iff, Bool.and_eq_false_iff, decide_eq_false_iff_not,
    beq_eq_false_iff_ne]
  omega

theorem Rate.fits {rate : Str} {lo hi : Int} (h : Rate rate lo hi) :
    (i64Min ≤ lo ∧ lo ≤ i64Max) ∧ i64Min ≤ hi ∧ hi ≤ i64Max := by
  cases h with
  | max hdash hhi => exact ⟨by decide, parseI64_range hhi⟩
  | minMax hdash hlo hhi => exact ⟨parseI64_range hlo, parseI64_range hhi⟩

theorem trim_eq_self {s : Str} (h : ∀ c ∈ s, isWhitespace c = false) : trim s = s :=
  trim_of_ends (fun c hc => h c (List.mem_of_mem_head? hc))
    fun c hc => h c (List.mem_of_mem_getLast? hc)

/--
**A rate is read by its grammar.**

A dash divides the two numbers, so the minimum cannot have a sign of its own.
-/
theorem parseRates_iff {rates : Str} {lo hi : Int} (h : ∀ c ∈ rates, isWhitespace c = false) :
    parseRates rates = some (lo, hi) ↔ Rate rates lo hi := by
  unfold parseRates
  by_cases hdash : '-' ∈ rates
  · obtain ⟨num, num', rfl, hfirst⟩ := List.eq_append_cons_of_mem hdash
    have hnum : trim num = num := trim_eq_self fun c hc => h c (by simp [hc])
    have hnum' : trim num' = num' := trim_eq_self fun c hc => h c (by simp [hc])
    rw [splitOnce_append hfirst]
    simp only [hnum, hnum']
    constructor
    · intro hrates
      obtain ⟨lo', hlo, hrates⟩ := Option.bind_eq_some_iff.mp hrates
      obtain ⟨hi', hhi, hrates⟩ := Option.bind_eq_some_iff.mp hrates
      cases hrates
      exact .minMax hfirst hlo hhi
    · intro hrate
      generalize hrates : num ++ '-' :: num' = rates at hrate hdash
      cases hrate with
      | max hnot _ => exact absurd hdash hnot
      | minMax hfirst' hlo hhi =>
          have hsame := splitOnce_append hfirst num'
          rw [hrates, splitOnce_append hfirst'] at hsame
          cases hsame
          simp [hlo, hhi]
  · rw [splitOnce_eq_none hdash]
    constructor
    · intro hrates
      obtain ⟨hi', hhi, hrates⟩ := Option.bind_eq_some_iff.mp hrates
      cases hrates
      exact .max hdash hhi
    · intro hrate
      cases hrate with
      | max _ hhi => simp [hhi]
      | minMax _ _ _ => simp at hdash

theorem splitPattern_iff {line pattern rest : Str} (h : line.head? ≠ some '"') :
    splitPattern line = some (pattern, rest) ↔
      ∃ c after, line = pattern ++ c :: after ∧ (∀ d ∈ pattern, isWhitespace d = false) ∧
        isWhitespace c = true ∧ rest = trimStart after := by
  have hunquoted : splitPattern line =
      if line.dropWhile (fun c => !isWhitespace c) = [] then none
      else some (trim (line.takeWhile fun c => !isWhitespace c),
        trimStart (line.dropWhile fun c => !isWhitespace c).tail) := by
    unfold splitPattern
    split
    · exact absurd rfl h
    · cases line.dropWhile fun c => !isWhitespace c with
      | nil => rfl
      | cons c rest => rfl
  have hword : ∀ d ∈ line.takeWhile fun d => !isWhitespace d, isWhitespace d = false :=
    fun d hd => by simpa using of_mem_takeWhile hd
  rw [hunquoted]
  constructor
  · intro hsplit
    split at hsplit
    · cases hsplit
    · rename_i hne
      obtain ⟨c, after, hafter⟩ := List.exists_cons_of_ne_nil hne
      rw [trim_eq_self hword, hafter] at hsplit
      cases hsplit
      have hc := dropWhile_stops (fun d => !isWhitespace d) line c (by rw [hafter]; rfl)
      refine ⟨c, after, ?_, hword, by simpa using hc, rfl⟩
      rw [← hafter, List.takeWhile_append_dropWhile]
  · rintro ⟨c, after, rfl, hunbroken, hc, rfl⟩
    have hin : ∀ d ∈ pattern, (!isWhitespace d) = true := fun d hd => by simp [hunbroken d hd]
    have hout : ∀ d ∈ (c :: after).head?, (!isWhitespace d) = false := by
      intro d hd
      cases hd
      simp [hc]
    rw [takeWhile_append_stop hin hout, dropWhile_append_stop hin hout, trim_eq_self hunbroken,
      if_neg (List.cons_ne_nil c after), List.tail_cons]

/--
**A line is read by its grammar.**

A line that begins with a quote is taken apart in another way and is left out here.
-/
theorem parseLine_iff {line : Str} {e : ThrottleEntry} (h : line.head? ≠ some '"') :
    parseLine line = some e ↔ ∃ pattern gap rate tail lo hi,
      RuleLine line pattern gap rate tail lo hi ∧ e = ThrottleEntry.new (keptPattern pattern) hi lo := by
  unfold parseLine
  constructor
  · intro hline
    obtain ⟨⟨pattern, rest⟩, hsplit, hrest⟩ := Option.bind_eq_some_iff.mp hline
    obtain ⟨⟨lo, hi⟩, hrates, hentry⟩ := Option.bind_eq_some_iff.mp hrest
    obtain ⟨c, after, rfl, hunbroken, hc, rfl⟩ := (splitPattern_iff h).mp hsplit
    have hword : ∀ d ∈ (trimStart after).takeWhile fun d => !isWhitespace d, isWhitespace d = false :=
      fun d hd => by simpa using of_mem_takeWhile hd
    rw [trim_eq_self hword, parseRates_iff hword] at hrates
    by_cases hempty : keptPattern pattern = []
    · simp only [if_pos hempty] at hentry
      cases hentry
    · simp only [if_neg hempty] at hentry
      cases hentry
      refine ⟨pattern, c :: after.takeWhile isWhitespace, _,
        (trimStart after).dropWhile fun d => !isWhitespace d, lo, hi, ⟨?_, hunbroken, ?_,
          List.cons_ne_nil _ _, ?_, hrates, ?_⟩, rfl⟩
      · rw [List.takeWhile_append_dropWhile]
        simp [trimStart]
      · rw [keptPattern_eq_nil] at hempty
        simpa using hempty
      · exact List.forall_mem_cons.mpr ⟨hc, fun d hd => of_mem_takeWhile hd⟩
      · intro d hd
        simpa using dropWhile_stops _ _ d hd
  · rintro ⟨pattern, gap, rate, tail, lo, hi, hrule, rfl⟩
    obtain ⟨c, gap, rfl⟩ := List.exists_cons_of_ne_nil hrule.gap_ne_nil
    have hne := hrule.rate.chars.1
    have hunbroken := hrule.rate.unbroken
    have hgap := List.forall_mem_cons.mp hrule.gap_white
    have hsplit : splitPattern line = some (pattern, rate ++ tail) := by
      refine (splitPattern_iff h).mpr ⟨c, gap ++ (rate ++ tail), hrule.split, hrule.unbroken,
        hgap.1, ?_⟩
      symm
      refine dropWhile_append_stop hgap.2 fun d hd => hunbroken d ?_
      rw [List.head?_append_of_ne_nil _ hne] at hd
      exact List.mem_of_mem_head? hd
    have hword : (rate ++ tail).takeWhile (fun d => !isWhitespace d) = rate :=
      takeWhile_append_stop (fun d hd => by simp [hunbroken d hd])
        fun d hd => by simp [hrule.ended d hd]
    have hempty : keptPattern pattern ≠ [] := by
      rw [Ne, keptPattern_eq_nil]
      simpa using hrule.named
    refine Option.bind_eq_some_iff.mpr ⟨_, hsplit, ?_⟩
    simp only [hword, trim_eq_self hunbroken, (parseRates_iff hunbroken).mpr hrule.rate]
    exact if_neg hempty

/-! ### Where the two agree

The same parts have to be found, so the line has no white space in front, its
pattern is not cut at 4900 bytes, the gap is white space that C knows, and the
numbers fit in both.
-/

/--
What a rule line has to keep to so that the C server finds the same parts in it, and
keeps the same pattern.
-/
structure ReadAlike (pattern gap : Str) : Prop where
  noNul : '\x00' ∉ pattern
  length : (asBytes pattern).length ≤ 4900
  ended : (asBytes pattern).length = 4900 ∨ gap.head? = some ' ' ∨ gap.head? = some '\t'
  ascii : ∀ c ∈ gap, c.toNat < 0x80
  slashes : ∀ a ∈ pattern.splitOn '|', ¬ ['/', '/'] <+: a

/-- The bytes of white space are blanks or lie above ASCII. -/
theorem white_bytes {c : Char} (h : isWhitespace c = true) {b : UInt8}
    (hb : b ∈ String.utf8EncodeChar c) :
    Legacy.isspace b = true ∧ c.toNat < 0x80 ∨ 0x80 ≤ b.toNat ∧ 0x80 ≤ c.toNat := by
  rcases utf8EncodeChar_cases c with ⟨hascii, henc⟩ | ⟨hlarge, b', bs, henc, hall⟩
  · left
    rw [henc, List.mem_singleton] at hb
    refine ⟨isspace_iff.mpr ?_, hascii⟩
    rw [hb, UInt8.toNat_ofNat', Nat.mod_eq_of_lt (by omega)]
    simp only [isWhitespace, Bool.or_eq_true, Bool.and_eq_true, decide_eq_true_eq, beq_iff_eq] at h
    omega
  · rw [henc] at hb
    exact .inr ⟨hall b hb, hlarge⟩

/-- And those of anything else are none. -/
theorem not_isspace_of_unbroken {s : Str} (h : ∀ c ∈ s, isWhitespace c = false) :
    ∀ b ∈ asBytes s, Legacy.isspace b = false := by
  intro b hb
  rw [Bool.eq_false_iff]
  intro hspace
  rw [isspace_iff] at hspace
  obtain ⟨c, hc, hb⟩ := List.mem_flatMap.mp hb
  rcases utf8EncodeChar_cases c with ⟨hascii, henc⟩ | ⟨hlarge, b', bs, henc, hall⟩
  · rw [henc, List.mem_singleton] at hb
    rw [hb, UInt8.toNat_ofNat', Nat.mod_eq_of_lt (by omega)] at hspace
    have hc := h c hc
    simp only [isWhitespace, Bool.or_eq_false_iff, Bool.and_eq_false_iff, decide_eq_false_iff_not,
      beq_eq_false_iff_ne] at hc
    omega
  · rw [henc] at hb
    have := hall b hb
    omega

theorem cString_append {a : Bytes} (h : (0 : UInt8) ∉ a) (b : Bytes) :
    Legacy.cString (a ++ b) = a ++ Legacy.cString b :=
  List.takeWhile_append_of_pos fun x hx => by simpa using fun hx0 : x = 0 => h (hx0 ▸ hx)

section

variable {line pattern gap rate tail : Str} {lo hi : Int}

theorem RuleLine.bytes_ne_nil (h : RuleLine line pattern gap rate tail lo hi) :
    asBytes pattern ≠ [] := by
  obtain ⟨c, hc, -⟩ := h.named
  intro hnil
  rw [asBytes_inj (t := []) |>.mp hnil] at hc
  cases hc

/-- Up to its tail a rule line has no NUL but in the pattern. -/
theorem RuleLine.cString (h : RuleLine line pattern gap rate tail lo hi) (hnul : '\x00' ∉ pattern) :
    Legacy.cString (asBytes line)
      = asBytes pattern ++ (asBytes gap ++ (asBytes rate ++ Legacy.cString (asBytes tail))) := by
  have hgap : '\x00' ∉ gap := fun hmem => absurd (h.gap_white _ hmem) (by decide)
  have hrate : '\x00' ∉ rate := fun hmem => absurd (h.rate.chars.2 _ hmem) (by decide)
  rw [h.split, asBytes_append, asBytes_append, asBytes_append,
    cString_append (nul_notMem_asBytes.mpr hnul), cString_append (nul_notMem_asBytes.mpr hgap),
    cString_append (nul_notMem_asBytes.mpr hrate)]

/-- What follows the rate is no digit and no dash. -/
theorem RuleLine.tail_stops (h : RuleLine line pattern gap rate tail lo hi) :
    ∀ b ∈ (Legacy.cString (asBytes tail)).head?, Legacy.isdigit b = false ∧ b ≠ 45 := by
  intro b hb
  rw [Legacy.cString, List.head?_takeWhile] at hb
  obtain ⟨hb, -⟩ := Option.filter_eq_some_iff.mp hb
  obtain ⟨c, hc, hb⟩ := exists_head?_of_asBytes hb
  have hbyte : b.toNat ≤ 32 ∨ 0x80 ≤ b.toNat := by
    rcases white_bytes (h.ended c hc) hb with ⟨hspace, -⟩ | ⟨hlarge, -⟩
    · have := isspace_iff.mp hspace
      omega
    · exact .inr hlarge
  constructor
  · rw [Bool.eq_false_iff, Ne, isdigit_iff]
    omega
  · rintro rfl
    revert hbyte
    decide

/--
**Such a rule line makes the same rule in the C server.**

The white space of the gap and the digits of the rate are ASCII in such a line, so
that what the one reads as characters the other reads as bytes.
-/
theorem RuleLine.legacyRule (h : RuleLine line pattern gap rate tail lo hi)
    (halike : ReadAlike pattern gap) : LegacyRule (asBytes line) (asBytes pattern) lo hi := by
  have hstops := h.tail_stops
  have hpattern := not_isspace_of_unbroken h.unbroken
  have hgap : ∀ b ∈ asBytes gap, Legacy.isspace b = true := by
    intro b hb
    obtain ⟨c, hc, hb⟩ := List.mem_flatMap.mp hb
    rcases white_bytes (h.gap_white c hc) hb with ⟨hspace, -⟩ | ⟨-, hlarge⟩
    · exact hspace
    · have := halike.ascii c hc
      omega
  have hword : ∀ rest, ReadsWord (asBytes pattern ++ (asBytes gap ++ rest)) (asBytes pattern)
      (asBytes gap ++ rest) := by
    intro rest
    refine ⟨⟨[], rfl, by simp⟩, ?_, fun b hb => hpattern b (List.mem_of_mem_head? hb), ?_,
      halike.length, ?_⟩
    · exact h.bytes_ne_nil
    · intro b hb
      have hb := hpattern b hb
      constructor
      · rintro rfl
        cases hb
      · rintro rfl
        cases hb
    · refine halike.ended.imp_right fun hhead b hb => ?_
      obtain ⟨c, gap, rfl⟩ := List.exists_cons_of_ne_nil h.gap_ne_nil
      rcases hhead with hhead | hhead
      · cases hhead
        cases hb
        exact .inl rfl
      · cases hhead
        cases hb
        exact .inr rfl
  refine ⟨?_, ?_, h.rate.fits.1, h.rate.fits.2⟩
  · rw [h.cString halike.noNul]
    cases h.rate with
    | max hdash hhi =>
        refine .max (hword _) ⟨_, _, rfl, hgap, numeral_of_parseI64 hhi, fun b hb => (hstops b hb).1⟩ ?_
        intro s₃ v s₄ hdash
        exact absurd rfl (hstops 45 (by rw [hdash]; rfl)).2
    | @minMax num num' _ _ hdash hlo hhi =>
        have hparts : asBytes (num ++ '-' :: num') ++ Legacy.cString (asBytes tail)
            = asBytes num ++ (45 :: (asBytes num' ++ Legacy.cString (asBytes tail))) := by
          rw [asBytes_append, List.append_assoc]
          rfl
        refine .minMax (hword _) ⟨_, asBytes num, by rw [hparts, List.nil_append], hgap, numeral_of_parseI64 hlo, ?_⟩
          ⟨[], _, rfl, by simp, numeral_of_parseI64 hhi, fun b hb => (hstops b hb).1⟩
        intro b hb
        cases hb
        rfl
  · intro hslash
    obtain ⟨c, hc, hne⟩ := h.named
    rw [asBytes_inj (t := ['/']) |>.mp hslash, List.mem_singleton] at hc
    exact hne hc

/-- A number starts with a blank, a sign or a digit. -/
theorem ReadsLong.head {s rest : Bytes} {v : Int} (h : ReadsLong s v rest) :
    ∃ b t, s = b :: t ∧ b ≠ 47 := by
  obtain ⟨gap, num, rfl, hgap, hnum, -⟩ := h
  cases gap with
  | nil =>
      obtain ⟨b, ds, rfl, -⟩ := hnum.head
      refine ⟨b, ds ++ rest, rfl, ?_⟩
      obtain ⟨b', ds', heq, hb⟩ := hnum.head
      cases heq
      rintro rfl
      revert hb
      decide
  | cons b gap =>
      refine ⟨b, gap ++ (num ++ rest), rfl, ?_⟩
      rintro rfl
      exact absurd (hgap 47 List.mem_cons_self) (by decide)

theorem RuleLine.cString_prefix (h : RuleLine line pattern gap rate tail lo hi) :
    Legacy.cString (asBytes line) <+: asBytes pattern ++ asBytes (gap ++ (rate ++ tail)) := by
  rw [← asBytes_append, ← h.split]
  exact List.takeWhile_prefix _

/-- No white space stands before the word in the C server either. -/
theorem RuleLine.word_prefix (h : RuleLine line pattern gap rate tail lo hi) {word rest : Bytes}
    (hword : ReadsWord (Legacy.cString (asBytes line)) word rest) :
    Legacy.cString (asBytes line) = word ++ rest := by
  obtain ⟨skipped, hsplit, hskipped⟩ := hword.split
  cases skipped with
  | nil => exact hsplit
  | cons b skipped =>
      have hpre := h.cString_prefix
      obtain ⟨b', bs, hbytes⟩ := List.exists_cons_of_ne_nil h.bytes_ne_nil
      rw [hsplit, hbytes] at hpre
      obtain ⟨rfl, -⟩ := List.cons_prefix_cons.mp hpre
      have hb := not_isspace_of_unbroken h.unbroken b (by rw [hbytes]; exact List.mem_cons_self)
      rw [hskipped b List.mem_cons_self] at hb
      cases hb

/--
**The word the C server takes is the pattern**, when both keep the same of it.

The slashes are all that either server takes out of a pattern, so without them the
two words are the same, and so are the places they end at.
-/
theorem RuleLine.word_eq (h : RuleLine line pattern gap rate tail lo hi) {word rest rest' : Bytes}
    {v : Int} (hword : ReadsWord (Legacy.cString (asBytes line)) word rest)
    (hlong : ReadsLong rest v rest') (hkept : others 47 word = others 47 (asBytes pattern)) :
    word = asBytes pattern := by
  have hpre := h.cString_prefix
  rw [h.word_prefix hword] at hpre
  rcases List.prefix_or_prefix_of_prefix ((List.prefix_append word rest).trans hpre)
    (List.prefix_append _ _) with ⟨t, ht⟩ | ⟨t, ht⟩
  · -- the pattern goes on with slashes, but a number follows the word
    rw [← ht, others_append, List.self_eq_append_right] at hkept
    by_contra hneq
    obtain ⟨t, rfl⟩ := head_of_others hkept fun hnil => hneq (by rw [← ht, hnil, List.append_nil])
    obtain ⟨b, s, rfl, hb⟩ := hlong.head
    rw [← ht, List.append_assoc, List.prefix_append_right_inj, List.cons_append] at hpre
    exact hb (List.cons_prefix_cons.mp hpre).1
  · -- the word goes on with slashes, but white space follows the pattern
    rw [← ht, others_append, List.append_right_eq_self] at hkept
    by_contra hneq
    obtain ⟨t, rfl⟩ := head_of_others hkept fun hnil => hneq (by rw [← ht, hnil, List.append_nil])
    have hpre := (List.prefix_append word rest).trans hpre
    rw [← ht, List.prefix_append_right_inj] at hpre
    obtain ⟨c, gap, rfl⟩ := List.exists_cons_of_ne_nil h.gap_ne_nil
    have hhead : (47 : UInt8) ∈ (asBytes (c :: gap ++ (rate ++ tail))).head? := by
      obtain ⟨s, hs⟩ := hpre
      rw [← hs]
      rfl
    obtain ⟨c', hc', hb⟩ := exists_head?_of_asBytes hhead
    cases hc'
    rcases white_bytes (h.gap_white c List.mem_cons_self) hb with ⟨hspace, -⟩ | ⟨hlarge, -⟩
    · cases hspace
    · revert hlarge
      decide

/-- The white space that `%ld` skips ends before the number, so it is all there is. -/
theorem RuleLine.gap_ascii (h : RuleLine line pattern gap rate tail lo hi) {more rest : Bytes} {v : Int}
    (hlong : ReadsLong (asBytes gap ++ more) v rest) : ∀ c ∈ gap, c.toNat < 0x80 := by
  have hascii : ∀ b ∈ asBytes gap, b.toNat < 0x80 := by
    obtain ⟨skipped, num, hsplit, hskipped, hnum, -⟩ := hlong
    have hblank : ∀ b ∈ skipped, b.toNat < 0x80 := by
      intro b hb
      have := isspace_iff.mp (hskipped b hb)
      omega
    rcases List.prefix_or_prefix_of_prefix (List.prefix_append (asBytes gap) more)
      (hsplit ▸ List.prefix_append skipped _) with hpre | ⟨t, ht⟩
    · exact fun b hb => hblank b (hpre.subset hb)
    · cases t with
      | nil =>
          rw [List.append_nil] at ht
          rw [← ht]
          exact hblank
      | cons b t =>
          -- a sign or a digit would stand in the gap
          obtain ⟨b', ds, rfl, hhead⟩ := hnum.head
          rw [← ht, List.append_assoc, List.append_cancel_left_eq, List.cons_append,
            List.cons_append, List.cons.injEq] at hsplit
          obtain ⟨c, hc, hb⟩ := List.mem_flatMap.mp
            (show b ∈ asBytes gap by rw [← ht]; exact List.mem_append_right _ List.mem_cons_self)
          have hbyte := white_bytes (h.gap_white c hc) hb
          rw [hsplit.1, isspace_iff] at hbyte
          rcases hhead with rfl | rfl | hdigit
          · revert hbyte
            simp
          · revert hbyte
            simp
          · have := isdigit_iff.mp hdigit
            omega
  intro c hc
  rcases utf8EncodeChar_cases c with ⟨hsmall, -⟩ | ⟨-, b, bs, henc, hall⟩
  · exact hsmall
  · have hb : b ∈ String.utf8EncodeChar c := by
      rw [henc]
      exact List.mem_cons_self
    have := hascii b (List.mem_flatMap.mpr ⟨c, hc, hb⟩)
    have := hall b List.mem_cons_self
    omega

/--
**And only such a line makes the same rule in both.**

What can differ is where the pattern ends, by a NUL, its length, or what counts as
white space, and how many slashes are taken off.
-/
theorem RuleLine.readAlike (h : RuleLine line pattern gap rate tail lo hi) {word : Bytes} {lo' hi' : Int}
    (hlegacy : LegacyRule (asBytes line) word lo' hi')
    (hkept : asBytes (keptPattern pattern) = Legacy.storedPattern word)
    (hslash : ∀ a ∈ (keptPattern pattern).splitOn '|', a.head? ≠ some '/') : ReadAlike pattern gap := by
  obtain ⟨rest, v, rest', hword, hlong⟩ := hlegacy.reads.word
  have hothers : others 47 word = others 47 (asBytes pattern) := by
    rw [← others_storedPattern, ← hkept, others_asBytes, others_keptPattern, others_asBytes]
  obtain rfl := h.word_eq hword hlong hothers
  have hsplit := h.word_prefix hword
  have hnul : '\x00' ∉ pattern := by
    rw [← nul_notMem_asBytes]
    intro hmem
    have hmem : (0 : UInt8) ∈ Legacy.cString (asBytes line) := by
      rw [hsplit]
      exact List.mem_append_left _ hmem
    have := of_mem_takeWhile hmem
    simp at this
  rw [h.cString hnul, List.append_cancel_left_eq] at hsplit
  rw [← hsplit] at hlong
  refine ⟨hnul, hword.length, ?_, h.gap_ascii hlong, (keptPattern_agrees_iff pattern).mp ⟨hkept, hslash⟩⟩
  refine hword.ended.imp_right fun hhead => ?_
  rw [← hsplit] at hhead
  obtain ⟨c, gap, rfl⟩ := List.exists_cons_of_ne_nil h.gap_ne_nil
  have hclass := (SameClass.char (d := ' ') (by decide)).or (SameClass.char (d := '\t') (by decide))
  obtain ⟨b, bs, henc, hall⟩ := hclass.encode c
  have hb : b = 32 ∨ b = 9 := hhead b (by rw [asBytes_cons, henc]; rfl)
  have hc : (c == ' ' || c == '\t') = true := by
    rw [← hall b List.mem_cons_self]
    rcases hb with rfl | rfl
    · rfl
    · rfl
  simpa using hc

end

/-! ### Lines

A line that makes no rule in either server means the same in both, whatever it
holds.
-/

/--
The line makes the same rule in both servers, or none in either, and no alternative
of its pattern starts with a slash.
-/
def SameRule (line : Str) : Prop :=
  (parseLine line).map (fun e => (asBytes e.pattern, e.minLimit, e.maxLimit))
    = Legacy.throttleRule (asBytes line) ∧
  ∀ e, parseLine line = some e → ∀ a ∈ e.pattern.splitOn '|', a.head? ≠ some '/'

/--
**A line without quotes means the same in both servers exactly when it is a rule
line that the C server takes apart in the same places, or has the form of a rule in
neither.**

The condition is about the text of the line: where it is divided, what stands in the
gap, and how its alternatives begin.
-/
theorem throttle_line_means_same_iff {line : Str} (h : '"' ∉ line) :
    SameRule line ↔
      (∃ pattern gap rate tail lo hi, RuleLine line pattern gap rate tail lo hi ∧ ReadAlike pattern gap) ∨
      ((¬ ∃ pattern gap rate tail lo hi, RuleLine line pattern gap rate tail lo hi) ∧
        ¬ ∃ word lo hi, LegacyRule (asBytes line) word lo hi) := by
  have hquote : line.head? ≠ some '"' := fun hhead => h (List.mem_of_mem_head? hhead)
  constructor
  · rintro ⟨hsame, hslash⟩
    cases hparse : parseLine line with
    | none =>
        right
        rw [hparse] at hsame
        refine ⟨?_, throttleRule_eq_none_iff.mp hsame.symm⟩
        rintro ⟨pattern, gap, rate, tail, lo, hi, hrule⟩
        have := (parseLine_iff hquote).mpr ⟨pattern, gap, rate, tail, lo, hi, hrule, rfl⟩
        rw [hparse] at this
        cases this
    | some e =>
        left
        obtain ⟨pattern, gap, rate, tail, lo, hi, hrule, rfl⟩ := (parseLine_iff hquote).mp hparse
        rw [hparse] at hsame
        obtain ⟨word, hlegacy, hkept⟩ := throttleRule_iff.mp hsame.symm
        exact ⟨pattern, gap, rate, tail, lo, hi, hrule,
          hrule.readAlike hlegacy hkept (hslash _ hparse)⟩
  · rintro (⟨pattern, gap, rate, tail, lo, hi, hrule, halike⟩ | ⟨hnone, hnone'⟩)
    · have hparse := (parseLine_iff hquote).mpr ⟨pattern, gap, rate, tail, lo, hi, hrule, rfl⟩
      obtain ⟨hkept, hslash⟩ := (keptPattern_agrees_iff pattern).mpr halike.slashes
      have hlegacy := throttleRule_iff.mpr ⟨_, hrule.legacyRule halike, hkept⟩
      refine ⟨?_, ?_⟩
      · rw [hparse, hlegacy]
        rfl
      · intro e he
        rw [hparse] at he
        cases he
        exact hslash
    · have hparse : parseLine line = none := by
        rw [Option.eq_none_iff_forall_ne_some]
        intro e he
        obtain ⟨pattern, gap, rate, tail, lo, hi, hrule, -⟩ := (parseLine_iff hquote).mp he
        exact hnone ⟨pattern, gap, rate, tail, lo, hi, hrule⟩
      refine ⟨?_, ?_⟩
      · rw [hparse, throttleRule_eq_none_iff.mpr hnone']
        rfl
      · intro e he
        rw [hparse] at he
        cases he

/-- One of each. -/
theorem throttle_line_means_same_first : SameRule "/a.txt|/b 5-10".toList := by
  have hunbroken : "/a.txt|/b".toList.all (fun c => !isWhitespace c) = true := by decide
  refine (throttle_line_means_same_iff (by decide)).mpr (.inl
    ⟨"/a.txt|/b".toList, [' '], "5-10".toList, [], 5, 10, ⟨rfl, ?_, ⟨'a', by decide, by decide⟩,
      by decide, ?_, ?_, by simp⟩, ⟨by decide, by decide, .inr (.inl rfl), ?_, ?_⟩⟩)
  · exact fun c hc => by simpa using List.all_eq_true.mp hunbroken c hc
  · exact List.forall_mem_singleton.mpr rfl
  · show Rate (['5'] ++ '-' :: ['1', '0']) 5 10
    exact .minMax (by decide) (by decide) (by decide)
  · exact List.forall_mem_singleton.mpr (by decide)
  · decide

/-- A blank in front of it, and the rule is lost. -/
theorem leading_blank_loses_rule :
    '"' ∉ " *.gif 1000".toList ∧ ¬ SameRule " *.gif 1000".toList := by
  refine ⟨by decide, fun h => ?_⟩
  have hhere : parseLine " *.gif 1000".toList = none := by decide
  have hthere : Legacy.throttleRule (asBytes " *.gif 1000".toList) ≠ none := by decide +kernel
  have hsame := h.1
  rw [hhere] at hsame
  exact hthere hsame.symm

end Thttpd
