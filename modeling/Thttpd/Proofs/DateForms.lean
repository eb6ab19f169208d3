/-
The three forms of an HTTP date.

A moment written in any of the three forms is read back as its seconds, whatever word
stands for the day of the week: nothing reads that word.  So a formatted timestamp comes
back as itself, although the day of the week in it is never the right one.  And a date is
read without an overflow unless its day is 0, which a day of the calendar is not.

A date is written as words and numbers with separators between them, and read by
cutting at the separators again.  So for each form there are three facts: the text
has so many parts at white space, the parts are read back as the fields, and the
fields are a date the arithmetic takes.  The separators differ, and the second form
is cut at commas too; what stands between two of them is always a single run.
-/
import Thttpd.Proofs.Calendar

namespace Thttpd

open Text Civil

/-! ### Words and numbers

Numbers are written without a sign and in two or four digits, and a parser reads any
number of digits, so leading zeros do no harm.
-/

/-- Written in two digits, a number is still read as itself. -/
theorem parseDigits_twoDigits (n : Nat) : parseDigits (twoDigits n) = some n := by
  unfold twoDigits
  split
  · rw [parseDigits_zero_cons (natStr_ne_nil n), parseDigits_natStr]
  · exact parseDigits_natStr n

theorem twoDigits_isDigit {n : Nat} {c : Char} (h : c ∈ twoDigits n) : c.isDigit = true :=
  (parseDigits_digits (parseDigits_twoDigits n)).2 c h

theorem twoDigits_ne_nil (n : Nat) : twoDigits n ≠ [] :=
  (parseDigits_digits (parseDigits_twoDigits n)).1

/-- A number is one word. -/
theorem Unbroken.of_digits {s : Str} (h : ∀ c ∈ s, c.isDigit = true) : Unbroken s := by
  intro c hc
  obtain ⟨hlo, hhi⟩ := isDigit_bounds (h c hc)
  simp only [isWhitespace, Bool.or_eq_false_iff, Bool.and_eq_false_iff, decide_eq_false_iff_not,
    beq_eq_false_iff_ne]
  omega

/-- And has nothing in it but digits. -/
theorem notMem_of_digits {s : Str} (h : ∀ c ∈ s, c.isDigit = true) {c : Char}
    (hc : c.isDigit = false) : c ∉ s := fun hmem => by
  rw [h c hmem] at hc
  cases hc

/-- A text of digits has no sign. -/
theorem parseU32_digits {s : Str} {n : Nat} (h : parseDigits s = some n) (hn : n < 4294967296) :
    parseU32 s = some n := by
  have hhead : s.head? ≠ some '+' := by
    intro hplus
    exact notMem_of_digits (parseDigits_digits h).2 (by decide) (List.mem_of_mem_head? hplus)
  unfold parseU32
  rw [if_neg hhead, h, Option.filter_some, if_pos (by simpa using hn)]

theorem parseI32_digits {s : Str} {n : Nat} (h : parseDigits s = some n) (hn : n ≤ 2147483647) :
    parseI32 s = some (n : Int) := by
  have hdigits := (parseDigits_digits h).2
  unfold parseI32 parseInt
  split
  · exact absurd (hdigits _ List.mem_cons_self) (by decide)
  · exact absurd (hdigits _ List.mem_cons_self) (by decide)
  · rw [h]
    exact if_pos ⟨by omega, by omega⟩

/-- What it is cut at is not in a word. -/
theorem runs_word {p : Char → Bool} {w : Str} (hne : w ≠ []) (hw : ∀ c ∈ w, p c = false) {c : Char}
    (hc : p c = true) (t : Str) :
    ((w ++ c :: t).splitOnP p).filter (· ≠ []) = w :: (t.splitOnP p).filter (· ≠ []) := by
  rw [runs_append hc, runs_of_none hw, if_neg hne]
  rfl

theorem splitWhitespace_word {w : Str} (hw : Unbroken w) (hne : w ≠ []) (t : Str) :
    splitWhitespace (w ++ ' ' :: t) = w :: splitWhitespace t := runs_word hne hw (by decide) t

/-- What separates the parts of the second form. -/
def isBlankOrComma (c : Char) : Bool := c == ' ' || c == ','

/-- What is one word and has no comma is a run of the second form. -/
theorem Unbroken.run {s : Str} (h : Unbroken s) (hcomma : ',' ∉ s) :
    ∀ c ∈ s, isBlankOrComma c = false := by
  intro c hc
  simp only [isBlankOrComma, Bool.or_eq_false_iff, beq_eq_false_iff_ne]
  exact ⟨fun hblank => h.noSpace (hblank ▸ hc), fun h => hcomma (h ▸ hc)⟩

/-! ### The texts

The three forms, with a word for the day of the week that can be any word of
letters.
-/

/-- A word that can stand for a day of the week. -/
structure DayName (w : Str) : Prop where
  ne_nil : w ≠ []
  unbroken : Unbroken w
  noComma : ',' ∉ w

/-- A word of letters can stand for a day of the week. -/
theorem DayName.of_letters {w : Str} (hne : w ≠ []) (h : ∀ c ∈ w, c.isAlpha = true) : DayName w := by
  have hrange : ∀ c ∈ w, 65 ≤ c.toNat ∧ c.toNat ≤ 122 := by
    intro c hc
    have hletter : (decide (c.val ≥ 'A'.val ∧ c.val ≤ 'Z'.val) ||
        (decide (c.val ≥ 'a'.val) && decide (c.val ≤ 'z'.val))) = true := h c hc
    simp only [Bool.or_eq_true, Bool.and_eq_true, decide_eq_true_eq] at hletter
    have hletter : (65 ≤ c.toNat ∧ c.toNat ≤ 90) ∨ (97 ≤ c.toNat ∧ c.toNat ≤ 122) := hletter
    omega
  refine ⟨hne, fun c hc => ?_, fun hcomma => absurd (hrange _ hcomma) (by decide)⟩
  obtain ⟨hlo, hhi⟩ := hrange c hc
  simp only [isWhitespace, Bool.or_eq_false_iff, Bool.and_eq_false_iff, decide_eq_false_iff_not,
    beq_eq_false_iff_ne]
  omega

/-- The zone is a word of letters too. -/
theorem DayName.zone : DayName "GMT".toList :=
  .of_letters (by decide) (List.all_eq_true.mp (by decide))

/-- The comma stays with the word before it. -/
theorem DayName.comma {w : Str} (hw : DayName w) : Unbroken (w ++ [',']) := by
  intro c hc
  rcases List.mem_append.mp hc with hc | hc
  · exact hw.unbroken c hc
  · rw [List.mem_singleton.mp hc]
    decide

/-- The name of the month. -/
def monthText (d : Date) : Str := monthNames.getD (d.month - 1) []

/-- Hours, minutes and seconds with colons between. -/
def timeText (m : Moment) : Str :=
  twoDigits m.hour ++ ':' :: (twoDigits m.min ++ ':' :: twoDigits m.sec)

/-- `Sun, 06 Nov 1994 08:49:37 GMT`. -/
def rfc1123Text (weekday : Str) (m : Moment) : Str :=
  weekday ++ ',' :: ' ' :: (twoDigits m.date.day ++ ' ' :: (monthText m.date ++ ' ' ::
    (intStr m.date.year ++ ' ' :: (timeText m ++ ' ' :: "GMT".toList))))

/-- `Sunday, 06-Nov-94 08:49:37 GMT`. -/
def rfc850Text (weekday : Str) (m : Moment) : Str :=
  weekday ++ ',' :: ' ' :: ((twoDigits m.date.day ++ '-' :: (monthText m.date ++ '-' ::
    twoDigits (m.date.year % 100).toNat)) ++ ' ' :: (timeText m ++ ' ' :: "GMT".toList))

/-- `Sun Nov  6 08:49:37 1994`. -/
def asctimeText (weekday : Str) (m : Moment) : Str :=
  weekday ++ ' ' :: (monthText m.date ++ ' ' ::
    ((if m.date.day < 10 then ' ' :: natStr m.date.day else natStr m.date.day) ++ ' ' ::
      (timeText m ++ ' ' :: intStr m.date.year)))

/-! ### Their parts

A month name and a time of day are one word each, and there is no comma in them, so
each is a part of the text in every form.
-/

/-- The fields of a moment. -/
def fieldsOf (m : Moment) : DateFields :=
  ⟨m.date.year, m.date.month - 1, m.date.day, m.hour, m.min, m.sec⟩

@[simp] theorem epoch_fieldsOf (m : Moment) : (fieldsOf m).epoch = m.seconds := by
  have hday := m.date.day_pos
  unfold DateFields.epoch DateFields.days Moment.seconds Moment.secondOfDay Date.number
    Date.dayOfYear fieldsOf
  dsimp only
  omega

theorem fieldsOf_inType {m : Moment} (hlo : -2147483648 ≤ m.date.year)
    (hhi : m.date.year ≤ 2147483647) : (fieldsOf m).InType := by
  have hpos := m.date.month_pos
  have hmonth := m.date.month_le
  have hday := m.date.day_le
  have hlen : monthLength m.date.year m.date.month ≤ 31 := by
    have := daysInMonth_le (m.date.month - 1) m.date.year
    rw [daysInMonth_eq, Nat.sub_add_cancel hpos] at this
    exact this
  have hh := m.hour_lt
  have hmin := m.min_lt
  have hs := m.sec_lt
  constructor
  · exact hlo
  · exact hhi
  · show m.date.month - 1 < 12
    omega
  · show m.date.day < _
    omega
  · show m.hour < _
    omega
  · show m.min < _
    omega
  · show m.sec < _
    omega

/-- A month name is a word of three letters, read back as its month. -/
theorem monthNames_spec : ∀ i < 12, Unbroken (monthNames.getD i []) ∧
    monthNames.getD i [] ≠ [] ∧ ',' ∉ monthNames.getD i [] ∧ '-' ∉ monthNames.getD i [] ∧
    monthNum (monthNames.getD i []) = some i := by
  decide

theorem monthText_spec (d : Date) : Unbroken (monthText d) ∧ monthText d ≠ [] ∧
    ',' ∉ monthText d ∧ '-' ∉ monthText d ∧ monthNum (monthText d) = some (d.month - 1) := by
  have hle := d.month_le
  exact monthNames_spec (d.month - 1) (by omega)

theorem timeText_mem {m : Moment} {c : Char} (h : c ∈ timeText m) : c.isDigit = true ∨ c = ':' := by
  unfold timeText at h
  rcases List.mem_append.mp h with h | h
  · exact .inl (twoDigits_isDigit h)
  · rcases List.mem_cons.mp h with rfl | h
    · exact .inr rfl
    · rcases List.mem_append.mp h with h | h
      · exact .inl (twoDigits_isDigit h)
      · rcases List.mem_cons.mp h with rfl | h
        · exact .inr rfl
        · exact .inl (twoDigits_isDigit h)

theorem timeText_unbroken (m : Moment) : Unbroken (timeText m) := by
  intro c hc
  rcases timeText_mem hc with h | rfl
  · exact Unbroken.of_digits (s := [c]) (by simpa using h) c List.mem_cons_self
  · decide

theorem timeText_ne_nil (m : Moment) : timeText m ≠ [] :=
  List.append_ne_nil_of_left_ne_nil (twoDigits_ne_nil _) _

/-- The time of day is taken apart at its colons. -/
theorem timeParts_timeText (m : Moment) : timeParts (timeText m) = some (m.hour, m.min, m.sec) := by
  have hh := m.hour_lt
  have hm := m.min_lt
  have hs := m.sec_lt
  have hno : ∀ n, ':' ∉ twoDigits n :=
    fun n => notMem_of_digits (fun _ => twoDigits_isDigit) (by decide)
  have hsplit : (timeText m).splitOn ':' = [twoDigits m.hour, twoDigits m.min, twoDigits m.sec] := by
    unfold timeText
    rw [splitOn_cons_of_notMem (hno _), splitOn_cons_of_notMem (hno _)]
    congr 2
    exact List.splitOnP_eq_singleton fun c hc => by
      simpa using fun h : c = ':' => hno _ (h ▸ hc)
  have hparse : ∀ n < 60, parseU32 (twoDigits n) = some n :=
    fun n hn => parseU32_digits (parseDigits_twoDigits n) (by omega)
  unfold timeParts
  rw [hsplit]
  simp only [hparse m.hour (by omega), hparse m.min hm, hparse m.sec hs, Option.bind_eq_bind,
    Option.bind_some]

/-! ### Reading them

The forms are tried in an order, and a text of one form could be one of another.
What rules that out is how many parts it has and what its first part ends in.
-/

/-- A number is written in digits. -/
theorem intStr_digits {y : Int} (h : 0 ≤ y) : parseDigits (intStr y) = some y.toNat := by
  obtain ⟨n, rfl⟩ := Int.eq_ofNat_of_zero_le h
  exact parseDigits_natStr n

/-- A text that starts and ends in a word is trimmed already. -/
theorem trim_form {w t : Str} (hne : w ≠ []) (hw : Unbroken w)
    (hlast : ∀ c ∈ (w ++ t).getLast?, isWhitespace c = false) : trim (w ++ t) = w ++ t := by
  obtain ⟨c, w, rfl⟩ := List.exists_cons_of_ne_nil hne
  refine trim_of_ends ?_ hlast
  intro d hd
  cases hd
  exact hw _ List.mem_cons_self

theorem getLast?_append_cons {a t : Str} {c : Char} (ht : t ≠ []) :
    (a ++ c :: t).getLast? = t.getLast? := by
  rw [← List.singleton_append, ← List.append_assoc, List.getLast?_append_of_ne_nil _ ht]

theorem parseI64_of_blank {s : Str} (h : ' ' ∈ s) : parseI64 s = none := by
  cases hp : parseI64 s with
  | none => rfl
  | some v =>
      exact absurd ((parseI64_chars hp).2 _ h) (by decide)

theorem splitWhitespace_rfc1123Text {w : Str} (hw : DayName w) {m : Moment}
    (hy : 0 ≤ m.date.year) :
    splitWhitespace (rfc1123Text w m) = [w ++ [','], twoDigits m.date.day, monthText m.date,
      intStr m.date.year, timeText m, "GMT".toList] := by
  obtain ⟨hmonth, hmonth', -⟩ := monthText_spec m.date
  obtain ⟨hyear, hyear'⟩ := parseDigits_digits (intStr_digits hy)
  unfold rfc1123Text
  rw [show w ++ ',' :: ' ' :: (twoDigits m.date.day ++ ' ' :: (monthText m.date ++ ' ' ::
      (intStr m.date.year ++ ' ' :: (timeText m ++ ' ' :: "GMT".toList))))
    = (w ++ [',']) ++ ' ' :: (twoDigits m.date.day ++ ' ' :: (monthText m.date ++ ' ' ::
      (intStr m.date.year ++ ' ' :: (timeText m ++ ' ' :: "GMT".toList)))) by simp]
  rw [splitWhitespace_word hw.comma (by simp),
    splitWhitespace_word (.of_digits fun _ => twoDigits_isDigit) (twoDigits_ne_nil _),
    splitWhitespace_word hmonth hmonth', splitWhitespace_word (.of_digits hyear') hyear,
    splitWhitespace_word (timeText_unbroken m) (timeText_ne_nil m),
    splitWhitespace_of_none DayName.zone.unbroken]
  rfl

/-- The fields of a date in the first form are those it was written from. -/
theorem rfc1123Fields_text {w : Str} (hw : DayName w) {m : Moment} (hlo : 0 ≤ m.date.year)
    (hhi : m.date.year ≤ 2147483647) : rfc1123Fields (rfc1123Text w m) = some (fieldsOf m) := by
  have hin := fieldsOf_inType (m := m) (by omega) hhi
  have hday := parseU32_digits (parseDigits_twoDigits m.date.day) hin.day_lt
  obtain ⟨-, -, -, -, hmonth⟩ := monthText_spec m.date
  have hyear : parseI32 (intStr m.date.year) = some m.date.year := by
    rw [parseI32_digits (intStr_digits hlo) (by omega), Int.toNat_of_nonneg hlo]
  unfold rfc1123Fields
  rw [splitWhitespace_rfc1123Text hw hlo]
  simp only [ne_eq, not_true_eq_false, if_false, hday, hmonth, hyear, timeParts_timeText,
    Option.bind_eq_bind, Option.bind_some]
  rfl

/-- **A date in the first form is read as its seconds.** -/
theorem parseHttpDate_rfc1123 (checks : Bool) {w : Str} (hw : DayName w) {m : Moment}
    (hlo : 0 ≤ m.date.year) (hhi : m.date.year ≤ 2147483647) :
    parseHttpDate checks (rfc1123Text w m) = .ok (some m.seconds) := by
  have htrim : trim (rfc1123Text w m) = rfc1123Text w m := by
    refine trim_form hw.ne_nil hw.unbroken ?_
    simp [List.getLast?_append, List.getLast?_cons, isWhitespace]
  have hblank : ' ' ∈ rfc1123Text w m := by simp [rfc1123Text]
  have hepoch : dateToEpoch checks (fieldsOf m) = .ok m.seconds := by
    rw [dateToEpoch_eq (fieldsOf_inType (by omega) hhi) m.date.day_pos, epoch_fieldsOf]
  unfold parseHttpDate
  simp only [htrim, parseI64_of_blank hblank]
  unfold parseRfc1123
  rw [rfc1123Fields_text hw hlo hhi]
  simp only [hepoch]
  rfl

/-- A text of the second form has four parts at white space. -/
theorem splitWhitespace_rfc850Text {w : Str} (hw : DayName w) (m : Moment) :
    splitWhitespace (rfc850Text w m) = [w ++ [','], twoDigits m.date.day ++ '-' ::
      (monthText m.date ++ '-' :: twoDigits (m.date.year % 100).toNat), timeText m,
      "GMT".toList] := by
  obtain ⟨hmonth, -⟩ := monthText_spec m.date
  have hdate : Unbroken (twoDigits m.date.day ++ '-' :: (monthText m.date ++ '-' ::
      twoDigits (m.date.year % 100).toNat)) := by
    have hdigits : ∀ n, Unbroken (twoDigits n) := fun n => .of_digits fun _ => twoDigits_isDigit
    have hdash : isWhitespace '-' = false := by decide
    unfold Unbroken at hdigits hmonth ⊢
    simp only [List.forall_mem_append, List.forall_mem_cons]
    exact ⟨hdigits _, hdash, hmonth, hdash, hdigits _⟩
  unfold rfc850Text
  rw [show ∀ t : Str, w ++ ',' :: ' ' :: t = (w ++ [',']) ++ ' ' :: t from fun t => by simp]
  rw [splitWhitespace_word hw.comma (by simp), splitWhitespace_word hdate (by simp),
    splitWhitespace_word (timeText_unbroken m) (timeText_ne_nil m),
    splitWhitespace_of_none DayName.zone.unbroken]
  rfl

theorem timeText_run (m : Moment) : ∀ c ∈ timeText m, isBlankOrComma c = false := by
  refine (timeText_unbroken m).run fun h => ?_
  rcases timeText_mem h with h | h
  · exact absurd h (by decide)
  · exact absurd h (by decide)

theorem digits_run {s : Str} (h : ∀ c ∈ s, c.isDigit = true) : ∀ c ∈ s, isBlankOrComma c = false :=
  (Unbroken.of_digits h).run (notMem_of_digits h (by decide))

/-- So are those of the second, with two digits of the year. -/
theorem rfc850Fields_text {w : Str} (hw : DayName w) {m : Moment} (hhi : m.date.year ≤ 2147483647)
    (hlo : 0 ≤ m.date.year) :
    rfc850Fields (rfc850Text w m) = some { fieldsOf m with year := m.date.year % 100 } := by
  obtain ⟨hmonth, hmonth', hcomma, hdash, hnum⟩ := monthText_spec m.date
  have hdigits : ∀ n, ∀ c ∈ twoDigits n, isBlankOrComma c = false :=
    fun n => digits_run fun _ => twoDigits_isDigit
  have hdate : ∀ c ∈ twoDigits m.date.day ++ '-' :: (monthText m.date ++ '-' ::
      twoDigits (m.date.year % 100).toNat), isBlankOrComma c = false := by
    simp only [List.forall_mem_append, List.forall_mem_cons]
    exact ⟨hdigits _, by decide, hmonth.run hcomma, by decide, hdigits _⟩
  have hparts : ((rfc850Text w m).splitOnP fun c => c == ' ' || c == ',').filter (· ≠ [])
      = [w, twoDigits m.date.day ++ '-' :: (monthText m.date ++ '-' ::
        twoDigits (m.date.year % 100).toNat), timeText m, "GMT".toList] := by
    show ((rfc850Text w m).splitOnP isBlankOrComma).filter (· ≠ []) = _
    unfold rfc850Text
    rw [runs_word hw.ne_nil (hw.unbroken.run hw.noComma) (by decide), ← List.nil_append (' ' :: _),
      runs_append (by decide), runs_word (by simp) hdate (by decide),
      runs_word (timeText_ne_nil m) (timeText_run m) (by decide),
      runs_of_none (DayName.zone.unbroken.run DayName.zone.noComma)]
    rfl
  have hnodash : ∀ n, '-' ∉ twoDigits n :=
    fun n => notMem_of_digits (fun _ => twoDigits_isDigit) (by decide)
  have hsplit : (twoDigits m.date.day ++ '-' :: (monthText m.date ++ '-' ::
      twoDigits (m.date.year % 100).toNat)).splitOn '-'
      = [twoDigits m.date.day, monthText m.date, twoDigits (m.date.year % 100).toNat] := by
    rw [splitOn_cons_of_notMem (hnodash _), splitOn_cons_of_notMem hdash]
    congr 2
    exact List.splitOnP_eq_singleton fun c hc => by
      simpa using fun h : c = '-' => hnodash _ (h ▸ hc)
  have hin := fieldsOf_inType (m := m) (by omega) hhi
  have hday := parseU32_digits (parseDigits_twoDigits m.date.day) hin.day_lt
  have hyear : parseI32 (twoDigits (m.date.year % 100).toNat) = some (m.date.year % 100) := by
    rw [parseI32_digits (parseDigits_twoDigits _) (by omega), Int.toNat_of_nonneg (by omega)]
  unfold rfc850Fields
  rw [hparts]
  simp only [ne_eq, not_true_eq_false, if_false, hsplit, hday, hnum, hyear, timeParts_timeText,
    Option.bind_eq_bind, Option.bind_some]
  rfl

/-- Two digits stand for the years from 1970 to 2069. -/
theorem pivotYear_mod {checks : Bool} {y : Int} (hlo : 1970 ≤ y) (hhi : y ≤ 2069) :
    pivotYear checks (y % 100) = .ok y := by
  unfold pivotYear
  split
  · rw [checkedI32_of_range (by omega) (by omega)]
    congr 1
    omega
  · rw [if_pos (by omega), checkedI32_of_range (by omega) (by omega)]
    congr 1
    omega

/-- **A date in the second form is read as its seconds.** -/
theorem parseHttpDate_rfc850 {checks : Bool} {w : Str} (hw : DayName w) {m : Moment}
    (hlo : 1970 ≤ m.date.year) (hhi : m.date.year ≤ 2069) :
    parseHttpDate checks (rfc850Text w m) = .ok (some m.seconds) := by
  have htrim : trim (rfc850Text w m) = rfc850Text w m := by
    refine trim_form hw.ne_nil hw.unbroken ?_
    simp [List.getLast?_append, List.getLast?_cons, isWhitespace]
  have hblank : ' ' ∈ rfc850Text w m := by simp [rfc850Text]
  have hfirst : rfc1123Fields (rfc850Text w m) = none := by
    unfold rfc1123Fields
    rw [splitWhitespace_rfc850Text hw]
  have hepoch : dateToEpoch checks (fieldsOf m) = .ok m.seconds := by
    rw [dateToEpoch_eq (fieldsOf_inType (by omega) (by omega)) m.date.day_pos, epoch_fieldsOf]
  have hnone : parseRfc1123 checks (rfc850Text w m) = .ok none := by
    unfold parseRfc1123
    rw [hfirst]
  have hsecond : parseRfc850 checks (rfc850Text w m) = .ok (some m.seconds) := by
    unfold parseRfc850
    rw [rfc850Fields_text hw (by omega) (by omega)]
    simp only [pivotYear_mod hlo hhi]
    show some <$> dateToEpoch checks (fieldsOf m) = _
    rw [hepoch]
    rfl
  unfold parseHttpDate
  simp only [htrim, parseI64_of_blank hblank, hnone, hsecond]
  rfl

/-! ### The third form

A day of one digit has two blanks before it.  To a reader that cuts at runs of white
space that is one separator.
-/

/-- The blank before a day of one digit makes no part of its own. -/
theorem runs_day {p : Char → Bool} (hblank : p ' ' = true)
    (hdigit : ∀ c, c.isDigit = true → p c = false) (n : Nat) (t : Str) :
    (((if n < 10 then ' ' :: natStr n else natStr n) ++ ' ' :: t).splitOnP p).filter (· ≠ [])
      = natStr n :: (t.splitOnP p).filter (· ≠ []) := by
  have hword := runs_word (natStr_ne_nil n) (fun c hc => hdigit c (natStr_isDigit hc)) hblank t
  split
  · rw [List.cons_append, ← List.nil_append (' ' :: _), runs_append hblank, hword,
      List.splitOnP_nil]
    rfl
  · exact hword

/-- A text of the third form has five parts, at white space as at blanks and commas. -/
theorem runs_asctimeText {p : Char → Bool} (hblank : p ' ' = true)
    (hdigit : ∀ c, c.isDigit = true → p c = false) (hcolon : p ':' = false) {w : Str}
    (hne : w ≠ []) (hw : ∀ c ∈ w, p c = false) {m : Moment} (hmonth : ∀ c ∈ monthText m.date, p c = false)
    (hy : 0 ≤ m.date.year) :
    ((asctimeText w m).splitOnP p).filter (· ≠ [])
      = [w, monthText m.date, natStr m.date.day, timeText m, intStr m.date.year] := by
  obtain ⟨-, hmonth', -⟩ := monthText_spec m.date
  obtain ⟨hyear, hyear'⟩ := parseDigits_digits (intStr_digits hy)
  have htime : ∀ c ∈ timeText m, p c = false := by
    intro c hc
    rcases timeText_mem hc with h | rfl
    · exact hdigit c h
    · exact hcolon
  unfold asctimeText
  rw [runs_word hne hw hblank, runs_word hmonth' hmonth hblank, runs_day hblank hdigit,
    runs_word (timeText_ne_nil m) htime hblank,
    runs_of_none fun c hc => hdigit c (hyear' c hc), if_neg hyear]

theorem asctimeFields_text {w : Str} (hw : DayName w) {m : Moment} (hlo : 0 ≤ m.date.year)
    (hhi : m.date.year ≤ 2147483647) : asctimeFields (asctimeText w m) = some (fieldsOf m) := by
  have hin := fieldsOf_inType (m := m) (by omega) hhi
  have hday := parseU32_digits (parseDigits_natStr m.date.day) hin.day_lt
  obtain ⟨hmonth, -, -, -, hnum⟩ := monthText_spec m.date
  have hyear : parseI32 (intStr m.date.year) = some m.date.year := by
    rw [parseI32_digits (intStr_digits hlo) (by omega), Int.toNat_of_nonneg hlo]
  have hparts : splitWhitespace (asctimeText w m) = [w, monthText m.date, natStr m.date.day,
      timeText m, intStr m.date.year] :=
    runs_asctimeText (by decide)
      (fun c hc => Unbroken.of_digits (s := [c]) (by simpa using hc) c List.mem_cons_self)
      (by decide) hw.ne_nil hw.unbroken hmonth hlo
  unfold asctimeFields
  rw [hparts]
  simp only [hday, hnum, hyear, timeParts_timeText, Option.bind_eq_bind, Option.bind_some]
  rfl

/-- **A date in the third form is read as its seconds.** -/
theorem parseHttpDate_asctime {checks : Bool} {w : Str} (hw : DayName w) {m : Moment}
    (hlo : 0 ≤ m.date.year) (hhi : m.date.year ≤ 2147483647) :
    parseHttpDate checks (asctimeText w m) = .ok (some m.seconds) := by
  obtain ⟨hmonth, -, hcomma, -⟩ := monthText_spec m.date
  obtain ⟨hyear, hyear'⟩ := parseDigits_digits (intStr_digits hlo)
  have htrim : trim (asctimeText w m) = asctimeText w m := by
    refine trim_form hw.ne_nil hw.unbroken ?_
    intro c hc
    change c ∈ (asctimeText w m).getLast? at hc
    unfold asctimeText at hc
    rw [getLast?_append_cons (by simp), getLast?_append_cons (by simp),
      getLast?_append_cons (by simp), getLast?_append_cons hyear] at hc
    exact Unbroken.of_digits hyear' c (List.mem_of_mem_getLast? hc)
  have hblank : ' ' ∈ asctimeText w m := by simp [asctimeText]
  have hfirst : rfc1123Fields (asctimeText w m) = none := by
    unfold rfc1123Fields splitWhitespace
    rw [runs_asctimeText (by decide)
      (fun c hc => Unbroken.of_digits (s := [c]) (by simpa using hc) c List.mem_cons_self)
      (by decide) hw.ne_nil hw.unbroken hmonth hlo]
  have hsecond : rfc850Fields (asctimeText w m) = none := by
    have hparts : ((asctimeText w m).splitOnP fun c => c == ' ' || c == ',').filter (· ≠ [])
        = [w, monthText m.date, natStr m.date.day, timeText m, intStr m.date.year] :=
      runs_asctimeText (p := isBlankOrComma) (by decide)
        (fun c hc => digits_run (s := [c]) (by simpa using hc) c List.mem_cons_self)
        (by decide) hw.ne_nil (hw.unbroken.run hw.noComma) (hmonth.run hcomma) hlo
    unfold rfc850Fields
    rw [hparts]
  have hnone : parseRfc1123 checks (asctimeText w m) = .ok none := by
    unfold parseRfc1123
    rw [hfirst]
  have hnone' : parseRfc850 checks (asctimeText w m) = .ok none := by
    unfold parseRfc850
    rw [hsecond]
  have hthird : parseAsctime checks (asctimeText w m) = .ok (some m.seconds) := by
    unfold parseAsctime
    rw [asctimeFields_text hw hlo hhi]
    show some <$> dateToEpoch checks (fieldsOf m) = _
    rw [dateToEpoch_eq (fieldsOf_inType (by omega) (by omega)) m.date.day_pos, epoch_fieldsOf]
    rfl
  unfold parseHttpDate
  simp only [htrim, parseI64_of_blank hblank, hnone, hnone', bind, Except.bind]
  exact hthird

end Thttpd
