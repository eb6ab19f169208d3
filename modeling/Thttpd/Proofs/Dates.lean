/-
HTTP dates, written and read.

A timestamp from 1970 on is written as its moment in the calendar and read back as
itself, for every year that fits its type.  Only the day of the week is wrong, on every
day: the days are counted from 1 January 1970, a Thursday, in a table that starts with
Sunday.  Reading is safe unless the day of the month is 0, and a day past the 31st is not
refused.

The code and the calendar are kept apart: `Calendar` has shown that the loops of the
code are the closed forms, and `DateForms` that a text in one of the forms is read
back.  What is left for this file is to put the two together and to say for which
timestamps and which texts that can be done.
-/
import Thttpd.Proofs.DateForms

namespace Thttpd

open Text Civil

/-! ### Writing

A timestamp is a day and a second of the day.  The two loops take years and months
off, and what is left is divided into days, hours, minutes and seconds, which is how
the calendar puts a moment together.
-/

/-- From 1970 on the seconds are not negative. -/
theorem seconds_nonneg_iff (m : Moment) : 0 ≤ m.seconds ↔ 1970 ≤ m.date.year := by
  have hdiv := m.seconds_div
  have hlo := m.date.le_number
  have hhi := m.date.number_lt
  have hstart : epochDay = yearStart 1970 := rfl
  constructor
  · intro h
    by_contra hlt
    have := yearStart_mono (show m.date.year + 1 ≤ 1970 by omega)
    omega
  · intro h
    have := yearStart_mono h
    omega

/-- The seconds from the start of the year. -/
def secondOfYear (m : Moment) : Int := m.date.dayOfYear * 86400 + m.secondOfDay

/-- **The year loop ends in the year of the moment.** -/
theorem takeYears_moment (checks : Bool) {m : Moment} (hlo : 1970 ≤ m.date.year)
    (hhi : m.date.year ≤ 2147483647) :
    takeYears checks (m.seconds.toNat / secsPerShortYear + 1) m.seconds 1970
      = .ok (secondOfYear m, m.date.year) := by
  have hday := m.date.dayOfYear_lt
  have hsucc := yearStart_succ m.date.year
  have hsec := m.secondOfDay_lt
  have hstart : epochDay = yearStart 1970 := rfl
  have hseconds : m.seconds + yearStart 1970 * 86400
      = yearStart m.date.year * 86400 + secondOfYear m := by
    unfold Moment.seconds Date.number secondOfYear
    omega
  have hyear : 0 ≤ secondOfYear m ∧ secondOfYear m < yearLength m.date.year * 86400 := by
    unfold secondOfYear
    omega
  rw [takeYears_eq hhi _ _ _ (by decide) hlo (lt_div_succ_mul m.seconds (by decide))
    (by unfold secsPerDay; omega) (by unfold secsPerDay; omega)]
  unfold secsPerDay
  congr 2
  omega

/-- **The month loop ends in the month of the moment.** -/
theorem takeMonths_moment (m : Moment) :
    takeMonths m.date.year 12 (secondOfYear m) 0
      = (((m.date.day - 1 : Nat) : Int) * 86400 + m.secondOfDay, m.date.month - 1) := by
  have hpos := m.date.month_pos
  have hle := m.date.month_le
  have hday := m.date.lt_monthStart
  have hsec := m.secondOfDay_lt
  have hsplit : secondOfYear m = (monthStart m.date.year (m.date.month - 1) : Int) * 86400
      + (((m.date.day - 1 : Nat) : Int) * 86400 + m.secondOfDay) := by
    unfold secondOfYear Date.dayOfYear
    omega
  have hlt : secondOfYear m < monthStart m.date.year (m.date.month - 1 + 1) * 86400 := by
    rw [Nat.sub_add_cancel hpos]
    unfold secondOfYear
    omega
  have hzero : (monthStart m.date.year 0 : Int) = 0 := rfl
  rw [takeMonths_eq (M := m.date.month - 1) 12 _ 0 (by omega) (by omega)
    (by unfold secsPerDay; omega) (by unfold secsPerDay; omega)]
  unfold secsPerDay
  rw [Prod.mk.injEq]
  exact ⟨by omega, rfl⟩

/-- The entry of the table of days that is written. -/
def writtenDay (timestamp : Int) : Nat :=
  ((((timestamp.tdiv secsPerDay).bmod 4294967296).tmod 7 + 7).tmod 7).toNat

/-- It is one of the table. -/
theorem writtenDay_lt (timestamp : Int) : writtenDay timestamp < 7 := by
  have := Int.tmod_lt_of_pos (((timestamp.tdiv secsPerDay).bmod 4294967296).tmod 7 + 7)
    (show (0 : Int) < 7 by decide)
  unfold writtenDay
  omega

theorem nameAt_getD {names : List Str} {i : Nat} (h : i < names.length) :
    nameAt names i = .ok (names.getD i []) := by
  unfold nameAt
  rw [List.getD_eq_getElem?_getD, List.getElem?_eq_getElem h]
  rfl

theorem asU32_natCast {n : Nat} (h : n < 4294967296) : asU32 (n : Int) = n := by
  unfold asU32
  omega

/-- The time of day is taken apart again. -/
theorem secondOfDay_parts (m : Moment) :
    asU32 ((m.secondOfDay : Int).tdiv 3600) = m.hour ∧
      asU32 (((m.secondOfDay : Int).tmod 3600).tdiv 60) = m.min ∧
      asU32 (((m.secondOfDay : Int).tmod 3600).tmod 60) = m.sec := by
  have hhour := m.hour_lt
  have hmin := m.min_lt
  have hsec := m.sec_lt
  have hsum : m.secondOfDay = m.hour * 3600 + m.min * 60 + m.sec := rfl
  have hmod : ((m.secondOfDay : Int).tmod 3600) = ((m.secondOfDay % 3600 : Nat) : Int) := by
    rw [Int.tmod_eq_emod_of_nonneg (by omega)]
    omega
  have hdiv : ((m.secondOfDay : Int).tdiv 3600) = ((m.secondOfDay / 3600 : Nat) : Int) := by
    rw [Int.tdiv_eq_ediv_of_nonneg (by omega)]
    omega
  rw [hmod, hdiv, Int.tdiv_eq_ediv_of_nonneg (by omega), Int.tmod_eq_emod_of_nonneg (by omega)]
  unfold asU32
  omega

/-- Whole days are taken off the seconds of a month. -/
theorem days_parts (d : Nat) {s : Nat} (hs : s < 86400) :
    ((d : Int) * 86400 + s).tdiv secsPerDay = d ∧ ((d : Int) * 86400 + s).tmod secsPerDay = s := by
  have hpos : 0 ≤ (d : Int) * 86400 + s := by omega
  rw [Int.tdiv_eq_ediv_of_nonneg hpos, Int.tmod_eq_emod_of_nonneg hpos]
  unfold secsPerDay
  omega

/-- The day and the time that are written. -/
theorem inMonth_parts (checks : Bool) {m : Moment} (hhi : m.date.year ≤ 2147483647)
    (hlo : 1970 ≤ m.date.year) {inMonth : Int}
    (h : inMonth = ((m.date.day - 1 : Nat) : Int) * 86400 + m.secondOfDay) :
    checkedU32 checks (asU32 (inMonth.tdiv secsPerDay) + 1) = .ok m.date.day ∧
      inMonth.tmod secsPerDay = m.secondOfDay := by
  have hday : m.date.day < 4294967296 := (fieldsOf_inType (m := m) (by omega) hhi).day_lt
  obtain ⟨hdiv, hmod⟩ := days_parts (m.date.day - 1) m.secondOfDay_lt
  rw [h, hdiv, asU32_natCast (Nat.lt_of_le_of_lt (Nat.sub_le _ _) hday),
    Nat.sub_add_cancel m.date.day_pos]
  exact ⟨if_pos hday, hmod⟩

/-- **A timestamp is written as its moment**, with some day of the week. -/
theorem formatHttpDate_eq (checks : Bool) {m : Moment} (hlo : 1970 ≤ m.date.year)
    (hhi : m.date.year ≤ 2147483647) :
    formatHttpDate checks m.seconds
      = .ok (rfc1123Text (weekdayNames.getD (writtenDay m.seconds) []) m) := by
  obtain ⟨hhour, hminute, hsecond⟩ := secondOfDay_parts m
  have hyears := takeYears_moment checks hlo hhi
  have hmonths := takeMonths_moment m
  -- the loops are done, so the seconds they start from need not be taken apart again
  generalize m.seconds = timestamp at hyears ⊢
  generalize secondOfYear m = inYear at hyears hmonths
  generalize hrest : ((m.date.day - 1 : Nat) : Int) * 86400 + m.secondOfDay = inMonth at hmonths
  obtain ⟨hday, hinDay⟩ := inMonth_parts checks hhi hlo hrest.symm
  have hweekday : nameAt weekdayNames (writtenDay timestamp) =
      .ok (weekdayNames.getD (writtenDay timestamp) []) := nameAt_getD (writtenDay_lt timestamp)
  have hmonthName : nameAt monthNames (m.date.month - 1) = .ok (monthText m.date) :=
    nameAt_getD (show m.date.month - 1 < 12 by have := m.date.month_le; omega)
  have hcomma : ", ".toList = [',', ' '] := by decide
  have hzone : " GMT".toList = ' ' :: "GMT".toList := by decide
  unfold formatHttpDate
  rw [hcomma, hzone]
  refine bind_eq_ok.mpr ⟨_, hyears, ?_⟩
  split
  rename_i heq
  obtain ⟨rfl, rfl⟩ := Prod.mk.inj heq
  rw [hmonths]
  refine bind_eq_ok.mpr ⟨_, hday, bind_eq_ok.mpr ⟨_, hweekday, bind_eq_ok.mpr
    ⟨_, hmonthName, ?_⟩⟩⟩
  rw [hinDay, hhour, hminute, hsecond]
  unfold rfc1123Text timeText
  simp [pure, Except.pure]

/-- The year of a timestamp. -/
theorem momentAt_year {ts : Int} (h : 0 ≤ ts) : 1970 ≤ (momentAt ts).date.year := by
  rw [← seconds_nonneg_iff, seconds_momentAt]
  exact h

/-- Every entry of the table can stand for a day of the week. -/
theorem weekdayNames_dayName : ∀ i < 7, DayName (weekdayNames.getD i []) := by
  have h : ∀ i < 7, weekdayNames.getD i [] ≠ [] ∧ Unbroken (weekdayNames.getD i []) ∧
      ',' ∉ weekdayNames.getD i [] := by decide
  exact fun i hi => ⟨(h i hi).1, (h i hi).2.1, (h i hi).2.2⟩

/--
**A timestamp that is written comes back as itself**: both loops end where the code
leaves them, no step overflows, and the month is one of twelve.
-/
theorem date_round_trip {ts : Int} (h0 : 0 ≤ ts) (hy : (momentAt ts).date.year ≤ 2147483647)
    (checks : Bool) :
    ∃ inYear year inMonth month date,
      takeYears checks (ts.toNat / secsPerShortYear + 1) ts 1970 = .ok (inYear, year) ∧
      inYear < daysInYear year * secsPerDay ∧
      takeMonths year 12 inYear 0 = (inMonth, month) ∧
      inMonth < daysInMonth month year * secsPerDay ∧ month < 12 ∧
      formatHttpDate checks ts = .ok date ∧ parseHttpDate checks date = .ok (some ts) := by
  have hlo := momentAt_year h0
  have hyears := takeYears_moment checks hlo hy
  have hmonths := takeMonths_moment (momentAt ts)
  have hformat := formatHttpDate_eq checks hlo hy
  have hparse := parseHttpDate_rfc1123 checks
    (weekdayNames_dayName _ (writtenDay_lt ts)) (m := momentAt ts) (by omega) hy
  rw [seconds_momentAt] at hyears hformat hparse
  have hpos := (momentAt ts).date.month_pos
  have hle := (momentAt ts).date.month_le
  have hdays := (momentAt ts).date.day_le
  have hday := (momentAt ts).date.day_pos
  have hsec := (momentAt ts).secondOfDay_lt
  have hend := takeYears_lt _ ts 1970 _ (lt_div_succ_mul ts (by decide)) hyears
  refine ⟨_, _, _, _, _, hyears, hend, hmonths, ?_, ?_, hformat, hparse⟩
  · rw [daysInMonth_eq, Nat.sub_add_cancel hpos]
    unfold secsPerDay
    omega
  · omega

/-- 6 November 1994, 08:49:37, a Sunday. -/
def sampleMoment : Moment :=
  ⟨⟨1994, 11, 6, by decide, by decide, by decide, by decide⟩, 8, 49, 37, by decide, by decide,
    by decide⟩

theorem momentAt_sample : momentAt 784111777 = sampleMoment := momentAt_seconds sampleMoment

theorem date_round_trip_sample :
    ∃ date, formatHttpDate true 784111777 = .ok date ∧
      parseHttpDate true date = .ok (some 784111777) := by
  obtain ⟨_, _, _, _, date, -, -, -, -, -, h⟩ :=
    @date_round_trip 784111777 (by decide) (by rw [momentAt_sample]; decide) true
  exact ⟨date, h⟩

/-! ### The day of the week

The code takes the days since the epoch modulo seven for a place in a table that
begins with Sunday, and the epoch was a Thursday.  Three days out of seven is never
none, so no date it writes has its own day of the week.
-/

/-- A moment as the first form has it, with its own day of the week. -/
def rfc1123Date (m : Moment) : Str :=
  rfc1123Text (weekdayNames.getD (dayOfWeek m.date.number) []) m

/-- The table is entered at the day of the epoch as if that were a Sunday. -/
theorem writtenDay_eq {m : Moment} (hlo : 1970 ≤ m.date.year) (hhi : m.date.year ≤ 9999) :
    writtenDay m.seconds = dayOfWeek (m.date.number + 3) := by
  have hdiv := m.seconds_div
  have hle := m.date.le_number
  have hlt := m.date.number_lt
  have hend := yearStart_mono (show m.date.year + 1 ≤ 10000 by omega)
  have hstart := yearStart_mono hlo
  have h10000 : yearStart 10000 = 3652059 := by decide
  have hepoch : epochDay = 719162 := by decide
  have h1970 : yearStart 1970 = 719162 := by decide
  have hpos : 0 ≤ m.seconds := (seconds_nonneg_iff m).mpr hlo
  unfold writtenDay dayOfWeek
  rw [Int.tdiv_eq_ediv_of_nonneg hpos]
  unfold secsPerDay
  rw [hdiv, Int.bmod_eq_of_le (by omega) (by omega),
    Int.tmod_eq_emod_of_nonneg (a := m.date.number - epochDay) (by omega),
    Int.tmod_eq_emod_of_nonneg (by omega)]
  omega

/-- No day is in the table twice. -/
theorem weekdayNames_inj : ∀ i < 7, ∀ j < 7,
    weekdayNames.getD i [] = weekdayNames.getD j [] → i = j := by decide

/-- So two dates that differ in the day of the week are different texts. -/
theorem rfc1123Text_inj {w w' : Str} {m : Moment} (h : rfc1123Text w m = rfc1123Text w' m) :
    w = w' := List.append_cancel_right h

/--
**The day of the week that is written is three days late, so it is never the right
one.**
-/
theorem written_weekday_wrong {ts : Int} (h0 : 0 ≤ ts) (hy : (momentAt ts).date.year ≤ 9999)
    (checks : Bool) :
    formatHttpDate checks ts = .ok (rfc1123Text
        (weekdayNames.getD (dayOfWeek ((momentAt ts).date.number + 3)) []) (momentAt ts)) ∧
      formatHttpDate checks ts ≠ .ok (rfc1123Date (momentAt ts)) := by
  have hlo := momentAt_year h0
  have hformat := formatHttpDate_eq checks hlo (by omega)
  rw [writtenDay_eq hlo hy, seconds_momentAt] at hformat
  refine ⟨hformat, ?_⟩
  rw [hformat]
  intro h
  have hnames := rfc1123Text_inj (Except.ok.inj h)
  have hsame := weekdayNames_inj _ (dayOfWeek_lt _) _ (dayOfWeek_lt _) hnames
  unfold dayOfWeek at hsame
  omega

theorem written_weekday_wrong_sample :
    formatHttpDate true 784111777 ≠ .ok (rfc1123Date sampleMoment) :=
  momentAt_sample ▸ (@written_weekday_wrong 784111777 (by decide)
    (by rw [momentAt_sample]; decide) true).2

/-- A Sunday is written as a Wednesday. -/
theorem sunday_written_wednesday :
    sampleMoment.seconds = 784111777 ∧
      rfc1123Date sampleMoment = "Sun, 06 Nov 1994 08:49:37 GMT".toList ∧
      formatHttpDate true 784111777 = .ok "Wed, 06 Nov 1994 08:49:37 GMT".toList ∧
      formatHttpDate true 784111777 ≠ .ok (rfc1123Date sampleMoment) := by
  decide +kernel

/-! ### The three forms

The same moment in each of them, with any word for the day of the week.
-/

/-- **The three forms of a date agree**, whatever word stands for its day of the week. -/
theorem date_forms_agree {m : Moment} (hlo : 1970 ≤ m.date.year) (hhi : m.date.year ≤ 2069) {w : Str}
    (hw : DayName w) (checks : Bool) :
    parseHttpDate checks (rfc1123Text w m) = .ok (some m.seconds) ∧
      parseHttpDate checks (rfc850Text w m) = .ok (some m.seconds) ∧
      parseHttpDate checks (asctimeText w m) = .ok (some m.seconds) :=
  ⟨parseHttpDate_rfc1123 checks hw (by omega) (by omega), parseHttpDate_rfc850 hw hlo hhi,
    parseHttpDate_asctime hw (by omega) (by omega)⟩

theorem date_forms_agree_sample :
    parseHttpDate true (rfc1123Text "Sunday".toList sampleMoment) = .ok (some 784111777) ∧
      parseHttpDate true (rfc850Text "Sunday".toList sampleMoment) = .ok (some 784111777) ∧
      parseHttpDate true (asctimeText "Sunday".toList sampleMoment) = .ok (some 784111777) :=
  date_forms_agree (m := sampleMoment) (by decide) (by decide)
    (.of_letters (by decide) (List.all_eq_true.mp (by decide))) true

/-! ### Dates that are read safely

A text is read by the first form that takes it.  The fields it gets are within their
types, since they were parsed as such, and the only sum that can leave its type is
the one for a day of 0, whose predecessor no unsigned number is.
-/

/-- A number of this type is below its bound. -/
theorem parseU32_lt {s : Str} {n : Nat} (h : parseU32 s = some n) : n < 4294967296 := by
  unfold parseU32 at h
  exact of_decide_eq_true (Option.filter_eq_some_iff.mp h).2

/-- So is one of the signed type. -/
theorem parseI32_range {s : Str} {n : Int} (h : parseI32 s = some n) :
    -2147483648 ≤ n ∧ n ≤ 2147483647 := by
  unfold parseI32 parseInt at h
  split at h <;>
  · obtain ⟨k, -, hk⟩ := Option.bind_eq_some_iff.mp h
    exact inRange_eq_some hk

/-- A month is one of twelve. -/
theorem monthNum_lt {name : Str} {i : Nat} (h : monthNum name = some i) : i < 12 := by
  unfold monthNum at h
  have hmem := List.lookup_eq_some_iff.mp h
  obtain ⟨l₁, l₂, hsplit, -⟩ := hmem
  have hall : ∀ p ∈ [("Jan".toList, 0), ("Feb".toList, 1), ("Mar".toList, 2), ("Apr".toList, 3),
      ("May".toList, 4), ("Jun".toList, 5), ("Jul".toList, 6), ("Aug".toList, 7),
      ("Sep".toList, 8), ("Oct".toList, 9), ("Nov".toList, 10), ("Dec".toList, 11)],
      p.2 < 12 := by decide
  exact hall (name, i) (by rw [hsplit]; simp)

/-- Hours, minutes and seconds are numbers of their type, and not more is asked of them. -/
theorem timeParts_lt {s : Str} {hour min sec : Nat} (h : timeParts s = some (hour, min, sec)) :
    hour < 4294967296 ∧ min < 4294967296 ∧ sec < 4294967296 := by
  unfold timeParts at h
  split at h
  · obtain ⟨_, hhour, h⟩ := Option.bind_eq_some_iff.mp h
    obtain ⟨_, hmin, h⟩ := Option.bind_eq_some_iff.mp h
    obtain ⟨_, hsec, h⟩ := Option.bind_eq_some_iff.mp h
    cases h
    exact ⟨parseU32_lt hhour, parseU32_lt hmin, parseU32_lt hsec⟩
  · cases h

/-- What is read fits its types. -/
theorem DateFields.InType.of_parts {yearPart monthPart dayPart time : Str} {year : Int}
    {month day hour min sec : Nat} (hyear : parseI32 yearPart = some year)
    (hmonth : monthNum monthPart = some month) (hday : parseU32 dayPart = some day)
    (htime : timeParts time = some (hour, min, sec)) :
    DateFields.InType ⟨year, month, day, hour, min, sec⟩ := by
  obtain ⟨hlo, hhi⟩ := parseI32_range hyear
  obtain ⟨hhour, hmin, hsec⟩ := timeParts_lt htime
  exact ⟨hlo, hhi, monthNum_lt hmonth, parseU32_lt hday, hhour, hmin, hsec⟩

/-- The first two forms read their parts in the same order. -/
theorem DateFields.InType.of_read {yearPart monthPart dayPart time : Str} {f : DateFields}
    (h : (do
      let day ← parseU32 dayPart
      let month ← monthNum monthPart
      let year ← parseI32 yearPart
      let (hour, min, sec) ← timeParts time
      some (⟨year, month, day, hour, min, sec⟩ : DateFields)) = some f) : f.InType := by
  obtain ⟨_, hday, h⟩ := Option.bind_eq_some_iff.mp h
  obtain ⟨_, hmonth, h⟩ := Option.bind_eq_some_iff.mp h
  obtain ⟨_, hyear, h⟩ := Option.bind_eq_some_iff.mp h
  obtain ⟨_, htime, h⟩ := Option.bind_eq_some_iff.mp h
  cases h
  exact .of_parts hyear hmonth hday htime

theorem rfc1123Fields_inType {s : Str} {f : DateFields} (h : rfc1123Fields s = some f) : f.InType := by
  unfold rfc1123Fields at h
  split at h
  · split at h
    · cases h
    · exact .of_read h
  · cases h

theorem rfc850Fields_inType {s : Str} {f : DateFields} (h : rfc850Fields s = some f) : f.InType := by
  unfold rfc850Fields at h
  split at h
  · split at h
    · cases h
    · split at h
      · exact .of_read h
      · cases h
  · cases h

theorem asctimeFields_inType {s : Str} {f : DateFields} (h : asctimeFields s = some f) : f.InType := by
  unfold asctimeFields at h
  split at h
  · obtain ⟨_, hmonth, h⟩ := Option.bind_eq_some_iff.mp h
    obtain ⟨_, hday, h⟩ := Option.bind_eq_some_iff.mp h
    obtain ⟨_, htime, h⟩ := Option.bind_eq_some_iff.mp h
    obtain ⟨_, hyear, h⟩ := Option.bind_eq_some_iff.mp h
    cases h
    exact .of_parts hyear hmonth hday htime
  · cases h

/-- The century of two digits stays in its type. -/
theorem pivotYear_ok (checks : Bool) {y : Int} (hlo : -2147483648 ≤ y) (hhi : y ≤ 2147483647) :
    ∃ year, pivotYear checks y = .ok year ∧ -2147483648 ≤ year ∧ year ≤ 2147483647 := by
  unfold pivotYear
  split
  · exact ⟨_, checkedI32_of_range (by omega) (by omega), by omega, by omega⟩
  · split
    · exact ⟨_, checkedI32_of_range (by omega) (by omega), by omega, by omega⟩
    · exact ⟨y, rfl, hlo, hhi⟩

/-- One of the three forms reads these fields from a text. -/
def DateForm (input : Str) (f : DateFields) : Prop :=
  rfc1123Fields (trim input) = some f ∨ rfc850Fields (trim input) = some f ∨
    asctimeFields (trim input) = some f

/--
A text is read without overflow, and a date whose month cannot have its day is
refused.
-/
def SafelyRead (input : Str) : Prop :=
  (∃ result, parseHttpDate true input = .ok result) ∧
    ∀ f, DateForm input f → ¬ (1 ≤ f.day ∧ f.day ≤ 31) →
      ∀ checks, parseHttpDate checks input = .ok none

theorem map_dateToEpoch_eq {checks : Bool} {f : DateFields} (h : f.InType) (hday : 1 ≤ f.day) :
    some <$> dateToEpoch checks f = .ok (some f.epoch) := by
  rw [dateToEpoch_eq h hday]
  rfl

/-- A date of the second form without day 0 overflows nowhere. -/
theorem parseRfc850_ok (checks : Bool) {s : Str}
    (h : ∀ f, rfc850Fields s = some f → 1 ≤ f.day) : ∃ r, parseRfc850 checks s = .ok r := by
  unfold parseRfc850
  cases hf : rfc850Fields s with
  | none => exact ⟨none, rfl⟩
  | some f =>
      have hin := rfc850Fields_inType hf
      obtain ⟨year, hyear, hlo, hhi⟩ := pivotYear_ok checks hin.year_ge hin.year_le
      have hin' : DateFields.InType { f with year := year } :=
        { hin with year_ge := hlo, year_le := hhi }
      exact ⟨_, bind_eq_ok.mpr ⟨year, hyear, map_dateToEpoch_eq hin' (h f hf)⟩⟩

/--
**Without day 0 nothing overflows.**

The one sum that may leave its type is the day less one.
-/
theorem parseHttpDate_ok {checks : Bool} {input : Str} (h : ∀ f, DateForm input f → 1 ≤ f.day) :
    ∃ result, parseHttpDate checks input = .ok result := by
  have hfirst : ∃ r, parseRfc1123 checks (trim input) = .ok r := by
    unfold parseRfc1123
    cases hf : rfc1123Fields (trim input) with
    | none => exact ⟨none, rfl⟩
    | some f => exact ⟨_, map_dateToEpoch_eq (rfc1123Fields_inType hf) (h f (.inl hf))⟩
  have hthird : ∃ r, parseAsctime checks (trim input) = .ok r := by
    unfold parseAsctime
    cases hf : asctimeFields (trim input) with
    | none => exact ⟨none, rfl⟩
    | some f => exact ⟨_, map_dateToEpoch_eq (asctimeFields_inType hf) (h f (.inr (.inr hf)))⟩
  obtain ⟨first, hfirst⟩ := hfirst
  obtain ⟨second, hsecond⟩ := parseRfc850_ok checks fun f hf => h f (.inr (.inl hf))
  obtain ⟨third, hthird⟩ := hthird
  unfold parseHttpDate
  dsimp only
  split
  · exact ⟨_, rfl⟩
  · cases first with
    | some ts => exact ⟨some ts, bind_eq_ok.mpr ⟨_, hfirst, rfl⟩⟩
    | none =>
        cases second with
        | some ts =>
            exact ⟨some ts, bind_eq_ok.mpr ⟨_, hfirst, bind_eq_ok.mpr ⟨_, hsecond, rfl⟩⟩⟩
        | none =>
            exact ⟨third, bind_eq_ok.mpr ⟨_, hfirst, bind_eq_ok.mpr ⟨_, hsecond, hthird⟩⟩⟩

/-! Without overflow checks, a date in one of the forms always becomes a number. -/

theorem checkedI64_unchecked (x : Int) : ∃ y, checkedI64 false x = .ok y := by
  unfold checkedI64
  split
  · exact ⟨_, rfl⟩
  · exact ⟨_, rfl⟩

theorem addYears_unchecked (n : Nat) : ∀ yr days : Int, ∃ r, addYears false n yr days = .ok r := by
  induction n with
  | zero =>
      intro yr days
      exact ⟨days, rfl⟩
  | succ n ih =>
      intro yr days
      obtain ⟨next, hnext⟩ := checkedI64_unchecked (days + daysInYear yr)
      obtain ⟨r, hr⟩ := ih (yr + 1) next
      exact ⟨r, bind_eq_ok.mpr ⟨next, hnext, hr⟩⟩

theorem addMonths_unchecked (y : Int) (n : Nat) : ∀ (m : Nat) (days : Int),
    ∃ r, addMonths false y n m days = .ok r := by
  induction n with
  | zero =>
      intro m days
      exact ⟨days, rfl⟩
  | succ n ih =>
      intro m days
      obtain ⟨next, hnext⟩ := checkedI64_unchecked (days + daysInMonth m y)
      obtain ⟨r, hr⟩ := ih (m + 1) next
      exact ⟨r, bind_eq_ok.mpr ⟨next, hnext, hr⟩⟩

theorem dateToEpoch_unchecked (f : DateFields) : ∃ ts, dateToEpoch false f = .ok ts := by
  obtain ⟨years, hyears⟩ : ∃ r, daysToYear false f.year = .ok r := by
    unfold daysToYear
    split
    · obtain ⟨days, hdays⟩ := addYears_unchecked (1970 - f.year).toNat f.year 0
      obtain ⟨r, hr⟩ := checkedI64_unchecked (-days)
      exact ⟨r, bind_eq_ok.mpr ⟨days, hdays, hr⟩⟩
    · exact addYears_unchecked _ _ _
  obtain ⟨months, hmonths⟩ := addMonths_unchecked f.year f.month 0 years
  obtain ⟨before, hbefore⟩ : ∃ r, subU32 false f.day 1 = .ok r := by
    unfold subU32
    split
    · exact ⟨_, rfl⟩
    · exact ⟨_, rfl⟩
  obtain ⟨days, hdays⟩ := checkedI64_unchecked (months + before)
  obtain ⟨s₁, h₁⟩ := checkedI64_unchecked (days * 86400)
  obtain ⟨s₂, h₂⟩ := checkedI64_unchecked (f.hour * 3600)
  obtain ⟨s₃, h₃⟩ := checkedI64_unchecked (s₁ + s₂)
  obtain ⟨s₄, h₄⟩ := checkedI64_unchecked (f.min * 60)
  obtain ⟨s₅, h₅⟩ := checkedI64_unchecked (s₃ + s₄)
  obtain ⟨s₆, h₆⟩ := checkedI64_unchecked (s₅ + f.sec)
  exact ⟨s₆, bind_eq_ok.mpr ⟨_, hyears, bind_eq_ok.mpr ⟨_, hmonths, bind_eq_ok.mpr ⟨_, hbefore,
    bind_eq_ok.mpr ⟨_, hdays, bind_eq_ok.mpr ⟨_, h₁, bind_eq_ok.mpr ⟨_, h₂, bind_eq_ok.mpr ⟨_, h₃,
    bind_eq_ok.mpr ⟨_, h₄, bind_eq_ok.mpr ⟨_, h₅, h₆⟩⟩⟩⟩⟩⟩⟩⟩⟩⟩

/-- So what is refused is in none of the forms. -/
theorem not_dateForm_of_none {input : Str} (h : parseHttpDate false input = .ok none)
    (f : DateFields) : ¬ DateForm input f := by
  have hsome : ∀ f : DateFields, ∃ ts, some <$> dateToEpoch false f = .ok (some ts) := by
    intro f
    obtain ⟨ts, hts⟩ := dateToEpoch_unchecked f
    exact ⟨ts, by rw [hts]; rfl⟩
  unfold parseHttpDate at h
  dsimp only at h
  split at h
  · cases h
  · obtain ⟨first, hfirst, h⟩ := bind_eq_ok.mp h
    cases first with
    | some ts => cases h
    | none =>
        obtain ⟨second, hsecond, h⟩ := bind_eq_ok.mp h
        cases second with
        | some ts => cases h
        | none =>
            rintro (hf | hf | hf)
            · obtain ⟨ts, hts⟩ := hsome f
              unfold parseRfc1123 at hfirst
              rw [hf] at hfirst
              cases hts.symm.trans hfirst
            · unfold parseRfc850 at hsecond
              rw [hf] at hsecond
              obtain ⟨year, -, hsecond⟩ := bind_eq_ok.mp hsecond
              obtain ⟨ts, hts⟩ := hsome { f with year := year }
              cases hts.symm.trans hsecond
            · obtain ⟨ts, hts⟩ := hsome f
              unfold parseAsctime at h
              rw [hf] at h
              cases hts.symm.trans h

/--
**A text is read safely exactly if it is no date with a day that no month has.**

A date with day 0 aborts or is read as the day before the first, and one with a day
above 31 is read as a day of a later month; neither is refused, which is what a text
that is no date deserves.
-/
theorem date_read_safely_iff (input : Str) :
    SafelyRead input ↔ ∀ f, DateForm input f → 1 ≤ f.day ∧ f.day ≤ 31 := by
  constructor
  · rintro ⟨-, hrefused⟩ f hf
    by_contra hday
    exact not_dateForm_of_none (hrefused f hf hday false) f hf
  · intro h
    exact ⟨parseHttpDate_ok fun f hf => (h f hf).1, fun f hf hday => absurd (h f hf) hday⟩

/-- Day 0 overflows, and day 99 is read. -/
theorem day_zero_overflows :
    ¬ SafelyRead "Sun, 00 Nov 1994 08:49:37 GMT".toList ∧
      parseHttpDate true "Sun, 00 Nov 1994 08:49:37 GMT".toList = .error .overflow ∧
      parseHttpDate false "Sun, 00 Nov 1994 08:49:37 GMT".toList = .ok (some 371085957967777) ∧
      parseHttpDate true "Sun, 99 Nov 1994 08:49:37 GMT".toList = .ok (some 792146977) := by
  have hzero : parseHttpDate true "Sun, 00 Nov 1994 08:49:37 GMT".toList = .error .overflow := by
    decide +kernel
  refine ⟨?_, hzero, by decide +kernel, by decide +kernel⟩
  rintro ⟨⟨result, h⟩, -⟩
  rw [hzero] at h
  cases h

end Thttpd
