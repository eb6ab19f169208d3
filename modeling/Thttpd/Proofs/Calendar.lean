/-
The date arithmetic against the calendar.

Formatting takes whole years and whole months off a timestamp, and parsing adds them up
again.  Each of the four loops agrees with the closed form of the calendar, as long as
the years fit their type: nothing else can leave its type.

The loops count in `i32` and `i64`, and the closed form in numbers without a bound,
so each result has the range in which the count stays.  For formatting that is any
moment of the `i64` whose year fits an `i32`; for parsing the years are at most
those an `i32` can name, and a sum of that many days fits with room to spare
(`FewDays`).
-/
import Mathlib.Tactic.IntervalCases
import Thttpd.Lib.Civil
import Thttpd.Proofs.Tdate

namespace Thttpd

open Text Civil

/-! ### Years and months

What the code takes for the length of a year and of a month.
-/

/-- The code's rule for leap years is that of the calendar. -/
theorem isLeapYear_eq (y : Int) : isLeapYear y = leap y := by
  have hmod : ∀ k : Int, (y.tmod k == 0) = (y % k == 0) := by
    intro k
    rw [Bool.eq_iff_iff, beq_iff_eq, beq_iff_eq, ← Int.dvd_iff_tmod_eq_zero,
      ← Int.dvd_iff_emod_eq_zero]
  unfold isLeapYear leap bne
  rw [hmod, hmod, hmod]

theorem daysInYear_eq (y : Int) : (daysInYear y : Int) = yearLength y := by
  unfold daysInYear yearLength
  rw [isLeapYear_eq]
  cases leap y <;> rfl

/-- The code counts months from 0, the calendar from 1. -/
theorem daysInMonth_eq (m : Nat) (y : Int) : daysInMonth m y = monthLength y (m + 1) := by
  by_cases h : m < 12
  · interval_cases m <;> simp [daysInMonth, monthLength, isLeapYear_eq]
  · obtain ⟨k, rfl⟩ := Nat.exists_eq_add_of_le' (Nat.le_of_not_lt h)
    rfl

/-- A year is as long as the calendar has it. -/
theorem daysInYear_succ (y : Int) : yearStart y + daysInYear y = yearStart (y + 1) := by
  rw [daysInYear_eq, yearStart_succ]

theorem daysInMonth_succ (m : Nat) (y : Int) :
    monthStart y m + daysInMonth m y = monthStart y (m + 1) := by
  rw [daysInMonth_eq, monthStart]

theorem daysInMonth_le (m : Nat) (y : Int) : daysInMonth m y ≤ 31 := by
  unfold daysInMonth
  repeat' split
  all_goals omega

/-! ### Taking off

A loop that takes off whole years runs until what is left is less than a year.  It
ends in the calendar's year, as a moment falls into one year only.
-/

theorem checkedI32_of_range {checks : Bool} {x : Int} (hlo : -2147483648 ≤ x) (hhi : x ≤ 2147483647) :
    checkedI32 checks x = .ok x := if_pos ⟨hlo, hhi⟩

/--
**The year loop leaves the year that the seconds fall in**, and what is left of
them.

The induction is on the fuel, with the year as an accumulator: a year is taken off
as long as what is left is a year long, and every sum on the way stays within its
type because the last year does.
-/
theorem takeYears_eq {checks : Bool} {Y : Int} (hY : Y ≤ 2147483647) (fuel : Nat) :
    ∀ r y : Int, -2147483648 ≤ y → y ≤ Y → r < fuel * secsPerShortYear →
      yearStart Y * secsPerDay ≤ r + yearStart y * secsPerDay →
      r + yearStart y * secsPerDay < yearStart (Y + 1) * secsPerDay →
      takeYears checks fuel r y = .ok (r - (yearStart Y - yearStart y) * secsPerDay, Y) := by
  unfold secsPerDay
  induction fuel with
  | zero =>
      intro r y _ hle hfuel hlo _
      have := yearStart_mono hle
      omega
  | succ fuel ih =>
      intro r y hy hle hfuel hlo hhi
      have hsucc := daysInYear_succ y
      unfold takeYears secsPerDay
      split
      · rename_i hlt
        have hyY : y = Y := by
          by_contra hne
          have := yearStart_mono (show y + 1 ≤ Y by omega)
          omega
        subst hyY
        simp
      · rename_i hge
        have hyY : y + 1 ≤ Y := by
          by_contra hne
          obtain rfl : y = Y := by omega
          omega
        have hshort := secsPerShortYear_le y
        unfold secsPerDay at hshort
        push_cast at hfuel
        rw [Int.add_mul] at hfuel
        rw [checkedI32_of_range (by omega) (by omega)]
        show takeYears checks fuel _ _ = _
        rw [ih _ _ (by omega) hyY (by omega) (by omega) (by omega)]
        congr 2
        omega

/--
**The month loop leaves the month that the seconds fall in**, and what is left of
them.
-/
theorem takeMonths_eq {y : Int} {M : Nat} (fuel : Nat) :
    ∀ (r : Int) (m : Nat), m ≤ M → M < m + fuel →
      (monthStart y M : Int) * secsPerDay ≤ r + monthStart y m * secsPerDay →
      r + monthStart y m * secsPerDay < monthStart y (M + 1) * secsPerDay →
      takeMonths y fuel r m
        = (r - ((monthStart y M : Int) - monthStart y m) * secsPerDay, M) := by
  unfold secsPerDay
  induction fuel with
  | zero =>
      intro r m hle hlt
      omega
  | succ fuel ih =>
      intro r m hle hfuel hlo hhi
      have hsucc := daysInMonth_succ m y
      unfold takeMonths secsPerDay
      split
      · rename_i hlt
        have hmM : m = M := by
          by_contra hne
          have := monthStart_mono y (show m + 1 ≤ M by omega)
          omega
        subst hmM
        simp
      · rename_i hge
        have hmM : m + 1 ≤ M := by
          by_contra hne
          obtain rfl : m = M := by omega
          omega
        rw [ih _ _ hmM (by omega) (by omega) (by omega)]
        congr 1
        omega

/-! ### Adding up

The days of the years between, then those of the months, then the day itself, and
each sum is checked by the code.
-/

theorem checkedI64_of_range {checks : Bool} {x : Int} (hlo : i64Min ≤ x) (hhi : x ≤ i64Max) :
    checkedI64 checks x = .ok x := if_pos ⟨hlo, hhi⟩

/-- A sum of days far from the ends of its type. -/
def FewDays (days : Int) : Prop := -1000000000000 ≤ days ∧ days ≤ 1000000000000

theorem checkedI64_fewDays {checks : Bool} {days : Int} (h : FewDays days) :
    checkedI64 checks days = .ok days :=
  checkedI64_of_range (Int.le_trans (by decide) h.1) (Int.le_trans h.2 (by decide))

/-- Forward from 1970. -/
theorem addYears_eq {checks : Bool} (n : Nat) : ∀ yr days : Int,
    FewDays days → FewDays (days + 366 * n) →
      addYears checks n yr days = .ok (days + (yearStart (yr + n) - yearStart yr)) := by
  induction n with
  | zero =>
      intro yr days _ _
      simp [addYears]
  | succ n ih =>
      intro yr days hdays hend
      have hsucc := daysInYear_succ yr
      have hle : daysInYear yr ≤ 366 := by
        unfold daysInYear
        split <;> omega
      unfold FewDays at hdays hend
      push_cast at hend
      have hfew : FewDays (days + daysInYear yr) := by
        unfold FewDays
        omega
      unfold addYears
      rw [checkedI64_fewDays hfew]
      show addYears checks n _ _ = _
      rw [ih _ _ hfew (by unfold FewDays; omega)]
      push_cast
      rw [show yr + 1 + (n : Int) = yr + (n + 1) by omega]
      congr 1
      omega

/-- From January on. -/
theorem addMonths_eq {checks : Bool} {y : Int} (n : Nat) : ∀ (m : Nat) (days : Int),
    FewDays days → FewDays (days + 31 * n) →
      addMonths checks y n m days
        = .ok (days + ((monthStart y (m + n) : Int) - monthStart y m)) := by
  induction n with
  | zero =>
      intro m days _ _
      simp [addMonths]
  | succ n ih =>
      intro m days hdays hend
      have hsucc := daysInMonth_succ m y
      have hle := daysInMonth_le m y
      unfold FewDays at hdays hend
      push_cast at hend
      have hfew : FewDays (days + daysInMonth m y) := by
        unfold FewDays
        omega
      unfold addMonths
      rw [checkedI64_fewDays hfew]
      show addMonths checks y n _ _ = _
      rw [ih _ _ hfew (by unfold FewDays; omega)]
      rw [show m + 1 + n = m + (n + 1) by omega]
      congr 1
      omega

/-- **The days to a year are those of the calendar**, before 1970 as after. -/
theorem daysToYear_eq {checks : Bool} {year : Int} (hlo : -2147483648 ≤ year)
    (hhi : year ≤ 2147483647) : daysToYear checks year = .ok (yearStart year - epochDay) := by
  have hstart : yearStart 1970 = epochDay := rfl
  have hbound : FewDays (yearStart year - epochDay) := by
    unfold FewDays epochDay yearStart
    omega
  unfold daysToYear
  split
  · rw [addYears_eq _ _ _ (by unfold FewDays; omega) (by unfold FewDays; omega)]
    rw [show year + ((1970 - year).toNat : Int) = 1970 by omega, hstart]
    show checkedI64 checks _ = _
    rw [show -(0 + (epochDay - yearStart year)) = yearStart year - epochDay by omega]
    exact checkedI64_fewDays hbound
  · rw [addYears_eq _ _ _ (by unfold FewDays; omega) (by unfold FewDays; omega)]
    rw [show (1970 : Int) + ((year - 1970).toNat : Int) = year by omega, hstart]
    congr 1
    omega

namespace DateFields

/-- The fields are of their types, and the month is one of twelve. -/
structure InType (f : DateFields) : Prop where
  year_ge : -2147483648 ≤ f.year
  year_le : f.year ≤ 2147483647
  month_lt : f.month < 12
  day_lt : f.day < 4294967296
  hour_lt : f.hour < 4294967296
  min_lt : f.min < 4294967296
  sec_lt : f.sec < 4294967296

/-- The days from 1970 to the date, whether or not its month has that day. -/
def days (f : DateFields) : Int :=
  yearStart f.year - epochDay + monthStart f.year f.month + (f.day - 1)

def epoch (f : DateFields) : Int := f.days * 86400 + f.hour * 3600 + f.min * 60 + f.sec

end DateFields

/--
**A date whose day is not 0 becomes the seconds of the calendar**, and no step
leaves its type.

The fields are arbitrary within their types, so the month may be short of the day
and the hour above 23; the sum is that of the calendar all the same.
-/
theorem dateToEpoch_eq {checks : Bool} {f : DateFields} (h : f.InType) (hday : 1 ≤ f.day) :
    dateToEpoch checks f = .ok f.epoch := by
  have hlo := h.year_ge
  have hhi := h.year_le
  have hm := monthStart_mono f.year (Nat.le_of_lt h.month_lt)
  have htwelve := monthStart_twelve f.year
  have hlen : yearLength f.year ≤ 366 := by
    unfold yearLength
    split <;> omega
  have hmonth := h.month_lt
  have hd := h.day_lt
  have hh := h.hour_lt
  have hmin := h.min_lt
  have hs := h.sec_lt
  have hyear : -800000000000 ≤ yearStart f.year - epochDay ∧
      yearStart f.year - epochDay ≤ 800000000000 := by
    unfold epochDay yearStart
    omega
  have hmonths : addMonths checks f.year f.month 0 (yearStart f.year - epochDay)
      = .ok (yearStart f.year - epochDay + monthStart f.year f.month) := by
    rw [addMonths_eq _ _ _ (by unfold FewDays; omega) (by unfold FewDays; omega), Nat.zero_add]
    simp [monthStart]
  have hsub : subU32 checks f.day 1 = .ok (f.day - 1) := if_pos hday
  have hdays : yearStart f.year - epochDay + (monthStart f.year f.month : Int)
      + ((f.day - 1 : Nat) : Int) = f.days := by
    unfold DateFields.days
    omega
  have hrange : -900000000000 ≤ f.days ∧ f.days ≤ 900000000000 := by
    unfold DateFields.days
    omega
  have hfits : ∀ {x : Int}, -90000000000000000 ≤ x → x ≤ 90000000000000000 →
      checkedI64 checks x = .ok x := fun h h' =>
    checkedI64_of_range (Int.le_trans (by decide) h) (Int.le_trans h' (by decide))
  unfold dateToEpoch
  simp only [daysToYear_eq hlo hhi, hmonths, hsub, hdays, bind, Except.bind]
  rw [hfits (by omega) (by omega)]
  simp only []
  rw [hfits (x := f.days * 86400) (by omega) (by omega)]
  simp only []
  rw [hfits (x := (f.hour : Int) * 3600) (by omega) (by omega)]
  simp only []
  rw [hfits (x := f.days * 86400 + (f.hour : Int) * 3600) (by omega) (by omega)]
  simp only []
  rw [hfits (x := (f.min : Int) * 60) (by omega) (by omega)]
  simp only []
  rw [hfits (x := f.days * 86400 + (f.hour : Int) * 3600 + (f.min : Int) * 60) (by omega)
    (by omega)]
  simp only []
  exact hfits (by omega) (by omega)

end Thttpd
