/-
The proleptic Gregorian calendar.

Days are numbered through, from 1 January of the year 1.  The number of a date is the
start of its year, in closed form, then the start of its month in the year, then its
day, and every number is the number of exactly one date.  A moment is a date and a
time of day; counted in seconds from 1970 on, every number of seconds is one moment.
-/
import Mathlib.Data.Int.LeastGreatest
import Mathlib.Tactic.Common

namespace Civil

/-! ### Years

The start of a year is a formula, and the next year starts as many days later as the
year has.
-/

/-- A year with a 29 February. -/
def leap (y : Int) : Bool := y % 4 == 0 && y % 100 != 0 || y % 400 == 0

def yearLength (y : Int) : Int := if leap y then 366 else 365

/-- The days before 1 January of a year. -/
def yearStart (y : Int) : Int := 365 * (y - 1) + (y - 1) / 4 - (y - 1) / 100 + (y - 1) / 400

theorem yearStart_succ (y : Int) : yearStart (y + 1) = yearStart y + yearLength y := by
  unfold yearStart yearLength leap
  split
  · rename_i h
    simp only [Bool.or_eq_true, Bool.and_eq_true, beq_iff_eq, bne_iff_ne] at h
    omega
  · rename_i h
    simp only [Bool.or_eq_true, Bool.and_eq_true, beq_iff_eq, bne_iff_ne] at h
    omega

theorem yearStart_mono {y z : Int} (h : y ≤ z) : yearStart y ≤ yearStart z := by
  unfold yearStart
  omega

/-- Every day lies in a year. -/
theorem exists_year (n : Int) : ∃ y, yearStart y ≤ n ∧ n < yearStart (y + 1) := by
  have hbound : ∀ y, yearStart y ≤ n → y ≤ max n 1 + 1 := by
    intro y hy
    unfold yearStart at hy
    omega
  have hsome : yearStart (min n 0) ≤ n := by
    unfold yearStart
    omega
  obtain ⟨y, hy, hmax⟩ := Int.exists_greatest_of_bdd ⟨_, hbound⟩ ⟨_, hsome⟩
  refine ⟨y, hy, ?_⟩
  by_contra hlt
  have := hmax (y + 1) (by omega)
  omega

/-- A day lies in one year only. -/
theorem year_unique {n y z : Int} (hy : yearStart y ≤ n) (hy' : n < yearStart (y + 1))
    (hz : yearStart z ≤ n) (hz' : n < yearStart (z + 1)) : y = z := by
  rcases Int.lt_trichotomy y z with h | h | h
  · have := yearStart_mono (show y + 1 ≤ z by omega)
    omega
  · exact h
  · have := yearStart_mono (show z + 1 ≤ y by omega)
    omega

/-! ### Months

Months are counted from 1. -/

def monthLength (y : Int) : Nat → Nat
  | 1 | 3 | 5 | 7 | 8 | 10 | 12 => 31
  | 4 | 6 | 9 | 11 => 30
  | 2 => if leap y then 29 else 28
  | _ => 0

/-- The days of the year before the month that `n` months precede. -/
def monthStart (y : Int) : Nat → Nat
  | 0 => 0
  | n + 1 => monthStart y n + monthLength y (n + 1)

theorem monthStart_twelve (y : Int) : (monthStart y 12 : Int) = yearLength y := by
  unfold yearLength
  cases h : leap y <;> simp [monthStart, monthLength, h]

theorem monthStart_mono (y : Int) {m n : Nat} (h : m ≤ n) : monthStart y m ≤ monthStart y n := by
  induction h with
  | refl => exact Nat.le_refl _
  | step _ ih => exact Nat.le_trans ih (Nat.le_add_right _ _)

/-- Every day among the first `n` months lies in one of them. -/
theorem exists_month (y : Int) {d : Nat} : ∀ {n : Nat}, d < monthStart y n →
    ∃ m < n, monthStart y m ≤ d ∧ d < monthStart y (m + 1) := by
  intro n
  induction n with
  | zero =>
      intro h
      cases h
  | succ n ih =>
      intro h
      by_cases hn : d < monthStart y n
      · obtain ⟨m, hm, hd⟩ := ih hn
        exact ⟨m, by omega, hd⟩
      · exact ⟨n, by omega, by omega, h⟩

theorem month_unique {y : Int} {d m n : Nat} (hm : monthStart y m ≤ d)
    (hm' : d < monthStart y (m + 1)) (hn : monthStart y n ≤ d) (hn' : d < monthStart y (n + 1)) :
    m = n := by
  rcases Nat.lt_trichotomy m n with h | h | h
  · have := monthStart_mono y (show m + 1 ≤ n by omega)
    omega
  · exact h
  · have := monthStart_mono y (show n + 1 ≤ m by omega)
    omega

/-! ### Dates

A date is a year, a month and a day that the month has.  Its number determines it,
and every number has its date, which is found by going back to the start of a year
and of a month.
-/

/-- A date that the calendar has. -/
@[ext] structure Date where
  year : Int
  month : Nat
  day : Nat
  month_pos : 1 ≤ month
  month_le : month ≤ 12
  day_pos : 1 ≤ day
  day_le : day ≤ monthLength year month
  deriving DecidableEq

namespace Date

/-- The days before the date in its year. -/
def dayOfYear (d : Date) : Nat := monthStart d.year (d.month - 1) + (d.day - 1)

/-- The days before the date. -/
def number (d : Date) : Int := yearStart d.year + d.dayOfYear

theorem lt_monthStart (d : Date) : d.dayOfYear < monthStart d.year d.month := by
  have hm := d.month_pos
  have hd := d.day_pos
  have hle := d.day_le
  obtain ⟨n, hn⟩ : ∃ n, d.month = n + 1 := ⟨d.month - 1, by omega⟩
  rw [hn] at hle
  unfold dayOfYear
  rw [hn, monthStart, Nat.add_sub_cancel]
  omega

theorem dayOfYear_lt (d : Date) : (d.dayOfYear : Int) < yearLength d.year := by
  rw [← monthStart_twelve]
  have hlt := d.lt_monthStart
  have hle := monthStart_mono d.year d.month_le
  omega

theorem number_lt (d : Date) : d.number < yearStart (d.year + 1) := by
  have hlt := d.dayOfYear_lt
  rw [yearStart_succ]
  unfold number
  omega

theorem le_number (d : Date) : yearStart d.year ≤ d.number := by
  unfold number
  omega

/-- **A number belongs to one date only.** -/
theorem number_injective {d e : Date} (h : d.number = e.number) : d = e := by
  have hyear : d.year = e.year :=
    year_unique d.le_number d.number_lt (h ▸ e.le_number) (h ▸ e.number_lt)
  have hday : d.dayOfYear = e.dayOfYear := by
    unfold number at h
    rw [hyear] at h
    omega
  have hpos := d.month_pos
  have hpos' := e.month_pos
  have hmonth : d.month = e.month := by
    have hd := d.lt_monthStart
    have he := e.lt_monthStart
    rw [hday, hyear] at hd
    rw [show d.month = d.month - 1 + 1 by omega] at hd
    rw [show e.month = e.month - 1 + 1 by omega] at he
    have hle : monthStart e.year (d.month - 1) ≤ e.dayOfYear := by
      rw [← hday, ← hyear]
      exact Nat.le_add_right _ _
    have := month_unique hle hd (Nat.le_add_right _ _) he
    omega
  have hdays : d.day = e.day := by
    unfold dayOfYear at hday
    rw [hyear, hmonth] at hday
    have hd := d.day_pos
    have he := e.day_pos
    omega
  exact Date.ext hyear hmonth hdays

/-- **Every number belongs to a date.** -/
theorem exists_number (n : Int) : ∃ d : Date, d.number = n := by
  obtain ⟨y, hlo, hhi⟩ := exists_year n
  obtain ⟨k, hk⟩ := Int.eq_ofNat_of_zero_le (show 0 ≤ n - yearStart y by omega)
  rw [yearStart_succ, ← monthStart_twelve] at hhi
  obtain ⟨m, hm, hle, hlt⟩ := exists_month y (d := k) (n := 12) (by omega)
  rw [monthStart] at hlt
  refine ⟨⟨y, m + 1, k - monthStart y m + 1, by omega, by omega, by omega, by omega⟩, ?_⟩
  unfold number dayOfYear
  show yearStart y + ((monthStart y (m + 1 - 1) + (k - monthStart y m + 1 - 1) : Nat) : Int) = n
  rw [Nat.add_sub_cancel, Nat.add_sub_cancel]
  omega

end Date

/-! ### Moments

A moment adds a second of the day, so seconds are to moments what numbers are to
dates.
-/

/-- The number of 1 January 1970. -/
def epochDay : Int := yearStart 1970

/-- A date with a time of day. -/
@[ext] structure Moment where
  date : Date
  hour : Nat
  min : Nat
  sec : Nat
  hour_lt : hour < 24
  min_lt : min < 60
  sec_lt : sec < 60
  deriving DecidableEq

namespace Moment

def secondOfDay (m : Moment) : Nat := m.hour * 3600 + m.min * 60 + m.sec

/-- The seconds since the start of 1970. -/
def seconds (m : Moment) : Int := (m.date.number - epochDay) * 86400 + m.secondOfDay

theorem secondOfDay_lt (m : Moment) : m.secondOfDay < 86400 := by
  have h := m.hour_lt
  have h' := m.min_lt
  have h'' := m.sec_lt
  unfold secondOfDay
  omega

/-- The days since the start of 1970. -/
theorem seconds_div (m : Moment) : m.seconds / 86400 = m.date.number - epochDay := by
  have h := m.secondOfDay_lt
  unfold seconds
  omega

theorem seconds_injective {m n : Moment} (h : m.seconds = n.seconds) : m = n := by
  have hdate : m.date = n.date := by
    refine Date.number_injective ?_
    have := congrArg (· / 86400) h
    simp only [seconds_div] at this
    omega
  have htime : m.secondOfDay = n.secondOfDay := by
    unfold seconds at h
    rw [hdate] at h
    omega
  have hm := m.min_lt
  have hm' := m.sec_lt
  have hn := n.min_lt
  have hn' := n.sec_lt
  unfold secondOfDay at htime
  exact Moment.ext hdate (by omega) (by omega) (by omega)

theorem exists_seconds (t : Int) : ∃ m : Moment, m.seconds = t := by
  obtain ⟨d, hd⟩ := Date.exists_number (t / 86400 + epochDay)
  obtain ⟨k, hk⟩ := Int.eq_ofNat_of_zero_le (show 0 ≤ t % 86400 by omega)
  refine ⟨⟨d, k / 3600, k % 3600 / 60, k % 60, by omega, by omega, by omega⟩, ?_⟩
  unfold seconds secondOfDay
  show (d.number - epochDay) * 86400
    + ((k / 3600 * 3600 + k % 3600 / 60 * 60 + k % 60 : Nat) : Int) = t
  rw [hd]
  omega

/-- The start of a day. -/
def midnight (d : Date) : Moment := ⟨d, 0, 0, 0, by decide, by decide, by decide⟩

@[simp] theorem midnight_seconds (d : Date) :
    (midnight d).seconds = (d.number - epochDay) * 86400 := by
  simp [seconds, secondOfDay, midnight]

end Moment

/-- The moment a number of seconds after the start of 1970. -/
noncomputable def momentAt (t : Int) : Moment := (Moment.exists_seconds t).choose

@[simp] theorem seconds_momentAt (t : Int) : (momentAt t).seconds = t :=
  (Moment.exists_seconds t).choose_spec

@[simp] theorem momentAt_seconds (m : Moment) : momentAt m.seconds = m :=
  Moment.seconds_injective (seconds_momentAt m.seconds)

/-! ### Days of the week

They go round, one each day.
-/

/--
The day of the week of a day, counted from Sunday.  The days follow each other, and 1
January 1970 was a Thursday.
-/
def dayOfWeek (n : Int) : Nat := ((n - epochDay + 4) % 7).toNat

theorem dayOfWeek_lt (n : Int) : dayOfWeek n < 7 := by
  unfold dayOfWeek
  omega

end Civil
