/-
The calendar of the listings.

A listing takes the days since 1970 apart with loops of its own, over the lengths of the
years and an array of the lengths of the months.  Both end at the date of the calendar, so
a listing shows the date that the HTTP date of the same time shows.

The loops go by different steps than those of the HTTP date: one year at a time over
days, and one month at a time over an array.  Both calendars are therefore taken to a
third, the closed form of `Lib/Civil`, in which a date and a day number determine
each other.
-/
import Thttpd.Http.Dirlist
import Thttpd.Proofs.Dates

namespace Thttpd

open Text Civil

/-- The rule for leap years is the calendar's. -/
theorem isLeap_eq (y : Nat) : isLeap y = leap (y : Int) := by
  unfold isLeap leap
  rw [Bool.eq_iff_iff]
  simp only [Bool.or_eq_true, Bool.and_eq_true, beq_iff_eq, bne_iff_ne]
  omega

/-- So is the length of a year. -/
theorem yearLength_natCast (y : Nat) :
    yearLength (y : Int) = ((if isLeap y then 366 else 365 : Nat) : Int) := by
  unfold yearLength
  rw [isLeap_eq]
  split <;> rfl

/--
**The year loop ends in the year of the day.**

The induction is on the fuel, of which a day for each round is more than enough.
-/
theorem yearOf_eq {Y : Int} (fuel : Nat) : ∀ days year : Nat, days ≤ fuel → year ≤ Y →
    yearStart Y ≤ days + yearStart year → days + yearStart year < yearStart (Y + 1) →
      yearOf fuel days year = (Y.toNat, (days + yearStart year - yearStart Y).toNat) := by
  induction fuel with
  | zero =>
      intro days year hfuel hle hlo _
      have hdays : days = 0 := Nat.le_zero.mp hfuel
      have hyear : (year : Int) = Y := by
        by_contra hne
        have hmono := yearStart_mono (show (year : Int) + 1 ≤ Y by omega)
        have hsucc := yearStart_succ (year : Int)
        rw [yearLength_natCast] at hsucc
        split at hsucc <;> omega
      subst hyear
      rw [hdays]
      simp [yearOf]
  | succ fuel ih =>
      intro days year hfuel hle hlo hhi
      have hsucc := yearStart_succ (year : Int)
      rw [yearLength_natCast] at hsucc
      rw [yearOf]
      by_cases hin : days < if isLeap year then 366 else 365
      · have hyear : (year : Int) = Y := by
          by_contra hne
          have hmono := yearStart_mono (show (year : Int) + 1 ≤ Y by omega)
          omega
        subst hyear
        rw [if_pos hin]
        simp
      · have hlt : (year : Int) < Y := by
          by_contra hge
          have heq : (year : Int) = Y := by omega
          rw [← heq] at hhi
          omega
        have hpos : 0 < if isLeap year then 366 else 365 := by split <;> decide
        have hcast : ((days - if isLeap year then 366 else 365 : Nat) : Int)
            = days - (if isLeap year then 366 else 365 : Nat) := Int.ofNat_sub (Nat.le_of_not_lt hin)
        rw [if_neg hin, ih _ (year + 1) (by omega) (by push_cast; omega) (by push_cast; omega)
          (by push_cast; omega)]
        push_cast
        congr 2
        omega

/-- The array holds the lengths of the months of that year. -/
theorem monthDays_getElem? {y : Int} : ∀ i < 12,
    (monthDays (leap y))[i]? = some (monthLength y (i + 1)) := by
  intro i hi
  interval_cases i <;> rfl

/-- **The month loop ends in the month of the day.** -/
theorem monthOf_eq {y : Int} {M : Nat} (hM : M < 12) (n : Nat) : ∀ i r : Nat, i + n = M →
    monthStart y M ≤ r + monthStart y i → r + monthStart y i < monthStart y (M + 1) →
      monthOf ((monthDays (leap y)).drop i) i r = (M, r + monthStart y i - monthStart y M) := by
  induction n with
  | zero =>
      intro i r hi hlo hhi
      have hi : i = M := hi
      subst hi
      obtain ⟨hlt, hget⟩ := List.getElem?_eq_some_iff.mp (monthDays_getElem? (y := y) i hM)
      rw [monthStart] at hhi
      rw [List.drop_eq_getElem_cons hlt, hget, monthOf, if_pos (by omega), Nat.add_sub_cancel]
  | succ n ih =>
      intro i r hi hlo hhi
      obtain ⟨hlt, hget⟩ := List.getElem?_eq_some_iff.mp (monthDays_getElem? (y := y) i (by omega))
      have hmono := monthStart_mono y (show i + 1 ≤ M by omega)
      have hstart : monthStart y (i + 1) = monthStart y i + monthLength y (i + 1) := rfl
      rw [List.drop_eq_getElem_cons hlt, hget, monthOf, if_neg (by omega),
        ih (i + 1) _ (by omega) (by omega) (by omega)]
      congr 1
      omega

/-- **The days since 1970 are taken apart into the date they lead to.** -/
theorem daysToYmd_eq {d : Date} (hlo : 1970 ≤ d.year) :
    daysToYmd (d.number - epochDay).toNat = (d.year.toNat, d.month, d.day) := by
  have hstart : epochDay = yearStart 1970 := rfl
  have hle := d.le_number
  have hlt := d.number_lt
  have hmono := yearStart_mono hlo
  have hdays : (((d.number - epochDay).toNat : Nat) : Int) = d.number - yearStart 1970 := by omega
  have hyear : yearOf (d.number - epochDay).toNat (d.number - epochDay).toNat 1970
      = (d.year.toNat, d.dayOfYear) := by
    rw [yearOf_eq (Y := d.year) _ _ 1970 (Nat.le_refl _) hlo (by push_cast; omega)
      (by push_cast; omega)]
    unfold Date.number at hdays ⊢
    push_cast
    congr 1
    omega
  have hleap : isLeap d.year.toNat = leap d.year := by
    rw [isLeap_eq, Int.toNat_of_nonneg (by omega)]
  have hday := d.lt_monthStart
  have hpos := d.month_pos
  have htwelve := d.month_le
  have hmonth : monthOf (monthDays (leap d.year)) 0 d.dayOfYear = (d.month - 1, d.day - 1) := by
    have hsplit : d.dayOfYear = monthStart d.year (d.month - 1) + (d.day - 1) := rfl
    have heq := monthOf_eq (y := d.year) (M := d.month - 1) (by omega) (d.month - 1) 0 d.dayOfYear
      (by omega) (by omega) (by rw [Nat.sub_add_cancel hpos]; exact hday)
    rw [List.drop_zero] at heq
    rw [heq, hsplit, monthStart]
    congr 1
    omega
  have hdaypos := d.day_pos
  unfold daysToYmd
  rw [hyear]
  dsimp only
  rw [hleap, hmonth]
  dsimp only
  rw [Nat.sub_add_cancel hpos, Nat.sub_add_cancel hdaypos]

/--
**The two calendars agree**: what a listing computes is what the HTTP date shows,
and the date at midnight is read back as the start of the day.

Three pieces of code have a calendar of their own: the listing, the writer of dates
and their reader.  Each of them is shown to be the one of `Civil`, and so the three
agree.
-/
theorem calendars_agree {secs : Nat} (hy : (daysToYmd (secs / 86400)).1 ≤ 2147483647)
    (checks : Bool) :
    ∃ year month day, daysToYmd (secs / 86400) = (year, month, day) ∧
      (∃ weekday m, formatHttpDate checks secs = .ok (rfc1123Text weekday m) ∧
        m.date.year = year ∧ m.date.month = month ∧ m.date.day = day) ∧
      dateToEpoch checks ⟨year, month - 1, day, 0, 0, 0⟩ = .ok ((secs / 86400 : Nat) * 86400) := by
  obtain ⟨m, hm⟩ := Moment.exists_seconds (secs : Int)
  have hlo : 1970 ≤ m.date.year := by
    rw [← seconds_nonneg_iff, hm]
    exact Int.natCast_nonneg secs
  have hdays : (m.date.number - epochDay).toNat = secs / 86400 := by
    rw [← m.seconds_div, hm]
    omega
  have hymd := daysToYmd_eq hlo
  rw [hdays] at hymd
  rw [hymd] at hy
  have hhi : m.date.year ≤ 2147483647 := by
    have hy : m.date.year.toNat ≤ 2147483647 := hy
    omega
  have hyear : ((m.date.year.toNat : Nat) : Int) = m.date.year := Int.toNat_of_nonneg (by omega)
  have hformat := formatHttpDate_eq checks hlo hhi
  rw [hm] at hformat
  refine ⟨_, _, _, hymd, ⟨_, m, hformat, hyear.symm, rfl, rfl⟩, ?_⟩
  have hin := fieldsOf_inType (m := .midnight m.date) (show -2147483648 ≤ m.date.year by omega) hhi
  have hepoch := epoch_fieldsOf (.midnight m.date)
  rw [Moment.midnight_seconds, ← m.seconds_div, hm] at hepoch
  rw [hyear]
  refine (dateToEpoch_eq hin m.date.day_pos).trans ?_
  rw [hepoch]
  push_cast
  rfl

/-- The leap day of the year 2000. -/
theorem calendars_agree_leapDay :
    ∃ year month day, daysToYmd (951827696 / 86400) = (year, month, day) ∧
      (∃ weekday m, formatHttpDate true (951827696 : Nat) = .ok (rfc1123Text weekday m) ∧
        m.date.year = year ∧ m.date.month = month ∧ m.date.day = day) ∧
      dateToEpoch true ⟨year, month - 1, day, 0, 0, 0⟩ = .ok ((951827696 / 86400 : Nat) * 86400) :=
  @calendars_agree 951827696 (by decide +kernel) true

end Thttpd
