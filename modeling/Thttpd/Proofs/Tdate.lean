/-
The text of an HTTP date.

Without overflow checks every timestamp has one: what is left after whole years is
less than a year, so the month is one of twelve.  And it is text of one line.

Other modules need of a date only that it is there and has no line end in it, so
this is proved apart from the calendar: with the arithmetic wrapped around, whatever
the timestamp.
-/
import Thttpd.Http.Tdate
import Thttpd.Proofs.Head

namespace Thttpd

open Text

/-! ### Years and months

Of the two loops it has to be seen only what is left when they end.
-/

/-- No year is shorter than that. -/
theorem secsPerShortYear_le (y : Int) : (secsPerShortYear : Int) ≤ daysInYear y * secsPerDay := by
  unfold daysInYear secsPerShortYear secsPerDay
  split <;> omega

/-- The fuel of the year loop is enough. -/
theorem lt_div_succ_mul (t : Int) {k : Nat} (hk : 0 < k) : t < ((t.toNat / k + 1 : Nat) : Int) * k := by
  have hlt := Nat.lt_mul_div_succ t.toNat hk
  rw [Nat.mul_comm] at hlt
  have hle := Int.self_le_toNat t
  have hcast : (t.toNat : Int) < ((t.toNat / k + 1 : Nat) : Int) * k := by exact_mod_cast hlt
  omega

/-- Less than a year is left, if there is fuel enough. -/
theorem takeYears_lt {checks : Bool} (fuel : Nat) : ∀ (remaining year : Int) (result : Int × Int),
    remaining < fuel * secsPerShortYear → takeYears checks fuel remaining year = .ok result →
      result.1 < daysInYear result.2 * secsPerDay := by
  induction fuel with
  | zero =>
      intro remaining year result hlt h
      cases h
      have hpos : (0 : Int) < secsPerShortYear := by decide
      have hyear := secsPerShortYear_le year
      show remaining < daysInYear year * secsPerDay
      omega
  | succ fuel ih =>
      intro remaining year result hlt h
      unfold takeYears at h
      split at h
      · rename_i hyear
        cases h
        exact hyear
      · obtain ⟨next, -, h⟩ := bind_eq_ok.mp h
        refine ih _ next result ?_ h
        have hyear := secsPerShortYear_le year
        push_cast at hlt
        rw [Int.add_mul] at hlt
        omega

/-- Days from the start of a month to the start of a later one. -/
def daysInMonths (year : Int) : Nat → Nat → Nat
  | 0, _ => 0
  | n + 1, month => daysInMonth month year + daysInMonths year n (month + 1)

theorem daysInMonths_twelve (year : Int) : daysInMonths year 12 0 = daysInYear year := by
  unfold daysInYear
  cases h : isLeapYear year <;> simp [daysInMonths, daysInMonth, h]

/-- The month is one of those whose days are counted. -/
theorem takeMonths_lt (year : Int) (fuel : Nat) : ∀ (remaining : Int) (month : Nat),
    remaining < daysInMonths year fuel month * secsPerDay → 0 < fuel →
      (takeMonths year fuel remaining month).2 < month + fuel := by
  induction fuel with
  | zero =>
      intro remaining month _ hpos
      cases hpos
  | succ fuel ih =>
      intro remaining month hlt _
      unfold takeMonths
      split
      · show month < _
        omega
      · rename_i hmonth
        unfold daysInMonths at hlt
        push_cast at hlt
        rw [Int.add_mul] at hlt
        cases fuel with
        | zero =>
            simp only [daysInMonths] at hlt
            omega
        | succ fuel =>
            have hrec := ih (remaining - daysInMonth month year * secsPerDay) (month + 1) (by omega)
              (by omega)
            omega

/-- A place within a table has a name. -/
theorem nameAt_of_lt (names : List Str) {i : Nat} (h : i < names.length) :
    ∃ name, nameAt names i = .ok name := by
  unfold nameAt
  rw [List.getElem?_eq_getElem h]
  exact ⟨_, rfl⟩

theorem takeYears_unchecked (fuel : Nat) : ∀ remaining year : Int,
    ∃ result, takeYears false fuel remaining year = .ok result := by
  induction fuel with
  | zero =>
      intro remaining year
      exact ⟨_, rfl⟩
  | succ fuel ih =>
      intro remaining year
      obtain ⟨next, hnext⟩ : ∃ next, checkedI32 false (year + 1) = .ok next := by
        unfold checkedI32
        split
        · exact ⟨_, rfl⟩
        · exact ⟨_, rfl⟩
      unfold takeYears
      split
      · exact ⟨_, rfl⟩
      · rw [hnext]
        exact ih _ next

/--
**A build without overflow checks formats every timestamp.**

The numbers wrap around in such a build, and the name of a month or a day is still
looked up within its table.
-/
theorem formatHttpDate_unchecked (timestamp : Int) :
    ∃ date, formatHttpDate false timestamp = .ok date := by
  obtain ⟨result, hyears⟩ := takeYears_unchecked
    (timestamp.toNat / secsPerShortYear + 1) timestamp 1970
  have hlt := takeYears_lt _ timestamp 1970 result (lt_div_succ_mul timestamp (by decide)) hyears
  rw [← daysInMonths_twelve] at hlt
  have hmonth := takeMonths_lt result.2 12 result.1 0 hlt (by decide)
  have hdow := Int.tmod_lt_of_pos (((timestamp.tdiv secsPerDay).bmod 4294967296).tmod 7 + 7)
    (show (0 : Int) < 7 by decide)
  have hweekdays : weekdayNames.length = 7 := rfl
  have hmonths : monthNames.length = 12 := rfl
  obtain ⟨day, hday⟩ : ∃ day, checkedU32 false
      (asU32 ((takeMonths result.2 12 result.1 0).1.tdiv secsPerDay) + 1) = .ok day := by
    unfold checkedU32
    split
    · exact ⟨_, rfl⟩
    · exact ⟨_, rfl⟩
  obtain ⟨weekday, hweekday⟩ := nameAt_of_lt weekdayNames
    (i := ((((timestamp.tdiv secsPerDay).bmod 4294967296).tmod 7 + 7).tmod 7).toNat) (by omega)
  obtain ⟨monthName, hname⟩ := nameAt_of_lt monthNames
    (i := (takeMonths result.2 12 result.1 0).2) (by omega)
  exact ⟨_, bind_eq_ok.mpr ⟨result, hyears, bind_eq_ok.mpr ⟨day, hday,
    bind_eq_ok.mpr ⟨weekday, hweekday, bind_eq_ok.mpr ⟨monthName, hname, rfl⟩⟩⟩⟩⟩

/-! ### One line

Numbers, names and fixed marks.
-/

/-- Two digits are no line end. -/
theorem twoDigits_noBreak (n : Nat) : NoBreak (twoDigits n) := by
  unfold twoDigits
  split
  · exact NoBreak.append (s := ['0']) (by decide) (natStr_noBreak n)
  · exact natStr_noBreak n

/-- Nor is a name of the tables. -/
theorem nameAt_noBreak {names : List Str} {i : Nat} {name : Str} (hnames : ∀ n ∈ names, NoBreak n)
    (h : nameAt names i = .ok name) : NoBreak name := by
  unfold nameAt at h
  cases hfound : names[i]? with
  | none =>
      rw [hfound] at h
      cases h
  | some found =>
      rw [hfound] at h
      cases h
      exact hnames _ (List.mem_of_getElem? hfound)

/--
**A date is text of one line.**

The text is put together of numerals, names from the tables and the marks between
them.
-/
theorem formatHttpDate_noBreak {checks : Bool} {timestamp : Int} {date : Str}
    (h : formatHttpDate checks timestamp = .ok date) : NoBreak date := by
  obtain ⟨⟨inYear, year⟩, -, h⟩ := bind_eq_ok.mp h
  obtain ⟨day, -, h⟩ := bind_eq_ok.mp h
  obtain ⟨weekday, hweekday, h⟩ := bind_eq_ok.mp h
  obtain ⟨monthName, hmonth, h⟩ := bind_eq_ok.mp h
  cases h
  have hweekdays : ∀ name ∈ weekdayNames, NoBreak name := by decide
  have hmonths : ∀ name ∈ monthNames, NoBreak name := by decide
  have hspace : NoBreak [' '] := by decide
  have hcolon : NoBreak [':'] := by decide
  have htail : NoBreak " GMT".toList := by decide
  have hcomma : NoBreak ", ".toList := by decide
  exact ((((((((((((nameAt_noBreak hweekdays hweekday).append hcomma).append
    (twoDigits_noBreak day)).append hspace).append (nameAt_noBreak hmonths hmonth)).append
    hspace).append (intStr_noBreak year)).append hspace).append (twoDigits_noBreak _)).append
    hcolon).append (twoDigits_noBreak _)).append hcolon |>.append (twoDigits_noBreak _)).append htail

end Thttpd
