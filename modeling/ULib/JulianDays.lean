import Mathlib.Logic.Function.Iterate
import ULib.TimeDate

/-!
The conversion of `date.cpp` between a date and its Julian day, against the
Gregorian calendar: both directions, the order of the dates, and the range of an
`int` at every step of the two formulas.
-/

namespace ULib.JulianDays

open ULib.TimeDate

/-! ### The calendar -/

structure Date where
  day : Int
  month : Int
  year : Int
  deriving DecidableEq, Repr

/-- The Gregorian leap rule -/
def IsLeap (year : Int) : Prop := 4 ∣ year ∧ (¬ 100 ∣ year ∨ 400 ∣ year)

instance (year : Int) : Decidable (IsLeap year) := inferInstanceAs (Decidable (_ ∧ _))

def monthLength (month year : Int) : Int :=
  if month = 2 then if IsLeap year then 29 else 28
  else if month = 4 ∨ month = 6 ∨ month = 9 ∨ month = 11 then 30
  else 31

theorem monthLength_le (month year : Int) : monthLength month year ≤ 31 := by
  unfold monthLength
  split
  · split <;> omega
  · split <;> omega

namespace Date

/-- The order of the calendar -/
def Before (a b : Date) : Prop :=
  a.year < b.year ∨ a.year = b.year ∧ (a.month < b.month ∨ a.month = b.month ∧ a.day < b.day)

instance (a b : Date) : Decidable (Before a b) := inferInstanceAs (Decidable (_ ∨ _))

/-- A date of the calendar after the year 0 -/
structure Valid (a : Date) : Prop where
  month : 1 ≤ a.month ∧ a.month ≤ 12
  day : 1 ≤ a.day ∧ a.day ≤ monthLength a.month a.year
  year : 1 ≤ a.year

/-- A date of the calendar from 14/09/1752 to 31/12/8000 -/
structure Covered (a : Date) : Prop where
  month : 1 ≤ a.month ∧ a.month ≤ 12
  day : 1 ≤ a.day ∧ a.day ≤ monthLength a.month a.year
  first : ¬ a.Before ⟨14, 9, 1752⟩
  last : a.year ≤ 8000

/-- The next day of the calendar -/
def next (a : Date) : Date :=
  if a.day < monthLength a.month a.year then ⟨a.day + 1, a.month, a.year⟩
  else if a.month < 12 then ⟨1, a.month + 1, a.year⟩
  else ⟨1, 1, a.year + 1⟩

def julian (a : Date) : Int := toJulian a.day a.month a.year

/-- The fields that are set by `fromJulian` -/
def ofJulian (j : Int) : Date :=
  let d := fromJulian ⟨0, 0, 0, 0⟩ j
  ⟨d.day, d.month, d.year⟩

end Date

/-! ### The formulas on an int -/

/-- A value of type `int`; `none` where it overflows. -/
def int (x : Int) : Option Int := if -2 ^ 31 ≤ x ∧ x < 2 ^ 31 then some x else none

/-- The month and the year when the years begin in March -/
def fromMarch (month year : Int) : Option (Int × Int) :=
  if month > 2 then do return (← int (month - 3), year)
  else do
    let year ← int (year - 1)
    return (← int (month + 9), year)

/-- `toJulian` with every operation on an `int` -/
def toJulianInt (day month year : Int) : Option Int := do
  let (month, year) ← fromMarch month year
  let century ← int (year.tdiv 100)
  let years ← int (century * 100)
  let year ← int (year - years)
  let centuries ← int (146097 * century)
  let centuries ← int (centuries.tdiv 4)
  let years ← int (1461 * year)
  let years ← int (years.tdiv 4)
  let months ← int (153 * month)
  let months ← int (months + 2)
  let months ← int (months.tdiv 5)
  let julian ← int (1721119 + day)
  let julian ← int (julian + centuries)
  let julian ← int (julian + years)
  int (julian + months)

/-! `fromJulian` with every operation on an `int`: what each of its divisions gives, and what it
leaves -/

def divideCenturies (j : Int) : Option (Int × Int) := do
  let j ← int (j - 1721119)
  let n ← int (j * 4)
  let n ← int (n - 1)
  let year ← int (n.tdiv 146097)
  let n ← int (j * 4)
  let n ← int (n - 1)
  let years ← int (146097 * year)
  return (year, ← int (n - years))

def divideYears (j : Int) : Option (Int × Int) := do
  let day ← int (j.tdiv 4)
  let n ← int (day * 4)
  let n ← int (n + 3)
  let j ← int (n.tdiv 1461)
  let n ← int (day * 4)
  let n ← int (n + 3)
  let years ← int (1461 * j)
  let day ← int (n - years)
  let day ← int (day + 4)
  return (j, ← int (day.tdiv 4))

def divideMonths (day : Int) : Option (Int × Int) := do
  let n ← int (5 * day)
  let n ← int (n - 3)
  let month ← int (n.tdiv 153)
  let n ← int (5 * day)
  let n ← int (n - 3)
  let months ← int (153 * month)
  let day ← int (n - months)
  let day ← int (day + 5)
  return (month, ← int (day.tdiv 5))

def fromJulianInt (j : Int) : Option Date := do
  let (century, j) ← divideCenturies j
  let (j, day) ← divideYears j
  let (month, day) ← divideMonths day
  let year ← int (100 * century)
  let year ← int (year + j)
  if month < 10 then return ⟨day, ← int (month + 3), year⟩
  else do
    let year ← int (year + 1)
    return ⟨day, ← int (month - 9), year⟩

theorem int_eq {x : Int} (h : -2147483648 ≤ x ∧ x < 2147483648) : int x = some x :=
  if_pos (by norm_num; exact h)

theorem int_bind {α : Type} {x : Int} (h : -2147483648 ≤ x ∧ x < 2147483648)
    (f : Int → Option α) : (int x >>= f) = f x := by
  rw [int_eq h]
  rfl

/-- A month and a year in a year that begins in March -/
theorem exists_march {month : Int} (h : 1 ≤ month ∧ month ≤ 12) (year : Int) :
    ∃ m y, (0 ≤ m ∧ m < 12) ∧ (year - 1 ≤ y ∧ y ≤ year) ∧
      month = (if m < 10 then m + 3 else m - 9) ∧ year = if m < 10 then y else y + 1 := by
  by_cases hm : month > 2
  · refine ⟨month - 3, year, by omega, by omega, ?_, ?_⟩
    · rw [if_pos (by omega), Int.sub_add_cancel]
    · rw [if_pos (by omega)]
  · refine ⟨month + 9, year - 1, by omega, by omega, ?_, ?_⟩
    · rw [if_neg (by omega), Int.add_sub_cancel]
    · rw [if_neg (by omega), Int.sub_add_cancel]

theorem fromMarch_eq {m y : Int} (hm : 0 ≤ m ∧ m < 12) (hy : 0 ≤ y ∧ y ≤ 8000) :
    fromMarch (if m < 10 then m + 3 else m - 9) (if m < 10 then y else y + 1) = some (m, y) := by
  unfold fromMarch
  by_cases h : m < 10
  · rw [if_pos h, if_pos h, if_pos (by omega), Int.add_sub_cancel, int_eq (by omega)]
    rfl
  · rw [if_neg h, if_neg h, if_neg (by omega), Int.add_sub_cancel, Int.sub_add_cancel,
      int_eq (by omega), int_eq (by omega)]
    rfl

theorem toJulianInt_eq {day month year : Int} (hday : 1 ≤ day ∧ day ≤ 31)
    (hmonth : 1 ≤ month ∧ month ≤ 12) (hyear : 1752 ≤ year ∧ year ≤ 8000) :
    toJulianInt day month year = some (toJulian day month year) := by
  obtain ⟨m, y, hm, hy, rfl, rfl⟩ := exists_march hmonth year
  have hy0 : 0 ≤ y ∧ y ≤ 8000 := by omega
  clear hmonth hyear hy
  have hrest : y - y / 100 * 100 = y % 100 := by omega
  unfold toJulianInt
  rw [fromMarch_eq hm hy0, toJulian_march hy0.1 hm, Option.bind_eq_bind, Option.bind_some]
  dsimp only
  rw [Int.tdiv_eq_ediv_of_nonneg hy0.1, int_bind (by omega), int_bind (by omega),
    int_bind (by omega), hrest]
  have hcentury : 0 ≤ y / 100 ∧ y / 100 ≤ 80 := by omega
  have hyears : 0 ≤ y % 100 ∧ y % 100 < 100 := by omega
  generalize y / 100 = century at hcentury ⊢
  generalize y % 100 = years at hyears ⊢
  have hcenturies : 0 ≤ 146097 * century / 4 ∧ 146097 * century / 4 ≤ 146097 * 20 := by omega
  have hfourths : 0 ≤ 1461 * years / 4 ∧ 1461 * years / 4 ≤ 1461 * 25 := by omega
  have hmonths : 0 ≤ (153 * m + 2) / 5 ∧ (153 * m + 2) / 5 ≤ 400 := by omega
  rw [int_bind (by omega), Int.tdiv_eq_ediv_of_nonneg (by omega), int_bind (by omega),
    int_bind (by omega), Int.tdiv_eq_ediv_of_nonneg (by omega), int_bind (by omega),
    int_bind (by omega), int_bind (by omega), Int.tdiv_eq_ediv_of_nonneg (by omega),
    int_bind (by omega)]
  generalize 146097 * century / 4 = centuries at hcenturies ⊢
  generalize 1461 * years / 4 = fourths at hfourths ⊢
  generalize (153 * m + 2) / 5 = months at hmonths ⊢
  rw [int_bind (by omega), int_bind (by omega), int_bind (by omega), int_eq (by omega)]

theorem divideCenturies_eq {n : Int} (h : 0 ≤ n ∧ n < 146097 * 81) (hfour : n % 4 = 3) :
    divideCenturies ((n + 1) / 4 + 1721119) =
      some (n.tdiv 146097, n - 146097 * n.tdiv 146097) := by
  have hn : (n + 1) / 4 * 4 - 1 = n := by omega
  have hyear : 0 ≤ n.tdiv 146097 ∧ n.tdiv 146097 ≤ 80 ∧ 146097 * n.tdiv 146097 ≤ n := by
    rw [Int.tdiv_eq_ediv_of_nonneg h.1]
    omega
  unfold divideCenturies
  rw [int_bind (by omega), Int.add_sub_cancel, int_bind (by omega), int_bind (by omega), hn]
  generalize n.tdiv 146097 = year at hyear ⊢
  rw [int_bind (by omega), int_bind (by omega), hn, int_bind (by omega), int_bind (by omega),
    int_bind (by omega)]
  rfl

theorem divideYears_eq {j : Int} (h : 0 ≤ j ∧ j < 146097) :
    divideYears j = some ((j.tdiv 4 * 4 + 3).tdiv 1461,
      (j.tdiv 4 * 4 + 3 - 1461 * (j.tdiv 4 * 4 + 3).tdiv 1461 + 4).tdiv 4) := by
  have hq : 0 ≤ j.tdiv 4 ∧ j.tdiv 4 < 36525 := by
    rw [Int.tdiv_eq_ediv_of_nonneg h.1]
    omega
  unfold divideYears
  generalize j.tdiv 4 = q at hq ⊢
  have hyear : 0 ≤ (q * 4 + 3).tdiv 1461 ∧ 0 ≤ q * 4 + 3 - 1461 * (q * 4 + 3).tdiv 1461 ∧
      q * 4 + 3 - 1461 * (q * 4 + 3).tdiv 1461 < 1461 := by
    rw [Int.tdiv_eq_ediv_of_nonneg (by omega)]
    omega
  rw [int_bind (by omega), int_bind (by omega), int_bind (by omega)]
  generalize (q * 4 + 3).tdiv 1461 = year at hyear ⊢
  have hday : 0 ≤ (q * 4 + 3 - 1461 * year + 4).tdiv 4 ∧
      (q * 4 + 3 - 1461 * year + 4).tdiv 4 < 1465 := by
    rw [Int.tdiv_eq_ediv_of_nonneg (by omega)]
    omega
  rw [int_bind (by omega), int_bind (by omega), int_bind (by omega), int_bind (by omega),
    int_bind (by omega), int_bind (by omega), int_bind (by omega)]
  rfl

theorem divideMonths_eq {day : Int} (h : 1 ≤ day ∧ day ≤ 366) :
    divideMonths day = some ((5 * day - 3).tdiv 153,
      (5 * day - 3 - 153 * (5 * day - 3).tdiv 153 + 5).tdiv 5) := by
  have hmonth : 0 ≤ 5 * day - 3 - 153 * (5 * day - 3).tdiv 153 ∧
      5 * day - 3 - 153 * (5 * day - 3).tdiv 153 < 153 := by
    rw [Int.tdiv_eq_ediv_of_nonneg (by omega)]
    omega
  unfold divideMonths
  rw [int_bind (by omega), int_bind (by omega)]
  generalize (5 * day - 3).tdiv 153 = month at hmonth ⊢
  have hday : 0 ≤ (5 * day - 3 - 153 * month + 5).tdiv 5 ∧
      (5 * day - 3 - 153 * month + 5).tdiv 5 < 158 := by
    rw [Int.tdiv_eq_ediv_of_nonneg (by omega)]
    omega
  rw [int_bind (by omega), int_bind (by omega), int_bind (by omega), int_bind (by omega),
    int_bind (by omega), int_bind (by omega), int_bind (by omega)]
  rfl

/-- What the three divisions give, for a supported day -/
theorem fromJulian_divide {j : Int} (h : Supported j) : ∃ century rest year days month day,
    divideCenturies j = some (century, rest) ∧ divideYears rest = some (year, days) ∧
      divideMonths days = some (month, day) ∧ (0 ≤ century ∧ century ≤ 80) ∧
      (0 ≤ year ∧ year < 100) ∧ (0 ≤ month ∧ month < 12) ∧
      Date.ofJulian j = if month < 10 then ⟨day, month + 3, 100 * century + year⟩
        else ⟨day, month - 9, 100 * century + year + 1⟩ := by
  have hbounds : 2361222 ≤ j ∧ j ≤ 4643365 := h
  obtain ⟨n, rfl, hn, hfour⟩ : ∃ n, j = (n + 1) / 4 + 1721119 ∧ (0 ≤ n ∧ n < 146097 * 81) ∧
      n % 4 = 3 :=
    ⟨(j - 1721119) * 4 - 1, by omega, by omega, by omega⟩
  clear h hbounds
  have hcentury := Int.tdiv_eq_ediv_of_nonneg hn.1 (b := 146097)
  set rest := n - 146097 * n.tdiv 146097 with hrest
  have hrest' : 0 ≤ rest ∧ rest < 146097 := by omega
  set q := rest.tdiv 4 with hq
  have hquarter : q = rest / 4 := Int.tdiv_eq_ediv_of_nonneg hrest'.1
  have hyear := Int.tdiv_eq_ediv_of_nonneg (show 0 ≤ q * 4 + 3 by omega) (b := 1461)
  set left := q * 4 + 3 - 1461 * (q * 4 + 3).tdiv 1461 + 4 with hleft
  set days := left.tdiv 4 with hdays
  have hdays' : days = left / 4 := Int.tdiv_eq_ediv_of_nonneg (by omega)
  have hdays'' : 1 ≤ days ∧ days ≤ 366 := by omega
  have hmonth := Int.tdiv_eq_ediv_of_nonneg (show 0 ≤ 5 * days - 3 by omega) (b := 153)
  refine ⟨n.tdiv 146097, rest, (q * 4 + 3).tdiv 1461, days, (5 * days - 3).tdiv 153, _,
    divideCenturies_eq hn hfour, divideYears_eq hrest', divideMonths_eq hdays'', by omega,
    by omega, by omega, ?_⟩
  have hn' : ((n + 1) / 4 + 1721119 - 1721119) * 4 - 1 = n := by omega
  unfold Date.ofJulian fromJulian
  simp only [hn', ← hrest, ← hq, ← hleft, ← hdays]
  split
  · rfl
  · rfl

theorem fromJulianInt_eq {j : Int} (h : Supported j) :
    fromJulianInt j = some (Date.ofJulian j) := by
  obtain ⟨century, rest, year, days, month, day, hcenturies, hyears, hmonths, hcentury, hyear,
    hmonth, heq⟩ := fromJulian_divide h
  unfold fromJulianInt
  rw [hcenturies, heq]
  simp only [Option.bind_eq_bind, Option.bind_some, Option.pure_def, hyears, hmonths]
  rw [int_eq (by omega), Option.bind_some, int_eq (by omega), Option.bind_some]
  split
  · rw [int_eq (by omega), Option.bind_some]
  · rw [int_eq (by omega), Option.bind_some, int_eq (by omega), Option.bind_some]

/-! ### The order of the dates -/

variable {a b : Date}

theorem isLeap_iff {year : Int} (h : 0 ≤ year) : leapYear year = true ↔ IsLeap year := by
  rw [leapYear_iff h, IsLeap]
  omega

theorem getDaysInMonth_eq {month year : Int} (hmonth : 1 ≤ month ∧ month ≤ 12) (hyear : 0 ≤ year) :
    getDaysInMonth month year = monthLength month year := by
  unfold getDaysInMonth monthLength
  simp only [isLeap_iff hyear]
  obtain ⟨h1, h12⟩ := hmonth
  by_cases hfeb : month = 2
  · subst hfeb
    simp only [true_and, if_true]
    rfl
  · rw [if_neg (fun h => hfeb h.1), if_neg hfeb]
    interval_cases month <;> first | rfl | exact absurd rfl hfeb

theorem Date.Covered.year_le (h : a.Covered) : 1752 ≤ a.year := by
  have hfirst := h.first
  simp only [Date.Before] at hfirst
  omega

theorem Date.Covered.valid (h : a.Covered) : a.Valid := by
  have hyear := h.year_le
  exact ⟨h.month, h.day, by omega⟩

theorem covered_iff : a.Covered ↔ SupportedDate a.day a.month a.year := by
  constructor
  · intro h
    have hyear := h.year_le
    obtain ⟨hmonth, hday, hfirst, hlast⟩ := h
    refine ⟨isValid_iff.mpr ?_, hlast⟩
    simp only [Date.Before] at hfirst
    simp only [firstYear]
    rw [getDaysInMonth_eq hmonth (by omega)]
    omega
  · rintro ⟨hvalid, hlast⟩
    obtain ⟨hfirst, hday, hmonth, hdays⟩ := isValid_iff.mp hvalid
    simp only [firstYear] at hfirst hday hmonth hdays
    rw [getDaysInMonth_eq (by omega) (by omega)] at hdays
    refine ⟨by omega, by omega, ?_, hlast⟩
    simp only [Date.Before]
    omega

theorem toJulian_day (day month year : Int) :
    toJulian day month year = toJulian 1 month year + (day - 1) := by
  unfold toJulian
  simp only
  omega

theorem toJulian_late {month year : Int} (day : Int) (hmonth : 2 < month ∧ month ≤ 12)
    (hyear : 0 ≤ year) : toJulian day month year = 1721119 + day + 146097 * (year / 100) / 4 +
      1461 * (year % 100) / 4 + (153 * (month - 3) + 2) / 5 := by
  have h := @toJulian_march day (month - 3) year hyear (by omega)
  rwa [if_pos (by omega), if_pos (by omega), Int.sub_add_cancel] at h

theorem toJulian_early {month year : Int} (day : Int) (hmonth : 1 ≤ month ∧ month ≤ 2)
    (hyear : 1 ≤ year) : toJulian day month year = 1721119 + day + 146097 * ((year - 1) / 100) / 4 +
      1461 * ((year - 1) % 100) / 4 + (153 * (month + 9) + 2) / 5 := by
  have h := @toJulian_march day (month + 9) (year - 1) (by omega) (by omega)
  rwa [if_neg (by omega), if_neg (by omega), Int.add_sub_cancel, Int.sub_add_cancel] at h

/-- The days of a year that begins in March and ends in February -/
theorem year_length {year : Int} (h : 1 ≤ year) :
    146097 * (year / 100) / 4 + 1461 * (year % 100) / 4 =
      146097 * ((year - 1) / 100) / 4 + 1461 * ((year - 1) % 100) / 4 +
        if IsLeap year then 366 else 365 := by
  have hleap : IsLeap year ↔ year % 4 = 0 ∧ (year % 100 ≠ 0 ∨ year % 400 = 0) := by
    rw [IsLeap]
    omega
  simp only [hleap]
  by_cases hcentury : year % 100 = 0
  · -- the last year of a century before
    obtain ⟨k, c, hc, rfl⟩ : ∃ k c, (0 ≤ c ∧ c < 4) ∧ year = 100 * (4 * k + c) :=
      ⟨year / 400, year / 100 % 4, by omega, by omega⟩
    have hlast : (100 * (4 * k + c) - 1) / 100 = 4 * k + c - 1 ∧
        (100 * (4 * k + c) - 1) % 100 = 99 := by omega
    have hthis : 100 * (4 * k + c) / 100 = 4 * k + c := by omega
    rw [hlast.1, hlast.2, hthis, hcentury]
    obtain ⟨h0, h4⟩ := hc
    interval_cases c <;> split <;> omega
  · obtain ⟨k, r, hr, hyear⟩ : ∃ k r, (0 ≤ r ∧ r < 4) ∧ year % 100 = 4 * k + r :=
      ⟨year % 100 / 4, year % 4, by omega, by omega⟩
    have hlast : (year - 1) / 100 = year / 100 ∧ (year - 1) % 100 = 4 * k + r - 1 := by omega
    have hfour : year % 4 = r := by omega
    rw [hlast.1, hlast.2, hyear, hfour]
    obtain ⟨h0, h4⟩ := hr
    interval_cases r <;> split <;> omega

/-- From the first of a month to the first of the next -/
theorem toJulian_month {month year : Int} (hmonth : 1 ≤ month ∧ month < 12) (hyear : 1 ≤ year) :
    toJulian 1 (month + 1) year = toJulian 1 month year + monthLength month year := by
  rcases lt_trichotomy month 2 with h | rfl | h
  · obtain rfl : month = 1 := by omega
    rw [toJulian_early 1 (by decide) hyear, toJulian_early 1 (by decide) hyear]
    simp only [monthLength]
    omega
  · have hmarch := toJulian_late 1 (show 2 < (2 + 1 : Int) ∧ (2 + 1 : Int) ≤ 12 by decide)
      (show 0 ≤ year by omega)
    have hlength := year_length hyear
    rw [hmarch, toJulian_early 1 (by decide) hyear]
    simp only [monthLength, if_true]
    split
    · next hleap =>
      rw [if_pos hleap] at hlength
      omega
    · next hleap =>
      rw [if_neg hleap] at hlength
      omega
  · rw [toJulian_late 1 (by omega) (by omega), toJulian_late 1 (by omega) (by omega)]
    obtain ⟨-, h12⟩ := hmonth
    simp only [monthLength]
    interval_cases month <;> omega

theorem toJulian_year {year : Int} (hyear : 1 ≤ year) :
    toJulian 1 1 (year + 1) = toJulian 1 12 year + 31 := by
  rw [toJulian_early 1 (by decide) (by omega), toJulian_late 1 (by decide) (by omega),
    Int.add_sub_cancel]
  omega

theorem julian_day (a : Date) : a.julian = toJulian 1 a.month a.year + (a.day - 1) :=
  toJulian_day a.day a.month a.year

theorem julian_next (h : a.Valid) : a.next.julian = a.julian + 1 := by
  obtain ⟨⟨hm1, hm12⟩, hday, hyear⟩ := h
  unfold Date.next
  split
  · rw [julian_day, julian_day a]
    simp only
    omega
  · split
    · rw [julian_day, julian_day a]
      simp only
      rw [toJulian_month ⟨hm1, by omega⟩ (by omega)]
      omega
    · have hmonth : a.month = 12 := by omega
      have hlength : monthLength a.month a.year = 31 := by rw [hmonth]; rfl
      rw [julian_day, julian_day a, hmonth]
      simp only
      rw [toJulian_year (by omega)]
      omega

/-- The first of the month `12 * year + month - 1` -/
def monthStart (k : Int) : Int := toJulian 1 (k % 12 + 1) (k / 12)

theorem monthStart_succ {k : Int} (h : 12 ≤ k) :
    monthStart (k + 1) = monthStart k + monthLength (k % 12 + 1) (k / 12) := by
  unfold monthStart
  by_cases hlast : k % 12 = 11
  · have hmonth : (k + 1) % 12 = 0 ∧ (k + 1) / 12 = k / 12 + 1 := by omega
    rw [hmonth.1, hmonth.2, hlast, show (11 : Int) + 1 = 12 from rfl]
    rw [Int.zero_add, toJulian_year (by omega)]
    rfl
  · have hmonth : (k + 1) % 12 = k % 12 + 1 ∧ (k + 1) / 12 = k / 12 := by omega
    rw [hmonth.1, hmonth.2]
    exact toJulian_month (by omega) (by omega)

theorem monthLength_ge (month year : Int) : 28 ≤ monthLength month year := by
  unfold monthLength
  split
  · split <;> omega
  · split <;> omega

/-- A month is over before a later one begins. -/
theorem monthStart_lt {k l : Int} (h : 12 ≤ k) (hkl : k + 1 ≤ l) :
    monthStart k + monthLength (k % 12 + 1) (k / 12) ≤ monthStart l := by
  induction l, hkl using Int.leInduction with
  | base => exact (monthStart_succ h).ge
  | succ l hl ih =>
      have hlength := monthLength_ge (l % 12 + 1) (l / 12)
      rw [monthStart_succ (by omega)]
      omega

/-- The month of a date -/
def Date.monthIndex (a : Date) : Int := 12 * a.year + a.month - 1

theorem Date.monthIndex_spec (hmonth : 1 ≤ a.month ∧ a.month ≤ 12) :
    a.monthIndex % 12 + 1 = a.month ∧ a.monthIndex / 12 = a.year := by
  unfold Date.monthIndex
  omega

theorem julian_lt (ha : a.Valid) (hb : b.Valid) (h : a.Before b) : a.julian < b.julian := by
  obtain ⟨hma, hda, hyear⟩ := ha
  obtain ⟨hmb, hdb, -⟩ := hb
  have hia := Date.monthIndex_spec hma
  have hib := Date.monthIndex_spec hmb
  rw [julian_day, julian_day b]
  by_cases hlt : a.monthIndex < b.monthIndex
  · have hstart := monthStart_lt (show 12 ≤ a.monthIndex by unfold Date.monthIndex; omega) hlt
    rw [monthStart, monthStart, hia.1, hia.2, hib.1, hib.2] at hstart
    omega
  · unfold Date.Before at h
    unfold Date.monthIndex at hlt
    obtain ⟨hyear, hmonth, hday⟩ : a.year = b.year ∧ a.month = b.month ∧ a.day < b.day := by omega
    rw [hyear, hmonth]
    omega

theorem Date.before_or (a b : Date) : a.Before b ∨ a = b ∨ b.Before a := by
  obtain ⟨d, m, y⟩ := a
  obtain ⟨d', m', y'⟩ := b
  simp only [Date.Before, Date.mk.injEq]
  omega

theorem julian_inj (ha : a.Valid) (hb : b.Valid) (h : a.julian = b.julian) : a = b := by
  rcases Date.before_or a b with hlt | heq | hlt
  · exact absurd h (julian_lt ha hb hlt).ne
  · exact heq
  · exact absurd h (julian_lt hb ha hlt).ne'

theorem valid_next (h : a.Valid) : a.next.Valid := by
  obtain ⟨⟨hm1, hm12⟩, ⟨hd1, hd⟩, hyear⟩ := h
  unfold Date.next
  split
  · exact ⟨⟨hm1, hm12⟩, ⟨by simp only; omega, by simp only; omega⟩, hyear⟩
  · split
    · have hlength := monthLength_ge (a.month + 1) a.year
      exact ⟨⟨by simp only; omega, by simp only; omega⟩, ⟨le_rfl, by simp only; omega⟩, hyear⟩
    · have hlength := monthLength_ge 1 (a.year + 1)
      exact ⟨⟨le_rfl, by simp only; omega⟩, ⟨le_rfl, by simp only; omega⟩, by simp only; omega⟩

theorem valid_iterate (h : a.Valid) (k : Nat) : (Date.next^[k] a).Valid := by
  induction k with
  | zero => exact h
  | succ k ih =>
      rw [Function.iterate_succ_apply']
      exact valid_next ih

theorem julian_iterate (h : a.Valid) (k : Nat) :
    (Date.next^[k] a).julian = a.julian + k := by
  induction k with
  | zero => exact (Int.add_zero _).symm
  | succ k ih =>
      rw [Function.iterate_succ_apply', julian_next (valid_iterate h k), ih]
      omega

/-- So many days lead from one date to another as lie between their Julian days. -/
theorem iterate_eq_iff (ha : a.Valid) (hb : b.Valid) (k : Nat) :
    Date.next^[k] a = b ↔ b.julian = a.julian + k := by
  rw [← julian_iterate ha k]
  constructor
  · rintro rfl
    rfl
  · intro h
    exact julian_inj (valid_iterate ha k) hb h.symm

theorem supported_julian (h : a.Covered) : Supported a.julian := by
  have hfirst : (⟨14, 9, 1752⟩ : Date).Covered :=
    ⟨by decide, by decide, by decide, by decide⟩
  have hlast : (⟨31, 12, 8000⟩ : Date).Covered :=
    ⟨by decide, by decide, by decide, by decide⟩
  have hfirst' : (⟨14, 9, 1752⟩ : Date).julian = firstDay := by decide
  have hlast' : (⟨31, 12, 8000⟩ : Date).julian = lastDay := by decide
  rw [Supported, ← hfirst', ← hlast']
  constructor
  · rcases Date.before_or ⟨14, 9, 1752⟩ a with hlt | rfl | hlt
    · exact (julian_lt hfirst.valid h.valid hlt).le
    · exact le_rfl
    · exact absurd hlt h.first
  · rcases Date.before_or a ⟨31, 12, 8000⟩ with hlt | rfl | hlt
    · exact (julian_lt h.valid hlast.valid hlt).le
    · exact le_rfl
    · obtain ⟨hmonth, hday, -, hyear⟩ := h
      have hlength := monthLength_le a.month a.year
      simp only [Date.Before] at hlt
      omega

theorem covered_ofJulian {j : Int} (h : Supported j) :
    (Date.ofJulian j).Covered ∧ (Date.ofJulian j).julian = j := by
  have hjulian : (Date.ofJulian j).julian = j := toJulian_fromJulian _ h.1
  have hvalid : isValid ⟨0, (Date.ofJulian j).day, (Date.ofJulian j).month,
      (Date.ofJulian j).year⟩ = true :=
    (isValid_congr rfl rfl rfl).trans (isValid_fromJulian ⟨0, 0, 0, 0⟩ h.1)
  refine ⟨covered_iff.mpr ⟨hvalid, ?_⟩, hjulian⟩
  obtain ⟨hfirst, hday, hmonth, -⟩ := isValid_iff.mp hvalid
  simp only at hfirst hday hmonth
  by_contra hlate
  -- the date comes behind the month that ends with the last day
  have hindex := Date.monthIndex_spec (a := Date.ofJulian j) (by omega)
  have hstart := monthStart_lt (show (12 : Int) ≤ 12 * 8000 + 11 by decide)
    (show 12 * 8000 + 11 + 1 ≤ (Date.ofJulian j).monthIndex by
      simp only [lastYear] at hlate
      unfold Date.monthIndex
      omega)
  have hend : monthStart (12 * 8000 + 11) + monthLength ((12 * 8000 + 11) % 12 + 1)
      ((12 * 8000 + 11) / 12) = lastDay + 1 := by decide
  have hle := h.2
  rw [hend, monthStart, hindex.1, hindex.2] at hstart
  rw [julian_day] at hjulian
  omega

theorem fromJulian_fields (d : UTimeDate) (j : Int) : fromJulian d j =
    { d with
      day := (Date.ofJulian j).day
      month := (Date.ofJulian j).month
      year := (Date.ofJulian j).year } := by
  unfold Date.ofJulian fromJulian
  simp only
  split <;> rfl

/-- What the two conversions are for -/
theorem julian_conversion {a b : Date} {j : Int} (ha : a.Covered) (hb : b.Covered)
    (hj : Supported j) :
    ((∀ d, fromJulian d a.julian = { d with day := a.day, month := a.month, year := a.year }) ∧
        (Date.ofJulian j).julian = j) ∧
      (a.Before b → a.julian < b.julian) ∧ a.next.julian = a.julian + 1 ∧
      (isValid ⟨0, a.day, a.month, a.year⟩ = true ∧ Supported a.julian ∧
        (Date.ofJulian j).Covered) ∧
      toJulianInt a.day a.month a.year = some a.julian ∧
      fromJulianInt j = some (Date.ofJulian j) := by
  have hback := covered_ofJulian (supported_julian ha)
  have hday := ha.day.2.trans (monthLength_le _ _)
  refine ⟨⟨fun d => ?_, (covered_ofJulian hj).2⟩, julian_lt ha.valid hb.valid,
    julian_next ha.valid, ⟨(covered_iff.mp ha).1, supported_julian ha, (covered_ofJulian hj).1⟩,
    toJulianInt_eq ⟨ha.day.1, hday⟩ ha.month ⟨ha.year_le, ha.last⟩, fromJulianInt_eq hj⟩
  rw [fromJulian_fields, julian_inj hback.1.valid ha.valid hback.2]

theorem julian_conversion_leap :
    (fromJulian ⟨0, 0, 0, 0⟩ 2451604 = ⟨0, 29, 2, 2000⟩ ∧
        (Date.ofJulian 2361222).julian = 2361222) ∧
      2451604 < (⟨31, 12, 8000⟩ : Date).julian ∧ (⟨1, 3, 2000⟩ : Date).julian = 2451604 + 1 := by
  have ha : (⟨29, 2, 2000⟩ : Date).Covered := ⟨by decide, by decide, by decide, by decide⟩
  have hb : (⟨31, 12, 8000⟩ : Date).Covered := ⟨by decide, by decide, by decide, by decide⟩
  have h := julian_conversion ha hb (show Supported 2361222 by decide)
  exact ⟨⟨h.1.1 _, h.1.2⟩, h.2.1 (by decide), h.2.2.1⟩

end ULib.JulianDays
