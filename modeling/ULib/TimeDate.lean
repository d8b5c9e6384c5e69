import Mathlib.Data.Int.Order.Basic
import Mathlib.Logic.Function.Basic
import Mathlib.Tactic.Common
import Mathlib.Tactic.IntervalCases
import ULib.Runs

/-!
The class `UTimeDate` of `date.h` and `date.cpp`: a day, a month and a year with
the Julian day number of the date, which is kept once it was computed. The
numbers are those of the supported dates, for which no `int` overflows.
-/

namespace ULib.TimeDate

open ULib.Runs

structure UTimeDate where
  julian : Int
  day : Int
  month : Int
  year : Int
  deriving DecidableEq, Repr

/-- `FIRST_DAY`, the Julian day of 14/09/1752. -/
def firstDay : Int := 2361222

/-- `FIRST_YEAR`. -/
def firstYear : Int := 1752

/-- The last year that the assertions allow. -/
def lastYear : Int := 8000

/-- The table `monthDays`. -/
def monthDays (month : Int) : Int :=
  [0, 31, 28, 31, 30, 31, 30, 31, 31, 30, 31, 30, 31].getD month.toNat 0

def leapYear (y : Int) : Bool :=
  y.tmod 4 == 0 && (y.tmod 100 != 0 || y.tmod 400 == 0)

def isValid (d : UTimeDate) : Bool :=
  if d.year < firstYear ∨ d.year = firstYear ∧ (d.month < 9 ∨ d.month = 9 ∧ d.day < 14) then false
  else
    decide (0 < d.day) && decide (0 < d.month) && decide (d.month ≤ 12) &&
      (decide (d.day ≤ monthDays d.month) ||
        d.day == 29 && d.month == 2 && leapYear d.year)

def toJulian (day month year : Int) : Int :=
  let (month, year) := if month > 2 then (month - 3, year) else (month + 9, year - 1)
  let century := year.tdiv 100
  let year := year - century * 100
  1721119 + day + (146097 * century).tdiv 4 + (1461 * year).tdiv 4 + (153 * month + 2).tdiv 5

def getJulian (d : UTimeDate) : Int × UTimeDate :=
  if d.julian ≠ 0 then (d.julian, d)
  else
    let julian := toJulian d.day d.month d.year
    (julian, { d with julian := julian })

/-- `fromJulian`, which leaves `julian` to its callers. -/
def fromJulian (d : UTimeDate) (j : Int) : UTimeDate :=
  let j := j - 1721119
  let year := (j * 4 - 1).tdiv 146097
  let j := j * 4 - 1 - 146097 * year
  let day := j.tdiv 4
  let j := (day * 4 + 3).tdiv 1461
  let day := day * 4 + 3 - 1461 * j
  let day := (day + 4).tdiv 4
  let month := (5 * day - 3).tdiv 153
  let day := 5 * day - 3 - 153 * month
  let day := (day + 5).tdiv 5
  let year := 100 * year + j
  if month < 10 then { d with day := day, month := month + 3, year := year }
  else { d with day := day, month := month - 9, year := year + 1 }

/-- The year that `setYear` takes a number for. -/
def fullYear (year : Int) : Int :=
  let y := if year < 150 then year + 1900 else year
  if year < 50 then y + 100 else y

def setYear (d : UTimeDate) (year : Int) : UTimeDate :=
  let d := { d with year := fullYear year }
  if d.julian ≠ 0 then { d with julian := toJulian d.day d.month d.year } else d

/-- `set(day, month, year)`. -/
def set (_ : UTimeDate) (day month year : Int) : UTimeDate :=
  setYear ⟨0, day, month, 0⟩ year

def addDays (d : UTimeDate) (days : Int) : UTimeDate :=
  let (julian, d) := getJulian d
  fromJulian { d with julian := julian + days } (julian + days)

def addYears (d : UTimeDate) (years : Int) : UTimeDate :=
  let d := { d with year := d.year + years }
  { d with julian := toJulian d.day d.month d.year }

/-- The loop of `addMonths`, on month and year. It takes away a year or sets the
month in every turn, and turns at most once more for December. -/
def addMonthsLoop : Nat → Int → Int × Int → Int × Int
  | 0, _, my => my
  | fuel + 1, nmonths, (month, year) =>
      if nmonths = 0 then (month, year)
      else if nmonths < 0 ∧ nmonths + 12 ≤ 0 then
        addMonthsLoop fuel (nmonths + 12) (month, year - 1)
      else if nmonths < 0 then
        if month + nmonths ≤ 0 then (month + nmonths + 12, year - 1) else (month + nmonths, year)
      else if nmonths - 12 ≥ 0 then addMonthsLoop fuel (nmonths - 12) (month, year + 1)
      else if month = 12 then addMonthsLoop fuel nmonths (0, year + 1)
      else if month + nmonths > 12 then (month + nmonths - 12, year + 1)
      else (month + nmonths, year)

def getDaysInMonth (month year : Int) : Int :=
  if month = 2 ∧ leapYear year = true then 29 else monthDays month

def addMonths (d : UTimeDate) (nmonths : Int) : UTimeDate :=
  let my := addMonthsLoop (nmonths.natAbs + 2) nmonths (d.month, d.year)
  let days := getDaysInMonth my.1 my.2
  { d with day := if d.day > days then days else d.day, month := my.1, year := my.2 }

/-- `fromTime`, where `localtime_r` gives the date `local`. -/
def fromTime (tm : Int) (localTime : Int × Int × Int) : UTimeDate :=
  if tm ≠ 0 then ⟨0, localTime.1, localTime.2.1, localTime.2.2⟩ else ⟨2440588, 1, 1, 1970⟩

/-! ### The Julian day -/

theorem leapYear_iff {y : Int} (h : 0 ≤ y) :
    leapYear y = true ↔ y % 4 = 0 ∧ (y % 100 ≠ 0 ∨ y % 400 = 0) := by
  simp only [leapYear, Int.tmod_eq_emod_of_nonneg h, Bool.and_eq_true, Bool.or_eq_true,
    beq_iff_eq, bne_iff_ne]

/-- `toJulian` without the truncation of negative numbers: the years begin in
March, and `m` counts the months from there. -/
theorem toJulian_march {day m year : Int} (hyear : 0 ≤ year) (hm : 0 ≤ m ∧ m < 12) :
    toJulian day (if m < 10 then m + 3 else m - 9) (if m < 10 then year else year + 1) =
      1721119 + day + 146097 * (year / 100) / 4 + 1461 * (year % 100) / 4 + (153 * m + 2) / 5 := by
  have hmarch : (if (if m < 10 then m + 3 else m - 9) > 2 then
      ((if m < 10 then m + 3 else m - 9) - 3, if m < 10 then year else year + 1)
      else ((if m < 10 then m + 3 else m - 9) + 9, (if m < 10 then year else year + 1) - 1)) =
      (m, year) := by
    split
    · rw [if_pos (by omega), Int.add_sub_cancel]
    · rw [if_neg (by omega), Int.sub_add_cancel, Int.add_sub_cancel]
  have hrest : year - year / 100 * 100 = year % 100 := by omega
  unfold toJulian
  rw [hmarch]
  simp only [Int.tdiv_eq_ediv_of_nonneg hyear, hrest]
  rw [Int.tdiv_eq_ediv_of_nonneg (by omega), Int.tdiv_eq_ediv_of_nonneg (by omega),
    Int.tdiv_eq_ediv_of_nonneg (by omega)]

/-- The steps of `fromJulian`: century, year in the century, month from March
on and day, each with what is left over. -/
structure Split (j century year month day : Int) : Prop where
  century_le : 0 ≤ century
  year_le : 0 ≤ year ∧ year < 100
  month_le : 0 ≤ month ∧ month < 12
  split : ∃ r c d, 4 * (j - 1721119) - 1 = 146097 * century + r ∧ 0 ≤ r ∧ r < 146097 ∧
    c = r / 4 ∧ 0 ≤ 4 * c + 3 - 1461 * year ∧ 4 * c + 3 - 1461 * year < 1461 ∧
    d = (4 * c + 3 - 1461 * year + 4) / 4 ∧ 0 ≤ 5 * d - 3 - 153 * month ∧
    5 * d - 3 - 153 * month < 153 ∧ day = (5 * d - 3 - 153 * month + 5) / 5

theorem fromJulian_eq (d : UTimeDate) {j : Int} (h : firstDay ≤ j) :
    ∃ century year month day, Split j century year month day ∧
      fromJulian d j = { d with
        day := day
        month := if month < 10 then month + 3 else month - 9
        year := if month < 10 then 100 * century + year else 100 * century + year + 1 } := by
  have hfirst : firstDay = 2361222 := rfl
  set n := (j - 1721119) * 4 - 1 with hn
  set century := n / 146097 with hcentury
  set c := (n - 146097 * century) / 4 with hc
  set year := (c * 4 + 3) / 1461 with hyear
  set e := (c * 4 + 3 - 1461 * year + 4) / 4 with he
  set month := (5 * e - 3) / 153 with hmonth
  set day := (5 * e - 3 - 153 * month + 5) / 5 with hday
  refine ⟨century, year, month, day, ⟨by omega, by omega, by omega, n - 146097 * century, c, e,
    by omega, by omega, by omega, hc, by omega, by omega, by omega, by omega, by omega, hday⟩, ?_⟩
  unfold fromJulian
  simp only [← hn]
  rw [Int.tdiv_eq_ediv_of_nonneg (show 0 ≤ n by omega), ← hcentury,
    Int.tdiv_eq_ediv_of_nonneg (show 0 ≤ n - 146097 * century by omega), ← hc,
    Int.tdiv_eq_ediv_of_nonneg (show 0 ≤ c * 4 + 3 by omega), ← hyear,
    Int.tdiv_eq_ediv_of_nonneg (show 0 ≤ c * 4 + 3 - 1461 * year + 4 by omega), ← he,
    Int.tdiv_eq_ediv_of_nonneg (show 0 ≤ 5 * e - 3 by omega), ← hmonth,
    Int.tdiv_eq_ediv_of_nonneg (show 0 ≤ 5 * e - 3 - 153 * month + 5 by omega), ← hday]
  split <;> rfl

theorem toJulian_fromJulian (d : UTimeDate) {j : Int} (h : firstDay ≤ j) :
    toJulian (fromJulian d j).day (fromJulian d j).month (fromJulian d j).year = j := by
  obtain ⟨century, year, month, day, hsplit, heq⟩ := fromJulian_eq d h
  obtain ⟨hcentury, hyear, hmonth, r, c, e, hr, hr0, hr1, hc, hc0, hc1, he, he0, he1, hday⟩ :=
      hsplit
  have hdiv : (100 * century + year) / 100 = century := by omega
  have hmod : (100 * century + year) % 100 = year := by omega
  have hdays : j - 1721119 = 146097 * century / 4 + c + 1 := by omega
  have hdays' : c + 1 = 1461 * year / 4 + e := by omega
  have hdays'' : e = (153 * month + 2) / 5 + day := by omega
  rw [heq]
  simp only
  rw [toJulian_march (by omega) hmonth, hdiv, hmod]
  omega

theorem isValid_iff {d : UTimeDate} : isValid d = true ↔
    (firstYear < d.year ∨ d.year = firstYear ∧ (9 < d.month ∨ d.month = 9 ∧ 14 ≤ d.day)) ∧
      0 < d.day ∧ (0 < d.month ∧ d.month ≤ 12) ∧ d.day ≤ getDaysInMonth d.month d.year := by
  have hdays : (d.day ≤ monthDays d.month ∨ (d.day = 29 ∧ d.month = 2) ∧ leapYear d.year = true) ↔
      d.day ≤ getDaysInMonth d.month d.year := by
    unfold getDaysInMonth
    split
    · next hfeb =>
      have h28 : monthDays d.month = 28 := by rw [hfeb.1]; rfl
      rw [h28]
      simp only [hfeb, and_true]
      omega
    · next hnot =>
      refine ⟨fun h => h.resolve_right fun hfeb => hnot ⟨hfeb.1.2, hfeb.2⟩, .inl⟩
  unfold isValid
  rw [← hdays]
  split
  · next hearly =>
    constructor
    · rintro ⟨⟩
    · rintro ⟨hlate, -⟩
      omega
  · next hlate =>
    simp only [Bool.and_eq_true, Bool.or_eq_true, decide_eq_true_eq, beq_iff_eq]
    constructor
    · rintro ⟨⟨⟨hday, hmonth⟩, hmonth'⟩, hle⟩
      exact ⟨by omega, hday, ⟨hmonth, hmonth'⟩, hle⟩
    · rintro ⟨-, hday, ⟨hmonth, hmonth'⟩, hle⟩
      exact ⟨⟨⟨hday, hmonth⟩, hmonth'⟩, hle⟩

/-- The days of the months from March on. -/
theorem monthDays_march {m : Int} (hm : 0 ≤ m ∧ m < 11) :
    monthDays (if m < 10 then m + 3 else m - 9) = (153 * m + 155) / 5 - (153 * m + 2) / 5 := by
  obtain ⟨h0, h11⟩ := hm
  interval_cases m <;> decide

/-- The leap years in years that begin in March. -/
theorem leapYear_march {century year : Int} (hcentury : 0 ≤ century) (hyear : 0 ≤ year ∧ year < 100)
    (hfour : year % 4 = 3) (hlast : year = 99 → century % 4 = 3) :
    leapYear (100 * century + year + 1) = true := by
  rw [leapYear_iff (by omega)]
  refine ⟨by omega, ?_⟩
  by_cases h99 : year = 99
  · have hcentury' := hlast h99
    right
    omega
  · left
    omega

/-- The 29th of February is split off in leap years only. -/
theorem Split.leapYear {j century year : Int} (h : Split j century year 11 29) :
    leapYear (100 * century + year + 1) = true := by
  obtain ⟨hcentury, hyear, -, r, c, e, hr, -, hr1, hc, -, hc1, he, -, -, hday⟩ := h
  have he366 : 366 ≤ e := by omega
  have hlast : 4 * c + 3 = 1461 * year + 1460 := by omega
  clear hday he he366 hc1
  refine leapYear_march hcentury hyear (by omega) ?_
  rintro rfl
  have hwhole : 4 * (j - 1721119) = 146097 * (century + 1) := by omega
  -- 146097 = 4 * 36524 + 1
  have hquarter : 4 * (j - 1721119 - 36524 * (century + 1)) = century + 1 := by
    rw [Int.mul_sub, hwhole]
    omega
  generalize j - 1721119 - 36524 * (century + 1) = k at hquarter
  clear hr hlast hc hwhole
  omega

/-- A date that `fromJulian` computes is in the calendar. -/
theorem isValid_fromJulian (d : UTimeDate) {j : Int} (h : firstDay ≤ j) :
    isValid (fromJulian d j) = true := by
  obtain ⟨century, year, month, day, hsplit, heq⟩ := fromJulian_eq d h
  obtain ⟨hcentury, hyear, hmonth, r, c, e, hr, hr0, hr1, hc, hc0, hc1, he, he0, he1, hday⟩ :=
    id hsplit
  have hfirst : firstDay = 2361222 := rfl
  have hdays : j - 1721119 = 146097 * century / 4 + c + 1 := by omega
  have hdays' : c + 1 = 1461 * year / 4 + e := by omega
  have hlate : 1752 < 100 * century + year ∨ 100 * century + year = 1752 ∧
      (6 < month ∨ month = 6 ∧ 14 ≤ day) := by
    omega
  rw [heq, isValid_iff]
  simp only
  refine ⟨?_, by omega, ?_, ?_⟩
  · split <;> simp only [firstYear] <;> omega
  · split <;> omega
  · by_cases hfeb : month < 11
    · have hmonths := monthDays_march ⟨hmonth.1, hfeb⟩
      rw [getDaysInMonth, if_neg (by rintro ⟨h2, -⟩; split at h2 <;> omega), hmonths]
      have hday' : e = (153 * month + 2) / 5 + day := by omega
      have hle : e ≤ (153 * month + 155) / 5 := by omega
      omega
    · obtain rfl : month = 11 := by omega
      have hleap : day = 29 → leapYear (100 * century + year + 1) = true := by
        rintro rfl
        exact hsplit.leapYear
      simp only [show ¬(11 : Int) < 10 by decide, if_false, getDaysInMonth]
      split
      · omega
      · next hnot =>
        have hne : day ≠ 29 := fun h29 => hnot ⟨by decide, hleap h29⟩
        rw [show monthDays (11 - 9) = 28 from rfl]
        omega

/-! ### Months -/

theorem addMonthsLoop_spec {fuel : Nat} {n month year : Int}
    (hmonth : 1 ≤ month ∧ month ≤ 12 ∨ month = 0 ∧ 0 < n ∧ n < 12)
    (hfuel : n.natAbs + (if month = 12 then 1 else 0) < fuel) :
    ∃ month' year', addMonthsLoop fuel n (month, year) = (month', year') ∧
      (1 ≤ month' ∧ month' ≤ 12) ∧ 12 * year' + month' = 12 * year + month + n := by
  induction fuel generalizing n month year with
  | zero => omega
  | succ fuel ih =>
      unfold addMonthsLoop
      split
      · exact ⟨month, year, rfl, by omega, by omega⟩
      split
      · obtain ⟨month', year', heq, hm, hsum⟩ := @ih (n + 12) month (year - 1) (by omega)
          (by omega)
        exact ⟨month', year', heq, hm, by omega⟩
      split
      · split
        · exact ⟨_, _, rfl, by omega, by omega⟩
        · exact ⟨_, _, rfl, by omega, by omega⟩
      split
      · obtain ⟨month', year', heq, hm, hsum⟩ := @ih (n - 12) month (year + 1) (by omega)
          (by omega)
        exact ⟨month', year', heq, hm, by omega⟩
      split
      · next hdec =>
        obtain ⟨month', year', heq, hm, hsum⟩ := @ih n 0 (year + 1) (by omega)
          (by rw [if_pos hdec] at hfuel; rw [if_neg (by decide)]; omega)
        exact ⟨month', year', heq, hm, by omega⟩
      split
      · exact ⟨_, _, rfl, by omega, by omega⟩
      · exact ⟨_, _, rfl, by omega, by omega⟩

/-- Month and year after so many months. -/
def monthsLater (d : UTimeDate) (n : Int) : Int × Int :=
  let k := 12 * d.year + d.month - 1 + n
  (k % 12 + 1, k / 12)

theorem addMonths_eq {d : UTimeDate} (hmonth : 1 ≤ d.month ∧ d.month ≤ 12) (n : Int) :
    addMonths d n = { d with
      day := min d.day (getDaysInMonth (monthsLater d n).1 (monthsLater d n).2)
      month := (monthsLater d n).1
      year := (monthsLater d n).2 } := by
  obtain ⟨month', year', heq, hm, hsum⟩ :=
    @addMonthsLoop_spec (n.natAbs + 2) n d.month d.year (.inl hmonth) (by split <;> omega)
  have hlater : monthsLater d n = (month', year') := by
    rw [monthsLater, Prod.mk.injEq]
    omega
  simp only [addMonths, heq, hlater, UTimeDate.mk.injEq, and_true, true_and]
  split <;> omega

/-! ### Runs -/

inductive Comparison where
  | eq
  | ne
  | lt
  | le
  | gt
  | ge
  deriving DecidableEq, Repr

def Comparison.holds (a b : Int) : Comparison → Bool
  | eq => a == b
  | ne => a != b
  | lt => decide (a < b)
  | le => decide (a ≤ b)
  | gt => decide (a > b)
  | ge => decide (a ≥ b)

/-- The operations on dates, which are told apart by numbers. -/
inductive Op where
  | getJulian (i : Nat)
  | getDayOfWeek (i : Nat)
  | getDayOfYear (i : Nat)
  | compare (i j : Nat) (c : Comparison)
  | daysTo (i j : Nat)
  | assign (i j : Nat)
  | set (i : Nat) (day month year : Int)
  | setYear (i : Nat) (year : Int)
  | addDays (i : Nat) (days : Int)
  | addMonths (i : Nat) (nmonths : Int)
  | addYears (i : Nat) (years : Int)
  | addDate (i j : Nat)
  | subDate (i j : Nat)
  | fromJulian (i : Nat) (j : Int)
  | fromTime (i : Nat) (tm : Int) (localTime : Int × Int × Int)
  deriving Repr

inductive Reply where
  | done
  | number (n : Int)
  | truth (b : Bool)
  deriving DecidableEq, Repr

abbrev Dates := Nat → UTimeDate

/-- The Julian day of a date, which is remembered. -/
def julianOf (s : Dates) (i : Nat) : Int × Dates :=
  ((getJulian (s i)).1, Function.update s i (getJulian (s i)).2)

def apply (s : Dates) : Op → Reply × Dates
  | .getJulian i =>
      let (a, s) := julianOf s i
      (.number a, s)
  | .getDayOfWeek i =>
      let (a, s) := julianOf s i
      (.number ((a + 1).tmod 7), s)
  | .getDayOfYear i =>
      let y := (s i).year - 1901
      let (a, s) := julianOf s i
      (.number (a - y * 365 - y.tdiv 4 - 2415385), s)
  | .compare i j c =>
      let (a, s) := julianOf s i
      let (b, s) := julianOf s j
      (.truth (c.holds a b), s)
  | .daysTo i j =>
      let (b, s) := julianOf s j
      let (a, s) := julianOf s i
      (.number (b - a), s)
  | .assign i j => (.done, Function.update s i (s j))
  | .set i day month year => (.done, Function.update s i (set (s i) day month year))
  | .setYear i year => (.done, Function.update s i (setYear (s i) year))
  | .addDays i days => (.done, Function.update s i (addDays (s i) days))
  | .addMonths i nmonths => (.done, Function.update s i (addMonths (s i) nmonths))
  | .addYears i years => (.done, Function.update s i (addYears (s i) years))
  | .addDate i j =>
      let (a, s) := julianOf s i
      let (b, s) := julianOf s j
      (.done, Function.update s i (fromJulian { s i with julian := a + b } (a + b)))
  | .subDate i j =>
      let (a, s) := julianOf s i
      let (b, s) := julianOf s j
      (.done, Function.update s i (fromJulian { s i with julian := a - b } (a - b)))
  | .fromJulian i j => (.done, Function.update s i (fromJulian (s i) j))
  | .fromTime i tm localTime => (.done, Function.update s i (fromTime tm localTime))

def step (s : Dates) (op : Op) : Option (Reply × Dates) := some (apply s op)

/-- A date of the calendar whose Julian day is right if it is known. -/
def Consistent (d : UTimeDate) : Prop :=
  isValid d = true ∧ (d.julian = 0 ∨ d.julian = toJulian d.day d.month d.year)

def AllConsistent (s : Dates) : Prop := ∀ i, Consistent (s i)

/-- The Julian day of 31/12/8000. -/
def lastDay : Int := 4643365

/-- A Julian day of the supported dates. -/
def Supported (j : Int) : Prop := firstDay ≤ j ∧ j ≤ lastDay

instance (j : Int) : Decidable (Supported j) := inferInstanceAs (Decidable (_ ∧ _))

/-- A supported date. -/
def SupportedDate (day month year : Int) : Prop :=
  isValid ⟨0, day, month, year⟩ = true ∧ year ≤ lastYear

instance (day month year : Int) : Decidable (SupportedDate day month year) :=
  inferInstanceAs (Decidable (_ ∧ _))

/-- The operation leads to a supported date. The Julian day must not be known
when months are added, and must be known or not be known when it is set. -/
def Fits (s : Dates) : Op → Prop
  | .set _ day month year => SupportedDate day month (fullYear year)
  | .setYear i year => SupportedDate (s i).day (s i).month (fullYear year)
  | .addDays i days => Supported ((getJulian (s i)).1 + days)
  | .addMonths i nmonths =>
      nmonths = 0 ∨ (s i).julian = 0 ∧
        SupportedDate (min (s i).day (getDaysInMonth (monthsLater (s i) nmonths).1
          (monthsLater (s i) nmonths).2)) (monthsLater (s i) nmonths).1
          (monthsLater (s i) nmonths).2
  | .addYears i years => SupportedDate (s i).day (s i).month ((s i).year + years)
  | .addDate i j => Supported ((getJulian (s i)).1 + (getJulian (s j)).1)
  | .subDate i j => Supported ((getJulian (s i)).1 - (getJulian (s j)).1)
  | .fromJulian i j => Supported j ∧ ((s i).julian = 0 ∨ (s i).julian = j)
  | .fromTime _ tm localTime =>
      tm ≠ 0 → SupportedDate localTime.1 localTime.2.1 localTime.2.2
  | _ => True

instance (s : Dates) : ∀ op, Decidable (Fits s op)
  | .getJulian _ | .getDayOfWeek _ | .getDayOfYear _ | .compare _ _ _ | .daysTo _ _
  | .assign _ _ => inferInstanceAs (Decidable True)
  | .set _ _ _ _ | .setYear _ _ | .addYears _ _ =>
      inferInstanceAs (Decidable (SupportedDate _ _ _))
  | .addDays _ _ | .addDate _ _ | .subDate _ _ => inferInstanceAs (Decidable (Supported _))
  | .addMonths _ _ => inferInstanceAs (Decidable (_ ∨ _ ∧ _))
  | .fromJulian _ _ => inferInstanceAs (Decidable (_ ∧ _))
  | .fromTime _ _ _ => inferInstanceAs (Decidable (_ → _))

variable {d : UTimeDate} {s : Dates}

theorem isValid_congr {d d' : UTimeDate} (hday : d'.day = d.day) (hmonth : d'.month = d.month)
    (hyear : d'.year = d.year) : isValid d' = isValid d := by
  rw [isValid, isValid, hday, hmonth, hyear]

theorem getJulian_spec (h : Consistent d) :
    (getJulian d).1 = toJulian d.day d.month d.year ∧ Consistent (getJulian d).2 := by
  unfold getJulian
  split
  · next hknown => exact ⟨h.2.resolve_left hknown, h⟩
  · exact ⟨rfl, (isValid_congr rfl rfl rfl).trans h.1, .inr rfl⟩

theorem julianOf_spec (h : AllConsistent s) (i : Nat) :
    AllConsistent (julianOf s i).2 ∧ ∀ j, (getJulian ((julianOf s i).2 j)).1 =
      (getJulian (s j)).1 := by
  have hi := getJulian_spec (h i)
  have hjulian : ∀ j, (julianOf s i).2 j = if j = i then (getJulian (s i)).2 else s j := by
    intro j
    simp only [julianOf, Function.update_apply]
  constructor
  · intro j
    rw [hjulian]
    split
    · exact hi.2
    · exact h j
  · intro j
    rw [hjulian]
    split
    · next heq =>
      subst heq
      unfold getJulian
      split
      · rfl
      · simp only
        split
        · rfl
        · rfl
    · rfl

/-- Where the Julian day was set first. -/
theorem consistent_fromJulian (d : UTimeDate) {j : Int} (hj : Supported j)
    (hknown : d.julian = 0 ∨ d.julian = j) : Consistent (fromJulian d j) := by
  have hkeep : (fromJulian d j).julian = d.julian := by
    unfold fromJulian
    simp only
    split <;> rfl
  refine ⟨isValid_fromJulian d hj.1, ?_⟩
  rw [hkeep, toJulian_fromJulian d hj.1]
  exact hknown

theorem consistent_addMonths (h : Consistent d) {n : Int}
    (hfits : n = 0 ∨ d.julian = 0 ∧
      SupportedDate (min d.day (getDaysInMonth (monthsLater d n).1 (monthsLater d n).2))
        (monthsLater d n).1 (monthsLater d n).2) : Consistent (addMonths d n) := by
  obtain ⟨-, -, hmonth, hdays⟩ := isValid_iff.mp h.1
  rw [addMonths_eq (by omega)]
  rcases hfits with rfl | ⟨hunknown, hvalid, -⟩
  · have hlater : monthsLater d 0 = (d.month, d.year) := by
      rw [monthsLater, Prod.mk.injEq]
      omega
    rw [hlater]
    simp only
    rw [min_eq_left hdays]
    exact h
  · exact ⟨(isValid_congr rfl rfl rfl).trans hvalid, .inl hunknown⟩

theorem consistent_setYear (d : UTimeDate) {year : Int}
    (hfits : SupportedDate d.day d.month (fullYear year)) : Consistent (setYear d year) := by
  unfold setYear
  simp only
  split
  · exact ⟨(isValid_congr rfl rfl rfl).trans hfits.1, .inr rfl⟩
  · next hunknown =>
    exact ⟨(isValid_congr rfl rfl rfl).trans hfits.1, .inl (not_not.mp hunknown)⟩

theorem consistent_fromTime {tm : Int} {localTime : Int × Int × Int}
    (hfits : tm ≠ 0 → SupportedDate localTime.1 localTime.2.1 localTime.2.2) :
    Consistent (fromTime tm localTime) := by
  unfold fromTime
  split
  · next htm => exact ⟨(isValid_congr rfl rfl rfl).trans (hfits htm).1, .inl rfl⟩
  · exact ⟨by decide, .inr (by decide)⟩

theorem AllConsistent.update (h : AllConsistent s) (i : Nat) (hd : Consistent d) :
    AllConsistent (Function.update s i d) := by
  intro j
  rw [Function.update_apply]
  split
  · exact hd
  · exact h j

theorem apply_consistent (op : Op) (h : AllConsistent s) (hfits : Fits s op) :
    AllConsistent (apply s op).2 := by
  cases op with
  | getJulian i => exact (julianOf_spec h i).1
  | getDayOfWeek i => exact (julianOf_spec h i).1
  | getDayOfYear i => exact (julianOf_spec h i).1
  | compare i j c => exact (julianOf_spec (julianOf_spec h i).1 j).1
  | daysTo i j => exact (julianOf_spec (julianOf_spec h j).1 i).1
  | assign i j => exact h.update i (h j)
  | set i day month year => exact h.update i (consistent_setYear ⟨0, day, month, 0⟩ hfits)
  | setYear i year => exact h.update i (consistent_setYear (s i) hfits)
  | addDays i days => exact h.update i (consistent_fromJulian _ hfits (.inr rfl))
  | addMonths i nmonths => exact h.update i (consistent_addMonths (h i) hfits)
  | addYears i years =>
      exact h.update i ⟨(isValid_congr rfl rfl rfl).trans hfits.1, .inr rfl⟩
  | addDate i j =>
      obtain ⟨hi, hsame⟩ := julianOf_spec h i
      obtain ⟨hj, -⟩ := julianOf_spec hi j
      refine hj.update i (consistent_fromJulian _ ?_ (.inr rfl))
      rw [show (getJulian (Function.update s i (getJulian (s i)).2 j)).1 = _ from hsame j]
      exact hfits
  | subDate i j =>
      obtain ⟨hi, hsame⟩ := julianOf_spec h i
      obtain ⟨hj, -⟩ := julianOf_spec hi j
      refine hj.update i (consistent_fromJulian _ ?_ (.inr rfl))
      rw [show (getJulian (Function.update s i (getJulian (s i)).2 j)).1 = _ from hsame j]
      exact hfits
  | fromJulian i j => exact h.update i (consistent_fromJulian (s i) hfits.1 hfits.2)
  | fromTime i tm localTime => exact h.update i (consistent_fromTime hfits)

/-- In a run whose operations all fit, the dates stay in the calendar and their
Julian days right. -/
theorem dates_stay_consistent {s : Dates} (hs : AllConsistent s) (ops : List Op)
    (hfits : StepsMeet step Fits s ops) : Always step AllConsistent s ops :=
  always_of_invariant (fun _ h => h)
    (fun s op h hop => ⟨(apply s op).1, (apply s op).2, rfl, apply_consistent op h hop⟩) ops hs hfits

theorem dates_stay_consistent_small :
    Always step AllConsistent (fun _ => ⟨0, 29, 2, 2000⟩)
      [.addMonths 0 12, .addDays 0 366, .addYears 0 3, .compare 0 1 .lt, .setYear 1 4] :=
  dates_stay_consistent (fun _ => ⟨by decide, .inl rfl⟩) _ (by decide)

/-- `addMonths` leaves the Julian day as it was. -/
theorem addMonths_not_consistent :
    ¬Always step AllConsistent (fun _ => ⟨0, 31, 1, 2000⟩) [.getJulian 0, .addMonths 0 1] := by
  rintro ⟨-, r, s, hs, -, r', s', hs', h⟩
  obtain ⟨-, rfl⟩ := Prod.mk.inj (Option.some.inj hs)
  obtain ⟨-, rfl⟩ := Prod.mk.inj (Option.some.inj hs')
  have hjulian := (h 0).2
  revert hjulian
  decide

end ULib.TimeDate
