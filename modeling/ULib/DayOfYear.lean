import ULib.JulianDays

/-!
`UTimeDate::getDayOfYear` of `date.cpp`, which takes the days before a year from
its distance to 1901 and a fourth of it, against the days of the calendar.
-/

namespace ULib.DayOfYear

open ULib.TimeDate ULib.JulianDays

def getDayOfYear (d : UTimeDate) : Int × UTimeDate :=
  let y := d.year - 1901
  let (julian, d) := getJulian d
  (julian - y * 365 - y.tdiv 4 - 2415385, d)

def dateOf (d : UTimeDate) : Date := ⟨d.day, d.month, d.year⟩

/-- The last day of the year before -/
def yearEve (a : Date) : Date := ⟨31, 12, a.year - 1⟩

/-- `n` days lead from 31 December of the year before to the date. -/
def IsDayOfYear (a : Date) (n : Int) : Prop :=
  ∃ k : Nat, n = k ∧ Date.next^[k] (yearEve a) = a

variable {a : Date} {d : UTimeDate}

theorem valid_december {year : Int} (h : 1 ≤ year) : (⟨31, 12, year⟩ : Date).Valid :=
  ⟨⟨by simp only; omega, le_rfl⟩, ⟨by simp only; omega, le_rfl⟩, h⟩

/-- The leap days of the years from 1901 on -/
def leapDays (year : Int) : Int := year / 4 - year / 100 + year / 400 - 460

theorem julian_december {year : Int} (h : 1 ≤ year) :
    (⟨31, 12, year⟩ : Date).julian = (year - 1900) * 365 + leapDays year + 2415385 := by
  change toJulian 31 12 year = _
  have hcenturies : 146097 * (year / 100) / 4 = 36524 * (year / 100) + year / 400 := by omega
  have hyears : 1461 * (year % 100) / 4 = 365 * (year % 100) + (year % 100) / 4 := by omega
  have hfour : year / 4 = 25 * (year / 100) + (year % 100) / 4 := by omega
  rw [toJulian_late 31 (by omega) (by omega), leapDays, hcenturies, hyears, hfour]
  omega

theorem yearEve_lt (h : a.Valid) (hyear : 2 ≤ a.year) : (yearEve a).julian < a.julian :=
  julian_lt (valid_december (by omega)) h (.inl (by simp only [yearEve]; omega))

theorem julian_le (h : a.Valid) (hyear : 2 ≤ a.year) :
    a.julian ≤ (yearEve a).julian + 366 := by
  have hlast := valid_december h.year
  have hle : a.julian ≤ (⟨31, 12, a.year⟩ : Date).julian := by
    rcases Date.before_or a ⟨31, 12, a.year⟩ with hlt | heq | hlt
    · exact (julian_lt h hlast hlt).le
    · exact (congrArg Date.julian heq).le
    · obtain ⟨hmonth, hday, -⟩ := h
      have hlength := monthLength_le a.month a.year
      simp only [Date.Before] at hlt
      omega
  have heve := julian_december (show 1 ≤ a.year - 1 by omega)
  rw [julian_december h.year, leapDays] at hle
  rw [yearEve, heve, leapDays]
  omega

theorem isDayOfYear_iff (h : a.Valid) (hyear : 2 ≤ a.year) {n : Int} :
    IsDayOfYear a n ↔ n = a.julian - (yearEve a).julian := by
  have hlt := yearEve_lt h hyear
  simp only [IsDayOfYear, iterate_eq_iff (show (yearEve a).Valid from valid_december (by omega)) h]
  constructor
  · rintro ⟨k, rfl, hk⟩
    omega
  · intro heq
    exact ⟨n.toNat, by omega, by omega⟩

theorem IsDayOfYear.range (h : a.Valid) (hyear : 2 ≤ a.year) {n : Int} (hn : IsDayOfYear a n) :
    1 ≤ n ∧ n ≤ 366 := by
  have hlt := yearEve_lt h hyear
  have hle := julian_le h hyear
  rw [isDayOfYear_iff h hyear] at hn
  omega

/-! ### The estimate -/

/-- The years in which a fourth of the distance to 1901 is the number of leap days -/
theorem leapDays_iff {year : Int} (h : 1752 ≤ year) (h' : year ≤ 8000) :
    (year - 1901).tdiv 4 = leapDays (year - 1) ↔
      1801 ≤ year ∧ year ≤ 2100 ∧ (year ≤ 1900 → year % 4 ≠ 1) := by
  unfold leapDays
  rcases le_or_gt 1901 year with hlate | hearly
  · rw [Int.tdiv_eq_ediv_of_nonneg (by omega)]
    omega
  · have htdiv : (year - 1901).tdiv 4 = -((1901 - year) / 4) := by
      rw [← Int.tdiv_eq_ediv_of_nonneg (by omega), ← Int.neg_tdiv, Int.neg_sub]
    rw [htdiv]
    omega

theorem getDayOfYear_spec (h : Consistent d) :
    (getDayOfYear d).1 =
      (dateOf d).julian - (d.year - 1901) * 365 - (d.year - 1901).tdiv 4 - 2415385 := by
  simp only [getDayOfYear, (getJulian_spec h).1]
  rfl

/-- When the day of the year is that of the calendar -/
theorem getDayOfYear_iff (h : Consistent d) (hlast : d.year ≤ lastYear) :
    IsDayOfYear (dateOf d) (getDayOfYear d).1 ∧
        1 ≤ (getDayOfYear d).1 ∧ (getDayOfYear d).1 ≤ 366 ↔
      1801 ≤ d.year ∧ d.year ≤ 2100 ∧ (d.year ≤ 1900 → d.year % 4 ≠ 1) := by
  have hcovered : (dateOf d).Covered :=
    covered_iff.mpr ⟨(isValid_congr rfl rfl rfl).trans h.1, hlast⟩
  have hvalid := hcovered.valid
  have hyear : 1752 ≤ d.year := hcovered.year_le
  have hrange := @IsDayOfYear.range _ hvalid (show 2 ≤ d.year by omega) (getDayOfYear d).1
  rw [and_iff_left_of_imp hrange, isDayOfYear_iff hvalid (show 2 ≤ d.year by omega),
    getDayOfYear_spec h, ← leapDays_iff hyear hlast]
  have heve := julian_december (show 1 ≤ (dateOf d).year - 1 by simp only [dateOf]; omega)
  rw [yearEve, heve]
  simp only [dateOf]
  omega

theorem getDayOfYear_leap :
    IsDayOfYear ⟨31, 12, 2000⟩ (getDayOfYear ⟨0, 31, 12, 2000⟩).1 ∧
      1 ≤ (getDayOfYear ⟨0, 31, 12, 2000⟩).1 ∧ (getDayOfYear ⟨0, 31, 12, 2000⟩).1 ≤ 366 :=
  (getDayOfYear_iff (d := ⟨0, 31, 12, 2000⟩) ⟨by decide, .inl rfl⟩ (by decide)).mpr (by decide)

/-- The first day of the year 2101 is not the day 0. -/
theorem getDayOfYear_after2100 :
    isValid ⟨0, 1, 1, 2101⟩ = true ∧ (getDayOfYear ⟨0, 1, 1, 2101⟩).1 = 0 ∧
      IsDayOfYear ⟨1, 1, 2101⟩ 1 ∧
      ¬ (IsDayOfYear ⟨1, 1, 2101⟩ (getDayOfYear ⟨0, 1, 1, 2101⟩).1 ∧
        1 ≤ (getDayOfYear ⟨0, 1, 1, 2101⟩).1 ∧ (getDayOfYear ⟨0, 1, 1, 2101⟩).1 ≤ 366) :=
  ⟨by decide, by decide, ⟨1, rfl, by decide⟩, fun h => absurd h.2.1 (by decide)⟩

end ULib.DayOfYear
