import ULib.JulianDays
import ULib.Loops

/-!
`UTimeDate::addMonths` of `date.cpp` as the loop that it is, on numbers of type
`int`: that the loop is left, and which month and day it comes to.
-/

namespace ULib.MonthArithmetic

open ULib.TimeDate ULib.JulianDays ULib.Loops

/-- What the loop works on -/
structure Months where
  nmonths : Int
  month : Int
  year : Int
  deriving DecidableEq, Repr

/-- The body of the loop; `none` where an `int` overflows, which neither of the sums that are
compared with zero does. -/
def addMonthsBody (s : Months) : Option Months :=
  if s.nmonths < 0 ∧ s.nmonths + 12 ≤ 0 then do
    let year ← int (s.year - 1)
    return { s with year := year, nmonths := ← int (s.nmonths + 12) }
  else if s.nmonths < 0 then do
    let month ← int (s.month + s.nmonths)
    if month ≤ 0 then
      let year ← int (s.year - 1)
      return ⟨0, ← int (month + 12), year⟩
    else return ⟨0, month, s.year⟩
  else if s.nmonths - 12 ≥ 0 then do
    let year ← int (s.year + 1)
    return { s with year := year, nmonths := ← int (s.nmonths - 12) }
  else if s.month = 12 then do
    let year ← int (s.year + 1)
    return { s with year := year, month := 0 }
  else do
    let month ← int (s.month + s.nmonths)
    if month > 12 then
      let year ← int (s.year + 1)
      return ⟨0, ← int (month - 12), year⟩
    else return ⟨0, month, s.year⟩

/-- The end of `addMonths`, where the day is cut to the month. -/
def cutDay (d : UTimeDate) (month year : Int) : UTimeDate :=
  let days := getDaysInMonth month year
  { d with day := if d.day > days then days else d.day, month := month, year := year }

/-- `addMonths` is left with the date `d'`. -/
def AddMonths (d : UTimeDate) (nmonths : Int) (d' : UTimeDate) : Prop :=
  ∃ s, While (fun s => s.nmonths ≠ 0) addMonthsBody ⟨nmonths, d.month, d.year⟩ s ∧
    d' = cutDay d s.month s.year

/-- What stays in the loop towards month `k`: the months that are still to be added lead there,
and no month is `0` but in front of less than a year. -/
structure Heads (k : Int) (s : Months) : Prop where
  sum : 12 * s.year + s.month - 1 + s.nmonths = k
  month : 1 ≤ s.month ∧ s.month ≤ 12 ∨ s.month = 0 ∧ 0 < s.nmonths ∧ s.nmonths < 12
  year : 1752 ≤ s.year ∧ s.year ≤ 8000

/-- A turn takes off a year or all months, or comes to the month `0`. -/
def turnsLeft (s : Months) : Nat := 2 * s.nmonths.natAbs + if s.month = 12 then 1 else 0

variable {d : UTimeDate} {n k : Int}

theorem turnsLeft_lt {s s' : Months} (h : s'.nmonths.natAbs < s.nmonths.natAbs) :
    turnsLeft s' < turnsLeft s := by
  unfold turnsLeft
  split <;> split <;> omega

theorem Heads.arrived (hk : 12 * 1752 ≤ k ∧ k < 12 * 8001) {month year : Int}
    (hmonth : 1 ≤ month ∧ month ≤ 12) (hsum : 12 * year + month - 1 = k) :
    Heads k ⟨0, month, year⟩ :=
  ⟨by simp only; omega, .inl hmonth, by simp only; omega⟩

theorem addMonthsBody_spec {s : Months} (hk : 12 * 1752 ≤ k ∧ k < 12 * 8001) (h : Heads k s)
    (hn : s.nmonths ≠ 0) :
    ∃ s', addMonthsBody s = some s' ∧ Heads k s' ∧ turnsLeft s' < turnsLeft s := by
  obtain ⟨n, month, year⟩ := s
  obtain ⟨hsum, hmonth, hyear⟩ := h
  simp only at hsum hmonth hyear hn
  unfold addMonthsBody
  dsimp only
  split
  · -- a year back
    rw [int_bind (by omega), int_bind (by omega)]
    exact ⟨_, rfl, ⟨by simp only; omega, by simp only; omega, by simp only; omega⟩,
      turnsLeft_lt (by simp only; omega)⟩
  split
  · rw [int_bind (by omega)]
    split
    · rw [int_bind (by omega), int_bind (by omega)]
      exact ⟨_, rfl, .arrived hk (by omega) (by omega), turnsLeft_lt (by simp only; omega)⟩
    · exact ⟨_, rfl, .arrived hk (by omega) (by omega), turnsLeft_lt (by simp only; omega)⟩
  split
  · -- a year on
    rw [int_bind (by omega), int_bind (by omega)]
    exact ⟨_, rfl, ⟨by simp only; omega, by simp only; omega, by simp only; omega⟩,
      turnsLeft_lt (by simp only; omega)⟩
  split
  · -- December becomes the month before January
    next hdecember =>
    have hless : 0 < n ∧ n < 12 := by omega
    rw [int_bind (by omega)]
    refine ⟨_, rfl, ⟨by simp only; omega, .inr ⟨rfl, hless⟩, by simp only; omega⟩, ?_⟩
    simp only [turnsLeft]
    rw [if_pos hdecember, if_neg (by decide)]
    exact Nat.lt_succ_self _
  · rw [int_bind (by omega)]
    split
    · rw [int_bind (by omega), int_bind (by omega)]
      exact ⟨_, rfl, .arrived hk (by omega) (by omega), turnsLeft_lt (by simp only; omega)⟩
    · exact ⟨_, rfl, .arrived hk (by omega) (by omega), turnsLeft_lt (by simp only; omega)⟩

/-- Which date `addMonths` is left with -/
theorem exists_addMonths (hd : 1 ≤ d.month ∧ d.month ≤ 12) (hyear : 1752 ≤ d.year ∧ d.year ≤ 8000)
    (hk : 12 * 1752 ≤ 12 * d.year + d.month - 1 + n ∧
      12 * d.year + d.month - 1 + n < 12 * 8001) :
    ∃ month year, AddMonths d n (cutDay d month year) ∧ (1 ≤ month ∧ month ≤ 12) ∧
      12 * year + month - 1 = 12 * d.year + d.month - 1 + n := by
  have hstart : Heads (12 * d.year + d.month - 1 + n) ⟨n, d.month, d.year⟩ :=
    ⟨rfl, .inl hd, hyear⟩
  obtain ⟨s, hloop, ⟨hsum, hmonth, -⟩, hleft⟩ :=
    exists_while (fun s hs hn => addMonthsBody_spec hk hs hn) hstart
  have hn : s.nmonths = 0 := not_not.mp hleft
  exact ⟨s.month, s.year, ⟨s, hloop, rfl⟩, by omega, by omega⟩

theorem AddMonths.unique {d' d'' : UTimeDate} (h : AddMonths d n d') (h' : AddMonths d n d'') :
    d'' = d' := by
  obtain ⟨s, hs, rfl⟩ := h
  obtain ⟨s', hs', rfl⟩ := h'
  rw [hs'.unique hs]

/-- `addMonths` with fuel is that date. -/
theorem addMonths_addMonths (hd : 1 ≤ d.month ∧ d.month ≤ 12)
    (hyear : 1752 ≤ d.year ∧ d.year ≤ 8000)
    (hk : 12 * 1752 ≤ 12 * d.year + d.month - 1 + n ∧
      12 * d.year + d.month - 1 + n < 12 * 8001) : AddMonths d n (addMonths d n) := by
  obtain ⟨month, year, hadd, hmonth, hsum⟩ := exists_addMonths hd hyear hk
  have hlater : monthsLater d n = (month, year) := by
    rw [monthsLater, Prod.mk.injEq]
    omega
  have hday : (if d.day > getDaysInMonth month year then getDaysInMonth month year else d.day) =
      min d.day (getDaysInMonth month year) := by
    split <;> omega
  rw [cutDay, hday] at hadd
  rwa [addMonths_eq hd, hlater]

/-- What `addMonths` does to a date, and that it can be taken back -/
theorem addMonths_spec (h : isValid d = true) (hlast : d.year ≤ lastYear)
    (hresult : firstYear ≤ (12 * d.year + d.month - 1 + n) / 12 ∧
      (12 * d.year + d.month - 1 + n) / 12 ≤ lastYear) :
    (AddMonths d n (addMonths d n) ∧ ∀ d', AddMonths d n d' → d' = addMonths d n) ∧
      12 * (addMonths d n).year + (addMonths d n).month - 1 = 12 * d.year + d.month - 1 + n ∧
      (1 ≤ (addMonths d n).month ∧ (addMonths d n).month ≤ 12) ∧
      (addMonths d n).day = min d.day (monthLength (addMonths d n).month (addMonths d n).year) ∧
      AddMonths (addMonths d n) (-n) (addMonths (addMonths d n) (-n)) ∧
      (addMonths (addMonths d n) (-n)).month = d.month ∧
      (addMonths (addMonths d n) (-n)).year = d.year := by
  obtain ⟨hfirst, -, hmonth, -⟩ := isValid_iff.mp h
  simp only [firstYear, lastYear] at hfirst hlast hresult
  have hadd := addMonths_addMonths (d := d) (n := n) (by omega) (by omega) (by omega)
  have heq := @addMonths_eq d (by omega) n
  have hlater : (addMonths d n).month = (12 * d.year + d.month - 1 + n) % 12 + 1 ∧
      (addMonths d n).year = (12 * d.year + d.month - 1 + n) / 12 := by
    rw [heq]
    exact ⟨rfl, rfl⟩
  have hday : (addMonths d n).day =
      min d.day (getDaysInMonth (addMonths d n).month (addMonths d n).year) := by
    rw [heq]
  generalize addMonths d n = d' at hadd hlater hday ⊢
  have hback := addMonths_addMonths (d := d') (n := -n) (by omega) (by omega) (by omega)
  have hback' : (addMonths d' (-n)).month = (12 * d'.year + d'.month - 1 + -n) % 12 + 1 ∧
      (addMonths d' (-n)).year = (12 * d'.year + d'.month - 1 + -n) / 12 := by
    rw [@addMonths_eq d' (by omega)]
    exact ⟨rfl, rfl⟩
  refine ⟨⟨hadd, fun d'' h'' => hadd.unique h''⟩, by omega, by omega, ?_, hback, by omega,
    by omega⟩
  rw [hday, getDaysInMonth_eq (by omega) (by omega)]

/-- From the end of January to the end of a February, and back to January -/
theorem addMonths_spec_february :
    AddMonths ⟨0, 31, 1, 2000⟩ 13 ⟨0, 28, 2, 2001⟩ ∧
      AddMonths ⟨0, 28, 2, 2001⟩ (-13) ⟨0, 28, 1, 2000⟩ := by
  have h := @addMonths_spec ⟨0, 31, 1, 2000⟩ 13 (by decide) (by decide) (by decide)
  exact ⟨h.1.1, h.2.2.2.2.1⟩

end ULib.MonthArithmetic
