import ULib.JulianDays
import ULib.NumberText

/-!
`UTimeDate::getSecondFromTime` of `date.cpp` for the two forms of a GMT date that
it knows, with `u_getMonth` of `base/base.c`: the fields are cut at fixed columns
and put together by the Julian day.
-/

namespace ULib.HttpDate

open ULib.KeyComparison ULib.EscapeCoding ULib.JsonValue ULib.JsonScan ULib.NumberText
open ULib.TimeDate ULib.JulianDays

/-- The fields of a `struct tm` that are set -/
structure Tm where
  year : Int
  mon : Int
  mday : Int
  hour : Int
  min : Int
  sec : Int
  isdst : Int
  deriving DecidableEq, Repr

/-- The table `u_months` -/
def months : List Bytes :=
  ["jan", "feb", "mar", "apr", "may", "jun", "jul", "aug", "sep", "oct", "nov", "dec"].map
    fun m => m.toUTF8.data.toList

/-- The table `u_months_it` -/
def monthsIt : List Bytes :=
  ["gen", "feb", "mar", "apr", "mag", "giu", "lug", "ago", "set", "ott", "nov", "dic"].map
    fun m => m.toUTF8.data.toList

/-- The three letters at `buf` are those of a name in lower case. -/
def isMonth (ptr buf : Bytes) : Bool :=
  peek ptr 0 == uTolower (peek buf 0) && peek ptr 1 == uTolower (peek buf 1) &&
    peek ptr 2 == uTolower (peek buf 2)

def getMonth (buf : Bytes) : Nat :=
  match (List.range 12).find? fun i =>
      isMonth (months.getD i []) buf || isMonth (monthsIt.getD i []) buf with
  | some i => i + 1
  | none => 0

/-- The fields of a date `Fri, 31 Dec 1999 23:59:59 GMT` or `Jan 25 11:54:00 2005 GMT` -/
def gmtFields (str : Bytes) : Option Tm :=
  if peek str 3 = ','.toUInt8 then
    some { mday := atoi (str.drop 5), mon := getMonth (str.drop 8), year := atoi (str.drop 12),
           hour := atoi (str.drop 17), min := atoi (str.drop 20), sec := atoi (str.drop 23),
           isdst := 0 }
  else if getMonth str ≠ 0 then
    some { mday := atoi (str.drop 4), mon := getMonth str, year := atoi (str.drop 16),
           hour := atoi (str.drop 7), min := atoi (str.drop 10), sec := atoi (str.drop 13),
           isdst := 0 }
  else none

/-- The fields that `sscanf` has read with `fmt`, of which there must be six; the rest is zero. -/
def scanFields (values : List Int) : Tm :=
  let tm : Tm := ⟨values.getD 0 0, values.getD 1 0, values.getD 2 0, values.getD 3 0,
    values.getD 4 0, values.getD 5 0, 0⟩
  if values.length ≠ 6 then tm
  else if tm.year < 50 then { tm with year := tm.year + 2000 }
  else if tm.year < 100 then { tm with year := tm.year + 1900 }
  else tm

def OutOfRange (tm : Tm) : Prop :=
  tm.year < 1900 ∨ tm.mon < 1 ∨ tm.mon > 12 ∨ tm.mday < 1 ∨ tm.mday > 31 ∨
    tm.hour < 0 ∨ tm.hour > 23 ∨ tm.min < 0 ∨ tm.min > 59 ∨ tm.sec < 0 ∨ tm.sec > 61

instance (tm : Tm) : Decidable (OutOfRange tm) := inferInstanceAs (Decidable (_ ∨ _))

/-- A `time_t` has 64 bits. -/
def getSecondFromJulian (julian : Int) : Int := (julian - 2440588) * (24 * 60 * 60)

def gmtSeconds (tm : Tm) : Int :=
  let t := getSecondFromJulian (toJulian tm.mday tm.mon tm.year)
  if t < 0 then 2 ^ 63 - 1 else t + (tm.sec + tm.min * 60 + tm.hour * 3600)

/-- `getSecondFromTime`, with what is left in `*tm`. `sscanf str fmt` is the list of the numbers
that were read, and `mktime` gives its result and what it makes of the fields. -/
def getSecondFromTime (sscanf : Bytes → Bytes → List Int) (mktime : Tm → Int × Tm) (str : Bytes)
    (gmt : Bool) (fmt : Bytes) : Int × Tm :=
  let read : Bool × Tm :=
    match if gmt then gmtFields str else none with
    | some tm => (true, tm)
    | none => ((sscanf str fmt).length = 6, scanFields (sscanf str fmt))
  if read.1 = false ∨ OutOfRange read.2 then (-1, read.2)
  else if gmt then (gmtSeconds read.2, read.2)
  else mktime { read.2 with year := read.2.year - 1900, mon := read.2.mon - 1, isdst := -1 }

/-! ### Instants and their texts -/

/-- The date of the instant that is `t` seconds after the beginning of 1970 -/
def dateAt (t : Nat) : Date := Date.next^[t / 86400] ⟨1, 1, 1970⟩

/-- What is left open in the text of a date: three bytes for the weekday, the letters of the month,
and what fills up a day of one digit -/
structure Writing where
  weekday : Bytes
  month : Bytes
  fill : UInt8
  deriving DecidableEq, Repr

/-- The name of the month is that of the instant, in any case. -/
structure Writing.Of (w : Writing) (t : Nat) : Prop where
  weekday : w.weekday.length = 3
  month : w.month.map tolower = months.getD ((dateAt t).month.toNat - 1) []
  fill : w.fill = '0'.toUInt8 ∨ w.fill = ' '.toUInt8

def Writing.day (w : Writing) (t : Nat) : Bytes :=
  let day := printNat (dateAt t).day.toNat
  List.replicate (2 - day.length) w.fill ++ day

def yearText (t : Nat) : Bytes := padded 4 (dateAt t).year.toNat

/-- The time of day in front of what follows -/
def clock (t : Nat) (rest : Bytes) : Bytes :=
  padded 2 (t % 86400 / 3600) ++ ':'.toUInt8 :: (padded 2 (t % 3600 / 60) ++
    ':'.toUInt8 :: (padded 2 (t % 60) ++ rest))

def zone : Bytes := " GMT".toUTF8.data.toList

/-- `Www, DD Mon YYYY HH:MM:SS GMT` -/
def Writing.header (w : Writing) (t : Nat) : Bytes :=
  w.weekday ++ ','.toUInt8 :: ' '.toUInt8 :: (w.day t ++ ' '.toUInt8 :: (w.month ++
    ' '.toUInt8 :: (yearText t ++ ' '.toUInt8 :: clock t zone)))

/-- `Mon DD HH:MM:SS YYYY GMT` -/
def Writing.certificate (w : Writing) (t : Nat) : Bytes :=
  w.month ++ ' '.toUInt8 :: (w.day t ++ ' '.toUInt8 :: clock t (' '.toUInt8 :: (yearText t ++ zone)))

/-! ### Numbers and names at a place -/

theorem atoi_digits {w : Bytes} (hw : ∀ c ∈ w, isDigit c) (hne : w ≠ [])
    (hlt : digitsValue w < 2 ^ 31) {c : UInt8} (hc : isDigit c = false) (rest : Bytes) :
    atoi (w ++ c :: rest) = digitsValue w := by
  rw [atoi, signed_digits hw hne]
  dsimp only
  rw [takeWhile_digits hw hc, clampLong, if_neg Bool.false_ne_true, min_eq_left (by omega),
    Int32.toInt_ofInt, Int32.size, Int.bmod_eq_of_le (by omega) (by omega)]

theorem atoi_space (t : Bytes) : atoi (' '.toUInt8 :: t) = atoi t := rfl

theorem atoi_padded {width n : Nat} (hwidth : 0 < width) (hn : n < 10 ^ width) (hlt : n < 2 ^ 31)
    {c : UInt8} (hc : isDigit c = false) (rest : Bytes) :
    atoi (padded width n ++ c :: rest) = n := by
  obtain ⟨hlength, hdigits, hvalue⟩ := padded_spec hwidth hn
  have hne : padded width n ≠ [] := by
    intro hnil
    rw [hnil] at hlength
    exact hwidth.ne hlength
  rw [atoi_digits hdigits hne (by omega) hc, hvalue]

/-- `u_getMonth` looks at three letters in any case. -/
theorem getMonth_congr {buf buf' : Bytes}
    (h : ∀ k < 3, uTolower (peek buf k) = uTolower (peek buf' k)) : getMonth buf = getMonth buf' := by
  unfold getMonth isMonth
  rw [h 0 (by decide), h 1 (by decide), h 2 (by decide)]

theorem months_spec : ∀ i < 12, (months.getD i []).length = 3 ∧ getMonth (months.getD i []) = i + 1 :=
  by decide +kernel

theorem getMonth_name {mon : Bytes} {i : Nat} (hi : i < 12)
    (h : mon.map tolower = months.getD i []) (rest : Bytes) : getMonth (mon ++ rest) = i + 1 := by
  obtain ⟨hlength, hmonth⟩ := months_spec i hi
  rw [← h, List.length_map] at hlength
  rw [← hmonth, ← h]
  refine getMonth_congr fun k hk => ?_
  simp only [peek, List.getD_eq_getElem?_getD]
  rw [List.getElem?_append_left (by omega), List.getElem?_map, List.getElem?_eq_getElem (by omega),
    Option.map_some, Option.getD_some, Option.getD_some, uTolower_tolower]

/-! ### The columns -/

variable {w : Writing} {t : Nat}

/-- The date of an instant is in the calendar, and its Julian day is that of the instant. -/
theorem dateAt_spec (t : Nat) :
    (dateAt t).Valid ∧ (dateAt t).julian = 2440588 + (t / 86400 : Nat) ∧ 1970 ≤ (dateAt t).year := by
  have hstart : (⟨1, 1, 1970⟩ : Date).Valid := ⟨by decide, by decide, by decide⟩
  have hvalid := valid_iterate hstart (t / 86400)
  have hjulian := julian_iterate hstart (t / 86400)
  refine ⟨hvalid, hjulian, ?_⟩
  by_contra hearly
  have hlt := julian_lt hvalid hstart (.inl (not_le.mp hearly))
  rw [hjulian] at hlt
  omega

theorem day_spec (w : Writing) (t : Nat) :
    1 ≤ (dateAt t).day ∧ (dateAt t).day ≤ 31 ∧ (w.day t).length = 2 := by
  obtain ⟨hvalid, -, -⟩ := dateAt_spec t
  have hday := hvalid.day
  have hle := monthLength_le (dateAt t).month (dateAt t).year
  have hlength := @length_printNat_le (dateAt t).day.toNat 2 (by decide) (by omega)
  refine ⟨hday.1, hday.2.trans hle, ?_⟩
  rw [Writing.day, List.length_append, List.length_replicate]
  omega

theorem atoi_day (hfill : w.fill = '0'.toUInt8 ∨ w.fill = ' '.toUInt8) {c : UInt8}
    (hc : isDigit c = false) (rest : Bytes) :
    atoi (w.day t ++ c :: rest) = (dateAt t).day := by
  obtain ⟨hday, hday', -⟩ := day_spec w t
  have hvalue : ((dateAt t).day.toNat : Int) = (dateAt t).day := Int.toNat_of_nonneg (by omega)
  rcases hfill with hfill | hfill
  · rw [Writing.day, hfill, ← hvalue]
    exact atoi_padded (by decide) (by omega) (by omega) hc rest
  · obtain ⟨hne, hdigits, hprint⟩ := printNat_spec (dateAt t).day.toNat
    have hskip : ∀ (n : Nat) (u : Bytes),
        atoi (List.replicate n ' '.toUInt8 ++ u) = atoi u := by
      intro n u
      induction n with
      | zero => rfl
      | succ n ih => exact (atoi_space _).trans ih
    rw [Writing.day, hfill, List.append_assoc, hskip, atoi_digits hdigits hne (by omega) hc, hprint,
      hvalue]

theorem yearText_spec (hlast : (dateAt t).year ≤ 7999) :
    (yearText t).length = 4 ∧ ∀ {c : UInt8}, isDigit c = false → ∀ rest,
      atoi (yearText t ++ c :: rest) = (dateAt t).year := by
  obtain ⟨-, -, hfirst⟩ := dateAt_spec t
  have hvalue : ((dateAt t).year.toNat : Int) = (dateAt t).year := Int.toNat_of_nonneg (by omega)
  refine ⟨(padded_spec (by decide) (by omega)).1, fun hc rest => ?_⟩
  rw [yearText, atoi_padded (by decide) (by omega) (by omega) hc, hvalue]

theorem month_spec (h : w.Of t) (rest : Bytes) :
    w.month.length = 3 ∧ (getMonth (w.month ++ rest) : Int) = (dateAt t).month := by
  obtain ⟨⟨hmonth, -, -⟩, -, -⟩ := dateAt_spec t
  have hindex : (dateAt t).month.toNat - 1 < 12 := by omega
  have hlength := congrArg List.length h.month
  rw [List.length_map, (months_spec _ hindex).1] at hlength
  refine ⟨hlength, ?_⟩
  rw [getMonth_name hindex h.month]
  omega

theorem padded_two {n : Nat} (hn : n < 100) :
    (padded 2 n).length = 2 ∧ ∀ {c : UInt8}, isDigit c = false → ∀ rest,
      atoi (padded 2 n ++ c :: rest) = n :=
  ⟨(padded_spec (by decide) hn).1, fun hc rest => atoi_padded (by decide) hn (by omega) hc rest⟩

/-- What is read of a field of `n` bytes in front of a byte `c` -/
def Field (read : Bytes → Int) (n : Nat) (c : UInt8) (u : Bytes) (v : Int) : Prop :=
  u.length = n ∧ ∀ rest, read (u ++ c :: rest) = v

/-- The columns of a header -/
theorem header_columns {www dd mon yyyy hh mm ss : Bytes} {tm : Tm} (hwww : www.length = 3)
    (hdd : Field atoi 2 ' '.toUInt8 dd tm.mday)
    (hmon : Field (fun t => getMonth t) 3 ' '.toUInt8 mon tm.mon)
    (hyyyy : Field atoi 4 ' '.toUInt8 yyyy tm.year) (hhh : Field atoi 2 ':'.toUInt8 hh tm.hour)
    (hmm : Field atoi 2 ':'.toUInt8 mm tm.min) (hss : atoi ss = tm.sec) (hisdst : tm.isdst = 0) :
    gmtFields (www ++ ','.toUInt8 :: ' '.toUInt8 :: (dd ++ ' '.toUInt8 :: (mon ++ ' '.toUInt8 ::
      (yyyy ++ ' '.toUInt8 :: (hh ++ ':'.toUInt8 :: (mm ++ ':'.toUInt8 :: ss)))))) = some tm := by
  obtain ⟨a, b, c, rfl⟩ := List.length_eq_three.mp hwww
  obtain ⟨d, e, rfl⟩ := List.length_eq_two.mp hdd.1
  obtain ⟨f, g, h, rfl⟩ := List.length_eq_three.mp hmon.1
  obtain ⟨i, j, k, l, rfl⟩ := List.length_eq_four.mp hyyyy.1
  obtain ⟨m, n, rfl⟩ := List.length_eq_two.mp hhh.1
  obtain ⟨o, p, rfl⟩ := List.length_eq_two.mp hmm.1
  obtain ⟨year, mon, mday, hour, min, sec, isdst⟩ := tm
  refine (if_pos rfl).trans ?_
  rw [Option.some.injEq, Tm.mk.injEq]
  exact ⟨hyyyy.2 _, hmon.2 _, hdd.2 _, hhh.2 _, hmm.2 _, hss, hisdst.symm⟩

/-- The columns of a date that begins with the month -/
theorem certificate_columns {dd mon yyyy hh mm ss : Bytes} {tm : Tm}
    (hmon : Field (fun t => getMonth t) 3 ' '.toUInt8 mon tm.mon) (hne : tm.mon ≠ 0)
    (hdd : Field atoi 2 ' '.toUInt8 dd tm.mday) (hhh : Field atoi 2 ':'.toUInt8 hh tm.hour)
    (hmm : Field atoi 2 ':'.toUInt8 mm tm.min) (hss : Field atoi 2 ' '.toUInt8 ss tm.sec)
    (hyyyy : atoi yyyy = tm.year) (hisdst : tm.isdst = 0) :
    gmtFields (mon ++ ' '.toUInt8 :: (dd ++ ' '.toUInt8 :: (hh ++ ':'.toUInt8 :: (mm ++
      ':'.toUInt8 :: (ss ++ ' '.toUInt8 :: yyyy))))) = some tm := by
  have hmonth := fun rest => hmon.2 rest
  obtain ⟨f, g, h, rfl⟩ := List.length_eq_three.mp hmon.1
  obtain ⟨d, e, rfl⟩ := List.length_eq_two.mp hdd.1
  obtain ⟨m, n, rfl⟩ := List.length_eq_two.mp hhh.1
  obtain ⟨o, p, rfl⟩ := List.length_eq_two.mp hmm.1
  obtain ⟨q, r, rfl⟩ := List.length_eq_two.mp hss.1
  obtain ⟨year, mon, mday, hour, min, sec, isdst⟩ := tm
  refine (if_neg (show ¬ ' '.toUInt8 = ','.toUInt8 by decide)).trans ?_
  rw [if_pos (fun hzero => hne ((hmonth _).symm.trans (congrArg Nat.cast hzero))),
    Option.some.injEq, Tm.mk.injEq]
  exact ⟨hyyyy, hmonth _, hdd.2 _, hhh.2 _, hmm.2 _, hss.2 _, hisdst.symm⟩

/-! ### Seconds -/

/-- The fields of an instant -/
def fieldsAt (t : Nat) : Tm :=
  { year := (dateAt t).year, mon := (dateAt t).month, mday := (dateAt t).day,
    hour := (t % 86400 / 3600 : Nat), min := (t % 3600 / 60 : Nat), sec := (t % 60 : Nat),
    isdst := 0 }

theorem not_outOfRange (t : Nat) : ¬ OutOfRange (fieldsAt t) := by
  obtain ⟨⟨hmonth, hday, -⟩, -, hyear⟩ := dateAt_spec t
  have hlength := monthLength_le (dateAt t).month (dateAt t).year
  simp only [OutOfRange, fieldsAt]
  omega

theorem gmtSeconds_fieldsAt (t : Nat) : gmtSeconds (fieldsAt t) = t := by
  obtain ⟨-, hjulian, -⟩ := dateAt_spec t
  have hday : toJulian (fieldsAt t).mday (fieldsAt t).mon (fieldsAt t).year =
      2440588 + (t / 86400 : Nat) := hjulian
  rw [gmtSeconds, hday, getSecondFromJulian]
  simp only [fieldsAt]
  rw [if_neg (by omega)]
  omega

/-- Where the fields are those of an instant, so is the result. -/
theorem getSecondFromTime_of_fields {str : Bytes} (h : gmtFields str = some (fieldsAt t))
    (sscanf : Bytes → Bytes → List Int) (mktime : Tm → Int × Tm) (fmt : Bytes) :
    getSecondFromTime sscanf mktime str true fmt = ((t : Int), fieldsAt t) := by
  unfold getSecondFromTime
  simp only [if_true, h]
  rw [if_neg (not_or.mpr ⟨by decide, not_outOfRange t⟩),
    gmtSeconds_fieldsAt]

theorem gmtFields_header (h : w.Of t) (hlast : (dateAt t).year ≤ 7999) (rest : Bytes) :
    gmtFields (w.header t ++ rest) = some (fieldsAt t) := by
  have hyear := yearText_spec hlast
  have hhour := @padded_two (t % 86400 / 3600) (by omega)
  have hmin := @padded_two (t % 3600 / 60) (by omega)
  have hsec := @padded_two (t % 60) (by omega)
  simp only [Writing.header, clock, List.append_assoc, List.cons_append]
  exact header_columns h.weekday ⟨(day_spec w t).2.2, fun _ => atoi_day h.fill rfl _⟩
    ⟨(month_spec h []).1, fun _ => (month_spec h _).2⟩ ⟨hyear.1, fun _ => hyear.2 rfl _⟩
    ⟨hhour.1, fun _ => hhour.2 rfl _⟩ ⟨hmin.1, fun _ => hmin.2 rfl _⟩ (hsec.2 rfl _) rfl

theorem gmtFields_certificate (h : w.Of t) (hlast : (dateAt t).year ≤ 7999) (rest : Bytes) :
    gmtFields (w.certificate t ++ rest) = some (fieldsAt t) := by
  have hyear := yearText_spec hlast
  have hhour := @padded_two (t % 86400 / 3600) (by omega)
  have hmin := @padded_two (t % 3600 / 60) (by omega)
  have hsec := @padded_two (t % 60) (by omega)
  obtain ⟨⟨hmonth, -, -⟩, -, -⟩ := dateAt_spec t
  simp only [Writing.certificate, clock, List.append_assoc, List.cons_append]
  exact certificate_columns ⟨(month_spec h []).1, fun _ => (month_spec h _).2⟩
    (by simp only [fieldsAt]; omega) ⟨(day_spec w t).2.2, fun _ => atoi_day h.fill rfl _⟩
    ⟨hhour.1, fun _ => hhour.2 rfl _⟩ ⟨hmin.1, fun _ => hmin.2 rfl _⟩
    ⟨hsec.1, fun _ => hsec.2 rfl _⟩ (hyear.2 rfl _) rfl

/-- An instant is read back from both of its texts, whatever stands behind them. -/
theorem getSecondFromTime_text (h : w.Of t) (hlast : (dateAt t).year ≤ 7999)
    (sscanf : Bytes → Bytes → List Int) (mktime : Tm → Int × Tm) (fmt rest : Bytes) :
    (getSecondFromTime sscanf mktime (w.header t ++ rest) true fmt).1 = t ∧
      (getSecondFromTime sscanf mktime (w.certificate t ++ rest) true fmt).1 = t := by
  rw [getSecondFromTime_of_fields (gmtFields_header h hlast rest),
    getSecondFromTime_of_fields (gmtFields_certificate h hlast rest)]
  exact ⟨rfl, rfl⟩

theorem getSecondFromTime_text_1994 :
    (getSecondFromTime (fun _ _ => []) (fun tm => (0, tm))
        "Sun,  6 NOV 1994 08:49:37 GMT\r\n".toUTF8.data.toList true []).1 = 784111777 ∧
      (getSecondFromTime (fun _ _ => []) (fun tm => (0, tm))
        "NOV  6 08:49:37 1994 GMT\r\n".toUTF8.data.toList true []).1 = 784111777 := by
  set w : Writing := ⟨"Sun".toUTF8.data.toList, "NOV".toUTF8.data.toList, ' '.toUInt8⟩ with hw
  have hdate : dateAt 784111777 = ⟨6, 11, 1994⟩ :=
    (iterate_eq_iff ⟨by decide, by decide, by decide⟩ ⟨by decide, by decide, by decide⟩ _).mpr
      (by decide)
  have hof : w.Of 784111777 := ⟨by decide, by rw [hdate]; decide, .inr rfl⟩
  have h := getSecondFromTime_text hof (by rw [hdate]; decide) (fun _ _ => []) (fun tm => (0, tm)) []
    "\r\n".toUTF8.data.toList
  simp only [Writing.header, Writing.certificate, Writing.day, yearText, clock, hdate] at h
  exact h

end ULib.HttpDate
