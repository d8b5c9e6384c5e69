import ULib.FieldLayout
import ULib.FormatScan

/-!
How `u__vsnprintf` writes the field of an integer: the digits, which are put
together from the right, and the prefix and the padding in the buffer.
-/

namespace ULib.FormatField

open ULib.KeyComparison
open ULib.JsonScan
open ULib.FieldLayout
open ULib.FormatScan

def blank : UInt8 := ' '.toUInt8

def zeroDigit : UInt8 := '0'.toUInt8

def comma : UInt8 := ','.toUInt8

/-! ### Digits -/

/-- `base` -/
inductive Base where
  | oct
  | dec
  | hex

def hexLower (d : Nat) : UInt8 := "0123456789abcdef".toUTF8.data.toList.getD d 0

def hexUpper (d : Nat) : UInt8 := "0123456789ABCDEF".toUTF8.data.toList.getD d 0

/-- The digits of `argument` by powers of two, in front of `cp` -/
def pushDigits (base : Nat) (hbase : 1 < base) (xdigs : Nat → UInt8) (argument : Nat)
    (cp : Bytes) : Bytes :=
  if argument / base = 0 then xdigs (argument % base) :: cp
  else pushDigits base hbase xdigs (argument / base) (xdigs (argument % base) :: cp)
termination_by argument
decreasing_by
  have hpos : argument ≠ 0 := by
    rintro rfl
    exact ‹¬ 0 / base = 0› (Nat.zero_div base)
  exact Nat.div_lt_self (Nat.pos_of_ne_zero hpos) hbase

/-- `case DEC:`, where `n` counts the digits -/
def pushDecimal (thousandsGrouped : Bool) (n argument : Nat) (cp : Bytes) : Bytes :=
  if 10 ≤ argument then
    let cp := digit (argument % 10) :: cp
    pushDecimal thousandsGrouped (n + 1) (argument / 10)
      (if thousandsGrouped ∧ n % 3 = 0 then comma :: cp else cp)
  else digit argument :: cp

/-- `switch (base)` -/
def digitsFor (d : Directive) (ch : UInt8) (base : Base) (argument : Nat) : Bytes :=
  match base with
  | .oct =>
      let cp := pushDigits 8 (by decide) digit argument []
      if d.alt ∧ cp.head? ≠ some zeroDigit then zeroDigit :: cp else cp
  | .dec => pushDecimal d.thousandsGrouped 1 argument []
  | .hex =>
      pushDigits 16 (by decide) (if ch = 'X'.toUInt8 then hexUpper else hexLower) argument []

/-- From `number:` on: the directive, and what is at `cp` -/
def number (d : Directive) (ch : UInt8) (base : Base) (argument : Nat) : Directive × Bytes :=
  (if 0 ≤ d.prec then { d with zeropad := false } else d,
    if argument ≠ 0 ∨ d.prec ≠ 0 then digitsFor d ch base argument else [])

/-- `SARG()` -/
def sarg (d : Directive) (a : BitVec 64) : BitVec 64 :=
  if d.llongint then a
  else if d.longint then a
  else if d.shortint then (a.setWidth 16).signExtend 64
  else (a.setWidth 32).signExtend 64

/-- `UARG()` -/
def uarg (d : Directive) (a : BitVec 64) : BitVec 64 :=
  if d.llongint then a
  else if d.longint then a
  else if d.shortint then (a.setWidth 16).setWidth 64
  else (a.setWidth 32).setWidth 64

/-- The conversions of integers; the others are not modelled. -/
def convert (d : Directive) (ch : UInt8) (a : BitVec 64) : Option (Directive × Bytes) :=
  if ch = 'd'.toUInt8 ∨ ch = 'i'.toUInt8 then
    let argument := sarg d a
    some <|
      if argument.toInt < 0 then
        number { d with sign := '-'.toUInt8 } ch .dec (-argument).toNat
      else number d ch .dec argument.toNat
  else if ch = 'u'.toUInt8 then some (number { d with sign := 0 } ch .dec (uarg d a).toNat)
  else if ch = 'o'.toUInt8 then some (number { d with sign := 0 } ch .oct (uarg d a).toNat)
  else if ch = 'X'.toUInt8 ∨ ch = 'x'.toUInt8 then
    let argument := uarg d a
    let d := if d.alt ∧ argument ≠ 0 then { d with hexprefix := true } else d
    some (number { d with sign := 0 } ch .hex argument.toNat)
  else none

/-! ### Padding and output -/

/-- `*bp++ = c`, of a text `bp` that stands in a buffer of `size` characters -/
def put (size : Nat) (c : UInt8) (bp : Bytes) : Option Bytes :=
  if bp.length < size then some (bp ++ [c]) else none

/-- `for (; n; --n) *bp++ = c`, which does not stop before the end of the buffer when `n` is
negative -/
def fill (size : Nat) (c : UInt8) (n : Int) (bp : Bytes) : Option Bytes :=
  if n = 0 then some bp
  else if bp.length < size then fill size c (n - 1) (bp ++ [c])
  else none
termination_by size - bp.length
decreasing_by
  rw [List.length_append, List.length_singleton]
  omega

/-- `for (; size; --size) *bp++ = *cp++` -/
def copy (size : Nat) (cp bp : Bytes) : Option Bytes := cp.foldlM (fun bp c => put size c bp) bp

/-- `bp -= n`, as long as that is in the buffer -/
def back (n : Nat) (bp : Bytes) : Option Bytes :=
  if n ≤ bp.length then some (bp.take (bp.length - n)) else none

/-- The sign, or else the prefix of a hexadecimal number -/
def frontOf (d : Directive) (ch : UInt8) : Bytes :=
  if d.sign ≠ 0 then [d.sign] else if d.hexprefix then [zeroDigit, ch] else []

/-- Where the text is written, up to `bp`, and `ret` -/
structure Output where
  bp : Bytes
  ret : Nat
  deriving DecidableEq

/-- Blank padding, and the sign or prefix, which takes the place of the last of the blanks -/
def writeFront (size : Nat) (front : Bytes) (bpad : Int) (bp : Bytes) : Option Bytes :=
  (fill size blank bpad bp).bind fun bp =>
    (if bpad ≠ 0 then back front.length bp else some bp).bind (copy size front)

/-- The field of a number, from `dpad` on -/
def writeField (size : Nat) (d : Directive) (ch : UInt8) (cp : Bytes) (o : Output) :
    Option Output :=
  let dpad := max (d.prec - cp.length) 0
  let fieldsz := cp.length + dpad
  let pads := max (d.width - fieldsz) 0
  let ret := o.ret + (max d.width fieldsz).toNat
  let bpad := if pads ≠ 0 ∧ d.ladjust = false ∧ d.zeropad = false then pads else 0
  let pads := pads - bpad
  let front := frontOf d ch
  (writeFront size front bpad o.bp).bind fun bp =>
    let ret := if bpad = 0 ∧ pads = 0 then ret + front.length else ret
    let pads := if bpad = 0 ∧ pads ≠ 0 then pads - front.length else pads
    (if d.ladjust = false ∧ d.zeropad = true then fill size zeroDigit pads bp else some bp).bind
      fun bp => (fill size zeroDigit dpad bp).bind fun bp =>
        (copy size cp bp).bind fun bp =>
          (if d.ladjust then fill size blank pads bp else some bp).map fun bp => ⟨bp, ret⟩

/-! ### The numerals -/

theorem pushDigits_eq {base : Nat} (hbase : 1 < base) (xdigs : Nat → UInt8) (argument : Nat)
    (cp : Bytes) :
    pushDigits base hbase xdigs argument cp = (numeral base argument).map xdigs ++ cp := by
  fun_induction pushDigits base hbase xdigs argument cp with
  | case1 argument cp h =>
      have hlt : argument < base := (Nat.div_eq_zero_iff_lt (Nat.zero_lt_of_lt hbase)).mp h
      rw [numeral_small hlt, Nat.mod_eq_of_lt hlt]
      rfl
  | case2 argument cp h ih =>
      have hle : base ≤ argument := by
        by_contra hlt
        exact h (Nat.div_eq_of_lt (Nat.lt_of_not_le hlt))
      rw [ih, numeral_large hbase hle, List.map_append, List.append_assoc]
      rfl

/-- The digits of a decimal number, with or without separators -/
def decimalDigits (thousandsGrouped : Bool) (behind argument : Nat) : Bytes :=
  if thousandsGrouped then grouped comma behind ((numeral 10 argument).map digit)
  else (numeral 10 argument).map digit

theorem pushDecimal_eq (thousandsGrouped : Bool) (behind argument : Nat) (cp : Bytes) :
    pushDecimal thousandsGrouped (behind + 1) argument cp =
      decimalDigits thousandsGrouped behind argument ++ cp := by
  induction argument using Nat.strong_induction_on generalizing behind cp with
  | _ argument ih =>
    rw [pushDecimal]
    by_cases hle : 10 ≤ argument
    · have hne : (numeral 10 (argument / 10)).map digit ≠ [] := by
        rw [ne_eq, List.map_eq_nil_iff]
        exact numeral_ne_nil 10 (argument / 10)
      rw [if_pos hle, ih (argument / 10) (by omega), decimalDigits, decimalDigits,
        numeral_large (by decide) hle, List.map_append, List.map_singleton, grouped_concat hne]
      cases thousandsGrouped with
      | true =>
          by_cases hmod : (behind + 1) % 3 = 0
          · simp [hmod]
          · simp [hmod]
      | false => simp
    · rw [if_neg hle, decimalDigits, numeral_small (Nat.lt_of_not_le hle)]
      cases thousandsGrouped <;> rfl

/-! ### What the field should hold -/

def radix : Kind → Nat
  | .o => 8
  | .x | .upperX => 16
  | .d | .i | .u => 10

def digitOf : Kind → Nat → UInt8
  | .x => hexLower
  | .upperX => hexUpper
  | .d | .i | .u | .o => digit

/-- The value, of which zero takes no characters under a precision of zero -/
def plainDigits (k : Kind) (x : Field) : Bytes :=
  if x.value = 0 ∧ x.precision = some 0 then []
  else (numeral (radix k) x.value.natAbs).map (digitOf k)

/-- At least as many digits as the precision says, of which those of a decimal number are
grouped and those of an octal one begin with a zero where the flags ask for it -/
def body (k : Kind) (x : Field) : Bytes :=
  let digits := widened zeroDigit (x.precision.getD 0) (plainDigits k x)
  if radix k = 10 ∧ x.thousands then grouped comma 0 digits
  else if k = .o ∧ x.alt ∧ digits.head? ≠ some zeroDigit then zeroDigit :: digits
  else digits

/-- The sign of a signed number, or the prefix of a hexadecimal one -/
def front (k : Kind) (x : Field) : Bytes :=
  if k = .d ∨ k = .i then
    if x.value < 0 then ['-'.toUInt8]
    else if x.plus then ['+'.toUInt8]
    else if x.space then [blank]
    else []
  else if radix k = 16 ∧ x.alt ∧ x.value ≠ 0 then [zeroDigit, k.char]
  else []

def fillOf (x : Field) : Fill :=
  if x.left then .behind else if x.zero ∧ x.precision = none then .between else .ahead

/-- The rendering of a field in the C standard -/
def fieldText (k : Kind) (x : Field) : Bytes :=
  layout zeroDigit blank (fillOf x) x.width (front k x) (body k x)

/-! ### The argument -/

theorem sarg_toInt {x : Field} (l : Length) (a : BitVec 64) :
    (sarg (x.directive l) a).toInt = Kind.d.value l a := by
  cases l with
  | int => exact BitVec.toInt_signExtend_of_le (by decide)
  | short => exact BitVec.toInt_signExtend_of_le (by decide)
  | long => exact congrArg BitVec.toInt (BitVec.setWidth_eq a).symm
  | longLong => exact congrArg BitVec.toInt (BitVec.setWidth_eq a).symm

theorem uarg_toNat {x : Field} (l : Length) (a : BitVec 64) :
    ((uarg (x.directive l) a).toNat : Int) = Kind.u.value l a := by
  cases l with
  | int => exact congrArg Nat.cast (@BitVec.toNat_setWidth_of_le 32 64 _ (by decide))
  | short => exact congrArg Nat.cast (@BitVec.toNat_setWidth_of_le 16 64 _ (by decide))
  | long => exact congrArg (fun b : BitVec 64 => (b.toNat : Int)) (BitVec.setWidth_eq a).symm
  | longLong => exact congrArg (fun b : BitVec 64 => (b.toNat : Int)) (BitVec.setWidth_eq a).symm

theorem toNat_neg {b : BitVec 64} (h : b.toInt < 0) : (-b).toNat = b.toInt.natAbs := by
  have hlt := b.isLt
  rw [BitVec.toInt_eq_toNat_cond] at *
  rw [BitVec.toNat_neg]
  split_ifs at * <;> omega

theorem toNat_nonneg {b : BitVec 64} (h : ¬ b.toInt < 0) : b.toNat = b.toInt.natAbs := by
  have hlt := b.isLt
  rw [BitVec.toInt_eq_toNat_cond] at *
  split_ifs at * <;> omega

/-- The digits that are put together at `cp` -/
def digitsAt (k : Kind) (x : Field) : Bytes :=
  let digits := plainDigits k x
  if radix k = 10 ∧ x.thousands then grouped comma 0 digits
  else if k = .o ∧ x.alt ∧ digits ≠ [] ∧ digits.head? ≠ some zeroDigit then zeroDigit :: digits
  else digits

/-- What is known of the directive when the field is written -/
structure Converted (k : Kind) (x : Field) (r : Directive × Bytes) : Prop where
  front : frontOf r.1 k.char = front k x
  ladjust : r.1.ladjust = x.left
  zeropad : r.1.zeropad = (x.zero && !x.left && x.precision.isNone)
  width : r.1.width = x.width
  prec : r.1.prec = x.precision.elim (-1 : Int) fun n => n
  digits : r.2 = digitsAt k x

/-- From `number:` on, sign and prefix stay as they are. -/
theorem number_converted {k : Kind} {x : Field} {l : Length} {d : Directive} {base : Base}
    {argument : Nat}
    (hd : d = { x.directive l with sign := d.sign, hexprefix := d.hexprefix })
    (hfront : frontOf d k.char = front k x)
    (hdigits : (number d k.char base argument).2 = digitsAt k x) :
    Converted k x (number d k.char base argument) := by
  have hladjust : d.ladjust = x.left := congrArg Directive.ladjust hd
  have hzeropad : d.zeropad = (x.zero && !x.left) := congrArg Directive.zeropad hd
  have hwidth : d.width = x.width := congrArg Directive.width hd
  have hprec : d.prec = x.precision.elim (-1 : Int) fun n => n := congrArg Directive.prec hd
  cases hp : x.precision with
  | none =>
      rw [hp, Option.elim_none] at hprec
      have hnumber : (number d k.char base argument).1 = d := if_neg (by rw [hprec]; decide)
      refine ⟨?_, ?_, ?_, ?_, ?_, hdigits⟩
      · rw [hnumber, hfront]
      · rw [hnumber, hladjust]
      · rw [hnumber, hzeropad, hp, Option.isNone_none, Bool.and_true]
      · rw [hnumber, hwidth]
      · rw [hnumber, hprec, hp, Option.elim_none]
  | some p =>
      rw [hp, Option.elim_some] at hprec
      have hnumber : (number d k.char base argument).1 = { d with zeropad := false } :=
        if_pos (by rw [hprec]; exact Int.natCast_nonneg p)
      refine ⟨?_, ?_, ?_, ?_, ?_, hdigits⟩
      · rw [hnumber, ← hfront]
        rfl
      · rw [hnumber, hladjust]
      · rw [hnumber, hp, Option.isNone_some, Bool.and_false]
      · rw [hnumber, hwidth]
      · rw [hnumber, hprec, hp, Option.elim_some]

/-- The test for a zero value under a precision of zero -/
theorem nothing_iff {x : Field} {prec : Int}
    (hprec : prec = x.precision.elim (-1 : Int) fun n => n) :
    ¬ (x.value.natAbs ≠ 0 ∨ prec ≠ 0) ↔ x.value = 0 ∧ x.precision = some 0 := by
  have hzero : prec = 0 ↔ x.precision = some 0 := by
    cases hp : x.precision with
    | none =>
        rw [hprec, hp, Option.elim_none]
        exact iff_of_false (by decide) nofun
    | some p =>
        rw [hprec, hp, Option.elim_some, Option.some.injEq]
        exact Int.natCast_eq_zero
  rw [not_or, not_not, not_not, hzero, Int.natAbs_eq_zero]

/-- What `switch (base)` makes of a number that is written -/
theorem number_digits {k : Kind} {x : Field} {d : Directive} {ch : UInt8} {base : Base}
    (hprec : d.prec = x.precision.elim (-1 : Int) fun n => n)
    (h : ¬ (x.value = 0 ∧ x.precision = some 0) →
      digitsFor d ch base x.value.natAbs = digitsAt k x) :
    (number d ch base x.value.natAbs).2 = digitsAt k x := by
  by_cases hnothing : x.value = 0 ∧ x.precision = some 0
  · have hnone : (number d ch base x.value.natAbs).2 = [] :=
      if_neg ((nothing_iff hprec).mpr hnothing)
    rw [hnone, digitsAt, plainDigits, if_pos hnothing]
    simp [grouped]
  · have hsome : (number d ch base x.value.natAbs).2 = digitsFor d ch base x.value.natAbs :=
      if_pos (not_not.mp (mt (nothing_iff hprec).mp hnothing))
    rw [hsome, h hnothing]

theorem ne_octal {k : Kind} (hk : radix k ≠ 8) : k ≠ .o := by
  rintro rfl
  exact hk rfl

theorem not_signed {k : Kind} (hk : radix k = 16) : ¬ (k = .d ∨ k = .i) := by
  rintro (rfl | rfl)
  · exact absurd hk (by decide)
  · exact absurd hk (by decide)

theorem digitsFor_decimal {k : Kind} {x : Field} {d : Directive} {ch : UInt8} (hk : radix k = 10)
    (hd : d.thousandsGrouped = x.thousands) (h : ¬ (x.value = 0 ∧ x.precision = some 0)) :
    digitsFor d ch .dec x.value.natAbs = digitsAt k x := by
  have hplain : plainDigits k x = (numeral 10 x.value.natAbs).map digit := by
    rw [plainDigits, if_neg h, hk]
    cases k <;> first | rfl | exact absurd hk (by decide)
  have hoct := @ne_octal k (by rw [hk]; decide)
  rw [digitsFor, hd, pushDecimal_eq x.thousands 0, List.append_nil, decimalDigits, digitsAt, hplain,
    hk]
  simp [hoct]

theorem digitsFor_octal {x : Field} {d : Directive} {ch : UInt8} (hd : d.alt = x.alt)
    (h : ¬ (x.value = 0 ∧ x.precision = some 0)) :
    digitsFor d ch .oct x.value.natAbs = digitsAt .o x := by
  have hplain : plainDigits .o x = (numeral 8 x.value.natAbs).map digit := if_neg h
  have hne : (numeral 8 x.value.natAbs).map digit ≠ [] := by
    rw [ne_eq, List.map_eq_nil_iff]
    exact numeral_ne_nil 8 _
  rw [digitsFor, hd, pushDigits_eq, List.append_nil, digitsAt, hplain]
  simp [hne, radix]

theorem digitsFor_hex {k : Kind} {x : Field} {d : Directive} (hk : radix k = 16)
    (h : ¬ (x.value = 0 ∧ x.precision = some 0)) :
    digitsFor d k.char .hex x.value.natAbs = digitsAt k x := by
  have hplain : plainDigits k x = (numeral 16 x.value.natAbs).map (digitOf k) := by
    rw [plainDigits, if_neg h, hk]
  have hdigit : (if k.char = 'X'.toUInt8 then hexUpper else hexLower) = digitOf k := by
    cases k <;> first | rfl | exact absurd hk (by decide)
  have hoct := @ne_octal k (by rw [hk]; decide)
  rw [digitsFor, hdigit, pushDigits_eq, List.append_nil, digitsAt, hplain, hk]
  simp [hoct]

theorem frontOf_unsigned {d : Directive} (h : d.sign = 0) (ch : UInt8) :
    frontOf d ch = if d.hexprefix then [zeroDigit, ch] else [] := if_neg (not_not.mpr h)

theorem frontOf_directive {k : Kind} {x : Field} {l : Length} (hk : k = .d ∨ k = .i)
    (h : ¬ x.value < 0) (ch : UInt8) : frontOf (x.directive l) ch = front k x := by
  have hplus : '+'.toUInt8 ≠ 0 := by decide
  have hblank : ' '.toUInt8 ≠ 0 := by decide
  rw [front, if_pos hk, if_neg h, frontOf]
  by_cases hp : x.plus = true
  · simp [Field.directive, hp, hplus]
  · by_cases hs : x.space = true
    · simp [Field.directive, hp, hs, hblank, blank]
    · simp [Field.directive, hp, hs]

theorem convert_signed {k : Kind} {x : Field} {l : Length} {a : BitVec 64}
    (hk : k = .d ∨ k = .i) (hvalue : x.value = k.value l a) :
    ∃ r, convert (x.directive l) k.char a = some r ∧ Converted k x r := by
  have hchar : k.char = 'd'.toUInt8 ∨ k.char = 'i'.toUInt8 := by
    rcases hk with rfl | rfl
    · exact .inl rfl
    · exact .inr rfl
  have hradix : radix k = 10 := by rcases hk with rfl | rfl <;> rfl
  have harg : (sarg (x.directive l) a).toInt = x.value := by
    rw [sarg_toInt, hvalue]
    rcases hk with rfl | rfl <;> rfl
  rw [convert, if_pos hchar]
  dsimp only
  rw [harg]
  by_cases hneg : x.value < 0
  · have hnat : (-sarg (x.directive l) a).toNat = x.value.natAbs := by
      rw [toNat_neg (harg.symm ▸ hneg), harg]
    rw [if_pos hneg, hnat]
    refine ⟨_, rfl, @number_converted _ x l _ _ _ rfl ?_ ?_⟩
    · rw [front, if_pos hk, if_pos hneg]
      rfl
    · exact number_digits rfl (digitsFor_decimal hradix rfl)
  · have hnat : (sarg (x.directive l) a).toNat = x.value.natAbs := by
      rw [toNat_nonneg (harg.symm ▸ hneg), harg]
    rw [if_neg hneg, hnat]
    refine ⟨_, rfl, @number_converted _ x l _ _ _ rfl (frontOf_directive hk hneg _) ?_⟩
    exact number_digits rfl (digitsFor_decimal hradix rfl)

theorem uarg_natAbs {k : Kind} {x : Field} {l : Length} {a : BitVec 64}
    (hk : ¬ (k = .d ∨ k = .i)) (hvalue : x.value = k.value l a) :
    (uarg (x.directive l) a).toNat = x.value.natAbs ∧ ¬ x.value < 0 := by
  have hu : k.value l a = Kind.u.value l a := by
    rw [Kind.value, if_neg hk]
    rfl
  have harg := @uarg_toNat x l a
  rw [← hu, ← hvalue] at harg
  omega

theorem convert_unsigned {x : Field} {l : Length} {a : BitVec 64}
    (hvalue : x.value = Kind.u.value l a) :
    ∃ r, convert (x.directive l) Kind.u.char a = some r ∧ Converted .u x r := by
  obtain ⟨hnat, -⟩ := uarg_natAbs (by decide) hvalue
  have hconvert : convert (x.directive l) Kind.u.char a =
      some (number { x.directive l with sign := 0 } Kind.u.char .dec
        (uarg (x.directive l) a).toNat) := rfl
  rw [hconvert, hnat]
  refine ⟨_, rfl, @number_converted _ x l _ _ _ rfl rfl ?_⟩
  exact number_digits rfl (digitsFor_decimal rfl rfl)

theorem convert_octal {x : Field} {l : Length} {a : BitVec 64}
    (hvalue : x.value = Kind.o.value l a) :
    ∃ r, convert (x.directive l) Kind.o.char a = some r ∧ Converted .o x r := by
  obtain ⟨hnat, -⟩ := uarg_natAbs (by decide) hvalue
  have hconvert : convert (x.directive l) Kind.o.char a =
      some (number { x.directive l with sign := 0 } Kind.o.char .oct
        (uarg (x.directive l) a).toNat) := rfl
  rw [hconvert, hnat]
  refine ⟨_, rfl, @number_converted _ x l _ _ _ rfl rfl ?_⟩
  exact number_digits rfl (digitsFor_octal rfl)

theorem convert_hex {k : Kind} {x : Field} {l : Length} {a : BitVec 64} (hk : radix k = 16)
    (hvalue : x.value = k.value l a) :
    ∃ r, convert (x.directive l) k.char a = some r ∧ Converted k x r := by
  have hsigned := not_signed hk
  obtain ⟨hnat, hnonneg⟩ := uarg_natAbs hsigned hvalue
  have hzero : uarg (x.directive l) a ≠ 0 ↔ x.value ≠ 0 := by
    rw [ne_eq, ne_eq, ← Int.natAbs_eq_zero, ← hnat, BitVec.toNat_eq]
    rfl
  have hconvert : convert (x.directive l) k.char a =
      some (number { (if x.alt ∧ uarg (x.directive l) a ≠ 0 then
          { x.directive l with hexprefix := true } else x.directive l) with sign := 0 } k.char .hex
        (uarg (x.directive l) a).toNat) := by
    cases k <;> first | rfl | exact absurd hk (by decide)
  by_cases hprefix : x.alt = true ∧ uarg (x.directive l) a ≠ 0
  · rw [hconvert, if_pos hprefix, hnat]
    have hfront : front k x = [zeroDigit, k.char] := by
      rw [front, if_neg hsigned, if_pos ⟨hk, hprefix.1, hzero.mp hprefix.2⟩]
    refine ⟨_, rfl, @number_converted _ x l _ _ _ rfl ?_ ?_⟩
    · rw [frontOf_unsigned rfl, hfront]
      rfl
    · exact number_digits rfl (digitsFor_hex hk)
  · rw [hconvert, if_neg hprefix, hnat]
    have hfront : front k x = [] := by
      rw [front, if_neg hsigned, if_neg fun h => hprefix ⟨h.2.1, hzero.mpr h.2.2⟩]
    refine ⟨_, rfl, @number_converted _ x l _ _ _ rfl ?_ ?_⟩
    · rw [frontOf_unsigned rfl, hfront]
      rfl
    · exact number_digits rfl (digitsFor_hex hk)

/-- Every argument is converted as the field has it. -/
theorem convert_field {k : Kind} {x : Field} {l : Length} {a : BitVec 64}
    (hvalue : x.value = k.value l a) :
    ∃ r, convert (x.directive l) k.char a = some r ∧ Converted k x r := by
  cases k with
  | d => exact convert_signed (.inl rfl) hvalue
  | i => exact convert_signed (.inr rfl) hvalue
  | u => exact convert_unsigned hvalue
  | o => exact convert_octal hvalue
  | x => exact convert_hex rfl hvalue
  | upperX => exact convert_hex rfl hvalue

/-! ### The digits of the standard -/

def numDigits (k : Kind) (x : Field) : Nat := (numeral (radix k) x.value.natAbs).length

/-- The digits are those of the standard: zero keeps a digit in the alternate octal form, and the
digits of a precision are grouped as the others. -/
structure DigitsGood (k : Kind) (x : Field) : Prop where
  octal : k = .o → x.alt = true → x.value = 0 → x.precision ≠ some 0
  grouped : radix k = 10 → x.thousands = true → ∀ p ∈ x.precision, p ≤ 3 ∨ p ≤ numDigits k x

/-- The digits with the zeros of the precision -/
def widenedAt (k : Kind) (x : Field) : Bytes :=
  widened zeroDigit (x.precision.getD 0) (digitsAt k x)

theorem length_plainDigits {k : Kind} {x : Field} (h : ¬ (x.value = 0 ∧ x.precision = some 0)) :
    (plainDigits k x).length = numDigits k x := by
  rw [plainDigits, if_neg h, List.length_map]
  rfl

theorem digitsAt_grouped {k : Kind} {x : Field} (hk : radix k = 10) (hx : x.thousands = true) :
    widenedAt k x = widened zeroDigit (x.precision.getD 0) (grouped comma 0 (plainDigits k x)) ∧
      body k x = grouped comma 0 (widened zeroDigit (x.precision.getD 0) (plainDigits k x)) := by
  rw [widenedAt, digitsAt, body]
  rw [if_pos ⟨hk, hx⟩, if_pos ⟨hk, hx⟩]
  exact ⟨rfl, rfl⟩

theorem digitsAt_plain {k : Kind} {x : Field} (hgrouped : ¬ (radix k = 10 ∧ x.thousands = true))
    (hoctal : ¬ (k = .o ∧ x.alt = true)) : widenedAt k x = body k x := by
  rw [widenedAt, digitsAt, body]
  rw [if_neg hgrouped, if_neg hgrouped, if_neg fun h => hoctal ⟨h.1, h.2.1⟩,
    if_neg fun h => hoctal ⟨h.1, h.2.1⟩]

/-- The zero of the alternate octal form is one of those that the precision asks for. -/
theorem digitsAt_octal {x : Field} (hx : x.alt = true)
    (h : ¬ (x.value = 0 ∧ x.precision = some 0)) : widenedAt .o x = body .o x := by
  have hne : plainDigits .o x ≠ [] := by
    rw [plainDigits, if_neg h, ne_eq, List.map_eq_nil_iff]
    exact numeral_ne_nil _ _
  have hcode : widenedAt .o x = widened zeroDigit (x.precision.getD 0)
      (if (plainDigits .o x).head? ≠ some zeroDigit then zeroDigit :: plainDigits .o x
        else plainDigits .o x) := by
    simp [widenedAt, digitsAt, radix, hx, hne]
  have hbody : body .o x =
      if (widened zeroDigit (x.precision.getD 0) (plainDigits .o x)).head? ≠ some zeroDigit then
        zeroDigit :: widened zeroDigit (x.precision.getD 0) (plainDigits .o x)
      else widened zeroDigit (x.precision.getD 0) (plainDigits .o x) := by
    simp [body, radix, hx]
  rw [hcode, hbody]
  by_cases hlt : (plainDigits .o x).length < x.precision.getD 0
  · rw [if_neg (not_not.mpr (head_widened hlt))]
    split_ifs
    · exact widened_cons hlt
    · rfl
  · have hle := Nat.le_of_not_lt hlt
    rw [widened_of_le hle]
    split_ifs
    · exact widened_of_le (hle.trans (Nat.le_succ _))
    · exact widened_of_le hle

theorem widenedAt_good {k : Kind} {x : Field} (h : DigitsGood k x) : widenedAt k x = body k x := by
  by_cases hgrouped : radix k = 10 ∧ x.thousands = true
  · obtain ⟨hcode, hbody⟩ := digitsAt_grouped hgrouped.1 hgrouped.2
    rw [hcode, hbody]
    refine grouped_widened ?_
    by_cases hzero : x.value = 0 ∧ x.precision = some 0
    · rw [hzero.2]
      exact .inl (Nat.zero_le 3)
    · rw [length_plainDigits hzero]
      cases hp : x.precision with
      | none => exact .inl (Nat.zero_le 3)
      | some p => exact h.grouped hgrouped.1 hgrouped.2 p hp
  · by_cases hoctal : k = .o ∧ x.alt = true
    · obtain ⟨rfl, halt⟩ := hoctal
      exact digitsAt_octal halt fun hzero => h.octal rfl halt hzero.1 hzero.2
    · exact digitsAt_plain hgrouped hoctal

/-- Digits that differ from those of the standard are fewer. -/
theorem widenedAt_bad {k : Kind} {x : Field} (h : ¬ DigitsGood k x) :
    (widenedAt k x).length < (body k x).length ∧ x.precision ≠ none := by
  by_cases hoctal : k = .o ∧ x.alt = true ∧ x.value = 0 ∧ x.precision = some 0
  · obtain ⟨rfl, halt, hvalue, hp⟩ := hoctal
    have hplain : plainDigits .o x = [] := if_pos ⟨hvalue, hp⟩
    have hcode : widenedAt .o x = [] := by
      rw [widenedAt, digitsAt, hplain, hp]
      simp [radix, widened]
    have hbody : body .o x = [zeroDigit] := by
      rw [body, hplain, hp]
      simp [radix, widened, halt]
    rw [hcode, hbody, hp]
    exact ⟨Nat.zero_lt_one, Option.some_ne_none 0⟩
  · have hgrouped : ∃ p, radix k = 10 ∧ x.thousands = true ∧ x.precision = some p ∧ 3 < p ∧
        numDigits k x < p := by
      by_contra hnone
      refine h ⟨fun hk halt hvalue hp => hoctal ⟨hk, halt, hvalue, hp⟩, fun hk hx p hp => ?_⟩
      by_contra hlarge
      exact hnone ⟨p, hk, hx, hp, by omega, by omega⟩
    obtain ⟨p, hk, hx, hp, hthree, hlt⟩ := hgrouped
    have hzero : ¬ (x.value = 0 ∧ x.precision = some 0) := by
      rintro ⟨-, hnone⟩
      rw [hp, Option.some.injEq] at hnone
      omega
    obtain ⟨hcode, hbody⟩ := digitsAt_grouped hk hx
    rw [hcode, hbody, hp]
    refine ⟨length_grouped_widened hthree ?_, Option.some_ne_none p⟩
    rw [length_plainDigits hzero]
    exact hlt

end ULib.FormatField
