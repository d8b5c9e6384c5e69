import ULib.JsonScan

/-!
The numbers that the C library reads and writes in decimal.
-/

namespace ULib.NumberText

open ULib.KeyComparison
open ULib.EscapeCoding
open ULib.JsonValue
open ULib.JsonScan

/-- `isspace` -/
def cSpace (c : UInt8) : Bool := (9 ≤ c && c ≤ 13) || c = 0x20

/-- Whether there is a minus, and what is behind the sign. -/
def signed (t : Bytes) : Bool × Bytes :=
  match t.dropWhile cSpace with
  | [] => (false, [])
  | c :: t =>
      if c = '-'.toUInt8 then (true, t)
      else if c = '+'.toUInt8 then (false, t)
      else (false, c :: t)

/-- A number as far as a `long` holds it. -/
def clampLong (negative : Bool) (n : Nat) : Int :=
  if negative then max (-n) (-2 ^ 63) else min n (2 ^ 63 - 1)

/-- `%ld` of `sscanf` -/
def scanLong (t : Bytes) : Option Int :=
  let (negative, t) := signed t
  match t.takeWhile isDigit with
  | [] => none
  | digits => some (clampLong negative (digitsValue digits))

/-- `atoi` -/
def atoi (t : Bytes) : Int :=
  let (negative, u) := signed t
  (Int32.ofInt (clampLong negative (digitsValue (u.takeWhile isDigit)))).toInt

/-- The digits at the start of a text. -/
def digitsIn (base : Nat) (t : Bytes) : Bytes :=
  t.takeWhile fun c => isXdigit c && (hexc2int c).toNat < base

/-- The value of digits. -/
def valueIn (base : Nat) (w : Bytes) : Nat := w.foldl (fun n c => n * base + (hexc2int c).toNat) 0

/-- The base that `0` stands for, and where the digits begin. -/
def baseOf (t : Bytes) : Nat × Bytes :=
  if peek t 0 = '0'.toUInt8 then
    if toUpper (peek t 1) = 'X'.toUInt8 ∧ isXdigit (peek t 2) = true then (16, t.drop 2) else (8, t)
  else (10, t)

/-- `strtol(t, &end, 0)`, with what is behind the number. -/
def strtol0 (t : Bytes) : Int × Bytes :=
  let (negative, u) := signed t
  let (base, u) := baseOf u
  match digitsIn base u with
  | [] => (0, t)
  | digits => (clampLong negative (valueIn base digits), u.drop digits.length)

/-- A number with zeros before it. -/
def padded (width n : Nat) : Bytes :=
  List.replicate (width - (printNat n).length) '0'.toUInt8 ++ printNat n

/-! ### Digits -/

theorem digitsValue_append (u w : Bytes) :
    digitsValue (u ++ w) = digitsValue u * 10 ^ w.length + digitsValue w := by
  induction w using List.reverseRecOn with
  | nil => simp [digitsValue]
  | append_singleton w c ih =>
      have hlast : ∀ u, digitsValue (u ++ [c]) = digitsValue u * 10 + (c - '0'.toUInt8).toNat :=
        fun u => by simp [digitsValue]
      rw [← List.append_assoc, hlast, ih, hlast, List.length_append, List.length_singleton,
        Nat.pow_succ]
      ring

theorem digitsValue_cons (c : UInt8) (w : Bytes) :
    digitsValue (c :: w) = (c - '0'.toUInt8).toNat * 10 ^ w.length + digitsValue w := by
  have happend := digitsValue_append [c] w
  simpa [digitsValue] using happend

theorem digit_lt : ∀ c, isDigit c → (c - '0'.toUInt8).toNat < 10 := forall_byte (by decide +kernel)

theorem digitsValue_lt {w : Bytes} (hw : ∀ c ∈ w, isDigit c) : digitsValue w < 10 ^ w.length := by
  induction w with
  | nil => decide
  | cons c w ih =>
      have hc := digit_lt c (hw c List.mem_cons_self)
      have hrest := ih fun d hd => hw d (List.mem_cons_of_mem c hd)
      rw [digitsValue_cons, List.length_cons, Nat.pow_succ]
      nlinarith

/-- Rows of as many digits are equal where their values are. -/
theorem digitsValue_injective {u w : Bytes} (hu : ∀ c ∈ u, isDigit c) (hw : ∀ c ∈ w, isDigit c)
    (hlength : u.length = w.length) (hvalue : digitsValue u = digitsValue w) : u = w := by
  induction u generalizing w with
  | nil => exact (List.eq_nil_of_length_eq_zero hlength.symm).symm
  | cons c u ih =>
      cases w with
      | nil => cases hlength
      | cons d w =>
          have hlength : u.length = w.length := Nat.succ.inj hlength
          have hu' : ∀ c ∈ u, isDigit c := fun e he => hu e (List.mem_cons_of_mem c he)
          have hw' : ∀ c ∈ w, isDigit c := fun e he => hw e (List.mem_cons_of_mem d he)
          have hlt := digitsValue_lt hu'
          have hlt' := digitsValue_lt hw'
          rw [digitsValue_cons, digitsValue_cons, hlength] at hvalue
          rw [hlength] at hlt
          have hpos : 0 < 10 ^ w.length := Nat.pow_pos (by decide)
          have hhead : ∀ {a x}, x < 10 ^ w.length →
              (a * 10 ^ w.length + x) / 10 ^ w.length = a := by
            intro a x hx
            rw [Nat.mul_comm, Nat.mul_add_div hpos, Nat.div_eq_of_lt hx, Nat.add_zero]
          have hdigit : (c - '0'.toUInt8).toNat = (d - '0'.toUInt8).toNat :=
            (hhead hlt).symm.trans ((congrArg (· / 10 ^ w.length) hvalue).trans (hhead hlt'))
          have hcd : c = d := by
            have := congrArg (· + '0'.toUInt8) (UInt8.toNat_inj.mp hdigit)
            simpa using this
          rw [hdigit] at hvalue
          rw [hcd, ih hu' hw' hlength (Nat.add_left_cancel hvalue)]

theorem padded_spec {width n : Nat} (hwidth : 0 < width) (hn : n < 10 ^ width) :
    (padded width n).length = width ∧ (∀ c ∈ padded width n, isDigit c) ∧
      digitsValue (padded width n) = n := by
  have hzeros : ∀ k, digitsValue (List.replicate k '0'.toUInt8) = 0 := by
    intro k
    induction k with
    | zero => rfl
    | succ k ih =>
        rw [List.replicate_succ, digitsValue_cons, ih]
        exact Nat.zero_mul _
  obtain ⟨-, hdigits, hvalue⟩ := printNat_spec n
  have hlength := length_printNat_le hwidth hn
  refine ⟨?_, ?_, ?_⟩
  · rw [padded, List.length_append, List.length_replicate]
    omega
  · intro c hc
    rcases List.mem_append.mp hc with hc | hc
    · rw [List.eq_of_mem_replicate hc]
      rfl
    · exact hdigits c hc
  · rw [padded, digitsValue_append, hzeros, Nat.zero_mul, Nat.zero_add, hvalue]

/-- A row of digits is the padded text of its value. -/
theorem padded_digitsValue {w : Bytes} (hw : ∀ c ∈ w, isDigit c) (hne : w ≠ []) :
    padded w.length (digitsValue w) = w := by
  obtain ⟨hlength, hdigits, hvalue⟩ :=
    padded_spec (List.length_pos_of_ne_nil hne) (digitsValue_lt hw)
  exact digitsValue_injective hdigits hw hlength hvalue

theorem digit_not_sign : ∀ c, isDigit c → cSpace c = false ∧ c ≠ '-'.toUInt8 ∧ c ≠ '+'.toUInt8 :=
  forall_byte (by decide +kernel)

theorem signed_digits {w : Bytes} (hw : ∀ c ∈ w, isDigit c) (hne : w ≠ []) (rest : Bytes) :
    signed (w ++ rest) = (false, w ++ rest) := by
  cases w with
  | nil => exact absurd rfl hne
  | cons c w =>
      obtain ⟨hspace, hminus, hplus⟩ := digit_not_sign c (hw c List.mem_cons_self)
      rw [signed, List.cons_append, List.dropWhile_cons_of_neg (by simp [hspace])]
      dsimp only
      rw [if_neg hminus, if_neg hplus]

/-- A row of digits is read up to a byte that is none. -/
theorem scanLong_digits {w : Bytes} (hw : ∀ c ∈ w, isDigit c) (hne : w ≠ [])
    (hlt : digitsValue w < 2 ^ 63) {c : UInt8} (hc : isDigit c = false) (rest : Bytes) :
    scanLong (w ++ c :: rest) = some (digitsValue w : Int) := by
  rw [scanLong, signed_digits hw hne]
  dsimp only
  rw [takeWhile_digits hw hc]
  cases w with
  | nil => exact absurd rfl hne
  | cons d w =>
      dsimp only
      rw [clampLong, if_neg Bool.false_ne_true, min_eq_left (by omega)]

/-! ### Numbers of which the base is not given -/

/-- A row of digits that is decimal: a zero at its start does not count. -/
def IsDecimal (w : Bytes) : Prop := w.head? ≠ some '0'.toUInt8 ∨ digitsValue w ≤ 7

instance (w : Bytes) : Decidable (IsDecimal w) := inferInstanceAs (Decidable (_ ∨ _))

theorem digit_xdigit : ∀ c, isDigit c → isXdigit c ∧ (hexc2int c).toNat = (c - '0'.toUInt8).toNat :=
  forall_byte (by decide +kernel)

theorem valueIn_cons (base : Nat) (c : UInt8) (w : Bytes) :
    valueIn base (c :: w) = (hexc2int c).toNat * base ^ w.length + valueIn base w := by
  have hstart : ∀ (w : Bytes) n, w.foldl (fun n c => n * base + (hexc2int c).toNat) n =
      n * base ^ w.length + valueIn base w := by
    intro w
    induction w with
    | nil => intro n; simp [valueIn]
    | cons c w ih =>
        intro n
        rw [valueIn, List.foldl_cons, ih, List.foldl_cons, ih, List.length_cons, Nat.pow_succ]
        ring
  rw [valueIn, List.foldl_cons, hstart, Nat.zero_mul, Nat.zero_add]

theorem valueIn_ten {w : Bytes} (hw : ∀ c ∈ w, isDigit c) : valueIn 10 w = digitsValue w := by
  induction w with
  | nil => rfl
  | cons c w ih =>
      have hc := digit_xdigit c (hw c List.mem_cons_self)
      rw [valueIn_cons, digitsValue_cons, hc.2, ih fun d hd => hw d (List.mem_cons_of_mem c hd)]

/-- Small numbers are the same in octal. -/
theorem small_octal {w : Bytes} (hw : ∀ c ∈ w, isDigit c) (hsmall : digitsValue w ≤ 7) :
    (∀ c ∈ w, (hexc2int c).toNat < 8) ∧ valueIn 8 w = digitsValue w := by
  induction w with
  | nil => exact ⟨fun c hc => absurd hc List.not_mem_nil, rfl⟩
  | cons c w ih =>
      have hc := digit_xdigit c (hw c List.mem_cons_self)
      rw [digitsValue_cons] at hsmall
      obtain ⟨hrest, hvalue⟩ := ih (fun d hd => hw d (List.mem_cons_of_mem c hd)) (by omega)
      have hdigit : (c - '0'.toUInt8).toNat * 10 ^ w.length ≤ 7 := by omega
      have hpow : 0 < 10 ^ w.length := Nat.pow_pos (by decide)
      refine ⟨?_, ?_⟩
      · intro d hd
        rcases List.mem_cons.mp hd with rfl | hd
        · rw [hc.2]
          nlinarith
        · exact hrest d hd
      · rw [valueIn_cons, digitsValue_cons, hc.2, hvalue]
        cases w with
        | nil => simp
        | cons d w =>
            have hzero : (c - '0'.toUInt8).toNat = 0 := by
              rw [List.length_cons, Nat.pow_succ] at hdigit
              have hpow : 0 < 10 ^ w.length := Nat.pow_pos (by decide)
              by_contra hne
              have := Nat.le_mul_of_pos_left (10 ^ w.length * 10) (Nat.pos_of_ne_zero hne)
              omega
            rw [hzero, Nat.zero_mul, Nat.zero_mul]

/-- What may stand behind a number. -/
def EndsNumber (rest : Bytes) : Prop :=
  ∀ c, rest.head? = some c → isXdigit c = false ∧ toUpper c ≠ 'X'.toUInt8

theorem digitsIn_append {base : Nat} {w rest : Bytes}
    (hw : ∀ c ∈ w, isXdigit c ∧ (hexc2int c).toNat < base) (hrest : EndsNumber rest) :
    digitsIn base (w ++ rest) = w := by
  have hall : ∀ c ∈ w, (isXdigit c && (hexc2int c).toNat < base : Bool) = true := by
    intro c hc
    simp [(hw c hc).1, (hw c hc).2]
  rw [digitsIn, List.takeWhile_append_of_pos hall]
  cases rest with
  | nil => exact List.append_nil w
  | cons c rest =>
      rw [List.takeWhile_cons_of_neg (by simp [(hrest c rfl).1]), List.append_nil]

/-- Of the digits behind a zero none makes it hexadecimal. -/
theorem baseOf_zero {w rest : Bytes} (hw : ∀ c ∈ w, isDigit c) (hrest : EndsNumber rest) :
    baseOf ('0'.toUInt8 :: w ++ rest) = (8, '0'.toUInt8 :: w ++ rest) := by
  have hnothex : toUpper (peek ('0'.toUInt8 :: w ++ rest) 1) ≠ 'X'.toUInt8 := by
    have hdigits : ∀ d, isDigit d → toUpper d ≠ 'X'.toUInt8 := forall_byte (by decide +kernel)
    cases w with
    | cons d w => exact hdigits d (hw d List.mem_cons_self)
    | nil =>
        cases rest with
        | nil => exact (by decide : toUpper 0 ≠ 'X'.toUInt8)
        | cons d rest => exact (hrest d rfl).2
  have hpeek : peek ('0'.toUInt8 :: w ++ rest) 0 = '0'.toUInt8 := rfl
  rw [baseOf, if_pos hpeek, if_neg (fun h => hnothex h.1)]

/-- A decimal number is read as it is meant. -/
theorem baseOf_decimal {w rest : Bytes} (hw : ∀ c ∈ w, isDigit c) (hne : w ≠ [])
    (hdecimal : IsDecimal w) (hrest : EndsNumber rest) :
    ∃ base, baseOf (w ++ rest) = (base, w ++ rest) ∧ digitsIn base (w ++ rest) = w ∧
      valueIn base w = digitsValue w := by
  cases w with
  | nil => exact absurd rfl hne
  | cons c w =>
      by_cases hzero : c = '0'.toUInt8
      · have hsmall : digitsValue (c :: w) ≤ 7 :=
          hdecimal.resolve_left (not_not.mpr (congrArg some hzero))
        obtain ⟨hoctal, hvalue⟩ := small_octal hw hsmall
        refine ⟨8, ?_, digitsIn_append (fun d hd => ⟨(digit_xdigit d (hw d hd)).1, hoctal d hd⟩)
          hrest, hvalue⟩
        rw [hzero]
        exact baseOf_zero (fun d hd => hw d (List.mem_cons_of_mem c hd)) hrest
      · refine ⟨10, ?_, digitsIn_append (fun d hd => ⟨(digit_xdigit d (hw d hd)).1, ?_⟩) hrest,
          valueIn_ten hw⟩
        · have hpeek : peek (c :: w ++ rest) 0 = c := rfl
          rw [baseOf, hpeek, if_neg hzero]
        · rw [(digit_xdigit d (hw d hd)).2]
          exact digit_lt d (hw d hd)

theorem strtol0_signed {t u rest w : Bytes} {negative : Bool} (hsigned : signed t = (negative, u))
    (hu : u = w ++ rest) (hw : ∀ c ∈ w, isDigit c) (hne : w ≠ []) (hdecimal : IsDecimal w)
    (hrest : EndsNumber rest) : strtol0 t = (clampLong negative (digitsValue w), rest) := by
  subst hu
  obtain ⟨base, hbase, hdigits, hvalue⟩ := baseOf_decimal hw hne hdecimal hrest
  rw [strtol0, hsigned]
  dsimp only
  rw [hbase]
  dsimp only
  rw [hdigits]
  cases w with
  | nil => exact absurd rfl hne
  | cons c w =>
      dsimp only
      rw [hvalue, List.drop_left]

theorem strtol0_decimal {w rest : Bytes} (hw : ∀ c ∈ w, isDigit c) (hne : w ≠ [])
    (hdecimal : IsDecimal w) (hlt : digitsValue w < 2 ^ 63) (hrest : EndsNumber rest) :
    strtol0 (w ++ rest) = ((digitsValue w : Int), rest) := by
  rw [strtol0_signed (signed_digits hw hne rest) rfl hw hne hdecimal hrest, clampLong,
    if_neg Bool.false_ne_true, min_eq_left (by omega)]

theorem strtol0_minus {w rest : Bytes} (hw : ∀ c ∈ w, isDigit c) (hne : w ≠ [])
    (hdecimal : IsDecimal w) (hlt : digitsValue w < 2 ^ 63) (hrest : EndsNumber rest) :
    strtol0 ('-'.toUInt8 :: (w ++ rest)) = (-(digitsValue w : Int), rest) := by
  have hsigned : signed ('-'.toUInt8 :: (w ++ rest)) = (true, w ++ rest) := rfl
  rw [strtol0_signed hsigned rfl hw hne hdecimal hrest, clampLong, if_pos rfl,
    max_eq_left (by omega)]

end ULib.NumberText
