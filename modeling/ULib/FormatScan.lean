import Mathlib.Data.List.TakeWhile
import ULib.NumberText

/-!
The conversions of integers in the formats of `u__vsnprintf` of `base/base.c`:
how flags, width, precision and length are read off a format, and the formats
as they are written.
-/

namespace ULib.FormatScan

open ULib.KeyComparison
open ULib.EscapeCoding
open ULib.JsonScan
open ULib.NumberText

/-! ### Flags, width and precision -/

/-- The local variables of one conversion: `flags` as far as integers use them, `sign`, which is
NUL where there is none, `width` and `prec` -/
structure Directive where
  longint : Bool := false
  llongint : Bool := false
  shortint : Bool := false
  alt : Bool := false
  ladjust : Bool := false
  zeropad : Bool := false
  hexprefix : Bool := false
  thousandsGrouped : Bool := false
  sign : UInt8 := 0
  width : Int := 0
  prec : Int := -1
  deriving DecidableEq

/-- The arguments, as the slots of 64 bits of the `va_list` -/
abbrev Arguments := List (BitVec 64)

/-- `VA_ARG(int)` -/
def intArgument (a : BitVec 64) : Int := (a.setWidth 32).toInt

/-- `minus:` disables '0'. -/
def Directive.minus (d : Directive) : Directive := { d with ladjust := true, zeropad := false }

/-- From `rflag` on: the directive, the conversion specifier and what is behind it. There is no
outcome where an `int` overflows or an argument is missing. -/
def scan (d : Directive) : Bytes → Arguments → Option (Directive × UInt8 × Bytes × Arguments)
  | [], _ => none
  | ch :: t, args =>
      if ch = '#'.toUInt8 then scan { d with alt := true } t args
      else if ch = '0'.toUInt8 then
        scan (if d.ladjust then d else { d with zeropad := true }) t args
      else if ch = '-'.toUInt8 then scan d.minus t args
      else if ch = ' '.toUInt8 then
        scan (if d.sign = 0 then { d with sign := ' '.toUInt8 } else d) t args
      else if ch = '+'.toUInt8 then scan { d with sign := '+'.toUInt8 } t args
      else if ch = '\''.toUInt8 then scan { d with thousandsGrouped := true } t args
      else if isDigit ch then
        let n := digitsValue ((ch :: t).takeWhile isDigit)
        if n < 2 ^ 31 then scan { d with width := n } (t.dropWhile isDigit) args else none
      else if ch = '*'.toUInt8 then
        args.head?.bind fun a =>
          if 0 ≤ intArgument a then scan { d with width := intArgument a } t args.tail
          -- `-width`
          else if intArgument a = -2 ^ 31 then none
          else scan { d.minus with width := -intArgument a } t args.tail
      else if ch = '.'.toUInt8 then
        if t.head? = some '*'.toUInt8 then
          args.head?.bind fun a =>
            let prec := if intArgument a < 0 then -1 else intArgument a
            scan { d with prec := prec } (t.drop 1) args.tail
        else
          let n := digitsValue (t.takeWhile isDigit)
          if n < 2 ^ 31 then scan { d with prec := n } (t.dropWhile isDigit) args else none
      else if ch = 'h'.toUInt8 then scan { d with shortint := true } t args
      else if ch = 'l'.toUInt8 then
        scan (if d.longint then { d with llongint := true } else { d with longint := true }) t args
      else if ch = 'q'.toUInt8 then scan { d with llongint := true } t args
      -- neither has a flag that integers read
      else if ch = 'L'.toUInt8 ∨ ch = 'j'.toUInt8 then scan d t args
      else some (d, ch, t, args)
termination_by t => t.length
decreasing_by
  all_goals have hdrop := (t.dropWhile_sublist isDigit).length_le
  all_goals simp only [List.length_cons, List.length_drop]
  all_goals omega

/-! ### Formats -/

inductive Flag where
  | minus
  | zero
  | plus
  | space
  | alt
  | thousands
  deriving DecidableEq

def Flag.char : Flag → UInt8
  | minus => '-'.toUInt8
  | zero => '0'.toUInt8
  | plus => '+'.toUInt8
  | space => ' '.toUInt8
  | alt => '#'.toUInt8
  | thousands => '\''.toUInt8

/-- A row of digits does not begin with a zero, which would be a flag. -/
inductive Width where
  | absent
  | number (first : Fin 9) (digits : List (Fin 10))
  | star

inductive Precision where
  | absent
  | number (digits : List (Fin 10))
  | star

inductive Length where
  | int
  | short
  | long
  | longLong
  deriving DecidableEq

inductive Kind where
  | d
  | i
  | u
  | o
  | x
  | upperX
  deriving DecidableEq

structure Conversion where
  flags : List Flag
  width : Width
  precision : Precision
  length : Length
  kind : Kind

def row (digits : List (Fin 10)) : Bytes := digits.map fun d : Fin 10 => digit d

def Width.source : Width → Bytes
  | absent => []
  | number first digits => digit (first + 1) :: row digits
  | star => ['*'.toUInt8]

def Precision.source : Precision → Bytes
  | absent => []
  | number digits => '.'.toUInt8 :: row digits
  | star => ['.'.toUInt8, '*'.toUInt8]

def Length.source : Length → Bytes
  | int => []
  | short => ['h'.toUInt8]
  | long => ['l'.toUInt8]
  | longLong => ['l'.toUInt8, 'l'.toUInt8]

def Kind.char : Kind → UInt8
  | d => 'd'.toUInt8
  | i => 'i'.toUInt8
  | u => 'u'.toUInt8
  | o => 'o'.toUInt8
  | x => 'x'.toUInt8
  | upperX => 'X'.toUInt8

/-- A conversion as it is written -/
def Conversion.source (c : Conversion) : Bytes :=
  '%'.toUInt8 :: (c.flags.map Flag.char ++
    (c.width.source ++ (c.precision.source ++ (c.length.source ++ [c.kind.char]))))

/-! ### What a conversion asks for -/

/-- The value of a row of digits. -/
def rowValue (digits : List (Fin 10)) : Nat :=
  digits.foldl (fun n (d : Fin 10) => n * 10 + (d : Nat)) 0

/-- One field of the result, and the value that stands in it -/
structure Field where
  left : Bool
  zero : Bool
  plus : Bool
  space : Bool
  alt : Bool
  thousands : Bool
  width : Nat
  precision : Option Nat
  value : Int

/-- The bits of `short`, `int` and `long` -/
def Length.bits : Length → Nat
  | short => 16
  | int => 32
  | long | longLong => 64

/-- An argument of the type that the length names -/
def Kind.value (k : Kind) (l : Length) (a : BitVec 64) : Int :=
  if k = .d ∨ k = .i then (a.setWidth l.bits).toInt else (a.setWidth l.bits).toNat

/-- The width, with the flag that a negative argument stands for, and the arguments behind -/
def Width.value : Width → Arguments → Option (Bool × Nat × Arguments)
  | absent, args => some (false, 0, args)
  | number first digits, args =>
      some (false, rowValue (first.succ :: digits), args)
  | star, [] => none
  | star, a :: args => some (decide (intArgument a < 0), (intArgument a).natAbs, args)

/-- A negative argument is as good as none. -/
def Precision.value : Precision → Arguments → Option (Option Nat × Arguments)
  | absent, args => some (none, args)
  | number digits, args => some (some (rowValue digits), args)
  | star, [] => none
  | star, a :: args =>
      some (if intArgument a < 0 then none else some (intArgument a).toNat, args)

/-- The field of a conversion, and the arguments behind those it takes -/
def Conversion.field (c : Conversion) (args : Arguments) : Option (Field × Arguments) :=
  (c.width.value args).bind fun w =>
    (c.precision.value w.2.2).bind fun p =>
      p.2.head?.map fun a =>
        (⟨decide (.minus ∈ c.flags) || w.1, decide (.zero ∈ c.flags), decide (.plus ∈ c.flags),
          decide (.space ∈ c.flags), decide (.alt ∈ c.flags), decide (.thousands ∈ c.flags),
          w.2.1, p.1, c.kind.value c.length a⟩, p.2.tail)

/-! ### Reading a conversion -/

/-- What `scan` makes of a flag -/
def Directive.apply (d : Directive) : Flag → Directive
  | .minus => d.minus
  | .zero => if d.ladjust then d else { d with zeropad := true }
  | .plus => { d with sign := '+'.toUInt8 }
  | .space => if d.sign = 0 then { d with sign := ' '.toUInt8 } else d
  | .alt => { d with alt := true }
  | .thousands => { d with thousandsGrouped := true }

theorem scan_flags (flags : List Flag) (d : Directive) (t : Bytes) (args : Arguments) :
    scan d (flags.map Flag.char ++ t) args = scan (flags.foldl Directive.apply d) t args := by
  induction flags generalizing d with
  | nil => rfl
  | cons f flags ih =>
      rw [List.map_cons, List.cons_append, List.foldl_cons, ← ih]
      cases f with
      | _ => rw [Flag.char, scan]; rfl

/-- The directive after flags, in whatever order they come -/
def flagged (flags : List Flag) : Directive where
  alt := decide (.alt ∈ flags)
  ladjust := decide (.minus ∈ flags)
  zeropad := decide (.zero ∈ flags) && !decide (.minus ∈ flags)
  thousandsGrouped := decide (.thousands ∈ flags)
  sign :=
    if .plus ∈ flags then '+'.toUInt8 else if .space ∈ flags then ' '.toUInt8 else 0

theorem foldl_apply (flags : List Flag) : flags.foldl Directive.apply {} = flagged flags := by
  induction flags using List.reverseRecOn with
  | nil => rfl
  | append_singleton flags f ih =>
      rw [List.foldl_append, ih, List.foldl_cons, List.foldl_nil]
      cases f with
      | minus => simp [Directive.apply, Directive.minus, flagged]
      | zero => by_cases h : .minus ∈ flags <;> simp [Directive.apply, flagged, h]
      | plus => simp [Directive.apply, flagged]
      | space =>
          have hsign : '+'.toUInt8 ≠ 0 := by decide
          by_cases hplus : .plus ∈ flags
          · simp [Directive.apply, flagged, hplus, hsign]
          · by_cases hspace : .space ∈ flags <;> simp [Directive.apply, flagged, hplus, hspace]
      | alt => simp [Directive.apply, flagged]
      | thousands => simp [Directive.apply, flagged]

theorem isDigit_row {digits : List (Fin 10)} : ∀ c ∈ row digits, isDigit c = true := by
  intro c hc
  obtain ⟨d, -, rfl⟩ := List.mem_map.mp hc
  exact (digit_spec d d.isLt).1

theorem digitsValue_row (digits : List (Fin 10)) :
    digitsValue (row digits) = rowValue digits := by
  rw [digitsValue, row, List.foldl_map, rowValue]
  congr 1
  funext n d
  rw [(digit_spec d d.isLt).2]

/-- No digit comes next. -/
def NoDigit (t : Bytes) : Prop := ∀ c, t.head? = some c → isDigit c = false

theorem takeWhile_row {digits : List (Fin 10)} {t : Bytes} (ht : NoDigit t) :
    (row digits ++ t).takeWhile isDigit = row digits := by
  rw [List.takeWhile_append_of_pos isDigit_row]
  cases t with
  | nil => rw [List.takeWhile_nil, List.append_nil]
  | cons c t =>
      rw [List.takeWhile_cons_of_neg (by rw [ht c rfl]; exact Bool.false_ne_true), List.append_nil]

theorem dropWhile_row {digits : List (Fin 10)} {t : Bytes} (ht : NoDigit t) :
    (row digits ++ t).dropWhile isDigit = t := by
  rw [List.dropWhile_append_of_pos isDigit_row]
  cases t with
  | nil => rfl
  | cons c t =>
      rw [List.dropWhile_cons_of_neg (by rw [ht c rfl]; exact Bool.false_ne_true)]

/-- What `scan` makes of a width -/
def Directive.withWidth (d : Directive) (w : Bool × Nat × Arguments) : Directive :=
  { (if w.1 then d.minus else d) with width := w.2.1 }

theorem scan_number {d : Directive} {ch : UInt8} (hch : isDigit ch = true)
    (hzero : ch ≠ '0'.toUInt8) (t : Bytes) (args : Arguments) :
    scan d (ch :: t) args =
      if digitsValue ((ch :: t).takeWhile isDigit) < 2 ^ 31 then
        scan { d with width := digitsValue ((ch :: t).takeWhile isDigit) } (t.dropWhile isDigit)
          args
      else none := by
  have hnot : ∀ c, isDigit c = false → ch ≠ c := by
    rintro c hc rfl
    exact absurd (hc.symm.trans hch) Bool.false_ne_true
  rw [scan, if_neg (hnot _ (by decide)), if_neg hzero, if_neg (hnot _ (by decide)),
    if_neg (hnot _ (by decide)), if_neg (hnot _ (by decide)), if_neg (hnot _ (by decide)),
    if_pos hch]

theorem scan_star (d : Directive) (t : Bytes) (a : BitVec 64) (args : Arguments) :
    scan d ('*'.toUInt8 :: t) (a :: args) =
      if 0 ≤ intArgument a then scan { d with width := intArgument a } t args
      else if intArgument a = -2 ^ 31 then none
      else scan { d.minus with width := -intArgument a } t args := by
  rw [scan]
  rfl

theorem scan_point {t : Bytes} (ht : t.head? ≠ some '*'.toUInt8) (d : Directive)
    (args : Arguments) :
    scan d ('.'.toUInt8 :: t) args =
      if digitsValue (t.takeWhile isDigit) < 2 ^ 31 then
        scan { d with prec := digitsValue (t.takeWhile isDigit) } (t.dropWhile isDigit) args
      else none := by
  rw [scan]
  exact if_neg ht

theorem scan_pointStar (d : Directive) (t : Bytes) (a : BitVec 64) (args : Arguments) :
    scan d ('.'.toUInt8 :: '*'.toUInt8 :: t) (a :: args) =
      scan { d with prec := if intArgument a < 0 then -1 else intArgument a } t args := by
  rw [scan]
  rfl

theorem intArgument_ge (a : BitVec 64) : -2 ^ 31 ≤ intArgument a := BitVec.le_toInt (a.setWidth 32)

theorem intArgument_lt (a : BitVec 64) : intArgument a < 2 ^ 31 := BitVec.toInt_lt

theorem scan_width {d : Directive} {w : Width} {t : Bytes} {args : Arguments}
    {r : Bool × Nat × Arguments} (ht : NoDigit t) (hd : d.width = 0)
    (h : w.value args = some r) :
    scan d (w.source ++ t) args =
      if r.2.1 < 2 ^ 31 then scan (d.withWidth r) t r.2.2 else none := by
  cases w with
  | absent =>
      obtain rfl := Option.some.inj h
      rw [if_pos (Nat.two_pow_pos 31), Directive.withWidth, if_neg Bool.false_ne_true,
        Int.natCast_zero, ← hd]
      rfl
  | number first digits =>
      obtain rfl := Option.some.inj h
      have hfirst : ∀ n : Fin 9, isDigit (digit (n + 1)) = true ∧ digit (n + 1) ≠ '0'.toUInt8 := by
        decide
      have hvalue : digitsValue ((digit (first + 1) :: (row digits ++ t)).takeWhile isDigit) =
          rowValue (first.succ :: digits) := by
        rw [← digitsValue_row]
        exact congrArg digitsValue (@takeWhile_row (first.succ :: digits) t ht)
      rw [Width.source, List.cons_append, scan_number (hfirst first).1 (hfirst first).2, hvalue,
        dropWhile_row ht]
      rfl
  | star =>
      cases args with
      | nil => exact absurd h (Option.some_ne_none r).symm
      | cons a args =>
          obtain rfl := Option.some.inj h
          have hge := intArgument_ge a
          have hlt := intArgument_lt a
          rw [Width.source, List.singleton_append, scan_star, Directive.withWidth]
          dsimp only
          by_cases hneg : intArgument a < 0
          · rw [if_neg (Int.not_le.mpr hneg), decide_eq_true hneg, if_pos rfl]
            by_cases hmin : intArgument a = -2 ^ 31
            · rw [if_pos hmin, if_neg (by omega)]
            · have habs : ((intArgument a).natAbs : Int) = -intArgument a := by omega
              rw [if_neg hmin, if_pos (by omega), habs]
          · have habs : ((intArgument a).natAbs : Int) = intArgument a := by omega
            rw [if_pos (Int.not_lt.mp hneg), decide_eq_false hneg, if_neg Bool.false_ne_true,
              if_pos (by omega), habs]

/-- What `scan` makes of a precision -/
def Directive.withPrecision (d : Directive) (p : Option Nat) : Directive :=
  { d with prec := p.elim (-1) fun n => n }

theorem scan_precision {d : Directive} {p : Precision} {t : Bytes} {args : Arguments}
    {r : Option Nat × Arguments} (ht : NoDigit t) (hnext : t.head? ≠ some '*'.toUInt8)
    (hd : d.prec = -1) (h : p.value args = some r) :
    scan d (p.source ++ t) args =
      if ∀ n ∈ r.1, n < 2 ^ 31 then scan (d.withPrecision r.1) t r.2 else none := by
  cases p with
  | absent =>
      obtain rfl := Option.some.inj h
      rw [if_pos nofun, Directive.withPrecision, Option.elim_none, ← hd]
      rfl
  | number digits =>
      obtain rfl := Option.some.inj h
      have hstar : (row digits ++ t).head? ≠ some '*'.toUInt8 := by
        cases digits with
        | nil => exact hnext
        | cons d digits =>
            intro hstar
            have hdigit := (digit_spec d d.isLt).1
            have hhead : digit d = '*'.toUInt8 := Option.some.inj hstar
            rw [hhead] at hdigit
            exact absurd hdigit (by decide)
      rw [Precision.source, List.cons_append, scan_point hstar, takeWhile_row ht, dropWhile_row ht,
        digitsValue_row, Directive.withPrecision]
      by_cases hn : rowValue digits < 2 ^ 31
      · rw [if_pos hn, if_pos fun n hmem => by rwa [← Option.some.inj hmem]]
        rfl
      · rw [if_neg hn, if_neg fun hall => hn (hall _ rfl)]
  | star =>
      cases args with
      | nil => exact absurd h (Option.some_ne_none r).symm
      | cons a args =>
          obtain rfl := Option.some.inj h
          have hlt := intArgument_lt a
          rw [Precision.source, List.cons_append, List.singleton_append, scan_pointStar]
          dsimp only
          by_cases hneg : intArgument a < 0
          · rw [if_pos hneg, if_pos hneg, if_pos nofun]
            rfl
          · have habs : ((intArgument a).toNat : Int) = intArgument a := by omega
            rw [if_neg hneg, if_neg hneg, if_pos fun n hn => by
              rw [← Option.some.inj hn]; omega, Directive.withPrecision, Option.elim_some, habs]

/-- What `scan` makes of a length -/
def Directive.withLength (d : Directive) : Length → Directive
  | .int => d
  | .short => { d with shortint := true }
  | .long => { d with longint := true }
  | .longLong => { d with longint := true, llongint := true }

theorem scan_length {d : Directive} (hd : d.longint = false) (l : Length) (t : Bytes)
    (args : Arguments) : scan d (l.source ++ t) args = scan (d.withLength l) t args := by
  have hfirst : ∀ t, scan d ('l'.toUInt8 :: t) args = scan { d with longint := true } t args := by
    intro t
    rw [scan, hd]
    rfl
  cases l with
  | int => rfl
  | short =>
      rw [Length.source, List.singleton_append, scan]
      rfl
  | long => exact hfirst t
  | longLong =>
      rw [Length.source, List.cons_append, hfirst, List.singleton_append, scan]
      rfl

theorem scan_kind (d : Directive) (k : Kind) (t : Bytes) (args : Arguments) :
    scan d (k.char :: t) args = some (d, k.char, t, args) := by
  cases k with
  | _ =>
    rw [scan]
    rfl

/-- What `scan` reads for a field -/
def Field.directive (x : Field) (l : Length) : Directive where
  longint := l = .long || l = .longLong
  llongint := decide (l = .longLong)
  shortint := decide (l = .short)
  alt := x.alt
  ladjust := x.left
  zeropad := x.zero && !x.left
  thousandsGrouped := x.thousands
  sign := if x.plus then '+'.toUInt8 else if x.space then ' '.toUInt8 else 0
  width := x.width
  prec := x.precision.elim (-1) fun n => n

/-- Width and precision are `int`s. -/
def Field.InRange (x : Field) : Prop := x.width < 2 ^ 31 ∧ ∀ n ∈ x.precision, n < 2 ^ 31

/-- Flags, width, precision and length end as the directive of the field. -/
theorem withLength_eq (c : Conversion) (w : Bool × Nat × Arguments) (p : Option Nat)
    (value : Int) :
    (((flagged c.flags).withWidth w).withPrecision p).withLength c.length =
      Field.directive ⟨decide (.minus ∈ c.flags) || w.1, decide (.zero ∈ c.flags),
        decide (.plus ∈ c.flags), decide (.space ∈ c.flags), decide (.alt ∈ c.flags),
        decide (.thousands ∈ c.flags), w.2.1, p, value⟩ c.length := by
  obtain ⟨negative, width, args⟩ := w
  cases negative with
  | true =>
      cases hl : c.length <;>
        simp [Directive.withWidth, Directive.withPrecision, Directive.withLength, Directive.minus,
          Field.directive, flagged]
  | false =>
      cases hl : c.length <;>
        simp [Directive.withWidth, Directive.withPrecision, Directive.withLength, Field.directive,
          flagged]

theorem noDigit_length (l : Length) (k : Kind) (t : Bytes) :
    NoDigit (l.source ++ k.char :: t) ∧ (l.source ++ k.char :: t).head? ≠ some '*'.toUInt8 := by
  have hall : ∀ c ∈ ['h'.toUInt8, 'l'.toUInt8, 'd'.toUInt8, 'i'.toUInt8, 'u'.toUInt8, 'o'.toUInt8,
      'x'.toUInt8, 'X'.toUInt8], isDigit c = false ∧ c ≠ '*'.toUInt8 := by decide
  have hhead : ∃ c u, l.source ++ k.char :: t = c :: u ∧ isDigit c = false ∧ c ≠ '*'.toUInt8 := by
    cases l with
    | int => cases k <;> exact ⟨_, _, rfl, hall _ (by decide)⟩
    | short => exact ⟨_, _, rfl, hall _ (by decide)⟩
    | long => exact ⟨_, _, rfl, hall _ (by decide)⟩
    | longLong => exact ⟨_, _, rfl, hall _ (by decide)⟩
  obtain ⟨c, u, heq, hdigit, hstar⟩ := hhead
  rw [heq]
  refine ⟨fun d hd => ?_, fun h => hstar (Option.some.inj h)⟩
  rw [← Option.some.inj hd]
  exact hdigit

theorem noDigit_precision {t : Bytes} (ht : NoDigit t) (p : Precision) :
    NoDigit (p.source ++ t) := by
  cases p with
  | absent => exact ht
  | number digits =>
      intro c hc
      rw [← Option.some.inj hc]
      decide
  | star =>
      intro c hc
      rw [← Option.some.inj hc]
      decide

/-- A conversion is read as the field it asks for, unless a number is too large. -/
theorem scan_conversion {c : Conversion} {args rest : Arguments} {x : Field} (t : Bytes)
    (h : c.field args = some (x, rest)) :
    ∃ a, x.value = c.kind.value c.length a ∧
      (x.InRange → scan {} (c.source.tail ++ t) args =
        some (x.directive c.length, c.kind.char, t, a :: rest)) ∧
      (¬ x.InRange → scan {} (c.source.tail ++ t) args = none) := by
  obtain ⟨w, hw, h⟩ := Option.bind_eq_some_iff.mp h
  obtain ⟨p, hp, h⟩ := Option.bind_eq_some_iff.mp h
  obtain ⟨a, ha, h⟩ := Option.map_eq_some_iff.mp h
  obtain ⟨hx, rfl⟩ := Prod.mk.inj h
  have hargs : p.2 = a :: p.2.tail := by
    obtain ⟨args, hargs⟩ := List.head?_eq_some_iff.mp ha
    rw [hargs]
    rfl
  obtain ⟨hnext, hstar⟩ := noDigit_length c.length c.kind t
  have hsource : c.source.tail ++ t = c.flags.map Flag.char ++
      (c.width.source ++ (c.precision.source ++ (c.length.source ++ c.kind.char :: t))) := by
    simp [Conversion.source]
  have hscan : scan {} (c.source.tail ++ t) args =
      if w.2.1 < 2 ^ 31 then
        if ∀ n ∈ p.1, n < 2 ^ 31 then
          some ((((flagged c.flags).withWidth w).withPrecision p.1).withLength c.length,
            c.kind.char, t, p.2)
        else none
      else none := by
    have hprec : ((flagged c.flags).withWidth w).prec = -1 := by
      rw [Directive.withWidth]
      split_ifs <;> rfl
    have hlong : (((flagged c.flags).withWidth w).withPrecision p.1).longint = false := by
      rw [Directive.withWidth]
      split_ifs <;> rfl
    rw [hsource, scan_flags, foldl_apply, scan_width (noDigit_precision hnext c.precision) rfl hw,
      scan_precision hnext hstar hprec hp, scan_length hlong, scan_kind]
  subst hx
  refine ⟨a, rfl, fun hin => ?_, fun hout => ?_⟩
  · rw [hscan, if_pos hin.1, if_pos hin.2, ← hargs, withLength_eq]
  · rw [hscan]
    split_ifs with hwidth hprec
    · exact absurd ⟨hwidth, hprec⟩ hout
    · rfl
    · rfl

end ULib.FormatScan
