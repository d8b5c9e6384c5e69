import ULib.TextBuffer
import ULib.Utf8Validation

/-!
`UStringRep::toUTF8` and `UStringRep::fromUTF8` of `string.cpp`, between ISO
Latin 1 and UTF-8.
-/

namespace ULib.Latin1

open ULib.KeyComparison
open ULib.EscapeCoding (forall_byte)
open ULib.StringHeap (allocated)
open ULib.TextBuffer
open ULib.Utf8
open ULib.Utf8Validation

/-! ### The two functions -/

/-- The bytes that are written for one -/
def utf8 (c : UInt8) : Bytes :=
  if c ≥ 0x80 then [((c >>> 6) &&& 0x1F) ||| 0xC0, (c &&& 0x3F) ||| 0x80] else [c]

def toUTF8Loop : Bytes → Buffer → Option Buffer
  | [], r => some r
  | c :: s, r => (put r (utf8 c)).bind (toUTF8Loop s)

/-- `toUTF8`; `none` where it writes behind what was allocated. `n * 2` is of 32 bits. -/
def toUTF8 (s : Bytes) : Option Bytes :=
  if s.length = 0 then some []
  else (toUTF8Loop s (created (s.length * 2 % 2 ^ 32))).map Buffer.data

def fromUTF8Loop : Bytes → Buffer → Option Buffer
  | [], r => some r
  | [c], r => put r [c]
  | c :: d :: s, r =>
      if c &&& 0xE0 = 0xC0 ∧ d &&& 0xC0 = 0x80 then
        -- the sum is stored as a byte
        (put r [((c &&& 0x1F) <<< 6) + (d &&& 0x3F)]).bind (fromUTF8Loop s)
      else (put r [c]).bind (fromUTF8Loop (d :: s))

/-- `fromUTF8` -/
def fromUTF8 (s : Bytes) : Option Bytes :=
  if s.length = 0 then some []
  else (fromUTF8Loop s (created (s.length % 2 ^ 32))).map Buffer.data

/-! ### What they write -/

/-- What `fromUTF8` writes -/
def latin1 : Bytes → Bytes
  | [] => []
  | [c] => [c]
  | c :: d :: s =>
      if c &&& 0xE0 = 0xC0 ∧ d &&& 0xC0 = 0x80 then
        (((c &&& 0x1F) <<< 6) + (d &&& 0x3F)) :: latin1 s
      else c :: latin1 (d :: s)

variable {r : Buffer}

theorem toUTF8Loop_eq (s : Bytes) (h : r.data.length ≤ r.capacity) :
    toUTF8Loop s r = put r (s.flatMap utf8) := by
  induction s generalizing r with
  | nil => exact (put_nil h).symm
  | cons c s ih =>
      rw [toUTF8Loop, List.flatMap_cons, ← put_append]
      cases hput : put r (utf8 c) with
      | none => rfl
      | some x => exact ih (le_capacity_of_put hput)

theorem put_step {w t : Bytes} {f : Buffer → Option Buffer}
    (hf : ∀ x : Buffer, x.data.length ≤ x.capacity → f x = put x t) :
    (put r w).bind f = put r (w ++ t) := by
  rw [← put_append]
  cases hput : put r w with
  | none => rfl
  | some x => exact hf x (le_capacity_of_put hput)

theorem fromUTF8Loop_eq (s : Bytes) (h : r.data.length ≤ r.capacity) :
    fromUTF8Loop s r = put r (latin1 s) := by
  induction s using latin1.induct generalizing r with
  | case1 => exact (put_nil h).symm
  | case2 c => rfl
  | case3 c d s hpair ih =>
      rw [fromUTF8Loop, latin1, if_pos hpair, if_pos hpair]
      exact put_step fun x hx => ih hx
  | case4 c d s hpair ih =>
      rw [fromUTF8Loop, latin1, if_neg hpair, if_neg hpair]
      exact put_step fun x hx => ih hx

theorem toUTF8_eq (s : Bytes) : toUTF8 s =
    if (s.flatMap utf8).length ≤ (allocated (s.length * 2 % 2 ^ 32)).1 then
      some (s.flatMap utf8) else none := by
  rw [toUTF8]
  split
  · next h =>
    obtain rfl := List.length_eq_zero_iff.mp h
    rfl
  · rw [toUTF8Loop_eq s (Nat.zero_le _), put_created]

theorem fromUTF8_eq (s : Bytes) : fromUTF8 s =
    if (latin1 s).length ≤ (allocated (s.length % 2 ^ 32)).1 then some (latin1 s) else none := by
  rw [fromUTF8]
  split
  · next h =>
    obtain rfl := List.length_eq_zero_iff.mp h
    rfl
  · rw [fromUTF8Loop_eq s (Nat.zero_le _), put_created]

/-! ### The round trip -/

/-- What is written for a byte is a character of UTF-8, and is read back in front of any text. -/
theorem utf8_spec : ∀ c : UInt8, (utf8 c = [c] ∧ c &&& 0xE0 ≠ 0xC0 ∧ Range.Has (0x00, 0x7F) c) ∨
    ∃ a b, utf8 c = [a, b] ∧ (a &&& 0xE0 = 0xC0 ∧ b &&& 0xC0 = 0x80) ∧
      ((a &&& 0x1F) <<< 6) + (b &&& 0x3F) = c ∧ Range.Has (0xC2, 0xDF) a ∧ tail.Has b := by
  have hall : ∀ c : UInt8, (utf8 c = [c] ∧ c &&& 0xE0 ≠ 0xC0 ∧ Range.Has (0x00, 0x7F) c) ∨
      utf8 c = [((c >>> 6) &&& 0x1F) ||| 0xC0, (c &&& 0x3F) ||| 0x80] ∧
        ((((c >>> 6) &&& 0x1F) ||| 0xC0) &&& 0xE0 = 0xC0 ∧
          ((c &&& 0x3F) ||| 0x80) &&& 0xC0 = 0x80) ∧
        (((((c >>> 6) &&& 0x1F) ||| 0xC0) &&& 0x1F) <<< 6) +
          (((c &&& 0x3F) ||| 0x80) &&& 0x3F) = c ∧
        Range.Has (0xC2, 0xDF) (((c >>> 6) &&& 0x1F) ||| 0xC0) ∧ tail.Has ((c &&& 0x3F) ||| 0x80) :=
    forall_byte (by decide +kernel)
  intro c
  exact (hall c).imp_right fun h => ⟨_, _, h⟩

theorem latin1_utf8 (c : UInt8) (t : Bytes) : latin1 (utf8 c ++ t) = c :: latin1 t := by
  rcases utf8_spec c with ⟨heq, hlead, -⟩ | ⟨a, b, heq, hpair, hvalue, -⟩
  · rw [heq]
    cases t with
    | nil => rfl
    | cons d t =>
        rw [List.singleton_append, latin1, if_neg (fun h => hlead h.1)]
  · rw [heq, List.cons_append, List.singleton_append, latin1, if_pos hpair, hvalue]

theorem latin1_flatMap (s : Bytes) : latin1 (s.flatMap utf8) = s := by
  induction s with
  | nil => rfl
  | cons c s ih => rw [List.flatMap_cons, latin1_utf8, ih]

theorem text_flatMap (s : Bytes) : Text (s.flatMap utf8) := by
  induction s with
  | nil => exact text_nil
  | cons c s ih =>
      rw [List.flatMap_cons]
      refine Sequence.text_append ?_ ih
      rcases utf8_spec c with ⟨heq, -, hrange⟩ | ⟨a, b, heq, -, -, ha, hb⟩
      · rw [heq]
        exact ⟨[(0x00, 0x7F)], by decide, .cons hrange .nil⟩
      · rw [heq]
        exact ⟨[(0xC2, 0xDF), tail], by decide, .cons ha (.cons hb .nil)⟩

/-! ### What was allocated -/

theorem length_utf8 (c : UInt8) : 1 ≤ (utf8 c).length ∧ (utf8 c).length ≤ 2 := by
  rcases utf8_spec c with ⟨heq, -⟩ | ⟨a, b, heq, -⟩
  · rw [heq]
    exact ⟨Nat.le_refl 1, Nat.le_succ 1⟩
  · rw [heq]
    exact ⟨Nat.le_succ 1, Nat.le_refl 2⟩

theorem length_flatMap_utf8 (s : Bytes) :
    s.length ≤ (s.flatMap utf8).length ∧ (s.flatMap utf8).length ≤ s.length * 2 := by
  induction s with
  | nil => exact ⟨Nat.le_refl 0, Nat.le_refl 0⟩
  | cons c s ih =>
      have hc := length_utf8 c
      rw [List.flatMap_cons, List.length_append, List.length_cons]
      omega

theorem length_latin1_le (s : Bytes) : (latin1 s).length ≤ s.length := by
  induction s using latin1.induct with
  | case1 => exact Nat.le_refl 0
  | case2 c => exact Nat.le_refl 1
  | case3 c d s hpair ih =>
      rw [latin1, if_pos hpair]
      simp only [List.length_cons]
      omega
  | case4 c d s hpair ih =>
      rw [latin1, if_neg hpair]
      simp only [List.length_cons] at ih ⊢
      omega

theorem utf8_fits_iff {s : Bytes} (hs : s.length < 2 ^ 32) :
    (s.flatMap utf8).length ≤ (allocated (s.length * 2 % 2 ^ 32)).1 ↔
      s.length * 2 ≤ 2 ^ 32 - 4096 :=
  double_fits_iff hs (length_flatMap_utf8 s).1 (length_flatMap_utf8 s).2

theorem fromUTF8_of_fits {s : Bytes} (h : s.length ≤ 2 ^ 32 - 4096) :
    fromUTF8 s = some (latin1 s) := by
  rw [fromUTF8_eq, if_pos]
  rw [Nat.mod_eq_of_lt (by omega)]
  exact (length_latin1_le s).trans (le_allocated h)

/-- What is asked of the two functions: the bytes come back, what stands between is UTF-8, and
nothing is written behind what was allocated. -/
def ComesBack (s : Bytes) : Prop :=
  (∃ u, toUTF8 s = some u ∧ fromUTF8 u = some s ∧ (s ≠ [] → isUTF8 u = some true)) ∧
    ∃ t, fromUTF8 s = some t

/-- A text comes back as long as twice its length can be counted, in whole pages. -/
theorem comesBack_iff {s : Bytes} (hs : s.length < 2 ^ 32) :
    ComesBack s ↔ s.length * 2 ≤ 2 ^ 32 - 4096 := by
  rw [ComesBack, toUTF8_eq]
  constructor
  · rintro ⟨⟨u, hu, -⟩, -⟩
    refine (utf8_fits_iff hs).mp (Decidable.not_not.mp fun hfits => ?_)
    rw [if_neg hfits] at hu
    cases hu
  · intro hsmall
    have hle := (length_flatMap_utf8 s).2
    refine ⟨⟨_, if_pos ((utf8_fits_iff hs).mpr hsmall), ?_, fun _ => ?_⟩, ?_⟩
    · rw [fromUTF8_of_fits (by omega), latin1_flatMap]
    · obtain ⟨result, hresult, hiff⟩ := isUTF8_spec (s.flatMap utf8)
      rw [hresult, hiff.mpr (text_flatMap s)]
    · exact ⟨_, fromUTF8_of_fits (by omega)⟩

theorem comesBack_sample : ComesBack [0x43, 0xE9, 0xC3, 0xA9] :=
  (comesBack_iff (by decide)).mpr (by decide)

/-- The capacity of twice 2^31 bytes is that of none. -/
theorem not_comesBack : ¬ ComesBack (List.replicate (2 ^ 31) 0x41) := by
  rintro ⟨⟨u, hu, -⟩, -⟩
  have hlength : (List.replicate (2 ^ 31) (0x41 : UInt8)).length = 2 ^ 31 := List.length_replicate
  have hge := (length_flatMap_utf8 (List.replicate (2 ^ 31) 0x41)).1
  rw [toUTF8_eq, if_neg] at hu
  · cases hu
  · rw [utf8_fits_iff (by rw [hlength]; decide), hlength]
    decide

end ULib.Latin1
