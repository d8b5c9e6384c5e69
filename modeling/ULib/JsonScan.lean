import ULib.JsonParser
import Mathlib.Data.Nat.Digits.Lemmas

/-!
What the tokenizer reads of the texts of scalars.
-/

namespace ULib.JsonScan

open ULib.KeyComparison
open ULib.EscapeCoding
open ULib.JsonValue
open ULib.JsonParser

section
variable {doc : Bytes} {s : Nat}

theorem drop_append {w t : Bytes} (h : doc.drop s = w ++ t) : doc.drop (s + w.length) = t := by
  rw [← List.drop_drop, h, List.drop_left]

theorem drop_cons {c : UInt8} {t : Bytes} (h : doc.drop s = c :: t) : doc.drop (s + 1) = t :=
  drop_append (w := [c]) h

theorem lt_of_drop {c : UInt8} {t : Bytes} (h : doc.drop s = c :: t) : s < doc.length := by
  by_contra hle
  rw [List.drop_eq_nil_of_le (Nat.le_of_not_lt hle)] at h
  exact absurd h (by simp)

theorem peek_drop (i : Nat) : peek (doc.drop s) i = peek doc (s + i) := by
  simp [peek, List.getD]

theorem peek_of_drop {c : UInt8} {t : Bytes} (h : doc.drop s = c :: t) : peek doc s = c := by
  rw [← Nat.add_zero s, ← peek_drop, h]
  rfl

theorem nextChar_eq {c : UInt8} {t : Bytes} (h : doc.drop s = c :: t) :
    nextChar doc s = (c, s + 1) := by
  rw [nextChar, if_neg (Nat.not_le.mpr (lt_of_drop h)), peek_of_drop h]

theorem skipSpaces_eq {c : UInt8} {t : Bytes} (h : doc.drop s = c :: t)
    (hc : isSpace c = false) : skipSpaces doc s = s := by
  rw [skipSpaces, h, List.takeWhile_cons_of_neg (by simp [hc])]
  rfl

theorem skipToken_eq {w t : Bytes} (h : doc.drop s = w ++ t) :
    skipToken doc s w = if w.length ≤ s then some (s + w.length) else none := by
  have hcopied : copied (doc.drop s) w.length = w := by
    rw [h]
    refine List.ext_getElem (by simp [copied]) ?_
    intro i hi hi'
    simp [copied, peek, List.getD, List.getElem?_append_left hi', List.getElem?_eq_getElem hi']
  rw [skipToken]
  simp only [hcopied, and_true]

end

/-- A byte that `skipNumber` passes over without taking the number for a double. -/
def inNumber (c : UInt8) : Bool := isDigit c || c = '-'.toUInt8

theorem numberLoop_eq {w t : Bytes} (hw : ∀ c ∈ w, inNumber c) {c : UInt8}
    (hc : c = ','.toUInt8 ∨ c = ']'.toUInt8 ∨ c = '}'.toUInt8) (s : Nat) :
    numberLoop (w ++ c :: t) false s = some (false, s + w.length) := by
  induction w generalizing s with
  | nil =>
      rcases hc with rfl | rfl | rfl
      · rfl
      · rfl
      · rfl
  | cons d w ih =>
      have hd : isDigit d = true ∨ d = '-'.toUInt8 := by
        simpa [inNumber] using hw d List.mem_cons_self
      rw [List.cons_append, numberLoop, if_pos hd, ih fun c hc => hw c (List.mem_cons_of_mem d hc),
        List.length_cons]
      congr 2
      omega

/-- The value of a row of digits. -/
def digitsValue (w : Bytes) : Nat := w.foldl (fun n c => n * 10 + (c - '0'.toUInt8).toNat) 0

def digit (d : Nat) : UInt8 := '0'.toUInt8 + UInt8.ofNat d

theorem digit_spec : ∀ d < 10, isDigit (digit d) ∧ (digit d - '0'.toUInt8).toNat = d := by
  decide

theorem digitsValue_reverse {ds : List Nat} (h : ∀ d ∈ ds, d < 10) :
    digitsValue (ds.reverse.map digit) = Nat.ofDigits 10 ds := by
  induction ds with
  | nil => rfl
  | cons d ds ih =>
      have hd := digit_spec d (h d List.mem_cons_self)
      have hstep : digitsValue ((d :: ds).reverse.map digit) =
          digitsValue (ds.reverse.map digit) * 10 + (digit d - '0'.toUInt8).toNat := by
        simp [digitsValue]
      rw [hstep, ih fun e he => h e (List.mem_cons_of_mem d he), hd.2, Nat.ofDigits_cons]
      omega

theorem printNat_spec (n : Nat) :
    printNat n ≠ [] ∧ (∀ c ∈ printNat n, isDigit c) ∧ digitsValue (printNat n) = n := by
  by_cases hn : n = 0
  · subst hn
    decide
  · have hprint : printNat n = (Nat.digits 10 n).reverse.map digit := if_neg hn
    have hlt : ∀ d ∈ Nat.digits 10 n, d < 10 := fun d hd => Nat.digits_lt_base (by decide) hd
    rw [hprint]
    refine ⟨?_, ?_, ?_⟩
    · have hne := Nat.digits_ne_nil_iff_ne_zero (b := 10).mpr hn
      simpa only [ne_eq, List.map_eq_nil_iff, List.reverse_eq_nil_iff] using hne
    · intro c hc
      obtain ⟨d, hd, rfl⟩ := List.mem_map.mp hc
      exact (digit_spec d (hlt d (List.mem_reverse.mp hd))).1
    · rw [digitsValue_reverse hlt, Nat.ofDigits_digits]

theorem length_printNat_le {n k : Nat} (hk : 0 < k) (hn : n < 10 ^ k) :
    (printNat n).length ≤ k := by
  rw [printNat]
  split
  · exact hk
  · rw [List.length_map, List.length_reverse]
    exact (Nat.digits_length_le_iff (by decide) n).mpr hn

theorem takeWhile_digits {w t : Bytes} (hw : ∀ c ∈ w, isDigit c) {c : UInt8}
    (hc : isDigit c = false) : (w ++ c :: t).takeWhile isDigit = w := by
  rw [List.takeWhile_append_of_pos hw, List.takeWhile_cons_of_neg (by simp [hc]), List.append_nil]

/-- What may follow a value in a document. -/
def Ends (rest : Bytes) : Prop :=
  ∃ c t, rest = c :: t ∧ (c = ','.toUInt8 ∨ c = ']'.toUInt8 ∨ c = '}'.toUInt8)

theorem Ends.not_digit {c : UInt8} (h : c = ','.toUInt8 ∨ c = ']'.toUInt8 ∨ c = '}'.toUInt8) :
    isDigit c = false := by
  rcases h with rfl | rfl | rfl
  · rfl
  · rfl
  · rfl

theorem strtoul_printNat {n : Nat} (hn : n < 2 ^ 64) {rest : Bytes} (hrest : Ends rest) :
    strtoul (printNat n ++ rest) = n := by
  obtain ⟨c, t, rfl, hc⟩ := hrest
  obtain ⟨-, hdigits, hvalue⟩ := printNat_spec n
  rw [strtoul, takeWhile_digits hdigits (Ends.not_digit hc)]
  show min (digitsValue (printNat n)) _ = n
  rw [hvalue]
  omega

theorem strtol_printInt {i : Int} (hi : i < 0) (hlt : -2 ^ 63 ≤ i) {rest : Bytes}
    (hrest : Ends rest) : strtol (printInt i ++ rest) = i := by
  obtain ⟨c, t, rfl, hc⟩ := hrest
  obtain ⟨-, hdigits, hvalue⟩ := printNat_spec i.natAbs
  rw [printInt, if_pos hi, strtol, List.cons_append, List.tail_cons,
    takeWhile_digits hdigits (Ends.not_digit hc)]
  show max (-(digitsValue (printNat i.natAbs) : Int)) _ = i
  rw [hvalue]
  omega

section
variable {ρ : Type*} {D : Doubles ρ} {doc : Bytes} {s : Nat}

theorem readNumber_eq {c : UInt8} {w rest : Bytes} (h : doc.drop s = c :: (w ++ rest))
    (hw : ∀ d ∈ w, inNumber d) (hrest : Ends rest) :
    readNumber D doc s c (s + 1) =
      some (if c = '-'.toUInt8 then .int (Int32.ofInt (strtol (c :: (w ++ rest))))
        else .uint (UInt32.ofNat (strtoul (c :: (w ++ rest)))), s + 1 + w.length) := by
  obtain ⟨d, t, rfl, hd⟩ := hrest
  rw [readNumber, skipNumber, drop_cons h, numberLoop_eq hw hd, Option.map_some, h]
  rfl

/-- Behind its first quote the text of a string is read back. -/
theorem readString_eq {x rest : Bytes} (hq : peek doc (s - 1) = quote)
    (h : doc.drop s = escaped x ++ quote :: rest) (hquotable : quotable x)
    (hdecodable : decodable 0 [] x) :
    readString doc s = some ((.string x : UValue ρ), s + (escaped x).length + 1) := by
  have hfind : findChar (peek doc (s - 2)) (peek doc (s - 1)) (doc.drop s) =
      (escaped x).length := by
    rw [h, hq]
    exact findChar_escaped hquotable rest (fun h => absurd h (by decide))
      (fun h => absurd h (by decide))
  have hlt := lt_of_drop (drop_append h)
  have hdecode : escapeDecode (doc.drop s) (escaped x).length = x := by
    have hloop := @decodeLoop_escaped x [] (quote :: rest) _ (by simp) hdecodable
      (Nat.le_of_eq (Nat.zero_add _))
    rw [h, escapeDecode]
    simpa using hloop
  rw [readString]
  simp only [hfind, hdecode, if_pos hlt]
  by_cases hx : x = []
  · subst hx
    rfl
  · have hne : (escaped x).length ≠ 0 := by
      intro hzero
      rw [hzero] at hdecode
      exact hx hdecode.symm
    rw [if_neg hne, if_neg hx]

end

end ULib.JsonScan
