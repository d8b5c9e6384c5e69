import Mathlib.Data.List.Forall2
import Mathlib.Tactic.Common

/-!
The syntax of UTF-8 in RFC 3629, and what it is the syntax of: the encodings of
the Unicode scalar values.
-/

namespace ULib.Utf8

/-! ### The syntax -/

/-- The bytes from the first to the second -/
abbrev Range := Nat × Nat

def Range.Has (r : Range) (c : UInt8) : Prop := r.1 ≤ c.toNat ∧ c.toNat ≤ r.2

instance (r : Range) (c : UInt8) : Decidable (r.Has c) := inferInstanceAs (Decidable (_ ∧ _))

/-- `UTF8-tail` -/
def tail : Range := (0x80, 0xBF)

/-- The alternatives of `UTF8-char` -/
def forms : List (List Range) :=
  [[(0x00, 0x7F)],
    [(0xC2, 0xDF), tail],
    [(0xE0, 0xE0), (0xA0, 0xBF), tail], [(0xE1, 0xEC), tail, tail],
    [(0xED, 0xED), (0x80, 0x9F), tail], [(0xEE, 0xEF), tail, tail],
    [(0xF0, 0xF0), (0x90, 0xBF), tail, tail], [(0xF1, 0xF3), tail, tail, tail],
    [(0xF4, 0xF4), (0x80, 0x8F), tail, tail]]

def Matches (form : List Range) (u : List UInt8) : Prop := List.Forall₂ Range.Has form u

/-- A well-formed sequence for one character, `UTF8-char` -/
def Sequence (u : List UInt8) : Prop := ∃ form ∈ forms, Matches form u

/-- A text is made of well-formed sequences, `UTF8-octets`. -/
def Text (s : List UInt8) : Prop := ∃ l : List (List UInt8), (∀ u ∈ l, Sequence u) ∧ l.flatten = s

/-- What is left of a form, with a text behind it -/
def Ends (form : List Range) (s : List UInt8) : Prop :=
  ∃ u t, Matches form u ∧ Text t ∧ u ++ t = s

theorem text_nil : Text [] := ⟨[], fun _ h => absurd h List.not_mem_nil, rfl⟩

theorem Sequence.text_append {u t : List UInt8} (hu : Sequence u) (ht : Text t) :
    Text (u ++ t) := by
  obtain ⟨l, hl, rfl⟩ := ht
  refine ⟨u :: l, ?_, List.flatten_cons⟩
  rintro v hv
  rcases List.mem_cons.mp hv with rfl | hv
  · exact hu
  · exact hl v hv

theorem ends_nil {s : List UInt8} : Ends [] s ↔ Text s := by
  constructor
  · rintro ⟨u, t, hu, ht, rfl⟩
    cases hu
    exact ht
  · intro h
    exact ⟨[], s, .nil, h, rfl⟩

theorem not_ends_nil {r : Range} {form : List Range} : ¬ Ends (r :: form) [] := by
  rintro ⟨u, t, hu, -, heq⟩
  cases hu
  cases heq

theorem ends_cons {r : Range} {form : List Range} {c : UInt8} {s : List UInt8} :
    Ends (r :: form) (c :: s) ↔ r.Has c ∧ Ends form s := by
  constructor
  · rintro ⟨u, t, hu, ht, heq⟩
    cases hu with
    | cons hc hu =>
        rename_i d v
        obtain ⟨rfl, rfl⟩ := List.cons.inj heq
        exact ⟨hc, v, t, hu, ht, rfl⟩
  · rintro ⟨hc, u, t, hu, ht, rfl⟩
    exact ⟨c :: u, t, .cons hc hu, ht, rfl⟩

/-- A text that goes on begins with a character. -/
theorem text_cons {c : UInt8} {s : List UInt8} :
    Text (c :: s) ↔ ∃ form ∈ forms, Ends form (c :: s) := by
  constructor
  · rintro ⟨l, hl, heq⟩
    cases l with
    | nil => cases heq
    | cons u l =>
        obtain ⟨form, hform, hu⟩ := hl u List.mem_cons_self
        refine ⟨form, hform, u, l.flatten, hu, ⟨l, fun v hv => ?_, rfl⟩, heq⟩
        exact hl v (List.mem_cons_of_mem u hv)
  · rintro ⟨form, hform, u, t, hu, ht, heq⟩
    rw [← heq]
    exact Sequence.text_append ⟨form, hform, hu⟩ ht

/-! ### The characters -/

theorem exists_char {v : Nat} (h : v < 0xD800 ∨ 0xDFFF < v ∧ v < 0x110000) :
    ∃ c : Char, c.val.toNat = v :=
  ⟨Char.ofNatAux v h, rfl⟩

theorem char_range (c : Char) :
    c.val.toNat < 0xD800 ∨ 0xDFFF < c.val.toNat ∧ c.val.toNat < 0x110000 :=
  c.valid

theorem matches_cons {lo hi n : Nat} {form : List Range} {u : List UInt8}
    (h : lo ≤ n % 256 ∧ n % 256 ≤ hi) (hu : Matches form u) :
    Matches ((lo, hi) :: form) (UInt8.ofNat n :: u) :=
  .cons (by simpa only [Range.Has, UInt8.toNat_ofNat'] using h) hu

theorem matches_tail {n : Nat} {form : List Range} {u : List UInt8} (hu : Matches form u) :
    Matches (tail :: form) (UInt8.ofNat (n % 0x40 + 0x80) :: u) :=
  matches_cons (by omega) hu

theorem sequence_two {v : Nat} (h : 0x7F < v ∧ v ≤ 0x7FF) :
    Sequence [UInt8.ofNat (v / 64 % 0x20 + 0xC0), UInt8.ofNat (v % 0x40 + 0x80)] :=
  ⟨[(0xC2, 0xDF), tail], by decide, matches_cons (by omega) (matches_tail .nil)⟩

theorem sequence_three {v : Nat} (h : 0x7FF < v ∧ v ≤ 0xFFFF) (hv : v < 0xD800 ∨ 0xDFFF < v) :
    Sequence [UInt8.ofNat (v / 4096 % 0x10 + 0xE0), UInt8.ofNat (v / 64 % 0x40 + 0x80),
      UInt8.ofNat (v % 0x40 + 0x80)] := by
  by_cases h1 : v < 0x1000
  · exact ⟨[(0xE0, 0xE0), (0xA0, 0xBF), tail], by decide, matches_cons (by omega)
      (matches_cons (by omega) (matches_tail .nil))⟩
  by_cases h2 : v < 0xD000
  · exact ⟨[(0xE1, 0xEC), tail, tail], by decide, matches_cons (by omega)
      (matches_tail (matches_tail .nil))⟩
  by_cases h3 : v < 0xE000
  · exact ⟨[(0xED, 0xED), (0x80, 0x9F), tail], by decide, matches_cons (by omega)
      (matches_cons (by omega) (matches_tail .nil))⟩
  · exact ⟨[(0xEE, 0xEF), tail, tail], by decide, matches_cons (by omega)
      (matches_tail (matches_tail .nil))⟩

theorem sequence_four {v : Nat} (h : 0xFFFF < v ∧ v < 0x110000) :
    Sequence [UInt8.ofNat (v / 262144 % 0x08 + 0xF0), UInt8.ofNat (v / 4096 % 0x40 + 0x80),
      UInt8.ofNat (v / 64 % 0x40 + 0x80), UInt8.ofNat (v % 0x40 + 0x80)] := by
  by_cases h1 : v < 0x40000
  · exact ⟨[(0xF0, 0xF0), (0x90, 0xBF), tail, tail], by decide, matches_cons (by omega)
      (matches_cons (by omega) (matches_tail (matches_tail .nil)))⟩
  by_cases h2 : v < 0x100000
  · exact ⟨[(0xF1, 0xF3), tail, tail, tail], by decide, matches_cons (by omega)
      (matches_tail (matches_tail (matches_tail .nil)))⟩
  · exact ⟨[(0xF4, 0xF4), (0x80, 0x8F), tail, tail], by decide, matches_cons (by omega)
      (matches_cons (by omega) (matches_tail (matches_tail .nil)))⟩

theorem sequence_encodeChar (c : Char) : Sequence (String.utf8EncodeChar c) := by
  have hrange := char_range c
  unfold String.utf8EncodeChar
  generalize c.val.toNat = v at hrange
  dsimp only
  split
  · exact ⟨[(0x00, 0x7F)], by decide, matches_cons (by omega) .nil⟩
  split
  · exact sequence_two (by omega)
  split
  · exact sequence_three (by omega) (by omega)
  · exact sequence_four (by omega)

theorem ofNat_eq {n : Nat} {a : UInt8} (h : n = a.toNat) : UInt8.ofNat n = a := by
  rw [h, UInt8.ofNat_toNat]

theorem encodeChar_one {a : UInt8} (ha : Range.Has (0x00, 0x7F) a) :
    ∃ c : Char, String.utf8EncodeChar c = [a] := by
  obtain ⟨-, ha⟩ := ha
  dsimp only at ha
  obtain ⟨c, hc⟩ := exists_char (show a.toNat < 0xD800 ∨ _ by omega)
  refine ⟨c, ?_⟩
  unfold String.utf8EncodeChar
  rw [hc]
  dsimp only
  rw [if_pos ha, UInt8.ofNat_toNat]

theorem encodeChar_two {a b : UInt8} (ha : Range.Has (0xC2, 0xDF) a) (hb : tail.Has b) :
    ∃ c : Char, String.utf8EncodeChar c = [a, b] := by
  simp only [Range.Has, tail] at ha hb
  obtain ⟨c, hc⟩ := exists_char (v := (a.toNat - 0xC0) * 64 + (b.toNat - 0x80)) (by omega)
  refine ⟨c, ?_⟩
  unfold String.utf8EncodeChar
  rw [hc]
  dsimp only
  rw [if_neg (by omega), if_pos (by omega), ofNat_eq (a := a) (by omega),
    ofNat_eq (a := b) (by omega)]

theorem encodeChar_three {a b c : UInt8} (ha : 0xE0 ≤ a.toNat ∧ a.toNat ≤ 0xEF)
    (hb : 0x80 ≤ b.toNat ∧ b.toNat ≤ 0xBF) (hc : tail.Has c)
    (hlow : a.toNat = 0xE0 → 0xA0 ≤ b.toNat)
    (hhigh : a.toNat = 0xED → b.toNat ≤ 0x9F) :
    ∃ d : Char, String.utf8EncodeChar d = [a, b, c] := by
  simp only [Range.Has, tail] at hc
  obtain ⟨d, hd⟩ := exists_char
    (v := (a.toNat - 0xE0) * 4096 + (b.toNat - 0x80) * 64 + (c.toNat - 0x80)) (by omega)
  refine ⟨d, ?_⟩
  unfold String.utf8EncodeChar
  rw [hd]
  dsimp only
  rw [if_neg (by omega), if_neg (by omega), if_pos (by omega), ofNat_eq (a := a) (by omega),
    ofNat_eq (a := b) (by omega), ofNat_eq (a := c) (by omega)]

theorem encodeChar_four {a b c d : UInt8} (ha : 0xF0 ≤ a.toNat ∧ a.toNat ≤ 0xF4)
    (hb : 0x80 ≤ b.toNat ∧ b.toNat ≤ 0xBF) (hc : tail.Has c) (hd : tail.Has d)
    (hlow : a.toNat = 0xF0 → 0x90 ≤ b.toNat)
    (hhigh : a.toNat = 0xF4 → b.toNat ≤ 0x8F) :
    ∃ e : Char, String.utf8EncodeChar e = [a, b, c, d] := by
  simp only [Range.Has, tail] at hc hd
  obtain ⟨e, he⟩ := exists_char (v := (a.toNat - 0xF0) * 262144 + (b.toNat - 0x80) * 4096 +
    (c.toNat - 0x80) * 64 + (d.toNat - 0x80)) (by omega)
  refine ⟨e, ?_⟩
  unfold String.utf8EncodeChar
  rw [he]
  dsimp only
  rw [if_neg (by omega), if_neg (by omega), if_neg (by omega), ofNat_eq (a := a) (by omega),
    ofNat_eq (a := b) (by omega), ofNat_eq (a := c) (by omega), ofNat_eq (a := d) (by omega)]

theorem exists_char_of_sequence {u : List UInt8} (h : Sequence u) :
    ∃ c : Char, String.utf8EncodeChar c = u := by
  obtain ⟨form, hform, hu⟩ := h
  simp only [forms, List.mem_cons, List.not_mem_nil, or_false] at hform
  rcases hform with rfl | rfl | rfl | rfl | rfl | rfl | rfl | rfl | rfl
  · obtain _ | ⟨ha, ⟨⟩⟩ := hu
    exact encodeChar_one ha
  · obtain _ | ⟨ha, _ | ⟨hb, ⟨⟩⟩⟩ := hu
    exact encodeChar_two ha hb
  iterate 4
    obtain _ | ⟨⟨ha, ha'⟩, _ | ⟨⟨hb, hb'⟩, _ | ⟨hc, ⟨⟩⟩⟩⟩ := hu
    dsimp only [tail] at ha ha' hb hb'
    exact encodeChar_three (by omega) (by omega) hc (by omega) (by omega)
  iterate 3
    obtain _ | ⟨⟨ha, ha'⟩, _ | ⟨⟨hb, hb'⟩, _ | ⟨hc, _ | ⟨hd, ⟨⟩⟩⟩⟩⟩ := hu
    dsimp only [tail] at ha ha' hb hb'
    exact encodeChar_four (by omega) (by omega) hc hd (by omega) (by omega)

/-- The well-formed sequences are the encodings of the characters. -/
theorem sequence_iff {u : List UInt8} : Sequence u ↔ ∃ c : Char, String.utf8EncodeChar c = u := by
  constructor
  · exact exists_char_of_sequence
  · rintro ⟨c, rfl⟩
    exact sequence_encodeChar c

/-- A text is the encoding of a string of characters. -/
theorem text_iff {s : List UInt8} :
    Text s ↔ ∃ l : List Char, l.flatMap String.utf8EncodeChar = s := by
  constructor
  · rintro ⟨l, hl, rfl⟩
    induction l with
    | nil => exact ⟨[], rfl⟩
    | cons u l ih =>
        obtain ⟨c, hc⟩ := sequence_iff.mp (hl u List.mem_cons_self)
        obtain ⟨cs, hcs⟩ := ih fun v hv => hl v (List.mem_cons_of_mem u hv)
        exact ⟨c :: cs, by rw [List.flatMap_cons, hc, hcs, List.flatten_cons]⟩
  · rintro ⟨l, rfl⟩
    induction l with
    | nil => exact text_nil
    | cons c l ih =>
        rw [List.flatMap_cons]
        exact (sequence_encodeChar c).text_append ih

end ULib.Utf8
