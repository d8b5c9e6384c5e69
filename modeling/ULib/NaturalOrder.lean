import Mathlib.Algebra.Order.Ring.Int
import Mathlib.Tactic.Common
import ULib.EscapeCoding

/-!
`u_strnatcmp` of `base/utility.c`: the words that the two strings are read as,
and their lexicographic order. A string is the bytes before its NUL.
-/

namespace ULib.NaturalOrder

open ULib.KeyComparison
open ULib.EscapeCoding (isDigit isSpace forall_byte)
open Std (TransCmp)

/-! ### u_strnatcmp -/

section Source

variable (signed : Bool)

/-- A `char` as a number -/
def charValue (c : UInt8) : Int := if signed then c.toInt8.toInt else c.toNat

/-- The character at which a string stands -/
def current (t : Bytes) : UInt8 := t.headD 0

/-- The spaces and zeros in front -/
def skipBlank : Bytes → Bytes
  | [] => []
  | c :: t => if isSpace c ∨ c = '0'.toUInt8 then skipBlank t else c :: t

/-- How a run of digits ends: with a result, or behind both runs -/
inductive Run
  | returned (result : Int)
  | done_number (bias : Int) (a b : Bytes)

/-- The loop over two runs of digits -/
def runLoop (bias : Int) (a b : Bytes) : Run :=
  let ca := current a
  let cb := current b
  if ¬ isDigit ca ∧ ¬ isDigit cb then .done_number bias a b
  else if ¬ isDigit ca then .returned (-1)
  else if ¬ isDigit cb then .returned 1
  else
    match a, b with
    | _ :: s, _ :: t =>
        if charValue signed ca < charValue signed cb then
          runLoop (if bias = 0 then -1 else bias) s t
        else if charValue signed ca > charValue signed cb then
          runLoop (if bias = 0 then 1 else bias) s t
        else if ca = 0 ∧ cb = 0 then .returned bias
        else runLoop bias s t
    -- a NUL is no digit
    | _, _ => .returned bias

/-- The loop of `u_strnatcmp`; `none` where the turns are used up. -/
def strnatcmpLoop : Nat → Bytes → Bytes → Option Int
  | 0, _, _ => none
  | fuel + 1, a, b =>
      let a := skipBlank a
      let b := skipBlank b
      let run := if isDigit (current a) ∧ isDigit (current b) then runLoop signed 0 a b
        else .done_number 0 a b
      match run with
      | .returned result => some result
      | .done_number bias a b =>
          let ca := current a
          let cb := current b
          if bias ≠ 0 then some bias
          else if ca = 0 ∧ cb = 0 then some 0
          else if charValue signed ca < charValue signed cb then some (-1)
          else if charValue signed ca > charValue signed cb then some 1
          else strnatcmpLoop fuel a.tail b.tail

/-- `u_strnatcmp`, which takes a character of `a` at least in every turn. -/
def strnatcmp (a b : Bytes) : Option Int := strnatcmpLoop signed (a.length + 1) a b

end Source

/-! ### The words of a string -/

/-- What is compared as one: a number without its leading zeros, or a character -/
inductive Word
  | number (digits : Bytes)
  | char (c : UInt8)
  deriving DecidableEq, Repr

theorem length_skipBlank_le (a : Bytes) : (skipBlank a).length ≤ a.length := by
  induction a with
  | nil => exact Nat.le_refl 0
  | cons c t ih =>
      rw [skipBlank]
      split
      · exact Nat.le_succ_of_le ih
      · exact Nat.le_refl _

theorem length_dropWhile_le (p : UInt8 → Bool) (a : Bytes) : (a.dropWhile p).length ≤ a.length :=
  (List.dropWhile_suffix p).length_le

/-- The character behind a number is a word even where it is a space. -/
def behindNumber (a : Bytes) : Bytes :=
  let a := skipBlank a
  if isDigit (current a) then a.dropWhile isDigit else a

theorem length_behindNumber_le (a : Bytes) : (behindNumber a).length ≤ a.length := by
  have hle := length_skipBlank_le a
  unfold behindNumber
  dsimp only
  split
  · exact Nat.le_trans (length_dropWhile_le isDigit _) hle
  · exact hle

/-- What is not NUL is in the string. -/
theorem ne_nil_of_current {a : Bytes} (h : current a ≠ 0) : a ≠ [] := by
  rintro rfl
  exact h rfl

theorem length_tail_behindNumber_lt {a : Bytes} (h : ¬ current (behindNumber a) = 0) :
    (behindNumber a).tail.length < a.length := by
  have hle := length_behindNumber_le a
  have hpos := List.length_pos_of_ne_nil (ne_nil_of_current h)
  rw [List.length_tail]
  omega

/-- The number that a string begins with, if it does -/
def leadingNumber (a : Bytes) : List Word :=
  let a := skipBlank a
  if isDigit (current a) then [.number (a.takeWhile isDigit)] else []

/-- The words of a string, its NUL the last one -/
def words (a : Bytes) : List Word :=
  leadingNumber a ++
    .char (current (behindNumber a)) ::
      if current (behindNumber a) = 0 then [] else words (behindNumber a).tail
termination_by a.length
decreasing_by exact length_tail_behindNumber_lt ‹_›

/-! ### The order of the words -/

section Order

variable (signed : Bool)

/-- A number stands where the digits stand. -/
def place : Word → Int
  | .number _ => 48
  | .char c => charValue signed c

def digits : Word → Bytes
  | .number w => w
  | .char _ => []

/-- The place, then the length of a number, then its digits -/
def compareWord : Word → Word → Ordering :=
  compareLex (compareOn (place signed)) (compareLex (compareOn fun v => (digits v).length)
    (compareOn fun v => (digits v).map (charValue signed)))

/-- The order of strings -/
def compareStrings (a b : Bytes) : Ordering :=
  List.compareLex (compareWord signed) (words a) (words b)

instance : TransCmp (compareWord signed) := by
  unfold compareWord
  infer_instance

end Order

/-- The result for an ordering -/
def sign : Ordering → Int
  | .lt => -1
  | .eq => 0
  | .gt => 1

/-! ### The characters -/

variable {signed : Bool}

theorem charValue_inj {c d : UInt8} (h : charValue signed c = charValue signed d) : c = d := by
  cases signed with
  | false => exact UInt8.toNat_inj.mp (Int.ofNat.inj h)
  | true =>
      have h8 : c.toInt8 = d.toInt8 := Int8.toInt_inj.mp h
      exact congrArg Int8.toUInt8 h8

theorem isDigit_iff :
    ∀ c : UInt8, isDigit c ↔ 48 ≤ charValue signed c ∧ charValue signed c ≤ 57 := by
  cases signed with
  | false => exact forall_byte (by decide +kernel)
  | true => exact forall_byte (by decide +kernel)

/-! ### The runs of digits -/

/-- The digits of a run, as they are compared -/
def run (signed : Bool) (a : Bytes) : List Int := (a.takeWhile isDigit).map (charValue signed)

theorem current_nil : current [] = 0 := rfl

theorem current_cons (c : UInt8) (t : Bytes) : current (c :: t) = c := rfl

theorem not_isDigit_zero : ¬ isDigit 0 = true := by decide

theorem takeWhile_of_not {a : Bytes} (h : ¬ isDigit (current a) = true) :
    a.takeWhile isDigit = [] ∧ a.dropWhile isDigit = a := by
  cases a with
  | nil => exact ⟨rfl, rfl⟩
  | cons c t =>
      rw [current_cons] at h
      rw [List.takeWhile_cons_of_neg h, List.dropWhile_cons_of_neg h]
      exact ⟨rfl, rfl⟩

theorem run_of_not {a : Bytes} (h : ¬ isDigit (current a) = true) : run signed a = [] := by
  rw [run, (takeWhile_of_not h).1, List.map_nil]

theorem run_cons {c : UInt8} {t : Bytes} (h : isDigit c = true) :
    run signed (c :: t) = charValue signed c :: run signed t := by
  rw [run, List.takeWhile_cons_of_pos h, List.map_cons, run]

theorem exists_cons_of_isDigit {a : Bytes} (h : isDigit (current a) = true) :
    ∃ c t, a = c :: t ∧ isDigit c = true := by
  cases a with
  | nil => exact absurd h not_isDigit_zero
  | cons c t => exact ⟨c, t, rfl, h⟩

/-- The bias behind two digits -/
def nextBias (bias x y : Int) : Int :=
  if x < y then if bias = 0 then -1 else bias
  else if x > y then if bias = 0 then 1 else bias
  else bias

/-- What two runs of one length give behind a bias -/
def decided (bias : Int) (r s : List Int) : Int := if bias ≠ 0 then bias else sign (compare r s)

theorem decided_cons (bias x y : Int) (r s : List Int) :
    decided bias (x :: r) (y :: s) = decided (nextBias bias x y) r s := by
  unfold decided nextBias
  rw [List.compare_cons_cons]
  rcases lt_trichotomy x y with h | rfl | h
  · rw [Int.compare_eq_lt.mpr h, if_pos h]
    by_cases hbias : bias = 0
    · simp [hbias, sign]
    · simp [hbias]
  · simp
  · have hle : ¬ x < y := by omega
    rw [Int.compare_eq_gt.mpr h, if_neg hle, if_pos h]
    by_cases hbias : bias = 0
    · simp [hbias, sign]
    · simp [hbias]

theorem runLoop_digits {c d : UInt8} (hc : isDigit c = true) (hd : isDigit d = true) (bias : Int)
    (s t : Bytes) : runLoop signed bias (c :: s) (d :: t) =
      runLoop signed (nextBias bias (charValue signed c) (charValue signed d)) s t := by
  have hzero : ¬ (c = 0 ∧ d = 0) := by
    rintro ⟨rfl, -⟩
    exact not_isDigit_zero hc
  rw [runLoop, nextBias]
  simp only [current_cons, hc, hd, not_true_eq_false, and_false, if_false, hzero]
  split
  · rfl
  · split <;> rfl

/-- The longer run is the greater one, and of two runs of one length the first difference counts. -/
theorem runLoop_eq (bias : Int) (a b : Bytes) : runLoop signed bias a b =
    if (run signed a).length < (run signed b).length then .returned (-1)
    else if (run signed b).length < (run signed a).length then .returned 1
    else .done_number (decided bias (run signed a) (run signed b)) (a.dropWhile isDigit)
      (b.dropWhile isDigit) := by
  induction a generalizing bias b with
  | nil =>
      unfold runLoop
      by_cases hb : isDigit (current b) = true
      · obtain ⟨d, t, rfl, hd⟩ := exists_cons_of_isDigit hb
        simp [current_nil, current_cons, hd, not_isDigit_zero, run_of_not, run_cons]
      · simp [current_nil, hb, not_isDigit_zero, run_of_not, (takeWhile_of_not hb).2, decided, sign]
  | cons c s ih =>
      by_cases hc : isDigit c = true
      · by_cases hb : isDigit (current b) = true
        · obtain ⟨d, t, rfl, hd⟩ := exists_cons_of_isDigit hb
          rw [runLoop_digits hc hd, ih, run_cons hc, run_cons hd, decided_cons,
            List.dropWhile_cons_of_pos hc, List.dropWhile_cons_of_pos hd]
          simp only [List.length_cons, Nat.add_lt_add_iff_right]
        · unfold runLoop
          simp [current_cons, hc, hb, run_of_not, run_cons]
      · have hc' : ¬ isDigit (current (c :: s)) = true := hc
        unfold runLoop
        by_cases hb : isDigit (current b) = true
        · obtain ⟨d, t, rfl, hd⟩ := exists_cons_of_isDigit hb
          simp [current_cons, hc, hd, run_of_not hc', run_cons hd]
        · simp [current_cons, hc, hb, run_of_not hc', run_of_not hb, (takeWhile_of_not hb).2,
            (takeWhile_of_not hc').2, decided, sign]

/-! ### The whole loop -/

/-- The words behind a character -/
def follow (a : Bytes) : List Word := if current a = 0 then [] else words a.tail

theorem words_char {a : Bytes} (h : ¬ isDigit (current (skipBlank a)) = true) :
    words a = .char (current (skipBlank a)) :: follow (skipBlank a) := by
  have hbehind : behindNumber a = skipBlank a := if_neg h
  have hleading : leadingNumber a = [] := if_neg h
  rw [words, hleading, hbehind, List.nil_append, follow]

theorem words_number {a : Bytes} (h : isDigit (current (skipBlank a)) = true) :
    words a = .number ((skipBlank a).takeWhile isDigit) ::
      .char (current ((skipBlank a).dropWhile isDigit)) ::
        follow ((skipBlank a).dropWhile isDigit) := by
  have hbehind : behindNumber a = (skipBlank a).dropWhile isDigit := if_pos h
  have hleading : leadingNumber a = [.number ((skipBlank a).takeWhile isDigit)] := if_pos h
  rw [words, hleading, hbehind, List.singleton_append, follow]

theorem compareWord_char (c d : UInt8) : compareWord signed (.char c) (.char d) =
    compare (charValue signed c) (charValue signed d) := by
  simp [compareWord, compareLex, compareOn, place, digits]

theorem compareWord_number (v w : Bytes) : compareWord signed (.number v) (.number w) =
    (compare v.length w.length).then
      (compare (v.map (charValue signed)) (w.map (charValue signed))) := by
  simp [compareWord, compareLex, compareOn, place, digits]

/-- A number and a character that is no digit are told apart by their places. -/
theorem compareWord_mixed {c d : UInt8} (hc : isDigit c = true) (hd : ¬ isDigit d = true)
    (w : Bytes) :
    (compareWord signed (.number w) (.char d) =
      if charValue signed c < charValue signed d then .lt else .gt) ∧
    compareWord signed (.char d) (.number w) =
      if charValue signed d < charValue signed c then .lt else .gt := by
  have hc' := (@isDigit_iff signed c).mp hc
  have hd' := mt (@isDigit_iff signed d).mpr hd
  simp only [compareWord, compareLex, compareOn, place]
  by_cases hlt : charValue signed d < 48
  · rw [Int.compare_eq_gt.mpr hlt, Int.compare_eq_lt.mpr hlt, if_neg (by omega),
      if_pos (by omega)]
    exact ⟨rfl, rfl⟩
  · have hgt : 48 < charValue signed d := by omega
    rw [Int.compare_eq_lt.mpr hgt, Int.compare_eq_gt.mpr hgt, if_pos (by omega),
      if_neg (by omega)]
    exact ⟨rfl, rfl⟩

/-- The end of a turn: two characters, and what follows them -/
theorem turn_char {fuel : Nat} {a b : Bytes}
    (ih : ∀ s t : Bytes, s.length < fuel →
      strnatcmpLoop signed fuel s t = some (sign (compareStrings signed s t)))
    (hfuel : a.length ≤ fuel) :
    (if current a = 0 ∧ current b = 0 then some 0
      else if charValue signed (current a) < charValue signed (current b) then some (-1)
      else if charValue signed (current a) > charValue signed (current b) then some 1
      else strnatcmpLoop signed fuel a.tail b.tail) =
    some (sign (List.compareLex (compareWord signed) (.char (current a) :: follow a)
      (.char (current b) :: follow b))) := by
  rw [List.compareLex_cons_cons, compareWord_char]
  rcases lt_trichotomy (charValue signed (current a)) (charValue signed (current b)) with h | h | h
  · have hne : ¬ (current a = 0 ∧ current b = 0) := by
      rintro ⟨ha, hb⟩
      rw [ha, hb] at h
      exact lt_irrefl _ h
    rw [if_neg hne, if_pos h, Int.compare_eq_lt.mpr h]
    rfl
  · have heq := charValue_inj h
    rw [heq, Std.ReflOrd.compare_self, if_neg (lt_irrefl _), if_neg (lt_irrefl _), Ordering.eq_then,
      follow, follow, heq]
    by_cases hzero : current b = 0
    · rw [if_pos ⟨hzero, hzero⟩, if_pos hzero, if_pos hzero]
      rfl
    · have hpos := List.length_pos_of_ne_nil (ne_nil_of_current (heq ▸ hzero))
      rw [if_neg (fun h => hzero h.1), if_neg hzero, if_neg hzero]
      exact ih a.tail b.tail (by rw [List.length_tail]; omega)
  · have hne : ¬ (current a = 0 ∧ current b = 0) := by
      rintro ⟨ha, hb⟩
      rw [ha, hb] at h
      exact lt_irrefl _ h
    rw [if_neg hne, if_neg (not_lt.mpr h.le), if_pos h, Int.compare_eq_gt.mpr h]
    rfl

/-- The end of a turn: two characters that differ -/
theorem turn_ne {c d : UInt8} (h : c ≠ d) (next : Option Int) (o : Ordering) :
    (if c = 0 ∧ d = 0 then some 0
      else if charValue signed c < charValue signed d then some (-1)
      else if charValue signed c > charValue signed d then some 1
      else next) =
      some (sign
        ((if charValue signed c < charValue signed d then Ordering.lt else .gt).then o)) := by
  rw [if_neg (fun hzero => h (hzero.1.trans hzero.2.symm))]
  split
  · rfl
  · next hge =>
    have hne : charValue signed c ≠ charValue signed d := mt charValue_inj h
    rw [if_pos (by omega)]
    rfl

theorem compare_cases (m n : Nat) : m < n ∧ compare m n = .lt ∨ n < m ∧ compare m n = .gt ∨
    m = n ∧ compare m n = .eq := by
  rcases lt_trichotomy m n with h | h | h
  · exact .inl ⟨h, Nat.compare_eq_lt.mpr h⟩
  · exact .inr (.inr ⟨h, Nat.compare_eq_eq.mpr h⟩)
  · exact .inr (.inl ⟨h, Nat.compare_eq_gt.mpr h⟩)

/-- The loop decides the order of the words. -/
theorem strnatcmpLoop_eq {fuel : Nat} (a b : Bytes) (hfuel : a.length < fuel) :
    strnatcmpLoop signed fuel a b = some (sign (compareStrings signed a b)) := by
  induction fuel generalizing a b with
  | zero => exact absurd hfuel (Nat.not_lt_zero _)
  | succ fuel ih =>
      have hskip := length_skipBlank_le a
      have hdrop := length_dropWhile_le isDigit (skipBlank a)
      rw [strnatcmpLoop, compareStrings]
      dsimp only
      by_cases ha : isDigit (current (skipBlank a)) = true
      · by_cases hb : isDigit (current (skipBlank b)) = true
        · rw [if_pos ⟨ha, hb⟩, runLoop_eq, words_number ha, words_number hb,
            List.compareLex_cons_cons, compareWord_number, run, run, List.length_map,
            List.length_map]
          rcases compare_cases ((skipBlank a).takeWhile isDigit).length
            ((skipBlank b).takeWhile isDigit).length with ⟨hlt, heq⟩ | ⟨hlt, heq⟩ | ⟨hlt, heq⟩
          · rw [if_pos hlt, heq]
            rfl
          · rw [if_neg (Nat.lt_asymm hlt), if_pos hlt, heq]
            rfl
          · rw [if_neg hlt.not_lt, if_neg hlt.symm.not_lt, heq, Ordering.eq_then]
            dsimp only
            rw [decided, if_neg (not_not.mpr rfl)]
            cases hvalues : compare (((skipBlank a).takeWhile isDigit).map (charValue signed))
              (((skipBlank b).takeWhile isDigit).map (charValue signed)) with
            | lt => rfl
            | gt => rfl
            | eq => exact turn_char (fun s t h => ih s t h) (by omega)
        · rw [if_neg (fun h => hb h.2), words_number ha, words_char hb, List.compareLex_cons_cons,
            (compareWord_mixed ha hb _).1]
          exact turn_ne (fun h => hb (by rw [← h]; exact ha)) _ _
      · rw [if_neg (fun h => ha h.1), words_char ha]
        by_cases hb : isDigit (current (skipBlank b)) = true
        · rw [words_number hb, List.compareLex_cons_cons, (compareWord_mixed hb ha _).2]
          exact turn_ne (fun h => ha (by rw [h]; exact hb)) _ _
        · rw [words_char hb]
          exact turn_char (fun s t h => ih s t h) (by omega)

theorem strnatcmp_eq (a b : Bytes) :
    strnatcmp signed a b = some (sign (compareStrings signed a b)) :=
  strnatcmpLoop_eq a b (Nat.lt_succ_self _)

theorem compareStrings_swap (a b : Bytes) :
    compareStrings signed a b = (compareStrings signed b a).swap :=
  show List.compareLex (compareWord signed) (words a) (words b) =
    (List.compareLex (compareWord signed) (words b) (words a)).swap from Std.OrientedCmp.eq_swap

theorem compareStrings_trans {a b c : Bytes} (hab : (compareStrings signed a b).isLE)
    (hbc : (compareStrings signed b c).isLE) : (compareStrings signed a c).isLE := by
  have h : (List.compareLex (compareWord signed) (words a) (words c)).isLE :=
    TransCmp.isLE_trans hab hbc
  exact h

theorem sign_swap (o : Ordering) : sign o.swap = -sign o := by
  cases o <;> rfl

theorem sign_nonpos {o : Ordering} : sign o ≤ 0 ↔ o.isLE := by
  cases o <;> decide

/-- The comparison returns, its sign turns with the arguments, and it is transitive. -/
theorem strnatcmp_preorder (signed : Bool) (a b c : Bytes) : ∃ ab ba bc ac,
    strnatcmp signed a b = some ab ∧ strnatcmp signed b a = some ba ∧
      strnatcmp signed b c = some bc ∧ strnatcmp signed a c = some ac ∧
      ab = -ba ∧ (ab ≤ 0 → bc ≤ 0 → ac ≤ 0) := by
  refine ⟨_, _, _, _, strnatcmp_eq a b, strnatcmp_eq b a, strnatcmp_eq b c, strnatcmp_eq a c,
    ?_, ?_⟩
  · rw [compareStrings_swap, sign_swap]
  · intro hab hbc
    exact sign_nonpos.mpr (compareStrings_trans (sign_nonpos.mp hab) (sign_nonpos.mp hbc))

/-- Leading zeros and spaces do not count, and numbers are compared as such. -/
example : strnatcmp true [0x66, 0x20, 0x30, 0x39] [0x66, 0x31, 0x30] = some (-1) := by
  decide +kernel

end ULib.NaturalOrder
