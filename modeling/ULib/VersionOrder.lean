import Mathlib.Algebra.Group.Nat.Defs
import Mathlib.Data.List.Lex
import Mathlib.Data.Prod.Lex
import ULib.EscapeCoding

/-!
`UStringExt::compareversion` of `utility/string_ext.cpp` and
`UStringExt::qscompver`, the order in which it puts version numbers, and when
that is transitive.
-/

namespace ULib.VersionOrder

open ULib.KeyComparison
open ULib.EscapeCoding

/-! ### compareversion -/

/-- The comparison of two parts of the same kind in the loop of `compareversion`. -/
def comparePart (isnum : Bool) (s t : Bytes) : Int :=
  let s := if isnum then s.dropWhile (· = '0'.toUInt8) else s
  let t := if isnum then t.dropWhile (· = '0'.toUInt8) else t
  if isnum ∧ t.length < s.length then 1
  else if isnum ∧ s.length < t.length then -1
  else
    let cval := memcmp (min s.length t.length) s t
    if cval ≠ 0 then if cval < 1 then -1 else 1 else 0

/-- The loop, on what is behind `apos2` and `bpos2`. -/
def compareLoop (a b : Bytes) : Int :=
  match a with
  | [] => if b = [] then 0 else -1
  | c :: a' =>
      if b = [] then 1
      else
        let isnum := isDigit c
        let s := (c :: a').takeWhile fun d => isDigit d = isnum
        let t := b.takeWhile fun d => isDigit d = isnum
        if t = [] then if isnum then 1 else -1
        else
          let r := comparePart isnum s t
          if r ≠ 0 then r
          else
            compareLoop ((c :: a').dropWhile fun d => isDigit d = isnum)
              (b.dropWhile fun d => isDigit d = isnum)
termination_by a.length
decreasing_by
  rw [List.dropWhile_cons_of_pos (by simp)]
  exact Nat.lt_succ_of_le (List.dropWhile_sublist _).length_le

/-- Two strings at one address are the same string, and equal. -/
def compareversion (a b : Bytes) : Int := compareLoop a b

def qscompver (p q : Bytes) : Int := compareversion p q

/-! ### The parts of a version number -/

/-- The longest runs of digits and of other characters. -/
def parts : Bytes → List Bytes
  | [] => []
  | c :: t =>
      match parts t with
      | (d :: s) :: ss =>
          if isDigit d = isDigit c then (c :: d :: s) :: ss else [c] :: (d :: s) :: ss
      | _ => [[c]]

def isNumber : Bytes → Bool
  | [] => false
  | c :: _ => isDigit c

def compareParts : List Bytes → List Bytes → Int
  | [], [] => 0
  | [], _ :: _ => -1
  | _ :: _, [] => 1
  | s :: ss, t :: ts =>
      if isNumber t = isNumber s then
        let r := comparePart (isNumber s) s t
        if r ≠ 0 then r else compareParts ss ts
      else if isNumber s then 1 else -1

/-- How a part is to be ordered: before every number, or as a number. -/
def partKey (s : Bytes) : ℕ ×ₗ List ℕ :=
  if isNumber s then
    let s := s.dropWhile (· = '0'.toUInt8)
    toLex (s.length + 1, s.map UInt8.toNat)
  else toLex (0, s.map UInt8.toNat)

/-- The comparison does not come to two parts that are no numbers, one of which is a proper prefix
of the other. -/
def Clear : List Bytes → List Bytes → Prop
  | s :: ss, t :: ts =>
      (isNumber s = false → isNumber t = false → (s <+: t ∨ t <+: s) → s = t) ∧
        (partKey s = partKey t → Clear ss ts)
  | _, _ => True

instance decidableClear : (ss ts : List Bytes) → Decidable (Clear ss ts)
  | [], _ => isTrue trivial
  | _ :: _, [] => isTrue trivial
  | s :: ss, t :: ts =>
      have := decidableClear ss ts
      inferInstanceAs (Decidable
        ((isNumber s = false → isNumber t = false → (s <+: t ∨ t <+: s) → s = t) ∧
          (partKey s = partKey t → Clear ss ts)))

/-- What a sort relies on, of three version numbers. -/
def Ordered (a b c : Bytes) : Prop :=
  compareversion b a = -compareversion a b ∧
    (compareversion a b ≤ 0 → compareversion b c ≤ 0 → compareversion a c ≤ 0)

instance (a b c : Bytes) : Decidable (Ordered a b c) := inferInstanceAs (Decidable (_ ∧ _))

theorem parts_cons (c : UInt8) (t : Bytes) :
    parts (c :: t) = ((c :: t).takeWhile fun d => isDigit d = isDigit c) ::
      parts ((c :: t).dropWhile fun d => isDigit d = isDigit c) := by
  induction t generalizing c with
  | nil => simp [parts]
  | cons d t ih =>
      have htake : (c :: d :: t).takeWhile (fun e => decide (isDigit e = isDigit c)) =
          c :: (d :: t).takeWhile fun e => isDigit e = isDigit c :=
        List.takeWhile_cons_of_pos (by simp)
      have hdrop : (c :: d :: t).dropWhile (fun e => decide (isDigit e = isDigit c)) =
          (d :: t).dropWhile fun e => isDigit e = isDigit c :=
        List.dropWhile_cons_of_pos (by simp)
      have hfirst : (d :: t).takeWhile (fun e => decide (isDigit e = isDigit d)) =
          d :: t.takeWhile fun e => isDigit e = isDigit d :=
        List.takeWhile_cons_of_pos (by simp)
      rw [htake, hdrop, parts, ih d, hfirst]
      dsimp only
      split_ifs with hsame
      · rw [← hsame, hfirst]
      · have htake' : (d :: t).takeWhile (fun e => decide (isDigit e = isDigit c)) = [] :=
          List.takeWhile_cons_of_neg (by simpa using hsame)
        have hdrop' : (d :: t).dropWhile (fun e => decide (isDigit e = isDigit c)) = d :: t :=
          List.dropWhile_cons_of_neg (by simpa using hsame)
        rw [htake', hdrop', ih d, hfirst]

theorem isNumber_takeWhile (c : UInt8) (t : Bytes) (p : UInt8 → Bool) (hp : p c = true) :
    isNumber ((c :: t).takeWhile p) = isDigit c := by
  rw [List.takeWhile_cons_of_pos hp, isNumber]

theorem compareLoop_eq (a b : Bytes) : compareLoop a b = compareParts (parts a) (parts b) := by
  induction hn : a.length using Nat.strong_induction_on generalizing a b with
  | _ n ih =>
      rw [compareLoop.eq_def]
      cases a with
      | nil =>
          cases b with
          | nil => rfl
          | cons d b => rw [parts_cons]; rfl
      | cons c a =>
          rw [parts_cons c a]
          cases b with
          | nil => rfl
          | cons d b =>
              rw [parts_cons d b, compareParts, isNumber_takeWhile c a _ (by simp),
                isNumber_takeWhile d b _ (by simp)]
              dsimp only
              rw [if_neg (List.cons_ne_nil d b)]
              by_cases hsame : isDigit d = isDigit c
              · rw [hsame, if_pos rfl, List.takeWhile_cons_of_pos (by simpa using hsame),
                  if_neg (List.cons_ne_nil _ _)]
                split_ifs with hr
                · rfl
                · refine ih _ ?_ _ _ rfl
                  rw [← hn, List.dropWhile_cons_of_pos (by simp)]
                  exact Nat.lt_succ_of_le (List.dropWhile_sublist _).length_le
              · rw [if_neg hsame, List.takeWhile_cons_of_neg (by simpa using hsame), if_pos rfl]

/-! ### Opposite signs -/

theorem memcmp_swap (n : Nat) (s t : Bytes) : memcmp n t s = -memcmp n s t := by
  induction n generalizing s t with
  | zero => simp [memcmp]
  | succ n ih =>
      rcases s with - | ⟨a, s⟩ <;> rcases t with - | ⟨b, t⟩
      · rfl
      · rfl
      · rfl
      · rcases byte_trichotomy a b with hlt | rfl | hlt
        · simp [memcmp, hlt, UInt8.lt_asymm hlt]
        · simp [memcmp, ih s t]
        · simp [memcmp, hlt, UInt8.lt_asymm hlt]

/-- `memcmp` gives no other results here. -/
theorem memcmp_cases (n : Nat) (s t : Bytes) :
    memcmp n s t = -1 ∨ memcmp n s t = 0 ∨ memcmp n s t = 1 := by
  induction n generalizing s t with
  | zero => exact Or.inr (Or.inl rfl)
  | succ n ih =>
      rcases s with - | ⟨a, s⟩ <;> rcases t with - | ⟨b, t⟩
      · exact Or.inr (Or.inl rfl)
      · exact Or.inr (Or.inl rfl)
      · exact Or.inr (Or.inl rfl)
      · rw [memcmp]
        split_ifs
        · exact Or.inl rfl
        · exact Or.inr (Or.inr rfl)
        · exact ih s t

/-- A part without its leading zeros, if it is a number. -/
def stripped (isnum : Bool) (s : Bytes) : Bytes :=
  if isnum then s.dropWhile (· = '0'.toUInt8) else s

theorem comparePart_number {s t : Bytes} :
    comparePart true s t =
      if (stripped true t).length < (stripped true s).length then 1
      else if (stripped true s).length < (stripped true t).length then -1
      else memcmp (stripped true s).length (stripped true s) (stripped true t) := by
  simp only [comparePart, stripped, true_and, if_true]
  split_ifs with hlt hlt' hne hneg
  · rfl
  · rfl
  · have hcases := memcmp_cases (min (s.dropWhile (· = '0'.toUInt8)).length
      (t.dropWhile (· = '0'.toUInt8)).length) (s.dropWhile (· = '0'.toUInt8))
      (t.dropWhile (· = '0'.toUInt8))
    rw [Nat.min_eq_left (Nat.not_lt.mp hlt)] at hcases hne hneg
    omega
  · have hcases := memcmp_cases (min (s.dropWhile (· = '0'.toUInt8)).length
      (t.dropWhile (· = '0'.toUInt8)).length) (s.dropWhile (· = '0'.toUInt8))
      (t.dropWhile (· = '0'.toUInt8))
    rw [Nat.min_eq_left (Nat.not_lt.mp hlt)] at hcases hne hneg
    omega
  · rw [Nat.min_eq_left (Nat.not_lt.mp hlt)] at hne
    exact (not_not.mp hne).symm

theorem comparePart_text {s t : Bytes} :
    comparePart false s t = memcmp (min s.length t.length) s t := by
  have hcases := memcmp_cases (min s.length t.length) s t
  simp only [comparePart, Bool.false_eq_true, false_and, if_false]
  split_ifs with hne hneg
  · omega
  · omega
  · exact (not_not.mp hne).symm

theorem comparePart_swap (isnum : Bool) (s t : Bytes) :
    comparePart isnum t s = -comparePart isnum s t := by
  cases isnum with
  | true =>
      rw [comparePart_number, comparePart_number]
      rcases Nat.lt_trichotomy (stripped true s).length (stripped true t).length with h | h | h
      · rw [if_pos h, if_neg (Nat.lt_asymm h), if_pos h, Int.neg_neg]
      · rw [if_neg h.not_lt, if_neg h.not_gt, if_neg h.not_gt, if_neg h.not_lt, h, memcmp_swap]
      · rw [if_neg (Nat.lt_asymm h), if_pos h, if_pos h]
  | false => rw [comparePart_text, comparePart_text, Nat.min_comm, memcmp_swap]

theorem compareParts_swap (ss ts : List Bytes) : compareParts ts ss = -compareParts ss ts := by
  induction ss generalizing ts with
  | nil => cases ts <;> rfl
  | cons s ss ih =>
      cases ts with
      | nil => rfl
      | cons t ts =>
          rw [compareParts, compareParts]
          by_cases hsame : isNumber t = isNumber s
          · rw [if_pos hsame, if_pos hsame.symm, hsame]
            dsimp only
            rw [comparePart_swap]
            split_ifs with hleft hright
            · rfl
            · exact absurd (Int.neg_ne_zero.mp hleft) hright
            · exact absurd (Int.neg_ne_zero.mpr ‹_›) hleft
            · exact ih ts
          · rw [if_neg hsame, if_neg (Ne.symm hsame)]
            cases hs : isNumber s <;> cases ht : isNumber t
            · exact absurd (ht.trans hs.symm) hsame
            · rfl
            · rfl
            · exact absurd (ht.trans hs.symm) hsame

theorem compareversion_swap (a b : Bytes) : compareversion b a = -compareversion a b := by
  rw [compareversion, compareversion, compareLoop_eq, compareLoop_eq, compareParts_swap]

/-! ### The order -/

theorem map_toNat_inj {s t : Bytes} : s.map UInt8.toNat = t.map UInt8.toNat ↔ s = t :=
  (List.map_injective_iff.mpr fun _ _ => UInt8.toNat_inj.mp).eq_iff

theorem memcmp_lex {s t : Bytes} (h : s <+: t ∨ t <+: s → s = t) :
    (memcmp (min s.length t.length) s t < 0 ↔ s.map UInt8.toNat < t.map UInt8.toNat) ∧
      (memcmp (min s.length t.length) s t = 0 ↔ s = t) := by
  induction s generalizing t with
  | nil =>
      obtain rfl := h (Or.inl List.nil_prefix)
      simp [memcmp]
  | cons a s ih =>
      cases t with
      | nil => cases h (Or.inr List.nil_prefix)
      | cons b t =>
          rw [List.length_cons, List.length_cons, Nat.succ_min_succ, memcmp, List.map_cons,
            List.map_cons, List.cons_lt_cons_iff]
          rcases byte_trichotomy a b with hlt | rfl | hlt
          · have hne : a ≠ b := UInt8.ne_of_lt hlt
            simp [hlt, hne, UInt8.lt_iff_toNat_lt.mp hlt]
          · have hs : s <+: t ∨ t <+: s → s = t := by
              intro hprefix
              refine (List.cons.inj (h ?_)).2
              simpa only [List.cons_prefix_cons, true_and] using hprefix
            obtain ⟨hneg, hzero⟩ := ih hs
            simp [hneg, hzero]
          · have hne : a ≠ b := (UInt8.ne_of_lt hlt).symm
            have hnat := UInt8.lt_iff_toNat_lt.mp hlt
            rw [if_neg (UInt8.lt_asymm hlt), if_pos hlt]
            simp [hne, hnat.not_gt, hnat.ne']

theorem partKey_number {s : Bytes} (hs : isNumber s = true) :
    partKey s = toLex ((stripped true s).length + 1, (stripped true s).map UInt8.toNat) := by
  rw [partKey, if_pos hs, stripped, if_pos rfl]

theorem partKey_text {s : Bytes} (hs : isNumber s = false) :
    partKey s = toLex (0, s.map UInt8.toNat) := by
  rw [partKey, if_neg (by simp [hs])]

theorem comparePart_key {s t : Bytes} (hsame : isNumber t = isNumber s)
    (hclear : isNumber s = false → isNumber t = false → s <+: t ∨ t <+: s → s = t) :
    (comparePart (isNumber s) s t < 0 ↔ partKey s < partKey t) ∧
      (comparePart (isNumber s) s t = 0 ↔ partKey s = partKey t) := by
  cases hs : isNumber s with
  | true =>
      rw [hs] at hsame
      rw [comparePart_number, partKey_number hs, partKey_number hsame, Prod.Lex.toLex_lt_toLex,
        toLex_inj, Prod.mk.injEq, Nat.add_lt_add_iff_right, Nat.add_right_cancel_iff]
      dsimp only
      rcases Nat.lt_trichotomy (stripped true s).length (stripped true t).length with h | h | h
      · simp [h, h.ne, Nat.lt_asymm h]
      · -- of two blocks of one length neither is a proper prefix
        obtain ⟨hneg, hzero⟩ := @memcmp_lex (stripped true s) (stripped true t) fun hprefix =>
          hprefix.elim (·.eq_of_length h) fun hp => (hp.eq_of_length h.symm).symm
        rw [← h, Nat.min_self] at hneg hzero
        simp [h.symm, hneg, hzero, map_toNat_inj]
      · simp [h, h.ne', Nat.lt_asymm h]
  | false =>
      rw [hs] at hsame
      obtain ⟨hneg, hzero⟩ := memcmp_lex (hclear hs hsame)
      rw [comparePart_text, partKey_text hs, partKey_text hsame, Prod.Lex.toLex_lt_toLex, toLex_inj,
        Prod.mk.injEq, hneg, hzero, map_toNat_inj]
      simp

theorem cons_le_cons_iff {α : Type*} [LinearOrder α] {a b : α} {l m : List α} :
    a :: l ≤ b :: m ↔ a < b ∨ a = b ∧ l ≤ m := by
  rw [← not_lt, List.cons_lt_cons_iff, ← not_lt, not_or, not_and, not_lt]
  constructor
  · rintro ⟨hle, hnot⟩
    rcases hle.lt_or_eq with hlt | rfl
    · exact Or.inl hlt
    · exact Or.inr ⟨rfl, hnot rfl⟩
  · rintro (hlt | ⟨rfl, hnot⟩)
    · exact ⟨hlt.le, fun h => absurd h hlt.ne'⟩
    · exact ⟨le_rfl, fun _ => hnot⟩

theorem compareParts_le {ss ts : List Bytes} (h : Clear ss ts) :
    compareParts ss ts ≤ 0 ↔ ss.map partKey ≤ ts.map partKey := by
  induction ss generalizing ts with
  | nil =>
      have hle : [].map partKey ≤ ts.map partKey := not_lt.mp (List.not_lt_nil _)
      refine iff_of_true ?_ hle
      cases ts <;> simp [compareParts]
  | cons s ss ih =>
      cases ts with
      | nil =>
          have hlt : [].map partKey < (s :: ss).map partKey := List.nil_lt_cons _ _
          exact iff_of_false (by simp [compareParts]) hlt.not_ge
      | cons t ts =>
          obtain ⟨hclear, hrest⟩ := h
          rw [compareParts, List.map_cons, List.map_cons, cons_le_cons_iff]
          by_cases hsame : isNumber t = isNumber s
          · obtain ⟨hneg, hzero⟩ := comparePart_key hsame hclear
            rw [if_pos hsame, ← hneg, ← hzero]
            dsimp only
            split_ifs with hr
            · omega
            · rw [not_not] at hr
              rw [ih (hrest (hzero.mp hr)), hr]
              simp
          · rw [if_neg hsame]
            cases hs : isNumber s <;> cases ht : isNumber t
            · exact absurd (ht.trans hs.symm) hsame
            · have hlt : partKey s < partKey t := by
                rw [partKey_text hs, partKey_number ht, Prod.Lex.toLex_lt_toLex]
                exact Or.inl (Nat.succ_pos _)
              simp [hlt]
            · have hlt : partKey t < partKey s := by
                rw [partKey_number hs, partKey_text ht, Prod.Lex.toLex_lt_toLex]
                exact Or.inl (Nat.succ_pos _)
              simp [hlt.not_gt, hlt.ne']
            · exact absurd (ht.trans hs.symm) hsame

end ULib.VersionOrder
