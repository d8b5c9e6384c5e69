import ULib.EscapeCoding
import ULib.Glob

/-!
`u_dosmatch` and `u_dosmatch_with_OR` of `base/utility.c` and their wrappers in
`utility/services.h`. A mask is a part of a longer memory, and the comparisons
do not stop at its end.
-/

namespace ULib.DosMatch

open ULib.KeyComparison
open ULib.EscapeCoding (peek forall_byte)
open ULib.Glob

/-! ### The functions -/

/-- `FNM_IGNORECASE` -/
def fnmIgnorecase : UInt32 := 0x10

/-- `FNM_INVERT` -/
def fnmInvert : UInt32 := 0x10000000

def star : UInt8 := '*'.toUInt8

def question : UInt8 := '?'.toUInt8

def bar : UInt8 := '|'.toUInt8

section Source

variable (flags : UInt32)

/-- A character of the mask or of the string, as it is compared -/
def fold (c : UInt8) : UInt8 := if flags &&& fnmIgnorecase ≠ 0 then uTolower c else c

/-- The result, with `FNM_INVERT` -/
def inverted (result : Bool) : Bool := if flags &&& fnmInvert ≠ 0 then !result else result

variable (memory : Bytes)

/-- The loop up to the first star; `none` where two characters differ. -/
def beforeStar : Bytes → Nat → Option (Bytes × Nat)
  | [], mask => some ([], mask)
  | c :: s, mask =>
      let c2 := fold flags (peek memory mask)
      if c2 = star then some (c :: s, mask)
      else if c2 ≠ fold flags c ∧ c2 ≠ question then none
      else beforeStar s (mask + 1)

/-- `while (*mask == '*') ++mask;`, where the memory ends with a NUL -/
def skipStars (mask : Nat) : Nat :=
  mask + ((memory.drop mask).takeWhile (· = star)).length

/-- The loop from the first star on; `none` where the turns are used up. -/
def matchLoop (endMask : Nat) : Nat → Bytes → Nat → Bytes → Nat → Option Bool
  | 0, _, _, _, _ => none
  | _ + 1, [], mask, _, _ => some (inverted flags (decide (endMask ≤ skipStars memory mask)))
  | turns + 1, c :: s, mask, cp, mp =>
      let c2 := fold flags (peek memory mask)
      if c2 = star then
        if mask + 1 ≥ endMask then some (inverted flags true)
        else matchLoop endMask turns (c :: s) (mask + 1) s (mask + 1)
      else if c2 = fold flags c ∨ c2 = question then matchLoop endMask turns s (mask + 1) cp mp
      else matchLoop endMask turns cp mp cp.tail mp

end Source

/-- More turns than the loop takes -/
def turns (n1 n2 : Nat) : Nat := (n2 + 1) * (n1 + 2) * (n1 + 2)

/-- `u_dosmatch`, for a mask in front of the bytes `behind`. -/
def dosmatch (s mask behind : Bytes) (flags : UInt32) : Option Bool :=
  match beforeStar flags (mask ++ behind) s 0 with
  | none => some (inverted flags false)
  | some (s', p) =>
      matchLoop flags (mask ++ behind) mask.length (turns s.length mask.length) s' p [] 0

theorem length_drop_lt {mask : Bytes} (h : bar ∈ mask) (i : Nat) :
    (mask.drop (i + 1)).length < mask.length := by
  have hpos := List.length_pos_of_mem h
  rw [List.length_drop]
  omega

/-- `u_dosmatch_with_OR` -/
def dosmatchWithOR (s mask behind : Bytes) (flags : UInt32) : Option Bool :=
  if bar ∈ mask then
    let p_or := mask.idxOf bar
    (dosmatch s (mask.take p_or) (mask.drop p_or ++ behind) flags).bind fun result =>
      if flags &&& fnmInvert ≠ 0 then
        if result = false then some false
        else dosmatchWithOR s (mask.drop (p_or + 1)) behind flags
      else if result then some true
      else dosmatchWithOR s (mask.drop (p_or + 1)) behind flags
  else dosmatch s mask behind flags
termination_by mask.length
decreasing_by all_goals exact length_drop_lt ‹bar ∈ mask› _

/-! The wrappers of `UServices`; the second ones are for masks of type `UString`. -/

def dosMatch (s mask behind : Bytes) (flags : UInt32) : Option Bool := dosmatch s mask behind flags

def dosMatchString (_ mask behind : Bytes) (flags : UInt32) : Option Bool :=
  dosmatch mask mask behind flags

def dosMatchWithOR (s mask behind : Bytes) (flags : UInt32) : Option Bool :=
  dosmatchWithOR s mask behind flags

def dosMatchWithORString (s mask behind : Bytes) (flags : UInt32) : Option Bool :=
  dosmatchWithOR s mask behind flags

/-! ### What they should be -/

def isStar (m : UInt8) : Bool := m = star

/-- A question mark is for any character, and all others for themselves, up to the case. -/
def fits (fold : UInt8 → UInt8) (m c : UInt8) : Bool := m = question || fold m = fold c

/-- The letters that are not told apart -/
def asciiFold (flags : UInt32) (c : UInt8) : UInt8 :=
  if flags &&& fnmIgnorecase ≠ 0 then tolower c else c

def Matched (flags : UInt32) (mask s : Bytes) : Bool :=
  glob isStar (fits (asciiFold flags)) mask s

/-- Any of the masks between the bars -/
def MatchedOR (flags : UInt32) (mask s : Bytes) : Bool :=
  (mask.splitOn bar).any fun w => Matched flags w s

/-! ### The loop -/

theorem fold_eq_iff (flags : UInt32) : ∀ c, (fold flags c = star ↔ c = star) ∧
    (fold flags c = question ↔ c = question) := by
  unfold fold
  split
  · exact forall_byte (by decide +kernel)
  · exact fun c => ⟨Iff.rfl, Iff.rfl⟩

/-- The test of the loop is that of the mask. -/
theorem fits_iff (flags : UInt32) (m c : UInt8) :
    fits (fold flags) m c = true ↔ fold flags m = fold flags c ∨ fold flags m = question := by
  rw [fits, Bool.or_eq_true, decide_eq_true_eq, decide_eq_true_eq, (fold_eq_iff flags m).2, or_comm]

section Loop

variable {flags : UInt32} {memory : Bytes} {endMask : Nat}

/-- The text is matched by a mask that goes on behind its end. -/
def Goes (flags : UInt32) (memory : Bytes) (endMask p : Nat) (s : Bytes) : Prop :=
  Continues isStar (fits (fold flags)) (peek memory) endMask p s

theorem not_isStar {m : UInt8} (h : ¬ fold flags m = star) : isStar m = false := by
  rw [(fold_eq_iff flags m).1] at h
  exact decide_eq_false h

theorem isStar_of {m : UInt8} (h : fold flags m = star) : isStar m = true :=
  decide_eq_true ((fold_eq_iff flags m).1.mp h)

theorem drop_eq_cons {p : Nat} (h : p < memory.length) :
    memory.drop p = peek memory p :: memory.drop (p + 1) := by
  rw [List.drop_eq_getElem_cons h, peek, List.getD_eq_getElem?_getD, List.getElem?_eq_getElem h,
    Option.getD_some]

theorem peek_of_le {p : Nat} (h : memory.length ≤ p) : peek memory p = 0 := by
  rw [peek, List.getD_eq_getElem?_getD, List.getElem?_eq_none h, Option.getD_none]

theorem skipStars_plain {p : Nat} (h : ¬ peek memory p = star) : skipStars memory p = p := by
  rw [skipStars]
  by_cases hp : p < memory.length
  · rw [drop_eq_cons hp, List.takeWhile_cons_of_neg (by simpa using h)]
    rfl
  · rw [List.drop_eq_nil_of_le (Nat.not_lt.mp hp)]
    rfl

theorem skipStars_star {p : Nat} (h : peek memory p = star) :
    p < memory.length ∧ skipStars memory p = skipStars memory (p + 1) := by
  have hp : p < memory.length := by
    by_contra hle
    rw [peek_of_le (Nat.not_lt.mp hle)] at h
    exact absurd h (by decide)
  refine ⟨hp, ?_⟩
  rw [skipStars, skipStars, drop_eq_cons hp, List.takeWhile_cons_of_pos (by simpa using h),
    List.length_cons]
  omega

/-- At the end of the string, the stars are skipped. -/
theorem goes_nil (p : Nat) : Goes flags memory endMask p [] ↔ endMask ≤ skipStars memory p := by
  induction hn : memory.length - p generalizing p with
  | zero =>
      have hplain : ¬ peek memory p = star := by
        rw [peek_of_le (by omega)]
        decide
      rw [skipStars_plain hplain]
      exact continues_nil_plain (decide_eq_false hplain)
  | succ n ih =>
      by_cases hstar : peek memory p = star
      · rw [(skipStars_star hstar).2, ← ih (p + 1) (by omega)]
        exact continues_nil_star (decide_eq_true hstar)
      · rw [skipStars_plain hstar]
        exact continues_nil_plain (decide_eq_false hstar)

/-- What the loop keeps: the characters from `start` on were taken without a star, and the next
try begins one character later. -/
structure Tried (memory : Bytes) (start s : Bytes) (mask : Nat) (cp : Bytes) (mp : Nat) : Prop where
  le : mp ≤ mask
  plain : ∀ i, mp ≤ i → i < mask → isStar (peek memory i) = false
  again : cp = start.tail
  taken : mask - mp ≤ start.length
  rest : s = start.drop (mask - mp)

variable {start s cp : Bytes} {mask mp N n : Nat}

theorem suffix_drop {t u : Bytes} (h : t <:+ u) (j : Nat) : t.drop j <:+ u.drop j := by
  obtain ⟨w, rfl⟩ := h
  rw [List.drop_append]
  have hdrop : t.drop j <:+ t.drop (j - w.length) :=
    List.drop_suffix_drop_left t (Nat.sub_le j w.length)
  exact hdrop.trans (List.suffix_append _ _)

/-- At the end of the string, no later try can be better. -/
theorem Tried.at_end (h : Tried memory start [] mask cp mp)
    (hgoes : ¬ Goes flags memory endMask mask []) :
    ¬ ∃ t, t <:+ cp ∧ Goes flags memory endMask mp t := by
  rintro ⟨t, ht, hmp⟩
  have hlength := congrArg List.length h.rest
  rw [List.length_drop, List.length_nil] at hlength
  have hle := ht.length_le
  rw [h.again, List.length_tail] at hle
  have htaken := h.taken
  have hmask := h.le
  by_cases hlast : mask ≤ endMask
  · obtain ⟨hj, hgoes'⟩ := continues_plain (j := mask - mp)
      (fun i hlo hhi => h.plain i hlo (by omega)) (by omega) hmp
    rw [Nat.add_sub_cancel' hmask] at hgoes'
    have hnil : t.drop (mask - mp) = [] := List.drop_eq_nil_of_le (by omega)
    rw [hnil] at hgoes'
    exact hgoes hgoes'
  · exact hgoes ⟨0, by omega, rfl⟩

/-- At a star, no later try can be better. -/
theorem Tried.at_star (h : Tried memory start s mask cp mp)
    (hstar : isStar (peek memory mask) = true)
    (hlast : mask ≤ endMask) (hlater : ∃ t, t <:+ cp ∧ Goes flags memory endMask mp t) :
    Goes flags memory endMask mask s := by
  obtain ⟨t, ht, hmp⟩ := hlater
  have hmask := h.le
  obtain ⟨-, hgoes⟩ := continues_plain (j := mask - mp)
    (fun i hlo hhi => h.plain i hlo (by omega)) (by omega) hmp
  rw [Nat.add_sub_cancel' hmask] at hgoes
  have hsuffix : t.drop (mask - mp) <:+ s := by
    rw [h.rest]
    refine suffix_drop (ht.trans ?_) _
    rw [h.again]
    exact List.tail_suffix start
  obtain ⟨u, hu, hmore⟩ := (continues_star hstar).mp hgoes
  exact (continues_star hstar).mpr ⟨u, hu.trans hsuffix, hmore⟩

theorem tried_self (s : Bytes) (mask : Nat) : Tried memory s s mask s.tail mask where
  le := Nat.le_refl mask
  plain := fun i hlo hhi => absurd hlo (by omega)
  again := rfl
  taken := by omega
  rest := by rw [Nat.sub_self, List.drop_zero]

theorem Tried.take {c : UInt8} (h : Tried memory start (c :: s) mask cp mp)
    (hplain : isStar (peek memory mask) = false) : Tried memory start s (mask + 1) cp mp where
  le := Nat.le_succ_of_le h.le
  plain := fun i hlo hhi => by
    by_cases heq : i = mask
    · rw [heq]
      exact hplain
    · exact h.plain i hlo (by omega)
  again := h.again
  taken := by
    have hlength := congrArg List.length h.rest
    rw [List.length_drop, List.length_cons] at hlength
    have hle := h.le
    omega
  rest := by
    have hle := h.le
    rw [Nat.sub_add_comm hle, ← List.drop_drop, ← h.rest, List.drop_one, List.tail_cons]

/-- More turns than are left, by the stars that may come, the tries and the characters -/
def Left (endMask N : Nat) (s cp : Bytes) (mp : Nat) : Nat :=
  ((endMask - mp) * (N + 2) + cp.length) * (N + 2) + s.length

theorem lex_lt {a a' b b' k : Nat} (ha : a' < a) (hb : b' < k) : a' * k + b' < a * k + b := by
  have hmul := Nat.mul_le_mul_right k (Nat.succ_le_of_lt ha)
  rw [Nat.succ_mul] at hmul
  omega

theorem left_star {c : UInt8} (hlast : ¬ mask + 1 ≥ endMask) (hmask : mp ≤ mask)
    (hs : (c :: s).length ≤ N) :
    Left endMask N (c :: s) s (mask + 1) < Left endMask N (c :: s) cp mp := by
  rw [List.length_cons] at hs
  refine lex_lt (lex_lt ?_ ?_) ?_
  · omega
  · omega
  · rw [List.length_cons]
    omega

theorem left_take {c : UInt8} : Left endMask N s cp mp < Left endMask N (c :: s) cp mp := by
  unfold Left
  rw [List.length_cons]
  omega

theorem left_again {c : UInt8} (hcp : cp.length ≤ N) :
    Left endMask N cp cp.tail mp < Left endMask N (c :: s) cp mp := by
  cases cp with
  | nil =>
      unfold Left
      rw [List.tail_nil, List.length_nil, List.length_cons]
      omega
  | cons d t =>
      refine lex_lt ?_ ?_
      · rw [List.tail_cons, List.length_cons]
        omega
      · omega

/-- What is tried next: the text itself, or a later one -/
theorem goes_suffix {p : Nat} : (∃ t, t <:+ s ∧ Goes flags memory endMask p t) ↔
    Goes flags memory endMask p s ∨ ∃ t, t <:+ s.tail ∧ Goes flags memory endMask p t := by
  cases s with
  | nil => simp [List.suffix_nil]
  | cons c s => simp [List.suffix_cons_iff, or_and_right, exists_or]

theorem matchLoop_spec {turns : Nat} (h : Tried memory start s mask cp mp)
    (hlength : start.length ≤ N) (hturns : Left endMask N s cp mp < turns) :
    ∃ result, matchLoop flags memory endMask turns s mask cp mp = some (inverted flags result) ∧
      (result = true ↔ Goes flags memory endMask mask s ∨
        ∃ t, t <:+ cp ∧ Goes flags memory endMask mp t) := by
  induction turns generalizing start s mask cp mp with
  | zero => exact absurd hturns (Nat.not_lt_zero _)
  | succ turns ih =>
      cases s with
      | nil =>
          refine ⟨_, rfl, ?_⟩
          rw [decide_eq_true_eq, ← @goes_nil flags]
          constructor
          · exact .inl
          · rintro (hgoes | hlater)
            · exact hgoes
            · by_contra hgoes
              exact h.at_end hgoes hlater
      | cons c s =>
          have hs : (c :: s).length ≤ N := by
            rw [h.rest, List.length_drop]
            omega
          have hcp : cp.length ≤ N := by
            rw [h.again, List.length_tail]
            omega
          rw [matchLoop]
          by_cases hstar : fold flags (peek memory mask) = star
          · rw [if_pos hstar]
            have hstar' := isStar_of hstar
            by_cases hlast : mask + 1 ≥ endMask
            · rw [if_pos hlast]
              exact ⟨true, rfl, iff_of_true rfl (.inl (continues_last hstar' hlast))⟩
            · rw [if_neg hlast]
              have hleft := @left_star endMask s cp mask mp N c hlast h.le hs
              obtain ⟨result, hresult, hiff⟩ := ih (tried_self (c :: s) (mask + 1)) hs (by
                rw [List.tail_cons]
                omega)
              refine ⟨result, hresult, hiff.trans ?_⟩
              rw [← goes_suffix]
              have hgoes : (∃ t, t <:+ c :: s ∧ Goes flags memory endMask (mask + 1) t) ↔
                  Goes flags memory endMask mask (c :: s) := (continues_star hstar').symm
              rw [hgoes]
              exact (or_iff_left_of_imp (h.at_star hstar' (by omega))).symm
          · rw [if_neg hstar]
            have hplain := not_isStar hstar
            by_cases hfits : fold flags (peek memory mask) = fold flags c ∨
                fold flags (peek memory mask) = question
            · rw [if_pos hfits]
              have hleft := @left_take endMask s cp mp N c
              obtain ⟨result, hresult, hiff⟩ := ih (h.take hplain) hlength (by omega)
              refine ⟨result, hresult, hiff.trans (or_congr_left ?_)⟩
              have hfits' := (fits_iff _ _ _).mpr hfits
              exact ((continues_cons hplain).trans (and_iff_right hfits')).symm
            · rw [if_neg hfits]
              have hleft := @left_again endMask s cp mp N c hcp
              obtain ⟨result, hresult, hiff⟩ := ih (tried_self cp mp) hcp (by omega)
              refine ⟨result, hresult, hiff.trans ?_⟩
              rw [← goes_suffix]
              refine (or_iff_right fun hgoes => hfits ?_).symm
              exact (fits_iff _ _ _).mp ((continues_cons hplain).mp hgoes).1

/-- The first loop, which can only fail or stop at the end of the string or at a star -/
theorem beforeStar_spec (s : Bytes) (p : Nat) :
    (beforeStar flags memory s p = none ∧ ¬ Goes flags memory endMask p s) ∨
      ∃ s' p', beforeStar flags memory s p = some (s', p') ∧ s' <:+ s ∧
        (s' = [] ∨ fold flags (peek memory p') = star) ∧
        (Goes flags memory endMask p s ↔ Goes flags memory endMask p' s') := by
  induction s generalizing p with
  | nil => exact .inr ⟨[], p, rfl, List.suffix_refl [], .inl rfl, Iff.rfl⟩
  | cons c s ih =>
      rw [beforeStar]
      by_cases hstar : fold flags (peek memory p) = star
      · rw [if_pos hstar]
        exact .inr ⟨c :: s, p, rfl, List.suffix_refl _, .inr hstar, Iff.rfl⟩
      · rw [if_neg hstar]
        have hplain := not_isStar hstar
        have hcons : Goes flags memory endMask p (c :: s) ↔ _ := continues_cons hplain
        rw [fits_iff] at hcons
        by_cases hfits : fold flags (peek memory p) = fold flags c ∨
            fold flags (peek memory p) = question
        · rw [if_neg (by rw [← not_or]; exact not_not.mpr hfits)]
          rw [hcons, and_iff_right hfits]
          rcases ih (p + 1) with hnone | ⟨s', p', heq, hsuffix, hend, hiff⟩
          · exact .inl hnone
          · exact .inr ⟨s', p', heq, hsuffix.trans (List.suffix_cons c s), hend, hiff⟩
        · rw [if_pos (not_or.mp hfits)]
          exact .inl ⟨rfl, fun hgoes => hfits (hcons.mp hgoes).1⟩

/-- From the first star on -/
theorem matchLoop_start {turns : Nat} (hs : s.length ≤ N) (hend : s = [] ∨
      fold flags (peek memory mask) = star) (hturns : (endMask + 1) * (N + 2) * (N + 2) ≤ turns) :
    ∃ result, matchLoop flags memory endMask turns s mask [] 0 = some (inverted flags result) ∧
      (result = true ↔ Goes flags memory endMask mask s) := by
  have hsquare : (endMask + 1) * (N + 2) * (N + 2) =
      endMask * (N + 2) * (N + 2) + (N + 2) * (N + 2) := by
    rw [Nat.succ_mul, Nat.add_mul]
  have hpos : 0 < (N + 2) * (N + 2) := Nat.mul_pos (Nat.succ_pos _) (Nat.succ_pos _)
  obtain ⟨turns, rfl⟩ := Nat.exists_eq_succ_of_ne_zero (show turns ≠ 0 by omega)
  cases s with
  | nil => exact ⟨_, rfl, by rw [decide_eq_true_eq, goes_nil]⟩
  | cons c s =>
      have hstar := hend.resolve_left (List.cons_ne_nil c s)
      have hstar' := isStar_of hstar
      rw [matchLoop, if_pos hstar]
      by_cases hlast : mask + 1 ≥ endMask
      · rw [if_pos hlast]
        exact ⟨true, rfl, iff_of_true rfl (continues_last hstar' hlast)⟩
      · rw [if_neg hlast]
        have hleft : Left endMask N (c :: s) s (mask + 1) < endMask * (N + 2) * (N + 2) + 0 := by
          rw [List.length_cons] at hs
          refine lex_lt (lex_lt (b := 0) ?_ ?_) ?_
          · omega
          · omega
          · rw [List.length_cons]
            omega
        obtain ⟨result, hresult, hiff⟩ := matchLoop_spec (tried_self (c :: s) (mask + 1)) hs
          (show Left endMask N (c :: s) (c :: s).tail (mask + 1) < turns by
            rw [List.tail_cons]
            omega)
        refine ⟨result, hresult, hiff.trans ?_⟩
        rw [← goes_suffix]
        exact (continues_star hstar').symm

end Loop

/-- `u_dosmatch` returns, and it is for the masks that go on behind their end. -/
theorem dosmatch_spec (s mask behind : Bytes) (flags : UInt32) :
    ∃ result, dosmatch s mask behind flags = some (inverted flags result) ∧
      (result = true ↔ Goes flags (mask ++ behind) mask.length 0 s) := by
  rw [dosmatch]
  rcases @beforeStar_spec flags (mask ++ behind) mask.length s 0 with
    ⟨hnone, hgoes⟩ | ⟨s', p', heq, hsuffix, hend, hiff⟩
  · rw [hnone]
    exact ⟨false, rfl, iff_of_false Bool.false_ne_true hgoes⟩
  · rw [heq, hiff]
    exact matchLoop_start hsuffix.length_le hend (Nat.le_refl _)

/-! ### Masks with bars -/

/-- The masks between the bars, each with the bytes behind it -/
def alternatives (mask behind : Bytes) : List (Bytes × Bytes) :=
  if bar ∈ mask then
    (mask.take (mask.idxOf bar), mask.drop (mask.idxOf bar) ++ behind) ::
      alternatives (mask.drop (mask.idxOf bar + 1)) behind
  else [(mask, behind)]
termination_by mask.length
decreasing_by exact length_drop_lt ‹bar ∈ mask› _

theorem idxOf_bar {w : Bytes} (hw : bar ∉ w) (u : Bytes) :
    (w ++ bar :: u).idxOf bar = w.length := by
  rw [List.idxOf_append_of_notMem hw, List.idxOf_cons_self, Nat.add_zero]

theorem alternatives_append {w : Bytes} (hw : bar ∉ w) (u behind : Bytes) :
    alternatives (w ++ bar :: u) behind = (w, bar :: u ++ behind) :: alternatives u behind := by
  rw [alternatives, if_pos (List.mem_append_right w List.mem_cons_self), idxOf_bar hw,
    List.take_left, List.drop_left, ← List.drop_drop, List.drop_left, List.drop_one, List.tail_cons]

theorem alternatives_single {w : Bytes} (hw : bar ∉ w) (behind : Bytes) :
    alternatives w behind = [(w, behind)] := by
  rw [alternatives, if_neg hw]

/-- A property of masks holds of all when it holds of those without bars and goes over bars. -/
theorem mask_induction {P : Bytes → Prop} (single : ∀ w, bar ∉ w → P w)
    (append : ∀ w u, bar ∉ w → P u → P (w ++ bar :: u)) (mask : Bytes) : P mask := by
  induction hn : mask.length using Nat.strongRecOn generalizing mask with
  | _ n ih =>
      by_cases hbar : bar ∈ mask
      · obtain ⟨w, u, rfl, hw⟩ := List.eq_append_cons_of_mem hbar
        refine append w u hw (ih u.length ?_ u rfl)
        rw [← hn, List.length_append, List.length_cons]
        omega
      · exact single mask hbar

theorem alternatives_fst (mask behind : Bytes) :
    (alternatives mask behind).map Prod.fst = mask.splitOn bar := by
  induction mask using mask_induction with
  | single w hw => rw [alternatives_single hw, List.splitOn_eq_singleton hw, List.map_singleton]
  | append w u hw ih =>
      rw [alternatives_append hw, List.map_cons, ih,
        List.splitOn_append_cons_self_of_not_mem hw]

/-- `u_dosmatch_with_OR` returns, and it is for any of the masks that go on behind their ends. -/
theorem dosmatchWithOR_spec (s mask behind : Bytes) (flags : UInt32) :
    ∃ result, dosmatchWithOR s mask behind flags = some (inverted flags result) ∧
      (result = true ↔ ∃ x ∈ alternatives mask behind, Goes flags (x.1 ++ x.2) x.1.length 0 s) := by
  induction mask using mask_induction with
  | single w hw =>
      rw [alternatives_single hw, dosmatchWithOR, if_neg hw]
      simpa using dosmatch_spec s w behind flags
  | append w u hw ih =>
      obtain ⟨first, hfirst, hiff⟩ := dosmatch_spec s w (bar :: u ++ behind) flags
      obtain ⟨later, hlater, hiff'⟩ := ih
      rw [alternatives_append hw, dosmatchWithOR,
        if_pos (List.mem_append_right w List.mem_cons_self)]
      simp only [idxOf_bar hw, List.take_left, List.drop_left, hfirst, Option.bind_some]
      rw [← List.drop_drop, List.drop_left, List.drop_one, List.tail_cons, hlater]
      refine ⟨first || later, ?_, ?_⟩
      · unfold inverted
        cases first <;> cases later <;> split <;> rfl
      · rw [Bool.or_eq_true, hiff, hiff', List.exists_mem_cons_iff]

/-! ### What the bytes behind a mask do -/

/-- The text is matched by the mask and some of the bytes behind it (and the NUL at the end of the
memory), up to the case of ISO 8859-1. -/
def MatchedBeyond (flags : UInt32) (mask behind s : Bytes) : Prop :=
  ∃ k, mask.length ≤ k ∧
    glob isStar (fits (fold flags)) (window (peek (mask ++ behind)) 0 k) s = true

theorem matchedBeyond_iff {flags : UInt32} {mask behind s : Bytes} :
    MatchedBeyond flags mask behind s ↔ Goes flags (mask ++ behind) mask.length 0 s := by
  simp only [MatchedBeyond, Goes, Continues, Nat.zero_add]

theorem window_peek {memory : Bytes} {p k : Nat} (h : p + k ≤ memory.length) :
    window (peek memory) p k = (memory.drop p).take k := by
  induction k generalizing p with
  | zero => rw [window, List.take_zero]
  | succ k ih =>
      rw [window, ih (by omega), drop_eq_cons (show p < memory.length by omega),
        List.take_succ_cons]

theorem window_mask (mask behind : Bytes) :
    window (peek (mask ++ behind)) 0 mask.length = mask := by
  rw [window_peek (by rw [List.length_append]; omega), List.drop_zero, List.take_left]

/-- What ASCII does not tell apart, ISO 8859-1 does not. -/
theorem fits_fold_of_ascii {flags : UInt32} (m c : UInt8)
    (h : fits (asciiFold flags) m c = true) : fits (fold flags) m c = true := by
  rw [fits, Bool.or_eq_true, decide_eq_true_eq, decide_eq_true_eq] at h ⊢
  refine h.imp_right fun heq => ?_
  unfold asciiFold at heq
  unfold fold
  split at heq
  · next hflag =>
    rw [if_pos hflag, if_pos hflag, ← uTolower_tolower m, heq, uTolower_tolower]
  · rw [heq]

theorem matchedBeyond_of_matched {flags : UInt32} {mask s : Bytes}
    (h : Matched flags mask s = true) (behind : Bytes) : MatchedBeyond flags mask behind s := by
  refine ⟨mask.length, Nat.le_refl _, ?_⟩
  rw [window_mask]
  exact glob_mono fits_fold_of_ascii h

theorem matched_self (flags : UInt32) (mask : Bytes) : Matched flags mask mask = true :=
  glob_self (fun m _ => by rw [fits, decide_eq_true rfl, Bool.or_true]) mask

theorem inverted_inj {flags : UInt32} {a b : Bool} :
    some (inverted flags a) = some (inverted flags b) ↔ a = b := by
  rw [Option.some.injEq, inverted, inverted]
  split <;> simp

theorem matchedOR_iff {flags : UInt32} {mask behind s : Bytes} :
    MatchedOR flags mask s = true ↔
      ∃ x ∈ alternatives mask behind, Matched flags x.1 s = true := by
  rw [MatchedOR, ← alternatives_fst mask behind, List.any_map, List.any_eq_true]
  rfl

/-- A call that returns what `beyond` says is right if that does not go beyond `matched`. -/
theorem right_iff {flags : UInt32} {call : Option Bool} {beyond : Prop} {matched : Bool}
    (hcall : ∃ result, call = some (inverted flags result) ∧ (result = true ↔ beyond))
    (hbeyond : matched = true → beyond) :
    call = some (inverted flags matched) ↔ (beyond → matched = true) := by
  obtain ⟨result, rfl, hiff⟩ := hcall
  rw [inverted_inj, ← hiff]
  constructor
  · intro heq hresult
    rw [← heq]
    exact hresult
  · intro himp
    cases result with
    | true => exact (himp rfl).symm
    | false =>
        cases matched with
        | true => exact absurd (hiff.mpr (hbeyond rfl)) Bool.false_ne_true
        | false => rfl

theorem dosmatch_right_iff (s mask behind : Bytes) (flags : UInt32) :
    dosmatch s mask behind flags = some (inverted flags (Matched flags mask s)) ↔
      (MatchedBeyond flags mask behind s → Matched flags mask s = true) := by
  refine right_iff ?_ fun h => matchedBeyond_of_matched h behind
  simpa only [matchedBeyond_iff] using dosmatch_spec s mask behind flags

theorem dosmatchWithOR_right_iff (s mask behind : Bytes) (flags : UInt32) :
    dosmatchWithOR s mask behind flags = some (inverted flags (MatchedOR flags mask s)) ↔
      ((∃ x ∈ alternatives mask behind, MatchedBeyond flags x.1 x.2 s) →
        MatchedOR flags mask s = true) := by
  refine right_iff ?_ fun h => ?_
  · simpa only [matchedBeyond_iff] using dosmatchWithOR_spec s mask behind flags
  · obtain ⟨x, hx, hmatched⟩ := matchedOR_iff.mp h
    exact ⟨x, hx, matchedBeyond_of_matched hmatched x.2⟩

/-- A mask that is compared with itself matches. -/
theorem dosmatch_self (mask behind : Bytes) (flags : UInt32) :
    dosmatch mask mask behind flags = some (inverted flags true) := by
  rw [← matched_self flags mask]
  exact (dosmatch_right_iff mask mask behind flags).mpr fun _ => matched_self flags mask

/-- All functions return. The results are right where the string is not matched by a mask with bytes
behind it alone, and that of the wrapper for a mask of type `UString` where the mask matches. -/
theorem dosmatch_iff (s mask behind : Bytes) (flags : UInt32) :
    ((∃ result, dosmatch s mask behind flags = some result) ∧
      ∃ result, dosmatchWithOR s mask behind flags = some result) ∧
    (dosmatch s mask behind flags = some (inverted flags (Matched flags mask s)) ↔
      (MatchedBeyond flags mask behind s → Matched flags mask s = true)) ∧
    (dosmatchWithOR s mask behind flags = some (inverted flags (MatchedOR flags mask s)) ↔
      ((∃ x ∈ alternatives mask behind, MatchedBeyond flags x.1 x.2 s) →
        MatchedOR flags mask s = true)) ∧
    (dosMatch s mask behind flags = some (inverted flags (Matched flags mask s)) ↔
      (MatchedBeyond flags mask behind s → Matched flags mask s = true)) ∧
    (dosMatchString s mask behind flags = some (inverted flags (Matched flags mask s)) ↔
      Matched flags mask s = true) ∧
    (dosMatchWithOR s mask behind flags = some (inverted flags (MatchedOR flags mask s)) ↔
      ((∃ x ∈ alternatives mask behind, MatchedBeyond flags x.1 x.2 s) →
        MatchedOR flags mask s = true)) ∧
    (dosMatchWithORString s mask behind flags = some (inverted flags (MatchedOR flags mask s)) ↔
      ((∃ x ∈ alternatives mask behind, MatchedBeyond flags x.1 x.2 s) →
        MatchedOR flags mask s = true)) := by
  have hmask := dosmatch_right_iff s mask behind flags
  have hor := dosmatchWithOR_right_iff s mask behind flags
  have hstring : dosMatchString s mask behind flags = some (inverted flags (Matched flags mask s)) ↔
      Matched flags mask s = true := by
    rw [dosMatchString, dosmatch_self, inverted_inj]
    exact eq_comm
  obtain ⟨result, hresult, -⟩ := dosmatch_spec s mask behind flags
  obtain ⟨result', hresult', -⟩ := dosmatchWithOR_spec s mask behind flags
  exact ⟨⟨⟨_, hresult⟩, _, hresult'⟩, hmask, hor, hmask, hstring, hor, hor⟩

/-- "ab" is compared with the mask "a" and the bar behind it, "b" with the mask instead of with
the string, and the accented letters up to a case that is not that of ASCII. -/
theorem not_dosmatch :
    (dosmatch "ab".toUTF8.data.toList "a".toUTF8.data.toList "b|c".toUTF8.data.toList 0 =
        some true ∧
      Matched 0 "a".toUTF8.data.toList "ab".toUTF8.data.toList = false) ∧
    (dosmatchWithOR "a|".toUTF8.data.toList "a|b".toUTF8.data.toList [] 0 = some true ∧
      MatchedOR 0 "a|b".toUTF8.data.toList "a|".toUTF8.data.toList = false) ∧
    (dosMatchString "b".toUTF8.data.toList "a".toUTF8.data.toList [] 0 = some true ∧
      Matched 0 "a".toUTF8.data.toList "b".toUTF8.data.toList = false) ∧
    (dosmatch [0xC0] [0xE0] [] 0x10 = some true ∧ Matched 0x10 [0xE0] [0xC0] = false) := by
  decide +kernel

end ULib.DosMatch
