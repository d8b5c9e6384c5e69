import ULib.TextBuffer
import ULib.TextSearch

/-!
`UStringExt::substitute` and `UStringExt::substr_count` of
`utility/string_ext.cpp`: the occurrences of a text that are found, and when
all that is written lies within the memory of the result.
-/

namespace ULib.Substitution

open ULib.KeyComparison
open ULib.JsonValue (howMuchPreallocate uCapacity)
open ULib.StringHeap (allocated)
open ULib.TextBuffer
open ULib.TextSearch

/-! ### substitute and substr_count -/

/-- `u_find` of a text that is not empty. -/
def uFind (s a : Bytes) : Option Nat :=
  if s = [] then none
  else
    match a with
    | [c] => s.idxOf? c
    | _ => search a s

/-- The loop, on what is behind `start`. -/
def substituteLoop (a b : Bytes) : Nat → Bytes → Buffer → Option Buffer
  | 0, _, _ => none
  | k + 1, s, x =>
      match uFind s a with
      | some len =>
          (reserve x (x.data.length + len + b.length)).bind fun x =>
            (put x (s.take len)).bind fun x => (put x b).bind fun x =>
              substituteLoop a b k (s.drop (len + a.length)) x
      | none => append x s

def substitute (s a b : Bytes) : Option Buffer :=
  if a = [] then none
  else
    let n2 := if b = [] then 1 else b.length
    substituteLoop a b (s.length + 1) s
      (created (min (s.length / a.length * n2 % 2 ^ 32) (256 * 1024 * 1024)))

def countLoop (a : Bytes) : Nat → Bytes → Nat
  | 0, _ => 0
  | k + 1, ptr =>
      match uFind ptr a with
      | some len => countLoop a k (ptr.drop (len + a.length)) + 1
      | none => 0

/-- `substr_count`; every round but the last goes past an occurrence. -/
def substrCount (s a : Bytes) : Nat := countLoop a (s.length + 1) s

/-! ### The occurrences -/

/-- The texts in front of the leftmost occurrences, none of which overlap, and the text behind the
last one; the first argument is what is left of an occurrence. -/
def cut (a : Bytes) : Nat → Bytes → List Bytes × Bytes
  | _, [] => ([], [])
  | k + 1, _ :: s => cut a k s
  | 0, c :: s =>
      if a.isPrefixOf (c :: s) then ([] :: (cut a (a.length - 1) s).1, (cut a (a.length - 1) s).2)
      else
        match cut a 0 s with
        | ([], r) => ([], c :: r)
        | (p :: ps, r) => ((c :: p) :: ps, r)

/-- Another text in the place of the occurrences. -/
def joined (b : Bytes) (parts : List Bytes × Bytes) : Bytes :=
  parts.1.flatMap (· ++ b) ++ parts.2

def replaceAll (s a b : Bytes) : Bytes := joined b (cut a 0 s)

/-- The length of the text and the capacity, when there were reserves up to the end of each
replacement. -/
def reserved (b : Bytes) : List Bytes → Nat × Nat → Nat × Nat
  | [], x => x
  | p :: ps, (length, capacity) =>
      let n := length + p.length + b.length
      reserved b ps (n, granted capacity n)

/-- From a text and a capacity on: there are not more bytes than can be counted in pages; and what
is appended behind the last occurrence leaves room for a NUL. -/
def FitsFrom (b : Bytes) (x : Nat × Nat) (parts : List Bytes × Bytes) : Prop :=
  let n := x.1 + (joined b parts).length
  n ≤ maxSize ∧ (parts.2 = [] ∨ n < roomOf (granted (reserved b parts.1 x).2 n))

instance (b : Bytes) (x : Nat × Nat) (parts : List Bytes × Bytes) :
    Decidable (FitsFrom b x parts) := inferInstanceAs (Decidable (_ ∧ _))

/-- The estimate of the worst case. -/
def estimated (s a b : Bytes) : Nat :=
  min (s.length / a.length * (if b = [] then 1 else b.length) % 2 ^ 32) (256 * 1024 * 1024)

def Fits (s a b : Bytes) : Prop := FitsFrom b (0, (allocated (estimated s a b)).1) (cut a 0 s)

instance (s a b : Bytes) : Decidable (Fits s a b) := inferInstanceAs (Decidable (FitsFrom _ _ _))

/-- The text with its occurrences replaced, of the length that their number gives. -/
def Substituted (s a b : Bytes) : Prop :=
  ∃ x, substitute s a b = some x ∧ x.data = replaceAll s a b ∧
    (x.data.length : Int) = s.length + substrCount s a * ((b.length : Int) - a.length)

theorem idxOf_eq_search (c : UInt8) (s : Bytes) : s.idxOf? c = search [c] s := by
  induction s with
  | nil => rfl
  | cons d s ih =>
      rw [List.idxOf?_cons, search, ih]
      have hstart : [c].isPrefixOf (d :: s) = (d == c) := by
        rw [List.isPrefixOf_cons_cons, List.isPrefixOf_nil_left, Bool.and_true, Bool.beq_comm]
      rw [hstart]

theorem joined_cons (b p : Bytes) (ps : List Bytes) (r : Bytes) :
    joined b (p :: ps, r) = p ++ b ++ joined b (ps, r) := by
  rw [joined, List.flatMap_cons, List.append_assoc]
  rfl

section
variable {a : Bytes} (ha : a ≠ [])
include ha

theorem uFind_eq (s : Bytes) : uFind s a = search a s := by
  unfold uFind
  split_ifs with hs
  · subst hs
    rw [search, if_neg ha]
  · split
    · exact idxOf_eq_search _ s
    · rfl

theorem split_of_search {s : Bytes} {i : Nat} (h : search a s = some i) :
    s = s.take i ++ (a ++ s.drop (i + a.length)) ∧ (s.take i).length = i ∧
      (s.drop (i + a.length)).length < s.length := by
  have hpos := List.length_pos_of_ne_nil ha
  obtain ⟨r, hr⟩ := (of_search h).1
  have hdrop : s.drop (i + a.length) = r := by rw [← List.drop_drop, ← hr, List.drop_left]
  have hs : s = s.take i ++ (a ++ r) := by rw [hr, List.take_append_drop]
  rw [hdrop]
  have hlength := congrArg List.length hs
  rw [List.length_append, List.length_append] at hlength
  refine ⟨hs, ?_, by omega⟩
  rw [List.length_take] at hlength ⊢
  omega

omit ha in
theorem cut_drop (k : Nat) (s : Bytes) : cut a k s = cut a 0 (s.drop k) := by
  induction s generalizing k with
  | nil => cases k <;> rfl
  | cons c s ih =>
      cases k with
      | zero => rfl
      | succ k => rw [cut, ih, List.drop_succ_cons]

omit ha in
theorem cut_of_none {s : Bytes} (h : search a s = none) : cut a 0 s = ([], s) := by
  induction s with
  | nil => rfl
  | cons c s ih =>
      rw [search] at h
      split_ifs at h with hprefix
      rw [cut, if_neg hprefix, ih (Option.map_eq_none_iff.mp h)]

theorem cut_of_some {s : Bytes} {i : Nat} (h : search a s = some i) :
    cut a 0 s = (s.take i :: (cut a 0 (s.drop (i + a.length))).1,
      (cut a 0 (s.drop (i + a.length))).2) := by
  induction s generalizing i with
  | nil =>
      rw [search, if_neg ha] at h
      cases h
  | cons c s ih =>
      rw [search] at h
      split_ifs at h with hprefix
      · cases h
        have hpos := List.length_pos_of_ne_nil ha
        rw [cut, if_pos hprefix, cut_drop, List.take_zero]
        obtain ⟨n, hn⟩ := Nat.exists_eq_add_of_lt hpos
        rw [show 0 + a.length = a.length - 1 + 1 by omega, List.drop_succ_cons]
      · obtain ⟨j, hj, rfl⟩ := Option.map_eq_some_iff.mp h
        rw [cut, if_neg hprefix, ih hj, show j + 1 + a.length = j + a.length + 1 by omega,
          List.drop_succ_cons, List.take_succ_cons]

/-- The text is found again in what was cut. -/
theorem joined_cut (s : Bytes) : joined a (cut a 0 s) = s := by
  induction hn : s.length using Nat.strongRecOn generalizing s with
  | _ n ih =>
      cases hfind : search a s with
      | none => rw [cut_of_none hfind]; rfl
      | some i =>
          obtain ⟨hs, -, hlt⟩ := split_of_search ha hfind
          have hrest := ih _ (hn ▸ hlt) (s.drop (i + a.length)) rfl
          rw [cut_of_some ha hfind, joined_cons, hrest, List.append_assoc]
          exact hs.symm

theorem countLoop_eq {k : Nat} {s : Bytes} (hk : s.length < k) :
    countLoop a k s = (cut a 0 s).1.length := by
  induction k generalizing s with
  | zero => exact absurd hk (Nat.not_lt_zero _)
  | succ k ih =>
      rw [countLoop, uFind_eq ha]
      cases hfind : search a s with
      | none => rw [cut_of_none hfind]; rfl
      | some i =>
          have hlt := (split_of_search ha hfind).2.2
          dsimp only
          rw [ih (by omega), cut_of_some ha hfind]
          rfl

/-! ### The loop -/

omit ha in
theorem fitsFrom_nil (b r : Bytes) (x : Nat × Nat) :
    FitsFrom b x ([], r) ↔
      x.1 + r.length ≤ maxSize ∧ (r = [] ∨ x.1 + r.length <
        roomOf (granted x.2 (x.1 + r.length))) :=
  Iff.rfl

omit ha in
theorem fitsFrom_cons (b p : Bytes) (ps : List Bytes) (r : Bytes) (x : Nat × Nat) :
    FitsFrom b x (p :: ps, r) ↔
      FitsFrom b (x.1 + p.length + b.length, granted x.2 (x.1 + p.length + b.length)) (ps, r) := by
  simp only [FitsFrom, joined_cons, List.length_append, reserved, Nat.add_assoc]

omit ha in
theorem le_of_fitsFrom {b : Bytes} {x : Nat × Nat} {parts : List Bytes × Bytes}
    (h : FitsFrom b x parts) : x.1 ≤ maxSize := Nat.le_trans (Nat.le_add_right _ _) h.1

omit ha in
/-- The reserve is enough for both copies of a round, or they are never made. -/
theorem reserve_bind_puts {x : Buffer} (hx : Regular x) (p b : Bytes) (f : Buffer → Option Buffer) :
    (reserve x (x.data.length + (p ++ b).length)).bind
        (fun x => (put x p).bind fun x => (put x b).bind f) =
      if x.data.length + (p ++ b).length ≤ maxSize then f (filled x (p ++ b)) else none := by
  have htwo : ∀ y : Buffer, ((put y p).bind fun x => (put x b).bind f) =
      (put y (p ++ b)).bind f := by
    intro y
    rw [← put_append, Option.bind_assoc]
  simp only [htwo]
  split_ifs with hle
  · have hfits : (resized x (x.data.length + (p ++ b).length)).data.length + (p ++ b).length ≤
        (resized x (x.data.length + (p ++ b).length)).capacity := le_granted hle x.capacity
    rw [reserve_eq hx hle, Option.bind_some, put, if_pos hfits, Option.bind_some]
    rfl
  · rw [Option.bind_eq_none_iff]
    intro y hy
    obtain ⟨hdata, hcapacity⟩ := of_reserve hx hy
    rw [put, if_neg, Option.bind_none]
    rw [hdata]
    omega

/-- What the rest of the loop writes behind the text of the buffer. -/
theorem substituteLoop_eq {k : Nat} {b s : Bytes} {x : Buffer} (hk : s.length < k)
    (hx : Regular x) :
    (substituteLoop a b k s x).map Buffer.data =
      if FitsFrom b (x.data.length, x.capacity) (cut a 0 s) then
        some (x.data ++ joined b (cut a 0 s))
      else none := by
  induction k generalizing s x with
  | zero => exact absurd hk (Nat.not_lt_zero _)
  | succ k ih =>
      rw [substituteLoop, uFind_eq ha]
      cases hfind : search a s with
      | none =>
          rw [cut_of_none hfind]
          dsimp only
          rw [show joined b ([], s) = s from rfl]
          simp only [fitsFrom_nil]
          by_cases hs : s = []
          · subst hs
            have hle := Nat.le_trans hx.length_le hx.capacity_le
            rw [if_pos ⟨hle, Or.inl rfl⟩, append, if_pos rfl, List.append_nil, Option.map_some]
          · rw [append_eq hx hs]
            simp only [hs, false_or]
            split_ifs <;> rfl
      | some i =>
          obtain ⟨-, htake, hlt⟩ := split_of_search ha hfind
          have hround := reserve_bind_puts hx (s.take i) b
            (substituteLoop a b k (s.drop (i + a.length)))
          have hn : x.data.length + (s.take i ++ b).length = x.data.length + i + b.length := by
            rw [List.length_append, htake, Nat.add_assoc]
          dsimp only
          rw [← hn, hround, cut_of_some ha hfind]
          simp only [fitsFrom_cons, htake, ← hn]
          by_cases hle : x.data.length + (s.take i ++ b).length ≤ maxSize
          · rw [if_pos hle, ih (by omega) (regular_filled hx hle)]
            have hdata : (filled x (s.take i ++ b)).data = x.data ++ (s.take i ++ b) := rfl
            rw [hdata, List.length_append, joined_cons, List.append_assoc]
            rfl
          · rw [if_neg hle, if_neg fun h => hle (le_of_fitsFrom h)]
            rfl

/-! ### The whole text -/

theorem substitute_eq (s b : Bytes) :
    (substitute s a b).map Buffer.data =
      if Fits s a b then some (replaceAll s a b) else none := by
  have hestimated : estimated s a b ≤ maxSize :=
    Nat.le_trans (Nat.min_le_right _ _) (by decide)
  rw [substitute, if_neg ha]
  exact substituteLoop_eq ha (Nat.lt_succ_self _) (regular_created hestimated)

theorem substrCount_eq (s : Bytes) : substrCount s a = (cut a 0 s).1.length :=
  countLoop_eq ha (Nat.lt_succ_self _)

omit ha in
theorem length_joined (b : Bytes) (parts : List Bytes × Bytes) :
    (joined b parts).length + parts.1.length * a.length =
      (joined a parts).length + parts.1.length * b.length := by
  obtain ⟨ps, r⟩ := parts
  induction ps with
  | nil => simp [joined]
  | cons p ps ih =>
      simp only [joined_cons, List.length_append, List.length_cons, Nat.add_mul, Nat.one_mul]
      dsimp only at ih
      omega

theorem length_replaceAll (s b : Bytes) :
    ((replaceAll s a b).length : Int) =
      s.length + substrCount s a * ((b.length : Int) - a.length) := by
  have hlength := @length_joined a b (cut a 0 s)
  rw [joined_cut ha, ← substrCount_eq ha] at hlength
  have hint := congrArg Int.ofNat hlength
  simp only [Int.ofNat_eq_natCast, Int.natCast_add, Int.natCast_mul] at hint
  rw [replaceAll, Int.mul_sub]
  omega

/-- The occurrences are replaced, all of them and nothing else, exactly when the result fits. -/
theorem substituted_iff (s b : Bytes) : Substituted s a b ↔ Fits s a b := by
  have heq := substitute_eq ha s b
  constructor
  · rintro ⟨x, hx, -⟩
    rw [hx] at heq
    split_ifs at heq with hfits
    · exact hfits
    · cases heq
  · intro hfits
    rw [if_pos hfits, Option.map_eq_some_iff] at heq
    obtain ⟨x, hx, hdata⟩ := heq
    refine ⟨x, hx, hdata, ?_⟩
    rw [hdata]
    exact length_replaceAll ha s b

end

theorem substituted_hello : Substituted [104, 101, 108, 108, 111] [108] [76, 76] :=
  (substituted_iff (by decide) _ _).mpr (by decide)

/-- Two pages of text without an occurrence: the NUL is written behind the mapped pages. -/
theorem not_substituted : ¬ Substituted (List.replicate 8192 120) [121] [122] := by
  have hcut : cut [121] 0 (List.replicate 8192 120) = ([], List.replicate 8192 120) := by
    refine cut_of_none (search_none fun i hprefix => ?_)
    have hmem := hprefix.subset (List.mem_singleton_self 121)
    cases List.eq_of_mem_replicate (List.mem_of_mem_drop hmem)
  have hestimated : (allocated (estimated (List.replicate 8192 120) [121] [122])).1 = 8192 := by
    rw [estimated, List.length_replicate]
    rfl
  rw [substituted_iff (by decide), Fits, hcut, hestimated, fitsFrom_nil, List.length_replicate]
  rintro ⟨-, hnil | hroom⟩
  · cases (List.replicate_eq_nil_iff 120).mp hnil
  · exact absurd hroom (by decide)

end ULib.Substitution
