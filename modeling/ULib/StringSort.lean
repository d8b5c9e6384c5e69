import ULib.ThreeWayPartition
import ULib.ByteMemory
import ULib.KeyComparison
import Mathlib.Data.Nat.Find
import Mathlib.Algebra.Group.Int.Defs

/-!
`sort` and `findSorted` of `UVector<UString>`: a multikey quicksort that looks
at one character of its strings at a time, an insertion sort that compares their
rests, and a binary search that compares whole strings. An array of strings is
a function from indices, and the bytes of the strings lie in one memory.
-/

namespace ULib.StringSort

open ULib.ByteMemory
open ULib.KeyComparison
open ULib.InPlaceSort
open ULib.ThreeWayPartition

/-! ### The code -/

/-- `UStringRep`: where the bytes are, and how many. -/
structure UStringRep where
  str : Nat
  length : Nat

def bytes (m : Mem) (x : UStringRep) : Bytes := read m x.str x.length

/-- A `char` is signed. -/
def char (b : UInt8) : Int := if b.toNat < 128 then b.toNat else b.toNat - 256

/-- `chfunc`; the byte need not be one of the string. -/
def ch (m : Mem) (depth : Nat) (t : UStringRep) : Int := char (m (t.str + depth))

/-- The difference of two lengths of 32 bits, as an `int`. -/
def lengthDifference (n k : Nat) : Int := Int.bmod ((n : Int) - k) (2 ^ 32)

/-- `compare(rep, depth)` -/
def compareDepth (m : Mem) (x y : UStringRep) (depth : Nat) : Int :=
  let min := min x.length y.length
  if depth > min then lengthDifference x.length y.length
  else
    let r := memcmp (min - depth) (read m (x.str + depth) (min - depth))
      (read m (y.str + depth) (min - depth))
    if r = 0 then lengthDifference x.length y.length else r

/-- `compare(rep)` -/
def compare (m : Mem) (x y : UStringRep) : Int :=
  let r := memcmp (min x.length y.length) (bytes m x) (bytes m y)
  if r = 0 then lengthDifference x.length y.length else r

/-- `med3func` -/
def med3func (m : Mem) (depth : Nat) (vec : Nat → UStringRep) (a b c : Nat) : Nat :=
  let va := ch m depth (vec a)
  let vb := ch m depth (vec b)
  let vc := ch m depth (vec c)
  if va = vb then a
  else if vc = va ∨ vc = vb then c
  else if va < vb then (if vb < vc then b else if va < vc then c else a)
  else if vb > vc then b else if va < vc then a else c

/-- The median of three elements, or of the medians of three times three. -/
def pivot (m : Mem) (depth : Nat) (vec : Nat → UStringRep) (a n : Nat) : Nat :=
  let med3 := med3func m depth vec
  let pl := a
  let pm := a + n / 2
  let pn := a + (n - 1)
  if n > 50 then
    let d := n / 8
    med3 (med3 pl (pl + d) (pl + 2 * d)) (med3 (pm - d) pm (pm + d)) (med3 (pn - 2 * d) (pn - d) pn)
  else med3 pl pm pn

/-- `mksort` of the `n` elements from `a` on, with so many calls within one another. -/
def mksort (m : Mem) : Nat → (Nat → UStringRep) → Nat → Nat → Nat → Option (Nat → UStringRep)
  | 0, _, _, _, _ => none
  | fuel + 1, vec, a, n, depth =>
      if n ≤ 10 then some (inssort (fun x y => compareDepth m x y depth ≤ 0) a n vec)
      else
        let vec := swap2 vec a (pivot m depth vec a n)
        let s := scanned (ch m depth) a n vec
        let vec := gather a n s
        let r := s.pb - s.pa
        (if r > 1 then mksort m fuel vec a r depth else some vec).bind fun vec =>
          (if ch m depth (vec (a + r)) ≠ 0 then
            mksort m fuel vec (a + r) (s.pa - a + (a + n - s.pd - 1)) (depth + 1)
          else some vec).bind fun vec =>
            let r := s.pd - s.pc
            if r > 1 then mksort m fuel vec (a + n - r) r depth else some vec

/-- `sort(false)`; the length is passed on as an `int`. -/
def sort (m : Mem) (fuel : Nat) (vec : Nat → UStringRep) (length : Nat) :
    Option (Nat → UStringRep) :=
  mksort m fuel vec 0 length 0

/-- The loop of `findSorted`: an index that was found, or the last `low`. -/
def findLoop (m : Mem) (vec : Nat → UStringRep) (target : UStringRep) :
    Nat → Int → Int → Option Nat × Int
  | 0, low, _ => (none, low)
  | k + 1, low, high =>
      if high - low > 1 then
        let probe := ((low + high) % 2 ^ 32 / 2).toNat
        let cmp := compare m (vec probe) target
        if cmp > 0 then findLoop m vec target k low probe
        else if cmp = 0 then (some probe, low)
        else findLoop m vec target k probe high
      else (none, low)

/-- `findSorted(str, false)`; `none` is `U_NOT_FOUND`. -/
def findSorted (m : Mem) (vec : Nat → UStringRep) (length : Nat) (target : UStringRep) :
    Option Nat :=
  match findLoop m vec target length (-1) length with
  | (some probe, _) => some probe
  | (none, low) =>
      if low = -1 ∨ compare m (vec low.toNat) target ≠ 0 then none else some low.toNat

/-! ### What the sort is for -/

/-- Of the strings before and behind it, none is out of order. -/
def InOrder (m : Mem) (x y : UStringRep) : Prop := compare m x y ≤ 0

instance (m : Mem) (x y : UStringRep) : Decidable (InOrder m x y) :=
  inferInstanceAs (Decidable (_ ≤ _))

/-- A search finds a string that is equal to the target, if there is one. -/
def Finds (m : Mem) (vec : Nat → UStringRep) (n : Nat) (target : UStringRep) : Prop :=
  match findSorted m vec n target with
  | some i => i < n ∧ bytes m (vec i) = bytes m target
  | none => ∀ i < n, bytes m (vec i) ≠ bytes m target

/-- The sort ends, with the elements in order, and every string can be searched for. -/
def Sorts (m : Mem) (vec : Nat → UStringRep) (n : Nat) : Prop :=
  ∃ vec', (∃ k, ∀ fuel ≥ k, sort m fuel vec n = some vec') ∧
    ((List.range n).map vec').Perm ((List.range n).map vec) ∧ SortedOn (InOrder m) 0 n vec' ∧
      ∀ target : UStringRep, target.length < 2 ^ 32 → Finds m vec' n target

/-- The two strings have the same characters in front of `depth`, and no zero. -/
def Alike (m : Mem) (depth : Nat) (x y : UStringRep) : Prop :=
  ∀ k < depth, m (x.str + k) = m (y.str + k) ∧ m (x.str + k) ≠ 0

/-- The order of the first characters that are not alike is the one of the strings; where both are
zero, the strings are equal. -/
def Agree (m : Mem) (x y : UStringRep) : Prop :=
  ∃ depth, Alike m depth x y ∧
    ((ch m depth x < ch m depth y ∧ InOrder m x y) ∨
      (ch m depth y < ch m depth x ∧ InOrder m y x) ∨
      (ch m depth x = 0 ∧ ch m depth y = 0 ∧ compare m x y = 0))

/-- The vector is one for the insertion sort, or any two of its strings agree. -/
structure Sortable (m : Mem) (vec : Nat → UStringRep) (n : Nat) : Prop where
  count : n < 2 ^ 31
  small : ∀ i < n, (vec i).length < 2 ^ 31
  agree : 10 < n → ∀ i < n, ∀ j < n, Agree m (vec i) (vec j)

/-! ### Comparisons -/

theorem lengthDifference_eq {n k : Nat} (hn : n < 2 ^ 31) (hk : k < 2 ^ 31) :
    lengthDifference n k = (n : Int) - k := by
  unfold lengthDifference
  apply Int.bmod_eq_of_le <;> omega

theorem lengthDifference_eq_zero {n k : Nat} (hn : n < 2 ^ 32) (hk : k < 2 ^ 32) :
    lengthDifference n k = 0 ↔ n = k := by
  unfold lengthDifference
  rw [Int.bmod]
  omega

/-- What `memcmp` and the difference of the lengths decide is the order of the lists of bytes. -/
theorem memcmp_or_length (s t : Bytes) :
    ((if memcmp (min s.length t.length) s t = 0 then (s.length : Int) - t.length
      else memcmp (min s.length t.length) s t) ≤ 0 ↔ s ≤ t) := by
  induction s generalizing t with
  | nil =>
      have hzero : memcmp (min ([] : Bytes).length t.length) [] t = 0 := by
        cases t <;> rw [List.length_nil, Nat.zero_min] <;> rfl
      rw [if_pos hzero, List.length_nil]
      exact iff_of_true (by omega) (List.nil_le t)
  | cons a s ih =>
      cases t with
      | nil =>
          rw [List.length_nil, Nat.min_zero]
          refine iff_of_false ?_ (by simp)
          rw [if_pos (by rfl), List.length_cons]
          omega
      | cons b t =>
          rw [List.length_cons, List.length_cons, Nat.succ_min_succ, memcmp, List.cons_le_cons_iff]
          by_cases hlt : a < b
          · rw [if_pos hlt, if_neg (show ¬(-1 : Int) = 0 by decide)]
            exact iff_of_true (by decide) (Or.inl hlt)
          · by_cases hgt : b < a
            · rw [if_neg hlt, if_pos hgt, if_neg (show ¬(1 : Int) = 0 by decide)]
              refine iff_of_false (by decide) ?_
              rintro (h | ⟨h, -⟩)
              · exact hlt h
              · exact absurd (h ▸ hgt) (UInt8.lt_irrefl _)
            · have hab : a = b := UInt8.le_antisymm (UInt8.not_lt.mp hgt) (UInt8.not_lt.mp hlt)
              rw [if_neg hlt, if_neg hgt]
              have hih := ih t
              have hlen : ((s.length + 1 : Nat) : Int) - ((t.length + 1 : Nat) : Int) =
                  (s.length : Int) - t.length := by omega
              rw [hlen, hih]
              exact ⟨fun h => Or.inr ⟨hab, h⟩, fun h => h.elim (fun h => absurd h hlt) And.right⟩

section

variable {m : Mem} {x y z : UStringRep}

theorem length_bytes (m : Mem) (x : UStringRep) : (bytes m x).length = x.length := by
  rw [bytes, length_read]

theorem inOrder_iff (hx : x.length < 2 ^ 31) (hy : y.length < 2 ^ 31) :
    InOrder m x y ↔ bytes m x ≤ bytes m y := by
  rw [← memcmp_or_length, length_bytes, length_bytes, InOrder, compare,
    lengthDifference_eq hx hy]

theorem inOrder_orderOn (m : Mem) : OrderOn (fun x => x.length < 2 ^ 31) (InOrder m) where
  total x y hx hy := by
    rw [inOrder_iff hx hy, inOrder_iff hy hx]
    exact List.le_total _ _
  trans x y z hx hy hz hxy hyz := by
    rw [inOrder_iff hx hy] at hxy
    rw [inOrder_iff hy hz] at hyz
    rw [inOrder_iff hx hz]
    exact List.le_trans hxy hyz

theorem compare_eq_zero (hx : x.length < 2 ^ 32) (hy : y.length < 2 ^ 32) :
    compare m x y = 0 ↔ bytes m x = bytes m y := by
  rw [compare]
  constructor
  · intro h
    have hcmp : memcmp (min x.length y.length) (bytes m x) (bytes m y) = 0 := by
      by_contra hcmp
      exact hcmp ((if_neg hcmp).symm.trans h)
    have hlen := (lengthDifference_eq_zero hx hy).mp ((if_pos hcmp).symm.trans h)
    have hlen' : (bytes m x).length = (bytes m y).length := by
      rw [length_bytes, length_bytes, hlen]
    rw [← hlen, Nat.min_self] at hcmp
    exact (memcmp_eq_zero hlen').mp ((length_bytes m x).symm ▸ hcmp)
  · intro h
    have hlen : x.length = y.length := by rw [← length_bytes m x, h, length_bytes]
    have hcmp : memcmp (min x.length y.length) (bytes m x) (bytes m y) = 0 := by
      rw [← hlen, Nat.min_self, h]
      have hsame := (memcmp_eq_zero (s := bytes m y) (t := bytes m y) rfl).mpr rfl
      rwa [length_bytes, ← hlen] at hsame
    rw [if_pos hcmp, lengthDifference_eq_zero hx hy, hlen]

theorem memcmp_append (n : Nat) (s t t' : Bytes) :
    memcmp (s.length + n) (s ++ t) (s ++ t') = memcmp n t t' := by
  induction s with
  | nil => rw [List.length_nil, Nat.zero_add, List.nil_append, List.nil_append]
  | cons a s ih =>
      rw [List.length_cons, Nat.succ_add, List.cons_append, List.cons_append, memcmp,
        if_neg (UInt8.lt_irrefl a), if_neg (UInt8.lt_irrefl a), ih]

/-- Behind characters that are alike, the rests are compared as the whole strings are. -/
theorem compareDepth_eq {depth : Nat} (h : Alike m depth x y) :
    compareDepth m x y depth = compare m x y := by
  have hread : ∀ k ≤ depth, read m x.str k = read m y.str k := by
    intro k hk
    apply List.map_congr_left
    intro i hi
    exact (h i (Nat.lt_of_lt_of_le (List.mem_range.mp hi) hk)).1
  have hcut : ∀ k, memcmp k (bytes m x) (bytes m y) =
      memcmp k ((bytes m x).take k) ((bytes m y).take k) := fun k => memcmp_take k _ _
  have htake : ∀ (x : UStringRep) k, k ≤ x.length → (bytes m x).take k = read m x.str k := by
    intro x k hk
    rw [bytes, ByteMemory.read, ← List.map_take, List.take_range, Nat.min_eq_left hk,
      ByteMemory.read]
  have hmin := hcut (min x.length y.length)
  rw [htake x _ (Nat.min_le_left ..), htake y _ (Nat.min_le_right ..)] at hmin
  rw [compareDepth, compare, hmin]
  dsimp only
  by_cases hdepth : depth > min x.length y.length
  · have hself : ∀ s : Bytes, memcmp s.length s s = 0 := fun s => (memcmp_eq_zero rfl).mpr rfl
    have hlen := length_read m y.str (min x.length y.length)
    have hzero := hself (read m y.str (min x.length y.length))
    rw [hlen] at hzero
    rw [if_pos hdepth, hread _ (Nat.le_of_lt hdepth), if_pos hzero]
  · obtain ⟨k, hk⟩ := Nat.exists_eq_add_of_le (Nat.le_of_not_lt hdepth)
    have hlen := length_read m y.str depth
    have happend := memcmp_append k (read m y.str depth) (read m (x.str + depth) k)
      (read m (y.str + depth) k)
    rw [hlen] at happend
    rw [if_neg hdepth, hk, Nat.add_sub_cancel_left, read_append, read_append, hread depth le_rfl,
      happend]

end

/-! ### Characters -/

theorem char_injective {b b' : UInt8} (h : char b = char b') : b = b' := by
  have hb := b.toNat_lt
  have hb' := b'.toNat_lt
  unfold char at h
  apply UInt8.toNat_inj.mp
  split_ifs at h <;> omega

theorem char_eq_zero {b : UInt8} : char b = 0 ↔ b = 0 :=
  ⟨fun h => char_injective (h.trans (by decide)), fun h => by rw [h]; decide⟩

section

variable {m : Mem} {x y : UStringRep} {depth : Nat}

/-- Where two strings are alike, what decides about them is not in front. -/
theorem Agree.at_depth (h : Agree m x y) (halike : Alike m depth x y)
    (hstop : ch m depth x ≠ ch m depth y ∨ ch m depth x = 0) :
    (ch m depth x < ch m depth y ∧ InOrder m x y) ∨
      (ch m depth y < ch m depth x ∧ InOrder m y x) ∨
      (ch m depth x = 0 ∧ ch m depth y = 0 ∧ compare m x y = 0) := by
  obtain ⟨d, hd, hdecided⟩ := h
  rcases Nat.lt_trichotomy d depth with hlt | rfl | hgt
  · obtain ⟨heq, hne⟩ := halike d hlt
    have hch : ch m d x = ch m d y := congrArg char heq
    rcases hdecided with ⟨h, -⟩ | ⟨h, -⟩ | ⟨h, -⟩
    · omega
    · omega
    · exact absurd (char_eq_zero.mp h) hne
  · exact hdecided
  · obtain ⟨heq, hne⟩ := hd depth hgt
    rcases hstop with h | h
    · exact absurd (congrArg char heq) h
    · exact absurd (char_eq_zero.mp h) hne

theorem Agree.inOrder_of_lt (h : Agree m x y) (halike : Alike m depth x y)
    (hlt : ch m depth x < ch m depth y) : InOrder m x y := by
  rcases h.at_depth halike (Or.inl (by omega)) with ⟨-, h⟩ | ⟨h, -⟩ | ⟨h, h', -⟩
  · exact h
  · omega
  · omega

theorem Agree.inOrder_of_zero (h : Agree m x y) (halike : Alike m depth x y)
    (hx : ch m depth x = 0) (hy : ch m depth y = 0) : InOrder m x y := by
  rcases h.at_depth halike (Or.inr hx) with ⟨h, -⟩ | ⟨h, -⟩ | ⟨-, -, h⟩
  · omega
  · omega
  · exact Int.le_of_eq h

/-- A string that agrees with itself has a zero behind it. -/
theorem Agree.ends (h : Agree m x x) : ∃ d, m (x.str + d) = 0 := by
  obtain ⟨d, -, h | h | h⟩ := h
  · exact absurd h.1 (Int.lt_irrefl _)
  · exact absurd h.1 (Int.lt_irrefl _)
  · exact ⟨d, char_eq_zero.mp h.1⟩

end

/-! ### The radix sort -/

/-- The strings of one call of `mksort`, with a zero in each of them at `bound` or in front. -/
structure Group (m : Mem) (bound depth : Nat) (E : UStringRep → Prop) : Prop where
  small : ∀ x, E x → x.length < 2 ^ 31
  alike : ∀ x y, E x → E y → Alike m depth x y
  agree : ∀ x y, E x → E y → Agree m x y
  ends : ∀ x, E x → ∃ d ≤ bound, m (x.str + d) = 0

section

variable {m : Mem} {bound depth : Nat} {E : UStringRep → Prop}

theorem Group.depth_le (h : Group m bound depth E) {x : UStringRep} (hx : E x) :
    depth ≤ bound := by
  obtain ⟨d, hd, hzero⟩ := h.ends x hx
  by_contra hlt
  exact (h.alike x x hx hx d (by omega)).2 hzero

/-- The strings with one character go on to the next one. -/
theorem Group.deeper (h : Group m bound depth E) {v : Int} (hv : v ≠ 0) :
    Group m bound (depth + 1) fun x => E x ∧ ch m depth x = v where
  small x hx := h.small x hx.1
  alike x y hx hy k hk := by
    rcases Nat.lt_succ_iff_lt_or_eq.mp hk with hlt | rfl
    · exact h.alike x y hx.1 hy.1 k hlt
    · refine ⟨char_injective (hx.2.trans hy.2.symm), fun hzero => hv ?_⟩
      rw [← hx.2]
      exact char_eq_zero.mpr hzero
  agree x y hx hy := h.agree x y hx.1 hy.1
  ends x hx := h.ends x hx.1

/-- The median is one of the three. -/
theorem med3func_mem (m : Mem) (depth : Nat) (vec : Nat → UStringRep) {P : Nat → Prop}
    {a b c : Nat} (ha : P a) (hb : P b) (hc : P c) : P (med3func m depth vec a b c) := by
  unfold med3func
  dsimp only
  split_ifs <;> assumption

theorem pivot_mem (m : Mem) (depth : Nat) (vec : Nat → UStringRep) (a : Nat) {n : Nat}
    (hn : 0 < n) : a ≤ pivot m depth vec a n ∧ pivot m depth vec a n < a + n := by
  have hmed : ∀ i j k, (a ≤ i ∧ i < a + n) → (a ≤ j ∧ j < a + n) → (a ≤ k ∧ k < a + n) →
      a ≤ med3func m depth vec i j k ∧ med3func m depth vec i j k < a + n := fun i j k hi hj hk =>
    med3func_mem m depth vec (P := fun i => a ≤ i ∧ i < a + n) hi hj hk
  unfold pivot
  dsimp only
  split_ifs with hbig
  · exact hmed _ _ _ (hmed _ _ _ (by omega) (by omega) (by omega))
      (hmed _ _ _ (by omega) (by omega) (by omega)) (hmed _ _ _ (by omega) (by omega) (by omega))
  · exact hmed _ _ _ (by omega) (by omega) (by omega)

/-- The insertion sort of strings that are alike. -/
theorem inssort_alike (hsmall : ∀ x, E x → x.length < 2 ^ 31)
    (halike : ∀ x y, E x → E y → Alike m depth x y) {vec : Nat → UStringRep} {a n : Nat}
    (hvec : ∀ i, a ≤ i → i < a + n → E (vec i)) :
    Rearranged a n vec (inssort (fun x y => compareDepth m x y depth ≤ 0) a n vec) ∧
      SortedOn (InOrder m) a n (inssort (fun x y => compareDepth m x y depth ≤ 0) a n vec) := by
  have horder : OrderOn E (InOrder m) :=
    ⟨fun x y hx hy => (inOrder_orderOn m).total x y (hsmall x hx) (hsmall y hy),
      fun x y z hx hy hz =>
        (inOrder_orderOn m).trans x y z (hsmall x hx) (hsmall y hy) (hsmall z hz)⟩
  refine inssort_spec horder (fun x y hx hy => ?_) hvec
  rw [decide_eq_true_iff, compareDepth_eq (halike x y hx hy), InOrder]

theorem sortedOn_short {vec : Nat → UStringRep} {a n : Nat} (hn : n ≤ 1)
    (hsmall : ∀ i, a ≤ i → i < a + n → (vec i).length < 2 ^ 31) :
    SortedOn (InOrder m) a n vec := by
  intro i j hi hij hj
  obtain rfl : i = j := by omega
  have hlength := hsmall i hi hj
  exact or_self_iff.mp ((inOrder_orderOn m).total _ _ hlength hlength)

/-- A call within another one, which is left out for one element. -/
theorem call_spec {call : Option (Nat → UStringRep)} {vec : Nat → UStringRep} {a r : Nat}
    (hsmall : ∀ i, a ≤ i → i < a + r → (vec i).length < 2 ^ 31)
    (hcall : 0 < r → ∃ vec', call = some vec' ∧ Rearranged a r vec vec' ∧
      SortedOn (InOrder m) a r vec') :
    ∃ vec', (if r > 1 then call else some vec) = some vec' ∧ Rearranged a r vec vec' ∧
      SortedOn (InOrder m) a r vec' := by
  by_cases hr : r > 1
  · rw [if_pos hr]
    exact hcall (by omega)
  · rw [if_neg hr]
    exact ⟨vec, rfl, .refl a r vec, sortedOn_short (by omega) hsmall⟩

/-- More fuel gives the same result. -/
theorem mksort_succ {fuel : Nat} {vec vec' : Nat → UStringRep} {a n : Nat}
    (h : mksort m fuel vec a n depth = some vec') :
    mksort m (fuel + 1) vec a n depth = some vec' := by
  have hcall : ∀ (c : Prop) [Decidable c] {call call' : Option (Nat → UStringRep)}
      {vec vec' : Nat → UStringRep}, (call = some vec' → call' = some vec') →
      (if c then call else some vec) = some vec' → (if c then call' else some vec) = some vec' := by
    intro c _ call call' vec vec' himp h
    by_cases hc : c
    · rw [if_pos hc] at h ⊢
      exact himp h
    · rwa [if_neg hc] at h ⊢
  induction fuel generalizing depth vec vec' a n with
  | zero => exact nomatch h
  | succ fuel ih =>
      rw [mksort] at h ⊢
      by_cases hfew : n ≤ 10
      · rwa [if_pos hfew] at h ⊢
      · rw [if_neg hfew] at h ⊢
        obtain ⟨vec₁, h₁, h⟩ := Option.bind_eq_some_iff.mp h
        obtain ⟨vec₂, h₂, h₃⟩ := Option.bind_eq_some_iff.mp h
        exact Option.bind_eq_some_iff.mpr ⟨vec₁, hcall _ ih h₁,
          Option.bind_eq_some_iff.mpr ⟨vec₂, hcall _ ih h₂, hcall _ ih h₃⟩⟩

theorem mksort_mono {fuel fuel' : Nat} (hle : fuel ≤ fuel') {vec vec' : Nat → UStringRep}
    {a n : Nat} (h : mksort m fuel vec a n depth = some vec') :
    mksort m fuel' vec a n depth = some vec' := by
  induction hle with
  | refl => exact h
  | step _ ih => exact mksort_succ ih

/-- The fuel pays for every call: it takes an element less, or the next character. -/
theorem mksort_spec {fuel : Nat} (hE : Group m bound depth E) {vec : Nat → UStringRep} {a n : Nat}
    (hvec : ∀ i, a ≤ i → i < a + n → E (vec i)) (hn : 0 < n)
    (hfuel : n + bound + 1 ≤ fuel + depth) :
    ∃ vec', mksort m fuel vec a n depth = some vec' ∧ Rearranged a n vec vec' ∧
      SortedOn (InOrder m) a n vec' := by
  have hdepth := hE.depth_le (hvec a le_rfl (by omega))
  induction fuel generalizing depth E vec a n with
  | zero => omega
  | succ fuel ih =>
      rw [mksort]
      by_cases hfew : n ≤ 10
      · rw [if_pos hfew]
        exact ⟨_, rfl, inssort_alike hE.small hE.alike hvec⟩
      rw [if_neg hfew]
      have hpivot := pivot_mem m depth vec a hn
      have hswap : Rearranged a n vec (swap2 vec a (pivot m depth vec a n)) :=
        swap2_rearranged vec (by omega) hpivot
      generalize swap2 vec a (pivot m depth vec a n) = vec₀ at hswap ⊢
      obtain ⟨l, g, hl, hg, hcount, hmoved, hparted⟩ := partition_spec (ch m depth) vec₀ a hn
      dsimp only
      rw [hl, hg, hcount]
      generalize gather a n (scanned (ch m depth) a n vec₀) = vec₁ at hmoved hparted ⊢
      generalize ch m depth (vec₀ a) = v at hparted
      have hsome := hparted.some_equal
      have hmoved₁ := hswap.trans hmoved
      have hvec₁ := hmoved₁.forall hvec
      -- the strings with smaller characters
      obtain ⟨vec₂, hcall₂, hmoved₂, hsorted₂⟩ := @call_spec m (mksort m fuel vec₁ a l depth) vec₁
        a l (fun i hi hil => hE.small _ (hvec₁ i hi (by omega)))
        (fun hpos => ih hE (fun i hi hil => hvec₁ i hi (by omega)) hpos (by omega) hdepth)
      have hparted₂ := hparted.rearranged hmoved₂ (Or.inl (by omega))
      have hmoved₁₂ : Rearranged a n vec vec₂ := hmoved₁.trans (hmoved₂.mono le_rfl (by omega))
      have hvec₂ := hmoved₁₂.forall hvec
      -- those with the character of the pivot
      have hmiddle : ∃ vec₃, (if ch m depth (vec₂ (a + l)) ≠ 0 then
          mksort m fuel vec₂ (a + l) (n - l - g) (depth + 1) else some vec₂) = some vec₃ ∧
          Rearranged (a + l) (n - l - g) vec₂ vec₃ ∧
          SortedOn (InOrder m) (a + l) (n - l - g) vec₃ := by
        rw [hparted₂.equal (a + l) le_rfl (by omega)]
        by_cases hv : v = 0
        · rw [if_neg (not_not.mpr hv)]
          refine ⟨vec₂, rfl, .refl .., fun i j hi hij hj => ?_⟩
          have hx := hvec₂ i (by omega) (by omega)
          have hy := hvec₂ j (by omega) (by omega)
          exact (hE.agree _ _ hx hy).inOrder_of_zero (hE.alike _ _ hx hy)
            ((hparted₂.equal i hi (by omega)).trans hv)
            ((hparted₂.equal j (by omega) (by omega)).trans hv)
        · rw [if_pos hv]
          have hdeeper := hE.deeper hv
          have hequal : ∀ i, a + l ≤ i → i < a + l + (n - l - g) →
              E (vec₂ i) ∧ ch m depth (vec₂ i) = v := fun i hi hin =>
            ⟨hvec₂ i (by omega) (by omega), hparted₂.equal i hi (by omega)⟩
          exact ih hdeeper hequal (by omega) (by omega)
            (hdeeper.depth_le (hequal (a + l) le_rfl (by omega)))
      obtain ⟨vec₃, hcall₃, hmoved₃, hsorted₃⟩ := hmiddle
      have hparted₃ := hparted₂.rearranged hmoved₃ (Or.inr (Or.inl (by omega)))
      have hmoved₁₃ : Rearranged a n vec vec₃ := hmoved₁₂.trans (hmoved₃.mono (by omega) (by omega))
      have hvec₃ := hmoved₁₃.forall hvec
      -- those with greater characters
      obtain ⟨vec₄, hcall₄, hmoved₄, hsorted₄⟩ := @call_spec m
        (mksort m fuel vec₃ (a + n - g) g depth) vec₃ (a + n - g) g
        (fun i hi hig => hE.small _ (hvec₃ i (by omega) (by omega)))
        (fun hpos => ih hE (fun i hi hig => hvec₃ i (by omega) (by omega)) hpos (by omega) hdepth)
      have hparted₄ := hparted₃.rearranged hmoved₄ (Or.inr (Or.inr (by omega)))
      have hmoved₁₄ : Rearranged a n vec vec₄ := hmoved₁₃.trans (hmoved₄.mono (by omega) (by omega))
      have hvec₄ := hmoved₁₄.forall hvec
      refine ⟨vec₄, ?_, hmoved₁₄, hparted₄.sorted ?_ ?_ hsorted₄ ?_⟩
      · rw [hcall₂, Option.bind_some, hcall₃, Option.bind_some, hcall₄]
      · exact hmoved₄.sortedOn (hmoved₃.sortedOn hsorted₂ (by omega)) (by omega)
      · exact hmoved₄.sortedOn hsorted₃ (by omega)
      · intro i j hi hij hj hlt
        have hx := hvec₄ i hi (by omega)
        have hy := hvec₄ j (by omega) hj
        exact (hE.agree _ _ hx hy).inOrder_of_lt (hE.alike _ _ hx hy) hlt

end

/-! ### The binary search -/

section

variable {m : Mem} {vec : Nat → UStringRep} {n : Nat} {target : UStringRep}

/-- The bounds of the search stay at the ends of the vector or inside. -/
theorem findLoop_sound (hn : n < 2 ^ 31) {k : Nat} {low high : Int} (hlow : -1 ≤ low)
    (hlt : low < high) (hhigh : high ≤ n) :
    (∀ p, (findLoop m vec target k low high).1 = some p →
        p < n ∧ compare m (vec p) target = 0) ∧
      -1 ≤ (findLoop m vec target k low high).2 ∧ (findLoop m vec target k low high).2 < n := by
  induction k generalizing low high with
  | zero => exact ⟨fun _ h => (nomatch h), hlow, by simp only [findLoop]; omega⟩
  | succ k ih =>
      rw [findLoop]
      by_cases hwide : high - low > 1
      · rw [if_pos hwide]
        dsimp only
        split
        · exact ih hlow (by omega) (by omega)
        · split
          · next hequal =>
            refine ⟨fun p hp => ?_, hlow, by dsimp only; omega⟩
            obtain rfl := Option.some.inj hp
            exact ⟨by omega, hequal⟩
          · exact ih (by omega) (by omega) hhigh
      · rw [if_neg hwide]
        exact ⟨fun _ h => (nomatch h), hlow, by dsimp only; omega⟩

/-- Where the bounds have met, every element is on one side. -/
theorem compare_ne_of_met {low high : Int} (hmet : high - low ≤ 1)
    (hleft : ∀ i : Nat, (i : Int) ≤ low → compare m (vec i) target < 0)
    (hright : ∀ i : Nat, high ≤ i → i < n → 0 < compare m (vec i) target) :
    ∀ i < n, compare m (vec i) target ≠ 0 := by
  intro i hi
  by_cases hil : (i : Int) ≤ low
  · exact Int.ne_of_lt (hleft i hil)
  · exact Int.ne_of_gt (hright i (by omega) hi)

/-- Nothing is equal to the target, if the search of a vector in order finds nothing. -/
theorem findLoop_complete (hn : n < 2 ^ 31)
    (hless : ∀ i j, i ≤ j → j < n → compare m (vec j) target < 0 → compare m (vec i) target < 0)
    (hgreater : ∀ i j, i ≤ j → j < n → 0 < compare m (vec i) target →
      0 < compare m (vec j) target)
    {k : Nat} {low high : Int} (hlow : -1 ≤ low) (hlt : low < high) (hhigh : high ≤ n)
    (hk : high - low ≤ k + 1)
    (hleft : ∀ i : Nat, (i : Int) ≤ low → compare m (vec i) target < 0)
    (hright : ∀ i : Nat, high ≤ i → i < n → 0 < compare m (vec i) target)
    (hnone : (findLoop m vec target k low high).1 = none) :
    ∀ i < n, compare m (vec i) target ≠ 0 := by
  induction k generalizing low high with
  | zero => exact compare_ne_of_met (by omega) hleft hright
  | succ k ih =>
      rw [findLoop] at hnone
      by_cases hwide : high - low > 1
      swap
      · exact compare_ne_of_met (by omega) hleft hright
      rw [if_pos hwide] at hnone
      dsimp only at hnone
      have hprobe : low < ((low + high) % 2 ^ 32 / 2).toNat ∧
          (((low + high) % 2 ^ 32 / 2).toNat : Int) < high := by omega
      generalize ((low + high) % 2 ^ 32 / 2).toNat = probe at hnone hprobe
      split at hnone
      · next hmore =>
        exact ih hlow hprobe.1 (by omega) (by omega) hleft
          (fun i hi hin => hgreater probe i (by omega) hin hmore) hnone
      · split at hnone
        · exact nomatch hnone
        · exact ih (by omega) hprobe.2 hhigh (by omega)
            (fun i hi => hless i probe (by omega) (by omega) (by omega)) hright hnone

theorem compare_lt_iff {x y : UStringRep} (hx : x.length < 2 ^ 31) (hy : y.length < 2 ^ 31) :
    compare m x y < 0 ↔ bytes m x ≤ bytes m y ∧ bytes m x ≠ bytes m y := by
  rw [← inOrder_iff hx hy, ne_eq, ← compare_eq_zero (Nat.lt_trans hx (by decide))
    (Nat.lt_trans hy (by decide)), InOrder]
  omega

theorem lt_compare_iff {x y : UStringRep} (hx : x.length < 2 ^ 31) (hy : y.length < 2 ^ 31) :
    0 < compare m x y ↔ ¬ bytes m x ≤ bytes m y := by
  rw [← inOrder_iff hx hy, InOrder, Int.not_le]

/-- The search for a string among strings in order finds one of them if there is one. -/
theorem findLoop_of_sorted (hn : n < 2 ^ 31) (hsmall : ∀ i < n, (vec i).length < 2 ^ 31)
    (hsorted : SortedOn (InOrder m) 0 n vec) (htarget : target.length < 2 ^ 31)
    (hnone : (findLoop m vec target n (-1) n).1 = none) :
    ∀ i < n, compare m (vec i) target ≠ 0 := by
  have hle : ∀ i j, i ≤ j → j < n → bytes m (vec i) ≤ bytes m (vec j) := fun i j hij hj =>
    (inOrder_iff (hsmall i (by omega)) (hsmall j hj)).mp
      (hsorted i j (Nat.zero_le i) hij (by omega))
  refine findLoop_complete hn ?_ ?_ (Int.le_refl (-1)) (by omega) (Int.le_refl n) (by omega)
    (fun i hi => by omega) (fun i hi hin => by omega) hnone
  · intro i j hij hj
    rw [compare_lt_iff (hsmall i (by omega)) htarget, compare_lt_iff (hsmall j hj) htarget]
    rintro ⟨hless, hne⟩
    refine ⟨List.le_trans (hle i j hij hj) hless, fun heq => hne ?_⟩
    exact List.le_antisymm hless (heq ▸ hle i j hij hj)
  · intro i j hij hj
    rw [lt_compare_iff (hsmall i (by omega)) htarget, lt_compare_iff (hsmall j hj) htarget]
    exact fun hgreater hless => hgreater (List.le_trans (hle i j hij hj) hless)

theorem finds_of_sorted (hn : n < 2 ^ 31) (hsmall : ∀ i < n, (vec i).length < 2 ^ 31)
    (hsorted : SortedOn (InOrder m) 0 n vec) (htarget : target.length < 2 ^ 32) :
    Finds m vec n target := by
  obtain ⟨hfound, hlow, hlow'⟩ := @findLoop_sound m vec n target hn n (-1) n (Int.le_refl (-1))
    (by omega) (Int.le_refl n)
  have hequal : ∀ i < n, compare m (vec i) target = 0 ↔ bytes m (vec i) = bytes m target :=
    fun i hi => compare_eq_zero (Nat.lt_trans (hsmall i hi) (by decide)) htarget
  have hnone : (findLoop m vec target n (-1) n).1 = none →
      ∀ i < n, bytes m (vec i) ≠ bytes m target := by
    intro hnone i hi heq
    have hlength : (vec i).length = target.length := by
      rw [← length_bytes m, heq, length_bytes]
    have hall := findLoop_of_sorted hn hsmall hsorted (hlength ▸ hsmall i hi) hnone
    exact hall i hi ((hequal i hi).mpr heq)
  rw [Finds, findSorted]
  generalize findLoop m vec target n (-1) n = result at hfound hlow hlow' hnone ⊢
  obtain ⟨found, low⟩ := result
  cases found with
  | some p =>
      obtain ⟨hp, hcmp⟩ := hfound p rfl
      exact ⟨hp, (hequal p hp).mp hcmp⟩
  | none =>
      dsimp only at hlow hlow' ⊢
      by_cases hmissing : low = -1 ∨ compare m (vec low.toNat) target ≠ 0
      · rw [if_pos hmissing]
        exact hnone rfl
      · rw [if_neg hmissing]
        have hp : low.toNat < n := by omega
        refine ⟨hp, (hequal _ hp).mp ?_⟩
        by_contra hcmp
        exact hmissing (Or.inr hcmp)

end

/-! ### The vector -/

theorem exists_bound {P : Nat → Nat → Prop} {n : Nat} (h : ∀ i < n, ∃ d, P i d) :
    ∃ bound, ∀ i < n, ∃ d ≤ bound, P i d := by
  induction n with
  | zero => exact ⟨0, fun i hi => absurd hi (Nat.not_lt_zero i)⟩
  | succ n ih =>
      obtain ⟨bound, hbound⟩ := ih fun i hi => h i (Nat.lt_succ_of_lt hi)
      obtain ⟨d, hd⟩ := h n (Nat.lt_succ_self n)
      refine ⟨max bound d, fun i hi => ?_⟩
      rcases Nat.lt_succ_iff_lt_or_eq.mp hi with hlt | rfl
      · obtain ⟨d', hd', hP⟩ := hbound i hlt
        exact ⟨d', hd'.trans (Nat.le_max_left ..), hP⟩
      · exact ⟨d, Nat.le_max_right .., hd⟩

theorem sorts_of_sortable {m : Mem} {vec : Nat → UStringRep} {n : Nat} (h : Sortable m vec n) :
    Sorts m vec n := by
  have hsort : ∃ vec', (∃ k, ∀ fuel ≥ k, sort m fuel vec n = some vec') ∧
      Rearranged 0 n vec vec' ∧ SortedOn (InOrder m) 0 n vec' := by
    by_cases hfew : n ≤ 10
    · have hinssort := @inssort_alike m 0 (fun x => x.length < 2 ^ 31) (fun _ hx => hx)
        (fun _ _ _ _ k hk => absurd hk (Nat.not_lt_zero k)) vec 0 n
        (fun i _ hi => h.small i (by omega))
      refine ⟨_, ⟨1, fun fuel hfuel => ?_⟩, hinssort⟩
      obtain ⟨fuel, rfl⟩ := Nat.exists_eq_add_of_le' hfuel
      rw [sort, mksort, if_pos hfew]
    · have hagree := h.agree (by omega)
      obtain ⟨bound, hbound⟩ := exists_bound fun i hi => (hagree i hi i hi).ends
      have hgroup : Group m bound 0 fun x => ∃ i < n, vec i = x := by
        refine ⟨?_, ?_, ?_, ?_⟩
        · rintro x ⟨i, hi, rfl⟩
          exact h.small i hi
        · exact fun _ _ _ _ k hk => absurd hk (Nat.not_lt_zero k)
        · rintro x y ⟨i, hi, rfl⟩ ⟨j, hj, rfl⟩
          exact hagree i hi j hj
        · rintro x ⟨i, hi, rfl⟩
          exact hbound i hi
      obtain ⟨vec', hmksort, hsorted⟩ := @mksort_spec m bound 0 _ (n + bound + 1) hgroup vec 0 n
        (fun i _ hi => ⟨i, by omega, rfl⟩) (by omega) le_rfl
      exact ⟨vec', ⟨_, fun fuel hfuel => mksort_mono hfuel hmksort⟩, hsorted⟩
  obtain ⟨vec', hends, hmoved, hsorted⟩ := hsort
  refine ⟨vec', hends, ?_, hsorted, fun target htarget => ?_⟩
  · rw [List.range_eq_range']
    exact hmoved.perm
  · refine finds_of_sorted h.count (fun i hi => ?_) hsorted htarget
    exact hmoved.forall (P := fun x => x.length < 2 ^ 31) (fun i _ hi => h.small i (by omega)) i
      (Nat.zero_le i) (by omega)

/-! ### C strings -/

/-- A string with a zero behind it and none inside, and with characters of seven bits. -/
structure Terminated (m : Mem) (x : UStringRep) : Prop where
  ended : m (x.str + x.length) = 0
  plain : ∀ k < x.length, m (x.str + k) ≠ 0 ∧ m (x.str + k) < 128

section

variable {m : Mem} {x y : UStringRep} {d : Nat}

theorem Alike.symm (h : Alike m d x y) : Alike m d y x :=
  fun k hk => ⟨(h k hk).1.symm, (h k hk).1 ▸ (h k hk).2⟩

theorem Alike.self (h : Alike m d x y) : Alike m d x x := fun k hk => ⟨rfl, (h k hk).2⟩

theorem inOrder_of_byte_lt (h : Alike m d x y) (hx : d < x.length) (hy : d < y.length)
    (hlt : m (x.str + d) < m (y.str + d)) : InOrder m x y := by
  obtain ⟨k, hk⟩ := Nat.exists_eq_add_of_lt (Nat.lt_min.mpr ⟨hx, hy⟩)
  have hread : ∀ a, read m a (k + 1) = m a :: read m (a + 1) k := fun a => by
    rw [Nat.add_comm, read_append]
    rfl
  have hcmp : compareDepth m x y d = -1 := by
    rw [compareDepth, if_neg (by omega), hk, show d + k + 1 - d = k + 1 by omega, hread, hread,
      memcmp, if_pos hlt]
    rfl
  rw [InOrder, ← compareDepth_eq h, hcmp]
  decide

theorem compare_of_end (h : Alike m d x y) (hx : d = x.length) (hy : d ≤ y.length) :
    compare m x y = lengthDifference x.length y.length := by
  have hmin : min x.length y.length = d := by omega
  rw [← compareDepth_eq h, compareDepth, hmin, if_neg (Nat.lt_irrefl d), Nat.sub_self]
  exact if_pos rfl

theorem agree_of_terminated (hx : x.length < 2 ^ 31) (hy : y.length < 2 ^ 31)
    (hx0 : Terminated m x) (hy0 : Terminated m y) : Agree m x y := by
  classical
  have hstop : ∃ k, ¬ (m (x.str + k) = m (y.str + k) ∧ m (x.str + k) ≠ 0) :=
    ⟨x.length, fun h => h.2 hx0.ended⟩
  have halike : Alike m (Nat.find hstop) x y := fun k hk => not_not.mp (Nat.find_min hstop hk)
  have hspec := Nat.find_spec hstop
  have hdx : Nat.find hstop ≤ x.length := Nat.find_min' hstop fun h => h.2 hx0.ended
  have hdy : Nat.find hstop ≤ y.length :=
    Nat.find_min' hstop fun h => h.2 (h.1.trans hy0.ended)
  refine ⟨Nat.find hstop, halike, ?_⟩
  generalize Nat.find hstop = d at halike hspec hdx hdy
  have hplain : ∀ {z : UStringRep}, Terminated m z → d < z.length →
      ch m d z = (m (z.str + d)).toNat ∧ 0 < (m (z.str + d)).toNat := by
    intro z hz hd
    obtain ⟨hne, hlt⟩ := hz.plain d hd
    have hlt' : (m (z.str + d)).toNat < 128 := hlt
    refine ⟨if_pos hlt', Nat.pos_of_ne_zero fun hzero => hne ?_⟩
    exact UInt8.toNat_inj.mp hzero
  have hend : ∀ {z : UStringRep}, Terminated m z → d = z.length → ch m d z = 0 := by
    rintro z hz rfl
    exact char_eq_zero.mpr hz.ended
  rcases Nat.eq_or_lt_of_le hdx with hxd | hxd <;> rcases Nat.eq_or_lt_of_le hdy with hyd | hyd
  · refine Or.inr (Or.inr ⟨hend hx0 hxd, hend hy0 hyd, ?_⟩)
    rw [compare_of_end halike hxd hdy, lengthDifference_eq hx hy]
    omega
  · refine Or.inl ⟨by rw [hend hx0 hxd, (hplain hy0 hyd).1]; exact_mod_cast (hplain hy0 hyd).2, ?_⟩
    rw [InOrder, compare_of_end halike hxd hdy, lengthDifference_eq hx hy]
    omega
  · refine Or.inr (Or.inl
      ⟨by rw [hend hy0 hyd, (hplain hx0 hxd).1]; exact_mod_cast (hplain hx0 hxd).2, ?_⟩)
    rw [InOrder, compare_of_end halike.symm hyd hdx, lengthDifference_eq hy hx]
    omega
  · rw [(hplain hx0 hxd).1, (hplain hy0 hyd).1]
    rcases Nat.lt_trichotomy (m (x.str + d)).toNat (m (y.str + d)).toNat with hlt | heq | hgt
    · exact Or.inl ⟨Int.ofNat_lt.mpr hlt, inOrder_of_byte_lt halike hxd hyd hlt⟩
    · exact absurd ⟨UInt8.toNat_inj.mp heq, (hx0.plain d hxd).1⟩ hspec
    · exact Or.inr (Or.inl ⟨Int.ofNat_lt.mpr hgt, inOrder_of_byte_lt halike.symm hyd hxd hgt⟩)

end

/-! ### Strings that do not agree -/

section

variable {m : Mem} {depth : Nat} {vec : Nat → UStringRep} {a n : Nat}

/-- With one character in all strings, `mksort` goes on to the next one, or is done. -/
theorem mksort_same {fuel : Nat} (hn : 10 < n)
    (h : ∀ i, a ≤ i → i < a + n → ch m depth (vec i) = ch m depth (vec a)) :
    mksort m (fuel + 1) vec a n depth =
      if ch m depth (vec a) ≠ 0 then mksort m fuel vec a n (depth + 1) else some vec := by
  have hmed : ∀ i j k, a ≤ i → i < a + n → a ≤ j → j < a + n →
      med3func m depth vec i j k = i := by
    intro i j k hi hin hj hjn
    exact if_pos ((h i hi hin).trans (h j hj hjn).symm)
  have hpivot : pivot m depth vec a n = a := by
    unfold pivot
    dsimp only
    split_ifs with hbig
    · rw [hmed a _ _ le_rfl (by omega) (by omega) (by omega),
        hmed (a + n / 2 - n / 8) _ _ (by omega) (by omega) (by omega) (by omega),
        hmed a _ _ le_rfl (by omega) (by omega) (by omega)]
    · exact hmed a _ _ le_rfl (by omega) (by omega) (by omega)
  have hcount : a + n - a + (a + n - (a + n - 1) - 1) = n := by omega
  rw [mksort, if_neg (by omega), hpivot]
  dsimp only
  rw [swap2_self, scanned_same (by omega) h, gather_same, Nat.sub_self, Nat.sub_self, hcount,
    Nat.add_zero]
  simp only [gt_iff_lt, Nat.not_lt_zero, if_false, Option.bind_some]
  exact Option.bind_fun_some _

/-- Strings that are alike up to `depth` are looked at there. -/
theorem mksort_alike {fuel d : Nat} (hn : 10 < n)
    (h : ∀ i j, a ≤ i → i < a + n → a ≤ j → j < a + n → Alike m (d + depth) (vec i) (vec j)) :
    mksort m (fuel + d) vec a n depth = mksort m fuel vec a n (d + depth) := by
  induction d generalizing depth with
  | zero => rw [Nat.add_zero, Nat.zero_add]
  | succ d ih =>
      have hfirst : ∀ i, a ≤ i → i < a + n → ch m depth (vec i) = ch m depth (vec a) :=
        fun i hi hin => congrArg char (h i a hi hin le_rfl (by omega) depth (by omega)).1
      have hne : ch m depth (vec a) ≠ 0 := fun hzero =>
        (h a a le_rfl (by omega) le_rfl (by omega) depth (by omega)).2 (char_eq_zero.mp hzero)
      rw [← Nat.add_assoc, mksort_same hn hfirst, if_pos hne,
        @ih (depth + 1) (by rwa [show d + (depth + 1) = d + 1 + depth by omega]),
        show d + (depth + 1) = d + 1 + depth by omega]

/-- What a call returns is in parts by the character at its depth. -/
theorem mksort_parted {fuel : Nat} {vec' : Nat → UStringRep}
    (h : mksort m fuel vec a n depth = some vec') :
    Rearranged a n vec vec' ∧ (10 < n → ∃ v l g, Parted (ch m depth) v a n l g vec') := by
  have hcall : ∀ {c : Prop} [Decidable c] {call : Option (Nat → UStringRep)}
      {vec vec' : Nat → UStringRep} {a n : Nat}, (call = some vec' → Rearranged a n vec vec') →
      (if c then call else some vec) = some vec' → Rearranged a n vec vec' := by
    intro c _ call vec vec' a n himp h
    by_cases hc : c
    · exact himp ((if_pos hc).symm.trans h)
    · obtain rfl := Option.some.inj ((if_neg hc).symm.trans h)
      exact .refl a n vec
  induction fuel generalizing depth vec vec' a n with
  | zero => exact nomatch h
  | succ fuel ih =>
      rw [mksort] at h
      by_cases hfew : n ≤ 10
      · obtain rfl := Option.some.inj ((if_pos hfew).symm.trans h)
        exact ⟨inssort_rearranged _ a n vec, fun hn => absurd hfew (Nat.not_le_of_lt hn)⟩
      rw [if_neg hfew] at h
      dsimp only at h
      have hswap : Rearranged a n vec (swap2 vec a (pivot m depth vec a n)) :=
        swap2_rearranged vec (by omega) (pivot_mem m depth vec a (by omega))
      generalize swap2 vec a (pivot m depth vec a n) = vec₀ at hswap h
      obtain ⟨l, g, hl, hg, hcount, hmoved, hparted⟩ :=
        partition_spec (ch m depth) vec₀ a (show 0 < n by omega)
      rw [hl, hg, hcount] at h
      have hsome := hparted.some_equal
      obtain ⟨vec₂, h₂, h⟩ := Option.bind_eq_some_iff.mp h
      obtain ⟨vec₃, h₃, h₄⟩ := Option.bind_eq_some_iff.mp h
      have hmoved₂ : Rearranged a l _ vec₂ := hcall (fun h => (ih h).1) h₂
      have hmoved₃ : Rearranged (a + l) (n - l - g) vec₂ vec₃ := hcall (fun h => (ih h).1) h₃
      have hmoved₄ : Rearranged (a + n - g) g vec₃ vec' := hcall (fun h => (ih h).1) h₄
      refine ⟨?_, fun _ => ⟨ch m depth (vec₀ a), l, g, ?_⟩⟩
      · exact (((hswap.trans hmoved).trans (hmoved₂.mono le_rfl (by omega))).trans
          (hmoved₃.mono (by omega) (by omega))).trans (hmoved₄.mono (by omega) (by omega))
      · exact ((hparted.rearranged hmoved₂ (Or.inl (by omega))).rearranged hmoved₃
          (Or.inr (Or.inl (by omega)))).rearranged hmoved₄ (Or.inr (Or.inr (by omega)))

end

section

variable {m : Mem} {x y : UStringRep} {d : Nat}

/-- A vector of two strings, of which the first occurs once. -/
def firstOf (x y : UStringRep) (i : Nat) : UStringRep := if i = 0 then x else y

theorem firstOf_forall {P : UStringRep → Prop} (hx : P x) (hy : P y) (i : Nat) :
    P (firstOf x y i) := by
  unfold firstOf
  split_ifs
  · exact hx
  · exact hy

/-- With two alike strings, the sort reaches the depth up to which they are. -/
theorem sort_firstOf (h : Alike m d x y) (fuel : Nat) :
    sort m (fuel + d) (firstOf x y) 11 = mksort m fuel (firstOf x y) 0 11 d := by
  rw [sort, mksort_alike (by decide)]
  · rfl
  · intro i j _ _ _ _
    exact firstOf_forall (P := fun z => Alike m d z (firstOf x y j))
      (firstOf_forall h.self h j) (firstOf_forall h.symm h.symm.self j) i

theorem inOrder_of_sorts_lt (hsorts : Sorts m (firstOf x y) 11) (h : Alike m d x y)
    (hlt : ch m d x < ch m d y) : InOrder m x y := by
  obtain ⟨vec', ⟨k, hk⟩, hperm, hsorted, -⟩ := hsorts
  have hresult := hk (k + d) (Nat.le_add_right k d)
  rw [sort_firstOf h] at hresult
  obtain ⟨hmoved, hparted⟩ := mksort_parted hresult
  obtain ⟨v, l, g, hparted⟩ := hparted (by decide)
  have hmem : ∀ i < 11, ∃ j < 11, vec' j = firstOf x y i := by
    intro i hi
    have hin := hperm.mem_iff.mpr (List.mem_map_of_mem (List.mem_range.mpr hi))
    obtain ⟨j, hj, heq⟩ := List.mem_map.mp hin
    exact ⟨j, List.mem_range.mp hj, heq⟩
  have hsome := hparted.some_equal
  have hv : v = ch m d x ∨ v = ch m d y := by
    have hmiddle := hparted.equal l (by omega) (by omega)
    have heither := hmoved.forall (P := fun z => ch m d z = ch m d x ∨ ch m d z = ch m d y)
      (fun i _ _ => firstOf_forall (P := fun z => ch m d z = ch m d x ∨ ch m d z = ch m d y)
        (Or.inl rfl) (Or.inr rfl) i) l (Nat.zero_le l) (by omega)
    rwa [hmiddle] at heither
  obtain ⟨i, hi, hix⟩ := hmem 0 (by decide)
  obtain ⟨j, hj, hjy⟩ := hmem 1 (by decide)
  replace hix : vec' i = x := hix
  replace hjy : vec' j = y := hjy
  have hij : i < j := by
    by_contra hnot
    rw [← hix, ← hjy] at hlt hv
    by_cases hjl : j < l
    · have hkey := hparted.less j (Nat.zero_le j) (by omega)
      omega
    by_cases hjg : j < 11 - g
    · have hkey := hparted.equal j (by omega) (by omega)
      by_cases hig : i < 11 - g
      · have hkey' := hparted.equal i (by omega) (by omega)
        omega
      · have hkey' := hparted.greater i (by omega) (by omega)
        omega
    · have hkey := hparted.greater j (by omega) (by omega)
      have hkey' := hparted.greater i (by omega) (by omega)
      omega
  have hresult := hsorted i j (Nat.zero_le i) (Nat.le_of_lt hij) (by omega)
  rwa [hix, hjy] at hresult

/-- Where both strings have a zero, the sort leaves them as they stand. -/
theorem inOrder_of_sorts_zero (hsorts : Sorts m (firstOf x y) 11) (h : Alike m d x y)
    (hx : ch m d x = 0) (hy : ch m d y = 0) : InOrder m x y := by
  obtain ⟨vec', ⟨k, hk⟩, -, hsorted, -⟩ := hsorts
  have hzero : ∀ i, ch m d (firstOf x y i) = 0 := firstOf_forall (P := fun z => ch m d z = 0) hx hy
  have hresult := hk (k + 1 + d) (by omega)
  rw [sort_firstOf h, mksort_same (by decide) fun i _ _ => (hzero i).trans (hzero 0).symm,
    if_neg (not_not.mpr (hzero 0))] at hresult
  obtain rfl := Option.some.inj hresult
  exact hsorted 0 1 (Nat.zero_le 0) (Nat.zero_le 1) (by decide)

/-- Two strings agree, if the sort puts them into order whichever of them stands first. -/
theorem agree_of_sorts (hx : x.length < 2 ^ 31) (hy : y.length < 2 ^ 31)
    (hxy : Sorts m (firstOf x y) 11) (hyx : Sorts m (firstOf y x) 11) : Agree m x y := by
  by_cases hstop : ∃ k, ¬ (m (x.str + k) = m (y.str + k) ∧ m (x.str + k) ≠ 0)
  · classical
    have halike : Alike m (Nat.find hstop) x y := fun k hk => not_not.mp (Nat.find_min hstop hk)
    have hspec := Nat.find_spec hstop
    refine ⟨Nat.find hstop, halike, ?_⟩
    generalize Nat.find hstop = d at halike hspec
    rcases Int.lt_trichotomy (ch m d x) (ch m d y) with hlt | heq | hgt
    · exact Or.inl ⟨hlt, inOrder_of_sorts_lt hxy halike hlt⟩
    · have hbyte : m (x.str + d) = m (y.str + d) := char_injective heq
      have hzero : ch m d x = 0 := by
        by_contra hne
        exact hspec ⟨hbyte, fun h => hne (char_eq_zero.mpr h)⟩
      have hzero' : ch m d y = 0 := heq ▸ hzero
      have hle := inOrder_of_sorts_zero hxy halike hzero hzero'
      have hge := inOrder_of_sorts_zero hyx halike.symm hzero' hzero
      rw [inOrder_iff hx hy] at hle
      rw [inOrder_iff hy hx] at hge
      exact Or.inr (Or.inr ⟨hzero, hzero', (compare_eq_zero (Nat.lt_trans hx (by decide))
        (Nat.lt_trans hy (by decide))).mpr (List.le_antisymm hle hge)⟩)
    · exact Or.inr (Or.inl ⟨hgt, inOrder_of_sorts_lt hyx halike.symm hgt⟩)
  · -- no end is found, and the sort does not end either
    obtain ⟨vec', ⟨k, hk⟩, -⟩ := hxy
    have halike : Alike m k x y := fun i _ => not_not.mp (not_exists.mp hstop i)
    have hresult := hk (0 + k) (by omega)
    rw [sort_firstOf halike] at hresult
    exact nomatch hresult

end

/-- Vectors that can be sorted are sorted; and any two strings of a set agree, if every vector of
them is sorted. -/
theorem sorts_where (m : Mem) :
    (∀ vec n, 2 ≤ n → Sortable m vec n → Sorts m vec n) ∧
      ∀ S : UStringRep → Prop, (∀ x, S x → x.length < 2 ^ 31) →
        (∀ vec n, 2 ≤ n → n < 2 ^ 31 → (∀ i < n, S (vec i)) → Sorts m vec n) →
        ∀ x y, S x → S y → Agree m x y := by
  refine ⟨fun vec n _ h => sorts_of_sortable h, fun S hsmall hsorts x y hx hy => ?_⟩
  have hvec : ∀ x y, S x → S y → Sorts m (firstOf x y) 11 := fun x y hx hy =>
    hsorts _ 11 (by decide) (by decide) fun i _ => firstOf_forall hx hy i
  exact agree_of_sorts (hsmall x hx) (hsmall y hy) (hvec x y hx hy) (hvec y x hy hx)

/-- Eleven strings: one with the character `b`, and ten with `a`. -/
theorem sorts_where_eleven :
    Sorts (fun a => if a = 0 then 98 else if a = 2 then 97 else 0)
      (firstOf ⟨0, 1⟩ ⟨2, 1⟩) 11 := by
  refine (sorts_where _).1 _ 11 (by decide) ⟨by decide, ?_, fun _ i _ j _ => ?_⟩
  · exact fun i _ => firstOf_forall (P := fun z => z.length < 2 ^ 31) (by decide) (by decide) i
  · have hall : ∀ i, Terminated (fun a => if a = 0 then 98 else if a = 2 then 97 else 0)
        (firstOf ⟨0, 1⟩ ⟨2, 1⟩ i) ∧ (firstOf ⟨0, 1⟩ ⟨2, 1⟩ i).length < 2 ^ 31 :=
      firstOf_forall (P := fun z => Terminated _ z ∧ z.length < 2 ^ 31)
        ⟨⟨rfl, by decide⟩, by decide⟩ ⟨⟨rfl, by decide⟩, by decide⟩
    exact agree_of_terminated (hall i).2 (hall j).2 (hall i).1 (hall j).1

/-- Eleven strings of two bytes that begin with a zero are left as they stand. -/
theorem not_sorts : ¬ Sorts (fun a => if a = 1 then 98 else if a = 3 then 97 else 0)
    (firstOf ⟨0, 2⟩ ⟨2, 2⟩) 11 := by
  intro h
  have halike : Alike (fun a => if a = 1 then 98 else if a = 3 then 97 else 0) 0 ⟨0, 2⟩ ⟨2, 2⟩ :=
    fun k hk => absurd hk (Nat.not_lt_zero k)
  exact absurd (inOrder_of_sorts_zero h halike (by decide) (by decide)) (by decide)

end ULib.StringSort
