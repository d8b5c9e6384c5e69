import Mathlib.Algebra.Group.Nat.Defs
import Mathlib.Data.List.Basic
import Mathlib.Tactic.Common

/-!
Byte-addressed memory with 32-bit little-endian words and block copies. A
mapped file and the buffer of a `pread` are both values of `Mem`; nothing here
depends on what is stored.
-/

namespace ULib.ByteMemory

abbrev Mem := Nat → UInt8

/-- The bytes at `a`, ..., `a + n - 1`. -/
def read (m : Mem) (a n : Nat) : List UInt8 :=
  (List.range n).map fun i => m (a + i)

/-- The 32-bit word at `a`. -/
def get (m : Mem) (a : Nat) : Nat :=
  (m a).toNat + 256 * (m (a + 1)).toNat + 65536 * (m (a + 2)).toNat +
    16777216 * (m (a + 3)).toNat

/-- Copy a block of bytes to `a`. -/
def write (m : Mem) (a : Nat) (bytes : List UInt8) : Mem := fun x =>
  if a ≤ x ∧ x < a + bytes.length then bytes.getD (x - a) 0 else m x

/-- The four bytes of a word; higher bits are dropped. -/
def word (v : Nat) : List UInt8 :=
  [UInt8.ofNat v, UInt8.ofNat (v / 256), UInt8.ofNat (v / 65536),
    UInt8.ofNat (v / 16777216)]

/-- Store the 32-bit word `v` at `a`. -/
def put (m : Mem) (a v : Nat) : Mem := write m a (word v)

/-- Set `n` bytes from `a` on to `b`. -/
def fill (m : Mem) (a n : Nat) (b : UInt8) : Mem := fun x =>
  if a ≤ x ∧ x < a + n then b else m x

/-- Two memories agree on a block. -/
def Agree (m m' : Mem) (a n : Nat) : Prop := ∀ x, a ≤ x → x < a + n → m x = m' x

/-- The blocks `[a, a + n)` and `[b, b + k)` do not meet. -/
def Apart (a n b k : Nat) : Prop := a + n ≤ b ∨ b + k ≤ a

@[simp] theorem length_read (m : Mem) (a n : Nat) : (read m a n).length = n := by
  simp [read]

@[simp] theorem length_word (v : Nat) : (word v).length = 4 := rfl

theorem getElem?_read (m : Mem) (a n i : Nat) (hi : i < n) :
    (read m a n)[i]? = some (m (a + i)) := by
  simp [read, hi]

theorem read_zero (m : Mem) (a : Nat) : read m a 0 = [] := rfl

theorem read_append (m : Mem) (a n k : Nat) :
    read m a (n + k) = read m a n ++ read m (a + n) k := by
  simp only [read, List.range_add, List.map_append, List.map_map]
  congr 1
  apply List.map_congr_left
  intro i _
  simp [Nat.add_assoc]

theorem take_read (m : Mem) (a n k : Nat) :
    (read m a n).take k = read m a (min k n) := by
  simp [read, ← List.map_take, List.take_range]

theorem get_lt (m : Mem) (a : Nat) : get m a < 2 ^ 32 := by
  have h0 := (m a).toNat_lt
  have h1 := (m (a + 1)).toNat_lt
  have h2 := (m (a + 2)).toNat_lt
  have h3 := (m (a + 3)).toNat_lt
  unfold get
  omega

theorem Agree.trans {m m' m'' : Mem} {a n : Nat} (h : Agree m m' a n)
    (h' : Agree m' m'' a n) : Agree m m'' a n :=
  fun x hlo hhi => (h x hlo hhi).trans (h' x hlo hhi)

theorem Agree.mono {m m' : Mem} {a n b k : Nat} (h : Agree m m' a n)
    (hlo : a ≤ b) (hhi : b + k ≤ a + n) : Agree m m' b k :=
  fun x hx hx' => h x (by omega) (by omega)

theorem Agree.get_eq {m m' : Mem} {a : Nat} (h : Agree m m' a 4) :
    get m a = get m' a := by
  simp only [get, h a (by omega) (by omega), h (a + 1) (by omega) (by omega),
    h (a + 2) (by omega) (by omega), h (a + 3) (by omega) (by omega)]

theorem Agree.read_eq {m m' : Mem} {a n : Nat} (h : Agree m m' a n) :
    read m a n = read m' a n := by
  apply List.map_congr_left
  intro i hi
  exact h (a + i) (by omega) (by have := List.mem_range.mp hi; omega)

theorem write_agree (m : Mem) (a : Nat) (bytes : List UInt8) {b k : Nat}
    (h : Apart a bytes.length b k) : Agree (write m a bytes) m b k := by
  intro x hlo hhi
  apply if_neg
  unfold Apart at h
  omega

theorem put_agree (m : Mem) (a v : Nat) {b k : Nat} (h : Apart a 4 b k) :
    Agree (put m a v) m b k :=
  write_agree m a (word v) h

theorem fill_agree (m : Mem) (a n : Nat) (c : UInt8) {b k : Nat}
    (h : Apart a n b k) : Agree (fill m a n c) m b k := by
  intro x hlo hhi
  apply if_neg
  unfold Apart at h
  omega

theorem get_put_same (m : Mem) (a v : Nat) : get (put m a v) a = v % 2 ^ 32 := by
  have h0 : put m a v a = UInt8.ofNat v := by simp [put, write, word]
  have h1 : put m a v (a + 1) = UInt8.ofNat (v / 256) := by simp [put, write, word]
  have h2 : put m a v (a + 2) = UInt8.ofNat (v / 65536) := by simp [put, write, word]
  have h3 : put m a v (a + 3) = UInt8.ofNat (v / 16777216) := by simp [put, write, word]
  simp only [get, h0, h1, h2, h3, UInt8.toNat_ofNat']
  omega

theorem get_put_of_lt (m : Mem) (a : Nat) {v : Nat} (hv : v < 2 ^ 32) :
    get (put m a v) a = v := by
  rw [get_put_same, Nat.mod_eq_of_lt hv]

theorem get_put_apart (m : Mem) {a b : Nat} (v : Nat) (h : Apart a 4 b 4) :
    get (put m a v) b = get m b :=
  (put_agree m a v h).get_eq

theorem get_write_apart (m : Mem) {a b : Nat} (bytes : List UInt8)
    (h : Apart a bytes.length b 4) : get (write m a bytes) b = get m b :=
  (write_agree m a bytes h).get_eq

theorem read_put_apart (m : Mem) {a b n : Nat} (v : Nat) (h : Apart a 4 b n) :
    read (put m a v) b n = read m b n :=
  (put_agree m a v h).read_eq

theorem read_write_apart (m : Mem) {a b n : Nat} (bytes : List UInt8)
    (h : Apart a bytes.length b n) : read (write m a bytes) b n = read m b n :=
  (write_agree m a bytes h).read_eq

theorem read_write_same (m : Mem) (a : Nat) (bytes : List UInt8) :
    read (write m a bytes) a bytes.length = bytes := by
  apply List.ext_getElem?
  intro i
  rcases Nat.lt_or_ge i bytes.length with hi | hi
  · rw [getElem?_read _ _ _ _ hi]
    simp [write, hi]
  · simp [hi]

theorem get_fill_zero (m : Mem) {a n b : Nat} (hlo : a ≤ b) (hhi : b + 4 ≤ a + n) :
    get (fill m a n 0) b = 0 := by
  have h : ∀ i < 4, fill m a n 0 (b + i) = 0 := fun i hi => if_pos (by omega)
  have h0 := h 0 (by omega)
  simp only [Nat.add_zero] at h0
  simp [get, h0, h 1 (by omega), h 2 (by omega), h 3 (by omega)]

theorem write_append (m : Mem) (a : Nat) (xs ys : List UInt8) :
    write (write m a xs) (a + xs.length) ys = write m a (xs ++ ys) := by
  funext z
  simp only [write, List.length_append]
  by_cases hlow : a ≤ z ∧ z < a + xs.length
  · rw [if_neg (by omega), if_pos hlow, if_pos (by omega)]
    simp only [List.getD_eq_getElem?_getD]
    rw [List.getElem?_append_left (by omega)]
  · by_cases hhigh : a + xs.length ≤ z ∧ z < a + xs.length + ys.length
    · rw [if_pos hhigh, if_pos (by omega)]
      simp only [List.getD_eq_getElem?_getD]
      rw [List.getElem?_append_right (by omega), Nat.sub_sub]
    · rw [if_neg hhigh, if_neg hlow, if_neg (by omega)]

/-- Part of a block that was written. -/
theorem read_write_sub (m : Mem) (a i n : Nat) (bytes : List UInt8) (h : i + n ≤ bytes.length) :
    read (write m a bytes) (a + i) n = (bytes.drop i).take n := by
  apply List.ext_getElem?
  intro j
  rcases Nat.lt_or_ge j n with hj | hj
  · rw [getElem?_read _ _ _ _ hj, write, if_pos (by omega), List.getElem?_take_of_lt hj,
      List.getElem?_drop, List.getD_eq_getElem?_getD, show a + i + j - a = i + j by omega,
      List.getElem?_eq_getElem (by omega)]
    rfl
  · rw [List.getElem?_eq_none (by simpa using hj), List.getElem?_eq_none (by simp; omega)]

end ULib.ByteMemory
