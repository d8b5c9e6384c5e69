import ULib.ByteMemory

/-!
A block of `N` bytes used as a circle: what is read from a position on, and what
a transfer that may run over the end of the block leaves behind.
-/

namespace ULib.CircularBuffer

open ULib.ByteMemory

/-- The `n` bytes from position `p` on, around the end of the block. -/
def slice (m : Mem) (N p n : Nat) : List UInt8 :=
  (List.range n).map fun k => m ((p + k) % N)

/-- `m'` is `m` with the bytes `xs` laid down from position `p` on. -/
structure Filled (m m' : Mem) (N p : Nat) (xs : List UInt8) : Prop where
  stored : ∀ j (hj : j < xs.length), m' ((p + j) % N) = xs[j]
  rest : ∀ j, xs.length ≤ j → j < N → m' ((p + j) % N) = m ((p + j) % N)

@[simp] theorem length_slice (m : Mem) (N p n : Nat) : (slice m N p n).length = n := by
  simp [slice]

@[simp] theorem slice_zero (m : Mem) (N p : Nat) : slice m N p 0 = [] := rfl

theorem getElem_slice (m : Mem) (N p n i : Nat) (hi : i < (slice m N p n).length) :
    (slice m N p n)[i] = m ((p + i) % N) := by
  simp [slice]

theorem slice_append (m : Mem) (N p n k : Nat) :
    slice m N p (n + k) = slice m N p n ++ slice m N ((p + n) % N) k := by
  simp only [slice, List.range_add, List.map_append, List.map_map]
  congr 1
  apply List.map_congr_left
  intro i _
  simp [Nat.add_assoc]

theorem take_slice (m : Mem) (N p n k : Nat) (hk : k ≤ n) :
    (slice m N p n).take k = slice m N p k := by
  obtain ⟨d, rfl⟩ := Nat.exists_eq_add_of_le hk
  rw [slice_append, List.take_left' (length_slice m N p k)]

/-- A stretch that does not pass the end of the block is a plain block. -/
theorem slice_eq_read (m : Mem) {N p n : Nat} (h : p + n ≤ N) : slice m N p n = read m p n := by
  apply List.map_congr_left
  intro i hi
  rw [Nat.mod_eq_of_lt (by have := List.mem_range.mp hi; omega)]

theorem mod_add_self_sub {N p x : Nat} (hp : p < N) (hx : x < N) :
    (p + (x + N - p) % N) % N = x := by
  rw [Nat.add_mod_mod, show p + (x + N - p) = x + N by omega, Nat.add_mod_right,
    Nat.mod_eq_of_lt hx]

theorem filled_write (m : Mem) {N p : Nat} {xs : List UInt8} (h : p + xs.length ≤ N)
    (hp : p < N) : Filled m (write m p xs) N p xs := by
  refine ⟨?_, ?_⟩
  · intro j hj
    rw [Nat.mod_eq_of_lt (by omega), write, if_pos ⟨by omega, by omega⟩]
    simp [hj]
  · intro j hj hjN
    apply if_neg
    rcases Nat.lt_or_ge (p + j) N with hlt | hge
    · rw [Nat.mod_eq_of_lt hlt]
      omega
    · rw [Nat.mod_eq_sub_mod hge, Nat.mod_eq_of_lt (by omega)]
      omega

theorem filled_nil (m : Mem) (N p : Nat) : Filled m m N p [] :=
  ⟨fun j hj => absurd hj (Nat.not_lt_zero j), fun _ _ _ => rfl⟩

/-- Two transfers, one behind the other. -/
theorem Filled.append {m m₁ m₂ : Mem} {N p : Nat} {xs ys : List UInt8}
    (h₁ : Filled m m₁ N p xs) (h₂ : Filled m₁ m₂ N ((p + xs.length) % N) ys)
    (hroom : xs.length + ys.length ≤ N) : Filled m m₂ N p (xs ++ ys) := by
  have hpos : ∀ j, ((p + xs.length) % N + j) % N = (p + (xs.length + j)) % N := by
    intro j
    rw [Nat.mod_add_mod, Nat.add_assoc]
  -- a byte before the second transfer is met by it only after a whole turn
  have hback : ∀ j, j < xs.length → m₂ ((p + j) % N) = m₁ ((p + j) % N) := by
    intro j hj
    have h := h₂.rest (N - xs.length + j) (by omega) (by omega)
    rw [hpos, show p + (xs.length + (N - xs.length + j)) = p + j + N by omega,
      Nat.add_mod_right] at h
    exact h
  refine ⟨?_, ?_⟩
  · intro j hj
    rw [List.length_append] at hj
    rcases Nat.lt_or_ge j xs.length with hlt | hge
    · rw [hback j hlt, h₁.stored j hlt, List.getElem_append_left hlt]
    · have h := h₂.stored (j - xs.length) (by omega)
      rw [hpos, show xs.length + (j - xs.length) = j by omega] at h
      rw [h, List.getElem_append_right hge]
  · intro j hj hjN
    rw [List.length_append] at hj
    have h := h₂.rest (j - xs.length) (by omega) (by omega)
    rw [hpos, show xs.length + (j - xs.length) = j by omega] at h
    rw [h, h₁.rest j (by omega) hjN]

/-- What stood before the filled stretch is still read, followed by the new bytes. -/
theorem Filled.slice_eq {m m' : Mem} {N p q k : Nat} {xs : List UInt8}
    (h : Filled m m' N p xs) (hp : p = (q + k) % N) (hroom : k + xs.length ≤ N) :
    slice m' N q (k + xs.length) = slice m N q k ++ xs := by
  have hpos : ∀ j, (p + j) % N = (q + (k + j)) % N := by
    intro j
    rw [hp, Nat.mod_add_mod, Nat.add_assoc]
  have hold : ∀ j, j < k → m' ((q + j) % N) = m ((q + j) % N) := by
    intro j hj
    have h' := h.rest (N - k + j) (by omega) (by omega)
    rw [hpos, show q + (k + (N - k + j)) = q + j + N by omega, Nat.add_mod_right] at h'
    exact h'
  apply List.ext_getElem
  · simp
  · intro j hj hj'
    rw [getElem_slice]
    rcases Nat.lt_or_ge j k with hlt | hge
    · rw [List.getElem_append_left (by simpa using hlt), getElem_slice, hold j hlt]
    · rw [List.getElem_append_right (by simpa using hge)]
      have hj₂ : j - k < xs.length := by
        rw [length_slice] at hj
        omega
      have h' := h.stored (j - k) hj₂
      rw [hpos, show k + (j - k) = j by omega] at h'
      simpa using h'

end ULib.CircularBuffer
