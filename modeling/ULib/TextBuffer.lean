import ULib.StringHeap

/-!
A `UString` of `string.h` that a function writes on its own: the text, the
capacity and the bytes of its block. To write behind them is undefined, and so
is every use of what an allocation of no pages gives.
-/

namespace ULib.TextBuffer

open ULib.KeyComparison
open ULib.JsonValue (howMuchPreallocate uCapacity)
open ULib.StringHeap (allocated)

structure Buffer where
  data : Bytes
  capacity : Nat
  room : Nat
  deriving DecidableEq, Repr

/-- `UString(n)` -/
def created (n : Nat) : Buffer := ⟨[], (allocated n).1, (allocated n).2⟩

/-- `UStringRep::create` with the text of another representation, which ends with NUL. -/
def copied (data : Bytes) (capacity : Nat) : Option Buffer :=
  if data ≠ [] ∧ (allocated capacity).2 ≤ data.length then none
  else some ⟨data, (allocated capacity).1, (allocated capacity).2⟩

/-- Bytes are copied to the end of the text, within the capacity. -/
def put (x : Buffer) (t : Bytes) : Option Buffer :=
  if x.data.length + t.length ≤ x.capacity then some { x with data := x.data ++ t } else none

/-- `UString::reserve` -/
def reserve (x : Buffer) (n : Nat) : Option Buffer :=
  if n % 2 ^ 32 ≤ x.capacity then some x else copied x.data (howMuchPreallocate (n % 2 ^ 32))

/-- `UString::append`, which puts a NUL behind the text. -/
def append (x : Buffer) (t : Bytes) : Option Buffer :=
  if t = [] then some x
  else
    let sz1 := (x.data.length + t.length) % 2 ^ 32
    (if x.capacity < sz1 then copied x.data (howMuchPreallocate sz1) else some x).bind fun x =>
      if sz1 < x.room ∧ x.data.length + t.length ≤ x.room then
        some { x with data := x.data ++ t }
      else none

/-! ### put -/

theorem put_nil {x : Buffer} (h : x.data.length ≤ x.capacity) : put x [] = some x := by
  rw [put, List.append_nil, List.length_nil, Nat.add_zero, if_pos h]

theorem le_capacity_of_put {x y : Buffer} {t : Bytes} (h : put x t = some y) :
    y.data.length ≤ y.capacity := by
  rw [put] at h
  split_ifs at h with ht
  obtain rfl := Option.some.inj h
  rwa [List.length_append]

/-- Two copies are one. -/
theorem put_append (x : Buffer) (s t : Bytes) :
    (put x s).bind (fun x => put x t) = put x (s ++ t) := by
  rw [put, put, List.length_append]
  split_ifs with hs hst hst
  · rw [Option.bind_some, put]
    dsimp only
    rw [List.length_append, if_pos (by omega), List.append_assoc]
  · rw [Option.bind_some, put]
    dsimp only
    rw [List.length_append, if_neg (by omega)]
  · omega
  · rfl

theorem put_created (n : Nat) (t : Bytes) :
    (put (created n) t).map Buffer.data =
      if t.length ≤ (allocated n).1 then some t else none := by
  rw [put, created]
  dsimp only
  rw [List.length_nil, Nat.zero_add, List.nil_append]
  split_ifs <;> rfl

/-! ### What an allocation gives -/

/-- No block has more whole pages than can be counted. -/
def maxSize : Nat := 2 ^ 32 - 4096

/-- A small text gets a block of the pool. -/
theorem allocated_pool {n : Nat} (h : n ≤ uCapacity) :
    ∃ type, (n + 25 ≤ type ∧ type ≤ 4096) ∧ allocated n = (type - 25, type - 24) := by
  rw [allocated, if_pos h]
  refine ⟨_, ?_, rfl⟩
  iterate 5
    refine iteInduction (motive := fun type => n + 25 ≤ type ∧ type ≤ 4096)
      (fun hle => ⟨hle, by decide⟩) fun _ => ?_
  rw [uCapacity] at h
  omega

/-- A block has room for what was asked for as long as its pages can be counted. -/
theorem le_allocated {n : Nat} (hn : n ≤ maxSize) : n ≤ (allocated n).1 := by
  by_cases hsmall : n ≤ uCapacity
  · obtain ⟨type, htype, heq⟩ := allocated_pool hsmall
    rw [heq]
    dsimp only
    omega
  · rw [maxSize] at hn
    rw [allocated, if_neg hsmall]
    dsimp only
    omega

/-- Room for twice a length is enough as long as twice the length can be counted, in whole pages. -/
theorem double_fits_iff {n m : Nat} (hn : n < 2 ^ 32) (hge : n ≤ m) (hle : m ≤ n * 2) :
    m ≤ (allocated (n * 2 % 2 ^ 32)).1 ↔ n * 2 ≤ maxSize := by
  constructor
  · intro hfits
    refine Nat.not_lt.mp fun hlt => ?_
    rw [maxSize] at hlt
    have hcapacity : (allocated (n * 2 % 2 ^ 32)).1 < n := by
      by_cases hsmall : n * 2 % 2 ^ 32 ≤ uCapacity
      · obtain ⟨type, htype, heq⟩ := allocated_pool hsmall
        rw [heq]
        dsimp only
        omega
      · rw [allocated, if_neg hsmall]
        dsimp only
        omega
    omega
  · intro hsmall
    rw [Nat.mod_eq_of_lt (Nat.lt_of_le_of_lt hsmall (by decide))]
    exact Nat.le_trans hle (le_allocated hsmall)

theorem allocated_le (n : Nat) : (allocated n).1 ≤ maxSize ∧ (allocated n).2 ≤ maxSize := by
  rw [maxSize]
  by_cases hsmall : n ≤ uCapacity
  · obtain ⟨type, htype, heq⟩ := allocated_pool hsmall
    rw [heq]
    dsimp only
    omega
  · rw [allocated, if_neg hsmall]
    dsimp only
    omega

/-- A block of the pool has one byte more than the capacity, and pages have not. -/
def roomOf (capacity : Nat) : Nat := if capacity ≤ uCapacity then capacity + 1 else capacity

theorem room_allocated {n : Nat} (hn : n ≤ maxSize) :
    (allocated n).2 = roomOf (allocated n).1 := by
  by_cases hsmall : n ≤ uCapacity
  · obtain ⟨type, htype, heq⟩ := allocated_pool hsmall
    rw [heq, roomOf, uCapacity]
    dsimp only
    rw [if_pos (by omega)]
    omega
  · rw [maxSize] at hn
    rw [allocated, if_neg hsmall, roomOf]
    dsimp only
    rw [uCapacity] at hsmall ⊢
    rw [if_neg (by omega)]

theorem le_howMuchPreallocate (n : Nat) : n ≤ howMuchPreallocate n := by
  rw [howMuchPreallocate]
  split_ifs <;> omega

theorem howMuchPreallocate_le {n : Nat} (hn : n ≤ maxSize) : howMuchPreallocate n ≤ maxSize := by
  rw [maxSize] at hn ⊢
  rw [howMuchPreallocate, uCapacity]
  split_ifs <;> omega

/-! ### Growth -/

/-- The capacity behind `reserve`. -/
def granted (capacity n : Nat) : Nat :=
  if n ≤ capacity then capacity else (allocated (howMuchPreallocate n)).1

theorem le_granted {n : Nat} (hn : n ≤ maxSize) (capacity : Nat) : n ≤ granted capacity n := by
  rw [granted]
  split_ifs with hle
  · exact hle
  · exact Nat.le_trans (le_howMuchPreallocate n) (le_allocated (howMuchPreallocate_le hn))

theorem le_granted_of_le {c capacity : Nat} (hc : c ≤ capacity) {n : Nat} (hn : n ≤ maxSize) :
    c ≤ granted capacity n := by
  rw [granted]
  split_ifs with hle
  · exact hc
  · have := Nat.le_trans (le_howMuchPreallocate n) (le_allocated (howMuchPreallocate_le hn))
    omega

theorem granted_le {capacity : Nat} (hcapacity : capacity ≤ maxSize) (n : Nat) :
    granted capacity n ≤ maxSize := by
  rw [granted]
  split_ifs
  · exact hcapacity
  · exact (allocated_le _).1

/-- The block is one that `UStringRep::create` made, and its text is within the capacity. -/
structure Regular (x : Buffer) : Prop where
  capacity_le : x.capacity ≤ maxSize
  room_eq : x.room = roomOf x.capacity
  length_le : x.data.length ≤ x.capacity

theorem regular_created {n : Nat} (hn : n ≤ maxSize) : Regular (created n) where
  capacity_le := (allocated_le n).1
  room_eq := room_allocated hn
  length_le := Nat.zero_le _

theorem roomOf_le {capacity : Nat} (h : capacity ≤ maxSize) : roomOf capacity ≤ maxSize := by
  rw [maxSize] at h ⊢
  rw [roomOf, uCapacity]
  split_ifs <;> omega

/-- The same text with room for `n` bytes. -/
def resized (x : Buffer) (n : Nat) : Buffer :=
  ⟨x.data, granted x.capacity n, roomOf (granted x.capacity n)⟩

theorem resized_of_le {x : Buffer} (hx : Regular x) {n : Nat} (hn : n ≤ x.capacity) :
    resized x n = x := by
  rw [resized, granted, if_pos hn, ← hx.room_eq]

theorem regular_resized {x : Buffer} (hx : Regular x) {n : Nat} (hn : n ≤ maxSize) :
    Regular (resized x n) where
  capacity_le := granted_le hx.capacity_le n
  room_eq := rfl
  length_le := le_granted_of_le hx.length_le hn

/-- The buffer with the text behind its own. -/
def filled (x : Buffer) (t : Bytes) : Buffer :=
  { resized x (x.data.length + t.length) with data := x.data ++ t }

theorem length_filled (x : Buffer) (t : Bytes) :
    (filled x t).data.length = x.data.length + t.length := List.length_append

theorem regular_filled {x : Buffer} (hx : Regular x) {t : Bytes}
    (hle : x.data.length + t.length ≤ maxSize) : Regular (filled x t) where
  capacity_le := (regular_resized hx hle).capacity_le
  room_eq := rfl
  length_le := by
    rw [length_filled]
    exact le_granted hle x.capacity

theorem copied_howMuchPreallocate {x : Buffer} (hx : Regular x) {n : Nat} (hn : n ≤ maxSize)
    (hlt : x.capacity < n) : copied x.data (howMuchPreallocate n) = some (resized x n) := by
  have hle := howMuchPreallocate_le hn
  have hroom : x.data.length < (allocated (howMuchPreallocate n)).2 := by
    have hcapacity := Nat.le_trans (le_howMuchPreallocate n) (le_allocated hle)
    have hdata := hx.length_le
    rw [room_allocated hle, roomOf]
    split_ifs <;> omega
  rw [copied, if_neg (fun h => Nat.not_lt.mpr h.2 hroom), resized, granted,
    if_neg (Nat.not_le.mpr hlt), room_allocated hle]

theorem reserve_eq {x : Buffer} (hx : Regular x) {n : Nat} (hn : n ≤ maxSize) :
    reserve x n = some (resized x n) := by
  have hmod : n % 2 ^ 32 = n := Nat.mod_eq_of_lt (by rw [maxSize] at hn; omega)
  rw [reserve, hmod]
  split_ifs with hle
  · rw [resized_of_le hx hle]
  · exact copied_howMuchPreallocate hx hn (Nat.not_le.mp hle)

/-- A reserve whose argument is counted in 32 bits, and a copy. -/
theorem reserve_bind_put {x : Buffer} (hx : Regular x) (n : Nat) {t : Bytes} (ht : t ≠ []) :
    (reserve x n).bind (fun x => put x t) =
      if x.data.length + t.length ≤ granted x.capacity (n % 2 ^ 32) then
        some { resized x (n % 2 ^ 32) with data := x.data ++ t }
      else none := by
  have hmod : reserve x n = reserve x (n % 2 ^ 32) := by rw [reserve, reserve, Nat.mod_mod]
  rw [hmod]
  generalize hm : n % 2 ^ 32 = m
  by_cases hle : m ≤ maxSize
  · rw [reserve_eq hx hle, Option.bind_some]
    rfl
  · -- no page is mapped
    have hlt : m < 2 ^ 32 := hm ▸ Nat.mod_lt n (by decide)
    rw [maxSize] at hle
    have hcapacity := hx.capacity_le
    rw [maxSize] at hcapacity
    have hpos := List.length_pos_of_ne_nil ht
    have hzero : allocated (howMuchPreallocate m) = (0, 0) := by
      rw [howMuchPreallocate, uCapacity, if_neg (by omega), if_pos (by omega), allocated, uCapacity,
        if_neg (by omega)]
      dsimp only
      rw [show (m + 4095) % 2 ^ 32 / 4096 * 4096 = 0 by omega]
    have hgranted : granted x.capacity m = 0 := by rw [granted, if_neg (by omega), hzero]
    rw [hgranted, if_neg (by omega), reserve, Nat.mod_eq_of_lt hlt, if_neg (by omega), copied,
      hzero]
    split_ifs
    · rfl
    · rw [Option.bind_some, put, if_neg (by dsimp only; omega)]

/-- However much is asked for, the block can be counted in pages. -/
theorem of_reserve {x y : Buffer} (hx : Regular x) {n : Nat} (h : reserve x n = some y) :
    y.data = x.data ∧ y.capacity ≤ maxSize := by
  rw [reserve] at h
  split_ifs at h
  · obtain rfl := Option.some.inj h
    exact ⟨rfl, hx.capacity_le⟩
  · rw [copied] at h
    split_ifs at h
    obtain rfl := Option.some.inj h
    exact ⟨rfl, (allocated_le _).1⟩

/-- The NUL needs a byte of its own. -/
theorem append_eq {x : Buffer} (hx : Regular x) {t : Bytes} (ht : t ≠ []) :
    append x t =
      if x.data.length + t.length ≤ maxSize ∧
          x.data.length + t.length < roomOf (granted x.capacity (x.data.length + t.length)) then
        some (filled x t)
      else none := by
  generalize hn : x.data.length + t.length = n
  rw [append, if_neg ht, hn]
  by_cases hle : n ≤ maxSize
  · have hmod : n % 2 ^ 32 = n := Nat.mod_eq_of_lt (by rw [maxSize] at hle; omega)
    have hgrow : (if x.capacity < n then copied x.data (howMuchPreallocate n) else some x) =
        some (resized x n) := by
      split_ifs with hlt
      · exact copied_howMuchPreallocate hx hle hlt
      · rw [resized_of_le hx (Nat.not_lt.mp hlt)]
    dsimp only
    rw [hmod, hgrow, Option.bind_some]
    change (if n < roomOf (granted x.capacity n) ∧
      (resized x n).data.length + t.length ≤ roomOf (granted x.capacity n) then _ else _) = _
    have hdata : (resized x n).data.length + t.length = n := hn
    rw [hdata]
    split_ifs with hroom hfits hfits
    · rw [filled, hn]
      rfl
    · exact absurd ⟨hle, hroom.1⟩ hfits
    · exact absurd ⟨hfits.2, Nat.le_of_lt hfits.2⟩ hroom
    · rfl
  · rw [if_neg (fun h => hle h.1), Option.bind_eq_none_iff]
    intro y hy
    have hroom : y.data = x.data ∧ y.room ≤ maxSize := by
      split_ifs at hy
      · rw [copied] at hy
        split_ifs at hy
        obtain rfl := Option.some.inj hy
        exact ⟨rfl, (allocated_le _).2⟩
      · obtain rfl := Option.some.inj hy
        rw [hx.room_eq]
        exact ⟨rfl, roomOf_le hx.capacity_le⟩
    rw [if_neg]
    rintro ⟨-, hfits⟩
    rw [hroom.1, hn] at hfits
    omega

end ULib.TextBuffer
