import ULib.RingBuffer

/-!
The transfers between a ring buffer and a descriptor. Each of the two functions
makes at most two system calls, the second one at the start of the data area.
-/

namespace ULib.RingDescriptor

open ULib.ByteMemory
open ULib.CircularBuffer
open ULib.RingBuffer

/-- The value of a system call that was asked for `n` bytes, and the bytes it transfers; `none` is
an error, and `some xs` what the other side has or takes. -/
def transferred (r : Option (List UInt8)) (n : Int) : Int × List UInt8 :=
  match r with
  | none => (-1, [])
  | some xs => (((xs.take n.toNat).length : Int), xs.take n.toNat)

/-- `read` to the write position. -/
def readCall (s : RbufData) (n : Int) (r : Option (List UInt8)) :
    Option ((Int × List UInt8) × RbufData) :=
  if 0 ≤ n ∧ s.pwrite + n ≤ s.size then
    some (transferred r n, { s with mem := write s.mem s.pwrite (transferred r n).2 })
  else none

def moveWriter (s : RbufData) (n : Int) : RbufData :=
  { s with pwrite := (s.pwrite + n.toNat) % s.size }

/-- The second call, behind `front`. -/
def readRest (s : RbufData) (todo nread : Int) (front : List UInt8) (r : Option (List UInt8)) :
    Option ((Int × List UInt8) × RbufData) :=
  (readCall s todo r).map fun ((n, xs), s) =>
    if 0 < n then ((nread + n, front ++ xs), moveWriter s n) else ((nread, front ++ xs), s)

/-- The value returned, what the calls transferred, and the buffer. -/
def readFromFdAndWrite (s : RbufData) (r₁ r₂ : Option (List UInt8)) :
    Option ((Int × List UInt8) × RbufData) :=
  let todo := free s
  if todo = 0 then some ((-1, []), s)
  else
    (splitAt s s.pwrite todo).bind fun split =>
      if 0 < split then
        (readCall s split r₁).bind fun ((nread, xs), s) =>
          if nread ≤ 0 then some ((nread, xs), s)
          else if split > nread then some ((nread, xs), moveWriter s nread)
          else readRest (moveWriter s nread) (todo - nread) nread xs r₂
      else readRest s todo (-1) [] r₂

/-- `write` from the position of a reader; `some k` is a call that takes up to `k` bytes. -/
def writeCall (s : RbufData) (readd : Nat) (n : Int) (w : Option Nat) :
    Option (Int × List UInt8) :=
  (copyOut s readd n).map fun buf => transferred (w.map fun k => buf.take k) n

def moveReader (s : RbufData) (readd : Nat) (n : Int) : RbufData :=
  setPread s readd ((s.pread readd + n.toNat) % s.size)

def writeRest (s : RbufData) (readd : Nat) (todo nwrite : Int) (front : List UInt8)
    (w : Option Nat) : Option ((Int × List UInt8) × RbufData) :=
  (writeCall s readd todo w).map fun (n, xs) =>
    if 0 < n then ((nwrite + n, front ++ xs), moveReader s readd n)
    else ((nwrite, front ++ xs), s)

def readAndWriteToFd (s : RbufData) (readd : Nat) (w₁ w₂ : Option Nat) :
    Option ((Int × List UInt8) × RbufData) :=
  let todo := avail s readd
  if todo = 0 then some ((0, []), s)
  else
    (splitAt s (s.pread readd) todo).bind fun split =>
      if 0 < split then
        (writeCall s readd split w₁).bind fun (nwrite, xs) =>
          if nwrite ≤ 0 then some ((nwrite, xs), s)
          else if split > nwrite then some ((nwrite, xs), moveReader s readd nwrite)
          else writeRest (moveReader s readd nwrite) readd (todo - nwrite) nwrite xs w₂
      else writeRest s readd todo 0 [] w₂

/-! ### One call -/

theorem transferred_cases (r : Option (List UInt8)) {n : Int} (hn : 0 ≤ n) :
    (transferred r n = (-1, []) ∧ r = none) ∨
      ∃ xs, transferred r n = ((xs.length : Int), xs) ∧ (xs.length : Int) ≤ n ∧ r ≠ none := by
  cases r with
  | none => exact .inl ⟨rfl, rfl⟩
  | some xs =>
      refine .inr ⟨xs.take n.toNat, rfl, ?_, nofun⟩
      rw [List.length_take]
      omega

theorem readCall_of_le {s : RbufData} {n : Int} (hn : 0 ≤ n) (hle : s.pwrite + n ≤ s.size)
    (r : Option (List UInt8)) :
    readCall s n r =
      some (transferred r n, { s with mem := write s.mem s.pwrite (transferred r n).2 }) :=
  if_pos ⟨hn, hle⟩

theorem writeCall_of_le {s : RbufData} {readd n : Nat} (hle : s.pread readd + n ≤ s.size)
    (w : Option Nat) :
    writeCall s readd n w =
      some (transferred (w.map fun k => (slice s.mem s.size (s.pread readd) n).take k) n) := by
  rw [writeCall, copyOut_of_le hle]
  rfl

/-! ### Into the buffer -/

theorem advanced_zero {s : RbufData} (hw : s.pwrite < s.size) (m : Mem) :
    advanced s m 0 = { s with mem := m } := by
  rw [advanced, Nat.add_zero, Nat.mod_eq_of_lt hw]

/-- The second call adds what it transfers. -/
theorem readRest_spec {s : RbufData} (hw : s.pwrite < s.size) {n : Nat}
    (hle : s.pwrite + n ≤ s.size) (nread : Int) (front : List UInt8)
    (r : Option (List UInt8)) :
    ∃ xs, (transferred r n).2 = xs ∧ xs.length ≤ n ∧
      readRest s n nread front r =
        some ((nread + xs.length, front ++ xs),
          advanced s (write s.mem s.pwrite xs) xs.length) := by
  have hnone : ∀ k : Int, k ≤ 0 →
      (if 0 < k then ((nread + k, front ++ []), moveWriter { s with mem := write s.mem s.pwrite [] } k)
        else ((nread, front ++ []), { s with mem := write s.mem s.pwrite [] })) =
      ((nread + ([] : List UInt8).length, front ++ []),
        advanced s (write s.mem s.pwrite []) 0) := by
    intro k hk
    rw [if_neg (by omega), advanced_zero hw, List.length_nil, Int.natCast_zero, Int.add_zero]
  rw [readRest, readCall_of_le (by omega) (by omega), Option.map_some]
  rcases transferred_cases r (n := n) (by omega) with ⟨h, -⟩ | ⟨xs, h, hlength, -⟩
  · rw [h]
    exact ⟨[], rfl, Nat.zero_le n, congrArg some (hnone (-1) (by decide))⟩
  · rw [h]
    refine ⟨xs, rfl, by omega, congrArg some ?_⟩
    cases xs with
    | nil => exact hnone 0 (Int.le_refl 0)
    | cons c xs => exact if_pos (by rw [List.length_cons]; omega)

/-- The bytes that the calls transferred are in the free region in their order, nothing else has
changed, and the value is their number, or not positive if there are none. -/
def Added (s : RbufData) (r₁ r₂ : Option (List UInt8)) : Prop :=
  ∃ n xs m, readFromFdAndWrite s r₁ r₂ = some ((n, xs), advanced s m xs.length) ∧
    Filled s.mem m s.size s.pwrite xs ∧ (xs.length : Int) ≤ free s ∧
    if xs = [] then n ≤ 0 else n = xs.length

/-- The free region is cut by the end of the data area, or the only call transfers nothing. -/
def Counted (s : RbufData) (r₂ : Option (List UInt8)) : Prop :=
  free s = 0 ∨ s.pwrite + free s < 2 ^ 31 ∧
    ((s.size : Int) < s.pwrite + free s ∨ r₂ = none ∨ r₂ = some [])

theorem advanced_advanced (s : RbufData) (m m' : Mem) (n k : Nat) :
    advanced (advanced s m n) m' k = advanced s m' (n + k) := by
  rw [advanced, advanced, advanced, Nat.mod_add_mod, Nat.add_assoc]

/-- A free region that is cut: the value is right, whatever the two calls transfer. -/
theorem added_of_cut {s : RbufData} (hw : s.pwrite < s.size) {f : Nat} (hf : free s = f)
    (hlt : f < s.size) (hint : s.pwrite + f < 2 ^ 31) (hcut : s.size < s.pwrite + f)
    (r₁ r₂ : Option (List UInt8)) : Added s r₁ r₂ := by
  have hsplit : splitAt s s.pwrite f = some ((s.size - s.pwrite : Nat) : Int) := by
    rw [splitAt_of_lt (by omega), if_pos (by omega)]
    exact congrArg some (by omega)
  have hrun : readFromFdAndWrite s r₁ r₂ =
      (readCall s ((s.size - s.pwrite : Nat) : Int) r₁).bind fun ((nread, xs), s₁) =>
        if nread ≤ 0 then some ((nread, xs), s₁)
        else if ((s.size - s.pwrite : Nat) : Int) > nread then
          some ((nread, xs), moveWriter s₁ nread)
        else readRest (moveWriter s₁ nread) (f - nread) nread xs r₂ := by
    rw [readFromFdAndWrite, hf]
    dsimp only
    rw [if_neg (by omega), hsplit, Option.bind_some, if_pos (by omega)]
  rw [Added, hrun, readCall_of_le (by omega) (by omega), Option.bind_some]
  rcases transferred_cases r₁ (n := ((s.size - s.pwrite : Nat) : Int)) (by omega) with
    ⟨h, -⟩ | ⟨xs, h, hlength, -⟩
  · rw [h]
    refine ⟨-1, [], write s.mem s.pwrite [], ?_, ?_, ?_, ?_⟩
    · rw [List.length_nil, advanced_zero hw]
      rfl
    · exact filled_write s.mem (by rw [List.length_nil]; omega) hw
    · rw [hf, List.length_nil]
      omega
    · exact (by decide : (-1 : Int) ≤ 0)
  · rw [h]
    have hfilled : Filled s.mem (write s.mem s.pwrite xs) s.size s.pwrite xs :=
      filled_write s.mem (by omega) hw
    by_cases hnil : xs = []
    · subst hnil
      refine ⟨0, [], write s.mem s.pwrite [], ?_, hfilled, ?_, Int.le_refl 0⟩
      · rw [List.length_nil, advanced_zero hw]
        rfl
      · rw [hf, List.length_nil]
        omega
    · have hpos := List.length_pos_of_ne_nil hnil
      dsimp only
      rw [if_neg (by omega)]
      by_cases hpart : ((s.size - s.pwrite : Nat) : Int) > xs.length
      · rw [if_pos hpart]
        refine ⟨xs.length, xs, write s.mem s.pwrite xs, rfl, hfilled, by omega, ?_⟩
        rw [if_neg hnil]
      · rw [if_neg hpart]
        have hend : s.pwrite + xs.length = s.size := by omega
        have hzero : (advanced s (write s.mem s.pwrite xs) xs.length).pwrite = 0 := by
          rw [advanced, hend, Nat.mod_self]
        have hsize : (advanced s (write s.mem s.pwrite xs) xs.length).size = s.size := rfl
        obtain ⟨ys, -, hys, hrest⟩ := readRest_spec
            (s := advanced s (write s.mem s.pwrite xs) xs.length)
          (n := f - xs.length) (by omega) (by omega) xs.length xs r₂
        have htodo : (f : Int) - xs.length = ((f - xs.length : Nat) : Int) := by omega
        refine ⟨xs.length + ys.length, xs ++ ys, write (write s.mem s.pwrite xs) 0 ys, ?_, ?_, ?_,
          ?_⟩
        · rw [List.length_append, ← advanced_advanced s (write s.mem s.pwrite xs), htodo]
          rw [hzero] at hrest
          exact hrest
        · refine hfilled.append ?_ (by omega)
          rw [hend, Nat.mod_self]
          exact filled_write _ (by omega) (by omega)
        · rw [List.length_append]
          omega
        · rw [if_neg (List.append_ne_nil_of_left_ne_nil hnil ys), List.length_append]
          rfl

/-- A free region that is not cut: the only call adds to the error value. -/
theorem added_iff_of_uncut {s : RbufData} (hw : s.pwrite < s.size) {f : Nat} (hf : free s = f)
    (hpos : 0 < f) (hint : s.pwrite + f < 2 ^ 31) (hcut : s.pwrite + f ≤ s.size)
    (r₁ r₂ : Option (List UInt8)) : Added s r₁ r₂ ↔ r₂ = none ∨ r₂ = some [] := by
  have hsplit : splitAt s s.pwrite f = some 0 := by
    rw [splitAt_of_lt (by omega), if_neg (by omega)]
  obtain ⟨xs, hxs, hlength, hrest⟩ := readRest_spec hw hcut (-1) [] r₂
  have hrun : readFromFdAndWrite s r₁ r₂ = some ((-1 + (xs.length : Int), xs),
      advanced s (write s.mem s.pwrite xs) xs.length) := by
    rw [readFromFdAndWrite, hf]
    dsimp only
    rw [if_neg (by omega), hsplit, Option.bind_some, if_neg (by decide), hrest, List.nil_append]
  have hnil : xs = [] ↔ r₂ = none ∨ r₂ = some [] := by
    rw [← hxs, transferred.eq_def]
    cases r₂ with
    | none => exact iff_of_true rfl (.inl rfl)
    | some ys =>
        cases ys with
        | nil => exact iff_of_true List.take_nil (.inr rfl)
        | cons c ys =>
            refine iff_of_false (fun h => ?_) (not_or_intro nofun nofun)
            have htake := congrArg List.length h
            rw [List.length_take, List.length_cons, List.length_nil] at htake
            omega
  rw [← hnil]
  constructor
  · rintro ⟨n, ys, m, heq, -, -, hvalue⟩
    rw [hrun] at heq
    obtain ⟨hpair, -⟩ := Prod.mk.inj (Option.some.inj heq)
    obtain ⟨rfl, rfl⟩ := Prod.mk.inj hpair
    by_contra hne
    rw [if_neg hne] at hvalue
    omega
  · intro h
    refine ⟨-1 + (xs.length : Int), xs, write s.mem s.pwrite xs, hrun,
      filled_write s.mem (by omega) hw,
      by omega, ?_⟩
    rw [if_pos h, h]
    decide

theorem added_iff {s : RbufData} (hv : Valid s) (r₁ r₂ : Option (List UInt8)) :
    Added s r₁ r₂ ↔ Counted s r₂ := by
  obtain ⟨f, hf, hlt, -⟩ := free_spec hv
  have hw := hv.pwrite_lt
  rw [Counted, hf]
  rcases Nat.eq_zero_or_pos f with rfl | hpos
  · refine iff_of_true ⟨-1, [], s.mem, ?_, filled_nil _ _ _, ?_, by decide⟩ (.inl rfl)
    · rw [readFromFdAndWrite, hf, List.length_nil, advanced_zero hw]
      rfl
    · rw [hf]
      exact Int.le_refl 0
  by_cases hint : s.pwrite + f < 2 ^ 31
  · rcases Nat.lt_or_ge s.size (s.pwrite + f) with hcut | hcut
    · exact iff_of_true (added_of_cut hw hf hlt hint hcut r₁ r₂)
        (.inr ⟨by omega, .inl (by omega)⟩)
    · rw [added_iff_of_uncut hw hf hpos hint hcut]
      constructor
      · exact fun h => .inr ⟨by omega, .inr h⟩
      · rintro (hzero | ⟨-, hlong | h⟩)
        · omega
        · omega
        · exact h
  · refine iff_of_false ?_ (by omega)
    rintro ⟨n, xs, m, heq, -⟩
    have hnone : splitAt s s.pwrite f = none := by
      rw [splitAt, intAdd, if_neg (by omega)]
      rfl
    rw [readFromFdAndWrite, hf] at heq
    dsimp only at heq
    rw [if_neg (by omega), hnone] at heq
    cases heq

/-! ### Out of the buffer -/

/-- The bytes that the calls transferred are the next ones of the reader, which has moved behind
them, nothing else has changed, and the value is their number. -/
def Removed (s : RbufData) (readd : Nat) (w₁ w₂ : Option Nat) : Prop :=
  ∃ n xs, readAndWriteToFd s readd w₁ w₂ = some ((n, xs), consumed s readd xs.length) ∧
    xs = slice s.mem s.size (s.pread readd) xs.length ∧ (xs.length : Int) ≤ avail s readd ∧
    n = xs.length

/-- The bytes that wait are not cut by the end of the data area, or the first call succeeds. -/
def Taken (s : RbufData) (readd : Nat) (w₁ : Option Nat) : Prop :=
  avail s readd = 0 ∨ s.pread readd + avail s readd < 2 ^ 31 ∧
    (s.pread readd + avail s readd ≤ (s.size : Int) ∨ w₁ ≠ none)

theorem consumed_zero {s : RbufData} {readd : Nat} (hr : s.pread readd < s.size) :
    consumed s readd 0 = s := by
  rw [consumed, Nat.add_zero, Nat.mod_eq_of_lt hr, setPread, Function.update_eq_self]

theorem consumed_consumed (s : RbufData) (readd n k : Nat) :
    consumed (consumed s readd n) readd k = consumed s readd (n + k) := by
  have hat : (consumed s readd n).pread readd = (s.pread readd + n) % s.size :=
    Function.update_self readd _ s.pread
  rw [consumed, hat]
  change setPread (setPread s readd _) readd (((s.pread readd + n) % s.size + k) % s.size) = _
  rw [Nat.mod_add_mod, Nat.add_assoc, consumed, setPread, setPread, setPread]
  dsimp only
  rw [Function.update_idem]

/-- What one call takes from a reader. -/
theorem writeCall_spec {s : RbufData} {readd n : Nat} (hle : s.pread readd + n ≤ s.size)
    (w : Option Nat) :
    writeCall s readd n w = some (-1, []) ∧ w = none ∨
      ∃ k ≤ n, writeCall s readd n w =
        some ((k : Int), slice s.mem s.size (s.pread readd) k) ∧ w ≠ none := by
  rw [writeCall_of_le hle]
  cases w with
  | none => exact .inl ⟨rfl, rfl⟩
  | some j =>
      have htake : (slice s.mem s.size (s.pread readd) n).take j =
          slice s.mem s.size (s.pread readd) (min j n) := by
        rw [← take_slice s.mem s.size (s.pread readd) n (min j n) (Nat.min_le_right j n),
          List.take_eq_take_iff, length_slice, Nat.min_assoc, Nat.min_self]
      have hall : (slice s.mem s.size (s.pread readd) (min j n)).take (n : Int).toNat =
          slice s.mem s.size (s.pread readd) (min j n) := by
        refine List.take_of_length_le ?_
        rw [length_slice]
        exact Nat.min_le_right j n
      refine .inr ⟨min j n, Nat.min_le_right j n, congrArg some ?_, nofun⟩
      rw [Option.map_some, transferred, htake, hall, length_slice]

/-- The second call takes what it transfers. -/
theorem writeRest_spec {s : RbufData} {readd n : Nat} (hr : s.pread readd < s.size)
    (hle : s.pread readd + n ≤ s.size) (nwrite : Int) (front : List UInt8) (w : Option Nat) :
    ∃ k ≤ n, writeRest s readd n nwrite front w =
      some ((nwrite + k, front ++ slice s.mem s.size (s.pread readd) k), consumed s readd k) := by
  have hnone : ∀ k : Int, k ≤ 0 →
      (if 0 < k then ((nwrite + k, front ++ []), moveReader s readd k)
        else ((nwrite, front ++ []), s)) =
      ((nwrite + (0 : Nat), front ++ slice s.mem s.size (s.pread readd) 0),
        consumed s readd 0) := by
    intro k hk
    rw [if_neg (by omega), consumed_zero hr, Int.natCast_zero, Int.add_zero, slice_zero]
  rw [writeRest]
  rcases writeCall_spec hle w with ⟨h, -⟩ | ⟨k, hk, h, -⟩
  · rw [h]
    exact ⟨0, Nat.zero_le n, congrArg some (hnone (-1) (by decide))⟩
  · rw [h]
    refine ⟨k, hk, congrArg some ?_⟩
    cases k with
    | zero => exact hnone 0 (Int.le_refl 0)
    | succ k => exact if_pos (by omega)

theorem removed_of_cut {s : RbufData} {readd : Nat} (hr : s.pread readd < s.size) {a : Nat}
    (ha : avail s readd = a) (hlt : a < s.size) (hint : s.pread readd + a < 2 ^ 31)
    (hcut : s.size < s.pread readd + a) (w₁ w₂ : Option Nat) :
    Removed s readd w₁ w₂ ↔ w₁ ≠ none := by
  have hsplit : splitAt s (s.pread readd) a = some ((s.size - s.pread readd : Nat) : Int) := by
    rw [splitAt_of_lt (by omega), if_pos (by omega)]
    exact congrArg some (by omega)
  have hrun : readAndWriteToFd s readd w₁ w₂ =
      (writeCall s readd ((s.size - s.pread readd : Nat) : Int) w₁).bind fun (nwrite, xs) =>
        if nwrite ≤ 0 then some ((nwrite, xs), s)
        else if ((s.size - s.pread readd : Nat) : Int) > nwrite then
          some ((nwrite, xs), moveReader s readd nwrite)
        else writeRest (moveReader s readd nwrite) readd (a - nwrite) nwrite xs w₂ := by
    rw [readAndWriteToFd, ha]
    dsimp only
    rw [if_neg (by omega), hsplit, Option.bind_some, if_pos (by omega)]
  rw [Removed, hrun]
  have hcall := @writeCall_spec s readd (s.size - s.pread readd) (by omega) w₁
  rcases hcall with ⟨h, hw⟩ | ⟨k, hk, h, hw⟩
  · rw [h, Option.bind_some]
    refine iff_of_false ?_ (not_not_intro hw)
    rintro ⟨n, xs, heq, -, -, hvalue⟩
    have hn : (-1 : Int) = n := (Prod.mk.inj (Prod.mk.inj (Option.some.inj heq)).1).1
    omega
  · rw [h, Option.bind_some]
    refine iff_of_true ?_ hw
    by_cases hzero : k = 0
    · subst hzero
      refine ⟨0, [], congrArg (fun t => some ((0, []), t)) (consumed_zero hr).symm, rfl, ?_, rfl⟩
      rw [ha]
      exact Int.natCast_nonneg a
    dsimp only
    rw [if_neg (by omega)]
    by_cases hpart : ((s.size - s.pread readd : Nat) : Int) > k
    · rw [if_pos hpart]
      refine ⟨k, slice s.mem s.size (s.pread readd) k, ?_, ?_, ?_, ?_⟩
      · rw [length_slice]
        rfl
      · rw [length_slice]
      · rw [length_slice]
        omega
      · rw [length_slice]
    · rw [if_neg hpart]
      have hend : s.pread readd + k = s.size := by omega
      have hat : (consumed s readd k).pread readd = 0 := by
        rw [consumed, setPread, hend, Nat.mod_self]
        exact Function.update_self readd 0 s.pread
      obtain ⟨j, hj, hrest⟩ := @writeRest_spec (consumed s readd k) readd (a - k)
        (by rw [hat]; exact Nat.zero_lt_of_lt hr)
        (by rw [hat]; exact (by omega : 0 + (a - k) ≤ s.size)) k
        (slice s.mem s.size (s.pread readd) k) w₂
      have htodo : (a : Int) - k = ((a - k : Nat) : Int) := by omega
      have hslice : slice s.mem s.size (s.pread readd) k ++
          slice (consumed s readd k).mem (consumed s readd k).size 0 j =
            slice s.mem s.size (s.pread readd) (k + j) := by
        rw [slice_append, hend, Nat.mod_self]
        rfl
      rw [hat, hslice, consumed_consumed] at hrest
      refine ⟨k + j, slice s.mem s.size (s.pread readd) (k + j), ?_, ?_, ?_, ?_⟩
      · rw [length_slice, htodo]
        exact hrest
      · rw [length_slice]
      · rw [length_slice]
        omega
      · rw [length_slice]
        rfl

theorem removed_of_uncut {s : RbufData} {readd : Nat} (hr : s.pread readd < s.size) {a : Nat}
    (ha : avail s readd = a) (hpos : 0 < a) (hint : s.pread readd + a < 2 ^ 31)
    (hcut : s.pread readd + a ≤ s.size) (w₁ w₂ : Option Nat) : Removed s readd w₁ w₂ := by
  have hsplit : splitAt s (s.pread readd) a = some 0 := by
    rw [splitAt_of_lt (by omega), if_neg (by omega)]
  obtain ⟨k, hk, hrest⟩ := writeRest_spec hr hcut 0 [] w₂
  refine ⟨0 + k, slice s.mem s.size (s.pread readd) k, ?_, ?_, ?_, ?_⟩
  · rw [length_slice, readAndWriteToFd, ha]
    dsimp only
    rw [if_neg (by omega), hsplit, Option.bind_some, if_neg (by decide), hrest, List.nil_append]
  · rw [length_slice]
  · rw [length_slice]
    omega
  · rw [length_slice, Int.zero_add]

theorem removed_iff {s : RbufData} (hv : Valid s) {readd : Nat} (hopen : s.readers readd = true)
    (w₁ w₂ : Option Nat) : Removed s readd w₁ w₂ ↔ Taken s readd w₁ := by
  have hr := hv.pread_lt readd hopen
  have ha := avail_eq_waiting hr hv.pwrite_lt
  have hlt := waiting_lt hr hv.pwrite_lt
  generalize waiting s readd = a at ha hlt
  rw [Taken, ha]
  rcases Nat.eq_zero_or_pos a with rfl | hpos
  · refine iff_of_true ⟨0, [], ?_, rfl, ?_, rfl⟩ (.inl rfl)
    · rw [readAndWriteToFd, ha, List.length_nil, consumed_zero hr]
      rfl
    · rw [ha]
      exact Int.le_refl 0
  by_cases hint : s.pread readd + a < 2 ^ 31
  · rcases Nat.lt_or_ge s.size (s.pread readd + a) with hcut | hcut
    · rw [removed_of_cut hr ha hlt hint hcut]
      constructor
      · exact fun h => .inr ⟨by omega, .inr h⟩
      · rintro (hzero | ⟨-, hshort | h⟩)
        · omega
        · omega
        · exact h
    · exact iff_of_true (removed_of_uncut hr ha hpos hint hcut w₁ w₂)
        (.inr ⟨by omega, .inl (by omega)⟩)
  · refine iff_of_false ?_ (by omega)
    rintro ⟨n, xs, heq, -⟩
    have hnone : splitAt s (s.pread readd) a = none := by
      rw [splitAt, intAdd, if_neg (by omega)]
      rfl
    rw [readAndWriteToFd, ha] at heq
    dsimp only at heq
    rw [if_neg (by omega), hnone] at heq
    cases heq

/-! ### The transfers -/

/-- Both transfers return what they moved, in exactly the cases in which the free region is cut by
the end of the data area or nothing is read, and what waits is not cut or the first write does not
fail. -/
theorem transfers_iff {s : RbufData} (hv : Valid s) {readd : Nat} (hopen : s.readers readd = true)
    (r₁ r₂ : Option (List UInt8)) (w₁ w₂ : Option Nat) :
    Added s r₁ r₂ ∧ Removed s readd w₁ w₂ ↔ Counted s r₂ ∧ Taken s readd w₁ :=
  and_congr (added_iff hv r₁ r₂) (removed_iff hv hopen w₁ w₂)

/-- A data area of eight bytes with its reader. -/
def opened : RbufData := (open' (newBuffer 8 fun _ => 0)).2

theorem valid_opened : Valid opened := valid_open (newBuffer_valid (by decide) (by decide) _)

/-- The writer at 7, two bytes in front of it that wait: five are free, one of them in front of the
end. -/
theorem transfers_cut :
    Added (consumed (advanced opened (fun _ => 0) 7) 0 5) (some [1]) (some [2, 3, 4, 5]) ∧
      Removed (consumed (advanced opened (fun _ => 0) 7) 0 5) 0 (some 9) none := by
  have hv : Valid (consumed (advanced opened (fun _ => 0) 7) 0 5) :=
    valid_setPread (valid_advanced valid_opened _ 7) (by decide +kernel)
  have hcounted : Counted (consumed (advanced opened (fun _ => 0) 7) 0 5) (some [2, 3, 4, 5]) :=
    .inr ⟨by decide +kernel, .inl (by decide +kernel)⟩
  have htaken : Taken (consumed (advanced opened (fun _ => 0) 7) 0 5) 0 (some 9) :=
    .inr ⟨by decide +kernel, .inr nofun⟩
  exact (transfers_iff hv (by decide +kernel) _ _ _ _).mpr ⟨hcounted, htaken⟩

/-- Three bytes are read into the empty data area, and the value is two. -/
theorem not_transfers :
    ¬ (Added opened (some []) (some [1, 2, 3]) ∧ Removed opened 0 (some 0) (some 0)) := by
  rintro ⟨hadded, -⟩
  have hcounted : ¬ Counted opened (some [1, 2, 3]) := by
    rw [Counted, not_or, not_and, not_or]
    exact ⟨by decide +kernel, fun _ => ⟨by decide +kernel, by decide⟩⟩
  exact hcounted ((added_iff valid_opened _ _).mp hadded)

end ULib.RingDescriptor
