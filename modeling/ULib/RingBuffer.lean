import ULib.CircularBuffer
import Mathlib.Algebra.Group.Int.Defs
import Mathlib.Logic.Function.Basic
import Mathlib.Data.List.Nodup

/-!
`URingBuffer`: one writer and up to `FD_SETSIZE` readers around a data area of
`size` bytes. The calls are taken whole, as the lock around them has it.

A step is undefined where the source leaves the C++ rules: a `memcpy` past the
data area or of a negative length, and an overflow of a signed sum.
-/

namespace ULib.RingBuffer

open ULib.ByteMemory
open ULib.CircularBuffer

def fdSetSize : Nat := 1024

def pktHdrSize : Nat := 2

/-- `rbuf_data` with the size of the data area behind it. -/
structure RbufData where
  size : Nat
  mem : Mem
  pwrite : Nat
  readers : Nat → Bool
  readdCnt : Int
  pread : Nat → Nat

/-- Bytes waiting for a reader. -/
def avail (s : RbufData) (readd : Nat) : Int :=
  let d : Int := s.pwrite - s.pread readd
  if d < 0 then d + s.size else d

def minPreadLoop (s : RbufData) : List Nat → Int → Nat → Int → Nat
  | [], _, minPread, _ => minPread
  | i :: is, cnt, minPread, minAvail =>
      if s.readers i then
        let best := if avail s i > minAvail then (avail s i, s.pread i) else (minAvail, minPread)
        if cnt + 1 ≥ s.readdCnt then best.2 else minPreadLoop s is (cnt + 1) best.2 best.1
      else minPreadLoop s is cnt minPread minAvail

/-- The position of the reader with the most bytes waiting. -/
def minPread (s : RbufData) : Nat :=
  minPreadLoop s (List.range fdSetSize) 0 0 (-1)

/-- Bytes that may be written. -/
def free (s : RbufData) : Int :=
  let d : Int := minPread s - s.pwrite
  (if d ≤ 0 then d + s.size else d) - 1

def setReader (s : RbufData) (readd : Nat) (b : Bool) : RbufData :=
  { s with readers := Function.update s.readers readd b }

def setPread (s : RbufData) (readd p : Nat) : RbufData :=
  { s with pread := Function.update s.pread readd p }

def openLoop (s : RbufData) : List Nat → Int × RbufData
  | [] => (-1, s)
  | i :: is =>
      if s.readers i then openLoop s is
      else (i, { setPread (setReader s i true) i s.pwrite with readdCnt := s.readdCnt + 1 })

def open' (s : RbufData) : Int × RbufData :=
  openLoop s (List.range fdSetSize)

def close (s : RbufData) (readd : Nat) : RbufData :=
  { setReader s readd false with readdCnt := s.readdCnt - 1 }

/-- `memcpy` into the data area at the write position. -/
def copyIn (s : RbufData) (buf : List UInt8) : Option RbufData :=
  if s.pwrite + buf.length ≤ s.size then some { s with mem := write s.mem s.pwrite buf } else none

/-- `memcpy` of `n` bytes out of the data area at the position of a reader. -/
def copyOut (s : RbufData) (readd : Nat) (n : Int) : Option (List UInt8) :=
  if 0 ≤ n ∧ s.pread readd + n ≤ s.size then some (read s.mem (s.pread readd) n.toNat) else none

/-- A sum of two `int`. -/
def intAdd (a b : Int) : Option Int :=
  if a + b < 2 ^ 31 then some (a + b) else none

/-- Where a transfer of `len` bytes at position `p` is cut, or zero. -/
def splitAt (s : RbufData) (p : Nat) (len : Int) : Option Int :=
  (intAdd p len).map fun e => if e > (s.size : Int) then (s.size : Int) - p else 0

def putHeader (s : RbufData) (len : Int) : Option RbufData :=
  (copyIn s [UInt8.ofNat (len.toNat / 256), UInt8.ofNat len.toNat]).map fun s =>
    { s with pwrite := (s.pwrite + pktHdrSize) % s.size }

/-- The two copies of `write`: all of `buf` is copied. -/
def putBytes (s : RbufData) (buf : List UInt8) (split : Int) : Option RbufData :=
  if 0 < split then
    (copyIn s (buf.take split.toNat)).bind fun s =>
      let s := { s with pwrite := 0 }
      (copyIn s (buf.drop split.toNat)).map fun s =>
        { s with pwrite := (s.pwrite + (buf.length - split.toNat)) % s.size }
  else
    (copyIn s buf).map fun s => { s with pwrite := (s.pwrite + buf.length) % s.size }

/-- `write`: the value returned and the number of bytes of `buf` copied. -/
def writeBuf (s : RbufData) (buf : List UInt8) (pkt : Bool) :
    Option ((Int × Nat) × RbufData) :=
  let len : Int := if pkt then buf.length + pktHdrSize else buf.length
  let len := if len > free s then free s else len
  if len = 0 then some ((0, 0), s)
  else
    (splitAt s s.pwrite len).bind fun split =>
      if pkt then
        if len < pktHdrSize then some ((-1, 0), s)
        else
          (putHeader s len).bind fun s =>
            (putBytes s buf (split - pktHdrSize)).map fun s =>
              ((len - pktHdrSize, buf.length), s)
      else (putBytes s buf split).map fun s => ((len, buf.length), s)

/-- The two copies of `read`: all of `todo` is copied. -/
def getBytes (s : RbufData) (readd : Nat) (todo split : Int) :
    Option (List UInt8 × RbufData) :=
  if 0 < split then
    (copyOut s readd split).bind fun front =>
      let s := setPread s readd 0
      (copyOut s readd (todo - split)).map fun back =>
        (front ++ back, setPread s readd (((todo - split).toNat) % s.size))
  else
    (copyOut s readd todo).map fun buf =>
      (buf, setPread s readd ((s.pread readd + todo.toNat) % s.size))

/-- `read` once the length is known: the value returned and the bytes copied. -/
def readBytes (s : RbufData) (readd : Nat) (todo : Int) :
    Option ((Int × List UInt8) × RbufData) :=
  let len := if todo > avail s readd then avail s readd else todo
  if len = 0 then some ((0, []), s)
  else
    (splitAt s (s.pread readd) len).bind fun split =>
      (getBytes s readd todo split).map fun r => ((len, r.1), r.2)

/-- The packet header: two `char`, which are signed. -/
def header (s : RbufData) (p : Nat) : Int :=
  (s.mem p).toInt8.toInt * 256 + (s.mem (p + 1)).toInt8.toInt

def readBuf (s : RbufData) (readd : Nat) (len : Int) :
    Option ((Int × List UInt8) × RbufData) :=
  if len = -1 then
    if s.pread readd + pktHdrSize > s.size then some ((-1, []), s)
    else
      readBytes (setPread s readd ((s.pread readd + pktHdrSize) % s.size)) readd
        (header s (s.pread readd))
  else readBytes s readd len

/-- The buffer that the constructor finds in a fresh mapping. -/
def newBuffer (size : Nat) (mem : Mem) : RbufData :=
  { size := size
    mem := mem
    pwrite := 0
    readers := fun _ => false
    readdCnt := 0
    pread := fun _ => 0 }

/-- The state that the constructor and the calls keep. -/
structure Valid (s : RbufData) : Prop where
  small : s.size < 2 ^ 31
  pwrite_lt : s.pwrite < s.size
  pread_lt : ∀ r, s.readers r → s.pread r < s.size
  readers_lt : ∀ r, s.readers r → r < fdSetSize
  count : s.readdCnt = (List.range fdSetSize).countP s.readers

theorem avail_eq {s : RbufData} {r : Nat} (hr : s.pread r < s.size)
    (hw : s.pwrite < s.size) : avail s r = ((s.pwrite + s.size - s.pread r) % s.size : Nat) := by
  unfold avail
  rcases Nat.lt_or_ge s.pwrite (s.pread r) with hlt | hge
  · rw [if_pos (by omega), Nat.mod_eq_of_lt (by omega)]
    omega
  · rw [if_neg (by omega), show s.pwrite + s.size - s.pread r = s.pwrite - s.pread r + s.size by
      omega, Nat.add_mod_right, Nat.mod_eq_of_lt (by omega)]
    omega

/-- The bytes waiting for a reader, as a length. -/
def waiting (s : RbufData) (r : Nat) : Nat := (avail s r).toNat

theorem avail_eq_waiting {s : RbufData} {r : Nat} (hr : s.pread r < s.size)
    (hw : s.pwrite < s.size) : avail s r = waiting s r := by
  rw [waiting, avail_eq hr hw]
  rfl

theorem waiting_lt {s : RbufData} {r : Nat} (hr : s.pread r < s.size)
    (hw : s.pwrite < s.size) : waiting s r < s.size := by
  rw [waiting, avail_eq hr hw]
  exact Nat.mod_lt _ (by omega)

/-- The writer stands where the waiting bytes end. -/
theorem pwrite_eq {s : RbufData} {r : Nat} (hr : s.pread r < s.size)
    (hw : s.pwrite < s.size) : s.pwrite = (s.pread r + waiting s r) % s.size := by
  rw [waiting, avail_eq hr hw, Int.toNat_natCast, mod_add_self_sub hr hw]

theorem waiting_of_pwrite_eq {s : RbufData} {r w : Nat} (hr : s.pread r < s.size)
    (hw : w < s.size) (h : s.pwrite = (s.pread r + w) % s.size) : waiting s r = w := by
  have hlt : s.pwrite < s.size := by
    rw [h]
    exact Nat.mod_lt _ (by omega)
  rw [waiting, avail_eq hr hlt, Int.toNat_natCast]
  rcases Nat.lt_or_ge (s.pread r + w) s.size with hle | hge
  · rw [Nat.mod_eq_of_lt hle] at h
    rw [h, show s.pread r + w + s.size - s.pread r = w + s.size by omega, Nat.add_mod_right,
      Nat.mod_eq_of_lt hw]
  · rw [Nat.mod_eq_sub_mod hge, Nat.mod_eq_of_lt (by omega)] at h
    rw [h, Nat.mod_eq_of_lt (by omega)]
    omega

theorem minPreadLoop_spec (s : RbufData) (is : List Nat) (cnt : Int) (minPread : Nat)
    (minAvail : Int) (hcnt : cnt + is.countP s.readers = s.readdCnt) :
    (minPreadLoop s is cnt minPread minAvail = minPread ∧
        ∀ r ∈ is, s.readers r → avail s r ≤ minAvail) ∨
      ∃ r ∈ is, s.readers r ∧ minPreadLoop s is cnt minPread minAvail = s.pread r ∧
        minAvail < avail s r ∧ ∀ r' ∈ is, s.readers r' → avail s r' ≤ avail s r := by
  induction is generalizing cnt minPread minAvail with
  | nil => exact Or.inl ⟨rfl, by simp⟩
  | cons i is ih =>
      rw [List.countP_cons] at hcnt
      simp only [minPreadLoop]
      by_cases hi : s.readers i
      swap
      · have h := ih cnt minPread minAvail (by simpa [hi] using hcnt)
        simpa [hi] using h
      simp only [hi, if_true] at hcnt ⊢
      -- the loop stops early only when no reader is left
      have hnext : ∀ p a, (if cnt + 1 ≥ s.readdCnt then p
          else minPreadLoop s is (cnt + 1) p a) = minPreadLoop s is (cnt + 1) p a ∨
          ((if cnt + 1 ≥ s.readdCnt then p else minPreadLoop s is (cnt + 1) p a) = p ∧
            ∀ r ∈ is, ¬ s.readers r = true) := by
        intro p a
        by_cases hstop : cnt + 1 ≥ s.readdCnt
        · have hzero : is.countP s.readers = 0 := by omega
          exact Or.inr ⟨if_pos hstop, List.countP_eq_zero.mp hzero⟩
        · exact Or.inl (if_neg hstop)
      have hrest : ∀ p a,
          ((if cnt + 1 ≥ s.readdCnt then p else minPreadLoop s is (cnt + 1) p a) = p ∧
            ∀ r ∈ is, s.readers r → avail s r ≤ a) ∨
          ∃ r ∈ is, s.readers r ∧ (if cnt + 1 ≥ s.readdCnt then p
            else minPreadLoop s is (cnt + 1) p a) = s.pread r ∧ a < avail s r ∧
            ∀ r' ∈ is, s.readers r' → avail s r' ≤ avail s r := by
        intro p a
        rcases hnext p a with h | ⟨h, hnone⟩
        · rw [h]
          exact ih (cnt + 1) p a (by omega)
        · exact Or.inl ⟨h, fun r hr hopen => absurd hopen (hnone r hr)⟩
      by_cases hbest : avail s i > minAvail
      · rw [if_pos hbest]
        rcases hrest (s.pread i) (avail s i) with ⟨h, hall⟩ | ⟨r, hr, hopen, h, hlt, hall⟩
        · refine Or.inr ⟨i, List.mem_cons_self, hi, h, hbest, ?_⟩
          rintro r' hr' hopen'
          rcases List.mem_cons.mp hr' with rfl | hr'
          · exact Int.le_refl _
          · exact hall r' hr' hopen'
        · refine Or.inr ⟨r, List.mem_cons_of_mem i hr, hopen, h, by omega, ?_⟩
          rintro r' hr' hopen'
          rcases List.mem_cons.mp hr' with rfl | hr'
          · omega
          · exact hall r' hr' hopen'
      · rw [if_neg hbest]
        rcases hrest minPread minAvail with ⟨h, hall⟩ | ⟨r, hr, hopen, h, hlt, hall⟩
        · refine Or.inl ⟨h, ?_⟩
          rintro r' hr' hopen'
          rcases List.mem_cons.mp hr' with rfl | hr'
          · omega
          · exact hall r' hr' hopen'
        · refine Or.inr ⟨r, List.mem_cons_of_mem i hr, hopen, h, hlt, ?_⟩
          rintro r' hr' hopen'
          rcases List.mem_cons.mp hr' with rfl | hr'
          · omega
          · exact hall r' hr' hopen'

/-- What `minPread` finds: the reader that is furthest behind, if there is one. -/
theorem minPread_spec {s : RbufData} (hv : Valid s) :
    (minPread s = 0 ∧ ∀ r, ¬ s.readers r = true) ∨
      ∃ r, s.readers r ∧ minPread s = s.pread r ∧
        ∀ r', s.readers r' → waiting s r' ≤ waiting s r := by
  have havail : ∀ r, s.readers r → avail s r = waiting s r :=
    fun r hr => avail_eq_waiting (hv.pread_lt r hr) hv.pwrite_lt
  have hmem : ∀ r, s.readers r → r ∈ List.range fdSetSize :=
    fun r hr => List.mem_range.mpr (hv.readers_lt r hr)
  rcases minPreadLoop_spec s (List.range fdSetSize) 0 0 (-1) (by rw [hv.count]; omega) with
    ⟨h, hall⟩ | ⟨r, -, hopen, h, -, hall⟩
  · refine Or.inl ⟨h, ?_⟩
    intro r hr
    have := hall r (hmem r hr) hr
    rw [havail r hr] at this
    omega
  · refine Or.inr ⟨r, hopen, h, ?_⟩
    intro r' hr'
    have := hall r' (hmem r' hr') hr'
    rw [havail r hopen, havail r' hr'] at this
    omega

/-- The free bytes: one less than what the slowest reader leaves. -/
theorem free_spec {s : RbufData} (hv : Valid s) : ∃ f : Nat, free s = f ∧ f < s.size ∧
    (∀ r, s.readers r → waiting s r + f + 1 ≤ s.size) ∧
    ((∃ r, s.readers r = true) → ∃ r, s.readers r ∧ waiting s r + f + 1 = s.size) := by
  have hw := hv.pwrite_lt
  rcases minPread_spec hv with ⟨h, hnone⟩ | ⟨r, hopen, h, hall⟩
  · refine ⟨s.size - s.pwrite - 1, ?_, by omega, fun r hr => absurd hr (hnone r), ?_⟩
    · simp only [free, h]
      rw [if_pos (by omega)]
      omega
    · rintro ⟨r, hr⟩
      exact absurd hr (hnone r)
  · have hr := hv.pread_lt r hopen
    have hwait := waiting_lt hr hw
    have hpos := avail_eq_waiting hr hw
    refine ⟨s.size - waiting s r - 1, ?_, by omega, ?_, fun _ => ⟨r, hopen, by omega⟩⟩
    · simp only [avail] at hpos
      simp only [free, h]
      split <;> split at hpos <;> omega
    · intro r' hr'
      have := hall r' hr'
      omega

/-- The cut that a transfer of `n` bytes at position `p` needs. -/
def CutAt (size p n : Nat) (split : Int) : Prop :=
  (0 < split ∧ split = size - p ∧ size < p + n) ∨ (split ≤ 0 ∧ p + n ≤ size)

theorem copyIn_of_le {s : RbufData} {buf : List UInt8} (h : s.pwrite + buf.length ≤ s.size) :
    copyIn s buf = some { s with mem := write s.mem s.pwrite buf } :=
  if_pos h

theorem putBytes_spec {s : RbufData} {buf : List UInt8} {split : Int} (hw : s.pwrite < s.size)
    (hn : buf.length ≤ s.size) (hcut : CutAt s.size s.pwrite buf.length split) :
    ∃ m, Filled s.mem m s.size s.pwrite buf ∧ putBytes s buf split =
      some { s with mem := m, pwrite := (s.pwrite + buf.length) % s.size } := by
  rcases hcut with ⟨hpos, hsplit, hlong⟩ | ⟨hneg, hshort⟩
  · have htake : (buf.take split.toNat).length = s.size - s.pwrite := by
      rw [List.length_take]
      omega
    have hdrop : (buf.drop split.toNat).length = buf.length - (s.size - s.pwrite) := by
      rw [List.length_drop]
      omega
    let m₁ := write s.mem s.pwrite (buf.take split.toNat)
    refine ⟨write m₁ 0 (buf.drop split.toNat), ?_, ?_⟩
    · have h₁ : Filled s.mem m₁ s.size s.pwrite (buf.take split.toNat) :=
        filled_write s.mem (by omega) hw
      have hzero : (s.pwrite + (buf.take split.toNat).length) % s.size = 0 := by
        rw [htake, show s.pwrite + (s.size - s.pwrite) = s.size by omega, Nat.mod_self]
      have h₂ : Filled m₁ (write m₁ 0 (buf.drop split.toNat)) s.size
          ((s.pwrite + (buf.take split.toNat).length) % s.size) (buf.drop split.toNat) := by
        rw [hzero]
        exact filled_write m₁ (by omega) (by omega)
      have h := h₁.append h₂ (by omega)
      rwa [List.take_append_drop] at h
    · rw [putBytes, if_pos hpos, copyIn_of_le (by omega), Option.bind_some]
      dsimp only
      rw [copyIn_of_le (by dsimp only; omega), Option.map_some]
      have hend : (0 + (buf.length - split.toNat)) % s.size =
          (s.pwrite + buf.length) % s.size := by
        rw [show s.pwrite + buf.length = 0 + (buf.length - split.toNat) + s.size by omega,
          Nat.add_mod_right]
      rw [hend]
  · refine ⟨write s.mem s.pwrite buf, filled_write s.mem hshort hw, ?_⟩
    rw [putBytes, if_neg (by omega), copyIn_of_le hshort]
    rfl

theorem copyOut_of_le {s : RbufData} {r n : Nat} (h : s.pread r + n ≤ s.size) :
    copyOut s r n = some (slice s.mem s.size (s.pread r) n) := by
  rw [copyOut, if_pos ⟨by omega, by omega⟩, slice_eq_read s.mem h]
  rfl

theorem getBytes_spec {s : RbufData} {r n : Nat} {split : Int} (hn : n ≤ s.size)
    (hr : s.pread r < s.size) (hcut : CutAt s.size (s.pread r) n split) :
    getBytes s r n split = some (slice s.mem s.size (s.pread r) n,
      setPread s r ((s.pread r + n) % s.size)) := by
  rcases hcut with ⟨hpos, hsplit, hlong⟩ | ⟨hneg, hshort⟩
  · have hfront : split = ((s.size - s.pread r : Nat) : Int) := by omega
    have hback : (n : Int) - split = ((n - (s.size - s.pread r) : Nat) : Int) := by omega
    rw [getBytes, if_pos hpos, hback, hfront, copyOut_of_le (by omega), Option.bind_some]
    dsimp only
    have hzero : (setPread s r 0).pread r = 0 := by simp [setPread]
    rw [copyOut_of_le (by rw [hzero]; show 0 + _ ≤ s.size; omega), Option.map_some, hzero]
    have hjoin := slice_append s.mem s.size (s.pread r) (s.size - s.pread r)
      (n - (s.size - s.pread r))
    rw [show s.pread r + (s.size - s.pread r) = s.size by omega, Nat.mod_self,
      show s.size - s.pread r + (n - (s.size - s.pread r)) = n by omega] at hjoin
    have hend : (n - (s.size - s.pread r)) % s.size = (s.pread r + n) % s.size := by
      rw [show s.pread r + n = n - (s.size - s.pread r) + s.size by omega, Nat.add_mod_right]
    rw [hjoin]
    simp [setPread, hend]
  · rw [getBytes, if_neg (by omega), copyOut_of_le hshort]
    simp

theorem splitAt_eq_some {s : RbufData} {p : Nat} {len split : Int}
    (h : splitAt s p len = some split) :
    p + len < 2 ^ 31 ∧ split = if p + len > s.size then (s.size : Int) - p else 0 := by
  simp only [splitAt, intAdd, Option.map_eq_some_iff] at h
  obtain ⟨e, he, rfl⟩ := h
  split at he
  · obtain rfl := Option.some.inj he
    exact ⟨by assumption, rfl⟩
  · cases he

theorem splitAt_of_lt {s : RbufData} {p : Nat} {len : Int} (h : p + len < 2 ^ 31) :
    splitAt s p len = some (if p + len > s.size then (s.size : Int) - p else 0) := by
  rw [splitAt, intAdd, if_pos h, Option.map_some]

theorem cutAt_ite {size p n : Nat} (hp : p < size) :
    CutAt size p n (if (p : Int) + n > size then (size : Int) - p else 0) := by
  unfold CutAt
  split <;> omega

/-- The state after `n` bytes were laid down. -/
def advanced (s : RbufData) (m : Mem) (n : Nat) : RbufData :=
  { s with mem := m, pwrite := (s.pwrite + n) % s.size }

theorem valid_advanced {s : RbufData} (hv : Valid s) (m : Mem) (n : Nat) :
    Valid (advanced s m n) :=
  { hv with pwrite_lt := Nat.mod_lt _ (Nat.zero_lt_of_lt hv.pwrite_lt) }

theorem waiting_advanced {s : RbufData} (hv : Valid s) (m : Mem) {n r : Nat}
    (hr : s.readers r) (hroom : waiting s r + n < s.size) :
    waiting (advanced s m n) r = waiting s r + n := by
  have hpread := hv.pread_lt r hr
  refine waiting_of_pwrite_eq (s := advanced s m n) hpread hroom ?_
  show (s.pwrite + n) % s.size = _
  conv_lhs => rw [pwrite_eq hpread hv.pwrite_lt]
  rw [Nat.mod_add_mod, Nat.add_assoc]
  rfl

/-- What waits for a reader, followed by what was laid down. -/
theorem slice_advanced {s : RbufData} (hv : Valid s) {m : Mem} {buf : List UInt8} {r : Nat}
    (hm : Filled s.mem m s.size s.pwrite buf) (hr : s.readers r)
    (hroom : waiting s r + buf.length < s.size) :
    slice m s.size (s.pread r) (waiting s r + buf.length) =
      slice s.mem s.size (s.pread r) (waiting s r) ++ buf :=
  hm.slice_eq (pwrite_eq (hv.pread_lt r hr) hv.pwrite_lt) (Nat.le_of_lt hroom)

/-- The state after a reader consumed `n` bytes. -/
def consumed (s : RbufData) (r n : Nat) : RbufData :=
  setPread s r ((s.pread r + n) % s.size)

theorem valid_setPread {s : RbufData} (hv : Valid s) {r p : Nat} (hp : p < s.size) :
    Valid (setPread s r p) := by
  refine { hv with pread_lt := ?_ }
  intro r' hr'
  by_cases h : r' = r
  · subst h
    simpa [setPread] using hp
  · simpa [setPread, h] using hv.pread_lt r' hr'

theorem waiting_consumed {s : RbufData} (hv : Valid s) {r n : Nat} (hr : s.readers r)
    (hn : n ≤ waiting s r) : waiting (consumed s r n) r = waiting s r - n := by
  have hpread := hv.pread_lt r hr
  have hlt := waiting_lt hpread hv.pwrite_lt
  have hat : (consumed s r n).pread r = (s.pread r + n) % s.size := by
    simp [consumed, setPread]
  have hsize : (consumed s r n).size = s.size := rfl
  apply waiting_of_pwrite_eq
  · rw [hat]
    exact Nat.mod_lt _ (Nat.zero_lt_of_lt hpread)
  · rw [hsize]
    omega
  · show s.pwrite = _
    conv_lhs => rw [pwrite_eq hpread hv.pwrite_lt]
    rw [hat, hsize, Nat.mod_add_mod, show s.pread r + n + (waiting s r - n) =
      s.pread r + waiting s r by omega]

theorem waiting_setPread_of_ne {s : RbufData} {r r' p : Nat} (h : r' ≠ r) :
    waiting (setPread s r p) r' = waiting s r' := by
  simp [waiting, avail, setPread, h]

theorem writeBuf_of_le {s : RbufData} (hv : Valid s) {buf : List UInt8}
    (hfree : (buf.length : Int) ≤ free s) (hint : s.pwrite + buf.length < 2 ^ 31) :
    ∃ m, Filled s.mem m s.size s.pwrite buf ∧ writeBuf s buf false =
      some (((buf.length : Int), buf.length), advanced s m buf.length) := by
  obtain ⟨f, hf, hlt, -⟩ := free_spec hv
  obtain ⟨m, hm, hput⟩ := putBytes_spec hv.pwrite_lt (by omega)
    (cutAt_ite (p := s.pwrite) (n := buf.length) hv.pwrite_lt)
  have hclamp : ¬ (buf.length : Int) > free s := by omega
  simp only [writeBuf, Bool.false_eq_true, if_false, if_neg hclamp]
  by_cases hzero : buf.length = 0
  · have hnil := List.length_eq_zero_iff.mp hzero
    subst hnil
    refine ⟨s.mem, filled_nil _ _ _, ?_⟩
    simp [advanced, Nat.mod_eq_of_lt hv.pwrite_lt]
  · refine ⟨m, hm, ?_⟩
    rw [if_neg (by omega), splitAt_of_lt (by omega), Option.bind_some, hput]
    rfl

theorem writeBuf_full {s : RbufData} (hfree : free s = 0) (buf : List UInt8) :
    writeBuf s buf false = some ((0, 0), s) := by
  simp only [writeBuf, Bool.false_eq_true, if_false, hfree]
  rw [if_pos (by split <;> omega)]

theorem readBytes_of_le {s : RbufData} (hv : Valid s) {r n : Nat} (hr : s.readers r)
    (hn : n ≤ waiting s r) (hint : s.pread r + n < 2 ^ 31) :
    readBytes s r n = some (((n : Int), slice s.mem s.size (s.pread r) n), consumed s r n) := by
  have hpread := hv.pread_lt r hr
  have havail := avail_eq_waiting hpread hv.pwrite_lt
  have hlt := waiting_lt hpread hv.pwrite_lt
  have hclamp : ¬ (n : Int) > avail s r := by omega
  simp only [readBytes, if_neg hclamp]
  by_cases hzero : n = 0
  · subst hzero
    simp [consumed, setPread, Nat.mod_eq_of_lt hpread]
  · rw [if_neg (by omega), splitAt_of_lt (by omega), Option.bind_some,
      getBytes_spec (by omega) hpread (cutAt_ite hpread)]
    rfl

theorem readBytes_empty {s : RbufData} {r n : Nat} (h : avail s r = 0) :
    readBytes s r n = some ((0, []), s) := by
  simp only [readBytes, h]
  rw [if_pos (by split <;> omega)]

theorem writeBuf_cases {s s' : RbufData} {buf : List UInt8} {ret : Int} {copied : Nat}
    (h : writeBuf s buf false = some ((ret, copied), s')) : buf.length = 0 ∨ free s = 0 ∨
      (ret = min (buf.length : Int) (free s) ∧ copied = buf.length ∧ s.pwrite + ret < 2 ^ 31) := by
  have hmin : (if (buf.length : Int) > free s then free s else buf.length) =
      min (buf.length : Int) (free s) := by
    split <;> omega
  simp only [writeBuf, Bool.false_eq_true, if_false, hmin] at h
  generalize hlen : min (buf.length : Int) (free s) = len at h ⊢
  by_cases hzero : len = 0
  · omega
  · rw [if_neg hzero] at h
    obtain ⟨split, hsplit, hput⟩ := Option.bind_eq_some_iff.mp h
    obtain ⟨s₁, -, heq⟩ := Option.map_eq_some_iff.mp hput
    obtain ⟨hret, -⟩ := Prod.mk.inj heq
    obtain ⟨rfl, rfl⟩ := Prod.mk.inj hret
    exact Or.inr (Or.inr ⟨rfl, rfl, (splitAt_eq_some hsplit).1⟩)

theorem copyOut_length {s : RbufData} {r : Nat} {n : Int} {buf : List UInt8}
    (h : copyOut s r n = some buf) : (buf.length : Int) = n := by
  rw [copyOut] at h
  split at h
  · obtain rfl := Option.some.inj h
    rw [length_read]
    omega
  · cases h

theorem getBytes_length {s s' : RbufData} {r : Nat} {todo split : Int} {buf : List UInt8}
    (h : getBytes s r todo split = some (buf, s')) : (buf.length : Int) = todo := by
  rw [getBytes] at h
  split at h
  · obtain ⟨front, hfront, h⟩ := Option.bind_eq_some_iff.mp h
    obtain ⟨back, hback, heq⟩ := Option.map_eq_some_iff.mp h
    obtain ⟨rfl, -⟩ := Prod.mk.inj heq
    have h₁ := copyOut_length hfront
    have h₂ := copyOut_length hback
    rw [List.length_append]
    omega
  · obtain ⟨buf', hbuf, heq⟩ := Option.map_eq_some_iff.mp h
    obtain ⟨rfl, -⟩ := Prod.mk.inj heq
    exact copyOut_length hbuf

theorem readBytes_cases {s s' : RbufData} {r : Nat} {todo ret : Int} {buf : List UInt8}
    (h : readBytes s r todo = some ((ret, buf), s')) :
    (min todo (avail s r) = 0 ∧ ret = 0) ∨ (ret = min todo (avail s r) ∧
      ∃ split, splitAt s (s.pread r) ret = some split ∧
        getBytes s r todo split = some (buf, s')) := by
  have hmin : (if todo > avail s r then avail s r else todo) = min todo (avail s r) := by
    split <;> omega
  simp only [readBytes, hmin] at h
  generalize hlen : min todo (avail s r) = len at h ⊢
  by_cases hzero : len = 0
  · rw [if_pos hzero] at h
    obtain ⟨hret, -⟩ := Prod.mk.inj (Option.some.inj h)
    exact Or.inl ⟨hzero, (Prod.mk.inj hret).1.symm⟩
  · rw [if_neg hzero] at h
    obtain ⟨split, hsplit, h⟩ := Option.bind_eq_some_iff.mp h
    obtain ⟨⟨buf', s₁⟩, hget, heq⟩ := Option.map_eq_some_iff.mp h
    obtain ⟨hret, rfl⟩ := Prod.mk.inj heq
    obtain ⟨rfl, rfl⟩ := Prod.mk.inj hret
    exact Or.inr ⟨rfl, split, hsplit, hget⟩

/-- A copy that is not cut stays inside the data area. -/
theorem getBytes_inside {s s' : RbufData} {r : Nat} {todo split : Int} {buf : List UInt8}
    (h : getBytes s r todo split = some (buf, s')) (hsplit : split ≤ 0) :
    s.pread r + todo ≤ s.size := by
  rw [getBytes, if_neg (by omega)] at h
  obtain ⟨buf', hcopy, -⟩ := Option.map_eq_some_iff.mp h
  rw [copyOut] at hcopy
  split at hcopy
  · rename_i hle
    exact hle.2
  · cases hcopy

theorem countP_update_of_notMem {f : Nat → Bool} {is : List Nat} {i : Nat} (hi : i ∉ is)
    (b : Bool) : is.countP (Function.update f i b) = is.countP f := by
  apply List.countP_congr
  intro j hj
  rw [Function.update_of_ne (show j ≠ i from fun h => hi (h ▸ hj))]

theorem countP_update_true {f : Nat → Bool} {is : List Nat} {i : Nat} (hnodup : is.Nodup)
    (hi : i ∈ is) (hf : f i = false) :
    is.countP (Function.update f i true) = is.countP f + 1 := by
  induction is with
  | nil => cases hi
  | cons j is ih =>
      obtain ⟨hj, hnodup⟩ := List.nodup_cons.mp hnodup
      rw [List.countP_cons, List.countP_cons]
      rcases List.mem_cons.mp hi with rfl | hi
      · rw [countP_update_of_notMem hj]
        simp [hf]
      · have hne : j ≠ i := fun h => hj (h ▸ hi)
        rw [ih hnodup hi, Function.update_of_ne hne]
        omega

theorem countP_update_false {f : Nat → Bool} {is : List Nat} {i : Nat} (hnodup : is.Nodup)
    (hi : i ∈ is) (hf : f i = true) :
    is.countP (Function.update f i false) + 1 = is.countP f := by
  have h := countP_update_true (f := Function.update f i false) hnodup hi (by simp)
  rw [Function.update_idem, ← hf, Function.update_eq_self] at h
  exact h.symm

theorem openLoop_cases (s : RbufData) (is : List Nat) : openLoop s is = (-1, s) ∨
    ∃ r ∈ is, s.readers r = false ∧ openLoop s is =
      ((r : Int), { setPread (setReader s r true) r s.pwrite with
        readdCnt := s.readdCnt + 1 }) := by
  induction is with
  | nil => exact Or.inl rfl
  | cons i is ih =>
      by_cases hi : s.readers i
      · rw [openLoop, if_pos hi]
        exact ih.imp_right fun ⟨r, hr, h⟩ => ⟨r, List.mem_cons_of_mem i hr, h⟩
      · rw [openLoop, if_neg hi]
        exact Or.inr ⟨i, List.mem_cons_self, by simpa using hi, rfl⟩

/-- `open` either finds all descriptors taken or starts a reader at the writer. -/
theorem open_spec {s : RbufData} (hv : Valid s) : open' s = (-1, s) ∨
    ∃ r s', s.readers r = false ∧ open' s = ((r : Int), s') ∧ Valid s' ∧
      s'.size = s.size ∧ s'.mem = s.mem ∧ s'.pwrite = s.pwrite ∧
      s'.readers = Function.update s.readers r true ∧
      s'.pread = Function.update s.pread r s.pwrite := by
  rcases openLoop_cases s (List.range fdSetSize) with h | ⟨r, hmem, hclosed, h⟩
  · exact Or.inl h
  · refine Or.inr ⟨r, _, hclosed, h, ?_, rfl, rfl, rfl, rfl, rfl⟩
    refine ⟨hv.small, hv.pwrite_lt, ?_, ?_, ?_⟩
    · intro r' hr'
      by_cases h : r' = r
      · subst h
        simpa [setPread, setReader] using hv.pwrite_lt
      · have hr' : s.readers r' = true := by simpa [setPread, setReader, h] using hr'
        simpa [setPread, setReader, h] using hv.pread_lt r' hr'
    · intro r' hr'
      by_cases h : r' = r
      · subst h
        exact List.mem_range.mp hmem
      · exact hv.readers_lt r' (by simpa [setPread, setReader, h] using hr')
    · show s.readdCnt + 1 = _
      have h := countP_update_true List.nodup_range hmem hclosed
      rw [hv.count]
      simp only [setPread, setReader, h]
      omega

theorem valid_close {s : RbufData} (hv : Valid s) {r : Nat} (hr : s.readers r) :
    Valid (close s r) := by
  have hopen : ∀ r', (close s r).readers r' → s.readers r' := by
    intro r' hr'
    by_cases h : r' = r
    · rwa [h]
    · simpa [close, setReader, h] using hr'
  refine ⟨hv.small, hv.pwrite_lt, fun r' hr' => hv.pread_lt r' (hopen r' hr'),
    fun r' hr' => hv.readers_lt r' (hopen r' hr'), ?_⟩
  have h := countP_update_false List.nodup_range (List.mem_range.mpr (hv.readers_lt r hr)) hr
  show s.readdCnt - 1 = _
  rw [hv.count]
  simp only [close, setReader]
  omega

theorem newBuffer_valid {size : Nat} (hpos : 0 < size) (hsmall : size < 2 ^ 31) (mem : Mem) :
    Valid (newBuffer size mem) := by
  refine ⟨hsmall, hpos, fun r hr => absurd hr (by simp [newBuffer]),
    fun r hr => absurd hr (by simp [newBuffer]), ?_⟩
  have h : (List.range fdSetSize).countP (fun _ => false) = 0 :=
    List.countP_eq_zero.mpr fun _ _ => Bool.false_ne_true
  show (0 : Int) = _
  rw [show (newBuffer size mem).readers = fun _ => false from rfl, h]
  rfl

theorem valid_open {s : RbufData} (hv : Valid s) : Valid (open' s).2 := by
  rcases open_spec hv with h | ⟨r, s', -, h, hv', -⟩
  · rwa [h]
  · rwa [h]

end ULib.RingBuffer
