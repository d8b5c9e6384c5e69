import ULib.RingBuffer

/-!
Packet mode of the ring buffer. The header that `write` lays down counts itself,
while `read` takes it for the length of what follows, as two signed bytes.
-/

namespace ULib.RingPacket

open ULib.ByteMemory
open ULib.CircularBuffer
open ULib.RingBuffer

/-- The messages are written one after the other, each of them whole. -/
def Accepted : RbufData → List (List UInt8) → RbufData → Prop
  | s, [], s' => s' = s
  | s, m :: ms, s' => ∃ copied s₁, writeBuf s m true = some (((m.length : Int), copied), s₁) ∧
      Accepted s₁ ms s'

/-- Packet reads return the messages one after the other: the lengths, and the
bytes that the caller finds in its buffer. -/
def Returned (readd : Nat) : RbufData → List (List UInt8) → Prop
  | _, [] => True
  | s, m :: ms => ∃ buf s₁, readBuf s readd (-1) = some (((m.length : Int), buf), s₁) ∧
      buf.take m.length = m ∧ Returned readd s₁ ms

/-- A message as it lies in the data area. -/
def packet (m : List UInt8) : List UInt8 :=
  UInt8.ofNat ((m.length + pktHdrSize) / 256) :: UInt8.ofNat (m.length + pktHdrSize) :: m

/-- A message of `n` bytes at position `p` can be read back: its header does not
pass the end and has no byte with the sign bit set, no sum overflows, and the
two bytes that are read too many do not pass the end either. -/
def Readable (size p n : Nat) : Prop :=
  p + pktHdrSize ≤ size ∧ p + (n + pktHdrSize) < 2 ^ 31 ∧ (n + pktHdrSize) / 256 < 128 ∧
    (n + pktHdrSize) % 256 < 128 ∧ ((p + pktHdrSize) % size + (n + pktHdrSize) ≤ size ∨
      size < (p + pktHdrSize) % size + n)

@[simp] theorem length_packet (m : List UInt8) : (packet m).length = m.length + pktHdrSize := rfl

theorem putHeader_spec {s : RbufData} {n : Nat} (hw : s.pwrite < s.size)
    (hfit : s.pwrite + pktHdrSize ≤ s.size) :
    ∃ m, Filled s.mem m s.size s.pwrite [UInt8.ofNat (n / 256), UInt8.ofNat n] ∧
      putHeader s n = some (advanced s m pktHdrSize) := by
  refine ⟨_, filled_write s.mem hfit hw, ?_⟩
  rw [putHeader, copyIn_of_le hfit]
  rfl

/-- What is left of the cut of a packet once its header is written. -/
theorem cutAt_header {size p n : Nat} (hfit : p + pktHdrSize ≤ size) (hn : n ≤ size) :
    CutAt size ((p + pktHdrSize) % size) n
      ((if (p : Int) + (n + pktHdrSize) > size then (size : Int) - p else 0) - pktHdrSize) := by
  have hhdr : pktHdrSize = 2 := rfl
  have hmod : (p + pktHdrSize) % size = if p + pktHdrSize < size then p + pktHdrSize else 0 := by
    split
    · exact Nat.mod_eq_of_lt (by assumption)
    · rw [show p + pktHdrSize = size by omega, Nat.mod_self]
  rw [hmod]
  unfold CutAt
  by_cases hlong : (p : Int) + (n + pktHdrSize) > size
  · rw [if_pos hlong]
    split <;> omega
  · rw [if_neg hlong]
    split <;> omega

/-- A packet for which there is room. -/
theorem writeBuf_packet {s : RbufData} (hv : Valid s) {m : List UInt8}
    (hfree : (m.length : Int) + pktHdrSize ≤ free s) (hfit : s.pwrite + pktHdrSize ≤ s.size)
    (hint : s.pwrite + (m.length + pktHdrSize) < 2 ^ 31) :
    ∃ mem, Filled s.mem mem s.size s.pwrite (packet m) ∧ writeBuf s m true =
      some (((m.length : Int), m.length), advanced s mem (m.length + pktHdrSize)) := by
  have hhdr : pktHdrSize = 2 := rfl
  obtain ⟨f, hf, hlt, -⟩ := free_spec hv
  obtain ⟨m₁, hm₁, hput₁⟩ := putHeader_spec (n := m.length + pktHdrSize) hv.pwrite_lt hfit
  have hw₁ := (valid_advanced hv m₁ pktHdrSize).pwrite_lt
  have hcut := @cutAt_header s.size s.pwrite m.length hfit (by omega)
  obtain ⟨m₂, hm₂, hput₂⟩ := putBytes_spec hw₁ (show m.length ≤ s.size by omega) hcut
  have hroom : 2 + m.length ≤ s.size := by omega
  refine ⟨m₂, hm₁.append hm₂ hroom, ?_⟩
  have hclamp : ¬ (m.length : Int) + pktHdrSize > free s := by omega
  have hcast : ((m.length + pktHdrSize : Nat) : Int) = m.length + pktHdrSize := by omega
  rw [hcast] at hput₁
  simp only [writeBuf, if_true, if_neg hclamp]
  rw [if_neg (by omega), splitAt_of_lt (by omega), Option.bind_some, if_neg (by omega), hput₁,
    Option.bind_some, hput₂, Option.map_some, Int.add_sub_cancel]
  have hend : ((s.pwrite + pktHdrSize) % s.size + m.length) % s.size =
      (s.pwrite + (m.length + pktHdrSize)) % s.size := by
    rw [Nat.mod_add_mod, Nat.add_assoc, Nat.add_comm pktHdrSize]
  simp only [advanced, hend]

/-- A packet that was written did not leave the data area with its header. -/
theorem writeBuf_packet_inv {s s' : RbufData} {m : List UInt8} {ret : Int} {copied : Nat}
    (hfree : (m.length : Int) + pktHdrSize ≤ free s)
    (h : writeBuf s m true = some ((ret, copied), s')) :
    s.pwrite + pktHdrSize ≤ s.size ∧ s.pwrite + (m.length + pktHdrSize) < 2 ^ 31 := by
  have hhdr : pktHdrSize = 2 := rfl
  have hclamp : ¬ (m.length : Int) + pktHdrSize > free s := by omega
  simp only [writeBuf, if_true, if_neg hclamp] at h
  rw [if_neg (by omega)] at h
  obtain ⟨split, hsplit, h⟩ := Option.bind_eq_some_iff.mp h
  rw [if_neg (by omega)] at h
  obtain ⟨s₁, hput, -⟩ := Option.bind_eq_some_iff.mp h
  obtain ⟨s₂, hcopy, -⟩ := Option.map_eq_some_iff.mp hput
  have hint := (splitAt_eq_some hsplit).1
  refine ⟨?_, by omega⟩
  rw [copyIn] at hcopy
  split at hcopy
  · assumption
  · cases hcopy

theorem free_advanced {s : RbufData} (hv : Valid s) {r n : Nat} (hr : s.readers r) (mem : Mem)
    (hn : (n : Int) ≤ free s) : free (advanced s mem n) = free s - n := by
  obtain ⟨f, hf, -, hall, hone⟩ := free_spec hv
  obtain ⟨f', hf', -, hall', hone'⟩ := free_spec (valid_advanced hv mem n)
  obtain ⟨r₀, hr₀, h₀⟩ := hone ⟨r, hr⟩
  obtain ⟨r₁, hr₁, h₁⟩ := hone' ⟨r, hr⟩
  have hroom₀ := hall r₀ hr₀
  have hroom₁ := hall r₁ hr₁
  have hslow := hall' r₀ hr₀
  have hsize : (advanced s mem n).size = s.size := rfl
  rw [waiting_advanced hv mem hr₀ (by omega)] at hslow
  rw [waiting_advanced hv mem hr₁ (by omega)] at h₁
  omega

/-- What a run of accepted writes leaves for a reader that had caught up. -/
structure Holding (s s₁ : RbufData) (r : Nat) (xs : List UInt8) : Prop where
  valid : Valid s₁
  size_eq : s₁.size = s.size
  readers_eq : s₁.readers = s.readers
  pread_eq : s₁.pread = s.pread
  waiting_eq : waiting s₁ r = waiting s r + xs.length
  slice_eq : slice s₁.mem s.size (s.pread r) (waiting s r + xs.length) =
    slice s.mem s.size (s.pread r) (waiting s r) ++ xs

theorem holding_trans {s s₁ s₂ : RbufData} {r : Nat} {xs ys : List UInt8}
    (h₁ : Holding s s₁ r xs) (h₂ : Holding s₁ s₂ r ys) : Holding s s₂ r (xs ++ ys) := by
  refine ⟨h₂.valid, h₂.size_eq.trans h₁.size_eq, h₂.readers_eq.trans h₁.readers_eq,
    h₂.pread_eq.trans h₁.pread_eq, ?_, ?_⟩
  · rw [h₂.waiting_eq, h₁.waiting_eq, List.length_append, Nat.add_assoc]
  · have h := h₂.slice_eq
    rw [h₁.size_eq, h₁.pread_eq, h₁.waiting_eq, h₁.slice_eq] at h
    rw [List.length_append, ← Nat.add_assoc, h, List.append_assoc]

theorem holding_advanced {s : RbufData} (hv : Valid s) {mem : Mem} {r : Nat} {xs : List UInt8}
    (hr : s.readers r) (hm : Filled s.mem mem s.size s.pwrite xs)
    (hfree : (xs.length : Int) ≤ free s) : Holding s (advanced s mem xs.length) r xs := by
  obtain ⟨f, hf, -, hall, -⟩ := free_spec hv
  have hroom : waiting s r + xs.length < s.size := by
    have := hall r hr
    omega
  exact ⟨valid_advanced hv mem _, rfl, rfl, rfl, waiting_advanced hv mem hr hroom,
    slice_advanced hv hm hr hroom⟩

/-- Accepted messages lie in the data area one behind the other. -/
theorem accepted_holding {ms : List (List UInt8)} {s s₁ : RbufData} {r : Nat} (hv : Valid s)
    (hr : s.readers r) (hroom : ((ms.flatMap packet).length : Int) ≤ free s)
    (h : Accepted s ms s₁) : Holding s s₁ r (ms.flatMap packet) := by
  induction ms generalizing s with
  | nil =>
      obtain rfl : s₁ = s := h
      exact ⟨hv, rfl, rfl, rfl, rfl, by simp⟩
  | cons m ms ih =>
      obtain ⟨copied, s', hwrite, hrest⟩ := h
      rw [List.flatMap_cons, List.length_append, length_packet] at hroom
      have hfree : (m.length : Int) + pktHdrSize ≤ free s := by omega
      obtain ⟨hfit, hint⟩ := writeBuf_packet_inv hfree hwrite
      obtain ⟨mem, hm, heq⟩ := writeBuf_packet hv hfree hfit hint
      obtain ⟨-, rfl⟩ := Prod.mk.inj (Option.some.inj (hwrite.symm.trans heq))
      have hpacket : ((packet m).length : Int) ≤ free s := by
        rw [length_packet]
        omega
      have h₁ := holding_advanced hv hr hm hpacket
      refine holding_trans h₁ (ih h₁.valid hr ?_ hrest)
      rw [free_advanced hv hr mem hpacket, length_packet]
      omega

theorem signed_ofNat (v : Nat) : (UInt8.ofNat v).toInt8.toInt =
    if v % 256 < 128 then ((v % 256 : Nat) : Int) else ((v % 256 : Nat) : Int) - 256 := by
  show (BitVec.ofNat 8 v).toInt = _
  rw [BitVec.toInt_eq_toNat_cond, BitVec.toNat_ofNat]
  split <;> split <;> omega

/-- The header as `read` takes it: two more than the length, or, where one of
its bytes has the sign bit set, less than the length. -/
theorem header_value {n : Nat} (hn : n ≤ 65533) {k : Int}
    (hk : k = (UInt8.ofNat ((n + pktHdrSize) / 256)).toInt8.toInt * 256 +
      (UInt8.ofNat (n + pktHdrSize)).toInt8.toInt) :
    ((n + pktHdrSize) / 256 < 128 ∧ (n + pktHdrSize) % 256 < 128 ∧ k = n + pktHdrSize) ∨
      (¬ ((n + pktHdrSize) / 256 < 128 ∧ (n + pktHdrSize) % 256 < 128) ∧ k < n) := by
  have hhdr : pktHdrSize = 2 := rfl
  rw [signed_ofNat, signed_ofNat] at hk
  have hsmall : (n + pktHdrSize) / 256 % 256 = (n + pktHdrSize) / 256 :=
    Nat.mod_eq_of_lt (by omega)
  rw [hsmall] at hk
  split at hk <;> split at hk <;> omega

/-- The first packet read, once its header is out of the way. -/
theorem readBuf_first {s s₁ : RbufData} {r : Nat} {m rest : List UInt8} (hr : s.readers r)
    (hcaught : waiting s r = 0) (hfit : s.pread r + pktHdrSize ≤ s.size)
    (h : Holding s s₁ r (packet m ++ rest)) :
    readBuf s₁ r (-1) = readBytes (consumed s₁ r pktHdrSize) r
        ((UInt8.ofNat ((m.length + pktHdrSize) / 256)).toInt8.toInt * 256 +
          (UInt8.ofNat (m.length + pktHdrSize)).toInt8.toInt) ∧
      Valid (consumed s₁ r pktHdrSize) ∧
      avail (consumed s₁ r pktHdrSize) r = m.length + rest.length ∧
      (consumed s₁ r pktHdrSize).pread r = (s.pread r + pktHdrSize) % s.size ∧
      slice s₁.mem s.size ((s.pread r + pktHdrSize) % s.size) (m.length + rest.length) =
        m ++ rest := by
  have hhdr : pktHdrSize = 2 := rfl
  have hopen : s₁.readers r := by rw [h.readers_eq]; exact hr
  have hat : s₁.pread r = s.pread r := by rw [h.pread_eq]
  have hwait : waiting s₁ r = pktHdrSize + (m.length + rest.length) := by
    rw [h.waiting_eq, hcaught, List.length_append, length_packet]
    omega
  have hslice := h.slice_eq
  rw [hcaught, slice_zero, List.nil_append, List.length_append, length_packet,
    show 0 + (m.length + pktHdrSize + rest.length) = pktHdrSize + (m.length + rest.length) by omega,
    slice_append] at hslice
  have happend : slice s₁.mem s.size (s.pread r) pktHdrSize ++ slice _ _ _ _ =
    [UInt8.ofNat ((m.length + pktHdrSize) / 256), UInt8.ofNat (m.length + pktHdrSize)] ++
      (m ++ rest) := hslice
  have hboth := List.append_inj happend (length_slice _ _ _ _)
  have hbytes : [s₁.mem ((s.pread r + 0) % s.size), s₁.mem ((s.pread r + 1) % s.size)] =
    [UInt8.ofNat ((m.length + pktHdrSize) / 256), UInt8.ofNat (m.length + pktHdrSize)] := hboth.1
  rw [Nat.mod_eq_of_lt (by omega), Nat.mod_eq_of_lt (by omega)] at hbytes
  obtain ⟨hhigh, hlow⟩ := List.cons.inj hbytes
  have hheader : header s₁ (s₁.pread r) =
      (UInt8.ofNat ((m.length + pktHdrSize) / 256)).toInt8.toInt * 256 +
        (UInt8.ofNat (m.length + pktHdrSize)).toInt8.toInt := by
    rw [header, hat, ← hhigh, ← (List.cons.inj hlow).1]
    rfl
  have hv : Valid (consumed s₁ r pktHdrSize) :=
    valid_setPread h.valid (Nat.mod_lt _ (Nat.zero_lt_of_lt h.valid.pwrite_lt))
  have hpread : (consumed s₁ r pktHdrSize).pread r = (s.pread r + pktHdrSize) % s.size := by
    simp [consumed, setPread, hat, h.size_eq]
  refine ⟨?_, hv, ?_, hpread, hboth.2⟩
  · rw [readBuf, if_pos rfl, if_neg (by rw [hat, h.size_eq]; omega), hheader]
    rfl
  · rw [avail_eq_waiting (hv.pread_lt r hopen) hv.pwrite_lt,
      waiting_consumed h.valid hopen (by omega)]
    omega

/-- A first packet that comes back whole was the only one. -/
theorem readable_of_returned {s s₁ s₂ : RbufData} {r : Nat} {m rest buf : List UInt8}
    (hr : s.readers r) (hcaught : waiting s r = 0) (hfit : s.pread r + pktHdrSize ≤ s.size)
    (hint : s.pread r + (m.length + pktHdrSize) < 2 ^ 31) (hpos : 1 ≤ m.length)
    (hlen : m.length ≤ 65533) (h : Holding s s₁ r (packet m ++ rest))
    (hread : readBuf s₁ r (-1) = some (((m.length : Int), buf), s₂)) :
    rest = [] ∧ Readable s.size (s.pread r) m.length := by
  have hhdr : pktHdrSize = 2 := rfl
  obtain ⟨hfirst, hv, havail, hpread, -⟩ := readBuf_first hr hcaught hfit h
  rw [hfirst] at hread
  generalize hk : (UInt8.ofNat ((m.length + pktHdrSize) / 256)).toInt8.toInt * 256 +
    (UInt8.ofNat (m.length + pktHdrSize)).toInt8.toInt = k at hread
  have hvalue := header_value hlen hk.symm
  rcases readBytes_cases hread with ⟨-, hret⟩ | ⟨hret, split, hsplit, hget⟩
  · omega
  have hrest : rest.length = 0 := by omega
  refine ⟨List.length_eq_zero_iff.mp hrest, hfit, hint, by omega, by omega, ?_⟩
  obtain ⟨-, hsplit⟩ := splitAt_eq_some hsplit
  have hsize : (consumed s₁ r pktHdrSize).size = s.size := h.size_eq
  rw [hpread, hsize] at hsplit
  by_cases hlong : (((s.pread r + pktHdrSize) % s.size : Nat) : Int) + m.length > s.size
  · exact Or.inr (by omega)
  · rw [if_neg hlong] at hsplit
    have hinside := getBytes_inside hget (by omega)
    rw [hpread, hsize] at hinside
    exact Or.inl (by omega)

theorem returned_of_readable {s s₁ : RbufData} {r : Nat} {m : List UInt8} (hr : s.readers r)
    (hcaught : waiting s r = 0) (hpos : 1 ≤ m.length) (hlen : m.length + pktHdrSize ≤ s.size)
    (hok : Readable s.size (s.pread r) m.length) (h : Holding s s₁ r (packet m)) :
    ∃ buf s₂, readBuf s₁ r (-1) = some (((m.length : Int), buf), s₂) ∧
      buf.take m.length = m := by
  have hhdr : pktHdrSize = 2 := rfl
  obtain ⟨hfit, hint, hhigh, hlow, hinside⟩ := hok
  rw [← List.append_nil (packet m)] at h
  obtain ⟨hfirst, hv, havail, hpread, hslice⟩ := readBuf_first hr hcaught hfit h
  generalize hk : (UInt8.ofNat ((m.length + pktHdrSize) / 256)).toInt8.toInt * 256 +
    (UInt8.ofNat (m.length + pktHdrSize)).toInt8.toInt = k at hfirst
  have hvalue : k = ((m.length + pktHdrSize : Nat) : Int) := by
    have := header_value (by omega) hk.symm
    omega
  have hsize : (consumed s₁ r pktHdrSize).size = s.size := h.size_eq
  have hmem : (consumed s₁ r pktHdrSize).mem = s₁.mem := rfl
  have hq := Nat.mod_lt (s.pread r + pktHdrSize) (show 0 < s.size by omega)
  generalize hsplit : (if (((s.pread r + pktHdrSize) % s.size : Nat) : Int) + m.length > s.size
    then (s.size : Int) - ((s.pread r + pktHdrSize) % s.size : Nat) else 0) = split
  have hcut : CutAt (consumed s₁ r pktHdrSize).size ((consumed s₁ r pktHdrSize).pread r)
      (m.length + pktHdrSize) split := by
    rw [hsize, hpread]
    unfold CutAt
    split at hsplit <;> omega
  have hopen : (consumed s₁ r pktHdrSize).readers r := by
    show s₁.readers r = true
    rw [h.readers_eq]
    exact hr
  have hget := getBytes_spec (show m.length + pktHdrSize ≤ (consumed s₁ r pktHdrSize).size by
    omega) (hv.pread_lt r hopen) hcut
  rw [List.length_nil, Int.natCast_zero, Int.add_zero] at havail
  have hclamp : ((m.length + pktHdrSize : Nat) : Int) > m.length := by omega
  have hle := Nat.mod_le (s.pread r + pktHdrSize) s.size
  refine ⟨slice s₁.mem s.size ((s.pread r + pktHdrSize) % s.size) (m.length + pktHdrSize),
    setPread (consumed s₁ r pktHdrSize) r
      (((s.pread r + pktHdrSize) % s.size + (m.length + pktHdrSize)) % s.size), ?_, ?_⟩
  · rw [hfirst, hvalue]
    simp only [readBytes, havail, if_pos hclamp]
    rw [if_neg (by omega), splitAt_of_lt (by rw [hpread]; omega), Option.bind_some, hpread, hsize,
      hsplit, hget, Option.map_some, hpread, hsize, hmem]
  · rw [take_slice _ _ _ _ _ (by omega)]
    simpa using hslice

/-- Messages written in packet mode for a reader that has caught up come back as
they were only when there is at most one of them, and that one is readable. -/
theorem packets_returned_iff {s : RbufData} (hv : Valid s) {r : Nat} (hr : s.readers r)
    (hcaught : s.pread r = s.pwrite) (ms : List (List UInt8))
    (hlen : ∀ m ∈ ms, 1 ≤ m.length ∧ m.length ≤ 65533)
    (hroom : ((ms.flatMap packet).length : Int) ≤ free s) :
    (∃ s₁, Accepted s ms s₁ ∧ Returned r s₁ ms) ↔
      ms = [] ∨ ∃ m, ms = [m] ∧ Readable s.size s.pwrite m.length := by
  have hnone : waiting s r = 0 := by
    apply waiting_of_pwrite_eq (hv.pread_lt r hr) (Nat.zero_lt_of_lt hv.pwrite_lt)
    rw [hcaught, Nat.add_zero, Nat.mod_eq_of_lt hv.pwrite_lt]
  constructor
  · rintro ⟨s₁, haccepted, hreturned⟩
    cases ms with
    | nil => exact Or.inl rfl
    | cons m ms =>
        obtain ⟨hpos, hmax⟩ := hlen m List.mem_cons_self
        have hholding := accepted_holding hv hr hroom haccepted
        obtain ⟨buf, s₂, hread, -, -⟩ := hreturned
        obtain ⟨copied, s', hwrite, -⟩ := haccepted
        rw [List.flatMap_cons, List.length_append, length_packet] at hroom
        obtain ⟨hfit, hint⟩ := writeBuf_packet_inv (by omega) hwrite
        rw [← hcaught] at hfit hint ⊢
        obtain ⟨hrest, hok⟩ := readable_of_returned hr hnone hfit hint hpos hmax hholding hread
        refine Or.inr ⟨m, ?_, hok⟩
        cases ms with
        | nil => rfl
        | cons m' ms => simp [packet] at hrest
  · rintro (rfl | ⟨m, rfl, hok⟩)
    · exact ⟨s, rfl, trivial⟩
    · obtain ⟨hpos, -⟩ := hlen m List.mem_cons_self
      rw [List.flatMap_singleton, length_packet] at hroom
      obtain ⟨f, hf, hlt, -⟩ := free_spec hv
      obtain ⟨mem, hm, hwrite⟩ := writeBuf_packet hv (by omega) hok.1 hok.2.1
      have hholding := holding_advanced hv hr hm (by rw [length_packet]; omega)
      rw [← hcaught] at hok
      obtain ⟨buf, s₂, hread, htake⟩ :=
        returned_of_readable hr hnone hpos (by omega) hok hholding
      exact ⟨_, ⟨_, _, hwrite, rfl⟩, buf, s₂, hread, htake, trivial⟩

/-- A buffer of sixteen bytes with one reader. -/
def oneReader : RbufData := (open' (newBuffer 16 fun _ => 0)).2

theorem oneReader_valid : Valid oneReader :=
  valid_open (newBuffer_valid (by decide) (by decide) _)

theorem one_packet_returned :
    Valid oneReader ∧ oneReader.readers 0 ∧ oneReader.pread 0 = oneReader.pwrite ∧
      ∃ s₁, Accepted oneReader [[1, 2, 3]] s₁ ∧ Returned 0 s₁ [[1, 2, 3]] := by
  have hr : oneReader.readers 0 := by decide +kernel
  have hcaught : oneReader.pread 0 = oneReader.pwrite := by decide +kernel
  have hroom : ((([[1, 2, 3]] : List (List UInt8)).flatMap packet).length : Int) ≤
    free oneReader := by decide +kernel
  have hok : Readable oneReader.size oneReader.pwrite ([1, 2, 3] : List UInt8).length := by
    unfold Readable
    decide +kernel
  exact ⟨oneReader_valid, hr, hcaught, (packets_returned_iff oneReader_valid hr hcaught _
    (by decide) hroom).mpr (Or.inr ⟨_, rfl, hok⟩)⟩

/-- Of two messages of one byte the first comes back with three. -/
theorem two_packets_not_returned :
    ((([[1], [2]] : List (List UInt8)).flatMap packet).length : Int) ≤ free oneReader ∧
      ¬ ∃ s₁, Accepted oneReader [[1], [2]] s₁ ∧ Returned 0 s₁ [[1], [2]] := by
  refine ⟨by decide +kernel, ?_⟩
  rintro ⟨s₁, ⟨c₁, s', hwrite₁, c₂, s'', hwrite₂, rfl⟩, buf, s₂, hread, -⟩
  have hlength : ((writeBuf oneReader [1] true).bind fun r => (writeBuf r.2 [2] true).bind fun r =>
      (readBuf r.2 0 (-1)).map fun r => r.1.1) = some 3 := by
    decide +kernel
  simp only [hwrite₁, Option.bind_some, hwrite₂, hread, Option.map_some] at hlength
  exact absurd (Option.some.inj hlength) (by decide)

end ULib.RingPacket
