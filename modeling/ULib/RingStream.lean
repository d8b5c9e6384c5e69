import ULib.RingBuffer
import ULib.Runs

/-!
Stream mode of the ring buffer: the machine of whole calls, and what each
reader has been promised and has received.
-/

namespace ULib.RingStream

open ULib.ByteMemory
open ULib.CircularBuffer
open ULib.RingBuffer
open ULib.Runs

inductive Op
  | open'
  | close (readd : Nat)
  | write (buf : List UInt8)
  | read (readd len : Nat)

inductive Reply
  | opened (readd : Int)
  | closed
  | wrote (ret : Int) (copied : Nat)
  | received (ret : Int) (buf : List UInt8)
  deriving DecidableEq

def step (s : RbufData) : Op → Option (Reply × RbufData)
  | .open' => some (.opened (open' s).1, (open' s).2)
  | .close readd => some (.closed, close s readd)
  | .write buf => (writeBuf s buf false).map fun r => (.wrote r.1.1 r.1.2, r.2)
  | .read readd len => (readBuf s readd len).map fun r => (.received r.1.1 r.1.2, r.2)

/-- What was accepted since a reader was opened, and what the reader received. -/
structure History where
  accepted : Nat → List UInt8
  received : Nat → List UInt8

def History.next (h : History) : Op → Reply → History
  | .open', .opened (.ofNat readd) =>
      { accepted := Function.update h.accepted readd []
        received := Function.update h.received readd [] }
  | .write buf, .wrote ret _ => { h with accepted := fun r => h.accepted r ++ buf.take ret.toNat }
  | .read readd _, .received _ buf =>
      { h with received := Function.update h.received readd (h.received readd ++ buf) }
  | _, _ => h

/-- A call returns the number of bytes it copied, at most what it was given. -/
def Exact (_ : History) : Op → Reply → Prop
  | .write buf, .wrote ret copied => ret = copied ∧ ret ≤ buf.length
  | .read _ len, .received ret buf => ret = buf.length ∧ ret ≤ len
  | _, _ => True

/-- The bytes of the area that a reader has not consumed. -/
def unread (s : RbufData) (r : Nat) : List UInt8 :=
  slice s.mem s.size (s.pread r) (waiting s r)

/-- Every open reader received a prefix of what was accepted for it, and the
rest of it is still in the data area. -/
def InOrder (s : RbufData) (h : History) : Prop :=
  ∀ r, s.readers r → h.received r <+: h.accepted r ∧
    h.accepted r = h.received r ++ unread s r

/-- The calls are made for open readers, as the source asserts. -/
def ForOpen (s : RbufData) : Op → Prop
  | .close readd => s.readers readd = true
  | .read readd _ => s.readers readd = true
  | _ => True

/-- A transfer is not cut short, unless nothing at all can be transferred. -/
def Uncut (s : RbufData) : Op → Prop
  | .write buf =>
      ((buf.length : Int) ≤ free s ∧ s.pwrite + buf.length < 2 ^ 31) ∨ free s = 0
  | .read readd len =>
      ((len : Int) ≤ avail s readd ∧ s.pread readd + len < 2 ^ 31) ∨ avail s readd = 0
  | _ => True

instance decidableForOpen (s : RbufData) : (i : Op) → Decidable (ForOpen s i)
  | .open' => isTrue trivial
  | .close readd => inferInstanceAs (Decidable (s.readers readd = true))
  | .write _ => isTrue trivial
  | .read readd _ => inferInstanceAs (Decidable (s.readers readd = true))

instance decidableUncut (s : RbufData) : (i : Op) → Decidable (Uncut s i)
  | .open' => isTrue trivial
  | .close _ => isTrue trivial
  | .write buf => inferInstanceAs (Decidable (((buf.length : Int) ≤ free s ∧
      s.pwrite + buf.length < 2 ^ 31) ∨ free s = 0))
  | .read readd len => inferInstanceAs (Decidable (((len : Int) ≤ avail s readd ∧
      s.pread readd + len < 2 ^ 31) ∨ avail s readd = 0))

def noHistory : History :=
  { accepted := fun _ => []
    received := fun _ => [] }

theorem inOrder_of_eq {s : RbufData} {h : History}
    (heq : ∀ r, s.readers r → h.accepted r = h.received r ++ unread s r) : InOrder s h :=
  fun r hr => ⟨⟨unread s r, (heq r hr).symm⟩, heq r hr⟩

theorem open_tracks {s : RbufData} {h : History} (hv : Valid s) (hin : InOrder s h) :
    Valid (open' s).2 ∧ InOrder (open' s).2 (h.next .open' (.opened (open' s).1)) := by
  rcases open_spec hv with heq | ⟨r, s', hclosed, heq, hv', hsize, hmem, hpw, hreaders, hpread⟩
  · rw [heq]
    exact ⟨hv, hin⟩
  · rw [heq]
    refine ⟨hv', inOrder_of_eq ?_⟩
    intro r' hr'
    by_cases hnew : r' = r
    · subst hnew
      have hat : s'.pread r' = s'.pwrite := by rw [hpread, Function.update_self, hpw]
      have hnone : waiting s' r' = 0 := by
        apply waiting_of_pwrite_eq (hv'.pread_lt r' hr') (Nat.zero_lt_of_lt hv'.pwrite_lt)
        rw [hat, Nat.add_zero, Nat.mod_eq_of_lt hv'.pwrite_lt]
      rw [unread, hnone]
      simp [History.next]
    · have hat : s'.pread r' = s.pread r' := by rw [hpread, Function.update_of_ne hnew]
      have hold : s.readers r' := by rwa [hreaders, Function.update_of_ne hnew] at hr'
      have hunread : unread s' r' = unread s r' := by
        simp only [unread, waiting, avail, hpw, hsize, hat, hmem]
      rw [hunread]
      simpa [History.next, hnew] using (hin r' hold).2

theorem close_tracks {s : RbufData} {h : History} (hv : Valid s) (hin : InOrder s h) {r : Nat}
    (hr : s.readers r) : Valid (close s r) ∧ InOrder (close s r) h := by
  refine ⟨valid_close hv hr, ?_⟩
  intro r' hr'
  have hopen : s.readers r' := by
    by_cases hsame : r' = r
    · rwa [hsame]
    · simpa [close, setReader, hsame] using hr'
  exact hin r' hopen

theorem advanced_inOrder {s : RbufData} {h : History} (hv : Valid s) (hin : InOrder s h)
    {m : Mem} {buf : List UInt8} (hm : Filled s.mem m s.size s.pwrite buf)
    (hfree : (buf.length : Int) ≤ free s) :
    InOrder (advanced s m buf.length) { h with accepted := fun r => h.accepted r ++ buf } := by
  obtain ⟨f, hf, -, hroom, -⟩ := free_spec hv
  apply inOrder_of_eq
  intro r hr
  have hlt : waiting s r + buf.length < s.size := by
    have := hroom r hr
    omega
  have hunread : unread (advanced s m buf.length) r = unread s r ++ buf := by
    rw [unread, waiting_advanced hv m hr hlt]
    exact slice_advanced hv hm hr hlt
  rw [hunread, ← List.append_assoc, ← (hin r hr).2]

theorem consumed_inOrder {s : RbufData} {h : History} (hv : Valid s) (hin : InOrder s h)
    {r n : Nat} (hr : s.readers r) (hn : n ≤ waiting s r) :
    InOrder (consumed s r n)
      { h with
        received := Function.update h.received r
          (h.received r ++ slice s.mem s.size (s.pread r) n) } := by
  apply inOrder_of_eq
  intro r' hr'
  by_cases hsame : r' = r
  · subst hsame
    have hunread : slice s.mem s.size (s.pread r') n ++ unread (consumed s r' n) r' =
        unread s r' := by
      have hat : (consumed s r' n).pread r' = (s.pread r' + n) % s.size := by
        simp [consumed, setPread]
      rw [unread, waiting_consumed hv hr hn, hat]
      conv_rhs => rw [unread, show waiting s r' = n + (waiting s r' - n) by omega, slice_append]
      rfl
    simp only [Function.update_self, List.append_assoc, hunread]
    exact (hin r' hr).2
  · have hunread : unread (consumed s r n) r' = unread s r' := by
      rw [unread, consumed, waiting_setPread_of_ne hsame]
      simp [unread, setPread, hsame]
    simp only [Function.update_of_ne hsame, hunread]
    exact (hin r' hr').2

theorem step_tracks {s : RbufData} {h : History} (hv : Valid s) (hin : InOrder s h) {i : Op}
    (hopen : ForOpen s i) (huncut : Uncut s i) :
    ∃ r s', step s i = some (r, s') ∧ Exact h i r ∧ Valid s' ∧ InOrder s' (h.next i r) := by
  cases i with
  | open' => exact ⟨_, _, rfl, trivial, open_tracks hv hin⟩
  | close r => exact ⟨_, _, rfl, trivial, close_tracks hv hin hopen⟩
  | write buf =>
      rcases huncut with ⟨hfree, hint⟩ | hfree
      · obtain ⟨m, hm, hwrite⟩ := writeBuf_of_le hv hfree hint
        refine ⟨.wrote buf.length buf.length, advanced s m buf.length, by rw [step, hwrite]; rfl,
          ⟨rfl, Int.le_refl _⟩, valid_advanced hv m _, ?_⟩
        simpa [History.next] using advanced_inOrder hv hin hm hfree
      · refine ⟨.wrote 0 0, s, by rw [step, writeBuf_full hfree]; rfl, ⟨rfl, by omega⟩, hv, ?_⟩
        simpa [History.next] using hin
  | read r len =>
      have hread : readBuf s r len = readBytes s r len := if_neg (by omega)
      have havail := avail_eq_waiting (hv.pread_lt r hopen) hv.pwrite_lt
      rcases huncut with ⟨hle, hint⟩ | hempty
      · have hn : len ≤ waiting s r := by omega
        refine ⟨.received len (slice s.mem s.size (s.pread r) len), consumed s r len, ?_,
          ⟨by rw [length_slice], Int.le_refl _⟩, ?_, consumed_inOrder hv hin hopen hn⟩
        · rw [step, hread, readBytes_of_le hv hopen hn hint]
          rfl
        · exact valid_setPread hv (Nat.mod_lt _ (Nat.zero_lt_of_lt hv.pwrite_lt))
      · refine ⟨.received 0 [], s, ?_, ⟨rfl, by omega⟩, hv, ?_⟩
        · rw [step, hread, readBytes_empty hempty]
          rfl
        · simpa [History.next] using hin

/-- A call that is cut short copies more than it returns. -/
theorem uncut_of_exact {s s' : RbufData} {h : History} {i : Op} {r : Reply} (hv : Valid s)
    (hopen : ForOpen s i) (hstep : step s i = some (r, s')) (hexact : Exact h i r) :
    Uncut s i := by
  cases i with
  | open' => trivial
  | close r => trivial
  | write buf =>
      obtain ⟨⟨⟨ret, copied⟩, s₁⟩, hwrite, heq⟩ := Option.map_eq_some_iff.mp hstep
      obtain ⟨rfl, rfl⟩ := Prod.mk.inj heq
      have hret : ret = copied := hexact.1
      obtain ⟨f, hf, -⟩ := free_spec hv
      have hpw := hv.pwrite_lt
      have hsmall := hv.small
      rcases writeBuf_cases hwrite with hzero | hfull | ⟨hmin, hcopied, hint⟩
      · exact Or.inl ⟨by omega, by omega⟩
      · exact Or.inr hfull
      · exact Or.inl ⟨by omega, by omega⟩
  | read r len =>
      have hread : readBuf s r len = readBytes s r len := if_neg (by omega)
      obtain ⟨⟨⟨ret, buf⟩, s₁⟩, hbytes, heq⟩ := Option.map_eq_some_iff.mp hstep
      obtain ⟨rfl, rfl⟩ := Prod.mk.inj heq
      have hret : ret = buf.length := hexact.1
      have hpread := hv.pread_lt r hopen
      have havail := avail_eq_waiting hpread hv.pwrite_lt
      have hsmall := hv.small
      rw [hread] at hbytes
      rcases readBytes_cases hbytes with ⟨hzero, -⟩ | ⟨hmin, split, hsplit, hget⟩
      · rcases Nat.eq_zero_or_pos len with hlen | hlen
        · exact Or.inl ⟨by omega, by omega⟩
        · exact Or.inr (by omega)
      · have hcopied := getBytes_length hget
        have hint := (splitAt_eq_some hsplit).1
        exact Or.inl ⟨by omega, by omega⟩

/-- Stream mode is first in, first out for every reader, with exact replies,
in exactly the runs in which no transfer is cut short. -/
theorem stream_fifo_iff {size : Nat} (hpos : 0 < size) (hsmall : size < 2 ^ 31) (mem : Mem)
    (is : List Op) (hopen : StepsMeet step ForOpen (newBuffer size mem) is) :
    Tracks step Exact History.next InOrder (newBuffer size mem) noHistory is ↔
      StepsMeet step Uncut (newBuffer size mem) is := by
  refine tracks_iff_of_simulation (I := fun s h => Valid s ∧ InOrder s h) ?_ ?_ ?_ is ?_ hopen
  · exact fun s h hI => hI.2
  · rintro s h i ⟨hv, hin⟩ hopen huncut
    exact step_tracks hv hin hopen huncut
  · rintro s h i r s' ⟨hv, -⟩ hopen hstep hexact -
    exact uncut_of_exact hv hopen hstep hexact
  · exact ⟨newBuffer_valid hpos hsmall mem, fun r hr => absurd hr (by simp [newBuffer])⟩

/-- A run around the end of the data area. -/
def aroundTheEnd : List Op :=
  [.open', .write [1, 2, 3, 4, 5, 6], .read 0 6, .write [7, 8, 9, 10]]

theorem stream_fifo_around_the_end :
    StepsMeet step ForOpen (newBuffer 8 fun _ => 0) (aroundTheEnd ++ [.read 0 4]) ∧
      Tracks step Exact History.next InOrder (newBuffer 8 fun _ => 0) noHistory
        (aroundTheEnd ++ [.read 0 4]) := by
  have hopen : StepsMeet step ForOpen (newBuffer 8 fun _ => 0) (aroundTheEnd ++ [.read 0 4]) := by
    decide +kernel
  refine ⟨hopen, ?_⟩
  exact (stream_fifo_iff (by decide) (by decide) _ _ hopen).mpr (by decide +kernel)

/-- With three bytes free a write of four returns three and copies four: the
writer catches up with the reader, for which nothing is left to read. -/
theorem write_cut_short_copies_all :
    StepsMeet step ForOpen (newBuffer 8 fun _ => 0) (aroundTheEnd ++ [.write [11, 12, 13, 14]]) ∧
      ¬ Tracks step Exact History.next InOrder (newBuffer 8 fun _ => 0) noHistory
        (aroundTheEnd ++ [.write [11, 12, 13, 14]]) := by
  refine ⟨by decide +kernel, ?_⟩
  intro h
  obtain ⟨s, a, r, s', hrun, hstep, hexact⟩ := h.last
  have hreply : ((run step (newBuffer 8 fun _ => 0) aroundTheEnd).bind fun s =>
      (step s (.write [11, 12, 13, 14])).map Prod.fst) = some (.wrote 3 4) := by
    decide +kernel
  rw [hrun, Option.bind_some, hstep, Option.map_some] at hreply
  obtain rfl : r = .wrote 3 4 := Option.some.inj hreply
  exact absurd hexact.1 (by decide)

end ULib.RingStream
