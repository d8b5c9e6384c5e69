import ULib.ByteMemory
import ULib.KeyComparison
import ULib.Runs

/-!
The memory-mapped log of `log.cpp`. What is logged goes through the map, a
compressed block that waits in shared memory, and the archives; a full map and
the signal SIGUSR1 move it on.
-/

namespace ULib.LogConservation

open ByteMemory KeyComparison Runs

/-! ### ULog -/

/-- `LOG_FILE_SZ` points behind the `size` bytes of `UFile::map`, and `ptr` is the distance of
`LOG_ptr`. `gzip` are the `LOG_gzip_len` bytes at `LOG_gzip_ptr`, where there is `room`. -/
structure ULog where
  map : Mem
  size : Nat
  ptr : Nat
  gzip : Bytes
  gzipSize : Nat
  room : Nat
  archives : List Bytes

/-- `ULog::open`, of a file that is no longer than `_size`. -/
def ULog.open (content : Bytes) (size : UInt32) (gzipSize room : Nat) : ULog where
  map := write (fun _ => 0) 0 content
  size := size.toNat
  ptr := content.length
  gzip := []
  gzipSize := gzipSize
  room := room
  archives := []

section Model

variable (deflate : Bytes → Bytes)

def logRotateWrite (s : ULog) (sz : Nat) : Option ULog :=
  let s := if s.gzip = [] then s else { s with archives := s.archives ++ [s.gzip], gzip := [] }
  if sz = 0 then some s
  else
    let data := deflate (ByteMemory.read s.map 0 sz)
    if sz ≤ s.gzipSize then
      if data.length ≤ s.room then some { s with gzip := data } else none
    else some { s with archives := s.archives ++ [data] }

/-- `logRotate` of a mapped file, which leaves `LOG_ptr` where it is. -/
def logRotate (s : ULog) : Option ULog := logRotateWrite deflate s s.ptr

/-- The loop of `write`. -/
def writeLoop : List Bytes → ULog → Option ULog
  | [], s => some s
  | base :: iov, s =>
      (if s.size < s.ptr + base.length then (logRotate deflate s).map ({ · with ptr := 0 })
        else some s).bind fun s =>
        -- behind the map there is no memory to copy to
        if s.size < s.ptr + base.length then none
        else writeLoop iov { s with map := write s.map s.ptr base, ptr := s.ptr + base.length }

def checkForLogRotateDataToWrite (s : ULog) : Option (Bool × ULog) :=
  if s.gzip = [] then some (false, s) else (logRotateWrite deflate s 0).map (true, ·)

inductive Action
  | write (iov : List Bytes)
  | sigusr1
  | checkForLogRotateDataToWrite

def step (s : ULog) : Action → Option (Option Bool × ULog)
  | .write iov => (writeLoop deflate iov s).map (none, ·)
  | .sigusr1 => (logRotate deflate s).map (none, ·)
  | .checkForLogRotateDataToWrite =>
      (checkForLogRotateDataToWrite deflate s).map fun r => (some r.1, r.2)

end Model

/-! ### What is kept -/

section Kept

variable (inflate : Bytes → Bytes)

/-- What the archives and the waiting block hold. -/
def archived (s : ULog) : Bytes :=
  (s.archives.map inflate).flatten ++ if s.gzip = [] then [] else inflate s.gzip

/-- What is in the log: the archives, the waiting block and the map up to `LOG_ptr`. -/
def contents (s : ULog) : Bytes := archived inflate s ++ ByteMemory.read s.map 0 s.ptr

/-- The log holds what was logged, and `LOG_ptr` is inside the map. -/
def Conserved (s : ULog) (logged : Bytes) : Prop := contents inflate s = logged ∧ s.ptr ≤ s.size

end Kept

/-- What is logged after an action. -/
def next (logged : Bytes) : Action → Bytes
  | .write iov => logged ++ iov.flatten
  | .sigusr1 => logged
  | .checkForLogRotateDataToWrite => logged

/-- The entries are no longer than the map. -/
def Short (size : Nat) : Action → Prop
  | .write iov => ∀ base ∈ iov, base.length ≤ size
  | .sigusr1 => True
  | .checkForLogRotateDataToWrite => True

/-- No signal comes while there is something in the map. -/
def Quiet (s : ULog) : Action → Prop
  | .write _ => True
  | .sigusr1 => s.ptr = 0
  | .checkForLogRotateDataToWrite => True

instance decidableShort (size : Nat) : (i : Action) → Decidable (Short size i)
  | .write iov => inferInstanceAs (Decidable (∀ base ∈ iov, base.length ≤ size))
  | .sigusr1 => isTrue trivial
  | .checkForLogRotateDataToWrite => isTrue trivial

instance decidableQuiet (s : ULog) : (i : Action) → Decidable (Quiet s i)
  | .write _ => isTrue trivial
  | .sigusr1 => inferInstanceAs (Decidable (s.ptr = 0))
  | .checkForLogRotateDataToWrite => isTrue trivial

/-! ### The parts -/

section Parts

variable {deflate inflate : Bytes → Bytes} {s : ULog} {logged : Bytes}

theorem archived_append {archives : List Bytes} {gzip : Bytes} :
    archived inflate { s with archives := archives, gzip := gzip } =
      (archives.map inflate).flatten ++ if gzip = [] then [] else inflate gzip := rfl

theorem flatten_concat (archives : List Bytes) (data : Bytes) :
    ((archives ++ [data]).map inflate).flatten =
      (archives.map inflate).flatten ++ inflate data := by
  rw [List.map_append, List.flatten_append, List.map_cons, List.map_nil, List.flatten_cons,
    List.flatten_nil, List.append_nil]

/-- The waiting block comes behind the archives when it is written out. -/
theorem archived_flushed (s : ULog) :
    archived inflate (if s.gzip = [] then s
      else { s with archives := s.archives ++ [s.gzip], gzip := [] }) = archived inflate s := by
  split_ifs with hgzip
  · rfl
  · rw [archived, if_pos rfl, flatten_concat, List.append_nil, archived, if_neg hgzip]

variable (hinflate : ∀ t, inflate (deflate t) = t) (hdeflate : ∀ t, t ≠ [] → deflate t ≠ [])
  (hroom : ∀ t, t.length ≤ s.gzipSize → (deflate t).length ≤ s.room)
include hinflate hdeflate hroom

/-- What a rotation is asked for goes behind what is archived; the map and `LOG_ptr` stay. -/
theorem logRotateWrite_spec {sz : Nat} :
    ∃ archives gzip, logRotateWrite deflate s sz =
        some { s with archives := archives, gzip := gzip } ∧
      archived inflate { s with archives := archives, gzip := gzip } =
        archived inflate s ++ ByteMemory.read s.map 0 sz := by
  rw [← archived_flushed s, logRotateWrite]
  generalize hflushed : (if s.gzip = [] then s
    else { s with archives := s.archives ++ [s.gzip], gzip := [] }) = t
  have hgzip : t.gzip = [] := by
    subst hflushed
    split_ifs with hgzip
    · exact hgzip
    · rfl
  obtain ⟨archives, gzip, rfl⟩ : ∃ archives gzip, t = { s with archives, gzip } := by
    subst hflushed
    split_ifs
    · exact ⟨_, _, rfl⟩
    · exact ⟨_, _, rfl⟩
  obtain rfl : gzip = [] := hgzip
  by_cases hsz : sz = 0
  · subst hsz
    exact ⟨_, _, if_pos rfl, (List.append_nil _).symm⟩
  · have hlength : (ByteMemory.read s.map 0 sz).length = sz := length_read _ _ _
    have hdata : deflate (ByteMemory.read s.map 0 sz) ≠ [] := by
      refine hdeflate _ fun hnil => hsz ?_
      rw [← hlength, hnil, List.length_nil]
    by_cases hle : sz ≤ s.gzipSize
    · refine ⟨archives, deflate (ByteMemory.read s.map 0 sz), ?_, ?_⟩
      · rw [if_neg hsz]
        exact (if_pos hle).trans (if_pos (hroom _ (hlength.symm ▸ hle)))
      · rw [archived_append, archived_append, if_neg hdata, hinflate, if_pos rfl, List.append_nil]
    · refine ⟨archives ++ [deflate (ByteMemory.read s.map 0 sz)], [], ?_, ?_⟩
      · rw [if_neg hsz]
        exact if_neg hle
      · rw [archived_append, archived_append, if_pos rfl, flatten_concat, hinflate,
          List.append_nil, List.append_nil]

end Parts

/-! ### Runs -/

/-- What holds between the actions. -/
structure Kept (deflate inflate : Bytes → Bytes) (size : Nat) (s : ULog) (logged : Bytes) :
    Prop where
  conserved : Conserved inflate s logged
  size_eq : s.size = size
  room : ∀ t, t.length ≤ s.gzipSize → (deflate t).length ≤ s.room

section Runs

variable {deflate inflate : Bytes → Bytes} {size : Nat} {s : ULog} {logged : Bytes}

/-- The copy of an entry that fits in front of `LOG_FILE_SZ`. -/
theorem Kept.copied (h : Kept deflate inflate size s logged) {base : Bytes}
    (hfits : s.ptr + base.length ≤ s.size) :
    Kept deflate inflate size { s with map := write s.map s.ptr base, ptr := s.ptr + base.length }
      (logged ++ base) where
  conserved := by
    refine ⟨?_, hfits⟩
    have hold : ByteMemory.read (write s.map s.ptr base) 0 s.ptr = ByteMemory.read s.map 0 s.ptr :=
      read_write_apart _ _ (.inr (Nat.le_of_eq (Nat.zero_add _)))
    have hnew : ByteMemory.read (write s.map s.ptr base) (0 + s.ptr) base.length = base := by
      rw [Nat.zero_add, read_write_same]
    rw [contents, read_append, hold, hnew, ← List.append_assoc, ← h.conserved.1]
    rfl
  size_eq := h.size_eq
  room := h.room

variable (hinflate : ∀ t, inflate (deflate t) = t) (hdeflate : ∀ t, t ≠ [] → deflate t ≠ [])
include hinflate hdeflate

/-- A rotation puts what is in the map behind the archives; what was in it is there once when
`LOG_ptr` goes back to the start. -/
theorem Kept.rotated (h : Kept deflate inflate size s logged) :
    ∃ s', logRotate deflate s = some s' ∧ s'.ptr = s.ptr ∧
      contents inflate s' = logged ++ ByteMemory.read s.map 0 s.ptr ∧
      Kept deflate inflate size { s' with ptr := 0 } logged := by
  obtain ⟨archives, gzip, hrotate, harchived⟩ :=
    @logRotateWrite_spec _ _ s hinflate hdeflate h.room s.ptr
  refine ⟨_, hrotate, rfl, ?_, ⟨?_, Nat.zero_le _⟩, h.size_eq, h.room⟩
  · rw [← h.conserved.1, contents, harchived]
    rfl
  · rw [← h.conserved.1]
    exact (List.append_nil _).trans harchived

theorem writeLoop_keeps (h : Kept deflate inflate size s logged) {iov : List Bytes}
    (hshort : ∀ base ∈ iov, base.length ≤ size) :
    ∃ s', writeLoop deflate iov s = some s' ∧
      Kept deflate inflate size s' (logged ++ iov.flatten) := by
  induction iov generalizing s logged with
  | nil => exact ⟨s, rfl, by rwa [List.flatten_nil, List.append_nil]⟩
  | cons base iov ih =>
      obtain ⟨hbase, hiov⟩ := List.forall_mem_cons.mp hshort
      obtain ⟨s₁, hroom, hkept, hfits⟩ : ∃ s₁, (if s.size < s.ptr + base.length then
          (logRotate deflate s).map ({ · with ptr := 0 }) else some s) = some s₁ ∧
          Kept deflate inflate size s₁ logged ∧ s₁.ptr + base.length ≤ s₁.size := by
        split_ifs with hfull
        · obtain ⟨s', hrotate, -, -, hkept⟩ := h.rotated hinflate hdeflate
          refine ⟨_, by rw [hrotate, Option.map_some], hkept, ?_⟩
          rw [hkept.size_eq, Nat.zero_add]
          exact hbase
        · exact ⟨s, rfl, h, Nat.not_lt.mp hfull⟩
      obtain ⟨s', hloop, hkept'⟩ := ih (hkept.copied hfits) hiov
      refine ⟨s', ?_, ?_⟩
      · rw [writeLoop, hroom, Option.bind_some, if_neg (Nat.not_lt.mpr hfits), hloop]
      · rwa [List.flatten_cons, ← List.append_assoc]

theorem check_keeps (h : Kept deflate inflate size s logged) :
    ∃ r s', checkForLogRotateDataToWrite deflate s = some (r, s') ∧
      Kept deflate inflate size s' logged := by
  rw [checkForLogRotateDataToWrite]
  split_ifs with hgzip
  · exact ⟨_, _, rfl, h⟩
  · obtain ⟨archives, gzip, hwrite, harchived⟩ :=
      @logRotateWrite_spec _ _ s hinflate hdeflate h.room 0
    refine ⟨_, _, congrArg (Option.map (true, ·)) hwrite, ⟨?_, h.conserved.2⟩, h.size_eq, h.room⟩
    rw [← h.conserved.1, contents, harchived, read_zero, List.append_nil]
    rfl

/-- A signal keeps the log if nothing is in the map, and only then. -/
theorem sigusr1_keeps (h : Kept deflate inflate size s logged) :
    ∃ s', logRotate deflate s = some s' ∧ (Conserved inflate s' logged → s.ptr = 0) ∧
      (s.ptr = 0 → Kept deflate inflate size s' logged) := by
  obtain ⟨s', hrotate, hptr, hcontents, hkept⟩ := h.rotated hinflate hdeflate
  refine ⟨s', hrotate, ?_, ?_⟩
  · rintro ⟨hconserved, -⟩
    have hlength := congrArg List.length (hcontents.symm.trans hconserved)
    rw [List.length_append, length_read] at hlength
    exact Nat.add_eq_left.mp hlength
  · intro hzero
    have hstart : { s' with ptr := 0 } = s' := by
      rw [← hzero, ← hptr]
    rwa [hstart] at hkept

theorem step_keeps (h : Kept deflate inflate size s logged) {i : Action} (hshort : Short size i)
    (hquiet : Quiet s i) :
    ∃ r s', step deflate s i = some (r, s') ∧ True ∧
      Kept deflate inflate size s' (next logged i) := by
  cases i with
  | write iov =>
      obtain ⟨s', hloop, hkept⟩ := writeLoop_keeps hinflate hdeflate h hshort
      exact ⟨_, s', congrArg (Option.map (none, ·)) hloop, trivial, hkept⟩
  | sigusr1 =>
      obtain ⟨s', hrotate, -, hkept⟩ := sigusr1_keeps hinflate hdeflate h
      exact ⟨_, s', congrArg (Option.map (none, ·)) hrotate, trivial, hkept hquiet⟩
  | checkForLogRotateDataToWrite =>
      obtain ⟨r, s', hcheck, hkept⟩ := check_keeps hinflate hdeflate h
      exact ⟨some r, s', by rw [step, hcheck, Option.map_some], trivial, hkept⟩

theorem quiet_of_conserved (h : Kept deflate inflate size s logged) {i : Action} {r : Option Bool}
    {s' : ULog} (hstep : step deflate s i = some (r, s'))
    (hconserved : Conserved inflate s' (next logged i)) : Quiet s i := by
  cases i with
  | write iov => trivial
  | sigusr1 =>
      obtain ⟨s₁, hrotate, hzero, -⟩ := sigusr1_keeps hinflate hdeflate h
      obtain ⟨-, rfl⟩ := Prod.mk.inj (Option.some.inj
        ((congrArg (Option.map ((none : Option Bool), ·)) hrotate).symm.trans hstep))
      exact hzero hconserved
  | checkForLogRotateDataToWrite => trivial

end Runs

/-- Where no entry is longer than the map, a log holds what was logged in every state of a run if
and only if no signal comes while something is in the map. -/
theorem log_conserved_iff {deflate inflate : Bytes → Bytes}
    (hinflate : ∀ t, inflate (deflate t) = t) (hdeflate : ∀ t, t ≠ [] → deflate t ≠ [])
    {content : Bytes} {size : UInt32} (hcontent : content.length ≤ size.toNat) {gzipSize room : Nat}
    (hroom : ∀ t, t.length ≤ gzipSize → (deflate t).length ≤ room) (is : List Action)
    (hshort : ∀ i ∈ is, Short size.toNat i) :
    Follows (step deflate) (fun _ _ _ => True) next (Conserved inflate)
        (ULog.open content size gzipSize room) content is ↔
      StepsMeet (step deflate) Quiet (ULog.open content size gzipSize room) is := by
  have hkept : Kept deflate inflate size.toNat (ULog.open content size gzipSize room) content := by
    refine ⟨⟨?_, hcontent⟩, rfl, hroom⟩
    exact (List.nil_append _).trans (read_write_same _ 0 content)
  have hdom : StepsMeet (step deflate) (fun _ i => Short size.toNat i)
      (ULog.open content size gzipSize room) is := stepsMeet_of_forall hshort _
  rw [follows_iff_tracks]
  refine tracks_iff_of_simulation (I := Kept deflate inflate size.toNat)
    (fun _ _ h => h.conserved) ?_ ?_ is hkept hdom
  · intro s logged i h hshort hquiet
    exact step_keeps hinflate hdeflate h hshort hquiet
  · intro s logged i r s' h _ hstep _ hconserved
    exact quiet_of_conserved hinflate hdeflate h hstep hconserved

/-! ### A small log -/

/-- A stored text behind the header of a gzip member. -/
def storedMember (t : Bytes) : Bytes := [0x1f, 0x8b, 8, 0, 0, 0, 0, 0, 0, 3] ++ t

/-- The second write finds the map full, and the third too, with a block that waits. -/
def writes : List Action :=
  [.sigusr1, .write [[1, 2], [3]], .write [[4, 5]], .write [[6, 7, 8, 9]],
    .checkForLogRotateDataToWrite]

theorem length_storedMember_le (t : Bytes) (ht : t.length ≤ 8) : (storedMember t).length ≤ 18 := by
  rw [storedMember, List.length_append]
  exact Nat.add_le_add (Nat.le_refl 10) ht

theorem writes_conserved :
    Follows (step storedMember) (fun _ _ _ => True) next (Conserved (List.drop 10))
      (ULog.open [] 4 8 18) [] writes :=
  (log_conserved_iff (fun _ => rfl) (fun _ _ => List.cons_ne_nil _ _) (Nat.zero_le _)
    length_storedMember_le writes (by decide)).mpr (by decide)

/-- What is in the map when the signal comes is archived, and stays in the map. -/
theorem not_conserved_signalled :
    ¬ Follows (step storedMember) (fun _ _ _ => True) next (Conserved (List.drop 10))
      (ULog.open [] 4 8 18) [] [.write [[1, 2]], .sigusr1] := by
  intro hfollows
  obtain ⟨s, hrun, hconserved, -⟩ := hfollows.final
  have hcontents : (run (step storedMember) (ULog.open [] 4 8 18) [.write [[1, 2]], .sigusr1]).map
      (contents (List.drop 10)) = some [1, 2, 1, 2] := by decide
  rw [hrun] at hcontents
  exact absurd (hconserved.symm.trans (Option.some.inj hcontents)) (by decide)

end ULib.LogConservation
