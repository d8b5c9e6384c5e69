import ULib.CdbLookup

/-!
Writing a constant database and reading it back, through `find` on the mapped
file and through `open` of the produced file.
-/

namespace ULib.CdbRoundTrip

open ByteMemory
open KeyComparison
open ConstantDatabase
open CdbImage
open CdbLookup

/-- A new file of `size` bytes, mapped. -/
def newFile (ignoreCase : Bool) (size : Nat) : UCDB where
  ignoreCase := ignoreCase
  mapped := true
  file := fun _ => 0
  stSize := size
  nrecord := 0
  startHashTableSlot := 0
  hr := 0

/-- `makeStart`, `makeAdd` of every record and `makeFinish`, after which the
file is cut to the length that `makeFinish` returns. -/
def createFile (ignoreCase reset : Bool) (size : Nat) (rs : List Record) : Option UCDB :=
  (makeFinish reset (rs.foldl makeAdd (makeStart (newFile ignoreCase size)))).map
    fun (pos, c) => { c with stSize := pos }

theorem foldl_makeAdd_fixed (rs : List Record) (c : UCDB) :
    (rs.foldl makeAdd c).ignoreCase = c.ignoreCase ∧ (rs.foldl makeAdd c).mapped = c.mapped := by
  induction rs generalizing c with
  | nil => exact ⟨rfl, rfl⟩
  | cons r rs ih => exact ih (makeAdd c r)

/-- Adding records writes nothing in the header and nothing behind them. -/
theorem foldl_makeAdd_frame (rs : List Record) (c : UCDB) :
    ∀ x, x < c.hr ∨ c.hr + totalSize rs ≤ x → (rs.foldl makeAdd c).file x = c.file x := by
  induction rs generalizing c with
  | nil => exact fun _ _ => rfl
  | cons r rs ih =>
      intro x hx
      rw [totalSize_cons] at hx
      have hhr : (makeAdd c r).hr = c.hr + recordSize r := by
        simp only [makeAdd, recordSize, Nat.add_assoc]
      have hstep : (makeAdd c r).file x = c.file x := by
        rcases hx with hx | hx
        · exact makeAdd_frame c r x (Nat.zero_le x) (by omega)
        · exact makeAdd_frame_behind c r (x + 1) x (by omega) (by omega)
      rw [List.foldl_cons, ih (makeAdd c r) x (by omega), hstep]

theorem get_zero {m : Mem} {a : Nat} (h : ∀ x, a ≤ x → x < a + 4 → m x = 0) : get m a = 0 := by
  simp [ByteMemory.get, h a (by omega) (by omega), h (a + 1) (by omega) (by omega),
    h (a + 2) (by omega) (by omega), h (a + 3) (by omega) (by omega)]

theorem createFile_isImage (ignoreCase reset : Bool) (size : Nat) (rs : List Record)
    (hfits : dataStart + totalSize rs + 8 * rs.length < 2 ^ 32) :
    ∃ c, createFile ignoreCase reset size rs = some c ∧ c.mapped = true ∧
      c.ignoreCase = ignoreCase ∧ IsImage ignoreCase c.file c.stSize rs := by
  set c₀ := rs.foldl makeAdd (makeStart (newFile ignoreCase size)) with hc₀
  have hadd : Adding c₀ rs := by
    simpa using (makeStart_adding (newFile ignoreCase size)).foldl rs (by omega)
  obtain ⟨hic, hmapped⟩ := foldl_makeAdd_fixed rs (makeStart (newFile ignoreCase size))
  rw [← hc₀] at hic hmapped
  have hzero : ∀ x, x < dataStart ∨ dataStart + totalSize rs ≤ x → c₀.file x = 0 :=
    foldl_makeAdd_frame rs (makeStart (newFile ignoreCase size))
  have hready : ReadyToFinish reset c₀ rs := by
    refine ⟨hfits, .inr ?_, ?_⟩
    · intro k _
      rw [hadd.hr]
      exact get_zero fun x hx _ => hzero x (.inr (by omega))
    · intro _ i hi
      have h512 : numHashTablePointer = 512 := rfl
      have h4096 : dataStart = 4096 := rfl
      exact get_zero fun x _ hx => hzero x (.inl (by omega))
  obtain ⟨m, hfinish, himage⟩ := makeFinish_isImage hadd hready
  rw [hic] at himage
  refine ⟨{ c₀ with
      file := m
      stSize := dataStart + totalSize rs + 8 * rs.length
      startHashTableSlot := dataStart + totalSize rs }, ?_, hmapped, hic, himage⟩
  rw [createFile, ← hc₀, hfinish]
  rfl

/-- For every sequence of records `makeFinish` ends, and on the mapped file
`find(key)` and then `findNext()` return the data of the records with the key,
in the order in which they were added, and then false. What counts as the same
key is the comparison of the database: equality of the bytes, or of the bytes
up to case. -/
theorem createFile_find (ignoreCase reset : Bool) (size : Nat) (rs : List Record)
    (hfits : dataStart + totalSize rs + 8 * rs.length < 2 ^ 32) :
    ∃ c, createFile ignoreCase reset size rs = some c ∧ c.mapped = true ∧
      ∀ cur key,
        (∀ k, result (findSeq c cur key k) = (dataOf ignoreCase rs key)[k]?) ∧
        (Comparable ignoreCase key → dataOf ignoreCase rs key =
          (rs.filter fun r => decide (canon ignoreCase r.key = canon ignoreCase key)).map
            Record.data) := by
  obtain ⟨c, hc, hmapped, hic, himage⟩ := createFile_isImage ignoreCase reset size rs hfits
  subst hic
  refine ⟨c, hc, hmapped, fun cur key => ⟨mapped_results hmapped himage cur key, ?_⟩⟩
  intro hkey
  unfold dataOf
  congr 1
  apply List.filter_congr
  intro r _
  rw [Bool.eq_iff_iff, sameKey_iff hkey, decide_eq_true_eq]

/-- Two records with one key and one with empty key and data. -/
theorem createFile_find_repeated :
    ∃ c, createFile false false 4200 [⟨[97], [1]⟩, ⟨[], []⟩, ⟨[97], [2]⟩] = some c ∧
      ∀ cur k, result (findSeq c cur [97] k) = [[1], [2]][k]? := by
  obtain ⟨c, hc, _, hfind⟩ := createFile_find false false 4200
    [⟨[97], [1]⟩, ⟨[], []⟩, ⟨[97], [2]⟩] (by decide)
  refine ⟨c, hc, fun cur k => ?_⟩
  rw [(hfind cur [97]).1 k]
  have hdata : dataOf false [⟨[97], [1]⟩, ⟨[], []⟩, ⟨[97], [2]⟩] [97] = [[1], [2]] := by
    decide
  rw [hdata]

/-! ### Opening the produced file -/

/-- The database that was opened has the records `rs`: their number, the end
of the record section, and the visits of `callForAllEntry`. -/
def Recovered (rs : List Record) (c : UCDB) : Prop :=
  c.nrecord = rs.length ∧ c.startHashTableSlot = dataStart + totalSize rs ∧
    (callForAllEntry c).map (recordAt c.file) = rs

/-- The scan of the record section visits the records that are stored there. -/
theorem callForAllEntryLoop_stored {m : Mem} {rs : List Record} {p finish fuel : Nat}
    (hstored : Stored m p rs) (hfinish : finish = p + totalSize rs) (hfuel : rs.length < fuel) :
    callForAllEntryLoop m finish fuel p = (placed p rs).map Prod.fst := by
  induction rs generalizing p fuel with
  | nil =>
      rcases fuel with _ | fuel
      · rfl
      · have hdone : ¬ p < finish := by simp at hfinish; omega
        simp [callForAllEntryLoop, hdone, placed]
  | cons r rs ih =>
      rcases fuel with _ | fuel
      · simp at hfuel
      · rw [totalSize_cons] at hfinish
        have hpos := recordSize_pos r
        have hlt : p < finish := by omega
        obtain ⟨⟨hk, hd, _, _⟩, hrest⟩ := hstored
        have hnext : p + sizeofRecordHeader + r.key.length + r.data.length =
            p + recordSize r := by
          simp only [recordSize, Nat.add_assoc]
        simp only [List.length_cons] at hfuel
        simp only [callForAllEntryLoop, hlt, if_true, hk, hd, hnext, placed, List.map_cons]
        rw [ih hrest (by omega) (by omega)]

theorem map_recordAt_placed {m : Mem} {rs : List Record} {p : Nat} (hstored : Stored m p rs) :
    ((placed p rs).map Prod.fst).map (recordAt m) = rs := by
  rw [List.map_map]
  conv_rhs => rw [← map_snd_placed p rs]
  apply List.map_congr_left
  intro x hx
  exact (hstored.holds hx).recordAt_eq

/-- The records that are stored in front of the slots are what is visited. -/
theorem visited_of_stored {c : UCDB} {rs : List Record} (hstored : Stored c.file dataStart rs)
    (hstart : c.startHashTableSlot = dataStart + totalSize rs) :
    (callForAllEntry c).map (recordAt c.file) = rs := by
  have hlen := length_le_totalSize rs
  rw [callForAllEntry, hstart, show numHashTablePointer * sizeofHashTablePointer = dataStart from
    rfl, callForAllEntryLoop_stored hstored rfl (by simp only [dataStart_eq]; omega)]
  exact map_recordAt_placed hstored

/-- `open` finds the end of the records in the first pointer, which a file
without records does not have. -/
theorem recovered_openFile {ignoreCase : Bool} (mapped : Bool) {m : Mem} {size : Nat}
    {rs : List Record} (himage : IsImage ignoreCase m size rs) (hne : rs ≠ []) :
    Recovered rs (openFile ignoreCase mapped m size) := by
  have hsize := himage.size_eq
  have hfits := himage.fits
  have h4096 : dataStart = 4096 := rfl
  have hpointer := himage.pointer hne 0 (by decide)
  rw [Nat.zero_mul, slotsBefore_zero, Nat.mul_zero, Nat.add_zero] at hpointer
  have hpos : size ≠ 0 := by omega
  have hcount : ((size + 2 ^ 64 - (dataStart + totalSize rs)) % 2 ^ 64 / 8) % 2 ^ 32 =
      rs.length := by
    omega
  have hstart : (openFile ignoreCase mapped m size).startHashTableSlot =
      dataStart + totalSize rs := by
    simp only [openFile, hpos, if_false, hpointer]
  refine ⟨?_, hstart, visited_of_stored himage.stored hstart⟩
  simpa only [openFile, hpos, if_false, hpointer, sizeofHashTableSlot] using hcount

/-- What `open` makes of a header without pointers. -/
theorem nrecord_openFile_zero (ignoreCase mapped : Bool) :
    (openFile ignoreCase mapped (fun _ => 0) dataStart).nrecord = 512 := rfl

/-- Opening the produced file recovers the records exactly when there is one:
with no record `makeFinish` leaves all the pointers zero, and `open` takes the
4096 bytes of the header for 512 slots. -/
theorem createFile_recovered_iff (ignoreCase reset mapped : Bool) (size : Nat)
    (rs : List Record) (hfits : dataStart + totalSize rs + 8 * rs.length < 2 ^ 32) :
    ∃ c, createFile ignoreCase reset size rs = some c ∧
      (Recovered rs (openFile ignoreCase mapped c.file c.stSize) ↔ rs ≠ []) := by
  rcases rs.eq_nil_or_concat with rfl | hne
  · refine ⟨_, rfl, iff_of_false ?_ (by simp)⟩
    rintro ⟨hcount, -, -⟩
    have h512 := nrecord_openFile_zero ignoreCase mapped
    exact absurd (h512.symm.trans hcount) (by decide)
  · have hne : rs ≠ [] := by
      obtain ⟨l, x, rfl⟩ := hne
      simp
    obtain ⟨c, hc, -, -, himage⟩ := createFile_isImage ignoreCase reset size rs hfits
    exact ⟨c, hc, iff_of_true (recovered_openFile mapped himage hne) hne⟩

theorem createFile_recovered_one :
    ∃ c, createFile false false 4200 [⟨[97], [1]⟩] = some c ∧
      Recovered [⟨[97], [1]⟩] (openFile false true c.file c.stSize) := by
  obtain ⟨c, hc, hiff⟩ := createFile_recovered_iff false false true 4200 [⟨[97], [1]⟩] (by decide)
  exact ⟨c, hc, hiff.mpr (by decide)⟩

/-- A database without records comes back with 512 of them. -/
theorem openFile_createFile_nil :
    ∃ c, createFile false false 4096 [] = some c ∧ c.stSize = 4096 ∧
      (openFile false true c.file c.stSize).nrecord = 512 ∧
      (openFile false true c.file c.stSize).startHashTableSlot = 0 ∧
      ¬ Recovered [] (openFile false true c.file c.stSize) := by
  refine ⟨_, rfl, rfl, rfl, rfl, ?_⟩
  rintro ⟨hcount, -, -⟩
  exact absurd ((nrecord_openFile_zero false true).symm.trans hcount) (by decide)

end ULib.CdbRoundTrip
