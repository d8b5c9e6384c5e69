import ULib.CdbLookup

/-!
The scan of a constant database by its slots, which `URDB` uses to combine it
with the journal: it meets every record once, in the order of the tables.
-/

namespace ULib.CdbScan

open ByteMemory
open KeyComparison
open ConstantDatabase
open CdbImage
open CdbLookup

/-- Where the scan starts: behind the records. A database without records may
be scanned from anywhere as long as nothing is found. -/
def ScanAt (c : UCDB) (rs : List Record) : Prop :=
  c.startHashTableSlot = dataStart + totalSize rs ∨ rs = [] ∧ callForAllEntryExt c = []

theorem nodup_placed (p : Nat) (rs : List Record) : ((placed p rs).map Prod.fst).Nodup := by
  induction rs generalizing p with
  | nil => simp [placed]
  | cons r rs ih =>
      simp only [placed, List.map_cons, List.nodup_cons]
      refine ⟨?_, ih _⟩
      intro hmem
      obtain ⟨x, hx, hxp⟩ := List.mem_map.mp hmem
      have hbounds := placed_bounds hx
      have hpos := recordSize_pos r
      omega

variable {c : UCDB} {rs : List Record}

/-- Slots are never free in an image. -/
theorem callForAllEntryExt_eq (himage : IsImage c.ignoreCase c.file c.stSize rs)
    (hstart : c.startHashTableSlot = dataStart + totalSize rs) :
    callForAllEntryExt c = (List.range rs.length).map fun g =>
      (get c.file (dataStart + totalSize rs + g * 8),
        get c.file (dataStart + totalSize rs + g * 8 + 4)) := by
  have hsize := himage.size_eq
  have hcount : (c.stSize - c.startHashTableSlot + 7) / sizeofHashTableSlot = rs.length := by
    simp only [sizeofHashTableSlot]
    omega
  rw [callForAllEntryExt, hcount, hstart]
  refine List.filter_eq_self.mpr ?_
  intro e he
  obtain ⟨g, hg, rfl⟩ := List.mem_map.mp he
  obtain ⟨x, -, hne, -, -, hpos, -⟩ := slot_at himage (List.mem_range.mp hg)
  simp only [sizeofHashTableSlot, hpos, hne, ne_eq, not_false_iff, decide_true]

/-- The scan meets every record once. -/
theorem callForAllEntryExt_perm (himage : IsImage c.ignoreCase c.file c.stSize rs)
    (hstart : c.startHashTableSlot = dataStart + totalSize rs) :
    ((placed dataStart rs).map fun x => (hashOf c.ignoreCase x, x.1)).Perm
      (callForAllEntryExt c) := by
  rw [callForAllEntryExt_eq himage hstart]
  apply List.Subperm.perm_of_length_le
  · apply List.subperm_of_subset
    · have hnodup := nodup_placed dataStart rs
      rw [show (placed dataStart rs).map Prod.fst =
        ((placed dataStart rs).map fun x => (hashOf c.ignoreCase x, x.1)).map Prod.snd by
          rw [List.map_map]; rfl] at hnodup
      exact hnodup.of_map
    · intro e he
      obtain ⟨x, hx, rfl⟩ := List.mem_map.mp he
      -- the slot of the record in its table
      have hi := indexOf_lt c.ignoreCase x
      obtain ⟨T, hfilled, hhold⟩ := himage.table _ hi
      have hbucket : x ∈ bucket c.ignoreCase (placed dataStart rs) (indexOf c.ignoreCase x) :=
        List.mem_filter.mpr ⟨hx, by simp⟩
      obtain ⟨j, hj, hTj⟩ := List.mem_filterMap.mp (hfilled.perm.mem_iff.mpr hbucket)
      have hlt := List.mem_range.mp hj
      have hslot := hhold j hlt
      simp only [hTj] at hslot
      have hle := slotsBefore_bucket_le c.ignoreCase (placed dataStart rs) hi
      rw [length_placed] at hle
      refine List.mem_map.mpr ⟨slotsBefore c.ignoreCase (placed dataStart rs)
        (indexOf c.ignoreCase x) + j, List.mem_range.mpr (by omega), ?_⟩
      have haddr : dataStart + totalSize rs + (slotsBefore c.ignoreCase (placed dataStart rs)
          (indexOf c.ignoreCase x) + j) * 8 = dataStart + totalSize rs +
          8 * slotsBefore c.ignoreCase (placed dataStart rs) (indexOf c.ignoreCase x) + j * 8 := by
        omega
      rw [haddr, hslot.1, hslot.2]
  · simp

/-- Hash and record of a scanned slot. -/
theorem mem_callForAllEntryExt (himage : IsImage c.ignoreCase c.file c.stSize rs)
    (hscan : ScanAt c rs) {e : Nat × Nat} (he : e ∈ callForAllEntryExt c) :
    e.1 = cdbHash c.ignoreCase (recordAt c.file e.2).key := by
  rcases hscan with hstart | ⟨-, hnil⟩
  · obtain ⟨x, hx, rfl⟩ := List.mem_map.mp
      ((callForAllEntryExt_perm himage hstart).mem_iff.mpr he)
    rw [(himage.stored.holds hx).recordAt_eq]
    rfl
  · rw [hnil] at he
    cases he

/-- The records in the order of the scan. -/
theorem scanned_perm (himage : IsImage c.ignoreCase c.file c.stSize rs) (hscan : ScanAt c rs) :
    ((callForAllEntryExt c).map fun e => recordAt c.file e.2).Perm rs := by
  rcases hscan with hstart | ⟨rfl, hnil⟩
  · refine ((callForAllEntryExt_perm himage hstart).symm.map _).trans ?_
    rw [List.map_map]
    refine List.Perm.of_eq ?_
    conv_rhs => rw [← map_snd_placed dataStart rs]
    apply List.map_congr_left
    intro x hx
    exact (himage.stored.holds hx).recordAt_eq
  · rw [hnil]
    exact List.Perm.refl _

end ULib.CdbScan
