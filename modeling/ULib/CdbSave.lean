import ULib.CdbRoundTrip
import ULib.HashMapSpace

/-!
Saving a hash map of strings as a constant database. The file is given the
bytes that the counter of the map has, and the records are written over the
mapping, chain by chain.
-/

namespace ULib.CdbSave

open ULib.ByteMemory
open ULib.KeyComparison
open ULib.LinkedChain
open ULib.ConstantDatabase
open ULib.CdbImage
open ULib.CdbLookup
open ULib.CdbRoundTrip
open ULib.HashMap (UHashMap mallocNum)
open ULib.HashMapShape (cells view Cell)
open ULib.HashMapIteration (entry)
open ULib.HashMapSpace

/-- `UFile::ftruncate`: a file that is extended has zeros at its end. -/
def ftruncate (c : UCDB) (n : Nat) : UCDB :=
  { c with
    file := fun x => if x < n ∧ x < c.stSize then c.file x else 0
    stSize := n }

/-- A file that is longer than `pos` bytes is cut. -/
def cut (c : UCDB) (pos : Nat) : UCDB := if pos < c.stSize then ftruncate c pos else c

/-- The database that is written, and the end of the bytes written so far. -/
structure Writing where
  cdb : UCDB
  reach : Nat

/-- One turn of the loop of `writeTo`, for the key and the value of a node. -/
def writeRecord (w : Writing) (key value : Bytes) : Writing :=
  let ptr := w.cdb.hr
  let m := put w.cdb.file ptr key.length
  let m := put m (ptr + 4) value.length
  let ptr := ptr + sizeofRecordHeader
  let m := write m ptr key
  let ptr := ptr + key.length
  let m := write m ptr value
  let ptr := ptr + value.length
  ⟨{ w.cdb with file := m, hr := ptr }, max w.reach ptr⟩

/-- The nodes of a chain. -/
def writeChain (s : UHashMap Bytes) : Nat → Nat → Writing → Option Writing
  | _, 0, w => some w
  | 0, _ + 1, _ => none
  | fuel + 1, p + 1, w =>
      (s.heap (p + 1)).bind fun d => writeChain s fuel d.next (writeRecord w d.key d.elem)

/-- The chains of the table. -/
def writeSlots (s : UHashMap Bytes) : List Nat → Writing → Option Writing
  | [], w => some w
  | i :: is, w =>
      if s.table i = 0 then writeSlots s is w
      else (writeChain s s.fresh (s.table i) w).bind fun w => writeSlots s is w

/-- The end of the bytes that `makeFinish(true)` writes when it returns `pos`: it clears the
pointers and the tables, and its other writes are inside of these. -/
def finishReach (c : UCDB) (pos : Nat) : Nat :=
  if 0 < c.nrecord then
    max (numHashTablePointer * sizeofHashTablePointer) (c.hr + (pos + 2 ^ 32 - c.hr) % 2 ^ 32)
  else 0

/-- What `writeTo` returns, the database that it leaves, and the end of the bytes that it wrote. -/
structure Written where
  result : Bool
  cdb : UCDB
  reach : Nat

/-- The end of `writeTo`, with what `makeFinish` returned. -/
def finished (w : Writing) (r : Nat × UCDB) : Written :=
  ⟨true, cut r.2 r.1, max w.reach (finishReach w.cdb r.1)⟩

/-- The bytes to which the file is extended. -/
def fileSize (t : StringMap) : Nat := (sizeFor t.map.length + t.space) % 2 ^ 32

/-- `writeTo(cdb, table, 0)` on a file that can be created; a file without bytes cannot be
mapped. -/
def writeTo (c : UCDB) (t : StringMap) : Option Written :=
  let c := ftruncate { c with nrecord := t.map.length } (fileSize t)
  if c.stSize = 0 then some ⟨false, c, 0⟩
  else
    let c := { c with mapped := true, hr := numHashTablePointer * sizeofHashTablePointer }
    (writeSlots t.map (List.range t.map.capacity) ⟨c, 0⟩).bind fun w =>
      (makeFinish true w.cdb).map (finished w)

/-! ### What is asked of the file -/

def record (e : Bytes × Bytes) : Record := ⟨e.1, e.2⟩

/-- The entries of a map are saved: nothing is written behind the end of the file, and the file is
the database in which a key is found with a value if and only if the map has them. -/
def Saved (c : UCDB) (t : StringMap) (es : List (Bytes × Bytes)) : Prop :=
  ∃ out, writeTo c t = some out ∧ out.result = true ∧ out.reach ≤ fileSize t ∧
    IsImage c.ignoreCase out.cdb.file out.cdb.stSize (es.map record) ∧
    ∀ cur key value,
      result (findKey (openFile c.ignoreCase true out.cdb.file out.cdb.stSize) cur key) =
          some value ↔
        ∃ e ∈ es, sameKey c.ignoreCase key e.1 = true ∧ e.2 = value

/-- The bytes of the database with the entries. -/
def imageSize (es : List (Bytes × Bytes)) : Nat :=
  dataStart + totalSize (es.map record) + 8 * es.length

/-- No key is the same as those of two entries with different values. -/
def Unambiguous (ignoreCase : Bool) (es : List (Bytes × Bytes)) : Prop :=
  ∀ key, ∀ e ∈ es, ∀ e' ∈ es, sameKey ignoreCase key e.1 = true →
    sameKey ignoreCase key e'.1 = true → e.2 = e'.2

/-- The counter covers the entries. A database without records needs a file that has no old
pointers, and one that ignores case an unambiguous map. -/
structure Fits (c : UCDB) (t : StringMap) (es : List (Bytes × Bytes)) : Prop where
  covered : imageSize es ≤ fileSize t
  header : es = [] → ∀ i < numHashTablePointer, get (ftruncate c (fileSize t)).file (i * 8 + 4) = 0
  keys : c.ignoreCase = true → Unambiguous true es

/-! ### Writing the records -/

def writeEntry (w : Writing) (e : Bytes × Bytes) : Writing := writeRecord w e.1 e.2

theorem writeChain_spec {s : UHashMap Bytes} {cs : List (Cell Bytes)} {p fuel : Nat}
    (h : Chain (view s.heap) p cs) (hfuel : cs.length ≤ fuel) (w : Writing) :
    writeChain s fuel p w = some ((cs.map entry).foldl writeEntry w) := by
  induction cs generalizing p fuel w with
  | nil =>
      obtain rfl : p = 0 := h
      cases fuel <;> rfl
  | cons c cs ih =>
      obtain ⟨rfl, hc, q, hq, hrest⟩ := h
      obtain ⟨k, hk⟩ := Nat.exists_eq_succ_of_ne_zero hc
      cases fuel with
      | zero => exact absurd hfuel (Nat.not_succ_le_zero _)
      | succ fuel =>
          have hheap := HashMapShape.view_eq_some hq
          rw [hk] at hheap ⊢
          rw [writeChain, hheap, Option.bind_some]
          exact ih hrest (Nat.le_of_succ_le_succ hfuel) _

theorem writeSlots_spec {s : UHashMap Bytes} {chains : Nat → List (Cell Bytes)}
    (hs : HashMapCase.Linked s chains) {is : List Nat} (his : ∀ i ∈ is, i < s.capacity)
    (w : Writing) :
    writeSlots s is w = some (((is.flatMap chains).map entry).foldl writeEntry w) := by
  induction is generalizing w with
  | nil => rfl
  | cons i is ih =>
      have hi := his i List.mem_cons_self
      have hrest := ih fun j hj => his j (List.mem_cons_of_mem i hj)
      have hchain := hs.linked i hi
      rw [writeSlots, List.flatMap_cons, List.map_append, List.foldl_append]
      split_ifs with hzero
      · rw [hchain.eq_zero_iff.mp hzero]
        exact hrest w
      · rw [writeChain_spec hchain (hs.chain_length hi), Option.bind_some]
        exact hrest _

/-- The records are added as `makeAdd` does it. -/
theorem foldl_writeEntry_cdb (es : List (Bytes × Bytes)) (w : Writing) (k : Nat) :
    (es.foldl writeEntry w).cdb =
      { (es.map record).foldl makeAdd { w.cdb with nrecord := k } with
        nrecord := w.cdb.nrecord } := by
  induction es generalizing w k with
  | nil => rfl
  | cons e es ih =>
      rw [List.foldl_cons, ih (writeEntry w e) (k + 1), List.map_cons, List.foldl_cons]
      rfl

theorem foldl_writeEntry_fixed (es : List (Bytes × Bytes)) (w : Writing) :
    (es.foldl writeEntry w).cdb.ignoreCase = w.cdb.ignoreCase ∧
      (es.foldl writeEntry w).cdb.stSize = w.cdb.stSize := by
  induction es generalizing w with
  | nil => exact ⟨rfl, rfl⟩
  | cons e es ih => exact ih (writeEntry w e)

theorem foldl_writeEntry_reach (es : List (Bytes × Bytes)) (w : Writing) :
    (es.foldl writeEntry w).reach ≤ max w.reach (w.cdb.hr + totalSize (es.map record)) := by
  induction es generalizing w with
  | nil => exact Nat.le_max_left _ _
  | cons e es ih =>
      have hrest := ih (writeEntry w e)
      have hreach : (writeEntry w e).reach = max w.reach (w.cdb.hr + recordSize (record e)) := by
        rw [recordSize, ← Nat.add_assoc, ← Nat.add_assoc]
        rfl
      have hhr : (writeEntry w e).cdb.hr = w.cdb.hr + recordSize (record e) := by
        rw [recordSize, ← Nat.add_assoc, ← Nat.add_assoc]
        rfl
      rw [hreach, hhr] at hrest
      rw [List.foldl_cons, List.map_cons, totalSize_cons]
      omega

/-! ### The file -/

/-- The database in the new mapping. -/
def start (c : UCDB) (t : StringMap) : UCDB :=
  { ftruncate { c with nrecord := t.map.length } (fileSize t) with
    mapped := true
    hr := dataStart }

theorem isImage_congr {ignoreCase : Bool} {m m' : Mem} {size : Nat} {rs : List Record}
    (h : IsImage ignoreCase m size rs) (hagree : Agree m' m 0 size) :
    IsImage ignoreCase m' size rs := by
  have hsize := h.size_eq
  have h512 : numHashTablePointer = 512 := rfl
  have h4096 : dataStart = 4096 := rfl
  have hget : ∀ a, a + 4 ≤ size → get m' a = get m a := fun a ha =>
    (hagree.mono (Nat.zero_le a) (by omega)).get_eq
  refine ⟨h.stored.congr (hagree.mono (Nat.zero_le _) (by omega)), hsize, h.fits, ?_, ?_, ?_⟩
  · intro i hi
    rw [hget _ (by omega)]
    exact h.slots i hi
  · intro hne i hi
    rw [hget _ (by omega)]
    exact h.pointer hne i hi
  · intro i hi
    obtain ⟨T, hfilled, hhold⟩ := h.table i hi
    refine ⟨T, hfilled, fun j hj => ?_⟩
    have hle := slotsBefore_bucket_le ignoreCase (placed dataStart rs) hi
    rw [length_placed] at hle
    have hslot := hhold j hj
    cases hT : T j with
    | none =>
        simp only [hT] at hslot ⊢
        rwa [hget _ (by omega)]
    | some x =>
        simp only [hT] at hslot ⊢
        rwa [hget _ (by omega), hget _ (by omega)]

theorem cut_stSize (c : UCDB) (pos : Nat) : (cut c pos).stSize = min pos c.stSize := by
  rw [cut]
  split_ifs with hlt
  · exact (Nat.min_eq_left (Nat.le_of_lt hlt)).symm
  · exact (Nat.min_eq_right (Nat.le_of_not_lt hlt)).symm

theorem cut_agree (c : UCDB) (pos : Nat) : Agree (cut c pos).file c.file 0 pos := by
  intro x _ hx
  rw [Nat.zero_add] at hx
  rw [cut]
  split_ifs with hlt
  · exact if_pos ⟨hx, Nat.lt_trans hx hlt⟩
  · rfl

section
variable {ignoreCase : Bool} {t : StringMap} {chains : Nat → List (Cell Bytes)}
  (h : Held ignoreCase t.map chains) {es : List (Bytes × Bytes)}
  (hes : (cells t.map.capacity chains).map entry = es)
include h hes

theorem writeTo_eq {c : UCDB} (hsize : fileSize t ≠ 0) :
    writeTo c t =
      (makeFinish true (es.foldl writeEntry ⟨start c t, 0⟩).cdb).map
        (finished (es.foldl writeEntry ⟨start c t, 0⟩)) := by
  have hslots := @writeSlots_spec _ _ h.linked (List.range t.map.capacity)
    (fun i => List.mem_range.mp) ⟨start c t, 0⟩
  rw [← cells, hes] at hslots
  rw [writeTo]
  refine (if_neg hsize).trans ?_
  change (writeSlots t.map (List.range t.map.capacity) ⟨start c t, 0⟩).bind _ = _
  rw [hslots, Option.bind_some]

/-- A map whose database can be addressed is counted. -/
theorem length_eq (hfits : imageSize es < 2 ^ 32) : t.map.length = es.length := by
  have hlength := h.length
  have hcount : (cells t.map.capacity chains).length = es.length := by
    rw [← hes, List.length_map]
  rw [imageSize] at hfits
  rw [hcount] at hlength
  rw [hlength, Nat.mod_eq_of_lt (by omega)]

/-- The database before `makeFinish`. -/
theorem adding (hfits : imageSize es < 2 ^ 32) (c : UCDB) :
    Adding (es.foldl writeEntry ⟨start c t, 0⟩).cdb (es.map record) := by
  have hstart : Adding { start c t with nrecord := 0 } [] := ⟨trivial, rfl, rfl⟩
  rw [imageSize] at hfits
  have hadd := hstart.foldl (es.map record) (by omega)
  rw [List.nil_append] at hadd
  have hlength := length_eq h hes hfits
  rw [foldl_writeEntry_cdb es ⟨start c t, 0⟩ 0]
  refine ⟨hadd.stored, hadd.hr, ?_⟩
  rw [List.length_map]
  exact hlength

/-- `makeFinish` on an empty map only looks for the end of the records. -/
theorem writeTo_nil {c : UCDB} (hsize : fileSize t ≠ 0) (hnil : es = []) :
    writeTo c t =
      some ⟨true, cut { start c t with startHashTableSlot := dataStart } dataStart, 0⟩ := by
  have hzero : (start c t).nrecord = 0 := by
    subst hnil
    exact length_eq h hes (by decide)
  have hfinish : makeFinish true (start c t) =
      some (dataStart, { start c t with startHashTableSlot := dataStart }) := by
    rw [makeFinish]
    refine if_neg ?_
    rw [hzero]
    exact Nat.lt_irrefl 0
  have hreach : finishReach (start c t) dataStart = 0 := by
    rw [finishReach, hzero]
    exact if_neg (Nat.lt_irrefl 0)
  rw [writeTo_eq h hes hsize, hnil, List.foldl_nil, hfinish, Option.map_some, finished, hreach]
  rfl

omit h hes in
theorem finishReach_eq {c : UCDB} {n : Nat} (hn : 0 < c.nrecord) (hstart : dataStart ≤ c.hr)
    (hfits : c.hr + 8 * n < 2 ^ 32) : finishReach c (c.hr + 8 * n) = c.hr + 8 * n := by
  have hdistance : (c.hr + 8 * n + 2 ^ 32 - c.hr) % 2 ^ 32 = 8 * n := by omega
  rw [finishReach, if_pos hn, hdistance]
  exact Nat.max_eq_right (Nat.le_trans hstart (Nat.le_add_right _ _))

/-- With entries the file is finished, and written up to its last table. -/
theorem writeTo_cons {c : UCDB} (hsize : fileSize t ≠ 0) (hne : es ≠ [])
    (hfits : imageSize es < 2 ^ 32) :
    ∃ c', writeTo c t =
        some ⟨true, cut c' (imageSize es), imageSize es⟩ ∧
      c'.stSize = fileSize t ∧ IsImage c.ignoreCase c'.file (imageSize es) (es.map record) := by
  have hadd := adding h hes hfits c
  have hlength : (es.map record).length = es.length := List.length_map _
  have hready : ReadyToFinish true (es.foldl writeEntry ⟨start c t, 0⟩).cdb (es.map record) := by
    refine ⟨?_, .inl rfl, fun hnil => absurd (List.map_eq_nil_iff.mp hnil) hne⟩
    rw [hlength]
    exact hfits
  obtain ⟨m, hfinish, himage⟩ := makeFinish_isImage hadd hready
  rw [hlength] at hfinish himage
  obtain ⟨hignore, hstSize⟩ := foldl_writeEntry_fixed es ⟨start c t, 0⟩
  rw [hignore] at himage
  have hreach : (es.foldl writeEntry ⟨start c t, 0⟩).reach ≤
      max 0 (dataStart + totalSize (es.map record)) :=
    foldl_writeEntry_reach es ⟨start c t, 0⟩
  have hpos := List.length_pos_of_ne_nil hne
  have hnrecord := hadd.nrecord
  rw [hlength] at hnrecord
  have hend : max (es.foldl writeEntry ⟨start c t, 0⟩).reach
      (finishReach (es.foldl writeEntry ⟨start c t, 0⟩).cdb (imageSize es)) = imageSize es := by
    rw [imageSize, ← hadd.hr] at hfits ⊢
    rw [finishReach_eq (hnrecord ▸ hpos) (hadd.hr ▸ Nat.le_add_right _ _) hfits]
    refine Nat.max_eq_right (Nat.le_trans hreach ?_)
    rw [Nat.zero_max, hadd.hr]
    exact Nat.le_add_right _ _
  refine ⟨{ (es.foldl writeEntry ⟨start c t, 0⟩).cdb with
    file := m
    startHashTableSlot := dataStart + totalSize (es.map record) }, ?_, hstSize, himage⟩
  rw [writeTo_eq h hes hsize, hfinish, Option.map_some]
  exact congrArg some (congrArg (Written.mk _ _) hend)

end

/-! ### The entries in the file -/

/-- Without regard to case only, two keys are the same. -/
theorem unambiguous_false {es : List (Bytes × Bytes)} (hkeys : (es.map Prod.fst).Nodup) :
    Unambiguous false es := by
  have hsame : ∀ key key', sameKey false key key' = true → key' = key := fun key key' hkey =>
    (sameKey_iff (fun hfalse => absurd hfalse Bool.false_ne_true) key').mp hkey
  intro key e he e' he' hkey hkey'
  have heq := (hsame key e.1 hkey).trans (hsame key e'.1 hkey').symm
  exact congrArg Prod.snd (List.inj_on_of_nodup_map hkeys he he' heq)

theorem findKey_iff {ignoreCase : Bool} {m : Mem} {size : Nat} {es : List (Bytes × Bytes)}
    (himage : IsImage ignoreCase m size (es.map record)) (hkeys : Unambiguous ignoreCase es)
    (cur : Cursor) (key value : Bytes) :
    result (findKey (openFile ignoreCase true m size) cur key) = some value ↔
      ∃ e ∈ es, sameKey ignoreCase key e.1 = true ∧ e.2 = value := by
  have hfind := mapped_results (c := openFile ignoreCase true m size) rfl himage cur key 0
  rw [findSeq] at hfind
  have hdata : dataOf ignoreCase (es.map record) key =
      (es.filter fun e => sameKey ignoreCase key e.1).map Prod.snd := by
    rw [dataOf, List.filter_map, List.map_map]
    rfl
  rw [hfind, show (openFile ignoreCase true m size).ignoreCase = ignoreCase from rfl, hdata]
  constructor
  · intro hvalue
    obtain ⟨e, he, rfl⟩ := List.mem_map.mp (List.mem_of_getElem? hvalue)
    obtain ⟨hmem, hsame⟩ := List.mem_filter.mp he
    exact ⟨e, hmem, hsame, rfl⟩
  · rintro ⟨e, he, hsame, rfl⟩
    have hmem : e ∈ es.filter fun e => sameKey ignoreCase key e.1 := List.mem_filter.mpr ⟨he, hsame⟩
    cases hfilter : es.filter fun e => sameKey ignoreCase key e.1 with
    | nil =>
        rw [hfilter] at hmem
        exact absurd hmem List.not_mem_nil
    | cons e' rest =>
        have hmem' : e' ∈ es.filter fun e => sameKey ignoreCase key e.1 :=
          hfilter ▸ List.mem_cons_self
        obtain ⟨he', hsame'⟩ := List.mem_filter.mp hmem'
        exact congrArg some (hkeys key e' he' e he hsame' hsame)

/-- Two entries with the same key have the value that is found. -/
theorem unambiguous_of_findKey {ignoreCase : Bool} {c : UCDB} {es : List (Bytes × Bytes)}
    (hfind : ∀ cur key value, result (findKey c cur key) = some value ↔
      ∃ e ∈ es, sameKey ignoreCase key e.1 = true ∧ e.2 = value) :
    Unambiguous ignoreCase es := by
  intro key e he e' he' hsame hsame'
  let cur : Cursor := ⟨[], 0, [], 0, 0, 0, fun _ => 0, fun _ => 0, fun _ => 0, 0, 0, 0⟩
  have hvalue := (hfind cur key e.2).mpr ⟨e, he, hsame, rfl⟩
  have hvalue' := (hfind cur key e'.2).mpr ⟨e', he', hsame', rfl⟩
  exact Option.some.inj (hvalue.symm.trans hvalue')

section
variable {ignoreCase : Bool} {t : StringMap} {chains : Nat → List (Cell Bytes)}
  (h : Held ignoreCase t.map chains) {es : List (Bytes × Bytes)}
  (hes : (cells t.map.capacity chains).map entry = es)
include h hes

theorem fits_of_saved {c : UCDB} (hsaved : Saved c t es) : Fits c t es := by
  obtain ⟨out, hout, hresult, hreach, himage, hfind⟩ := hsaved
  have hsize : fileSize t ≠ 0 := by
    intro hzero
    rw [writeTo] at hout
    have hfailed := Option.some.inj ((if_pos hzero).symm.trans hout)
    rw [← hfailed] at hresult
    exact Bool.false_ne_true hresult
  have hout_size := himage.size_eq
  have hfits := himage.fits
  rw [List.length_map, ← imageSize] at hout_size
  rw [hout_size] at hfits
  have hkeys : c.ignoreCase = true → Unambiguous true es := fun htrue =>
    htrue ▸ unambiguous_of_findKey hfind
  by_cases hnil : es = []
  · have hstart : imageSize es = dataStart := by
      rw [hnil]
      rfl
    rw [writeTo_nil h hes hsize hnil] at hout
    rw [hstart, ← Option.some.inj hout, cut_stSize] at hout_size
    have hcovered : dataStart ≤ fileSize t := by
      rw [← hout_size]
      exact Nat.min_le_right _ _
    refine ⟨hstart ▸ hcovered, fun _ i hi => ?_, hkeys⟩
    have hslots := himage.slots i hi
    rw [hnil, ← Option.some.inj hout] at hslots
    have hagree := cut_agree { start c t with startHashTableSlot := dataStart } dataStart
    have h512 : numHashTablePointer = 512 := rfl
    have h4096 : dataStart = 4096 := rfl
    rw [(hagree.mono (Nat.zero_le _) (by omega)).get_eq] at hslots
    exact hslots
  · obtain ⟨c', hwrite, -, -⟩ := writeTo_cons h hes hsize hnil hfits
    rw [hwrite] at hout
    rw [← Option.some.inj hout] at hreach
    exact ⟨hreach, fun hnil' => absurd hnil' hnil, hkeys⟩

theorem saved_of_fits {c : UCDB} (hfits : Fits c t es) : Saved c t es := by
  obtain ⟨hcovered, hheader, hkeys⟩ := hfits
  have hlt : fileSize t < 2 ^ 32 := Nat.mod_lt _ (by decide)
  have hsize : fileSize t ≠ 0 := by
    have h4096 : dataStart = 4096 := rfl
    rw [imageSize] at hcovered
    omega
  have hunambiguous : Unambiguous c.ignoreCase es := by
    cases hcase : c.ignoreCase with
    | false => exact unambiguous_false (hes ▸ h.keys_nodup)
    | true => exact hkeys hcase
  by_cases hnil : es = []
  · have hstart : imageSize es = dataStart := by
      rw [hnil]
      rfl
    rw [hstart] at hcovered
    have hsizes : (cut { start c t with startHashTableSlot := dataStart } dataStart).stSize =
        dataStart := by
      rw [cut_stSize]
      exact Nat.min_eq_left hcovered
    have hout : IsImage c.ignoreCase
        (cut { start c t with startHashTableSlot := dataStart } dataStart).file
        (cut { start c t with startHashTableSlot := dataStart } dataStart).stSize
        (es.map record) := by
      rw [hsizes, hnil]
      have himage : IsImage c.ignoreCase (start c t).file dataStart [] :=
        isImage_nil c.ignoreCase (hheader hnil)
      exact isImage_congr himage (cut_agree _ _)
    exact ⟨_, writeTo_nil h hes hsize hnil, rfl, Nat.zero_le _, hout,
      findKey_iff hout hunambiguous⟩
  · obtain ⟨c', hwrite, hstSize, himage⟩ :=
      writeTo_cons (c := c) h hes hsize hnil (Nat.lt_of_le_of_lt hcovered hlt)
    rw [← hstSize] at hcovered
    have hout : IsImage c.ignoreCase (cut c' (imageSize es)).file (cut c' (imageSize es)).stSize
        (es.map record) := by
      rw [cut_stSize, Nat.min_eq_left hcovered]
      exact isImage_congr himage (cut_agree _ _)
    exact ⟨_, hwrite, rfl, hstSize ▸ hcovered, hout, findKey_iff hout hunambiguous⟩

end

/-- A map that any calls have made is saved if and only if the counter covers its entries. -/
theorem run_saved_iff (ignoreCase : Bool) {n : Nat} (hn : 0 < mallocNum n) (calls : List Call)
    (c : UCDB) :
    ∃ t es, run ignoreCase (empty n) calls = some t ∧
      HashMap.callForAllEntry t.map = some es ∧ (Saved c t es ↔ Fits c t es) := by
  obtain ⟨t, chains, hrun, h, -⟩ := (held_empty ignoreCase hn).run calls
  exact ⟨t, _, hrun, h.linked.callForAllEntry_eq, fits_of_saved h rfl, saved_of_fits h rfl⟩

theorem run_saved_iff_two :
    ∃ t es, run false (empty 53) [.insert [97] [1], .insert [98] []] = some t ∧
      HashMap.callForAllEntry t.map = some es ∧
      (Saved (newFile false 0) t es ↔ Fits (newFile false 0) t es) :=
  run_saved_iff false (by decide) _ _

/-- An entry that `insertAfterFind` made is not counted. -/
theorem not_saved :
    ∃ t es, run false (empty 53) [.insertAfterFind [97] [1]] = some t ∧
      HashMap.callForAllEntry t.map = some es ∧ ¬ Saved (newFile false 0) t es := by
  obtain ⟨t, chains, hrun, h, -⟩ := (held_empty false (n := 53) (by decide)).run
    [.insertAfterFind [97] [1]]
  refine ⟨t, _, hrun, h.linked.callForAllEntry_eq, fun hsaved => ?_⟩
  have hcovered := (fits_of_saved h rfl hsaved).covered
  have hcount : (run false (empty 53) [.insertAfterFind [97] [1]]).map
      (fun t => (t.map.length, t.space)) = some (1, 0) := by decide
  have hentries : (run false (empty 53) [.insertAfterFind [97] [1]]).bind
      (fun t => HashMap.callForAllEntry t.map) = some [([97], [1])] := by decide
  rw [hrun, Option.map_some, Option.some_inj, Prod.mk.injEq] at hcount
  rw [hrun, Option.bind_some, h.linked.callForAllEntry_eq, Option.some_inj] at hentries
  rw [hentries, fileSize, hcount.1, hcount.2] at hcovered
  exact absurd hcovered (by decide)

end ULib.CdbSave
