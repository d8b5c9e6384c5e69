import Mathlib.Data.Finset.Card
import Mathlib.Order.Interval.Finset.Nat
import ULib.CdbLookup
import ULib.JournalForest

/-!
What `htLookup`, `cdbLookup`, `htAlloc`, `logJournal` and `htInsert` do to the
object when the journal is in order and may grow.
-/

namespace ULib.JournalLog

open ByteMemory
open KeyComparison
open ConstantDatabase
open CdbImage
open CdbLookup
open ReliableDatabase
open ReliableDatabase.URDB
open HeapTree
open JournalTree
open SlotTrees
open JournalForest

@[simp] theorem bytes_ofBytes (m : Mem) (bytes : Bytes) : (Datum.ofBytes bytes).bytes m = bytes := by
  simp [Datum.bytes, Datum.ofBytes]

@[simp] theorem dsize_ofBytes (bytes : Bytes) : (Datum.ofBytes bytes).dsize = bytes.length := rfl

/-! ### Lookups -/

theorem length_le_of_nodup {l : List Nat} {a b : Nat} (hl : l.Nodup)
    (hmem : ∀ n ∈ l, a ≤ n ∧ n < b) : l.length ≤ b - a := by
  have hsub : l.toFinset ⊆ Finset.Ico a b := by
    intro n hn
    exact Finset.mem_Ico.mpr (hmem n (List.mem_toFinset.mp hn))
  have hcard := Finset.card_le_card hsub
  rwa [List.toFinset_card_of_nodup hl, Nat.card_Ico] at hcard

theorem entries_length {m : Mem} {H : Heap Entry} {F : Forest} (h : TreesAt m H F) {i : Nat}
    (hi : i < cacheHashtabLen) : (F i).entries.length < get m 0 := by
  have hlen : (F i).addresses.length = (F i).entries.length := by simp [Tree.addresses]
  have h24 : sizeofCacheNode = 24 := rfl
  have hle := length_le_of_nodup (h.nodup i hi) (a := sizeofCacheStruct) (b := get m 0) (by
    intro n hn
    have := h.mem_lt hi hn
    omega)
  have hlow := h.low
  have hstruct : sizeofCacheStruct = 3092 := rfl
  omega

/-- `htLookup` searches the tree of the slot that `khash` says. -/
theorem htLookup_trees {s : URDB} {H : Heap Entry} {F : Forest} (h : TreesAt s.mem H F)
    (hsize : s.off ≤ s.journal.stSize) {i : Nat} (hi : s.khash % cacheHashtabLen = i)
    {key : Bytes} (hkey : s.key.bytes s.mem = key) (hkeys : ∀ e ∈ (F i).entries, e.2.key ≠ []) :
    htLookup s = some (((F i).find (seek s.ignoreCase key)).isSome,
      { s with
        pnode := (s.journal.map, stopIn F i (seek s.ignoreCase key))
        node := ((F i).find (seek s.ignoreCase key)).elim 0 Prod.fst }) := by
  subst hi hkey
  have hi : s.khash % cacheHashtabLen < cacheHashtabLen := Nat.mod_lt _ (by decide)
  have hlen := entries_length h hi
  have hwalk := htWalk_eq s.ignoreCase h.heap (s.key.bytes s.mem) (s.khash % cacheHashtabLen)
    (h.tree _ hi) hkeys (c := .root) (h.slot _ hi) s.journal.stSize (by unfold off at hsize; omega)
  rw [htLookup, show hashtab (s.khash % cacheHashtabLen) =
    addr (s.khash % cacheHashtabLen) .root from rfl, hwalk]
  rfl

theorem htLookup_eq {s : URDB} {H : Heap Entry} {F : Forest}
    (h : JournalAt s.ignoreCase s.mem H F) (hsize : s.off ≤ s.journal.stSize)
    (hhash : s.khash = cdbHash s.ignoreCase (s.key.bytes s.mem)) :
    htLookup s = some ((lookup s.ignoreCase F (s.key.bytes s.mem)).isSome,
      { s with
        pnode := (s.journal.map, stopAddr s.ignoreCase F (s.key.bytes s.mem))
        node := (lookup s.ignoreCase F (s.key.bytes s.mem)).elim 0 Prod.fst }) :=
  htLookup_trees h.trees hsize (i := slotOf s.ignoreCase (s.key.bytes s.mem))
    (by rw [hhash, slotOf]) rfl fun e he => (h.good _ (slotOf_lt _ _) e he).key_ne

/-- The records of the constant database under the journal. -/
def CdbAt (c : UCDB) (rs : List Record) : Prop :=
  c.stSize = 0 ∧ rs = [] ∨ c.stSize ≠ 0 ∧ c.mapped = true ∧ IsImage c.ignoreCase c.file c.stSize rs

theorem cdbLookup_eq {s : URDB} {rs : List Record} (hcdb : CdbAt s.cdb rs)
    (hhash : s.khash = cdbHash s.ignoreCase (s.key.bytes s.mem)) :
    ∃ cur, cdbLookup s = ((dataOf s.ignoreCase rs (s.key.bytes s.mem)).head?.isSome,
      { s with
        cur := cur
        data := (dataOf s.ignoreCase rs (s.key.bytes s.mem)).head?.elim s.data Datum.ofBytes }) := by
  rcases hcdb with ⟨hzero, rfl⟩ | ⟨hne, hmapped, himage⟩
  · exact ⟨s.cur, by simp [cdbLookup, hzero, dataOf]⟩
  · have hresult := mapped_results hmapped himage s.cur (s.key.bytes s.mem) 0
    rw [← List.head?_eq_getElem?] at hresult
    set r := find s.cdb { s.cur with key := s.key.bytes s.mem, khash := s.khash } with hr
    have hfind : findSeq s.cdb s.cur (s.key.bytes s.mem) 0 = r := by
      rw [hr, hhash]
      rfl
    rw [hfind, result] at hresult
    refine ⟨r.2, ?_⟩
    simp only [cdbLookup, hne, if_false, ← hr]
    rw [show s.ignoreCase = s.cdb.ignoreCase from rfl, ← hresult]
    cases r.1 <;> simp

/-! ### Allocating and filling a node -/

/-- The journal after `htAlloc` with `*pnode` at `cell`. -/
def allocMem (m : Mem) (off cell : Nat) : Mem :=
  fill (put (put m 0 (off + sizeofCacheNode)) cell off) off sizeofCacheNode 0

theorem htAlloc_eq {s : URDB} (hfresh : s.pnode.1 = s.journal.map) :
    htAlloc s = some { s with
      journal := { s.journal with mem := allocMem s.mem s.off s.pnode.2 }
      node := s.off
      trace := s.trace ++ [.alloc s.off s.journal.stSize] } := by
  simp only [htAlloc, putPnode, log, setMem, hfresh, if_true]
  rfl

section AllocMem

variable {m : Mem} {off cell : Nat}

theorem allocMem_frame {a : Nat} (ha : 4 ≤ a) (hcell : a < cell ∨ cell + 4 ≤ a)
    (hnode : a < off ∨ off + sizeofCacheNode ≤ a) : allocMem m off cell a = m a := by
  have h₁ := fill_agree (put (put m 0 (off + sizeofCacheNode)) cell off) off sizeofCacheNode 0
    (b := a) (k := 1) (by unfold Apart; omega) a (by omega) (by omega)
  have h₂ := put_agree (put m 0 (off + sizeofCacheNode)) cell off
    (b := a) (k := 1) (by unfold Apart; omega) a (by omega) (by omega)
  have h₃ := put_agree m 0 (off + sizeofCacheNode)
    (b := a) (k := 1) (by unfold Apart; omega) a (by omega) (by omega)
  rw [allocMem, h₁, h₂, h₃]

theorem allocMem_off (hcell : 16 ≤ cell) (hoff : cell + 4 ≤ off)
    (hsmall : off + sizeofCacheNode < 2 ^ 32) :
    get (allocMem m off cell) 0 = off + sizeofCacheNode := by
  rw [allocMem, (fill_agree _ _ _ _ (by unfold Apart; omega)).get_eq,
    get_put_apart _ _ (by unfold Apart; omega), get_put_of_lt _ _ hsmall]

theorem allocMem_cell (hoff : cell + 4 ≤ off) (hsmall : off + sizeofCacheNode < 2 ^ 32) :
    get (allocMem m off cell) cell = off := by
  rw [allocMem, (fill_agree _ _ _ _ (by unfold Apart; omega)).get_eq,
    get_put_of_lt _ _ (by omega)]

theorem allocMem_node {k : Nat} (hk : k + 4 ≤ sizeofCacheNode) :
    get (allocMem m off cell) (off + k) = 0 :=
  get_fill_zero _ (by omega) (by omega)

end AllocMem

/-- The journal after `htInsert` at `node`. -/
def insertMem (m : Mem) (node offset1 ksize offset2 dsize : Nat) : Mem :=
  put (put (put (put m node offset1) (node + 4) ksize) (node + 8) offset2) (node + 12) dsize

theorem htInsert_data {s : URDB} {p k q d : Nat} (hkey : s.key = ⟨.journal p, k⟩)
    (hdata : s.data = ⟨.journal q, d⟩) :
    htInsert s = some { s with
      journal := { s.journal with mem := insertMem s.mem s.node p k q d }
      trace := s.trace ++ [.insert s.node] } := by
  simp only [htInsert, hkey, hdata, htInsert.put4, log, setMem]
  rfl

theorem htInsert_deleted {s : URDB} {p k d : Nat} (hkey : s.key = ⟨.journal p, k⟩)
    (hdata : s.data = ⟨.null, d⟩) :
    htInsert s = some { s with
      journal := { s.journal with mem := insertMem s.mem s.node p k 0 d }
      trace := s.trace ++ [.insert s.node] } := by
  simp only [htInsert, hkey, hdata, htInsert.put4, log, setMem]
  rfl

section InsertMem

variable {p k q d : Nat}

theorem insertMem_frame {m : Mem} {node a : Nat} (ha : a < node ∨ node + 16 ≤ a) :
    insertMem m node p k q d a = m a := by
  have h : ∀ (m : Mem) b v, (b = node ∨ b = node + 4 ∨ b = node + 8 ∨ b = node + 12) →
      put m b v a = m a := by
    intro m b v hb
    exact put_agree m b v (b := a) (k := 1) (by unfold Apart; omega) a (by omega) (by omega)
  rw [insertMem, h _ _ _ (by omega), h _ _ _ (by omega), h _ _ _ (by omega), h _ _ _ (by omega)]

theorem insertMem_words (m : Mem) (node : Nat) (hp : p < 2 ^ 32) (hk : k < 2 ^ 32)
    (hq : q < 2 ^ 32) (hd : d < 2 ^ 32) :
    get (insertMem m node p k q d) node = p ∧ get (insertMem m node p k q d) (node + 4) = k ∧
      get (insertMem m node p k q d) (node + 8) = q ∧
      get (insertMem m node p k q d) (node + 12) = d := by
  unfold insertMem
  refine ⟨?_, ?_, ?_, ?_⟩
  · rw [get_put_apart _ _ (by unfold Apart; omega), get_put_apart _ _ (by unfold Apart; omega),
      get_put_apart _ _ (by unfold Apart; omega), get_put_of_lt _ _ hp]
  · rw [get_put_apart _ _ (by unfold Apart; omega), get_put_apart _ _ (by unfold Apart; omega),
      get_put_of_lt _ _ hk]
  · rw [get_put_apart _ _ (by unfold Apart; omega), get_put_of_lt _ _ hq]
  · rw [get_put_of_lt _ _ hd]

end InsertMem

/-! ### Appending to the log -/

/-- The size that `resizeJournal` asks for when `sz` bytes are needed. -/
def growth (stSize sz : Nat) : Nat := stSize + max (sz - stSize) (stSize / 2)

/-- The journal has `sz` bytes, or the system lets it grow to have them. -/
structure Granted (env : Env) (j : Journal) (sz : Nat) : Prop where
  fits : sz < 2 ^ 32
  grow : j.stSize < sz → growth j.stSize sz < 2 ^ 31 ∧ env.ftruncate = true ∧
    (j.mapSize < growth j.stSize sz → env.mremap.isSome = true)

instance (env : Env) (j : Journal) (sz : Nat) : Decidable (Granted env j sz) :=
  decidable_of_iff (sz < 2 ^ 32 ∧ (j.stSize < sz → growth j.stSize sz < 2 ^ 31 ∧
      env.ftruncate = true ∧ (j.mapSize < growth j.stSize sz → env.mremap.isSome = true)))
    ⟨fun h => ⟨h.1, h.2⟩, fun h => ⟨h.fits, h.grow⟩⟩

/-- The journal after `resizeJournal`, if it is called. -/
def grown (env : Env) (j : Journal) (sz : Nat) : Journal :=
  if j.stSize < sz then
    { map := if j.mapSize < growth j.stSize sz then env.mremap.getD j.map else j.map
      mapSize := if j.mapSize < growth j.stSize sz then growth j.stSize sz * 2 else j.mapSize
      stSize := growth j.stSize sz
      mem := fill j.mem j.stSize (growth j.stSize sz - j.stSize) 0 }
  else j

section Grown

variable {env : Env} {j : Journal} {sz : Nat}

theorem grown_frame {a : Nat} (ha : a < j.stSize) : (grown env j sz).mem a = j.mem a := by
  unfold grown
  split
  · exact fill_agree _ _ _ _ (b := a) (k := 1) (by unfold Apart; omega) a (by omega) (by omega)
  · rfl

/-- The size does not depend on what is in the journal. -/
theorem grown_stSize (m : Mem) :
    (grown env { j with mem := m } sz).stSize = (grown env j sz).stSize := by
  by_cases hgrow : j.stSize < sz
  · simp only [grown, hgrow, if_true]
  · simp only [grown, hgrow, if_false]

theorem le_grown : sz ≤ (grown env j sz).stSize := by
  unfold grown growth
  split
  · simp only
    omega
  · omega

theorem grown_small (hg : Granted env j sz) (hsmall : j.stSize < 2 ^ 32) :
    (grown env j sz).stSize < 2 ^ 32 := by
  unfold grown
  split
  · next h =>
    have := (hg.grow h).1
    simp only
    omega
  · exact hsmall

theorem ftruncate_granted (hg : Granted env j sz) (h : j.stSize < sz) :
    j.ftruncate (growth j.stSize sz) env = (true, grown env j sz) := by
  obtain ⟨hsmall, hok, hmap⟩ := hg.grow h
  have hmod : growth j.stSize sz % 2 ^ 32 = growth j.stSize sz := Nat.mod_eq_of_lt (by omega)
  have hmod2 : growth j.stSize sz * 2 % 2 ^ 32 = growth j.stSize sz * 2 :=
    Nat.mod_eq_of_lt (by omega)
  simp only [Journal.ftruncate, grown, h, if_true, hok, hmod]
  by_cases hm : j.mapSize < growth j.stSize sz
  · obtain ⟨a, ha⟩ := Option.isSome_iff_exists.mp (hmap hm)
    simp only [hm, if_true, ha, hmod2, Option.getD_some]
  · simp only [hm, if_false]

end Grown

/-- The journal after `writev` of `bytes`. -/
def logMem (m : Mem) (off : Nat) (bytes : Bytes) : Mem :=
  put (write m off bytes) 0 (off + bytes.length)

section LogMem

variable {m : Mem} {off : Nat} {bytes : Bytes}

theorem logMem_frame {a : Nat} (ha : 4 ≤ a) (hlog : a < off ∨ off + bytes.length ≤ a) :
    logMem m off bytes a = m a := by
  have h₁ := put_agree (write m off bytes) 0 (off + bytes.length)
    (b := a) (k := 1) (by unfold Apart; omega) a (by omega) (by omega)
  have h₂ := write_agree m off bytes (b := a) (k := 1) (by unfold Apart; omega) a (by omega)
    (by omega)
  rw [logMem, h₁, h₂]

theorem logMem_off (hsmall : off + bytes.length < 2 ^ 32) :
    get (logMem m off bytes) 0 = off + bytes.length :=
  get_put_of_lt _ _ hsmall

theorem logMem_read (hoff : 4 ≤ off) {i n : Nat} (h : i + n ≤ bytes.length) :
    read (logMem m off bytes) (off + i) n = (bytes.drop i).take n := by
  rw [logMem, read_put_apart _ _ (by unfold Apart; omega), read_write_sub _ _ _ _ _ h]

end LogMem

/-- The object when `writev` starts to copy. -/
def resized (s : URDB) (env : Env) (sz : Nat) : URDB :=
  { s with
    journal := grown env s.journal sz
    pnode := ((grown env s.journal sz).map, s.pnode.2) }

theorem writev_granted {s : URDB} {env : Env} {iov : List Bytes} {size : Nat}
    (hg : Granted env s.journal (s.off + size + 48)) (hfresh : s.pnode.1 = s.journal.map)
    (hoff : 4 ≤ s.journal.stSize) :
    writev s iov size env = some (true,
      let r := writevLoop iov.length 0 iov s.off (resized s env (s.off + size + 48))
      r.1.setMem (put r.1.mem 0 r.2)) := by
  have hsz : (s.off + size + sizeofCacheNode * 2) % 2 ^ 32 = s.off + size + 48 :=
    Nat.mod_eq_of_lt hg.fits
  have hsame : (resized s env (s.off + size + 48)).off = s.off :=
    Agree.get_eq fun a _ ha => grown_frame (by omega)
  by_cases hgrow : s.journal.stSize < s.off + size + 48
  · have hover : s.journal.stSize + (if s.off + size + 48 - s.journal.stSize <
        s.journal.stSize / 2 then s.journal.stSize / 2
        else s.off + size + 48 - s.journal.stSize) =
        growth s.journal.stSize (s.off + size + 48) := by
      unfold growth
      split <;> omega
    simp only [writev, hsz, gt_iff_lt, hgrow, if_true, resizeJournal, hover,
      ftruncate_granted hg hgrow]
    rw [show ({ s with
      journal := grown env s.journal (s.off + size + 48)
      pnode := ((grown env s.journal (s.off + size + 48)).map, s.pnode.2) } : URDB) =
      resized s env (s.off + size + 48) from rfl]
    simp only [Option.bind_eq_bind, Option.bind_some, if_true, hsame]
  · have hgrown : grown env s.journal (s.off + size + 48) = s.journal := if_neg hgrow
    have hres : resized s env (s.off + size + 48) = s := by
      rw [resized, hgrown, ← hfresh]
    simp only [writev, hsz, gt_iff_lt, hgrow, if_false, hres, Option.bind_eq_bind,
      Option.bind_some, if_true]

theorem length_recordHeader (klen dlen : Nat) : (recordHeader klen dlen).length = 8 := rfl

theorem pointTo_substitute (ptr : Nat) (s : URDB) :
    pointTo 5 0 ptr s = s ∧
      pointTo 5 1 ptr s = { s with key1 := { s.key1 with dptr := .journal ptr } } ∧
      pointTo 5 2 ptr s = s ∧
      pointTo 5 3 ptr s = { s with key := { s.key with dptr := .journal ptr } } ∧
      pointTo 5 4 ptr s = { s with data := { s.data with dptr := .journal ptr } } :=
  ⟨rfl, rfl, rfl, rfl, rfl⟩

theorem pointTo_store (ptr : Nat) (s : URDB) :
    pointTo 3 0 ptr s = s ∧
      pointTo 3 1 ptr s = { s with key := { s.key with dptr := .journal ptr } } ∧
      pointTo 3 2 ptr s = { s with data := { s.data with dptr := .journal ptr } } :=
  ⟨rfl, rfl, rfl⟩

theorem writevLoop_remove (s : URDB) (ptr : Nat) (h k : Bytes) :
    writevLoop 2 0 [h, k] ptr s =
      ({ s with
          journal := { s.journal with mem := write (write s.mem ptr h) (ptr + h.length) k }
          key := { s.key with dptr := .journal (ptr + h.length) } },
        ptr + h.length + k.length) := rfl

theorem writevLoop_store (s : URDB) (ptr : Nat) (h k d : Bytes) :
    writevLoop 3 0 [h, k, d] ptr s =
      ({ s with
          journal := { s.journal with
            mem := write (write (write s.mem ptr h) (ptr + h.length) k)
              (ptr + h.length + k.length) d }
          key := { s.key with dptr := .journal (ptr + h.length) }
          data := { s.data with dptr := .journal (ptr + h.length + k.length) } },
        ptr + h.length + k.length + d.length) := by
  simp only [writevLoop, Nat.zero_add, Nat.reduceAdd, pointTo_store, setMem, URDB.mem]

theorem writevLoop_substitute (s : URDB) (ptr : Nat) (h₁ k₁ h k d : Bytes) :
    writevLoop 5 0 [h₁, k₁, h, k, d] ptr s =
      ({ s with
          journal := { s.journal with
            mem := write (write (write (write (write s.mem ptr h₁) (ptr + h₁.length) k₁)
              (ptr + h₁.length + k₁.length) h) (ptr + h₁.length + k₁.length + h.length) k)
              (ptr + h₁.length + k₁.length + h.length + k.length) d }
          key1 := { s.key1 with dptr := .journal (ptr + h₁.length) }
          key := { s.key with dptr := .journal (ptr + h₁.length + k₁.length + h.length) }
          data := { s.data with
            dptr := .journal (ptr + h₁.length + k₁.length + h.length + k.length) } },
        ptr + h₁.length + k₁.length + h.length + k.length + d.length) := by
  simp only [writevLoop, Nat.zero_add, Nat.reduceAdd, pointTo_substitute, setMem, URDB.mem]

theorem logStore_eq {s : URDB} {env : Env} {kb db : Bytes} (hkey : s.key = Datum.ofBytes kb)
    (hdata : s.data = Datum.ofBytes db)
    (hg : Granted env s.journal (s.off + (8 + kb.length + db.length) + 48))
    (hfresh : s.pnode.1 = s.journal.map) (hoff : 4 ≤ s.journal.stSize) :
    logJournal s .store env = some (true, { s with
      journal := { grown env s.journal (s.off + (8 + kb.length + db.length) + 48) with
        mem := logMem (grown env s.journal (s.off + (8 + kb.length + db.length) + 48)).mem s.off
          (recordHeader kb.length db.length ++ kb ++ db) }
      pnode := ((grown env s.journal (s.off + (8 + kb.length + db.length) + 48)).map, s.pnode.2)
      key := ⟨.journal (s.off + 8), kb.length⟩
      data := ⟨.journal (s.off + (8 + kb.length)), db.length⟩ }) := by
  have hkb : s.key.bytes s.mem = kb := by simp [hkey, Datum.bytes, Datum.ofBytes]
  have hdb : s.data.bytes s.mem = db := by simp [hdata, Datum.bytes, Datum.ofBytes]
  have hks : s.key.dsize = kb.length := by rw [hkey]; rfl
  have hds : s.data.dsize = db.length := by rw [hdata]; rfl
  simp only [logJournal, hkb, hdb, hks, hds, sizeofRecordHeader]
  rw [writev_granted hg hfresh hoff]
  set j := grown env s.journal (s.off + (8 + kb.length + db.length) + 48) with hj
  have hw : write (write (write j.mem s.off (recordHeader kb.length db.length)) (s.off + 8) kb)
      (s.off + 8 + kb.length) db =
      write j.mem s.off (recordHeader kb.length db.length ++ kb ++ db) := by
    rw [← write_append, List.length_append, length_recordHeader, ← write_append,
      length_recordHeader, Nat.add_assoc s.off 8]
  have hlen : s.off + 8 + kb.length + db.length =
      s.off + (recordHeader kb.length db.length ++ kb ++ db).length := by
    simp only [List.length_append, length_recordHeader]
    omega
  simp only [List.length_cons, List.length_nil, Nat.zero_add, Nat.reduceAdd, writevLoop_store,
    resized, setMem, URDB.mem, ← hj, length_recordHeader, hw, logMem, hks, hds, hlen]
  rw [Nat.add_assoc s.off 8]

theorem logRemove_eq {s : URDB} {env : Env} {kb : Bytes} (hkey : s.key = Datum.ofBytes kb)
    (hg : Granted env s.journal (s.off + (8 + kb.length) + 48))
    (hfresh : s.pnode.1 = s.journal.map) (hoff : 4 ≤ s.journal.stSize) :
    logJournal s .remove env = some (true, { s with
      journal := { grown env s.journal (s.off + (8 + kb.length) + 48) with
        mem := logMem (grown env s.journal (s.off + (8 + kb.length) + 48)).mem s.off
          (recordHeader kb.length uNotFound ++ kb) }
      pnode := ((grown env s.journal (s.off + (8 + kb.length) + 48)).map, s.pnode.2)
      key := ⟨.journal (s.off + 8), kb.length⟩ }) := by
  have hkb : s.key.bytes s.mem = kb := by simp [hkey, Datum.bytes, Datum.ofBytes]
  have hks : s.key.dsize = kb.length := by rw [hkey]; rfl
  simp only [logJournal, hkb, hks, sizeofRecordHeader]
  rw [writev_granted hg hfresh hoff]
  set j := grown env s.journal (s.off + (8 + kb.length) + 48) with hj
  have hw : write (write j.mem s.off (recordHeader kb.length uNotFound)) (s.off + 8) kb =
      write j.mem s.off (recordHeader kb.length uNotFound ++ kb) := by
    rw [← write_append, length_recordHeader]
  have hlen : s.off + 8 + kb.length =
      s.off + (recordHeader kb.length uNotFound ++ kb).length := by
    simp only [List.length_append, length_recordHeader]
    omega
  simp only [List.length_cons, List.length_nil, Nat.zero_add, Nat.reduceAdd, writevLoop_remove,
    resized, setMem, URDB.mem, ← hj, length_recordHeader, hw, logMem, hks, hlen]

/-- The two records that `substitute` logs. -/
def substituteLog (k₁ kb db : Bytes) : Bytes :=
  recordHeader k₁.length uNotFound ++ k₁ ++ recordHeader kb.length db.length ++ kb ++ db

theorem length_substituteLog (k₁ kb db : Bytes) :
    (substituteLog k₁ kb db).length = 16 + k₁.length + kb.length + db.length := by
  simp only [substituteLog, List.length_append, length_recordHeader]
  omega

theorem logSubstitute_eq {s : URDB} {env : Env} {k₁ kb db : Bytes}
    (hkey1 : s.key1 = Datum.ofBytes k₁) (hkey : s.key = Datum.ofBytes kb)
    (hdata : s.data = Datum.ofBytes db)
    (hg : Granted env s.journal (s.off + (16 + k₁.length + kb.length + db.length) + 48))
    (hfresh : s.pnode.1 = s.journal.map) (hoff : 4 ≤ s.journal.stSize) :
    logJournal s .substitute env = some (true, { s with
      journal := { grown env s.journal
          (s.off + (16 + k₁.length + kb.length + db.length) + 48) with
        mem := logMem (grown env s.journal
          (s.off + (16 + k₁.length + kb.length + db.length) + 48)).mem s.off
          (substituteLog k₁ kb db) }
      pnode := ((grown env s.journal
        (s.off + (16 + k₁.length + kb.length + db.length) + 48)).map, s.pnode.2)
      key1 := ⟨.journal (s.off + 8), k₁.length⟩
      key := ⟨.journal (s.off + (16 + k₁.length)), kb.length⟩
      data := ⟨.journal (s.off + (16 + k₁.length + kb.length)), db.length⟩ }) := by
  have hk₁ : s.key1.bytes s.mem = k₁ := by simp [hkey1, Datum.bytes, Datum.ofBytes]
  have hkb : s.key.bytes s.mem = kb := by simp [hkey, Datum.bytes, Datum.ofBytes]
  have hdb : s.data.bytes s.mem = db := by simp [hdata, Datum.bytes, Datum.ofBytes]
  have hk₁s : s.key1.dsize = k₁.length := by rw [hkey1]; rfl
  have hks : s.key.dsize = kb.length := by rw [hkey]; rfl
  have hds : s.data.dsize = db.length := by rw [hdata]; rfl
  simp only [logJournal, hk₁, hkb, hdb, hk₁s, hks, hds, sizeofRecordHeader, Nat.reduceMul]
  rw [writev_granted hg hfresh hoff]
  set j := grown env s.journal (s.off + (16 + k₁.length + kb.length + db.length) + 48) with hj
  have hp₁ : s.off + 8 + k₁.length + 8 = s.off + 16 + k₁.length := by omega
  have hlen := length_substituteLog k₁ kb db
  have hptr : s.off + 16 + k₁.length + kb.length + db.length =
      s.off + (substituteLog k₁ kb db).length := by omega
  have hw : write (write (write (write (write j.mem s.off
      (recordHeader k₁.length uNotFound)) (s.off + 8) k₁) (s.off + 8 + k₁.length)
      (recordHeader kb.length db.length)) (s.off + 16 + k₁.length) kb)
      (s.off + 16 + k₁.length + kb.length) db = write j.mem s.off (substituteLog k₁ kb db) := by
    unfold substituteLog
    simp only [← write_append, List.length_append, length_recordHeader]
    rw [show s.off + (8 + k₁.length + 8 + kb.length) = s.off + 16 + k₁.length + kb.length by omega,
      show s.off + (8 + k₁.length + 8) = s.off + 16 + k₁.length by omega,
      show s.off + (8 + k₁.length) = s.off + 8 + k₁.length by omega]
  simp only [List.length_cons, List.length_nil, Nat.zero_add, Nat.reduceAdd,
    writevLoop_substitute, resized, setMem, URDB.mem, ← hj, length_recordHeader, hp₁, hw, logMem,
    hk₁s, hks, hds, hptr]
  rw [Nat.add_assoc s.off 16, Nat.add_assoc s.off (16 + k₁.length)]

end ULib.JournalLog
