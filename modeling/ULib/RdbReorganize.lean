import Mathlib.Data.List.Find
import ULib.CdbLeftover
import ULib.CdbRoundTrip
import ULib.Overlay
import ULib.RdbFallback
import ULib.RdbSize

/-!
`reorganize` as a merge of two lists: the entries of the journal, and the
records of the constant database that none of them hides. The new constant
database is the image of the merged list, whatever was left in the temporary
file, and stands for the same map as before.
-/

namespace ULib.RdbReorganize

open ByteMemory
open KeyComparison
open ConstantDatabase
open CdbImage
open CdbLookup
open CdbScan
open CdbRoundTrip
open CdbLeftover
open ReliableDatabase
open ReliableDatabase.URDB
open HeapTree
open JournalTree
open JournalForest
open JournalLog
open JournalEntry
open JournalVisit
open RdbCalls
open RdbUpdates
open RdbRefinement
open RdbSize
open RdbFallback
open Runs
open Overlay

/-! ### The merged records -/

/-- The entries of a journal over the records of a constant database. -/
def layer (ignoreCase : Bool) : Layer (Nat × Entry) Record Bytes where
  keyOf e := canon ignoreCase e.2.key
  entry e := e.2.data.map fun d => ⟨e.2.key, d⟩
  key r := canon ignoreCase r.key
  keeps := by
    rintro e r hr
    obtain ⟨d, -, rfl⟩ := Option.map_eq_some_iff.mp hr
    rfl

/-- The records of a constant database, in the order of the scan. -/
def contents (c : UCDB) : List Record :=
  (callForAllEntryExt c).map fun e => recordAt c.file e.2

/-- The records that `reorganize` adds to the new constant database. -/
def combined (c : UCDB) (F : Forest) : List Record :=
  merge (layer c.ignoreCase) (forestEntries F) (contents c)

variable {ignoreCase : Bool} {rs : List Record} {m : Mem} {H : Heap Entry} {F : Forest}

theorem mem_forestEntries_iff {e : Nat × Entry} :
    e ∈ forestEntries F ↔ ∃ i < cacheHashtabLen, e ∈ (F i).entries := by
  simp [forestEntries]

theorem nodup_forestKeys (h : JournalAt ignoreCase m H F) :
    ((forestEntries F).map (layer ignoreCase).keyOf).Nodup := by
  have hentries : (forestEntries F).Nodup := by
    rw [forestEntries, List.nodup_flatMap]
    refine ⟨fun i hi => (h.nodup i (List.mem_range.mp hi)).of_map _, ?_⟩
    refine List.nodup_range.pairwise_of_forall_ne ?_
    intro i hi j hj hne e hei hej
    have hslot := (h.good i (List.mem_range.mp hi) e hei).slot
    exact hne (hslot.symm.trans (h.good j (List.mem_range.mp hj) e hej).slot)
  refine hentries.map_on ?_
  intro e he e' he' hkey
  obtain ⟨i, hi, hei⟩ := mem_forestEntries_iff.mp he
  obtain ⟨j, hj, hej⟩ := mem_forestEntries_iff.mp he'
  have hlook := (h.own i hi e hei).symm.trans (lookup_congr hkey F)
  exact Option.some.inj (hlook.trans (h.own j hj e' hej))

/-- The lookup of a key as a search in the list of all entries. -/
theorem find?_forestEntries (h : JournalAt ignoreCase m H F) (key : Bytes) :
    ((forestEntries F).find? fun e =>
      decide ((layer ignoreCase).keyOf e = canon ignoreCase key)) = lookup ignoreCase F key := by
  cases hx : lookup ignoreCase F key with
  | none =>
      rw [List.find?_eq_none]
      rintro e he heq
      obtain ⟨i, hi, hei⟩ := mem_forestEntries_iff.mp he
      have hkey : canon ignoreCase e.2.key = canon ignoreCase key := of_decide_eq_true heq
      have hown := h.own i hi e hei
      rw [lookup_congr hkey, hx] at hown
      cases hown
  | some x =>
      have hmem : x ∈ forestEntries F :=
        mem_forestEntries_iff.mpr ⟨_, slotOf_lt ignoreCase key, (Tree.find_mem hx).1⟩
      exact (find?_key_iff (nodup_forestKeys h)).mpr ⟨hmem, (canon_of_lookup h.good hx).symm⟩

theorem lookup_isSome_iff (h : JournalAt ignoreCase m H F) (key : Bytes) :
    (lookup ignoreCase F key).isSome = true ↔
      canon ignoreCase key ∈ (forestEntries F).map (layer ignoreCase).keyOf := by
  rw [← find?_forestEntries h key]
  simp

theorem shown_eq_filter (h : JournalAt ignoreCase m H F) (rs : List Record) :
    shown (layer ignoreCase) (forestEntries F) rs =
      rs.filter fun r => (lookup ignoreCase F r.key).isNone := by
  refine shown_eq fun r _ => ?_
  have hiff := lookup_isSome_iff h r.key
  rw [Option.isNone_iff_eq_none, ← Option.not_isSome_iff_eq_none]
  exact not_congr hiff

theorem head_dataOf (hrs : ∀ r ∈ rs, Comparable ignoreCase r.key) (key : Bytes) :
    (dataOf ignoreCase rs key).head? = (rs.find? fun r =>
      decide ((layer ignoreCase).key r = canon ignoreCase key)).map Record.data := by
  rw [dataOf, List.head?_map, List.head?_filter]
  congr 1
  apply List.find?_congr
  intro r hr
  rw [Bool.eq_iff_iff, sameKey_iff_right key (hrs r hr), decide_eq_true_eq]
  exact eq_comm

section View

variable {c : UCDB}

/-- The map of a database as a search in two lists. -/
theorem view_eq_seen (h : JournalAt ignoreCase m H F)
    (hrs : ∀ r ∈ rs, Comparable ignoreCase r.key) (key : Bytes) :
    view ignoreCase rs F key =
      (seen (layer ignoreCase) (forestEntries F) rs (canon ignoreCase key)).map Record.data := by
  rw [seen, find?_forestEntries h, view]
  cases lookup ignoreCase F key with
  | none => exact head_dataOf hrs key
  | some x =>
      show x.2.data = (x.2.data.map fun d => (⟨x.2.key, d⟩ : Record)).map Record.data
      rw [Option.map_map]
      cases x.2.data <;> rfl

theorem comparable_combined (h : JournalAt c.ignoreCase m H F)
    (hcontents : ∀ r ∈ contents c, Comparable c.ignoreCase r.key) :
    ∀ r ∈ combined c F, Comparable c.ignoreCase r.key := by
  intro r hr
  rcases List.mem_append.mp hr with hr | hr
  · obtain ⟨e, he, her⟩ := List.mem_filterMap.mp hr
    obtain ⟨i, hi, hei⟩ := mem_forestEntries_iff.mp he
    obtain ⟨d, -, rfl⟩ := Option.map_eq_some_iff.mp her
    exact (h.good i hi e hei).comparable
  · exact hcontents r (List.mem_filter.mp hr).1

/-- The merged list stands for the same map as journal and constant database. -/
theorem view_combined (h : JournalAt c.ignoreCase m H F) (hperm : (contents c).Perm rs)
    (hrs : ∀ r ∈ rs, Comparable c.ignoreCase r.key) (hshown : ((shown (layer c.ignoreCase)
      (forestEntries F) rs).map (layer c.ignoreCase).key).Nodup) (key : Bytes) :
    view c.ignoreCase (combined c F) (fun _ => .leaf) key = view c.ignoreCase rs F key := by
  have hcontents : ∀ r ∈ contents c, Comparable c.ignoreCase r.key := fun r hr =>
    hrs r (hperm.mem_iff.mp hr)
  have hleaf : view c.ignoreCase (combined c F) (fun _ => .leaf) key =
      (dataOf c.ignoreCase (combined c F) key).head? := rfl
  rw [hleaf, head_dataOf (comparable_combined h hcontents), combined,
    find?_merge (nodup_forestKeys h), view_eq_seen h hrs, seen_perm hperm hshown]

/-- The merged list has a key twice exactly if the records that are not hidden
have one twice. -/
theorem nodup_combined_iff (h : JournalAt c.ignoreCase m H F) (hperm : (contents c).Perm rs) :
    ((combined c F).map (layer c.ignoreCase).key).Nodup ↔ ((shown (layer c.ignoreCase)
      (forestEntries F) rs).map (layer c.ignoreCase).key).Nodup :=
  (nodup_merge_iff (nodup_forestKeys h)).trans ((shown_perm hperm).map _).nodup_iff

theorem distinct_combined (h : JournalAt c.ignoreCase m H F) (hperm : (contents c).Perm rs)
    (hrs : ∀ r ∈ rs, Comparable c.ignoreCase r.key) (hshown : ((shown (layer c.ignoreCase)
      (forestEntries F) rs).map (layer c.ignoreCase).key).Nodup) :
    DistinctKeys c.ignoreCase (combined c F) :=
  ⟨comparable_combined h fun r hr => hrs r (hperm.mem_iff.mp hr),
    (nodup_combined_iff h hperm).mpr hshown⟩

/-- The merged list has one record for every key of the map. -/
theorem live_combined (hkeys : DistinctKeys ignoreCase rs) :
    ∃ K, Live ignoreCase (view ignoreCase rs fun _ => .leaf) K ∧ rs.length = K.card := by
  refine ⟨(rs.map fun r => canon ignoreCase r.key).toFinset, fun b => ?_, ?_⟩
  · rw [List.mem_toFinset]
    constructor
    · intro hb
      obtain ⟨r, hr, rfl⟩ := List.mem_map.mp hb
      exact ⟨r.key, rfl, (head_dataOf_isSome hkeys.1 r.key).mpr hb⟩
    · rintro ⟨key, rfl, hsome⟩
      exact (head_dataOf_isSome hkeys.1 key).mp hsome
  · rw [List.toFinset_card_of_nodup hkeys.2, List.length_map]

/-- A record of a list without a key twice is what a search for its key finds. -/
theorem view_of_mem (hkeys : DistinctKeys ignoreCase rs) {r : Record} (hr : r ∈ rs) :
    view ignoreCase rs (fun _ => .leaf) r.key = some r.data := by
  have hleaf : view ignoreCase rs (fun _ => .leaf) r.key = (dataOf ignoreCase rs r.key).head? := rfl
  have hfind : (rs.find? fun r' => decide ((layer ignoreCase).key r' = canon ignoreCase r.key)) =
      some r := (find?_key_iff hkeys.2).mpr ⟨hr, rfl⟩
  rw [hleaf, head_dataOf hkeys.1, hfind]
  rfl

/-! ### The size of the merged list -/

theorem totalSize_append (rs rs' : List Record) :
    totalSize (rs ++ rs') = totalSize rs + totalSize rs' := by
  simp [totalSize]

theorem totalSize_filterMap (ignoreCase : Bool) (es : List (Nat × Entry)) :
    totalSize (es.filterMap (layer ignoreCase).entry) +
      8 * (es.filterMap (layer ignoreCase).entry).length ≤ (es.map fun e => cost e.2).sum := by
  have h8 : sizeofRecordHeader = 8 := rfl
  induction es with
  | nil => exact le_refl _
  | cons e es ih =>
      rw [List.map_cons, List.sum_cons]
      cases hd : e.2.data with
      | none =>
          rw [List.filterMap_cons_none (show (layer ignoreCase).entry e = none by simp [layer, hd])]
          omega
      | some d =>
          rw [List.filterMap_cons_some
            (show (layer ignoreCase).entry e = some ⟨e.2.key, d⟩ by simp [layer, hd]),
            totalSize_cons, List.length_cons, recordSize, cost, hd]
          simp only [Option.elim]
          omega

theorem sum_cost_forestEntries (F : Forest) :
    ((forestEntries F).map fun e => cost e.2).sum = charge F := by
  have hsum : ∀ n, (((List.range n).flatMap fun i => (F i).entries).map fun e => cost e.2).sum =
      ∑ i ∈ Finset.range n, treeCost (F i) := by
    intro n
    induction n with
    | zero => rfl
    | succ n ih =>
        rw [List.range_succ, List.flatMap_append, List.map_append, List.sum_append, ih,
          Finset.sum_range_succ, List.flatMap_singleton]
        rfl
  exact hsum cacheHashtabLen

theorem totalSize_sublist {rs rs' : List Record} (h : rs.Sublist rs') :
    totalSize rs + 8 * rs.length ≤ totalSize rs' + 8 * rs'.length := by
  induction h with
  | slnil => exact le_refl _
  | cons r _ ih =>
      rw [totalSize_cons, List.length_cons]
      omega
  | cons_cons r _ ih =>
      rw [totalSize_cons, totalSize_cons, List.length_cons, List.length_cons]
      omega

theorem totalSize_perm {rs rs' : List Record} (h : rs.Perm rs') : totalSize rs = totalSize rs' :=
  (h.map _).sum_eq

/-- What is added is less than journal and constant database take. -/
theorem totalSize_combined (hperm : (contents c).Perm rs) :
    totalSize (combined c F) + 8 * (combined c F).length ≤
      charge F + totalSize rs + 8 * rs.length := by
  have hlive := totalSize_filterMap c.ignoreCase (forestEntries F)
  rw [sum_cost_forestEntries] at hlive
  obtain ⟨p, hp⟩ : ∃ p, combined c F =
      (forestEntries F).filterMap (layer c.ignoreCase).entry ++ (contents c).filter p := ⟨_, rfl⟩
  have hkept := totalSize_sublist (List.filter_sublist (p := p) (l := contents c))
  rw [totalSize_perm hperm, hperm.length_eq] at hkept
  rw [hp, totalSize_append, List.length_append]
  omega

end View

/-! ### Adding the records -/

theorem word_get (m : Mem) (a : Nat) : word (ByteMemory.get m a) = read m a 4 := by
  have h₀ := (m a).toNat_lt
  have h₁ := (m (a + 1)).toNat_lt
  have h₂ := (m (a + 2)).toNat_lt
  have h₃ := (m (a + 3)).toNat_lt
  have hread : read m a 4 = [m a, m (a + 1), m (a + 2), m (a + 3)] := rfl
  simp only [hread, word, List.cons.injEq, and_true]
  refine ⟨?_, ?_, ?_, ?_⟩ <;>
  · apply UInt8.toNat_inj.mp
    rw [UInt8.toNat_ofNat', ByteMemory.get]
    omega

/-- A record that is copied is a record that is added. -/
theorem makeAddFrom_eq (c : UCDB) {m : Mem} {p : Nat} {r : Record} (h : HoldsRecord m p r)
    (hsize : recordSize r < 2 ^ 32) : makeAddFrom c m p = makeAdd c r := by
  obtain ⟨hk, hd, hkey, hdata⟩ := h
  have h8 : sizeofRecordHeader = 8 := rfl
  have hrec : recordSize r = 8 + r.key.length + r.data.length := rfl
  rw [h8] at hkey hdata
  have hsz : (8 + r.key.length + r.data.length) % 2 ^ 32 = 8 + r.key.length + r.data.length :=
    Nat.mod_eq_of_lt (by omega)
  have hread : read m p (8 + r.key.length + r.data.length) =
      word r.key.length ++ word r.data.length ++ r.key ++ r.data := by
    rw [← hk, ← hd, word_get, word_get, hk, hd, ← read_append, read_append m p, read_append m p,
      hkey, show p + (8 + r.key.length) = p + 8 + r.key.length by omega, hdata]
  have hfile : write c.file c.hr (word r.key.length ++ word r.data.length ++ r.key ++ r.data) =
      write (write (put (put c.file c.hr r.key.length) (c.hr + 4) r.data.length) (c.hr + 8) r.key)
        (c.hr + 8 + r.key.length) r.data := by
    rw [← write_append, ← write_append, ← write_append]
    simp only [List.length_append, length_word]
    rw [show c.hr + (4 + 4 + r.key.length) = c.hr + 8 + r.key.length by omega]
    rfl
  simp only [makeAddFrom, ConstantDatabase.makeAdd, h8, hk, hd, hsz, hread, hfile]
  rw [show c.hr + (8 + r.key.length + r.data.length) =
    c.hr + 8 + r.key.length + r.data.length by omega]

section Scan

variable {s : URDB} {rs : List Record} {H : Heap Entry} {F : Forest}

theorem holds_scanned {c : UCDB} (himage : IsImage c.ignoreCase c.file c.stSize rs)
    (hscan : ScanAt c rs) {e : Nat × Nat} (he : e ∈ callForAllEntryExt c) :
    HoldsRecord c.file e.2 (recordAt c.file e.2) ∧
      recordSize (recordAt c.file e.2) < 2 ^ 32 := by
  rcases hscan with hstart | ⟨-, hnil⟩
  · obtain ⟨x, hx, rfl⟩ := List.mem_map.mp
      ((callForAllEntryExt_perm himage hstart).mem_iff.mpr he)
    have hholds := himage.stored.holds hx
    have hbounds := placed_bounds hx
    have hsize := himage.size_eq
    have hfits := himage.fits
    rw [hholds.recordAt_eq]
    exact ⟨hholds, by omega⟩
  · rw [hnil] at he
    cases he

theorem contents_nil {c : UCDB} (h : c.stSize = 0) : callForAllEntryExt c = [] := by
  have hcount : (c.stSize - c.startHashTableSlot + 7) / sizeofHashTableSlot = 0 := by
    simp only [sizeofHashTableSlot]
    omega
  rw [callForAllEntryExt, hcount]
  rfl

theorem contents_perm (hcdb : CdbAt s.cdb rs) (hscan : ScanAt s.cdb rs) :
    (contents s.cdb).Perm rs := by
  rcases hcdb with ⟨hzero, rfl⟩ | ⟨-, -, himage⟩
  · rw [contents, contents_nil hzero]
    exact List.Perm.refl _
  · exact scanned_perm himage hscan

/-- The object during the scan. -/
structure Scanning (s t : URDB) : Prop where
  cdb : t.cdb = s.cdb
  journal : t.journal = s.journal
  locked : t.locked = s.locked
  trace : t.trace = s.trace

/-- The loop over the constant database adds what the journal does not hide. -/
theorem foldlM_makeAdd2 (hs : Good s rs H F) (hscan : ScanAt s.cdb rs) {l : List (Nat × Nat)}
    (hl : ∀ e ∈ l, e ∈ callForAllEntryExt s.cdb) {t : URDB} (ht : Scanning s t) (c : UCDB) :
    ∃ t', l.foldlM makeAdd2 (t, c) = some (t', ((l.map fun e => recordAt s.cdb.file e.2).filter
        fun r => (lookup s.ignoreCase F r.key).isNone).foldl ConstantDatabase.makeAdd c) ∧
      Scanning s t' := by
  induction l generalizing t c with
  | nil => exact ⟨t, rfl, ht⟩
  | cons e l ih =>
      have he := hl e List.mem_cons_self
      have hroom := hs.room
      have hcdb : IsImage s.cdb.ignoreCase s.cdb.file s.cdb.stSize rs := by
        rcases hs.cdb with ⟨hzero, -⟩ | ⟨-, -, himage⟩
        · rw [contents_nil hzero] at he
          cases he
        · exact himage
      obtain ⟨hholds, hsize⟩ := holds_scanned hcdb hscan he
      have hhash := mem_callForAllEntryExt hcdb hscan he
      set r := recordAt s.cdb.file e.2 with hr
      set t₀ : URDB := { t with khash := e.1, key := Datum.ofBytes r.key } with ht₀
      have hgood : Good t₀ rs H F := hs.congr ht.journal ht.cdb
      have hic : t₀.ignoreCase = s.ignoreCase := by rw [URDB.ignoreCase, ht₀, ht.cdb]; rfl
      have hbytes : t₀.key.bytes t₀.mem = r.key := bytes_ofBytes _ _
      have hsmall : t₀.off ≤ t₀.journal.stSize := by
        have := hgood.room
        omega
      have hlook := htLookup_eq hgood.journal hsmall (by rw [hbytes, hic]; exact hhash)
      rw [hbytes, hic] at hlook
      obtain ⟨t', hfold, hscan'⟩ := ih (fun e' he' => hl e' (List.mem_cons_of_mem _ he'))
        (t := { t₀ with
          pnode := (t₀.journal.map, stopAddr s.ignoreCase F r.key)
          node := (lookup s.ignoreCase F r.key).elim 0 Prod.fst })
        ⟨ht.cdb, ht.journal, ht.locked, ht.trace⟩
        (if (lookup s.ignoreCase F r.key).isSome then c else ConstantDatabase.makeAdd c r)
      refine ⟨t', ?_, hscan'⟩
      have hstep : makeAdd2 (t, c) e = some ({ t₀ with
          pnode := (t₀.journal.map, stopAddr s.ignoreCase F r.key)
          node := (lookup s.ignoreCase F r.key).elim 0 Prod.fst },
          if (lookup s.ignoreCase F r.key).isSome then c else ConstantDatabase.makeAdd c r) := by
        have hkey : (recordAt t.cdb.file e.2).key = r.key := by rw [hr, ht.cdb]
        have hfile : t₀.cdb.file = s.cdb.file := by rw [show t₀.cdb = s.cdb from ht.cdb]
        show ((htLookup { t with
            khash := e.1
            key := Datum.ofBytes (recordAt t.cdb.file e.2).key }).bind fun x =>
          some (x.2, if x.1 = true then c else makeAddFrom c x.2.cdb.file e.2)) = _
        rw [hkey, ← ht₀, hlook, Option.bind_some]
        simp only [hfile, makeAddFrom_eq c hholds hsize]
      rw [List.foldlM_cons, hstep, Option.bind_eq_bind, Option.bind_some, hfold, List.map_cons,
        List.filter_cons, ← hr]
      cases lookup s.ignoreCase F r.key <;> rfl

theorem foldl_addEntry (ignoreCase : Bool) (es : List (Nat × Entry)) (c : UCDB) :
    es.foldl (addEntry fun key data c => ConstantDatabase.makeAdd c ⟨key, data⟩) c =
      (es.filterMap (layer ignoreCase).entry).foldl ConstantDatabase.makeAdd c := by
  rw [List.foldl_filterMap]
  congr 1
  funext c e
  have hentry : (layer ignoreCase).entry e = e.2.data.map fun d => ⟨e.2.key, d⟩ := rfl
  rw [addEntry, hentry]
  cases e.2.data <;> rfl

/-- `makeAdd` adds the merged records. -/
theorem makeAdd_combined (hs : Good s rs H F) (hscan : ScanAt s.cdb rs) (c : UCDB) :
    ∃ t, ReliableDatabase.makeAdd s c =
      some (t, (combined s.cdb F).foldl ConstantDatabase.makeAdd c) ∧ Scanning s t := by
  have hroom := hs.room
  have hvisit := visitHashtab_eq (fun key data c => ConstantDatabase.makeAdd c ⟨key, data⟩)
    hs.journal (show get s.mem 0 ≤ s.journal.stSize by unfold URDB.off at hroom; omega) c
  rw [foldl_addEntry s.cdb.ignoreCase] at hvisit
  have hmerge : combined s.cdb F = (forestEntries F).filterMap (layer s.cdb.ignoreCase).entry ++
      (contents s.cdb).filter fun r => (lookup s.ignoreCase F r.key).isNone := by
    have hjournal : JournalAt s.cdb.ignoreCase s.mem H F := hs.journal
    rw [combined, merge, shown_eq_filter hjournal]
    rfl
  rw [hmerge, List.foldl_append]
  simp only [ReliableDatabase.makeAdd, hvisit, Option.bind_eq_bind, Option.bind_some]
  split
  · obtain ⟨t, hfold, ht⟩ := foldlM_makeAdd2 hs hscan (fun e he => he)
      (t := s.setMem s.mem) ⟨rfl, rfl, rfl, rfl⟩
      (((forestEntries F).filterMap (layer s.cdb.ignoreCase).entry).foldl
        ConstantDatabase.makeAdd c)
    exact ⟨t, hfold, ht⟩
  · next hzero =>
    refine ⟨s.setMem s.mem, ?_, ⟨rfl, rfl, rfl, rfl⟩⟩
    have hnil : contents s.cdb = [] := by
      rw [contents, contents_nil (show s.cdb.stSize = 0 from not_not.mp hzero), List.map_nil]
    rw [hnil, List.filter_nil, List.foldl_nil]

/-! ### The new database -/

/-- The object after `reorganize` has built a constant database of `rs`. -/
structure Rebuilt (s : URDB) (env : Env) (rs : List Record) (s' : URDB) : Prop where
  ignoreCase : s'.cdb.ignoreCase = s.cdb.ignoreCase
  mapped : s'.cdb.mapped = true
  image : IsImage s'.cdb.ignoreCase s'.cdb.file s'.cdb.stSize rs
  start : s'.cdb.startHashTableSlot = dataStart + totalSize rs
  count : s'.cdb.nrecord = rs.length
  fits : s'.cdb.stSize ≤ (temporaryFile s env).stSize
  frame : ∀ a, s'.cdb.stSize ≤ a → s'.cdb.file a = (temporaryFile s env).file a
  off : s'.off = sizeofCacheStruct
  slots : ∀ i < cacheHashtabLen, get s'.mem (hashtab i) = 0
  nrecord : s'.nrecord = 0
  stSize : s'.journal.stSize = s.journal.stSize
  locked : s'.locked = s.locked

theorem sizeFor_4096 : sizeFor 4096 = 69632 := rfl

/-- There is room for the merged records in the temporary file. -/
theorem combined_fits (hs : Good s rs H F) (hscan : ScanAt s.cdb rs) :
    dataStart + totalSize (combined s.cdb F) + 8 * (combined s.cdb F).length ≤
      s.cdb.stSize + s.journal.stSize + sizeFor 4096 := by
  have h4096 : dataStart = 4096 := rfl
  have hsizeFor := sizeFor_4096
  have htotal := totalSize_combined (F := F) (contents_perm hs.cdb hscan)
  have hcharged := hs.charged
  have hroom := hs.room
  rcases hs.cdb with ⟨-, rfl⟩ | ⟨-, -, himage⟩
  · have hnil : totalSize [] = 0 := rfl
    rw [hnil, List.length_nil] at htotal
    omega
  · have hsize := himage.size_eq
    omega

/-- The new constant database before its tables are built. -/
theorem makeAdd_adding (hs : Good s rs H F) (hscan : ScanAt s.cdb rs) (env : Env)
    (hfits : s.cdb.stSize + s.journal.stSize + sizeFor 4096 < 2 ^ 32) :
    ∃ t c, ReliableDatabase.makeAdd s.lock (makeStart (temporaryFile s.lock env)) = some (t, c) ∧
      Scanning s.lock t ∧ Adding c (combined s.cdb F) ∧ c.ignoreCase = s.cdb.ignoreCase ∧
      ∀ a, a < dataStart ∨ dataStart + totalSize (combined s.cdb F) ≤ a →
        c.file a = (temporaryFile s env).file a := by
  have hneeded := combined_fits hs hscan
  have hgood : Good s.lock rs H F := hs.congr rfl rfl
  obtain ⟨t, hadd, ht⟩ := makeAdd_combined hgood hscan (makeStart (temporaryFile s.lock env))
  have hsame : combined s.lock.cdb F = combined s.cdb F := rfl
  rw [hsame] at hadd
  refine ⟨t, _, hadd, ht, ?_, ?_, ?_⟩
  · simpa using (makeStart_adding (temporaryFile s.lock env)).foldl (combined s.cdb F) (by omega)
  · exact (foldl_makeAdd_fixed _ (makeStart (temporaryFile s.lock env))).1
  · exact foldl_makeAdd_frame _ (makeStart (temporaryFile s.lock env))

/-- What `reorganize` builds when it returns true. -/
theorem reorganize_rebuilt (hs : Good s rs H F) (hscan : ScanAt s.cdb rs)
    (hoff : sizeofCacheStruct < s.off) {env : Env}
    (hfits : s.cdb.stSize + s.journal.stSize + sizeFor 4096 < 2 ^ 32)
    (hheader : combined s.cdb F = [] →
      ∀ i < numHashTablePointer, get (temporaryFile s env).file (i * 8 + 4) = 0) {s' : URDB}
    (h : reorganize s env = some (true, s')) : Rebuilt s env (combined s.cdb F) s' := by
  have h4096 : dataStart = 4096 := rfl
  have h512 : numHashTablePointer = 512 := rfl
  have hneeded := combined_fits hs hscan
  have htmp : (temporaryFile s env).stSize = s.cdb.stSize + s.journal.stSize + sizeFor 4096 :=
    Nat.mod_eq_of_lt hfits
  obtain ⟨t, c, hadd, ht, hadding, hic, hkept⟩ := makeAdd_adding hs hscan env hfits
  set rs' := combined s.cdb F with hrs'
  have hhead : rs' = [] → ∀ i < numHashTablePointer, get c.file (i * 8 + 4) = 0 := by
    intro hnil i hi
    rw [← hheader hnil i hi]
    exact Agree.get_eq fun a _ _ => hkept a (.inl (by omega))
  have hoff' : s.lock.off > sizeofCacheStruct := hoff
  simp only [reorganize, if_pos hoff'] at h
  split at h
  · split at h
    · exact absurd (Prod.mk.inj (Option.some.inj h)).1 (by decide)
    · obtain ⟨⟨t₁, c₁⟩, hadd₁, h⟩ := Option.bind_eq_some_iff.mp h
      obtain ⟨rfl, rfl⟩ := Prod.mk.inj (Option.some.inj (hadd.symm.trans hadd₁))
      obtain ⟨⟨pos, c'⟩, hfinish, h⟩ := Option.bind_eq_some_iff.mp h
      obtain ⟨hpos, hc', himage, hframe⟩ := makeFinish_some hadding (by omega) hhead hfinish
      split at h
      · exact absurd (Prod.mk.inj (Option.some.inj h)).1 (by decide)
      · split at h
        · exact absurd (Prod.mk.inj (Option.some.inj h)).1 (by decide)
        · obtain rfl := (Prod.mk.inj (Option.some.inj h)).2
          obtain ⟨hroff, hrnrecord, hrslots⟩ := reset_header t
          have hcic : t.cdb.ignoreCase = s.cdb.ignoreCase := by rw [ht.cdb]; rfl
          have hcount : c'.nrecord = rs'.length := by rw [hc']; exact hadding.nrecord
          have hslot : c'.startHashTableSlot = dataStart + totalSize rs' := by rw [hc']
          have himage' : IsImage t.cdb.ignoreCase c'.file pos rs' := by
            rw [hcic]
            rwa [hic] at himage
          refine ⟨hcic, rfl, himage', hslot, hcount, ?_, ?_, hroff, hrslots, hrnrecord, ?_, ?_⟩
          · show pos ≤ (temporaryFile s env).stSize
            omega
          · intro a ha
            have ha' : pos ≤ a := ha
            exact (hframe a ha').trans (hkept a (.inr (by omega)))
          · show t.journal.stSize = s.journal.stSize
            rw [ht.journal]
            rfl
          · show t.locked - 1 = s.locked
            rw [ht.locked]
            exact Int.add_sub_cancel _ _
  · exact absurd (Prod.mk.inj (Option.some.inj h)).1 (by decide)

theorem get_temporaryFile (s : URDB) {env : Env} (h : env.leftoverSize = 0) (a : Nat) :
    get (temporaryFile s env).file a = 0 := by
  have hzero : (temporaryFile s env).file = fun _ => 0 := by
    funext x
    exact if_neg fun hlt => absurd hlt.1 (by omega)
  rw [hzero]
  rfl

/-- With everything granted and no temporary file left over, `reorganize`
returns true. -/
theorem reorganize_succeeds (hs : Good s rs H F) (hscan : ScanAt s.cdb rs) {env : Env}
    (hfits : s.cdb.stSize + s.journal.stSize + sizeFor 4096 < 2 ^ 32)
    (hcombines : Combines s env) (hleftover : env.leftoverSize = 0) :
    ∃ s', reorganize s env = some (true, s') := by
  have h4096 : dataStart = 4096 := rfl
  have h512 : numHashTablePointer = 512 := rfl
  have hneeded := combined_fits hs hscan
  obtain ⟨hoff, hcreat, hextend, hmap, hshrink, hrename⟩ := hcombines
  obtain ⟨t, c, hadd, -, hadding, -, hkept⟩ := makeAdd_adding hs hscan env hfits
  have hword : ∀ a, a + 4 ≤ dataStart ∨ dataStart + totalSize (combined s.cdb F) ≤ a →
      get c.file a = 0 := by
    intro a ha
    rw [← get_temporaryFile s hleftover a]
    exact Agree.get_eq fun x _ _ => hkept x (by omega)
  have hready : ReadyToFinish false c (combined s.cdb F) :=
    ⟨by omega, .inr fun k _ => hword _ (.inr (by rw [hadding.hr]; omega)),
      fun _ i hi => hword _ (.inl (by omega))⟩
  obtain ⟨m, hfinish, -⟩ := makeFinish_isImage hadding hready
  have hoff' : s.lock.off > sizeofCacheStruct := hoff
  simp only [reorganize, if_pos hoff', hcreat, hextend, hmap, hshrink, hrename, hadd, hfinish,
    Bool.and_self, Bool.true_eq_false, if_true, if_false, Option.bind_eq_bind, Option.bind_some]
  exact ⟨_, rfl⟩

theorem Rebuilt.scan {env : Env} {s' : URDB} (h : Rebuilt s env rs s') : ScanAt s'.cdb rs :=
  .inl h.start

theorem Rebuilt.good {env : Env} {s' : URDB} {rs' : List Record} (hs : Good s rs H F)
    (h : Rebuilt s env rs' s') : Good s' rs' (fun _ => none) (fun _ => .leaf) := by
  have h4096 : dataStart = 4096 := rfl
  have hoff := h.off
  have hsize := h.image.size_eq
  have hlow : sizeofCacheStruct ≤ s.off := hs.journal.low
  have hroom := hs.room
  have hcharge : charge (fun _ => .leaf) = 0 := Finset.sum_eq_zero fun i _ => rfl
  refine ⟨journalAt_empty _ (le_of_eq hoff.symm) h.slots, ?_, ?_, ?_, ?_⟩
  · rw [hoff, h.stSize]
    omega
  · rw [h.stSize]
    exact hs.small
  · exact .inr ⟨by omega, h.mapped, h.image⟩
  · rw [hoff, hcharge, Nat.zero_add]

/-- The records of the constant database that no entry of the journal hides. -/
def visible (s : URDB) (rs : List Record) : List Record := rs.filter fun r => !(probe s r.key).1

theorem visible_eq (hs : Good s rs H F) (rs' : List Record) :
    visible s rs' = shown (layer s.ignoreCase) (forestEntries F) rs' := by
  rw [shown_eq_filter hs.journal, visible]
  apply List.filter_congr
  intro r _
  rw [probe_eq hs, Option.not_isSome]

/-- The new constant database alone stands for the map that journal and
constant database stood for: `find` gives what `fetch` gave, every record is
the one of a live key, no key is there twice, all live keys are counted, and
nothing was written behind the end of the temporary file. -/
structure KeepsMap (s : URDB) (env : Env) (s' : URDB) : Prop where
  off : s'.off = sizeofCacheStruct
  slots : ∀ i < cacheHashtabLen, get s'.mem (hashtab i) = 0
  found : ∀ cur key, some (result (findKey s'.cdb cur key)) = fetchValue s key
  fetched : ∀ key, fetchValue s' key = fetchValue s key
  live : ∀ r ∈ contents s'.cdb, fetchValue s r.key = some (some r.data)
  once : ((contents s'.cdb).map fun r => canon s.ignoreCase r.key).Nodup
  counted : ∃ K : Finset Bytes, (∀ b, b ∈ K ↔ ∃ key, canon s.ignoreCase key = b ∧
    ∃ d, fetchValue s key = some (some d)) ∧ s'.cdb.nrecord = K.card
  fits : s'.cdb.stSize ≤ (temporaryFile s env).stSize
  written : ∀ a, (temporaryFile s env).stSize ≤ a → s'.cdb.file a = (temporaryFile s env).file a

theorem Rebuilt.keepsMap {env : Env} {s' : URDB} (hs : Good s rs H F) (hscan : ScanAt s.cdb rs)
    (hrs : ∀ r ∈ rs, Comparable s.ignoreCase r.key)
    (hkeys : ((visible s rs).map fun r => canon s.ignoreCase r.key).Nodup)
    (h : Rebuilt s env (combined s.cdb F) s') : KeepsMap s env s' := by
  have hgood := h.good hs
  have hperm := contents_perm hs.cdb hscan
  rw [visible_eq hs] at hkeys
  have hview : ∀ key, view s.ignoreCase (combined s.cdb F) (fun _ => .leaf) key =
      view s.ignoreCase rs F key := fun key => view_combined hs.journal hperm hrs hkeys key
  have hdistinct : DistinctKeys s.ignoreCase (combined s.cdb F) :=
    distinct_combined hs.journal hperm hrs hkeys
  have hic : s'.ignoreCase = s.ignoreCase := h.ignoreCase
  have hcontents : (contents s'.cdb).Perm (combined s.cdb F) := contents_perm hgood.cdb h.scan
  refine ⟨h.off, h.slots, fun cur key => ?_, fun key => ?_, fun r hr => ?_, ?_, ?_, h.fits,
    fun a ha => h.frame a (h.fits.trans ha)⟩
  · have hfind := mapped_results h.mapped h.image cur key 0
    have hhead : (dataOf s'.cdb.ignoreCase (combined s.cdb F) key)[0]? =
        view s.ignoreCase (combined s.cdb F) (fun _ => .leaf) key := by
      rw [← List.head?_eq_getElem?, show s'.cdb.ignoreCase = s.ignoreCase from hic]
      rfl
    rw [hhead, hview] at hfind
    rw [fetchValue_eq hs, ← hfind]
    rfl
  · rw [fetchValue_eq hgood, fetchValue_eq hs, hic, hview]
  · rw [fetchValue_eq hs, ← hview, view_of_mem hdistinct (hcontents.mem_iff.mp hr)]
  · exact (hcontents.map _).nodup_iff.mpr hdistinct.2
  · obtain ⟨K, hlive, hcard⟩ := live_combined hdistinct
    refine ⟨K, fun b => ?_, h.count.trans hcard⟩
    rw [hlive b]
    simp only [fetchValue_eq hs, ← hview, Option.some.injEq, Option.isSome_iff_exists]

/-- A key that is twice in the constant database, and not in the journal, is
twice in the new one. -/
theorem Rebuilt.once_iff {env : Env} {s' : URDB} (hs : Good s rs H F) (hscan : ScanAt s.cdb rs)
    (h : Rebuilt s env (combined s.cdb F) s') :
    ((contents s'.cdb).map fun r => canon s.ignoreCase r.key).Nodup ↔
      ((visible s rs).map fun r => canon s.ignoreCase r.key).Nodup := by
  have hcontents : (contents s'.cdb).Perm (combined s.cdb F) :=
    contents_perm (h.good hs).cdb h.scan
  rw [(hcontents.map _).nodup_iff, visible_eq hs]
  exact nodup_combined_iff hs.journal (contents_perm hs.cdb hscan)

end Scan

/-- `reorganize` preserves the map when it returns true, whatever was left in
the temporary file. Only a database without live keys takes over the header of
that file, and without entries in the journal nothing is done. -/
theorem reorganize_keeps_map {s s' : URDB} {rs : List Record} {H : Heap Entry} {F : Forest}
    {env : Env} (hs : Good s rs H F) (hscan : ScanAt s.cdb rs)
    (hrs : ∀ r ∈ rs, Comparable s.ignoreCase r.key)
    (hkeys : ((visible s rs).map fun r => canon s.ignoreCase r.key).Nodup)
    (hfits : s.cdb.stSize + s.journal.stSize + sizeFor 4096 < 2 ^ 32)
    (hheader : (∀ key, fetchValue s key = some none) →
      ∀ i < numHashTablePointer, get (temporaryFile s env).file (i * 8 + 4) = 0)
    (h : reorganize s env = some (true, s')) :
    KeepsMap s env s' ∨ s.off = sizeofCacheStruct ∧ s' = s := by
  have hlow : sizeofCacheStruct ≤ s.off := hs.journal.low
  rcases hlow.eq_or_lt with hoff | hoff
  · refine .inr ⟨hoff.symm, ?_⟩
    have hnone : ¬s.lock.off > sizeofCacheStruct := not_lt.mpr hoff.symm.le
    simp only [reorganize, if_neg hnone] at h
    obtain rfl := (Prod.mk.inj (Option.some.inj h)).2
    simp [lock, unlock]
  · refine .inl ((reorganize_rebuilt hs hscan hoff hfits (fun hnil => hheader fun key => ?_)
      h).keepsMap hs hscan hrs hkeys)
    rw [visible_eq hs] at hkeys
    have hview : view s.ignoreCase (combined s.cdb F) (fun _ => .leaf) key =
        view s.ignoreCase rs F key :=
      view_combined hs.journal (contents_perm hs.cdb hscan) hrs hkeys key
    rw [fetchValue_eq hs, ← hview, hnil]
    rfl

/-! ### Two databases -/

theorem granting_combines {s : URDB} (hoff : sizeofCacheStruct < s.off) : Combines s granting :=
  ⟨hoff, rfl, rfl, rfl, rfl, rfl⟩

/-- A new database over a constant database, with a journal of 4096 bytes. -/
def openedOver (c : UCDB) : URDB := openJournal c newCursor (fun _ => 0) 0 4096 false true 1

/-- After the first `store` into a new journal only its key has an entry. -/
theorem openedOver_store {c : UCDB} {rs : List Record} (hcdb : CdbAt c rs) {key : Bytes}
    (data : Bytes) (hkey : KeyOk c.ignoreCase key)
    (hfree : (dataOf c.ignoreCase rs key).head? = none) (hsize : key.length + data.length < 900) :
    ∃ s H F, run step (openedOver c) [(.store key data .insert, granting)] = some s ∧
      s.cdb = c ∧ s.journal.stSize = 4096 ∧ Good s rs H F ∧ sizeofCacheStruct < s.off ∧
      ∀ k, canon c.ignoreCase k ≠ canon c.ignoreCase key → (probe s k).1 = false := by
  have hstruct : sizeofCacheStruct = 3092 := rfl
  obtain ⟨m, hm, hoff, -⟩ := openJournal_new c newCursor (fun _ => 0) 4096 false true 1
  have hgood : Good (openedOver c) rs (fun _ => none) (fun _ => .leaf) :=
    openJournal_good hcdb (show 3116 ≤ 4096 by omega) (show 4096 < 2 ^ 32 by omega)
  have hst : (openedOver c).journal.stSize = 4096 := rfl
  have hoff' : (openedOver c).off = 3092 := by
    rw [URDB.off, show (openedOver c).mem = m from hm, hoff]
    rfl
  have hview : view c.ignoreCase rs (fun _ => .leaf) key = none := hfree
  have hroom : nodeRoom (openedOver c).ignoreCase (fun _ => .leaf) key = 24 := rfl
  have hgranted : Granted granting (openedOver c).journal ((openedOver c).off +
      nodeRoom (openedOver c).ignoreCase (fun _ => .leaf) key +
      (8 + key.length + data.length) + 48) := by
    rw [hroom, hoff']
    exact ⟨by omega, fun hlt => by rw [hst] at hlt; omega⟩
  obtain ⟨r, s, hcall, ⟨-, hbound, -⟩ | ⟨hrep, -⟩ | ⟨-, -, hreach, -, hsize'⟩⟩ :=
    storeKey_spec hgood hkey (show data.length < uNotFound by unfold uNotFound; omega)
      (fun (_ : ¬(Flag.insert = .insert ∧ _)) _ => hgranted)
  · rw [show view (openedOver c).ignoreCase rs (fun _ => .leaf) key = none from hview] at hbound
    cases hbound
  · cases hrep
  · obtain ⟨H, hgood'⟩ := hreach.good
    have hic : s.ignoreCase = c.ignoreCase := by rw [URDB.ignoreCase, hreach.cdb]; rfl
    set e : Entry := ⟨key, some data⟩ with hentry
    have he : Comparable c.ignoreCase e.key := hkey.2
    have hsame : canon c.ignoreCase key = canon c.ignoreCase e.key := rfl
    refine ⟨s, H, _, by simp only [run, step, hcall]; rfl, hreach.cdb, ?_, hgood', ?_, ?_⟩
    · rw [hsize', hroom, hoff', grown, if_neg (by rw [hst]; omega), hst]
    · have hfound : (lookup s.ignoreCase (upsert c.ignoreCase (fun _ => .leaf) key
          (openedOver c).off e) key).isSome = true := by
        rw [hic, lookup_upsert_same _ _ he hsame rfl]
        rfl
      exact off_of_found hgood' hfound
    · intro k hk
      rw [probe_eq hgood', hic]
      show (lookup c.ignoreCase (upsert c.ignoreCase (fun _ => .leaf) key
        (openedOver c).off e) k).isSome = false
      rw [lookup_upsert_other (fun i _ e he => by cases he) he hsame hk]
      rfl

theorem comparable_false (key : Bytes) : Comparable false key := fun h => absurd h (by decide)

/-- A constant database as `open` finds it. -/
theorem createFile_opened (rs : List Record) (hne : rs ≠ [])
    (hfits : dataStart + totalSize rs + 8 * rs.length < 2 ^ 32) :
    ∃ c, createFile false false 0 rs = some c ∧
      c.stSize = dataStart + totalSize rs + 8 * rs.length ∧
      CdbAt (openFile false true c.file c.stSize) rs ∧
      ScanAt (openFile false true c.file c.stSize) rs := by
  have h4096 : dataStart = 4096 := rfl
  obtain ⟨c, hc, -, -, himage⟩ := createFile_isImage false false 0 rs hfits
  have hsize := himage.size_eq
  exact ⟨c, hc, hsize, .inr ⟨show c.stSize ≠ 0 by omega, rfl, himage⟩,
    .inl (recovered_openFile true himage hne).2.1⟩

/-- A key stored over a constant database that does not have it, and the two
combined. -/
theorem reorganize_stored (rs : List Record) (key data : Bytes) (hne : rs ≠ [])
    (hfits : totalSize rs + 8 * rs.length < 2 ^ 31) (hkey : key ≠ [])
    (hfree : ∀ r ∈ rs, r.key ≠ key) (hsize : key.length + data.length < 900) :
    ∃ c s s' H F, createFile false false 0 rs = some c ∧
      run step (openedOver (openFile false true c.file c.stSize))
        [(.store key data .insert, granting)] = some s ∧
      reorganize s granting = some (true, s') ∧ Good s rs H F ∧ ScanAt s.cdb rs ∧
      sizeofCacheStruct < s.off ∧ s.ignoreCase = false ∧ visible s rs = rs ∧
      s.cdb.stSize + s.journal.stSize + sizeFor 4096 < 2 ^ 32 := by
  have h4096 : dataStart = 4096 := rfl
  have hsizeFor := sizeFor_4096
  obtain ⟨c, hc, hst, hcdb, hscan⟩ := createFile_opened rs hne (by omega)
  have hhead : (dataOf false rs key).head? = none := by
    rw [← Option.not_isSome_iff_eq_none, head_dataOf_isSome fun _ _ => comparable_false _]
    rintro hmem
    obtain ⟨r, hr, heq⟩ := List.mem_map.mp hmem
    exact hfree r hr heq
  obtain ⟨s, H, F, hrun, hscdb, hjournal, hgood, hoff, hprobe⟩ :=
    openedOver_store hcdb data ⟨hkey, comparable_false _⟩ hhead hsize
  have hscan' : ScanAt s.cdb rs := by rw [hscdb]; exact hscan
  have hfits' : s.cdb.stSize + s.journal.stSize + sizeFor 4096 < 2 ^ 32 := by
    rw [hscdb, hjournal, hsizeFor]
    show c.stSize + 4096 + 69632 < 2 ^ 32
    omega
  obtain ⟨s', hs'⟩ := reorganize_succeeds hgood hscan' hfits' (granting_combines hoff) rfl
  refine ⟨c, s, s', H, F, hc, hrun, hs', hgood, hscan', hoff, ?_, ?_, hfits'⟩
  · rw [URDB.ignoreCase, hscdb]
    rfl
  · refine List.filter_eq_self.mpr fun r hr => ?_
    rw [hprobe r.key (hfree r hr)]
    rfl

theorem reorganize_keeps_map_stored : ∃ c s s', createFile false false 0 [⟨[97], [1]⟩] = some c ∧
    run step (openedOver (openFile false true c.file c.stSize))
      [(.store [98] [2] .insert, granting)] = some s ∧
    reorganize s granting = some (true, s') ∧ KeepsMap s granting s' := by
  obtain ⟨c, s, s', H, F, hc, hrun, hs', hgood, hscan, hoff, hic, hvisible, hfits⟩ :=
    reorganize_stored [⟨[97], [1]⟩] [98] [2] (by simp) (by decide) (by simp) (by simp) (by simp)
  refine ⟨c, s, s', hc, hrun, hs', ?_⟩
  rcases reorganize_keeps_map hgood hscan (fun _ _ => by rw [hic]; exact comparable_false _)
    (by rw [hvisible]; simp) hfits (fun _ i _ => get_temporaryFile s rfl _) hs' with
    hkeeps | ⟨hoff', -⟩
  · exact hkeeps
  · exact absurd hoff' hoff.ne'

/-- Of a key that was added twice both records are in the new constant
database. -/
theorem repeated_key_kept : ∃ c s s',
    createFile false false 0 [⟨[97], [1]⟩, ⟨[97], [2]⟩] = some c ∧
    run step (openedOver (openFile false true c.file c.stSize))
      [(.store [98] [2] .insert, granting)] = some s ∧
    reorganize s granting = some (true, s') ∧
    ¬((contents s'.cdb).map Record.key).Nodup ∧ ¬KeepsMap s granting s' := by
  obtain ⟨c, s, s', H, F, hc, hrun, hs', hgood, hscan, hoff, hic, hvisible, hfits⟩ :=
    reorganize_stored [⟨[97], [1]⟩, ⟨[97], [2]⟩] [98] [2] (by simp) (by decide) (by simp) (by simp)
      (by simp)
  have hrebuilt := reorganize_rebuilt hgood hscan hoff hfits
    (fun _ i _ => get_temporaryFile s rfl _) hs'
  have htwice : ¬((contents s'.cdb).map fun r => canon s.ignoreCase r.key).Nodup := by
    rw [hrebuilt.once_iff hgood hscan, hvisible]
    simp
  refine ⟨c, s, s', hc, hrun, hs', ?_, fun hkeeps => htwice hkeeps.once⟩
  rw [hic] at htwice
  exact htwice

end ULib.RdbReorganize
