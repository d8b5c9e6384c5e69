import ULib.CdbRoundTrip

/-!
The unmapped path. Up to the end of the table it sees the slots that the
mapped path sees, and then slot 0. After that `offset` still points behind the
end of the table, so the remaining turns look at slots of the tables that
follow, or, at the end of the file, at slot 0 again and again.
-/

namespace ULib.CdbAccessPaths

open ByteMemory
open KeyComparison
open ConstantDatabase
open ConstantDatabase.Cursor
open CdbImage
open CdbLookup
open CdbRoundTrip

/-! ### Comparing a key in pieces -/

theorem preadNew_eq {c : UCDB} {n offset : Nat} (hend : offset + n ≤ c.stSize) :
    preadNew c n offset = read c.file offset n := by
  unfold preadNew ByteMemory.read
  apply List.map_congr_left
  intro i hi
  have hi' := List.mem_range.mp hi
  rw [pread, if_pos (by omega), Nat.zero_add]

theorem canon_split (ignoreCase : Bool) (s t : Bytes) (n : Nat) :
    canon ignoreCase s = canon ignoreCase t ↔
      canon ignoreCase (s.take n) = canon ignoreCase (t.take n) ∧
        canon ignoreCase (s.drop n) = canon ignoreCase (t.drop n) := by
  have htake : ∀ k : Bytes, canon ignoreCase (k.take n) = (canon ignoreCase k).take n := by
    intro k
    cases ignoreCase <;> simp [canon, List.map_take]
  have hdrop : ∀ k : Bytes, canon ignoreCase (k.drop n) = (canon ignoreCase k).drop n := by
    intro k
    cases ignoreCase <;> simp [canon, List.map_drop]
  rw [htake, htake, hdrop, hdrop]
  constructor
  · intro h
    rw [h]
    exact ⟨rfl, rfl⟩
  · rintro ⟨h₁, h₂⟩
    rw [← List.take_append_drop n (canon ignoreCase s), h₁, h₂, List.take_append_drop]

theorem matchPieces_iff {c : UCDB} {fuel : Nat} {pkey : Bytes} {pos : Nat}
    (hkey : Comparable c.ignoreCase pkey) (hfuel : pkey.length ≤ fuel)
    (hend : pos + pkey.length ≤ c.stSize) :
    matchPieces c fuel pkey pos = true ↔
      canon c.ignoreCase pkey = canon c.ignoreCase (read c.file pos pkey.length) := by
  induction fuel generalizing pkey pos with
  | zero =>
      have hnil : pkey = [] := List.length_eq_zero_iff.mp (by omega)
      subst hnil
      simp [matchPieces, ByteMemory.read]
  | succ fuel ih =>
      by_cases hzero : pkey.length = 0
      · have hnil : pkey = [] := List.length_eq_zero_iff.mp hzero
        subst hnil
        simp [matchPieces, ByteMemory.read]
      · set n := min pkey.length 32 with hn
        have hnle : n ≤ pkey.length := Nat.min_le_left _ _
        have hnpos : 0 < n := by omega
        have hpiece : uEqual pkey (preadNew c n pos) n c.ignoreCase = 0 ↔
            canon c.ignoreCase (pkey.take n) = canon c.ignoreCase (read c.file pos n) := by
          have hcmp : uEqual (pkey.take n) (read c.file pos n) (pkey.take n).length
              c.ignoreCase = 0 ↔
              canon c.ignoreCase (pkey.take n) = canon c.ignoreCase (read c.file pos n) :=
            uEqual_eq_zero (by simp [hnle]) fun hic h0 => hkey hic (List.mem_of_mem_take h0)
          rw [List.length_take, Nat.min_eq_left hnle] at hcmp
          rw [preadNew_eq (by omega), uEqual_take, ← hcmp]
          rw [List.take_of_length_le (l := read c.file pos n) (by simp)]
        have hrest := ih (show Comparable c.ignoreCase (pkey.drop n) from
            fun hic h0 => hkey hic (List.mem_of_mem_drop h0))
          (by rw [List.length_drop]; omega)
          (show pos + n + (pkey.drop n).length ≤ c.stSize by rw [List.length_drop]; omega)
        have hsplit : read c.file pos pkey.length =
            read c.file pos n ++ read c.file (pos + n) (pkey.drop n).length := by
          rw [← read_append]
          simp [Nat.add_sub_cancel' hnle]
        rw [canon_split c.ignoreCase pkey _ n, hsplit, List.take_left' (by simp),
          List.drop_left' (by simp), ← hpiece, ← hrest]
        simp only [matchPieces, hzero, if_false, ← hn]
        by_cases heq : uEqual pkey (preadNew c n pos) n c.ignoreCase = 0
        · simp [heq]
        · simp [heq]

/-- The comparison in pieces is the comparison as a whole: for a key of one
piece, and for a key in which no piece can end early. -/
theorem matchPieces_eq {c : UCDB} {key : Bytes} {pos : Nat}
    (hkey : Comparable c.ignoreCase key ∨ key.length ≤ 32)
    (hend : pos + key.length ≤ c.stSize) :
    matchPieces c key.length key pos =
      decide (uEqual key (read c.file pos key.length) key.length c.ignoreCase = 0) := by
  rcases hkey with hkey | hshort
  · rw [Bool.eq_iff_iff, matchPieces_iff hkey (le_refl _) hend, decide_eq_true_eq,
      uEqual_eq_zero (by simp) hkey]
  · cases key with
    | nil => cases hic : c.ignoreCase <;> simp [matchPieces, uEqual, memcmp, strncasecmp]
    | cons a key =>
        have hmin : min (a :: key).length 32 = (a :: key).length := Nat.min_eq_left hshort
        have hdone : ∀ fuel p, matchPieces c fuel [] p = true := by
          intro fuel p
          cases fuel <;> simp [matchPieces]
        rw [show matchPieces c (a :: key).length (a :: key) pos =
          matchPieces c (key.length + 1) (a :: key) pos from rfl, matchPieces, hmin]
        dsimp only
        rw [preadNew_eq hend, List.drop_length, hdone]
        simp only [List.length_cons, Nat.add_one_ne_zero, if_false, ne_eq, ite_not]
        split <;> simp_all

theorem inspectSlot_unmapped {c : UCDB} (hmapped : c.mapped = false) {cur : Cursor}
    (hkey : Comparable c.ignoreCase cur.key ∨ cur.key.length ≤ 32)
    (hkhash : cur.khash = cdbHash c.ignoreCase cur.key) {x : Nat × Record} (hpos : x.1 ≠ 0)
    (hhash : get cur.slotBuf 0 = hashOf c.ignoreCase x) (hslot : get cur.slotBuf 4 = x.1)
    (hrec : HoldsRecord c.file x.1 x.2) (hend : x.1 + recordSize x.2 ≤ c.stSize) :
    ∃ hrBuf data, inspectSlot c cur =
        (some (dataFor c.ignoreCase cur.key x).isSome,
          { cur with hrBuf := hrBuf, data := data }) ∧
      ∀ d, dataFor c.ignoreCase cur.key x = some d → data = d := by
  have hsize : recordSize x.2 = 8 + x.2.key.length + x.2.data.length := rfl
  have h8 : sizeofRecordHeader = 8 := rfl
  obtain ⟨hk, hd, hkeyb, hdatab⟩ := hrec
  have hbuf : ∀ k, k + 4 ≤ 8 → get (pread c cur.hrBuf sizeofRecordHeader x.1) k =
      get c.file (x.1 + k) := fun k hk => get_pread _ hk (by omega)
  have hk' := hbuf 0 (by omega)
  have hd' := hbuf 4 (by omega)
  rw [Nat.add_zero, hk] at hk'
  rw [hd] at hd'
  simp only [inspectSlot, slotPos, slotHash, hmapped, Bool.false_eq_true, if_false, hslot, hpos,
    hhash, loadHr, hrKlen, matchRecord, hrDlen, hk', hd']
  unfold dataFor sameKey
  simp only [hashOf, ← hkhash]
  by_cases hh : cdbHash c.ignoreCase x.2.key = cur.khash
  · simp only [hh, if_true, decide_true, Bool.true_and]
    by_cases hl : x.2.key.length = cur.key.length
    · simp only [hl, if_true, decide_true, Bool.true_and]
      rw [hl] at hkeyb hdatab
      rw [matchPieces_eq hkey (by omega), preadNew_eq (by omega), hkeyb, hdatab]
      by_cases he : uEqual cur.key x.2.key cur.key.length c.ignoreCase = 0
      · simp only [he, if_true, decide_true]
        exact ⟨_, _, rfl, fun d hd => Option.some.inj hd⟩
      · simp only [he, if_false, decide_false, Bool.false_eq_true]
        exact ⟨_, cur.data, rfl, fun d hd => by simp at hd⟩
    · simp only [hl, if_false, decide_false, Bool.false_and, Bool.false_eq_true]
      exact ⟨_, cur.data, rfl, fun d hd => by simp at hd⟩
  · simp only [hh, if_false, decide_false, Bool.false_and, Bool.false_eq_true]
    exact ⟨cur.hrBuf, cur.data, rfl, fun d hd => by simp at hd⟩

/-! ### The slots the unmapped path sees -/

def tableOf (c : UCDB) (key : Bytes) : Nat := cdbHash c.ignoreCase key % numHashTablePointer

/-- `hp->pos` of the key. -/
def baseOf (c : UCDB) (key : Bytes) : Nat := get c.file (tableOf c key * 8)

/-- `hp->slots` of the key. -/
def slotsOf (c : UCDB) (key : Bytes) : Nat := get c.file (tableOf c key * 8 + 4)

/-- The slot at which `find` starts, in a table that has slots. -/
def homeSlot (c : UCDB) (key : Bytes) : Nat :=
  if slotsOf c key = 0 then 0
  else cdbHash c.ignoreCase key / numHashTablePointer % slotsOf c key

/-- Data of the record that slot `j` of the table of the key leads to, when it
is a record of the key. -/
def slotData (c : UCDB) (key : Bytes) (j : Nat) : Option Bytes :=
  dataFor c.ignoreCase key (get c.file (baseOf c key + j * 8 + 4),
    recordAt c.file (get c.file (baseOf c key + j * 8 + 4)))

/-- The same for the slot that the unmapped path looks at in turn `t`. -/
def seen (c : UCDB) (key : Bytes) (t : Nat) : Option Bytes :=
  if homeSlot c key + t < slotsOf c key then slotData c key (homeSlot c key + t)
  else if homeSlot c key + t = slotsOf c key ∨
      baseOf c key + slotsOf c key * 8 = c.stSize then slotData c key 0
  else none

/-- A record of the image with the two words of its slot. -/
structure Leads (c : UCDB) (hash pos : Nat) (x : Nat × Record) : Prop where
  pos_ne : x.1 ≠ 0
  holds : HoldsRecord c.file x.1 x.2
  inFile : x.1 + recordSize x.2 ≤ c.stSize
  hash_eq : hash = hashOf c.ignoreCase x
  pos_eq : pos = x.1

variable {c : UCDB} {rs : List Record}

theorem tableOf_lt (c : UCDB) (key : Bytes) : tableOf c key < numHashTablePointer :=
  Nat.mod_lt _ (by decide)

theorem slotsOf_eq (himage : IsImage c.ignoreCase c.file c.stSize rs) (key : Bytes) :
    slotsOf c key = (bucket c.ignoreCase (placed dataStart rs) (tableOf c key)).length :=
  himage.slots _ (tableOf_lt c key)

theorem ne_nil_of_slotsOf (himage : IsImage c.ignoreCase c.file c.stSize rs) {key : Bytes}
    (hslots : 0 < slotsOf c key) : rs ≠ [] := by
  rintro rfl
  rw [slotsOf_eq himage] at hslots
  simp [bucket, placed] at hslots

theorem baseOf_eq (himage : IsImage c.ignoreCase c.file c.stSize rs) {key : Bytes}
    (hslots : 0 < slotsOf c key) : baseOf c key = dataStart + totalSize rs +
      8 * slotsBefore c.ignoreCase (placed dataStart rs) (tableOf c key) :=
  himage.pointer (ne_nil_of_slotsOf himage hslots) _ (tableOf_lt c key)

theorem table_inFile (himage : IsImage c.ignoreCase c.file c.stSize rs) {key : Bytes}
    (hslots : 0 < slotsOf c key) : baseOf c key + slotsOf c key * 8 ≤ c.stSize := by
  have hle := slotsBefore_bucket_le c.ignoreCase (placed dataStart rs) (tableOf_lt c key)
  rw [← slotsOf_eq himage, length_placed] at hle
  have hsize := himage.size_eq
  rw [baseOf_eq himage hslots]
  omega

/-- From the start of the table of the key on, every slot up to the end of the
file leads to a record, and behind the table to a record of another key. -/
theorem slot_leads (himage : IsImage c.ignoreCase c.file c.stSize rs) {key : Bytes}
    (hslots : 0 < slotsOf c key) {j : Nat} (hj : baseOf c key + j * 8 < c.stSize) :
    baseOf c key + j * 8 + 8 ≤ c.stSize ∧
      ∃ x, Leads c (get c.file (baseOf c key + j * 8)) (get c.file (baseOf c key + j * 8 + 4)) x ∧
        dataFor c.ignoreCase key x = if j < slotsOf c key then slotData c key j else none := by
  have hbase := baseOf_eq himage hslots
  have hsize := himage.size_eq
  set b := slotsBefore c.ignoreCase (placed dataStart rs) (tableOf c key) with hb
  have haddr : baseOf c key + j * 8 = dataStart + totalSize rs + (b + j) * 8 := by omega
  obtain ⟨x, hx, hpos, hrec, hhash, hslot, -, hhi⟩ :=
    slot_at himage (show b + j < rs.length by omega)
  rw [← haddr] at hhash hslot
  have hbounds := placed_bounds hx
  refine ⟨by omega, x, ⟨hpos, hrec, by omega, hhash, hslot⟩, ?_⟩
  split
  · rw [slotData, hslot, hrec.recordAt_eq]
  · next hbehind =>
    -- the slot belongs to a later table
    have hother : cdbHash c.ignoreCase x.2.key ≠ cdbHash c.ignoreCase key := by
      intro heq
      have hindex : indexOf c.ignoreCase x = tableOf c key := by
        rw [indexOf, hashOf, heq, tableOf]
      rw [hindex, slotsBefore_succ, ← slotsOf_eq himage] at hhi
      omega
    have hnot : sameKey c.ignoreCase key x.2.key = false := by
      by_contra h
      exact hother (hash_of_sameKey (by simpa using h))
    simp [dataFor, hnot]

theorem pread_past {buf : Mem} {n offset : Nat} (hend : c.stSize ≤ offset) :
    pread c buf n offset = buf := by
  funext i
  rw [pread, if_neg (by omega)]

/-- An unmapped cursor after `t` turns. -/
structure UnmappedAt (c : UCDB) (key : Bytes) (t : Nat) (cur : Cursor) : Prop where
  key_eq : cur.key = key
  khash : cur.khash = cdbHash c.ignoreCase key
  pos : hpPos c cur = baseOf c key
  slots : hpSlots c cur = slotsOf c key
  loop : cur.loop = t
  nslot : cur.nslot = (homeSlot c key + (t - 1)) % slotsOf c key
  offset : cur.offset = baseOf c key +
    (if homeSlot c key + (t - 1) < slotsOf c key then homeSlot c key + (t - 1)
      else homeSlot c key + (t - 1) - 1) * 8
  buffered : ∃ x, Leads c (get cur.slotBuf 0) (get cur.slotBuf 4) x ∧
    dataFor c.ignoreCase key x = seen c key (t - 1)

/-- The 32-bit `offset` of the unmapped path does not overflow. -/
def OffsetFits (c : UCDB) (key : Bytes) : Prop :=
  homeSlot c key ≤ 1 ∨ baseOf c key + (slotsOf c key + homeSlot c key) * 8 ≤ 2 ^ 32

theorem leads_pread (buf : Mem) {a : Nat} {x : Nat × Record}
    (hend : a + sizeofHashTableSlot ≤ c.stSize)
    (h : Leads c (get c.file a) (get c.file (a + 4)) x) :
    Leads c (get (pread c buf sizeofHashTableSlot a) 0)
      (get (pread c buf sizeofHashTableSlot a) 4) x := by
  rw [get_pread _ (by decide) hend, get_pread _ (by decide) hend]
  exact h

theorem homeSlot_eq {key : Bytes} (hslots : 0 < slotsOf c key) :
    homeSlot c key = cdbHash c.ignoreCase key / numHashTablePointer % slotsOf c key :=
  if_neg (by omega)

theorem homeSlot_lt {key : Bytes} (hslots : 0 < slotsOf c key) :
    homeSlot c key < slotsOf c key := by
  rw [homeSlot_eq hslots]
  exact Nat.mod_lt _ hslots

/-- Reading the slot at `base + j * 8` into the buffer. -/
theorem buffered_pread (himage : IsImage c.ignoreCase c.file c.stSize rs) {key : Bytes}
    (hslots : 0 < slotsOf c key) {j : Nat} (hj : baseOf c key + j * 8 < c.stSize) (buf : Mem) :
    ∃ x, Leads c (get (pread c buf sizeofHashTableSlot (baseOf c key + j * 8)) 0)
        (get (pread c buf sizeofHashTableSlot (baseOf c key + j * 8)) 4) x ∧
      dataFor c.ignoreCase key x = if j < slotsOf c key then slotData c key j else none := by
  obtain ⟨hend, x, hx, hdata⟩ := slot_leads himage hslots hj
  exact ⟨x, leads_pread buf hend hx, hdata⟩

/-- Behind the end of the table: slots of other tables as long as there are
any, and then what is in the buffer already. -/
theorem buffered_behind (himage : IsImage c.ignoreCase c.file c.stSize rs) {key : Bytes}
    (hslots : 0 < slotsOf c key) {u : Nat} (hbehind : slotsOf c key ≤ homeSlot c key + u)
    {buf : Mem} (hbuf : ∃ x, Leads c (get buf 0) (get buf 4) x ∧
      dataFor c.ignoreCase key x = seen c key u) :
    ∃ x, Leads c
        (get (pread c buf sizeofHashTableSlot (baseOf c key + (homeSlot c key + u) * 8)) 0)
        (get (pread c buf sizeofHashTableSlot (baseOf c key + (homeSlot c key + u) * 8)) 4) x ∧
      dataFor c.ignoreCase key x = seen c key (u + 1) := by
  have htable := table_inFile himage hslots
  rcases Nat.lt_or_ge (baseOf c key + (homeSlot c key + u) * 8) c.stSize with hin | hout
  · obtain ⟨x, hx, hdata⟩ := buffered_pread himage hslots hin buf
    refine ⟨x, hx, hdata.trans ?_⟩
    rw [if_neg (by omega), seen, if_neg (by omega), if_neg (by omega)]
  · rw [pread_past hout]
    obtain ⟨x, hx, hdata⟩ := hbuf
    refine ⟨x, hx, hdata.trans ?_⟩
    have hnow : ¬ homeSlot c key + u < slotsOf c key := by omega
    have hnext : ¬ homeSlot c key + (u + 1) < slotsOf c key := by omega
    have hlast : (homeSlot c key + u = slotsOf c key ∨
          baseOf c key + slotsOf c key * 8 = c.stSize) ↔
        (homeSlot c key + (u + 1) = slotsOf c key ∨
          baseOf c key + slotsOf c key * 8 = c.stSize) := by
      constructor
      · exact fun _ => .inr (by omega)
      · exact fun _ => .inr (by omega)
    simp only [seen, hnow, hnext, if_false, hlast]

theorem UnmappedAt.nextSlot (hmapped : c.mapped = false)
    (himage : IsImage c.ignoreCase c.file c.stSize rs) {key : Bytes}
    (hoffset : OffsetFits c key) {t : Nat} (ht : t < slotsOf c key) {cur : Cursor}
    (hcur : UnmappedAt c key t cur) : UnmappedAt c key (t + 1) (nextSlot c cur) := by
  obtain ⟨hkey, hkhash, hpos, hslots, hloop, hnslot, hoff, hbuf⟩ := hcur
  have hn : 0 < slotsOf c key := by omega
  have hh := homeSlot_lt hn
  have htable := table_inFile himage hn
  have hfits := himage.fits
  simp only [hpPos, hpSlots, hmapped, Bool.false_eq_true, if_false] at hpos hslots
  rcases t with _ | t
  · simp only [ConstantDatabase.nextSlot, hloop, Nat.zero_add, gt_iff_lt, lt_irrefl, if_false]
    exact ⟨hkey, hkhash, by simpa [hpPos, hmapped], by simpa [hpSlots, hmapped], rfl, hnslot,
      hoff, hbuf⟩
  · simp only [Nat.add_sub_cancel] at hnslot hoff hbuf
    have hloop' : cur.loop + 1 > 1 := by omega
    simp only [ConstantDatabase.nextSlot, hloop', if_true, advance, hpSlots, hpPos, hmapped,
      loadSlot, hslots, hpos, hnslot, Bool.false_eq_true, if_false]
    rcases Nat.lt_trichotomy (homeSlot c key + t + 1) (slotsOf c key) with hlt | heq | hgt
    -- still in the table
    · have hmod : (homeSlot c key + t) % slotsOf c key = homeSlot c key + t :=
        Nat.mod_eq_of_lt (by omega)
      have hnext : (homeSlot c key + (t + 1)) % slotsOf c key = homeSlot c key + (t + 1) :=
        Nat.mod_eq_of_lt (by omega)
      rw [if_pos (by omega)] at hoff
      have haddr : (cur.offset + sizeofHashTableSlot) % 2 ^ 32 =
          baseOf c key + (homeSlot c key + (t + 1)) * 8 := by
        rw [hoff, sizeofHashTableSlot, Nat.mod_eq_of_lt (by omega)]
        omega
      rw [if_neg (by omega), haddr]
      refine ⟨hkey, hkhash, by simpa [hpPos, hmapped], by simpa [hpSlots, hmapped],
        by simp [hloop], ?_, ?_, ?_⟩
      · simp only [Nat.add_sub_cancel, hnext, hmod]
        omega
      · simp only [Nat.add_sub_cancel]
        rw [if_pos (by omega)]
      · obtain ⟨x, hx, hdata⟩ := buffered_pread himage hn
          (show baseOf c key + (homeSlot c key + (t + 1)) * 8 < c.stSize by omega) cur.slotBuf
        refine ⟨x, hx, hdata.trans ?_⟩
        rw [Nat.add_sub_cancel, seen]
        simp only [show homeSlot c key + (t + 1) < slotsOf c key by omega, if_true]
    -- the wrap
    · have hmod : (homeSlot c key + t) % slotsOf c key = homeSlot c key + t :=
        Nat.mod_eq_of_lt (by omega)
      have hnext : (homeSlot c key + (t + 1)) % slotsOf c key = 0 := by
        rw [show homeSlot c key + (t + 1) = slotsOf c key by omega, Nat.mod_self]
      rw [if_pos (by omega)] at hoff
      rw [if_pos (by omega)]
      refine ⟨hkey, hkhash, by simpa [hpPos, hmapped], by simpa [hpSlots, hmapped],
        by simp [hloop], ?_, ?_, ?_⟩
      · simp only [Nat.add_sub_cancel, hnext]
      · simp only [Nat.add_sub_cancel, hoff]
        rw [if_neg (by omega)]
        omega
      · obtain ⟨x, hx, hdata⟩ := buffered_pread himage hn
          (show baseOf c key + 0 * 8 < c.stSize by omega) cur.slotBuf
        rw [Nat.zero_mul, Nat.add_zero] at hx
        refine ⟨x, hx, hdata.trans ?_⟩
        rw [Nat.add_sub_cancel, seen, if_pos hn, if_neg (by omega), if_pos (.inl (by omega))]
    -- behind the end of the table
    · have hmod : (homeSlot c key + t) % slotsOf c key = homeSlot c key + t - slotsOf c key := by
        rw [Nat.mod_eq_sub_mod (by omega), Nat.mod_eq_of_lt (by omega)]
      have hnext : (homeSlot c key + (t + 1)) % slotsOf c key =
          homeSlot c key + (t + 1) - slotsOf c key := by
        rw [Nat.mod_eq_sub_mod (by omega), Nat.mod_eq_of_lt (by omega)]
      rw [if_neg (by omega)] at hoff
      have haddr : (cur.offset + sizeofHashTableSlot) % 2 ^ 32 =
          baseOf c key + (homeSlot c key + t) * 8 := by
        have hoffset' := hoffset.resolve_left (by omega)
        rw [hoff, sizeofHashTableSlot, Nat.mod_eq_of_lt (by omega)]
        omega
      rw [if_neg (by omega), haddr]
      refine ⟨hkey, hkhash, by simpa [hpPos, hmapped], by simpa [hpSlots, hmapped],
        by simp [hloop], ?_, ?_, ?_⟩
      · simp only [Nat.add_sub_cancel, hnext, hmod]
        omega
      · simp only [Nat.add_sub_cancel]
        rw [if_neg (by omega)]
        omega
      · exact buffered_behind himage hn (by omega) hbuf

theorem unmapped_scan (hmapped : c.mapped = false)
    (himage : IsImage c.ignoreCase c.file c.stSize rs) {key : Bytes}
    (hkey : Comparable c.ignoreCase key ∨ key.length ≤ 32) (hoffset : OffsetFits c key) :
    Scan c (slotsOf c key) (seen c key) (UnmappedAt c key) where
  slots := fun _ _ hcur => hcur.slots
  loop := fun _ _ hcur => hcur.loop
  turn := by
    intro t ht cur hcur
    have hnext := hcur.nextSlot hmapped himage hoffset ht
    obtain ⟨x, hx, hdata⟩ := hnext.buffered
    rw [Nat.add_sub_cancel] at hdata
    have hkey' := hnext.key_eq.symm ▸ hkey
    have hkhash : (ConstantDatabase.nextSlot c cur).khash =
        cdbHash c.ignoreCase (ConstantDatabase.nextSlot c cur).key := by
      rw [hnext.khash, hnext.key_eq]
    have hseen : seen c key t =
        dataFor c.ignoreCase (ConstantDatabase.nextSlot c cur).key x := by
      rw [hnext.key_eq, hdata]
    rw [hseen]
    obtain ⟨hrBuf, data, hinspect, hfound⟩ := inspectSlot_unmapped hmapped hkey' hkhash
      hx.pos_ne hx.hash_eq hx.pos_eq hx.holds hx.inFile
    exact ⟨_, hinspect, ⟨hnext.key_eq, hnext.khash, hnext.pos, hnext.slots, hnext.loop,
      hnext.nslot, hnext.offset, hnext.buffered⟩, hfound⟩

/-- The cursor that `find` hands to `findNext` without a mapping. -/
theorem findKey_unmapped (hmapped : c.mapped = false)
    (himage : IsImage c.ignoreCase c.file c.stSize rs) (cur : Cursor) {key : Bytes}
    (hslots : 0 < slotsOf c key) :
    ∃ cur₀, findKey c cur key = findNext c cur₀ ∧ UnmappedAt c key 0 cur₀ := by
  have htable := table_inFile himage hslots
  have hhome := homeSlot_lt hslots
  have hfits := himage.fits
  have hsize := himage.size_eq
  have hlt := tableOf_lt c key
  have h512 : numHashTablePointer = 512 := rfl
  have h4096 : dataStart = 4096 := rfl
  have hend : tableOf c key * sizeofHashTablePointer + 8 ≤ c.stSize := by
    rw [sizeofHashTablePointer]
    omega
  set cur₁ := loadHp c { cur with
    key := key, khash := cdbHash c.ignoreCase key
    offset := tableOf c key * sizeofHashTablePointer }
    (tableOf c key * sizeofHashTablePointer) with hcur₁
  have hpos₁ : hpPos c cur₁ = baseOf c key := hpPos_loadHp _ hend
  have hslots₁ : hpSlots c cur₁ = slotsOf c key := hpSlots_loadHp _ hend
  have hkey₁ : cur₁.key = key ∧ cur₁.khash = cdbHash c.ignoreCase key := by
    simp only [hcur₁, loadHp, hmapped, Bool.false_eq_true, if_false, and_self]
  have haddr : (baseOf c key + homeSlot c key * sizeofHashTableSlot) % 2 ^ 32 =
      baseOf c key + homeSlot c key * 8 := by
    rw [sizeofHashTableSlot, Nat.mod_eq_of_lt (by omega)]
  obtain ⟨x, hx, hdata⟩ := buffered_pread himage hslots
    (show baseOf c key + homeSlot c key * 8 < c.stSize by omega) cur₁.slotBuf
  have hne : slotsOf c key ≠ 0 := by omega
  have hslotpos : get (pread c cur₁.slotBuf sizeofHashTableSlot
      (baseOf c key + homeSlot c key * 8)) 4 ≠ 0 := by
    rw [hx.pos_eq]
    exact hx.pos_ne
  have hfind : findKey c cur key = findNext c { cur₁ with
      nslot := homeSlot c key
      offset := baseOf c key + homeSlot c key * 8
      slotBuf := pread c cur₁.slotBuf sizeofHashTableSlot (baseOf c key + homeSlot c key * 8)
      loop := 0 } := by
    have hposbuf : get cur₁.hpBuf 0 = baseOf c key := by simpa [hpPos, hmapped] using hpos₁
    simp only [findKey, find]
    rw [show cdbHash c.ignoreCase key % numHashTablePointer = tableOf c key from rfl, ← hcur₁,
      hslots₁]
    simp only [ne_eq, hne, not_false_eq_true, if_true, hpPos, loadSlot, slotPos, hmapped,
      Bool.false_eq_true, if_false, hposbuf, hkey₁.2, ← homeSlot_eq hslots, haddr, hslotpos]
  refine ⟨_, hfind, ⟨hkey₁.1, hkey₁.2, ?_, ?_, rfl, ?_, ?_, x, hx, ?_⟩⟩
  · simpa [hpPos, hmapped] using hpos₁
  · simpa [hpSlots, hmapped] using hslots₁
  · simp [Nat.mod_eq_of_lt hhome]
  · simp [hhome]
  · rw [hdata, if_pos hhome, seen]
    simp [hhome]

/-- Without a mapping the calls return the data in the slots of `seen`. -/
theorem unmapped_results (hmapped : c.mapped = false)
    (himage : IsImage c.ignoreCase c.file c.stSize rs) {key : Bytes}
    (hkey : Comparable c.ignoreCase key ∨ key.length ≤ 32) (hoffset : OffsetFits c key)
    (cur : Cursor) (k : Nat) :
    result (findSeq c cur key k) = ((List.range' 0 (slotsOf c key)).filterMap (seen c key))[k]? := by
  rcases Nat.eq_zero_or_pos (slotsOf c key) with hzero | hslots
  · have hempty : bucket c.ignoreCase (placed dataStart rs) (tableOf c key) = [] := by
      rwa [← List.length_eq_zero_iff, ← slotsOf_eq himage]
    rw [hzero]
    exact empty_results himage cur key hempty k
  · obtain ⟨cur₀, hfind, hcur₀⟩ := findKey_unmapped hmapped himage cur hslots
    have hscan := unmapped_scan hmapped himage hkey hoffset
    have hfirst := hscan.findNext (.inl ⟨0, Nat.zero_le _, hcur₀, rfl⟩)
    rw [Nat.sub_zero, ← hfind] at hfirst
    exact hscan.results (f := findSeq c cur key) (fun _ => rfl) hfirst.1 hfirst.2 k

/-- The mapped path goes through the slots of the table in order. -/
theorem dataOf_slots (himage : IsImage c.ignoreCase c.file c.stSize rs) (key : Bytes) :
    dataOf c.ignoreCase rs key = (List.range' 0 (slotsOf c key)).filterMap fun t =>
      slotData c key ((homeSlot c key + t) % slotsOf c key) := by
  have hbucket := bucket_dataFor c.ignoreCase key (placed dataStart rs)
  rw [← dataOf_eq] at hbucket
  rw [← hbucket]
  rcases Nat.eq_zero_or_pos (slotsOf c key) with hzero | hslots
  · have hempty : bucket c.ignoreCase (placed dataStart rs) (tableOf c key) = [] := by
      rwa [← List.length_eq_zero_iff, ← slotsOf_eq himage]
    rw [hzero]
    exact (congrArg (List.filterMap _) hempty).trans rfl
  · obtain ⟨T, hfilled, hhold⟩ := himage.table (tableOf c key) (tableOf_lt c key)
    have hn := slotsOf_eq himage key
    have hround := probed_round hfilled (hn ▸ hslots) key
    rw [← hn, ← homeSlot_eq hslots] at hround
    refine hround.symm.trans ?_
    apply List.filterMap_congr
    intro t _
    have hj : (homeSlot c key + t) % slotsOf c key <
        (bucket c.ignoreCase (placed dataStart rs) (tableOf c key)).length :=
      hn ▸ Nat.mod_lt _ hslots
    obtain ⟨x, hx, -, -, hrec, -, hslot⟩ := (TableAt.mk hfilled hhold).slot himage hj
    rw [← baseOf_eq himage hslots] at hslot
    simp only [probed, hx, slotData, hslot, hrec.recordAt_eq, Option.bind_some]

/-- What makes the missing reset of `offset` harmless: the slots behind the
first one after the wrap, which the unmapped path does not get to see, have
nothing that the path does not find in what it looks at instead, which is slot
0 when the table is the last one of the file and nothing of the key otherwise. -/
def WrapHarmless (c : UCDB) (key : Bytes) : Prop :=
  (List.range' 1 (homeSlot c key - 1)).filterMap (slotData c key) =
    if baseOf c key + slotsOf c key * 8 = c.stSize then
      (List.replicate (homeSlot c key - 1) 0).filterMap (slotData c key)
    else []

theorem seen_eq_iff (himage : IsImage c.ignoreCase c.file c.stSize rs) (key : Bytes) :
    (List.range' 0 (slotsOf c key)).filterMap (seen c key) = dataOf c.ignoreCase rs key ↔
      WrapHarmless c key := by
  rw [dataOf_slots himage]
  set n := slotsOf c key with hn
  set h := homeSlot c key with hh
  have hfirst : ∀ t, h + t < n → seen c key t = slotData c key ((h + t) % n) := by
    intro t ht
    rw [seen, ← hn, ← hh, if_pos ht, Nat.mod_eq_of_lt ht]
  rcases Nat.eq_zero_or_pos h with hzero | hpos
  · have hharmless : WrapHarmless c key := by
      simp [WrapHarmless, ← hh, hzero]
    refine iff_of_true (List.filterMap_congr ?_) hharmless
    intro t ht
    have := List.mem_range'_1.mp ht
    exact hfirst t (by omega)
  · have hslots : 0 < n := by
      by_contra hnot
      have : h = 0 := if_pos (by omega)
      omega
    have hlt : h < n := homeSlot_lt hslots
    -- the turns up to the wrap, and those behind it
    have hsplit : List.range' 0 n = List.range' 0 (n - h + 1) ++
        List.range' (n - h + 1) (h - 1) := by
      have := List.range'_append_1 (s := 0) (m := n - h + 1) (n := h - 1)
      rw [Nat.zero_add] at this
      rw [this]
      congr 1
      omega
    have hcommon : (List.range' 0 (n - h + 1)).filterMap (seen c key) =
        (List.range' 0 (n - h + 1)).filterMap fun t => slotData c key ((h + t) % n) := by
      apply List.filterMap_congr
      intro t ht
      have := List.mem_range'_1.mp ht
      rcases Nat.lt_or_ge (h + t) n with hin | hwrap
      · exact hfirst t hin
      · have heq : h + t = n := by omega
        rw [seen, ← hn, ← hh, if_neg (by omega), if_pos (.inl heq), heq, Nat.mod_self]
    have hmapped : ((List.range' (n - h + 1) (h - 1)).filterMap fun t =>
        slotData c key ((h + t) % n)) = (List.range' 1 (h - 1)).filterMap (slotData c key) := by
      have hshift : List.range' (n - h + 1) (h - 1) =
          (List.range' 1 (h - 1)).map fun j => n - h + j :=
        (List.map_add_range' 1 (h - 1) 1).symm
      rw [hshift, List.filterMap_map]
      apply List.filterMap_congr
      intro j hj
      have := List.mem_range'_1.mp hj
      simp only [Function.comp]
      rw [show h + (n - h + j) = j + n by omega, Nat.add_mod_right, Nat.mod_eq_of_lt (by omega)]
    have hunmapped : (List.range' (n - h + 1) (h - 1)).filterMap (seen c key) =
        if baseOf c key + n * 8 = c.stSize then
          (List.replicate (h - 1) 0).filterMap (slotData c key)
        else [] := by
      have hseen : ∀ t ∈ List.range' (n - h + 1) (h - 1), seen c key t =
          if baseOf c key + n * 8 = c.stSize then slotData c key 0 else none := by
        intro t ht
        have := List.mem_range'_1.mp ht
        rw [seen, ← hn, ← hh, if_neg (by omega)]
        simp only [show ¬ h + t = n by omega, false_or]
      rw [List.filterMap_congr hseen]
      split
      · have hconst : List.replicate (h - 1) 0 =
            (List.range' (n - h + 1) (h - 1)).map fun _ => 0 := by
          simp
        rw [hconst, List.filterMap_map]
        rfl
      · simp
    rw [hsplit, List.filterMap_append, List.filterMap_append, hcommon, List.append_right_inj,
      hmapped, hunmapped, WrapHarmless, ← hn, ← hh]
    exact eq_comm

/-- Four records of the key `a`, whose home is slot 2 of 4: the fourth is in
slot 1, the second one after the wrap. -/
def fourRecords : List Record := [⟨[97], [1]⟩, ⟨[97], [2]⟩, ⟨[97], [3]⟩, ⟨[97], [4]⟩]

theorem third_of_four {a b d e : Option Bytes} {w x y z : Bytes}
    (h : [a, b, d, e].filterMap id = [w, x, y, z]) : [a, b, d, d].filterMap id = [w, x, y, y] := by
  rcases a with _ | a <;> rcases b with _ | b <;> rcases d with _ | d <;>
    rcases e with _ | e <;> simp_all

end ULib.CdbAccessPaths
