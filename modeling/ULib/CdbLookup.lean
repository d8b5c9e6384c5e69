import ULib.CdbImage

/-!
`find` and `findNext` as one scan. A cursor in a table of `n` slots has a list
of results still to come; a call returns the head of this list and leaves a
cursor for the tail. What the list is depends only on the slots that the
successive turns of the loop get to see, so the mapped and the unmapped path
differ in nothing but that sequence of slots.
-/

namespace ULib.CdbLookup

open ByteMemory
open KeyComparison
open ConstantDatabase
open ConstantDatabase.Cursor
open CdbImage

/-- A scan of `n` slots: `W t` is the data of the record in the slot seen at
turn `t` when that record has the key, and `I t` holds of the cursor after `t`
turns. -/
structure Scan (c : UCDB) (n : Nat) (W : Nat → Option Bytes) (I : Nat → Cursor → Prop) :
    Prop where
  slots : ∀ t cur, I t cur → hpSlots c cur = n
  loop : ∀ t cur, I t cur → cur.loop = t
  turn : ∀ t < n, ∀ cur, I t cur → ∃ cur', inspectSlot c (nextSlot c cur) =
    (some (W t).isSome, cur') ∧ I (t + 1) cur' ∧ ∀ d, W t = some d → cur'.data = d

/-- The results still to come from a cursor. -/
def Pending (c : UCDB) (n : Nat) (W : Nat → Option Bytes) (I : Nat → Cursor → Prop)
    (cur : Cursor) (l : List Bytes) : Prop :=
  (∃ t ≤ n, I t cur ∧ (List.range' t (n - t)).filterMap W = l) ∨
    (l = [] ∧ hpSlots c cur ≤ cur.loop)

/-- What the loop does with the turns that are left. -/
theorem Scan.findNextLoop {c : UCDB} {n : Nat} {W : Nat → Option Bytes}
    {I : Nat → Cursor → Prop} (hscan : Scan c n W I) (k : Nat) {t : Nat} (hk : t + k = n)
    {cur : Cursor} (hI : I t cur) :
    result (findNextLoop c k cur) = ((List.range' t k).filterMap W).head? ∧
      Pending c n W I (findNextLoop c k cur).2 ((List.range' t k).filterMap W).tail := by
  induction k generalizing t cur with
  | zero =>
      refine ⟨rfl, .inr ⟨rfl, ?_⟩⟩
      have hslots := hscan.slots t cur hI
      have hloop := hscan.loop t cur hI
      change hpSlots c cur ≤ cur.loop + 1
      omega
  | succ k ih =>
      obtain ⟨cur', hturn, hI', hdata⟩ := hscan.turn t (by omega) cur hI
      rw [List.range'_succ, List.filterMap_cons, ConstantDatabase.findNextLoop, hturn]
      cases hW : W t with
      | none => exact ih (by omega) hI'
      | some d =>
          refine ⟨by simp [result, hdata d hW], .inl ⟨t + 1, by omega, hI', ?_⟩⟩
          rw [show n - (t + 1) = k by omega]
          rfl

theorem Scan.findNext {c : UCDB} {n : Nat} {W : Nat → Option Bytes}
    {I : Nat → Cursor → Prop} (hscan : Scan c n W I) {cur : Cursor} {l : List Bytes}
    (hpending : Pending c n W I cur l) :
    result (findNext c cur) = l.head? ∧ Pending c n W I (findNext c cur).2 l.tail := by
  rcases hpending with ⟨t, ht, hI, rfl⟩ | ⟨rfl, hdone⟩
  · rw [ConstantDatabase.findNext, hscan.slots t cur hI, hscan.loop t cur hI]
    exact hscan.findNextLoop (n - t) (by omega) hI
  · have hzero : hpSlots c cur - cur.loop = 0 := by omega
    rw [ConstantDatabase.findNext, hzero]
    refine ⟨rfl, .inr ⟨rfl, ?_⟩⟩
    change hpSlots c cur ≤ cur.loop + 1
    omega

/-- From a cursor whose first call returns the head of `l`, the successive
calls return the entries of `l`. -/
theorem Scan.results {c : UCDB} {n : Nat} {W : Nat → Option Bytes} {I : Nat → Cursor → Prop}
    (hscan : Scan c n W I) {f : Nat → Bool × Cursor}
    (hstep : ∀ i, f (i + 1) = ConstantDatabase.findNext c (f i).2) {l : List Bytes}
    (hfirst : result (f 0) = l.head?) (hpending : Pending c n W I (f 0).2 l.tail) (i : Nat) :
    result (f i) = l[i]? := by
  have hall : ∀ i, result (f i) = l[i]? ∧ Pending c n W I (f i).2 (l.drop (i + 1)) := by
    intro i
    induction i with
    | zero => exact ⟨by rw [hfirst, List.head?_eq_getElem?], by simpa using hpending⟩
    | succ i ih =>
        have hnext := hscan.findNext ih.2
        rw [hstep i]
        refine ⟨?_, ?_⟩
        · rw [hnext.1, List.head?_drop]
        · rw [List.tail_drop] at hnext
          exact hnext.2
  exact (hall i).1

/-! ### Reading without a mapping -/

theorem get_pread {c : UCDB} (buf : Mem) {n offset k : Nat} (hk : k + 4 ≤ n)
    (hend : offset + n ≤ c.stSize) : get (pread c buf n offset) k = get c.file (offset + k) := by
  have h : ∀ j < 4, pread c buf n offset (k + j) = c.file (offset + k + j) := by
    intro j hj
    rw [pread, if_pos (by omega), Nat.add_assoc]
  have h0 := h 0 (by omega)
  rw [Nat.add_zero, Nat.add_zero] at h0
  simp only [ByteMemory.get, h0, h 1 (by omega), h 2 (by omega), h 3 (by omega)]

theorem hpSlots_loadHp {c : UCDB} (cur : Cursor) {offset : Nat} (hend : offset + 8 ≤ c.stSize) :
    hpSlots c (loadHp c cur offset) = get c.file (offset + 4) := by
  cases hmapped : c.mapped with
  | true => simp [hpSlots, loadHp, hmapped]
  | false =>
      simp only [hpSlots, loadHp, hmapped, Bool.false_eq_true, if_false]
      exact get_pread _ (by decide) hend

theorem hpPos_loadHp {c : UCDB} (cur : Cursor) {offset : Nat} (hend : offset + 8 ≤ c.stSize) :
    hpPos c (loadHp c cur offset) = get c.file offset := by
  cases hmapped : c.mapped with
  | true => simp [hpPos, loadHp, hmapped]
  | false =>
      simp only [hpPos, loadHp, hmapped, Bool.false_eq_true, if_false]
      exact get_pread _ (by decide) hend

/-! ### The records a slot leads to -/

/-- The comparison that `findNext` makes: hash, length and bytes. -/
def sameKey (ignoreCase : Bool) (key key' : Bytes) : Bool :=
  decide (cdbHash ignoreCase key' = cdbHash ignoreCase key) &&
    decide (key'.length = key.length) && decide (uEqual key key' key.length ignoreCase = 0)

/-- For keys that can be compared as a whole it is equality, up to case in
case-insensitive mode. -/
theorem sameKey_iff {ignoreCase : Bool} {key : Bytes} (hkey : Comparable ignoreCase key)
    (key' : Bytes) :
    sameKey ignoreCase key key' = true ↔ canon ignoreCase key' = canon ignoreCase key := by
  simp only [sameKey, Bool.and_eq_true, decide_eq_true_eq]
  constructor
  · rintro ⟨⟨_, hlen⟩, heq⟩
    exact ((uEqual_eq_zero hlen.symm hkey).mp heq).symm
  · intro h
    have hlen := length_eq_of_canon h
    exact ⟨⟨congrArg UInt32.toNat (uCdbHash_congr h), hlen⟩,
      (uEqual_eq_zero hlen.symm hkey).mpr h.symm⟩

theorem sameKey_iff_right {ignoreCase : Bool} (key : Bytes) {key' : Bytes}
    (hkey : Comparable ignoreCase key') :
    sameKey ignoreCase key key' = true ↔ canon ignoreCase key = canon ignoreCase key' := by
  constructor
  · intro h
    simp only [sameKey, Bool.and_eq_true, decide_eq_true_eq] at h
    exact (uEqual_eq_zero_right h.1.2.symm hkey).mp h.2
  · intro h
    exact (sameKey_iff (hkey.congr h) key').mpr h.symm

/-- What a slot with the record `x` contributes to the results for `key`. -/
def dataFor (ignoreCase : Bool) (key : Bytes) (x : Nat × Record) : Option Bytes :=
  if sameKey ignoreCase key x.2.key then some x.2.data else none

theorem inspectSlot_mapped {c : UCDB} (hmapped : c.mapped = true) {cur : Cursor}
    (hkhash : cur.khash = cdbHash c.ignoreCase cur.key) {x : Nat × Record} (hpos : x.1 ≠ 0)
    (hhash : get c.file cur.slot = hashOf c.ignoreCase x)
    (hslot : get c.file (cur.slot + 4) = x.1) (hrec : HoldsRecord c.file x.1 x.2) :
    ∃ hr data, inspectSlot c cur =
        (some (dataFor c.ignoreCase cur.key x).isSome, { cur with hr := hr, data := data }) ∧
      ∀ d, dataFor c.ignoreCase cur.key x = some d → data = d := by
  obtain ⟨hk, hd, hkey, hdata⟩ := hrec
  simp only [inspectSlot, slotPos, slotHash, hmapped, if_true, hslot, hpos, if_false, hhash,
    loadHr, hrKlen, matchRecord, hrDlen, hk, hd]
  unfold dataFor sameKey
  simp only [hashOf, ← hkhash]
  by_cases hh : cdbHash c.ignoreCase x.2.key = cur.khash
  · simp only [hh, if_true, decide_true, Bool.true_and]
    by_cases hl : x.2.key.length = cur.key.length
    · simp only [hl, if_true, decide_true, Bool.true_and]
      rw [hl] at hkey hdata
      rw [hkey, hdata]
      by_cases he : uEqual cur.key x.2.key cur.key.length c.ignoreCase = 0
      · simp only [he, if_true, decide_true]
        exact ⟨_, _, rfl, fun d hd => Option.some.inj hd⟩
      · simp only [he, if_false, decide_false, Bool.false_eq_true]
        exact ⟨_, cur.data, rfl, fun d hd => by simp at hd⟩
    · simp only [hl, if_false, decide_false, Bool.false_and, Bool.false_eq_true]
      exact ⟨_, cur.data, rfl, fun d hd => by simp at hd⟩
  · simp only [hh, if_false, decide_false, Bool.false_and, Bool.false_eq_true]
    exact ⟨cur.hr, cur.data, rfl, fun d hd => by simp at hd⟩

/-! ### The mapped path -/

/-- Table `i` of the image, as the code finds it. -/
structure TableAt (c : UCDB) (rs : List Record) (i : Nat)
    (T : LinearProbing.Table (Nat × Record)) : Prop where
  filled : LinearProbing.Filled (bucket c.ignoreCase (placed dataStart rs) i).length
    (homeOf c.ignoreCase (bucket c.ignoreCase (placed dataStart rs) i).length)
    (bucket c.ignoreCase (placed dataStart rs) i) T
  hold : SlotsHold c.ignoreCase c.file
    (dataStart + totalSize rs + 8 * slotsBefore c.ignoreCase (placed dataStart rs) i)
    (bucket c.ignoreCase (placed dataStart rs) i).length T

/-- Every slot of a table leads to a record of the table. -/
theorem TableAt.slot {c : UCDB} {rs : List Record} {i : Nat}
    {T : LinearProbing.Table (Nat × Record)} (hT : TableAt c rs i T)
    (himage : IsImage c.ignoreCase c.file c.stSize rs) {j : Nat}
    (hj : j < (bucket c.ignoreCase (placed dataStart rs) i).length) :
    ∃ x, T j = some x ∧ x ∈ bucket c.ignoreCase (placed dataStart rs) i ∧ x.1 ≠ 0 ∧
      HoldsRecord c.file x.1 x.2 ∧
      get c.file (dataStart + totalSize rs +
        8 * slotsBefore c.ignoreCase (placed dataStart rs) i + j * 8) = hashOf c.ignoreCase x ∧
      get c.file (dataStart + totalSize rs +
        8 * slotsBefore c.ignoreCase (placed dataStart rs) i + j * 8 + 4) = x.1 := by
  obtain ⟨x, hx⟩ := Option.isSome_iff_exists.mp (hT.filled.full rfl j hj)
  have hmem := hT.filled.mem_of_slot hj hx
  have hplaced : x ∈ placed dataStart rs := List.mem_of_mem_filter hmem
  have hhold := hT.hold j hj
  simp only [hx] at hhold
  have hfits := himage.fits
  have hsize := himage.size_eq
  exact ⟨x, hx, hmem, (placed_pos (by omega) hplaced).1, himage.stored.holds hplaced, hhold⟩

/-- The slots behind the records, counted through all the tables: the table of
slot `g` is the one whose slots are around `g`. -/
theorem slot_at {ignoreCase : Bool} {m : Mem} {size : Nat} {rs : List Record}
    (himage : IsImage ignoreCase m size rs) {g : Nat} (hg : g < rs.length) :
    ∃ x ∈ placed dataStart rs, x.1 ≠ 0 ∧ HoldsRecord m x.1 x.2 ∧
      get m (dataStart + totalSize rs + g * 8) = hashOf ignoreCase x ∧
      get m (dataStart + totalSize rs + g * 8 + 4) = x.1 ∧
      slotsBefore ignoreCase (placed dataStart rs) (indexOf ignoreCase x) ≤ g ∧
      g < slotsBefore ignoreCase (placed dataStart rs) (indexOf ignoreCase x + 1) := by
  -- the last table that starts at or before `g`
  have htable : ∀ k, g < slotsBefore ignoreCase (placed dataStart rs) k → ∃ i < k,
      slotsBefore ignoreCase (placed dataStart rs) i ≤ g ∧
        g < slotsBefore ignoreCase (placed dataStart rs) (i + 1) := by
    intro k
    induction k with
    | zero => intro h; simp [slotsBefore_zero] at h
    | succ k ih =>
        intro h
        by_cases hk : g < slotsBefore ignoreCase (placed dataStart rs) k
        · obtain ⟨i, hi, hbounds⟩ := ih hk
          exact ⟨i, by omega, hbounds⟩
        · exact ⟨k, by omega, by omega, h⟩
  obtain ⟨i, hi, hlo, hhi⟩ := htable numHashTablePointer (by
    rwa [slotsBefore_all, length_placed])
  obtain ⟨T, hfilled, hhold⟩ := himage.table i hi
  have hsucc := slotsBefore_succ ignoreCase (placed dataStart rs) i
  have hj : g - slotsBefore ignoreCase (placed dataStart rs) i <
      (bucket ignoreCase (placed dataStart rs) i).length := by
    omega
  obtain ⟨x, hx⟩ := Option.isSome_iff_exists.mp (hfilled.full rfl _ hj)
  have hmem := hfilled.mem_of_slot hj hx
  have hplaced : x ∈ placed dataStart rs := List.mem_of_mem_filter hmem
  have hindex : indexOf ignoreCase x = i := by simpa using (List.mem_filter.mp hmem).2
  have hslot := hhold _ hj
  simp only [hx] at hslot
  have haddr : dataStart + totalSize rs + 8 * slotsBefore ignoreCase (placed dataStart rs) i +
      (g - slotsBefore ignoreCase (placed dataStart rs) i) * 8 =
      dataStart + totalSize rs + g * 8 := by
    omega
  rw [haddr] at hslot
  have hfits := himage.fits
  have hsize := himage.size_eq
  exact ⟨x, hplaced, (placed_pos (by omega) hplaced).1, himage.stored.holds hplaced, hslot.1,
    hslot.2, by rwa [hindex], by rwa [hindex]⟩

/-- Data of the matching records in the slots that a probe from `h` visits. -/
def probed (ignoreCase : Bool) (key : Bytes) (T : LinearProbing.Table (Nat × Record))
    (n h t : Nat) : Option Bytes :=
  (T ((h + t) % n)).bind (dataFor ignoreCase key)

/-- A mapped cursor after `t` turns in the table at `base`. -/
structure MappedAt (c : UCDB) (key : Bytes) (base n h t : Nat) (cur : Cursor) : Prop where
  key_eq : cur.key = key
  khash : cur.khash = cdbHash c.ignoreCase key
  pos : hpPos c cur = base
  slots : hpSlots c cur = n
  loop : cur.loop = t
  nslot : cur.nslot = (h + (t - 1)) % n
  slot : cur.slot = base + (h + (t - 1)) % n * 8

theorem MappedAt.nextSlot {c : UCDB} (hmapped : c.mapped = true) {key : Bytes}
    {base n h t : Nat} (hh : h < n) {cur : Cursor} (hcur : MappedAt c key base n h t cur) :
    MappedAt c key base n h (t + 1) (nextSlot c cur) := by
  obtain ⟨hkey, hkhash, hpos, hslots, hloop, hnslot, hslot⟩ := hcur
  have hmod : (h + (t - 1)) % n < n := Nat.mod_lt _ (by omega)
  simp only [hpPos, hpSlots, hmapped, if_true] at hpos hslots
  rcases t with _ | t
  · simp only [ConstantDatabase.nextSlot, hloop, Nat.zero_add, gt_iff_lt, lt_irrefl, if_false]
    exact ⟨hkey, hkhash, by simpa [hpPos, hmapped], by simpa [hpSlots, hmapped], rfl,
      by simpa using hnslot, by simpa using hslot⟩
  · simp only [Nat.add_sub_cancel] at hnslot hslot hmod
    have hnext : LinearProbing.next n ((h + t) % n) = (h + (t + 1)) % n := by
      have h1 := LinearProbing.next_mod (n := n) (j := (h + t) % n) (d := 0)
      have h2 := LinearProbing.next_lt (n := n) hmod
      rw [Nat.add_zero, Nat.mod_eq_of_lt h2] at h1
      rw [h1, Nat.mod_add_mod, Nat.zero_add, Nat.add_assoc]
    have hloop' : cur.loop + 1 > 1 := by omega
    simp only [ConstantDatabase.nextSlot, hloop', if_true, advance, hpSlots, hpPos, hmapped,
      loadSlot, hslots, hpos, hnslot]
    unfold LinearProbing.next at hnext
    split
    · next hend =>
      rw [if_pos hend] at hnext
      refine ⟨hkey, hkhash, by simpa [hpPos, hmapped], by simpa [hpSlots, hmapped], ?_, ?_, ?_⟩
      · simp [hloop]
      · simpa using hnext
      · simp [← hnext]
    · next hend =>
      rw [if_neg hend] at hnext
      refine ⟨hkey, hkhash, by simpa [hpPos, hmapped], by simpa [hpSlots, hmapped], ?_, ?_, ?_⟩
      · simp [hloop]
      · simpa using hnext
      · simp only [Nat.add_sub_cancel, ← hnext, hslot, sizeofHashTableSlot]
        omega

theorem mapped_scan {c : UCDB} (hmapped : c.mapped = true) {rs : List Record}
    (himage : IsImage c.ignoreCase c.file c.stSize rs) {i : Nat}
    {T : LinearProbing.Table (Nat × Record)} (hT : TableAt c rs i T) (key : Bytes) {h : Nat}
    (hh : h < (bucket c.ignoreCase (placed dataStart rs) i).length) :
    Scan c (bucket c.ignoreCase (placed dataStart rs) i).length
      (probed c.ignoreCase key T (bucket c.ignoreCase (placed dataStart rs) i).length h)
      (MappedAt c key
        (dataStart + totalSize rs + 8 * slotsBefore c.ignoreCase (placed dataStart rs) i)
        (bucket c.ignoreCase (placed dataStart rs) i).length h) where
  slots := fun _ _ hcur => hcur.slots
  loop := fun _ _ hcur => hcur.loop
  turn := by
    intro t ht cur hcur
    have hnext := hcur.nextSlot hmapped hh
    have hj : (h + t) % (bucket c.ignoreCase (placed dataStart rs) i).length <
        (bucket c.ignoreCase (placed dataStart rs) i).length := Nat.mod_lt _ (by omega)
    obtain ⟨x, hx, -, hpos, hrec, hhash, hslot⟩ := hT.slot himage hj
    have haddr := hnext.slot
    rw [Nat.add_sub_cancel] at haddr
    have hkhash : (ConstantDatabase.nextSlot c cur).khash =
        cdbHash c.ignoreCase (ConstantDatabase.nextSlot c cur).key := by
      rw [hnext.khash, hnext.key_eq]
    obtain ⟨hr, data, hinspect, hdata⟩ :=
      inspectSlot_mapped hmapped hkhash hpos (haddr ▸ hhash) (haddr ▸ hslot) hrec
    have hW : probed c.ignoreCase key T (bucket c.ignoreCase (placed dataStart rs) i).length h t =
        dataFor c.ignoreCase (ConstantDatabase.nextSlot c cur).key x := by
      unfold probed
      rw [hx, hnext.key_eq]
      rfl
    rw [hW]
    exact ⟨_, hinspect, ⟨hnext.key_eq, hnext.khash, hnext.pos, hnext.slots, hnext.loop, hnext.nslot,
      hnext.slot⟩, hdata⟩

/-! ### What the mapped path returns -/

/-- Data of the records that `find` and `findNext` accept for `key`. -/
def dataOf (ignoreCase : Bool) (rs : List Record) (key : Bytes) : List Bytes :=
  (rs.filter fun r => sameKey ignoreCase key r.key).map Record.data

theorem dataOf_congr {ignoreCase : Bool} {k k' : Bytes}
    (h : canon ignoreCase k = canon ignoreCase k') (rs : List Record) :
    dataOf ignoreCase rs k = dataOf ignoreCase rs k' := by
  have hsame : ∀ key, sameKey ignoreCase k key = sameKey ignoreCase k' key := by
    intro key
    have hhash : cdbHash ignoreCase k = cdbHash ignoreCase k' := by
      rw [cdbHash, uCdbHash_congr h]
      rfl
    simp only [sameKey, hhash, length_eq_of_canon h, uEqual_congr h]
  simp only [dataOf, hsame]

theorem filterMap_dataFor (ignoreCase : Bool) (key : Bytes) (xs : List (Nat × Record)) :
    xs.filterMap (dataFor ignoreCase key) =
      (xs.filter fun x => sameKey ignoreCase key x.2.key).map fun x => x.2.data := by
  induction xs with
  | nil => rfl
  | cons x xs ih =>
      rw [List.filterMap_cons, List.filter_cons]
      unfold dataFor at ih ⊢
      split <;> simp_all

theorem dataOf_eq (ignoreCase : Bool) (rs : List Record) (key : Bytes) (p : Nat) :
    dataOf ignoreCase rs key = (placed p rs).filterMap (dataFor ignoreCase key) := by
  rw [filterMap_dataFor]
  unfold dataOf
  conv_lhs => rw [← map_snd_placed p rs, List.filter_map, List.map_map]
  rfl

theorem hash_of_sameKey {ignoreCase : Bool} {key key' : Bytes}
    (h : sameKey ignoreCase key key' = true) :
    cdbHash ignoreCase key' = cdbHash ignoreCase key := by
  simp only [sameKey, Bool.and_eq_true, decide_eq_true_eq] at h
  exact h.1.1

/-- A record with the key is in the table of the key. -/
theorem bucket_dataFor (ignoreCase : Bool) (key : Bytes) (xs : List (Nat × Record)) :
    (bucket ignoreCase xs (cdbHash ignoreCase key % numHashTablePointer)).filterMap
        (dataFor ignoreCase key) = xs.filterMap (dataFor ignoreCase key) := by
  rw [filterMap_dataFor, filterMap_dataFor, bucket, List.filter_filter]
  congr 1
  apply List.filter_congr
  intro x _
  cases hkey : sameKey ignoreCase key x.2.key with
  | false => simp
  | true => simp [indexOf, hashOf, hash_of_sameKey hkey]

/-- One round from the home slot of the key meets the records of the key in
the order in which they were added. -/
theorem probed_round {ignoreCase : Bool} {n : Nat} {xs : List (Nat × Record)}
    {T : LinearProbing.Table (Nat × Record)}
    (hT : LinearProbing.Filled n (homeOf ignoreCase n) xs T) (hn : 0 < n) (key : Bytes) :
    (List.range' 0 n).filterMap
        (probed ignoreCase key T n (cdbHash ignoreCase key / numHashTablePointer % n)) =
      xs.filterMap (dataFor ignoreCase key) := by
  set h := cdbHash ignoreCase key / numHashTablePointer % n with hh
  have horder := hT.order h (Nat.mod_lt _ hn) (fun x => sameKey ignoreCase key x.2.key) (by
    intro x _ hkey
    rw [homeOf, hashOf, hash_of_sameKey hkey])
  calc (List.range' 0 n).filterMap (probed ignoreCase key T n h)
      = ((LinearProbing.round n h).filterMap T).filterMap (dataFor ignoreCase key) := by
        rw [LinearProbing.round, List.filterMap_map, List.filterMap_filterMap,
          List.range_eq_range']
        rfl
    _ = xs.filterMap (dataFor ignoreCase key) := by
        rw [filterMap_dataFor, horder, filterMap_dataFor]

/-- The cursor that `find` hands to `findNext`. -/
theorem findKey_mapped {c : UCDB} (hmapped : c.mapped = true) {rs : List Record}
    (himage : IsImage c.ignoreCase c.file c.stSize rs) (cur : Cursor) (key : Bytes)
    (hne : bucket c.ignoreCase (placed dataStart rs)
      (cdbHash c.ignoreCase key % numHashTablePointer) ≠ []) :
    ∃ cur₀, findKey c cur key = findNext c cur₀ ∧
      MappedAt c key (dataStart + totalSize rs + 8 * slotsBefore c.ignoreCase
          (placed dataStart rs) (cdbHash c.ignoreCase key % numHashTablePointer))
        (bucket c.ignoreCase (placed dataStart rs)
          (cdbHash c.ignoreCase key % numHashTablePointer)).length
        (cdbHash c.ignoreCase key / numHashTablePointer % (bucket c.ignoreCase
          (placed dataStart rs) (cdbHash c.ignoreCase key % numHashTablePointer)).length)
        0 cur₀ := by
  set i := cdbHash c.ignoreCase key % numHashTablePointer with hi
  set n := (bucket c.ignoreCase (placed dataStart rs) i).length with hn
  set h := cdbHash c.ignoreCase key / numHashTablePointer % n with hh
  have hilt : i < numHashTablePointer := Nat.mod_lt _ (by decide)
  have hpos : 0 < n := List.length_pos_of_ne_nil hne
  have hlt : h < n := Nat.mod_lt _ hpos
  have hrs : rs ≠ [] := by
    rintro rfl
    exact hne rfl
  have hle := slotsBefore_bucket_le c.ignoreCase (placed dataStart rs) hilt
  rw [length_placed, ← hn] at hle
  have hsize := himage.size_eq
  have hfits := himage.fits
  obtain ⟨T, hfilled, hhold⟩ := himage.table i hilt
  obtain ⟨x, hx, -, hx0, -, -, hslot⟩ := (TableAt.mk hfilled hhold).slot himage hlt
  have hbase : (dataStart + totalSize rs +
      8 * slotsBefore c.ignoreCase (placed dataStart rs) i + h * 8) % 2 ^ 32 =
      dataStart + totalSize rs + 8 * slotsBefore c.ignoreCase (placed dataStart rs) i + h * 8 :=
    Nat.mod_eq_of_lt (by omega)
  have hne0 : n ≠ 0 := by omega
  have hx0' : get c.file (dataStart + totalSize rs +
      8 * slotsBefore c.ignoreCase (placed dataStart rs) i + h * 8 + 4) ≠ 0 := by
    rwa [hslot]
  simp only [findKey, find, loadHp, hpSlots, hpPos, hmapped, if_true, sizeofHashTablePointer,
    sizeofHashTableSlot, ← hi, himage.slots i hilt, himage.pointer hrs i hilt, ← hn, ← hh, hbase,
    loadSlot, slotPos, ne_eq, hne0, not_false_eq_true, hx0']
  refine ⟨_, rfl, ⟨rfl, rfl, ?_, ?_, rfl, ?_, ?_⟩⟩
  · simp only [hpPos, hmapped, if_true]
    exact himage.pointer hrs i hilt
  · simp only [hpSlots, hmapped, if_true]
    exact himage.slots i hilt
  · simp [Nat.mod_eq_of_lt hlt]
  · simp [Nat.mod_eq_of_lt hlt]

/-- `find` when the table of the key is empty. -/
theorem findKey_empty {c : UCDB} {rs : List Record}
    (himage : IsImage c.ignoreCase c.file c.stSize rs) (cur : Cursor) (key : Bytes)
    (hempty : bucket c.ignoreCase (placed dataStart rs)
      (cdbHash c.ignoreCase key % numHashTablePointer) = []) :
    (findKey c cur key).1 = false ∧ hpSlots c (findKey c cur key).2 = 0 := by
  have hilt : cdbHash c.ignoreCase key % numHashTablePointer < numHashTablePointer :=
    Nat.mod_lt _ (by decide)
  have hslots := himage.slots _ hilt
  rw [hempty, List.length_nil] at hslots
  have hsize := himage.size_eq
  have h512 : numHashTablePointer = 512 := rfl
  have h8 : sizeofHashTablePointer = 8 := rfl
  have h4096 : dataStart = 4096 := rfl
  have hend : cdbHash c.ignoreCase key % numHashTablePointer * sizeofHashTablePointer + 8 ≤
      c.stSize := by
    rw [h8]
    omega
  have hzero := fun cur => (hpSlots_loadHp cur hend).trans hslots
  simp only [findKey, find, hzero, ne_eq, not_true_eq_false, if_false, and_self]

theorem empty_results {c : UCDB} {rs : List Record}
    (himage : IsImage c.ignoreCase c.file c.stSize rs) (cur : Cursor) (key : Bytes)
    (hempty : bucket c.ignoreCase (placed dataStart rs)
      (cdbHash c.ignoreCase key % numHashTablePointer) = []) (k : Nat) :
    result (findSeq c cur key k) = [][k]? := by
  obtain ⟨hfalse, hzero⟩ := findKey_empty himage cur key hempty
  have hscan : Scan c 0 (fun _ => none) fun _ _ => False :=
    ⟨fun _ _ h => h.elim, fun _ _ h => h.elim, fun _ h => absurd h (by omega)⟩
  refine hscan.results (f := findSeq c cur key) (fun _ => rfl) ?_ (.inr ⟨rfl, ?_⟩) k
  · simp [findSeq, result, hfalse]
  · simp [findSeq, hzero]

/-- On a mapped image the calls return the data of the records with the key,
in the order in which the records were added. -/
theorem mapped_results {c : UCDB} (hmapped : c.mapped = true) {rs : List Record}
    (himage : IsImage c.ignoreCase c.file c.stSize rs) (cur : Cursor) (key : Bytes) (k : Nat) :
    result (findSeq c cur key k) = (dataOf c.ignoreCase rs key)[k]? := by
  set i := cdbHash c.ignoreCase key % numHashTablePointer with hi
  have hilt : i < numHashTablePointer := Nat.mod_lt _ (by decide)
  obtain ⟨T, hfilled, hhold⟩ := himage.table i hilt
  have hbucket := bucket_dataFor c.ignoreCase key (placed dataStart rs)
  rw [← dataOf_eq, ← hi] at hbucket
  by_cases hne : bucket c.ignoreCase (placed dataStart rs) i = []
  · rw [hne] at hbucket
    rw [← hbucket]
    exact empty_results himage cur key hne k
  · have hpos := List.length_pos_of_ne_nil hne
    obtain ⟨cur₀, hfind, hcur₀⟩ := findKey_mapped hmapped himage cur key hne
    have hscan := mapped_scan hmapped himage (TableAt.mk hfilled hhold) key
      (Nat.mod_lt (cdbHash c.ignoreCase key / numHashTablePointer) hpos)
    have hround := probed_round hfilled hpos key
    have hfirst := hscan.findNext (.inl ⟨0, Nat.zero_le _, hcur₀, rfl⟩)
    rw [Nat.sub_zero, hround, hbucket, ← hfind] at hfirst
    exact hscan.results (f := findSeq c cur key) (fun _ => rfl) hfirst.1 hfirst.2 k

end ULib.CdbLookup
