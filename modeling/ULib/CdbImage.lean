import ULib.ConstantDatabase

/-!
What `makeStart`, `makeAdd` and `makeFinish` leave in the file. `IsImage`
describes the finished file: the records one after the other, and 512 hash
tables in which every slot is used.
-/

namespace ULib.CdbImage

open ByteMemory
open KeyComparison
open ConstantDatabase
open LinearProbing (Filled place round search)

/-- Where the records start: behind the 512 pointers. -/
def dataStart : Nat := numHashTablePointer * sizeofHashTablePointer

def recordSize (r : Record) : Nat := sizeofRecordHeader + r.key.length + r.data.length

def totalSize (rs : List Record) : Nat := (rs.map recordSize).sum

/-- The records with their addresses. -/
def placed : Nat → List Record → List (Nat × Record)
  | _, [] => []
  | p, r :: rs => (p, r) :: placed (p + recordSize r) rs

def HoldsRecord (m : Mem) (p : Nat) (r : Record) : Prop :=
  get m p = r.key.length ∧ get m (p + 4) = r.data.length ∧
    read m (p + sizeofRecordHeader) r.key.length = r.key ∧
    read m (p + sizeofRecordHeader + r.key.length) r.data.length = r.data

/-- The records are in memory one after the other from `p` on. -/
def Stored (m : Mem) : Nat → List Record → Prop
  | _, [] => True
  | p, r :: rs => HoldsRecord m p r ∧ Stored m (p + recordSize r) rs

@[simp] theorem dataStart_eq : dataStart = 4096 := rfl

@[simp] theorem totalSize_nil : totalSize [] = 0 := rfl

@[simp] theorem totalSize_cons (r : Record) (rs : List Record) :
    totalSize (r :: rs) = recordSize r + totalSize rs := by
  simp [totalSize]

@[simp] theorem totalSize_append (rs rs' : List Record) :
    totalSize (rs ++ rs') = totalSize rs + totalSize rs' := by
  simp [totalSize]

theorem recordSize_pos (r : Record) : 8 ≤ recordSize r := by
  unfold recordSize sizeofRecordHeader
  omega

theorem length_le_totalSize (rs : List Record) : 8 * rs.length ≤ totalSize rs := by
  induction rs with
  | nil => simp
  | cons r rs ih =>
      have := recordSize_pos r
      simp only [List.length_cons, totalSize_cons]
      omega

@[simp] theorem length_placed (p : Nat) (rs : List Record) :
    (placed p rs).length = rs.length := by
  induction rs generalizing p with
  | nil => rfl
  | cons r rs ih => simp [placed, ih]

@[simp] theorem map_snd_placed (p : Nat) (rs : List Record) :
    (placed p rs).map Prod.snd = rs := by
  induction rs generalizing p with
  | nil => rfl
  | cons r rs ih => simp [placed, ih]

theorem placed_bounds {p : Nat} {rs : List Record} {x : Nat × Record} (hx : x ∈ placed p rs) :
    p ≤ x.1 ∧ x.1 + recordSize x.2 ≤ p + totalSize rs := by
  induction rs generalizing p with
  | nil => simp [placed] at hx
  | cons r rs ih =>
      simp only [placed, List.mem_cons] at hx
      rw [totalSize_cons]
      rcases hx with rfl | hx
      · simp
      · have := ih hx
        omega

theorem HoldsRecord.congr {m m' : Mem} {p : Nat} {r : Record} (h : HoldsRecord m p r)
    (hagree : Agree m' m p (recordSize r)) : HoldsRecord m' p r := by
  have hsize : recordSize r = sizeofRecordHeader + r.key.length + r.data.length := rfl
  have h8 : sizeofRecordHeader = 8 := rfl
  obtain ⟨hk, hd, hkey, hdata⟩ := h
  refine ⟨?_, ?_, ?_, ?_⟩
  · rw [(hagree.mono (by omega) (by omega)).get_eq, hk]
  · rw [(hagree.mono (by omega) (by omega)).get_eq, hd]
  · rw [(hagree.mono (by omega) (by omega)).read_eq, hkey]
  · rw [(hagree.mono (by omega) (by omega)).read_eq, hdata]

theorem HoldsRecord.recordAt_eq {m : Mem} {p : Nat} {r : Record} (h : HoldsRecord m p r) :
    recordAt m p = r := by
  obtain ⟨hk, hd, hkey, hdata⟩ := h
  simp only [recordAt, hk, hd, hkey, hdata]

theorem Stored.congr {m m' : Mem} {rs : List Record} {p : Nat} (h : Stored m p rs)
    (hagree : Agree m' m p (totalSize rs)) : Stored m' p rs := by
  induction rs generalizing p with
  | nil => trivial
  | cons r rs ih =>
      rw [totalSize_cons] at hagree
      exact ⟨h.1.congr (hagree.mono (by omega) (by omega)),
        ih h.2 (hagree.mono (by omega) (by omega))⟩

theorem Stored.append {m : Mem} {rs rs' : List Record} {p : Nat} :
    Stored m p (rs ++ rs') ↔ Stored m p rs ∧ Stored m (p + totalSize rs) rs' := by
  induction rs generalizing p with
  | nil => simp [Stored]
  | cons r rs ih =>
      simp only [List.cons_append, Stored, ih, totalSize_cons, Nat.add_assoc, and_assoc]

theorem Stored.holds {m : Mem} {rs : List Record} {p : Nat} (h : Stored m p rs)
    {x : Nat × Record} (hx : x ∈ placed p rs) : HoldsRecord m x.1 x.2 := by
  induction rs generalizing p with
  | nil => simp [placed] at hx
  | cons r rs ih =>
      simp only [placed, List.mem_cons] at hx
      rcases hx with rfl | hx
      · exact h.1
      · exact ih h.2 hx

/-! ### Adding records -/

theorem makeAdd_holds (c : UCDB) (r : Record) (hsize : recordSize r < 2 ^ 32) :
    HoldsRecord (makeAdd c r).file c.hr r := by
  have hrec : recordSize r = 8 + r.key.length + r.data.length := rfl
  have h8 : sizeofRecordHeader = 8 := rfl
  simp only [makeAdd, h8]
  refine ⟨?_, ?_, ?_, ?_⟩
  · rw [get_write_apart _ _ (.inr (by omega)), get_write_apart _ _ (.inr (by omega)),
      get_put_apart _ _ (.inr (by omega)), get_put_of_lt _ _ (by omega)]
  · rw [get_write_apart _ _ (.inr (by omega)), get_write_apart _ _ (.inr (by omega)),
      get_put_of_lt _ _ (by omega)]
  · rw [h8, read_write_apart _ _ (.inr (by omega)), read_write_same]
  · rw [h8, read_write_same]

theorem makeAdd_frame (c : UCDB) (r : Record) : Agree (makeAdd c r).file c.file 0 c.hr := by
  have h8 : sizeofRecordHeader = 8 := rfl
  simp only [makeAdd, h8]
  refine (write_agree _ _ _ (.inr (by omega))).trans ?_
  refine (write_agree _ _ _ (.inr (by omega))).trans ?_
  exact (put_agree _ _ _ (.inr (by omega))).trans (put_agree _ _ _ (.inr (by omega)))

/-- Nothing behind the record is touched either. -/
theorem makeAdd_frame_behind (c : UCDB) (r : Record) (n : Nat) :
    Agree (makeAdd c r).file c.file (c.hr + recordSize r) n := by
  have hrec : recordSize r = 8 + r.key.length + r.data.length := rfl
  have h8 : sizeofRecordHeader = 8 := rfl
  simp only [makeAdd, h8]
  refine (write_agree _ _ _ (.inl (by omega))).trans ?_
  refine (write_agree _ _ _ (.inl (by omega))).trans ?_
  exact (put_agree _ _ _ (.inl (by omega))).trans (put_agree _ _ _ (.inl (by omega)))

/-- A database under construction that holds the records `rs`. -/
structure Adding (c : UCDB) (rs : List Record) : Prop where
  stored : Stored c.file dataStart rs
  hr : c.hr = dataStart + totalSize rs
  nrecord : c.nrecord = rs.length

theorem makeStart_adding (c : UCDB) : Adding (makeStart c) [] :=
  ⟨trivial, rfl, rfl⟩

theorem Adding.makeAdd {c : UCDB} {rs : List Record} (h : Adding c rs) {r : Record}
    (hsize : recordSize r < 2 ^ 32) : Adding (makeAdd c r) (rs ++ [r]) := by
  refine ⟨?_, ?_, ?_⟩
  · rw [Stored.append, ← h.hr]
    refine ⟨h.stored.congr ((makeAdd_frame c r).mono (by omega) (by have := h.hr; omega)), ?_⟩
    exact ⟨makeAdd_holds c r hsize, trivial⟩
  · simp [ConstantDatabase.makeAdd, h.hr, recordSize, Nat.add_assoc]
  · simp [ConstantDatabase.makeAdd, h.nrecord]

theorem Adding.foldl {c : UCDB} (rs' : List Record) {rs : List Record} (h : Adding c rs)
    (hsize : totalSize rs' < 2 ^ 32) :
    Adding (rs'.foldl ConstantDatabase.makeAdd c) (rs ++ rs') := by
  induction rs' generalizing c rs with
  | nil => simpa using h
  | cons r rs' ih =>
      rw [totalSize_cons] at hsize
      have hstep := h.makeAdd (r := r) (by omega)
      simpa using ih hstep (by omega)

/-! ### The hash tables -/

def hashOf (ignoreCase : Bool) (x : Nat × Record) : Nat := cdbHash ignoreCase x.2.key

def indexOf (ignoreCase : Bool) (x : Nat × Record) : Nat :=
  hashOf ignoreCase x % numHashTablePointer

def toTmp (ignoreCase : Bool) (x : Nat × Record) : Tmp :=
  ⟨hashOf ignoreCase x, x.1, indexOf ignoreCase x⟩

/-- The entries of table `i`, in the order of the file. -/
def bucket (ignoreCase : Bool) (xs : List (Nat × Record)) (i : Nat) : List (Nat × Record) :=
  xs.filter fun x => decide (indexOf ignoreCase x = i)

/-- Number of slots in the tables before table `i`. -/
def slotsBefore (ignoreCase : Bool) (xs : List (Nat × Record)) (i : Nat) : Nat :=
  xs.countP fun x => decide (indexOf ignoreCase x < i)

/-- Home slot in a table of `n` slots. -/
def homeOf (ignoreCase : Bool) (n : Nat) (x : Nat × Record) : Nat :=
  hashOf ignoreCase x / numHashTablePointer % n

theorem indexOf_lt (ignoreCase : Bool) (x : Nat × Record) :
    indexOf ignoreCase x < numHashTablePointer :=
  Nat.mod_lt _ (by decide)

theorem bucket_cons (ignoreCase : Bool) (x : Nat × Record) (xs : List (Nat × Record)) (i : Nat) :
    bucket ignoreCase (x :: xs) i =
      if indexOf ignoreCase x = i then x :: bucket ignoreCase xs i
      else bucket ignoreCase xs i := by
  simp [bucket, List.filter_cons]

theorem slotsBefore_zero (ignoreCase : Bool) (xs : List (Nat × Record)) :
    slotsBefore ignoreCase xs 0 = 0 := by
  simp [slotsBefore]

theorem slotsBefore_succ (ignoreCase : Bool) (xs : List (Nat × Record)) (i : Nat) :
    slotsBefore ignoreCase xs (i + 1) =
      slotsBefore ignoreCase xs i + (bucket ignoreCase xs i).length := by
  induction xs with
  | nil => rfl
  | cons x xs ih =>
      rw [bucket_cons]
      simp only [slotsBefore, List.countP_cons, decide_eq_true_eq] at ih ⊢
      rcases Nat.lt_trichotomy (indexOf ignoreCase x) i with h | h | h
      · rw [if_pos (by omega), if_pos h, if_neg (by omega)]
        omega
      · rw [if_pos (by omega), if_neg (by omega), if_pos h, List.length_cons]
        omega
      · rw [if_neg (by omega), if_neg (by omega), if_neg (by omega)]
        omega

theorem slotsBefore_mono (ignoreCase : Bool) (xs : List (Nat × Record)) {i j : Nat}
    (hij : i ≤ j) : slotsBefore ignoreCase xs i ≤ slotsBefore ignoreCase xs j := by
  apply List.countP_mono_left
  intro x _ hx
  simp only [decide_eq_true_eq] at hx ⊢
  omega

theorem slotsBefore_all (ignoreCase : Bool) (xs : List (Nat × Record)) :
    slotsBefore ignoreCase xs numHashTablePointer = xs.length := by
  rw [slotsBefore, List.countP_eq_length]
  intro x _
  simpa using indexOf_lt ignoreCase x

theorem slotsBefore_bucket_le (ignoreCase : Bool) (xs : List (Nat × Record)) {i : Nat}
    (hi : i < numHashTablePointer) :
    slotsBefore ignoreCase xs i + (bucket ignoreCase xs i).length ≤ xs.length := by
  rw [← slotsBefore_succ, ← slotsBefore_all ignoreCase xs]
  exact slotsBefore_mono ignoreCase xs (by omega)

/-- What the first loop of `makeFinish` returns and does to the pointers. -/
structure Hashed (ignoreCase : Bool) (xs : List (Nat × Record)) (m : Mem)
    (out : List Tmp × Mem) : Prop where
  tmp : out.1 = xs.map (toTmp ignoreCase)
  frame : ∀ x, dataStart ≤ x → out.2 x = m x
  slots : ∀ i < numHashTablePointer, get out.2 (i * 8 + 4) =
    get m (i * 8 + 4) + (bucket ignoreCase xs i).length

theorem hashRecords_hashed (ignoreCase : Bool) {rs : List Record} {ptr eod : Nat} {m : Mem}
    (fuel : Nat) (hstored : Stored m ptr rs) (hend : ptr + totalSize rs = eod)
    (hlow : dataStart ≤ ptr) (hfuel : rs.length < fuel)
    (hroom : ∀ i < numHashTablePointer, get m (i * 8 + 4) + rs.length < 2 ^ 32) :
    Hashed ignoreCase (placed ptr rs) m (hashRecords ignoreCase eod fuel ptr m) := by
  have h512 : numHashTablePointer = 512 := rfl
  have h8 : sizeofRecordHeader = 8 := rfl
  induction rs generalizing ptr m fuel with
  | nil =>
      obtain ⟨fuel, rfl⟩ : ∃ f, fuel = f + 1 := ⟨fuel - 1, by simp at hfuel; omega⟩
      have hdone : ¬ ptr < eod := by simp at hend; omega
      simp only [hashRecords, hdone, if_false]
      exact ⟨rfl, fun _ _ => rfl, fun i _ => by simp [bucket, placed]⟩
  | cons r rs ih =>
      obtain ⟨fuel, rfl⟩ : ∃ f, fuel = f + 1 := ⟨fuel - 1, by simp at hfuel; omega⟩
      have hpos := recordSize_pos r
      rw [totalSize_cons] at hend
      simp only [List.length_cons] at hfuel hroom
      obtain ⟨⟨hk, hd, hkey, hdata⟩, hrest⟩ := hstored
      simp only [dataStart_eq] at hlow
      set index := cdbHash ignoreCase r.key % numHashTablePointer with hindex
      have hlt : index < 512 := Nat.mod_lt _ (by decide)
      set m₁ := put m (index * 8 + 4) (get m (index * 8 + 4) + 1) with hm₁
      have hframe : ∀ x, dataStart ≤ x → m₁ x = m x := by
        intro x hx
        simp only [dataStart_eq] at hx
        exact put_agree m _ _ (b := x) (k := 1) (.inl (by omega)) x (by omega) (by omega)
      have hslots : ∀ i < numHashTablePointer, get m₁ (i * 8 + 4) =
          get m (i * 8 + 4) + if index = i then 1 else 0 := by
        intro i hi
        by_cases heq : index = i
        · subst heq
          rw [hm₁, get_put_of_lt _ _ (by have := hroom index hi; omega), if_pos rfl]
        · rw [hm₁, get_put_apart _ _ (by unfold Apart; omega), if_neg heq]
          rfl
      have hagree : ∀ n, Agree m₁ m ptr n := fun n x hx _ => hframe x (by simp; omega)
      have hnext : Stored m₁ (ptr + recordSize r) rs :=
        hrest.congr fun x hx _ => hframe x (by simp; omega)
      have hroom₁ : ∀ i < numHashTablePointer, get m₁ (i * 8 + 4) + rs.length < 2 ^ 32 := by
        intro i hi
        have := hroom i hi
        rw [hslots i hi]
        split <;> omega
      have hih := ih fuel hnext (by omega) (by simp; omega) (by omega) hroom₁
      have hd₁ : get m₁ (ptr + 4) = r.data.length := by
        rw [← hd]
        exact Agree.get_eq fun x hx _ => hframe x (by simp; omega)
      have hstep : hashRecords ignoreCase eod (fuel + 1) ptr m =
          (⟨cdbHash ignoreCase r.key, ptr, index⟩ ::
              (hashRecords ignoreCase eod fuel (ptr + recordSize r) m₁).1,
            (hashRecords ignoreCase eod fuel (ptr + recordSize r) m₁).2) := by
        have hlt' : ptr < eod := by omega
        have hptr : ptr + 8 + r.key.length + r.data.length = ptr + recordSize r := by
          simp only [recordSize, h8, Nat.add_assoc]
        rw [h8] at hkey
        simp only [hashRecords, hlt', if_true, h8, hk, hkey, sizeofHashTablePointer, ← hindex,
          ← hm₁, hd₁, hptr]
      rw [hstep]
      refine ⟨?_, ?_, ?_⟩
      · simp only [hih.tmp, placed, List.map_cons, List.cons.injEq, and_true]
        rfl
      · intro x hx
        rw [hih.frame x hx, hframe x hx]
      · intro i hi
        rw [hih.slots i hi, hslots i hi]
        rw [placed, bucket_cons, show indexOf ignoreCase (ptr, r) = index from rfl]
        split
        · rw [List.length_cons]
          omega
        · rfl

/-- What the second loop leaves after `n` turns. -/
structure Positioned (ignoreCase : Bool) (xs : List (Nat × Record)) (m : Mem) (pos n : Nat)
    (out : Mem × Nat) : Prop where
  finish : out.2 = pos + 8 * slotsBefore ignoreCase xs n
  frame : ∀ x, dataStart ≤ x → out.1 x = m x
  slots : ∀ i < numHashTablePointer, get out.1 (i * 8 + 4) = get m (i * 8 + 4)
  pointer : ∀ i < n, get out.1 (i * 8) = pos + 8 * slotsBefore ignoreCase xs i

theorem setPositions_positioned (ignoreCase : Bool) {xs : List (Nat × Record)} {m : Mem}
    (pos : Nat) (hslots : ∀ i < numHashTablePointer,
      get m (i * 8 + 4) = (bucket ignoreCase xs i).length)
    (hroom : pos + 8 * xs.length < 2 ^ 32) {n : Nat} (hn : n ≤ numHashTablePointer) :
    Positioned ignoreCase xs m pos n (setPositions m pos n) := by
  have h512 : numHashTablePointer = 512 := rfl
  induction n with
  | zero => exact ⟨by simp [setPositions, slotsBefore_zero], fun _ _ => rfl, fun _ _ => rfl,
      fun i hi => absurd hi (by omega)⟩
  | succ n ih =>
      have hprev := ih (by omega)
      have hle := slotsBefore_bucket_le ignoreCase xs (i := n) (by omega)
      set out := setPositions m pos n with hout
      set m₁ := put out.1 (n * 8) out.2 with hm₁
      have hstep : setPositions m pos (n + 1) =
          (m₁, (out.2 + get m₁ (n * 8 + 4) * 8) % 2 ^ 32) := rfl
      have hslots₁ : ∀ i < numHashTablePointer, get m₁ (i * 8 + 4) = get m (i * 8 + 4) := by
        intro i hi
        rw [hm₁, get_put_apart _ _ (by unfold Apart; omega), hprev.slots i hi]
      have hfinish := hprev.finish
      rw [hstep]
      refine ⟨?_, ?_, hslots₁, ?_⟩
      · simp only [hslots₁ n (by omega), hslots n (by omega), slotsBefore_succ, hfinish]
        rw [Nat.mod_eq_of_lt (by omega)]
        omega
      · intro x hx
        rw [dataStart_eq] at hx
        rw [← hprev.frame x (by simpa using hx)]
        exact put_agree out.1 _ _ (b := x) (k := 1) (.inl (by omega)) x (by omega) (by omega)
      · intro i hi
        rcases Nat.lt_succ_iff_lt_or_eq.mp hi with hi | rfl
        · simp only [hm₁]
          rw [get_put_apart _ _ (by unfold Apart; omega), hprev.pointer i hi]
        · simp only [hm₁]
          rw [get_put_of_lt _ _ (by omega), hfinish]

/-- The slots of the table at `base` hold the table `T`. -/
def SlotsHold (ignoreCase : Bool) (m : Mem) (base n : Nat)
    (T : LinearProbing.Table (Nat × Record)) : Prop :=
  ∀ j < n, match T j with
    | none => get m (base + j * 8 + 4) = 0
    | some x => get m (base + j * 8) = hashOf ignoreCase x ∧ get m (base + j * 8 + 4) = x.1

/-- The tables behind the records, with the entries in `T` placed so far. -/
structure Tables (ignoreCase : Bool) (xs : List (Nat × Record)) (eod : Nat) (m : Mem)
    (T : Nat → LinearProbing.Table (Nat × Record)) : Prop where
  pointer : ∀ i < numHashTablePointer, get m (i * 8) = eod + 8 * slotsBefore ignoreCase xs i
  slots : ∀ i < numHashTablePointer, get m (i * 8 + 4) = (bucket ignoreCase xs i).length
  hold : ∀ i < numHashTablePointer, SlotsHold ignoreCase m
    (eod + 8 * slotsBefore ignoreCase xs i) (bucket ignoreCase xs i).length (T i)

theorem cdbHash_lt (ignoreCase : Bool) (key : Bytes) : cdbHash ignoreCase key < 2 ^ 32 :=
  (uCdbHash key ignoreCase).toNat_lt

theorem homeOf_lt {ignoreCase : Bool} {xs : List (Nat × Record)} {i : Nat}
    {x : Nat × Record} (hx : x ∈ bucket ignoreCase xs i) :
    homeOf ignoreCase (bucket ignoreCase xs i).length x < (bucket ignoreCase xs i).length :=
  Nat.mod_lt _ (List.length_pos_of_mem hx)

/-- Tables do not overlap: slot `j` of table `i` and slot `j'` of table `i'`. -/
theorem slot_apart {ignoreCase : Bool} {xs : List (Nat × Record)} {eod i i' j j' : Nat}
    (hi : i < i') (hj : j < (bucket ignoreCase xs i).length) :
    eod + 8 * slotsBefore ignoreCase xs i + j * 8 + 8 ≤
      eod + 8 * slotsBefore ignoreCase xs i' + j' * 8 := by
  have hsucc := slotsBefore_succ ignoreCase xs i
  have hmono := slotsBefore_mono ignoreCase xs (i := i + 1) (j := i') (by omega)
  omega

/-- One turn of the last loop places one entry in its table. -/
theorem insertSlot_tables {ignoreCase : Bool} {xs : List (Nat × Record)} {eod : Nat} {m : Mem}
    {T : Nat → LinearProbing.Table (Nat × Record)} (hT : Tables ignoreCase xs eod m T)
    (heod : dataStart ≤ eod) {x : Nat × Record} (hx : x ∈ xs)
    (hpos : ∀ y ∈ xs, y.1 ≠ 0 ∧ y.1 < 2 ^ 32)
    (hmem : ∀ i < numHashTablePointer, ∀ j < (bucket ignoreCase xs i).length, ∀ y,
      T i j = some y → y ∈ xs)
    {T' : LinearProbing.Table (Nat × Record)}
    (hplace : place (bucket ignoreCase xs (indexOf ignoreCase x)).length
      (homeOf ignoreCase (bucket ignoreCase xs (indexOf ignoreCase x)).length)
      (T (indexOf ignoreCase x)) x = some T') :
    ∃ m', insertSlot m (toTmp ignoreCase x) = some m' ∧ (∀ a < eod, dataStart ≤ a → m' a = m a) ∧
      Tables ignoreCase xs eod m' (Function.update T (indexOf ignoreCase x) T') := by
  have h512 : numHashTablePointer = 512 := rfl
  set i := indexOf ignoreCase x with hidef
  set n := (bucket ignoreCase xs i).length with hndef
  set base := eod + 8 * slotsBefore ignoreCase xs i with hbase
  have hi : i < numHashTablePointer := indexOf_lt ignoreCase x
  have hxi : x ∈ bucket ignoreCase xs i := by simp [bucket, hx, hidef]
  have hhome : homeOf ignoreCase n x < n := homeOf_lt hxi
  simp only [dataStart_eq] at heod
  simp only [place, Option.map_eq_some_iff] at hplace
  obtain ⟨j, hsearch, rfl⟩ := hplace
  -- the probe sees a slot as used exactly when the table has an entry there
  have hused : ∀ k < n, (T i k).isSome = decide (get m (base + k * 8 + 4) ≠ 0) := by
    intro k hk
    have hhold := hT.hold i hi k hk
    cases hTk : T i k with
    | none =>
        simp only [hTk, ← hbase] at hhold
        simp [hhold]
    | some y =>
        simp only [hTk, ← hbase] at hhold
        simp [hhold.2, (hpos y (hmem i hi k hk y hTk)).1]
  have hsearch' : search (fun k => decide (get m (base + k * 8 + 4) ≠ 0)) n n
      (homeOf ignoreCase n x) = some j := by
    rw [← hsearch]
    exact (LinearProbing.search_congr hused n hhome).symm
  obtain ⟨d, hd, hjd, hfree, -⟩ := LinearProbing.search_eq_some hhome hsearch
  have hj : j < n := hjd ▸ Nat.mod_lt _ (by omega)
  set m' := put (put m (base + j * 8) (hashOf ignoreCase x)) (base + j * 8 + 4) x.1 with hm'
  have hinsert : insertSlot m (toTmp ignoreCase x) = some m' := by
    simp only [insertSlot, toTmp, sizeofHashTablePointer, sizeofHashTableSlot, ← hidef,
      hT.pointer i hi, hT.slots i hi]
    rw [← hbase, ← hndef]
    simp only [homeOf] at hsearch'
    rw [hsearch']
    rfl
  -- the turn writes the eight bytes of one slot
  have hframe : ∀ a, a < base + j * 8 ∨ base + j * 8 + 8 ≤ a → m' a = m a := by
    intro a ha
    have h₁ := put_agree (put m (base + j * 8) (hashOf ignoreCase x)) (base + j * 8 + 4) x.1
      (b := a) (k := 1) (by unfold Apart; omega) a (by omega) (by omega)
    have h₂ := put_agree m (base + j * 8) (hashOf ignoreCase x)
      (b := a) (k := 1) (by unfold Apart; omega) a (by omega) (by omega)
    rw [hm', h₁, h₂]
  have hget : ∀ a, a + 4 ≤ base + j * 8 ∨ base + j * 8 + 8 ≤ a → get m' a = get m a :=
    fun a ha => Agree.get_eq fun y hy hy' => hframe y (by omega)
  refine ⟨m', hinsert, fun a ha _ => hframe a (.inl (by omega)), ⟨?_, ?_, ?_⟩⟩
  · intro k hk
    rw [hget (k * 8) (.inl (by omega)), hT.pointer k hk]
  · intro k hk
    rw [hget (k * 8 + 4) (.inl (by omega)), hT.slots k hk]
  · intro k hk l hl
    by_cases hki : k = i
    · subst hki
      rw [Function.update_self]
      by_cases hlj : l = j
      · subst hlj
        rw [Function.update_self]
        have hhash : hashOf ignoreCase x < 2 ^ 32 := cdbHash_lt ignoreCase x.2.key
        refine ⟨?_, ?_⟩
        · rw [hm', get_put_apart _ _ (by unfold Apart; omega), get_put_of_lt _ _ hhash]
        · rw [hm', get_put_of_lt _ _ (hpos x hx).2]
      · rw [Function.update_of_ne hlj]
        have hhold := hT.hold i hk l hl
        rw [hget _ (by omega), hget _ (by omega)]
        exact hhold
    · rw [Function.update_of_ne hki]
      have hhold := hT.hold k hk l hl
      have hsep : eod + 8 * slotsBefore ignoreCase xs k + l * 8 + 8 ≤ base + j * 8 ∨
          base + j * 8 + 8 ≤ eod + 8 * slotsBefore ignoreCase xs k + l * 8 := by
        rcases Nat.lt_or_gt_of_ne hki with h | h
        · exact .inl (slot_apart h hl)
        · exact .inr (slot_apart h hj)
      rw [hget _ (by omega), hget _ (by omega)]
      exact hhold

theorem bucket_append (ignoreCase : Bool) (xs ys : List (Nat × Record)) (i : Nat) :
    bucket ignoreCase (xs ++ ys) i = bucket ignoreCase xs i ++ bucket ignoreCase ys i := by
  simp [bucket]

/-- The last loop ends and leaves every table filled in the order of the
records. -/
theorem insertAll_tables (ignoreCase : Bool) {eod : Nat} (heod : dataStart ≤ eod)
    (done rest : List (Nat × Record)) {m : Mem}
    {T : Nat → LinearProbing.Table (Nat × Record)}
    (hpos : ∀ y ∈ done ++ rest, y.1 ≠ 0 ∧ y.1 < 2 ^ 32)
    (hT : Tables ignoreCase (done ++ rest) eod m T)
    (hfilled : ∀ i < numHashTablePointer,
      Filled (bucket ignoreCase (done ++ rest) i).length
        (homeOf ignoreCase (bucket ignoreCase (done ++ rest) i).length)
        (bucket ignoreCase done i) (T i)) :
    ∃ m' T', (rest.map (toTmp ignoreCase)).foldlM insertSlot m = some m' ∧
      (∀ a < eod, dataStart ≤ a → m' a = m a) ∧ Tables ignoreCase (done ++ rest) eod m' T' ∧
      ∀ i < numHashTablePointer,
        Filled (bucket ignoreCase (done ++ rest) i).length
          (homeOf ignoreCase (bucket ignoreCase (done ++ rest) i).length)
          (bucket ignoreCase (done ++ rest) i) (T' i) := by
  induction rest generalizing done m T with
  | nil =>
      refine ⟨m, T, rfl, fun _ _ _ => rfl, hT, ?_⟩
      simpa using hfilled
  | cons x rest ih =>
      set xs := done ++ x :: rest with hxs
      have hx : x ∈ xs := by simp [hxs]
      set i := indexOf ignoreCase x with hi
      have hilt : i < numHashTablePointer := indexOf_lt ignoreCase x
      have hxi : x ∈ bucket ignoreCase xs i := by simp [bucket, hx, hi]
      have hroom : (bucket ignoreCase done i).length < (bucket ignoreCase xs i).length := by
        rw [hxs, bucket_append, bucket_cons, if_pos hi.symm]
        simp
      have hmem : ∀ k < numHashTablePointer, ∀ j < (bucket ignoreCase xs k).length, ∀ y,
          T k j = some y → y ∈ xs := by
        intro k hk j hj y hy
        have hyk := (hfilled k hk).mem_of_slot hj hy
        exact List.mem_append_left _ (List.mem_of_mem_filter hyk)
      obtain ⟨T₁, hplace⟩ := (hfilled i hilt).exists_place (homeOf_lt hxi) hroom
      obtain ⟨m₁, hinsert, hframe, htables⟩ :=
        insertSlot_tables hT heod hx hpos hmem hplace
      have hsplit : xs = (done ++ [x]) ++ rest := by simp [hxs]
      have hfilled₁ : ∀ k < numHashTablePointer,
          Filled (bucket ignoreCase xs k).length
            (homeOf ignoreCase (bucket ignoreCase xs k).length)
            (bucket ignoreCase (done ++ [x]) k) (Function.update T i T₁ k) := by
        intro k hk
        have hsnoc : bucket ignoreCase (done ++ [x]) k =
            bucket ignoreCase done k ++ if i = k then [x] else [] := by
          rw [bucket_append, bucket_cons, ← hi]
          rfl
        rw [hsnoc]
        by_cases hki : k = i
        · subst hki
          rw [if_pos rfl, Function.update_self]
          exact LinearProbing.filled_place (hfilled _ hk) (homeOf_lt hxi) hplace
        · rw [if_neg (by omega), Function.update_of_ne hki, List.append_nil]
          exact hfilled k hk
      rw [hsplit] at htables hfilled₁ hpos
      obtain ⟨m', T', hfold, hframe', htables', hfilled'⟩ :=
        ih (done ++ [x]) hpos htables hfilled₁
      refine ⟨m', T', ?_, ?_, hsplit ▸ htables', hsplit ▸ hfilled'⟩
      · simp only [List.map_cons, List.foldlM_cons, hinsert, Option.bind_eq_bind,
          Option.bind_some, hfold]
      · intro a ha ha'
        rw [hframe' a ha ha', hframe a ha ha']

/-- A finished database file with the records `rs`. -/
structure IsImage (ignoreCase : Bool) (m : Mem) (size : Nat) (rs : List Record) : Prop where
  stored : Stored m dataStart rs
  size_eq : size = dataStart + totalSize rs + 8 * rs.length
  fits : size < 2 ^ 32
  slots : ∀ i < numHashTablePointer,
    get m (i * 8 + 4) = (bucket ignoreCase (placed dataStart rs) i).length
  pointer : rs ≠ [] → ∀ i < numHashTablePointer, get m (i * 8) =
    dataStart + totalSize rs + 8 * slotsBefore ignoreCase (placed dataStart rs) i
  table : ∀ i < numHashTablePointer, ∃ T,
    Filled (bucket ignoreCase (placed dataStart rs) i).length
      (homeOf ignoreCase (bucket ignoreCase (placed dataStart rs) i).length)
      (bucket ignoreCase (placed dataStart rs) i) T ∧
    SlotsHold ignoreCase m
      (dataStart + totalSize rs + 8 * slotsBefore ignoreCase (placed dataStart rs) i)
      (bucket ignoreCase (placed dataStart rs) i).length T

/-- The file that `makeFinish` is given has room for the tables, and with
`reset` off the slots it will use read as free. -/
structure ReadyToFinish (reset : Bool) (c : UCDB) (rs : List Record) : Prop where
  fits : dataStart + totalSize rs + 8 * rs.length < 2 ^ 32
  free : reset = true ∨ ∀ k < rs.length, get c.file (c.hr + k * 8 + 4) = 0
  header : rs = [] → ∀ i < numHashTablePointer, get c.file (i * 8 + 4) = 0

theorem isImage_nil (ignoreCase : Bool) {m : Mem}
    (hheader : ∀ i < numHashTablePointer, get m (i * 8 + 4) = 0) :
    IsImage ignoreCase m dataStart [] where
  stored := trivial
  size_eq := rfl
  fits := by decide
  slots := fun i hi => by simp [hheader i hi, bucket, placed]
  pointer := fun h => absurd rfl h
  table := fun i _ => ⟨fun _ => none, LinearProbing.filled_nil _ _,
    fun j hj => absurd hj (by simp [bucket, placed])⟩

theorem placed_pos {rs : List Record} (hfit : dataStart + totalSize rs < 2 ^ 32)
    {y : Nat × Record} (hy : y ∈ placed dataStart rs) : y.1 ≠ 0 ∧ y.1 < 2 ^ 32 := by
  have hb := placed_bounds hy
  have hsize := recordSize_pos y.2
  simp only [dataStart_eq] at hb hfit
  omega

/-- The memory before the last loop: all pointers set, all slots free. -/
theorem tables_of_free {ignoreCase : Bool} {xs : List (Nat × Record)} {eod : Nat} {m : Mem}
    (hpointer : ∀ i < numHashTablePointer, get m (i * 8) = eod + 8 * slotsBefore ignoreCase xs i)
    (hslots : ∀ i < numHashTablePointer, get m (i * 8 + 4) = (bucket ignoreCase xs i).length)
    (hfree : ∀ k < xs.length, get m (eod + k * 8 + 4) = 0) :
    Tables ignoreCase xs eod m fun _ _ => none := by
  refine ⟨hpointer, hslots, ?_⟩
  intro i hi j hj
  have hle := slotsBefore_bucket_le ignoreCase xs hi
  have := hfree (slotsBefore ignoreCase xs i + j) (by omega)
  rwa [show eod + (slotsBefore ignoreCase xs i + j) * 8 + 4 =
    eod + 8 * slotsBefore ignoreCase xs i + j * 8 + 4 by omega] at this

/-- The file before the last loop of `makeFinish`: the pointers are set, and
no slot is used yet. -/
structure Laid (reset : Bool) (c : UCDB) (rs : List Record) (m : Mem) : Prop where
  pointer : ∀ i < numHashTablePointer, get m (i * 8) =
    dataStart + totalSize rs + 8 * slotsBefore c.ignoreCase (placed dataStart rs) i
  slots : ∀ i < numHashTablePointer, get m (i * 8 + 4) =
    (bucket c.ignoreCase (placed dataStart rs) i).length
  frame : ∀ a, dataStart ≤ a → a < dataStart + totalSize rs ∨
    dataStart + totalSize rs + 8 * rs.length ≤ a → m a = c.file a
  kept : reset = false → ∀ a, dataStart ≤ a → m a = c.file a
  cleared : reset = true → ∀ k < rs.length, get m (dataStart + totalSize rs + k * 8 + 4) = 0

/-- `makeFinish` of some records, up to its last loop. -/
theorem makeFinish_laid (reset : Bool) {c : UCDB} {rs : List Record} (hadd : Adding c rs)
    (hfits : dataStart + totalSize rs + 8 * rs.length < 2 ^ 32) (hne : rs ≠ []) :
    ∃ m, Laid reset c rs m ∧
      makeFinish reset c =
        (((placed dataStart rs).map (toTmp c.ignoreCase)).foldlM insertSlot m).map fun m =>
          (dataStart + totalSize rs + 8 * rs.length,
            { c with file := m, startHashTableSlot := dataStart + totalSize rs }) := by
  have h4096 : dataStart = 4096 := rfl
  have h512 : numHashTablePointer = 512 := rfl
  have hlen : 0 < rs.length := List.length_pos_of_ne_nil hne
  set eod := dataStart + totalSize rs with heod
  set xs := placed dataStart rs with hxs
  set m₀ := fill c.file 0 (numHashTablePointer * sizeofHashTablePointer) 0 with hm₀
  have hm₀frame : ∀ x, dataStart ≤ x → m₀ x = c.file x := fun x hx =>
    fill_agree c.file 0 dataStart 0 (b := x) (k := 1) (.inl (by omega)) x (by omega) (by omega)
  have hstored₀ : Stored m₀ dataStart rs :=
    hadd.stored.congr fun x hx _ => hm₀frame x hx
  have hzero : ∀ i < numHashTablePointer, get m₀ (i * 8 + 4) = 0 := by
    intro i hi
    refine get_fill_zero _ (by omega) ?_
    simp only [sizeofHashTablePointer]
    omega
  have hlenle := length_le_totalSize rs
  have hhash := hashRecords_hashed c.ignoreCase eod hstored₀ heod.symm (by omega)
    (by omega) (fun i hi => by rw [hzero i hi]; omega)
  set hashed := hashRecords c.ignoreCase eod eod dataStart m₀ with hhashed
  have hslots : ∀ i < numHashTablePointer,
      get hashed.2 (i * 8 + 4) = (bucket c.ignoreCase xs i).length := by
    intro i hi
    rw [hhash.slots i hi, hzero i hi, Nat.zero_add]
  have hxslen : xs.length = rs.length := length_placed _ _
  have hposd := setPositions_positioned c.ignoreCase eod hslots
    (by omega) (n := numHashTablePointer) (le_refl _)
  set out := setPositions hashed.2 eod numHashTablePointer with hout
  have hfinish : out.2 = eod + 8 * rs.length := by
    rw [hposd.finish, slotsBefore_all, hxslen]
  have houtframe : ∀ a, dataStart ≤ a → out.1 a = c.file a := by
    intro a ha
    rw [hposd.frame a ha, hhash.frame a ha, hm₀frame a ha]
  set m₂ := if reset then fill out.1 eod (out.2 - eod) 0 else out.1 with hm₂
  have hm₂frame : ∀ a, a < eod ∨ eod + 8 * rs.length ≤ a → m₂ a = out.1 a := by
    intro a ha
    rw [hm₂]
    split
    · exact fill_agree _ _ _ _ (b := a) (k := 1) (by unfold Apart; omega) a (by omega) (by omega)
    · rfl
  have hheader : ∀ a, a + 4 ≤ dataStart → get m₂ a = get out.1 a := fun a ha =>
    Agree.get_eq fun x _ hx => hm₂frame x (.inl (by omega))
  refine ⟨m₂, ⟨?_, ?_, ?_, ?_, ?_⟩, ?_⟩
  · intro i hi
    rw [hheader _ (by omega), hposd.pointer i hi]
  · intro i hi
    rw [hheader _ (by omega), hposd.slots i hi, hslots i hi]
  · intro a ha hor
    rw [hm₂frame a hor, houtframe a ha]
  · intro hreset a ha
    rw [hm₂, hreset, if_neg (by decide), houtframe a ha]
  · intro hreset k hk
    rw [hm₂, hreset, if_pos rfl]
    exact get_fill_zero _ (by omega) (by omega)
  · have htake : hashed.1.take c.nrecord = xs.map (toTmp c.ignoreCase) := by
      rw [hhash.tmp, hadd.nrecord, List.take_of_length_le (by simp)]
    have hpositive : 0 < c.nrecord := by rw [hadd.nrecord]; exact hlen
    simp only [makeFinish, hpositive, if_true, hadd.hr, ← heod, ← hm₀]
    rw [show numHashTablePointer * sizeofHashTablePointer = dataStart from rfl, ← hhashed,
      ← hout, ← hm₂, htake, hfinish]

/-- `makeFinish` ends and leaves the image of the records that were added. -/
theorem makeFinish_isImage {reset : Bool} {c : UCDB} {rs : List Record} (hadd : Adding c rs)
    (hready : ReadyToFinish reset c rs) :
    ∃ m, makeFinish reset c = some (dataStart + totalSize rs + 8 * rs.length,
        { c with file := m, startHashTableSlot := dataStart + totalSize rs }) ∧
      IsImage c.ignoreCase m (dataStart + totalSize rs + 8 * rs.length) rs := by
  have hfits := hready.fits
  have h4096 : dataStart = 4096 := rfl
  rcases rs.eq_nil_or_concat with rfl | hne
  · refine ⟨c.file, ?_, isImage_nil c.ignoreCase (hready.header rfl)⟩
    simp only [makeFinish, hadd.nrecord, List.length_nil, lt_irrefl, if_false, hadd.hr]
    rfl
  · have hne : rs ≠ [] := by
      obtain ⟨l, x, rfl⟩ := hne
      simp
    obtain ⟨m₂, hlaid, hfinish⟩ := makeFinish_laid reset hadd hfits hne
    have hxslen : (placed dataStart rs).length = rs.length := length_placed _ _
    have hfree : ∀ k < (placed dataStart rs).length,
        get m₂ (dataStart + totalSize rs + k * 8 + 4) = 0 := by
      intro k hk
      rw [hxslen] at hk
      cases hreset : reset with
      | true => exact hlaid.cleared hreset k hk
      | false =>
          have hclear := hready.free.resolve_left (by simp [hreset]) k hk
          rw [hadd.hr] at hclear
          rw [← hclear]
          exact Agree.get_eq fun a ha _ => hlaid.kept hreset a (by omega)
    have htables := tables_of_free hlaid.pointer hlaid.slots hfree
    obtain ⟨m, T, hfold, hframe, hT, hfilled⟩ := insertAll_tables c.ignoreCase
      (show dataStart ≤ dataStart + totalSize rs by omega) [] (placed dataStart rs)
      (fun y hy => placed_pos (by omega) hy) htables
      (fun i hi => by simpa [bucket] using LinearProbing.filled_nil _ _)
    refine ⟨m, by rw [hfinish, hfold]; rfl, ?_⟩
    refine ⟨?_, rfl, hfits, hT.slots, fun _ => hT.pointer,
      fun i hi => ⟨T i, hfilled i hi, hT.hold i hi⟩⟩
    apply hadd.stored.congr
    intro a ha ha'
    rw [hframe a (by omega) ha, hlaid.frame a ha (.inl (by omega))]

end ULib.CdbImage
