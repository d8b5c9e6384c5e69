import ULib.CdbRoundTrip
import ULib.TextSearch

/-!
The scan of a constant database for the records that have a pattern. The bytes
of the record section are searched, and the scan goes on from record to record
up to the one in which something was found.
-/

namespace ULib.CdbPattern

open ULib.ByteMemory
open ULib.KeyComparison
open ULib.ConstantDatabase
open ULib.CdbImage
open ULib.CdbRoundTrip

/-- `_end - ptr` as an argument of type `uint32_t`. -/
def distance (finish ptr : Nat) : Nat := (finish + 2 ^ 32 - ptr) % 2 ^ 32

/-- `u_find` in the `n` bytes at `s`. -/
def uFind (m : Mem) (s n : Nat) (a : Bytes) : Option Nat :=
  if n = 0 then none else (TextSearch.search a (read m s n)).map (s + ·)

/-- The new `ptr_pattern`; without a pattern the old one is kept. -/
def findFrom (m : Mem) (finish : Nat) (pattern : Option Bytes) (ptrPattern ptr : Nat) :
    Option Nat :=
  match pattern with
  | none => some ptrPattern
  | some w => uFind m ptr (distance finish ptr) w

/-- The record headers that were read, and the calls: the address of a record, and the record. -/
structure Trace where
  headers : List Nat
  calls : List (Nat × Record)

/-- The loop of `_callForAllEntry`; `stop` tells whether the function asks to stop. -/
def patternLoop (m : Mem) (finish : Nat) (pattern : Option Bytes) (stop : Record → Bool) :
    Nat → Nat → Nat → Option Trace
  | 0, _, _ => none
  | fuel + 1, ptr, ptrPattern =>
      let klen := get m ptr
      let dlen := get m (ptr + 4)
      let tmp := ptr + sizeofRecordHeader + klen + dlen
      if pattern.isSome ∧ tmp ≤ ptrPattern then
        (patternLoop m finish pattern stop fuel tmp ptrPattern).map fun t =>
          { t with headers := ptr :: t.headers }
      else
        let r : Record := ⟨read m (ptr + sizeofRecordHeader) klen, read m (tmp - dlen) dlen⟩
        let rest :=
          if finish ≤ tmp ∨ stop r = true then some ⟨[], []⟩
          else
            match findFrom m finish pattern ptrPattern (tmp + sizeofRecordHeader) with
            | none => some ⟨[], []⟩
            | some ptrPattern => patternLoop m finish pattern stop fuel tmp ptrPattern
        rest.map fun t => ⟨ptr :: t.headers, (ptr, r) :: t.calls⟩

/-- `_callForAllEntry`; every turn of the loop goes on by a record header at least. -/
def callForAllEntryPattern (c : UCDB) (pattern : Option Bytes) (stop : Record → Bool) :
    Option Trace :=
  let ptr := numHashTablePointer * sizeofHashTablePointer
  let finish := c.startHashTableSlot
  match findFrom c.file finish pattern 0 (ptr + sizeofRecordHeader) with
  | none => some ⟨[], []⟩
  | some ptrPattern => patternLoop c.file finish pattern stop finish ptr ptrPattern

/-! ### Occurrences -/

def Contains (w : Bytes) (r : Record) : Prop := w <:+: r.key ++ r.data

instance (w : Bytes) (r : Record) : Decidable (Contains w r) :=
  inferInstanceAs (Decidable (w <:+: r.key ++ r.data))

/-- The pattern stands at an address in front of `finish`. -/
def Stands (m : Mem) (finish : Nat) (w : Bytes) (q : Nat) : Prop :=
  q + w.length ≤ finish ∧ read m q w.length = w

instance (m : Mem) (finish : Nat) (w : Bytes) (q : Nat) : Decidable (Stands m finish w q) :=
  inferInstanceAs (Decidable (_ ∧ _))

theorem prefix_read_iff {m : Mem} {a n : Nat} {w : Bytes} :
    w <+: read m a n ↔ w.length ≤ n ∧ read m a w.length = w := by
  constructor
  · intro h
    have hle := h.length_le
    rw [length_read] at hle
    refine ⟨hle, ?_⟩
    have htake := List.prefix_iff_eq_take.mp h
    rw [take_read, Nat.min_eq_left hle] at htake
    exact htake.symm
  · rintro ⟨hle, hread⟩
    obtain ⟨k, rfl⟩ := Nat.exists_eq_add_of_le hle
    rw [read_append, hread]
    exact List.prefix_append w _

theorem drop_read (m : Mem) {a n i : Nat} (hi : i ≤ n) :
    (read m a n).drop i = read m (a + i) (n - i) := by
  obtain ⟨k, rfl⟩ := Nat.exists_eq_add_of_le hi
  rw [read_append, List.drop_left' (length_read m a i), Nat.add_sub_cancel_left]

theorem infix_read_iff {m : Mem} {a n : Nat} {w : Bytes} :
    w <:+: read m a n ↔ ∃ q, a ≤ q ∧ Stands m (a + n) w q := by
  constructor
  · rintro ⟨s, t, h⟩
    have hlength := congrArg List.length h
    simp only [List.length_append, length_read] at hlength
    have hdrop : w <+: (read m a n).drop s.length := by
      rw [← h, List.append_assoc, List.drop_left]
      exact List.prefix_append w t
    rw [drop_read m (by omega)] at hdrop
    obtain ⟨hle, hread⟩ := prefix_read_iff.mp hdrop
    exact ⟨a + s.length, Nat.le_add_right a _, by omega, hread⟩
  · rintro ⟨q, hq, hle, hread⟩
    obtain ⟨i, rfl⟩ := Nat.exists_eq_add_of_le hq
    have hprefix : w <+: (read m a n).drop i := by
      rw [drop_read m (by omega)]
      exact prefix_read_iff.mpr ⟨by omega, hread⟩
    exact hprefix.isInfix.trans (List.drop_suffix i _).isInfix

/-- The first address from `lo` on at which the pattern stands. -/
structure IsFirst (m : Mem) (finish : Nat) (w : Bytes) (lo q : Nat) : Prop where
  le : lo ≤ q
  stands : Stands m finish w q
  first : ∀ j, lo ≤ j → Stands m finish w j → q ≤ j

section
variable {m : Mem} {lo finish : Nat} {w : Bytes} (hw : w ≠ []) (hlo : lo ≤ finish)
include hw hlo

theorem prefix_drop_iff (i : Nat) :
    w <+: (read m lo (finish - lo)).drop i ↔ Stands m finish w (lo + i) := by
  have hpos := List.length_pos_of_ne_nil hw
  rcases Nat.le_total i (finish - lo) with hi | hi
  · rw [drop_read m hi, prefix_read_iff, Stands]
    exact and_congr_left fun _ => by omega
  · rw [List.drop_eq_nil_of_le (by rwa [length_read]), Stands]
    exact iff_of_false (fun h => hw (List.prefix_nil.mp h)) fun h => by omega

/-- The search of the rest of the record section. -/
theorem uFind_eq (hfinish : finish < 2 ^ 32) :
    uFind m lo (distance finish lo) w =
      (TextSearch.search w (read m lo (finish - lo))).map (lo + ·) := by
  have hn : distance finish lo = finish - lo := by
    rw [distance]
    omega
  rw [hn, uFind]
  split_ifs with hzero
  · rw [hzero, read_zero, TextSearch.search, if_neg hw]
    rfl
  · rfl

theorem isFirst_of_uFind (hfinish : finish < 2 ^ 32) {q : Nat}
    (h : uFind m lo (distance finish lo) w = some q) : IsFirst m finish w lo q := by
  rw [uFind_eq hw hlo hfinish] at h
  obtain ⟨i, hi, rfl⟩ := Option.map_eq_some_iff.mp h
  obtain ⟨hfound, hfirst⟩ := TextSearch.of_search hi
  refine ⟨Nat.le_add_right lo i, (prefix_drop_iff hw hlo i).mp hfound, fun j hj hstands => ?_⟩
  obtain ⟨k, rfl⟩ := Nat.exists_eq_add_of_le hj
  by_contra hlt
  exact hfirst k (by omega) ((prefix_drop_iff hw hlo k).mpr hstands)

theorem not_stands_of_uFind (hfinish : finish < 2 ^ 32)
    (h : uFind m lo (distance finish lo) w = none) {j : Nat} (hj : lo ≤ j) :
    ¬ Stands m finish w j := by
  intro hstands
  obtain ⟨k, rfl⟩ := Nat.exists_eq_add_of_le hj
  have hle := hstands.1
  obtain ⟨i, -, hi⟩ := TextSearch.exists_search (by rw [length_read]; omega)
    ((prefix_drop_iff hw hlo k).mpr hstands)
  rw [uFind_eq hw hlo hfinish, hi] at h
  exact nomatch h

end

/-! ### The records that are called -/

/-- Where the search for a record begins: behind its header, or already in its header when the scan
comes from a record that was passed over. -/
def searchStart (called : Bool) (p : Nat) : Nat :=
  if called then p + sizeofRecordHeader else p

/-- The pattern begins in a record, wherever it ends. -/
def Hit (m : Mem) (finish : Nat) (w : Bytes) (called : Bool) (x : Nat × Record) : Prop :=
  ∃ q < x.1 + recordSize x.2, searchStart called x.1 ≤ q ∧ Stands m finish w q

instance (m : Mem) (finish : Nat) (w : Bytes) (called : Bool) (x : Nat × Record) :
    Decidable (Hit m finish w called x) :=
  inferInstanceAs (Decidable (∃ q < _, _))

/-- The calls of the scan. The flag tells whether the record before was called. -/
def selected (m : Mem) (finish : Nat) (w : Bytes) :
    Bool → List (Nat × Record) → List (Nat × Record)
  | _, [] => []
  | called, x :: xs =>
      if Hit m finish w called x then x :: selected m finish w true xs
      else selected m finish w false xs

/-- No record without the pattern is hit. The flag tells whether the record before has it. -/
def Clear (m : Mem) (finish : Nat) (w : Bytes) : Bool → List (Nat × Record) → Prop
  | _, [] => True
  | found, x :: xs =>
      (Contains w x.2 ∨ ¬ Hit m finish w found x) ∧
        Clear m finish w (decide (Contains w x.2)) xs

/-- A record that has the pattern is hit. -/
theorem hit_of_contains {m : Mem} {finish : Nat} {w : Bytes} (hw : w ≠ []) {x : Nat × Record}
    (hx : HoldsRecord m x.1 x.2) (hfinish : x.1 + recordSize x.2 ≤ finish)
    (h : Contains w x.2) (called : Bool) : Hit m finish w called x := by
  have hpos := List.length_pos_of_ne_nil hw
  obtain ⟨-, -, hkey, hdata⟩ := hx
  have hbytes : x.2.key ++ x.2.data =
      read m (x.1 + sizeofRecordHeader) (x.2.key.length + x.2.data.length) := by
    rw [read_append, hkey, hdata]
  rw [Contains, hbytes] at h
  obtain ⟨q, hq, hle, hread⟩ := infix_read_iff.mp h
  rw [recordSize] at hfinish
  refine ⟨q, ?_, ?_, by omega, hread⟩
  · rw [recordSize]
    omega
  · rw [searchStart]
    split_ifs <;> omega

/-- Where nothing is found any more, nothing is called. -/
theorem selected_eq_nil {m : Mem} {finish : Nat} {w : Bytes} {called : Bool} {p : Nat}
    {rs : List Record} (h : ∀ j, searchStart called p ≤ j → ¬ Stands m finish w j) :
    selected m finish w called (placed p rs) = [] := by
  induction rs generalizing called p with
  | nil => rfl
  | cons r rs ih =>
      have hnot : ¬ Hit m finish w called (p, r) := fun ⟨q, _, hq, hstands⟩ => h q hq hstands
      rw [placed, selected, if_neg hnot]
      apply ih
      intro j hj
      apply h
      have hsize := recordSize_pos r
      have h8 : sizeofRecordHeader = 8 := rfl
      simp only [searchStart] at hj ⊢
      split_ifs at hj ⊢ <;> omega

/-- The loop calls the records that are hit, and reads headers of records only. -/
theorem patternLoop_spec {m : Mem} {finish : Nat} {w : Bytes} (hw : w ≠ [])
    (hfinish : finish < 2 ^ 32) {rs : List Record} (hrs : rs ≠ []) {p : Nat}
    (hstored : Stored m p rs) (hend : p + totalSize rs = finish) {called : Bool} {q fuel : Nat}
    (hq : IsFirst m finish w (searchStart called p) q) (hfuel : rs.length ≤ fuel) :
    ∃ headers, patternLoop m finish (some w) (fun _ => false) fuel p q =
        some ⟨headers, selected m finish w called (placed p rs)⟩ ∧
      headers <+: (placed p rs).map Prod.fst := by
  have hpos := List.length_pos_of_ne_nil hw
  induction rs generalizing p q called fuel with
  | nil => exact absurd rfl hrs
  | cons r rs ih =>
      obtain ⟨fuel, rfl⟩ := Nat.exists_eq_succ_of_ne_zero (Nat.ne_zero_of_lt hfuel)
      obtain ⟨hrecord, hrest⟩ := hstored
      obtain ⟨hklen, hdlen, hkey, hdata⟩ := hrecord
      have hsize := recordSize_pos r
      have htmp : p + sizeofRecordHeader + get m p + get m (p + 4) = p + recordSize r := by
        rw [hklen, hdlen, recordSize, Nat.add_assoc, Nat.add_assoc, Nat.add_assoc]
      rw [totalSize_cons, ← Nat.add_assoc] at hend
      have hle := hq.stands.1
      rw [placed, selected, patternLoop]
      simp only [htmp, Option.isSome_some, true_and]
      by_cases hskip : p + recordSize r ≤ q
      · -- the pattern is found behind the record, which is not the last one
        have hnot : ¬ Hit m finish w called (p, r) := by
          rintro ⟨j, hj, hstart, hstands⟩
          have hfirst := hq.first j hstart hstands
          exact absurd (Nat.lt_of_le_of_lt hfirst hj) (Nat.not_lt.mpr hskip)
        have hne : rs ≠ [] := by
          rintro rfl
          rw [totalSize_nil] at hend
          omega
        have hnext : IsFirst m finish w (searchStart false (p + recordSize r)) q := by
          refine ⟨hskip, hq.stands, fun j hj hstands => hq.first j ?_ hstands⟩
          have h8 : sizeofRecordHeader = 8 := rfl
          simp only [searchStart] at hj ⊢
          split_ifs at hj ⊢ <;> omega
        obtain ⟨headers, hloop, hheaders⟩ :=
          ih hne hrest hend hnext (Nat.le_of_succ_le_succ hfuel)
        rw [if_neg hnot, if_pos hskip, hloop]
        exact ⟨p :: headers, rfl, List.prefix_cons_inj p |>.mpr hheaders⟩
      · have hhit : Hit m finish w called (p, r) := ⟨q, Nat.lt_of_not_le hskip, hq.le, hq.stands⟩
        have hbytes : (⟨read m (p + sizeofRecordHeader) (get m p),
            read m (p + recordSize r - get m (p + 4)) (get m (p + 4))⟩ : Record) = r := by
          have hstart : p + recordSize r - get m (p + 4) =
              p + sizeofRecordHeader + r.key.length := by
            rw [hdlen, recordSize]
            omega
          rw [hstart, hklen, hdlen, hkey, hdata]
        rw [if_pos hhit, if_neg hskip, hbytes]
        simp only [Bool.false_eq_true, or_false]
        by_cases hlast : finish ≤ p + recordSize r
        · -- the last record
          have hnil : rs = [] := by
            cases rs with
            | nil => rfl
            | cons r' rs =>
                have hsize' := recordSize_pos r'
                rw [totalSize_cons] at hend
                omega
          rw [if_pos hlast, hnil]
          exact ⟨[p], rfl, List.prefix_refl _⟩
        · have hne : rs ≠ [] := by
            rintro rfl
            rw [totalSize_nil] at hend
            omega
          have hroom : p + recordSize r + sizeofRecordHeader ≤ finish := by
            obtain ⟨r', rs', rfl⟩ := List.exists_cons_of_ne_nil hne
            have hsize' := recordSize_pos r'
            rw [totalSize_cons] at hend
            have h8 : sizeofRecordHeader = 8 := rfl
            omega
          rw [if_neg hlast]
          split
          · next hnone =>
            have hnothing := @selected_eq_nil _ _ _ true _ rs fun j hj =>
              not_stands_of_uFind hw hroom hfinish hnone hj
            rw [hnothing]
            exact ⟨[p], rfl, List.prefix_cons_inj p |>.mpr List.nil_prefix⟩
          · next q' hsome =>
            have hnext := isFirst_of_uFind hw hroom hfinish hsome
            obtain ⟨headers, hloop, hheaders⟩ :=
              @ih hne _ hrest hend true _ fuel hnext (Nat.le_of_succ_le_succ hfuel)
            rw [hloop]
            exact ⟨p :: headers, rfl, List.prefix_cons_inj p |>.mpr hheaders⟩

/-- The calls are those of the records with the pattern if and only if the others are clear. -/
theorem selected_eq_filter_iff {m : Mem} {finish : Nat} {w : Bytes} {xs : List (Nat × Record)}
    (hhit : ∀ x ∈ xs, Contains w x.2 → ∀ called, Hit m finish w called x) (called : Bool) :
    selected m finish w called xs = xs.filter (fun x => decide (Contains w x.2)) ↔
      Clear m finish w called xs := by
  induction xs generalizing called with
  | nil => exact iff_of_true rfl trivial
  | cons x xs ih =>
      have ih := ih fun y hy => hhit y (List.mem_cons_of_mem x hy)
      rw [selected, Clear, List.filter_cons]
      by_cases hcontains : Contains w x.2
      · have hx := hhit x List.mem_cons_self hcontains called
        simp only [hcontains, hx, decide_true, if_true, true_or, true_and, List.cons.injEq]
        exact ih true
      · by_cases hx : Hit m finish w called x
        · -- a record without the pattern is called, and the records of the filter all have it
          simp only [hcontains, hx, decide_false, if_true, not_true, or_self, false_and, iff_false]
          intro h
          have hmem : x ∈ xs.filter fun x => decide (Contains w x.2) := by
            rw [if_neg Bool.false_ne_true] at h
            rw [← h]
            exact List.mem_cons_self
          exact hcontains (of_decide_eq_true (List.mem_filter.mp hmem).2)
        · simp only [hcontains, hx, decide_false, if_false, not_false_eq_true, or_true, true_and,
            Bool.false_eq_true]
          exact ih false

/-! ### The scan -/

/-- The records with the pattern are called, each once and in the order of the file, and no record
header is read outside of the record section. -/
def ScansPattern (c : UCDB) (rs : List Record) (w : Bytes) : Prop :=
  ∃ t, callForAllEntryPattern c (some w) (fun _ => false) = some t ∧
    t.calls = (placed dataStart rs).filter (fun x => decide (Contains w x.2)) ∧
    ∀ p ∈ t.headers, p ∈ (placed dataStart rs).map Prod.fst

theorem callForAllEntryPattern_eq (c : UCDB) (w : Bytes) (stop : Record → Bool) :
    callForAllEntryPattern c (some w) stop =
      match findFrom c.file c.startHashTableSlot (some w) 0 (dataStart + sizeofRecordHeader) with
      | none => some ⟨[], []⟩
      | some ptrPattern =>
          patternLoop c.file c.startHashTableSlot (some w) stop c.startHashTableSlot dataStart
            ptrPattern := by
  rw [callForAllEntryPattern,
    show numHashTablePointer * sizeofHashTablePointer = dataStart from rfl]

theorem callForAllEntryPattern_spec {ignoreCase : Bool} {m : Mem} {size : Nat} {rs : List Record}
    (himage : IsImage ignoreCase m size rs) (hrs : rs ≠ []) {w : Bytes} (hw : w ≠ []) :
    ∃ headers, callForAllEntryPattern (openFile ignoreCase true m size) (some w)
        (fun _ => false) =
        some ⟨headers, selected m (dataStart + totalSize rs) w true (placed dataStart rs)⟩ ∧
      headers <+: (placed dataStart rs).map Prod.fst := by
  have hstart := (recovered_openFile true himage hrs).2.1
  have hfits := himage.fits
  rw [himage.size_eq] at hfits
  have hfinish : dataStart + totalSize rs < 2 ^ 32 := by omega
  have hlength := length_le_totalSize rs
  have hcount := List.length_pos_of_ne_nil hrs
  have hroom : dataStart + sizeofRecordHeader ≤ dataStart + totalSize rs := by
    have h8 : sizeofRecordHeader = 8 := rfl
    omega
  rw [callForAllEntryPattern_eq, hstart, show (openFile ignoreCase true m size).file = m from rfl]
  split
  · next hnone =>
    have hnothing := @selected_eq_nil _ _ _ true _ rs fun j hj =>
      not_stands_of_uFind hw hroom hfinish hnone hj
    rw [hnothing]
    exact ⟨[], rfl, List.nil_prefix⟩
  · next q hsome =>
    have hq := isFirst_of_uFind hw hroom hfinish hsome
    exact @patternLoop_spec _ _ _ hw hfinish _ hrs _ himage.stored rfl true _ _ hq (by omega)

theorem scansPattern_iff_clear {ignoreCase : Bool} {m : Mem} {size : Nat} {rs : List Record}
    (himage : IsImage ignoreCase m size rs) (hrs : rs ≠ []) {w : Bytes} (hw : w ≠ []) :
    ScansPattern (openFile ignoreCase true m size) rs w ↔
      Clear m (dataStart + totalSize rs) w true (placed dataStart rs) := by
  obtain ⟨headers, hscan, hheaders⟩ := callForAllEntryPattern_spec himage hrs hw
  have hhit : ∀ x ∈ placed dataStart rs, Contains w x.2 → ∀ called,
      Hit m (dataStart + totalSize rs) w called x := fun x hx h =>
    hit_of_contains hw (himage.stored.holds hx) (placed_bounds hx).2 h
  rw [← selected_eq_filter_iff hhit true, ScansPattern, hscan]
  constructor
  · rintro ⟨t, ht, hcalls, -⟩
    obtain rfl := Option.some.inj ht
    exact hcalls
  · exact fun hcalls => ⟨_, rfl, hcalls, fun p hp => hheaders.subset hp⟩

theorem scansPattern_one :
    ∃ c, createFile false false 4200 [⟨[97], [98]⟩] = some c ∧
      ScansPattern (openFile false true c.file c.stSize) [⟨[97], [98]⟩] [97] := by
  obtain ⟨c, hc, -, -, himage⟩ := createFile_isImage false false 4200 [⟨[97], [98]⟩] (by decide)
  refine ⟨c, hc, (scansPattern_iff_clear himage (by decide) (by decide)).mpr ?_⟩
  exact ⟨.inl (by decide), trivial⟩

/-- The length of a key is taken for a part of the record. -/
theorem not_scansPattern :
    ∃ c, createFile false false 4200 [⟨[97], [98]⟩, ⟨[99], [100]⟩] = some c ∧
      ¬ ScansPattern (openFile false true c.file c.stSize) [⟨[97], [98]⟩, ⟨[99], [100]⟩] [1] := by
  obtain ⟨c, hc, -, -, himage⟩ :=
    createFile_isImage false false 4200 [⟨[97], [98]⟩, ⟨[99], [100]⟩] (by decide)
  refine ⟨c, hc, ?_⟩
  rintro ⟨t, ht, hcalls, -⟩
  obtain ⟨headers, hscan, -⟩ :=
    callForAllEntryPattern_spec (w := [1]) himage (by decide) (by decide)
  obtain rfl := Option.some.inj (ht.symm.trans hscan)
  have hlen : get c.file 4106 = 1 := himage.stored.2.1.1
  have hbyte : c.file 4106 = 1 := by
    rw [ByteMemory.get] at hlen
    exact UInt8.toNat_inj.mp (by rw [UInt8.toNat_one]; omega)
  have hhit : Hit c.file 4116 [1] false (4106, ⟨[99], [100]⟩) :=
    ⟨4106, by decide, by decide, by decide, by rw [← hbyte]; rfl⟩
  have hplaced : placed dataStart [⟨[97], [98]⟩, ⟨[99], [100]⟩] =
      [(4096, ⟨[97], [98]⟩), (4106, ⟨[99], [100]⟩)] := rfl
  have hend : dataStart + totalSize [⟨[97], [98]⟩, ⟨[99], [100]⟩] = 4116 := rfl
  have hfilter : [(4096, (⟨[97], [98]⟩ : Record)), (4106, ⟨[99], [100]⟩)].filter
      (fun x => decide (Contains [1] x.2)) = [] := by decide
  rw [hplaced, hend, hfilter, selected] at hcalls
  split_ifs at hcalls
  rw [selected, if_pos hhit] at hcalls
  exact List.cons_ne_nil _ _ hcalls

end ULib.CdbPattern
