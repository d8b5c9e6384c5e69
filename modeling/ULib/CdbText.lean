import ULib.CdbRoundTrip
import ULib.NumberText
import ULib.TextBuffer

/-!
The text of a constant database, which `operator<<` of `db/cdb.cpp` writes and
`operator>>` reads. A line holds the two lengths in decimal and then the bytes
of the record, whatever they are.
-/

namespace ULib.CdbText

open ULib.ByteMemory
open ULib.KeyComparison
open ULib.EscapeCoding
open ULib.JsonValue (printNat uCapacity)
open ULib.JsonScan
open ULib.NumberText
open ULib.ConstantDatabase
open ULib.CdbImage
open ULib.CdbRoundTrip
open ULib.StringHeap (allocated)
open ULib.TextBuffer hiding put

def plus : UInt8 := '+'.toUInt8

def lineFeed : UInt8 := '\n'.toUInt8

/-! ### operator<< -/

/-- `"+%u,%u:"` -/
def lengths (klen dlen : Nat) : Bytes :=
  plus :: printNat klen ++ ','.toUInt8 :: printNat dlen ++ [':'.toUInt8]

def arrow : Bytes := ['-'.toUInt8, '>'.toUInt8]

/-- `UCDB::print(char*)` -/
def printRecord (m : Mem) (pbuffer : Buffer) (src : Nat) : Option Buffer := do
  let klen := get m src
  let dlen := get m (src + 4)
  let pbuffer ← append pbuffer (lengths klen dlen)
  let pbuffer ← append pbuffer (read m (src + sizeofRecordHeader) klen)
  let pbuffer ← append pbuffer arrow
  let pbuffer ← append pbuffer (read m (src + sizeofRecordHeader + klen) dlen)
  append pbuffer [lineFeed]

/-- `UCDB::print()` -/
def print (c : UCDB) : Option Bytes :=
  if c.stSize ≠ 0 then
    ((callForAllEntry c).foldlM (printRecord c.file) (created (c.stSize % 2 ^ 32))).map Buffer.data
  else some []

/-- `operator<<` -/
def dump (c : UCDB) : Option Bytes := (print c).map (· ++ [lineFeed])

/-! ### operator>> -/

/-- An `istream`: the bytes that were not read yet, and whether no read failed. -/
structure Istream where
  rest : Bytes
  ok : Bool

namespace Istream

def failed : Istream := ⟨[], false⟩

/-- `is >> c` -/
def char (is : Istream) : Option UInt8 × Istream :=
  if is.ok then
    match is.rest.dropWhile cSpace with
    | [] => (none, failed)
    | c :: t => (some c, ⟨t, true⟩)
  else (none, is)

/-- `is.get()`, of a byte that is skipped. -/
def skip (is : Istream) : Istream :=
  if is.ok then
    match is.rest with
    | [] => failed
    | _ :: t => ⟨t, true⟩
  else is

/-- `is.get()` up to a line feed. -/
def skipLine (is : Istream) : Istream :=
  if is.ok then
    match is.rest.dropWhile (· ≠ lineFeed) with
    | [] => failed
    | _ :: t => ⟨t, true⟩
  else is

/-- `is >> n` of a `uint32_t`, which keeps its value where nothing is there to be read. -/
def number (is : Istream) (n : Nat) : Nat × Istream :=
  if is.ok then
    match is.rest.dropWhile cSpace with
    | [] => (n, failed)
    | t =>
        let (negative, u) := signed t
        match u.takeWhile isDigit with
        | [] => (0, ⟨u, false⟩)
        | digits =>
            let n := digitsValue digits
            let u := u.drop digits.length
            if 2 ^ 32 ≤ n then (2 ^ 32 - 1, ⟨u, false⟩)
            else (if negative then (2 ^ 32 - n) % 2 ^ 32 else n, ⟨u, true⟩)
  else (n, is)

/-- `is.read(ptr, n)`: the bytes that come to be at `ptr`. -/
def bytes (is : Istream) (n : Nat) : Bytes × Istream :=
  if is.ok then
    if n ≤ is.rest.length then (is.rest.take n, ⟨is.rest.drop n, true⟩) else (is.rest, failed)
  else ([], is)

end Istream

/-- What the loop keeps; `ptr` is in the place where the database has it at the end. -/
structure Loading where
  is : Istream
  cdb : UCDB
  klen : Nat
  dlen : Nat

/-- The record behind a `'+'`. -/
def loadRecord (s : Loading) : Loading :=
  let ptr := s.cdb.hr
  let (klen, is) := s.is.number s.klen
  let is := is.skip
  let (dlen, is) := is.number s.dlen
  let is := is.skip
  let m := put s.cdb.file ptr klen
  let m := put m (ptr + 4) dlen
  let ptr := ptr + sizeofRecordHeader
  let (key, is) := is.bytes klen
  let m := write m ptr key
  let is := is.skip.skip
  let ptr := ptr + klen
  let (data, is) := is.bytes dlen
  let m := write m ptr data
  let ptr := ptr + dlen
  ⟨is.skip, { s.cdb with file := m, hr := ptr, nrecord := s.cdb.nrecord + 1 }, klen, dlen⟩

/-- The loop; every round reads a byte, and `none` is a loop that did not end in so many rounds. -/
def loadLoop : Nat → Loading → Option Loading
  | 0, _ => none
  | fuel + 1, s =>
      match s.is.char with
      | (none, is) => some { s with is }
      | (some c, is) =>
          if c = '#'.toUInt8 then loadLoop fuel { s with is := is.skipLine }
          else if c ≠ plus then some { s with is }
          else loadLoop fuel (loadRecord { s with is })

/-- `operator>>` into a mapped file; `klen` and `dlen` are not initialised. -/
def load (cdb : UCDB) (klen dlen : Nat) (text : Bytes) : Option (UCDB × Istream) := do
  let s ← loadLoop (text.length + 1) ⟨⟨text, true⟩, makeStart cdb, klen, dlen⟩
  let (pos, cdb) ← makeFinish true s.cdb
  some ({ cdb with mapped := false, stSize := pos }, s.is)

/-! ### The text of the records -/

/-- What is appended for a record, piece by piece. -/
def pieces (r : Record) : List Bytes :=
  [lengths r.key.length r.data.length, r.key, arrow, r.data, [lineFeed]]

def text (rs : List Record) : Bytes := (rs.flatMap pieces).flatten

/-- Pieces can be appended behind `n` bytes: their number can be counted in pages, and none ends
where the block has no byte for the NUL. -/
def Appendable : Nat → Nat → List Bytes → Prop
  | _, _, [] => True
  | n, capacity, t :: ts =>
      if t = [] then Appendable n capacity ts
      else
        (n + t.length ≤ maxSize ∧ n + t.length < roomOf (granted capacity (n + t.length))) ∧
          Appendable (n + t.length) (granted capacity (n + t.length)) ts

instance decidableAppendable : ∀ n capacity ts, Decidable (Appendable n capacity ts)
  | _, _, [] => isTrue trivial
  | n, capacity, t :: ts =>
      have := decidableAppendable n capacity ts
      have := decidableAppendable (n + t.length) (granted capacity (n + t.length)) ts
      inferInstanceAs (Decidable (if t = [] then _ else _ ∧ _))

/-- The text can be written into a string that is created with the size of the file. -/
def Fits (stSize : Nat) (rs : List Record) : Prop :=
  Appendable 0 (allocated (stSize % 2 ^ 32)).1 (rs.flatMap pieces)

instance (stSize : Nat) (rs : List Record) : Decidable (Fits stSize rs) :=
  inferInstanceAs (Decidable (Appendable _ _ _))

/-- A mapped database with the records: they are what is visited, and with their slots they are a
file whose positions have 32 bits. A file of no bytes is not visited. -/
structure Holds (c : UCDB) (rs : List Record) : Prop where
  mapped : c.mapped = true
  visited : (callForAllEntry c).map (recordAt c.file) = rs
  fits : dataStart + totalSize rs + 8 * rs.length < 2 ^ 32
  opened : c.stSize = 0 → rs = []

/-- The text of `c` is written, and what it makes of another file has the records. -/
def Reloads (c target : UCDB) (klen dlen : Nat) (rs : List Record) : Prop :=
  ∃ t, dump c = some t ∧ ∃ r, load target klen dlen t = some r ∧ Recovered rs r.1

theorem text_cons (r : Record) (rs : List Record) :
    text (r :: rs) = (pieces r).flatten ++ text rs := by
  rw [text, List.flatMap_cons, List.flatten_append]
  rfl

/-! ### Writing the text -/

theorem foldlM_append {x : Buffer} (hx : Regular x) (ts : List Bytes) :
    (ts.foldlM append x).map Buffer.data =
      if Appendable x.data.length x.capacity ts then some (x.data ++ ts.flatten) else none := by
  induction ts generalizing x with
  | nil => rw [if_pos (by trivial), List.flatten_nil, List.append_nil]; rfl
  | cons t ts ih =>
      rw [List.foldlM_cons]
      by_cases ht : t = []
      · subst ht
        rw [append, if_pos rfl]
        exact ih hx
      · rw [append_eq hx ht]
        simp only [Appendable, if_neg ht]
        by_cases hroom : x.data.length + t.length ≤ maxSize ∧
            x.data.length + t.length < roomOf (granted x.capacity (x.data.length + t.length))
        · have hrest := ih (regular_filled hx hroom.1)
          rw [length_filled] at hrest
          rw [if_pos hroom, Option.bind_eq_bind, Option.bind_some, hrest, List.flatten_cons,
            ← List.append_assoc]
          simp only [hroom, and_self, true_and]
          rfl
        · rw [if_neg hroom, if_neg fun h => hroom h.1]
          rfl

/-- A string without text, with the NUL that its capacity leaves room for. -/
def sized (n : Nat) : Buffer := ⟨[], (allocated n).1, roomOf (allocated n).1⟩

theorem regular_sized (n : Nat) : Regular (sized n) := ⟨(allocated_le n).1, rfl, Nat.zero_le _⟩

/-- A string without pages gets its block with the first bytes. -/
theorem append_created {n : Nat} (hn : n < 2 ^ 32) {t : Bytes} (ht : t ≠ [])
    (hlength : t.length < 2 ^ 32) :
    append (created n) t = append (sized n) t := by
  by_cases hle : n ≤ maxSize
  · rw [created, room_allocated hle, sized]
  · have hzero : allocated n = (0, 0) := by
      rw [maxSize] at hle
      rw [allocated, uCapacity, if_neg (by omega), show (n + 4095) % 2 ^ 32 / 4096 * 4096 = 0 by
        omega]
    have hpos := List.length_pos_of_ne_nil ht
    have hgrow : (0 : Nat) < (([] : Bytes).length + t.length) % 2 ^ 32 := by
      rw [List.length_nil, Nat.zero_add, Nat.mod_eq_of_lt hlength]
      exact hpos
    rw [created, sized, hzero, append, append, if_neg ht, if_neg ht]
    dsimp only
    rw [if_pos hgrow, if_pos hgrow]

theorem length_lengths_le {klen dlen : Nat} (hk : klen < 2 ^ 32) (hd : dlen < 2 ^ 32) :
    (lengths klen dlen).length ≤ 23 := by
  have hklen := length_printNat_le (by decide) (hk.trans (by decide : 2 ^ 32 < 10 ^ 10))
  have hdlen := length_printNat_le (by decide) (hd.trans (by decide : 2 ^ 32 < 10 ^ 10))
  simp only [lengths, List.length_cons, List.length_append, List.length_nil]
  omega

theorem printRecord_eq (m : Mem) (x : Buffer) (src : Nat) :
    printRecord m x src = (pieces (recordAt m src)).foldlM append x := by
  rw [printRecord, pieces, recordAt]
  simp only [length_read, List.foldlM_cons, List.foldlM_nil, bind_pure]

theorem foldlM_printRecord (m : Mem) (x : Buffer) (srcs : List Nat) :
    srcs.foldlM (printRecord m) x =
      ((srcs.map (recordAt m)).flatMap pieces).foldlM append x := by
  induction srcs generalizing x with
  | nil => rfl
  | cons src srcs ih =>
      rw [List.foldlM_cons, printRecord_eq, List.map_cons, List.flatMap_cons, List.foldlM_append]
      simp only [ih]

theorem print_eq {c : UCDB} {rs : List Record} (h : Holds c rs) :
    print c = if Fits c.stSize rs then some (text rs) else none := by
  cases rs with
  | nil =>
      have hnil : callForAllEntry c = [] := List.map_eq_nil_iff.mp h.visited
      have hfits : Fits c.stSize [] := trivial
      rw [print, hnil, if_pos hfits]
      split_ifs <;> rfl
  | cons r rs =>
      have hopened : c.stSize ≠ 0 := fun hzero => absurd (h.opened hzero) (List.cons_ne_nil r rs)
      have hfits := h.fits
      rw [totalSize_cons, recordSize] at hfits
      have hlengths := length_lengths_le (show r.key.length < 2 ^ 32 by omega)
        (show r.data.length < 2 ^ 32 by omega)
      have hne : lengths r.key.length r.data.length ≠ [] := List.cons_ne_nil _ _
      rw [print, if_pos hopened, foldlM_printRecord, h.visited]
      have hfirst : ((r :: rs).flatMap pieces).foldlM append (created (c.stSize % 2 ^ 32)) =
          ((r :: rs).flatMap pieces).foldlM append (sized (c.stSize % 2 ^ 32)) := by
        rw [List.flatMap_cons, pieces, List.cons_append, List.foldlM_cons, List.foldlM_cons,
          append_created (Nat.mod_lt _ (by decide)) hne (by omega)]
      rw [hfirst, foldlM_append (regular_sized _)]
      rfl

/-! ### Reading the text -/

theorem number_printNat {n : Nat} (hn : n < 2 ^ 32) {c : UInt8} (hc : isDigit c = false)
    (rest : Bytes) (v : Nat) :
    Istream.number ⟨printNat n ++ c :: rest, true⟩ v = (n, ⟨c :: rest, true⟩) := by
  obtain ⟨hne, hdigits, hvalue⟩ := printNat_spec n
  cases hprint : printNat n with
  | nil => exact absurd hprint hne
  | cons d w =>
      rw [hprint] at hne hdigits hvalue
      have hspace := (digit_not_sign d (hdigits d List.mem_cons_self)).1
      have hsigned := signed_digits hdigits hne (c :: rest)
      rw [List.cons_append] at hsigned
      have htake : (d :: (w ++ c :: rest)).takeWhile isDigit = d :: w := takeWhile_digits hdigits hc
      rw [Istream.number, if_pos rfl, List.cons_append]
      simp only [List.dropWhile_cons_of_neg (Bool.eq_false_iff.mp hspace), hsigned, htake, hvalue]
      rw [if_neg (Nat.not_le.mpr hn), ← List.cons_append, List.drop_left]
      rfl

theorem bytes_append (w rest : Bytes) :
    Istream.bytes ⟨w ++ rest, true⟩ w.length = (w, ⟨rest, true⟩) := by
  have hle : w.length ≤ (w ++ rest).length := by
    rw [List.length_append]
    exact Nat.le_add_right _ _
  simp only [Istream.bytes, if_true, if_pos hle, List.take_left, List.drop_left]

theorem skip_cons (c : UInt8) (rest : Bytes) : Istream.skip ⟨c :: rest, true⟩ = ⟨rest, true⟩ := rfl

theorem char_cons {c : UInt8} (hc : cSpace c = false) (rest : Bytes) :
    Istream.char ⟨c :: rest, true⟩ = (some c, ⟨rest, true⟩) := by
  simp only [Istream.char, if_true, List.dropWhile_cons_of_neg (Bool.eq_false_iff.mp hc)]

theorem pieces_append (r : Record) (rest : Bytes) :
    (pieces r).flatten ++ rest =
      plus :: (printNat r.key.length ++ ','.toUInt8 :: (printNat r.data.length ++ ':'.toUInt8 ::
        (r.key ++ '-'.toUInt8 :: '>'.toUInt8 :: (r.data ++ lineFeed :: rest)))) := by
  simp only [pieces, lengths, arrow, List.flatten_cons, List.flatten_nil, List.cons_append,
    List.append_assoc, List.nil_append]

/-- The bytes of the record are counted, so that none of them is looked at. -/
theorem loadRecord_pieces (c : UCDB) (klen dlen : Nat) {r : Record} (hk : r.key.length < 2 ^ 32)
    (hd : r.data.length < 2 ^ 32) (rest : Bytes) :
    loadRecord ⟨⟨printNat r.key.length ++ ','.toUInt8 :: (printNat r.data.length ++ ':'.toUInt8 ::
        (r.key ++ '-'.toUInt8 :: '>'.toUInt8 :: (r.data ++ lineFeed :: rest))), true⟩,
        c, klen, dlen⟩ =
      ⟨⟨rest, true⟩, makeAdd c r, r.key.length, r.data.length⟩ := by
  have hcomma : isDigit ','.toUInt8 = false := rfl
  have hcolon : isDigit ':'.toUInt8 = false := rfl
  simp only [loadRecord, number_printNat hk hcomma, number_printNat hd hcolon, skip_cons,
    bytes_append, makeAdd]

theorem loadLoop_pieces (k : Nat) (c : UCDB) (klen dlen : Nat) {r : Record}
    (hk : r.key.length < 2 ^ 32) (hd : r.data.length < 2 ^ 32) (rest : Bytes) :
    loadLoop (k + 1) ⟨⟨(pieces r).flatten ++ rest, true⟩, c, klen, dlen⟩ =
      loadLoop k ⟨⟨rest, true⟩, makeAdd c r, r.key.length, r.data.length⟩ := by
  have hspace : cSpace plus = false := rfl
  have hcomment : plus ≠ '#'.toUInt8 := by decide
  rw [pieces_append, loadLoop]
  simp only [char_cons hspace, if_neg hcomment, ne_eq, not_true_eq_false, if_false]
  rw [loadRecord_pieces c klen dlen hk hd]

/-- The loop adds the records of the text, and ends at the line feed behind them. -/
theorem loadLoop_text (k : Nat) (c : UCDB) (klen dlen : Nat) (rs : List Record)
    (hrs : rs.length < k) (hsize : totalSize rs < 2 ^ 32) :
    ∃ s, loadLoop k ⟨⟨text rs ++ [lineFeed], true⟩, c, klen, dlen⟩ = some s ∧
      s.cdb = rs.foldl makeAdd c := by
  induction rs generalizing k c klen dlen with
  | nil =>
      cases k with
      | zero => exact absurd hrs (Nat.not_lt_zero _)
      | succ k => exact ⟨⟨Istream.failed, c, klen, dlen⟩, rfl, rfl⟩
  | cons r rs ih =>
      cases k with
      | zero => exact absurd hrs (Nat.not_lt_zero _)
      | succ k =>
          rw [totalSize_cons, recordSize] at hsize
          rw [text_cons, List.append_assoc, loadLoop_pieces k c klen dlen (by omega) (by omega)]
          exact ih k (makeAdd c r) r.key.length r.data.length (Nat.lt_of_succ_lt_succ hrs)
            (by omega)

theorem length_le_text (rs : List Record) : rs.length ≤ (text rs).length := by
  induction rs with
  | nil => exact Nat.zero_le _
  | cons r rs ih =>
      simp only [text_cons, pieces_append, List.length_cons, List.length_append]
      omega

/-! ### The file that was read -/

theorem load_text (target : UCDB) (klen dlen : Nat) {rs : List Record}
    (hfits : dataStart + totalSize rs + 8 * rs.length < 2 ^ 32) :
    ∃ r, load target klen dlen (text rs ++ [lineFeed]) = some r ∧ Recovered rs r.1 := by
  have hlength := length_le_text rs
  obtain ⟨s, hloop, hcdb⟩ := loadLoop_text ((text rs ++ [lineFeed]).length + 1) (makeStart target)
    klen dlen rs (by rw [List.length_append]; omega) (by omega)
  have hadd : Adding s.cdb rs := by
    rw [hcdb]
    simpa using (makeStart_adding target).foldl rs (by omega)
  rw [load, hloop, Option.bind_eq_bind, Option.bind_some]
  by_cases hnil : rs = []
  · subst hnil
    have hnrecord := hadd.nrecord
    rw [List.length_nil] at hnrecord
    rw [makeFinish, if_neg (by omega)]
    exact ⟨_, rfl, hadd.nrecord, hadd.hr, visited_of_stored hadd.stored hadd.hr⟩
  · have hready : ReadyToFinish true s.cdb rs := ⟨hfits, .inl rfl, fun h => absurd h hnil⟩
    obtain ⟨m, hfinish, himage⟩ := makeFinish_isImage hadd hready
    rw [hfinish]
    exact ⟨_, rfl, hadd.nrecord, rfl, visited_of_stored himage.stored rfl⟩

/-! ### Which texts fit -/

theorem appendable_of_lt {capacity : Nat} (hcapacity : capacity ≤ maxSize) {n : Nat}
    {ts : List Bytes} (hlt : n + ts.flatten.length < capacity) : Appendable n capacity ts := by
  induction ts generalizing n with
  | nil => trivial
  | cons t ts ih =>
      rw [List.flatten_cons, List.length_append, ← Nat.add_assoc] at hlt
      by_cases ht : t = []
      · subst ht
        exact ih hlt
      · have hgranted : granted capacity (n + t.length) = capacity := if_pos (by omega)
        have hroom : capacity ≤ roomOf capacity := by
          rw [roomOf]
          split_ifs <;> omega
        simp only [Appendable, if_neg ht, hgranted]
        exact ⟨⟨by omega, by omega⟩, ih hlt⟩

/-- Whole pages that the text fills have no byte for the NUL. -/
theorem ne_capacity_of_appendable {capacity : Nat} (hpages : uCapacity < capacity) {n : Nat}
    {ts : List Bytes} (h : Appendable n capacity ts) (hlt : n < capacity) :
    n + ts.flatten.length ≠ capacity := by
  induction ts generalizing n with
  | nil => exact Nat.ne_of_lt hlt
  | cons t ts ih =>
      rw [List.flatten_cons, List.length_append, ← Nat.add_assoc]
      by_cases ht : t = []
      · subst ht
        exact ih h hlt
      · simp only [Appendable, if_neg ht] at h
        by_cases hle : n + t.length ≤ capacity
        · rw [show granted capacity (n + t.length) = capacity from if_pos hle, roomOf,
            if_neg (Nat.not_le.mpr hpages)] at h
          exact ih h.2 h.1.2
        · omega

theorem length_pieces (r : Record) :
    (pieces r).flatten.length = 6 + (printNat r.key.length).length +
      (printNat r.data.length).length + r.key.length + r.data.length := by
  rw [← List.append_nil (pieces r).flatten, pieces_append]
  simp only [List.length_cons, List.length_append, List.length_nil]
  omega

/-- A slot and a header take as many bytes as the signs and ten digits of a line. -/
theorem length_text_le {rs : List Record}
    (hshort : ∀ r ∈ rs, r.key.length < 10 ^ 5 ∧ r.data.length < 10 ^ 5) :
    (text rs).length ≤ totalSize rs + 8 * rs.length := by
  induction rs with
  | nil => exact Nat.zero_le _
  | cons r rs ih =>
      obtain ⟨hkey, hdata⟩ := hshort r List.mem_cons_self
      have hk := length_printNat_le (by decide) hkey
      have hd := length_printNat_le (by decide) hdata
      have hrest := ih fun r' hr' => hshort r' (List.mem_cons_of_mem r hr')
      rw [text_cons, List.length_append, length_pieces, totalSize_cons, List.length_cons,
        recordSize,
        sizeofRecordHeader]
      omega

/-- Keys and data of less than 100000 bytes never fill the string. -/
theorem fits_of_short {rs : List Record}
    (hshort : ∀ r ∈ rs, r.key.length < 10 ^ 5 ∧ r.data.length < 10 ^ 5) {stSize : Nat}
    (hsize : stSize = dataStart + totalSize rs + 8 * rs.length) (hle : stSize ≤ maxSize) :
    Fits stSize rs := by
  have htext := length_text_le hshort
  have hmod : stSize % 2 ^ 32 = stSize := Nat.mod_eq_of_lt (by rw [maxSize] at hle; omega)
  have hallocated := le_allocated hle
  rw [Fits, hmod]
  apply appendable_of_lt (allocated_le stSize).1
  rw [Nat.zero_add]
  change (text rs).length < _
  rw [dataStart_eq] at hsize
  omega

theorem startHashTableSlot_makeFinish {reset : Bool} {c : UCDB} {r : Nat × UCDB}
    (h : makeFinish reset c = some r) : r.2.startHashTableSlot = c.hr := by
  rw [makeFinish] at h
  by_cases hn : 0 < c.nrecord
  · rw [if_pos hn] at h
    obtain ⟨m, -, rfl⟩ := Option.map_eq_some_iff.mp h
    rfl
  · rw [if_neg hn] at h
    obtain rfl := Option.some.inj h
    rfl

/-- A database that was just made holds its records. -/
theorem holds_createFile (ignoreCase reset : Bool) (size : Nat) (rs : List Record)
    (hfits : dataStart + totalSize rs + 8 * rs.length < 2 ^ 32) :
    ∃ c, createFile ignoreCase reset size rs = some c ∧ Holds c rs ∧
      c.stSize = dataStart + totalSize rs + 8 * rs.length := by
  obtain ⟨c, hc, hmapped, -, himage⟩ := createFile_isImage ignoreCase reset size rs hfits
  have hstart : c.startHashTableSlot = dataStart + totalSize rs := by
    obtain ⟨r, hfinish, rfl⟩ := Option.map_eq_some_iff.mp hc
    exact (startHashTableSlot_makeFinish hfinish).trans
      ((makeStart_adding _).foldl rs (by omega)).hr
  have hsize := himage.size_eq
  refine ⟨c, hc, ⟨hmapped, ?_, hfits, fun hzero => ?_⟩, hsize⟩
  · exact visited_of_stored himage.stored hstart
  · rw [hzero, dataStart_eq] at hsize
    omega

/-- Records of the same lengths. -/
def uniform (n k : Nat) : List Record :=
  List.replicate n ⟨List.replicate k 0, List.replicate k 0⟩

theorem length_text_uniform (n k : Nat) :
    (text (uniform n k)).length = n * (6 + 2 * (printNat k).length + 2 * k) := by
  induction n with
  | zero => rw [Nat.zero_mul]; rfl
  | succ n ih =>
      rw [uniform] at ih ⊢
      rw [List.replicate_succ, text_cons, List.length_append, ih, length_pieces, Nat.succ_mul n]
      dsimp only
      rw [List.length_replicate]
      omega

theorem size_uniform (n k : Nat) :
    totalSize (uniform n k) + 8 * (uniform n k).length = n * (16 + 2 * k) := by
  rw [totalSize, uniform, List.map_replicate, List.sum_replicate_nat, List.length_replicate,
    recordSize, sizeofRecordHeader, List.length_replicate, Nat.mul_comm 8 n, ← Nat.mul_add]
  congr 1
  omega

/-- 2048 records of 200000 bytes, with as many bytes of text as the file has: 100009 pages. -/
def large : List Record := uniform 2048 100000

theorem length_text_large : (text large).length = 409636864 := by
  have hdigits : (printNat 100000).length = 6 := by decide +kernel
  rw [large, length_text_uniform, hdigits]

theorem size_large : totalSize large + 8 * large.length = 409632768 := by
  rw [large, size_uniform]

theorem not_fits_large : ¬ Fits 409636864 large := by
  intro h
  have hallocated : (allocated (409636864 % 2 ^ 32)).1 = 409636864 := by decide
  rw [Fits, hallocated] at h
  have hne := ne_capacity_of_appendable (by decide) h (by decide)
  rw [Nat.zero_add] at hne
  exact hne length_text_large

/-- The text of a database makes a database with the same records in the same order, whatever
bytes they have and whatever the other file held, exactly when the text fits into its string. -/
theorem reloads_iff {c : UCDB} {rs : List Record} (h : Holds c rs) (target : UCDB)
    (klen dlen : Nat) : Reloads c target klen dlen rs ↔ Fits c.stSize rs := by
  rw [Reloads, dump, print_eq h]
  constructor
  · rintro ⟨t, ht, -⟩
    by_contra hnot
    rw [if_neg hnot] at ht
    cases ht
  · intro hfits
    rw [if_pos hfits]
    exact ⟨_, rfl, load_text target klen dlen h.fits⟩

theorem records_reload :
    ∃ c, createFile false true 4500 [⟨[], []⟩, ⟨[10, 43], [35, 10]⟩, ⟨[10, 43], []⟩] = some c ∧
      ∀ target klen dlen, Reloads c target klen dlen
        [⟨[], []⟩, ⟨[10, 43], [35, 10]⟩, ⟨[10, 43], []⟩] := by
  obtain ⟨c, hc, hholds, hsize⟩ := holds_createFile false true 4500
    [⟨[], []⟩, ⟨[10, 43], [35, 10]⟩, ⟨[10, 43], []⟩] (by decide)
  refine ⟨c, hc, fun target klen dlen => (reloads_iff hholds target klen dlen).mpr ?_⟩
  exact fits_of_short (by decide) hsize (by rw [hsize]; decide)

/-- The NUL behind the last line feed is written behind the last page. -/
theorem not_reloads :
    ∃ c, createFile false true 409636864 large = some c ∧ Holds c large ∧
      ∀ target klen dlen, ¬ Reloads c target klen dlen large := by
  have hlarge := size_large
  obtain ⟨c, hc, hholds, hsize⟩ := holds_createFile false true 409636864 large
    (by rw [dataStart_eq]; omega)
  refine ⟨c, hc, hholds, fun target klen dlen => ?_⟩
  rintro ⟨t, ht, -⟩
  have hsize : c.stSize = 409636864 := by
    rw [hsize, dataStart_eq]
    omega
  rw [dump, print_eq hholds, hsize, if_neg not_fits_large] at ht
  cases ht

end ULib.CdbText
