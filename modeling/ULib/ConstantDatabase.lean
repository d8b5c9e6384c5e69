import ULib.ByteMemory
import ULib.KeyComparison
import ULib.LinearProbing

/-!
The class `UCDB` of `db/cdb.h` and `db/cdb.cpp`. A constant database is one
file: 512 pointers to hash tables, the records, the hash tables. Addresses are
offsets from the start of the file, which is also where the mapping starts.

The object is split in two: `UCDB` holds the file and what `open` and the
`make` functions maintain, `Cursor` holds what `find` and `findNext` leave
behind. When the file could not be mapped (`map == MAP_FAILED`) the headers
are read with `pread` into the three `_buf` members of the object.
-/

namespace ULib.ConstantDatabase

open ByteMemory
open KeyComparison

/-- `CDB_NUM_HASH_TABLE_POINTER`. -/
def numHashTablePointer : Nat := 512

/-- `sizeof(cdb_hash_table_pointer)`, of `{ pos, slots }`. -/
def sizeofHashTablePointer : Nat := 8

/-- `sizeof(cdb_record_header)`, of `{ klen, dlen }`. -/
def sizeofRecordHeader : Nat := 8

/-- `sizeof(cdb_hash_table_slot)`, of `{ hash, pos }`. -/
def sizeofHashTableSlot : Nat := 8

structure UCDB where
  ignoreCase : Bool
  /-- `UFile::map != MAP_FAILED`. -/
  mapped : Bool
  file : Mem
  stSize : Nat
  nrecord : Nat
  startHashTableSlot : Nat
  /-- Where the next `makeAdd` writes. -/
  hr : Nat

structure Cursor where
  key : Bytes
  khash : Nat
  data : Bytes
  hp : Nat
  slot : Nat
  hr : Nat
  hpBuf : Mem
  slotBuf : Mem
  hrBuf : Mem
  loop : Nat
  nslot : Nat
  offset : Nat

/-- A record as the caller of `makeAdd` sees it. -/
structure Record where
  key : Bytes
  data : Bytes
  deriving DecidableEq, Repr

def cdbHash (ignoreCase : Bool) (key : Bytes) : Nat := (uCdbHash key ignoreCase).toNat

/-- `pread` of `n` bytes at `offset`; at the end of the file it comes back
short and leaves the rest of the buffer alone. -/
def pread (c : UCDB) (buf : Mem) (n offset : Nat) : Mem := fun i =>
  if i < n ∧ offset + i < c.stSize then c.file (offset + i) else buf i

/-- `pread` of `n` bytes into memory that was not initialised. -/
def preadNew (c : UCDB) (n offset : Nat) : Bytes :=
  read (pread c (fun _ => 0) n offset) 0 n

namespace Cursor

def hpPos (c : UCDB) (cur : Cursor) : Nat :=
  if c.mapped then get c.file cur.hp else get cur.hpBuf 0

def hpSlots (c : UCDB) (cur : Cursor) : Nat :=
  if c.mapped then get c.file (cur.hp + 4) else get cur.hpBuf 4

def slotHash (c : UCDB) (cur : Cursor) : Nat :=
  if c.mapped then get c.file cur.slot else get cur.slotBuf 0

def slotPos (c : UCDB) (cur : Cursor) : Nat :=
  if c.mapped then get c.file (cur.slot + 4) else get cur.slotBuf 4

def hrKlen (c : UCDB) (cur : Cursor) : Nat :=
  if c.mapped then get c.file cur.hr else get cur.hrBuf 0

def hrDlen (c : UCDB) (cur : Cursor) : Nat :=
  if c.mapped then get c.file (cur.hr + 4) else get cur.hrBuf 4

/-- Point `hp` at a hash table pointer. -/
def loadHp (c : UCDB) (cur : Cursor) (offset : Nat) : Cursor :=
  if c.mapped then { cur with hp := offset }
  else { cur with hpBuf := pread c cur.hpBuf sizeofHashTablePointer offset }

/-- Point `slot` at a slot. -/
def loadSlot (c : UCDB) (cur : Cursor) (offset : Nat) : Cursor :=
  if c.mapped then { cur with slot := offset }
  else { cur with slotBuf := pread c cur.slotBuf sizeofHashTableSlot offset }

/-- Point `hr` at a record header. -/
def loadHr (c : UCDB) (cur : Cursor) (pos : Nat) : Cursor :=
  if c.mapped then { cur with hr := pos }
  else { cur with hrBuf := pread c cur.hrBuf sizeofRecordHeader pos }

end Cursor

open Cursor

/-- The loop of `match` without a mapping, on pieces of at most
`sizeof(_buf)` bytes. -/
def matchPieces (c : UCDB) : Nat → Bytes → Nat → Bool
  | 0, _, _ => true
  | fuel + 1, pkey, pos =>
      if pkey.length = 0 then true
      else
        let n := min pkey.length 32
        if uEqual pkey (preadNew c n pos) n c.ignoreCase ≠ 0 then false
        else matchPieces c fuel (pkey.drop n) (pos + n)

/-- `match`. -/
def matchRecord (c : UCDB) (cur : Cursor) (pos : Nat) : Bool × Cursor :=
  if c.mapped then
    let dsize := hrDlen c cur
    let cur := { cur with hr := cur.hr + sizeofRecordHeader }
    if uEqual cur.key (read c.file cur.hr cur.key.length) cur.key.length c.ignoreCase = 0 then
      (true, { cur with data := read c.file (cur.hr + cur.key.length) dsize })
    else (false, cur)
  else
    let pos := pos + sizeofRecordHeader
    if matchPieces c cur.key.length cur.key pos then
      (true, { cur with data := preadNew c (hrDlen c cur) (pos + cur.key.length) })
    else (false, cur)

/-- Go to the next slot of the table. At the end of the table the mapped
branch goes back to its start by moving `slot`, the other branch by reading
there, with `offset` left where it is. -/
def advance (c : UCDB) (cur : Cursor) : Cursor :=
  let cur := { cur with nslot := cur.nslot + 1 }
  if cur.nslot = hpSlots c cur then loadSlot c { cur with nslot := 0 } (hpPos c cur)
  else if c.mapped then { cur with slot := cur.slot + sizeofHashTableSlot }
  else
    let cur := { cur with offset := (cur.offset + sizeofHashTableSlot) % 2 ^ 32 }
    loadSlot c cur cur.offset

/-- First half of the body of the loop of `findNext`. -/
def nextSlot (c : UCDB) (cur : Cursor) : Cursor :=
  let cur := { cur with loop := cur.loop + 1 }
  if cur.loop > 1 then advance c cur else cur

/-- Second half: `none` at a free slot, which breaks the loop, otherwise
whether the slot is one of the key, which returns. -/
def inspectSlot (c : UCDB) (cur : Cursor) : Option Bool × Cursor :=
  let pos := slotPos c cur
  if pos = 0 then (none, cur)
  else if slotHash c cur = cur.khash then
    let cur := loadHr c cur pos
    if hrKlen c cur = cur.key.length then
      let (found, cur) := matchRecord c cur pos
      (some found, cur)
    else (some false, cur)
  else (some false, cur)

/-- The loop of `findNext`, with the number of turns that `++loop <= hp->slots`
still allows. -/
def findNextLoop (c : UCDB) : Nat → Cursor → Bool × Cursor
  | 0, cur => (false, { cur with loop := cur.loop + 1 })
  | fuel + 1, cur =>
      match inspectSlot c (nextSlot c cur) with
      | (none, cur) => (false, cur)
      | (some true, cur) => (true, cur)
      | (some false, cur) => findNextLoop c fuel cur

def findNext (c : UCDB) (cur : Cursor) : Bool × Cursor :=
  findNextLoop c (hpSlots c cur - cur.loop) cur

/-- `find`, for the key and hash in the cursor. -/
def find (c : UCDB) (cur : Cursor) : Bool × Cursor :=
  let cur := { cur with
    offset := cur.khash % numHashTablePointer * sizeofHashTablePointer }
  let cur := loadHp c cur cur.offset
  if hpSlots c cur ≠ 0 then
    let cur := { cur with nslot := cur.khash / numHashTablePointer % hpSlots c cur }
    let cur := { cur with
      offset := (hpPos c cur + cur.nslot * sizeofHashTableSlot) % 2 ^ 32 }
    let cur := loadSlot c cur cur.offset
    if slotPos c cur ≠ 0 then findNext c { cur with loop := 0 } else (false, cur)
  else (false, cur)

/-- `find(const UString&)`. -/
def findKey (c : UCDB) (cur : Cursor) (key : Bytes) : Bool × Cursor :=
  find c { cur with key := key, khash := cdbHash c.ignoreCase key }

/-- `find(key)` and then `i` times `findNext()`. -/
def findSeq (c : UCDB) (cur : Cursor) (key : Bytes) : Nat → Bool × Cursor
  | 0 => findKey c cur key
  | i + 1 => findNext c (findSeq c cur key i).2

/-- What a call of `find` or `findNext` hands to its caller. -/
def result (r : Bool × Cursor) : Option Bytes := if r.1 then some r.2.data else none

/-! ### Writing -/

def makeStart (c : UCDB) : UCDB :=
  { c with
    nrecord := 0
    startHashTableSlot := 0
    hr := numHashTablePointer * sizeofHashTablePointer }

/-- `makeAdd(const datum&, const datum&)`. -/
def makeAdd (c : UCDB) (r : Record) : UCDB :=
  let m := put c.file c.hr r.key.length
  let m := put m (c.hr + 4) r.data.length
  let ptr := c.hr + sizeofRecordHeader
  let m := write m ptr r.key
  let m := write m (ptr + r.key.length) r.data
  { c with file := m, hr := ptr + r.key.length + r.data.length, nrecord := c.nrecord + 1 }

/-- `makeAdd(char*)`: copy the record at `src` of another mapping. -/
def makeAddFrom (c : UCDB) (source : Mem) (src : Nat) : UCDB :=
  let sz := (sizeofRecordHeader + get source src + get source (src + 4)) % 2 ^ 32
  { c with
    file := write c.file c.hr (read source src sz)
    hr := c.hr + sz
    nrecord := c.nrecord + 1 }

/-- `struct cdb_tmp` of `makeFinish`. -/
structure Tmp where
  hash : Nat
  pos : Nat
  index : Nat
  deriving DecidableEq, Repr

/-- First loop of `makeFinish`: hash the records and count them by table. -/
def hashRecords (ignoreCase : Bool) (eod : Nat) : Nat → Nat → Mem → List Tmp × Mem
  | 0, _, m => ([], m)
  | fuel + 1, ptr, m =>
      if ptr < eod then
        let klen := get m ptr
        let hash := cdbHash ignoreCase (read m (ptr + sizeofRecordHeader) klen)
        let index := hash % numHashTablePointer
        let slots := index * sizeofHashTablePointer + 4
        let m := put m slots (get m slots + 1)
        let rest := hashRecords ignoreCase eod fuel
          (ptr + sizeofRecordHeader + klen + get m (ptr + 4)) m
        (⟨hash, ptr, index⟩ :: rest.1, rest.2)
      else ([], m)

/-- Second loop: the position of every table, one after the other from `pos`
on. -/
def setPositions (m : Mem) (pos : Nat) : Nat → Mem × Nat
  | 0 => (m, pos)
  | i + 1 =>
      let (m, pos) := setPositions m pos i
      let m := put m (i * sizeofHashTablePointer) pos
      (m, (pos + get m (i * sizeofHashTablePointer + 4) * sizeofHashTableSlot) % 2 ^ 32)

/-- One turn of the last loop: the first slot with `pos == 0` from the home
slot on. The probe goes round the table for ever when there is none, which is
`none` here. -/
def insertSlot (m : Mem) (t : Tmp) : Option Mem :=
  let slot := get m (t.index * sizeofHashTablePointer)
  let slots := get m (t.index * sizeofHashTablePointer + 4)
  let nslot := t.hash / numHashTablePointer % slots
  (LinearProbing.search
      (fun j => decide (get m (slot + j * sizeofHashTableSlot + 4) ≠ 0)) slots slots nslot).map
    fun j => put (put m (slot + j * sizeofHashTableSlot) t.hash)
      (slot + j * sizeofHashTableSlot + 4) t.pos

def makeFinish (reset : Bool) (c : UCDB) : Option (Nat × UCDB) :=
  let eod := c.hr
  if 0 < c.nrecord then
    let m := fill c.file 0 (numHashTablePointer * sizeofHashTablePointer) 0
    let hashed := hashRecords c.ignoreCase eod eod
      (numHashTablePointer * sizeofHashTablePointer) m
    let placed := setPositions hashed.2 eod numHashTablePointer
    let m := if reset then fill placed.1 eod (placed.2 - eod) 0 else placed.1
    ((hashed.1.take c.nrecord).foldlM insertSlot m).map fun m =>
      (placed.2, { c with file := m, startHashTableSlot := eod })
  else some (eod, { c with startHashTableSlot := eod })

/-! ### Opening and scanning -/

/-- `open`, of a file of `stSize` bytes that is there; `mapped` tells whether
the mapping succeeded. -/
def openFile (ignoreCase mapped : Bool) (file : Mem) (stSize : Nat) : UCDB :=
  let start := if stSize = 0 then 0 else get file 0
  { ignoreCase, mapped, file, stSize, hr := 0
    startHashTableSlot := start
    nrecord := if stSize = 0 then 0
      else ((stSize + 2 ^ 64 - start) % 2 ^ 64 / sizeofHashTableSlot) % 2 ^ 32 }

/-- The record at an address. -/
def recordAt (m : Mem) (p : Nat) : Record :=
  ⟨read m (p + sizeofRecordHeader) (get m p),
    read m (p + sizeofRecordHeader + get m p) (get m (p + 4))⟩

/-- The addresses that `callForAllEntry(vPFpc)` hands to its function. -/
def callForAllEntryLoop (m : Mem) (finish : Nat) : Nat → Nat → List Nat
  | 0, _ => []
  | fuel + 1, ptr =>
      if ptr < finish then
        ptr :: callForAllEntryLoop m finish fuel
          (ptr + sizeofRecordHeader + get m ptr + get m (ptr + 4))
      else []

def callForAllEntry (c : UCDB) : List Nat :=
  callForAllEntryLoop c.file c.startHashTableSlot c.startHashTableSlot
    (numHashTablePointer * sizeofHashTablePointer)

/-- The `(khash, ptr)` with which `callForAllEntryExt` calls its function: the
used slots from the end of the records to the end of the file. -/
def callForAllEntryExt (c : UCDB) : List (Nat × Nat) :=
  ((List.range ((c.stSize - c.startHashTableSlot + 7) / sizeofHashTableSlot)).map fun i =>
      (get c.file (c.startHashTableSlot + i * sizeofHashTableSlot),
        get c.file (c.startHashTableSlot + i * sizeofHashTableSlot + 4))).filter fun s =>
    decide (s.2 ≠ 0)

/-- `sizeFor`. -/
def sizeFor (nrecord : Nat) : Nat :=
  numHashTablePointer * sizeofHashTablePointer +
    nrecord * (sizeofRecordHeader + sizeofHashTableSlot)

end ULib.ConstantDatabase
