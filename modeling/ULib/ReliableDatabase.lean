import ULib.ConstantDatabase

/-!
The class `URDB` of `db/rdb.h` and `db/rdb.cpp`: a constant database with a
journal over it. The journal is a mapped file. It starts with a `cache_struct`
(four words and a hash table), behind which records and the nodes of the hash
trees are appended as they come.

The journal is bytes. A function returns `none` where the code has no defined
outcome: a write through a pointer into a mapping that has moved away, or a
walk through pointers that form a cycle. What the system answers to a call is
in `Env`.
-/

namespace ULib.ReliableDatabase

open ByteMemory
open KeyComparison
open ConstantDatabase

/-- `CACHE_HASHTAB_LEN`. -/
def cacheHashtabLen : Nat := 769

/-- `sizeof(URDB::cache_struct)`: `off`, `sync`, `nrecord`, `reference` and the
hash table. -/
def sizeofCacheStruct : Nat := 16 + 4 * cacheHashtabLen

/-- `sizeof(URDB::cache_node)`: `key`, `data`, `left` and `right`. -/
def sizeofCacheNode : Nat := 24

/-- `U_NOT_FOUND`, the data size of a deleted key. -/
def uNotFound : Nat := 2 ^ 32 - 1

/-- Address of `RDB_hashtab[i]`. -/
def hashtab (i : Nat) : Nat := 16 + 4 * i

inductive Flag where
  | insert
  | replace
  deriving DecidableEq, Repr

/-- A pointer of a `UCDB::datum`: into the journal, or to bytes elsewhere. -/
inductive Ptr where
  | null
  | outside (bytes : Bytes)
  | journal (offset : Nat)
  deriving DecidableEq, Repr

structure Datum where
  dptr : Ptr
  dsize : Nat
  deriving DecidableEq, Repr

def Datum.ofBytes (bytes : Bytes) : Datum := ⟨.outside bytes, bytes.length⟩

def Datum.bytes (m : Mem) (d : Datum) : Bytes :=
  match d.dptr with
  | .null => []
  | .outside bytes => bytes.take d.dsize
  | .journal offset => read m offset d.dsize

/-- `UFile journal`. -/
structure Journal where
  map : Nat
  mapSize : Nat
  stSize : Nat
  mem : Mem

/-- What is recorded of a run: `RDB_off` and the file size at every `htAlloc`,
the node of every `htInsert`, and the result of every `reorganize` that
`resizeJournal` falls back to. -/
inductive Event where
  | alloc (off stSize : Nat)
  | insert (node : Nat)
  | reorganized (result : Bool)
  deriving DecidableEq, Repr

/-- The answers of the system during one call. -/
structure Env where
  /-- Address of the moved mapping, or `MAP_FAILED`. -/
  mremap : Option Nat
  ftruncate : Bool
  /-- For the temporary file of `reorganize`. -/
  creat : Bool
  extend : Bool
  memmap : Bool
  shrink : Bool
  rename : Bool
  /-- Contents and size of a temporary file that is there already. -/
  leftover : Mem
  leftoverSize : Nat

structure URDB where
  cdb : UCDB
  cur : Cursor
  journal : Journal
  key : Datum
  data : Datum
  khash : Nat
  key1 : Datum
  /-- Mapping and offset of the pointer. -/
  pnode : Nat × Nat
  node : Nat
  locked : Int
  trace : List Event

namespace URDB

def ignoreCase (s : URDB) : Bool := s.cdb.ignoreCase

def mem (s : URDB) : Mem := s.journal.mem

/-- `RDB_off`. -/
def off (s : URDB) : Nat := get s.mem 0

/-- `RDB_nrecord`. -/
def nrecord (s : URDB) : Nat := get s.mem 8

/-- `RDB_reference`. -/
def reference (s : URDB) : Nat := get s.mem 12

def setMem (s : URDB) (m : Mem) : URDB := { s with journal := { s.journal with mem := m } }

def lock (s : URDB) : URDB := { s with locked := s.locked + 1 }

def unlock (s : URDB) : URDB := { s with locked := s.locked - 1 }

def log (s : URDB) (e : Event) : URDB := { s with trace := s.trace ++ [e] }

/-- `*pnode = v`. -/
def putPnode (s : URDB) (v : Nat) : Option URDB :=
  if s.pnode.1 = s.journal.map then some (s.setMem (put s.mem s.pnode.2 v)) else none

/-- `UCDB::cdb_hash()`. -/
def hashKey (s : URDB) : URDB :=
  { s with khash := cdbHash s.ignoreCase (s.key.bytes s.mem) }

end URDB

open URDB

/-! ### The hash tree -/

/-- Where the key goes at a node. -/
def compareNode (ignoreCase : Bool) (m : Mem) (key : Bytes) (node : Nat) : Ordering :=
  let len := get m (node + 4)
  let n := min key.length len
  let result := uEqual key (read m (get m node) n) n ignoreCase
  if result < 0 then .lt
  else if result = 0 ∧ len = key.length then .eq
  else .gt

/-- The loop of `htLookup`: whether the key was found, `pnode`, `node` and the
journal, where a node without key is taken out of the tree. -/
def htWalk (ignoreCase : Bool) (key : Bytes) : Nat → Mem → Nat → Option (Bool × Nat × Nat × Mem)
  | 0, _, _ => none
  | fuel + 1, m, pnode =>
      let node := get m pnode
      if node = 0 then some (false, pnode, 0, m)
      else if get m (node + 4) = 0 then some (false, pnode, 0, put m pnode 0)
      else
        match compareNode ignoreCase m key node with
        | .lt => htWalk ignoreCase key fuel m (node + 16)
        | .eq => some (true, pnode, node, m)
        | .gt => htWalk ignoreCase key fuel m (node + 20)

def htLookup (s : URDB) : Option (Bool × URDB) :=
  (htWalk s.ignoreCase (s.key.bytes s.mem) s.journal.stSize s.mem
      (hashtab (s.khash % cacheHashtabLen))).map
    fun (found, pnode, node, m) =>
      (found, { s.setMem m with pnode := (s.journal.map, pnode), node := node })

def htAlloc (s : URDB) : Option URDB := do
  let s := s.log (.alloc s.off s.journal.stSize)
  let s := { s with node := s.off }
  let s := s.setMem (put s.mem 0 (s.off + sizeofCacheNode))
  let s ← s.putPnode s.node
  some (s.setMem (fill s.mem s.node sizeofCacheNode 0))

def htRemoveAlloc (s : URDB) : Option URDB :=
  (s.setMem (put s.mem 0 (s.off + 2 ^ 32 - sizeofCacheNode))).putPnode 0

/-- The pointers must point into the journal (or be null, for the data). -/
def htInsert (s : URDB) : Option URDB :=
  match s.key.dptr, s.data.dptr with
  | .journal offset1, .journal offset2 => some (put4 s offset1 offset2)
  | .journal offset1, .null => some (put4 s offset1 0)
  | _, _ => none
where
  put4 (s : URDB) (offset1 offset2 : Nat) : URDB :=
    let m := put s.mem s.node offset1
    let m := put m (s.node + 4) s.key.dsize
    let m := put m (s.node + 8) offset2
    let m := put m (s.node + 12) s.data.dsize
    (s.setMem m).log (.insert s.node)

/-- `isDeleted`, which repairs the size of a deleted node. -/
def isDeleted (s : URDB) : Bool × URDB :=
  if get s.mem (s.node + 8) = 0 then
    (true, if get s.mem (s.node + 12) ≠ uNotFound then
      s.setMem (put s.mem (s.node + 12) uNotFound) else s)
  else (false, s)

/-- `cdbLookup`; on success `data` is the one in the constant database. -/
def cdbLookup (s : URDB) : Bool × URDB :=
  if s.cdb.stSize = 0 then (false, s)
  else
    let r := find s.cdb { s.cur with key := s.key.bytes s.mem, khash := s.khash }
    (r.1, { s with cur := r.2, data := if r.1 then Datum.ofBytes r.2.data else s.data })

/-! ### Combining the constant database and the journal -/

section Traversal

variable {σ : Type*} (add : Bytes → Bytes → σ → σ)

/-- What `makeAdd1` does at a node after its subtrees. -/
def visitNode (n : Nat) (s : Mem × σ) : Mem × σ :=
  if get s.1 (n + 8) ≠ 0 then
    (s.1, add (read s.1 (get s.1 n) (get s.1 (n + 4)))
      (read s.1 (get s.1 (n + 8)) (get s.1 (n + 12))) s.2)
  else if get s.1 (n + 12) ≠ uNotFound then (put s.1 (n + 12) uNotFound, s.2)
  else s

/-- The recursion that `makeAdd1`, `call1`, `print1` and `getKeys1` share. -/
def visitTree : Nat → Nat → Mem × σ → Option (Mem × σ)
  | 0, _, _ => none
  | fuel + 1, n, s => do
      let s ← if get s.1 (n + 16) ≠ 0 then visitTree fuel (get s.1 (n + 16)) s else some s
      let s ← if get s.1 (n + 20) ≠ 0 then visitTree fuel (get s.1 (n + 20)) s else some s
      some (visitNode add n s)

/-- The first loop of `call`. -/
def visitHashtab (fuel : Nat) (s : Mem × σ) : Option (Mem × σ) :=
  (List.range cacheHashtabLen).foldlM
    (fun s i => if get s.1 (hashtab i) ≠ 0 then visitTree add fuel (get s.1 (hashtab i)) s
      else some s) s

end Traversal

/-- `makeAdd2`: copy the record at `src` of the constant database unless its
key is in the journal. -/
def makeAdd2 (r : URDB × UCDB) (entry : Nat × Nat) : Option (URDB × UCDB) := do
  let (s, cdb) := r
  let key := (recordAt s.cdb.file entry.2).key
  let (found, s) ← htLookup { s with khash := entry.1, key := Datum.ofBytes key }
  some (s, if found then cdb else makeAddFrom cdb s.cdb.file entry.2)

/-- `URDB::makeAdd`: the entries of the journal and then those of the constant
database that are not in the journal. -/
def makeAdd (s : URDB) (cdb : UCDB) : Option (URDB × UCDB) := do
  let (m, cdb) ← visitHashtab (fun key data cdb => ConstantDatabase.makeAdd cdb ⟨key, data⟩)
    s.journal.stSize (s.mem, cdb)
  let s := s.setMem m
  if s.cdb.stSize ≠ 0 then (callForAllEntryExt s.cdb).foldlM makeAdd2 (s, cdb)
  else some (s, cdb)

def reset (s : URDB) : URDB :=
  let m := put s.mem 0 sizeofCacheStruct
  let m := put m 4 0
  let m := put m 8 0
  s.setMem (fill m 16 (4 * cacheHashtabLen) 0)

/-- The temporary file, opened without `O_TRUNC` and set to the size that
`reorganize` asks for. -/
def temporaryFile (s : URDB) (env : Env) : UCDB :=
  let size := (s.cdb.stSize + s.journal.stSize + sizeFor 4096) % 2 ^ 32
  { ignoreCase := s.ignoreCase
    mapped := true
    file := fun x => if x < env.leftoverSize ∧ x < size then env.leftover x else 0
    stSize := size
    nrecord := 0
    startHashTableSlot := 0
    hr := 0 }

/-- `reorganize`. The early returns leave the lock taken. -/
def reorganize (s : URDB) (env : Env) : Option (Bool × URDB) :=
  let s := s.lock
  if s.off > sizeofCacheStruct then
    if env.creat && env.extend then
      if env.memmap = false then some (false, s)
      else do
        let (s, cdb) ← makeAdd s (makeStart (temporaryFile s env))
        let (pos, cdb) ← makeFinish false cdb
        if env.shrink = false then some (false, s)
        else if env.rename = false then some (false, s)
        else
          let s := reset s
          let s := { s with
            cdb := { s.cdb with
              file := cdb.file
              mapped := true
              stSize := pos
              nrecord := cdb.nrecord
              startHashTableSlot := cdb.startHashTableSlot } }
          some (true, s.unlock)
    else some (false, s.unlock)
  else some (true, s.unlock)

/-! ### Writing the journal -/

/-- `UFile::ftruncate` of the mapped journal; a longer file than the mapping
makes the mapping twice as long, possibly somewhere else. -/
def Journal.ftruncate (j : Journal) (n : Nat) (env : Env) : Bool × Journal :=
  let n := n % 2 ^ 32
  let truncate (j : Journal) : Bool × Journal :=
    if env.ftruncate then
      (true, { j with stSize := n, mem := fill j.mem j.stSize (n - j.stSize) 0 })
    else (false, j)
  if j.mapSize < n then
    match env.mremap with
    | none => (false, j)
    | some map => truncate { j with map := map, mapSize := n * 2 % 2 ^ 32 }
  else truncate j

def resizeJournal (s : URDB) (oversize : Nat) (env : Env) : Option (Bool × URDB) :=
  let oversize := if oversize < s.journal.stSize / 2 then s.journal.stSize / 2 else oversize
  let offset := s.pnode.2
  match s.journal.ftruncate (s.journal.stSize + oversize) env with
  | (true, j) => some (true, { s with journal := j, pnode := (j.map, offset) })
  | (false, j) => do
      let s := { s with journal := j, key1 := s.key }
      let data1 := s.data
      let save := s.khash
      let (result, s) ← reorganize s env
      let s := s.log (.reorganized result)
      if result then
        let (_, s) ← htLookup { s with key := s.key1, data := data1, khash := save }
        some (true, s)
      else some (false, s)

/-- The pointer that block `i` of `n` belongs to now points to the copy of the
block in the journal. -/
def pointTo (n i ptr : Nat) (s : URDB) : URDB :=
  if n < 5 then
    if i = 1 then { s with key := { s.key with dptr := .journal ptr } }
    else if i = 2 then { s with data := { s.data with dptr := .journal ptr } }
    else s
  else if i = 1 then { s with key1 := { s.key1 with dptr := .journal ptr } }
  else if i = 3 then { s with key := { s.key with dptr := .journal ptr } }
  else if i = 4 then { s with data := { s.data with dptr := .journal ptr } }
  else s

/-- The loop of `writev`, at block `i` of `n`. -/
def writevLoop (n : Nat) : Nat → List Bytes → Nat → URDB → URDB × Nat
  | _, [], ptr, s => (s, ptr)
  | i, block :: iov, ptr, s =>
      writevLoop n (i + 1) iov (ptr + block.length)
        (pointTo n i ptr (s.setMem (write s.mem ptr block)))

def writev (s : URDB) (iov : List Bytes) (size : Nat) (env : Env) : Option (Bool × URDB) := do
  let sz := (s.off + size + sizeofCacheNode * 2) % 2 ^ 32
  let (result, s) ←
    if sz > s.journal.stSize then resizeJournal s (sz - s.journal.stSize) env
    else some (true, s)
  if result then
    let (s, ptr) := writevLoop iov.length 0 iov s.off s
    some (true, s.setMem (put s.mem 0 ptr))
  else some (false, s)

/-- `op` of `logJournal`. -/
inductive LogOp where
  | remove
  | store
  | substitute
  deriving DecidableEq, Repr

/-- `cdb_record_header`. -/
def recordHeader (klen dlen : Nat) : Bytes := word klen ++ word dlen

def logJournal (s : URDB) (op : LogOp) (env : Env) : Option (Bool × URDB) :=
  match op with
  | .remove =>
      writev s [recordHeader s.key.dsize uNotFound, s.key.bytes s.mem]
        (sizeofRecordHeader + s.key.dsize) env
  | .store =>
      writev s [recordHeader s.key.dsize s.data.dsize, s.key.bytes s.mem, s.data.bytes s.mem]
        (sizeofRecordHeader + s.key.dsize + s.data.dsize) env
  | .substitute =>
      writev s [recordHeader s.key1.dsize uNotFound, s.key1.bytes s.mem,
          recordHeader s.key.dsize s.data.dsize, s.key.bytes s.mem, s.data.bytes s.mem]
        (sizeofRecordHeader * 2 + s.key1.dsize + s.key.dsize + s.data.dsize) env

/-! ### The services -/

/-- `fetch()`, of the key in the object. -/
def fetch (s : URDB) : Option (Bool × URDB) := do
  let s := s.hashKey.lock
  let (found, s) ← htLookup s
  if found = false then
    let (result, s) := cdbLookup s
    some (result, s.unlock)
  else
    let (deleted, s) := isDeleted s
    if deleted then some (false, s.unlock)
    else
      let s := { s with
        data := ⟨.journal (get s.mem (s.node + 8)), get s.mem (s.node + 12)⟩ }
      some (true, s.unlock)

/-- The end of `store`, `remove` and `substitute` when the journal could not
be extended. -/
def rollback (s : URDB) : Option (Int × URDB) := do
  let s ← htRemoveAlloc s
  some (-3, s.unlock)

/-- The second half of `store`; `exist` decides whether the record is new. -/
def storeEntry (s : URDB) (exist : Bool) (env : Env) : Option (Int × URDB) := do
  let (logged, s) ← logJournal s .store env
  if logged = false then rollback s
  else
    let s ← htInsert s
    let s := if exist then s else s.setMem (put s.mem 8 (s.nrecord + 1))
    some (0, s.unlock)

/-- `store(int flag)`, of the key and data in the object. -/
def store (s : URDB) (flag : Flag) (env : Env) : Option (Int × URDB) := do
  let s := s.hashKey.lock
  let (exist, s) ← htLookup s
  if exist then
    let (deleted, s) := if flag = .insert then isDeleted s else (true, s)
    if deleted = false then some (-1, s.unlock)
    else if flag = .replace ∧ s.data.dsize = get s.mem (s.node + 12) ∧
        memcmp s.data.dsize (read s.mem (get s.mem (s.node + 8)) s.data.dsize)
          (s.data.bytes s.mem) = 0 then some (0, s.unlock)
    else storeEntry s true env
  else
    let dataNew := s.data
    let (exist, s) := cdbLookup s
    if exist = true ∧ flag = .insert then some (-1, s.unlock)
    else if exist = true ∧ flag = .replace ∧ s.data.dsize = dataNew.dsize ∧
        memcmp s.data.dsize (dataNew.bytes s.mem) (s.data.bytes s.mem) = 0 then
      some (0, s.unlock)
    else
      let s ← htAlloc s
      storeEntry { s with data := dataNew } exist env

/-- The second half of `remove`. -/
def removeEntry (s : URDB) (env : Env) : Option (Int × URDB) := do
  let (logged, s) ← logJournal s .remove env
  if logged = false then rollback s
  else
    let s := { s with data := ⟨.null, uNotFound⟩ }
    let s ← htInsert s
    let s := s.setMem (put s.mem 8 (s.nrecord + 2 ^ 32 - 1))
    some (0, s.unlock)

/-- `remove()`, of the key in the object. -/
def remove (s : URDB) (env : Env) : Option (Int × URDB) := do
  let s := s.hashKey.lock
  let (found, s) ← htLookup s
  if found then
    let (deleted, s) := isDeleted s
    if deleted then some (-2, s.unlock) else removeEntry s env
  else
    let (exist, s) := cdbLookup s
    if exist then
      let s ← htAlloc s
      removeEntry s env
    else some (-1, s.unlock)

/-- The part of `substitute` from `UCDB::data = data2` on: log, insert the new
entry and mark the old one as deleted. -/
def substituteEntry (s : URDB) (data2 : Datum) (node1 : Nat) (pnode1 : Nat × Nat) (env : Env) :
    Option (Int × URDB) := do
  let s := { s with data := data2 }
  let (logged, s) ← logJournal s .substitute env
  if logged = false then rollback s
  else
    let s ← htInsert s
    let s := { s with key := s.key1, data := ⟨.null, uNotFound⟩, pnode := pnode1 }
    let s ← if node1 ≠ 0 then some { s with node := node1 } else htAlloc s
    let s ← htInsert s
    some (0, s.unlock)

/-- `substitute(datum*, int)`, of the key and data in the object. -/
def substitute (s : URDB) (key2 : Datum) (flag : Flag) (env : Env) : Option (Int × URDB) := do
  let data2 := s.data
  let s := s.hashKey
  let s := { s with key1 := s.key }.lock
  let (found, s) ← htLookup s
  let (result, s) : Int × URDB :=
    if found then
      let (deleted, s) := isDeleted s
      (if deleted then -2 else 0, s)
    else
      let (exist, s) := cdbLookup s
      (if exist then 0 else -1, s)
  if result ≠ 0 then some (result, s.unlock)
  else
    let node1 := s.node
    let pnode1 := s.pnode
    let s := { s with key := key2 }.hashKey
    let (found, s) ← htLookup s
    if found then
      let (deleted, s) := if flag = .insert then isDeleted s else (true, s)
      if deleted = false then some (-4, s.unlock)
      else substituteEntry s data2 node1 pnode1 env
    else
      let (exist, s) := cdbLookup s
      if exist = true ∧ flag = .insert then some (-4, s.unlock)
      else
        let s ← htAlloc s
        substituteEntry s data2 node1 pnode1 env

/-- `find(key)`. -/
def fetchKey (s : URDB) (key : Bytes) : Option (Bool × URDB) :=
  fetch { s with key := Datum.ofBytes key }

/-- `store(key, data, flag)`. -/
def storeKey (s : URDB) (key data : Bytes) (flag : Flag) (env : Env) : Option (Int × URDB) :=
  store { s with key := Datum.ofBytes key, data := Datum.ofBytes data } flag env

/-- `remove(key)`. -/
def removeKey (s : URDB) (key : Bytes) (env : Env) : Option (Int × URDB) :=
  remove { s with key := Datum.ofBytes key } env

/-- `substitute(key, new_key, data, flag)`. -/
def substituteKey (s : URDB) (key newKey data : Bytes) (flag : Flag) (env : Env) :
    Option (Int × URDB) :=
  substitute { s with key := Datum.ofBytes key, data := Datum.ofBytes data }
    (Datum.ofBytes newKey) flag env

/-- What `find(key)` hands to its caller. -/
def fetchValue (s : URDB) (key : Bytes) : Option (Option Bytes) :=
  (fetchKey s key).map fun (found, s) => if found then some (s.data.bytes s.mem) else none

/-- `size()`. -/
def size (s : URDB) : Nat := (s.cdb.nrecord + s.nrecord) % 2 ^ 32

/-! ### Transactions -/

def beginTransaction (s : URDB) (env : Env) : Option (Bool × URDB) :=
  reorganize s.lock env

def msync (s : URDB) : URDB := (s.lock.setMem (put s.mem 4 s.off)).unlock

def commitTransaction (s : URDB) : URDB := (msync s).unlock

def abortTransaction (s : URDB) : URDB := (reset s).unlock

/-! ### Life cycle -/

/-- `open`, for a constant database that was opened and the journal file of
`jnlSize` bytes; `map` is where the journal gets mapped. -/
def openJournal (cdb : UCDB) (cur : Cursor) (jnl : Mem) (jnlSize logSize : Nat)
    (btruncate breference : Bool) (map : Nat) : URDB :=
  let jnlSize := if btruncate then 0 else jnlSize
  let newSize := if jnlSize ≠ 0 then jnlSize else if logSize ≠ 0 then logSize
    else if cdb.stSize ≠ 0 then cdb.stSize else 512 * 1024
  let m := fun x => if x < jnlSize then jnl x else 0
  let m := if get m 0 = 0 then put m 0 sizeofCacheStruct else m
  let m := if breference then put m 12 (get m 12 + 1) else m
  { cdb, cur
    journal := { map, mapSize := max newSize (32 * 1024 * 1024), stSize := newSize, mem := m }
    key := ⟨.null, 0⟩
    data := ⟨.null, 0⟩
    khash := 0
    key1 := ⟨.null, 0⟩
    pnode := (map, 0)
    node := 0
    locked := 0
    trace := [] }

/-- `close`: the journal file and its size. -/
def closeJournal (s : URDB) (breference : Bool) : Mem × Nat :=
  if breference then
    let m := put s.mem 12 (s.reference + 2 ^ 32 - 1)
    let m := put m 4 (get m 0)
    (m, if get m 12 = 0 then get m 0 else s.journal.stSize)
  else (s.mem, s.journal.stSize)

end ULib.ReliableDatabase
