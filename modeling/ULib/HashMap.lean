import ULib.KeyComparison
import ULib.LinkedChain

/-!
The class `UHashMap` of `container/hash_map.h` and `container/hash_map.cpp`,
case sensitive and without `gperf`. Nodes lie in a heap and chains are their
`next` pointers; an access through a null or deleted pointer and a division by
a capacity of zero are undefined, every allocation succeeds.
-/

namespace ULib.HashMap

open ULib.KeyComparison
open ULib.LinkedChain

/-- `u_seed_hash`. -/
def uSeedHash : UInt32 := 0xc86b14f7

def rotl32 (x r : UInt32) : UInt32 := (x <<< r) ||| (x >>> (32 - r))

def mixKey (k1 : UInt32) : UInt32 := rotl32 (k1 * 0xcc9e2d51) 15 * 0x1b873593

/-- The blocks of four bytes and the tail of `u_hash`. -/
def hashBlocks : UInt32 → Bytes → UInt32
  | h1, a :: b :: c :: d :: t =>
      let k1 := a.toUInt32 ||| (b.toUInt32 <<< 8) ||| (c.toUInt32 <<< 16) ||| (d.toUInt32 <<< 24)
      hashBlocks (rotl32 (h1 ^^^ mixKey k1) 13 * 5 + 0xe6546b64) t
  | h1, [a, b, c] => h1 ^^^ mixKey ((c.toUInt32 <<< 16) ^^^ (b.toUInt32 <<< 8) ^^^ a.toUInt32)
  | h1, [a, b] => h1 ^^^ mixKey ((b.toUInt32 <<< 8) ^^^ a.toUInt32)
  | h1, [a] => h1 ^^^ mixKey a.toUInt32
  | h1, [] => h1

def uHash (t : Bytes) : UInt32 :=
  let h1 := hashBlocks uSeedHash t ^^^ UInt32.ofNat t.length
  let h1 := (h1 ^^^ (h1 >>> 16)) * 0x85ebca6b
  let h1 := (h1 ^^^ (h1 >>> 13)) * 0xc2b2ae35
  h1 ^^^ (h1 >>> 16)

/-- `U_GET_NEXT_PRIME_NUMBER`. -/
def getNextPrimeNumber (sz : Nat) : Nat :=
  if sz ≤ 53 then 97
  else if sz ≤ 97 then 193
  else if sz ≤ 193 then 389
  else if sz ≤ 389 then 769
  else if sz ≤ 769 then 1543
  else if sz ≤ 1543 then 3079
  else if sz ≤ 3079 then 6151
  else if sz ≤ 6151 then 12289
  else if sz ≤ 12289 then 24593
  else if sz ≤ 24593 then 49157
  else if sz ≤ 49157 then 98317
  else if sz ≤ 98317 then 196613
  else if sz ≤ 196613 then 393241
  else if sz ≤ 393241 then 786433
  else if sz ≤ 786433 then 1572869
  else if sz ≤ 1572869 then 3145739
  else if sz ≤ 3145739 then 6291469
  else if sz ≤ 6291469 then 12582917
  else if sz ≤ 12582917 then 25165843
  else if sz ≤ 25165843 then 50331653
  else if sz ≤ 50331653 then 100663319
  else if sz ≤ 100663319 then 201326611
  else if sz ≤ 201326611 then 402653189
  else if sz ≤ 402653189 then 805306457
  else if sz ≤ 805306457 then 805306457
  else if sz ≤ 1610612741 then 3221225473
  else 4294967291

/-- `U_STACK_INDEX_TO_SIZE(U_SIZE_TO_STACK_INDEX(length))`, 64 bit and no debug. -/
def stackSize (length : Nat) : Nat :=
  if length ≤ 8 then 8
  else if length ≤ 24 then 24
  else if length ≤ 32 then 32
  else if length ≤ 56 then 56
  else if length ≤ 128 then 128
  else if length ≤ 256 then 256
  else if length ≤ 512 then 512
  else if length ≤ 1024 then 1024
  else if length ≤ 2048 then 2048
  else 4096

/-- `UMemoryPool::_malloc` of `num` pointers with the memory pool and without
threads: how many pointers the block has room for. Lengths are 32 bits. -/
def mallocNum (num : Nat) : Nat :=
  let length := num * 8 % 2 ^ 32
  let length := if length ≤ 4096 then stackSize length
    else (length + 4095) % 2 ^ 32 / 4096 * 4096
  length / 8

/-- How many pointers a block can be asked to have: its bytes and those of its pages are counted
with 32 bits. -/
def maxCount : Nat := (2 ^ 32 - 4096) / 8

theorem stackSize_bounds {length : Nat} (h : length ≤ 4096) :
    length ≤ stackSize length ∧ stackSize length ≤ 4096 := by
  unfold stackSize
  iterate 9
    refine iteInduction (motive := fun n => length ≤ n ∧ n ≤ 4096)
      (fun hle => ⟨hle, by decide⟩) fun _ => ?_
  exact ⟨h, Nat.le_refl _⟩

/-- A block has as many pointers as it was asked for, as long as its bytes can be counted. -/
theorem le_mallocNum {n : Nat} (h : n ≤ maxCount) : n ≤ mallocNum n ∧ mallocNum n < 2 ^ 29 := by
  rw [maxCount] at h
  have hmod : n * 8 % 2 ^ 32 = n * 8 := Nat.mod_eq_of_lt (by omega)
  rw [mallocNum, hmod]
  split_ifs with hsmall
  · have hsize := stackSize_bounds hsmall
    omega
  · omega

/-- The fields of a `UHashMapNode` but `next`. -/
structure NodeData (β : Type*) where
  elem : β
  key : Bytes
  hash : Nat

structure Node (β : Type*) extends NodeData β where
  next : Nat

structure UHashMap (β : Type*) where
  heap : Nat → Option (Node β)
  /-- The address that `new` returns next. -/
  fresh : Nat
  table : Nat → Nat
  length : Nat
  capacity : Nat
  index : Nat
  hash : Nat
  node : Nat

variable {β : Type*}

/-- The constructor and `allocate(n)`. -/
def allocated (n : Nat) : UHashMap β :=
  { heap := fun _ => none
    fresh := 1
    table := fun _ => 0
    length := 0
    capacity := mallocNum n
    index := 0
    hash := 0
    node := 0 }

def setNode (s : UHashMap β) (p : Nat) (n : Option (Node β)) : UHashMap β :=
  { s with heap := Function.update s.heap p n }

def setTable (s : UHashMap β) (i p : Nat) : UHashMap β :=
  { s with table := Function.update s.table i p }

/-- The loop of `lookup`; a chain has fewer nodes than addresses were given out. -/
def lookupLoop (s : UHashMap β) (key : Bytes) : Nat → Nat → Option Nat
  | _, 0 => some 0
  | 0, _ + 1 => none
  | n + 1, p + 1 =>
      (s.heap (p + 1)).bind fun d =>
        if d.key = key then some (p + 1) else lookupLoop s key n d.next

def lookup (s : UHashMap β) (key : Bytes) : Option (UHashMap β) :=
  if s.capacity = 0 then none
  else
    let hash := (uHash key).toNat
    let index := hash % s.capacity
    (lookupLoop s key s.fresh (s.table index)).map fun node =>
      { s with hash := hash, index := index, node := node }

/-- The loop of `_eraseAfterFind`, which moves the node to the front. -/
def moveToFront (s : UHashMap β) : Nat → Nat → Nat → Option (UHashMap β)
  | _, _, 0 => some s
  | 0, _, _ + 1 => none
  | n + 1, prev, p + 1 =>
      if p + 1 = s.node then
        if prev = 0 then some s
        else
          (s.heap prev).bind fun dprev => (s.heap (p + 1)).map fun d =>
            let s := setNode s prev (some { dprev with next := d.next })
            let s := setNode s (p + 1) (some { d with next := s.table s.index })
            setTable s s.index (p + 1)
      else (s.heap (p + 1)).bind fun d => moveToFront s n (p + 1) d.next

/-- `_eraseAfterFind`. -/
def unlink (s : UHashMap β) : Option (UHashMap β) :=
  (moveToFront s s.fresh 0 (s.table s.index)).bind fun s =>
    (s.heap s.node).map fun d => setTable s s.index d.next

/-- `eraseAfterFind`. -/
def eraseAfterFind (s : UHashMap β) : Option (UHashMap β) :=
  (unlink s).map fun s =>
    { setNode s s.node none with length := (s.length + 2 ^ 32 - 1) % 2 ^ 32 }

def erase (s : UHashMap β) (key : Bytes) : Option (Option β × UHashMap β) :=
  (lookup s key).bind fun s =>
    if s.node = 0 then some (none, s)
    else (s.heap s.node).bind fun d => (eraseAfterFind s).map fun s => (some d.elem, s)

def at' (s : UHashMap β) (key : Bytes) : Option (Option β × UHashMap β) :=
  (lookup s key).bind fun s =>
    if s.node = 0 then some (none, s) else (s.heap s.node).map fun d => (some d.elem, s)

def find (s : UHashMap β) (key : Bytes) : Option (Bool × UHashMap β) :=
  (lookup s key).map fun s => (s.node ≠ 0, s)

/-- `insertAfterFind` of `UHashMap<T*>`, which overwrites an element. -/
def insertAfterFind (s : UHashMap β) (key : Bytes) (elem : β) : Option (UHashMap β) :=
  if s.node = 0 then
    let s := setNode s s.fresh (some ⟨⟨elem, key, s.hash⟩, s.table s.index⟩)
    let s := setTable s s.index s.fresh
    some { s with node := s.fresh, fresh := s.fresh + 1, length := (s.length + 1) % 2 ^ 32 }
  else (s.heap s.node).map fun d => setNode s s.node (some { d with elem := elem })

/-- `replaceAfterFind`, which is called with a node found or inserted. -/
def replaceAfterFind (s : UHashMap β) (elem : β) : Option (UHashMap β) :=
  (s.heap s.node).map fun d => setNode s s.node (some { d with elem := elem })

def insert (s : UHashMap β) (key : Bytes) (elem : β) : Option (UHashMap β) :=
  (lookup s key).bind fun s => insertAfterFind s key elem

def replaceKey (s : UHashMap β) (key : Bytes) : Option (UHashMap β) :=
  let pnode := s.node
  (unlink s).bind fun s => (lookup s key).bind fun s =>
    (s.heap pnode).map fun d =>
      let s := setNode s pnode (some ⟨⟨d.elem, key, s.hash⟩, s.table s.index⟩)
      { setTable s s.index pnode with node := pnode }

/-- The inner loop of `reserve`: the nodes of one old chain. -/
def rehashChain : Nat → Nat → UHashMap β → Option (UHashMap β)
  | _, 0, s => some { s with node := 0 }
  | 0, _ + 1, _ => none
  | n + 1, p + 1, s =>
      if s.capacity = 0 then none
      else
        (s.heap (p + 1)).bind fun d =>
          let index := d.hash % s.capacity
          let s := { s with index := index }
          let s := setNode s (p + 1) (some { d with next := s.table index })
          rehashChain n d.next (setTable s index (p + 1))

/-- The outer loop of `reserve`. -/
def rehashAll (oldTable : Nat → Nat) : List Nat → UHashMap β → Option (UHashMap β)
  | [], s => some s
  | i :: is, s =>
      if oldTable i = 0 then rehashAll oldTable is s
      else (rehashChain s.fresh (oldTable i) s).bind fun s => rehashAll oldTable is s

def reserve (s : UHashMap β) (n : Nat) : Option (UHashMap β) :=
  if getNextPrimeNumber n = s.capacity then some s
  else
    rehashAll s.table (List.range s.capacity)
      { s with table := fun _ => 0, capacity := mallocNum (getNextPrimeNumber n) }

/-- The loop of `first` and `next` over the table, `n` slots from `i` on. -/
def scan (s : UHashMap β) : Nat → Nat → Bool × UHashMap β
  | 0, i => (false, { s with index := i })
  | n + 1, i =>
      if s.table i = 0 then scan s n (i + 1)
      else (true, { s with index := i, node := s.table i })

def first (s : UHashMap β) : Bool × UHashMap β := scan s s.capacity 0

def next (s : UHashMap β) : Option (Bool × UHashMap β) :=
  (s.heap s.node).map fun d =>
    let s := { s with node := d.next }
    if d.next = 0 then scan s (s.capacity - (s.index + 1)) (s.index + 1) else (true, s)

/-- What a caller sees that goes on with `next` as long as there is a node. -/
def iterateLoop : Nat → Bool × UHashMap β → Option (List (Bytes × β) × UHashMap β)
  | _, (false, s) => some ([], s)
  | 0, (true, _) => none
  | n + 1, (true, s) =>
      (s.heap s.node).bind fun d => (next s).bind fun r => (iterateLoop n r).map fun t =>
        ((d.key, d.elem) :: t.1, t.2)

def iterate (s : UHashMap β) : Option (List (Bytes × β) × UHashMap β) :=
  iterateLoop s.fresh (first s)

/-- The calls that `callForAllEntry` makes for one chain. -/
def callChain (s : UHashMap β) : Nat → Nat → Option (List (Bytes × β))
  | _, 0 => some []
  | 0, _ + 1 => none
  | n + 1, p + 1 =>
      (s.heap (p + 1)).bind fun d => (callChain s n d.next).map fun t => (d.key, d.elem) :: t

def callSlots (s : UHashMap β) : List Nat → Option (List (Bytes × β))
  | [] => some []
  | i :: is =>
      (callChain s s.fresh (s.table i)).bind fun front => (callSlots s is).map fun back =>
        front ++ back

/-- The calls that `callForAllEntry` makes of a function that keeps the map and
does not ask to stop. -/
def callForAllEntry (s : UHashMap β) : Option (List (Bytes × β)) :=
  callSlots s (List.range s.capacity)

end ULib.HashMap
