import ULib.BlockLayout
import ULib.KeyComparison
import ULib.XorLinkedList
import Mathlib.Algebra.Group.Int.Defs

/-!
The class `UCache` of `cache.h` and `cache.cpp`: a hash table of head links and,
behind it, a circular log of entries. Positions are offsets into `x`, the part
of the mapping behind `cache_info`. All of them stay below 10⁹, so that no sum
of the source leaves 32 bits.
-/

namespace ULib.Cache

open ULib.ByteMemory
open ULib.KeyComparison
open ULib.XorLinkedList

/-- `sizeof(UCache::cache_info)`. -/
def sizeofInfo : Nat := 20

/-- `sizeof(UCache::cache_hash_table_entry)`, of `{ link, keylen, datalen, time_expire }`. -/
def sizeofEntry : Nat := 16

/-- `U_NO_TTL`. -/
def noTtl : Nat := 2 ^ 32 - 1

/-- The mapping, `cache_info` and the members of the object. -/
structure UCache where
  x : Mem
  size : Nat
  hsize : Nat
  writer : Nat
  oldest : Nat
  unused : Nat
  start : Nat
  ttl : Nat

def hsizeLoop (size : Nat) : Nat → Nat → Nat
  | 0, hsize => hsize
  | n + 1, hsize => if hsize ≤ size / sizeofEntry then hsizeLoop size n (hsize * 2) else hsize

/-- The loop doubles a 32-bit number, so it ends within 32 rounds. -/
def getHSize (size : Nat) : Nat := hsizeLoop size 32 4

/-- `init` of a file that `open` has just created with `size` bytes. -/
def create (size now : Nat) : UCache :=
  { x := fun _ => 0
    size := size - sizeofInfo
    hsize := getHSize (size - sizeofInfo)
    writer := getHSize (size - sizeofInfo)
    oldest := size - sizeofInfo
    unused := size - sizeofInfo
    start := now
    ttl := 0 }

/-- `init` of a file that exists, with the time it was last modified. -/
def reopen (c : UCache) (mtime : Nat) : UCache := { c with start := mtime }

/-- Seconds since `start`, in 32 bits. -/
def getTime (c : UCache) (now : Nat) : Nat := (((now : Int) - c.start) % 2 ^ 32).toNat

def cacheHash (hsize : Nat) (key : Bytes) : Nat := (uCdbHash key false).toNat * 4 % hsize

def getLink (c : UCache) (pos : Nat) : Nat := ByteMemory.get c.x pos

/-- `replace`: xor `value` into the link at `pos`. -/
def replace (x : Mem) (pos value : Nat) : Mem := put x pos (value ^^^ ByteMemory.get x pos)

def keylen (x : Mem) (pos : Nat) : Nat := ByteMemory.get x (pos + 4)

def datalen (x : Mem) (pos : Nat) : Nat := ByteMemory.get x (pos + 8)

def timeExpire (x : Mem) (pos : Nat) : Nat := ByteMemory.get x (pos + 12)

/-- The round of `add` that drops the oldest entry. -/
def evict (c : UCache) : UCache :=
  let x := replace c.x (getLink c c.oldest) c.oldest
  let oldest := c.oldest + sizeofEntry + keylen x c.oldest + datalen x c.oldest
  if oldest = c.unused then { c with x := x, oldest := c.size, unused := c.size }
  else { c with x := x, oldest := oldest }

/-- The log starts over: what was written becomes what is dropped next. -/
def wrap (c : UCache) : UCache :=
  { c with unused := c.writer, oldest := c.hsize, writer := c.hsize }

/-- The loop of `add`; it is undefined where the source ends the process because
the cache is exhausted. Every round but one drops an entry. -/
def makeRoom (entrylen : Nat) : Nat → UCache → Option UCache
  | 0, _ => none
  | n + 1, c =>
      if c.writer + entrylen > c.oldest then
        if c.oldest = c.unused then
          if c.writer ≤ c.hsize then none else makeRoom entrylen n (evict (wrap c))
        else makeRoom entrylen n (evict c)
      else some c

def expire (c : UCache) (now ttl : Nat) : Nat :=
  if ttl = 0 then noTtl else (getTime c now + ttl) % 2 ^ 32

/-- The entry is entered after the head of its bucket and written. -/
def insert (c : UCache) (now : Nat) (key data : Bytes) (ttl : Nat) : UCache :=
  let index := cacheHash c.hsize key
  let pos := getLink c index
  let x := put c.x index c.writer
  let x := if pos ≠ 0 then replace x pos (index ^^^ c.writer) else x
  let x := put x c.writer (pos ^^^ index)
  let x := put x (c.writer + 4) key.length
  let x := put x (c.writer + 8) data.length
  let x := put x (c.writer + 12) (expire c now ttl)
  let x := write x (c.writer + sizeofEntry) key
  let x := write x (c.writer + sizeofEntry + key.length) data
  { c with x := x, writer := c.writer + (sizeofEntry + key.length + data.length) }

/-- `add`: the position at which the key was written. -/
def add (c : UCache) (now : Nat) (key data : Bytes) (ttl : Nat) : Option (Nat × UCache) :=
  (makeRoom (sizeofEntry + key.length + data.length) (c.size + 1) c).map fun c =>
    (c.writer + sizeofEntry, insert c now key data ttl)

/-- The entry at `pos` is one of `key` that was not found expired. -/
def isFor (x : Mem) (key : Bytes) (pos : Nat) : Prop :=
  timeExpire x pos ≠ 0 ∧ keylen x pos = key.length ∧ read x (pos + sizeofEntry) key.length = key

instance (x : Mem) (key : Bytes) (pos : Nat) : Decidable (isFor x key pos) :=
  inferInstanceAs (Decidable (_ ∧ _ ∧ _))

/-- The loop of `get`, over what is left of the 101 entries it looks at. A string
that is returned is a part of the mapping: its position and its bytes. -/
def getLoop (c : UCache) (now : Nat) (key : Bytes) :
    Nat → Nat → Nat → Option (Nat × Bytes) × UCache
  | 0, _, _ => (none, c)
  | n + 1, prevpos, pos =>
      if pos = 0 then (none, c)
      else if isFor c.x key pos then
        let time := timeExpire c.x pos
        if time ≠ noTtl ∧ getTime c now ≥ time then
          (none, { c with x := put c.x (pos + 12) 0 })
        else
          let p := pos + sizeofEntry + key.length
          (some (p, read c.x p (datalen c.x pos)), { c with ttl := time })
      else getLoop c now key n pos (prevpos ^^^ getLink c pos)

def get (c : UCache) (now : Nat) (key : Bytes) : Option (Nat × Bytes) × UCache :=
  getLoop c now key 101 (cacheHash c.hsize key) (getLink c (cacheHash c.hsize key))

end ULib.Cache
