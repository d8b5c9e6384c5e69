import Mathlib.Logic.Function.Basic
import ULib.ByteMemory
import ULib.JsonValue

/-!
`UString` and `UStringRep` of `string.h` and `string.cpp`: handles that share
one representation, which is counted, and representations that point into a
block of memory. A block is as large as the allocator made it; a write past its
end is no step of the program.
-/

namespace ULib.StringHeap

open ULib.KeyComparison
open ULib.ByteMemory
open ULib.EscapeCoding
open ULib.JsonValue

/-- `U_NOT_FOUND`, the capacity of what is memory mapped. -/
def uNotFound : Nat := 2 ^ 32 - 1

/-- `str` points to the offset `str` in the block. A capacity of 0 is that of a constant string. -/
structure UStringRep where
  length : Nat
  capacity : Nat
  references : Nat
  block : Nat
  str : Nat
  deriving DecidableEq

/-- The representations and the blocks; the numbers from `next` on are free. -/
structure Heap where
  rep : Nat → UStringRep
  size : Nat → Nat
  bytes : Nat → Mem
  next : Nat

/-- `string_rep_null`, the first representation. -/
def stringRepNull : Nat := 0

/-- The text of a handle. -/
def Heap.content (s : Heap) (r : Nat) : Bytes :=
  read (s.bytes (s.rep r).block) (s.rep r).str (s.rep r).length

/-- The capacity that `create` gives, and the size of the block for the text. -/
def allocated (capacity : Nat) : Nat × Nat :=
  if capacity ≤ uCapacity then
    -- room for the text, its NUL and the 24 bytes of the representation
    let sz := capacity + 25
    let type := if sz ≤ 128 then 128 else if sz ≤ 256 then 256 else if sz ≤ 512 then 512
      else if sz ≤ 1024 then 1024 else if sz ≤ 2048 then 2048 else 4096
    (type - 25, type - 24)
  else
    -- whole pages from `UFile::mmap`
    let size := (capacity + 4095) % 2 ^ 32 / 4096 * 4096
    (size, size)

namespace Heap

variable (s : Heap)

/-- Bytes are written where the block has room for them. -/
def poke (b off : Nat) (bytes : Bytes) : Option Heap :=
  if off + bytes.length ≤ s.size b then
    some { s with bytes := Function.update s.bytes b (write (s.bytes b) off bytes) }
  else none

/-- `UStringRep::create` -/
def create (length capacity : Nat) (ptr : Option Bytes) : Option (Heap × Nat) :=
  let r := s.next
  let s : Heap :=
    { s with rep := Function.update s.rep r ⟨length, (allocated capacity).1, 0, r, 0⟩
             size := Function.update s.size r (allocated capacity).2, next := r + 1 }
  match ptr with
  | none => some (s, r)
  | some bytes =>
      if length ≠ 0 then do
        let s ← s.poke r 0 bytes
        let s ← s.poke r length [0]
        some (s, r)
      else some (s, r)

def hold (r : Nat) : Heap :=
  { s with rep := Function.update s.rep r { s.rep r with references := (s.rep r).references + 1 } }

/-- `UStringRep::release`; the block of a constant string is not its own. -/
def release (r : Nat) : Heap :=
  if (s.rep r).references ≠ 0 then
    { s with rep := Function.update s.rep r { s.rep r with references := (s.rep r).references - 1 } }
  else
    { s with rep := Function.update s.rep r ⟨0, 0, 0, 0, 0⟩
             size := if (s.rep r).capacity = 0 then s.size
               else Function.update s.size (s.rep r).block 0 }

/-- `UString::_assign` -/
def assignRep (r r' : Nat) : Heap × Nat := ((s.hold r').release r, r')

def setLength (r length : Nat) : Heap :=
  { s with rep := Function.update s.rep r { s.rep r with length } }

/-- `UStringRep::fold` -/
def fold (r pos off : Nat) : Nat := min off ((s.rep r).length - pos)

/-- `UString::__replace`, with the position at which the new bytes are to be written. -/
def replaceRep (r pos n1 n2 : Nat) : Option (Heap × Nat × Option Nat) :=
  let rep := s.rep r
  let sz := rep.length
  let sz1 := s.fold r pos n1
  let n := (sz + n2 - sz1) % 2 ^ 32
  if n = 0 then
    let (s, r) := s.assignRep r stringRepNull
    some (s, r, none)
  else
    let how_much := sz - pos - sz1
    let src := (s.content r).drop (pos + sz1)
    let capacity := if rep.capacity = uNotFound then 0 else rep.capacity
    if rep.references ≠ 0 ∨ capacity < n then do
      let (t, r') ← s.create n (max capacity n) none
      let t ← (if pos ≠ 0 then t.poke r' 0 ((s.content r).take pos) else some t)
      -- `how_much` is an `int32_t`
      let t ← (if how_much ≠ 0 then
          if how_much < 2 ^ 31 then t.poke r' (pos + n2) src else none
        else some t)
      let t ← (t.release r).poke r' n [0]
      some (t, r', some pos)
    else do
      let t ← (if 0 < how_much ∧ how_much < 2 ^ 31 ∧ n1 ≠ n2 then
          s.poke rep.block (rep.str + pos + n2) src
        else some s)
      let t ← (t.setLength r n).poke rep.block (rep.str + n) [0]
      some (t, r, some pos)

/-- `UString::replace(pos, n1, s, n2)` -/
def replace (r pos n1 : Nat) (bytes : Bytes) : Option (Heap × Nat) := do
  let (t, r, ptr) ← s.replaceRep r pos n1 bytes.length
  match ptr with
  | none => some (t, r)
  | some pos =>
      let t ← (if bytes ≠ [] then t.poke (t.rep r).block ((t.rep r).str + pos) bytes else some t)
      some (t, r)

/-- `UString::__append` -/
def appendRep (r n : Nat) : Option (Heap × Nat) := do
  let rep := s.rep r
  let sz1 := (rep.length + n) % 2 ^ 32
  let (t, r') ←
    (if rep.references ≠ 0 ∨ rep.capacity < sz1 then do
      let (t, r') ← s.create rep.length (howMuchPreallocate sz1) (some (s.content r))
      some (t.release r, r')
    else some (s, r))
  let t := t.setLength r' sz1
  let t ← t.poke (t.rep r').block ((t.rep r').str + sz1) [0]
  some (t, r')

/-- `UString::append(s, n)` -/
def append (r : Nat) (bytes : Bytes) : Option (Heap × Nat) :=
  if bytes = [] then some (s, r)
  else do
    let (t, r') ← s.appendRep r bytes.length
    let t ← t.poke (t.rep r').block ((t.rep r').str + (s.rep r).length) bytes
    some (t, r')

def erase (r pos n : Nat) : Option (Heap × Nat) := s.replace r pos (s.fold r pos n) []

def clear (r : Nat) : Heap × Nat := s.assignRep r stringRepNull

def resize (r n : Nat) (c : UInt8) : Option (Heap × Nat) :=
  let sz := (s.rep r).length
  if sz < n then s.append r (List.replicate (n - sz) c)
  else if n < sz then s.erase r n uNotFound
  else some (s.setLength r n, r)

def unQuote (r : Nat) : Option (Heap × Nat) :=
  let rep := s.rep r
  if rep.length ≤ 2 then some (s.clear r)
  else if rep.capacity = 0 then
    let rep := { rep with str := rep.str + 1, length := rep.length - 2 }
    some ({ s with rep := Function.update s.rep r rep }, r)
  else do
    let len := rep.length - 2
    let t ← s.poke rep.block rep.str (((s.content r).drop 1).take len)
    let t ← (t.setLength r len).poke rep.block (rep.str + len) [0]
    some (t, r)

/-- `UStringRep::trim` -/
def trim (r : Nat) : Heap × Nat :=
  let rep := s.rep r
  let front := (s.content r).takeWhile isSpace
  let text := (s.content r).drop front.length
  let length := (text.reverse.dropWhile isSpace).length
  ({ s with rep := Function.update s.rep r { rep with str := rep.str + front.length, length } }, r)

/-- `UStringRep::assign`, of bytes that are in a block of the caller. -/
def assign (r : Nat) (bytes : Bytes) : Option (Heap × Nat) :=
  let rep := s.rep r
  if rep.references ≠ 0 ∨ rep.capacity < bytes.length then
    let t := s.release r
    let r' := t.next
    some ({ rep := Function.update t.rep r' ⟨bytes.length, 0, 0, r', 0⟩
            size := Function.update t.size r' bytes.length
            bytes := Function.update t.bytes r' (write (t.bytes r') 0 bytes), next := r' + 1 }, r')
  else do
    let t ← s.poke rep.block rep.str bytes
    let t ← (t.setLength r bytes.length).poke rep.block (rep.str + bytes.length) [0]
    some (t, r)

def reserve (r n : Nat) : Option (Heap × Nat) :=
  let rep := s.rep r
  if n ≤ rep.capacity then some (s, r)
  else do
    let (t, r') ← s.create rep.length (howMuchPreallocate n) (some (s.content r))
    some (t.release r, r')

def setBuffer (r n : Nat) : Option (Heap × Nat) :=
  let rep := s.rep r
  if rep.references = 0 ∧ n ≤ rep.capacity then do
    let t ← (s.setLength r 0).poke rep.block rep.str [0]
    some (t, r)
  else do
    let (t, r') ← s.create 0 n none
    some (t.release r, r')

def duplicate (r : Nat) : Option (Heap × Nat) :=
  let sz := (s.rep r).length
  if sz ≠ 0 then do
    let (t, r') ← s.create sz sz (some (s.content r))
    some (t.release r, r')
  else do
    let (t, r') ← s.create 0 100 none
    let t ← (t.release r).poke r' 0 [0]
    some (t, r')

end Heap

/-- What changes a string through one of its handles. -/
inductive Mutation
  | replace (pos n1 : Nat) (bytes : Bytes)
  | append (bytes : Bytes)
  | erase (pos n : Nat)
  | resize (n : Nat) (c : UInt8)
  | unQuote
  | trim
  | clear
  | assign (bytes : Bytes)
  | reserve (n : Nat)
  | setBuffer (n : Nat)
  | duplicate

/-- The heap after it, and the representation that the handle has. -/
def Heap.apply (s : Heap) (r : Nat) : Mutation → Option (Heap × Nat)
  | .replace pos n1 bytes => s.replace r pos n1 bytes
  | .append bytes => s.append r bytes
  | .erase pos n => s.erase r pos n
  | .resize n c => s.resize r n c
  | .unQuote => s.unQuote r
  | .trim => some (s.trim r)
  | .clear => some (s.clear r)
  | .assign bytes => s.assign r bytes
  | .reserve n => s.reserve r n
  | .setBuffer n => s.setBuffer r n
  | .duplicate => s.duplicate r

end ULib.StringHeap
