import Mathlib.Algebra.BigOperators.Fin
import Mathlib.Algebra.Order.BigOperators.Group.Finset
import Mathlib.Data.Fin.VecNotation
import ULib.MemoryMap
import ULib.Runs

/-!
The pool of `internal/memory_pool.cpp` on a Linux of 64 bits: ten stacks of
addresses of free blocks, each for blocks of one size. A stack that is empty
gets a new set of blocks from `_malloc`, which may have to pop them from another
stack; the stacks and `_malloc` share the memory that `UFile::mmap` cuts off.
-/

namespace ULib.MemoryPool

open ULib.ByteRanges
open ULib.MemoryMap
open ULib.Runs

/-- `U_STACK_INDEX_TO_SIZE` -/
def stackType : Fin 10 → Nat := ![8, 24, 32, 56, 128, 256, 512, 1024, 2048, 4096]

/-- `U_SIZE_TO_STACK_INDEX` -/
def sizeToStackIndex (sz : Nat) : Fin 10 :=
  if sz ≤ 8 then 0 else if sz ≤ 24 then 1 else if sz ≤ 32 then 2 else if sz ≤ 56 then 3
  else if sz ≤ 128 then 4 else if sz ≤ 256 then 5 else if sz ≤ 512 then 6
  else if sz ≤ 1024 then 7 else if sz ≤ 2048 then 8 else 9

/-- `U_MAX_SIZE_PREALLOCATE` -/
def maxSizePreallocate : Nat := 4096

/-- A `UStackMemoryPool`: `entries` is what the array holds below `len`. The
stack with the index 0 gives out the cells of the array itself. -/
structure Stack where
  pointerBlock : Nat
  entries : List Nat
  space : Nat
  deriving DecidableEq, Repr

/-- Where the arrays `mem_block` and `mem_pointer_block` are. -/
structure Statics where
  memBlock : Nat
  memPointerBlock : Nat

structure Pool where
  memory : Memory
  memStack : Fin 10 → Stack

variable (st : Statics) (k : Kernel)

def Pool.set (p : Pool) (i : Fin 10) (s : Stack) : Pool :=
  { p with memStack := Function.update p.memStack i s }

def deallocatePointerBlock (m : Memory) (s : Stack) : Memory :=
  if s.pointerBlock < st.memPointerBlock ∨ st.memPointerBlock + 640 * 8 < s.pointerBlock then
    deallocate m s.pointerBlock (s.space * 8 % 2 ^ 32)
  else m

/-- `none` where the entries are copied behind the new array. -/
def growPointerBlock (p : Pool) (i : Fin 10) (newSpace : Nat) : Option Pool := do
  let (b, memory) ← mmap k p.memory (newSpace * 8 % 2 ^ 32)
  let s := p.memStack i
  if b.2 / 8 < s.entries.length then none
  else
    some (Pool.set { p with memory := deallocatePointerBlock st memory s } i
      { s with pointerBlock := b.1, space := b.2 / 8 })

/-- What both `_malloc` do with the length, where `pop` is that of the stacks. -/
def mallocLength (pop : Pool → Fin 10 → Option (Nat × Pool)) (p : Pool) (length : Nat) :
    Option ((Nat × Nat) × Pool) :=
  if length ≤ maxSizePreallocate then
    (pop p (sizeToStackIndex length)).map fun r =>
      ((r.1, stackType (sizeToStackIndex length)), r.2)
  else (mmap k p.memory length).map fun r => (r.1, { p with memory := r.2 })

/-- The loop of `allocateMemoryBlocks`, which counts down from `numEntry` and
ends at zero; `none` where it writes behind the array. -/
def divide (p : Pool) (i : Fin 10) (pblock numEntry : Nat) : Option Pool :=
  let s := p.memStack i
  if numEntry = 0 ∨ s.space < s.entries.length + numEntry then none
  else
    some (p.set i { s with
      entries := s.entries ++ (List.range numEntry).reverse.map fun n => pblock + n * stackType i })

def allocateMemoryBlocks (pop : Pool → Fin 10 → Option (Nat × Pool)) (p : Pool) (i : Fin 10)
    (n : Nat) : Option Pool :=
  let size := (n + 2 ^ 32 - (p.memStack i).entries.length) % 2 ^ 32 * stackType i % 2 ^ 32
  if i = 0 then do
    let (b, memory) ← mmap k p.memory size
    some (Pool.set { p with memory } i ⟨b.1, List.replicate (b.2 / 8) 0, b.2 / 8⟩)
  else do
    let (b, p) ← mallocLength k pop p size
    let numEntry := b.2 / stackType i
    let s := p.memStack i
    (if s.space ≤ s.entries.length + numEntry then
        growPointerBlock st k p i ((s.space + numEntry) % 2 ^ 32)
      else some p).bind fun p => divide p i b.1 numEntry

/-- `none` for more nested calls than the bound, and where `len` falls below
zero. -/
def pop : Nat → Pool → Fin 10 → Option (Nat × Pool)
  | 0, _, _ => none
  | depth + 1, p, i =>
      (if (p.memStack i).entries = [] then
          allocateMemoryBlocks st k (pop depth) p i (p.memStack i).space
        else some p).bind fun p => do
      let s := p.memStack i
      let last ← s.entries.getLast?
      let entries := s.entries.dropLast
      some (if i = 0 then s.pointerBlock + entries.length * 8 else last, p.set i { s with entries })

/-- A block of the first stack is not taken back. `none` where the address is
written behind the array. -/
def push (p : Pool) (ptr : Nat) (i : Fin 10) : Option Pool :=
  if i = 0 then some p
  else
    (if (p.memStack i).entries.length = (p.memStack i).space then
        growPointerBlock st k p i ((p.memStack i).space * 2 % 2 ^ 32)
      else some p).bind fun p =>
    let s := p.memStack i
    if s.space ≤ s.entries.length then none
    else some (p.set i { s with entries := s.entries ++ [ptr] })

/-! ### The callers -/

inductive Request where
  | pop (i : Fin 10)
  | malloc (num typeSize : Nat)
  deriving DecidableEq, Repr

/-- A block that a caller has: what was asked for, and the memory that was given
out for it. -/
structure Block where
  request : Request
  range : Nat × Nat
  deriving DecidableEq, Repr

/-- The pool, and the blocks that the program has. -/
structure Heap where
  pool : Pool
  live : List Block

inductive Call where
  | ask (r : Request)
  | free (j : Nat)
  deriving DecidableEq, Repr

/-- `none` here is that the process ends for want of memory, or writes behind
one of the arrays of the pool. -/
def Heap.serve (h : Heap) : Request → Option ((Nat × Nat) × Pool)
  | .pop i => (pop st k 10 h.pool i).map fun r => ((r.1, stackType i), r.2)
  | .malloc num typeSize =>
      mallocLength k (pop st k 10) h.pool (num * typeSize % 2 ^ 32)

/-- `UMemoryPool::push` and `_free`, each for what it gives back. -/
def Heap.release (h : Heap) (b : Block) : Option Pool :=
  match b.request with
  | .pop i => push st k h.pool b.range.1 i
  | .malloc num typeSize =>
      let length := num * typeSize % 2 ^ 32
      if length ≤ maxSizePreallocate then push st k h.pool b.range.1 (sizeToStackIndex length)
      else some { h.pool with memory := deallocate h.pool.memory b.range.1 (pages length) }

/-- A call, with the answers that the system has for it. -/
def Heap.step (h : Heap) : Kernel × Call → Option (Option Nat × Heap)
  | (k, .ask r) => (h.serve st k r).map fun b =>
      (some b.1.1, { pool := b.2, live := h.live ++ [⟨r, b.1⟩] })
  | (k, .free j) => do
      let b ← h.live[j]?
      let pool ← h.release st k b
      some (none, { pool, live := h.live.eraseIdx j })

/-- The part of `mem_block` for the blocks of a stack begins here. -/
def blockOffset (i : Fin 10) : Nat := 32 * (((List.finRange 10).take i).map stackType).sum

/-- The initializers of `mem_stack` and of the arrays -/
def Stack.start (i : Fin 10) : Stack :=
  ⟨st.memPointerBlock + i * 64 * 8,
    (List.range 32).map fun n => st.memBlock + blockOffset i + n * stackType i, 64⟩

theorem zero_lt_word : 0 < 2 ^ 32 := by decide

/-- Both arrays are mappings of the process. -/
def start : Heap :=
  { pool :=
      { memory :=
          { maps := [(st.memBlock, blockOffset 9 + 32 * 4096), (st.memPointerBlock, 640 * 8)]
            pfree := 0, nfree := 0, overrun := false, nfree_lt := zero_lt_word }
        memStack := Stack.start st }
    live := [] }

/-! ### The memory of the pool -/

/-- The memory of a stack: its array and its free blocks. -/
def Stack.ranges (i : Fin 10) (s : Stack) : List (Nat × Nat) :=
  if i = 0 then [(s.pointerBlock, s.entries.length * 8)]
  else (s.pointerBlock, s.space * 8) :: s.entries.map fun e => (e, stackType i)

def Pool.ranges (p : Pool) : List (Nat × Nat) :=
  p.memory.free :: (List.finRange 10).flatMap fun i => (p.memStack i).ranges i

def Heap.ranges (h : Heap) : List (Nat × Nat) := h.live.map Block.range ++ h.pool.ranges

/-- Whether the memory is as long as was asked for. -/
def Block.Enough (b : Block) : Prop :=
  match b.request with
  | .pop i => stackType i ≤ b.range.2
  | .malloc num typeSize => num * typeSize + 4095 < 2 ^ 32 → num * typeSize ≤ b.range.2

/-- All memory in use or free is in the mappings and has one owner. -/
structure Heap.Sound (h : Heap) : Prop where
  within : Within h.ranges h.pool.memory.maps
  apart : Apart h.ranges
  enough : ∀ b ∈ h.live, b.Enough

variable {st k} {p p' : Pool} {i : Fin 10} {s : Stack}

theorem cover_flatMap {α : Type} (l : List α) (f : α → List (Nat × Nat)) (x : Nat) :
    cover (l.flatMap f) x = (l.map fun a => cover (f a) x).sum := by
  induction l with
  | nil => rfl
  | cons a l ih => rw [List.flatMap_cons, cover_append, ih, List.map_cons, List.sum_cons]

theorem cover_pool (p : Pool) (x : Nat) :
    cover p.ranges x = covers p.memory.free x + ∑ i, cover ((p.memStack i).ranges i) x := by
  rw [Pool.ranges, cover_cons, cover_flatMap, ← Fin.sum_univ_def]

@[simp] theorem Pool.set_self (p : Pool) (i : Fin 10) (s : Stack) : (p.set i s).memStack i = s := by
  simp [Pool.set]

theorem Pool.set_of_ne (p : Pool) {i j : Fin 10} (hj : j ≠ i) (s : Stack) :
    (p.set i s).memStack j = p.memStack j := by
  simp [Pool.set, hj]

theorem cover_set (p : Pool) (i : Fin 10) (s : Stack) (x : Nat) :
    cover (p.set i s).ranges x + cover ((p.memStack i).ranges i) x =
      cover p.ranges x + cover (s.ranges i) x := by
  have hupdate : (fun j => cover (((p.set i s).memStack j).ranges j) x) =
      Function.update (fun j => cover ((p.memStack j).ranges j) x) i (cover (s.ranges i) x) := by
    funext j
    by_cases hj : j = i
    · subst hj
      rw [Function.update_self, Pool.set_self]
    · rw [Function.update_of_ne hj, Pool.set_of_ne p hj]
  have hnew := Finset.sum_update_of_mem (Finset.mem_univ i)
    (fun j => cover ((p.memStack j).ranges j) x) (cover (s.ranges i) x)
  have hold := Finset.add_sum_erase Finset.univ (fun j => cover ((p.memStack j).ranges j) x)
    (Finset.mem_univ i)
  rw [← hupdate, Finset.sdiff_singleton_eq_erase] at hnew
  dsimp only at hnew hold
  rw [cover_pool, cover_pool, hnew, ← hold]
  show covers p.memory.free x + _ + _ = _
  omega

theorem cover_memory (p : Pool) (m : Memory) (x : Nat) :
    cover { p with memory := m }.ranges x + covers p.memory.free x =
      cover p.ranges x + covers m.free x := by
  rw [cover_pool, cover_pool]
  show covers m.free x + (∑ i, cover ((p.memStack i).ranges i) x) + covers p.memory.free x = _
  omega

theorem cover_stack (hi : i ≠ 0) (s : Stack) (x : Nat) : cover (s.ranges i) x =
    covers (s.pointerBlock, s.space * 8) x +
      cover (s.entries.map fun e => (e, stackType i)) x := by
  rw [Stack.ranges, if_neg hi, cover_cons]

/-! ### Moves -/

/-- Memory goes over from the pool to a caller, or comes back from one. -/
structure Moves (p p' : Pool) (back given : Nat → Nat) : Prop where
  safe : p.memory.overrun = false
  cover : ∀ x, given x + ByteRanges.cover p'.ranges x + ByteRanges.cover p.memory.maps x ≤
    back x + ByteRanges.cover p.ranges x + ByteRanges.cover p'.memory.maps x
  single : p.memory.Single → p'.memory.Single

def nothing : Nat → Nat := fun _ => 0

theorem Moves.trans {p₁ p₂ : Pool} {back back' given given' : Nat → Nat}
    (h : Moves p p₁ back given) (h' : Moves p₁ p₂ back' given') :
    Moves p p₂ (fun x => back x + back' x) fun x => given x + given' x where
  safe := h.safe
  cover x := by
    have := h.cover x
    have := h'.cover x
    omega
  single := h'.single ∘ h.single

theorem Moves.weaken {back back' given given' : Nat → Nat} (h : Moves p p' back given)
    (hle : ∀ x, given' x + back x ≤ back' x + given x) : Moves p p' back' given' where
  safe := h.safe
  cover x := by
    have := h.cover x
    have := hle x
    omega
  single := h.single

theorem Moves.refl (h : p.memory.overrun = false) : Moves p p nothing nothing where
  safe := h
  cover _ := le_rfl
  single := id

theorem mmap_moves (hk : k.Fresh) {length : Nat} {b : Nat × Nat} {m : Memory}
    (h : mmap k p.memory length = some (b, m)) (hsafe : m.overrun = false) :
    pages length ≤ b.2 ∧ Moves p { p with memory := m } nothing (covers b) := by
  obtain ⟨hlength, hsafe', hgives⟩ := mmap_gives hk h hsafe
  refine ⟨hlength, hsafe', fun x => ?_, hgives.single⟩
  have hcover := hgives.cover x
  have hmemory := cover_memory p m x
  show covers b x + cover { p with memory := m }.ranges x + cover p.memory.maps x ≤
    0 + cover p.ranges x + cover m.maps x
  omega

theorem deallocate_moves {ptr length : Nat} (hsafe : p.memory.overrun = false) :
    Moves p { p with memory := deallocate p.memory ptr length } (covers (ptr, length)) nothing := by
  obtain ⟨hmaps, -⟩ := @deallocate_same p.memory ptr length
  refine ⟨hsafe, fun x => ?_, fun hsingle x => ?_⟩
  · have hcover := @deallocate_cover p.memory ptr length x
    have hmemory := cover_memory p (deallocate p.memory ptr length) x
    show 0 + cover { p with memory := deallocate p.memory ptr length }.ranges x +
        cover p.memory.maps x ≤ covers (ptr, length) x + cover p.ranges x +
      cover (deallocate p.memory ptr length).maps x
    rw [hmaps]
    omega
  · show cover (deallocate p.memory ptr length).maps x ≤ 1
    rw [hmaps]
    exact hsingle x

/-- A stack gets other memory, and gives up its own. -/
theorem set_moves (hsafe : p.memory.overrun = false) (i : Fin 10) (s : Stack) :
    Moves p (p.set i s) (cover (s.ranges i)) (cover ((p.memStack i).ranges i)) := by
  refine ⟨hsafe, fun x => ?_, id⟩
  have hset := cover_set p i s x
  show cover ((p.memStack i).ranges i) x + cover (p.set i s).ranges x + cover p.memory.maps x ≤
    cover (s.ranges i) x + cover p.ranges x + cover p.memory.maps x
  omega

theorem grow_moves (hk : k.Fresh) (hi : i ≠ 0) {n : Nat}
    (h : growPointerBlock st k p i n = some p') (hsafe : p'.memory.overrun = false) :
    Moves p p' nothing nothing := by
  obtain ⟨⟨b, m⟩, hmap, hrest⟩ := Option.bind_eq_some_iff.mp h
  dsimp only at hrest
  split at hrest
  · cases hrest
  · obtain rfl := Option.some.inj hrest
    have hblock : ∀ x, covers (b.1, b.2 / 8 * 8) x ≤ covers b x := fun x =>
      covers_mono (Nat.div_mul_le_self b.2 8)
    have hold := cover_stack hi (p.memStack i)
    have hnew := cover_stack hi { p.memStack i with pointerBlock := b.1, space := b.2 / 8 }
    have hset := fun q hq => @set_moves q hq i
      { p.memStack i with pointerBlock := b.1, space := b.2 / 8 }
    rw [deallocatePointerBlock] at hsafe ⊢
    split at hsafe
    · rename_i hstatic
      have hsafe' : m.overrun = false := (deallocate_same _ _).2.symm.trans hsafe
      obtain ⟨-, hmoves⟩ := mmap_moves hk hmap hsafe'
      have hdealloc := @deallocate_moves { p with memory := m } (p.memStack i).pointerBlock
        ((p.memStack i).space * 8 % 2 ^ 32) hsafe'
      rw [if_pos hstatic]
      refine ((hmoves.trans hdealloc).trans (hset _ hsafe)).weaken fun x => ?_
      have hmono := @covers_mono (p.memStack i).pointerBlock ((p.memStack i).space * 8 % 2 ^ 32)
        ((p.memStack i).space * 8) x (Nat.mod_le _ _)
      have := hblock x
      simp only [nothing, hold, hnew]
      omega
    · rename_i hstatic
      obtain ⟨-, hmoves⟩ := mmap_moves hk hmap hsafe
      rw [if_neg hstatic]
      refine (hmoves.trans (hset _ hsafe)).weaken fun x => ?_
      have := hblock x
      simp only [nothing, hold, hnew]
      omega

/-! ### The blocks of a stack -/

/-- The blocks that come from a stack or from `mmap` have the length that is
told. -/
def Served (length : Nat) (b : Nat × Nat) : Prop :=
  if length ≤ maxSizePreallocate then b.2 = stackType (sizeToStackIndex length)
  else pages length ≤ b.2

theorem mallocLength_moves (hk : k.Fresh) {pop : Pool → Fin 10 → Option (Nat × Pool)}
    (hpop : ∀ {p i r p'}, pop p i = some (r, p') → p'.memory.overrun = false →
      Moves p p' nothing (covers (r, stackType i)))
    {length : Nat} {b : Nat × Nat} (h : mallocLength k pop p length = some (b, p'))
    (hsafe : p'.memory.overrun = false) : Served length b ∧ Moves p p' nothing (covers b) := by
  rw [mallocLength] at h
  rw [Served]
  split at h
  · rename_i hlength
    obtain ⟨⟨r, q⟩, hr, heq⟩ := Option.map_eq_some_iff.mp h
    obtain ⟨rfl, rfl⟩ := Prod.mk.inj heq
    rw [if_pos hlength]
    exact ⟨rfl, hpop hr hsafe⟩
  · rename_i hlength
    obtain ⟨⟨r, m⟩, hr, heq⟩ := Option.map_eq_some_iff.mp h
    obtain ⟨rfl, rfl⟩ := Prod.mk.inj heq
    rw [if_neg hlength]
    exact mmap_moves hk hr hsafe

theorem divide_moves (hi : i ≠ 0) {pblock n : Nat} (h : divide p i pblock n = some p')
    (hsafe : p'.memory.overrun = false) :
    Moves p p' (covers (pblock, n * stackType i)) nothing := by
  rw [divide] at h
  split at h
  · cases h
  · obtain rfl := Option.some.inj h
    refine (@set_moves p hsafe i _).weaken fun x => ?_
    have hpieces := @cover_pieces pblock (stackType i) x n
    have hmap : ((List.range n).reverse.map fun j => pblock + j * stackType i).map
        (fun e => (e, stackType i)) =
      ((List.range n).map fun j => (pblock + j * stackType i, stackType i)).reverse := by
      rw [List.map_map, List.map_reverse]
      rfl
    rw [cover_stack hi, cover_stack hi, List.map_append, cover_append, hmap, cover_reverse, hpieces]
    simp only [nothing]
    omega

theorem allocate_moves (hk : k.Fresh) {pop : Pool → Fin 10 → Option (Nat × Pool)}
    (hpop : ∀ {p i r p'}, pop p i = some (r, p') → p'.memory.overrun = false →
      Moves p p' nothing (covers (r, stackType i)))
    {n : Nat} (h : allocateMemoryBlocks st k pop p i n = some p')
    (hsafe : p'.memory.overrun = false) : Moves p p' nothing nothing := by
  rw [allocateMemoryBlocks] at h
  split at h
  · rename_i hi
    subst hi
    obtain ⟨⟨b, m⟩, hmap, hrest⟩ := Option.bind_eq_some_iff.mp h
    obtain rfl := Option.some.inj hrest
    obtain ⟨-, hmoves⟩ := mmap_moves hk hmap hsafe
    have hset := @set_moves { p with memory := m } hsafe 0
      ⟨b.1, List.replicate (b.2 / 8) 0, b.2 / 8⟩
    refine (hmoves.trans hset).weaken fun x => ?_
    have hmono : covers (b.1, b.2 / 8 * 8) x ≤ covers b x :=
      covers_mono (Nat.div_mul_le_self b.2 8)
    have hnew : cover (Stack.ranges 0 ⟨b.1, List.replicate (b.2 / 8) 0, b.2 / 8⟩) x =
        covers (b.1, b.2 / 8 * 8) x := by
      rw [Stack.ranges, if_pos rfl, cover_cons, cover_nil, Nat.add_zero, List.length_replicate]
    simp only [nothing, hnew]
    omega
  · rename_i hi
    obtain ⟨⟨b, q⟩, hmalloc, hrest⟩ := Option.bind_eq_some_iff.mp h
    obtain ⟨q', hgrow, hdivide⟩ := Option.bind_eq_some_iff.mp hrest
    have hgiven := divide_moves hi hdivide hsafe
    have hgrown : Moves q q' nothing nothing := by
      split at hgrow
      · exact grow_moves hk hi hgrow hgiven.safe
      · obtain rfl := Option.some.inj hgrow
        exact .refl hgiven.safe
    obtain ⟨-, hmalloced⟩ := mallocLength_moves hk hpop hmalloc hgrown.safe
    refine ((hmalloced.trans hgrown).trans hgiven).weaken fun x => ?_
    have hmono : covers (b.1, b.2 / stackType i * stackType i) x ≤ covers b x :=
      covers_mono (Nat.div_mul_le_self b.2 (stackType i))
    simp only [nothing]
    omega

theorem pop_moves (hk : k.Fresh) {depth r : Nat} (h : pop st k depth p i = some (r, p'))
    (hsafe : p'.memory.overrun = false) : Moves p p' nothing (covers (r, stackType i)) := by
  induction depth generalizing p i r p' with
  | zero => cases h
  | succ depth ih =>
      obtain ⟨q, hfill, hrest⟩ := Option.bind_eq_some_iff.mp h
      obtain ⟨last, hlast, heq⟩ := Option.bind_eq_some_iff.mp hrest
      obtain ⟨rfl, rfl⟩ := Prod.mk.inj (Option.some.inj heq)
      have hfilled : Moves p q nothing nothing := by
        split at hfill
        · exact allocate_moves hk ih hfill hsafe
        · obtain rfl := Option.some.inj hfill
          exact .refl hsafe
      refine (hfilled.trans (@set_moves q hsafe i _)).weaken fun x => ?_
      obtain ⟨front, hfront⟩ := List.getLast?_eq_some_iff.mp hlast
      rw [hfront, List.dropLast_concat]
      by_cases hi : i = 0
      · subst hi
        have hsplit := @covers_add (q.memStack 0).pointerBlock (front.length * 8) 8 x
        rw [Stack.ranges, Stack.ranges, if_pos rfl, if_pos rfl, if_pos rfl, hfront,
          List.length_append, List.length_singleton, Nat.succ_mul, cover_cons, cover_cons, hsplit]
        show covers ((q.memStack 0).pointerBlock + front.length * 8, 8) x +
          (0 + (covers ((q.memStack 0).pointerBlock, front.length * 8) x + 0)) ≤ 0 + (0 + (_ + 0))
        omega
      · rw [cover_stack hi, cover_stack hi, if_neg hi, hfront, List.map_append, cover_append]
        simp only [nothing, List.map_cons, List.map_nil, cover_cons, cover_nil]
        omega

theorem push_moves (hk : k.Fresh) {ptr : Nat} (h : push st k p ptr i = some p')
    (hsafe : p'.memory.overrun = false) : Moves p p' (covers (ptr, stackType i)) nothing := by
  rw [push] at h
  split at h
  · obtain rfl := Option.some.inj h
    exact (Moves.refl hsafe).weaken fun x => by simp only [nothing]; omega
  · rename_i hi
    obtain ⟨q, hgrow, hrest⟩ := Option.bind_eq_some_iff.mp h
    dsimp only at hrest
    split at hrest
    · cases hrest
    · obtain rfl := Option.some.inj hrest
      have hgrown : Moves p q nothing nothing := by
        split at hgrow
        · exact grow_moves hk hi hgrow hsafe
        · obtain rfl := Option.some.inj hgrow
          exact .refl hsafe
      refine (hgrown.trans (@set_moves q hsafe i _)).weaken fun x => ?_
      rw [cover_stack hi, cover_stack hi, List.map_append, cover_append]
      simp only [nothing, List.map_cons, List.map_nil, cover_cons, cover_nil]
      omega

/-! ### Runs -/

/-- What was given out for a block. -/
def Block.Served (b : Block) : Prop :=
  match b.request with
  | .pop i => b.range.2 = stackType i
  | .malloc num typeSize => MemoryPool.Served (num * typeSize % 2 ^ 32) b.range

/-- The invariant of the runs that never cut off more than there is. -/
structure Heap.Holds (h : Heap) : Prop where
  cover : ∀ x, ByteRanges.cover h.ranges x ≤ ByteRanges.cover h.pool.memory.maps x
  single : h.pool.memory.Single
  served : ∀ b ∈ h.live, b.Served

theorem cover_heap (h : Heap) (x : Nat) :
    cover h.ranges x = cover (h.live.map Block.range) x + cover h.pool.ranges x :=
  cover_append

variable {h h' : Heap} {r : Option Nat}

theorem serve_moves (hk : k.Fresh) {q : Request} {b : Nat × Nat}
    (hserve : h.serve st k q = some (b, p')) (hsafe : p'.memory.overrun = false) :
    (⟨q, b⟩ : Block).Served ∧ Moves h.pool p' nothing (covers b) := by
  cases q with
  | pop i =>
      obtain ⟨⟨ptr, q⟩, hpop, heq⟩ := Option.map_eq_some_iff.mp hserve
      obtain ⟨rfl, rfl⟩ := Prod.mk.inj heq
      exact ⟨rfl, pop_moves hk hpop hsafe⟩
  | malloc num typeSize =>
      exact mallocLength_moves hk (fun hpop hsafe => pop_moves hk hpop hsafe) hserve hsafe

theorem release_moves (hk : k.Fresh) {b : Block} (hb : b.Served)
    (hrelease : h.release st k b = some p') (hsafe : p'.memory.overrun = false) :
    Moves h.pool p' (covers b.range) nothing := by
  obtain ⟨request, ptr, size⟩ := b
  cases request with
  | pop i =>
      obtain rfl : size = stackType i := hb
      exact push_moves hk hrelease hsafe
  | malloc num typeSize =>
      have hb' : MemoryPool.Served (num * typeSize % 2 ^ 32) (ptr, size) := hb
      rw [Heap.release] at hrelease
      dsimp only at hrelease
      rw [MemoryPool.Served] at hb'
      split at hrelease
      · rename_i hlength
        rw [if_pos hlength] at hb'
        obtain rfl : size = stackType (sizeToStackIndex (num * typeSize % 2 ^ 32)) := hb'
        exact push_moves hk hrelease hsafe
      · rename_i hlength
        rw [if_neg hlength] at hb'
        obtain rfl := Option.some.inj hrelease
        have hsafe' : h.pool.memory.overrun = false := (deallocate_same _ _).2.symm.trans hsafe
        refine (deallocate_moves hsafe').weaken fun x => ?_
        have hmono : covers (ptr, pages (num * typeSize % 2 ^ 32)) x ≤ covers (ptr, size) x :=
          covers_mono hb'
        show 0 + covers (ptr, pages (num * typeSize % 2 ^ 32)) x ≤ covers (ptr, size) x + 0
        omega

theorem release_safe (hk : k.Fresh) {b : Block} (hrelease : h.release st k b = some p')
    (hsafe : p'.memory.overrun = false) : h.pool.memory.overrun = false := by
  obtain ⟨request, ptr, size⟩ := b
  cases request with
  | pop i => exact (push_moves hk hrelease hsafe).safe
  | malloc num typeSize =>
      rw [Heap.release] at hrelease
      dsimp only at hrelease
      split at hrelease
      · exact (push_moves hk hrelease hsafe).safe
      · obtain rfl := Option.some.inj hrelease
        exact (deallocate_same _ _).2.symm.trans hsafe

theorem step_holds {c : Kernel × Call} (hk : c.1.Fresh) (hstep : h.step st c = some (r, h'))
    (hsafe : h'.pool.memory.overrun = false) :
    h.pool.memory.overrun = false ∧ (h.Holds → h'.Holds) := by
  obtain ⟨k, c⟩ := c
  cases c with
  | ask q =>
      obtain ⟨⟨b, p'⟩, hserve, heq⟩ := Option.map_eq_some_iff.mp hstep
      obtain ⟨-, rfl⟩ := Prod.mk.inj heq
      obtain ⟨hb, hmoves⟩ := serve_moves hk hserve hsafe
      refine ⟨hmoves.safe, fun hholds => ⟨fun x => ?_, hmoves.single hholds.single, ?_⟩⟩
      · have hold := hholds.cover x
        have hcover := hmoves.cover x
        rw [cover_heap] at hold ⊢
        rw [List.map_append, cover_append]
        simp only [nothing, List.map_cons, List.map_nil, cover_cons, cover_nil] at *
        omega
      · intro b' hb'
        rcases List.mem_append.mp hb' with hb' | hb'
        · exact hholds.served b' hb'
        · exact List.mem_singleton.mp hb' ▸ hb
  | free j =>
      obtain ⟨b, hj, hrest⟩ := Option.bind_eq_some_iff.mp hstep
      obtain ⟨p', hrelease, heq⟩ := Option.bind_eq_some_iff.mp hrest
      obtain ⟨-, rfl⟩ := Prod.mk.inj (Option.some.inj heq)
      obtain ⟨hlt, hjb⟩ := List.getElem?_eq_some_iff.mp hj
      refine ⟨release_safe hk hrelease hsafe, fun hholds => ?_⟩
      have hb : b.Served := hholds.served b (hjb ▸ List.getElem_mem hlt)
      have hmoves := release_moves hk hb hrelease hsafe
      refine ⟨fun x => ?_, hmoves.single hholds.single, fun b' hb' => ?_⟩
      · have hold := hholds.cover x
        have hcover := hmoves.cover x
        have herase := @cover_eraseIdx (h.live.map Block.range) x j (by simpa using hlt)
        rw [List.getElem_map, hjb, List.eraseIdx_map] at herase
        rw [cover_heap] at hold ⊢
        simp only [nothing] at *
        omega
      · exact hholds.served b' (List.mem_of_mem_eraseIdx hb')

theorem run_holds {calls : List (Kernel × Call)} (hk : ∀ c ∈ calls, c.1.Fresh)
    (hrun : run (Heap.step st) h calls = some h') (hsafe : h'.pool.memory.overrun = false) :
    h.pool.memory.overrun = false ∧ (h.Holds → h'.Holds) := by
  induction calls generalizing h with
  | nil =>
      obtain rfl := Option.some.inj hrun
      exact ⟨hsafe, id⟩
  | cons c calls ih =>
      obtain ⟨hc, hcalls⟩ := List.forall_mem_cons.mp hk
      obtain ⟨⟨r, h₁⟩, hstep, hrest⟩ := Option.bind_eq_some_iff.mp hrun
      obtain ⟨hsafe₁, hholds₁⟩ := ih hcalls hrest
      obtain ⟨hsafe₀, hholds₀⟩ := step_holds hc hstep hsafe₁
      exact ⟨hsafe₀, hholds₁ ∘ hholds₀⟩

theorem le_sizeToStackIndex {sz : Nat} (h : sz ≤ maxSizePreallocate) :
    sz ≤ stackType (sizeToStackIndex sz) := by
  rw [maxSizePreallocate] at h
  rw [sizeToStackIndex]
  split_ifs <;> simp only [stackType] <;> simp <;> omega

theorem Block.Served.enough {b : Block} (hb : b.Served) : b.Enough := by
  obtain ⟨request, ptr, size⟩ := b
  cases request with
  | pop i => exact hb.ge
  | malloc num typeSize =>
      intro hlt
      have hb' : MemoryPool.Served (num * typeSize % 2 ^ 32) (ptr, size) := hb
      rw [MemoryPool.Served, Nat.mod_eq_of_lt (by omega)] at hb'
      show num * typeSize ≤ size
      split at hb'
      · rename_i hlength
        exact (le_sizeToStackIndex hlength).trans hb'.ge
      · exact (le_pages hlt).1.trans hb'

theorem Heap.Holds.sound (hholds : h.Holds) : h.Sound where
  within := within_of_cover_le hholds.cover
  apart := apart_iff.mpr fun x => (hholds.cover x).trans (hholds.single x)
  enough b hb := (hholds.served b hb).enough

theorem cover_start (i : Fin 10) (hi : i ≠ 0) (x : Nat) : cover ((Stack.start st i).ranges i) x =
    covers (st.memPointerBlock + i * 512, 512) x +
      covers (st.memBlock + blockOffset i, 32 * stackType i) x := by
  have hmap : ((List.range 32).map fun n => st.memBlock + blockOffset i + n * stackType i).map
      (fun e => (e, stackType i)) =
    (List.range 32).map fun n => (st.memBlock + blockOffset i + n * stackType i, stackType i) := by
    rw [List.map_map]
    rfl
  have hpieces := @cover_pieces (st.memBlock + blockOffset i) (stackType i) x 32
  rw [← hmap] at hpieces
  rw [cover_stack hi, ← hpieces, Stack.start, Nat.mul_assoc]
  rfl


/-- The places of the pieces of an array, for all stacks -/
theorem sum_laid {a : Nat} {place length : Fin 10 → Nat}
    (hlaid : (List.finRange 10).map (fun i => (place i, length i)) =
      laid 0 ((List.finRange 10).map length)) (x : Nat) :
    ∑ i, covers (a + place i, length i) x = covers (a, ((List.finRange 10).map length).sum) x := by
  have hshift : (List.finRange 10).map (fun i => (a + place i, length i)) =
      laid a ((List.finRange 10).map length) := by
    rw [show laid a _ = laid (a + 0) ((List.finRange 10).map length) from rfl, laid_add, ← hlaid,
      List.map_map]
    rfl
  rw [← cover_laid, ← hshift, cover, List.map_map, Fin.sum_univ_def]
  rfl

theorem start_holds (hst : Disjoint (bytes (st.memBlock, blockOffset 9 + 32 * 4096))
    (bytes (st.memPointerBlock, 640 * 8))) : (start st).Holds := by
  refine ⟨fun x => ?_, fun x => ?_, fun b hb => nomatch hb⟩
  · have hle : ∀ i, cover ((Stack.start st i).ranges i) x ≤
        covers (st.memPointerBlock + i * 512, 512) x +
          covers (st.memBlock + blockOffset i, 32 * stackType i) x := fun i => by
      by_cases hi : i = 0
      · subst hi
        refine le_trans ?_ (Nat.le_add_right _ _)
        exact covers_mono (show 32 * 8 ≤ 512 by decide)
      · exact (cover_start i hi x).le
    have hsum := Finset.sum_le_sum fun i (_ : i ∈ Finset.univ) => hle i
    rw [Finset.sum_add_distrib,
      sum_laid (show _ = laid 0 ((List.finRange 10).map fun _ => 512) by decide +kernel),
      sum_laid (by decide +kernel)] at hsum
    rw [cover_heap]
    show 0 + cover (start st).pool.ranges x ≤ covers (st.memBlock, _) x +
      (covers (st.memPointerBlock, _) x + 0)
    rw [cover_pool]
    show 0 + (covers (0, 0) x + ∑ i, cover ((Stack.start st i).ranges i) x) ≤ _
    rw [covers_zero]
    refine le_trans ?_ (hsum.trans (Nat.add_comm _ _).le)
    omega
  · exact apart_iff.mp (List.pairwise_pair.mpr hst) x

/-! ### A system that leaves gaps between the mappings -/

def gap (maps : List (Nat × Nat)) : Nat := maps.foldr (fun r a => max (r.1 + r.2) a) 0 + 2 ^ 32

def spread : Kernel := ⟨fun maps _ => some (gap maps), fun maps _ => some (gap maps)⟩

theorem gap_fresh {maps : List (Nat × Nat)} {n : Nat} {m : Nat × Nat} (hm : m ∈ maps) :
    Disjoint (bytes (gap maps, n)) (bytes m) := by
  have hle : m.1 + m.2 ≤ gap maps := by
    rw [gap]
    induction maps with
    | nil => cases hm
    | cons r maps ih =>
        rw [List.foldr_cons]
        rcases List.mem_cons.mp hm with rfl | hm
        · omega
        · have := ih hm
          omega
  refine Set.disjoint_left.mpr fun x hx hx' => ?_
  have hx : gap maps ≤ x ∧ _ := hx
  have hx' : _ ∧ x < m.1 + m.2 := hx'
  omega

theorem spread_fresh : spread.Fresh := by
  constructor
  all_goals
    rintro maps n a ha
    obtain rfl := Option.some.inj ha
    exact ⟨Nat.succ_ne_zero _, fun r hr => gap_fresh hr⟩

theorem spread_grants : spread.Grants := fun _ _ => rfl

def exampleCalls : List (Kernel × Call) :=
  [(spread, .ask (.malloc 33 256)), (spread, .ask (.pop 3)), (spread, .free 0)]

/-- No run of calls that never cuts off more than there is gives a byte to two
owners: the blocks that the callers have, the free blocks, the arrays of the
stacks and the rest of the mapping lie apart in the memory that the system
granted, and a block is as long as was asked for. -/
theorem blocks_apart (hst : Disjoint (bytes (st.memBlock, blockOffset 9 + 32 * 4096))
    (bytes (st.memPointerBlock, 640 * 8))) {calls : List (Kernel × Call)}
    (hk : ∀ c ∈ calls, c.1.Fresh) (hrun : run (Heap.step st) (start st) calls = some h')
    (hsafe : h'.pool.memory.overrun = false) : h'.Sound :=
  ((run_holds hk hrun hsafe).2 (start_holds hst)).sound

theorem exists_run {st : Statics} {calls : List (Kernel × Call)}
    (hcheck : (run (Heap.step st) (start st) calls).map (·.pool.memory.overrun) = some false) :
    ∃ h', run (Heap.step st) (start st) calls = some h' ∧ h'.pool.memory.overrun = false :=
  Option.map_eq_some_iff.mp hcheck

theorem blocks_apart_small : ∃ h',
    run (Heap.step ⟨2 ^ 20, 2 ^ 12⟩) (start ⟨2 ^ 20, 2 ^ 12⟩) exampleCalls = some h' ∧
      h'.Sound := by
  obtain ⟨h', hrun, hsafe⟩ := @exists_run ⟨2 ^ 20, 2 ^ 12⟩ exampleCalls (by decide +kernel)
  refine ⟨h', hrun, blocks_apart ?_ ?_ hrun hsafe⟩
  · refine Set.disjoint_left.mpr fun x hx hx' => ?_
    have hx : 2 ^ 20 ≤ x ∧ _ := hx
    have hx' : _ ∧ x < 2 ^ 12 + 640 * 8 := hx'
    omega
  · intro c hc
    simp only [exampleCalls, List.mem_cons, List.not_mem_nil, or_false] at hc
    rcases hc with rfl | rfl | rfl <;> exact spread_fresh

/-! ### Outcomes -/

/-- Every array has room for the entries, and for as many as it had first. -/
structure Pool.Sized (p : Pool) : Prop where
  space : ∀ i, 64 ≤ (p.memStack i).space
  length : ∀ i, (p.memStack i).entries.length ≤ (p.memStack i).space

/-- A block is given back that is there. -/
def Call.Owned (h : Heap) : Call → Prop
  | .ask _ => True
  | .free j => j < h.live.length

instance (h : Heap) : ∀ c : Call, Decidable (c.Owned h)
  | .ask _ => isTrue trivial
  | .free _ => inferInstanceAs (Decidable (_ < _))

/-- The numbers that `allocateMemoryBlocks` and `growPointerBlock` compute stay
below 4 GB. -/
def Stack.Small (i : Fin 10) (s : Stack) : Prop := s.space * stackType i + 20480 < 2 ^ 32

instance (i : Fin 10) (s : Stack) : Decidable (s.Small i) := inferInstanceAs (Decidable (_ < _))

theorem Pool.Sized.set (hp : p.Sized) (i : Fin 10) {s : Stack} (hspace : 64 ≤ s.space)
    (hlength : s.entries.length ≤ s.space) : (p.set i s).Sized := by
  constructor <;> intro j <;> by_cases hj : j = i
  · subst hj
    rwa [Pool.set_self]
  · rw [Pool.set_of_ne p hj]
    exact hp.space j
  · subst hj
    rwa [Pool.set_self]
  · rw [Pool.set_of_ne p hj]
    exact hp.length j

theorem mmap_some (hk : k.Grants) (m : Memory) {length : Nat} (hlt : length + 20479 < 2 ^ 32) :
    ∃ b m', mmap k m length = some (b, m') ∧ length ≤ b.2 ∧ b.2 ≤ length + 20479 := by
  obtain ⟨⟨b, m'⟩, hmap⟩ := Option.isSome_iff_exists.mp (mmap_isSome hk m length)
  obtain ⟨hle, hle'⟩ := le_pages (show length + 4095 < 2 ^ 32 by omega)
  obtain ⟨hlength, hlength'⟩ := mmap_length hmap (by omega)
  exact ⟨b, m', hmap, by omega, by omega⟩

theorem grow_some (hk : k.Grants) (p : Pool) (i : Fin 10) {n : Nat}
    (hn : n * 8 + 20479 < 2 ^ 32) (hlength : (p.memStack i).entries.length ≤ n) :
    ∃ m a space, n ≤ space ∧
      growPointerBlock st k p i n = some (Pool.set { p with memory := m } i
        { p.memStack i with pointerBlock := a, space }) := by
  obtain ⟨b, m, hmap, hle, -⟩ := mmap_some hk p.memory hn
  have hspace : n ≤ b.2 / 8 := (Nat.le_div_iff_mul_le (by decide)).mpr hle
  refine ⟨deallocatePointerBlock st m (p.memStack i), b.1, b.2 / 8, hspace, ?_⟩
  rw [growPointerBlock, Nat.mod_eq_of_lt (by omega), hmap]
  show (if b.2 / 8 < (p.memStack i).entries.length then none else _) = _
  rw [if_neg (by omega)]

theorem stackType_pos (i : Fin 10) : 8 ≤ stackType i ∧ (i ≠ 0 → 24 ≤ stackType i) := by
  revert i
  decide

/-- A set of blocks comes from a stack of larger blocks. -/
theorem lt_sizeToStackIndex {sz : Nat} (hlength : sz ≤ maxSizePreallocate)
    (h : 64 * stackType i ≤ sz) : i < sizeToStackIndex sz := by
  have hle := le_sizeToStackIndex hlength
  by_contra hnot
  have hmono : ∀ i j : Fin 10, i ≤ j → stackType i ≤ stackType j := by decide
  have := hmono _ _ (not_lt.mp hnot)
  have := (stackType_pos i).1
  omega

theorem mallocLength_some (hk : k.Grants) {pop : Pool → Fin 10 → Option (Nat × Pool)}
    (hpop : ∀ j, i < j → ∃ r q, pop p j = some (r, q) ∧ q.Sized ∧
      ∀ l < j, q.memStack l = p.memStack l)
    (hp : p.Sized) {length : Nat} (hle : 64 * stackType i ≤ length)
    (hlt : length + 20479 < 2 ^ 32) : ∃ b q, mallocLength k pop p length = some (b, q) ∧ q.Sized ∧
      (∀ j ≤ i, q.memStack j = p.memStack j) ∧ length ≤ b.2 ∧ b.2 ≤ length + 20479 := by
  by_cases hlength : length ≤ maxSizePreallocate
  · have hindex := lt_sizeToStackIndex hlength hle
    obtain ⟨r, q, hr, hq, hsame⟩ := hpop _ hindex
    have hle' := le_sizeToStackIndex hlength
    have hmax : ∀ j, stackType j ≤ 4096 := by decide
    have hlong : stackType (sizeToStackIndex length) ≤ length + 20479 :=
      (hmax _).trans (by omega)
    refine ⟨(r, stackType (sizeToStackIndex length)), q, ?_, hq,
      fun j hj => hsame j (hj.trans_lt hindex), hle', hlong⟩
    rw [mallocLength, if_pos hlength, hr]
    rfl
  · obtain ⟨b, m, hmap, hb, hb'⟩ := mmap_some hk p.memory hlt
    refine ⟨b, { p with memory := m }, ?_, ⟨hp.space, hp.length⟩, fun _ _ => rfl, hb, hb'⟩
    rw [mallocLength, if_neg hlength, hmap]
    rfl

theorem allocate_some (hk : k.Grants) {pop : Pool → Fin 10 → Option (Nat × Pool)}
    (hpop : ∀ j, i < j → ∃ r q, pop p j = some (r, q) ∧ q.Sized ∧
      ∀ l < j, q.memStack l = p.memStack l)
    (hp : p.Sized) (hsmall : (p.memStack i).Small i) (hempty : (p.memStack i).entries = []) :
    ∃ q, allocateMemoryBlocks st k pop p i (p.memStack i).space = some q ∧ q.Sized ∧
      (q.memStack i).entries ≠ [] ∧ ∀ j < i, q.memStack j = p.memStack j := by
  obtain ⟨htype, htype'⟩ := stackType_pos i
  have hspace := hp.space i
  rw [Stack.Small] at hsmall
  have hfactor := Nat.mul_le_mul_left (p.memStack i).space htype
  have hleft := Nat.mul_le_mul_right (stackType i) hspace
  have hsize : ((p.memStack i).space + 2 ^ 32 - (p.memStack i).entries.length) % 2 ^ 32 *
      stackType i % 2 ^ 32 = (p.memStack i).space * stackType i := by
    rw [hempty, List.length_nil, Nat.sub_zero, Nat.add_mod_right,
      Nat.mod_eq_of_lt (show (p.memStack i).space < 2 ^ 32 by omega), Nat.mod_eq_of_lt (by omega)]
  rw [allocateMemoryBlocks, hsize]
  by_cases hi : i = 0
  · subst hi
    obtain ⟨b, m, hmap, hb, -⟩ := mmap_some hk p.memory
      (show (p.memStack 0).space * stackType 0 + 20479 < 2 ^ 32 by omega)
    have hcells : 64 ≤ b.2 / 8 := (Nat.le_div_iff_mul_le (by decide)).mpr (by
      have : stackType 0 = 8 := rfl
      omega)
    rw [if_pos rfl, hmap]
    refine ⟨_, rfl, ?_, ?_, fun j hj => absurd hj (Fin.not_lt_zero j)⟩
    · exact @Pool.Sized.set { p with memory := m } ⟨hp.space, hp.length⟩ 0
        ⟨b.1, List.replicate (b.2 / 8) 0, b.2 / 8⟩ hcells List.length_replicate.le
    · rw [Pool.set_self]
      exact List.ne_nil_of_length_pos (by rw [List.length_replicate]; omega)
  · obtain ⟨b, q, hmalloc, hq, hsame, hb, hb'⟩ := mallocLength_some hk hpop hp hleft
      (show (p.memStack i).space * stackType i + 20479 < 2 ^ 32 by omega)
    have hq_i := hsame i le_rfl
    have hnum : (p.memStack i).space ≤ b.2 / stackType i :=
      (Nat.le_div_iff_mul_le (by omega)).mpr hb
    have hwide := Nat.mul_le_mul_left (p.memStack i).space (htype' hi)
    have hmany := Nat.mul_le_mul_left (b.2 / stackType i) (htype' hi)
    have hdiv := Nat.div_mul_le_self b.2 (stackType i)
    rw [if_neg hi, hmalloc]
    simp only [Option.bind_eq_bind, Option.bind_some, hq_i, hempty, List.length_nil, Nat.zero_add,
      if_pos hnum]
    rw [Nat.mod_eq_of_lt (by omega)]
    obtain ⟨m, a, space, hgrown, hgrow⟩ := @grow_some st k hk q i
      ((p.memStack i).space + b.2 / stackType i) (by omega)
      (by rw [hq_i, hempty]; exact Nat.zero_le _)
    rw [hgrow, Option.bind_some, divide]
    simp only [Pool.set_self, hq_i, hempty, List.length_nil, Nat.zero_add, List.nil_append]
    rw [if_neg (by omega)]
    have hentries : ((List.range (b.2 / stackType i)).reverse.map
        fun n => b.1 + n * stackType i).length = b.2 / stackType i := by simp
    refine ⟨_, rfl, ?_, ?_, fun j hj => ?_⟩
    · have hset := @Pool.Sized.set { q with memory := m } ⟨hq.space, hq.length⟩ i ⟨a, [], space⟩
        (show 64 ≤ space by omega) (Nat.zero_le _)
      exact hset.set i (show 64 ≤ space by omega) (show _ ≤ space by rw [hentries]; omega)
    · rw [Pool.set_self]
      exact List.ne_nil_of_length_pos (by rw [hentries]; omega)
    · rw [Pool.set_of_ne _ hj.ne, Pool.set_of_ne _ hj.ne]
      exact hsame j hj.le

theorem pop_some (hk : k.Grants) {depth : Nat} (hdepth : 10 ≤ depth + i) (hp : p.Sized)
    (hsmall : ∀ j, i ≤ j → (p.memStack j).Small j) : ∃ r q, pop st k depth p i = some (r, q) ∧
      q.Sized ∧ ∀ j < i, q.memStack j = p.memStack j := by
  induction depth generalizing p i with
  | zero => exact absurd i.isLt (by omega)
  | succ depth ih =>
      have hpop : ∀ j, i < j → ∃ r q, pop st k depth p j = some (r, q) ∧ q.Sized ∧
          ∀ l < j, q.memStack l = p.memStack l := fun j hj =>
        ih (by have := Fin.lt_def.mp hj; omega) hp fun l hl => hsmall l (hj.le.trans hl)
      have hfill : ∃ q, (if (p.memStack i).entries = [] then
            allocateMemoryBlocks st k (pop st k depth) p i (p.memStack i).space
          else some p) = some q ∧ q.Sized ∧ (q.memStack i).entries ≠ [] ∧
          ∀ j < i, q.memStack j = p.memStack j := by
        split
        · rename_i hempty
          exact allocate_some hk hpop hp (hsmall i le_rfl) hempty
        · rename_i hne
          exact ⟨p, rfl, hp, hne, fun _ _ => rfl⟩
      obtain ⟨q, hq, hsized, hne, hsame⟩ := hfill
      rw [pop, hq, Option.bind_some]
      dsimp only
      rw [List.getLast?_eq_some_getLast hne]
      refine ⟨_, _, rfl, hsized.set i (hsized.space i) ?_, fun j hj => ?_⟩
      · have := hsized.length i
        dsimp only
        rw [List.length_dropLast]
        omega
      · rw [Pool.set_of_ne _ hj.ne]
        exact hsame j hj

theorem push_some (hk : k.Grants) (hp : p.Sized) (hsmall : (p.memStack i).Small i) (ptr : Nat) :
    ∃ q, push st k p ptr i = some q ∧ q.Sized := by
  rw [push]
  by_cases hi : i = 0
  · rw [if_pos hi]
    exact ⟨p, rfl, hp⟩
  · have hspace := hp.space i
    have hlength := hp.length i
    rw [Stack.Small] at hsmall
    have hwide := Nat.mul_le_mul_left (p.memStack i).space ((stackType_pos i).2 hi)
    rw [if_neg hi]
    split
    · rename_i hfull
      rw [Nat.mod_eq_of_lt (by omega)]
      obtain ⟨m, a, space, hgrown, hgrow⟩ := @grow_some st k hk p i ((p.memStack i).space * 2)
        (by omega) (by omega)
      rw [hgrow, Option.bind_some]
      simp only [Pool.set_self]
      rw [if_neg (by omega)]
      refine ⟨_, rfl, ?_⟩
      have hset := @Pool.Sized.set { p with memory := m } ⟨hp.space, hp.length⟩ i
        { p.memStack i with pointerBlock := a, space } (by dsimp only; omega) (by dsimp only; omega)
      refine hset.set i (by dsimp only; omega) ?_
      dsimp only
      rw [List.length_append, List.length_singleton]
      omega
    · rename_i hroom
      rw [Option.bind_some]
      dsimp only
      rw [if_neg (by omega)]
      refine ⟨_, rfl, hp.set i hspace ?_⟩
      dsimp only
      rw [List.length_append, List.length_singleton]
      omega

theorem step_some {c : Kernel × Call} (hk : c.1.Grants) (hp : h.pool.Sized)
    (hsmall : ∀ i, (h.pool.memStack i).Small i) (howned : c.2.Owned h) :
    ∃ r h', h.step st c = some (r, h') ∧ h'.pool.Sized := by
  obtain ⟨k, c⟩ := c
  have hpop : ∀ i, ∃ r q, pop st k 10 h.pool i = some (r, q) ∧ q.Sized := fun i => by
    obtain ⟨r, q, hq, hsized, -⟩ := @pop_some st k h.pool i hk 10 (Nat.le_add_right _ _) hp
      fun j _ => hsmall j
    exact ⟨r, q, hq, hsized⟩
  cases c with
  | ask q =>
      have hserve : ∃ b p', h.serve st k q = some (b, p') ∧ p'.Sized := by
        cases q with
        | pop i =>
            obtain ⟨r, q, hq, hsized⟩ := hpop i
            exact ⟨_, q, by rw [Heap.serve, hq]; rfl, hsized⟩
        | malloc num typeSize =>
            rw [Heap.serve, mallocLength]
            split
            · obtain ⟨r, q, hq, hsized⟩ := hpop (sizeToStackIndex (num * typeSize % 2 ^ 32))
              exact ⟨_, q, by rw [hq]; rfl, hsized⟩
            · obtain ⟨⟨b, m⟩, hmap⟩ := Option.isSome_iff_exists.mp
                (mmap_isSome hk h.pool.memory (num * typeSize % 2 ^ 32))
              exact ⟨b, { h.pool with memory := m }, by rw [hmap]; rfl, hp.space, hp.length⟩
      obtain ⟨b, p', hserved, hsized⟩ := hserve
      exact ⟨_, _, by rw [Heap.step, hserved]; rfl, hsized⟩
  | free j =>
      have hlt : j < h.live.length := howned
      have hrelease : ∃ p', h.release st k h.live[j] = some p' ∧ p'.Sized := by
        rw [Heap.release]
        split
        · exact push_some hk hp (hsmall _) _
        · dsimp only
          split
          · exact push_some hk hp (hsmall _) _
          · exact ⟨_, rfl, hp.space, hp.length⟩
      obtain ⟨p', hreleased, hsized⟩ := hrelease
      refine ⟨none, ⟨p', h.live.eraseIdx j⟩, ?_, hsized⟩
      rw [Heap.step, List.getElem?_eq_getElem hlt]
      simp only [Option.bind_eq_bind, Option.bind_some, hreleased]

theorem start_sized : (start st).pool.Sized := by
  constructor
  · exact fun _ => le_rfl
  · exact fun _ => show 32 ≤ 64 by decide

end ULib.MemoryPool
