import ULib.ByteRanges

/-!
`UFile::mmap` of `file.cpp` where there is no file to map, and
`UMemoryPool::deallocate` of `internal/memory_pool.cpp`, on Linux and with
threads: what is asked for is cut off a mapping of 256 MB, and given back to it
if it was the last piece that was cut off.
-/

namespace ULib.MemoryMap

open ULib.ByteRanges

/-- The requests that the system grants, which may depend on the mappings that
are there: one for memory, and one for a temporary file that is mapped. -/
structure Kernel where
  anon : List (Nat × Nat) → Nat → Option Nat
  file : List (Nat × Nat) → Nat → Option Nat

/-- What is granted was not mapped before, and is not the null pointer. -/
structure Kernel.Fresh (k : Kernel) : Prop where
  anon : ∀ maps n a, k.anon maps n = some a →
    a ≠ 0 ∧ ∀ r ∈ maps, Disjoint (bytes (a, n)) (bytes r)
  file : ∀ maps n a, k.file maps n = some a →
    a ≠ 0 ∧ ∀ r ∈ maps, Disjoint (bytes (a, n)) (bytes r)

/-- The system has memory. -/
def Kernel.Grants (k : Kernel) : Prop := ∀ maps n, (k.anon maps n).isSome = true

/-- The mappings of the process, and the variables `pfree` and `nfree` of
`UFile`. Nothing in the program reads `overrun`, which is set as soon as more
is cut off than there is. -/
structure Memory where
  maps : List (Nat × Nat)
  pfree : Nat
  nfree : Nat
  overrun : Bool
  nfree_lt : nfree < 2 ^ 32

def chunk : Nat := 256 * 1024 * 1024

/-- `(length + U_PAGEMASK) & ~U_PAGEMASK` -/
def pages (length : Nat) : Nat := (length + 4095) % 2 ^ 32 / 4096 * 4096

variable (k : Kernel) (m : Memory)

/-- A mapping of a temporary file -/
def mapFile (length : Nat) : Option ((Nat × Nat) × Memory) :=
  (k.file m.maps length).map fun a => ((a, length), { m with maps := (a, length) :: m.maps })

/-- `if (pfree == 0)` -/
def refill : Memory :=
  if m.pfree = 0 then
    match k.anon m.maps chunk with
    | some a =>
        { m with maps := (a, chunk) :: m.maps, pfree := a, nfree := chunk, nfree_lt := by decide }
    | none => { m with pfree := 0, nfree := 0, nfree_lt := by decide }
  else m

/-- The piece that is cut off. A rest of 16 KB or less goes with it. -/
def carve (length : Nat) : (Nat × Nat) × Memory :=
  let nfree := (m.nfree + 2 ^ 32 - length) % 2 ^ 32
  have hlt : nfree < 2 ^ 32 := Nat.mod_lt _ (by decide)
  if 16 * 1024 < nfree then
    ((m.pfree, length), { m with pfree := m.pfree + length, nfree, nfree_lt := hlt })
  else ((m.pfree, (length + nfree) % 2 ^ 32), { m with pfree := 0, nfree, nfree_lt := hlt })

/-- `if (*plength > nfree)`, where the system has the memory, which is not used -/
def overrunBy (a length : Nat) : Memory :=
  { refill k m with maps := (a, length) :: (refill k m).maps, overrun := true }

/-- Behind `#if defined(__linux__) && defined(ENABLE_THREAD)` -/
def cut (length : Nat) : Option ((Nat × Nat) × Memory) :=
  if (refill k m).nfree < length then
    match k.anon (refill k m).maps length with
    | some a => some (carve (overrunBy k m a length) length)
    | none => mapFile k (refill k m) length
  else some (carve (refill k m) length)

/-- `UFile::mmap`, with the length that is left in `*plength`. The process ends
where there is no memory. -/
def mmap (length : Nat) : Option ((Nat × Nat) × Memory) :=
  if chunk ≤ pages length then
    match mapFile k m (pages length) with
    | some r => some r
    | none => cut k m (pages length)
  else cut k m (pages length)

def isLastAllocation (ptr length : Nat) : Bool := m.pfree ≠ 0 && m.pfree = ptr + length

def deallocate (ptr length : Nat) : Memory :=
  if isLastAllocation m ptr length then
    { m with
      pfree := ptr, nfree := (m.nfree + length) % 2 ^ 32
      nfree_lt := Nat.mod_lt _ (by decide) }
  else m

/-- What can still be cut off. -/
def Memory.free : Nat × Nat := (m.pfree, if m.pfree = 0 then 0 else m.nfree)

/-- No address is mapped twice. -/
def Memory.Single : Prop := ∀ x, cover m.maps x ≤ 1

variable {k m} {m' : Memory} {length : Nat} {b : Nat × Nat}

/-! ### The ways to the memory -/

/-- The ways in which `mmap` comes to its result. -/
inductive Served (k : Kernel) (m : Memory) (length : Nat) : Nat × Nat → Memory → Prop
  | file (m₀ : Memory) (a : Nat) (hm₀ : m₀ = m ∨ m₀ = refill k m)
      (hwhy : chunk ≤ length ∨
        (refill k m).nfree < length ∧ k.anon (refill k m).maps length = none)
      (ha : k.file m₀.maps length = some a) :
      Served k m length (a, length) { m₀ with maps := (a, length) :: m₀.maps }
  | carved (hle : length ≤ (refill k m).nfree) :
      Served k m length (carve (refill k m) length).1 (carve (refill k m) length).2
  | overrun (a : Nat) (hlt : (refill k m).nfree < length)
      (ha : k.anon (refill k m).maps length = some a) :
      Served k m length (carve (overrunBy k m a length) length).1
        (carve (overrunBy k m a length) length).2

theorem served_file {m₀ : Memory} (hm₀ : m₀ = m ∨ m₀ = refill k m)
    (hwhy : chunk ≤ length ∨
      (refill k m).nfree < length ∧ k.anon (refill k m).maps length = none)
    (h : mapFile k m₀ length = some (b, m')) : Served k m length b m' := by
  obtain ⟨a, ha, heq⟩ := Option.map_eq_some_iff.mp h
  obtain ⟨rfl, rfl⟩ := Prod.mk.inj heq
  exact .file m₀ a hm₀ hwhy ha

theorem served_cut (h : cut k m length = some (b, m')) : Served k m length b m' := by
  rw [cut] at h
  split at h
  · rename_i hlt
    split at h
    · rename_i a ha
      have hserved := Served.overrun a hlt ha
      rwa [Option.some.inj h] at hserved
    · rename_i hnone
      exact served_file (.inr rfl) (.inr ⟨hlt, hnone⟩) h
  · rename_i hle
    have hserved := Served.carved (Nat.not_lt.mp hle)
    rwa [Option.some.inj h] at hserved

theorem mmap_served (h : mmap k m length = some (b, m')) : Served k m (pages length) b m' := by
  rw [mmap] at h
  split at h
  · rename_i hchunk
    split at h
    · rename_i r hr
      exact served_file (.inl rfl) (.inl hchunk) (hr.trans h)
    · exact served_cut h
  · exact served_cut h

theorem refill_overrun : (refill k m).overrun = m.overrun := by
  rw [refill]
  split
  · split <;> rfl
  · rfl

theorem carve_overrun : (carve m length).2.overrun = m.overrun := by
  rw [carve]
  split <;> rfl

/-- The length that is told is that of the pages, and at most a small rest. -/
theorem mmap_length (h : mmap k m length = some (b, m')) (hlt : pages length + 16384 < 2 ^ 32) :
    pages length ≤ b.2 ∧ b.2 ≤ pages length + 16384 := by
  have hcarve : ∀ m, pages length ≤ (carve m (pages length)).1.2 ∧
      (carve m (pages length)).1.2 ≤ pages length + 16384 := fun m => by
    rw [carve]
    split
    · exact ⟨le_rfl, Nat.le_add_right _ _⟩
    · dsimp only
      omega
  cases mmap_served h with
  | file => exact ⟨le_rfl, Nat.le_add_right _ _⟩
  | carved => exact hcarve _
  | overrun => exact hcarve _

/-- There is always memory where the system never refuses it. -/
theorem mmap_isSome (hk : k.Grants) (m : Memory) (length : Nat) :
    (mmap k m length).isSome = true := by
  have hcut : (cut k m (pages length)).isSome = true := by
    rw [cut]
    split
    · split
      · rfl
      · rename_i hnone
        have := hk (refill k m).maps (pages length)
        rw [hnone] at this
        cases this
    · rfl
  rw [mmap]
  split
  · split
    · rfl
    · exact hcut
  · exact hcut

theorem le_pages (h : length + 4095 < 2 ^ 32) : length ≤ pages length ∧
    pages length ≤ length + 4095 := by
  rw [pages]
  omega

/-! ### What is cut off -/

/-- What has become of the free memory and of what the system granted since:
pieces were given out. -/
structure Gives (m m' : Memory) (given : Nat → Nat) : Prop where
  cover : ∀ x, given x + covers m'.free x + ByteRanges.cover m.maps x ≤
    covers m.free x + ByteRanges.cover m'.maps x
  single : m.Single → m'.Single

theorem Single.cons (h : m.Single) {a n : Nat}
    (hfresh : ∀ r ∈ m.maps, Disjoint (bytes (a, n)) (bytes r)) (x : Nat) :
    cover ((a, n) :: m.maps) x ≤ 1 :=
  apart_iff.mp (List.pairwise_cons.mpr ⟨hfresh, apart_iff.mpr h⟩) x

theorem refill_gives (hk : k.Fresh) : ((refill k m).pfree = 0 → (refill k m).nfree = 0) ∧
    Gives m (refill k m) fun _ => 0 := by
  rw [refill]
  split
  · rename_i hnull
    have hempty : ∀ x, covers m.free x = 0 := fun x => by
      rw [Memory.free, if_pos hnull, covers_zero]
    split
    · rename_i a ha
      obtain ⟨hne, hfresh⟩ := hk.anon _ _ _ ha
      refine ⟨fun h => absurd h hne, fun x => ?_, fun hsingle => Single.cons hsingle hfresh⟩
      show 0 + covers (a, if a = 0 then 0 else chunk) x + _ ≤
        _ + (covers (a, chunk) x + cover m.maps x)
      rw [if_neg hne]
      omega
    · refine ⟨fun _ => rfl, fun x => ?_, id⟩
      show 0 + covers (0, 0) x + cover m.maps x ≤ _ + cover m.maps x
      rw [covers_zero]
      omega
  · rename_i hnull
    exact ⟨fun h => absurd h hnull, fun x => by omega, id⟩

/-- What is cut off is the front of what is free, if there is enough of it. -/
theorem carve_gives (hle : length ≤ m.nfree) (hnull : m.pfree = 0 → m.nfree = 0) :
    length ≤ (carve m length).1.2 ∧ Gives m (carve m length).2 (covers (carve m length).1) := by
  have hlt := m.nfree_lt
  have hrest : (m.nfree + 2 ^ 32 - length) % 2 ^ 32 = m.nfree - length := by omega
  have hfree : ∀ x, covers m.free x = covers (m.pfree, m.nfree) x := fun x => by
    rw [Memory.free]
    split
    · rename_i h
      rw [hnull h]
    · rfl
  rw [carve]
  simp only [hrest]
  split
  · refine ⟨le_rfl, fun x => ?_, id⟩
    have hsplit := @covers_add m.pfree length (m.nfree - length) x
    rw [Nat.add_sub_cancel' hle, ← hfree] at hsplit
    have hmono := @covers_mono (m.pfree + length)
      (if m.pfree + length = 0 then 0 else m.nfree - length) (m.nfree - length) x
      (by split <;> omega)
    show covers (m.pfree, length) x + covers (m.pfree + length, if m.pfree + length = 0 then 0 else
      m.nfree - length) x + cover m.maps x ≤ covers m.free x + cover m.maps x
    omega
  · have hwhole : (length + (m.nfree - length)) % 2 ^ 32 = m.nfree := by omega
    rw [hwhole]
    refine ⟨hle, fun x => ?_, id⟩
    show covers (m.pfree, m.nfree) x + covers (0, 0) x + cover m.maps x ≤
      covers m.free x + cover m.maps x
    rw [covers_zero, hfree]
    omega

theorem Gives.trans {m₁ m₂ : Memory} {given given' : Nat → Nat} (h : Gives m m₁ given)
    (h' : Gives m₁ m₂ given') : Gives m m₂ fun x => given x + given' x :=
  ⟨fun x => by
    have := h.cover x
    have := h'.cover x
    omega, h'.single ∘ h.single⟩

theorem mmap_gives (hk : k.Fresh) (h : mmap k m length = some (b, m'))
    (hsafe : m'.overrun = false) :
    pages length ≤ b.2 ∧ m.overrun = false ∧ Gives m m' (covers b) := by
  obtain ⟨hnull, hrefill⟩ := @refill_gives k m hk
  have hgives : ∀ {m' given}, Gives (refill k m) m' given → Gives m m' given := fun hg => by
    simpa only [Nat.zero_add] using hrefill.trans hg
  cases mmap_served h with
  | file m₀ a hm₀ hwhy ha =>
      have hfile : Gives m₀ { m₀ with maps := (a, pages length) :: m₀.maps }
          (covers (a, pages length)) := by
        refine ⟨fun x => ?_, fun hsingle => Single.cons hsingle (hk.file _ _ _ ha).2⟩
        show _ + covers m₀.free x + _ ≤ _ + (covers (a, pages length) x + cover m₀.maps x)
        omega
      rcases hm₀ with rfl | rfl
      · exact ⟨le_rfl, hsafe, hfile⟩
      · exact ⟨le_rfl, refill_overrun.symm.trans hsafe, hgives hfile⟩
  | carved hle =>
      obtain ⟨hlength, hcarve⟩ := carve_gives hle hnull
      rw [carve_overrun, refill_overrun] at hsafe
      exact ⟨hlength, hsafe, hgives hcarve⟩
  | overrun a hlt ha =>
      rw [carve_overrun] at hsafe
      cases hsafe

/-! ### What is given back -/

theorem deallocate_cover (ptr length x : Nat) :
    covers (deallocate m ptr length).free x ≤ covers m.free x + covers (ptr, length) x := by
  rw [deallocate]
  split
  · rename_i hlast
    obtain ⟨hnull, hptr⟩ := (Bool.and_eq_true _ _).mp hlast
    have hsplit := @covers_add ptr length m.nfree x
    rw [← of_decide_eq_true hptr] at hsplit
    have hmono := @covers_mono ptr (if ptr = 0 then 0 else (m.nfree + length) % 2 ^ 32)
      (length + m.nfree) x (by split <;> omega)
    show covers (ptr, if ptr = 0 then 0 else (m.nfree + length) % 2 ^ 32) x ≤
      covers (m.pfree, if m.pfree = 0 then 0 else m.nfree) x + covers (ptr, length) x
    rw [if_neg (of_decide_eq_true hnull)]
    omega
  · exact Nat.le_add_right _ _

theorem deallocate_same (ptr length : Nat) : (deallocate m ptr length).maps = m.maps ∧
    (deallocate m ptr length).overrun = m.overrun := by
  rw [deallocate]
  split <;> exact ⟨rfl, rfl⟩

end ULib.MemoryMap
