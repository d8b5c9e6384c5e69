import ULib.JournalTree

/-!
The trees of all slots of the hash table in the bytes of the journal. How the
slot of a key is chosen does not matter here: a slot is searched with some
comparison, and the changes are made where such a search ends.
-/

namespace ULib.SlotTrees

open ByteMemory
open ReliableDatabase
open HeapTree
open JournalTree

/-- Address of the pointer at which a search of slot `i` ends. -/
def stopIn (F : Nat → HeapTree.Tree Entry) (i : Nat) (cmp : Entry → Ordering) : Nat :=
  addr i ((F i).stop cmp .root)

/-- Put an entry into the tree of slot `i`. -/
def graft (F : Nat → HeapTree.Tree Entry) (i : Nat) (cmp : Entry → Ordering) (n₀ : Nat)
    (e : Entry) : Nat → HeapTree.Tree Entry :=
  Function.update F i ((F i).put cmp n₀ e)

/-- The journal holds the trees `F`, which share no node. -/
structure TreesAt (m : Mem) (H : Heap Entry) (F : Nat → HeapTree.Tree Entry) : Prop where
  low : sizeofCacheStruct ≤ get m 0
  heap : HeapAt m (get m 0) H
  tree : ∀ i < cacheHashtabLen, Represents H (F i)
  slot : ∀ i < cacheHashtabLen, get m (hashtab i) = (F i).root
  nodup : ∀ i < cacheHashtabLen, (F i).addresses.Nodup
  disjoint : ∀ i < cacheHashtabLen, ∀ j < cacheHashtabLen, i ≠ j →
    ∀ n ∈ (F i).addresses, n ∉ (F j).addresses

theorem treesAt_empty {m : Mem} (hlow : sizeofCacheStruct ≤ get m 0)
    (hslots : ∀ i < cacheHashtabLen, get m (hashtab i) = 0) :
    TreesAt m (fun _ => none) (fun _ => .leaf) := by
  refine ⟨hlow, ⟨?_, ?_, ?_, ?_, ?_, ?_⟩, fun _ _ => trivial, hslots, ?_, ?_⟩ <;>
    simp

variable {m m' : Mem} {H : Heap Entry} {F : Nat → HeapTree.Tree Entry} {i : Nat}

theorem TreesAt.mem_heap (h : TreesAt m H F) (hi : i < cacheHashtabLen) {n : Nat}
    (hn : n ∈ (F i).addresses) : n ≠ 0 ∧ ∃ x, H n = some x := by
  obtain ⟨e, he, rfl⟩ := List.mem_map.mp hn
  obtain ⟨hne, x, hx, -⟩ := (h.tree i hi).val he
  exact ⟨hne, x, hx⟩

theorem TreesAt.mem_lt (h : TreesAt m H F) (hi : i < cacheHashtabLen) {n : Nat}
    (hn : n ∈ (F i).addresses) : sizeofCacheStruct ≤ n ∧ n + sizeofCacheNode ≤ get m 0 := by
  obtain ⟨-, x, hx⟩ := h.mem_heap hi hn
  exact ⟨h.heap.low n x hx, h.heap.high n x hx⟩

/-- The node of an entry holds its key. -/
theorem TreesAt.nodeAt (h : TreesAt m H F) (hi : i < cacheHashtabLen) {e : Nat × Entry}
    (he : e ∈ (F i).entries) : ∃ x, x.val = e.2 ∧ NodeAt m e.1 x := by
  obtain ⟨-, x, hx, hval⟩ := (h.tree i hi).val he
  exact ⟨x, hval, h.heap.node _ x hx⟩

theorem TreesAt.cellIn (h : TreesAt m H F) (hi : i < cacheHashtabLen) (cmp : Entry → Ordering) :
    CellIn H ((F i).stop cmp .root) := by
  intro n hn
  rcases stop_cases cmp .root (F i) with hc | ⟨k, hk, hc⟩
  · rw [hc] at hn
    simp at hn
  · have hkn : k = n := by
      rcases hc with hc | hc <;> rw [hc] at hn <;> simpa using hn
    exact hkn ▸ (h.mem_heap hi hk).2

/-- The pointer at which a search ends is in the hash table or in a node. -/
theorem TreesAt.stopIn_bounds (h : TreesAt m H F) (hi : i < cacheHashtabLen)
    (cmp : Entry → Ordering) : 16 ≤ stopIn F i cmp ∧ stopIn F i cmp + 4 ≤ get m 0 := by
  have hcell := h.cellIn hi cmp
  have hlow := h.low
  have h24 : sizeofCacheNode = 24 := rfl
  have hstruct : sizeofCacheStruct = 16 + 4 * cacheHashtabLen := rfl
  unfold stopIn
  cases hc : (F i).stop cmp .root with
  | root =>
      simp only [addr, hashtab]
      omega
  | left n =>
      obtain ⟨x, hx⟩ := hcell n (.inl hc)
      have := h.heap.high n x hx
      simp only [addr]
      omega
  | right n =>
      obtain ⟨x, hx⟩ := hcell n (.inr hc)
      have := h.heap.high n x hx
      simp only [addr]
      omega

/-- The pointer is not a word of the hash table but the one of its slot, and
this only for an empty tree. -/
theorem TreesAt.stopIn_apart (h : TreesAt m H F) (hi : i < cacheHashtabLen)
    {cmp : Entry → Ordering} (hnone : (F i).find cmp = none) {j : Nat} (hj : j < cacheHashtabLen)
    (hne : j = i → (F i).root ≠ 0) :
    stopIn F i cmp + 4 ≤ hashtab j ∨ hashtab j + 4 ≤ stopIn F i cmp := by
  have hstruct : sizeofCacheStruct = 16 + 4 * cacheHashtabLen := rfl
  rcases stop_cases cmp .root (F i) with hc | ⟨k, hk, hc⟩
  · have hij : j ≠ i := by
      rintro rfl
      exact stop_ne_of_none hnone (hne rfl) (fun n _ => ⟨by simp, by simp⟩) hc
    simp only [stopIn, hc, addr, hashtab]
    omega
  · have hklow := (h.mem_lt hi hk).1
    have haddr : k + 16 ≤ stopIn F i cmp := by
      unfold stopIn
      rcases hc with hc | hc <;> rw [hc] <;> simp [addr]
    simp only [hashtab]
    omega

theorem TreesAt.fresh (h : TreesAt m H F) (hi : i < cacheHashtabLen) :
    get m 0 ∉ (F i).addresses := by
  intro hmem
  have h24 : sizeofCacheNode = 24 := rfl
  have := (h.mem_lt hi hmem).2
  omega

/-- The addresses stay distinct when a tree gets a new one. -/
theorem TreesAt.addresses_graft (h : TreesAt m H F) (i₀ : Nat) (cmp : Entry → Ordering)
    (e : Entry) (n₀ : Nat)
    (hn₀ : (F i₀).find cmp = none → ∀ i < cacheHashtabLen, n₀ ∉ (F i).addresses) :
    (∀ i < cacheHashtabLen, (graft F i₀ cmp n₀ e i).addresses.Nodup) ∧
      ∀ i < cacheHashtabLen, ∀ j < cacheHashtabLen, i ≠ j →
        ∀ n ∈ (graft F i₀ cmp n₀ e i).addresses, n ∉ (graft F i₀ cmp n₀ e j).addresses := by
  -- the addresses of the changed tree, up to order
  have hperm : ∀ i < cacheHashtabLen,
      (graft F i₀ cmp n₀ e i).addresses.Perm (F i).addresses ∨
        i = i₀ ∧ (F i₀).find cmp = none ∧
          (graft F i₀ cmp n₀ e i).addresses.Perm (n₀ :: (F i).addresses) := by
    intro i hi
    by_cases hslot : i = i₀
    · subst hslot
      rw [graft, Function.update_self]
      cases hfind : (F i).find cmp with
      | none => exact .inr ⟨rfl, rfl, Tree.addresses_put_of_none hfind⟩
      | some x => exact .inl (by rw [Tree.addresses_put_of_some hfind])
    · rw [graft, Function.update_of_ne hslot]
      exact .inl (List.Perm.refl _)
  refine ⟨?_, ?_⟩
  · intro i hi
    rcases hperm i hi with hp | ⟨-, hnone, hp⟩
    · exact hp.nodup_iff.mpr (h.nodup i hi)
    · exact hp.nodup_iff.mpr (List.nodup_cons.mpr ⟨hn₀ hnone i hi, h.nodup i hi⟩)
  · intro i hi j hj hij n hn hn'
    rcases hperm i hi with hp | ⟨hslot, hnone, hp⟩
    · have hmem := hp.mem_iff.mp hn
      rcases hperm j hj with hp' | ⟨-, hnone, hp'⟩
      · exact h.disjoint i hi j hj hij n hmem (hp'.mem_iff.mp hn')
      · rcases List.mem_cons.mp (hp'.mem_iff.mp hn') with rfl | hmem'
        · exact hn₀ hnone i hi hmem
        · exact h.disjoint i hi j hj hij n hmem hmem'
    · rcases hperm j hj with hp' | ⟨hslot', -, -⟩
      · have hmem' := hp'.mem_iff.mp hn'
        rcases List.mem_cons.mp (hp.mem_iff.mp hn) with rfl | hmem
        · exact hn₀ hnone j hj hmem'
        · exact h.disjoint i hi j hj hij n hmem hmem'
      · exact hij (hslot.trans hslot'.symm)

/-- A search that finds nothing gets a node at the end of the journal. -/
theorem TreesAt.link (h : TreesAt m H F) (hi : i < cacheHashtabLen) {cmp : Entry → Ordering}
    (hnone : (F i).find cmp = none) {e : Entry}
    (hframe : ∀ a, 16 ≤ a → a < get m 0 →
      a < stopIn F i cmp ∨ stopIn F i cmp + 4 ≤ a → m' a = m a)
    (hcell : get m' (stopIn F i cmp) = get m 0)
    (hnode : NodeAt m' (get m 0) ⟨e, 0, 0⟩)
    (hkeyBlock : LogBlock H (get m' 0) (get m' (get m 0)) e.key.length ∧
      Apart (get m 0) sizeofCacheNode (get m' (get m 0)) e.key.length)
    (hdataBlock : ∀ d, e.data = some d →
      LogBlock H (get m' 0) (get m' (get m 0 + 8)) d.length ∧
        Apart (get m 0) sizeofCacheNode (get m' (get m 0 + 8)) d.length)
    (hoff : get m 0 + sizeofCacheNode ≤ get m' 0) :
    TreesAt m' (HeapTree.link H ((F i).stop cmp .root) (get m 0) e)
      (graft F i cmp (get m 0) e) := by
  have hstruct : sizeofCacheStruct = 16 + 4 * cacheHashtabLen := rfl
  have hlow := h.low
  have hne : get m 0 ≠ 0 := by omega
  have haddresses := h.addresses_graft i cmp e (get m 0) (fun _ j hj => h.fresh hj)
  have hword : ∀ j < cacheHashtabLen, (j = i → (F i).root ≠ 0) →
      get m' (hashtab j) = get m (hashtab j) := by
    intro j hj hroot
    have hin := h.stopIn_apart hi hnone hj hroot
    apply Agree.get_eq
    intro a ha ha'
    simp only [hashtab] at ha ha' hin
    exact hframe a (by omega) (by omega) (by omega)
  refine ⟨by omega, ?_, ?_, ?_, haddresses.1, haddresses.2⟩
  · exact h.heap.link hi (h.cellIn hi cmp) (fun a ha hlt hc => hframe a (by omega) hlt hc)
      hcell hlow hnode hkeyBlock hdataBlock hoff
  · intro j hj
    by_cases hslot : j = i
    · subst hslot
      rw [graft, Function.update_self]
      exact represents_link (h.tree _ hi) (h.nodup _ hi) hnone hne (h.fresh hi)
        (fun n _ => ⟨by simp, by simp⟩)
    · rw [graft, Function.update_of_ne hslot]
      refine (h.tree j hj).congr fun n hn => ?_
      have hnot := h.disjoint j hj _ hi hslot n hn
      obtain ⟨hl, hr⟩ := stop_outside cmp (c := .root) hnot (by simp) (by simp)
      exact link_other (fun heq => h.fresh hj (heq ▸ hn)) hl hr
  · intro j hj
    by_cases hslot : j = i
    · subst hslot
      rw [graft, Function.update_self]
      cases hF : F j with
      | leaf =>
          have hstop : stopIn F j cmp = hashtab j := by
            rw [stopIn, hF]
            rfl
          rw [← hstop, hcell]
          rfl
      | node l n v r =>
          have htree := h.tree _ hi
          rw [hF] at htree
          rw [root_put htree.root_ne, ← hF, ← h.slot _ hi]
          exact hword j hj fun _ => by rw [hF]; exact htree.root_ne
    · rw [graft, Function.update_of_ne hslot, ← h.slot j hj]
      exact hword j hj fun heq => absurd heq hslot

/-- The node that a search finds gets new contents. -/
theorem TreesAt.update (h : TreesAt m H F) (hi : i < cacheHashtabLen) {cmp : Entry → Ordering}
    {x : Nat × Entry} (hsome : (F i).find cmp = some x) (n₀ : Nat) {e : Entry} {y : Node Entry}
    (hy : H x.1 = some y)
    (hframe : ∀ a, 16 ≤ a → a < get m 0 → a < x.1 ∨ x.1 + 16 ≤ a → m' a = m a)
    (hnode : NodeAt m' x.1 { y with val := e })
    (hkeyBlock : LogBlock H (get m' 0) (get m' x.1) e.key.length)
    (hdataBlock : ∀ d, e.data = some d → LogBlock H (get m' 0) (get m' (x.1 + 8)) d.length)
    (hoff : get m 0 ≤ get m' 0) :
    TreesAt m' (Function.update H x.1 (some { y with val := e })) (graft F i cmp n₀ e) := by
  have hstruct : sizeofCacheStruct = 16 + 4 * cacheHashtabLen := rfl
  have hlow := h.low
  have hmem : x.1 ∈ (F i).addresses := List.mem_map_of_mem (Tree.find_mem hsome).1
  have hxlow := (h.mem_lt hi hmem).1
  have haddresses := h.addresses_graft i cmp e n₀
    (fun hnone => absurd (hnone.symm.trans hsome) (by simp))
  refine ⟨by omega, ?_, ?_, ?_, haddresses.1, haddresses.2⟩
  · exact h.heap.update hy (fun a ha hlt hc => hframe a (by omega) hlt hc) hnode hkeyBlock
      hdataBlock hoff
  · intro j hj
    by_cases hslot : j = i
    · subst hslot
      rw [graft, Function.update_self]
      exact represents_update (h.tree _ hi) (h.nodup _ hi) hsome hy
    · rw [graft, Function.update_of_ne hslot]
      refine (h.tree j hj).congr fun n hn => ?_
      have hne : n ≠ x.1 := fun heq => h.disjoint j hj _ hi hslot n hn (heq ▸ hmem)
      exact Function.update_of_ne hne _ _
  · intro j hj
    have hsame : get m' (hashtab j) = get m (hashtab j) := by
      apply Agree.get_eq
      intro a ha ha'
      simp only [hashtab] at ha ha'
      exact hframe a (by omega) (by omega) (by omega)
    rw [hsame, h.slot j hj]
    by_cases hslot : j = i
    · subst hslot
      rw [graft, Function.update_self]
      cases hF : F j with
      | leaf =>
          rw [hF] at hsome
          cases hsome
      | node l n v r =>
          have htree := h.tree _ hi
          rw [hF] at htree
          exact (root_put htree.root_ne).symm
    · rw [graft, Function.update_of_ne hslot]

/-- Nothing of the journal changes below `RDB_off`. -/
theorem TreesAt.frame (h : TreesAt m H F) (hframe : ∀ a, 16 ≤ a → a < get m 0 → m' a = m a)
    (hoff : get m 0 ≤ get m' 0) : TreesAt m' H F := by
  have hstruct : sizeofCacheStruct = 16 + 4 * cacheHashtabLen := rfl
  have hlow := h.low
  refine ⟨by omega, h.heap.frame (fun a ha hlt => hframe a (by omega) hlt) hoff, h.tree, ?_,
    h.nodup, h.disjoint⟩
  intro i hi
  rw [← h.slot i hi]
  apply Agree.get_eq
  intro a ha ha'
  simp only [hashtab] at ha ha'
  exact hframe a (by omega) (by omega)

end ULib.SlotTrees
