import ULib.JournalEntry

/-!
The pointers of the journal. A lookup ends at the pointer to the node it found
or at a null pointer; two lookups end at the same pointer or at pointers that
do not overlap. `SameTrees` compares the trees in two journals.
-/

namespace ULib.JournalCells

open ByteMemory
open KeyComparison
open ConstantDatabase
open ReliableDatabase
open HeapTree
open JournalTree
open JournalForest
open JournalLog

/-- The nodes that can be reached from the hash table. -/
inductive InTrees (m : Mem) : Nat → Prop where
  | root {i : Nat} (hi : i < cacheHashtabLen) (h : get m (hashtab i) ≠ 0) :
      InTrees m (get m (hashtab i))
  | left {n : Nat} (hn : InTrees m n) (h : get m (n + 16) ≠ 0) : InTrees m (get m (n + 16))
  | right {n : Nat} (hn : InTrees m n) (h : get m (n + 20) ≠ 0) : InTrees m (get m (n + 20))

/-- The hash table and the nodes in the trees are the same. -/
def SameTrees (m m' : Mem) : Prop :=
  (∀ i < cacheHashtabLen, get m' (hashtab i) = get m (hashtab i)) ∧
    ∀ n, InTrees m n → read m' n sizeofCacheNode = read m n sizeofCacheNode

theorem get_of_read {m m' : Mem} {a n : Nat} (h : read m' a n = read m a n) {k : Nat}
    (hk : k + 4 ≤ n) : get m' (a + k) = get m (a + k) := by
  apply Agree.get_eq
  intro x hx hx'
  have hbyte := congrArg (fun l : List UInt8 => l[x - a]?) h
  simp only [getElem?_read _ _ _ _ (show x - a < n by omega)] at hbyte
  rwa [Nat.add_sub_cancel' (by omega), Option.some.injEq] at hbyte

theorem byte_of_get_zero {m : Mem} {a : Nat} (h : get m a = 0) {x : Nat} (hx : a ≤ x)
    (hx' : x < a + 4) : m x = 0 := by
  unfold ByteMemory.get at h
  have hbyte : ∀ b : UInt8, b.toNat = 0 → b = 0 := fun b hb => UInt8.toNat_inj.mp hb
  obtain rfl | rfl | rfl | rfl : x = a ∨ x = a + 1 ∨ x = a + 2 ∨ x = a + 3 := by omega
  all_goals exact hbyte _ (by omega)

section

variable {ignoreCase : Bool} {m : Mem} {H : Heap Entry} {F : Forest}

theorem inTrees_of_mem (h : JournalAt ignoreCase m H F) {i : Nat} (hi : i < cacheHashtabLen)
    {n : Nat} (hn : n ∈ (F i).addresses) : InTrees m n := by
  -- from the root of a tree down
  have hdown : ∀ t : HeapTree.Tree Entry, Represents H t → (t.root ≠ 0 → InTrees m t.root) →
      ∀ n ∈ t.addresses, InTrees m n := by
    intro t
    induction t with
    | leaf => simp
    | node l k v r ihl ihr =>
        rintro ⟨hk, hH, hl, hr⟩ hroot n hn
        have hknode := h.heap.node k _ hH
        have hkin : InTrees m k := hroot hk
        simp only [Tree.addresses_node, List.mem_append, List.mem_singleton] at hn
        rcases hn with hn | hn | rfl
        · refine ihl hl (fun hne => ?_) n hn
          have hleft : get m (k + 16) = l.root := hknode.left
          rw [← hleft] at hne ⊢
          exact hkin.left hne
        · refine ihr hr (fun hne => ?_) n hn
          have hright : get m (k + 20) = r.root := hknode.right
          rw [← hright] at hne ⊢
          exact hkin.right hne
        · exact hkin
  refine hdown (F i) (h.tree i hi) (fun hne => ?_) n hn
  rw [← h.slot i hi] at hne ⊢
  exact .root hi hne

theorem mem_of_inTrees (h : JournalAt ignoreCase m H F) {n : Nat} (hn : InTrees m n) :
    ∃ i < cacheHashtabLen, n ∈ (F i).addresses := by
  induction hn with
  | root hi hne =>
      rename_i i
      refine ⟨i, hi, ?_⟩
      rw [h.slot i hi] at hne ⊢
      cases hF : F i with
      | leaf => exact absurd (by rw [hF]; rfl) hne
      | node l n v r => simp [Tree.root]
  | left _ hne ih =>
      obtain ⟨i, hi, hn⟩ := ih
      obtain ⟨x, hx, hl, -⟩ := (h.tree i hi).children hn
      rw [(h.heap.node _ x hx).left] at hne ⊢
      exact ⟨i, hi, hl.resolve_left hne⟩
  | right _ hne ih =>
      obtain ⟨i, hi, hn⟩ := ih
      obtain ⟨x, hx, -, hr⟩ := (h.tree i hi).children hn
      rw [(h.heap.node _ x hx).right] at hne ⊢
      exact ⟨i, hi, hr.resolve_left hne⟩

/-- Nothing below `RDB_off` has changed, so the trees are the same. -/
theorem sameTrees_of_frame (h : JournalAt ignoreCase m H F) {m' : Mem}
    (hframe : ∀ a, 16 ≤ a → a < get m 0 → m' a = m a) : SameTrees m m' := by
  have hlow := h.low
  have hstruct : sizeofCacheStruct = 16 + 4 * cacheHashtabLen := rfl
  refine ⟨?_, ?_⟩
  · intro i hi
    apply Agree.get_eq
    intro a ha ha'
    simp only [hashtab] at ha ha'
    exact hframe a (by omega) (by omega)
  · intro n hn
    obtain ⟨i, hi, hmem⟩ := mem_of_inTrees h hn
    have hbounds := h.mem_lt hi hmem
    apply Agree.read_eq
    intro a ha ha'
    exact hframe a (by omega) (by omega)

/-! ### The pointer at which a lookup ends -/

theorem stop_word (h : JournalAt ignoreCase m H F) (cmp : Entry → Ordering) (i : Nat)
    {t : HeapTree.Tree Entry} (ht : Represents H t) {c : Cell} (hc : get m (addr i c) = t.root) :
    get m (addr i (t.stop cmp c)) = (t.find cmp).elim 0 Prod.fst := by
  induction t generalizing c with
  | leaf => exact hc
  | node l n v r ihl ihr =>
      obtain ⟨-, hH, hl, hr⟩ := ht
      have hnode := h.heap.node n _ hH
      simp only [Tree.stop, Tree.find]
      cases cmp v with
      | lt => exact ihl hl (c := .left n) hnode.left
      | eq => exact hc
      | gt => exact ihr hr (c := .right n) hnode.right

theorem stopAddr_word (h : JournalAt ignoreCase m H F) (key : Bytes) :
    get m (stopAddr ignoreCase F key) = (lookup ignoreCase F key).elim 0 Prod.fst :=
  stop_word h (seek ignoreCase key) _ (h.tree _ (slotOf_lt ignoreCase key)) (c := .root)
    (h.slot _ (slotOf_lt ignoreCase key))

/-- A pointer of the hash table, or one of a node in the trees. -/
def IsCell (F : Forest) (a : Nat) : Prop :=
  (∃ i < cacheHashtabLen, a = hashtab i) ∨
    ∃ i < cacheHashtabLen, ∃ n ∈ (F i).addresses, a = n + 16 ∨ a = n + 20

theorem stopAddr_isCell (ignoreCase : Bool) (F : Forest) (key : Bytes) :
    IsCell F (stopAddr ignoreCase F key) := by
  have hi := slotOf_lt ignoreCase key
  unfold stopAddr
  rcases stop_cases (seek ignoreCase key) .root (F (slotOf ignoreCase key)) with
    hc | ⟨n, hn, hc | hc⟩
  · rw [hc]
    exact .inl ⟨_, hi, rfl⟩
  · rw [hc]
    exact .inr ⟨_, hi, n, hn, .inl rfl⟩
  · rw [hc]
    exact .inr ⟨_, hi, n, hn, .inr rfl⟩

theorem SameTrees.stopAddr_word {m' : Mem} (hsame : SameTrees m m')
    (h : JournalAt ignoreCase m H F) (key : Bytes) :
    get m' (stopAddr ignoreCase F key) = get m (stopAddr ignoreCase F key) := by
  rcases stopAddr_isCell ignoreCase F key with ⟨i, hi, hc⟩ | ⟨i, hi, n, hn, hc | hc⟩
  · rw [hc]
    exact hsame.1 i hi
  · rw [hc]
    exact get_of_read (hsame.2 n (inTrees_of_mem h hi hn)) (by decide)
  · rw [hc]
    exact get_of_read (hsame.2 n (inTrees_of_mem h hi hn)) (by decide)

theorem addresses_apart (h : JournalAt ignoreCase m H F) {i j : Nat} (hi : i < cacheHashtabLen)
    (hj : j < cacheHashtabLen) {n k : Nat} (hn : n ∈ (F i).addresses) (hk : k ∈ (F j).addresses)
    (hne : n ≠ k) : Apart n sizeofCacheNode k sizeofCacheNode := by
  obtain ⟨-, x, hx⟩ := h.mem_heap hi hn
  obtain ⟨-, y, hy⟩ := h.mem_heap hj hk
  exact h.heap.apart n x k y hx hy hne

/-- Different pointers do not overlap. -/
theorem isCell_apart (h : JournalAt ignoreCase m H F) {a a' : Nat} (ha : IsCell F a)
    (ha' : IsCell F a') (hne : a ≠ a') : Apart a 4 a' 4 := by
  have h24 : sizeofCacheNode = 24 := rfl
  have hstruct : sizeofCacheStruct = 16 + 4 * cacheHashtabLen := rfl
  unfold Apart
  rcases ha with ⟨i, hi, hc⟩ | ⟨i, hi, n, hn, hc⟩ <;>
    rcases ha' with ⟨j, hj, hc'⟩ | ⟨j, hj, k, hk, hc'⟩
  · simp only [hashtab] at hc hc'
    omega
  · have := (h.mem_lt hj hk).1
    simp only [hashtab] at hc
    omega
  · have := (h.mem_lt hi hn).1
    simp only [hashtab] at hc'
    omega
  · by_cases hnk : n = k
    · omega
    · have := addresses_apart h hi hj hn hk hnk
      unfold Apart at this
      omega

/-! ### A node without key -/

/-- The journal `m'` is `m` with a node without key at its end, behind the
pointer `cell`. -/
structure PendingAt (m m' : Mem) (cell : Nat) : Prop where
  frame : ∀ a, 4 ≤ a → a < get m 0 → a < cell ∨ cell + 4 ≤ a → m' a = m a
  word : get m' cell = get m 0
  klen : get m' (get m 0 + 4) = 0

variable {m' : Mem} {cell : Nat}

/-- The nodes of the trees apart from their pointers. -/
theorem PendingAt.node (h : JournalAt ignoreCase m H F) (hp : PendingAt m m' cell)
    (hcell : IsCell F cell) {i : Nat} (hi : i < cacheHashtabLen) {n : Nat}
    (hn : n ∈ (F i).addresses) {x : Node Entry} (hx : H n = some x) :
    NodeAt m' n ⟨x.val, get m' (n + 16), get m' (n + 20)⟩ := by
  have h24 : sizeofCacheNode = 24 := rfl
  have hstruct : sizeofCacheStruct = 16 + 4 * cacheHashtabLen := rfl
  have hnode := h.heap.node n x hx
  have hbounds := h.mem_lt hi hn
  have hfields : Agree m' m n 16 := by
    intro a ha ha'
    refine hp.frame a (by omega) (by omega) ?_
    rcases hcell with ⟨j, hj, hc⟩ | ⟨j, hj, k, hk, hc⟩
    · simp only [hashtab] at hc
      omega
    · by_cases hnk : k = n
      · omega
      · have := addresses_apart h hj hi hk hn hnk
        unfold Apart at this
        omega
  have hblock : ∀ {a k}, LogBlock H (get m 0) a k → Agree m' m a k := by
    intro a k hb z hz hz'
    have hlow := hb.low
    have hhigh := hb.high
    refine hp.frame z (by omega) (by omega) ?_
    rcases hcell with ⟨j, hj, hc⟩ | ⟨j, hj, k, hk, hc⟩
    · simp only [hashtab] at hc
      omega
    · obtain ⟨-, y, hy⟩ := h.mem_heap hj hk
      have := hb.apart k y hy
      unfold Apart at this
      omega
  have h0 : get m' n = get m n := (hfields.mono (by omega) (by omega)).get_eq
  have h8 : get m' (n + 8) = get m (n + 8) := (hfields.mono (by omega) (by omega)).get_eq
  have h12 : get m' (n + 12) = get m (n + 12) := (hfields.mono (by omega) (by omega)).get_eq
  refine ⟨?_, ?_, ?_, ?_, rfl, rfl⟩
  · rw [(hfields.mono (by omega) (by omega)).get_eq, hnode.klen]
  · rw [h0, (hblock (h.heap.keyBlock n x hx)).read_eq, hnode.key]
  · intro hd
    rw [h8, h12]
    exact hnode.deleted hd
  · intro d hd
    rw [h8, h12, (hblock (h.heap.dataBlock n x d hx hd)).read_eq]
    exact hnode.data d hd

/-- A pointer of the trees after the change. -/
theorem PendingAt.isCell_word (h : JournalAt ignoreCase m H F) (hp : PendingAt m m' cell)
    (hcell : IsCell F cell) {a : Nat} (ha : IsCell F a) :
    get m' a = if a = cell then get m 0 else get m a := by
  split
  · next heq => rw [heq, hp.word]
  · next hne =>
    have hap := isCell_apart h ha hcell hne
    have hstruct : sizeofCacheStruct = 16 + 4 * cacheHashtabLen := rfl
    have hlow := h.low
    have hbounds : 16 ≤ a ∧ a + 4 ≤ get m 0 := by
      rcases ha with ⟨i, hi, hc⟩ | ⟨i, hi, n, hn, hc⟩
      · simp only [hashtab] at hc
        omega
      · have := h.mem_lt hi hn
        have h24 : sizeofCacheNode = 24 := rfl
        omega
    apply Agree.get_eq
    intro z hz hz'
    unfold Apart at hap
    exact hp.frame z (by omega) (by omega) (by omega)

/-- A lookup takes the node without key out of the tree if it gets there, and
is not bothered by it otherwise. -/
theorem htWalk_pending (h : JournalAt ignoreCase m H F) (hp : PendingAt m m' cell)
    (hcell : IsCell F cell) (hzero : get m cell = 0) (key : Bytes) {i : Nat}
    (hi : i < cacheHashtabLen) {t : HeapTree.Tree Entry} (ht : Represents H t)
    (hsub : ∀ n ∈ t.addresses, n ∈ (F i).addresses) (hkeys : ∀ e ∈ t.entries, e.2.key ≠ [])
    {c : Cell} (hc : get m (addr i c) = t.root) (hc' : IsCell F (addr i c)) {fuel : Nat}
    (hfuel : t.entries.length < fuel) :
    htWalk ignoreCase key fuel m' (addr i c) =
      some ((t.find (seek ignoreCase key)).isSome, addr i (t.stop (seek ignoreCase key) c),
        (t.find (seek ignoreCase key)).elim 0 Prod.fst,
        if addr i (t.stop (seek ignoreCase key) c) = cell then put m' cell 0 else m') := by
  induction t generalizing c fuel with
  | leaf =>
      obtain ⟨fuel, rfl⟩ : ∃ f, fuel = f + 1 := ⟨fuel - 1, by omega⟩
      have hword := hp.isCell_word h hcell hc'
      have hlow := h.low
      have hstruct : sizeofCacheStruct = 3092 := rfl
      rw [hc] at hword
      simp only [htWalk, hword, Tree.stop, Tree.find, Tree.root]
      by_cases heq : addr i c = cell
      · have hne : get m 0 ≠ 0 := by omega
        simp only [heq, if_true, hne, if_false, hp.klen]
        rfl
      · simp only [heq, if_false, if_true]
        rfl
  | node l n v r ihl ihr =>
      obtain ⟨fuel, rfl⟩ : ∃ f, fuel = f + 1 := ⟨fuel - 1, by omega⟩
      obtain ⟨hn, hH, hl, hr⟩ := ht
      simp only [Tree.addresses_node, List.mem_append, List.mem_singleton] at hsub
      have hmem : n ∈ (F i).addresses := hsub n (.inr (.inr rfl))
      have hnode := hp.node h hcell hi hmem hH
      have hword := hp.isCell_word h hcell hc'
      have hne : addr i c ≠ cell := by
        intro heq
        rw [heq, hzero] at hc
        exact hn hc.symm
      rw [if_neg hne, hc, Tree.root] at hword
      simp only [Tree.entries, List.length_append, List.length_singleton] at hfuel
      have hkey : v.key ≠ [] := hkeys (n, v) (by simp [Tree.entries])
      have hlen : get m' (n + 4) ≠ 0 := by
        rw [hnode.klen]
        exact fun h => hkey (List.length_eq_zero_iff.mp h)
      have hxnode := h.heap.node n _ hH
      have hways : seek ignoreCase key v = .lt ∨ seek ignoreCase key v = .eq ∨
          seek ignoreCase key v = .gt := by
        cases seek ignoreCase key v <;> simp
      rcases hways with hv | hv | hv <;>
        simp only [htWalk, hword, hn, if_false, hlen, compareNode_eq hnode, Tree.find, Tree.stop,
          hv]
      · exact ihl hl (fun k hk => hsub k (.inl hk))
          (fun e he => hkeys e (by simp [Tree.entries, he]))
            (c := .left n) hxnode.left (.inr ⟨i, hi, n, hmem, .inl rfl⟩) (by omega)
      · rw [if_neg hne]
        rfl
      · exact ihr hr (fun k hk => hsub k (.inr (.inl hk)))
            (fun e he => hkeys e (by simp [Tree.entries, he])) (c := .right n) hxnode.right
            (.inr ⟨i, hi, n, hmem, .inr rfl⟩) (by omega)

end

end ULib.JournalCells
