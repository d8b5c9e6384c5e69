import ULib.HashMapChains

/-!
The chains of a hash map whose keys lie in the slots of their hashes, each of them once, and what
the operations on nodes do to it.
-/

namespace ULib.HashMapShape

open ULib.KeyComparison
open ULib.LinkedChain
open ULib.HashMap
open ULib.HashMapCase (Linked)

variable {β : Type*}

structure Shape (s : UHashMap β) (chains : Nat → List (Cell β)) : Prop where
  cap_pos : 0 < s.capacity
  fresh_pos : 0 < s.fresh
  linked : ∀ i < s.capacity, Chain (view s.heap) (s.table i) (chains i)
  hashed : ∀ i < s.capacity, ∀ c ∈ chains i,
    c.2.hash = (uHash c.2.key).toNat ∧ c.2.hash % s.capacity = i
  below : ∀ i < s.capacity, ∀ c ∈ chains i, c.1 < s.fresh
  addrs : ((cells s.capacity chains).map Prod.fst).Nodup
  keys : ((cells s.capacity chains).map fun c => c.2.key).Nodup

section
variable {s : UHashMap β} {chains : Nat → List (Cell β)} (hs : Shape s chains)
include hs

theorem Shape.toLinked : Linked s chains :=
  ⟨hs.cap_pos, hs.fresh_pos, hs.linked, hs.below, hs.addrs⟩

theorem Shape.heap_eq {i : Nat} (hi : i < s.capacity) {c : Cell β} (hc : c ∈ chains i) :
    ∃ q, s.heap c.1 = some ⟨c.2, q⟩ :=
  hs.toLinked.heap_eq hi hc

theorem Shape.chain_length {i : Nat} (hi : i < s.capacity) : (chains i).length ≤ s.fresh :=
  hs.toLinked.chain_length hi

theorem Shape.cells_length : (cells s.capacity chains).length ≤ s.fresh := by
  have hsub : (cells s.capacity chains).map Prod.fst ⊆ List.range s.fresh := by
    intro a ha
    obtain ⟨c, hc, rfl⟩ := List.mem_map.mp ha
    obtain ⟨i, hi, hc⟩ := mem_cells.mp hc
    exact List.mem_range.mpr (hs.below i hi c hc)
  have h := (hs.addrs.subperm hsub).length_le
  rwa [List.length_map, List.length_range] at h

end

theorem Shape.congr {s s' : UHashMap β} {chains : Nat → List (Cell β)} (hs : Shape s chains)
    (htable : s'.table = s.table) (hfresh : s'.fresh = s.fresh) (hcap : s'.capacity = s.capacity)
    (hheap : ∀ c ∈ cells s.capacity chains, s'.heap c.1 = s.heap c.1) : Shape s' chains := by
  refine ⟨?_, ?_, ?_, ?_, ?_, ?_, ?_⟩
  · exact hcap ▸ hs.cap_pos
  · exact hfresh ▸ hs.fresh_pos
  · rw [hcap, htable]
    intro i hi
    refine (hs.linked i hi).congr ?_
    intro c hc
    rw [view, view, hheap c (mem_cells.mpr ⟨i, hi, hc⟩)]
  · rw [hcap]
    exact hs.hashed
  · rw [hcap, hfresh]
    exact hs.below
  · exact hcap ▸ hs.addrs
  · exact hcap ▸ hs.keys

theorem Shape.sameMap {s s' : UHashMap β} {chains : Nat → List (Cell β)} (hs : Shape s chains)
    (h : SameMap s s') : Shape s' chains :=
  hs.congr h.2.1 h.2.2.1 h.2.2.2.2 fun _ _ => by rw [h.1]

theorem lookupLoop_zero (s : UHashMap β) (key : Bytes) (n : Nat) :
    lookupLoop s key n 0 = some 0 := by
  cases n <;> rfl

theorem lookupLoop_succ (s : UHashMap β) (key : Bytes) (n : Nat) {p : Nat} (hp : p ≠ 0) :
    lookupLoop s key (n + 1) p = (s.heap p).bind fun d =>
      if d.key = key then some p else lookupLoop s key n d.next := by
  obtain ⟨q, rfl⟩ := Nat.exists_eq_succ_of_ne_zero hp
  rfl

/-- The node of `key` in a chain. -/
def findKey (key : Bytes) (cs : List (Cell β)) : Option (Cell β) :=
  cs.find? fun c => c.2.key = key

theorem lookupLoop_spec (s : UHashMap β) (key : Bytes) (n : Nat) {p : Nat} {cs : List (Cell β)}
    (h : Chain (view s.heap) p cs) (hn : cs.length ≤ n) :
    lookupLoop s key n p = some ((findKey key cs).elim 0 Prod.fst) := by
  induction cs generalizing p n with
  | nil =>
      obtain rfl : p = 0 := h
      exact lookupLoop_zero s key n
  | cons c cs ih =>
      obtain ⟨rfl, hc, q, hq, hrest⟩ := h
      cases n with
      | zero => exact absurd hn (by simp)
      | succ n =>
          rw [lookupLoop_succ s key n hc, view_eq_some hq, Option.bind_some]
          by_cases hkey : c.2.key = key
          · simp [findKey, hkey]
          · rw [if_neg hkey, ih n hrest (by simpa using hn)]
            simp [findKey, hkey]

/-- `lookup` leaves the slot of the key and its node there. -/
theorem lookup_spec {s : UHashMap β} {chains : Nat → List (Cell β)} (hs : Shape s chains)
    (key : Bytes) : lookup s key = some
      { s with
        hash := (uHash key).toNat
        index := (uHash key).toNat % s.capacity
        node := (findKey key (chains ((uHash key).toNat % s.capacity))).elim 0 Prod.fst } := by
  have hi := Nat.mod_lt (uHash key).toNat hs.cap_pos
  rw [lookup, if_neg (Nat.ne_of_gt hs.cap_pos)]
  dsimp only
  rw [lookupLoop_spec s key s.fresh (hs.linked _ hi) (hs.chain_length hi), Option.map_some]

/-- The chain of one slot is replaced by nodes that belong there. -/
theorem Shape.update {s s' : UHashMap β} {chains : Nat → List (Cell β)} (hs : Shape s chains)
    {i : Nat} {cs : List (Cell β)} (h : Linked s' (Function.update chains i cs))
    (hcap : s'.capacity = s.capacity)
    (hcs : ∀ c ∈ cs, c.2.hash = (uHash c.2.key).toNat ∧ c.2.hash % s.capacity = i)
    (hkeys : ((cells s.capacity (Function.update chains i cs)).map fun c => c.2.key).Nodup) :
    Shape s' (Function.update chains i cs) := by
  refine ⟨h.cap_pos, h.fresh_pos, h.linked, ?_, h.below, h.addrs, hcap ▸ hkeys⟩
  intro j hj c hc
  rw [hcap] at hj ⊢
  by_cases hji : j = i
  · subst hji
    rw [Function.update_self] at hc
    exact hcs c hc
  · rw [Function.update_of_ne hji] at hc
    exact hs.hashed j hj c hc

/-- A new node in front of a chain. -/
theorem push_shape {s : UHashMap β} {chains : Nat → List (Cell β)} (hs : Shape s chains)
    {i a fresh : Nat} {d : NodeData β} (hhash : d.hash = (uHash d.key).toNat)
    (hi : d.hash % s.capacity = i) (ha : a ≠ 0) (hlt : a < fresh) (hfresh : s.fresh ≤ fresh)
    (haddr : ∀ c ∈ cells s.capacity chains, c.1 ≠ a)
    (hkey : ∀ c ∈ cells s.capacity chains, c.2.key ≠ d.key) :
    Shape { pushed s i a d with fresh := fresh } (Function.update chains i ((a, d) :: chains i)) ∧
      (cells s.capacity (Function.update chains i ((a, d) :: chains i))).Perm
        ((a, d) :: cells s.capacity chains) := by
  have hilt : i < s.capacity := hi ▸ Nat.mod_lt _ hs.cap_pos
  obtain ⟨hpush, hnew⟩ := hs.toLinked.push hilt d ha hlt hfresh haddr s.node s.length
  refine ⟨hs.update hpush rfl ?_ ?_, hnew⟩
  · intro c hc
    rcases List.mem_cons.mp hc with rfl | hc
    · exact ⟨hhash, hi⟩
    · exact hs.hashed i hilt c hc
  · refine (hnew.map fun c => c.2.key).nodup_iff.mpr ?_
    rw [List.map_cons, List.nodup_cons]
    refine ⟨?_, hs.keys⟩
    intro hmem
    obtain ⟨c, hc, heq⟩ := List.mem_map.mp hmem
    exact hkey c hc heq

/-- The element of one node is replaced. -/
theorem overwrite_shape {s : UHashMap β} {chains : Nat → List (Cell β)} (hs : Shape s chains)
    {i : Nat} (hi : i < s.capacity) {xs ys : List (Cell β)} {c : Cell β}
    (hsplit : chains i = xs ++ c :: ys) (elem : β) :
    ∃ q, s.heap c.1 = some ⟨c.2, q⟩ ∧
      Shape (setNode s c.1 (some ⟨{ c.2 with elem := elem }, q⟩))
        (Function.update chains i (xs ++ (c.1, { c.2 with elem := elem }) :: ys)) := by
  obtain ⟨q, hq, hlinked⟩ := hs.toLinked.overwrite hi hsplit elem
  obtain ⟨rest, hperm, -, hmiddle⟩ := cells_middle_perm hi hsplit
  refine ⟨q, hq, hs.update hlinked rfl ?_ ?_⟩
  · intro e he
    rcases List.mem_cons.mp (List.perm_middle.mem_iff.mp he) with rfl | he
    · exact hs.hashed i hi c (hsplit ▸ List.mem_append_right xs List.mem_cons_self)
    · refine hs.hashed i hi e ?_
      rw [hsplit]
      exact List.perm_middle.mem_iff.mpr (List.mem_cons_of_mem c he)
  · have h := (hperm.map fun c => c.2.key).nodup_iff.mp hs.keys
    exact ((hmiddle (c.1, { c.2 with elem := elem })).map fun c => c.2.key).nodup_iff.mpr h

/-- `_eraseAfterFind` takes the node out of its chain and leaves it in the heap. -/
theorem unlink_spec {s : UHashMap β} {chains : Nat → List (Cell β)} (hs : Shape s chains)
    (hi : s.index < s.capacity) {xs ys : List (Cell β)} {c : Cell β}
    (hsplit : chains s.index = xs ++ c :: ys) (hnode : s.node = c.1) :
    ∃ s', unlink s = some s' ∧ Shape s' (Function.update chains s.index (xs ++ ys)) ∧
      (∃ q, s'.heap c.1 = some ⟨c.2, q⟩) ∧ SameFields s s' ∧ s'.node = s.node ∧
      (cells s.capacity chains).Perm
        (c :: cells s.capacity (Function.update chains s.index (xs ++ ys))) := by
  obtain ⟨rest, hperm, hout, -⟩ := cells_middle_perm hi hsplit
  have hcells : (cells s.capacity chains).Perm
      (c :: cells s.capacity (Function.update chains s.index (xs ++ ys))) :=
    hperm.trans (List.Perm.cons c hout.symm)
  obtain ⟨s', hunlink, hlinked, hc, hframe, hnode'⟩ := hs.toLinked.unlink hi hsplit hnode
  refine ⟨s', hunlink, hs.update hlinked hframe.same.2.2 ?_ ?_, hc, hframe.same, hnode', hcells⟩
  · intro d hd
    refine hs.hashed _ hi d ?_
    rw [hsplit]
    exact List.perm_middle.mem_iff.mpr (List.mem_cons_of_mem c hd)
  · have hkeys := (hcells.map fun c => c.2.key).nodup_iff.mp hs.keys
    rw [List.map_cons, List.nodup_cons] at hkeys
    exact hkeys.2

end ULib.HashMapShape
