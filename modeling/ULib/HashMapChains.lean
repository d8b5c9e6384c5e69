import ULib.HashMap
import Mathlib.Data.List.Nodup
import Mathlib.Data.List.Range
import Mathlib.Data.List.Perm.Subperm

/-!
The chains of a hash map as memory: what lies in every slot of the table, and what the
operations on nodes do to it, whatever the keys.
-/

namespace ULib.HashMapShape

open ULib.LinkedChain
open ULib.HashMap

variable {β : Type*}

/-- A node with its address. -/
abbrev Cell (β : Type*) := Nat × NodeData β

/-- The heap as a memory of cells. -/
def view (heap : Nat → Option (Node β)) (p : Nat) : Option (NodeData β × Nat) :=
  (heap p).map fun d => (d.toNodeData, d.next)

/-- All nodes, slot by slot. -/
def cells (capacity : Nat) (chains : Nat → List (Cell β)) : List (Cell β) :=
  (List.range capacity).flatMap chains

theorem mem_cells {capacity : Nat} {chains : Nat → List (Cell β)} {c : Cell β} :
    c ∈ cells capacity chains ↔ ∃ i < capacity, c ∈ chains i := by
  simp [cells, List.mem_flatMap]

/-- One slot and the rest of the nodes. -/
theorem cells_update_perm {capacity i : Nat} (hi : i < capacity)
    (chains : Nat → List (Cell β)) :
    ∃ rest, (cells capacity chains).Perm (chains i ++ rest) ∧
      ∀ cs, (cells capacity (Function.update chains i cs)).Perm (cs ++ rest) := by
  have hmem : i ∈ List.range capacity := List.mem_range.mpr hi
  obtain ⟨front, back, hsplit⟩ := List.append_of_mem hmem
  have hnodup : (front ++ i :: back).Nodup := hsplit ▸ List.nodup_range
  have hout : ∀ j ∈ front ++ back, j ≠ i := by
    intro j hj
    rintro rfl
    have := (List.nodup_middle.mp hnodup)
    exact (List.nodup_cons.mp this).1 hj
  have hfront : ∀ cs, front.flatMap (Function.update chains i cs) = front.flatMap chains := by
    intro cs
    apply List.flatMap_congr
    intro j hj
    exact Function.update_of_ne (hout j (List.mem_append_left back hj)) _ _
  have hback : ∀ cs, back.flatMap (Function.update chains i cs) = back.flatMap chains := by
    intro cs
    apply List.flatMap_congr
    intro j hj
    exact Function.update_of_ne (hout j (List.mem_append_right front hj)) _ _
  refine ⟨front.flatMap chains ++ back.flatMap chains, ?_, ?_⟩
  · rw [cells, hsplit, List.flatMap_append, List.flatMap_cons]
    exact List.perm_append_comm_assoc _ _ _
  · intro cs
    rw [cells, hsplit, List.flatMap_append, List.flatMap_cons, hfront, hback, Function.update_self]
    exact List.perm_append_comm_assoc _ _ _

/-- One node and the rest of them. -/
theorem cells_middle_perm {capacity i : Nat} (hi : i < capacity) {chains : Nat → List (Cell β)}
    {xs ys : List (Cell β)} {c : Cell β} (hsplit : chains i = xs ++ c :: ys) :
    ∃ rest, (cells capacity chains).Perm (c :: rest) ∧
      (cells capacity (Function.update chains i (xs ++ ys))).Perm rest ∧
      ∀ d, (cells capacity (Function.update chains i (xs ++ d :: ys))).Perm (d :: rest) := by
  obtain ⟨rest, -, hupdate⟩ := cells_update_perm hi chains
  have hmiddle : ∀ d, (cells capacity (Function.update chains i (xs ++ d :: ys))).Perm
      (d :: (xs ++ ys ++ rest)) := by
    intro d
    refine (hupdate _).trans ?_
    rw [List.append_assoc, List.append_assoc]
    exact List.perm_middle
  refine ⟨xs ++ ys ++ rest, ?_, hupdate _, hmiddle⟩
  have h := hmiddle c
  rwa [← hsplit, Function.update_eq_self] at h

theorem view_eq_some {heap : Nat → Option (Node β)} {p q : Nat} {d : NodeData β}
    (h : view heap p = some (d, q)) : heap p = some ⟨d, q⟩ := by
  obtain ⟨n, hn, heq⟩ := Option.map_eq_some_iff.mp h
  obtain ⟨rfl, rfl⟩ := Prod.mk.inj heq
  exact hn

theorem view_update_of_ne {heap : Nat → Option (Node β)} {a p : Nat} (n : Option (Node β))
    (h : p ≠ a) : view (Function.update heap a n) p = view heap p := by
  rw [view, view, Function.update_of_ne h]

/-- The fields that no cursor lies in. -/
def SameMap (s s' : UHashMap β) : Prop :=
  s'.heap = s.heap ∧ s'.table = s.table ∧ s'.fresh = s.fresh ∧ s'.length = s.length ∧
    s'.capacity = s.capacity

/-- What an operation on chains leaves as it is. -/
def SameFields (s s' : UHashMap β) : Prop :=
  s'.fresh = s.fresh ∧ s'.length = s.length ∧ s'.capacity = s.capacity

/-- A node in front of the chain of slot `i`. -/
def pushed (s : UHashMap β) (i a : Nat) (d : NodeData β) : UHashMap β :=
  setTable (setNode s a (some ⟨d, s.table i⟩)) i a

/-- The address before the rest of a chain whose first part is `zs`. -/
def lastAddr : Nat → List (Cell β) → Nat
  | prev, [] => prev
  | _, z :: zs => lastAddr z.1 zs

theorem lastAddr_concat (prev : Nat) (zs : List (Cell β)) (b : Cell β) :
    lastAddr prev (zs ++ [b]) = b.1 := by
  induction zs generalizing prev with
  | nil => rfl
  | cons z zs ih => exact ih z.1

/-- What the loop does at the node that is moved. -/
def moved (s : UHashMap β) (prev p : Nat) : Option (UHashMap β) :=
  if prev = 0 then some s
  else
    (s.heap prev).bind fun dprev => (s.heap p).map fun d =>
      let s := setNode s prev (some { dprev with next := d.next })
      let s := setNode s p (some { d with next := s.table s.index })
      setTable s s.index p

theorem moveToFront_succ (s : UHashMap β) (n prev : Nat) {p : Nat} (hp : p ≠ 0) :
    moveToFront s (n + 1) prev p = if p = s.node then moved s prev p
      else (s.heap p).bind fun d => moveToFront s n p d.next := by
  obtain ⟨q, rfl⟩ := Nat.exists_eq_succ_of_ne_zero hp
  rfl

theorem moveToFront_spec {s : UHashMap β} {zs ys : List (Cell β)} {c : Cell β} {p : Nat}
    (n prev : Nat) (h : Chain (view s.heap) p (zs ++ c :: ys)) (hnode : s.node = c.1)
    (hne : ∀ z ∈ zs, z.1 ≠ c.1) (hn : zs.length < n) :
    moveToFront s n prev p = moved s (lastAddr prev zs) c.1 := by
  induction zs generalizing p n prev with
  | nil =>
      obtain ⟨rfl, hc, -⟩ := h
      cases n with
      | zero => exact absurd hn (Nat.not_lt_zero _)
      | succ n =>
          rw [moveToFront_succ s n prev hc, if_pos hnode.symm]
          rfl
  | cons z zs ih =>
      obtain ⟨rfl, hz, q, hq, hrest⟩ := h
      cases n with
      | zero => exact absurd hn (Nat.not_lt_zero _)
      | succ n =>
          have hzc : z.1 ≠ s.node := hnode ▸ hne z List.mem_cons_self
          rw [moveToFront_succ s n prev hz, if_neg hzc, view_eq_some hq, Option.bind_some]
          exact ih n z.1 hrest (fun y hy => hne y (List.mem_cons_of_mem z hy))
            (by simpa using hn)

end ULib.HashMapShape

namespace ULib.HashMapCase

open ULib.LinkedChain
open ULib.HashMap (UHashMap Node NodeData setNode setTable)
open ULib.HashMapShape

variable {β : Type*}

/-- The chains of a map, with a node for every address. -/
structure Linked (s : UHashMap β) (chains : Nat → List (Cell β)) : Prop where
  cap_pos : 0 < s.capacity
  fresh_pos : 0 < s.fresh
  linked : ∀ i < s.capacity, Chain (view s.heap) (s.table i) (chains i)
  below : ∀ i < s.capacity, ∀ c ∈ chains i, c.1 < s.fresh
  addrs : ((cells s.capacity chains).map Prod.fst).Nodup

section
variable {s : UHashMap β} {chains : Nat → List (Cell β)} (hs : Linked s chains)
include hs

theorem Linked.chain_nodup {i : Nat} (hi : i < s.capacity) : ((chains i).map Prod.fst).Nodup := by
  obtain ⟨rest, hperm, -⟩ := cells_update_perm hi chains
  have h := (hperm.map Prod.fst).nodup_iff.mp hs.addrs
  rw [List.map_append] at h
  exact h.of_append_left

theorem Linked.chain_length {i : Nat} (hi : i < s.capacity) : (chains i).length ≤ s.fresh := by
  have hsub : (chains i).map Prod.fst ⊆ List.range s.fresh := by
    intro a ha
    obtain ⟨c, hc, rfl⟩ := List.mem_map.mp ha
    exact List.mem_range.mpr (hs.below i hi c hc)
  have h := ((hs.chain_nodup hi).subperm hsub).length_le
  rwa [List.length_map, List.length_range] at h

theorem Linked.heap_eq {i : Nat} (hi : i < s.capacity) {c : Cell β} (hc : c ∈ chains i) :
    ∃ q, s.heap c.1 = some ⟨c.2, q⟩ := by
  obtain ⟨xs, ys, hsplit⟩ := List.append_of_mem hc
  have hlinked := hs.linked i hi
  rw [hsplit] at hlinked
  obtain ⟨q, hq, -⟩ := hlinked.split
  exact ⟨q, view_eq_some hq⟩

theorem Linked.middle_ne {i : Nat} (hi : i < s.capacity) {xs ys : List (Cell β)} {c : Cell β}
    (hsplit : chains i = xs ++ c :: ys) : ∀ d ∈ xs ++ ys, d.1 ≠ c.1 := by
  intro d hd heq
  have hnodup := hs.chain_nodup hi
  rw [hsplit, List.map_append, List.map_cons] at hnodup
  have hmid := (List.nodup_cons.mp (List.nodup_middle.mp hnodup)).1
  rw [← List.map_append, ← heq] at hmid
  exact hmid (List.mem_map_of_mem hd)

/-- Nodes of different slots are different nodes. -/
theorem Linked.other_ne {i j : Nat} (hi : i < s.capacity) (hj : j < s.capacity) (hji : j ≠ i)
    {c d : Cell β} (hd : d ∈ chains j) (hc : c ∈ chains i) : d.1 ≠ c.1 := by
  have haddrs := hs.addrs
  rw [cells, List.map_flatMap, List.nodup_flatMap] at haddrs
  have hsymm : Std.Symm (Function.onFun List.Disjoint fun i => (chains i).map Prod.fst) :=
    ⟨fun _ _ h _ hleft hright => h hright hleft⟩
  have hdisjoint := haddrs.2.forall (List.mem_range.mpr hj) (List.mem_range.mpr hi) hji
  intro heq
  exact hdisjoint (List.mem_map_of_mem hd) (heq ▸ List.mem_map_of_mem hc)

/-- Only the fields of the cursor may be others. -/
theorem Linked.sameMap {s' : UHashMap β} (h : SameMap s s') : Linked s' chains := by
  obtain ⟨hheap, htable, hfresh, -, hcapacity⟩ := h
  refine ⟨hcapacity ▸ hs.cap_pos, hfresh ▸ hs.fresh_pos, ?_, ?_, hcapacity ▸ hs.addrs⟩
  · rw [hcapacity, hheap, htable]
    exact hs.linked
  · rw [hcapacity, hfresh]
    exact hs.below

end

/-- The chain of one slot is replaced. -/
theorem Linked.update {s s' : UHashMap β} {chains : Nat → List (Cell β)} (hs : Linked s chains)
    {i : Nat} (hi : i < s.capacity) {cs : List (Cell β)} (hcapacity : s'.capacity = s.capacity)
    (hfresh : s.fresh ≤ s'.fresh) (htable : ∀ j, j ≠ i → s'.table j = s.table j)
    (hheap : ∀ j < s.capacity, j ≠ i → ∀ c ∈ chains j, s'.heap c.1 = s.heap c.1)
    (hchain : Chain (view s'.heap) (s'.table i) cs) (hcs : ∀ c ∈ cs, c.1 < s'.fresh)
    (haddrs : ((cells s.capacity (Function.update chains i cs)).map Prod.fst).Nodup) :
    Linked s' (Function.update chains i cs) := by
  refine ⟨hcapacity ▸ hs.cap_pos, Nat.lt_of_lt_of_le hs.fresh_pos hfresh, ?_, ?_,
    hcapacity ▸ haddrs⟩
  · intro j hj
    rw [hcapacity] at hj
    by_cases hji : j = i
    · subst hji
      rw [Function.update_self]
      exact hchain
    · rw [Function.update_of_ne hji, htable j hji]
      refine (hs.linked j hj).congr fun c hc => ?_
      rw [view, view, hheap j hj hji c hc]
  · intro j hj c hc
    rw [hcapacity] at hj
    by_cases hji : j = i
    · subst hji
      rw [Function.update_self] at hc
      exact hcs c hc
    · rw [Function.update_of_ne hji] at hc
      exact Nat.lt_of_lt_of_le (hs.below j hj c hc) hfresh

/-- A new node in front of a chain. -/
theorem Linked.push {s : UHashMap β} {chains : Nat → List (Cell β)} (hs : Linked s chains)
    {i a fresh : Nat} (hi : i < s.capacity) (d : NodeData β) (ha : a ≠ 0) (hlt : a < fresh)
    (hfresh : s.fresh ≤ fresh) (haddr : ∀ c ∈ cells s.capacity chains, c.1 ≠ a)
    (node length : Nat) :
    Linked { pushed s i a d with node := node, fresh := fresh, length := length }
        (Function.update chains i ((a, d) :: chains i)) ∧
      (cells s.capacity (Function.update chains i ((a, d) :: chains i))).Perm
        ((a, d) :: cells s.capacity chains) := by
  obtain ⟨rest, hperm, hupdate⟩ := cells_update_perm hi chains
  have hnew : (cells s.capacity (Function.update chains i ((a, d) :: chains i))).Perm
      ((a, d) :: cells s.capacity chains) :=
    (hupdate _).trans (List.Perm.cons _ hperm.symm)
  refine ⟨?_, hnew⟩
  refine hs.update hi rfl hfresh (fun j hj => Function.update_of_ne hj _ _) ?_ ?_ ?_ ?_
  · intro j hj _ c hc
    exact Function.update_of_ne (haddr c (mem_cells.mpr ⟨j, hj, hc⟩)) _ _
  · refine ⟨Function.update_self _ _ _, ha, s.table i, ?_, ?_⟩
    · show view (Function.update s.heap a _) a = _
      rw [view, Function.update_self]
      rfl
    · refine (hs.linked i hi).congr ?_
      intro c hc
      exact view_update_of_ne _ (haddr c (mem_cells.mpr ⟨i, hi, hc⟩))
  · intro c hc
    rcases List.mem_cons.mp hc with rfl | hc
    · exact hlt
    · exact Nat.lt_of_lt_of_le (hs.below i hi c hc) hfresh
  · refine (hnew.map Prod.fst).nodup_iff.mpr ?_
    rw [List.map_cons, List.nodup_cons]
    refine ⟨?_, hs.addrs⟩
    intro hmem
    obtain ⟨c, hc, heq⟩ := List.mem_map.mp hmem
    exact haddr c hc heq

/-- The element of a node is replaced. -/
theorem Linked.overwrite {s : UHashMap β} {chains : Nat → List (Cell β)} (hs : Linked s chains)
    {i : Nat} (hi : i < s.capacity) {xs ys : List (Cell β)} {c : Cell β}
    (hsplit : chains i = xs ++ c :: ys) (elem : β) :
    ∃ q, s.heap c.1 = some ⟨c.2, q⟩ ∧
      Linked (setNode s c.1 (some ⟨{ c.2 with elem := elem }, q⟩))
        (Function.update chains i (xs ++ (c.1, { c.2 with elem := elem }) :: ys)) := by
  have hlinked := hs.linked i hi
  rw [hsplit] at hlinked
  obtain ⟨q, hq, -⟩ := hlinked.split
  obtain ⟨rest, hperm, -, hmiddle⟩ := cells_middle_perm hi hsplit
  have haddrs := (hperm.map Prod.fst).nodup_iff.mp hs.addrs
  have hne := hs.middle_ne hi hsplit
  have hkeep : ∀ e ∈ xs ++ ys, view (Function.update s.heap c.1
      (some ⟨{ c.2 with elem := elem }, q⟩)) e.1 = view s.heap e.1 := fun e he =>
    view_update_of_ne _ (hne e he)
  have hmem : ∀ e ∈ xs ++ c :: ys, e.1 < s.fresh := fun e he =>
    hs.below i hi e (hsplit ▸ he)
  refine ⟨q, view_eq_some hq, hs.update hi rfl (Nat.le_refl _) (fun _ _ => rfl) ?_ ?_ ?_ ?_⟩
  · intro j hj hji e he
    have hc : c ∈ chains i := hsplit ▸ List.mem_append_right xs List.mem_cons_self
    exact Function.update_of_ne (hs.other_ne hi hj hji he hc) _ _
  · refine hlinked.replace hq ?_ (fun e he => hkeep e (List.mem_append_left ys he))
      (fun e he => hkeep e (List.mem_append_right xs he))
    show view (Function.update s.heap c.1 _) c.1 = _
    rw [view, Function.update_self]
    rfl
  · intro e he
    rcases List.mem_cons.mp (List.perm_middle.mem_iff.mp he) with rfl | he
    · exact hmem c (List.mem_append_right xs List.mem_cons_self)
    · exact hmem e (List.perm_middle.mem_iff.mpr (List.mem_cons_of_mem c he))
  · exact ((hmiddle (c.1, { c.2 with elem := elem })).map Prod.fst).nodup_iff.mpr haddrs

/-- What an operation on the chain of a slot leaves as it is: the heap outside of the chain, and the
fields that no cursor lies in. -/
structure Frame (s s' : UHashMap β) (cs : List (Cell β)) : Prop where
  heap : ∀ p, (∀ c ∈ cs, c.1 ≠ p) → s'.heap p = s.heap p
  same : SameFields s s'

/-- `_eraseAfterFind` takes the node out of its chain and leaves it in the heap. -/
theorem Linked.unlink {s : UHashMap β} {chains : Nat → List (Cell β)} (hs : Linked s chains)
    (hi : s.index < s.capacity) {xs ys : List (Cell β)} {c : Cell β}
    (hsplit : chains s.index = xs ++ c :: ys) (hnode : s.node = c.1) :
    ∃ s', HashMap.unlink s = some s' ∧
      Linked s' (Function.update chains s.index (xs ++ ys)) ∧
      (∃ q, s'.heap c.1 = some ⟨c.2, q⟩) ∧ Frame s s' (chains s.index) ∧ s'.node = s.node := by
  obtain ⟨rest, hperm, hout, -⟩ := cells_middle_perm hi hsplit
  have hcells : (cells s.capacity chains).Perm
      (c :: cells s.capacity (Function.update chains s.index (xs ++ ys))) :=
    hperm.trans (List.Perm.cons c hout.symm)
  have haddrs := (hcells.map Prod.fst).nodup_iff.mp hs.addrs
  rw [List.map_cons, List.nodup_cons] at haddrs
  have hlinked := hs.linked s.index hi
  have hlen := hs.chain_length hi
  rw [hsplit] at hlinked hlen
  have hcs : ∀ d ∈ xs ++ ys, d ∈ chains s.index := by
    intro d hd
    rw [hsplit]
    exact List.perm_middle.mem_iff.mpr (List.mem_cons_of_mem c hd)
  have hc_mem : c ∈ chains s.index := hsplit ▸ List.mem_append_right xs List.mem_cons_self
  have hne := hs.middle_ne hi hsplit
  have hbelow : ∀ d ∈ xs ++ ys, d.1 < s.fresh := fun d hd => hs.below _ hi d (hcs d hd)
  obtain ⟨q, hq, hys⟩ := hlinked.split
  have hc := view_eq_some hq
  have hmove := moveToFront_spec s.fresh 0 hlinked hnode
    (fun z hz => hne z (List.mem_append_left ys hz))
    (by rw [List.length_append, List.length_cons] at hlen; omega)
  rcases List.eq_nil_or_concat xs with rfl | ⟨xs', b, hxs⟩
  · -- the node is in front already
    refine ⟨setTable s s.index q, ?_, ?_, ⟨q, hc⟩, ⟨fun _ _ => rfl, rfl, rfl, rfl⟩, rfl⟩
    · rw [HashMap.unlink, hmove, lastAddr, moved, if_pos rfl, Option.bind_some, hnode, hc]
      rfl
    · refine hs.update hi rfl (Nat.le_refl _) (fun j hj => Function.update_of_ne hj _ _)
        (fun _ _ _ _ _ => rfl) ?_ hbelow haddrs.2
      show Chain _ (Function.update s.table s.index q s.index) _
      rw [Function.update_self]
      exact hys
  · rw [List.concat_eq_append] at hxs
    subst hxs
    have hb_mem : b ∈ xs' ++ [b] := List.mem_append_right xs' List.mem_cons_self
    have hbc : b.1 ≠ c.1 := hne b (List.mem_append_left ys hb_mem)
    rw [List.append_assoc, List.singleton_append] at hlinked
    obtain ⟨q', hq', -⟩ := hlinked.split
    have hb := view_eq_some hq'
    have hb0 : b.1 ≠ 0 := hlinked.ne_zero b (List.mem_append_right xs' List.mem_cons_self)
    have hneb : ∀ d ∈ xs' ++ ys, d.1 ≠ b.1 := by
      intro d hd
      have hsplit' : chains s.index = xs' ++ b :: (c :: ys) := by
        rw [hsplit, List.append_assoc, List.singleton_append]
      refine hs.middle_ne hi hsplit' d ?_
      rcases List.mem_append.mp hd with hd | hd
      · exact List.mem_append_left _ hd
      · exact List.mem_append_right _ (List.mem_cons_of_mem c hd)
    let heap' := Function.update (Function.update s.heap b.1 (some ⟨b.2, q⟩)) c.1
      (some ⟨c.2, s.table s.index⟩)
    have hkeep : ∀ a, a ≠ b.1 → a ≠ c.1 → heap' a = s.heap a := by
      intro a hab hac
      show Function.update (Function.update s.heap b.1 _) c.1 _ a = _
      rw [Function.update_of_ne hac, Function.update_of_ne hab]
    have hb' : heap' b.1 = some ⟨b.2, q⟩ := by
      show Function.update (Function.update s.heap b.1 _) c.1 _ b.1 = _
      rw [Function.update_of_ne hbc, Function.update_self]
    have hc' : heap' c.1 = some ⟨c.2, s.table s.index⟩ := Function.update_self _ _ _
    have hunlink : HashMap.unlink s = some { s with heap := heap' } := by
      rw [HashMap.unlink, hmove, lastAddr_concat, moved, if_neg hb0, hb, Option.bind_some, hc,
        Option.map_some, Option.bind_some]
      dsimp only [setTable, setNode]
      rw [hnode, Function.update_self, Option.map_some]
      dsimp only
      rw [Function.update_idem, Function.update_eq_self]
    have hb_chain : b ∈ chains s.index := hcs b (List.mem_append_left ys hb_mem)
    refine ⟨{ s with heap := heap' }, hunlink, ?_, ⟨_, hc'⟩, ⟨?_, rfl, rfl, rfl⟩, rfl⟩
    · refine hs.update hi rfl (Nat.le_refl _) (fun _ _ => rfl) ?_ ?_ hbelow haddrs.2
      · intro j hj hji d hd
        exact hkeep d.1 (hs.other_ne hi hj hji hd hb_chain) (hs.other_ne hi hj hji hd hc_mem)
      · show Chain (view heap') (s.table s.index) (xs' ++ [b] ++ ys)
        rw [List.append_assoc, List.singleton_append]
        have hview : ∀ d ∈ xs' ++ ys, view heap' d.1 = view s.heap d.1 := by
          intro d hd
          have hd' : d ∈ xs' ++ [b] ++ ys := by
            rw [List.append_assoc, List.singleton_append]
            exact List.perm_middle.mem_iff.mpr (List.mem_cons_of_mem b hd)
          rw [view, view, hkeep d.1 (hneb d hd) (hne d hd')]
        refine hlinked.unlink hq ?_ (fun d hd => hview d (List.mem_append_left ys hd))
          fun d hd => hview d (List.mem_append_right xs' hd)
        rw [view, hb']
        rfl
    · exact fun p hp => hkeep p (hp b hb_chain).symm (hp c hc_mem).symm

end ULib.HashMapCase
