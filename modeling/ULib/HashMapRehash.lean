import ULib.HashMapOperations

/-!
`reserve` moves the nodes of a hash map one by one from the old table to the
new one. The nodes not yet moved stay linked, since a node that is moved is not
one of them.
-/

namespace ULib.HashMapRehash

open ULib.KeyComparison
open ULib.LinkedChain
open ULib.HashMap
open ULib.HashMapShape
open ULib.HashMapOperations

variable {β : Type*}

/-- Nodes that are to be put into the table next to those that are in it. -/
structure Waiting (s : UHashMap β) (chains : Nat → List (Cell β)) (cs : List (Cell β)) :
    Prop where
  hashed : ∀ c ∈ cs, c.2.hash = (uHash c.2.key).toNat
  below : ∀ c ∈ cs, c.1 < s.fresh
  addrs : ((cs ++ cells s.capacity chains).map Prod.fst).Nodup
  keys : ((cs ++ cells s.capacity chains).map fun c => c.2.key).Nodup

theorem Waiting.length_le {s : UHashMap β} {chains : Nat → List (Cell β)} {cs ds : List (Cell β)}
    (h : Waiting s chains (cs ++ ds)) : cs.length ≤ s.fresh := by
  have hnodup : (cs.map Prod.fst).Nodup := by
    have haddrs := h.addrs
    rw [List.append_assoc, List.map_append] at haddrs
    exact haddrs.of_append_left
  have hsub : cs.map Prod.fst ⊆ List.range s.fresh := by
    intro a ha
    obtain ⟨c, hc, rfl⟩ := List.mem_map.mp ha
    exact List.mem_range.mpr (h.below c (List.mem_append_left ds hc))
  have hle := (hnodup.subperm hsub).length_le
  rwa [List.length_map, List.length_range] at hle

/-- A node is put in front of the chain of its slot. -/
theorem Waiting.push {s : UHashMap β} {chains : Nat → List (Cell β)} {c : Cell β}
    {cs : List (Cell β)} (hs : Shape s chains) (h : Waiting s chains (c :: cs)) (hc : c.1 ≠ 0) :
    ∃ chains', Shape (pushed s (c.2.hash % s.capacity) c.1 c.2) chains' ∧
      Waiting (pushed s (c.2.hash % s.capacity) c.1 c.2) chains' cs ∧
      (cells s.capacity chains').Perm (c :: cells s.capacity chains) := by
  have haddrs := h.addrs
  have hkeys := h.keys
  rw [List.cons_append, List.map_cons, List.nodup_cons] at haddrs hkeys
  obtain ⟨hshape, hperm⟩ := push_shape hs (h.hashed c List.mem_cons_self) rfl hc
    (h.below c List.mem_cons_self) (Nat.le_refl _)
    (fun d hd heq => haddrs.1 (List.mem_map.mpr ⟨d, List.mem_append_right cs hd, heq⟩))
    (fun d hd heq => hkeys.1 (List.mem_map.mpr ⟨d, List.mem_append_right cs hd, heq⟩))
  have hall : (cs ++ cells s.capacity (Function.update chains (c.2.hash % s.capacity)
      (c :: chains (c.2.hash % s.capacity)))).Perm (c :: cs ++ cells s.capacity chains) :=
    (List.Perm.append_left cs hperm).trans List.perm_middle
  refine ⟨_, hshape, ⟨?_, ?_, ?_, ?_⟩, hperm⟩
  · intro d hd
    exact h.hashed d (List.mem_cons_of_mem c hd)
  · intro d hd
    exact h.below d (List.mem_cons_of_mem c hd)
  · exact (hall.map Prod.fst).nodup_iff.mpr h.addrs
  · exact (hall.map fun c => c.2.key).nodup_iff.mpr h.keys

theorem rehashChain_zero (n : Nat) (s : UHashMap β) :
    rehashChain n 0 s = some { s with node := 0 } := by
  cases n <;> rfl

theorem rehashChain_succ {s : UHashMap β} (hcap : 0 < s.capacity) (n : Nat) {p : Nat}
    (hp : p ≠ 0) {d : NodeData β} {q : Nat} (hd : s.heap p = some ⟨d, q⟩) :
    rehashChain (n + 1) p s =
      rehashChain n q { pushed s (d.hash % s.capacity) p d with index := d.hash % s.capacity } := by
  obtain ⟨k, rfl⟩ := Nat.exists_eq_succ_of_ne_zero hp
  rw [rehashChain, if_neg hcap.ne', hd, Option.bind_some]
  rfl

/-- The nodes `cs` are put into the table, and other cells keep their content. -/
def Moves (s s' : UHashMap β) (chains chains' : Nat → List (Cell β)) (cs : List (Cell β)) : Prop :=
  Shape s' chains' ∧ SameFields s s' ∧
    (cells s.capacity chains').Perm (cs ++ cells s.capacity chains) ∧
    ∀ a, a ∉ cs.map Prod.fst → s'.heap a = s.heap a

theorem rehashChain_spec {s : UHashMap β} {chains : Nat → List (Cell β)} (hs : Shape s chains)
    {cs ds : List (Cell β)} {p : Nat} (hlinked : Chain (view s.heap) p cs)
    (h : Waiting s chains (cs ++ ds)) (n : Nat) (hn : cs.length ≤ n) :
    ∃ s' chains', rehashChain n p s = some s' ∧ Moves s s' chains chains' cs ∧
      Waiting s' chains' ds := by
  induction cs generalizing s chains p n with
  | nil =>
      obtain rfl : p = 0 := hlinked
      exact ⟨_, chains, rehashChain_zero n s, ⟨hs.congr rfl rfl rfl fun _ _ => rfl,
        ⟨rfl, rfl, rfl⟩, List.Perm.refl _, fun _ _ => rfl⟩, h.hashed, h.below, h.addrs, h.keys⟩
  | cons c cs ih =>
      obtain ⟨rfl, hc, q, hq, hrest⟩ := hlinked
      cases n with
      | zero => exact absurd hn (by simp)
      | succ n =>
          obtain ⟨chains₁, hs₁, h₁, hperm₁⟩ := Waiting.push hs h hc
          let s₁ : UHashMap β := { pushed s (c.2.hash % s.capacity) c.1 c.2 with
            index := c.2.hash % s.capacity }
          have haddrs := h.addrs
          rw [List.append_assoc, List.cons_append, List.map_cons, List.nodup_cons] at haddrs
          have hrest₁ : Chain (view s₁.heap) q cs := by
            refine hrest.congr ?_
            intro d hd
            refine view_update_of_ne _ ?_
            intro heq
            exact haddrs.1 (heq ▸ List.mem_map_of_mem (List.mem_append_left _ hd))
          obtain ⟨s', chains', hrun, ⟨hs', ⟨hfresh, hlength, hcap⟩, hperm, hframe⟩, hwait⟩ :=
            ih (s := s₁) (hs₁.congr rfl rfl rfl fun _ _ => rfl) hrest₁
              ⟨h₁.hashed, h₁.below, h₁.addrs, h₁.keys⟩ n (by simpa using hn)
          refine ⟨s', chains', ?_, ⟨hs', ⟨hfresh, hlength, hcap⟩, ?_, ?_⟩, hwait⟩
          · rw [rehashChain_succ hs.cap_pos n hc (view_eq_some hq), hrun]
          · exact hperm.trans ((List.Perm.append_left cs hperm₁).trans List.perm_middle)
          · intro a ha
            rw [List.map_cons, List.mem_cons, not_or] at ha
            rw [hframe a ha.2]
            exact Function.update_of_ne ha.1 _ _

theorem rehashAll_spec {s : UHashMap β} {chains : Nat → List (Cell β)} (hs : Shape s chains)
    {oldTable : Nat → Nat} {old : Nat → List (Cell β)} {is : List Nat}
    (hlinked : ∀ i ∈ is, Chain (view s.heap) (oldTable i) (old i))
    (h : Waiting s chains (is.flatMap old)) :
    ∃ s' chains', rehashAll oldTable is s = some s' ∧
      Moves s s' chains chains' (is.flatMap old) := by
  induction is generalizing s chains with
  | nil =>
      exact ⟨s, chains, rfl, hs, ⟨rfl, rfl, rfl⟩, List.Perm.refl _, fun _ _ => rfl⟩
  | cons i is ih =>
      have hi := hlinked i List.mem_cons_self
      have his := fun j hj => hlinked j (List.mem_cons_of_mem i hj)
      rw [List.flatMap_cons] at h ⊢
      by_cases hzero : oldTable i = 0
      · rw [rehashAll, if_pos hzero]
        rw [hi.eq_zero_iff.mp hzero, List.nil_append] at h ⊢
        exact ih hs his h
      · obtain ⟨s₁, chains₁, hrun₁, ⟨hs₁, ⟨hfresh₁, hlength₁, hcap₁⟩, hperm₁, hframe₁⟩, h₁⟩ :=
          rehashChain_spec hs hi h s.fresh h.length_le
        have his₁ : ∀ j ∈ is, Chain (view s₁.heap) (oldTable j) (old j) := by
          intro j hj
          refine (his j hj).congr ?_
          intro c hc
          rw [view, view, hframe₁]
          -- a node that waits is not one of those moved
          intro hmem
          have haddrs := h.addrs
          rw [List.append_assoc, List.map_append, List.nodup_append'] at haddrs
          exact haddrs.2.2 hmem (List.mem_map_of_mem (List.mem_append_left _
            (List.mem_flatMap.mpr ⟨j, hj, hc⟩)))
        obtain ⟨s', chains', hrun, hs', ⟨hfresh, hlength, hcap⟩, hperm, hframe⟩ := ih hs₁ his₁ h₁
        refine ⟨s', chains', ?_, hs', ⟨hfresh.trans hfresh₁, hlength.trans hlength₁,
          hcap.trans hcap₁⟩, ?_, ?_⟩
        · rw [rehashAll, if_neg hzero, hrun₁, Option.bind_some, hrun]
        · rw [hcap₁] at hperm
          refine hperm.trans ((List.Perm.append_left _ hperm₁).trans ?_)
          rw [List.append_assoc]
          exact List.perm_append_comm_assoc _ _ _
        · intro a ha
          rw [List.map_append, List.mem_append, not_or] at ha
          rw [hframe a ha.2, hframe₁ a ha.1]

/-- Into a new table with room for at least one slot. -/
theorem reserve_spec {s : UHashMap β} {chains : Nat → List (Cell β)} {m : Bytes → Option β}
    (h : Represents s chains m) {n : Nat} (hn : 0 < mallocNum (getNextPrimeNumber n)) :
    ∃ s' chains', reserve s n = some s' ∧ Represents s' chains' m ∧ s'.length = s.length ∧
      (s'.capacity = s.capacity ∨ s'.capacity = mallocNum (getNextPrimeNumber n)) := by
  by_cases hsame : getNextPrimeNumber n = s.capacity
  · exact ⟨s, chains, if_pos hsame, h, rfl, Or.inl rfl⟩
  · let s₀ : UHashMap β :=
      { s with table := fun _ => 0, capacity := mallocNum (getNextPrimeNumber n) }
    let bare : Nat → List (Cell β) := fun _ => []
    have hempty : cells s₀.capacity bare = [] := by simp [cells, bare]
    have hs₀ : Shape s₀ bare := by
      refine ⟨hn, h.shape.fresh_pos, fun _ _ => rfl, ?_, ?_, ?_, ?_⟩
      · exact fun _ _ c hc => absurd hc List.not_mem_nil
      · exact fun _ _ c hc => absurd hc List.not_mem_nil
      · rw [hempty]
        exact List.nodup_nil
      · rw [hempty]
        exact List.nodup_nil
    have hwait : Waiting s₀ bare (cells s.capacity chains) := by
      refine ⟨?_, ?_, ?_, ?_⟩
      · intro c hc
        obtain ⟨i, hi, hci⟩ := mem_cells.mp hc
        exact (h.shape.hashed i hi c hci).1
      · intro c hc
        obtain ⟨i, hi, hci⟩ := mem_cells.mp hc
        exact h.shape.below i hi c hci
      · rw [hempty, List.append_nil]
        exact h.shape.addrs
      · rw [hempty, List.append_nil]
        exact h.shape.keys
    have hlinked : ∀ i ∈ List.range s.capacity, Chain (view s₀.heap) (s.table i) (chains i) :=
      fun i hi => h.shape.linked i (List.mem_range.mp hi)
    obtain ⟨s', chains', hrun, hs', ⟨-, hlength, hcap⟩, hperm, -⟩ :=
      rehashAll_spec hs₀ hlinked hwait
    have hcells : (cells s'.capacity chains').Perm (cells s.capacity chains) := by
      rw [hempty, List.append_nil] at hperm
      rw [hcap]
      exact hperm
    refine ⟨s', chains', ?_, ⟨hs', h.holds.perm hcells.symm, ?_, ?_⟩, hlength, Or.inr hcap⟩
    · rw [reserve, if_neg hsame, hrun]
    · rw [hcells.length_eq, hlength]
      exact h.length_eq
    · rw [hlength]
      exact h.length_lt

/-- In a table without slots no node can be put. -/
theorem rehashAll_none {oldTable : Nat → Nat} {is : List Nat} {s s' : UHashMap β}
    (hcap : s.capacity = 0) (h : rehashAll oldTable is s = some s') : s' = s := by
  induction is with
  | nil => exact (Option.some.inj h).symm
  | cons i is ih =>
      by_cases hzero : oldTable i = 0
      · rw [rehashAll, if_pos hzero] at h
        exact ih h
      · obtain ⟨k, hk⟩ := Nat.exists_eq_succ_of_ne_zero hzero
        rw [rehashAll, if_neg hzero, hk] at h
        cases hfresh : s.fresh with
        | zero =>
            rw [hfresh] at h
            exact absurd h (by simp [rehashChain])
        | succ n =>
            rw [hfresh, rehashChain, if_pos hcap] at h
            exact absurd h (by simp)

theorem reserve_none {s s' : UHashMap β} {n : Nat} (hne : getNextPrimeNumber n ≠ s.capacity)
    (hn : mallocNum (getNextPrimeNumber n) = 0) (h : reserve s n = some s') : s'.capacity = 0 := by
  rw [reserve, if_neg hne] at h
  rw [rehashAll_none hn h]
  exact hn

end ULib.HashMapRehash
