import Mathlib.Algebra.Order.Interval.Finset.SuccPred
import Mathlib.Data.Nat.SuccPred
import Mathlib.Order.Interval.Finset.Nat

/-!
Binary heaps in an array whose first entry has the index one. An entry that is
out of place is moved along a path by exchanging it with its neighbour, and the
two orders below say which of the other entries may be relied on meanwhile.
-/

namespace ULib.BinaryHeap

variable {α : Type*} [Preorder α] {f g : Nat → α} {n i j k : Nat}

/-- No entry is smaller than its parent. -/
def Ordered (f : Nat → α) (n : Nat) : Prop := ∀ k, 2 ≤ k → k ≤ n → f (k / 2) ≤ f k

/-- The entry at `i` may be smaller than its parent. -/
structure UpOrder (f : Nat → α) (n i : Nat) : Prop where
  except : ∀ k, 2 ≤ k → k ≤ n → k ≠ i → f (k / 2) ≤ f k
  grand : 2 ≤ i → ∀ k, k / 2 = i → k ≤ n → f (i / 2) ≤ f k

/-- The entry at `j` may be greater than its children. -/
structure DownOrder (f : Nat → α) (n j : Nat) : Prop where
  except : ∀ k, 2 ≤ k → k ≤ n → k / 2 ≠ j → f (k / 2) ≤ f k
  grand : 2 ≤ j → ∀ k, k / 2 = j → k ≤ n → f (j / 2) ≤ f k

/-- The root of a heap is a minimum. -/
theorem Ordered.root_le (h : Ordered f n) (hk : 1 ≤ k) (hkn : k ≤ n) : f 1 ≤ f k := by
  induction k using Nat.strong_induction_on with
  | _ k ih =>
      rcases hk.eq_or_lt with rfl | hlt
      · exact le_rfl
      · have hparent := ih (k / 2) (by omega) (by omega) (by omega)
        exact hparent.trans (h k hlt hkn)

theorem Ordered.congr (h : Ordered f n) (hfg : ∀ k, 1 ≤ k → k ≤ n → f k = g k) : Ordered g n := by
  intro k hk hkn
  rw [← hfg (k / 2) (by omega) (by omega), ← hfg k (by omega) hkn]
  exact h k hk hkn

/-! ### Up -/

theorem UpOrder.ordered (h : UpOrder f n i) (hstop : 2 ≤ i → f (i / 2) ≤ f i) : Ordered f n := by
  intro k hk hkn
  by_cases hki : k = i
  · subst hki
    exact hstop hk
  · exact h.except k hk hkn hki

/-- A new entry at the end may be smaller than its parent. -/
theorem Ordered.upOrder (h : Ordered f n) : UpOrder f (n + 1) (n + 1) where
  except k hk hkn hne := h k hk (by omega)
  grand _ k hki hkn := by omega

theorem UpOrder.swap (h : UpOrder f n i) (hi : 2 ≤ i) (hin : i ≤ n) (hle : f i ≤ f (i / 2)) :
    UpOrder (f ∘ Equiv.swap i (i / 2)) n (i / 2) := by
  have hother : ∀ k, k ≠ i → k ≠ i / 2 → (f ∘ Equiv.swap i (i / 2)) k = f k :=
    fun k hki hkj => congrArg f (Equiv.swap_apply_of_ne_of_ne hki hkj)
  have hleft : (f ∘ Equiv.swap i (i / 2)) i = f (i / 2) := congrArg f (Equiv.swap_apply_left _ _)
  have hright : (f ∘ Equiv.swap i (i / 2)) (i / 2) = f i :=
    congrArg f (Equiv.swap_apply_right _ _)
  constructor
  · intro k hk hkn hkj
    by_cases hki : k = i
    · rw [hki, hleft, hright]
      exact hle
    · rw [hother k hki hkj]
      by_cases hparent : k / 2 = i
      · rw [hparent, hleft]
        exact h.grand hi k hparent hkn
      · by_cases hsibling : k / 2 = i / 2
        · have hk' := h.except k hk hkn hki
          rw [hsibling] at hk' ⊢
          rw [hright]
          exact hle.trans hk'
        · rw [hother _ hparent hsibling]
          exact h.except k hk hkn hki
  · intro hj k hkj hkn
    have hgrand := h.except (i / 2) hj (by omega) (by omega)
    rw [hother (i / 2 / 2) (by omega) (by omega)]
    by_cases hki : k = i
    · rw [hki, hleft]
      exact hgrand
    · have hk' := h.except k (by omega) hkn hki
      rw [hkj] at hk'
      rw [hother k hki (by omega)]
      exact hgrand.trans hk'

/-! ### Down -/

theorem DownOrder.ordered (h : DownOrder f n j) (hstop : ∀ k, k / 2 = j → k ≤ n → f j ≤ f k) :
    Ordered f n := by
  intro k hk hkn
  by_cases hkj : k / 2 = j
  · rw [hkj]
    exact hstop k hkj hkn
  · exact h.except k hk hkn hkj

/-- The last entry may be greater than its children where the root was. -/
theorem Ordered.downOrder (h : Ordered f (n + 1)) (y : α) :
    DownOrder (Function.update f 1 y) n 1 where
  except k hk hkn hne := by
    rw [Function.update_of_ne (by omega), Function.update_of_ne (by omega)]
    exact h k hk (by omega)
  grand hj := by omega

theorem DownOrder.swap (h : DownOrder f n j) (hk : k / 2 = j) (hj : 1 ≤ j) (hkn : k ≤ n)
    (hle : f k ≤ f j) (hmin : ∀ l, l / 2 = j → l ≤ n → f k ≤ f l) :
    DownOrder (f ∘ Equiv.swap j k) n k := by
  have hother : ∀ l, l ≠ j → l ≠ k → (f ∘ Equiv.swap j k) l = f l :=
    fun l hlj hlk => congrArg f (Equiv.swap_apply_of_ne_of_ne hlj hlk)
  have hleft : (f ∘ Equiv.swap j k) j = f k := congrArg f (Equiv.swap_apply_left _ _)
  have hright : (f ∘ Equiv.swap j k) k = f j := congrArg f (Equiv.swap_apply_right _ _)
  constructor
  · intro l hl hln hlk
    by_cases hl_eq : l = k
    · rw [hl_eq, hk, hleft, hright]
      exact hle
    · by_cases hlj : l = j
      · subst hlj
        rw [hleft, hother (l / 2) (by omega) hlk]
        exact h.grand hl k hk hkn
      · rw [hother l hlj hl_eq]
        by_cases hparent : l / 2 = j
        · rw [hparent, hleft]
          exact hmin l hparent hln
        · rw [hother _ hparent hlk]
          exact h.except l hl hln hparent
  · intro hk2 l hlk hln
    have hl := h.except l (by omega) hln (by omega)
    rw [hk, hleft, hother l (by omega) (by omega), ← hlk]
    exact hl

/-! ### The entries -/

/-- All the entries, however often they are there. -/
def entries (f : Nat → α) (n : Nat) : Multiset α := (Finset.Icc 1 n).val.map f

omit [Preorder α] in
theorem entries_succ (f : Nat → α) (n : Nat) :
    entries f (n + 1) = f (n + 1) ::ₘ entries f n := by
  rw [entries, entries, ← Finset.insert_Icc_right_eq_Icc_add_one (by omega),
    Finset.insert_val_of_notMem (by simp), Multiset.map_cons]

omit [Preorder α] in
theorem entries_congr (hfg : ∀ k, 1 ≤ k → k ≤ n → f k = g k) : entries f n = entries g n := by
  refine Multiset.map_congr rfl fun k hk => ?_
  obtain ⟨hk1, hkn⟩ := Finset.mem_Icc.mp (Finset.mem_val.mp hk)
  exact hfg k hk1 hkn

omit [Preorder α] in
theorem entries_swap (f : Nat → α) (hi : 1 ≤ i) (hin : i ≤ n) (hj : 1 ≤ j) (hjn : j ≤ n) :
    entries (f ∘ Equiv.swap i j) n = entries f n := by
  have hmoved : {k | Equiv.swap i j k ≠ k} ⊆ ((Finset.Icc 1 n : Finset Nat) : Set Nat) := by
    intro k hk
    rw [Finset.coe_Icc, Set.mem_Icc]
    by_contra hout
    exact hk (Equiv.swap_apply_of_ne_of_ne (by omega) (by omega))
  have hmap := congrArg Finset.val (Finset.map_perm hmoved)
  rw [Finset.map_val] at hmap
  rw [entries, ← Multiset.map_map]
  exact congrArg (Multiset.map f) hmap

omit [Preorder α] in
theorem mem_entries {y : α} : y ∈ entries f n ↔ ∃ k, (1 ≤ k ∧ k ≤ n) ∧ f k = y := by
  rw [entries, Multiset.mem_map]
  simp only [Finset.mem_val, Finset.mem_Icc]

/-- The root of a heap is a minimum of its entries. -/
theorem Ordered.root_le_entries (h : Ordered f n) {y : α} (hy : y ∈ entries f n) : f 1 ≤ y := by
  obtain ⟨k, ⟨hk, hkn⟩, rfl⟩ := mem_entries.mp hy
  exact h.root_le hk hkn

omit [Preorder α] in
/-- The last entry comes to be where the root was. -/
theorem entries_root (f : Nat → α) (n : Nat) :
    entries f (n + 1) = f 1 ::ₘ entries (Function.update f 1 (f (n + 1))) n := by
  cases n with
  | zero => rfl
  | succ n =>
      have hswap := entries_swap f (i := 1) (j := n + 2) (n := n + 2) (by omega) (by omega)
        (by omega) (by omega)
      rw [← hswap, entries_succ, Function.comp_apply, Equiv.swap_apply_right]
      refine congrArg _ (entries_congr fun k hk hkn => ?_)
      rw [Function.comp_apply, Equiv.swap_apply_def, Function.update_apply]
      split_ifs <;> first | rfl | omega

end ULib.BinaryHeap
