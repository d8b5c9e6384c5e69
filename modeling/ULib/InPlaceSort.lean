import Mathlib.Data.List.Range
import Mathlib.Data.List.Nodup
import Mathlib.Data.List.Perm.Basic
import Mathlib.Logic.Equiv.Basic
import Mathlib.Tactic.Common

/-!
Sorting a section of an array in place: the exchange of elements and of blocks,
and insertion sort.
-/

namespace ULib.InPlaceSort

variable {α : Type*}

/-- The array after two elements changed places. -/
def swap2 (a : Nat → α) (i j : Nat) : Nat → α := fun k =>
  if k = i then a j else if k = j then a i else a k

/-- The array after two blocks of `n` elements changed places. -/
def vecswap2 (a : Nat → α) (i j : Nat) : Nat → Nat → α
  | 0 => a
  | n + 1 => vecswap2 (swap2 a i j) (i + 1) (j + 1) n

/-! ### Other orders of a section -/

/-- The elements of `a` in another order, where only the `n` from `lo` on have
moved. -/
def Rearranged (lo n : Nat) (a b : Nat → α) : Prop :=
  ∃ σ : Equiv.Perm Nat, (∀ k, k < lo ∨ lo + n ≤ k → σ k = k) ∧ b = a ∘ σ

/-- The section is in order. -/
def SortedOn (le : α → α → Prop) (lo n : Nat) (a : Nat → α) : Prop :=
  ∀ i j, lo ≤ i → i ≤ j → j < lo + n → le (a i) (a j)

variable {lo n : Nat} {a b c : Nat → α}

theorem SortedOn.congr {le : α → α → Prop} (h : SortedOn le lo n a)
    (heq : ∀ i, lo ≤ i → i < lo + n → b i = a i) : SortedOn le lo n b := by
  intro i j hi hij hj
  rw [heq i hi (by omega), heq j (by omega) hj]
  exact h i j hi hij hj

theorem Rearranged.refl (lo n : Nat) (a : Nat → α) : Rearranged lo n a a :=
  ⟨Equiv.refl Nat, fun _ _ => rfl, rfl⟩

theorem Rearranged.trans (h : Rearranged lo n a b) (h' : Rearranged lo n b c) :
    Rearranged lo n a c := by
  obtain ⟨σ, hσ, rfl⟩ := h
  obtain ⟨τ, hτ, rfl⟩ := h'
  refine ⟨τ.trans σ, fun k hk => ?_, rfl⟩
  rw [Equiv.trans_apply, hτ k hk, hσ k hk]

theorem Rearranged.mono (h : Rearranged lo n a b) {lo' n' : Nat} (hlo : lo' ≤ lo)
    (hn : lo + n ≤ lo' + n') : Rearranged lo' n' a b := by
  obtain ⟨σ, hσ, rfl⟩ := h
  exact ⟨σ, fun k hk => hσ k (by omega), rfl⟩

theorem Rearranged.frame (h : Rearranged lo n a b) {k : Nat} (hk : k < lo ∨ lo + n ≤ k) :
    b k = a k := by
  obtain ⟨σ, hσ, rfl⟩ := h
  exact congrArg a (hσ k hk)

theorem Rearranged.range {σ : Equiv.Perm Nat} (h : ∀ k, k < lo ∨ lo + n ≤ k → σ k = k) {k : Nat}
    (hk : lo ≤ k ∧ k < lo + n) : lo ≤ σ k ∧ σ k < lo + n := by
  by_contra hout
  have hfix := σ.injective (h (σ k) (by omega))
  omega

/-- An element of the section comes from the section. -/
theorem Rearranged.exists_eq (h : Rearranged lo n a b) {k : Nat} (hk : lo ≤ k ∧ k < lo + n) :
    ∃ k', (lo ≤ k' ∧ k' < lo + n) ∧ b k = a k' := by
  obtain ⟨σ, hσ, rfl⟩ := h
  exact ⟨σ k, range hσ hk, rfl⟩

/-- Another section stays in order. -/
theorem Rearranged.sortedOn (h : Rearranged lo n a b) {le : α → α → Prop} {lo' n' : Nat}
    (hsorted : SortedOn le lo' n' a) (hapart : lo' + n' ≤ lo ∨ lo + n ≤ lo') :
    SortedOn le lo' n' b :=
  hsorted.congr fun _ _ _ => h.frame (by omega)

/-- What holds of the elements of the section still does. -/
theorem Rearranged.forall (h : Rearranged lo n a b) {P : α → Prop}
    (hP : ∀ k, lo ≤ k → k < lo + n → P (a k)) : ∀ k, lo ≤ k → k < lo + n → P (b k) := by
  intro k hlo hn
  obtain ⟨k', hk', heq⟩ := h.exists_eq ⟨hlo, hn⟩
  rw [heq]
  exact hP k' hk'.1 hk'.2

theorem Rearranged.perm (h : Rearranged lo n a b) :
    ((List.range' lo n).map b).Perm ((List.range' lo n).map a) := by
  obtain ⟨σ, hσ, rfl⟩ := h
  rw [← List.map_map]
  refine List.Perm.map a ((List.perm_ext_iff_of_nodup ?_ (List.nodup_range' ..)).mpr ?_)
  · exact List.Nodup.map σ.injective (List.nodup_range' ..)
  · intro k
    rw [List.mem_map]
    constructor
    · rintro ⟨i, hi, rfl⟩
      rw [List.mem_range'_1] at hi ⊢
      exact range hσ hi
    · intro hk
      rw [List.mem_range'_1] at hk
      refine ⟨σ.symm k, ?_, σ.apply_symm_apply k⟩
      rw [List.mem_range'_1]
      refine range (fun i hi => ?_) hk
      rw [Equiv.symm_apply_eq, hσ i hi]

theorem swap2_eq (a : Nat → α) (i j : Nat) : swap2 a i j = a ∘ Equiv.swap i j := by
  funext k
  rw [swap2, Function.comp_apply, Equiv.swap_apply_def]
  split
  · rfl
  · split <;> rfl

theorem swap2_rearranged (a : Nat → α) {i j : Nat} (hi : lo ≤ i ∧ i < lo + n)
    (hj : lo ≤ j ∧ j < lo + n) : Rearranged lo n a (swap2 a i j) := by
  refine ⟨Equiv.swap i j, fun k hk => ?_, swap2_eq a i j⟩
  exact Equiv.swap_apply_of_ne_of_ne (by omega) (by omega)

theorem vecswap2_rearranged {i j r : Nat} (hi : lo ≤ i ∧ i + r ≤ lo + n)
    (hj : lo ≤ j ∧ j + r ≤ lo + n) : Rearranged lo n a (vecswap2 a i j r) := by
  induction r generalizing a i j with
  | zero => exact .refl lo n a
  | succ r ih =>
      exact (swap2_rearranged a (by omega) (by omega)).trans (ih (by omega) (by omega))

theorem vecswap2_apply (a : Nat → α) {i j r : Nat} (hij : i + r ≤ j) (k : Nat) :
    vecswap2 a i j r k = if i ≤ k ∧ k < i + r then a (k + j - i)
      else if j ≤ k ∧ k < j + r then a (k + i - j) else a k := by
  induction r generalizing a i j with
  | zero => rw [vecswap2, if_neg (by omega), if_neg (by omega)]
  | succ r ih =>
      rw [vecswap2, ih (swap2 a i j) (by omega)]
      unfold swap2
      grind

/-! ### Insertion sort -/

/-- Total and transitive on the elements with `S`. -/
structure OrderOn (S : α → Prop) (le : α → α → Prop) : Prop where
  total : ∀ x y, S x → S y → le x y ∨ le y x
  trans : ∀ x y z, S x → S y → S z → le x y → le y z → le x z

/-- The element at `lo + k` moves down among the `k` before it. -/
def sink (le : α → α → Bool) (lo : Nat) : Nat → (Nat → α) → Nat → α
  | 0, a => a
  | k + 1, a =>
      if le (a (lo + k)) (a (lo + (k + 1))) then a
      else sink le lo k (swap2 a (lo + (k + 1)) (lo + k))

/-- Insertion sort of the `n` elements from `lo` on. -/
def inssort (le : α → α → Bool) (lo n : Nat) (a : Nat → α) : Nat → α :=
  (List.range (n - 1)).foldl (fun a i => sink le lo (i + 1) a) a

variable {S : α → Prop} {r : α → α → Prop} {le : α → α → Bool}

theorem sink_rearranged (le : α → α → Bool) (lo k : Nat) (a : Nat → α) :
    Rearranged lo (k + 1) a (sink le lo k a) := by
  induction k generalizing a with
  | zero => exact .refl lo 1 a
  | succ k ih =>
      unfold sink
      split
      · exact .refl lo _ a
      · exact (swap2_rearranged a (by omega) (by omega)).trans
          ((ih _).mono (le_refl lo) (by omega))

theorem sink_sorted (hr : OrderOn S r) (hle : ∀ x y, S x → S y → (le x y = true ↔ r x y)) {k : Nat}
    (hS : ∀ i, lo ≤ i → i < lo + (k + 1) → S (a i)) (hsorted : SortedOn r lo k a) :
    SortedOn r lo (k + 1) (sink le lo k a) := by
  induction k generalizing a with
  | zero =>
      intro i j hi hij hj
      obtain rfl : i = j := by omega
      exact (or_self_iff.mp (hr.total _ _ (hS i hi (by omega)) (hS i hi (by omega))))
  | succ k ih =>
      have hlast := hS (lo + (k + 1)) (by omega) (by omega)
      have hprev := hS (lo + k) (by omega) (by omega)
      unfold sink
      split
      · next hstop =>
        -- the element is not less than the one before it
        have hstep := (hle _ _ hprev hlast).mp hstop
        intro i j hi hij hj
        by_cases hjk : j < lo + (k + 1)
        · exact hsorted i j hi hij hjk
        · obtain rfl : j = lo + (k + 1) := by omega
          by_cases hik : i < lo + (k + 1)
          · exact hr.trans _ _ _ (hS i hi (by omega)) hprev hlast
              (hsorted i (lo + k) hi (by omega) (by omega)) hstep
          · obtain rfl : i = lo + (k + 1) := by omega
            exact or_self_iff.mp (hr.total _ _ hlast hlast)
      · next hmove =>
        have hless : r (a (lo + (k + 1))) (a (lo + k)) :=
          (hr.total _ _ hprev hlast).resolve_left fun h => hmove ((hle _ _ hprev hlast).mpr h)
        set a₁ := swap2 a (lo + (k + 1)) (lo + k) with ha₁
        have hbelow : ∀ i, lo ≤ i → i < lo + k → a₁ i = a i := by
          intro i _ hik
          rw [ha₁, swap2, if_neg (by omega), if_neg (by omega)]
        have hx : a₁ (lo + k) = a (lo + (k + 1)) := by
          rw [ha₁, swap2, if_neg (by omega), if_pos rfl]
        have hy : a₁ (lo + (k + 1)) = a (lo + k) := by
          rw [ha₁, swap2, if_pos rfl]
        have hS₁ : ∀ i, lo ≤ i → i < lo + (k + 1) → S (a₁ i) ∧ r (a₁ i) (a (lo + k)) := by
          intro i hi hik
          by_cases hlt : i < lo + k
          · rw [hbelow i hi hlt]
            exact ⟨hS i hi (by omega), hsorted i (lo + k) hi (by omega) (by omega)⟩
          · obtain rfl : i = lo + k := by omega
            rw [hx]
            exact ⟨hlast, hless⟩
        have hsorted₁ : SortedOn r lo k a₁ := by
          intro i j hi hij hj
          rw [hbelow i hi (by omega), hbelow j (by omega) hj]
          exact hsorted i j hi hij (by omega)
        have hrest := ih (fun i hi hik => (hS₁ i hi hik).1) hsorted₁
        have hmoved := sink_rearranged le lo k a₁
        have hall := hmoved.forall (P := fun x => S x ∧ r x (a (lo + k))) hS₁
        have htop : sink le lo k a₁ (lo + (k + 1)) = a (lo + k) := by
          rw [hmoved.frame (by omega), hy]
        intro i j hi hij hj
        by_cases hjk : j < lo + (k + 1)
        · exact hrest i j hi hij hjk
        · obtain rfl : j = lo + (k + 1) := by omega
          rw [htop]
          by_cases hik : i < lo + (k + 1)
          · exact (hall i hi hik).2
          · obtain rfl : i = lo + (k + 1) := by omega
            rw [htop]
            exact or_self_iff.mp (hr.total _ _ hprev hprev)

theorem inssort_rearranged (le : α → α → Bool) (lo n : Nat) (a : Nat → α) :
    Rearranged lo n a (inssort le lo n a) := by
  have hloop : ∀ k ≤ n - 1,
      Rearranged lo n a ((List.range k).foldl (fun a i => sink le lo (i + 1) a) a) := by
    intro k hk
    induction k with
    | zero => exact .refl lo n a
    | succ k ih =>
        rw [List.range_succ, List.foldl_append]
        exact (ih (by omega)).trans ((sink_rearranged le lo (k + 1) _).mono le_rfl (by omega))
  exact hloop (n - 1) le_rfl

theorem inssort_spec (hr : OrderOn S r) (hle : ∀ x y, S x → S y → (le x y = true ↔ r x y))
    (hS : ∀ i, lo ≤ i → i < lo + n → S (a i)) :
    Rearranged lo n a (inssort le lo n a) ∧ SortedOn r lo n (inssort le lo n a) := by
  have hloop : ∀ m, m < n → let b := (List.range m).foldl (fun a i => sink le lo (i + 1) a) a
      Rearranged lo n a b ∧ SortedOn r lo (m + 1) b := by
    intro m
    induction m with
    | zero =>
        intro _
        refine ⟨.refl lo n a, fun i j hi hij hj => ?_⟩
        obtain rfl : i = j := by omega
        exact or_self_iff.mp (hr.total _ _ (hS i hi (by omega)) (hS i hi (by omega)))
    | succ m ih =>
        intro hm
        obtain ⟨hmoved, hsorted⟩ := ih (by omega)
        simp only [List.range_succ, List.foldl_append, List.foldl_cons, List.foldl_nil]
        refine ⟨hmoved.trans ((sink_rearranged le lo (m + 1) _).mono (le_refl lo) (by omega)), ?_⟩
        exact sink_sorted hr hle (fun i hi hik => hmoved.forall hS i hi (by omega)) hsorted
  rcases n with _ | n
  · exact ⟨.refl lo 0 a, fun i j hi hij hj => by omega⟩
  · exact hloop n (Nat.lt_succ_self n)

end ULib.InPlaceSort
