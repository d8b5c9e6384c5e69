import Mathlib.Data.List.Nodup
import Mathlib.Data.List.Perm.Basic
import Mathlib.Data.Nat.ModEq
import Mathlib.Tactic.Common

/-!
Open addressing with linear probing in a table that never grows. The main
results are about the order in which a probe meets the entries: entries with a
common home slot are met in the order of their insertion, whatever else shares
the table, and a table with as many slots as entries ends up full.
-/

namespace ULib.LinearProbing

variable {α : Type*}

/-- Contents of the slots; only the indices below the table size matter. -/
abbrev Table (α : Type*) := Nat → Option α

/-- The slot after `j`, going round at the end of a table of `n` slots. -/
def next (n j : Nat) : Nat := if j + 1 = n then 0 else j + 1

/-- The first slot from `j` on that is not used, after at most `fuel` probes. -/
def search (used : Nat → Bool) (n : Nat) : Nat → Nat → Option Nat
  | 0, _ => none
  | fuel + 1, j => if used j then search used n fuel (next n j) else some j

/-- Put `x` in the first free slot from its home on. -/
def place (n : Nat) (home : α → Nat) (T : Table α) (x : α) : Option (Table α) :=
  (search (fun j => (T j).isSome) n n (home x)).map fun j => Function.update T j (some x)

/-- The slots in the order in which a probe from `h` visits them. -/
def round (n h : Nat) : List Nat := (List.range n).map fun d => (h + d) % n

theorem next_mod {n j d : Nat} : (next n j + d) % n = (j + (d + 1)) % n := by
  unfold next
  split
  · rw [show j + (d + 1) = 0 + d + n by omega, Nat.add_mod_right]
  · rw [show j + 1 + d = j + (d + 1) by omega]

theorem next_lt {n j : Nat} (hj : j < n) : next n j < n := by
  unfold next
  split <;> omega

theorem search_eq_some {used : Nat → Bool} {n fuel h j : Nat} (hh : h < n) :
    search used n fuel h = some j →
      ∃ d < fuel, j = (h + d) % n ∧ used j = false ∧ ∀ d' < d, used ((h + d') % n) = true := by
  induction fuel generalizing h with
  | zero => simp [search]
  | succ fuel ih =>
      intro hs
      rw [search] at hs
      split at hs
      · next hused =>
        obtain ⟨d, hd, hj, hfree, hall⟩ := ih (next_lt hh) hs
        refine ⟨d + 1, by omega, by rw [hj, next_mod], hfree, ?_⟩
        intro d' hd'
        rcases d' with _ | d'
        · simpa [Nat.mod_eq_of_lt hh] using hused
        · rw [← next_mod]
          exact hall d' (by omega)
      · next hused =>
        cases hs
        exact ⟨0, by omega, by simp [Nat.mod_eq_of_lt hh], by simpa using hused, by simp⟩

theorem search_eq_none {used : Nat → Bool} {n fuel h : Nat} (hh : h < n) :
    search used n fuel h = none ↔ ∀ d < fuel, used ((h + d) % n) = true := by
  induction fuel generalizing h with
  | zero => simp [search]
  | succ fuel ih =>
      rw [search]
      have hzero : (h + 0) % n = h := by simp [Nat.mod_eq_of_lt hh]
      split
      · next hused =>
        rw [ih (next_lt hh)]
        constructor
        · intro hall d hd
          rcases d with _ | d
          · rwa [hzero]
          · rw [← next_mod]
            exact hall d (by omega)
        · intro hall d hd
          rw [next_mod]
          exact hall (d + 1) (by omega)
      · next hused =>
        simp only [reduceCtorEq, false_iff, not_forall]
        exact ⟨0, by omega, by rwa [hzero]⟩

theorem search_congr {used used' : Nat → Bool} {n : Nat}
    (heq : ∀ j < n, used j = used' j) (fuel : Nat) {h : Nat} (hh : h < n) :
    search used n fuel h = search used' n fuel h := by
  induction fuel generalizing h with
  | zero => rfl
  | succ fuel ih => simp only [search, heq h hh, ih (next_lt hh)]

theorem round_distance_inj {n h d d' : Nat} (hd : d < n) (hd' : d' < n)
    (heq : (h + d) % n = (h + d') % n) : d = d' := by
  have hmod : Nat.ModEq n d d' := Nat.ModEq.add_left_cancel' h heq
  rwa [Nat.ModEq, Nat.mod_eq_of_lt hd, Nat.mod_eq_of_lt hd'] at hmod

/-- The visits before, at and after the slot at distance `d`. -/
theorem round_split {n h d : Nat} (hd : d < n) :
    round n h = (List.range d).map (fun i => (h + i) % n) ++ (h + d) % n ::
      (List.range (n - d - 1)).map fun i => (h + (d + 1 + i)) % n := by
  have hn : n = d + (1 + (n - d - 1)) := by omega
  unfold round
  conv_lhs => rw [show List.range n = List.range (d + (1 + (n - d - 1))) by rw [← hn]]
  rw [List.range_add, List.map_append, List.range_add]
  simp [Function.comp_def, Nat.add_assoc]

theorem filterMap_update_of_notMem {T : Table α} {j : Nat} {x : α} {l : List Nat}
    (hj : j ∉ l) : l.filterMap (Function.update T j (some x)) = l.filterMap T := by
  apply List.filterMap_congr
  intro i hi
  exact Function.update_of_ne (by rintro rfl; exact hj hi) _ _

theorem perm_filterMap_update {T : Table α} {j : Nat} {x : α} {l : List Nat}
    (hl : l.Nodup) (hj : j ∈ l) (hnone : T j = none) :
    (l.filterMap (Function.update T j (some x))).Perm (x :: l.filterMap T) := by
  obtain ⟨l₁, l₂, rfl⟩ := List.append_of_mem hj
  have hnot := List.nodup_middle.mp hl
  simp only [List.nodup_cons, List.mem_append, not_or] at hnot
  simp only [List.filterMap_append, List.filterMap_cons, hnone, Function.update_self]
  rw [filterMap_update_of_notMem hnot.1.1, filterMap_update_of_notMem hnot.1.2]
  exact List.perm_middle

/-- What placing the entries `xs` in this order has made of the table. -/
structure Filled (n : Nat) (home : α → Nat) (xs : List α) (T : Table α) : Prop where
  /-- No free slot lies between the home of an entry and its slot. -/
  noGap : ∀ j < n, ∀ x, T j = some x → ∃ d < n, j = (home x + d) % n ∧
    ∀ d' < d, (T ((home x + d') % n)).isSome = true
  perm : ((List.range n).filterMap T).Perm xs
  /-- A probe meets the entries of one home in the order of insertion. -/
  order : ∀ h < n, ∀ p : α → Bool, (∀ x ∈ xs, p x = true → home x = h) →
    ((round n h).filterMap T).filter p = xs.filter p

theorem filled_nil (n : Nat) (home : α → Nat) : Filled n home [] fun _ => none where
  noGap := by simp
  perm := by simp
  order := by simp

theorem Filled.mem_of_slot {n : Nat} {home : α → Nat} {xs : List α} {T : Table α}
    (hT : Filled n home xs T) {j : Nat} (hj : j < n) {x : α} (hx : T j = some x) : x ∈ xs :=
  hT.perm.mem_iff.mp (List.mem_filterMap.mpr ⟨j, List.mem_range.mpr hj, hx⟩)

theorem noGap_update {n : Nat} {home : α → Nat} {xs : List α} {T : Table α} {x : α} {d : Nat}
    (hT : Filled n home xs T) (hd : d < n)
    (hused : ∀ d' < d, (T ((home x + d') % n)).isSome = true) :
    ∀ j < n, ∀ y, Function.update T ((home x + d) % n) (some x) j = some y →
      ∃ e < n, j = (home y + e) % n ∧ ∀ d' < e,
        (Function.update T ((home x + d) % n) (some x) ((home y + d') % n)).isSome = true := by
  have hkeep : ∀ i, (T i).isSome = true →
      (Function.update T ((home x + d) % n) (some x) i).isSome = true := by
    intro i hi
    by_cases hij : i = (home x + d) % n
    · simp [hij]
    · simpa [Function.update_of_ne hij] using hi
  intro j hj y hy
  by_cases hjd : j = (home x + d) % n
  · subst hjd
    rw [Function.update_self, Option.some.injEq] at hy
    subst hy
    exact ⟨d, hd, rfl, fun d' hd' => hkeep _ (hused d' hd')⟩
  · rw [Function.update_of_ne hjd] at hy
    obtain ⟨e, he, hje, hall⟩ := hT.noGap j hj y hy
    exact ⟨e, he, hje, fun d' hd' => hkeep _ (hall d' hd')⟩

/-- An entry behind a free slot has its home behind that slot too. -/
theorem filter_behind_free {n : Nat} {home : α → Nat} {xs : List α} {T : Table α} {h d : Nat}
    (hT : Filled n home xs T) (hd : d < n) (hnone : T ((h + d) % n) = none) (p : α → Bool)
    (hp : ∀ y ∈ xs, p y = true → home y = h) :
    (((List.range (n - d - 1)).map fun i => (h + (d + 1 + i)) % n).filterMap T).filter p =
      [] := by
  rw [List.filter_eq_nil_iff]
  intro y hy hpy
  obtain ⟨i, hi, hiy⟩ := List.mem_filterMap.mp hy
  obtain ⟨e, he, rfl⟩ := List.mem_map.mp hi
  have he' := List.mem_range.mp he
  have hlt : (h + (d + 1 + e)) % n < n := Nat.mod_lt _ (by omega)
  have hhy : home y = h := hp y (hT.mem_of_slot hlt hiy) hpy
  obtain ⟨f, hf, hif, hall⟩ := hT.noGap _ hlt y hiy
  rw [hhy] at hif hall
  have hfe := round_distance_inj (by omega) hf hif
  have hsome := hall d (by omega)
  simp [hnone] at hsome

theorem order_update {n : Nat} {home : α → Nat} {xs : List α} {T : Table α} {x : α} {d : Nat}
    (hT : Filled n home xs T) (hd : d < n) (hnone : T ((home x + d) % n) = none)
    {h : Nat} (hh : h < n) (p : α → Bool)
    (hp : ∀ y ∈ xs ++ [x], p y = true → home y = h) :
    ((round n h).filterMap (Function.update T ((home x + d) % n) (some x))).filter p =
      (xs ++ [x]).filter p := by
  have hpxs : ∀ y ∈ xs, p y = true → home y = h := fun y hy => hp y (List.mem_append_left _ hy)
  have hold := hT.order h hh p hpxs
  cases hpx : p x with
  | true =>
      have hhx : home x = h := hp x (by simp) hpx
      subst hhx
      have hnot : ∀ i < n, i ≠ d → (home x + i) % n ≠ (home x + d) % n :=
        fun i hi hne heq => hne (round_distance_inj hi hd heq)
      have hbefore : (home x + d) % n ∉ (List.range d).map fun i => (home x + i) % n := by
        intro hmem
        obtain ⟨i, hi, heq⟩ := List.mem_map.mp hmem
        have hi' := List.mem_range.mp hi
        exact hnot i (by omega) (by omega) heq
      have hafter : (home x + d) % n ∉
          (List.range (n - d - 1)).map fun i => (home x + (d + 1 + i)) % n := by
        intro hmem
        obtain ⟨i, hi, heq⟩ := List.mem_map.mp hmem
        have hi' := List.mem_range.mp hi
        exact hnot (d + 1 + i) (by omega) (by omega) heq
      have hbehind := filter_behind_free hT hd hnone p hpxs
      rw [round_split hd] at hold ⊢
      simp only [List.filterMap_append, List.filterMap_cons, hnone, Function.update_self,
        List.filter_append, hbehind, List.append_nil] at hold ⊢
      rw [filterMap_update_of_notMem hbefore, filterMap_update_of_notMem hafter, hold,
        List.filter_cons_of_pos hpx, hbehind]
      simp [hpx]
  | false =>
      rw [List.filter_append, ← hold]
      simp only [hpx, List.filter_cons_of_neg, Bool.false_eq_true, not_false_iff,
        List.filter_nil, List.append_nil, List.filter_filterMap]
      apply List.filterMap_congr
      intro i _
      by_cases hij : i = (home x + d) % n
      · subst hij
        simp [hnone, hpx, Option.filter]
      · rw [Function.update_of_ne hij]

theorem filled_place {n : Nat} {home : α → Nat} {xs : List α} {T T' : Table α} {x : α}
    (hT : Filled n home xs T) (hhome : home x < n)
    (hplace : place n home T x = some T') : Filled n home (xs ++ [x]) T' := by
  simp only [place, Option.map_eq_some_iff] at hplace
  obtain ⟨j, hsearch, rfl⟩ := hplace
  obtain ⟨d, hd, rfl, hfree, hused⟩ := search_eq_some hhome hsearch
  have hnone : T ((home x + d) % n) = none := by simpa using hfree
  refine ⟨noGap_update hT hd hused, ?_, fun h hh p hp => order_update hT hd hnone hh p hp⟩
  have hmem : (home x + d) % n ∈ List.range n :=
    List.mem_range.mpr (Nat.mod_lt _ (by omega))
  have hperm := perm_filterMap_update (x := x) List.nodup_range hmem hnone
  exact hperm.trans ((hT.perm.cons x).trans (List.perm_append_singleton x xs).symm)

theorem Filled.length_eq {n : Nat} {home : α → Nat} {xs : List α} {T : Table α}
    (hT : Filled n home xs T) : ((List.range n).filterMap T).length = xs.length :=
  hT.perm.length_eq

theorem length_filterMap_of_isSome {T : Table α} {l : List Nat}
    (h : ∀ j ∈ l, (T j).isSome = true) : (l.filterMap T).length = l.length := by
  induction l with
  | nil => rfl
  | cons j l ih =>
      obtain ⟨x, hx⟩ := Option.isSome_iff_exists.mp (h j (by simp))
      rw [List.filterMap_cons, hx]
      simp [ih fun i hi => h i (by simp [hi])]

theorem isSome_of_length_filterMap {T : Table α} {l : List Nat}
    (h : (l.filterMap T).length = l.length) : ∀ j ∈ l, (T j).isSome = true := by
  induction l with
  | nil => simp
  | cons j l ih =>
      have hle := List.length_filterMap_le T l
      cases hj : T j with
      | none =>
          simp only [List.filterMap_cons, hj, List.length_cons] at h
          omega
      | some x =>
          simp only [List.filterMap_cons, hj, List.length_cons, Nat.add_right_cancel_iff] at h
          intro i hi
          rcases List.mem_cons.mp hi with rfl | hi
          · simp [hj]
          · exact ih h i hi

/-- A table with as many slots as entries has no free slot. -/
theorem Filled.full {n : Nat} {home : α → Nat} {xs : List α} {T : Table α}
    (hT : Filled n home xs T) (hn : xs.length = n) : ∀ j < n, (T j).isSome = true := by
  intro j hj
  refine isSome_of_length_filterMap (l := List.range n) ?_ j (List.mem_range.mpr hj)
  rw [hT.length_eq, hn, List.length_range]

theorem Filled.exists_place {n : Nat} {home : α → Nat} {xs : List α} {T : Table α} {x : α}
    (hT : Filled n home xs T) (hhome : home x < n) (hroom : xs.length < n) :
    ∃ T', place n home T x = some T' := by
  cases hs : search (fun j => (T j).isSome) n n (home x) with
  | some j => exact ⟨Function.update T j (some x), by simp [place, hs]⟩
  | none =>
      rw [search_eq_none hhome] at hs
      have hall : ∀ j ∈ List.range n, (T j).isSome = true := by
        intro j hj
        have hj' := List.mem_range.mp hj
        have h := hs ((n - home x + j) % n) (Nat.mod_lt _ (by omega))
        rw [Nat.add_mod_mod, show home x + (n - home x + j) = j + n by omega,
          Nat.add_mod_right, Nat.mod_eq_of_lt hj'] at h
        exact h
      have := length_filterMap_of_isSome hall
      rw [hT.length_eq, List.length_range] at this
      omega

end ULib.LinearProbing
