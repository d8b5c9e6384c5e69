import Mathlib.Data.Nat.Find
import Mathlib.Order.Basic
import Mathlib.Tactic.Common

/-!
Scans of a memory from one position up to another: the first position with a
property, and the functions of the C library that look for one byte.
-/

namespace ULib.MemoryScan

variable {α : Type*} {P Q : Nat → Prop} {s t e r : Nat}

/-- The first position from `s` on and before `e` with the property is `r`, or there is none and
`r` is `e`. -/
structure First (P : Nat → Prop) (s e r : Nat) : Prop where
  le : s ≤ r ∧ r ≤ e
  passed : ∀ q, s ≤ q → q < r → ¬ P q
  stop : r < e → P r

theorem First.unique (h : First P s e r) (h' : First P s e t) : r = t := by
  rcases Nat.lt_trichotomy r t with hlt | heq | hlt
  · exact absurd (h.stop (hlt.trans_le h'.le.2)) (h'.passed r h.le.1 hlt)
  · exact heq
  · exact absurd (h'.stop (hlt.trans_le h.le.2)) (h.passed t h'.le.1 hlt)

theorem first_here (hs : s ≤ e) (h : s < e → P s) : First P s e s :=
  ⟨⟨le_rfl, hs⟩, fun _ hq hlt => absurd hq hlt.not_ge, h⟩

theorem first_end (hs : s ≤ e) (h : ∀ q, s ≤ q → q < e → ¬ P q) : First P s e e :=
  ⟨⟨hs, le_rfl⟩, h, fun hlt => absurd hlt (lt_irrefl e)⟩

/-- A part without the property is passed. -/
theorem First.skip (h : First P t e r) (ht : s ≤ t) (hpass : ∀ q, s ≤ q → q < t → ¬ P q) :
    First P s e r := by
  refine ⟨⟨ht.trans h.le.1, h.le.2⟩, fun q hs hq => ?_, h.stop⟩
  rcases Nat.lt_or_ge q t with hlt | hge
  · exact hpass q hs hlt
  · exact h.passed q hge hq

theorem exists_first (P : Nat → Prop) (hs : s ≤ e) : ∃ r, First P s e r := by
  induction hs using Nat.decreasingInduction with
  | self => exact ⟨e, first_here le_rfl fun h => absurd h (lt_irrefl e)⟩
  | of_succ s hlt ih =>
      by_cases h : P s
      · exact ⟨s, first_here hlt.le fun _ => h⟩
      · obtain ⟨r, hr⟩ := ih
        refine ⟨r, hr.skip (Nat.le_succ s) fun q hq hq' => ?_⟩
        rwa [Nat.le_antisymm (Nat.lt_succ_iff.mp hq') hq]

/-- Of two properties the weaker one comes first. -/
theorem First.le_of_imp (hPQ : ∀ q, s ≤ q → q < e → Q q → P q) (h : First P s e r)
    (h' : First Q s e t) : r ≤ t := by
  by_contra hlt
  have hlt : t < r := not_le.mp hlt
  have hte := hlt.trans_le h.le.2
  exact h.passed t h'.le.1 hlt (hPQ t h'.le.1 hte (h'.stop hte))

/-! ### Looking for one byte -/

section Memory

variable [DecidableEq α] (m : Nat → α) (c : α)

/-- `memchr`, in the `n` places from `s` on -/
def memchr : Nat → Nat → Option Nat
  | _, 0 => none
  | s, n + 1 => if m s = c then some s else memchr (s + 1) n

variable {m c} {n : Nat}

theorem of_memchr_none (h : memchr m c s n = none) : ∀ q, s ≤ q → q < s + n → m q ≠ c := by
  induction n generalizing s with
  | zero => exact fun q hq hlt => absurd hq hlt.not_ge
  | succ n ih =>
      rw [memchr] at h
      split at h
      · cases h
      · next hne =>
        intro q hq hlt
        rcases Nat.eq_or_lt_of_le hq with rfl | hq
        · exact hne
        · exact ih h q hq (by omega)

theorem of_memchr_some (h : memchr m c s n = some r) :
    (s ≤ r ∧ r < s + n) ∧ m r = c ∧ ∀ q, s ≤ q → q < r → m q ≠ c := by
  induction n generalizing s with
  | zero => cases h
  | succ n ih =>
      rw [memchr] at h
      split at h
      · next heq =>
        obtain rfl := Option.some.inj h
        exact ⟨⟨le_rfl, by omega⟩, heq, fun q hq hlt => absurd hq hlt.not_ge⟩
      · next hne =>
        obtain ⟨hle, hr, hpassed⟩ := ih h
        refine ⟨by omega, hr, fun q hq hlt => ?_⟩
        rcases Nat.eq_or_lt_of_le hq with rfl | hq
        · exact hne
        · exact hpassed q hq hlt

end Memory

/-- The first position, in the `n` from `s` on, whose byte is not one of a kind -/
def skip (p : α → Bool) (m : Nat → α) : Nat → Nat → Nat
  | s, 0 => s
  | s, n + 1 => if p (m s) then skip p m (s + 1) n else s

end ULib.MemoryScan
