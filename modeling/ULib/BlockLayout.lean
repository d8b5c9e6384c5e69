import Mathlib.Algebra.GroupWithZero.Nat
import Mathlib.Data.List.Basic
import Mathlib.Tactic.Common

/-!
Blocks of given lengths laid down one behind the other.
-/

namespace ULib.BlockLayout

variable {α : Type*} (len : α → Nat)

/-- The blocks with their positions, the first of them at `a`. -/
def placed : Nat → List α → List (Nat × α)
  | _, [] => []
  | a, e :: es => (a, e) :: placed (a + len e) es

/-- The position behind the last block. -/
def endOf : Nat → List α → Nat
  | a, [] => a
  | a, e :: es => endOf (a + len e) es

/-- Blocks that do not meet. -/
def Disjoint (q q' : Nat × α) : Prop := q.1 + len q.2 ≤ q'.1 ∨ q'.1 + len q'.2 ≤ q.1

theorem endOf_append (a : Nat) (es es' : List α) :
    endOf len a (es ++ es') = endOf len (endOf len a es) es' := by
  induction es generalizing a with
  | nil => rfl
  | cons e es ih => exact ih (a + len e)

theorem placed_append (a : Nat) (es es' : List α) :
    placed len a (es ++ es') = placed len a es ++ placed len (endOf len a es) es' := by
  induction es generalizing a with
  | nil => rfl
  | cons e es ih => exact congrArg _ (ih (a + len e))

theorem le_endOf (a : Nat) (es : List α) : a ≤ endOf len a es := by
  induction es generalizing a with
  | nil => exact Nat.le_refl a
  | cons e es ih => exact Nat.le_trans (Nat.le_add_right a (len e)) (ih (a + len e))

theorem endOf_eq_sum (a : Nat) (es : List α) : endOf len a es = a + (es.map len).sum := by
  induction es generalizing a with
  | nil => rfl
  | cons e es ih => rw [endOf, ih, List.map_cons, List.sum_cons, Nat.add_assoc]

@[simp] theorem map_snd_placed (a : Nat) (es : List α) :
    (placed len a es).map Prod.snd = es := by
  induction es generalizing a with
  | nil => rfl
  | cons e es ih => exact congrArg _ (ih (a + len e))

variable {len}

theorem length_le_endOf (hpos : ∀ e, 0 < len e) (a : Nat) (es : List α) :
    a + es.length ≤ endOf len a es := by
  induction es generalizing a with
  | nil => exact Nat.le_refl a
  | cons e es ih =>
      have := ih (a + len e)
      have := hpos e
      rw [List.length_cons, endOf]
      omega

theorem endOf_eq_self_iff (hpos : ∀ e, 0 < len e) (a : Nat) (es : List α) :
    endOf len a es = a ↔ es = [] := by
  have hle := length_le_endOf hpos a es
  constructor
  · intro h
    exact List.length_eq_zero_iff.mp (by omega)
  · rintro rfl
    rfl

theorem placed_bounds {a : Nat} {es : List α} {q : Nat × α} (hq : q ∈ placed len a es) :
    a ≤ q.1 ∧ q.1 + len q.2 ≤ endOf len a es := by
  induction es generalizing a with
  | nil => cases hq
  | cons e es ih =>
      rcases List.mem_cons.mp hq with rfl | hq
      · exact ⟨Nat.le_refl a, le_endOf len (a + len e) es⟩
      · obtain ⟨hlo, hhi⟩ := ih hq
        exact ⟨by omega, hhi⟩

theorem placed_pairwise (a : Nat) (es : List α) :
    (placed len a es).Pairwise fun q q' => q.1 + len q.2 ≤ q'.1 := by
  induction es generalizing a with
  | nil => exact List.Pairwise.nil
  | cons e es ih =>
      refine List.pairwise_cons.mpr ⟨?_, ih (a + len e)⟩
      intro q hq
      exact (placed_bounds hq).1

/-- Blocks replaced by blocks of the same lengths stay where they are. -/
theorem placed_map {f : Nat × α → α} (hf : ∀ q, len (f q) = len q.2) (a : Nat) (es : List α) :
    placed len a ((placed len a es).map f) = (placed len a es).map (fun q => (q.1, f q)) ∧
      endOf len a ((placed len a es).map f) = endOf len a es := by
  induction es generalizing a with
  | nil => exact ⟨rfl, rfl⟩
  | cons e es ih =>
      simp only [placed, List.map_cons, endOf, hf (a, e)]
      exact ⟨congrArg _ (ih (a + len e)).1, (ih (a + len e)).2⟩

end ULib.BlockLayout
