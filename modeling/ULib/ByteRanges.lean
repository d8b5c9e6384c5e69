import Mathlib.Algebra.BigOperators.Group.List.Basic
import Mathlib.Algebra.GroupWithZero.Nat
import Mathlib.Data.Set.Lattice
import Mathlib.Order.CompletePartialOrder
import Mathlib.Order.Interval.Set.Basic
import Mathlib.Tactic.Common

/-!
Ranges of addresses, each with its length. How often a list of ranges covers an
address says everything about them: the ranges are apart where no address is
covered twice, and to cut a range, to move it from one list to another, or to
give it up is a matter of sums.
-/

namespace ULib.ByteRanges

/-- How often a range covers an address. -/
def covers (r : Nat × Nat) (x : Nat) : Nat := if r.1 ≤ x ∧ x < r.1 + r.2 then 1 else 0

def cover (rs : List (Nat × Nat)) (x : Nat) : Nat := (rs.map (covers · x)).sum

def bytes (r : Nat × Nat) : Set Nat := Set.Ico r.1 (r.1 + r.2)

/-- No two of the ranges have an address in common. -/
def Apart (rs : List (Nat × Nat)) : Prop := rs.Pairwise fun r r' => Disjoint (bytes r) (bytes r')

/-- The addresses are all in a memory, which is itself a list of ranges. -/
def Within (rs memory : List (Nat × Nat)) : Prop := ∀ r ∈ rs, bytes r ⊆ ⋃ m ∈ memory, bytes m

variable {r r' : Nat × Nat} {rs rs' memory : List (Nat × Nat)} {a m n w x : Nat}

/-! ### Sums -/

@[simp] theorem cover_nil : cover [] x = 0 := rfl

@[simp] theorem cover_cons : cover (r :: rs) x = covers r x + cover rs x := rfl

@[simp] theorem cover_append : cover (rs ++ rs') x = cover rs x + cover rs' x := by
  rw [cover, cover, cover, List.map_append, List.sum_append]

theorem cover_eraseIdx {i : Nat} (hi : i < rs.length) :
    cover (rs.eraseIdx i) x + covers rs[i] x = cover rs x := by
  have hsplit : rs = rs.take i ++ rs[i] :: rs.drop (i + 1) := by
    rw [List.getElem_cons_drop, List.take_append_drop]
  have hcover := congrArg (cover · x) hsplit
  simp only [cover_append, cover_cons] at hcover
  rw [List.eraseIdx_eq_take_drop_succ, cover_append]
  omega

@[simp] theorem covers_zero : covers (a, 0) x = 0 := by
  rw [covers, if_neg]
  rintro ⟨h, h'⟩
  dsimp only at h h'
  omega

theorem covers_add : covers (a, m + n) x = covers (a, m) x + covers (a + m, n) x := by
  simp only [covers]
  split_ifs <;> omega

theorem covers_mono (h : m ≤ n) : covers (a, m) x ≤ covers (a, n) x := by
  rw [← Nat.add_sub_cancel' h, covers_add]
  exact Nat.le_add_right _ _

@[simp] theorem cover_reverse : cover rs.reverse x = cover rs x := by
  rw [cover, cover, List.map_reverse, List.sum_reverse]

/-- Pieces of one width, laid one behind the other. -/
theorem cover_pieces (n : Nat) :
    cover ((List.range n).map fun k => (a + k * w, w)) x = covers (a, n * w) x := by
  induction n with
  | zero => rw [Nat.zero_mul, covers_zero]; rfl
  | succ n ih =>
      rw [List.range_succ, List.map_append, cover_append, ih, Nat.succ_mul, covers_add]
      rfl

/-- Pieces of given lengths, laid one behind the other. -/
def laid : Nat → List Nat → List (Nat × Nat)
  | _, [] => []
  | a, n :: ns => (a, n) :: laid (a + n) ns

theorem cover_laid (ns : List Nat) : cover (laid a ns) x = covers (a, ns.sum) x := by
  induction ns generalizing a with
  | nil => exact covers_zero.symm
  | cons n ns ih => rw [laid, cover_cons, ih, List.sum_cons, covers_add]

theorem laid_add (ns : List Nat) : laid (a + m) ns = (laid m ns).map fun r => (a + r.1, r.2) := by
  induction ns generalizing m with
  | nil => rfl
  | cons n ns ih => rw [laid, laid, List.map_cons, ← ih, Nat.add_assoc]

/-! ### What the sums say -/

theorem covers_eq_one_iff : covers r x = 1 ↔ x ∈ bytes r := by
  rw [covers, bytes]
  by_cases h : r.1 ≤ x ∧ x < r.1 + r.2
  · rw [if_pos h]
    exact iff_of_true rfl h
  · rw [if_neg h]
    exact iff_of_false Nat.zero_ne_one h

theorem covers_pos_iff : 0 < covers r x ↔ x ∈ bytes r := by
  rw [← covers_eq_one_iff, covers]
  split_ifs <;> decide

theorem cover_pos_iff : 0 < cover rs x ↔ ∃ r ∈ rs, x ∈ bytes r := by
  induction rs with
  | nil => simp
  | cons r rs ih =>
      rw [cover_cons, List.exists_mem_cons_iff, ← ih, ← covers_pos_iff]
      omega

theorem apart_iff : Apart rs ↔ ∀ x, cover rs x ≤ 1 := by
  induction rs with
  | nil => exact iff_of_true .nil fun _ => Nat.zero_le 1
  | cons r rs ih =>
      rw [Apart, List.pairwise_cons]
      constructor
      · rintro ⟨hr, hrs⟩ x
        have hle := ih.mp hrs x
        rw [cover_cons]
        by_cases hx : x ∈ bytes r
        · have hnone : ¬0 < cover rs x := fun hpos => by
            obtain ⟨r', hr', hx'⟩ := cover_pos_iff.mp hpos
            exact Set.disjoint_left.mp (hr r' hr') hx hx'
          rw [covers_eq_one_iff.mpr hx]
          omega
        · have hzero : ¬0 < covers r x := fun hpos => hx (covers_pos_iff.mp hpos)
          omega
      · intro h
        refine ⟨fun r' hr' => Set.disjoint_left.mpr fun x hx hx' => ?_, ih.mpr fun x => ?_⟩
        · have hle := h x
          rw [cover_cons, covers_eq_one_iff.mpr hx] at hle
          have := cover_pos_iff.mpr ⟨r', hr', hx'⟩
          omega
        · exact (Nat.le_add_left _ _).trans (h x)

theorem within_of_cover_le (h : ∀ x, cover rs x ≤ cover memory x) : Within rs memory := by
  intro r hr x hx
  have hpos := cover_pos_iff.mpr ⟨r, hr, hx⟩
  obtain ⟨m, hm, hxm⟩ := cover_pos_iff.mp (hpos.trans_le (h x))
  exact Set.mem_biUnion hm hxm

end ULib.ByteRanges
