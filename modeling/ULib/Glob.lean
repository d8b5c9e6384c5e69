import Mathlib.Data.List.Infix
import Mathlib.Tactic.Common

/-!
Masks with wildcards: what a mask matches, and which texts are matched by a mask
that may be continued by the symbols behind it in a memory.
-/

namespace ULib.Glob

section Matching

-- which symbols of a mask are for any text, and what the others are for
variable {μ α : Type*} (isStar : μ → Bool) (fits : μ → α → Bool)

/-- Whether the mask matches the whole text. -/
def glob : List μ → List α → Bool
  | [], s => s.isEmpty
  | m :: mask, s =>
      if isStar m then s.tails.any (glob mask)
      else
        match s with
        | [] => false
        | c :: s => fits m c && glob mask s

end Matching

variable {μ α : Type*} {isStar : μ → Bool} {fits : μ → α → Bool} {m : μ} {mask rest : List μ}
  {c : α} {s t : List α}

theorem glob_nil : glob isStar fits [] s = true ↔ s = [] := by
  rw [glob, List.isEmpty_iff]

theorem glob_star (h : isStar m = true) :
    glob isStar fits (m :: mask) s = true ↔ ∃ t, t <:+ s ∧ glob isStar fits mask t = true := by
  rw [glob.eq_def]
  simp only [h, if_true, List.any_eq_true, List.mem_tails]

theorem glob_cons (h : isStar m = false) :
    glob isStar fits (m :: mask) (c :: s) = (fits m c && glob isStar fits mask s) := by
  rw [glob.eq_def]
  simp only [h, Bool.false_eq_true, if_false]

theorem glob_cons_nil (h : isStar m = false) : glob isStar fits (m :: mask) [] = false := by
  rw [glob.eq_def]
  simp only [h, Bool.false_eq_true, if_false]

/-- Symbols that are no stars take a character each. -/
theorem glob_plain_append (h : ∀ m ∈ mask, isStar m = false)
    (hs : glob isStar fits (mask ++ rest) s = true) :
    mask.length ≤ s.length ∧ glob isStar fits rest (s.drop mask.length) = true := by
  induction mask generalizing s with
  | nil => exact ⟨Nat.zero_le _, hs⟩
  | cons m mask ih =>
      have hm := h m List.mem_cons_self
      rw [List.cons_append] at hs
      cases s with
      | nil =>
          rw [glob_cons_nil hm] at hs
          exact absurd hs Bool.false_ne_true
      | cons c s =>
          rw [glob_cons hm, Bool.and_eq_true] at hs
          obtain ⟨hle, hrest⟩ := ih (fun m hm => h m (List.mem_cons_of_mem _ hm)) hs.2
          exact ⟨Nat.succ_le_succ hle, hrest⟩

theorem glob_mono {fits' : μ → α → Bool} (h : ∀ m c, fits m c = true → fits' m c = true)
    (hs : glob isStar fits mask s = true) : glob isStar fits' mask s = true := by
  induction mask generalizing s with
  | nil => exact hs
  | cons m mask ih =>
      cases hm : isStar m with
      | true =>
          obtain ⟨t, ht, hmask⟩ := (glob_star hm).mp hs
          exact (glob_star hm).mpr ⟨t, ht, ih hmask⟩
      | false =>
          cases s with
          | nil =>
              rw [glob_cons_nil hm] at hs
              exact absurd hs Bool.false_ne_true
          | cons c s =>
              rw [glob_cons hm, Bool.and_eq_true] at hs ⊢
              exact ⟨h m c hs.1, ih hs.2⟩

/-- A mask matches itself. -/
theorem glob_self {fits : μ → μ → Bool} (h : ∀ m, isStar m = false → fits m m = true)
    (mask : List μ) : glob isStar fits mask mask = true := by
  induction mask with
  | nil => rfl
  | cons m mask ih =>
      cases hm : isStar m with
      | true => exact (glob_star hm).mpr ⟨mask, List.suffix_cons m mask, ih⟩
      | false => rw [glob_cons hm, h m hm, ih, Bool.and_self]

/-! ### Masks that go on in memory -/

/-- The first symbols of a memory from a place on -/
def window (memory : Nat → μ) (p : Nat) : Nat → List μ
  | 0 => []
  | k + 1 => memory p :: window memory (p + 1) k

/-- The text is matched by the mask at `p` that ends at `last`, or by a longer one. -/
def Continues (isStar : μ → Bool) (fits : μ → α → Bool) (memory : Nat → μ) (last p : Nat)
    (s : List α) : Prop :=
  ∃ k, last ≤ p + k ∧ glob isStar fits (window memory p k) s = true

variable {memory : Nat → μ} {last p : Nat}

theorem length_window (p k : Nat) : (window memory p k).length = k := by
  induction k generalizing p with
  | zero => rfl
  | succ k ih => rw [window, List.length_cons, ih]

theorem window_add (p j k : Nat) :
    window memory p (j + k) = window memory p j ++ window memory (p + j) k := by
  induction j generalizing p with
  | zero => rw [Nat.zero_add, window, List.nil_append, Nat.add_zero]
  | succ j ih =>
      rw [Nat.add_right_comm, window, ih, window, List.cons_append, Nat.add_right_comm p 1 j,
        Nat.add_assoc p j 1]

theorem mem_window {p k : Nat} {m : μ} (h : m ∈ window memory p k) :
    ∃ i, p ≤ i ∧ i < p + k ∧ memory i = m := by
  induction k generalizing p with
  | zero => exact absurd h List.not_mem_nil
  | succ k ih =>
      rcases List.mem_cons.mp h with rfl | h
      · exact ⟨p, Nat.le_refl p, by omega, rfl⟩
      · obtain ⟨i, hlo, hhi, heq⟩ := ih h
        exact ⟨i, by omega, by omega, heq⟩

theorem continues_cons (h : isStar (memory p) = false) :
    Continues isStar fits memory last p (c :: s) ↔
      fits (memory p) c = true ∧ Continues isStar fits memory last (p + 1) s := by
  constructor
  · rintro ⟨k, hlast, hs⟩
    cases k with
    | zero => cases hs
    | succ k =>
        rw [window, glob_cons h, Bool.and_eq_true] at hs
        exact ⟨hs.1, k, by omega, hs.2⟩
  · rintro ⟨hc, k, hlast, hs⟩
    refine ⟨k + 1, by omega, ?_⟩
    rw [window, glob_cons h, hc, hs, Bool.and_self]

theorem continues_star (h : isStar (memory p) = true) :
    Continues isStar fits memory last p s ↔
      ∃ t, t <:+ s ∧ Continues isStar fits memory last (p + 1) t := by
  constructor
  · rintro ⟨k, hlast, hs⟩
    cases k with
    | zero =>
        obtain rfl := glob_nil.mp hs
        exact ⟨[], List.suffix_refl [], 0, by omega, glob_nil.mpr rfl⟩
    | succ k =>
        obtain ⟨t, ht, hmask⟩ := (glob_star h).mp hs
        exact ⟨t, ht, k, by omega, hmask⟩
  · rintro ⟨t, ht, k, hlast, hmask⟩
    exact ⟨k + 1, by omega, (glob_star h).mpr ⟨t, ht, hmask⟩⟩

/-- A star at the end, or behind it, takes all. -/
theorem continues_last (h : isStar (memory p) = true) (hlast : last ≤ p + 1) :
    Continues isStar fits memory last p s :=
  ⟨1, hlast, (glob_star h).mpr ⟨[], List.nil_suffix, glob_nil.mpr rfl⟩⟩

theorem continues_nil_star (h : isStar (memory p) = true) :
    Continues isStar fits memory last p [] ↔ Continues isStar fits memory last (p + 1) [] := by
  rw [continues_star h]
  constructor
  · rintro ⟨t, ht, hs⟩
    rwa [List.suffix_nil.mp ht] at hs
  · intro hs
    exact ⟨[], List.suffix_refl [], hs⟩

theorem continues_nil_plain (h : isStar (memory p) = false) :
    Continues isStar fits memory last p [] ↔ last ≤ p := by
  constructor
  · rintro ⟨k, hlast, hs⟩
    cases k with
    | zero => exact hlast
    | succ k =>
        rw [window, glob_cons_nil h] at hs
        exact absurd hs Bool.false_ne_true
  · intro hlast
    exact ⟨0, hlast, glob_nil.mpr rfl⟩

/-- Without stars up to `p + j`, the mask takes `j` characters before it goes on there. -/
theorem continues_plain {j : Nat} (hplain : ∀ i, p ≤ i → i < p + j → isStar (memory i) = false)
    (hlast : p + j ≤ last) (hs : Continues isStar fits memory last p s) :
    j ≤ s.length ∧ Continues isStar fits memory last (p + j) (s.drop j) := by
  obtain ⟨k, hk, hs⟩ := hs
  obtain ⟨l, rfl⟩ := Nat.exists_eq_add_of_le (show j ≤ k by omega)
  rw [window_add] at hs
  have hwindow : ∀ m ∈ window memory p j, isStar m = false := by
    intro m hm
    obtain ⟨i, hlo, hhi, rfl⟩ := mem_window hm
    exact hplain i hlo hhi
  obtain ⟨hle, hrest⟩ := glob_plain_append hwindow hs
  rw [length_window] at hle hrest
  exact ⟨hle, l, by omega, hrest⟩

end ULib.Glob
