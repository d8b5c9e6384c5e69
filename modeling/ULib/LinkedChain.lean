import Mathlib.Data.List.Basic
import Mathlib.Logic.Function.Basic
import Mathlib.Tactic.Common

/-!
Singly linked lists in a memory of cells. A cell has a payload and the address
of the next cell; zero is no address.
-/

namespace ULib.LinkedChain

variable {α : Type*}

/-- The cells met from `p` on, with their addresses. -/
def Chain (mem : Nat → Option (α × Nat)) : Nat → List (Nat × α) → Prop
  | p, [] => p = 0
  | p, c :: cs => p = c.1 ∧ c.1 ≠ 0 ∧ ∃ q, mem c.1 = some (c.2, q) ∧ Chain mem q cs

variable {mem mem' : Nat → Option (α × Nat)}

theorem Chain.congr {cs : List (Nat × α)} {p : Nat} (h : Chain mem p cs)
    (hsame : ∀ c ∈ cs, mem' c.1 = mem c.1) : Chain mem' p cs := by
  induction cs generalizing p with
  | nil => exact h
  | cons c cs ih =>
      obtain ⟨hp, hc, q, hq, hrest⟩ := h
      exact ⟨hp, hc, q, (hsame c List.mem_cons_self).trans hq,
        ih hrest fun d hd => hsame d (List.mem_cons_of_mem c hd)⟩

theorem Chain.ne_zero {cs : List (Nat × α)} {p : Nat} (h : Chain mem p cs) :
    ∀ c ∈ cs, c.1 ≠ 0 := by
  induction cs generalizing p with
  | nil => simp
  | cons c cs ih =>
      obtain ⟨-, hc, q, -, hrest⟩ := h
      intro d hd
      rcases List.mem_cons.mp hd with rfl | hd
      · exact hc
      · exact ih hrest d hd

theorem Chain.eq_zero_iff {cs : List (Nat × α)} {p : Nat} (h : Chain mem p cs) :
    p = 0 ↔ cs = [] := by
  cases cs with
  | nil => exact ⟨fun _ => rfl, fun _ => h⟩
  | cons c cs =>
      obtain ⟨rfl, hc, -⟩ := h
      simp [hc]

/-- The cell behind a first part of a chain. -/
theorem Chain.split {xs ys : List (Nat × α)} {c : Nat × α} {p : Nat}
    (h : Chain mem p (xs ++ c :: ys)) :
    ∃ q, mem c.1 = some (c.2, q) ∧ Chain mem q ys := by
  induction xs generalizing p with
  | nil =>
      obtain ⟨-, -, q, hq, hrest⟩ := h
      exact ⟨q, hq, hrest⟩
  | cons x xs ih =>
      obtain ⟨-, -, q, -, hrest⟩ := h
      exact ih hrest

/-- The last cell before `c` is made to lead past it. -/
theorem Chain.unlink {xs ys : List (Nat × α)} {b c : Nat × α} {p q : Nat}
    (h : Chain mem p (xs ++ b :: c :: ys)) (hc : mem c.1 = some (c.2, q))
    (hb : mem' b.1 = some (b.2, q)) (hxs : ∀ d ∈ xs, mem' d.1 = mem d.1)
    (hys : ∀ d ∈ ys, mem' d.1 = mem d.1) : Chain mem' p (xs ++ b :: ys) := by
  induction xs generalizing p with
  | nil =>
      obtain ⟨hp, hb0, q₁, -, -, -, q₂, hq₂, hrest⟩ := h
      obtain rfl : q₂ = q := (Prod.mk.inj (Option.some.inj (hq₂.symm.trans hc))).2
      exact ⟨hp, hb0, q₂, hb, hrest.congr hys⟩
  | cons x xs ih =>
      obtain ⟨hp, hx, q₁, hq₁, hrest⟩ := h
      exact ⟨hp, hx, q₁, (hxs x List.mem_cons_self).trans hq₁,
        ih hrest fun d hd => hxs d (List.mem_cons_of_mem x hd)⟩

/-- The payload of one cell is replaced. -/
theorem Chain.replace {xs ys : List (Nat × α)} {c : Nat × α} {d : α} {p q : Nat}
    (h : Chain mem p (xs ++ c :: ys)) (hc : mem c.1 = some (c.2, q))
    (hd : mem' c.1 = some (d, q)) (hxs : ∀ e ∈ xs, mem' e.1 = mem e.1)
    (hys : ∀ e ∈ ys, mem' e.1 = mem e.1) : Chain mem' p (xs ++ (c.1, d) :: ys) := by
  induction xs generalizing p with
  | nil =>
      obtain ⟨hp, hc0, q₁, hq₁, hrest⟩ := h
      obtain rfl : q₁ = q := (Prod.mk.inj (Option.some.inj (hq₁.symm.trans hc))).2
      exact ⟨hp, hc0, q₁, hd, hrest.congr hys⟩
  | cons x xs ih =>
      obtain ⟨hp, hx, q₁, hq₁, hrest⟩ := h
      exact ⟨hp, hx, q₁, (hxs x List.mem_cons_self).trans hq₁,
        ih hrest fun e he => hxs e (List.mem_cons_of_mem x he)⟩

end ULib.LinkedChain
