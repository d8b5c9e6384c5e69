import Mathlib.Data.List.Nodup
import Mathlib.Logic.Function.Basic
import Mathlib.Tactic.Common

/-!
Search trees whose nodes live in a heap. A search is driven by a comparison of
the value at a node with something fixed, so that nothing is assumed about the
order: an entry that was put where a search ended is found by the same search,
and a search for something else takes the same way as before.
-/

namespace ULib.HeapTree

variable {β : Type*}

/-- A tree with the address of every node. -/
inductive Tree (β : Type*) where
  | leaf
  | node (l : Tree β) (n : Nat) (v : β) (r : Tree β)

structure Node (β : Type*) where
  val : β
  left : Nat
  right : Nat

abbrev Heap (β : Type*) := Nat → Option (Node β)

/-- The places that hold the address of a node. -/
inductive Cell where
  | root
  | left (n : Nat)
  | right (n : Nat)
  deriving DecidableEq

namespace Tree

def root : Tree β → Nat
  | leaf => 0
  | node _ n _ _ => n

/-- The entries, those of both subtrees before the one of their node. -/
def entries : Tree β → List (Nat × β)
  | leaf => []
  | node l n v r => l.entries ++ (r.entries ++ [(n, v)])

def addresses (t : Tree β) : List Nat := t.entries.map Prod.fst

def find (cmp : β → Ordering) : Tree β → Option (Nat × β)
  | leaf => none
  | node l n v r =>
      match cmp v with
      | .lt => l.find cmp
      | .eq => some (n, v)
      | .gt => r.find cmp

/-- The cell at which a search that starts at the cell `c` ends. -/
def stop (cmp : β → Ordering) : Cell → Tree β → Cell
  | c, leaf => c
  | c, node l n v r =>
      match cmp v with
      | .lt => l.stop cmp (.left n)
      | .eq => c
      | .gt => r.stop cmp (.right n)

/-- Give the entry that the search finds the value `v₀`, or put a node with
this value at the address `n₀` where the search ends. -/
def put (cmp : β → Ordering) (n₀ : Nat) (v₀ : β) : Tree β → Tree β
  | leaf => node leaf n₀ v₀ leaf
  | node l n v r =>
      match cmp v with
      | .lt => node (l.put cmp n₀ v₀) n v r
      | .eq => node l n v₀ r
      | .gt => node l n v (r.put cmp n₀ v₀)

/-- The address at which `put` leaves the value. -/
def place (cmp : β → Ordering) (n₀ : Nat) (t : Tree β) : Nat :=
  match t.find cmp with
  | none => n₀
  | some e => e.1

@[simp] theorem addresses_leaf : (leaf : Tree β).addresses = [] := rfl

@[simp] theorem addresses_node (l : Tree β) (n : Nat) (v : β) (r : Tree β) :
    (node l n v r).addresses = l.addresses ++ (r.addresses ++ [n]) := by
  simp [addresses, entries]

theorem find_mem {cmp : β → Ordering} {t : Tree β} {e : Nat × β} (h : t.find cmp = some e) :
    e ∈ t.entries ∧ cmp e.2 = .eq := by
  induction t with
  | leaf => simp [find] at h
  | node l n v r ihl ihr =>
      rw [find] at h
      simp only [entries, List.mem_append, List.mem_singleton]
      split at h
      · exact ⟨.inl (ihl h).1, (ihl h).2⟩
      · next heq =>
        obtain rfl := Option.some.inj h
        exact ⟨.inr (.inr rfl), heq⟩
      · exact ⟨.inr (.inl (ihr h).1), (ihr h).2⟩

/-! ### Searching after a change -/

theorem find_put_same {cmp : β → Ordering} (n₀ : Nat) {v₀ : β} (heq : cmp v₀ = .eq)
    (t : Tree β) : (t.put cmp n₀ v₀).find cmp = some (t.place cmp n₀, v₀) := by
  induction t with
  | leaf => simp [put, find, place, heq]
  | node l n v r ihl ihr =>
      rw [put]
      cases hv : cmp v with
      | lt =>
          simp only [find, hv]
          rw [ihl]
          simp [place, find, hv]
      | eq => simp [find, place, heq, hv]
      | gt =>
          simp only [find, hv]
          rw [ihr]
          simp [place, find, hv]

/-- A search that does not stop at the new value, and goes the same way there
as at the one it replaces, finds what it found. -/
theorem find_put_other {cmp cmp' : β → Ordering} (n₀ : Nat) {v₀ : β} (hne : cmp' v₀ ≠ .eq)
    {t : Tree β} (hsame : ∀ e ∈ t.entries, cmp e.2 = .eq → cmp' e.2 = cmp' v₀) :
    (t.put cmp n₀ v₀).find cmp' = t.find cmp' := by
  induction t with
  | leaf =>
      simp only [put, find]
      split <;> first | rfl | contradiction
  | node l n v r ihl ihr =>
      simp only [entries, List.mem_append, List.mem_singleton] at hsame
      rw [put]
      cases hv : cmp v with
      | lt => simp only [find, ihl fun e he => hsame e (.inl he)]
      | eq =>
          simp only [find, hsame (n, v) (.inr (.inr rfl)) hv]
          split <;> first | rfl | contradiction
      | gt => simp only [find, ihr fun e he => hsame e (.inr (.inl he))]

/-- Only the searches that ended at the same cell end somewhere else. -/
theorem stop_put_other {cmp cmp' : β → Ordering} {n₀ : Nat} {v₀ : β} {c : Cell} {t : Tree β}
    (hnone : t.find cmp = none) (hstop : t.stop cmp' c ≠ t.stop cmp c) :
    (t.put cmp n₀ v₀).stop cmp' c = t.stop cmp' c := by
  induction t generalizing c with
  | leaf => exact absurd rfl hstop
  | node l n v r ihl ihr =>
      rw [put]
      rw [find] at hnone
      simp only [stop] at hstop
      cases hv : cmp v with
      | lt =>
          simp only [hv] at hnone hstop
          simp only [stop]
          cases hv' : cmp' v with
          | lt =>
              simp only [hv'] at hstop
              exact ihl hnone hstop
          | eq => rfl
          | gt => rfl
      | eq => simp [hv] at hnone
      | gt =>
          simp only [hv] at hnone hstop
          simp only [stop]
          cases hv' : cmp' v with
          | lt => rfl
          | eq => rfl
          | gt =>
              simp only [hv'] at hstop
              exact ihr hnone hstop

/-- A new value under the same order moves no search. -/
theorem stop_put_found {cmp cmp' : β → Ordering} {n₀ : Nat} {v₀ : β} {c : Cell} {t : Tree β}
    (hsome : (t.find cmp).isSome = true) (hsame : ∀ e ∈ t.entries, cmp e.2 = .eq →
      cmp' e.2 = cmp' v₀) : (t.put cmp n₀ v₀).stop cmp' c = t.stop cmp' c := by
  induction t generalizing c with
  | leaf => simp [find] at hsome
  | node l n v r ihl ihr =>
      simp only [entries, List.mem_append, List.mem_singleton] at hsame
      rw [find] at hsome
      rw [put]
      cases hv : cmp v with
      | lt =>
          simp only [hv] at hsome
          simp only [stop, ihl hsome fun e he => hsame e (.inl he)]
      | eq => simp only [stop, hsame (n, v) (.inr (.inr rfl)) hv]
      | gt =>
          simp only [hv] at hsome
          simp only [stop, ihr hsome fun e he => hsame e (.inr (.inl he))]

/-- The list of entries changes at one place. -/
theorem entries_put (cmp : β → Ordering) (n₀ : Nat) (v₀ : β) (t : Tree β) :
    ∃ l₁ l₂, t.entries = l₁ ++ ((t.find cmp).toList ++ l₂) ∧
      (t.put cmp n₀ v₀).entries = l₁ ++ (t.place cmp n₀, v₀) :: l₂ := by
  induction t with
  | leaf => exact ⟨[], [], rfl, rfl⟩
  | node l n v r ihl ihr =>
      cases hv : cmp v with
      | lt =>
          obtain ⟨l₁, l₂, hentries, hput⟩ := ihl
          refine ⟨l₁, l₂ ++ (r.entries ++ [(n, v)]), ?_, ?_⟩
          · simp [entries, find, hv, hentries]
          · simp [put, entries, hv, hput, place, find]
      | eq => exact ⟨l.entries ++ r.entries, [], by simp [entries, find, hv],
          by simp [put, entries, hv, place, find]⟩
      | gt =>
          obtain ⟨l₁, l₂, hentries, hput⟩ := ihr
          refine ⟨l.entries ++ l₁, l₂ ++ [(n, v)], ?_, ?_⟩
          · simp [entries, find, hv, hentries]
          · simp [put, entries, hv, hput, place, find]

theorem mem_entries_put {cmp : β → Ordering} {n₀ : Nat} {v₀ : β} {t : Tree β}
    (hnone : t.find cmp = none) {e : Nat × β} :
    e ∈ (t.put cmp n₀ v₀).entries ↔ e = (n₀, v₀) ∨ e ∈ t.entries := by
  obtain ⟨l₁, l₂, hentries, hput⟩ := entries_put cmp n₀ v₀ t
  rw [hentries, hput]
  simp only [hnone, place, Option.toList, List.nil_append, List.mem_append, List.mem_cons]
  tauto
theorem addresses_put_of_none {cmp : β → Ordering} {n₀ : Nat} {v₀ : β} {t : Tree β}
    (hnone : t.find cmp = none) : (t.put cmp n₀ v₀).addresses.Perm (n₀ :: t.addresses) := by
  obtain ⟨l₁, l₂, hentries, hput⟩ := entries_put cmp n₀ v₀ t
  rw [addresses, addresses, hentries, hput]
  simp only [hnone, place, Option.toList, List.map_append, List.map_cons, List.nil_append]
  exact List.perm_middle

theorem addresses_put_of_some {cmp : β → Ordering} {n₀ : Nat} {v₀ : β} {t : Tree β}
    {e : Nat × β} (hsome : t.find cmp = some e) :
    (t.put cmp n₀ v₀).addresses = t.addresses := by
  obtain ⟨l₁, l₂, hentries, hput⟩ := entries_put cmp n₀ v₀ t
  rw [addresses, addresses, hentries, hput]
  simp [hsome, place]

end Tree

open Tree

/-! ### Entries that their keys find -/

section Owned

variable {κ : Type*}

/-- A comparison of keys under which equal keys compare alike. It need not be an
order. -/
structure Congruent (cmp : κ → κ → Ordering) : Prop where
  refl : ∀ k, cmp k k = .eq
  congr : ∀ k j, cmp k j = .eq → cmp k = cmp j

theorem Congruent.symm {cmp : κ → κ → Ordering} (h : Congruent cmp) {k j : κ}
    (heq : cmp k j = .eq) : cmp j k = .eq := by
  rw [← h.congr k j heq]
  exact h.refl k

/-- Every entry is the one that the search for its key finds. -/
def Owned (cmp : κ → κ → Ordering) (key : β → κ) (t : Tree β) : Prop :=
  ∀ e ∈ t.entries, t.find (cmp (key e.2) ∘ key) = some e

variable {cmp : κ → κ → Ordering} {key : β → κ} {t : Tree β}

theorem owned_leaf : Owned cmp key (.leaf : Tree β) := by
  simp [Owned, entries]

theorem Owned.find_iff (ht : Owned cmp key t) (h : Congruent cmp) {k : κ} {e : Nat × β} :
    t.find (cmp k ∘ key) = some e ↔ e ∈ t.entries ∧ cmp k (key e.2) = .eq := by
  constructor
  · exact find_mem
  · rintro ⟨he, heq⟩
    rw [h.congr _ _ heq]
    exact ht e he

theorem Owned.find_none_iff (ht : Owned cmp key t) (h : Congruent cmp) {k : κ} :
    t.find (cmp k ∘ key) = none ↔ ∀ e ∈ t.entries, cmp k (key e.2) ≠ .eq := by
  rw [Option.eq_none_iff_forall_ne_some]
  exact ⟨fun hnone e he heq => hnone e ((ht.find_iff h).mpr ⟨he, heq⟩),
    fun hne e hsome => hne e (find_mem hsome).1 (find_mem hsome).2⟩

/-- A new key changes no search for another key. -/
theorem Owned.find_put_other (ht : Owned cmp key t) (h : Congruent cmp) (n₀ : Nat) {v₀ : β}
    (hnone : t.find (cmp (key v₀) ∘ key) = none) {k : κ} (hne : cmp k (key v₀) ≠ .eq) :
    (t.put (cmp (key v₀) ∘ key) n₀ v₀).find (cmp k ∘ key) = t.find (cmp k ∘ key) :=
  Tree.find_put_other n₀ (show (cmp k ∘ key) v₀ ≠ .eq from hne) fun e he heq =>
    absurd heq ((ht.find_none_iff h).mp hnone e he)

theorem Owned.put (ht : Owned cmp key t) (h : Congruent cmp) (n₀ : Nat) {v₀ : β}
    (hnone : t.find (cmp (key v₀) ∘ key) = none) :
    Owned cmp key (t.put (cmp (key v₀) ∘ key) n₀ v₀) := by
  intro e he
  rcases (mem_entries_put hnone).mp he with rfl | he
  · have hself : (cmp (key v₀) ∘ key) v₀ = .eq := h.refl (key v₀)
    have hsame := find_put_same n₀ hself t
    rwa [place, hnone] at hsame
  · have hne : cmp (key e.2) (key v₀) ≠ .eq := fun heq =>
      (ht.find_none_iff h).mp hnone e he (h.symm heq)
    rw [ht.find_put_other h n₀ hnone hne]
    exact ht e he

end Owned

/-! ### Trees in the heap -/

def Represents (H : Heap β) : Tree β → Prop
  | leaf => True
  | node l n v r => n ≠ 0 ∧ H n = some ⟨v, l.root, r.root⟩ ∧ Represents H l ∧ Represents H r

theorem Represents.congr {H H' : Heap β} {t : Tree β} (h : Represents H t)
    (hagree : ∀ n ∈ t.addresses, H' n = H n) : Represents H' t := by
  induction t with
  | leaf => trivial
  | node l n v r ihl ihr =>
      obtain ⟨hn, hH, hl, hr⟩ := h
      simp only [addresses_node, List.mem_append, List.mem_singleton] at hagree
      exact ⟨hn, by rw [hagree n (.inr (.inr rfl)), hH], ihl hl fun k hk => hagree k (.inl hk),
        ihr hr fun k hk => hagree k (.inr (.inl hk))⟩

theorem Represents.val {H : Heap β} {t : Tree β} (h : Represents H t) {e : Nat × β}
    (he : e ∈ t.entries) : e.1 ≠ 0 ∧ ∃ x, H e.1 = some x ∧ x.val = e.2 := by
  induction t with
  | leaf => simp [entries] at he
  | node l n v r ihl ihr =>
      obtain ⟨hn, hH, hl, hr⟩ := h
      simp only [entries, List.mem_append, List.mem_singleton] at he
      rcases he with he | he | rfl
      · exact ihl hl he
      · exact ihr hr he
      · exact ⟨hn, _, hH, rfl⟩

/-- The subtrees of a node hang at nodes of the same tree. -/
theorem Represents.children {H : Heap β} {t : Tree β} (h : Represents H t) {n : Nat}
    (hn : n ∈ t.addresses) : ∃ x, H n = some x ∧ (x.left = 0 ∨ x.left ∈ t.addresses) ∧
      (x.right = 0 ∨ x.right ∈ t.addresses) := by
  have hroot : ∀ t : Tree β, t.root = 0 ∨ t.root ∈ t.addresses := by
    intro t
    cases t with
    | leaf => exact .inl rfl
    | node l n v r => exact .inr (by simp [root])
  induction t with
  | leaf => simp at hn
  | node l k v r ihl ihr =>
      obtain ⟨-, hH, hl, hr⟩ := h
      simp only [addresses_node, List.mem_append, List.mem_singleton] at hn ⊢
      rcases hn with hn | hn | rfl
      · obtain ⟨x, hx, hxl, hxr⟩ := ihl hl hn
        exact ⟨x, hx, hxl.imp_right .inl, hxr.imp_right .inl⟩
      · obtain ⟨x, hx, hxl, hxr⟩ := ihr hr hn
        exact ⟨x, hx, hxl.imp_right (.inr ∘ .inl), hxr.imp_right (.inr ∘ .inl)⟩
      · exact ⟨_, hH, (hroot l).imp_right .inl, (hroot r).imp_right (.inr ∘ .inl)⟩

/-- Store the address `p` in a cell of the heap. -/
def setCell (H : Heap β) : Cell → Nat → Heap β
  | .root, _ => H
  | .left n, p => Function.update H n ((H n).map fun x => { x with left := p })
  | .right n, p => Function.update H n ((H n).map fun x => { x with right := p })

/-- A new node without subtrees, with its address in the cell `c`. -/
def link (H : Heap β) (c : Cell) (n₀ : Nat) (v₀ : β) : Heap β :=
  Function.update (setCell H c n₀) n₀ (some ⟨v₀, 0, 0⟩)

theorem link_other {H : Heap β} {c : Cell} {n₀ n : Nat} {v₀ : β} (hne : n ≠ n₀)
    (hl : c ≠ .left n) (hr : c ≠ .right n) : link H c n₀ v₀ n = H n := by
  rw [link, Function.update_of_ne hne]
  cases c with
  | root => rfl
  | left k => exact Function.update_of_ne (by rintro rfl; exact hl rfl) _ _
  | right k => exact Function.update_of_ne (by rintro rfl; exact hr rfl) _ _

theorem stop_cases (cmp : β → Ordering) (c : Cell) (t : Tree β) :
    t.stop cmp c = c ∨ ∃ n ∈ t.addresses, t.stop cmp c = .left n ∨ t.stop cmp c = .right n := by
  induction t generalizing c with
  | leaf => exact .inl rfl
  | node l n v r ihl ihr =>
      simp only [stop, addresses_node, List.mem_append, List.mem_singleton]
      cases cmp v with
      | lt =>
          rcases ihl (.left n) with h | ⟨k, hk, h⟩
          · exact .inr ⟨n, .inr (.inr rfl), .inl h⟩
          · exact .inr ⟨k, .inl hk, h⟩
      | eq => exact .inl rfl
      | gt =>
          rcases ihr (.right n) with h | ⟨k, hk, h⟩
          · exact .inr ⟨n, .inr (.inr rfl), .inr h⟩
          · exact .inr ⟨k, .inr (.inl hk), h⟩

/-- A failed search of a tree with nodes ends inside it. -/
theorem stop_ne_of_none {cmp : β → Ordering} {c : Cell} {t : Tree β}
    (hnone : t.find cmp = none) (hne : t.root ≠ 0) (hcell : ∀ n ∈ t.addresses,
      c ≠ .left n ∧ c ≠ .right n) : t.stop cmp c ≠ c := by
  cases t with
  | leaf => exact absurd rfl hne
  | node l n v r =>
      rw [find] at hnone
      simp only [addresses_node, List.mem_append, List.mem_singleton] at hcell
      simp only [stop]
      have hn := hcell n (.inr (.inr rfl))
      cases hv : cmp v with
      | lt =>
          rcases stop_cases cmp (.left n) l with h | ⟨k, hk, h | h⟩
          · rw [h]
            exact hn.1.symm
          · rw [h]
            exact (hcell k (.inl hk)).1.symm
          · rw [h]
            exact (hcell k (.inl hk)).2.symm
      | eq => simp [hv] at hnone
      | gt =>
          rcases stop_cases cmp (.right n) r with h | ⟨k, hk, h | h⟩
          · rw [h]
            exact hn.2.symm
          · rw [h]
            exact (hcell k (.inr (.inl hk))).1.symm
          · rw [h]
            exact (hcell k (.inr (.inl hk))).2.symm

theorem root_put {cmp : β → Ordering} {n₀ : Nat} {v₀ : β} {t : Tree β} (hne : t.root ≠ 0) :
    (t.put cmp n₀ v₀).root = t.root := by
  cases t with
  | leaf => exact absurd rfl hne
  | node l n v r =>
      rw [put]
      split <;> rfl

theorem Represents.root_ne {H : Heap β} {l r : Tree β} {n : Nat} {v : β}
    (h : Represents H (.node l n v r)) : (Tree.node l n v r).root ≠ 0 :=
  h.1

/-- A cell at which a search of `t` from the outside cell `c` ends is no cell
of a node that `t` does not have. -/
theorem stop_outside (cmp : β → Ordering) {c : Cell} {t : Tree β} {k : Nat}
    (hk : k ∉ t.addresses) (hl : c ≠ .left k) (hr : c ≠ .right k) :
    t.stop cmp c ≠ .left k ∧ t.stop cmp c ≠ .right k := by
  rcases stop_cases cmp c t with h | ⟨j, hj, h | h⟩
  · rw [h]
    exact ⟨hl, hr⟩
  · rw [h]
    exact ⟨fun heq => hk (by cases heq; exact hj), by simp⟩
  · rw [h]
    exact ⟨by simp, fun heq => hk (by cases heq; exact hj)⟩

theorem represents_link {H : Heap β} {cmp : β → Ordering} {c : Cell} {n₀ : Nat} {v₀ : β}
    {t : Tree β} (h : Represents H t) (hnodup : t.addresses.Nodup)
    (hnone : t.find cmp = none) (hn₀ : n₀ ≠ 0) (hfresh : n₀ ∉ t.addresses)
    (hcell : ∀ n ∈ t.addresses, c ≠ .left n ∧ c ≠ .right n) :
    Represents (link H (t.stop cmp c) n₀ v₀) (t.put cmp n₀ v₀) := by
  induction t generalizing c with
  | leaf => exact ⟨hn₀, by simp [link, root], trivial, trivial⟩
  | node l n v r ihl ihr =>
      obtain ⟨hn, hH, hl, hr⟩ := h
      rw [find] at hnone
      simp only [addresses_node, List.nodup_append, List.mem_append, List.mem_singleton,
        List.nodup_singleton, not_or] at hnodup hfresh
      obtain ⟨hlnd, ⟨hrnd, -, hrn⟩, hlr⟩ := hnodup
      obtain ⟨hfl, hfr, hfn⟩ := hfresh
      have hnl : n ∉ l.addresses := fun hmem => hlr n hmem n (.inr rfl) rfl
      have hnr : n ∉ r.addresses := fun hmem => hrn n hmem n rfl rfl
      rw [put]
      simp only [stop]
      cases hv : cmp v with
      | lt =>
          simp only [hv] at hnone
          have hcell' : ∀ k ∈ l.addresses, Cell.left n ≠ .left k ∧ Cell.left n ≠ .right k :=
            fun k hk => ⟨fun heq => hnl (by cases heq; exact hk), by simp⟩
          refine ⟨hn, ?_, ihl hl hlnd hnone hfl hcell', hr.congr fun k hk => ?_⟩
          · cases l with
            | leaf =>
                simp only [stop, link, setCell]
                rw [Function.update_of_ne (Ne.symm hfn), Function.update_self, hH]
                rfl
            | node l' n' v' r' =>
                have hne := stop_ne_of_none hnone hl.root_ne hcell'
                rw [link_other (Ne.symm hfn) hne, hH, root_put hl.root_ne]
                rcases stop_cases cmp (.left n) (Tree.node l' n' v' r') with h | ⟨j, hj, h | h⟩
                · exact absurd h hne
                · rw [h]
                  simp
                · rw [h]
                  exact fun heq => hnl (by cases heq; exact hj)
          · have hkn : n ≠ k := fun heq => hnr (heq ▸ hk)
            have hkl : k ∉ l.addresses := fun hmem => hlr k hmem k (.inl hk) rfl
            obtain ⟨h₁, h₂⟩ := stop_outside cmp (c := .left n) hkl
              (fun heq => hkn (by cases heq; rfl)) (by simp)
            exact link_other (fun heq => hfr (heq ▸ hk)) h₁ h₂
      | eq => simp [hv] at hnone
      | gt =>
          simp only [hv] at hnone
          have hcell' : ∀ k ∈ r.addresses, Cell.right n ≠ .left k ∧ Cell.right n ≠ .right k :=
            fun k hk => ⟨by simp, fun heq => hnr (by cases heq; exact hk)⟩
          refine ⟨hn, ?_, hl.congr fun k hk => ?_, ihr hr hrnd hnone hfr hcell'⟩
          · cases r with
            | leaf =>
                simp only [stop, link, setCell]
                rw [Function.update_of_ne (Ne.symm hfn), Function.update_self, hH]
                rfl
            | node l' n' v' r' =>
                have hne := stop_ne_of_none hnone hr.root_ne hcell'
                rw [link_other (Ne.symm hfn) ?_ hne, hH, root_put hr.root_ne]
                rcases stop_cases cmp (.right n) (Tree.node l' n' v' r') with h | ⟨j, hj, h | h⟩
                · exact absurd h hne
                · rw [h]
                  exact fun heq => hnr (by cases heq; exact hj)
                · rw [h]
                  simp
          · have hkn : n ≠ k := fun heq => hnl (heq ▸ hk)
            have hkr : k ∉ r.addresses := fun hmem => hlr k hk k (.inl hmem) rfl
            obtain ⟨h₁, h₂⟩ := stop_outside cmp (c := .right n) hkr
              (by simp) (fun heq => hkn (by cases heq; rfl))
            exact link_other (fun heq => hfl (heq ▸ hk)) h₁ h₂

theorem represents_update {H : Heap β} {cmp : β → Ordering} {n₀ : Nat} {v₀ : β} {t : Tree β}
    (h : Represents H t) (hnodup : t.addresses.Nodup) {e : Nat × β}
    (hsome : t.find cmp = some e) {x : Node β} (hx : H e.1 = some x) :
    Represents (Function.update H e.1 (some { x with val := v₀ })) (t.put cmp n₀ v₀) := by
  induction t with
  | leaf => simp [find] at hsome
  | node l n v r ihl ihr =>
      obtain ⟨hn, hH, hl, hr⟩ := h
      rw [find] at hsome
      simp only [addresses_node, List.nodup_append, List.mem_append, List.mem_singleton,
        List.nodup_singleton] at hnodup
      obtain ⟨hlnd, ⟨hrnd, -, hrn⟩, hlr⟩ := hnodup
      rw [put]
      cases hv : cmp v with
      | lt =>
          simp only [hv] at hsome
          have hmem : e.1 ∈ l.addresses := List.mem_map_of_mem (find_mem hsome).1
          refine ⟨hn, ?_, ihl hl hlnd hsome, hr.congr fun k hk => ?_⟩
          · rw [Function.update_of_ne fun heq => hlr e.1 hmem n (.inr rfl) heq.symm, hH]
            cases l with
            | leaf => simp [find] at hsome
            | node l' n' v' r' => rw [root_put hl.root_ne]
          · exact Function.update_of_ne (fun heq => hlr e.1 hmem k (.inl hk) heq.symm) _ _
      | eq =>
          simp only [hv, Option.some.injEq] at hsome
          subst hsome
          rw [hH, Option.some.injEq] at hx
          subst hx
          refine ⟨hn, by simp, hl.congr fun k hk => ?_, hr.congr fun k hk => ?_⟩
          · exact Function.update_of_ne (fun heq => hlr k hk n (.inr rfl) heq) _ _
          · exact Function.update_of_ne (fun heq => hrn k hk n rfl heq) _ _
      | gt =>
          simp only [hv] at hsome
          have hmem : e.1 ∈ r.addresses := List.mem_map_of_mem (find_mem hsome).1
          refine ⟨hn, ?_, hl.congr fun k hk => ?_, ihr hr hrnd hsome⟩
          · rw [Function.update_of_ne fun heq => hrn e.1 hmem n rfl heq.symm, hH]
            cases r with
            | leaf => simp [find] at hsome
            | node l' n' v' r' => rw [root_put hr.root_ne]
          · exact Function.update_of_ne (fun heq => hlr k hk e.1 (.inl hmem) heq) _ _

end ULib.HeapTree
