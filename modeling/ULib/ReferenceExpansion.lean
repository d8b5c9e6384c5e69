import Mathlib.Tactic.Common

/-!
Texts with references to other texts, and their full expansion: every
reference is replaced by what its value expands to. A text has an expansion
iff no chain of references from it goes on without end or leaves the names that
have a value.
-/

namespace ULib.ReferenceExpansion

variable {α ν : Type*}

inductive Piece (α ν : Type*)
  | text (t : List α)
  | reference (name : ν)
  deriving DecidableEq

/-- The names to which a text refers. -/
def references (ps : List (Piece α ν)) : List ν :=
  ps.filterMap fun
    | .text _ => none
    | .reference name => some name

@[simp] theorem references_nil : references ([] : List (Piece α ν)) = [] := rfl

@[simp] theorem references_text (t : List α) (ps : List (Piece α ν)) :
    references (.text t :: ps) = references ps := rfl

@[simp] theorem references_reference (name : ν) (ps : List (Piece α ν)) :
    references (.reference name :: ps) = name :: references ps := rfl

variable (value : ν → Option (List (Piece α ν)))

/-- The full expansion of a text. -/
inductive Expands : List (Piece α ν) → List α → Prop
  | nil : Expands [] []
  | text {t ps out} (hps : Expands ps out) : Expands (.text t :: ps) (t ++ out)
  | reference {name qs v ps out} (hvalue : value name = some qs) (hv : Expands qs v)
      (hps : Expands ps out) : Expands (.reference name :: ps) (v ++ out)

/-- A name that has a value, as have all names that are reached from it, in finitely many steps. -/
inductive Grounded : ν → Prop
  | intro {name qs} (hvalue : value name = some qs) (hqs : ∀ m ∈ references qs, Grounded m) :
      Grounded name

variable {value}

theorem Expands.unique {ps : List (Piece α ν)} {out out' : List α} (h : Expands value ps out)
    (h' : Expands value ps out') : out = out' := by
  induction h generalizing out' with
  | nil =>
      cases h'
      rfl
  | text _ ih =>
      cases h' with
      | text hps => rw [ih hps]
  | reference hvalue _ _ ihv ih =>
      cases h' with
      | reference hvalue' hv hps =>
          obtain rfl := Option.some.inj (hvalue.symm.trans hvalue')
          rw [ihv hv, ih hps]

/-- More names with a value change no expansion. -/
theorem Expands.mono {value' : ν → Option (List (Piece α ν))}
    (hmono : ∀ name qs, value name = some qs → value' name = some qs) {ps : List (Piece α ν)}
    {out : List α} (h : Expands value ps out) : Expands value' ps out := by
  induction h with
  | nil => exact .nil
  | text _ ih => exact .text ih
  | reference hvalue _ _ ihv ih => exact .reference (hmono _ _ hvalue) ihv ih

/-- The same names, as far as they are reached, with the same values. -/
theorem Grounded.mono_on {value' : ν → Option (List (Piece α ν))} {P : ν → Prop}
    (hmono : ∀ name qs, P name → value name = some qs →
      value' name = some qs ∧ ∀ m ∈ references qs, P m)
    {name : ν} (hname : P name) (h : Grounded value name) : Grounded value' name := by
  induction h with
  | intro hvalue _ ih =>
      obtain ⟨hvalue', hqs⟩ := hmono _ _ hname hvalue
      exact .intro hvalue' fun m hm => ih m hm (hqs m hm)

theorem Expands.grounded {ps : List (Piece α ν)} {out : List α} (h : Expands value ps out) :
    ∀ m ∈ references ps, Grounded value m := by
  induction h with
  | nil => exact nofun
  | text _ ih => exact ih
  | reference hvalue _ _ ihv ih =>
      intro m hm
      rw [references_reference] at hm
      rcases List.mem_cons.mp hm with rfl | hm
      · exact .intro hvalue ihv
      · exact ih m hm

/-- A text has an expansion when the values of its references have. -/
theorem exists_expands_of_values {ps : List (Piece α ν)}
    (h : ∀ m ∈ references ps, ∃ qs v, value m = some qs ∧ Expands value qs v) :
    ∃ out, Expands value ps out := by
  induction ps with
  | nil => exact ⟨[], .nil⟩
  | cons p ps ih =>
      cases p with
      | text t =>
          obtain ⟨out, hout⟩ := ih h
          exact ⟨t ++ out, .text hout⟩
      | reference name =>
          rw [references_reference] at h
          obtain ⟨qs, v, hvalue, hv⟩ := h name List.mem_cons_self
          obtain ⟨out, hout⟩ := ih fun m hm => h m (List.mem_cons_of_mem name hm)
          exact ⟨v ++ out, .reference hvalue hv hout⟩

theorem Grounded.exists_expands {name : ν} (h : Grounded value name) :
    ∃ qs v, value name = some qs ∧ Expands value qs v := by
  induction h with
  | intro hvalue _ ih =>
      obtain ⟨v, hv⟩ := exists_expands_of_values ih
      exact ⟨_, v, hvalue, hv⟩

theorem exists_expands_iff {ps : List (Piece α ν)} :
    (∃ out, Expands value ps out) ↔ ∀ m ∈ references ps, Grounded value m := by
  constructor
  · rintro ⟨out, hout⟩
    exact hout.grounded
  · intro h
    exact exists_expands_of_values fun m hm => (h m hm).exists_expands

/-! ### Values that two agree on -/

variable [DecidableEq α] [DecidableEq ν]

def common (value value' : ν → Option (List (Piece α ν))) (name : ν) :
    Option (List (Piece α ν)) :=
  if value name = value' name then value name else none

theorem common_eq {value value' : ν → Option (List (Piece α ν))} {name : ν}
    {qs : List (Piece α ν)} (h : value name = some qs) (h' : value' name = some qs) :
    common value value' name = some qs := by
  rw [common, h, h', if_pos rfl]

theorem common_left {value value' : ν → Option (List (Piece α ν))} (name : ν)
    (qs : List (Piece α ν)) (h : common value value' name = some qs) : value name = some qs := by
  rw [common] at h
  split_ifs at h
  exact h

theorem common_right {value value' : ν → Option (List (Piece α ν))} (name : ν)
    (qs : List (Piece α ν)) (h : common value value' name = some qs) : value' name = some qs := by
  rw [common] at h
  split_ifs at h with heq
  exact heq ▸ h

end ULib.ReferenceExpansion
