import Mathlib.Tactic.Common

/-!
Loops whose bodies may be undefined, as a relation between the state before and
the state after: a loop that is not left has no state after.
-/

namespace ULib.Loops

variable {σ : Type*} {cond : σ → Prop} {body : σ → Option σ}

/-- `while (cond) body` leads from one state to the other. -/
inductive While (cond : σ → Prop) (body : σ → Option σ) : σ → σ → Prop
  | done {s : σ} (h : ¬ cond s) : While cond body s s
  | turn {s s' t : σ} (h : cond s) (hbody : body s = some s') (hrest : While cond body s' t) :
      While cond body s t

theorem While.unique {s t t' : σ} (h : While cond body s t) (h' : While cond body s t') :
    t = t' := by
  induction h with
  | done hs =>
      cases h' with
      | done => rfl
      | turn hs' => exact absurd hs' hs
  | turn hs hbody _ ih =>
      cases h' with
      | done hs' => exact absurd hs hs'
      | turn _ hbody' hrest' =>
          obtain rfl := Option.some.inj (hbody.symm.trans hbody')
          exact ih hrest'

/-- A loop whose turns are defined, keep an invariant and make a measure smaller is left, with
the invariant. -/
theorem exists_while {I : σ → Prop} {μ : σ → Nat}
    (hturn : ∀ s, I s → cond s → ∃ s', body s = some s' ∧ I s' ∧ μ s' < μ s) {s : σ} (hs : I s) :
    ∃ t, While cond body s t ∧ I t ∧ ¬ cond t := by
  induction hμ : μ s using Nat.strongRecOn generalizing s with
  | ind k ih =>
      by_cases h : cond s
      · obtain ⟨s', hbody, hs', hlt⟩ := hturn s hs h
        obtain ⟨t, hrest, ht, hleft⟩ := ih (μ s') (hμ ▸ hlt) hs' rfl
        exact ⟨t, .turn h hbody hrest, ht, hleft⟩
      · exact ⟨s, .done h, hs, h⟩

end ULib.Loops
