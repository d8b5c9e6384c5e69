import Mathlib.Tactic.Common
import ULib.QueryTree

/-!
`getRawDNF` on the trees of expressions: its cases as rules about expressions,
and what they give together. It gets lost exactly in a NOT of a NOT of a NOT of
a word.
-/

namespace ULib.DisjunctiveNormalForm

open ULib.KeyComparison
open ULib.QueryTree
open ULib.QueryTree.UQueryNode
open ULib.QueryTree.Query

/-! ### More fuel -/

theorem getRawDNF_succ {fuel : Nat} {t r : UQueryNode} (h : getRawDNF fuel t = some r) :
    getRawDNF (fuel + 1) t = some r := by
  induction fuel generalizing t r with
  | zero => cases h
  | succ fuel ih =>
      cases t with
      | null => exact h
      | node t v l₀ r₀ =>
          unfold getRawDNF at h ⊢
          by_cases ht : t = .value
          · rw [if_pos ht] at h ⊢
            exact h
          rw [if_neg ht] at h ⊢
          simp only [Option.bind_eq_bind, Option.bind_eq_some_iff] at h ⊢
          obtain ⟨two, htwo, h⟩ := h
          refine ⟨two, htwo, ?_⟩
          cases two with
          | true => exact h
          | false =>
              simp only [Bool.false_eq_true, if_false, Option.bind_eq_some_iff] at h ⊢
              obtain ⟨l, hl, r, hr, step, hstep, h⟩ := h
              refine ⟨l, ih hl, r, ih hr, step, hstep, ?_⟩
              cases step with
              | done root => exact h
              | again root => exact ih h

theorem getRawDNF_mono {n m : Nat} (hle : n ≤ m) {t r : UQueryNode}
    (h : getRawDNF n t = some r) : getRawDNF m t = some r := by
  induction hle with
  | refl => exact h
  | step _ ih => exact getRawDNF_succ ih

/-! ### The cases as rules -/

/-- `getRawDNF` returns the tree of `e'` for that of `e`. -/
def Becomes (e e' : Query) : Prop := ∃ fuel, getRawDNF fuel e.toNode = some e'.toNode

theorem Becomes.value (v : Bytes) : Becomes (.value v) (.value v) := ⟨1, rfl⟩

theorem Becomes.not_value (v : Bytes) : Becomes (.not (.value v)) (.not (.value v)) := ⟨1, rfl⟩

/-- The children in the conventional order. -/
def ordered (p q : Query) : Query × Query :=
  let (p, q) := if p.kind ≠ .value ∧ q.kind = .value then (q, p) else (p, q)
  if p.kind = .not ∧ q.kind = .or then (q, p)
  else if p.kind = .not ∧ q.kind = .and then (q, p)
  else if p.kind = .or ∧ q.kind = .and then (q, p)
  else (p, q)

theorem order_toNode (p q : Query) :
    order p.toNode q.toNode = some ((ordered p q).1.toNode, (ordered p q).2.toNode) := by
  unfold order ordered
  simp only [type_toNode, Option.bind_eq_bind, Option.bind_some]
  by_cases hswap : p.kind ≠ .value ∧ q.kind = .value
  · simp only [if_pos hswap, type_toNode, Option.bind_some]
    split
    · rfl
    split
    · rfl
    split <;> rfl
  · simp only [if_neg hswap, type_toNode, Option.bind_some]
    split
    · rfl
    split
    · rfl
    split <;> rfl

/-- Ordering is the identity or an exchange. -/
theorem ordered_cases (p q : Query) : ordered p q = (p, q) ∨ ordered p q = (q, p) := by
  unfold ordered
  by_cases hswap : p.kind ≠ .value ∧ q.kind = .value
  · simp only [if_pos hswap]
    split
    · exact .inl rfl
    split
    · exact .inl rfl
    split
    · exact .inl rfl
    · exact .inr rfl
  · simp only [if_neg hswap]
    split
    · exact .inr rfl
    split
    · exact .inr rfl
    split
    · exact .inr rfl
    · exact .inl rfl

/-- The conventional order of the types. -/
def InOrder (k k' : Kind) : Prop :=
  k = k' ∨ k = .value ∨ k = .or ∧ k' = .not ∨ k = .and ∧ k' = .not ∨ k = .and ∧ k' = .or

theorem ordered_inOrder (p q : Query) :
    InOrder (ordered p q).1.kind (ordered p q).2.kind := by
  cases p <;> cases q <;> simp [ordered, kind, InOrder]

/-! ### Sums of products -/

def Literal : Query → Prop
  | .value _ => True
  | .not (.value _) => True
  | _ => False

/-- A product of literals. -/
def Term : Query → Prop
  | .and p q => Term p ∧ Term q
  | p => Literal p

/-- A sum of products. -/
def Dnf : Query → Prop
  | .or p q => Dnf p ∧ Dnf q
  | p => Term p

def orCount : Query → Nat
  | .value _ => 0
  | .not p => orCount p
  | .and p q => orCount p + orCount q
  | .or p q => orCount p + orCount q + 1

def size : Query → Nat
  | .value _ => 1
  | .not p => size p + 1
  | .and p q => size p + size q + 1
  | .or p q => size p + size q + 1

variable {e p q r : Query}

theorem Dnf.of_term (h : Term e) : Dnf e := by
  cases e with
  | or p q => exact h.elim
  | value v => exact h
  | and p q => exact h
  | not p => exact h

theorem Dnf.term (h : Dnf e) (hnot : e.kind ≠ .or) : Term e := by
  cases e with
  | or p q => exact absurd rfl hnot
  | value v => exact h
  | and p q => exact h
  | not p => exact h

theorem Dnf.not (h : Dnf (.not p)) : ∃ v, p = .value v := by
  cases p with
  | value v => exact ⟨v, rfl⟩
  | and p q => exact h.elim
  | or p q => exact h.elim
  | not p => exact h.elim

theorem isDisjunctiveNormalForm_of_dnf (h : Dnf e) :
    isDisjunctiveNormalForm e.toNode = true := by
  induction e with
  | value v => rfl
  | not p =>
      obtain ⟨v, rfl⟩ := h.not
      rfl
  | and p q ihp ihq =>
      have hp : Term p := h.1
      have hq : Term q := h.2
      have hkind : ∀ x, Term x → x.kind ≠ .or := by
        intro x hx hor
        cases x with
        | or a b => exact hx
        | value v => cases hor
        | and a b => cases hor
        | not a => cases hor
      simp only [toNode, ofType, isDisjunctiveNormalForm, toNode_ne_null, ihp (.of_term hp),
        ihq (.of_term hq), type_toNode]
      simp [hkind p hp, hkind q hq]
  | or p q ihp ihq =>
      simp [toNode, ofType, isDisjunctiveNormalForm, ihp h.1, ihq h.2]

/-- What a product of two sums in order is multiplied out to. -/
def spread : Query → Query → Option Query
  | .value x, .or a b => some (.or (.and (.value x) a) (.and (.value x) b))
  | .or a b, .not c => some (.or (.and a (.not c)) (.and b (.not c)))
  | .or a b, .or c d => some (.or (.or (.and a c) (.and a d)) (.or (.and b c) (.and b d)))
  | .and a b, .or c d => some (.or (.and (.and a b) c) (.and (.and a b) d))
  | _, _ => none

theorem andCase_toNode (hq : Dnf q) (hord : InOrder p.kind q.kind) :
    andCase [] p.toNode q.toNode = some (match spread p q with
      | some x => .again x.toNode
      | none => .done (Query.and p q).toNode) := by
  cases q with
  | value v =>
      cases p <;> simp [InOrder, kind] at hord
      rfl
  | not c =>
      obtain ⟨v, rfl⟩ := hq.not
      cases p <;> rfl
  | and c d =>
      cases p <;> simp [InOrder, kind] at hord
      · rfl
      · rfl
  | or c d =>
      cases p <;> simp [InOrder, kind] at hord
      · rfl
      · simp [andCase, toNode, ofType, UQueryNode.type, UQueryNode.left, UQueryNode.right,
          UQueryNode.value, spread]
      · simp [andCase, toNode, ofType, UQueryNode.type, UQueryNode.left, UQueryNode.right,
          UQueryNode.value, spread]

/-! ### The rules -/

theorem getRawDNF_of_children {t : Kind} {v : Bytes} {l r l' r' : UQueryNode} {n m : Nat}
    (ht : t ≠ .value) (htwo : isTwoLevels t l r = some false) (hl : getRawDNF n l = some l')
    (hr : getRawDNF m r = some r') {step : Step} (hstep : rewrite t v l' r' = some step) (k : Nat) :
    getRawDNF (max (max n m) k + 1) (.node t v l r) =
      step.resume (getRawDNF (max (max n m) k)) := by
  have hl' := getRawDNF_mono (show n ≤ max (max n m) k by omega) hl
  have hr' := getRawDNF_mono (show m ≤ max (max n m) k by omega) hr
  rw [getRawDNF, if_neg ht, htwo]
  simp only [Option.bind_eq_bind, Option.bind_some, Bool.false_eq_true, if_false, hl', hr', hstep]

/-- A product or a sum of more than two levels. -/
theorem isTwoLevels_binary {t : Kind} (ht : t = .and ∨ t = .or)
    (h : ¬(p.kind = .value ∧ q.kind = .value)) :
    isTwoLevels t p.toNode q.toNode = some false := by
  rcases ht with rfl | rfl
  all_goals
    simp only [isTwoLevels, type_toNode, Option.bind_eq_bind, Option.bind_some]
    split
    · next hp => simp [not_and.mp h hp]
    · rfl

theorem Becomes.two_values {v w : Bytes} : Becomes (.and (.value v) (.value w))
    (.and (.value v) (.value w)) ∧ Becomes (.or (.value v) (.value w)) (.or (.value v) (.value w)) :=
  ⟨⟨1, rfl⟩, ⟨1, rfl⟩⟩

variable {p' q' : Query}

theorem Becomes.or (hp : Becomes p p') (hq : Becomes q q')
    (h : ¬(p.kind = .value ∧ q.kind = .value)) :
    Becomes (.or p q) (.or (ordered p' q').1 (ordered p' q').2) := by
  obtain ⟨n, hn⟩ := hp
  obtain ⟨m, hm⟩ := hq
  have hstep : rewrite .or [] p'.toNode q'.toNode =
      some (.done (Query.or (ordered p' q').1 (ordered p' q').2).toNode) := by
    simp only [rewrite, order_toNode, reduceCtorEq, if_false, Option.bind_eq_bind, Option.bind_some]
    rfl
  exact ⟨_, getRawDNF_of_children (by decide) (isTwoLevels_binary (.inr rfl) h) hn hm hstep 0⟩

theorem Becomes.and (hp : Becomes p p') (hq : Becomes q q')
    (h : ¬(p.kind = .value ∧ q.kind = .value)) (hdnf : Dnf (ordered p' q').2) :
    (spread (ordered p' q').1 (ordered p' q').2 = none →
      Becomes (.and p q) (.and (ordered p' q').1 (ordered p' q').2)) ∧
    ∀ x r, spread (ordered p' q').1 (ordered p' q').2 = some x → Becomes x r →
      Becomes (.and p q) r := by
  obtain ⟨n, hn⟩ := hp
  obtain ⟨m, hm⟩ := hq
  have hstep : rewrite .and [] p'.toNode q'.toNode =
      andCase [] (ordered p' q').1.toNode (ordered p' q').2.toNode := by
    simp only [rewrite, order_toNode, reduceCtorEq, if_false, Option.bind_eq_bind, Option.bind_some]
  rw [andCase_toNode hdnf (ordered_inOrder p' q')] at hstep
  have hchildren := getRawDNF_of_children (by decide) (isTwoLevels_binary (.inl rfl) h) hn hm hstep
  constructor
  · intro hnone
    rw [hnone] at hchildren
    exact ⟨_, hchildren 0⟩
  · rintro x r hx ⟨k, hk⟩
    rw [hx] at hchildren
    exact ⟨_, (hchildren k).trans (getRawDNF_mono (by omega) hk)⟩

/-- What a NOT before a sum of products goes on with. -/
def negated : Query → Option Query
  | .value _ => none
  | .not p => some p
  | .or a b => some (.and (.not a) (.not b))
  | .and a b => some (.or (.not a) (.not b))

theorem notCase_toNode (p : Query) :
    notCase [] .null p.toNode = some ((negated p).map fun x => .again x.toNode) := by
  cases p <;> rfl

theorem Becomes.not (hp : Becomes p p') (h : p.kind ≠ .value) {x : Query}
    (hx : negated p' = some x) (hr : Becomes x r) : Becomes (.not p) r := by
  obtain ⟨n, hn⟩ := hp
  obtain ⟨k, hk⟩ := hr
  have htwo : isTwoLevels .not .null p.toNode = some false := by
    simp [isTwoLevels, h]
  have hstep : rewrite .not [] .null p'.toNode = some (.again x.toNode) := by
    simp only [rewrite, if_true, notCase_toNode, hx, Option.map_some, Option.bind_eq_bind,
      Option.bind_some]
  have hnull : getRawDNF 1 .null = some .null := rfl
  have hchildren := getRawDNF_of_children (by decide) htwo hnull hn hstep k
  exact ⟨_, hchildren.trans (getRawDNF_mono (by omega) hk)⟩

/-! ### Products and sums of normal forms -/

/-- `r` is a normal form of `e`. -/
structure NormalForm (e r : Query) : Prop where
  becomes : Becomes e r
  dnf : Dnf r
  eval : ∀ σ, r.eval σ = e.eval σ

theorem Becomes.value_eq {v : Bytes} (h : Becomes (.value v) p) : p = .value v := by
  obtain ⟨fuel, h⟩ := h
  cases fuel with
  | zero => cases h
  | succ fuel =>
      have heq : UQueryNode.ofValue v = p.toNode := Option.some.inj h
      cases p <;> simp [toNode, ofValue, ofType] at heq
      rw [heq]

theorem eq_value_of_kind (h : p.kind = .value) : ∃ v, p = .value v := by
  cases p with
  | value v => exact ⟨v, rfl⟩
  | and p q => cases h
  | or p q => cases h
  | not p => cases h

/-- What holds for both orders. -/
theorem ordered_rec {P : Query × Query → Prop} (h : P (p, q)) (h' : P (q, p)) :
    P (ordered p q) := by
  rcases ordered_cases p q with heq | heq <;> rw [heq]
  · exact h
  · exact h'

theorem NormalForm.or (hp : NormalForm p p') (hq : NormalForm q q') :
    ∃ r, NormalForm (.or p q) r ∧ r.kind = .or ∧ orCount r = orCount p' + orCount q' + 1 ∧
      size r = size p' + size q' + 1 := by
  by_cases hvalues : p.kind = .value ∧ q.kind = .value
  · obtain ⟨v, rfl⟩ := eq_value_of_kind hvalues.1
    obtain ⟨w, rfl⟩ := eq_value_of_kind hvalues.2
    obtain rfl := hp.becomes.value_eq
    obtain rfl := hq.becomes.value_eq
    exact ⟨_, ⟨Becomes.two_values.2, ⟨hp.dnf, hq.dnf⟩, fun _ => rfl⟩, rfl, rfl, rfl⟩
  · refine ⟨_, ⟨hp.becomes.or hq.becomes hvalues, ?_, ?_⟩, rfl, ?_, ?_⟩
    · exact ordered_rec (P := fun x => Dnf (.or x.1 x.2)) ⟨hp.dnf, hq.dnf⟩ ⟨hq.dnf, hp.dnf⟩
    · intro σ
      refine ordered_rec (P := fun x => (Query.or x.1 x.2).eval σ = _) ?_ ?_
      · simp only [Query.eval, hp.eval, hq.eval]
      · simp only [Query.eval, hp.eval, hq.eval, Bool.or_comm]
    · exact ordered_rec (P := fun x => orCount (.or x.1 x.2) = _) rfl
        (by simp only [orCount]; omega)
    · exact ordered_rec (P := fun x => size (.or x.1 x.2) = _) rfl (by simp only [size]; omega)

theorem spread_eq_none (hp : p.kind ≠ .or) (hq : q.kind ≠ .or) : spread p q = none := by
  cases p <;> cases q <;> simp [kind] at hp hq <;> rfl

/-- A product of two products is only put in order. -/
theorem NormalForm.and_terms (hp : NormalForm p p') (hq : NormalForm q q') (htp : p'.kind ≠ .or)
    (htq : q'.kind ≠ .or) : ∃ r, NormalForm (.and p q) r ∧ r.kind = .and ∧
      orCount r = orCount p' + orCount q' ∧ size r = size p' + size q' + 1 := by
  have htp' := hp.dnf.term htp
  have htq' := hq.dnf.term htq
  by_cases hvalues : p.kind = .value ∧ q.kind = .value
  · obtain ⟨v, rfl⟩ := eq_value_of_kind hvalues.1
    obtain ⟨w, rfl⟩ := eq_value_of_kind hvalues.2
    obtain rfl := hp.becomes.value_eq
    obtain rfl := hq.becomes.value_eq
    exact ⟨_, ⟨Becomes.two_values.1, ⟨htp', htq'⟩, fun _ => rfl⟩, rfl, rfl, rfl⟩
  · have hdnf : Dnf (ordered p' q').2 :=
      ordered_rec (P := fun x => Dnf x.2) hq.dnf hp.dnf
    have hnone : spread (ordered p' q').1 (ordered p' q').2 = none :=
      ordered_rec (P := fun x => spread x.1 x.2 = none) (spread_eq_none htp htq)
        (spread_eq_none htq htp)
    refine ⟨_, ⟨(hp.becomes.and hq.becomes hvalues hdnf).1 hnone, ?_, ?_⟩, rfl, ?_, ?_⟩
    · exact ordered_rec (P := fun x => Dnf (.and x.1 x.2)) ⟨htp', htq'⟩ ⟨htq', htp'⟩
    · intro σ
      refine ordered_rec (P := fun x => (Query.and x.1 x.2).eval σ = _) ?_ ?_
      · simp only [Query.eval, hp.eval, hq.eval]
      · simp only [Query.eval, hp.eval, hq.eval, Bool.and_comm]
    · exact ordered_rec (P := fun x => orCount (.and x.1 x.2) = _) rfl
        (by simp only [orCount]; omega)
    · exact ordered_rec (P := fun x => size (.and x.1 x.2) = _) rfl (by simp only [size]; omega)

/-- A normal form stays one, up to the order of its factors and summands. -/
theorem normalForm_self (h : Dnf e) : ∃ r, NormalForm e r ∧ r.kind = e.kind ∧
    orCount r = orCount e ∧ size r = size e := by
  induction e with
  | value v => exact ⟨_, ⟨.value v, h, fun _ => rfl⟩, rfl, rfl, rfl⟩
  | not p =>
      obtain ⟨v, rfl⟩ := h.not
      exact ⟨_, ⟨.not_value v, h, fun _ => rfl⟩, rfl, rfl, rfl⟩
  | or p q ihp ihq =>
      obtain ⟨p', hp, -, hcp, hsp⟩ := ihp h.1
      obtain ⟨q', hq, -, hcq, hsq⟩ := ihq h.2
      obtain ⟨r, hr, hkind, hcount, hsize⟩ := hp.or hq
      exact ⟨r, hr, hkind, by rw [hcount, hcp, hcq]; rfl, by rw [hsize, hsp, hsq]; rfl⟩
  | and p q ihp ihq =>
      have hkind : ∀ {x}, Term x → x.kind ≠ .or := by
        intro x hx hor
        cases x with
        | or a b => exact hx
        | value v => cases hor
        | and a b => cases hor
        | not a => cases hor
      obtain ⟨p', hp, hkp, hcp, hsp⟩ := ihp (.of_term h.1)
      obtain ⟨q', hq, hkq, hcq, hsq⟩ := ihq (.of_term h.2)
      obtain ⟨r, hr, hand, hcount, hsize⟩ :=
        hp.and_terms hq (by rw [hkp]; exact hkind h.1) (by rw [hkq]; exact hkind h.2)
      exact ⟨r, hr, hand, by rw [hcount, hcp, hcq]; rfl, by rw [hsize, hsp, hsq]; rfl⟩

/-- In order, a product with a sum is multiplied out. -/
theorem spread_isSome (hord : InOrder p.kind q.kind) (h : p.kind = .or ∨ q.kind = .or) :
    ∃ x, spread p q = some x := by
  cases p <;> cases q <;> simp [kind, InOrder] at hord h <;> exact ⟨_, rfl⟩

theorem eval_spread {x : Query} (h : spread p q = some x) (σ : Bytes → Bool) :
    x.eval σ = (p.eval σ && q.eval σ) := by
  unfold spread at h
  split at h
  · obtain rfl := Option.some.inj h
    simp only [Query.eval, Bool.and_or_distrib_left]
  · obtain rfl := Option.some.inj h
    simp only [Query.eval, Bool.and_or_distrib_right]
  · obtain rfl := Option.some.inj h
    simp only [Query.eval, Bool.and_or_distrib_right]
    simp only [Bool.and_or_distrib_left]
  · obtain rfl := Option.some.inj h
    simp only [Query.eval, Bool.and_or_distrib_left]
  · cases h

/-- The product of two normal forms has one: the products it is multiplied out to
have fewer sums. -/
theorem NormalForm.and (hp : NormalForm p p') (hq : NormalForm q q') :
    ∃ r, NormalForm (.and p q) r ∧ (r.kind = .and ∨ r.kind = .or) := by
  induction hn : orCount p' + orCount q' using Nat.strongRecOn generalizing p q p' q' with
  | ind n ih =>
      by_cases hterms : p'.kind ≠ .or ∧ q'.kind ≠ .or
      · obtain ⟨r, hr, hkind, -⟩ := hp.and_terms hq hterms.1 hterms.2
        exact ⟨r, hr, .inl hkind⟩
      have hproduct : ∀ {a c : Query}, Dnf a → Dnf c → orCount a + orCount c < n →
          ∃ r, NormalForm (.and a c) r := by
        intro a c ha hc hlt
        obtain ⟨a', hna, -, hca, -⟩ := normalForm_self ha
        obtain ⟨c', hnc, -, hcc, -⟩ := normalForm_self hc
        obtain ⟨r, hr, -⟩ := ih _ (by omega) hna hnc rfl
        exact ⟨r, hr⟩
      have hvalues : ¬(p.kind = .value ∧ q.kind = .value) := by
        rintro ⟨hpv, hqv⟩
        obtain ⟨v, rfl⟩ := eq_value_of_kind hpv
        obtain ⟨w, rfl⟩ := eq_value_of_kind hqv
        obtain rfl := hp.becomes.value_eq
        obtain rfl := hq.becomes.value_eq
        exact hterms ⟨Kind.noConfusion, Kind.noConfusion⟩
      have hd₁ : Dnf (ordered p' q').1 := ordered_rec (P := fun x => Dnf x.1) hp.dnf hq.dnf
      have hd₂ : Dnf (ordered p' q').2 := ordered_rec (P := fun x => Dnf x.2) hq.dnf hp.dnf
      have hcount : orCount (ordered p' q').1 + orCount (ordered p' q').2 = n :=
        ordered_rec (P := fun x => orCount x.1 + orCount x.2 = n) hn (by rw [Nat.add_comm]; exact hn)
      have hor : (ordered p' q').1.kind = .or ∨ (ordered p' q').2.kind = .or := by
        have hone : p'.kind = .or ∨ q'.kind = .or := by
          by_contra hnone
          exact hterms (not_or.mp hnone)
        exact ordered_rec (P := fun x => x.1.kind = .or ∨ x.2.kind = .or) hone hone.symm
      have heval : ∀ σ, ((ordered p' q').1.eval σ && (ordered p' q').2.eval σ) =
          (Query.and p q).eval σ := by
        intro σ
        refine ordered_rec (P := fun x => (x.1.eval σ && x.2.eval σ) = _) ?_ ?_
        · simp only [Query.eval, hp.eval, hq.eval]
        · simp only [Query.eval, hp.eval, hq.eval, Bool.and_comm]
      have hagain := (hp.becomes.and hq.becomes hvalues hd₂).2
      obtain ⟨x, hx⟩ := spread_isSome (ordered_inOrder p' q') hor
      revert hd₁ hd₂ hcount heval hagain hx
      generalize (ordered p' q').1 = a
      generalize (ordered p' q').2 = b
      intro hd₁ hd₂ hcount heval hagain hx
      have hspread := eval_spread hx
      suffices ∃ r, NormalForm x r ∧ r.kind = .or by
        obtain ⟨r, hr, hkind⟩ := this
        exact ⟨r, ⟨hagain x r hx hr.becomes, hr.dnf, fun σ => by rw [hr.eval, hspread, heval]⟩,
          .inr hkind⟩
      unfold spread at hx
      split at hx
      · obtain rfl := Option.some.inj hx
        simp only [orCount] at hcount
        obtain ⟨r₁, h₁⟩ := hproduct hd₁ hd₂.1 (by simp only [orCount]; omega)
        obtain ⟨r₂, h₂⟩ := hproduct hd₁ hd₂.2 (by simp only [orCount]; omega)
        obtain ⟨r, hr, hkind, -⟩ := h₁.or h₂
        exact ⟨r, hr, hkind⟩
      · obtain rfl := Option.some.inj hx
        simp only [orCount] at hcount
        obtain ⟨r₁, h₁⟩ := hproduct hd₁.1 hd₂ (by simp only [orCount]; omega)
        obtain ⟨r₂, h₂⟩ := hproduct hd₁.2 hd₂ (by simp only [orCount]; omega)
        obtain ⟨r, hr, hkind, -⟩ := h₁.or h₂
        exact ⟨r, hr, hkind⟩
      · obtain rfl := Option.some.inj hx
        simp only [orCount] at hcount
        obtain ⟨r₁, h₁⟩ := hproduct hd₁.1 hd₂.1 (by omega)
        obtain ⟨r₂, h₂⟩ := hproduct hd₁.1 hd₂.2 (by omega)
        obtain ⟨r₃, h₃⟩ := hproduct hd₁.2 hd₂.1 (by omega)
        obtain ⟨r₄, h₄⟩ := hproduct hd₁.2 hd₂.2 (by omega)
        obtain ⟨s₁, hs₁, -⟩ := h₁.or h₂
        obtain ⟨s₂, hs₂, -⟩ := h₃.or h₄
        obtain ⟨r, hr, hkind, -⟩ := hs₁.or hs₂
        exact ⟨r, hr, hkind⟩
      · obtain rfl := Option.some.inj hx
        simp only [orCount] at hcount
        obtain ⟨r₁, h₁⟩ := hproduct hd₁ hd₂.1 (by simp only [orCount]; omega)
        obtain ⟨r₂, h₂⟩ := hproduct hd₁ hd₂.2 (by simp only [orCount]; omega)
        obtain ⟨r, hr, hkind, -⟩ := h₁.or h₂
        exact ⟨r, hr, hkind⟩
      · cases hx

/-- What a NOT before a normal form goes on with has a normal form: each NOT moves
to smaller trees. -/
theorem normalForm_negated (h : Dnf e) (hvalue : e.kind ≠ .value) :
    ∃ x r, negated e = some x ∧ NormalForm x r ∧ (∀ σ, r.eval σ = !e.eval σ) ∧
      (r.kind = .value → ∃ v, e = .not (.value v)) ∧ r.kind ≠ .not := by
  induction hn : size e using Nat.strongRecOn generalizing e with
  | ind n ih =>
      have hnot : ∀ {a : Query}, Dnf a → size a < n → ∃ r, NormalForm (.not a) r := by
        intro a ha hlt
        by_cases hav : a.kind = .value
        · obtain ⟨v, rfl⟩ := eq_value_of_kind hav
          exact ⟨_, .not_value v, trivial, fun _ => rfl⟩
        · obtain ⟨a', hself, hkind, -, hsize⟩ := normalForm_self ha
          obtain ⟨x, r, hx, hr, heval, -⟩ :=
            ih (size a') (by omega) hself.dnf (by rwa [hkind]) rfl
          refine ⟨r, hself.becomes.not hav hx hr.becomes, hr.dnf, fun σ => ?_⟩
          rw [heval, hself.eval]
          rfl
      cases e with
      | value v => exact absurd rfl hvalue
      | not p =>
          obtain ⟨v, rfl⟩ := h.not
          exact ⟨_, _, rfl, ⟨.value v, trivial, fun _ => rfl⟩, fun σ => by simp [Query.eval],
            fun _ => ⟨v, rfl⟩, by simp [kind]⟩
      | or a b =>
          simp only [size] at hn
          obtain ⟨a', ha⟩ := hnot h.1 (by omega)
          obtain ⟨b', hb⟩ := hnot h.2 (by omega)
          obtain ⟨r, hr, hkind⟩ := ha.and hb
          refine ⟨_, r, rfl, hr, fun σ => ?_, ?_, ?_⟩
          · rw [hr.eval]
            simp only [Query.eval, Bool.not_or]
          · rcases hkind with hk | hk <;> simp [hk]
          · rcases hkind with hk | hk <;> simp [hk]
      | and a b =>
          simp only [size] at hn
          obtain ⟨a', ha⟩ := hnot (.of_term h.1) (by omega)
          obtain ⟨b', hb⟩ := hnot (.of_term h.2) (by omega)
          obtain ⟨r, hr, hkind, -⟩ := ha.or hb
          refine ⟨_, r, rfl, hr, fun σ => ?_, by simp [hkind], by simp [hkind]⟩
          rw [hr.eval]
          simp only [Query.eval, Bool.not_and]

/-! ### All expressions -/

/-- A NOT of a NOT of a word. -/
def isNotNotWord : Query → Bool
  | .not (.not (.value _)) => true
  | _ => false

/-- Somewhere in the expression a NOT stands before a NOT before a NOT before a
word. -/
def hasTripleNot : Query → Bool
  | .value _ => false
  | .and p q => hasTripleNot p || hasTripleNot q
  | .or p q => hasTripleNot p || hasTripleNot q
  | .not p => isNotNotWord p || hasTripleNot p

theorem isNotNotWord_iff : isNotNotWord e = true ↔ ∃ v, e = .not (.not (.value v)) := by
  constructor
  · intro h
    unfold isNotNotWord at h
    split at h
    · next v => exact ⟨v, rfl⟩
    · cases h
  · rintro ⟨v, rfl⟩
    rfl

theorem normalForm_of_hasTripleNot (h : hasTripleNot e = false) : ∃ r, NormalForm e r ∧
    (r.kind = .value → e.kind = .value ∨ isNotNotWord e = true) ∧
    (r.kind = .not → ∃ v, e = .not (.value v)) := by
  induction e with
  | value v => exact ⟨_, ⟨.value v, trivial, fun _ => rfl⟩, fun _ => .inl rfl, by simp [kind]⟩
  | and p q ihp ihq =>
      simp only [hasTripleNot, Bool.or_eq_false_iff] at h
      obtain ⟨p', hp, -⟩ := ihp h.1
      obtain ⟨q', hq, -⟩ := ihq h.2
      obtain ⟨r, hr, hkind⟩ := hp.and hq
      refine ⟨r, hr, ?_, ?_⟩
      · rcases hkind with hk | hk <;> simp [hk]
      · rcases hkind with hk | hk <;> simp [hk]
  | or p q ihp ihq =>
      simp only [hasTripleNot, Bool.or_eq_false_iff] at h
      obtain ⟨p', hp, -⟩ := ihp h.1
      obtain ⟨q', hq, -⟩ := ihq h.2
      obtain ⟨r, hr, hkind, -⟩ := hp.or hq
      exact ⟨r, hr, by simp [hkind], by simp [hkind]⟩
  | not p ih =>
      simp only [hasTripleNot, Bool.or_eq_false_iff] at h
      by_cases hpv : p.kind = .value
      · obtain ⟨v, rfl⟩ := eq_value_of_kind hpv
        exact ⟨_, ⟨.not_value v, trivial, fun _ => rfl⟩, by simp [kind], fun _ => ⟨v, rfl⟩⟩
      obtain ⟨p', hp, hvalue, hliteral⟩ := ih h.2
      have hpv' : p'.kind ≠ .value := by
        intro hk
        rcases hvalue hk with hk' | hk'
        · exact hpv hk'
        · rw [hk'] at h
          cases h.1
      obtain ⟨x, r, hx, hr, heval, hword, hnot⟩ := normalForm_negated hp.dnf hpv'
      refine ⟨r, ⟨hp.becomes.not hpv hx hr.becomes, hr.dnf, fun σ => ?_⟩, fun hk => ?_,
        fun hk => absurd hk hnot⟩
      · rw [heval, hp.eval]
        rfl
      · obtain ⟨v, rfl⟩ := hword hk
        obtain ⟨w, rfl⟩ := hliteral rfl
        exact .inr rfl

/-! ### What is returned -/

/-- What `getRawDNF` may return for the tree of `e`. -/
structure Sound (e r : Query) : Prop where
  dnf : Dnf r
  eval : ∀ σ, r.eval σ = e.eval σ
  values : ∀ w ∈ r.values, w ∈ e.values

theorem Sound.self (h : Dnf e) : Sound e e := ⟨h, fun _ => rfl, fun _ => id⟩

theorem values_spread {x : Query} (h : spread p q = some x) :
    ∀ w ∈ x.values, w ∈ p.values ++ q.values := by
  unfold spread at h
  split at h
  · cases h
    simp only [Query.values, List.mem_append]
    tauto
  · cases h
    simp only [Query.values, List.mem_append]
    tauto
  · cases h
    simp only [Query.values, List.mem_append]
    tauto
  · cases h
    simp only [Query.values, List.mem_append]
    tauto
  · cases h

theorem eval_negated {x : Query} (h : negated e = some x) (σ : Bytes → Bool) :
    x.eval σ = !e.eval σ := by
  cases e with
  | value v => cases h
  | not p =>
      cases h
      exact (Bool.not_not _).symm
  | or a b =>
      cases h
      simp only [Query.eval, Bool.not_or]
  | and a b =>
      cases h
      simp only [Query.eval, Bool.not_and]

theorem values_negated {x : Query} (h : negated e = some x) : x.values = e.values := by
  cases e with
  | value v => cases h
  | not p =>
      cases h
      rfl
  | or a b =>
      cases h
      rfl
  | and a b =>
      cases h
      rfl

theorem Sound.or (hp : Sound p p') (hq : Sound q q') :
    Sound (.or p q) (.or (ordered p' q').1 (ordered p' q').2) := by
  refine ordered_rec (P := fun x => Sound (.or p q) (.or x.1 x.2)) ?_ ?_
  · refine ⟨⟨hp.dnf, hq.dnf⟩, fun σ => by simp only [Query.eval, hp.eval, hq.eval], fun w hw => ?_⟩
    exact List.mem_append.mpr ((List.mem_append.mp hw).imp (hp.values w) (hq.values w))
  · refine ⟨⟨hq.dnf, hp.dnf⟩,
      fun σ => by simp only [Query.eval, hp.eval, hq.eval, Bool.or_comm], fun w hw => ?_⟩
    exact List.mem_append.mpr ((List.mem_append.mp hw).symm.imp (hp.values w) (hq.values w))

/-- A product in order of which nothing is multiplied out. -/
theorem Sound.and (hp : Sound p p') (hq : Sound q q')
    (hnone : spread (ordered p' q').1 (ordered p' q').2 = none) :
    Sound (.and p q) (.and (ordered p' q').1 (ordered p' q').2) := by
  have hkinds : p'.kind ≠ .or ∧ q'.kind ≠ .or := by
    have hboth : (ordered p' q').1.kind ≠ .or ∧ (ordered p' q').2.kind ≠ .or := by
      by_contra hor
      obtain ⟨x, hx⟩ := spread_isSome (ordered_inOrder p' q') (by tauto)
      cases hnone.symm.trans hx
    revert hboth
    exact ordered_rec (P := fun x => x.1.kind ≠ .or ∧ x.2.kind ≠ .or → _) id And.symm
  have htp := hp.dnf.term hkinds.1
  have htq := hq.dnf.term hkinds.2
  refine ordered_rec (P := fun x => Sound (.and p q) (.and x.1 x.2)) ?_ ?_
  · refine ⟨⟨htp, htq⟩, fun σ => by simp only [Query.eval, hp.eval, hq.eval], fun w hw => ?_⟩
    exact List.mem_append.mpr ((List.mem_append.mp hw).imp (hp.values w) (hq.values w))
  · refine ⟨⟨htq, htp⟩,
      fun σ => by simp only [Query.eval, hp.eval, hq.eval, Bool.and_comm], fun w hw => ?_⟩
    exact List.mem_append.mpr ((List.mem_append.mp hw).symm.imp (hp.values w) (hq.values w))

/-- A product in order that is multiplied out. -/
theorem Sound.and_spread {x : Query} (hp : Sound p p') (hq : Sound q q')
    (hx : spread (ordered p' q').1 (ordered p' q').2 = some x) (hr : Sound x r) :
    Sound (.and p q) r := by
  refine ⟨hr.dnf, fun σ => ?_, fun w hw => ?_⟩
  · rw [hr.eval, eval_spread hx, Query.eval, ← hp.eval, ← hq.eval]
    exact ordered_rec (P := fun x => (x.1.eval σ && x.2.eval σ) = _) rfl (Bool.and_comm _ _)
  · have hmem := values_spread hx w (hr.values w hw)
    revert hmem
    rw [Query.values]
    refine ordered_rec (P := fun x => w ∈ x.1.values ++ x.2.values → _) ?_ ?_
    · exact fun h => List.mem_append.mpr ((List.mem_append.mp h).imp (hp.values w) (hq.values w))
    · exact fun h =>
        List.mem_append.mpr ((List.mem_append.mp h).symm.imp (hp.values w) (hq.values w))

/-- All that is returned is a sum of products with the same truth value, of the same words. -/
theorem getRawDNF_sound {fuel : Nat} {t : UQueryNode} (h : getRawDNF fuel e.toNode = some t) :
    ∃ r, t = r.toNode ∧ Sound e r := by
  induction fuel generalizing e t with
  | zero => cases h
  | succ fuel ih =>
      cases e with
      | value v =>
          cases h
          exact ⟨_, rfl, .self trivial⟩
      | not p =>
          by_cases hpv : p.kind = .value
          · obtain ⟨v, rfl⟩ := eq_value_of_kind hpv
            cases h
            exact ⟨.not (.value v), rfl, .self trivial⟩
          have htwo : isTwoLevels .not .null p.toNode = some false := by
            simp [isTwoLevels, hpv]
          rw [toNode, ofType, getRawDNF, if_neg (by decide), htwo] at h
          simp only [Option.bind_eq_bind, Option.bind_some, Bool.false_eq_true, if_false,
            Option.bind_eq_some_iff] at h
          obtain ⟨l, hl, p₀, hp, step, hstep, h⟩ := h
          obtain ⟨p', rfl, hsound⟩ := ih hp
          cases fuel with
          | zero => cases hl
          | succ fuel =>
              cases hl
              simp only [rewrite, if_true, notCase_toNode, Option.bind_eq_bind,
                Option.bind_some] at hstep
              cases hx : negated p' with
              | none =>
                  rw [hx] at hstep
                  cases hstep
              | some x =>
                  rw [hx] at hstep
                  cases hstep
                  obtain ⟨r, rfl, hr⟩ := ih h
                  refine ⟨r, rfl, hr.dnf, fun σ => ?_, fun w hw => ?_⟩
                  · rw [hr.eval, eval_negated hx, hsound.eval, Query.eval]
                  · rw [Query.values]
                    have hw := hr.values w hw
                    rw [values_negated hx] at hw
                    exact hsound.values w hw
      | and p q =>
          by_cases hvalues : p.kind = .value ∧ q.kind = .value
          · obtain ⟨v, rfl⟩ := eq_value_of_kind hvalues.1
            obtain ⟨w, rfl⟩ := eq_value_of_kind hvalues.2
            cases h
            exact ⟨.and (.value v) (.value w), rfl, .self ⟨trivial, trivial⟩⟩
          rw [toNode, ofType, getRawDNF, if_neg (by decide),
            isTwoLevels_binary (.inl rfl) hvalues] at h
          simp only [Option.bind_eq_bind, Option.bind_some, Bool.false_eq_true, if_false,
            Option.bind_eq_some_iff] at h
          obtain ⟨p₀, hp₀, q₀, hq₀, step, hstep, h⟩ := h
          obtain ⟨p', rfl, hp⟩ := ih hp₀
          obtain ⟨q', rfl, hq⟩ := ih hq₀
          have hdnf : Dnf (ordered p' q').2 :=
            ordered_rec (P := fun x => Dnf x.2) hq.dnf hp.dnf
          simp only [rewrite, order_toNode, reduceCtorEq, if_false, Option.bind_eq_bind,
            Option.bind_some, andCase_toNode hdnf (ordered_inOrder p' q')] at hstep
          cases hx : spread (ordered p' q').1 (ordered p' q').2 with
          | none =>
              rw [hx] at hstep
              cases hstep
              cases h
              exact ⟨.and _ _, rfl, hp.and hq hx⟩
          | some x =>
              rw [hx] at hstep
              cases hstep
              obtain ⟨r, rfl, hr⟩ := ih h
              exact ⟨r, rfl, hp.and_spread hq hx hr⟩
      | or p q =>
          by_cases hvalues : p.kind = .value ∧ q.kind = .value
          · obtain ⟨v, rfl⟩ := eq_value_of_kind hvalues.1
            obtain ⟨w, rfl⟩ := eq_value_of_kind hvalues.2
            cases h
            exact ⟨.or (.value v) (.value w), rfl, .self ⟨trivial, trivial⟩⟩
          rw [toNode, ofType, getRawDNF, if_neg (by decide),
            isTwoLevels_binary (.inr rfl) hvalues] at h
          simp only [Option.bind_eq_bind, Option.bind_some, Bool.false_eq_true, if_false,
            Option.bind_eq_some_iff] at h
          obtain ⟨p₀, hp₀, q₀, hq₀, step, hstep, h⟩ := h
          obtain ⟨p', rfl, hp⟩ := ih hp₀
          obtain ⟨q', rfl, hq⟩ := ih hq₀
          simp only [rewrite, order_toNode, reduceCtorEq, if_false, Option.bind_eq_bind,
            Option.bind_some] at hstep
          cases hstep
          cases h
          exact ⟨.or _ _, rfl, hp.or hq⟩

/-! ### All expressions that get lost -/

/-- The three NOTs have the null pointer at the left of the first one followed. -/
theorem getRawDNF_tripleNot (fuel : Nat) (v : Bytes) :
    getRawDNF fuel (Query.not (.not (.not (.value v)))).toNode = none := by
  match fuel with
  | 0 => rfl
  | 1 => rfl
  | 2 => rfl
  | fuel + 3 =>
      have hpair : getRawDNF (fuel + 2) (Query.not (.not (.value v))).toNode =
          some (Query.value v).toNode := rfl
      have hnull : getRawDNF (fuel + 2) .null = some .null := rfl
      rw [toNode, ofType, getRawDNF, if_neg (by decide), hpair, hnull]
      rfl

/-- A product or a sum gets lost with either side. -/
theorem getRawDNF_binary {t : Kind} (ht : t = .and ∨ t = .or)
    (h : (∀ fuel, getRawDNF fuel p.toNode = none) ∨ ∀ fuel, getRawDNF fuel q.toNode = none)
    (fuel : Nat) : getRawDNF fuel (ofType t p.toNode q.toNode) = none := by
  have hvalues : ¬(p.kind = .value ∧ q.kind = .value) := by
    rintro ⟨hpv, hqv⟩
    obtain ⟨v, rfl⟩ := eq_value_of_kind hpv
    obtain ⟨w, rfl⟩ := eq_value_of_kind hqv
    rcases h with hp | hq
    · cases hp 1
    · cases hq 1
  have hvalue : t ≠ .value := by
    rcases ht with rfl | rfl <;> decide
  cases fuel with
  | zero => rfl
  | succ fuel =>
      rw [ofType, getRawDNF, if_neg hvalue, isTwoLevels_binary ht hvalues]
      rcases h with hp | hq
      · rw [hp]
        rfl
      · rw [hq]
        cases getRawDNF fuel p.toNode <;> rfl

theorem getRawDNF_of_hasTripleNot (h : hasTripleNot e = true) (fuel : Nat) :
    getRawDNF fuel e.toNode = none := by
  induction e generalizing fuel with
  | value v => cases h
  | not p ih =>
      simp only [hasTripleNot, Bool.or_eq_true] at h
      rcases h with hword | hp
      · obtain ⟨v, rfl⟩ := isNotNotWord_iff.mp hword
        exact getRawDNF_tripleNot fuel v
      · cases fuel with
        | zero => rfl
        | succ fuel =>
            have htwo : isTwoLevels .not .null p.toNode = some false := by
              cases p with
              | value v => cases hp
              | and a b => rfl
              | or a b => rfl
              | not a => rfl
            rw [toNode, ofType, getRawDNF, if_neg (by decide), htwo, ih hp]
            cases getRawDNF fuel .null <;> rfl
  | and p q ihp ihq =>
      exact getRawDNF_binary (.inl rfl) ((Bool.or_eq_true _ _ ▸ h).imp ihp ihq) fuel
  | or p q ihp ihq =>
      exact getRawDNF_binary (.inr rfl) ((Bool.or_eq_true _ _ ▸ h).imp ihp ihq) fuel

/-- `getRawDNF` turns the tree of an expression into a sum of products with the
same truth value exactly when nowhere three NOTs stand before a word. -/
theorem getRawDNF_preserves_iff (e : Query) :
    (∃ fuel r, getRawDNF fuel e.toNode = some r ∧ isDisjunctiveNormalForm r = true ∧
      ∀ σ, r.eval σ = e.toNode.eval σ) ↔ hasTripleNot e = false := by
  constructor
  · rintro ⟨fuel, r, hr, -⟩
    by_contra h
    rw [getRawDNF_of_hasTripleNot (Bool.not_eq_false _ ▸ h)] at hr
    cases hr
  · intro h
    obtain ⟨r, ⟨⟨fuel, hfuel⟩, hdnf, heval⟩, -⟩ := normalForm_of_hasTripleNot h
    refine ⟨fuel, r.toNode, hfuel, isDisjunctiveNormalForm_of_dnf hdnf, fun σ => ?_⟩
    rw [eval_toNode, eval_toNode, heval]

theorem triple_not_gets_lost : ¬∃ fuel r,
    getRawDNF fuel (Query.not (.not (.not (.value [97])))).toNode = some r ∧
      isDisjunctiveNormalForm r = true ∧
      ∀ σ, r.eval σ = (Query.not (.not (.not (.value [97])))).toNode.eval σ := by
  rintro ⟨fuel, r, hr, -⟩
  rw [getRawDNF_tripleNot] at hr
  cases hr

end ULib.DisjunctiveNormalForm
