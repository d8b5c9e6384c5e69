import ULib.JournalCells

/-!
The traversal that combines the journal with the constant database. In a
journal in order it hands every entry with data to its function, both subtrees
of a node before the node, and changes nothing. It repairs a node without data
whose size does not say so.
-/

namespace ULib.JournalVisit

open ByteMemory
open KeyComparison
open ConstantDatabase
open ReliableDatabase
open HeapTree
open JournalTree
open JournalForest
open JournalLog

variable {σ : Type*} (add : Bytes → Bytes → σ → σ) {S : Nat → Prop} {m₁ : Mem} {p : Nat}

/-- The subtree at the pointer at `a`, if there is one. -/
def visitAt (fuel a : Nat) (s : Mem × σ) : Option (Mem × σ) :=
  if get s.1 a ≠ 0 then visitTree add fuel (get s.1 a) s else some s

theorem visitTree_succ (fuel n : Nat) (s : Mem × σ) :
    visitTree add (fuel + 1) n s = (visitAt add fuel (n + 16) s).bind fun s =>
      (visitAt add fuel (n + 20) s).bind fun s => some (visitNode add n s) := by
  have hright : ∀ s : Mem × σ, (visitAt add fuel (n + 20) s).bind
      (fun s => some (visitNode add n s)) =
      if get s.1 (n + 20) ≠ 0 then (visitTree add fuel (get s.1 (n + 20)) s).bind fun s =>
        some (visitNode add n s) else some (visitNode add n s) := by
    intro s
    unfold visitAt
    split <;> rfl
  simp only [visitTree, hright, Option.bind_eq_bind, Option.bind_some]
  unfold visitAt
  split <;> rfl

/-- What the traversal does with an entry. -/
def addEntry (a : σ) (e : Nat × Entry) : σ :=
  match e.2.data with
  | some d => add e.2.key d a
  | none => a

variable {ignoreCase : Bool} {m : Mem} {H : Heap Entry} {F : Forest}

theorem visitNode_eq {n : Nat} {x : Node Entry} (h : NodeAt m n x) (a : σ) :
    visitNode add n (m, a) = (m, addEntry add a (n, x.val)) := by
  unfold visitNode addEntry
  cases hd : x.val.data with
  | none =>
      obtain ⟨h8, h12⟩ := h.deleted hd
      simp [h8, h12]
  | some d =>
      obtain ⟨h8, h12, hread⟩ := h.data d hd
      simp only [ne_eq, h8, not_false_iff, if_true, h12, hread, h.klen, h.key]

theorem visitAt_eq (h : JournalAt ignoreCase m H F) {t : HeapTree.Tree Entry} (ht : Represents H t)
    {b fuel : Nat} (hb : get m b = t.root) (hfuel : t.entries.length ≤ fuel) (a : σ) :
    visitAt add fuel b (m, a) = some (m, t.entries.foldl (addEntry add) a) := by
  induction t generalizing b fuel a with
  | leaf => simp [visitAt, hb, Tree.root, Tree.entries]
  | node l n v r ihl ihr =>
      obtain ⟨hn, hH, hl, hr⟩ := ht
      have hnode := h.heap.node n _ hH
      simp only [Tree.entries, List.length_append, List.length_singleton] at hfuel
      obtain ⟨fuel, rfl⟩ : ∃ f, fuel = f + 1 := ⟨fuel - 1, by omega⟩
      rw [visitAt, hb, Tree.root, if_pos hn, visitTree_succ,
        ihl hl hnode.left (by omega), Option.bind_some, ihr hr hnode.right (by omega),
        Option.bind_some, visitNode_eq add hnode]
      simp only [Tree.entries, List.foldl_append, List.foldl_cons, List.foldl_nil]

/-- All the entries, in the order of the traversal. -/
def forestEntries (F : Forest) : List (Nat × Entry) :=
  (List.range cacheHashtabLen).flatMap fun i => (F i).entries

theorem visitHashtab_eq (h : JournalAt ignoreCase m H F) {fuel : Nat} (hfuel : get m 0 ≤ fuel)
    (a : σ) :
    visitHashtab add fuel (m, a) = some (m, (forestEntries F).foldl (addEntry add) a) := by
  have hfold : ∀ (l : List Nat) (a : σ), (∀ i ∈ l, i < cacheHashtabLen) →
      l.foldlM (fun s i => if get s.1 (hashtab i) ≠ 0 then
        visitTree add fuel (get s.1 (hashtab i)) s else some s) (m, a) =
      some (m, (l.flatMap fun i => (F i).entries).foldl (addEntry add) a) := by
    intro l
    induction l with
    | nil => intro a _; rfl
    | cons i l ih =>
        intro a hl
        have hi := hl i List.mem_cons_self
        have hlen := entries_length h.trees hi
        have hat := visitAt_eq add h (h.tree i hi) (h.slot i hi)
            (show (F i).entries.length ≤ fuel by omega) a
        unfold visitAt at hat
        rw [List.foldlM_cons, hat]
        simp only [Option.bind_eq_bind, Option.bind_some, List.flatMap_cons, List.foldl_append]
        exact ih _ fun j hj => hl j (List.mem_cons_of_mem _ hj)
  exact hfold _ a fun i hi => List.mem_range.mp hi

/-! ### A node to be repaired -/

/-- Two journals that differ at most in the word at `p`. -/
def Near (p : Nat) (m m' : Mem) : Prop := ∀ a, a < p ∨ p + 4 ≤ a → m' a = m a

theorem Near.get_eq {m m' : Mem} (h : Near p m m') {a : Nat} (ha : Apart a 4 p 4) :
    get m' a = get m a := by
  apply Agree.get_eq
  intro x hx hx'
  unfold Apart at ha
  exact h x (by omega)

/-- A set of nodes that the traversal does not leave, and of which it repairs
at most the one whose data size is at `p`. -/
structure Closed (S : Nat → Prop) (m : Mem) (p : Nat) : Prop where
  left : ∀ n, S n → get m (n + 16) = 0 ∨ S (get m (n + 16))
  right : ∀ n, S n → get m (n + 20) = 0 ∨ S (get m (n + 20))
  clean : ∀ n, S n → n + 12 = p ∨
    Apart n sizeofCacheNode p 4 ∧ (get m (n + 8) ≠ 0 ∨ get m (n + 12) = uNotFound)

theorem visitNode_near (hS : Closed S m₁ p) {n : Nat} (hn : S n) {s : Mem × σ}
    (hs : Near p m₁ s.1) : Near p m₁ (visitNode add n s).1 := by
  have h24 : sizeofCacheNode = 24 := rfl
  unfold visitNode
  split
  · exact hs
  · next h8 =>
    split
    · next h12 =>
      rcases hS.clean n hn with hp | ⟨hap, hclean⟩
      · intro a ha
        rw [← hs a ha]
        exact put_agree _ _ _ (b := a) (k := 1) (by unfold Apart; omega) a (by omega) (by omega)
      · -- a node in order is not repaired
        unfold Apart at hap
        rw [hs.get_eq (by unfold Apart; omega)] at h8 h12
        rcases hclean with h | h
        · exact absurd h h8
        · exact absurd h h12
    · exact hs

theorem visitTree_near (hS : Closed S m₁ p) {fuel n : Nat} (hn : S n) {s s' : Mem × σ}
    (hs : Near p m₁ s.1) (h : visitTree add fuel n s = some s') : Near p m₁ s'.1 := by
  have h24 : sizeofCacheNode = 24 := rfl
  induction fuel generalizing n s s' with
  | zero => simp [visitTree] at h
  | succ fuel ih =>
      have hword : ∀ k, k = 16 ∨ k = 20 → ∀ s : Mem × σ, Near p m₁ s.1 →
          get s.1 (n + k) = get m₁ (n + k) := by
        intro k hk s hs
        refine hs.get_eq ?_
        rcases hS.clean n hn with hp | ⟨hap, -⟩
        · unfold Apart
          omega
        · unfold Apart at hap ⊢
          omega
      have hsub : ∀ k, (k = 16 ∨ k = 20) → (get m₁ (n + k) = 0 ∨ S (get m₁ (n + k))) →
          ∀ s s' : Mem × σ, Near p m₁ s.1 →
          visitAt add fuel (n + k) s = some s' → Near p m₁ s'.1 := by
        intro k hk hclosed s s' hs h
        rw [visitAt, hword k hk s hs] at h
        split at h
        · next hne => exact ih (hclosed.resolve_left hne) hs h
        · obtain rfl := Option.some.inj h
          exact hs
      rw [visitTree_succ] at h
      simp only [Option.bind_eq_some_iff] at h
      obtain ⟨s₁, hs₁, s₂, hs₂, h⟩ := h
      obtain rfl := Option.some.inj h
      exact visitNode_near add hS hn (hsub 20 (.inr rfl) (hS.right n hn) _ _
        (hsub 16 (.inl rfl) (hS.left n hn) _ _ hs hs₁) hs₂)

theorem foldlM_invariant {α β : Type*} {f : β → α → Option β} {P : β → Prop} {l : List α}
    (hstep : ∀ b, ∀ a ∈ l, ∀ b', P b → f b a = some b' → P b') {b b' : β} (hb : P b)
    (h : l.foldlM f b = some b') : P b' := by
  induction l generalizing b with
  | nil =>
      obtain rfl := Option.some.inj h
      exact hb
  | cons a l ih =>
      simp only [List.foldlM_cons, Option.bind_eq_bind, Option.bind_eq_some_iff] at h
      obtain ⟨b₁, hb₁, h⟩ := h
      exact ih (fun b a ha => hstep b a (List.mem_cons_of_mem _ ha))
        (hstep b a List.mem_cons_self b₁ hb hb₁) h

theorem visitHashtab_near (hS : Closed S m₁ p) (hp : sizeofCacheStruct ≤ p)
    (hroots : ∀ i < cacheHashtabLen, get m₁ (hashtab i) = 0 ∨ S (get m₁ (hashtab i)))
    {fuel : Nat} {s s' : Mem × σ} (hs : Near p m₁ s.1)
    (h : visitHashtab add fuel s = some s') : Near p m₁ s'.1 := by
  refine foldlM_invariant (P := fun s => Near p m₁ s.1) ?_ hs h
  intro s i hi s' hs hstep
  have hlt := List.mem_range.mp hi
  have hstruct : sizeofCacheStruct = 16 + 4 * cacheHashtabLen := rfl
  rw [hs.get_eq (by simp only [Apart, hashtab]; omega)] at hstep
  split at hstep
  · next hne => exact visitTree_near add hS ((hroots i hlt).resolve_left hne) hs hstep
  · obtain rfl := Option.some.inj hstep
    exact hs

end ULib.JournalVisit
