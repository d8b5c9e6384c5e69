import ULib.HashCase
import ULib.HashMapIteration

/-!
Hash maps that may ignore the case of their keys. The chains of such a map are
in order whatever the hash and the comparison say of the keys.
-/

namespace ULib.HashMapCase

open ULib.KeyComparison
open ULib.LinkedChain
open ULib.HashCase
open ULib.HashMap (UHashMap Node NodeData setNode setTable allocated insertAfterFind eraseAfterFind
  mallocNum callForAllEntry)
open ULib.HashMapShape

variable {β : Type*}

/-- `UStringRep::equal` -/
def equal (ignoreCase : Bool) (key rep : Bytes) : Bool :=
  key.length = rep.length ∧ uEqual key rep rep.length ignoreCase = 0

/-- The loop of `lookup`. -/
def lookupLoop (ignoreCase : Bool) (s : UHashMap β) (key : Bytes) : Nat → Nat → Option Nat
  | _, 0 => some 0
  | 0, _ + 1 => none
  | n + 1, p + 1 =>
      (s.heap (p + 1)).bind fun d =>
        if equal ignoreCase d.key key then some (p + 1)
        else lookupLoop ignoreCase s key n d.next

def lookup (ignoreCase : Bool) (s : UHashMap β) (key : Bytes) : Option (UHashMap β) :=
  if s.capacity = 0 then none
  else
    let hash := (keyHash ignoreCase key).toNat
    let index := hash % s.capacity
    (lookupLoop ignoreCase s key s.fresh (s.table index)).map fun node =>
      { s with hash := hash, index := index, node := node }

def find (ignoreCase : Bool) (s : UHashMap β) (key : Bytes) : Option (Bool × UHashMap β) :=
  (lookup ignoreCase s key).map fun s => (s.node ≠ 0, s)

def at' (ignoreCase : Bool) (s : UHashMap β) (key : Bytes) : Option (Option β × UHashMap β) :=
  (lookup ignoreCase s key).bind fun s =>
    if s.node = 0 then some (none, s) else (s.heap s.node).map fun d => (some d.elem, s)

def insert (ignoreCase : Bool) (s : UHashMap β) (key : Bytes) (elem : β) : Option (UHashMap β) :=
  (lookup ignoreCase s key).bind fun s => insertAfterFind s key elem

def erase (ignoreCase : Bool) (s : UHashMap β) (key : Bytes) :
    Option (Option β × UHashMap β) :=
  (lookup ignoreCase s key).bind fun s =>
    if s.node = 0 then some (none, s)
    else (s.heap s.node).bind fun d => (eraseAfterFind s).map fun s => (some d.elem, s)

/-- A run of insertions. -/
def insertAll (ignoreCase : Bool) (s : UHashMap β) (entries : List (Bytes × β)) :
    Option (UHashMap β) :=
  entries.foldlM (fun s e => insert ignoreCase s e.1 e.2) s

/-! ### With regard to case -/

theorem equal_false (key rep : Bytes) : equal false key rep = decide (key = rep) := by
  rw [equal]
  refine decide_eq_decide.mpr ⟨?_, ?_⟩
  · rintro ⟨hlength, hequal⟩
    rw [← hlength] at hequal
    exact (memcmp_eq_zero hlength).mp hequal
  · rintro rfl
    exact ⟨rfl, (memcmp_eq_zero rfl).mpr rfl⟩

theorem lookupLoop_false (s : UHashMap β) (key : Bytes) (n p : Nat) :
    lookupLoop false s key n p = HashMap.lookupLoop s key n p := by
  induction n generalizing p with
  | zero => cases p <;> rfl
  | succ n ih =>
      cases p with
      | zero => rfl
      | succ p => simp only [lookupLoop, HashMap.lookupLoop, equal_false, decide_eq_true_eq, ih]

/-- A map that does not ignore case is the one of `UHashMap`. -/
theorem lookup_false (s : UHashMap β) (key : Bytes) :
    lookup false s key = HashMap.lookup s key := by
  rw [lookup, HashMap.lookup]
  simp only [lookupLoop_false, keyHash, Bool.false_eq_true, if_false]

/-! ### Chains -/

/-- The entries are those of the chains, slot by slot. -/
theorem Linked.callForAllEntry_eq {s : UHashMap β} {chains : Nat → List (Cell β)}
    (hs : Linked s chains) :
    callForAllEntry s = some ((cells s.capacity chains).map HashMapIteration.entry) :=
  HashMapIteration.callSlots_spec hs fun _ => List.mem_range.mp

/-- The node that a chain has for a key. -/
def findEqual (ignoreCase : Bool) (key : Bytes) (cs : List (Cell β)) : Option (Cell β) :=
  cs.find? fun c => equal ignoreCase c.2.key key

theorem lookupLoop_spec (ignoreCase : Bool) (s : UHashMap β) (key : Bytes) (n : Nat) {p : Nat}
    {cs : List (Cell β)} (h : Chain (view s.heap) p cs) (hn : cs.length ≤ n) :
    lookupLoop ignoreCase s key n p = some ((findEqual ignoreCase key cs).elim 0 Prod.fst) := by
  induction cs generalizing p n with
  | nil =>
      obtain rfl : p = 0 := h
      cases n <;> rfl
  | cons c cs ih =>
      obtain ⟨rfl, hc, q, hq, hrest⟩ := h
      obtain ⟨k, hk⟩ := Nat.exists_eq_succ_of_ne_zero hc
      cases n with
      | zero => exact absurd hn (Nat.not_succ_le_zero _)
      | succ n =>
          have hheap := view_eq_some hq
          rw [hk] at hheap ⊢
          rw [lookupLoop, hheap, Option.bind_some, findEqual, List.find?_cons]
          cases hequal : equal ignoreCase c.2.key key with
          | true => exact congrArg some hk.symm
          | false => exact ih n hrest (Nat.le_of_succ_le_succ hn)

/-- `lookup` leaves the slot of the key and its node there. -/
theorem lookup_spec {s : UHashMap β} {chains : Nat → List (Cell β)} (hs : Linked s chains)
    (ignoreCase : Bool) (key : Bytes) :
    lookup ignoreCase s key = some
      { s with
        hash := (keyHash ignoreCase key).toNat
        index := (keyHash ignoreCase key).toNat % s.capacity
        node := (findEqual ignoreCase key
          (chains ((keyHash ignoreCase key).toNat % s.capacity))).elim 0 Prod.fst } := by
  have hi := Nat.mod_lt (keyHash ignoreCase key).toNat hs.cap_pos
  rw [lookup, if_neg (Nat.ne_of_gt hs.cap_pos)]
  dsimp only
  rw [lookupLoop_spec ignoreCase s key s.fresh (hs.linked _ hi) (hs.chain_length hi),
    Option.map_some]

/-- What the cursor stands on after `lookup`. -/
theorem lookup_cases {s : UHashMap β} {chains : Nat → List (Cell β)} (hs : Linked s chains)
    (ignoreCase : Bool) (key : Bytes) {i : Nat}
    (hi : (keyHash ignoreCase key).toNat % s.capacity = i) :
    ∃ s₁, lookup ignoreCase s key = some s₁ ∧ SameMap s s₁ ∧ s₁.index = i ∧
      s₁.node = (findEqual ignoreCase key (chains i)).elim 0 Prod.fst := by
  subst hi
  exact ⟨_, lookup_spec hs ignoreCase key, ⟨rfl, rfl, rfl, rfl, rfl⟩, rfl, rfl⟩

/-! ### Insertion -/

/-- Insertion puts a node in front of the chain of the key, unless the chain has one whose key is
equal. Only that node of the heap is changed. -/
theorem insert_cases {s : UHashMap β} {chains : Nat → List (Cell β)} (hs : Linked s chains)
    (ignoreCase : Bool) (key : Bytes) (elem : β) {i : Nat}
    (hi : (keyHash ignoreCase key).toNat % s.capacity = i) :
    ∃ s' cs a, insert ignoreCase s key elem = some s' ∧ s'.capacity = s.capacity ∧
      s.fresh ≤ s'.fresh ∧ (∀ p, p ≠ a → s'.heap p = s.heap p) ∧
      Linked s' (Function.update chains i cs) ∧
      ((findEqual ignoreCase key (chains i) = none ∧ a = s.fresh ∧
          s'.length = (s.length + 1) % 2 ^ 32 ∧
          ∃ d, d.key = key ∧ d.elem = elem ∧ cs = (a, d) :: chains i) ∨
        ∃ xs c ys, findEqual ignoreCase key (chains i) = some c ∧ a = c.1 ∧
          s'.length = s.length ∧
          chains i = xs ++ c :: ys ∧ cs = xs ++ (c.1, { c.2 with elem := elem }) :: ys) := by
  obtain ⟨s₁, hlookup, hsame, hindex, hnode⟩ := lookup_cases hs ignoreCase key hi
  have h₁ := hs.sameMap hsame
  obtain ⟨hheap, -, hfresh, hlength, hcapacity⟩ := hsame
  have hlt : i < s₁.capacity := by
    rw [hcapacity, ← hi]
    exact Nat.mod_lt _ hs.cap_pos
  rw [insert, hlookup, Option.bind_some, insertAfterFind]
  cases hfind : findEqual ignoreCase key (chains i) with
  | none =>
      rw [hfind] at hnode
      have haddr : ∀ c ∈ cells s₁.capacity chains, c.1 ≠ s₁.fresh := by
        intro c hc
        obtain ⟨j, hj, hc⟩ := mem_cells.mp hc
        exact (h₁.below j hj c hc).ne
      obtain ⟨hpush, -⟩ := h₁.push hlt ⟨elem, key, s₁.hash⟩ h₁.fresh_pos.ne' (Nat.lt_succ_self _)
        (Nat.le_succ _) haddr s₁.fresh ((s₁.length + 1) % 2 ^ 32)
      rw [← hindex] at hpush ⊢
      refine ⟨_, _, s₁.fresh, if_pos hnode, hcapacity, ?_, ?_, hpush,
        .inl ⟨rfl, hfresh, congrArg (fun n => (n + 1) % 2 ^ 32) hlength, _, rfl, rfl, rfl⟩⟩
      · rw [← hfresh]
        exact Nat.le_succ _
      · intro p hp
        rw [← hheap]
        exact Function.update_of_ne hp _ _
  | some c =>
      rw [hfind] at hnode
      have hmem := List.mem_of_find?_eq_some hfind
      obtain ⟨xs, ys, hsplit⟩ := List.append_of_mem hmem
      obtain ⟨q, hq, hoverwrite⟩ := h₁.overwrite hlt hsplit elem
      have hc : s₁.node ≠ 0 := hnode ▸ (h₁.linked _ hlt).ne_zero c hmem
      have hcell : s₁.heap s₁.node = some ⟨c.2, q⟩ := hnode ▸ hq
      refine ⟨setNode s₁ c.1 (some ⟨{ c.2 with elem := elem }, q⟩), _, c.1, ?_, hcapacity,
        hfresh.ge, ?_, hoverwrite,
        .inr ⟨xs, c, ys, rfl, rfl, hlength, hsplit, rfl⟩⟩
      · rw [if_neg hc, hcell, hnode]
        rfl
      · intro p hp
        rw [← hheap]
        exact Function.update_of_ne hp _ _

/-! ### Deletion -/

/-- What `at` returns is the element of the node that the chain has for the key. -/
theorem at_spec {s : UHashMap β} {chains : Nat → List (Cell β)} (hs : Linked s chains)
    (ignoreCase : Bool) (key : Bytes) {i : Nat}
    (hi : (keyHash ignoreCase key).toNat % s.capacity = i) :
    (at' ignoreCase s key).map Prod.fst =
      some ((findEqual ignoreCase key (chains i)).map fun c => c.2.elem) := by
  have hlt : i < s.capacity := hi ▸ Nat.mod_lt _ hs.cap_pos
  obtain ⟨s₁, hlookup, hsame, -, hnode⟩ := lookup_cases hs ignoreCase key hi
  rw [at', hlookup, Option.bind_some]
  cases hfind : findEqual ignoreCase key (chains i) with
  | none =>
      rw [hfind, Option.elim_none] at hnode
      rw [if_pos hnode]
      rfl
  | some c =>
      have hmem := List.mem_of_find?_eq_some hfind
      obtain ⟨q, hq⟩ := hs.heap_eq hlt hmem
      rw [hfind] at hnode
      have hc : s₁.node ≠ 0 := hnode ▸ (hs.linked i hlt).ne_zero c hmem
      rw [if_neg hc, hsame.1, hnode, Option.elim_some, hq]
      rfl

/-- Deletion takes the node of the key out of its chain, if there is one. Only nodes of that chain
are changed. -/
theorem erase_cases {s : UHashMap β} {chains : Nat → List (Cell β)} (hs : Linked s chains)
    (ignoreCase : Bool) (key : Bytes) {i : Nat}
    (hi : (keyHash ignoreCase key).toNat % s.capacity = i) :
    ∃ r cs, erase ignoreCase s key = some r ∧ r.2.capacity = s.capacity ∧ r.2.fresh = s.fresh ∧
      (∀ p, (∀ c ∈ chains i, c.1 ≠ p) → r.2.heap p = s.heap p) ∧
      Linked r.2 (Function.update chains i cs) ∧
      ((cs = chains i ∧ r.2.length = s.length) ∨
        ∃ xs c ys, chains i = xs ++ c :: ys ∧ cs = xs ++ ys ∧
          r.2.length = (s.length + 2 ^ 32 - 1) % 2 ^ 32) := by
  obtain ⟨s₁, hlookup, hsame, hindex, hnode⟩ := lookup_cases hs ignoreCase key hi
  have h₁ := hs.sameMap hsame
  obtain ⟨hheap, -, hfresh, hlength, hcapacity⟩ := hsame
  have hlt : i < s₁.capacity := by
    rw [hcapacity, ← hi]
    exact Nat.mod_lt _ hs.cap_pos
  rw [erase, hlookup, Option.bind_some]
  cases hfind : findEqual ignoreCase key (chains i) with
  | none =>
      rw [hfind] at hnode
      refine ⟨_, chains i, if_pos hnode, hcapacity, hfresh, fun p _ => congrFun hheap p, ?_,
        .inl ⟨rfl, hlength⟩⟩
      rw [Function.update_eq_self]
      exact h₁
  | some c =>
      rw [hfind] at hnode
      have hmem := List.mem_of_find?_eq_some hfind
      obtain ⟨xs, ys, hsplit⟩ := List.append_of_mem hmem
      have hc : s₁.node ≠ 0 := hnode ▸ (h₁.linked _ hlt).ne_zero c hmem
      obtain ⟨q, hq⟩ := h₁.heap_eq hlt hmem
      have hcell : s₁.heap s₁.node = some ⟨c.2, q⟩ := hnode ▸ hq
      subst hindex
      obtain ⟨s₂, hunlink, h₂, -, hframe, hnode₂⟩ := h₁.unlink hlt hsplit hnode
      obtain ⟨hfresh₂, hlength₂, hcapacity₂⟩ := hframe.same
      -- the node is not in the chains any more when it is deleted
      have hgone : ∀ j < s₂.capacity, ∀ d ∈ Function.update chains s₁.index (xs ++ ys) j,
          d.1 ≠ c.1 := by
        intro j hj d hd
        rw [hcapacity₂] at hj
        by_cases hji : j = s₁.index
        · subst hji
          rw [Function.update_self] at hd
          exact h₁.middle_ne hlt hsplit d hd
        · rw [Function.update_of_ne hji] at hd
          exact h₁.other_ne hlt hj hji hd hmem
      refine ⟨(some c.2.elem, { setNode s₂ s₂.node none with
          length := (s₂.length + 2 ^ 32 - 1) % 2 ^ 32 }), xs ++ ys, ?_, hcapacity₂.trans hcapacity,
        hfresh₂.trans hfresh, ?_, ?_, .inr ⟨xs, c, ys, hsplit, rfl, ?_⟩⟩
      · rw [if_neg hc, hcell, Option.bind_some, eraseAfterFind, hunlink]
        rfl
      · intro p hp
        rw [← hheap, ← hframe.heap p hp]
        refine Function.update_of_ne ?_ _ _
        rw [hnode₂, hnode]
        exact (hp c hmem).symm
      · refine ⟨h₂.cap_pos, h₂.fresh_pos, fun j hj => ?_, h₂.below, h₂.addrs⟩
        refine (h₂.linked j hj).congr fun d hd => view_update_of_ne _ ?_
        rw [hnode₂, hnode]
        exact hgone j hj d hd
      · dsimp only
        rw [hlength₂, hlength]

end ULib.HashMapCase
