import ULib.HashMapNoCase
import Mathlib.Algebra.GroupWithZero.Nat

/-!
The hash map of strings and its counter `_space`, which `UCDB::writeTo` takes
for the bytes of the keys and elements.
-/

namespace ULib.HashMapSpace

open ULib.KeyComparison
open ULib.LinkedChain
open ULib.HashCase
open ULib.HashMap (UHashMap allocated mallocNum callForAllEntry)
open ULib.HashMapShape
open ULib.HashMapIteration (entry)
open ULib.HashMapCase
open ULib.HashMapNoCase (keysOf equal_of_sameLetters)

/-- `UHashMap<UString>` -/
structure StringMap where
  map : UHashMap Bytes
  space : Nat

/-- The calls that change a map. The two that do no lookup come behind `find` of their key, and
`replaceAfterFind` only where it has found the key. -/
inductive Call where
  | insert (key str : Bytes)
  | insertAfterFind (key str : Bytes)
  | replaceAfterFind (key str : Bytes)
  | erase (key : Bytes)
  deriving DecidableEq

def step (ignoreCase : Bool) (t : StringMap) : Call → Option StringMap
  | .insert key str =>
      (HashMapCase.insert ignoreCase t.map key str).map fun s =>
        ⟨s, (t.space + (key.length + str.length)) % 2 ^ 32⟩
  | .insertAfterFind key str =>
      ((find ignoreCase t.map key).bind fun r => HashMap.insertAfterFind r.2 key str).map fun s =>
        { t with map := s }
  | .replaceAfterFind key str =>
      ((find ignoreCase t.map key).bind fun r =>
        if r.1 then HashMap.replaceAfterFind r.2 str else some r.2).map fun s => { t with map := s }
  | .erase key => (HashMapCase.erase ignoreCase t.map key).map fun r => { t with map := r.2 }

/-- The constructor and `allocate(n)`. -/
def empty (n : Nat) : StringMap := ⟨allocated n, 0⟩

def run (ignoreCase : Bool) (t : StringMap) (calls : List Call) : Option StringMap :=
  calls.foldlM (step ignoreCase) t

/-! ### The chains in a run -/

/-- A map whose size is the number of its nodes, and whose keys are in their slots and not repeated.
-/
structure Held (ignoreCase : Bool) (s : UHashMap Bytes) (chains : Nat → List (Cell Bytes)) :
    Prop where
  linked : Linked s chains
  length : s.length = (cells s.capacity chains).length % 2 ^ 32
  slots : ∀ i < s.capacity, ∀ key ∈ keysOf (chains i),
    (keyHash ignoreCase key).toNat % s.capacity = i
  keys : ∀ i < s.capacity, (keysOf (chains i)).Nodup

/-- The bytes of the keys and elements. -/
def bytes (cs : List (Cell Bytes)) : Nat :=
  (cs.map fun c => c.2.key.length + c.2.elem.length).sum

/-- The bytes that a call can add. -/
def Call.bytes : Call → Nat
  | .insert key str => key.length + str.length
  | .insertAfterFind key str => key.length + str.length
  | .replaceAfterFind key str => key.length + str.length
  | .erase _ => 0

theorem bytes_cons (c : Cell Bytes) (cs : List (Cell Bytes)) :
    bytes (c :: cs) = c.2.key.length + c.2.elem.length + bytes cs := rfl

theorem bytes_append (cs ds : List (Cell Bytes)) : bytes (cs ++ ds) = bytes cs + bytes ds := by
  rw [bytes, List.map_append, List.sum_append]
  rfl

theorem bytes_perm {cs ds : List (Cell Bytes)} (h : cs.Perm ds) : bytes cs = bytes ds :=
  (h.map _).sum_nat

/-- How a call changes the chain of its key: a node in front, another element, or one node less. -/
inductive Turn (ignoreCase : Bool) (key : Bytes) (added : Nat) (old : List (Cell Bytes))
    (length : Nat) : List (Cell Bytes) → Nat → Prop
  | push (a : Nat) (d : HashMap.NodeData Bytes) (hkey : d.key = key)
      (hbytes : d.key.length + d.elem.length ≤ added)
      (hnone : findEqual ignoreCase key old = none) :
      Turn ignoreCase key added old length ((a, d) :: old) ((length + 1) % 2 ^ 32)
  | keep (cs : List (Cell Bytes)) (hkeys : keysOf cs = keysOf old)
      (hbytes : bytes cs ≤ bytes old + added) :
      Turn ignoreCase key added old length cs length
  | drop (xs ys : List (Cell Bytes)) (c : Cell Bytes) (hold : old = xs ++ c :: ys) :
      Turn ignoreCase key added old length (xs ++ ys) ((length + 2 ^ 32 - 1) % 2 ^ 32)

theorem keysOf_middle (xs ys : List (Cell Bytes)) (c : Cell Bytes) (str : Bytes) :
    keysOf (xs ++ (c.1, { c.2 with elem := str }) :: ys) = keysOf (xs ++ c :: ys) := by
  rw [keysOf, keysOf, List.map_append, List.map_append]
  rfl

theorem bytes_middle (xs ys : List (Cell Bytes)) (c : Cell Bytes) (str : Bytes) :
    bytes (xs ++ (c.1, { c.2 with elem := str }) :: ys) ≤ bytes (xs ++ c :: ys) + str.length := by
  rw [bytes_append, bytes_append, bytes_cons, bytes_cons]
  dsimp only
  omega

theorem insert_turn {ignoreCase : Bool} {s : UHashMap Bytes} {chains : Nat → List (Cell Bytes)}
    (hs : Linked s chains) (key str : Bytes) {i : Nat}
    (hi : (keyHash ignoreCase key).toNat % s.capacity = i) :
    ∃ s' cs, HashMapCase.insert ignoreCase s key str = some s' ∧ s'.capacity = s.capacity ∧
      Linked s' (Function.update chains i cs) ∧
      Turn ignoreCase key (key.length + str.length) (chains i) s.length cs s'.length := by
  obtain ⟨s', cs, a, hinsert, hcapacity, -, -, hlinked, hcases⟩ :=
    insert_cases hs ignoreCase key str hi
  refine ⟨s', cs, hinsert, hcapacity, hlinked, ?_⟩
  rcases hcases with ⟨hnone, -, hlength, d, hkey, helem, rfl⟩ |
    ⟨xs, c, ys, -, -, hlength, hsplit, rfl⟩
  · rw [hlength]
    exact .push a d hkey (by rw [hkey, helem]) hnone
  · rw [hlength, hsplit]
    refine .keep _ (keysOf_middle xs ys c str) (Nat.le_trans (bytes_middle xs ys c str) ?_)
    omega

theorem find_insertAfterFind (ignoreCase : Bool) (s : UHashMap Bytes) (key str : Bytes) :
    ((find ignoreCase s key).bind fun r => HashMap.insertAfterFind r.2 key str) =
      HashMapCase.insert ignoreCase s key str := by
  rw [find, Option.bind_map]
  rfl

theorem replace_turn {ignoreCase : Bool} {s : UHashMap Bytes} {chains : Nat → List (Cell Bytes)}
    (hs : Linked s chains) (key str : Bytes) {i : Nat}
    (hi : (keyHash ignoreCase key).toNat % s.capacity = i) :
    ∃ s' cs, ((find ignoreCase s key).bind fun r =>
        if r.1 then HashMap.replaceAfterFind r.2 str else some r.2) = some s' ∧
      s'.capacity = s.capacity ∧ Linked s' (Function.update chains i cs) ∧
      Turn ignoreCase key (key.length + str.length) (chains i) s.length cs s'.length := by
  obtain ⟨s₁, hlookup, hsame, -, -⟩ := lookup_cases hs ignoreCase key hi
  by_cases hnode : s₁.node = 0
  · refine ⟨s₁, chains i, ?_, hsame.2.2.2.2, ?_, ?_⟩
    · rw [find, hlookup, Option.map_some, Option.bind_some]
      exact if_neg fun h => absurd hnode (of_decide_eq_true h)
    · rw [Function.update_eq_self]
      exact hs.sameMap hsame
    · rw [hsame.2.2.2.1]
      exact .keep _ rfl (Nat.le_add_right _ _)
  · -- with a node, it does what `insertAfterFind` does
    obtain ⟨s', cs, hinsert, hrest⟩ := @insert_turn ignoreCase _ _ hs key str _ hi
    refine ⟨s', cs, ?_, hrest⟩
    rw [HashMapCase.insert, hlookup, Option.bind_some, HashMap.insertAfterFind,
      if_neg hnode] at hinsert
    rw [find, hlookup, Option.map_some, Option.bind_some, HashMap.replaceAfterFind]
    exact (if_pos (decide_eq_true hnode)).trans hinsert

/-- What a call does to the chains. -/
theorem step_turn {ignoreCase : Bool} {t : StringMap} {chains : Nat → List (Cell Bytes)}
    (hs : Linked t.map chains) (call : Call) :
    ∃ t' key i cs, (keyHash ignoreCase key).toNat % t.map.capacity = i ∧
      step ignoreCase t call = some t' ∧ t'.map.capacity = t.map.capacity ∧
      Linked t'.map (Function.update chains i cs) ∧
      Turn ignoreCase key call.bytes (chains i) t.map.length cs t'.map.length := by
  cases call with
  | insert key str =>
      obtain ⟨s', cs, hinsert, hrest⟩ := @insert_turn ignoreCase _ _ hs key str _ rfl
      exact ⟨_, key, _, cs, rfl, by rw [step, hinsert]; rfl, hrest⟩
  | insertAfterFind key str =>
      obtain ⟨s', cs, hinsert, hrest⟩ := @insert_turn ignoreCase _ _ hs key str _ rfl
      rw [← find_insertAfterFind] at hinsert
      exact ⟨{ t with map := s' }, key, _, cs, rfl, by rw [step, hinsert]; rfl, hrest⟩
  | replaceAfterFind key str =>
      obtain ⟨s', cs, hreplace, hrest⟩ := @replace_turn ignoreCase _ _ hs key str _ rfl
      exact ⟨{ t with map := s' }, key, _, cs, rfl, by rw [step, hreplace]; rfl, hrest⟩
  | erase key =>
      obtain ⟨r, cs, herase, hcapacity, -, -, hlinked, hcases⟩ := erase_cases hs ignoreCase key rfl
      refine ⟨{ t with map := r.2 }, key, _, cs, rfl, by rw [step, herase]; rfl, hcapacity,
        hlinked, ?_⟩
      dsimp only
      rcases hcases with ⟨rfl, hlength⟩ | ⟨xs, c, ys, hsplit, rfl, hlength⟩
      · rw [hlength]
        exact .keep _ rfl (Nat.le_add_right _ _)
      · rw [hlength]
        exact .drop xs ys c hsplit

theorem equal_self (ignoreCase : Bool) (key : Bytes) : equal ignoreCase key key = true := by
  cases ignoreCase with
  | false => rw [equal_false, decide_eq_true rfl]
  | true => exact equal_of_sameLetters rfl

/-- A node with a key that the chain has not. -/
theorem not_mem_keysOf {ignoreCase : Bool} {key : Bytes} {cs : List (Cell Bytes)}
    (h : findEqual ignoreCase key cs = none) : key ∉ keysOf cs := by
  intro hmem
  obtain ⟨c, hc, rfl⟩ := List.mem_map.mp hmem
  exact List.find?_eq_none.mp h c hc (equal_self ignoreCase _)

section
variable {ignoreCase : Bool} {key : Bytes} {added : Nat} {old cs : List (Cell Bytes)}
  {length length' : Nat} (h : Turn ignoreCase key added old length cs length')
include h

theorem Turn.mem_keys : ∀ k ∈ keysOf cs, k = key ∨ k ∈ keysOf old := by
  intro k hk
  cases h with
  | push a d hkey hbytes hnone =>
      rcases List.mem_cons.mp hk with heq | hk
      · exact .inl (heq.trans hkey)
      · exact .inr hk
  | keep cs hsame hbytes => exact .inr (hsame ▸ hk)
  | drop xs ys c hsplit =>
      obtain ⟨d, hd, rfl⟩ := List.mem_map.mp hk
      refine .inr (List.mem_map_of_mem ?_)
      rw [hsplit]
      exact List.perm_middle.mem_iff.mpr (List.mem_cons_of_mem c hd)

theorem Turn.nodup (hold : (keysOf old).Nodup) : (keysOf cs).Nodup := by
  cases h with
  | push a d hkey hbytes hnone =>
      subst hkey
      exact List.nodup_cons.mpr ⟨not_mem_keysOf hnone, hold⟩
  | keep cs hsame hbytes => exact hsame ▸ hold
  | drop xs ys c hsplit =>
      rw [hsplit, keysOf, List.map_append, List.map_cons] at hold
      rw [keysOf, List.map_append]
      exact (List.nodup_cons.mp (List.nodup_middle.mp hold)).2

/-- The size follows the chain, `rest` being the number of the other nodes. -/
theorem Turn.length_eq {rest : Nat} (hlength : length = (old.length + rest) % 2 ^ 32) :
    length' = (cs.length + rest) % 2 ^ 32 := by
  cases h with
  | push a d hkey hbytes hnone =>
      rw [List.length_cons]
      omega
  | keep cs hsame hbytes =>
      have hcount := congrArg List.length hsame
      rw [keysOf, keysOf, List.length_map, List.length_map] at hcount
      rw [hcount, hlength]
  | drop xs ys c hsplit =>
      rw [hsplit, List.length_append, List.length_cons] at hlength
      rw [List.length_append]
      omega

theorem Turn.bytes_le : bytes cs ≤ bytes old + added := by
  cases h with
  | push a d hkey hbytes hnone =>
      rw [bytes_cons]
      dsimp only
      omega
  | keep cs hsame hbytes => exact hbytes
  | drop xs ys c hsplit =>
      rw [hsplit, bytes_append, bytes_append, bytes_cons]
      omega

end

theorem held_empty (ignoreCase : Bool) {n : Nat} (hn : 0 < mallocNum n) :
    Held ignoreCase (empty n).map fun _ => [] where
  linked := (HashMapNoCase.inserted_allocated hn).linked
  length := by
    simp only [cells, List.flatMap_eq_nil_iff.mpr fun _ _ => rfl, List.length_nil]
    rfl
  slots _ _ _ h := absurd h List.not_mem_nil
  keys _ _ := List.nodup_nil

/-- A step of a run. -/
theorem Held.step {ignoreCase : Bool} {t : StringMap} {chains : Nat → List (Cell Bytes)}
    (h : Held ignoreCase t.map chains) (call : Call) :
    ∃ t' chains', HashMapSpace.step ignoreCase t call = some t' ∧
      Held ignoreCase t'.map chains' ∧
      bytes (cells t'.map.capacity chains') ≤ bytes (cells t.map.capacity chains) + call.bytes := by
  obtain ⟨t', key, i, cs, hi, hstep, hcapacity, hlinked, hturn⟩ :=
    @step_turn ignoreCase _ _ h.linked call
  have hlt : i < t.map.capacity := hi ▸ Nat.mod_lt _ h.linked.cap_pos
  obtain ⟨rest, hperm, hupdate⟩ := cells_update_perm hlt chains
  refine ⟨t', _, hstep, ⟨hlinked, ?_, ?_, ?_⟩, ?_⟩
  · have hlength := h.length
    rw [hperm.length_eq, List.length_append] at hlength
    rw [hcapacity, (hupdate cs).length_eq, List.length_append]
    exact hturn.length_eq hlength
  · intro j hj k hk
    rw [hcapacity] at hj ⊢
    by_cases hji : j = i
    · subst hji
      rw [Function.update_self] at hk
      rcases hturn.mem_keys k hk with rfl | hk
      · exact hi
      · exact h.slots j hj k hk
    · rw [Function.update_of_ne hji] at hk
      exact h.slots j hj k hk
  · intro j hj
    rw [hcapacity] at hj
    by_cases hji : j = i
    · subst hji
      rw [Function.update_self]
      exact hturn.nodup (h.keys j hj)
    · rw [Function.update_of_ne hji]
      exact h.keys j hj
  · have hbytes := hturn.bytes_le
    rw [hcapacity, bytes_perm (hupdate cs), bytes_perm hperm, bytes_append, bytes_append]
    omega

theorem Held.run {ignoreCase : Bool} {t : StringMap} {chains : Nat → List (Cell Bytes)}
    (h : Held ignoreCase t.map chains) (calls : List Call) :
    ∃ t' chains', HashMapSpace.run ignoreCase t calls = some t' ∧
      Held ignoreCase t'.map chains' ∧
      bytes (cells t'.map.capacity chains') ≤
        bytes (cells t.map.capacity chains) + (calls.map Call.bytes).sum := by
  induction calls generalizing t chains with
  | nil => exact ⟨t, chains, rfl, h, Nat.le_add_right _ _⟩
  | cons call calls ih =>
      obtain ⟨t₁, chains₁, hstep, h₁, hbytes₁⟩ := h.step call
      obtain ⟨t', chains', hrun, h', hbytes⟩ := ih h₁
      refine ⟨t', chains', ?_, h', ?_⟩
      · rw [HashMapSpace.run, List.foldlM_cons, hstep]
        exact hrun
      · rw [List.map_cons, List.sum_cons]
        omega

/-- No key comes twice in the map. -/
theorem Held.keys_nodup {ignoreCase : Bool} {s : UHashMap Bytes} {chains : Nat → List (Cell Bytes)}
    (h : Held ignoreCase s chains) :
    (((cells s.capacity chains).map entry).map Prod.fst).Nodup := by
  have hkeys : ((cells s.capacity chains).map entry).map Prod.fst =
      (List.range s.capacity).flatMap fun i => keysOf (chains i) := by
    rw [List.map_map, cells, List.map_flatMap]
    rfl
  rw [hkeys, List.nodup_flatMap]
  refine ⟨fun i hi => h.keys i (List.mem_range.mp hi), ?_⟩
  refine List.nodup_range.imp_of_mem fun {i j} hi hj hij k hki hkj => hij ?_
  rw [← h.slots i (List.mem_range.mp hi) k hki, h.slots j (List.mem_range.mp hj) k hkj]

end ULib.HashMapSpace
