import Mathlib.Data.List.Nodup
import Mathlib.Data.List.Range
import Mathlib.Data.List.TakeDrop
import Mathlib.Data.List.TakeWhile
import Mathlib.Logic.Function.Basic
import Mathlib.Algebra.Group.Nat.Defs
import Mathlib.Tactic.Common
import ULib.HashMap

/-!
The class `UGenericHashMap` of `container/gen_hash_map.h`, with keys of type
`int` that are descriptors. A chain is the list of its nodes with their
addresses; a node that is in no chain has been deleted, and to go through a
null pointer or a deleted node is undefined. The hash that a node keeps is read
by `reserve` alone and left out.
-/

namespace ULib.GenericHashMap

open ULib.HashMap (mallocNum)

/-- `UHashCodeFunctor<int>`. -/
def hashcode (fd : Nat) : Nat :=
  let fd := UInt32.ofNat fd
  (fd + ((fd >>> 2) ||| (fd <<< 30))).toNat

structure HashMapNode (ι : Type*) where
  address : Nat
  key : Nat
  item : ι

structure UGenericHashMap (ι : Type*) where
  table : Nat → List (HashMapNode ι)
  length : Nat
  capacity : Nat
  index : Nat
  node : Option Nat
  /-- The address that `new` returns next. -/
  fresh : Nat

variable {ι : Type*}

/-- The constructor and `allocate(n)`. -/
def allocated (n : Nat) : UGenericHashMap ι :=
  { table := fun _ => []
    length := 0
    capacity := mallocNum n
    index := 0
    node := none
    fresh := 1 }

def lookup (m : UGenericHashMap ι) (key : Nat) : UGenericHashMap ι :=
  let index := hashcode key % m.capacity
  { m with
    index := index
    node := ((m.table index).find? fun c => c.key = key).map (·.address) }

def find (m : UGenericHashMap ι) (key : Nat) : Bool × UGenericHashMap ι :=
  let m := lookup m key
  (m.node.isSome, m)

def elem (m : UGenericHashMap ι) : Option ι :=
  m.node.bind fun a => ((m.table m.index).find? fun c => c.address = a).map (·.item)

/-- The loop of `eraseAfterFind`. -/
def moveToFront (chain : List (HashMapNode ι)) (a : Nat) : List (HashMapNode ι) :=
  match chain.span fun c => c.address ≠ a with
  | (front, c :: back) => c :: (front ++ back)
  | (front, []) => front

def eraseAfterFind (m : UGenericHashMap ι) : Option (UGenericHashMap ι) :=
  m.node.bind fun a =>
    match moveToFront (m.table m.index) a with
    | c :: chain =>
        if c.address = a then
          some { m with
            table := Function.update m.table m.index chain
            length := (m.length + 2 ^ 32 - 1) % 2 ^ 32 }
        else none
    | [] => none

def insertAfterFind (m : UGenericHashMap ι) (key : Nat) (elem : ι) : UGenericHashMap ι :=
  { m with
    table := Function.update m.table m.index (⟨m.fresh, key, elem⟩ :: m.table m.index)
    node := some m.fresh
    fresh := m.fresh + 1
    length := (m.length + 1) % 2 ^ 32 }

def insert (m : UGenericHashMap ι) (key : Nat) (item : ι) : UGenericHashMap ι :=
  insertAfterFind (lookup m key) key item

def erase (m : UGenericHashMap ι) (key : Nat) : Option (Bool × UGenericHashMap ι) :=
  let m := lookup m key
  if m.node.isSome then (eraseAfterFind m).map fun m => (true, m) else some (false, m)

/-- The loop of `first` and `next` over the table, `n` slots from `i` on. -/
def scan (m : UGenericHashMap ι) : Nat → Nat → Bool × UGenericHashMap ι
  | 0, i => (false, { m with index := i })
  | n + 1, i =>
      match m.table i with
      | [] => scan m n (i + 1)
      | c :: _ => (true, { m with index := i, node := some c.address })

def first (m : UGenericHashMap ι) : Bool × UGenericHashMap ι := scan m m.capacity 0

def next (m : UGenericHashMap ι) : Option (Bool × UGenericHashMap ι) :=
  m.node.bind fun a =>
    match (m.table m.index).dropWhile fun c => c.address ≠ a with
    | [] => none
    | [_] => some (scan { m with node := none } (m.capacity - (m.index + 1)) (m.index + 1))
    | _ :: c :: _ => some (true, { m with node := some c.address })

/-! ### The entries -/

/-- The item of a key. -/
def get (m : UGenericHashMap ι) (key : Nat) : Option ι :=
  ((m.table (hashcode key % m.capacity)).find? fun c => c.key = key).map (·.item)

/-- Every node lies in the slot of its key; keys and addresses are unique in a chain, and no node
has the address that comes next. -/
structure Shape (m : UGenericHashMap ι) : Prop where
  cap_pos : 0 < m.capacity
  slot : ∀ i, ∀ c ∈ m.table i, hashcode c.key % m.capacity = i
  keys : ∀ i, ((m.table i).map (·.key)).Nodup
  addrs : ∀ i, ((m.table i).map (·.address)).Nodup
  below : ∀ i, ∀ c ∈ m.table i, c.address < m.fresh

theorem shape_allocated {n : Nat} (hn : 0 < mallocNum n) : Shape (allocated n : UGenericHashMap ι) where
  cap_pos := hn
  slot := by simp [allocated]
  keys := by simp [allocated]
  addrs := by simp [allocated]
  below := by simp [allocated]

theorem get_allocated (n key : Nat) : get (allocated n : UGenericHashMap ι) key = none := rfl

/-- A node of a list in which a projection is unique is the one found by it. -/
theorem find?_of_mem {α : Type*} (f : α → Nat) {cs : List α} (hnodup : (cs.map f).Nodup) {c : α}
    (hc : c ∈ cs) : (cs.find? fun d => f d = f c) = some c := by
  induction cs with
  | nil => cases hc
  | cons d cs ih =>
      rw [List.map_cons, List.nodup_cons] at hnodup
      rcases List.mem_cons.mp hc with rfl | hc
      · exact List.find?_cons_of_pos (by simp)
      · have hne : f d ≠ f c := fun h => hnodup.1 (h ▸ List.mem_map_of_mem hc)
        rw [List.find?_cons_of_neg (by simpa using hne)]
        exact ih hnodup.2 hc

section
variable {m : UGenericHashMap ι} (hm : Shape m)
include hm

theorem Shape.get_of_mem {i : Nat} {c : HashMapNode ι} (hc : c ∈ m.table i) :
    get m c.key = some c.item := by
  rw [get, hm.slot i c hc, find?_of_mem (·.key) (hm.keys i) hc]
  rfl

omit hm in
theorem mem_of_get {key : Nat} {item : ι} (h : get m key = some item) :
    ∃ c ∈ m.table (hashcode key % m.capacity), c.key = key ∧ c.item = item := by
  obtain ⟨c, hc, rfl⟩ := Option.map_eq_some_iff.mp h
  exact ⟨c, List.mem_of_find?_eq_some hc, by simpa using List.find?_some hc, rfl⟩

/-- What `lookup` finds is read through the cursor. -/
theorem Shape.elem_lookup (key : Nat) : elem (lookup m key) = get m key := by
  rw [elem, lookup, get]
  cases hfind : (m.table (hashcode key % m.capacity)).find? fun c => c.key = key with
  | none => rfl
  | some c =>
      simp only [Option.map_some, Option.bind_some]
      rw [find?_of_mem (·.address) (hm.addrs _) (List.mem_of_find?_eq_some hfind)]
      rfl

omit hm in
theorem isSome_lookup (key : Nat) : (lookup m key).node.isSome = (get m key).isSome := by
  rw [lookup, get, Option.isSome_map, Option.isSome_map]

omit hm in
theorem get_update (chain : List (HashMapNode ι)) (i key : Nat) :
    get { m with table := Function.update m.table i chain } key =
      if hashcode key % m.capacity = i then (chain.find? fun c => c.key = key).map (·.item)
      else get m key := by
  rw [get, get]
  dsimp only
  split_ifs with hi
  · rw [hi, Function.update_self]
  · rw [Function.update_of_ne hi]

end

/-- One chain is changed. -/
theorem Shape.update {m m' : UGenericHashMap ι} (hm : Shape m) {i : Nat}
    {chain : List (HashMapNode ι)} (htable : m'.table = Function.update m.table i chain)
    (hcapacity : m'.capacity = m.capacity) (hfresh : m.fresh ≤ m'.fresh)
    (hslot : ∀ c ∈ chain, hashcode c.key % m.capacity = i) (hkeys : (chain.map (·.key)).Nodup)
    (haddrs : (chain.map (·.address)).Nodup) (hbelow : ∀ c ∈ chain, c.address < m'.fresh) :
    Shape m' := by
  have hall : ∀ P : Nat → List (HashMapNode ι) → Prop, (∀ j, P j (m.table j)) → P i chain →
      ∀ j, P j (m'.table j) := by
    intro P hold hnew j
    rw [htable]
    rcases eq_or_ne j i with rfl | hj
    · rwa [Function.update_self]
    · rw [Function.update_of_ne hj]
      exact hold j
  refine ⟨?_, ?_, ?_, ?_, ?_⟩
  · rw [hcapacity]
    exact hm.cap_pos
  · rw [hcapacity]
    exact hall (fun j cs => ∀ c ∈ cs, hashcode c.key % m.capacity = j) hm.slot hslot
  · exact hall (fun _ cs => (cs.map (·.key)).Nodup) hm.keys hkeys
  · exact hall (fun _ cs => (cs.map (·.address)).Nodup) hm.addrs haddrs
  · exact hall (fun _ cs => ∀ c ∈ cs, c.address < m'.fresh)
      (fun j c hc => Nat.lt_of_lt_of_le (hm.below j c hc) hfresh) hbelow

section
variable {m : UGenericHashMap ι} (hm : Shape m)
include hm

theorem Shape.insert {key : Nat} (hnone : get m key = none) (item : ι) :
    Shape (insert m key item) := by
  have hkeys : ∀ c ∈ m.table (hashcode key % m.capacity), c.key ≠ key := by
    intro c hc
    simpa using List.find?_eq_none.mp (Option.map_eq_none_iff.mp hnone) c hc
  refine @Shape.update _ m _ hm (hashcode key % m.capacity)
    (⟨m.fresh, key, item⟩ :: m.table (hashcode key % m.capacity)) rfl rfl (Nat.le_succ m.fresh) ?_ ?_ ?_ ?_
  · exact List.forall_mem_cons.mpr ⟨rfl, hm.slot _⟩
  · rw [List.map_cons, List.nodup_cons]
    refine ⟨fun hmem => ?_, hm.keys _⟩
    obtain ⟨c, hc, hkey⟩ := List.mem_map.mp hmem
    exact hkeys c hc hkey
  · rw [List.map_cons, List.nodup_cons]
    refine ⟨fun hmem => ?_, hm.addrs _⟩
    obtain ⟨c, hc, haddr⟩ := List.mem_map.mp hmem
    exact absurd haddr (Nat.ne_of_lt (hm.below _ c hc))
  · exact List.forall_mem_cons.mpr
      ⟨Nat.lt_succ_self _, fun c hc => Nat.lt_succ_of_lt (hm.below _ c hc)⟩

omit hm in
theorem get_insert (key : Nat) (item : ι) :
    get (GenericHashMap.insert m key item) = Function.update (get m) key (some item) := by
  funext k
  refine (get_update (m := m) _ (hashcode key % m.capacity) k).trans ?_
  rcases eq_or_ne k key with rfl | hk
  · rw [if_pos rfl, Function.update_self, List.find?_cons_of_pos (by simp)]
    rfl
  · rw [Function.update_of_ne hk, List.find?_cons_of_neg (by simpa using hk.symm)]
    split_ifs with hslot
    · rw [get, hslot]
      rfl
    · rfl

omit hm in
theorem moveToFront_append {xs ys : List (HashMapNode ι)} {c : HashMapNode ι}
    (hxs : ∀ d ∈ xs, d.address ≠ c.address) :
    moveToFront (xs ++ c :: ys) c.address = c :: (xs ++ ys) := by
  have htake : (xs ++ c :: ys).takeWhile (fun d => decide (d.address ≠ c.address)) = xs := by
    rw [List.takeWhile_append_of_pos (by simpa using hxs), List.takeWhile_cons_of_neg (by simp),
      List.append_nil]
  have hdrop : (xs ++ c :: ys).dropWhile (fun d => decide (d.address ≠ c.address)) = c :: ys := by
    rw [List.dropWhile_append_of_pos (by simpa using hxs), List.dropWhile_cons_of_neg (by simp)]
  rw [moveToFront, List.span_eq_takeWhile_dropWhile, htake, hdrop]

omit hm in
theorem address_ne_of_nodup {xs ys : List (HashMapNode ι)} {c : HashMapNode ι}
    (h : ((xs ++ c :: ys).map (·.address)).Nodup) : ∀ d ∈ xs ++ ys, d.address ≠ c.address := by
  rw [List.map_append, List.map_cons, List.nodup_middle, List.nodup_cons] at h
  intro d hd heq
  refine h.1 ?_
  rw [← heq, ← List.map_append]
  exact List.mem_map_of_mem hd

/-- `erase` takes one node out of its chain, and the cursor is left on it. -/
theorem Shape.erase_eq {key : Nat} {item : ι} (h : get m key = some item) :
    ∃ xs c ys m', m.table (hashcode key % m.capacity) = xs ++ c :: ys ∧ c.key = key ∧
      erase m key = some (true, m') ∧
      m'.table = Function.update m.table (hashcode key % m.capacity) (xs ++ ys) ∧
      m'.capacity = m.capacity ∧ m'.fresh = m.fresh ∧ m'.index = hashcode key % m.capacity ∧
      m'.node = some c.address := by
  obtain ⟨c, hc, hkey, -⟩ := mem_of_get h
  obtain ⟨xs, ys, hchain⟩ := List.append_of_mem hc
  have hfind : (m.table (hashcode key % m.capacity)).find? (fun d => d.key = key) = some c := by
    subst hkey
    exact find?_of_mem (·.key) (hm.keys _) hc
  have haddrs := hm.addrs (hashcode key % m.capacity)
  rw [hchain] at haddrs
  rw [hchain] at hfind
  have hfront : moveToFront (xs ++ c :: ys) c.address = c :: (xs ++ ys) :=
    moveToFront_append fun d hd => address_ne_of_nodup haddrs d (List.mem_append_left ys hd)
  refine ⟨xs, c, ys, { GenericHashMap.lookup m key with
    table := Function.update m.table (hashcode key % m.capacity) (xs ++ ys)
    length := (m.length + 2 ^ 32 - 1) % 2 ^ 32 }, hchain, hkey, ?_, rfl, rfl, rfl, rfl, ?_⟩
  · simp only [GenericHashMap.erase, eraseAfterFind, GenericHashMap.lookup, hchain, hfind,
      Option.map_some, Option.isSome_some, if_true, Option.bind_some, hfront]
  · simp only [GenericHashMap.lookup, hchain, hfind, Option.map_some]

/-- `erase`: the entry is gone, and the cursor stands on a deleted node. -/
theorem Shape.erase {key : Nat} {item : ι} (h : get m key = some item) :
    ∃ m', erase m key = some (true, m') ∧ Shape m' ∧ m'.capacity = m.capacity ∧
      get m' = Function.update (get m) key none ∧ next m' = none := by
  obtain ⟨xs, c, ys, m', hchain, rfl, herase, htable, hcapacity, hfresh, hindex, hnode⟩ :=
    hm.erase_eq h
  have hsub : (xs ++ ys).Sublist (m.table (hashcode c.key % m.capacity)) := by
    rw [hchain]
    exact (List.sublist_cons_self c ys).append_left xs
  have hkeys := hm.keys (hashcode c.key % m.capacity)
  have haddrs := hm.addrs (hashcode c.key % m.capacity)
  refine ⟨m', herase, ?_, hcapacity, ?_, ?_⟩
  · refine hm.update htable hcapacity hfresh.ge (fun d hd => hm.slot _ d (hsub.subset hd))
      (hkeys.sublist (hsub.map _)) (haddrs.sublist (hsub.map _)) fun d hd => ?_
    rw [hfresh]
    exact hm.below _ d (hsub.subset hd)
  · funext k
    have hget : get m' k = get { m with
        table := Function.update m.table (hashcode c.key % m.capacity) (xs ++ ys) } k := by
      rw [get, get, htable, hcapacity]
    rw [hget, get_update]
    rcases eq_or_ne k c.key with rfl | hk
    · rw [if_pos rfl, Function.update_self, Option.map_eq_none_iff, List.find?_eq_none]
      rw [hchain, List.map_append, List.map_cons, List.nodup_middle, List.nodup_cons,
        ← List.map_append] at hkeys
      intro d hd
      have hne : d.key ≠ c.key := fun heq => hkeys.1 (heq ▸ List.mem_map_of_mem hd)
      simpa using hne
    · rw [Function.update_of_ne hk]
      split_ifs with hslot
      · rw [get, hslot, hchain, List.find?_append, List.find?_append,
          List.find?_cons_of_neg (by simpa using hk.symm)]
      · rfl
  · rw [hchain] at haddrs
    have hdrop : (xs ++ ys).dropWhile (fun d => decide (d.address ≠ c.address)) = [] := by
      rw [List.dropWhile_eq_nil_iff]
      intro d hd
      simpa using address_ne_of_nodup haddrs d hd
    rw [next, hnode, Option.bind_some, hindex, htable, Function.update_self, hdrop]

end

/-! ### An item is changed in its place -/

/-- The item of a key is another one. -/
def replace (m : UGenericHashMap ι) (key : Nat) (item : ι) : UGenericHashMap ι :=
  { m with
    table := fun i => (m.table i).map fun c => if c.key = key then { c with item := item } else c }

theorem map_replace {α : Type*} (f : HashMapNode ι → α) (key : Nat) (item : ι)
    (hf : ∀ c, f { c with item := item } = f c) (chain : List (HashMapNode ι)) :
    (chain.map fun c => if c.key = key then { c with item := item } else c).map f =
      chain.map f := by
  rw [List.map_map]
  apply List.map_congr_left
  intro c _
  rw [Function.comp_apply, apply_ite f, hf, ite_self]

theorem mem_replace {key : Nat} {item : ι} {chain : List (HashMapNode ι)} {c : HashMapNode ι}
    (hc : c ∈ chain.map fun c => if c.key = key then { c with item := item } else c) :
    ∃ d ∈ chain, d.key = c.key ∧ d.address = c.address := by
  obtain ⟨d, hd, rfl⟩ := List.mem_map.mp hc
  refine ⟨d, hd, ?_, ?_⟩ <;> split_ifs <;> rfl

theorem Shape.replace {m : UGenericHashMap ι} (hm : Shape m) (key : Nat) (item : ι) :
    Shape (replace m key item) where
  cap_pos := hm.cap_pos
  slot := by
    intro i c hc
    obtain ⟨d, hd, hkey, -⟩ := mem_replace hc
    rw [← hkey]
    exact hm.slot i d hd
  keys := by
    intro i
    rw [GenericHashMap.replace, map_replace (·.key) key item fun _ => rfl]
    exact hm.keys i
  addrs := by
    intro i
    rw [GenericHashMap.replace, map_replace (·.address) key item fun _ => rfl]
    exact hm.addrs i
  below := by
    intro i c hc
    obtain ⟨d, hd, -, haddress⟩ := mem_replace hc
    rw [← haddress]
    exact hm.below i d hd

theorem get_replace {m : UGenericHashMap ι} {key : Nat} {old : ι} (h : get m key = some old)
    (item : ι) : get (replace m key item) = Function.update (get m) key (some item) := by
  funext k
  have hfind : get (replace m key item) k =
      (((m.table (hashcode k % m.capacity)).find? fun c => c.key = k).map fun c =>
        if c.key = key then { c with item := item } else c).map (·.item) := by
    rw [get, replace, List.find?_map]
    congr 3
    funext c
    rw [Function.comp_apply]
    split_ifs <;> rfl
  rw [hfind]
  rcases eq_or_ne k key with rfl | hk
  · obtain ⟨c, hc, -⟩ := Option.map_eq_some_iff.mp h
    have hkey : c.key = k := by simpa using List.find?_some hc
    rw [Function.update_self, hc, Option.map_some, if_pos hkey, Option.map_some]
  · rw [Function.update_of_ne hk, get]
    cases hc : (m.table (hashcode k % m.capacity)).find? fun c => c.key = k with
    | none => rfl
    | some c =>
        have hkey : c.key = k := by simpa using List.find?_some hc
        rw [Option.map_some, if_neg (hkey.trans_ne hk), Option.map_some]

/-! ### The cursor -/

/-- The nodes of `n` slots from `i` on. -/
def slots (m : UGenericHashMap ι) (n i : Nat) : List (HashMapNode ι) :=
  (List.range' i n).flatMap m.table

/-- All nodes in the order in which `first` and `next` come to them. -/
def nodes (m : UGenericHashMap ι) : List (HashMapNode ι) := slots m m.capacity 0

/-- Two maps that differ in the cursor only. -/
structure SameEntries (m m' : UGenericHashMap ι) : Prop where
  table : m'.table = m.table
  capacity : m'.capacity = m.capacity
  fresh : m'.fresh = m.fresh

/-- The cursor stands on `c`, and the nodes `rest` come behind it. -/
def Stands (m : UGenericHashMap ι) (c : HashMapNode ι) (rest : List (HashMapNode ι)) : Prop :=
  ∃ front back, m.table m.index = front ++ c :: back ∧ m.node = some c.address ∧
    rest = back ++ slots m (m.capacity - (m.index + 1)) (m.index + 1)

theorem SameEntries.trans {m m' m'' : UGenericHashMap ι} (h : SameEntries m m')
    (h' : SameEntries m' m'') : SameEntries m m'' :=
  ⟨h'.table.trans h.table, h'.capacity.trans h.capacity, h'.fresh.trans h.fresh⟩

theorem SameEntries.get_eq {m m' : UGenericHashMap ι} (h : SameEntries m m') : get m' = get m := by
  funext key
  rw [get, get, h.table, h.capacity]

theorem SameEntries.nodes_eq {m m' : UGenericHashMap ι} (h : SameEntries m m') :
    nodes m' = nodes m := by
  rw [nodes, nodes, slots, slots, h.table, h.capacity]

theorem SameEntries.shape {m m' : UGenericHashMap ι} (h : SameEntries m m') (hm : Shape m) :
    Shape m' := by
  refine ⟨?_, ?_, ?_, ?_, ?_⟩
  · rw [h.capacity]
    exact hm.cap_pos
  · rw [h.table, h.capacity]
    exact hm.slot
  · rw [h.table]
    exact hm.keys
  · rw [h.table]
    exact hm.addrs
  · rw [h.table, h.fresh]
    exact hm.below

theorem slots_succ (m : UGenericHashMap ι) (n i : Nat) :
    slots m (n + 1) i = m.table i ++ slots m n (i + 1) := by
  rw [slots, List.range'_succ, List.flatMap_cons, slots]

theorem scan_nil {m : UGenericHashMap ι} {n i : Nat} (h : slots m n i = []) :
    ∃ m', scan m n i = (false, m') ∧ SameEntries m m' := by
  induction n generalizing i with
  | zero => exact ⟨_, rfl, rfl, rfl, rfl⟩
  | succ n ih =>
      rw [slots_succ, List.append_eq_nil_iff] at h
      obtain ⟨hslot, hrest⟩ := h
      rw [scan, hslot]
      exact ih hrest

theorem scan_cons {m : UGenericHashMap ι} {n i : Nat} {c : HashMapNode ι}
    {rest : List (HashMapNode ι)} (hcapacity : i + n = m.capacity) (h : slots m n i = c :: rest) :
    ∃ m', scan m n i = (true, m') ∧ SameEntries m m' ∧ Stands m' c rest := by
  induction n generalizing i with
  | zero => cases h
  | succ n ih =>
      rw [slots_succ] at h
      rw [scan]
      cases hslot : m.table i with
      | nil =>
          rw [hslot, List.nil_append] at h
          exact ih (by omega) h
      | cons d back =>
          rw [hslot, List.cons_append] at h
          obtain ⟨rfl, rfl⟩ := List.cons.inj h
          refine ⟨_, rfl, ⟨rfl, rfl, rfl⟩, [], back, hslot, rfl, ?_⟩
          have hn : m.capacity - (i + 1) = n := by omega
          rw [← hn]
          rfl

section
variable {m : UGenericHashMap ι} (hm : Shape m) {c : HashMapNode ι} {rest : List (HashMapNode ι)}
include hm

theorem Stands.dropWhile_eq {front back : List (HashMapNode ι)}
    (htable : m.table m.index = front ++ c :: back) :
    (m.table m.index).dropWhile (fun d => decide (d.address ≠ c.address)) = c :: back := by
  have haddrs := hm.addrs m.index
  rw [htable] at haddrs ⊢
  have hfront : ∀ d ∈ front, decide (d.address ≠ c.address) = true := fun d hd =>
    decide_eq_true (address_ne_of_nodup haddrs d (List.mem_append_left back hd))
  rw [List.dropWhile_append_of_pos hfront, List.dropWhile_cons_of_neg (by simp)]

theorem Stands.elem (h : Stands m c rest) : elem m = some c.item := by
  obtain ⟨front, back, htable, hnode, -⟩ := h
  have hc : c ∈ m.table m.index := by
    rw [htable]
    exact List.mem_append_right front List.mem_cons_self
  rw [GenericHashMap.elem, hnode, Option.bind_some, find?_of_mem (·.address) (hm.addrs _) hc]
  rfl

/-- The slot of the cursor is one of the table. -/
theorem Stands.index_lt (h : Stands m c rest) : m.index < m.capacity := by
  obtain ⟨front, back, htable, -, -⟩ := h
  have hc : c ∈ m.table m.index := by
    rw [htable]
    exact List.mem_append_right front List.mem_cons_self
  rw [← hm.slot m.index c hc]
  exact Nat.mod_lt _ hm.cap_pos

theorem Stands.next_nil (h : Stands m c []) :
    ∃ m', next m = some (false, m') ∧ SameEntries m m' := by
  obtain ⟨front, back, htable, hnode, hrest⟩ := h
  obtain ⟨rfl, hslots⟩ := List.append_eq_nil_iff.mp hrest.symm
  rw [next, hnode, Option.bind_some, Stands.dropWhile_eq hm htable]
  obtain ⟨m', hscan, hsame⟩ := scan_nil (m := { m with node := none }) hslots
  exact ⟨m', congrArg some hscan, hsame.table, hsame.capacity, hsame.fresh⟩

theorem Stands.next_cons {d : HashMapNode ι} (h : Stands m c (d :: rest)) :
    ∃ m', next m = some (true, m') ∧ SameEntries m m' ∧ Stands m' d rest := by
  have hindex := h.index_lt hm
  obtain ⟨front, back, htable, hnode, hrest⟩ := h
  rw [next, hnode, Option.bind_some, Stands.dropWhile_eq hm htable]
  cases back with
  | nil =>
      obtain ⟨m', hscan, hsame, hstands⟩ :=
        scan_cons (m := { m with node := none }) (by dsimp only; omega) hrest.symm
      exact ⟨m', congrArg some hscan, ⟨hsame.table, hsame.capacity, hsame.fresh⟩, hstands⟩
  | cons e back =>
      obtain ⟨rfl, rfl⟩ := List.cons.inj hrest
      refine ⟨_, rfl, ⟨rfl, rfl, rfl⟩, front ++ [c], back, ?_, rfl, rfl⟩
      dsimp only
      rw [htable, List.append_assoc, List.singleton_append]

omit hm in
theorem first_nil (h : nodes m = []) : ∃ m', first m = (false, m') ∧ SameEntries m m' :=
  scan_nil h

omit hm in
theorem first_cons (h : nodes m = c :: rest) :
    ∃ m', first m = (true, m') ∧ SameEntries m m' ∧ Stands m' c rest :=
  scan_cons (Nat.zero_add _) h

/-- The nodes are those of the entries, each once. -/
theorem Shape.keys_nodup : ((nodes m).map (·.key)).Nodup := by
  rw [nodes, slots, List.map_flatMap, List.nodup_flatMap]
  refine ⟨fun i _ => hm.keys i, ?_⟩
  have hrange : (List.range' 0 m.capacity).Nodup := List.nodup_range'
  refine hrange.imp fun {i j} hne => ?_
  intro key hi hj
  obtain ⟨c, hc, rfl⟩ := List.mem_map.mp hi
  obtain ⟨d, hd, heq⟩ := List.mem_map.mp hj
  refine hne ((hm.slot i c hc).symm.trans ?_)
  rw [← heq]
  exact hm.slot j d hd

theorem Shape.mem_nodes {key : Nat} {item : ι} :
    (∃ d ∈ nodes m, d.key = key ∧ d.item = item) ↔ get m key = some item := by
  constructor
  · rintro ⟨d, hd, rfl, rfl⟩
    obtain ⟨i, -, hd⟩ := List.mem_flatMap.mp hd
    exact hm.get_of_mem hd
  · intro h
    obtain ⟨d, hd, hkey, hitem⟩ := mem_of_get h
    refine ⟨d, List.mem_flatMap.mpr ⟨_, ?_, hd⟩, hkey, hitem⟩
    rw [List.mem_range'_1]
    exact ⟨Nat.zero_le _, by
      rw [Nat.zero_add]
      exact Nat.mod_lt _ hm.cap_pos⟩

end

end ULib.GenericHashMap
