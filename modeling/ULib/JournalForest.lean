import Mathlib.Algebra.BigOperators.Group.Finset.Basic
import Mathlib.Algebra.BigOperators.Group.Finset.Piecewise
import ULib.SlotTrees

/-!
The journal as a whole: one tree for every slot of the hash table. `JournalAt`
is the invariant of the journal, and `upsert` is the only change that the
operations make: give a key an entry, in its node or in a new one.
-/

namespace ULib.JournalForest

open ByteMemory
open KeyComparison
open ConstantDatabase
open ReliableDatabase
open HeapTree
open JournalTree
open SlotTrees

/-- The trees of the slots. -/
abbrev Forest := Nat → HeapTree.Tree Entry

def slotOf (ignoreCase : Bool) (key : Bytes) : Nat := cdbHash ignoreCase key % cacheHashtabLen

/-- Node and entry of a key. -/
def lookup (ignoreCase : Bool) (F : Forest) (key : Bytes) : Option (Nat × Entry) :=
  (F (slotOf ignoreCase key)).find (seek ignoreCase key)

/-- Address of the pointer at which the lookup of a key ends. -/
def stopAddr (ignoreCase : Bool) (F : Forest) (key : Bytes) : Nat :=
  addr (slotOf ignoreCase key)
    ((F (slotOf ignoreCase key)).stop (seek ignoreCase key) .root)

/-- Give the key an entry; the node is a new one at `n₀` unless there is one. -/
def upsert (ignoreCase : Bool) (F : Forest) (key : Bytes) (n₀ : Nat) (e : Entry) : Forest :=
  Function.update F (slotOf ignoreCase key)
    ((F (slotOf ignoreCase key)).put (seek ignoreCase key) n₀ e)

theorem slotOf_lt (ignoreCase : Bool) (key : Bytes) : slotOf ignoreCase key < cacheHashtabLen :=
  Nat.mod_lt _ (by decide)

theorem slotOf_congr {ignoreCase : Bool} {k k' : Bytes}
    (h : canon ignoreCase k = canon ignoreCase k') :
    slotOf ignoreCase k = slotOf ignoreCase k' := by
  rw [slotOf, cdbHash, uCdbHash_congr h]
  rfl

theorem lookup_congr {ignoreCase : Bool} {k k' : Bytes}
    (h : canon ignoreCase k = canon ignoreCase k') (F : Forest) :
    lookup ignoreCase F k = lookup ignoreCase F k' := by
  rw [lookup, slotOf_congr h, seek_congr h]
  rfl

/-- What holds of every entry in the tree of slot `i`. -/
structure GoodEntry (ignoreCase : Bool) (i : Nat) (e : Entry) : Prop where
  key_ne : e.key ≠ []
  comparable : Comparable ignoreCase e.key
  slot : slotOf ignoreCase e.key = i

/-- The invariant of the journal. -/
structure JournalAt (ignoreCase : Bool) (m : Mem) (H : Heap Entry) (F : Forest) : Prop where
  low : sizeofCacheStruct ≤ get m 0
  heap : HeapAt m (get m 0) H
  tree : ∀ i < cacheHashtabLen, Represents H (F i)
  slot : ∀ i < cacheHashtabLen, get m (hashtab i) = (F i).root
  nodup : ∀ i < cacheHashtabLen, (F i).addresses.Nodup
  disjoint : ∀ i < cacheHashtabLen, ∀ j < cacheHashtabLen, i ≠ j →
    ∀ n ∈ (F i).addresses, n ∉ (F j).addresses
  good : ∀ i < cacheHashtabLen, ∀ e ∈ (F i).entries, GoodEntry ignoreCase i e.2
  /-- Every node is the one that the lookup of its key finds. -/
  own : ∀ i < cacheHashtabLen, ∀ e ∈ (F i).entries, lookup ignoreCase F e.2.key = some e

section Lookup

variable {ignoreCase : Bool} {F : Forest}

theorem canon_of_lookup
    (hgood : ∀ i < cacheHashtabLen, ∀ e ∈ (F i).entries, GoodEntry ignoreCase i e.2)
    {key : Bytes} {e : Nat × Entry} (h : lookup ignoreCase F key = some e) :
    canon ignoreCase key = canon ignoreCase e.2.key := by
  obtain ⟨hmem, heq⟩ := Tree.find_mem h
  have hg := hgood _ (slotOf_lt ignoreCase key) e hmem
  exact (seek_eq_iff hg.comparable).mp heq

theorem lookup_upsert_same (F : Forest) {key k : Bytes} (n₀ : Nat) {e : Entry}
    (hcomparable : Comparable ignoreCase e.key)
    (hkey : canon ignoreCase key = canon ignoreCase e.key)
    (hk : canon ignoreCase k = canon ignoreCase key) :
    lookup ignoreCase (upsert ignoreCase F key n₀ e) k =
      some ((F (slotOf ignoreCase key)).place (seek ignoreCase key) n₀, e) := by
  rw [lookup_congr hk, lookup, upsert, Function.update_self]
  exact Tree.find_put_same n₀ ((seek_eq_iff hcomparable).mpr hkey) _

theorem lookup_upsert_other
    (hgood : ∀ i < cacheHashtabLen, ∀ e ∈ (F i).entries, GoodEntry ignoreCase i e.2)
    {key k : Bytes} {n₀ : Nat} {e : Entry} (hcomparable : Comparable ignoreCase e.key)
    (hkey : canon ignoreCase key = canon ignoreCase e.key)
    (hk : canon ignoreCase k ≠ canon ignoreCase key) :
    lookup ignoreCase (upsert ignoreCase F key n₀ e) k = lookup ignoreCase F k := by
  unfold lookup upsert
  by_cases hslot : slotOf ignoreCase k = slotOf ignoreCase key
  · rw [hslot, Function.update_self]
    refine Tree.find_put_other n₀ ?_ ?_
    · intro h
      exact hk (((seek_eq_iff hcomparable).mp h).trans hkey.symm)
    · intro x hx heq
      have hg := hgood _ (slotOf_lt ignoreCase key) x hx
      have hcanon := (seek_eq_iff hg.comparable).mp heq
      exact ordKey_congr_right (hcanon.symm.trans hkey) k
  · rw [Function.update_of_ne hslot]

/-- Another lookup that ended at another pointer still ends there. -/
theorem stopAddr_upsert_other {key k : Bytes} {n₀ : Nat} {e : Entry}
    (hnone : lookup ignoreCase F key = none)
    (hstop : stopAddr ignoreCase F k ≠ stopAddr ignoreCase F key) :
    stopAddr ignoreCase (upsert ignoreCase F key n₀ e) k = stopAddr ignoreCase F k := by
  unfold stopAddr upsert at *
  by_cases hslot : slotOf ignoreCase k = slotOf ignoreCase key
  · rw [hslot] at hstop ⊢
    rw [Function.update_self, Tree.stop_put_other hnone]
    intro h
    exact hstop (by rw [h])
  · rw [Function.update_of_ne hslot]

/-- A key with a node gets no other one. -/
theorem stopAddr_upsert_found
    (hgood : ∀ i < cacheHashtabLen, ∀ e ∈ (F i).entries, GoodEntry ignoreCase i e.2)
    {key k : Bytes} {n₀ : Nat} {e : Entry} (hkey : canon ignoreCase key = canon ignoreCase e.key)
    (hsome : (lookup ignoreCase F key).isSome = true) :
    stopAddr ignoreCase (upsert ignoreCase F key n₀ e) k = stopAddr ignoreCase F k := by
  unfold stopAddr upsert
  by_cases hslot : slotOf ignoreCase k = slotOf ignoreCase key
  · rw [hslot, Function.update_self, Tree.stop_put_found hsome]
    intro x hx heq
    have hg := hgood _ (slotOf_lt ignoreCase key) x hx
    exact ordKey_congr_right (((seek_eq_iff hg.comparable).mp heq).symm.trans hkey) k
  · rw [Function.update_of_ne hslot]

theorem stopAddr_congr {k k' : Bytes} (h : canon ignoreCase k = canon ignoreCase k') (F : Forest) :
    stopAddr ignoreCase F k = stopAddr ignoreCase F k' := by
  rw [stopAddr, slotOf_congr h, seek_congr h]
  rfl

/-- The node of a key stays its node. -/
theorem lookup_upsert_found
    (hgood : ∀ i < cacheHashtabLen, ∀ e ∈ (F i).entries, GoodEntry ignoreCase i e.2)
    {key k : Bytes} {n₀ : Nat} {e : Entry} (hcomparable : Comparable ignoreCase e.key)
    (hkey : canon ignoreCase key = canon ignoreCase e.key) {x : Nat × Entry}
    (hx : lookup ignoreCase F k = some x) :
    ∃ e', lookup ignoreCase (upsert ignoreCase F key n₀ e) k = some (x.1, e') := by
  by_cases hk : canon ignoreCase k = canon ignoreCase key
  · refine ⟨e, ?_⟩
    rw [lookup_congr hk] at hx
    rw [lookup_upsert_same F n₀ hcomparable hkey hk, Tree.place,
      show (F (slotOf ignoreCase key)).find (seek ignoreCase key) = some x from hx]
  · exact ⟨x.2, by rw [lookup_upsert_other hgood hcomparable hkey hk, hx]⟩

end Lookup

/-! ### What the entries have cost -/

/-- Bytes of the journal that an entry takes: its node and its record. -/
def cost (e : Entry) : Nat := 32 + e.key.length + e.data.elim 0 List.length

def treeCost (t : HeapTree.Tree Entry) : Nat := (t.entries.map fun x => cost x.2).sum

def charge (F : Forest) : Nat := ∑ i ∈ Finset.range cacheHashtabLen, treeCost (F i)

theorem treeCost_put (cmp : Entry → Ordering) (n₀ : Nat) (e : Entry) (t : HeapTree.Tree Entry) :
    treeCost (t.put cmp n₀ e) + (t.find cmp).elim 0 (fun x => cost x.2) =
      treeCost t + cost e := by
  obtain ⟨l₁, l₂, hentries, hput⟩ := Tree.entries_put cmp n₀ e t
  rw [treeCost, treeCost, hentries, hput]
  cases t.find cmp with
  | none =>
      simp only [Option.toList, List.nil_append, List.map_append, List.map_cons,
        List.sum_append, List.sum_cons, Option.elim]
      omega
  | some x =>
      simp only [Option.toList, List.singleton_append, List.map_append, List.map_cons,
        List.sum_append, List.sum_cons, Option.elim]
      omega

theorem charge_upsert (ignoreCase : Bool) (F : Forest) (key : Bytes) (n₀ : Nat) (e : Entry) :
    charge (upsert ignoreCase F key n₀ e) +
        (lookup ignoreCase F key).elim 0 (fun x => cost x.2) = charge F + cost e := by
  have hmem : slotOf ignoreCase key ∈ Finset.range cacheHashtabLen :=
    Finset.mem_range.mpr (slotOf_lt ignoreCase key)
  have hput := treeCost_put (seek ignoreCase key) n₀ e (F (slotOf ignoreCase key))
  have hsum : ∑ i ∈ (Finset.range cacheHashtabLen).erase (slotOf ignoreCase key),
      treeCost (upsert ignoreCase F key n₀ e i) =
      ∑ i ∈ (Finset.range cacheHashtabLen).erase (slotOf ignoreCase key), treeCost (F i) := by
    apply Finset.sum_congr rfl
    intro i hi
    rw [upsert, Function.update_of_ne (Finset.ne_of_mem_erase hi)]
  have hself : upsert ignoreCase F key n₀ e (slotOf ignoreCase key) =
      (F (slotOf ignoreCase key)).put (seek ignoreCase key) n₀ e := by
    rw [upsert, Function.update_self]
  rw [charge, charge, ← Finset.add_sum_erase _ _ hmem, ← Finset.add_sum_erase _ _ hmem, hsum,
    hself, lookup]
  omega

theorem journalAt_empty (ignoreCase : Bool) {m : Mem} (hlow : sizeofCacheStruct ≤ get m 0)
    (hslots : ∀ i < cacheHashtabLen, get m (hashtab i) = 0) :
    JournalAt ignoreCase m (fun _ => none) (fun _ => .leaf) := by
  obtain ⟨hlow, hheap, htree, hslot, hnodup, hdisjoint⟩ := treesAt_empty hlow hslots
  exact ⟨hlow, hheap, htree, hslot, hnodup, hdisjoint, by simp [Tree.entries],
    by simp [Tree.entries]⟩

section Transition

variable {ignoreCase : Bool} {m m' : Mem} {H : Heap Entry} {F : Forest}

/-- The trees of the journal, apart from what decides where a key is. -/
theorem JournalAt.trees (h : JournalAt ignoreCase m H F) : TreesAt m H F :=
  ⟨h.low, h.heap, h.tree, h.slot, h.nodup, h.disjoint⟩

theorem JournalAt.mem_heap (h : JournalAt ignoreCase m H F) {i : Nat} (hi : i < cacheHashtabLen)
    {n : Nat} (hn : n ∈ (F i).addresses) : n ≠ 0 ∧ ∃ x, H n = some x :=
  h.trees.mem_heap hi hn

theorem JournalAt.mem_lt (h : JournalAt ignoreCase m H F) {i : Nat} (hi : i < cacheHashtabLen)
    {n : Nat} (hn : n ∈ (F i).addresses) : sizeofCacheStruct ≤ n ∧ n + sizeofCacheNode ≤ get m 0 :=
  h.trees.mem_lt hi hn

theorem JournalAt.cellIn (h : JournalAt ignoreCase m H F) (key : Bytes) :
    CellIn H ((F (slotOf ignoreCase key)).stop (seek ignoreCase key) .root) :=
  h.trees.cellIn (slotOf_lt ignoreCase key) _

theorem JournalAt.stopAddr_bounds (h : JournalAt ignoreCase m H F) (key : Bytes) :
    16 ≤ stopAddr ignoreCase F key ∧ stopAddr ignoreCase F key + 4 ≤ get m 0 :=
  h.trees.stopIn_bounds (slotOf_lt ignoreCase key) _

/-- Ownership after a key got an entry with the same key. -/
theorem own_upsert (h : JournalAt ignoreCase m H F) {key : Bytes} (n₀ : Nat) {e : Entry}
    (he : GoodEntry ignoreCase (slotOf ignoreCase key) e)
    (hkey : canon ignoreCase key = canon ignoreCase e.key) :
    ∀ i < cacheHashtabLen, ∀ x ∈ (upsert ignoreCase F key n₀ e i).entries,
      GoodEntry ignoreCase i x.2 ∧
        lookup ignoreCase (upsert ignoreCase F key n₀ e) x.2.key = some x := by
  intro i hi x hx
  have hnew := lookup_upsert_same F n₀ he.comparable hkey hkey.symm
  -- an entry of another key was there before, and its lookup is the old one
  have hold : x ∈ (F i).entries → canon ignoreCase x.2.key ≠ canon ignoreCase key →
      GoodEntry ignoreCase i x.2 ∧
        lookup ignoreCase (upsert ignoreCase F key n₀ e) x.2.key = some x := by
    intro hmem hne
    exact ⟨h.good i hi x hmem,
      (lookup_upsert_other h.good he.comparable hkey hne).trans (h.own i hi x hmem)⟩
  by_cases hslot : i = slotOf ignoreCase key
  · subst hslot
    obtain ⟨l₁, l₂, hentries, hput⟩ := Tree.entries_put (seek ignoreCase key) n₀ e
      (F (slotOf ignoreCase key))
    rw [upsert, Function.update_self, hput, List.mem_append, List.mem_cons] at hx
    have hcases : x = ((F (slotOf ignoreCase key)).place (seek ignoreCase key) n₀, e) ∨
        x ∈ l₁ ∨ x ∈ l₂ := by tauto
    rcases hcases with rfl | hother
    · exact ⟨he, hnew⟩
    · have hmem : x ∈ (F (slotOf ignoreCase key)).entries := by
        rw [hentries]
        simp only [List.mem_append]
        tauto
      refine hold hmem fun hcanon => ?_
      -- the old node of the key is not in the two rests
      have hown := h.own _ hi x hmem
      rw [lookup_congr hcanon] at hown
      have hnodup := h.nodup _ hi
      rw [Tree.addresses, hentries, show (F (slotOf ignoreCase key)).find (seek ignoreCase key) =
        some x from hown] at hnodup
      simp only [Option.toList, List.map_append, List.map_cons, List.singleton_append] at hnodup
      have hnot := List.nodup_middle.mp hnodup
      rw [List.nodup_cons, List.mem_append, not_or] at hnot
      rcases hother with hx₁ | hx₂
      · exact hnot.1.1 (List.mem_map_of_mem hx₁)
      · exact hnot.1.2 (List.mem_map_of_mem hx₂)
  · rw [upsert, Function.update_of_ne hslot] at hx
    refine hold hx fun hcanon => hslot ?_
    rw [← (h.good i hi x hx).slot, slotOf_congr hcanon]

/-- The trees after a key got an entry make a journal again. -/
theorem JournalAt.of_trees (h : JournalAt ignoreCase m H F) {key : Bytes} {n₀ : Nat} {e : Entry}
    (he : GoodEntry ignoreCase (slotOf ignoreCase key) e)
    (hkey : canon ignoreCase key = canon ignoreCase e.key) {H' : Heap Entry}
    (htrees : TreesAt m' H' (upsert ignoreCase F key n₀ e)) :
    JournalAt ignoreCase m' H' (upsert ignoreCase F key n₀ e) := by
  have hown := own_upsert h n₀ he hkey
  exact ⟨htrees.low, htrees.heap, htrees.tree, htrees.slot, htrees.nodup, htrees.disjoint,
    fun i hi x hx => (hown i hi x hx).1, fun i hi x hx => (hown i hi x hx).2⟩

/-- Nothing of the journal changes below `RDB_off`. -/
theorem JournalAt.frame (h : JournalAt ignoreCase m H F)
    (hframe : ∀ a, 16 ≤ a → a < get m 0 → m' a = m a) (hoff : get m 0 ≤ get m' 0) :
    JournalAt ignoreCase m' H F := by
  obtain ⟨hlow, hheap, htree, hslot, hnodup, hdisjoint⟩ := h.trees.frame hframe hoff
  exact ⟨hlow, hheap, htree, hslot, hnodup, hdisjoint, h.good, h.own⟩

end Transition

end ULib.JournalForest
