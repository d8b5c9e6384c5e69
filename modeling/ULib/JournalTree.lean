import ULib.HeapTree
import ULib.ReliableDatabase

/-!
The hash trees in the bytes of the journal. `HeapAt` says that the journal
holds the nodes of a heap, apart from each other and from the logged records
they point to; `htWalk` is then the search of the tree, and the writes of
`htAlloc`, `writev` and `htInsert` are the changes of a tree in its heap.
-/

namespace ULib.JournalTree

open ByteMemory
open KeyComparison
open ConstantDatabase
open ReliableDatabase
open HeapTree

/-- What a node stands for; a deleted key has no data. -/
structure Entry where
  key : Bytes
  data : Option Bytes
  deriving DecidableEq, Repr

/-! ### The order of the keys -/

/-- The three ways of `htLookup` at a node with the key `nodeKey`. -/
def ordKey (ignoreCase : Bool) (key nodeKey : Bytes) : Ordering :=
  let n := min key.length nodeKey.length
  let result := uEqual key nodeKey n ignoreCase
  if result < 0 then .lt
  else if result = 0 ∧ nodeKey.length = key.length then .eq
  else .gt

/-- The comparison of `key` with the entry at a node. -/
def seek (ignoreCase : Bool) (key : Bytes) (e : Entry) : Ordering := ordKey ignoreCase key e.key

theorem ordKey_congr_left {ignoreCase : Bool} {k k' : Bytes}
    (h : canon ignoreCase k = canon ignoreCase k') (j : Bytes) :
    ordKey ignoreCase k j = ordKey ignoreCase k' j := by
  simp only [ordKey, length_eq_of_canon h, uEqual_congr h]

theorem ordKey_congr_right {ignoreCase : Bool} {j j' : Bytes}
    (h : canon ignoreCase j = canon ignoreCase j') (k : Bytes) :
    ordKey ignoreCase k j = ordKey ignoreCase k j' := by
  simp only [ordKey, length_eq_of_canon h, uEqual_congr_right h]

theorem seek_congr {ignoreCase : Bool} {k k' : Bytes}
    (h : canon ignoreCase k = canon ignoreCase k') : seek ignoreCase k = seek ignoreCase k' :=
  funext fun e => ordKey_congr_left h e.key

theorem ordKey_eq_iff_equal {ignoreCase : Bool} {k j : Bytes} :
    ordKey ignoreCase k j = .eq ↔ k.length = j.length ∧ uEqual k j k.length ignoreCase = 0 := by
  unfold ordKey
  by_cases hlen : j.length = k.length
  · simp only [hlen, Nat.min_self, and_true, true_and]
    constructor
    · intro h
      split at h
      · cases h
      · split at h
        · next h0 => exact h0
        · cases h
    · intro h
      simp [h]
  · simp only [hlen, and_false, if_false, Ne.symm hlen, false_and, iff_false]
    intro h
    split at h <;> cases h

theorem ordKey_eq_iff {ignoreCase : Bool} {k j : Bytes} (hj : Comparable ignoreCase j) :
    ordKey ignoreCase k j = .eq ↔ canon ignoreCase k = canon ignoreCase j := by
  rw [ordKey_eq_iff_equal]
  constructor
  · rintro ⟨hlen, hzero⟩
    exact (uEqual_eq_zero_right hlen hj).mp hzero
  · intro h
    have hlen := length_eq_of_canon h
    exact ⟨hlen, (uEqual_eq_zero_right hlen hj).mpr h⟩

theorem ordKey_congruent (ignoreCase : Bool) : Congruent (ordKey ignoreCase) := by
  refine ⟨fun k => ordKey_eq_iff_equal.mpr ⟨rfl, uEqual_self k ignoreCase⟩, fun k j h => ?_⟩
  obtain ⟨hlen, hzero⟩ := ordKey_eq_iff_equal.mp h
  funext i
  simp only [ordKey, hlen, uEqual_of_zero hlen hzero]
theorem seek_eq_iff {ignoreCase : Bool} {k : Bytes} {e : Entry}
    (he : Comparable ignoreCase e.key) :
    seek ignoreCase k e = .eq ↔ canon ignoreCase k = canon ignoreCase e.key :=
  ordKey_eq_iff he

/-! ### Nodes in memory -/

structure NodeAt (m : Mem) (n : Nat) (x : Node Entry) : Prop where
  klen : get m (n + 4) = x.val.key.length
  key : read m (get m n) x.val.key.length = x.val.key
  deleted : x.val.data = none → get m (n + 8) = 0 ∧ get m (n + 12) = uNotFound
  data : ∀ d, x.val.data = some d →
    get m (n + 8) ≠ 0 ∧ get m (n + 12) = d.length ∧ read m (get m (n + 8)) d.length = d
  left : get m (n + 16) = x.left
  right : get m (n + 20) = x.right

/-- A block of logged bytes: below `off`, and apart from every node. -/
structure LogBlock (H : Heap Entry) (off a k : Nat) : Prop where
  low : sizeofCacheStruct ≤ a
  high : a + k ≤ off
  apart : ∀ n x, H n = some x → Apart n sizeofCacheNode a k

structure HeapAt (m : Mem) (off : Nat) (H : Heap Entry) : Prop where
  node : ∀ n x, H n = some x → NodeAt m n x
  low : ∀ n x, H n = some x → sizeofCacheStruct ≤ n
  high : ∀ n x, H n = some x → n + sizeofCacheNode ≤ off
  apart : ∀ n x n' x', H n = some x → H n' = some x' → n ≠ n' →
    Apart n sizeofCacheNode n' sizeofCacheNode
  keyBlock : ∀ n x, H n = some x → LogBlock H off (get m n) x.val.key.length
  dataBlock : ∀ n x d, H n = some x → x.val.data = some d → LogBlock H off (get m (n + 8)) d.length

/-- The bytes a node depends on: its own and the logged ones it points to. -/
theorem NodeAt.congr {m m' : Mem} {n : Nat} {x : Node Entry} (h : NodeAt m n x)
    (hnode : Agree m' m n sizeofCacheNode) (hkey : Agree m' m (get m n) x.val.key.length)
    (hdata : ∀ d, x.val.data = some d → Agree m' m (get m (n + 8)) d.length) :
    NodeAt m' n x := by
  have h24 : sizeofCacheNode = 24 := rfl
  have hword : ∀ k, k + 4 ≤ 24 → get m' (n + k) = get m (n + k) :=
    fun k hk => (hnode.mono (by omega) (by omega)).get_eq
  have h0 := hword 0 (by omega)
  rw [Nat.add_zero] at h0
  refine ⟨?_, ?_, ?_, ?_, ?_, ?_⟩
  · rw [hword 4 (by omega), h.klen]
  · rw [h0, hkey.read_eq, h.key]
  · intro hd
    rw [hword 8 (by omega), hword 12 (by omega)]
    exact h.deleted hd
  · intro d hd
    rw [hword 8 (by omega), hword 12 (by omega), (hdata d hd).read_eq]
    exact h.data d hd
  · rw [hword 16 (by omega), h.left]
  · rw [hword 20 (by omega), h.right]

theorem LogBlock.mono {H : Heap Entry} {off off' a k : Nat} (h : LogBlock H off a k)
    (hoff : off ≤ off') : LogBlock H off' a k :=
  ⟨h.low, h.high.trans hoff, h.apart⟩

/-- Nothing below `off` changes. -/
theorem HeapAt.frame {m m' : Mem} {off off' : Nat} {H : Heap Entry} (h : HeapAt m off H)
    (hagree : ∀ a, sizeofCacheStruct ≤ a → a < off → m' a = m a) (hoff : off ≤ off') :
    HeapAt m' off' H := by
  have hblock : ∀ {a k}, LogBlock H off a k → Agree m' m a k := fun hb z hz hz' =>
    hagree z (by have := hb.low; omega) (by have := hb.high; omega)
  have hnode : ∀ n x, H n = some x → Agree m' m n sizeofCacheNode := fun n x hn z hz hz' =>
    hagree z (by have := h.low n x hn; omega) (by have := h.high n x hn; omega)
  have h24 : sizeofCacheNode = 24 := rfl
  have hword : ∀ n x, H n = some x → get m' n = get m n ∧ get m' (n + 8) = get m (n + 8) :=
    fun n x hn => ⟨((hnode n x hn).mono (by omega) (by omega)).get_eq,
      ((hnode n x hn).mono (by omega) (by omega)).get_eq⟩
  refine ⟨?_, h.low, fun n x hn => (h.high n x hn).trans hoff, h.apart, ?_, ?_⟩
  · intro n x hn
    exact (h.node n x hn).congr (hnode n x hn) (hblock (h.keyBlock n x hn))
      fun d hd => hblock (h.dataBlock n x d hn hd)
  · intro n x hn
    rw [(hword n x hn).1]
    exact (h.keyBlock n x hn).mono hoff
  · intro n x d hn hd
    rw [(hword n x hn).2]
    exact (h.dataBlock n x d hn hd).mono hoff

/-! ### The search -/

/-- Address of a cell of the tree in slot `i`. -/
def addr (i : Nat) : Cell → Nat
  | .root => hashtab i
  | .left n => n + 16
  | .right n => n + 20

theorem compareNode_eq {ignoreCase : Bool} {m : Mem} {n : Nat} {x : Node Entry}
    (h : NodeAt m n x) (key : Bytes) :
    compareNode ignoreCase m key n = seek ignoreCase key x.val := by
  have hread : read m (get m n) (min key.length x.val.key.length) =
      x.val.key.take (min key.length x.val.key.length) := by
    have htake := take_read m (get m n) x.val.key.length (min key.length x.val.key.length)
    rw [h.key, Nat.min_eq_left (Nat.min_le_right _ _)] at htake
    exact htake.symm
  have hcmp : uEqual key (read m (get m n) (min key.length x.val.key.length))
      (min key.length x.val.key.length) ignoreCase =
      uEqual key x.val.key (min key.length x.val.key.length) ignoreCase := by
    rw [hread, uEqual_take, List.take_take, Nat.min_self, ← uEqual_take]
  simp only [compareNode, seek, ordKey, h.klen, hcmp]

/-- `htLookup` searches the tree. -/
theorem htWalk_eq (ignoreCase : Bool) {m : Mem} {off : Nat} {H : Heap Entry}
    (hheap : HeapAt m off H) (key : Bytes) (i : Nat) {t : HeapTree.Tree Entry} (ht : Represents H t)
    (hkeys : ∀ e ∈ t.entries, e.2.key ≠ []) {c : Cell} (hc : get m (addr i c) = t.root)
    (fuel : Nat) (hfuel : t.entries.length < fuel) :
    htWalk ignoreCase key fuel m (addr i c) =
      some ((t.find (seek ignoreCase key)).isSome, addr i (t.stop (seek ignoreCase key) c),
        (t.find (seek ignoreCase key)).elim 0 Prod.fst, m) := by
  induction t generalizing c fuel with
  | leaf =>
      obtain ⟨fuel, rfl⟩ : ∃ f, fuel = f + 1 := ⟨fuel - 1, by omega⟩
      simp only [htWalk, hc, Tree.root, if_true]
      rfl
  | node l n v r ihl ihr =>
      obtain ⟨fuel, rfl⟩ : ∃ f, fuel = f + 1 := ⟨fuel - 1, by omega⟩
      obtain ⟨hn, hH, hl, hr⟩ := ht
      have hnode := hheap.node n _ hH
      simp only [Tree.entries, List.length_append, List.length_singleton] at hfuel
      have hkey : v.key ≠ [] := hkeys (n, v) (by simp [Tree.entries])
      have hlen : get m (n + 4) ≠ 0 := by
        rw [hnode.klen]
        exact fun h => hkey (List.length_eq_zero_iff.mp h)
      have hkeysl : ∀ e ∈ l.entries, e.2.key ≠ [] := fun e he =>
          hkeys e (by simp [Tree.entries, he])
      have hkeysr : ∀ e ∈ r.entries, e.2.key ≠ [] := fun e he =>
          hkeys e (by simp [Tree.entries, he])
      simp only [htWalk, hc, Tree.root, hn, if_false, hlen, compareNode_eq hnode, Tree.find,
        Tree.stop]
      cases seek ignoreCase key v with
      | lt => exact ihl hl hkeysl (c := .left n) hnode.left fuel (by omega)
      | eq => rfl
      | gt => exact ihr hr hkeysr (c := .right n) hnode.right fuel (by omega)

/-! ### Changes of the heap -/

theorem link_some {H : Heap Entry} {c : Cell} {n₀ n : Nat} {e : Entry} {y : Node Entry}
    (hne : n ≠ n₀) (h : link H c n₀ e n = some y) :
    ∃ x, H n = some x ∧ y.val = x.val ∧ y.left = (if c = .left n then n₀ else x.left) ∧
      y.right = if c = .right n then n₀ else x.right := by
  by_cases hl : c = .left n
  · subst hl
    rw [link, Function.update_of_ne hne, setCell, Function.update_self,
      Option.map_eq_some_iff] at h
    obtain ⟨x, hx, rfl⟩ := h
    exact ⟨x, hx, rfl, by simp, by simp⟩
  · by_cases hr : c = .right n
    · subst hr
      rw [link, Function.update_of_ne hne, setCell, Function.update_self,
        Option.map_eq_some_iff] at h
      obtain ⟨x, hx, rfl⟩ := h
      exact ⟨x, hx, rfl, by simp, by simp⟩
    · rw [link_other hne hl hr] at h
      exact ⟨y, h, rfl, by simp [hl], by simp [hr]⟩

/-- A cell that the nodes of the heap have, or that is in the hash table. -/
def CellIn (H : Heap Entry) (c : Cell) : Prop :=
  ∀ n, c = .left n ∨ c = .right n → ∃ x, H n = some x

/-- A cell lies in the last eight bytes of its node, and in no other node. -/
theorem addr_apart {m : Mem} {off i : Nat} {H : Heap Entry} (h : HeapAt m off H)
    (hi : i < cacheHashtabLen) {c : Cell} (hc : CellIn H c) {n : Nat} {x : Node Entry}
    (hn : H n = some x) :
    Apart (addr i c) 4 n 16 ∧ (c ≠ .left n → c ≠ .right n → Apart (addr i c) 4 n 24) := by
  have h24 : sizeofCacheNode = 24 := rfl
  have hlow := h.low n x hn
  have hstruct : sizeofCacheStruct = 16 + 4 * cacheHashtabLen := rfl
  have hother : ∀ k, (c = .left k ∨ c = .right k) → k ≠ n →
      Apart k sizeofCacheNode n sizeofCacheNode := by
    intro k hk hkn
    obtain ⟨y, hy⟩ := hc k hk
    exact h.apart k y n x hy hn hkn
  unfold Apart at *
  cases c with
  | root =>
      simp only [addr, hashtab]
      exact ⟨by omega, fun _ _ => by omega⟩
  | left k =>
      have := hother k (.inl rfl)
      simp only [addr]
      by_cases hkn : k = n
      · exact ⟨by omega, fun hne => absurd (by rw [hkn]) hne⟩
      · have := this hkn
        exact ⟨by omega, fun _ _ => by omega⟩
  | right k =>
      have := hother k (.inr rfl)
      simp only [addr]
      by_cases hkn : k = n
      · exact ⟨by omega, fun _ hne => absurd (by rw [hkn]) hne⟩
      · have := this hkn
        exact ⟨by omega, fun _ _ => by omega⟩

theorem addr_apart_block {off i a k : Nat} {H : Heap Entry}
    (hi : i < cacheHashtabLen) {c : Cell} (hc : CellIn H c) (hb : LogBlock H off a k) :
    Apart (addr i c) 4 a k := by
  have h24 : sizeofCacheNode = 24 := rfl
  have hstruct : sizeofCacheStruct = 16 + 4 * cacheHashtabLen := rfl
  have hlow := hb.low
  cases c with
  | root =>
      simp only [addr, hashtab, Apart]
      omega
  | left n =>
      obtain ⟨y, hy⟩ := hc n (.inl rfl)
      have := hb.apart n y hy
      simp only [addr, Apart] at *
      omega
  | right n =>
      obtain ⟨y, hy⟩ := hc n (.inr rfl)
      have := hb.apart n y hy
      simp only [addr, Apart] at *
      omega

theorem LogBlock.fresh {m : Mem} {off off' a k : Nat} {H : Heap Entry} (h : HeapAt m off H)
    (hoff : sizeofCacheStruct ≤ off) (ha : off ≤ a) (hk : a + k ≤ off') : LogBlock H off' a k := by
  refine ⟨by omega, hk, fun n x hn => .inl ?_⟩
  have := h.high n x hn
  omega

/-- A logged block that is apart from the new node too -/
theorem LogBlock.link {off off' a k : Nat} {H : Heap Entry} (hb : LogBlock H off' a k) {c : Cell}
    {e : Entry} (hapart : Apart off sizeofCacheNode a k) :
    LogBlock (HeapTree.link H c off e) off' a k := by
  refine ⟨hb.low, hb.high, fun n y hy => ?_⟩
  by_cases hn : n = off
  · subst hn
    exact hapart
  · obtain ⟨x, hx, -⟩ := link_some hn hy
    exact hb.apart n x hx

section
variable {m m' : Mem} {off i : Nat} {H : Heap Entry} (h : HeapAt m off H)
  (hi : i < cacheHashtabLen) {c : Cell} (hc : CellIn H c)
  (hframe : ∀ a, sizeofCacheStruct ≤ a → a < off → a < addr i c ∨ addr i c + 4 ≤ a → m' a = m a)
include hframe

/-- Bytes below `off` that are apart from the cell stay as they are. -/
theorem agree_of_apart {a k : Nat} (ha : sizeofCacheStruct ≤ a) (hk : a + k ≤ off)
    (hapart : Apart (addr i c) 4 a k) : Agree m' m a k := by
  intro z hz hz'
  unfold Apart at hapart
  exact hframe z (by omega) (by omega) (by omega)

include hi hc

theorem agree_block {a k : Nat} (hb : LogBlock H off a k) : Agree m' m a k :=
  agree_of_apart hframe hb.low hb.high (addr_apart_block hi hc hb)

include h

/-- The first four words of a node stay as they are. -/
theorem agree_fields {n : Nat} {x : Node Entry} (hx : H n = some x) : Agree m' m n 16 := by
  have h24 : sizeofCacheNode = 24 := rfl
  have hhigh := h.high n x hx
  exact agree_of_apart hframe (h.low n x hx) (by omega) (addr_apart h hi hc hx).1

theorem get_pointers {n : Nat} {x : Node Entry} (hx : H n = some x) :
    get m' n = get m n ∧ get m' (n + 8) = get m (n + 8) := by
  have hfields := agree_fields h hi hc hframe hx
  exact ⟨(hfields.mono (by omega) (by omega)).get_eq, (hfields.mono (by omega) (by omega)).get_eq⟩

/-- A node of before, whose link is set if it is the cell -/
theorem linked_node (hcell : get m' (addr i c) = off) {n : Nat} {x y : Node Entry}
    (hx : H n = some x) (hval : y.val = x.val)
    (hleft : y.left = if c = .left n then off else x.left)
    (hright : y.right = if c = .right n then off else x.right) : NodeAt m' n y := by
  have h24 : sizeofCacheNode = 24 := rfl
  have hxnode := h.node n x hx
  have hlow := h.low n x hx
  have hhigh := h.high n x hx
  have hap := (addr_apart h hi hc hx).2
  have hf := agree_fields h hi hc hframe hx
  obtain ⟨hkey, hdata⟩ := get_pointers h hi hc hframe hx
  refine ⟨?_, ?_, ?_, ?_, ?_, ?_⟩
  · rw [hval, (hf.mono (by omega) (by omega)).get_eq, hxnode.klen]
  · rw [hval, hkey, (agree_block hi hc hframe (h.keyBlock n x hx)).read_eq, hxnode.key]
  · intro hd
    rw [hval] at hd
    rw [hdata, (hf.mono (b := n + 12) (by omega) (by omega)).get_eq]
    exact hxnode.deleted hd
  · intro d hd
    rw [hval] at hd
    rw [hdata, (hf.mono (b := n + 12) (by omega) (by omega)).get_eq,
      (agree_block hi hc hframe (h.dataBlock n x d hx hd)).read_eq]
    exact hxnode.data d hd
  · rw [hleft]
    split
    · next hcl =>
      subst hcl
      exact hcell
    · next hcl =>
      rw [← hxnode.left]
      refine (agree_of_apart hframe (by omega) (by omega) ?_).get_eq
      by_cases hcr : c = .right n
      · subst hcr
        exact .inr (by simp [addr])
      · have := hap hcl hcr
        unfold Apart at this ⊢
        omega
  · rw [hright]
    split
    · next hcr =>
      subst hcr
      exact hcell
    · next hcr =>
      rw [← hxnode.right]
      refine (agree_of_apart hframe (by omega) (by omega) ?_).get_eq
      by_cases hcl : c = .left n
      · subst hcl
        exact .inl (by simp [addr])
      · have := hap hcl hcr
        unfold Apart at this ⊢
        omega

/-- A new node at `off`, with its record in the log. -/
theorem HeapAt.link {off' : Nat} {e : Entry} (hcell : get m' (addr i c) = off)
    (hoff : sizeofCacheStruct ≤ off) (hnode : NodeAt m' off ⟨e, 0, 0⟩)
    (hkey : LogBlock H off' (get m' off) e.key.length ∧
      Apart off sizeofCacheNode (get m' off) e.key.length)
    (hdata : ∀ d, e.data = some d → LogBlock H off' (get m' (off + 8)) d.length ∧
      Apart off sizeofCacheNode (get m' (off + 8)) d.length)
    (hoff' : off + sizeofCacheNode ≤ off') : HeapAt m' off' (HeapTree.link H c off e) := by
  have hold : ∀ {a k}, LogBlock H off a k → LogBlock (HeapTree.link H c off e) off' a k :=
    fun hb => (hb.mono (by omega)).link (.inr hb.high)
  have hnew : ∀ {y}, HeapTree.link H c off e off = some y → y = ⟨e, 0, 0⟩ := by
    intro y hy
    rw [HeapTree.link, Function.update_self, Option.some.injEq] at hy
    exact hy.symm
  refine ⟨?_, ?_, ?_, ?_, ?_, ?_⟩
  · intro n y hy
    by_cases hn : n = off
    · subst hn
      exact hnew hy ▸ hnode
    · obtain ⟨x, hx, hval, hleft, hright⟩ := link_some hn hy
      exact linked_node h hi hc hframe hcell hx hval hleft hright
  · intro n y hy
    by_cases hn : n = off
    · omega
    · obtain ⟨x, hx, -⟩ := link_some hn hy
      exact h.low n x hx
  · intro n y hy
    by_cases hn : n = off
    · omega
    · obtain ⟨x, hx, -⟩ := link_some hn hy
      have := h.high n x hx
      omega
  · intro n y n' y' hy hy' hne
    by_cases hn : n = off
    · obtain ⟨x, hx, -⟩ := link_some (by omega) hy'
      have := h.high n' x hx
      exact .inr (by omega)
    · obtain ⟨x, hx, -⟩ := link_some hn hy
      by_cases hn' : n' = off
      · have := h.high n x hx
        exact .inl (by omega)
      · obtain ⟨x', hx', -⟩ := link_some hn' hy'
        exact h.apart n x n' x' hx hx' hne
  · intro n y hy
    by_cases hn : n = off
    · subst hn
      rw [hnew hy]
      exact hkey.1.link hkey.2
    · obtain ⟨x, hx, hval, -⟩ := link_some hn hy
      rw [hval, (get_pointers h hi hc hframe hx).1]
      exact hold (h.keyBlock n x hx)
  · intro n y d hy hd
    by_cases hn : n = off
    · subst hn
      rw [hnew hy] at hd
      exact (hdata d hd).1.link (hdata d hd).2
    · obtain ⟨x, hx, hval, -⟩ := link_some hn hy
      rw [hval] at hd
      rw [(get_pointers h hi hc hframe hx).2]
      exact hold (h.dataBlock n x d hx hd)

end

/-- New key and data for a node. -/
theorem HeapAt.update {m m' : Mem} {off off' n : Nat} {H : Heap Entry} (h : HeapAt m off H)
    {x : Node Entry} (hn : H n = some x) {e : Entry}
    (hframe : ∀ a, sizeofCacheStruct ≤ a → a < off → a < n ∨ n + 16 ≤ a → m' a = m a)
    (hnode : NodeAt m' n { x with val := e })
    (hkey : LogBlock H off' (get m' n) e.key.length)
    (hdata : ∀ d, e.data = some d → LogBlock H off' (get m' (n + 8)) d.length)
    (hoff' : off ≤ off') : HeapAt m' off' (Function.update H n (some { x with val := e })) := by
  have h24 : sizeofCacheNode = 24 := rfl
  have hstruct := h.low n x hn
  have hsome : ∀ k y, Function.update H n (some { x with val := e }) k = some y →
      ∃ y', H k = some y' := by
    intro k y hy
    by_cases hk : k = n
    · exact ⟨x, by rw [hk, hn]⟩
    · rw [Function.update_of_ne hk] at hy
      exact ⟨y, hy⟩
  have hbytes : ∀ {a k}, sizeofCacheStruct ≤ a → a + k ≤ off → Apart n 16 a k →
      Agree m' m a k := by
    intro a k ha hk hapart z hz hz'
    unfold Apart at hapart
    exact hframe z (by omega) (by omega) (by omega)
  have hblock : ∀ {a k}, LogBlock H off a k → Agree m' m a k := by
    intro a k hb
    have := hb.apart n x hn
    exact hbytes hb.low hb.high (by unfold Apart at *; omega)
  have hother : ∀ k y, H k = some y → k ≠ n → Agree m' m k sizeofCacheNode := by
    intro k y hy hk
    have hap := h.apart n x k y hn hy (Ne.symm hk)
    exact hbytes (h.low k y hy) (h.high k y hy) (by unfold Apart at *; omega)
  have hmono : ∀ {a k}, LogBlock H off' a k →
      LogBlock (Function.update H n (some { x with val := e })) off' a k := by
    intro a k hb
    refine ⟨hb.low, hb.high, fun j y hy => ?_⟩
    obtain ⟨y', hy'⟩ := hsome j y hy
    exact hb.apart j y' hy'
  refine ⟨?_, ?_, ?_, ?_, ?_, ?_⟩
  · intro k y hy
    by_cases hk : k = n
    · subst hk
      rw [Function.update_self, Option.some.injEq] at hy
      exact hy ▸ hnode
    · rw [Function.update_of_ne hk] at hy
      exact (h.node k y hy).congr (hother k y hy hk) (hblock (h.keyBlock k y hy))
        fun d hd => hblock (h.dataBlock k y d hy hd)
  · intro k y hy
    obtain ⟨y', hy'⟩ := hsome k y hy
    exact h.low k y' hy'
  · intro k y hy
    obtain ⟨y', hy'⟩ := hsome k y hy
    exact (h.high k y' hy').trans hoff'
  · intro k y k' y' hy hy' hne
    obtain ⟨z, hz⟩ := hsome k y hy
    obtain ⟨z', hz'⟩ := hsome k' y' hy'
    exact h.apart k z k' z' hz hz' hne
  · intro k y hy
    by_cases hk : k = n
    · subst hk
      rw [Function.update_self, Option.some.injEq] at hy
      subst hy
      exact hmono hkey
    · rw [Function.update_of_ne hk] at hy
      rw [((hother k y hy hk).mono (b := k) (by omega) (by omega)).get_eq]
      exact hmono ((h.keyBlock k y hy).mono hoff')
  · intro k y d hy hd
    by_cases hk : k = n
    · subst hk
      rw [Function.update_self, Option.some.injEq] at hy
      subst hy
      exact hmono (hdata d hd)
    · rw [Function.update_of_ne hk] at hy
      rw [((hother k y hy hk).mono (b := k + 8) (by omega) (by omega)).get_eq]
      exact hmono ((h.dataBlock k y d hy hd).mono hoff')

end ULib.JournalTree
