import ULib.JournalLog

/-!
From a lookup to the entry: what `htAlloc`, `logJournal` and `htInsert` do
together to the journal, for a key with a node and for a key without one.
-/

namespace ULib.JournalEntry

open ByteMemory
open KeyComparison
open ConstantDatabase
open ReliableDatabase
open ReliableDatabase.URDB
open HeapTree
open JournalTree
open SlotTrees
open JournalForest
open JournalLog

/-- `data.dsize` of a node. -/
def dataSize (e : Entry) : Nat := e.data.elim uNotFound List.length

variable {ignoreCase : Bool} {m m' : Mem} {H : Heap Entry} {F : Forest} {key : Bytes}
  {e : Entry} {p q : Nat}

/-- The bytes of the entry are in the log, at the offsets `p` and `q`. -/
structure Logged (m : Mem) (H : Heap Entry) (p q : Nat) (e : Entry) : Prop where
  keyBlock : LogBlock H (get m 0) p e.key.length
  key : read m p e.key.length = e.key
  deleted : e.data = none → q = 0
  dataBlock : ∀ d, e.data = some d → LogBlock H (get m 0) q d.length
  data : ∀ d, e.data = some d → read m q d.length = d

theorem Logged.small (h : Logged m H p q e) :
    p < 2 ^ 32 ∧ e.key.length < 2 ^ 32 ∧ q < 2 ^ 32 ∧ dataSize e < 2 ^ 32 := by
  have hoff := get_lt m 0
  have hk := h.keyBlock.high
  refine ⟨by omega, by omega, ?_⟩
  cases hd : e.data with
  | none => exact ⟨by rw [h.deleted hd]; decide, by rw [dataSize, hd]; decide⟩
  | some d =>
      have := (h.dataBlock d hd).high
      exact ⟨by omega, by simp [dataSize, hd]; omega⟩

/-- The journal after the four words of a node are filled in. -/
theorem nodeAt_insertMem {n : Nat} (hlogged : Logged m H p q e)
    (hkeyApart : Apart n sizeofCacheNode p e.key.length)
    (hdataApart : ∀ d, e.data = some d → Apart n sizeofCacheNode q d.length) {left right : Nat}
    (hleft : get m (n + 16) = left) (hright : get m (n + 20) = right) :
    NodeAt (insertMem m n p e.key.length q (dataSize e)) n ⟨e, left, right⟩ := by
  have h24 : sizeofCacheNode = 24 := rfl
  obtain ⟨hp, hk, hq, hd⟩ := hlogged.small
  obtain ⟨hw0, hw4, hw8, hw12⟩ := insertMem_words m n hp hk hq hd
  have hread : ∀ {a k}, Apart n sizeofCacheNode a k →
      read (insertMem m n p e.key.length q (dataSize e)) a k = read m a k := by
    intro a k hap
    apply Agree.read_eq
    intro z hz hz'
    exact insertMem_frame (by unfold Apart at hap; omega)
  have hword : ∀ a, n + 16 ≤ a → get (insertMem m n p e.key.length q (dataSize e)) a = get m a :=
    fun a ha => Agree.get_eq fun z hz _ => insertMem_frame (by omega)
  have hstruct : sizeofCacheStruct = 3092 := rfl
  refine ⟨hw4, ?_, ?_, ?_, ?_, ?_⟩
  · rw [hw0, hread hkeyApart, hlogged.key]
  · intro hnone
    exact ⟨hw8.trans (hlogged.deleted hnone),
      hw12.trans (by simp only at hnone; simp [dataSize, hnone])⟩
  · intro d hsome
    have hlow := (hlogged.dataBlock d hsome).low
    refine ⟨by rw [hw8]; omega, hw12.trans (by simp only at hsome; simp [dataSize, hsome]), ?_⟩
    rw [hw8, hread (hdataApart d hsome), hlogged.data d hsome]
  · rw [hword _ (by omega), hleft]
  · rw [hword _ (by omega), hright]

/-- A new node where a search ended, after `htAlloc` and `logJournal` made the
journal `m'` of `m`. -/
theorem insert_link (h : TreesAt m H F) {i : Nat} (hi : i < cacheHashtabLen)
    {cmp : Entry → Ordering} (hnone : (F i).find cmp = none)
    (hframe : ∀ a, 16 ≤ a → a < get m 0 →
      a < stopIn F i cmp ∨ stopIn F i cmp + 4 ≤ a → m' a = m a)
    (hcell : get m' (stopIn F i cmp) = get m 0)
    (hleft : get m' (get m 0 + 16) = 0) (hright : get m' (get m 0 + 20) = 0)
    (hoff : get m 0 + sizeofCacheNode ≤ get m' 0) (hlogged : Logged m' H p q e)
    (hkeyApart : Apart (get m 0) sizeofCacheNode p e.key.length)
    (hdataApart : ∀ d, e.data = some d → Apart (get m 0) sizeofCacheNode q d.length) :
    TreesAt (insertMem m' (get m 0) p e.key.length q (dataSize e))
      (HeapTree.link H ((F i).stop cmp .root) (get m 0) e) (graft F i cmp (get m 0) e) := by
  have hlow := h.low
  have h24 : sizeofCacheNode = 24 := rfl
  have hstruct : sizeofCacheStruct = 3092 := rfl
  have hstop := h.stopIn_bounds hi cmp
  obtain ⟨hp, hk, hq, hd⟩ := hlogged.small
  obtain ⟨hw0, -, hw8, -⟩ := insertMem_words m' (get m 0) hp hk hq hd
  have hword : ∀ a, a + 4 ≤ get m 0 →
      get (insertMem m' (get m 0) p e.key.length q (dataSize e)) a = get m' a :=
    fun a ha => Agree.get_eq fun z _ hz => insertMem_frame (by omega)
  have hoff' := hword 0 (by omega)
  refine h.link hi hnone ?_ ?_ (nodeAt_insertMem hlogged hkeyApart hdataApart hleft hright)
    ?_ ?_ (by rw [hoff']; exact hoff)
  · intro a ha hlt hc
    rw [insertMem_frame (.inl hlt), hframe a ha hlt hc]
  · rw [hword _ hstop.2, hcell]
  · rw [hoff', hw0]
    exact ⟨hlogged.keyBlock, hkeyApart⟩
  · intro d hsome
    rw [hoff', hw8]
    exact ⟨hlogged.dataBlock d hsome, hdataApart d hsome⟩

/-- New contents for the node of a key, after `logJournal` made the journal
`m'` of `m`. -/
theorem insert_update (h : JournalAt ignoreCase m H F) {x : Nat × Entry}
    (hsome : lookup ignoreCase F key = some x) (n₀ : Nat)
    (he : GoodEntry ignoreCase (slotOf ignoreCase key) e)
    (hkey : canon ignoreCase key = canon ignoreCase e.key)
    (hframe : ∀ a, 16 ≤ a → a < get m 0 → m' a = m a) (hoff : get m 0 ≤ get m' 0)
    (hlogged : Logged m' H p q e) :
    ∃ H', JournalAt ignoreCase (insertMem m' x.1 p e.key.length q (dataSize e)) H'
      (upsert ignoreCase F key n₀ e) ∧ ∀ n, (H' n).isSome = (H n).isSome := by
  have hlow := h.low
  have h24 : sizeofCacheNode = 24 := rfl
  have hstruct : sizeofCacheStruct = 3092 := rfl
  have hi := slotOf_lt ignoreCase key
  have hmem : x.1 ∈ (F (slotOf ignoreCase key)).addresses :=
    List.mem_map_of_mem (Tree.find_mem hsome).1
  have hbounds := h.mem_lt hi hmem
  obtain ⟨-, y, hy⟩ := h.mem_heap hi hmem
  obtain ⟨hp, hk, hq, hd⟩ := hlogged.small
  obtain ⟨hw0, -, hw8, -⟩ := insertMem_words m' x.1 hp hk hq hd
  have hword : ∀ a, a + 4 ≤ x.1 →
      get (insertMem m' x.1 p e.key.length q (dataSize e)) a = get m' a :=
    fun a ha => Agree.get_eq fun z _ hz => insertMem_frame (by omega)
  have hoff' := hword 0 (by omega)
  have hsame : ∀ a, 16 ≤ a → a + 4 ≤ get m 0 → get m' a = get m a :=
    fun a ha ha' => Agree.get_eq fun z hz hz' => hframe z (by omega) (by omega)
  have hynode := h.heap.node x.1 y hy
  have hnode := nodeAt_insertMem (n := x.1) hlogged (hlogged.keyBlock.apart x.1 y hy)
    (fun d hd => (hlogged.dataBlock d hd).apart x.1 y hy)
    ((hsame _ (by omega) (by omega)).trans hynode.left)
    ((hsame _ (by omega) (by omega)).trans hynode.right)
  refine ⟨_, h.of_trees he hkey (h.trees.update hi hsome n₀ hy ?_ hnode ?_ ?_
    (by rw [hoff']; exact hoff)), ?_⟩
  · intro a ha hlt hc
    rw [insertMem_frame hc, hframe a ha hlt]
  · rw [hoff', hw0]
    exact hlogged.keyBlock
  · intro d hsome
    rw [hoff', hw8]
    exact hlogged.dataBlock d hsome
  · intro n
    by_cases hn : n = x.1
    · subst hn
      rw [Function.update_self, hy]
      rfl
    · rw [Function.update_of_ne hn]

/-! ### Allocating and logging -/

/-- What `htAlloc` at the pointer `cell` and a `logJournal` of `bytes` leave. -/
structure AllocLogged (m m' : Mem) (cell : Nat) (bytes : Bytes) : Prop where
  frame : ∀ a, 4 ≤ a → a < get m 0 → a < cell ∨ cell + 4 ≤ a → m' a = m a
  cell : get m' cell = get m 0
  left : get m' (get m 0 + 16) = 0
  right : get m' (get m 0 + 20) = 0
  off : get m' 0 = get m 0 + sizeofCacheNode + bytes.length
  log : ∀ i n, i + n ≤ bytes.length →
    read m' (get m 0 + sizeofCacheNode + i) n = (bytes.drop i).take n

theorem allocLogged {m₂ : Mem} {cell : Nat} {bytes : Bytes} (hcell : 16 ≤ cell)
    (hcell' : cell + 4 ≤ get m 0) (hsame : ∀ a < get m 0 + sizeofCacheNode,
      m₂ a = allocMem m (get m 0) cell a)
    (hsmall : get m 0 + sizeofCacheNode + bytes.length < 2 ^ 32) :
    AllocLogged m (logMem m₂ (get m 0 + sizeofCacheNode) bytes) cell bytes := by
  have h24 : sizeofCacheNode = 24 := rfl
  have hword : ∀ a, 4 ≤ a → a + 4 ≤ get m 0 + sizeofCacheNode →
      get (logMem m₂ (get m 0 + sizeofCacheNode) bytes) a = get (allocMem m (get m 0) cell) a := by
    intro a ha ha'
    apply Agree.get_eq
    intro z hz hz'
    rw [logMem_frame (by omega) (.inl (by omega)), hsame z (by omega)]
  refine ⟨?_, ?_, ?_, ?_, logMem_off hsmall, ?_⟩
  · intro a ha hlt hc
    rw [logMem_frame ha (.inl (by omega)), hsame a (by omega), allocMem_frame ha hc (.inl hlt)]
  · rw [hword _ (by omega) (by omega), allocMem_cell hcell' (by omega)]
  · rw [hword _ (by omega) (by omega)]
    exact allocMem_node (by decide)
  · rw [hword _ (by omega) (by omega)]
    exact allocMem_node (by decide)
  · exact fun i n h => logMem_read (by omega) h

/-! ### One entry, in its node or in a new one -/

/-- The entry is in the logged bytes, its key from `i` and its data from `j`
on. -/
structure InLog (bytes : Bytes) (i j : Nat) (e : Entry) : Prop where
  key : i + e.key.length ≤ bytes.length ∧ (bytes.drop i).take e.key.length = e.key
  data : ∀ d, e.data = some d → j + d.length ≤ bytes.length ∧ (bytes.drop j).take d.length = d

/-- `data.dptr` of a node, for data at `q`. -/
def dataOffset (e : Entry) (q : Nat) : Nat := e.data.elim 0 fun _ => q

/-- The node of the key, or the one that `htAlloc` gives it. -/
def nodeFor (ignoreCase : Bool) (m : Mem) (F : Forest) (key : Bytes) : Nat :=
  (lookup ignoreCase F key).elim (get m 0) Prod.fst

/-- The journal after the key got a node, if it had none. -/
def withNode (ignoreCase : Bool) (m : Mem) (F : Forest) (key : Bytes) : Mem :=
  if (lookup ignoreCase F key).isSome then m
  else allocMem m (get m 0) (stopAddr ignoreCase F key)

/-- Bytes that this takes. -/
def nodeRoom (ignoreCase : Bool) (F : Forest) (key : Bytes) : Nat :=
  if (lookup ignoreCase F key).isSome then 0 else sizeofCacheNode

theorem withNode_off (h : JournalAt ignoreCase m H F) (key : Bytes)
    (hsmall : get m 0 + sizeofCacheNode < 2 ^ 32) :
    get (withNode ignoreCase m F key) 0 = get m 0 + nodeRoom ignoreCase F key := by
  have hstop := h.stopAddr_bounds key
  unfold withNode nodeRoom
  split
  · rfl
  · exact allocMem_off hstop.1 hstop.2 hsmall

theorem logged_of_inLog (h : TreesAt m H F) (m₂ : Mem) {base i j : Nat}
    {bytes : Bytes} (hbase : get m 0 ≤ base) (hsmall : base + bytes.length < 2 ^ 32)
    (hin : InLog bytes i j e) :
    Logged (logMem m₂ base bytes) H (base + i) (dataOffset e (base + j)) e := by
  have hlow := h.low
  have hstruct : sizeofCacheStruct = 3092 := rfl
  have hoff : get (logMem m₂ base bytes) 0 = base + bytes.length := logMem_off hsmall
  have hblock : ∀ {i n}, i + n ≤ bytes.length →
      LogBlock H (get (logMem m₂ base bytes) 0) (base + i) n := by
    intro i n hle
    exact LogBlock.fresh h.heap hlow (by omega) (by omega)
  refine ⟨hblock hin.key.1, ?_, ?_, ?_, ?_⟩
  · rw [logMem_read (by omega) hin.key.1, hin.key.2]
  · intro hnone
    rw [dataOffset, hnone]
    rfl
  · intro d hd
    rw [dataOffset, hd]
    exact hblock (hin.data d hd).1
  · intro d hd
    rw [dataOffset, hd]
    exact (logMem_read (by omega) (hin.data d hd).1).trans (hin.data d hd).2

/-- `htAlloc`, `logJournal` and `htInsert` put a node where a search ended. -/
theorem insert_new (h : TreesAt m H F) {i : Nat} (hi : i < cacheHashtabLen)
    {cmp : Entry → Ordering} (hnone : (F i).find cmp = none) {m₂ : Mem} {j k : Nat}
    {bytes : Bytes} (hm₂ : ∀ a < get m 0 + sizeofCacheNode,
      m₂ a = allocMem m (get m 0) (stopIn F i cmp) a)
    (hsmall : get m 0 + sizeofCacheNode + bytes.length < 2 ^ 32) (hin : InLog bytes j k e) :
    TreesAt (insertMem (logMem m₂ (get m 0 + sizeofCacheNode) bytes) (get m 0)
        (get m 0 + sizeofCacheNode + j) e.key.length
        (dataOffset e (get m 0 + sizeofCacheNode + k)) (dataSize e))
      (HeapTree.link H ((F i).stop cmp .root) (get m 0) e) (graft F i cmp (get m 0) e) := by
  have hlogged := logged_of_inLog h m₂ (Nat.le_add_right _ _) hsmall hin
  have hstop := h.stopIn_bounds hi cmp
  have hal := allocLogged hstop.1 hstop.2 hm₂ hsmall
  refine insert_link h hi hnone (fun a ha hlt hc => hal.frame a (by omega) hlt hc)
    hal.cell hal.left hal.right (by rw [hal.off]; omega) hlogged (.inl (by omega)) ?_
  intro d hd
  rw [dataOffset, hd]
  exact .inl (by simp only [Option.elim]; omega)

/-- `logJournal` and `htInsert` give the key its entry. -/
theorem insert_logged (h : JournalAt ignoreCase m H F)
    (he : GoodEntry ignoreCase (slotOf ignoreCase key) e)
    (hkey : canon ignoreCase key = canon ignoreCase e.key) {m₂ : Mem} {base i j : Nat}
    {bytes : Bytes} (hbase : base = get m 0 + nodeRoom ignoreCase F key)
    (hm₂ : ∀ a < base, m₂ a = withNode ignoreCase m F key a)
    (hsmall : base + bytes.length < 2 ^ 32) (hin : InLog bytes i j e) :
    ∃ H', JournalAt ignoreCase
        (insertMem (logMem m₂ base bytes) (nodeFor ignoreCase m F key) (base + i) e.key.length
          (dataOffset e (base + j)) (dataSize e)) H' (upsert ignoreCase F key (get m 0) e) ∧
      ∀ n y, H' n = some y → n + sizeofCacheNode ≤ base := by
  have h24 : sizeofCacheNode = 24 := rfl
  have hlow := h.low
  have hstruct : sizeofCacheStruct = 3092 := rfl
  have hlogged := logged_of_inLog h.trees m₂ (by omega) hsmall hin
  unfold nodeFor
  cases hx : lookup ignoreCase F key with
  | some x =>
      have hb : base = get m 0 := by simp [hbase, nodeRoom, hx]
      have hsame : ∀ a < base, m₂ a = m a := by
        intro a ha
        rw [hm₂ a ha, withNode, hx]
        rfl
      obtain ⟨H', hJ, hdom⟩ := insert_update h hx (get m 0) he hkey
        (fun a ha hlt => show logMem m₂ base bytes a = m a by
          rw [logMem_frame (by omega) (.inl (by omega)), hsame a (by omega)])
        (by rw [logMem_off hsmall]; omega) hlogged
      refine ⟨H', hJ, ?_⟩
      intro n y hy
      have hisSome := hdom n
      rw [hy] at hisSome
      obtain ⟨y', hy'⟩ := Option.isSome_iff_exists.mp hisSome.symm
      rw [hb]
      exact h.heap.high n y' hy'
  | none =>
      have hb : base = get m 0 + sizeofCacheNode := by simp [hbase, nodeRoom, hx]
      subst hb
      have halloc : ∀ a < get m 0 + sizeofCacheNode,
          m₂ a = allocMem m (get m 0) (stopAddr ignoreCase F key) a := by
        intro a ha
        rw [hm₂ a ha, withNode, hx]
        rfl
      have htrees := insert_new h.trees (slotOf_lt ignoreCase key) hx halloc hsmall hin
      refine ⟨_, h.of_trees he hkey htrees, ?_⟩
      intro n y hy
      by_cases hn : n = get m 0
      · omega
      · obtain ⟨x, hx', -⟩ := link_some hn hy
        have := h.heap.high n x hx'
        omega

/-- `htAlloc` and `htInsert` of a deletion whose key is in the log already. -/
theorem insert_deletion (h : JournalAt ignoreCase m H F) (hnone : lookup ignoreCase F key = none)
    (hgood : GoodEntry ignoreCase (slotOf ignoreCase key) ⟨key, none⟩)
    (hsmall : get m 0 + sizeofCacheNode < 2 ^ 32) (hblock : LogBlock H (get m 0) p key.length)
    (hread : read m p key.length = key) :
    ∃ H', JournalAt ignoreCase (insertMem (allocMem m (get m 0) (stopAddr ignoreCase F key))
      (get m 0) p key.length 0 uNotFound) H' (upsert ignoreCase F key (get m 0) ⟨key, none⟩) := by
  have h24 : sizeofCacheNode = 24 := rfl
  have hstruct : sizeofCacheStruct = 3092 := rfl
  have hlow := hblock.low
  have hhigh := hblock.high
  have hstop := h.stopAddr_bounds key
  have hoff := allocMem_off (m := m) hstop.1 hstop.2 hsmall
  have hcell := addr_apart_block (slotOf_lt ignoreCase key) (h.cellIn key) hblock
  have hlogged : Logged (allocMem m (get m 0) (stopAddr ignoreCase F key)) H p 0 ⟨key, none⟩ := by
    refine ⟨by rw [hoff]; exact hblock.mono (by omega), ?_, fun _ => rfl, by simp, by simp⟩
    refine (Agree.read_eq fun z hz hz' => ?_).trans hread
    unfold Apart at hcell
    simp only at hz'
    exact allocMem_frame (by omega) (by unfold stopAddr; omega) (.inl (by omega))
  have hlink := insert_link h.trees (slotOf_lt ignoreCase key) hnone
    (fun a ha hlt hc => allocMem_frame (by omega) hc (.inl hlt)) (allocMem_cell hstop.2 hsmall)
    (allocMem_node (by decide)) (allocMem_node (by decide)) hoff.ge hlogged (.inr hhigh) (by simp)
  exact ⟨_, h.of_trees hgood rfl hlink⟩

/-- What the entry costs is what the journal has grown by. -/
theorem charge_entry (ignoreCase : Bool) (F : Forest) (key : Bytes) (n₀ : Nat) (e : Entry) :
    charge (upsert ignoreCase F key n₀ e) ≤
      charge F + nodeRoom ignoreCase F key + 8 + e.key.length + e.data.elim 0 List.length := by
  have hcharge := charge_upsert ignoreCase F key n₀ e
  unfold nodeRoom
  cases hx : lookup ignoreCase F key with
  | none =>
      simp only [hx, Option.elim_none, cost, Nat.add_zero] at hcharge
      simp only [Option.isSome_none, Bool.false_eq_true, if_false, sizeofCacheNode]
      omega
  | some x =>
      simp only [hx, Option.elim_some, cost] at hcharge
      simp only [Option.isSome_some, if_true]
      omega

end ULib.JournalEntry
