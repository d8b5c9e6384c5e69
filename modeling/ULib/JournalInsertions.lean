import ULib.RdbRefinement

/-!
Insertions into the hash tree of a journal, with any hash values. The keys at a
node are compared on their common prefix only, which orders nothing: a key is
found because its search takes the way of its insertion, and a later insertion
only hangs a node where a search for another key ended.
-/

namespace ULib.JournalInsertions

open ByteMemory
open KeyComparison
open ConstantDatabase
open ReliableDatabase
open ReliableDatabase.URDB
open HeapTree
open JournalTree
open SlotTrees
open JournalForest
open JournalLog
open JournalEntry
open RdbCalls
open RdbUpdates
open RdbRefinement

/-- A record to insert, and the answers of the system meanwhile. -/
structure Insertion where
  key : Bytes
  data : Bytes
  env : Env

variable (hash : Bytes → Nat)

/-- What `htLookup` says of a key: whether it has a node, and which. -/
def answer (s : URDB) (key : Bytes) : Option (Bool × Nat) :=
  (htLookup { s with key := Datum.ofBytes key, khash := hash key }).map fun r => (r.1, r.2.node)

/-- The way of `store` for a key without a node: `htAlloc` at the pointer that
`htLookup` left, and then the record is logged and put into the node. -/
def insertion (s : URDB) (x : Insertion) : Option URDB := do
  let r ← htLookup { s with
    key := Datum.ofBytes x.key, data := Datum.ofBytes x.data, khash := hash x.key }
  if r.1 then none
  else
    let s ← htAlloc r.2
    let logged ← logJournal s .store x.env
    if logged.1 then htInsert logged.2 else none

/-- `RDB_node_key`. -/
def nodeKey (m : Mem) (n : Nat) : Bytes := read m (get m n) (get m (n + 4))

/-- The keys that the tree takes for one: they have the same slot, and
`u_equal` finds no difference. -/
def SameKey (ignoreCase : Bool) (j k : Bytes) : Prop :=
  hash j % cacheHashtabLen = hash k % cacheHashtabLen ∧ j.length = k.length ∧
    uEqual j k j.length ignoreCase = 0

instance (ignoreCase : Bool) (j k : Bytes) : Decidable (SameKey hash ignoreCase j k) :=
  inferInstanceAs (Decidable (_ ∧ _ ∧ _))

/-- A journal without nodes: a new one, or one after a reset. -/
structure Vacant (s : URDB) : Prop where
  low : sizeofCacheStruct ≤ s.off
  room : s.off + sizeofCacheNode ≤ s.journal.stSize
  small : s.journal.stSize < 2 ^ 32
  slots : ∀ i < cacheHashtabLen, get s.mem (hashtab i) = 0

/-- Size of the journal that an insertion asks for. -/
def demand (s : URDB) (x : Insertion) : Nat :=
  s.off + sizeofCacheNode + (8 + x.key.length + x.data.length) + 48

/-- The journal has room for all insertions, or the system lets it grow. -/
def Provided : List Insertion → URDB → Prop
  | [], _ => True
  | x :: xs, s => Granted x.env s.journal (demand s x) ∧
      ∀ s', insertion hash s x = some s' → Provided xs s'

theorem sameKey_iff {ignoreCase : Bool} {j k : Bytes} : SameKey hash ignoreCase j k ↔
    hash j % cacheHashtabLen = hash k % cacheHashtabLen ∧ ordKey ignoreCase j k = .eq := by
  rw [SameKey, ordKey_eq_iff_equal]

/-- In case-sensitive mode no two keys are taken for one. -/
theorem sameKey_caseSensitive {j k : Bytes} : SameKey hash false j k ↔ j = k := by
  constructor
  · rintro ⟨-, hlen, hzero⟩
    exact (memcmp_eq_zero hlen).mp hzero
  · rintro rfl
    exact ⟨rfl, rfl, uEqual_self j false⟩

/-- The journal in which `keys` were inserted. -/
structure Holding (s : URDB) (keys : List Bytes) (H : Heap Entry) (F : Forest) : Prop where
  trees : TreesAt s.mem H F
  room : s.off + sizeofCacheNode ≤ s.journal.stSize
  small : s.journal.stSize < 2 ^ 32
  slot : ∀ i < cacheHashtabLen, ∀ e ∈ (F i).entries,
    e.2.key ≠ [] ∧ hash e.2.key % cacheHashtabLen = i
  owned : ∀ i < cacheHashtabLen, Owned (ordKey s.ignoreCase) Entry.key (F i)
  mem_keys : ∀ k, k ∈ keys ↔ ∃ i < cacheHashtabLen, ∃ e ∈ (F i).entries, e.2.key = k

variable {hash} {s : URDB} {keys : List Bytes} {H : Heap Entry} {F : Forest} {x : Insertion}

theorem Vacant.holding (hs : Vacant s) : Holding hash s [] (fun _ => none) (fun _ => .leaf) := by
  refine ⟨treesAt_empty hs.low hs.slots, hs.room, hs.small, ?_, fun _ _ => owned_leaf, ?_⟩
  · simp [Tree.entries]
  · simp [Tree.entries]

theorem mod_lt (h : Nat) : h % cacheHashtabLen < cacheHashtabLen := Nat.mod_lt _ (by decide)

/-! ### Lookups -/

/-- The search for a key in the tree of its slot. -/
def search (hash : Bytes → Nat) (ignoreCase : Bool) (F : Forest) (k : Bytes) :
    Option (Nat × Entry) :=
  (F (hash k % cacheHashtabLen)).find (ordKey ignoreCase k ∘ Entry.key)

/-- The pointer at which this search ends. -/
def stopFor (hash : Bytes → Nat) (ignoreCase : Bool) (F : Forest) (k : Bytes) : Nat :=
  stopIn F (hash k % cacheHashtabLen) (ordKey ignoreCase k ∘ Entry.key)

/-- `htLookup` of an object with the journal of `s`. -/
theorem Holding.htLookup_eq (h : Holding hash s keys H F) {t : URDB} {k : Bytes}
    (hjournal : t.journal = s.journal) (hcdb : t.cdb = s.cdb) (hkey : t.key = Datum.ofBytes k)
    (hhash : t.khash = hash k) :
    htLookup t = some ((search hash s.ignoreCase F k).isSome,
      { t with
        pnode := (s.journal.map, stopFor hash s.ignoreCase F k)
        node := (search hash s.ignoreCase F k).elim 0 Prod.fst }) := by
  have hroom := h.room
  have hmem : t.mem = s.mem := by rw [URDB.mem, hjournal]; rfl
  have hic : t.ignoreCase = s.ignoreCase := by rw [URDB.ignoreCase, hcdb]; rfl
  have hoff : t.off = s.off := by rw [URDB.off, hmem]; rfl
  have hlook := htLookup_trees (s := t) (hmem ▸ h.trees) (by rw [hoff, hjournal]; omega)
    (by rw [hhash]) (by rw [hkey, bytes_ofBytes]) fun e he => (h.slot _ (mod_lt _) e he).1
  rw [hlook, hic, hjournal]
  rfl

theorem Holding.answer_eq (h : Holding hash s keys H F) (k : Bytes) :
    answer hash s k = some ((search hash s.ignoreCase F k).isSome,
      (search hash s.ignoreCase F k).elim 0 Prod.fst) := by
  have hlook := h.htLookup_eq (t := { s with key := Datum.ofBytes k, khash := hash k })
    rfl rfl rfl rfl
  rw [answer, hlook]
  rfl

theorem Holding.search_eq_some_iff (h : Holding hash s keys H F) {k : Bytes} {e : Nat × Entry} :
    search hash s.ignoreCase F k = some e ↔
      e ∈ (F (hash k % cacheHashtabLen)).entries ∧ ordKey s.ignoreCase k e.2.key = .eq :=
  (h.owned _ (mod_lt _)).find_iff (ordKey_congruent _)

theorem Holding.search_of_mem (h : Holding hash s keys H F) {j k : Bytes} (hj : j ∈ keys)
    (hsame : SameKey hash s.ignoreCase j k) :
    ∃ e, search hash s.ignoreCase F k = some e ∧ e.2.key = j := by
  obtain ⟨hslot, heq⟩ := (sameKey_iff hash).mp hsame
  obtain ⟨i, hi, e, he, rfl⟩ := (h.mem_keys j).mp hj
  obtain rfl := (h.slot i hi e he).2
  rw [hslot] at he
  exact ⟨e, h.search_eq_some_iff.mpr ⟨he, (ordKey_congruent _).symm heq⟩, rfl⟩

theorem Holding.sameKey_of_search (h : Holding hash s keys H F) {k : Bytes} {e : Nat × Entry}
    (hsome : search hash s.ignoreCase F k = some e) :
    e.2.key ∈ keys ∧ SameKey hash s.ignoreCase e.2.key k := by
  obtain ⟨he, heq⟩ := h.search_eq_some_iff.mp hsome
  exact ⟨(h.mem_keys _).mpr ⟨_, mod_lt _, e, he, rfl⟩,
    (sameKey_iff hash).mpr ⟨(h.slot _ (mod_lt _) e he).2, (ordKey_congruent _).symm heq⟩⟩

theorem Holding.search_eq_none (h : Holding hash s keys H F) {k : Bytes}
    (hnew : ∀ j ∈ keys, ¬ SameKey hash s.ignoreCase j k) :
    search hash s.ignoreCase F k = none := by
  rw [Option.eq_none_iff_forall_ne_some]
  intro e hsome
  obtain ⟨hmem, hsame⟩ := h.sameKey_of_search hsome
  exact hnew _ hmem hsame

theorem Holding.nodeKey_eq (h : Holding hash s keys H F) {k : Bytes} {e : Nat × Entry}
    (hsome : search hash s.ignoreCase F k = some e) : nodeKey s.mem e.1 = e.2.key := by
  obtain ⟨y, hval, hnode⟩ := h.trees.nodeAt (mod_lt _) (h.search_eq_some_iff.mp hsome).1
  rw [nodeKey, hnode.klen, hnode.key, hval]

theorem Holding.answer_spec (h : Holding hash s keys H F) (k : Bytes) :
    ∃ found n, answer hash s k = some (found, n) ∧
      (found = true ↔ ∃ j ∈ keys, SameKey hash s.ignoreCase j k) ∧
      ∀ j ∈ keys, SameKey hash s.ignoreCase j k → nodeKey s.mem n = j := by
  refine ⟨_, _, h.answer_eq k, ?_, ?_⟩
  · rw [Option.isSome_iff_exists]
    constructor
    · rintro ⟨e, hsome⟩
      exact ⟨_, h.sameKey_of_search hsome⟩
    · rintro ⟨j, hj, hsame⟩
      obtain ⟨e, hsome, -⟩ := h.search_of_mem hj hsame
      exact ⟨e, hsome⟩
  · intro j hj hsame
    obtain ⟨e, hsome, hkey⟩ := h.search_of_mem hj hsame
    rw [hsome, ← hkey]
    exact h.nodeKey_eq hsome

/-! ### One insertion -/

/-- The trees after an insertion. -/
def grafted (hash : Bytes → Nat) (s : URDB) (F : Forest) (x : Insertion) : Forest :=
  graft F (hash x.key % cacheHashtabLen) (ordKey s.ignoreCase x.key ∘ Entry.key) s.off
    ⟨x.key, some x.data⟩

/-- The record that an insertion logs. -/
def record (x : Insertion) : Bytes := recordHeader x.key.length x.data.length ++ x.key ++ x.data

theorem demand_eq (s : URDB) (x : Insertion) :
    demand s x = s.off + sizeofCacheNode + (record x).length + 48 := by
  simp only [demand, record, List.length_append, length_recordHeader]

/-- The object in which the key has a node, before the record is logged. -/
def allocated (hash : Bytes → Nat) (s : URDB) (F : Forest) (x : Insertion) : URDB :=
  { s with
    key := Datum.ofBytes x.key
    data := Datum.ofBytes x.data
    khash := hash x.key
    journal := { s.journal with
      mem := allocMem s.mem s.off (stopFor hash s.ignoreCase F x.key) }
    pnode := (s.journal.map, stopFor hash s.ignoreCase F x.key)
    node := s.off
    trace := s.trace ++ [.alloc s.off s.journal.stSize] }

/-- `htLookup` and `htAlloc`. -/
theorem Holding.allocates (h : Holding hash s keys H F)
    (hnone : search hash s.ignoreCase F x.key = none) :
    ∃ t, htLookup { s with
        key := Datum.ofBytes x.key, data := Datum.ofBytes x.data, khash := hash x.key } =
        some (false, t) ∧
      htAlloc t = some (allocated hash s F x) := by
  have hlook := h.htLookup_eq (k := x.key) (t := { s with
    key := Datum.ofBytes x.key, data := Datum.ofBytes x.data, khash := hash x.key })
    rfl rfl rfl rfl
  rw [hnone] at hlook
  exact ⟨_, hlook, htAlloc_eq rfl⟩

theorem Holding.allocated_off (h : Holding hash s keys H F)
    (hg : Granted x.env s.journal (demand s x)) :
    (allocated hash s F x).off = s.off + sizeofCacheNode := by
  have hstop := h.trees.stopIn_bounds (mod_lt (hash x.key)) (ordKey s.ignoreCase x.key ∘ Entry.key)
  have hfits := hg.fits
  rw [demand_eq] at hfits
  exact allocMem_off hstop.1 hstop.2 (by omega)

/-- `logJournal` and `htInsert`. -/
theorem Holding.logs (h : Holding hash s keys H F) (hg : Granted x.env s.journal (demand s x)) :
    ∃ t s', logJournal (allocated hash s F x) .store x.env = some (true, t) ∧
      htInsert t = some s' ∧ s'.cdb = s.cdb ∧
      s'.journal.stSize = (grown x.env s.journal (demand s x)).stSize ∧
      s'.mem = entryMem (grown x.env (allocated hash s F x).journal (demand s x)).mem
        (s.off + sizeofCacheNode) s.off (record x) 8 (8 + x.key.length) ⟨x.key, some x.data⟩ := by
  have hroom := h.room
  have hlow : sizeofCacheStruct ≤ s.off := h.trees.low
  have hstruct : sizeofCacheStruct = 3092 := rfl
  have hoff : (allocated hash s F x).off = s.off + sizeofCacheNode := h.allocated_off hg
  have hroom' : Granted x.env (allocated hash s F x).journal ((allocated hash s F x).off +
      (8 + x.key.length + x.data.length) + 48) := by
    rw [hoff]
    exact ⟨hg.fits, hg.grow⟩
  have hlog := logStore_eq (s := allocated hash s F x) rfl rfl hroom' rfl
    (show 4 ≤ s.journal.stSize by omega)
  rw [hoff] at hlog
  exact ⟨_, _, hlog, htInsert_data rfl rfl, rfl, grown_stSize _, rfl⟩

/-- What an insertion leaves. -/
structure Inserts (hash : Bytes → Nat) (s : URDB) (F : Forest) (x : Insertion) (s' : URDB) :
    Prop where
  step : insertion hash s x = some s'
  cdb : s'.cdb = s.cdb
  stSize : s'.journal.stSize = (grown x.env s.journal (demand s x)).stSize
  off : s'.off + 48 = demand s x
  trees : ∃ H', TreesAt s'.mem H' (grafted hash s F x)

theorem Holding.inserts (h : Holding hash s keys H F)
    (hnone : search hash s.ignoreCase F x.key = none)
    (hg : Granted x.env s.journal (demand s x)) : ∃ s', Inserts hash s F x s' := by
  have hroom := h.room
  have hlow : sizeofCacheStruct ≤ s.off := h.trees.low
  have hstruct : sizeofCacheStruct = 3092 := rfl
  have hfits : s.off + sizeofCacheNode + (record x).length < 2 ^ 32 := by
    have hsize := hg.fits
    rw [demand_eq] at hsize
    omega
  obtain ⟨t, hlook, halloc⟩ := h.allocates hnone
  obtain ⟨t', s', hlog, hinsert, hcdb, hsize, hmem⟩ := h.logs hg
  -- the log grows behind the new node
  have hgrown : ∀ a < s.off + sizeofCacheNode,
      (grown x.env (allocated hash s F x).journal (demand s x)).mem a =
        allocMem s.mem s.off (stopFor hash s.ignoreCase F x.key) a :=
    fun a ha => grown_frame (show a < s.journal.stSize by omega)
  have htrees := insert_new h.trees (mod_lt _) hnone hgrown hfits (inLog_store x.key x.data)
  refine ⟨s', ⟨?_, hcdb, hsize, ?_, ⟨_, by rw [hmem]; exact htrees⟩⟩⟩
  · simp only [insertion, hlook, halloc, hlog, Option.bind_eq_bind, Option.bind_some,
      Bool.false_eq_true, if_false, if_true, hinsert]
  · have hword : s'.off = get (logMem (grown x.env (allocated hash s F x).journal
        (demand s x)).mem (s.off + sizeofCacheNode) (record x)) 0 := by
      rw [URDB.off, hmem]
      exact Agree.get_eq fun z _ hz => insertMem_frame (.inl (by omega))
    rw [hword, logMem_off hfits, demand_eq]

theorem mem_grafted (hnone : search hash s.ignoreCase F x.key = none) {i : Nat}
    {e : Nat × Entry} : e ∈ (grafted hash s F x i).entries ↔
      i = hash x.key % cacheHashtabLen ∧ e = (s.off, ⟨x.key, some x.data⟩) ∨
        e ∈ (F i).entries := by
  rw [grafted, graft]
  by_cases hslot : i = hash x.key % cacheHashtabLen
  · subst hslot
    rw [Function.update_self, Tree.mem_entries_put hnone]
    simp
  · rw [Function.update_of_ne hslot]
    simp [hslot]

theorem Holding.owned_grafted (h : Holding hash s keys H F)
    (hnone : search hash s.ignoreCase F x.key = none) {i : Nat} (hi : i < cacheHashtabLen) :
    Owned (ordKey s.ignoreCase) Entry.key (grafted hash s F x i) := by
  rw [grafted, graft]
  by_cases hslot : i = hash x.key % cacheHashtabLen
  · subst hslot
    rw [Function.update_self]
    exact @Owned.put _ _ _ Entry.key _ (h.owned _ hi) (ordKey_congruent _) s.off
      ⟨x.key, some x.data⟩ hnone
  · rw [Function.update_of_ne hslot]
    exact h.owned i hi

theorem Holding.search_grafted (h : Holding hash s keys H F)
    (hnone : search hash s.ignoreCase F x.key = none) {k : Bytes}
    (hk : ¬ SameKey hash s.ignoreCase x.key k) :
    search hash s.ignoreCase (grafted hash s F x) k = search hash s.ignoreCase F k := by
  rw [search, grafted, graft]
  by_cases hslot : hash k % cacheHashtabLen = hash x.key % cacheHashtabLen
  · have hne : ordKey s.ignoreCase k x.key ≠ .eq := fun heq =>
      hk ((sameKey_iff hash).mpr ⟨hslot.symm, (ordKey_congruent _).symm heq⟩)
    rw [hslot, Function.update_self, search, hslot]
    exact @Owned.find_put_other _ _ _ Entry.key _ (h.owned _ (mod_lt _)) (ordKey_congruent _)
      s.off ⟨x.key, some x.data⟩ hnone k hne
  · rw [Function.update_of_ne hslot]
    rfl

theorem Holding.insert (h : Holding hash s keys H F)
    (hnone : search hash s.ignoreCase F x.key = none) (hne : x.key ≠ [])
    (hg : Granted x.env s.journal (demand s x)) {s' : URDB} (hs' : Inserts hash s F x s') :
    ∃ H', Holding hash s' (keys ++ [x.key]) H' (grafted hash s F x) := by
  have hic : s'.ignoreCase = s.ignoreCase := by rw [URDB.ignoreCase, hs'.cdb]; rfl
  have h24 : sizeofCacheNode = 24 := rfl
  have hoff := hs'.off
  have hle : demand s x ≤ s'.journal.stSize := by
    rw [hs'.stSize]
    exact le_grown
  obtain ⟨H', htrees⟩ := hs'.trees
  refine ⟨H', htrees, by omega, ?_, ?_, ?_, ?_⟩
  · rw [hs'.stSize]
    exact grown_small hg h.small
  · intro i hi e he
    rcases (mem_grafted hnone).mp he with ⟨rfl, rfl⟩ | he
    · exact ⟨hne, rfl⟩
    · exact h.slot i hi e he
  · intro i hi
    rw [hic]
    exact h.owned_grafted hnone hi
  · intro k
    rw [List.mem_append, List.mem_singleton, h.mem_keys]
    constructor
    · rintro (⟨i, hi, e, he, rfl⟩ | rfl)
      · exact ⟨i, hi, e, (mem_grafted hnone).mpr (.inr he), rfl⟩
      · exact ⟨_, mod_lt _, _, (mem_grafted hnone).mpr (.inl ⟨rfl, rfl⟩), rfl⟩
    · rintro ⟨i, hi, e, he, rfl⟩
      rcases (mem_grafted hnone).mp he with ⟨rfl, rfl⟩ | he
      · exact .inr rfl
      · exact .inl ⟨i, hi, e, he, rfl⟩

/-- One insertion of a new key: it is in the journal afterwards, and the answer
for every other key is the one of before. -/
theorem Holding.insertion_spec (h : Holding hash s keys H F) (hne : x.key ≠ [])
    (hnew : ∀ j ∈ keys, ¬ SameKey hash s.ignoreCase j x.key)
    (hg : Granted x.env s.journal (demand s x)) :
    ∃ s', insertion hash s x = some s' ∧ s'.ignoreCase = s.ignoreCase ∧
      s'.off + 48 = demand s x ∧ s.journal.stSize ≤ s'.journal.stSize ∧
      (∃ H' F', Holding hash s' (keys ++ [x.key]) H' F') ∧
      ∀ k, ¬ SameKey hash s.ignoreCase x.key k → answer hash s' k = answer hash s k := by
  have hnone := h.search_eq_none hnew
  obtain ⟨s', hs'⟩ := h.inserts hnone hg
  obtain ⟨H', h'⟩ := h.insert hnone hne hg hs'
  have hic : s'.ignoreCase = s.ignoreCase := by rw [URDB.ignoreCase, hs'.cdb]; rfl
  refine ⟨s', hs'.step, hic, hs'.off, ?_, ⟨H', _, h'⟩, ?_⟩
  · rw [hs'.stSize, grown]
    split
    · simp only [growth]
      omega
    · exact le_refl _
  · intro k hk
    rw [h'.answer_eq, hic, h.search_grafted hnone hk, h.answer_eq]

/-! ### All insertions -/

theorem new_append {ignoreCase : Bool} {xs : List Insertion}
    (hnew : ∀ j ∈ keys, ∀ y ∈ x :: xs, ¬ SameKey hash ignoreCase j y.key)
    (hx : ∀ y ∈ xs, ¬ SameKey hash ignoreCase x.key y.key) :
    ∀ j ∈ keys ++ [x.key], ∀ y ∈ xs, ¬ SameKey hash ignoreCase j y.key := by
  intro j hj y hy
  rcases List.mem_append.mp hj with hj | hj
  · exact hnew j hj y (by simp [hy])
  · obtain rfl := List.mem_singleton.mp hj
    exact hx y hy

theorem insertions_spec (h : Holding hash s keys H F) {xs : List Insertion}
    (hne : ∀ x ∈ xs, x.key ≠ [])
    (hdistinct : xs.Pairwise fun x y => ¬ SameKey hash s.ignoreCase x.key y.key)
    (hnew : ∀ j ∈ keys, ∀ x ∈ xs, ¬ SameKey hash s.ignoreCase j x.key)
    (hprovided : Provided hash xs s) :
    ∃ s', xs.foldlM (insertion hash) s = some s' ∧ s'.ignoreCase = s.ignoreCase ∧
      ∃ H' F', Holding hash s' (keys ++ xs.map Insertion.key) H' F' := by
  induction xs generalizing s keys H F with
  | nil => exact ⟨s, rfl, rfl, H, F, by simpa using h⟩
  | cons x xs ih =>
      obtain ⟨hg, hrest⟩ := hprovided
      obtain ⟨hx, hpairwise⟩ := List.pairwise_cons.mp hdistinct
      obtain ⟨s₁, hstep, hic, -, -, ⟨H₁, F₁, h₁⟩, -⟩ := h.insertion_spec (hne x (by simp))
        (fun j hj => hnew j hj x (by simp)) hg
      obtain ⟨s', hrun, hic', hold⟩ := ih h₁ (fun y hy => hne y (by simp [hy]))
        (by rw [hic]; exact hpairwise) (by rw [hic]; exact new_append hnew hx) (hrest s₁ hstep)
      refine ⟨s', ?_, hic'.trans hic, by simpa using hold⟩
      rw [List.foldlM_cons, hstep]
      exact hrun

theorem Provided.append {ys zs : List Insertion} (h : Provided hash (ys ++ zs) s) :
    Provided hash ys s ∧ ∀ s', ys.foldlM (insertion hash) s = some s' → Provided hash zs s' := by
  induction ys generalizing s with
  | nil =>
      refine ⟨trivial, ?_⟩
      rintro s' ⟨⟩
      exact h
  | cons x ys ih =>
      obtain ⟨hg, hrest⟩ := h
      refine ⟨⟨hg, fun s₁ hstep => (ih (hrest s₁ hstep)).1⟩, ?_⟩
      intro s' hrun
      rw [List.foldlM_cons, Option.bind_eq_bind, Option.bind_eq_some_iff] at hrun
      obtain ⟨s₁, hstep, hrun⟩ := hrun
      exact (ih (hrest s₁ hstep)).2 s' hrun

/-- A journal that has room for the records asks nothing of the system. -/
theorem provided_of_room (h : Holding hash s keys H F) {xs : List Insertion}
    (hne : ∀ x ∈ xs, x.key ≠ [])
    (hdistinct : xs.Pairwise fun x y => ¬ SameKey hash s.ignoreCase x.key y.key)
    (hnew : ∀ j ∈ keys, ∀ x ∈ xs, ¬ SameKey hash s.ignoreCase j x.key)
    (hroom : s.off + (xs.map fun x => 32 + x.key.length + x.data.length).sum + 48 ≤
      s.journal.stSize) : Provided hash xs s := by
  induction xs generalizing s keys H F with
  | nil => trivial
  | cons x xs ih =>
      have h24 : sizeofCacheNode = 24 := rfl
      have hsmall := h.small
      obtain ⟨hx, hpairwise⟩ := List.pairwise_cons.mp hdistinct
      rw [List.map_cons, List.sum_cons] at hroom
      have hle : demand s x ≤ s.journal.stSize := by
        rw [demand]
        omega
      have hg : Granted x.env s.journal (demand s x) := ⟨by omega, fun hlt => by omega⟩
      refine ⟨hg, fun s₁ hstep => ?_⟩
      obtain ⟨s', hstep', hic, hoff, hsize, ⟨H₁, F₁, h₁⟩, -⟩ := h.insertion_spec
        (hne x (by simp)) (fun j hj => hnew j hj x (by simp)) hg
      obtain rfl := Option.some.inj (hstep.symm.trans hstep')
      rw [demand] at hoff
      exact ih h₁ (fun y hy => hne y (by simp [hy])) (by rw [hic]; exact hpairwise)
        (by rw [hic]; exact new_append hnew hx) (by omega)

/-- Insertions of keys that the tree tells apart, into a journal without nodes:
`htLookup` then finds a node for a key exactly if the key was inserted, and the
node holds this key; and an insertion changes the answer for no other key. -/
theorem insertions_found (hash : Bytes → Nat) {s : URDB} (hs : Vacant s) {xs : List Insertion}
    (hne : ∀ x ∈ xs, x.key ≠ [])
    (hdistinct : xs.Pairwise fun x y => ¬ SameKey hash s.ignoreCase x.key y.key)
    (hprovided : Provided hash xs s) :
    ∃ s', xs.foldlM (insertion hash) s = some s' ∧
      (∀ k, ∃ found n, answer hash s' k = some (found, n) ∧
        (found = true ↔ ∃ x ∈ xs, SameKey hash s.ignoreCase x.key k) ∧
        ∀ x ∈ xs, SameKey hash s.ignoreCase x.key k → nodeKey s'.mem n = x.key) ∧
      ∀ ys x zs, xs = ys ++ x :: zs → ∃ s₁ s₂, ys.foldlM (insertion hash) s = some s₁ ∧
        insertion hash s₁ x = some s₂ ∧
        ∀ k, ¬ SameKey hash s.ignoreCase x.key k → answer hash s₂ k = answer hash s₁ k := by
  obtain ⟨s', hrun, hic, H', F', hold⟩ := insertions_spec hs.holding hne hdistinct (by simp)
    hprovided
  refine ⟨s', hrun, ?_, ?_⟩
  · intro k
    obtain ⟨found, n, hanswer, hfound, hnode⟩ := hold.answer_spec k
    rw [hic] at hfound hnode
    refine ⟨found, n, hanswer, ?_, ?_⟩
    · simpa using hfound
    · intro x hx hsame
      exact hnode x.key (by simpa using ⟨x, hx, rfl⟩) hsame
  · rintro ys x zs rfl
    obtain ⟨hys, hrest⟩ := hprovided.append
    rw [List.pairwise_append] at hdistinct
    obtain ⟨hdistinct, -, hacross⟩ := hdistinct
    obtain ⟨s₁, hrun₁, hic₁, H₁, F₁, h₁⟩ := insertions_spec hs.holding
      (fun y hy => hne y (by simp [hy])) hdistinct (by simp) hys
    have hnew : ∀ j ∈ ([] : List Bytes) ++ ys.map Insertion.key,
        ¬ SameKey hash s₁.ignoreCase j x.key := by
      intro j hj
      obtain ⟨y, hy, rfl⟩ := List.mem_map.mp (by simpa using hj)
      rw [hic₁]
      exact hacross y hy x (by simp)
    obtain ⟨s₂, hstep, -, -, -, -, hother⟩ := h₁.insertion_spec (hne x (by simp)) hnew
      (hrest s₁ hrun₁).1
    rw [hic₁] at hother
    exact ⟨s₁, s₂, hrun₁, hstep, hother⟩

theorem vacant_newDatabase {logSize : Nat} (hlow : sizeofCacheStruct + sizeofCacheNode ≤ logSize)
    (hhigh : logSize < 2 ^ 32) : Vacant (newDatabase logSize) := by
  have hgood := newDatabase_good hlow hhigh
  exact ⟨hgood.journal.low, hgood.room, hgood.small, hgood.journal.slot⟩

/-- A key, one of its prefixes and one of its extensions. -/
def prefixes : List Insertion :=
  [⟨[97, 98], [1], granting⟩, ⟨[97], [2], granting⟩, ⟨[97, 98, 97], [3], granting⟩]

theorem insertions_found_prefixes :
    ∃ s', prefixes.foldlM (insertion fun _ => 7) (newDatabase 4096) = some s' ∧
      ∃ n, answer (fun _ => 7) s' [97] = some (true, n) ∧ nodeKey s'.mem n = [97] := by
  have hs := @vacant_newDatabase 4096 (by decide) (by decide)
  have hne : ∀ x ∈ prefixes, x.key ≠ [] := by
    simp [prefixes]
  have hdistinct : prefixes.Pairwise fun x y =>
      ¬ SameKey (fun _ => 7) (newDatabase 4096).ignoreCase x.key y.key := by
    simp [prefixes, SameKey]
  obtain ⟨s', hrun, hfound, -⟩ := insertions_found (fun _ => 7) hs hne hdistinct
    (provided_of_room hs.holding hne hdistinct (by simp) (by decide))
  obtain ⟨found, n, hanswer, hiff, hnode⟩ := hfound [97]
  have hmem : ⟨[97], [2], granting⟩ ∈ prefixes := by
    simp [prefixes]
  have hsame : SameKey (fun _ => 7) (newDatabase 4096).ignoreCase [97] [97] := by
    decide
  refine ⟨s', hrun, n, ?_, hnode _ hmem hsame⟩
  rw [hanswer, hiff.mpr ⟨_, hmem, hsame⟩]

/-- A new database that ignores case. -/
def newDatabaseNoCase : URDB :=
  openJournal (openFile true true (fun _ => 0) 0) newCursor (fun _ => 0) 0 4096 false true 1

/-- Only "a" was inserted, but "A" is found too. -/
theorem other_case_found :
    ¬ ∀ s', [⟨[97], [1], granting⟩].foldlM (insertion (cdbHash true)) newDatabaseNoCase = some s' →
      ∀ k, (∃ n, answer (cdbHash true) s' k = some (true, n)) ↔ k ∈ [[97]] := by
  intro h
  have hfound : ([⟨[97], [1], granting⟩].foldlM (insertion (cdbHash true)) newDatabaseNoCase).map
      (fun s => answer (cdbHash true) s [65]) = some (some (true, 3092)) := by
    decide
  obtain ⟨s', hrun, hanswer⟩ := Option.map_eq_some_iff.mp hfound
  exact absurd ((h s' hrun [65]).mp ⟨_, hanswer⟩) (by decide)

end ULib.JournalInsertions
