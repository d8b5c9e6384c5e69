import ULib.JournalEntry

/-!
The calls of the class one by one. `Good` is the state between calls: the
journal in order, with room for one node, over a constant database. A call
either leaves the journal alone or gets to `logJournal` with a node for its
key; from there on it is described by what it does to the trees.
-/

namespace ULib.RdbCalls

open ByteMemory
open KeyComparison
open ConstantDatabase
open CdbLookup
open ReliableDatabase
open ReliableDatabase.URDB
open HeapTree
open JournalTree
open JournalForest
open JournalLog
open JournalEntry

/-- A database with the records `rs` under the journal with the trees `F`. -/
structure Good (s : URDB) (rs : List Record) (H : Heap Entry) (F : Forest) : Prop where
  journal : JournalAt s.ignoreCase s.mem H F
  room : s.off + sizeofCacheNode ≤ s.journal.stSize
  small : s.journal.stSize < 2 ^ 32
  cdb : CdbAt s.cdb rs
  charged : charge F + sizeofCacheStruct ≤ s.off

/-- The value of a key. -/
def view (ignoreCase : Bool) (rs : List Record) (F : Forest) (key : Bytes) : Option Bytes :=
  match lookup ignoreCase F key with
  | some x => x.2.data
  | none => (dataOf ignoreCase rs key).head?

/-- The keys the class is made for: not empty, and comparable as a whole. -/
def KeyOk (ignoreCase : Bool) (key : Bytes) : Prop := key ≠ [] ∧ Comparable ignoreCase key

instance (ignoreCase : Bool) (key : Bytes) : Decidable (KeyOk ignoreCase key) :=
  inferInstanceAs (Decidable (_ ∧ _))

/-- Every node was allocated inside the file. -/
def Safe (s s' : URDB) : Prop :=
  ∃ es, s'.trace = s.trace ++ es ∧ ∀ o z, Event.alloc o z ∈ es → o + sizeofCacheNode ≤ z

structure Untouched (s s' : URDB) : Prop where
  journal : s'.journal = s.journal
  cdb : s'.cdb = s.cdb
  locked : s'.locked = s.locked
  trace : s'.trace = s.trace

/-- The object `s₁` got to `logJournal` with a node for the key. -/
structure Prepared (s : URDB) (F : Forest) (key : Bytes) (s₁ : URDB) : Prop where
  cdb : s₁.cdb = s.cdb
  journal : s₁.journal = { s.journal with mem := withNode s.ignoreCase s.mem F key }
  key_eq : s₁.key = Datum.ofBytes key
  pnode : s₁.pnode = (s.journal.map, stopAddr s.ignoreCase F key)
  node : s₁.node = nodeFor s.ignoreCase s.mem F key
  locked : s₁.locked = s.locked + 1
  safe : Safe s s₁

variable {s : URDB} {rs : List Record} {H : Heap Entry} {F : Forest}

theorem Safe.trans {s s₁ s₂ : URDB} (h : Safe s s₁) (h' : Safe s₁ s₂) : Safe s s₂ := by
  obtain ⟨es, htrace, hes⟩ := h
  obtain ⟨es', htrace', hes'⟩ := h'
  refine ⟨es ++ es', by rw [htrace', htrace, List.append_assoc], ?_⟩
  intro o z hmem
  rcases List.mem_append.mp hmem with hmem | hmem
  · exact hes o z hmem
  · exact hes' o z hmem

theorem Safe.congr {s s₁ s' : URDB} (h : Safe s s₁) (htrace : s'.trace = s₁.trace) : Safe s s' :=
  h.trans ⟨[], by simp [htrace], by simp⟩

theorem Safe.insert {s s₁ s' : URDB} {n : Nat} (h : Safe s s₁)
    (htrace : s'.trace = s₁.trace ++ [.insert n]) : Safe s s' :=
  h.trans ⟨[.insert n], htrace, by simp⟩

theorem Untouched.safe {s' : URDB} (h : Untouched s s') : Safe s s' :=
  ⟨[], by simp [h.trace], by simp⟩

theorem Untouched.nrecord {s' : URDB} (h : Untouched s s') : s'.nrecord = s.nrecord := by
  rw [URDB.nrecord, URDB.mem, h.journal]
  rfl

/-- The object with the cursors left somewhere else. -/
theorem Good.congr (hs : Good s rs H F) {s' : URDB} (hjournal : s'.journal = s.journal)
    (hcdb : s'.cdb = s.cdb) : Good s' rs H F := by
  have hmem : s'.mem = s.mem := by rw [URDB.mem, hjournal]; rfl
  have hic : s'.ignoreCase = s.ignoreCase := by rw [URDB.ignoreCase, hcdb]; rfl
  have hoff : s'.off = s.off := by rw [URDB.off, hmem]; rfl
  exact ⟨by rw [hic, hmem]; exact hs.journal, by rw [hoff, hjournal]; exact hs.room,
    by rw [hjournal]; exact hs.small, by rw [hcdb]; exact hs.cdb, by rw [hoff]; exact hs.charged⟩

theorem lookup_node {ignoreCase : Bool} {m : Mem} (h : JournalAt ignoreCase m H F) {key : Bytes}
    {x : Nat × Entry} (hx : lookup ignoreCase F key = some x) :
    ∃ y, H x.1 = some y ∧ y.val = x.2 ∧ NodeAt m x.1 y := by
  obtain ⟨-, y, hy, hval⟩ := (h.tree _ (slotOf_lt ignoreCase key)).val (Tree.find_mem hx).1
  exact ⟨y, hy, hval, h.heap.node _ y hy⟩

/-- The first bytes of a new journal. -/
theorem openJournal_new (c : UCDB) (cur : Cursor) (jnl : Mem) (logSize : Nat)
    (btruncate breference : Bool) (map : Nat) :
    ∃ m, (openJournal c cur jnl 0 logSize btruncate breference map).mem = m ∧
      get m 0 = sizeofCacheStruct ∧ get m 8 = 0 ∧ ∀ i < cacheHashtabLen, get m (hashtab i) = 0 := by
  have hzero : ∀ a, get (fun _ => (0 : UInt8)) a = 0 := fun a => rfl
  have hput : ∀ (m : Mem) v, (∀ i < cacheHashtabLen, get m (hashtab i) = 0) →
      ∀ i < cacheHashtabLen, get (put m 12 v) (hashtab i) = 0 := by
    intro m v hm i hi
    rw [get_put_apart _ _ (by simp only [Apart, hashtab]; omega), hm i hi]
  have hslots : ∀ i < cacheHashtabLen,
      get (put (fun _ => (0 : UInt8)) 0 sizeofCacheStruct) (hashtab i) = 0 := by
    intro i hi
    rw [get_put_apart _ _ (by simp only [Apart, hashtab]; omega), hzero]
  have hoff : get (put (fun _ => (0 : UInt8)) 0 sizeofCacheStruct) 0 = sizeofCacheStruct := by
    rw [get_put_of_lt _ _ (by decide)]
  have hnrecord : get (put (fun _ => (0 : UInt8)) 0 sizeofCacheStruct) 8 = 0 := by
    rw [get_put_apart _ _ (by unfold Apart; omega), hzero]
  refine ⟨_, rfl, ?_⟩
  simp only [openJournal, URDB.mem, ite_self, Nat.not_lt_zero, if_false, hzero, if_true]
  cases breference with
  | false => exact ⟨hoff, hnrecord, hslots⟩
  | true =>
      refine ⟨?_, ?_, hput _ _ hslots⟩
      · rw [if_pos rfl, get_put_apart _ _ (by unfold Apart; omega), hoff]
      · rw [if_pos rfl, get_put_apart _ _ (by unfold Apart; omega), hnrecord]

/-- A new journal is in order if it is large enough for a node. -/
theorem openJournal_good {c : UCDB} (hcdb : CdbAt c rs) {cur : Cursor} {jnl : Mem} {logSize : Nat}
    {btruncate breference : Bool} {map : Nat}
    (hroom : sizeofCacheStruct + sizeofCacheNode ≤
      (openJournal c cur jnl 0 logSize btruncate breference map).journal.stSize)
    (hsmall : (openJournal c cur jnl 0 logSize btruncate breference map).journal.stSize < 2 ^ 32) :
    Good (openJournal c cur jnl 0 logSize btruncate breference map) rs (fun _ => none)
      (fun _ => .leaf) := by
  obtain ⟨m, hm, hm0, -, hmslots⟩ := openJournal_new c cur jnl logSize btruncate breference map
  have hcharge : charge (fun _ => .leaf) = 0 := Finset.sum_eq_zero fun i _ => rfl
  refine ⟨?_, by rw [URDB.off, hm, hm0]; exact hroom, hsmall, hcdb, ?_⟩
  · rw [hm]
    exact journalAt_empty _ (le_of_eq hm0.symm) hmslots
  · rw [URDB.off, hm, hm0, hcharge, Nat.zero_add]

theorem reset_header (s : URDB) : (reset s).off = sizeofCacheStruct ∧ (reset s).nrecord = 0 ∧
    ∀ i < cacheHashtabLen, get (reset s).mem (hashtab i) = 0 := by
  have hstruct : sizeofCacheStruct = 3092 := rfl
  have hfill : ∀ a, a + 4 ≤ 16 → get (reset s).mem a =
      get (put (put (put s.mem 0 sizeofCacheStruct) 4 0) 8 0) a := fun a ha =>
    (fill_agree _ _ _ _ (by unfold Apart; omega)).get_eq
  refine ⟨?_, ?_, fun i hi => ?_⟩
  · rw [URDB.off, hfill 0 (by omega), get_put_apart _ _ (by unfold Apart; omega),
      get_put_apart _ _ (by unfold Apart; omega), get_put_of_lt _ _ (by decide)]
  · rw [URDB.nrecord, hfill 8 (by omega), get_put_of_lt _ _ (by decide)]
  · exact get_fill_zero _ (by unfold hashtab; omega) (by unfold hashtab; omega)

/-! ### The lookups with which a call starts -/

/-- The object after the lookup of its key. -/
def lookedUp (s : URDB) (F : Forest) (key : Bytes) : URDB :=
  { s with
    khash := cdbHash s.ignoreCase key
    pnode := (s.journal.map, stopAddr s.ignoreCase F key)
    node := (lookup s.ignoreCase F key).elim 0 Prod.fst }

theorem htLookup_hashKey (hs : Good s rs H F) (key : Bytes) (hkey : s.key = Datum.ofBytes key) :
    htLookup s.hashKey = some ((lookup s.ignoreCase F key).isSome, lookedUp s F key) := by
  have hbytes : s.key.bytes s.mem = key := by rw [hkey, bytes_ofBytes]
  have hroom := hs.room
  rw [htLookup_eq (s := s.hashKey) hs.journal (show s.off ≤ s.journal.stSize by omega) rfl]
  have hk : s.hashKey.key.bytes s.hashKey.mem = key := hbytes
  rw [hk, lookedUp, hashKey, hbytes]
  rfl

theorem isDeleted_eq {y : Node Entry} (h : NodeAt s.mem s.node y) :
    isDeleted s = (y.val.data.isNone, s) := by
  cases hd : y.val.data with
  | none =>
      obtain ⟨h8, h12⟩ := h.deleted hd
      simp [isDeleted, h8, h12]
  | some d =>
      obtain ⟨h8, -, -⟩ := h.data d hd
      simp [isDeleted, h8]

theorem isDeleted_lookedUp (hs : Good s rs H F) {key : Bytes} {x : Nat × Entry}
    (hx : lookup s.ignoreCase F key = some x) :
    isDeleted (lookedUp s F key) = (x.2.data.isNone, lookedUp s F key) := by
  obtain ⟨y, -, hval, hnode⟩ := lookup_node hs.journal hx
  have hnode' : NodeAt (lookedUp s F key).mem (lookedUp s F key).node y := by
    rw [lookedUp, hx]
    exact hnode
  rw [isDeleted_eq hnode', hval]

/-- The object `s₁` after the lookup and the search in the constant database. -/
structure Searched (s : URDB) (F : Forest) (key : Bytes) (s₁ : URDB) : Prop where
  cdb : s₁.cdb = s.cdb
  journal : s₁.journal = s.journal
  key_eq : s₁.key = s.key
  key1 : s₁.key1 = s.key1
  pnode : s₁.pnode = (s.journal.map, stopAddr s.ignoreCase F key)
  node : s₁.node = (lookup s.ignoreCase F key).elim 0 Prod.fst
  locked : s₁.locked = s.locked
  trace : s₁.trace = s.trace

theorem cdbLookup_lookedUp (hs : Good s rs H F) (key : Bytes) (hkey : s.key = Datum.ofBytes key) :
    ∃ s₁, cdbLookup (lookedUp s F key) = ((dataOf s.ignoreCase rs key).head?.isSome, s₁) ∧
      Searched s F key s₁ ∧
      s₁.data = (dataOf s.ignoreCase rs key).head?.elim s.data Datum.ofBytes := by
  have hbytes : (lookedUp s F key).key.bytes (lookedUp s F key).mem = key := by
    rw [show (lookedUp s F key).key = s.key from rfl, hkey, bytes_ofBytes]
  obtain ⟨cur, hcdb⟩ := cdbLookup_eq (s := lookedUp s F key) hs.cdb (by rw [hbytes]; rfl)
  rw [hbytes] at hcdb
  exact ⟨_, hcdb, ⟨rfl, rfl, rfl, rfl, rfl, rfl, rfl, rfl⟩, rfl⟩

theorem Searched.unlock {s₀ s₁ : URDB} {key : Bytes} (h : Searched s₀ F key s₁)
    (hlocked : s₀.locked - 1 = s.locked) (hjournal : s₀.journal = s.journal)
    (hcdb : s₀.cdb = s.cdb) (htrace : s₀.trace = s.trace) : Untouched s s₁.unlock :=
  ⟨h.journal.trans hjournal, h.cdb.trans hcdb, by rw [URDB.unlock, h.locked, hlocked],
    h.trace.trans htrace⟩

/-- `fetch` finds the value and leaves the journal alone. -/
theorem fetchKey_spec (hs : Good s rs H F) (key : Bytes) :
    ∃ s', fetchKey s key = some ((view s.ignoreCase rs F key).isSome, s') ∧ Untouched s s' ∧
      ∀ d, view s.ignoreCase rs F key = some d → s'.data.bytes s'.mem = d := by
  set s₀ : URDB := ({ s with key := Datum.ofBytes key } : URDB).lock with hs₀
  have hs₀' : Good s₀ rs H F := hs.congr rfl rfl
  have hlocked : s₀.locked - 1 = s.locked := by simp [hs₀, lock]
  have hlook := htLookup_hashKey hs₀' key rfl
  simp only [fetchKey, fetch]
  rw [show ({ s with key := Datum.ofBytes key } : URDB).hashKey.lock = s₀.hashKey from rfl, hlook]
  simp only [Option.bind_eq_bind, Option.bind_some]
  rw [show s₀.ignoreCase = s.ignoreCase from rfl]
  unfold view
  cases hx : lookup s.ignoreCase F key with
  | none =>
      obtain ⟨s₁, hcdb, hsearch, hdata⟩ := cdbLookup_lookedUp hs₀' key rfl
      rw [hcdb]
      refine ⟨s₁.unlock, rfl, hsearch.unlock hlocked rfl rfl rfl, ?_⟩
      intro d hd
      have hd' : (dataOf s₀.ignoreCase rs key).head? = some d := hd
      simp [unlock, hdata, hd']
  | some x =>
      rw [isDeleted_lookedUp hs₀' (show lookup s₀.ignoreCase F key = some x from hx)]
      obtain ⟨y, -, hval, hnode⟩ := lookup_node hs.journal hx
      cases hd : x.2.data with
      | none =>
          refine ⟨(lookedUp s₀ F key).unlock, ?_, ⟨rfl, rfl, hlocked, rfl⟩, ?_⟩
          · simp [hd]
          · simp [hd]
      | some d =>
          obtain ⟨-, h12, hread⟩ := hnode.data d (by rw [hval, hd])
          have hn : (lookedUp s₀ F key).node = x.1 := by
            rw [lookedUp, show s₀.ignoreCase = s.ignoreCase from rfl, hx]
            rfl
          refine ⟨({ lookedUp s₀ F key with
            data := ⟨.journal (ByteMemory.get s.mem (x.1 + 8)),
              ByteMemory.get s.mem (x.1 + 12)⟩ } : URDB).unlock, ?_,
            ⟨rfl, rfl, hlocked, rfl⟩, ?_⟩
          · simp only [hd, hn]
            rfl
          simp only [hd]
          intro d' hd'
          obtain rfl := Option.some.inj hd'
          simp only [unlock, Datum.bytes, h12]
          exact hread

theorem fetchValue_eq (hs : Good s rs H F) (key : Bytes) :
    fetchValue s key = some (view s.ignoreCase rs F key) := by
  obtain ⟨s', hfetch, -, hdata⟩ := fetchKey_spec hs key
  rw [fetchValue, hfetch]
  cases hv : view s.ignoreCase rs F key with
  | none => rfl
  | some d =>
      simp only [Option.map_some, Option.isSome_some, if_true]
      rw [hdata d hv]

/-! ### The way of a call to the journal -/

/-- A key with a node. -/
theorem prepared_found (s₀ : URDB) {key : Bytes} {x : Nat × Entry}
    (hx : lookup s.ignoreCase F key = some x) (hjournal : s₀.journal = s.journal)
    (hcdb : s₀.cdb = s.cdb) (hkey : s₀.key = Datum.ofBytes key)
    (hlocked : s₀.locked = s.locked + 1) (htrace : s₀.trace = s.trace) :
    Prepared s F key (lookedUp s₀ F key) := by
  have hic : s₀.ignoreCase = s.ignoreCase := by rw [URDB.ignoreCase, hcdb]; rfl
  refine ⟨hcdb, ?_, hkey, ?_, ?_, hlocked, ⟨[], by simp [lookedUp, htrace], by simp⟩⟩
  · rw [withNode, hx]
    exact hjournal
  · rw [lookedUp, hic, hjournal]
  · simp only [lookedUp, hic, nodeFor, hx]
    rfl

/-- A key that gets a node. -/
theorem prepared_alloc (hs : Good s rs H F) (s₁ : URDB) {key : Bytes}
    (hx : lookup s.ignoreCase F key = none) (hjournal : s₁.journal = s.journal)
    (hcdb : s₁.cdb = s.cdb) (hkey : s₁.key = Datum.ofBytes key)
    (hpnode : s₁.pnode = (s.journal.map, stopAddr s.ignoreCase F key))
    (hlocked : s₁.locked = s.locked + 1) (htrace : s₁.trace = s.trace) :
    ∃ s₂, htAlloc s₁ = some s₂ ∧ s₂.key1 = s₁.key1 ∧ s₂.data = s₁.data ∧
      ∀ data, Prepared s F key { s₂ with data := data } := by
  have hmem : s₁.mem = s.mem := by rw [URDB.mem, hjournal]; rfl
  have hoff : s₁.off = s.off := by rw [URDB.off, hmem]; rfl
  have halloc := htAlloc_eq (s := s₁) (by rw [hpnode, hjournal])
  refine ⟨_, halloc, rfl, rfl, fun data => ⟨hcdb, ?_, hkey, hpnode, ?_, hlocked, ?_⟩⟩
  · simp only [hjournal, hmem, hpnode, hoff, withNode, hx]
    rfl
  · simp only [hoff, nodeFor, hx]
    rfl
  · refine ⟨[.alloc s.off s.journal.stSize], by simp only [htrace, hoff, hjournal], ?_⟩
    intro o z hmem
    simp only [List.mem_singleton, Event.alloc.injEq] at hmem
    obtain ⟨rfl, rfl⟩ := hmem
    exact hs.room

theorem memcmp_length {s t : Bytes} {n : Nat} (hs : s.length = n) (ht : t.length = n) :
    memcmp n s t = 0 ↔ s = t := by
  rw [← hs]
  exact memcmp_eq_zero (hs.trans ht.symm)

/-- The test of `store` for a record that is there already. -/
def SameData (s : URDB) (rs : List Record) (F : Forest) (key data : Bytes) : Prop :=
  match lookup s.ignoreCase F key with
  | some x => data.length = get s.mem (x.1 + 12) ∧
      memcmp data.length (read s.mem (get s.mem (x.1 + 8)) data.length) data = 0
  | none => (dataOf s.ignoreCase rs key).head? = some data

theorem same_data_iff {m : Mem} {n : Nat} {y : Node Entry} (h : NodeAt m n y) {data : Bytes}
    (hdata : data.length < uNotFound) :
    (data.length = get m (n + 12) ∧
        memcmp data.length (read m (get m (n + 8)) data.length) data = 0) ↔
      y.val.data = some data := by
  cases hd : y.val.data with
  | none =>
      obtain ⟨-, h12⟩ := h.deleted hd
      simp only [h12, reduceCtorEq, iff_false]
      rintro ⟨hlen, -⟩
      omega
  | some d =>
      obtain ⟨-, h12, hread⟩ := h.data d hd
      rw [h12, Option.some.injEq]
      constructor
      · rintro ⟨hlen, hcmp⟩
        rw [hlen, hread] at hcmp
        exact (memcmp_length rfl hlen).mp hcmp
      · rintro rfl
        rw [hread]
        exact ⟨rfl, (memcmp_length rfl rfl).mpr rfl⟩

/-- The size of a deleted record is kept for deleted records. -/
theorem sameData_iff (hs : Good s rs H F) (key : Bytes) {data : Bytes}
    (hdata : data.length < uNotFound) :
    SameData s rs F key data ↔ view s.ignoreCase rs F key = some data := by
  unfold SameData view
  cases hx : lookup s.ignoreCase F key with
  | some x =>
      obtain ⟨y, -, hval, hnode⟩ := lookup_node hs.journal hx
      simp only [← hval]
      exact same_data_iff hnode hdata
  | none => exact Iff.rfl

/-- What `store` does before it writes. -/
theorem storeKey_cases (hs : Good s rs H F) (key data : Bytes) (flag : Flag) (env : Env) :
    (flag = .insert ∧ (view s.ignoreCase rs F key).isSome = true ∧
        ∃ s', storeKey s key data flag env = some (-1, s') ∧ Untouched s s') ∨
      (flag = .replace ∧ SameData s rs F key data ∧
        ∃ s', storeKey s key data flag env = some (0, s') ∧ Untouched s s') ∨
      (¬(flag = .insert ∧ (view s.ignoreCase rs F key).isSome = true) ∧
        ¬(flag = .replace ∧ SameData s rs F key data) ∧
        ∃ s₁, Prepared s F key s₁ ∧ s₁.data = Datum.ofBytes data ∧
          storeKey s key data flag env = storeEntry s₁ ((lookup s.ignoreCase F key).isSome ||
            (dataOf s.ignoreCase rs key).head?.isSome) env) := by
  set s₀ : URDB := ({ s with key := Datum.ofBytes key, data := Datum.ofBytes data } : URDB).lock
    with hs₀
  have hs₀' : Good s₀ rs H F := hs.congr rfl rfl
  have hlocked : s₀.locked - 1 = s.locked := by simp [hs₀, lock]
  have hlook := htLookup_hashKey hs₀' key rfl
  simp only [storeKey, store]
  rw [show ({ s with key := Datum.ofBytes key, data := Datum.ofBytes data } : URDB).hashKey.lock =
    s₀.hashKey from rfl, hlook]
  simp only [Option.bind_eq_bind, Option.bind_some]
  rw [show s₀.ignoreCase = s.ignoreCase from rfl]
  cases hx : lookup s.ignoreCase F key with
  | some x =>
      have hprep := prepared_found s₀ hx rfl rfl rfl rfl rfl
      have hdel := isDeleted_lookedUp hs₀' (show lookup s₀.ignoreCase F key = some x from hx)
      have hview : view s.ignoreCase rs F key = x.2.data := by rw [view, hx]
      simp only [hview, Option.isSome_some, if_true, Bool.true_or, SameData, hx]
      cases flag with
      | insert =>
          simp only [if_true, hdel]
          cases hd : x.2.data with
          | none => exact .inr (.inr ⟨by simp, by simp, _, hprep, rfl, by simp⟩)
          | some d => exact .inl ⟨by simp, by simp, _, rfl, ⟨rfl, rfl, hlocked, rfl⟩⟩
      | replace =>
          have hn : (lookedUp s₀ F key).node = x.1 := by
            rw [lookedUp, show s₀.ignoreCase = s.ignoreCase from rfl, hx]
            rfl
          have hnew : (lookedUp s₀ F key).data = Datum.ofBytes data := rfl
          have hmem : (lookedUp s₀ F key).mem = s.mem := rfl
          simp only [reduceCtorEq, if_false, Bool.true_eq_false, true_and, false_and, not_false_iff,
            hnew, hmem, dsize_ofBytes, bytes_ofBytes, hn]
          by_cases hd : data.length = ByteMemory.get s.mem (x.1 + 12) ∧ memcmp data.length
              (ByteMemory.read s.mem (ByteMemory.get s.mem (x.1 + 8)) data.length) data = 0
          · refine .inr (.inl ⟨hd, (lookedUp s₀ F key).unlock, ?_, ⟨rfl, rfl, hlocked, rfl⟩⟩)
            rw [if_pos hd]
          · refine .inr (.inr ⟨hd, _, hprep, hnew, ?_⟩)
            rw [if_neg hd]
  | none =>
      obtain ⟨s₁, hcdb, hsearch, hdata₁⟩ := cdbLookup_lookedUp hs₀' key rfl
      have huntouched := hsearch.unlock hlocked rfl rfl rfl
      have hview : view s.ignoreCase rs F key = (dataOf s.ignoreCase rs key).head? := by
        rw [view, hx]
      obtain ⟨s₂, halloc, -, -, hprep⟩ := prepared_alloc hs s₁ hx hsearch.journal hsearch.cdb
        hsearch.key_eq hsearch.pnode hsearch.locked hsearch.trace
      have hcase : s₀.ignoreCase = s.ignoreCase := rfl
      have hnew : (lookedUp s₀ F key).data = Datum.ofBytes data := rfl
      rw [hcase] at hdata₁ hcdb
      rw [hview, hcdb]
      simp only [Option.isSome_none, Bool.false_eq_true, if_false, Bool.false_or, hnew, SameData,
        hx]
      cases hd : (dataOf s.ignoreCase rs key).head? with
      | none =>
          refine .inr (.inr ⟨by simp, by simp, _, hprep (Datum.ofBytes data), rfl, ?_⟩)
          simp [halloc]
      | some d =>
          rw [hd] at hdata₁
          simp only [Option.elim_some] at hdata₁
          cases flag with
          | insert => exact .inl ⟨rfl, rfl, s₁.unlock, by simp, huntouched⟩
          | replace =>
              have hsame : (d.length = data.length ∧ memcmp d.length data d = 0) ↔ d = data := by
                constructor
                · rintro ⟨hlen, hcmp⟩
                  exact ((memcmp_length hlen.symm rfl).mp hcmp).symm
                · rintro rfl
                  exact ⟨rfl, (memcmp_length rfl rfl).mpr rfl⟩
              simp only [hdata₁, bytes_ofBytes, dsize_ofBytes, Option.isSome_some, reduceCtorEq,
                and_false,
                if_false, true_and, false_and, not_false_iff, Option.some.injEq]
              by_cases heq : d = data
              · refine .inr (.inl ⟨heq, s₁.unlock, ?_, huntouched⟩)
                rw [if_pos (hsame.mpr heq)]
              · refine .inr (.inr ⟨heq, _, hprep (Datum.ofBytes data), rfl, ?_⟩)
                rw [if_neg (fun h => heq (hsame.mp h)), halloc]
                rfl

/-- What `remove` does before it writes. -/
theorem removeKey_cases (hs : Good s rs H F) (key : Bytes) (env : Env) :
    (view s.ignoreCase rs F key = none ∧ ∃ r s', (r = -1 ∨ r = -2) ∧
        removeKey s key env = some (r, s') ∧ Untouched s s') ∨
      ((view s.ignoreCase rs F key).isSome = true ∧ ∃ s₁, Prepared s F key s₁ ∧
        removeKey s key env = removeEntry s₁ env) := by
  set s₀ : URDB := ({ s with key := Datum.ofBytes key } : URDB).lock with hs₀
  have hs₀' : Good s₀ rs H F := hs.congr rfl rfl
  have hlocked : s₀.locked - 1 = s.locked := by simp [hs₀, lock]
  have hlook := htLookup_hashKey hs₀' key rfl
  simp only [removeKey, remove]
  rw [show ({ s with key := Datum.ofBytes key } : URDB).hashKey.lock = s₀.hashKey from rfl, hlook]
  simp only [Option.bind_eq_bind, Option.bind_some]
  rw [show s₀.ignoreCase = s.ignoreCase from rfl]
  cases hx : lookup s.ignoreCase F key with
  | some x =>
      have hprep := prepared_found s₀ hx rfl rfl rfl rfl rfl
      have hdel := isDeleted_lookedUp hs₀' (show lookup s₀.ignoreCase F key = some x from hx)
      have hview : view s.ignoreCase rs F key = x.2.data := by rw [view, hx]
      simp only [hview, Option.isSome_some, if_true, hdel]
      cases hd : x.2.data with
      | none => exact .inl ⟨rfl, -2, _, .inr rfl, rfl, ⟨rfl, rfl, hlocked, rfl⟩⟩
      | some d => exact .inr ⟨rfl, _, hprep, by simp⟩
  | none =>
      obtain ⟨s₁, hcdb, hsearch, -⟩ := cdbLookup_lookedUp hs₀' key rfl
      have hview : view s.ignoreCase rs F key = (dataOf s.ignoreCase rs key).head? := by
        rw [view, hx]
      obtain ⟨s₂, halloc, -, -, hprep⟩ := prepared_alloc hs s₁ hx hsearch.journal
        hsearch.cdb hsearch.key_eq hsearch.pnode hsearch.locked hsearch.trace
      rw [show s₀.ignoreCase = s.ignoreCase from rfl] at hcdb
      rw [hview, hcdb]
      simp only [Option.isSome_none, Bool.false_eq_true, if_false]
      cases hd : (dataOf s.ignoreCase rs key).head? with
      | none =>
          exact .inl ⟨rfl, -1, s₁.unlock, .inl rfl, by simp, hsearch.unlock hlocked rfl rfl rfl⟩
      | some d => exact .inr ⟨rfl, _, hprep s₂.data, by simp [halloc]⟩

/-- The search for the old key in `substitute`. -/
theorem search_old (hs : Good s rs H F) (key : Bytes) (hkey : s.key = Datum.ofBytes key) :
    ∃ (r : Int) (s₁ : URDB),
      (if (lookup s.ignoreCase F key).isSome = true then
          ((if (isDeleted (lookedUp s F key)).1 = true then -2 else 0,
            (isDeleted (lookedUp s F key)).2) : Int × URDB)
        else (if (cdbLookup (lookedUp s F key)).1 = true then 0 else -1,
          (cdbLookup (lookedUp s F key)).2)) = (r, s₁) ∧ Searched s F key s₁ ∧
        (r = 0 ↔ (view s.ignoreCase rs F key).isSome = true) ∧ (r ≠ 0 → r = -1 ∨ r = -2) := by
  unfold view
  cases hx : lookup s.ignoreCase F key with
  | some x =>
      have hdel := isDeleted_lookedUp hs hx
      refine ⟨if x.2.data.isNone then -2 else 0, lookedUp s F key, by simp [hdel],
        ⟨rfl, rfl, rfl, rfl, rfl, rfl, rfl, rfl⟩, ?_, ?_⟩
      · cases hd : x.2.data <;> simp [hd]
      · cases x.2.data <;> simp
  | none =>
      obtain ⟨s₁, hcdb, hsearch, -⟩ := cdbLookup_lookedUp hs key hkey
      refine ⟨if (dataOf s.ignoreCase rs key).head?.isSome then 0 else -1, s₁, by simp [hcdb],
        hsearch, ?_, ?_⟩
      · cases (dataOf s.ignoreCase rs key).head? <;> simp
      · cases (dataOf s.ignoreCase rs key).head? <;> simp

/-- What `substitute` does before it writes. -/
theorem substituteKey_cases (hs : Good s rs H F) (key newKey data : Bytes) (flag : Flag)
    (env : Env) :
    (view s.ignoreCase rs F key = none ∧ ∃ r s', (r = -1 ∨ r = -2) ∧
        substituteKey s key newKey data flag env = some (r, s') ∧ Untouched s s') ∨
      ((view s.ignoreCase rs F key).isSome = true ∧ flag = .insert ∧
        (view s.ignoreCase rs F newKey).isSome = true ∧
        ∃ s', substituteKey s key newKey data flag env = some (-4, s') ∧ Untouched s s') ∨
      ((view s.ignoreCase rs F key).isSome = true ∧
        ¬(flag = .insert ∧ (view s.ignoreCase rs F newKey).isSome = true) ∧
        ∃ s₁, Prepared s F newKey s₁ ∧ s₁.key1 = Datum.ofBytes key ∧
          substituteKey s key newKey data flag env = substituteEntry s₁ (Datum.ofBytes data)
            ((lookup s.ignoreCase F key).elim 0 Prod.fst)
            (s.journal.map, stopAddr s.ignoreCase F key) env) := by
  set s₀ : URDB := ({ s with
    key := Datum.ofBytes key
    data := Datum.ofBytes data
    key1 := Datum.ofBytes key } : URDB).lock with hs₀
  have hs₀' : Good s₀ rs H F := hs.congr rfl rfl
  have hlocked : s₀.locked - 1 = s.locked := by simp [hs₀, lock]
  have hlook := htLookup_hashKey hs₀' key rfl
  have hcase : s₀.ignoreCase = s.ignoreCase := rfl
  simp only [substituteKey, substitute]
  rw [show ({ ({ s with key := Datum.ofBytes key, data := Datum.ofBytes data } : URDB).hashKey with
    key1 := ({ s with key := Datum.ofBytes key, data := Datum.ofBytes data } : URDB).hashKey.key
    } : URDB).lock = s₀.hashKey from rfl, hlook]
  simp only [Option.bind_eq_bind, Option.bind_some]
  obtain ⟨r, s₁, hr, hsearch, hzero, hcode⟩ := search_old hs₀' key rfl
  rw [hr]
  simp only
  by_cases hr0 : r = 0
  · have hbound := hzero.mp hr0
    rw [hcase] at hbound
    rw [if_neg (not_not.mpr hr0)]
    have hnode : (lookup s.ignoreCase F key).elim 0 Prod.fst = s₁.node := hsearch.node.symm
    have hpnode : (s.journal.map, stopAddr s.ignoreCase F key) = s₁.pnode := hsearch.pnode.symm
    rw [hnode, hpnode]
    right
    simp only [hbound, true_and]
    -- the search for the new key
    set s₂ : URDB := { s₁ with key := Datum.ofBytes newKey } with hs₂
    have hs₂' : Good s₂ rs H F := hs.congr hsearch.journal hsearch.cdb
    have hcase₂ : s₂.ignoreCase = s.ignoreCase := by rw [URDB.ignoreCase, hs₂, hsearch.cdb]; rfl
    have hlocked₂ : s₂.locked - 1 = s.locked := by rw [hs₂, ← hlocked, ← hsearch.locked]
    rw [htLookup_hashKey hs₂' newKey rfl, hcase₂]
    simp only [Option.bind_some]
    cases hx : lookup s.ignoreCase F newKey with
    | some x =>
        have hdel := isDeleted_lookedUp hs₂' (show lookup s₂.ignoreCase F newKey = some x by
          rw [hcase₂]; exact hx)
        have hprep := prepared_found s₂ hx hsearch.journal hsearch.cdb rfl hsearch.locked
          hsearch.trace
        have hview : view s.ignoreCase rs F newKey = x.2.data := by rw [view, hx]
        simp only [hview, Option.isSome_some, if_true]
        cases flag with
        | insert =>
            simp only [if_true, hdel, true_and]
            cases hd : x.2.data with
            | none => exact .inr ⟨by simp, _, hprep, hsearch.key1, by simp⟩
            | some d =>
                exact .inl ⟨by simp, (lookedUp s₂ F newKey).unlock, by simp,
                  ⟨hsearch.journal, hsearch.cdb, hlocked₂, hsearch.trace⟩⟩
        | replace =>
            simp only [reduceCtorEq, if_false, false_and, not_false_iff, true_and, false_or]
            exact ⟨_, hprep, hsearch.key1, by simp⟩
    | none =>
        obtain ⟨s₃, hcdb, hsearch₃, -⟩ := cdbLookup_lookedUp hs₂' newKey rfl
        have hview : view s.ignoreCase rs F newKey = (dataOf s.ignoreCase rs newKey).head? := by
          rw [view, hx]
        have hjournal₃ : s₃.journal = s.journal := hsearch₃.journal.trans hsearch.journal
        obtain ⟨s₄, halloc, hkey1, -, hprep⟩ := prepared_alloc hs s₃ hx hjournal₃
          (hsearch₃.cdb.trans hsearch.cdb) hsearch₃.key_eq
          (by rw [hsearch₃.pnode, hcase₂, hs₂, hsearch.journal]; rfl)
          (hsearch₃.locked.trans hsearch.locked) (hsearch₃.trace.trans hsearch.trace)
        rw [hcase₂] at hcdb
        rw [hview, hcdb]
        simp only [Option.isSome_none, Bool.false_eq_true, if_false]
        have huntouched := hsearch₃.unlock hlocked₂ hsearch.journal hsearch.cdb hsearch.trace
        by_cases hins : (dataOf s.ignoreCase rs newKey).head?.isSome = true ∧ flag = .insert
        · rw [if_pos hins]
          exact .inl ⟨hins.2, hins.1, _, rfl, huntouched⟩
        · rw [if_neg hins, halloc]
          exact .inr ⟨fun h => hins ⟨h.2, h.1⟩, _, hprep s₄.data,
            hkey1.trans (hsearch₃.key1.trans hsearch.key1), rfl⟩
  · left
    rw [if_pos hr0]
    refine ⟨?_, r, _, hcode hr0, rfl, hsearch.unlock hlocked rfl rfl rfl⟩
    exact Option.not_isSome_iff_eq_none.mp fun h => hr0 (hzero.mpr h)

theorem KeyOk.good {ignoreCase : Bool} {key : Bytes} (h : KeyOk ignoreCase key)
    (data : Option Bytes) :
    GoodEntry ignoreCase (slotOf ignoreCase key) ⟨key, data⟩ :=
  ⟨h.1, h.2, rfl⟩

/-! ### The object at `logJournal` -/

variable {s₁ : URDB} {key : Bytes} {env : Env}

theorem Prepared.off (hs : Good s rs H F) (hp : Prepared s F key s₁) :
    s₁.off = s.off + nodeRoom s.ignoreCase F key := by
  have hroom := hs.room
  have hsmall := hs.small
  rw [URDB.off, URDB.mem, hp.journal]
  exact withNode_off hs.journal key (show s.off + sizeofCacheNode < 2 ^ 32 by omega)

theorem Prepared.fresh (hp : Prepared s F key s₁) : s₁.pnode.1 = s₁.journal.map := by
  rw [hp.pnode, hp.journal]

theorem Prepared.granted (hp : Prepared s F key s₁) {sz : Nat} (hg : Granted env s.journal sz) :
    Granted env s₁.journal sz := by
  rw [hp.journal]
  exact ⟨hg.fits, hg.grow⟩

theorem Prepared.four_le (hs : Good s rs H F) (hp : Prepared s F key s₁) :
    4 ≤ s₁.journal.stSize := by
  have hroom := hs.room
  have h24 : sizeofCacheNode = 24 := rfl
  rw [hp.journal]
  show 4 ≤ s.journal.stSize
  omega

theorem Prepared.unlocked (hp : Prepared s F key s₁) : s₁.locked - 1 = s.locked := by
  rw [hp.locked]
  omega

theorem Prepared.grown_map (hp : Prepared s F key s₁) (env : Env) (sz : Nat) :
    (grown env s₁.journal sz).map = (grown env s.journal sz).map := by
  rw [hp.journal]
  unfold grown
  split <;> rfl

/-- The journal before the log is written, with the node for the key. -/
theorem Prepared.grown_eq (hs : Good s rs H F) (hp : Prepared s F key s₁) (sz : Nat) :
    ∀ a < s₁.off, (grown env s₁.journal sz).mem a = withNode s.ignoreCase s.mem F key a := by
  intro a ha
  have hoff := hp.off hs
  have hroom := hs.room
  have h24 : sizeofCacheNode = 24 := rfl
  have hnode : nodeRoom s.ignoreCase F key ≤ 24 := by
    unfold nodeRoom
    split <;> omega
  have hst : s₁.journal.stSize = s.journal.stSize := by rw [hp.journal]
  rw [grown_frame (by omega), hp.journal]

/-- Header words other than `RDB_off` come through. -/
theorem withNode_header (h : JournalAt s.ignoreCase s.mem H F) (key : Bytes) {a : Nat}
    (ha : 4 ≤ a) (ha' : a < 16) : withNode s.ignoreCase s.mem F key a = s.mem a := by
  have hstop := h.stopAddr_bounds key
  have hlow := h.low
  have hstruct : sizeofCacheStruct = 3092 := rfl
  unfold withNode
  split
  · rfl
  · exact allocMem_frame ha (.inl (by omega)) (.inl (by omega))

theorem nodeFor_bounds (hs : Good s rs H F) (key : Bytes) :
    sizeofCacheStruct ≤ nodeFor s.ignoreCase s.mem F key ∧
      nodeFor s.ignoreCase s.mem F key + sizeofCacheNode ≤
        s.off + nodeRoom s.ignoreCase F key := by
  have hlow : sizeofCacheStruct ≤ s.off := hs.journal.low
  unfold nodeFor nodeRoom
  cases hx : lookup s.ignoreCase F key with
  | none => exact ⟨hlow, le_refl _⟩
  | some x =>
      have hmem := List.mem_map_of_mem (f := Prod.fst) (Tree.find_mem hx).1
      exact hs.journal.mem_lt (slotOf_lt s.ignoreCase key) hmem

end ULib.RdbCalls
