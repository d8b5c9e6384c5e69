import ULib.RdbCalls

/-!
What `store`, `remove` and `substitute` do from `logJournal` on when the
journal has room or may grow: they end in a good state again, and the trees
have changed by `upsert`.
-/

namespace ULib.RdbUpdates

open ByteMemory
open KeyComparison
open ConstantDatabase
open CdbLookup
open ReliableDatabase
open ReliableDatabase.URDB
open HeapTree
open JournalTree
open JournalForest
open JournalLog
open JournalEntry
open RdbCalls

/-- From `s` the call got to `s'`, with the trees `F` in the journal. -/
structure Reaches (s s' : URDB) (rs : List Record) (F : Forest) : Prop where
  good : ∃ H, Good s' rs H F
  cdb : s'.cdb = s.cdb
  locked : s'.locked = s.locked
  safe : Safe s s'

variable {s s₁ : URDB} {rs : List Record} {H : Heap Entry} {F : Forest} {key : Bytes} {env : Env}

theorem Reaches.untouched (hs : Good s rs H F) {s' : URDB} (h : Untouched s s') :
    Reaches s s' rs F :=
  ⟨⟨H, hs.congr h.journal h.cdb⟩, h.cdb, h.locked, h.safe⟩

/-- What a call leaves that logged `bytes` and inserted the entry `e`. -/
structure Inserted (s s₁ : URDB) (F : Forest) (key : Bytes) (e : Entry) (bytes : Bytes)
    (m' : Mem) : Prop where
  journal : ∃ H', JournalAt s.ignoreCase m' H' (upsert s.ignoreCase F key s.off e) ∧
    ∀ n y, H' n = some y → n + sizeofCacheNode ≤ s₁.off
  off : get m' 0 = s₁.off + bytes.length
  header : ∀ a, 4 ≤ a → a < 16 → m' a = s.mem a
  log : ∀ i n, i + n ≤ bytes.length → read m' (s₁.off + i) n = (bytes.drop i).take n
  frame : lookup s.ignoreCase F key = none → ∀ a, 16 ≤ a → a < s.off →
    a < stopAddr s.ignoreCase F key ∨ stopAddr s.ignoreCase F key + 4 ≤ a → m' a = s.mem a

/-- The journal after `bytes` are logged at `base` and `e` is put into `node`. -/
def entryMem (m : Mem) (base node : Nat) (bytes : Bytes) (i j : Nat) (e : Entry) : Mem :=
  insertMem (logMem m base bytes) node (base + i) e.key.length (dataOffset e (base + j)) (dataSize e)

theorem Inserted.nrecord {e : Entry} {bytes : Bytes} {m' : Mem}
    (h : Inserted s s₁ F key e bytes m') : get m' 8 = s.nrecord :=
  Agree.get_eq fun a ha ha' => h.header a (by omega) (by omega)

theorem inserted (hs : Good s rs H F) (hp : Prepared s F key s₁) {e : Entry}
    (he : GoodEntry s.ignoreCase (slotOf s.ignoreCase key) e)
    (hkey : canon s.ignoreCase key = canon s.ignoreCase e.key) {bytes : Bytes} {i j : Nat}
    (hin : InLog bytes i j e) (env : Env) (sz : Nat) (hsmall : s₁.off + bytes.length < 2 ^ 32) :
    Inserted s s₁ F key e bytes
      (entryMem (grown env s₁.journal sz).mem s₁.off s₁.node bytes i j e) := by
  have hoff := hp.off hs
  have hroom := hs.room
  have hst := hs.small
  have hlow : sizeofCacheStruct ≤ s.off := hs.journal.low
  have hstruct : sizeofCacheStruct = 3092 := rfl
  have h24 : sizeofCacheNode = 24 := rfl
  have hnode := nodeFor_bounds hs key
  rw [← hoff, ← hp.node] at hnode
  have hlogoff := logMem_off (m := (grown env s₁.journal sz).mem) hsmall
  refine ⟨?_, ?_, ?_, ?_, ?_⟩
  · rw [hp.node]
    exact insert_logged hs.journal he hkey hoff (hp.grown_eq hs sz) hsmall hin
  · rw [← hlogoff]
    exact Agree.get_eq fun z _ hz => insertMem_frame (.inl (by omega))
  · intro a ha ha'
    rw [entryMem, insertMem_frame (.inl (by omega)), logMem_frame ha (.inl (by omega)),
      hp.grown_eq hs sz a (by omega), withNode_header hs.journal key ha ha']
  · intro i n hle
    have hlog := logMem_read (m := (grown env s₁.journal sz).mem) (show 4 ≤ s₁.off by omega) hle
    rw [← hlog]
    exact Agree.read_eq fun z hz _ => insertMem_frame (.inr (by omega))
  · intro hnone a ha hlt hc
    have hn : s₁.node = s.off := by
      rw [hp.node, nodeFor, hnone]
      rfl
    rw [entryMem, insertMem_frame (.inl (by omega)), logMem_frame (by omega) (.inl (by omega)),
      hp.grown_eq hs sz a (by omega), withNode, hnone]
    exact allocMem_frame (by omega) hc (.inl hlt)

theorem inLog_store (key data : Bytes) :
    InLog (recordHeader key.length data.length ++ key ++ data) 8 (8 + key.length)
      ⟨key, some data⟩ := by
  refine ⟨⟨by simp [length_recordHeader], ?_⟩, ?_⟩
  · rw [List.append_assoc, List.drop_left' (length_recordHeader _ _), List.take_left]
  · rintro d ⟨⟩
    refine ⟨by simp [length_recordHeader, Nat.add_assoc], ?_⟩
    rw [List.drop_left' (by simp [length_recordHeader]), List.take_length]

theorem inLog_remove (key : Bytes) :
    InLog (recordHeader key.length uNotFound ++ key) 8 0 ⟨key, none⟩ := by
  refine ⟨⟨by simp [length_recordHeader], ?_⟩, by simp⟩
  rw [List.drop_left' (length_recordHeader _ _), List.take_length]

theorem inLog_substitute_new (key newKey data : Bytes) :
    InLog (substituteLog key newKey data) (16 + key.length) (16 + key.length + newKey.length)
      ⟨newKey, some data⟩ := by
  have hlen := length_substituteLog key newKey data
  refine ⟨⟨by simp only; omega, ?_⟩, ?_⟩
  · rw [substituteLog, List.append_assoc, List.drop_left' (by simp [length_recordHeader]; omega),
      List.take_left]
  · rintro d ⟨⟩
    refine ⟨by omega, ?_⟩
    rw [substituteLog, List.drop_left' (by simp [length_recordHeader]; omega), List.take_length]

theorem substituteLog_old (key newKey data : Bytes) :
    8 + key.length ≤ (substituteLog key newKey data).length ∧
      ((substituteLog key newKey data).drop 8).take key.length = key := by
  refine ⟨by rw [length_substituteLog]; omega, ?_⟩
  simp only [substituteLog, List.append_assoc]
  rw [List.drop_left' (length_recordHeader _ _), List.take_left]

/-- A good state from the object after `htInsert`; the counter may change. -/
theorem Inserted.good (hs : Good s rs H F) (hp : Prepared s F key s₁) {e : Entry} {bytes : Bytes}
    {s₃ : URDB} (h : Inserted s s₁ F key e bytes s₃.mem)
    (hlen : 8 + e.key.length + e.data.elim 0 List.length ≤ bytes.length) {sz : Nat}
    (hsz : s₁.off + bytes.length + sizeofCacheNode ≤ sz) (hg : Granted env s.journal sz)
    (hst : s₃.journal.stSize = (grown env s₁.journal sz).stSize) (hcdb : s₃.cdb = s₁.cdb)
    {m' : Mem} (hm' : ∀ a, a < 4 ∨ 16 ≤ a → m' a = s₃.mem a) :
    ∃ H', Good (s₃.setMem m') rs H' (upsert s.ignoreCase F key s.off e) := by
  obtain ⟨H', hJ, -⟩ := h.journal
  have hcdb' : s₃.cdb = s.cdb := hcdb.trans hp.cdb
  have hic : s₃.ignoreCase = s.ignoreCase := by rw [URDB.ignoreCase, hcdb']; rfl
  have hget : get m' 0 = get s₃.mem 0 := Agree.get_eq fun a _ ha => hm' a (by omega)
  have hoff : get m' 0 = s₁.off + bytes.length := hget.trans h.off
  have hle : sz ≤ (grown env s₁.journal sz).stSize := le_grown
  have hsmall₁ : s₁.journal.stSize < 2 ^ 32 := by
    rw [hp.journal]
    exact hs.small
  have hcharge := charge_entry s.ignoreCase F key s.off e
  have hcharged := hs.charged
  have hoff₁ := hp.off hs
  refine ⟨H', ⟨?_, ?_, ?_, ?_, ?_⟩⟩
  · rw [show (s₃.setMem m').ignoreCase = s₃.ignoreCase from rfl, hic]
    exact hJ.frame (fun a ha _ => hm' a (.inr ha)) (le_of_eq hget.symm)
  · show get m' 0 + sizeofCacheNode ≤ s₃.journal.stSize
    omega
  · show s₃.journal.stSize < 2 ^ 32
    rw [hst]
    exact grown_small (hp.granted hg) hsmall₁
  · show CdbAt s₃.cdb rs
    rw [hcdb']
    exact hs.cdb
  · show charge (upsert s.ignoreCase F key s.off e) + sizeofCacheStruct ≤ get m' 0
    omega

/-- The object after `logJournal` and `htInsert`, as far as it matters. -/
structure Written (env : Env) (s₁ s₃ : URDB) (sz : Nat) (m : Mem) : Prop where
  cdb : s₃.cdb = s₁.cdb
  mem : s₃.mem = m
  map : s₃.journal.map = (grown env s₁.journal sz).map
  stSize : s₃.journal.stSize = (grown env s₁.journal sz).stSize
  locked : s₃.locked = s₁.locked
  trace : s₃.trace = s₁.trace ++ [.insert s₁.node]

theorem storeEntry_spec (hs : Good s rs H F) (hkey : KeyOk s.ignoreCase key)
    (hp : Prepared s F key s₁) {data : Bytes} (hdata : s₁.data = Datum.ofBytes data)
    (exist : Bool) (hg : Granted env s.journal
      (s.off + nodeRoom s.ignoreCase F key + (8 + key.length + data.length) + 48)) :
    ∃ s', storeEntry s₁ exist env = some (0, s') ∧
      Reaches s s' rs (upsert s.ignoreCase F key s.off ⟨key, some data⟩) ∧
      (s'.nrecord = if exist then s.nrecord else (s.nrecord + 1) % 2 ^ 32) ∧
      s'.journal.stSize = (grown env s.journal
        (s.off + nodeRoom s.ignoreCase F key + (8 + key.length + data.length) + 48)).stSize := by
  have h24 : sizeofCacheNode = 24 := rfl
  rw [← hp.off hs] at hg ⊢
  have hfits := hg.fits
  have hlen : (recordHeader key.length data.length ++ key ++ data).length =
      8 + key.length + data.length := by
    simp only [List.length_append, length_recordHeader]
  have hins := inserted hs hp (hkey.good (some data)) rfl (inLog_store key data) env
    (s₁.off + (8 + key.length + data.length) + 48) (by omega)
  obtain ⟨s₂, s₃, hlog, hinsert, hw⟩ : ∃ s₂ s₃ : URDB,
      logJournal s₁ .store env = some (true, s₂) ∧ htInsert s₂ = some s₃ ∧
      Written env s₁ s₃ (s₁.off + (8 + key.length + data.length) + 48) (entryMem (grown env s₁.journal
          (s₁.off + (8 + key.length + data.length) + 48)).mem s₁.off s₁.node
          (recordHeader key.length data.length ++ key ++ data) 8 (8 + key.length)
          ⟨key, some data⟩) :=
    ⟨_, _, logStore_eq hp.key_eq hdata (hp.granted hg) hp.fresh (hp.four_le hs),
      htInsert_data rfl rfl, rfl, rfl, rfl, rfl, rfl, rfl⟩
  rw [← hw.mem] at hins
  simp only [storeEntry, hlog, hinsert, Option.bind_eq_bind, Option.bind_some, Bool.true_eq_false,
    if_false]
  have hgood : ∀ m' : Mem, (∀ a, a < 4 ∨ 16 ≤ a → m' a = s₃.mem a) →
      ∃ H', Good (s₃.setMem m') rs H' (upsert s.ignoreCase F key s.off ⟨key, some data⟩) :=
    fun m' => hins.good hs hp (by simp only [Option.elim]; omega) (by omega) hg hw.stSize hw.cdb
  have hlocked : s₃.locked - 1 = s.locked := by rw [hw.locked, hp.unlocked]
  have hnrecord : s₃.nrecord = s.nrecord := hins.nrecord
  have hst : s₃.journal.stSize = (grown env s.journal
      (s₁.off + (8 + key.length + data.length) + 48)).stSize := by
    rw [hw.stSize, hp.journal, grown_stSize]
  cases exist with
  | true =>
      obtain ⟨H', hgood'⟩ := hgood s₃.mem fun _ _ => rfl
      exact ⟨s₃.unlock, rfl, ⟨⟨H', hgood'.congr rfl rfl⟩, hw.cdb.trans hp.cdb, hlocked,
        hp.safe.insert hw.trace⟩, hnrecord, hst⟩
  | false =>
      obtain ⟨H', hgood'⟩ := hgood (put s₃.mem 8 (s₃.nrecord + 1)) fun a ha =>
        put_agree _ _ _ (b := a) (k := 1) (by unfold Apart; omega) a (by omega) (by omega)
      refine ⟨(s₃.setMem (put s₃.mem 8 (s₃.nrecord + 1))).unlock, rfl,
        ⟨⟨H', hgood'.congr rfl rfl⟩, hw.cdb.trans hp.cdb, hlocked, hp.safe.insert hw.trace⟩, ?_, hst⟩
      rw [← hnrecord]
      exact get_put_same _ _ _

theorem removeEntry_spec (hs : Good s rs H F) (hkey : KeyOk s.ignoreCase key)
    (hp : Prepared s F key s₁) (hg : Granted env s.journal
      (s.off + nodeRoom s.ignoreCase F key + (8 + key.length) + 48)) :
    ∃ s', removeEntry s₁ env = some (0, s') ∧
      Reaches s s' rs (upsert s.ignoreCase F key s.off ⟨key, none⟩) ∧
      s'.nrecord = (s.nrecord + 2 ^ 32 - 1) % 2 ^ 32 := by
  have h24 : sizeofCacheNode = 24 := rfl
  rw [← hp.off hs] at hg
  have hfits := hg.fits
  have hlen : (recordHeader key.length uNotFound ++ key).length = 8 + key.length := by
    simp only [List.length_append, length_recordHeader]
  have hins := inserted hs hp (hkey.good none) rfl (inLog_remove key) env
    (s₁.off + (8 + key.length) + 48) (by omega)
  obtain ⟨s₂, s₃, hlog, hinsert, hw⟩ : ∃ s₂ s₃ : URDB,
      logJournal s₁ .remove env = some (true, s₂) ∧
      htInsert { s₂ with data := ⟨.null, uNotFound⟩ } = some s₃ ∧
      Written env s₁ s₃ (s₁.off + (8 + key.length) + 48)
        (entryMem (grown env s₁.journal (s₁.off + (8 + key.length) + 48)).mem s₁.off s₁.node
          (recordHeader key.length uNotFound ++ key) 8 0 ⟨key, none⟩) :=
    ⟨_, _, logRemove_eq hp.key_eq (hp.granted hg) hp.fresh (hp.four_le hs),
      htInsert_deleted rfl rfl, rfl, rfl, rfl, rfl, rfl, rfl⟩
  rw [← hw.mem] at hins
  simp only [removeEntry, hlog, hinsert, Option.bind_eq_bind, Option.bind_some, Bool.true_eq_false,
    if_false]
  have hlocked : s₃.locked - 1 = s.locked := by rw [hw.locked, hp.unlocked]
  have hnrecord : s₃.nrecord = s.nrecord := hins.nrecord
  obtain ⟨H', hgood⟩ := hins.good hs hp (by simp only [Option.elim]; omega) (by omega) hg hw.stSize
    hw.cdb fun a ha => show put s₃.mem 8 (s₃.nrecord + 2 ^ 32 - 1) a = s₃.mem a from
      put_agree _ _ _ (b := a) (k := 1) (by unfold Apart; omega) a (by omega) (by omega)
  refine ⟨_, rfl, ⟨⟨H', hgood.congr rfl rfl⟩, hw.cdb.trans hp.cdb, hlocked,
    hp.safe.insert hw.trace⟩, ?_⟩
  rw [← hnrecord]
  exact get_put_same _ _ _

/-! ### Two entries -/

/-- The second node of `substitute` takes the place of the first one: both
lookups ended at the same pointer, and neither key has a node. -/
def Collide (ignoreCase : Bool) (F : Forest) (key newKey : Bytes) : Prop :=
  lookup ignoreCase F key = none ∧ lookup ignoreCase F newKey = none ∧
    stopAddr ignoreCase F key = stopAddr ignoreCase F newKey

instance (ignoreCase : Bool) (F : Forest) (key newKey : Bytes) :
    Decidable (Collide ignoreCase F key newKey) :=
  inferInstanceAs (Decidable (_ ∧ _ ∧ _))

/-- The trees in which `substitute` marks the old key as deleted. -/
def substituted (ignoreCase : Bool) (F : Forest) (key newKey data : Bytes) (n₀ : Nat) : Forest :=
  if Collide ignoreCase F key newKey then F
  else upsert ignoreCase F newKey n₀ ⟨newKey, some data⟩

theorem allocMem_congr {m m' : Mem} {off cell : Nat}
    (h : ∀ a, a < cell ∨ cell + 4 ≤ a → m' a = m a) :
    allocMem m' off cell = allocMem m off cell := by
  funext a
  have hlen : (word off).length = 4 := rfl
  simp only [allocMem, fill, put, write]
  by_cases hin : cell ≤ a ∧ a < cell + (word off).length
  · rw [if_pos hin, if_pos hin]
  · rw [h a (by omega)]

/-- The journal between the two entries, without the node that is to be lost. -/
theorem substituted_journal (hs : Good s rs H F) {newKey data : Bytes}
    (hp : Prepared s F newKey s₁) {m : Mem}
    (h : Inserted s s₁ F newKey ⟨newKey, some data⟩ (substituteLog key newKey data) m) :
    ∃ m₀ H₀, JournalAt s.ignoreCase m₀ H₀
        (substituted s.ignoreCase F key newKey data s.off) ∧
      (∀ n y, H₀ n = some y → n + sizeofCacheNode ≤ s₁.off) ∧
      (∀ a, a < stopAddr s.ignoreCase F key ∨ stopAddr s.ignoreCase F key + 4 ≤ a → m₀ a = m a) ∧
      (¬Collide s.ignoreCase F key newKey → m₀ = m) := by
  by_cases hc : Collide s.ignoreCase F key newKey
  · obtain ⟨hnone, hnone', hstop⟩ := hc
    have hbounds := hs.journal.stopAddr_bounds key
    have h24 : sizeofCacheNode = 24 := rfl
    have hoff := hp.off hs
    have hmoff := h.off
    set cell := stopAddr s.ignoreCase F key with hcell
    have hframe : ∀ a, a < cell ∨ cell + 4 ≤ a → write m cell (read s.mem cell 4) a = m a :=
      fun a ha => if_neg (by rw [length_read]; omega)
    have hgoff : get (write m cell (read s.mem cell 4)) 0 = get m 0 :=
      Agree.get_eq fun a _ ha => hframe a (by omega)
    refine ⟨write m cell (read s.mem cell 4), H, ?_, ?_, hframe, fun hn =>
      absurd ⟨hnone, hnone', hstop⟩ hn⟩
    · rw [substituted, if_pos ⟨hnone, hnone', hstop⟩]
      refine hs.journal.frame (fun a ha hlt => ?_) ?_
      · by_cases hin : cell ≤ a ∧ a < cell + 4
        · have := read_write_same m cell (read s.mem cell 4)
          rw [write, if_pos (by rw [length_read]; omega), List.getD_eq_getElem?_getD,
            getElem?_read _ _ _ _ (by omega), Nat.add_sub_cancel' hin.1]
          rfl
        · rw [hframe a (by omega)]
          exact h.frame hnone' a ha hlt (by rw [← hstop]; omega)
      · show s.off ≤ _
        rw [hgoff, hmoff]
        omega
    · intro n y hy
      have : n + sizeofCacheNode ≤ s.off := hs.journal.heap.high n y hy
      omega
  · obtain ⟨H', hJ, hbelow⟩ := h.journal
    exact ⟨m, H', by rw [substituted, if_neg hc]; exact hJ, hbelow, fun _ _ => rfl, fun _ => rfl⟩

theorem charge_substituted (ignoreCase : Bool) (F : Forest) (key newKey data : Bytes) (n₀ : Nat) :
    charge (substituted ignoreCase F key newKey data n₀) ≤
      charge F + nodeRoom ignoreCase F newKey + 8 + newKey.length + data.length := by
  unfold substituted
  split
  · omega
  · exact charge_entry ignoreCase F newKey n₀ ⟨newKey, some data⟩

/-- The old key in the trees between the two entries: its node is where the
first lookup found it, and without a node its pointer is where the lookup
ended. -/
theorem lookup_substituted (hs : Good s rs H F) {newKey : Bytes}
    (hnew : KeyOk s.ignoreCase newKey) (data : Bytes) (n₀ : Nat) (key : Bytes) :
    (∀ x, lookup s.ignoreCase F key = some x → ∃ e',
        lookup s.ignoreCase (substituted s.ignoreCase F key newKey data n₀) key =
          some (x.1, e')) ∧
      (lookup s.ignoreCase F key = none →
        lookup s.ignoreCase (substituted s.ignoreCase F key newKey data n₀) key = none ∧
        stopAddr s.ignoreCase (substituted s.ignoreCase F key newKey data n₀) key =
          stopAddr s.ignoreCase F key) := by
  unfold substituted
  by_cases hc : Collide s.ignoreCase F key newKey
  · rw [if_pos hc]
    exact ⟨fun x hx => ⟨x.2, hx⟩, fun hnone => ⟨hnone, rfl⟩⟩
  · rw [if_neg hc]
    have hgood := hs.journal.good
    have hsame : canon s.ignoreCase newKey = canon s.ignoreCase (Entry.mk newKey (some data)).key :=
      rfl
    refine ⟨fun x hx => lookup_upsert_found hgood hnew.2 hsame hx, fun hnone => ?_⟩
    have hcanon : canon s.ignoreCase key ≠ canon s.ignoreCase newKey := fun h =>
      hc ⟨hnone, by rw [← lookup_congr h, hnone], stopAddr_congr h F⟩
    refine ⟨by rw [lookup_upsert_other hgood hnew.2 hsame hcanon, hnone], ?_⟩
    cases hx : lookup s.ignoreCase F newKey with
    | none => exact stopAddr_upsert_other hx fun h => hc ⟨hnone, hx, h⟩
    | some x => exact stopAddr_upsert_found hgood rfl (by rw [hx]; rfl)

theorem substituteEntry_spec (hs : Good s rs H F) {newKey data : Bytes}
    (hkey : KeyOk s.ignoreCase key) (hnew : KeyOk s.ignoreCase newKey)
    (hp : Prepared s F newKey s₁) (hkey1 : s₁.key1 = Datum.ofBytes key)
    (hg : Granted env s.journal (s.off + nodeRoom s.ignoreCase F newKey +
      (16 + key.length + newKey.length + data.length) + 48))
    (hmap : lookup s.ignoreCase F key = none → (grown env s.journal
      (s.off + nodeRoom s.ignoreCase F newKey +
        (16 + key.length + newKey.length + data.length) + 48)).map = s.journal.map) :
    ∃ s' n₁, substituteEntry s₁ (Datum.ofBytes data)
        ((lookup s.ignoreCase F key).elim 0 Prod.fst)
        (s.journal.map, stopAddr s.ignoreCase F key) env = some (0, s') ∧
      Reaches s s' rs (upsert s.ignoreCase (substituted s.ignoreCase F key newKey data s.off) key n₁
        ⟨key, none⟩) ∧ s'.nrecord = s.nrecord := by
  have h24 : sizeofCacheNode = 24 := rfl
  have hstruct : sizeofCacheStruct = 3092 := rfl
  have hoff₁ := hp.off hs
  rw [← hoff₁] at hg hmap
  have hfits := hg.fits
  have hlow : sizeofCacheStruct ≤ s.off := hs.journal.low
  have hlen := length_substituteLog key newKey data
  have hold := substituteLog_old key newKey data
  -- the new entry
  set sz := s₁.off + (16 + key.length + newKey.length + data.length) + 48 with hsz
  set s₁' : URDB := { s₁ with data := Datum.ofBytes data } with hs₁'
  have hp' : Prepared s F newKey s₁' := ⟨hp.cdb, hp.journal, hp.key_eq, hp.pnode, hp.node,
    hp.locked, hp.safe⟩
  have hins := inserted hs hp' (hnew.good (some data)) rfl
    (inLog_substitute_new key newKey data) env sz (show s₁.off + _ < _ by omega)
  obtain ⟨s₂, s₃, hlog, hinsert, hw, hk₃⟩ : ∃ s₂ s₃ : URDB,
      logJournal s₁' .substitute env = some (true, s₂) ∧ htInsert s₂ = some s₃ ∧
      Written env s₁' s₃ sz (entryMem (grown env s₁'.journal sz).mem s₁'.off s₁'.node
        (substituteLog key newKey data) (16 + key.length) (16 + key.length + newKey.length)
        ⟨newKey, some data⟩) ∧ s₃.key1 = ⟨.journal (s₁.off + 8), key.length⟩ :=
    ⟨_, _, logSubstitute_eq hkey1 hp.key_eq rfl (hp'.granted hg) hp'.fresh (hp'.four_le hs),
      htInsert_data rfl rfl, ⟨rfl, rfl, rfl, rfl, rfl, rfl⟩, rfl⟩
  rw [← hw.mem] at hins
  simp only [substituteEntry, ← hs₁', hlog, hinsert, Option.bind_eq_bind, Option.bind_some,
    Bool.true_eq_false, if_false, hk₃]
  -- the deletion
  obtain ⟨m₀, H₀, hJ₀, hbelow, hframe, heq⟩ := substituted_journal hs hp' hins
  have hstop := hs.journal.stopAddr_bounds key
  have hstop' : stopAddr s.ignoreCase F key + 4 ≤ s.off := hstop.2
  have hm₀ : get m₀ 0 = s₁.off + (16 + key.length + newKey.length + data.length) := by
    rw [← hlen]
    exact (Agree.get_eq fun a _ ha => hframe a (.inl (by omega))).trans hins.off
  have hread : read m₀ (s₁.off + 8) key.length = key :=
    (Agree.read_eq fun a ha _ => hframe a (.inr (by omega))).trans
      ((hins.log 8 _ hold.1).trans hold.2)
  have hblock : LogBlock H₀ (get m₀ 0) (s₁.off + 8) key.length :=
    ⟨by omega, by omega, fun n y hy => .inl ((hbelow n y hy).trans (Nat.le_add_right _ _))⟩
  have hle : sz ≤ s₃.journal.stSize := by
    rw [hw.stSize]
    exact le_grown
  have hsmall : s₃.journal.stSize < 2 ^ 32 := by
    rw [hw.stSize]
    exact grown_small (hp'.granted hg) (by rw [hp'.journal]; exact hs.small)
  have hcdb : s₃.cdb = s.cdb := hw.cdb.trans hp.cdb
  have hic : s₃.ignoreCase = s.ignoreCase := by rw [URDB.ignoreCase, hcdb]; rfl
  have hlocked : s₃.locked - 1 = s.locked := by rw [hw.locked, hp'.unlocked]
  have hsafe : Safe s s₃ := hp'.safe.insert hw.trace
  have hcharge := charge_substituted s.ignoreCase F key newKey data s.off
  have hcharged := hs.charged
  obtain ⟨hfound, hmissing⟩ := lookup_substituted hs hnew data s.off key
  cases hx : lookup s.ignoreCase F key with
  | some x =>
      obtain ⟨e', hx'⟩ := hfound x hx
      have hxlow := (hs.journal.mem_lt (slotOf_lt s.ignoreCase key)
        (List.mem_map_of_mem (Tree.find_mem hx).1)).1
      have hm : m₀ = s₃.mem := heq fun hc => absurd (hc.1.symm.trans hx) (by simp)
      have hlogged : Logged m₀ H₀ (s₁.off + 8) 0 ⟨key, none⟩ :=
        ⟨hblock, hread, fun _ => rfl, by simp, by simp⟩
      obtain ⟨H', hJ', -⟩ := insert_update hJ₀ hx' 0 (hkey.good none) rfl (fun _ _ _ => rfl)
        le_rfl hlogged
      have hcharge' := charge_entry s.ignoreCase (substituted s.ignoreCase F key newKey data s.off)
        key 0 ⟨key, none⟩
      simp only [nodeRoom, hx', Option.isSome_some, if_true, Option.elim_none] at hcharge'
      have hsame : ∀ a, a + 4 ≤ 16 → get (insertMem s₃.mem x.1 (s₁.off + 8) key.length 0 uNotFound) a =
          get s₃.mem a := fun a ha => Agree.get_eq fun z _ hz => insertMem_frame (.inl (by omega))
      have hne : x.1 ≠ 0 := by omega
      simp only [Option.elim_some, ne_eq, hne, not_false_iff, if_true]
      rw [htInsert_deleted rfl rfl]
      rw [hm] at hJ' hm₀
      refine ⟨_, 0, rfl, ⟨⟨H', ⟨?_, ?_, hsmall, ?_, ?_⟩⟩, hcdb, hlocked, hsafe.insert rfl⟩, ?_⟩
      · exact hic ▸ hJ'
      · show get (insertMem s₃.mem x.1 (s₁.off + 8) key.length 0 uNotFound) 0 + _ ≤
          s₃.journal.stSize
        rw [hsame 0 (by omega)]
        omega
      · exact hcdb ▸ hs.cdb
      · show _ ≤ get (insertMem s₃.mem x.1 (s₁.off + 8) key.length 0 uNotFound) 0
        rw [hsame 0 (by omega)]
        omega
      · exact (hsame 8 (by omega)).trans hins.nrecord
  | none =>
      obtain ⟨hx', hstopx⟩ := hmissing hx
      have hmap' : s₃.journal.map = s.journal.map := by
        rw [hw.map, hp'.grown_map, hmap hx]
      have hoff₃ : s₃.off = get m₀ 0 := by rw [hm₀, ← hlen]; exact hins.off
      obtain ⟨H', hJ'⟩ := insert_deletion hJ₀ hx' (hkey.good none) (by omega) hblock hread
      rw [hstopx, ← hoff₃, allocMem_congr hframe] at hJ'
      have hcharge' := charge_entry s.ignoreCase (substituted s.ignoreCase F key newKey data s.off)
        key s₃.off ⟨key, none⟩
      simp only [nodeRoom, hx', Option.isSome_none, Bool.false_eq_true, if_false,
        Option.elim_none] at hcharge'
      simp only [Option.elim_none, ne_eq, not_true, if_false]
      rw [htAlloc_eq hmap'.symm]
      simp only [Option.bind_some]
      rw [htInsert_deleted rfl rfl]
      set cell := stopAddr s.ignoreCase F key with hcell
      set m' := insertMem (allocMem s₃.mem s₃.off cell) s₃.off (s₁.off + 8) key.length 0 uNotFound
        with hm'
      have hoff' : get m' 0 = s₃.off + sizeofCacheNode := by
        rw [← allocMem_off (m := s₃.mem) hstop.1 (by omega) (by omega)]
        exact Agree.get_eq fun z _ hz => insertMem_frame (.inl (by omega))
      have hnrecord : get m' 8 = s₃.nrecord := by
        apply Agree.get_eq
        intro z hz hz'
        rw [hm', insertMem_frame (.inl (by omega)), allocMem_frame (by omega) (.inl (by omega))
          (.inl (by omega))]
      refine ⟨_, s₃.off, rfl, ⟨⟨H', ⟨?_, ?_, hsmall, ?_, ?_⟩⟩, hcdb, hlocked, ?_⟩, ?_⟩
      · exact hic ▸ hJ'
      · show get m' 0 + _ ≤ s₃.journal.stSize
        omega
      · exact hcdb ▸ hs.cdb
      · show _ ≤ get m' 0
        omega
      · refine hsafe.trans ⟨[.alloc s₃.off s₃.journal.stSize, .insert s₃.off], ?_, ?_⟩
        · exact List.append_assoc _ _ _
        · intro o z hmem
          simp only [List.mem_cons, Event.alloc.injEq, reduceCtorEq, List.not_mem_nil,
            or_false] at hmem
          omega
      · exact hnrecord.trans hins.nrecord

/-! ### Whole calls -/

theorem storeKey_spec (hs : Good s rs H F) {data : Bytes} {flag : Flag}
    (hkey : KeyOk s.ignoreCase key) (hdata : data.length < uNotFound)
    (hg : ¬(flag = .insert ∧ (view s.ignoreCase rs F key).isSome = true) →
      ¬(flag = .replace ∧ view s.ignoreCase rs F key = some data) → Granted env s.journal
        (s.off + nodeRoom s.ignoreCase F key + (8 + key.length + data.length) + 48)) :
    ∃ r s', storeKey s key data flag env = some (r, s') ∧
      (flag = .insert ∧ (view s.ignoreCase rs F key).isSome = true ∧ r = -1 ∧
          Reaches s s' rs F ∧ s'.nrecord = s.nrecord ∨
        flag = .replace ∧ view s.ignoreCase rs F key = some data ∧ r = 0 ∧
          Reaches s s' rs F ∧ s'.nrecord = s.nrecord ∨
        ¬(flag = .insert ∧ (view s.ignoreCase rs F key).isSome = true) ∧ r = 0 ∧
          Reaches s s' rs (upsert s.ignoreCase F key s.off ⟨key, some data⟩) ∧
          (s'.nrecord = if (lookup s.ignoreCase F key).isSome ||
            (dataOf s.ignoreCase rs key).head?.isSome then s.nrecord
            else (s.nrecord + 1) % 2 ^ 32) ∧
          s'.journal.stSize = (grown env s.journal (s.off + nodeRoom s.ignoreCase F key +
            (8 + key.length + data.length) + 48)).stSize) := by
  have hdataIff := sameData_iff hs key hdata
  rcases storeKey_cases hs key data flag env with
    ⟨hins, hbound, s', hcall, hsame⟩ | ⟨hrep, heq, s', hcall, hsame⟩ |
      ⟨hnot, hnot', s₁, hp, hd, hcall⟩
  · exact ⟨-1, s', hcall, .inl ⟨hins, hbound, rfl, .untouched hs hsame, hsame.nrecord⟩⟩
  · exact ⟨0, s', hcall, .inr (.inl ⟨hrep, hdataIff.mp heq, rfl, .untouched hs hsame,
      hsame.nrecord⟩)⟩
  · rw [hdataIff] at hnot'
    obtain ⟨s', hs', hreach, hn⟩ := storeEntry_spec hs hkey hp hd _ (hg hnot hnot')
    exact ⟨0, s', hcall.trans hs', .inr (.inr ⟨hnot, rfl, hreach, hn⟩)⟩

theorem removeKey_spec (hs : Good s rs H F) (hkey : KeyOk s.ignoreCase key)
    (hg : (view s.ignoreCase rs F key).isSome = true → Granted env s.journal
      (s.off + nodeRoom s.ignoreCase F key + (8 + key.length) + 48)) :
    ∃ r s', removeKey s key env = some (r, s') ∧
      (view s.ignoreCase rs F key = none ∧ (r = -1 ∨ r = -2) ∧
          Reaches s s' rs F ∧ s'.nrecord = s.nrecord ∨
        (view s.ignoreCase rs F key).isSome = true ∧ r = 0 ∧
          Reaches s s' rs (upsert s.ignoreCase F key s.off ⟨key, none⟩) ∧
          s'.nrecord = (s.nrecord + 2 ^ 32 - 1) % 2 ^ 32) := by
  rcases removeKey_cases hs key env with ⟨hnone, r, s', hr, hcall, hsame⟩ | ⟨hbound, s₁, hp, hcall⟩
  · exact ⟨r, s', hcall, .inl ⟨hnone, hr, .untouched hs hsame, hsame.nrecord⟩⟩
  · obtain ⟨s', hs', hreach, hn⟩ := removeEntry_spec hs hkey hp (hg hbound)
    exact ⟨0, s', hcall.trans hs', .inr ⟨hbound, rfl, hreach, hn⟩⟩

theorem substituteKey_spec (hs : Good s rs H F) {newKey data : Bytes} {flag : Flag}
    (hkey : KeyOk s.ignoreCase key) (hnew : KeyOk s.ignoreCase newKey)
    (hg : (view s.ignoreCase rs F key).isSome = true →
      ¬(flag = .insert ∧ (view s.ignoreCase rs F newKey).isSome = true) →
      Granted env s.journal (s.off + nodeRoom s.ignoreCase F newKey +
          (16 + key.length + newKey.length + data.length) + 48) ∧
        (lookup s.ignoreCase F key = none → (grown env s.journal
          (s.off + nodeRoom s.ignoreCase F newKey +
            (16 + key.length + newKey.length + data.length) + 48)).map = s.journal.map)) :
    ∃ r s', substituteKey s key newKey data flag env = some (r, s') ∧ s'.nrecord = s.nrecord ∧
      (view s.ignoreCase rs F key = none ∧ (r = -1 ∨ r = -2) ∧ Reaches s s' rs F ∨
        (view s.ignoreCase rs F key).isSome = true ∧ flag = .insert ∧
          (view s.ignoreCase rs F newKey).isSome = true ∧ r = -4 ∧ Reaches s s' rs F ∨
        (view s.ignoreCase rs F key).isSome = true ∧
          ¬(flag = .insert ∧ (view s.ignoreCase rs F newKey).isSome = true) ∧ r = 0 ∧
          ∃ n₁, Reaches s s' rs (upsert s.ignoreCase
            (substituted s.ignoreCase F key newKey data s.off) key n₁ ⟨key, none⟩)) := by
  rcases substituteKey_cases hs key newKey data flag env with
    ⟨hnone, r, s', hr, hcall, hsame⟩ | ⟨hbound, hins, hnewb, s', hcall, hsame⟩ |
      ⟨hbound, hnot, s₁, hp, hkey1, hcall⟩
  · exact ⟨r, s', hcall, hsame.nrecord, .inl ⟨hnone, hr, .untouched hs hsame⟩⟩
  · exact ⟨-4, s', hcall, hsame.nrecord,
      .inr (.inl ⟨hbound, hins, hnewb, rfl, .untouched hs hsame⟩)⟩
  · obtain ⟨hgr, hmap⟩ := hg hbound hnot
    obtain ⟨s', n₁, hs', hreach, hn⟩ := substituteEntry_spec hs hkey hnew hp hkey1 hgr hmap
    exact ⟨0, s', hcall.trans hs', hn, .inr (.inr ⟨hbound, hnot, rfl, n₁, hreach⟩)⟩

end ULib.RdbUpdates
