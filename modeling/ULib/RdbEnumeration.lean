import ULib.RdbSession
import ULib.RdbText

/-!
The enumerations of a database: `callForAllEntry`, `getKeys` and `print` go
through the journal and then the constant database, the sorted ones collect the
keys first and fetch them one by one. The former visit every live pair once,
the latter do so where `size` is right, which is what they take for the number
of keys.
-/

namespace ULib.RdbEnumeration

open ByteMemory
open KeyComparison
open ConstantDatabase
open CdbImage
open CdbScan
open ReliableDatabase
open ReliableDatabase.URDB
open HeapTree
open JournalTree
open JournalForest
open JournalLog
open JournalEntry
open JournalVisit
open Overlay
open RdbCalls
open RdbRefinement
open RdbSize
open RdbReorganize
open RdbLocking
open RdbSession
open RdbText
open ULib.TextBuffer (Buffer append created maxSize)
open ULib.CdbText (text pieces)

variable {s : URDB} {rs : List Record} {H : Heap Entry} {F : Forest}

/-! ### The loop over the constant database -/

/-- The lookup of a record of the constant database during the scan. -/
theorem htLookup_scanned (hs : Good s rs H F) (hscan : ScanAt s.cdb rs) {e : Nat × Nat}
    (he : e ∈ callForAllEntryExt s.cdb) {t : URDB} (ht : Scanning s t) :
    ∃ t', htLookup { t with
        khash := e.1
        key := Datum.ofBytes (recordAt t.cdb.file e.2).key } =
      some ((lookup s.ignoreCase F (recordAt s.cdb.file e.2).key).isSome, t') ∧ Scanning s t' := by
  have himage : IsImage s.cdb.ignoreCase s.cdb.file s.cdb.stSize rs := by
    rcases hs.cdb with ⟨hzero, -⟩ | ⟨-, -, himage⟩
    · rw [contents_nil hzero] at he
      cases he
    · exact himage
  have hhash := mem_callForAllEntryExt himage hscan he
  have hkey : (recordAt t.cdb.file e.2).key = (recordAt s.cdb.file e.2).key := by rw [ht.cdb]
  rw [hkey]
  generalize (recordAt s.cdb.file e.2).key = key at hhash
  set t₀ : URDB := { t with khash := e.1, key := Datum.ofBytes key } with ht₀
  have hgood : Good t₀ rs H F := hs.congr ht.journal ht.cdb
  have hic : t₀.ignoreCase = s.ignoreCase := by rw [URDB.ignoreCase, ht₀, ht.cdb]; rfl
  have hbytes : t₀.key.bytes t₀.mem = key := bytes_ofBytes _ _
  have hroom := hgood.room
  have hlook := htLookup_eq hgood.journal (by omega) (by rw [hbytes, hic]; exact hhash)
  rw [hbytes, hic] at hlook
  exact ⟨_, hlook, ht.cdb, ht.journal, ht.locked, ht.trace⟩

section Visits

variable {σ : Type} (add : Bytes → Bytes → σ → σ)

/-- A record is handed on. -/
def give (a : σ) (r : Record) : σ := add r.key r.data a

theorem foldlM_call2 (hs : Good s rs H F) (hscan : ScanAt s.cdb rs) {l : List (Nat × Nat)}
    (hl : ∀ e ∈ l, e ∈ callForAllEntryExt s.cdb) {t : URDB} (ht : Scanning s t) (a : σ) :
    ∃ t', l.foldlM (call2 add) (t, a) = some (t', ((l.map fun e => recordAt s.cdb.file e.2).filter
        fun r => (lookup s.ignoreCase F r.key).isNone).foldl (give add) a) ∧ Scanning s t' := by
  induction l generalizing t a with
  | nil => exact ⟨t, rfl, ht⟩
  | cons e l ih =>
      obtain ⟨t₁, hlook, ht₁⟩ := htLookup_scanned hs hscan (hl e List.mem_cons_self) ht
      have hrecord : recordAt t.cdb.file e.2 = recordAt s.cdb.file e.2 := by rw [ht.cdb]
      obtain ⟨t', hfold, ht'⟩ := ih (fun e' he' => hl e' (List.mem_cons_of_mem _ he')) ht₁
        (if (lookup s.ignoreCase F (recordAt s.cdb.file e.2).key).isSome then a
          else give add a (recordAt s.cdb.file e.2))
      refine ⟨t', ?_, ht'⟩
      rw [List.foldlM_cons, call2]
      simp only [Option.bind_eq_bind, hlook, Option.bind_some]
      rw [hrecord]
      refine hfold.trans ?_
      rw [List.map_cons, List.filter_cons]
      cases lookup s.ignoreCase F (recordAt s.cdb.file e.2).key <;> rfl

theorem foldl_addEntry_give (ignoreCase : Bool) (es : List (Nat × Entry)) (a : σ) :
    es.foldl (addEntry add) a = (es.filterMap (layer ignoreCase).entry).foldl (give add) a := by
  rw [List.foldl_filterMap]
  congr 1
  funext a e
  have hentry : (layer ignoreCase).entry e = e.2.data.map fun d => ⟨e.2.key, d⟩ := rfl
  rw [addEntry, hentry]
  cases e.2.data <;> rfl

/-- `call` hands on the merged records, in their order. -/
theorem call_combined (hs : Good s rs H F) (hscan : ScanAt s.cdb rs) (a : σ) :
    ∃ t, call add s a = some (t, (combined s.cdb F).foldl (give add) a) ∧ Scanning s t := by
  have hroom := hs.room
  have hvisit := visitHashtab_eq add hs.journal
    (show get s.mem 0 ≤ s.journal.stSize by unfold URDB.off at hroom; omega) a
  rw [foldl_addEntry_give add s.cdb.ignoreCase] at hvisit
  have hmerge : combined s.cdb F = (forestEntries F).filterMap (layer s.cdb.ignoreCase).entry ++
      (contents s.cdb).filter fun r => (lookup s.ignoreCase F r.key).isNone := by
    have hjournal : JournalAt s.cdb.ignoreCase s.mem H F := hs.journal
    rw [combined, merge, shown_eq_filter hjournal]
    rfl
  rw [hmerge, List.foldl_append]
  simp only [call, hvisit, Option.bind_eq_bind, Option.bind_some]
  split
  · obtain ⟨t, hfold, ht⟩ := foldlM_call2 add hs hscan (fun e he => he)
      (t := s.setMem s.mem) ⟨rfl, rfl, rfl, rfl⟩
      (((forestEntries F).filterMap (layer s.cdb.ignoreCase).entry).foldl (give add) a)
    refine ⟨t, ?_, ht⟩
    rw [show (s.setMem s.mem).cdb = s.cdb from rfl, contents]
    exact hfold
  · next hzero =>
    refine ⟨s.setMem s.mem, ?_, ⟨rfl, rfl, rfl, rfl⟩⟩
    rw [contents, contents_nil (show s.cdb.stSize = 0 from not_not.mp hzero), List.map_nil,
      List.filter_nil, List.foldl_nil]

/-! ### Fetching keys one by one -/

/-- The loop of the sorted enumerations, over the keys that were collected. -/
def visitKeys : List Bytes → URDB × σ → Option (URDB × σ)
  | [], r => some r
  | key :: vkey, (s, a) => do
      let (found, s) ← fetchKey s key
      visitKeys vkey (s, if found then add key (s.data.bytes s.mem) a else a)

theorem visitKeys_eq (hs : Good s rs H F) {es : List Record}
    (hes : ∀ r ∈ es, view s.ignoreCase rs F r.key = some r.data) (a : σ) :
    ∃ t, visitKeys add (es.map Record.key) (s, a) = some (t, es.foldl (give add) a) ∧
      Untouched s t := by
  induction es generalizing s a with
  | nil => exact ⟨s, rfl, rfl, rfl, rfl, rfl⟩
  | cons r es ih =>
      obtain ⟨t, hfetch, hsame, hdata⟩ := fetchKey_spec hs r.key
      have hr := hes r List.mem_cons_self
      have hic : t.ignoreCase = s.ignoreCase := by rw [URDB.ignoreCase, hsame.cdb]; rfl
      obtain ⟨t', hvisit, hsame'⟩ := ih (hs.congr hsame.journal hsame.cdb)
        (fun r' hr' => by rw [hic]; exact hes r' (List.mem_cons_of_mem _ hr')) (give add a r)
      refine ⟨t', ?_, hsame'.journal.trans hsame.journal, hsame'.cdb.trans hsame.cdb,
        hsame'.locked.trans hsame.locked, hsame'.trace.trans hsame.trace⟩
      rw [List.map_cons, visitKeys, hfetch, hr]
      simp only [Option.isSome_some, Option.bind_eq_bind, Option.bind_some, if_true]
      rw [hdata r.data hr]
      exact hvisit

end Visits

/-- `getKeys`. -/
def getKeys (s : URDB) : Option (List Bytes × URDB) :=
  (call (fun key _ vec => vec ++ [key]) s.lock []).map fun (s, vec) => (vec, s.unlock)

section Sorted

variable {σ : Type} (add : Bytes → Bytes → σ → σ) (sort : List Bytes → List Bytes)

/-- `callForAllEntrySorted`; `sort` is the sort by the function that is given,
or that of `UVector<UString>`. -/
def callForAllEntrySorted (s : URDB) (a : σ) : Option (σ × URDB) :=
  if size s ≠ 0 then do
    let (vkey, s) ← getKeys s.lock
    let vkey := if vkey.length > 1 then sort vkey else vkey
    let (s, a) ← visitKeys add vkey (s, a)
    some (a, s.unlock)
  else some (a, s)

/-- The loop of `printSorted` over the first `size` keys; there is no outcome
where the vector has fewer. -/
def printSorted (s : URDB) (a : σ) : Option (σ × URDB) :=
  if (s.cdb.stSize + s.off) % 2 ^ 32 ≠ 0 ∧ size s ≠ 0 then do
    let n := size s
    let (vkey, s) ← getKeys s
    let vkey := if n > 1 then sort vkey else vkey
    if n ≤ vkey.length then
      let (s, a) ← visitKeys add (vkey.take n) (s, a)
      some (a, s)
    else none
  else some (a, s)

end Sorted

/-! ### Every live pair once -/

/-- The list has every live pair once and no other one. -/
structure Enumerates (s : URDB) (es : List Record) : Prop where
  once : (es.map fun r => canon s.ignoreCase r.key).Nodup
  live : ∀ key d, fetchValue s key = some (some d) ↔
    ∃ r ∈ es, canon s.ignoreCase r.key = canon s.ignoreCase key ∧ r.data = d

theorem Enumerates.perm {es es' : List Record} (h : Enumerates s es) (hperm : es'.Perm es) :
    Enumerates s es' :=
  ⟨(hperm.map _).nodup_iff.mpr h.once, fun key d => by rw [h.live]; simp only [hperm.mem_iff]⟩

theorem Enumerates.fetched {es : List Record} (h : Enumerates s es) {r : Record} (hr : r ∈ es) :
    fetchValue s r.key = some (some r.data) :=
  (h.live r.key r.data).mpr ⟨r, hr, rfl, rfl⟩

/-- The number of the live pairs is what `size` should be. -/
theorem Enumerates.counted_iff {es : List Record} (h : Enumerates s es) :
    Counted s ↔ size s = es.length := by
  have hkeys : ∀ b, b ∈ (es.map fun r => canon s.ignoreCase r.key).toFinset ↔
      ∃ key, canon s.ignoreCase key = b ∧ ∃ d, fetchValue s key = some (some d) := by
    intro b
    rw [List.mem_toFinset, List.mem_map]
    constructor
    · rintro ⟨r, hr, rfl⟩
      exact ⟨r.key, rfl, r.data, h.fetched hr⟩
    · rintro ⟨key, rfl, d, hd⟩
      obtain ⟨r, hr, hkey, -⟩ := (h.live key d).mp hd
      exact ⟨r, hr, hkey⟩
  have hcard : (es.map fun r => canon s.ignoreCase r.key).toFinset.card = es.length := by
    rw [List.toFinset_card_of_nodup h.once, List.length_map]
  constructor
  · rintro ⟨K, hK, hsize⟩
    rw [hsize, ← hcard]
    exact congrArg Finset.card (Finset.ext fun b => (hK b).trans (hkeys b).symm)
  · intro hsize
    exact ⟨_, hkeys, hsize.trans hcard.symm⟩

theorem combined_enumerates (hs : Sound s rs H F) : Enumerates s (combined s.cdb F) := by
  have hperm := contents_perm hs.good.cdb hs.scan
  have hdistinct : DistinctKeys s.ignoreCase (combined s.cdb F) :=
    distinct_combined hs.good.journal hperm hs.distinct.1 (shown_nodup hs.distinct _)
  refine ⟨hdistinct.2, fun key d => ?_⟩
  have hview : view s.ignoreCase rs F key = ((combined s.cdb F).find? fun r =>
      decide ((layer s.ignoreCase).key r = canon s.ignoreCase key)).map Record.data := by
    rw [← head_dataOf hdistinct.1]
    exact (view_rebuilt hs key).symm
  rw [fetchValue_eq hs.good, Option.some.injEq, hview, Option.map_eq_some_iff]
  simp only [find?_key_iff (f := (layer s.ignoreCase).key) hdistinct.2]
  exact ⟨fun ⟨r, ⟨hr, hkey⟩, hd⟩ => ⟨r, hr, hkey, hd⟩, fun ⟨r, hr, hkey, hd⟩ => ⟨r, ⟨hr, hkey⟩, hd⟩⟩

/-- A list that is collected in the end. -/
theorem foldl_give {β : Type} (f : Bytes → Bytes → β) (es : List Record) :
    es.foldl (give fun key data l => l ++ [f key data]) [] = es.map fun r => f r.key r.data := by
  have happend : ∀ l, es.foldl (give fun key data l => l ++ [f key data]) l =
      l ++ es.map fun r => f r.key r.data := by
    induction es with
    | nil => exact fun l => (List.append_nil l).symm
    | cons r es ih =>
        intro l
        rw [List.foldl_cons, ih, give, List.map_cons, List.append_assoc, List.singleton_append]
  rw [happend, List.nil_append]

theorem getKeys_eq (hs : Good s rs H F) (hscan : ScanAt s.cdb rs) :
    ∃ t, getKeys s = some ((combined s.cdb F).map Record.key, t) ∧ Good t rs H F ∧
      t.cdb = s.cdb := by
  have hlock : Good s.lock rs H F := hs.congr rfl rfl
  obtain ⟨t, hcall, ht⟩ := call_combined (fun key _ vec => vec ++ [key]) hlock hscan []
  rw [foldl_give fun key _ => key] at hcall
  exact ⟨t.unlock, by rw [getKeys, hcall]; rfl, hs.congr ht.journal ht.cdb, ht.cdb⟩

/-- A database with one record in the journal. -/
theorem stored_sized : ∃ r s, step (newDatabase 4096) (.store [97] [1] .insert, granting) =
    some (r, s) ∧ Sized s ∧ s.cdb.stSize + s.off < 2 ^ 32 := by
  have hfine : Fine (newDatabase 4096) (.store [97] [1] .insert, granting) := by decide
  obtain ⟨r, s, F, hstep, hreach⟩ := fine_reaches newDatabase_bare.sound.good _ hfine
  have hact : act (newDatabase 4096) (.call (.store [97] [1] .insert), granting) =
      some (some r, s) := by
    simp only [act, hstep]
    rfl
  obtain ⟨r', s', hact', hsized⟩ := act_sized (newDatabase 4096)
    (.call (.store [97] [1] .insert), granting) newDatabase_bare.sized (.inl ⟨hfine, by decide⟩)
  obtain ⟨rfl, rfl⟩ := Prod.mk.inj (Option.some.inj (hact.symm.trans hact'))
  have hst : s.cdb.stSize = 0 := by rw [hreach.cdb]; rfl
  have hoff : s.off < 2 ^ 32 := get_lt _ _
  exact ⟨r, s, hstep, hsized, by omega⟩

/-- The pairs in the order of keys that were rearranged. -/
theorem Enumerates.rearrange {cs : List Record} (h : Enumerates s cs) {vkey : List Bytes}
    (hperm : vkey.Perm (cs.map Record.key)) :
    ∃ es : List Record, Enumerates s es ∧ es.map Record.key = vkey ∧ es.length = cs.length := by
  let pair (key : Bytes) : Record := ⟨key, (value s key).getD []⟩
  have hpair : (cs.map Record.key).map pair = cs := by
    rw [List.map_map]
    refine (List.map_congr_left fun r hr => ?_).trans (List.map_id cs)
    have hvalue : value s r.key = some r.data := by rw [value, h.fetched hr]; rfl
    show (⟨r.key, (value s r.key).getD []⟩ : Record) = r
    rw [hvalue]
    rfl
  have hes := hperm.map pair
  rw [hpair] at hes
  refine ⟨vkey.map pair, h.perm hes, ?_, hes.length_eq⟩
  rw [List.map_map]
  exact List.map_id _

/-- The keys that are collected, with or without the lock. -/
theorem keys_collected (hs : Sound s rs H F) :
    ∃ cs, Enumerates s cs ∧
      (∃ t, getKeys s = some (cs.map Record.key, t) ∧ Good t rs H F ∧ t.cdb = s.cdb) ∧
      ∃ t, getKeys s.lock = some (cs.map Record.key, t) ∧ Good t rs H F ∧ t.cdb = s.cdb :=
  ⟨combined s.cdb F, combined_enumerates hs, getKeys_eq hs.good hs.scan,
    getKeys_eq (s := s.lock) (hs.good.congr rfl rfl) hs.scan⟩

/-- Every key that was collected is fetched. -/
theorem visitKeys_collected (hs : Good s rs H F) {t : URDB} (ht : Good t rs H F)
    (hcdb : t.cdb = s.cdb) {cs : List Record} (h : Enumerates s cs) {es : List Record}
    (hes : ∀ r ∈ es, r ∈ cs) {σ : Type} (add : Bytes → Bytes → σ → σ) (a : σ) :
    ∃ t', visitKeys add (es.map Record.key) (t, a) = some (t', es.foldl (give add) a) := by
  have hic : t.ignoreCase = s.ignoreCase := by rw [URDB.ignoreCase, hcdb]; rfl
  have hview : ∀ r ∈ es, view t.ignoreCase rs F r.key = some r.data := by
    intro r hr
    have hfetch := h.fetched (hes r hr)
    rw [fetchValue_eq hs] at hfetch
    rw [hic]
    exact Option.some.inj hfetch
  obtain ⟨t', hvisit, -⟩ := visitKeys_eq add ht hview a
  exact ⟨t', hvisit⟩

variable {sort : List Bytes → List Bytes}

theorem perm_sorted (hsort : ∀ vkey, (sort vkey).Perm vkey) (p : Prop) [Decidable p]
    (vkey : List Bytes) : (if p then sort vkey else vkey).Perm vkey := by
  split
  · exact hsort vkey
  · exact List.Perm.refl vkey

/-- The sorted enumeration visits every live pair once, in the order of the
sorted keys, if `size` is right. -/
theorem callForAllEntrySorted_enumerates (hsort : ∀ vkey, (sort vkey).Perm vkey)
    (hs : Sound s rs H F) (hcounted : Counted s) :
    ∃ es vkey, Enumerates s es ∧ (∃ t, getKeys s = some (vkey, t)) ∧
      es.map Record.key = (if vkey.length > 1 then sort vkey else vkey) ∧
      ∀ (σ : Type) (add : Bytes → Bytes → σ → σ) (a : σ),
        ∃ t, callForAllEntrySorted add sort s a = some (es.foldl (give add) a, t) := by
  obtain ⟨cs, hcs, ⟨t, hkeys, -⟩, t₁, hkeys₁, hgood, hcdb⟩ := keys_collected hs
  obtain ⟨es, henum, hvkey, -⟩ :=
    hcs.rearrange (perm_sorted hsort ((cs.map Record.key).length > 1) (cs.map Record.key))
  refine ⟨es, cs.map Record.key, henum, ⟨t, hkeys⟩, hvkey, fun σ add a => ?_⟩
  rw [callForAllEntrySorted]
  split
  · obtain ⟨t₂, hvisit⟩ := visitKeys_collected hs.good hgood hcdb henum (fun r hr => hr) add a
    refine ⟨t₂.unlock, ?_⟩
    simp only [hkeys₁, Option.bind_eq_bind, Option.bind_some]
    rw [← hvkey, hvisit]
    rfl
  · next hzero =>
    have hlength := henum.counted_iff.mp hcounted
    obtain rfl := List.length_eq_zero_iff.mp (hlength.symm.trans (not_not.mp hzero))
    exact ⟨s, rfl⟩

theorem callForAllEntrySorted_enumerates_stored : ∃ r s es,
    step (newDatabase 4096) (.store [97] [1] .insert, granting) = some (r, s) ∧
      Enumerates s es ∧ ∃ t, callForAllEntrySorted (fun key data es => es ++ [⟨key, data⟩])
        List.reverse s [] = some (es, t) := by
  obtain ⟨r, s, hstep, hsized, -⟩ := stored_sized
  have hcounted := hsized.counted
  obtain ⟨rs, H, F, K, hs, -⟩ := hsized
  obtain ⟨es, vkey, henum, -, -, hvisit⟩ :=
    callForAllEntrySorted_enumerates (fun vkey => List.reverse_perm vkey) hs hcounted
  obtain ⟨t, ht⟩ := hvisit (List Record) (fun key data es => es ++ [⟨key, data⟩]) []
  rw [foldl_give fun key data => (⟨key, data⟩ : Record), List.map_id'] at ht
  exact ⟨r, s, es, hstep, henum, t, ht⟩

/-- `printSorted` prints the first `size` of the sorted pairs, and reads behind
the vector of the keys if `size` counts more than there are. -/
theorem printSorted_eq (hsort : ∀ vkey, (sort vkey).Perm vkey) (hs : Sound s rs H F)
    (hsize : s.cdb.stSize + s.off < 2 ^ 32) : ∃ es, Enumerates s es ∧
      ∀ (σ : Type) (add : Bytes → Bytes → σ → σ) (a : σ),
      (size s ≤ es.length →
        ∃ t, printSorted add sort s a = some ((es.take (size s)).foldl (give add) a, t)) ∧
      (es.length < size s → printSorted add sort s a = none) := by
  have hlow : sizeofCacheStruct ≤ s.off := hs.good.journal.low
  have hstruct : sizeofCacheStruct = 3092 := rfl
  obtain ⟨cs, hcs, ⟨t, hkeys, hgood, hcdb⟩, -⟩ := keys_collected hs
  obtain ⟨es, henum, hvkey, hlength⟩ :=
    hcs.rearrange (perm_sorted hsort (size s > 1) (cs.map Record.key))
  have hpos : (s.cdb.stSize + s.off) % 2 ^ 32 ≠ 0 := by omega
  refine ⟨es, henum, fun σ add a => ⟨fun hle => ?_, fun hlt => ?_⟩⟩
  · rw [printSorted]
    split
    · have htake : ∀ r ∈ es.take (size s), r ∈ es := fun r hr => List.mem_of_mem_take hr
      obtain ⟨t₂, hvisit⟩ := visitKeys_collected hs.good hgood hcdb henum htake add a
      refine ⟨t₂, ?_⟩
      simp only [hkeys, Option.bind_eq_bind, Option.bind_some]
      rw [← hvkey, List.length_map, if_pos hle, ← List.map_take, hvisit]
      rfl
    · next hzero =>
      have hnone : size s = 0 := not_not.mp fun hne => hzero ⟨hpos, hne⟩
      rw [hnone]
      exact ⟨s, rfl⟩
  · rw [printSorted, if_pos ⟨hpos, by omega⟩]
    simp only [hkeys, Option.bind_eq_bind, Option.bind_some]
    rw [← hvkey, List.length_map, if_neg (by omega)]

/-- `printSorted` prints every live pair once exactly if `size` is right. -/
theorem printSorted_iff (hsort : ∀ vkey, (sort vkey).Perm vkey) (hs : Sound s rs H F)
    (hsize : s.cdb.stSize + s.off < 2 ^ 32) :
    (∃ es t, Enumerates s es ∧
      printSorted (fun key data es => es ++ [⟨key, data⟩]) sort s [] = some (es, t)) ↔
        Counted s := by
  obtain ⟨es, henum, hprint⟩ := printSorted_eq hsort hs hsize
  obtain ⟨hshort, hlong⟩ := hprint (List Record) (fun key data es => es ++ [⟨key, data⟩]) []
  constructor
  · rintro ⟨es', t, henum', hes'⟩
    rcases le_or_gt (size s) es.length with hle | hlt
    · obtain ⟨t', ht'⟩ := hshort hle
      rw [foldl_give fun key data => (⟨key, data⟩ : Record), List.map_id'] at ht'
      obtain ⟨rfl, -⟩ := Prod.mk.inj (Option.some.inj (hes'.symm.trans ht'))
      rw [henum'.counted_iff, List.length_take, Nat.min_eq_left hle]
    · rw [hlong hlt] at hes'
      cases hes'
  · intro hcounted
    have hlength := henum.counted_iff.mp hcounted
    obtain ⟨t, ht⟩ := hshort hlength.le
    rw [foldl_give fun key data => (⟨key, data⟩ : Record), List.map_id', hlength,
      List.take_length] at ht
    exact ⟨es, t, henum, ht⟩

theorem printSorted_iff_stored : ∃ r s es t,
    step (newDatabase 4096) (.store [97] [1] .insert, granting) = some (r, s) ∧
      Enumerates s es ∧
      printSorted (fun key data es => es ++ [⟨key, data⟩]) List.reverse s [] = some (es, t) := by
  obtain ⟨r, s, hstep, hsized, hsize⟩ := stored_sized
  have hcounted := hsized.counted
  obtain ⟨rs, H, F, K, hs, -⟩ := hsized
  obtain ⟨es, t, henum, hprint⟩ :=
    (printSorted_iff (fun vkey => List.reverse_perm vkey) hs hsize).mpr hcounted
  exact ⟨r, s, es, t, hstep, henum, hprint⟩

end ULib.RdbEnumeration
