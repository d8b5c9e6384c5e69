import ULib.RdbRefusal

/-!
What `size` counts. The counter in the journal follows the number of keys as
long as no deleted key is stored again and no key is substituted by one that
is there already.
-/

namespace ULib.RdbSize

open ByteMemory
open KeyComparison
open ConstantDatabase
open CdbImage
open CdbLookup
open CdbScan
open ReliableDatabase
open ReliableDatabase.URDB
open HeapTree
open JournalTree
open JournalForest
open JournalLog
open JournalEntry
open JournalVisit
open RdbCalls
open RdbUpdates
open RdbRefinement
open RdbRefusal
open Runs

/-! ### Counting the keys of a map -/

/-- `K` has the keys that are bound, one for all the spellings of a key. -/
def Live (ignoreCase : Bool) (M : Contents) (K : Finset Bytes) : Prop :=
  ∀ b, b ∈ K ↔ ∃ key, canon ignoreCase key = b ∧ (M key).isSome = true

/-- `size` is the number of keys for which `fetch` succeeds. -/
def Counted (s : URDB) : Prop :=
  ∃ K : Finset Bytes, (∀ b, b ∈ K ↔ ∃ key, canon s.ignoreCase key = b ∧
    ∃ d, fetchValue s key = some (some d)) ∧ size s = K.card

variable {ignoreCase : Bool} {rs : List Record} {F : Forest} {K : Finset Bytes}

theorem Live.mem_iff (h : Live ignoreCase (view ignoreCase rs F) K) (key : Bytes) :
    canon ignoreCase key ∈ K ↔ (view ignoreCase rs F key).isSome = true := by
  rw [h]
  constructor
  · rintro ⟨k, hk, hsome⟩
    rwa [← view_congr hk]
  · exact fun hsome => ⟨key, rfl, hsome⟩

theorem Live.assign_some {M : Contents} (h : Live ignoreCase M K) (key data : Bytes) :
    Live ignoreCase (assign ignoreCase M key (some data)) (insert (canon ignoreCase key) K) := by
  intro b
  rw [Finset.mem_insert, h b]
  constructor
  · rintro (rfl | ⟨k, rfl, hk⟩)
    · exact ⟨key, rfl, by simp [assign]⟩
    · refine ⟨k, rfl, ?_⟩
      unfold assign
      split
      · rfl
      · exact hk
  · rintro ⟨k, rfl, hk⟩
    unfold assign at hk
    split at hk
    · next heq => exact .inl heq
    · exact .inr ⟨k, rfl, hk⟩

theorem Live.assign_none {M : Contents} (h : Live ignoreCase M K) (key : Bytes) :
    Live ignoreCase (assign ignoreCase M key none) (K.erase (canon ignoreCase key)) := by
  intro b
  rw [Finset.mem_erase, h b]
  constructor
  · rintro ⟨hne, k, rfl, hk⟩
    refine ⟨k, rfl, ?_⟩
    rwa [assign, if_neg hne]
  · rintro ⟨k, rfl, hk⟩
    unfold assign at hk
    split at hk
    · cases hk
    · next hne => exact ⟨hne, k, rfl, hk⟩

/-! ### How many keys there can be -/

/-- Keys of a constant database that are not compared as equal. -/
def DistinctKeys (ignoreCase : Bool) (rs : List Record) : Prop :=
  (∀ r ∈ rs, Comparable ignoreCase r.key) ∧ (rs.map fun r => canon ignoreCase r.key).Nodup

theorem head_dataOf_isSome (hrs : ∀ r ∈ rs, Comparable ignoreCase r.key) (key : Bytes) :
    (dataOf ignoreCase rs key).head?.isSome = true ↔
      canon ignoreCase key ∈ rs.map fun r => canon ignoreCase r.key := by
  rw [List.isSome_head?, dataOf, ne_eq, List.map_eq_nil_iff, List.filter_eq_nil_iff, List.mem_map]
  push Not
  constructor
  · rintro ⟨r, hr, hsame⟩
    exact ⟨r, hr, ((sameKey_iff_right key (hrs r hr)).mp hsame).symm⟩
  · rintro ⟨r, hr, heq⟩
    exact ⟨r, hr, (sameKey_iff_right key (hrs r hr)).mpr heq.symm⟩

theorem length_forestEntries (F : Forest) : 32 * (forestEntries F).length ≤ charge F := by
  have htree : ∀ l : List (Nat × Entry), 32 * l.length ≤ (l.map fun x => cost x.2).sum := by
    intro l
    induction l with
    | nil => simp
    | cons x l ih =>
        have hx : 32 ≤ cost x.2 := by
          unfold cost
          omega
        simp only [List.length_cons, List.map_cons, List.sum_cons]
        omega
  have hsum : ∀ n, 32 * ((List.range n).flatMap fun i => (F i).entries).length ≤
      ∑ i ∈ Finset.range n, treeCost (F i) := by
    intro n
    induction n with
    | zero => simp
    | succ n ih =>
        rw [List.range_succ, List.flatMap_append, List.length_append, Finset.sum_range_succ]
        have hn : 32 * (F n).entries.length ≤ treeCost (F n) := htree _
        simp only [List.flatMap_singleton]
        omega
  exact hsum cacheHashtabLen

theorem mem_forestEntries {i : Nat} (hi : i < cacheHashtabLen) {e : Nat × Entry}
    (he : e ∈ (F i).entries) : e ∈ forestEntries F :=
  List.mem_flatMap.mpr ⟨i, List.mem_range.mpr hi, he⟩

theorem Live.card_le (h : Live ignoreCase (view ignoreCase rs F) K)
    (hrs : ∀ r ∈ rs, Comparable ignoreCase r.key)
    (hgood : ∀ i < cacheHashtabLen, ∀ e ∈ (F i).entries, GoodEntry ignoreCase i e.2) :
    K.card ≤ rs.length + (forestEntries F).length := by
  have hsub : K ⊆ ((rs.map fun r => canon ignoreCase r.key) ++
      (forestEntries F).map fun e => canon ignoreCase e.2.key).toFinset := by
    intro b hb
    obtain ⟨key, rfl, hsome⟩ := (h b).mp hb
    rw [List.mem_toFinset, List.mem_append]
    unfold view at hsome
    cases hx : lookup ignoreCase F key with
    | none =>
        rw [hx] at hsome
        exact .inl ((head_dataOf_isSome hrs key).mp hsome)
    | some x =>
        refine .inr (List.mem_map.mpr ⟨x, ?_, (canon_of_lookup hgood hx).symm⟩)
        exact mem_forestEntries (slotOf_lt ignoreCase key) (Tree.find_mem hx).1
  refine (Finset.card_le_card hsub).trans ((List.toFinset_card_le _).trans ?_)
  simp

variable {s : URDB} {H : Heap Entry}

theorem Live.card_lt (hs : Good s rs H F) (hrs : ∀ r ∈ rs, Comparable s.ignoreCase r.key)
    (h : Live s.ignoreCase (view s.ignoreCase rs F) K) : K.card < 2 ^ 32 := by
  have hcard := h.card_le hrs hs.journal.good
  have hentries := length_forestEntries F
  have hcharged := hs.charged
  have hoff : s.off < 2 ^ 32 := get_lt _ _
  have hlen : 16 * rs.length < 2 ^ 32 := by
    rcases hs.cdb with ⟨-, rfl⟩ | ⟨-, -, himage⟩
    · simp
    · have hsize := himage.size_eq
      have hfits := himage.fits
      have htotal := length_le_totalSize rs
      omega
  omega

/-! ### The counter -/

/-- The state in which `size` is right. -/
def Counting (c : UCDB) (rs : List Record) (s : URDB) : Prop :=
  ∃ H F K, Good s rs H F ∧ s.cdb = c ∧ Live s.ignoreCase (view s.ignoreCase rs F) K ∧
    size s = K.card

theorem Counting.counted {c : UCDB} (h : Counting c rs s) : Counted s := by
  obtain ⟨H, F, K, hgood, -, hlive, hsize⟩ := h
  refine ⟨K, fun b => ?_, hsize⟩
  rw [hlive b]
  simp only [fetchValue_eq hgood, Option.some.injEq, Option.isSome_iff_exists]

/-- From one state to the next, with the change of the counter. -/
theorem Counting.of_reaches {s s' : URDB} {F' : Forest} {K K' : Finset Bytes}
    (hrs : ∀ r ∈ rs, Comparable s.ignoreCase r.key)
    (h : Reaches s s' rs F') (hlive : Live s.ignoreCase (view s.ignoreCase rs F') K')
    (hsize : size s = K.card) {n : Nat} (hn : s'.nrecord = (s.nrecord + n) % 2 ^ 32)
    (hcard : (K.card + n) % 2 ^ 32 = K'.card % 2 ^ 32) : Counting s.cdb rs s' := by
  obtain ⟨H', hgood⟩ := h.good
  have hic : s'.ignoreCase = s.ignoreCase := by rw [URDB.ignoreCase, h.cdb]; rfl
  rw [← hic] at hlive hrs
  have hlt := hlive.card_lt hgood hrs
  refine ⟨H', F', K', hgood, h.cdb, hlive, ?_⟩
  unfold size at hsize ⊢
  rw [h.cdb, hn]
  omega

/-- A call that the counter is prepared for: no deleted key is stored again,
and no key is substituted by one that is there. -/
def Plain (s : URDB) : Call → Prop
  | .store key _ _ => ¬((probe s key).1 = true ∧ value s key = none)
  | .substitute key newKey _ flag =>
      ¬((value s key).isSome = true ∧ flag = .replace ∧ (value s newKey).isSome = true)
  | _ => True

instance (s : URDB) : ∀ c, Decidable (Plain s c)
  | .store _ _ _ => inferInstanceAs (Decidable (¬(_ ∧ _)))
  | .substitute _ _ _ _ => inferInstanceAs (Decidable (¬(_ ∧ _ ∧ _)))
  | .remove _ => inferInstanceAs (Decidable True)
  | .fetch _ => inferInstanceAs (Decidable True)

/-- The condition on a call under which `size` stays right. -/
def CountKept (s : URDB) (c : Call × Env) : Prop :=
  Fine s c ∧ Plain s c.1 ∨ Recovers s c

theorem nrecord_lt (s : URDB) : s.nrecord < 2 ^ 32 := get_lt _ _

section
variable (hgood : Good s rs H F) (hrs : ∀ r ∈ rs, Comparable s.ignoreCase r.key)
  (hlive : Live s.ignoreCase (view s.ignoreCase rs F) K) (hsize : size s = K.card) {env : Env}
include hrs hlive hsize

/-- A call that binds no other keys than before. -/
theorem same_counting {s' : URDB} (hreach : Reaches s s' rs F) (hn : s'.nrecord = s.nrecord) :
    Counting s.cdb rs s' := by
  have hlt := nrecord_lt s
  exact .of_reaches hrs hreach hlive hsize (n := 0) (by omega) rfl

include hgood

/-- A key that is not among the deleted ones is counted if it was not bound. -/
theorem store_counting {key data : Bytes} {flag : Flag}
    (hfine : Fine s (.store key data flag, env)) (hplain : Plain s (.store key data flag)) :
    ∃ r s', step s (.store key data flag, env) = some (r, s') ∧ Counting s.cdb rs s' := by
  obtain ⟨hkey, hlen, hg⟩ := hfine
  simp only [value_eq hgood, needed_eq hgood] at hg
  obtain ⟨r, s', hcall, hcases⟩ := storeKey_spec hgood hkey hlen hg
  refine ⟨.code r, s', by simp only [step, hcall]; rfl, ?_⟩
  rcases hcases with ⟨-, -, -, hreach, hn⟩ | ⟨-, -, -, hreach, hn⟩ | ⟨-, -, hreach, hn, -⟩
  · exact same_counting hrs hlive hsize hreach hn
  · exact same_counting hrs hlive hsize hreach hn
  · have hlt := nrecord_lt s
    have hlive' := hlive.assign_some key data
    rw [← view_upsert rs hgood.journal.good hkey s.off] at hlive'
    have hplain' : ¬((lookup s.ignoreCase F key).isSome = true ∧
        view s.ignoreCase rs F key = none) := by
      have hp : ¬((probe s key).1 = true ∧ value s key = none) := hplain
      rwa [probe_eq hgood, value_eq hgood] at hp
    have hmem := hlive.mem_iff key
    have hexist : ((lookup s.ignoreCase F key).isSome ||
        (dataOf s.ignoreCase rs key).head?.isSome) =
        (view s.ignoreCase rs F key).isSome := by
      unfold view at hplain' ⊢
      cases hx : lookup s.ignoreCase F key with
      | none => simp
      | some x =>
          cases hd : x.2.data with
          | none => simp [hx, hd] at hplain'
          | some d => simp [hd]
    rw [hexist] at hn
    by_cases hv : (view s.ignoreCase rs F key).isSome = true
    · rw [if_pos hv] at hn
      rw [Finset.insert_eq_self.mpr (hmem.mpr hv)] at hlive'
      exact .of_reaches hrs hreach hlive' hsize (n := 0) (by omega) rfl
    · rw [if_neg hv] at hn
      refine .of_reaches hrs hreach hlive' hsize (n := 1) hn ?_
      rw [Finset.card_insert_of_notMem fun hin => hv (hmem.mp hin)]

theorem remove_counting {key : Bytes} (hfine : Fine s (.remove key, env)) :
    ∃ r s', step s (.remove key, env) = some (r, s') ∧ Counting s.cdb rs s' := by
  obtain ⟨hkey, hg⟩ := hfine
  simp only [value_eq hgood, needed_eq hgood] at hg
  obtain ⟨r, s', hcall, hcases⟩ := removeKey_spec hgood hkey hg
  refine ⟨.code r, s', by simp only [step, hcall]; rfl, ?_⟩
  rcases hcases with ⟨-, -, hreach, hn⟩ | ⟨hv, -, hreach, hn⟩
  · exact same_counting hrs hlive hsize hreach hn
  · have hlive' := hlive.assign_none key
    rw [← view_upsert rs hgood.journal.good hkey s.off] at hlive'
    have hmem := (hlive.mem_iff key).mpr hv
    have hpos := Finset.card_pos.mpr ⟨_, hmem⟩
    refine .of_reaches hrs hreach hlive' hsize (n := 2 ^ 32 - 1) (by omega) ?_
    rw [Finset.card_erase_of_mem hmem]
    omega

/-- One key is bound for another one. -/
theorem substitute_counting {key newKey data : Bytes} {flag : Flag}
    (hfine : Fine s (.substitute key newKey data flag, env))
    (hplain : Plain s (.substitute key newKey data flag)) :
    ∃ r s', step s (.substitute key newKey data flag, env) = some (r, s') ∧
      Counting s.cdb rs s' := by
  obtain ⟨hkey, hnew, hg⟩ := hfine
  simp only [value_eq hgood, needed_eq hgood] at hg
  obtain ⟨r, s', hcall, hn, hcases⟩ := substituteKey_spec hgood hkey hnew
    fun hb hn => ⟨(hg hb hn).1, (hg hb hn).2.unmoved hgood⟩
  refine ⟨.code r, s', by simp only [step, hcall]; rfl, ?_⟩
  rcases hcases with ⟨-, -, hreach⟩ | ⟨-, -, -, -, hreach⟩ | ⟨hv, hnot, -, n₁, hreach⟩
  · exact same_counting hrs hlive hsize hreach hn
  · exact same_counting hrs hlive hsize hreach hn
  · have hlt := nrecord_lt s
    obtain ⟨-, hsep⟩ := hg hv hnot
    have hlive' := (hlive.assign_none key).assign_some newKey data
    rw [← view_substituted hgood hkey hnew hsep.1 (hsep.not_collide hgood) s.off n₁] at hlive'
    have hmem := (hlive.mem_iff key).mpr hv
    have hpos := Finset.card_pos.mpr ⟨_, hmem⟩
    have hnewv : ¬(view s.ignoreCase rs F newKey).isSome = true := by
      have hp : ¬((value s key).isSome = true ∧ flag = .replace ∧
        (value s newKey).isSome = true) := hplain
      rw [value_eq hgood, value_eq hgood] at hp
      intro hb
      cases flag with
      | insert => exact hnot ⟨rfl, hb⟩
      | replace => exact hp ⟨hv, rfl, hb⟩
    have hnotin : canon s.ignoreCase newKey ∉ K.erase (canon s.ignoreCase key) := fun hin =>
      hnewv ((hlive.mem_iff newKey).mp (Finset.mem_of_mem_erase hin))
    refine .of_reaches hrs hreach hlive' hsize (n := 0) (by omega) ?_
    rw [Finset.card_insert_of_notMem hnotin, Finset.card_erase_of_mem hmem]
    omega

end

theorem step_counting {c : UCDB} (hscan : ScanAt c rs)
    (hrs : ∀ r ∈ rs, Comparable c.ignoreCase r.key) (s : URDB) (call : Call × Env)
    (h : Counting c rs s) (hok : CountKept s call) :
    ∃ r s', step s call = some (r, s') ∧ Counting c rs s' := by
  obtain ⟨H, F, K, hgood, rfl, hlive, hsize⟩ := h
  rcases hok with ⟨hfine, hplain⟩ | hrec
  · obtain ⟨call, env⟩ := call
    cases call with
    | fetch key =>
        obtain ⟨s', hcall, huntouched, -⟩ := fetchKey_spec hgood key
        exact ⟨_, s', by simp only [step, hcall]; rfl,
          same_counting hrs hlive hsize (.untouched hgood huntouched) huntouched.nrecord⟩
    | store key data flag => exact store_counting hgood hrs hlive hsize hfine hplain
    | remove key => exact remove_counting hgood hrs hlive hsize hfine
    | substitute key newKey data flag =>
        exact substitute_counting hgood hrs hlive hsize hfine hplain
  · obtain ⟨s', hstep, hgood', hcdb, hn, -⟩ := step_recovers hgood hscan hrec
    have hic : s'.ignoreCase = s.ignoreCase := by rw [URDB.ignoreCase, hcdb]; rfl
    refine ⟨_, s', hstep, H, F, K, hgood', hcdb, by rw [hic]; exact hlive, ?_⟩
    rw [← hsize, size, size, hcdb, hn]

theorem openJournal_counting {c : UCDB} {rs : List Record} (hcdb : CdbAt c rs)
    (hn : c.nrecord = rs.length) (hkeys : DistinctKeys c.ignoreCase rs) {cur : Cursor} {jnl : Mem}
    {logSize : Nat} {btruncate breference : Bool} {map : Nat}
    (hroom : sizeofCacheStruct + sizeofCacheNode ≤
      (openJournal c cur jnl 0 logSize btruncate breference map).journal.stSize)
    (hsmall : (openJournal c cur jnl 0 logSize btruncate breference map).journal.stSize < 2 ^ 32) :
    Counting c rs (openJournal c cur jnl 0 logSize btruncate breference map) := by
  have hgood := openJournal_good hcdb hroom hsmall
  obtain ⟨m, hm, -, hnrecord, -⟩ := openJournal_new c cur jnl logSize btruncate breference map
  set s := openJournal c cur jnl 0 logSize btruncate breference map with hs
  have hic : s.ignoreCase = c.ignoreCase := rfl
  have hlive : Live s.ignoreCase (view s.ignoreCase rs fun _ => .leaf)
      (rs.map fun r => canon c.ignoreCase r.key).toFinset := by
    intro b
    rw [List.mem_toFinset, hic]
    constructor
    · intro hb
      obtain ⟨r, hr, rfl⟩ := List.mem_map.mp hb
      exact ⟨r.key, rfl, (head_dataOf_isSome hkeys.1 r.key).mpr hb⟩
    · rintro ⟨key, rfl, hsome⟩
      exact (head_dataOf_isSome hkeys.1 key).mp hsome
  have hcard : (rs.map fun r => canon c.ignoreCase r.key).toFinset.card = rs.length := by
    rw [List.toFinset_card_of_nodup hkeys.2, List.length_map]
  have hlt := hlive.card_lt hgood (by rw [hic]; exact hkeys.1)
  refine ⟨_, _, _, hgood, rfl, hlive, ?_⟩
  rw [hcard] at hlt ⊢
  rw [size, URDB.nrecord, hm, hnrecord, Nat.add_zero]
  exact (Nat.mod_eq_of_lt (by rw [← hn] at hlt; exact hlt)).trans hn

/-- `size` is the number of keys after every call of a run, if no call stores
a deleted key again, substitutes a key by one that is there, loses an entry or
is refused to the harm of the database. -/
theorem size_counts_keys {c : UCDB} {rs : List Record} (hcdb : CdbAt c rs) (hscan : ScanAt c rs)
    (hn : c.nrecord = rs.length) (hkeys : DistinctKeys c.ignoreCase rs) {cur : Cursor} {jnl : Mem}
    {logSize : Nat} {btruncate breference : Bool} {map : Nat}
    (hroom : sizeofCacheStruct + sizeofCacheNode ≤
      (openJournal c cur jnl 0 logSize btruncate breference map).journal.stSize)
    (hsmall : (openJournal c cur jnl 0 logSize btruncate breference map).journal.stSize < 2 ^ 32)
    (calls : List (Call × Env))
    (hkept : StepsMeet step CountKept
      (openJournal c cur jnl 0 logSize btruncate breference map) calls) :
    Always step Counted (openJournal c cur jnl 0 logSize btruncate breference map) calls :=
  always_of_invariant (fun _ h => h.counted) (step_counting hscan hkeys.1) calls
    (openJournal_counting hcdb hn hkeys hroom hsmall) hkept

theorem size_counts_keys_small :
    Always step Counted (newDatabase 4096)
      [(.store [97] [1] .insert, granting), (.store [98] [2] .replace, granting),
        (.substitute [97] [99] [3] .insert, granting), (.remove [98], granting)] := by
  have hkept : StepsMeet step (fun s c => Fine s c ∧ Plain s c.1) (newDatabase 4096)
      [(.store [97] [1] .insert, granting), (.store [98] [2] .replace, granting),
        (.substitute [97] [99] [3] .insert, granting), (.remove [98], granting)] := by
    decide
  exact size_counts_keys (.inl ⟨rfl, rfl⟩) (.inr ⟨rfl, by decide⟩) rfl
    ⟨by simp, by simp⟩ (by decide) (by decide) _ (hkept.mono fun _ _ h => .inl h)

/-- A key that is inserted, removed and inserted again is not counted. -/
theorem size_reinserted_not_counted :
    ¬Always step Counted (newDatabase 4096)
      [(.store [97] [1] .insert, granting), (.remove [97], granting),
        (.store [97] [2] .insert, granting)] := by
  intro h
  obtain ⟨s, hrun, K, hK, hsize⟩ := h.final
  have heval : (run step (newDatabase 4096) [(.store [97] [1] .insert, granting),
      (.remove [97], granting), (.store [97] [2] .insert, granting)]).map
      (fun s => (size s, fetchValue s [97])) = some (0, some (some [2])) := by
    decide
  rw [hrun, Option.map_some, Option.some.injEq, Prod.mk.injEq] at heval
  have hmem := (hK (canon s.ignoreCase [97])).mpr ⟨[97], rfl, [2], heval.2⟩
  rw [heval.1, eq_comm, Finset.card_eq_zero] at hsize
  rw [hsize] at hmem
  exact absurd hmem (Finset.notMem_empty _)

end ULib.RdbSize
