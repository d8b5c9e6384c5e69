import ULib.RdbLocking

/-!
What a call does to a full journal that may not grow. `reorganize` empties the
journal, so the lookup with which `resizeJournal` sets the pointers again finds
no node; `htInsert` then takes the node 0 for the new one and writes over the
header.
-/

namespace ULib.RdbFallback

open ByteMemory
open KeyComparison
open ConstantDatabase
open ReliableDatabase
open ReliableDatabase.URDB
open HeapTree
open JournalTree
open JournalForest
open JournalLog
open JournalEntry
open RdbCalls
open RdbRefinement
open RdbRefusal
open RdbLocking

variable {s s' : URDB} {env : Env}

/-! ### The fall back -/

/-- The journal has no room for `size` bytes, and it may not grow. -/
def Full (s : URDB) (size : Nat) (env : Env) : Prop :=
  let sz := (s.off + size + sizeofCacheNode * 2) % 2 ^ 32
  s.journal.stSize < sz ∧
    (s.journal.ftruncate (s.journal.stSize + (if sz - s.journal.stSize < s.journal.stSize / 2 then
      s.journal.stSize / 2 else sz - s.journal.stSize)) env).1 = false

instance (s : URDB) (size : Nat) (env : Env) : Decidable (Full s size env) :=
  inferInstanceAs (Decidable (_ ∧ _))

/-- `reorganize` has entries to combine, and gets what it asks for. -/
def Combines (s : URDB) (env : Env) : Prop :=
  sizeofCacheStruct < s.off ∧ env.creat = true ∧ env.extend = true ∧ env.memmap = true ∧
    env.shrink = true ∧ env.rename = true

instance (s : URDB) (env : Env) : Decidable (Combines s env) :=
  inferInstanceAs (Decidable (_ ∧ _ ∧ _ ∧ _ ∧ _ ∧ _))

/-- The journal is empty, and the record of the run goes on. -/
structure Emptied (s t : URDB) : Prop where
  trace : s.trace <+: t.trace
  off : t.off = sizeofCacheStruct
  slots : ∀ i < cacheHashtabLen, get t.mem (hashtab i) = 0

theorem reorganize_combines (hcombines : Combines s env) {result : Bool}
    (h : reorganize s env = some (result, s')) : result = true ∧ Emptied s s' := by
  obtain ⟨hoff, hcreat, hextend, hmap, hshrink, hrename⟩ := hcombines
  have hoff' : s.lock.off > sizeofCacheStruct := hoff
  simp only [reorganize, hoff', if_true, hcreat, hextend, hmap, hshrink, hrename, Bool.and_self,
    Bool.true_eq_false, if_false, Option.bind_eq_bind] at h
  obtain ⟨⟨t, c⟩, hadd, h⟩ := Option.bind_eq_some_iff.mp h
  obtain ⟨⟨pos, c'⟩, -, h⟩ := Option.bind_eq_some_iff.mp h
  obtain ⟨rfl, rfl⟩ := Prod.mk.inj (Option.some.inj h)
  obtain ⟨hroff, -, hrslots⟩ := reset_header t
  exact ⟨rfl, (makeAdd_kept hadd).trace, hroff, hrslots⟩

/-- Without trees there is no node to be found. -/
theorem htLookup_empty {found : Bool} (h : htLookup s = some (found, s'))
    (hslots : ∀ i < cacheHashtabLen, get s.mem (hashtab i) = 0) :
    found = false ∧ s'.node = 0 ∧ s'.mem = s.mem := by
  have hslot := hslots (s.khash % cacheHashtabLen) (Nat.mod_lt _ (by decide))
  obtain ⟨r, hwalk, hr⟩ := Option.map_eq_some_iff.mp h
  obtain ⟨rfl, rfl⟩ := Prod.mk.inj hr
  cases hfuel : s.journal.stSize with
  | zero =>
      rw [hfuel] at hwalk
      cases hwalk
  | succ fuel =>
      rw [hfuel, htWalk, if_pos hslot] at hwalk
      obtain rfl := Option.some.inj hwalk
      exact ⟨rfl, rfl, rfl⟩

theorem resizeJournal_fallsBack {oversize : Nat} (hrefused : (s.journal.ftruncate
      (s.journal.stSize + (if oversize < s.journal.stSize / 2 then s.journal.stSize / 2
        else oversize)) env).1 = false) (hcombines : Combines s env) {result : Bool}
    (h : resizeJournal s oversize env = some (result, s')) :
    result = true ∧ Emptied s s' ∧ s'.node = 0 := by
  simp only [resizeJournal] at h
  split at h
  · next j hj =>
    rw [hj] at hrefused
    cases hrefused
  · next j hj =>
    obtain ⟨⟨result₁, t⟩, hreorg, h⟩ := Option.bind_eq_some_iff.mp h
    have hcombines' : Combines { s with journal := j, key1 := s.key } env := by
      simpa only [Combines, URDB.off, URDB.mem, (ftruncate_refused hj).1] using hcombines
    obtain ⟨rfl, hempty⟩ := reorganize_combines hcombines' hreorg
    obtain ⟨⟨found, t'⟩, hlook, h⟩ := Option.bind_eq_some_iff.mp h
    obtain ⟨rfl, rfl⟩ := Prod.mk.inj (Option.some.inj h)
    have htrace := (htLookup_kept hlook).trace
    obtain ⟨-, hnode, hmem⟩ := htLookup_empty hlook hempty.slots
    have hmem' : t'.mem = t.mem := hmem
    exact ⟨rfl, ⟨hempty.trace.trans ((List.prefix_append _ _).trans htrace),
      by rw [URDB.off, hmem']; exact hempty.off, by rw [hmem']; exact hempty.slots⟩, hnode⟩

/-- What the loop of `writev` leaves as it is. -/
theorem writevLoop_frame (n i : Nat) (iov : List Bytes) (ptr : Nat) (s : URDB) :
    (writevLoop n i iov ptr s).1.node = s.node ∧ (writevLoop n i iov ptr s).1.trace = s.trace ∧
      ∀ a < ptr, (writevLoop n i iov ptr s).1.mem a = s.mem a := by
  induction iov generalizing i ptr s with
  | nil => exact ⟨rfl, rfl, fun _ _ => rfl⟩
  | cons block iov ih =>
      have hpoint : (pointTo n i ptr (s.setMem (write s.mem ptr block))).node = s.node ∧
          (pointTo n i ptr (s.setMem (write s.mem ptr block))).trace = s.trace ∧
          (pointTo n i ptr (s.setMem (write s.mem ptr block))).mem = write s.mem ptr block := by
        unfold pointTo
        repeat' split
        all_goals exact ⟨rfl, rfl, rfl⟩
      obtain ⟨hnode, htrace, hmem⟩ := ih (i + 1) (ptr + block.length)
        (pointTo n i ptr (s.setMem (write s.mem ptr block)))
      rw [writevLoop]
      refine ⟨hnode.trans hpoint.1, htrace.trans hpoint.2.1, fun a ha => ?_⟩
      rw [hmem a (by omega), hpoint.2.2]
      exact if_neg (by omega)

/-- The record was logged in an emptied journal, but the call has no node. -/
structure Restarted (op : LogOp) (s t : URDB) : Prop where
  trace : s.trace <+: t.trace
  node : t.node = 0
  slots : ∀ i < cacheHashtabLen, get t.mem (hashtab i) = 0
  key : op ≠ .substitute → t.key.dptr = .journal (sizeofCacheStruct + sizeofRecordHeader)

theorem restarted_appended {t : URDB} (hempty : Emptied s t) (hnode : t.node = 0) (op : LogOp) :
    Restarted op s (appended (logBlocks s op) t) := by
  obtain ⟨hnode', htrace, hmem⟩ :=
    writevLoop_frame (logBlocks s op).length 0 (logBlocks s op) t.off t
  refine ⟨?_, hnode'.trans hnode, fun i hi => ?_, fun hop => ?_⟩
  · have happended : (appended (logBlocks s op) t).trace = t.trace := htrace
    rw [happended]
    exact hempty.trace
  · have hstruct : sizeofCacheStruct = 16 + 4 * cacheHashtabLen := rfl
    have hoff := hempty.off
    rw [← hempty.slots i hi]
    refine (get_put_apart _ _ (by simp only [Apart, hashtab]; omega)).trans ?_
    exact Agree.get_eq fun a _ ha => hmem a (by unfold hashtab at ha; omega)
  · rw [← hempty.off]
    cases op with
    | remove => rfl
    | store => rfl
    | substitute => exact absurd rfl hop

theorem logJournal_fallsBack {op : LogOp} (hfull : Full s (logSize s op) env)
    (hcombines : Combines s env) {result : Bool} (h : logJournal s op env = some (result, s')) :
    result = true ∧ Restarted op s s' := by
  rw [logJournal_eq] at h
  obtain ⟨t, ht, rfl⟩ := writev_resized h
  rw [if_pos hfull.1] at ht
  obtain ⟨rfl, hempty, hnode⟩ := resizeJournal_fallsBack hfull.2 hcombines ht
  exact ⟨rfl, restarted_appended hempty hnode op⟩

/-! ### The header -/

/-- `htInsert` has written over the header: node 0 is not a node. -/
def Overwrites (s s' : URDB) : Prop := ∃ es, s'.trace = s.trace ++ es ∧ Event.insert 0 ∈ es

theorem Restarted.overwrites {op : LogOp} {t t' : URDB} (h : Restarted op s t)
    (hinsert : htInsert t = some t') (h' : t'.trace <+: s'.trace) : Overwrites s s' := by
  obtain ⟨es, hes⟩ := h.trace
  obtain ⟨es', hes'⟩ := h'
  refine ⟨es ++ .insert 0 :: es', ?_, by simp⟩
  rw [← hes', (htInsert_trace hinsert).2, h.node, ← hes]
  simp

theorem Completes.overwrites {op : LogOp} {t : URDB} (h : Completes env op t s')
    (hfull : Full t (logSize t op) env) (hcombines : Combines t env) : Overwrites t s' := by
  cases op with
  | store =>
      obtain ⟨exist, r, h⟩ := h
      obtain ⟨⟨logged, t₁⟩, hlog, h⟩ := Option.bind_eq_some_iff.mp h
      obtain ⟨rfl, hrestart⟩ := logJournal_fallsBack hfull hcombines hlog
      obtain ⟨t₂, hinsert, h⟩ := Option.bind_eq_some_iff.mp h
      obtain ⟨-, rfl⟩ := Prod.mk.inj (Option.some.inj h)
      refine hrestart.overwrites hinsert ?_
      cases exist <;> exact List.prefix_rfl
  | remove =>
      obtain ⟨r, h⟩ := h
      obtain ⟨⟨logged, t₁⟩, hlog, h⟩ := Option.bind_eq_some_iff.mp h
      obtain ⟨rfl, hrestart⟩ := logJournal_fallsBack hfull hcombines hlog
      obtain ⟨t₂, hinsert, h⟩ := Option.bind_eq_some_iff.mp h
      obtain ⟨-, rfl⟩ := Prod.mk.inj (Option.some.inj h)
      have hrestart' : Restarted .remove t { t₁ with data := ⟨.null, uNotFound⟩ } :=
        ⟨hrestart.trace, hrestart.node, hrestart.slots, hrestart.key⟩
      exact hrestart'.overwrites hinsert List.prefix_rfl
  | substitute =>
      obtain ⟨node1, pnode1, r, h⟩ := h
      obtain ⟨⟨logged, t₁⟩, hlog, h⟩ := Option.bind_eq_some_iff.mp h
      obtain ⟨rfl, hrestart⟩ := logJournal_fallsBack hfull hcombines hlog
      obtain ⟨t₂, hinsert, h⟩ := Option.bind_eq_some_iff.mp h
      refine hrestart.overwrites hinsert ?_
      -- the old key gets its node marked as deleted
      have hlast : ∀ t₃ : URDB, t₂.trace <+: t₃.trace →
          ((htInsert t₃).bind fun s => some ((0 : Int), s.unlock)) = some (r, s') →
          t₂.trace <+: s'.trace := by
        intro t₃ ht₃ h
        obtain ⟨t₄, hinsert, h⟩ := Option.bind_eq_some_iff.mp h
        obtain ⟨-, rfl⟩ := Prod.mk.inj (Option.some.inj h)
        exact ht₃.trans (htInsert_kept hinsert).trace
      dsimp only at h
      split at h
      · obtain ⟨t₃, ht₃, h⟩ := Option.bind_eq_some_iff.mp h
        obtain rfl := Option.some.inj ht₃
        refine hlast _ ?_ h
        exact List.prefix_rfl
      · obtain ⟨t₃, halloc, h⟩ := Option.bind_eq_some_iff.mp h
        exact hlast t₃ (htAlloc_kept halloc).trace h

/-! ### The calls -/

theorem off_of_found {rs : List Record} {H : Heap Entry} {F : Forest} {key : Bytes}
    (hs : Good s rs H F) (hx : (lookup s.ignoreCase F key).isSome = true) :
    sizeofCacheStruct < s.off := by
  have h24 : sizeofCacheNode = 24 := rfl
  have hnode := nodeFor_bounds hs key
  rw [nodeRoom, if_pos hx] at hnode
  omega

/-- The call gets to a full journal, and falls back to `reorganize`. -/
def FallsBack (s : URDB) (c : Call × Env) : Prop :=
  ∃ op t, atJournal s c.1 = some (some (op, t)) ∧ Full t (logSize t op) c.2 ∧ Combines t c.2

theorem FallsBack.completes {c : Call × Env} {r : Reply} (hback : FallsBack s c)
    (h : step s c = some (r, s')) : ∃ op t, atJournal s c.1 = some (some (op, t)) ∧
      Kept s.lock t ∧ Completes c.2 op t s' ∧ Full t (logSize t op) c.2 ∧ Combines t c.2 := by
  obtain ⟨op, t, hat, hfull, hcombines⟩ := hback
  rcases step_way h with ⟨hnone, -⟩ | ⟨op', t', hat', hkept, hrest⟩
  · rw [hat] at hnone
    cases hnone
  · obtain ⟨rfl, rfl⟩ := Prod.mk.inj (Option.some.inj (Option.some.inj (hat.symm.trans hat')))
    exact ⟨op, t, hat, hkept, hrest, hfull, hcombines⟩

theorem step_overwrites {c : Call × Env} {r : Reply} (hback : FallsBack s c)
    (h : step s c = some (r, s')) : Overwrites s s' := by
  obtain ⟨op, t, -, hkept, hrest, hfull, hcombines⟩ := hback.completes h
  obtain ⟨es, hes, hmem⟩ := Completes.overwrites hrest hfull hcombines
  obtain ⟨es', hes'⟩ := hkept.trace
  have hlock : s.lock.trace = s.trace := rfl
  exact ⟨es' ++ es, by rw [hes, ← hes', hlock, List.append_assoc], by simp [hmem]⟩

/-- The call does what its comment says: its result and what `fetch` gives
for every key afterwards. -/
def Effective (s : URDB) (c : Call × Env) (r : Reply) (s' : URDB) : Prop :=
  Allowed (value s) c r ∧ Shows s' (next s.ignoreCase (value s) c)

/-- No entry is written into the header: what `htInsert` asserts. -/
def HeaderKept (s s' : URDB) : Prop :=
  ∀ n, Event.insert n ∈ s'.trace.drop s.trace.length → sizeofCacheStruct ≤ n

theorem Overwrites.not_headerKept (h : Overwrites s s') : ¬HeaderKept s s' := by
  obtain ⟨es, hes, hmem⟩ := h
  intro hkept
  have hlow := hkept 0 (by rwa [hes, List.drop_left])
  exact absurd hlow (by decide)

/-- A call that falls back to `reorganize` never does what it should. -/
theorem fallback_not_effective {s s' : URDB} {c : Call × Env} {r : Reply} (hback : FallsBack s c)
    (h : step s c = some (r, s')) : ¬(Effective s c r s' ∧ HeaderKept s s') :=
  fun hboth => (step_overwrites hback h).not_headerKept hboth.2

/-- A system that does not let the journal grow. -/
def stuck : Env := { granting with ftruncate := false }

/-- More than a new journal of 3200 bytes has room for. -/
def bigStore : Call × Env := (.store [97] (List.replicate 100 1) .insert, stuck)

theorem fallsBack_bigStore : FallsBack (newDatabase 3200) bigStore := by
  have heval : (atJournal (newDatabase 3200) bigStore.1).map (fun o => o.map fun r =>
      decide (Full r.2 (logSize r.2 r.1) stuck ∧ Combines r.2 stuck)) = some (some true) := by
    decide
  obtain ⟨o, hat, ho⟩ := Option.map_eq_some_iff.mp heval
  obtain ⟨⟨op, t⟩, rfl, hr⟩ := Option.map_eq_some_iff.mp ho
  exact ⟨op, t, hat, of_decide_eq_true hr⟩

theorem fallback_not_effective_bigStore : ∃ r s', step (newDatabase 3200) bigStore = some (r, s') ∧
    ¬(Effective (newDatabase 3200) bigStore r s' ∧ HeaderKept (newDatabase 3200) s') := by
  have hsome : (step (newDatabase 3200) bigStore).isSome = true := by
    decide +kernel
  obtain ⟨⟨r, s'⟩, hstep⟩ := Option.isSome_iff_exists.mp hsome
  exact ⟨r, s', hstep, fallback_not_effective fallsBack_bigStore hstep⟩

/-- The data that `store` has just written cannot be fetched, and the header
was written over. -/
theorem bigStore_lost : FallsBack (newDatabase 3200) bigStore ∧
    ∃ r s', step (newDatabase 3200) bigStore = some (r, s') ∧
      ¬Effective (newDatabase 3200) bigStore r s' ∧ ¬HeaderKept (newDatabase 3200) s' := by
  have heval : (step (newDatabase 3200) bigStore).map (fun r => (fetchValue r.2 [97], r.2.trace)) =
      some (some none, [.alloc 3092 3200, .reorganized true, .insert 0]) := by
    decide +kernel
  obtain ⟨⟨r, s'⟩, hstep, heq⟩ := Option.map_eq_some_iff.mp heval
  obtain ⟨hfetch, htrace⟩ := Prod.mk.inj heq
  refine ⟨fallsBack_bigStore, r, s', hstep, ?_, ?_⟩
  · rintro ⟨-, hshows⟩
    have hnext : next (newDatabase 3200).ignoreCase (value (newDatabase 3200)) bigStore [97] =
        some (List.replicate 100 1) := by
      decide
    have hvalue := hshows [97]
    rw [hnext] at hvalue
    exact absurd (hfetch.symm.trans hvalue) (by decide)
  · intro hkept
    have hnode := hkept 0 (by rw [show s'.trace = _ from htrace]; decide)
    exact absurd hnode (by decide)

end ULib.RdbFallback
