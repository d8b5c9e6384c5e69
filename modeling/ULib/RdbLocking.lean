import ULib.ProcessLock
import ULib.RdbRefusal
import Mathlib.Algebra.Ring.Int.Defs

/-!
The lock around the calls of the database, counted by `locked`. A wait for the
semaphore without timeout is taken to be granted, so a lock is one up and an
unlock is one down. `reorganize` returns from three places without an unlock;
nothing else is out of balance, whatever is in the journal.
-/

namespace ULib.RdbLocking

open ByteMemory
open KeyComparison
open ConstantDatabase
open ReliableDatabase
open ReliableDatabase.URDB
open JournalLog
open JournalVisit
open RdbRefinement
open RdbRefusal
open Runs

variable {s s' : URDB} {env : Env}

/-- The lock is as deep as before, and the record of the run goes on. -/
structure Kept (s s' : URDB) : Prop where
  locked : s'.locked = s.locked
  trace : s.trace <+: s'.trace

theorem Kept.refl (s : URDB) : Kept s s := ⟨rfl, List.prefix_rfl⟩

theorem Kept.trans {s s₁ s₂ : URDB} (h : Kept s s₁) (h' : Kept s₁ s₂) : Kept s s₂ :=
  ⟨h'.locked.trans h.locked, h.trace.trans h'.trace⟩

theorem htLookup_kept {found : Bool} (h : htLookup s = some (found, s')) : Kept s s' := by
  obtain ⟨r, -, hr⟩ := Option.map_eq_some_iff.mp h
  obtain ⟨-, rfl⟩ := Prod.mk.inj hr
  exact ⟨rfl, List.prefix_rfl⟩

theorem isDeleted_kept (s : URDB) : Kept s (isDeleted s).2 := by
  unfold isDeleted
  split
  · dsimp only
    split
    · exact ⟨rfl, List.prefix_rfl⟩
    · exact .refl s
  · exact .refl s

theorem cdbLookup_kept (s : URDB) : Kept s (cdbLookup s).2 := by
  unfold cdbLookup
  split
  · exact .refl s
  · exact ⟨rfl, List.prefix_rfl⟩

theorem putPnode_kept {v : Nat} (h : s.putPnode v = some s') : Kept s s' := by
  unfold putPnode at h
  split at h
  · obtain rfl := Option.some.inj h
    exact ⟨rfl, List.prefix_rfl⟩
  · cases h

theorem htAlloc_kept (h : htAlloc s = some s') : Kept s s' := by
  obtain ⟨t, ht, h⟩ := Option.bind_eq_some_iff.mp h
  obtain rfl := Option.some.inj h
  have hput := putPnode_kept ht
  exact ⟨hput.locked, (List.prefix_append _ _).trans hput.trace⟩

theorem htInsert_trace (h : htInsert s = some s') :
    s'.locked = s.locked ∧ s'.trace = s.trace ++ [.insert s.node] := by
  unfold htInsert at h
  split at h
  · obtain rfl := Option.some.inj h
    exact ⟨rfl, rfl⟩
  · obtain rfl := Option.some.inj h
    exact ⟨rfl, rfl⟩
  · cases h

theorem htInsert_kept (h : htInsert s = some s') : Kept s s' := by
  obtain ⟨hlocked, htrace⟩ := htInsert_trace h
  exact ⟨hlocked, htrace ▸ List.prefix_append _ _⟩

theorem rollback_locked {r : Int} (h : rollback s = some (r, s')) : s'.locked = s.locked - 1 := by
  obtain ⟨t, ht, h⟩ := Option.bind_eq_some_iff.mp h
  obtain ⟨-, rfl⟩ := Prod.mk.inj (Option.some.inj h)
  have hput := putPnode_kept ht
  exact congrArg (· - 1) hput.locked

/-! ### Where the lock is left taken -/

/-- `reorganize` gets its temporary file and then gives up, without unlocking. -/
def GivesUp (s : URDB) (env : Env) : Prop :=
  sizeofCacheStruct < s.off ∧ env.creat = true ∧ env.extend = true ∧
    ¬(env.memmap = true ∧ env.shrink = true ∧ env.rename = true)

instance (s : URDB) (env : Env) : Decidable (GivesUp s env) :=
  inferInstanceAs (Decidable (_ ∧ _ ∧ _ ∧ ¬(_ ∧ _ ∧ _)))

theorem makeAdd_kept {c : UCDB} {r : URDB × UCDB} (h : ReliableDatabase.makeAdd s c = some r) :
    Kept s r.1 := by
  simp only [ReliableDatabase.makeAdd, Option.bind_eq_bind] at h
  obtain ⟨⟨m, c₁⟩, -, h⟩ := Option.bind_eq_some_iff.mp h
  dsimp only at h
  have hstart : Kept s (s.setMem m) := ⟨rfl, List.prefix_rfl⟩
  split at h
  · refine foldlM_invariant (P := fun r : URDB × UCDB => Kept s r.1) ?_ hstart h
    rintro ⟨t, c₂⟩ e - ⟨t', c'⟩ ht hstep
    simp only [makeAdd2, Option.bind_eq_bind] at hstep
    obtain ⟨⟨found, t₁⟩, hlook, hstep⟩ := Option.bind_eq_some_iff.mp hstep
    obtain ⟨rfl, -⟩ := Prod.mk.inj (Option.some.inj hstep)
    have hkept := htLookup_kept hlook
    exact ht.trans ⟨hkept.locked, hkept.trace⟩
  · obtain rfl := Option.some.inj h
    exact hstart

theorem reorganize_locked {result : Bool} (h : reorganize s env = some (result, s')) :
    s'.locked = s.locked + if GivesUp s env then 1 else 0 := by
  have hoff : s.lock.off = s.off := rfl
  simp only [reorganize, hoff] at h
  split at h
  · next hbig =>
    split at h
    · next hcreat =>
      rw [Bool.and_eq_true] at hcreat
      split at h
      · next hmap =>
        obtain ⟨-, rfl⟩ := Prod.mk.inj (Option.some.inj h)
        rw [if_pos ⟨hbig, hcreat.1, hcreat.2, by simp [hmap]⟩]
        rfl
      · next hmap =>
        obtain ⟨⟨t, c⟩, hadd, h⟩ := Option.bind_eq_some_iff.mp h
        obtain ⟨⟨pos, c'⟩, -, h⟩ := Option.bind_eq_some_iff.mp h
        have ht : t.locked = s.locked + 1 := (makeAdd_kept hadd).locked
        dsimp only at h
        split at h
        · next hshrink =>
          obtain ⟨-, rfl⟩ := Prod.mk.inj (Option.some.inj h)
          rw [if_pos ⟨hbig, hcreat.1, hcreat.2, by simp [hshrink]⟩, ht]
        · next hshrink =>
          split at h
          · next hrename =>
            obtain ⟨-, rfl⟩ := Prod.mk.inj (Option.some.inj h)
            rw [if_pos ⟨hbig, hcreat.1, hcreat.2, by simp [hrename]⟩, ht]
          · next hrename =>
            obtain ⟨-, rfl⟩ := Prod.mk.inj (Option.some.inj h)
            rw [Bool.not_eq_false] at hmap hshrink hrename
            rw [if_neg fun hup => hup.2.2.2 ⟨hmap, hshrink, hrename⟩]
            show t.locked - 1 = s.locked + 0
            omega
    · next hcreat =>
      obtain ⟨-, rfl⟩ := Prod.mk.inj (Option.some.inj h)
      rw [if_neg fun hup => hcreat (by simp [hup.2.1, hup.2.2.1])]
      show s.locked + 1 - 1 = s.locked + 0
      omega
  · next hbig =>
    obtain ⟨-, rfl⟩ := Prod.mk.inj (Option.some.inj h)
    rw [if_neg fun hup => hbig hup.1]
    show s.locked + 1 - 1 = s.locked + 0
    omega

/-! ### Writing the journal -/

/-- The journal has no room for `size` bytes, it may not grow, and `reorganize`
gives up. -/
def Stranded (s : URDB) (size : Nat) (env : Env) : Prop :=
  let sz := (s.off + size + sizeofCacheNode * 2) % 2 ^ 32
  s.journal.stSize < sz ∧
    (s.journal.ftruncate (s.journal.stSize + (if sz - s.journal.stSize < s.journal.stSize / 2 then
      s.journal.stSize / 2 else sz - s.journal.stSize)) env).1 = false ∧ GivesUp s env

instance (s : URDB) (size : Nat) (env : Env) : Decidable (Stranded s size env) :=
  inferInstanceAs (Decidable (_ ∧ _ ∧ _))

theorem writevLoop_locked (n i : Nat) (iov : List Bytes) (ptr : Nat) (s : URDB) :
    (writevLoop n i iov ptr s).1.locked = s.locked := by
  induction iov generalizing i ptr s with
  | nil => rfl
  | cons block iov ih =>
      rw [writevLoop, ih, pointTo]
      repeat' split
      all_goals rfl

theorem resizeJournal_locked {oversize : Nat} {result : Bool}
    (h : resizeJournal s oversize env = some (result, s')) :
    s'.locked = s.locked + if (s.journal.ftruncate (s.journal.stSize +
      (if oversize < s.journal.stSize / 2 then s.journal.stSize / 2 else oversize)) env).1 = false ∧
        GivesUp s env then 1 else 0 := by
  simp only [resizeJournal] at h
  split at h
  · next j hj =>
    obtain ⟨-, rfl⟩ := Prod.mk.inj (Option.some.inj h)
    rw [hj, if_neg fun hup => Bool.noConfusion hup.1]
    exact (Int.add_zero _).symm
  · next j hj =>
    obtain ⟨⟨result₁, t⟩, hreorg, h⟩ := Option.bind_eq_some_iff.mp h
    have hlocked := reorganize_locked hreorg
    have hup : GivesUp { s with journal := j, key1 := s.key } env ↔ GivesUp s env := by
      simp only [GivesUp, URDB.off, URDB.mem, (ftruncate_refused hj).1]
    simp only [hup] at hlocked
    rw [hj]
    simp only [true_and]
    cases result₁ with
    | false =>
        obtain ⟨-, rfl⟩ := Prod.mk.inj (Option.some.inj h)
        exact hlocked
    | true =>
        obtain ⟨⟨found, t'⟩, hlook, h⟩ := Option.bind_eq_some_iff.mp h
        obtain ⟨-, rfl⟩ := Prod.mk.inj (Option.some.inj h)
        rw [(htLookup_kept hlook).locked]
        exact hlocked

/-- The object with the blocks behind the log of its journal. -/
def appended (iov : List Bytes) (s : URDB) : URDB :=
  (writevLoop iov.length 0 iov s.off s).1.setMem
    (put (writevLoop iov.length 0 iov s.off s).1.mem 0 (writevLoop iov.length 0 iov s.off s).2)

theorem writev_resized {iov : List Bytes} {size : Nat} {result : Bool}
    (h : writev s iov size env = some (result, s')) :
    ∃ t, (if (s.off + size + sizeofCacheNode * 2) % 2 ^ 32 > s.journal.stSize then
        resizeJournal s ((s.off + size + sizeofCacheNode * 2) % 2 ^ 32 - s.journal.stSize) env
      else some (true, s)) = some (result, t) ∧ s' = if result then appended iov t else t := by
  have hend : ∀ (result₁ : Bool) (t : URDB),
      (if result₁ then some (true, appended iov t) else some (false, t)) = some (result, s') →
      result₁ = result ∧ s' = if result then appended iov t else t := by
    rintro (_ | _) t h
    · obtain ⟨rfl, rfl⟩ := Prod.mk.inj (Option.some.inj h)
      exact ⟨rfl, rfl⟩
    · obtain ⟨rfl, rfl⟩ := Prod.mk.inj (Option.some.inj h)
      exact ⟨rfl, rfl⟩
  simp only [writev, Option.bind_eq_bind] at h
  split at h
  · next hover =>
    obtain ⟨⟨result₁, t⟩, hresize, h⟩ := Option.bind_eq_some_iff.mp h
    obtain ⟨rfl, hs'⟩ := hend result₁ t h
    exact ⟨t, by rw [if_pos hover, hresize], hs'⟩
  · next hover =>
    obtain ⟨rfl, hs'⟩ := hend true s h
    exact ⟨s, by rw [if_neg hover], hs'⟩

theorem writev_locked {iov : List Bytes} {size : Nat} {result : Bool}
    (h : writev s iov size env = some (result, s')) :
    s'.locked = s.locked + if Stranded s size env then 1 else 0 := by
  obtain ⟨t, ht, rfl⟩ := writev_resized h
  have hlocked : t.locked = s.locked + if Stranded s size env then 1 else 0 := by
    split at ht
    · next hover =>
      rw [resizeJournal_locked ht]
      unfold Stranded
      simp only [gt_iff_lt.mp hover, true_and]
    · next hover =>
      obtain ⟨-, rfl⟩ := Prod.mk.inj (Option.some.inj ht)
      rw [if_neg fun hs => hover hs.1]
      exact (Int.add_zero _).symm
  cases result with
  | false => exact hlocked
  | true => exact (writevLoop_locked _ _ _ _ _).trans hlocked

/-- Bytes that `logJournal` hands to `writev`. -/
def logSize (s : URDB) : LogOp → Nat
  | .remove => sizeofRecordHeader + s.key.dsize
  | .store => sizeofRecordHeader + s.key.dsize + s.data.dsize
  | .substitute => sizeofRecordHeader * 2 + s.key1.dsize + s.key.dsize + s.data.dsize

/-- The blocks that `logJournal` hands to `writev`. -/
def logBlocks (s : URDB) : LogOp → List Bytes
  | .remove => [recordHeader s.key.dsize uNotFound, s.key.bytes s.mem]
  | .store =>
      [recordHeader s.key.dsize s.data.dsize, s.key.bytes s.mem, s.data.bytes s.mem]
  | .substitute =>
      [recordHeader s.key1.dsize uNotFound, s.key1.bytes s.mem,
        recordHeader s.key.dsize s.data.dsize, s.key.bytes s.mem, s.data.bytes s.mem]

theorem logJournal_eq (s : URDB) (op : LogOp) (env : Env) :
    logJournal s op env = writev s (logBlocks s op) (logSize s op) env := by
  cases op <;> rfl

theorem logJournal_locked {op : LogOp} {result : Bool}
    (h : logJournal s op env = some (result, s')) :
    s'.locked = s.locked + if Stranded s (logSize s op) env then 1 else 0 := by
  rw [logJournal_eq] at h
  exact writev_locked h

theorem storeEntry_locked {exist : Bool} {r : Int} (h : storeEntry s exist env = some (r, s')) :
    s'.locked = s.locked - 1 + if Stranded s (logSize s .store) env then 1 else 0 := by
  obtain ⟨⟨logged, t⟩, hlog, h⟩ := Option.bind_eq_some_iff.mp h
  have hlocked := logJournal_locked hlog
  cases logged with
  | false =>
      rw [rollback_locked h]
      omega
  | true =>
      obtain ⟨t', hins, h⟩ := Option.bind_eq_some_iff.mp h
      obtain ⟨-, rfl⟩ := Prod.mk.inj (Option.some.inj h)
      have ht' := (htInsert_kept hins).locked
      cases exist with
      | false =>
          show t'.locked - 1 = _
          omega
      | true =>
          show t'.locked - 1 = _
          omega

theorem removeEntry_locked {r : Int} (h : removeEntry s env = some (r, s')) :
    s'.locked = s.locked - 1 + if Stranded s (logSize s .remove) env then 1 else 0 := by
  obtain ⟨⟨logged, t⟩, hlog, h⟩ := Option.bind_eq_some_iff.mp h
  have hlocked := logJournal_locked hlog
  cases logged with
  | false =>
      rw [rollback_locked h]
      omega
  | true =>
      obtain ⟨t', hins, h⟩ := Option.bind_eq_some_iff.mp h
      obtain ⟨-, rfl⟩ := Prod.mk.inj (Option.some.inj h)
      have ht' : t'.locked = t.locked := (htInsert_kept hins).locked
      show t'.locked - 1 = _
      omega

theorem substituteEntry_locked {data2 : Datum} {node1 : Nat} {pnode1 : Nat × Nat} {r : Int}
    (h : substituteEntry s data2 node1 pnode1 env = some (r, s')) :
    s'.locked = s.locked - 1 + if Stranded { s with data := data2 }
      (logSize { s with data := data2 } .substitute) env then 1 else 0 := by
  obtain ⟨⟨logged, t⟩, hlog, h⟩ := Option.bind_eq_some_iff.mp h
  have hlocked := logJournal_locked hlog
  have hs : ({ s with data := data2 } : URDB).locked = s.locked := rfl
  cases logged with
  | false =>
      rw [rollback_locked h]
      omega
  | true =>
      obtain ⟨t₁, hins, h⟩ := Option.bind_eq_some_iff.mp h
      have ht₁ : t₁.locked = t.locked := (htInsert_kept hins).locked
      have hlast : ∀ t₂ : URDB, t₂.locked = t₁.locked →
          ((htInsert t₂).bind fun s => some ((0 : Int), s.unlock)) = some (r, s') →
          s'.locked = t₁.locked - 1 := by
        intro t₂ ht₂ h
        obtain ⟨t₃, hins, h⟩ := Option.bind_eq_some_iff.mp h
        obtain ⟨-, rfl⟩ := Prod.mk.inj (Option.some.inj h)
        have ht₃ := (htInsert_kept hins).locked
        show t₃.locked - 1 = _
        omega
      have hfinal : s'.locked = t₁.locked - 1 := by
        dsimp only at h
        split at h
        · obtain ⟨t₂, ht₂, h⟩ := Option.bind_eq_some_iff.mp h
          obtain rfl := Option.some.inj ht₂
          refine hlast _ ?_ h
          rfl
        · obtain ⟨t₂, halloc, h⟩ := Option.bind_eq_some_iff.mp h
          have ht₂ := (htAlloc_kept halloc).locked
          exact hlast t₂ ht₂ h
      omega

/-! ### The way of a call to the journal -/

/-- The object with which a call gets to `logJournal`, if it gets there. -/
def atJournal (s : URDB) : Call → Option (Option (LogOp × URDB))
  | .store key data flag => do
      let s := ({ s with key := Datum.ofBytes key, data := Datum.ofBytes data } : URDB).hashKey.lock
      let (exist, s) ← htLookup s
      if exist then
        let (deleted, s) := if flag = .insert then isDeleted s else (true, s)
        if deleted = false then some none
        else if flag = .replace ∧ s.data.dsize = get s.mem (s.node + 12) ∧
            memcmp s.data.dsize (read s.mem (get s.mem (s.node + 8)) s.data.dsize)
              (s.data.bytes s.mem) = 0 then some none
        else some (some (.store, s))
      else
        let dataNew := s.data
        let (exist, s) := cdbLookup s
        if exist = true ∧ flag = .insert then some none
        else if exist = true ∧ flag = .replace ∧ s.data.dsize = dataNew.dsize ∧
            memcmp s.data.dsize (dataNew.bytes s.mem) (s.data.bytes s.mem) = 0 then some none
        else
          let s ← htAlloc s
          some (some (.store, { s with data := dataNew }))
  | .remove key => do
      let s := ({ s with key := Datum.ofBytes key } : URDB).hashKey.lock
      let (found, s) ← htLookup s
      if found then
        let (deleted, s) := isDeleted s
        some (if deleted then none else some (.remove, s))
      else
        let (exist, s) := cdbLookup s
        if exist then
          let s ← htAlloc s
          some (some (.remove, s))
        else some none
  | .substitute key newKey data flag => do
      let s := ({ s with key := Datum.ofBytes key, data := Datum.ofBytes data } : URDB).hashKey
      let s := { s with key1 := s.key }.lock
      let (found, s) ← htLookup s
      let (result, s) : Int × URDB :=
        if found then
          let (deleted, s) := isDeleted s
          (if deleted then -2 else 0, s)
        else
          let (exist, s) := cdbLookup s
          (if exist then 0 else -1, s)
      if result ≠ 0 then some none
      else
        let s := { s with key := Datum.ofBytes newKey }.hashKey
        let (found, s) ← htLookup s
        if found then
          let (deleted, s) := if flag = .insert then isDeleted s else (true, s)
          some (if deleted = false then none
            else some (.substitute, { s with data := Datum.ofBytes data }))
        else
          let (exist, s) := cdbLookup s
          if exist = true ∧ flag = .insert then some none
          else
            let s ← htAlloc s
            some (some (.substitute, { s with data := Datum.ofBytes data }))
  | .fetch _ => some none

/-- The call leaves the lock taken. -/
def CallStrands (s : URDB) (c : Call) (env : Env) : Prop :=
  ∃ op t, atJournal s c = some (some (op, t)) ∧ Stranded t (logSize t op) env

/-- How a call comes back: before it gets to the journal, or from there. -/
def Balance (s s' : URDB) (c : Call) (env : Env) : Prop :=
  (atJournal s c = some none ∧ s'.locked = s.locked) ∨
    ∃ op t, atJournal s c = some (some (op, t)) ∧
      s'.locked = s.locked + if Stranded t (logSize t op) env then 1 else 0

theorem Balance.iff {c : Call} (h : Balance s s' c env) :
    s'.locked = s.locked ↔ ¬CallStrands s c env := by
  rcases h with ⟨hat, hlocked⟩ | ⟨op, t, hat, hlocked⟩
  · refine iff_of_true hlocked ?_
    rintro ⟨op, t, hat', -⟩
    rw [hat] at hat'
    cases hat'
  · rw [hlocked]
    constructor
    · rintro heq ⟨op', t', hat', hstr⟩
      obtain ⟨rfl, rfl⟩ := Prod.mk.inj (Option.some.inj (Option.some.inj (hat.symm.trans hat')))
      rw [if_pos hstr] at heq
      omega
    · intro hnot
      rw [if_neg fun hstr => hnot ⟨op, t, hat, hstr⟩]
      exact Int.add_zero _

/-- The rest of a call, from `logJournal` on. -/
def Completes (env : Env) : LogOp → URDB → URDB → Prop
  | .store, t, s' => ∃ exist r, storeEntry t exist env = some (r, s')
  | .remove, t, s' => ∃ r, removeEntry t env = some (r, s')
  | .substitute, t, s' => ∃ node1 pnode1 r, substituteEntry t t.data node1 pnode1 env = some (r, s')

/-- A call comes back before it gets to the journal, or it goes on from there
with the object of `atJournal`. -/
def Way (s s' : URDB) (c : Call) (env : Env) : Prop :=
  (atJournal s c = some none ∧ s'.locked = s.locked) ∨
    ∃ op t, atJournal s c = some (some (op, t)) ∧ Kept s.lock t ∧ Completes env op t s'

theorem Kept.unlock {t : URDB} (h : Kept s.lock t) : t.unlock.locked = s.locked := by
  have hlocked : t.locked = s.locked + 1 := h.locked
  show t.locked - 1 = s.locked
  omega

theorem storeKey_way {key data : Bytes} {flag : Flag} {r : Int}
    (h : storeKey s key data flag env = some (r, s')) : Way s s' (.store key data flag) env := by
  simp only [storeKey, store, Option.bind_eq_bind] at h
  obtain ⟨⟨exist, t⟩, hlook, h⟩ := Option.bind_eq_some_iff.mp h
  have hlook' := htLookup_kept hlook
  have ht : Kept s.lock t := ⟨hlook'.locked, hlook'.trace⟩
  unfold Way
  simp only [atJournal, hlook, Option.bind_eq_bind, Option.bind_some]
  cases exist with
  | true =>
      simp only [if_true] at h ⊢
      have hp : Kept s.lock (if flag = .insert then isDeleted t else (true, t)).2 := by
        split
        · exact ht.trans (isDeleted_kept t)
        · exact ht
      generalize (if flag = .insert then isDeleted t else (true, t)) = p at h hp ⊢
      split at h
      · next hdel =>
        obtain ⟨-, rfl⟩ := Prod.mk.inj (Option.some.inj h)
        exact .inl ⟨by rw [if_pos hdel], hp.unlock⟩
      · next hdel =>
        rw [if_neg hdel]
        split at h
        · next hsame =>
          obtain ⟨-, rfl⟩ := Prod.mk.inj (Option.some.inj h)
          exact .inl ⟨by rw [if_pos hsame], hp.unlock⟩
        · next hsame => exact .inr ⟨.store, _, by rw [if_neg hsame], hp, _, _, h⟩
  | false =>
      simp only [Bool.false_eq_true, if_false] at h ⊢
      have hp := ht.trans (cdbLookup_kept t)
      generalize cdbLookup t = p at h hp ⊢
      split at h
      · next hins =>
        obtain ⟨-, rfl⟩ := Prod.mk.inj (Option.some.inj h)
        exact .inl ⟨by rw [if_pos hins], hp.unlock⟩
      · next hins =>
        rw [if_neg hins]
        split at h
        · next hsame =>
          obtain ⟨-, rfl⟩ := Prod.mk.inj (Option.some.inj h)
          exact .inl ⟨by rw [if_pos hsame], hp.unlock⟩
        · next hsame =>
          obtain ⟨t₁, halloc, h⟩ := Option.bind_eq_some_iff.mp h
          have ht₁ := hp.trans (htAlloc_kept halloc)
          exact .inr ⟨.store, { t₁ with data := t.data }, by rw [if_neg hsame, halloc]; rfl,
            ⟨ht₁.locked, ht₁.trace⟩, _, _, h⟩

theorem removeKey_way {key : Bytes} {r : Int} (h : removeKey s key env = some (r, s')) :
    Way s s' (.remove key) env := by
  simp only [removeKey, remove, Option.bind_eq_bind] at h
  obtain ⟨⟨found, t⟩, hlook, h⟩ := Option.bind_eq_some_iff.mp h
  have hlook' := htLookup_kept hlook
  have ht : Kept s.lock t := ⟨hlook'.locked, hlook'.trace⟩
  unfold Way
  simp only [atJournal, hlook, Option.bind_eq_bind, Option.bind_some]
  cases found with
  | true =>
      simp only [if_true] at h ⊢
      have hp := ht.trans (isDeleted_kept t)
      generalize isDeleted t = p at h hp ⊢
      split at h
      · next hdel =>
        obtain ⟨-, rfl⟩ := Prod.mk.inj (Option.some.inj h)
        exact .inl ⟨by rw [if_pos hdel], hp.unlock⟩
      · next hdel => exact .inr ⟨.remove, _, by rw [if_neg hdel], hp, _, h⟩
  | false =>
      simp only [Bool.false_eq_true, if_false] at h ⊢
      have hp := ht.trans (cdbLookup_kept t)
      generalize cdbLookup t = p at h hp ⊢
      split at h
      · next hexist =>
        obtain ⟨t₁, halloc, h⟩ := Option.bind_eq_some_iff.mp h
        exact .inr ⟨.remove, _, by rw [if_pos hexist, halloc]; rfl,
          hp.trans (htAlloc_kept halloc), _, h⟩
      · next hexist =>
        obtain ⟨-, rfl⟩ := Prod.mk.inj (Option.some.inj h)
        exact .inl ⟨by rw [if_neg hexist], hp.unlock⟩

theorem substituteKey_way {key newKey data : Bytes} {flag : Flag} {r : Int}
    (h : substituteKey s key newKey data flag env = some (r, s')) :
    Way s s' (.substitute key newKey data flag) env := by
  simp only [substituteKey, substitute, Option.bind_eq_bind] at h
  obtain ⟨⟨found, t⟩, hlook, h⟩ := Option.bind_eq_some_iff.mp h
  have hlook' := htLookup_kept hlook
  have ht : Kept s.lock t := ⟨hlook'.locked, hlook'.trace⟩
  unfold Way
  simp only [atJournal, hlook, Option.bind_eq_bind, Option.bind_some]
  have hp : Kept s.lock (if found = true then
      ((if (isDeleted t).1 = true then -2 else 0, (isDeleted t).2) : Int × URDB)
      else (if (cdbLookup t).1 = true then 0 else -1, (cdbLookup t).2)).2 := by
    split
    · exact ht.trans (isDeleted_kept t)
    · exact ht.trans (cdbLookup_kept t)
  generalize (if found = true then
    ((if (isDeleted t).1 = true then -2 else 0, (isDeleted t).2) : Int × URDB)
    else (if (cdbLookup t).1 = true then 0 else -1, (cdbLookup t).2)) = p at h hp ⊢
  split at h
  · next hresult =>
    obtain ⟨-, rfl⟩ := Prod.mk.inj (Option.some.inj h)
    exact .inl ⟨by rw [if_pos hresult], hp.unlock⟩
  · next hresult =>
    rw [if_neg hresult]
    -- the new key
    obtain ⟨⟨found₂, t₂⟩, hlook₂, h⟩ := Option.bind_eq_some_iff.mp h
    have hlook₂' := htLookup_kept hlook₂
    have ht₂ : Kept s.lock t₂ := hp.trans ⟨hlook₂'.locked, hlook₂'.trace⟩
    simp only [hlook₂, Option.bind_some]
    cases found₂ with
    | true =>
        simp only [if_true] at h ⊢
        have hq : Kept s.lock (if flag = .insert then isDeleted t₂ else (true, t₂)).2 := by
          split
          · exact ht₂.trans (isDeleted_kept t₂)
          · exact ht₂
        generalize (if flag = .insert then isDeleted t₂ else (true, t₂)) = q at h hq ⊢
        split at h
        · next hdel =>
          obtain ⟨-, rfl⟩ := Prod.mk.inj (Option.some.inj h)
          exact .inl ⟨by rw [if_pos hdel], hq.unlock⟩
        · next hdel =>
          exact .inr ⟨.substitute, { q.2 with data := Datum.ofBytes data }, by rw [if_neg hdel],
            ⟨hq.locked, hq.trace⟩, _, _, _, h⟩
    | false =>
        simp only [Bool.false_eq_true, if_false] at h ⊢
        have hq := ht₂.trans (cdbLookup_kept t₂)
        generalize cdbLookup t₂ = q at h hq ⊢
        split at h
        · next hins =>
          obtain ⟨-, rfl⟩ := Prod.mk.inj (Option.some.inj h)
          exact .inl ⟨by rw [if_pos hins], hq.unlock⟩
        · next hins =>
          obtain ⟨t₃, halloc, h⟩ := Option.bind_eq_some_iff.mp h
          have ht₃ := hq.trans (htAlloc_kept halloc)
          exact .inr ⟨.substitute, { t₃ with data := Datum.ofBytes data },
            by rw [if_neg hins, halloc]; rfl, ⟨ht₃.locked, ht₃.trace⟩, _, _, _, h⟩

theorem Completes.locked {op : LogOp} {t : URDB} (h : Completes env op t s') :
    s'.locked = t.locked - 1 + if Stranded t (logSize t op) env then 1 else 0 := by
  cases op with
  | store =>
      obtain ⟨exist, r, h⟩ := h
      exact storeEntry_locked h
  | remove =>
      obtain ⟨r, h⟩ := h
      exact removeEntry_locked h
  | substitute =>
      obtain ⟨node1, pnode1, r, h⟩ := h
      exact substituteEntry_locked h

theorem Way.balance {c : Call} (h : Way s s' c env) : Balance s s' c env := by
  rcases h with hdone | ⟨op, t, hat, hkept, hrest⟩
  · exact .inl hdone
  · have ht : t.locked = s.locked + 1 := hkept.locked
    refine .inr ⟨op, t, hat, ?_⟩
    rw [hrest.locked]
    omega

theorem fetchKey_locked {key : Bytes} {found : Bool} (h : fetchKey s key = some (found, s')) :
    s'.locked = s.locked := by
  simp only [fetchKey, fetch, Option.bind_eq_bind] at h
  obtain ⟨⟨found₁, t⟩, hlook, h⟩ := Option.bind_eq_some_iff.mp h
  have hlook' := htLookup_kept hlook
  have ht : Kept s.lock t := ⟨hlook'.locked, hlook'.trace⟩
  cases found₁ with
  | false =>
      obtain ⟨-, rfl⟩ := Prod.mk.inj (Option.some.inj h)
      exact (ht.trans (cdbLookup_kept t)).unlock
  | true =>
      have hdel := (ht.trans (isDeleted_kept t)).unlock
      simp only [Bool.true_eq_false, if_false] at h
      split at h
      · obtain ⟨-, rfl⟩ := Prod.mk.inj (Option.some.inj h)
        exact hdel
      · obtain ⟨-, rfl⟩ := Prod.mk.inj (Option.some.inj h)
        exact hdel

/-! ### The operations -/

inductive Op where
  | call (c : Call)
  | reorganize
  | beginTransaction
  | commitTransaction
  | abortTransaction
  deriving DecidableEq, Repr

/-- An operation, with the answers of the system during it. -/
def act (s : URDB) (o : Op × Env) : Option (Option Reply × URDB) :=
  match o.1 with
  | .call c => (step s (c, o.2)).map fun (r, s) => (some r, s)
  | .reorganize => (reorganize s o.2).map fun (_, s) => (none, s)
  | .beginTransaction => (beginTransaction s o.2).map fun (_, s) => (none, s)
  | .commitTransaction => some (none, commitTransaction s)
  | .abortTransaction => some (none, abortTransaction s)

/-- What an operation is to do to the depth of the locking. -/
def change : Op → Int
  | .beginTransaction => 1
  | .commitTransaction => -1
  | .abortTransaction => -1
  | _ => 0

/-- The operation gets to one of the returns without unlock. -/
def Strands (s : URDB) (o : Op × Env) : Prop :=
  match o.1 with
  | .call c => CallStrands s c o.2
  | .reorganize => GivesUp s o.2
  | .beginTransaction => GivesUp s o.2
  | _ => False

theorem step_way {c : Call} {r : Reply} (h : step s (c, env) = some (r, s')) :
    Way s s' c env := by
  cases c with
  | store key data flag =>
      obtain ⟨⟨r', t⟩, hcall, hr⟩ := Option.map_eq_some_iff.mp h
      obtain ⟨-, rfl⟩ := Prod.mk.inj hr
      exact storeKey_way hcall
  | remove key =>
      obtain ⟨⟨r', t⟩, hcall, hr⟩ := Option.map_eq_some_iff.mp h
      obtain ⟨-, rfl⟩ := Prod.mk.inj hr
      exact removeKey_way hcall
  | substitute key newKey data flag =>
      obtain ⟨⟨r', t⟩, hcall, hr⟩ := Option.map_eq_some_iff.mp h
      obtain ⟨-, rfl⟩ := Prod.mk.inj hr
      exact substituteKey_way hcall
  | fetch key =>
      obtain ⟨⟨r', t⟩, hcall, hr⟩ := Option.map_eq_some_iff.mp h
      obtain ⟨-, rfl⟩ := Prod.mk.inj hr
      exact .inl ⟨rfl, fetchKey_locked hcall⟩

theorem act_locked {o : Op × Env} {r : Option Reply} (h : act s o = some (r, s')) :
    s'.locked = s.locked + change o.1 ↔ ¬Strands s o := by
  obtain ⟨op, env⟩ := o
  cases op with
  | call c =>
      obtain ⟨⟨r', t⟩, hcall, hr⟩ := Option.map_eq_some_iff.mp h
      obtain ⟨-, rfl⟩ := Prod.mk.inj hr
      show t.locked = s.locked + 0 ↔ _
      rw [Int.add_zero]
      exact (step_way hcall).balance.iff
  | reorganize =>
      obtain ⟨⟨r', t⟩, hcall, hr⟩ := Option.map_eq_some_iff.mp h
      obtain ⟨-, rfl⟩ := Prod.mk.inj hr
      show t.locked = s.locked + 0 ↔ ¬GivesUp s env
      rw [reorganize_locked hcall]
      by_cases hup : GivesUp s env <;> simp [hup]
  | beginTransaction =>
      obtain ⟨⟨r', t⟩, hcall, hr⟩ := Option.map_eq_some_iff.mp h
      obtain ⟨-, rfl⟩ := Prod.mk.inj hr
      have hlocked : t.locked = s.locked + 1 + if GivesUp s env then 1 else 0 :=
        reorganize_locked hcall
      show t.locked = s.locked + 1 ↔ ¬GivesUp s env
      rw [hlocked]
      by_cases hup : GivesUp s env <;> simp [hup]
  | commitTransaction =>
      obtain ⟨-, rfl⟩ := Prod.mk.inj (Option.some.inj h)
      refine iff_of_true ?_ fun hfalse => hfalse
      show s.locked + 1 - 1 - 1 = s.locked + -1
      omega
  | abortTransaction =>
      obtain ⟨-, rfl⟩ := Prod.mk.inj (Option.some.inj h)
      refine iff_of_true ?_ fun hfalse => hfalse
      show s.locked - 1 = s.locked + -1
      omega

/-- An operation leaves the lock as deep as it is to leave it, exactly when it
does not get to a return without unlock; over a run in which none does, the
depth changes by what begins and ends of transactions make of it. -/
theorem lock_balanced_iff (s : URDB) :
    (∀ o r s', act s o = some (r, s') → (s'.locked = s.locked + change o.1 ↔ ¬Strands s o)) ∧
      ∀ ops s', StepsMeet act (fun s o => ¬Strands s o) s ops → run act s ops = some s' →
        s'.locked = s.locked + (ops.map fun o => change o.1).sum := by
  refine ⟨fun o r s' h => act_locked h, ?_⟩
  intro ops
  induction ops generalizing s with
  | nil =>
      rintro s' - hrun
      obtain rfl := Option.some.inj hrun
      exact (Int.add_zero _).symm
  | cons o ops ih =>
      rintro s' ⟨hok, hrest⟩ hrun
      obtain ⟨⟨r, t⟩, hstep, hrun⟩ := Option.bind_eq_some_iff.mp hrun
      have ht := (act_locked hstep).mpr hok
      rw [ih t s' (hrest r t hstep) hrun, ht, List.map_cons, List.sum_cons, Int.add_assoc]

theorem lock_balanced_transaction :
    ∃ s', run act (newDatabase 4096) [(.beginTransaction, granting),
      (.abortTransaction, granting)] =
      some s' ∧ s'.locked = 0 := by
  have hrun : (run act (newDatabase 4096)
      [(.beginTransaction, granting), (.abortTransaction, granting)]).isSome = true := by
    decide
  obtain ⟨s', hs'⟩ := Option.isSome_iff_exists.mp hrun
  have hup : ¬GivesUp (newDatabase 4096) granting := by decide
  have hmeet : StepsMeet act (fun s o => ¬Strands s o) (newDatabase 4096)
      [(.beginTransaction, granting), (.abortTransaction, granting)] :=
    ⟨hup, fun _ _ _ => ⟨fun hfalse => hfalse, fun _ _ _ => trivial⟩⟩
  exact ⟨s', hs', (lock_balanced_iff (newDatabase 4096)).2 _ s' hmeet hs'⟩

/-- A temporary file that cannot be mapped leaves the database locked. -/
theorem reorganize_left_locked :
    ∃ s r s', run act (newDatabase 4096) [(.call (.store [97] [1] .insert), granting)] = some s ∧
      act s (.reorganize, { granting with memmap := false }) = some (r, s') ∧
      s'.locked ≠ s.locked + change .reorganize := by
  have heval : (run act (newDatabase 4096)
      [(.call (.store [97] [1] .insert), granting)]).bind (fun s =>
        (act s (.reorganize, { granting with memmap := false })).map fun r =>
          (s.locked, r.2.locked)) = some (0, 1) := by
    decide
  obtain ⟨s, hs, h⟩ := Option.bind_eq_some_iff.mp heval
  obtain ⟨⟨r, s'⟩, hact, hlocked⟩ := Option.map_eq_some_iff.mp h
  obtain ⟨hs0, hs1⟩ := Prod.mk.inj hlocked
  refine ⟨s, r, s', hs, hact, ?_⟩
  rw [hs0, show s'.locked = 1 from hs1]
  decide

end ULib.RdbLocking
