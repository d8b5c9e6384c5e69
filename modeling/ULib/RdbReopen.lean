import ULib.RdbSession

/-!
A database that is closed and opened again. Of the journal `close` keeps what
is below `RDB_off`, and this is all that lookups read, so the map is the same.
When the last user closes it the file ends there, and has no room for a node.
-/

namespace ULib.RdbReopen

open ByteMemory
open KeyComparison
open ConstantDatabase
open CdbScan
open CdbRoundTrip
open ReliableDatabase
open ReliableDatabase.URDB
open HeapTree
open JournalTree
open JournalForest
open JournalLog
open JournalEntry
open RdbCalls
open RdbRefinement
open RdbSession
open Runs

variable {s : URDB} {rs : List Record} {H : Heap Entry} {F : Forest}

/-! ### Lookups and the size of the file -/

/-- The object with a journal file of another size. -/
def resized (s : URDB) (n : Nat) : URDB := { s with journal := { s.journal with stSize := n } }

theorem htLookup_resized {ignoreCase : Bool} {n : Nat} (hic : s.ignoreCase = ignoreCase)
    (h : JournalAt ignoreCase s.mem H F) (hsize : s.off ≤ s.journal.stSize) (hn : s.off ≤ n)
    (hhash : s.khash = cdbHash s.ignoreCase (s.key.bytes s.mem)) :
    ∃ found t, htLookup s = some (found, t) ∧
      htLookup (resized s n) = some (found, resized t n) := by
  subst hic
  exact ⟨_, _, htLookup_eq h hsize hhash, htLookup_eq (s := resized s n) h hn hhash⟩

theorem isDeleted_resized (s : URDB) (n : Nat) :
    isDeleted (resized s n) = ((isDeleted s).1, resized (isDeleted s).2 n) := by
  have hmem : (resized s n).mem = s.mem := rfl
  have hnode : (resized s n).node = s.node := rfl
  unfold isDeleted
  rw [hmem, hnode]
  split
  · refine congrArg (Prod.mk true) ?_
    dsimp only
    split <;> rfl
  · rfl

/-- `fetch` does not depend on the size of the file as long as the file has the
log. -/
theorem fetchValue_resized {n : Nat} (h : JournalAt s.ignoreCase s.mem H F)
    (hsize : s.off ≤ s.journal.stSize) (hn : s.off ≤ n) (key : Bytes) :
    fetchValue (resized s n) key = fetchValue s key := by
  obtain ⟨found, t, hlook, hlook'⟩ := htLookup_resized (n := n)
    (s := ({ s with key := Datum.ofBytes key } : URDB).hashKey.lock) rfl h hsize hn rfl
  simp only [fetchValue, fetchKey, fetch]
  rw [hlook, show ({ resized s n with key := Datum.ofBytes key } : URDB).hashKey.lock =
    resized ({ s with key := Datum.ofBytes key } : URDB).hashKey.lock n from rfl, hlook']
  simp only [Option.bind_eq_bind, Option.bind_some]
  cases found with
  | false =>
      simp only [if_true, cdbLookup]
      rw [show (resized t n).cdb = t.cdb from rfl]
      split <;> rfl
  | true =>
      simp only [Bool.true_eq_false, if_false, isDeleted_resized]
      split <;> rfl

/-! ### Closing and opening -/

/-- `close` and then `open`, with or without counting the users. -/
def reopen (s : URDB) (closing opening : Bool) (cur : Cursor) (logSize map : Nat) : URDB :=
  let jnl := closeJournal s closing
  openJournal (openFile s.ignoreCase true s.cdb.file s.cdb.stSize) cur jnl.1 jnl.2 logSize false
    opening map

/-- What is in the file after `close`: the log as it was, and the counters but
those that `close` sets. -/
theorem closeJournal_spec (hsize : s.off ≤ s.journal.stSize) (closing : Bool) :
    s.off ≤ (closeJournal s closing).2 ∧ (closeJournal s closing).2 ≤ s.journal.stSize ∧
      ∀ a, a < 4 ∨ 8 ≤ a ∧ a < 12 ∨ 16 ≤ a → (closeJournal s closing).1 a = s.mem a := by
  cases closing with
  | false => exact ⟨hsize, le_refl _, fun _ _ => rfl⟩
  | true =>
      have hframe : ∀ (v w a : Nat), a < 4 ∨ 8 ≤ a ∧ a < 12 ∨ 16 ≤ a →
          put (put s.mem 12 v) 4 w a = s.mem a := by
        intro v w a ha
        have h4 := put_agree (put s.mem 12 v) 4 w (b := a) (k := 1) (by unfold Apart; omega)
        have h12 := put_agree s.mem 12 v (b := a) (k := 1) (by unfold Apart; omega)
        exact (h4 a (le_refl a) (by omega)).trans (h12 a (le_refl a) (by omega))
      have hoff : ∀ v w, get (put (put s.mem 12 v) 4 w) 0 = s.off := fun v w =>
        Agree.get_eq fun a _ ha => hframe v w a (.inl ha)
      simp only [closeJournal, if_true, hoff]
      refine ⟨?_, ?_, fun a ha => hframe _ _ a ha⟩
      · split
        · exact le_refl _
        · exact hsize
      · split
        · exact hsize
        · exact le_refl _

/-- What `open` maps of a journal file that is not empty. -/
theorem openJournal_spec {c : UCDB} {cur : Cursor} {jnl : Mem} {n logSize map : Nat}
    {breference : Bool} (hn : sizeofCacheStruct ≤ n) (hoff : get jnl 0 ≠ 0) :
    (openJournal c cur jnl n logSize false breference map).journal.stSize = n ∧
      (openJournal c cur jnl n logSize false breference map).cdb = c ∧
      ∀ a < n, a < 12 ∨ 16 ≤ a →
        (openJournal c cur jnl n logSize false breference map).mem a = jnl a := by
  have hstruct : sizeofCacheStruct = 3092 := rfl
  have hne : n ≠ 0 := by omega
  have hfirst : get (fun x => if x < n then jnl x else 0) 0 = get jnl 0 :=
    Agree.get_eq fun a _ ha => if_pos (by omega)
  refine ⟨by simp [openJournal, hne], rfl, fun a ha hcell => ?_⟩
  simp only [openJournal, URDB.mem, Bool.false_eq_true, if_false, hfirst, hoff]
  cases breference with
  | false => exact if_pos ha
  | true =>
      have hput := put_agree (fun x => if x < n then jnl x else 0) 12
        (get (fun x => if x < n then jnl x else 0) 12 + 1) (b := a) (k := 1)
        (by unfold Apart; omega)
      exact (hput a (le_refl a) (by omega)).trans (if_pos ha)

/-- The journal that is opened again is the one that was closed. -/
theorem reopen_journal (hs : Good s rs H F) (closing opening : Bool) (cur : Cursor)
    (logSize map : Nat) :
    (reopen s closing opening cur logSize map).off = s.off ∧
      (reopen s closing opening cur logSize map).nrecord = s.nrecord ∧
      JournalAt s.ignoreCase (reopen s closing opening cur logSize map).mem H F ∧
      (reopen s closing opening cur logSize map).journal.stSize = (closeJournal s closing).2 := by
  have hlow : sizeofCacheStruct ≤ s.off := hs.journal.low
  have hstruct : sizeofCacheStruct = 3092 := rfl
  have hroom := hs.room
  obtain ⟨hkept, hsize, hclosed⟩ :=
    closeJournal_spec (show s.off ≤ s.journal.stSize by omega) closing
  generalize hjnl : closeJournal s closing = jnl at hkept hsize hclosed
  have hoff : get jnl.1 0 = s.off := Agree.get_eq fun a _ ha => hclosed a (.inl ha)
  obtain ⟨hst, -, hopened⟩ := @openJournal_spec
    (openFile s.ignoreCase true s.cdb.file s.cdb.stSize) cur jnl.1 jnl.2 logSize map opening
    (hlow.trans hkept) (show get jnl.1 0 ≠ 0 by omega)
  have hreopen : reopen s closing opening cur logSize map =
      openJournal (openFile s.ignoreCase true s.cdb.file s.cdb.stSize) cur jnl.1 jnl.2 logSize
        false opening map := by
    rw [← hjnl]
    rfl
  rw [← hreopen] at hst hopened
  generalize reopen s closing opening cur logSize map = s' at hst hopened
  have hmem : ∀ a < s.off, a < 4 ∨ 8 ≤ a ∧ a < 12 ∨ 16 ≤ a → s'.mem a = s.mem a := fun a ha hcell =>
    (hopened a (by omega) (by omega)).trans (hclosed a hcell)
  have hoff' : s'.off = s.off := Agree.get_eq fun a _ ha => hmem a (by omega) (.inl (by omega))
  have hn' : s'.nrecord = s.nrecord :=
    Agree.get_eq fun a ha ha' => hmem a (by omega) (.inr (.inl (by omega)))
  exact ⟨hoff', hn', hs.journal.frame (fun a ha hlt => hmem a hlt (.inr (.inr ha))) hoff'.symm.le,
    hst⟩

/-- What `open` finds of a constant database that `reorganize` or `close` has
left: its records, and their number if there are any. -/
theorem openFile_found (hcdb : CdbAt s.cdb rs) (hrs : rs ≠ [] ∨ s.cdb.stSize = 0) :
    ScanAt (openFile s.ignoreCase true s.cdb.file s.cdb.stSize) rs ∧
      (openFile s.ignoreCase true s.cdb.file s.cdb.stSize).nrecord = rs.length := by
  rcases hcdb with ⟨hzero, rfl⟩ | ⟨hne, -, himage⟩
  · refine ⟨.inr ⟨rfl, RdbReorganize.contents_nil hzero⟩, ?_⟩
    simp [openFile, hzero]
  · obtain ⟨hcount, hstart, -⟩ := recovered_openFile true himage (hrs.resolve_right hne)
    exact ⟨.inl hstart, hcount⟩

theorem openFile_cdbAt (hcdb : CdbAt s.cdb rs) :
    CdbAt (openFile s.ignoreCase true s.cdb.file s.cdb.stSize) rs :=
  hcdb.imp id fun h => ⟨h.1, rfl, h.2.2⟩

end ULib.RdbReopen
