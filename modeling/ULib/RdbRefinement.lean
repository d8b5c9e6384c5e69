import ULib.RdbUpdates
import ULib.Runs

/-!
Runs of calls and the map they stand for. As long as no call of `substitute`
loses an entry, a database behaves like a map from keys to data.
-/

namespace ULib.RdbRefinement

open ByteMemory
open KeyComparison
open ConstantDatabase
open CdbLookup
open ReliableDatabase
open ReliableDatabase.URDB
open HeapTree
open JournalTree
open JournalForest
open JournalLog
open JournalEntry
open RdbCalls
open RdbUpdates
open Runs

inductive Call where
  | store (key data : Bytes) (flag : Flag)
  | remove (key : Bytes)
  | substitute (key newKey data : Bytes) (flag : Flag)
  | fetch (key : Bytes)
  deriving DecidableEq, Repr

inductive Reply where
  | code (result : Int)
  | value (data : Option Bytes)
  deriving DecidableEq, Repr

/-- A call, with the answers of the system during it. -/
def step (s : URDB) (c : Call × Env) : Option (Reply × URDB) :=
  match c.1 with
  | .store key data flag =>
      (storeKey s key data flag c.2).map fun (r, s) => (.code r, s)
  | .remove key => (removeKey s key c.2).map fun (r, s) => (.code r, s)
  | .substitute key newKey data flag =>
      (substituteKey s key newKey data flag c.2).map fun (r, s) => (.code r, s)
  | .fetch key =>
      (fetchKey s key).map fun (found, s) =>
        (.value (if found then some (s.data.bytes s.mem) else none), s)

/-! ### The map -/

/-- What a database stands for. -/
abbrev Contents := Bytes → Option Bytes

def assign (ignoreCase : Bool) (M : Contents) (key : Bytes) (v : Option Bytes) : Contents := fun k =>
  if canon ignoreCase k = canon ignoreCase key then v else M k

/-- The map after a call. -/
def next (ignoreCase : Bool) (M : Contents) (c : Call × Env) : Contents :=
  match c.1 with
  | .store key data flag =>
      if flag = .insert ∧ (M key).isSome = true then M else assign ignoreCase M key (some data)
  | .remove key => if M key = none then M else assign ignoreCase M key none
  | .substitute key newKey data flag =>
      if M key = none ∨ flag = .insert ∧ (M newKey).isSome = true then M
      else assign ignoreCase (assign ignoreCase M key none) newKey (some data)
  | .fetch _ => M

/-- The documented results of a call. -/
def Allowed (M : Contents) (c : Call × Env) (r : Reply) : Prop :=
  match c.1, r with
  | .store key _ flag, .code r =>
      r = if flag = .insert ∧ (M key).isSome = true then -1 else 0
  | .remove key, .code r => if M key = none then r = -1 ∨ r = -2 else r = 0
  | .substitute key newKey _ flag, .code r =>
      if M key = none then r = -1 ∨ r = -2
      else if flag = .insert ∧ (M newKey).isSome = true then r = -4
      else r = 0
  | .fetch key, .value v => v = M key
  | _, _ => False

/-- `fetch` of every key gives what the map holds. -/
def Shows (s : URDB) (M : Contents) : Prop := ∀ key, fetchValue s key = some (M key)

/-! ### The condition on a call -/

/-- The lookup of a key in the journal: whether it has a node, and the pointer
at which the lookup ends. -/
def probe (s : URDB) (key : Bytes) : Bool × Nat :=
  (htLookup { s with key := Datum.ofBytes key }.hashKey).elim (false, 0) fun (found, s) =>
    (found, s.pnode.2)

/-- `find(key)`, without a database in which it gets lost. -/
def value (s : URDB) (key : Bytes) : Option Bytes := (fetchValue s key).join

/-- The size of the journal that a call asks for before it logs `size` bytes,
with a node for `key`. -/
def needed (s : URDB) (key : Bytes) (size : Nat) : Nat :=
  s.off + (if (probe s key).1 then 0 else sizeofCacheNode) + size + 48

/-- The old key and the new key of `substitute` do not get in each other's
way: they differ, and a node for the old key gets its own pointer, into a
journal that has not moved. -/
def Separate (s : URDB) (env : Env) (key newKey data : Bytes) : Prop :=
  canon s.ignoreCase key ≠ canon s.ignoreCase newKey ∧
    ((probe s key).1 = false →
      ((probe s newKey).1 = false → (probe s key).2 ≠ (probe s newKey).2) ∧
      (grown env s.journal (needed s newKey
        (16 + key.length + newKey.length + data.length))).map = s.journal.map)

/-- The condition under which a call does what the map does. -/
def Fine (s : URDB) (c : Call × Env) : Prop :=
  match c.1 with
  | .store key data flag =>
      KeyOk s.ignoreCase key ∧ data.length < uNotFound ∧
        (¬(flag = .insert ∧ (value s key).isSome = true) →
          ¬(flag = .replace ∧ value s key = some data) →
          Granted c.2 s.journal (needed s key (8 + key.length + data.length)))
  | .remove key =>
      KeyOk s.ignoreCase key ∧ ((value s key).isSome = true →
        Granted c.2 s.journal (needed s key (8 + key.length)))
  | .substitute key newKey data flag =>
      KeyOk s.ignoreCase key ∧ KeyOk s.ignoreCase newKey ∧ ((value s key).isSome = true →
        ¬(flag = .insert ∧ (value s newKey).isSome = true) →
        Granted c.2 s.journal (needed s newKey
          (16 + key.length + newKey.length + data.length)) ∧ Separate s c.2 key newKey data)
  | .fetch _ => True

instance (s : URDB) (env : Env) (key newKey data : Bytes) :
    Decidable (Separate s env key newKey data) :=
  inferInstanceAs (Decidable (_ ∧ (_ → _ ∧ _)))

instance (s : URDB) : ∀ c, Decidable (Fine s c)
  | ⟨.store _ _ _, _⟩ => inferInstanceAs (Decidable (_ ∧ _ ∧ (_ → _ → _)))
  | ⟨.remove _, _⟩ => inferInstanceAs (Decidable (_ ∧ (_ → _)))
  | ⟨.substitute _ _ _ _, _⟩ => inferInstanceAs (Decidable (_ ∧ _ ∧ (_ → _ → _ ∧ _)))
  | ⟨.fetch _, _⟩ => inferInstanceAs (Decidable True)

/-! ### The simulation -/

variable {s : URDB} {rs : List Record} {H : Heap Entry} {F : Forest}

theorem probe_eq (hs : Good s rs H F) (key : Bytes) :
    probe s key = ((lookup s.ignoreCase F key).isSome, stopAddr s.ignoreCase F key) := by
  have hs' : Good { s with key := Datum.ofBytes key } rs H F := hs.congr rfl rfl
  rw [probe, htLookup_hashKey hs' key rfl]
  rfl

theorem value_eq (hs : Good s rs H F) (key : Bytes) :
    value s key = view s.ignoreCase rs F key := by
  rw [value, fetchValue_eq hs]
  rfl

theorem needed_eq (hs : Good s rs H F) (key : Bytes) (size : Nat) :
    needed s key size = s.off + nodeRoom s.ignoreCase F key + size + 48 := by
  rw [needed, probe_eq hs, nodeRoom]

/-- An entry in the trees is an assignment in the map. -/
theorem view_upsert {ignoreCase : Bool} (rs : List Record) {F : Forest}
    (hgood : ∀ i < cacheHashtabLen, ∀ e ∈ (F i).entries, GoodEntry ignoreCase i e.2)
    {key : Bytes} (hkey : KeyOk ignoreCase key) (n₀ : Nat) (v : Option Bytes) :
    view ignoreCase rs (upsert ignoreCase F key n₀ ⟨key, v⟩) =
      assign ignoreCase (view ignoreCase rs F) key v := by
  have hsame : canon ignoreCase key = canon ignoreCase (Entry.mk key v).key := rfl
  have hcomparable : Comparable ignoreCase (Entry.mk key v).key := hkey.2
  funext k
  unfold view assign
  by_cases h : canon ignoreCase k = canon ignoreCase key
  · rw [if_pos h, lookup_upsert_same F n₀ hcomparable hsame h]
  · rw [if_neg h, lookup_upsert_other hgood hcomparable hsame h]

theorem view_congr {ignoreCase : Bool} {k k' : Bytes}
    (h : canon ignoreCase k = canon ignoreCase k') (rs : List Record) (F : Forest) :
    view ignoreCase rs F k = view ignoreCase rs F k' := by
  rw [view, lookup_congr h, dataOf_congr h]
  rfl

theorem assign_view {ignoreCase : Bool} {rs : List Record} {F : Forest} {key : Bytes}
    {v : Option Bytes} (h : view ignoreCase rs F key = v) :
    assign ignoreCase (view ignoreCase rs F) key v = view ignoreCase rs F := by
  funext k
  unfold assign
  split
  · next hk => rw [view_congr hk, h]
  · rfl

/-- Two assignments to different keys, in either order. -/
theorem assign_comm {ignoreCase : Bool} {key newKey : Bytes}
    (h : canon ignoreCase key ≠ canon ignoreCase newKey) (M : Contents) (v w : Option Bytes) :
    assign ignoreCase (assign ignoreCase M newKey w) key v =
      assign ignoreCase (assign ignoreCase M key v) newKey w := by
  funext k
  unfold assign
  by_cases hk : canon ignoreCase k = canon ignoreCase key
  · rw [if_pos hk, if_neg (by rw [hk]; exact h), if_pos hk]
  · rw [if_neg hk, if_neg hk]

theorem view_substituted (hs : Good s rs H F) {key newKey data : Bytes}
    (hkey : KeyOk s.ignoreCase key) (hnew : KeyOk s.ignoreCase newKey)
    (hne : canon s.ignoreCase key ≠ canon s.ignoreCase newKey)
    (hc : ¬Collide s.ignoreCase F key newKey) (n₀ n₁ : Nat) :
    view s.ignoreCase rs (upsert s.ignoreCase
        (substituted s.ignoreCase F key newKey data n₀) key n₁ ⟨key, none⟩) =
      assign s.ignoreCase (assign s.ignoreCase (view s.ignoreCase rs F) key none) newKey
        (some data) := by
  have hgood := own_upsert hs.journal n₀ (hnew.good (some data)) rfl
  rw [substituted, if_neg hc, view_upsert rs (fun i hi x hx => (hgood i hi x hx).1) hkey,
    view_upsert rs hs.journal.good hnew, assign_comm hne]

/-- The objects that stand for a map. -/
def Stands (ignoreCase : Bool) (rs : List Record) (s : URDB) (M : Contents) : Prop :=
  s.ignoreCase = ignoreCase ∧ ∃ H F, Good s rs H F ∧ view ignoreCase rs F = M

theorem stands_of_reaches {s' : URDB} {F' : Forest} (h : Reaches s s' rs F') :
    Stands s.ignoreCase rs s' (view s.ignoreCase rs F') := by
  obtain ⟨H', hgood⟩ := h.good
  exact ⟨by rw [URDB.ignoreCase, h.cdb]; rfl, H', F', hgood, rfl⟩

/-- A call of `substitute` that is fine does not collide. -/
theorem Separate.not_collide (hs : Good s rs H F) {env : Env} {key newKey data : Bytes}
    (h : Separate s env key newKey data) : ¬Collide s.ignoreCase F key newKey := by
  rintro ⟨hnone, hnone', hstop⟩
  have hsep := h.2
  simp only [probe_eq hs, hnone, hnone', Option.isSome_none, forall_const] at hsep
  exact hsep.1 hstop

/-- Nor does it write through a pointer into a mapping that has moved. -/
theorem Separate.unmoved (hs : Good s rs H F) {env : Env} {key newKey data : Bytes}
    (h : Separate s env key newKey data) (hnone : lookup s.ignoreCase F key = none) :
    (grown env s.journal (s.off + nodeRoom s.ignoreCase F newKey +
      (16 + key.length + newKey.length + data.length) + 48)).map = s.journal.map := by
  have hsep := (h.2 (by rw [probe_eq hs, hnone]; rfl)).2
  rwa [needed_eq hs] at hsep

/-- One call does to the database what it does to the map. -/
theorem step_simulates (ignoreCase : Bool) (rs : List Record) (s : URDB) (M : Contents)
    (c : Call × Env) (hs : Stands ignoreCase rs s M) (hfine : Fine s c) :
    ∃ r s', step s c = some (r, s') ∧ Allowed M c r ∧
      Stands ignoreCase rs s' (next ignoreCase M c) := by
  obtain ⟨rfl, H, F, hgood, rfl⟩ := hs
  obtain ⟨call, env⟩ := c
  cases call with
  | fetch key =>
      obtain ⟨s', hcall, hsame, hdata⟩ := fetchKey_spec hgood key
      refine ⟨_, s', by simp only [step, hcall]; rfl, ?_,
        stands_of_reaches (.untouched hgood hsame)⟩
      simp only [Allowed]
      cases hv : view s.ignoreCase rs F key with
      | none => rfl
      | some d =>
          rw [← hdata d hv]
          rfl
  | store key data flag =>
      obtain ⟨hkey, hlen, hg⟩ := hfine
      simp only [value_eq hgood, needed_eq hgood] at hg
      obtain ⟨r, s', hcall, hcases⟩ := storeKey_spec hgood hkey hlen hg
      refine ⟨.code r, s', by simp only [step, hcall]; rfl, ?_⟩
      simp only [Allowed, next]
      rcases hcases with ⟨hins, hbound, rfl, hreach, -⟩ | ⟨hrep, heq, rfl, hreach, -⟩ |
        ⟨hnot, rfl, hreach, -⟩
      · rw [if_pos ⟨hins, hbound⟩, if_pos ⟨hins, hbound⟩]
        exact ⟨rfl, stands_of_reaches hreach⟩
      · have hnot : ¬(flag = .insert ∧ (view s.ignoreCase rs F key).isSome = true) := by
          rw [hrep]
          simp
        rw [if_neg hnot, if_neg hnot, assign_view heq]
        exact ⟨rfl, stands_of_reaches hreach⟩
      · rw [if_neg hnot, if_neg hnot, ← view_upsert rs hgood.journal.good hkey s.off]
        exact ⟨rfl, stands_of_reaches hreach⟩
  | remove key =>
      obtain ⟨hkey, hg⟩ := hfine
      simp only [value_eq hgood, needed_eq hgood] at hg
      obtain ⟨r, s', hcall, hcases⟩ := removeKey_spec hgood hkey hg
      refine ⟨.code r, s', by simp only [step, hcall]; rfl, ?_⟩
      simp only [Allowed, next]
      rcases hcases with ⟨hnone, hr, hreach, -⟩ | ⟨hbound, rfl, hreach, -⟩
      · rw [if_pos hnone, if_pos hnone]
        exact ⟨hr, stands_of_reaches hreach⟩
      · have hne := Option.isSome_iff_ne_none.mp hbound
        rw [if_neg hne, if_neg hne, ← view_upsert rs hgood.journal.good hkey s.off]
        exact ⟨rfl, stands_of_reaches hreach⟩
  | substitute key newKey data flag =>
      obtain ⟨hkey, hnew, hg⟩ := hfine
      simp only [value_eq hgood, needed_eq hgood] at hg
      obtain ⟨r, s', hcall, -, hcases⟩ := substituteKey_spec hgood hkey hnew
        fun hb hn => ⟨(hg hb hn).1, (hg hb hn).2.unmoved hgood⟩
      refine ⟨.code r, s', by simp only [step, hcall]; rfl, ?_⟩
      simp only [Allowed, next]
      rcases hcases with ⟨hnone, hr, hreach⟩ | ⟨hbound, hins, hnewb, rfl, hreach⟩ |
        ⟨hbound, hnot, rfl, n₁, hreach⟩
      · rw [if_pos hnone, if_pos (.inl hnone)]
        exact ⟨hr, stands_of_reaches hreach⟩
      · rw [if_neg (Option.isSome_iff_ne_none.mp hbound), if_pos ⟨hins, hnewb⟩,
          if_pos (.inr ⟨hins, hnewb⟩)]
        exact ⟨rfl, stands_of_reaches hreach⟩
      · have hne := Option.isSome_iff_ne_none.mp hbound
        obtain ⟨-, hsep⟩ := hg hbound hnot
        rw [if_neg hne, if_neg hnot, if_neg (not_or.mpr ⟨hne, hnot⟩),
          ← view_substituted hgood hkey hnew hsep.1 (hsep.not_collide hgood) s.off n₁]
        exact ⟨rfl, stands_of_reaches hreach⟩

/-- A run of calls from a good state follows the map as long as every call is
fine: every call has the result that its comment promises, and after it `fetch`
finds for every key what the map holds. -/
theorem calls_follow_map {rs : List Record} {H : Heap Entry} {F : Forest} {s : URDB}
    (hs : Good s rs H F) {M : Contents} (hM : Shows s M) (calls : List (Call × Env))
    (hfine : StepsMeet step Fine s calls) :
    Follows step Allowed (next s.ignoreCase) Shows s M calls := by
  have hI : Stands s.ignoreCase rs s M := by
    refine ⟨rfl, H, F, hs, ?_⟩
    funext key
    exact Option.some.inj ((fetchValue_eq hs key).symm.trans (hM key))
  refine follows_of_simulation ?_ (step_simulates s.ignoreCase rs) calls hI hfine
  rintro s' M' ⟨hic, H', F', hgood, rfl⟩ key
  rw [← hic]
  exact fetchValue_eq hgood key

/-! ### A small database -/

/-- A constant database that is not there. -/
def noCdb : UCDB := openFile false true (fun _ => 0) 0

def newCursor : Cursor where
  key := []
  khash := 0
  data := []
  hp := 0
  slot := 0
  hr := 0
  hpBuf := fun _ => 0
  slotBuf := fun _ => 0
  hrBuf := fun _ => 0
  loop := 0
  nslot := 0
  offset := 0

/-- A database that was just created, with a journal of `logSize` bytes. -/
def newDatabase (logSize : Nat) : URDB :=
  openJournal noCdb newCursor (fun _ => 0) 0 logSize false true 1

theorem newDatabase_good {logSize : Nat} (hlow : sizeofCacheStruct + sizeofCacheNode ≤ logSize)
    (hhigh : logSize < 2 ^ 32) :
    Good (newDatabase logSize) [] (fun _ => none) (fun _ => .leaf) := by
  have hstruct : sizeofCacheStruct = 3092 := rfl
  have hne : logSize ≠ 0 := by omega
  have hst : (newDatabase logSize).journal.stSize = logSize := by
    simp [newDatabase, openJournal, hne]
  exact openJournal_good (.inl ⟨rfl, rfl⟩) (hst.symm ▸ hlow) (hst.symm ▸ hhigh)

theorem newDatabase_shows {logSize : Nat} (hlow : sizeofCacheStruct + sizeofCacheNode ≤ logSize)
    (hhigh : logSize < 2 ^ 32) : Shows (newDatabase logSize) fun _ => none := by
  intro key
  rw [fetchValue_eq (newDatabase_good hlow hhigh)]
  rfl

/-- A system that grants everything, with no temporary file left over. -/
def granting : Env where
  mremap := some 1
  ftruncate := true
  creat := true
  extend := true
  memmap := true
  shrink := true
  rename := true
  leftover := fun _ => 0
  leftoverSize := 0

theorem calls_follow_map_small :
    Follows step Allowed (next false) Shows (newDatabase 4096) (fun _ => none)
      [(.store [97] [1] .insert, granting), (.store [98] [2] .replace, granting),
        (.substitute [97] [99] [3] .insert, granting), (.remove [98], granting),
        (.fetch [99], granting)] :=
  calls_follow_map (newDatabase_good (by decide) (by decide))
    (newDatabase_shows (by decide) (by decide)) _ (by decide)

/-- `substitute` of a key by itself loses it. -/
theorem substitute_itself_not_followed :
    ¬Follows step Allowed (next false) Shows (newDatabase 4096) (fun _ => none)
      [(.store [97] [1] .insert, granting),
        (.substitute [97] [97] [2] .replace, granting)] := by
  intro h
  obtain ⟨s', hrun, hshows⟩ := h.final
  have hlost : (run step (newDatabase 4096) [(.store [97] [1] .insert, granting),
      (.substitute [97] [97] [2] .replace, granting)]).map (fun s => fetchValue s [97]) =
      some (some none) := by
    decide
  rw [hrun, Option.map_some, Option.some.injEq, hshows [97]] at hlost
  exact absurd hlost (by decide)

end ULib.RdbRefinement
