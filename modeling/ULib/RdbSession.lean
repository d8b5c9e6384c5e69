import ULib.RdbReorganize

/-!
A database over calls, `reorganize` and transactions. To its user it is two
maps: the current one, and the one that an abort goes back to, which is what
the constant database stands for on its own. Calls change the first one,
`reorganize` and the begin of a transaction take it over into the second, and
an abort takes the second for the first.
-/

namespace ULib.RdbSession

open ByteMemory
open KeyComparison
open ConstantDatabase
open CdbScan
open ReliableDatabase
open ReliableDatabase.URDB
open HeapTree
open JournalTree
open JournalForest
open JournalLog
open JournalEntry
open JournalVisit
open RdbCalls
open RdbUpdates
open RdbRefinement
open RdbRefusal
open RdbSize
open RdbLocking
open RdbFallback
open RdbReorganize
open Runs
open Overlay

/-! ### The two maps -/

structure Session where
  current : Contents
  saved : Contents

/-- The system grants all that `reorganize` asks for. -/
def Grants (env : Env) : Prop :=
  env.creat = true ∧ env.extend = true ∧ env.memmap = true ∧ env.shrink = true ∧ env.rename = true

instance (env : Env) : Decidable (Grants env) :=
  inferInstanceAs (Decidable (_ ∧ _ ∧ _ ∧ _ ∧ _))

/-- The constant database becomes what the current map is, if the system lets
it. -/
def Session.combine (σ : Session) (env : Env) : Session :=
  if Grants env then { σ with saved := σ.current } else σ

/-- The maps after an operation. A call that is refused does nothing. -/
def Session.next (ignoreCase : Bool) (σ : Session) (o : Op × Env) (r : Option Reply) : Session :=
  match o.1 with
  | .call c =>
      if r = some (.code (-3)) then σ
      else { σ with current := RdbRefinement.next ignoreCase σ.current (c, o.2) }
  | .reorganize => σ.combine o.2
  | .beginTransaction => σ.combine o.2
  | .commitTransaction => σ
  | .abortTransaction => { σ with current := σ.saved }

/-- A call replies what it is documented to, or that it was refused. -/
def Session.Replies (σ : Session) (o : Op × Env) (r : Option Reply) : Prop :=
  match o.1 with
  | .call c => ∃ r', r = some r' ∧ (r' = .code (-3) ∨ Allowed σ.current (c, o.2) r')
  | _ => r = none

/-- `fetch` gives the current map, and would give the saved one after an
abort. -/
def ShowsBoth (s : URDB) (σ : Session) : Prop :=
  Shows s σ.current ∧ Shows (abortTransaction s) σ.saved

/-! ### The condition on an operation -/

/-- The temporary file of `reorganize` is below 4 GB, its leftovers do not keep
`reorganize` from coming back, and if there is nothing to copy its header is
clear. -/
def Ready (s : URDB) (env : Env) : Prop :=
  s.off ≤ sizeofCacheStruct ∨
    s.cdb.stSize + s.journal.stSize + sizeFor 4096 < 2 ^ 32 ∧ (reorganize s env).isSome = true ∧
      ((∀ key, fetchValue s key = some none) →
        ∀ i < numHashTablePointer, get (temporaryFile s env).file (i * 8 + 4) = 0)

/-- The condition on an operation, for calls the condition `ok`. -/
def Orderly (ok : URDB → Call × Env → Prop) (s : URDB) (o : Op × Env) : Prop :=
  match o.1 with
  | .call c => ok s (c, o.2)
  | .reorganize => Ready s o.2
  | .beginTransaction => Ready s.lock o.2
  | _ => True

/-- A call is fine, or is refused and does no harm. -/
def FineOrRefused (s : URDB) (c : Call × Env) : Prop := Fine s c ∨ Recovers s c

/-! ### The state between two operations -/

variable {s s' : URDB} {rs : List Record} {H : Heap Entry} {F : Forest} {env : Env}

/-- A database whose constant database has every key once and is as `open` or
`reorganize` leave it. -/
structure Sound (s : URDB) (rs : List Record) (H : Heap Entry) (F : Forest) : Prop where
  good : Good s rs H F
  scan : ScanAt s.cdb rs
  distinct : DistinctKeys s.ignoreCase rs
  count : s.cdb.nrecord = rs.length

/-- The same constant database under another journal. -/
theorem Sound.congr (hs : Sound s rs H F) {H' : Heap Entry} {F' : Forest}
    (hgood : Good s' rs H' F') (hcdb : s'.cdb = s.cdb) : Sound s' rs H' F' := by
  have hic : s'.ignoreCase = s.ignoreCase := by rw [URDB.ignoreCase, hcdb]; rfl
  exact ⟨hgood, by rw [hcdb]; exact hs.scan, by rw [hic]; exact hs.distinct,
    by rw [hcdb]; exact hs.count⟩

/-- Only the constant database is left. -/
structure Bare (s : URDB) (rs : List Record) : Prop where
  sound : Sound s rs (fun _ => none) (fun _ => .leaf)
  nrecord : s.nrecord = 0

/-- An abort empties the journal and leaves the constant database. -/
theorem abortTransaction_bare (hs : Sound s rs H F) : Bare (abortTransaction s) rs := by
  have hlow : sizeofCacheStruct ≤ s.off := hs.good.journal.low
  have hroom := hs.good.room
  obtain ⟨hoff, hnrecord, hslots⟩ := reset_header s
  have hoff' : (abortTransaction s).off = sizeofCacheStruct := hoff
  have hcharge : charge (fun _ => .leaf) = 0 := Finset.sum_eq_zero fun i _ => rfl
  refine ⟨hs.congr ⟨journalAt_empty _ (le_of_eq hoff.symm) hslots, ?_, hs.good.small, hs.good.cdb,
    ?_⟩ rfl, hnrecord⟩
  · rw [hoff']
    show sizeofCacheStruct + sizeofCacheNode ≤ s.journal.stSize
    omega
  · rw [hoff', hcharge, Nat.zero_add]

/-- What the journal leaves to be seen has no key twice either. -/
theorem shown_nodup {ignoreCase : Bool} (h : DistinctKeys ignoreCase rs)
    (os : List (Nat × Entry)) :
    ((shown (layer ignoreCase) os rs).map (layer ignoreCase).key).Nodup := by
  have hsub : (shown (layer ignoreCase) os rs).Sublist rs := List.filter_sublist
  exact h.2.sublist (hsub.map _)

theorem rebuilt_bare (hs : Sound s rs H F) (h : Rebuilt s env (combined s.cdb F) s') :
    Bare s' (combined s.cdb F) := by
  have hperm := contents_perm hs.good.cdb hs.scan
  have hic : s'.ignoreCase = s.ignoreCase := h.ignoreCase
  refine ⟨⟨h.good hs.good, h.scan, ?_, h.count⟩, h.nrecord⟩
  rw [hic]
  exact distinct_combined hs.good.journal hperm hs.distinct.1 (shown_nodup hs.distinct _)

/-- The new constant database stands for the map as it was. -/
theorem view_rebuilt (hs : Sound s rs H F) (key : Bytes) :
    view s.ignoreCase (combined s.cdb F) (fun _ => .leaf) key = view s.ignoreCase rs F key :=
  view_combined hs.good.journal (contents_perm hs.good.cdb hs.scan) hs.distinct.1
    (shown_nodup hs.distinct _) key

/-! ### The operations other than calls -/

/-- `reorganize` that is not granted what it asks for changes nothing but the
lock. -/
theorem reorganize_stopped (hs : Sound s rs H F)
    (hfits : s.cdb.stSize + s.journal.stSize + sizeFor 4096 < 2 ^ 32) (hstop : ¬Grants env)
    {result : Bool} (h : reorganize s env = some (result, s')) :
    s'.journal = s.journal ∧ s'.cdb = s.cdb := by
  have hoff : s.lock.off = s.off := rfl
  simp only [reorganize, hoff] at h
  split at h
  · split at h
    · next hcreat =>
      rw [Bool.and_eq_true] at hcreat
      split at h
      · obtain ⟨-, rfl⟩ := Prod.mk.inj (Option.some.inj h)
        exact ⟨rfl, rfl⟩
      · next hmap =>
        obtain ⟨⟨t, c⟩, hadd, h⟩ := Option.bind_eq_some_iff.mp h
        obtain ⟨⟨pos, c'⟩, -, h⟩ := Option.bind_eq_some_iff.mp h
        obtain ⟨t₁, c₁, hadd₁, ht, -⟩ := makeAdd_adding hs.good hs.scan env hfits
        obtain ⟨rfl, rfl⟩ := Prod.mk.inj (Option.some.inj (hadd₁.symm.trans hadd))
        dsimp only at h
        split at h
        · obtain ⟨-, rfl⟩ := Prod.mk.inj (Option.some.inj h)
          exact ⟨ht.journal, ht.cdb⟩
        · next hshrink =>
          split at h
          · obtain ⟨-, rfl⟩ := Prod.mk.inj (Option.some.inj h)
            exact ⟨ht.journal, ht.cdb⟩
          · next hrename =>
            rw [Bool.not_eq_false] at hmap hshrink hrename
            exact absurd ⟨hcreat.1, hcreat.2, hmap, hshrink, hrename⟩ hstop
    · obtain ⟨-, rfl⟩ := Prod.mk.inj (Option.some.inj h)
      exact ⟨rfl, rfl⟩
  · obtain ⟨-, rfl⟩ := Prod.mk.inj (Option.some.inj h)
    exact ⟨rfl, rfl⟩

theorem reorganize_nothing (hoff : s.off ≤ sizeofCacheStruct) (env : Env) :
    reorganize s env = some (true, s.lock.unlock) := by
  have hnone : ¬s.lock.off > sizeofCacheStruct := not_lt.mpr hoff
  simp only [reorganize, if_neg hnone]

/-- What `reorganize` does to a sound database: it takes the current map over
into the constant database, or leaves both as they are. -/
theorem reorganize_outcome (hs : Sound s rs H F) (hready : Ready s env) :
    ∃ result s', reorganize s env = some (result, s') ∧
      (s'.journal = s.journal ∧ s'.cdb = s.cdb ∧ (Grants env → s.off ≤ sizeofCacheStruct) ∨
        Grants env ∧ Bare s' (combined s.cdb F) ∧ s'.ignoreCase = s.ignoreCase) := by
  rcases le_or_gt s.off sizeofCacheStruct with hoff | hoff
  · exact ⟨true, s.lock.unlock, reorganize_nothing hoff env, .inl ⟨rfl, rfl, fun _ => hoff⟩⟩
  · obtain ⟨hfits, hsome, hheader⟩ := hready.resolve_left (not_le.mpr hoff)
    obtain ⟨⟨result, s'⟩, h⟩ := Option.isSome_iff_exists.mp hsome
    refine ⟨result, s', h, ?_⟩
    by_cases hgrants : Grants env
    · obtain ⟨rfl, -⟩ := reorganize_combines ⟨hoff, hgrants⟩ h
      have hnone : combined s.cdb F = [] → ∀ key, fetchValue s key = some none := by
        intro hnil key
        rw [fetchValue_eq hs.good, ← view_rebuilt hs, hnil]
        rfl
      have hrebuilt := reorganize_rebuilt hs.good hs.scan hoff hfits (fun hnil =>
        hheader (hnone hnil)) h
      exact .inr ⟨hgrants, rebuilt_bare hs hrebuilt, hrebuilt.ignoreCase⟩
    · obtain ⟨hjournal, hcdb⟩ := reorganize_stopped hs hfits hgrants h
      exact .inl ⟨hjournal, hcdb, fun hgrants' => absurd hgrants' hgrants⟩

/-! ### The calls -/

/-- A call that is fine does not touch the constant database. -/
theorem fine_reaches (hs : Good s rs H F) (c : Call × Env) (hfine : Fine s c) :
    ∃ r s' F', step s c = some (r, s') ∧ Reaches s s' rs F' := by
  obtain ⟨call, env⟩ := c
  cases call with
  | fetch key =>
      obtain ⟨s', hcall, hsame, -⟩ := fetchKey_spec hs key
      exact ⟨_, s', F, by simp only [step, hcall]; rfl, .untouched hs hsame⟩
  | store key data flag =>
      obtain ⟨hkey, hlen, hg⟩ := hfine
      simp only [value_eq hs, needed_eq hs] at hg
      obtain ⟨r, s', hcall, hcases⟩ := storeKey_spec hs hkey hlen hg
      refine ⟨.code r, s', ?_⟩
      simp only [step, hcall, Option.map_some, true_and]
      rcases hcases with ⟨-, -, -, hreach, -⟩ | ⟨-, -, -, hreach, -⟩ | ⟨-, -, hreach, -⟩ <;>
        exact ⟨_, hreach⟩
  | remove key =>
      obtain ⟨hkey, hg⟩ := hfine
      simp only [value_eq hs, needed_eq hs] at hg
      obtain ⟨r, s', hcall, hcases⟩ := removeKey_spec hs hkey hg
      refine ⟨.code r, s', ?_⟩
      simp only [step, hcall, Option.map_some, true_and]
      rcases hcases with ⟨-, -, hreach, -⟩ | ⟨-, -, hreach, -⟩ <;> exact ⟨_, hreach⟩
  | substitute key newKey data flag =>
      obtain ⟨hkey, hnew, hg⟩ := hfine
      simp only [value_eq hs, needed_eq hs] at hg
      obtain ⟨r, s', hcall, -, hcases⟩ := substituteKey_spec hs hkey hnew
        fun hb hn => ⟨(hg hb hn).1, (hg hb hn).2.unmoved hs⟩
      refine ⟨.code r, s', ?_⟩
      simp only [step, hcall, Option.map_some, true_and]
      rcases hcases with ⟨-, -, hreach⟩ | ⟨-, -, -, -, hreach⟩ | ⟨-, -, -, n₁, hreach⟩ <;>
        exact ⟨_, hreach⟩

/-- A reply that is documented is not the one of a call that was refused. -/
theorem allowed_ne_refused {M : Contents} {c : Call × Env} {r : Reply} (h : Allowed M c r) :
    r ≠ .code (-3) := by
  rintro rfl
  obtain ⟨call, env⟩ := c
  cases call with
  | fetch key => exact h
  | store key data flag =>
      simp only [Allowed] at h
      split at h <;> omega
  | remove key =>
      simp only [Allowed] at h
      split at h <;> omega
  | substitute key newKey data flag =>
      simp only [Allowed] at h
      repeat' split at h
      all_goals omega

/-! ### The simulation -/

/-- The objects that stand for a session. -/
def Between (ignoreCase : Bool) (s : URDB) (σ : Session) : Prop :=
  s.ignoreCase = ignoreCase ∧ ∃ rs H F, Sound s rs H F ∧ view ignoreCase rs F = σ.current ∧
    view ignoreCase rs (fun _ => .leaf) = σ.saved

theorem Bare.between (h : Bare s rs) {M : Contents}
    (hM : view s.ignoreCase rs (fun _ => .leaf) = M) : Between s.ignoreCase s ⟨M, M⟩ :=
  ⟨rfl, rs, _, _, h.sound, hM, hM⟩

theorem Between.shows {ignoreCase : Bool} {σ : Session} (h : Between ignoreCase s σ) :
    ShowsBoth s σ := by
  obtain ⟨rfl, rs, H, F, hs, hcurrent, hsaved⟩ := h
  rw [ShowsBoth, ← hcurrent, ← hsaved]
  exact ⟨fun key => fetchValue_eq hs.good key,
    fun key => fetchValue_eq (abortTransaction_bare hs).sound.good key⟩

theorem Between.congr {ignoreCase : Bool} {σ : Session} (h : Between ignoreCase s σ)
    (hjournal : s'.journal = s.journal) (hcdb : s'.cdb = s.cdb) : Between ignoreCase s' σ := by
  obtain ⟨rfl, rs, H, F, hs, hcurrent, hsaved⟩ := h
  have hic : s'.ignoreCase = s.ignoreCase := by rw [URDB.ignoreCase, hcdb]; rfl
  exact ⟨hic, rs, H, F, hs.congr (hs.good.congr hjournal hcdb) hcdb, hcurrent, hsaved⟩

theorem lookup_of_off (hs : Good s rs H F) (hoff : s.off ≤ sizeofCacheStruct) (key : Bytes) :
    lookup s.ignoreCase F key = none := by
  rw [← Option.not_isSome_iff_eq_none]
  exact fun hx => absurd (off_of_found hs hx) (not_lt.mpr hoff)

/-- Both `reorganize` and the begin of a transaction combine the maps. -/
theorem reorganize_between {ignoreCase : Bool} {σ : Session} (h : Between ignoreCase s σ)
    (hready : Ready s env) : ∃ result s', reorganize s env = some (result, s') ∧
      Between ignoreCase s' (σ.combine env) := by
  have hboth := h
  obtain ⟨rfl, rs, H, F, hs, hcurrent, hsaved⟩ := h
  obtain ⟨result, s', hreorg, ⟨hjournal, hcdb, hempty⟩ | ⟨hgrants, hbare, hic⟩⟩ :=
    reorganize_outcome hs hready
  · refine ⟨result, s', hreorg, ?_⟩
    have hsame : σ.combine env = σ := by
      unfold Session.combine
      split
      · next hgrants =>
        refine congrArg (Session.mk σ.current) ?_
        rw [← hsaved, ← hcurrent]
        funext key
        rw [view, lookup_of_off hs.good (hempty hgrants)]
        rfl
      · rfl
    rw [hsame]
    exact hboth.congr hjournal hcdb
  · refine ⟨result, s', hreorg, ?_⟩
    rw [Session.combine, if_pos hgrants, ← hic]
    refine hbare.between ?_
    rw [hic, ← hcurrent]
    exact funext fun key => view_rebuilt hs key

theorem call_between {ignoreCase : Bool} {σ : Session} (h : Between ignoreCase s σ)
    {c : Call × Env} (hok : FineOrRefused s c) :
    ∃ r s', step s c = some (r, s') ∧ (r = .code (-3) ∧ Between ignoreCase s' σ ∨
      Allowed σ.current c r ∧
        Between ignoreCase s' { σ with current := next ignoreCase σ.current c }) := by
  obtain ⟨rfl, rs, H, F, hs, hcurrent, hsaved⟩ := h
  rcases hok with hfine | hrec
  · obtain ⟨r, s', hstep, hallowed, hic, H', F', hgood, hview⟩ :=
      step_simulates s.ignoreCase rs s σ.current c ⟨rfl, H, F, hs.good, hcurrent⟩ hfine
    obtain ⟨r₁, s₁, F₁, hstep₁, hreach⟩ := fine_reaches hs.good c hfine
    obtain ⟨rfl, rfl⟩ := Prod.mk.inj (Option.some.inj (hstep.symm.trans hstep₁))
    exact ⟨r, s', hstep, .inr ⟨hallowed, hic, rs, H', F', hs.congr hgood hreach.cdb, hview,
      hsaved⟩⟩
  · obtain ⟨s', hstep, hgood, hcdb, -⟩ := step_recovers hs.good hs.scan hrec
    have hic : s'.ignoreCase = s.ignoreCase := by rw [URDB.ignoreCase, hcdb]; rfl
    exact ⟨_, s', hstep, .inl ⟨rfl, hic, rs, H, F, hs.congr hgood hcdb, hcurrent, hsaved⟩⟩

/-- Below `RDB_sync` a commit changes nothing. -/
theorem commitTransaction_good (hs : Good s rs H F) : Good (commitTransaction s) rs H F := by
  have hmem : (commitTransaction s).mem = put s.mem 4 s.off := rfl
  have hoff : (commitTransaction s).off = s.off := by
    rw [URDB.off, hmem, get_put_apart _ _ (by unfold Apart; omega)]
    rfl
  refine ⟨?_, ?_, hs.small, hs.cdb, ?_⟩
  · refine hs.journal.frame (fun a ha _ => ?_) (le_of_eq hoff.symm)
    rw [hmem]
    exact put_agree s.mem 4 s.off (b := a) (k := 1) (by unfold Apart; omega) a (by omega) (by omega)
  · rw [hoff]
    exact hs.room
  · rw [hoff]
    exact hs.charged

/-- One operation does to the database what it does to the two maps. -/
theorem act_simulates (ignoreCase : Bool) (s : URDB) (σ : Session) (o : Op × Env)
    (h : Between ignoreCase s σ) (hok : Orderly FineOrRefused s o) :
    ∃ r s', act s o = some (r, s') ∧ σ.Replies o r ∧
      Between ignoreCase s' (σ.next ignoreCase o r) := by
  obtain ⟨op, env⟩ := o
  cases op with
  | call c =>
      obtain ⟨r, s', hstep, hcases⟩ := call_between h hok
      refine ⟨some r, s', by simp only [act, hstep]; rfl, ?_⟩
      simp only [Session.Replies, Session.next]
      rcases hcases with ⟨rfl, hbetween⟩ | ⟨hallowed, hbetween⟩
      · exact ⟨⟨_, rfl, .inl rfl⟩, by rwa [if_pos rfl]⟩
      · refine ⟨⟨r, rfl, .inr hallowed⟩, ?_⟩
        rwa [if_neg fun heq => allowed_ne_refused hallowed (Option.some.inj heq)]
  | reorganize =>
      obtain ⟨result, s', hreorg, hbetween⟩ := reorganize_between h hok
      exact ⟨none, s', by simp only [act, hreorg]; rfl, rfl, hbetween⟩
  | beginTransaction =>
      have hlock : Between ignoreCase s.lock σ := h.congr rfl rfl
      obtain ⟨result, s', hreorg, hbetween⟩ := reorganize_between hlock hok
      exact ⟨none, s', by simp only [act, beginTransaction, hreorg]; rfl, rfl, hbetween⟩
  | commitTransaction =>
      obtain ⟨hic, rs, H, F, hs, hcurrent, hsaved⟩ := h
      exact ⟨none, commitTransaction s, rfl, rfl, hic, rs, H, F,
        hs.congr (commitTransaction_good hs.good) rfl, hcurrent, hsaved⟩
  | abortTransaction =>
      obtain ⟨rfl, rs, H, F, hs, -, hsaved⟩ := h
      exact ⟨none, abortTransaction s, rfl, rfl, (abortTransaction_bare hs).between hsaved⟩

/-! ### A small database -/

/-- What is easily seen to be orderly: there is nothing to combine. -/
def Tidy (s : URDB) (o : Op × Env) : Prop :=
  match o.1 with
  | .call c => Fine s (c, o.2) ∧ Plain s c
  | .reorganize => s.off ≤ sizeofCacheStruct
  | .beginTransaction => s.off ≤ sizeofCacheStruct
  | _ => True

instance (s : URDB) : ∀ o, Decidable (Tidy s o)
  | ⟨.call _, _⟩ => inferInstanceAs (Decidable (_ ∧ _))
  | ⟨.reorganize, _⟩ => inferInstanceAs (Decidable (_ ≤ _))
  | ⟨.beginTransaction, _⟩ => inferInstanceAs (Decidable (_ ≤ _))
  | ⟨.commitTransaction, _⟩ => inferInstanceAs (Decidable True)
  | ⟨.abortTransaction, _⟩ => inferInstanceAs (Decidable True)

theorem Tidy.orderly {ok : URDB → Call × Env → Prop}
    (hok : ∀ s c, Fine s c → Plain s c.1 → ok s c) {o : Op × Env} (h : Tidy s o) :
    Orderly ok s o := by
  obtain ⟨op, env⟩ := o
  cases op with
  | call c => exact hok s (c, env) h.1 h.2
  | reorganize => exact .inl h
  | beginTransaction => exact .inl h
  | commitTransaction => trivial
  | abortTransaction => trivial

theorem newDatabase_bare : Bare (newDatabase 4096) [] := by
  obtain ⟨m, hm, -, hnrecord, -⟩ := openJournal_new noCdb newCursor (fun _ => 0) 4096 false true 1
  refine ⟨⟨newDatabase_good (by decide) (by decide), .inr ⟨rfl, by decide⟩, ⟨by simp, by simp⟩,
    rfl⟩, ?_⟩
  rw [URDB.nrecord, show (newDatabase 4096).mem = m from hm, hnrecord]

/-! ### Runs -/

/-- A sound database in which `size` is right. -/
def Sized (s : URDB) : Prop :=
  ∃ rs H F K, Sound s rs H F ∧ Live s.ignoreCase (view s.ignoreCase rs F) K ∧ size s = K.card

theorem Sized.counted (h : Sized s) : Counted s := by
  obtain ⟨rs, H, F, K, hs, hlive, hsize⟩ := h
  exact Counting.counted ⟨H, F, K, hs.good, rfl, hlive, hsize⟩

theorem Sized.congr (h : Sized s) (hjournal : s'.journal = s.journal) (hcdb : s'.cdb = s.cdb) :
    Sized s' := by
  obtain ⟨rs, H, F, K, hs, hlive, hsize⟩ := h
  have hic : s'.ignoreCase = s.ignoreCase := by rw [URDB.ignoreCase, hcdb]; rfl
  refine ⟨rs, H, F, K, hs.congr (hs.good.congr hjournal hcdb) hcdb, by rwa [hic], ?_⟩
  rw [← hsize, size, size, URDB.nrecord, URDB.mem, hjournal, hcdb]
  rfl

/-- Every record of a constant database on its own is counted. -/
theorem Bare.size_eq (h : Bare s rs) {K : Finset Bytes}
    (hlive : Live s.ignoreCase (view s.ignoreCase rs fun _ => .leaf) K) : size s = K.card := by
  obtain ⟨K', hlive', hcard⟩ := live_combined h.sound.distinct
  obtain rfl : K' = K := Finset.ext fun b => (hlive' b).trans (hlive b).symm
  have hlt := hlive.card_lt h.sound.good h.sound.distinct.1
  rw [size, h.nrecord, h.sound.count, hcard]
  exact Nat.mod_eq_of_lt hlt

theorem Bare.sized (h : Bare s rs) : Sized s := by
  obtain ⟨K, hlive, -⟩ := live_combined h.sound.distinct
  exact ⟨rs, _, _, K, h.sound, hlive, h.size_eq hlive⟩

theorem reorganize_sized (h : Sized s) (hready : Ready s env) :
    ∃ result s', reorganize s env = some (result, s') ∧ Sized s' := by
  have hsized := h
  obtain ⟨rs, H, F, K, hs, -⟩ := h
  obtain ⟨result, s', hreorg, ⟨hjournal, hcdb, -⟩ | ⟨-, hbare, -⟩⟩ := reorganize_outcome hs hready
  · exact ⟨result, s', hreorg, hsized.congr hjournal hcdb⟩
  · exact ⟨result, s', hreorg, hbare.sized⟩

theorem act_sized (s : URDB) (o : Op × Env) (h : Sized s) (hok : Orderly CountKept s o) :
    ∃ r s', act s o = some (r, s') ∧ Sized s' := by
  have hsized := h
  obtain ⟨rs, H, F, K, hs, hlive, hsize⟩ := h
  obtain ⟨op, env⟩ := o
  cases op with
  | call c =>
      obtain ⟨r, s', hstep, H', F', K', hgood, hcdb, hlive', hsize'⟩ :=
        step_counting hs.scan hs.distinct.1 s (c, env) ⟨H, F, K, hs.good, rfl, hlive, hsize⟩ hok
      exact ⟨some r, s', by simp only [act, hstep]; rfl, rs, H', F', K', hs.congr hgood hcdb,
        hlive', hsize'⟩
  | reorganize =>
      obtain ⟨result, s', hreorg, hsized'⟩ := reorganize_sized hsized hok
      exact ⟨none, s', by simp only [act, hreorg]; rfl, hsized'⟩
  | beginTransaction =>
      have hlock : Sized s.lock := hsized.congr rfl rfl
      obtain ⟨result, s', hreorg, hsized'⟩ := reorganize_sized hlock hok
      exact ⟨none, s', by simp only [act, beginTransaction, hreorg]; rfl, hsized'⟩
  | commitTransaction =>
      have hn : (commitTransaction s).nrecord = s.nrecord :=
        get_put_apart s.mem s.off (by unfold Apart; omega)
      refine ⟨none, commitTransaction s, rfl, rs, H, F, K,
        hs.congr (commitTransaction_good hs.good) rfl, hlive, ?_⟩
      rw [← hsize, size, size, hn]
      rfl
  | abortTransaction => exact ⟨none, abortTransaction s, rfl, (abortTransaction_bare hs).sized⟩

/-- An abort takes back the calls before it. -/
theorem calls_aborted {ignoreCase : Bool} {M : Contents} (calls : List (Call × Env)) (env : Env)
    {s : URDB} {σ : Session} (h : Between ignoreCase s σ) (hM : σ.saved = M)
    (hok : StepsMeet act (Orderly FineOrRefused) s
      (calls.map (fun c => (.call c.1, c.2)) ++ [(.abortTransaction, env)])) :
    ∃ s' rs', run act s (calls.map (fun c => (.call c.1, c.2)) ++ [(.abortTransaction, env)]) =
      some s' ∧ Bare s' rs' ∧ s'.ignoreCase = ignoreCase ∧
        view ignoreCase rs' (fun _ => .leaf) = M := by
  induction calls generalizing s σ with
  | nil =>
      obtain ⟨hic, rs, H, F, hs, -, hsaved⟩ := h
      exact ⟨abortTransaction s, rs, rfl, abortTransaction_bare hs, hic, hsaved.trans hM⟩
  | cons c calls ih =>
      obtain ⟨hc, hrest⟩ := hok
      obtain ⟨r, s₁, hstep, hcases⟩ := call_between h hc
      have hact : act s (.call c.1, c.2) = some (some r, s₁) := by
        simp only [act]
        rw [hstep]
        rfl
      have hnext : ∃ σ', Between ignoreCase s₁ σ' ∧ σ'.saved = M := by
        rcases hcases with ⟨-, hbetween⟩ | ⟨-, hbetween⟩
        · exact ⟨_, hbetween, hM⟩
        · exact ⟨_, hbetween, hM⟩
      obtain ⟨σ', hbetween, hM'⟩ := hnext
      obtain ⟨s', rs', hrun, hbare⟩ := ih hbetween hM' (hrest _ _ hact)
      refine ⟨s', rs', ?_, hbare⟩
      rw [List.map_cons, List.cons_append, run, hact]
      exact hrun

end ULib.RdbSession
