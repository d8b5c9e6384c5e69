import ULib.HashMapIteration
import ULib.HashMapRehash
import ULib.Runs
import Mathlib.Data.Set.Card

/-!
The hash map as a finite map: the machine of its calls, and the runs in which
every state holds the bindings made so far.
-/

namespace ULib.HashMapRefinement

open ULib.KeyComparison
open ULib.LinkedChain
open ULib.HashMap
open ULib.HashMapShape
open ULib.HashMapOperations
open ULib.HashMapRehash
open ULib.HashMapIteration
open ULib.Runs

variable {β : Type*}

inductive Call (β : Type*)
  | insert (key : Bytes) (elem : β)
  | erase (key : Bytes)
  | at' (key : Bytes)
  | find (key : Bytes)
  | replaceKey (old key : Bytes)
  | reserve (n : Nat)
  | callForAllEntry
  | iterate

inductive Reply (β : Type*)
  | done
  | elem (ret : Option β)
  | found (ret : Bool)
  | entries (visited : List (Bytes × β))

/-- `replaceKey` is called after `find` has found the old key. -/
def step (s : UHashMap β) : Call β → Option (Reply β × UHashMap β)
  | .insert key elem => (HashMap.insert s key elem).map fun s => (.done, s)
  | .erase key => (HashMap.erase s key).map fun r => (.elem r.1, r.2)
  | .at' key => (HashMap.at' s key).map fun r => (.elem r.1, r.2)
  | .find key => (HashMap.find s key).map fun r => (.found r.1, r.2)
  | .replaceKey old key =>
      (HashMap.find s old).bind fun r =>
        if r.1 then (HashMap.replaceKey r.2 key).map fun s => (.found true, s)
        else some (.found false, r.2)
  | .reserve n => (HashMap.reserve s n).map fun s => (.done, s)
  | .callForAllEntry => (HashMap.callForAllEntry s).map fun visited => (.entries visited, s)
  | .iterate => (HashMap.iterate s).map fun r => (.entries r.1, r.2)

def Allowed (m : Bytes → Option β) : Call β → Reply β → Prop
  | .insert _ _, r => r = .done
  | .erase key, r => r = .elem (m key)
  | .at' key, r => r = .elem (m key)
  | .find key, r => r = .found (m key).isSome
  | .replaceKey old _, r => r = .found (m old).isSome
  | .reserve _, r => r = .done
  | .callForAllEntry, r => ∃ visited, r = .entries visited ∧ Enumerates visited m
  | .iterate, r => ∃ visited, r = .entries visited ∧ Enumerates visited m

def next (m : Bytes → Option β) : Call β → (Bytes → Option β)
  | .insert key elem => Function.update m key (some elem)
  | .erase key => Function.update m key none
  | .replaceKey old key =>
      match m old with
      | some elem => Function.update (Function.update m old none) key (some elem)
      | none => m
  | _ => m

/-- The state of the map as its users see it, and where its nodes lie. -/
structure Refines (s : UHashMap β) (m : Bytes → Option β) : Prop where
  lookup_eq : ∀ key, ∃ s', HashMap.at' s key = some (m key, s')
  size_eq : Set.encard {key | m key ≠ none} = s.length
  placed : ∃ chains, Shape s chains
  called : ∃ visited, HashMap.callForAllEntry s = some visited ∧ Enumerates visited m
  iterated : ∃ visited s', HashMap.iterate s = some (visited, s') ∧ Enumerates visited m

/-- The new key of `replaceKey` is not in the map. -/
def ToAbsent (s : UHashMap β) : Call β → Prop
  | .replaceKey _ key => (HashMap.find s key).map Prod.fst = some false
  | _ => True

/-- A new entry can be counted, and `reserve` gets a table with a slot. -/
def Fits (s : UHashMap β) : Call β → Prop
  | .insert key _ =>
      (HashMap.find s key).map Prod.fst = some true ∨ s.length + 1 < 2 ^ 32
  | .reserve n => n ≤ 1610612741
  | _ => True

instance decidableToAbsent (s : UHashMap β) : (i : Call β) → Decidable (ToAbsent s i)
  | .replaceKey _ key => inferInstanceAs
        (Decidable ((HashMap.find s key).map Prod.fst = some false))
  | .insert _ _ | .erase _ | .at' _ | .find _ | .reserve _ | .callForAllEntry | .iterate =>
      isTrue trivial

instance decidableFits (s : UHashMap β) : (i : Call β) → Decidable (Fits s i)
  | .insert key _ => inferInstanceAs (Decidable
      ((HashMap.find s key).map Prod.fst = some true ∨ s.length + 1 < 2 ^ 32))
  | .reserve n => inferInstanceAs (Decidable (n ≤ 1610612741))
  | .erase _ | .at' _ | .find _ | .replaceKey _ _ | .callForAllEntry | .iterate => isTrue trivial

theorem stackSize_le (length : Nat) : stackSize length ≤ 4096 := by
  unfold stackSize
  iterate 9
    refine iteInduction (motive := fun n => n ≤ 4096) (fun _ => by decide) fun _ => ?_
  exact Nat.le_refl _

theorem mallocNum_lt (num : Nat) : mallocNum num < 2 ^ 29 := by
  have h := stackSize_le (num * 8 % 2 ^ 32)
  rw [mallocNum]
  split_ifs <;> omega

theorem getNextPrimeNumber_of_lt {n : Nat} (h : 1610612741 < n) :
    getNextPrimeNumber n = 4294967291 := by
  rw [getNextPrimeNumber]
  repeat rw [if_neg (by omega)]

theorem mallocNum_ite_pos {p : Prop} [Decidable p] {a b : Nat} (ha : 0 < mallocNum a)
    (hb : ¬ p → 0 < mallocNum b) : 0 < mallocNum (if p then a else b) := by
  split
  · exact ha
  · exact hb ‹_›

theorem mallocNum_prime_pos {n : Nat} (h : n ≤ 1610612741) :
    0 < mallocNum (getNextPrimeNumber n) := by
  rw [getNextPrimeNumber]
  iterate 26 refine mallocNum_ite_pos (by decide) fun _ => ?_
  contradiction

/-- The invariant of the runs. -/
def Keeps (s : UHashMap β) (m : Bytes → Option β) : Prop :=
  (∃ chains, Represents s chains m) ∧ s.capacity < 2 ^ 29

theorem encard_bound {entries : List (Bytes × β)} {m : Bytes → Option β}
    (h : Enumerates entries m) : Set.encard {key | m key ≠ none} = entries.length := by
  have hset : {key | m key ≠ none} = ((entries.map Prod.fst).toFinset : Set Bytes) := by
    ext key
    simp only [Set.mem_ofPred_eq, Option.ne_none_iff_exists', ← h.2, List.coe_toFinset,
      List.mem_map]
    constructor
    · rintro ⟨elem, helem⟩
      exact ⟨(key, elem), helem, rfl⟩
    · rintro ⟨⟨key', elem⟩, helem, rfl⟩
      exact ⟨elem, helem⟩
  rw [hset, Set.encard_coe_eq_coe_finsetCard, List.toFinset_card_of_nodup h.1, List.length_map]

theorem refines_of_keeps {s : UHashMap β} {m : Bytes → Option β} (h : Keeps s m) :
    Refines s m := by
  obtain ⟨⟨chains, h⟩, -⟩ := h
  have henum := Represents.enumerates h
  refine ⟨?_, ?_, ⟨chains, h.shape⟩, ?_, ?_⟩
  · intro key
    obtain ⟨s', hat, -⟩ := at_spec h.shape h.holds key
    exact ⟨s', hat⟩
  · rw [encard_bound henum, List.length_map, h.length_eq]
  · exact ⟨_, callForAllEntry_spec h.shape, henum⟩
  · obtain ⟨s', hiterate, -⟩ := iterate_spec h.shape
    exact ⟨_, s', hiterate, henum⟩

theorem length_empty {s : UHashMap β} (h : Keeps s fun _ => none) : s.length = 0 := by
  obtain ⟨⟨chains, h⟩, -⟩ := h
  rw [h.length_eq, List.length_eq_zero_iff, List.eq_nil_iff_forall_not_mem]
  exact fun c hc => h.holds.eq_none_iff.mp rfl c hc rfl

theorem length_pos {s : UHashMap β} {m : Bytes → Option β} (h : Keeps s m) {key : Bytes}
    {elem : β} (hkey : m key = some elem) : 0 < s.length ∧ s.length < 2 ^ 32 := by
  obtain ⟨⟨chains, h⟩, -⟩ := h
  obtain ⟨c, hc, -⟩ := (h.holds key elem).mp hkey
  rw [h.length_eq]
  exact ⟨List.length_pos_of_mem hc, h.length_eq ▸ h.length_lt⟩

theorem keeps_sameMap {s s' : UHashMap β} {m : Bytes → Option β} (h : Keeps s m)
    (hsame : SameMap s s') : Keeps s' m := by
  obtain ⟨⟨chains, h⟩, hcap⟩ := h
  exact ⟨⟨chains, h.sameMap hsame⟩, hsame.2.2.2.2 ▸ hcap⟩

theorem at_keeps {s : UHashMap β} {m : Bytes → Option β} (h : Keeps s m) (key : Bytes) :
    ∃ s', HashMap.at' s key = some (m key, s') ∧ Keeps s' m := by
  obtain ⟨⟨chains, hrep⟩, -⟩ := id h
  obtain ⟨s', hat, hsame⟩ := at_spec hrep.shape hrep.holds key
  exact ⟨s', hat, keeps_sameMap h hsame⟩

theorem find_fst {s : UHashMap β} {m : Bytes → Option β} (h : Keeps s m) (key : Bytes) :
    (HashMap.find s key).map Prod.fst = some (m key).isSome := by
  obtain ⟨⟨chains, h⟩, -⟩ := h
  obtain ⟨s', hfind, -⟩ := find_spec h.shape h.holds key
  rw [hfind]
  rfl

theorem step_refines {s : UHashMap β} {m : Bytes → Option β} {i : Call β} (h : Keeps s m)
    (habsent : ToAbsent s i) (hfits : Fits s i) :
    ∃ r s', step s i = some (r, s') ∧ Allowed m i r ∧ Keeps s' (next m i) := by
  have hfst := find_fst h
  obtain ⟨⟨chains, hrep⟩, hcap⟩ := id h
  cases i with
  | insert key elem =>
      have hroom : m key ≠ none ∨ s.length + 1 < 2 ^ 32 := by
        refine hfits.imp ?_ id
        intro hsome
        rw [hfst, Option.some.injEq, Option.isSome_iff_ne_none] at hsome
        exact hsome
      obtain ⟨s', chains', hinsert, hrep', hcap', -⟩ := insert_spec hrep key elem hroom
      refine ⟨.done, s', ?_, rfl, ⟨chains', hrep'⟩, hcap' ▸ hcap⟩
      rw [step, hinsert]
      rfl
  | erase key =>
      obtain ⟨s', chains', herase, hrep', hcap'⟩ := erase_spec hrep key
      refine ⟨.elem (m key), s', ?_, rfl, ⟨chains', hrep'⟩, hcap' ▸ hcap⟩
      rw [step, herase]
      rfl
  | at' key =>
      obtain ⟨s', hat, hsame⟩ := at_spec hrep.shape hrep.holds key
      refine ⟨.elem (m key), s', ?_, rfl, keeps_sameMap h hsame⟩
      rw [step, hat]
      rfl
  | find key =>
      obtain ⟨s', hfind, hsame⟩ := find_spec hrep.shape hrep.holds key
      refine ⟨.found (m key).isSome, s', ?_, rfl, keeps_sameMap h hsame⟩
      rw [step, hfind]
      rfl
  | replaceKey old key =>
      have hnone : m key = none := by
        have hfalse := (hfst key).symm.trans habsent
        rwa [Option.some.injEq, Option.isSome_eq_false_iff, Option.isNone_iff_eq_none] at hfalse
      cases hold : m old with
      | none =>
          obtain ⟨s', hfind, hsame⟩ := find_spec hrep.shape hrep.holds old
          refine ⟨.found false, s', ?_, ?_, ?_⟩
          · rw [step, hfind, hold]
            rfl
          · rw [Allowed, hold]
            rfl
          · rw [next, hold]
            exact keeps_sameMap h hsame
      | some elem =>
          obtain ⟨s₁, s', chains', hfind, hreplace, hrep', hcap', -⟩ :=
            replaceKey_spec hrep hold hnone
          refine ⟨.found true, s', ?_, ?_, ?_⟩
          · rw [step, hfind, Option.bind_some, if_pos rfl, hreplace]
            rfl
          · rw [Allowed, hold]
            rfl
          · rw [next, hold]
            exact ⟨⟨chains', hrep'⟩, hcap' ▸ hcap⟩
  | reserve n =>
      obtain ⟨s', chains', hreserve, hrep', -, hcap'⟩ :=
          reserve_spec hrep (mallocNum_prime_pos hfits)
      refine ⟨.done, s', ?_, rfl, ⟨chains', hrep'⟩, ?_⟩
      · rw [step, hreserve]
        rfl
      · rcases hcap' with hcap' | hcap'
        · exact hcap' ▸ hcap
        · exact hcap' ▸ mallocNum_lt _
  | callForAllEntry =>
      refine ⟨.entries _, s, ?_, ⟨_, rfl, Represents.enumerates hrep⟩, h⟩
      rw [step, callForAllEntry_spec hrep.shape]
      rfl
  | iterate =>
      obtain ⟨s', hiterate, hsame⟩ := iterate_spec hrep.shape
      refine ⟨.entries _, s', ?_, ⟨_, rfl, Represents.enumerates hrep⟩, keeps_sameMap h hsame⟩
      rw [step, hiterate]
      rfl

theorem insert_absent_length {s s' : UHashMap β} {m : Bytes → Option β} (h : Keeps s m)
    {key : Bytes} {elem : β} (hnone : m key = none)
    (hinsert : HashMap.insert s key elem = some s') :
    s'.length = (s.length + 1) % 2 ^ 32 := by
  obtain ⟨⟨chains, h⟩, -⟩ := h
  obtain ⟨s₁, hlookup, hsame, -, -, ⟨hnode, -⟩ | ⟨c, xs, ys, -, -, -, -, hsome⟩⟩ :=
    lookup_cases h.shape h.holds key
  · rw [HashMap.insert, hlookup, Option.bind_some, insertAfterFind, if_pos hnode] at hinsert
    rw [← Option.some.inj hinsert, ← hsame.2.2.2.1]
    rfl
  · exact absurd hsome (by simp [hnone])

theorem fits_of_refines {s s' : UHashMap β} {m : Bytes → Option β} {i : Call β} {r : Reply β}
    (h : Keeps s m) (hstep : step s i = some (r, s')) (href : Refines s' (next m i)) :
    Fits s i := by
  cases i with
  | insert key elem =>
      rw [Fits, find_fst h]
      by_contra hnot
      rw [not_or] at hnot
      have hnone : m key = none := by
        cases hkey : m key with
        | none => rfl
        | some elem => exact absurd (congrArg some (congrArg Option.isSome hkey)) hnot.1
      obtain ⟨s₁, hinsert, heq⟩ := Option.map_eq_some_iff.mp hstep
      obtain rfl : s₁ = s' := (Prod.mk.inj heq).2
      have hlength := insert_absent_length h hnone hinsert
      obtain ⟨⟨chains, hrep⟩, -⟩ := h
      have hlt := hrep.length_lt
      have hzero : s₁.length = 0 := by
        rw [hlength]
        omega
      -- the counter wraps to zero with the new key bound
      have hempty := href.size_eq
      rw [hzero, Nat.cast_zero, Set.encard_eq_zero] at hempty
      have hmem : key ∈ {key' | next m (.insert key elem) key' ≠ none} := by
        simp [next]
      rw [hempty] at hmem
      exact hmem
  | reserve n =>
      by_contra hnot
      obtain ⟨s₁, hreserve, heq⟩ := Option.map_eq_some_iff.mp hstep
      obtain rfl : s₁ = s' := (Prod.mk.inj heq).2
      have hprime := getNextPrimeNumber_of_lt (Nat.lt_of_not_le hnot)
      have hne : getNextPrimeNumber n ≠ s.capacity := by
        rw [hprime]
        have := h.2
        omega
      have hcap := reserve_none hne (by rw [hprime]; decide) hreserve
      obtain ⟨chains, hs⟩ := href.placed
      exact absurd hcap hs.cap_pos.ne'
  | erase _ | at' _ | find _ | replaceKey _ _ | callForAllEntry | iterate => trivial

theorem keeps_allocated {n : Nat} (hn : 0 < mallocNum n) :
    Keeps (allocated n : UHashMap β) fun _ => none := by
  let bare : Nat → List (Cell β) := fun _ => []
  have hempty : cells (mallocNum n) bare = [] := by simp [cells, bare]
  refine ⟨⟨bare, ⟨hn, Nat.one_pos, fun _ _ => rfl, ?_, ?_, ?_, ?_⟩, ?_, ?_, ?_⟩, mallocNum_lt n⟩
  · exact fun _ _ c hc => absurd hc List.not_mem_nil
  · exact fun _ _ c hc => absurd hc List.not_mem_nil
  · exact hempty ▸ List.nodup_nil
  · exact hempty ▸ List.nodup_nil
  · intro key elem
    show none = some elem ↔ ∃ c ∈ cells (mallocNum n) bare, _
    simp [hempty]
  · exact (congrArg List.length hempty).symm
  · exact Nat.two_pow_pos 32

/-- The map is a finite map in exactly the runs whose tables have slots and
whose entries the counter can count. -/
theorem finite_map_iff (n : Nat) (is : List (Call β))
    (habsent : StepsMeet step ToAbsent (allocated n) is) :
    Follows step Allowed next Refines (allocated n) (fun _ => none) is ↔
      0 < mallocNum n ∧ StepsMeet step Fits (allocated n) is := by
  by_cases hn : 0 < mallocNum n
  · rw [follows_iff_tracks]
    refine Iff.trans ?_ (and_iff_right hn).symm
    refine tracks_iff_of_simulation (I := Keeps) ?_ ?_ ?_ is (keeps_allocated hn) habsent
    · exact fun s m h => refines_of_keeps h
    · intro s m i h habsent hfits
      exact step_refines h habsent hfits
    · intro s m i r s' h _ hstep _ href
      exact fits_of_refines h hstep href
  · constructor
    · intro h
      obtain ⟨chains, hs⟩ := h.head.placed
      exact absurd hs.cap_pos hn
    · intro h
      exact absurd h.1 hn

/-- A rename, a rehash into one slot and back, with all bindings kept. -/
def renameAndRehash : List (Call Nat) :=
  [.insert [1] 10, .insert [2] 20, .replaceKey [1] [3], .reserve 1610612741, .insert [3] 30,
    .reserve 53, .erase [2], .iterate]

theorem finite_map_rename_and_rehash :
    StepsMeet step ToAbsent (allocated 53) renameAndRehash ∧
      Follows step Allowed next Refines (allocated 53) (fun _ => none) renameAndRehash := by
  have habsent : StepsMeet step ToAbsent (allocated 53) renameAndRehash := by decide
  exact ⟨habsent, (finite_map_iff 53 _ habsent).mpr ⟨by decide, by decide⟩⟩

/-- The prime is taken times eight in 32 bits and rounded up to zero pages: the
table has no slot. -/
theorem reserve_gives_no_slot :
    StepsMeet step ToAbsent (allocated 53) ([.reserve 1610612742] : List (Call Nat)) ∧
      ¬ Follows step Allowed next Refines (allocated 53) (fun _ => none)
        ([.reserve 1610612742] : List (Call Nat)) := by
  refine ⟨by decide, ?_⟩
  rintro ⟨-, r, s', hstep, -, href⟩
  obtain ⟨s'', hat⟩ := href.lookup_eq []
  have hnone : ((step (allocated 53 : UHashMap Nat) (.reserve 1610612742)).bind fun r =>
      HashMap.at' r.2 []).isNone = true := by
    decide
  rw [hstep, Option.bind_some, hat] at hnone
  exact absurd hnone (by simp)

end ULib.HashMapRefinement
