import ULib.HashMapCase

/-!
The copy that `UHashMap<UString>::duplicate` makes. It has a table of its own,
but its chains are made of the nodes of the map, and its size is that of an
empty map.
-/

namespace ULib.HashMapDuplicate

open ULib.KeyComparison
open ULib.LinkedChain
open ULib.HashCase
open ULib.HashMap (UHashMap setNode setTable allocated mallocNum callForAllEntry)
open ULib.HashMapShape
open ULib.HashMapCase

variable {β : Type*}

/-- The inner loop: the nodes of one chain go to the chains of the copy. -/
def relinkChain (n : Nat) : Nat → Nat → UHashMap β → Option (UHashMap β)
  | _, 0, t1 => some { t1 with node := 0 }
  | 0, _ + 1, _ => none
  | fuel + 1, p + 1, t1 =>
      (t1.heap (p + 1)).bind fun d =>
        let index := d.hash % n
        let t1 := setNode t1 (p + 1) (some { d with next := t1.table index })
        relinkChain n fuel d.next (setTable t1 index (p + 1))

/-- The outer loop, over the table of the map. -/
def relinkAll (n : Nat) (table : Nat → Nat) : List Nat → UHashMap β → Option (UHashMap β)
  | [], t1 => some t1
  | i :: is, t1 =>
      if table i = 0 then relinkAll n table is t1
      else (relinkChain n t1.fresh (table i) t1).bind fun t1 => relinkAll n table is t1

/-- The map and its copy, which have one heap. -/
def duplicate (t : UHashMap β) : Option (UHashMap β × UHashMap β) :=
  (relinkAll t.capacity t.table (List.range t.capacity)
    { (allocated t.capacity : UHashMap β) with heap := t.heap, fresh := t.fresh }).map fun t1 =>
      ({ t with heap := t1.heap }, t1)

/-! ### What is asked of a copy -/

/-- An insertion or a deletion. -/
inductive Change (β : Type*) where
  | insert (key : Bytes) (elem : β)
  | erase (key : Bytes)

def change (ignoreCase : Bool) (s : UHashMap β) : Change β → Option (UHashMap β)
  | .insert key elem => HashMapCase.insert ignoreCase s key elem
  | .erase key => (HashMapCase.erase ignoreCase s key).map Prod.snd

/-- A change of one of two maps that have one heap; the copy does not ignore case. -/
def changeOne (ignoreCase : Bool) (u : UHashMap β × UHashMap β) :
    Change β ⊕ Change β → Option (UHashMap β × UHashMap β)
  | .inl c => (change ignoreCase u.1 c).map fun t =>
      (t, { u.2 with heap := t.heap, fresh := t.fresh })
  | .inr c => (change false u.2 c).map fun t1 =>
      ({ u.1 with heap := t1.heap, fresh := t1.fresh }, t1)

def run (ignoreCase : Bool) (u : UHashMap β × UHashMap β) (cs : List (Change β ⊕ Change β)) :
    Option (UHashMap β × UHashMap β) :=
  cs.foldlM (changeOne ignoreCase) u

/-- What a map has for a key. -/
def value (ignoreCase : Bool) (s : UHashMap β) (key : Bytes) : Option (Option β) :=
  (at' ignoreCase s key).map Prod.fst

/-- A caller sees no difference. -/
structure SameView (ignoreCase : Bool) (s s' : UHashMap β) : Prop where
  value : ∀ key, value ignoreCase s' key = value ignoreCase s key
  entries : callForAllEntry s' = callForAllEntry s
  length : s'.length = s.length

/-- The copy has the bindings and the size of the map, the map is as it was, and after any changes
of the two a further change of one of them is not seen in the other. -/
def Duplicates (ignoreCase : Bool) (t : UHashMap β) : Prop :=
  ∃ u, duplicate t = some u ∧ SameView ignoreCase t u.1 ∧ u.2.length = t.length ∧
    (∀ key, value false u.2 key = value ignoreCase t key) ∧
    ∀ cs, ∃ w, run ignoreCase u cs = some w ∧ ∀ c,
      (∃ w', changeOne ignoreCase w (.inl c) = some w' ∧ SameView false w.2 w'.2) ∧
      ∃ w', changeOne ignoreCase w (.inr c) = some w' ∧ SameView ignoreCase w.1 w'.1

/-- A hash map: its chains have a node for every address, its size is the number of the nodes, and
its table is one that can be allocated. -/
def IsMap (t : UHashMap β) : Prop :=
  (∃ chains, Linked t chains ∧ t.length = (cells t.capacity chains).length) ∧
    ∃ n, t.capacity = mallocNum n

/-! ### The size -/

theorem length_relinkChain {n fuel p : Nat} {t1 u : UHashMap β}
    (h : relinkChain n fuel p t1 = some u) : u.length = t1.length := by
  induction fuel generalizing p t1 with
  | zero =>
      cases p with
      | zero =>
          obtain rfl := Option.some.inj h
          rfl
      | succ p => exact nomatch h
  | succ fuel ih =>
      cases p with
      | zero =>
          obtain rfl := Option.some.inj h
          rfl
      | succ p =>
          obtain ⟨d, -, hrest⟩ := Option.bind_eq_some_iff.mp h
          have hlength := ih hrest
          exact hlength

theorem length_relinkAll {n : Nat} {table : Nat → Nat} {is : List Nat} {t1 u : UHashMap β}
    (h : relinkAll n table is t1 = some u) : u.length = t1.length := by
  induction is generalizing t1 with
  | nil =>
      obtain rfl := Option.some.inj h
      rfl
  | cons i is ih =>
      rw [relinkAll] at h
      split_ifs at h
      · exact ih h
      · obtain ⟨w, hchain, hrest⟩ := Option.bind_eq_some_iff.mp h
        exact (ih hrest).trans (length_relinkChain hchain)

/-- The copy has the size of an empty map. -/
theorem length_duplicate {t : UHashMap β} {u : UHashMap β × UHashMap β}
    (h : duplicate t = some u) : u.2.length = 0 := by
  obtain ⟨t1, hall, rfl⟩ := Option.map_eq_some_iff.mp h
  exact length_relinkAll hall

/-! ### Two maps that share no node -/

/-- The chains of a map decide what a caller sees. -/
theorem sameView_of_linked {s s' : UHashMap β} {chains : Nat → List (Cell β)}
    (hs : Linked s chains) (hs' : Linked s' chains) (hcapacity : s'.capacity = s.capacity)
    (hlength : s'.length = s.length) (ignoreCase : Bool) : SameView ignoreCase s s' where
  value key := by
    rw [value, value, at_spec hs ignoreCase key rfl, at_spec hs' ignoreCase key rfl, hcapacity]
  entries := by rw [hs.callForAllEntry_eq, hs'.callForAllEntry_eq, hcapacity]
  length := hlength

/-- An address of a node. -/
def Owns (s : UHashMap β) (chains : Nat → List (Cell β)) (p : Nat) : Prop :=
  ∃ i < s.capacity, ∃ c ∈ chains i, c.1 = p

/-- A change of a map changes nodes of the map, and makes at most one, at the next address. -/
theorem change_spec {s : UHashMap β} {chains : Nat → List (Cell β)} (hs : Linked s chains)
    (ignoreCase : Bool) (c : Change β) :
    ∃ s' chains', change ignoreCase s c = some s' ∧ Linked s' chains' ∧ s.fresh ≤ s'.fresh ∧
      (∀ p, p < s.fresh → ¬ Owns s chains p → s'.heap p = s.heap p) ∧
      ∀ p, Owns s' chains' p → Owns s chains p ∨ p = s.fresh := by
  -- a chain of the map is replaced by one whose nodes are its own, but for the new one
  have howns : ∀ {s' : UHashMap β} {i : Nat} {cs : List (Cell β)}, s'.capacity = s.capacity →
      i < s.capacity → (∀ d ∈ cs, (∃ e ∈ chains i, e.1 = d.1) ∨ d.1 = s.fresh) →
      ∀ p, Owns s' (Function.update chains i cs) p → Owns s chains p ∨ p = s.fresh := by
    intro s' i cs hcapacity hi hcs p hp
    obtain ⟨j, hj, d, hd, rfl⟩ := hp
    rw [hcapacity] at hj
    by_cases hji : j = i
    · subst hji
      rw [Function.update_self] at hd
      rcases hcs d hd with ⟨e, he, heq⟩ | hnew
      · exact .inl ⟨j, hj, e, he, heq⟩
      · exact .inr hnew
    · rw [Function.update_of_ne hji] at hd
      exact .inl ⟨j, hj, d, hd, rfl⟩
  cases c with
  | insert key elem =>
      have hi := Nat.mod_lt (keyHash ignoreCase key).toNat hs.cap_pos
      obtain ⟨s', cs, a, hinsert, hcapacity, hfresh, hheap, hlinked, hcases⟩ :=
        insert_cases hs ignoreCase key elem rfl
      refine ⟨s', _, hinsert, hlinked, hfresh, ?_, howns hcapacity hi ?_⟩
      · intro p hp hnot
        refine hheap p ?_
        rintro rfl
        rcases hcases with ⟨-, ha, -⟩ | ⟨xs, c, ys, hfind, ha, -⟩
        · exact hp.ne ha
        · exact hnot ⟨_, hi, c, List.mem_of_find?_eq_some hfind, ha.symm⟩
      · intro d hd
        rcases hcases with ⟨-, rfl, -, d', -, -, rfl⟩ | ⟨xs, c, ys, -, -, -, hsplit, rfl⟩
        · rcases List.mem_cons.mp hd with rfl | hd
          · exact .inr rfl
          · exact .inl ⟨d, hd, rfl⟩
        · rw [hsplit]
          rcases List.mem_cons.mp (List.perm_middle.mem_iff.mp hd) with rfl | hd
          · exact .inl ⟨c, List.mem_append_right xs List.mem_cons_self, rfl⟩
          · exact .inl ⟨d, List.perm_middle.mem_iff.mpr (List.mem_cons_of_mem c hd), rfl⟩
  | erase key =>
      have hi := Nat.mod_lt (keyHash ignoreCase key).toNat hs.cap_pos
      obtain ⟨r, cs, herase, hcapacity, hfresh, hheap, hlinked, hcases⟩ :=
        erase_cases hs ignoreCase key rfl
      refine ⟨r.2, _, ?_, hlinked, hfresh.ge, ?_, howns hcapacity hi ?_⟩
      · rw [change, herase]
        rfl
      · intro p _ hnot
        exact hheap p fun c hc heq => hnot ⟨_, hi, c, hc, heq⟩
      · intro d hd
        refine .inl ⟨d, ?_, rfl⟩
        rcases hcases with ⟨rfl, -⟩ | ⟨xs, c, ys, hsplit, rfl, -⟩
        · exact hd
        · rw [hsplit]
          exact List.perm_middle.mem_iff.mpr (List.mem_cons_of_mem c hd)

/-- Two maps in one heap, with no node in common. -/
structure Apart (s s1 : UHashMap β) (chains chains1 : Nat → List (Cell β)) : Prop where
  linked : Linked s chains
  linked1 : Linked s1 chains1
  heap : s1.heap = s.heap
  fresh : s1.fresh = s.fresh
  apart : ∀ p, Owns s chains p → ¬ Owns s1 chains1 p

theorem Apart.symm {s s1 : UHashMap β} {chains chains1 : Nat → List (Cell β)}
    (h : Apart s s1 chains chains1) : Apart s1 s chains1 chains :=
  ⟨h.linked1, h.linked, h.heap.symm, h.fresh.symm, fun p hp hp' => h.apart p hp' hp⟩

/-- A step of a run: the other map keeps its chains. -/
theorem Apart.change {s s1 : UHashMap β} {chains chains1 : Nat → List (Cell β)}
    (h : Apart s s1 chains chains1) (ignoreCase : Bool) (c : Change β) :
    ∃ s' chains', HashMapDuplicate.change ignoreCase s c = some s' ∧
      Apart s' { s1 with heap := s'.heap, fresh := s'.fresh } chains' chains1 := by
  obtain ⟨s', chains', hchange, hlinked, hfresh, hheap, howns⟩ := change_spec h.linked ignoreCase c
  refine ⟨s', chains', hchange, hlinked, ?_, rfl, rfl, ?_⟩
  · refine ⟨h.linked1.cap_pos, hlinked.fresh_pos, fun i hi => ?_, fun i hi d hd => ?_,
      h.linked1.addrs⟩
    · refine (h.linked1.linked i hi).congr fun d hd => ?_
      have hlt : d.1 < s.fresh := h.fresh ▸ h.linked1.below i hi d hd
      have hnot : ¬ Owns s chains d.1 := fun hown => h.apart d.1 hown ⟨i, hi, d, hd, rfl⟩
      dsimp only
      rw [view, view, hheap d.1 hlt hnot, h.heap]
    · exact Nat.lt_of_lt_of_le (h.fresh ▸ h.linked1.below i hi d hd) hfresh
  · rintro p hp ⟨i, hi, d, hd, rfl⟩
    rcases howns d.1 hp with hold | hnew
    · exact h.apart d.1 hold ⟨i, hi, d, hd, rfl⟩
    · exact (h.fresh ▸ h.linked1.below i hi d hd).ne hnew

theorem run_apart {w : UHashMap β × UHashMap β} {chains chains1 : Nat → List (Cell β)}
    (h : Apart w.1 w.2 chains chains1) (ignoreCase : Bool) (cs : List (Change β ⊕ Change β)) :
    ∃ w' chains' chains1', run ignoreCase w cs = some w' ∧ Apart w'.1 w'.2 chains' chains1' := by
  induction cs generalizing w chains chains1 with
  | nil => exact ⟨w, chains, chains1, rfl, h⟩
  | cons c cs ih =>
      cases c with
      | inl c =>
          obtain ⟨s', chains', hchange, h'⟩ := h.change ignoreCase c
          obtain ⟨w', chains₂, chains1', hrun, hw'⟩ :=
            ih (w := (s', { w.2 with heap := s'.heap, fresh := s'.fresh })) h'
          refine ⟨w', chains₂, chains1', ?_, hw'⟩
          rw [run, List.foldlM_cons, changeOne, hchange]
          exact hrun
      | inr c =>
          obtain ⟨s', chains', hchange, h'⟩ := h.symm.change false c
          obtain ⟨w', chains₂, chains1', hrun, hw'⟩ :=
            ih (w := ({ w.1 with heap := s'.heap, fresh := s'.fresh }, s')) h'.symm
          refine ⟨w', chains₂, chains1', ?_, hw'⟩
          rw [run, List.foldlM_cons, changeOne, hchange]
          exact hrun

/-- A change of one map is not seen in the other. -/
theorem Apart.unseen {w : UHashMap β × UHashMap β} {chains chains1 : Nat → List (Cell β)}
    (h : Apart w.1 w.2 chains chains1) (ignoreCase : Bool) (c : Change β) :
    (∃ w', changeOne ignoreCase w (.inl c) = some w' ∧ SameView false w.2 w'.2) ∧
      ∃ w', changeOne ignoreCase w (.inr c) = some w' ∧ SameView ignoreCase w.1 w'.1 := by
  constructor
  · obtain ⟨s', chains', hchange, h'⟩ := h.change ignoreCase c
    refine ⟨_, by rw [changeOne, hchange]; rfl, ?_⟩
    exact sameView_of_linked h.linked1 h'.linked1 rfl rfl false
  · obtain ⟨s', chains', hchange, h'⟩ := h.symm.change false c
    refine ⟨_, by rw [changeOne, hchange]; rfl, ?_⟩
    exact sameView_of_linked h.linked h'.linked1 rfl rfl ignoreCase

/-! ### When the copy is one -/

theorem relinkAll_empty {n : Nat} {table : Nat → Nat} {is : List Nat}
    (h : ∀ i ∈ is, table i = 0) (t1 : UHashMap β) : relinkAll n table is t1 = some t1 := by
  induction is with
  | nil => rfl
  | cons i is ih =>
      rw [relinkAll, if_pos (h i List.mem_cons_self)]
      exact ih fun j hj => h j (List.mem_cons_of_mem i hj)

theorem mallocNum_le (n : Nat) : mallocNum n ≤ HashMap.maxCount := by
  rw [mallocNum, HashMap.maxCount]
  split_ifs with hsmall
  · have hsize := (HashMap.stackSize_bounds hsmall).2
    omega
  · omega

theorem linked_empty {s : UHashMap β} (hcapacity : 0 < s.capacity) (hfresh : 0 < s.fresh)
    (htable : ∀ i, s.table i = 0) : Linked s fun _ => [] where
  cap_pos := hcapacity
  fresh_pos := hfresh
  linked i _ := htable i
  below _ _ c hc := absurd hc List.not_mem_nil
  addrs := by
    simp only [cells, List.flatMap_eq_nil_iff.mpr fun _ _ => rfl, List.map_nil, List.nodup_nil]

/-- An empty map is copied. -/
theorem duplicates_of_empty {t : UHashMap β} (ht : IsMap t) (hlength : t.length = 0)
    (ignoreCase : Bool) : Duplicates ignoreCase t := by
  obtain ⟨⟨chains, hlinked, hcount⟩, n, hn⟩ := ht
  rw [hlength] at hcount
  have hchains : ∀ i < t.capacity, chains i = [] := fun i hi =>
    List.flatMap_eq_nil_iff.mp (List.eq_nil_of_length_eq_zero hcount.symm) i (List.mem_range.mpr hi)
  have htable : ∀ i ∈ List.range t.capacity, t.table i = 0 := by
    intro i hi
    have hchain := hlinked.linked i (List.mem_range.mp hi)
    exact hchain.eq_zero_iff.mpr (hchains i (List.mem_range.mp hi))
  have hcapacity : 0 < mallocNum t.capacity :=
    Nat.lt_of_lt_of_le hlinked.cap_pos (HashMap.le_mallocNum (hn ▸ mallocNum_le n)).1
  let t1 : UHashMap β :=
    { (allocated t.capacity : UHashMap β) with heap := t.heap, fresh := t.fresh }
  have hdup : duplicate t = some (t, t1) := by
    rw [duplicate, relinkAll_empty htable]
    rfl
  have hlinked1 : Linked t1 fun _ => [] :=
    linked_empty hcapacity hlinked.fresh_pos fun _ => rfl
  have hapart : Apart t t1 chains fun _ => [] :=
    ⟨hlinked, hlinked1, rfl, rfl, fun p _ ⟨i, _, c, hc, _⟩ => List.not_mem_nil hc⟩
  refine ⟨(t, t1), hdup, ⟨fun _ => rfl, rfl, rfl⟩, hlength.symm, ?_, ?_⟩
  · intro key
    have hi := Nat.mod_lt (keyHash ignoreCase key).toNat hlinked.cap_pos
    rw [value, value, at_spec hlinked1 false key rfl, at_spec hlinked ignoreCase key rfl,
      hchains _ hi]
    rfl
  · intro cs
    obtain ⟨w, chains', chains1', hrun, hw⟩ := run_apart (w := (t, t1)) hapart ignoreCase cs
    exact ⟨w, hrun, hw.unseen ignoreCase⟩

/-- A map is copied if and only if it is empty. -/
theorem duplicates_iff {t : UHashMap β} (ht : IsMap t) (ignoreCase : Bool) :
    Duplicates ignoreCase t ↔ t.length = 0 := by
  constructor
  · rintro ⟨u, hdup, -, hlength, -⟩
    rw [← hlength]
    exact length_duplicate hdup
  · exact fun hlength => duplicates_of_empty ht hlength ignoreCase

theorem isMap_allocated (n : Nat) (hn : 0 < mallocNum n) : IsMap (allocated n : UHashMap β) :=
  ⟨⟨fun _ => [], linked_empty hn Nat.one_pos fun _ => rfl, by
    simp only [cells, List.flatMap_eq_nil_iff.mpr fun _ _ => rfl, List.length_nil]
    rfl⟩, n, rfl⟩

theorem duplicates_iff_allocated :
    Duplicates false (allocated 53 : UHashMap Nat) ↔ (allocated 53 : UHashMap Nat).length = 0 :=
  duplicates_iff (isMap_allocated 53 (by decide)) false

/-- A map with one entry is not copied. -/
theorem not_duplicates :
    ∃ t : UHashMap Nat, HashMapCase.insert false (allocated 53) [97] 0 = some t ∧
      ¬ Duplicates false t := by
  obtain ⟨t, ht⟩ : ∃ t, HashMapCase.insert false (allocated 53 : UHashMap Nat) [97] 0 = some t :=
    Option.isSome_iff_exists.mp (by decide)
  refine ⟨t, ht, ?_⟩
  rintro ⟨u, hdup, -, hlength, -⟩
  have hone : (HashMapCase.insert false (allocated 53 : UHashMap Nat) [97] 0).map
      (fun s => s.length) = some 1 := by decide
  rw [ht, Option.map_some, Option.some_inj] at hone
  rw [length_duplicate hdup, hone] at hlength
  exact absurd hlength Nat.zero_ne_one

end ULib.HashMapDuplicate
