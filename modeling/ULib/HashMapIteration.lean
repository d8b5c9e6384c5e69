import ULib.HashMapOperations

/-!
The two ways over all entries of a hash map: `callForAllEntry`, and `first` and
`next` with the cursor of the map.
-/

namespace ULib.HashMapIteration

open ULib.KeyComparison
open ULib.LinkedChain
open ULib.HashMap
open ULib.HashMapCase (Linked)
open ULib.HashMapShape
open ULib.HashMapOperations

variable {β : Type*}

/-- Every binding once. -/
def Enumerates (entries : List (Bytes × β)) (m : Bytes → Option β) : Prop :=
  (entries.map Prod.fst).Nodup ∧ ∀ key elem, (key, elem) ∈ entries ↔ m key = some elem

/-- The bindings that the entries make, one after the other. -/
def bindAll (entries : List (Bytes × β)) (m : Bytes → Option β) : Bytes → Option β :=
  entries.foldl (fun m e => Function.update m e.1 (some e.2)) m

theorem bindAll_apply {entries : List (Bytes × β)} (hkeys : (entries.map Prod.fst).Nodup)
    (m : Bytes → Option β) (key : Bytes) :
    bindAll entries m key =
      match entries.find? fun e => e.1 = key with
      | some e => some e.2
      | none => m key := by
  induction entries generalizing m with
  | nil => rfl
  | cons e entries ih =>
      rw [List.map_cons, List.nodup_cons] at hkeys
      rw [bindAll, List.foldl_cons, ← bindAll, ih hkeys.2]
      by_cases hkey : e.1 = key
      · have hnone : entries.find? (fun e => e.1 = key) = none := by
          rw [List.find?_eq_none]
          intro r hr hrkey
          refine hkeys.1 (List.mem_map.mpr ⟨r, hr, ?_⟩)
          rw [hkey]
          simpa using hrkey
        rw [hnone, List.find?_cons_of_pos (by simpa using hkey)]
        dsimp only
        rw [← hkey, Function.update_self]
      · rw [List.find?_cons_of_neg (by simpa using hkey)]
        cases entries.find? fun e => e.1 = key with
        | some r => rfl
        | none => exact Function.update_of_ne (Ne.symm hkey) _ _

theorem Enumerates.bindAll_eq {entries : List (Bytes × β)} {m : Bytes → Option β}
    (h : Enumerates entries m) : bindAll entries (fun _ => none) = m := by
  funext key
  rw [bindAll_apply h.1]
  cases hfind : entries.find? fun e => e.1 = key with
  | some e =>
      obtain rfl : e.1 = key := by simpa using List.find?_some hfind
      exact ((h.2 e.1 e.2).mp (List.mem_of_find?_eq_some hfind)).symm
  | none =>
      cases hm : m key with
      | none => rfl
      | some elem =>
          have hmem := (h.2 key elem).mpr hm
          exact absurd (List.find?_eq_none.mp hfind _ hmem) (by simp)

theorem Enumerates.map {γ : Type*} {entries : List (Bytes × β)} {m : Bytes → Option β}
    (h : Enumerates entries m) (g : β → γ) :
    Enumerates (entries.map fun e => (e.1, g e.2)) fun key => (m key).map g := by
  constructor
  · rw [List.map_map]
    exact h.1
  · intro key elem
    rw [List.mem_map, Option.map_eq_some_iff]
    constructor
    · rintro ⟨e, he, heq⟩
      cases heq
      exact ⟨e.2, (h.2 e.1 e.2).mp he, rfl⟩
    · rintro ⟨value, hvalue, rfl⟩
      exact ⟨(key, value), (h.2 key value).mpr hvalue, rfl⟩

def entry (c : Cell β) : Bytes × β := (c.2.key, c.2.elem)

theorem Represents.enumerates {s : UHashMap β} {chains : Nat → List (Cell β)}
    {m : Bytes → Option β} (h : Represents s chains m) :
    Enumerates ((cells s.capacity chains).map entry) m := by
  constructor
  · rw [List.map_map]
    exact h.shape.keys
  · intro key elem
    rw [h.holds key elem]
    simp [entry]

theorem callChain_spec {s : UHashMap β} {cs : List (Cell β)} {p : Nat}
    (h : Chain (view s.heap) p cs) (n : Nat) (hn : cs.length ≤ n) :
    callChain s n p = some (cs.map entry) := by
  induction cs generalizing p n with
  | nil =>
      obtain rfl : p = 0 := h
      cases n <;> rfl
  | cons c cs ih =>
      obtain ⟨rfl, hc, q, hq, hrest⟩ := h
      obtain ⟨k, hk⟩ := Nat.exists_eq_succ_of_ne_zero hc
      cases n with
      | zero => exact absurd hn (by simp)
      | succ n =>
          have hheap := view_eq_some hq
          rw [hk] at hheap ⊢
          rw [callChain, hheap, Option.bind_some, ih hrest n (by simpa using hn)]
          rfl

theorem callSlots_spec {s : UHashMap β} {chains : Nat → List (Cell β)} (hs : Linked s chains)
    {is : List Nat} (his : ∀ i ∈ is, i < s.capacity) :
    callSlots s is = some ((is.flatMap chains).map entry) := by
  induction is with
  | nil => rfl
  | cons i is ih =>
      have hi := his i List.mem_cons_self
      rw [callSlots, callChain_spec (hs.linked i hi) s.fresh (hs.chain_length hi),
        Option.bind_some, ih fun j hj => his j (List.mem_cons_of_mem i hj), List.flatMap_cons,
        List.map_append]
      rfl

theorem callForAllEntry_spec {s : UHashMap β} {chains : Nat → List (Cell β)}
    (hs : Shape s chains) : callForAllEntry s = some ((cells s.capacity chains).map entry) :=
  callSlots_spec hs.toLinked fun _ => List.mem_range.mp

/-- The nodes from slot `i` on. -/
def cellsFrom (s : UHashMap β) (chains : Nat → List (Cell β)) (i : Nat) : List (Cell β) :=
  (List.range' i (s.capacity - i)).flatMap chains

/-- Where the cursor stands that `first` or `next` left, with the nodes yet to come. -/
def Points (s : UHashMap β) (chains : Nat → List (Cell β)) (r : Bool × UHashMap β)
    (cs : List (Cell β)) : Prop :=
  SameMap s r.2 ∧ match r.1 with
    | false => cs = []
    | true => ∃ ds, ds ≠ [] ∧ Chain (view s.heap) r.2.node ds ∧
        cs = ds ++ cellsFrom s chains (r.2.index + 1)

section
variable {s : UHashMap β} {chains : Nat → List (Cell β)} (hs : Shape s chains)
include hs

theorem scan_spec (s' : UHashMap β) (hsame : SameMap s s') {n i : Nat}
    (hn : n = s.capacity - i) : Points s chains (scan s' n i) (cellsFrom s chains i) := by
  induction n generalizing i with
  | zero =>
      refine ⟨hsame, ?_⟩
      show (List.range' i (s.capacity - i)).flatMap chains = []
      rw [← hn]
      rfl
  | succ n ih =>
      have hlinked := hs.linked i (by omega)
      have hfrom : cellsFrom s chains i = chains i ++ cellsFrom s chains (i + 1) := by
        rw [cellsFrom, cellsFrom, show s.capacity - i = s.capacity - (i + 1) + 1 by omega,
          List.range'_succ, List.flatMap_cons]
      rw [← congrFun hsame.2.1 i] at hlinked
      rw [hfrom, scan]
      by_cases hzero : s'.table i = 0
      · rw [if_pos hzero, hlinked.eq_zero_iff.mp hzero, List.nil_append]
        exact ih (by omega)
      · rw [if_neg hzero]
        exact ⟨hsame, chains i, fun h => hzero (hlinked.eq_zero_iff.mpr h), hlinked, rfl⟩

theorem first_spec : Points s chains (first s) (cells s.capacity chains) := by
  have h := scan_spec hs s ⟨rfl, rfl, rfl, rfl, rfl⟩ (Nat.sub_zero s.capacity).symm
  rwa [cellsFrom, Nat.sub_zero, ← List.range_eq_range'] at h

theorem next_spec {s' : UHashMap β} {cs : List (Cell β)} (h : Points s chains (true, s') cs) :
    ∃ c rest q r, cs = c :: rest ∧ s'.heap s'.node = some ⟨c.2, q⟩ ∧ next s' = some r ∧
      Points s chains r rest := by
  obtain ⟨hsame, ds, hds, hlinked, rfl⟩ := h
  cases ds with
  | nil => exact absurd rfl hds
  | cons c ds =>
      obtain ⟨hnode, hc, q, hq, hrest⟩ := hlinked
      have hheap : s'.heap s'.node = some ⟨c.2, q⟩ := by
        rw [hsame.1, hnode]
        exact view_eq_some hq
      refine ⟨c, ds ++ cellsFrom s chains (s'.index + 1), q, _, rfl, hheap, by
        rw [next, hheap, Option.map_some], ?_⟩
      dsimp only
      by_cases hzero : q = 0
      · rw [if_pos hzero, hrest.eq_zero_iff.mp hzero, List.nil_append]
        refine scan_spec hs { s' with node := q } hsame ?_
        rw [hsame.2.2.2.2]
      · rw [if_neg hzero]
        exact ⟨hsame, ds, fun h => hzero (hrest.eq_zero_iff.mpr h), hrest, rfl⟩

theorem iterateLoop_spec {r : Bool × UHashMap β} {cs : List (Cell β)}
    (h : Points s chains r cs) (n : Nat) (hn : cs.length ≤ n) :
    ∃ s', iterateLoop n r = some (cs.map entry, s') ∧ SameMap s s' := by
  induction n generalizing r cs with
  | zero => 
      obtain ⟨b, s'⟩ := r
      cases b with
      | false =>
          obtain ⟨hsame, rfl⟩ := h
          exact ⟨s', rfl, hsame⟩
      | true =>
          obtain ⟨c, rest, q, r', rfl, -⟩ := next_spec hs h
          exact absurd hn (by simp)
  | succ n ih =>
      obtain ⟨b, s'⟩ := r
      cases b with
      | false =>
          obtain ⟨hsame, rfl⟩ := h
          exact ⟨s', rfl, hsame⟩
      | true =>
          obtain ⟨c, rest, q, r', rfl, hheap, hnext, hr'⟩ := next_spec hs h
          obtain ⟨s'', hloop, hsame⟩ := ih hr' (by simpa using hn)
          refine ⟨s'', ?_, hsame⟩
          rw [iterateLoop, hheap, Option.bind_some, hnext, Option.bind_some, hloop]
          rfl

theorem iterate_spec :
    ∃ s', iterate s = some ((cells s.capacity chains).map entry, s') ∧ SameMap s s' :=
  iterateLoop_spec hs (first_spec hs) s.fresh hs.cells_length

end

end ULib.HashMapIteration
