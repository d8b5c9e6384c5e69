import ULib.HashMapCase

/-!
What a hash map that ignores case finds after insertions: as long as keys with
the same letters have the same tail, and keys that `strncasecmp` takes for
equal have the same letters, it finds a key if and only if one with the same
letters was inserted.
-/

namespace ULib.HashMapNoCase

open ULib.KeyComparison
open ULib.HashCase
open ULib.HashMap (UHashMap allocated mallocNum callForAllEntry)
open ULib.HashMapShape
open ULib.HashMapCase

variable {β : Type*}

/-- The slot of a key. -/
def slot (capacity : Nat) (key : Bytes) : Nat := (keyHash true key).toNat % capacity

/-- What the keys of a map must be for its hash and its comparison to agree with their letters. -/
def Separable (capacity : Nat) (keys : List Bytes) : Prop :=
  ∀ a ∈ keys, ∀ b ∈ keys, (SameLetters a b → tail a = tail b) ∧
    (equal true a b = true → slot capacity a = slot capacity b → SameLetters a b)

instance (capacity : Nat) (keys : List Bytes) : Decidable (Separable capacity keys) :=
  inferInstanceAs (Decidable (∀ a ∈ keys, ∀ b ∈ keys, _ ∧ _))

theorem Separable.mono {capacity : Nat} {keys keys' : List Bytes} (h : Separable capacity keys)
    (hsub : keys' ⊆ keys) : Separable capacity keys' :=
  fun a ha b hb => h a (hsub ha) b (hsub hb)

/-- Letters that differ in case only are equal for `strncasecmp`. -/
theorem equal_of_sameLetters {s t : Bytes} (h : SameLetters s t) : equal true s t = true := by
  have hcompare : ∀ (n : Nat) (s t : Bytes), s.map tolower = t.map tolower →
      strncasecmp n s t = 0 := by
    intro n s
    induction s generalizing n with
    | nil =>
        intro t ht
        cases n <;> rfl
    | cons a s ih =>
        intro t ht
        obtain ⟨b, t, rfl, hb, hrest⟩ := List.map_eq_cons_iff.mp ht.symm
        cases n with
        | zero => rfl
        | succ n =>
            rw [strncasecmp, hb, if_neg (UInt8.lt_irrefl _), if_neg (UInt8.lt_irrefl _),
              ih n t hrest.symm, ite_self]
  exact decide_eq_true ⟨h.length_eq, hcompare _ _ _ h⟩

theorem slot_eq_of_sameLetters {capacity : Nat} {s t : Bytes} (h : SameLetters s t)
    (htail : tail s = tail t) : slot capacity s = slot capacity t := by
  rw [slot, slot, (keyHash_eq_iff h).mpr htail]

/-! ### Runs of insertions -/

/-- The keys of a chain. -/
def keysOf (cs : List (Cell β)) : List Bytes := cs.map fun c => c.2.key

/-- The chains after the insertion of `keys`: a chain has keys of its slot that are not equal to one
another, and one that is equal to an inserted key. -/
structure Inserted (s : UHashMap β) (chains : Nat → List (Cell β)) (keys : List Bytes) : Prop where
  linked : Linked s chains
  slots : ∀ i < s.capacity, ∀ key ∈ keysOf (chains i), key ∈ keys ∧ slot s.capacity key = i
  apart : ∀ i < s.capacity, (keysOf (chains i)).Pairwise fun a b => equal true b a = false
  present : ∀ key ∈ keys, ∃ key' ∈ keysOf (chains (slot s.capacity key)), equal true key' key = true

theorem findEqual_none {key : Bytes} {cs : List (Cell β)} (h : findEqual true key cs = none) :
    ∀ key' ∈ keysOf cs, equal true key' key = false := by
  intro key' hkey'
  obtain ⟨c, hc, rfl⟩ := List.mem_map.mp hkey'
  exact Bool.eq_false_iff.mpr (List.find?_eq_none.mp h c hc)

/-- Insertion puts the key in front of its chain, unless the chain has one that is equal to it. -/
theorem insert_spec {s : UHashMap β} {chains : Nat → List (Cell β)} (hs : Linked s chains)
    (key : Bytes) (elem : β) :
    ∃ s' cs, insert true s key elem = some s' ∧ s'.capacity = s.capacity ∧
      Linked s' (Function.update chains (slot s.capacity key) cs) ∧
      ((∀ key' ∈ keysOf (chains (slot s.capacity key)), equal true key' key = false) ∧
          keysOf cs = key :: keysOf (chains (slot s.capacity key)) ∨
        (∃ key' ∈ keysOf (chains (slot s.capacity key)), equal true key' key = true) ∧
          keysOf cs = keysOf (chains (slot s.capacity key))) := by
  obtain ⟨s', cs, a, hinsert, hcapacity, -, -, hlinked, hcases⟩ :=
    insert_cases hs true key elem (i := slot s.capacity key) rfl
  refine ⟨s', cs, hinsert, hcapacity, hlinked, ?_⟩
  rcases hcases with ⟨hnone, -, -, d, rfl, -, rfl⟩ | ⟨xs, c, ys, hsome, -, -, hsplit, rfl⟩
  · exact .inl ⟨findEqual_none hnone, rfl⟩
  · have hequal : equal true c.2.key key = true :=
      List.find?_some (p := fun c : Cell β => equal true c.2.key key) hsome
    refine .inr ⟨⟨c.2.key, List.mem_map_of_mem (List.mem_of_find?_eq_some hsome), hequal⟩, ?_⟩
    rw [hsplit, keysOf, keysOf, List.map_append, List.map_append]
    rfl

/-- A step of a run. -/
theorem Inserted.insert {s : UHashMap β} {chains : Nat → List (Cell β)} {keys : List Bytes}
    (h : Inserted s chains keys) (key : Bytes) (elem : β) :
    ∃ s' chains', HashMapCase.insert true s key elem = some s' ∧ s'.capacity = s.capacity ∧
      Inserted s' chains' (key :: keys) := by
  obtain ⟨s', cs, hinsert, hcapacity, hlinked, hcases⟩ := insert_spec h.linked key elem
  have hi : slot s.capacity key < s.capacity := Nat.mod_lt _ h.linked.cap_pos
  have hother : ∀ i, i ≠ slot s.capacity key →
      Function.update chains (slot s.capacity key) cs i = chains i :=
    fun i hne => Function.update_of_ne hne _ _
  -- the keys of the slot, and one that is equal to the inserted key
  have hkeys : keysOf (chains (slot s.capacity key)) ⊆ keysOf cs ∧
      ∃ key' ∈ keysOf cs, equal true key' key = true := by
    rcases hcases with ⟨-, hnew⟩ | ⟨hequal, hold⟩
    · rw [hnew]
      exact ⟨List.subset_cons_self _ _, key, List.mem_cons_self, equal_of_sameLetters rfl⟩
    · rw [hold]
      exact ⟨List.Subset.refl _, hequal⟩
  refine ⟨s', _, hinsert, hcapacity, hlinked, ?_, ?_, ?_⟩
  · intro i hilt key' hkey'
    rw [hcapacity] at hilt ⊢
    by_cases hne : i = slot s.capacity key
    · subst hne
      rw [Function.update_self] at hkey'
      have hold : ∀ key' ∈ keysOf (chains (slot s.capacity key)),
          key' ∈ key :: keys ∧ slot s.capacity key' = slot s.capacity key := fun key' hkey' =>
        ⟨List.mem_cons_of_mem _ (h.slots _ hi key' hkey').1, (h.slots _ hi key' hkey').2⟩
      rcases hcases with ⟨-, hnew⟩ | ⟨-, hsame⟩
      · rw [hnew] at hkey'
        rcases List.mem_cons.mp hkey' with rfl | hkey'
        · exact ⟨List.mem_cons_self, rfl⟩
        · exact hold key' hkey'
      · exact hold key' (hsame ▸ hkey')
    · rw [hother i hne] at hkey'
      obtain ⟨hmem, hslot⟩ := h.slots i hilt key' hkey'
      exact ⟨List.mem_cons_of_mem _ hmem, hslot⟩
  · intro i hilt
    rw [hcapacity] at hilt
    by_cases hne : i = slot s.capacity key
    · subst hne
      rw [Function.update_self]
      rcases hcases with ⟨hnone, hnew⟩ | ⟨-, hsame⟩
      · rw [hnew]
        exact List.pairwise_cons.mpr ⟨hnone, h.apart _ hi⟩
      · rw [hsame]
        exact h.apart _ hi
    · rw [hother i hne]
      exact h.apart i hilt
  · intro key₁ hkey₁
    rw [hcapacity]
    by_cases hne : slot s.capacity key₁ = slot s.capacity key
    · rw [hne, Function.update_self]
      rcases List.mem_cons.mp hkey₁ with rfl | hkey₁
      · exact hkeys.2
      · obtain ⟨key', hkey', hequal⟩ := h.present key₁ hkey₁
        exact ⟨key', hkeys.1 (hne ▸ hkey'), hequal⟩
    · rw [hother _ hne]
      rcases List.mem_cons.mp hkey₁ with rfl | hkey₁
      · exact absurd rfl hne
      · exact h.present key₁ hkey₁

theorem inserted_allocated {n : Nat} (hn : 0 < mallocNum n) :
    Inserted (allocated n : UHashMap β) (fun _ => []) [] where
  linked := ⟨hn, Nat.one_pos, fun _ _ => rfl, fun _ _ c hc => absurd hc List.not_mem_nil, by
    simp only [cells, List.flatMap_eq_nil_iff.mpr fun _ _ => rfl, List.map_nil, List.nodup_nil]⟩
  slots _ _ key hkey := absurd hkey List.not_mem_nil
  apart _ _ := List.Pairwise.nil
  present key hkey := absurd hkey List.not_mem_nil

theorem Inserted.insertAll {s : UHashMap β} {chains : Nat → List (Cell β)} {keys : List Bytes}
    (h : Inserted s chains keys) (entries : List (Bytes × β)) :
    ∃ s' chains', HashMapCase.insertAll true s entries = some s' ∧ s'.capacity = s.capacity ∧
      Inserted s' chains' ((entries.map Prod.fst).reverse ++ keys) := by
  induction entries generalizing s chains keys with
  | nil => exact ⟨s, chains, rfl, rfl, h⟩
  | cons e entries ih =>
      obtain ⟨s₁, chains₁, hinsert, hcapacity₁, h₁⟩ := h.insert e.1 e.2
      obtain ⟨s', chains', hall, hcapacity, h'⟩ := ih h₁
      refine ⟨s', chains', ?_, hcapacity.trans hcapacity₁, ?_⟩
      · rw [HashMapCase.insertAll, List.foldlM_cons, hinsert]
        exact hall
      · rwa [List.map_cons, List.reverse_cons, List.append_assoc]

/-! ### What is found -/

section
variable {s : UHashMap β} {chains : Nat → List (Cell β)} {keys : List Bytes}
  (h : Inserted s chains keys) {key : Bytes} (hkeys : Separable s.capacity (key :: keys))
include h hkeys

/-- The chain has a key that is equal if and only if one with the same letters was inserted. -/
theorem exists_equal_iff :
    (∃ key' ∈ keysOf (chains (slot s.capacity key)), equal true key' key = true) ↔
      ∃ k ∈ keys, SameLetters k key := by
  have hslot : slot s.capacity key < s.capacity := Nat.mod_lt _ h.linked.cap_pos
  constructor
  · rintro ⟨key', hkey', hequal⟩
    obtain ⟨hmem, hsame⟩ := h.slots _ hslot key' hkey'
    exact ⟨key', hmem, (hkeys key' (List.mem_cons_of_mem _ hmem) key List.mem_cons_self).2 hequal
      hsame⟩
  · rintro ⟨k, hk, hletters⟩
    have hk' := List.mem_cons_of_mem key hk
    have hslots : slot s.capacity k = slot s.capacity key := slot_eq_of_sameLetters hletters
      ((hkeys k hk' key List.mem_cons_self).1 hletters)
    -- the key of the chain that was equal to `k` has its letters, and so those of `key`
    obtain ⟨key', hkey', hequal⟩ := h.present k hk
    rw [hslots] at hkey'
    obtain ⟨hmem, hsame⟩ := h.slots _ hslot key' hkey'
    have hletters' : SameLetters key' k :=
      (hkeys key' (List.mem_cons_of_mem _ hmem) k hk').2 hequal (hsame.trans hslots.symm)
    exact ⟨key', hkey', equal_of_sameLetters (Eq.trans hletters' hletters)⟩

/-- A key is found if and only if one with the same letters was inserted. -/
theorem find_spec :
    ∃ s', HashMapCase.find true s key = some (decide (∃ k ∈ keys, SameLetters k key), s') := by
  have hslot : slot s.capacity key < s.capacity := Nat.mod_lt _ h.linked.cap_pos
  have hnode : (findEqual true key (chains (slot s.capacity key))).elim 0 Prod.fst ≠ 0 ↔
      ∃ key' ∈ keysOf (chains (slot s.capacity key)), equal true key' key = true := by
    cases hfind : findEqual true key (chains (slot s.capacity key)) with
    | none =>
        refine iff_of_false (fun hne => hne rfl) ?_
        rintro ⟨key', hkey', hequal⟩
        rw [findEqual_none hfind key' hkey'] at hequal
        exact Bool.false_ne_true hequal
    | some c =>
        have hmem := List.mem_of_find?_eq_some hfind
        exact iff_of_true ((h.linked.linked _ hslot).ne_zero c hmem)
          ⟨c.2.key, List.mem_map_of_mem hmem,
            List.find?_some (p := fun c : Cell β => equal true c.2.key key) hfind⟩
  rw [HashMapCase.find, lookup_spec h.linked true key, Option.map_some]
  exact ⟨_, congrArg some
    (Prod.ext (decide_eq_decide.mpr (hnode.trans (exists_equal_iff h hkeys))) rfl)⟩

/-- At most one key with the same letters is in the map. -/
theorem unique_spec :
    ∃ es, callForAllEntry s = some es ∧ (es.filter fun e => SameLetters e.1 key).length ≤ 1 := by
  refine ⟨_, h.linked.callForAllEntry_eq, ?_⟩
  have hslot : slot s.capacity key < s.capacity := Nat.mod_lt _ h.linked.cap_pos
  obtain ⟨rest, hperm, hupdate⟩ := cells_update_perm hslot chains
  -- the other chains have no such key
  have hrest : rest.filter (fun c => SameLetters c.2.key key) = [] := by
    rw [List.filter_eq_nil_iff]
    intro c hc hletters
    obtain ⟨j, hj, hcj⟩ := mem_cells.mp ((hupdate []).mem_iff.mpr hc)
    by_cases hne : j = slot s.capacity key
    · rw [hne, Function.update_self] at hcj
      exact List.not_mem_nil hcj
    · rw [Function.update_of_ne hne] at hcj
      obtain ⟨hmem, hsame⟩ := h.slots j hj c.2.key (List.mem_map_of_mem hcj)
      have htail := (hkeys c.2.key (List.mem_cons_of_mem _ hmem) key List.mem_cons_self).1
        (of_decide_eq_true hletters)
      exact hne (hsame.symm.trans (slot_eq_of_sameLetters (of_decide_eq_true hletters) htail))
  have hlength : (((cells s.capacity chains).map HashMapIteration.entry).filter fun e =>
      SameLetters e.1 key).length =
      ((chains (slot s.capacity key)).filter fun c => SameLetters c.2.key key).length := by
    rw [List.filter_map, List.length_map]
    have hfilter := (hperm.filter fun c => SameLetters c.2.key key).length_eq
    rw [List.filter_append, hrest, List.append_nil] at hfilter
    exact hfilter
  rw [hlength]
  -- and no two keys of this chain are equal
  have hapart := (List.pairwise_map.mp (h.apart _ hslot)).filter fun c => SameLetters c.2.key key
  have hall : ∀ c ∈ (chains (slot s.capacity key)).filter fun c => SameLetters c.2.key key,
      SameLetters c.2.key key := fun c hc => of_decide_eq_true (List.mem_filter.mp hc).2
  generalize ((chains (slot s.capacity key)).filter fun c => SameLetters c.2.key key) = cs
    at hapart hall ⊢
  match cs, hapart, hall with
  | [], _, _ => exact Nat.zero_le 1
  | [c], _, _ => exact Nat.le_refl 1
  | c :: d :: cs, hapart, hall =>
      have hdifferent := (List.pairwise_cons.mp hapart).1 d List.mem_cons_self
      have hc := hall c List.mem_cons_self
      have hd := hall d (List.mem_cons_of_mem c List.mem_cons_self)
      rw [equal_of_sameLetters (Eq.trans hd (Eq.symm hc))] at hdifferent
      exact absurd hdifferent.symm Bool.false_ne_true

end

/-- Two keys with the same letters have the same hash if and only if they have the same tail. After
insertions of keys that are separable, a key is found if and only if one with the same letters was
inserted, and at most one such key is in the map. -/
theorem lookup_iff :
    (∀ s t, SameLetters s t → (keyHash true s = keyHash true t ↔ tail s = tail t)) ∧
    ∀ (n : Nat) (entries : List (Bytes × β)) (key : Bytes), 0 < mallocNum n →
      Separable (mallocNum n) (key :: entries.map Prod.fst) →
      ∃ s, HashMapCase.insertAll true (allocated n) entries = some s ∧
        (∃ s', HashMapCase.find true s key =
            some (decide (∃ e ∈ entries, SameLetters e.1 key), s')) ∧
        ∃ es, callForAllEntry s = some es ∧
          (es.filter fun e => SameLetters e.1 key).length ≤ 1 := by
  refine ⟨fun s t => keyHash_eq_iff, ?_⟩
  intro n entries key hn hkeys
  obtain ⟨s, chains, hall, hcapacity, hs⟩ := (inserted_allocated hn).insertAll entries
  have hmem : ∀ k, k ∈ (entries.map Prod.fst).reverse ++ [] ↔ k ∈ entries.map Prod.fst := by
    intro k
    rw [List.append_nil, List.mem_reverse]
  have hseparable : Separable s.capacity (key :: ((entries.map Prod.fst).reverse ++ [])) := by
    rw [hcapacity]
    exact hkeys.mono (List.cons_subset_cons _ fun k hk => (hmem k).mp hk)
  obtain ⟨s', hfind⟩ := find_spec hs hseparable
  refine ⟨s, hall, ⟨s', ?_⟩, unique_spec hs hseparable⟩
  rw [hfind]
  refine congrArg some (Prod.ext (decide_eq_decide.mpr ?_) rfl)
  simp only [hmem, List.mem_map, exists_exists_and_eq_and]

/-- A key of one block in two spellings, and a key with a tail. -/
theorem lookup_iff_block :
    ∃ s, HashMapCase.insertAll true (allocated 53)
        [([72, 111, 115, 116], 1), ([68, 97, 116, 101, 57], 2), ([104, 79, 83, 116], 3)] = some s ∧
      (∃ s', HashMapCase.find true s [72, 79, 83, 84] = some (true, s')) ∧
      ∃ es, callForAllEntry s = some es ∧
        (es.filter fun e => SameLetters e.1 [72, 79, 83, 84]).length ≤ 1 :=
  (lookup_iff (β := Nat)).2 53 _ _ (by decide) (by decide)

/-- A letter of the tail is not found in the other case. -/
theorem not_lookup :
    ¬ ∀ (entries : List (Bytes × Nat)) (key : Bytes),
      ∃ s, HashMapCase.insertAll true (allocated 53) entries = some s ∧
        ∃ s', HashMapCase.find true s key =
          some (decide (∃ e ∈ entries, SameLetters e.1 key), s') := by
  intro h
  obtain ⟨s, hs, s', hfind⟩ := h [([97], 0)] [65]
  have hfound : (HashMapCase.insertAll true (allocated 53) [([97], 0)]).bind
      (fun s => (HashMapCase.find true s [65]).map Prod.fst) = some false := by decide
  rw [hs, Option.bind_some, hfind, Option.map_some] at hfound
  have hsame : ∃ e ∈ [(([97] : Bytes), 0)], SameLetters e.1 [65] := by decide
  exact of_decide_eq_false (Option.some.inj hfound) hsame

end ULib.HashMapNoCase
