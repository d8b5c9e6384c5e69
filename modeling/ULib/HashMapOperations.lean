import ULib.HashMapShape

/-!
What the operations of a hash map do to its chains, and the bindings that the
nodes of the chains make up.
-/

namespace ULib.HashMapOperations

open ULib.KeyComparison
open ULib.LinkedChain
open ULib.HashMap
open ULib.HashMapShape

variable {β : Type*}

/-- The nodes bind what the map binds. -/
def Holds (cs : List (Cell β)) (m : Bytes → Option β) : Prop :=
  ∀ key elem, m key = some elem ↔ ∃ c ∈ cs, c.2.key = key ∧ c.2.elem = elem

theorem Holds.perm {cs cs' : List (Cell β)} {m : Bytes → Option β} (h : Holds cs m)
    (hperm : cs.Perm cs') : Holds cs' m := by
  intro key elem
  simp only [h key elem, hperm.mem_iff]

theorem Holds.eq_none_iff {cs : List (Cell β)} {m : Bytes → Option β} (h : Holds cs m)
    {key : Bytes} : m key = none ↔ ∀ c ∈ cs, c.2.key ≠ key := by
  constructor
  · intro hnone c hc hkey
    have := (h key c.2.elem).mpr ⟨c, hc, hkey, rfl⟩
    simp [hnone] at this
  · intro hall
    rw [Option.eq_none_iff_forall_ne_some]
    intro elem helem
    obtain ⟨c, hc, hkey, -⟩ := (h key elem).mp helem
    exact hall c hc hkey

theorem Holds.cons {cs : List (Cell β)} {m : Bytes → Option β} (h : Holds cs m) {c : Cell β}
    (hnew : ∀ d ∈ cs, d.2.key ≠ c.2.key) :
    Holds (c :: cs) (Function.update m c.2.key (some c.2.elem)) := by
  intro key elem
  by_cases hkey : key = c.2.key
  · subst hkey
    rw [Function.update_self]
    constructor
    · intro heq
      exact ⟨c, List.mem_cons_self, rfl, Option.some.inj heq⟩
    · rintro ⟨d, hd, hdkey, rfl⟩
      rcases List.mem_cons.mp hd with rfl | hd
      · rfl
      · exact absurd hdkey (hnew d hd)
  · rw [Function.update_of_ne hkey, h key elem]
    constructor
    · rintro ⟨d, hd, hrest⟩
      exact ⟨d, List.mem_cons_of_mem c hd, hrest⟩
    · rintro ⟨d, hd, hdkey, helem⟩
      rcases List.mem_cons.mp hd with rfl | hd
      · exact absurd hdkey.symm hkey
      · exact ⟨d, hd, hdkey, helem⟩

theorem Holds.uncons {cs : List (Cell β)} {m : Bytes → Option β} {c : Cell β}
    (h : Holds (c :: cs) m) (hnew : ∀ d ∈ cs, d.2.key ≠ c.2.key) :
    Holds cs (Function.update m c.2.key none) := by
  intro key elem
  by_cases hkey : key = c.2.key
  · subst hkey
    rw [Function.update_self]
    constructor
    · intro heq
      exact absurd heq.symm (Option.some_ne_none elem)
    · rintro ⟨d, hd, hdkey, -⟩
      exact absurd hdkey (hnew d hd)
  · rw [Function.update_of_ne hkey, h key elem]
    constructor
    · rintro ⟨d, hd, hdkey, helem⟩
      rcases List.mem_cons.mp hd with rfl | hd
      · exact absurd hdkey.symm hkey
      · exact ⟨d, hd, hdkey, helem⟩
    · rintro ⟨d, hd, hrest⟩
      exact ⟨d, List.mem_cons_of_mem c hd, hrest⟩

/-- The slot of a key. -/
def slot (s : UHashMap β) (key : Bytes) : Nat := (uHash key).toNat % s.capacity

section
variable {s : UHashMap β} {chains : Nat → List (Cell β)} (hs : Shape s chains)
  {m : Bytes → Option β} (hm : Holds (cells s.capacity chains) m)
include hs

theorem slot_lt (key : Bytes) : slot s key < s.capacity := Nat.mod_lt _ hs.cap_pos

theorem mem_slot {c : Cell β} (hc : c ∈ cells s.capacity chains) : c ∈ chains (slot s c.2.key) := by
  obtain ⟨i, hi, hci⟩ := mem_cells.mp hc
  obtain ⟨hhash, hslot⟩ := hs.hashed i hi c hci
  rw [slot, ← hhash, hslot]
  exact hci

include hm

/-- What the cursor stands on after `lookup`. -/
theorem lookup_cases (key : Bytes) : ∃ s', lookup s key = some s' ∧ SameMap s s' ∧
    s'.hash = (uHash key).toNat ∧ s'.index = slot s key ∧
    ((s'.node = 0 ∧ m key = none) ∨
      ∃ c xs ys, chains (slot s key) = xs ++ c :: ys ∧ s'.node = c.1 ∧ c.1 ≠ 0 ∧
        c.2.key = key ∧ m key = some c.2.elem) := by
  refine ⟨_, lookup_spec hs key, ⟨rfl, rfl, rfl, rfl, rfl⟩, rfl, rfl, ?_⟩
  have hi := slot_lt hs key
  rcases hfind : findKey key (chains (slot s key)) with _ | c
  · left
    refine ⟨congrArg (fun c => Option.elim c 0 Prod.fst) hfind, hm.eq_none_iff.mpr ?_⟩
    rintro c hc rfl
    have := List.find?_eq_none.mp hfind c (mem_slot hs hc)
    simp at this
  · right
    have hmem := List.mem_of_find?_eq_some hfind
    have hkey : c.2.key = key := by simpa using List.find?_some hfind
    obtain ⟨xs, ys, hsplit⟩ := List.append_of_mem hmem
    refine ⟨c, xs, ys, hsplit, congrArg (fun c => Option.elim c 0 Prod.fst) hfind, ?_, hkey, ?_⟩
    · exact (hs.linked _ hi).ne_zero c hmem
    · exact (hm key c.2.elem).mpr ⟨c, mem_cells.mpr ⟨_, hi, hmem⟩, hkey, rfl⟩

theorem at_spec (key : Bytes) : ∃ s', at' s key = some (m key, s') ∧ SameMap s s' := by
  obtain ⟨s', hlookup, hsame, -, -, hcases⟩ := lookup_cases hs hm key
  refine ⟨s', ?_, hsame⟩
  rw [at', hlookup, Option.bind_some]
  rcases hcases with ⟨hnode, hnone⟩ | ⟨c, xs, ys, hsplit, hnode, hc, -, hsome⟩
  · rw [if_pos hnode, hnone]
  · obtain ⟨q, hq⟩ := hs.heap_eq (slot_lt hs key) (hsplit ▸ List.mem_append_right xs
      List.mem_cons_self)
    rw [if_neg (hnode ▸ hc), hnode, hsame.1, hq, hsome]
    rfl

theorem find_spec (key : Bytes) :
    ∃ s', find s key = some ((m key).isSome, s') ∧ SameMap s s' := by
  obtain ⟨s', hlookup, hsame, -, -, hcases⟩ := lookup_cases hs hm key
  refine ⟨s', ?_, hsame⟩
  rw [find, hlookup, Option.map_some]
  rcases hcases with ⟨hnode, hnone⟩ | ⟨c, xs, ys, -, hnode, hc, -, hsome⟩
  · simp [hnode, hnone]
  · simp [hnode, hc, hsome]

end

/-- The map binds what its nodes bind, and counts them. -/
structure Represents (s : UHashMap β) (chains : Nat → List (Cell β)) (m : Bytes → Option β) :
    Prop where
  shape : Shape s chains
  holds : Holds (cells s.capacity chains) m
  length_eq : s.length = (cells s.capacity chains).length
  length_lt : s.length < 2 ^ 32

theorem Represents.sameMap {s s' : UHashMap β} {chains : Nat → List (Cell β)}
    {m : Bytes → Option β} (h : Represents s chains m) (hsame : SameMap s s') :
    Represents s' chains m := by
  have hshape := h.shape.sameMap hsame
  obtain ⟨-, -, -, hlength, hcap⟩ := hsame
  exact ⟨hshape, hcap ▸ h.holds, by rw [hlength, hcap, h.length_eq], hlength ▸ h.length_lt⟩

section
variable {s : UHashMap β} {chains : Nat → List (Cell β)} {m : Bytes → Option β}
  (h : Represents s chains m)
include h

theorem addrs_ne {rest : List (Cell β)} {c : Cell β}
    (hperm : (cells s.capacity chains).Perm (c :: rest)) : ∀ d ∈ rest, d.1 ≠ c.1 := by
  have haddrs := (hperm.map Prod.fst).nodup_iff.mp h.shape.addrs
  rw [List.map_cons, List.nodup_cons] at haddrs
  intro d hd heq
  exact haddrs.1 (heq ▸ List.mem_map_of_mem hd)

theorem keys_ne {rest : List (Cell β)} {c : Cell β}
    (hperm : (cells s.capacity chains).Perm (c :: rest)) : ∀ d ∈ rest, d.2.key ≠ c.2.key := by
  have hkeys := (hperm.map fun c => c.2.key).nodup_iff.mp h.shape.keys
  rw [List.map_cons, List.nodup_cons] at hkeys
  intro d hd heq
  exact hkeys.1 (heq ▸ List.mem_map_of_mem hd)

theorem erase_spec (key : Bytes) : ∃ s' chains', erase s key = some (m key, s') ∧
    Represents s' chains' (Function.update m key none) ∧ s'.capacity = s.capacity := by
  obtain ⟨s₁, hlookup, hsame, -, hindex, hcases⟩ := lookup_cases h.shape h.holds key
  have h₁ := h.sameMap hsame
  rcases hcases with ⟨hnode, hnone⟩ | ⟨c, xs, ys, hsplit, hnode, hc, hkey, hsome⟩
  · refine ⟨s₁, chains, ?_, ?_, hsame.2.2.2.2⟩
    · rw [erase, hlookup, Option.bind_some, if_pos hnode, hnone]
    · rwa [← hnone, Function.update_eq_self]
  · have hslot := slot_lt h.shape key
    rw [← hindex] at hsplit hslot
    rw [← hsame.2.2.2.2] at hslot
    obtain ⟨s₂, hunlink, hs₂, ⟨q, hq⟩, ⟨-, hlength, hcap⟩, hnode₂, hperm⟩ :=
      unlink_spec h₁.shape hslot hsplit hnode
    obtain ⟨q₁, hq₁⟩ := h₁.shape.heap_eq hslot (hsplit ▸ List.mem_append_right xs
      List.mem_cons_self)
    have hne := keys_ne h₁ hperm
    have hcells := h₁.length_eq.trans hperm.length_eq
    rw [List.length_cons] at hcells
    have hlt := h₁.length_lt
    refine ⟨{ setNode s₂ s₂.node none with length := (s₂.length + 2 ^ 32 - 1) % 2 ^ 32 },
      Function.update chains s₁.index (xs ++ ys), ?_, ⟨?_, ?_, ?_, ?_⟩, ?_⟩
    · rw [erase, hlookup, Option.bind_some, if_neg (hnode ▸ hc), hnode, hq₁, Option.bind_some,
        eraseAfterFind, hunlink, hsome]
      rfl
    · refine hs₂.congr rfl rfl rfl ?_
      intro d hd
      rw [hcap] at hd
      exact Function.update_of_ne (hnode₂.trans hnode ▸ addrs_ne h₁ hperm d hd) _ _
    · show Holds (cells s₂.capacity _) _
      rw [hcap, ← hkey]
      exact (h₁.holds.perm hperm).uncons hne
    · show (s₂.length + 2 ^ 32 - 1) % 2 ^ 32 = (cells s₂.capacity _).length
      rw [hcap]
      omega
    · exact Nat.mod_lt _ (by decide)
    · exact hcap.trans hsame.2.2.2.2

/-- The cursor stands on the node of `key`. -/
def OnKey (s : UHashMap β) (chains : Nat → List (Cell β)) (key : Bytes) : Prop :=
  ∃ c ∈ cells s.capacity chains, s.node = c.1 ∧ c.2.key = key

theorem replaceAfterFind_spec {key : Bytes} (hon : OnKey s chains key) (elem : β) :
    ∃ s' chains', replaceAfterFind s elem = some s' ∧
      Represents s' chains' (Function.update m key (some elem)) ∧ OnKey s' chains' key ∧
      s'.capacity = s.capacity ∧ s'.length = s.length := by
  obtain ⟨c, hc, hnode, hkey⟩ := hon
  obtain ⟨i, hi, hci⟩ := mem_cells.mp hc
  obtain ⟨xs, ys, hsplit⟩ := List.append_of_mem hci
  obtain ⟨q, hq, hshape⟩ := overwrite_shape h.shape hi hsplit elem
  obtain ⟨rest, hperm, -, hmiddle⟩ := cells_middle_perm hi hsplit
  have hne := keys_ne h hperm
  have hrest := ((h.holds.perm hperm).uncons hne).cons (c := (c.1, { c.2 with elem := elem })) hne
  rw [Function.update_idem] at hrest
  refine ⟨setNode s c.1 (some ⟨{ c.2 with elem := elem }, q⟩), _, ?_, ⟨hshape, ?_, ?_, ?_⟩, ?_, rfl,
    rfl⟩
  · rw [replaceAfterFind, hnode, hq]
    rfl
  · rw [← hkey]
    exact hrest.perm (hmiddle _).symm
  · show s.length = (cells s.capacity _).length
    rw [(hmiddle _).length_eq, h.length_eq, hperm.length_eq]
    rfl
  · exact h.length_lt
  · exact ⟨(c.1, { c.2 with elem := elem }), (hmiddle _).mem_iff.mpr List.mem_cons_self, hnode,
      hkey⟩

theorem insertAfterFind_spec {s₁ : UHashMap β} {key : Bytes} (hlookup : lookup s key = some s₁)
    (elem : β) (hroom : m key ≠ none ∨ s.length + 1 < 2 ^ 32) :
    ∃ s' chains', insertAfterFind s₁ key elem = some s' ∧
      Represents s' chains' (Function.update m key (some elem)) ∧ OnKey s' chains' key ∧
      s'.capacity = s.capacity ∧ s'.length ≤ s.length + 1 := by
  obtain ⟨_, hlookup', hsame, hhash, hindex, hcases⟩ := lookup_cases h.shape h.holds key
  obtain rfl := Option.some.inj (hlookup.symm.trans hlookup')
  have h₁ := h.sameMap hsame
  have hslot := slot_lt h.shape key
  rw [← hindex, ← hsame.2.2.2.2] at hslot
  rcases hcases with ⟨hnode, hnone⟩ | ⟨c, xs, ys, hsplit, hnode, hc, hkey, hsome⟩
  · have hlt := hroom.resolve_left (absurd hnone)
    have hkeys := h₁.holds.eq_none_iff.mp hnone
    have hslot' : s₁.hash % s₁.capacity = s₁.index := by rw [hhash, hindex, hsame.2.2.2.2, slot]
    have hfresh : ∀ c ∈ cells s₁.capacity chains, c.1 ≠ s₁.fresh := by
      intro c hc
      obtain ⟨i, hi, hci⟩ := mem_cells.mp hc
      exact (h₁.shape.below i hi c hci).ne
    obtain ⟨hshape, hperm⟩ := push_shape h₁.shape (d := ⟨elem, key, s₁.hash⟩) hhash hslot'
      h₁.shape.fresh_pos.ne' (Nat.lt_succ_self _) (Nat.le_succ _) hfresh hkeys
    refine ⟨{ pushed s₁ s₁.index s₁.fresh ⟨elem, key, s₁.hash⟩ with
        node := s₁.fresh, fresh := s₁.fresh + 1, length := (s₁.length + 1) % 2 ^ 32 },
      Function.update chains s₁.index ((s₁.fresh, ⟨elem, key, s₁.hash⟩) :: chains s₁.index),
      ?_, ⟨?_, ?_, ?_, ?_⟩, ?_, hsame.2.2.2.2, ?_⟩
    · rw [insertAfterFind, if_pos hnode]
      rfl
    · exact hshape.congr rfl rfl rfl fun _ _ => rfl
    · exact (h₁.holds.cons hkeys).perm hperm.symm
    · show (s₁.length + 1) % 2 ^ 32 = (cells s₁.capacity _).length
      rw [hperm.length_eq, List.length_cons, ← h₁.length_eq, hsame.2.2.2.1, Nat.mod_eq_of_lt hlt]
    · exact Nat.mod_lt _ (by decide)
    · exact ⟨_, hperm.mem_iff.mpr List.mem_cons_self, rfl, rfl⟩
    · rw [← hsame.2.2.2.1]
      exact Nat.mod_le _ _
  · have hon : OnKey s₁ chains key := by
      refine ⟨c, mem_cells.mpr ⟨_, hslot, ?_⟩, hnode, hkey⟩
      rw [hindex, hsplit]
      exact List.mem_append_right xs List.mem_cons_self
    obtain ⟨s', chains', hreplace, hrep, hon', hcap, hlength⟩ := replaceAfterFind_spec h₁ hon elem
    refine ⟨s', chains', ?_, hrep, hon', hcap.trans hsame.2.2.2.2, ?_⟩
    · rw [insertAfterFind, if_neg (hnode ▸ hc)]
      exact hreplace
    · rw [hlength, hsame.2.2.2.1]
      exact Nat.le_succ _

theorem insert_spec (key : Bytes) (elem : β) (hroom : m key ≠ none ∨ s.length + 1 < 2 ^ 32) :
    ∃ s' chains', insert s key elem = some s' ∧
      Represents s' chains' (Function.update m key (some elem)) ∧ s'.capacity = s.capacity ∧
      s'.length ≤ s.length + 1 := by
  obtain ⟨s₁, hlookup, -⟩ := lookup_cases h.shape h.holds key
  obtain ⟨s', chains', hinsert, hrep, -, hcap, hlength⟩ :=
    insertAfterFind_spec h hlookup elem hroom
  refine ⟨s', chains', ?_, hrep, hcap, hlength⟩
  rw [HashMap.insert, hlookup, Option.bind_some, hinsert]

/-- The node that `find` leaves the cursor on. -/
theorem find_onKey {key : Bytes} {elem : β} (hkey : m key = some elem) :
    ∃ s' q, find s key = some (true, s') ∧ SameMap s s' ∧ OnKey s' chains key ∧
      s'.heap s'.node = some q ∧ q.elem = elem := by
  obtain ⟨s', hlookup, hsame, -, -, hcases⟩ := lookup_cases h.shape h.holds key
  rcases hcases with ⟨-, hnone⟩ | ⟨c, xs, ys, hsplit, hnode, hc, hckey, hsome⟩
  · simp [hkey] at hnone
  · have hmem : c ∈ chains (slot s key) := hsplit ▸ List.mem_append_right xs List.mem_cons_self
    have hslot := slot_lt h.shape key
    obtain ⟨q, hq⟩ := h.shape.heap_eq hslot hmem
    refine ⟨s', ⟨c.2, q⟩, ?_, hsame, ⟨c, ?_, hnode, hckey⟩, ?_, ?_⟩
    · rw [find, hlookup, Option.map_some, hnode]
      simp [hc]
    · rw [hsame.2.2.2.2]
      exact mem_cells.mpr ⟨_, hslot, hmem⟩
    · rw [hnode, hsame.1, hq]
    · exact Option.some.inj (hsome.symm.trans hkey)

theorem find_absent {key : Bytes} (hkey : m key = none) :
    ∃ s', find s key = some (false, s') ∧ lookup s key = some s' := by
  obtain ⟨s', hlookup, -, -, -, hcases⟩ := lookup_cases h.shape h.holds key
  rcases hcases with ⟨hnode, -⟩ | ⟨c, xs, ys, -, -, -, -, hsome⟩
  · refine ⟨s', ?_, hlookup⟩
    rw [find, hlookup, Option.map_some]
    simp [hnode]
  · simp [hkey] at hsome

/-- `replaceKey` after the key was found. -/
theorem replaceKey_spec {old key : Bytes} {elem : β} (hold : m old = some elem)
    (hnew : m key = none) : ∃ s₁ s' chains', find s old = some (true, s₁) ∧
      replaceKey s₁ key = some s' ∧
      Represents s' chains' (Function.update (Function.update m old none) key (some elem)) ∧
      s'.capacity = s.capacity ∧ s'.length = s.length := by
  obtain ⟨s₁, hlookup, hsame, -, hindex, hcases⟩ := lookup_cases h.shape h.holds old
  obtain ⟨hnode, hnone⟩ | ⟨c, xs, ys, hsplit, hnode, hc, hkey, hsome⟩ := hcases
  · simp [hold] at hnone
  obtain rfl : c.2.elem = elem := Option.some.inj (hsome.symm.trans hold)
  have h₁ := h.sameMap hsame
  have hslot := slot_lt h.shape old
  rw [← hindex, ← hsame.2.2.2.2] at hslot
  rw [← hindex] at hsplit
  obtain ⟨s₂, hunlink, hs₂, ⟨q, hq⟩, ⟨hfresh, hlength, hcap⟩, -, hperm⟩ :=
    unlink_spec h₁.shape hslot hsplit hnode
  have hholds₂ := (h₁.holds.perm hperm).uncons (keys_ne h₁ hperm)
  have haddrs₂ := addrs_ne h₁ hperm
  rw [← hcap, hkey] at hholds₂
  rw [← hcap] at haddrs₂
  have hnew₂ : Function.update m old none key = none := by
    by_cases hko : key = old
    · rw [hko, Function.update_self]
    · rw [Function.update_of_ne hko, hnew]
  obtain ⟨s₃, hlookup₃, hsame₃, hhash₃, hindex₃, hcases₃⟩ := lookup_cases hs₂ hholds₂ key
  have hs₃ := hs₂.sameMap hsame₃
  rw [← hsame₃.2.2.2.2] at hholds₂ haddrs₂
  have hlt : c.1 < s₃.fresh := by
    rw [hsame₃.2.2.1, hfresh]
    exact h₁.shape.below _ hslot c (hsplit ▸ List.mem_append_right xs List.mem_cons_self)
  have hslot₃ : s₃.hash % s₃.capacity = s₃.index := by rw [hhash₃, hindex₃, hsame₃.2.2.2.2, slot]
  have hkeys₃ := hholds₂.eq_none_iff.mp hnew₂
  obtain ⟨hshape, hpush⟩ := push_shape hs₃ (d := ⟨c.2.elem, key, s₃.hash⟩) hhash₃ hslot₃ hc hlt
    (Nat.le_refl _) haddrs₂ hkeys₃
  refine ⟨s₁, { pushed s₃ s₃.index c.1 ⟨c.2.elem, key, s₃.hash⟩ with node := c.1 }, _, ?_, ?_,
    ⟨hshape.congr rfl rfl rfl fun _ _ => rfl, ?_, ?_, ?_⟩, ?_, ?_⟩
  · rw [find, hlookup, Option.map_some, hnode]
    simp [hc]
  · rw [replaceKey, hunlink, Option.bind_some, hlookup₃, Option.bind_some, hnode, hsame₃.1, hq]
    rfl
  · exact (hholds₂.cons hkeys₃).perm hpush.symm
  · show s₃.length = (cells s₃.capacity _).length
    rw [hpush.length_eq, List.length_cons, hsame₃.2.2.2.1, hlength, hsame₃.2.2.2.2, hcap,
      h₁.length_eq, hperm.length_eq, List.length_cons]
  · show s₃.length < 2 ^ 32
    rw [hsame₃.2.2.2.1, hlength]
    exact h₁.length_lt
  · show s₃.capacity = s.capacity
    rw [hsame₃.2.2.2.2, hcap, hsame.2.2.2.2]
  · show s₃.length = s.length
    rw [hsame₃.2.2.2.1, hlength, hsame.2.2.2.1]

end

end ULib.HashMapOperations
