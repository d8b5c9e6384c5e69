import Mathlib.Data.List.Nodup
import Mathlib.Tactic.Common

/-!
A list of entries over a list of records. An entry hides the records with its
key, and may stand for a record itself. What is left when both are merged into
one list of records.
-/

namespace ULib.Overlay

variable {γ α κ : Type*}

/-- The record of an entry has the key of the entry. -/
structure Layer (γ α κ : Type*) where
  keyOf : γ → κ
  entry : γ → Option α
  key : α → κ
  keeps : ∀ o a, entry o = some a → key a = keyOf o

section Definitions

variable [DecidableEq κ] (L : Layer γ α κ) (os : List γ) (bs : List α)

/-- The records that no entry hides. -/
def shown : List α := bs.filter fun b => decide (L.key b ∉ os.map L.keyOf)

/-- The records of the entries, and those below that are shown. -/
def merge : List α := os.filterMap L.entry ++ shown L os bs

/-- What a search for a key finds, in the entries first. -/
def seen (k : κ) : Option α :=
  match os.find? fun o => decide (L.keyOf o = k) with
  | some o => L.entry o
  | none => bs.find? fun b => decide (L.key b = k)

end Definitions

variable {L : Layer γ α κ} {os : List γ} {bs : List α}

theorem key_mem_of_mem_filterMap {a : α} (h : a ∈ os.filterMap L.entry) :
    L.key a ∈ os.map L.keyOf := by
  obtain ⟨o, ho, ha⟩ := List.mem_filterMap.mp h
  exact List.mem_map.mpr ⟨o, ho, (L.keeps o a ha).symm⟩

theorem filterMap_keys_sublist (L : Layer γ α κ) (os : List γ) :
    ((os.filterMap L.entry).map L.key).Sublist (os.map L.keyOf) := by
  induction os with
  | nil => exact List.Sublist.refl _
  | cons o os ih =>
      cases ho : L.entry o with
      | none =>
          rw [List.filterMap_cons_none ho, List.map_cons]
          exact ih.cons _
      | some a =>
          rw [List.filterMap_cons_some ho, List.map_cons, List.map_cons, L.keeps o a ho]
          exact ih.cons_cons _

variable [DecidableEq κ]

theorem shown_eq {p : α → Bool} (hp : ∀ b ∈ bs, p b = true ↔ L.key b ∉ os.map L.keyOf) :
    shown L os bs = bs.filter p := by
  apply List.filter_congr
  intro b hb
  rw [Bool.eq_iff_iff, decide_eq_true_eq, hp b hb]

theorem shown_perm {bs' : List α} (h : bs.Perm bs') : (shown L os bs).Perm (shown L os bs') :=
  h.filter _

/-- Where no key is there twice, a search finds what has the key. -/
theorem find?_key_iff {f : α → κ} (hbs : (bs.map f).Nodup) {k : κ} {b : α} :
    (bs.find? fun b => decide (f b = k)) = some b ↔ b ∈ bs ∧ f b = k := by
  constructor
  · intro hfind
    exact ⟨List.mem_of_find?_eq_some hfind, by simpa using List.find?_some hfind⟩
  · rintro ⟨hb, hkey⟩
    have hsome : (bs.find? fun b => decide (f b = k)).isSome = true :=
      List.find?_isSome.mpr ⟨b, hb, decide_eq_true hkey⟩
    obtain ⟨b', hb'⟩ := Option.isSome_iff_exists.mp hsome
    have hkey' : f b' = k := by simpa using List.find?_some hb'
    rw [hb', List.inj_on_of_nodup_map hbs (List.mem_of_find?_eq_some hb') hb
      (hkey'.trans hkey.symm)]

/-- There a search does not depend on the order. -/
theorem find?_perm {f : α → κ} {bs' : List α} (h : bs.Perm bs') (hbs : (bs.map f).Nodup) (k : κ) :
    (bs.find? fun b => decide (f b = k)) = bs'.find? fun b => decide (f b = k) := by
  apply Option.ext
  intro b
  rw [find?_key_iff hbs, find?_key_iff ((h.map f).nodup_iff.mp hbs), h.mem_iff]

/-- No key is there twice exactly if none of those that are shown is. -/
theorem nodup_merge_iff (hos : (os.map L.keyOf).Nodup) :
    ((merge L os bs).map L.key).Nodup ↔ ((shown L os bs).map L.key).Nodup := by
  rw [merge, List.map_append, List.nodup_append]
  refine ⟨fun h => h.2.1, fun hbs => ⟨hos.sublist (filterMap_keys_sublist L os), hbs, ?_⟩⟩
  · rintro k hk k' hk' rfl
    obtain ⟨a, ha, rfl⟩ := List.mem_map.mp hk
    obtain ⟨b, hb, hkey⟩ := List.mem_map.mp hk'
    have hnot := of_decide_eq_true (List.mem_filter.mp hb).2
    rw [hkey] at hnot
    exact hnot (key_mem_of_mem_filterMap ha)

theorem find?_shown {k : κ} (hk : k ∉ os.map L.keyOf) :
    (shown L os bs).find? (fun b => decide (L.key b = k)) =
      bs.find? fun b => decide (L.key b = k) := by
  rw [shown, List.find?_filter]
  congr 1
  funext b
  by_cases hb : L.key b = k
  · simp [hb, hk]
  · simp [hb]

theorem find?_filterMap_none {k : κ} (hk : k ∉ os.map L.keyOf) :
    ((os.filterMap L.entry).find? fun a => decide (L.key a = k)) = none := by
  rw [List.find?_eq_none]
  rintro a ha heq
  exact hk ((of_decide_eq_true heq : L.key a = k) ▸ key_mem_of_mem_filterMap ha)

/-- The only entry with a key decides. -/
theorem find?_filterMap (hos : (os.map L.keyOf).Nodup) {o : γ} (ho : o ∈ os) :
    ((os.filterMap L.entry).find? fun a => decide (L.key a = L.keyOf o)) = L.entry o := by
  induction os with
  | nil => cases ho
  | cons o' os ih =>
      obtain ⟨hnot, hos⟩ := List.nodup_cons.mp hos
      rcases List.mem_cons.mp ho with rfl | ho
      · cases ha : L.entry o with
        | none => rw [List.filterMap_cons_none ha, find?_filterMap_none hnot]
        | some a => simp [List.filterMap_cons_some ha, L.keeps o a ha]
      · have hne : L.keyOf o' ≠ L.keyOf o := fun heq =>
          hnot (heq ▸ List.mem_map_of_mem ho)
        cases ha : L.entry o' with
        | none => rw [List.filterMap_cons_none ha, ih hos ho]
        | some a =>
            have hskip : L.key a ≠ L.keyOf o := by rwa [L.keeps o' a ha]
            rw [List.filterMap_cons_some ha, List.find?_cons_of_neg (by simpa using hskip),
              ih hos ho]

/-- A search in the merged list. -/
theorem find?_merge (hos : (os.map L.keyOf).Nodup) (k : κ) :
    ((merge L os bs).find? fun a => decide (L.key a = k)) = seen L os bs k := by
  rw [merge, List.find?_append, seen]
  cases hfind : os.find? fun o => decide (L.keyOf o = k) with
  | none =>
      have hk : k ∉ os.map L.keyOf := by simpa using hfind
      rw [find?_filterMap_none hk, Option.none_or, find?_shown hk]
  | some o =>
      have hmem := List.mem_of_find?_eq_some hfind
      obtain rfl : L.keyOf o = k := by simpa using List.find?_some hfind
      have hhidden : ((shown L os bs).find? fun b => decide (L.key b = L.keyOf o)) = none := by
        rw [List.find?_eq_none]
        rintro b hb heq
        have hnot := of_decide_eq_true (List.mem_filter.mp hb).2
        exact hnot ((of_decide_eq_true heq : L.key b = L.keyOf o) ▸ List.mem_map_of_mem hmem)
      rw [find?_filterMap hos hmem, hhidden, Option.or_none]

/-- What a search finds does not depend on the order below, where no key that
is shown is there twice. -/
theorem seen_perm {bs' : List α} (h : bs.Perm bs') (hbs : ((shown L os bs').map L.key).Nodup)
    (k : κ) : seen L os bs k = seen L os bs' k := by
  rw [seen, seen]
  cases hfind : os.find? fun o => decide (L.keyOf o = k) with
  | some o => rfl
  | none =>
      have hk : k ∉ os.map L.keyOf := by simpa using hfind
      have hperm : (shown L os bs').Perm (shown L os bs) := shown_perm h.symm
      have hsearch := find?_perm hperm hbs k
      rw [find?_shown hk, find?_shown hk] at hsearch
      exact hsearch.symm

end ULib.Overlay
