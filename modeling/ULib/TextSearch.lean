import Mathlib.Data.List.Basic
import Mathlib.Data.Nat.Find
import Mathlib.Tactic.Common

/-!
Searching in a list: the first element of a kind, and the first position at
which a given list stands.
-/

namespace ULib.TextSearch

variable {α : Type*} [DecidableEq α]

/-- `memchr`: the first position from `pos` on. -/
def find (t : List α) (c : α) (pos : Nat) : Option Nat := ((t.drop pos).idxOf? c).map (pos + ·)

/-- `memmem`: the first position at which `w` stands. -/
def search (w : List α) : List α → Option Nat
  | [] => if w = [] then some 0 else none
  | c :: t => if w.isPrefixOf (c :: t) then some 0 else (search w t).map (· + 1)

theorem idxOf_append_cons {w : List α} {c : α} (h : c ∉ w) (t : List α) :
    (w ++ c :: t).idxOf? c = some w.length := by
  induction w with
  | nil => simp [List.idxOf?_cons]
  | cons d w ih =>
      have hd : d ≠ c := fun hd => h (hd ▸ List.mem_cons_self)
      have hrest := ih fun hmem => h (List.mem_cons_of_mem d hmem)
      rw [List.cons_append, List.idxOf?_cons, if_neg (by simpa using hd), hrest]
      rfl

/-- The first `c` behind a part `w` without one. -/
theorem find_eq_some {t u w : List α} {c : α} {pos : Nat} (ht : t.drop pos = w ++ c :: u)
    (h : c ∉ w) : find t c pos = some (pos + w.length) := by
  rw [find, ht, idxOf_append_cons h]
  rfl

theorem find_eq_none {t : List α} {c : α} {pos : Nat} (h : c ∉ t.drop pos) :
    find t c pos = none := by
  rw [find, List.idxOf?_eq_none_iff.mpr h]
  rfl

theorem of_idxOf {t : List α} {c : α} {i : Nat} (h : t.idxOf? c = some i) :
    ∃ w u, t = w ++ c :: u ∧ c ∉ w ∧ w.length = i := by
  induction t generalizing i with
  | nil => simp at h
  | cons d t ih =>
      rw [List.idxOf?_cons] at h
      split_ifs at h with hd
      · cases h
        exact ⟨[], t, by rw [eq_of_beq hd]; rfl, List.not_mem_nil, rfl⟩
      · obtain ⟨k, hk, rfl⟩ := Option.map_eq_some_iff.mp h
        obtain ⟨w, u, rfl, hw, rfl⟩ := ih hk
        refine ⟨d :: w, u, rfl, ?_, rfl⟩
        simp only [List.mem_cons, not_or]
        exact ⟨fun hcd => hd (by simp [hcd]), hw⟩

/-- What stands at a position that was found. -/
theorem of_find {t : List α} {c : α} {pos i : Nat} (h : find t c pos = some i) :
    ∃ w u, t.drop pos = w ++ c :: u ∧ c ∉ w ∧ pos + w.length = i := by
  obtain ⟨k, hk, rfl⟩ := Option.map_eq_some_iff.mp h
  obtain ⟨w, u, hdrop, hw, rfl⟩ := of_idxOf hk
  exact ⟨w, u, hdrop, hw, rfl⟩

/-! ### Lists -/

variable {w : List α}

theorem search_prefix {t : List α} (h : w <+: t) : search w t = some 0 := by
  cases t with
  | nil => rw [search, if_pos (List.prefix_nil.mp h)]
  | cons c t => rw [search, if_pos (List.isPrefixOf_iff_prefix.mpr h)]

/-- The search goes past a part in which the list does not begin. -/
theorem search_skip {p t : List α}
    (h : ∀ q r, p = q ++ r → r ≠ [] → ¬ w <+: r ++ t) :
    search w (p ++ t) = (search w t).map (p.length + ·) := by
  induction p with
  | nil => simp
  | cons c p ih =>
      have hhead : ¬ w <+: c :: p ++ t := h [] (c :: p) rfl (List.cons_ne_nil c p)
      have hrest := ih fun q r hqr => h (c :: q) r (by rw [hqr]; rfl)
      rw [List.cons_append, search, if_neg (by rwa [List.isPrefixOf_iff_prefix]), hrest,
        Option.map_map]
      congr 1
      funext n
      simp only [Function.comp, List.length_cons]
      omega

/-- A position that was found is the first. -/
theorem of_search {t : List α} {i : Nat} (h : search w t = some i) :
    w <+: t.drop i ∧ ∀ j < i, ¬ w <+: t.drop j := by
  induction t generalizing i with
  | nil =>
      rw [search] at h
      split_ifs at h with hw
      cases h
      exact ⟨hw ▸ List.nil_prefix, fun j hj => absurd hj (Nat.not_lt_zero j)⟩
  | cons c t ih =>
      rw [search] at h
      split_ifs at h with hpre
      · cases h
        exact ⟨List.isPrefixOf_iff_prefix.mp hpre, fun j hj => absurd hj (Nat.not_lt_zero j)⟩
      · obtain ⟨k, hk, rfl⟩ := Option.map_eq_some_iff.mp h
        obtain ⟨hfound, hfirst⟩ := ih hk
        refine ⟨hfound, fun j hj => ?_⟩
        cases j with
        | zero => rwa [List.drop_zero, ← List.isPrefixOf_iff_prefix]
        | succ j => exact hfirst j (by omega)

theorem search_none {t : List α} (h : ∀ i, ¬ w <+: t.drop i) : search w t = none := by
  cases hfound : search w t with
  | none => rfl
  | some i => exact absurd (of_search hfound).1 (h i)

theorem search_some {t : List α} {i : Nat} (hi : i ≤ t.length) (hfound : w <+: t.drop i)
    (hfirst : ∀ j < i, ¬ w <+: t.drop j) : search w t = some i := by
  have hsplit : t = t.take i ++ t.drop i := (List.take_append_drop i t).symm
  have hlength : (t.take i).length = i := List.length_take_of_le hi
  have hskip : ∀ q r, t.take i = q ++ r → r ≠ [] → ¬ w <+: r ++ t.drop i := by
    intro q r hqr hr hpre
    have hq : q.length < i := by
      rw [← hlength, hqr, List.length_append]
      have := List.length_pos_of_ne_nil hr
      omega
    refine hfirst q.length hq ?_
    rwa [hsplit, hqr, List.append_assoc, List.drop_left]
  rw [hsplit, search_skip hskip, search_prefix hfound, hlength]
  rfl

/-- Where the list stands somewhere, it is found there or before. -/
theorem exists_search {t : List α} {i : Nat} (hi : i ≤ t.length) (h : w <+: t.drop i) :
    ∃ k ≤ i, search w t = some k := by
  classical
  have hex : ∃ i, w <+: t.drop i := ⟨i, h⟩
  have hle : Nat.find hex ≤ i := Nat.find_min' hex h
  exact ⟨Nat.find hex, hle, search_some (Nat.le_trans hle hi) (Nat.find_spec hex) fun j hj =>
    Nat.find_min hex hj⟩

/-- What comes behind does not change what was found. -/
theorem search_append_of_some {a : List α} {i : Nat} (h : search w a = some i) (b : List α) :
    search w (a ++ b) = some i := by
  obtain ⟨hfound, hfirst⟩ := of_search h
  have hle := hfound.length_le
  rw [List.length_drop] at hle
  by_cases hw : w = []
  · subst hw
    cases a with
    | nil =>
        obtain rfl : 0 = i := Option.some.inj (by rw [← h, search, if_pos rfl])
        exact search_prefix List.nil_prefix
    | cons c a =>
        obtain rfl : 0 = i := Option.some.inj (by rw [← h]; rfl)
        exact search_prefix List.nil_prefix
  · have hpos := List.length_pos_of_ne_nil hw
    have hdrop : ∀ j ≤ i, (a ++ b).drop j = a.drop j ++ b := fun j hj =>
      List.drop_append_of_le_length (by omega)
    refine search_some (by rw [List.length_append]; omega) ?_ fun j hj hpre => ?_
    · rw [hdrop i (Nat.le_refl i)]
      exact hfound.trans (List.prefix_append _ _)
    · rw [hdrop j (Nat.le_of_lt hj)] at hpre
      refine hfirst j hj (List.prefix_of_prefix_length_le hpre (List.prefix_append _ _) ?_)
      rw [List.length_drop]
      omega

/-- A part that ends in an element that the list has not is gone past. -/
theorem search_append_of_none {a : List α} (h : search w a = none)
    (hlast : ∀ s ∈ a.getLast?, s ∉ w) (b : List α) :
    search w (a ++ b) = (search w b).map (a.length + ·) := by
  apply search_skip
  rintro q r rfl hr hpre
  rcases List.prefix_or_prefix_of_prefix hpre (List.prefix_append r b) with hwr | hrw
  · have hdrop : (q ++ r).drop q.length = r := List.drop_left
    obtain ⟨k, -, hk⟩ := exists_search (w := w) (t := q ++ r) (i := q.length)
      (by rw [List.length_append]; omega) (by rwa [hdrop])
    rw [h] at hk
    cases hk
  · refine hlast (r.getLast hr) ?_ (hrw.subset (List.getLast_mem hr))
    rw [List.getLast?_append, List.getLast?_eq_getLast_of_ne_nil hr]
    rfl

end ULib.TextSearch
