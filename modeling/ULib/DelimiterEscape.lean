import ULib.TextBuffer
import ULib.TextSearch

/-!
`UStringExt::insertEscape` and `UStringExt::removeEscape` of
`utility/string_ext.cpp`, and which texts come back.
-/

namespace ULib.DelimiterEscape

open ULib.KeyComparison
open ULib.EscapeCoding
open ULib.StringHeap
open ULib.TextBuffer
open ULib.TextSearch

/-! ### The two functions -/

theorem length_drop_lt {s : Bytes} (hs : s ≠ []) (i : Nat) :
    (s.drop (i + 1)).length < s.length := by
  have hpos := List.length_pos_of_ne_nil hs
  rw [List.length_drop]
  omega

/-- The loop of both functions, which puts `mark` for every `c`. -/
def markLoop (c : UInt8) (mark s : Bytes) (x : Buffer) : Option Buffer :=
  if s = [] then some x
  else
    match s.idxOf? c with
    | some sz =>
        (put x (s.take sz)).bind fun x => (put x mark).bind fun x =>
          markLoop c mark (s.drop (sz + 1)) x
    | none => put x s
termination_by s.length
decreasing_by exact length_drop_lt ‹¬ s = []› sz

def insertEscape (s : Bytes) (delimiter : UInt8) : Option Bytes :=
  (markLoop delimiter [backslash, delimiter] s (created (s.length * 2 % 2 ^ 32))).map Buffer.data

def removeEscape (s : Bytes) : Option Bytes :=
  (markLoop backslash [] s (created (s.length % 2 ^ 32))).map Buffer.data

/-! ### What they write -/

/-- A text with `mark` for every `c`. -/
def marked (c : UInt8) (mark s : Bytes) : Bytes := s.flatMap fun d => if d = c then mark else [d]

theorem marked_of_notMem {c : UInt8} {s : Bytes} (h : c ∉ s) (mark : Bytes) :
    marked c mark s = s := by
  induction s with
  | nil => rfl
  | cons d s ih =>
      rw [List.mem_cons, not_or] at h
      rw [marked, List.flatMap_cons, if_neg (Ne.symm h.1), ← marked, ih h.2]
      rfl

theorem marked_append (c : UInt8) (mark s t : Bytes) :
    marked c mark (s ++ t) = marked c mark s ++ marked c mark t := List.flatMap_append

theorem markLoop_eq (c : UInt8) (mark s : Bytes) {x : Buffer} (hx : x.data.length ≤ x.capacity) :
    markLoop c mark s x = put x (marked c mark s) := by
  induction hn : s.length using Nat.strongRecOn generalizing s x with
  | _ n ih =>
      subst hn
      rw [markLoop]
      split_ifs with hs
      · subst hs
        exact (put_nil hx).symm
      · cases hfind : s.idxOf? c with
        | none => rw [marked_of_notMem (List.idxOf?_eq_none_iff.mp hfind)]
        | some sz =>
            obtain ⟨w, u, rfl, hw, rfl⟩ := of_idxOf hfind
            have hdrop : (w ++ c :: u).drop (w.length + 1) = u := by simp
            have hmarked : marked c mark (w ++ c :: u) = w ++ (mark ++ marked c mark u) := by
              rw [marked_append, marked_of_notMem hw, marked, List.flatMap_cons, if_pos rfl, marked]
            have hlength := length_drop_lt hs w.length
            rw [hdrop] at hlength
            dsimp only
            rw [List.take_left, hdrop, hmarked, ← put_append]
            -- every copy leaves the text within the capacity
            cases hput : put x w with
            | none => rfl
            | some y =>
                rw [Option.bind_some, Option.bind_some, ← put_append]
                cases hput' : put y mark with
                | none => rfl
                | some z =>
                    rw [Option.bind_some, Option.bind_some]
                    exact ih _ hlength u (le_capacity_of_put hput') rfl

theorem length_marked_le {c : UInt8} {mark : Bytes} (hmark : mark.length ≤ 2) (s : Bytes) :
    (marked c mark s).length ≤ s.length * 2 := by
  induction s with
  | nil => exact Nat.le_refl 0
  | cons d s ih =>
      have hone : (if d = c then mark else [d]).length ≤ 2 := by
        split_ifs
        · exact hmark
        · exact Nat.le_succ 1
      rw [marked, List.flatMap_cons, List.length_append, List.length_cons, ← marked]
      omega

theorem length_le_marked {c : UInt8} {mark : Bytes} (hmark : mark ≠ []) (s : Bytes) :
    s.length ≤ (marked c mark s).length := by
  have hpos := List.length_pos_of_ne_nil hmark
  induction s with
  | nil => exact Nat.le_refl 0
  | cons d s ih =>
      have hone : 1 ≤ (if d = c then mark else [d]).length := by
        split_ifs
        · exact hpos
        · exact Nat.le_refl 1
      rw [marked, List.flatMap_cons, List.length_append, List.length_cons, ← marked]
      omega

theorem insertEscape_eq (s : Bytes) (delimiter : UInt8) :
    insertEscape s delimiter =
      if (marked delimiter [backslash, delimiter] s).length ≤
          (allocated (s.length * 2 % 2 ^ 32)).1 then
        some (marked delimiter [backslash, delimiter] s)
      else none := by
  rw [insertEscape, markLoop_eq _ _ _ (Nat.zero_le _), put_created]

theorem removeEscape_eq (s : Bytes) :
    removeEscape s =
      if (marked backslash [] s).length ≤ (allocated (s.length % 2 ^ 32)).1 then
        some (marked backslash [] s)
      else none := by
  rw [removeEscape, markLoop_eq _ _ _ (Nat.zero_le _), put_created]

/-! ### The round trip -/

theorem removed_inserted {delimiter : UInt8} (hd : delimiter ≠ backslash) (s : Bytes) :
    marked backslash [] (marked delimiter [backslash, delimiter] s) = marked backslash [] s := by
  induction s with
  | nil => rfl
  | cons c s ih =>
      rw [marked.eq_def delimiter, List.flatMap_cons, ← marked, marked_append, ih,
        marked.eq_def backslash _ (c :: s), List.flatMap_cons, ← marked]
      split_ifs with hc hb hb
      · exact absurd (hc.symm.trans hb) hd
      · subst hc
        simp [marked, hd]
      · subst hb
        simp [marked]
      · simp [marked, *]

/-- All backslashes go. -/
theorem removed_eq_iff {s : Bytes} : marked backslash [] s = s ↔ backslash ∉ s := by
  refine ⟨fun h hmem => ?_, fun h => marked_of_notMem h []⟩
  rw [← h, marked, List.mem_flatMap] at hmem
  obtain ⟨c, -, hc⟩ := hmem
  split_ifs at hc with hb
  · cases hc
  · exact hb (List.mem_singleton.mp hc).symm

/-- The escaped text fits as long as twice its length can be counted, in whole pages. -/
theorem inserted_fits_iff {s : Bytes} (hs : s.length < 2 ^ 32) (delimiter : UInt8) :
    (marked delimiter [backslash, delimiter] s).length ≤ (allocated (s.length * 2 % 2 ^ 32)).1 ↔
      s.length * 2 ≤ 2 ^ 32 - 4096 :=
  double_fits_iff hs (length_le_marked (List.cons_ne_nil _ _) s)
    (@length_marked_le delimiter [backslash, delimiter] (Nat.le_refl 2) s)

/-- A text comes back exactly when it has no backslash and is not too long for the result. -/
theorem removeEscape_insertEscape_iff {s : Bytes} {delimiter : UInt8} (hs : s.length < 2 ^ 32)
    (hdelimiter : delimiter ≠ backslash) :
    (insertEscape s delimiter).bind removeEscape = some s ↔
      backslash ∉ s ∧ s.length * 2 ≤ 2 ^ 32 - 4096 := by
  have hle := @length_marked_le delimiter [backslash, delimiter] (Nat.le_refl 2) s
  rw [insertEscape_eq, ← inserted_fits_iff hs delimiter, ← removed_eq_iff]
  constructor
  · intro h
    split_ifs at h with hfits
    · rw [Option.bind_some, removeEscape_eq] at h
      split_ifs at h
      rw [removed_inserted hdelimiter, Option.some.injEq] at h
      exact ⟨h, hfits⟩
    · cases h
  · rintro ⟨heq, hfits⟩
    have hsmall := (inserted_fits_iff hs delimiter).mp hfits
    rw [if_pos hfits, Option.bind_some, removeEscape_eq, removed_inserted hdelimiter, heq, if_pos]
    rw [Nat.mod_eq_of_lt (by omega)]
    have hge := @length_le_marked delimiter [backslash, delimiter] (List.cons_ne_nil _ _) s
    exact Nat.le_trans hge (le_allocated (by rw [maxSize]; omega))

theorem escape_round_trip : (insertEscape [97, 44, 98] 44).bind removeEscape = some [97, 44, 98] :=
  (removeEscape_insertEscape_iff (by decide) (by decide)).mpr (by decide)

/-- The backslash is gone. -/
theorem not_escape_round_trip :
    (insertEscape [97, 92, 44] 44).bind removeEscape ≠ some [97, 92, 44] := by
  rw [insertEscape_eq]
  simp only [removeEscape_eq]
  decide

end ULib.DelimiterEscape
