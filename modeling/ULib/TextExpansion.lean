import Mathlib.Tactic.Common
import ULib.TextBuffer
import ULib.TextSearch

/-!
`UStringExt::expandTab` and `UStringExt::prepareForEnvironmentVar` of
`utility/string_ext.cpp`: when what they write lies within the memory that they
reserve for it.
-/

namespace ULib.TextExpansion

open ULib.KeyComparison
open ULib.EscapeCoding
open ULib.StringHeap (allocated)
open ULib.TextBuffer
open ULib.TextSearch

def tabulator : UInt8 := '\t'.toUInt8

def blank : UInt8 := ' '.toUInt8

def lineFeed : UInt8 := '\n'.toUInt8

def apostrophe : UInt8 := '\''.toUInt8

def equals : UInt8 := '='.toUInt8

/-! ### expandTab -/

/-- The loop, on what is behind `start`. -/
def expandTabLoop (tab : Nat) (s : Bytes) (x : Buffer) : Option Buffer :=
  match hfind : s.idxOf? tabulator with
  | some len =>
      (if 0 < len then
        (reserve x (x.data.length + len + tab)).bind fun x => put x (s.take len)
      else some x).bind fun x =>
        (put x (List.replicate (tab - x.data.length % tab) blank)).bind fun x =>
          expandTabLoop tab (s.drop (len + 1)) x
  | none => append x s
termination_by s.length
decreasing_by
  have hs : s ≠ [] := by
    rintro rfl
    cases hfind
  have hpos := List.length_pos_of_ne_nil hs
  rw [List.length_drop]
  omega

def expandTab (s : Bytes) (tab : Nat) : Option Buffer :=
  expandTabLoop tab s (created JsonValue.uCapacity)

/-! ### prepareForEnvironmentVar -/

/-- The last byte in front of the white space at an end; the first byte is not looked at. -/
def lastText (p : Bytes) : Nat → Nat
  | 0 => 0
  | ptr + 1 => if isSpace (p.getD (ptr + 1) 0) then lastText p ptr else ptr + 1

/-- Whether a blank or a quotation mark lies behind the equals sign, in front of the last byte. -/
def isQuoted (p : Bytes) (ptr : Nat) : Bool :=
  let inner := (p.take ptr).drop 1
  match inner.idxOf? equals with
  | some k => (inner.drop (k + 1)).any fun c => c = blank || c = '"'.toUInt8
  | none => false

/-- The delimiter behind the equals sign at `i`, or the last byte. -/
def valueEnd (delimiter : UInt8) (p : Bytes) (i : Nat) : Nat :=
  match (p.drop (i + 1)).idxOf? delimiter with
  | some j => i + 1 + j
  | none => p.length - 1

/-- What is copied from `p` on, whether it is put in apostrophes, and how far it goes. -/
def entry (delimiter : UInt8) (p : Bytes) : Option (Nat × Bool × Nat) :=
  match p.idxOf? equals with
  | none => none
  | some i =>
      if p.head? = some apostrophe then
        ((p.drop (i + 1)).idxOf? apostrophe).map fun j =>
          let len := i + 1 + j + 1
          (len, false, len)
      else
        let s := valueEnd delimiter p i
        let ptr := lastText p s
        some (ptr + 1, isQuoted p ptr, s)

def quotes (quoted : Bool) : Bytes := if quoted then [apostrophe] else []

/-- The loop, which ends at the last byte of the text. -/
def prepareLoop (delimiter : UInt8) : Nat → Bytes → Buffer → Option Buffer
  | 0, _, _ => none
  | k + 1, s, x =>
      match s with
      | [] | [_] => some x
      | c :: d :: t =>
          if isSpace c then prepareLoop delimiter k (d :: t) x
          else if c = '#'.toUInt8 then
            match s.idxOf? delimiter with
            | some i => prepareLoop delimiter k (s.drop i) x
            | none => some x
          else
            match entry delimiter s with
            | none => some x
            | some (len, quoted, stop) =>
                (put x (quotes quoted)).bind fun x =>
                  (put x (s.take len)).bind fun x =>
                    (put x (quotes quoted)).bind fun x =>
                      (put x [lineFeed]).bind (prepareLoop delimiter k (s.drop stop))

def prepareForEnvironmentVar (s : Bytes) : Option Buffer :=
  let delimiter := if lineFeed ∈ s then lineFeed else blank
  prepareLoop delimiter (s.length + 1) s (created ((s.length + s.length / 4) % 2 ^ 32))

/-! ### The columns of expandTab -/

/-- The next column that the tabs end in. -/
def nextStop (tab n : Nat) : Nat := n + (tab - n % tab)

/-- The capacity behind the part in front of a tab; there is no reserve for a part without text. -/
def grantedFor (tab : Nat) (x : Nat × Nat) (p : Bytes) : Nat :=
  if p = [] then x.2 else granted x.2 ((x.1 + p.length + tab) % 2 ^ 32)

/-- From a column and a capacity on: each of the tabs between the parts ends within the capacity,
and what is appended behind the last one leaves room for a NUL. -/
def TabsFit (tab : Nat) : Nat × Nat → List Bytes → Prop
  | _, [] => True
  | x, [r] => r = [] ∨ x.1 + r.length ≤ maxSize ∧
      x.1 + r.length < roomOf (granted x.2 (x.1 + r.length))
  | x, p :: q :: ps => nextStop tab (x.1 + p.length) ≤ grantedFor tab x p ∧
      TabsFit tab (nextStop tab (x.1 + p.length), grantedFor tab x p) (q :: ps)

theorem tabsFit_cons (tab : Nat) (x : Nat × Nat) (p : Bytes) {ps : List Bytes} (hps : ps ≠ []) :
    TabsFit tab x (p :: ps) ↔ nextStop tab (x.1 + p.length) ≤ grantedFor tab x p ∧
      TabsFit tab (nextStop tab (x.1 + p.length), grantedFor tab x p) ps := by
  cases ps with
  | nil => exact absurd rfl hps
  | cons q ps => rfl

/-- The buffer behind a part and its tab. -/
def tabbed (tab : Nat) (x : Buffer) (p : Bytes) : Buffer :=
  let capacity := grantedFor tab (x.data.length, x.capacity) p
  let n := x.data.length + p.length
  ⟨x.data ++ p ++ List.replicate (tab - n % tab) blank, capacity, roomOf capacity⟩

theorem length_tabbed (tab : Nat) (x : Buffer) (p : Bytes) :
    (tabbed tab x p).data.length = nextStop tab (x.data.length + p.length) := by
  rw [tabbed, List.length_append, List.length_append, List.length_replicate, nextStop]

theorem regular_tabbed {tab : Nat} {x : Buffer} (hx : Regular x) {p : Bytes}
    (hfits : nextStop tab (x.data.length + p.length) ≤
      grantedFor tab (x.data.length, x.capacity) p) : Regular (tabbed tab x p) where
  capacity_le := by
    rw [tabbed, grantedFor]
    split_ifs
    · exact hx.capacity_le
    · exact granted_le hx.capacity_le _
  room_eq := rfl
  length_le := by rwa [length_tabbed]

/-- One round of the loop. -/
theorem tab_round (tab : Nat) {x : Buffer} (hx : Regular x) (p : Bytes)
    (f : Buffer → Option Buffer) :
    ((if 0 < p.length then
        (reserve x (x.data.length + p.length + tab)).bind fun x => put x p
      else some x).bind fun x =>
        (put x (List.replicate (tab - x.data.length % tab) blank)).bind f) =
      if nextStop tab (x.data.length + p.length) ≤ grantedFor tab (x.data.length, x.capacity) p then
        f (tabbed tab x p)
      else none := by
  by_cases hp : p = []
  · subst hp
    rw [List.length_nil, if_neg (Nat.lt_irrefl 0), Option.bind_some, put, List.length_replicate,
      grantedFor, if_pos rfl, tabbed, grantedFor, if_pos rfl, ← hx.room_eq, List.append_nil]
    change (if nextStop tab x.data.length ≤ x.capacity then _ else _ : Option Buffer).bind f = _
    rw [List.length_nil, Nat.add_zero]
    split_ifs <;> rfl
  · rw [if_pos (List.length_pos_of_ne_nil hp), reserve_bind_put hx _ hp, tabbed, grantedFor,
      if_neg hp]
    rw [nextStop]
    dsimp only
    split_ifs with hput hfits hfits
    · rw [Option.bind_some, put, if_pos, Option.bind_some, List.length_append]
      · rfl
      · rwa [List.length_append, List.length_replicate]
    · rw [Option.bind_some, put, if_neg, Option.bind_none]
      rwa [List.length_append, List.length_replicate]
    · exact absurd (Nat.le_trans (Nat.le_add_right _ _) hfits) hput
    · rfl

theorem isSome_append (tab : Nat) {x : Buffer} (hx : Regular x) (r : Bytes) :
    (append x r).isSome ↔ TabsFit tab (x.data.length, x.capacity) [r] := by
  rw [TabsFit]
  by_cases hr : r = []
  · simp [append, hr]
  · rw [append_eq hx hr]
    simp only [hr, false_or]
    split_ifs with hfits
    · exact iff_of_true rfl hfits
    · exact iff_of_false Bool.false_ne_true hfits

theorem isSome_expandTabLoop {tab : Nat} {x : Buffer} (hx : Regular x) (s : Bytes) :
    (expandTabLoop tab s x).isSome ↔
      TabsFit tab (x.data.length, x.capacity) (s.splitOn tabulator) := by
  induction hn : s.length using Nat.strongRecOn generalizing s x with
  | _ n ih =>
      subst hn
      rw [expandTabLoop]
      split
      · next len hfind =>
          obtain ⟨w, u, rfl, hw, rfl⟩ := of_idxOf hfind
          have hdrop : (w ++ tabulator :: u).drop (w.length + 1) = u := by simp
          have hlength : u.length < (w ++ tabulator :: u).length := by simp; omega
          rw [List.take_left, hdrop, tab_round tab hx, List.splitOn_append_cons_self,
            List.splitOn_eq_singleton hw, List.singleton_append,
            tabsFit_cons tab _ _ (List.splitOn_ne_nil _ _)]
          split_ifs with hfits
          · rw [ih _ hlength (regular_tabbed hx hfits) u rfl, length_tabbed]
            exact (and_iff_right hfits).symm
          · exact iff_of_false Bool.false_ne_true fun h => hfits h.1
      · next hfind =>
          rw [List.splitOn_eq_singleton (List.idxOf?_eq_none_iff.mp hfind)]
          exact isSome_append tab hx s

theorem isSome_expandTab (s : Bytes) (tab : Nat) :
    (expandTab s tab).isSome ↔ TabsFit tab (0, JsonValue.uCapacity) (s.splitOn tabulator) :=
  isSome_expandTabLoop (regular_created (by decide)) s

/-! ### The entries of prepareForEnvironmentVar -/

/-- The parts of the text that are copied, with the apostrophes that they get. -/
def entriesLoop (delimiter : UInt8) : Nat → Bytes → List (Bytes × Bool)
  | 0, _ => []
  | k + 1, s =>
      match s with
      | [] | [_] => []
      | c :: d :: t =>
          if isSpace c then entriesLoop delimiter k (d :: t)
          else if c = '#'.toUInt8 then
            match s.idxOf? delimiter with
            | some i => entriesLoop delimiter k (s.drop i)
            | none => []
          else
            match entry delimiter s with
            | none => []
            | some (len, quoted, stop) =>
                (s.take len, quoted) :: entriesLoop delimiter k (s.drop stop)

def entries (s : Bytes) : List (Bytes × Bool) :=
  entriesLoop (if lineFeed ∈ s then lineFeed else blank) (s.length + 1) s

/-- An entry as it is written, on a line of its own. -/
def line (e : Bytes × Bool) : Bytes := quotes e.2 ++ e.1 ++ quotes e.2 ++ [lineFeed]

/-- The entries, a line feed for each and the apostrophes, within the room for the text and a
quarter of it. -/
def EntriesFit (s : Bytes) : Prop :=
  ((entries s).flatMap line).length ≤ (allocated ((s.length + s.length / 4) % 2 ^ 32)).1

instance (s : Bytes) : Decidable (EntriesFit s) := inferInstanceAs (Decidable (_ ≤ _))

theorem valueEnd_pos (delimiter : UInt8) {p : Bytes} (hp : 2 ≤ p.length) (i : Nat) :
    1 ≤ valueEnd delimiter p i := by
  rw [valueEnd]
  split <;> omega

theorem stop_pos {delimiter : UInt8} {p : Bytes} (hp : 2 ≤ p.length) {e : Nat × Bool × Nat}
    (h : entry delimiter p = some e) : 1 ≤ e.2.2 := by
  rw [entry] at h
  split at h
  · cases h
  · split_ifs at h
    · obtain ⟨j, -, rfl⟩ := Option.map_eq_some_iff.mp h
      exact Nat.succ_pos _
    · obtain rfl := Option.some.inj h
      exact valueEnd_pos delimiter hp _

/-- The four copies of an entry are one. -/
theorem put_line {x : Buffer} (e : Bytes × Bool) (f : Buffer → Option Buffer) :
    ((put x (quotes e.2)).bind fun x => (put x e.1).bind fun x => (put x (quotes e.2)).bind fun x =>
      (put x [lineFeed]).bind f) = (put x (line e)).bind f := by
  rw [line, ← put_append, ← put_append, ← put_append]
  simp only [Option.bind_assoc]

theorem prepareLoop_eq {delimiter : UInt8} (hdelimiter : delimiter ≠ '#'.toUInt8) {k : Nat}
    {s : Bytes} (hk : s.length < k) {x : Buffer} (hx : x.data.length ≤ x.capacity) :
    prepareLoop delimiter k s x = put x ((entriesLoop delimiter k s).flatMap line) := by
  induction k generalizing s x with
  | zero => exact absurd hk (Nat.not_lt_zero _)
  | succ k ih =>
      match s with
      | [] | [_] => exact (put_nil hx).symm
      | c :: d :: t =>
          rw [prepareLoop, entriesLoop]
          rw [List.length_cons] at hk
          split_ifs with hspace hcomment
          · exact ih (Nat.lt_of_succ_lt_succ hk) hx
          · cases hfind : (c :: d :: t).idxOf? delimiter with
            | none => exact (put_nil hx).symm
            | some i =>
                cases i with
                | zero =>
                    obtain ⟨w, u, heq, -, hw⟩ := of_idxOf hfind
                    obtain rfl := List.eq_nil_of_length_eq_zero hw
                    exact absurd ((List.cons.inj heq).1.symm.trans hcomment) hdelimiter
                | succ i => exact ih (by rw [List.length_drop, List.length_cons]; omega) hx
          · cases hentry : entry delimiter (c :: d :: t) with
            | none => exact (put_nil hx).symm
            | some e =>
                obtain ⟨len, quoted, stop⟩ := e
                have hstop := stop_pos (Nat.le_add_left 2 _) hentry
                have hlength : ((c :: d :: t).drop stop).length < k := by
                  rw [List.length_drop, List.length_cons]
                  dsimp only at hstop
                  omega
                dsimp only
                rw [List.flatMap_cons, ← put_append, put_line ((c :: d :: t).take len, quoted)]
                refine Option.bind_congr fun y hy => ?_
                exact ih hlength (le_capacity_of_put hy)

theorem isSome_prepareForEnvironmentVar (s : Bytes) :
    (prepareForEnvironmentVar s).isSome ↔ EntriesFit s := by
  have hdelimiter : (if lineFeed ∈ s then lineFeed else blank) ≠ '#'.toUInt8 := by
    split_ifs <;> decide
  have hput := put_created ((s.length + s.length / 4) % 2 ^ 32) ((entries s).flatMap line)
  rw [prepareForEnvironmentVar, prepareLoop_eq hdelimiter (Nat.lt_succ_self _) (Nat.zero_le _),
    ← entries, ← Option.isSome_map, hput, EntriesFit]
  split_ifs with hfits
  · exact iff_of_true rfl hfits
  · exact iff_of_false Bool.false_ne_true hfits

/-- Both functions stay within the memory for their results, each exactly under its condition. -/
theorem bounded_iff (s t : Bytes) (tab : Nat) :
    ((expandTab s tab).isSome ↔ TabsFit tab (0, JsonValue.uCapacity) (s.splitOn tabulator)) ∧
      ((prepareForEnvironmentVar t).isSome ↔ EntriesFit t) :=
  ⟨isSome_expandTab s tab, isSome_prepareForEnvironmentVar t⟩

/-- A tab behind nothing but tabs ends in the column of their number. -/
theorem le_of_tabsFit_replicate {tab c : Nat} {n k : Nat} (hn : n % tab = 0)
    (h : TabsFit tab (n, c) ((List.replicate k tabulator).splitOn tabulator)) :
    k = 0 ∨ n + k * tab ≤ c := by
  induction k generalizing n with
  | zero => exact Or.inl rfl
  | succ k ih =>
      have hsplit : (List.replicate (k + 1) tabulator).splitOn tabulator =
          [] :: (List.replicate k tabulator).splitOn tabulator := by
        rw [List.replicate_succ, List.splitOn_cons_eq_if_modifyHead, if_pos (beq_self_eq_true _)]
      rw [hsplit, tabsFit_cons tab _ _ (List.splitOn_ne_nil _ _)] at h
      have hstop : nextStop tab (n + 0) = n + tab := by
        rw [nextStop, Nat.add_zero, hn, Nat.sub_zero]
      have hgranted : grantedFor tab (n, c) [] = c := rfl
      rw [List.length_nil, hstop, hgranted] at h
      have hrest := ih (by rw [Nat.add_mod_right, hn]) h.2
      rw [Nat.succ_mul]
      have hfits : n + tab ≤ c := h.1
      right
      rcases hrest with rfl | hrest <;> omega

/-- Tabs alone are written behind the first block; and so are apostrophes and line feeds. -/
theorem not_bounded :
    expandTab (List.replicate 510 tabulator) 8 = none ∧
      prepareForEnvironmentVar (List.replicate 15 [97, 61, 34, 34, 10]).flatten = none := by
  rw [← Option.not_isSome_iff_eq_none, ← Option.not_isSome_iff_eq_none, isSome_expandTab,
    isSome_prepareForEnvironmentVar]
  refine ⟨fun h => ?_, by decide⟩
  have hle := le_of_tabsFit_replicate rfl h
  exact absurd hle (by decide)

end ULib.TextExpansion
