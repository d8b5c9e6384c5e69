import Mathlib.Data.List.TakeWhile
import ULib.JsonParser
import ULib.TextSearch

/-!
`UStringExt::getValueFromName` of `utility/string_ext.cpp`: the value of a
header in the lines `name: value` of a buffer. Behind the text of the buffer is
a NUL.
-/

namespace ULib.HeaderLookup

open ULib.KeyComparison
open ULib.EscapeCoding
open ULib.JsonParser (skipSpaces)
open ULib.TextSearch hiding find

def colon : UInt8 := ':'.toUInt8

/-- `UStringRep::fold` -/
def fold (buffer : Bytes) (pos off : Nat) : Nat := min off ((buffer.length + 2 ^ 32 - pos) % 2 ^ 32)

/-- `UString::find` -/
def find (buffer name : Bytes) (pos howMuch : Nat) : Option Nat :=
  (search name ((buffer.drop pos).take (fold buffer pos howMuch))).map (pos + ·)

/-- `UString::findnocase`; the number of positions is an `int32_t`. -/
def findnocase (buffer name : Bytes) (pos howMuch : Nat) : Option Nat :=
  let n := fold buffer pos howMuch
  let e := (n + 2 ^ 32 + 1 - name.length) % 2 ^ 32
  if 0 < e ∧ e < 2 ^ 31 then
    (search (name.map tolower) (((buffer.drop pos).take n).map tolower)).map (pos + ·)
  else none

/-- `header_line` -/
def headerLine (buffer name : Bytes) (pos len : Nat) (nocase : Bool) : Option Nat :=
  match find buffer name pos len with
  | some i => some i
  | none => if nocase then findnocase buffer name pos len else none

/-- The loop of `getValueFromName`; every round goes behind a name, and the outer `none` is a loop
that did not end in so many rounds. -/
def getValueLoop (buffer : Bytes) (finish : Nat) (name : Bytes) (nocase : Bool) :
    Nat → Nat → Nat → Option (Option Nat)
  | 0, _, _ => none
  | fuel + 1, pos, len =>
      match headerLine buffer name pos len nocase with
      | none => some none
      | some i =>
          let ptr := skipSpaces buffer (i + name.length)
          if peek buffer ptr ≠ colon then
            getValueLoop buffer finish name nocase fuel ptr ((finish + 2 ^ 32 - ptr) % 2 ^ 32)
          else some (some (skipSpaces buffer (ptr + 1)))

def getValueFromName (buffer : Bytes) (pos len : Nat) (name : Bytes) (nocase : Bool) :
    Option (Option Nat) :=
  getValueLoop buffer (pos + len) name nocase (buffer.length + 1) pos len

/-! ### What the search meets -/

/-- What is behind the occurrences of a name in a text, each of which is looked for behind the one
before it, and behind the white space that follows them. -/
def behindLoop (f : UInt8 → UInt8) (w : Bytes) : Nat → Bytes → List Bytes
  | 0, _ => []
  | fuel + 1, x =>
      match search (w.map f) (x.map f) with
      | none => []
      | some i =>
          let u := (x.drop (i + w.length)).dropWhile isSpace
          u :: behindLoop f w fuel u

def behind (f : UInt8 → UInt8) (w x : Bytes) : List Bytes := behindLoop f w x.length x

/-- What is left when the name is not there any more. -/
def rest (w x : Bytes) : Bytes := (behind id w x).getLast?.getD x

/-- Without regard to case a name is looked for only where it does not occur as it is, and only in
less than 2^31 bytes. -/
def met (nocase : Bool) (w x : Bytes) : List Bytes :=
  behind id w x ++
    if nocase ∧ (rest w x).length + 1 < 2 ^ 31 + w.length then behind tolower w (rest w x) else []

section
variable {f : UInt8 → UInt8} {w : Bytes} (hw : w ≠ [])
include hw

theorem lt_of_search {x : Bytes} {i : Nat} (h : search (w.map f) (x.map f) = some i) :
    i + w.length ≤ x.length := by
  have hle := (of_search h).1.length_le
  have hpos := List.length_pos_of_ne_nil hw
  rw [List.length_map, List.length_drop, List.length_map] at hle
  omega

theorem length_next_lt {x : Bytes} {i : Nat} (h : search (w.map f) (x.map f) = some i) :
    ((x.drop (i + w.length)).dropWhile isSpace).length + w.length ≤ x.length := by
  have hle := lt_of_search hw h
  have hdrop := List.length_dropWhile_le isSpace (x.drop (i + w.length))
  rw [List.length_drop] at hdrop
  omega

theorem search_nil : search (w.map f) [] = none := by
  rw [search, if_neg]
  rwa [List.map_eq_nil_iff]

theorem behindLoop_nil (k : Nat) : behindLoop f w k [] = [] := by
  cases k with
  | zero => rfl
  | succ k => rw [behindLoop, List.map_nil, search_nil hw]

theorem behindLoop_fuel (j k : Nat) {x : Bytes} (hj : x.length ≤ j) (hk : x.length ≤ k) :
    behindLoop f w j x = behindLoop f w k x := by
  induction j generalizing k x with
  | zero =>
      rw [List.eq_nil_of_length_eq_zero (Nat.le_zero.mp hj), behindLoop_nil hw, behindLoop_nil hw]
  | succ j ih =>
      cases k with
      | zero =>
          rw [List.eq_nil_of_length_eq_zero (Nat.le_zero.mp hk), behindLoop_nil hw,
            behindLoop_nil hw]
      | succ k =>
          rw [behindLoop, behindLoop]
          cases hfind : search (w.map f) (x.map f) with
          | none => rfl
          | some i =>
              have hlt := length_next_lt hw hfind
              have hpos := List.length_pos_of_ne_nil hw
              dsimp only
              rw [ih k (by omega) (by omega)]

theorem behind_of_none {x : Bytes} (h : search (w.map f) (x.map f) = none) :
    behind f w x = [] := by
  rw [behind, behindLoop_fuel hw x.length (x.length + 1) (Nat.le_refl _) (Nat.le_succ _),
    behindLoop, h]

theorem behind_of_some {x : Bytes} {i : Nat} (h : search (w.map f) (x.map f) = some i) :
    behind f w x = (x.drop (i + w.length)).dropWhile isSpace ::
      behind f w ((x.drop (i + w.length)).dropWhile isSpace) := by
  have hlt := length_next_lt hw h
  have hpos := List.length_pos_of_ne_nil hw
  rw [behind, behindLoop_fuel hw x.length (x.length + 1) (Nat.le_refl _) (Nat.le_succ _),
    behindLoop, h]
  dsimp only
  rw [behindLoop_fuel hw x.length _ (by omega) (Nat.le_refl _), behind]

/-- Every occurrence takes the bytes of the name. -/
theorem length_behind {x u : Bytes} (hu : u ∈ behind f w x) :
    u.length + w.length ≤ x.length ∧
      (u.length + w.length = x.length → w.map f <+: x.map f) := by
  generalize hn : x.length = n
  induction n using Nat.strong_induction_on generalizing x with
  | _ n ih =>
      cases hfind : search (w.map f) (x.map f) with
      | none =>
          rw [behind_of_none hw hfind] at hu
          cases hu
      | some i =>
          have hle := lt_of_search hw hfind
          have hlt := length_next_lt hw hfind
          have hpos := List.length_pos_of_ne_nil hw
          rw [behind_of_some hw hfind] at hu
          rcases List.mem_cons.mp hu with rfl | hu
          · refine ⟨by omega, fun heq => ?_⟩
            have hdrop := List.length_dropWhile_le isSpace (x.drop (i + w.length))
            rw [List.length_drop] at hdrop
            obtain rfl : i = 0 := by omega
            exact (of_search hfind).1
          · have hrest := (ih _ (by omega) hu rfl).1
            exact ⟨by omega, fun heq => by omega⟩

theorem suffix_of_mem_behind {x u : Bytes} (hu : u ∈ behind f w x) : u <:+ x := by
  generalize hn : x.length = n
  induction n using Nat.strong_induction_on generalizing x with
  | _ n ih =>
      cases hfind : search (w.map f) (x.map f) with
      | none =>
          rw [behind_of_none hw hfind] at hu
          cases hu
      | some i =>
          have hlt := length_next_lt hw hfind
          have hpos := List.length_pos_of_ne_nil hw
          have hnext : (x.drop (i + w.length)).dropWhile isSpace <:+ x :=
            (List.dropWhile_suffix isSpace).trans (List.drop_suffix _ x)
          rw [behind_of_some hw hfind] at hu
          rcases List.mem_cons.mp hu with rfl | hu
          · exact hnext
          · exact (ih _ (by omega) hu rfl).trans hnext

/-! ### Texts one behind the other -/

/-- The text ends in white space, if it is not empty. -/
def Ended (a : Bytes) : Prop := ∀ s ∈ a.getLast?, isSpace s = true

omit hw in
theorem Ended.suffix {a u : Bytes} (h : Ended a) (hu : u <:+ a) : Ended u := by
  obtain ⟨y, rfl⟩ := hu
  intro s hs
  refine h s ?_
  rw [List.getLast?_append, Option.mem_def.mp hs]
  rfl

/-- What is met in a text, when another one comes behind it. -/
def glue (b u : Bytes) : Bytes := if u = [] then b else u ++ b

omit hw in
theorem dropWhile_glue (y : Bytes) {b : Bytes} (hb : b.dropWhile isSpace = b) :
    (y ++ b).dropWhile isSpace = glue b (y.dropWhile isSpace) := by
  rw [List.dropWhile_append, glue, hb]
  simp only [List.isEmpty_iff]

variable (hf : ∀ c ∈ w, ∀ s, isSpace s = true → f s ≠ f c)
include hf

theorem behind_append {a b : Bytes} (ha : Ended a) (hb : b.dropWhile isSpace = b) :
    behind f w (a ++ b) = (behind f w a).map (glue b) ++ behind f w b := by
  generalize hn : a.length = n
  induction n using Nat.strong_induction_on generalizing a with
  | _ n ih =>
      cases hfind : search (w.map f) (a.map f) with
      | none =>
          rw [behind_of_none hw hfind, List.map_nil, List.nil_append]
          have hlast : ∀ s ∈ (a.map f).getLast?, s ∉ w.map f := by
            intro s hs hmem
            rw [List.getLast?_map] at hs
            obtain ⟨t, ht, rfl⟩ := Option.map_eq_some_iff.mp hs
            obtain ⟨c, hc, hct⟩ := List.mem_map.mp hmem
            exact hf c hc t (ha t ht) hct.symm
          have hsearch := search_append_of_none hfind hlast (b.map f)
          rw [← List.map_append] at hsearch
          cases hnext : search (w.map f) (b.map f) with
          | none =>
              rw [hnext] at hsearch
              rw [behind_of_none hw hnext, behind_of_none hw hsearch]
          | some i =>
              rw [hnext, Option.map_some, List.length_map] at hsearch
              rw [behind_of_some hw hnext, behind_of_some hw hsearch, Nat.add_assoc,
                List.drop_append, List.drop_eq_nil_of_le (Nat.le_add_right _ _),
                Nat.add_sub_cancel_left, List.nil_append]
      | some i =>
          have hlt := length_next_lt hw hfind
          have hpos := List.length_pos_of_ne_nil hw
          have hle := lt_of_search hw hfind
          have hsearch := search_append_of_some hfind (b.map f)
          rw [← List.map_append] at hsearch
          have hdrop : (a ++ b).drop (i + w.length) = a.drop (i + w.length) ++ b := by
            rw [List.drop_append_of_le_length hle]
          have hsuffix : (a.drop (i + w.length)).dropWhile isSpace <:+ a :=
            (List.dropWhile_suffix isSpace).trans (List.drop_suffix _ a)
          rw [behind_of_some hw hfind, behind_of_some hw hsearch, hdrop, dropWhile_glue _ hb,
            List.map_cons, List.cons_append]
          congr 1
          generalize (a.drop (i + w.length)).dropWhile isSpace = u at hlt hsuffix ⊢
          by_cases hu : u = []
          · subst hu
            rw [glue, if_pos rfl]
            rfl
          · rw [glue, if_neg hu]
            exact ih u.length (by omega) (ha.suffix hsuffix) rfl

end

/-! ### Rounds of the search -/

/-- Where the name is met in what is searched. -/
def visit (nocase : Bool) (w x : Bytes) : Option Nat :=
  match search w x with
  | some i => some i
  | none =>
      if nocase ∧ x.length + 1 < 2 ^ 31 + w.length then search (w.map tolower) (x.map tolower)
      else none

section
variable {w : Bytes} (hw : w ≠ [])
include hw

theorem search_of_suffix {x u : Bytes} (h : search w x = none) (hu : u <:+ x) :
    search w u = none := by
  obtain ⟨y, rfl⟩ := hu
  cases hfind : search w u with
  | none => rfl
  | some i =>
      have hfound := (of_search hfind).1
      have hle := hfound.length_le
      have hpos := List.length_pos_of_ne_nil hw
      rw [List.length_drop] at hle
      have hdrop : (y ++ u).drop (y.length + i) = u.drop i := by
        rw [List.drop_append, List.drop_eq_nil_of_le (Nat.le_add_right _ _),
          Nat.add_sub_cancel_left, List.nil_append]
      obtain ⟨k, -, hk⟩ := exists_search (w := w) (t := y ++ u) (i := y.length + i)
        (by rw [List.length_append]; omega) (by rwa [hdrop])
      rw [h] at hk
      cases hk

theorem visit_le {nocase : Bool} {x : Bytes} {i : Nat} (h : visit nocase w x = some i) :
    i + w.length ≤ x.length := by
  rw [visit] at h
  cases hfind : search w x with
  | some k =>
      rw [hfind] at h
      obtain rfl := Option.some.inj h
      refine @lt_of_search id w hw x k ?_
      rwa [List.map_id, List.map_id]
  | none =>
      rw [hfind] at h
      dsimp only at h
      split_ifs at h
      exact lt_of_search hw h

theorem met_of_none {nocase : Bool} {x : Bytes} (h : visit nocase w x = none) :
    met nocase w x = [] := by
  rw [visit] at h
  cases hfind : search w x with
  | some k =>
      rw [hfind] at h
      cases h
  | none =>
      rw [hfind] at h
      dsimp only at h
      have hnone : behind id w x = [] := behind_of_none hw (by rwa [List.map_id, List.map_id])
      rw [met, rest, hnone, List.nil_append]
      change (if nocase = true ∧ x.length + 1 < 2 ^ 31 + w.length then _ else _) = _
      split_ifs at h ⊢
      · exact behind_of_none hw h
      · rfl

theorem met_of_some {nocase : Bool} {x : Bytes} {i : Nat} (h : visit nocase w x = some i) :
    met nocase w x = (x.drop (i + w.length)).dropWhile isSpace ::
      met nocase w ((x.drop (i + w.length)).dropWhile isSpace) := by
  rw [visit] at h
  cases hfind : search w x with
  | some k =>
      rw [hfind] at h
      obtain rfl := Option.some.inj h
      have hsome : search (w.map id) (x.map id) = some k := by rwa [List.map_id, List.map_id]
      have hbehind := behind_of_some hw hsome
      have hrest : rest w x = rest w ((x.drop (k + w.length)).dropWhile isSpace) := by
        rw [rest, hbehind, List.getLast?_cons]
        rfl
      rw [met, met, hrest, hbehind]
      rfl
  | none =>
      rw [hfind] at h
      dsimp only at h
      have hnil : ∀ {u}, u <:+ x → behind id w u = [] := fun hu =>
        behind_of_none hw (by rw [List.map_id, List.map_id]; exact search_of_suffix hw hfind hu)
      have hmet : ∀ {u}, u <:+ x → met nocase w u =
          if nocase = true ∧ u.length + 1 < 2 ^ 31 + w.length then behind tolower w u else [] := by
        intro u hu
        rw [met, rest, hnil hu]
        rfl
      split_ifs at h with hcond
      have hsuffix : (x.drop (i + w.length)).dropWhile isSpace <:+ x :=
        (List.dropWhile_suffix isSpace).trans (List.drop_suffix _ x)
      have hlt := length_next_lt hw h
      rw [hmet (List.suffix_refl x), hmet hsuffix, if_pos hcond, if_pos ⟨hcond.1, by omega⟩,
        behind_of_some hw h]

/-! ### The loop -/

omit hw in
theorem drop_skipSpaces (buffer : Bytes) (pos : Nat) :
    buffer.drop (skipSpaces buffer pos) = (buffer.drop pos).dropWhile isSpace := by
  rw [skipSpaces, ← List.drop_drop]
  nth_rewrite 2 [← List.takeWhile_append_dropWhile (p := isSpace) (l := buffer.drop pos)]
  exact List.drop_left

omit hw in
theorem skipSpaces_of_le {buffer : Bytes} {pos : Nat} (h : pos ≤ buffer.length) :
    skipSpaces buffer pos = buffer.length - ((buffer.drop pos).dropWhile isSpace).length := by
  have hdrop := congrArg List.length (drop_skipSpaces buffer pos)
  have hle : skipSpaces buffer pos ≤ buffer.length := by
    have htake := (List.takeWhile_prefix isSpace (l := buffer.drop pos)).length_le
    rw [List.length_drop] at htake
    rw [skipSpaces]
    omega
  rw [List.length_drop] at hdrop
  omega

omit hw in
theorem peek_eq_colon (buffer : Bytes) (pos : Nat) :
    peek buffer pos = colon ↔ (buffer.drop pos).head? = some colon := by
  rw [List.head?_drop, peek, List.getD_eq_getElem?_getD]
  cases buffer[pos]? with
  | none => exact iff_of_false (by decide) (by simp)
  | some c => simp

theorem findnocase_eq {buffer : Bytes} {pos len : Nat} (hlt : fold buffer pos len < 2 ^ 32)
    {x : Bytes} (hx : (buffer.drop pos).take (fold buffer pos len) = x)
    (hlength : x.length = fold buffer pos len) :
    findnocase buffer w pos len =
      (if x.length + 1 < 2 ^ 31 + w.length then search (w.map tolower) (x.map tolower)
        else none).map (pos + ·) := by
  rw [findnocase, hx, ← hlength]
  rw [← hlength] at hlt
  by_cases hle : w.length ≤ x.length
  · have hpos := List.length_pos_of_ne_nil hw
    have he : (x.length + 2 ^ 32 + 1 - w.length) % 2 ^ 32 = x.length + 1 - w.length := by
      rw [show x.length + 2 ^ 32 + 1 - w.length = x.length + 1 - w.length + 2 ^ 32 by omega,
        Nat.add_mod_right, Nat.mod_eq_of_lt (by omega)]
    rw [he]
    by_cases hsize : x.length + 1 < 2 ^ 31 + w.length
    · rw [if_pos hsize, if_pos ⟨by omega, by omega⟩]
    · rw [if_neg hsize, if_neg fun h => hsize (by omega)]
      rfl
  · have hnone : search (w.map tolower) (x.map tolower) = none := by
      cases hfind : search (w.map tolower) (x.map tolower) with
      | none => rfl
      | some i => exact absurd (lt_of_search hw hfind) (by omega)
    rw [hnone, Option.map_none]
    split_ifs <;> rfl

theorem headerLine_eq {buffer : Bytes} {pos len : Nat} (hlt : fold buffer pos len < 2 ^ 32)
    {x : Bytes} (hx : (buffer.drop pos).take (fold buffer pos len) = x)
    (hlength : x.length = fold buffer pos len) (nocase : Bool) :
    headerLine buffer w pos len nocase = (visit nocase w x).map (pos + ·) := by
  rw [headerLine, find, hx, visit]
  cases search w x with
  | some i => rfl
  | none =>
      cases nocase with
      | false => rfl
      | true => simpa using findnocase_eq hw hlt hx hlength

/-- Whether a colon follows. -/
def marked (s : Bytes) : Bool := s.head? = some colon

/-- Behind a colon and white space. -/
def valueOf (s : Bytes) : Bytes := s.tail.dropWhile isSpace

omit hw in
theorem marked_iff {s : Bytes} : marked s = true ↔ s.head? = some colon := decide_eq_true_iff

omit hw in
theorem length_valueOf_lt {s : Bytes} (h : s.head? = some colon) :
    (valueOf s).length < s.length := by
  cases s with
  | nil => cases h
  | cons c s => exact Nat.lt_succ_of_le (List.length_dropWhile_le isSpace s)

/-- A round goes to what is behind the name and white space. -/
theorem getValueLoop_succ {buffer x post : Bytes} {pos len finish : Nat}
    (hpos : pos ≤ buffer.length)
    (hdrop : buffer.drop pos = x ++ post) (hfold : fold buffer pos len = x.length)
    (hlt : x.length < 2 ^ 32) (nocase : Bool) (k : Nat) :
    getValueLoop buffer finish w nocase (k + 1) pos len =
      match visit nocase w x with
      | none => some none
      | some i =>
          let s := (x.drop (i + w.length) ++ post).dropWhile isSpace
          if s.head? = some colon then some (some (buffer.length - (valueOf s).length))
          else getValueLoop buffer finish w nocase k (buffer.length - s.length)
            ((finish + 2 ^ 32 - (buffer.length - s.length)) % 2 ^ 32) := by
  have hx : (buffer.drop pos).take (fold buffer pos len) = x := by
    rw [hdrop, hfold, List.take_left]
  rw [getValueLoop, headerLine_eq hw (hfold ▸ hlt) hx hfold.symm]
  cases hvisit : visit nocase w x with
  | none => rfl
  | some i =>
      have hle := visit_le hw hvisit
      have hlength := congrArg List.length hdrop
      rw [List.length_drop, List.length_append] at hlength
      have hbehind : buffer.drop (pos + i + w.length) = x.drop (i + w.length) ++ post := by
        rw [Nat.add_assoc, ← List.drop_drop, hdrop, List.drop_append_of_le_length hle]
      have hskip := skipSpaces_of_le (show pos + i + w.length ≤ buffer.length by omega)
      have hat := drop_skipSpaces buffer (pos + i + w.length)
      rw [hbehind] at hskip hat
      rw [Option.map_some]
      dsimp only
      simp only [ne_eq, peek_eq_colon, hat, ite_not]
      split_ifs with hcolon
      · have hnext : buffer.drop (skipSpaces buffer (pos + i + w.length) + 1) =
            ((x.drop (i + w.length) ++ post).dropWhile isSpace).tail := by
          rw [← List.drop_drop, hat, List.drop_one]
        have hlt' : skipSpaces buffer (pos + i + w.length) < buffer.length := by
          by_contra hge
          rw [List.drop_eq_nil_of_le (Nat.not_lt.mp hge)] at hat
          rw [← hat] at hcolon
          cases hcolon
        rw [skipSpaces_of_le hlt', hnext, valueOf]
      · rw [hskip]

/-- Behind the block, the search goes on to the end of the buffer. -/
theorem getValueLoop_beyond {buffer : Bytes} (hsize : buffer.length < 2 ^ 32) {finish : Nat}
    (nocase : Bool) (k : Nat) {pos : Nat} (hfinish : finish < pos) (hpos : pos ≤ buffer.length)
    (hk : buffer.length - pos < k) :
    getValueLoop buffer finish w nocase k pos ((finish + 2 ^ 32 - pos) % 2 ^ 32) =
      some (((met nocase w (buffer.drop pos)).find? marked).map fun s =>
        buffer.length - (valueOf s).length) := by
  induction k generalizing pos with
  | zero => exact absurd hk (Nat.not_lt_zero _)
  | succ k ih =>
      have hlength : (buffer.drop pos).length = buffer.length - pos := List.length_drop
      have hfold : fold buffer pos ((finish + 2 ^ 32 - pos) % 2 ^ 32) =
          (buffer.drop pos).length := by
        rw [fold, hlength]
        omega
      rw [getValueLoop_succ hw hpos (List.append_nil _).symm hfold (by omega)]
      cases hvisit : visit nocase w (buffer.drop pos) with
      | none =>
          rw [met_of_none hw hvisit]
          rfl
      | some i =>
          have hle := visit_le hw hvisit
          have hwpos := List.length_pos_of_ne_nil hw
          rw [met_of_some hw hvisit]
          dsimp only
          rw [List.append_nil]
          generalize hu : ((buffer.drop pos).drop (i + w.length)).dropWhile isSpace = u
          have hsuffix : u <:+ buffer.drop pos :=
            hu ▸ (List.dropWhile_suffix isSpace).trans (List.drop_suffix _ _)
          have hlt : u.length + w.length ≤ (buffer.drop pos).length := by
            have hdrop := List.length_dropWhile_le isSpace ((buffer.drop pos).drop (i + w.length))
            rw [hu, List.length_drop] at hdrop
            omega
          have hat : buffer.drop (buffer.length - u.length) = u :=
            (List.suffix_iff_eq_drop.mp (hsuffix.trans (List.drop_suffix pos buffer))).symm
          split_ifs with hmarked
          · rw [List.find?_cons_of_pos (by simpa [marked] using hmarked)]
            rfl
          · rw [List.find?_cons_of_neg (by simpa [marked] using hmarked),
              ih (by omega) (by omega) (by omega), hat]

/-- What is behind a name of the block, with what follows the block. -/
def after (post u : Bytes) : Bytes := if u = [] then post.dropWhile isSpace else u ++ post

omit hw in
theorem dropWhile_append_after (y post : Bytes) :
    (y ++ post).dropWhile isSpace = after post (y.dropWhile isSpace) := by
  rw [List.dropWhile_append, after]
  simp only [List.isEmpty_iff]

/-- What the search comes to: a name of the block that a colon follows, or where white space led
over the end of the block, a name in what follows it. -/
def outcome (nocase : Bool) (w x post : Bytes) : Option Bytes :=
  match ((met nocase w x).map (after post)).find? marked with
  | some s => some s
  | none =>
      if [] ∈ met nocase w x ∧ post.dropWhile isSpace ≠ post then
        (met nocase w (post.dropWhile isSpace)).find? marked
      else none

theorem met_nil (nocase : Bool) : met nocase w [] = [] := by
  apply met_of_none hw
  have hnil : ∀ f : UInt8 → UInt8, search (w.map f) [] = none := fun f => search_nil hw
  have hid := hnil id
  rw [List.map_id] at hid
  rw [visit, hid, List.map_nil, hnil tolower]
  split_ifs <;> rfl

/-- The name that is met first decides, or the search goes on behind it. -/
theorem outcome_next {nocase : Bool} {x u : Bytes} (h : met nocase w x = u :: met nocase w u)
    (post : Bytes) :
    outcome nocase w x post =
      if (after post u).head? = some colon then some (after post u)
      else if u = [] then
        if post.dropWhile isSpace ≠ post then (met nocase w (post.dropWhile isSpace)).find? marked
        else none
      else outcome nocase w u post := by
  rw [outcome, h, List.map_cons]
  by_cases hmarked : (after post u).head? = some colon
  · have hfound : marked (after post u) = true := decide_eq_true hmarked
    rw [List.find?_cons_of_pos hfound, if_pos hmarked]
  · have hnot : ¬ marked (after post u) = true := fun h => hmarked (of_decide_eq_true h)
    rw [List.find?_cons_of_neg hnot, if_neg hmarked]
    by_cases hu : u = []
    · subst hu
      rw [met_nil hw, if_pos rfl]
      simp only [List.map_nil, List.find?_nil, List.mem_singleton, true_and]
    · rw [if_neg hu, outcome]
      simp only [List.mem_cons, Ne.symm hu, false_or]

theorem getValueLoop_eq {buffer post : Bytes} (hsize : buffer.length < 2 ^ 32) {finish : Nat}
    (hfinish : finish + post.length = buffer.length) (nocase : Bool) (k : Nat) {pos : Nat}
    {x : Bytes} (hdrop : buffer.drop pos = x ++ post) (hpos : pos + x.length = finish)
    (hk : buffer.length - pos < k) :
    getValueLoop buffer finish w nocase k pos ((finish + 2 ^ 32 - pos) % 2 ^ 32) =
      some ((outcome nocase w x post).map fun s => buffer.length - (valueOf s).length) := by
  induction k generalizing pos x with
  | zero => exact absurd hk (Nat.not_lt_zero _)
  | succ k ih =>
      have hfold : fold buffer pos ((finish + 2 ^ 32 - pos) % 2 ^ 32) = x.length := by
        rw [fold]
        omega
      rw [getValueLoop_succ hw (by omega) hdrop hfold (by omega)]
      cases hvisit : visit nocase w x with
      | none =>
          rw [outcome, met_of_none hw hvisit]
          rfl
      | some i =>
          have hle := visit_le hw hvisit
          have hwpos := List.length_pos_of_ne_nil hw
          have hmet := met_of_some hw hvisit
          have hlength := List.length_dropWhile_le isSpace (x.drop (i + w.length))
          rw [List.length_drop] at hlength
          have hsuffix : x.drop (i + w.length) ++ post <:+ buffer := by
            have hx : x.drop (i + w.length) ++ post = (buffer.drop pos).drop (i + w.length) := by
              rw [hdrop, List.drop_append_of_le_length hle]
            rw [hx, List.drop_drop]
            exact List.drop_suffix _ buffer
          replace hsuffix := (List.dropWhile_suffix isSpace).trans hsuffix
          dsimp only
          rw [dropWhile_append_after] at hsuffix ⊢
          generalize (x.drop (i + w.length)).dropWhile isSpace = u at hmet hlength hsuffix ⊢
          rw [outcome_next hw hmet]
          have hat : buffer.drop (buffer.length - (after post u).length) = after post u :=
            (List.suffix_iff_eq_drop.mp hsuffix).symm
          by_cases hmarked : (after post u).head? = some colon
          · rw [if_pos hmarked, if_pos hmarked]
            rfl
          · rw [if_neg hmarked, if_neg hmarked]
            by_cases hu : u = []
            · rw [if_pos hu]
              have hpost : after post u = post.dropWhile isSpace := if_pos hu
              have hdropWhile := List.length_dropWhile_le isSpace post
              rw [hpost] at hat ⊢
              by_cases hspace : post.dropWhile isSpace = post
              · rw [if_neg (not_not_intro hspace), hspace,
                  ih (x := []) (by rw [← hspace, hat]; rfl)
                    (by rw [List.length_nil]; omega) (by omega), outcome, met_nil hw]
                rfl
              · have hlt : (post.dropWhile isSpace).length < post.length := by
                  refine Nat.lt_of_le_of_ne hdropWhile fun heq => hspace ?_
                  exact (List.dropWhile_suffix isSpace).eq_of_length heq
                rw [if_pos hspace, getValueLoop_beyond hw hsize nocase k (by omega) (by omega)
                  (by omega), hat]
            · rw [if_neg hu]
              have hpost : after post u = u ++ post := if_neg hu
              rw [hpost] at hat ⊢
              rw [List.length_append] at hat ⊢
              exact ih hat (by omega) (by omega)

theorem getValueFromName_eq {pre x post : Bytes} (hsize : (pre ++ x ++ post).length < 2 ^ 32)
    (nocase : Bool) :
    getValueFromName (pre ++ x ++ post) pre.length x.length w nocase =
      some ((outcome nocase w x post).map fun s =>
        (pre ++ x ++ post).length - (valueOf s).length) := by
  have hlength : (pre ++ x ++ post).length = pre.length + x.length + post.length := by
    rw [List.length_append, List.length_append]
  have hlen : x.length = (pre.length + x.length + 2 ^ 32 - pre.length) % 2 ^ 32 := by omega
  have hdrop : (pre ++ x ++ post).drop pre.length = x ++ post := by
    rw [List.append_assoc, List.drop_left]
  have hloop := getValueLoop_eq hw hsize hlength.symm nocase ((pre ++ x ++ post).length + 1) hdrop
    rfl (by omega)
  rwa [← hlen] at hloop

end

end ULib.HeaderLookup
