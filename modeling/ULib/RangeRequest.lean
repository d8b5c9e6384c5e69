import Mathlib.Data.List.Sort
import ULib.NumberText

/-!
The `Range` header of `utility/uhttp.cpp`: the ranges that are read of it, put
in order and merged. A resource has less than 2^32 bytes.
-/

namespace ULib.RangeRequest

open ULib.KeyComparison
open ULib.EscapeCoding
open ULib.JsonScan
open ULib.NumberText

def comma : UInt8 := ','.toUInt8

def dash : UInt8 := '-'.toUInt8

/-- From a first byte to a last. -/
structure HTTPRange where
  start : UInt32
  last : UInt32
  deriving DecidableEq, Repr

/-! ### What is read -/

/-- The loop of `UVector<UString>::split` for one delimiter: empty items are left out. -/
def splitLoop (delim : UInt8) : Nat → Bytes → List Bytes
  | 0, _ => []
  | _ + 1, [] => []
  | fuel + 1, c :: t =>
      if c = delim then splitLoop delim fuel t
      else
        let item := (c :: t).takeWhile (· ≠ delim)
        item :: splitLoop delim fuel ((c :: t).drop (item.length + 1))

def split (s : Bytes) (delim : UInt8) : List Bytes :=
  if peek s 0 = '"'.toUInt8 then splitLoop delim s.length (s.drop 1).dropLast
  else splitLoop delim s.length s

/-- The numbers of an item, as far as they are held. -/
def readRange (size : UInt32) (item : Bytes) : HTTPRange :=
  if peek item 0 = dash then
    ⟨UInt32.ofInt ((strtol0 item).1 + size.toNat), size - 1⟩
  else
    let (start, pend) := strtol0 item
    let pend := if peek pend 0 = dash then pend.drop 1 else pend
    ⟨UInt32.ofInt start, if pend.length ≠ 0 then UInt32.ofInt (strtol0 pend).1 else size - 1⟩

def clip (size : UInt32) (r : HTTPRange) : HTTPRange :=
  if size ≤ r.last then { r with last := size - 1 } else r

/-- The ranges of the first `len` bytes of the list, where `len` is held in a byte. -/
def readRanges (size : UInt32) (range : Bytes) (len : UInt8) : List HTTPRange :=
  ((split (range.take len.toNat) comma).map fun item => clip size (readRange size item)).filter
    fun r => r.start ≤ r.last

/-! ### Sorting -/

section Sorting

variable {α : Type*} (compare : α → α → Int)

/-- What `qsort` asks of its comparison. -/
def IsOrder (l : List α) : Prop :=
  (∀ a ∈ l, ∀ b ∈ l, 0 < compare a b ↔ compare b a < 0) ∧
    ∀ a ∈ l, ∀ b ∈ l, ∀ c ∈ l, compare a b ≤ 0 → compare b c ≤ 0 → compare a c ≤ 0

instance (l : List α) : Decidable (IsOrder compare l) := inferInstanceAs (Decidable (_ ∧ _))

/-- `none` where the comparison is none. -/
def qsort (l : List α) : Option (List α) :=
  if IsOrder compare l then some (l.insertionSort fun a b => compare a b ≤ 0) else none

end Sorting

/-- The difference of two numbers without a sign, as a number with one. -/
def sortRange (a b : HTTPRange) : Int := (a.start - b.start).toInt32.toInt

/-! ### Merging -/

def U_max (a b : UInt32) : UInt32 := if b < a then a else b

/-- The steps of the loop that are left, from `i` on: their number is that of the ranges before
any is erased. An index past the end is undefined. -/
def mergeLoop : Nat → Nat → List HTTPRange → Option (List HTTPRange)
  | 0, _, array => some array
  | n + 1, i, array =>
      match array[i]?, array[i - 1]? with
      | some cur, some prev =>
          if cur.start ≤ prev.last then
            mergeLoop n (i + 1)
              ((array.set (i - 1) { prev with last := U_max prev.last cur.last }).eraseIdx i)
          else mergeLoop n (i + 1) array
      | _, _ => none

def sortAndMerge (array : List HTTPRange) : Option (List HTTPRange) :=
  if 1 < array.length then (qsort sortRange array).bind fun a => mergeLoop (a.length - 1) 1 a
  else some array

/-- The response: status 416, a part, or several of them. -/
inductive Answer
  | notSatisfiable
  | single (range : HTTPRange)
  | multiple (ranges : List HTTPRange)
  deriving DecidableEq, Repr

def Answer.ranges : Answer → List HTTPRange
  | notSatisfiable => []
  | single range => [range]
  | multiple ranges => ranges

def respond : List HTTPRange → Answer
  | [] => .notSatisfiable
  | [range] => .single range
  | ranges => .multiple ranges

def checkGetRequestForRange (size : UInt32) (range : Bytes) (len : UInt8) : Option Answer :=
  (sortAndMerge (readRanges size range len)).map respond

/-! ### What is asked for -/

/-- A number in decimal. -/
abbrev Number : Type := {w : Bytes // w ≠ [] ∧ ∀ c ∈ w, isDigit c}

inductive Spec
  | closed (first last : Number)
  | onward (first : Number)
  | suffix (count : Number)

namespace Spec

def text : Spec → Bytes
  | closed first last => first.1 ++ dash :: last.1
  | onward first => first.1 ++ [dash]
  | suffix count => dash :: count.1

/-- The bytes of a resource that are asked for. -/
def Asks (size : Nat) : Spec → Nat → Prop
  | closed first last, x => digitsValue first.1 ≤ x ∧ x ≤ digitsValue last.1 ∧ x < size
  | onward first, x => digitsValue first.1 ≤ x ∧ x < size
  | suffix count, x => size - digitsValue count.1 ≤ x ∧ x < size

/-- A number that is read as it is meant: it does not look like an octal one, and 32 bits hold
it. -/
def IsRead (w : Bytes) : Prop := IsDecimal w ∧ digitsValue w < 2 ^ 32

instance (w : Bytes) : Decidable (IsRead w) := inferInstanceAs (Decidable (_ ∧ _))

/-- Every number is read as it is meant, and no suffix is longer than the resource. -/
def Plain (size : Nat) : Spec → Prop
  | closed first last => IsRead first.1 ∧ IsRead last.1
  | onward first => IsRead first.1
  | suffix count => IsRead count.1 ∧ digitsValue count.1 ≤ size

instance (size : Nat) : ∀ s, Decidable (Plain size s)
  | closed _ _ => inferInstanceAs (Decidable (_ ∧ _))
  | onward _ => inferInstanceAs (Decidable (IsRead _))
  | suffix _ => inferInstanceAs (Decidable (_ ∧ _))

end Spec

/-- The list of the header. -/
def specsText : List Spec → Bytes
  | [] => []
  | [s] => s.text
  | s :: ss => s.text ++ comma :: specsText ss

theorem ranges_respond (ranges : List HTTPRange) : (respond ranges).ranges = ranges := by
  match ranges with
  | [] => rfl
  | [_] => rfl
  | _ :: _ :: _ => rfl

theorem respond_notSatisfiable (ranges : List HTTPRange) :
    respond ranges = .notSatisfiable ↔ ranges = [] := by
  match ranges with
  | [] => simp [respond]
  | [_] => simp [respond]
  | _ :: _ :: _ => simp [respond]

def Covers (ranges : List HTTPRange) (x : Nat) : Prop :=
  ∃ r ∈ ranges, r.start.toNat ≤ x ∧ x ≤ r.last.toNat

theorem toNat_U_max (a b : UInt32) : (U_max a b).toNat = max a.toNat b.toNat := by
  rw [U_max]
  split_ifs with h
  · rw [UInt32.lt_iff_toNat_lt] at h
    omega
  · rw [UInt32.not_lt, UInt32.le_iff_toNat_le] at h
    omega

/-! ### Reading the list -/

theorem Spec.text_ne_nil (s : Spec) : s.text ≠ [] := by
  cases s with
  | closed first last => exact List.append_ne_nil_of_left_ne_nil first.2.1 _
  | onward first => exact List.append_ne_nil_of_left_ne_nil first.2.1 _
  | suffix count => exact List.cons_ne_nil _ _

theorem Spec.text_chars {s : Spec} {c : UInt8} (hc : c ∈ s.text) : isDigit c ∨ c = dash := by
  cases s with
  | closed first last =>
      rcases List.mem_append.mp hc with h | h
      · exact .inl (first.2.2 c h)
      · rcases List.mem_cons.mp h with h | h
        · exact .inr h
        · exact .inl (last.2.2 c h)
  | onward first =>
      rcases List.mem_append.mp hc with h | h
      · exact .inl (first.2.2 c h)
      · exact .inr (List.mem_singleton.mp h)
  | suffix count =>
      rcases List.mem_cons.mp hc with h | h
      · exact .inr h
      · exact .inl (count.2.2 c h)

theorem splitLoop_item {item : Bytes} (hne : item ≠ []) {delim : UInt8} (hitem : delim ∉ item)
    {rest : Bytes} (hrest : rest = [] ∨ rest.head? = some delim) (fuel : Nat) :
    splitLoop delim (fuel + 1) (item ++ rest) = item :: splitLoop delim fuel rest.tail := by
  have hall : ∀ c ∈ item, (decide (c ≠ delim)) = true := fun c hc =>
    decide_eq_true fun h => hitem (h ▸ hc)
  have htake : (item ++ rest).takeWhile (· ≠ delim) = item := by
    rw [List.takeWhile_append_of_pos hall]
    cases rest with
    | nil => exact List.append_nil item
    | cons d rest =>
        have hd : d = delim := by simpa using hrest
        rw [List.takeWhile_cons_of_neg (by simp [hd]), List.append_nil]
  have hdrop : (item ++ rest).drop (item.length + 1) = rest.tail := by
    rw [← List.drop_drop, List.drop_left, List.drop_one]
  cases item with
  | nil => exact absurd rfl hne
  | cons c item =>
      have hc : c ≠ delim := fun h => hitem (h ▸ List.mem_cons_self)
      rw [List.cons_append] at htake hdrop ⊢
      rw [splitLoop, if_neg hc, htake]
      dsimp only
      rw [hdrop]

theorem splitLoop_specsText (specs : List Spec) {fuel : Nat}
    (hfuel : (specsText specs).length ≤ fuel) :
    splitLoop comma fuel (specsText specs) = specs.map Spec.text := by
  have hcomma : ∀ s : Spec, comma ∉ s.text := by
    intro s h
    rcases Spec.text_chars h with h | h
    · cases h
    · cases h
  induction specs generalizing fuel with
  | nil =>
      cases fuel with
      | zero => rfl
      | succ fuel => rfl
  | cons s specs ih =>
      have hpos := List.length_pos_of_ne_nil s.text_ne_nil
      cases specs with
      | nil =>
          obtain ⟨fuel, rfl⟩ := Nat.exists_eq_succ_of_ne_zero
            (Nat.ne_of_gt (Nat.lt_of_lt_of_le hpos hfuel))
          have hitem := splitLoop_item s.text_ne_nil (hcomma s) (.inl rfl) fuel
          rw [List.append_nil] at hitem
          rw [specsText, hitem]
          cases fuel with
          | zero => rfl
          | succ fuel => rfl
      | cons s' specs =>
          have htext : specsText (s :: s' :: specs) =
              s.text ++ comma :: specsText (s' :: specs) := rfl
          rw [htext, List.length_append, List.length_cons] at hfuel
          obtain ⟨fuel, rfl⟩ := Nat.exists_eq_succ_of_ne_zero (show fuel ≠ 0 by omega)
          rw [htext, splitLoop_item s.text_ne_nil (hcomma s) (.inr rfl) fuel]
          exact congrArg _ (ih (by omega))

theorem split_specsText (specs : List Spec) :
    split (specsText specs) comma = specs.map Spec.text := by
  have hquote : peek (specsText specs) 0 ≠ '"'.toUInt8 := by
    cases specs with
    | nil => exact (by decide : (0 : UInt8) ≠ '"'.toUInt8)
    | cons s specs =>
        obtain ⟨c, t, ht⟩ := List.exists_cons_of_ne_nil s.text_ne_nil
        have hc : isDigit c ∨ c = dash := Spec.text_chars (ht ▸ List.mem_cons_self)
        have hhead : peek (specsText (s :: specs)) 0 = c := by
          cases specs with
          | nil =>
              rw [specsText, ht]
              rfl
          | cons s' specs =>
              have htext : specsText (s :: s' :: specs) =
                  s.text ++ comma :: specsText (s' :: specs) := rfl
              rw [htext, ht]
              rfl
        rw [hhead]
        rintro rfl
        rcases hc with h | h
        · cases h
        · cases h
  rw [split, if_neg hquote]
  exact splitLoop_specsText specs (Nat.le_refl _)

/-! ### Reading an item -/

section Items

variable {size : UInt32}

theorem toNat_ofInt {n : Nat} (hn : n < 2 ^ 32) : (UInt32.ofInt (n : Int)).toNat = n := by
  rw [UInt32.ofInt]
  simp
  omega

theorem endsNumber_nil : EndsNumber [] := fun _ h => nomatch h

theorem endsNumber_dash (t : Bytes) : EndsNumber (dash :: t) := by
  intro c hc
  obtain rfl : dash = c := Option.some.inj hc
  exact ⟨rfl, by decide⟩

/-- A number behind which the item ends. -/
theorem strtol0_last (w : Number) (h : Spec.IsRead w.1) :
    (strtol0 w.1).1 = (digitsValue w.1 : Int) := by
  have hread := strtol0_decimal w.2.2 w.2.1 h.1 (h.2.trans (by decide)) endsNumber_nil
  rw [List.append_nil] at hread
  rw [hread]

theorem strtol0_first (w : Number) (h : Spec.IsRead w.1) (t : Bytes) :
    strtol0 (w.1 ++ dash :: t) = ((digitsValue w.1 : Int), dash :: t) :=
  strtol0_decimal w.2.2 w.2.1 h.1 (h.2.trans (by decide)) (endsNumber_dash t)

theorem peek_first (w : Number) (t : Bytes) : peek (w.1 ++ t) 0 ≠ dash := by
  obtain ⟨w, hne, hw⟩ := w
  cases w with
  | nil => exact absurd rfl hne
  | cons c w =>
      have hc : isDigit c := hw c List.mem_cons_self
      rintro h
      have : c = dash := h
      rw [this] at hc
      cases hc

theorem readRange_closed {first last : Number} (hfirst : Spec.IsRead first.1)
    (hlast : Spec.IsRead last.1) : readRange size (Spec.closed first last).text =
      ⟨UInt32.ofInt (digitsValue first.1), UInt32.ofInt (digitsValue last.1)⟩ := by
  have hlength : last.1.length ≠ 0 := by
    rw [ne_eq, List.length_eq_zero_iff]
    exact last.2.1
  have hdash : peek (dash :: last.1) 0 = dash := rfl
  rw [Spec.text, readRange, if_neg (peek_first first _), strtol0_first first hfirst]
  dsimp only
  rw [if_pos hdash, List.drop_one, List.tail_cons, if_pos hlength, strtol0_last last hlast]

theorem readRange_onward {first : Number} (hfirst : Spec.IsRead first.1) :
    readRange size (Spec.onward first).text = ⟨UInt32.ofInt (digitsValue first.1), size - 1⟩ := by
  rw [Spec.text, readRange, if_neg (peek_first first _), strtol0_first first hfirst]
  rfl

theorem readRange_suffix {count : Number} (hcount : Spec.IsRead count.1) :
    readRange size (Spec.suffix count).text =
      ⟨UInt32.ofInt (-(digitsValue count.1 : Int) + size.toNat), size - 1⟩ := by
  have hdash : peek (dash :: count.1) 0 = dash := rfl
  have hread := strtol0_minus count.2.2 count.2.1 hcount.1 (hcount.2.trans (by decide))
    endsNumber_nil
  rw [List.append_nil] at hread
  have hread : strtol0 (dash :: count.1) = (-(digitsValue count.1 : Int), []) := hread
  rw [Spec.text, readRange, if_pos hdash, hread]

theorem toNat_sub_one (hsize : 0 < size.toNat) : (size - 1).toNat = size.toNat - 1 := by
  rw [UInt32.toNat_sub_of_le]
  · rfl
  · rw [UInt32.le_iff_toNat_le]
    exact hsize

theorem clip_spec (hsize : 0 < size.toNat) (r : HTTPRange) : (clip size r).start = r.start ∧
    (clip size r).last.toNat = min r.last.toNat (size.toNat - 1) := by
  have hone := toNat_sub_one hsize
  rw [clip]
  split_ifs with h
  · rw [UInt32.le_iff_toNat_le] at h
    exact ⟨rfl, by rw [hone]; omega⟩
  · rw [UInt32.le_iff_toNat_le] at h
    exact ⟨rfl, by omega⟩

/-- The range of an item, clipped, is what is asked for. -/
theorem readRange_plain (hsize : 0 < size.toNat) {s : Spec} (hs : s.Plain size.toNat) (x : Nat) :
    (clip size (readRange size s.text)).start.toNat ≤ x ∧
      x ≤ (clip size (readRange size s.text)).last.toNat ↔ s.Asks size.toNat x := by
  obtain ⟨hstart, hlast⟩ := clip_spec hsize (readRange size s.text)
  have hone := toNat_sub_one hsize
  rw [hstart, hlast]
  cases s with
  | closed first last =>
      rw [readRange_closed hs.1 hs.2, Spec.Asks]
      dsimp only
      rw [toNat_ofInt hs.1.2, toNat_ofInt hs.2.2]
      omega
  | onward first =>
      rw [readRange_onward hs, Spec.Asks]
      dsimp only
      rw [toNat_ofInt hs.2, hone]
      omega
  | suffix count =>
      obtain ⟨hread, hle⟩ := hs
      have hsum : -(digitsValue count.1 : Int) + size.toNat =
          ((size.toNat - digitsValue count.1 : Nat) : Int) := by omega
      have hlt := size.toNat_lt
      rw [readRange_suffix hread, Spec.Asks]
      dsimp only
      rw [hsum, toNat_ofInt (by omega), hone]
      omega

theorem mem_readRanges (hsize : 0 < size.toNat) {range : Bytes} {len : UInt8} {r : HTTPRange}
    (hr : r ∈ readRanges size range len) :
    r.start.toNat ≤ r.last.toNat ∧ r.last.toNat < size.toNat := by
  rw [readRanges, List.mem_filter, List.mem_map] at hr
  obtain ⟨⟨item, -, rfl⟩, hle⟩ := hr
  have hlast := (clip_spec hsize (readRange size item)).2
  rw [decide_eq_true_eq, UInt32.le_iff_toNat_le] at hle
  omega

/-- What is read of a list is what it asks for. -/
theorem covers_readRanges (hsize : 0 < size.toNat) {specs : List Spec}
    (hplain : ∀ s ∈ specs, s.Plain size.toNat) (hlength : (specsText specs).length < 256)
    (x : Nat) :
    Covers (readRanges size (specsText specs) (UInt8.ofNat (specsText specs).length)) x ↔
      ∃ s ∈ specs, s.Asks size.toNat x := by
  have hlen : (UInt8.ofNat (specsText specs).length).toNat = (specsText specs).length := by
    rw [UInt8.toNat_ofNat']
    omega
  rw [readRanges, hlen, List.take_length, split_specsText, Covers]
  constructor
  · rintro ⟨r, hr, hx⟩
    rw [List.mem_filter, List.mem_map] at hr
    obtain ⟨⟨item, hitem, rfl⟩, -⟩ := hr
    obtain ⟨s, hs, rfl⟩ := List.mem_map.mp hitem
    exact ⟨s, hs, (readRange_plain hsize (hplain s hs) x).mp hx⟩
  · rintro ⟨s, hs, hx⟩
    have hx := (readRange_plain hsize (hplain s hs) x).mpr hx
    refine ⟨clip size (readRange size s.text), ?_, hx⟩
    rw [List.mem_filter, List.mem_map, decide_eq_true_eq, UInt32.le_iff_toNat_le]
    exact ⟨⟨s.text, List.mem_map_of_mem hs, rfl⟩, hx.1.trans hx.2⟩

end Items

end ULib.RangeRequest
