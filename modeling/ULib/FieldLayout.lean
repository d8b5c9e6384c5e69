import Mathlib.Data.Nat.Digits.Defs
import Mathlib.Tactic.Common

/-!
Numerals in any base, with separators in them or not, and the fields of a given
width that hold them.
-/

namespace ULib.FieldLayout

/-- The digits of `n`, with the last one on the right -/
def numeral (base n : Nat) : List Nat := if n = 0 then [0] else (Nat.digits base n).reverse

theorem numeral_small {base n : Nat} (h : n < base) : numeral base n = [n] := by
  rw [numeral]
  split_ifs with hn
  · rw [hn]
  · rw [Nat.digits_of_lt base n hn h]
    rfl

theorem numeral_large {base n : Nat} (hbase : 1 < base) (h : base ≤ n) :
    numeral base n = numeral base (n / base) ++ [n % base] := by
  have hpos : 0 < n := (Nat.zero_lt_of_lt hbase).trans_le h
  have hdiv : 0 < n / base := Nat.div_pos h (Nat.zero_lt_of_lt hbase)
  rw [numeral, if_neg hpos.ne', numeral, if_neg hdiv.ne', Nat.digits_def' hbase hpos,
    List.reverse_cons]

theorem numeral_ne_nil (base n : Nat) : numeral base n ≠ [] := by
  rw [numeral]
  split_ifs with hn
  · exact List.cons_ne_nil 0 []
  · rw [ne_eq, List.reverse_eq_nil_iff]
    exact Nat.digits_ne_nil_iff_ne_zero.mpr hn

theorem lt_of_mem_numeral {base n d : Nat} (hbase : 1 < base) (h : d ∈ numeral base n) :
    d < base := by
  rw [numeral] at h
  split_ifs at h with hn
  · rw [List.mem_singleton.mp h]
    exact Nat.zero_lt_of_lt hbase
  · exact Nat.digits_lt_base hbase (List.mem_reverse.mp h)

section Grouping

variable {α : Type*} (separator : α)

/-- With separators in front of every third element, counted from the right, where `behind`
elements have been counted already -/
def grouped (behind : Nat) : List α → List α
  | [] => []
  | c :: t =>
      if t ≠ [] ∧ (t.length + behind) % 3 = 0 then c :: separator :: grouped behind t
      else c :: grouped behind t

variable {separator}

theorem grouped_concat {ds : List α} (h : ds ≠ []) (d : α) (behind : Nat) :
    grouped separator behind (ds ++ [d]) =
      grouped separator (behind + 1) ds ++
        (if (behind + 1) % 3 = 0 then [separator, d] else [d]) := by
  induction ds with
  | nil => exact absurd rfl h
  | cons c t ih =>
      have hlen : (t ++ [d]).length + behind = t.length + (behind + 1) := by
        rw [List.length_append, List.length_singleton, Nat.add_assoc, Nat.add_comm 1]
      rw [List.cons_append, grouped, grouped, hlen]
      by_cases ht : t = []
      · subst ht
        rw [List.length_nil, Nat.zero_add]
        split_ifs <;> simp_all [grouped]
      · rw [ih ht]
        split_ifs <;> simp_all

theorem grouped_short {ds : List α} (h : ds.length ≤ 3) : grouped separator 0 ds = ds := by
  rcases ds with - | ⟨a, - | ⟨b, - | ⟨c, - | ⟨d, ds⟩⟩⟩⟩
  · rfl
  · rfl
  · rfl
  · rfl
  · exact absurd h (by simp)

theorem length_grouped (ds : List α) :
    (grouped separator 0 ds).length = ds.length + (ds.length - 1) / 3 := by
  induction ds with
  | nil => rw [grouped, List.length_nil, Nat.zero_sub, Nat.zero_div]
  | cons c t ih =>
      rw [grouped]
      split_ifs with h
      · obtain ⟨hne, hmod⟩ := h
        have hpos := List.length_pos_iff.mpr hne
        rw [List.length_cons, List.length_cons, List.length_cons, ih]
        omega
      · rw [List.length_cons, List.length_cons, ih]
        by_cases hne : t = []
        · rw [hne, List.length_nil, Nat.zero_sub, Nat.zero_div]
        · have hpos := List.length_pos_iff.mpr hne
          have hmod : ¬ (t.length + 0) % 3 = 0 := fun hmod => h ⟨hne, hmod⟩
          omega

theorem mem_grouped {behind : Nat} {ds : List α} {c : α} (h : c ∈ grouped separator behind ds) :
    c = separator ∨ c ∈ ds := by
  induction ds with
  | nil => exact .inr h
  | cons d t ih =>
      rw [grouped] at h
      split_ifs at h
      · rcases List.mem_cons.mp h with rfl | h
        · exact .inr List.mem_cons_self
        · rcases List.mem_cons.mp h with rfl | h
          · exact .inl rfl
          · exact (ih h).imp_right (List.mem_cons_of_mem d)
      · rcases List.mem_cons.mp h with rfl | h
        · exact .inr List.mem_cons_self
        · exact (ih h).imp_right (List.mem_cons_of_mem d)

end Grouping

/-! ### Fields -/

section Fields

variable {α : Type*} (zero blank : α)

/-- With zeros in front, to the number of digits that is asked for -/
def widened (n : Nat) (digits : List α) : List α :=
  List.replicate (n - digits.length) zero ++ digits

/-- Where the rest of the field stands. -/
inductive Fill where
  | behind
  | between
  | ahead
  deriving DecidableEq

/-- `front` and `body` in a field that is `width` wide at least: filled with blanks behind or
ahead of them, or with zeros between them -/
def layout (fill : Fill) (width : Nat) (front body : List α) : List α :=
  let n := width - (front.length + body.length)
  match fill with
  | .behind => front ++ body ++ List.replicate n blank
  | .between => front ++ List.replicate n zero ++ body
  | .ahead => List.replicate n blank ++ front ++ body

variable {zero blank} {fill : Fill} {width : Nat} {front body : List α}

theorem widened_of_le {n : Nat} {digits : List α} (h : n ≤ digits.length) :
    widened zero n digits = digits := by
  rw [widened, Nat.sub_eq_zero_of_le h]
  rfl

theorem length_widened (n : Nat) (digits : List α) :
    (widened zero n digits).length = max n digits.length := by
  rw [widened, List.length_append, List.length_replicate]
  omega

/-- One of the zeros may have been written before. -/
theorem widened_cons {n : Nat} {digits : List α} (h : digits.length < n) :
    widened zero n (zero :: digits) = widened zero n digits := by
  have hsplit : n - digits.length = n - (digits.length + 1) + 1 := by omega
  rw [widened, widened, List.length_cons, hsplit, List.replicate_succ', List.append_assoc]
  rfl

theorem head_widened {n : Nat} {digits : List α} (h : digits.length < n) :
    (widened zero n digits).head? = some zero := by
  have hsplit : n - digits.length = n - (digits.length + 1) + 1 := by omega
  rw [widened, hsplit, List.replicate_succ]
  rfl

/-- Grouping and widening may be exchanged when no zeros are written in front, or no
separators. -/
theorem grouped_widened {separator : α} {n : Nat} {digits : List α}
    (h : n ≤ 3 ∨ n ≤ digits.length) :
    widened zero n (grouped separator 0 digits) = grouped separator 0 (widened zero n digits) := by
  have hlen := @length_grouped α separator digits
  by_cases hn : n ≤ digits.length
  · rw [widened_of_le hn, widened_of_le (by omega)]
  · have hthree := h.resolve_right hn
    rw [@grouped_short α separator digits (by omega),
      grouped_short (by rw [length_widened]; omega)]

/-- Elsewhere separators are missing. -/
theorem length_grouped_widened {separator : α} {n : Nat} {digits : List α} (h : 3 < n)
    (hn : digits.length < n) :
    (widened zero n (grouped separator 0 digits)).length <
      (grouped separator 0 (widened zero n digits)).length := by
  rw [length_widened, length_grouped, length_grouped, length_widened]
  omega

theorem length_layout :
    (layout zero blank fill width front body).length = max width (front.length + body.length) := by
  cases fill with
  | _ =>
    simp only [layout, List.length_append, List.length_replicate]
    omega

variable [DecidableEq α]

theorem filter_layout (hfill : fill ≠ .between) (hbody : blank ∉ body) :
    (layout zero blank fill width front body).filter (· ≠ blank) =
      front.filter (· ≠ blank) ++ body := by
  have hall : body.filter (· ≠ blank) = body := by
    refine List.filter_eq_self.mpr fun c hc => decide_eq_true ?_
    rintro rfl
    exact hbody hc
  cases fill with
  | behind => rw [layout, List.filter_append, List.filter_append, hall]; simp
  | between => exact absurd rfl hfill
  | ahead => rw [layout, List.filter_append, List.filter_append, hall]; simp

/-- What stands in a field filled with blanks can be told from the field. -/
theorem layout_injective {other : List α} (hfill : fill ≠ .between) (hbody : blank ∉ body)
    (hother : blank ∉ other)
    (h : layout zero blank fill width front body = layout zero blank fill width front other) :
    body = other := by
  have hfilter := congrArg (List.filter (· ≠ blank)) h
  rw [filter_layout hfill hbody, filter_layout hfill hother] at hfilter
  exact List.append_cancel_left hfilter

end Fields

end ULib.FieldLayout
