import Mathlib.Data.List.GetD
import ULib.EnvironmentVar

/-!
Environments that are lines `name=value`, and the expansion of a text with the
values of the lines.
-/

namespace ULib.EnvironmentText

open ULib.KeyComparison
open ULib.EscapeCoding
open ULib.ReferenceExpansion
open ULib.TextSearch
open ULib.EnvironmentVar

/-! ### The rounds of the lookup -/

section
variable {name : Bytes}

theorem before_append (p y : Bytes) : before (p ++ y) p.length = p.getLast?.getD 0 := by
  rw [before]
  cases hp : p.getLast? with
  | none =>
      obtain rfl := List.getLast?_eq_none_iff.mp hp
      rfl
  | some c =>
      obtain ⟨q, rfl⟩ := List.getLast?_eq_some_iff.mp hp
      rw [List.length_append, List.length_singleton, if_neg (Nat.succ_ne_zero _),
        Nat.add_sub_cancel, List.append_assoc, peek, List.getD_append_right _ _ _ _ (Nat.le_refl _),
        Nat.sub_self]
      rfl

theorem peek_append (p y : Bytes) : peek (p ++ y) p.length = peek y 0 := by
  rw [peek, List.getD_append_right _ _ _ _ (Nat.le_refl _), Nat.sub_self, peek]

/-- Not the start of a name, or in a comment. -/
def Marked (c : UInt8) : Prop := isName c = true ∨ c = hash

instance (c : UInt8) : Decidable (Marked c) := inferInstanceAs (Decidable (_ ∨ _))

theorem assignedLoop_none {p y : Bytes} (h : search name y = none) (k : Nat) :
    assignedLoop (p ++ y) name (k + 1) p.length = some none := by
  rw [assignedLoop, List.drop_left, h]
  rfl

theorem assignedLoop_found {p a d : Bytes} (h : search name (a ++ (name ++ d)) = some a.length)
    (k : Nat) :
    assignedLoop (p ++ (a ++ (name ++ d))) name (k + 1) p.length =
      if Marked ((p ++ a).getLast?.getD 0) ∨ peek d 0 ≠ equals then
        assignedLoop (p ++ (a ++ (name ++ d))) name k (p ++ a ++ name).length
      else some (some (p ++ a).length) := by
  have hbefore : before (p ++ (a ++ (name ++ d))) (p.length + a.length) =
      (p ++ a).getLast?.getD 0 := by
    rw [← List.append_assoc, ← List.length_append, before_append]
  have hpeek : peek (p ++ (a ++ (name ++ d))) (p.length + a.length + name.length) = peek d 0 := by
    rw [← List.append_assoc, ← List.append_assoc, ← List.length_append, ← List.length_append,
      peek_append]
  rw [assignedLoop, List.drop_left, h]
  dsimp only [Option.map_some]
  rw [hbefore, hpeek, List.length_append, List.length_append]
  by_cases hmarked : isName ((p ++ a).getLast?.getD 0) = true ∨ (p ++ a).getLast?.getD 0 = hash
  · rw [if_pos hmarked, if_pos (.inl hmarked)]
  · have hno : ¬ Marked ((p ++ a).getLast?.getD 0) := hmarked
    rw [if_neg hmarked]
    by_cases hequals : peek d 0 ≠ equals
    · rw [if_pos hequals, if_pos (.inr hequals)]
    · rw [if_neg hequals, if_neg (not_or_intro hno hequals)]

variable (hname : name ≠ [])
include hname

/-- An occurrence with what is in front of it and what is behind. -/
theorem exists_found {y : Bytes} {i : Nat} (h : search name y = some i) :
    ∃ a d, y = a ++ (name ++ d) ∧ a.length = i := by
  obtain ⟨d, hd⟩ := (of_search h).1
  have hle : i ≤ y.length := by
    have hlength := (of_search h).1.length_le
    have hpos := List.length_pos_of_ne_nil hname
    rw [List.length_drop] at hlength
    omega
  exact ⟨y.take i, d, by rw [hd, List.take_append_drop], List.length_take_of_le hle⟩

/-- Rounds enough for what is left. -/
theorem assignedLoop_fuel {p y : Bytes} {j k : Nat} (hj : y.length < j) (hk : y.length < k) :
    assignedLoop (p ++ y) name j p.length = assignedLoop (p ++ y) name k p.length := by
  induction j generalizing k p y with
  | zero => cases hj
  | succ j ih =>
      cases k with
      | zero => cases hk
      | succ k =>
          cases hfind : search name y with
          | none => rw [assignedLoop_none hfind, assignedLoop_none hfind]
          | some i =>
              obtain ⟨a, d, rfl, rfl⟩ := exists_found hname hfind
              have hpos := List.length_pos_of_ne_nil hname
              rw [assignedLoop_found hfind, assignedLoop_found hfind]
              rw [List.length_append, List.length_append] at hj hk
              have happend : p ++ (a ++ (name ++ d)) = p ++ a ++ name ++ d := by
                rw [List.append_assoc, List.append_assoc]
              have hnext : assignedLoop (p ++ a ++ name ++ d) name j (p ++ a ++ name).length =
                  assignedLoop (p ++ a ++ name ++ d) name k (p ++ a ++ name).length :=
                ih (by omega) (by omega)
              rw [happend, hnext]

/-- The loop goes past a part in which every occurrence of the name is passed over. -/
theorem assignedLoop_skip {p u x : Bytes} {k : Nat} (hk : (u ++ x).length < k)
    (h : ∀ a b, u = a ++ b → b ≠ [] → name <+: b ++ x →
      ∃ d, b = name ++ d ∧ (Marked ((p ++ a).getLast?.getD 0) ∨ peek (d ++ x) 0 ≠ equals)) :
    assignedLoop (p ++ u ++ x) name k p.length =
      assignedLoop (p ++ u ++ x) name k (p ++ u).length := by
  induction k generalizing p u with
  | zero => cases hk
  | succ k ih =>
      by_cases hfirst : ∃ i < u.length, search name (u ++ x) = some i
      · obtain ⟨i, hi, hfind⟩ := hfirst
        have hpre := (of_search hfind).1
        rw [List.drop_append_of_le_length (Nat.le_of_lt hi)] at hpre
        have hne : u.drop i ≠ [] := List.ne_nil_of_length_pos (by rw [List.length_drop]; omega)
        obtain ⟨d, hd, hpast⟩ := h (u.take i) (u.drop i) (List.take_append_drop i u).symm hne hpre
        have hu : u = u.take i ++ (name ++ d) := by rw [← hd, List.take_append_drop]
        have hlength : (u.take i).length = i := List.length_take_of_le (Nat.le_of_lt hi)
        generalize u.take i = a at hpast hu hlength
        subst hu hlength
        have happend : p ++ (a ++ (name ++ d)) ++ x = p ++ a ++ name ++ d ++ x := by
          simp only [List.append_assoc]
        have hfound : search name (a ++ (name ++ (d ++ x))) = some a.length := by
          rwa [List.append_assoc, List.append_assoc] at hfind
        have hround := assignedLoop_found (p := p) hfound k
        have hpos := List.length_pos_of_ne_nil hname
        simp only [List.length_append] at hk
        have hrest : assignedLoop (p ++ a ++ name ++ d ++ x) name k (p ++ a ++ name).length =
            assignedLoop (p ++ a ++ name ++ d ++ x) name k (p ++ a ++ name ++ d).length := by
          refine ih (by rw [List.length_append]; omega) ?_
          rintro a' b' rfl hb' hpre'
          obtain ⟨d', hd', hpast'⟩ := h (a ++ (name ++ a')) b' (by simp only [List.append_assoc])
              hb'
            hpre'
          refine ⟨d', hd', ?_⟩
          rwa [← List.append_assoc, ← List.append_assoc] at hpast'
        have hfuel := assignedLoop_fuel (p := p ++ (a ++ (name ++ d))) (y := x) hname
          (j := k) (k := k + 1) (by omega) (by omega)
        rw [← hfuel, happend]
        rw [if_pos hpast, ← List.append_assoc name, ← List.append_assoc a, ← List.append_assoc p,
          happend] at hround
        rw [hround, hrest]
        simp only [List.append_assoc]
      · have hskip : search name (u ++ x) = (search name x).map (u.length + ·) := by
          apply search_skip
          rintro q r rfl hr hpre
          have hdrop : name <+: (q ++ r ++ x).drop q.length := by
            rwa [List.append_assoc, List.drop_left]
          have hle : q.length ≤ (q ++ r ++ x).length := by
            rw [List.append_assoc, List.length_append]
            exact Nat.le_add_right _ _
          obtain ⟨i, hi, hfind⟩ := exists_search hle hdrop
          have hpos := List.length_pos_of_ne_nil hr
          refine hfirst ⟨i, ?_, hfind⟩
          rw [List.length_append]
          omega
        cases hfind : search name x with
        | none =>
            rw [hfind] at hskip
            rw [assignedLoop_none hfind, List.append_assoc, assignedLoop_none hskip]
        | some i =>
            obtain ⟨a, d, rfl, rfl⟩ := exists_found hname hfind
            have hround := assignedLoop_found (p := p) (a := u ++ a) (d := d)
              (by rw [List.append_assoc, hskip, hfind, List.length_append]; rfl) k
            rw [assignedLoop_found hfind]
            simp only [List.append_assoc] at hround ⊢
            exact hround

end

/-! ### Environments -/

/-- A line `name=value`, in quotes if there are any. -/
structure Assignment where
  name : Bytes
  value : Bytes
  quote : Option UInt8
  deriving DecidableEq, Repr

def lineFeed : UInt8 := '\n'.toUInt8

def line (a : Assignment) : Bytes :=
  a.quote.toList ++ a.name ++ equals :: (a.value ++ a.quote.toList ++ [lineFeed])

def text (env : List Assignment) : Bytes := env.flatMap line

/-- The value in the first line with a name. -/
def lookup (env : List Assignment) (name : Bytes) : Option Bytes :=
  (env.find? (·.name = name)).map Assignment.value

/-- A name that can be referred to. -/
def Word (name : Bytes) : Prop := name ≠ [] ∧ ∀ c ∈ name, isName c = true

/-- A line in which nothing but its own name is in front of `=`, and nothing but its own end ends
the value. -/
structure Plain (a : Assignment) : Prop where
  word : Word a.name
  no_equals : equals ∉ a.value
  quote : ∀ q ∈ a.quote, isQuote q = true
  ends : match a.quote with
    | none => ∀ c ∈ a.value, isSpace c = false
    | some q => q ∉ a.value ∧ a.value.getLast? ≠ some backslash

theorem getLast_line (p : Bytes) (a : Assignment) : (p ++ line a).getLast? = some lineFeed := by
  rw [line, ← List.cons_append, ← List.append_assoc, ← List.append_assoc]
  exact List.getLast?_concat

/-! ### The value of a line -/

theorem valueLoop_unquoted {c : UInt8} (hc : isQuote c = false) {v : Bytes}
    (hv : ∀ d ∈ v, isSpace d = false) (prev : UInt8) (t : Bytes) :
    valueLoop c prev (v ++ lineFeed :: t) = v := by
  have hends : ∀ prev d, endsValue c prev d = isSpace d := by
    intro prev d
    rw [endsValue, hc]
    rfl
  induction v generalizing prev with
  | nil =>
      rw [List.nil_append, valueLoop, hends]
      rfl
  | cons d v ih =>
      have hd := hv d List.mem_cons_self
      rw [List.cons_append, valueLoop, hends, hd, if_neg Bool.false_ne_true,
        ih fun e he => hv e (List.mem_cons_of_mem d he)]

theorem valueLoop_quoted {c : UInt8} (hc : isQuote c = true) {v : Bytes} (hv : c ∉ v)
    {prev : UInt8} (hlast : (prev :: v).getLast? ≠ some backslash) (t : Bytes) :
    valueLoop c prev (v ++ c :: t) = v := by
  have hends : ∀ prev d, endsValue c prev d = true ↔ d = c ∧ prev ≠ backslash := by
    intro prev d
    rw [endsValue, hc, if_pos rfl, Bool.and_eq_true, decide_eq_true_iff, decide_eq_true_iff]
  induction v generalizing prev with
  | nil =>
      have hprev : prev ≠ backslash := fun h => hlast (congrArg some h)
      rw [List.nil_append, valueLoop, if_pos ((hends prev c).mpr ⟨rfl, hprev⟩)]
  | cons d v ih =>
      have hd : d ≠ c := fun h => hv (h ▸ List.mem_cons_self)
      have hrest : valueLoop c d (v ++ c :: t) = v :=
        ih (fun h => hv (List.mem_cons_of_mem d h)) (by rwa [List.getLast?_cons_cons] at hlast)
      rw [List.cons_append, valueLoop, if_neg fun h => hd ((hends prev d).mp h).1, hrest]

/-! ### The lookup in lines -/

theorem name_spec : ∀ c, isName c = true → c ≠ lineFeed ∧ c ≠ equals ∧ isQuote c = false :=
  forall_byte (by decide +kernel)

theorem unmarked : ¬ Marked 0 ∧ ¬ Marked lineFeed ∧ ∀ c, isQuote c = true → ¬ Marked c :=
  ⟨by decide, by decide, forall_byte (by decide +kernel)⟩

/-- A name does not go on behind the end of a line. -/
theorem prefix_of_line {name b x : Bytes} (hname : Word name)
    (h : name <+: b ++ [lineFeed] ++ x) : name <+: b := by
  have hb : b <+: b ++ [lineFeed] ++ x := by
    rw [List.append_assoc]
    exact List.prefix_append b _
  rcases List.prefix_or_prefix_of_prefix h hb with hle | ⟨r, rfl⟩
  · exact hle
  · rw [List.append_assoc, List.prefix_append_right_inj] at h
    cases r with
    | nil => exact ⟨[], by rw [List.append_nil, List.append_nil]⟩
    | cons c r =>
        have hc : c = lineFeed := by
          obtain ⟨t, ht⟩ := h
          exact (List.cons.inj ht).1
        have hword := hname.2 c (List.mem_append_right b List.mem_cons_self)
        exact absurd hc (name_spec c hword).1

section
variable {a : Assignment} (ha : Plain a)
include ha

theorem Plain.quote_ne {c : UInt8} (hc : isQuote c = false) : c ∉ a.quote.toList := by
  intro hmem
  have hquote := ha.quote c (Option.mem_toList.mp hmem)
  rw [hc] at hquote
  cases hquote

/-- The only `=` of a line is the one behind the name. -/
theorem Plain.front : equals ∉ a.quote.toList ++ a.name := by
  rw [List.mem_append, not_or]
  exact ⟨ha.quote_ne (by decide), fun h => (name_spec equals (ha.word.2 equals h)).2.1 rfl⟩

theorem Plain.behind : equals ∉ a.value ++ a.quote.toList ++ [lineFeed] := by
  rw [List.mem_append, List.mem_append, not_or, not_or]
  exact ⟨⟨ha.no_equals, ha.quote_ne (by decide)⟩, by decide⟩

/-- Another name in front of `=` is the end of the name of the line. -/
theorem Plain.marked {name u : Bytes} (hname : Word name) (hne : a.name ≠ name)
    (h : u ++ name = a.quote.toList ++ a.name) (p : Bytes) :
    Marked ((p ++ u).getLast?.getD 0) := by
  have hpart : ∀ y w : Bytes, w ++ name = a.name → Marked ((y ++ w).getLast?.getD 0) := by
    intro y w hw
    have hwne : w ≠ [] := by
      rintro rfl
      exact hne hw.symm
    have hmem : w.getLast hwne ∈ a.name := hw ▸ List.mem_append_left name (List.getLast_mem hwne)
    rw [List.getLast?_append_of_ne_nil y hwne, List.getLast?_eq_some_getLast hwne]
    exact .inl (ha.word.2 _ hmem)
  cases hquote : a.quote with
  | none =>
      rw [hquote] at h
      exact hpart p u h
  | some q =>
      rw [hquote] at h
      cases u with
      | nil =>
          have hq : q ∈ name := by
            rw [List.nil_append] at h
            rw [h]
            exact List.mem_cons_self
          have hplain := (name_spec q (hname.2 q hq)).2.2
          rw [ha.quote q hquote] at hplain
          cases hplain
      | cons c w =>
          have hw := hpart (p ++ [c]) w (List.cons.inj h).2
          rwa [List.append_assoc] at hw

end

section
variable {name : Bytes} (hname : Word name)
include hname

theorem Plain.skips {a : Assignment} (ha : Plain a) (hne : a.name ≠ name) (p x : Bytes)
    {u b : Bytes} (hsplit : line a = u ++ b) (hb : b ≠ []) (hpre : name <+: b ++ x) :
    ∃ d, b = name ++ d ∧ (Marked ((p ++ u).getLast?.getD 0) ∨ peek (d ++ x) 0 ≠ equals) := by
  have hend : b.getLast? = some lineFeed := by
    rw [← List.getLast?_append_of_ne_nil u hb, ← hsplit]
    exact getLast_line [] a
  obtain ⟨b, rfl⟩ := List.getLast?_eq_some_iff.mp hend
  obtain ⟨d, rfl⟩ := prefix_of_line hname hpre
  refine ⟨d ++ [lineFeed], List.append_assoc .., ?_⟩
  by_cases hequals : peek (d ++ [lineFeed] ++ x) 0 = equals
  · obtain ⟨e, he⟩ : ∃ e, d ++ [lineFeed] = equals :: e := by
      cases d with
      | nil => exact absurd hequals (by decide : lineFeed ≠ equals)
      | cons c d => exact ⟨d ++ [lineFeed], congrArg (· :: _) hequals⟩
    rw [line, List.append_assoc name, he, ← List.append_assoc u] at hsplit
    have hfront := ((List.append_cons_inj_of_notMem ha.front ha.behind).mp hsplit).1.symm
    exact .inl (ha.marked hname hne hfront p)
  · exact .inr hequals

end

/-- What is in front of the name is the quote, or the end of the line before. -/
theorem lead (a : Assignment) {p : Bytes} (hp : ∀ c ∈ p.getLast?, c = lineFeed) :
    (∃ q, a.quote = some q ∧ (p ++ a.quote.toList).getLast?.getD 0 = q) ∨
      a.quote = none ∧ ((p ++ a.quote.toList).getLast?.getD 0 = 0 ∨
        (p ++ a.quote.toList).getLast?.getD 0 = lineFeed) := by
  cases hquote : a.quote with
  | some q => exact .inl ⟨q, rfl, by rw [Option.toList, List.getLast?_concat]; rfl⟩
  | none =>
      refine .inr ⟨rfl, ?_⟩
      rw [Option.toList, List.append_nil]
      cases hlast : p.getLast? with
      | none => exact .inl rfl
      | some c => exact .inr (hp c hlast)

section
variable {a : Assignment} (ha : Plain a)
include ha

theorem Plain.search_line (hname : Word a.name) (t : Bytes) :
    search a.name (a.quote.toList ++ (a.name ++ t)) = some a.quote.toList.length := by
  have hskip : search a.name (a.quote.toList ++ (a.name ++ t)) =
      (search a.name (a.name ++ t)).map (a.quote.toList.length + ·) := by
    apply search_skip
    intro u r hu hr hpre
    obtain ⟨c, r, rfl⟩ := List.exists_cons_of_ne_nil hr
    obtain ⟨d, w, hw⟩ := List.exists_cons_of_ne_nil hname.1
    have hc : isQuote c = true := by
      refine ha.quote c (Option.mem_toList.mp ?_)
      rw [hu]
      exact List.mem_append_right u List.mem_cons_self
    have hd : isName d = true := hname.2 d (by rw [hw]; exact List.mem_cons_self)
    rw [hw, List.cons_append, List.cons_prefix_cons] at hpre
    have hplain := (name_spec d hd).2.2
    rw [hpre.1, hc] at hplain
    cases hplain
  rw [hskip, search_prefix (List.prefix_append a.name t)]
  rfl

/-- The lookup stops at the name of the line. -/
theorem Plain.found {p : Bytes} (hp : ∀ c ∈ p.getLast?, c = lineFeed) (x : Bytes) (k : Nat) :
    assignedLoop (p ++ (line a ++ x)) a.name (k + 1) p.length =
      some (some (p ++ a.quote.toList).length) := by
  have hmarked : ¬ Marked ((p ++ a.quote.toList).getLast?.getD 0) := by
    rcases lead a hp with ⟨q, hq, hlead⟩ | ⟨-, hlead | hlead⟩ <;> rw [hlead]
    · exact unmarked.2.2 q (ha.quote q hq)
    · exact unmarked.1
    · exact unmarked.2.1
  have hround := assignedLoop_found (p := p)
    (ha.search_line ha.word (equals :: (a.value ++ a.quote.toList ++ [lineFeed] ++ x))) k
  have hequals : ¬ peek (equals :: (a.value ++ a.quote.toList ++ [lineFeed] ++ x)) 0 ≠ equals :=
    not_not_intro rfl
  rw [if_neg (not_or_intro hmarked hequals)] at hround
  rw [line, List.append_assoc, List.append_assoc]
  exact hround

/-- The value behind it is the one of the line. -/
theorem Plain.value {p : Bytes} (hp : ∀ c ∈ p.getLast?, c = lineFeed) (x : Bytes) :
    valueLoop (before (p ++ (line a ++ x)) (p ++ a.quote.toList).length) equals
      ((p ++ (line a ++ x)).drop ((p ++ a.quote.toList).length + a.name.length + 1)) = a.value := by
  have hbefore : before (p ++ (line a ++ x)) (p ++ a.quote.toList).length =
      (p ++ a.quote.toList).getLast?.getD 0 := by
    rw [line, List.append_assoc, List.append_assoc, ← List.append_assoc p, before_append]
  have hdrop : (p ++ (line a ++ x)).drop ((p ++ a.quote.toList).length + a.name.length + 1) =
      a.value ++ (a.quote.toList ++ lineFeed :: x) := by
    rw [line, List.append_assoc, List.append_assoc, ← List.append_assoc p, Nat.add_assoc,
      ← List.drop_drop, List.drop_left, ← List.drop_drop, List.drop_left]
    simp only [List.cons_append, List.append_assoc, List.nil_append, List.drop_succ_cons,
      List.drop_zero]
  rw [hbefore, hdrop]
  have hends := ha.ends
  have hlead := lead a hp
  generalize (p ++ a.quote.toList).getLast?.getD 0 = c at hlead
  rcases hlead with ⟨q, hq, rfl⟩ | ⟨hq, hc⟩
  · rw [hq] at hends ⊢
    refine valueLoop_quoted (ha.quote c hq) hends.1 ?_ _
    cases hvalue : a.value with
    | nil => decide
    | cons d v =>
        rw [List.getLast?_cons_cons, ← hvalue]
        exact hends.2
  · rw [hq] at hends ⊢
    rcases hc with rfl | rfl
    · exact valueLoop_unquoted (by decide) hends _ _
    · exact valueLoop_unquoted (by decide) hends _ _

end

theorem text_cons (a : Assignment) (env : List Assignment) :
    text (a :: env) = line a ++ text env := rfl

theorem lookup_cons (a : Assignment) (env : List Assignment) (name : Bytes) :
    lookup (a :: env) name = if a.name = name then some a.value else lookup env name := by
  rw [lookup, List.find?_cons]
  by_cases h : a.name = name
  · rw [decide_eq_true h, if_pos h]
    rfl
  · rw [decide_eq_false h, if_neg h]
    rfl

/-- The lookup in the lines behind a part that ends with a line. -/
theorem assignedLoop_text {env : List Assignment} (henv : ∀ a ∈ env, Plain a) {name : Bytes}
    (hname : Word name) {p : Bytes} (hp : ∀ c ∈ p.getLast?, c = lineFeed) {k : Nat}
    (hk : (text env).length < k) :
    (assignedLoop (p ++ text env) name k p.length).map (Option.map fun i =>
      valueLoop (before (p ++ text env) i) equals ((p ++ text env).drop (i + name.length + 1))) =
        some (lookup env name) := by
  induction env generalizing p with
  | nil =>
      cases k with
      | zero => cases hk
      | succ k =>
          have hfind : search name [] = none := by rw [search, if_neg hname.1]
          rw [text, List.flatMap_nil, assignedLoop_none hfind]
          rfl
  | cons a env ih =>
      have ha := henv a List.mem_cons_self
      rw [text_cons] at hk ⊢
      by_cases heq : a.name = name
      · subst heq
        cases k with
        | zero => cases hk
        | succ k =>
            rw [ha.found hp, Option.map_some, Option.map_some, ha.value hp, lookup_cons,
              if_pos rfl]
      · have hskip := assignedLoop_skip hname.1 hk fun u b => ha.skips hname heq p (text env)
        have hrest := ih (fun a ha => henv a (List.mem_cons_of_mem _ ha)) (p := p ++ line a)
          (fun c hc => Option.some.inj (hc.symm.trans (getLast_line p a)))
          (by rw [List.length_append] at hk; omega)
        rw [← List.append_assoc, hskip, hrest, lookup_cons, if_neg heq]

/-- Every name is looked up in its line. -/
theorem assigned_text {env : List Assignment} (henv : ∀ a ∈ env, Plain a) {name : Bytes}
    (hname : Word name) : assigned (text env) name = some (lookup env name) :=
  assignedLoop_text henv hname (p := []) nofun (Nat.lt_succ_self _)

end ULib.EnvironmentText
