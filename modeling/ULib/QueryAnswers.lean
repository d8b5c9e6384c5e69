import Mathlib.Data.List.Nodup
import Mathlib.Data.List.Perm.Subperm
import ULib.DisjunctiveNormalForm
import ULib.QueryEvaluation
import ULib.QueryRoundTrip

/-!
The answer to a query is the truth value of the expression that its text denotes
exactly if the expression can be true at all and no three NOTs stand before a
word, for texts that the parser reads as they are meant, and addresses that are
found in the table only where they were put.
-/

namespace ULib.QueryAnswers

open ULib.KeyComparison
open ULib.ByteMemory
open ULib.EscapeCoding
open ULib.QueryTree
open ULib.QueryTree.UQueryNode
open ULib.DisjunctiveNormalForm
open ULib.QueryParser
open ULib.QueryDescent
open ULib.QuerySyntax
open ULib.QueryRoundTrip
open ULib.QueryEvaluation

/-! ### The table -/

def digit (b : Bool) : UInt8 := if b then '1'.toUInt8 else '0'.toUInt8

/-- The records of the table. -/
def table (f : Bytes → Bool) (words : List Bytes) : Bytes :=
  words.flatMap fun a => a ++ [digit (f a)]

/-- No address is found across the border of two records. -/
def Unambiguous (addresses : List Bytes) : Prop :=
  ∀ w ∈ addresses, ∀ a ∈ addresses, ∀ b ∈ addresses, ∀ c : Bool, ∀ k < 8,
    w ≠ a.drop (k + 1) ++ digit c :: b.take k

instance (addresses : List Bytes) : Decidable (Unambiguous addresses) :=
  inferInstanceAs (Decidable (∀ _ ∈ _, ∀ _ ∈ _, ∀ _ ∈ _, ∀ _, ∀ _ < _, _ ≠ _))

section Table

variable {f : Bytes → Bool} {addresses words : List Bytes} {w : Bytes}

theorem table_cons (a : Bytes) (words : List Bytes) :
    table f (a :: words) = a ++ digit (f a) :: table f words := by
  rw [table, List.flatMap_cons, List.append_assoc]
  rfl

theorem table_append (before after : List Bytes) :
    table f (before ++ after) = table f before ++ table f after :=
  List.flatMap_append

theorem length_table (hwidth : ∀ a ∈ words, a.length = 8) :
    (table f words).length = 9 * words.length := by
  induction words with
  | nil => rfl
  | cons a words ih =>
      rw [table_cons, List.length_append, List.length_cons, List.length_cons,
        ih fun b hb => hwidth b (List.mem_cons_of_mem a hb), hwidth a List.mem_cons_self]
      omega

/-- The table begins with the front of an address. -/
theorem take_table (hwidth : ∀ a ∈ addresses, a.length = 8) (hsub : ∀ a ∈ words, a ∈ addresses)
    {a : Bytes} (ha : a ∈ addresses) {k : Nat} (hk : k < 8)
    (hlong : k ≤ (table f words).length) :
    ∃ b ∈ addresses, (table f words).take k = b.take k := by
  cases words with
  | nil =>
      obtain rfl : k = 0 := Nat.le_zero.mp hlong
      exact ⟨a, ha, rfl⟩
  | cons b words =>
      have hb := hsub b List.mem_cons_self
      refine ⟨b, hb, ?_⟩
      rw [table_cons, List.take_append_of_le_length (by rw [hwidth b hb]; omega)]

/-- An address stands in the table only where a record begins with it. -/
theorem table_found (hwidth : ∀ a ∈ addresses, a.length = 8) (hun : Unambiguous addresses)
    (hsub : ∀ a ∈ words, a ∈ addresses) (hw : w ∈ addresses) {i : Nat}
    (hi : i + 8 ≤ (table f words).length)
    (hfound : ((table f words).drop i).take 8 = w) :
    ∃ before after, words = before ++ w :: after ∧ i = 9 * before.length := by
  induction words generalizing i with
  | nil => exact absurd hi (by simp [table])
  | cons a words ih =>
      have ha := hwidth a (hsub a List.mem_cons_self)
      have hsub' : ∀ b ∈ words, b ∈ addresses := fun b hb => hsub b (List.mem_cons_of_mem a hb)
      rw [table_cons] at hi hfound
      rw [List.length_append, List.length_cons, ha] at hi
      rcases Nat.lt_or_ge i 9 with hlt | hge
      · cases i with
        | zero =>
            rw [List.drop_zero, List.take_left' ha] at hfound
            exact ⟨[], words, by rw [hfound]; rfl, rfl⟩
        | succ k =>
            obtain ⟨b, hb, htake⟩ := take_table (f := f) hwidth hsub'
              (hsub a List.mem_cons_self) (k := k) (by omega) (by omega)
            refine absurd ?_ (hun w hw a (hsub a List.mem_cons_self) b hb (f a) k (by omega))
            rw [← hfound, List.drop_append_of_le_length (by omega), List.take_append,
              List.take_of_length_le (by rw [List.length_drop]; omega), List.length_drop, ha,
              show 8 - (8 - (k + 1)) = k + 1 by omega, List.take_succ_cons, htake]
      · obtain ⟨j, rfl⟩ : ∃ j, i = j + 9 := ⟨i - 9, by omega⟩
        have hdrop : (a ++ digit (f a) :: table f words).drop (j + 9) =
            (table f words).drop j := by
          rw [List.drop_append, List.drop_eq_nil_of_le (by omega), ha, List.nil_append,
            show j + 9 - 8 = j + 1 by omega, List.drop_succ_cons]
        rw [hdrop] at hfound
        obtain ⟨before, after, rfl, rfl⟩ := ih hsub' (by omega) hfound
        exact ⟨a :: before, after, rfl, by rw [List.length_cons]; omega⟩

theorem u_find_some {s a : Bytes} {pos : Nat} (h : u_find s a = some pos) :
    (s.drop pos).take a.length = a ∧ pos < s.length + 1 - a.length := by
  rw [u_find] at h
  have hfound := List.find?_some h
  exact ⟨eq_of_beq hfound, List.mem_range.mp (List.mem_of_find?_eq_some h)⟩

theorem u_find_none {s a : Bytes} (h : u_find s a = none) {pos : Nat}
    (hpos : pos + a.length ≤ s.length) : (s.drop pos).take a.length ≠ a := by
  intro hfound
  exact List.find?_eq_none.mp h pos (List.mem_range.mpr (by omega)) (beq_iff_eq.mpr hfound)

/-- A lookup in the table. -/
theorem u_find_table (hwidth : ∀ a ∈ addresses, a.length = 8) (hun : Unambiguous addresses)
    (hsub : ∀ a ∈ words, a ∈ addresses) (hw : w ∈ addresses) :
    (∃ before after, words = before ++ w :: after ∧
      u_find (table f words) w = some (9 * before.length)) ∨
      w ∉ words ∧ u_find (table f words) w = none := by
  have hlength := length_table (f := f) fun a ha => hwidth a (hsub a ha)
  cases hfind : u_find (table f words) w with
  | some pos =>
      obtain ⟨hfound, hpos⟩ := u_find_some hfind
      rw [hwidth w hw] at hfound hpos
      obtain ⟨before, after, hwords, rfl⟩ := table_found hwidth hun hsub hw (by omega) hfound
      exact .inl ⟨before, after, hwords, rfl⟩
  | none =>
      refine .inr ⟨fun hmem => ?_, rfl⟩
      obtain ⟨before, after, rfl⟩ := List.append_of_mem hmem
      have hbefore := length_table (f := f)
        fun a (ha : a ∈ before) => hwidth a (hsub a (List.mem_append_left _ ha))
      rw [List.length_append, List.length_cons] at hlength
      refine u_find_none hfind (show 9 * before.length + w.length ≤ _ by rw [hwidth w hw]; omega) ?_
      rw [table_append, table_cons, ← hbefore, List.drop_left', List.take_left']
      · rfl
      · rfl

/-- The table of a state has the records of these words. -/
structure Records (f : Bytes → Bool) (addresses : List Bytes) (s : Evaluation)
    (words : List Bytes) : Prop where
  bytes : read s.u_buffer 0 s.u_buffer_len = table f words
  sub : ∀ a ∈ words, a ∈ addresses
  nodup : words.Nodup

theorem Records.length {s : Evaluation} (h : Records f addresses s words)
    (hwidth : ∀ a ∈ addresses, a.length = 8) : s.u_buffer_len = 9 * words.length := by
  have hlength := congrArg List.length h.bytes
  rwa [length_read, length_table fun a ha => hwidth a (h.sub a ha)] at hlength

theorem beq_digit (b : Bool) : (digit b == '1'.toUInt8) = b := by
  cases b <;> decide

theorem and_answer (b positive result : Bool) :
    (if positive ≠ result then false else b) = (b && (positive == result)) := by
  cases b <;> cases positive <;> cases result <;> rfl

/-- The digit of a record. -/
theorem Records.digit {s : Evaluation} {before after : List Bytes}
    (h : Records f addresses s (before ++ w :: after))
    (hwidth : ∀ a ∈ addresses, a.length = 8) :
    s.u_buffer (9 * before.length + w.length) = digit (f w) := by
  have hlength := h.length hwidth
  have hw := hwidth w (h.sub w (List.mem_append_right _ List.mem_cons_self))
  have hbefore := length_table (f := f)
    fun a (ha : a ∈ before) => hwidth a (h.sub a (List.mem_append_left _ ha))
  have hget := getElem?_read s.u_buffer 0 s.u_buffer_len (9 * before.length + w.length) (by
    rw [hlength, List.length_append, List.length_cons]
    omega)
  rw [h.bytes, table_append, table_cons, List.getElem?_append_right (by omega),
    List.getElem?_append_right (by omega),
    show 9 * before.length + w.length - (table f before).length - w.length = 0 by omega,
    Nat.zero_add] at hget
  exact (Option.some.inj hget).symm

/-- An evaluation gives the reply of the callback, whether it is called or not. -/
theorem evaluateWord_spec (hwidth : ∀ a ∈ addresses, a.length = 8) (hun : Unambiguous addresses)
    (hfits : 9 * addresses.length ≤ U_MAX_SIZE_PREALLOCATE) {s : Evaluation}
    (h : Records f addresses s words) (hw : w ∈ addresses) (positive : Bool) :
    ∃ s' words', evaluateWord f w positive s = some s' ∧
      Records f addresses s' words' ∧
      s'.partial_ = (s.partial_ && (positive == f w)) := by
  have hlength := h.length hwidth
  have hp : (if s.u_buffer_len ≠ 0 then u_find (read s.u_buffer 0 s.u_buffer_len) w else none) =
      u_find (table f words) w := by
    split
    · rw [h.bytes]
    · rename_i hzero
      obtain rfl : words = [] := List.length_eq_zero_iff.mp (by omega)
      have hempty : (table f []).length + 1 - w.length = 0 := by
        rw [hwidth w hw]
        rfl
      rw [u_find, hempty]
      rfl
  rw [evaluateWord, hp]
  rcases u_find_table (f := f) hwidth hun h.sub hw with ⟨before, after, rfl, hfind⟩ | ⟨hnew, hfind⟩
  · rw [hfind]
    refine ⟨_, _, rfl, ⟨h.bytes, h.sub, h.nodup⟩, ?_⟩
    dsimp only
    rw [h.digit hwidth, beq_digit]
    exact and_answer s.partial_ positive (f w)
  · rw [hfind]
    have hlength_record : (w ++ [digit (f w)]).length = 9 := by
      rw [List.length_append, hwidth w hw, List.length_singleton]
    have hnodup : (words ++ [w]).Nodup := List.nodup_append.mpr
      ⟨h.nodup, List.nodup_singleton w, fun a ha b hb => by
        rw [List.mem_singleton.mp hb]
        exact fun heq => hnew (heq ▸ ha)⟩
    have hsub : ∀ a ∈ words ++ [w], a ∈ addresses := by
      intro a ha
      rcases List.mem_append.mp ha with ha | ha
      · exact h.sub a ha
      · rwa [List.mem_singleton.mp ha]
    have hcount : (words ++ [w]).length ≤ addresses.length :=
      (List.subperm_of_subset hnodup hsub).length_le
    rw [List.length_append, List.length_singleton] at hcount
    have hroom : ¬ U_MAX_SIZE_PREALLOCATE < s.u_buffer_len + (w ++ [digit (f w)]).length := by
      omega
    dsimp only [digit] at hroom
    dsimp only
    rw [if_neg hroom]
    refine ⟨_, _, rfl, ⟨?_, hsub, hnodup⟩, and_answer s.partial_ positive (f w)⟩
    dsimp only
    rw [read_append, read_write_apart _ _ (.inr (Nat.zero_add _).le), h.bytes, Nat.zero_add,
      read_write_same, table_append, table_cons]
    rfl

/-- All entries of a set, up to the first that makes the term false. -/
theorem callForAllEntry_spec (hwidth : ∀ a ∈ addresses, a.length = 8)
    (hun : Unambiguous addresses) (hfits : 9 * addresses.length ≤ U_MAX_SIZE_PREALLOCATE)
    {s : Evaluation} (h : Records f addresses s words) (positive : Bool) {vec : List Bytes}
    (hvec : ∀ a ∈ vec, a ∈ addresses) :
    ∃ s' words', callForAllEntry f positive vec s = some s' ∧
      Records f addresses s' words' ∧
      s'.partial_ = (s.partial_ && vec.all fun a => positive == f a) := by
  induction vec generalizing s words with
  | nil => exact ⟨s, words, rfl, h, (Bool.and_true _).symm⟩
  | cons w vec ih =>
      have hw := hvec w List.mem_cons_self
      have hfirst : ∃ s' words', (if positive = true ∨ s.partial_ = true then
          evaluateWord f w positive s else some s) = some s' ∧ Records f addresses s' words' ∧
          s'.partial_ = (s.partial_ && (positive == f w)) := by
        split
        · exact evaluateWord_spec hwidth hun hfits h hw positive
        · rename_i hnot
          have hfalse : s.partial_ = false := Bool.not_eq_true _ ▸ fun ht => hnot (.inr ht)
          exact ⟨s, words, rfl, h, by rw [hfalse, Bool.false_and]⟩
      obtain ⟨s₁, words₁, heval, h₁, hpartial⟩ := hfirst
      rw [callForAllEntry, heval]
      dsimp only [Option.bind_eq_bind, Option.bind_some]
      rw [List.all_cons, ← Bool.and_assoc, ← hpartial]
      split
      · exact ih h₁ fun a ha => hvec a (List.mem_cons_of_mem w ha)
      · rename_i hstop
        rw [Bool.not_eq_true] at hstop
        exact ⟨s₁, words₁, rfl, h₁, by rw [hstop, Bool.false_and]⟩

theorem evaluateTerms_spec (hwidth : ∀ a ∈ addresses, a.length = 8)
    (hun : Unambiguous addresses) (hfits : 9 * addresses.length ≤ U_MAX_SIZE_PREALLOCATE)
    {s : Evaluation} (h : Records f addresses s words)
    {terms : List (List Bytes × List Bytes)}
    (hterms : ∀ sets ∈ terms, ∀ a ∈ sets.1 ++ sets.2, a ∈ addresses) :
    evaluateTerms f terms s = some (terms.any fun sets =>
      (sets.1.all fun a => true == f a) && sets.2.all fun a => false == f a) := by
  induction terms generalizing s words with
  | nil => rfl
  | cons sets terms ih =>
      obtain ⟨positives, negatives⟩ := sets
      have hmem := hterms _ List.mem_cons_self
      obtain ⟨s₁, words₁, hpos, h₁, hpartial₁⟩ := callForAllEntry_spec hwidth hun hfits
        (s := { s with partial_ := true }) ⟨h.bytes, h.sub, h.nodup⟩ true
        fun a (ha : a ∈ positives) => hmem a (List.mem_append_left _ ha)
      obtain ⟨s₂, words₂, hneg, h₂, hpartial₂⟩ := callForAllEntry_spec hwidth hun hfits h₁ false
        fun a (ha : a ∈ negatives) => hmem a (List.mem_append_right _ ha)
      rw [hpartial₁, Bool.true_and] at hpartial₂
      rw [evaluateTerms, hpos]
      dsimp only [Option.bind_eq_bind, Option.bind_some]
      rw [hneg]
      dsimp only [Option.bind_some]
      rw [List.any_cons, ← hpartial₂]
      split
      · rename_i htrue
        rw [htrue, Bool.true_or]
      · rename_i hfalse
        rw [Bool.not_eq_true] at hfalse
        rw [hfalse, Bool.false_or]
        exact ih h₂ fun sets hsets => hterms sets (List.mem_cons_of_mem _ hsets)

end Table

/-! ### The words of a term -/

/-- The words without and with a NOT. -/
def positiveWords : Query → List Bytes
  | .value v => [v]
  | .and p q => positiveWords p ++ positiveWords q
  | _ => []

def negativeWords : Query → List Bytes
  | .not p => p.values
  | .and p q => negativeWords p ++ negativeWords q
  | _ => []

theorem eval_term {t : Query} (h : Term t) (σ : Bytes → Bool) :
    t.eval σ = true ↔ (∀ w ∈ positiveWords t, σ w = true) ∧ ∀ w ∈ negativeWords t, σ w = false := by
  induction t with
  | value v => simp [Query.eval, positiveWords, negativeWords]
  | not p =>
      obtain ⟨v, rfl⟩ := Dnf.not (p := p) (Dnf.of_term h)
      simp [Query.eval, positiveWords, negativeWords, Query.values]
  | or p q => exact h.elim
  | and p q ihp ihq =>
      rw [Query.eval, Bool.and_eq_true, ihp h.1, ihq h.2]
      simp only [positiveWords, negativeWords, List.mem_append, or_imp, forall_and]
      tauto

section Sets

variable {text : Bytes → Bytes}

theorem find_iff {vec : List Bytes} {str : Bytes} :
    find text vec str = true ↔ text str ∈ vec.map text := by
  rw [find, List.any_eq_true, List.mem_map]
  constructor
  · rintro ⟨r, hr, heq⟩
    exact ⟨r, hr, (eq_of_beq heq).symm⟩
  · rintro ⟨r, hr, heq⟩
    exact ⟨r, hr, beq_iff_eq.mpr heq.symm⟩

/-- A set has one word for each text. -/
theorem mem_insertAsSet {vec : List Bytes} {str x : Bytes} :
    x ∈ (insertAsSet text vec str).map text ↔ x ∈ vec.map text ∨ x = text str := by
  rw [insertAsSet]
  split
  · rw [List.map_append, List.mem_append, List.map_singleton, List.mem_singleton]
  · rename_i hfound
    have hmem : text str ∈ vec.map text := find_iff.mp (by
      rw [← Bool.not_eq_false]
      exact fun hfalse => hfound (.inr hfalse))
    constructor
    · exact .inl
    · rintro (hx | rfl)
      · exact hx
      · exact hmem

theorem insertAsSet_sub {vec : List Bytes} {str w : Bytes} (h : w ∈ insertAsSet text vec str) :
    w ∈ vec ∨ w = str := by
  rw [insertAsSet] at h
  split at h
  · exact (List.mem_append.mp h).imp id List.mem_singleton.mp
  · exact .inl h

/-- The sets of a term, with what they held before. -/
structure Collected (text : Bytes → Bytes) (t : Query) (sets sets' : List Bytes × List Bytes) :
    Prop where
  positives : ∀ x, x ∈ sets'.1.map text ↔ x ∈ sets.1.map text ∨ x ∈ (positiveWords t).map text
  negatives : ∀ x, x ∈ sets'.2.map text ↔ x ∈ sets.2.map text ∨ x ∈ (negativeWords t).map text
  values : ∀ w ∈ sets'.1 ++ sets'.2, w ∈ sets.1 ++ sets.2 ∨ w ∈ t.values

theorem getTreeVariables_and (p q : Query) (sets : List Bytes × List Bytes) :
    getTreeVariables text (Query.and p q).toNode sets =
      (getTreeVariables text p.toNode sets).bind (getTreeVariables text q.toNode) := by
  cases sets
  rfl

variable (text) in
theorem getTreeVariables_term {t : Query} (h : Term t) (sets : List Bytes × List Bytes) :
    ∃ sets', getTreeVariables text t.toNode sets = some sets' ∧ Collected text t sets sets' := by
  induction t generalizing sets with
  | value v =>
      refine ⟨(insertAsSet text sets.1 v, sets.2), rfl, fun x => ?_, fun x => ?_, fun w hw => ?_⟩
      · rw [mem_insertAsSet]
        simp [positiveWords]
      · simp [negativeWords]
      · rcases List.mem_append.mp hw with hw | hw
        · exact (insertAsSet_sub hw).imp (List.mem_append_left _) List.mem_singleton.mpr
        · exact .inl (List.mem_append_right _ hw)
  | not p =>
      obtain ⟨v, rfl⟩ := Dnf.not (p := p) (Dnf.of_term h)
      refine ⟨(sets.1, insertAsSet text sets.2 v), rfl, fun x => ?_, fun x => ?_, fun w hw => ?_⟩
      · simp [positiveWords]
      · rw [mem_insertAsSet]
        simp [negativeWords, Query.values]
      · rcases List.mem_append.mp hw with hw | hw
        · exact .inl (List.mem_append_left _ hw)
        · exact (insertAsSet_sub hw).imp (List.mem_append_right _) List.mem_singleton.mpr
  | or p q => exact h.elim
  | and p q ihp ihq =>
      obtain ⟨sets₁, h₁, hp⟩ := ihp h.1 sets
      obtain ⟨sets₂, h₂, hq⟩ := ihq h.2 sets₁
      refine ⟨sets₂, ?_, fun x => ?_, fun x => ?_, fun w hw => ?_⟩
      · rw [getTreeVariables_and, h₁]
        exact h₂
      · rw [hq.positives, hp.positives, positiveWords, List.map_append, List.mem_append, or_assoc]
      · rw [hq.negatives, hp.negatives, negativeWords, List.map_append, List.mem_append, or_assoc]
      · rw [Query.values, List.mem_append (s := p.values)]
        rcases hq.values w hw with hw | hw
        · exact (hp.values w hw).imp id .inl
        · exact .inr (.inr hw)

theorem all_texts {vec words : List Bytes} (h : ∀ x, x ∈ vec.map text ↔ x ∈ words.map text)
    (σ : Bytes → Bool) (b : Bool) :
    (vec.all fun a => b == σ (text a)) = true ↔ ∀ w ∈ words, σ (text w) = b := by
  have hforall : (∀ x ∈ vec.map text, b = σ x) ↔ ∀ x ∈ words.map text, b = σ x :=
    forall_congr' fun x => by rw [h x]
  rw [List.forall_mem_map, List.forall_mem_map] at hforall
  rw [List.all_eq_true]
  simp only [beq_iff_eq]
  rw [hforall]
  exact forall₂_congr fun w _ => eq_comm

/-- The sets decide the term. -/
theorem Collected.eval {t : Query} {sets : List Bytes × List Bytes}
    (h : Collected text t ([], []) sets) (ht : Term t) (σ : Bytes → Bool) :
    ((sets.1.all fun a => true == σ (text a)) && sets.2.all fun a => false == σ (text a)) =
      t.eval fun a => σ (text a) := by
  have hpos : ∀ x, x ∈ sets.1.map text ↔ x ∈ (positiveWords t).map text := by
    simpa using h.positives
  have hneg : ∀ x, x ∈ sets.2.map text ↔ x ∈ (negativeWords t).map text := by
    simpa using h.negatives
  rw [Bool.eq_iff_iff, eval_term ht, Bool.and_eq_true, all_texts hpos, all_texts hneg]

theorem intersection_iff {set1 set2 : List Bytes} :
    ((intersection text set1 set2).length == 0) = true ↔
      ∀ w ∈ set1, text w ∉ set2.map text := by
  rw [beq_iff_eq, List.length_eq_zero_iff, intersection]
  split
  · rename_i hempty
    simp only [List.isEmpty_iff] at hempty
    rcases hempty with rfl | rfl
    · exact iff_of_true rfl fun w hw => absurd hw List.not_mem_nil
    · exact iff_of_true rfl fun w _ => List.not_mem_nil
  · rw [List.filter_eq_nil_iff]
    exact forall₂_congr fun w _ => not_congr find_iff

variable (text) in
/-- Useful are the terms that can be true. -/
theorem isDNFTermUseful_term {t : Query} (ht : Term t) :
    ∃ b, isDNFTermUseful text t.toNode = some b ∧
      (b = true ↔ ∃ σ : Bytes → Bool, (t.eval fun a => σ (text a)) = true) := by
  obtain ⟨sets, hsets, h⟩ := getTreeVariables_term text ht ([], [])
  refine ⟨_, by rw [isDNFTermUseful, hsets]; rfl, ?_⟩
  rw [intersection_iff]
  constructor
  · intro hdisjoint
    obtain ⟨σ, hσ⟩ : ∃ σ : Bytes → Bool, ∀ x, σ x = decide (x ∈ sets.1.map text) :=
      ⟨_, fun _ => rfl⟩
    refine ⟨σ, ?_⟩
    rw [← h.eval ht σ, Bool.and_eq_true, List.all_eq_true, List.all_eq_true]
    constructor
    · intro a ha
      rw [hσ, decide_eq_true (List.mem_map_of_mem ha)]
      rfl
    · intro a ha
      rw [hσ, decide_eq_false fun hmem => ?_]
      · rfl
      obtain ⟨w, hw, heq⟩ := List.mem_map.mp hmem
      exact hdisjoint w hw (heq ▸ List.mem_map_of_mem ha)
  · rintro ⟨σ, hσ⟩ w hw hmem
    rw [← h.eval ht, Bool.and_eq_true, List.all_eq_true, List.all_eq_true] at hσ
    obtain ⟨a, ha, heq⟩ := List.mem_map.mp hmem
    have htrue := eq_of_beq (hσ.1 w hw)
    have hfalse := eq_of_beq (hσ.2 a ha)
    rw [heq, ← htrue] at hfalse
    cases hfalse

end Sets

/-! ### Sums of terms -/

/-- The terms of a sum. -/
def terms : Query → List Query
  | .or p q => terms p ++ terms q
  | p => [p]

theorem terms_term {t : Query} (h : Term t) : terms t = [t] := by
  cases t with
  | or p q => exact h.elim
  | value v => rfl
  | and p q => rfl
  | not p => rfl

theorem terms_ne_nil (e : Query) : terms e ≠ [] := by
  induction e with
  | or p q ihp _ => exact List.append_ne_nil_of_left_ne_nil ihp _
  | value v => exact List.cons_ne_nil _ _
  | and p q => exact List.cons_ne_nil _ _
  | not p => exact List.cons_ne_nil _ _

theorem term_of_mem {e t : Query} (h : Dnf e) (ht : t ∈ terms e) : Term t := by
  induction e with
  | or p q ihp ihq => exact (List.mem_append.mp ht).elim (ihp h.1) (ihq h.2)
  | value v => exact List.mem_singleton.mp ht ▸ h
  | and p q => exact List.mem_singleton.mp ht ▸ h
  | not p => exact List.mem_singleton.mp ht ▸ h

theorem eval_terms (e : Query) (σ : Bytes → Bool) : e.eval σ = (terms e).any fun t => t.eval σ := by
  induction e with
  | or p q ihp ihq => rw [Query.eval, terms, List.any_append, ihp, ihq]
  | value v => exact (Bool.or_false _).symm
  | and p q => exact (Bool.or_false _).symm
  | not p => exact (Bool.or_false _).symm

theorem values_terms {e t : Query} (ht : t ∈ terms e) : ∀ w ∈ t.values, w ∈ e.values := by
  induction e with
  | or p q ihp ihq =>
      intro w hw
      exact List.mem_append.mpr ((List.mem_append.mp ht).imp (fun h => ihp h w hw) fun h => ihq h w hw)
  | value v => exact List.mem_singleton.mp ht ▸ fun _ => id
  | and p q => exact List.mem_singleton.mp ht ▸ fun _ => id
  | not p => exact List.mem_singleton.mp ht ▸ fun _ => id

theorem getDNFTermRoots_toNode (e : Query) :
    getDNFTermRoots e.toNode = some ((terms e).map Query.toNode) := by
  induction e with
  | or p q ihp ihq =>
      rw [Query.toNode, UQueryNode.ofType, getDNFTermRoots, ihp, ihq, terms, List.map_append]
      rfl
  | value v => rfl
  | and p q => rfl
  | not p => rfl

/-- Terms joined to a sum. -/
def sum (t : Query) (ts : List Query) : Query := ts.foldl .or t

theorem joinTreesWithOrNodes_cons (t : Query) (ts : List Query) :
    joinTreesWithOrNodes ((t :: ts).map Query.toNode) = (sum t ts).toNode := by
  rw [List.map_cons, joinTreesWithOrNodes, sum]
  induction ts generalizing t with
  | nil => rfl
  | cons u ts ih => exact ih (.or t u)

theorem terms_sum (t : Query) (ts : List Query) :
    terms (sum t ts) = terms t ++ ts.flatMap terms := by
  rw [sum]
  induction ts generalizing t with
  | nil => exact (List.append_nil _).symm
  | cons u ts ih => rw [List.foldl_cons, ih, terms, List.flatMap_cons, List.append_assoc]

theorem terms_sum_terms {t : Query} {ts : List Query} (h : ∀ u ∈ t :: ts, Term u) :
    terms (sum t ts) = t :: ts := by
  have hsingle : ts.flatMap terms = ts := by
    induction ts with
    | nil => rfl
    | cons u ts ih =>
        rw [List.flatMap_cons, terms_term (h u (List.mem_cons_of_mem t List.mem_cons_self)),
          ih fun v hv => h v (List.mem_cons.mpr
            ((List.mem_cons.mp hv).imp id (List.mem_cons_of_mem u)))]
        rfl
  rw [terms_sum, terms_term (h t List.mem_cons_self), hsingle]
  rfl

theorem mem_values_sum {t : Query} {ts : List Query} {w : Bytes} (h : w ∈ (sum t ts).values) :
    ∃ u ∈ t :: ts, w ∈ u.values := by
  rw [sum] at h
  induction ts generalizing t with
  | nil => exact ⟨t, List.mem_cons_self, h⟩
  | cons u ts ih =>
      obtain ⟨v, hv, hw⟩ := ih (t := .or t u) h
      rcases List.mem_cons.mp hv with rfl | hv
      · rcases List.mem_append.mp hw with hw | hw
        · exact ⟨t, List.mem_cons_self, hw⟩
        · exact ⟨u, List.mem_cons_of_mem t List.mem_cons_self, hw⟩
      · exact ⟨v, List.mem_cons_of_mem t (List.mem_cons_of_mem u hv), hw⟩

theorem dnf_sum {t : Query} {ts : List Query} (ht : Dnf t) (hts : ∀ u ∈ ts, Dnf u) :
    Dnf (sum t ts) := by
  rw [sum]
  induction ts generalizing t with
  | nil => exact ht
  | cons u ts ih =>
      exact ih (t := .or t u) ⟨ht, hts u List.mem_cons_self⟩
        fun v hv => hts v (List.mem_cons_of_mem u hv)

section Pipeline

variable {text : Bytes → Bytes}

/-- The expression can be true. -/
def Satisfiable (text : Bytes → Bytes) (e : Query) : Prop :=
  ∃ σ : Bytes → Bool, (e.eval fun a => σ (text a)) = true

variable (text) in
theorem usefulTerms_spec {ts : List Query} (hts : ∀ t ∈ ts, Term t) :
    ∃ us : List Query, usefulTerms text (ts.map Query.toNode) = some (us.map Query.toNode) ∧
      us.Sublist ts ∧ ∀ t, t ∈ us ↔ t ∈ ts ∧ Satisfiable text t := by
  induction ts with
  | nil => exact ⟨[], rfl, .slnil, fun t => by simp⟩
  | cons t ts ih =>
      obtain ⟨us, hus, hsub, hmem⟩ := ih fun u hu => hts u (List.mem_cons_of_mem t hu)
      obtain ⟨b, hb, huseful⟩ := isDNFTermUseful_term text (hts t List.mem_cons_self)
      rw [List.map_cons, usefulTerms, hb, hus]
      cases b with
      | true =>
          refine ⟨t :: us, rfl, hsub.cons_cons t, fun u => ?_⟩
          rw [List.mem_cons, List.mem_cons, hmem]
          constructor
          · rintro (rfl | ⟨hu, hsat⟩)
            · exact ⟨.inl rfl, huseful.mp rfl⟩
            · exact ⟨.inr hu, hsat⟩
          · rintro ⟨rfl | hu, hsat⟩
            · exact .inl rfl
            · exact .inr ⟨hu, hsat⟩
      | false =>
          refine ⟨us, rfl, hsub.cons t, fun u => ?_⟩
          rw [hmem, List.mem_cons]
          refine and_congr_left fun hsat => ⟨.inr, ?_⟩
          rintro (rfl | hu)
          · cases huseful.mpr hsat
          · exact hu

variable (text) in
theorem termVariables_spec {ts : List Query} (hts : ∀ t ∈ ts, Term t) :
    ∃ l, termVariables text (ts.map Query.toNode) = some l ∧
      (∀ σ : Bytes → Bool, (l.any fun sets => (sets.1.all fun a => true == σ (text a)) &&
        sets.2.all fun a => false == σ (text a)) = ts.any fun t => t.eval fun a => σ (text a)) ∧
      ∀ sets ∈ l, ∀ a ∈ sets.1 ++ sets.2, ∃ t ∈ ts, a ∈ t.values := by
  induction ts with
  | nil => exact ⟨[], rfl, fun _ => rfl, fun sets hsets => absurd hsets List.not_mem_nil⟩
  | cons t ts ih =>
      obtain ⟨l, hl, heval, hvalues⟩ := ih fun u hu => hts u (List.mem_cons_of_mem t hu)
      obtain ⟨sets, hsets, h⟩ := getTreeVariables_term text (hts t List.mem_cons_self)
        ([], [])
      refine ⟨sets :: l, ?_, fun σ => ?_, ?_⟩
      · rw [List.map_cons, termVariables, hsets, hl]
        rfl
      · rw [List.any_cons, List.any_cons, heval, h.eval (hts t List.mem_cons_self)]
      · rintro sets' hsets' a ha
        rcases List.mem_cons.mp hsets' with rfl | hmem
        · refine ⟨t, List.mem_cons_self, ?_⟩
          simpa using h.values a ha
        · obtain ⟨u, hu, hau⟩ := hvalues sets' hmem a ha
          exact ⟨u, List.mem_cons_of_mem t hu, hau⟩

variable (text) in
/-- The rewriting keeps the truth value, or leaves no tree. -/
theorem getDisjunctiveNormalForm_spec {fuel : Nat} {e : Query} {root : UQueryNode}
    (h : getRawDNF fuel e.toNode = some root) :
    ∃ tree, getDisjunctiveNormalForm text fuel e.toNode = some tree ∧
      (¬ Satisfiable text e → tree = .null) ∧
      (Satisfiable text e → ∃ d : Query, tree = d.toNode ∧ Dnf d ∧
        (∀ σ : Bytes → Bool, (d.eval fun a => σ (text a)) = e.eval fun a => σ (text a)) ∧
        ∀ w ∈ d.values, w ∈ e.values) := by
  obtain ⟨r, rfl, hr⟩ := getRawDNF_sound h
  obtain ⟨us, hus, hsub, hmem⟩ :=
    usefulTerms_spec text fun t (ht : t ∈ terms r) => term_of_mem hr.dnf ht
  have heval (σ : Bytes → Bool) :
      (us.any fun t => t.eval fun a => σ (text a)) = e.eval fun a => σ (text a) := by
    rw [← hr.eval, eval_terms r, Bool.eq_iff_iff, List.any_eq_true, List.any_eq_true]
    constructor
    · exact fun ⟨t, ht, htrue⟩ => ⟨t, ((hmem t).mp ht).1, htrue⟩
    · exact fun ⟨t, ht, htrue⟩ => ⟨t, (hmem t).mpr ⟨ht, σ, htrue⟩, htrue⟩
  have hsat : Satisfiable text e ↔ us ≠ [] := by
    constructor
    · rintro ⟨σ, hσ⟩ rfl
      rw [← heval] at hσ
      cases hσ
    · intro hne
      obtain ⟨t, ht⟩ := List.exists_mem_of_ne_nil us hne
      obtain ⟨σ, hσ⟩ := ((hmem t).mp ht).2
      exact ⟨σ, by rw [← heval]; exact List.any_eq_true.mpr ⟨t, ht, hσ⟩⟩
  have hrewrite : getDisjunctiveNormalForm text fuel e.toNode =
      some (if us.length = (terms r).length then r.toNode
        else joinTreesWithOrNodes (us.map Query.toNode)) := by
    rw [getDisjunctiveNormalForm, h]
    dsimp only [Option.bind_eq_bind, Option.bind_some]
    rw [if_neg (Query.toNode_ne_null r), getDNFTermRoots_toNode, Option.bind_some, hus,
      Option.bind_some, List.length_map, List.length_map]
  rw [hrewrite, hsat]
  refine ⟨_, rfl, fun hnone => ?_, fun hne => ?_⟩
  · obtain rfl : us = [] := not_not.mp hnone
    have hpos : ([] : List Query).length ≠ (terms r).length :=
      (List.length_pos_iff.mpr (terms_ne_nil r)).ne
    rw [if_neg hpos]
    rfl
  · by_cases hall : us.length = (terms r).length
    · rw [if_pos hall]
      exact ⟨r, rfl, hr.dnf, fun σ => hr.eval _, hr.values⟩
    · rw [if_neg hall]
      cases us with
      | nil => exact absurd rfl hne
      | cons u us =>
          have hterm : ∀ t ∈ u :: us, Term t := fun t ht => term_of_mem hr.dnf ((hmem t).mp ht).1
          rw [joinTreesWithOrNodes_cons]
          refine ⟨sum u us, rfl, dnf_sum (.of_term (hterm u List.mem_cons_self))
            fun v hv => .of_term (hterm v (List.mem_cons_of_mem u hv)), fun σ => ?_, ?_⟩
          · rw [eval_terms, terms_sum_terms hterm, heval]
          · intro w hw
            obtain ⟨t, ht, hwt⟩ := mem_values_sum hw
            exact hr.values w (values_terms ((hmem t).mp ht).1 w hwt)

/-- The callback is asked for the terms of a sum. -/
theorem evaluate_spec {d : Query} (hd : Dnf d) {addresses : List Bytes}
    (hwidth : ∀ a ∈ addresses, a.length = 8) (hun : Unambiguous addresses)
    (hfits : 9 * addresses.length ≤ U_MAX_SIZE_PREALLOCATE)
    (hvalues : ∀ w ∈ d.values, w ∈ addresses)
    (σ : Bytes → Bool) (u_buffer : Mem) :
    ((startEvaluate text d.toNode).bind fun l => evaluate (fun a => σ (text a)) l u_buffer) =
      some (d.eval fun a => σ (text a)) := by
  obtain ⟨l, hl, heval, hmem⟩ := termVariables_spec text fun t => term_of_mem hd
  rw [startEvaluate, getDNFTermRoots_toNode]
  dsimp only [Option.bind_eq_bind, Option.bind_some]
  have hnone : Records (fun a => σ (text a)) addresses ⟨u_buffer, 0, true⟩ [] :=
    ⟨rfl, fun a ha => absurd ha List.not_mem_nil, List.nodup_nil⟩
  rw [hl, Option.bind_some, evaluate, evaluateTerms_spec hwidth hun hfits hnone ?_, heval,
    eval_terms d]
  intro sets hsets a ha
  obtain ⟨t, ht, hat⟩ := hmem sets hsets a ha
  exact hvalues a (values_terms ht a hat)

end Pipeline

/-! ### The objects of the words -/

/-- An expression with other words. -/
def rename (f : Bytes → Bytes) : Query → Query
  | .value v => .value (f v)
  | .and p q => .and (rename f p) (rename f q)
  | .or p q => .or (rename f p) (rename f q)
  | .not p => .not (rename f p)

section Objects

variable {text : Bytes → Bytes}

theorem eval_rename (σ : Bytes → Bool) (e : Query) :
    (rename text e).eval σ = e.eval fun a => σ (text a) := by
  induction e with
  | value v => rfl
  | and p q ihp ihq => rw [rename, Query.eval, ihp, ihq, Query.eval]
  | or p q ihp ihq => rw [rename, Query.eval, ihp, ihq, Query.eval]
  | not p ih => rw [rename, Query.eval, ih, Query.eval]

theorem isNotNotWord_rename (e : Query) : isNotNotWord (rename text e) = isNotNotWord e := by
  rcases e with _ | _ | _ | (_ | _ | _ | (_ | _ | _ | _)) <;> rfl

theorem hasTripleNot_rename (e : Query) : hasTripleNot (rename text e) = hasTripleNot e := by
  induction e with
  | value v => rfl
  | and p q ihp ihq => rw [rename, hasTripleNot, ihp, ihq, hasTripleNot]
  | or p q ihp ihq => rw [rename, hasTripleNot, ihp, ihq, hasTripleNot]
  | not p ih => rw [rename, hasTripleNot, isNotNotWord_rename, ih, hasTripleNot]

theorem place_children {t : Kind} {l r l' r' : UQueryNode} {as bs rest : List Bytes}
    (ht : t ≠ .value) (hl : place l (as ++ (bs ++ rest)) = (l', bs ++ rest))
    (hr : place r (bs ++ rest) = (r', rest)) :
    place (.node t [] l r) (as ++ bs ++ rest) = (.node t [] l' r', rest) := by
  have heq (addresses : List Bytes) : place (.node t [] l r) addresses =
      (.node t [] (place l addresses).1 (place r (place l addresses).2).1,
        (place r (place l addresses).2).2) := by
    cases t with
    | value => exact absurd rfl ht
    | and => cases addresses <;> rfl
    | or => cases addresses <;> rfl
    | not => cases addresses <;> rfl
  rw [heq, List.append_assoc, hl, hr]

/-- The tree of a query with the addresses of its words. -/
theorem place_toNode (e : Query) {addresses : List Bytes} (rest : List Bytes)
    (h : addresses.map text = e.values) :
    ∃ o : Query, place e.toNode (addresses ++ rest) = (o.toNode, rest) ∧ rename text o = e ∧
      o.values = addresses := by
  induction e generalizing addresses rest with
  | value v =>
      obtain ⟨a, rfl, ha⟩ := List.map_eq_singleton_iff.mp h
      exact ⟨.value a, rfl, congrArg Query.value ha, rfl⟩
  | and p q ihp ihq =>
      obtain ⟨as, bs, rfl, hp, hq⟩ := List.map_eq_append_iff.mp h
      obtain ⟨p', hplace, hrename, hvalues⟩ := ihp _ hp
      obtain ⟨q', hplace', hrename', hvalues'⟩ := ihq _ hq
      exact ⟨.and p' q', place_children (by decide) hplace hplace',
        by rw [rename, hrename, hrename'], by rw [Query.values, hvalues, hvalues']⟩
  | or p q ihp ihq =>
      obtain ⟨as, bs, rfl, hp, hq⟩ := List.map_eq_append_iff.mp h
      obtain ⟨p', hplace, hrename, hvalues⟩ := ihp _ hp
      obtain ⟨q', hplace', hrename', hvalues'⟩ := ihq _ hq
      exact ⟨.or p' q', place_children (by decide) hplace hplace',
        by rw [rename, hrename, hrename'], by rw [Query.values, hvalues, hvalues']⟩
  | not p ih =>
      obtain ⟨p', hplace, hrename, hvalues⟩ := ih rest h
      have hnull : place .null ([] ++ (addresses ++ rest)) = (.null, addresses ++ rest) := rfl
      exact ⟨.not p', place_children (by decide) hnull hplace, by rw [rename, hrename], hvalues⟩

end Objects

/-! ### Queries -/

/-- The parser reads the whole of a text of the language. -/
theorem parseExpr_denotes {query : Bytes} {x : Phrase} (h : Denotes query x)
    (beyond : Nat → UInt8) (hwords : ∀ w ∈ x.words, ¬ s_not <+: w)
    (hlast : ∀ w ∈ x.lastWord, ahead beyond w s_not.length ≠ s_not) :
    ∃ fuel t, parseExpr fuel (.setData query beyond) = pure (x.built.toNode, t) ∧
      t.atEnd = true := by
  obtain ⟨rest, hreads, hrest⟩ := h
  have hfollow : Follow .expr rest := by
    intro c hc
    rw [hrest] at hc
    cases hc
  have hreturns : Returns query beyond (parser true .expr) query fun e t =>
      e = x.built.toNode ∧ At query beyond rest t :=
    reads_parse hreads hfollow hwords (fun _ => hlast) true
  obtain ⟨fuel, e, t, hparse, rfl, ht⟩ := hreturns _ (at_setData query beyond)
  refine ⟨fuel, t, hparse, ?_⟩
  obtain ⟨pre, hpre, hskip⟩ := ht.skipSpaces
  rw [hrest, List.append_nil] at hpre
  have hstop : t.skipSpaces = t := parseExpr_skipSpaces hparse
  rw [← hstop, hskip, UTokenizer.atEnd, hpre]
  exact decide_eq_true le_rfl

section Answers

variable {text : Bytes → Bytes} {addresses : List Bytes} {query : Bytes} {x : Phrase}
  {beyond : Nat → UInt8}

theorem parse_of_getDisjunctiveNormalForm {fuel : Nat} {t : UTokenizer} {e o : Query}
    {tree : UQueryNode} (hparse : parseExpr fuel (.setData query beyond) = pure (e.toNode, t))
    (hend : t.atEnd = true) (hplace : (place e.toNode addresses).1 = o.toNode)
    (htree : getDisjunctiveNormalForm text fuel o.toNode = some tree) :
    parse text fuel addresses query beyond = pure tree := by
  rw [parse, Parse.bind_pure hparse]
  dsimp only
  rw [if_pos hend, hplace, htree]

/-- What is behind an answer. -/
theorem getDisjunctiveNormalForm_of_parse {fuel fuel' : Nat} {t : UTokenizer} {e o : Query}
    {tree : UQueryNode} (hparse : parseExpr fuel' (.setData query beyond) = pure (e.toNode, t))
    (hplace : (place e.toNode addresses).1 = o.toNode)
    (h : parse text fuel addresses query beyond = pure tree) :
    getDisjunctiveNormalForm text fuel o.toNode = some tree := by
  rw [parse] at h
  obtain ⟨⟨tree₀, t₀⟩, hparse₀, h⟩ := Parse.bind_eq_pure h
  cases parseExpr_unique hparse hparse₀
  dsimp only at h
  rw [hplace] at h
  split at h
  · cases htree : getDisjunctiveNormalForm text fuel o.toNode with
    | none =>
        rw [htree] at h
        cases h
    | some tree' =>
        rw [htree] at h
        rw [Parse.pure_inj h]
  · cases h

/-- There is no answer to a query that is never true, or in which three NOTs stand before a word. -/
theorem of_answer {fuel fuel' : Nat} {t : UTokenizer} {e o : Query}
    (hparse : parseExpr fuel' (.setData query beyond) = pure (e.toNode, t))
    (hplace : (place e.toNode addresses).1 = o.toNode) {σ : Bytes → Bool} {u_buffer : Mem}
    {b : Bool}
    (h : answer fuel text addresses query beyond σ u_buffer = pure b) :
    hasTripleNot o = false ∧ Satisfiable text o := by
  rw [answer] at h
  obtain ⟨tree, hparse', h⟩ := Parse.bind_eq_pure h
  have htree := getDisjunctiveNormalForm_of_parse hparse hplace hparse'
  cases hraw : getRawDNF fuel o.toNode with
  | none =>
      rw [getDisjunctiveNormalForm, hraw] at htree
      cases htree
  | some root =>
      obtain ⟨tree', htree', hnone, -⟩ := getDisjunctiveNormalForm_spec text hraw
      cases htree.symm.trans htree'
      constructor
      · rw [← Bool.not_eq_true]
        intro htriple
        rw [getRawDNF_of_hasTripleNot htriple] at hraw
        cases hraw
      · by_contra hunsat
        rw [hnone hunsat] at h
        cases h

end Answers

/-- Addresses as they are on a machine of 64 bits. -/
def addressOfA : Bytes := [0x10, 0x60, 0x55, 0x55, 0x55, 0x55, 0, 0]
def addressOfB : Bytes := [0x40, 0x60, 0x55, 0x55, 0x55, 0x55, 0, 0]

/-- `A OR NOT B` -/
theorem denotes_or : Denotes [65, 32, 79, 82, 32, 78, 79, 84, 32, 66]
    (.or (.word [65]) (.not (.word [66]))) := by
  have ha : Reads .atom [65, 32, 79, 82, 32, 78, 79, 84, 32, 66] (.word [65])
      [32, 79, 82, 32, 78, 79, 84, 32, 66] :=
    .word rfl (isWord_singleton (by decide) (by decide)) (stop_blank _)
  have hb : Reads .atom [32, 66] (.word [66]) [] :=
    .word rfl (isWord_singleton (by decide) (by decide)) stop_nil
  exact ⟨[], .or (.factor (.atom ha)) rfl (stop_blank _)
    (.term (.factor (.not rfl (stop_blank _) (.atom hb)))), rfl⟩

/-- `A AND NOT A` -/
theorem denotes_contradiction : Denotes [65, 32, 65, 78, 68, 32, 78, 79, 84, 32, 65]
    (.and (.word [65]) (.not (.word [65]))) := by
  have ha : Reads .atom [65, 32, 65, 78, 68, 32, 78, 79, 84, 32, 65] (.word [65])
      [32, 65, 78, 68, 32, 78, 79, 84, 32, 65] :=
    .word rfl (isWord_singleton (by decide) (by decide)) (stop_blank _)
  have hb : Reads .atom [32, 65] (.word [65]) [] :=
    .word rfl (isWord_singleton (by decide) (by decide)) stop_nil
  exact ⟨[], .term (.and (.atom ha) rfl (stop_blank _) (.factor (.not rfl (stop_blank _) (.atom hb)))),
    rfl⟩

end ULib.QueryAnswers
