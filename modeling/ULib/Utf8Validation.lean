import ULib.Utf8
import ULib.WebSocket

/-!
`u_isUTF8` of `base/utility.c`, an automaton whose classes of bytes and whose
transitions are both in the table `u_validate_utf8`.
-/

namespace ULib.Utf8Validation

open ULib.KeyComparison
open ULib.EscapeCoding (forall_byte)
open ULib.Utf8
open ULib.WebSocket (validateUtf8)

/-! ### u_isUTF8 -/

/-- The state behind a byte; `none` where the table is indexed behind its end. -/
def transition (state : Nat) (c : UInt8) : Option Nat := do
  let type ← validateUtf8[c.toNat]?
  validateUtf8[256 + state * 16 + type]?

/-- From a byte on, without the number of the character, which is only traced. -/
def isUTF8Loop : Nat → Bytes → Option Bool
  | state, [] => some (state = 0)
  | state, c :: t => do
      let state ← transition state c
      if state = 1 then some false else isUTF8Loop state t

/-- `u_isUTF8` -/
def isUTF8 (s : Bytes) : Option Bool := isUTF8Loop 0 s

/-! ### The states -/

/-- What is left of a character in each state; nothing where one is over -/
def awaited : Nat → List Range
  | 2 => [tail]
  | 3 => [tail, tail]
  | 4 => [(0xA0, 0xBF), tail]
  | 5 => [(0x80, 0x9F), tail]
  | 6 => [(0x90, 0xBF), tail, tail]
  | 7 => [tail, tail, tail]
  | 8 => [(0x80, 0x8F), tail, tail]
  | _ => []

/-- What can come: a character, or what is left of one -/
def expected (state : Nat) : List (List Range) := if state = 0 then forms else [awaited state]

/-- The states but the one of an error -/
def states : List Nat := [0, 2, 3, 4, 5, 6, 7, 8]

/-- The byte can be the first of the form. -/
def Begins (c : UInt8) (form : List Range) : Prop := ∃ r ∈ form.head?, r.Has c

instance (c : UInt8) (form : List Range) : Decidable (Begins c form) :=
  inferInstanceAs (Decidable (∃ r ∈ form.head?, r.Has c))

/-- The table, byte by byte: an error where nothing begins with the byte, and else the state that
waits for what is left of all that begins with it -/
theorem transition_spec : ∀ state ∈ states, ∀ c, ∃ next ∈ transition state c,
    (next = 1 ∧ ∀ form ∈ expected state, ¬ Begins c form) ∨
      (next ∈ states ∧ (∃ form ∈ expected state, Begins c form) ∧
        ∀ form ∈ expected state, Begins c form → form.tail = awaited next) := by
  intro state hstate
  refine forall_byte ?_
  revert state
  decide +kernel

theorem ne_nil_of_mem_expected : ∀ state ∈ states, ∀ form ∈ expected state, form ≠ [] := by
  decide

theorem ends_expected {state : Nat} {c : UInt8} {s : Bytes} :
    Ends (awaited state) (c :: s) ↔ ∃ form ∈ expected state, Ends form (c :: s) := by
  rw [expected]
  split
  · next hzero =>
    rw [hzero, ← text_cons]
    exact ends_nil
  · simp only [List.mem_singleton, exists_eq_left]

theorem ends_iff_begins {form : List Range} (hne : form ≠ []) {c : UInt8} {s : Bytes} :
    Ends form (c :: s) ↔ Begins c form ∧ Ends form.tail s := by
  cases form with
  | nil => exact absurd rfl hne
  | cons r rest => simp [ends_cons, Begins]

/-- What is left after a byte that can come -/
theorem ends_next {state next : Nat} {c : UInt8} {s : Bytes} (hstate : state ∈ states)
    (hsome : ∃ form ∈ expected state, Begins c form)
    (hall : ∀ form ∈ expected state, Begins c form → form.tail = awaited next) :
    Ends (awaited state) (c :: s) ↔ Ends (awaited next) s := by
  rw [ends_expected]
  constructor
  · rintro ⟨form, hform, h⟩
    have hne := ne_nil_of_mem_expected state hstate form hform
    obtain ⟨hbegins, hends⟩ := (ends_iff_begins hne).mp h
    rwa [← hall form hform hbegins]
  · intro h
    obtain ⟨form, hform, hbegins⟩ := hsome
    refine ⟨form, hform, (ends_iff_begins (ne_nil_of_mem_expected state hstate form hform)).mpr ?_⟩
    exact ⟨hbegins, by rwa [hall form hform hbegins]⟩

/-- At the end of the text no character is left open. -/
theorem ends_nil_iff : ∀ state ∈ states, Ends (awaited state) [] ↔ state = 0 := by
  intro state hstate
  by_cases hzero : state = 0
  · subst hzero
    exact iff_of_true (ends_nil.mpr text_nil) rfl
  · refine iff_of_false ?_ hzero
    have hne := ne_nil_of_mem_expected state hstate (awaited state)
      (by rw [expected, if_neg hzero]; exact List.mem_singleton_self _)
    obtain ⟨r, rest, heq⟩ := List.exists_cons_of_ne_nil hne
    rw [heq]
    exact not_ends_nil

/-- The loop, from any state -/
theorem isUTF8Loop_spec {state : Nat} (hstate : state ∈ states) (s : Bytes) :
    ∃ result, isUTF8Loop state s = some result ∧ (result = true ↔ Ends (awaited state) s) := by
  induction s generalizing state with
  | nil =>
      refine ⟨_, rfl, ?_⟩
      rw [decide_eq_true_eq, ends_nil_iff state hstate]
  | cons c s ih =>
      obtain ⟨next, hnext, hcase⟩ := transition_spec state hstate c
      rw [isUTF8Loop, Option.mem_def.mp hnext]
      rcases hcase with ⟨rfl, hnone⟩ | ⟨hmem, hsome, hall⟩
      · refine ⟨false, rfl, iff_of_false Bool.false_ne_true ?_⟩
        rw [ends_expected]
        rintro ⟨form, hform, h⟩
        have hne := ne_nil_of_mem_expected state hstate form hform
        exact hnone form hform ((ends_iff_begins hne).mp h).1
      · have hne : next ≠ 1 := by
          rintro rfl
          exact absurd hmem (by decide)
        rw [ends_next hstate hsome hall]
        obtain ⟨result, hresult, hiff⟩ := ih hmem
        refine ⟨result, ?_, hiff⟩
        rw [← hresult]
        exact if_neg hne

theorem isUTF8_spec (s : Bytes) : ∃ result, isUTF8 s = some result ∧ (result = true ↔ Text s) := by
  obtain ⟨result, hresult, hiff⟩ := @isUTF8Loop_spec 0 (by decide) s
  exact ⟨result, hresult, hiff.trans ends_nil⟩

/-- The table is not indexed behind its end, and what is accepted is the syntax of UTF-8: the
encodings of the Unicode scalar values, and nothing else. -/
theorem isUTF8_iff (s : Bytes) : ∃ result, isUTF8 s = some result ∧ (result = true ↔ Text s) ∧
    (result = true ↔ ∃ l : List Char, l.flatMap String.utf8EncodeChar = s) := by
  obtain ⟨result, hresult, hiff⟩ := isUTF8_spec s
  exact ⟨result, hresult, hiff, hiff.trans text_iff⟩

/-- A surrogate, and an end within a character -/
example : isUTF8 [0x41, 0xED, 0xA0, 0x80] = some false ∧
    isUTF8 [0xC3, 0xA9, 0xE2] = some false := by
  decide +kernel

end ULib.Utf8Validation
