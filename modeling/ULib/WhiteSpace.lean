import Mathlib.Data.List.TakeWhile
import Mathlib.Tactic.Common
import ULib.EscapeCoding

/-!
`UStringExt::simplifyWhiteSpace` and `UStringExt::removeEmptyLine` of
`utility/string_ext.cpp`: the words and the lines of a text, with one separator
between them.
-/

namespace ULib.WhiteSpace

open ULib.KeyComparison
open ULib.EscapeCoding

/-- `u__islterm` -/
def isLterm (c : UInt8) : Bool := c = 10 || c = 13

/-! ### The two functions -/

section
variable (sep : UInt8 → Bool) (join : UInt8)

/-- The loop of both functions; `str` is what is written. -/
def squeezeLoop (s str : Bytes) : Bytes :=
  match s with
  | [] => str
  | c :: s =>
      if sep c then squeezeLoop s str
      else
        let word := (c :: s).takeWhile fun d => !sep d
        -- behind the separator at the end of the word
        let rest := ((c :: s).dropWhile fun d => !sep d).drop 1
        squeezeLoop rest (if rest = [] then str ++ word else str ++ word ++ [join])
termination_by s.length
decreasing_by
  · exact Nat.lt_succ_self _
  · rename_i hc
    rw [List.dropWhile_cons_of_pos (by simpa using hc), List.length_drop]
    have hle := (@List.dropWhile_sublist _ s fun d => !sep d).length_le
    rw [List.length_cons]
    omega

/-- All that is written to the result. -/
def written (s : Bytes) : Bytes := squeezeLoop sep join s []

def squeeze (s : Bytes) : Bytes :=
  let str := written sep join s
  if str ≠ [] ∧ str.getLast?.any sep then str.dropLast else str

end

def simplifyWhiteSpace (s : Bytes) : Bytes := squeeze isSpace ' '.toUInt8 s

def removeEmptyLine (s : Bytes) : Bytes := squeeze isLterm '\n'.toUInt8 s

/-! ### The words -/

/-- The longest parts without a separator. -/
def words (sep : UInt8 → Bool) (s : Bytes) : List Bytes := (s.splitOnP sep).filter (· ≠ [])

section
variable {sep : UInt8 → Bool} {join : UInt8}

theorem words_nil : words sep [] = [] := by
  rw [words, List.splitOnP_nil]
  rfl

theorem words_cons {c : UInt8} (hc : sep c = true) (s : Bytes) :
    words sep (c :: s) = words sep s := by
  rw [words, List.splitOnP_cons_eq_if_modifyHead, if_pos hc, words]
  exact List.filter_cons_of_neg (by simp)

theorem words_word {w : Bytes} (hw : w ≠ []) (hsep : ∀ d ∈ w, sep d = false) :
    words sep w = [w] := by
  rw [words, List.splitOnP_eq_singleton hsep]
  exact List.filter_cons_of_pos (by simpa using hw)

theorem words_append {w : Bytes} (hw : w ≠ []) (hsep : ∀ d ∈ w, sep d = false) {c : UInt8}
    (hc : sep c = true) (s : Bytes) : words sep (w ++ c :: s) = w :: words sep s := by
  rw [words, List.splitOnP_append_cons_of_forall_mem hsep c hc, words]
  exact List.filter_cons_of_pos (by simpa using hw)

/-- The first word, and the words behind the separator at its end. -/
theorem words_of_text {c : UInt8} (hc : sep c = false) (s : Bytes) :
    words sep (c :: s) = ((c :: s).takeWhile fun d => !sep d) ::
      words sep (((c :: s).dropWhile fun d => !sep d).drop 1) := by
  have hsplit := @List.takeWhile_append_dropWhile _ (fun d => !sep d) (c :: s)
  have hw : (c :: s).takeWhile (fun d => !sep d) ≠ [] := by
    rw [List.takeWhile_cons_of_pos (by simpa using hc)]
    exact List.cons_ne_nil _ _
  have hsep : ∀ d ∈ (c :: s).takeWhile (fun d => !sep d), sep d = false := fun d hd => by
    simpa using List.mem_takeWhile_imp hd
  cases hrest : (c :: s).dropWhile fun d => !sep d with
  | nil =>
      rw [hrest, List.append_nil] at hsplit
      rw [List.drop_nil, words_nil, hsplit]
      rw [hsplit] at hsep
      exact words_word (List.cons_ne_nil c s) hsep
  | cons d rest =>
      have hd : sep d = true := by
        have hhead := @List.head_dropWhile_not _ (fun d => !sep d) (c :: s) (by simp [hrest])
        simpa [hrest] using hhead
      rw [hrest] at hsplit
      rw [List.drop_one, List.tail_cons, ← words_append hw hsep hd, hsplit]

theorem length_rest_lt (c : UInt8) (s : Bytes) (hc : sep c = false) :
    (((c :: s).dropWhile fun d => !sep d).drop 1).length < (c :: s).length := by
  rw [List.dropWhile_cons_of_pos (by simpa using hc), List.length_drop, List.length_cons]
  have hle := (@List.dropWhile_sublist _ s fun d => !sep d).length_le
  omega

theorem of_mem_words {s w : Bytes} (h : w ∈ words sep s) : w ≠ [] ∧ ∀ d ∈ w, sep d = false := by
  induction hn : s.length using Nat.strong_induction_on generalizing s with
  | _ n ih =>
      subst hn
      cases s with
      | nil =>
          rw [words_nil] at h
          cases h
      | cons c s =>
          cases hc : sep c with
          | true =>
              rw [words_cons hc] at h
              exact ih s.length (Nat.lt_succ_self _) h rfl
          | false =>
              rw [words_of_text hc] at h
              rcases List.mem_cons.mp h with rfl | h
              · refine ⟨?_, fun d hd => by simpa using List.mem_takeWhile_imp hd⟩
                rw [List.takeWhile_cons_of_pos (by simpa using hc)]
                exact List.cons_ne_nil _ _
              · exact ih _ (length_rest_lt c s hc) h rfl

/-- The words of words are the words. -/
theorem words_intercalate (hjoin : sep join = true) {ws : List Bytes}
    (hws : ∀ w ∈ ws, w ≠ [] ∧ ∀ d ∈ w, sep d = false) : words sep ([join].intercalate ws) = ws := by
  induction ws with
  | nil => exact words_nil
  | cons w ws ih =>
      obtain ⟨⟨hw, hsep⟩, hws⟩ := List.forall_mem_cons.mp hws
      cases ws with
      | nil =>
          rw [List.intercalate_singleton]
          exact words_word hw hsep
      | cons v ws =>
          rw [List.intercalate_cons_cons, List.append_assoc, List.singleton_append,
            words_append hw hsep hjoin, ih hws]

/-! ### The loop -/

/-- The words are written with a separator between them, and behind the last one a separator more
when the text goes on; all of it is no more than was read. -/
theorem squeezeLoop_spec (s str : Bytes) :
    ∃ tail, squeezeLoop sep join s str = str ++ [join].intercalate (words sep s) ++ tail ∧
      (tail = [] ∨ tail = [join] ∧ words sep s ≠ []) ∧
      (squeezeLoop sep join s str).length ≤ str.length + s.length := by
  induction hn : s.length using Nat.strong_induction_on generalizing s str with
  | _ n ih =>
      subst hn
      rw [squeezeLoop.eq_def]
      cases s with
      | nil => exact ⟨[], by simp [words_nil], Or.inl rfl, Nat.le_refl _⟩
      | cons c s =>
          dsimp only
          cases hc : sep c with
          | true =>
              obtain ⟨tail, hloop, htail, hlength⟩ := ih s.length (Nat.lt_succ_self _) s str rfl
              rw [if_pos rfl, words_cons hc]
              exact ⟨tail, hloop, htail, Nat.le_succ_of_le hlength⟩
          | false =>
              rw [if_neg Bool.false_ne_true, words_of_text hc]
              have hlt := length_rest_lt c s hc
              have hsplit := congrArg List.length
                (@List.takeWhile_append_dropWhile _ (fun d => !sep d) (c :: s))
              rw [List.length_append] at hsplit
              have hdrop : (((c :: s).dropWhile fun d => !sep d).drop 1).length =
                  ((c :: s).dropWhile fun d => !sep d).length - 1 := List.length_drop
              generalize (c :: s).takeWhile (fun d => !sep d) = w at *
              generalize ((c :: s).dropWhile fun d => !sep d).drop 1 = rest at *
              split_ifs with hrest
              · subst hrest
                rw [squeezeLoop.eq_def]
                refine ⟨[], by simp [words_nil], Or.inl rfl, ?_⟩
                dsimp only
                rw [List.length_append]
                omega
              · have hpos := List.length_pos_of_ne_nil hrest
                obtain ⟨tail, hloop, htail, hlength⟩ := ih _ hlt rest (str ++ w ++ [join]) rfl
                rw [List.length_append, List.length_append, List.length_singleton] at hlength
                rw [hloop] at hlength ⊢
                by_cases hwords : words sep rest = []
                · obtain rfl : tail = [] := htail.resolve_right fun h => h.2 hwords
                  rw [hwords] at hlength ⊢
                  refine ⟨[join], by simp, Or.inr ⟨rfl, List.cons_ne_nil _ _⟩, ?_⟩
                  omega
                · refine ⟨tail, ?_, ?_, by omega⟩
                  · rw [List.intercalate_cons_of_ne_nil hwords]
                    simp
                  · exact htail.imp_right fun h => ⟨h.1, List.cons_ne_nil _ _⟩

/-- What is written is no more than what was read. -/
theorem length_written_le (s : Bytes) : (written sep join s).length ≤ s.length := by
  obtain ⟨-, -, -, hlength⟩ := @squeezeLoop_spec sep join s []
  rwa [List.length_nil, Nat.zero_add] at hlength

theorem getLast_intercalate {ws : List Bytes} (hne : ws ≠ [])
    (hws : ∀ w ∈ ws, w ≠ [] ∧ ∀ d ∈ w, sep d = false) :
    ∃ d, ([join].intercalate ws).getLast? = some d ∧ sep d = false := by
  induction ws with
  | nil => exact absurd rfl hne
  | cons w ws ih =>
      obtain ⟨⟨hw, hsep⟩, hws⟩ := List.forall_mem_cons.mp hws
      cases ws with
      | nil =>
          rw [List.intercalate_singleton]
          exact ⟨w.getLast hw, List.getLast?_eq_some_getLast hw, hsep _ (List.getLast_mem hw)⟩
      | cons v ws =>
          obtain ⟨d, hd, hsepd⟩ := ih (List.cons_ne_nil v ws) hws
          refine ⟨d, ?_, hsepd⟩
          rw [List.intercalate_cons_cons, List.getLast?_append, hd]
          rfl

theorem squeeze_eq (hjoin : sep join = true) (s : Bytes) :
    squeeze sep join s = [join].intercalate (words sep s) := by
  obtain ⟨tail, hloop, htail, -⟩ := @squeezeLoop_spec sep join s []
  rw [squeeze, written, hloop, List.nil_append]
  rcases htail with rfl | ⟨rfl, -⟩
  · rw [List.append_nil]
    by_cases hwords : words sep s = []
    · rw [hwords]
      rfl
    · obtain ⟨d, hd, hsep⟩ := @getLast_intercalate sep join _ hwords fun w => of_mem_words
      rw [if_neg]
      rintro ⟨-, hany⟩
      rw [hd, Option.any_some, hsep] at hany
      cases hany
  · rw [if_pos ⟨by simp, by simp [hjoin]⟩, List.dropLast_concat]

theorem squeeze_squeeze (hjoin : sep join = true) (s : Bytes) :
    squeeze sep join (squeeze sep join s) = squeeze sep join s := by
  rw [squeeze_eq hjoin, squeeze_eq hjoin, words_intercalate hjoin fun w => of_mem_words]

end

/-- Words with single spaces, and lines with single line feeds, between them; both functions are
idempotent and write no more bytes than they read. -/
theorem squeezed (s : Bytes) :
    (simplifyWhiteSpace s = [' '.toUInt8].intercalate (words isSpace s) ∧
        simplifyWhiteSpace (simplifyWhiteSpace s) = simplifyWhiteSpace s ∧
        (written isSpace ' '.toUInt8 s).length ≤ s.length) ∧
      removeEmptyLine s = ['\n'.toUInt8].intercalate (words isLterm s) ∧
        removeEmptyLine (removeEmptyLine s) = removeEmptyLine s ∧
        (written isLterm '\n'.toUInt8 s).length ≤ s.length :=
  ⟨⟨squeeze_eq (by decide) s, squeeze_squeeze (by decide) s, length_written_le s⟩,
    squeeze_eq (by decide) s, squeeze_squeeze (by decide) s, length_written_le s⟩

end ULib.WhiteSpace
