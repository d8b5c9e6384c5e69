import Mathlib.Data.List.TakeWhile
import ULib.EnvironmentText

/-!
The expansion of a text with the lines of an environment: every reference gets
the value of the first line with its name, and is expanded to the end. The two
functions do so unless a chain of references does not end.
-/

namespace ULib.EnvironmentExpansion

open ULib.KeyComparison
open ULib.ReferenceExpansion
open ULib.EnvironmentVar
open ULib.EnvironmentText

variable (getenv : Bytes → Option Bytes) (env : List Assignment)

/-- What a name stands for by the lines; what the process gives is not expanded. -/
def linePieces (name : Bytes) : Option (List (Piece UInt8 Bytes)) :=
  match lookup env name with
  | none => some [.text ((getenv name).getD [])]
  | some v => some (pieces [dollar] v)

/-- Both functions end, and where the references of the lines end, they give the expansion. -/
structure Expanded (s name : Bytes) : Prop where
  ends : ∃ fuel out, expandEnvironmentVar getenv fuel (some (text env)) s = some out
  name_ends : ∃ fuel out, getEnvironmentVar getenv fuel (some (text env)) name = some out
  expanded : ∀ out, Expands (linePieces getenv env) (pieces [dollar] s) out →
    ∃ fuel, expandEnvironmentVar getenv fuel (some (text env)) s = some out
  value : ∀ qs out, linePieces getenv env name = some qs → Expands (linePieces getenv env) qs out →
    ∃ fuel, getEnvironmentVar getenv fuel (some (text env)) name = some out

/-- What a name stands for where the lookup in the text finds the line with the name. -/
def agreed : Bytes → Option (List (Piece UInt8 Bytes)) :=
  common (settledPieces getenv (text env)) (linePieces getenv env)

/-- Every `$` has a name. -/
def Named (s : Bytes) : Prop := pieces [] s = pieces [dollar] s

structure Expandable (s name : Bytes) : Prop where
  named : Named s
  grounded : ∀ m ∈ references (pieces [] s), Grounded (agreed getenv env) m
  name_grounded : Grounded (agreed getenv env) name

/-- Lines in which every name is found, and values with which nothing is lost. -/
structure Regular : Prop where
  plain : ∀ a ∈ env, Plain a
  named : ∀ a ∈ env, Named a.value
  process : ∀ name v, getenv name = some v → dollar ∉ v

theorem word_of_reference {lone : Bytes} {k : Nat} {s m : Bytes}
    (h : m ∈ references (piecesFrom lone k s)) : Word m := by
  induction s generalizing k with
  | nil => cases k <;> cases h
  | cons c s ih =>
      cases k with
      | succ k => exact ih h
      | zero =>
          rw [piecesFrom] at h
          split_ifs at h with hc hname
          · exact ih h
          · exact ih h
          · rw [references_reference] at h
            rcases List.mem_cons.mp h with rfl | h
            · exact ⟨hname, fun d hd => List.mem_takeWhile_imp hd⟩
            · exact ih h

variable {getenv env}

theorem mem_of_lookup {name v : Bytes} (h : lookup env name = some v) :
    ∃ a ∈ env, a.value = v := by
  obtain ⟨a, ha, hv⟩ := Option.map_eq_some_iff.mp h
  exact ⟨a, List.mem_of_find?_eq_some ha, hv⟩

theorem Regular.plain_process (h : Regular getenv env) {name v : Bytes}
    (hv : processVar getenv name = some v) : v = (getenv name).getD [] ∧ dollar ∉ v := by
  rw [processVar] at hv
  split_ifs at hv
  obtain rfl := Option.some.inj hv
  refine ⟨rfl, ?_⟩
  cases hgetenv : getenv name with
  | none => exact List.not_mem_nil
  | some w => exact h.process name w hgetenv

/-- In a regular environment a word stands for what its line says. -/
theorem Regular.agreed_eq (h : Regular getenv env) {name : Bytes} (hname : Word name)
    {qs : List (Piece UInt8 Bytes)} (hqs : valuePieces getenv (text env) name = some qs) :
    agreed getenv env name = some qs := by
  have hsettled : settledPieces getenv (text env) name =
      match lookup env name with
      | none => ((processVar getenv name).filter (dollar ∉ ·)).map fun v => [.text v]
      | some v => some (pieces [] v) := by
    rw [settledPieces, assigned_text h.plain hname]
    rfl
  rw [valuePieces, assigned_text h.plain hname, Option.bind_some] at hqs
  cases hlookup : lookup env name with
  | some v =>
      rw [hlookup] at hqs hsettled
      obtain rfl := Option.some.inj hqs
      obtain ⟨a, ha, rfl⟩ := mem_of_lookup hlookup
      refine common_eq hsettled ?_
      rw [linePieces, hlookup]
      exact congrArg some (h.named a ha).symm
  | none =>
      rw [hlookup] at hqs hsettled
      obtain ⟨v, hv, rfl⟩ := Option.map_eq_some_iff.mp hqs
      obtain ⟨hgetenv, hdollar⟩ := h.plain_process hv
      refine common_eq (hsettled.trans ?_) ?_
      · exact Option.map_eq_some_iff.mpr
          ⟨v, Option.filter_eq_some_iff.mpr ⟨hv, decide_eq_true hdollar⟩, rfl⟩
      · rw [linePieces, hlookup, hgetenv]

theorem Regular.grounded (h : Regular getenv env) {name : Bytes} (hname : Word name)
    (hgrounded : Grounded (valuePieces getenv (text env)) name) :
    Grounded (agreed getenv env) name := by
  refine hgrounded.mono_on (P := Word) (fun m qs hm hqs => ⟨h.agreed_eq hm hqs, ?_⟩) hname
  obtain ⟨found, -, hvalue⟩ := Option.bind_eq_some_iff.mp hqs
  intro n hn
  cases found with
  | none =>
      obtain ⟨v, -, rfl⟩ := Option.map_eq_some_iff.mp hvalue
      cases hn
  | some v =>
      obtain rfl := Option.some.inj hvalue
      exact word_of_reference hn

theorem Expandable.expanded {s name : Bytes} (h : Expandable getenv env s name) :
    Expanded getenv env s name := by
  obtain ⟨w, hw⟩ := exists_expands_iff.mpr h.grounded
  obtain ⟨ps, v, hps, hv⟩ := h.name_grounded.exists_expands
  have hrun := exists_expand (hw.mono common_left)
  have hget := exists_get (common_left name ps hps) (hv.mono common_left)
  refine ⟨⟨hrun.choose, w, hrun.choose_spec⟩, ⟨hget.choose, v, hget.choose_spec⟩, ?_, ?_⟩
  · intro out hout
    have hline := hw.mono common_right
    rw [h.named] at hline
    rwa [hout.unique hline]
  · intro qs out hqs hout
    obtain rfl := Option.some.inj ((common_right name ps hps).symm.trans hqs)
    rwa [hout.unique (hv.mono common_right)]

/-- The chains of references end where the functions do. -/
theorem Expanded.grounded {s name : Bytes} (h : Expanded getenv env s name) :
    (∀ m ∈ references (pieces [] s), Grounded (valuePieces getenv (text env)) m) ∧
      Grounded (valuePieces getenv (text env)) name := by
  obtain ⟨fuel, out, hrun⟩ := h.ends
  obtain ⟨k, v, hget⟩ := h.name_ends
  exact ⟨grounded_of_expand hrun, grounded_of_get hget⟩

variable (getenv env)

/-- `A=$A` -/
def itself : Assignment := ⟨"A".toUTF8.data.toList, "$A".toUTF8.data.toList, none⟩

end ULib.EnvironmentExpansion
