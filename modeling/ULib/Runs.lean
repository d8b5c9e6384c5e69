import Mathlib.Tactic.Common

/-!
Runs of a machine whose steps may be undefined, and the two ways in which a
property is carried along them: a simulation of an abstract machine, and an
invariant. A condition on the steps is a condition on the state before each of
them.
-/

namespace ULib.Runs

variable {σ ι ρ τ : Type*} (step : σ → ι → Option (ρ × σ))

/-- The state after a run. -/
def run : σ → List ι → Option σ
  | s, [] => some s
  | s, i :: is => (step s i).bind fun r => run r.2 is

/-- Every step of the run meets the condition. -/
def StepsMeet (ok : σ → ι → Prop) : σ → List ι → Prop
  | _, [] => True
  | s, i :: is => ok s i ∧ ∀ r s', step s i = some (r, s') → StepsMeet ok s' is

/-- Every step of the run is defined and gives a reply that the abstract
machine allows, and the states before and after it are related to those of
the abstract machine. -/
def Follows (allowed : τ → ι → ρ → Prop) (next : τ → ι → τ) (R : σ → τ → Prop) :
    σ → τ → List ι → Prop
  | s, a, [] => R s a
  | s, a, i :: is =>
      R s a ∧ ∃ r s', step s i = some (r, s') ∧ allowed a i r ∧
        Follows allowed next R s' (next a i) is

/-- As `Follows`, where the abstract machine also takes in the replies. -/
def Tracks (allowed : τ → ι → ρ → Prop) (next : τ → ι → ρ → τ) (R : σ → τ → Prop) :
    σ → τ → List ι → Prop
  | s, a, [] => R s a
  | s, a, i :: is =>
      R s a ∧ ∃ r s', step s i = some (r, s') ∧ allowed a i r ∧
        Tracks allowed next R s' (next a i r) is

/-- Every step of the run is defined, and every state of it has the property. -/
def Always (P : σ → Prop) : σ → List ι → Prop
  | s, [] => P s
  | s, i :: is => P s ∧ ∃ r s', step s i = some (r, s') ∧ Always P s' is

/-- Every step of the abstract machine meets the condition. -/
def CallsMeet (next : τ → ι → τ) (ok : τ → ι → Prop) : τ → List ι → Prop
  | _, [] => True
  | a, i :: is => ok a i ∧ CallsMeet next ok (next a i) is

/-- The replies of a run. -/
def replies : σ → List ι → Option (List ρ)
  | _, [] => some []
  | s, i :: is => (step s i).bind fun r => (replies r.2 is).map (r.1 :: ·)

instance decidableCallsMeet {next : τ → ι → τ} {ok : τ → ι → Prop} [∀ a i, Decidable (ok a i)] :
    ∀ a is, Decidable (CallsMeet next ok a is)
  | _, [] => isTrue trivial
  | a, i :: is =>
      have : Decidable (CallsMeet next ok (next a i) is) := decidableCallsMeet (next a i) is
      inferInstanceAs (Decidable (ok a i ∧ CallsMeet next ok (next a i) is))

variable {step}

instance decidableStepsMeet {ok : σ → ι → Prop} [∀ s i, Decidable (ok s i)] :
    ∀ s is, Decidable (StepsMeet step ok s is)
  | _, [] => isTrue trivial
  | s, i :: is =>
      match h : step s i with
      | none => decidable_of_iff (ok s i) (by simp [StepsMeet, h])
      | some (r, s') =>
          have : Decidable (StepsMeet step ok s' is) := decidableStepsMeet s' is
          decidable_of_iff (ok s i ∧ StepsMeet step ok s' is) (by simp [StepsMeet, h])

instance decidableTracks {allowed : τ → ι → ρ → Prop} {next : τ → ι → ρ → τ} {R : σ → τ → Prop}
    [∀ a i r, Decidable (allowed a i r)] [∀ s a, Decidable (R s a)] :
    ∀ s a is, Decidable (Tracks step allowed next R s a is)
  | s, a, [] => inferInstanceAs (Decidable (R s a))
  | s, a, i :: is =>
      match h : step s i with
      | none => isFalse (by simp [Tracks, h])
      | some (r, s') =>
          have : Decidable (Tracks step allowed next R s' (next a i r) is) :=
            decidableTracks s' (next a i r) is
          decidable_of_iff
            (R s a ∧ allowed a i r ∧ Tracks step allowed next R s' (next a i r) is)
            (by simp [Tracks, h])

theorem StepsMeet.mono {ok ok' : σ → ι → Prop} (himp : ∀ s i, ok s i → ok' s i) {is : List ι}
    {s : σ} (h : StepsMeet step ok s is) : StepsMeet step ok' s is := by
  induction is generalizing s with
  | nil => trivial
  | cons i is ih => exact ⟨himp s i h.1, fun r s' hs' => ih (h.2 r s' hs')⟩

theorem stepsMeet_true (is : List ι) (s : σ) : StepsMeet step (fun _ _ => True) s is := by
  induction is generalizing s with
  | nil => trivial
  | cons i is ih => exact ⟨trivial, fun _ s' _ => ih s'⟩

/-- A condition on the calls alone. -/
theorem stepsMeet_of_forall {ok : ι → Prop} {is : List ι} (h : ∀ i ∈ is, ok i) (s : σ) :
    StepsMeet step (fun _ i => ok i) s is := by
  induction is generalizing s with
  | nil => trivial
  | cons i is ih =>
      obtain ⟨hi, his⟩ := List.forall_mem_cons.mp h
      exact ⟨hi, fun _ s' _ => ih his s'⟩

theorem stepsMeet_and {ok ok' : σ → ι → Prop} {is : List ι} {s : σ} :
    StepsMeet step (fun s i => ok s i ∧ ok' s i) s is ↔
      StepsMeet step ok s is ∧ StepsMeet step ok' s is := by
  induction is generalizing s with
  | nil => simp [StepsMeet]
  | cons i is ih =>
      simp only [StepsMeet, ih]
      constructor
      · rintro ⟨⟨hok, hok'⟩, hrest⟩
        exact ⟨⟨hok, fun r s' h => (hrest r s' h).1⟩, hok', fun r s' h => (hrest r s' h).2⟩
      · rintro ⟨⟨hok, hrest⟩, hok', hrest'⟩
        exact ⟨⟨hok, hok'⟩, fun r s' h => ⟨hrest r s' h, hrest' r s' h⟩⟩

theorem tracks_of_simulation {ok : σ → ι → Prop} {allowed : τ → ι → ρ → Prop}
    {next : τ → ι → ρ → τ} {R I : σ → τ → Prop} (hR : ∀ s a, I s a → R s a)
    (hstep : ∀ s a i, I s a → ok s i →
      ∃ r s', step s i = some (r, s') ∧ allowed a i r ∧ I s' (next a i r)) (is : List ι) {s : σ}
    {a : τ} (hI : I s a) (hok : StepsMeet step ok s is) : Tracks step allowed next R s a is := by
  induction is generalizing s a with
  | nil => exact hR s a hI
  | cons i is ih =>
      obtain ⟨hi, hrest⟩ := hok
      obtain ⟨r, s', hs', hallowed, hI'⟩ := hstep s a i hI hi
      exact ⟨hR s a hI, r, s', hs', hallowed, ih hI' (hrest r s' hs')⟩

theorem Tracks.head {allowed : τ → ι → ρ → Prop} {next : τ → ι → ρ → τ} {R : σ → τ → Prop}
    {is : List ι} {s : σ} {a : τ} (h : Tracks step allowed next R s a is) : R s a := by
  cases is with
  | nil => exact h
  | cons i is => exact h.1

/-- Where the condition is necessary for one step, it is for a run. The runs may
be those of a domain, which is again a condition on the steps. -/
theorem tracks_iff_of_simulation {dom ok : σ → ι → Prop} {allowed : τ → ι → ρ → Prop}
    {next : τ → ι → ρ → τ} {R I : σ → τ → Prop} (hR : ∀ s a, I s a → R s a)
    (hstep : ∀ s a i, I s a → dom s i → ok s i →
      ∃ r s', step s i = some (r, s') ∧ allowed a i r ∧ I s' (next a i r))
    (hback : ∀ s a i r s', I s a → dom s i → step s i = some (r, s') → allowed a i r →
      R s' (next a i r) → ok s i) (is : List ι) {s : σ} {a : τ} (hI : I s a)
    (hdom : StepsMeet step dom s is) :
    Tracks step allowed next R s a is ↔ StepsMeet step ok s is := by
  refine ⟨fun h => ?_, fun h => tracks_of_simulation hR
    (fun s a i hI hi => hstep s a i hI hi.1 hi.2) is hI (stepsMeet_and.mpr ⟨hdom, h⟩)⟩
  induction is generalizing s a with
  | nil => trivial
  | cons i is ih =>
      obtain ⟨-, r, s', hs', hallowed, hrest⟩ := h
      have hi := hback s a i r s' hI hdom.1 hs' hallowed hrest.head
      refine ⟨hi, ?_⟩
      rintro r₁ s₁ hs₁
      obtain ⟨r₂, s₂, hs₂, -, hI₂⟩ := hstep s a i hI hdom.1 hi
      obtain ⟨rfl, rfl⟩ := Prod.mk.inj (Option.some.inj (hs'.symm.trans hs₁))
      obtain ⟨rfl, rfl⟩ := Prod.mk.inj (Option.some.inj (hs'.symm.trans hs₂))
      exact ih hI₂ (hdom.2 r s' hs') hrest

/-- The last step of a run that is tracked. -/
theorem Tracks.last {allowed : τ → ι → ρ → Prop} {next : τ → ι → ρ → τ} {R : σ → τ → Prop}
    {is : List ι} {i : ι} {s : σ} {a : τ} (h : Tracks step allowed next R s a (is ++ [i])) :
    ∃ s' a' r s'', run step s is = some s' ∧ step s' i = some (r, s'') ∧ allowed a' i r := by
  induction is generalizing s a with
  | nil =>
      obtain ⟨-, r, s', hs', hallowed, -⟩ := h
      exact ⟨s, a, r, s', rfl, hs', hallowed⟩
  | cons j is ih =>
      obtain ⟨-, r, s', hs', -, hrest⟩ := h
      obtain ⟨s₁, a₁, r₁, s₂, hrun, hlast⟩ := ih hrest
      exact ⟨s₁, a₁, r₁, s₂, by simp only [run, hs', Option.bind_some, hrun], hlast⟩

theorem follows_iff_tracks {allowed : τ → ι → ρ → Prop} {next : τ → ι → τ} {R : σ → τ → Prop}
    {is : List ι} {s : σ} {a : τ} : Follows step allowed next R s a is ↔
      Tracks step allowed (fun a i _ => next a i) R s a is := by
  induction is generalizing s a with
  | nil => exact Iff.rfl
  | cons i is ih => simp only [Follows, Tracks, ih]

theorem Follows.head {allowed : τ → ι → ρ → Prop} {next : τ → ι → τ} {R : σ → τ → Prop}
    {is : List ι} {s : σ} {a : τ} (h : Follows step allowed next R s a is) : R s a :=
  (follows_iff_tracks.mp h).head

theorem follows_of_simulation {ok : σ → ι → Prop} {allowed : τ → ι → ρ → Prop}
    {next : τ → ι → τ} {R I : σ → τ → Prop} (hR : ∀ s a, I s a → R s a)
    (hstep : ∀ s a i, I s a → ok s i →
      ∃ r s', step s i = some (r, s') ∧ allowed a i r ∧ I s' (next a i)) (is : List ι) {s : σ}
    {a : τ} (hI : I s a) (hok : StepsMeet step ok s is) : Follows step allowed next R s a is :=
  follows_iff_tracks.mpr (tracks_of_simulation hR hstep is hI hok)

/-- The calls may be those that the abstract machine permits. -/
theorem follows_of_simulation_within {ok : σ → ι → Prop} {permits : τ → ι → Prop}
    {allowed : τ → ι → ρ → Prop} {next : τ → ι → τ} {R I : σ → τ → Prop} (hR : ∀ s a, I s a → R s a)
    (hstep : ∀ s a i, I s a → permits a i → ok s i →
      ∃ r s', step s i = some (r, s') ∧ allowed a i r ∧ I s' (next a i)) (is : List ι) {s : σ}
    {a : τ} (hI : I s a) (hcalls : CallsMeet next permits a is) (hok : StepsMeet step ok s is) :
    Follows step allowed next R s a is := by
  induction is generalizing s a with
  | nil => exact hR s a hI
  | cons i is ih =>
      obtain ⟨hi, hrest⟩ := hok
      obtain ⟨r, s', hs', hallowed, hI'⟩ := hstep s a i hI hcalls.1 hi
      exact ⟨hR s a hI, r, s', hs', hallowed, ih hI' hcalls.2 (hrest r s' hs')⟩

/-- Machines that follow the same answers give the same replies. -/
theorem replies_eq_of_follows {σ' : Type*} {step' : σ' → ι → Option (ρ × σ')} {answer : τ → ι → ρ}
    {next : τ → ι → τ} {R : σ → τ → Prop} {R' : σ' → τ → Prop} {is : List ι} {s : σ} {s' : σ'}
    {a : τ}
    (h : Follows step (fun a i r => r = answer a i) next R s a is)
    (h' : Follows step' (fun a i r => r = answer a i) next R' s' a is) :
    replies step s is = replies step' s' is := by
  induction is generalizing s s' a with
  | nil => rfl
  | cons i is ih =>
      obtain ⟨-, r, s₁, hs₁, rfl, hrest⟩ := h
      obtain ⟨-, r', s₁', hs₁', rfl, hrest'⟩ := h'
      rw [replies, replies, hs₁, hs₁', Option.bind_some, Option.bind_some, ih hrest hrest']

/-- Among the runs whose calls the abstract machine permits, those are defined
and follow it whose calls meet a condition, if each step that follows it needs
the condition. -/
theorem follows_iff_callsMeet {permits ok : τ → ι → Prop} {allowed : τ → ι → ρ → Prop}
    {next : τ → ι → τ} {R : σ → τ → Prop}
    (hstep : ∀ s a i, R s a → permits a i → ok a i →
      ∃ r s', step s i = some (r, s') ∧ allowed a i r ∧ R s' (next a i))
    (hback : ∀ s a i r s', R s a → permits a i → step s i = some (r, s') → R s' (next a i) →
      ok a i) (is : List ι) {s : σ} {a : τ} (hR : R s a) (hcalls : CallsMeet next permits a is) :
    Follows step allowed next R s a is ↔ CallsMeet next ok a is := by
  induction is generalizing s a with
  | nil => exact ⟨fun _ => trivial, fun _ => hR⟩
  | cons i is ih =>
      constructor
      · rintro ⟨-, r, s', hs', -, hrest⟩
        exact ⟨hback s a i r s' hR hcalls.1 hs' hrest.head, (ih hrest.head hcalls.2).mp hrest⟩
      · rintro ⟨hi, hrest⟩
        obtain ⟨r, s', hs', hallowed, hR'⟩ := hstep s a i hR hcalls.1 hi
        exact ⟨hR, r, s', hs', hallowed, (ih hR' hcalls.2).mpr hrest⟩

/-- Machines whose steps agree give the same replies, and agree in the end. -/
theorem replies_eq_of_agree {σ' : Type*} {step' : σ' → ι → Option (ρ × σ')} {ok : σ → ι → Prop}
    {I : σ' → σ → Prop} (hstep : ∀ s' s i, I s' s → ok s i →
      Option.Rel (fun r' r => r'.1 = r.1 ∧ I r'.2 r.2) (step' s' i) (step s i))
    (is : List ι) {s' : σ'} {s : σ} (hI : I s' s) (hok : StepsMeet step ok s is) :
    replies step' s' is = replies step s is ∧ Option.Rel I (run step' s' is) (run step s is) := by
  induction is generalizing s' s with
  | nil => exact ⟨rfl, .some hI⟩
  | cons i is ih =>
      obtain ⟨hi, hrest⟩ := hok
      have h := hstep s' s i hI hi
      simp only [replies, run]
      cases hs : step s i with
      | none =>
          rw [hs] at h
          generalize step' s' i = r' at h
          cases h
          exact ⟨rfl, .none⟩
      | some r =>
          rw [hs] at h
          generalize step' s' i = r' at h
          obtain ⟨hr, hI'⟩ | _ := h
          obtain ⟨hreplies, hrun⟩ := ih hI' (hrest r.1 r.2 hs)
          rw [Option.bind_some, Option.bind_some, hreplies, hr]
          exact ⟨rfl, hrun⟩

theorem follows_iff_of_simulation {ok : σ → ι → Prop} {allowed : τ → ι → ρ → Prop}
    {next : τ → ι → τ} {R I : σ → τ → Prop} (hR : ∀ s a, I s a → R s a)
    (hstep : ∀ s a i, I s a → ok s i →
      ∃ r s', step s i = some (r, s') ∧ allowed a i r ∧ I s' (next a i))
    (hback : ∀ s a i r s', I s a → step s i = some (r, s') → allowed a i r →
      R s' (next a i) → ok s i) (is : List ι) {s : σ} {a : τ} (hI : I s a) :
    Follows step allowed next R s a is ↔ StepsMeet step ok s is :=
  follows_iff_tracks.trans (tracks_iff_of_simulation hR
    (fun s a i hI _ => hstep s a i hI) (fun s a i r s' hI _ => hback s a i r s' hI) is hI
    (stepsMeet_true is s))

theorem always_of_invariant {ok : σ → ι → Prop} {P I : σ → Prop} (hP : ∀ s, I s → P s)
    (hstep : ∀ s i, I s → ok s i → ∃ r s', step s i = some (r, s') ∧ I s') (is : List ι) {s : σ}
    (hI : I s) (hok : StepsMeet step ok s is) : Always step P s is := by
  induction is generalizing s with
  | nil => exact hP s hI
  | cons i is ih =>
      obtain ⟨hi, hrest⟩ := hok
      obtain ⟨r, s', hs', hI'⟩ := hstep s i hI hi
      exact ⟨hP s hI, r, s', hs', ih hI' (hrest r s' hs')⟩

theorem Follows.final {allowed : τ → ι → ρ → Prop} {next : τ → ι → τ} {R : σ → τ → Prop}
    {is : List ι} {s : σ} {a : τ} (h : Follows step allowed next R s a is) :
    ∃ s', run step s is = some s' ∧ R s' (is.foldl next a) := by
  induction is generalizing s a with
  | nil => exact ⟨s, rfl, h⟩
  | cons i is ih =>
      obtain ⟨-, r, s', hs', -, hrest⟩ := h
      obtain ⟨s'', hrun, hR⟩ := ih hrest
      exact ⟨s'', by simp only [run, hs', Option.bind_some, hrun], hR⟩

theorem Always.final {P : σ → Prop} {is : List ι} {s : σ} (h : Always step P s is) :
    ∃ s', run step s is = some s' ∧ P s' := by
  induction is generalizing s with
  | nil => exact ⟨s, rfl, h⟩
  | cons i is ih =>
      obtain ⟨-, r, s', hs', hrest⟩ := h
      obtain ⟨s'', hrun, hP⟩ := ih hrest
      exact ⟨s'', by simp only [run, hs', Option.bind_some, hrun], hP⟩

end ULib.Runs
