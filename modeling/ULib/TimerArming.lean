import ULib.TimerSchedule

/-!
What a call of `UTimer::setTimer(false)` in `timer.cpp` is for: it calls handlers
of alarms that have expired, and leaves the interval timer set for the first
alarm that waits. The list of alarms may be any.
-/

namespace ULib.TimerArming

open ULib.TimerQueue
open ULib.TimerQueue.UTimer
open ULib.TimerSchedule
open ULib.Runs

/-- The interval timer goes off when the first alarm of the list expires. -/
structure Arms (first : List UEventTime) (now : Int) (it_value : Int × Int) : Prop where
  sec : 0 ≤ it_value.1
  usec : 0 ≤ it_value.2 ∧ it_value.2 < 1000000
  positive : 0 < it_value.1 * 1000000 + it_value.2
  earliest : ∃ e ∈ first, now + (it_value.1 * 1000000 + it_value.2) = expiry e ∧
    ∀ x ∈ first, expiry e ≤ expiry x

/-- What a turn of the loop is to do: a handler that it calls is that of an alarm that has
expired, and where it is the last one, it leaves no alarm without a timer. -/
def TurnFits (now : Int) : Reply → UTimer → Prop
  | .quiet, _ => True
  | .called a, _ => expiry a ≤ now
  | .settled it_value, s => s.first ≠ [] → Arms s.first now it_value

/-- The turns of `setTimer(false)` do so. -/
def Fits (s : UTimer) (i : Action) : Prop :=
  i = .turn → s.frames.head? = some (.setting false) →
    ∀ r s', step s i = some (r, s') → TurnFits s.u_now.total r s'

/-- How the seconds and the microseconds of an alarm lie to those of the clock: where the seconds
are behind, the microseconds do not make up for it, and where they are ahead, neither; and they
are not both equal. -/
def Apart (e : UEventTime) (u_now : Timeval) : Prop :=
  let sec := e.ctime.tv_sec + e.tv_sec - u_now.tv_sec
  let usec := e.ctime.tv_usec + e.tv_usec - u_now.tv_usec
  (sec < 0 → usec ≤ -sec * 1000000) ∧ (sec = 0 → usec ≠ 0) ∧ (0 < sec → -sec * 1000000 < usec)

instance (e : UEventTime) (u_now : Timeval) : Decidable (Apart e u_now) :=
  inferInstanceAs (Decidable (_ ∧ _))

/-- In a turn of `setTimer(false)` the first alarm lies apart from the clock, and where it is not
old, none behind it expires before it. -/
def Clear (s : UTimer) (i : Action) : Prop :=
  i = .turn → s.frames.head? = some (.setting false) → ∀ e ∈ s.first.head?,
    Apart e s.u_now ∧ (¬ e.isOld s.u_now → ∀ x ∈ s.first, expiry e ≤ expiry x)

variable {s : UTimer} {e : UEventTime} {u_now : Timeval}

/-- `isOld` tells the alarms that have expired from the others just where an alarm lies apart
from the clock. -/
theorem apart_iff : Apart e u_now ↔
    (e.isOld u_now → expiry e ≤ u_now.total) ∧ (¬ e.isOld u_now → u_now.total < expiry e) := by
  simp only [Apart, UEventTime.isOld, expiry, Timeval.total, Bool.or_eq_true, Bool.and_eq_true,
    decide_eq_true_eq]
  omega

/-- Where no sum of microseconds makes a second, only the very instant of expiry is not apart. -/
theorem apart_of_lt (h : 0 ≤ e.ctime.tv_usec + e.tv_usec ∧ e.ctime.tv_usec + e.tv_usec < 1000000) :
    Apart e u_now ↔ expiry e ≠ u_now.total := by
  have hrange := u_now.tv_usec_range
  simp only [Apart, expiry, Timeval.total]
  omega

theorem setTimerVal_arms {first : List UEventTime} (he : e ∈ first) :
    Arms first u_now.total (e.setTimerVal u_now) ↔
      u_now.total < expiry e ∧ ∀ x ∈ first, expiry e ≤ expiry x := by
  have htotal := setTimerVal_total e u_now
  have hrange : 0 ≤ (e.setTimerVal u_now).2 ∧ (e.setTimerVal u_now).2 < 1000000 :=
    (adjust_spec _ _).2
  constructor
  · rintro ⟨-, -, hpos, d, hd, hexpiry, hfirst⟩
    refine ⟨by omega, fun x hx => ?_⟩
    have hle := hfirst x hx
    omega
  · rintro ⟨hlt, hfirst⟩
    exact ⟨by omega, hrange, by omega, e, he, htotal, hfirst⟩

theorem turn_fits_iff (frames : List Frame) :
    TurnFits s.u_now.total (s.turn false frames).1 (s.turn false frames).2 ↔
      ∀ e ∈ s.first.head?,
        Apart e s.u_now ∧ (¬ e.isOld s.u_now → ∀ x ∈ s.first, expiry e ≤ expiry x) := by
  rw [UTimer.turn]
  cases hfirst : s.first with
  | nil =>
      simp only [TurnFits, ne_eq, not_true_eq_false, false_imp_iff, List.head?_nil,
        Option.mem_def, reduceCtorEq, implies_true]
  | cons item next =>
      simp only [List.head?_cons, Option.mem_def, Option.some.injEq, forall_eq', UTimer.expired,
        if_neg Bool.false_ne_true, apart_iff]
      by_cases hold : item.isOld s.u_now = true
      · rw [if_pos hold]
        simp only [TurnFits, hold, forall_const, not_true_eq_false, false_imp_iff, and_true]
      · rw [if_neg hold]
        simp only [TurnFits, hold, ne_eq, reduceCtorEq, not_false_eq_true, forall_const,
          false_imp_iff, true_and]
        exact setTimerVal_arms List.mem_cons_self

theorem fits_iff (i : Action) : Fits s i ↔ Clear s i := by
  refine imp_congr_right fun hi => imp_congr_right fun hframe => ?_
  obtain ⟨frames, hframes⟩ := List.head?_eq_some_iff.mp hframe
  have hstep : step s i = some (s.turn false frames) := by
    rw [hi, step, hframes]
  rw [← turn_fits_iff frames]
  constructor
  · intro h
    exact h _ _ hstep
  · rintro h r s' hs'
    obtain ⟨rfl, rfl⟩ := Prod.mk.inj (Option.some.inj (hstep.symm.trans hs'))
    exact h

/-- Of every run, from any lists of alarms and with any readings of the clock: the calls of
`setTimer(false)` call handlers of expired alarms only and leave the timer set for the first
alarm, just where the first alarm lies apart from the clock in each of their turns. -/
theorem setTimer_arms_iff (s : UTimer) (is : List Action) :
    StepsMeet step Fits s is ↔ StepsMeet step Clear s is :=
  ⟨StepsMeet.mono fun _ i => (fits_iff i).mp, StepsMeet.mono fun _ i => (fits_iff i).mpr⟩

/-- An alarm of a second that is looked at when the second is just over is not called, and the
timer is stopped. One that was set for half a second at 100.9 s is called at 101.3 s. -/
theorem setTimer_disarms :
    ¬ StepsMeet step Fits ⟨false, [⟨1, 1, 0, ⟨100, 0, by decide⟩⟩], [], ⟨0, 0, by decide⟩, []⟩
        [.setTimer false ⟨101, 0, by decide⟩, .turn] ∧
      ¬ StepsMeet step Fits
        ⟨false, [⟨1, 0, 500000, ⟨100, 900000, by decide⟩⟩], [], ⟨0, 0, by decide⟩, []⟩
        [.setTimer false ⟨101, 300000, by decide⟩, .turn] := by
  constructor
  · intro h
    have hsettled := (h.2 _ _ rfl).1 rfl rfl _ _ rfl (List.cons_ne_nil _ _)
    exact absurd hsettled.positive (by decide)
  · intro h
    have hcalled : (101400000 : Int) ≤ 101300000 := (h.2 _ _ rfl).1 rfl rfl _ _ rfl
    exact absurd hcalled (by decide)

end ULib.TimerArming
