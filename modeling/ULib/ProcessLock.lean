import ULib.Runs

/-!
The class `ULock` of `utility/lock.h` and `utility/lock.cpp`: a semaphore that
a process may lock again while it holds it. The counter `locked` is meant to
be the depth of the locking. Whether a wait is granted or times out is an
argument of `lock`.
-/

namespace ULib.ProcessLock

open Runs

/-- The calls of `USemaphore`. -/
inductive SemCall where
  | init
  | wait (granted : Bool)
  | post
  | destroy
  deriving DecidableEq, Repr

structure ULock where
  /-- Whether the pointer to the semaphore is set. -/
  sem : Bool
  locked : Int
  /-- What was called of the semaphore so far. -/
  calls : List SemCall
  deriving DecidableEq, Repr

/-- The constructor. -/
def newLock : ULock := ⟨false, 0, []⟩

namespace ULock

def call (l : ULock) (c : SemCall) : ULock := { l with calls := l.calls ++ [c] }

def init (l : ULock) : ULock := { l with sem := true }.call .init

def lock (l : ULock) (granted : Bool) : ULock :=
  let l := { l with locked := l.locked + 1 }
  if l.locked = 1 then
    if l.sem then
      let l := l.call (.wait granted)
      if granted = false then { l with locked := 0 } else l
    else l
  else l

def unlock (l : ULock) : ULock :=
  let l := { l with locked := l.locked - 1 }
  if l.locked = 0 then
    if l.sem then l.call .post else l
  else l

def destroy (l : ULock) : ULock :=
  let l := l.unlock
  if l.sem then { l with sem := false }.call .destroy else l

end ULock

/-- How often the process holds the semaphore: the waits that were granted less
the posts, since the semaphore was made. -/
def held (calls : List SemCall) : Int :=
  calls.foldl (fun n c =>
    match c with
    | .init => 0
    | .wait granted => if granted then n + 1 else n
    | .post => n - 1
    | .destroy => 0) 0

inductive Op where
  | init
  | lock (granted : Bool)
  | unlock
  | destroy
  deriving DecidableEq, Repr

def apply (l : ULock) : Op → ULock
  | .init => l.init
  | .lock granted => l.lock granted
  | .unlock => l.unlock
  | .destroy => l.destroy

/-- A call of the lock; the reply is what it called of the semaphore. -/
def step (l : ULock) (op : Op) : Option (List SemCall × ULock) :=
  some ((apply l op).calls.drop l.calls.length, apply l op)

/-! ### A lock that may be locked again -/

/-- The depth of the locking after a call. -/
def next (n : Nat) : Op → Nat
  | .init => n
  | .lock granted => if n = 0 then if granted then 1 else 0 else n + 1
  | .unlock => n - 1
  | .destroy => 0

/-- The first lock waits for the semaphore. -/
def Allowed (n : Nat) (op : Op) (calls : List SemCall) : Prop :=
  ∀ granted, op = .lock granted → n = 0 → calls = [.wait granted]

/-- The counter is the depth, and the process holds the semaphore exactly when
the depth is positive. -/
def Counts (l : ULock) (n : Nat) : Prop :=
  l.locked = n ∧ held l.calls = if 0 < n then 1 else 0

/-- The calls that keep the counter right. -/
def Orderly (l : ULock) : Op → Prop
  | .init => l.locked = 0
  | .lock _ => l.sem = true
  | .unlock => 0 < l.locked
  | .destroy => l.locked = 1

instance (l : ULock) : ∀ op, Decidable (Orderly l op)
  | .init => inferInstanceAs (Decidable (_ = _))
  | .lock _ => inferInstanceAs (Decidable (_ = _))
  | .unlock => inferInstanceAs (Decidable (_ < _))
  | .destroy => inferInstanceAs (Decidable (_ = _))

/-- A positive counter comes with a semaphore. -/
def Sound (l : ULock) (n : Nat) : Prop := Counts l n ∧ (0 < n → l.sem = true)

section Held

variable (calls : List SemCall)

@[simp] theorem held_init : held (calls ++ [.init]) = 0 := by simp [held]

@[simp] theorem held_wait (granted : Bool) :
    held (calls ++ [.wait granted]) = if granted then held calls + 1 else held calls := by
  simp [held]

@[simp] theorem held_post : held (calls ++ [.post]) = held calls - 1 := by simp [held]

@[simp] theorem held_destroy : held (calls ++ [.destroy]) = 0 := by simp [held]

end Held

theorem sound_newLock : Sound newLock 0 := by
  refine ⟨⟨rfl, rfl⟩, ?_⟩
  intro h
  exact absurd h (by decide)

/-- One call keeps the counter right if it is in order. -/
theorem step_sound (l : ULock) (n : Nat) (op : Op) (h : Sound l n) (hok : Orderly l op) :
    ∃ r l', step l op = some (r, l') ∧ Allowed n op r ∧ Sound l' (next n op) := by
  obtain ⟨⟨hlocked, hheld⟩, hsem⟩ := h
  refine ⟨_, _, rfl, ?_⟩
  cases op with
  | init =>
      have hn : n = 0 := by
        have hzero : l.locked = 0 := hok
        omega
      subst hn
      refine ⟨by rintro g ⟨⟩, ⟨hlocked, ?_⟩, ?_⟩
      · simp [apply, ULock.init, ULock.call, next]
      · intro _
        rfl
  | lock granted =>
      have hsem' : l.sem = true := hok
      by_cases hn : n = 0
      · subst hn
        have hlocked' : l.locked + 1 = 1 := by omega
        have hheld' : held l.calls = 0 := hheld
        cases granted with
        | true =>
            refine ⟨?_, ⟨?_, ?_⟩, ?_⟩
            · rintro g ⟨⟩ -
              simp [apply, ULock.lock, ULock.call, hlocked', hsem']
            · simp [apply, ULock.lock, ULock.call, hlocked', hsem', next]
            · simp [apply, ULock.lock, ULock.call, hlocked', hsem', next, hheld']
            · simp [apply, ULock.lock, ULock.call, hlocked', hsem']
        | false =>
            refine ⟨?_, ⟨?_, ?_⟩, ?_⟩
            · rintro g ⟨⟩ -
              simp [apply, ULock.lock, ULock.call, hlocked', hsem']
            · simp [apply, ULock.lock, ULock.call, hlocked', hsem', next]
            · simp [apply, ULock.lock, ULock.call, hlocked', hsem', next, hheld']
            · simp [next]
      · have hlocked' : ¬l.locked + 1 = 1 := by omega
        have hpos : 0 < n := Nat.pos_of_ne_zero hn
        rw [if_pos hpos] at hheld
        refine ⟨fun g _ hzero => absurd hzero hn, ⟨?_, ?_⟩, ?_⟩
        · simp only [apply, ULock.lock, hlocked', if_false, next, hn]
          omega
        · simp [apply, ULock.lock, hlocked', next, hn, hheld]
        · simp [apply, ULock.lock, hlocked', hsem']
  | unlock =>
      have hpos : 0 < n := by
        have hlt : 0 < l.locked := hok
        omega
      rw [if_pos hpos] at hheld
      have hsem' := hsem hpos
      refine ⟨by rintro g ⟨⟩, ?_⟩
      by_cases hone : n = 1
      · subst hone
        have hlocked' : l.locked - 1 = 0 := by omega
        refine ⟨⟨?_, ?_⟩, ?_⟩
        · simp [apply, ULock.unlock, ULock.call, hlocked', hsem', next]
        · simp [apply, ULock.unlock, ULock.call, hlocked', hsem', next, hheld]
        · simp [next]
      · have hlocked' : ¬l.locked - 1 = 0 := by omega
        have hpos' : 0 < n - 1 := by omega
        refine ⟨⟨?_, ?_⟩, ?_⟩
        · simp only [apply, ULock.unlock, hlocked', if_false, next]
          omega
        · simp [apply, ULock.unlock, hlocked', next, hpos', hheld]
        · simp [apply, ULock.unlock, hlocked', hsem']
  | destroy =>
      have hone : l.locked = 1 := hok
      have hn : n = 1 := by omega
      subst hn
      have hlocked' : l.locked - 1 = 0 := by omega
      have hsem' := hsem Nat.one_pos
      refine ⟨by rintro g ⟨⟩, ⟨?_, ?_⟩, ?_⟩
      · simp [apply, ULock.destroy, ULock.unlock, ULock.call, hlocked', hsem', next]
      · simp only [apply, ULock.destroy, ULock.unlock, ULock.call, hlocked', hsem', if_true,
          held_destroy]
        rfl
      · simp [next]

/-- A call that is not in order leaves the counter wrong, or does not wait. -/
theorem orderly_of_step (l : ULock) (n : Nat) (op : Op) (r : List SemCall) (l' : ULock)
    (h : Sound l n) (hstep : step l op = some (r, l')) (hallowed : Allowed n op r)
    (hcounts : Counts l' (next n op)) : Orderly l op := by
  obtain ⟨⟨hlocked, hheld⟩, hsem⟩ := h
  obtain ⟨rfl, rfl⟩ := Prod.mk.inj (Option.some.inj hstep)
  cases op with
  | init =>
      have hheld' : held (l.calls ++ [.init]) = if 0 < n then 1 else 0 := hcounts.2
      rw [held_init] at hheld'
      show l.locked = 0
      rcases Nat.eq_zero_or_pos n with hn | hn
      · omega
      · rw [if_pos hn] at hheld'
        omega
  | lock granted =>
      show l.sem = true
      by_cases hn : n = 0
      · have hwait := hallowed granted rfl hn
        by_contra hsem'
        have hone : l.locked + 1 = 1 := by omega
        simp [apply, ULock.lock, hone, hsem'] at hwait
      · exact hsem (Nat.pos_of_ne_zero hn)
  | unlock =>
      have hlocked' := hcounts.1
      show 0 < l.locked
      simp only [apply, ULock.unlock, ULock.call, next] at hlocked'
      split at hlocked'
      · split at hlocked' <;> simp only at hlocked' <;> omega
      · simp only at hlocked'
        omega
  | destroy =>
      have hlocked' := hcounts.1
      show l.locked = 1
      simp only [apply, ULock.destroy, ULock.unlock, ULock.call, next] at hlocked'
      split at hlocked' <;> split at hlocked' <;> simp only at hlocked' <;> omega

/-- A lock follows its depth over a run exactly when no call of the run breaks
the order. -/
theorem lock_counts_iff (ops : List Op) :
    Follows step Allowed next Counts newLock 0 ops ↔ StepsMeet step Orderly newLock ops :=
  follows_iff_of_simulation (fun _ _ h => h.1) step_sound orderly_of_step ops sound_newLock

/-- A lock that is destroyed while it is free does not wait the next time. -/
theorem lock_after_destroy_not_counted :
    ¬Follows step Allowed next Counts newLock 0 [.init, .destroy, .init, .lock true] ∧
      run step newLock [.init, .destroy, .init, .lock true] =
        some ⟨true, 0, [.init, .destroy, .init]⟩ := by
  refine ⟨?_, rfl⟩
  rintro ⟨-, r, l, hl, -, -, r', l', hl', -, h⟩
  obtain ⟨-, rfl⟩ := Prod.mk.inj (Option.some.inj hl)
  obtain ⟨-, rfl⟩ := Prod.mk.inj (Option.some.inj hl')
  exact absurd h.head.1 (by decide)

end ULib.ProcessLock
