import Mathlib.Data.List.Sort
import Mathlib.Tactic.Common

/-!
The timers of `timer.cpp`: the list of the alarms that wait, in the order that
`UEventTime::operator<` of `event/event_time.cpp` gives, and the list of the
items to reuse. A handler may itself insert and erase alarms; what is under way
is kept as a stack. The arithmetic on `long` stays far below its bounds.
-/

namespace ULib.TimerQueue

/-- `struct timeval`, as `gettimeofday` fills it. -/
structure Timeval where
  tv_sec : Int
  tv_usec : Int
  tv_usec_range : 0 ≤ tv_usec ∧ tv_usec < 1000000
  deriving DecidableEq

/-- The instant in microseconds. -/
def Timeval.total (t : Timeval) : Int := t.tv_sec * 1000000 + t.tv_usec

/-- An alarm: the object, its interval and the time it was set at. -/
structure UEventTime where
  object : Nat
  tv_sec : Int
  tv_usec : Int
  ctime : Timeval
  deriving DecidableEq

namespace UEventTime

variable (e t : UEventTime) (u_now : Timeval)

/-- `setCurrentTime`, for a reading of the clock. -/
def setCurrentTime : UEventTime := { e with ctime := u_now }

/-- `operator<` -/
def lt : Bool :=
  let t1 := e.ctime.tv_sec + e.tv_sec
  let t2 := t.ctime.tv_sec + t.tv_sec
  t1 < t2 || (t1 = t2 && e.ctime.tv_usec + e.tv_usec < t.ctime.tv_usec + t.tv_usec)

def isOld : Bool :=
  let t1 := e.ctime.tv_sec + e.tv_sec
  t1 < u_now.tv_sec || (t1 = u_now.tv_sec && e.ctime.tv_usec + e.tv_usec < u_now.tv_usec)

/-- `UTimeVal::getMilliSecond` -/
def getMilliSecond : Int := e.tv_sec * 1000 + e.tv_usec.tdiv 1000

def isExpired : Bool :=
  let diff := (e.ctime.tv_sec + e.tv_sec - u_now.tv_sec) * 1000 +
    (e.ctime.tv_usec + e.tv_usec - u_now.tv_usec).tdiv 1000
  if diff ≤ 0 then true else diff ≤ e.getMilliSecond.tdiv 128

end UEventTime

/-- `UTimeVal::adjust` -/
def adjust (tv_sec tv_usec : Int) : Int × Int :=
  let riporto := tv_usec.tdiv 1000000
  let (tv_sec, tv_usec) :=
    if riporto ≠ 0 then (tv_sec + riporto, tv_usec.tmod 1000000) else (tv_sec, tv_usec)
  if tv_usec < 0 then (tv_sec - 1, tv_usec + 1000000) else (tv_sec, tv_usec)

def UEventTime.setTimerVal (e : UEventTime) (u_now : Timeval) : Int × Int :=
  adjust (e.ctime.tv_sec + e.tv_sec - u_now.tv_sec)
    (e.ctime.tv_usec + e.tv_usec - u_now.tv_usec)

/-- What is under way: the loop of `setTimer`, or the handler of an alarm it has taken out. -/
inductive Frame
  | setting (bsignal : Bool)
  | calling (alarm : UEventTime)
  deriving DecidableEq

/-- The static members, and what is under way. An item of `pool` may have no alarm. -/
structure UTimer where
  async : Bool
  first : List UEventTime
  pool : List (Option UEventTime)
  u_now : Timeval
  frames : List Frame
  deriving DecidableEq

/-- The walk of `insertEntry`. -/
def insertEntry (e : UEventTime) : List UEventTime → List UEventTime
  | [] => [e]
  | item :: next => if e.lt item then e :: item :: next else item :: insertEntry e next

/-- The walk of `erase`. -/
def eraseEntry (object : Nat) : List UEventTime → List UEventTime
  | [] => []
  | item :: next => if item.object = object then next else item :: eraseEntry object next

/-- What is done to the timers: the three calls, one turn of the loop of
`setTimer`, and the return of a handler. `insert` and `erase` with `set_timer`
go on with a call of `setTimer(false)`. -/
inductive Action
  | insert (alarm : UEventTime) (clock : Timeval)
  | erase (object : Nat) (flag_reuse : Bool)
  | setTimer (bsignal : Bool) (clock : Timeval)
  | turn
  | answer (result : Int) (clock : Timeval)
  deriving DecidableEq

/-- What a step does beyond the lists: the handler it calls, or the interval timer it sets. -/
inductive Reply
  | quiet
  | called (alarm : UEventTime)
  | settled (it_value : Int × Int)
  deriving DecidableEq

namespace UTimer

/-- Before the first call. -/
def init (async : Bool) : UTimer := ⟨async, [], [], ⟨0, 0, by decide⟩, []⟩

/-- The caller of the timers has the control: no loop of `setTimer` is in between. -/
def idle (s : UTimer) : Bool :=
  match s.frames with
  | .setting _ :: _ => false
  | _ => true

def insert (s : UTimer) (a : UEventTime) (clock : Timeval) : UTimer :=
  -- the item comes from the pool, and the alarm that was left there is deleted
  { s with first := insertEntry (a.setCurrentTime clock) s.first, pool := s.pool.tail
           u_now := clock }

def erase (s : UTimer) (object : Nat) (flag_reuse : Bool) : UTimer :=
  if s.first.any (·.object = object) then
    { s with first := eraseEntry object s.first
             pool := if flag_reuse then none :: s.pool else s.pool }
  else s

def expired (s : UTimer) (bsignal : Bool) (item : UEventTime) : Bool :=
  if bsignal then item.isExpired s.u_now else item.isOld s.u_now

/-- A turn of the loop of `setTimer(bsignal)`; `frames` is what it was called in. -/
def turn (s : UTimer) (bsignal : Bool) (frames : List Frame) : Reply × UTimer :=
  match s.first with
  | [] => (.settled (0, 0), { s with frames })
  | item :: next =>
      if s.expired bsignal item then
        (.called item, { s with first := next, frames := .calling item :: s.frames })
      else (.settled (item.setTimerVal s.u_now), { s with frames })

/-- The end of `callHandlerTime`. -/
def answer (s : UTimer) (a : UEventTime) (frames : List Frame) (result : Int) (clock : Timeval) :
    UTimer :=
  if result = 0 then
    { s with first := insertEntry (a.setCurrentTime clock) s.first, u_now := clock, frames }
  else { s with pool := (if s.async then none else some a) :: s.pool, frames }

def step (s : UTimer) : Action → Option (Reply × UTimer)
  | .insert a clock => if s.idle then some (.quiet, s.insert a clock) else none
  | .erase object flag_reuse => if s.idle then some (.quiet, s.erase object flag_reuse) else none
  | .setTimer bsignal clock =>
      if s.idle then some (.quiet, { s with u_now := clock, frames := .setting bsignal :: s.frames })
      else none
  | .turn =>
      match s.frames with
      | .setting bsignal :: frames => some (s.turn bsignal frames)
      | _ => none
  | .answer result clock =>
      match s.frames with
      | .calling a :: frames => some (.quiet, s.answer a frames result clock)
      | _ => none

end UTimer

end ULib.TimerQueue
