import ULib.Runs
import ULib.TimerQueue

/-!
What the timers are for: every alarm that waits has an instant, the handlers of
those that are due are called, soonest first, and an alarm waits again when its
handler says so. The list of the timers follows this over every run whose
comparisons of seconds and microseconds agree with those of the instants.
-/

namespace ULib.TimerSchedule

open ULib.TimerQueue
open ULib.TimerQueue.UTimer
open ULib.Runs

/-! ### The alarms and their instants -/

/-- The instant at which an alarm expires, in microseconds. -/
def expiry (e : UEventTime) : Int := e.ctime.total + (e.tv_sec * 1000000 + e.tv_usec)

/-- The alarms that wait, by object, the clock, and what is under way. -/
structure Alarms where
  waiting : Nat → Option Int
  now : Int
  frames : List Frame

/-- No alarm waits for an instant before this one. -/
def Soonest (s : Alarms) (d : Int) : Prop := ∀ o d', s.waiting o = some d' → d ≤ d'

/-- A handler may be called. A signal may come before its time, by one part in
128 of the interval of the alarm, in milliseconds. -/
def Due (bsignal : Bool) (e : UEventTime) (d now : Int) : Prop :=
  if bsignal then d < now + 1000 * (max 0 (e.getMilliSecond.tdiv 128) + 1) else d < now

/-- A handler must be called. -/
def Late (bsignal : Bool) (d now : Int) : Prop := if bsignal then d ≤ now else d < now

/-- What a turn of the loop of `setTimer` may do: the handler called is that of
the alarm that is due soonest, and the loop ends when none is late. -/
def turnAllowed (s : Alarms) (bsignal : Bool) : Reply → Prop
  | .quiet => False
  | .called a => ∃ d, s.waiting a.object = some d ∧ Due bsignal a d s.now ∧ Soonest s d
  | .settled v =>
      (∀ o d, s.waiting o = some d → ¬ Late bsignal d s.now) ∧
        ((v = (0, 0) ∧ ∀ o, s.waiting o = none) ∨
          ∃ o d, s.waiting o = some d ∧ Soonest s d ∧ s.now + (v.1 * 1000000 + v.2) = d)

def allowed (s : Alarms) : Action → Reply → Prop
  | .turn, r => ∃ bsignal frames, s.frames = .setting bsignal :: frames ∧ turnAllowed s bsignal r
  | _, r => r = .quiet

/-- An alarm that waits from now on. -/
def Alarms.wait (s : Alarms) (a : UEventTime) (clock : Timeval) : Alarms :=
  { s with waiting := Function.update s.waiting a.object (some (expiry (a.setCurrentTime clock)))
           now := clock.total }

def Alarms.next (s : Alarms) : Action → Reply → Alarms
  | .insert a clock, _ => s.wait a clock
  | .erase object _, _ => { s with waiting := Function.update s.waiting object none }
  | .setTimer bsignal clock, _ =>
      { s with now := clock.total, frames := .setting bsignal :: s.frames }
  | .turn, .called a =>
      { s with waiting := Function.update s.waiting a.object none
               frames := .calling a :: s.frames }
  | .turn, _ => { s with frames := s.frames.tail }
  | .answer result clock, _ =>
      match s.frames with
      | .calling a :: frames =>
          if result = 0 then { s.wait a clock with frames } else { s with frames }
      | _ => s

/-! ### The lists -/

def Frame.object : Frame → Option Nat
  | .setting _ => none
  | .calling a => some a.object

/-- The objects that the timers hold: in the list, to be deleted, and with a handler under way. -/
def held (s : UTimer) : List Nat :=
  s.first.map (·.object) ++ (s.pool.filterMap (·.map (·.object)) ++
    s.frames.filterMap Frame.object)

def Sorted (first : List UEventTime) : Prop := first.Pairwise (expiry · ≤ expiry ·)

instance (first : List UEventTime) : Decidable (Sorted first) :=
  inferInstanceAs (Decidable (first.Pairwise (expiry · ≤ expiry ·)))

/-- An alarm waits for an instant where it is in the list with it. -/
def Waits (waiting : Nat → Option Int) (first : List UEventTime) : Prop :=
  ∀ o d, waiting o = some d ↔ ∃ e ∈ first, e.object = o ∧ expiry e = d

/-- The list holds the alarms that wait, each once and in the order of their
instants, and no other list holds one of them. -/
structure Represents (s : UTimer) (t : Alarms) : Prop where
  waiting : Waits t.waiting s.first
  sorted : Sorted s.first
  once : (held s).Nodup
  now : t.now = s.u_now.total
  frames : t.frames = s.frames

/-- The alarm whose handler is under way. -/
def running (s : UTimer) : Option UEventTime :=
  match s.frames with
  | .calling a :: _ => some a
  | _ => none

/-- The calls are made where the control is with the caller, and an object that
is inserted is not one that the timers hold already. -/
def Permitted (s : UTimer) : Action → Prop
  | .insert a _ => s.idle ∧ a.object ∉ held s
  | .erase _ _ => s.idle
  | .setTimer _ _ => s.idle
  | .turn => ¬ s.idle
  | .answer _ _ => (running s).isSome

instance (s : UTimer) : ∀ i, Decidable (Permitted s i)
  | .insert a _ => inferInstanceAs (Decidable (s.idle ∧ a.object ∉ held s))
  | .erase _ _ => inferInstanceAs (Decidable s.idle)
  | .setTimer _ _ => inferInstanceAs (Decidable s.idle)
  | .turn => inferInstanceAs (Decidable ¬ s.idle)
  | .answer _ _ => inferInstanceAs (Decidable (running s).isSome)

/-- The comparisons of the walk of `insertEntry` are those of the instants, ties aside. -/
def WalkAgrees (e : UEventTime) : List UEventTime → Prop
  | [] => True
  | item :: next =>
      if e.lt item then expiry e ≤ expiry item else expiry item ≤ expiry e ∧ WalkAgrees e next

/-- The comparisons that a step makes are those of the instants. -/
def Agrees (s : UTimer) : Action → Prop
  | .insert a clock => WalkAgrees (a.setCurrentTime clock) s.first
  | .turn =>
      s.frames.head? = some (.setting false) →
        ∀ item ∈ s.first.head?, item.isOld s.u_now ↔ expiry item < s.u_now.total
  | .answer result clock =>
      result = 0 → ∀ a ∈ running s, WalkAgrees (a.setCurrentTime clock) s.first
  | _ => True

/-! ### The walks -/

theorem insertEntry_perm (e : UEventTime) (first : List UEventTime) :
    (insertEntry e first).Perm (e :: first) := by
  have horder : insertEntry e first = first.orderedInsert (fun a b => a.lt b) e := by
    induction first with
    | nil => rfl
    | cons item next ih => rw [insertEntry, List.orderedInsert_cons, ih]
  rw [horder]
  exact List.perm_orderedInsert _ e first

theorem sorted_insertEntry_iff (e : UEventTime) {first : List UEventTime} (hsorted : Sorted first) :
    Sorted (insertEntry e first) ↔ WalkAgrees e first := by
  induction first with
  | nil => exact ⟨fun _ => trivial, fun _ => List.pairwise_singleton _ e⟩
  | cons item next ih =>
      obtain ⟨hitem, hnext⟩ := List.pairwise_cons.mp hsorted
      rw [insertEntry, WalkAgrees]
      split
      · constructor
        · exact fun h => (List.pairwise_cons.mp h).1 item List.mem_cons_self
        · refine fun h => List.pairwise_cons.mpr ⟨fun x hx => ?_, hsorted⟩
          rcases List.mem_cons.mp hx with rfl | hx
          · exact h
          · exact h.trans (hitem x hx)
      · rw [← ih hnext, Sorted, List.pairwise_cons]
        refine and_congr_left fun _ => ⟨fun h => ?_, fun h x hx => ?_⟩
        · exact h e ((insertEntry_perm e next).mem_iff.mpr List.mem_cons_self)
        · rcases List.mem_cons.mp ((insertEntry_perm e next).mem_iff.mp hx) with rfl | hx
          · exact h
          · exact hitem x hx

theorem eraseEntry_sublist (o : Nat) (first : List UEventTime) :
    (eraseEntry o first).Sublist first := by
  induction first with
  | nil => exact .slnil
  | cons item next ih =>
      rw [eraseEntry]
      split
      · exact List.sublist_cons_self item next
      · exact ih.cons_cons item

theorem mem_eraseEntry {o : Nat} {first : List UEventTime}
    (hnodup : (first.map (·.object)).Nodup) (e : UEventTime) :
    e ∈ eraseEntry o first ↔ e ∈ first ∧ e.object ≠ o := by
  induction first with
  | nil => simp [eraseEntry]
  | cons item next ih =>
      obtain ⟨hitem, hnext⟩ := List.nodup_cons.mp hnodup
      have hother : ∀ x ∈ next, x.object ≠ item.object :=
        fun x hx h => hitem (List.mem_map.mpr ⟨x, hx, h⟩)
      rw [eraseEntry]
      split
      · rename_i h
        subst h
        rw [List.mem_cons]
        constructor
        · exact fun he => ⟨.inr he, hother e he⟩
        · rintro ⟨rfl | he, hne⟩
          · exact absurd rfl hne
          · exact he
      · rename_i h
        rw [List.mem_cons, List.mem_cons, ih hnext]
        constructor
        · rintro (rfl | ⟨he, hne⟩)
          · exact ⟨.inl rfl, h⟩
          · exact ⟨.inr he, hne⟩
        · rintro ⟨rfl | he, hne⟩
          · exact .inl rfl
          · exact .inr ⟨he, hne⟩

theorem Waits.insertEntry {waiting : Nat → Option Int} {first : List UEventTime}
    (h : Waits waiting first) {e : UEventTime} (hfresh : ∀ x ∈ first, x.object ≠ e.object) :
    Waits (Function.update waiting e.object (some (expiry e))) (insertEntry e first) := by
  intro o d
  simp only [(insertEntry_perm e first).mem_iff, List.mem_cons, exists_eq_or_imp]
  rcases eq_or_ne o e.object with rfl | hne
  · rw [Function.update_self, Option.some_inj]
    constructor
    · exact fun hd => .inl ⟨rfl, hd⟩
    · rintro (⟨-, hd⟩ | ⟨x, hx, hobject, -⟩)
      · exact hd
      · exact absurd hobject (hfresh x hx)
  · rw [Function.update_of_ne hne, h]
    constructor
    · exact .inr
    · rintro (⟨hobject, -⟩ | hx)
      · exact absurd hobject.symm hne
      · exact hx

theorem Waits.eraseEntry {waiting : Nat → Option Int} {first : List UEventTime}
    (h : Waits waiting first) (hnodup : (first.map (·.object)).Nodup) (o : Nat) :
    Waits (Function.update waiting o none) (eraseEntry o first) := by
  intro o' d
  simp only [mem_eraseEntry hnodup]
  rcases eq_or_ne o' o with rfl | hne
  · rw [Function.update_self]
    constructor
    · exact fun hd => nomatch hd
    · rintro ⟨e, ⟨-, hother⟩, hobject, -⟩
      exact absurd hobject hother
  · rw [Function.update_of_ne hne, h]
    constructor
    · rintro ⟨e, he, rfl, hd⟩
      exact ⟨e, ⟨he, hne⟩, rfl, hd⟩
    · rintro ⟨e, ⟨he, -⟩, hobject, hd⟩
      exact ⟨e, he, hobject, hd⟩

theorem Waits.tail {waiting : Nat → Option Int} {item : UEventTime} {next : List UEventTime}
    (h : Waits waiting (item :: next)) (hnodup : ((item :: next).map (·.object)).Nodup) :
    Waits (Function.update waiting item.object none) next := by
  have herase := h.eraseEntry hnodup item.object
  rwa [TimerQueue.eraseEntry, if_pos rfl] at herase

theorem Waits.none {waiting : Nat → Option Int} {first : List UEventTime} (h : Waits waiting first)
    {o : Nat} (ho : ∀ e ∈ first, e.object ≠ o) : waiting o = none := by
  cases hw : waiting o with
  | none => rfl
  | some d =>
      obtain ⟨e, he, hobject, -⟩ := (h o d).mp hw
      exact absurd hobject (ho e he)

/-! ### The comparisons -/

theorem tdiv_bounds (i : Int) : i - 1000 < 1000 * i.tdiv 1000 ∧ 1000 * i.tdiv 1000 < i + 1000 := by
  have hsum := Int.mul_tdiv_add_tmod i 1000
  have hlt := Int.tmod_lt_of_pos i (by decide : (0 : Int) < 1000)
  have hgt := Int.lt_tmod_of_pos i (by decide : (0 : Int) < 1000)
  constructor
  · omega
  · omega

theorem due_of_isExpired {e : UEventTime} {u_now : Timeval} (h : e.isExpired u_now) :
    Due true e (expiry e) u_now.total := by
  have hdiv := tdiv_bounds (e.ctime.tv_usec + e.tv_usec - u_now.tv_usec)
  rw [UEventTime.isExpired] at h
  rw [Due, if_pos rfl, expiry, Timeval.total, Timeval.total]
  split at h
  · omega
  · have hle := of_decide_eq_true h
    omega

theorem lt_of_not_isExpired {e : UEventTime} {u_now : Timeval} (h : ¬ e.isExpired u_now) :
    u_now.total < expiry e := by
  have hdiv := tdiv_bounds (e.ctime.tv_usec + e.tv_usec - u_now.tv_usec)
  rw [UEventTime.isExpired] at h
  rw [expiry, Timeval.total, Timeval.total]
  split at h
  · exact absurd rfl h
  · omega

/-- The instant stays, and the microseconds become less than a second. -/
theorem adjust_spec (tv_sec tv_usec : Int) :
    (adjust tv_sec tv_usec).1 * 1000000 + (adjust tv_sec tv_usec).2 =
        tv_sec * 1000000 + tv_usec ∧
      0 ≤ (adjust tv_sec tv_usec).2 ∧ (adjust tv_sec tv_usec).2 < 1000000 := by
  have hlt := Int.tmod_lt_of_pos tv_usec (by decide : (0 : Int) < 1000000)
  have hgt := Int.lt_tmod_of_pos tv_usec (by decide : (0 : Int) < 1000000)
  have hsum := Int.mul_tdiv_add_tmod tv_usec 1000000
  rcases eq_or_ne (tv_usec.tdiv 1000000) 0 with hr | hr
  · simp only [adjust, ne_eq, hr, not_true_eq_false, if_false]
    split
    · dsimp only
      omega
    · dsimp only
      omega
  · simp only [adjust, ne_eq, hr, not_false_eq_true, if_true]
    split
    · dsimp only
      omega
    · dsimp only
      omega

theorem setTimerVal_total (e : UEventTime) (u_now : Timeval) :
    u_now.total + ((e.setTimerVal u_now).1 * 1000000 + (e.setTimerVal u_now).2) = expiry e := by
  rw [UEventTime.setTimerVal, (adjust_spec _ _).1, expiry, Timeval.total, Timeval.total]
  omega

/-! ### The steps -/

section Steps

variable {s : UTimer} {t : Alarms} (h : Represents s t)

include h

theorem Represents.nodup_first : (s.first.map (·.object)).Nodup :=
  (List.nodup_append.mp h.once).1

theorem Represents.reuse : Represents { s with pool := s.pool.tail } t where
  waiting := h.waiting
  sorted := h.sorted
  once := h.once.sublist
    ((List.Sublist.refl _).append (((List.tail_sublist s.pool).filterMap _).append_right _))
  now := h.now
  frames := h.frames

theorem Represents.leave {frame : Frame} {frames : List Frame}
    (hframes : s.frames = frame :: frames) :
    Represents { s with frames } { t with frames } where
  waiting := h.waiting
  sorted := h.sorted
  once := by
    have hsub : frames.Sublist s.frames := hframes ▸ List.sublist_cons_self frame frames
    exact h.once.sublist ((List.Sublist.refl _).append ((hsub.filterMap _).append_left _))
  now := h.now
  frames := rfl

theorem Represents.wait {a : UEventTime} (hfresh : a.object ∉ held s) (clock : Timeval)
    (hagrees : WalkAgrees (a.setCurrentTime clock) s.first) :
    Represents { s with first := TimerQueue.insertEntry (a.setCurrentTime clock) s.first
                        u_now := clock }
      (t.wait a clock) := by
  have hother : ∀ x ∈ s.first, x.object ≠ a.object := fun x hx hobject =>
    hfresh (List.mem_append_left _ (List.mem_map.mpr ⟨x, hx, hobject⟩))
  refine ⟨?_, ?_, ?_, rfl, h.frames⟩
  · exact h.waiting.insertEntry (e := a.setCurrentTime clock) hother
  · exact (sorted_insertEntry_iff _ h.sorted).mpr hagrees
  · have hperm := ((insertEntry_perm (a.setCurrentTime clock) s.first).map
      (·.object)).append_right
        (s.pool.filterMap (·.map (·.object)) ++ s.frames.filterMap Frame.object)
    exact hperm.nodup_iff.mpr (List.nodup_cons.mpr ⟨hfresh, h.once⟩)

theorem Represents.insert {a : UEventTime} (hfresh : a.object ∉ held s) (clock : Timeval)
    (hagrees : WalkAgrees (a.setCurrentTime clock) s.first) :
    Represents (s.insert a clock) (t.wait a clock) :=
  (h.wait hfresh clock hagrees).reuse

theorem Represents.erase (object : Nat) (flag_reuse : Bool) :
    Represents (s.erase object flag_reuse)
      { t with waiting := Function.update t.waiting object none } := by
  rw [UTimer.erase]
  split
  · refine ⟨h.waiting.eraseEntry h.nodup_first object,
      h.sorted.sublist (eraseEntry_sublist object s.first), h.once.sublist ?_, h.now, h.frames⟩
    cases flag_reuse
    · exact ((eraseEntry_sublist object s.first).map _).append_right _
    · exact ((eraseEntry_sublist object s.first).map _).append_right _
  · rename_i hany
    have hnone : t.waiting object = none := by
      refine h.waiting.none fun e he hobject => hany (List.any_eq_true.mpr ⟨e, he, ?_⟩)
      exact decide_eq_true hobject
    rwa [← hnone, Function.update_eq_self]

theorem Represents.setTimer (bsignal : Bool) (clock : Timeval) :
    Represents { s with u_now := clock, frames := .setting bsignal :: s.frames }
      { t with now := clock.total, frames := .setting bsignal :: t.frames } where
  waiting := h.waiting
  sorted := h.sorted
  once := h.once
  now := rfl
  frames := congrArg _ h.frames

omit h in
theorem held_calling {a : UEventTime} {frames : List Frame}
    (hframes : s.frames = .calling a :: frames) :
    (held s).Perm (a.object :: held { s with frames }) := by
  have hids : s.frames.filterMap Frame.object = a.object :: frames.filterMap Frame.object :=
    hframes ▸ rfl
  rw [held, hids, held, ← List.append_assoc, ← List.append_assoc]
  exact List.perm_middle

/-- The handler of an alarm is the only place that holds it. -/
theorem Represents.notMem_held {a : UEventTime} {frames : List Frame}
    (hframes : s.frames = .calling a :: frames) : a.object ∉ held { s with frames } :=
  (List.nodup_cons.mp ((held_calling hframes).nodup_iff.mp h.once)).1

/-- The first alarm of the list is taken out. -/
theorem Represents.call {item : UEventTime} {next : List UEventTime}
    (hfirst : s.first = item :: next) :
    Represents { s with first := next, frames := .calling item :: s.frames }
      { t with waiting := Function.update t.waiting item.object none
               frames := .calling item :: t.frames } := by
  have hnodup := h.nodup_first
  have hsorted := h.sorted
  have hwaiting := h.waiting
  rw [hfirst] at hnodup hsorted hwaiting
  refine ⟨hwaiting.tail hnodup, (List.pairwise_cons.mp hsorted).2, ?_, h.now, congrArg _ h.frames⟩
  have hheld : held s = item.object :: held { s with first := next } := by
    rw [held, hfirst]
    rfl
  exact (held_calling rfl).nodup_iff.mpr (hheld ▸ h.once)

theorem Represents.answer {a : UEventTime} {frames : List Frame}
    (hframes : s.frames = .calling a :: frames) (result : Int) (clock : Timeval)
    (hagrees : result = 0 → WalkAgrees (a.setCurrentTime clock) s.first) :
    Represents (s.answer a frames result clock)
      (if result = 0 then { t.wait a clock with frames } else { t with frames }) := by
  have hleave := h.leave hframes
  have hfresh := h.notMem_held hframes
  rw [UTimer.answer]
  split
  · rename_i hresult
    exact hleave.wait hfresh clock (hagrees hresult)
  · refine ⟨h.waiting, h.sorted, ?_, h.now, rfl⟩
    cases s.async with
    | true => exact hleave.once
    | false => exact List.perm_middle.nodup_iff.mpr (List.nodup_cons.mpr ⟨hfresh, hleave.once⟩)

/-- The first alarm of the list is one that waits, and is due soonest. -/
theorem Represents.soonest {item : UEventTime} {next : List UEventTime}
    (hfirst : s.first = item :: next) :
    t.waiting item.object = some (expiry item) ∧ Soonest t (expiry item) := by
  have hsorted := h.sorted
  rw [hfirst] at hsorted
  refine ⟨(h.waiting _ _).mpr ⟨item, hfirst ▸ List.mem_cons_self, rfl, rfl⟩, fun o d hd => ?_⟩
  obtain ⟨e, he, -, rfl⟩ := (h.waiting o d).mp hd
  rw [hfirst] at he
  rcases List.mem_cons.mp he with rfl | he
  · exact le_refl _
  · exact (List.pairwise_cons.mp hsorted).1 e he

theorem Represents.turn {bsignal : Bool} {frames : List Frame}
    (hframes : s.frames = .setting bsignal :: frames) (hagrees : Agrees s .turn) :
    turnAllowed t bsignal (s.turn bsignal frames).1 ∧
      Represents (s.turn bsignal frames).2 (t.next .turn (s.turn bsignal frames).1) := by
  have htail : ∀ v, t.next .turn (.settled v) = { t with frames } := fun v => by
    show { t with frames := t.frames.tail } = { t with frames }
    rw [h.frames, hframes, List.tail_cons]
  rw [UTimer.turn]
  split
  · rename_i hfirst
    have hnone : ∀ o, t.waiting o = none :=
      fun o => h.waiting.none fun e he => absurd (hfirst ▸ he) List.not_mem_nil
    dsimp only
    rw [htail]
    exact ⟨⟨fun o d hd => (nomatch (hnone o).symm.trans hd), .inl ⟨rfl, hnone⟩⟩, h.leave hframes⟩
  · rename_i item next hfirst
    obtain ⟨hwaits, hsoonest⟩ := h.soonest hfirst
    have hold : bsignal = false → (item.isOld s.u_now ↔ expiry item < s.u_now.total) := by
      rintro rfl
      exact hagrees (hframes ▸ rfl) item (hfirst ▸ rfl)
    split
    · rename_i hexpired
      refine ⟨⟨expiry item, hwaits, ?_, hsoonest⟩, h.call hfirst⟩
      rw [h.now]
      cases bsignal with
      | true => exact due_of_isExpired hexpired
      | false => exact (hold rfl).mp hexpired
    · rename_i hexpired
      dsimp only
      rw [htail]
      refine ⟨⟨fun o d hd => ?_, .inr ⟨item.object, expiry item, hwaits, hsoonest, ?_⟩⟩,
        h.leave hframes⟩
      · have hle := hsoonest o d hd
        rw [h.now]
        cases bsignal with
        | true => exact ((lt_of_not_isExpired hexpired).trans_le hle).not_ge
        | false => exact fun hlt => hexpired ((hold rfl).mpr (hle.trans_lt hlt))
      · rw [h.now, setTimerVal_total]

/-- A turn that calls the handlers that are due compares as the instants do. -/
theorem Represents.turn_agrees {bsignal : Bool} {frames : List Frame}
    (hframes : s.frames = .setting bsignal :: frames)
    (hallowed : turnAllowed t bsignal (s.turn bsignal frames).1) : Agrees s .turn := by
  intro hhead item hitem
  obtain rfl : bsignal = false := by simpa [hframes] using hhead
  obtain ⟨next, hfirst⟩ := List.head?_eq_some_iff.mp hitem
  obtain ⟨hwaits, -⟩ := h.soonest hfirst
  have hturn : s.turn false frames =
      if s.expired false item then
        (.called item, { s with first := next, frames := .calling item :: s.frames })
      else (.settled (item.setTimerVal s.u_now), { s with frames }) := by
    rw [UTimer.turn, hfirst]
  rw [hturn] at hallowed
  rw [← h.now]
  split at hallowed
  · rename_i hold
    obtain ⟨d, hd, hdue, -⟩ := hallowed
    obtain rfl : expiry item = d := Option.some.inj (hwaits.symm.trans hd)
    exact ⟨fun _ => hdue, fun _ => hold⟩
  · rename_i hold
    exact ⟨fun h => absurd h hold, fun hlt => absurd hlt (hallowed.1 _ _ hwaits)⟩

end Steps

theorem represents_init (async : Bool) : Represents (init async) ⟨fun _ => none, 0, []⟩ where
  waiting := fun _ _ => ⟨fun h => (nomatch h), fun ⟨_, he, _⟩ => absurd he List.not_mem_nil⟩
  sorted := List.Pairwise.nil
  once := List.nodup_nil
  now := rfl
  frames := rfl

theorem frames_of_not_idle {s : UTimer} (h : ¬ s.idle) :
    ∃ bsignal frames, s.frames = .setting bsignal :: frames := by
  rw [idle] at h
  split at h
  · rename_i bsignal frames hframes
    exact ⟨bsignal, frames, hframes⟩
  · exact absurd rfl h

theorem frames_of_running {s : UTimer} (h : (running s).isSome) :
    ∃ a frames, s.frames = .calling a :: frames ∧ running s = some a := by
  rw [running] at h ⊢
  split at h
  · rename_i a frames hframes
    exact ⟨a, frames, hframes, rfl⟩
  · exact absurd h Bool.false_ne_true

theorem represents_step {s : UTimer} {t : Alarms} {i : Action} (h : Represents s t)
    (hpermitted : Permitted s i) (hagrees : Agrees s i) :
    ∃ r s', step s i = some (r, s') ∧ allowed t i r ∧ Represents s' (t.next i r) := by
  cases i with
  | insert a clock =>
      exact ⟨.quiet, _, if_pos hpermitted.1, rfl, h.insert hpermitted.2 clock hagrees⟩
  | erase object flag_reuse =>
      exact ⟨.quiet, _, if_pos hpermitted, rfl, h.erase object flag_reuse⟩
  | setTimer bsignal clock =>
      exact ⟨.quiet, _, if_pos hpermitted, rfl, h.setTimer bsignal clock⟩
  | turn =>
      obtain ⟨bsignal, frames, hframes⟩ := frames_of_not_idle hpermitted
      obtain ⟨hallowed, hrepresents⟩ := h.turn hframes hagrees
      have hstep : step s .turn = some (s.turn bsignal frames) := by rw [step, hframes]
      exact ⟨_, _, hstep, ⟨bsignal, frames, h.frames.trans hframes, hallowed⟩, hrepresents⟩
  | answer result clock =>
      obtain ⟨a, frames, hframes, hrunning⟩ := frames_of_running hpermitted
      have hstep : step s (.answer result clock) =
          some (.quiet, s.answer a frames result clock) := by rw [step, hframes]
      have hnext : t.next (.answer result clock) .quiet =
          if result = 0 then { t.wait a clock with frames } else { t with frames } := by
        rw [Alarms.next, h.frames, hframes]
      refine ⟨_, _, hstep, rfl, hnext ▸ h.answer hframes result clock fun hresult => ?_⟩
      exact hagrees hresult a hrunning

theorem agrees_of_step {s s' : UTimer} {t : Alarms} {i : Action} {r : Reply} (h : Represents s t)
    (hpermitted : Permitted s i) (hstep : step s i = some (r, s')) (hallowed : allowed t i r)
    (hafter : Represents s' (t.next i r)) : Agrees s i := by
  cases i with
  | insert a clock =>
      rw [step, if_pos hpermitted.1] at hstep
      obtain ⟨rfl, rfl⟩ := Prod.mk.inj (Option.some.inj hstep)
      exact (sorted_insertEntry_iff _ h.sorted).mp hafter.sorted
  | erase object flag_reuse => trivial
  | setTimer bsignal clock => trivial
  | turn =>
      obtain ⟨bsignal, frames, hframes, hturn⟩ := hallowed
      rw [h.frames] at hframes
      rw [step, hframes] at hstep
      have hr : (s.turn bsignal frames).1 = r := congrArg Prod.fst (Option.some.inj hstep)
      exact h.turn_agrees hframes (hr ▸ hturn)
  | answer result clock =>
      rintro hresult a hrunning
      obtain ⟨a', frames, hframes, hrunning'⟩ := frames_of_running hpermitted
      obtain rfl := Option.some.inj (hrunning'.symm.trans hrunning)
      rw [step, hframes] at hstep
      obtain ⟨rfl, rfl⟩ := Prod.mk.inj (Option.some.inj hstep)
      have hsorted := hafter.sorted
      rw [UTimer.answer, if_pos hresult] at hsorted
      exact (sorted_insertEntry_iff _ h.sorted).mp hsorted

/-- **The timers keep to the instants exactly where their comparisons do.** Of
every run it holds that the list is in the order of the instants and has every
alarm that waits once, that a handler is called once for every time its alarm
is due, and that the alarm waits again when its handler returns 0. -/
theorem timers_track_iff (async : Bool) (is : List Action)
    (hpermitted : StepsMeet step Permitted (init async) is) :
    Tracks step allowed Alarms.next Represents (init async) ⟨fun _ => none, 0, []⟩ is ↔
      StepsMeet step Agrees (init async) is :=
  tracks_iff_of_simulation (fun _ _ h => h) (fun _ _ i h hi hok => represents_step (i := i) h hi hok)
    (fun _ _ i _ _ h hi hs hr h' => agrees_of_step (i := i) h hi hs hr h') is
    (represents_init async) hpermitted

/-- An alarm of a second, called when it is due and set again. -/
theorem timers_track_one :
    Tracks step allowed Alarms.next Represents (init false) ⟨fun _ => none, 0, []⟩
        [.insert ⟨1, 1, 0, ⟨0, 0, by decide⟩⟩ ⟨100, 0, by decide⟩,
          .setTimer true ⟨101, 0, by decide⟩, .turn, .answer 0 ⟨101, 5, by decide⟩, .turn] ↔
      StepsMeet step Agrees (init false)
        [.insert ⟨1, 1, 0, ⟨0, 0, by decide⟩⟩ ⟨100, 0, by decide⟩,
          .setTimer true ⟨101, 0, by decide⟩, .turn, .answer 0 ⟨101, 5, by decide⟩, .turn] :=
  timers_track_iff false _ (by decide)

/-- An alarm that expires at 102.1 s is put before one that expires at 102 s. -/
theorem carry_misplaced :
    ∃ is s, StepsMeet step Permitted (init false) is ∧ run step (init false) is = some s ∧
      ¬ Sorted s.first :=
  ⟨[.insert ⟨1, 1, 200000, ⟨0, 0, by decide⟩⟩ ⟨100, 900000, by decide⟩,
      .insert ⟨2, 1, 0, ⟨0, 0, by decide⟩⟩ ⟨101, 0, by decide⟩],
    _, by decide, rfl, by decide⟩

end ULib.TimerSchedule
