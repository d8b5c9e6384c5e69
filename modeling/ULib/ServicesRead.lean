import ULib.SocketRead

/-!
The accounts of `UServices::read`, in `utility/services.cpp`, and of
`UNotifier::read`, which it calls: how much each `read` is asked for, and what
is in the buffer when the function returns.
-/

namespace ULib.ServicesRead

open ULib.KeyComparison
open ULib.JsonValue
open ULib.SocketRead (Outcome free adjusted repSpace grown reserve_eq reserve_adjusted
  repSpace_adjusted)

/-! ### UNotifier::read -/

/-- What `waitForRead` says where it is asked, what `read` gives, bytes or an error, and if a
signal is pending then. -/
structure Round where
  ready : Bool
  answer : Option Bytes
  pending : Bool
  deriving DecidableEq, Repr

/-- `U_SINGLE_READ` -/
def uSingleRead : Int := -1

/-- What each `read` is asked for and how many bytes are free then, the bytes received, and the
rounds that are left, if it is not waiting. -/
structure Reading where
  asked : List (Nat × Nat)
  received : Bytes
  rest : Option (List Round)
  deriving DecidableEq, Repr

def Reading.asking (n free : Nat) (r : Reading) : Reading :=
  { r with asked := (n, free) :: r.asked }

section Notifier

variable (count : Int) (room : Nat)

def size (bytesRead : Bytes) : Nat :=
  if count = uSingleRead then uCapacity else (count - bytesRead.length).toNat

/-- The loop of `UNotifier::read`; the flag says that `timeoutMS` is not -1. -/
def notifierLoop : Bool → List Round → Bytes → Reading
  | waits, [], bytesRead =>
      if waits then ⟨[], bytesRead, none⟩
      else ⟨[(size count bytesRead, room - bytesRead.length)], bytesRead, none⟩
  | waits, round :: rounds, bytesRead =>
      if waits = true ∧ round.ready = false then ⟨[], bytesRead, some rounds⟩
      else Reading.asking (size count bytesRead) (room - bytesRead.length) <|
        match round.answer with
        | none =>
            -- `continue` goes on to the condition of the loop
            if round.pending = true ∧ (bytesRead.length : Int) < count then
              notifierLoop false rounds bytesRead
            else ⟨[], bytesRead, some rounds⟩
        | some t =>
            let value := t.take (size count bytesRead)
            if value = [] then ⟨[], bytesRead, some rounds⟩
            else if count = uSingleRead ∨ ¬ ((bytesRead ++ value).length : Int) < count then
              ⟨[], bytesRead ++ value, some rounds⟩
            else notifierLoop false rounds (bytesRead ++ value)

end Notifier

/-- `UNotifier::read` -/
def notifierRead (count : Int) (room : Nat) (waits : Bool) (rounds : List Round) : Reading :=
  notifierLoop count room waits rounds []

/-! ### UServices::read -/

/-- The arguments -/
structure Call where
  count : Int
  isCount : count = uSingleRead ∨ 0 < count
  isInt : count < 2 ^ 31
  waits : Bool

def Outcome.behind (asked : List (Nat × Nat)) (o : Outcome) : Outcome :=
  { o with asked := asked ++ o.asked }

section Loop

variable (call : Call) (single : Bool) (start : Nat)

/-- What is asked of `UNotifier::read`. -/
def wanted (byteRead : Bytes) : Int :=
  if single then uSingleRead else call.count - byteRead.length

/-- From the label `read` on, with the variable `space`; `none` where the count of an `int`
overflows. -/
def readLoop : Nat → List Round → UString → Bytes → Nat → Option Outcome
  | 0, _, _, _, _ => none
  | fuel + 1, rounds, b, byteRead, space =>
      let value :=
        notifierRead (wanted call single byteRead) (free start b byteRead) call.waits rounds
      Option.map (Outcome.behind value.asked) <|
        match value.rest with
        | none => some ⟨[], byteRead ++ value.received, none⟩
        | some rounds =>
            if value.received = [] then some ⟨[], byteRead, some (false, b)⟩
            else
              let byteRead := byteRead ++ value.received
              if 2 ^ 31 ≤ byteRead.length then none
              else if (byteRead.length : Int) < call.count then
                readLoop fuel rounds b byteRead space
              else if single = true ∧ value.received.length = space then
                -- there may be more bytes to read
                let b := adjusted start b byteRead
                let n := (start + byteRead.length + space) % 2 ^ 32
                if b.capacity < n then
                  readLoop fuel rounds (reserve b n) byteRead (repSpace (reserve b n))
                else readLoop fuel rounds b byteRead space
              else some ⟨[], byteRead, some (true, adjusted start b byteRead)⟩

end Loop

/-- `(int)space` -/
def asInt (space : Nat) : Int := if space < 2 ^ 31 then space else space - 2 ^ 32

/-- `start + U_max(count,(int)U_CAPACITY)` -/
def needed (call : Call) (b : UString) : Nat :=
  (b.data.length + (max call.count uCapacity).toNat) % 2 ^ 32

/-- From the label `restart` on: the buffer, and if it is a single read. Where the memory does not
suffice when it was made, it never does. -/
def restart (call : Call) (b : UString) : Option (UString × Bool) :=
  let single := call.count = uSingleRead || call.count < asInt (repSpace b)
  if b.capacity < needed call b then
    let b := reserve b (needed call b)
    if b.capacity < needed call b then none
    else some (b, single || call.count < asInt (repSpace b))
  else some (b, single)

/-- `UServices::read` -/
def read (call : Call) (rounds : List Round) (b : UString) : Option Outcome :=
  (restart call b).bind fun r =>
    readLoop call r.2 b.data.length (rounds.length + 1) rounds r.1 [] (repSpace r.1)

/-! ### The accounts -/

/-- No `read` is asked for more than is free, and a buffer that is returned as read has what was
in it and what was received, and not less than was wanted. -/
def Accounted (call : Call) (before : Bytes) (o : Outcome) : Prop :=
  (∀ a ∈ o.asked, a.1 ≤ a.2) ∧
    ∀ b, o.returned = some (true, b) →
      b.data = before ++ o.received ∧ call.count ≤ o.received.length

/-- There is an outcome, and it is accounted for. -/
def Good (call : Call) (before : Bytes) (o : Option Outcome) : Prop :=
  ∃ o', o = some o' ∧ Accounted call before o'

/-- Whether `read` is called at all. -/
def Asks (waits : Bool) (rounds : List Round) : Prop :=
  waits = true → ∃ round ∈ rounds.head?, round.ready = true

/-- With the bytes received so far, in single reads: there is room for a whole default capacity
wherever `read` is called, and the count of an `int` does not overflow. -/
def Balanced (call : Call) (start : Nat) : List Round → Nat → Nat → Nat → Prop
  | [], capacity, got, _ => Asks call.waits [] → uCapacity ≤ capacity - (start + got)
  | round :: rounds, capacity, got, space =>
      (Asks call.waits (round :: rounds) → uCapacity ≤ capacity - (start + got)) ∧
        (Asks call.waits (round :: rounds) →
          let value := ((round.answer.getD []).take uCapacity).length
          let total := got + value
          value = 0 ∨ total < 2 ^ 31 ∧
            if (total : Int) < call.count then Balanced call start rounds capacity total space
            else
              value = space →
                let n := (start + total + space) % 2 ^ 32
                if capacity < n then
                  Balanced call start rounds (grown capacity n) total
                    ((grown capacity n + 2 ^ 32 - (start + total)) % 2 ^ 32)
                else Balanced call start rounds capacity total space)

/-- The memory suffices in the end; a counted read has room for its count, and single reads are
balanced. -/
def StartsBalanced (call : Call) (rounds : List Round) (b : UString) : Prop :=
  ∃ r, restart call b = some r ∧
    if r.2 then Balanced call b.data.length rounds r.1.capacity 0 (repSpace r.1)
    else Asks call.waits rounds → call.count ≤ r.1.capacity - b.data.length

/-! ### Outcomes -/

section Outcomes

variable {call : Call} {before : Bytes}

theorem not_good_none : ¬ Good call before none := by
  rintro ⟨o, ho, -⟩
  cases ho

theorem good_behind (asked : List (Nat × Nat)) (o : Option Outcome) :
    Good call before (o.map (Outcome.behind asked)) ↔
      (∀ a ∈ asked, a.1 ≤ a.2) ∧ Good call before o := by
  constructor
  · rintro ⟨o', ho, hasked, hreturned⟩
    obtain ⟨o, rfl, rfl⟩ := Option.map_eq_some_iff.mp ho
    obtain ⟨hfirst, hrest⟩ := List.forall_mem_append.mp hasked
    exact ⟨hfirst, o, rfl, hrest, hreturned⟩
  · rintro ⟨hfirst, o', rfl, hrest, hreturned⟩
    exact ⟨_, rfl, List.forall_mem_append.mpr ⟨hfirst, hrest⟩, hreturned⟩

theorem good_waiting (byteRead : Bytes) : Good call before (some ⟨[], byteRead, none⟩) :=
  ⟨_, rfl, nofun, nofun⟩

theorem good_false (byteRead : Bytes) (b : UString) :
    Good call before (some ⟨[], byteRead, some (false, b)⟩) := by
  refine ⟨_, rfl, nofun, ?_⟩
  rintro b' h
  cases h

theorem good_true {b : UString} (hb : b.data.take before.length = before) {byteRead : Bytes}
    (hcount : call.count ≤ byteRead.length) :
    Good call before (some ⟨[], byteRead, some (true, adjusted before.length b byteRead)⟩) := by
  refine ⟨_, rfl, nofun, ?_⟩
  rintro b' h
  obtain ⟨-, rfl⟩ := Prod.mk.inj (Option.some.inj h)
  exact ⟨congrArg (· ++ byteRead) hb, hcount⟩

end Outcomes

/-! ### Single reads -/

theorem asks_or {waits : Bool} {round : Round} (rounds : List Round) :
    Asks waits (round :: rounds) ↔ ¬ (waits = true ∧ round.ready = false) := by
  simp [Asks]

/-- A single read is one round. -/
theorem notifierRead_single (room : Nat) (waits : Bool) (round : Round) (rounds : List Round) :
    notifierRead uSingleRead room waits (round :: rounds) =
      if waits = true ∧ round.ready = false then ⟨[], [], some rounds⟩
      else ⟨[(uCapacity, room)], (round.answer.getD []).take uCapacity, some rounds⟩ := by
  rw [notifierRead, notifierLoop]
  by_cases hwaits : waits = true ∧ round.ready = false
  · rw [if_pos hwaits, if_pos hwaits]
  · rw [if_neg hwaits, if_neg hwaits]
    rcases round with ⟨ready, answer, pending⟩
    cases answer with
    | none =>
        have hstop : ¬ (pending = true ∧ (([] : Bytes).length : Int) < uSingleRead) :=
          fun h => absurd h.2 (by decide)
        dsimp only
        rw [if_neg hstop]
        rfl
    | some t =>
        have hsize : size uSingleRead [] = uCapacity := rfl
        simp only [hsize, List.nil_append, true_or, if_true, Option.getD_some]
        split_ifs with hnil
        · rw [hnil]
          rfl
        · rfl

section Single

variable {call : Call} {before : Bytes} {b : UString} {byteRead : Bytes}

theorem single_iff {rounds : List Round} {fuel space : Nat} (hfuel : rounds.length < fuel)
    (hkept : b.data.take before.length = before) :
    Good call before (readLoop call true before.length fuel rounds b byteRead space) ↔
      Balanced call before.length rounds b.capacity byteRead.length space := by
  induction rounds generalizing fuel b byteRead space with
  | nil =>
      obtain ⟨fuel, rfl⟩ := Nat.exists_eq_succ_of_ne_zero (show fuel ≠ 0 by omega)
      have hwanted : wanted call true byteRead = uSingleRead := rfl
      rw [readLoop, good_behind, hwanted, Balanced, notifierRead, notifierLoop]
      cases hwaits : call.waits with
      | true => exact iff_of_true ⟨nofun, good_waiting _⟩ fun h => absurd (h rfl) (by simp)
      | false =>
          have hasks : Asks false [] := fun h => absurd h Bool.false_ne_true
          rw [forall_prop_of_true hasks]
          exact (and_iff_left (good_waiting _)).trans List.forall_mem_singleton
  | cons round rounds ih =>
      obtain ⟨fuel, rfl⟩ := Nat.exists_eq_succ_of_ne_zero (show fuel ≠ 0 by omega)
      rw [List.length_cons] at hfuel
      have hrest := Nat.lt_of_succ_lt_succ hfuel
      have hwanted : wanted call true byteRead = uSingleRead := rfl
      rw [readLoop, good_behind, hwanted, notifierRead_single, Balanced, asks_or]
      by_cases hwaits : call.waits = true ∧ round.ready = false
      · rw [if_pos hwaits]
        exact iff_of_true ⟨nofun, good_false _ _⟩
          ⟨fun h => absurd hwaits h, fun h => absurd hwaits h⟩
      · rw [if_neg hwaits, forall_prop_of_true hwaits, forall_prop_of_true hwaits]
        refine and_congr List.forall_mem_singleton ?_
        dsimp only
        generalize (round.answer.getD []).take uCapacity = value
        by_cases hnil : value = []
        · rw [if_pos hnil]
          exact iff_of_true (good_false _ _) (.inl (congrArg List.length hnil))
        · have hpos := List.length_pos_of_ne_nil hnil
          rw [if_neg hnil, or_iff_right (Nat.ne_of_gt hpos)]
          generalize htotal : byteRead ++ value = byteRead'
          have hlength : byteRead'.length = byteRead.length + value.length := by
            rw [← htotal, List.length_append]
          rw [← hlength]
          by_cases hint : 2 ^ 31 ≤ byteRead'.length
          · rw [if_pos hint]
            exact iff_of_false not_good_none fun h => Nat.not_lt.mpr hint h.1
          · rw [if_neg hint, and_iff_right (Nat.lt_of_not_le hint)]
            by_cases hshort : (byteRead'.length : Int) < call.count
            · rw [if_pos hshort, if_pos hshort]
              exact ih hrest hkept
            · rw [if_neg hshort, if_neg hshort]
              by_cases hmore : value.length = space
              · have hkept' : (adjusted before.length b byteRead').data.take before.length =
                    before := by
                  rw [adjusted, hkept, List.take_left]
                have hcapacity : (adjusted before.length b byteRead').capacity = b.capacity := rfl
                rw [if_pos ⟨rfl, hmore⟩, forall_prop_of_true hmore, hcapacity]
                split_ifs with hgrows
                · rw [reserve_adjusted, repSpace_adjusted hkept]
                  exact ih hrest hkept'
                · exact ih hrest hkept'
              · rw [if_neg fun h => hmore h.2]
                exact iff_of_true (good_true hkept (Int.not_lt.mp hshort)) fun h => absurd h hmore

end Single

/-! ### Counted reads -/

section Counted

variable {count : Int} {room : Nat}

theorem size_counted (hne : count ≠ uSingleRead) (bytesRead : Bytes) :
    size count bytesRead = (count - bytesRead.length).toNat := if_neg hne

/-- A reading of no more than the count, which takes some of `n` rounds -/
structure Within (count : Int) (n : Nat) (r : Reading) : Prop where
  asked : ∀ a ∈ r.asked, a.1 ≤ a.2
  received : (r.received.length : Int) ≤ count
  rest : ∀ rest, r.rest = some rest → rest.length < n

theorem Within.asking {n k l : Nat} {r : Reading} (h : Within count n r) (hle : k ≤ l) :
    Within count n (r.asking k l) :=
  ⟨List.forall_mem_cons.mpr ⟨hle, h.asked⟩, h.received, h.rest⟩

theorem Within.more {n : Nat} {r : Reading} (h : Within count n r) : Within count (n + 1) r :=
  ⟨h.asked, h.received, fun rest hrest => Nat.lt_succ_of_lt (h.rest rest hrest)⟩

theorem within_stop (rounds : List Round) {bytesRead : Bytes}
    (hle : (bytesRead.length : Int) ≤ count) :
    Within count (rounds.length + 1) ⟨[], bytesRead, some rounds⟩ := by
  refine ⟨nofun, hle, fun rest hrest => ?_⟩
  obtain rfl := Option.some.inj hrest
  exact Nat.lt_succ_self _

/-- With room for the count, no `read` is asked for too much, and no more is received. -/
theorem notifierLoop_within (hne : count ≠ uSingleRead) (hroom : count ≤ room) (waits : Bool)
    (rounds : List Round) {bytesRead : Bytes} (hlt : (bytesRead.length : Int) < count) :
    Within count rounds.length (notifierLoop count room waits rounds bytesRead) := by
  induction rounds generalizing waits bytesRead with
  | nil =>
      have hasked : size count bytesRead ≤ room - bytesRead.length := by
        rw [size_counted hne]
        omega
      rw [notifierLoop]
      split_ifs
      · exact ⟨nofun, Int.le_of_lt hlt, nofun⟩
      · exact ⟨List.forall_mem_singleton.mpr hasked, Int.le_of_lt hlt, nofun⟩
  | cons round rounds ih =>
      have hasked : size count bytesRead ≤ room - bytesRead.length := by
        rw [size_counted hne]
        omega
      rw [notifierLoop]
      by_cases hwaits : waits = true ∧ round.ready = false
      · rw [if_pos hwaits]
        exact within_stop rounds (Int.le_of_lt hlt)
      · rw [if_neg hwaits]
        refine Within.asking ?_ hasked
        rcases round with ⟨ready, answer, pending⟩
        cases answer with
        | none =>
            dsimp only
            by_cases hgoes : pending = true ∧ (bytesRead.length : Int) < count
            · rw [if_pos hgoes]
              exact (ih false hlt).more
            · rw [if_neg hgoes]
              exact within_stop rounds (Int.le_of_lt hlt)
        | some t =>
            dsimp only
            by_cases hnil : t.take (size count bytesRead) = []
            · rw [if_pos hnil]
              exact within_stop rounds (Int.le_of_lt hlt)
            · have hvalue : (t.take (size count bytesRead)).length ≤ size count bytesRead :=
                List.length_take_le _ _
              rw [if_neg hnil]
              generalize t.take (size count bytesRead) = value at hvalue
              have hle : ((bytesRead ++ value).length : Int) ≤ count := by
                rw [size_counted hne] at hvalue
                rw [List.length_append]
                omega
              by_cases hlast : ((bytesRead ++ value).length : Int) < count
              · rw [if_neg (not_or.mpr ⟨hne, not_not.mpr hlast⟩)]
                exact (ih false hlast).more
              · rw [if_pos (.inr hlast)]
                exact within_stop rounds hle

/-- The first `read`, if there is one -/
theorem head_asked (waits : Bool) (rounds : List Round) (bytesRead : Bytes)
    (hasks : Asks waits rounds) :
    (size count bytesRead, room - bytesRead.length) ∈
      (notifierLoop count room waits rounds bytesRead).asked := by
  cases rounds with
  | nil =>
      have hwaits : ¬ waits = true := fun h => absurd (hasks h) (by simp)
      rw [notifierLoop, if_neg hwaits]
      exact List.mem_cons_self
  | cons round rounds =>
      rw [notifierLoop, if_neg ((asks_or rounds).mp hasks)]
      exact List.mem_cons_self

/-- Without one, nothing is received. -/
theorem notifierLoop_silent (waits : Bool) (rounds : List Round) (hasks : ¬ Asks waits rounds) :
    (notifierLoop count room waits rounds []).asked = [] ∧
      (notifierLoop count room waits rounds []).received = [] := by
  cases rounds with
  | nil =>
      have hwaits : waits = true := by
        by_contra h
        exact hasks fun h' => absurd h' h
      rw [notifierLoop, if_pos hwaits]
      exact ⟨rfl, rfl⟩
  | cons round rounds =>
      rw [notifierLoop, if_pos (not_not.mp fun h => hasks ((asks_or rounds).mpr h))]
      exact ⟨rfl, rfl⟩

end Counted

section CountedRuns

variable {call : Call} {before : Bytes} {b : UString} {byteRead : Bytes}

/-- With room for the count, a counted read is accounted for. -/
theorem good_counted (hroom : call.count ≤ b.capacity - before.length)
    (hkept : b.data.take before.length = before) {rounds : List Round} {fuel space : Nat}
    (hfuel : rounds.length < fuel) (hshort : (byteRead.length : Int) < call.count) :
    Good call before (readLoop call false before.length fuel rounds b byteRead space) := by
  induction fuel generalizing rounds byteRead with
  | zero => exact absurd hfuel (Nat.not_lt_zero _)
  | succ fuel ih =>
      have hwanted : wanted call false byteRead = call.count - byteRead.length := rfl
      have hfree : call.count - byteRead.length ≤ free before.length b byteRead := by
        rw [free]
        omega
      have hne : call.count - byteRead.length ≠ uSingleRead := by
        rw [uSingleRead]
        omega
      have hwithin := @notifierLoop_within _ _ hne hfree call.waits rounds [] (by
        rw [List.length_nil]
        omega)
      rw [readLoop, good_behind, hwanted, notifierRead]
      refine ⟨hwithin.asked, ?_⟩
      generalize notifierLoop (call.count - byteRead.length) (free before.length b byteRead)
        call.waits rounds [] = r at hwithin
      rcases r with ⟨asked, received, rest⟩
      cases rest with
      | none => exact good_waiting _
      | some rounds' =>
          have hrounds := hwithin.rest rounds' rfl
          have hreceived := hwithin.received
          dsimp only at hreceived ⊢
          by_cases hnil : received = []
          · rw [if_pos hnil]
            exact good_false _ _
          · have hlength : (byteRead ++ received).length = byteRead.length + received.length :=
              List.length_append
            have hint := call.isInt
            have hcount : call.count ≤ call.count := Int.le_refl _
            rw [if_neg hnil, if_neg (by omega)]
            by_cases hmore : ((byteRead ++ received).length : Int) < call.count
            · rw [if_pos hmore]
              exact ih (by omega) hmore
            · rw [if_neg hmore, if_neg fun h => Bool.false_ne_true h.1]
              exact good_true hkept (Int.not_lt.mp hmore)

theorem counted_iff (hcount : 0 < call.count) (hkept : b.data.take before.length = before)
    {rounds : List Round} {fuel space : Nat} (hfuel : rounds.length < fuel) :
    Good call before (readLoop call false before.length fuel rounds b [] space) ↔
      (Asks call.waits rounds → call.count ≤ b.capacity - before.length) := by
  by_cases hroom : call.count ≤ b.capacity - before.length
  · exact iff_of_true (good_counted hroom hkept hfuel hcount) fun _ => hroom
  · obtain ⟨fuel, rfl⟩ := Nat.exists_eq_succ_of_ne_zero (show fuel ≠ 0 by omega)
    have hwanted : wanted call false [] = call.count := Int.sub_zero _
    rw [readLoop, good_behind, hwanted, notifierRead]
    constructor
    · rintro ⟨hasked, -⟩ hasks
      have hfirst := hasked _ (head_asked call.waits rounds [] hasks)
      rw [size_counted (show call.count ≠ uSingleRead by rw [uSingleRead]; omega), free] at hfirst
      rw [List.length_nil] at hfirst
      omega
    · intro hasks
      have hnone : ¬ Asks call.waits rounds := fun h => hroom (hasks h)
      obtain ⟨hasked, hreceived⟩ := @notifierLoop_silent call.count (free before.length b [])
        call.waits rounds hnone
      rw [hasked]
      refine ⟨fun p hp => absurd hp List.not_mem_nil, ?_⟩
      generalize notifierLoop call.count (free before.length b []) call.waits rounds [] = r
        at hreceived
      rcases r with ⟨asked, received, rest⟩
      cases rest with
      | none => exact good_waiting _
      | some rounds' =>
          obtain rfl := hreceived
          exact good_false _ _

end CountedRuns

theorem restart_spec {b : UString} {call : Call} {r : UString × Bool}
    (hr : restart call b = some r) :
    r.1.data = b.data ∧ (call.count = uSingleRead → r.2 = true) := by
  unfold restart at hr
  dsimp only at hr
  split_ifs at hr
  · obtain rfl := Option.some.inj hr
    refine ⟨?_, fun hcount => ?_⟩
    · dsimp only
      rw [reserve_eq]
    · dsimp only
      rw [decide_eq_true hcount, Bool.true_or, Bool.true_or]
  · obtain rfl := Option.some.inj hr
    refine ⟨rfl, fun hcount => ?_⟩
    dsimp only
    rw [decide_eq_true hcount, Bool.true_or]

/-- Every `read` is asked for no more than is free, and a buffer that is returned as read has what
was received, if and only if the memory suffices and single reads are balanced. -/
theorem servicesRead_iff (call : Call) (rounds : List Round) (b : UString) :
    Good call b.data (read call rounds b) ↔ StartsBalanced call rounds b := by
  rw [read, StartsBalanced]
  cases hr : restart call b with
  | none =>
      refine iff_of_false not_good_none ?_
      rintro ⟨r, hnone, -⟩
      cases hnone
  | some r =>
      obtain ⟨hdata, hsingle⟩ := restart_spec hr
      have htake : r.1.data.take b.data.length = b.data := by
        rw [hdata, List.take_length]
      have hloop : Good call b.data (readLoop call r.2 b.data.length (rounds.length + 1) rounds r.1
            [] (repSpace r.1)) ↔
          if r.2 then Balanced call b.data.length rounds r.1.capacity 0 (repSpace r.1)
          else Asks call.waits rounds → call.count ≤ r.1.capacity - b.data.length := by
        cases hmode : r.2 with
        | true => exact single_iff (Nat.lt_succ_self _) htake
        | false =>
            have hcount : 0 < call.count := call.isCount.resolve_left fun h => by
              rw [hsingle h] at hmode
              cases hmode
            rw [if_neg Bool.false_ne_true]
            exact counted_iff hcount htake (Nat.lt_succ_self _)
      rw [Option.bind_some, hloop]
      constructor
      · exact fun h => ⟨r, rfl, h⟩
      · rintro ⟨r', heq, h⟩
        obtain rfl := Option.some.inj heq
        exact h

/-- Five bytes wanted -/
def five : Call := ⟨5, by decide, by decide, false⟩

/-- When one of five bytes has come into an empty buffer of the usual capacity, the next `read` is
asked for one more than is free. -/
theorem not_servicesRead : ¬ Good five [] (read five [⟨true, some [1], false⟩] ⟨[], 4071⟩) := by
  rintro ⟨o, ho, hasked, -⟩
  have hlist : (read five [⟨true, some [1], false⟩] ⟨[], 4071⟩).map Outcome.asked =
      some [(4071, 4071), (4071, 4070)] := by decide +kernel
  rw [ho] at hlist
  rw [Option.map_some, Option.some.injEq] at hlist
  rw [hlist] at hasked
  exact absurd (hasked (4071, 4070) (by simp)) (by decide)

end ULib.ServicesRead
