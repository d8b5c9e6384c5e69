import ULib.JsonValue

/-!
The accounts of `USocketExt::read`, in `utility/socket_ext.cpp`: how much each
`recv` is asked for, and what is in the buffer when it returns. The bytes lie
behind the contents of the buffer until its size is adjusted.
-/

namespace ULib.SocketRead

open ULib.KeyComparison
open ULib.JsonValue

/-! ### USocketExt::read -/

/-- What a `recv` gives: bytes, no more than it was asked for and none at the end of the stream,
or an error. -/
inductive Answer
  | bytes (t : Bytes)
  | timeout
  | broken
  deriving DecidableEq, Repr

/-- A `recv`, with what `checkTime` and `USSLSocket::pending` say behind it. -/
structure Round where
  answer : Answer
  inTime : Bool
  pending : Nat
  deriving DecidableEq, Repr

/-- The arguments, and the kind of the socket. -/
structure Call where
  count : Int
  isInt : count < 2 ^ 31
  limited : Bool
  ssl : Bool

/-- What each `recv` is asked for and how many bytes are free then, the bytes received, and what is
returned, if it is not waiting. -/
structure Outcome where
  asked : List (Nat × Nat)
  received : Bytes
  returned : Option (Bool × UString)

def Outcome.asking (n free : Nat) (o : Outcome) : Outcome :=
  { o with asked := (n, free) :: o.asked }

/-- `UStringRep::space` -/
def repSpace (b : UString) : Nat := (b.capacity + 2 ^ 32 - b.data.length) % 2 ^ 32

section Loop

variable (call : Call) (start : Nat)

def free (b : UString) (byteRead : Bytes) : Nat := b.capacity - (start + byteRead.length)

/-- `size_adjust_force(start + byte_read)` -/
def adjusted (b : UString) (byteRead : Bytes) : UString :=
  { b with data := b.data.take start ++ byteRead }

def done (result : Bool) (b : UString) (byteRead : Bytes) : Option Outcome :=
  some ⟨[], byteRead, some (result, adjusted start b byteRead)⟩

/-- There is no memory for the bytes, or the count of an `int` overflows. -/
def Overflows (b : UString) (byteRead got : Bytes) : Prop :=
  b.capacity < start + byteRead.length + got.length ∨ 2 ^ 31 ≤ byteRead.length + got.length

instance (b : UString) (byteRead got : Bytes) : Decidable (Overflows start b byteRead got) :=
  inferInstanceAs (Decidable (_ ∨ _))

/-- The `recv` for what an SSL socket has pending; its result is added unseen, -1 too. -/
def readPending (rounds : List Round) (b : UString) (byteRead : Bytes) (available : Nat) :
    Option Outcome :=
  Option.map (Outcome.asking available (free start b byteRead)) <|
    match rounds with
    | [] => some ⟨[], byteRead, none⟩
    | round :: _ =>
        match round.answer with
        | .bytes t =>
            let got := t.take available
            if Overflows start b byteRead got then none
            else done start true b (byteRead ++ got)
        | .timeout | .broken =>
            some ⟨[], byteRead, some (true, adjusted start b byteRead.dropLast)⟩

/-- From the label `read` on. -/
def readLoop : List Round → UString → Bytes → Nat → Option Outcome
  | [], b, byteRead, ncount => some ⟨[(ncount, free start b byteRead)], byteRead, none⟩
  | round :: rounds, b, byteRead, ncount =>
      Option.map (Outcome.asking ncount (free start b byteRead)) <|
        match round.answer with
        | .timeout =>
            if byteRead ≠ [] then some ⟨[], byteRead, some (true, b)⟩ else done start false b byteRead
        | .broken => done start false b byteRead
        | .bytes t =>
            let got := t.take ncount
            if got = [] then done start false b byteRead
            else if Overflows start b byteRead got then none
            else
              let byteRead := byteRead ++ got
              if (byteRead.length : Int) < call.count then
                if call.limited ∧ ¬ round.inTime then done start false b byteRead
                else readLoop rounds b byteRead ((ncount + 2 ^ 32 - byteRead.length) % 2 ^ 32)
              else if got.length = ncount then
                -- there may be more bytes to read
                let b := reserve (adjusted start b byteRead)
                  ((start + byteRead.length + ncount) % 2 ^ 32)
                if call.ssl ∧ round.pending ≠ 0 then readPending start rounds b byteRead round.pending
                else readLoop rounds b byteRead (repSpace b)
              else done start true b byteRead

end Loop

/-- `chunk` -/
def chunkSize (call : Call) : Nat := (max call.count uCapacity).toNat

def read (call : Call) (rounds : List Round) (b : UString) : Option Outcome :=
  if space b < chunkSize call ∧ b.capacity < chunkSize call then
    let b := reserve b (chunkSize call)
    readLoop call b.data.length rounds b [] (repSpace b)
  else readLoop call b.data.length rounds b [] (space b)

/-! ### The accounts -/

/-- No `recv` is asked for more than is free, and in the end the buffer has what was in it and what
was received. -/
def Accounted (before : Bytes) (o : Outcome) : Prop :=
  (∀ a ∈ o.asked, a.1 ≤ a.2) ∧
    ∀ result b, o.returned = some (result, b) → b.data = before ++ o.received

/-- There is an outcome, and it is accounted for. -/
def Good (before : Bytes) (o : Option Outcome) : Prop := ∃ o', o = some o' ∧ Accounted before o'

/-- As `UStringRep::invariant` has it; constant strings have no capacity. -/
structure Buffer extends UString where
  inside : capacity = 0 ∨ data.length ≤ capacity
  capacity_lt : capacity < 2 ^ 32
  length_lt : data.length < 2 ^ 32

/-- The capacity behind `reserve`. -/
def grown (capacity n : Nat) : Nat :=
  if n ≤ capacity then capacity else created (howMuchPreallocate n)

/-- What is pending fits into the room, and can be received. -/
def PendingFits (rounds : List Round) (room got available : Nat) : Prop :=
  available ≤ room ∧
    match rounds with
    | [] => True
    | round :: _ =>
        match round.answer with
        | .bytes t => got + (t.take available).length < 2 ^ 31
        | .timeout | .broken => False

/-- With the bytes received so far and those that the next `recv` is asked for: what was received
is never more than is left to ask for while a read stays short, no such read is followed by a
timeout, the counts are those of an `int`, and the memory behind a full read has what was read,
and what is pending. -/
def Balanced (call : Call) (start : Nat) : List Round → Nat → Nat → Nat → Prop
  | [], _, _, _ => True
  | round :: rounds, capacity, got, ncount =>
      match round.answer with
      | .timeout => got = 0 ∨ call.count ≤ got
      | .broken => True
      | .bytes t =>
          let value := (t.take ncount).length
          let total := got + value
          value = 0 ∨ total < 2 ^ 31 ∧
            if (total : Int) < call.count then
              call.limited ∧ ¬ round.inTime ∨
                total ≤ ncount ∧ Balanced call start rounds capacity total (ncount - total)
            else
              value = ncount →
                let capacity := grown capacity ((start + total + ncount) % 2 ^ 32)
                start + total ≤ capacity ∧
                  if call.ssl ∧ round.pending ≠ 0 then
                    PendingFits rounds (capacity - (start + total)) total round.pending
                  else Balanced call start rounds capacity total (capacity - (start + total))

/-- The same from the start, where the contents may be those of a constant string. -/
def StartsBalanced (call : Call) (rounds : List Round) (b : UString) : Prop :=
  if space b < chunkSize call ∧ b.capacity < chunkSize call then
    let capacity := grown b.capacity (chunkSize call)
    b.data.length ≤ capacity ∧
      Balanced call b.data.length rounds capacity 0 (capacity - b.data.length)
  else Balanced call b.data.length rounds b.capacity 0 (space b)

/-! ### Outcomes -/

section Outcomes

variable {before : Bytes}

theorem not_good_none : ¬ Good before none := by
  rintro ⟨o, ho, -⟩
  cases ho

theorem good_asking (n free : Nat) (o : Option Outcome) :
    Good before (o.map (Outcome.asking n free)) ↔ n ≤ free ∧ Good before o := by
  constructor
  · rintro ⟨o', ho, hasked, hreturned⟩
    obtain ⟨o, rfl, rfl⟩ := Option.map_eq_some_iff.mp ho
    obtain ⟨hle, hasked⟩ := List.forall_mem_cons.mp hasked
    exact ⟨hle, o, rfl, hasked, hreturned⟩
  · rintro ⟨hle, o', rfl, hasked, hreturned⟩
    exact ⟨_, rfl, List.forall_mem_cons.mpr ⟨hle, hasked⟩, hreturned⟩

theorem good_returned {byteRead : Bytes} {result : Bool} {b : UString} :
    Good before (some ⟨[], byteRead, some (result, b)⟩) ↔ b.data = before ++ byteRead := by
  constructor
  · rintro ⟨o, ho, -, hreturned⟩
    obtain rfl := Option.some.inj ho
    exact hreturned result b rfl
  · intro hdata
    refine ⟨_, rfl, nofun, ?_⟩
    rintro result' b' h
    obtain ⟨-, rfl⟩ := Prod.mk.inj (Option.some.inj h)
    exact hdata

theorem good_waiting (byteRead : Bytes) : Good before (some ⟨[], byteRead, none⟩) :=
  ⟨_, rfl, nofun, nofun⟩

/-- The bytes in front of those that are read stay. -/
theorem good_done {b : UString} (hb : b.data.take before.length = before) (result : Bool)
    (byteRead : Bytes) : Good before (done before.length result b byteRead) :=
  good_returned.mpr (congrArg (· ++ byteRead) hb)

theorem le_free_of_good {call : Call} {start : Nat} {rounds : List Round} {b : UString}
    {byteRead : Bytes} {ncount : Nat} (h : Good before (readLoop call start rounds b byteRead ncount)) :
    ncount ≤ free start b byteRead := by
  cases rounds with
  | nil =>
      obtain ⟨o, ho, hasked, -⟩ := h
      obtain rfl := Option.some.inj ho
      exact hasked _ List.mem_cons_self
  | cons round rounds =>
      rw [readLoop] at h
      exact ((good_asking _ _ _).mp h).1

end Outcomes

/-! ### The loop -/

theorem grown_lt {capacity n : Nat} (h : capacity < 2 ^ 32) : grown capacity n < 2 ^ 32 := by
  unfold grown created uCapacity
  split_ifs <;> omega

theorem reserve_eq (b : UString) (n : Nat) :
    reserve b n = { b with capacity := grown b.capacity n } := by
  unfold reserve grown
  split_ifs <;> rfl

theorem reserve_adjusted (start : Nat) (b : UString) (byteRead : Bytes) (n : Nat) :
    reserve (adjusted start b byteRead) n =
      { adjusted start b byteRead with capacity := grown b.capacity n } :=
  reserve_eq _ n

/-- Between the calls of `recv`: there is memory for what is asked for, and the size of the buffer
was adjusted if the last read was not short. -/
structure Stands (call : Call) (before : Bytes) (b : UString) (byteRead : Bytes) (ncount : Nat) :
    Prop where
  kept : b.data.take before.length = before
  room : before.length + byteRead.length + ncount ≤ b.capacity
  capacity_lt : b.capacity < 2 ^ 32
  short : (byteRead.length : Int) < call.count → b.data = before
  full : call.count ≤ byteRead.length → b.data = before ++ byteRead

section Loop

variable {call : Call} {before : Bytes} {b : UString} {byteRead : Bytes}

theorem le_free_of_good_pending {start : Nat} {rounds : List Round} {available : Nat}
    (h : Good before (readPending start rounds b byteRead available)) :
    available ≤ free start b byteRead := by
  unfold readPending at h
  exact ((good_asking _ _ _).mp h).1

theorem readPending_iff (hkept : b.data.take before.length = before)
    (hroom : before.length + byteRead.length ≤ b.capacity) (hne : byteRead ≠ [])
    (rounds : List Round) (available : Nat) :
    Good before (readPending before.length rounds b byteRead available) ↔
      PendingFits rounds (b.capacity - (before.length + byteRead.length)) byteRead.length
        available := by
  unfold readPending PendingFits
  rw [good_asking, free]
  refine and_congr_right fun hle => ?_
  cases rounds with
  | nil => exact iff_of_true (good_waiting byteRead) trivial
  | cons round rounds =>
      -- the error is taken for the count, and a byte is lost
      have hlost : ¬ Good before
          (some ⟨[], byteRead, some (true, adjusted before.length b byteRead.dropLast)⟩) := by
        rw [good_returned, adjusted, hkept, List.append_cancel_left_eq]
        intro h
        have hlength := congrArg List.length h
        rw [List.length_dropLast] at hlength
        have hpos := List.length_pos_of_ne_nil hne
        omega
      rcases round with ⟨answer, inTime, pending⟩
      cases answer with
      | bytes t =>
          dsimp only
          have htake : (t.take available).length ≤ available := List.length_take_le _ _
          by_cases hover : Overflows before.length b byteRead (t.take available)
          · rw [if_pos hover]
            refine iff_of_false not_good_none ?_
            rcases hover with hover | hover <;> omega
          · rw [if_neg hover]
            exact iff_of_true (good_done hkept true _) (Nat.lt_of_not_le fun h => hover (.inr h))
      | timeout => exact iff_of_false hlost id
      | broken => exact iff_of_false hlost id

/-- What a counter is when it does not go below zero, and when it does. -/
theorem sub_wrapped {n k : Nat} (hn : n < 2 ^ 32) (hk : k < 2 ^ 32) :
    (n + 2 ^ 32 - k) % 2 ^ 32 = if k ≤ n then n - k else n + 2 ^ 32 - k := by
  split_ifs <;> omega

theorem Stands.asked {ncount : Nat} (h : Stands call before b byteRead ncount) :
    ncount ≤ free before.length b byteRead :=
  Nat.le_sub_of_add_le' h.room

/-- A full read leaves the size adjusted and asks for what is free behind it, if the memory has
grown as it should. -/
theorem stands_grown (hkept : b.data.take before.length = before)
    (hfull : call.count ≤ byteRead.length) {capacity : Nat} (hcapacity : capacity < 2 ^ 32)
    (hroom : before.length + byteRead.length ≤ capacity) :
    Stands call before { adjusted before.length b byteRead with capacity := capacity } byteRead
      (capacity - (before.length + byteRead.length)) where
  kept := by
    rw [adjusted, hkept, List.take_left]
  room := Nat.le_of_eq (Nat.add_sub_cancel' hroom)
  capacity_lt := hcapacity
  short hshort := absurd hfull (Int.not_le.mpr hshort)
  full _ := congrArg (· ++ byteRead) hkept

theorem repSpace_adjusted (hkept : b.data.take before.length = before) (capacity : Nat) :
    repSpace { adjusted before.length b byteRead with capacity := capacity } =
      (capacity + 2 ^ 32 - (before.length + byteRead.length)) % 2 ^ 32 := by
  rw [repSpace, adjusted, hkept, List.length_append]

theorem readLoop_iff {rounds : List Round} {ncount : Nat}
    (h : Stands call before b byteRead ncount) :
    Good before (readLoop call before.length rounds b byteRead ncount) ↔
      Balanced call before.length rounds b.capacity byteRead.length ncount := by
  induction rounds generalizing b byteRead ncount with
  | nil =>
      refine iff_of_true ⟨_, rfl, ?_, nofun⟩ trivial
      exact List.forall_mem_singleton.mpr h.asked
  | cons round rounds ih =>
      have hroom := h.room
      have hcapacity := h.capacity_lt
      rw [readLoop, good_asking, and_iff_right h.asked, Balanced]
      rcases round with ⟨answer, inTime, pending⟩
      cases answer with
      | broken => exact iff_of_true (good_done h.kept false byteRead) trivial
      | timeout =>
          dsimp only
          by_cases hnil : byteRead = []
          · subst hnil
            exact iff_of_true (good_done h.kept false []) (.inl rfl)
          · rw [if_pos hnil, good_returned]
            have hpos := List.length_pos_of_ne_nil hnil
            rcases Int.lt_or_le byteRead.length call.count with hshort | hfull
            · rw [h.short hshort]
              refine iff_of_false (fun heq => hnil (List.self_eq_append_right.mp heq)) ?_
              omega
            · exact iff_of_true (h.full hfull) (.inr hfull)
      | bytes t =>
          dsimp only
          generalize hgot : t.take ncount = got
          have hle : got.length ≤ ncount := hgot ▸ List.length_take_le _ _
          by_cases hnil : got = []
          · rw [if_pos hnil]
            exact iff_of_true (good_done h.kept false byteRead) (.inl (congrArg List.length hnil))
          · have hpos := List.length_pos_of_ne_nil hnil
            rw [if_neg hnil, or_iff_right (Nat.ne_of_gt hpos)]
            generalize htotal : byteRead ++ got = byteRead'
            have hlength : byteRead'.length = byteRead.length + got.length := by
              rw [← htotal, List.length_append]
            rw [← hlength]
            have hover : Overflows before.length b byteRead got ↔ ¬ byteRead'.length < 2 ^ 31 := by
              rw [Overflows]
              omega
            by_cases hint : byteRead'.length < 2 ^ 31
            · rw [if_neg (not_not.mpr hint ∘ hover.mp), and_iff_right hint]
              rcases Int.lt_or_le byteRead'.length call.count with hshort | hfull
              · rw [if_pos hshort, if_pos hshort]
                by_cases hlate : call.limited ∧ ¬ inTime
                · rw [if_pos hlate]
                  exact iff_of_true (good_done h.kept false byteRead') (.inl hlate)
                · rw [if_neg hlate, or_iff_right hlate, sub_wrapped (by omega) (by omega)]
                  split_ifs with hless
                  · rw [and_iff_right hless]
                    refine ih ⟨h.kept, ?_, hcapacity, fun _ => h.short ?_, fun hfull => ?_⟩
                    · omega
                    · omega
                    · omega
                  · refine iff_of_false (fun hgood => ?_) fun hless' => hless hless'.1
                    have hasked := le_free_of_good hgood
                    rw [free] at hasked
                    omega
              · rw [if_neg (Int.not_lt.mpr hfull), if_neg (Int.not_lt.mpr hfull)]
                by_cases hmore : got.length = ncount
                · rw [if_pos hmore, forall_prop_of_true hmore, reserve_adjusted]
                  have hgrown : grown b.capacity
                      ((before.length + byteRead'.length + ncount) % 2 ^ 32) < 2 ^ 32 :=
                    grown_lt hcapacity
                  generalize grown b.capacity
                    ((before.length + byteRead'.length + ncount) % 2 ^ 32) =
                    capacity at hgrown
                  rcases Nat.lt_or_ge capacity (before.length + byteRead'.length) with hfew | hroom'
                  · have hfree : free before.length
                        { adjusted before.length b byteRead' with capacity := capacity } byteRead' =
                          0 :=
                      Nat.sub_eq_zero_of_le (Nat.le_of_lt hfew)
                    refine iff_of_false (fun hgood => ?_) fun h => Nat.not_le.mpr hfew h.1
                    split_ifs at hgood with hpending
                    · have hasked := le_free_of_good_pending hgood
                      rw [hfree] at hasked
                      exact hpending.2 (Nat.le_zero.mp hasked)
                    · have hasked := le_free_of_good hgood
                      rw [hfree, repSpace_adjusted h.kept, sub_wrapped hgrown (by omega),
                        if_neg (Nat.not_le.mpr hfew)] at hasked
                      omega
                  · rw [and_iff_right hroom']
                    split_ifs with hpending
                    · refine readPending_iff ?_ hroom' ?_ rounds pending
                      · rw [adjusted, h.kept, List.take_left]
                      · exact List.ne_nil_of_length_pos (by omega)
                    · rw [repSpace_adjusted h.kept, sub_wrapped hgrown (by omega), if_pos hroom']
                      exact ih (stands_grown h.kept hfull hgrown hroom')
                · rw [if_neg hmore]
                  exact iff_of_true (good_done h.kept true byteRead') fun h => absurd h hmore
            · rw [if_pos (hover.mpr hint)]
              exact iff_of_false not_good_none fun h => hint h.1

end Loop

theorem uCapacity_le_chunkSize (call : Call) : uCapacity ≤ chunkSize call := by
  rw [chunkSize]
  omega

theorem space_le (b : Buffer) (h : b.capacity ≠ 0) :
    b.data.length + space b.toUString ≤ b.capacity := by
  have hinside := b.inside.resolve_left h
  rw [space]
  split_ifs <;> omega

/-- Every `recv` is asked for no more than is free, and the buffer has in the end what was received,
if and only if the counts are balanced. -/
theorem read_iff (call : Call) (rounds : List Round) (b : Buffer) :
    Good b.data (read call rounds b.toUString) ↔ StartsBalanced call rounds b.toUString := by
  have hchunk := uCapacity_le_chunkSize call
  have hstart : ∀ (capacity ncount : Nat), capacity < 2 ^ 32 → b.data.length + ncount ≤ capacity →
      (Good b.data (readLoop call b.data.length rounds { b.toUString with capacity := capacity } []
        ncount) ↔ Balanced call b.data.length rounds capacity 0 ncount) := by
    intro capacity ncount hcapacity hroom
    refine readLoop_iff ⟨List.take_length, hroom, hcapacity, fun _ => rfl, fun _ => ?_⟩
    exact (List.append_nil _).symm
  rw [read, StartsBalanced]
  split_ifs with hsmall
  · dsimp only
    rw [reserve_eq]
    have hgrown := @grown_lt b.capacity (chunkSize call) b.capacity_lt
    generalize grown b.capacity (chunkSize call) = capacity at hgrown
    have hspace : repSpace { b.toUString with capacity := capacity } =
        (capacity + 2 ^ 32 - b.data.length) % 2 ^ 32 := rfl
    rw [hspace, sub_wrapped hgrown b.length_lt]
    split_ifs with hinside
    · rw [and_iff_right hinside]
      exact hstart _ _ hgrown (Nat.le_of_eq (Nat.add_sub_cancel' hinside))
    · refine iff_of_false (fun hgood => ?_) fun h => hinside h.1
      have hasked := le_free_of_good hgood
      have hfree : free b.data.length { b.toUString with capacity := capacity } [] = 0 :=
        Nat.sub_eq_zero_of_le (Nat.le_of_lt (Nat.not_le.mp hinside))
      rw [hfree] at hasked
      have hlt := b.length_lt
      omega
  · refine hstart b.capacity _ b.capacity_lt (space_le b fun hzero => hsmall ?_)
    rw [space, if_neg (by omega), hzero]
    have hpos : 0 < uCapacity := by decide
    omega

/-- Three bytes wanted, and an empty buffer with the usual capacity -/
def three : Call := ⟨3, by decide, false, false⟩

def emptyBuffer : Buffer := ⟨⟨[], 4071⟩, by decide, by decide, by decide⟩

theorem startsBalanced_empty (call : Call) (hcount : call.count ≤ 4071) (rounds : List Round) :
    StartsBalanced call rounds emptyBuffer.toUString ↔ Balanced call 0 rounds 4071 0 4071 := by
  have hchunk : chunkSize call = 4071 := by
    rw [chunkSize, uCapacity]
    omega
  rw [StartsBalanced, hchunk, if_neg (by decide)]
  rfl

theorem read_three : Good [] (read three [⟨.bytes [1], true, 0⟩, ⟨.bytes [2, 3], true, 0⟩]
    emptyBuffer.toUString) := by
  refine (read_iff three _ emptyBuffer).mpr ((startsBalanced_empty three (by decide) _).mpr ?_)
  simp [Balanced, three]

/-- A timeout behind a short read leaves the size of the buffer as it was; and the third of three
reads, the first two of 1500 bytes, is asked for more than 4 GB. -/
theorem not_read : ¬ Good [] (read three [⟨.bytes [1], true, 0⟩, ⟨.timeout, true, 0⟩]
      emptyBuffer.toUString) ∧
    ¬ Good [] (read ⟨4000, by decide, false, false⟩ [⟨.bytes (List.replicate 1500 0), true, 0⟩,
      ⟨.bytes (List.replicate 1500 0), true, 0⟩] emptyBuffer.toUString) := by
  constructor
  · refine fun h => ?_
    have hbalanced := (startsBalanced_empty three (by decide) _).mp
      ((read_iff three _ emptyBuffer).mp h)
    simp [Balanced, three] at hbalanced
  · have hlength : (List.replicate 1500 (0 : UInt8)).length = 1500 := List.length_replicate
    generalize List.replicate 1500 (0 : UInt8) = t at hlength
    refine fun h => ?_
    have hbalanced := (startsBalanced_empty ⟨4000, by decide, false, false⟩ (by decide) _).mp
      ((read_iff _ _ emptyBuffer).mp h)
    simp [Balanced, hlength] at hbalanced

end ULib.SocketRead
