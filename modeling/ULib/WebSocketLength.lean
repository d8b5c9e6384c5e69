import Mathlib.Data.List.Induction
import ULib.WebSocketDelivery

/-!
The length of a frame, as `handleDataFraming` reads it of the header in any pieces: what it goes
on with, and which frames it refuses.
-/

namespace ULib.WebSocketLength

open ULib.KeyComparison
open ULib.WebSocket
open ULib.WebSocket.UWebSocket
open ULib.WebSocketDelivery

/-- How many bytes of the length stand behind its first. -/
def extensionLength (head : UInt8) : Nat :=
  if head.toNat % 128 = 126 then 2 else if head.toNat % 128 = 127 then 8 else 0

/-- The bytes of the length of a frame: the client masks, and the length of a control frame is
short. -/
structure LengthBytes (opcode : Nat) where
  head : UInt8
  ext : Bytes
  masked : head.toNat / 128 % 2 = 1
  short : 8 ≤ opcode → extensionLength head = 0
  ext_length : ext.length = extensionLength head

/-- A number, most significant byte first. -/
def bigEndian (e : Bytes) : Nat := e.foldl (fun n c => n * 256 + c.toNat) 0

def LengthBytes.declared {opcode : Nat} (h : LengthBytes opcode) : Nat :=
  if h.ext = [] then h.head.toNat % 128 else bigEndian h.ext

/-- The length is still being read. -/
def InLength (s : UWebSocket) : Prop :=
  s.call.framing_state = .payloadLength ∨ s.call.framing_state = .payloadLengthExt

/-- The steps of which none ends the reading of the length. -/
def Stays : UWebSocket → List Action → UWebSocket → Prop
  | s, [], s' => s = s'
  | s, i :: is, s' => ∃ s₁, s.step i = some (.quiet, s₁) ∧ InLength s₁ ∧ Stays s₁ is s'

/-- A frame that is larger than the server takes is refused, and of any other the machine goes on
with the length that was declared, and with what follows the length. -/
def Decided (declared max_message_size : Nat) (rest : Bytes) (r : Reply) (s : UWebSocket) : Prop :=
  if max_message_size < declared then r = .closed 1009
  else r = .quiet ∧ s.call.framing_state = .mask ∧ s.call.payload_length = declared ∧
    s.rbuffer ++ s.socket = rest

/-- Every run that reads the length comes to its end, and decides as it should. -/
def DecodesLength {opcode : Nat} (h : LengthBytes opcode) (s : UWebSocket) (rest : Bytes) : Prop :=
  ∀ is s₁, Stays s is s₁ → is.length ≤ 2 * h.ext.length + 3 ∧
    ∀ i r s₂, s₁.step i = some (r, s₂) →
      r = .quiet ∧ InLength s₂ ∨ Decided h.declared s.max_message_size rest r s₂

/-! ### The digits -/

theorem foldl_lengthDigit (e : Bytes) {n m : Nat} (h : n = m % 2 ^ 32) :
    e.foldl lengthDigit n = e.foldl (fun n c => n * 256 + c.toNat) m % 2 ^ 32 := by
  induction e generalizing n m with
  | nil => exact h
  | cons c e ih =>
      refine ih ?_
      rw [lengthDigit, h, Nat.add_mod, Nat.mod_mul_mod, ← Nat.add_mod]

/-! ### What a step does -/

variable {opcode : Nat} {h : LengthBytes opcode} {max_message_size : Nat} {rest : Bytes}
  {s : UWebSocket}

/-- Where the reading of the length is. -/
inductive Reading (h : LengthBytes opcode) (max_message_size : Nat) (rest : Bytes)
    (s : UWebSocket) : Prop
  | head (hstate : s.call.framing_state = .payloadLength) (hopcode : s.call.opcode = opcode)
      (hmax : s.max_message_size = max_message_size)
      (hstream : s.rbuffer ++ s.socket = h.head :: (h.ext ++ rest))
  | ext (read left : Bytes) (hstate : s.call.framing_state = .payloadLengthExt)
      (hmax : s.max_message_size = max_message_size) (hmasking : s.call.masking = true)
      (hleft : left ≠ [] ∨ h.ext = []) (hsplit : h.ext = read ++ left)
      (hread : s.call.payload_length =
        read.foldl lengthDigit (if h.ext = [] then h.head.toNat % 128 else 0))
      (hremaining : s.call.payload_length_bytes_remaining = left.length)
      (hstream : s.rbuffer ++ s.socket = left ++ rest)

/-- How long the reading may still take. -/
def effort (s : UWebSocket) (rest : Bytes) : Nat :=
  2 * ((s.rbuffer ++ s.socket).length - rest.length) + if s.rbuffer = [] then 1 else 0

/-- What is decided with the lowest 32 bits of the length. -/
def DecidedLow (declared max_message_size : Nat) (rest : Bytes) (r : Reply) (s : UWebSocket) :
    Prop :=
  if 2 ^ 31 ≤ declared % 2 ^ 32 ∨ max_message_size < declared % 2 ^ 32 then r = .closed 1009
  else r = .quiet ∧ s.call.framing_state = .mask ∧
    s.call.payload_length = declared % 2 ^ 32 ∧ s.rbuffer ++ s.socket = rest

theorem declared_low (h : LengthBytes opcode) :
    h.ext.foldl lengthDigit (if h.ext = [] then h.head.toNat % 128 else 0) =
      h.declared % 2 ^ 32 := by
  rw [LengthBytes.declared]
  split_ifs with hnil
  · have hlow := Nat.mod_lt h.head.toNat (show 0 < 128 by decide)
    rw [hnil, List.foldl_nil, Nat.mod_eq_of_lt (Nat.lt_trans hlow (by decide))]
  · exact foldl_lengthDigit h.ext rfl

theorem payloadLength_reads {c : UInt8} {block : Bytes} (hrbuffer : s.rbuffer = c :: block)
    (hopcode : s.call.opcode = opcode) (hmax : s.max_message_size = max_message_size)
    (hstream : s.rbuffer ++ s.socket = h.head :: (h.ext ++ rest)) :
    ∃ s', s.payloadLength c block = (.quiet, s') ∧ Reading h max_message_size rest s' ∧
      s'.rbuffer = block ∧ s'.socket = s.socket := by
  have hmasked := h.masked
  have hlength := h.ext_length
  have hshort := h.short
  rw [hrbuffer] at hstream
  obtain ⟨rfl, hrest⟩ := List.cons.inj hstream
  have hdata : extensionLength h.head ≠ 0 → ¬ 8 ≤ s.call.opcode := by
    intro hne hcontrol
    exact hne (hshort (hopcode ▸ hcontrol))
  refine ⟨{ s with
    rbuffer := block
    call := { s.call with
      framing_state := .payloadLengthExt
      masking := true
      payload_length := if h.ext = [] then h.head.toNat % 128 else 0
      payload_length_bytes_remaining := h.ext.length } }, ?_, ?_, rfl, rfl⟩
  · have hnil : h.ext = [] ↔ extensionLength h.head = 0 := by
      rw [← hlength, List.length_eq_zero_iff]
    simp only [payloadLength, hmasked, hlength, hnil]
    unfold extensionLength at hdata ⊢
    by_cases hmiddle : h.head.toNat % 128 = 126
    · simp [hmiddle] at hdata ⊢
      omega
    · by_cases hlong : h.head.toNat % 128 = 127
      · simp [hlong] at hdata ⊢
        omega
      · simp [hmiddle, hlong]
  · refine .ext [] h.ext rfl hmax rfl ?_ rfl rfl rfl hrest
    exact (eq_or_ne h.ext []).symm

theorem payloadLengthExt_reads {read left : Bytes} (hne : s.rbuffer ≠ [])
    (hstate : s.call.framing_state = .payloadLengthExt)
    (hmax : s.max_message_size = max_message_size) (hmasking : s.call.masking = true)
    (hsplit : h.ext = read ++ left)
    (hread : s.call.payload_length =
      read.foldl lengthDigit (if h.ext = [] then h.head.toNat % 128 else 0))
    (hremaining : s.call.payload_length_bytes_remaining = left.length)
    (hstream : s.rbuffer ++ s.socket = left ++ rest) :
    ∃ r s', s.payloadLengthExt = (r, s') ∧
      (r = .quiet ∧ Reading h max_message_size rest s' ∧
          s'.rbuffer.length < s.rbuffer.length ∧ s'.socket = s.socket ∨
        DecidedLow h.declared max_message_size rest r s') := by
  obtain ⟨taken, htaken⟩ : ∃ taken, taken = s.rbuffer.take left.length := ⟨_, rfl⟩
  have hle : taken.length ≤ s.rbuffer.length := by rw [htaken, List.length_take]; omega
  have hle' : taken.length ≤ left.length := by rw [htaken, List.length_take]; omega
  obtain ⟨htake, hdrop⟩ := take_eq_take hstream hle hle'
  have hsame : s.rbuffer.take taken.length = taken := by
    rw [htaken, List.length_take, ← List.take_eq_take_min]
  rw [hsame] at htake
  have hleft : left = taken ++ left.drop taken.length := by
    conv_lhs => rw [← List.take_append_drop taken.length left, ← htake]
  have hsplit' : h.ext = (read ++ taken) ++ left.drop taken.length := by
    rw [hsplit, List.append_assoc, ← hleft]
  have hfold : taken.foldl lengthDigit s.call.payload_length =
      (read ++ taken).foldl lengthDigit (if h.ext = [] then h.head.toNat % 128 else 0) := by
    rw [hread, List.foldl_append]
  by_cases hdone : left.length - taken.length = 0
  · -- the last byte of the length has come
    have hall : left.drop taken.length = [] := List.drop_eq_nil_of_le (by omega)
    rw [hall, List.append_nil] at hsplit'
    rw [← hsplit', declared_low] at hfold
    rw [hall, List.nil_append] at hdrop
    by_cases hlarge : 2 ^ 31 ≤ h.declared % 2 ^ 32 ∨ max_message_size < h.declared % 2 ^ 32
    · have hclosed : s.payloadLengthExt = (.closed 1009, { s with
          rbuffer := s.rbuffer.drop taken.length
          call := { s.call with payload_length := h.declared % 2 ^ 32
                                payload_length_bytes_remaining := 0 } }) := by
        simp only [payloadLengthExt, hremaining, ← htaken, hdone, hfold, hmax, if_pos hlarge,
          if_true]
      refine ⟨_, _, hclosed, .inr ?_⟩
      rw [DecidedLow, if_pos hlarge]
    · have hquiet : s.payloadLengthExt = (.quiet, { s with
          rbuffer := s.rbuffer.drop taken.length
          call := { s.call with framing_state := .mask
                                payload_length := h.declared % 2 ^ 32
                                payload_length_bytes_remaining := 0 } }) := by
        simp only [payloadLengthExt, hremaining, ← htaken, hdone, hfold, hmax, if_neg hlarge,
          hmasking, if_true]
      refine ⟨_, _, hquiet, .inr ?_⟩
      rw [DecidedLow, if_neg hlarge]
      exact ⟨rfl, rfl, rfl, hdrop⟩
  · have hquiet : s.payloadLengthExt = (.quiet, { s with
        rbuffer := s.rbuffer.drop taken.length
        call := { s.call with payload_length := taken.foldl lengthDigit s.call.payload_length
                              payload_length_bytes_remaining :=
                                left.length - taken.length } }) := by
      simp only [payloadLengthExt, hremaining, ← htaken, hdone, if_false]
    refine ⟨_, _, hquiet, .inl ⟨rfl, ?_, ?_, rfl⟩⟩
    · refine .ext (read ++ taken) (left.drop taken.length) hstate hmax hmasking (.inl ?_) hsplit'
        hfold List.length_drop.symm hdrop
      rw [← List.length_pos_iff, List.length_drop]
      omega
    · have hpos := List.length_pos_of_ne_nil hne
      have htakenLength : taken.length = min left.length s.rbuffer.length := by
        rw [htaken, List.length_take]
      rw [List.length_drop]
      omega

theorem step_reads {i : Action} {r : Reply} {s' : UWebSocket}
    (hreading : Reading h max_message_size rest s) (hstep : s.step i = some (r, s')) :
    r = .quiet ∧ Reading h max_message_size rest s' ∧ effort s' rest < effort s rest ∨
      DecidedLow h.declared max_message_size rest r s' := by
  cases i with
  | read n =>
      simp only [step] at hstep
      split_ifs at hstep with hguard
      obtain ⟨hnil, hn, hle⟩ := hguard
      cases hstep
      have hstream : s.socket.take n ++ s.socket.drop n = s.rbuffer ++ s.socket := by
        rw [List.take_append_drop, hnil, List.nil_append]
      have hne : s.socket.take n ≠ [] := by
        rw [← List.length_pos_iff, List.length_take]
        omega
      refine .inl ⟨rfl, ?_, ?_⟩
      · cases hreading with
        | head hstate hopcode hmax hs => exact .head hstate hopcode hmax (hstream.trans hs)
        | ext read left hstate hmax hmasking hleft hsplit hread hremaining hs =>
            exact .ext read left hstate hmax hmasking hleft hsplit hread hremaining
              (hstream.trans hs)
      · simp only [effort, hstream, hnil, if_neg hne, if_true]
        omega
  | turn =>
      simp only [step, turn] at hstep
      cases hrbuffer : s.rbuffer with
      | nil => rw [hrbuffer] at hstep; cases hstep
      | cons c block =>
          rw [hrbuffer] at hstep
          cases hreading with
          | head hstate hopcode hmax hs =>
              obtain ⟨s₁, hs₁, hreading, hblock, hsocket⟩ :=
                payloadLength_reads hrbuffer hopcode hmax hs
              simp only [hstate, hs₁] at hstep
              cases hstep
              refine .inl ⟨rfl, hreading, ?_⟩
              have hlength := congrArg List.length hs
              rw [List.length_cons, List.length_append, List.length_append] at hlength
              simp only [effort, hblock, hsocket, hrbuffer, List.length_append, List.length_cons,
                if_neg (List.cons_ne_nil c block)] at hlength ⊢
              split_ifs <;> omega
          | ext read left hstate hmax hmasking hleft hsplit hread hremaining hs =>
              have hne : s.rbuffer ≠ [] := by rw [hrbuffer]; exact List.cons_ne_nil c block
              obtain ⟨r₁, s₁, hs₁, hcases⟩ := payloadLengthExt_reads hne hstate hmax hmasking hsplit
                hread hremaining hs
              simp only [hstate, hs₁] at hstep
              cases hstep
              rcases hcases with ⟨hr, hreading, hlt, hsocket⟩ | hdecided
              · refine .inl ⟨hr, hreading, ?_⟩
                have hrest : rest.length ≤ s'.rbuffer.length + s'.socket.length := by
                  cases hreading with
                  | head _ _ _ hs' =>
                      have := congrArg List.length hs'
                      simp only [List.length_cons, List.length_append] at this
                      omega
                  | ext _ left' _ _ _ _ _ _ _ hs' =>
                      have := congrArg List.length hs'
                      simp only [List.length_append] at this
                      omega
                simp only [effort, hsocket, List.length_append, if_neg hne] at hrest ⊢
                split_ifs <;> omega
              · exact .inr hdecided

theorem Reading.inLength (hreading : Reading h max_message_size rest s) : InLength s := by
  cases hreading with
  | head hstate => exact .inl hstate
  | ext _ _ hstate => exact .inr hstate

theorem DecidedLow.not_inLength {declared : Nat} {r : Reply}
    (hdecided : DecidedLow declared max_message_size rest r s) : ¬ (r = .quiet ∧ InLength s) := by
  rintro ⟨hr, hin⟩
  rw [DecidedLow] at hdecided
  split_ifs at hdecided
  · cases hr.symm.trans hdecided
  · rcases hin with hin | hin
    · cases hin.symm.trans hdecided.2.1
    · cases hin.symm.trans hdecided.2.1

/-! ### Runs -/

theorem stays_reads {is : List Action} {s₁ : UWebSocket}
    (hreading : Reading h max_message_size rest s) (hstays : Stays s is s₁) :
    Reading h max_message_size rest s₁ ∧ is.length + effort s₁ rest ≤ effort s rest := by
  induction is generalizing s with
  | nil =>
      cases hstays
      exact ⟨hreading, by simp⟩
  | cons i is ih =>
      obtain ⟨s', hstep, hin, hrest⟩ := hstays
      rcases step_reads hreading hstep with ⟨-, hreading', hlt⟩ | hdecided
      · obtain ⟨hlast, hle⟩ := ih hreading' hrest
        refine ⟨hlast, ?_⟩
        rw [List.length_cons]
        omega
      · exact absurd ⟨rfl, hin⟩ hdecided.not_inLength

theorem exists_step (hext : h.ext ≠ []) (hreading : Reading h max_message_size rest s) :
    ∃ i r s', s.step i = some (r, s') := by
  have hstream : s.rbuffer ++ s.socket ≠ [] := by
    cases hreading with
    | head _ _ _ hs => rw [hs]; exact List.cons_ne_nil _ _
    | ext _ left _ _ _ hleft _ _ _ hs =>
        rw [hs]
        exact List.append_ne_nil_of_left_ne_nil (hleft.resolve_right hext) rest
  cases hrbuffer : s.rbuffer with
  | nil =>
      rw [hrbuffer, List.nil_append] at hstream
      have hpos := List.length_pos_of_ne_nil hstream
      refine ⟨.read s.socket.length, _, _, if_pos ⟨hrbuffer, hpos, Nat.le_refl _⟩⟩
  | cons c block =>
      cases hreading with
      | head hstate => exact ⟨.turn, _, _, by simp only [step, turn, hrbuffer, hstate]; rfl⟩
      | ext _ _ hstate => exact ⟨.turn, _, _, by simp only [step, turn, hrbuffer, hstate]; rfl⟩

/-- A length that has an extension is decided upon in some run. -/
theorem exists_decision (hext : h.ext ≠ []) (hreading : Reading h max_message_size rest s) :
    ∃ is s₁ i r s₂, Stays s is s₁ ∧ s₁.step i = some (r, s₂) ∧
      DecidedLow h.declared max_message_size rest r s₂ := by
  obtain ⟨n, hn⟩ : ∃ n, effort s rest = n := ⟨_, rfl⟩
  induction n using Nat.strong_induction_on generalizing s with
  | _ n ih =>
      obtain ⟨i, r, s', hstep⟩ := exists_step hext hreading
      rcases step_reads hreading hstep with ⟨rfl, hreading', hlt⟩ | hdecided
      · obtain ⟨is, s₁, j, r, s₂, hstays, hlast⟩ := ih _ (hn ▸ hlt) hreading' rfl
        exact ⟨i :: is, s₁, j, r, s₂, ⟨s', hstep, hreading'.inLength, hstays⟩, hlast⟩
      · exact ⟨[], s, i, r, s', rfl, hstep, hdecided⟩

/-- Whether the lowest 32 bits decide as the whole length does. -/
theorem decided_of_decidedLow {declared : Nat} {r : Reply}
    (hdecided : DecidedLow declared max_message_size rest r s) :
    Decided declared max_message_size rest r s ↔ declared < 2 ^ 31 ∨ max_message_size < declared ∧
      (2 ^ 31 ≤ declared % 2 ^ 32 ∨ max_message_size < declared % 2 ^ 32) := by
  rw [DecidedLow] at hdecided
  rw [Decided]
  rcases Nat.lt_or_ge max_message_size declared with hlarge | hlarge
  · rw [if_pos hlarge]
    split_ifs at hdecided with hlow
    · exact ⟨fun _ => .inr ⟨hlarge, hlow⟩, fun _ => hdecided⟩
    · refine ⟨fun hclosed => ?_, fun hcond => ?_⟩
      · cases hdecided.1.symm.trans hclosed
      · have hsmall := hcond.resolve_right fun h => hlow h.2
        rw [Nat.mod_eq_of_lt (by omega)] at hlow
        exact absurd (.inr hlarge) hlow
  · rw [if_neg (Nat.not_lt.mpr hlarge)]
    split_ifs at hdecided with hlow
    · refine ⟨fun hquiet => ?_, fun hcond => ?_⟩
      · cases hquiet.1.symm.trans hdecided
      · have hsmall := hcond.resolve_right fun h => Nat.not_lt.mpr hlarge h.1
        omega
    · refine ⟨fun hquiet => .inl ?_, fun hcond => ?_⟩
      · have hlength := hquiet.2.2.1.symm.trans hdecided.2.2.1
        omega
      · have hsmall := hcond.resolve_right fun h => Nat.not_lt.mpr hlarge h.1
        rwa [Nat.mod_eq_of_lt (by omega)] at hdecided

/-- The machine reads the lengths below 2^31, and refuses larger ones where it refuses their lowest
32 bits. -/
theorem decodesLength_iff (h : LengthBytes opcode) (hstate : s.call.framing_state = .payloadLength)
    (hopcode : s.call.opcode = opcode)
    (hstream : s.rbuffer ++ s.socket = h.head :: (h.ext ++ rest)) :
    DecodesLength h s rest ↔ h.declared < 2 ^ 31 ∨ s.max_message_size < h.declared ∧
      (2 ^ 31 ≤ h.declared % 2 ^ 32 ∨ s.max_message_size < h.declared % 2 ^ 32) := by
  have hreading : Reading h s.max_message_size rest s := .head hstate hopcode rfl hstream
  constructor
  · intro hdecodes
    by_cases hext : h.ext = []
    · left
      rw [LengthBytes.declared, if_pos hext]
      omega
    · obtain ⟨is, s₁, i, r, s₂, hstays, hstep, hdecided⟩ := exists_decision hext hreading
      rcases (hdecodes is s₁ hstays).2 i r s₂ hstep with hin | hright
      · exact absurd hin hdecided.not_inLength
      · exact (decided_of_decidedLow hdecided).mp hright
  · intro hcond is s₁ hstays
    obtain ⟨hreading₁, hle⟩ := stays_reads hreading hstays
    constructor
    · have hlength := congrArg List.length hstream
      rw [List.length_cons, @List.length_append _ h.ext] at hlength
      have heffort : effort s rest ≤ 2 * h.ext.length + 3 := by
        rw [effort, hlength]
        split_ifs <;> omega
      omega
    · intro i r s₂ hstep
      rcases step_reads hreading₁ hstep with ⟨hr, hreading₂, -⟩ | hdecided
      · exact .inl ⟨hr, hreading₂.inLength⟩
      · exact .inr ((decided_of_decidedLow hdecided).mpr hcond)

/-! ### Two headers -/

/-- A connection that takes messages of 1000 bytes, behind the first byte of a binary frame. -/
def behindFirst (socket : Bytes) : UWebSocket :=
  let s := initial 1000 emptyBuffer socket
  { s with call := { s.call with framing_state := .payloadLength, opcode := 2, frame := .message } }

/-- 300 bytes, in 16 bits. -/
def length300 : LengthBytes 2 := ⟨254, [1, 44], by decide, by decide, by decide⟩

theorem decodesLength_300 : DecodesLength length300 (behindFirst [254, 1, 44, 7]) [7] :=
  (decodesLength_iff length300 rfl rfl rfl).mpr (.inl (by decide))

/-- 2^32 + 5 bytes, in 64 bits. -/
def lengthPast32 : LengthBytes 2 :=
  ⟨255, [0, 0, 0, 1, 0, 0, 0, 5], by decide, by decide, by decide⟩

/-- The machine takes it for a frame of 5 bytes. -/
theorem not_decodesLength_past32 :
    ¬ DecodesLength lengthPast32 (behindFirst (255 :: lengthPast32.ext ++ [7])) [7] := by
  intro hdecodes
  have hstep := (hdecodes [.read 10, .turn] _
    ⟨_, rfl, .inl rfl, _, rfl, .inr rfl, rfl⟩).2 .turn _ _ rfl
  rcases hstep with ⟨-, hin⟩ | hdecided
  · rcases hin with hin | hin <;> cases hin
  · exact absurd hdecided (by rw [Decided, if_pos (by decide)]; exact nofun)

end ULib.WebSocketLength
