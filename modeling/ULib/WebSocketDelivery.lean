import ULib.WebSocketClient

/-!
The messages that are delivered are those that the client sends, in order and
each once, over every run in which no message follows on what an earlier one
left behind, no payload of a ping or a pong is written over a message, no
fragment is lost when the buffer grows, and no frame comes with the end of a
message in one read.
-/

namespace ULib.WebSocketDelivery

open ULib.KeyComparison
open ULib.ByteMemory
open ULib.Runs
open ULib.WebSocket
open ULib.WebSocket.UWebSocket
open ULib.WebSocketClient

/-! ### Text and masks -/

/-- The walk of the table over the text ends where it began. -/
def Accepted (x : Bytes) : Prop := (checkText 0 x).1 = 0

/-- The two bytes of U+00E9 are not. -/
example : (checkText 0 [0xC3, 0xA9]).1 = 7 := by decide

theorem checkText_append {st : Nat} {a : Bytes} (b : Bytes) (h : (checkText st a).1 ≠ 1) :
    (checkText st (a ++ b)).1 = (checkText (checkText st a).1 b).1 := by
  induction a generalizing st with
  | nil => rfl
  | cons c a ih =>
      rw [checkText] at h
      rw [List.cons_append, checkText, checkText]
      dsimp only at h ⊢
      split at h
      · exact absurd rfl h
      · rename_i hne
        rw [if_neg hne, if_neg hne]
        exact ih h

theorem checkText_of_append {st : Nat} {a b : Bytes} (hst : st ≠ 1)
    (h : (checkText st (a ++ b)).1 ≠ 1) : (checkText st a).1 ≠ 1 := by
  induction a generalizing st with
  | nil => exact hst
  | cons c a ih =>
      rw [List.cons_append, checkText] at h
      rw [checkText]
      dsimp only at h ⊢
      split at h
      · exact absurd rfl h
      · rename_i hne
        rw [if_neg hne]
        exact ih hne h

theorem length_unmask (mask : Bytes) (i : Nat) (x : Bytes) :
    (unmask mask i x).length = x.length := by
  induction x generalizing i with
  | nil => rfl
  | cons c x ih => rw [unmask, List.length_cons, List.length_cons, ih]

theorem unmask_append (mask : Bytes) (i : Nat) (x y : Bytes) :
    unmask mask i (x ++ y) = unmask mask i x ++ unmask mask (i + x.length) y := by
  induction x generalizing i with
  | nil => rfl
  | cons c x ih =>
      rw [List.cons_append, unmask, unmask, ih, List.length_cons, List.cons_append,
        Nat.add_right_comm i 1, Nat.add_assoc]

theorem unmask_unmask (mask : Bytes) (i : Nat) (x : Bytes) :
    unmask mask i (unmask mask i x) = x := by
  induction x generalizing i with
  | nil => rfl
  | cons c x ih => rw [unmask, unmask, ih, UInt8.xor_assoc, UInt8.xor_self, UInt8.xor_zero]

theorem unmask_zero (i : Nat) (x : Bytes) : unmask [0, 0, 0, 0] i x = x := by
  have hzero : ∀ k < 4, ([0, 0, 0, 0] : Bytes).getD k 0 = 0 := by decide
  induction x generalizing i with
  | nil => rfl
  | cons c x ih => rw [unmask, ih, hzero _ (Nat.mod_lt i (by decide)), UInt8.xor_zero]

/-- The bytes as they are stored. -/
def plain (call : Framing) (d : Bytes) : Bytes :=
  if call.masking then unmask call.mask call.mask_offset d else d

theorem length_plain (call : Framing) (d : Bytes) : (plain call d).length = d.length := by
  rw [plain]
  split
  · exact length_unmask _ _ d
  · rfl

theorem plain_append (call : Framing) (d e : Bytes) :
    plain call (d ++ e) =
      plain call d ++ plain { call with mask_offset := call.mask_offset + d.length } e := by
  simp only [plain]
  split
  · exact unmask_append _ _ d e
  · rfl

/-- Two ways in which a stream is cut. -/
theorem take_eq_take {a b c d : Bytes} (h : a ++ b = c ++ d) {n : Nat} (ha : n ≤ a.length)
    (hc : n ≤ c.length) : a.take n = c.take n ∧ a.drop n ++ b = c.drop n ++ d := by
  constructor
  · rw [← List.take_append_of_le_length ha, h, List.take_append_of_le_length hc]
  · rw [← List.drop_append_of_le_length ha, h, List.drop_append_of_le_length hc]

/-! ### What is delivered -/

abbrev Due := List (MessageType × Bytes)

/-- Only the next message is delivered, and the connection is not given up. -/
def allowed (due : Due) (_ : Action) : Reply → Prop
  | .delivered t x => due.head? = some (t, x)
  | .closed _ => False
  | _ => True

def next (due : Due) (_ : Action) : Reply → Due
  | .delivered _ _ => due.tail
  | _ => due

/-- Once all bytes have been taken, no message is missing. -/
def Represents (s : UWebSocket) (due : Due) : Prop := s.rbuffer = [] → s.socket = [] → due = []

def Permitted (s : UWebSocket) (i : Action) : Prop := (s.step i).isSome

/-- How much of a message is in the buffer already. -/
def underWay (s : UWebSocket) : Nat :=
  if s.call.frame = .message ∨ ¬ s.message_frame.fin then s.message_frame.application_data_offset
  else 0

/-- The frame fits in the buffer, and where this has to grow for it, all of the
message is behind its length. -/
def GrowsSafely (s : UWebSocket) : Prop :=
  let n := s.frame.application_data_offset + s.call.payload_length
  0 < s.call.payload_length →
    n ≤ (s.wbuffer.reserve (n % 2 ^ 32)).capacity ∧
      (s.wbuffer.capacity < n % 2 ^ 32 → underWay s ≤ s.wbuffer.length)

/-- A ping or a pong is not written over a message, and nothing that was read
stands behind the last byte of one. -/
def WritesSafely (s : UWebSocket) : Prop :=
  let n := min s.call.payload_length s.rbuffer.length
  (s.call.frame = .control → 0 < n → ¬ s.message_frame.fin →
      s.message_frame.application_data_offset = 0) ∧
    (s.call.frame = .message → s.call.fin → n = s.call.payload_length → s.rbuffer.drop n = [])

/-- What has to hold before a turn. A message begins where the one before it
left an offset of 0. -/
def Sound (s : UWebSocket) : Action → Prop
  | .read _ => True
  | .turn =>
      match s.call.framing_state with
      | .start => ∀ c ∈ s.rbuffer.head?, (c.toNat % 16 = 1 ∨ c.toNat % 16 = 2) →
          s.message_frame.application_data_offset = 0
      | .mask => s.takeMask.call.mask_index = 4 →
          GrowsSafely s.takeMask.maskDone ∧ WritesSafely s.takeMask.maskDone.extensionData
      | .extensionData => GrowsSafely s ∧ WritesSafely s.extensionData
      | .applicationData => WritesSafely s
      | _ => True

instance (s : UWebSocket) (i : Action) : Decidable (Permitted s i) :=
  inferInstanceAs (Decidable (_ = true))

instance (s : UWebSocket) : Decidable (GrowsSafely s) :=
  inferInstanceAs (Decidable (_ → _ ≤ _ ∧ (_ < _ → _ ≤ _)))

instance (s : UWebSocket) : Decidable (WritesSafely s) :=
  inferInstanceAs (Decidable ((_ = _ → _ < _ → ¬ _ = true → _ = _) ∧ (_ = _ → _ = true → _ = _ → _ = _)))

instance decidableSound (s : UWebSocket) : (i : Action) → Decidable (Sound s i)
  | .read _ => isTrue trivial
  | .turn =>
      match h : s.call.framing_state with
      | .start =>
          @decidable_of_iff _ (∀ c ∈ s.rbuffer.head?, (c.toNat % 16 = 1 ∨ c.toNat % 16 = 2) →
            s.message_frame.application_data_offset = 0) (by simp only [Sound, h])
            (Option.decidableForallMem _)
      | .mask =>
          decidable_of_iff (s.takeMask.call.mask_index = 4 → GrowsSafely s.takeMask.maskDone ∧
            WritesSafely s.takeMask.maskDone.extensionData) (by simp only [Sound, h])
      | .extensionData =>
          decidable_of_iff (GrowsSafely s ∧ WritesSafely s.extensionData) (by simp only [Sound, h])
      | .applicationData => decidable_of_iff (WritesSafely s) (by simp only [Sound, h])
      | .payloadLength => isTrue (by simp only [Sound, h])
      | .payloadLengthExt => isTrue (by simp only [Sound, h])

instance (due : Due) (i : Action) : (r : Reply) → Decidable (allowed due i r)
  | .delivered t x => inferInstanceAs (Decidable (due.head? = some (t, x)))
  | .closed _ => isFalse id
  | .quiet => isTrue trivial
  | .pong _ => isTrue trivial

instance (s : UWebSocket) (due : Due) : Decidable (Represents s due) :=
  inferInstanceAs (Decidable (_ = _ → _ = _ → _ = _))

/-! ### The invariant -/

/-- The bytes of a message that are in the buffer. -/
structure Loaded (m : WebSocketFrameData) (mem : Mem) (t : MessageType) (x : Bytes) : Prop where
  offset : m.application_data_offset = x.length
  bytes : read mem 0 x.length = x
  state : t = .text → m.utf8_state = (checkText 0 x).1

/-- Between two frames. -/
inductive Carries (m : WebSocketFrameData) (mem : Mem) : Option (MessageType × Bytes) → Prop
  | none (hfin : m.fin = true) : Carries m mem none
  | some {t x} (hfin : m.fin = false) (ht : t ≠ .invalid) (hopcode : m.opcode = typeCode t)
      (hloaded : Loaded m mem t x) : Carries m mem (some (t, x))

/-- What comes after a fragment with which the message is `x`. -/
def SendsAfter (fin : Bool) (t : MessageType) (x : Bytes) (rest : List Frame) (due : Due) : Prop :=
  if fin then ∃ due', due = (t, x) :: due' ∧ Sends none rest due' else Sends (some (t, x)) rest due

/-- In a frame of which the payload `q` is still to come. -/
inductive Serves (frame : FrameKind) (opcode : Nat) (fin : Bool) (m : WebSocketFrameData)
    (mem : Mem)
    (due : Due) (q : Bytes) (rest : List Frame) : Prop
  | control {u} (hframe : frame = .control) (hopcode : opcode = 9 ∨ opcode = 10)
      (hcarries : Carries m mem u) (hsends : Sends u rest due)
  | data {t x} (hframe : frame = .message) (ht : t ≠ .invalid) (hopcode : opcode = typeCode t)
      (hfin : m.fin = fin) (hm : m.opcode = typeCode t) (hloaded : Loaded m mem t x)
      (hsends : SendsAfter fin t (x ++ q) rest due)

abbrev UnderWay (s : UWebSocket) : Due → Bytes → List Frame → Prop :=
  Serves s.call.frame s.call.opcode s.call.fin s.message_frame s.wbuffer.bytes

/-- The variables of a call, where no mask is being read. -/
structure Ready (call : Framing) : Prop where
  index : call.mask_index = 0
  mask : call.mask.length = 4

/-- The payloads are not larger than the server takes. -/
def Limited (s : UWebSocket) (rest : List Frame) : Prop :=
  ∀ f ∈ rest, f.payload.data.length ≤ s.max_message_size

/-- What the rest of the stream is, and what is known of it. -/
inductive Ahead (s : UWebSocket) (due : Due) : Prop
  | start {u : Option (MessageType × Bytes)} {rest : List Frame}
      (hstate : s.call.framing_state = .start) (hready : Ready s.call) (hlimited : Limited s rest)
      (hcarries : Carries s.message_frame s.wbuffer.bytes u) (hsends : Sends u rest due)
      (hstream : s.rbuffer ++ s.socket = encode rest)
  | payloadLength {p : Payload} {rest : List Frame}
      (hstate : s.call.framing_state = .payloadLength) (hready : Ready s.call)
      (hlimited : Limited s rest) (hserves : UnderWay s due p.data rest)
      (hshort : 8 ≤ s.call.opcode → p.form = .short) (hsize : p.data.length ≤ s.max_message_size)
      (hstream : s.rbuffer ++ s.socket = lengthByte p.form p.data.length ::
        (extension p.form p.data.length ++ (p.masked ++ encode rest)))
  | payloadLengthExt {p : Payload} {rest : List Frame} {e : Bytes}
      (hstate : s.call.framing_state = .payloadLengthExt) (hready : Ready s.call)
      (hlimited : Limited s rest) (hserves : UnderWay s due p.data rest)
      (hsize : p.data.length ≤ s.max_message_size) (hmasking : s.call.masking = true)
      (hlength : e.foldl lengthDigit s.call.payload_length = p.data.length)
      (hremaining : s.call.payload_length_bytes_remaining = e.length)
      (hstream : s.rbuffer ++ s.socket = e ++ (p.masked ++ encode rest))
  | mask {p : Payload} {rest : List Frame} (hstate : s.call.framing_state = .mask)
      (hindex : s.call.mask_index < 4) (hlength_mask : s.call.mask.length = 4)
      (hlimited : Limited s rest) (hserves : UnderWay s due p.data rest)
      (hmasking : s.call.masking = true) (hlength : s.call.payload_length = p.data.length)
      (hmask : s.call.mask.take s.call.mask_index = p.mask.take s.call.mask_index)
      (hstream : s.rbuffer ++ s.socket =
        p.mask.drop s.call.mask_index ++ (unmask p.mask 0 p.data ++ encode rest))
  | applicationData {d : Bytes} {rest : List Frame}
      (hstate : s.call.framing_state = .applicationData) (hready : Ready s.call)
      (hlimited : Limited s rest) (hserves : UnderWay s due (plain s.call d) rest)
      (hne : d ≠ []) (hlength : s.call.payload_length = d.length)
      (hstream : s.rbuffer ++ s.socket = d ++ encode rest)

/-- The texts to come are accepted. -/
def TextsAccepted (due : Due) : Prop := ∀ x, (.text, x) ∈ due → Accepted x

/-- A step keeps to what is due. -/
def Keeps (due : Due) (i : Action) (result : Option (Reply × UWebSocket)) : Prop :=
  ∃ r s', result = some (r, s') ∧ allowed due i r ∧ Ahead s' (next due i r)

/-! ### The first bytes of a frame -/

theorem firstByte_spec (fin : Bool) (opcode : Nat) (hopcode : opcode ∈ [0, 1, 2, 9, 10]) :
    (firstByte fin opcode).toNat / 64 % 2 = 0 ∧ (firstByte fin opcode).toNat / 32 % 2 = 0 ∧
      (firstByte fin opcode).toNat / 16 % 2 = 0 ∧
      decide ((firstByte fin opcode).toNat / 128 % 2 = 1) = fin ∧
      (firstByte fin opcode).toNat % 16 = opcode := by
  have hall : ∀ fin : Bool, ∀ opcode ∈ [0, 1, 2, 9, 10],
      (firstByte fin opcode).toNat / 64 % 2 = 0 ∧ (firstByte fin opcode).toNat / 32 % 2 = 0 ∧
        (firstByte fin opcode).toNat / 16 % 2 = 0 ∧
        decide ((firstByte fin opcode).toNat / 128 % 2 = 1) = fin ∧
        (firstByte fin opcode).toNat % 16 = opcode := by decide
  exact hall fin opcode hopcode

theorem extension_value (p : Payload) :
    (extension p.form p.data.length).foldl lengthDigit
      (if p.form = .short then p.data.length else 0) = p.data.length := by
  have hfits := p.length_fits
  cases hform : p.form with
  | short => rfl
  | extended16 =>
      rw [hform] at hfits
      dsimp only at hfits
      simp only [extension, List.foldl_cons, List.foldl_nil, lengthDigit, UInt8.toNat_ofNat',
        reduceCtorEq, if_false]
      omega
  | extended64 =>
      rw [hform] at hfits
      dsimp only at hfits
      simp only [extension, List.foldl_cons, List.foldl_nil, lengthDigit, UInt8.toNat_ofNat',
        reduceCtorEq, if_false, UInt8.toNat_zero]
      omega

theorem lengthByte_spec (p : Payload) :
    (lengthByte p.form p.data.length).toNat / 128 % 2 = 1 ∧
      (lengthByte p.form p.data.length).toNat % 128 =
        match p.form with
        | .short => p.data.length
        | .extended16 => 126
        | .extended64 => 127 := by
  have hfits := p.length_fits
  cases hform : p.form with
  | short =>
      rw [hform] at hfits
      dsimp only at hfits
      simp only [lengthByte, UInt8.toNat_ofNat']
      omega
  | extended16 =>
      dsimp only [lengthByte]
      decide
  | extended64 =>
      dsimp only [lengthByte]
      decide

theorem length_lt (p : Payload) : p.data.length < 2 ^ 31 := by
  have hfits := p.length_fits
  cases hform : p.form <;> rw [hform] at hfits <;> dsimp only at hfits <;> omega

theorem typeCode_mem {t : MessageType} (ht : t ≠ .invalid) : typeCode t = 1 ∨ typeCode t = 2 := by
  cases t with
  | text => exact .inl rfl
  | binary => exact .inr rfl
  | invalid => exact absurd rfl ht

theorem encode_cons (f : Frame) (rest : List Frame) :
    encode (f :: rest) = f.head :: lengthByte f.payload.form f.payload.data.length ::
      (extension f.payload.form f.payload.data.length ++ (f.payload.masked ++ encode rest)) := by
  rw [encode, List.flatMap_cons, Frame.encode, List.cons_append, List.cons_append,
    List.append_assoc, encode]

section Steps

variable {s : UWebSocket} {due : Due} {block : Bytes}

theorem start_control {ping : Bool} {p : Payload} {u : Option (MessageType × Bytes)}
    {rest : List Frame} (hshort : p.form = .short) (hready : Ready s.call)
    (hlimited : Limited s rest) (hsize : p.data.length ≤ s.max_message_size)
    (hcarries : Carries s.message_frame s.wbuffer.bytes u) (hsends : Sends u rest due)
    (hstream : block ++ s.socket = lengthByte p.form p.data.length ::
      (extension p.form p.data.length ++ (p.masked ++ encode rest))) :
    Keeps due .turn (some (s.start (firstByte true (if ping then 9 else 10)) block)) := by
  have hopcode : (if ping then 9 else 10) = 9 ∨ (if ping then 9 else 10) = 10 := by
    cases ping <;> decide
  obtain ⟨h6, h5, h4, h7, hlow⟩ := firstByte_spec true (if ping then 9 else 10)
    (by cases ping <;> decide)
  have h8 : 8 ≤ if ping then 9 else 10 := by cases ping <;> decide
  have hstart : s.start (firstByte true (if ping then 9 else 10)) block =
      (.quiet, { s with
        rbuffer := block
        call := { s.call with framing_state := .payloadLength, frame := .control, fin := true
                              opcode := if ping then 9 else 10, payload_length := 0
                              payload_length_bytes_remaining := 0 }
        control_frame := { s.control_frame with
          opcode := if ping then 9 else 10, utf8_state := 0 } }) := by
    simp only [start, h6, h5, h4, h7, hlow, h8, ne_eq, not_true, or_self, if_false, if_true]
  refine ⟨_, _, congrArg some hstart, trivial, ?_⟩
  exact .payloadLength rfl ⟨hready.index, hready.mask⟩ hlimited
    (.control rfl hopcode hcarries hsends) (fun _ => hshort) hsize hstream

theorem start_first {t : MessageType} {fin : Bool} {p : Payload} {rest : List Frame}
    (ht : t ≠ .invalid) (hready : Ready s.call) (hlimited : Limited s rest)
    (hsize : p.data.length ≤ s.max_message_size) (hfin : s.message_frame.fin = true)
    (hoffset : s.message_frame.application_data_offset = 0)
    (hsends : SendsAfter fin t p.data rest due)
    (hstream : block ++ s.socket = lengthByte p.form p.data.length ::
      (extension p.form p.data.length ++ (p.masked ++ encode rest))) :
    Keeps due .turn (some (s.start (firstByte fin (typeCode t)) block)) := by
  have hcode := typeCode_mem ht
  obtain ⟨h6, h5, h4, h7, hlow⟩ := firstByte_spec fin (typeCode t)
    (by rcases hcode with h | h <;> rw [h] <;> decide)
  have h8 : ¬ 8 ≤ typeCode t := by omega
  have h0 : typeCode t ≠ 0 := by omega
  have hstart : s.start (firstByte fin (typeCode t)) block =
      (.quiet, { s with
        rbuffer := block
        call := { s.call with framing_state := .payloadLength, frame := .message, fin
                              opcode := typeCode t, payload_length := 0
                              payload_length_bytes_remaining := 0 }
        message_frame := { s.message_frame with opcode := typeCode t, utf8_state := 0, fin } }) := by
    simp only [start, h6, h5, h4, h7, hlow, h8, h0, hfin, ne_eq, not_true, not_false_eq_true,
      or_self, if_false, if_true]
  have hloaded : Loaded { s.message_frame with opcode := typeCode t, utf8_state := 0, fin }
      s.wbuffer.bytes t [] := ⟨hoffset, rfl, fun _ => rfl⟩
  refine ⟨_, _, congrArg some hstart, trivial, ?_⟩
  exact .payloadLength rfl ⟨hready.index, hready.mask⟩ hlimited
    (.data rfl ht rfl rfl rfl hloaded hsends) (fun h => absurd h h8) hsize hstream

theorem start_next {t : MessageType} {x : Bytes} {fin : Bool} {p : Payload} {rest : List Frame}
    (ht : t ≠ .invalid) (hready : Ready s.call) (hlimited : Limited s rest)
    (hsize : p.data.length ≤ s.max_message_size) (hfin : s.message_frame.fin = false)
    (hopcode : s.message_frame.opcode = typeCode t)
    (hloaded : Loaded s.message_frame s.wbuffer.bytes t x)
    (hsends : SendsAfter fin t (x ++ p.data) rest due)
    (hstream : block ++ s.socket = lengthByte p.form p.data.length ::
      (extension p.form p.data.length ++ (p.masked ++ encode rest))) :
    Keeps due .turn (some (s.start (firstByte fin 0) block)) := by
  have hcode := typeCode_mem ht
  obtain ⟨h6, h5, h4, h7, hlow⟩ := firstByte_spec fin 0 (by decide)
  have h8 : ¬ 8 ≤ typeCode t := by omega
  have h0 : typeCode t ≠ 0 := by omega
  have hstart : s.start (firstByte fin 0) block =
      (.quiet, { s with
        rbuffer := block
        call := { s.call with framing_state := .payloadLength, frame := .message, fin
                              opcode := s.message_frame.opcode, payload_length := 0
                              payload_length_bytes_remaining := 0 }
        message_frame := { s.message_frame with fin } }) := by
    simp only [start, h6, h5, h4, h7, hlow, hfin, hopcode, h0, ne_eq, not_true, or_self,
      Nat.le_zero, OfNat.ofNat_ne_zero, Bool.false_eq_true, if_false]
  have hloaded' : Loaded { s.message_frame with fin } s.wbuffer.bytes t x :=
    ⟨hloaded.offset, hloaded.bytes, hloaded.state⟩
  refine ⟨_, _, congrArg some hstart, trivial, ?_⟩
  exact .payloadLength rfl ⟨hready.index, hready.mask⟩ hlimited
    (.data rfl ht hopcode rfl hopcode hloaded' hsends) (fun h => absurd (hopcode ▸ h) h8) hsize
    hstream

/-- The state behind the first byte of a frame. -/
theorem start_keeps {c : UInt8} {u : Option (MessageType × Bytes)} {rest : List Frame}
    (hready : Ready s.call) (hlimited : Limited s rest)
    (hcarries : Carries s.message_frame s.wbuffer.bytes u) (hsends : Sends u rest due)
    (hstream : (c :: block) ++ s.socket = encode rest)
    (hsound : c.toNat % 16 = 1 ∨ c.toNat % 16 = 2 → s.message_frame.application_data_offset = 0) :
    Keeps due .turn (some (s.start c block)) := by
  have hoffset {fin : Bool} {t : MessageType} (ht : t ≠ .invalid)
      (hc : c = firstByte fin (typeCode t)) :
      s.message_frame.application_data_offset = 0 := by
    have hcode := typeCode_mem ht
    have hlow := (firstByte_spec fin (typeCode t)
      (by rcases hcode with h | h <;> rw [h] <;> decide)).2.2.2.2
    exact hsound (by rw [hc, hlow]; exact hcode)
  cases hsends with
  | none => cases hstream
  | @control _ frames _ ping p hshort h =>
      obtain ⟨rfl, hrest⟩ := List.cons.inj (hstream.trans (encode_cons _ _))
      exact start_control hshort hready (fun f hf => hlimited f (List.mem_cons_of_mem _ hf))
        (hlimited _ List.mem_cons_self) hcarries h hrest
  | @first t frames _ p ht h =>
      obtain ⟨hc, hrest⟩ := List.cons.inj (hstream.trans (encode_cons _ _))
      cases hcarries with
      | none hfin =>
          rw [show c = firstByte false (typeCode t) from hc]
          exact start_first ht hready (fun f hf => hlimited f (List.mem_cons_of_mem _ hf))
            (hlimited _ List.mem_cons_self) hfin (hoffset ht hc) h hrest
  | @whole t frames due p ht h =>
      obtain ⟨hc, hrest⟩ := List.cons.inj (hstream.trans (encode_cons _ _))
      cases hcarries with
      | none hfin =>
          rw [show c = firstByte true (typeCode t) from hc]
          exact start_first ht hready (fun f hf => hlimited f (List.mem_cons_of_mem _ hf))
            (hlimited _ List.mem_cons_self) hfin (hoffset ht hc) ⟨due, rfl, h⟩ hrest
  | @next t x frames _ p h =>
      obtain ⟨rfl, hrest⟩ := List.cons.inj (hstream.trans (encode_cons _ _))
      cases hcarries with
      | some hfin ht hopcode hloaded =>
          exact start_next ht hready (fun f hf => hlimited f (List.mem_cons_of_mem _ hf))
            (hlimited _ List.mem_cons_self) hfin hopcode hloaded h hrest
  | @last t x frames due p h =>
      obtain ⟨rfl, hrest⟩ := List.cons.inj (hstream.trans (encode_cons _ _))
      cases hcarries with
      | some hfin ht hopcode hloaded =>
          exact start_next ht hready (fun f hf => hlimited f (List.mem_cons_of_mem _ hf))
            (hlimited _ List.mem_cons_self) hfin hopcode hloaded ⟨due, rfl, h⟩ hrest

theorem payloadLength_keeps {c : UInt8} {p : Payload} {rest : List Frame} (hready : Ready s.call)
    (hlimited : Limited s rest) (hserves : UnderWay s due p.data rest)
    (hshort : 8 ≤ s.call.opcode → p.form = .short) (hsize : p.data.length ≤ s.max_message_size)
    (hstream : (c :: block) ++ s.socket = lengthByte p.form p.data.length ::
      (extension p.form p.data.length ++ (p.masked ++ encode rest))) :
    Keeps due .turn (some (s.payloadLength c block)) := by
  obtain ⟨rfl, hrest⟩ := List.cons.inj hstream
  obtain ⟨hmasking, hlow⟩ := lengthByte_spec p
  have hfits := p.length_fits
  have hlength := extension_value p
  have hpayload : s.payloadLength (lengthByte p.form p.data.length) block =
      (.quiet, { s with
        rbuffer := block
        call := { s.call with
          framing_state := .payloadLengthExt
          masking := true
          payload_length := if p.form = .short then p.data.length else 0
          payload_length_bytes_remaining := (extension p.form p.data.length).length } }) := by
    simp only [payloadLength, hmasking, hlow]
    cases hform : p.form with
    | short =>
        rw [hform] at hfits
        dsimp only at hfits
        simp only [hfits.ne, show p.data.length ≠ 127 by omega, extension, List.length_nil,
          decide_true, not_true, ne_eq, and_false, or_self, if_false, if_true]
    | extended16 =>
        have hdata : ¬ 8 ≤ s.call.opcode := fun h => by cases hform.symm.trans (hshort h)
        simp only [hdata, extension, List.length_cons, List.length_nil, decide_true, not_true,
          false_and, or_self, reduceCtorEq, if_false, if_true]
    | extended64 =>
        have hdata : ¬ 8 ≤ s.call.opcode := fun h => by cases hform.symm.trans (hshort h)
        simp only [hdata, extension, List.length_cons, List.length_nil, decide_true, not_true,
          false_and, or_self, reduceCtorEq, Nat.succ_ne_self, if_false,
          if_true]
  refine ⟨_, _, congrArg some hpayload, trivial, ?_⟩
  exact .payloadLengthExt rfl ⟨hready.index, hready.mask⟩ hlimited hserves hsize rfl hlength rfl
    hrest

theorem payloadLengthExt_keeps {p : Payload} {rest : List Frame} {e : Bytes}
    (hstate : s.call.framing_state = .payloadLengthExt) (hready : Ready s.call)
    (hlimited : Limited s rest) (hserves : UnderWay s due p.data rest)
    (hsize : p.data.length ≤ s.max_message_size) (hmasking : s.call.masking = true)
    (hlength : e.foldl lengthDigit s.call.payload_length = p.data.length)
    (hremaining : s.call.payload_length_bytes_remaining = e.length)
    (hstream : s.rbuffer ++ s.socket = e ++ (p.masked ++ encode rest)) :
    Keeps due .turn (some s.payloadLengthExt) := by
  have hlt := length_lt p
  obtain ⟨taken, htaken⟩ : ∃ taken, taken = s.rbuffer.take e.length := ⟨_, rfl⟩
  have hle : taken.length ≤ s.rbuffer.length := by rw [htaken, List.length_take]; omega
  have hle' : taken.length ≤ e.length := by rw [htaken, List.length_take]; omega
  obtain ⟨htake, hdrop⟩ := take_eq_take hstream hle hle'
  have hsame : s.rbuffer.take taken.length = taken := by
    rw [htaken, List.length_take, ← List.take_eq_take_min]
  rw [hsame] at htake
  have hfold : (e.drop taken.length).foldl lengthDigit
      (taken.foldl lengthDigit s.call.payload_length) = p.data.length := by
    conv at hlength => lhs; rw [← List.take_append_drop taken.length e, List.foldl_append, ← htake]
    exact hlength
  by_cases hdone : e.length - taken.length = 0
  · have hall : e.drop taken.length = [] := List.drop_eq_nil_of_le (by omega)
    rw [hall] at hfold hdrop
    have hext : s.payloadLengthExt =
        (.quiet, { s with
          rbuffer := s.rbuffer.drop taken.length
          call := { s.call with framing_state := .mask
                                payload_length := p.data.length
                                payload_length_bytes_remaining := e.length - taken.length } }) := by
      simp only [payloadLengthExt, hremaining, ← htaken, hmasking, hdone]
      rw [show taken.foldl lengthDigit s.call.payload_length = p.data.length from hfold]
      rw [if_pos trivial, if_neg (by omega), if_pos trivial]
    refine ⟨_, _, congrArg some hext, trivial, ?_⟩
    refine .mask (p := p) rfl ?_ hready.mask hlimited hserves hmasking rfl ?_ ?_
    · rw [hready.index]
      decide
    · rw [hready.index, List.take_zero, List.take_zero]
    · rw [hready.index, List.drop_zero, ← List.append_assoc]
      exact hdrop
  · have hext : s.payloadLengthExt =
        (.quiet, { s with
          rbuffer := s.rbuffer.drop taken.length
          call := { s.call with payload_length := taken.foldl lengthDigit s.call.payload_length
                                payload_length_bytes_remaining := e.length - taken.length } }) := by
      simp only [payloadLengthExt, hremaining, ← htaken, hdone, if_false]
    refine ⟨_, _, congrArg some hext, trivial, ?_⟩
    exact .payloadLengthExt hstate ⟨hready.index, hready.mask⟩ hlimited hserves hsize hmasking hfold
      List.length_drop.symm hdrop

/-! ### The payload -/

theorem Loaded.transfer {m : WebSocketFrameData} {mem mem' : Mem} {t : MessageType} {x : Bytes}
    (h : Loaded m mem t x) (hagree : Agree mem mem' 0 x.length) : Loaded m mem' t x :=
  ⟨h.offset, hagree.read_eq ▸ h.bytes, h.state⟩

theorem reserve_agree {b : Wbuffer} {n k : Nat} (h : b.capacity < n → k ≤ b.length) :
    Agree b.bytes (b.reserve n).bytes 0 k := by
  rintro i - hi
  rw [Wbuffer.reserve]
  split
  · rfl
  · exact (if_pos (by have := h (by omega); omega)).symm

/-- Where the buffer grows as it should, the message in it stays. -/
theorem UnderWay.extensionData {q : Bytes} {rest : List Frame} (h : UnderWay s due q rest)
    (hgrows : GrowsSafely s) : UnderWay s.extensionData due q rest := by
  have hagree : Agree s.wbuffer.bytes s.extensionData.wbuffer.bytes 0 (underWay s) := by
    simp only [UWebSocket.extensionData]
    split
    · rename_i hpos
      exact reserve_agree (hgrows hpos).2
    · exact fun _ _ _ => rfl
  cases h with
  | control hframe hopcode hcarries hsends =>
      refine .control hframe hopcode ?_ hsends
      cases hcarries with
      | none hfin => exact .none hfin
      | some hfin ht hcode hloaded =>
          refine .some hfin ht hcode (hloaded.transfer ?_)
          rwa [underWay, if_pos (.inr (by rw [hfin]; decide)), hloaded.offset] at hagree
  | data hframe ht hopcode hfin hm hloaded hsends =>
      refine .data hframe ht hopcode hfin hm (hloaded.transfer ?_) hsends
      rwa [underWay, if_pos (.inl hframe), hloaded.offset] at hagree

/-- The state in which what there is of a payload has been stored. -/
def stored (s : UWebSocket) : UWebSocket :=
  let n := min s.call.payload_length s.rbuffer.length
  let data := plain s.call (s.rbuffer.take n)
  { s with
    wbuffer := { s.wbuffer with
      bytes := write s.wbuffer.bytes s.frame.application_data_offset data }
    rbuffer := s.rbuffer.drop n
    call := { s.call with payload_length := s.call.payload_length - n
                          mask_offset := s.call.mask_offset + n } }.setFrame
      (if s.call.opcode = 1 then
        { s.frame with utf8_state := (checkText s.frame.utf8_state data).1 }
      else s.frame)

theorem frame_setFrame (s : UWebSocket) (frame : WebSocketFrameData) :
    (s.setFrame frame).frame = frame := by
  simp only [UWebSocket.setFrame]
  cases hframe : s.call.frame <;> simp only [UWebSocket.frame, hframe]

theorem applicationData_eq {n : Nat} (hn : n = min s.call.payload_length s.rbuffer.length)
    (haccepted : s.call.opcode = 1 →
      (checkText s.frame.utf8_state (plain s.call (s.rbuffer.take n))).1 ≠ 1) :
    s.applicationData =
      if s.call.payload_length - n = 0 then
        (stored s).endOfFrame (s.frame.application_data_offset + n)
      else
        (.quiet, (stored s).setFrame
          { (stored s).frame with
            application_data_offset := s.frame.application_data_offset + n }) := by
  obtain ⟨data, hdata⟩ : ∃ data, data = plain s.call (s.rbuffer.take n) := ⟨_, rfl⟩
  have hlength : data.length = n := by
    rw [hdata, length_plain, List.length_take]
    omega
  rw [← hdata] at haccepted
  have hrefused : decide (s.call.opcode = 1 ∧ (checkText s.frame.utf8_state data).1 = 1) = false :=
    decide_eq_false fun h => haccepted h.1 h.2
  have hplain : (if s.call.masking then unmask s.call.mask s.call.mask_offset (s.rbuffer.take n)
      else s.rbuffer.take n) = data := hdata.symm
  simp only [UWebSocket.applicationData, stored, frame_setFrame, ← hn, hplain, ← hdata, hrefused,
    Bool.false_eq_true, false_and, if_false, hlength]
  by_cases hopcode : s.call.opcode = 1
  · simp only [hopcode, if_true]
  · simp only [hopcode, if_false]

theorem endOfFrame_control (due : Due) (offset : Nat) (hframe : s.call.frame = .control)
    (hopcode : s.call.opcode = 9 ∨ s.call.opcode = 10) :
    ∃ r, s.endOfFrame offset =
        (r, { s with control_frame := { s.control_frame with application_data_offset := 0 }
                     call := { s.call with framing_state := .start } }) ∧
      allowed due .turn r ∧ next due .turn r = due := by
  have hnext : s.setFrame { s.frame with application_data_offset := 0 } =
      { s with control_frame := { s.control_frame with application_data_offset := 0 } } := by
    simp only [UWebSocket.setFrame, UWebSocket.frame, hframe]
  rcases hopcode with hopcode | hopcode
  · refine ⟨.pong (read s.wbuffer.bytes 0 offset), ?_, trivial, rfl⟩
    simp only [endOfFrame, hopcode, hnext, OfNat.ofNat_ne_one, if_false, if_true,
      Nat.reduceEqDiff]
  · refine ⟨.quiet, ?_, trivial, rfl⟩
    simp only [endOfFrame, hopcode, hnext, OfNat.ofNat_ne_one, if_false, if_true,
      Nat.reduceEqDiff]

theorem endOfFrame_message {offset : Nat} {t : MessageType} (hframe : s.call.frame = .message)
    (ht : t ≠ .invalid) (hopcode : s.call.opcode = typeCode t)
    (htext : t = .text → s.message_frame.utf8_state ≠ 1 ∧
      (s.call.fin → s.message_frame.utf8_state = 0)) :
    s.endOfFrame offset =
      if s.call.fin then
        (.delivered t (read s.wbuffer.bytes 0 offset),
          { s with wbuffer := { s.wbuffer with length := offset }, rbuffer := []
                   call := Framing.init })
      else
        (.quiet, { s with
          message_frame := { s.message_frame with application_data_offset := offset }
          call := { s.call with framing_state := .start } }) := by
  have hget : s.frame = s.message_frame := by simp only [UWebSocket.frame, hframe]
  have hset (f : WebSocketFrameData) : s.setFrame f = { s with message_frame := f } := by
    simp only [UWebSocket.setFrame, hframe]
  cases t with
  | text =>
      obtain ⟨hne, hzero⟩ := htext rfl
      have hok : ¬ ((s.call.fin ∧ s.message_frame.utf8_state ≠ 0) ∨
          s.message_frame.utf8_state = 1) := by
        rintro (⟨hfin, h⟩ | h)
        · exact h (hzero hfin)
        · exact hne h
      simp only [endOfFrame, hopcode, typeCode, hget, hset, hok, if_true, if_false]
  | binary =>
      simp only [endOfFrame, hopcode, typeCode, hget, hset, OfNat.ofNat_ne_one, if_true, if_false]
  | invalid => exact absurd rfl ht

/-- What is under way is in a message that is due. -/
theorem mem_due {t : MessageType} {x : Bytes} {rest : List Frame}
    (h : Sends (some (t, x)) rest due) :
    ∃ y, (t, x ++ y) ∈ due := by
  generalize hu : some (t, x) = u at h
  induction h generalizing x with
  | none => cases hu
  | control _ ih => exact ih hu
  | first _ _ _ => cases hu
  | whole _ _ _ => cases hu
  | next h ih =>
      cases hu
      obtain ⟨y, hy⟩ := ih rfl
      exact ⟨_, by rwa [← List.append_assoc]⟩
  | last h _ =>
      cases hu
      exact ⟨_, List.mem_cons_self⟩

theorem SendsAfter.mem_due {fin : Bool} {t : MessageType} {x : Bytes} {rest : List Frame}
    (h : SendsAfter fin t x rest due) : ∃ y, (t, x ++ y) ∈ due := by
  cases fin with
  | true =>
      obtain ⟨due', rfl, -⟩ := h
      exact ⟨[], by rw [List.append_nil]; exact List.mem_cons_self⟩
  | false => exact WebSocketDelivery.mem_due h

/-- The part of a text that is there is not refused. -/
theorem checkText_due {fin : Bool} {x y : Bytes} {rest : List Frame}
    (h : SendsAfter fin .text (x ++ y) rest due) (haccepted : TextsAccepted due) :
    (checkText 0 x).1 ≠ 1 ∧ (checkText (checkText 0 x).1 y).1 ≠ 1 := by
  obtain ⟨z, hz⟩ := h.mem_due
  have hall : (checkText 0 (x ++ (y ++ z))).1 ≠ 1 := by
    rw [← List.append_assoc, haccepted _ hz]
    decide
  have hx := checkText_of_append (by decide) hall
  rw [checkText_append _ hx] at hall
  exact ⟨hx, checkText_of_append hx hall⟩

/-- A message of which nothing is in the buffer stays what is written over it. -/
theorem Carries.write {m : WebSocketFrameData} {mem : Mem} {u : Option (MessageType × Bytes)}
    {offset : Nat} {data : Bytes} (h : Carries m mem u)
    (hkeeps : data ≠ [] → m.fin = false → m.application_data_offset = 0) :
    Carries m (ByteMemory.write mem offset data) u := by
  cases h with
  | none hfin => exact .none hfin
  | @some t x hfin ht hopcode hloaded =>
      refine .some hfin ht hopcode (hloaded.transfer ?_)
      rintro i - hi
      cases data with
      | nil => exact (if_neg (by rw [List.length_nil]; omega)).symm
      | cons c data =>
          rw [← hloaded.offset, hkeeps (List.cons_ne_nil c data) hfin] at hi
          omega

theorem control_keeps {d : Bytes} {u : Option (MessageType × Bytes)} {rest : List Frame}
    (hstate : s.call.framing_state = .applicationData) (hready : Ready s.call)
    (hlimited : Limited s rest) (hframe : s.call.frame = .control)
    (hopcode : s.call.opcode = 9 ∨ s.call.opcode = 10)
    (hcarries : Carries s.message_frame s.wbuffer.bytes u) (hsends : Sends u rest due)
    (hlength : s.call.payload_length = d.length)
    (hstream : s.rbuffer ++ s.socket = d ++ encode rest)
    (hwrites : WritesSafely s) : Keeps due .turn (some s.applicationData) := by
  obtain ⟨n, hn⟩ : ∃ n, n = min s.call.payload_length s.rbuffer.length := ⟨_, rfl⟩
  have hne : s.call.opcode ≠ 1 := by omega
  obtain ⟨-, hdrop⟩ := take_eq_take (n := n) hstream (by omega) (by omega)
  have hstored : stored s =
      { s with
        wbuffer := { s.wbuffer with
          bytes := write s.wbuffer.bytes s.control_frame.application_data_offset
            (plain s.call (s.rbuffer.take n)) }
        rbuffer := s.rbuffer.drop n
        call := { s.call with payload_length := s.call.payload_length - n
                              mask_offset := s.call.mask_offset + n } } := by
    simp only [stored, UWebSocket.setFrame, UWebSocket.frame, hframe, hne, ← hn, if_false]
  have hcarries' : Carries (stored s).message_frame (stored s).wbuffer.bytes u := by
    rw [hstored]
    refine hcarries.write fun hdata hfin => hwrites.1 hframe ?_ (by rw [hfin]; decide)
    have hpos := List.length_pos_iff.mpr hdata
    rw [length_plain, List.length_take] at hpos
    omega
  rw [applicationData_eq hn fun h => absurd h hne]
  split
  · rename_i hdone
    have hall : d.drop n = [] := List.drop_eq_nil_of_le (by omega)
    rw [hall] at hdrop
    obtain ⟨r, hend, hallowed, hnext⟩ := endOfFrame_control (s := stored s) due
      (s.frame.application_data_offset + n) (by rw [hstored]; exact hframe)
      (by rw [hstored]; exact hopcode)
    refine ⟨r, _, congrArg some hend, hallowed, ?_⟩
    rw [hnext]
    rw [hstored] at hcarries' ⊢
    exact .start rfl ⟨hready.index, hready.mask⟩ hlimited hcarries' hsends hdrop
  · rename_i hmore
    refine ⟨_, _, rfl, trivial, ?_⟩
    rw [hstored] at hcarries' ⊢
    simp only [UWebSocket.setFrame, hframe]
    refine .applicationData (d := d.drop n) hstate ⟨hready.index, hready.mask⟩ hlimited
      (.control rfl hopcode hcarries' hsends) (fun h => ?_) ?_ hdrop
    · have := List.drop_eq_nil_iff.mp h
      omega
    · rw [List.length_drop, ← hlength]

theorem Loaded.append {m m' : WebSocketFrameData} {mem : Mem} {t : MessageType} {x data : Bytes}
    (h : Loaded m mem t x) (hoffset : m'.application_data_offset = x.length + data.length)
    (hstate : t = .text → m'.utf8_state = (checkText 0 (x ++ data)).1) :
    Loaded m' (write mem x.length data) t (x ++ data) := by
  refine ⟨by rw [hoffset, List.length_append], ?_, hstate⟩
  have hread := read_append (write mem x.length data) 0 x.length data.length
  rw [Nat.zero_add, read_write_same, read_write_apart _ _ (.inr (Nat.zero_add _).le), h.bytes]
    at hread
  rw [List.length_append, hread]

theorem message_end {offset : Nat} {t : MessageType} {x : Bytes} {rest : List Frame}
    (hready : Ready s.call) (hlimited : Limited s rest) (hframe : s.call.frame = .message)
    (ht : t ≠ .invalid) (hopcode : s.call.opcode = typeCode t)
    (hfin : s.message_frame.fin = s.call.fin) (hm : s.message_frame.opcode = typeCode t)
    (hloaded : Loaded { s.message_frame with application_data_offset := offset }
      s.wbuffer.bytes t x)
    (hsends : SendsAfter s.call.fin t x rest due) (hstream : s.rbuffer ++ s.socket = encode rest)
    (hempty : s.call.fin → s.rbuffer = []) (haccepted : TextsAccepted due) :
    Keeps due .turn (some (s.endOfFrame offset)) := by
  have hoffset : offset = x.length := hloaded.offset
  have htext : t = .text → s.message_frame.utf8_state ≠ 1 ∧
      (s.call.fin → s.message_frame.utf8_state = 0) := by
    rintro rfl
    have hstate : s.message_frame.utf8_state = (checkText 0 x).1 := hloaded.state rfl
    have hx := checkText_due (y := []) (by rwa [List.append_nil]) haccepted
    refine ⟨by rw [hstate]; exact hx.1, fun hlast => ?_⟩
    rw [hlast] at hsends
    obtain ⟨due', rfl, -⟩ := hsends
    rw [hstate]
    exact haccepted x List.mem_cons_self
  rw [endOfFrame_message hframe ht hopcode htext]
  cases hlast : s.call.fin with
  | true =>
      rw [hlast] at hsends hfin
      obtain ⟨due', rfl, hsends⟩ := hsends
      refine ⟨_, _, rfl, ?_, ?_⟩
      · show some (t, x) = some (t, read s.wbuffer.bytes 0 offset)
        rw [hoffset, hloaded.bytes]
      · rw [hempty hlast] at hstream
        exact .start rfl ⟨rfl, rfl⟩ hlimited (.none hfin) hsends hstream
  | false =>
      rw [hlast] at hsends hfin
      refine ⟨_, _, rfl, trivial, ?_⟩
      exact .start rfl ⟨hready.index, hready.mask⟩ hlimited (.some hfin ht hm hloaded) hsends
        hstream

theorem message_keeps {d x : Bytes} {t : MessageType} {rest : List Frame}
    (hstate : s.call.framing_state = .applicationData) (hready : Ready s.call)
    (hlimited : Limited s rest) (hframe : s.call.frame = .message) (ht : t ≠ .invalid)
    (hopcode : s.call.opcode = typeCode t) (hfin : s.message_frame.fin = s.call.fin)
    (hm : s.message_frame.opcode = typeCode t)
    (hloaded : Loaded s.message_frame s.wbuffer.bytes t x)
    (hsends : SendsAfter s.call.fin t (x ++ plain s.call d) rest due)
    (hlength : s.call.payload_length = d.length)
    (hstream : s.rbuffer ++ s.socket = d ++ encode rest)
    (hwrites : WritesSafely s) (haccepted : TextsAccepted due) :
    Keeps due .turn (some s.applicationData) := by
  obtain ⟨n, hn⟩ : ∃ n, n = min s.call.payload_length s.rbuffer.length := ⟨_, rfl⟩
  obtain ⟨htake, hdrop⟩ := take_eq_take (n := n) hstream (by omega) (by omega)
  obtain ⟨data, hdata⟩ : ∃ data, data = plain s.call (s.rbuffer.take n) := ⟨_, rfl⟩
  have hlength_data : data.length = n := by
    rw [hdata, length_plain, List.length_take]
    omega
  have hplain : plain s.call d =
      data ++ plain { s.call with mask_offset := s.call.mask_offset + n } (d.drop n) := by
    conv => lhs; rw [← List.take_append_drop n d, plain_append, ← htake, ← hdata]
    rw [List.length_take, Nat.min_eq_left (by omega)]
  have htext : t = .text → s.message_frame.utf8_state = (checkText 0 x).1 ∧
      (checkText 0 (x ++ data)).1 = (checkText s.message_frame.utf8_state data).1 ∧
      (checkText s.message_frame.utf8_state data).1 ≠ 1 := by
    rintro rfl
    obtain ⟨hx, hall⟩ := checkText_due hsends haccepted
    rw [hloaded.state rfl, checkText_append data hx]
    rw [hplain] at hall
    exact ⟨rfl, rfl, checkText_of_append hx hall⟩
  have hone : s.call.opcode = 1 → t = .text := by
    rw [hopcode]
    cases t with
    | text => exact fun _ => rfl
    | binary => exact fun h => by cases h
    | invalid => exact absurd rfl ht
  have hget : s.frame = s.message_frame := by simp only [UWebSocket.frame, hframe]
  obtain ⟨m, hm'⟩ : ∃ m, m = if s.call.opcode = 1 then { s.message_frame with
      utf8_state := (checkText s.message_frame.utf8_state data).1 } else s.message_frame := ⟨_, rfl⟩
  have hstored : stored s =
      { s with
        message_frame := m
        wbuffer := { s.wbuffer with
          bytes := write s.wbuffer.bytes s.message_frame.application_data_offset data }
        rbuffer := s.rbuffer.drop n
        call := { s.call with payload_length := s.call.payload_length - n
                              mask_offset := s.call.mask_offset + n } } := by
    simp only [stored, UWebSocket.setFrame, hget, hframe, ← hn, ← hdata, hm']
  have hfields : m.fin = s.call.fin ∧ m.opcode = typeCode t ∧
      (t = .text → m.utf8_state = (checkText 0 (x ++ data)).1) := by
    rw [hm']
    split
    · exact ⟨hfin, hm, fun h => (htext h).2.1.symm⟩
    · rename_i hne
      refine ⟨hfin, hm, fun h => absurd ?_ hne⟩
      rw [hopcode, h]
      rfl
  obtain ⟨hmfin, hmcode, hmstate⟩ := hfields
  have hloaded' : Loaded { m with application_data_offset := x.length + n }
      (write s.wbuffer.bytes s.message_frame.application_data_offset data) t (x ++ data) := by
    rw [hloaded.offset]
    exact hloaded.append (by rw [hlength_data]) hmstate
  rw [hplain, ← List.append_assoc] at hsends
  rw [applicationData_eq hn (by rw [hget, ← hdata]; exact fun h => (htext (hone h)).2.2), hget,
    hloaded.offset, hstored]
  split
  · rename_i hdone
    have hall : d.drop n = [] := List.drop_eq_nil_of_le (by omega)
    rw [hall] at hdrop hsends
    refine message_end ⟨hready.index, hready.mask⟩ hlimited hframe ht hopcode hmfin hmcode hloaded'
      ?_ hdrop ?_ haccepted
    · rwa [show plain _ [] = [] from List.length_eq_zero_iff.mp (length_plain _ []),
        List.append_nil] at hsends
    · exact fun hlast => hn ▸ hwrites.2 hframe hlast (by omega)
  · rename_i hmore
    refine ⟨_, _, rfl, trivial, ?_⟩
    simp only [UWebSocket.setFrame, UWebSocket.frame, hframe]
    refine .applicationData (d := d.drop n) hstate ⟨hready.index, hready.mask⟩ hlimited
      (.data rfl ht hopcode hmfin hmcode hloaded' hsends) (fun h => ?_) ?_ hdrop
    · have := List.drop_eq_nil_iff.mp h
      omega
    · rw [List.length_drop, ← hlength]

theorem applicationData_keeps {d : Bytes} {rest : List Frame}
    (hstate : s.call.framing_state = .applicationData) (hready : Ready s.call)
    (hlimited : Limited s rest) (hserves : UnderWay s due (plain s.call d) rest)
    (hlength : s.call.payload_length = d.length)
    (hstream : s.rbuffer ++ s.socket = d ++ encode rest)
    (hwrites : WritesSafely s) (haccepted : TextsAccepted due) :
    Keeps due .turn (some s.applicationData) := by
  cases hserves with
  | control hframe hopcode hcarries hsends =>
      exact control_keeps hstate hready hlimited hframe hopcode hcarries hsends hlength hstream
        hwrites
  | data hframe ht hopcode hfin hm hloaded hsends =>
      exact message_keeps hstate hready hlimited hframe ht hopcode hfin hm hloaded hsends hlength
        hstream hwrites haccepted

theorem plain_maskDone (hmasking : s.call.masking = true) (d : Bytes) :
    plain s.maskDone.call d = unmask s.call.mask 0 d := by
  rw [maskDone]
  split
  · rename_i hzero
    rw [hzero, unmask_zero]
    rfl
  · exact if_pos hmasking

theorem mask_keeps {p : Payload} {rest : List Frame} (hstate : s.call.framing_state = .mask)
    (hindex : s.call.mask_index < 4) (hlength_mask : s.call.mask.length = 4)
    (hlimited : Limited s rest) (hserves : UnderWay s due p.data rest)
    (hmasking : s.call.masking = true) (hlength : s.call.payload_length = p.data.length)
    (hmask : s.call.mask.take s.call.mask_index = p.mask.take s.call.mask_index)
    (hstream : s.rbuffer ++ s.socket =
      p.mask.drop s.call.mask_index ++ (unmask p.mask 0 p.data ++ encode rest))
    (hsound : s.takeMask.call.mask_index = 4 →
      GrowsSafely s.takeMask.maskDone ∧ WritesSafely s.takeMask.maskDone.extensionData)
    (haccepted : TextsAccepted due) : Keeps due .turn (some s.mask) := by
  have hlength_p := p.mask_length
  obtain ⟨taken, htaken⟩ : ∃ taken, taken = s.rbuffer.take (4 - s.call.mask_index) := ⟨_, rfl⟩
  have hle : taken.length ≤ s.rbuffer.length := by rw [htaken, List.length_take]; omega
  have hle' : taken.length ≤ (p.mask.drop s.call.mask_index).length := by
    rw [htaken, List.length_take, List.length_drop]
    omega
  obtain ⟨htake, hdrop⟩ := take_eq_take hstream hle hle'
  rw [List.length_drop] at hle'
  have hsame : s.rbuffer.take taken.length = taken := by
    rw [htaken, List.length_take, ← List.take_eq_take_min]
  rw [hsame] at htake
  rw [List.drop_drop] at hdrop
  have hfront : s.call.mask.take s.call.mask_index ++ taken =
      p.mask.take (s.call.mask_index + taken.length) := by
    rw [hmask, List.take_add, ← htake]
  have htakeMask : s.takeMask =
      { s with
        rbuffer := s.rbuffer.drop taken.length
        call := { s.call with
          mask := p.mask.take (s.call.mask_index + taken.length) ++
            s.call.mask.drop (s.call.mask_index + taken.length)
          mask_index := s.call.mask_index + taken.length } } := by
    simp only [takeMask, ← htaken, hfront]
  rw [UWebSocket.mask]
  split
  · rename_i hmore
    rw [htakeMask] at hmore ⊢
    refine ⟨_, _, rfl, trivial, ?_⟩
    refine .mask hstate (by dsimp only at hmore ⊢; omega) ?_ hlimited hserves hmasking hlength ?_
      hdrop
    · simp only [List.length_append, List.length_take, List.length_drop]
      omega
    · refine List.take_left' ?_
      rw [List.length_take]
      dsimp only
      omega
  · rename_i hdone
    rw [not_not] at hdone
    obtain ⟨hgrows, hwrites⟩ := hsound hdone
    have hfull : s.call.mask_index + taken.length = 4 := by
      rw [htakeMask] at hdone
      exact hdone
    rw [hfull] at hdrop htakeMask
    have hmask' : s.takeMask.call.mask = p.mask := by
      rw [htakeMask]
      dsimp only
      rw [List.take_of_length_le hlength_p.le, List.drop_eq_nil_of_le hlength_mask.le,
        List.append_nil]
    have hserves' : UnderWay s.takeMask due p.data rest := by rwa [htakeMask]
    have hplain := plain_maskDone (s := s.takeMask) (by rwa [htakeMask]) (unmask p.mask 0 p.data)
    rw [hmask', unmask_unmask] at hplain
    have hlimited' : Limited s.takeMask.maskDone.extensionData rest := by
      rw [htakeMask]
      exact hlimited
    have hstream' : s.takeMask.maskDone.extensionData.rbuffer ++
        s.takeMask.maskDone.extensionData.socket = unmask p.mask 0 p.data ++ encode rest := by
      rw [List.drop_eq_nil_of_le hlength_p.le] at hdrop
      rw [htakeMask]
      exact hdrop
    have hserves'' : UnderWay s.takeMask.maskDone.extensionData due
        (plain s.takeMask.maskDone.extensionData.call (unmask p.mask 0 p.data)) rest :=
      UnderWay.extensionData (hplain.symm ▸ hserves') hgrows
    refine applicationData_keeps rfl ⟨rfl, ?_⟩ hlimited' hserves'' ?_ hstream' hwrites haccepted
    · exact (congrArg List.length hmask').trans hlength_p
    · rw [length_unmask, ← hlength, htakeMask]
      rfl

/-- It does not matter where the reads cut the stream. -/
theorem Ahead.read {rbuffer socket : Bytes} (h : Ahead s due)
    (hsame : rbuffer ++ socket = s.rbuffer ++ s.socket) : Ahead { s with rbuffer, socket } due := by
  cases h with
  | start hstate hready hlimited hcarries hsends hstream =>
      exact .start hstate hready hlimited hcarries hsends (hsame.trans hstream)
  | payloadLength hstate hready hlimited hserves hshort hsize hstream =>
      exact .payloadLength hstate hready hlimited hserves hshort hsize (hsame.trans hstream)
  | payloadLengthExt hstate hready hlimited hserves hsize hmasking hlength hremaining hstream =>
      exact .payloadLengthExt hstate hready hlimited hserves hsize hmasking hlength hremaining
        (hsame.trans hstream)
  | mask hstate hindex hlength_mask hlimited hserves hmasking hlength hmask hstream =>
      exact .mask hstate hindex hlength_mask hlimited hserves hmasking hlength hmask
        (hsame.trans hstream)
  | applicationData hstate hready hlimited hserves hne hlength hstream =>
      exact .applicationData hstate hready hlimited hserves hne hlength (hsame.trans hstream)

theorem step_keeps {i : Action} (haccepted : TextsAccepted due) (hahead : Ahead s due)
    (hpermitted : Permitted s i) (hsound : Sound s i) : Keeps due i (s.step i) := by
  cases i with
  | read n =>
      rw [Permitted, UWebSocket.step] at hpermitted
      rw [UWebSocket.step]
      split
      · rename_i hread
        refine ⟨_, _, rfl, trivial, hahead.read ?_⟩
        rw [hread.1, List.take_append_drop, List.nil_append]
      · rename_i hnot
        rw [if_neg hnot] at hpermitted
        cases hpermitted
  | turn =>
      obtain ⟨c, block, hrbuffer⟩ : ∃ c block, s.rbuffer = c :: block := by
        rw [Permitted, UWebSocket.step, UWebSocket.turn] at hpermitted
        cases hrbuffer : s.rbuffer with
        | nil =>
            rw [hrbuffer] at hpermitted
            cases hpermitted
        | cons c block => exact ⟨c, block, rfl⟩
      rw [UWebSocket.step, UWebSocket.turn, hrbuffer]
      dsimp only
      cases hahead with
      | start hstate hready hlimited hcarries hsends hstream =>
          rw [hstate]
          simp only [Sound, hstate, hrbuffer, List.head?_cons, Option.mem_some_iff,
            forall_eq'] at hsound
          rw [hrbuffer] at hstream
          exact start_keeps hready hlimited hcarries hsends hstream hsound
      | payloadLength hstate hready hlimited hserves hshort hsize hstream =>
          rw [hstate]
          rw [hrbuffer] at hstream
          exact payloadLength_keeps hready hlimited hserves hshort hsize hstream
      | payloadLengthExt hstate hready hlimited hserves hsize hmasking hlength hremaining hstream =>
          rw [hstate]
          exact payloadLengthExt_keeps hstate hready hlimited hserves hsize hmasking hlength
            hremaining hstream
      | mask hstate hindex hlength_mask hlimited hserves hmasking hlength hmask hstream =>
          rw [hstate]
          simp only [Sound, hstate] at hsound
          exact mask_keeps hstate hindex hlength_mask hlimited hserves hmasking hlength hmask
            hstream
            hsound haccepted
      | applicationData hstate hready hlimited hserves hne hlength hstream =>
          rw [hstate]
          simp only [Sound, hstate] at hsound
          exact applicationData_keeps hstate hready hlimited hserves hlength hstream hsound
            haccepted

theorem TextsAccepted.next {i : Action} {r : Reply} (h : TextsAccepted due) :
    TextsAccepted (next due i r) := by
  intro x hx
  cases r with
  | delivered t y => exact h x (List.mem_of_mem_tail hx)
  | quiet => exact h x hx
  | pong data => exact h x hx
  | closed status_code => exact h x hx

/-- What the invariant says where no byte is left. -/
theorem Ahead.represents (h : Ahead s due) : Represents s due := by
  intro hrbuffer hsocket
  cases h with
  | @start u rest _ _ _ _ hsends hstream =>
      rw [hrbuffer, hsocket] at hstream
      cases rest with
      | nil =>
          cases hsends
          rfl
      | cons f rest =>
          rw [encode_cons] at hstream
          cases hstream
  | payloadLength _ _ _ _ _ _ hstream =>
      rw [hrbuffer, hsocket] at hstream
      cases hstream
  | @payloadLengthExt p rest e _ _ _ _ _ _ _ _ hstream =>
      rw [hrbuffer, hsocket] at hstream
      have hlength := congrArg List.length hstream
      simp only [Payload.masked, List.length_append, List.length_nil, p.mask_length] at hlength
      omega
  | @mask p rest _ hindex _ _ _ _ _ _ hstream =>
      rw [hrbuffer, hsocket] at hstream
      have hlength := congrArg List.length hstream
      simp only [List.length_append, List.length_nil, List.length_drop, p.mask_length] at hlength
      omega
  | applicationData _ _ _ _ hne _ hstream =>
      rw [hrbuffer, hsocket] at hstream
      exact absurd (List.append_eq_nil_iff.mp hstream.symm).1 hne

end Steps

/-- Before the first message, with all that the client sends to come. -/
def initial (max_message_size : Nat) (wbuffer : Wbuffer) (socket : Bytes) : UWebSocket where
  control_frame := ⟨0, true, 8, 0⟩
  message_frame := ⟨0, true, 0, 0⟩
  max_message_size := max_message_size
  wbuffer := wbuffer
  rbuffer := []
  socket := socket
  call := Framing.init

/-- Exactly the messages are delivered, in order and each once, over every run
whose steps meet the condition. -/
theorem messages_delivered (frames : List Frame) (due : Due) (max_message_size : Nat)
    (wbuffer : Wbuffer) (is : List Action) (hsends : Sends none frames due)
    (hsize : ∀ f ∈ frames, f.payload.data.length ≤ max_message_size)
    (haccepted : TextsAccepted due)
    (hmeet : StepsMeet UWebSocket.step (fun s i => Permitted s i ∧ Sound s i)
      (initial max_message_size wbuffer (encode frames)) is) :
    Tracks UWebSocket.step allowed next Represents
      (initial max_message_size wbuffer (encode frames)) due is := by
  have hahead : Ahead (initial max_message_size wbuffer (encode frames)) due :=
    .start rfl ⟨rfl, rfl⟩ hsize (.none rfl) hsends rfl
  refine tracks_of_simulation (I := fun s due => Ahead s due ∧ TextsAccepted due)
    (fun s due h => h.1.represents) (fun s due i h hok => ?_) is ⟨hahead, haccepted⟩ hmeet
  obtain ⟨r, s', hstep, hallowed, hahead'⟩ := step_keeps h.2 h.1 hok.1 hok.2
  exact ⟨r, s', hstep, hallowed, hahead', h.2.next⟩

def emptyBuffer : Wbuffer := ⟨fun _ => 0, 0, 4071⟩

/-- A message of two bytes, and a text in two fragments with a ping between. -/
def greeting : List Frame :=
  [.data (some .binary) true ⟨[0, 0, 0, 0], .short, [1, 2], rfl, by decide⟩,
    .data (some .text) false ⟨[1, 2, 3, 4], .short, ['h'.toUInt8], rfl, by decide⟩,
    .control true ⟨[5, 6, 7, 8], .short, [], rfl, by decide⟩ rfl,
    .data none true ⟨[9, 8, 7, 6], .short, ['i'.toUInt8], rfl, by decide⟩]

theorem messages_delivered_greeting :
    Tracks UWebSocket.step allowed next Represents (initial 100 emptyBuffer (encode greeting))
      [(.binary, [1, 2]), (.text, ['h'.toUInt8, 'i'.toUInt8])]
      (.read 8 :: List.replicate 4 .turn ++ .read 13 :: List.replicate 8 .turn ++
        .read 5 :: List.replicate 4 .turn ++ [.read 2, .turn]) := by
  refine messages_delivered greeting _ 100 emptyBuffer _ ?_ (by decide) ?_ (by decide +kernel)
  · exact .whole (by decide) (.first (by decide) (.control (.last .none)))
  · intro x hx
    simp only [List.mem_cons, Prod.mk.injEq, reduceCtorEq, false_and, true_and, List.not_mem_nil,
      or_false, false_or] at hx
    rw [hx]
    exact (by decide : (checkText 0 ['h'.toUInt8, 'i'.toUInt8]).1 = 0)

/-- Two messages that come in one read: the second is thrown away. -/
theorem second_message_lost :
    ∃ frames due is, Sends none frames due ∧
      StepsMeet UWebSocket.step Permitted (initial 100 emptyBuffer (encode frames)) is ∧
      (∀ d ∈ due, d.1 = .binary) ∧
      ¬ Tracks UWebSocket.step allowed next Represents (initial 100 emptyBuffer (encode frames))
        due is :=
  ⟨[.data (some .binary) true ⟨[1, 2, 3, 4], .short, [1], rfl, by decide⟩,
      .data (some .binary) true ⟨[1, 2, 3, 4], .short, [2], rfl, by decide⟩],
    _, .read 14 :: List.replicate 4 .turn, .whole (by decide) (.whole (by decide) .none),
    by decide +kernel, by decide, by decide +kernel⟩

end ULib.WebSocketDelivery
