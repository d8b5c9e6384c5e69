import ULib.ByteMemory
import ULib.JsonValue

/-!
`UWebSocket::handleDataFraming` of `utility/websocket.cpp` and the loop of the
plugin that calls it, in `net/server/plugin/mod_socket.cpp`. A turn is one case
of the `switch`; the cases that fall through are the turns that follow, while
there is data, and a read is made when there is none. What is delivered is in
`wbuffer`. The pointer `application_data` is that of `wbuffer` where it is used.
-/

namespace ULib.WebSocket

open ULib.KeyComparison
open ULib.ByteMemory
open ULib.JsonValue

/-- `u_validate_utf8` -/
def validateUtf8 : List Nat :=
  List.replicate 128 0 ++ List.replicate 16 1 ++ List.replicate 16 9 ++ List.replicate 32 7 ++
    [8, 8] ++ List.replicate 30 2 ++
    [0xa, 3, 3, 3, 3, 3, 3, 3, 3, 3, 3, 3, 3, 4, 3, 3] ++
    [0xb, 6, 6, 6, 5, 8, 8, 8, 8, 8, 8, 8, 8, 8, 8, 8] ++
    [0, 1, 2, 3, 5, 8, 7, 1, 1, 1, 4, 6, 1, 1, 1, 1] ++
    [1, 1, 1, 1, 1, 1, 1, 1, 1, 1, 1, 1, 1, 1, 1, 1, 1, 0, 1, 1, 1, 1, 1, 0, 1, 0, 1, 1, 1, 1, 1, 1] ++
    [1, 2, 1, 1, 1, 1, 1, 2, 1, 2, 1, 1, 1, 1, 1, 1, 1, 1, 1, 1, 1, 1, 1, 2, 1, 1, 1, 1, 1, 1, 1, 1] ++
    [1, 2, 1, 1, 1, 1, 1, 1, 1, 2, 1, 1, 1, 1, 1, 1, 1, 1, 1, 1, 1, 1, 1, 3, 1, 3, 1, 1, 1, 1, 1, 1] ++
    [1, 3, 1, 1, 1, 1, 1, 3, 1, 3, 1, 1, 1, 1, 1, 1, 1, 3, 1, 1, 1, 1, 1, 1, 1, 1, 1, 1, 1, 1, 1, 1]

/-- The loops over text: the state and the bytes before one that is refused. -/
def checkText : Nat → Bytes → Nat × Bytes
  | utf8_state, [] => (utf8_state, [])
  | utf8_state, c :: t =>
      let utf8_state := validateUtf8.getD (utf8_state + c.toNat) 0
      if utf8_state = 1 then (1, [])
      else
        let (last, stored) := checkText utf8_state t
        (last, c :: stored)

/-- The bytes, unmasked from the offset on. -/
def unmask (mask : Bytes) : Nat → Bytes → Bytes
  | _, [] => []
  | mask_offset, c :: t => (c ^^^ mask.getD (mask_offset % 4) 0) :: unmask mask (mask_offset + 1) t

/-- `WebSocketFrameData` -/
structure WebSocketFrameData where
  application_data_offset : Nat
  fin : Bool
  opcode : Nat
  utf8_state : Nat

/-- What is used of `wbuffer`. -/
structure Wbuffer where
  bytes : Mem
  length : Nat
  capacity : Nat

/-- `UString::reserve`: what lies behind the length is not copied. -/
def Wbuffer.reserve (b : Wbuffer) (n : Nat) : Wbuffer :=
  if n ≤ b.capacity then b
  else { b with bytes := fun i => if i < b.length then b.bytes i else 0
                capacity := created (howMuchPreallocate n) }

inductive FramingState
  | start
  | payloadLength
  | payloadLengthExt
  | mask
  | extensionData
  | applicationData
  deriving DecidableEq

inductive FrameKind
  | control
  | message
  deriving DecidableEq

/-- The variables of `handleDataFraming`. -/
structure Framing where
  framing_state : FramingState
  frame : FrameKind
  fin : Bool
  opcode : Nat
  masking : Bool
  mask : Bytes
  mask_index : Nat
  mask_offset : Nat
  payload_length : Nat
  payload_length_bytes_remaining : Nat

/-- The variables at a call. -/
def Framing.init : Framing where
  framing_state := .start
  frame := .control
  fin := false
  opcode := 0xFF
  masking := false
  mask := [0, 0, 0, 0]
  mask_index := 0
  mask_offset := 0
  payload_length := 0
  payload_length_bytes_remaining := 0

/-- What the client has sent and is not read yet is in `socket`; `rbuffer` is
the block from `block_offset` on. -/
structure UWebSocket where
  control_frame : WebSocketFrameData
  message_frame : WebSocketFrameData
  max_message_size : Nat
  wbuffer : Wbuffer
  rbuffer : Bytes
  socket : Bytes
  call : Framing

inductive MessageType
  | text
  | binary
  | invalid
  deriving DecidableEq, Repr

/-- `closed` is the status with which the connection is given up. -/
inductive Reply
  | quiet
  | pong (data : Bytes)
  | delivered (message_type : MessageType) (data : Bytes)
  | closed (status_code : Nat)
  deriving DecidableEq, Repr

namespace UWebSocket

variable (s : UWebSocket)

def frame : WebSocketFrameData :=
  match s.call.frame with
  | .control => s.control_frame
  | .message => s.message_frame

def setFrame (frame : WebSocketFrameData) : UWebSocket :=
  match s.call.frame with
  | .control => { s with control_frame := frame }
  | .message => { s with message_frame := frame }

/-- `DATA_FRAMING_START` -/
def start (c : UInt8) (block : Bytes) : Reply × UWebSocket :=
  let b := c.toNat
  if b / 64 % 2 ≠ 0 ∨ b / 32 % 2 ≠ 0 ∨ b / 16 % 2 ≠ 0 then (.closed 1002, s)
  else
    let fin : Bool := b / 128 % 2 = 1
    let opcode := b % 16
    let call := { s.call with framing_state := .payloadLength, fin, opcode, payload_length := 0
                              payload_length_bytes_remaining := 0 }
    if 8 ≤ opcode then
      if ¬ fin then (.closed 1002, s)
      else
        (.quiet, { s with rbuffer := block, call := { call with frame := .control }
                          control_frame := { s.control_frame with opcode, utf8_state := 0 } })
    else if opcode ≠ 0 then
      if ¬ s.message_frame.fin then (.closed 1002, s)
      else
        (.quiet, { s with rbuffer := block, call := { call with frame := .message }
                          message_frame := { s.message_frame with opcode, utf8_state := 0, fin } })
    else if s.message_frame.fin ∨ s.message_frame.opcode = 0 then (.closed 1002, s)
    else
      (.quiet, { s with rbuffer := block
                        call := { call with frame := .message, opcode := s.message_frame.opcode }
                        message_frame := { s.message_frame with fin } })

/-- `DATA_FRAMING_PAYLOAD_LENGTH` -/
def payloadLength (c : UInt8) (block : Bytes) : Reply × UWebSocket :=
  let n := c.toNat % 128
  let masking : Bool := c.toNat / 128 % 2 = 1
  let (payload_length, remaining) := if n = 126 then (0, 2) else if n = 127 then (0, 8) else (n, 0)
  -- a client masks, and control frames have at most 125 bytes
  if ¬ masking ∨ (8 ≤ s.call.opcode ∧ remaining ≠ 0) then (.closed 1002, s)
  else
    (.quiet, { s with rbuffer := block
                      call := { s.call with framing_state := .payloadLengthExt, masking
                                            payload_length
                                            payload_length_bytes_remaining := remaining } })

/-- One more byte of the length, which is an `int32_t`. -/
def lengthDigit (payload_length : Nat) (c : UInt8) : Nat :=
  (payload_length * 256 + c.toNat) % 2 ^ 32

/-- `DATA_FRAMING_PAYLOAD_LENGTH_EXT` -/
def payloadLengthExt : Reply × UWebSocket :=
  let taken := s.rbuffer.take s.call.payload_length_bytes_remaining
  let payload_length := taken.foldl lengthDigit s.call.payload_length
  let remaining := s.call.payload_length_bytes_remaining - taken.length
  let s := { s with rbuffer := s.rbuffer.drop taken.length
                    call := { s.call with payload_length
                                          payload_length_bytes_remaining := remaining } }
  if remaining = 0 then
    if 2 ^ 31 ≤ payload_length ∨ s.max_message_size < payload_length then (.closed 1009, s)
    else
      let framing_state := if s.call.masking then .mask else .extensionData
      (.quiet, { s with call := { s.call with framing_state } })
  else (.quiet, s)

/-- `DATA_FRAMING_EXTENSION_DATA` -/
def extensionData : UWebSocket :=
  let wbuffer :=
    if 0 < s.call.payload_length then
      s.wbuffer.reserve ((s.frame.application_data_offset + s.call.payload_length) % 2 ^ 32)
    else s.wbuffer
  { s with wbuffer, call := { s.call with framing_state := .applicationData } }

/-- The end of a frame whose data ends at the offset. -/
def endOfFrame (application_data_offset : Nat) : Reply × UWebSocket :=
  let frame := s.frame
  let next (offset : Nat) : UWebSocket :=
    let s := s.setFrame { frame with application_data_offset := offset }
    { s with call := { s.call with framing_state := .start } }
  -- the plugin empties `rbuffer`, and calls again
  let deliver (message_type : MessageType) : Reply × UWebSocket :=
    if s.call.fin then
      (.delivered message_type (read s.wbuffer.bytes 0 application_data_offset),
        { s with wbuffer := { s.wbuffer with length := application_data_offset }, rbuffer := []
                 call := Framing.init })
    else (.quiet, next application_data_offset)
  if s.call.opcode = 1 then
    if (s.call.fin ∧ frame.utf8_state ≠ 0) ∨ frame.utf8_state = 1 then (.closed 1007, s)
    else deliver .text
  else if s.call.opcode = 2 then deliver .binary
  else if s.call.opcode = 8 then
    -- the status is `STATUS_CODE_OK`, with which the plugin goes on
    (.delivered .invalid (read s.wbuffer.bytes 0 s.wbuffer.length),
      { s with rbuffer := [], call := Framing.init })
  else if s.call.opcode = 9 then
    (.pong (read s.wbuffer.bytes 0 application_data_offset), next 0)
  else if s.call.opcode = 10 then (.quiet, next 0)
  else (.closed 1002, s)

/-- `DATA_FRAMING_APPLICATION_DATA` -/
def applicationData : Reply × UWebSocket :=
  let frame := s.frame
  let n := min s.call.payload_length s.rbuffer.length
  let block := s.rbuffer.take n
  let data := if s.call.masking then unmask s.call.mask s.call.mask_offset block else block
  let text := checkText frame.utf8_state data
  let refused : Bool := s.call.opcode = 1 ∧ text.1 = 1
  -- the loop that unmasks does not store what is refused
  let stored := if refused ∧ s.call.masking then text.2 else data
  let payload_length := if refused then 0 else s.call.payload_length - n
  let frame := if s.call.opcode = 1 then { frame with utf8_state := text.1 } else frame
  let offset := frame.application_data_offset + stored.length
  let s := { s with wbuffer := { s.wbuffer with
                      bytes := write s.wbuffer.bytes frame.application_data_offset stored }
                    rbuffer := s.rbuffer.drop n
                    call := { s.call with payload_length, mask_offset := s.call.mask_offset + n } }
  let s := s.setFrame frame
  if payload_length = 0 then s.endOfFrame offset
  else (.quiet, s.setFrame { frame with application_data_offset := offset })

/-- The bytes of the mask that there are. -/
def takeMask : UWebSocket :=
  let taken := s.rbuffer.take (4 - s.call.mask_index)
  let mask := s.call.mask.take s.call.mask_index ++ taken ++
    s.call.mask.drop (s.call.mask_index + taken.length)
  { s with rbuffer := s.rbuffer.drop taken.length
           call := { s.call with mask, mask_index := s.call.mask_index + taken.length } }

/-- With all four of them; a mask of zeros changes nothing. -/
def maskDone : UWebSocket :=
  let masking := if s.call.mask = [0, 0, 0, 0] then false else s.call.masking
  { s with call := { s.call with mask_index := 0, mask_offset := 0, masking } }

/-- `DATA_FRAMING_MASK`, which falls through with no data left. -/
def mask : Reply × UWebSocket :=
  if s.takeMask.call.mask_index ≠ 4 then (.quiet, s.takeMask)
  else s.takeMask.maskDone.extensionData.applicationData

/-- One case of the `switch`, with data in the block. -/
def turn : Option (Reply × UWebSocket) :=
  match s.rbuffer with
  | [] => none
  | c :: block =>
      match s.call.framing_state with
      | .start => some (s.start c block)
      | .payloadLength => some (s.payloadLength c block)
      | .payloadLengthExt => some s.payloadLengthExt
      | .mask => some s.mask
      | .extensionData => some s.extensionData.applicationData
      | .applicationData => some s.applicationData

end UWebSocket

/-- A read of that many bytes, or a turn. -/
inductive Action
  | read (n : Nat)
  | turn
  deriving DecidableEq

namespace UWebSocket

/-- A read is made when the block is done, of what the socket has. -/
def step (s : UWebSocket) : Action → Option (Reply × UWebSocket)
  | .read n =>
      if s.rbuffer = [] ∧ 1 ≤ n ∧ n ≤ s.socket.length then
        some (.quiet, { s with rbuffer := s.socket.take n, socket := s.socket.drop n })
      else none
  | .turn => s.turn

end UWebSocket

end ULib.WebSocket
