import ULib.Runs
import ULib.WebSocket

/-!
What a client sends: messages in fragments, with pings and pongs between them,
and the bytes of their frames; and what is to be delivered of it.
-/

namespace ULib.WebSocketClient

open ULib.KeyComparison
open ULib.WebSocket

/-- How the length of a payload is written. -/
inductive LengthForm
  | short
  | extended16
  | extended64
  deriving DecidableEq

/-- The payload of a frame, and how the client sends it. -/
structure Payload where
  mask : Bytes
  form : LengthForm
  data : Bytes
  mask_length : mask.length = 4
  length_fits : data.length < match form with
    | .short => 126
    | .extended16 => 2 ^ 16
    | .extended64 => 2 ^ 31

/-- The bytes of the length behind the first, most significant first. -/
def extension (form : LengthForm) (n : Nat) : Bytes :=
  match form with
  | .short => []
  | .extended16 => [UInt8.ofNat (n / 256), UInt8.ofNat n]
  | .extended64 => [0, 0, 0, 0, UInt8.ofNat (n / 2 ^ 24), UInt8.ofNat (n / 2 ^ 16),
      UInt8.ofNat (n / 256), UInt8.ofNat n]

def lengthByte (form : LengthForm) (n : Nat) : UInt8 :=
  match form with
  | .short => UInt8.ofNat (128 + n)
  | .extended16 => 128 + 126
  | .extended64 => 128 + 127

/-- A frame: of a ping or a pong, or a fragment of a message. Only the first
fragment has the type. -/
inductive Frame
  | control (ping : Bool) (payload : Payload) (short : payload.form = .short)
  | data (message_type : Option MessageType) (fin : Bool) (payload : Payload)

def typeCode : MessageType → Nat
  | .text => 1
  | .binary => 2
  | .invalid => 0

def firstByte (fin : Bool) (opcode : Nat) : UInt8 := UInt8.ofNat ((if fin then 128 else 0) + opcode)

def Frame.head : Frame → UInt8
  | .control ping _ _ => firstByte true (if ping then 9 else 10)
  | .data message_type fin _ => firstByte fin ((message_type.map typeCode).getD 0)

def Frame.payload : Frame → Payload
  | .control _ payload _ => payload
  | .data _ _ payload => payload

/-- The bytes behind the length. -/
def Payload.masked (p : Payload) : Bytes := p.mask ++ unmask p.mask 0 p.data

def Frame.encode (f : Frame) : Bytes :=
  f.head :: lengthByte f.payload.form f.payload.data.length ::
    (extension f.payload.form f.payload.data.length ++ f.payload.masked)

def encode (frames : List Frame) : Bytes := frames.flatMap Frame.encode

/-- The messages that frames hold, after what is under way. -/
inductive Sends : Option (MessageType × Bytes) → List Frame → List (MessageType × Bytes) → Prop
  | none : Sends none [] []
  | control {u frames due ping payload short} (h : Sends u frames due) :
      Sends u (.control ping payload short :: frames) due
  | first {t frames due payload} (ht : t ≠ .invalid)
        (h : Sends (some (t, payload.data)) frames due) :
      Sends none (.data (some t) false payload :: frames) due
  | whole {t frames due payload} (ht : t ≠ .invalid) (h : Sends none frames due) :
      Sends none (.data (some t) true payload :: frames) ((t, payload.data) :: due)
  | next {t x frames due payload} (h : Sends (some (t, x ++ payload.data)) frames due) :
      Sends (some (t, x)) (.data none false payload :: frames) due
  | last {t x frames due payload} (h : Sends none frames due) :
      Sends (some (t, x)) (.data none true payload :: frames) ((t, x ++ payload.data) :: due)

end ULib.WebSocketClient
