import ULib.JsonValue

/-!
The packets of `net/rpc/rpc.cpp`: four bytes of a token, eight hex digits, and
the data that they count; the writers of `utility/string_ext.h`, the readers,
and `USocketExt::read`, which tops up the buffer from the socket.
-/

namespace ULib.RpcFraming

open ULib.KeyComparison
open ULib.EscapeCoding
open ULib.JsonValue

/-! ### Numbers -/

def u_int2hex (n : Nat) : Bytes :=
  [28, 24, 20, 16, 12, 8, 4, 0].map fun s => hexUpper ((n >>> s) % 16).toUInt8

/-- `u__hexc2int`, an unsigned number. -/
def u_hexc2int (c : UInt8) : Nat :=
  if isDigit c then c.toNat - 0x30 else ((toUpper c).toNat + 2 ^ 32 - 0x41 + 10) % 2 ^ 32

def u_hex2int (p : Bytes) : Nat :=
  p.foldl (fun n c => ((n <<< 4) % 2 ^ 32) ||| u_hexc2int c) 0

/-! ### Writing -/

/-- `U_TOKEN_NM` -/
def tokenNm : Nat := 4

/-- `U_TOKEN_LN` -/
def tokenLn : Nat := tokenNm + 8

/-- `buildTokenInt`; `none` where it writes behind the memory of the string. -/
def buildTokenInt (token : Bytes) (value : Nat) (b : UString) : Option UString :=
  if b.data.length + tokenLn ≤ b.capacity then
    some { b with data := b.data ++ token.take tokenNm ++ u_int2hex value }
  else none

def buildTokenString (token value : Bytes) (b : UString) :
    Option UString := do
  let b ← buildTokenInt token (value.length % 2 ^ 32) b
  some (append b value)

/-- "ARGV" -/
def argv : Bytes := ['A'.toUInt8, 'R'.toUInt8, 'G'.toUInt8, 'V'.toUInt8]

def buildTokenVector (token : Bytes) (vec : List Bytes) (b : UString) :
    Option UString := do
  let b ← buildTokenInt token (vec.length % 2 ^ 32) b
  vec.foldlM (fun b s => buildTokenString argv s b) b

/-! ### The socket -/

/-- What the other side and the network do: bytes arrive together, or nothing comes for longer
than half a second. -/
inductive Event where
  | data (bytes : Bytes)
  | pause
  deriving DecidableEq, Repr

structure Socket where
  events : List Event
  connected : Bool
  deriving DecidableEq, Repr

/-- What a `recv` comes to; no bytes at all are the end of the stream. -/
inductive Received where
  | bytes (b : Bytes)
  | timeout
  | broken
  deriving DecidableEq, Repr

/-- `recv` with a timeout, or without one where it is negative; `none` is to wait for ever. -/
def recvFrom (n : Nat) (timeoutMS : Int) : List Event → Option (Received × List Event)
  | [] => if timeoutMS < 0 then none else some (.timeout, [])
  | .pause :: events => if timeoutMS < 0 then recvFrom n timeoutMS events else some (.timeout, events)
  | .data b :: events =>
      if n < b.length then some (.bytes (b.take n), .data (b.drop n) :: events)
      else some (.bytes b, events)

def recv (n : Nat) (timeoutMS : Int) (s : Socket) : Option (Received × Socket) :=
  if s.connected then do
    let (received, events) ← recvFrom n timeoutMS s.events
    some (received, { s with events })
  else some (.broken, s)

/-! ### USocketExt::read -/

/-- `UStringRep::space`. -/
def repSpace (b : UString) : Nat := b.capacity - b.data.length

/-- The loop of `read` behind the label: `start` bytes of `b` were there before, `byteRead` are
the bytes received since, and `ncount` is the room that is counted down. `none` is to wait for
ever, to write behind the memory, or more rounds than the bound. -/
def readLoop (start : Nat) (count : Int) :
    Nat → UString → Bytes → Nat → Int → Socket → Option (Bool × UString × Socket)
  | 0, _, _, _, _, _ => none
  | fuel + 1, b, byteRead, ncount, timeoutMS, s => do
      let done := fun (result : Bool) (byteRead : Bytes) (s : Socket) =>
        some (result, { b with data := b.data.take start ++ byteRead }, s)
      match ← recv ncount timeoutMS s with
      | (.timeout, s) => if byteRead.length ≠ 0 then some (true, b, s) else done false byteRead s
      | (.broken, s) => done false byteRead { s with connected := false }
      | (.bytes got, s) =>
          if got.length = 0 then done false byteRead { s with connected := false }
          else if b.capacity < start + byteRead.length + got.length then none
          else
            let byteRead := byteRead ++ got
            if (byteRead.length : Int) < count then
              let ncount := (ncount + 2 ^ 32 - byteRead.length) % 2 ^ 32
              readLoop start count fuel b byteRead ncount timeoutMS s
            else if got.length = ncount then
              -- there may be more bytes to read
              let b := { b with data := b.data.take start ++ byteRead }
              let b := reserve b ((start + byteRead.length + ncount) % 2 ^ 32)
              readLoop start count fuel b byteRead (repSpace b) 500 s
            else done true byteRead s

/-- An `int` from an `uint32_t`. -/
def toInt (n : Nat) : Int := if n < 2 ^ 31 then n else n - 2 ^ 32

def read (fuel : Nat) (s : Socket) (b : UString) (count : Int) :
    Option (Bool × UString × Socket) :=
  let chunk := (max count uCapacity).toNat
  if space b < chunk ∧ b.capacity < chunk then
    let b := reserve b chunk
    readLoop b.data.length count fuel b [] (repSpace b) (-1) s
  else readLoop b.data.length count fuel b [] (space b) (-1) s

/-! ### Reading -/

/-- The value, `rstart`, and the buffer and the socket behind the reads. -/
structure Token where
  value : Nat
  rstart : Nat
  buffer : UString
  socket : Socket

/-- The bytes are buffered, or are read. -/
def available (fuel : Nat) (s : Socket) (b : UString) (rstart n : Nat) :
    Option (Bool × UString × Socket) :=
  if (rstart + n) % 2 ^ 32 ≤ b.data.length then some (true, b, s) else read fuel s b (toInt n)

def readTokenInt (fuel : Nat) (s : Socket) (token : Option Bytes)
    (b : UString) (rstart : Nat) : Option Token := do
  let (ok, b, s) ← available fuel s b rstart tokenLn
  let name := (b.data.drop rstart).take tokenNm
  if ok ∧ (token = none ∨ token.map (List.take tokenNm) = some name) then
    some ⟨u_hex2int ((b.data.drop (rstart + tokenNm)).take 8), rstart + tokenLn, b, s⟩
  else some ⟨0, rstart, b, s⟩

/-- With the string it reads, which stays what it was where nothing is read. -/
def readTokenString (fuel : Nat) (s : Socket) (token : Option Bytes)
    (b : UString) (rstart : Nat) (data : Bytes) : Option (Token × Bytes) := do
  let t ← readTokenInt fuel s token b rstart
  if t.value = 0 then some (t, data)
  else
    let (ok, b, s) ← available fuel t.socket t.buffer t.rstart t.value
    if ok then
      let data := (b.data.drop t.rstart).take t.value
      some (⟨t.value, t.rstart + data.length, b, s⟩, data)
    else some (⟨t.value, t.rstart, b, s⟩, data)

/-- The loop of `readTokenVector`, with the number of strings that are left to read. -/
def readStrings (fuel : Nat) :
    Nat → Socket → UString → Nat → Bytes → List Bytes → Option (Nat × List Bytes × UString × Socket)
  | 0, s, b, rstart, _, vec => some (rstart, vec, b, s)
  | left + 1, s, b, rstart, data, vec => do
      let (t, data) ← readTokenString fuel s (some argv) b rstart data
      if t.value = 0 then some (t.rstart, vec, t.buffer, t.socket)
      else readStrings fuel left t.socket t.buffer t.rstart data (vec ++ [data])

/-- `rstart` at the end, the strings, and the buffer and the socket. -/
def readTokenVector (fuel : Nat) (s : Socket) (token : Option Bytes)
    (b : UString) : Option (Nat × List Bytes × UString × Socket) := do
  let t ← readTokenInt fuel s token b 0
  readStrings fuel t.value t.socket t.buffer t.rstart [] []

end ULib.RpcFraming
