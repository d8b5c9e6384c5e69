import ULib.NumberText
import ULib.RpcRoundTrip
import ULib.TextSearch

/-!
`UHTTP::readBody` for a body in chunks: the end of the message is found by its
blank line, in the buffer or behind what `readWhileNotToken` reads, and then the
chunks are taken one after the other. There is no limit on the time.
-/

namespace ULib.ChunkedBody

open ULib.KeyComparison
open ULib.EscapeCoding
open ULib.JsonValue
open ULib.RpcFraming
open ULib.RpcRoundTrip
open ULib.NumberText
open ULib.TextSearch

def lineFeed : UInt8 := '\n'.toUInt8

/-- `u_line_terminator`, as the header has it. -/
inductive LineTerminator
  | lf
  | crlf
  deriving DecidableEq, Repr

def LineTerminator.bytes : LineTerminator → Bytes
  | lf => [lineFeed]
  | crlf => ['\r'.toUInt8, lineFeed]

/-- `U_LF2` and `U_CRLF2` -/
def LineTerminator.twice (lt : LineTerminator) : Bytes := lt.bytes ++ lt.bytes

/-! ### The sizes -/

/-- The number that the digits at the start of `t` are; `none` where there is nothing that
ends them. -/
def hexNumber (negative : Bool) (t : Bytes) : Option Nat :=
  let digits := digitsIn 16 t
  if digits.length = t.length then none
  else some (clampLong negative (valueIn 16 digits) % 2 ^ 32).toNat

/-- `strtol(inp, 0, 16)` as an `uint32_t`; `none` where it reads behind the bytes that were
received. -/
def chunkSize (inp : Bytes) : Option Nat :=
  let (negative, t) := signed inp
  if peek t 0 = '0'.toUInt8 ∧ toUpper (peek t 1) = 'X'.toUInt8 then
    if isXdigit (peek t 2) then hexNumber negative (t.drop 2)
    else if t.length = 2 then none
    else some 0
  else hexNumber negative t

/-- The rest of the line is discarded. -/
def skipLine : Bytes → Option Bytes
  | [] => none
  | c :: t => if c = lineFeed then some t else skipLine t

/-! ### The chunks -/

/-- The loop over the chunks, into memory for `capacity` bytes; `none` where it reads behind the
bytes that were received, or writes behind the memory. Each round goes past a line. -/
def chunkLoop (lt : LineTerminator) (capacity : Nat) : Nat → Bytes → Bytes → Option Bytes
  | 0, _, _ => none
  | left + 1, inp, out => do
      let n ← chunkSize inp
      if n = 0 then some out
      else
        let inp ← skipLine inp
        if inp.length < n ∨ capacity < out.length + n then none
        else chunkLoop lt capacity left (inp.drop (n + lt.bytes.length)) (out ++ inp.take n)

def decodeChunks (lt : LineTerminator) (capacity : Nat) (inp : Bytes) : Option Bytes :=
  chunkLoop lt capacity (inp.length + 1) inp []

/-! ### USocketExt::readWhileNotToken -/

/-- `UString::find` -/
def findFrom (t token : Bytes) (pos : Nat) : Option Nat := (search token (t.drop pos)).map (pos + ·)

/-- `read` with `U_SINGLE_READ`: every round but the last takes a byte that is to come. -/
def singleRead (s : Socket) (b : UString) : Option (Bool × UString × Socket) :=
  RpcFraming.read ((pending s.events).length + 1) s b (-1)

/-- With the number of reads that are left, and where the search starts. -/
def readLoopNotToken (token : Bytes) :
    Nat → Nat → Socket → UString → Option (Option Nat × UString × Socket)
  | 0, _, s, b => some (none, b, s)
  | left + 1, start, s, b => do
      let (ok, b, s) ← singleRead s b
      if ok then
        match findFrom b.data token start with
        | some pos => some (some pos, b, s)
        | none =>
            let start := (b.data.length + 2 ^ 32 - token.length) % 2 ^ 32
            readLoopNotToken token left start s b
      else some (none, b, s)

/-- `count++ > max_read` stops the loop after the second read above the maximum. -/
def readWhileNotToken (s : Socket) (b : UString) (token : Bytes) (maxRead : Nat) :
    Option (Option Nat × UString × Socket) :=
  readLoopNotToken token (maxRead + 2) b.data.length s b

/-! ### UHTTP::readBody -/

inductive Outcome
  | done (body : Bytes) (clength : Nat)
  | badRequest
  | clientTimeout
  deriving DecidableEq, Repr

/-- What is done when the end of the message is at `count`; `room` is the memory that `setBuffer`
makes for a number of bytes. -/
def decodeBody (room : Nat → Nat) (lt : LineTerminator) (b : UString) (endHeader count : Nat) :
    Option Outcome :=
  let count := (count + lt.twice.length) % 2 ^ 32
  if count ≤ endHeader then some .badRequest
  else
    let clength := count - endHeader
    (decodeChunks lt (room clength) (b.data.drop endHeader)).map fun body => .done body clength

/-- `none` is to wait for ever, or to leave the memory. -/
def readBody (room : Nat → Nat) (lt : LineTerminator) (s : Socket) (b : UString)
    (endHeader : Nat) : Option (Outcome × UString × Socket) := do
  let (count, b, s) ←
    match findFrom b.data lt.twice endHeader with
    | some pos => some (some pos, b, s)
    | none => readWhileNotToken s b lt.twice (16 * 1024)
  match count with
  | some count =>
      let outcome ← decodeBody room lt b endHeader count
      some (outcome, b, s)
  | none => some (if s.connected then .badRequest else .clientTimeout, b, s)

/-! ### The message -/

/-- A chunk as it is sent: its size in hex, whatever extension, and its bytes. -/
structure Chunk where
  size : Bytes
  extension : Bytes
  data : Bytes
  hex : ∀ c ∈ size, isXdigit c
  counts : valueIn 16 size = data.length
  nonempty : data ≠ []
  semicolon : extension.head? = none ∨ extension.head? = some ';'.toUInt8
  oneLine : lineFeed ∉ extension

def Chunk.text (lt : LineTerminator) (c : Chunk) : Bytes :=
  c.size ++ c.extension ++ lt.bytes ++ c.data ++ lt.bytes

/-- A body in chunks, with the chunk of size zero and the lines behind it. -/
structure Message where
  chunks : List Chunk
  zeros : Bytes
  extension : Bytes
  trailers : List Bytes
  zero : ∀ c ∈ zeros, c = '0'.toUInt8
  nonempty : zeros ≠ []
  semicolon : extension.head? = none ∨ extension.head? = some ';'.toUInt8
  oneLine : lineFeed ∉ extension
  lines : ∀ l ∈ trailers, l ≠ [] ∧ lineFeed ∉ l

def Message.data (m : Message) : Bytes := (m.chunks.map Chunk.data).flatten

/-- The line of the chunk of size zero, and what is behind it. -/
def Message.ending (m : Message) (lt : LineTerminator) : Bytes :=
  m.zeros ++ m.extension ++ lt.bytes ++ (m.trailers.map (· ++ lt.bytes)).flatten ++ lt.bytes

def Message.text (m : Message) (lt : LineTerminator) : Bytes :=
  (m.chunks.map (Chunk.text lt)).flatten ++ m.ending lt

end ULib.ChunkedBody
