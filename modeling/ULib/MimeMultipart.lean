import ULib.JsonValue

/-!
Multipart messages: `UMimeMultipartMsg` of `mime/multipart.cpp`, which joins
sections, and `UMimeMultipart` of `mime/entity.cpp`, which looks for the
boundary lines. Of a body part there is its text; the headers in it are not
read here.
-/

namespace ULib.MimeMultipart

open ULib.KeyComparison
open ULib.EscapeCoding
open ULib.JsonValue

/-! ### The message -/

/-- `u_line_terminator`: `U_CRLF`. -/
def crlf : Bytes := [13, 10]

def dashes : Bytes := ['-'.toUInt8, '-'.toUInt8]

/-- `u__snprintf`, with room for the NUL at the end. -/
def snprintf (size : Nat) (text : Bytes) : Bytes := text.take (size - 1)

/-- What `%4D` and `%P` print: day, month, year, the time and the milliseconds; the pid. -/
structure Stamp where
  date : Bytes
  pid : Bytes
  date_length : date.length = 17
  date_chars : ∀ c ∈ date, isDigit c ∨ c = '_'.toUInt8
  pid_length : pid.length ≤ 10
  pid_chars : ∀ c ∈ pid, isDigit c

/-- The boundary behind the line terminator and the dashes. -/
def boundaryText (counter : Nat) (stamp : Stamp) : Bytes :=
  ['='.toUInt8, '_'.toUInt8] ++ printNat counter ++ ['_'.toUInt8] ++ stamp.date ++
    ['_'.toUInt8] ++ stamp.pid

/-- `mkboundary`, with the counter after its increment. -/
def mkboundary (counter : Nat) (stamp : Stamp) : Bytes :=
  snprintf 64 (crlf ++ dashes ++ boundaryText (counter % 2 ^ 32) stamp)

/-- `RFC2045MIMEMSG` -/
def rfc2045Mimemsg : Bytes :=
  ("This is a MIME-formatted message. If you see this text it means that your\n" ++
    "E-mail software does not support MIME-formatted messages.\n").toUTF8.data.toList

structure UMimeMultipartMsg where
  boundary : Bytes
  vec_part : List Bytes

/-- The constructor, for a text of the headers, an empty line at its end included. -/
def UMimeMultipartMsg.new (header : Bytes) (counter : Nat) (stamp : Stamp)
    (bRFC2045MIMEMSG : Bool) : UMimeMultipartMsg :=
  ⟨mkboundary counter stamp, [header ++ if bRFC2045MIMEMSG then rfc2045Mimemsg else []]⟩

def UMimeMultipartMsg.add (m : UMimeMultipartMsg) (section_ : Bytes) : UMimeMultipartMsg :=
  { m with vec_part := m.vec_part ++ [section_] }

/-- What `mkboundary` returns, and the headers announce. -/
def UMimeMultipartMsg.announced (m : UMimeMultipartMsg) : Bytes := m.boundary.drop 4

/-- `UVector<UString>::join`. -/
def join (t : Bytes) (vec : List Bytes) : Bytes := List.intercalate t vec

def UMimeMultipartMsg.message (m : UMimeMultipartMsg) : Bytes :=
  join (snprintf 64 (m.boundary ++ crlf)) m.vec_part ++
    snprintf 64 (m.boundary ++ dashes ++ crlf)

/-! ### The parser -/

def isOnlyWhiteSpaceOrDashesUntilEndOfLine : Bool → Bytes → Bool
  | _, [] => true
  | dashesStillAllowed, c :: t =>
      if c = ' '.toUInt8 ∨ c = 9 ∨ c = 13 then isOnlyWhiteSpaceOrDashesUntilEndOfLine false t
      else if c = 10 then true
      else if c = '-'.toUInt8 then
        if dashesStillAllowed then isOnlyWhiteSpaceOrDashesUntilEndOfLine true t else false
      else false

/-- What `findBoundary` returns and sets. -/
structure Found where
  result : Bool
  boundaryStart : Nat
  boundaryEnd : Nat
  isFinal : Bool
  deriving DecidableEq, Repr

section Parser

variable (buf bbuf : Bytes)

/-- `buf[pos]`; what lies behind the text decides nothing. -/
def byteAt (pos : Nat) : UInt8 := buf.getD pos 0

/-- `memcmp(&buf[pos], bbuf, blen) == 0` -/
def boundaryAt (pos : Nat) : Bool := (buf.drop pos).take bbuf.length = bbuf

/-- The position past the end of the line. -/
def pastEndOfLine (pos : Nat) : Nat :=
  pos + min (((buf.drop pos).takeWhile (· != 10)).length + 1) (buf.length - pos)

/-- The rest of a boundary line that was found in the loop. -/
def closeLine (boundaryStart pos : Nat) : Found :=
  if pos < buf.length ∧ byteAt buf pos = '-'.toUInt8 then
    let pos := pos + 1
    let pos := if pos + 1 < buf.length ∧ byteAt buf (pos + 1) = '-'.toUInt8 then pos + 1 else pos
    ⟨true, boundaryStart, pastEndOfLine buf pos, true⟩
  else ⟨true, boundaryStart, pastEndOfLine buf pos, false⟩

/-- The loop of `findBoundary`, for at most `n` positions. -/
def findLoop : Nat → Nat → Found
  | 0, _ => ⟨false, buf.length, buf.length, true⟩
  | n + 1, pos =>
      let blen := bbuf.length
      if pos + blen + 2 < buf.length then
        -- leading LF
        if byteAt buf pos = 10 ∧ byteAt buf (pos + 1) = '-'.toUInt8 ∧
            byteAt buf (pos + 2) = '-'.toUInt8 ∧ boundaryAt buf bbuf (pos + 3) ∧
            isOnlyWhiteSpaceOrDashesUntilEndOfLine true (buf.drop (pos + blen + 3)) then
          closeLine buf pos (pos + blen + 3)
        -- leading CR LF
        else if byteAt buf pos = 13 ∧ byteAt buf (pos + 1) = 10 ∧
            byteAt buf (pos + 2) = '-'.toUInt8 ∧ pos + blen + 3 < buf.length ∧
            byteAt buf (pos + 3) = '-'.toUInt8 ∧ boundaryAt buf bbuf (pos + 4) ∧
            isOnlyWhiteSpaceOrDashesUntilEndOfLine true (buf.drop (pos + blen + 4)) then
          closeLine buf pos (pos + blen + 4)
        else findLoop n (pos + 1)
      else ⟨false, buf.length, buf.length, true⟩

def findBoundary (pos : Nat) : Found :=
  let blen := bbuf.length
  if byteAt buf pos = '-'.toUInt8 ∧ byteAt buf (pos + 1) = '-'.toUInt8 ∧
      pos + blen + 1 < buf.length ∧ boundaryAt buf bbuf (pos + 2) then
    let start := pos
    let pos := pos + blen + 2
    if pos + 1 < buf.length ∧ byteAt buf pos = '-'.toUInt8 ∧ byteAt buf (pos + 1) = '-'.toUInt8
    then ⟨true, start, pastEndOfLine buf (pos + 2), true⟩
    else ⟨true, start, pastEndOfLine buf pos, false⟩
  else findLoop buf bbuf (buf.length - pos) pos

/-- What `parse` comes to; `closed` is that the last boundary was found. -/
structure UMimeMultipart where
  parse_result : Bool
  preamble : Bytes
  bodypart : List Bytes
  epilogue : Bytes
  isFinal : Bool
  closed : Bool
  deriving DecidableEq, Repr

/-- The loop of `parse` over the body parts, for at most `n` of them. -/
def findParts : Nat → Nat → List Bytes → Option (Nat × List Bytes × Bool)
  | 0, _, _ => none
  | n + 1, pos, bodypart =>
      let found := findBoundary buf bbuf pos
      let len := if found.result then found.boundaryStart - pos else buf.length - pos
      let bodypart := bodypart ++ [(buf.drop pos).take len]
      if found.result then
        if found.isFinal then some (found.boundaryEnd, bodypart, true)
        else findParts n found.boundaryEnd bodypart
      else some (buf.length, bodypart, false)

/-- `parse`, for at most `n` body parts. -/
def parse (n : Nat) : Option UMimeMultipart :=
  let found := findBoundary buf bbuf 0
  if found.result then do
    let (pos, bodypart, closed) ←
      if found.isFinal then some (found.boundaryEnd, [], true)
      else findParts buf bbuf n found.boundaryEnd []
    some ⟨true, buf.take found.boundaryStart, bodypart, buf.drop pos, true, closed⟩
  else some ⟨false, [], [], [], found.isFinal, false⟩

end Parser

end ULib.MimeMultipart
