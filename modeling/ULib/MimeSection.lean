import ULib.Base64
import ULib.JsonValue
import ULib.MimeHeader
import ULib.QuotedPrintable

/-!
One section of a message: `UMimeMultipartMsg::section` of `mime/multipart.cpp`, and `UMimeEntity`
of `mime/entity.cpp`, which parses the headers of a text and decodes its body.
-/

namespace ULib.MimeSection

open ULib.KeyComparison
open ULib.EscapeCoding
open ULib.JsonValue (uCapacity)
open ULib.HashMap
open ULib.ContainerStream
open ULib.UrlText
open ULib.MimeHeader

inductive Encoding
  | none
  | auto
  | bit7
  | bit8
  | quotedPrintable
  | base64
  deriving DecidableEq, Repr

def str (s : String) : Bytes := s.toUTF8.data.toList

/-- `str_encoding[encoding - 1]`; the two others are not printed. -/
def strEncoding : Encoding → Bytes
  | .bit7 => str "7bit"
  | .bit8 => str "8bit"
  | .quotedPrintable => str "quoted-printable"
  | .base64 => str "base64"
  | .none | .auto => []

/-! ### UMimeMultipartMsg::section -/

/-- The loop of `encodeAutodetect`; `l` is the length of the line. -/
def detectLoop (charset : Bytes) : Encoding → Nat → Bool → Bytes → Encoding
  | encoding, _, longline, [] =>
      if longline then if charset = [] then .base64 else .quotedPrintable else encoding
  | encoding, l, longline, ch :: t =>
      let encoding := if 0x80 ≤ ch then .bit8 else encoding
      let encoding :=
        if ch < 0x20 ∧ ch ≠ tab ∧ ch ≠ carriageReturn ∧ ch ≠ lineFeed ∧ charset ≠ [] then
          .quotedPrintable
        else encoding
      if ch = 0 then .base64
      else if ch = lineFeed then detectLoop charset encoding 0 longline t
      else if 200 < l + 1 then
        let encoding := if charset = [] then encoding else .quotedPrintable
        detectLoop charset encoding (l + 1) true t
      else detectLoop charset encoding (l + 1) longline t

def encodeAutodetect (content charset : Bytes) : Encoding :=
  detectLoop charset .bit7 0 false content

/-- The bytes for the text in the block that `UStringRep::create` gets; the counters in front of
it take 24 bytes. -/
def blockSize (capacity : Nat) : Nat :=
  if capacity ≤ uCapacity then
    if capacity + 25 ≤ 128 then 104
    else if capacity + 25 ≤ 256 then 232
    else if capacity + 25 ≤ 512 then 488
    else if capacity + 25 ≤ 1024 then 1000
    else if capacity + 25 ≤ 2048 then 2024
    else 4072
  else (capacity + 4095) % 2 ^ 32 / 4096 * 4096

/-- What a section is made of; `type` and `charset` are those that are printed. -/
structure Parts where
  encoding : Encoding
  type : Bytes
  charset : Bytes

def chosenEncoding (content charset : Bytes) (encoding : Encoding) : Encoding :=
  if encoding = .auto then encodeAutodetect content charset else encoding

/-- The type that stands for an empty one; `getType` is `UMagic::getType`, when there is
`libmagic`. -/
def chooseType (getType : Option (Bytes → Bytes)) (content type : Bytes) (encoding : Encoding)
    (charset : Bytes) : Parts :=
  if type = [] then
    match getType with
    | some getType => ⟨encoding, getType content, []⟩
    | none =>
        if encoding = .base64 then ⟨encoding, str "application/octet-stream", []⟩
        else ⟨encoding, str "text/plain", charset⟩
  else ⟨encoding, type, charset⟩

def choose (getType : Option (Bytes → Bytes)) (content type : Bytes) (encoding : Encoding)
    (charset : Bytes) : Parts :=
  chooseType getType content type (chosenEncoding content charset encoding) charset

/-- The headers of a section and the empty line; `cr` is which `u_line_terminator` there is. -/
def headText (cr : Bool) (p : Parts) (name header : Bytes) : Bytes :=
  header ++ (if header = [] then [] else lineEnd cr) ++ str "Content-Type: " ++ p.type ++
    (if p.charset = [] then [] else str "; charset=\"" ++ p.charset ++ str "\"") ++
    (if name = [] then [] else str "; name=\"" ++ name ++ str "\"") ++ lineEnd cr ++
    (if p.encoding = .none then []
      else str "Content-Transfer-Encoding: " ++ strEncoding p.encoding ++ lineEnd cr) ++
    lineEnd cr

/-- The content as it is transferred; `none` where it is not encoded. -/
def transferText (cr : Bool) (encoding : Encoding) (content : Bytes) : Option Bytes :=
  match encoding with
  | .base64 => some (Base64.encode (lineEnd cr) 64 content)
  | .quotedPrintable => some (QuotedPrintable.encode content)
  | _ => none

/-- The headers are printed into a buffer of 4000 bytes, and the encoded text with a NUL into one
of four times the length, in 32 bits. Behind the end of a block the memory is not ours. -/
def sectionText (cr : Bool) (getType : Option (Bytes → Bytes)) (content type : Bytes)
    (encoding : Encoding) (charset name header : Bytes) : Option Bytes :=
  let p := choose getType content type encoding charset
  let head := headText cr p name header
  if blockSize 4000 < head.length then none
  else
    match transferText cr p.encoding content with
    | none => some (head ++ content)
    | some tmp =>
        if blockSize (content.length * 4 % 2 ^ 32) ≤ tmp.length then none else some (head ++ tmp)

/-! ### UMimeEntity -/

/-- The loop of `u_findEndHeader` from `pos` on, with the byte before. -/
def findEndHeader : UInt8 → Nat → Bytes → Option Nat
  | _, _, [] => none
  | prev, pos, c :: t =>
      if c = lineFeed then
        if peek t 0 = carriageReturn ∧ prev = carriageReturn ∧ peek t 1 = lineFeed then
          some (pos + 3)
        else if peek t 0 = lineFeed then some (pos + 2)
        else findEndHeader c (pos + 1) t
      else findEndHeader c (pos + 1) t

def contentType : Bytes := str "Content-Type"

def contentTransferEncoding : Bytes := str "Content-Transfer-Encoding"

/-- `tolower` -/
def toLower (c : UInt8) : UInt8 := if 'A'.toUInt8 ≤ c ∧ c ≤ 'Z'.toUInt8 then c + 32 else c

/-- `U_STRNCASECMP(ptr, word) == 0`, for a word without capitals. -/
def startsWith (t word : Bytes) : Bool := (t.take word.length).map toLower = word

def decodeBody (tfrEncoding : Bytes) (body : Bytes) : Option Bytes :=
  if startsWith tfrEncoding (str "base64") then
    (Base64.decode body).map fun (buffer, errors) =>
      if errors = false ∧ buffer ≠ [] then buffer else body
  else if startsWith tfrEncoding (str "quoted-printable") then
    let buffer := QuotedPrintable.decode body
    some (if buffer ≠ [] then buffer else body)
  else some body

structure UMimeEntity where
  parse_result : Bool
  content : Bytes
  deriving DecidableEq, Repr

/-- The constructor for a text. -/
def entity (data : Bytes) : Option UMimeEntity :=
  match findEndHeader 0 0 data with
  | none => some ⟨false, []⟩
  | some endHeader => do
      let (count, table) ← parse (data.take endHeader) (allocated 53)
      if count = 0 then some ⟨false, []⟩
      else
        let (content_type, table) ← at' table contentType
        if content_type.getD [] = [] then some ⟨false, []⟩
        else
          let (tfrEncoding, _) ← at' table contentTransferEncoding
          let content ← decodeBody (tfrEncoding.getD []) (data.drop endHeader)
          some ⟨true, content⟩

end ULib.MimeSection
