import ULib.EscapeCoding
import ULib.HashMap

/-!
The text of `UVector<UString>` and `UHashMap<UString>`: `UStringRep::write` and the
`operator<<` of the containers, `UString::getline` and the operators that read them back.
-/

namespace ULib.ContainerStream

open ULib.KeyComparison
open ULib.EscapeCoding
open ULib.HashMap

/-- A string in memory: the byte that stands before its text, and the text. -/
structure Stored where
  before : UInt8
  text : Bytes
  deriving DecidableEq, Repr

def blank : UInt8 := 0x20

def lineFeed : UInt8 := '\n'.toUInt8

def tab : UInt8 := '\t'.toUInt8

/-- `#` -/
def hash : UInt8 := '#'.toUInt8

/-! ### Writing -/

/-- `strchr(" \"\\\n\r\t\b", c)`, which finds a NUL at the end of its string. -/
def asksQuote (c : UInt8) : Bool :=
  [blank, quote, backslash, lineFeed, '\r'.toUInt8, tab, 8, 0].contains c

def needQuote (t : Bytes) : Bool := t.isEmpty || t.any asksQuote

/-- The text up to a quote is written as it is; `prev` is the byte `p[-1]`. -/
def escapeQuotes : UInt8 → Bytes → Bytes
  | _, [] => []
  | prev, c :: t =>
      if c = quote then
        (if prev = backslash then [backslash] else []) ++ backslash :: quote :: escapeQuotes c t
      else c :: escapeQuotes c t

/-- `UStringRep::write` -/
def write (s : Stored) : Bytes :=
  if needQuote s.text then quote :: (escapeQuotes s.before s.text ++ [quote]) else s.text

def writeVector (v : List Stored) : Bytes :=
  ['('.toUInt8, blank] ++ (v.map fun s => write s ++ [blank]).flatten ++ [')'.toUInt8]

/-- The nodes in the order of the table; `before` is the byte before the text of a key. -/
def writeMap (before : Bytes → UInt8) (t : UHashMap Stored) : Option Bytes :=
  (callForAllEntry t).map fun entries =>
    ['['.toUInt8, lineFeed] ++
      (entries.map fun (key, elem) => write ⟨before key, key⟩ ++ tab :: write elem ++ [lineFeed]).flatten ++
      [']'.toUInt8]

/-! ### UString::getline -/

/-- `strchr("nrt\nbfvae", c)` but for the line feed. -/
def keepsBackslash (c : UInt8) : Bool :=
  (['n', 'r', 't', 'b', 'f', 'v', 'a', 'e'].map Char.toUInt8).contains c || c = 0

/-- What the loop of `getline` does with the next byte: it stands behind a backslash, or behind
a line that is continued. -/
inductive Mode
  | plain
  | escaped
  | continued
  deriving DecidableEq, Repr

/-- The bytes that are appended, and how the loop goes on; `none` is the delimiter. -/
def plainByte (delim c : UInt8) : Bytes × Option Mode :=
  if c = backslash then ([], some .escaped)
  else if c = delim then ([], none)
  else ([c], some .plain)

def byteStep (delim : UInt8) : Mode → UInt8 → Bytes × Option Mode
  | .plain, c => plainByte delim c
  | .escaped, c =>
      if c = delim then ([delim], some .plain)
      else if keepsBackslash c then ([backslash, c], some .plain)
      else if c = lineFeed then ([], some .continued)
      else ([c], some .plain)
  | .continued, c =>
      if isSpace c then ([], some .continued)
      else (lineFeed :: (plainByte delim c).1, (plainByte delim c).2)

/-- What is read, and what is behind it. -/
def getline (delim : UInt8) : Mode → Bytes → Bytes × Bytes
  | _, [] => ([], [])
  | mode, c :: t =>
      match byteStep delim mode c with
      | (out, some mode) => ((getline delim mode t).map (out ++ ·) id)
      | (out, none) => (out, t)

/-! ### Reading -/

def skipSpace (inp : Bytes) : Bytes := inp.dropWhile isSpace

/-- `operator>>` of a string, with the first byte no white space. -/
def readWord (inp : Bytes) : Bytes × Bytes :=
  (inp.takeWhile fun c => !isSpace c, inp.dropWhile fun c => !isSpace c)

/-- `UString::get` -/
def get : Bytes → Bytes × Bytes
  | [] => ([], [])
  | c :: t => if c = quote then getline quote .plain t else readWord (c :: t)

/-- A comment goes up to the end of its line. -/
def skipComment (inp : Bytes) : Bytes := (inp.dropWhile (· ≠ lineFeed)).drop 1

/-- The loop of `readVector`: every round but the last reads a byte. -/
def readVectorLoop (terminator : UInt8) : Nat → Bytes → List Bytes × Bytes
  | 0, inp => ([], inp)
  | left + 1, inp =>
      match skipSpace inp with
      | [] => ([], [])
      | c :: t =>
          if c = terminator then ([], t)
          else if c = hash then readVectorLoop terminator left (skipComment t)
          else (readVectorLoop terminator left (get (c :: t)).2).map ((get (c :: t)).1 :: ·) id

/-- The elements that are pushed, and what is behind the vector. -/
def readVector : Bytes → List Bytes × Bytes
  | [] => ([], [])
  | c :: t =>
      readVectorLoop (if c = '['.toUInt8 then ']'.toUInt8 else ')'.toUInt8) (t.length + 1) t

/-- The loop that reads a map; there may be no terminator. -/
def readMapLoop (terminator : Option UInt8) :
    Nat → Bytes → UHashMap Bytes → Option (UHashMap Bytes × Bytes)
  | 0, inp, t => some (t, inp)
  | left + 1, inp, t =>
      match skipSpace inp with
      | [] => some (t, [])
      | c :: u =>
          if terminator = some c ∨ (terminator = none ∧ (c = '}'.toUInt8 ∨ c = ']'.toUInt8)) then
            some (t, u)
          else if c = hash then readMapLoop terminator left (skipComment u) t
          else
            let (key, u) := get (c :: u)
            match skipSpace u with
            | [] => some (t, [])
            | v =>
                let (str, v) := get v
                (insert t key str).bind fun t => readMapLoop terminator left v t

def readMap (inp : Bytes) (t : UHashMap Bytes) : Option (UHashMap Bytes × Bytes) :=
  match inp with
  | [] => some (t, [])
  | c :: u =>
      if c = '{'.toUInt8 then readMapLoop (some '}'.toUInt8) (u.length + 1) u t
      else if c = '['.toUInt8 then readMapLoop (some ']'.toUInt8) (u.length + 1) u t
      else readMapLoop none (inp.length + 1) inp t

/-! ### What is read back -/

/-- Every backslash stands before a quote, or before a byte that keeps it. -/
def KeepsBackslashes : Bytes → Prop
  | [] => True
  | c :: t =>
      (c = backslash → t.head?.any (fun d => d = quote || keepsBackslash d) = true) ∧
        KeepsBackslashes t

/-- A string comes back as it was: between quotes by its backslashes, and without them by its white
space and its first byte. -/
def Readable (stops : Bytes) (s : Stored) : Prop :=
  if needQuote s.text then
    KeepsBackslashes s.text ∧ ¬ (s.before = backslash ∧ s.text.head? = some quote)
  else (∀ c ∈ s.text, isSpace c = false) ∧ ∀ c ∈ stops, s.text.head? ≠ some c

instance decidableKeepsBackslashes : DecidablePred KeepsBackslashes
  | [] => isTrue trivial
  | _ :: t =>
      have := decidableKeepsBackslashes t
      inferInstanceAs (Decidable (_ ∧ _))

instance (stops : Bytes) (s : Stored) : Decidable (Readable stops s) :=
  inferInstanceAs (Decidable (if needQuote s.text then _ else _))

end ULib.ContainerStream
