import ULib.HashMap
import ULib.JsonValue

/-!
The tokenizer calls and the recursive descent of `UValue::parse`. A position is
a distance from the first byte of the document; `none` is the result `false`.
-/

namespace ULib.JsonParser

open ULib.KeyComparison
open ULib.HashMap
open ULib.EscapeCoding
open ULib.JsonValue

section
variable (doc : Bytes)

/-- `UTokenizer::skipSpaces`. -/
def skipSpaces (s : Nat) : Nat := s + ((doc.drop s).takeWhile isSpace).length

/-- `UTokenizer::next`. -/
def nextChar (s : Nat) : UInt8 × Nat := if doc.length ≤ s then (0, s) else (peek doc s, s + 1)

/-- `UTokenizer::skipToken`, which compares the length of the token with the
distance from the first byte. -/
def skipToken (s : Nat) (token : Bytes) : Option Nat :=
  if token.length ≤ s ∧ copied (doc.drop s) token.length = token then some (s + token.length)
  else none

/-- The loop of `UTokenizer::skipNumber`. -/
def numberLoop : Bytes → Bool → Nat → Option (Bool × Nat)
  | [], _, _ => none
  | c :: t, isReal, s =>
      if isDigit c ∨ c = '-'.toUInt8 then numberLoop t isReal (s + 1)
      else if c = '.'.toUInt8 ∨ c = 'e'.toUInt8 ∨ c = 'E'.toUInt8 ∨ c = '+'.toUInt8 then
        numberLoop t true (s + 1)
      else some (isReal, s)

def skipNumber (s : Nat) : Option (Bool × Nat) := numberLoop (doc.drop s) false s

end

/-- `strtoul(start, 0, 10)` of a number without a sign. -/
def strtoul (t : Bytes) : Nat :=
  min ((t.takeWhile isDigit).foldl (fun n c => n * 10 + (c - '0'.toUInt8).toNat) 0) (2 ^ 64 - 1)

/-- `strtol(start, 0, 10)` of a number with a minus. -/
def strtol (t : Bytes) : Int :=
  max (-((t.tail.takeWhile isDigit).foldl (fun n c => n * 10 + (c - '0'.toUInt8).toNat) 0 : Nat))
    (-2 ^ 63)

variable {ρ : Type*} (D : Doubles ρ) (doc : Bytes)

/-- The rest of a string, behind its first quote. -/
def readString (s : Nat) : Option (UValue ρ × Nat) :=
  let sz := findChar (peek doc (s - 2)) (peek doc (s - 1)) (doc.drop s)
  let s' := if s + sz < doc.length then s + sz + 1 else s
  if sz = 0 then some (.string [], s')
  else
    let t := escapeDecode (doc.drop s) sz
    if t = [] then none else some (.string t, s')

/-- A number that begins at `start` with `c` and goes on at `s`. -/
def readNumber (start : Nat) (c : UInt8) (s : Nat) : Option (UValue ρ × Nat) :=
  (skipNumber doc s).map fun r =>
    (if r.1 then .real (D.strtod (doc.drop start))
      else if c = '-'.toUInt8 then .int (Int32.ofInt (strtol (doc.drop start)))
      else .uint (UInt32.ofNat (strtoul (doc.drop start))), r.2)

/-- `tok.back()`, unless the byte before the position is a comma. -/
def behindComma (c : UInt8) (s : Nat) : Nat := if c = ','.toUInt8 then s else s - 1

mutual

/-- `UValue::readValue`; every call is behind another byte of the document. -/
def readValue : Nat → Nat → Option (UValue ρ × Nat)
  | 0, _ => none
  | fuel + 1, s =>
      let start := skipSpaces doc s
      let r := nextChar doc start
      let c := r.1
      if c = 0 then some (.null, r.2)
      else if c = 'n'.toUInt8 then (skipToken doc r.2 nullText.tail).map fun s => (.null, s)
      else if c = 't'.toUInt8 then
        (skipToken doc r.2 trueText.tail).map fun s => (.boolean true, s)
      else if c = 'f'.toUInt8 then
        (skipToken doc r.2 falseText.tail).map fun s => (.boolean false, s)
      else if isDigit c ∨ c = '-'.toUInt8 then readNumber D doc start c r.2
      else if c = quote then readString doc r.2
      else if c = '['.toUInt8 then readItems fuel r.2 []
      else if c = '{'.toUInt8 then readMembers fuel r.2 (allocated 53)
      else none

/-- The loop over the items of an array. -/
def readItems : Nat → Nat → List (UValue ρ) → Option (UValue ρ × Nat)
  | 0, _, _ => none
  | fuel + 1, s, items =>
      let r := nextChar doc (skipSpaces doc s)
      if r.1 = ']'.toUInt8 ∨ r.1 = 0 then some (.array items, r.2)
      else
        (readValue fuel (behindComma r.1 r.2)).bind fun item =>
          readItems fuel item.2 (items ++ [item.1])

/-- The loop over the members of an object. -/
def readMembers : Nat → Nat → UHashMap (UValue ρ) → Option (UValue ρ × Nat)
  | 0, _, _ => none
  | fuel + 1, s, table =>
      let r := nextChar doc (skipSpaces doc s)
      if r.1 = '}'.toUInt8 ∨ r.1 = 0 then
        (callForAllEntry table).map fun members => (.object members, r.2)
      else
        (readValue fuel (behindComma r.1 r.2)).bind fun name =>
          let colon := nextChar doc (skipSpaces doc name.2)
          match name.1 with
          | .string key =>
              if colon.1 = ':'.toUInt8 then
                (readValue fuel colon.2).bind fun item =>
                  (HashMap.insert table key item.1).bind fun table =>
                    readMembers fuel item.2 table
              else none
          | _ => none

end

/-- `UValue::parse`. -/
def parse : Option (UValue ρ) :=
  let s := skipSpaces doc 0
  let c := peek doc s
  if c = '['.toUInt8 ∨ c = '{'.toUInt8 then (readValue D doc (doc.length + 1) s).map Prod.fst
  else none

end ULib.JsonParser
