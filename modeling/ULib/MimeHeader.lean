import ULib.ContainerStream
import ULib.MimeMultipart
import ULib.UrlText

/-!
The table of `UMimeHeader` in `mime/header.cpp`: `parse`, which reads the lines of a text into
it, and `writeHeaders`.
-/

namespace ULib.MimeHeader

open ULib.KeyComparison
open ULib.EscapeCoding
open ULib.HashMap
open ULib.MimeMultipart
open ULib.ContainerStream
open ULib.UrlText

def carriageReturn : UInt8 := '\r'.toUInt8

/-- `(cr ? U_CRLF : U_LF)` -/
def lineEnd (cr : Bool) : Bytes := if cr then crlf else [lineFeed]

/-! ### UMimeHeader::parse -/

/-- `ptr - pkv - cr`, with the positions behind `prev`: below zero it wraps around in 32 bits,
and the copy reads far behind the text. -/
def span (ptr pkv : Nat) (cr : Bool) : Option Nat :=
  if pkv + cr.toNat ≤ ptr then some (ptr - pkv - cr.toNat) else none

/-- What follows the white space from `pos` on, with its position. -/
def skipWhite (inp : Bytes) (pos : Nat) : Bytes × Nat :=
  let rest := skipSpace (inp.drop pos)
  (rest, inp.length - rest.length)

/-- The table after a line with `key`; `cr` is how the line ends. -/
def addHeader (table : UHashMap Bytes) (key value : Bytes) (cr : Bool) :
    Option (UHashMap Bytes) := do
  let (found, table) ← find table key
  if found = false then insertAfterFind table key value
  else
    let node ← table.heap table.node
    if value = node.elem then some table
    else
      let duplicate := node.elem ++ lineEnd cr ++ key ++ [colon, blank]
      replaceAfterFind table duplicate

/-- What a line does to `value` and the table; `ptr` is the end of the line, and the inner `none`
ends the loop. -/
def parseLine (inp : Bytes) (ptr : Nat) (cr : Bool) (value : Bytes) (table : UHashMap Bytes) :
    Option (Option (Bytes × UHashMap Bytes)) :=
  if isSpace (peek inp 0) then do
    -- the line continues the one before it
    if value = [] then some (some (value, table))
    else
      let (text, prev) := skipWhite inp 0
      let len ← span ptr prev cr
      let value := value ++ text.take len
      let table ← replaceAfterFind table value
      some (some (value, table))
  else do
    let key := inp.takeWhile (· ≠ colon)
    if ptr ≤ key.length then some none
    else
      let (text, pkv) := skipWhite inp (key.length + 1)
      let len ← span ptr pkv cr
      let value := text.take len
      let table ← addHeader table key value cr
      some (some (value, table))

/-- The loop over the lines, for fewer than `n` of them. -/
def parseLoop : Nat → Bytes → Bytes → UHashMap Bytes → Option (UHashMap Bytes)
  | 0, _, _, _ => none
  | n + 1, inp, value, table =>
      if inp = [] then some table
      else
        let line := inp.takeWhile (· ≠ lineFeed)
        if line.length < inp.length ∧ line.all isSpace then some table
        else
          let cr := line.getLast? = some carriageReturn
          (parseLine inp line.length cr value table).bind fun
            | none => some table
            | some (value, table) => parseLoop n (inp.drop (line.length + 1)) value table

/-- The number of new entries, and the table. -/
def parse (text : Bytes) (table : UHashMap Bytes) : Option (Nat × UHashMap Bytes) :=
  if text.head? = some lineFeed then some (0, table)
  else
    (parseLoop (text.length + 1) text [] table).map fun t =>
      ((t.length + 2 ^ 32 - table.length) % 2 ^ 32, t)

/-! ### UMimeHeader::writeHeaders -/

def headerLine (e : Bytes × Bytes) : Bytes := e.1 ++ [colon, blank] ++ e.2 ++ crlf

def writeHeaders (table : UHashMap Bytes) (buffer : Bytes) : Option (Bytes × UHashMap Bytes) :=
  (iterate table).map fun (entries, table) => (buffer ++ (entries.map headerLine).flatten, table)

end ULib.MimeHeader
