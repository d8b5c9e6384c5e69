import ULib.EscapeCoding
import ULib.QueryTree

/-!
The tokenizer of `tokenizer.h` and `tokenizer.cpp` as far as the query parser
uses it, the recursive descent of `query/query_parser.cpp`, and the printing of
a tree. A test for a token compares whole bytes and may read past the end of
the text, so what lies behind the text is part of the tokenizer.
-/

namespace ULib.QueryParser

open ULib.KeyComparison
open ULib.EscapeCoding
open ULib.QueryTree

/-! ### UTokenizer -/

/-- `s` counts from the first byte of `str`; `beyond` are the bytes of the memory behind it. -/
structure UTokenizer where
  str : Bytes
  beyond : Nat → UInt8
  s : Nat

namespace UTokenizer

/-- `setData`. -/
def setData (str : Bytes) (beyond : Nat → UInt8) : UTokenizer := ⟨str, beyond, 0⟩

variable (t : UTokenizer)

def atEnd : Bool := t.str.length ≤ t.s

def byteAt (i : Nat) : UInt8 :=
  if i < t.str.length then t.str.getD i 0 else t.beyond (i - t.str.length)

def bytesAt (p n : Nat) : Bytes := (List.range n).map fun i => t.byteAt (p + i)

/-- The bytes from `p` up to the end. -/
def rest (p : Nat) : Bytes := t.str.drop p

def skipSpaces : UTokenizer := { t with s := t.s + ((t.rest t.s).takeWhile isSpace).length }

def tokenSeen (x : Bytes) : Bool × UTokenizer :=
  let t := t.skipSpaces
  if t.s < t.str.length ∧ t.bytesAt t.s x.length = x then (true, { t with s := t.s + x.length })
  else (false, t)

/-- A byte inside of a word. -/
def isName (c : UInt8) : Bool := !isSpace c && c != '('.toUInt8 && c != ')'.toUInt8

def getTokenQueryParser : Bytes × UTokenizer :=
  let t := t.skipSpaces
  let p := t.s
  let s := p + 1
  let s :=
    if t.byteAt p = '"'.toUInt8 then
      -- the closing quote belongs to the token
      s + min (((t.rest s).takeWhile (· != '"'.toUInt8)).length + 1) (t.rest s).length
    else s + ((t.rest s).takeWhile isName).length
  (t.bytesAt p (s - p), { t with s })

end UTokenizer

/-! ### UQueryParser -/

def s_p1 : Bytes := ['('.toUInt8]
def s_p2 : Bytes := [')'.toUInt8]
def s_or : Bytes := ['O'.toUInt8, 'R'.toUInt8]
def s_and : Bytes := ['A'.toUInt8, 'N'.toUInt8, 'D'.toUInt8]
def s_not : Bytes := ['N'.toUInt8, 'O'.toUInt8, 'T'.toUInt8]

def isBraceStart (t : UTokenizer) : Bool × UTokenizer := t.tokenSeen s_p1
def isBraceEnd (t : UTokenizer) : Bool × UTokenizer := t.tokenSeen s_p2
def isOR (t : UTokenizer) : Bool × UTokenizer := t.tokenSeen s_or
def isAND (t : UTokenizer) : Bool × UTokenizer := t.tokenSeen s_and
def isNOT (t : UTokenizer) : Bool × UTokenizer := t.tokenSeen s_not

/-- What a parse comes to: `none` is a recursion deeper than the bound, an exception the message
of `U_ERROR`, which ends the process. -/
abbrev Parse (α : Type) : Type := ExceptT String Option α

def Parse.tooDeep {α : Type} : Parse α := (none : Option (Except String α))

/-- The loop of `parseFactor` over the NOTs. -/
def notLoop : Nat → Bool → UTokenizer → Parse (Bool × UTokenizer)
  | 0, _, _ => .tooDeep
  | fuel + 1, v, t =>
      match isNOT t with
      | (true, t) => notLoop fuel (!v) t
      | (false, t) => pure (v, t)

mutual

def parseExpr : Nat → UTokenizer → Parse (UQueryNode × UTokenizer)
  | 0, _ => .tooDeep
  | fuel + 1, t => do
      let (left, t) ← parseTerm fuel t
      match isOR t with
      | (false, t) => pure (left, t)
      | (true, t) => do
          let (right, t) ← parseExpr fuel t
          pure (.ofType .or left right, t)

def parseTerm : Nat → UTokenizer → Parse (UQueryNode × UTokenizer)
  | 0, _ => .tooDeep
  | fuel + 1, t => do
      let (left, t) ← parseFactor fuel t
      match isAND t with
      | (false, t) => pure (left, t)
      | (true, t) => do
          let (right, t) ← parseTerm fuel t
          pure (.ofType .and left right, t)

def parseFactor : Nat → UTokenizer → Parse (UQueryNode × UTokenizer)
  | 0, _ => .tooDeep
  | fuel + 1, t => do
      let (v, t) ← notLoop fuel true t
      let (atom, t) ← parseAtom fuel t
      pure (if v then atom else .ofType .not .null atom, t)

def parseAtom : Nat → UTokenizer → Parse (UQueryNode × UTokenizer)
  | 0, _ => .tooDeep
  | fuel + 1, t =>
      match isBraceStart t with
      | (true, t) => do
          let (expr, t) ← parseExpr fuel t
          match isBraceEnd t with
          | (true, t) => pure (expr, t)
          | (false, _) => throw "syntax error on query - RUNAWAY PARENTHESIS"
      | (false, t) =>
          let (token, t) := t.getTokenQueryParser
          pure (.ofValue token, t)

end

/-! ### Printing -/

def inBraces (parent : Bool) (text : Bytes) : Bytes :=
  if parent then s_p1 ++ text ++ s_p2 else text

def blank : Bytes := [' '.toUInt8]

/-- `operator<<`. -/
def print : UQueryNode → Option Bytes
  | .null => none
  | .node .value v _ _ => some v
  | .node .not _ _ r => do
      let rt ← r.type
      let parent := rt == .and || rt == .or
      let text ← print r
      some (blank ++ s_not ++ blank ++ inBraces parent text)
  | .node .or _ l r => do
      let ltext ← print l
      let rtext ← print r
      some (ltext ++ (blank ++ s_or ++ blank) ++ rtext)
  | .node .and _ l r => do
      let lt ← l.type
      let ltext ← print l
      let rt ← r.type
      let rtext ← print r
      some (inBraces (lt == .or) ltext ++ (blank ++ s_and ++ blank) ++
        inBraces (rt == .or) rtext)

end ULib.QueryParser
