import ULib.ByteMemory
import ULib.QueryParser

/-!
From the tree of a query to its answer, after `query/query_parser.cpp`: useless
terms are taken out of the sum of products, the words of each term are collected,
and they are evaluated with the replies of the callback in a table. A `UString`
is the address of its `UStringRep`; in the tree of a parsed query the values are
these addresses, and `text` gives what the objects there say. `none` is an
access through a null pointer or past the table.
-/

namespace ULib.QueryEvaluation

open ULib.KeyComparison
open ULib.ByteMemory
open ULib.QueryTree
open ULib.QueryTree.UQueryNode
open ULib.QueryParser

/-- The objects of the words are made from left to right. -/
def place : UQueryNode → List Bytes → UQueryNode × List Bytes
  | .null, addresses => (.null, addresses)
  | .node .value v l r, [] => (.node .value v l r, [])
  | .node .value _ l r, a :: addresses => (.node .value a l r, addresses)
  | .node t v l r, addresses =>
      let (l, addresses) := place l addresses
      let (r, addresses) := place r addresses
      (.node t v l r, addresses)

/-! ### Sets of words -/

section Words

variable (text : Bytes → Bytes)

/-- `UVector<UString>::find` -/
def find (vec : List Bytes) (str : Bytes) : Bool := vec.any fun r => text str == text r

def insertAsSet (vec : List Bytes) (str : Bytes) : List Bytes :=
  if vec.isEmpty ∨ find text vec str = false then vec ++ [str] else vec

/-- What `intersection` pushes into an empty vector. -/
def intersection (set1 set2 : List Bytes) : List Bytes :=
  if set1.isEmpty ∨ set2.isEmpty then [] else set1.filter (find text set2)

/-- The positives and the negatives. -/
def getTreeVariables : UQueryNode → List Bytes × List Bytes → Option (List Bytes × List Bytes)
  | .null, _ => none
  | .node .value v _ _, (positives, negatives) => some (insertAsSet text positives v, negatives)
  | .node .not _ _ r, (positives, negatives) => do
      let v ← r.value
      some (positives, insertAsSet text negatives v)
  | .node _ _ l r, sets => do
      let sets ← getTreeVariables l sets
      getTreeVariables r sets

def isDNFTermUseful (term : UQueryNode) : Option Bool := do
  let (positives, negatives) ← getTreeVariables text term ([], [])
  some ((intersection text positives negatives).length == 0)

end Words

/-! ### Terms -/

def getDNFTermRoots : UQueryNode → Option (List UQueryNode)
  | .null => none
  | .node .or _ l r => do
      let left ← getDNFTermRoots l
      let right ← getDNFTermRoots r
      some (left ++ right)
  | term => some [term]

def joinTreesWithOrNodes : List UQueryNode → UQueryNode
  | [] => .null
  | t :: trees => trees.foldl (fun result t => .ofType .or result t) t

section Queries

variable (text : Bytes → Bytes)

/-- The useful ones. -/
def usefulTerms : List UQueryNode → Option (List UQueryNode)
  | [] => some []
  | dn :: termRoots => do
      let useful ← isDNFTermUseful text dn
      let terms ← usefulTerms termRoots
      some (if useful then dn :: terms else terms)

def getDisjunctiveNormalForm (fuel : Nat) (root : UQueryNode) : Option UQueryNode := do
  let dnfRoot ← getRawDNF fuel root
  if dnfRoot = .null then some dnfRoot
  else
    let termRoots ← getDNFTermRoots dnfRoot
    let terms ← usefulTerms text termRoots
    some (if terms.length = termRoots.length then dnfRoot else joinTreesWithOrNodes terms)

def parse (fuel : Nat) (addresses : List Bytes) (query : Bytes) (beyond : Nat → UInt8) :
    Parse UQueryNode := do
  let (tree, t) ← parseExpr fuel (.setData query beyond)
  if t.atEnd then
    match getDisjunctiveNormalForm text fuel (place tree addresses).1 with
    | some tree => pure tree
    | none => .tooDeep
  else throw "syntax error on query - GARBAGE AT END"

/-- The sets of each term. -/
def termVariables : List UQueryNode → Option (List (List Bytes × List Bytes))
  | [] => some []
  | term :: termRoots => do
      let sets ← getTreeVariables text term ([], [])
      let rest ← termVariables termRoots
      some (sets :: rest)

def startEvaluate (tree : UQueryNode) : Option (List (List Bytes × List Bytes)) := do
  let termRoots ← getDNFTermRoots tree
  termVariables text termRoots

end Queries

/-! ### Evaluation -/

/-- The size of `u_buffer`. -/
def U_MAX_SIZE_PREALLOCATE : Nat := 4096

structure Evaluation where
  u_buffer : Mem
  u_buffer_len : Nat
  partial_ : Bool

/-- `u_find`: where `a` begins in `s`. -/
def u_find (s a : Bytes) : Option Nat :=
  (List.range (s.length + 1 - a.length)).find? fun pos => (s.drop pos).take a.length == a

section Evaluate

variable (function : Bytes → Bool)

/-- `UQueryParser::evaluate(UStringRep*, bool)`, where the callback is called with
an address. A record of the table is an address and a digit. -/
def evaluateWord (_word : Bytes) (positive : Bool) (s : Evaluation) : Option Evaluation :=
  let answer (result : Bool) (s : Evaluation) : Evaluation :=
    { s with partial_ := if positive ≠ result then false else s.partial_ }
  let p := if s.u_buffer_len ≠ 0 then u_find (read s.u_buffer 0 s.u_buffer_len) _word else none
  match p with
  | some pos => some (answer (s.u_buffer (pos + _word.length) == '1'.toUInt8) s)
  | none =>
      let result := function _word
      let record := _word ++ [if result then '1'.toUInt8 else '0'.toUInt8]
      if U_MAX_SIZE_PREALLOCATE < s.u_buffer_len + record.length then none
      else
        some (answer result { s with u_buffer := write s.u_buffer s.u_buffer_len record
                                     u_buffer_len := s.u_buffer_len + record.length })

/-- `callForAllEntry` with `pos_evaluate` or `neg_evaluate`. -/
def callForAllEntry (positive : Bool) : List Bytes → Evaluation → Option Evaluation
  | [], s => some s
  | _word :: vec, s => do
      let s ← (if positive ∨ s.partial_ then evaluateWord function _word positive s else some s)
      if s.partial_ then callForAllEntry positive vec s else some s

/-- The loop of `evaluate` over the terms. -/
def evaluateTerms : List (List Bytes × List Bytes) → Evaluation → Option Bool
  | [], _ => some false
  | (positives, negatives) :: terms, s => do
      let s ← callForAllEntry function true positives { s with partial_ := true }
      let s ← callForAllEntry function false negatives s
      if s.partial_ then some true else evaluateTerms terms s

/-- `UQueryParser::evaluate()`, with what `u_buffer` holds from before. -/
def evaluate (terms : List (List Bytes × List Bytes)) (u_buffer : Mem) : Option Bool :=
  evaluateTerms function terms ⟨u_buffer, 0, true⟩

end Evaluate

/-- A query parsed and evaluated, where `σ` is the truth value of a text. -/
def answer (fuel : Nat) (text : Bytes → Bytes) (addresses : List Bytes) (query : Bytes)
    (beyond : Nat → UInt8) (σ : Bytes → Bool) (u_buffer : Mem) : Parse Bool := do
  let tree ← parse text fuel addresses query beyond
  match (startEvaluate text tree).bind fun terms =>
    evaluate (fun a => σ (text a)) terms u_buffer with
  | some result => pure result
  | none => .tooDeep

end ULib.QueryEvaluation
