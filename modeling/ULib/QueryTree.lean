import ULib.KeyComparison

/-!
The class `UQueryNode` of `query/parser.h` and `query/query_parser.cpp`: the
tree of a boolean query and its rewriting into a sum of products. A tree owns
its nodes; `none` is an access through a null pointer.
-/

namespace ULib.QueryTree

open ULib.KeyComparison

/-- `UQueryNode::Type`. -/
inductive Kind where
  | value
  | and
  | or
  | not
  deriving DecidableEq, Repr

/-- A pointer to a node, with the tree below it. -/
inductive UQueryNode where
  | null
  | node (type : Kind) (value : Bytes) (left right : UQueryNode)
  deriving DecidableEq, Repr

namespace UQueryNode

/-- `UQueryNode(const UString&)`. -/
def ofValue (d : Bytes) : UQueryNode := .node .value d .null .null

/-- `UQueryNode(Type, UQueryNode*, UQueryNode*)`. -/
def ofType (t : Kind) (l r : UQueryNode) : UQueryNode := .node t [] l r

def type : UQueryNode → Option Kind
  | .null => none
  | .node t _ _ _ => some t

def value : UQueryNode → Option Bytes
  | .null => none
  | .node _ v _ _ => some v

def left : UQueryNode → Option UQueryNode
  | .null => none
  | .node _ _ l _ => some l

def right : UQueryNode → Option UQueryNode
  | .null => none
  | .node _ _ _ r => some r

def isDisjunctiveNormalForm : UQueryNode → Bool
  | .null => false
  | .node .value _ l r => l == .null && r == .null
  | .node .not _ l r =>
      if l ≠ .null ∨ r = .null ∨ isDisjunctiveNormalForm r = false then false
      else r.type == some .value || r.type == some .not
  | .node .and _ l r =>
      if l = .null ∨ r = .null ∨ isDisjunctiveNormalForm l = false ∨
        isDisjunctiveNormalForm r = false then false
      else l.type != some .or && r.type != some .or
  | .node .or _ l r =>
      if l = .null ∨ r = .null ∨ isDisjunctiveNormalForm l = false ∨
        isDisjunctiveNormalForm r = false then false
      else true

def cloneTree : UQueryNode → UQueryNode
  | .null => .null
  | .node t v l r => .node t v (cloneTree l) (cloneTree r)

/-! ### The disjunctive normal form -/

/-- A tree of two levels, which is left as it is. -/
def isTwoLevels : Kind → UQueryNode → UQueryNode → Option Bool
  | .value, _, _ => some false
  | .not, _, r => do
      let rt ← r.type
      some (rt == .value)
  | _, l, r => do
      let lt ← l.type
      if lt = .value then
        let rt ← r.type
        some (rt == .value)
      else some false

/-- The children in the conventional order. -/
def order (l r : UQueryNode) : Option (UQueryNode × UQueryNode) := do
  let lt ← l.type
  let rt ← r.type
  let (l, r) := if lt ≠ .value ∧ rt = .value then (r, l) else (l, r)
  let lt ← l.type
  let rt ← r.type
  if lt = .not ∧ rt = .or then some (r, l)
  else if lt = .not ∧ rt = .and then some (r, l)
  else if lt = .or ∧ rt = .and then some (r, l)
  else some (l, r)

/-- How `getRawDNF` goes on behind the recursive calls on the children: it
returns a tree, or what it returns for another tree. -/
inductive Step where
  | done (root : UQueryNode)
  | again (root : UQueryNode)

def Step.resume (next : UQueryNode → Option UQueryNode) : Step → Option UQueryNode
  | .done root => some root
  | .again root => next root

/-- The part of `getRawDNF` for a NOT; `none` inside is the way on to the code for the
other types. -/
def notCase (v : Bytes) (l r : UQueryNode) : Option (Option Step) := do
  match ← r.type with
  | .not =>
      let newRoot ← r.right
      some (some (.again newRoot))
  | .or =>
      let a ← r.left
      let b ← r.right
      some (some (.again (ofType .and (.node .not v l a) (ofType .not .null b))))
  | .and =>
      let a ← r.left
      let b ← r.right
      some (some (.again (ofType .or (.node .not v l a) (ofType .not .null b))))
  | .value => some none

/-- The part of `getRawDNF` for an AND with its children in order. -/
def andCase (v : Bytes) (l r : UQueryNode) : Option Step := do
  let root := .node .and v l r
  let lt ← l.type
  let rt ← r.type
  if lt = .value ∧ rt = .not then some (.done root)
  else if lt = .value ∧ rt = .and then some (.done root)
  else if lt = .value ∧ rt = .or then
    -- x & (a | b) becomes x & a | x & b
    let a ← r.left
    let b ← r.right
    let xv ← l.value
    let rv ← r.value
    some (.again (.node .or rv (.node .and v l a) (ofType .and (ofValue xv) b)))
  else if lt = .and ∧ rt = .and then some (.done root)
  else if lt = .value ∧ rt = .value then some (.done root)
  else if lt = .not then some (.done root)
  else if rt = .not then
    if lt = .and then some (.done root)
    else
      -- (a | b) & !c becomes (a & !c) | (b & !c)
      let a ← l.left
      let b ← l.right
      let c ← r.right
      let cv ← c.value
      let lv ← l.value
      let rv ← r.value
      let rl ← r.left
      some (.again (.node .or lv (.node .and v a (.node .not rv rl c))
        (ofType .and b (ofType .not .null (ofValue cv)))))
  else if lt = .or then
    let a ← l.left
    let b ← l.right
    let c ← r.left
    let d ← r.right
    let lv ← l.value
    let rv ← r.value
    let leftOr := .node .or lv (.node .and v a c) (ofType .and (cloneTree a) d)
    let rightOr := .node .or rv (ofType .and b (cloneTree c))
      (ofType .and (cloneTree b) (cloneTree d))
    some (.again (ofType .or leftOr rightOr))
  else if lt = .and then
    let a ← l.left
    let b ← l.right
    let c ← r.left
    let d ← r.right
    let rv ← r.value
    let low := ofType .and (cloneTree a) (cloneTree b)
    some (.again (.node .or rv (.node .and v l c) (ofType .and low d)))
  else some (.done .null)

/-- The part of `getRawDNF` behind the recursive calls on the children. -/
def rewrite (t : Kind) (v : Bytes) (l r : UQueryNode) : Option Step := do
  let result ← if t = .not then notCase v l r else some none
  match result with
  | some step => some step
  | none =>
      let (l, r) ← order l r
      match t with
      | .or => some (.done (.node .or v l r))
      | .and => andCase v l r
      | _ => some (.done .null)

/-- `getRawDNF`, with a bound on the depth of the recursion. -/
def getRawDNF : Nat → UQueryNode → Option UQueryNode
  | 0, _ => none
  | _ + 1, .null => some .null
  | fuel + 1, .node t v l r =>
      if t = .value then some (.node t v l r)
      else do
        if ← isTwoLevels t l r then some (.node t v l r)
        else
          let l ← getRawDNF fuel l
          let r ← getRawDNF fuel r
          let step ← rewrite t v l r
          step.resume (getRawDNF fuel)

/-- The truth value of the tree, where `σ` is that of the words. -/
def eval (σ : Bytes → Bool) : UQueryNode → Bool
  | .null => false
  | .node .value v _ _ => σ v
  | .node .not _ _ r => !eval σ r
  | .node .and _ l r => eval σ l && eval σ r
  | .node .or _ l r => eval σ l || eval σ r

/-- The words of the tree. -/
def values : UQueryNode → List Bytes
  | .null => []
  | .node .value v _ _ => [v]
  | .node .not _ _ r => values r
  | .node .and _ l r => values l ++ values r
  | .node .or _ l r => values l ++ values r

end UQueryNode

/-! ### Queries -/

/-- A boolean expression. -/
inductive Query where
  | value (v : Bytes)
  | and (p q : Query)
  | or (p q : Query)
  | not (p : Query)
  deriving DecidableEq, Repr

namespace Query

/-- The tree of an expression. -/
def toNode : Query → UQueryNode
  | value v => .ofValue v
  | and p q => .ofType .and p.toNode q.toNode
  | or p q => .ofType .or p.toNode q.toNode
  | not p => .ofType .not .null p.toNode

def kind : Query → Kind
  | value _ => .value
  | and _ _ => .and
  | or _ _ => .or
  | not _ => .not

def eval (σ : Bytes → Bool) : Query → Bool
  | value v => σ v
  | and p q => eval σ p && eval σ q
  | or p q => eval σ p || eval σ q
  | not p => !eval σ p

def values : Query → List Bytes
  | value v => [v]
  | and p q => values p ++ values q
  | or p q => values p ++ values q
  | not p => values p

variable (p : Query)

@[simp] theorem type_toNode : p.toNode.type = some p.kind := by
  cases p <;> rfl

@[simp] theorem toNode_ne_null : p.toNode ≠ .null := by
  cases p <;> simp [toNode, UQueryNode.ofValue, UQueryNode.ofType]

@[simp] theorem eval_toNode (σ : Bytes → Bool) : p.toNode.eval σ = p.eval σ := by
  induction p with
  | value v => rfl
  | and p q ihp ihq =>
      simp only [toNode, UQueryNode.ofType, UQueryNode.eval, eval, ihp, ihq]
  | or p q ihp ihq =>
      simp only [toNode, UQueryNode.ofType, UQueryNode.eval, eval, ihp, ihq]
  | not p ih => simp only [toNode, UQueryNode.ofType, UQueryNode.eval, eval, ih]

@[simp] theorem values_toNode : p.toNode.values = p.values := by
  induction p with
  | value v => rfl
  | and p q ihp ihq =>
      simp only [toNode, UQueryNode.ofType, UQueryNode.values, values, ihp, ihq]
  | or p q ihp ihq =>
      simp only [toNode, UQueryNode.ofType, UQueryNode.values, values, ihp, ihq]
  | not p ih => simp only [toNode, UQueryNode.ofType, UQueryNode.values, values, ih]

end Query

@[simp] theorem cloneTree_eq (t : UQueryNode) : t.cloneTree = t := by
  induction t with
  | null => rfl
  | node t v l r ihl ihr => rw [UQueryNode.cloneTree, ihl, ihr]

end ULib.QueryTree
