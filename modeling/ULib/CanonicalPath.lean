import Mathlib.Data.List.TakeWhile
import ULib.KeyComparison
import ULib.LexicalPath

/-!
`u_canonicalize_pathname` of `base/utility.c`, which rewrites a path in place, one
pass after another.
-/

namespace ULib.CanonicalPath

open ULib.KeyComparison
open ULib.LexicalPath

def slash : UInt8 := '/'.toUInt8

def dot : UInt8 := '.'.toUInt8

/-! ### u_canonicalize_pathname -/

/-- `is_modified`, and the path -/
structure Result where
  modified : Bool
  path : Bytes
  deriving DecidableEq, Repr

/-- The path from `p` on, behind a character that stays. -/
def Result.cons (c : UInt8) (r : Result) : Result := { r with path := c :: r.path }

def Result.marked (r : Result) : Result := { r with modified := true }

/-- Collapse multiple slashes. -/
def collapseSlashes : Bytes → Result
  | [] => ⟨false, []⟩
  | c :: t =>
      if c = slash ∧ t.head? = some slash then
        ((collapseSlashes (t.dropWhile (· = slash))).cons slash).marked
      else (collapseSlashes t).cons c
termination_by t => t.length
decreasing_by
  · exact Nat.lt_succ_of_le (List.dropWhile_sublist _).length_le
  · exact Nat.lt_succ_self _

/-- Collapse "/./" -> "/". -/
def collapseDots : Bytes → Result
  | [] => ⟨false, []⟩
  | c :: t =>
      if c = slash ∧ t.take 2 = [dot, slash] then (collapseDots (t.drop 1)).marked
      else (collapseDots t).cons c
termination_by t => t.length
decreasing_by
  · rw [List.length_drop, List.length_cons]
    omega
  · exact Nat.lt_succ_self _

/-- `while (p > lpath && *p == '/')` -/
def trailingLoop (path : Bytes) : Bytes :=
  if 1 < path.length ∧ path.getLast? = some slash then trailingLoop path.dropLast else path
termination_by path.length
decreasing_by
  rw [List.length_dropLast]
  omega

/-- Remove trailing slashes. -/
def removeTrailingSlashes (path : Bytes) : Result :=
  if 1 < path.length ∧ path.getLast? = some slash then ⟨true, trailingLoop path⟩
  else ⟨false, path⟩

/-- Remove leading "./". -/
def removeLeading (path : Bytes) : Result :=
  if path.take 2 = [dot, slash] then ⟨true, path.drop 2⟩ else ⟨false, path⟩

/-- Remove trailing "/" or "/.", in a path of more than one character. -/
def removeTrailing (path : Bytes) : Result :=
  if path.getLast? = some slash then ⟨true, path.dropLast⟩
  else if path.drop (path.length - 2) = [slash, dot] then ⟨true, path.take (path.length - 2)⟩
  else ⟨false, path⟩

/-- Whether "/.." stands at `p`. -/
def isParent (rest : Bytes) : Bool :=
  rest.take 3 = [slash, dot, dot] && (rest.drop 3 = [] || (rest.drop 3).head? = some slash)

/-- The previous token, and what is in front of it -/
def token (front : Bytes) : Bytes := (front.reverse.takeWhile (· ≠ slash)).reverse

def beforeToken (front : Bytes) : Bytes := (front.reverse.dropWhile (· ≠ slash)).reverse

theorem length_beforeToken_le (front : Bytes) : (beforeToken front).length ≤ front.length := by
  rw [beforeToken, List.length_reverse, ← @List.length_reverse _ front]
  exact (List.dropWhile_sublist _).length_le

/-- Collapse "/.." with the previous part of path; the path is `front` up to `p`, and `rest`. -/
def parentsLoop (front rest : Bytes) : Result :=
  if rest.length < 3 then ⟨false, front ++ rest⟩
  else if isParent rest = false then parentsLoop (front ++ rest.take 1) (rest.drop 1)
  else if token front = [dot, dot] then parentsLoop (front ++ rest.take 3) (rest.drop 3)
  else if rest.drop 3 ≠ [] then
    Result.marked <|
      if beforeToken front = [] then
        parentsLoop [] ((if token front = [] then [slash] else []) ++ rest.drop 4)
      else parentsLoop (beforeToken front).dropLast (slash :: rest.drop 4)
  else if beforeToken front = [] then ⟨true, if token front = [] then [slash] else [dot]⟩
  else
    ⟨true,
      if (beforeToken front).length = 1 then beforeToken front else (beforeToken front).dropLast⟩
termination_by 2 * rest.length + front.length
decreasing_by
  · simp only [List.length_append, List.length_take, List.length_drop]
    omega
  · simp only [List.length_append, List.length_take, List.length_drop]
    omega
  · simp only [List.length_append, List.length_drop, List.length_nil]
    split_ifs
    · rw [List.length_singleton]
      omega
    · rw [List.length_nil]
      omega
  · have hle := length_beforeToken_le front
    simp only [List.length_dropLast, List.length_cons, List.length_drop]
    omega

/-- One pass behind another -/
def Result.bind (r : Result) (pass : Bytes → Result) : Result :=
  if r.modified then (pass r.path).marked else pass r.path

/-- From the trailing "/" or "/." on -/
def trailingStage (path : Bytes) : Result :=
  if path.length < 2 then ⟨false, path⟩
  else if path = [slash, dot] then ⟨true, [slash]⟩
  else (removeTrailing path).bind (parentsLoop [])

/-- From the leading "./" on -/
def leadingStage (path : Bytes) : Result :=
  if path = [dot, slash] then ⟨true, [dot]⟩ else (removeLeading path).bind trailingStage

/-- `u_canonicalize_pathname` -/
def canonicalize (path : Bytes) : Result :=
  (((collapseSlashes path).bind collapseDots).bind removeTrailingSlashes).bind leadingStage

/-! ### What a path denotes -/

def parent : Bytes := [dot, dot]

def isAbsolute (path : Bytes) : Bool := path.head? = some slash

/-- The components of a path, from slash to slash -/
def components (path : Bytes) : List Bytes := path.splitOn slash

def isName (n : Bytes) : Bool := n ≠ [] && n ≠ [dot]

/-- Without the empty ones and the dots -/
def names (path : Bytes) : List Bytes := (components path).filter isName

/-- The place under lexical resolution -/
def location (path : Bytes) : Bool × List Bytes :=
  (isAbsolute path, resolve parent (isAbsolute path) (names path))

-- an absolute path begins with an empty component, so no parent may come behind it
structure Canonical (path : Bytes) : Prop where
  noDouble : ∀ a b, path ≠ a ++ slash :: slash :: b
  noDot : [dot] ∈ components path → path = [dot]
  parents : ∀ a b, components path = a ++ parent :: b → ∀ n ∈ a, n = parent
  noTrailing : path.getLast? = some slash → path = [slash]

/-! ### What is written -/

/-- Names as a text, with a slash in front of those of an absolute path -/
def kept (absolute : Bool) : List Bytes → Bytes
  | [] => []
  | n :: ns => if absolute then separated slash (n :: ns) else n ++ separated slash ns

def render (absolute : Bool) (l : List Bytes) : Bytes :=
  if l = [] then [if absolute then slash else dot] else kept absolute l

structure IsName (n : Bytes) : Prop where
  ne_nil : n ≠ []
  ne_dot : n ≠ [dot]
  noSlash : slash ∉ n

theorem kept_concat {absolute : Bool} {l : List Bytes} (h : absolute = true ∨ l ≠ []) (m : Bytes) :
    kept absolute (l ++ [m]) = kept absolute l ++ slash :: m := by
  cases l with
  | nil =>
      obtain rfl := h.resolve_right fun h => h rfl
      simp [kept, separated]
  | cons n ns =>
      rw [List.cons_append, kept, kept]
      cases absolute <;> simp [separated]

/-! ### The passes over pieces -/

theorem Result.bind_path (r : Result) (pass : Bytes → Result) :
    (r.bind pass).path = (pass r.path).path := by
  rw [Result.bind]
  split <;> rfl

theorem collapseSlashes_append {w : Bytes} (hw : slash ∉ w) (t : Bytes) :
    (collapseSlashes (w ++ t)).path = w ++ (collapseSlashes t).path := by
  induction w with
  | nil => rfl
  | cons c w ih =>
      rw [List.mem_cons, not_or] at hw
      rw [List.cons_append, collapseSlashes, if_neg fun h => hw.1 h.1.symm, Result.cons, ih hw.2]
      rfl

theorem collapseSlashes_piece {p : Bytes} (hp : slash ∉ p) (hne : p ≠ []) (t : Bytes) :
    (collapseSlashes (slash :: (p ++ t))).path = slash :: (p ++ (collapseSlashes t).path) := by
  cases p with
  | nil => exact absurd rfl hne
  | cons c p =>
      have hhead : ¬ (slash = slash ∧ (c :: p ++ t).head? = some slash) := by
        rintro ⟨-, hhead⟩
        exact hp (Option.some.inj hhead ▸ List.mem_cons_self)
      rw [collapseSlashes, if_neg hhead, Result.cons, collapseSlashes_append hp]

theorem collapseSlashes_double (t : Bytes) :
    (collapseSlashes (slash :: slash :: t)).path = (collapseSlashes (slash :: t)).path := by
  have hdrop : (slash :: t).dropWhile (· = slash) = t.dropWhile (· = slash) :=
    List.dropWhile_cons_of_pos (by simp)
  rw [collapseSlashes, if_pos ⟨rfl, rfl⟩, collapseSlashes, hdrop]
  split_ifs with hslash
  · rfl
  · have hstay : t.dropWhile (· = slash) = t := by
      cases t with
      | nil => rfl
      | cons c t =>
          refine List.dropWhile_cons_of_neg fun hc => hslash ⟨rfl, ?_⟩
          rw [decide_eq_true_eq] at hc
          rw [hc]
          rfl
    rw [hstay]
    rfl

/-- The first pass drops the empty pieces that have others behind them. -/
theorem collapseSlashes_separated {cs : List Bytes} (hcs : ∀ p ∈ cs, slash ∉ p) :
    (collapseSlashes (separated slash cs)).path = separated slash (dropInner [] cs) := by
  fun_induction dropInner [] cs with
  | case1 =>
      rw [separated_nil, collapseSlashes]
  | case2 p =>
      have hp := hcs p List.mem_cons_self
      rw [separated_cons, separated_nil]
      cases p with
      | nil =>
          simp [collapseSlashes, Result.cons]
      | cons c p =>
          rw [collapseSlashes_piece hp (List.cons_ne_nil c p), collapseSlashes]
  | case3 q pieces ih =>
      rw [separated_cons, List.nil_append, separated_cons, collapseSlashes_double]
      exact ih fun p hp => hcs p (List.mem_cons_of_mem _ hp)
  | case4 p q pieces hp ih =>
      rw [separated_cons, collapseSlashes_piece (hcs p List.mem_cons_self) hp,
        ih fun p hp => hcs p (List.mem_cons_of_mem _ hp), separated_cons]

theorem collapseDots_append {w : Bytes} (hw : slash ∉ w) (t : Bytes) :
    (collapseDots (w ++ t)).path = w ++ (collapseDots t).path := by
  induction w with
  | nil => rfl
  | cons c w ih =>
      rw [List.mem_cons, not_or] at hw
      rw [List.cons_append, collapseDots, if_neg fun h => hw.1 h.1.symm, Result.cons, ih hw.2]
      rfl

/-- A piece that is no dot does not begin with "./" when a slash comes behind it. -/
theorem take_piece {p t : Bytes} (hp : slash ∉ p)
    (ht : t = [] ∨ p ≠ [dot] ∧ ∃ u, t = slash :: u) : (p ++ t).take 2 ≠ [dot, slash] := by
  intro h
  rcases ht with rfl | ⟨hdot, u, rfl⟩
  · rw [List.append_nil] at h
    exact hp (List.mem_of_mem_take (h ▸ by simp : slash ∈ p.take 2))
  · rcases p with - | ⟨c, - | ⟨d, p⟩⟩
    · exact absurd (List.cons.inj h).1 (by decide)
    · obtain ⟨rfl, -⟩ := List.cons.inj h
      exact hdot rfl
    · obtain ⟨-, h⟩ := List.cons.inj h
      obtain ⟨rfl, -⟩ := List.cons.inj h
      exact hp (by simp)

theorem collapseDots_piece {p t : Bytes} (hp : slash ∉ p)
    (ht : t = [] ∨ p ≠ [dot] ∧ ∃ u, t = slash :: u) :
    (collapseDots (slash :: (p ++ t))).path = slash :: (p ++ (collapseDots t).path) := by
  rw [collapseDots, if_neg fun h => take_piece hp ht h.2, Result.cons, collapseDots_append hp]

/-- The second pass drops the dots that have other pieces behind them. -/
theorem collapseDots_separated {cs : List Bytes} (hcs : ∀ p ∈ cs, slash ∉ p) :
    (collapseDots (separated slash cs)).path = separated slash (dropInner [dot] cs) := by
  fun_induction dropInner [dot] cs with
  | case1 =>
      rw [separated_nil, collapseDots]
  | case2 p =>
      have hp := hcs p List.mem_cons_self
      rw [separated_cons, separated_nil, collapseDots_piece hp (.inl rfl), collapseDots]
  | case3 q pieces ih =>
      have hdots : ∀ t, (collapseDots (slash :: ([dot] ++ slash :: t))).path =
          (collapseDots (slash :: t)).path := by
        intro t
        rw [collapseDots, if_pos ⟨rfl, rfl⟩]
        rfl
      rw [separated_cons, separated_cons, hdots]
      exact ih fun p hp => hcs p (List.mem_cons_of_mem _ hp)
  | case4 p q pieces hp ih =>
      have hstay := @collapseDots_piece p (separated slash (q :: pieces))
        (hcs p List.mem_cons_self) (.inr ⟨hp, _, rfl⟩)
      rw [separated_cons, hstay, ih fun p hp => hcs p (List.mem_cons_of_mem _ hp), separated_cons]

/-! ### Tokens -/

theorem word_reverse {p : Bytes} (hp : slash ∉ p) : ∀ c ∈ p.reverse, decide (c ≠ slash) = true :=
  all_ne fun hc => hp (List.mem_reverse.mp hc)

theorem token_word {p : Bytes} (hp : slash ∉ p) : token p = p := by
  rw [token, List.takeWhile_eq_self_iff.mpr (word_reverse hp), List.reverse_reverse]

theorem beforeToken_word {p : Bytes} (hp : slash ∉ p) : beforeToken p = [] := by
  rw [beforeToken, List.dropWhile_eq_nil_iff.mpr (word_reverse hp), List.reverse_nil]

theorem token_append {p : Bytes} (hp : slash ∉ p) (front : Bytes) :
    token (front ++ slash :: p) = p := by
  rw [token, List.reverse_append, List.reverse_cons, List.append_assoc,
    List.takeWhile_append_of_pos (word_reverse hp), List.singleton_append,
    List.takeWhile_cons_of_neg (by simp), List.append_nil, List.reverse_reverse]

theorem beforeToken_append {p : Bytes} (hp : slash ∉ p) (front : Bytes) :
    beforeToken (front ++ slash :: p) = front ++ [slash] := by
  rw [beforeToken, List.reverse_append, List.reverse_cons, List.append_assoc,
    List.dropWhile_append_of_pos (word_reverse hp), List.singleton_append,
    List.dropWhile_cons_of_neg (by simp), List.reverse_cons, List.reverse_reverse]

/-- The last name is the last token. -/
theorem token_kept {absolute : Bool} {l : List Bytes} {m : Bytes} (hm : slash ∉ m) :
    token (kept absolute (l ++ [m])) = m := by
  cases l with
  | nil =>
      cases absolute with
      | false =>
          rw [List.nil_append, kept, if_neg Bool.false_ne_true, separated_nil, List.append_nil]
          exact token_word hm
      | true =>
          rw [kept_concat (.inl rfl)]
          exact token_append hm _
  | cons n l =>
      rw [kept_concat (.inr (List.cons_ne_nil n l))]
      exact token_append hm _

theorem getLast_ne_slash {path : Bytes} (h : token path ≠ []) : path.getLast? ≠ some slash := by
  intro hlast
  obtain ⟨front, rfl⟩ := List.getLast?_eq_some_iff.mp hlast
  exact h (token_append List.not_mem_nil front)

theorem drop_ne_dot {path : Bytes} (h : token path ≠ [dot]) :
    path.drop (path.length - 2) ≠ [slash, dot] := by
  intro hdrop
  refine h ?_
  rw [← List.take_append_drop (path.length - 2) path, hdrop]
  exact token_append (by decide) _

theorem token_kept_isName {absolute : Bool} {l : List Bytes} (hl : l ≠ [])
    (hnames : ∀ n ∈ l, IsName n) : IsName (token (kept absolute l)) := by
  rcases List.eq_nil_or_concat l with rfl | ⟨l, m, rfl⟩
  · exact absurd rfl hl
  · rw [List.concat_eq_append] at hnames ⊢
    have hm := hnames m (by simp)
    rw [token_kept hm.noSlash]
    exact hm

/-! ### Collapsing the parents -/

theorem parentsLoop_short {front rest : Bytes} (h : rest.length < 3) :
    parentsLoop front rest = ⟨false, front ++ rest⟩ := by
  rw [parentsLoop, if_pos h]

theorem parentsLoop_step {front t : Bytes} {c : UInt8} (h : isParent (c :: t) = false) :
    parentsLoop front (c :: t) = parentsLoop (front ++ [c]) t := by
  rw [parentsLoop]
  split_ifs with hlen
  · have hshort : t.length < 3 := (Nat.lt_succ_self _).trans hlen
    rw [parentsLoop_short hshort, List.append_assoc]
    rfl
  · rfl

theorem parentsLoop_word {w : Bytes} (hw : slash ∉ w) (front t : Bytes) :
    parentsLoop front (w ++ t) = parentsLoop (front ++ w) t := by
  induction w generalizing front with
  | nil => rw [List.nil_append, List.append_nil]
  | cons c w ih =>
      rw [List.mem_cons, not_or] at hw
      have hc : isParent (c :: (w ++ t)) = false := by
        rw [isParent, Bool.and_eq_false_iff]
        refine .inl (decide_eq_false fun h => ?_)
        exact hw.1 (List.cons.inj h).1.symm
      rw [List.cons_append, parentsLoop_step hc, ih hw.2, List.append_assoc]
      rfl

theorem separated_head (ns : List Bytes) :
    separated slash ns = [] ∨ (separated slash ns).head? = some slash := by
  cases ns with
  | nil => exact .inl rfl
  | cons n ns => exact .inr rfl

theorem isParent_separated {n : Bytes} (hn : slash ∉ n) (ns : List Bytes) :
    isParent (separated slash (n :: ns)) = decide (n = parent) := by
  by_cases h : n = parent
  · subst h
    rw [decide_eq_true rfl, isParent, Bool.and_eq_true]
    refine ⟨rfl, ?_⟩
    rw [Bool.or_eq_true, decide_eq_true_eq, decide_eq_true_eq]
    exact separated_head ns
  · rw [decide_eq_false h, ← Bool.not_eq_true]
    intro htrue
    rw [isParent, Bool.and_eq_true, Bool.or_eq_true, decide_eq_true_eq, decide_eq_true_eq,
      decide_eq_true_eq, separated_cons] at htrue
    obtain ⟨htake, hend⟩ := htrue
    have hpiece := (span_piece hn (separated_head ns)).1
    rw [← List.take_append_drop 2 (n ++ separated slash ns), (List.cons.inj htake).2] at hpiece
    exact h (hpiece.symm.trans ((span_piece (by decide) hend).1))

theorem parentsLoop_parent (front : Bytes) (ns : List Bytes) :
    parentsLoop front (separated slash (parent :: ns)) =
      if token front = parent then parentsLoop (front ++ slash :: parent) (separated slash ns)
      else if ns ≠ [] then
        Result.marked <|
          if beforeToken front = [] then
            parentsLoop []
              ((if token front = [] then [slash] else []) ++ (separated slash ns).drop 1)
          else parentsLoop (beforeToken front).dropLast (separated slash ns)
      else if beforeToken front = [] then ⟨true, if token front = [] then [slash] else [dot]⟩
      else
        ⟨true,
          if (beforeToken front).length = 1 then beforeToken front
          else (beforeToken front).dropLast⟩ := by
  have hthis : isParent (separated slash (parent :: ns)) = true := by
    rw [isParent_separated (by decide)]
    exact decide_eq_true rfl
  have hlen : ¬ (separated slash (parent :: ns)).length < 3 := by
    rw [separated_cons, parent, List.length_cons, List.length_append, List.length_cons,
      List.length_singleton]
    omega
  have htake : (separated slash (parent :: ns)).take 3 = slash :: parent := rfl
  have hdrop : (separated slash (parent :: ns)).drop 3 = separated slash ns := rfl
  have hnext : (separated slash (parent :: ns)).drop 4 = (separated slash ns).drop 1 := rfl
  rw [parentsLoop, if_neg hlen, if_neg (by rw [hthis]; exact Bool.noConfusion), htake, hdrop,
    hnext, ← parent]
  cases ns with
  | nil => rfl
  | cons n ns => rfl

theorem render_of_ne {absolute : Bool} {l : List Bytes} (h : l ≠ []) :
    render absolute l = kept absolute l := if_neg h

/-- Above the root is the root. -/
theorem parentsLoop_root (ns : List Bytes) : parentsLoop [] (separated slash (parent :: ns)) =
    if ns ≠ [] then (parentsLoop [] (separated slash ns)).marked else ⟨true, [slash]⟩ := by
  rw [parentsLoop_parent]
  cases ns with
  | nil => rfl
  | cons n ns => rfl

theorem parentsLoop_stay (absolute : Bool) (l ns : List Bytes) :
    parentsLoop (kept absolute (l ++ [parent])) (separated slash (parent :: ns)) =
      parentsLoop (kept absolute (l ++ [parent] ++ [parent])) (separated slash ns) := by
  have hnext := @kept_concat absolute (l ++ [parent]) (.inr (by simp)) parent
  rw [parentsLoop_parent, if_pos (token_kept (by decide)), ← hnext]

theorem parentsLoop_first {m : Bytes} (hm : IsName m) (hp : m ≠ parent) (ns : List Bytes) :
    parentsLoop m (separated slash (parent :: ns)) =
      if ns ≠ [] then (parentsLoop [] ((separated slash ns).drop 1)).marked
      else ⟨true, [dot]⟩ := by
  have hparent : token m ≠ parent := by
    rw [token_word hm.noSlash]
    exact hp
  have hnil : token m ≠ [] := by
    rw [token_word hm.noSlash]
    exact hm.ne_nil
  have hbefore := beforeToken_word hm.noSlash
  rw [parentsLoop_parent, if_neg hparent, if_pos hbefore, if_pos hbefore, if_neg hnil, if_neg hnil]
  rfl

theorem kept_relative (n : Bytes) (ns : List Bytes) :
    kept false (n :: ns) = n ++ separated slash ns := rfl

theorem parentsLoop_front {n : Bytes} (hn : slash ∉ n) (ns : List Bytes) :
    parentsLoop [] (kept false (n :: ns)) = parentsLoop (kept false [n]) (separated slash ns) := by
  rw [kept_relative, parentsLoop_word hn, List.nil_append, kept_relative, separated_nil,
    List.append_nil]

theorem kept_ne_nil {absolute : Bool} {l : List Bytes} (hl : l ≠ []) (hnames : ∀ n ∈ l, IsName n) :
    kept absolute l ≠ [] := by
  intro h
  have htoken := (@token_kept_isName absolute l hl hnames).ne_nil
  rw [h] at htoken
  exact htoken rfl

/-- A name and the parent behind it go. -/
theorem parentsLoop_back {absolute : Bool} {l : List Bytes} {m : Bytes}
    (h : absolute = true ∨ l ≠ []) (hl : ∀ n ∈ l, IsName n) (hm : IsName m) (hp : m ≠ parent)
    (ns : List Bytes) :
    parentsLoop (kept absolute (l ++ [m])) (separated slash (parent :: ns)) =
      if ns ≠ [] then (parentsLoop (kept absolute l) (separated slash ns)).marked
      else ⟨true, render absolute l⟩ := by
  have hparent : token (kept absolute (l ++ [m])) ≠ parent := by
    rw [token_kept hm.noSlash]
    exact hp
  have hbefore : beforeToken (kept absolute (l ++ [m])) = kept absolute l ++ [slash] := by
    rw [kept_concat h, beforeToken_append hm.noSlash]
  have hne : kept absolute l ++ [slash] ≠ [] := by simp
  rw [parentsLoop_parent, if_neg hparent, hbefore, if_neg hne, if_neg hne, List.dropLast_concat]
  congr 2
  by_cases hnil : l = []
  · subst hnil
    obtain rfl := h.resolve_right fun h => h rfl
    rfl
  · have hlen : ¬ (kept absolute l ++ [slash]).length = 1 := by
      intro hlen
      refine kept_ne_nil hnil hl (List.eq_nil_of_length_eq_zero (l := kept absolute l) ?_)
      rw [List.length_append] at hlen
      exact Nat.succ.inj hlen
    rw [if_neg hlen, render_of_ne hnil]

theorem isName_concat {l : List Bytes} {m : Bytes} (hl : ∀ n ∈ l, IsName n) (hm : IsName m) :
    ∀ n ∈ l ++ [m], IsName n :=
  List.forall_mem_append.mpr ⟨hl, List.forall_mem_singleton.mpr hm⟩

/-- The sweep over the parents keeps, in front of the cursor, the place reached so far. -/
theorem parentsLoop_kept {absolute : Bool} {l ns : List Bytes} (hl : Settled parent absolute l)
    (hkept : ∀ n ∈ l, IsName n) (hns : ∀ n ∈ ns, IsName n)
    (h : l ≠ [] ∨ absolute = true ∧ ns ≠ []) :
    (parentsLoop (kept absolute l) (separated slash ns)).path =
      render absolute (ns.foldl (enter parent absolute) l) := by
  induction hlen : ns.length using Nat.strong_induction_on generalizing l ns with
  | _ k ih =>
    cases ns with
    | nil =>
        have hne := h.resolve_right fun h => h.2 rfl
        rw [separated_nil, parentsLoop_short (by decide), List.append_nil, List.foldl_nil,
          render_of_ne hne]
    | cons n ns =>
        obtain ⟨hn, hrest⟩ := List.forall_mem_cons.mp hns
        have hshort : ns.length < k := by
          rw [← hlen]
          exact Nat.lt_succ_self _
        have hside : absolute = true ∨ l ≠ [] := h.symm.imp_left And.left
        have hsettled := settled_enter hl n
        rw [List.foldl_cons]
        by_cases hp : n = parent
        · subst hp
          rcases List.eq_nil_or_concat l with rfl | ⟨l, m, rfl⟩
          · obtain rfl := hside.resolve_right fun h => h rfl
            rw [enter_parent_nil, if_pos rfl, kept, parentsLoop_root]
            split_ifs with hnil
            · exact ih ns.length hshort settled_nil nofun hrest (.inr ⟨rfl, hnil⟩) rfl
            · rw [not_not.mp hnil]
              rfl
          · rw [List.concat_eq_append] at *
            have hm := hkept m (by simp)
            have hfront : ∀ n ∈ l, IsName n := fun n hn => hkept n (List.mem_append_left _ hn)
            rw [enter_parent_concat] at hsettled ⊢
            by_cases hmp : m = parent
            · subst hmp
              rw [if_pos rfl] at hsettled ⊢
              rw [parentsLoop_stay]
              exact ih ns.length hshort hsettled (isName_concat hkept hn) hrest (.inl (by simp)) rfl
            · rw [if_neg hmp] at hsettled ⊢
              by_cases hfirst : absolute = true ∨ l ≠ []
              · rw [parentsLoop_back hfirst hfront hm hmp]
                split_ifs with hnil
                · refine ih ns.length hshort hsettled hfront hrest ?_ rfl
                  exact hfirst.symm.imp_right fun h => ⟨h, hnil⟩
                · rw [not_not.mp hnil]
                  rfl
              · rw [not_or, not_not, Bool.not_eq_true] at hfirst
                obtain ⟨rfl, rfl⟩ := hfirst
                rw [List.nil_append, kept, if_neg Bool.false_ne_true, separated_nil,
                  List.append_nil, parentsLoop_first hm hmp]
                cases ns with
                | nil => rfl
                | cons n ns =>
                    obtain ⟨hnext, hrest⟩ := List.forall_mem_cons.mp hrest
                    rw [if_pos (List.cons_ne_nil n ns), List.foldl_cons, enter_relative_nil,
                      Result.marked, separated_cons, List.drop_one, List.tail_cons, ← kept_relative,
                      parentsLoop_front hnext.noSlash]
                    exact ih ns.length ((Nat.lt_succ_self _).trans hshort) (settled_relative n)
                      (List.forall_mem_singleton.mpr hnext) hrest (.inl (by simp)) rfl
        · rw [enter_name hp] at hsettled ⊢
          have hthis : isParent (separated slash (n :: ns)) = false := by
            rw [isParent_separated hn.noSlash]
            exact decide_eq_false hp
          have hnext := kept_concat hside n
          rw [separated_cons] at hthis ⊢
          rw [parentsLoop_step hthis, parentsLoop_word hn.noSlash, List.append_assoc,
            List.singleton_append, ← hnext]
          exact ih ns.length hshort hsettled (isName_concat hkept hn) hrest (.inl (by simp)) rfl

/-- From the first character on -/
theorem parentsLoop_names {absolute : Bool} {ns : List Bytes} (hne : ns ≠ [])
    (hns : ∀ n ∈ ns, IsName n) :
    (parentsLoop [] (kept absolute ns)).path =
      render absolute (resolve parent absolute ns) := by
  cases ns with
  | nil => exact absurd rfl hne
  | cons n ns =>
      cases absolute with
      | true => exact parentsLoop_kept settled_nil nofun hns (.inr ⟨rfl, hne⟩)
      | false =>
          obtain ⟨hn, hrest⟩ := List.forall_mem_cons.mp hns
          rw [parentsLoop_front hn.noSlash, resolve, List.foldl_cons, enter_relative_nil]
          exact parentsLoop_kept (settled_relative n) (List.forall_mem_singleton.mpr hn) hrest
            (.inl (List.cons_ne_nil n []))

/-! ### The ends of the path -/

/-- A dot may stand behind the names. -/
def TrailingDot (d : Bytes) : Prop := d = [] ∨ d = [slash, dot]

theorem ne_slash_dot {path : Bytes} (h : token path ≠ [dot]) : path ≠ [slash, dot] := by
  rintro rfl
  exact h rfl

theorem removeTrailing_kept {absolute : Bool} {ns : List Bytes} (hne : ns ≠ [])
    (hns : ∀ n ∈ ns, IsName n) {d : Bytes} (hd : TrailingDot d) :
    (removeTrailing (kept absolute ns ++ d)).path = kept absolute ns := by
  have hlast := @token_kept_isName absolute ns hne hns
  rw [removeTrailing]
  rcases hd with rfl | rfl
  · rw [List.append_nil, if_neg (getLast_ne_slash hlast.ne_nil), if_neg (drop_ne_dot hlast.ne_dot)]
  · have hend : (kept absolute ns ++ [slash, dot]).getLast? ≠ some slash := by
      rw [List.getLast?_append]
      exact ne_of_beq_false rfl
    have hlen : (kept absolute ns ++ [slash, dot]).length - 2 = (kept absolute ns).length := by
      rw [List.length_append]
      rfl
    rw [if_neg hend, hlen, List.drop_left, if_pos rfl, List.take_left]

theorem trailingStage_kept {absolute : Bool} {ns : List Bytes} (hne : ns ≠ [])
    (hns : ∀ n ∈ ns, IsName n) {d : Bytes} (hd : TrailingDot d) :
    (trailingStage (kept absolute ns ++ d)).path =
      render absolute (resolve parent absolute ns) := by
  have hkept := @kept_ne_nil absolute ns hne hns
  have hlast := @token_kept_isName absolute ns hne hns
  have hnot : kept absolute ns ++ d ≠ [slash, dot] := by
    rcases hd with rfl | rfl
    · rw [List.append_nil]
      exact ne_slash_dot hlast.ne_dot
    · intro h
      exact hkept (List.append_cancel_right (h.trans (List.nil_append _).symm))
  rw [trailingStage, if_neg hnot]
  split_ifs with hlen
  · rcases hd with rfl | rfl
    · rw [List.append_nil] at hlen ⊢
      rw [← parentsLoop_names hne hns, parentsLoop_short (Nat.lt_succ_of_lt hlen)]
      rfl
    · rw [List.length_append] at hlen
      exact absurd hlen (by simp)
  · rw [Result.bind_path, removeTrailing_kept hne hns hd, parentsLoop_names hne hns]

theorem isName_iff {n : Bytes} (hn : slash ∉ n) : isName n = true ↔ IsName n := by
  rw [isName, Bool.and_eq_true, decide_eq_true_eq, decide_eq_true_eq]
  exact ⟨fun h => ⟨h.1, h.2, hn⟩, fun h => ⟨h.ne_nil, h.ne_dot⟩⟩

theorem filter_isName {ns : List Bytes} (hns : ∀ n ∈ ns, IsName n) : ns.filter isName = ns :=
  List.filter_eq_self.mpr fun n hn => (isName_iff (hns n hn).noSlash).mpr (hns n hn)

theorem leadingStage_stay {path : Bytes} (h : path.take 2 ≠ [dot, slash]) :
    (leadingStage path).path = (trailingStage path).path := by
  have hne : path ≠ [dot, slash] := by
    rintro rfl
    exact h rfl
  rw [leadingStage, if_neg hne, Result.bind_path, removeLeading, if_neg h]

theorem leadingStage_skip {t : Bytes} (h : t ≠ []) :
    (leadingStage (dot :: slash :: t)).path = (trailingStage t).path := by
  have hne : dot :: slash :: t ≠ [dot, slash] := by
    intro heq
    exact h (List.cons.inj (List.cons.inj heq).2).2
  have htake : (dot :: slash :: t).take 2 = [dot, slash] := rfl
  rw [leadingStage, if_neg hne, Result.bind_path, removeLeading, if_pos htake]
  rfl

/-- The stages behind the removal of trailing slashes, on pieces -/
theorem leadingStage_pieces {first d : Bytes} {ns : List Bytes} (hfirst : slash ∉ first)
    (hns : ∀ n ∈ ns, IsName n) (hd : TrailingDot d) (hne : first ++ separated slash ns ++ d ≠ []) :
    (leadingStage (first ++ separated slash ns ++ d)).path =
      render (first = []) (resolve parent (first = []) ((first :: ns).filter isName)) := by
  have hfilter := filter_isName hns
  by_cases hnil : first = []
  · subst hnil
    rw [decide_eq_true rfl, List.filter_cons_of_neg (by decide), hfilter]
    by_cases hns' : ns = []
    · subst hns'
      obtain rfl := hd.resolve_left fun h => hne (by rw [h]; rfl)
      rfl
    · have hkept : [] ++ separated slash ns = kept true ns := by
        cases ns with
        | nil => exact absurd rfl hns'
        | cons n ns => rfl
      have htake : (kept true ns ++ d).take 2 ≠ [dot, slash] := by
        cases ns with
        | nil => exact absurd rfl hns'
        | cons n ns => exact fun h => absurd (List.cons.inj h).1 (by decide)
      rw [hkept, leadingStage_stay htake, trailingStage_kept hns' hns hd]
  · rw [decide_eq_false hnil]
    by_cases hdot : first = [dot]
    · subst hdot
      rw [List.filter_cons_of_neg (by decide), hfilter]
      cases ns with
      | nil =>
          rcases hd with rfl | rfl
          · rfl
          · rfl
      | cons n ns =>
          have hskip : [dot] ++ separated slash (n :: ns) ++ d =
              dot :: slash :: (kept false (n :: ns) ++ d) := rfl
          have hne' : kept false (n :: ns) ++ d ≠ [] := by
            intro h
            exact kept_ne_nil (List.cons_ne_nil n ns) hns (List.append_eq_nil_iff.mp h).1
          rw [hskip, leadingStage_skip hne', trailingStage_kept (List.cons_ne_nil n ns) hns hd]
    · have hname : IsName first := ⟨hnil, hdot, hfirst⟩
      have hall : ∀ n ∈ first :: ns, IsName n := List.forall_mem_cons.mpr ⟨hname, hns⟩
      have hend : separated slash ns ++ d = [] ∨ first ≠ [dot] ∧
          ∃ u, separated slash ns ++ d = slash :: u := by
        cases ns with
        | nil =>
            rcases hd with rfl | rfl
            · exact .inl rfl
            · exact .inr ⟨hdot, _, rfl⟩
        | cons n ns => exact .inr ⟨hdot, _, rfl⟩
      have htake := take_piece hfirst hend
      rw [← List.append_assoc] at htake
      rw [leadingStage_stay htake, filter_isName hall, ← kept_relative,
        trailingStage_kept (List.cons_ne_nil first ns) hall hd]

/-! ### The whole rewriting -/

/-- Behind the names stands at most one component that is none. -/
theorem exists_names {cs : List Bytes} (hcs : ∀ p ∈ cs, slash ∉ p)
    (hinner : ∀ p ∈ cs.dropLast, p ≠ [] ∧ p ≠ [dot]) :
    ∃ e, cs = cs.filter isName ++ e ∧ (e = [] ∨ e = [[]] ∨ e = [[dot]]) := by
  rcases List.eq_nil_or_concat cs with rfl | ⟨front, m, rfl⟩
  · exact ⟨[], rfl, .inl rfl⟩
  · rw [List.concat_eq_append] at *
    rw [List.dropLast_concat] at hinner
    have hfront : ∀ n ∈ front, IsName n := fun n hn =>
      ⟨(hinner n hn).1, (hinner n hn).2, hcs n (List.mem_append_left _ hn)⟩
    rw [List.filter_append, filter_isName hfront]
    by_cases hm : isName m = true
    · refine ⟨[], ?_, .inl rfl⟩
      rw [List.filter_cons_of_pos hm, List.filter_nil, List.append_nil]
    · refine ⟨[m], ?_, .inr ?_⟩
      · rw [List.filter_cons_of_neg hm, List.filter_nil, List.append_nil]
      · rw [isName, Bool.and_eq_true, decide_eq_true_eq, decide_eq_true_eq, ← not_or,
          not_not] at hm
        exact hm.imp (congrArg (· :: [])) (congrArg (· :: []))

theorem removeTrailingSlashes_stay {path : Bytes} (h : path.getLast? ≠ some slash) :
    (removeTrailingSlashes path).path = path := by
  rw [removeTrailingSlashes, if_neg fun hlast => h hlast.2]

theorem removeTrailingSlashes_slash {path : Bytes} (hne : path ≠ [])
    (h : path.getLast? ≠ some slash) : (removeTrailingSlashes (path ++ [slash])).path = path := by
  have hlong : 1 < (path ++ [slash]).length ∧ (path ++ [slash]).getLast? = some slash := by
    refine ⟨?_, List.getLast?_concat⟩
    rw [List.length_append, List.length_singleton]
    exact Nat.succ_lt_succ (List.length_pos_iff.mpr hne)
  rw [removeTrailingSlashes, if_pos hlong, trailingLoop, if_pos hlong, List.dropLast_concat,
    trailingLoop, if_neg fun hlast => h hlast.2]

theorem getLast_pieces {first : Bytes} {ns : List Bytes} (hfirst : slash ∉ first)
    (hns : ∀ n ∈ ns, IsName n) : (first ++ separated slash ns).getLast? ≠ some slash := by
  rcases List.eq_nil_or_concat ns with rfl | ⟨ns, m, rfl⟩
  · rw [separated_nil, List.append_nil]
    exact fun h => hfirst (List.mem_of_getLast? h)
  · rw [List.concat_eq_append] at hns ⊢
    have hm := hns m (by simp)
    have hlast : token (first ++ separated slash (ns ++ [m])) = m := by
      rw [← kept_relative, ← List.cons_append]
      exact token_kept hm.noSlash
    refine getLast_ne_slash ?_
    rw [hlast]
    exact hm.ne_nil

/-- What the rewriting of the ends makes of names with one more component behind them. -/
theorem ends_pieces {first : Bytes} {ns e : List Bytes} (hfirst : slash ∉ first)
    (hns : ∀ n ∈ ns, IsName n) (he : e = [] ∨ e = [[]] ∨ e = [[dot]])
    (hne : first ++ separated slash (ns ++ e) ≠ []) :
    (leadingStage (removeTrailingSlashes (first ++ separated slash (ns ++ e))).path).path =
      render (first = []) (resolve parent (first = []) ((first :: ns).filter isName)) := by
  have hlast := getLast_pieces hfirst hns
  rw [separated_append, ← List.append_assoc] at hne ⊢
  rcases he with rfl | rfl | rfl
  · rw [separated_nil] at hne ⊢
    rw [List.append_nil, removeTrailingSlashes_stay hlast, ← List.append_nil (_ ++ _)]
    exact leadingStage_pieces hfirst hns (.inl rfl) hne
  · rw [separated_cons, List.nil_append, separated_nil] at hne ⊢
    by_cases hnil : first ++ separated slash ns = []
    · obtain ⟨rfl, hnil⟩ := List.append_eq_nil_iff.mp hnil
      cases ns with
      | nil => rfl
      | cons n ns => exact absurd hnil (List.cons_ne_nil _ _)
    · rw [removeTrailingSlashes_slash hnil hlast, ← List.append_nil (_ ++ _)]
      refine leadingStage_pieces hfirst hns (.inl rfl) ?_
      rw [List.append_nil]
      exact hnil
  · have hend : (first ++ separated slash ns ++ separated slash [[dot]]).getLast? ≠ some slash := by
      rw [List.getLast?_append]
      exact ne_of_beq_false rfl
    rw [removeTrailingSlashes_stay hend]
    exact leadingStage_pieces hfirst hns (.inr rfl) hne

theorem isAbsolute_pieces {first : Bytes} {pieces : List Bytes} (hfirst : slash ∉ first)
    (hne : first ++ separated slash pieces ≠ []) :
    isAbsolute (first ++ separated slash pieces) = decide (first = []) := by
  cases first with
  | nil =>
      cases pieces with
      | nil => exact absurd rfl hne
      | cons p pieces => rfl
  | cons c first =>
      rw [List.mem_cons, not_or] at hfirst
      rw [decide_eq_false (List.cons_ne_nil c first), isAbsolute, List.cons_append, List.head?_cons]
      exact decide_eq_false fun h => hfirst.1 (Option.some.inj h).symm

/-- The first two passes leave a name for every component but the last. -/
theorem collapse_pieces {first : Bytes} {pieces : List Bytes} (hfirst : slash ∉ first)
    (hpieces : ∀ p ∈ pieces, slash ∉ p) (hne : first ++ separated slash pieces ≠ []) :
    ∃ ns e, (∀ n ∈ ns, IsName n) ∧ (e = [] ∨ e = [[]] ∨ e = [[dot]]) ∧
      ns = pieces.filter isName ∧ first ++ separated slash (ns ++ e) ≠ [] ∧
      (collapseDots (collapseSlashes (first ++ separated slash pieces)).path).path =
        first ++ separated slash (ns ++ e) := by
  have hslashes : ∀ p ∈ dropInner [] pieces, slash ∉ p := fun p hp => hpieces p (mem_dropInner hp)
  have hdots : ∀ p ∈ dropInner [dot] (dropInner [] pieces), slash ∉ p := fun p hp =>
    hslashes p (mem_dropInner hp)
  have hfilter : (dropInner [dot] (dropInner [] pieces)).filter isName = pieces.filter isName := by
    rw [filter_dropInner (by decide), filter_dropInner (by decide)]
  obtain ⟨e, hcs, he⟩ := exists_names hdots fun p hp =>
    ⟨ne_of_mem_dropLast_dropInner (mem_dropLast_dropInner hp), ne_of_mem_dropLast_dropInner hp⟩
  rw [hfilter] at hcs
  refine ⟨pieces.filter isName, e, ?_, he, rfl, ?_, ?_⟩
  · intro n hn
    obtain ⟨hmem, hgood⟩ := List.mem_filter.mp hn
    exact (isName_iff (hpieces n hmem)).mp hgood
  · rw [← hcs]
    intro h
    obtain ⟨rfl, h⟩ := List.append_eq_nil_iff.mp h
    refine hne ?_
    cases hrest : dropInner [dot] (dropInner [] pieces) with
    | nil => rw [dropInner_eq_nil (dropInner_eq_nil hrest), separated_nil, List.append_nil]
    | cons p ps =>
        rw [hrest] at h
        exact absurd h (List.cons_ne_nil _ _)
  · rw [collapseSlashes_append hfirst, collapseSlashes_separated hpieces,
      collapseDots_append hfirst, collapseDots_separated hslashes, hcs]

/-- What is written is the place the path denotes. -/
theorem canonicalize_path {path : Bytes} (hne : path ≠ []) :
    (canonicalize path).path =
      render (isAbsolute path) (resolve parent (isAbsolute path) (names path)) := by
  obtain ⟨first, pieces, rfl, hfirst, hpieces⟩ := @exists_pieces UInt8 slash path
  obtain ⟨ns, e, hns, he, hfilter, hleft, hcollapse⟩ := collapse_pieces hfirst hpieces hne
  have hnames : names (first ++ separated slash pieces) = (first :: ns).filter isName := by
    rw [names, components, splitOn_pieces hfirst hpieces, List.filter_cons, List.filter_cons,
      filter_isName hns, hfilter]
  rw [canonicalize, Result.bind_path, Result.bind_path, Result.bind_path, hcollapse,
    ends_pieces hfirst hns he hleft, isAbsolute_pieces hfirst hne, hnames]

/-! ### Whether the text changed -/

/-- A pass marks what it makes shorter, and leaves the rest alone. -/
def Result.Of (r : Result) (path : Bytes) : Prop :=
  r.modified = false ∧ r.path = path ∨ r.modified = true ∧ r.path.length < path.length

theorem Result.Of.cons {r : Result} {t : Bytes} (h : r.Of t) (c : UInt8) :
    (r.cons c).Of (c :: t) := by
  rcases h with ⟨hm, hp⟩ | ⟨hm, hp⟩
  · exact .inl ⟨hm, congrArg (c :: ·) hp⟩
  · exact .inr ⟨hm, Nat.succ_lt_succ hp⟩

theorem Result.Of.length_le {r : Result} {t : Bytes} (h : r.Of t) : r.path.length ≤ t.length := by
  rcases h with ⟨-, hp⟩ | ⟨-, hp⟩
  · exact (congrArg List.length hp).le
  · exact hp.le

theorem Result.Of.marked {r : Result} {t path : Bytes} (h : r.Of t)
    (hlt : t.length < path.length) : r.marked.Of path :=
  .inr ⟨rfl, h.length_le.trans_lt hlt⟩

theorem Result.Of.bind {r : Result} {path : Bytes} {pass : Bytes → Result} (h : r.Of path)
    (hpass : ∀ t, (pass t).Of t) : (r.bind pass).Of path := by
  rw [Result.bind]
  rcases h with ⟨hm, hp⟩ | ⟨hm, hp⟩
  · rw [if_neg (by rw [hm]; exact Bool.false_ne_true), hp]
    exact hpass path
  · rw [if_pos hm]
    exact (hpass r.path).marked hp

theorem collapseSlashes_of (path : Bytes) : (collapseSlashes path).Of path := by
  fun_induction collapseSlashes path with
  | case1 => exact .inl ⟨rfl, rfl⟩
  | case2 c t h ih =>
      obtain ⟨rfl, hhead⟩ := h
      cases t with
      | nil => exact absurd hhead (by simp)
      | cons d t =>
          obtain rfl := Option.some.inj hhead
          rw [List.dropWhile_cons_of_pos (by simp)] at ih ⊢
          refine (ih.cons slash).marked ?_
          exact Nat.succ_lt_succ (Nat.lt_succ_of_le (List.dropWhile_sublist _).length_le)
  | case3 c t h ih => exact ih.cons c

theorem collapseDots_of (path : Bytes) : (collapseDots path).Of path := by
  fun_induction collapseDots path with
  | case1 => exact .inl ⟨rfl, rfl⟩
  | case2 c t h ih =>
      refine ih.marked ?_
      rw [List.length_drop, List.length_cons]
      omega
  | case3 c t h ih => exact ih.cons c

theorem length_trailingLoop_le (path : Bytes) : (trailingLoop path).length ≤ path.length := by
  fun_induction trailingLoop path with
  | case1 path h ih =>
      rw [List.length_dropLast] at ih
      omega
  | case2 path h => exact le_rfl

theorem removeTrailingSlashes_of (path : Bytes) : (removeTrailingSlashes path).Of path := by
  rw [removeTrailingSlashes]
  split_ifs with h
  · refine .inr ⟨rfl, ?_⟩
    have hle := length_trailingLoop_le path.dropLast
    rw [List.length_dropLast] at hle
    rw [trailingLoop, if_pos h]
    change (trailingLoop path.dropLast).length < path.length
    omega
  · exact .inl ⟨rfl, rfl⟩

theorem removeTrailing_of {path : Bytes} (h : 2 ≤ path.length) : (removeTrailing path).Of path := by
  rw [removeTrailing]
  split_ifs
  · refine .inr ⟨rfl, ?_⟩
    rw [List.length_dropLast]
    omega
  · refine .inr ⟨rfl, ?_⟩
    rw [List.length_take]
    omega
  · exact .inl ⟨rfl, rfl⟩

theorem parentsLoop_of (front rest : Bytes) : (parentsLoop front rest).Of (front ++ rest) := by
  fun_induction parentsLoop front rest with
  | case1 front rest h => exact .inl ⟨rfl, rfl⟩
  | case2 front rest hlen h ih =>
      rwa [List.append_assoc, List.take_append_drop] at ih
  | case3 front rest hlen h hkeep ih =>
      rwa [List.append_assoc, List.take_append_drop] at ih
  | case4 front rest hlen h hkeep hmore ihfirst ihback =>
      split_ifs with hbefore hroot
      · rw [dif_pos hroot] at ihfirst
        refine ihfirst.marked ?_
        rw [List.nil_append, List.length_append, List.length_append, List.length_drop,
          List.length_singleton]
        omega
      · rw [dif_neg hroot] at ihfirst
        refine ihfirst.marked ?_
        rw [List.nil_append, List.nil_append, List.length_append, List.length_drop]
        omega
      · refine ihback.marked ?_
        have hle := length_beforeToken_le front
        rw [List.length_append, List.length_append, List.length_dropLast, List.length_cons,
          List.length_drop]
        omega
  | case5 front rest hlen h hkeep hmore hbefore =>
      refine .inr ⟨rfl, ?_⟩
      rw [apply_ite List.length, List.length_singleton, List.length_singleton, ite_self,
        List.length_append]
      omega
  | case6 front rest hlen h hkeep hmore hbefore =>
      refine .inr ⟨rfl, ?_⟩
      have hle := length_beforeToken_le front
      rw [apply_ite List.length, List.length_dropLast, List.length_append]
      split_ifs
      · omega
      · omega

theorem trailingStage_of (path : Bytes) : (trailingStage path).Of path := by
  rw [trailingStage]
  split_ifs with hlen hroot
  · exact .inl ⟨rfl, rfl⟩
  · rw [hroot]
    exact .inr ⟨rfl, Nat.lt_succ_self 1⟩
  · exact (removeTrailing_of (Nat.le_of_not_lt hlen)).bind (parentsLoop_of [])

theorem removeLeading_of (path : Bytes) : (removeLeading path).Of path := by
  rw [removeLeading]
  split_ifs with h
  · refine .inr ⟨rfl, ?_⟩
    have hlen : 0 < path.length := by
      refine List.length_pos_iff.mpr ?_
      rintro rfl
      exact absurd h (by simp)
    rw [List.length_drop]
    omega
  · exact .inl ⟨rfl, rfl⟩

theorem leadingStage_of (path : Bytes) : (leadingStage path).Of path := by
  rw [leadingStage]
  split_ifs with h
  · rw [h]
    exact .inr ⟨rfl, Nat.lt_succ_self 1⟩
  · exact (removeLeading_of path).bind trailingStage_of

theorem canonicalize_of (path : Bytes) : (canonicalize path).Of path :=
  (((collapseSlashes_of path).bind collapseDots_of).bind removeTrailingSlashes_of).bind
    leadingStage_of

theorem Result.Of.modified_iff {r : Result} {path : Bytes} (h : r.Of path) :
    r.modified = true ↔ r.path ≠ path := by
  rcases h with ⟨hm, hp⟩ | ⟨hm, hp⟩
  · exact iff_of_false (by rw [hm]; exact Bool.false_ne_true) fun hne => hne hp
  · exact iff_of_true hm fun heq => hp.ne (congrArg List.length heq)

theorem Result.Of.eq_of_path {r : Result} {path : Bytes} (h : r.Of path) (hp : r.path = path) :
    r = ⟨false, path⟩ := by
  rcases h with ⟨hm, -⟩ | ⟨-, hlt⟩
  · cases r
    exact congrArg₂ Result.mk hm hp
  · exact absurd (congrArg List.length hp) hlt.ne

/-- A pass that is not marked handed on what it got. -/
theorem Result.Of.of_bind {r : Result} {path : Bytes} {pass : Bytes → Result} (h : r.Of path)
    (hbind : r.bind pass = ⟨false, path⟩) : r = ⟨false, path⟩ ∧ pass path = ⟨false, path⟩ := by
  rcases h with ⟨hm, hp⟩ | ⟨hm, hp⟩
  · obtain ⟨modified, p⟩ := r
    dsimp only at hm hp
    subst hm hp
    exact ⟨rfl, hbind⟩
  · rw [Result.bind, if_pos hm] at hbind
    exact absurd (congrArg Result.modified hbind) Bool.noConfusion

/-! ### The path that is written -/

theorem render_ne_nil {absolute : Bool} {l : List Bytes} (hnames : ∀ n ∈ l, IsName n) :
    render absolute l ≠ [] := by
  by_cases hl : l = []
  · rw [hl]
    exact List.cons_ne_nil _ _
  · rw [render_of_ne hl]
    exact kept_ne_nil hl hnames

theorem isAbsolute_render {absolute : Bool} {l : List Bytes} (hnames : ∀ n ∈ l, IsName n) :
    isAbsolute (render absolute l) = absolute := by
  cases l with
  | nil => cases absolute <;> rfl
  | cons n l =>
      cases absolute with
      | true => rfl
      | false =>
          have hn := hnames n List.mem_cons_self
          have hne : n ++ separated slash l ≠ [] := fun h =>
            hn.ne_nil (List.append_eq_nil_iff.mp h).1
          rw [render_of_ne (List.cons_ne_nil n l), kept_relative,
            isAbsolute_pieces hn.noSlash hne]
          exact decide_eq_false hn.ne_nil

/-- In front of the names of an absolute path stands an empty component. -/
theorem components_kept {absolute : Bool} {l : List Bytes} (hl : l ≠ [])
    (hnames : ∀ n ∈ l, IsName n) :
    components (kept absolute l) = if absolute then [] :: l else l := by
  cases l with
  | nil => exact absurd rfl hl
  | cons n l =>
      obtain ⟨hn, hrest⟩ := List.forall_mem_cons.mp hnames
      cases absolute with
      | true =>
          exact @splitOn_pieces UInt8 slash [] (n :: l) _ List.not_mem_nil
            fun p hp => (hnames p hp).noSlash
      | false => exact splitOn_pieces hn.noSlash fun p hp => (hrest p hp).noSlash

theorem names_render {absolute : Bool} {l : List Bytes} (hnames : ∀ n ∈ l, IsName n) :
    names (render absolute l) = l := by
  by_cases hl : l = []
  · subst hl
    cases absolute <;> decide
  · rw [render_of_ne hl, names, components_kept hl hnames]
    split_ifs
    · rw [List.filter_cons_of_neg (by decide), filter_isName hnames]
    · exact filter_isName hnames

variable {absolute : Bool} {l : List Bytes}

theorem canonicalize_render (hl : Settled parent absolute l) (hnames : ∀ n ∈ l, IsName n) :
    canonicalize (render absolute l) = ⟨false, render absolute l⟩ := by
  refine (canonicalize_of _).eq_of_path ?_
  rw [canonicalize_path (render_ne_nil hnames), isAbsolute_render hnames, names_render hnames,
    resolve_settled hl]

theorem location_render (hl : Settled parent absolute l) (hnames : ∀ n ∈ l, IsName n) :
    location (render absolute l) = (absolute, l) := by
  rw [location, isAbsolute_render hnames, names_render hnames, resolve_settled hl]

theorem collapseSlashes_double_modified (a b : Bytes) :
    (collapseSlashes (a ++ slash :: slash :: b)).modified = true := by
  induction a with
  | nil =>
      rw [List.nil_append, collapseSlashes, if_pos ⟨rfl, rfl⟩]
      rfl
  | cons c a ih =>
      rw [List.cons_append, collapseSlashes]
      split_ifs
      · rfl
      · exact ih

theorem stages_of_fixed {path : Bytes} (h : canonicalize path = ⟨false, path⟩) :
    collapseSlashes path = ⟨false, path⟩ ∧ removeTrailingSlashes path = ⟨false, path⟩ := by
  have hslashes := collapseSlashes_of path
  have hdots := hslashes.bind collapseDots_of
  obtain ⟨htrailing, -⟩ := (hdots.bind removeTrailingSlashes_of).of_bind h
  obtain ⟨hcollapsed, hthird⟩ := hdots.of_bind htrailing
  exact ⟨(hslashes.of_bind hcollapsed).1, hthird⟩

theorem not_double {path : Bytes} (h : canonicalize path = ⟨false, path⟩) (a b : Bytes) :
    path ≠ a ++ slash :: slash :: b := by
  rintro rfl
  have hmodified := collapseSlashes_double_modified a b
  rw [(stages_of_fixed h).1] at hmodified
  exact Bool.noConfusion hmodified

theorem not_trailing {path : Bytes} (h : canonicalize path = ⟨false, path⟩)
    (hlast : path.getLast? = some slash) : path = [slash] := by
  have hthird := (stages_of_fixed h).2
  rw [removeTrailingSlashes] at hthird
  split_ifs at hthird with hlong
  · exact absurd (congrArg Result.modified hthird) Bool.noConfusion
  · obtain ⟨front, rfl⟩ := List.getLast?_eq_some_iff.mp hlast
    have hshort : ¬ 1 < (front ++ [slash]).length := fun h => hlong ⟨h, hlast⟩
    have hfront : front.length = 0 := by
      rw [List.length_append, List.length_singleton] at hshort
      omega
    rw [List.eq_nil_of_length_eq_zero hfront]
    rfl

theorem canonical_render (hl : Settled parent absolute l) (hnames : ∀ n ∈ l, IsName n) :
    Canonical (render absolute l) := by
  have hfixed := canonicalize_render hl hnames
  refine ⟨not_double hfixed, ?_, ?_, not_trailing hfixed⟩
  · intro hdot
    by_cases hnil : l = []
    · subst hnil
      cases absolute with
      | true => exact absurd hdot (by decide)
      | false => rfl
    · rw [render_of_ne hnil, components_kept hnil hnames] at hdot
      have hmem : [dot] ∈ l := by
        split_ifs at hdot
        · exact (List.mem_cons.mp hdot).resolve_left (by decide)
        · exact hdot
      exact absurd rfl (hnames _ hmem).ne_dot
  · intro a b heq
    by_cases hnil : l = []
    · subst hnil
      have hmem : parent ∈ components (render absolute []) := by
        rw [heq]
        simp
      cases absolute with
      | true => exact absurd hmem (by decide)
      | false => exact absurd hmem (by decide)
    · rw [render_of_ne hnil, components_kept hnil hnames] at heq
      cases absolute with
      | false => exact (hl a b heq).2
      | true =>
          rw [if_pos rfl] at heq
          rcases List.cons_eq_append_iff.mp heq with ⟨rfl, -⟩ | ⟨a', -, hrest⟩
          · exact nofun
          · exact absurd (hl a' b hrest).1 Bool.noConfusion

/-- An empty path has one component, which is empty. -/
theorem canonical_nil (h : canonicalize [] = ⟨false, []⟩) : Canonical [] := by
  refine ⟨not_double h, fun hdot => absurd hdot (by decide), ?_, not_trailing h⟩
  intro a b heq
  have hmem : parent ∈ components [] := by
    rw [heq]
    simp
  exact absurd hmem (by decide)

theorem isName_of_mem_names {path n : Bytes} (h : n ∈ names path) : IsName n := by
  obtain ⟨first, pieces, rfl, hfirst, hpieces⟩ := @exists_pieces UInt8 slash path
  rw [names, components, splitOn_pieces hfirst hpieces] at h
  obtain ⟨hmem, hgood⟩ := List.mem_filter.mp h
  refine (isName_iff ?_).mp hgood
  rcases List.mem_cons.mp hmem with rfl | hmem
  · exact hfirst
  · exact hpieces n hmem

/-- Any path is rewritten to the canonical path of the same place: what it denotes by its names
stays, the result is marked exactly when the text changed, and is left alone the next time. -/
theorem canonicalize_canonical (path : Bytes) :
    location (canonicalize path).path = location path ∧
      Canonical (canonicalize path).path ∧
      ((canonicalize path).modified = true ↔ (canonicalize path).path ≠ path) ∧
      canonicalize (canonicalize path).path = ⟨false, (canonicalize path).path⟩ := by
  have hmodified := (canonicalize_of path).modified_iff
  by_cases hne : path = []
  · subst hne
    have hfixed : canonicalize [] = ⟨false, []⟩ := by
      refine (canonicalize_of []).eq_of_path (List.eq_nil_of_length_eq_zero ?_)
      exact Nat.eq_zero_of_le_zero (canonicalize_of []).length_le
    rw [hfixed] at hmodified ⊢
    exact ⟨rfl, canonical_nil hfixed, hmodified, hfixed⟩
  · have hl : Settled parent (isAbsolute path)
        (resolve parent (isAbsolute path) (names path)) := settled_resolve _
    have hnames : ∀ n ∈ resolve parent (isAbsolute path) (names path), IsName n := by
      intro n hn
      exact isName_of_mem_names (mem_resolve hn)
    rw [canonicalize_path hne] at hmodified ⊢
    exact ⟨location_render hl hnames, canonical_render hl hnames, hmodified,
      canonicalize_render hl hnames⟩

example : canonicalize "a/./b//../../../c/".toUTF8.data.toList =
    ⟨true, "../c".toUTF8.data.toList⟩ := by decide +kernel

end ULib.CanonicalPath
