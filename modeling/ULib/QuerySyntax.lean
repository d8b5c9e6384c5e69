import Mathlib.Tactic.Common
import ULib.QueryDescent

/-!
The language of the queries: NOT binds tighter than AND, AND tighter than OR,
and a keyword is a whole word. The recursive descent reads this language, up to
words that begin with NOT.
-/

namespace ULib.QuerySyntax

open ULib.KeyComparison
open ULib.EscapeCoding
open ULib.QueryTree
open ULib.QueryParser
open ULib.QueryDescent

/-! ### The language -/

/-- What a text says, with its parentheses. -/
inductive Phrase where
  | word (v : Bytes)
  | quoted (v : Bytes)
  | braces (x : Phrase)
  | not (x : Phrase)
  | and (x y : Phrase)
  | or (x y : Phrase)
  deriving DecidableEq, Repr

namespace Phrase

/-- The expression it denotes. -/
def query : Phrase → Query
  | word v => .value v
  | quoted v => .value v
  | braces x => x.query
  | not x => .not x.query
  | and x y => .and x.query y.query
  | or x y => .or x.query y.query

/-- The words that are not in quotes. -/
def words : Phrase → List Bytes
  | word v => [v]
  | quoted _ => []
  | braces x => x.words
  | not x => x.words
  | and x y => x.words ++ y.words
  | or x y => x.words ++ y.words

/-- The word at the end of the text. -/
def lastWord : Phrase → Option Bytes
  | word v => some v
  | quoted _ => none
  | braces _ => none
  | not x => x.lastWord
  | and _ y => y.lastWord
  | or _ y => y.lastWord

/-- The expression with a NOT before it, or without one. -/
def signed (v : Bool) (p : Query) : Query := if v then p else .not p

/-- The expression that is built behind an even or an odd number of NOTs. -/
def builtFrom (v : Bool) : Phrase → Query
  | word w => signed v (.value w)
  | quoted w => signed v (.value w)
  | braces x => signed v (x.builtFrom true)
  | not x => x.builtFrom (!v)
  | and x y => signed v (.and (x.builtFrom true) (y.builtFrom true))
  | or x y => signed v (.or (x.builtFrom true) (y.builtFrom true))

def built (x : Phrase) : Query := x.builtFrom true

theorem eval_signed (σ : Bytes → Bool) (v : Bool) (p : Query) :
    (signed v p).eval σ = (v == p.eval σ) := by
  cases v <;> simp [signed, Query.eval]

theorem values_signed (v : Bool) (p : Query) : (signed v p).values = p.values := by
  cases v <;> rfl

theorem eval_builtFrom (σ : Bytes → Bool) (x : Phrase) (v : Bool) :
    (x.builtFrom v).eval σ = (v == x.query.eval σ) := by
  induction x generalizing v with
  | word w => exact eval_signed σ v _
  | quoted w => exact eval_signed σ v _
  | braces x ih => rw [builtFrom, eval_signed, ih, query, Bool.true_beq]
  | not x ih =>
      rw [builtFrom, ih, query, Query.eval]
      cases v <;> cases x.query.eval σ <;> rfl
  | and x y ihx ihy =>
      rw [builtFrom, eval_signed, Query.eval, ihx, ihy, Bool.true_beq, Bool.true_beq]
      rfl
  | or x y ihx ihy =>
      rw [builtFrom, eval_signed, Query.eval, ihx, ihy, Bool.true_beq, Bool.true_beq]
      rfl

theorem values_builtFrom (x : Phrase) (v : Bool) : (x.builtFrom v).values = x.query.values := by
  induction x generalizing v with
  | word w => exact values_signed v _
  | quoted w => exact values_signed v _
  | braces x ih => rw [builtFrom, values_signed, ih, query]
  | not x ih => rw [builtFrom, ih, query, Query.values]
  | and x y ihx ihy => rw [builtFrom, values_signed, Query.values, ihx, ihy, query, Query.values]
  | or x y ihx ihy => rw [builtFrom, values_signed, Query.values, ihx, ihy, query, Query.values]

theorem eval_built (σ : Bytes → Bool) (x : Phrase) : x.built.eval σ = x.query.eval σ := by
  rw [built, eval_builtFrom, Bool.true_beq]

theorem values_built (x : Phrase) : x.built.values = x.query.values := values_builtFrom x true

end Phrase

def keywords : List Bytes := [s_and, s_or, s_not]

/-- A word without quotes that is none of the keywords. -/
structure IsWord (v : Bytes) : Prop where
  ne_nil : v ≠ []
  isName : ∀ c ∈ v, UTokenizer.isName c = true
  noQuote : ∀ c ∈ v, c ≠ '"'.toUInt8
  noKeyword : v ∉ keywords

/-- No word goes on at the front of `rest`. -/
def Stop (rest : Bytes) : Prop := ∀ c ∈ rest.head?, UTokenizer.isName c = false

inductive Level where
  | atom
  | factor
  | term
  | expr
  deriving DecidableEq, Repr

/-- The text `s` begins with a phrase of the level, and `rest` is left. -/
inductive Reads : Level → Bytes → Phrase → Bytes → Prop
  | word {s v rest : Bytes} (hs : s.dropWhile isSpace = v ++ rest) (hv : IsWord v)
      (hrest : Stop rest) : Reads .atom s (.word v) rest
  | quoted {s v rest : Bytes}
      (hs : s.dropWhile isSpace = ('"'.toUInt8 :: v ++ ['"'.toUInt8]) ++ rest)
      (hv : ∀ c ∈ v, c ≠ '"'.toUInt8) (hrest : Stop rest) :
      Reads .atom s (.quoted ('"'.toUInt8 :: v ++ ['"'.toUInt8])) rest
  | braces {s s' rest' rest : Bytes} {x : Phrase} (hs : s.dropWhile isSpace = s_p1 ++ s')
      (h : Reads .expr s' x rest') (hend : rest'.dropWhile isSpace = s_p2 ++ rest) :
      Reads .atom s (.braces x) rest
  | atom {s rest : Bytes} {x : Phrase} (h : Reads .atom s x rest) : Reads .factor s x rest
  | not {s s' rest : Bytes} {x : Phrase} (hs : s.dropWhile isSpace = s_not ++ s')
      (hstop : Stop s') (h : Reads .factor s' x rest) : Reads .factor s (.not x) rest
  | factor {s rest : Bytes} {x : Phrase} (h : Reads .factor s x rest) : Reads .term s x rest
  | and {s r r' rest : Bytes} {x y : Phrase} (hx : Reads .factor s x r)
      (hr : r.dropWhile isSpace = s_and ++ r') (hstop : Stop r') (hy : Reads .term r' y rest) :
      Reads .term s (.and x y) rest
  | term {s rest : Bytes} {x : Phrase} (h : Reads .term s x rest) : Reads .expr s x rest
  | or {s r r' rest : Bytes} {x y : Phrase} (hx : Reads .term s x r)
      (hr : r.dropWhile isSpace = s_or ++ r') (hstop : Stop r') (hy : Reads .expr r' y rest) :
      Reads .expr s (.or x y) rest

theorem Reads.congr {level : Level} {s s' rest : Bytes} {x : Phrase} (h : Reads level s x rest)
    (heq : s'.dropWhile isSpace = s.dropWhile isSpace) : Reads level s' x rest := by
  induction h with
  | word hs hv hrest => exact .word (heq.trans hs) hv hrest
  | quoted hs hv hrest => exact .quoted (heq.trans hs) hv hrest
  | braces hs h hend _ => exact .braces (heq.trans hs) h hend
  | atom h ih => exact .atom (ih heq)
  | not hs hstop h _ => exact .not (heq.trans hs) hstop h
  | factor h ih => exact .factor (ih heq)
  | and hx hr hstop hy ihx _ => exact .and (ihx heq) hr hstop hy
  | term h ih => exact .term (ih heq)
  | or hx hr hstop hy ihx _ => exact .or (ihx heq) hr hstop hy

theorem Reads.blank {level : Level} {s rest : Bytes} {x : Phrase} (h : Reads level s x rest) :
    Reads level (blank ++ s) x rest := h.congr rfl

/-- What the whole text says. -/
def Denotes (text : Bytes) (x : Phrase) : Prop :=
  ∃ rest, Reads .expr text x rest ∧ rest.dropWhile isSpace = []

/-! ### The parser on a text of the language -/

section Parser

variable {text : Bytes} {beyond : Nat → UInt8} {rest : Bytes} {t : UTokenizer}

theorem tokenSeen_head {d : UInt8} {x : Bytes} (h : At text beyond rest t)
    (hhead : ∀ c ∈ (rest.dropWhile isSpace).head?, c ≠ d) :
    ∃ t', t.tokenSeen (d :: x) = (false, t') ∧ At text beyond rest t' := by
  refine tokenSeen_false h fun hne hahead => ?_
  obtain ⟨c, r, hr⟩ := List.exists_cons_of_ne_nil hne
  rw [hr] at hahead hhead
  rw [ahead, List.length_cons, List.cons_append, List.take_succ_cons] at hahead
  injection hahead with hcd
  exact hhead c rfl hcd

/-- A word is taken for a NOT where it begins with one, with the bytes behind the text. -/
theorem isNOT_word {v tail : Bytes} (h : At text beyond rest t)
    (hrest : rest.dropWhile isSpace = v ++ tail) (htail : Stop tail) (hnot : ¬ s_not <+: v)
    (hlast : tail = [] → ahead beyond v s_not.length ≠ s_not) :
    ∃ t', isNOT t = (false, t') ∧ At text beyond rest t' := by
  refine tokenSeen_false h fun _ hahead => ?_
  rw [hrest] at hahead
  rcases htail' : tail with _ | ⟨c, tail'⟩
  · rw [htail', List.append_nil] at hahead
    exact hlast htail' hahead
  · rw [htail', ahead, List.append_assoc, List.take_append] at hahead
    by_cases hlen : s_not.length ≤ v.length
    · rw [Nat.sub_eq_zero_of_le hlen, List.take_zero, List.append_nil] at hahead
      exact hnot (List.prefix_iff_eq_take.mpr hahead.symm)
    · obtain ⟨n, hn⟩ : ∃ n, s_not.length - v.length = n + 1 :=
        ⟨s_not.length - v.length - 1, by omega⟩
      have hmem : c ∈ s_not := by
        rw [← hahead, hn, List.cons_append, List.take_succ_cons]
        exact List.mem_append_right _ List.mem_cons_self
      have hname : ∀ d ∈ s_not, UTokenizer.isName d = true := by decide
      have hc := htail c (by rw [htail']; rfl)
      rw [hname c hmem] at hc
      cases hc

/-- The function for a level; that for the factors with some NOTs read already. -/
def parser (v : Bool) : Level → Nat → UTokenizer → Parse (UQueryNode × UTokenizer)
  | .atom => parseAtom
  | .factor => fun fuel => factorFrom fuel v
  | .term => parseTerm
  | .expr => parseExpr

/-- The expression that it builds. -/
def builtAt (v : Bool) : Level → Phrase → Query
  | .factor, x => x.builtFrom v
  | _, x => x.built

/-- The operator of the level does not follow. -/
def Follow : Level → Bytes → Prop
  | .atom, _ => True
  | .factor, _ => True
  | .term, rest => ∀ c ∈ (rest.dropWhile isSpace).head?, c ≠ 'A'.toUInt8
  | .expr, rest => ∀ c ∈ (rest.dropWhile isSpace).head?, c ≠ 'A'.toUInt8 ∧ c ≠ 'O'.toUInt8

theorem toNode_signed (v : Bool) (p : Query) :
    (Phrase.signed v p).toNode = if v then p.toNode else .ofType .not .null p.toNode := by
  cases v <;> rfl

variable {s : Bytes} {x : Phrase}

/-- No NOT is seen before an atom. -/
theorem isNOT_atom (h : Reads .atom s x rest) (hwords : ∀ w ∈ x.words, ¬ s_not <+: w)
    (hlast : rest = [] → ∀ w ∈ x.lastWord, ahead beyond w s_not.length ≠ s_not)
    (ht : At text beyond s t) : ∃ t', isNOT t = (false, t') ∧ At text beyond s t' := by
  cases h with
  | word hs hv hrest =>
      exact isNOT_word ht hs hrest (hwords _ List.mem_cons_self) fun hnil => hlast hnil _ rfl
  | quoted hs hv hrest =>
      refine tokenSeen_head ht fun c hc => ?_
      rw [hs] at hc
      cases hc
      decide
  | braces hs h hend =>
      refine tokenSeen_head ht fun c hc => ?_
      rw [hs] at hc
      cases hc
      decide

theorem builtFrom_atom (h : Reads .atom s x rest) (v : Bool) :
    x.builtFrom v = Phrase.signed v x.built := by
  cases h <;> rfl

theorem reads_parse {level : Level} (h : Reads level s x rest) (hfollow : Follow level rest)
    (hwords : ∀ w ∈ x.words, ¬ s_not <+: w)
    (hlast : rest = [] → ∀ w ∈ x.lastWord, ahead beyond w s_not.length ≠ s_not) (v : Bool) :
    Returns text beyond (parser v level) s fun e t =>
      e = (builtAt v level x).toNode ∧ At text beyond rest t := by
  induction h generalizing v with
  | word hs hv hrest =>
      refine returns_token (fun t ht => tokenSeen_head ht fun c hc hp => ?_)
        fun t ht => getToken_word ht hv.ne_nil (fun c hc => ⟨hv.isName c hc, hv.noQuote c hc⟩)
          hrest hs
      obtain ⟨d, w, hw⟩ := List.exists_cons_of_ne_nil hv.ne_nil
      rw [hs, hw] at hc
      cases hc
      have hname := hv.isName c (by rw [hw]; exact List.mem_cons_self)
      rw [hp] at hname
      exact absurd hname (by decide)
  | quoted hs hv hrest =>
      refine returns_token (fun t ht => tokenSeen_head ht fun c hc => ?_)
        fun t ht => getToken_quoted ht hv hs
      rw [hs] at hc
      cases hc
      decide
  | braces hs h hend ih =>
      refine returns_braces hs ((ih ?_ hwords ?_ true).mono fun e t hQ => ⟨hQ.1, hQ.2.congr ?_⟩)
      · intro c hc
        rw [hend] at hc
        cases hc
        decide
      · intro hnil
        rw [hnil] at hend
        cases hend
      · rw [hend]
        rfl
  | atom h ih =>
      refine returns_atom (fun t ht => isNOT_atom h hwords hlast ht)
        ((ih trivial hwords hlast v).mono
        fun e t hQ => ⟨?_, hQ.2⟩)
      show _ = (Phrase.builtFrom v _).toNode
      rw [builtFrom_atom h, toNode_signed, hQ.1]
      rfl
  | not hs hstop h ih => exact returns_not hs (ih trivial hwords hlast (!v))
  | factor h ih =>
      refine returns_last_factor (returns_factor (ih trivial hwords hlast true)) fun e t hQ => ?_
      obtain ⟨t', hseen, ht'⟩ := tokenSeen_head hQ.2 hfollow
      exact ⟨t', hseen, hQ.1, ht'⟩
  | and hx hr hstop hy ihx ihy =>
      refine (returns_and (returns_factor (ihx trivial
        (fun w hw => hwords w (List.mem_append_left _ hw)) ?_ true)) hr (ihy hfollow
        (fun w hw => hwords w (List.mem_append_right _ hw)) hlast v)).mono ?_
      · intro hnil
        rw [hnil] at hr
        cases hr
      · rintro e t ⟨e₁, e₂, rfl, ⟨rfl, ht⟩, rfl⟩
        exact ⟨rfl, ht⟩
  | term h ih =>
      refine returns_last_term (ih (fun c hc => (hfollow c hc).1) hwords hlast v) fun e t hQ => ?_
      obtain ⟨t', hseen, ht'⟩ := tokenSeen_head hQ.2 fun c hc => (hfollow c hc).2
      exact ⟨t', hseen, hQ.1, ht'⟩
  | or hx hr hstop hy ihx ihy =>
      refine (returns_or (ihx ?_ (fun w hw => hwords w (List.mem_append_left _ hw)) ?_ true) hr
        (ihy hfollow (fun w hw => hwords w (List.mem_append_right _ hw)) hlast v)).mono ?_
      · intro c hc
        rw [hr] at hc
        cases hc
        decide
      · intro hnil
        rw [hnil] at hr
        cases hr
      · rintro e t ⟨e₁, e₂, rfl, ⟨rfl, ht⟩, rfl⟩
        exact ⟨rfl, ht⟩

/-- A last word that becomes a NOT together with the bytes behind the text. -/
theorem returns_over {w : Bytes} (hs : s.dropWhile isSpace = w) (hne : w ≠ [])
    (hnot : ¬ s_not <+: w) (hahead : ahead beyond w s_not.length = s_not) (v : Bool) :
    Returns text beyond (parser v .factor) s fun _ t => Over t := by
  intro t ht
  have hlen : w.length < s_not.length := by
    by_contra hle
    rw [ahead_of_length_le (Nat.le_of_not_lt hle)] at hahead
    exact hnot (List.prefix_iff_eq_take.mpr hahead.symm)
  subst hs
  obtain ⟨t₁, hseen, hover⟩ := tokenSeen_over ht hne hlen hahead
  refine ⟨2, if !v then .ofValue t₁.getTokenQueryParser.1
    else .ofType .not .null (.ofValue t₁.getTokenQueryParser.1), t₁.getTokenQueryParser.2, ?_,
    hover.getToken⟩
  have hloop : notLoop 2 v t = pure (!v, t₁) := by
    rw [notLoop, isNOT, hseen]
    dsimp only
    rw [notLoop, isNOT, hover.tokenSeen]
  have hatom : parseAtom 2 t₁ =
      pure (.ofValue t₁.getTokenQueryParser.1, t₁.getTokenQueryParser.2) := by
    rw [parseAtom, isBraceStart, hover.tokenSeen]
  dsimp only [parser, factorFrom]
  rw [Parse.bind_pure hloop, Parse.bind_pure hatom]

theorem reads_over {level : Level} {w : Bytes} (h : Reads level s x rest) (hlevel : level ≠ .atom)
    (hrest : rest = []) (hw : w ∈ x.lastWord) (hwords : ∀ w ∈ x.words, ¬ s_not <+: w)
    (hahead : ahead beyond w s_not.length = s_not) (v : Bool) :
    Returns text beyond (parser v level) s fun _ t => Over t := by
  induction h generalizing v with
  | word hs hv hstop => exact absurd rfl hlevel
  | quoted hs hv hstop => exact absurd rfl hlevel
  | braces hs h hend ih => exact absurd rfl hlevel
  | atom h ih =>
      cases h with
      | word hs hv hstop =>
          cases hw
          rw [hrest, List.append_nil] at hs
          exact returns_over hs hv.ne_nil (hwords _ List.mem_cons_self) hahead v
      | quoted hs hv hstop => cases hw
      | braces hs h hend => cases hw
  | not hs hstop h ih => exact returns_not hs (ih (by decide) hrest hw hwords (!v))
  | factor h ih =>
      exact returns_last_factor (returns_factor (ih (by decide) hrest hw hwords true))
        fun e t hover => ⟨t, hover.tokenSeen s_and, hover⟩
  | and hx hr hstop hy ihx ihy =>
      refine (returns_and (returns_factor (reads_parse hx trivial
        (fun w hw => hwords w (List.mem_append_left _ hw)) ?_ true)) hr (ihy (by decide) hrest hw
        (fun w hw => hwords w (List.mem_append_right _ hw)) v)).mono ?_
      · intro hnil
        rw [hnil] at hr
        cases hr
      · rintro e t ⟨e₁, e₂, -, hover, -⟩
        exact hover
  | term h ih =>
      exact returns_last_term (ih (by decide) hrest hw hwords v)
        fun e t hover => ⟨t, hover.tokenSeen s_or, hover⟩
  | or hx hr hstop hy ihx ihy =>
      refine (returns_or (reads_parse hx ?_ (fun w hw => hwords w (List.mem_append_left _ hw)) ?_
        true) hr (ihy (by decide) hrest hw
        (fun w hw => hwords w (List.mem_append_right _ hw)) v)).mono ?_
      · intro c hc
        rw [hr] at hc
        cases hc
        decide
      · intro hnil
        rw [hnil] at hr
        cases hr
      · rintro e t ⟨e₁, e₂, -, hover, -⟩
        exact hover

end Parser

/-! ### The words of a parsed tree -/

theorem drop_takeWhile (l : Bytes) : l.drop (l.takeWhile isSpace).length = l.dropWhile isSpace := by
  induction l with
  | nil => rfl
  | cons c l ih =>
      by_cases hc : isSpace c = true
      · rw [List.takeWhile_cons_of_pos hc, List.dropWhile_cons_of_pos hc, List.length_cons,
          List.drop_succ_cons, ih]
      · rw [List.takeWhile_cons_of_neg hc, List.dropWhile_cons_of_neg hc]
        rfl

theorem takeWhile_dropWhile (l : Bytes) : (l.dropWhile isSpace).takeWhile isSpace = [] := by
  induction l with
  | nil => rfl
  | cons c l ih =>
      by_cases hc : isSpace c = true
      · rw [List.dropWhile_cons_of_pos hc, ih]
      · rw [List.dropWhile_cons_of_neg hc, List.takeWhile_cons_of_neg hc]

theorem skipSpaces_skipSpaces (t : UTokenizer) : t.skipSpaces.skipSpaces = t.skipSpaces := by
  simp only [UTokenizer.skipSpaces, UTokenizer.rest]
  rw [← List.drop_drop, drop_takeWhile, takeWhile_dropWhile]
  rfl

theorem tokenSeen_again {x : Bytes} {t t' : UTokenizer} (h : t.tokenSeen x = (false, t')) :
    t'.skipSpaces = t' ∧ ¬ (t'.s < t'.str.length ∧ t'.bytesAt t'.s x.length = x) := by
  unfold UTokenizer.tokenSeen at h
  dsimp only at h
  split at h
  · cases h
  · rename_i hseen
    injection h with _ h
    subst h
    exact ⟨skipSpaces_skipSpaces t, hseen⟩

theorem notLoop_stops {fuel : Nat} {v : Bool} {t : UTokenizer} {r : Bool × UTokenizer}
    (h : notLoop fuel v t = pure r) :
    r.2.skipSpaces = r.2 ∧
      ¬ (r.2.s < r.2.str.length ∧ r.2.bytesAt r.2.s s_not.length = s_not) := by
  induction fuel generalizing v t with
  | zero => cases h
  | succ fuel ih =>
      rw [notLoop] at h
      rcases hseen : isNOT t with ⟨seen, t₁⟩
      rw [hseen] at h
      cases seen with
      | true => exact ih h
      | false =>
          cases Parse.pure_inj h
          exact tokenSeen_again hseen

theorem length_bytesAt (t : UTokenizer) (p n : Nat) : (t.bytesAt p n).length = n := by
  rw [UTokenizer.bytesAt, List.length_map, List.length_range]

theorem take_bytesAt {t : UTokenizer} {p n k : Nat} (h : k ≤ n) :
    (t.bytesAt p n).take k = t.bytesAt p k := by
  rw [UTokenizer.bytesAt, ← List.map_take, List.take_range, Nat.min_eq_left h]
  rfl

theorem getToken_noNot {t : UTokenizer} (hskip : t.skipSpaces = t)
    (hseen : ¬ (t.s < t.str.length ∧ t.bytesAt t.s s_not.length = s_not)) :
    ¬ s_not <+: t.getTokenQueryParser.1 := by
  intro hpre
  have hlen := hpre.length_le
  have htake := List.prefix_iff_eq_take.mp hpre
  unfold UTokenizer.getTokenQueryParser at hlen htake
  rw [hskip] at hlen htake
  dsimp only at hlen htake
  rw [length_bytesAt] at hlen
  rw [take_bytesAt hlen] at htake
  have hend : t.str.length ≤ t.s := by
    by_contra hlt
    exact hseen ⟨Nat.lt_of_not_le hlt, htake.symm⟩
  have hrest : t.rest (t.s + 1) = [] := List.drop_eq_nil_of_le (Nat.le_succ_of_le hend)
  rw [hrest] at hlen
  have hlen' : s_not.length ≤ 1 := by
    split at hlen
    · simpa using hlen
    · simpa using hlen
  exact absurd hlen' (by decide)

theorem parse_noNot (fuel : Nat) :
    (∀ t r, parseExpr fuel t = pure r → ∀ w ∈ r.1.values, ¬ s_not <+: w) ∧
    (∀ t r, parseTerm fuel t = pure r → ∀ w ∈ r.1.values, ¬ s_not <+: w) ∧
    (∀ t r, parseFactor fuel t = pure r → ∀ w ∈ r.1.values, ¬ s_not <+: w) ∧
    (∀ t r, t.skipSpaces = t → ¬ (t.s < t.str.length ∧ t.bytesAt t.s s_not.length = s_not) →
      parseAtom fuel t = pure r → ∀ w ∈ r.1.values, ¬ s_not <+: w) := by
  induction fuel with
  | zero =>
      refine ⟨?_, ?_, ?_, ?_⟩
      · intro t r h
        cases h
      · intro t r h
        cases h
      · intro t r h
        cases h
      · intro t r _ _ h
        cases h
  | succ fuel ih =>
      obtain ⟨ihExpr, ihTerm, ihFactor, ihAtom⟩ := ih
      refine ⟨?_, ?_, ?_, ?_⟩
      · intro t r h
        rw [parseExpr] at h
        obtain ⟨⟨left, t₁⟩, hl, h⟩ := Parse.bind_eq_pure h
        dsimp only at h
        rcases hseen : isOR t₁ with ⟨seen, t₂⟩
        rw [hseen] at h
        cases seen with
        | false =>
            cases Parse.pure_inj h
            exact fun w hw => ihTerm t _ hl w hw
        | true =>
            obtain ⟨right, hr, h⟩ := Parse.bind_eq_pure h
            cases Parse.pure_inj h
            intro w hw
            rcases List.mem_append.mp hw with hw | hw
            · exact ihTerm t _ hl w hw
            · exact ihExpr t₂ _ hr w hw
      · intro t r h
        rw [parseTerm] at h
        obtain ⟨⟨left, t₁⟩, hl, h⟩ := Parse.bind_eq_pure h
        dsimp only at h
        rcases hseen : isAND t₁ with ⟨seen, t₂⟩
        rw [hseen] at h
        cases seen with
        | false =>
            cases Parse.pure_inj h
            exact fun w hw => ihFactor t _ hl w hw
        | true =>
            obtain ⟨right, hr, h⟩ := Parse.bind_eq_pure h
            cases Parse.pure_inj h
            intro w hw
            rcases List.mem_append.mp hw with hw | hw
            · exact ihFactor t _ hl w hw
            · exact ihTerm t₂ _ hr w hw
      · intro t r h
        rw [parseFactor] at h
        obtain ⟨⟨v, t₁⟩, hv, h⟩ := Parse.bind_eq_pure h
        obtain ⟨atom, ha, h⟩ := Parse.bind_eq_pure h
        cases Parse.pure_inj h
        intro w hw
        refine ihAtom t₁ _ (notLoop_stops hv).1 (notLoop_stops hv).2 ha w ?_
        cases v <;> exact hw
      · intro t r hskip hnot h
        rw [parseAtom] at h
        rcases hseen : isBraceStart t with ⟨seen, t₁⟩
        rw [hseen] at h
        cases seen with
        | false =>
            have ht₁ : t₁ = t := by
              unfold isBraceStart UTokenizer.tokenSeen at hseen
              rw [hskip] at hseen
              dsimp only at hseen
              split at hseen
              · cases hseen
              · injection hseen with _ h
                exact h.symm
            subst ht₁
            cases Parse.pure_inj h
            intro w hw
            rw [List.mem_singleton.mp hw]
            exact getToken_noNot hskip hnot
        | true =>
            obtain ⟨expr, he, h⟩ := Parse.bind_eq_pure h
            dsimp only at h
            rcases hend : isBraceEnd expr.2 with ⟨seen, t₂⟩
            rw [hend] at h
            cases seen with
            | false => cases h
            | true =>
                cases Parse.pure_inj h
                exact fun w hw => ihExpr t₁ _ he w hw

end ULib.QuerySyntax
