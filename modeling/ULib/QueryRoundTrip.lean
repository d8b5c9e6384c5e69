import Mathlib.Tactic.Common
import ULib.QuerySyntax

/-!
Printing an expression and parsing the text. The parser takes a word that
begins with NOT for a negation of the rest of the word, and this is all that is
lost.
-/

namespace ULib.QueryRoundTrip

open ULib.KeyComparison
open ULib.EscapeCoding
open ULib.QueryTree
open ULib.QueryParser
open ULib.QueryDescent
open ULib.QuerySyntax

/-! ### The printed text -/

/-- A NOT puts its operand in parentheses. -/
def bracedByNot (p : Query) : Bool := p.kind == .and || p.kind == .or

/-- An AND puts its operand in parentheses. -/
def bracedByAnd (p : Query) : Bool := p.kind == .or

def printed : Query → Bytes
  | .value v => v
  | .not p => blank ++ s_not ++ blank ++ inBraces (bracedByNot p) (printed p)
  | .or p q => printed p ++ (blank ++ s_or ++ blank) ++ printed q
  | .and p q =>
      inBraces (bracedByAnd p) (printed p) ++ (blank ++ s_and ++ blank) ++
        inBraces (bracedByAnd q) (printed q)

theorem print_toNode (p : Query) : print p.toNode = some (printed p) := by
  induction p with
  | value v => rfl
  | not p ih =>
      simp only [Query.toNode, UQueryNode.ofType, print, Query.type_toNode, ih, Option.bind_eq_bind,
        Option.bind_some]
      rfl
  | or p q ihp ihq =>
      simp only [Query.toNode, UQueryNode.ofType, print, ihp, ihq, Option.bind_eq_bind,
        Option.bind_some]
      rfl
  | and p q ihp ihq =>
      simp only [Query.toNode, UQueryNode.ofType, print, Query.type_toNode, ihp, ihq,
        Option.bind_eq_bind, Option.bind_some]
      rfl

def unlessBraces (parent : Bool) (last : Option Bytes) : Option Bytes :=
  if parent then none else last

/-- The word that the printed text ends with. -/
def lastWord : Query → Option Bytes
  | .value v => some v
  | .not p => unlessBraces (bracedByNot p) (lastWord p)
  | .and _ q => unlessBraces (bracedByAnd q) (lastWord q)
  | .or _ q => lastWord q

/-! ### The printed text is in the language -/

/-- What a phrase that is read again must keep. -/
structure Says (x : Phrase) (f : (Bytes → Bool) → Bool) (vs : List Bytes) (w : Option Bytes) :
    Prop where
  eval : ∀ σ, x.query.eval σ = f σ
  values : x.query.values = vs
  words : x.words = vs
  last : x.lastWord = w

section Says

theorem stop_blank (s : Bytes) : Stop (blank ++ s) := by
  intro c hc
  cases hc
  decide

/-- The operator AND behind a factor. -/
theorem reads_and {s r rest : Bytes} {x y : Phrase}
    (hx : Reads .factor r x ((blank ++ s_and ++ blank) ++ s)) (hy : Reads .term s y rest) :
    Reads .term r (.and x y) rest := .and hx rfl (stop_blank s) hy.blank

theorem reads_or {s r rest : Bytes} {x y : Phrase}
    (hx : Reads .term r x ((blank ++ s_or ++ blank) ++ s)) (hy : Reads .expr s y rest) :
    Reads .expr r (.or x y) rest := .or hx rfl (stop_blank s) hy.blank

variable {x y : Phrase} {f g : (Bytes → Bool) → Bool} {vs us : List Bytes} {w w' : Option Bytes}

theorem Says.and (hx : Says x f vs w) (hy : Says y g us w') :
    Says (.and x y) (fun σ => f σ && g σ) (vs ++ us) w' where
  eval σ := by rw [Phrase.query, Query.eval, hx.eval, hy.eval]
  values := by rw [Phrase.query, Query.values, hx.values, hy.values]
  words := by rw [Phrase.words, hx.words, hy.words]
  last := hy.last

theorem Says.or (hx : Says x f vs w) (hy : Says y g us w') :
    Says (.or x y) (fun σ => f σ || g σ) (vs ++ us) w' where
  eval σ := by rw [Phrase.query, Query.eval, hx.eval, hy.eval]
  values := by rw [Phrase.query, Query.values, hx.values, hy.values]
  words := by rw [Phrase.words, hx.words, hy.words]
  last := hy.last

theorem Says.not (hx : Says x f vs w) : Says (.not x) (fun σ => !f σ) vs w where
  eval σ := by rw [Phrase.query, Query.eval, hx.eval]
  values := hx.values
  words := hx.words
  last := hx.last

theorem Says.braces (hx : Says x f vs w) : Says (.braces x) f vs none where
  eval := hx.eval
  values := hx.values
  words := hx.words
  last := rfl

theorem Says.and_assoc {h : (Bytes → Bool) → Bool} {ts : List Bytes}
    (hx : Says x (fun σ => f σ && (g σ && h σ)) (vs ++ (us ++ ts)) w) :
    Says x (fun σ => (f σ && g σ) && h σ) ((vs ++ us) ++ ts) w where
  eval σ := by rw [hx.eval, Bool.and_assoc]
  values := by rw [hx.values, List.append_assoc]
  words := by rw [hx.words, List.append_assoc]
  last := hx.last

theorem Says.or_assoc {h : (Bytes → Bool) → Bool} {ts : List Bytes}
    (hx : Says x (fun σ => f σ || (g σ || h σ)) (vs ++ (us ++ ts)) w) :
    Says x (fun σ => (f σ || g σ) || h σ) ((vs ++ us) ++ ts) w where
  eval σ := by rw [hx.eval, Bool.or_assoc]
  values := by rw [hx.values, List.append_assoc]
  words := by rw [hx.words, List.append_assoc]
  last := hx.last

end Says

/-- The text `t`, with anything behind it, is a phrase of the level. -/
def As (level : Level) (t : Bytes) (f : (Bytes → Bool) → Bool) (vs : List Bytes)
    (w : Option Bytes) : Prop :=
  ∀ tail, Stop tail → ∃ x, Reads level (t ++ tail) x tail ∧ Says x f vs w

/-- The text `t` may stand before an AND and a term. -/
def BeforeAnd (t : Bytes) (f : (Bytes → Bool) → Bool) (vs : List Bytes) : Prop :=
  ∀ s y rest g us w, Reads .term s y rest → Says y g us w →
    ∃ x, Reads .term (t ++ ((blank ++ s_and ++ blank) ++ s)) x rest ∧
      Says x (fun σ => f σ && g σ) (vs ++ us) w

/-- The text `t` may stand before an OR and an expression. -/
def BeforeOr (t : Bytes) (f : (Bytes → Bool) → Bool) (vs : List Bytes) : Prop :=
  ∀ s y rest g us w, Reads .expr s y rest → Says y g us w →
    ∃ x, Reads .expr (t ++ ((blank ++ s_or ++ blank) ++ s)) x rest ∧
      Says x (fun σ => f σ || g σ) (vs ++ us) w

section As

variable {t : Bytes} {f : (Bytes → Bool) → Bool} {vs : List Bytes} {w : Option Bytes}

theorem As.braces (h : As .expr t f vs w) : As .factor (s_p1 ++ t ++ s_p2) f vs none := by
  intro tail _
  obtain ⟨x, hx, hsaid⟩ := h (s_p2 ++ tail) (by
    intro c hc
    cases hc
    decide)
  have hs : (s_p1 ++ t ++ s_p2 ++ tail).dropWhile isSpace = s_p1 ++ (t ++ (s_p2 ++ tail)) := by
    simp only [List.append_assoc]
    rfl
  exact ⟨.braces x, .atom (.braces hs hx rfl), hsaid.braces⟩

theorem As.not (h : As .factor t f vs w) :
    As .factor (blank ++ s_not ++ blank ++ t) (fun σ => !f σ) vs w := by
  intro tail htail
  obtain ⟨x, hx, hsaid⟩ := h tail htail
  have hs : (blank ++ s_not ++ blank ++ t ++ tail).dropWhile isSpace =
      s_not ++ (blank ++ (t ++ tail)) := by
    simp only [List.append_assoc]
    rfl
  exact ⟨.not x, .not hs (stop_blank _) hx.blank, hsaid.not⟩

theorem As.term (h : As .factor t f vs w) : As .term t f vs w := by
  intro tail htail
  obtain ⟨x, hx, hsaid⟩ := h tail htail
  exact ⟨x, .factor hx, hsaid⟩

theorem As.expr (h : As .term t f vs w) : As .expr t f vs w := by
  intro tail htail
  obtain ⟨x, hx, hsaid⟩ := h tail htail
  exact ⟨x, .term hx, hsaid⟩

theorem As.beforeAnd (h : As .factor t f vs w) : BeforeAnd t f vs := by
  intro s y rest g us w' hy hsaid'
  obtain ⟨x, hx, hsaid⟩ := h _ (stop_blank _)
  exact ⟨.and x y, reads_and hx hy, hsaid.and hsaid'⟩

theorem As.beforeOr (h : As .term t f vs w) : BeforeOr t f vs := by
  intro s y rest g us w' hy hsaid'
  obtain ⟨x, hx, hsaid⟩ := h _ (stop_blank _)
  exact ⟨.or x y, reads_or hx hy, hsaid.or hsaid'⟩

variable {t' : Bytes} {g : (Bytes → Bool) → Bool} {us : List Bytes} {w' : Option Bytes}

theorem BeforeAnd.term (h : BeforeAnd t f vs) (h' : As .term t' g us w') :
    As .term (t ++ (blank ++ s_and ++ blank) ++ t') (fun σ => f σ && g σ) (vs ++ us) w' := by
  intro tail htail
  obtain ⟨y, hy, hsaid⟩ := h' tail htail
  obtain ⟨x, hx, hsaid⟩ := h _ y tail g us w' hy hsaid
  refine ⟨x, ?_, hsaid⟩
  simpa only [List.append_assoc] using hx

theorem BeforeAnd.trans (h : BeforeAnd t f vs) (h' : BeforeAnd t' g us) :
    BeforeAnd (t ++ (blank ++ s_and ++ blank) ++ t') (fun σ => f σ && g σ) (vs ++ us) := by
  intro s z rest k ts w hz hsaid
  obtain ⟨y, hy, hsaid⟩ := h' s z rest k ts w hz hsaid
  obtain ⟨x, hx, hsaid⟩ := h _ y rest _ _ w hy hsaid
  refine ⟨x, ?_, hsaid.and_assoc⟩
  simpa only [List.append_assoc] using hx

theorem BeforeOr.expr (h : BeforeOr t f vs) (h' : As .expr t' g us w') :
    As .expr (t ++ (blank ++ s_or ++ blank) ++ t') (fun σ => f σ || g σ) (vs ++ us) w' := by
  intro tail htail
  obtain ⟨y, hy, hsaid⟩ := h' tail htail
  obtain ⟨x, hx, hsaid⟩ := h _ y tail g us w' hy hsaid
  refine ⟨x, ?_, hsaid⟩
  simpa only [List.append_assoc] using hx

theorem BeforeOr.trans (h : BeforeOr t f vs) (h' : BeforeOr t' g us) :
    BeforeOr (t ++ (blank ++ s_or ++ blank) ++ t') (fun σ => f σ || g σ) (vs ++ us) := by
  intro s z rest k ts w hz hsaid
  obtain ⟨y, hy, hsaid⟩ := h' s z rest k ts w hz hsaid
  obtain ⟨x, hx, hsaid⟩ := h _ y rest _ _ w hy hsaid
  refine ⟨x, ?_, hsaid.or_assoc⟩
  simpa only [List.append_assoc] using hx

end As

/-- The text of an expression, as it stands at each place, is a phrase that says the same. -/
structure Printed (p : Query) : Prop where
  factor : As .factor (inBraces (bracedByNot p) (printed p)) (fun σ => p.eval σ) p.values
    (unlessBraces (bracedByNot p) (lastWord p))
  term : As .term (inBraces (bracedByAnd p) (printed p)) (fun σ => p.eval σ) p.values
    (unlessBraces (bracedByAnd p) (lastWord p))
  beforeAnd : BeforeAnd (inBraces (bracedByAnd p) (printed p)) (fun σ => p.eval σ) p.values
  expr : As .expr (printed p) (fun σ => p.eval σ) p.values (lastWord p)
  beforeOr : BeforeOr (printed p) (fun σ => p.eval σ) p.values

section Printed

variable {p : Query}

theorem Printed.ofFactor (hbraces : bracedByNot p = false)
    (h : As .factor (printed p) (fun σ => p.eval σ) p.values (lastWord p)) : Printed p := by
  have hand : bracedByAnd p = false := (Bool.or_eq_false_iff.mp hbraces).2
  constructor
  · rw [hbraces]
    exact h
  · rw [hand]
    exact h.term
  · rw [hand]
    exact h.beforeAnd
  · exact h.term.expr
  · exact h.term.beforeOr

theorem Printed.ofTerm (hnot : bracedByNot p = true) (hand : bracedByAnd p = false)
    (h : As .term (printed p) (fun σ => p.eval σ) p.values (lastWord p))
    (h' : BeforeAnd (printed p) (fun σ => p.eval σ) p.values) : Printed p := by
  constructor
  · rw [hnot]
    exact h.expr.braces
  · rw [hand]
    exact h
  · rw [hand]
    exact h'
  · exact h.expr
  · exact h.beforeOr

theorem Printed.ofExpr (hand : bracedByAnd p = true)
    (h : As .expr (printed p) (fun σ => p.eval σ) p.values (lastWord p))
    (h' : BeforeOr (printed p) (fun σ => p.eval σ) p.values) : Printed p := by
  have hnot : bracedByNot p = true := Bool.or_eq_true_iff.mpr (Or.inr hand)
  constructor
  · rw [hnot]
    exact h.braces
  · rw [hand]
    exact h.braces.term
  · rw [hand]
    exact h.braces.beforeAnd
  · exact h
  · exact h'

theorem dropWhile_word {v : Bytes} (hv : IsWord v) (tail : Bytes) :
    (v ++ tail).dropWhile isSpace = v ++ tail := by
  obtain ⟨c, v, rfl⟩ := List.exists_cons_of_ne_nil hv.ne_nil
  refine List.dropWhile_cons_of_neg fun hc => ?_
  have hname := hv.isName c List.mem_cons_self
  simp [UTokenizer.isName, hc] at hname

theorem printed_reads (h : ∀ v ∈ p.values, IsWord v) : Printed p := by
  induction p with
  | value v =>
      refine .ofFactor rfl fun tail htail => ⟨.word v, .atom (.word ?_ (h v List.mem_cons_self)
        htail), ⟨fun _ => rfl, rfl, rfl, rfl⟩⟩
      exact dropWhile_word (h v List.mem_cons_self) tail
  | not p ih => exact .ofFactor rfl (ih h).factor.not
  | and p q ihp ihq =>
      have hp := ihp fun v hv => h v (List.mem_append_left _ hv)
      have hq := ihq fun v hv => h v (List.mem_append_right _ hv)
      exact .ofTerm rfl rfl (hp.beforeAnd.term hq.term) (hp.beforeAnd.trans hq.beforeAnd)
  | or p q ihp ihq =>
      have hp := ihp fun v hv => h v (List.mem_append_left _ hv)
      have hq := ihq fun v hv => h v (List.mem_append_right _ hv)
      exact .ofExpr rfl (hp.beforeOr.expr hq.expr) (hp.beforeOr.trans hq.beforeOr)

end Printed

/-! ### The round trip -/

/-- The parser reads the printed text, the whole of it and no more, and the tree has the words
and the truth table of the expression. -/
def RoundTrips (p : Query) (beyond : Nat → UInt8) : Prop :=
  ∃ text fuel tree, print p.toNode = some text ∧
    parseExpr fuel (UTokenizer.setData text beyond) = pure (tree, ⟨text, beyond, text.length⟩) ∧
    (∀ σ, tree.eval σ = p.eval σ) ∧ ∀ v, v ∈ tree.values ↔ v ∈ p.values

theorem parseExpr_skipSpaces {fuel : Nat} {t : UTokenizer} {r : UQueryNode × UTokenizer}
    (h : parseExpr fuel t = pure r) : r.2.skipSpaces = r.2 := by
  induction fuel generalizing t r with
  | zero => cases h
  | succ fuel ih =>
      rw [parseExpr] at h
      obtain ⟨⟨left, t₁⟩, -, h⟩ := Parse.bind_eq_pure h
      dsimp only at h
      rcases hseen : isOR t₁ with ⟨seen, t₂⟩
      rw [hseen] at h
      cases seen with
      | false =>
          cases Parse.pure_inj h
          exact (tokenSeen_again hseen).1
      | true =>
          obtain ⟨right, hr, h⟩ := Parse.bind_eq_pure h
          cases Parse.pure_inj h
          exact ih (r := right) hr

/-- Two runs that return agree. -/
theorem parseExpr_unique {n m : Nat} {t : UTokenizer} {r r' : UQueryNode × UTokenizer}
    (h : parseExpr n t = pure r) (h' : parseExpr m t = pure r') : r = r' :=
  Parse.pure_inj ((parseExpr_mono (Nat.le_max_left n m) h).symm.trans
    (parseExpr_mono (Nat.le_max_right n m) h'))

theorem at_setData (text : Bytes) (beyond : Nat → UInt8) :
    At text beyond text (UTokenizer.setData text beyond) := ⟨[], text, rfl, rfl, rfl⟩

theorem stop_nil : Stop [] := by
  intro c hc
  cases hc

/-- The printed text as one phrase. -/
theorem printed_phrase {p : Query} (hwords : ∀ v ∈ p.values, IsWord v) :
    ∃ x, Reads .expr (printed p) x [] ∧ Says x (fun σ => p.eval σ) p.values (lastWord p) := by
  obtain ⟨x, hx, hsaid⟩ := (printed_reads hwords).expr [] stop_nil
  exact ⟨x, by rwa [List.append_nil] at hx, hsaid⟩

theorem roundTrips_of {p : Query} {beyond : Nat → UInt8} (hwords : ∀ v ∈ p.values, IsWord v)
    (hnot : ∀ v ∈ p.values, ¬ s_not <+: v)
    (hlast : ∀ v ∈ lastWord p, ahead beyond v s_not.length ≠ s_not) : RoundTrips p beyond := by
  obtain ⟨x, hx, hsaid⟩ := printed_phrase hwords
  have hreturns : Returns (printed p) beyond (parser true .expr) (printed p) fun e t =>
      e = x.built.toNode ∧ At (printed p) beyond [] t :=
    reads_parse hx (fun c hc => by cases hc) (by rw [hsaid.words]; exact hnot)
      (fun _ => by rw [hsaid.last]; exact hlast) true
  obtain ⟨fuel, e, t, hparse, rfl, ht⟩ := hreturns _ (at_setData (printed p) beyond)
  obtain ⟨pre, hpre, hskip⟩ := ht.skipSpaces
  have hstop : t.skipSpaces = t := parseExpr_skipSpaces hparse
  have hend : t = ⟨printed p, beyond, (printed p).length⟩ := by
    rw [← hstop, hskip, ← hpre]
    exact congrArg (UTokenizer.mk _ beyond) (congrArg List.length (List.append_nil pre)).symm
  refine ⟨printed p, fuel, x.built.toNode, print_toNode p, hend ▸ hparse, fun σ => ?_,
    fun v => ?_⟩
  · rw [Query.eval_toNode, Phrase.eval_built, hsaid.eval]
  · rw [Query.values_toNode, Phrase.values_built, hsaid.values]

/-- A query is read back as it was printed exactly if no word begins with NOT, also not the one
at the end of the text together with the bytes behind the text. -/
theorem print_parse_iff (p : Query) (beyond : Nat → UInt8) (hwords : ∀ v ∈ p.values, IsWord v) :
    RoundTrips p beyond ↔
      (∀ v ∈ p.values, ¬ s_not <+: v) ∧
        ∀ v ∈ lastWord p, ahead beyond v s_not.length ≠ s_not := by
  constructor
  · rintro ⟨text, fuel, tree, hprint, hparse, -, hvalues⟩
    cases (print_toNode p).symm.trans hprint
    have hnot : ∀ v ∈ p.values, ¬ s_not <+: v := fun v hv =>
      (parse_noNot fuel).1 _ _ hparse v ((hvalues v).mpr hv)
    refine ⟨hnot, fun v hv hahead => ?_⟩
    obtain ⟨x, hx, hsaid⟩ := printed_phrase hwords
    obtain ⟨fuel', e, t', hparse', hover⟩ := reads_over hx (by decide) rfl
      (by rw [hsaid.last]; exact hv) (by rw [hsaid.words]; exact hnot) hahead true _
      (at_setData (printed p) beyond)
    cases parseExpr_unique hparse hparse'
    exact Nat.lt_irrefl _ hover
  · rintro ⟨hnot, hlast⟩
    exact roundTrips_of hwords hnot hlast

theorem isWord_singleton {c : UInt8} (hname : UTokenizer.isName c = true)
    (hquote : c ≠ '"'.toUInt8) :
    IsWord [c] := by
  refine ⟨List.cons_ne_nil _ _, fun d hd => ?_, fun d hd => ?_, fun h => ?_⟩
  · rwa [List.mem_singleton.mp hd]
  · rwa [List.mem_singleton.mp hd]
  · have hlength : ∀ k ∈ keywords, k.length ≠ 1 := by decide
    exact hlength _ h rfl

/-- A AND NOT (B OR C), before zeros. -/
theorem print_parse_iff_small :
    RoundTrips (.and (.value [65]) (.not (.or (.value [66]) (.value [67])))) (fun _ => 0) := by
  refine (print_parse_iff _ _ ?_).mpr (by decide)
  intro v hv
  rcases hv with _ | ⟨_, _ | ⟨_, _ | ⟨_, hv⟩⟩⟩
  · exact isWord_singleton (by decide) (by decide)
  · exact isWord_singleton (by decide) (by decide)
  · exact isWord_singleton (by decide) (by decide)
  · cases hv

/-- NOTES -/
def notes : Bytes := [78, 79, 84, 69, 83]

/-- NOTES is a word, and it is read as NOT ES. -/
theorem notes_not_read_back :
    IsWord notes ∧ print (Query.value notes).toNode = some notes ∧
      parseExpr 5 (UTokenizer.setData notes fun _ => 0) =
        pure ((Query.not (.value [69, 83])).toNode, ⟨notes, fun _ => 0, 5⟩) ∧
      ¬ RoundTrips (.value notes) fun _ => 0 := by
  refine ⟨⟨by decide, by decide, by decide, by decide⟩, rfl, rfl, ?_⟩
  rintro ⟨text, fuel, tree, -, hparse, -, hvalues⟩
  exact (parse_noNot fuel).1 _ _ hparse notes ((hvalues notes).mpr List.mem_cons_self) (by decide)

end ULib.QueryRoundTrip
