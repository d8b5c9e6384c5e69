import Mathlib.Data.List.DropRight
import Mathlib.Data.List.GetD
import Mathlib.Tactic.Common
import ULib.QueryParser

/-!
The recursive descent as rules: what the tokenizer answers before a text, that a
parse may be given more fuel, and what each function returns before a text of a
given form.
-/

namespace ULib.QueryDescent

open ULib.KeyComparison
open ULib.EscapeCoding
open ULib.QueryTree
open ULib.QueryParser

/-! ### The tokenizer before a text -/

section Tokenizer

variable (text : Bytes) (beyond : Nat → UInt8)

/-- The tokenizer stands before `rest`, up to leading spaces. -/
def At (rest : Bytes) (t : UTokenizer) : Prop :=
  ∃ pre r, pre ++ r = text ∧ t = ⟨text, beyond, pre.length⟩ ∧
    r.dropWhile isSpace = rest.dropWhile isSpace

/-- The next bytes behind `rest`, and behind the end of the text. -/
def ahead (rest : Bytes) (n : Nat) : Bytes := (rest ++ (List.range n).map beyond).take n

variable {text beyond}

theorem bytesAt_eq (pre r : Bytes) (s n : Nat) :
    (⟨pre ++ r, beyond, s⟩ : UTokenizer).bytesAt pre.length n = ahead beyond r n := by
  apply List.ext_getElem
  · simp [UTokenizer.bytesAt, ahead]
  · intro i hi _
    simp only [UTokenizer.bytesAt, List.length_map, List.length_range] at hi
    simp only [UTokenizer.bytesAt, ahead, UTokenizer.byteAt, List.getElem_map,
      List.getElem_range, List.getElem_take, List.length_append]
    by_cases hin : i < r.length
    · rw [if_pos (by omega), List.getElem_append_left hin,
        List.getD_append_right _ _ _ _ (by omega),
        Nat.add_sub_cancel_left, List.getD_eq_getElem _ _ hin]
    · rw [if_neg (by omega), List.getElem_append_right (by omega), List.getElem_map,
        List.getElem_range, Nat.add_sub_add_left]

theorem skipSpaces_eq (pre r : Bytes) :
    (⟨pre ++ r, beyond, pre.length⟩ : UTokenizer).skipSpaces =
      ⟨(pre ++ r.takeWhile isSpace) ++ r.dropWhile isSpace, beyond,
        (pre ++ r.takeWhile isSpace).length⟩ := by
  simp [UTokenizer.skipSpaces, UTokenizer.rest]

theorem At.skipSpaces {rest : Bytes} {t : UTokenizer} (h : At text beyond rest t) :
    ∃ pre, pre ++ rest.dropWhile isSpace = text ∧ t.skipSpaces = ⟨text, beyond, pre.length⟩ := by
  obtain ⟨pre, r, rfl, rfl, hr⟩ := h
  refine ⟨pre ++ r.takeWhile isSpace, ?_, ?_⟩
  · rw [← hr, List.append_assoc, List.takeWhile_append_dropWhile]
  · rw [skipSpaces_eq, List.append_assoc, List.takeWhile_append_dropWhile]

theorem At.mk {pre r : Bytes} (h : pre ++ r = text) : At text beyond r ⟨text, beyond, pre.length⟩ :=
  ⟨pre, r, h, rfl, rfl⟩

theorem At.congr {r rest : Bytes} {t : UTokenizer} (h : At text beyond r t)
    (heq : r.dropWhile isSpace = rest.dropWhile isSpace) : At text beyond rest t := by
  obtain ⟨pre, r', hpre, ht, hr⟩ := h
  exact ⟨pre, r', hpre, ht, hr.trans heq⟩

theorem ahead_of_length_le {r : Bytes} {n : Nat} (h : n ≤ r.length) :
    ahead beyond r n = r.take n := by
  rw [ahead, List.take_append_of_le_length h]

theorem tokenSeen_true {x rest rest' : Bytes} {t : UTokenizer} (h : At text beyond rest t)
    (hx : x ≠ []) (hrest : rest.dropWhile isSpace = x ++ rest') :
    ∃ t', t.tokenSeen x = (true, t') ∧ At text beyond rest' t' := by
  obtain ⟨pre, hpre, ht⟩ := h.skipSpaces
  rw [hrest] at hpre
  have hlen : 0 < x.length := List.length_pos_of_ne_nil hx
  refine ⟨⟨text, beyond, (pre ++ x).length⟩, ?_, At.mk (by rw [List.append_assoc, hpre])⟩
  unfold UTokenizer.tokenSeen
  rw [ht]
  dsimp only
  have hbytes : (⟨text, beyond, pre.length⟩ : UTokenizer).bytesAt pre.length x.length = x := by
    rw [← hpre, bytesAt_eq, ahead_of_length_le (by simp), List.take_left']
    rfl
  rw [hbytes, if_pos ⟨by rw [← hpre]; simp only [List.length_append]; omega, rfl⟩,
    List.length_append]

theorem tokenSeen_false {x rest : Bytes} {t : UTokenizer} (h : At text beyond rest t)
    (hne : rest.dropWhile isSpace ≠ [] →
      ahead beyond (rest.dropWhile isSpace) x.length ≠ x) :
    ∃ t', t.tokenSeen x = (false, t') ∧ At text beyond rest t' := by
  obtain ⟨pre, hpre, ht⟩ := h.skipSpaces
  refine ⟨⟨text, beyond, pre.length⟩, ?_, (At.mk hpre).congr (List.dropWhile_idempotent _ _)⟩
  unfold UTokenizer.tokenSeen
  rw [ht]
  dsimp only
  rw [if_neg]
  rintro ⟨hlt, hbytes⟩
  rw [← hpre] at hlt hbytes
  rw [bytesAt_eq] at hbytes
  refine hne (fun hnil => ?_) hbytes
  rw [hnil] at hlt
  simp at hlt

theorem takeWhile_eq_nil {p : UInt8 → Bool} {tail : Bytes} (h : ∀ c ∈ tail.head?, p c = false) :
    tail.takeWhile p = [] := by
  cases tail with
  | nil => rfl
  | cons c tail => exact List.takeWhile_cons_of_neg (by rw [h c rfl]; decide)

theorem getToken_word {v tail rest : Bytes} {t : UTokenizer} (h : At text beyond rest t)
    (hne : v ≠ []) (hname : ∀ c ∈ v, UTokenizer.isName c = true ∧ c ≠ '"'.toUInt8)
    (htail : ∀ c ∈ tail.head?, UTokenizer.isName c = false)
    (hrest : rest.dropWhile isSpace = v ++ tail) :
    ∃ t', t.getTokenQueryParser = (v, t') ∧ At text beyond tail t' := by
  obtain ⟨pre, hpre, ht⟩ := h.skipSpaces
  rw [hrest] at hpre
  refine ⟨⟨text, beyond, (pre ++ v).length⟩, ?_, At.mk (by rw [List.append_assoc, hpre])⟩
  obtain ⟨c, v, rfl⟩ := List.exists_cons_of_ne_nil hne
  have hbyte : (⟨text, beyond, pre.length⟩ : UTokenizer).byteAt pre.length = c := by
    rw [← hpre]
    simp [UTokenizer.byteAt]
  have hscan : (UTokenizer.rest ⟨text, beyond, pre.length⟩ (pre.length + 1)).takeWhile
      UTokenizer.isName = v := by
    rw [UTokenizer.rest, ← hpre, List.cons_append, List.drop_append, Nat.add_sub_cancel_left,
      List.drop_eq_nil_of_le (Nat.le_succ _), List.nil_append, List.drop_succ_cons, List.drop_zero,
      List.takeWhile_append_of_pos (fun d hd => (hname d (List.mem_cons_of_mem c hd)).1),
      takeWhile_eq_nil htail, List.append_nil]
  unfold UTokenizer.getTokenQueryParser
  rw [ht]
  dsimp only
  rw [hbyte, if_neg (hname c List.mem_cons_self).2, hscan]
  have hsize : pre.length + 1 + v.length - pre.length = (c :: v).length := by
    rw [List.length_cons]
    omega
  rw [hsize]
  congr 1
  · rw [← hpre, bytesAt_eq, ahead_of_length_le (by simp), List.take_left']
    rfl
  · rw [List.length_append, List.length_cons]
    congr 1
    omega

theorem getToken_quoted {v tail rest : Bytes} {t : UTokenizer} (h : At text beyond rest t)
    (hv : ∀ c ∈ v, c ≠ '"'.toUInt8)
    (hrest : rest.dropWhile isSpace = ('"'.toUInt8 :: v ++ ['"'.toUInt8]) ++ tail) :
    ∃ t', t.getTokenQueryParser = ('"'.toUInt8 :: v ++ ['"'.toUInt8], t') ∧
      At text beyond tail t' := by
  obtain ⟨pre, hpre, ht⟩ := h.skipSpaces
  rw [hrest] at hpre
  refine ⟨⟨text, beyond, (pre ++ ('"'.toUInt8 :: v ++ ['"'.toUInt8])).length⟩, ?_,
    At.mk (by rw [List.append_assoc, hpre])⟩
  have hbyte : (⟨text, beyond, pre.length⟩ : UTokenizer).byteAt pre.length = '"'.toUInt8 := by
    rw [← hpre]
    simp [UTokenizer.byteAt]
  have hbehind : UTokenizer.rest ⟨text, beyond, pre.length⟩ (pre.length + 1) =
      v ++ '"'.toUInt8 :: tail := by
    rw [UTokenizer.rest, ← hpre]
    simp [List.drop_append]
  have hscan : (v ++ '"'.toUInt8 :: tail).takeWhile (· != '"'.toUInt8) = v := by
    rw [List.takeWhile_append_of_pos (fun c hc => bne_iff_ne.mpr (hv c hc)),
      List.takeWhile_cons_of_neg (by decide), List.append_nil]
  unfold UTokenizer.getTokenQueryParser
  rw [ht]
  dsimp only
  have hsize : pre.length + 1 + min (v.length + 1) (v ++ '"'.toUInt8 :: tail).length - pre.length =
      ('"'.toUInt8 :: v ++ ['"'.toUInt8]).length := by
    simp only [List.length_append, List.length_cons, List.length_nil]
    omega
  rw [hbyte, if_pos rfl, hbehind, hscan, hsize]
  congr 1
  · rw [← hpre, bytesAt_eq, ahead_of_length_le (by simp), List.take_left']
    rfl
  · simp only [List.length_append, List.length_cons, List.length_nil]
    congr 1
    omega

/-- The tokenizer has left the text. -/
def Over (t : UTokenizer) : Prop := t.str.length < t.s

theorem Over.skipSpaces {t : UTokenizer} (h : Over t) : t.skipSpaces = t := by
  rw [UTokenizer.skipSpaces, UTokenizer.rest, List.drop_eq_nil_of_le h.le]
  rfl

theorem Over.tokenSeen {t : UTokenizer} (h : Over t) (x : Bytes) : t.tokenSeen x = (false, t) := by
  rw [UTokenizer.tokenSeen, h.skipSpaces]
  exact if_neg fun hseen => absurd hseen.1 (Nat.lt_asymm h)

theorem Over.getToken {t : UTokenizer} (h : Over t) : Over t.getTokenQueryParser.2 := by
  rw [UTokenizer.getTokenQueryParser, h.skipSpaces]
  dsimp only [Over] at h ⊢
  split <;> omega

/-- A token that is completed by the bytes behind the text. -/
theorem tokenSeen_over {x rest : Bytes} {t : UTokenizer} (h : At text beyond rest t)
    (hne : rest.dropWhile isSpace ≠ []) (hlt : (rest.dropWhile isSpace).length < x.length)
    (hahead : ahead beyond (rest.dropWhile isSpace) x.length = x) :
    ∃ t', t.tokenSeen x = (true, t') ∧ Over t' := by
  obtain ⟨pre, hpre, ht⟩ := h.skipSpaces
  have hlen := congrArg List.length hpre
  rw [List.length_append] at hlen
  have hpos := List.length_pos_of_ne_nil hne
  refine ⟨⟨text, beyond, pre.length + x.length⟩, ?_, ?_⟩
  · unfold UTokenizer.tokenSeen
    rw [ht]
    refine if_pos ⟨?_, ?_⟩
    · dsimp only
      omega
    · dsimp only
      rw [← hpre, bytesAt_eq, hahead]
  · dsimp only [Over]
    omega

end Tokenizer

/-! ### More fuel -/

theorem Parse.bind_pure {α β : Type} {x : Parse α} {f : α → Parse β} {a : α} (h : x = pure a) :
    x >>= f = f a := by
  rw [h]
  rfl

theorem Parse.bind_eq_pure {α β : Type} {x : Parse α} {f : α → Parse β} {b : β}
    (h : x >>= f = pure b) : ∃ a, x = pure a ∧ f a = pure b := by
  match x, h with
  | none, h => cases h
  | some (.error _), h => cases h
  | some (.ok a), h => exact ⟨a, rfl, h⟩

theorem Parse.pure_inj {α : Type} {a b : α} (h : (pure a : Parse α) = pure b) : a = b := by
  cases h
  rfl

theorem notLoop_succ {fuel : Nat} {v : Bool} {t : UTokenizer} {r : Bool × UTokenizer}
    (h : notLoop fuel v t = pure r) : notLoop (fuel + 1) v t = pure r := by
  induction fuel generalizing v t with
  | zero => cases h
  | succ fuel ih =>
      rw [notLoop] at h ⊢
      rcases hseen : isNOT t with ⟨seen, t₁⟩
      rw [hseen] at h
      cases seen with
      | false => exact h
      | true => exact ih h

theorem parse_succ (fuel : Nat) :
    (∀ t r, parseExpr fuel t = pure r → parseExpr (fuel + 1) t = pure r) ∧
    (∀ t r, parseTerm fuel t = pure r → parseTerm (fuel + 1) t = pure r) ∧
    (∀ t r, parseFactor fuel t = pure r → parseFactor (fuel + 1) t = pure r) ∧
    (∀ t r, parseAtom fuel t = pure r → parseAtom (fuel + 1) t = pure r) := by
  induction fuel with
  | zero =>
      refine ⟨?_, ?_, ?_, ?_⟩ <;>
      · intro t r h
        cases h
  | succ fuel ih =>
      obtain ⟨ihExpr, ihTerm, ihFactor, ihAtom⟩ := ih
      refine ⟨?_, ?_, ?_, ?_⟩
      · intro t r h
        rw [parseExpr] at h ⊢
        obtain ⟨⟨left, t₁⟩, hl, h⟩ := Parse.bind_eq_pure h
        rw [Parse.bind_pure (ihTerm t _ hl)]
        dsimp only at h ⊢
        rcases hseen : isOR t₁ with ⟨seen, t₂⟩
        rw [hseen] at h
        cases seen with
        | false => exact h
        | true =>
            obtain ⟨right, hr, h⟩ := Parse.bind_eq_pure h
            dsimp only
            rw [Parse.bind_pure (ihExpr t₂ _ hr)]
            exact h
      · intro t r h
        rw [parseTerm] at h ⊢
        obtain ⟨⟨left, t₁⟩, hl, h⟩ := Parse.bind_eq_pure h
        rw [Parse.bind_pure (ihFactor t _ hl)]
        dsimp only at h ⊢
        rcases hseen : isAND t₁ with ⟨seen, t₂⟩
        rw [hseen] at h
        cases seen with
        | false => exact h
        | true =>
            obtain ⟨right, hr, h⟩ := Parse.bind_eq_pure h
            dsimp only
            rw [Parse.bind_pure (ihTerm t₂ _ hr)]
            exact h
      · intro t r h
        rw [parseFactor] at h ⊢
        obtain ⟨⟨v, t₁⟩, hv, h⟩ := Parse.bind_eq_pure h
        obtain ⟨atom, ha, h⟩ := Parse.bind_eq_pure h
        rw [Parse.bind_pure (notLoop_succ hv)]
        dsimp only
        rw [Parse.bind_pure (ihAtom t₁ _ ha)]
        exact h
      · intro t r h
        rw [parseAtom] at h ⊢
        rcases hseen : isBraceStart t with ⟨seen, t₁⟩
        rw [hseen] at h
        cases seen with
        | false => exact h
        | true =>
            obtain ⟨expr, he, h⟩ := Parse.bind_eq_pure h
            dsimp only
            rw [Parse.bind_pure (ihExpr t₁ _ he)]
            exact h

section Mono

variable {n m : Nat} (hle : n ≤ m) {t : UTokenizer} {r : UQueryNode × UTokenizer}

include hle

theorem parseExpr_mono (h : parseExpr n t = pure r) : parseExpr m t = pure r := by
  induction hle with
  | refl => exact h
  | step _ ih => exact (parse_succ _).1 t r ih

theorem parseTerm_mono (h : parseTerm n t = pure r) : parseTerm m t = pure r := by
  induction hle with
  | refl => exact h
  | step _ ih => exact (parse_succ _).2.1 t r ih

theorem parseFactor_mono (h : parseFactor n t = pure r) : parseFactor m t = pure r := by
  induction hle with
  | refl => exact h
  | step _ ih => exact (parse_succ _).2.2.1 t r ih

theorem parseAtom_mono (h : parseAtom n t = pure r) : parseAtom m t = pure r := by
  induction hle with
  | refl => exact h
  | step _ ih => exact (parse_succ _).2.2.2 t r ih

end Mono

/-! ### The rules -/

/-- `parseFactor` with some NOTs read already. -/
def factorFrom (fuel : Nat) (v : Bool) (t : UTokenizer) : Parse (UQueryNode × UTokenizer) := do
  let (v, t) ← notLoop fuel v t
  let (atom, t) ← parseAtom fuel t
  pure (if v then atom else .ofType .not .null atom, t)

/-- What is asked of the tree and of the tokenizer behind it. -/
abbrev Post : Type := UQueryNode → UTokenizer → Prop

section Rules

variable (text : Bytes) (beyond : Nat → UInt8)

/-- Before `rest` the function `f` returns, and `Q` holds. -/
def Returns (f : Nat → UTokenizer → Parse (UQueryNode × UTokenizer)) (rest : Bytes) (Q : Post) :
    Prop :=
  ∀ t, At text beyond rest t → ∃ fuel e t', f fuel t = pure (e, t') ∧ Q e t'

variable {text beyond} {rest inp tail : Bytes} {v : Bool} {P : UQueryNode → Prop} {Q Q' : Post}
  {f : Nat → UTokenizer → Parse (UQueryNode × UTokenizer)}

theorem Returns.mono (h : Returns text beyond f rest Q) (himp : ∀ e t, Q e t → Q' e t) :
    Returns text beyond f rest Q' := by
  intro t ht
  obtain ⟨fuel, e, t', hf, hQ⟩ := h t ht
  exact ⟨fuel, e, t', hf, himp e t' hQ⟩

theorem parseFactor_eq (fuel : Nat) (t : UTokenizer) :
    parseFactor (fuel + 1) t = factorFrom fuel true t := by
  rw [parseFactor, factorFrom]

theorem returns_factor (h : Returns text beyond (fun fuel => factorFrom fuel true) rest Q) :
    Returns text beyond parseFactor rest Q := by
  intro t ht
  obtain ⟨fuel, e, t', hf, hQ⟩ := h t ht
  exact ⟨fuel + 1, e, t', (parseFactor_eq fuel t).trans hf, hQ⟩

/-- A NOT before a factor. -/
theorem returns_not (hrest : rest.dropWhile isSpace = s_not ++ inp)
    (h : Returns text beyond (fun fuel => factorFrom fuel (!v)) inp Q) :
    Returns text beyond (fun fuel => factorFrom fuel v) rest Q := by
  intro t ht
  obtain ⟨t₁, hseen, ht₁⟩ := tokenSeen_true ht (by decide) hrest
  obtain ⟨fuel, e, t', hf, hQ⟩ := h t₁ ht₁
  obtain ⟨⟨v', t₂⟩, hloop, hf⟩ := Parse.bind_eq_pure hf
  obtain ⟨⟨atom, t₃⟩, hatom, hf⟩ := Parse.bind_eq_pure hf
  refine ⟨fuel + 1, e, t', ?_, hQ⟩
  dsimp only [factorFrom]
  rw [Parse.bind_pure (a := (v', t₂)), Parse.bind_pure (parseAtom_mono (Nat.le_succ fuel) hatom)]
  · exact hf
  · rw [notLoop, isNOT, hseen]
    exact hloop

/-- An atom, with no NOT before it. -/
theorem returns_atom (hnot : ∀ t, At text beyond rest t →
      ∃ t', isNOT t = (false, t') ∧ At text beyond rest t')
    (h : Returns text beyond parseAtom rest
      fun e t => Q (if v then e else .ofType .not .null e) t) :
    Returns text beyond (fun fuel => factorFrom fuel v) rest Q := by
  intro t ht
  obtain ⟨t₁, hseen, ht₁⟩ := hnot t ht
  obtain ⟨fuel, e, t', hf, hQ⟩ := h t₁ ht₁
  refine ⟨fuel + 1, _, t', ?_, hQ⟩
  dsimp only [factorFrom]
  rw [Parse.bind_pure (a := (v, t₁)), Parse.bind_pure (parseAtom_mono (Nat.le_succ fuel) hf)]
  rw [notLoop, hseen]

/-- An atom that is a token. -/
theorem returns_token {w : Bytes} (hbrace : ∀ t, At text beyond rest t →
      ∃ t', isBraceStart t = (false, t') ∧ At text beyond rest t')
    (htoken : ∀ t, At text beyond rest t →
      ∃ t', t.getTokenQueryParser = (w, t') ∧ At text beyond tail t') :
    Returns text beyond parseAtom rest fun e t => e = .ofValue w ∧ At text beyond tail t := by
  intro t ht
  obtain ⟨t₁, hseen, ht₁⟩ := hbrace t ht
  obtain ⟨t', hget, ht'⟩ := htoken t₁ ht₁
  refine ⟨1, _, t', ?_, rfl, ht'⟩
  rw [parseAtom, hseen]
  dsimp only
  rw [hget]

/-- An expression in parentheses. -/
theorem returns_braces (hrest : rest.dropWhile isSpace = s_p1 ++ inp)
    (h : Returns text beyond parseExpr inp fun e t => P e ∧ At text beyond (s_p2 ++ tail) t) :
    Returns text beyond parseAtom rest fun e t => P e ∧ At text beyond tail t := by
  intro t ht
  obtain ⟨t₁, hseen, ht₁⟩ := tokenSeen_true ht (by decide) hrest
  obtain ⟨fuel, e, t₂, hf, hP, ht₂⟩ := h t₁ ht₁
  obtain ⟨t', hend, ht'⟩ := tokenSeen_true ht₂ (by decide)
    (show (s_p2 ++ tail).dropWhile isSpace = s_p2 ++ tail from rfl)
  refine ⟨fuel + 1, e, t', ?_, hP, ht'⟩
  rw [parseAtom, isBraceStart, hseen]
  dsimp only
  rw [Parse.bind_pure hf]
  dsimp only
  rw [isBraceEnd, hend]

/-- A factor that is the last one of its term. -/
theorem returns_last_factor (h : Returns text beyond parseFactor rest Q)
    (hand : ∀ e t, Q e t → ∃ t', isAND t = (false, t') ∧ Q' e t') :
    Returns text beyond parseTerm rest Q' := by
  intro t ht
  obtain ⟨fuel, e, t₁, hf, hQ⟩ := h t ht
  obtain ⟨t', hseen, hQ'⟩ := hand e t₁ hQ
  refine ⟨fuel + 1, e, t', ?_, hQ'⟩
  rw [parseTerm, Parse.bind_pure hf]
  dsimp only
  rw [hseen]

theorem returns_and (h : Returns text beyond parseFactor rest fun e t => P e ∧
    At text beyond tail t)
    (htail : tail.dropWhile isSpace = s_and ++ inp) (hterm : Returns text beyond parseTerm inp Q) :
    Returns text beyond parseTerm rest fun e t =>
      ∃ e₁ e₂, P e₁ ∧ Q e₂ t ∧ e = .ofType .and e₁ e₂ := by
  intro t ht
  obtain ⟨fuel, e₁, t₁, hf, hP, ht₁⟩ := h t ht
  obtain ⟨t₂, hseen, ht₂⟩ := tokenSeen_true ht₁ (by decide) htail
  obtain ⟨fuel', e₂, t', hf', hQ⟩ := hterm t₂ ht₂
  refine ⟨max fuel fuel' + 1, _, t', ?_, e₁, e₂, hP, hQ, rfl⟩
  rw [parseTerm, Parse.bind_pure (parseFactor_mono (Nat.le_max_left _ _) hf)]
  dsimp only
  rw [isAND, hseen]
  dsimp only
  rw [Parse.bind_pure (parseTerm_mono (Nat.le_max_right _ _) hf')]

/-- A term that is the last one of its expression. -/
theorem returns_last_term (h : Returns text beyond parseTerm rest Q)
    (hor : ∀ e t, Q e t → ∃ t', isOR t = (false, t') ∧ Q' e t') :
    Returns text beyond parseExpr rest Q' := by
  intro t ht
  obtain ⟨fuel, e, t₁, hf, hQ⟩ := h t ht
  obtain ⟨t', hseen, hQ'⟩ := hor e t₁ hQ
  refine ⟨fuel + 1, e, t', ?_, hQ'⟩
  rw [parseExpr, Parse.bind_pure hf]
  dsimp only
  rw [hseen]

theorem returns_or (h : Returns text beyond parseTerm rest fun e t => P e ∧ At text beyond tail t)
    (htail : tail.dropWhile isSpace = s_or ++ inp) (hexpr : Returns text beyond parseExpr inp Q) :
    Returns text beyond parseExpr rest fun e t =>
      ∃ e₁ e₂, P e₁ ∧ Q e₂ t ∧ e = .ofType .or e₁ e₂ := by
  intro t ht
  obtain ⟨fuel, e₁, t₁, hf, hP, ht₁⟩ := h t ht
  obtain ⟨t₂, hseen, ht₂⟩ := tokenSeen_true ht₁ (by decide) htail
  obtain ⟨fuel', e₂, t', hf', hQ⟩ := hexpr t₂ ht₂
  refine ⟨max fuel fuel' + 1, _, t', ?_, e₁, e₂, hP, hQ, rfl⟩
  rw [parseExpr, Parse.bind_pure (parseTerm_mono (Nat.le_max_left _ _) hf)]
  dsimp only
  rw [isOR, hseen]
  dsimp only
  rw [Parse.bind_pure (parseExpr_mono (Nat.le_max_right _ _) hf')]

end Rules

end ULib.QueryDescent
