import ULib.EscapeCoding
import ULib.TextBuffer

/-!
`UStringExt::minifyCssJs` of `utility/string_ext.cpp`, which leaves out the
comments of a text and the white space that its tokens do not need.
-/

namespace ULib.CssMinifier

open ULib.KeyComparison
open ULib.EscapeCoding
open ULib.StringHeap (allocated)
open ULib.TextBuffer

def slash : UInt8 := '/'.toUInt8

def star : UInt8 := '*'.toUInt8

def backslash : UInt8 := '\\'.toUInt8

def brace : UInt8 := '}'.toUInt8

def lineFeed : UInt8 := '\n'.toUInt8

def isQuote (c : UInt8) : Bool := c = '\''.toUInt8 || c = '"'.toUInt8

def unextendable (c : UInt8) : Bool :=
  c = '['.toUInt8 || c = ']'.toUInt8 || c = 0x7b || c = brace || c = slash || c = ';'.toUInt8 ||
    c = ':'.toUInt8

def isExtendableOnRight (c : UInt8) : Bool := !(unextendable c || c = '('.toUInt8)

def isExtendableOnLeft (c : UInt8) : Bool := !(unextendable c || c = ')'.toUInt8)

/-! ### The tokens of the loop -/

/-- Comment, white space, quoted string, and other. -/
inductive Lexeme
  | comment (t : Bytes)
  | whitespace (t : Bytes)
  | quoted (t : Bytes)
  | other (c : UInt8)
  deriving DecidableEq, Repr

def Lexeme.text : Lexeme → Bytes
  | comment t => t
  | whitespace t => t
  | quoted t => t
  | other c => [c]

/-- A comment up to its end, and what is behind it. -/
def scanComment : Bytes → Bytes × Bytes
  | [] => ([], [])
  | [c] => ([c], [])
  | c :: d :: t =>
      if c = star ∧ d = slash then ([c, d], t)
      else
        let p := scanComment (d :: t)
        (c :: p.1, p.2)

/-- A quoted string behind its first quote, up to the next one. -/
def scanQuoted (quote : UInt8) : Bytes → Bytes × Bytes
  | [] => ([], [])
  | [c] => ([c], [])
  | c :: d :: t =>
      if c = quote then ([c], d :: t)
      else if c = backslash then
        let p := scanQuoted quote t
        (c :: d :: p.1, p.2)
      else
        let p := scanQuoted quote (d :: t)
        (c :: p.1, p.2)

/-- The token at the start of a text, and what is behind it. -/
def lexeme (c : UInt8) (t : Bytes) : Lexeme × Bytes :=
  if c = slash ∧ t.head? = some star then
    let p := scanComment t.tail
    (.comment (c :: star :: p.1), p.2)
  else if c = slash ∧ t.head? = some slash then
    (.comment (c :: t.takeWhile (· ≠ lineFeed)), t.dropWhile (· ≠ lineFeed))
  else if isSpace c then (.whitespace (c :: t.takeWhile isSpace), t.dropWhile isSpace)
  else if isQuote c then
    let p := scanQuoted c t
    (.quoted (c :: p.1), p.2)
  else (.other c, t)

/-- What a token gives, between the byte in front of it and the one behind it. -/
def written (before : Option UInt8) (x : Lexeme) (behind : Option UInt8) : Bytes :=
  match x with
  | .comment _ => []
  | .whitespace _ =>
      match before, behind with
      | some p, some s => if isExtendableOnRight p && isExtendableOnLeft s then [0x20] else []
      | _, _ => []
  | .quoted t => t
  | .other c => if c = brace then [c, lineFeed] else [c]

/-- The loop, with the byte in front of `s`; every round reads a token, and `none` is a loop that
did not end in so many rounds, or that wrote behind the capacity. -/
def minifyLoop (n : Nat) : Nat → Option UInt8 → Bytes → Buffer → Option Buffer
  | 0, _, _, _ => none
  | _ + 1, _, [], r => some r
  | fuel + 1, before, c :: t, r =>
      let (x, s) := lexeme c t
      (put r (written before x s.head?)).bind fun r =>
        if n ≤ r.data.length then some r else minifyLoop n fuel x.text.getLast? s r

/-- The NUL of `size_adjust` has to be in the block. -/
def minifyCssJs (s : Bytes) : Option Bytes :=
  (minifyLoop s.length (s.length + 1) none s (created s.length)).bind fun r =>
    if r.data.length < r.room then some r.data else none

/-! ### Token sequences -/

def lexemesLoop : Nat → Bytes → List Lexeme
  | 0, _ => []
  | _ + 1, [] => []
  | fuel + 1, c :: t => (lexeme c t).1 :: lexemesLoop fuel (lexeme c t).2

def lexemes (s : Bytes) : List Lexeme := lexemesLoop s.length s

variable (joins : UInt8 → UInt8 → Bool)

/-- Whether a character goes on with the token of the one directly in front of it. -/
def continues (last : Option UInt8) (c : UInt8) : Bool := last.any (joins · c)

/-- The quoted strings and characters that are left, and whether each goes on with a token. -/
def pieces : Option UInt8 → List Lexeme → List (Bytes × Bool)
  | _, [] => []
  | _, .comment _ :: xs => pieces none xs
  | _, .whitespace _ :: xs => pieces none xs
  | _, .quoted t :: xs => (t, false) :: pieces none xs
  | last, .other c :: xs => ([c], continues joins last c) :: pieces (some c) xs

/-- Pieces put together. -/
def joined : List (Bytes × Bool) → List Bytes
  | [] => []
  | (t, _) :: ps =>
      match ps, joined ps with
      | (_, true) :: _, w :: ws => (t ++ w) :: ws
      | _, ws => t :: ws

/-- The tokens without the comments: quoted strings, and runs of characters each of which joins the
next. -/
def tokens (s : Bytes) : List Bytes := joined (pieces joins none (lexemes s))

/-- Runs of characters that are not white space. -/
def anyway (_ _ : UInt8) : Bool := true

/-- Characters that white space would have to separate. -/
def extendable (x c : UInt8) : Bool := isExtendableOnRight x && isExtendableOnLeft c

/-! ### Reading a token -/

theorem scanComment_append (t : Bytes) : (scanComment t).1 ++ (scanComment t).2 = t := by
  induction t using scanComment.induct with
  | case1 => rfl
  | case2 c => rfl
  | case3 c d t hend => rw [scanComment, if_pos hend]; rfl
  | case4 c d t hend ih =>
      rw [scanComment, if_neg hend]
      exact congrArg (c :: ·) ih

theorem scanQuoted_append (quote : UInt8) (t : Bytes) :
    (scanQuoted quote t).1 ++ (scanQuoted quote t).2 = t := by
  induction t using scanQuoted.induct quote with
  | case1 => rfl
  | case2 c => rfl
  | case3 t d => rw [scanQuoted, if_pos rfl]; rfl
  | case4 d t hquote ih =>
      rw [scanQuoted, if_neg hquote, if_pos rfl]
      exact congrArg (fun u => backslash :: d :: u) ih
  | case5 c d t hquote hback ih =>
      rw [scanQuoted, if_neg hquote, if_neg hback]
      exact congrArg (c :: ·) ih

/-- A token is what it takes from the text. -/
theorem lexeme_append (c : UInt8) (t : Bytes) :
    (lexeme c t).1.text ++ (lexeme c t).2 = c :: t := by
  rw [lexeme]
  split_ifs with hblock hline hspace hquote
  · have htail : t = star :: t.tail := by
      cases t with
      | nil => cases hblock.2
      | cons d t => rw [Option.some.inj hblock.2]; rfl
    have happend := scanComment_append t.tail
    exact (congrArg (fun u => c :: star :: u) happend).trans (congrArg (c :: ·) htail.symm)
  · exact congrArg (c :: ·) List.takeWhile_append_dropWhile
  · exact congrArg (c :: ·) List.takeWhile_append_dropWhile
  · exact congrArg (c :: ·) (scanQuoted_append c t)
  · rfl

theorem text_ne_nil (c : UInt8) (t : Bytes) : (lexeme c t).1.text ≠ [] := by
  rw [lexeme]
  split_ifs <;> exact List.cons_ne_nil _ _

theorem length_lexeme_le (c : UInt8) (t : Bytes) : (lexeme c t).2.length ≤ t.length := by
  have hlength := congrArg List.length (lexeme_append c t)
  have hpos := List.length_pos_of_ne_nil (text_ne_nil c t)
  rw [List.length_append, List.length_cons] at hlength
  omega

theorem lexemesLoop_fuel (j k : Nat) {s : Bytes} (hj : s.length ≤ j) (hk : s.length ≤ k) :
    lexemesLoop j s = lexemesLoop k s := by
  induction j generalizing k s with
  | zero =>
      rw [List.eq_nil_of_length_eq_zero (Nat.le_zero.mp hj)]
      cases k <;> rfl
  | succ j ih =>
      cases s with
      | nil => cases k <;> rfl
      | cons c t =>
          cases k with
          | zero => cases hk
          | succ k =>
              have hle := length_lexeme_le c t
              rw [List.length_cons] at hj hk
              rw [lexemesLoop, lexemesLoop, ih k (by omega) (by omega)]

theorem lexemes_cons (c : UInt8) (t : Bytes) :
    lexemes (c :: t) = (lexeme c t).1 :: lexemes (lexeme c t).2 := by
  have hle := length_lexeme_le c t
  rw [lexemes, lexemes, List.length_cons, lexemesLoop,
    lexemesLoop_fuel t.length (lexeme c t).2.length hle (Nat.le_refl _)]

/-- The byte with which a sequence of tokens starts. -/
def first (xs : List Lexeme) : Option UInt8 := xs.head?.bind (·.text.head?)

theorem first_lexemes (s : Bytes) : first (lexemes s) = s.head? := by
  cases s with
  | nil => rfl
  | cons c t =>
      have happend := lexeme_append c t
      rw [lexemes_cons, first, List.head?_cons, Option.bind_some, List.head?_cons]
      cases htext : (lexeme c t).1.text with
      | nil => exact absurd htext (text_ne_nil c t)
      | cons d u =>
          rw [htext] at happend
          exact congrArg some (List.cons.inj happend).1

theorem scanQuoted_ne_nil (quote d : UInt8) (t : Bytes) : (scanQuoted quote (d :: t)).1 ≠ [] := by
  cases t with
  | nil => exact List.cons_ne_nil _ _
  | cons e t =>
      rw [scanQuoted]
      split_ifs <;> exact List.cons_ne_nil _ _

/-- A string that was closed is read again in front of every other text. -/
theorem scanQuoted_extend (quote : UInt8) {t : Bytes} (h : (scanQuoted quote t).2 ≠ [])
    (r : Bytes) : scanQuoted quote ((scanQuoted quote t).1 ++ r) = ((scanQuoted quote t).1, r) := by
  induction t using scanQuoted.induct quote with
  | case1 => exact absurd rfl h
  | case2 c => exact absurd rfl h
  | case3 t d =>
      rw [scanQuoted, if_pos rfl]
      cases r with
      | nil => rfl
      | cons e r => exact if_pos rfl
  | case4 d t hquote ih =>
      rw [scanQuoted, if_neg hquote, if_pos rfl] at h ⊢
      have hrest := ih h
      change scanQuoted quote (backslash :: d :: ((scanQuoted quote t).1 ++ r)) = _
      rw [scanQuoted, if_neg hquote, if_pos rfl, hrest]
  | case5 c d t hquote hback ih =>
      rw [scanQuoted, if_neg hquote, if_neg hback] at h ⊢
      have hrest := ih h
      obtain ⟨e, u, hfirst⟩ := List.exists_cons_of_ne_nil (scanQuoted_ne_nil quote d t)
      dsimp only
      rw [hfirst] at hrest ⊢
      rw [List.cons_append] at hrest ⊢
      rw [List.cons_append, scanQuoted, if_neg hquote, if_neg hback, hrest]

/-- A quoted string that is read again, whatever comes behind it, unless it is the last token. -/
def Quoted (t : Bytes) (xs : List Lexeme) : Prop :=
  ∃ q u, t = q :: u ∧ isQuote q = true ∧
    (xs = [] ∧ scanQuoted q u = (u, []) ∨ ∀ r, scanQuoted q (u ++ r) = (u, r))

/-- Tokens that were read from a text. -/
def Lexed : List Lexeme → Prop
  | [] => True
  | .comment _ :: xs => Lexed xs
  | .whitespace _ :: xs => Lexed xs
  | .quoted t :: xs => Quoted t xs ∧ Lexed xs
  | .other c :: xs =>
      (isSpace c = false ∧ isQuote c = false ∧
        (c = slash → first xs ≠ some star ∧ first xs ≠ some slash)) ∧ Lexed xs

theorem lexed_lexemes (s : Bytes) : Lexed (lexemes s) := by
  generalize hn : s.length = n
  induction n using Nat.strong_induction_on generalizing s with
  | _ n ih =>
      cases s with
      | nil => trivial
      | cons c t =>
          have hle := length_lexeme_le c t
          have hrest := ih (lexeme c t).2.length (by rw [List.length_cons] at hn; omega) _ rfl
          rw [lexemes_cons]
          revert hrest
          rw [lexeme]
          split_ifs with hblock hline hspace hquote
          · exact id
          · exact id
          · exact id
          · refine fun hrest => ⟨⟨c, (scanQuoted c t).1, rfl, hquote, ?_⟩, hrest⟩
            by_cases hend : (scanQuoted c t).2 = []
            · have happend := scanQuoted_append c t
              rw [hend, List.append_nil] at happend
              dsimp only
              rw [hend, happend]
              exact .inl ⟨rfl, Prod.ext happend hend⟩
            · exact .inr (scanQuoted_extend c hend)
          · refine fun hrest => ⟨⟨Bool.eq_false_iff.mpr hspace, Bool.eq_false_iff.mpr hquote, ?_⟩,
              hrest⟩
            intro hc
            dsimp only
            rw [first_lexemes]
            exact ⟨fun h => hblock ⟨hc, h⟩, fun h => hline ⟨hc, h⟩⟩

/-! ### Reading what was written -/

theorem slash_plain : isSpace slash = false ∧ isQuote slash = false := by decide

theorem quote_plain : ∀ q, isQuote q = true → isSpace q = false ∧ q ≠ slash :=
  forall_byte (by decide +kernel)

theorem lexemes_other {c : UInt8} (hspace : isSpace c = false) (hquote : isQuote c = false)
    {r : Bytes} (hr : c = slash → r.head? ≠ some star ∧ r.head? ≠ some slash) :
    lexemes (c :: r) = .other c :: lexemes r := by
  have hlexeme : lexeme c r = (.other c, r) := by
    rw [lexeme, if_neg fun h => (hr h.1).1 h.2, if_neg fun h => (hr h.1).2 h.2,
      if_neg (Bool.eq_false_iff.mp hspace), if_neg (Bool.eq_false_iff.mp hquote)]
  rw [lexemes_cons, hlexeme]

theorem lexemes_quoted {q : UInt8} (hquote : isQuote q = true) {u r : Bytes}
    (hscan : scanQuoted q (u ++ r) = (u, r)) :
    lexemes (q :: u ++ r) = .quoted (q :: u) :: lexemes r := by
  obtain ⟨hspace, hslash⟩ := quote_plain q hquote
  have hlexeme : lexeme q (u ++ r) = (.quoted (q :: u), r) := by
    rw [lexeme, if_neg fun h => hslash h.1, if_neg fun h => hslash h.1,
      if_neg (Bool.eq_false_iff.mp hspace), if_pos hquote, hscan]
  rw [List.cons_append, lexemes_cons, hlexeme]

/-- White space ends a token, however much of it there is. -/
theorem pieces_space (last : Option UInt8) {w : UInt8} (hw : isSpace w = true) (r : Bytes) :
    pieces joins last (lexemes (w :: r)) = pieces joins none (lexemes r) := by
  have hlexeme : ∀ {d : UInt8} (v : Bytes), isSpace d = true →
      lexeme d v = (.whitespace (d :: v.takeWhile isSpace), v.dropWhile isSpace) := by
    intro d v hd
    have hslash : d ≠ slash := by
      rintro rfl
      rw [slash_plain.1] at hd
      cases hd
    rw [lexeme, if_neg fun h => hslash h.1, if_neg fun h => hslash h.1, if_pos hd]
  rw [lexemes_cons, hlexeme r hw, pieces]
  cases r with
  | nil => rfl
  | cons d r =>
      by_cases hd : isSpace d = true
      · rw [List.dropWhile_cons_of_pos hd, lexemes_cons, hlexeme r hd, pieces]
      · rw [List.dropWhile_cons_of_neg hd]

theorem pieces_brace (xs : List Lexeme) :
    pieces extendable (some brace) xs = pieces extendable none xs := by
  cases xs with
  | nil => rfl
  | cons x xs =>
      cases x with
      | comment t => rfl
      | whitespace t => rfl
      | quoted t => rfl
      | other c => rfl

/-! ### The text that is written -/

/-- What the tokens give behind the byte `before`. -/
def render : Option UInt8 → List Lexeme → Bytes
  | _, [] => []
  | before, x :: xs => written before x (first xs) ++ render x.text.getLast? xs

def minified (s : Bytes) : Bytes := render none (lexemes s)

/-- Where tokens come together for which no space is written, they are not read as one. `last` is
the character in front that is no string, `gap` says whether anything was left out behind it. -/
def Separated : Option UInt8 → Bool → Option UInt8 → List Lexeme → Prop
  | _, _, _, [] => True
  | last, _, _, .comment t :: xs => Separated last true t.getLast? xs
  | last, _, before, .whitespace t :: xs =>
      Separated (if written before (.whitespace t) (first xs) = [] then last else none) true
        t.getLast? xs
  | _, _, _, .quoted t :: xs => Separated none false t.getLast? xs
  | last, gap, _, .other c :: xs =>
      (gap = true → ∀ x ∈ last, extendable x c = false ∧ (x = slash → c ≠ star ∧ c ≠ slash)) ∧
        Separated (some c) false (some c) xs

instance decidableSeparated : (last : Option UInt8) → (gap : Bool) → (before : Option UInt8) →
    (xs : List Lexeme) → Decidable (Separated last gap before xs)
  | _, _, _, [] => .isTrue trivial
  | last, _, _, .comment t :: xs => decidableSeparated last true t.getLast? xs
  | last, _, before, .whitespace t :: xs =>
      decidableSeparated (if written before (.whitespace t) (first xs) = [] then last else none) true
        t.getLast? xs
  | _, _, _, .quoted t :: xs => decidableSeparated none false t.getLast? xs
  | last, gap, _, .other c :: xs =>
      have := decidableSeparated (some c) false (some c) xs
      inferInstanceAs (Decidable ((gap = true → ∀ x ∈ last, extendable x c = false ∧
        (x = slash → c ≠ star ∧ c ≠ slash)) ∧ Separated (some c) false (some c) xs))

theorem written_space (before : Option UInt8) (t : Bytes) (behind : Option UInt8) :
    written before (.whitespace t) behind = [] ∨ written before (.whitespace t) behind = [0x20] := by
  cases before with
  | none => exact .inl rfl
  | some p =>
      cases behind with
      | none => exact .inl rfl
      | some b =>
          rw [written]
          split_ifs
          · exact .inr rfl
          · exact .inl rfl

/-- No comment starts with a slash that was none. -/
theorem head_render {xs : List Lexeme} (hxs : Lexed xs) {gap : Bool} {before : Option UInt8}
    (hsep : Separated (some slash) gap before xs)
    (hfirst : gap = false → first xs ≠ some star ∧ first xs ≠ some slash) :
    (render before xs).head? ≠ some star ∧ (render before xs).head? ≠ some slash := by
  induction xs generalizing gap before with
  | nil => exact ⟨nofun, nofun⟩
  | cons x xs ih =>
      cases x with
      | comment t => exact ih hxs hsep nofun
      | whitespace t =>
          rw [render]
          rw [Separated] at hsep
          rcases written_space before t (first xs) with hnone | hspace
          · rw [if_pos hnone] at hsep
            rw [hnone]
            exact ih hxs hsep nofun
          · rw [hspace]
            change some 0x20 ≠ some star ∧ some 0x20 ≠ some slash
            decide
      | quoted t =>
          obtain ⟨⟨q, u, rfl, hquote, -⟩, -⟩ := hxs
          change some q ≠ some star ∧ some q ≠ some slash
          constructor
          · intro hq
            obtain rfl := Option.some.inj hq
            exact absurd hquote (by decide)
          · intro hq
            exact (quote_plain q hquote).2 (Option.some.inj hq)
      | other c =>
          have hc : c ≠ star ∧ c ≠ slash := by
            cases gap with
            | true => exact (hsep.1 rfl slash rfl).2 rfl
            | false =>
                have hne := hfirst rfl
                exact ⟨fun h => hne.1 (congrArg some h), fun h => hne.2 (congrArg some h)⟩
          have hhead : (render before (.other c :: xs)).head? = some c := by
            rw [render, written]
            split_ifs <;> rfl
          rw [hhead]
          exact ⟨fun h => hc.1 (Option.some.inj h), fun h => hc.2 (Option.some.inj h)⟩

/-- What is written is read as the tokens it was written for. -/
theorem pieces_render {xs : List Lexeme} (hxs : Lexed xs) {last : Option UInt8} {gap : Bool}
    {before : Option UInt8} (hsep : Separated last gap before xs) :
    pieces extendable last (lexemes (render before xs)) =
      pieces extendable (if gap = true then none else last) xs := by
  induction xs generalizing last gap before with
  | nil => rfl
  | cons x xs ih =>
      cases x with
      | comment t => exact ih hxs hsep
      | whitespace t =>
          rw [render]
          rw [Separated] at hsep
          rcases written_space before t (first xs) with hnone | hspace
          · rw [if_pos hnone] at hsep
            rw [hnone]
            exact ih hxs hsep
          · rw [hspace] at hsep ⊢
            rw [if_neg (List.cons_ne_nil _ _)] at hsep
            rw [List.singleton_append, pieces_space extendable last (by decide)]
            exact ih hxs hsep
      | quoted t =>
          obtain ⟨⟨q, u, rfl, hquote, hagain⟩, hrest⟩ := hxs
          have hscan : scanQuoted q (u ++ render (q :: u).getLast? xs) =
              (u, render (q :: u).getLast? xs) := by
            rcases hagain with ⟨rfl, hend⟩ | hagain
            · rw [render, List.append_nil]
              exact hend
            · exact hagain _
          change pieces extendable last (lexemes (q :: u ++ render (q :: u).getLast? xs)) = _
          rw [lexemes_quoted hquote hscan, pieces, pieces, ih hrest hsep]
          rfl
      | other c =>
          obtain ⟨⟨hspace, hquote, hslash⟩, hrest⟩ := hxs
          obtain ⟨hgap, hsep⟩ := hsep
          have hnext := ih hrest hsep
          have hcontinues : continues extendable (if gap = true then none else last) c =
              continues extendable last c := by
            cases gap with
            | false => rfl
            | true =>
                cases last with
                | none => rfl
                | some x => exact ((hgap rfl x rfl).1).symm
          rw [pieces, hcontinues]
          rw [render, written]
          split_ifs with hbrace
          · subst hbrace
            change pieces extendable last
              (lexemes (brace :: lineFeed :: render (some brace) xs)) = _
            rw [lexemes_other hspace hquote nofun, pieces,
              pieces_space extendable (some brace) (by decide), ← pieces_brace, hnext]
            rfl
          · have hcomment : c = slash → (render (some c) xs).head? ≠ some star ∧
                (render (some c) xs).head? ≠ some slash := by
              rintro rfl
              exact head_render hrest hsep fun _ => hslash rfl
            change pieces extendable last (lexemes (c :: render (some c) xs)) = _
            rw [lexemes_other hspace hquote hcomment, pieces, hnext]
            rfl

theorem tokens_minified {s : Bytes} (hsep : Separated none false none (lexemes s)) :
    tokens extendable (minified s) = tokens extendable s := by
  rw [tokens, minified, pieces_render (lexed_lexemes s) hsep, tokens]
  rfl

/-- The loop writes the whole text unless it is longer than the size. -/
theorem minifyLoop_eq {n fuel : Nat} {before : Option UInt8} {s : Bytes} {r : Buffer}
    (hfuel : s.length < fuel) (hn : n ≤ r.capacity)
    (hfit : r.data.length + (render before (lexemes s)).length ≤ n) :
    minifyLoop n fuel before s r = put r (render before (lexemes s)) := by
  induction fuel generalizing before s r with
  | zero => cases hfuel
  | succ fuel ih =>
      cases s with
      | nil => exact (put_nil (by omega)).symm
      | cons c t =>
          have hle := length_lexeme_le c t
          rw [List.length_cons] at hfuel
          rw [lexemes_cons, render, first_lexemes, List.length_append] at hfit
          have hput : put r (written before (lexeme c t).1 (lexeme c t).2.head?) =
              some { r with
                data := r.data ++ written before (lexeme c t).1 (lexeme c t).2.head? } :=
            if_pos (by omega)
          rw [minifyLoop, lexemes_cons, render, first_lexemes, ← put_append, hput, Option.bind_some]
          dsimp only
          rw [hput, Option.bind_some, List.length_append]
          split_ifs with hfull
          · have hnil : render (lexeme c t).1.text.getLast? (lexemes (lexeme c t).2) = [] :=
              List.eq_nil_of_length_eq_zero (by omega)
            rw [hnil, put_nil]
            dsimp only
            rw [List.length_append]
            omega
          · refine ih (by omega) hn ?_
            rw [List.length_append]
            omega

theorem minifyCssJs_eq {s : Bytes} (hsize : s.length ≤ maxSize)
    (hfit : (minified s).length ≤ s.length)
    (hroom : (minified s).length < (allocated s.length).2) :
    minifyCssJs s = some (minified s) := by
  have hle := le_allocated hsize
  have hloop : minifyLoop s.length (s.length + 1) none s (created s.length) =
      put (created s.length) (minified s) :=
    minifyLoop_eq (Nat.lt_succ_self _) hle ((Nat.zero_add _).trans_le hfit)
  have hput : put (created s.length) (minified s) =
      some { created s.length with data := minified s } :=
    if_pos ((Nat.zero_add _).trans_le (Nat.le_trans hfit hle))
  rw [minifyCssJs, hloop, hput, Option.bind_some]
  exact if_pos hroom

/-! ### The tokens of the output -/

end ULib.CssMinifier
