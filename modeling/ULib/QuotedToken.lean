import Mathlib.Algebra.Ring.Parity
import Mathlib.Tactic.IntervalCases
import ULib.EscapeCoding
import ULib.MemoryScan

/-!
`u_find_char` and `u_delimit_token` of `base/utility.c`: where a quoted token
ends. A quote with backslashes in front of it belongs to the token or ends it,
as their number is odd or even.
-/

namespace ULib.QuotedToken

open ULib.KeyComparison
open ULib.EscapeCoding (quote backslash isSpace)
open ULib.MemoryScan

def apostrophe : UInt8 := '\''.toUInt8

/-- The loop of `u_find_char(s, end, c)` -/
def findCharLoop (m : Nat → UInt8) (e : Nat) (c : UInt8) : Nat → Nat → Option Nat
  | 0, _ => none
  | fuel + 1, s =>
      match memchr m c s (e - s) with
      | none => some e
      | some s =>
          if m (s - 1) = backslash ∧ m (s - 2) ≠ backslash then findCharLoop m e c fuel (s + 1)
          else some s

/-- `u_find_char`, for a memory and the positions `s` and `e` in it -/
def findChar (m : Nat → UInt8) (s e : Nat) (c : UInt8) : Option Nat :=
  findCharLoop m e c (e - s + 1) s

/-- White space and line comments: the part of `u_skip` without a delimiter -/
def skipSpaces (m : Nat → UInt8) (e : Nat) (line_comment : UInt8) : Nat → Nat → Option Nat
  | 0, _ => none
  | fuel + 1, s =>
      let s := skip isSpace m s (e - s)
      if line_comment ≠ 0 ∧ m s = line_comment then
        match memchr m '\n'.toUInt8 s (e - s) with
        | some s => skipSpaces m e line_comment fuel s
        | none => some e
      else some s

/-- `u_skip`; the string of the delimiters comes without its zero, which `strchr` finds as well. -/
def uSkip (m : Nat → UInt8) (s e : Nat) (delim : Option Bytes) (line_comment : UInt8) :
    Option Nat :=
  match delim with
  | some delim => some (skip (fun c => delim.contains c || c == 0) m s (e - s))
  | none => skipSpaces m e line_comment (e - s + 1) s

/-- `u__strpbrk` -/
def strpbrk (m : Nat → UInt8) (accept : Bytes) (s slen : Nat) : Option Nat :=
  let p := skip (fun c => !accept.contains c) m s slen
  if p < s + slen then some p else none

/-- `u_delimit_token`, with what it stores in `*p` -/
def delimitToken (m : Nat → UInt8) (s e : Nat) (delim : Option Bytes) (line_comment : UInt8) :
    Option (Nat × Option Nat) := do
  let p ← uSkip m s e delim line_comment
  if p = e then return (e + 1, none)
  let s := p + 1
  if m p = quote ∨ m p = apostrophe then
    let s ← findChar m s e (m p)
    match delim with
    | some _ => return (if s < e then s + 1 else s, some p)
    | none => return (s, some (p + 1))
  else
    match delim with
    | some delim => return ((strpbrk m delim s (e - s)).getD e, some p)
    | none => return (skip (fun c => !isSpace c) m s (e - s), some p)

/-! ### The closing quote -/

/-- The number of backslashes in front of the position `s + k`, from `s` on -/
def slashes (m : Nat → UInt8) (s : Nat) : Nat → Nat
  | 0 => 0
  | k + 1 => if m (s + k) = backslash then slashes m s k + 1 else 0

/-- A `c` with an even number of backslashes in front of it -/
def Closes (m : Nat → UInt8) (s : Nat) (c : UInt8) (p : Nat) : Prop :=
  m p = c ∧ Even (slashes m s (p - s))

instance (m : Nat → UInt8) (s : Nat) (c : UInt8) (p : Nat) : Decidable (Closes m s c p) :=
  inferInstanceAs (Decidable (_ ∧ _))

/-- Where `u_find_char` stops: at a `c` that has not just one backslash in front of it -/
def Stops (m : Nat → UInt8) (c : UInt8) (p : Nat) : Prop :=
  m p = c ∧ ¬ (m (p - 1) = backslash ∧ m (p - 2) ≠ backslash)

/-- A `c` that does not close has just one backslash in front of it, or comes behind one that
closes. -/
def EscapedOnce (m : Nat → UInt8) (s e : Nat) (c : UInt8) : Prop :=
  ∀ p, s ≤ p → p < e → m p = c → Odd (slashes m s (p - s)) →
    slashes m s (p - s) = 1 ∨ ∃ q, s ≤ q ∧ q < p ∧ Closes m s c q

/-- Where a token ends whose closing quote, or end, is at `r` -/
def tokenEnd (delim : Option Bytes) (e r : Nat) : Nat :=
  if delim.isSome ∧ r < e then r + 1 else r

variable {m : Nat → UInt8} {s e r : Nat} {c : UInt8}

theorem findCharLoop_spec {fuel : Nat} (hs : s ≤ e) (hfuel : e - s < fuel) :
    ∃ r, findCharLoop m e c fuel s = some r ∧ First (Stops m c) s e r := by
  induction fuel generalizing s with
  | zero => exact absurd hfuel (Nat.not_lt_zero _)
  | succ fuel ih =>
      rw [findCharLoop]
      cases hfind : memchr m c s (e - s) with
      | none =>
          refine ⟨e, rfl, first_end hs fun q hq hlt h => ?_⟩
          exact of_memchr_none hfind q hq (by omega) h.1
      | some p =>
          obtain ⟨hp, hc, hpassed⟩ := of_memchr_some hfind
          dsimp only
          split
          · next hescaped =>
            obtain ⟨r, hr, hfirst⟩ := @ih (p + 1) (by omega) (by omega)
            refine ⟨r, hr, hfirst.skip (by omega) fun q hq hlt h => ?_⟩
            rcases Nat.eq_or_lt_of_le (Nat.lt_succ_iff.mp hlt) with rfl | hlt
            · exact h.2 hescaped
            · exact hpassed q hq hlt h.1
          · next hstop =>
            exact ⟨p, rfl, (first_here (by omega) fun _ => ⟨hc, hstop⟩).skip hp.1
              fun q hq hlt h => hpassed q hq hlt h.1⟩

/-- One backslash in front of a position is what `u_find_char` looks for, where none is in front
of the part it goes through. -/
theorem slashes_eq_one (hs : 1 ≤ s) (hstart : m (s - 1) ≠ backslash) {p : Nat} (hp : s ≤ p) :
    slashes m s (p - s) = 1 ↔ m (p - 1) = backslash ∧ m (p - 2) ≠ backslash := by
  obtain ⟨k, rfl⟩ := Nat.exists_eq_add_of_le hp
  rw [Nat.add_sub_cancel_left]
  rcases k with _ | _ | k
  · simp [slashes, hstart]
  · simp [slashes, hstart, show s + 1 - 2 = s - 1 by omega]
  · simp only [slashes, show s + (k + 2) - 1 = s + (k + 1) by omega,
      show s + (k + 2) - 2 = s + k by omega]
    split
    · next hlast => simp [hlast]
    · next hlast => simp [hlast]

theorem stops_iff (hs : 1 ≤ s) (hstart : m (s - 1) ≠ backslash) {p : Nat} (hp : s ≤ p) :
    Stops m c p ↔ m p = c ∧ slashes m s (p - s) ≠ 1 := by
  rw [Stops, ← slashes_eq_one hs hstart hp]

/-- A quote that closes is one where `u_find_char` stops. -/
theorem Closes.stops (hs : 1 ≤ s) (hstart : m (s - 1) ≠ backslash) {p : Nat} (hp : s ≤ p)
    (h : Closes m s c p) : Stops m c p := by
  refine (stops_iff hs hstart hp).mpr ⟨h.1, fun hone => ?_⟩
  have heven := h.2
  rw [hone] at heven
  exact absurd heven (by decide)

/-- Up to `b` it stops at the closing quote only, just where a quote that does not close has one
backslash in front of it. -/
theorem escapedOnce_iff (hs : 1 ≤ s) (hstart : m (s - 1) ≠ backslash) {b r' : Nat} (hb : b ≤ e)
    (hr : First (Stops m c) s e r) (hr' : First (Closes m s c) s e r') :
    EscapedOnce m s b c ↔ (r < b → r = r') := by
  constructor
  · intro h hlt
    have hre := hlt.trans_le hb
    obtain ⟨hc, hone⟩ := (stops_iff hs hstart hr.le.1).mp (hr.stop hre)
    have hcloses : Closes m s c r := by
      refine ⟨hc, Nat.not_odd_iff_even.mp fun hodd => ?_⟩
      rcases h r hr.le.1 hlt hc hodd with h1 | ⟨q, hq, hqr, hcloses⟩
      · exact hone h1
      · exact hr.passed q hq hqr (hcloses.stops hs hstart hq)
    rcases Nat.lt_trichotomy r r' with hlt' | heq | hlt'
    · exact absurd hcloses (hr'.passed r hr.le.1 hlt')
    · exact heq
    · have hcloses' := hr'.stop (hlt'.trans hre)
      exact absurd (hcloses'.stops hs hstart hr'.le.1) (hr.passed r' hr'.le.1 hlt')
  · intro h p hp hpb hc hodd
    by_cases hone : slashes m s (p - s) = 1
    · exact .inl hone
    · have hstops : Stops m c p := (stops_iff hs hstart hp).mpr ⟨hc, hone⟩
      have hrp : r ≤ p := by
        by_contra hlt
        exact hr.passed p hp (not_le.mp hlt) hstops
      obtain rfl := h (hrp.trans_lt hpb)
      have hcloses := hr'.stop (hrp.trans_lt (hpb.trans_le hb))
      refine .inr ⟨r, hr.le.1, Nat.lt_of_le_of_ne hrp ?_, hcloses⟩
      rintro rfl
      exact Nat.not_even_iff_odd.mpr hodd hcloses.2

theorem delimitToken_quoted {delim : Option Bytes} {line_comment : UInt8} {t p : Nat}
    (hskip : uSkip m t e delim line_comment = some p) (hp : p ≠ e)
    (hquote : m p = quote ∨ m p = apostrophe) (hfind : findChar m (p + 1) e (m p) = some r) :
    delimitToken m t e delim line_comment =
      some (tokenEnd delim e r, some (if delim.isSome then p else p + 1)) := by
  unfold delimitToken
  rw [hskip]
  simp only [Option.bind_eq_bind, Option.bind_some, Option.pure_def]
  rw [if_neg hp, if_pos hquote, hfind, Option.bind_some]
  cases delim with
  | none => simp only [tokenEnd, Option.isSome_none, Bool.false_eq_true, false_and, if_false]
  | some delim => simp only [tokenEnd, Option.isSome_some, true_and, if_true]

/-- When `u_find_char`, for what stands behind a quote, and `u_delimit_token`, for a token that
begins with it, go to the closing quote -/
theorem findChar_iff (hc : c ≠ backslash) (hs : 1 ≤ s) (hse : s ≤ e) (hquote : m (s - 1) = c) :
    ((∃ r, findChar m s e c = some r ∧ First (Closes m s c) s e r) ↔ EscapedOnce m s e c) ∧
      ∀ t delim line_comment, (c = quote ∨ c = apostrophe) →
        uSkip m t e delim line_comment = some (s - 1) →
        ((∃ r, delimitToken m t e delim line_comment =
            some (tokenEnd delim e r, some (if delim.isSome then s - 1 else s)) ∧
            First (Closes m s c) s e r) ↔
          EscapedOnce m s (if delim.isSome then e - 1 else e) c) := by
  have hstart : m (s - 1) ≠ backslash := hquote ▸ hc
  obtain ⟨r, hfind, hr⟩ := @findCharLoop_spec m s e c (e - s + 1) hse (Nat.lt_succ_self _)
  obtain ⟨r', hr'⟩ := exists_first (Closes m s c) hse
  have hrr' : r ≤ r' := hr.le_of_imp (fun q hq _ h => h.stops hs hstart hq) hr'
  have hre := hr'.le.2
  constructor
  · rw [escapedOnce_iff hs hstart le_rfl hr hr']
    constructor
    · rintro ⟨r'', hfind', hr''⟩ -
      rw [Option.some.inj (hfind.symm.trans hfind')]
      exact hr''.unique hr'
    · intro h
      have heq : r = r' := by omega
      exact ⟨r, hfind, heq ▸ hr'⟩
  · intro t delim line_comment hquotes hskip
    have hsucc : s - 1 + 1 = s := Nat.sub_add_cancel hs
    have htoken := delimitToken_quoted hskip (by omega) (hquote ▸ hquotes)
      (by rw [hsucc, hquote]; exact hfind)
    rw [htoken, hsucc]
    have hend : (∃ r'', some (tokenEnd delim e r, some (if delim.isSome then s - 1 else s)) =
        some (tokenEnd delim e r'', some (if delim.isSome then s - 1 else s)) ∧
        First (Closes m s c) s e r'') ↔ tokenEnd delim e r = tokenEnd delim e r' := by
      simp only [Option.some.injEq, Prod.mk.injEq, and_true]
      constructor
      · rintro ⟨r'', heq, hr''⟩
        rw [heq, hr''.unique hr']
      · exact fun heq => ⟨r', heq, hr'⟩
    rw [hend]
    cases delim with
    | none =>
        simp only [tokenEnd, Option.isSome_none, Bool.false_eq_true, false_and, if_false]
        rw [escapedOnce_iff hs hstart le_rfl hr hr']
        omega
    | some delim =>
        simp only [tokenEnd, Option.isSome_some, true_and, if_true]
        rw [escapedOnce_iff hs hstart (Nat.sub_le e 1) hr hr']
        split <;> split <;> omega

/-- A text in memory -/
def textAt (t : Bytes) (p : Nat) : UInt8 := t.getD p 0

theorem findChar_iff_once :
    ((∃ r, findChar (textAt "'a\\'b' ".toUTF8.data.toList) 1 7 apostrophe = some r ∧
        First (Closes (textAt "'a\\'b' ".toUTF8.data.toList) 1 apostrophe) 1 7 r) ↔
      EscapedOnce (textAt "'a\\'b' ".toUTF8.data.toList) 1 7 apostrophe) ∧
    ((∃ r, delimitToken (textAt "'a\\'b' ".toUTF8.data.toList) 0 7 none 0 =
          some (tokenEnd none 7 r, some 1) ∧
        First (Closes (textAt "'a\\'b' ".toUTF8.data.toList) 1 apostrophe) 1 7 r) ↔
      EscapedOnce (textAt "'a\\'b' ".toUTF8.data.toList) 1 7 apostrophe) := by
  have h := @findChar_iff (textAt "'a\\'b' ".toUTF8.data.toList) 1 7 apostrophe (by decide)
    (by decide) (by decide) (by decide)
  exact ⟨h.1, h.2 0 none 0 (.inr rfl) (by decide)⟩

/-- A quote with three backslashes in front of it is taken for the closing one. -/
theorem findChar_three :
    findChar (textAt "\"a\\\\\\\"b\"".toUTF8.data.toList) 1 8 quote = some 5 ∧
      First (Closes (textAt "\"a\\\\\\\"b\"".toUTF8.data.toList) 1 quote) 1 8 7 ∧
      ¬ First (Closes (textAt "\"a\\\\\\\"b\"".toUTF8.data.toList) 1 quote) 1 8 5 ∧
      delimitToken (textAt "\"a\\\\\\\"b\"".toUTF8.data.toList) 0 8 none 0 = some (5, some 1) := by
  have hclosing : First (Closes (textAt "\"a\\\\\\\"b\"".toUTF8.data.toList) 1 quote) 1 8 7 :=
    ⟨by decide, fun q hq hlt => by interval_cases q <;> decide, fun _ => by decide⟩
  exact ⟨by decide, hclosing, fun h => absurd (h.unique hclosing) (by decide), by decide⟩

end ULib.QuotedToken
