import ULib.KeyComparison
import ULib.MemoryScan

/-!
`u_findEndHeader` of `base/utility.c`: the first blank line of a buffer in
memory. The loop looks at the byte before a newline and at the two behind it, in
the buffer or not.
-/

namespace ULib.HeaderEnd

open ULib.KeyComparison
open ULib.MemoryScan

def carriageReturn : UInt8 := 0x0d

def lineFeed : UInt8 := 0x0a

/-- `u_line_terminator` and `u_line_terminator_len` -/
structure LineTerminator where
  text : Bytes
  len : Nat
  deriving DecidableEq, Repr

def crlf : LineTerminator := ⟨[carriageReturn, lineFeed], 2⟩

def lf : LineTerminator := ⟨[lineFeed], 1⟩

/-- `U_NOT_FOUND` -/
def notFound : Nat := 2 ^ 32 - 1

/-- What is left by `if (pos <= n)` and the `break` behind it -/
def recorded (n pos : Nat) (eol old : LineTerminator) : Nat × LineTerminator :=
  if pos ≤ n then (pos, eol) else (notFound, old)

/-- The loop of `u_findEndHeader(str, n)`; `pos` is an `uint32_t`. -/
def findEndHeaderLoop (m : Nat → UInt8) (str n : Nat) (old : LineTerminator) :
    Nat → Nat → Option (Nat × LineTerminator)
  | 0, _ => none
  | fuel + 1, ptr =>
      if ptr < str + n then
        match memchr m lineFeed ptr (str + n - ptr) with
        | none => some (notFound, old)
        | some p =>
            if m (p + 1) = carriageReturn ∧ m (p - 1) = carriageReturn ∧ m (p + 2) = lineFeed then
              some (recorded n ((p - str + 3) % 2 ^ 32) crlf old)
            else if m (p + 1) = lineFeed then
              some (recorded n ((p - str + 2) % 2 ^ 32) lf old)
            else findEndHeaderLoop m str n old fuel (p + 1)
      else some (notFound, old)

/-- `u_findEndHeader`, for a buffer in the memory `m`, with the line terminator that is recorded
afterwards -/
def findEndHeader (m : Nat → UInt8) (str : Nat) (n : UInt32) (old : LineTerminator) :
    Option (Nat × LineTerminator) :=
  findEndHeaderLoop m str n.toNat old (n.toNat + 1) str

/-! ### Blank lines -/

/-- A blank line that lies in the buffer and ends at the offset -/
inductive EndsAt (m : Nat → UInt8) (str n : Nat) : Nat → LineTerminator → Prop
  | crlf2 {i : Nat} (h : i + 4 ≤ n) (h0 : m (str + i) = carriageReturn)
      (h1 : m (str + i + 1) = lineFeed) (h2 : m (str + i + 2) = carriageReturn)
      (h3 : m (str + i + 3) = lineFeed) : EndsAt m str n (i + 4) crlf
  | lf2 {i : Nat} (h : i + 2 ≤ n) (h0 : m (str + i) = lineFeed)
      (h1 : m (str + i + 1) = lineFeed) : EndsAt m str n (i + 2) lf

/-- The end of the first blank line with its line terminator, or none and the old one -/
def IsEndHeader (m : Nat → UInt8) (str n : Nat) (old : LineTerminator)
    (r : Nat × LineTerminator) : Prop :=
  EndsAt m str n r.1 r.2 ∧ (∀ k eol, EndsAt m str n k eol → r.1 ≤ k) ∨
    (∀ k eol, ¬ EndsAt m str n k eol) ∧ r = (notFound, old)

/-- The loop takes the newline for the one in the middle of `\\r\\n\\r\\n`. -/
def Middle (m : Nat → UInt8) (p : Nat) : Prop :=
  m p = lineFeed ∧ m (p + 1) = carriageReturn ∧ m (p - 1) = carriageReturn ∧ m (p + 2) = lineFeed

/-- The loop takes the newline for the first one of `\\n\\n`. -/
def Double (m : Nat → UInt8) (p : Nat) : Prop := m p = lineFeed ∧ m (p + 1) = lineFeed

/-- Where the loop is left -/
def Event (m : Nat → UInt8) (p : Nat) : Prop := Middle m p ∨ Double m p

/-- A blank line that the loop sees at the offset `i` ends behind what an `uint32_t` holds. -/
def Wraps (m : Nat → UInt8) (str i : Nat) : Prop :=
  Middle m (str + i) ∧ 2 ^ 32 ≤ i + 3 ∨ Double m (str + i) ∧ 2 ^ 32 ≤ i + 2

/-- The bytes around the buffer make no blank line of what lies in it: no `\\r` stands in front of a
buffer that begins with `\\n\\r\\n`, and where the buffer has no blank line, none wraps. -/
def Apart (m : Nat → UInt8) (str n : Nat) : Prop :=
  ¬ (3 ≤ n ∧ Middle m str) ∧
    ((∃ k eol, EndsAt m str n k eol) ∨ ∀ i < n, ¬ Wraps m str i)

variable {m : Nat → UInt8} {str n i r : Nat} {old : LineTerminator}

/-- What the loop is left with -/
def outcome (m : Nat → UInt8) (str n : Nat) (old : LineTerminator) (r : Nat) :
    Nat × LineTerminator :=
  if r = str + n then (notFound, old)
  else if m (r + 1) = carriageReturn then recorded n ((r - str + 3) % 2 ^ 32) crlf old
  else recorded n ((r - str + 2) % 2 ^ 32) lf old

theorem carriageReturn_ne : carriageReturn ≠ lineFeed := by decide

theorem findEndHeaderLoop_spec {fuel ptr : Nat} (hstr : str ≤ ptr) (hptr : ptr ≤ str + n)
    (hfuel : str + n - ptr < fuel) :
    ∃ r, findEndHeaderLoop m str n old fuel ptr = some (outcome m str n old r) ∧
      First (Event m) ptr (str + n) r := by
  induction fuel generalizing ptr with
  | zero => exact absurd hfuel (Nat.not_lt_zero _)
  | succ fuel ih =>
      rw [findEndHeaderLoop]
      split
      · next hlt =>
        cases hfind : memchr m lineFeed ptr (str + n - ptr) with
        | none =>
            have hnone := of_memchr_none hfind
            refine ⟨str + n, by rw [outcome, if_pos rfl], first_end hptr fun q hq hlt h => ?_⟩
            exact hnone q hq (by omega) (h.elim And.left And.left)
        | some p =>
            obtain ⟨hp, hnewline, hpassed⟩ := of_memchr_some hfind
            have hpass : ∀ q, ptr ≤ q → q < p → ¬ Event m q := fun q hq hlt h =>
              hpassed q hq hlt (h.elim And.left And.left)
            have hne : p ≠ str + n := by omega
            dsimp only
            split
            · next hmiddle =>
              refine ⟨p, by rw [outcome, if_neg hne, if_pos hmiddle.1], ?_⟩
              exact (first_here (by omega) fun _ => .inl ⟨hnewline, hmiddle⟩).skip hp.1 hpass
            split
            · next hdouble =>
              have hcr : m (p + 1) ≠ carriageReturn := hdouble ▸ carriageReturn_ne.symm
              refine ⟨p, by rw [outcome, if_neg hne, if_neg hcr], ?_⟩
              exact (first_here (by omega) fun _ => .inr ⟨hnewline, hdouble⟩).skip hp.1 hpass
            · next hmiddle hdouble =>
              obtain ⟨r, hr, hfirst⟩ := @ih (p + 1) (by omega) (by omega) (by omega)
              refine ⟨r, hr, hfirst.skip (by omega) fun q hq hlt h => ?_⟩
              rcases Nat.eq_or_lt_of_le (Nat.lt_succ_iff.mp hlt) with rfl | hlt
              · exact h.elim (fun h => hmiddle h.2) fun h => hdouble h.2
              · exact hpass q hq hlt h
      · next hend =>
        obtain rfl : ptr = str + n := by omega
        exact ⟨str + n, by rw [outcome, if_pos rfl], first_here le_rfl fun h => absurd h hend⟩

/-- The loop is left in every blank line of the buffer. -/
theorem EndsAt.event {k : Nat} {eol : LineTerminator} (h : EndsAt m str n k eol) :
    ∃ p, (str ≤ p ∧ p < str + n) ∧ Event m p ∧ p + 2 ≤ str + k ∧
      (m (p + 1) = carriageReturn → p + 3 ≤ str + k) := by
  cases h with
  | @crlf2 i h h0 h1 h2 h3 =>
      refine ⟨str + i + 1, by omega, .inl ⟨h1, h2, ?_, h3⟩, by omega, fun _ => by omega⟩
      rwa [Nat.add_sub_cancel]
  | @lf2 i h h0 h1 =>
      refine ⟨str + i, by omega, .inr ⟨h0, h1⟩, by omega, fun hcr => ?_⟩
      exact absurd (hcr.symm.trans h1) carriageReturn_ne

theorem EndsAt.four_le {k : Nat} {eol : LineTerminator} (h : EndsAt m str n k eol)
    (heol : eol = crlf) : 4 ≤ k := by
  cases h with
  | crlf2 h h0 h1 h2 h3 => exact Nat.le_add_left 4 _
  | lf2 h h0 h1 => exact absurd heol (by decide)

theorem EndsAt.le {k : Nat} {eol : LineTerminator} (h : EndsAt m str n k eol) : k ≤ n := by
  cases h with
  | crlf2 h h0 h1 h2 h3 => exact h
  | lf2 h h0 h1 => exact h

theorem isEndHeader_notFound (hnone : ∀ k eol, ¬ EndsAt m str n k eol) {x : Nat × LineTerminator} :
    IsEndHeader m str n old x ↔ x = (notFound, old) := by
  constructor
  · rintro (⟨h, -⟩ | ⟨-, h⟩)
    · exact absurd h (hnone _ _)
    · exact h
  · exact fun h => .inr ⟨hnone, h⟩

section Left

variable (hr : First (Event m) str (str + n) r)

include hr

/-- No blank line ends before the one where the loop is left. -/
theorem EndsAt.ge {k : Nat} {eol : LineTerminator} (h : EndsAt m str n k eol) :
    r < str + n ∧ r + 2 ≤ str + k ∧ (m (r + 1) = carriageReturn → r + 3 ≤ str + k) := by
  obtain ⟨p, hp, hevent, htwo, hthree⟩ := h.event
  have hrp : r ≤ p := by
    by_contra hlt
    exact hr.passed p hp.1 (not_le.mp hlt) hevent
  refine ⟨by omega, by omega, fun hcr => ?_⟩
  rcases Nat.eq_or_lt_of_le hrp with rfl | hlt
  · exact hthree hcr
  · have hnext : p ≠ r + 1 := by
      rintro rfl
      exact carriageReturn_ne (hcr.symm.trans (hevent.elim And.left And.left))
    omega

theorem not_start (hpos : str < r) : ¬ (3 ≤ n ∧ Middle m str) :=
  fun h => hr.passed str le_rfl hpos (.inl h.2)

/-- What wraps is not in front of the place where the loop is left. -/
theorem le_of_wraps {j : Nat} (h : Wraps m str j) : r ≤ str + j := by
  by_contra hlt
  exact hr.passed (str + j) (Nat.le_add_right str j) (not_le.mp hlt) (h.imp And.left And.left)

/-- Left in the middle of `\r\n\r\n` -/
theorem middle_iff (hn : n < 2 ^ 32) (hlt : r < str + n) (h : Middle m r) :
    IsEndHeader m str n old (outcome m str n old r) ↔ Apart m str n := by
  obtain ⟨hnewline, hcr, hbefore, hlast⟩ := id h
  have hge := fun {k} {eol} (hk : EndsAt m str n k eol) => EndsAt.ge hr hk
  rw [outcome, if_neg hlt.ne, if_pos hcr]
  obtain ⟨i, rfl⟩ := Nat.exists_eq_add_of_le hr.le.1
  rw [Nat.add_sub_cancel_left]
  rcases Nat.lt_or_ge n (i + 3) with hout | hin
  · -- the blank line goes on behind the buffer
    have hnone : ∀ k eol, ¬ EndsAt m str n k eol := fun k eol hk => by
      have hthree := (hge hk).2.2 hcr
      have hle := hk.le
      omega
    rw [isEndHeader_notFound hnone]
    rcases Nat.lt_or_ge (i + 3) (2 ^ 32) with hfits | hwraps
    · rw [Nat.mod_eq_of_lt hfits, recorded, if_neg (by omega)]
      refine iff_of_true rfl ⟨fun hstart => ?_, .inr fun j hj hwraps => ?_⟩
      · have hi : ¬ str < str + i := fun hpos => not_start hr hpos hstart
        omega
      · have hij := le_of_wraps hr hwraps
        rcases Nat.eq_or_lt_of_le (show i ≤ j by omega) with rfl | hlt'
        · rcases hwraps with ⟨-, hover⟩ | ⟨hdouble, -⟩
          · omega
          · exact carriageReturn_ne (hcr.symm.trans hdouble.2)
        · have hnext : j = i + 1 := by omega
          subst hnext
          exact carriageReturn_ne (hcr.symm.trans (hwraps.elim (·.1.1) (·.1.1)))
    · refine iff_of_false (fun heq => ?_) fun hapart => ?_
      · have hval := congrArg Prod.fst heq
        rw [recorded, if_pos (by omega)] at hval
        simp only [notFound] at hval
        omega
      · rcases hapart.2 with ⟨k, eol, hk⟩ | hnot
        · exact hnone k eol hk
        · exact hnot i (by omega) (.inl ⟨h, hwraps⟩)
  · rw [Nat.mod_eq_of_lt (by omega), recorded, if_pos hin]
    rcases Nat.eq_zero_or_pos i with rfl | hpos
    · -- the byte in front of the buffer counts as its first
      refine iff_of_false (fun hright => ?_) fun hapart => hapart.1 ⟨hin, h⟩
      rcases hright with ⟨hends, -⟩ | ⟨-, heq⟩
      · exact absurd (hends.four_le rfl) (by decide)
      · have hval := congrArg Prod.fst heq
        simp only [notFound] at hval
        omega
    · have hends : EndsAt m str n (i + 3) crlf := by
        obtain ⟨j, rfl⟩ := Nat.exists_eq_add_one_of_ne_zero hpos.ne'
        exact .crlf2 hin hbefore hnewline hcr hlast
      refine iff_of_true (.inl ⟨hends, fun k eol hk => ?_⟩)
        ⟨not_start hr (by omega), .inl ⟨_, _, hends⟩⟩
      have hthree := (hge hk).2.2 hcr
      simp only
      omega

/-- Left at the first of `\n\n` -/
theorem double_iff (hn : n < 2 ^ 32) (hlt : r < str + n) (h : Double m r) :
    IsEndHeader m str n old (outcome m str n old r) ↔ Apart m str n := by
  obtain ⟨hnewline, hnext⟩ := id h
  have hcr : m (r + 1) ≠ carriageReturn := hnext ▸ carriageReturn_ne.symm
  rw [outcome, if_neg hlt.ne, if_neg hcr]
  have hge := fun {k} {eol} (hk : EndsAt m str n k eol) => EndsAt.ge hr hk
  have hstart : ¬ (3 ≤ n ∧ Middle m str) := fun hstart => by
    have hi : ¬ str < r := fun hpos => not_start hr hpos hstart
    obtain rfl : r = str := Nat.le_antisymm (not_lt.mp hi) hr.le.1
    exact hcr hstart.2.2.1
  obtain ⟨i, rfl⟩ := Nat.exists_eq_add_of_le hr.le.1
  rw [Nat.add_sub_cancel_left]
  rcases Nat.lt_or_ge n (i + 2) with hout | hin
  · have hnone : ∀ k eol, ¬ EndsAt m str n k eol := fun k eol hk => by
      have htwo := (hge hk).2.1
      have hle := hk.le
      omega
    rw [isEndHeader_notFound hnone]
    rcases Nat.lt_or_ge (i + 2) (2 ^ 32) with hfits | hwraps
    · rw [Nat.mod_eq_of_lt hfits, recorded, if_neg (by omega)]
      refine iff_of_true rfl ⟨hstart, .inr fun j hj hwraps => ?_⟩
      have hij := le_of_wraps hr hwraps
      obtain rfl : j = i := by omega
      rcases hwraps with ⟨hmiddle, -⟩ | ⟨-, hover⟩
      · exact hcr hmiddle.2.1
      · omega
    · refine iff_of_false (fun heq => ?_) fun hapart => ?_
      · have hval := congrArg Prod.fst heq
        rw [recorded, if_pos (by omega)] at hval
        simp only [notFound] at hval
        omega
      · rcases hapart.2 with ⟨k, eol, hk⟩ | hnot
        · exact hnone k eol hk
        · exact hnot i (by omega) (.inr ⟨h, hwraps⟩)
  · rw [Nat.mod_eq_of_lt (by omega), recorded, if_pos hin]
    have hends : EndsAt m str n (i + 2) lf := .lf2 hin hnewline hnext
    refine iff_of_true (.inl ⟨hends, fun k eol hk => ?_⟩) ⟨hstart, .inl ⟨_, _, hends⟩⟩
    have htwo := (hge hk).2.1
    simp only
    omega

end Left

theorem EndsAt.congr {m' : Nat → UInt8} (h : ∀ j < n, m' (str + j) = m (str + j)) {k : Nat}
    {eol : LineTerminator} (hk : EndsAt m str n k eol) : EndsAt m' str n k eol := by
  cases hk with
  | @crlf2 i hi h0 h1 h2 h3 =>
      exact .crlf2 hi ((h i (by omega)).trans h0) ((h (i + 1) (by omega)).trans h1)
        ((h (i + 2) (by omega)).trans h2) ((h (i + 3) (by omega)).trans h3)
  | @lf2 i hi h0 h1 =>
      exact .lf2 hi ((h i (by omega)).trans h0) ((h (i + 1) (by omega)).trans h1)

theorem EndsAt.unique {k : Nat} {eol eol' : LineTerminator} (h : EndsAt m str n k eol)
    (h' : EndsAt m str n k eol') : eol = eol' := by
  cases h with
  | @crlf2 i hi h0 h1 h2 h3 =>
      generalize hk : i + 4 = k at h'
      cases h' with
      | crlf2 => rfl
      | @lf2 j hj h0' h1' =>
          obtain rfl : j = i + 2 := by omega
          exact absurd (h2.symm.trans h0') carriageReturn_ne
  | @lf2 i hi h0 h1 =>
      generalize hk : i + 2 = k at h'
      cases h' with
      | @crlf2 j hj h0' h1' h2' h3' =>
          obtain rfl : i = j + 2 := by omega
          exact absurd (h2'.symm.trans h0) carriageReturn_ne
      | lf2 => rfl

/-- The result is fixed by the bytes of the buffer. -/
theorem IsEndHeader.unique {m' : Nat → UInt8} (hsame : ∀ j < n, m' (str + j) = m (str + j))
    {x x' : Nat × LineTerminator} (h : IsEndHeader m str n old x)
    (h' : IsEndHeader m' str n old x') : x' = x := by
  have hsame' : ∀ j < n, m (str + j) = m' (str + j) := fun j hj => (hsame j hj).symm
  rcases h with ⟨hends, hfirst⟩ | ⟨hnone, rfl⟩
  · rcases h' with ⟨hends', hfirst'⟩ | ⟨hnone', -⟩
    · have hle := hfirst _ _ (hends'.congr hsame')
      have hle' := hfirst' _ _ (hends.congr hsame)
      have hfst : x'.1 = x.1 := Nat.le_antisymm hle' hle
      exact Prod.ext hfst ((hfst ▸ hends'.congr hsame').unique hends)
    · exact absurd (hends.congr hsame) (hnone' _ _)
  · exact (isEndHeader_notFound fun k eol hk => hnone k eol (hk.congr hsame')).mp h'

/-- When the end of the header that is found is that of the buffer, and the same whatever lies
around the buffer -/
theorem findEndHeader_iff (m : Nat → UInt8) (str : Nat) (n : UInt32) (old : LineTerminator) :
    ((∃ x, findEndHeader m str n old = some x ∧ IsEndHeader m str n.toNat old x) ↔
        Apart m str n.toNat) ∧
      ∀ m', (∀ j < n.toNat, m' (str + j) = m (str + j)) → Apart m str n.toNat →
        Apart m' str n.toNat → findEndHeader m' str n old = findEndHeader m str n old := by
  have hn : n.toNat < 2 ^ 32 := n.toNat_lt
  have hone : ∀ m, ∃ x, findEndHeader m str n old = some x ∧
      (IsEndHeader m str n.toNat old x ↔ Apart m str n.toNat) := by
    intro m
    obtain ⟨r, hloop, hr⟩ := @findEndHeaderLoop_spec m str n.toNat old (n.toNat + 1) str le_rfl
      (Nat.le_add_right _ _) (by omega)
    refine ⟨_, hloop, ?_⟩
    rcases Nat.eq_or_lt_of_le hr.le.2 with hend | hlt
    · have hnone : ∀ k eol, ¬ EndsAt m str n.toNat k eol := fun k eol hk =>
        (hk.ge hr).1.ne hend
      rw [isEndHeader_notFound hnone, outcome, if_pos hend]
      refine iff_of_true rfl ⟨fun hstart => ?_, .inr fun j hj hwraps => ?_⟩
      · exact not_start hr (by omega) hstart
      · have hle := le_of_wraps hr hwraps
        omega
    · rcases hr.stop hlt with h | h
      · exact middle_iff hr hn hlt h
      · exact double_iff hr hn hlt h
  constructor
  · obtain ⟨x, hx, hiff⟩ := hone m
    constructor
    · rintro ⟨x', hx', hright⟩
      obtain rfl := Option.some.inj (hx.symm.trans hx')
      exact hiff.mp hright
    · exact fun hapart => ⟨x, hx, hiff.mpr hapart⟩
  · intro m' hsame hapart hapart'
    obtain ⟨x, hx, hiff⟩ := hone m
    obtain ⟨x', hx', hiff'⟩ := hone m'
    rw [hx, hx', (hiff.mpr hapart).unique hsame (hiff'.mpr hapart')]

/-- A `\r` in front of the buffer `\n\r\n` makes a blank line of it. -/
theorem findEndHeader_start :
    findEndHeader (fun p => [carriageReturn, lineFeed, carriageReturn, lineFeed].getD p 0) 1 3 lf =
        some (3, crlf) ∧
      findEndHeader (fun p => [0, lineFeed, carriageReturn, lineFeed].getD p 0) 1 3 lf =
        some (notFound, lf) ∧
      ¬ IsEndHeader (fun p => [carriageReturn, lineFeed, carriageReturn, lineFeed].getD p 0) 1 3 lf
        (3, crlf) := by
  refine ⟨by decide, by decide, ?_⟩
  rintro (⟨hends, -⟩ | ⟨-, heq⟩)
  · exact absurd (hends.four_le rfl) (by decide)
  · exact absurd (congrArg Prod.fst heq) (by decide)

end ULib.HeaderEnd
