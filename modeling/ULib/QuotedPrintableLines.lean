import ULib.QuotedPrintable

/-!
The lines that `u_quoted_printable_encode` of `base/coder/cquoted_printable.c`
writes: how long they are and which bytes stand in them. The column counts what
was written on the line, but neither the blank that waits nor its three bytes.
-/

namespace ULib.QuotedPrintableLines

open ULib.KeyComparison
open ULib.EscapeCoding (hexUpper forall_byte ne_of_class)
open ULib.ContainerStream (lineFeed)
open ULib.QuotedPrintable

/-- Printable ASCII but the blank -/
def isVisible (c : UInt8) : Bool := 33 ≤ c && c ≤ 126

/-- What is asked of an encoded text. -/
structure Disciplined (out : Bytes) : Prop where
  short : ∀ line ∈ out.splitOnP isBreak, line.length ≤ 76
  closed : ∀ u w c v, out = u ++ w :: c :: v → isBreak c → isWhite w = false
  ascii : ∀ c ∈ out, isBreak c ∨ isWhite c ∨ isVisible c

/-- The same, read from the left: behind `n` bytes of a line, of which the last one is white space
or not. -/
def keeps : Nat → Bool → Bytes → Bool
  | n, _, [] => n ≤ 76
  | n, white, c :: t =>
      if isBreak c then n ≤ 76 && !white && keeps 0 false t
      else (isWhite c || isVisible c) && keeps (n + 1) (isWhite c) t

theorem keeps_break {c : UInt8} (hc : isBreak c) (n : Nat) (white : Bool) (t : Bytes) :
    keeps n white (c :: t) ↔ n ≤ 76 ∧ white = false ∧ keeps 0 false t := by
  rw [keeps, if_pos hc, Bool.and_eq_true, Bool.and_eq_true, decide_eq_true_iff, and_assoc,
    Bool.not_eq_true']

theorem keeps_byte {c : UInt8} (hc : isBreak c = false) (n : Nat) (white : Bool) (t : Bytes) :
    keeps n white (c :: t) ↔ (isWhite c ∨ isVisible c) ∧ keeps (n + 1) (isWhite c) t := by
  rw [keeps, if_neg (by rw [hc]; decide), Bool.and_eq_true, Bool.or_eq_true]

theorem break_white (c : UInt8) (h : isBreak c) : isWhite c = false := by
  revert c
  exact forall_byte (by decide +kernel)

theorem short_of_keeps {out acc : Bytes} {white : Bool} (h : keeps acc.length white out) :
    ∀ line ∈ out.splitOnPPrepend isBreak acc, line.length ≤ 76 := by
  induction out generalizing acc white with
  | nil => simpa [keeps] using h
  | cons c t ih =>
      by_cases hc : isBreak c
      · obtain ⟨hle, -, hrest⟩ := (keeps_break hc _ _ _).mp h
        rw [List.splitOnPPrepend_cons_pos hc, List.forall_mem_cons]
        exact ⟨by rwa [List.length_reverse], @ih [] false hrest⟩
      · rw [Bool.not_eq_true] at hc
        rw [List.splitOnPPrepend_cons_neg hc]
        exact ih ((keeps_byte hc _ _ _).mp h).2

theorem keeps_closed {out : Bytes} {n : Nat} {white : Bool} (h : keeps n white out)
    {u v : Bytes} {w c : UInt8} (heq : out = u ++ w :: c :: v) (hc : isBreak c) :
    isWhite w = false := by
  induction u generalizing out n white with
  | nil =>
      subst heq
      by_cases hw : isBreak w
      · exact break_white w hw
      · rw [Bool.not_eq_true] at hw
        exact ((keeps_break hc _ _ _).mp ((keeps_byte hw _ _ _).mp h).2).2.1
  | cons a u ih =>
      subst heq
      by_cases ha : isBreak a
      · exact ih ((keeps_break ha _ _ _).mp h).2.2 rfl
      · rw [Bool.not_eq_true] at ha
        exact ih ((keeps_byte ha _ _ _).mp h).2 rfl

theorem ascii_of_keeps {out : Bytes} {n : Nat} {white : Bool} (h : keeps n white out) :
    ∀ c ∈ out, isBreak c ∨ isWhite c ∨ isVisible c := by
  induction out generalizing n white with
  | nil => exact nofun
  | cons c t ih =>
      rw [List.forall_mem_cons]
      by_cases hc : isBreak c
      · exact ⟨.inl hc, ih ((keeps_break hc _ _ _).mp h).2.2⟩
      · rw [Bool.not_eq_true] at hc
        obtain ⟨hbyte, hrest⟩ := (keeps_byte hc _ _ _).mp h
        exact ⟨.inr hbyte, ih hrest⟩

theorem disciplined_of_keeps {out : Bytes} (h : keeps 0 false out) : Disciplined out where
  short := @short_of_keeps out [] false h
  closed := fun _ _ _ _ heq hc => keeps_closed h heq hc
  ascii := ascii_of_keeps h

/-! ### What the encoder writes -/

theorem keeps_white {w : UInt8} (hw : isWhite w) (n : Nat) (white : Bool) (t : Bytes) :
    keeps n white (w :: t) ↔ keeps (n + 1) true t := by
  have hbreak : isBreak w = false := by
    rw [Bool.eq_false_iff]
    exact fun h => absurd hw (by simp [break_white w h])
  rw [keeps_byte hbreak, hw]
  exact and_iff_right (.inl rfl)

theorem visible_plain (c : UInt8) (h : isVisible c) : isBreak c = false ∧ isWhite c = false := by
  have hall : ∀ c : UInt8, isVisible c → isBreak c = false ∧ isWhite c = false :=
    forall_byte (by decide +kernel)
  exact hall c h

theorem keeps_visible {c : UInt8} (hc : isVisible c) (n : Nat) (white : Bool) (t : Bytes) :
    keeps n white (c :: t) ↔ keeps (n + 1) false t := by
  obtain ⟨hbreak, hwhite⟩ := visible_plain c hc
  rw [keeps_byte hbreak, hwhite]
  exact and_iff_right (.inr hc)

theorem keeps_hexText (c : UInt8) (n : Nat) (white : Bool) (t : Bytes) :
    keeps n white (hexText c ++ t) ↔ keeps (n + 3) false t := by
  have hall : ∀ c : UInt8, isVisible (hexUpper ((c >>> 4) &&& 15)) ∧
      isVisible (hexUpper (c &&& 15)) := forall_byte (by decide +kernel)
  rw [hexText, List.cons_append, List.cons_append, List.cons_append, List.nil_append,
    keeps_visible (by decide), keeps_visible (hall c).1, keeps_visible (hall c).2]

theorem visible_of_shown (c : UInt8) (h : isHidden c = false) : isVisible c := by
  have hall : ∀ c : UInt8, isHidden c = false → isVisible c := forall_byte (by decide +kernel)
  exact hall c h

/-- The blank that waits is written. -/
theorem keeps_waiting {l : Line} (h : l.Waits) {white : Bool} {t : Bytes}
    (ht : ∀ white', keeps (l.n + l.ws.toList.length) white' t) :
    keeps l.n white (l.ws.toList ++ t) := by
  cases hws : l.ws with
  | none =>
      rw [hws] at ht
      exact ht white
  | some w =>
      rw [hws] at ht
      exact (keeps_white (h w hws) _ _ _).mpr (ht true)

/-- A byte lengthens the line, or ends it; with the blank that waits it has 75 bytes at most. -/
theorem encodeByte_keeps {l : Line} (h : l.Waits) (hn : l.n ≤ 71) {white : Bool}
    (hwhite : white → l.ws ≠ none) (ch : UInt8) :
    (encodeByte l ch).2.n + (encodeByte l ch).2.ws.toList.length ≤ 75 ∧
      ∃ white' : Bool, (white' → (encodeByte l ch).2.ws ≠ none) ∧
        ∀ t, keeps (encodeByte l ch).2.n white' t → keeps l.n white ((encodeByte l ch).1 ++ t) := by
  have hlength : l.ws.toList.length ≤ 1 := by
    cases l.ws <;> simp
  rw [encodeByte]
  split_ifs with hw hbreak hhidden
  · cases hws : l.ws with
    | none => exact ⟨by simp; omega, white, fun _ => by simp, fun t ht => ht⟩
    | some w =>
        refine ⟨by simp; omega, true, fun _ => by simp, fun t ht => ?_⟩
        exact (keeps_white (h w hws) _ _ _).mpr ht
  · cases hws : l.ws with
    | none =>
        have hfalse : white = false := by
          rw [Bool.eq_false_iff]
          exact fun hwhite' => hwhite hwhite' hws
        refine ⟨by simp, false, fun h => absurd h Bool.false_ne_true, fun t ht => ?_⟩
        exact (keeps_break hbreak _ _ _).mpr ⟨by omega, hfalse, ht⟩
    | some w =>
        refine ⟨by simp, false, fun h => absurd h Bool.false_ne_true, fun t ht => ?_⟩
        dsimp only
        rw [List.append_assoc, keeps_hexText]
        exact (keeps_break hbreak _ _ _).mpr ⟨by omega, rfl, ht⟩
  · refine ⟨by dsimp only; rw [Option.toList_none, List.length_nil]; omega, false,
      fun h => absurd h Bool.false_ne_true, fun t ht => ?_⟩
    dsimp only
    rw [List.append_assoc]
    exact keeps_waiting h fun white' => (keeps_hexText ch _ _ _).mpr ht
  · refine ⟨by dsimp only; rw [Option.toList_none, List.length_nil]; omega, false,
      fun h => absurd h Bool.false_ne_true, fun t ht => ?_⟩
    have hvisible := visible_of_shown ch (by simpa using hhidden)
    dsimp only
    rw [List.append_assoc]
    exact keeps_waiting h fun white' => (keeps_visible hvisible _ _ _).mpr ht

/-- A line that is too long is broken behind 76 bytes at most. -/
theorem breakLine_keeps {l : Line} (h : l.Waits) (hn : l.n + l.ws.toList.length ≤ 75)
    {white : Bool} (hwhite : white → l.ws ≠ none) :
    (breakLine l).2.n ≤ 71 ∧ ∃ white' : Bool, (white' → (breakLine l).2.ws ≠ none) ∧
      ∀ t, keeps (breakLine l).2.n white' t → keeps l.n white ((breakLine l).1 ++ t) := by
  rw [breakLine]
  split_ifs with hlong
  · refine ⟨Nat.zero_le _, false, fun h => absurd h Bool.false_ne_true, fun t ht => ?_⟩
    dsimp only
    rw [List.append_assoc]
    refine keeps_waiting h fun white' => ?_
    rw [List.cons_append, List.cons_append, List.nil_append, keeps_visible (by decide)]
    exact (keeps_break (by decide) _ _ _).mpr ⟨by omega, rfl, ht⟩
  · exact ⟨Nat.not_lt.mp hlong, white, hwhite, fun t ht => ht⟩

theorem encodeLoop_keeps {l : Line} (h : l.Waits) (hn : l.n ≤ 71) {white : Bool}
    (hwhite : white → l.ws ≠ none) (x : Bytes) : keeps l.n white (encodeLoop l x) := by
  induction x generalizing l white with
  | nil => 
      rw [encodeLoop, keeps, decide_eq_true_iff]
      omega
  | cons ch x ih =>
      obtain ⟨-, -, -, hwaits⟩ := encodeByte_reads h ch
      obtain ⟨hn', white', hwhite', hbyte⟩ := encodeByte_keeps h hn hwhite ch
      obtain ⟨-, -, -, hwaits'⟩ := breakLine_reads hwaits
      obtain ⟨hn'', white'', hwhite'', hbreak⟩ := breakLine_keeps hwaits hn' hwhite'
      rw [encodeLoop]
      dsimp only
      rw [List.append_assoc]
      exact hbyte _ (hbreak _ (ih hwaits' hn'' hwhite''))

/-- No line is longer than 76 bytes, none ends with a blank or a tab, and every other byte is
printable ASCII. -/
theorem encode_disciplined (x : Bytes) : Disciplined (encode x) := by
  have hwaits : (⟨0, none⟩ : Line).Waits := fun w hw => absurd hw (by simp)
  have hwhite : false = true → (⟨0, none⟩ : Line).ws ≠ none := fun h => absurd h Bool.false_ne_true
  apply disciplined_of_keeps
  exact encodeLoop_keeps hwaits (Nat.zero_le _) hwhite x

end ULib.QuotedPrintableLines
