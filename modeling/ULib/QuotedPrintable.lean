import ULib.ContainerStream

/-!
The coder of `base/coder/cquoted_printable.c`, and which texts come back from it: an underscore
is read as a blank, and a blank at the end stays behind unless a line is broken there.
-/

namespace ULib.QuotedPrintable

open ULib.KeyComparison
open ULib.EscapeCoding
open ULib.ContainerStream

def equals : UInt8 := '='.toUInt8

def underscore : UInt8 := '_'.toUInt8

def carriageReturn : UInt8 := '\r'.toUInt8

/-- `=` and the two digits of a byte -/
def hexText (c : UInt8) : Bytes := [equals, hexUpper ((c >>> 4) &&& 15), hexUpper (c &&& 15)]

def isWhite (c : UInt8) : Bool := c = blank || c = tab

def isBreak (c : UInt8) : Bool := c = carriageReturn || c = lineFeed

/-- Bytes that are written as a number. -/
def isHidden (c : UInt8) : Bool := 126 < c || c < 33 || c = equals

/-! ### u_quoted_printable_encode -/

/-- `ws` and the column `n`; `ws` is a blank or a tab that is not yet written. -/
structure Line where
  n : Nat
  ws : Option UInt8

/-- The switch: what is written for a byte, and the line behind it. -/
def encodeByte (l : Line) (ch : UInt8) : Bytes × Line :=
  if isWhite ch then
    match l.ws with
    | some ws => ([ws], ⟨l.n + 1, some ch⟩)
    | none => ([], ⟨l.n, some ch⟩)
  else if isBreak ch then
    match l.ws with
    | some ws => (hexText ws ++ [ch], ⟨0, none⟩)
    | none => ([ch], ⟨0, none⟩)
  else
    let n := l.n + l.ws.toList.length
    if isHidden ch then (l.ws.toList ++ hexText ch, ⟨n + 3, none⟩)
    else (l.ws.toList ++ [ch], ⟨n + 1, none⟩)

/-- A line that is too long is broken. -/
def breakLine (l : Line) : Bytes × Line :=
  if 71 < l.n then (l.ws.toList ++ [equals, lineFeed], ⟨0, none⟩) else ([], l)

def encodeLoop : Line → Bytes → Bytes
  | _, [] => []
  | l, ch :: t =>
      let (out, l) := encodeByte l ch
      let (soft, l) := breakLine l
      out ++ soft ++ encodeLoop l t

def encode (content : Bytes) : Bytes := encodeLoop ⟨0, none⟩ content

/-! ### u_quoted_printable_decode -/

/-- What one round of the loop writes, and how far it goes; `none` where the data was
truncated. -/
def decodeStep (inp : Bytes) : Option (Bytes × Nat) :=
  if peek inp 0 = equals then
    if inp.length < 3 then none
    else
      let c0 := peek inp 1
      let c1 := peek inp 2
      if isXdigit c0 ∧ isXdigit c1 then
        let v := ((hexc2int c0 &&& 15) <<< 4) ||| (hexc2int c1 &&& 15)
        if v = carriageReturn ∧ peek inp 3 = equals ∧ peek inp 4 = lineFeed then
          some ([lineFeed], if isAlnum (peek inp 5) then 5 else 6)
        else some ([v], 3)
      else if c0 = lineFeed then some ([], 2)
      else some ([c0], 1)
  else if peek inp 0 = underscore then some ([blank], 1)
  else some ([peek inp 0], 1)

/-- The loop, for at most `n` rounds. -/
def decodeLoop : Nat → Bytes → Bytes
  | 0, _ => []
  | n + 1, inp =>
      if inp = [] then []
      else
        match decodeStep inp with
        | none => []
        | some (out, used) => out ++ decodeLoop n (inp.drop used)

def decode (inp : Bytes) : Bytes := decodeLoop inp.length inp

/-! ### Reading what was written -/

/-- What the decoder makes of a byte that stands for itself. -/
def seen (c : UInt8) : UInt8 := if c = underscore then blank else c

/-- The decoder reads `u` as `out`, whatever follows. -/
def Reads (u out : Bytes) : Prop :=
  ∀ t n, (u ++ t).length ≤ n →
    ∃ k, t.length ≤ k ∧ decodeLoop n (u ++ t) = out ++ decodeLoop k t

theorem Reads.append {u v a b : Bytes} (hu : Reads u a) (hv : Reads v b) :
    Reads (u ++ v) (a ++ b) := by
  intro t n hn
  rw [List.append_assoc] at hn ⊢
  obtain ⟨k, hk, hfirst⟩ := hu (v ++ t) n hn
  obtain ⟨k', hk', hsecond⟩ := hv t k hk
  exact ⟨k', hk', by rw [hfirst, hsecond, List.append_assoc]⟩

theorem reads_nil : Reads [] [] := fun _ n hn => ⟨n, hn, rfl⟩

theorem decodeLoop_nil (n : Nat) : decodeLoop n [] = [] := by
  cases n with
  | zero => rfl
  | succ n => rfl

/-- One round reads `u`. -/
theorem reads_of_step {u out : Bytes} (hu : u ≠ [])
    (h : ∀ t, decodeStep (u ++ t) = some (out, u.length)) : Reads u out := by
  intro t n hn
  have hpos := List.length_pos_of_ne_nil hu
  rw [List.length_append] at hn
  obtain ⟨k, rfl⟩ : ∃ k, n = k + 1 := ⟨n - 1, by omega⟩
  refine ⟨k, by omega, ?_⟩
  rw [decodeLoop, if_neg (by simp [hu]), h]
  dsimp only
  rw [List.drop_left]

theorem reads_byte {c : UInt8} (hc : c ≠ equals) : Reads [c] [seen c] := by
  refine reads_of_step (by simp) fun t => ?_
  have hpeek : peek ([c] ++ t) 0 = c := rfl
  rw [decodeStep, hpeek, seen]
  by_cases hunder : c = underscore
  · rw [if_neg hc, if_pos hunder, if_pos hunder]
    rfl
  · rw [if_neg hc, if_neg hunder, if_neg hunder]
    rfl

theorem hex_digits : ∀ c : UInt8, isXdigit (hexUpper ((c >>> 4) &&& 15)) ∧
    isXdigit (hexUpper (c &&& 15)) ∧
    ((hexc2int (hexUpper ((c >>> 4) &&& 15)) &&& 15) <<< 4) |||
      (hexc2int (hexUpper (c &&& 15)) &&& 15) = c :=
  forall_byte (by decide +kernel)

theorem reads_hex {c : UInt8} (hc : c ≠ carriageReturn) : Reads (hexText c) [c] := by
  obtain ⟨hhigh, hlow, hvalue⟩ := hex_digits c
  refine reads_of_step (by simp [hexText]) fun t => ?_
  rw [decodeStep, hexText]
  generalize hexUpper ((c >>> 4) &&& 15) = c0 at hhigh hvalue ⊢
  generalize hexUpper (c &&& 15) = c1 at hlow hvalue ⊢
  simp [peek, hhigh, hlow, hvalue, hc]

/-- A soft line break, which is too short to be read at the end of the text -/
theorem reads_soft : Reads [equals, lineFeed] [] := by
  intro t n hn
  cases t with
  | nil =>
      refine ⟨0, Nat.le_refl 0, ?_⟩
      obtain ⟨k, rfl⟩ : ∃ k, n = k + 1 := ⟨n - 1, by simp at hn; omega⟩
      rfl
  | cons c t =>
      have hstep : decodeStep ([equals, lineFeed] ++ c :: t) = some ([], 2) := by
        simp [decodeStep, peek, show isXdigit lineFeed = false by decide]
      obtain ⟨k, rfl⟩ : ∃ k, n = k + 1 := ⟨n - 1, by simp at hn; omega⟩
      refine ⟨k, by simp at hn ⊢; omega, ?_⟩
      rw [decodeLoop, if_neg (by simp), hstep]
      rfl

/-- What waits to be written is a blank or a tab. -/
def Line.Waits (l : Line) : Prop := ∀ w, l.ws = some w → isWhite w

theorem white_plain (w : UInt8) (h : isWhite w) : w ≠ equals ∧ w ≠ carriageReturn ∧ seen w = w :=
  ⟨ne_of_class h (by decide), ne_of_class h (by decide), if_neg (ne_of_class h (by decide))⟩

theorem break_plain (c : UInt8) (h : isBreak c) : c ≠ equals ∧ seen c = c :=
  ⟨ne_of_class h (by decide), if_neg (ne_of_class h (by decide))⟩

theorem hidden_plain (c : UInt8) (hbreak : isBreak c = false) (hhidden : isHidden c) :
    c ≠ carriageReturn ∧ seen c = c :=
  ⟨ne_of_class hbreak (by decide), if_neg (ne_of_class hhidden (by decide))⟩

theorem shown_plain (c : UInt8) (h : isHidden c = false) : c ≠ equals := ne_of_class h (by decide)

theorem reads_waiting {l : Line} (h : l.Waits) : Reads l.ws.toList l.ws.toList := by
  cases hws : l.ws with
  | none => exact reads_nil
  | some w =>
      obtain ⟨hequals, -, hseen⟩ := white_plain w (h w hws)
      have hread := reads_byte hequals
      rwa [hseen] at hread

/-- A byte is written, or waits. -/
theorem encodeByte_reads {l : Line} (h : l.Waits) (ch : UInt8) :
    ∃ out, Reads (encodeByte l ch).1 out ∧
      out ++ (encodeByte l ch).2.ws.toList = l.ws.toList ++ [seen ch] ∧
      (encodeByte l ch).2.Waits := by
  have hwaiting := reads_waiting h
  rw [encodeByte]
  split_ifs with hwhite hbreak hhidden
  · have hseen := (white_plain ch hwhite).2.2
    have hwaits : ∀ n, (⟨n, some ch⟩ : Line).Waits := by
      rintro n w hw
      rwa [← Option.some.inj hw]
    rw [hseen]
    cases hws : l.ws with
    | none => exact ⟨[], reads_nil, rfl, hwaits _⟩
    | some w =>
        rw [hws] at hwaiting
        exact ⟨[w], hwaiting, rfl, hwaits _⟩
  · obtain ⟨hequals, hseen⟩ := break_plain ch hbreak
    have hread := reads_byte hequals
    have hwaits : (⟨0, none⟩ : Line).Waits := fun w hw => absurd hw (by simp)
    rw [hseen] at hread ⊢
    cases hws : l.ws with
    | none => exact ⟨[ch], hread, rfl, hwaits⟩
    | some w =>
        exact ⟨[w] ++ [ch], (reads_hex (white_plain w (h w hws)).2.1).append hread, rfl, hwaits⟩
  · have hplain := hidden_plain ch (by simpa using hbreak) hhidden
    rw [hplain.2]
    refine ⟨l.ws.toList ++ [ch], hwaiting.append (reads_hex hplain.1), ?_, ?_⟩
    · exact List.append_nil _
    · exact fun w hw => absurd hw (by simp)
  · refine ⟨l.ws.toList ++ [seen ch], hwaiting.append (reads_byte ?_), ?_, ?_⟩
    · exact shown_plain ch (by simpa using hhidden)
    · exact List.append_nil _
    · exact fun w hw => absurd hw (by simp)

theorem breakLine_reads {l : Line} (h : l.Waits) :
    ∃ out, Reads (breakLine l).1 out ∧ out ++ (breakLine l).2.ws.toList = l.ws.toList ∧
      (breakLine l).2.Waits := by
  rw [breakLine]
  split_ifs
  · refine ⟨l.ws.toList ++ [], (reads_waiting h).append reads_soft, ?_, ?_⟩
    · rw [List.append_nil]
      exact List.append_nil _
    · exact fun w hw => absurd hw (by simp)
  · exact ⟨[], reads_nil, rfl, h⟩

/-- The line behind a text -/
def lineAfter : Line → Bytes → Line
  | l, [] => l
  | l, ch :: t => lineAfter (breakLine (encodeByte l ch).2).2 t

theorem encodeLoop_reads {l : Line} (h : l.Waits) (x : Bytes) :
    ∃ out, Reads (encodeLoop l x) out ∧
      out ++ (lineAfter l x).ws.toList = l.ws.toList ++ x.map seen := by
  induction x generalizing l with
  | nil => exact ⟨[], reads_nil, by simp [lineAfter]⟩
  | cons ch x ih =>
      obtain ⟨out₁, hreads₁, heq₁, hwaits₁⟩ := encodeByte_reads h ch
      obtain ⟨out₂, hreads₂, heq₂, hwaits₂⟩ := breakLine_reads hwaits₁
      obtain ⟨out₃, hreads₃, heq₃⟩ := ih hwaits₂
      refine ⟨out₁ ++ out₂ ++ out₃, (hreads₁.append hreads₂).append hreads₃, ?_⟩
      rw [lineAfter, List.append_assoc, heq₃, List.append_assoc, ← List.append_assoc out₂, heq₂,
        ← List.append_assoc, heq₁, List.append_assoc]
      rfl

/-! ### The texts that come back -/

/-- The text comes back but for the underscores, and without what waits at its end. -/
theorem decode_encode (x : Bytes) :
    decode (encode x) ++ (lineAfter ⟨0, none⟩ x).ws.toList = x.map seen := by
  have hwaits : (⟨0, none⟩ : Line).Waits := fun w hw => absurd hw (by simp)
  obtain ⟨out, hreads, heq⟩ := encodeLoop_reads hwaits x
  obtain ⟨k, -, hdecode⟩ := hreads [] (encode x).length (by simp [encode])
  rw [List.append_nil, decodeLoop_nil, List.append_nil] at hdecode
  rw [decode, encode] at *
  rw [hdecode, heq]
  rfl

/-- How many columns a byte takes that is no white space. -/
def width (c : UInt8) : Nat := if isHidden c then 3 else 1

/-- The text in lines of 72 columns: the columns before the blanks and tabs at the end of the last
line, and how many of these there are. A line that is full goes on in a new one. -/
def place (p : Nat × Nat) (c : UInt8) : Nat × Nat :=
  if isWhite c then if 72 ≤ p.1 + p.2 then (0, 0) else (p.1, p.2 + 1)
  else if isBreak c then (0, 0)
  else if 72 ≤ p.1 + p.2 + width c then (0, 0) else (p.1 + p.2 + width c, 0)

/-- The blanks and tabs that stand at the end of the last line. -/
def blanksAtEnd (x : Bytes) : Nat := (x.foldl place (0, 0)).2

/-- The column counts all blanks but the last one. -/
def Line.Placed (l : Line) (p : Nat × Nat) : Prop :=
  l.n = p.1 + (p.2 - 1) ∧ (l.ws = none ↔ p.2 = 0)

theorem encodeByte_line (l : Line) (c : UInt8) :
    (encodeByte l c).2 =
      if isWhite c then ⟨l.n + l.ws.toList.length, some c⟩
      else if isBreak c then ⟨0, none⟩
      else ⟨l.n + l.ws.toList.length + width c, none⟩ := by
  obtain ⟨n, ws⟩ := l
  rw [encodeByte, width]
  cases ws with
  | none => split_ifs <;> rfl
  | some w => split_ifs <;> rfl

theorem breakLine_line (l : Line) : (breakLine l).2 = if 71 < l.n then ⟨0, none⟩ else l := by
  rw [breakLine]
  split_ifs
  · rfl
  · rfl

theorem placed_step {l : Line} {p : Nat × Nat} (h : l.Placed p) (c : UInt8) :
    (breakLine (encodeByte l c).2).2.Placed (place p c) := by
  obtain ⟨n, ws⟩ := l
  obtain ⟨column, blanks⟩ := p
  obtain ⟨hn, hws⟩ := h
  dsimp only at hn hws
  have hcount : n + ws.toList.length = column + blanks := by
    cases ws with
    | none =>
        obtain rfl := hws.mp rfl
        simpa using hn
    | some w =>
        have hpos : blanks ≠ 0 := fun h => absurd (hws.mpr h) (by simp)
        rw [hn, Option.toList_some, List.length_singleton]
        omega
  have hfresh : (⟨0, none⟩ : Line).Placed (0, 0) := by simp [Line.Placed]
  rw [breakLine_line, encodeByte_line, place]
  dsimp only
  rw [hcount]
  by_cases hwhite : isWhite c
  · rw [if_pos hwhite, if_pos hwhite]
    dsimp only
    split_ifs with hfull hfull hfull
    · exact hfresh
    · omega
    · omega
    · exact ⟨rfl, by simp⟩
  · rw [if_neg hwhite, if_neg hwhite]
    by_cases hbreak : isBreak c
    · rw [if_pos hbreak, if_pos hbreak]
      exact hfresh
    · rw [if_neg hbreak, if_neg hbreak]
      dsimp only
      split_ifs with hfull hfull hfull
      · exact hfresh
      · omega
      · omega
      · exact ⟨rfl, by simp⟩

theorem placed_after {l : Line} {p : Nat × Nat} (h : l.Placed p) (x : Bytes) :
    (lineAfter l x).Placed (x.foldl place p) := by
  induction x generalizing l p with
  | nil => exact h
  | cons c x ih => exact ih (placed_step h c)

theorem lineAfter_none_iff (x : Bytes) :
    (lineAfter ⟨0, none⟩ x).ws = none ↔ blanksAtEnd x = 0 := by
  have hstart : (⟨0, none⟩ : Line).Placed (0, 0) := by simp [Line.Placed]
  exact (placed_after hstart x).2

theorem seen_eq_iff (c : UInt8) : seen c = c ↔ c ≠ underscore := by
  rw [seen]
  split_ifs with h
  · subst h
    decide
  · simp [h]

/-- A text comes back if and only if there is no underscore in it, and no blank or tab at its end
but where a line is full. -/
theorem decode_encode_iff (x : Bytes) :
    decode (encode x) = x ↔ underscore ∉ x ∧ blanksAtEnd x = 0 := by
  have h := decode_encode x
  have hseen : x.map seen = x ↔ underscore ∉ x := by
    have hmap : x.map seen = x.map id ↔ ∀ c ∈ x, seen c = id c := List.map_inj_left
    rw [List.map_id] at hmap
    rw [hmap]
    simp only [id, seen_eq_iff]
    exact ⟨fun h hmem => h _ hmem rfl, fun h c hc heq => h (heq ▸ hc)⟩
  rw [← lineAfter_none_iff, ← hseen]
  constructor
  · intro hback
    have hlength := congrArg List.length h
    rw [hback, List.length_append, List.length_map] at hlength
    have hnone : (lineAfter ⟨0, none⟩ x).ws.toList = [] :=
      List.length_eq_zero_iff.mp (by omega)
    rw [hback, hnone, List.append_nil] at h
    exact ⟨h.symm, by simpa using hnone⟩
  · rintro ⟨hmap, hnone⟩
    rw [hnone, hmap] at h
    simpa using h

/-- What comes back of any text: blanks for its underscores, and all but the blank that waits at
its end. The text itself comes back if it has neither. -/
theorem quoted_roundTrip_iff (x : Bytes) :
    decode (encode x) = (if blanksAtEnd x = 0 then x.map seen else (x.map seen).dropLast) ∧
      (decode (encode x) = x ↔ underscore ∉ x ∧ blanksAtEnd x = 0) := by
  refine ⟨?_, decode_encode_iff x⟩
  have h := decode_encode x
  have hwaits := lineAfter_none_iff x
  cases hws : (lineAfter ⟨0, none⟩ x).ws with
  | none =>
      rw [hws] at h
      rw [if_pos (hwaits.mp hws), ← h]
      exact (List.append_nil _).symm
  | some w =>
      rw [hws] at h hwaits
      rw [if_neg fun hzero => Option.some_ne_none w (hwaits.mpr hzero), ← h]
      exact List.dropLast_concat.symm

/-- `a_b` comes back as `a b`, and nothing of a single blank. -/
theorem not_quoted_roundTrip : decode (encode [97, underscore, 98]) ≠ [97, underscore, 98] ∧
    decode (encode [blank]) ≠ [blank] := by
  decide

/-- A text of which nothing comes back is a blank or a tab, and nothing of it was written. -/
theorem encode_of_decode_nil {x : Bytes} (h : decode (encode x) = []) : encode x = [] := by
  have hback := decode_encode x
  rw [h, List.nil_append] at hback
  cases x with
  | nil => rfl
  | cons c t =>
      cases t with
      | cons d t =>
          have hlength := congrArg List.length hback
          cases hws : (lineAfter ⟨0, none⟩ (c :: d :: t)).ws with
          | none => simp [hws] at hlength
          | some w => simp [hws] at hlength
      | nil =>
          have hwhite : isWhite c := by
            by_contra hwhite
            have hnone : (lineAfter ⟨0, none⟩ [c]).ws = none := by
              rw [lineAfter, lineAfter, breakLine_line, encodeByte_line, if_neg hwhite]
              split_ifs <;> rfl
            rw [hnone] at hback
            simp at hback
          simp [encode, encodeLoop, encodeByte, breakLine, hwhite]

/-! ### The length -/

/-- What is still to be written of a line, at 36 for a byte and 1 for a column -/
def Line.weight (l : Line) : Nat := 36 * l.ws.toList.length + l.n

theorem encodeByte_weight (l : Line) (c : UInt8) :
    36 * (encodeByte l c).1.length + (encodeByte l c).2.weight ≤ l.weight + 112 := by
  obtain ⟨n, ws⟩ := l
  rw [encodeByte]
  cases ws with
  | none => split_ifs <;> simp [Line.weight, hexText] <;> omega
  | some w => split_ifs <;> simp [Line.weight, hexText] <;> omega

theorem breakLine_weight (l : Line) :
    36 * (breakLine l).1.length + (breakLine l).2.weight ≤ l.weight := by
  rw [breakLine]
  split_ifs
  · simp [Line.weight]
    omega
  · simp

/-- A soft line break comes after 72 columns, so that a byte is less than four bytes long. -/
theorem length_encodeLoop_le (l : Line) (x : Bytes) :
    36 * (encodeLoop l x).length ≤ l.weight + 112 * x.length := by
  induction x generalizing l with
  | nil => exact Nat.zero_le _
  | cons c x ih =>
      have hbyte := encodeByte_weight l c
      have hbreak := breakLine_weight (encodeByte l c).2
      have hrest := ih (breakLine (encodeByte l c).2).2
      simp only [encodeLoop, List.length_append, List.length_cons]
      omega

end ULib.QuotedPrintable
