import ULib.KeyComparison
import Mathlib.Tactic.Common

/-!
The escapes of strings in `base/coder/cescape.c`, as the JSON values use them,
and `u_find_char` of `base/utility.c`.
-/

namespace ULib.EscapeCoding

open ULib.KeyComparison

def quote : UInt8 := 0x22

def backslash : UInt8 := 0x5c

/-- The byte `i` places behind a pointer; behind the text there are zeros. -/
def peek (t : Bytes) (i : Nat) : UInt8 := t.getD i 0

def isDigit (c : UInt8) : Bool := '0'.toUInt8 ≤ c && c ≤ '9'.toUInt8

def isXdigit (c : UInt8) : Bool :=
  isDigit c || ('A'.toUInt8 ≤ c && c ≤ 'F'.toUInt8) || ('a'.toUInt8 ≤ c && c ≤ 'f'.toUInt8)

def isAlnum (c : UInt8) : Bool :=
  isDigit c || ('a'.toUInt8 ≤ c && c ≤ 'z'.toUInt8) || ('A'.toUInt8 ≤ c && c ≤ 'Z'.toUInt8)

def isOctal (c : UInt8) : Bool := '0'.toUInt8 ≤ c && c ≤ '7'.toUInt8

/-- `u__isspace`, of an ISO-1 character. -/
def isSpace (c : UInt8) : Bool := (9 ≤ c && c ≤ 13) || c = 0x20 || c = 0xa0

/-- `u__toupper`, of an ISO-1 character. -/
def toUpper (c : UInt8) : UInt8 :=
  if 'a'.toUInt8 ≤ c ∧ c ≤ 'z'.toUInt8 then c - 32
  else if 0xe0 ≤ c ∧ c ≤ 0xfe ∧ c ≠ 0xf7 then c - 32
  else c

/-- `u__hexc2int`, in eight bits. -/
def hexc2int (c : UInt8) : UInt8 :=
  if isDigit c then c - '0'.toUInt8 else toUpper c - 'A'.toUInt8 + 10

/-- `u__octc2int`. -/
def octc2int (c : UInt8) : UInt8 := (c - '0'.toUInt8) &&& 7

/-- `u_hex_upper`. -/
def hexUpper (d : UInt8) : UInt8 := if d < 10 then '0'.toUInt8 + d else 'A'.toUInt8 + (d - 10)

/-- `u_sprintc` for JSON. -/
def sprintc (c : UInt8) : Bytes :=
  if c = 13 then [backslash, 'r'.toUInt8]
  else if c = 10 then [backslash, 'n'.toUInt8]
  else if c = 9 then [backslash, 't'.toUInt8]
  else if c = backslash then [backslash, backslash]
  else if c = quote then [backslash, quote]
  else if c = 8 then [backslash, 'b'.toUInt8]
  else if c = 12 then [backslash, 'f'.toUInt8]
  else if c < 32 ∨ 126 < c then
    [backslash, 'u'.toUInt8, '0'.toUInt8, '0'.toUInt8, hexUpper ((c >>> 4) &&& 15),
      hexUpper (c &&& 15)]
  else [c]

/-- What is written for `c` in front of `t`: a backslash before `u` is left alone. -/
def escape (c : UInt8) (t : Bytes) : Bytes :=
  if c = backslash ∧ peek t 0 = 'u'.toUInt8 then [backslash] else sprintc c

/-- The loop of `u_escape_encode`, with `out` bytes written. -/
def encodeLoop (outend : Nat) : Nat → Bytes → Bytes
  | _, [] => []
  | out, c :: t =>
      let e := escape c t
      if outend ≤ out + e.length then e ++ ['.'.toUInt8, '.'.toUInt8, '.'.toUInt8]
      else e ++ encodeLoop outend (out + e.length) t

/-- `u_escape_encode` for JSON; `max_output - 4` is unsigned. -/
def escapeEncode (s : Bytes) (maxOutput : Nat) : Bytes :=
  quote :: encodeLoop ((maxOutput + 2 ^ 32 - 4) % 2 ^ 32) 1 s ++ [quote]

/-- `u_escape_decode_ptr`: the byte, and how far the pointer goes. -/
def escapeDecodePtr (t : Bytes) : UInt8 × Nat :=
  let c := peek t 0
  if c = 'r'.toUInt8 then (13, 1)
  else if c = 'n'.toUInt8 then (10, 1)
  else if c = 't'.toUInt8 then (9, 1)
  else if c = 'b'.toUInt8 then (8, 1)
  else if c = 'f'.toUInt8 then (12, 1)
  else if c = 'v'.toUInt8 then (11, 1)
  else if c = 'a'.toUInt8 then (7, 1)
  else if c = 'e'.toUInt8 then (27, 1)
  else if c = '^'.toUInt8 then (toUpper (peek t 1) - '@'.toUInt8, 2)
  else if c = 'x'.toUInt8 then
    if isXdigit (peek t 1) then
      if isXdigit (peek t 2) then ((hexc2int (peek t 1) <<< 4) ||| hexc2int (peek t 2), 3)
      else (hexc2int (peek t 1), 2)
    else (c, 1)
  else if isOctal c then
    if isOctal (peek t 1) then
      if isOctal (peek t 2) then
        ((((c - '0'.toUInt8) <<< 3) ||| octc2int (peek t 1)) <<< 3 ||| octc2int (peek t 2), 3)
      else (((c - '0'.toUInt8) <<< 3) ||| octc2int (peek t 1), 2)
    else (c - '0'.toUInt8, 1)
  else if c = 'u'.toUInt8 then ((hexc2int (peek t 3) <<< 4) ||| hexc2int (peek t 4), 5)
  else (c, 1)

/-- What `u__memcpy` takes over from a pointer. -/
def copied (t : Bytes) (n : Nat) : Bytes := (List.range n).map (peek t)

/-- The loop of `u_escape_decode` with `n` bytes up to the end: it looks for the
escape of a unicode character where the search for the backslash began. -/
def decodeLoop : Nat → Bytes → Nat → Bytes
  | 0, _, _ => []
  | fuel + 1, t, n =>
      if n = 0 then []
      else
        match (t.take n).idxOf? backslash with
        | none => t.take n
        | some len =>
            if peek t 1 = 'u'.toUInt8 ∧ (peek t 2 ≠ '0'.toUInt8 ∨ peek t 3 ≠ '0'.toUInt8) then
              t.take len ++ copied t 6 ++ decodeLoop fuel (t.drop 6) (n - 6)
            else
              let r := escapeDecodePtr (t.drop (len + 1))
              t.take len ++
                r.1 :: decodeLoop fuel (t.drop (len + 1 + r.2)) (n - (len + 1 + r.2))

/-- `u_escape_decode`. -/
def escapeDecode (t : Bytes) (n : Nat) : Bytes := decodeLoop n t n

/-- The distance that `u_find_char` goes to a quote, with the two bytes before. -/
def findChar : UInt8 → UInt8 → Bytes → Nat
  | _, _, [] => 0
  | before, last, c :: t =>
      if c = quote ∧ ¬ (last = backslash ∧ before ≠ backslash) then 0
      else findChar last c t + 1

/-- What is written for a string when nothing is cut off. -/
def escaped : Bytes → Bytes
  | [] => []
  | c :: t => escape c t ++ escaped t

theorem encodeLoop_of_room {outend : Nat} (s : Bytes) (out : Nat)
    (h : out + (escaped s).length < outend ∨ s = []) : encodeLoop outend out s = escaped s := by
  induction s generalizing out with
  | nil => rfl
  | cons c t ih =>
      have hroom : out + (escape c t).length + (escaped t).length < outend := by
        simpa [escaped, Nat.add_assoc] using h
      have hlt : ¬ outend ≤ out + (escape c t).length := by omega
      rw [encodeLoop, if_neg hlt, ih _ (Or.inl hroom)]
      rfl

/-- A byte that stands for itself. -/
def isPlain (c : UInt8) : Bool := 32 ≤ c && c ≤ 126 && c ≠ quote && c ≠ backslash

theorem forall_byte {P : UInt8 → Prop} (h : ∀ n : Fin 256, P (UInt8.ofFin n)) (c : UInt8) :
    P c :=
  h c.toFin

/-- Bytes that a class tells apart are different. -/
theorem ne_of_class {p : UInt8 → Bool} {b : Bool} {c d : UInt8} (hc : p c = b) (hd : p d = !b) :
    c ≠ d := by
  rintro rfl
  exact (Bool.eq_not_self b).mp (hc.symm.trans hd)

theorem sprintc_plain (c : UInt8) (h : isPlain c) : sprintc c = [c] := by
  simp only [isPlain, Bool.and_eq_true, decide_eq_true_eq] at h
  obtain ⟨⟨⟨hlow, hhigh⟩, hquote⟩, hbackslash⟩ := h
  have hne : ∀ d : UInt8, d < 32 → c ≠ d := by
    rintro d hd rfl
    exact absurd hlow (UInt8.not_le.mpr hd)
  rw [sprintc, if_neg (hne 13 (by decide)), if_neg (hne 10 (by decide)),
    if_neg (hne 9 (by decide)), if_neg hbackslash, if_neg hquote, if_neg (hne 8 (by decide)),
    if_neg (hne 12 (by decide)), if_neg]
  rw [not_or, UInt8.not_lt, UInt8.not_lt]
  exact ⟨hlow, hhigh⟩

/-- Two digits of a byte read back as the byte, and are neither quotes nor backslashes. -/
theorem hex_spec : ∀ c : UInt8, (hexc2int (hexUpper ((c >>> 4) &&& 15)) <<< 4) |||
    hexc2int (hexUpper (c &&& 15)) = c ∧
      ∀ d ∈ [hexUpper ((c >>> 4) &&& 15), hexUpper (c &&& 15)], d ≠ quote ∧ d ≠ backslash :=
  forall_byte (by decide +kernel)

/-- An escape that the decoder reads back as `c`, whatever follows. -/
def ReadsBack (c : UInt8) (e : Bytes) : Prop :=
  ∀ x, escapeDecodePtr (e ++ x) = (c, e.length) ∧
    (peek (e ++ x) 0 = 'u'.toUInt8 →
      peek (e ++ x) 1 = '0'.toUInt8 ∧ peek (e ++ x) 2 = '0'.toUInt8)

theorem readsBack_pair {a c : UInt8} (h : ∀ x, escapeDecodePtr (a :: x) = (c, 1))
    (ha : a ≠ 'u'.toUInt8) : ReadsBack c [a] :=
  fun x => ⟨h x, fun hu => absurd hu ha⟩

theorem sprintc_escape {c : UInt8} (h : isPlain c = false) :
    ∃ e, sprintc c = backslash :: e ∧ ReadsBack c e := by
  unfold sprintc
  split_ifs with h1 h2 h3 h4 h5 h6 h7 h8
  · exact ⟨_, rfl, h1 ▸ readsBack_pair (fun _ => rfl) (by decide)⟩
  · exact ⟨_, rfl, h2 ▸ readsBack_pair (fun _ => rfl) (by decide)⟩
  · exact ⟨_, rfl, h3 ▸ readsBack_pair (fun _ => rfl) (by decide)⟩
  · subst h4
    exact ⟨_, rfl, readsBack_pair (fun _ => rfl) (by decide)⟩
  · subst h5
    exact ⟨_, rfl, readsBack_pair (fun _ => rfl) (by decide)⟩
  · exact ⟨_, rfl, h6 ▸ readsBack_pair (fun _ => rfl) (by decide)⟩
  · exact ⟨_, rfl, h7 ▸ readsBack_pair (fun _ => rfl) (by decide)⟩
  · refine ⟨_, rfl, fun x => ⟨?_, fun _ => ⟨rfl, rfl⟩⟩⟩
    exact congrArg (fun k => (k, 5)) (hex_spec c).1
  · rw [not_or, UInt8.not_lt, UInt8.not_lt] at h8
    have hplain : isPlain c = true := by
      simp [isPlain, h8, h4, h5]
    exact absurd hplain (by simp [h])

/-- Whether the quote behind the string is taken for its end: no quote is
written right behind two backslashes. -/
def quotable : Bytes → Bool
  | c :: d :: t => (c ≠ backslash || d ≠ quote) && quotable (d :: t)
  | _ => true

/-- Whether a part without backslashes is not taken for one that begins with
the escape of a unicode character. -/
def partReadable (part : Bytes) : Bool :=
  part[1]? ≠ some 'u'.toUInt8 || (part[2]? = some '0'.toUInt8 && part[3]? = some '0'.toUInt8)

/-- Whether the decoder finds its way: through `part` and what follows it, with
`skip` bytes of the escape of a unicode character to come. -/
def decodable : Nat → Bytes → Bytes → Bool
  | 0, _, [] => true
  | _ + 1, _, [] => false
  | skip + 1, _, c :: t => isPlain c && decodable skip [] t
  | 0, part, c :: t =>
      if isPlain c then decodable 0 (part ++ [c]) t
      else if c = backslash ∧ peek t 0 = 'u'.toUInt8 then
        part.isEmpty && (peek t 1 ≠ '0'.toUInt8 || peek t 2 ≠ '0'.toUInt8) && decodable 5 [] t
      else partReadable part && decodable 0 [] t

theorem escaped_plain {w : Bytes} (hw : ∀ c ∈ w, isPlain c) (t : Bytes) :
    escaped (w ++ t) = w ++ escaped t := by
  induction w with
  | nil => rfl
  | cons c w ih =>
      have hc := hw c List.mem_cons_self
      have hne : c ≠ backslash := by
        rintro rfl
        exact absurd hc (by decide)
      rw [List.cons_append, escaped, escape, if_neg (fun h => hne h.1), sprintc_plain c hc,
        ih fun d hd => hw d (List.mem_cons_of_mem c hd)]
      rfl

/-- The bytes that are skipped stand for themselves. -/
theorem decodable_skip {skip : Nat} {t : Bytes} (h : decodable skip [] t) :
    ∃ w t', t = w ++ t' ∧ w.length = skip ∧ (∀ c ∈ w, isPlain c) ∧ decodable 0 [] t' := by
  induction skip generalizing t with
  | zero => exact ⟨[], t, rfl, rfl, by simp, h⟩
  | succ skip ih =>
      cases t with
      | nil => exact absurd h (by simp [decodable])
      | cons c t =>
          rw [decodable, Bool.and_eq_true] at h
          obtain ⟨w, t', rfl, hlen, hw, hrest⟩ := ih h.2
          refine ⟨c :: w, t', rfl, congrArg Nat.succ hlen, ?_, hrest⟩
          intro d hd
          rcases List.mem_cons.mp hd with rfl | hd
          · exact h.1
          · exact hw d hd

theorem peek_append_left {x y : Bytes} {i : Nat} (h : i < x.length) :
    peek (x ++ y) i = peek x i := by
  simp [peek, List.getD, List.getElem?_append_left h]

theorem idxOf_part {part e : Bytes} (hpart : ∀ c ∈ part, isPlain c) :
    (part ++ backslash :: e).idxOf? backslash = some part.length := by
  induction part with
  | nil => simp [List.idxOf?_cons]
  | cons c part ih =>
      have hne : c ≠ backslash := by
        rintro rfl
        exact absurd (hpart _ List.mem_cons_self) (by decide)
      rw [List.cons_append, List.idxOf?_cons, ih fun d hd => hpart d (List.mem_cons_of_mem c hd)]
      simp [hne]

theorem idxOf_part_none {part : Bytes} (hpart : ∀ c ∈ part, isPlain c) :
    part.idxOf? backslash = none := by
  rw [List.idxOf?_eq_none_iff]
  intro hmem
  exact absurd (hpart backslash hmem) (by decide)

theorem partReadable_cases {part : Bytes} (h : partReadable part)
    (hu : part[1]? = some 'u'.toUInt8) :
    part[2]? = some '0'.toUInt8 ∧ part[3]? = some '0'.toUInt8 := by
  simpa [partReadable, hu] using h

/-- The decoder does not look for a unicode character in front of an escape. -/
theorem not_unicode {part e x : Bytes} {c : UInt8} (hread : partReadable part)
    (he : ReadsBack c e) :
    ¬ (peek (part ++ backslash :: (e ++ x)) 1 = 'u'.toUInt8 ∧
      (peek (part ++ backslash :: (e ++ x)) 2 ≠ '0'.toUInt8 ∨
        peek (part ++ backslash :: (e ++ x)) 3 ≠ '0'.toUInt8)) := by
  rintro ⟨hu, hzero⟩
  rcases part with _ | ⟨a, _ | ⟨b, part⟩⟩
  · obtain ⟨h1, h2⟩ := (he x).2 hu
    exact hzero.elim (fun h => h h1) (fun h => h h2)
  · have hback : backslash = 'u'.toUInt8 := hu
    exact absurd hback (by decide)
  · obtain rfl : b = 'u'.toUInt8 := hu
    obtain ⟨h1, h2⟩ := partReadable_cases hread rfl
    rcases part with _ | ⟨y, _ | ⟨z, part⟩⟩
    · simp at h1
    · simp at h2
    · obtain rfl : y = '0'.toUInt8 := Option.some.inj h1
      obtain rfl : z = '0'.toUInt8 := Option.some.inj h2
      exact hzero.elim (fun h => h rfl) (fun h => h rfl)

/-- One step of the decoder at an escape. -/
theorem decodeLoop_escape {part e : Bytes} {c : UInt8} {fuel n : Nat} (x : Bytes)
    (hpart : ∀ c ∈ part, isPlain c) (hread : partReadable part) (he : ReadsBack c e) :
    decodeLoop (fuel + 1) (part ++ backslash :: (e ++ x)) (part.length + 1 + e.length + n) =
      part ++ c :: decodeLoop fuel x n := by
  have hne : part.length + 1 + e.length + n ≠ 0 := by omega
  have hidx : ((part ++ backslash :: (e ++ x)).take (part.length + 1 + e.length + n)).idxOf?
      backslash = some part.length := by
    rw [show part.length + 1 + e.length + n = part.length + (e.length + n + 1) by omega,
      List.take_length_add_append, List.take_succ_cons]
    exact idxOf_part hpart
  have hdrop : (part ++ backslash :: (e ++ x)).drop (part.length + 1) = e ++ x := by
    rw [List.drop_length_add_append]
    rfl
  have hrest : (part ++ backslash :: (e ++ x)).drop (part.length + 1 + e.length) = x := by
    rw [← List.drop_drop, hdrop, List.drop_left]
  rw [decodeLoop, if_neg hne]
  simp only [hidx, if_neg (not_unicode hread he), hdrop, (he x).1, hrest, List.take_left,
    Nat.add_sub_cancel_left]

/-- A backslash in front of `u` is written as it is. -/
theorem escaped_unicode {w t : Bytes} (hplain : ∀ c ∈ 'u'.toUInt8 :: w, isPlain c) :
    escaped (backslash :: ('u'.toUInt8 :: w ++ t)) =
      backslash :: 'u'.toUInt8 :: (w ++ escaped t) := by
  rw [escaped, escape, if_pos ⟨rfl, rfl⟩, escaped_plain hplain]
  rfl

/-- The decoder takes over the escape of a unicode character. -/
theorem decodeLoop_unicode {w : Bytes} {fuel n : Nat} (x : Bytes) (hw : w.length = 4)
    (hno : peek w 0 ≠ '0'.toUInt8 ∨ peek w 1 ≠ '0'.toUInt8) :
    decodeLoop (fuel + 1) (backslash :: 'u'.toUInt8 :: (w ++ x)) (n + 6) =
      backslash :: 'u'.toUInt8 :: (w ++ decodeLoop fuel x n) := by
  obtain ⟨a, b, c, d, rfl⟩ : ∃ a b c d, w = [a, b, c, d] := by
    match w, hw with
    | [a, b, c, d], _ => exact ⟨a, b, c, d, rfl⟩
  rw [decodeLoop, if_neg (Nat.succ_ne_zero _)]
  have hidx : ((backslash :: 'u'.toUInt8 :: ([a, b, c, d] ++ x)).take (n + 6)).idxOf?
      backslash = some 0 := by
    simp [List.idxOf?_cons]
  simp only [hidx]
  rw [if_pos ⟨rfl, hno⟩]
  rfl

/-- The decoder takes over what no escape follows. -/
theorem decodeLoop_part {part : Bytes} (hpart : ∀ c ∈ part, isPlain c) (rest : Bytes) {fuel : Nat}
    (hfuel : part.length ≤ fuel) : decodeLoop fuel (part ++ rest) part.length = part := by
  cases fuel with
  | zero =>
      obtain rfl : part = [] := List.eq_nil_of_length_eq_zero (Nat.le_zero.mp hfuel)
      rfl
  | succ fuel =>
      by_cases hzero : part.length = 0
      · rw [decodeLoop, if_pos hzero, List.eq_nil_of_length_eq_zero hzero]
      · rw [decodeLoop, if_neg hzero]
        simp only [List.take_left, idxOf_part_none hpart]

theorem isPlain_concat {part : Bytes} (hpart : ∀ c ∈ part, isPlain c) {c : UInt8}
    (hc : isPlain c) : ∀ d ∈ part ++ [c], isPlain d := by
  intro d hd
  rcases List.mem_append.mp hd with hd | hd
  · exact hpart d hd
  · exact List.mem_singleton.mp hd ▸ hc

theorem decodeLoop_escaped (s : Bytes) {part : Bytes} (rest : Bytes) {fuel : Nat}
    (hpart : ∀ c ∈ part, isPlain c) (h : decodable 0 part s)
    (hfuel : part.length + (escaped s).length ≤ fuel) :
    decodeLoop fuel (part ++ (escaped s ++ rest)) (part.length + (escaped s).length) =
      part ++ s := by
  induction hn : s.length using Nat.strongRecOn generalizing s part fuel with
  | ind n ih =>
  cases s with
  | nil =>
      rw [escaped, List.nil_append, List.length_nil, Nat.add_zero, List.append_nil]
      exact decodeLoop_part hpart rest hfuel
  | cons c t =>
      have hshort : t.length < n := hn ▸ Nat.lt_succ_self _
      rw [decodable] at h
      split_ifs at h with hc hu
      · -- a byte that stands for itself lengthens the part
        have hesc : escaped (c :: t) = c :: escaped t := escaped_plain (w := [c]) (by simpa) t
        rw [hesc] at hfuel ⊢
        have hfuel' : (part ++ [c]).length + (escaped t).length ≤ fuel := by
          simp only [List.length_append, List.length_cons, List.length_nil] at hfuel ⊢
          omega
        have hstep := ih _ hshort t (isPlain_concat hpart hc) h hfuel' rfl
        simpa [Nat.add_assoc, Nat.add_comm 1] using hstep
      · -- a backslash in front of `u`
        obtain ⟨rfl, hpeek⟩ := hu
        rw [Bool.and_eq_true, Bool.and_eq_true, List.isEmpty_iff] at h
        obtain ⟨⟨rfl, hno⟩, hskip⟩ := h
        obtain ⟨w, t', rfl, hw, hplain, hrest⟩ := decodable_skip hskip
        cases w with
        | nil => simp at hw
        | cons u w =>
            obtain rfl : u = 'u'.toUInt8 := hpeek
            have hw4 : w.length = 4 := by simpa using hw
            have hno' : peek w 0 ≠ '0'.toUInt8 ∨ peek w 1 ≠ '0'.toUInt8 := by
              rw [Bool.or_eq_true, decide_eq_true_iff, decide_eq_true_iff] at hno
              rw [← peek_append_left (y := t') (show 0 < w.length by omega),
                ← peek_append_left (y := t') (show 1 < w.length by omega)]
              exact hno
            rw [escaped_unicode hplain] at hfuel ⊢
            cases fuel with
            | zero => simp at hfuel
            | succ fuel =>
                have hnone : ∀ d ∈ ([] : Bytes), isPlain d := by simp
                have hfuel' : ([] : Bytes).length + (escaped t').length ≤ fuel := by
                  simp only [List.length_append, List.length_cons, List.length_nil] at hfuel ⊢
                  omega
                have hshort' : t'.length < n := by
                  rw [← hn]
                  simp only [List.length_append, List.length_cons]
                  omega
                have hstep := ih _ hshort' t' hnone hrest hfuel' rfl
                have hlen : ([] : Bytes).length +
                    (backslash :: 'u'.toUInt8 :: (w ++ escaped t')).length =
                      (escaped t').length + 6 := by
                  simp only [List.length_cons, List.length_append, List.length_nil, hw4]
                  omega
                simp only [List.nil_append, List.length_nil, Nat.zero_add] at hstep
                rw [hlen, List.nil_append, List.cons_append, List.cons_append, List.append_assoc,
                  decodeLoop_unicode _ hw4 hno', hstep]
                rfl
      · -- an escape ends the part
        rw [Bool.and_eq_true] at h
        obtain ⟨e, hsprintc, he⟩ := sprintc_escape (by simpa using hc)
        have hesc : escaped (c :: t) = backslash :: (e ++ escaped t) := by
          rw [escaped, escape, if_neg hu, hsprintc]
          rfl
        rw [hesc] at hfuel ⊢
        cases fuel with
        | zero => simp at hfuel
        | succ fuel =>
            have hnone : ∀ d ∈ ([] : Bytes), isPlain d := by simp
            have hfuel' : ([] : Bytes).length + (escaped t).length ≤ fuel := by
              simp only [List.length_append, List.length_cons, List.length_nil] at hfuel ⊢
              omega
            have hstep := ih _ hshort t hnone h.2 hfuel' rfl
            have hlen : part.length + (backslash :: (e ++ escaped t)).length =
                part.length + 1 + e.length + (escaped t).length := by
              simp only [List.length_cons, List.length_append]
              omega
            rw [hlen, List.cons_append, List.append_assoc,
              decodeLoop_escape _ hpart h.1 he]
            simp only [List.nil_append, List.length_nil, Nat.zero_add] at hstep
            rw [hstep]

theorem quotable_cons {c : UInt8} {t : Bytes} (h : quotable (c :: t)) :
    (c = backslash → t.head? ≠ some quote) ∧ quotable t := by
  cases t with
  | nil => exact ⟨fun _ => by simp, rfl⟩
  | cons d t =>
      rw [quotable, Bool.and_eq_true] at h
      refine ⟨?_, h.2⟩
      rintro rfl hhead
      obtain rfl : d = quote := Option.some.inj hhead
      exact absurd h.1 (by decide)

/-- Other bytes than quotes are passed over. -/
theorem findChar_pass (before last : UInt8) {w : Bytes} (hw : ∀ c ∈ w, c ≠ quote) {c : UInt8}
    (hlast : w.getLast? = some c) (x : Bytes) :
    ∃ before', findChar before last (w ++ x) = findChar before' c x + w.length := by
  induction w generalizing before last with
  | nil => simp at hlast
  | cons d w ih =>
      have hd := hw d List.mem_cons_self
      rw [List.cons_append, findChar, if_neg (fun h => hd h.1)]
      cases w with
      | nil =>
          obtain rfl : d = c := by simpa using hlast
          exact ⟨last, rfl⟩
      | cons e w =>
          obtain ⟨before', hpass⟩ := ih last d (fun c hc => hw c (List.mem_cons_of_mem d hc))
            (by simpa using hlast)
          exact ⟨before', by rw [hpass]; rfl⟩

theorem sprintc_last (c : UInt8) (hquote : c ≠ quote) (hbackslash : c ≠ backslash) :
    (∀ d ∈ sprintc c, d ≠ quote) ∧
      (sprintc c).getLast? ≠ some backslash ∧ (sprintc c).getLast? ≠ none := by
  unfold sprintc
  split_ifs
  · decide
  · decide
  · decide
  · decide
  · decide
  · have hdigits := (hex_spec c).2
    refine ⟨?_, fun hlast => (hdigits _ (by simp)).2 (Option.some.inj hlast), nofun⟩
    rw [List.forall_mem_cons, List.forall_mem_cons, List.forall_mem_cons, List.forall_mem_cons]
    exact ⟨by decide, by decide, by decide, by decide, fun d hd => (hdigits d hd).1⟩
  · refine ⟨fun d hd => ?_, fun hlast => hbackslash (Option.some.inj hlast), nofun⟩
    rwa [List.mem_singleton.mp hd]

/-- The quote behind the string is found. -/
theorem findChar_escaped {s : Bytes} (h : quotable s) (rest : Bytes) {before last : UInt8}
    (hquote : last = backslash → s.head? ≠ some quote)
    (hback : last = backslash → before = backslash ∨ s.head? = some 'u'.toUInt8) :
    findChar before last (escaped s ++ quote :: rest) = (escaped s).length := by
  induction s generalizing before last with
  | nil =>
      rw [escaped, List.nil_append, findChar, if_pos]
      · rfl
      · refine ⟨rfl, ?_⟩
        rintro ⟨hlast, hbefore⟩
        exact (hback hlast).elim hbefore (by simp)
  | cons c t ih =>
      obtain ⟨hhead, ht⟩ := quotable_cons h
      by_cases hu : c = backslash ∧ peek t 0 = 'u'.toUInt8
      · obtain ⟨rfl, hpeek⟩ := hu
        have hesc : escaped (backslash :: t) = backslash :: escaped t := by
          rw [escaped, escape, if_pos ⟨rfl, hpeek⟩]
          rfl
        have hhead' : t.head? = some 'u'.toUInt8 := by
          cases t with
          | nil => exact absurd hpeek (by decide)
          | cons d t => exact congrArg some hpeek
        rw [hesc, List.cons_append, findChar, if_neg (fun h => absurd h.1 (by decide)),
          ih ht hhead fun _ => Or.inr hhead']
        rfl
      · have hesc : escaped (c :: t) = sprintc c ++ escaped t := by
          rw [escaped, escape, if_neg hu]
        rw [hesc]
        by_cases hc : c = backslash
        · subst hc
          have hpair : sprintc backslash = [backslash, backslash] := by decide
          rw [hpair, List.append_assoc, List.cons_append, List.singleton_append, findChar,
            if_neg (fun h => absurd h.1 (by decide)), findChar,
            if_neg (fun h => absurd h.1 (by decide)), ih ht hhead fun _ => Or.inl rfl]
          rfl
        · by_cases hc' : c = quote
          · subst hc'
            have hpair : sprintc quote = [backslash, quote] := by decide
            have hne : last ≠ backslash := fun h => hquote h rfl
            rw [hpair, List.append_assoc, List.cons_append, List.singleton_append, findChar,
              if_neg (fun h => absurd h.1 (by decide)), findChar,
              if_neg (fun h => h.2 ⟨rfl, hne⟩),
              ih ht (fun h => absurd h (by decide)) (fun h => absurd h (by decide))]
            rfl
          · obtain ⟨hno, hlast, hnone⟩ := sprintc_last c hc' hc
            obtain ⟨d, hd⟩ := Option.ne_none_iff_exists'.mp hnone
            have hne : d ≠ backslash := fun heq => hlast (heq ▸ hd)
            obtain ⟨before', hpass⟩ := findChar_pass before last hno hd
              (escaped t ++ quote :: rest)
            rw [List.append_assoc, hpass, ih ht (fun h => absurd h hne) (fun h => absurd h hne),
              List.length_append, Nat.add_comm]

end ULib.EscapeCoding
