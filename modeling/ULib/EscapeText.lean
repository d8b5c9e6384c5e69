import ULib.EscapeCoding

/-!
`u_escape_encode` and `u_escape_decode` of `base/coder/cescape.c` in both modes:
how much the encoder writes, and which texts come back without JSON. The decoder
looks for a unicode character behind the place where its search began.
-/

namespace ULib.EscapeText

open ULib.KeyComparison
open ULib.EscapeCoding

/-! ### u_sprintc -/

/-- The digits of `c`, of which the last one is written first. -/
def octalDigits : Nat → UInt8 → Bytes
  | 0, _ => []
  | n + 1, c =>
      (if c >>> 3 = 0 then [] else octalDigits n (c >>> 3)) ++ ['0'.toUInt8 + (c &&& 7)]

/-- `\DDD`, with zeros in front -/
def octal (c : UInt8) : Bytes :=
  let digits := octalDigits 3 c
  backslash :: (List.replicate (3 - digits.length) '0'.toUInt8 ++ digits)

/-- `u_sprintc` -/
def sprintcIn (json : Bool) (c : UInt8) : Bytes :=
  if c = 13 then [backslash, 'r'.toUInt8]
  else if c = 10 then [backslash, 'n'.toUInt8]
  else if c = 9 then [backslash, 't'.toUInt8]
  else if c = backslash then [backslash, backslash]
  else if c = quote then [backslash, quote]
  else if c = 8 then [backslash, 'b'.toUInt8]
  else if c = 12 then [backslash, 'f'.toUInt8]
  else if c < 32 ∨ 126 < c then
    if json then
      [backslash, 'u'.toUInt8, '0'.toUInt8, '0'.toUInt8, hexUpper ((c >>> 4) &&& 15),
        hexUpper (c &&& 15)]
    else octal c
  else [c]

/-! ### u_escape_encode -/

section Encode

variable (json : Bool) (behind : UInt8)

/-- What is written for `c` in front of the byte `next`. -/
def escapeIn (c next : UInt8) : Bytes :=
  if json ∧ c = backslash ∧ next = 'u'.toUInt8 then [backslash] else sprintcIn json c

/-- The loop, with `out` bytes written; `behind` is the byte behind the input. -/
def encodeLoopIn (outend : Nat) : Nat → Bytes → Bytes
  | _, [] => []
  | out, c :: t =>
      let e := escapeIn json c (t.headD behind)
      if outend ≤ out + e.length then e ++ ['.'.toUInt8, '.'.toUInt8, '.'.toUInt8]
      else e ++ encodeLoopIn outend (out + e.length) t

/-- `u_escape_encode`: the bytes that are written, and what is returned. -/
def escapeEncodeIn (s : Bytes) (maxOutput : UInt32) : Bytes × Nat :=
  let out := quote :: encodeLoopIn json behind (maxOutput - 4).toNat 1 s ++ [quote]
  (out ++ [0], out.length)

/-- What is written for the input when nothing is cut off. -/
def escapedIn : Bytes → Bytes
  | [] => []
  | c :: t => escapeIn json c (t.headD behind) ++ escapedIn t

end Encode

/-- The JSON coder of the values is this one, with a zero behind the input. -/
theorem escapeEncode_eq (s : Bytes) (maxOutput : UInt32) :
    escapeEncode s maxOutput.toNat ++ [0] = (escapeEncodeIn true 0 s maxOutput).1 := by
  have hescape : ∀ c (t : Bytes), escapeIn true c (t.headD 0) = escape c t := by
    intro c t
    have hnext : t.headD 0 = peek t 0 := by
      cases t <;> rfl
    rw [escapeIn, escape, hnext]
    simp only [true_and]
    rfl
  have hloop : ∀ outend out, encodeLoopIn true 0 outend out s = encodeLoop outend out s := by
    intro outend out
    induction s generalizing out with
    | nil => rfl
    | cons c t ih => rw [encodeLoopIn, encodeLoop, hescape, ih]
  have hend : (maxOutput - 4).toNat = (maxOutput.toNat + 2 ^ 32 - 4) % 2 ^ 32 := by
    rw [UInt32.toNat_sub]
    have := maxOutput.toNat_lt
    simp
    omega
  rw [escapeEncodeIn, escapeEncode, ← hend, hloop]

/-! ### What is written for a character -/

/-- The characters with a letter of their own behind the backslash -/
def isShort (c : UInt8) : Bool :=
  c = 13 || c = 10 || c = 9 || c = backslash || c = quote || c = 8 || c = 12

theorem isOctal_ne {a : UInt8} (h : isOctal a) : a ≠ 'r'.toUInt8 ∧ a ≠ 'n'.toUInt8 ∧
    a ≠ 't'.toUInt8 ∧ a ≠ 'b'.toUInt8 ∧ a ≠ 'f'.toUInt8 ∧ a ≠ 'v'.toUInt8 ∧ a ≠ 'a'.toUInt8 ∧
    a ≠ 'e'.toUInt8 ∧ a ≠ '^'.toUInt8 ∧ a ≠ 'x'.toUInt8 ∧ a ≠ 'u'.toUInt8 := by
  have hne : ∀ d, isOctal d = false → a ≠ d := fun d hd => ne_of_class h hd
  exact ⟨hne _ (by decide), hne _ (by decide), hne _ (by decide), hne _ (by decide),
    hne _ (by decide), hne _ (by decide), hne _ (by decide), hne _ (by decide),
    hne _ (by decide), hne _ (by decide), hne _ (by decide)⟩

/-- Three octal digits are a byte. -/
theorem escapeDecodePtr_octal {a b d : UInt8} (ha : isOctal a) (hb : isOctal b) (hd : isOctal d)
    (x : Bytes) :
    escapeDecodePtr (a :: b :: d :: x) =
      ((((a - '0'.toUInt8) <<< 3) ||| octc2int b) <<< 3 ||| octc2int d, 3) := by
  have hpeek : peek (a :: b :: d :: x) 0 = a ∧ peek (a :: b :: d :: x) 1 = b ∧
      peek (a :: b :: d :: x) 2 = d := ⟨rfl, rfl, rfl⟩
  obtain ⟨h1, h2, h3, h4, h5, h6, h7, h8, h9, h10, -⟩ := isOctal_ne ha
  rw [escapeDecodePtr]
  simp only [hpeek, if_neg h1, if_neg h2, if_neg h3, if_neg h4, if_neg h5, if_neg h6, if_neg h7,
    if_neg h8, if_neg h9, if_neg h10, ha, hb, hd, if_true]

theorem octal_spec : ∀ c : UInt8, ∃ a b d, octal c = [backslash, a, b, d] ∧ isOctal a ∧
    isOctal b ∧ isOctal d ∧
      ((((a - '0'.toUInt8) <<< 3) ||| octc2int b) <<< 3 ||| octc2int d) = c := by
  have hall : ∀ c : UInt8, (octal c).length = 4 ∧ peek (octal c) 0 = backslash ∧
      isOctal (peek (octal c) 1) ∧ isOctal (peek (octal c) 2) ∧ isOctal (peek (octal c) 3) ∧
      ((((peek (octal c) 1 - '0'.toUInt8) <<< 3) ||| octc2int (peek (octal c) 2)) <<< 3 |||
        octc2int (peek (octal c) 3)) = c := forall_byte (by decide +kernel)
  intro c
  obtain ⟨hlength, hhead, ha, hb, hd, hvalue⟩ := hall c
  refine ⟨_, _, _, ?_, ha, hb, hd, hvalue⟩
  generalize octal c = e at hlength hhead
  match e, hlength with
  | [z, a, b, d], _ =>
      obtain rfl : z = backslash := hhead
      rfl

/-- Without JSON only the bytes without a letter of their own are written in another way. -/
theorem sprintcIn_false : ∀ c : UInt8, sprintcIn false c =
    if isPlain c then [c] else if isShort c then sprintc c else octal c :=
  forall_byte (by decide +kernel)

theorem sprintc_spec : ∀ c : UInt8,
    (sprintc c).length = (if isPlain c then 1 else if isShort c then 2 else 6) ∧
      (0 : UInt8) ∉ sprintc c :=
  forall_byte (by decide +kernel)

/-- No digit is a zero byte. -/
theorem octal_bytes (c : UInt8) : (octal c).length = 4 ∧ (0 : UInt8) ∉ octal c := by
  obtain ⟨a, b, d, heq, ha, hb, hd, -⟩ := octal_spec c
  have hne : ∀ {a}, isOctal a → a ≠ 0 := fun h => ne_of_class h (by decide)
  rw [heq]
  refine ⟨rfl, ?_⟩
  simp only [List.mem_cons, List.not_mem_nil, or_false, not_or]
  exact ⟨by decide, (hne ha).symm, (hne hb).symm, (hne hd).symm⟩

/-! ### How much is written -/

section Bound

variable (json : Bool) (behind : UInt8)

theorem zero_notMem_escapeIn (c next : UInt8) : (0 : UInt8) ∉ escapeIn json c next := by
  rw [escapeIn]
  split_ifs
  · decide
  · cases json with
    | true => exact (sprintc_spec c).2
    | false =>
        rw [sprintcIn_false]
        split_ifs with hplain
        · have hne : c ≠ 0 := ne_of_class hplain (by decide)
          simpa using hne.symm
        · exact (sprintc_spec c).2
        · exact (octal_bytes c).2

theorem zero_notMem_encodeLoopIn (outend out : Nat) (s : Bytes) :
    (0 : UInt8) ∉ encodeLoopIn json behind outend out s := by
  induction s generalizing out with
  | nil => exact List.not_mem_nil
  | cons c t ih =>
      have hescape := zero_notMem_escapeIn json c (t.headD behind)
      rw [encodeLoopIn]
      split_ifs
      · rw [List.mem_append, not_or]
        exact ⟨hescape, by decide⟩
      · rw [List.mem_append, not_or]
        exact ⟨hescape, ih _⟩

/-- How many bytes a character takes in front of the byte `next`. -/
def cost (c next : UInt8) : Nat :=
  if isPlain c ∨ (json ∧ c = backslash ∧ next = 'u'.toUInt8) then 1
  else if isShort c then 2
  else if json then 6
  else 4

def totalCost : Bytes → Nat
  | [] => 0
  | c :: t => cost json c (t.headD behind) + totalCost t

theorem length_escapeIn (c next : UInt8) : (escapeIn json c next).length = cost json c next := by
  rw [escapeIn, cost]
  by_cases hu : json ∧ c = backslash ∧ next = 'u'.toUInt8
  · rw [if_pos hu, if_pos (.inr hu)]
    rfl
  · rw [if_neg hu]
    simp only [or_iff_left hu]
    cases json with
    | true => exact (sprintc_spec c).1
    | false =>
        rw [sprintcIn_false, if_neg Bool.false_ne_true]
        split_ifs with hplain hshort
        · rfl
        · rw [(sprintc_spec c).1, if_neg hplain, if_pos hshort]
        · exact (octal_bytes c).1

theorem length_escapedIn (s : Bytes) :
    (escapedIn json behind s).length = totalCost json behind s := by
  induction s with
  | nil => rfl
  | cons c t ih => rw [escapedIn, List.length_append, length_escapeIn, ih, totalCost]

/-- Either everything is written in front of `outend`, or the dots end behind it. -/
theorem length_encodeLoopIn {outend out : Nat} (hout : out < outend) (s : Bytes) :
    (out + (escapedIn json behind s).length < outend ∧
        encodeLoopIn json behind outend out s = escapedIn json behind s) ∨
      (outend ≤ out + (escapedIn json behind s).length ∧
        outend + 3 ≤ out + (encodeLoopIn json behind outend out s).length) := by
  induction s generalizing out with
  | nil => exact .inl ⟨hout, rfl⟩
  | cons c t ih =>
      rw [encodeLoopIn, escapedIn, List.length_append, ← Nat.add_assoc]
      by_cases hover : outend ≤ out + (escapeIn json c (t.headD behind)).length
      · rw [if_pos hover, List.length_append]
        exact .inr ⟨by omega, by simp only [List.length_cons, List.length_nil]; omega⟩
      · rw [if_neg hover, List.length_append, ← Nat.add_assoc]
        rcases ih (Nat.not_le.mp hover) with ⟨hlt, heq⟩ | ⟨hle, hlength⟩
        · exact .inl ⟨hlt, by rw [heq]⟩
        · exact .inr ⟨hle, hlength⟩

theorem toNat_outend {maxOutput : UInt32} (h : 4 ≤ maxOutput.toNat) :
    (maxOutput - 4).toNat = maxOutput.toNat - 4 :=
  UInt32.toNat_sub_of_le _ _ (UInt32.le_iff_toNat_le.mpr h)

/-- The bytes that are written fit into the buffer if and only if none is cut off, and then five
of them are left, since the margin of four has to take the dots, the quote and the zero. -/
theorem encoded_fits_iff (s : Bytes) (maxOutput : UInt32) (h : 8 ≤ maxOutput) :
    ((escapeEncodeIn json behind s maxOutput).1.length ≤ maxOutput.toNat ∧
        (escapeEncodeIn json behind s maxOutput).1.idxOf 0 =
          (escapeEncodeIn json behind s maxOutput).2) ↔
      totalCost json behind s + 5 < maxOutput.toNat := by
  have hmax : 8 ≤ maxOutput.toNat := UInt32.le_iff_toNat_le.mp h
  have hend := toNat_outend (Nat.le_trans (by decide) hmax)
  have hzero : (0 : UInt8) ∉ quote :: encodeLoopIn json behind (maxOutput - 4).toNat 1 s ++
      [quote] := by
    rw [List.mem_append, List.mem_cons, not_or, not_or]
    exact ⟨⟨by decide, zero_notMem_encodeLoopIn json behind _ 1 s⟩, by decide⟩
  have hidx : (escapeEncodeIn json behind s maxOutput).1.idxOf 0 =
      (escapeEncodeIn json behind s maxOutput).2 := by
    rw [escapeEncodeIn, List.idxOf_append, if_neg hzero, List.idxOf_cons_self, Nat.zero_add]
  rw [and_iff_left hidx, escapeEncodeIn, hend, ← length_escapedIn]
  simp only [List.length_append, List.length_cons, List.length_nil]
  rcases length_encodeLoopIn json behind (show 1 < maxOutput.toNat - 4 by omega) s with
    ⟨hlt, heq⟩ | ⟨hle, hlength⟩
  · rw [heq]
    omega
  · omega

end Bound

theorem encoded_fits_a : (escapeEncodeIn false 0 [97] 8).1.length ≤ (8 : UInt32).toNat ∧
    (escapeEncodeIn false 0 [97] 8).1.idxOf 0 = (escapeEncodeIn false 0 [97] 8).2 :=
  (encoded_fits_iff false 0 [97] 8 (by decide)).mpr (by decide)

/-- `abc` into a buffer of eight bytes: nine bytes are written. -/
theorem not_encoded_fits :
    ¬ (escapeEncodeIn false 0 [97, 98, 99] 8).1.length ≤ (8 : UInt32).toNat := by
  decide

/-! ### Which texts come back -/

/-- Whether the decoder finds its way, with `part` in front of which its search began: no part in
front of an escape has a `u` in its second place without two zeros behind it. -/
def readable : Bytes → Bytes → Bool
  | _, [] => true
  | part, c :: t =>
      if isPlain c then readable (part ++ [c]) t else partReadable part && readable [] t

theorem readsBack_octal (c : UInt8) : ∃ e, octal c = backslash :: e ∧ ReadsBack c e := by
  obtain ⟨a, b, d, heq, ha, hb, hd, hvalue⟩ := octal_spec c
  refine ⟨[a, b, d], heq, fun x => ⟨?_, fun hu => absurd hu ?_⟩⟩
  · exact (escapeDecodePtr_octal ha hb hd x).trans (by rw [hvalue]; rfl)
  · exact (isOctal_ne ha).2.2.2.2.2.2.2.2.2.2

theorem sprintcIn_plain {c : UInt8} (h : isPlain c) : sprintcIn false c = [c] := by
  rw [sprintcIn_false, if_pos h]

theorem sprintcIn_escape {c : UInt8} (h : isPlain c = false) :
    ∃ e, sprintcIn false c = backslash :: e ∧ ReadsBack c e := by
  rw [sprintcIn_false, h, if_neg Bool.false_ne_true]
  split_ifs
  · exact sprintc_escape h
  · exact readsBack_octal c

theorem escapedIn_cons (behind c : UInt8) (t : Bytes) :
    escapedIn false behind (c :: t) = sprintcIn false c ++ escapedIn false behind t := by
  rw [escapedIn, escapeIn, if_neg (fun h => Bool.false_ne_true h.1)]

/-- A part in front of an escape that looks like the escape of a unicode character. -/
theorem looks_unicode {part : Bytes} (hread : partReadable part = false) (e : Bytes) :
    ∃ a w, part = a :: w ∧ peek (part ++ backslash :: e) 1 = 'u'.toUInt8 ∧
      (peek (part ++ backslash :: e) 2 ≠ '0'.toUInt8 ∨
        peek (part ++ backslash :: e) 3 ≠ '0'.toUInt8) := by
  have hback : backslash ≠ '0'.toUInt8 := by decide
  rw [partReadable, Bool.or_eq_false_iff, decide_eq_false_iff_not, not_not] at hread
  obtain ⟨hu, hzero⟩ := hread
  rcases part with _ | ⟨a, _ | ⟨u, _ | ⟨y, _ | ⟨z, w⟩⟩⟩⟩
  · cases hu
  · cases hu
  · exact ⟨a, [u], rfl, Option.some.inj hu, .inl hback⟩
  · exact ⟨a, [u, y], rfl, Option.some.inj hu, .inr hback⟩
  · refine ⟨a, u :: y :: z :: w, rfl, Option.some.inj hu, ?_⟩
    by_contra hno
    rw [not_or, not_not, not_not] at hno
    obtain ⟨hy, hz⟩ := hno
    obtain rfl : y = '0'.toUInt8 := hy
    obtain rfl : z = '0'.toUInt8 := hz
    exact absurd hzero (by simp)

/-- The decoder takes six bytes over from such a part, of which the first one is plain. -/
theorem decodeLoop_unreadable {part : Bytes} (hpart : ∀ c ∈ part, isPlain c)
    (hread : partReadable part = false) (e : Bytes) (fuel : Nat) {n : Nat} (hn : part.length < n) :
    ∃ a w, isPlain a ∧ decodeLoop (fuel + 1) (part ++ backslash :: e) n = part ++ a :: w := by
  obtain ⟨a, u, rfl, hlooks⟩ := looks_unicode hread e
  obtain ⟨k, rfl⟩ : ∃ k, n = (a :: u).length + (k + 1) := ⟨n - (a :: u).length - 1, by omega⟩
  have hidx : ((a :: u ++ backslash :: e).take ((a :: u).length + (k + 1))).idxOf? backslash =
      some (a :: u).length := by
    rw [List.take_length_add_append, List.take_succ_cons]
    exact idxOf_part hpart
  have hcopied : copied (a :: u ++ backslash :: e) 6 =
      a :: (copied (a :: u ++ backslash :: e) 6).tail := rfl
  rw [decodeLoop, if_neg (by omega)]
  simp only [hidx, if_pos hlooks, List.take_left, List.append_assoc]
  rw [hcopied]
  exact ⟨a, _, hpart a List.mem_cons_self, rfl⟩

/-- Behind a part the decoder reads the text back if and only if it finds its way. -/
theorem decodeLoop_escapedIn (behind : UInt8) (s : Bytes) {part : Bytes} (rest : Bytes)
    {fuel : Nat} (hpart : ∀ c ∈ part, isPlain c)
    (hfuel : part.length + (escapedIn false behind s).length ≤ fuel) :
    decodeLoop fuel (part ++ (escapedIn false behind s ++ rest))
        (part.length + (escapedIn false behind s).length) = part ++ s ↔
      readable part s := by
  induction s generalizing part fuel with
  | nil =>
      refine iff_of_true ?_ rfl
      rw [escapedIn, List.nil_append, List.length_nil, Nat.add_zero, List.append_nil]
      exact decodeLoop_part hpart rest hfuel
  | cons c t ih =>
      rw [readable]
      by_cases hc : isPlain c
      · -- a byte that stands for itself lengthens the part
        have hesc : escapedIn false behind (c :: t) = c :: escapedIn false behind t := by
          rw [escapedIn_cons, sprintcIn_plain hc]
          rfl
        rw [if_pos hc]
        rw [hesc] at hfuel ⊢
        have hfuel' : (part ++ [c]).length + (escapedIn false behind t).length ≤ fuel := by
          simp only [List.length_append, List.length_cons, List.length_nil] at hfuel ⊢
          omega
        have hstep := ih (isPlain_concat hpart hc) hfuel'
        simpa [Nat.add_assoc, Nat.add_comm 1] using hstep
      · -- an escape ends the part
        obtain ⟨e, hsprintc, he⟩ := sprintcIn_escape (by simpa using hc)
        have hesc : escapedIn false behind (c :: t) =
            backslash :: (e ++ escapedIn false behind t) := by
          rw [escapedIn_cons, hsprintc]
          rfl
        rw [if_neg hc]
        rw [hesc] at hfuel ⊢
        cases fuel with
        | zero => simp at hfuel
        | succ fuel =>
            by_cases hread : partReadable part
            · have hnone : ∀ d ∈ ([] : Bytes), isPlain d := by simp
              have hfuel' : ([] : Bytes).length + (escapedIn false behind t).length ≤ fuel := by
                simp only [List.length_append, List.length_cons, List.length_nil] at hfuel ⊢
                omega
              have hstep := ih hnone hfuel'
              have hlen : part.length + (backslash :: (e ++ escapedIn false behind t)).length =
                  part.length + 1 + e.length + (escapedIn false behind t).length := by
                simp only [List.length_cons, List.length_append]
                omega
              simp only [List.nil_append, List.length_nil, Nat.zero_add] at hstep
              rw [hlen, List.cons_append, List.append_assoc, decodeLoop_escape _ hpart hread he,
                List.append_cancel_left_eq, List.cons.injEq, hread, Bool.true_and, ← hstep]
              exact and_iff_right rfl
            · rw [Bool.not_eq_true] at hread
              rw [hread, Bool.false_and, List.cons_append]
              have hlt : part.length <
                  part.length + (backslash :: (e ++ escapedIn false behind t)).length := by
                rw [List.length_cons]
                omega
              obtain ⟨a, w, ha, hdecode⟩ := decodeLoop_unreadable hpart hread
                (e ++ escapedIn false behind t ++ rest) fuel hlt
              refine iff_of_false ?_ Bool.false_ne_true
              rw [hdecode, List.append_cancel_left_eq, List.cons.injEq]
              exact fun h => hc (h.1 ▸ ha)

/-- Without JSON a text comes back from a large enough buffer if and only if no run of plain
characters in front of an escape has a `u` in its second place without two zeros behind it. -/
theorem escape_roundTrip_iff (behind : UInt8) (s rest : Bytes) (maxOutput : UInt32)
    (h : totalCost false behind s + 5 < maxOutput.toNat) :
    escapeDecode ((escapeEncodeIn false behind s maxOutput).1.drop 1 ++ rest)
        ((escapeEncodeIn false behind s maxOutput).2 - 2) = s ↔
      readable [] s := by
  have hend := toNat_outend (show 4 ≤ maxOutput.toNat by omega)
  have hloop : encodeLoopIn false behind (maxOutput - 4).toNat 1 s = escapedIn false behind s := by
    rw [← length_escapedIn] at h
    rcases length_encodeLoopIn false behind (show 1 < (maxOutput - 4).toNat by omega) s with
      ⟨-, heq⟩ | ⟨hle, -⟩
    · exact heq
    · omega
  have hnone : ∀ c ∈ ([] : Bytes), isPlain c := nofun
  have hback := decodeLoop_escapedIn behind s ([quote] ++ [0] ++ rest) hnone
    (Nat.le_of_eq (Nat.zero_add _))
  rw [← hback, escapeEncodeIn, hloop, escapeDecode]
  simp

theorem escape_roundTrip_tab :
    escapeDecode ((escapeEncodeIn false 0 [97, 9] 16).1.drop 1 ++ [])
      ((escapeEncodeIn false 0 [97, 9] 16).2 - 2) = [97, 9] :=
  (escape_roundTrip_iff 0 [97, 9] [] 16 (by decide)).mpr (by decide)

/-- `au`, a line feed and `bcd`: the decoder takes `au\nbc` over where the line feed is to stand. -/
theorem not_escape_roundTrip :
    escapeDecode ((escapeEncodeIn false 0 [97, 117, 10, 98, 99, 100] 32).1.drop 1 ++ [])
      ((escapeEncodeIn false 0 [97, 117, 10, 98, 99, 100] 32).2 - 2) ≠
        [97, 117, 10, 98, 99, 100] := by
  decide

end ULib.EscapeText
