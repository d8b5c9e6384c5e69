import Mathlib.Data.List.GetD
import Mathlib.Data.Nat.Digits.Lemmas
import Mathlib.Tactic.Common
import ULib.JsonScan
import ULib.MimeMultipart

/-!
The parts of a multipart message are found again, byte for byte: no boundary
line begins inside of a part, and the one behind it is seen where it begins.
-/

namespace ULib.MimeRoundTrip

open ULib.KeyComparison
open ULib.EscapeCoding
open ULib.JsonValue
open ULib.JsonScan
open ULib.MimeMultipart

/-! ### Boundary lines -/

/-- No line of the text starts with two dashes and the boundary. -/
structure NoBoundaryLine (bbuf part : Bytes) : Prop where
  start : ¬ dashes ++ bbuf <+: part
  line : ¬ 10 :: (dashes ++ bbuf) <:+: part

instance (bbuf part : Bytes) : Decidable (NoBoundaryLine bbuf part) :=
  decidable_of_iff (¬ dashes ++ bbuf <+: part ∧ ¬ 10 :: (dashes ++ bbuf) <:+: part)
    ⟨fun h => ⟨h.1, h.2⟩, fun h => ⟨h.start, h.line⟩⟩

theorem prefix_of_append {w p r : Bytes} (hw : 13 ∉ w) (h : w <+: p ++ 13 :: r) : w <+: p := by
  induction p generalizing w with
  | nil =>
      cases w with
      | nil => exact List.nil_prefix
      | cons c w =>
          rw [List.nil_append, List.cons_prefix_cons] at h
          exact absurd (h.1 ▸ List.mem_cons_self) hw
  | cons d p ih =>
      cases w with
      | nil => exact List.nil_prefix
      | cons c w =>
          rw [List.cons_append, List.cons_prefix_cons] at h
          rw [List.cons_prefix_cons]
          exact ⟨h.1, ih (fun hmem => hw (List.mem_cons_of_mem c hmem)) h.2⟩

/-- Three bytes and a `memcmp` make a prefix. -/
theorem prefix_of_bytes {a b c : UInt8} {w r : Bytes} (ha : r.getD 0 0 = a) (hb : r.getD 1 0 = b)
    (hc : r.getD 2 0 = c) (hw : (r.drop 3).take w.length = w) (hne : a ≠ 0 ∧ b ≠ 0 ∧ c ≠ 0) :
    a :: b :: c :: w <+: r := by
  match r with
  | [] => exact absurd ha.symm hne.1
  | [_] => exact absurd hb.symm hne.2.1
  | [_, _] => exact absurd hc.symm hne.2.2
  | x :: y :: z :: r =>
      obtain rfl : x = a := ha
      obtain rfl : y = b := hb
      obtain rfl : z = c := hc
      simp only [List.cons_prefix_cons, true_and]
      exact List.prefix_iff_eq_take.mpr hw.symm

theorem prefix_of_two {a b : UInt8} {w r : Bytes} (ha : r.getD 0 0 = a) (hb : r.getD 1 0 = b)
    (hw : (r.drop 2).take w.length = w) (hne : a ≠ 0 ∧ b ≠ 0) : a :: b :: w <+: r := by
  match r with
  | [] => exact absurd ha.symm hne.1
  | [_] => exact absurd hb.symm hne.2
  | x :: y :: r =>
      obtain rfl : x = a := ha
      obtain rfl : y = b := hb
      simp only [List.cons_prefix_cons, true_and]
      exact List.prefix_iff_eq_take.mpr hw.symm

section Find

variable {bbuf : Bytes}

theorem byteAt_append (pre r : Bytes) (k : Nat) :
    byteAt (pre ++ r) (pre.length + k) = r.getD k 0 := by
  rw [byteAt, List.getD_append_right _ _ _ _ (Nat.le_add_right _ _), Nat.add_sub_cancel_left]

theorem boundaryAt_append (pre r : Bytes) (k : Nat) :
    boundaryAt (pre ++ r) bbuf (pre.length + k) = decide ((r.drop k).take bbuf.length = bbuf) := by
  rw [boundaryAt, ← List.drop_drop, List.drop_left]

/-- What stands behind a part. -/
def delimiter (bbuf rest : Bytes) : Bytes := crlf ++ dashes ++ bbuf ++ rest

theorem length_delimiter (rest : Bytes) :
    (delimiter bbuf rest).length = bbuf.length + 4 + rest.length := by
  simp only [delimiter, crlf, dashes, List.length_append, List.length_cons, List.length_nil]
  omega

theorem delimiter_eq_cons (rest : Bytes) :
    delimiter bbuf rest = 13 :: 10 :: (dashes ++ bbuf ++ rest) := by
  simp only [delimiter, crlf, List.cons_append, List.nil_append, List.append_assoc]

variable (hcr : 13 ∉ bbuf)

include hcr

theorem noCr_line : 13 ∉ 10 :: (dashes ++ bbuf) := by
  intro h
  rcases List.mem_cons.mp h with h | h
  · exact absurd h (by decide)
  · rcases List.mem_append.mp h with h | h
    · exact absurd h (by decide)
    · exact hcr h

/-- No boundary line begins in a part with the delimiter behind it. -/
theorem not_line_prefix {part rest : Bytes} (hpart : ¬ 10 :: (dashes ++ bbuf) <:+: part) :
    ¬ 10 :: (dashes ++ bbuf) <+: part ++ delimiter bbuf rest := by
  intro h
  rw [delimiter_eq_cons] at h
  exact hpart (prefix_of_append (noCr_line hcr) h).isInfix

/-- The loop goes past a part. -/
theorem findLoop_skip {pre part rest : Bytes} (hpart : ¬ 10 :: (dashes ++ bbuf) <:+: part)
    (n : Nat) :
    findLoop (pre ++ (part ++ delimiter bbuf rest)) bbuf (part.length + n) pre.length =
      findLoop (pre ++ (part ++ delimiter bbuf rest)) bbuf n (pre ++ part).length := by
  induction part generalizing pre with
  | nil => rw [List.length_nil, Nat.zero_add, List.append_nil]
  | cons c part ih =>
      have htail : ¬ 10 :: (dashes ++ bbuf) <:+: part :=
        fun h => hpart (h.trans (List.suffix_cons c part).isInfix)
      have hnext := @ih (pre ++ [c]) htail
      have hshift : (pre ++ [c]) ++ (part ++ delimiter bbuf rest) =
          pre ++ (c :: part ++ delimiter bbuf rest) := by
        rw [List.append_assoc]
        rfl
      have hlen : (pre ++ [c]).length = pre.length + 1 := List.length_append
      rw [hshift, hlen, List.append_assoc] at hnext
      refine Eq.trans ?_ hnext
      have hguard : pre.length + bbuf.length + 2 <
          (pre ++ (c :: part ++ delimiter bbuf rest)).length := by
        simp only [List.length_append, List.length_cons, length_delimiter]
        omega
      rw [List.length_cons, Nat.add_right_comm, findLoop]
      rw [if_pos hguard, if_neg, if_neg]
      · rintro ⟨-, h1, h2, -, h3, hb, -⟩
        rw [byteAt_append] at h1 h2 h3
        rw [boundaryAt_append] at hb
        exact not_line_prefix hcr htail
          (prefix_of_bytes h1 h2 h3 (of_decide_eq_true hb) (by decide))
      · rintro ⟨h0, h1, h2, hb, -⟩
        have h0 := (byteAt_append pre _ 0).symm.trans h0
        rw [byteAt_append] at h1 h2
        rw [boundaryAt_append] at hb
        exact not_line_prefix hcr hpart
          (prefix_of_bytes h0 h1 h2 (of_decide_eq_true hb) (by decide))

omit hcr in
/-- The loop stops at a delimiter. -/
theorem findLoop_delimiter {pre rest : Bytes} (n : Nat)
    (hrest : isOnlyWhiteSpaceOrDashesUntilEndOfLine true rest) :
    findLoop (pre ++ delimiter bbuf rest) bbuf (n + 1) pre.length =
      closeLine (pre ++ delimiter bbuf rest) pre.length (pre.length + bbuf.length + 4) := by
  have hlen : (pre ++ delimiter bbuf rest).length =
      pre.length + (bbuf.length + 4 + rest.length) := by
    rw [List.length_append, length_delimiter]
  have h0 := byteAt_append pre (delimiter bbuf rest) 0
  have hdrop : (pre ++ delimiter bbuf rest).drop (pre.length + bbuf.length + 4) = rest := by
    have hpre : pre.length + bbuf.length + 4 = (pre ++ (crlf ++ dashes ++ bbuf)).length := by
      simp only [crlf, dashes, List.length_append, List.length_cons, List.length_nil]
      omega
    have hbuf : pre ++ delimiter bbuf rest = pre ++ (crlf ++ dashes ++ bbuf) ++ rest :=
      (List.append_assoc pre (crlf ++ dashes ++ bbuf) rest).symm
    rw [hpre, hbuf, List.drop_left]
  rw [findLoop, if_pos (by omega), if_neg, if_pos]
  · refine ⟨h0, byteAt_append pre _ 1, byteAt_append pre _ 2, by omega, byteAt_append pre _ 3,
      ?_, hdrop.symm ▸ hrest⟩
    rw [boundaryAt_append]
    exact decide_eq_true List.take_left
  · rintro ⟨h, -⟩
    exact absurd (h0.symm.trans h) (by decide : ¬ (13 : UInt8) = 10)

theorem findBoundary_delimiter {pre part rest : Bytes} (hpart : NoBoundaryLine bbuf part)
    (hrest : isOnlyWhiteSpaceOrDashesUntilEndOfLine true rest) :
    findBoundary (pre ++ (part ++ delimiter bbuf rest)) bbuf pre.length =
      closeLine (pre ++ (part ++ delimiter bbuf rest)) (pre ++ part).length
        ((pre ++ part).length + bbuf.length + 4) := by
  have hfuel : (pre ++ (part ++ delimiter bbuf rest)).length - pre.length =
      part.length + (bbuf.length + 3 + rest.length + 1) := by
    simp only [List.length_append, length_delimiter]
    omega
  rw [findBoundary, if_neg, hfuel, findLoop_skip hcr hpart.line, ← List.append_assoc,
    findLoop_delimiter _ hrest]
  rintro ⟨h0, h1, -, hb⟩
  have h0 := (byteAt_append pre _ 0).symm.trans h0
  rw [byteAt_append] at h1
  rw [boundaryAt_append] at hb
  have hline : dashes ++ bbuf <+: part ++ delimiter bbuf rest :=
    prefix_of_two h0 h1 (of_decide_eq_true hb) (by decide)
  rw [delimiter_eq_cons] at hline
  exact hpart.start
    (prefix_of_append (fun h => noCr_line hcr (List.mem_cons_of_mem 10 h)) hline)

/-! ### The two kinds of lines -/

omit hcr in
theorem pastEndOfLine_append {line : Bytes} (pre more : Bytes) (hline : 10 ∉ line) :
    pastEndOfLine (pre ++ (line ++ 10 :: more)) pre.length = pre.length + (line.length + 1) := by
  have hspan : (line ++ 10 :: more).takeWhile (· != 10) = line := by
    rw [List.takeWhile_append_of_pos, List.takeWhile_cons_of_neg (by decide), List.append_nil]
    intro c hc
    exact bne_iff_ne.mpr fun h => hline (h ▸ hc)
  rw [pastEndOfLine, List.drop_left, hspan, Nat.min_eq_left]
  simp only [List.length_append, List.length_cons]
  omega

omit hcr in
theorem closeLine_crlf (pre more : Bytes) (boundaryStart : Nat) :
    closeLine (pre ++ (crlf ++ more)) boundaryStart pre.length =
      ⟨true, boundaryStart, (pre ++ crlf).length, false⟩ := by
  rw [closeLine, if_neg]
  · have hend := @pastEndOfLine_append [13] pre more (by decide)
    rw [show pre ++ (crlf ++ more) = pre ++ ([13] ++ 10 :: more) from rfl, hend,
      List.length_append]
    rfl
  · rintro ⟨-, h⟩
    exact absurd ((byteAt_append pre (crlf ++ more) 0).symm.trans h)
      (by decide : ¬ (13 : UInt8) = '-'.toUInt8)

omit hcr in
theorem closeLine_final (pre : Bytes) (boundaryStart : Nat) :
    closeLine (pre ++ (dashes ++ crlf)) boundaryStart pre.length =
      ⟨true, boundaryStart, (pre ++ (dashes ++ crlf)).length, true⟩ := by
  have hlen : (pre ++ (dashes ++ crlf)).length = pre.length + 4 := List.length_append
  have hend := @pastEndOfLine_append ['-'.toUInt8, 13] (pre ++ ['-'.toUInt8]) [] (by decide)
  have hbuf : pre ++ ['-'.toUInt8] ++ (['-'.toUInt8, 13] ++ [10]) = pre ++ (dashes ++ crlf) :=
    List.append_assoc _ _ _
  have hpos : (pre ++ ['-'.toUInt8]).length = pre.length + 1 := List.length_append
  rw [hbuf, hpos] at hend
  rw [closeLine, if_pos ⟨by omega, byteAt_append pre (dashes ++ crlf) 0⟩]
  dsimp only
  rw [if_neg, hend, hlen]
  · rfl
  · rintro ⟨-, h⟩
    exact absurd ((byteAt_append pre (dashes ++ crlf) 2).symm.trans h) (by decide)

/-! ### The body -/

omit hcr in
/-- What stands behind the preamble. -/
def body (bbuf : Bytes) : List Bytes → Bytes
  | [] => delimiter bbuf (dashes ++ crlf)
  | p :: ps => delimiter bbuf (crlf ++ (p ++ body bbuf ps))

theorem findBoundary_final {pre part : Bytes} (hpart : NoBoundaryLine bbuf part) :
    findBoundary (pre ++ (part ++ body bbuf [])) bbuf pre.length =
      ⟨true, (pre ++ part).length, (pre ++ (part ++ body bbuf [])).length, true⟩ := by
  have hlen : (pre ++ part).length + bbuf.length + 4 =
      (pre ++ part ++ (crlf ++ dashes ++ bbuf)).length := by
    simp only [crlf, dashes, List.length_append, List.length_cons, List.length_nil]
    omega
  have hbuf : pre ++ (part ++ body bbuf []) =
      pre ++ part ++ (crlf ++ dashes ++ bbuf) ++ (dashes ++ crlf) := by
    simp only [body, delimiter, List.append_assoc]
  rw [body, findBoundary_delimiter hcr hpart (by decide), ← body, hlen, hbuf, closeLine_final]

theorem findBoundary_next {pre part next : Bytes} {parts : List Bytes}
    (hpart : NoBoundaryLine bbuf part) :
    findBoundary (pre ++ (part ++ body bbuf (next :: parts))) bbuf pre.length =
      ⟨true, (pre ++ part).length, (pre ++ part ++ (crlf ++ dashes ++ bbuf) ++ crlf).length,
        false⟩ := by
  have hlen : (pre ++ part).length + bbuf.length + 4 =
      (pre ++ part ++ (crlf ++ dashes ++ bbuf)).length := by
    simp only [crlf, dashes, List.length_append, List.length_cons, List.length_nil]
    omega
  have hbuf : pre ++ (part ++ body bbuf (next :: parts)) =
      pre ++ part ++ (crlf ++ dashes ++ bbuf) ++ (crlf ++ (next ++ body bbuf parts)) := by
    simp only [body, delimiter, List.append_assoc]
  rw [body, findBoundary_delimiter hcr hpart rfl, ← body, hlen, hbuf, closeLine_crlf]

omit hcr in
theorem take_part (pre part r : Bytes) :
    ((pre ++ (part ++ r)).drop pre.length).take ((pre ++ part).length - pre.length) = part := by
  rw [List.drop_left, List.length_append, Nat.add_sub_cancel_left, List.take_left]

/-- Every part is found, from the first position behind its boundary line on. -/
theorem findParts_body {pre part : Bytes} {parts bodypart : List Bytes}
    (hparts : ∀ p ∈ part :: parts, NoBoundaryLine bbuf p) (n : Nat) :
    findParts (pre ++ (part ++ body bbuf parts)) bbuf (parts.length + 1 + n) pre.length bodypart =
      some ((pre ++ (part ++ body bbuf parts)).length, bodypart ++ part :: parts, true) := by
  have hpart := hparts part List.mem_cons_self
  rw [Nat.add_right_comm]
  induction parts generalizing pre part bodypart with
  | nil =>
      rw [findParts, findBoundary_final hcr hpart]
      simp only [if_true, take_part]
  | cons next parts ih =>
      have hrest : ∀ p ∈ next :: parts, NoBoundaryLine bbuf p :=
        fun p hp => hparts p (List.mem_cons_of_mem part hp)
      have hnext := @ih (pre ++ part ++ (crlf ++ dashes ++ bbuf) ++ crlf) next
        (bodypart ++ [part]) hrest (hrest next List.mem_cons_self)
      have hbuf : pre ++ part ++ (crlf ++ dashes ++ bbuf) ++ crlf ++ (next ++ body bbuf parts) =
          pre ++ (part ++ body bbuf (next :: parts)) := by
        simp only [body, delimiter, List.append_assoc]
      rw [hbuf] at hnext
      rw [findParts, findBoundary_next hcr hpart]
      simp only [if_true, take_part, Bool.false_eq_true, if_false]
      rw [List.length_cons, Nat.add_right_comm, hnext, List.append_assoc, List.singleton_append]

/-- What stands before the first boundary line is the preamble. -/
theorem parse_body {preamble : Bytes} {parts : List Bytes} (hne : parts ≠ [])
    (hpreamble : NoBoundaryLine bbuf preamble) (hparts : ∀ p ∈ parts, NoBoundaryLine bbuf p)
    {n : Nat} (hn : parts.length ≤ n) :
    parse (preamble ++ body bbuf parts) bbuf n =
      some ⟨true, preamble, parts, [], true, true⟩ := by
  obtain ⟨m, rfl⟩ := Nat.exists_eq_add_of_le hn
  cases parts with
  | nil => exact absurd rfl hne
  | cons part parts =>
      have hfound := @findBoundary_next bbuf hcr [] preamble part parts hpreamble
      rw [List.nil_append, List.nil_append, List.length_nil] at hfound
      have hrest := @findParts_body bbuf hcr (preamble ++ (crlf ++ dashes ++ bbuf) ++ crlf) part
        parts [] hparts m
      have hbuf : preamble ++ (crlf ++ dashes ++ bbuf) ++ crlf ++ (part ++ body bbuf parts) =
          preamble ++ body bbuf (part :: parts) := by
        simp only [body, delimiter, List.append_assoc]
      rw [hbuf] at hrest
      rw [parse, hfound]
      simp only [if_true, Bool.false_eq_true, if_false, List.take_left]
      rw [List.length_cons, hrest]
      simp only [Option.bind_eq_bind, Option.bind_some, List.nil_append, List.drop_length]

end Find

/-! ### The boundary -/

variable (counter : Nat) (stamp : Stamp)

theorem length_boundaryText (hcounter : counter < 2 ^ 32) :
    (boundaryText counter stamp).length ≤ 41 := by
  have hcount := length_printNat_le (by decide) (hcounter.trans (by decide : 2 ^ 32 < 10 ^ 10))
  have hdate := stamp.date_length
  have hpid := stamp.pid_length
  simp only [boundaryText, List.length_append, List.length_cons, List.length_nil]
  omega

theorem noCr_boundaryText : 13 ∉ boundaryText counter stamp := by
  have hcr : ¬ isDigit 13 := by decide
  simp only [boundaryText, List.mem_append, not_or]
  refine ⟨⟨⟨⟨⟨by decide, ?_⟩, by decide⟩, ?_⟩, by decide⟩, ?_⟩
  · exact fun h => hcr ((printNat_spec counter).2.1 13 h)
  · exact fun h => (stamp.date_chars 13 h).elim hcr (by decide)
  · exact fun h => hcr (stamp.pid_chars 13 h)

theorem mkboundary_eq :
    mkboundary counter stamp = crlf ++ dashes ++ boundaryText (counter % 2 ^ 32) stamp := by
  have hlen := length_boundaryText (counter % 2 ^ 32) stamp (Nat.mod_lt _ (by decide))
  apply List.take_of_length_le
  simp only [crlf, dashes, List.length_append, List.length_cons, List.length_nil]
  omega

theorem announced_eq {m : UMimeMultipartMsg} (hm : m.boundary = mkboundary counter stamp) :
    m.announced = boundaryText (counter % 2 ^ 32) stamp := by
  rw [UMimeMultipartMsg.announced, hm, mkboundary_eq]
  rfl

/-! ### The message -/

theorem foldl_add (m : UMimeMultipartMsg) (parts : List Bytes) :
    parts.foldl UMimeMultipartMsg.add m = ⟨m.boundary, m.vec_part ++ parts⟩ := by
  induction parts generalizing m with
  | nil => rw [List.foldl_nil, List.append_nil]
  | cons p parts ih => rw [List.foldl_cons, ih, UMimeMultipartMsg.add, List.append_assoc]; rfl

/-- The sections and the last boundary line. -/
theorem join_append_body (bbuf first : Bytes) (parts : List Bytes) :
    join (crlf ++ dashes ++ bbuf ++ crlf) (first :: parts) ++
        (crlf ++ dashes ++ bbuf ++ (dashes ++ crlf)) =
      first ++ body bbuf parts := by
  induction parts generalizing first with
  | nil =>
      rw [join, List.intercalate_singleton, body, delimiter]
  | cons p parts ih =>
      rw [join, List.intercalate_cons_cons, ← join, List.append_assoc, List.append_assoc, ih, body,
        delimiter]
      simp only [List.append_assoc]

variable (header : Bytes) (bRFC2045MIMEMSG : Bool)

theorem message_eq (parts : List Bytes) :
    (parts.foldl UMimeMultipartMsg.add
        (.new header counter stamp bRFC2045MIMEMSG)).message =
      header ++ ((if bRFC2045MIMEMSG then rfc2045Mimemsg else []) ++
        body (boundaryText (counter % 2 ^ 32) stamp) parts) := by
  have hlen := length_boundaryText (counter % 2 ^ 32) stamp (Nat.mod_lt _ (by decide))
  have hfits : ∀ tail : Bytes, tail.length ≤ 4 →
      snprintf 64 (crlf ++ dashes ++ boundaryText (counter % 2 ^ 32) stamp ++ tail) =
        crlf ++ dashes ++ boundaryText (counter % 2 ^ 32) stamp ++ tail := by
    intro tail htail
    apply List.take_of_length_le
    simp only [crlf, dashes, List.length_append, List.length_cons, List.length_nil]
    omega
  rw [foldl_add, UMimeMultipartMsg.message, UMimeMultipartMsg.new, mkboundary_eq]
  dsimp only
  rw [hfits _ (by decide), List.append_assoc (crlf ++ dashes ++ _), hfits _ (by decide),
    List.singleton_append, join_append_body, List.append_assoc]

theorem noBoundaryLine_preamble (bbuf : Bytes) :
    NoBoundaryLine bbuf (if bRFC2045MIMEMSG then rfc2045Mimemsg else []) := by
  have hline : ¬ [10, '-'.toUInt8] <:+: if bRFC2045MIMEMSG then rfc2045Mimemsg else [] := by
    cases bRFC2045MIMEMSG <;> decide +kernel
  have hstart : ¬ ['-'.toUInt8] <+: if bRFC2045MIMEMSG then rfc2045Mimemsg else [] := by
    cases bRFC2045MIMEMSG <;> decide +kernel
  constructor
  · exact fun h => hstart ((List.prefix_append ['-'.toUInt8] _).trans h)
  · exact fun h => hline ((List.prefix_append [10, '-'.toUInt8] _).isInfix.trans h)

def newYear : Stamp where
  date := ['0', '1', '0', '1', '7', '0', '_', '0', '0', '0', '0', '0', '0', '_', '0', '0',
    '0'].map Char.toUInt8
  pid := ['4'.toUInt8, '2'.toUInt8]
  date_length := rfl
  date_chars := by decide
  pid_length := by decide
  pid_chars := by decide

end ULib.MimeRoundTrip
