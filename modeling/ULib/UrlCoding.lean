import ULib.RpcFraming

/-!
The coding of names and values in `base/coder/curl_coder.c`: a space is a plus,
a reserved byte is a percent sign with two hex digits. The decoder looks at the
bytes behind a percent sign also where they are no part of what it is given.
-/

namespace ULib.UrlCoding

open ULib.KeyComparison
open ULib.EscapeCoding
open ULib.RpcFraming

def plus : UInt8 := '+'.toUInt8

def percent : UInt8 := '%'.toUInt8

/-- `u_uri_encoded_char` under `u_uri_encoded_char_mask`, which takes every class but the
unreserved bytes. -/
def uriEncodedChar (c : UInt8) : Bool :=
  !(isDigit c || ('A'.toUInt8 ≤ c && c ≤ 'Z'.toUInt8) || ('a'.toUInt8 ≤ c && c ≤ 'z'.toUInt8) ||
    c = '-'.toUInt8 || c = '.'.toUInt8 || c = '_'.toUInt8 || c = '~'.toUInt8)

/-- `U_RFC2231` -/
def rfc2231 : Bytes := " *'%()<>@,;:\\\"/[]?=".toUTF8.data.toList

/-- What `u_url_encode` writes for a byte. -/
def encodeChar (extra : Bytes) (c : UInt8) : Bytes :=
  if c = 0x20 then [plus]
  else if uriEncodedChar c || extra.contains c then
    [percent, hexUpper ((c >>> 4) &&& 15), hexUpper (c % 16)]
  else [c]

/-- `u_url_encode` -/
def urlEncode (extra s : Bytes) : Bytes := s.flatMap (encodeChar extra)

/-- The loop of `u_url_decode` over the `n` bytes at the pointer `t`. -/
def decodeLoop (noLineBreak : Bool) : Nat → Bytes → Nat → Bytes
  | 0, _, _ => []
  | fuel + 1, t, n =>
      if n = 0 then []
      else if peek t 0 = plus then 0x20 :: decodeLoop noLineBreak fuel (t.drop 1) (n - 1)
      else if peek t 0 = percent then
        if noLineBreak ∧ peek t 1 = '0'.toUInt8 ∧ peek t 2 = 'D'.toUInt8 ∧
            peek t 3 = percent ∧ peek t 4 = '0'.toUInt8 ∧ peek t 5 = 'A'.toUInt8 then
          decodeLoop noLineBreak fuel (t.drop 6) (n - 6)
        -- the text may end behind the percent sign, or one byte later
        else if peek t 1 = 0 then
          (u_hex2int [0, 0]).toUInt8 :: decodeLoop noLineBreak fuel (t.drop 1) (n - 1)
        else if peek t 2 = 0 then
          (u_hex2int [peek t 1, 0]).toUInt8 :: decodeLoop noLineBreak fuel (t.drop 2) (n - 2)
        else
          (u_hex2int [peek t 1, peek t 2]).toUInt8 ::
            decodeLoop noLineBreak fuel (t.drop 3) (n - 3)
      else peek t 0 :: decodeLoop noLineBreak fuel (t.drop 1) (n - 1)

/-- `u_url_decode` of the `n` bytes at a pointer. -/
def urlDecode (t : Bytes) (n : Nat) : Bytes := decodeLoop false n t n

/-! ### Texts in which every percent sign has its two digits -/

def isEscaped : Bytes → Bool
  | [] => true
  | c :: t =>
      if c = percent then
        match t with
        | a :: b :: t => isXdigit a && isXdigit b && isEscaped t
        | _ => false
      else isEscaped t

/-- What an escaped text stands for. -/
def decoded : Bytes → Bytes
  | [] => []
  | c :: t =>
      if c = percent then
        match t with
        | a :: b :: t => (u_hex2int [a, b]).toUInt8 :: decoded t
        | t => t
      else (if c = plus then 0x20 else c) :: decoded t

theorem isEscaped_cons {c : UInt8} (hc : c ≠ percent) (t : Bytes) :
    isEscaped (c :: t) = isEscaped t := by
  rw [isEscaped.eq_def]
  exact if_neg hc

theorem decoded_cons {c : UInt8} (hc : c ≠ percent) (t : Bytes) :
    decoded (c :: t) = (if c = plus then 0x20 else c) :: decoded t := by
  rw [decoded.eq_def]
  exact if_neg hc

/-- An escaped text that begins with a percent sign. -/
theorem isEscaped_percent {t : Bytes} (h : isEscaped (percent :: t)) :
    ∃ a b t', t = a :: b :: t' ∧ isXdigit a ∧ isXdigit b ∧ isEscaped t' := by
  match t with
  | [] => simp [isEscaped] at h
  | [_] => simp [isEscaped] at h
  | a :: b :: t =>
      simp only [isEscaped, if_true, Bool.and_eq_true] at h
      exact ⟨a, b, t, rfl, h.1.1, h.1.2, h.2⟩

theorem isXdigit_ne_zero {c : UInt8} (h : isXdigit c) : c ≠ 0 := by
  have hall : ∀ c, isXdigit c → c ≠ 0 := fun c hc => ne_of_class hc (by decide)
  exact hall c h

theorem decodeLoop_cons {noLineBreak : Bool} {c : UInt8} (hc : c ≠ percent) (fuel : Nat)
    (t : Bytes) (n : Nat) :
    decodeLoop noLineBreak (fuel + 1) (c :: t) (n + 1) =
      (if c = plus then 0x20 else c) :: decodeLoop noLineBreak fuel t n := by
  have hpeek : peek (c :: t) 0 = c := rfl
  rw [decodeLoop, if_neg (Nat.succ_ne_zero n), hpeek]
  by_cases hplus : c = plus
  · rw [if_pos hplus, if_pos hplus]
    rfl
  · rw [if_neg hplus, if_neg hplus, if_neg hc]
    rfl

theorem decodeLoop_percent (fuel : Nat) (t : Bytes) (n : Nat) :
    decodeLoop false (fuel + 1) (percent :: t) (n + 1) =
      if peek t 0 = 0 then (u_hex2int [0, 0]).toUInt8 :: decodeLoop false fuel t n
      else if peek t 1 = 0 then
        (u_hex2int [peek t 0, 0]).toUInt8 :: decodeLoop false fuel (t.drop 1) (n - 1)
      else
        (u_hex2int [peek t 0, peek t 1]).toUInt8 :: decodeLoop false fuel (t.drop 2) (n - 2) := by
  have hpeek : peek (percent :: t) 0 = percent := rfl
  rw [decodeLoop, if_neg (Nat.succ_ne_zero n), hpeek, if_neg (by decide), if_pos rfl,
    if_neg (fun h => Bool.false_ne_true h.1)]
  have htwo : n + 1 - 2 = n - 1 := by omega
  have hthree : n + 1 - 3 = n - 2 := by omega
  rw [htwo, hthree]
  rfl

/-- The decoder stops where an escaped text ends, whatever stands behind it. -/
theorem decodeLoop_escaped {w : Bytes} (hw : isEscaped w) (rest : Bytes) {fuel : Nat}
    (hfuel : w.length ≤ fuel) : decodeLoop false fuel (w ++ rest) w.length = decoded w := by
  induction fuel generalizing w with
  | zero =>
      rw [List.eq_nil_of_length_eq_zero (Nat.le_zero.mp hfuel)]
      rfl
  | succ fuel ih =>
      cases w with
      | nil => rfl
      | cons c t =>
          rw [List.length_cons] at hfuel ⊢
          rw [List.cons_append]
          by_cases hc : c = percent
          · subst hc
            obtain ⟨a, b, t, rfl, ha, hb, ht⟩ := isEscaped_percent hw
            have ha : peek (a :: b :: t ++ rest) 0 ≠ 0 := isXdigit_ne_zero ha
            have hb : peek (a :: b :: t ++ rest) 1 ≠ 0 := isXdigit_ne_zero hb
            have hrest := ih ht (by simp only [List.length_cons] at hfuel; omega)
            rw [decodeLoop_percent, if_neg ha, if_neg hb]
            exact congrArg _ hrest
          · have hrest := ih ((isEscaped_cons hc t).symm.trans hw) (by omega)
            rw [decodeLoop_cons hc, decoded_cons hc, hrest]

theorem urlDecode_escaped {w : Bytes} (hw : isEscaped w) (rest : Bytes) :
    urlDecode (w ++ rest) w.length = decoded w :=
  decodeLoop_escaped hw rest (Nat.le_refl _)

/-- Escaped texts one behind the other. -/
theorem escaped_append {s : Bytes} (hs : isEscaped s) (t : Bytes) :
    isEscaped (s ++ t) = isEscaped t ∧ decoded (s ++ t) = decoded s ++ decoded t := by
  fun_induction isEscaped s with
  | case1 => exact ⟨rfl, rfl⟩
  | case2 a b s ih =>
      rw [Bool.and_eq_true, Bool.and_eq_true] at hs
      have hrest := ih hs.2
      exact ⟨by simp [isEscaped, hs.1.1, hs.1.2, hrest.1], by simp [decoded, hrest.2]⟩
  | case3 => cases hs
  | case4 c s hc ih =>
      have hrest := ih hs
      rw [List.cons_append, isEscaped_cons hc, decoded_cons hc, decoded_cons hc, hrest.2]
      exact ⟨hrest.1, rfl⟩

/-! ### What the encoder writes -/

theorem encodeChar_cases (extra : Bytes) (c : UInt8) :
    encodeChar extra c = [percent, hexUpper ((c >>> 4) &&& 15), hexUpper (c % 16)] ∨
      ∃ d, encodeChar extra c = [d] ∧ d ≠ percent ∧ (if d = plus then 0x20 else d) = c := by
  have hplain : ∀ c, uriEncodedChar c = false → c ≠ percent ∧ c ≠ plus :=
    fun c hc => ⟨ne_of_class hc (by decide), ne_of_class hc (by decide)⟩
  rw [encodeChar]
  split_ifs with hspace hcoded
  · exact .inr ⟨plus, rfl, by decide, by rw [if_pos rfl, hspace]⟩
  · exact .inl rfl
  · have huri : uriEncodedChar c = false := by
      simpa using fun h : uriEncodedChar c = true => hcoded (by simp [h])
    exact .inr ⟨c, rfl, (hplain c huri).1, if_neg (hplain c huri).2⟩

theorem hex_digits : ∀ c : UInt8, isXdigit (hexUpper ((c >>> 4) &&& 15)) ∧
    isXdigit (hexUpper (c % 16)) ∧
    (u_hex2int [hexUpper ((c >>> 4) &&& 15), hexUpper (c % 16)]).toUInt8 = c :=
  forall_byte (by decide +kernel)

theorem urlEncode_cons (extra : Bytes) (c : UInt8) (s : Bytes) :
    urlEncode extra (c :: s) = encodeChar extra c ++ urlEncode extra s := rfl

theorem isEscaped_encode (extra s : Bytes) : isEscaped (urlEncode extra s) := by
  induction s with
  | nil => rfl
  | cons c s ih =>
      rw [urlEncode_cons]
      rcases encodeChar_cases extra c with h | ⟨d, h, hd, -⟩
      · rw [h]
        simp [isEscaped, hex_digits c, ih]
      · rw [h, List.singleton_append, isEscaped_cons hd]
        exact ih

/-- The decoder undoes the encoder. -/
theorem decoded_encode (extra s : Bytes) : decoded (urlEncode extra s) = s := by
  induction s with
  | nil => rfl
  | cons c s ih =>
      rw [urlEncode_cons]
      rcases encodeChar_cases extra c with h | ⟨d, h, hd, hdc⟩
      · rw [h]
        simp [decoded, (hex_digits c).2.2, ih]
      · rw [h, List.singleton_append, decoded_cons hd, ih, hdc]

/-- The bytes that the encoder writes. -/
theorem mem_urlEncode {extra s : Bytes} {c : UInt8} (h : c ∈ urlEncode extra s) :
    c = plus ∨ c = percent ∨ uriEncodedChar c = false := by
  have hhex : ∀ c : UInt8, uriEncodedChar (hexUpper ((c >>> 4) &&& 15)) = false ∧
      uriEncodedChar (hexUpper (c % 16)) = false := forall_byte (by decide +kernel)
  obtain ⟨d, -, hd⟩ := List.mem_flatMap.mp h
  rw [encodeChar] at hd
  split_ifs at hd with hspace hcoded
  · exact .inl (List.mem_singleton.mp hd)
  · simp only [List.mem_cons, List.not_mem_nil, or_false] at hd
    rcases hd with rfl | rfl | rfl
    · exact .inr (.inl rfl)
    · exact .inr (.inr (hhex d).1)
    · exact .inr (.inr (hhex d).2)
  · rw [List.mem_singleton.mp hd]
    exact .inr (.inr (by simpa using fun h : uriEncodedChar d = true => hcoded (by simp [h])))

end ULib.UrlCoding
