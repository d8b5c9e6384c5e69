import ULib.EscapeCoding

/-!
The coder of `base/coder/cbase64.c`: every text comes back.
-/

namespace ULib.Base64

open ULib.KeyComparison
open ULib.EscapeCoding

def pad : UInt8 := '='.toUInt8

def u_alphabet : Bytes :=
  "ABCDEFGHIJKLMNOPQRSTUVWXYZabcdefghijklmnopqrstuvwxyz0123456789+/".toUTF8.data.toList

/-- `u_alphabet[i]` -/
def letter (i : Nat) : UInt8 := u_alphabet.getD i 0

/-- The table `member`; a NUL is marked in it. -/
def member (c : UInt8) : Bool := c = 0 || isAlnum c || c = '+'.toUInt8 || c = '/'.toUInt8

/-- The table `decoder`, for the letters of the alphabet. -/
def decoder (c : UInt8) : Nat :=
  if 'A'.toUInt8 ≤ c ∧ c ≤ 'Z'.toUInt8 then (c - 'A'.toUInt8).toNat
  else if 'a'.toUInt8 ≤ c ∧ c ≤ 'z'.toUInt8 then (c - 'a'.toUInt8).toNat + 26
  else if isDigit c then (c - '0'.toUInt8).toNat + 52
  else if c = '+'.toUInt8 then 62
  else if c = '/'.toUInt8 then 63
  else 0

/-! ### u_base64_encode -/

/-- The three bytes of `bits` -/
def bits (a b c : UInt8) : Nat := (a.toNat * 256 + b.toNat) * 256 + c.toNat

/-- `u_alphabet[(bits >> shift) & 0x3f]` -/
def sextet (v shift : Nat) : UInt8 := letter (v / 2 ^ shift % 64)

/-- The bytes that are left at the end -/
def finalGroup : Bytes → Bytes
  | [a] => [sextet (bits a 0 0) 18, sextet (bits a 0 0) 12, pad, pad]
  | [a, b] => [sextet (bits a b 0) 18, sextet (bits a b 0) 12, sextet (bits a b 0) 6, pad]
  | _ => []

section Encode

variable (eol : Bytes) (maxColumns : Nat)

/-- The loop over the groups of three bytes; `columns` is that a line was ended. -/
def encodeLoop : Nat → Bool → Bytes → Bytes
  | cols, columns, a :: b :: c :: t =>
      let v := bits a b c
      let group := [sextet v 18, sextet v 12, sextet v 6, sextet v 0]
      if maxColumns = 0 then group ++ encodeLoop cols columns t
      else if cols + 4 = maxColumns then group ++ eol ++ encodeLoop 0 true t
      else group ++ encodeLoop (cols + 4) columns t
  | cols, columns, rest => finalGroup rest ++ if columns ∧ 0 < cols then eol else []

/-- `u_base64_encode`, with the line terminator and `u_base64_max_columns`. -/
def encode (content : Bytes) : Bytes := encodeLoop eol maxColumns 0 false content

end Encode

/-! ### u_base64_decode -/

/-- The bytes before the first one that is not taken; a byte from 128 on is a negative index into
`member`. -/
def taken : Bytes → Option Bytes
  | [] => some []
  | c :: t =>
      if c = 0 then some []
      else if 128 ≤ c then none
      else if member c ∨ c = pad ∨ isSpace c then (taken t).map (c :: ·)
      else some []

/-- The loop over these bytes, with `char_count` and `bits`: the text, and whether there were
errors. -/
def decodeLoop : Nat → Nat → Bytes → Bytes × Bool
  | count, _, [] => ([], count ≠ 0)
  | count, v, c :: t =>
      if c = pad then
        if count = 1 then ([], true)
        else if count = 2 then ([UInt8.ofNat (v / 2 ^ 10)], false)
        else if count = 3 then ([UInt8.ofNat (v / 2 ^ 16), UInt8.ofNat (v / 2 ^ 8)], false)
        else ([], false)
      else if member c = false then decodeLoop count v t
      else
        let v := v + decoder c
        if count + 1 = 4 then
          (decodeLoop 0 0 t).map
            ([UInt8.ofNat (v / 2 ^ 16), UInt8.ofNat (v / 2 ^ 8), UInt8.ofNat v] ++ ·) id
        else decodeLoop (count + 1) (v * 64) t

def decode (inp : Bytes) : Option (Bytes × Bool) := (taken inp).map (decodeLoop 0 0)

/-! ### Reading what was written -/

/-- A byte of an encoded text -/
def isClean (c : UInt8) : Bool := c ≠ 0 && c < 128 && (member c || c = pad || isSpace c)

theorem taken_clean {t : Bytes} (h : ∀ c ∈ t, isClean c) : taken t = some t := by
  induction t with
  | nil => rfl
  | cons c t ih =>
      have hc := h c List.mem_cons_self
      simp only [isClean, Bool.and_eq_true, Bool.or_eq_true, decide_eq_true_eq] at hc
      obtain ⟨⟨hzero, hlt⟩, htable⟩ := hc
      rw [taken, if_neg hzero, if_neg (UInt8.not_le.mpr hlt),
        if_pos (htable.elim (fun h => h.elim Or.inl (Or.inr ∘ Or.inl)) (Or.inr ∘ Or.inr)),
        ih fun d hd => h d (List.mem_cons_of_mem c hd)]
      rfl

theorem letter_spec : ∀ i < 64, decoder (letter i) = i ∧ letter i ≠ pad ∧ member (letter i) ∧
    isClean (letter i) := by
  decide

theorem space_spec : ∀ c, isSpace c → c < 128 → c ≠ pad ∧ member c = false ∧ isClean c :=
  forall_byte (by decide +kernel)

theorem decodeLoop_letter {i count : Nat} (hi : i < 64) (hcount : count < 3) (v : Nat) (t : Bytes) :
    decodeLoop count v (letter i :: t) = decodeLoop (count + 1) ((v + i) * 64) t := by
  obtain ⟨hdecoder, hpad, hmember, -⟩ := letter_spec i hi
  rw [decodeLoop, if_neg hpad, if_neg (by simp [hmember]), hdecoder, if_neg (by omega)]

theorem decodeLoop_last {i : Nat} (hi : i < 64) (v : Nat) (t : Bytes) :
    decodeLoop 3 v (letter i :: t) =
      ([UInt8.ofNat ((v + i) / 2 ^ 16), UInt8.ofNat ((v + i) / 2 ^ 8), UInt8.ofNat (v + i)] ++
        (decodeLoop 0 0 t).1, (decodeLoop 0 0 t).2) := by
  obtain ⟨hdecoder, hpad, hmember, -⟩ := letter_spec i hi
  rw [decodeLoop, if_neg hpad, if_neg (by simp [hmember]), hdecoder, if_pos rfl]
  rfl

/-- A line terminator of ASCII white space -/
def Terminates (eol : Bytes) : Prop := ∀ c ∈ eol, isSpace c ∧ c < 128

theorem decodeLoop_eol {eol : Bytes} (h : Terminates eol) (count v : Nat) (t : Bytes) :
    decodeLoop count v (eol ++ t) = decodeLoop count v t := by
  induction eol with
  | nil => rfl
  | cons c eol ih =>
      obtain ⟨hspace, hlt⟩ := h c List.mem_cons_self
      obtain ⟨hpad, hmember, -⟩ := space_spec c hspace hlt
      rw [List.cons_append, decodeLoop, if_neg hpad, if_pos hmember,
        ih fun d hd => h d (List.mem_cons_of_mem c hd)]

theorem sextet_lt (v shift : Nat) : v / 2 ^ shift % 64 < 64 := Nat.mod_lt _ (by decide)

theorem decodeLoop_sextet {count : Nat} (hcount : count < 3) (u v shift : Nat) (t : Bytes) :
    decodeLoop count u (sextet v shift :: t) =
      decodeLoop (count + 1) ((u + v / 2 ^ shift % 64) * 64) t :=
  decodeLoop_letter (sextet_lt v shift) hcount u t

section Group

variable (a b c : UInt8)

theorem bits_spec : bits a b c < 2 ^ 24 ∧ bits a b c / 2 ^ 16 = a.toNat ∧
    bits a b c / 2 ^ 8 % 2 ^ 8 = b.toNat ∧ bits a b c % 2 ^ 8 = c.toNat := by
  have ha := a.toNat_lt
  have hb := b.toNat_lt
  have hc := c.toNat_lt
  rw [bits]
  omega

theorem ofNat_eq {v : Nat} {c : UInt8} (h : v % 2 ^ 8 = c.toNat) : UInt8.ofNat v = c := by
  apply UInt8.toNat_inj.mp
  rw [UInt8.toNat_ofNat', h]

/-- Four letters are three bytes. -/
theorem decodeLoop_group (t : Bytes) :
    decodeLoop 0 0 ([sextet (bits a b c) 18, sextet (bits a b c) 12, sextet (bits a b c) 6,
      sextet (bits a b c) 0] ++ t) =
        (a :: b :: c :: (decodeLoop 0 0 t).1, (decodeLoop 0 0 t).2) := by
  obtain ⟨hlt, hfirst, hsecond, hthird⟩ := bits_spec a b c
  have ha := a.toNat_lt
  generalize bits a b c = v at *
  have hv : (((0 + v / 2 ^ 18 % 64) * 64 + v / 2 ^ 12 % 64) * 64 + v / 2 ^ 6 % 64) * 64 +
      v / 2 ^ 0 % 64 = v := by omega
  simp only [List.cons_append, List.nil_append]
  rw [decodeLoop_sextet (by decide), decodeLoop_sextet (by decide), decodeLoop_sextet (by decide),
    sextet, decodeLoop_last (sextet_lt v 0), hv, ofNat_eq (c := a) (by omega), ofNat_eq hsecond,
    ofNat_eq hthird]
  rfl

theorem decodeLoop_one (t : Bytes) :
    decodeLoop 0 0 ([sextet (bits a 0 0) 18, sextet (bits a 0 0) 12, pad, pad] ++ t) =
      ([a], false) := by
  obtain ⟨hlt, hfirst, hsecond, hthird⟩ := bits_spec a 0 0
  have ha := a.toNat_lt
  rw [UInt8.toNat_zero] at hsecond
  generalize bits a 0 0 = v at *
  simp only [List.cons_append, List.nil_append]
  rw [decodeLoop_sextet (by decide), decodeLoop_sextet (by decide), decodeLoop, if_pos rfl,
    if_neg (by decide), if_pos rfl, ofNat_eq (c := a) (by omega)]

theorem decodeLoop_two (t : Bytes) :
    decodeLoop 0 0 ([sextet (bits a b 0) 18, sextet (bits a b 0) 12, sextet (bits a b 0) 6,
      pad] ++ t) =
      ([a, b], false) := by
  obtain ⟨hlt, hfirst, hsecond, hthird⟩ := bits_spec a b 0
  have ha := a.toNat_lt
  generalize bits a b 0 = v at *
  simp only [List.cons_append, List.nil_append]
  rw [decodeLoop_sextet (by decide), decodeLoop_sextet (by decide), decodeLoop_sextet (by decide),
    decodeLoop, if_pos rfl, if_neg (by decide), if_neg (by decide), if_pos rfl,
    ofNat_eq (c := a) (by omega), ofNat_eq (c := b) (by omega)]

end Group

section Encoded

variable {eol : Bytes} (heol : Terminates eol) (maxColumns : Nat)

include heol

theorem decodeLoop_encodeLoop (cols : Nat) (columns : Bool) (x : Bytes) :
    decodeLoop 0 0 (encodeLoop eol maxColumns cols columns x) = (x, false) := by
  fun_induction encodeLoop eol maxColumns cols columns x with
  | case1 cols columns a b c t v group hmax ih => 
      rw [decodeLoop_group, ih]
  | case2 cols columns a b c t v group hmax hfull ih =>
      rw [List.append_assoc, decodeLoop_group, decodeLoop_eol heol, ih]
  | case3 cols columns a b c t v group hmax hfull ih =>
      rw [decodeLoop_group, ih]
  | case4 cols columns rest hrest =>
      match rest with
      | [] =>
          have hend : Terminates (if columns ∧ 0 < cols then eol else []) := by
            split_ifs
            · exact heol
            · exact fun c hc => absurd hc List.not_mem_nil
          have hskip := decodeLoop_eol hend 0 0 []
          rw [List.append_nil] at hskip
          exact hskip
      | [a] => exact decodeLoop_one a _
      | [a, b] => exact decodeLoop_two a b _
      | a :: b :: c :: t => exact absurd rfl (hrest a b c t)

theorem clean_encodeLoop (cols : Nat) (columns : Bool) (x : Bytes) :
    (encodeLoop eol maxColumns cols columns x).all isClean := by
  have hsextet : ∀ v shift, isClean (sextet v shift) :=
    fun v shift => (letter_spec _ (sextet_lt v shift)).2.2.2
  have hpad : isClean pad := by decide
  have hclean : eol.all isClean := by
    rw [List.all_eq_true]
    exact fun c hc => (space_spec c (heol c hc).1 (heol c hc).2).2.2
  fun_induction encodeLoop eol maxColumns cols columns x with
  | case1 cols columns a b c t v group hmax ih => simp [group, hsextet, ih]
  | case2 cols columns a b c t v group hmax hfull ih => simp [group, hsextet, hclean, ih]
  | case3 cols columns a b c t v group hmax hfull ih => simp [group, hsextet, ih]
  | case4 cols columns rest hrest =>
      have hend : (if columns ∧ 0 < cols then eol else []).all isClean := by
        split_ifs
        · exact hclean
        · rfl
      have hfinal : (finalGroup rest).all isClean := by
        match rest with
        | [] => rfl
        | [a] => simp [finalGroup, hsextet, hpad]
        | [a, b] => simp [finalGroup, hsextet, hpad]
        | a :: b :: c :: t => exact absurd rfl (hrest a b c t)
      rw [List.all_append, hfinal, hend]
      rfl

/-- Every text comes back, without an error. -/
theorem decode_encode (x : Bytes) : decode (encode eol maxColumns x) = some (x, false) := by
  have hclean := clean_encodeLoop heol maxColumns 0 false x
  rw [decode, encode, taken_clean (List.all_eq_true.mp hclean), Option.map_some,
    decodeLoop_encodeLoop heol maxColumns 0 false x]

end Encoded

/-- What ends a line, by `u_line_terminator_len`. -/
def lineTerminator (len : Nat) : Bytes := if len = 2 then [13, 10] else [10]

theorem terminates_lineTerminator (len : Nat) : Terminates (lineTerminator len) := by
  rw [lineTerminator, Terminates]
  split_ifs
  · decide
  · decide

/-- Every text comes back from lines of any width, with either line terminator. -/
theorem decode_encode_lines (len maxColumns : Nat) (x : Bytes) :
    decode (encode (lineTerminator len) maxColumns x) = some (x, false) :=
  decode_encode (terminates_lineTerminator len) maxColumns x

theorem length_encodeLoop_le {eol : Bytes} (hlength : eol.length ≤ 2) (maxColumns cols : Nat)
    (columns : Bool) (x : Bytes) :
    (encodeLoop eol maxColumns cols columns x).length ≤ 2 * x.length + 4 := by
  fun_induction encodeLoop eol maxColumns cols columns x with
  | case1 cols columns a b c t v group hmax ih =>
      simp only [group, List.length_append, List.length_cons, List.length_nil]
      omega
  | case2 cols columns a b c t v group hmax hfull ih =>
      simp only [group, List.length_append, List.length_cons, List.length_nil]
      omega
  | case3 cols columns a b c t v group hmax hfull ih =>
      simp only [group, List.length_append, List.length_cons, List.length_nil]
      omega
  | case4 cols columns rest hrest =>
      have hend : (if columns ∧ 0 < cols then eol else []).length ≤ 2 := by
        split_ifs
        · exact hlength
        · exact Nat.zero_le _
      have hfinal : (finalGroup rest).length ≤ 2 * rest.length + 2 := by
        match rest with
        | [] => decide
        | [a] => simp [finalGroup]
        | [a, b] => simp [finalGroup]
        | a :: b :: c :: t => exact absurd rfl (hrest a b c t)
      rw [List.length_append]
      omega

end ULib.Base64
