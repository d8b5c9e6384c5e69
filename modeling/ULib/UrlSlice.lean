import ULib.UrlCoding

/-!
`u_url_encode` of `base/coder/curl_coder.c` by its table and its mask, and
`u_url_decode` of a slice: which bytes behind the slice the decoder looks at.
-/

namespace ULib.UrlSlice

open ULib.KeyComparison
open ULib.EscapeCoding (peek isAlnum isXdigit hexUpper forall_byte)
open ULib.RpcFraming (u_hex2int)
open ULib.UrlCoding

/-! ### u_url_encode -/

/-- `u_uri_encoded_char`: 0 for the unreserved bytes, 1 for those that are always escaped, 2 and 4
for the delimiters -/
def uriEncodedTable : Bytes :=
  List.replicate 32 1 ++
  [1, 4, 1, 2, 4, 1, 4, 4, 4, 4, 4, 4, 4, 0, 0, 2,
   0, 0, 0, 0, 0, 0, 0, 0, 0, 0, 2, 4, 1, 4, 1, 2,
   2, 0, 0, 0, 0, 0, 0, 0, 0, 0, 0, 0, 0, 0, 0, 0,
   0, 0, 0, 0, 0, 0, 0, 0, 0, 0, 0, 2, 1, 2, 1, 0,
   1, 0, 0, 0, 0, 0, 0, 0, 0, 0, 0, 0, 0, 0, 0, 0,
   0, 0, 0, 0, 0, 0, 0, 0, 0, 0, 0, 1, 1, 1, 0, 1] ++
  List.replicate 128 1

/-- `u_uri_encoded_char_mask` as it is set at the start -/
def uriEncodedCharMask : UInt8 := 1 ||| 2 ||| 4

/-- `strchr` in a C string, which finds its NUL too -/
def strchr (text : Bytes) (c : UInt8) : Bool := (text ++ [0]).contains c

/-- What is written for a byte; the extra characters may be missing. -/
def encodeCharBy (mask : UInt8) (extra : Option Bytes) (c : UInt8) : Bytes :=
  if c = 0x20 then [plus]
  else if uriEncodedTable.getD c.toNat 0 &&& mask ≠ 0 ∨ extra.any (strchr · c) then
    [percent, hexUpper ((c >>> 4) &&& 15), hexUpper (c % 16)]
  else [c]

/-- `u_url_encode` -/
def urlEncodeBy (mask : UInt8) (extra : Option Bytes) (s : Bytes) : Bytes :=
  s.flatMap (encodeCharBy mask extra)

/-- The table under its mask, read once from its start to its end -/
theorem map_uriEncodedTable :
    uriEncodedTable.map (fun v => decide (v &&& uriEncodedCharMask ≠ 0)) =
      (List.range 256).map fun n => uriEncodedChar (UInt8.ofNat n) := by
  decide +kernel

theorem uriEncodedChar_eq (c : UInt8) :
    uriEncodedChar c = decide (uriEncodedTable.getD c.toNat 0 &&& uriEncodedCharMask ≠ 0) := by
  have hlt : c.toNat < (List.range 256).length := by
    rw [List.length_range]
    exact c.toNat_lt
  have hlt' : c.toNat < uriEncodedTable.length := by
    have hlength := congrArg List.length map_uriEncodedTable
    rw [List.length_map, List.length_map] at hlength
    rwa [hlength]
  have hentry := congrArg (fun l => l[c.toNat]?) map_uriEncodedTable
  simp only [List.getElem?_map, List.getElem?_eq_getElem hlt, List.getElem?_eq_getElem hlt',
    Option.map_some, Option.some.injEq, List.getElem_range, UInt8.ofNat_toNat] at hentry
  rw [← hentry, List.getD_eq_getElem?_getD, List.getElem?_eq_getElem hlt', Option.getD_some]

/-- The NUL that `strchr` finds is escaped in any case. -/
theorem encodeCharBy_mask (extra : Option Bytes) (c : UInt8) :
    encodeCharBy uriEncodedCharMask extra c = encodeChar (extra.getD []) c := by
  have hcoded : (uriEncodedTable.getD c.toNat 0 &&& uriEncodedCharMask ≠ 0 ∨
      extra.any (strchr · c)) ↔ (uriEncodedChar c || (extra.getD []).contains c) := by
    rw [uriEncodedChar_eq, Bool.or_eq_true, decide_eq_true_iff]
    by_cases hzero : c = 0
    · subst hzero
      exact iff_of_true (.inl (by decide)) (.inl (by decide))
    · cases extra with
      | none => simp
      | some text => simp [strchr, hzero]
  rw [encodeCharBy, encodeChar]
  simp only [hcoded]

/-! ### Encoded texts -/

/-- `ALPHA`, `DIGIT`, `-`, `.`, `_` and `~` -/
def isUnreserved (c : UInt8) : Bool :=
  isAlnum c || c = '-'.toUInt8 || c = '.'.toUInt8 || c = '_'.toUInt8 || c = '~'.toUInt8

/-- Unreserved bytes, pluses and `%XX` -/
def isUrlText : Bytes → Bool
  | [] => true
  | c :: t =>
      if c = percent then
        match t with
        | a :: b :: t => isXdigit a && isXdigit b && isUrlText t
        | _ => false
      else (c = plus || isUnreserved c) && isUrlText t

theorem isUnreserved_of_plain : ∀ c : UInt8, uriEncodedChar c = false → isUnreserved c :=
  forall_byte (by decide +kernel)

theorem isUrlText_cons {c : UInt8} (hc : c ≠ percent) (t : Bytes) :
    isUrlText (c :: t) = ((c = plus || isUnreserved c) && isUrlText t) := by
  rw [isUrlText.eq_def]
  exact if_neg hc

theorem isUrlText_encode (extra s : Bytes) : isUrlText (urlEncode extra s) := by
  induction s with
  | nil => rfl
  | cons c s ih =>
      rw [urlEncode_cons, encodeChar]
      split_ifs with hspace hcoded
      · rw [List.singleton_append, isUrlText_cons (by decide), ih]
        rfl
      · obtain ⟨ha, hb, -⟩ := hex_digits c
        simp only [List.cons_append, List.nil_append, isUrlText, if_true, ha, hb, ih, Bool.and_true]
      · have huri : uriEncodedChar c = false := by
          simpa using fun h : uriEncodedChar c = true => hcoded (by simp [h])
        have hpercent : c ≠ percent := by
          rintro rfl
          exact absurd huri (by decide)
        rw [List.singleton_append, isUrlText_cons hpercent, isUnreserved_of_plain c huri, ih,
          Bool.or_true, Bool.true_and]

/-- Every text comes back, whatever characters are escaped in addition and whatever follows it in
memory, and it is written in unreserved bytes, pluses and `%XX`. -/
theorem url_roundTrip (extra : Option Bytes) (s rest : Bytes) :
    urlDecode (urlEncodeBy uriEncodedCharMask extra s ++ rest)
        (urlEncodeBy uriEncodedCharMask extra s).length = s ∧
      isUrlText (urlEncodeBy uriEncodedCharMask extra s) := by
  have hencode : urlEncodeBy uriEncodedCharMask extra s = urlEncode (extra.getD []) s := by
    rw [urlEncodeBy, urlEncode]
    congr 1
    funext c
    exact encodeCharBy_mask extra c
  rw [hencode]
  constructor
  · rw [urlDecode_escaped (isEscaped_encode _ s), decoded_encode]
  · exact isUrlText_encode _ s

/-! ### u_url_decode of a slice -/

/-- `0D%0A`, which is skipped behind a percent sign -/
def lineBreak : Bytes :=
  ['0'.toUInt8, 'D'.toUInt8, percent, '0'.toUInt8, 'A'.toUInt8]

/-- Whether the decoder looks at no byte behind the slice: at each percent sign that it reaches
two bytes follow, or a NUL does, and no line break is cut off where these are left out. -/
def contained (noLineBreak : Bool) : Nat → Bytes → Bool
  | 0, _ => true
  | _ + 1, [] => true
  | fuel + 1, c :: t =>
      if c ≠ percent then contained noLineBreak fuel t
      else if noLineBreak ∧ lineBreak.isPrefixOf t then contained noLineBreak fuel (t.drop 5)
      else if noLineBreak ∧ t.isPrefixOf lineBreak then false
      else
        match t with
        | [] => false
        | a :: t =>
            if a = 0 then contained noLineBreak fuel (a :: t)
            else
              match t with
              | [] => false
              | b :: t => contained noLineBreak fuel (if b = 0 then b :: t else t)

/-- `u_url_decode` of the slice `s` with `x` behind it in memory -/
def urlDecodeIn (noLineBreak : Bool) (s x : Bytes) : Bytes :=
  decodeLoop noLineBreak s.length (s ++ x) s.length

theorem peek_lineBreak (t : Bytes) :
    (peek t 0 = '0'.toUInt8 ∧ peek t 1 = 'D'.toUInt8 ∧ peek t 2 = percent ∧
      peek t 3 = '0'.toUInt8 ∧ peek t 4 = 'A'.toUInt8) ↔ lineBreak.isPrefixOf t := by
  have hd : (0 : UInt8) ≠ 'D'.toUInt8 := by decide
  have hpercent : (0 : UInt8) ≠ percent := by decide
  have hzero : (0 : UInt8) ≠ '0'.toUInt8 := by decide
  have ha : (0 : UInt8) ≠ 'A'.toUInt8 := by decide
  match t with
  | [] => decide
  | [_] => simp [peek, lineBreak, List.isPrefixOf, hd]
  | [_, _] => simp [peek, lineBreak, List.isPrefixOf, hpercent]
  | [_, _, _] => simp [peek, lineBreak, List.isPrefixOf, hzero]
  | [_, _, _, _] => simp [peek, lineBreak, List.isPrefixOf, ha]
  | a :: b :: c :: d :: e :: t =>
      simp [peek, lineBreak, List.isPrefixOf, eq_comm (a := a), eq_comm (a := b), eq_comm (a := c),
        eq_comm (a := d), eq_comm (a := e)]

/-- One round of the decoder at a percent sign -/
theorem decodeLoop_step (noLineBreak : Bool) (fuel : Nat) (t : Bytes) (n : Nat) :
    decodeLoop noLineBreak (fuel + 1) (percent :: t) (n + 1) =
      if noLineBreak ∧ lineBreak.isPrefixOf t then
        decodeLoop noLineBreak fuel (t.drop 5) (n - 5)
      else if peek t 0 = 0 then (u_hex2int [0, 0]).toUInt8 :: decodeLoop noLineBreak fuel t n
      else if peek t 1 = 0 then
        (u_hex2int [peek t 0, 0]).toUInt8 :: decodeLoop noLineBreak fuel (t.drop 1) (n - 1)
      else
        (u_hex2int [peek t 0, peek t 1]).toUInt8 ::
          decodeLoop noLineBreak fuel (t.drop 2) (n - 2) := by
  have hpeek : peek (percent :: t) 0 = percent := rfl
  have hbreak := peek_lineBreak t
  have hsub : n + 1 - 6 = n - 5 ∧ n + 1 - 2 = n - 1 ∧ n + 1 - 3 = n - 2 := by omega
  rw [decodeLoop, if_neg (Nat.succ_ne_zero n), hpeek, if_neg (by decide), if_pos rfl, hsub.1,
    hsub.2.1, hsub.2.2]
  simp only [← hbreak]
  rfl

theorem decodeLoop_zero (noLineBreak : Bool) (fuel : Nat) (t : Bytes) :
    decodeLoop noLineBreak fuel t 0 = [] := by
  cases fuel with
  | zero => rfl
  | succ fuel => rfl

/-! ### What the output depends on -/

section Slice

variable (noLineBreak : Bool)

/-- What is decoded from `s` does not depend on what stands behind it. -/
def Independent (fuel : Nat) (s : Bytes) : Prop :=
  ∀ x y, decodeLoop noLineBreak fuel (s ++ x) s.length =
    decodeLoop noLineBreak fuel (s ++ y) s.length

/-- One round goes from `s` to `s'`, whatever stands behind. -/
def Steps (fuel : Nat) (s out s' : Bytes) : Prop :=
  ∀ x, decodeLoop noLineBreak (fuel + 1) (s ++ x) s.length =
    out ++ decodeLoop noLineBreak fuel (s' ++ x) s'.length

variable {noLineBreak}

theorem Steps.independent_iff {fuel : Nat} {s out s' : Bytes}
    (h : Steps noLineBreak fuel s out s') :
    Independent noLineBreak (fuel + 1) s ↔ Independent noLineBreak fuel s' := by
  unfold Independent
  simp only [h _, List.append_cancel_left_eq]

theorem steps_byte {c : UInt8} (hc : c ≠ percent) (fuel : Nat) (t : Bytes) :
    Steps noLineBreak fuel (c :: t) [if c = plus then 0x20 else c] t :=
  fun x => decodeLoop_cons hc fuel (t ++ x) t.length

theorem steps_lineBreak {t : Bytes} (hline : noLineBreak) (hbreak : lineBreak.isPrefixOf t)
    (fuel : Nat) : Steps noLineBreak fuel (percent :: t) [] (t.drop 5) := by
  intro x
  rw [List.isPrefixOf_iff_prefix] at hbreak
  have hbehind : lineBreak.isPrefixOf (t ++ x) :=
    List.isPrefixOf_iff_prefix.mpr (hbreak.trans (List.prefix_append t x))
  have hlength : 5 ≤ t.length := hbreak.length_le
  rw [List.cons_append, List.length_cons, decodeLoop_step, if_pos ⟨hline, hbehind⟩,
    List.drop_append_of_le_length hlength, List.length_drop]
  rfl

/-- Neither a line break stands behind the percent sign nor the beginning of one. -/
def NoBreak (noLineBreak : Bool) (t : Bytes) : Prop :=
  ¬ (noLineBreak ∧ lineBreak.isPrefixOf t) ∧ ¬ (noLineBreak ∧ t.isPrefixOf lineBreak)

theorem NoBreak.append {t : Bytes} (h : NoBreak noLineBreak t) (x : Bytes) :
    ¬ (noLineBreak ∧ lineBreak.isPrefixOf (t ++ x)) := by
  rintro ⟨hline, hbreak⟩
  rw [List.isPrefixOf_iff_prefix] at hbreak
  rcases List.prefix_or_prefix_of_prefix hbreak (List.prefix_append t x) with hle | hle
  · exact h.1 ⟨hline, List.isPrefixOf_iff_prefix.mpr hle⟩
  · exact h.2 ⟨hline, List.isPrefixOf_iff_prefix.mpr hle⟩

theorem steps_nul {t : Bytes} (h : NoBreak noLineBreak (0 :: t)) (fuel : Nat) :
    Steps noLineBreak fuel (percent :: 0 :: t) [(u_hex2int [0, 0]).toUInt8] (0 :: t) := by
  intro x
  rw [List.cons_append, List.length_cons, decodeLoop_step, if_neg (h.append x)]
  rfl

theorem steps_hex {a b : UInt8} {t : Bytes} (h : NoBreak noLineBreak (a :: b :: t)) (ha : a ≠ 0)
    (fuel : Nat) :
    Steps noLineBreak fuel (percent :: a :: b :: t) [(u_hex2int [a, b]).toUInt8]
      (if b = 0 then b :: t else t) := by
  intro x
  have ha' : peek (a :: b :: t ++ x) 0 ≠ 0 := ha
  rw [List.cons_append, List.length_cons, decodeLoop_step, if_neg (h.append x), if_neg ha']
  by_cases hb : b = 0
  · subst hb
    rfl
  · have hb' : peek (a :: b :: t ++ x) 1 ≠ 0 := hb
    rw [if_neg hb', if_neg hb]
    rfl

/-- A slice that ends within a line break -/
theorem not_independent_break {t : Bytes} (hline : noLineBreak) (hbreak : t.isPrefixOf lineBreak)
    (hno : ¬ (noLineBreak ∧ lineBreak.isPrefixOf t)) (fuel : Nat) :
    ¬ Independent noLineBreak (fuel + 1) (percent :: t) := by
  intro h
  obtain ⟨x, hx⟩ := List.isPrefixOf_iff_prefix.mp hbreak
  have hlength : t.length ≤ 5 := (List.isPrefixOf_iff_prefix.mp hbreak).length_le
  have hfull : lineBreak.isPrefixOf (t ++ x) := by
    rw [hx]
    decide
  have heq := h x []
  rw [List.cons_append, List.cons_append, List.length_cons, decodeLoop_step,
    if_pos ⟨hline, hfull⟩, Nat.sub_eq_zero_of_le hlength, decodeLoop_zero, List.append_nil,
    decodeLoop_step, if_neg hno] at heq
  split_ifs at heq

/-- A slice that ends behind the percent sign -/
theorem not_independent_percent (hline : ¬ noLineBreak) (fuel : Nat) :
    ¬ Independent noLineBreak (fuel + 1) [percent] := by
  intro h
  have hno : ∀ x, ¬ (noLineBreak ∧ lineBreak.isPrefixOf x) := fun x h => hline h.1
  have hend : peek [] 0 = 0 := rfl
  have heq := h [] ['4'.toUInt8, '1'.toUInt8]
  rw [List.singleton_append, List.singleton_append, List.length_singleton, decodeLoop_step,
    if_neg (hno _), decodeLoop_step, if_neg (hno _), if_pos hend, if_neg (by decide),
    if_neg (by decide)] at heq
  exact absurd (List.cons.inj heq).1 (by decide)

/-- A slice that ends behind the first digit -/
theorem not_independent_digit {a : UInt8} (h : NoBreak noLineBreak [a]) (ha : a ≠ 0)
    (fuel : Nat) : ¬ Independent noLineBreak (fuel + 1) [percent, a] := by
  intro hindependent
  have hall : ∀ a : UInt8, (u_hex2int [a, '0'.toUInt8]).toUInt8 ≠
      (u_hex2int [a, '1'.toUInt8]).toUInt8 := forall_byte (by decide +kernel)
  have hdecode : ∀ b, b ≠ 0 → decodeLoop noLineBreak (fuel + 1) ([percent, a] ++ [b]) 2 =
      [(u_hex2int [a, b]).toUInt8] := by
    intro b hb
    have ha' : peek ([a] ++ [b]) 0 ≠ 0 := ha
    have hb' : peek ([a] ++ [b]) 1 ≠ 0 := hb
    rw [List.cons_append, decodeLoop_step, if_neg (h.append [b]), if_neg ha', if_neg hb',
      decodeLoop_zero]
    rfl
  have heq := hindependent ['0'.toUInt8] ['1'.toUInt8]
  rw [List.length_cons, List.length_singleton, hdecode _ (by decide), hdecode _ (by decide)] at heq
  exact hall a (List.cons.inj heq).1

theorem independent_iff {fuel : Nat} {s : Bytes} (hfuel : s.length ≤ fuel) :
    Independent noLineBreak fuel s ↔ contained noLineBreak fuel s := by
  induction fuel generalizing s with
  | zero => exact iff_of_true (fun _ _ => rfl) rfl
  | succ fuel ih =>
      cases s with
      | nil =>
          refine iff_of_true ?_ rfl
          intro x y
          rw [List.length_nil, decodeLoop_zero, decodeLoop_zero]
      | cons c t =>
          have ht : t.length ≤ fuel := Nat.le_of_succ_le_succ hfuel
          rw [contained.eq_def]
          dsimp only
          by_cases hc : c = percent
          · subst hc
            rw [if_neg (not_not.mpr rfl)]
            by_cases hbreak : noLineBreak ∧ lineBreak.isPrefixOf t
            · rw [if_pos hbreak, (steps_lineBreak hbreak.1 hbreak.2 fuel).independent_iff]
              exact ih (Nat.le_trans (List.drop_sublist 5 t).length_le ht)
            · rw [if_neg hbreak]
              by_cases hwithin : noLineBreak ∧ t.isPrefixOf lineBreak
              · rw [if_pos hwithin]
                exact iff_of_false (not_independent_break hwithin.1 hwithin.2 hbreak fuel)
                  Bool.false_ne_true
              · have hno : NoBreak noLineBreak t := ⟨hbreak, hwithin⟩
                rw [if_neg hwithin]
                match t, ht, hno with
                | [], _, hno =>
                    have hline : ¬ noLineBreak := fun hline => hno.2 ⟨hline, rfl⟩
                    exact iff_of_false (not_independent_percent hline fuel) Bool.false_ne_true
                | [a], ht, hno =>
                    by_cases ha : a = 0
                    · subst ha
                      rw [(steps_nul hno fuel).independent_iff, ih ht]
                      rfl
                    · dsimp only
                      rw [if_neg ha]
                      exact iff_of_false (not_independent_digit hno ha fuel) Bool.false_ne_true
                | a :: b :: t, ht, hno =>
                    dsimp only
                    by_cases ha : a = 0
                    · subst ha
                      rw [(steps_nul hno fuel).independent_iff, ih ht, if_pos rfl]
                    · have hshort : (if b = 0 then b :: t else t).length ≤ fuel := by
                        simp only [List.length_cons] at ht
                        split_ifs
                        · rw [List.length_cons]
                          omega
                        · omega
                      rw [(steps_hex hno ha fuel).independent_iff, ih hshort, if_neg ha]
          · rw [if_pos hc, (steps_byte hc fuel t).independent_iff, ih ht]

end Slice

/-- What is decoded from a slice depends on nothing behind it if and only if the decoder looks at
nothing there. -/
theorem urlDecode_slice_iff (noLineBreak : Bool) (s : Bytes) :
    (∀ x y, urlDecodeIn noLineBreak s x = urlDecodeIn noLineBreak s y) ↔
      contained noLineBreak s.length s :=
  independent_iff (Nat.le_refl _)

/-- `%` in front of NUL and in front of `41`, and `%0D` in front of NUL and in front of `%0A` -/
theorem not_urlDecode_slice :
    urlDecodeIn false [percent] [] ≠ urlDecodeIn false [percent] ['4'.toUInt8, '1'.toUInt8] ∧
      urlDecodeIn true [percent, '0'.toUInt8, 'D'.toUInt8] [] ≠
        urlDecodeIn true [percent, '0'.toUInt8, 'D'.toUInt8]
          [percent, '0'.toUInt8, 'A'.toUInt8] := by
  decide

end ULib.UrlSlice
