import Mathlib.Data.List.TakeWhile
import ULib.NumberText
import ULib.XmlEncoding

/-!
`u_xml_decode` of `base/coder/cxml_coder.c`: the number of a reference is read
by `strtol` with base 0, and one character behind it is skipped.
-/

namespace ULib.XmlDecoding

open ULib.KeyComparison
open ULib.NumberText
open ULib.XmlEncoding
open ULib.EscapeCoding (quote isDigit isXdigit hexc2int toUpper peek forall_byte)
open ULib.JsonScan (digitsValue)

/-! ### u_xml_decode -/

/-- The loop over the text, behind which `n` more bytes are read. -/
def decodeLoop (n : Nat) : Nat → Bytes → Bytes
  | 0, _ => []
  | _ + 1, [] => []
  | fuel + 1, ch :: t =>
      if t.length < n then []
      else if ch ≠ ampersand then ch :: decodeLoop n fuel t
      else if amp.isPrefixOf t then ampersand :: decodeLoop n fuel (t.drop amp.length)
      else if lt.isPrefixOf t then less :: decodeLoop n fuel (t.drop lt.length)
      else if gt.isPrefixOf t then greater :: decodeLoop n fuel (t.drop gt.length)
      else if quot.isPrefixOf t then quote :: decodeLoop n fuel (t.drop quot.length)
      else if apos.isPrefixOf t then apostrophe :: decodeLoop n fuel (t.drop apos.length)
      else if t.head? = some sharp then
        let (number, input) := strtol0 t.tail
        UInt8.ofInt number :: decodeLoop n fuel input.tail
      else ch :: decodeLoop n fuel t

/-- `u_xml_decode`, for a text in front of the bytes `behind`. -/
def decode (s behind : Bytes) : Bytes := decodeLoop behind.length s.length (s ++ behind)

/-! ### What it should be -/

/-- No ampersand of the text stands in front of a sharp or of one of the names. -/
def NoReference (s : Bytes) : Prop :=
  ∀ t, ampersand :: t <:+ s → t.head? ≠ some sharp ∧ ∀ name ∈ names, ¬ name <+: t

/-- The text does not end within one of the names. -/
def NoneCutOff (s : Bytes) : Prop :=
  ∀ t, ampersand :: t <:+ s → ∀ name ∈ names, ¬ t <+: name

/-- What was encoded comes back, whatever stands behind it. -/
def ComesBack (s : Bytes) : Prop :=
  ∃ out, encode s = some out ∧ ∀ behind, decode out behind = s

/-- A character, and a numeric reference to one -/
inductive Item where
  | char (c : UInt8) (plain : c ≠ ampersand)
  | decimal (w : Bytes) (digits : ∀ c ∈ w, isDigit c)
      (value : 1 ≤ digitsValue w ∧ digitsValue w ≤ 255)
  | hexadecimal (w : Bytes) (digits : ∀ c ∈ w, isXdigit c)
      (value : 1 ≤ valueIn 16 w ∧ valueIn 16 w ≤ 255)

namespace Item

def text : Item → Bytes
  | .char c _ => [c]
  | .decimal w _ _ => ampersand :: sharp :: (w ++ [semicolon])
  | .hexadecimal w _ _ => ampersand :: sharp :: 'x'.toUInt8 :: (w ++ [semicolon])

def byte : Item → UInt8
  | .char c _ => c
  | .decimal w _ _ => UInt8.ofNat (digitsValue w)
  | .hexadecimal w _ _ => UInt8.ofNat (valueIn 16 w)

/-- What `strtol` reads as it is meant: no hexadecimal number, and no zero in front of one that is
not the same in octal. -/
def IsRead : Item → Prop
  | .char _ _ => True
  | .decimal w _ _ => IsDecimal w
  | .hexadecimal _ _ _ => False

end Item

/-- Each item is decoded to its byte, whatever stands behind the text. -/
def Decodes (items : List Item) : Prop :=
  ∀ behind, decode (items.flatMap Item.text) behind = items.map Item.byte

/-! ### The names -/

section Loop

variable {n fuel : Nat}

theorem decodeLoop_char {c : UInt8} (hc : c ≠ ampersand) {u : Bytes} (hu : n ≤ u.length) :
    decodeLoop n (fuel + 1) (c :: u) = c :: decodeLoop n fuel u := by
  rw [decodeLoop, if_neg (Nat.not_lt.mpr hu), if_pos hc]

/-- The characters and their names -/
def referenced : List (UInt8 × Bytes) :=
  [(ampersand, amp), (less, lt), (greater, gt), (quote, quot), (apostrophe, apos)]

theorem decodeLoop_name {c : UInt8} {name : Bytes} (h : (c, name) ∈ referenced) {u : Bytes}
    (hu : n ≤ u.length) :
    decodeLoop n (fuel + 1) (ampersand :: (name ++ u)) = c :: decodeLoop n fuel u := by
  have hlength : ¬ (name ++ u).length < n := by
    rw [List.length_append]
    omega
  rw [decodeLoop, if_neg hlength, if_neg (not_not.mpr rfl)]
  revert h
  simp only [referenced, List.mem_cons, Prod.mk.injEq, List.not_mem_nil, or_false]
  rintro (⟨rfl, rfl⟩ | ⟨rfl, rfl⟩ | ⟨rfl, rfl⟩ | ⟨rfl, rfl⟩ | ⟨rfl, rfl⟩) <;> rfl

theorem escaped_spec (c : UInt8) :
    escaped c = [c] ∨ ∃ name, (c, name) ∈ referenced ∧ escaped c = ampersand :: name := by
  rw [escaped]
  split_ifs with h1 h2 h3 h4
  · exact .inr ⟨quot, by rw [h1]; decide, rfl⟩
  · exact .inr ⟨apos, by rw [h2]; decide, rfl⟩
  · exact .inr ⟨lt, by rw [h3]; decide, rfl⟩
  · exact .inr ⟨gt, by rw [h4]; decide, rfl⟩
  · exact .inl rfl

theorem NoReference.tail {c : UInt8} {t : Bytes} (h : NoReference (c :: t)) : NoReference t :=
  fun u hu => h u (hu.trans (List.suffix_cons c t))

theorem NoReference.head {t : Bytes} (h : NoReference (ampersand :: t)) :
    opens ampersand t = false ∧ names.any (·.isPrefixOf t) = false := by
  obtain ⟨hsharp, hnames⟩ := h t (List.suffix_refl _)
  constructor
  · rw [opens, decide_eq_true rfl, Bool.true_and]
    exact decide_eq_false hsharp
  · rw [List.any_eq_false]
    exact fun name hname hprefix => hnames name hname (List.isPrefixOf_iff_prefix.mp hprefix)

/-- What is written for a text without references is decoded to the text. -/
theorem decodeLoop_encoded {s : Bytes} (hs : NoReference s) (behind : Bytes)
    (hfuel : (encoded false s).length ≤ fuel) :
    decodeLoop behind.length fuel (encoded false s ++ behind) = s := by
  induction s generalizing fuel with
  | nil =>
      cases fuel with
      | zero => rfl
      | succ fuel =>
          cases behind with
          | nil => rfl
          | cons d behind => exact if_pos (Nat.lt_succ_self behind.length)
  | cons c t ih =>
      have hrest : ∀ {w : Bytes}, (∀ {u : Bytes} {fuel : Nat}, behind.length ≤ u.length →
            decodeLoop behind.length (fuel + 1) (w ++ u) = c :: decodeLoop behind.length fuel u) →
          w ≠ [] → encoded false (c :: t) = w ++ encoded false t →
          decodeLoop behind.length fuel (encoded false (c :: t) ++ behind) = c :: t := by
        intro w hw hne heq
        have hpos := List.length_pos_of_ne_nil hne
        rw [heq, List.length_append] at hfuel
        obtain ⟨fuel, rfl⟩ := Nat.exists_eq_succ_of_ne_zero (show fuel ≠ 0 by omega)
        rw [heq, List.append_assoc, hw, ih hs.tail (by omega)]
        rw [List.length_append]
        omega
      by_cases hc : c = ampersand
      · subst hc
        obtain ⟨hopens, hany⟩ := hs.head
        refine hrest (w := ampersand :: amp) (fun hu => decodeLoop_name (by decide) hu)
          (List.cons_ne_nil _ _) ?_
        rw [encoded_ampersand, hopens, hany]
        rfl
      · rcases escaped_spec c with hescaped | ⟨name, hname, hescaped⟩
        · refine hrest (w := [c]) (fun hu => decodeLoop_char hc hu) (List.cons_ne_nil _ _) ?_
          rw [encoded_plain hc, hescaped]
        · refine hrest (w := ampersand :: name) (fun hu => decodeLoop_name hname hu)
            (List.cons_ne_nil _ _) ?_
          rw [encoded_plain hc, hescaped]

end Loop

/-- Where no reference begins, the text is closed if no name is cut off. -/
theorem closed_iff {s : Bytes} (hs : NoReference s) : closed false s ↔ NoneCutOff s := by
  induction s with
  | nil =>
      refine iff_of_true rfl fun t ht => ?_
      exact absurd (List.suffix_nil.mp ht) (List.cons_ne_nil _ _)
  | cons c t ih =>
      have hcut : NoneCutOff (c :: t) ↔
          (c = ampersand → ∀ name ∈ names, ¬ t <+: name) ∧ NoneCutOff t := by
        constructor
        · intro h
          refine ⟨?_, fun u hu => h u (hu.trans (List.suffix_cons c t))⟩
          rintro rfl
          exact h t (List.suffix_refl _)
        · rintro ⟨hhead, htail⟩ u hu
          rcases List.suffix_cons_iff.mp hu with heq | hu
          · obtain ⟨rfl, rfl⟩ := List.cons.inj heq
            exact hhead rfl
          · exact htail u hu
      rw [hcut, ← ih hs.tail]
      by_cases hc : c = ampersand
      · subst hc
        obtain ⟨hopens, hany⟩ := hs.head
        rw [closed_ampersand, hopens, Bool.and_eq_true, decided, List.all_eq_true]
        refine and_congr_left fun _ => ?_
        rw [List.any_eq_false] at hany
        have hname : ∀ name ∈ names,
            (name.isPrefixOf t || !t.isPrefixOf name) = true ↔ ¬ t <+: name := by
          intro name hname
          rw [Bool.eq_false_iff.mpr (hany name hname), Bool.false_or, Bool.not_eq_true',
            ← List.isPrefixOf_iff_prefix, Bool.not_eq_true]
        exact (forall₂_congr hname).trans (by simp)
      · rw [closed_plain hc, and_iff_right fun h => absurd h hc]

theorem comesBack_iff_noneCutOff {s : Bytes} (hs : NoReference s) : ComesBack s ↔ NoneCutOff s := by
  rw [← closed_iff hs]
  have hencode : encode s = if closed false s then some (encoded false s) else none :=
    encodeLoop_eq (Nat.le_refl _)
  rw [ComesBack, hencode]
  constructor
  · rintro ⟨out, hout, -⟩
    by_contra hclosed
    rw [if_neg hclosed] at hout
    cases hout
  · intro hclosed
    rw [if_pos hclosed]
    exact ⟨_, rfl, fun behind => decodeLoop_encoded hs behind (Nat.le_refl _)⟩

/-! ### The items -/

theorem endsNumber_semicolon (u : Bytes) : EndsNumber (semicolon :: u) := by
  intro c hc
  obtain rfl := Option.some.inj hc
  exact ⟨by decide, by decide⟩

theorem decodeLoop_sharp {n fuel : Nat} {u : Bytes} (hu : n ≤ u.length) :
    decodeLoop n (fuel + 1) (ampersand :: sharp :: u) =
      UInt8.ofInt (strtol0 u).1 :: decodeLoop n fuel (strtol0 u).2.tail := by
  have hlength : ¬ (sharp :: u).length < n := by
    rw [List.length_cons]
    omega
  rw [decodeLoop, if_neg hlength, if_neg (not_not.mpr rfl)]
  rfl

/-- In octal, a decimal number is at most as large, and smaller from 8 on. -/
theorem valueIn_eight {w : Bytes} (hw : ∀ c ∈ w, isDigit c)
    (hoctal : ∀ c ∈ w, (hexc2int c).toNat < 8) :
    valueIn 8 w ≤ digitsValue w ∧ (8 ≤ digitsValue w → valueIn 8 w < digitsValue w) := by
  induction w with
  | nil => decide
  | cons c w ih =>
      obtain ⟨hdigit, hrest⟩ := List.forall_mem_cons.mp hw
      obtain ⟨hlt, hrest'⟩ := List.forall_mem_cons.mp hoctal
      obtain ⟨hle, hstrict⟩ := ih hrest hrest'
      have hvalue := (digit_xdigit c hdigit).2
      rw [valueIn_cons, digitsValue_cons, ← hvalue]
      have hpow : (hexc2int c).toNat * 8 ^ w.length ≤ (hexc2int c).toNat * 10 ^ w.length :=
        Nat.mul_le_mul_left _ (Nat.pow_le_pow_left (by decide) _)
      refine ⟨Nat.add_le_add hpow hle, fun h8 => ?_⟩
      by_cases hlarge : 8 ≤ digitsValue w
      · exact Nat.add_lt_add_of_le_of_lt hpow (hstrict hlarge)
      · -- the first digit counts, and it is not the last one
        have hne : w.length ≠ 0 := by
          intro hzero
          rw [hzero] at h8
          obtain rfl := List.eq_nil_of_length_eq_zero hzero
          have hnil : digitsValue [] = 0 := rfl
          omega
        have hpos : 0 < (hexc2int c).toNat := by
          by_contra hzero
          rw [Nat.eq_zero_of_not_pos hzero] at h8
          omega
        have hpow' := Nat.mul_lt_mul_of_pos_left (Nat.pow_lt_pow_left (by decide : 8 < 10) hne) hpos
        omega

/-- A number that begins with a zero is read as far as its digits are octal. -/
theorem strtol0_octal {w rest : Bytes} (hw : ∀ c ∈ '0'.toUInt8 :: w, isDigit c)
    (hrest : EndsNumber rest)
    (hlt : valueIn 8 (digitsIn 8 ('0'.toUInt8 :: w ++ rest)) < 2 ^ 63) :
    (strtol0 ('0'.toUInt8 :: w ++ rest)).1 =
      (valueIn 8 (digitsIn 8 ('0'.toUInt8 :: w ++ rest)) : Int) := by
  rw [strtol0, signed_digits hw (List.cons_ne_nil _ _)]
  dsimp only
  rw [baseOf_zero (List.forall_mem_cons.mp hw).2 hrest]
  dsimp only
  have hne : digitsIn 8 ('0'.toUInt8 :: w ++ rest) =
      '0'.toUInt8 :: digitsIn 8 (w ++ rest) := rfl
  rw [hne] at hlt ⊢
  dsimp only
  rw [clampLong, if_neg Bool.false_ne_true, min_eq_left (by omega)]

/-- What octal digits are read of a decimal number from 8 on -/
theorem octal_lt {w rest : Bytes} (hw : ∀ c ∈ w, isDigit c) (hrest : EndsNumber rest)
    (hlarge : 8 ≤ digitsValue w) : valueIn 8 (digitsIn 8 (w ++ rest)) < digitsValue w := by
  have hread : digitsIn 8 (w ++ rest) <+: w := by
    have hstop : digitsIn 8 rest = [] := digitsIn_append (w := []) (by simp) hrest
    rw [digitsIn, List.takeWhile_append]
    split
    · rw [← digitsIn, hstop, List.append_nil]
    · exact List.takeWhile_prefix _
  have hoctal : ∀ c ∈ digitsIn 8 (w ++ rest), (hexc2int c).toNat < 8 := by
    intro c hc
    have hdigit := List.mem_takeWhile_imp hc
    rw [Bool.and_eq_true, decide_eq_true_eq] at hdigit
    exact hdigit.2
  obtain ⟨v, hv⟩ := hread
  have hdigits : ∀ c ∈ digitsIn 8 (w ++ rest), isDigit c :=
    fun c hc => hw c (by rw [← hv]; exact List.mem_append_left v hc)
  obtain ⟨hle, hstrict⟩ := valueIn_eight hdigits hoctal
  have hpow : 0 < 10 ^ v.length := Nat.pow_pos (by decide)
  have hmul := Nat.le_mul_of_pos_right (digitsValue (digitsIn 8 (w ++ rest))) hpow
  have hvalue := digitsValue_append (digitsIn 8 (w ++ rest)) v
  rw [hv] at hvalue
  omega

theorem ofInt_natCast (n : Nat) : UInt8.ofInt (n : Int) = UInt8.ofNat n := by
  have hcast : ((n : Int) % 2 ^ 8).toNat = n % 2 ^ 8 := by omega
  rw [UInt8.ofInt, hcast]
  exact UInt8.ofNat_mod_size

theorem ofNat_ne {a b : Nat} (hlt : a < b) (hle : b ≤ 255) : UInt8.ofNat a ≠ UInt8.ofNat b := by
  intro heq
  have hnat := congrArg UInt8.toNat heq
  rw [UInt8.toNat_ofNat', UInt8.toNat_ofNat', Nat.mod_eq_of_lt (by omega),
    Nat.mod_eq_of_lt (by omega)] at hnat
  omega

theorem ne_nil_of_value {w : Bytes} (h : 1 ≤ digitsValue w) : w ≠ [] := by
  rintro rfl
  exact absurd h (by decide)

section Items

variable {n fuel : Nat} {u : Bytes}

theorem Item.text_decimal {w : Bytes} (digits : ∀ c ∈ w, isDigit c)
    (value : 1 ≤ digitsValue w ∧ digitsValue w ≤ 255) (u : Bytes) :
    (Item.decimal w digits value).text ++ u = ampersand :: sharp :: (w ++ semicolon :: u) := by
  rw [Item.text, List.cons_append, List.cons_append, List.append_assoc, List.singleton_append]

theorem le_length_append {w : Bytes} (hu : n ≤ u.length) :
    n ≤ (w ++ semicolon :: u).length := by
  rw [List.length_append, List.length_cons]
  omega

theorem decodeLoop_item (item : Item) (h : item.IsRead) (hu : n ≤ u.length) :
    decodeLoop n (fuel + 1) (item.text ++ u) = item.byte :: decodeLoop n fuel u := by
  cases item with
  | char c plain => exact decodeLoop_char plain hu
  | decimal w digits value =>
      have hread := strtol0_decimal digits (ne_nil_of_value value.1) h (by omega)
        (endsNumber_semicolon u)
      rw [Item.text_decimal, decodeLoop_sharp (le_length_append hu), hread, ofInt_natCast]
      rfl
  | hexadecimal w digits value => exact h.elim

/-- The first byte that is not read as it is meant -/
theorem head_decodeLoop_item (item : Item) (h : ¬ item.IsRead) (hu : n ≤ u.length) :
    (decodeLoop n (fuel + 1) (item.text ++ u)).head? ≠ some item.byte := by
  cases item with
  | char c plain => exact absurd trivial h
  | decimal w digits value =>
      obtain ⟨hzero, hlarge⟩ := not_or.mp h
      cases w with
      | nil => exact absurd value.1 (by decide)
      | cons c w =>
          obtain rfl : c = '0'.toUInt8 := Option.some.inj (not_not.mp hzero)
          have hoctal := octal_lt digits (endsNumber_semicolon u) (by omega)
          have hread := strtol0_octal digits (endsNumber_semicolon u) (by omega)
          rw [Item.text_decimal, decodeLoop_sharp (le_length_append hu), hread, ofInt_natCast,
            List.head?_cons]
          exact fun heq => ofNat_ne hoctal value.2 (Option.some.inj heq)
  | hexadecimal w digits value =>
      have htext : (Item.hexadecimal w digits value).text ++ u =
          ampersand :: sharp :: (('x'.toUInt8 :: w) ++ semicolon :: u) := by
        rw [Item.text]
        simp
      have hread : (strtol0 (('x'.toUInt8 :: w) ++ semicolon :: u)).1 = 0 := rfl
      rw [htext, decodeLoop_sharp (le_length_append hu), hread, List.head?_cons]
      exact fun heq => ofNat_ne value.1 value.2 (Option.some.inj heq)

end Items

theorem decodeLoop_items {items : List Item} (behind : Bytes) {fuel : Nat}
    (hfuel : (items.flatMap Item.text).length ≤ fuel) :
    decodeLoop behind.length fuel (items.flatMap Item.text ++ behind) = items.map Item.byte ↔
      ∀ item ∈ items, item.IsRead := by
  induction items generalizing fuel with
  | nil =>
      refine iff_of_true ?_ (by simp)
      cases fuel with
      | zero => rfl
      | succ fuel =>
          cases behind with
          | nil => rfl
          | cons d behind => exact if_pos (Nat.lt_succ_self behind.length)
  | cons item items ih =>
      have hpos : 0 < item.text.length := by
        cases item <;> exact Nat.succ_pos _
      rw [List.flatMap_cons, List.length_append] at hfuel
      obtain ⟨fuel, rfl⟩ := Nat.exists_eq_succ_of_ne_zero (show fuel ≠ 0 by omega)
      have hbehind : behind.length ≤ (items.flatMap Item.text ++ behind).length := by
        rw [List.length_append]
        omega
      rw [List.flatMap_cons, List.append_assoc, List.map_cons, List.forall_mem_cons]
      by_cases hread : item.IsRead
      · have hrest := ih (show (items.flatMap Item.text).length ≤ fuel by omega)
        rw [decodeLoop_item item hread hbehind, and_iff_right hread, ← hrest]
        exact List.cons_inj_right _
      · refine iff_of_false (fun heq => ?_) fun hall => hread hall.1
        exact head_decodeLoop_item item hread hbehind (congrArg List.head? heq)

theorem decodes_iff_isRead (items : List Item) : Decodes items ↔ ∀ item ∈ items, item.IsRead := by
  constructor
  · exact fun h => (decodeLoop_items [] (Nat.le_refl _)).mp (h [])
  · exact fun h behind => (decodeLoop_items behind (Nat.le_refl _)).mpr h

/-- A text without references comes back if and only if no name is cut off at its end, and
references are decoded if and only if all are decimal and none begins with a zero, unless it is
at most seven. -/
theorem xml_decode_iff {s : Bytes} (hs : NoReference s) (items : List Item) :
    (ComesBack s ↔ NoneCutOff s) ∧ (Decodes items ↔ ∀ item ∈ items, item.IsRead) :=
  ⟨comesBack_iff_noneCutOff hs, decodes_iff_isRead items⟩

theorem noReference_sample : NoReference [less, ampersand, 'b'.toUInt8] := by
  intro t ht
  have hmem : ampersand :: t = [ampersand, 'b'.toUInt8] := by
    have hall : ∀ u ∈ [less, ampersand, 'b'.toUInt8].tails, u.head? = some ampersand →
        u = [ampersand, 'b'.toUInt8] := by decide
    exact hall _ ((List.mem_tails _ _).mpr ht) rfl
  obtain rfl := (List.cons.inj hmem).2
  decide

/-- `<&b`, and `a&#65;` -/
theorem xml_decode_sample : (ComesBack [less, ampersand, 'b'.toUInt8] ↔
      NoneCutOff [less, ampersand, 'b'.toUInt8]) ∧
    Decodes [.char 'a'.toUInt8 (by decide),
      .decimal ['6'.toUInt8, '5'.toUInt8] (by decide) (by decide)] := by
  obtain ⟨hcomesBack, hdecodes⟩ := xml_decode_iff noReference_sample
    [.char 'a'.toUInt8 (by decide),
      .decimal ['6'.toUInt8, '5'.toUInt8] (by decide) (by decide)]
  refine ⟨hcomesBack, hdecodes.mpr ?_⟩
  simp only [List.forall_mem_cons]
  exact ⟨trivial, .inl (by decide), nofun⟩

/-- `&` at the end of a text, `&#x41;`, whose letter is skipped, and `&#065;`, which is read in
octal -/
theorem not_xml_decode : (NoReference [ampersand] ∧ ¬ ComesBack [ampersand]) ∧
    (¬ Decodes [.hexadecimal ['4'.toUInt8, '1'.toUInt8] (by decide) (by decide)] ∧
      decode (ampersand :: sharp :: ['x'.toUInt8, '4'.toUInt8, '1'.toUInt8, semicolon]) [] =
        [0, '4'.toUInt8, '1'.toUInt8, semicolon]) ∧
    ¬ Decodes [.decimal ['0'.toUInt8, '6'.toUInt8, '5'.toUInt8] (by decide) (by decide)] ∧
      decode (ampersand :: sharp :: ['0'.toUInt8, '6'.toUInt8, '5'.toUInt8, semicolon]) [] =
        ['5'.toUInt8] := by
  refine ⟨⟨?_, ?_⟩, ⟨fun h => absurd (h []) (by decide +kernel), by decide +kernel⟩,
    fun h => absurd (h []) (by decide +kernel), by decide +kernel⟩
  · intro t ht
    have hnil := (List.suffix_cons_iff.mp ht).resolve_right (by simp)
    obtain rfl := (List.cons.inj hnil).2
    decide
  · rintro ⟨out, hout, -⟩
    have hnone : encode [ampersand] = none := rfl
    rw [hnone] at hout
    cases hout

end ULib.XmlDecoding
