import ULib.HashMapRefinement
import ULib.JsonScan

/-!
A JSON value and what is parsed of its text.
-/

namespace ULib.JsonRoundTrip

open ULib.KeyComparison
open ULib.HashMap
open ULib.HashMapShape
open ULib.HashMapOperations
open ULib.HashMapIteration
open ULib.HashMapRefinement
open ULib.EscapeCoding
open ULib.JsonValue
open ULib.JsonParser
open ULib.JsonScan

variable {ρ : Type*}

mutual

/-- Two values that are equal where the order of the members of an object does
not count, nor whether an integer that is not negative is signed. -/
inductive Same : UValue ρ → UValue ρ → Prop
  | null : Same .null .null
  | boolean (b : Bool) : Same (.boolean b) (.boolean b)
  | int (i : Int32) : Same (.int i) (.int i)
  | uint (n : UInt32) : Same (.uint n) (.uint n)
  | intUint {i : Int32} {n : UInt32} (h : i.toInt = n.toNat) : Same (.int i) (.uint n)
  | string (s : Bytes) : Same (.string s) (.string s)
  | array {items items' : List (UValue ρ)} (h : SameItems items items') :
      Same (.array items) (.array items')
  | object {members found members' : List (Bytes × UValue ρ)} (h : SameMembers members found)
      (hperm : found.Perm members') : Same (.object members) (.object members')

inductive SameItems : List (UValue ρ) → List (UValue ρ) → Prop
  | nil : SameItems [] []
  | cons {v w : UValue ρ} {items items' : List (UValue ρ)} (h : Same v w)
      (hrest : SameItems items items') : SameItems (v :: items) (w :: items')

inductive SameMembers : List (Bytes × UValue ρ) → List (Bytes × UValue ρ) → Prop
  | nil : SameMembers [] []
  | cons {v w : UValue ρ} {members members' : List (Bytes × UValue ρ)} (name : Bytes)
      (h : Same v w) (hrest : SameMembers members members') :
      SameMembers ((name, v) :: members) ((name, w) :: members')

end

mutual

/-- A value without doubles, whose objects bind every name once and can count
their members. -/
def isJson : UValue ρ → Bool
  | .real _ => false
  | .array items => areJson items
  | .object members =>
      (members.map Prod.fst).Nodup && members.length < 2 ^ 32 && areJsonMembers members
  | _ => true

def areJson : List (UValue ρ) → Bool
  | [] => true
  | v :: items => isJson v && areJson items

def areJsonMembers : List (Bytes × UValue ρ) → Bool
  | [] => true
  | (_, v) :: members => isJson v && areJsonMembers members

end

/-- A string whose end is found and which is read back from its escapes. -/
def readable (s : Bytes) : Bool := quotable s && decodable 0 [] s

mutual

/-- Whether all strings and member names of a value are readable. -/
def stringsReadable : UValue ρ → Bool
  | .string s => readable s
  | .array items => itemsReadable items
  | .object members => membersReadable members
  | _ => true

def itemsReadable : List (UValue ρ) → Bool
  | [] => true
  | v :: items => stringsReadable v && itemsReadable items

def membersReadable : List (Bytes × UValue ρ) → Bool
  | [] => true
  | (name, v) :: members => readable name && (stringsReadable v && membersReadable members)

end

/-- Whether a value at position `s` does not begin with a literal that is
longer than the way to it. -/
def farFrom (s : Nat) : UValue ρ → Bool
  | .null => 2 ≤ s
  | .boolean true => 2 ≤ s
  | .boolean false => 3 ≤ s
  | .array (v :: _) => farFrom (s + 1) v
  | _ => true

theorem farFrom_of_le {s : Nat} (hs : 3 ≤ s) (v : UValue ρ) : farFrom s v := by
  induction s, v using farFrom.induct with
  | case1 s => simp [farFrom]; omega
  | case2 s => simp [farFrom]; omega
  | case3 s => simp [farFrom]; omega
  | case4 s v tail ih =>
      rw [farFrom]
      exact ih (by omega)
  | case5 s v hnull htrue hfalse harray =>
      rw [farFrom]
      · exact hnull
      · exact htrue
      · exact hfalse
      · exact harray

/-- An array or an object, which is what `parse` takes. -/
def isRoot : UValue ρ → Bool
  | .array _ => true
  | .object _ => true
  | _ => false

/-- The values that begin with a literal too early for a root. -/
def beginsWithLiteral : UValue ρ → Bool
  | .array (.null :: _) => true
  | .array (.boolean _ :: _) => true
  | .array (.array (.boolean false :: _) :: _) => true
  | _ => false

section
variable {D : Doubles ρ} {doc : Bytes} {s : Nat}

theorem readValue_cons {c : UInt8} {t : Bytes} (h : doc.drop s = c :: t)
    (hc : isSpace c = false) (fuel : Nat) : readValue D doc (fuel + 1) s =
      if c = 0 then some (.null, s + 1)
      else if c = 'n'.toUInt8 then (skipToken doc (s + 1) nullText.tail).map fun s => (.null, s)
      else if c = 't'.toUInt8 then
        (skipToken doc (s + 1) trueText.tail).map fun s => (.boolean true, s)
      else if c = 'f'.toUInt8 then
        (skipToken doc (s + 1) falseText.tail).map fun s => (.boolean false, s)
      else if isDigit c ∨ c = '-'.toUInt8 then readNumber D doc s c (s + 1)
      else if c = quote then readString doc (s + 1)
      else if c = '['.toUInt8 then readItems D doc fuel (s + 1) []
      else if c = '{'.toUInt8 then readMembers D doc fuel (s + 1) (allocated 53)
      else none := by
  rw [readValue]
  simp only [skipSpaces_eq h hc, nextChar_eq h]

theorem literal_eq {c : UInt8} {token rest : Bytes} (v : UValue ρ)
    (h : doc.drop s = c :: (token ++ rest)) :
    (skipToken doc (s + 1) token).map (fun s => (v, s)) =
      if token.length ≤ s + 1 then some (v, s + (token.length + 1)) else none := by
  rw [skipToken_eq (drop_cons h)]
  split_ifs
  · rw [Option.map_some]
    congr 2
    omega
  · rfl

theorem readValue_null {rest : Bytes} (h : doc.drop s = nullText ++ rest) (fuel : Nat) :
    readValue D doc (fuel + 1) s = if 3 ≤ s + 1 then some (.null, s + 4) else none :=
  (readValue_cons h rfl fuel).trans (literal_eq .null h)

theorem readValue_true {rest : Bytes} (h : doc.drop s = trueText ++ rest) (fuel : Nat) :
    readValue D doc (fuel + 1) s = if 3 ≤ s + 1 then some (.boolean true, s + 4) else none :=
  (readValue_cons h rfl fuel).trans (literal_eq (.boolean true) h)

theorem readValue_false {rest : Bytes} (h : doc.drop s = falseText ++ rest) (fuel : Nat) :
    readValue D doc (fuel + 1) s = if 4 ≤ s + 1 then some (.boolean false, s + 5) else none :=
  (readValue_cons h rfl fuel).trans (literal_eq (.boolean false) h)

theorem readValue_string {x rest : Bytes} (h : doc.drop s = quote :: (escaped x ++ quote :: rest))
    (hx : readable x) (fuel : Nat) :
    readValue D doc (fuel + 1) s = some (.string x, s + (escaped x).length + 2) := by
  rw [readable, Bool.and_eq_true] at hx
  rw [readValue_cons h rfl]
  have hq : peek doc (s + 1 - 1) = quote := peek_of_drop h
  show readString doc (s + 1) = _
  rw [readString_eq hq (drop_cons h) hx.1 hx.2]
  congr 2
  omega

theorem readValue_array {t : Bytes} (h : doc.drop s = '['.toUInt8 :: t) (fuel : Nat) :
    readValue D doc (fuel + 1) s = readItems D doc fuel (s + 1) [] :=
  readValue_cons h rfl fuel

theorem readValue_object {t : Bytes} (h : doc.drop s = '{'.toUInt8 :: t) (fuel : Nat) :
    readValue D doc (fuel + 1) s = readMembers D doc fuel (s + 1) (allocated 53) :=
  readValue_cons h rfl fuel

theorem inNumber_not_space : ∀ c, inNumber c → isSpace c = false := forall_byte (by decide +kernel)

/-- A number, with its first byte in front. -/
theorem readValue_number {c : UInt8} {w rest : Bytes} (h : doc.drop s = c :: (w ++ rest))
    (hc : inNumber c) (hw : ∀ d ∈ w, inNumber d) (hrest : Ends rest) (fuel : Nat) :
    readValue D doc (fuel + 1) s =
      some (if c = '-'.toUInt8 then .int (Int32.ofInt (strtol (c :: (w ++ rest))))
        else .uint (UInt32.ofNat (strtoul (c :: (w ++ rest)))), s + (c :: w).length) := by
  have hfirst : ∀ c, inNumber c → isSpace c = false ∧ c ≠ 0 ∧ c ≠ 'n'.toUInt8 ∧
      c ≠ 't'.toUInt8 ∧ c ≠ 'f'.toUInt8 := fun c hc =>
    ⟨inNumber_not_space c hc, ne_of_class hc (by decide), ne_of_class hc (by decide),
      ne_of_class hc (by decide), ne_of_class hc (by decide)⟩
  obtain ⟨hspace, h0, hn, ht, hf⟩ := hfirst c hc
  have hnumber : isDigit c = true ∨ c = '-'.toUInt8 := by simpa [inNumber] using hc
  rw [readValue_cons h hspace, if_neg h0, if_neg hn, if_neg ht, if_neg hf, if_pos hnumber,
    readNumber_eq h hw hrest, List.length_cons]
  congr 2
  omega

theorem readValue_uint {n : UInt32} {rest : Bytes} (h : doc.drop s = printNat n.toNat ++ rest)
    (hrest : Ends rest) (fuel : Nat) : readValue D doc (fuel + 1) s =
      some (.uint n, s + (printNat n.toNat).length) := by
  obtain ⟨hne, hdigits, -⟩ := printNat_spec n.toNat
  have hvalue := strtoul_printNat (show n.toNat < 2 ^ 64 by
    have := n.toNat_lt
    omega) hrest
  cases hprint : printNat n.toNat with
  | nil => exact absurd hprint hne
  | cons c w =>
      rw [hprint] at h hdigits hvalue
      have hminus : ∀ c, isDigit c → c ≠ '-'.toUInt8 := fun c hc => ne_of_class hc (by decide)
      have hnumber : ∀ d ∈ c :: w, inNumber d := fun d hd => by simp [inNumber, hdigits d hd]
      rw [readValue_number h (hnumber c List.mem_cons_self)
        (fun d hd => hnumber d (List.mem_cons_of_mem c hd)) hrest,
        if_neg (hminus c (hdigits c List.mem_cons_self)), ← List.cons_append, hvalue,
        UInt32.ofNat_toNat]

/-- A negative integer is read as signed, any other as unsigned. -/
theorem readValue_int {i : Int32} {rest : Bytes} (h : doc.drop s = printInt i.toInt ++ rest)
    (hrest : Ends rest) (fuel : Nat) : ∃ w, readValue D doc (fuel + 1) s =
      some (w, s + (printInt i.toInt).length) ∧ Same (.int i : UValue ρ) w := by
  have hle := i.le_toInt
  have hlt := i.toInt_lt
  by_cases hi : i.toInt < 0
  · have hvalue := strtol_printInt hi (by omega) hrest
    obtain ⟨-, hdigits, -⟩ := printNat_spec i.toInt.natAbs
    have hprint : printInt i.toInt = '-'.toUInt8 :: printNat i.toInt.natAbs := if_pos hi
    rw [hprint] at h hvalue ⊢
    refine ⟨.int i, ?_, Same.int i⟩
    rw [readValue_number h rfl (fun d hd => by simp [inNumber, hdigits d hd]) hrest,
      if_pos rfl, ← List.cons_append, hvalue, Int32.ofInt_toInt]
  · have hprint : printInt i.toInt = printNat i.toInt.natAbs := if_neg hi
    have hnat : (UInt32.ofNat i.toInt.natAbs).toNat = i.toInt.natAbs :=
      UInt32.toNat_ofNat_of_lt' (by rw [UInt32.size]; omega)
    rw [hprint] at h ⊢
    rw [← hnat] at h
    refine ⟨.uint (UInt32.ofNat i.toInt.natAbs), ?_, Same.intUint (by rw [hnat]; omega)⟩
    rw [readValue_uint h hrest, hnat]

end

/-- A value begins neither with a space nor with what ends or separates values. -/
def Starts (w : Bytes) : Prop :=
  ∃ c t, w = c :: t ∧ isSpace c = false ∧ c ≠ 0 ∧ c ≠ ','.toUInt8 ∧ c ≠ ']'.toUInt8 ∧
    c ≠ '}'.toUInt8

theorem starts_number {w : Bytes} (hne : w ≠ []) (hw : ∀ c ∈ w, inNumber c) : Starts w := by
  have hfirst : ∀ c, inNumber c → isSpace c = false ∧ c ≠ 0 ∧ c ≠ ','.toUInt8 ∧
      c ≠ ']'.toUInt8 ∧ c ≠ '}'.toUInt8 := fun c hc =>
    ⟨inNumber_not_space c hc, ne_of_class hc (by decide), ne_of_class hc (by decide),
      ne_of_class hc (by decide), ne_of_class hc (by decide)⟩
  cases w with
  | nil => exact absurd rfl hne
  | cons c t => exact ⟨c, t, rfl, hfirst c (hw c List.mem_cons_self)⟩

theorem starts_printNat (n : Nat) : Starts (printNat n) := by
  obtain ⟨hne, hdigits, -⟩ := printNat_spec n
  exact starts_number hne fun c hc => by simp [inNumber, hdigits c hc]

theorem starts_text (D : Doubles ρ) {v : UValue ρ} (hv : isJson v) : Starts (text D v) := by
  cases v with
  | null => exact ⟨_, _, rfl, by decide⟩
  | boolean b => cases b <;> exact ⟨_, _, rfl, by decide⟩
  | int i =>
      rw [text, printInt]
      split_ifs
      · exact ⟨_, _, rfl, by decide⟩
      · exact starts_printNat _
  | uint n => exact starts_printNat _
  | real r => exact absurd hv (by simp [isJson])
  | string s => exact ⟨_, _, rfl, by decide⟩
  | array items => exact ⟨_, _, rfl, by decide⟩
  | object members => exact ⟨_, _, rfl, by decide⟩

theorem Starts.length_pos {w : Bytes} (h : Starts w) : 0 < w.length := by
  obtain ⟨c, t, rfl, -⟩ := h
  exact Nat.succ_pos _

/-- What stands in front of an item or a member. -/
def comma (first : Bool) : Bytes := if first then [] else [','.toUInt8]

theorem ends_items (D : Doubles ρ) (items : List (UValue ρ)) (rest : Bytes) :
    Ends (itemsText D false items ++ ']'.toUInt8 :: rest) := by
  cases items with
  | nil => exact ⟨_, _, rfl, Or.inr (Or.inl rfl)⟩
  | cons v items => exact ⟨_, _, rfl, Or.inl rfl⟩

theorem ends_members (D : Doubles ρ) (members : List (Bytes × UValue ρ)) (rest : Bytes) :
    Ends (membersText D false members ++ '}'.toUInt8 :: rest) := by
  cases members with
  | nil => exact ⟨_, _, rfl, Or.inr (Or.inr rfl)⟩
  | cons m members => exact ⟨_, _, rfl, Or.inl rfl⟩

section
variable {D : Doubles ρ} {doc : Bytes} {s : Nat}

/-- The byte in front of an item or a member, from where the value is read. -/
theorem behindComma_eq {first : Bool} {w t : Bytes} (h : doc.drop s = comma first ++ (w ++ t))
    (hw : Starts w) : ∃ c, nextChar doc (skipSpaces doc s) = (c, s + 1) ∧
      c ≠ ']'.toUInt8 ∧ c ≠ '}'.toUInt8 ∧ c ≠ 0 ∧
      behindComma c (s + 1) = s + (comma first).length := by
  cases first with
  | true =>
      obtain ⟨c, x, rfl, hspace, h0, hcomma, hbracket, hbrace⟩ := hw
      have hdrop : doc.drop s = c :: (x ++ t) := h
      rw [skipSpaces_eq hdrop hspace, nextChar_eq hdrop]
      exact ⟨c, rfl, hbracket, hbrace, h0, if_neg hcomma⟩
  | false =>
      have hdrop : doc.drop s = ','.toUInt8 :: (w ++ t) := h
      rw [skipSpaces_eq hdrop rfl, nextChar_eq hdrop]
      exact ⟨_, rfl, by decide, by decide, by decide, rfl⟩

theorem readItems_end {rest : Bytes} (h : doc.drop s = ']'.toUInt8 :: rest) (fuel : Nat)
    (items : List (UValue ρ)) :
    readItems D doc (fuel + 1) s items = some (.array items, s + 1) := by
  rw [readItems, skipSpaces_eq h rfl, nextChar_eq h]
  exact if_pos (Or.inl rfl)

theorem readItems_step {first : Bool} {w t : Bytes} (h : doc.drop s = comma first ++ (w ++ t))
    (hw : Starts w) (fuel : Nat) (items : List (UValue ρ)) :
    readItems D doc (fuel + 1) s items =
      (readValue D doc fuel (s + (comma first).length)).bind fun item =>
        readItems D doc fuel item.2 (items ++ [item.1]) := by
  obtain ⟨c, hnext, hbracket, -, h0, hback⟩ := behindComma_eq h hw
  rw [readItems]
  simp only [hnext, if_neg (not_or.mpr ⟨hbracket, h0⟩), hback]

theorem readMembers_end {rest : Bytes} (h : doc.drop s = '}'.toUInt8 :: rest) (fuel : Nat)
    (table : UHashMap (UValue ρ)) : readMembers D doc (fuel + 1) s table =
      (callForAllEntry table).map fun members => (.object members, s + 1) := by
  rw [readMembers, skipSpaces_eq h rfl, nextChar_eq h]
  exact if_pos (Or.inl rfl)

theorem readMembers_step {first : Bool} {name t : Bytes}
    (h : doc.drop s = comma first ++ ((quote :: (escaped name ++ [quote])) ++ ':'.toUInt8 :: t))
    (hname : readable name) (fuel : Nat) (table : UHashMap (UValue ρ)) :
    readMembers D doc (fuel + 2) s table =
      (readValue D doc (fuel + 1)
        (s + (comma first).length + (quote :: (escaped name ++ [quote])).length + 1)).bind
          fun item => (HashMap.insert table name item.1).bind fun table =>
            readMembers D doc (fuel + 1) item.2 table := by
  obtain ⟨c, hnext, -, hbrace, h0, hback⟩ := behindComma_eq h ⟨_, _, rfl, by decide⟩
  have hdrop := drop_append h
  have hcolon := drop_append hdrop
  have hdrop' : doc.drop (s + (comma first).length) =
      quote :: (escaped name ++ quote :: ':'.toUInt8 :: t) := by
    rw [hdrop]
    simp
  have hlen : s + (comma first).length + (escaped name).length + 2 =
      s + (comma first).length + (quote :: (escaped name ++ [quote])).length := by
    simp only [List.length_cons, List.length_append, List.length_nil]
    omega
  rw [readMembers]
  simp only [hnext, if_neg (not_or.mpr ⟨hbrace, h0⟩), hback, readValue_string hdrop' hname,
    Option.bind_some, hlen, skipSpaces_eq hcolon rfl, nextChar_eq hcolon, if_pos]

end

theorem SameMembers.names {members found : List (Bytes × UValue ρ)}
    (h : SameMembers members found) : found.map Prod.fst = members.map Prod.fst := by
  induction members generalizing found with
  | nil =>
      cases h
      rfl
  | cons m members ih =>
      cases h with
      | cons name h hrest => exact congrArg (name :: ·) (ih hrest)

/-- A table that holds what was found is enumerated as what was found. -/
theorem perm_of_enumerates {found entries : List (Bytes × UValue ρ)}
    {m : Bytes → Option (UValue ρ)} (hnodup : (found.map Prod.fst).Nodup)
    (henum : Enumerates entries m) (hm : ∀ k w, m k = some w ↔ (k, w) ∈ found) :
    found.Perm entries := by
  refine (List.perm_ext_iff_of_nodup hnodup.of_map henum.1.of_map).mpr ?_
  rintro ⟨k, w⟩
  rw [henum.2, hm]

section
variable {D : Doubles ρ} {doc : Bytes}

mutual

theorem readValue_text (v : UValue ρ) (fuel : Nat) {s : Nat} {rest : Bytes} (hv : isJson v)
    (hread : stringsReadable v) (h : doc.drop s = text D v ++ rest)
    (hrest : isRoot v ∨ Ends rest) (hfar : farFrom s v) (hfuel : (text D v).length ≤ fuel) :
    ∃ w, readValue D doc fuel s = some (w, s + (text D v).length) ∧ Same v w := by
  obtain ⟨fuel, rfl⟩ : ∃ n, fuel = n + 1 :=
    Nat.exists_eq_succ_of_ne_zero
      (Nat.ne_of_gt (Nat.lt_of_lt_of_le (starts_text D hv).length_pos hfuel))
  cases v with
  | null =>
      have hs : 2 ≤ s := by simpa [farFrom] using hfar
      exact ⟨.null, (readValue_null h fuel).trans (if_pos (by omega)), Same.null⟩
  | boolean b =>
      cases b with
      | true =>
          have hs : 2 ≤ s := by simpa [farFrom] using hfar
          exact ⟨.boolean true, (readValue_true h fuel).trans (if_pos (by omega)), Same.boolean _⟩
      | false =>
          have hs : 3 ≤ s := by simpa [farFrom] using hfar
          exact ⟨.boolean false, (readValue_false h fuel).trans (if_pos (by omega)),
            Same.boolean _⟩
  | int i => exact readValue_int h (hrest.resolve_left Bool.false_ne_true) fuel
  | uint n =>
      exact ⟨.uint n, readValue_uint h (hrest.resolve_left Bool.false_ne_true) fuel, Same.uint n⟩
  | real r => exact absurd hv (by simp [isJson])
  | string x =>
      have h' : doc.drop s = quote :: (escaped x ++ quote :: rest) := by
        rw [h, text]
        simp
      refine ⟨.string x, ?_, Same.string x⟩
      rw [readValue_string h' hread, text, List.length_cons, List.length_append]
      congr 2
  | array items =>
      have h' : doc.drop s = '['.toUInt8 :: (itemsText D true items ++ ']'.toUInt8 :: rest) := by
        rw [h, text]
        simp
      have hlen : (text D (.array items)).length = (itemsText D true items).length + 2 := by
        simp [text]
      rw [hlen] at hfuel ⊢
      have hfirst : ∀ v tl, items = v :: tl → farFrom (s + 1) v := by
        rintro v tl rfl
        exact hfar
      obtain ⟨ws, hws, hsame⟩ := readItems_text items true fuel (drop_cons h') (Nat.succ_pos s) hv
          hread
        hfirst (Nat.le_of_succ_le_succ hfuel) []
      refine ⟨.array ws, ?_, Same.array hsame⟩
      rw [readValue_array h', hws]
      congr 2
      omega
  | object members =>
      have h' : doc.drop s =
          '{'.toUInt8 :: (membersText D true members ++ '}'.toUInt8 :: rest) := by
        rw [h, text]
        simp
      have hlen : (text D (.object members)).length =
          (membersText D true members).length + 2 := by
        simp [text]
      rw [hlen] at hfuel ⊢
      simp only [isJson, Bool.and_eq_true, decide_eq_true_iff] at hv
      obtain ⟨⟨hnodup, hcount⟩, hv⟩ := hv
      obtain ⟨⟨chains, htable⟩, -⟩ :=
        keeps_allocated (β := UValue ρ) (show 0 < mallocNum 53 by decide)
      obtain ⟨found, entries, m, hread', hsame, henum, hm⟩ := readMembers_text members true fuel
        (drop_cons h') (Nat.succ_pos s) hv hread (Nat.le_of_succ_le_succ hfuel) htable hnodup
        (fun _ _ => rfl) ((Nat.zero_add _).symm ▸ hcount)
      have hperm : found.Perm entries := by
        refine perm_of_enumerates (hsame.names ▸ hnodup) henum ?_
        intro k w
        rw [hm]
        simp
      refine ⟨.object entries, ?_, Same.object hsame hperm⟩
      rw [readValue_object h', hread']
      congr 2
      omega

theorem readItems_text (items : List (UValue ρ)) (first : Bool) (fuel : Nat) {s : Nat}
    {rest : Bytes} (h : doc.drop s = itemsText D first items ++ ']'.toUInt8 :: rest) (hs : 1 ≤ s)
    (hv : areJson items) (hread : itemsReadable items)
    (hfar : ∀ v tl, items = v :: tl → if first then farFrom s v else 2 ≤ s)
    (hfuel : (itemsText D first items).length + 1 ≤ fuel) (acc : List (UValue ρ)) :
    ∃ ws, readItems D doc fuel s acc =
      some (.array (acc ++ ws), s + (itemsText D first items).length + 1) ∧
        SameItems items ws := by
  obtain ⟨fuel, rfl⟩ : ∃ n, fuel = n + 1 :=
    Nat.exists_eq_succ_of_ne_zero (Nat.ne_of_gt (Nat.lt_of_lt_of_le (Nat.succ_pos _) hfuel))
  cases items with
  | nil =>
      refine ⟨[], ?_, SameItems.nil⟩
      rw [readItems_end h, List.append_nil]
      rfl
  | cons v items =>
      rw [areJson, Bool.and_eq_true] at hv
      rw [itemsReadable, Bool.and_eq_true] at hread
      have h' : doc.drop s = comma first ++ (text D v ++ (itemsText D false items ++
          ']'.toUInt8 :: rest)) := by
        rw [h, itemsText, comma]
        simp
      have hlen : (itemsText D first (v :: items)).length =
          (comma first).length + (text D v).length + (itemsText D false items).length := by
        simp [itemsText, comma, Nat.add_assoc]
      have hpos := (starts_text D hv.1).length_pos
      have hdrop := drop_append h'
      have hfar' : farFrom (s + (comma first).length) v := by
        cases first with
        | true => exact hfar v items rfl
        | false =>
            have hs2 : 2 ≤ s := hfar v items rfl
            exact farFrom_of_le (Nat.succ_le_succ hs2) v
      have hfar'' : ∀ v' tl, items = v' :: tl →
          if false then farFrom (s + (comma first).length + (text D v).length) v'
          else 2 ≤ s + (comma first).length + (text D v).length := by
        intro _ _ _
        show 2 ≤ _
        omega
      rw [hlen] at hfuel ⊢
      obtain ⟨w, hw, hsame⟩ := readValue_text v fuel hv.1 hread.1 hdrop
        (Or.inr (ends_items D items rest)) hfar' (by omega)
      obtain ⟨ws, hws, hsames⟩ := readItems_text items false fuel (drop_append hdrop) (by omega)
        hv.2 hread.2 hfar'' (by omega) (acc ++ [w])
      refine ⟨w :: ws, ?_, SameItems.cons hsame hsames⟩
      rw [readItems_step h' (starts_text D hv.1), hw, Option.bind_some, hws]
      simp only [List.append_assoc, List.singleton_append]
      congr 2
      omega

theorem readMembers_text (members : List (Bytes × UValue ρ)) (first : Bool) (fuel : Nat)
    {s : Nat} {rest : Bytes} (h : doc.drop s = membersText D first members ++ '}'.toUInt8 :: rest)
    (hs : 1 ≤ s) (hv : areJsonMembers members) (hread : membersReadable members)
    (hfuel : (membersText D first members).length + 1 ≤ fuel)
    {table : UHashMap (UValue ρ)} {chains : Nat → List (Cell (UValue ρ))}
    {m : Bytes → Option (UValue ρ)} (htable : Represents table chains m)
    (hnodup : (members.map Prod.fst).Nodup) (hnew : ∀ p ∈ members, m p.1 = none)
    (hcount : table.length + members.length < 2 ^ 32) :
    ∃ found entries m', readMembers D doc fuel s table =
        some (.object entries, s + (membersText D first members).length + 1) ∧
      SameMembers members found ∧ Enumerates entries m' ∧
      ∀ k w, m' k = some w ↔ m k = some w ∨ (k, w) ∈ found := by
  obtain ⟨fuel, rfl⟩ : ∃ n, fuel = n + 1 :=
    Nat.exists_eq_succ_of_ne_zero (Nat.ne_of_gt (Nat.lt_of_lt_of_le (Nat.succ_pos _) hfuel))
  cases members with
  | nil =>
      refine ⟨[], _, m, ?_, SameMembers.nil, Represents.enumerates htable, by simp⟩
      rw [readMembers_end h, callForAllEntry_spec htable.shape]
      rfl
  | cons p members =>
      obtain ⟨name, v⟩ := p
      rw [areJsonMembers, Bool.and_eq_true] at hv
      rw [membersReadable, Bool.and_eq_true, Bool.and_eq_true] at hread
      rw [List.map_cons, List.nodup_cons] at hnodup
      rw [List.length_cons] at hcount
      have h' : doc.drop s = comma first ++ ((quote :: (escaped name ++ [quote])) ++
          ':'.toUInt8 :: (text D v ++ (membersText D false members ++ '}'.toUInt8 :: rest))) := by
        rw [h, membersText, comma]
        simp
      have hlen : (membersText D first ((name, v) :: members)).length =
          (comma first).length + (quote :: (escaped name ++ [quote])).length + 1 +
            (text D v).length + (membersText D false members).length := by
        simp [membersText, comma, Nat.add_assoc]
        omega
      have hname : 2 ≤ (quote :: (escaped name ++ [quote])).length := by simp
      have hdrop := drop_cons (drop_append (drop_append h'))
      rw [hlen] at hfuel ⊢
      obtain ⟨fuel, rfl⟩ : ∃ n, fuel = n + 1 :=
        Nat.exists_eq_succ_of_ne_zero (by omega)
      obtain ⟨w, hw, hsame⟩ := readValue_text v (fuel + 1) hv.1 hread.2.1 hdrop
        (Or.inr (ends_members D members rest)) (farFrom_of_le (by omega) v) (by omega)
      have hnone := hnew (name, v) List.mem_cons_self
      obtain ⟨table', chains', hinsert, htable', -, hlength⟩ :=
        insert_spec htable name w (Or.inr (by omega))
      have hnew' : ∀ p ∈ members, Function.update m name (some w) p.1 = none := by
        intro p hp
        have hmem : p.1 ∈ members.map Prod.fst := List.mem_map_of_mem hp
        have hne : p.1 ≠ name := fun heq => hnodup.1 (heq ▸ hmem)
        rw [Function.update_of_ne hne]
        exact hnew p (List.mem_cons_of_mem _ hp)
      obtain ⟨found, entries, m', hrun, hsames, henum, hm⟩ := readMembers_text members false
        (fuel + 1) (drop_append hdrop) (by omega) hv.2 hread.2.2 (by omega) htable' hnodup.2 hnew'
        (by omega)
      refine ⟨(name, w) :: found, entries, m', ?_, SameMembers.cons name hsame hsames, henum, ?_⟩
      · rw [readMembers_step h' hread.1, hw, Option.bind_some, hinsert, Option.bind_some, hrun]
        congr 2
        omega
      · intro k w'
        rw [hm, List.mem_cons, Prod.mk.injEq]
        by_cases hk : k = name
        · subst hk
          rw [Function.update_self, hnone]
          simp [eq_comm]
        · rw [Function.update_of_ne hk]
          simp [hk]

end

/-- A literal that comes too early is not read, nor is what begins with it. -/
theorem readValue_early (v : UValue ρ) (fuel : Nat) {s : Nat} {rest : Bytes} (hv : isJson v)
    (h : doc.drop s = text D v ++ rest) (hfar : farFrom s v = false) :
    readValue D doc fuel s = none := by
  induction s, v using farFrom.induct generalizing fuel rest with
  | case1 s =>
      cases fuel with
      | zero => rw [readValue]
      | succ fuel =>
          have hs : s < 2 := by simpa [farFrom] using hfar
          exact (readValue_null h fuel).trans (if_neg (by omega))
  | case2 s =>
      cases fuel with
      | zero => rw [readValue]
      | succ fuel =>
          have hs : s < 2 := by simpa [farFrom] using hfar
          exact (readValue_true h fuel).trans (if_neg (by omega))
  | case3 s =>
      cases fuel with
      | zero => rw [readValue]
      | succ fuel =>
          have hs : s < 3 := by simpa [farFrom] using hfar
          exact (readValue_false h fuel).trans (if_neg (by omega))
  | case4 s v items ih =>
      simp only [isJson, areJson, Bool.and_eq_true] at hv
      have h' : doc.drop s = '['.toUInt8 :: (comma true ++ (text D v ++
          (itemsText D false items ++ ']'.toUInt8 :: rest))) := by
        rw [h, text, itemsText, comma]
        simp
      cases fuel with
      | zero => rw [readValue]
      | succ fuel =>
          rw [readValue_array h']
          cases fuel with
          | zero => rw [readItems]
          | succ fuel =>
              have hnone : readValue D doc fuel (s + 1 + (comma true).length) = none :=
                ih fuel hv.1 (drop_cons h') hfar
              rw [readItems_step (drop_cons h') (starts_text D hv.1), hnone]
              rfl
  | case5 s v hnull htrue hfalse harray =>
      rw [farFrom] at hfar
      · exact absurd hfar (by simp)
      · exact hnull
      · exact htrue
      · exact hfalse
      · exact harray

end

theorem farFrom_root {v : UValue ρ} (hroot : isRoot v) :
    farFrom 0 v = !beginsWithLiteral v := by
  match v, hroot with
  | .object _, _ => rfl
  | .array [], _ => rfl
  | .array (.null :: _), _ => rfl
  | .array (.boolean true :: _), _ => rfl
  | .array (.boolean false :: _), _ => rfl
  | .array (.int _ :: _), _ => rfl
  | .array (.uint _ :: _), _ => rfl
  | .array (.real _ :: _), _ => rfl
  | .array (.string _ :: _), _ => rfl
  | .array (.object _ :: _), _ => rfl
  | .array (.array [] :: _), _ => rfl
  | .array (.array (.null :: _) :: _), _ => rfl
  | .array (.array (.boolean true :: _) :: _), _ => rfl
  | .array (.array (.boolean false :: _) :: _), _ => rfl
  | .array (.array (.int _ :: _) :: _), _ => rfl
  | .array (.array (.uint _ :: _) :: _), _ => rfl
  | .array (.array (.real _ :: _) :: _), _ => rfl
  | .array (.array (.string _ :: _) :: _), _ => rfl
  | .array (.array (.object _ :: _) :: _), _ => rfl
  | .array (.array (.array [] :: _) :: _), _ => rfl
  | .array (.array (.array (v :: _) :: _) :: _), _ => exact farFrom_of_le (Nat.le_refl 3) v

theorem parse_root (D : Doubles ρ) {v : UValue ρ} (hroot : isRoot v) :
    parse D (text D v) =
      (readValue D (text D v) ((text D v).length + 1) 0).map Prod.fst := by
  cases v with
  | array items =>
      have h : (text D (.array items)).drop 0 =
          '['.toUInt8 :: (itemsText D true items ++ [']'.toUInt8]) := rfl
      rw [parse, skipSpaces_eq h rfl, peek_of_drop h]
      rfl
  | object members =>
      have h : (text D (.object members)).drop 0 =
          '{'.toUInt8 :: (membersText D true members ++ ['}'.toUInt8]) := rfl
      rw [parse, skipSpaces_eq h rfl, peek_of_drop h]
      rfl
  | null | boolean _ | int _ | uint _ | real _ | string _ => exact absurd hroot Bool.false_ne_true

/-- The value is written and read back. -/
def RoundTrips (D : Doubles ρ) (v : UValue ρ) : Prop :=
  ∃ w, parse D (outputText D v) = some w ∧ Same v w

/-- Stands for the functions on doubles where there are none. -/
def noDoubles : Doubles Unit :=
  { print := fun _ => []
    strtod := fun _ => () }

/-- `[-7,"a\n",{"k":null,"":[12]},false]`. -/
def mixed : UValue Unit :=
  .array [.int (-7), .string ['a'.toUInt8, 10],
    .object [(['k'.toUInt8], .null), ([], .array [.uint 12])], .boolean false]

end ULib.JsonRoundTrip
