import Mathlib.Data.List.TakeWhile
import ULib.NumberText
import ULib.UrlText

/-!
The tokens of `utility/services.cpp`: data, a time and a digest of both, in
hex. What is read back comes from the client. The texts are shorter than 2^31
bytes.
-/

namespace ULib.SessionToken

open ULib.KeyComparison
open ULib.EscapeCoding
open ULib.JsonScan
open ULib.NumberText
open ULib.UrlText

/-! ### Hex -/

def hexLower (d : UInt8) : UInt8 := if d < 10 then '0'.toUInt8 + d else 'a'.toUInt8 + (d - 10)

/-- `u_hexdump_encode` -/
def hexdumpEncode (s : Bytes) : Bytes :=
  s.flatMap fun c : UInt8 => [hexLower ((c >>> 4) &&& 15), hexLower (c &&& 15)]

/-- `u_hexdump_decode`, of a text with a null byte behind it. -/
def hexdumpDecode : Bytes → Bytes
  | [] => []
  | [a] => [(hexc2int a <<< 4) ||| hexc2int 0]
  | a :: b :: t => ((hexc2int a <<< 4) ||| hexc2int b) :: hexdumpDecode t

theorem hexdumpDecode_encode (s : Bytes) : hexdumpDecode (hexdumpEncode s) = s := by
  have hbyte : ∀ c : UInt8, (hexc2int (hexLower ((c >>> 4) &&& 15)) <<< 4) |||
      hexc2int (hexLower (c &&& 15)) = c := forall_byte (by decide +kernel)
  induction s with
  | nil => rfl
  | cons c s ih =>
      have hencode : hexdumpEncode (c :: s) =
          hexLower ((c >>> 4) &&& 15) :: hexLower (c &&& 15) :: hexdumpEncode s := rfl
      rw [hencode, hexdumpDecode, hbyte, ih]

theorem length_hexdumpEncode (s : Bytes) : (hexdumpEncode s).length = 2 * s.length := by
  induction s with
  | nil => rfl
  | cons c s ih =>
      have hencode : hexdumpEncode (c :: s) =
          hexLower ((c >>> 4) &&& 15) :: hexLower (c &&& 15) :: hexdumpEncode s := rfl
      rw [hencode, List.length_cons, List.length_cons, ih, List.length_cons]
      omega

/-! ### Tokens -/

/-- HMAC-MD5 with the key of the server. -/
structure Hmac where
  digest : Bytes → Bytes
  length_digest : ∀ t, (digest t).length = 16

/-- `%010ld` -/
def printExpire (expire : Int) : Bytes :=
  if expire < 0 then '-'.toUInt8 :: padded 9 expire.natAbs else padded 10 expire.natAbs

/-- What is signed. -/
def tokenText (data : Bytes) (expire : Int) : Bytes :=
  data ++ ampersand :: (printExpire expire ++ [ampersand])

def generateToken (H : Hmac) (data : Bytes) (expire : Int) : Bytes :=
  hexdumpEncode (tokenText data expire ++ H.digest (tokenText data expire))

/-- `%[^&]` of a text that ends at its first null byte. -/
def scanData (token : Bytes) : Bytes := token.takeWhile fun c => c ≠ ampersand && c ≠ 0

/-- The time, where both fields of `%[^&]&%ld&` are scanned. -/
def scanExpire (token : Bytes) : Option Int :=
  match scanData token with
  | [] => none
  | data =>
      match token.drop data.length with
      | [] => none
      | c :: t => if c = ampersand then scanLong t else none

/-- The bytes in memory from the start of a token on: behind its null byte come others. -/
def memory (token : Bytes) (behind : Nat → UInt8) (i : Nat) : UInt8 :=
  if i < token.length then peek token i
  else if i = token.length then 0
  else behind (i - token.length - 1)

def readMemory (m : Nat → UInt8) (start n : Nat) : Bytes := (List.range n).map fun i =>
    m (start + i)

/-- A text of which the first bytes are overwritten, its size being the same. -/
def overwritten (text field : Bytes) : Bytes :=
  if field = [] then text else (field ++ 0 :: text.drop (field.length + 1)).take text.length

structure Answer where
  accepted : Bool
  data : Bytes
  expire : Int
  /-- The end of what is looked at, from the start of the token. -/
  inspected : Nat
  deriving DecidableEq, Repr

section

variable (H : Hmac) (now : Int) (behind : Nat → UInt8) (capacity : Nat)

/-- `getTokenData` with the data and the time as they were before; `none` where more is stored
in the buffer of the data than it has room for. -/
def getTokenData (data : Bytes) (expire : Int) (value : Bytes) : Option Answer :=
  if 28 < value.length then
    let token := hexdumpDecode value
    let field := scanData token
    -- a null byte is stored too, for which there is always room
    if capacity < field.length then none
    else
      match scanExpire token with
      | none => some ⟨false, overwritten data field, 0, token.length⟩
      | some expire =>
          let m := memory token behind
          let sz := field.length + 1 + 10 + 1
          let hmac := H.digest (readMemory m 0 sz)
          some ⟨hmac = readMemory m sz 16 && (expire = 0 || now < expire), field, expire, sz + 16⟩
  else some ⟨false, data, expire, 0⟩

/-! ### What is promised -/

/-- The token of data and a time. -/
def IsToken (data : Bytes) (expire : Int) (token : Bytes) : Prop :=
  data ≠ [] ∧ ampersand ∉ data ∧ 0 ∉ data ∧ 0 ≤ expire ∧ expire ≤ 9999999999 ∧
    token = tokenText data expire ++ H.digest (tokenText data expire)

instance (data : Bytes) (expire : Int) (token : Bytes) : Decidable (IsToken H data expire token) :=
  inferInstanceAs (Decidable (_ ∧ _))

/-- Nothing is stored past the end of the buffer, nothing is looked at behind the token, and
only tokens are accepted. -/
def Sound (data : Bytes) (expire : Int) (value : Bytes) : Prop :=
  match getTokenData H now behind capacity data expire value with
  | none => False
  | some a => a.inspected ≤ (hexdumpDecode value).length ∧
      (a.accepted = true → IsToken H a.data a.expire (hexdumpDecode value))

instance (data : Bytes) (expire : Int) (value : Bytes) :
    Decidable (Sound H now behind capacity data expire value) :=
  match h : getTokenData H now behind capacity data expire value with
  | none => isFalse fun hsound => by rwa [Sound, h] at hsound
  | some a => decidable_of_iff (a.inspected ≤ (hexdumpDecode value).length ∧
      (a.accepted = true → IsToken H a.data a.expire (hexdumpDecode value))) (by rw [Sound, h])

/-- The first twelve bytes behind the data are signed by the sixteen behind them. -/
def IsSigned (token : Bytes) : Prop :=
  H.digest (token.take ((scanData token).length + 12)) =
    (token.drop ((scanData token).length + 12)).take 16

/-- Behind the data come ten digits, an `&` and sixteen bytes, and nothing else. -/
def IsExact (token : Bytes) : Prop :=
  ∃ digits hmac, token = scanData token ++ ampersand :: (digits ++ ampersand :: hmac) ∧
    digits.length = 10 ∧ (∀ c ∈ digits, isDigit c) ∧ hmac.length = 16

/-- A value whose data there is room for, and which has no time or is long enough and, where
it would be accepted, is exact. -/
def Harmless (value : Bytes) : Prop :=
  28 < value.length →
    (scanData (hexdumpDecode value)).length ≤ capacity ∧
      ∀ expire, scanExpire (hexdumpDecode value) = some expire →
        (scanData (hexdumpDecode value)).length + 28 ≤ (hexdumpDecode value).length ∧
          (IsSigned H (hexdumpDecode value) → expire = 0 ∨ now < expire →
            IsExact (hexdumpDecode value))

end

/-! ### What is scanned -/

theorem scanData_append {data : Bytes} (hampersand : ampersand ∉ data) (hzero : 0 ∉ data)
    (t : Bytes) : scanData (data ++ ampersand :: t) = data := by
  have hdata : ∀ c ∈ data, (c ≠ ampersand && c ≠ 0 : Bool) = true := by
    intro c hc
    have hne : c ≠ ampersand := fun h => hampersand (h ▸ hc)
    have hne' : c ≠ 0 := fun h => hzero (h ▸ hc)
    simp [hne, hne']
  rw [scanData, List.takeWhile_append_of_pos hdata, List.takeWhile_cons_of_neg (by simp),
    List.append_nil]

theorem scanExpire_append {data : Bytes} (hne : data ≠ []) (hampersand : ampersand ∉ data)
    (hzero : 0 ∉ data) (t : Bytes) : scanExpire (data ++ ampersand :: t) = scanLong t := by
  rw [scanExpire, scanData_append hampersand hzero]
  cases data with
  | nil => exact absurd rfl hne
  | cons c data =>
      dsimp only
      rw [List.drop_left]
      exact if_pos rfl

theorem not_mem_scanData (token : Bytes) : ampersand ∉ scanData token ∧ 0 ∉ scanData token := by
  have hmem : ∀ c ∈ scanData token, c ≠ ampersand ∧ c ≠ 0 := by
    intro c hc
    simpa using List.mem_takeWhile_imp hc
  exact ⟨fun h => (hmem _ h).1 rfl, fun h => (hmem _ h).2 rfl⟩

theorem of_scanExpire {token : Bytes} {expire : Int} (h : scanExpire token = some expire) :
    scanData token ≠ [] ∧
      ∃ t, token = scanData token ++ ampersand :: t ∧ scanLong t = some expire := by
  have hsplit : scanData token ++ token.drop (scanData token).length = token :=
    List.prefix_iff_eq_append.mp (List.takeWhile_prefix _)
  rw [scanExpire] at h
  cases hdata : scanData token with
  | nil =>
      rw [hdata] at h
      cases h
  | cons c data =>
      rw [hdata] at h
      dsimp only at h
      refine ⟨List.cons_ne_nil _ _, ?_⟩
      rw [hdata] at hsplit
      cases hdrop : token.drop (c :: data).length with
      | nil =>
          rw [hdrop] at h
          cases h
      | cons d t =>
          rw [hdrop] at h hsplit
          dsimp only at h
          split_ifs at h with hd
          exact ⟨t, hd ▸ hsplit.symm, h⟩

theorem readMemory_token (token : Bytes) (behind : Nat → UInt8) {start n : Nat}
    (h : start + n ≤ token.length) :
    readMemory (memory token behind) start n = (token.drop start).take n := by
  refine List.ext_getElem ?_ fun i hi hi' => ?_
  · simp [readMemory]
    omega
  · simp only [readMemory, List.length_map, List.length_range] at hi
    have hlt : start + i < token.length := by omega
    simp [readMemory, memory, hlt, peek]

theorem tokenText_append (data : Bytes) {expire : Int} (h : 0 ≤ expire) (t : Bytes) :
    tokenText data expire ++ t =
      data ++ ampersand :: (padded 10 expire.natAbs ++ ampersand :: t) := by
  have hexpire : printExpire expire = padded 10 expire.natAbs := if_neg (by omega)
  simp [tokenText, hexpire]

section

variable {H : Hmac} {token : Bytes} {expire : Int}

theorem isExact_of_isToken (h : IsToken H (scanData token) expire token) : IsExact token := by
  obtain ⟨-, -, -, hnonneg, hle, htoken⟩ := h
  rw [tokenText_append _ hnonneg] at htoken
  obtain ⟨hwidth, hdigits, -⟩ := @padded_spec 10 expire.natAbs (by decide) (by omega)
  exact ⟨_, _, htoken, hwidth, hdigits, H.length_digest _⟩

theorem eq_signed {text hmac : Bytes} (htoken : token = text ++ hmac) (hlength : hmac.length = 16)
    (h : H.digest (token.take text.length) = (token.drop text.length).take 16) :
    token = text ++ H.digest text := by
  subst htoken
  rw [List.take_left, List.drop_left, ← hlength, List.take_length] at h
  rw [h]

theorem isToken_of_isExact (hscan : scanExpire token = some expire) (hsigned : IsSigned H token)
    (h : IsExact token) : IsToken H (scanData token) expire token := by
  obtain ⟨digits, hmac, htoken, hlength, hdigits, hsixteen⟩ := h
  obtain ⟨hne, t, ht, hlong⟩ := of_scanExpire hscan
  have hdigits_ne : digits ≠ [] := List.ne_nil_of_length_eq_add_one hlength
  have hvalue := digitsValue_lt hdigits
  rw [hlength] at hvalue
  have hexpire : expire = digitsValue digits := by
    have hsame := ht.symm.trans htoken
    rw [(List.cons.inj (List.append_cancel_left hsame)).2,
      scanLong_digits hdigits hdigits_ne (by omega) (by decide)] at hlong
    exact (Option.some.inj hlong).symm
  have hpadded : padded 10 expire.natAbs = digits := by
    rw [hexpire, ← hlength]
    exact padded_digitsValue hdigits hdigits_ne
  have hwhole : token = tokenText (scanData token) expire ++ hmac := by
    rw [tokenText_append _ (by omega), hpadded]
    exact htoken
  have hsize : (tokenText (scanData token) expire).length = (scanData token).length + 12 := by
    have := congrArg List.length hwhole
    nth_rewrite 1 [htoken] at this
    simp only [List.length_append, List.length_cons] at this
    omega
  rw [IsSigned, ← hsize] at hsigned
  obtain ⟨hampersand, hzero⟩ := not_mem_scanData token
  exact ⟨hne, hampersand, hzero, by omega, by omega, eq_signed hwhole hsixteen hsigned⟩

end

section

variable (H : Hmac) (now : Int) (behind : Nat → UInt8) (capacity : Nat) (data : Bytes)
  (expire : Int)

/-- What is answered where both fields are scanned. -/
theorem getTokenData_scanned {value : Bytes} {scanned : Int} (hvalue : 28 < value.length)
    (hroom : (scanData (hexdumpDecode value)).length ≤ capacity)
    (hscan : scanExpire (hexdumpDecode value) = some scanned) :
    ∃ a, getTokenData H now behind capacity data expire value = some a ∧
      a.data = scanData (hexdumpDecode value) ∧ a.expire = scanned ∧
      a.inspected = (scanData (hexdumpDecode value)).length + 28 ∧
      ((scanData (hexdumpDecode value)).length + 28 ≤ (hexdumpDecode value).length →
        (a.accepted = true ↔
          IsSigned H (hexdumpDecode value) ∧ (scanned = 0 ∨ now < scanned))) := by
  rw [getTokenData, if_pos hvalue]
  dsimp only
  rw [if_neg (Nat.not_lt.mpr hroom), hscan]
  refine ⟨_, rfl, rfl, rfl, rfl, fun hlength => ?_⟩
  rw [readMemory_token _ _ (by omega), readMemory_token _ _ (by omega), List.drop_zero]
  simp [IsSigned]

theorem sound_iff_harmless (value : Bytes) : Sound H now behind capacity data expire value ↔
    Harmless H now capacity value := by
  by_cases hvalue : 28 < value.length
  · by_cases hroom : (scanData (hexdumpDecode value)).length ≤ capacity
    · cases hscan : scanExpire (hexdumpDecode value) with
      | none =>
          have hanswer : getTokenData H now behind capacity data expire value =
              some ⟨false, overwritten data (scanData (hexdumpDecode value)), 0,
                (hexdumpDecode value).length⟩ := by
            rw [getTokenData, if_pos hvalue]
            dsimp only
            rw [if_neg (Nat.not_lt.mpr hroom), hscan]
          rw [Sound, hanswer]
          refine ⟨fun _ _ => ⟨hroom, fun e he => ?_⟩, fun _ => ⟨Nat.le_refl _, fun h => ?_⟩⟩
          · cases hscan.symm.trans he
          · cases h
      | some scanned =>
          obtain ⟨a, hanswer, hdata, hexpire, hinspected, haccepted⟩ :=
            getTokenData_scanned H now behind capacity data expire hvalue hroom hscan
          rw [Sound, hanswer]
          dsimp only
          rw [hinspected, hdata, hexpire]
          constructor
          · rintro ⟨hlength, hsound⟩ -
            refine ⟨hroom, fun e he => ⟨hlength, fun hsigned halive => ?_⟩⟩
            cases hscan.symm.trans he
            exact isExact_of_isToken (hsound ((haccepted hlength).mpr ⟨hsigned, halive⟩))
          · intro hharmless
            obtain ⟨hlength, hexact⟩ := (hharmless hvalue).2 scanned hscan
            refine ⟨hlength, fun h => ?_⟩
            obtain ⟨hsigned, halive⟩ := (haccepted hlength).mp h
            exact isToken_of_isExact hscan hsigned (hexact hsigned halive)
    · have hanswer : getTokenData H now behind capacity data expire value = none := by
        rw [getTokenData, if_pos hvalue]
        exact if_pos (Nat.not_le.mp hroom)
      rw [Sound, hanswer]
      exact ⟨False.elim, fun h => hroom (h hvalue).1⟩
  · have hanswer : getTokenData H now behind capacity data expire value =
        some ⟨false, data, expire, 0⟩ := if_neg hvalue
    rw [Sound, hanswer]
    exact ⟨fun _ h => absurd h hvalue, fun _ => ⟨Nat.zero_le _, fun h => nomatch h⟩⟩

theorem getTokenData_generateToken {text : Bytes} {time : Int} (hne : text ≠ [])
    (hampersand : ampersand ∉ text) (hzero : 0 ∉ text) (htime : 0 ≤ time)
    (hle : time ≤ 9999999999) :
    (∃ a, getTokenData H now behind capacity data expire (generateToken H text time) = some a ∧
        a.data = text ∧ a.expire = time ∧ (a.accepted = true ↔ time = 0 ∨ now < time)) ↔
      text.length ≤ capacity := by
  have hdecode : hexdumpDecode (generateToken H text time) =
      tokenText text time ++ H.digest (tokenText text time) := hexdumpDecode_encode _
  have htoken := tokenText_append text htime (H.digest (tokenText text time))
  obtain ⟨hwidth, hdigits, hvalue⟩ :=
    @padded_spec 10 time.natAbs (by decide) (by omega)
  have hpadded : padded 10 time.natAbs ≠ [] := List.ne_nil_of_length_eq_add_one hwidth
  have hlength : 28 < (generateToken H text time).length := by
    rw [generateToken, length_hexdumpEncode, htoken]
    simp only [List.length_append, List.length_cons, hwidth, H.length_digest]
    omega
  have hdata : scanData (hexdumpDecode (generateToken H text time)) = text := by
    rw [hdecode, htoken, scanData_append hampersand hzero]
  have hscan : scanExpire (hexdumpDecode (generateToken H text time)) = some time := by
    rw [hdecode, htoken, scanExpire_append hne hampersand hzero,
      scanLong_digits hdigits hpadded (by omega) (by decide), hvalue, Int.natAbs_of_nonneg htime]
  have hsize : (tokenText text time).length = text.length + 12 := by
    rw [← List.append_nil (tokenText text time), tokenText_append _ htime]
    simp only [List.length_append, List.length_cons, hwidth, List.length_nil]
  constructor
  · rintro ⟨a, hanswer, -⟩
    by_contra hroom
    rw [← hdata] at hroom
    rw [getTokenData, if_pos hlength] at hanswer
    dsimp only at hanswer
    rw [if_pos (Nat.not_le.mp hroom)] at hanswer
    cases hanswer
  · intro hroom
    rw [← hdata] at hroom
    obtain ⟨a, hanswer, hdata', hexpire, -, haccepted⟩ :=
      getTokenData_scanned H now behind capacity data expire hlength hroom hscan
    refine ⟨a, hanswer, hdata'.trans hdata, hexpire, ?_⟩
    have hsigned : IsSigned H (hexdumpDecode (generateToken H text time)) := by
      rw [IsSigned, hdata, hdecode, ← hsize, List.take_left, List.drop_left,
        List.take_of_length_le (Nat.le_of_eq (H.length_digest _))]
    rw [haccepted (by rw [hdata, hdecode, List.length_append, hsize, H.length_digest])]
    exact ⟨fun h => h.2, fun h => ⟨hsigned, h⟩⟩

/-- A token is accepted until its time has come, where there is room for its data; and a value
is harmless if and only if what is promised of every value holds of it. -/
theorem getTokenData_iff :
    (∀ text time, text ≠ [] → ampersand ∉ text → 0 ∉ text → 0 ≤ time → time ≤ 9999999999 →
      ((∃ a, getTokenData H now behind capacity data expire (generateToken H text time) = some a ∧
        a.data = text ∧ a.expire = time ∧ (a.accepted = true ↔ time = 0 ∨ now < time)) ↔
      text.length ≤ capacity)) ∧
    ∀ value, Sound H now behind capacity data expire value ↔ Harmless H now capacity value :=
  ⟨fun _ _ => getTokenData_generateToken H now behind capacity data expire,
    sound_iff_harmless H now behind capacity data expire⟩

end

/-- A digest for the samples. -/
def sampleHmac : Hmac where
  digest t := List.replicate 16 (UInt8.ofNat t.length)
  length_digest _ := List.length_replicate

theorem getTokenData_sample :
    (∃ a, getTokenData sampleHmac 1000 (fun _ => 0) 100 [] 0 (generateToken sampleHmac [97] 2000) =
        some a ∧ a.data = [97] ∧ a.expire = 2000 ∧
        (a.accepted = true ↔ (2000 : Int) = 0 ∨ (1000 : Int) < 2000)) ↔
      ([97] : Bytes).length ≤ 100 :=
  (getTokenData_iff sampleHmac 1000 (fun _ => 0) 100 [] 0).1 [97] 2000 (by decide) (by decide)
    (by decide) (by decide) (by decide)

/-- A token with another byte behind it is accepted. -/
theorem getTokenData_longer :
    ¬ Sound sampleHmac 1000 (fun _ => 0) 100 [] 0
      (generateToken sampleHmac [97] 2000 ++ "00".toUTF8.data.toList) := by
  decide

end ULib.SessionToken
