import ULib.EscapeCoding
import Mathlib.Data.Nat.Digits.Defs

/-!
The class `UValue` of `json/value.h` and its text: `UValue::output` of
`json/value.cpp`, with the room that a `UString` has at its end. Doubles are
left to the two functions that print and read them.
-/

namespace ULib.JsonValue

open ULib.KeyComparison
open ULib.EscapeCoding

inductive UValue (ρ : Type*)
  | null
  | boolean (b : Bool)
  | int (i : Int32)
  | uint (n : UInt32)
  | real (r : ρ)
  | string (s : Bytes)
  | array (items : List (UValue ρ))
  /-- The members in the order in which `getMemberNames` finds them. -/
  | object (members : List (Bytes × UValue ρ))

/-- What is done with a double. -/
structure Doubles (ρ : Type*) where
  print : ρ → Bytes
  strtod : Bytes → ρ

/-- A `UString` that is being written. -/
structure UString where
  data : Bytes
  capacity : Nat

/-- `U_CAPACITY` with 64-bit pointers, without debug. -/
def uCapacity : Nat := 4071

/-- `U_HOW_MUCH_PREALLOCATE(n, U_CAPACITY, 2*1024*1024)`. -/
def howMuchPreallocate (n : Nat) : Nat :=
  if n ≤ uCapacity then uCapacity
  else if 2 * 1024 * 1024 ≤ n then n
  else 2 * n + 3 * 4096

/-- The capacity that `UStringRep::create` gives for `U_CAPACITY` or more. -/
def created (capacity : Nat) : Nat :=
  if capacity ≤ uCapacity then capacity else (capacity + 4095) % 2 ^ 32 / 4096 * 4096

def space (buf : UString) : Nat :=
  if 0 < buf.capacity ∧ buf.capacity < 2 ^ 31 then buf.capacity - buf.data.length else 0

def reserve (buf : UString) (n : Nat) : UString :=
  if n ≤ buf.capacity then buf else { buf with capacity := created (howMuchPreallocate n) }

def append (buf : UString) (t : Bytes) : UString :=
  if t = [] then buf
  else
    let sz1 := buf.data.length + t.length
    { data := buf.data ++ t
      capacity := if buf.capacity < sz1 then created (howMuchPreallocate sz1) else buf.capacity }

/-- `UEscape::encode` for JSON. -/
def encode (s : Bytes) (buf : UString) : UString :=
  { buf with data := buf.data ++ escapeEncode s (space buf) }

/-- The room that is made for a string before it is encoded. -/
def reserved (s : Bytes) (buf : UString) : UString :=
  reserve buf ((buf.data.length + s.length * 6) % 2 ^ 32)

/-- `%u` of `u__snprintf`. -/
def printNat (n : Nat) : Bytes :=
  if n = 0 then ['0'.toUInt8]
  else (Nat.digits 10 n).reverse.map fun d => '0'.toUInt8 + UInt8.ofNat d

/-- `%d` of `u__snprintf`. -/
def printInt (i : Int) : Bytes :=
  if i < 0 then '-'.toUInt8 :: printNat i.natAbs else printNat i.natAbs

def nullText : Bytes := ['n'.toUInt8, 'u'.toUInt8, 'l'.toUInt8, 'l'.toUInt8]

def trueText : Bytes := ['t'.toUInt8, 'r'.toUInt8, 'u'.toUInt8, 'e'.toUInt8]

def falseText : Bytes := ['f'.toUInt8, 'a'.toUInt8, 'l'.toUInt8, 's'.toUInt8, 'e'.toUInt8]

variable {ρ : Type*} (D : Doubles ρ)

mutual

/-- `UValue::output`. -/
def output (buf : UString) : UValue ρ → UString
  | .null => append buf nullText
  | .boolean b => append buf (if b then trueText else falseText)
  | .int i => append buf (printInt i.toInt)
  | .uint n => append buf (printNat n.toNat)
  | .real r => append buf (D.print r)
  | .string s => encode s (reserved s buf)
  | .array items => append (outputItems true (append buf ['['.toUInt8]) items) [']'.toUInt8]
  | .object members =>
      append (outputMembers true (append buf ['{'.toUInt8]) members) ['}'.toUInt8]

/-- The loop over the items of an array, with a comma in front of all but the first. -/
def outputItems (first : Bool) (buf : UString) : List (UValue ρ) → UString
  | [] => buf
  | v :: items =>
      outputItems false (output (if first then buf else append buf [','.toUInt8]) v) items

/-- The loop over the member names of an object. -/
def outputMembers (first : Bool) (buf : UString) : List (Bytes × UValue ρ) → UString
  | [] => buf
  | (name, v) :: members =>
      let buf := if first then buf else append buf [','.toUInt8]
      let buf := append (encode name (reserved name buf)) [':'.toUInt8]
      outputMembers false (output buf v) members

end

/-- `UValue::output()` into a string of its own. -/
def outputText (v : UValue ρ) : Bytes := (output D { data := [], capacity := uCapacity } v).data

mutual

/-- The text of a value when nothing is cut off. -/
def text : UValue ρ → Bytes
  | .null => nullText
  | .boolean b => if b then trueText else falseText
  | .int i => printInt i.toInt
  | .uint n => printNat n.toNat
  | .real r => D.print r
  | .string s => quote :: (escaped s ++ [quote])
  | .array items => '['.toUInt8 :: (itemsText true items ++ [']'.toUInt8])
  | .object members => '{'.toUInt8 :: (membersText true members ++ ['}'.toUInt8])

def itemsText (first : Bool) : List (UValue ρ) → Bytes
  | [] => []
  | v :: items => (if first then [] else [','.toUInt8]) ++ (text v ++ itemsText false items)

def membersText (first : Bool) : List (Bytes × UValue ρ) → Bytes
  | [] => []
  | (name, v) :: members =>
      (if first then [] else [','.toUInt8]) ++
        (quote :: (escaped name ++ [quote]) ++ ':'.toUInt8 :: (text v ++ membersText false members))

end

/-- Whether the encoder has room for a string, at the end of which it asks for
four bytes. -/
def hasRoom (s : Bytes) (room : Nat) : Bool :=
  if s = [] then 2 ≤ room else (escaped s).length + 5 < room

mutual

/-- Whether the encoder has room for every string. -/
def roomy (buf : UString) : UValue ρ → Bool
  | .string s => hasRoom s (space (reserved s buf))
  | .array items => roomyItems true (append buf ['['.toUInt8]) items
  | .object members => roomyMembers true (append buf ['{'.toUInt8]) members
  | _ => true

def roomyItems (first : Bool) (buf : UString) : List (UValue ρ) → Bool
  | [] => true
  | v :: items =>
      let buf := if first then buf else append buf [','.toUInt8]
      roomy buf v && roomyItems false (output D buf v) items

def roomyMembers (first : Bool) (buf : UString) : List (Bytes × UValue ρ) → Bool
  | [] => true
  | (name, v) :: members =>
      let buf := if first then buf else append buf [','.toUInt8]
      let buf' := append (encode name (reserved name buf)) [':'.toUInt8]
      hasRoom name (space (reserved name buf)) &&
        (roomy buf' v && roomyMembers false (output D buf' v) members)

end

theorem append_data (buf : UString) (t : Bytes) : (append buf t).data = buf.data ++ t := by
  by_cases ht : t = []
  · rw [append, if_pos ht, ht, List.append_nil]
  · rw [append, if_neg ht]

theorem reserved_data (s : Bytes) (buf : UString) : (reserved s buf).data = buf.data := by
  rw [reserved, reserve]
  split_ifs
  · rfl
  · rfl

theorem space_lt (buf : UString) : space buf < 2 ^ 31 := by
  rw [space]
  split_ifs with h
  · omega
  · exact Nat.two_pow_pos 31

theorem encode_data {s : Bytes} {buf : UString} (h : hasRoom s (space (reserved s buf))) :
    (encode s (reserved s buf)).data = buf.data ++ (quote :: (escaped s ++ [quote])) := by
  have hlt := space_lt (reserved s buf)
  have hroom : 1 + (escaped s).length <
      (space (reserved s buf) + 2 ^ 32 - 4) % 2 ^ 32 ∨ s = [] := by
    by_cases hs : s = []
    · exact Or.inr hs
    · have h' : (escaped s).length + 5 < space (reserved s buf) := by simpa [hasRoom, hs] using h
      left
      omega
  rw [encode, escapeEncode, encodeLoop_of_room s 1 hroom, reserved_data]
  rfl

mutual

theorem output_data (v : UValue ρ) (buf : UString) (h : roomy D buf v) :
    (output D buf v).data = buf.data ++ text D v := by
  cases v with
  | null => exact append_data buf _
  | boolean b => exact append_data buf _
  | int i => exact append_data buf _
  | uint n => exact append_data buf _
  | real r => exact append_data buf _
  | string s => exact encode_data h
  | array items =>
      rw [output, append_data, outputItems_data items true _ h, append_data, text]
      simp
  | object members =>
      rw [output, append_data, outputMembers_data members true _ h, append_data, text]
      simp

theorem outputItems_data (items : List (UValue ρ)) (first : Bool) (buf : UString)
    (h : roomyItems D first buf items) :
    (outputItems D first buf items).data = buf.data ++ itemsText D first items := by
  cases items with
  | nil => simp [outputItems, itemsText]
  | cons v items =>
      simp only [roomyItems, Bool.and_eq_true] at h
      rw [outputItems, outputItems_data items false _ h.2, output_data v _ h.1, itemsText]
      cases first
      · simp [append_data]
      · simp

theorem outputMembers_data (members : List (Bytes × UValue ρ)) (first : Bool) (buf : UString)
    (h : roomyMembers D first buf members) :
    (outputMembers D first buf members).data = buf.data ++ membersText D first members := by
  cases members with
  | nil => simp [outputMembers, membersText]
  | cons m members =>
      obtain ⟨name, v⟩ := m
      simp only [roomyMembers, Bool.and_eq_true] at h
      obtain ⟨hname, hv, hrest⟩ := h
      rw [outputMembers, outputMembers_data members false _ hrest, output_data v _ hv, append_data,
        encode_data hname, membersText]
      cases first
      · simp [append_data]
      · simp

end

theorem outputText_eq {v : UValue ρ} (h : roomy D { data := [], capacity := uCapacity } v) :
    outputText D v = text D v := by
  rw [outputText, output_data D v _ h, List.nil_append]

end ULib.JsonValue
