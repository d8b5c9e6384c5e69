import Mathlib.Data.List.TakeWhile
import ULib.NumberText
import ULib.StringHeap
import ULib.TextSearch

/-!
`UIPAllow` of `net/ipaddress.h` and `net/ipaddress.cpp`: which specifications of
addresses are accepted, and which clients are allowed by them.
-/

namespace ULib.IpAllow

open ULib.KeyComparison
open ULib.EscapeCoding
open ULib.JsonScan
open ULib.NumberText
open ULib.StringHeap (uNotFound)
open ULib.TextSearch (of_idxOf idxOf_append_cons)

/-! ### The code -/

/-- What the code finds on its machine; an `in_addr_t` is a word in network byte order. -/
structure Platform where
  bigEndian : Bool
  enableIpv6 : Bool
  /-- `inet_aton` of a text without NUL. -/
  inetAton : Bytes → Option (BitVec 32)

structure UIPAllow where
  addr : BitVec 32
  mask : BitVec 32
  deriving DecidableEq

/-- The bytes of a word in the other order. -/
def swapped (x : BitVec 32) : BitVec 32 :=
  x.extractLsb' 0 8 ++ x.extractLsb' 8 8 ++ x.extractLsb' 16 8 ++ x.extractLsb' 24 8

def slash : UInt8 := '/'.toUInt8

def isAllowed (x : UIPAllow) (client : BitVec 32) : Bool := client &&& x.mask = x.addr &&& x.mask

section
variable (P : Platform)

def htonl (x : BitVec 32) : BitVec 32 := if P.bigEndian then x else swapped x

/-- `U_INET_ADDRSTRLEN` -/
def uInetAddrstrlen : Nat := if P.enableIpv6 then 46 else 16

/-- `none` where `addr_str` is too short for the address and a NUL. What is `behind` the text in
memory is read with the number of bits. -/
def parseMask (spec behind : Bytes) : Option (Option UIPAllow) :=
  let addrLen := spec.idxOf? slash
  let addrStr := spec.take (addrLen.getD spec.length)
  if addrStr.length < uInetAddrstrlen P then
    some ((P.inetAton (addrStr.takeWhile (· ≠ 0))).bind fun addr =>
      let allones := 0xffffffff#32
      match addrLen with
      | none => some ⟨addr, allones⟩
      | some n =>
          let maskBits := atoi (spec.drop (n + 1) ++ behind)
          if maskBits < 0 ∨ 32 < maskBits then none
          else
            some ⟨addr, if maskBits = 32 then allones
              else htonl P (~~~(allones >>> maskBits.toNat))⟩)
  else none

end

def containsLoop (client : BitVec 32) : Nat → List UIPAllow → Nat
  | _, [] => uNotFound
  | i, x :: vipallow => if isAllowed x client then i else containsLoop client (i + 1) vipallow

def contains (client : BitVec 32) (vipallow : List UIPAllow) : Nat := containsLoop client 0 vipallow

/-! ### Words whose first bits agree -/

/-- The first `n` bits are the same. -/
def Agree {w : Nat} (n : Nat) (x y : BitVec w) : Prop := ∀ i < n, x.getMsbD i = y.getMsbD i

theorem getMsbD_mask {n i : Nat} (hn : n ≤ 32) :
    (~~~(0xffffffff#32 >>> n)).getMsbD i = decide (i < n) := by
  have hones : 0xffffffff#32 = BitVec.allOnes 32 := rfl
  rw [hones, BitVec.getMsbD_not, BitVec.getMsbD_ushiftRight, BitVec.getMsbD_allOnes]
  by_cases hi : i < n
  · simp [hi, show i < 32 by omega]
  · simp only [hi, decide_false, Bool.not_false, Bool.true_and]
    by_cases h32 : i < 32 <;> simp [h32]
    omega

theorem and_mask_eq_iff {n : Nat} (hn : n ≤ 32) (x y : BitVec 32) :
    x &&& ~~~(0xffffffff#32 >>> n) = y &&& ~~~(0xffffffff#32 >>> n) ↔ Agree n x y := by
  constructor
  · intro h i hi
    have hbit := congrArg (BitVec.getMsbD · i) h
    simpa only [BitVec.getMsbD_and, getMsbD_mask hn, hi, decide_true, Bool.and_true] using hbit
  · intro h
    refine BitVec.eq_of_getMsbD_eq fun i _ => ?_
    rw [BitVec.getMsbD_and, BitVec.getMsbD_and, getMsbD_mask hn]
    by_cases hi : i < n
    · rw [h i hi]
    · simp only [hi, decide_false, Bool.and_false]

/-- There are words that agree in the first bits and not in the next. -/
theorem exists_agree {m n : Nat} (hmn : m < n) (hn : n ≤ 32) (y : BitVec 32) :
    ∃ x, Agree m x y ∧ ¬ Agree n x y := by
  have hbit : ∀ i, (y ^^^ BitVec.twoPow 32 (31 - m)).getMsbD i =
      (y.getMsbD i ^^ decide (i = m)) := by
    intro i
    rw [BitVec.getMsbD_xor, BitVec.getMsbD_twoPow, decide_eq_true (by omega : 31 - m < 32),
      Bool.true_and, show 32 - (31 - m) - 1 = m by omega]
  refine ⟨y ^^^ BitVec.twoPow 32 (31 - m), fun i hi => ?_, fun h => ?_⟩
  · rw [hbit, decide_eq_false (Nat.ne_of_lt hi), Bool.xor_false]
  · have hflipped := h m hmn
    rw [hbit, decide_eq_true rfl, Bool.xor_true] at hflipped
    exact Bool.not_ne_self _ hflipped

/-- The number of bits is seen in the words that agree. -/
theorem eq_of_agree_iff {m n : Nat} (hm : m ≤ 32) (hn : n ≤ 32) {y : BitVec 32}
    (h : ∀ x, Agree m x y ↔ Agree n x y) : m = n := by
  rcases Nat.lt_trichotomy m n with hlt | heq | hlt
  · obtain ⟨x, hx, hne⟩ := exists_agree hlt hn y
    exact absurd ((h x).mp hx) hne
  · exact heq
  · obtain ⟨x, hx, hne⟩ := exists_agree hlt hm y
    exact absurd ((h x).mpr hx) hne

/-! ### The order of the bytes -/

theorem getLsbD_swapped (x : BitVec 32) {i : Nat} (hi : i < 32) :
    (swapped x).getLsbD i = x.getLsbD (24 - 8 * (i / 8) + i % 8) := by
  simp only [swapped, BitVec.getLsbD_append, BitVec.getLsbD_extractLsb']
  split_ifs with h0 h1 h2
  · simp only [h0, decide_true, Bool.true_and]
    congr 1
    omega
  · simp only [h1, decide_true, Bool.true_and]
    congr 1
    omega
  · simp only [h2, decide_true, Bool.true_and]
    congr 1
    omega
  · have h3 : i - 8 - 8 - 8 < 8 := by omega
    simp only [h3, decide_true, Bool.true_and]
    congr 1
    omega

theorem swapped_swapped (x : BitVec 32) : swapped (swapped x) = x := by
  refine BitVec.eq_of_getLsbD_eq fun i hi => ?_
  rw [getLsbD_swapped _ hi, getLsbD_swapped _ (by omega)]
  congr 1
  omega

theorem swapped_and (x y : BitVec 32) : swapped (x &&& y) = swapped x &&& swapped y := by
  rw [swapped, BitVec.extractLsb'_and, BitVec.extractLsb'_and, BitVec.extractLsb'_and,
    BitVec.extractLsb'_and, ← BitVec.and_append, ← BitVec.and_append, ← BitVec.and_append]
  rfl

section
variable (P : Platform)

theorem htonl_htonl (x : BitVec 32) : htonl P (htonl P x) = x := by
  rw [htonl, htonl]
  split_ifs
  · rfl
  · exact swapped_swapped x

theorem htonl_and (x y : BitVec 32) : htonl P (x &&& y) = htonl P x &&& htonl P y := by
  rw [htonl, htonl, htonl]
  split_ifs
  · rfl
  · exact swapped_and x y

theorem htonl_inj {x y : BitVec 32} : htonl P x = htonl P y ↔ x = y := by
  refine ⟨fun h => ?_, congrArg _⟩
  rw [← htonl_htonl P x, h, htonl_htonl]

/-- The mask for the first `n` bits. -/
def maskOf (n : Nat) : BitVec 32 := htonl P (~~~(0xffffffff#32 >>> n))

theorem maskOf_all : maskOf P 32 = 0xffffffff#32 := by
  rw [maskOf, htonl]
  split_ifs <;> rfl

theorem isAllowed_maskOf {n : Nat} (hn : n ≤ 32) (addr client : BitVec 32) :
    isAllowed ⟨addr, maskOf P n⟩ client ↔ Agree n (htonl P client) (htonl P addr) := by
  have hhost : ∀ x, htonl P (x &&& maskOf P n) = htonl P x &&& ~~~(0xffffffff#32 >>> n) := by
    intro x
    rw [htonl_and, maskOf, htonl_htonl]
  rw [isAllowed, decide_eq_true_eq, ← htonl_inj P, hhost, hhost, and_mask_eq_iff hn]

/-! ### The specifications -/

/-- A dotted address, of the part in front of a slash. -/
def IsAddress (t : Bytes) (addr : BitVec 32) : Prop :=
  P.inetAton t = some addr ∧ 0 ∉ t ∧ slash ∉ t

/-- Digits for 0, ..., 32 -/
def IsBits (w : Bytes) : Prop := w ≠ [] ∧ (∀ c ∈ w, isDigit c) ∧ digitsValue w ≤ 32

instance (w : Bytes) : Decidable (IsBits w) := inferInstanceAs (Decidable (_ ∧ _))

/-- `HOST` or `HOST/BITS` -/
def IsSpec (spec : Bytes) (addr : BitVec 32) (n : Nat) : Prop :=
  ∃ t, IsAddress P t addr ∧
    (spec = t ∧ n = 32 ∨ ∃ w, spec = t ++ slash :: w ∧ IsBits w ∧ digitsValue w = n)

/-- What is accepted is a specification, and the clients that it allows are those in its range. -/
def Correct (spec behind : Bytes) : Prop :=
  ∃ r, parseMask P spec behind = some r ∧ (r.isSome ↔ ∃ addr n, IsSpec P spec addr n) ∧
    ∀ x ∈ r, ∀ addr n, IsSpec P spec addr n →
      ∀ client, isAllowed x client ↔ Agree n (htonl P client) (htonl P addr)

/-- The number of bits that a specification gives. -/
def bitsOf (spec : Bytes) : Option Nat :=
  match spec.idxOf? slash with
  | none => some 32
  | some n => if IsBits (spec.drop (n + 1)) then some (digitsValue (spec.drop (n + 1))) else none

/-- The number of bits that `atoi` finds. -/
def bitsRead (spec behind : Bytes) : Option Nat :=
  match spec.idxOf? slash with
  | none => some 32
  | some n =>
      let maskBits := atoi (spec.drop (n + 1) ++ behind)
      if maskBits < 0 ∨ 32 < maskBits then none else some maskBits.toNat

def hostOf (spec : Bytes) : Bytes := spec.take ((spec.idxOf? slash).getD spec.length)

/-- The address fits in `addr_str`; and there is none, or the number of bits is read as it is
given. With a NUL in the address there is no number that could be right. -/
def Readable (spec behind : Bytes) : Prop :=
  (hostOf spec).length < uInetAddrstrlen P ∧
    (P.inetAton ((hostOf spec).takeWhile (· ≠ 0)) = none ∨
      bitsRead spec behind = if 0 ∈ hostOf spec then none else bitsOf spec)

instance (spec behind : Bytes) : Decidable (Readable P spec behind) :=
  inferInstanceAs (Decidable (_ ∧ _))

theorem parseMask_eq (spec behind : Bytes) :
    parseMask P spec behind =
      if (hostOf spec).length < uInetAddrstrlen P then
        some ((P.inetAton ((hostOf spec).takeWhile (· ≠ 0))).bind fun addr =>
          (bitsRead spec behind).map fun n => ⟨addr, maskOf P n⟩)
      else none := by
  rw [parseMask, hostOf, bitsRead]
  cases spec.idxOf? slash with
  | none => simp only [Option.getD_none, Option.map_some, maskOf_all]
  | some n =>
      dsimp only [Option.getD_some]
      split_ifs with hlength hbits hall
      · rfl
      · have hbits : Int.toNat 32 = 32 := rfl
        simp only [Option.map_some, hall, hbits, maskOf_all]
      · rfl
      · rfl

theorem isSpec_iff (spec : Bytes) (addr : BitVec 32) (n : Nat) :
    IsSpec P spec addr n ↔
      P.inetAton (hostOf spec) = some addr ∧ 0 ∉ hostOf spec ∧ bitsOf spec = some n := by
  rw [hostOf, bitsOf]
  cases hfind : spec.idxOf? slash with
  | none =>
      have hslash := List.idxOf?_eq_none_iff.mp hfind
      dsimp only [Option.getD_none]
      rw [List.take_length, Option.some.injEq]
      constructor
      · rintro ⟨t, ⟨haddr, hzero, -⟩, ⟨rfl, rfl⟩ | ⟨w, rfl, -⟩⟩
        · exact ⟨haddr, hzero, rfl⟩
        · exact absurd (List.mem_append_right t List.mem_cons_self) hslash
      · rintro ⟨haddr, hzero, rfl⟩
        exact ⟨spec, ⟨haddr, hzero, hslash⟩, Or.inl ⟨rfl, rfl⟩⟩
  | some k =>
      obtain ⟨t, w, rfl, hslash, rfl⟩ := of_idxOf hfind
      have hdrop : (t ++ slash :: w).drop (t.length + 1) = w := by simp
      dsimp only [Option.getD_some]
      rw [List.take_left, hdrop]
      constructor
      · rintro ⟨t', ⟨haddr, hzero, hslash'⟩, ⟨heq, -⟩ | ⟨w', heq, hbits, rfl⟩⟩
        · exact absurd (heq ▸ List.mem_append_right t List.mem_cons_self) hslash'
        · rw [heq, idxOf_append_cons hslash', Option.some.injEq] at hfind
          obtain ⟨rfl, htail⟩ := List.append_inj heq hfind.symm
          obtain rfl := (List.cons.inj htail).2
          exact ⟨haddr, hzero, if_pos hbits⟩
      · rintro ⟨haddr, hzero, hbits⟩
        split_ifs at hbits with hw
        exact ⟨t, ⟨haddr, hzero, hslash⟩, Or.inr ⟨w, rfl, hw, Option.some.inj hbits⟩⟩

theorem bits_le {spec : Bytes} {n : Nat} (h : bitsOf spec = some n) : n ≤ 32 := by
  rw [bitsOf] at h
  split at h
  · exact Nat.le_of_eq (Option.some.inj h).symm
  · split_ifs at h with hbits
    exact Option.some.inj h ▸ hbits.2.2

theorem bitsRead_le {spec behind : Bytes} {n : Nat} (h : bitsRead spec behind = some n) :
    n ≤ 32 := by
  rw [bitsRead] at h
  split at h
  · exact Nat.le_of_eq (Option.some.inj h).symm
  · dsimp only at h
    split_ifs at h with hbits
    have heq := Option.some.inj h
    omega

theorem takeWhile_ne_zero {t : Bytes} (h : 0 ∉ t) : t.takeWhile (· ≠ 0) = t :=
  List.takeWhile_eq_self_iff.mpr fun c hc => by simpa using fun heq : c = 0 => h (heq ▸ hc)

/-- The mask for one number of bits does the work of another only when they are equal. -/
theorem allowed_iff_eq {m n : Nat} (hm : m ≤ 32) (hn : n ≤ 32) (addr : BitVec 32) :
    (∀ client, isAllowed ⟨addr, maskOf P m⟩ client ↔
      Agree n (htonl P client) (htonl P addr)) ↔ m = n := by
  constructor
  · intro h
    refine @eq_of_agree_iff m n hm hn (htonl P addr) fun x => ?_
    have hclient := h (htonl P x)
    rwa [isAllowed_maskOf P hm, htonl_htonl] at hclient
  · rintro rfl client
    exact isAllowed_maskOf P hm addr client

/-- Specifications are read right exactly when their number of bits is. -/
theorem correct_iff (spec behind : Bytes) : Correct P spec behind ↔ Readable P spec behind := by
  rw [Correct, parseMask_eq, Readable]
  by_cases hlength : (hostOf spec).length < uInetAddrstrlen P
  · rw [if_pos hlength]
    simp only [hlength, true_and, Option.some.injEq, exists_eq_left', isSpec_iff]
    cases hinet : P.inetAton ((hostOf spec).takeWhile (· ≠ 0)) with
    | none =>
        refine iff_of_true ⟨iff_of_false Bool.false_ne_true ?_, fun x hx => by cases hx⟩
          (Or.inl rfl)
        rintro ⟨addr, n, haddr, hzero, -⟩
        rw [takeWhile_ne_zero hzero, haddr] at hinet
        cases hinet
    | some addr =>
        rw [Option.bind_some]
        by_cases hzero : 0 ∈ hostOf spec
        · simp only [hzero, not_true, false_and, and_false, exists_false, iff_false, if_true,
            false_imp_iff, implies_true, and_true, reduceCtorEq, false_or, Option.isSome_map]
          exact Option.not_isSome_iff_eq_none
        · rw [takeWhile_ne_zero hzero] at hinet
          simp only [hzero, not_false_eq_true, true_and, if_false, hinet, Option.some.injEq,
            reduceCtorEq, false_or]
          cases hread : bitsRead spec behind with
          | none => cases hbits : bitsOf spec <;> simp
          | some m =>
              cases hbits : bitsOf spec with
              | none => simp
              | some n =>
                  have hallowed := allowed_iff_eq P (bitsRead_le hread) (bits_le hbits) addr
                  simpa using hallowed
  · rw [if_neg hlength]
    exact iff_of_false (fun ⟨r, hr, _⟩ => by cases hr) fun h => hlength h.1

end

/-! ### Lists of specifications -/

theorem containsLoop_eq (client : BitVec 32) (i : Nat) (vipallow : List UIPAllow) :
    containsLoop client i vipallow =
      ((vipallow.findIdx? (isAllowed · client)).map (i + ·)).getD uNotFound := by
  induction vipallow generalizing i with
  | nil => rfl
  | cons x vipallow ih =>
      rw [containsLoop, List.findIdx?_cons]
      split_ifs
      · rfl
      · rw [ih, Option.map_map]
        congr 2
        funext k
        exact Nat.add_right_comm i 1 k

/-- The first entry that allows the client. -/
theorem contains_eq (client : BitVec 32) (vipallow : List UIPAllow) :
    contains client vipallow = (vipallow.findIdx? (isAllowed · client)).getD uNotFound := by
  rw [contains, containsLoop_eq]
  simp only [Nat.zero_add, Option.map_id']

/-- A specification is read right exactly when its number of bits is; and the first entry of a list
that allows a client is found. -/
theorem access_iff (P : Platform) (spec behind : Bytes) (client : BitVec 32)
    (vipallow : List UIPAllow) :
    (Correct P spec behind ↔ Readable P spec behind) ∧
      contains client vipallow = (vipallow.findIdx? (isAllowed · client)).getD uNotFound :=
  ⟨correct_iff P spec behind, contains_eq client vipallow⟩

/-- Behind the slash of `10.0.0.0/` nothing is read as 0, and every client is allowed. -/
theorem not_correct :
    ¬ Correct ⟨false, false, fun t =>
      if t = [49, 48, 46, 48, 46, 48, 46, 48] then some 10#32 else none⟩
      [49, 48, 46, 48, 46, 48, 46, 48, 47] [] := by
  rw [correct_iff]
  decide

end ULib.IpAllow
