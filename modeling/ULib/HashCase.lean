import ULib.HashMap

/-!
The hash of a key without regard to case. The blocks of four bytes are folded
before they are mixed, and the bytes behind the last block are not.
-/

namespace ULib.HashCase

open ULib.KeyComparison
open ULib.HashMap

/-- The blocks as `u_hash` sees them when it ignores case. -/
def lowerBlocks : Bytes → Bytes
  | a :: b :: c :: d :: t => uTolower a :: uTolower b :: uTolower c :: uTolower d :: lowerBlocks t
  | t => t

/-- `UStringRep::hash`, which is `u_hash`. -/
def keyHash (ignoreCase : Bool) (t : Bytes) : UInt32 :=
  uHash (if ignoreCase then lowerBlocks t else t)

/-- The bytes behind the last block. -/
def tail : Bytes → Bytes
  | _ :: _ :: _ :: _ :: t => tail t
  | t => t

/-- The keys have the same letters. -/
def SameLetters (s t : Bytes) : Prop := s.map tolower = t.map tolower

instance (s t : Bytes) : Decidable (SameLetters s t) := inferInstanceAs (Decidable (_ = _))

theorem SameLetters.length_eq {s t : Bytes} (h : SameLetters s t) : s.length = t.length := by
  have hlength := congrArg List.length h
  rwa [List.length_map, List.length_map] at hlength

/-! ### Mixing loses nothing -/

/-- A shift to the right is undone from the highest bits on. -/
theorem xor_shiftRight_inj {n x y : UInt32} (hn : 0 < n.toNat) (hlt : n.toNat < 32)
    (h : x ^^^ (x >>> n) = y ^^^ (y >>> n)) : x = y := by
  have hdiff : (x ^^^ y) ^^^ ((x ^^^ y) >>> n) = 0 := by
    have hcomm : (x ^^^ y) ^^^ ((x >>> n) ^^^ (y >>> n)) =
        (x ^^^ (x >>> n)) ^^^ (y ^^^ (y >>> n)) := by ac_rfl
    rw [UInt32.shiftRight_xor, hcomm, h, UInt32.xor_self]
  rw [UInt32.xor_eq_zero_iff] at hdiff
  have hnat := congrArg UInt32.toNat hdiff
  rw [UInt32.toNat_shiftRight, Nat.mod_eq_of_lt hlt, Nat.shiftRight_eq_div_pow] at hnat
  have hzero : (x ^^^ y).toNat = 0 := by
    by_contra hne
    have hlt := Nat.div_lt_self (Nat.pos_of_ne_zero hne) (Nat.one_lt_two_pow (Nat.ne_of_gt hn))
    exact Nat.ne_of_lt hlt hnat.symm
  exact UInt32.xor_eq_zero_iff.mp (UInt32.toNat_inj.mp hzero)

theorem mul_odd_inj {c d x y : UInt32} (hcd : c * d = 1) (h : x * c = y * c) : x = y := by
  have hmul := congrArg (· * d) h
  simpa only [UInt32.mul_assoc, hcd, UInt32.mul_one] using hmul

theorem toNat_rotl32 (x : UInt32) :
    (rotl32 x 15).toNat = x.toNat % 2 ^ 17 * 2 ^ 15 + x.toNat / 2 ^ 17 := by
  have hx := x.toNat_lt
  have hhigh : x.toNat * 2 ^ 15 % 2 ^ 32 = (x.toNat % 2 ^ 17) <<< 15 := by
    rw [Nat.shiftLeft_eq]
    omega
  have hlow : x.toNat / 2 ^ 17 < 2 ^ 15 := by omega
  rw [rotl32, UInt32.toNat_or, UInt32.toNat_shiftLeft, UInt32.toNat_shiftRight]
  change x.toNat <<< 15 % 2 ^ 32 ||| x.toNat >>> 17 = _
  rw [Nat.shiftLeft_eq, Nat.shiftRight_eq_div_pow, hhigh, ← Nat.shiftLeft_add_eq_or_of_lt hlow,
    Nat.shiftLeft_eq]

theorem rotl32_inj {x y : UInt32} (h : rotl32 x 15 = rotl32 y 15) : x = y := by
  have hnat := congrArg UInt32.toNat h
  rw [toNat_rotl32, toNat_rotl32] at hnat
  have hx := x.toNat_lt
  have hy := y.toNat_lt
  exact UInt32.toNat_inj.mp (by omega)

theorem mixKey_inj {x y : UInt32} (h : mixKey x = mixKey y) : x = y := by
  have hrotl := mul_odd_inj (d := 0x56ed309b) (by decide) h
  exact mul_odd_inj (d := 0xdee13bb1) (by decide) (rotl32_inj hrotl)

theorem uHash_inj {s t : Bytes} (hlength : s.length = t.length) :
    uHash s = uHash t ↔ hashBlocks uSeedHash s = hashBlocks uSeedHash t := by
  constructor
  · intro h
    rw [uHash, uHash] at h
    have h16 := mul_odd_inj (d := 0x7ed1b41d) (by decide)
      (xor_shiftRight_inj (by decide) (by decide) h)
    have h13 := mul_odd_inj (d := 0xa5cb9243) (by decide)
      (xor_shiftRight_inj (by decide) (by decide) h16)
    have hblocks := xor_shiftRight_inj (by decide) (by decide) h13
    rwa [hlength, UInt32.xor_left_inj] at hblocks
  · intro h
    rw [uHash, uHash, h, hlength]

/-! ### The tail -/

theorem xor_mod (x y z n : Nat) :
    (x ^^^ y ^^^ z) % 2 ^ n = x % 2 ^ n ^^^ y % 2 ^ n ^^^ z % 2 ^ n := by
  rw [Nat.xor_mod_two_pow, Nat.xor_mod_two_pow]

theorem xor_div (x y z n : Nat) :
    (x ^^^ y ^^^ z) / 2 ^ n = x / 2 ^ n ^^^ y / 2 ^ n ^^^ z / 2 ^ n := by
  rw [Nat.xor_div_two_pow, Nat.xor_div_two_pow]

/-- The bytes of a word do not overlap. -/
theorem low_byte {a : Nat} (b c : Nat) (ha : a < 2 ^ 8) :
    (c * 2 ^ 16 ^^^ b * 2 ^ 8 ^^^ a) % 2 ^ 8 = a := by
  have hhigh : c * 2 ^ 16 % 2 ^ 8 = 0 := by omega
  rw [xor_mod _ _ _ 8, hhigh, Nat.mul_mod_left, Nat.xor_self, Nat.zero_xor, Nat.mod_eq_of_lt ha]

theorem middle_byte {a b : Nat} (c : Nat) (ha : a < 2 ^ 8) (hb : b < 2 ^ 8) :
    (c * 2 ^ 16 ^^^ b * 2 ^ 8 ^^^ a) / 2 ^ 8 % 2 ^ 8 = b := by
  have hhigh : c * 2 ^ 16 / 2 ^ 8 % 2 ^ 8 = 0 := by omega
  rw [xor_div _ _ _ 8, xor_mod _ _ _ 8, hhigh, Nat.mul_div_cancel _ (by decide),
    Nat.mod_eq_of_lt hb, Nat.div_eq_of_lt ha, Nat.zero_mod, Nat.zero_xor, Nat.xor_zero]

theorem high_byte {a b : Nat} (c : Nat) (ha : a < 2 ^ 8) (hb : b < 2 ^ 8) :
    (c * 2 ^ 16 ^^^ b * 2 ^ 8 ^^^ a) / 2 ^ 16 = c := by
  have hmiddle : b * 2 ^ 8 < 2 ^ 16 := Nat.mul_lt_mul_of_pos_right hb (by decide)
  rw [xor_div _ _ _ 16, Nat.mul_div_cancel _ (by decide), Nat.div_eq_of_lt hmiddle,
    Nat.div_eq_of_lt (Nat.lt_of_lt_of_le ha (by decide)), Nat.xor_zero, Nat.xor_zero]

theorem toNat_tailWord (a b c : UInt8) :
    ((c.toUInt32 <<< 16) ^^^ (b.toUInt32 <<< 8) ^^^ a.toUInt32).toNat =
      c.toNat * 2 ^ 16 ^^^ b.toNat * 2 ^ 8 ^^^ a.toNat := by
  have hb := b.toNat_lt
  have hc := c.toNat_lt
  rw [UInt32.toNat_xor, UInt32.toNat_xor, UInt32.toNat_shiftLeft, UInt32.toNat_shiftLeft,
    UInt8.toNat_toUInt32, UInt8.toNat_toUInt32, UInt8.toNat_toUInt32]
  change c.toNat <<< 16 % 2 ^ 32 ^^^ b.toNat <<< 8 % 2 ^ 32 ^^^ a.toNat = _
  rw [Nat.shiftLeft_eq, Nat.shiftLeft_eq, Nat.mod_eq_of_lt (by omega), Nat.mod_eq_of_lt (by omega)]

/-- The bytes of the word are found again. -/
theorem tailWord_inj {a b c a' b' c' : UInt8}
    (h : (c.toUInt32 <<< 16) ^^^ (b.toUInt32 <<< 8) ^^^ a.toUInt32 =
      (c'.toUInt32 <<< 16) ^^^ (b'.toUInt32 <<< 8) ^^^ a'.toUInt32) :
    a = a' ∧ b = b' ∧ c = c' := by
  have hword := congrArg UInt32.toNat h
  rw [toNat_tailWord, toNat_tailWord] at hword
  have ha := low_byte b.toNat c.toNat a.toNat_lt
  have hb := middle_byte c.toNat a.toNat_lt b.toNat_lt
  have hc := high_byte c.toNat a.toNat_lt b.toNat_lt
  rw [hword] at ha hb hc
  rw [low_byte _ _ a'.toNat_lt] at ha
  rw [middle_byte _ a'.toNat_lt b'.toNat_lt] at hb
  rw [high_byte _ a'.toNat_lt b'.toNat_lt] at hc
  exact ⟨UInt8.toNat_inj.mp ha.symm, UInt8.toNat_inj.mp hb.symm, UInt8.toNat_inj.mp hc.symm⟩

/-- A block of four bytes. -/
def blockWord (a b c d : UInt8) : UInt32 :=
  a.toUInt32 ||| (b.toUInt32 <<< 8) ||| (c.toUInt32 <<< 16) ||| (d.toUInt32 <<< 24)

def mixBlock (h1 k1 : UInt32) : UInt32 := rotl32 (h1 ^^^ mixKey k1) 13 * 5 + 0xe6546b64

theorem hashBlocks_cons (h1 : UInt32) (a b c d : UInt8) (t : Bytes) :
    hashBlocks h1 (a :: b :: c :: d :: t) = hashBlocks (mixBlock h1 (blockWord a b c d)) t := by
  delta hashBlocks
  rfl

/-- The blocks are the same for both keys, and mixing the tail loses nothing. -/
theorem hashBlocks_lowerBlocks {s t : Bytes} (h : SameLetters s t) (h1 : UInt32) :
    hashBlocks h1 (lowerBlocks s) = hashBlocks h1 (lowerBlocks t) ↔ tail s = tail t := by
  induction s using lowerBlocks.induct generalizing t h1 with
  | case1 a b c d s ih =>
      obtain ⟨a', t, rfl, ha, h⟩ := List.map_eq_cons_iff.mp h.symm
      obtain ⟨b', t, rfl, hb, h⟩ := List.map_eq_cons_iff.mp h
      obtain ⟨c', t, rfl, hc, h⟩ := List.map_eq_cons_iff.mp h
      obtain ⟨d', t, rfl, hd, h⟩ := List.map_eq_cons_iff.mp h
      rw [lowerBlocks, lowerBlocks, uTolower_eq ha, uTolower_eq hb, uTolower_eq hc, uTolower_eq hd,
        hashBlocks_cons, hashBlocks_cons, tail, tail]
      exact ih h.symm _
  | case2 s hs =>
      have hlength := h.length_eq
      match s, t, hlength with
      | [], [], _ => exact iff_of_true rfl rfl
      | [a], [a'], _ =>
          constructor
          · intro heq
            have hkey := mixKey_inj ((UInt32.xor_right_inj h1).mp heq)
            rw [UInt8.toUInt32_inj.mp hkey]
          · intro heq
            have heq : [a] = [a'] := heq
            rw [heq]
      | [a, b], [a', b'], _ =>
          constructor
          · intro heq
            have hkey := mixKey_inj ((UInt32.xor_right_inj h1).mp heq)
            have hword : ((0 : UInt8).toUInt32 <<< 16) ^^^ (b.toUInt32 <<< 8) ^^^ a.toUInt32 =
                ((0 : UInt8).toUInt32 <<< 16) ^^^ (b'.toUInt32 <<< 8) ^^^ a'.toUInt32 := by
              rw [UInt32.xor_assoc, UInt32.xor_assoc, hkey]
            obtain ⟨rfl, rfl, -⟩ := tailWord_inj hword
            rfl
          · intro heq
            have heq : [a, b] = [a', b'] := heq
            rw [heq]
      | [a, b, c], [a', b', c'], _ =>
          constructor
          · intro heq
            have hkey := mixKey_inj ((UInt32.xor_right_inj h1).mp heq)
            obtain ⟨rfl, rfl, rfl⟩ := tailWord_inj hkey
            rfl
          · intro heq
            have heq : [a, b, c] = [a', b', c'] := heq
            rw [heq]
      | a :: b :: c :: d :: s, _, _ => exact absurd rfl (hs a b c d s)

/-- The hash ignores the case of the blocks, and of nothing else. -/
theorem keyHash_eq_iff {s t : Bytes} (h : SameLetters s t) :
    keyHash true s = keyHash true t ↔ tail s = tail t := by
  have hlower : ∀ t, (lowerBlocks t).length = t.length := by
    intro t
    induction t using lowerBlocks.induct with
    | case1 a b c d t ih => simp only [lowerBlocks, List.length_cons, ih]
    | case2 t ht => rw [lowerBlocks.eq_2 t ht]
  rw [keyHash, keyHash, if_pos rfl, if_pos rfl, uHash_inj (by rw [hlower, hlower, h.length_eq])]
  exact hashBlocks_lowerBlocks h uSeedHash

end ULib.HashCase
