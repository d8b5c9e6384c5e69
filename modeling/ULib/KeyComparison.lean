import Mathlib.Algebra.Group.Nat.Defs
import Mathlib.Data.List.Basic
import Mathlib.Tactic.Common

/-!
How the databases compare and hash keys: `u_equal` of `base/utility.h`,
`u_cdb_hash` of `base/hash.c` and the two C library comparisons behind the
former. In case-insensitive mode two different foldings meet: `strncasecmp`
folds the ASCII letters only and stops at a NUL byte, while the hash folds
through the `u__ct_tol` table, which knows the ISO-1 letters as well.
-/

namespace ULib.KeyComparison

abbrev Bytes := List UInt8

/-- What holds of the bytes of a text is decided by going through the text. -/
instance (priority := high) decidableForallMem {P : UInt8 → Prop} [DecidablePred P] (t : Bytes) :
    Decidable (∀ c ∈ t, P c) :=
  List.decidableBAll P t

/-- `tolower` of the C library in the POSIX locale. -/
def tolower (c : UInt8) : UInt8 := if 65 ≤ c ∧ c ≤ 90 then c + 32 else c

/-- `u__tolower`, the table `u__ct_tol` of `base/utility.c`. -/
def uTolower (c : UInt8) : UInt8 :=
  if 65 ≤ c ∧ c ≤ 90 ∨ 192 ≤ c ∧ c ≤ 222 ∧ c ≠ 215 then c + 32 else c

/-- Sign of `memcmp` on the first `n` bytes of two blocks that hold them. -/
def memcmp : Nat → Bytes → Bytes → Int
  | n + 1, a :: s, b :: t => if a < b then -1 else if b < a then 1 else memcmp n s t
  | _, _, _ => 0

/-- Sign of `strncasecmp`. -/
def strncasecmp : Nat → Bytes → Bytes → Int
  | n + 1, a :: s, b :: t =>
      if tolower a < tolower b then -1
      else if tolower b < tolower a then 1
      else if tolower a = 0 then 0
      else strncasecmp n s t
  | _, _, _ => 0

def uEqual (s t : Bytes) (n : Nat) (ignoreCase : Bool) : Int :=
  if ignoreCase then strncasecmp n s t else memcmp n s t

def uCdbHash (t : Bytes) (ignoreCase : Bool) : UInt32 :=
  t.foldl (fun h c => (h <<< 5 + h) ^^^ (if ignoreCase then uTolower c else c).toUInt32) 5381

/-- The key as the comparison sees it. -/
def canon (ignoreCase : Bool) (key : Bytes) : Bytes :=
  if ignoreCase then key.map tolower else key

/-- `strncasecmp` compares C strings: in case-insensitive mode a key with a
NUL byte is not compared as a whole. -/
def Comparable (ignoreCase : Bool) (key : Bytes) : Prop :=
  ignoreCase = true → (0 : UInt8) ∉ key

instance (ignoreCase : Bool) (key : Bytes) : Decidable (Comparable ignoreCase key) :=
  inferInstanceAs (Decidable (_ → _))

@[simp] theorem length_canon (ignoreCase : Bool) (key : Bytes) :
    (canon ignoreCase key).length = key.length := by
  cases ignoreCase <;> simp [canon]

@[simp] theorem canon_false (key : Bytes) : canon false key = key := rfl

theorem length_eq_of_canon {ignoreCase : Bool} {k k' : Bytes}
    (h : canon ignoreCase k = canon ignoreCase k') : k.length = k'.length := by
  simpa using congrArg List.length h

theorem tolower_eq_zero {c : UInt8} : tolower c = 0 ↔ c = 0 := by
  rw [tolower]
  split_ifs with hletter
  · simp only [UInt8.le_iff_toNat_le, ← UInt8.toNat_inj, UInt8.toNat_add, UInt8.reduceToNat]
      at hletter ⊢
    omega
  · exact Iff.rfl

/-- Folding the ASCII letters first does not change the folding of the table. -/
theorem uTolower_tolower (c : UInt8) : uTolower (tolower c) = uTolower c := by
  rw [tolower]
  split_ifs with hletter
  · rw [uTolower, uTolower, if_pos (Or.inl hletter), if_neg]
    simp only [UInt8.le_iff_toNat_le, UInt8.toNat_add, UInt8.reduceToNat] at hletter ⊢
    omega
  · rfl

theorem uTolower_eq {a b : UInt8} (h : tolower a = tolower b) : uTolower a = uTolower b := by
  rw [← uTolower_tolower a, h, uTolower_tolower]

theorem byte_trichotomy (a b : UInt8) : a < b ∨ a = b ∨ b < a := by
  rcases Nat.lt_trichotomy a.toNat b.toNat with h | h | h
  · exact .inl (UInt8.lt_iff_toNat_lt.mpr h)
  · exact .inr (.inl (UInt8.toNat_inj.mp h))
  · exact .inr (.inr (UInt8.lt_iff_toNat_lt.mpr h))

theorem memcmp_eq_zero {s t : Bytes} (hlen : s.length = t.length) :
    memcmp s.length s t = 0 ↔ s = t := by
  induction s generalizing t with
  | nil =>
      rcases t with _ | ⟨b, t⟩
      · simp [memcmp]
      · simp at hlen
  | cons a s ih =>
      rcases t with _ | ⟨b, t⟩
      · simp at hlen
      · simp only [List.length_cons, Nat.add_right_cancel_iff] at hlen
        simp only [List.length_cons, memcmp]
        rcases byte_trichotomy a b with hab | rfl | hab
        · simp [hab, UInt8.ne_of_lt hab]
        · simp [ih hlen]
        · simp [hab, UInt8.lt_asymm hab, (UInt8.ne_of_lt hab).symm]

theorem strncasecmp_eq_zero {s t : Bytes} (hlen : s.length = t.length) (hs : (0 : UInt8) ∉ s) :
    strncasecmp s.length s t = 0 ↔ s.map tolower = t.map tolower := by
  induction s generalizing t with
  | nil =>
      rcases t with _ | ⟨b, t⟩
      · simp [strncasecmp]
      · simp at hlen
  | cons a s ih =>
      rcases t with _ | ⟨b, t⟩
      · simp at hlen
      · simp only [List.length_cons, Nat.add_right_cancel_iff] at hlen
        have ha : a ≠ 0 := fun h => hs (by simp [h])
        have hs' : (0 : UInt8) ∉ s := fun h => hs (by simp [h])
        simp only [List.length_cons, strncasecmp, tolower_eq_zero, ha, if_false, List.map_cons,
          List.cons.injEq]
        rcases byte_trichotomy (tolower a) (tolower b) with hab | hab | hab
        · simp [hab, UInt8.ne_of_lt hab]
        · simp [hab, ih hlen hs']
        · simp [hab, UInt8.lt_asymm hab, (UInt8.ne_of_lt hab).symm]

/-- Keys of one length compare equal exactly when they are the same key up to
case (up to nothing in case-sensitive mode). -/
theorem uEqual_eq_zero {ignoreCase : Bool} {s t : Bytes} (hlen : s.length = t.length)
    (hs : Comparable ignoreCase s) :
    uEqual s t s.length ignoreCase = 0 ↔ canon ignoreCase s = canon ignoreCase t := by
  cases ignoreCase with
  | false => simpa [uEqual, canon] using memcmp_eq_zero hlen
  | true => simpa [uEqual, canon] using strncasecmp_eq_zero hlen (hs rfl)

theorem strncasecmp_congr {s s' : Bytes} (h : s.map tolower = s'.map tolower) (n : Nat)
    (t : Bytes) : strncasecmp n s t = strncasecmp n s' t := by
  induction n generalizing s s' t with
  | zero => simp [strncasecmp]
  | succ n ih =>
      rcases s with _ | ⟨a, s⟩ <;> rcases s' with _ | ⟨a', s'⟩
      · rfl
      · simp at h
      · simp at h
      · simp only [List.map_cons, List.cons.injEq] at h
        rcases t with _ | ⟨b, t⟩
        · rfl
        · simp only [strncasecmp, h.1, ih h.2]

/-- The comparison sees a key only through its canonical form. -/
theorem uEqual_congr {ignoreCase : Bool} {s s' : Bytes}
    (h : canon ignoreCase s = canon ignoreCase s') (t : Bytes) (n : Nat) :
    uEqual s t n ignoreCase = uEqual s' t n ignoreCase := by
  cases ignoreCase with
  | false => rw [canon_false, canon_false] at h; rw [h]
  | true => exact strncasecmp_congr (by simpa [canon] using h) n t

theorem uCdbHash_congr {ignoreCase : Bool} {s s' : Bytes}
    (h : canon ignoreCase s = canon ignoreCase s') :
    uCdbHash s ignoreCase = uCdbHash s' ignoreCase := by
  cases ignoreCase with
  | false => rw [canon_false, canon_false] at h; rw [h]
  | true =>
      have hfold : ∀ k : Bytes, uCdbHash k true = uCdbHash (k.map tolower) true := by
        intro k
        simp [uCdbHash, List.foldl_map, uTolower_tolower]
      rw [hfold s, hfold s', show s.map tolower = s'.map tolower by simpa [canon] using h]

theorem memcmp_take (n : Nat) (s t : Bytes) :
    memcmp n s t = memcmp n (s.take n) (t.take n) := by
  induction n generalizing s t with
  | zero => simp [memcmp]
  | succ n ih =>
      rcases s with _ | ⟨a, s⟩ <;> rcases t with _ | ⟨b, t⟩
      · rfl
      · rfl
      · rfl
      · simp only [memcmp, List.take_succ_cons, ih s t]

theorem strncasecmp_take (n : Nat) (s t : Bytes) :
    strncasecmp n s t = strncasecmp n (s.take n) (t.take n) := by
  induction n generalizing s t with
  | zero => simp [strncasecmp]
  | succ n ih =>
      rcases s with _ | ⟨a, s⟩ <;> rcases t with _ | ⟨b, t⟩
      · rfl
      · rfl
      · rfl
      · simp only [strncasecmp, List.take_succ_cons, ih s t]

theorem uEqual_take (s t : Bytes) (n : Nat) (ignoreCase : Bool) :
    uEqual s t n ignoreCase = uEqual (s.take n) (t.take n) n ignoreCase := by
  cases ignoreCase with
  | false => exact memcmp_take n s t
  | true => exact strncasecmp_take n s t

theorem strncasecmp_swap {s t : Bytes} (n : Nat) :
    strncasecmp n s t = 0 ↔ strncasecmp n t s = 0 := by
  induction n generalizing s t with
  | zero => simp [strncasecmp]
  | succ n ih =>
      rcases s with _ | ⟨a, s⟩ <;> rcases t with _ | ⟨b, t⟩
      · simp [strncasecmp]
      · simp [strncasecmp]
      · simp [strncasecmp]
      · simp only [strncasecmp]
        rcases byte_trichotomy (tolower a) (tolower b) with hab | hab | hab
        · simp [hab, UInt8.lt_asymm hab]
        · simp [hab, ih]
        · simp [hab, UInt8.lt_asymm hab]

/-- The comparison is equality already when one of the keys can be compared as
a whole. -/
theorem uEqual_eq_zero_right {ignoreCase : Bool} {s t : Bytes} (hlen : s.length = t.length)
    (ht : Comparable ignoreCase t) :
    uEqual s t s.length ignoreCase = 0 ↔ canon ignoreCase s = canon ignoreCase t := by
  cases ignoreCase with
  | false => simpa [uEqual, canon] using memcmp_eq_zero hlen
  | true =>
      have h := strncasecmp_eq_zero hlen.symm (ht rfl)
      rw [← hlen, ← strncasecmp_swap] at h
      simpa [uEqual, canon, eq_comm] using h

theorem strncasecmp_congr_right {t t' : Bytes} (h : t.map tolower = t'.map tolower) (n : Nat)
    (s : Bytes) : strncasecmp n s t = strncasecmp n s t' := by
  induction n generalizing s t t' with
  | zero => simp [strncasecmp]
  | succ n ih =>
      rcases t with _ | ⟨b, t⟩ <;> rcases t' with _ | ⟨b', t'⟩
      · rfl
      · simp at h
      · simp at h
      · simp only [List.map_cons, List.cons.injEq] at h
        rcases s with _ | ⟨a, s⟩
        · rfl
        · simp only [strncasecmp, h.1, ih h.2]

theorem uEqual_congr_right {ignoreCase : Bool} {t t' : Bytes}
    (h : canon ignoreCase t = canon ignoreCase t') (s : Bytes) (n : Nat) :
    uEqual s t n ignoreCase = uEqual s t' n ignoreCase := by
  cases ignoreCase with
  | false => rw [canon_false, canon_false] at h; rw [h]
  | true => exact strncasecmp_congr_right (by simpa [canon] using h) n s

theorem Comparable.congr {ignoreCase : Bool} {k k' : Bytes} (hk : Comparable ignoreCase k)
    (h : canon ignoreCase k' = canon ignoreCase k) : Comparable ignoreCase k' := by
  rintro rfl h0
  have hmem : tolower 0 ∈ k.map tolower := by
    have := List.mem_map_of_mem (f := tolower) h0
    rwa [show k'.map tolower = k.map tolower by simpa [canon] using h] at this
  obtain ⟨c, hc, hzero⟩ := List.mem_map.mp hmem
  have hc0 : c = 0 := tolower_eq_zero.mp (hzero.trans (tolower_eq_zero.mpr rfl))
  exact hk rfl (hc0 ▸ hc)

theorem strncasecmp_self (n : Nat) (s : Bytes) : strncasecmp n s s = 0 := by
  induction s generalizing n with
  | nil => cases n <;> rfl
  | cons a s ih =>
      cases n with
      | zero => rfl
      | succ n => simp [strncasecmp, ih]

/-- Keys that compare equal compare alike with every key, also behind a NUL byte. -/
theorem strncasecmp_of_zero {s t : Bytes} (hlen : s.length = t.length)
    (h : strncasecmp s.length s t = 0) (n : Nat) (u : Bytes) :
    strncasecmp n s u = strncasecmp n t u := by
  induction s generalizing t n u with
  | nil =>
      rcases t with _ | ⟨b, t⟩
      · rfl
      · simp at hlen
  | cons a s ih =>
      rcases t with _ | ⟨b, t⟩
      · simp at hlen
      simp only [List.length_cons, Nat.add_right_cancel_iff] at hlen
      simp only [List.length_cons, strncasecmp] at h
      rcases byte_trichotomy (tolower a) (tolower b) with hab | hab | hab
      · simp [hab] at h
      · simp only [hab, UInt8.lt_irrefl, if_false] at h
        rcases n with _ | n <;> rcases u with _ | ⟨c, u⟩
        · rfl
        · rfl
        · rfl
        · simp only [strncasecmp, hab]
          by_cases hzero : tolower b = 0
          · simp only [hzero, if_true]
          · simp only [hzero, if_false] at h ⊢
            rw [ih hlen h]
      · simp [hab, UInt8.lt_asymm hab] at h

theorem uEqual_self (s : Bytes) (ignoreCase : Bool) : uEqual s s s.length ignoreCase = 0 := by
  cases ignoreCase with
  | false => exact (memcmp_eq_zero rfl).mpr rfl
  | true => exact strncasecmp_self _ s

theorem uEqual_of_zero {ignoreCase : Bool} {s t : Bytes} (hlen : s.length = t.length)
    (h : uEqual s t s.length ignoreCase = 0) (u : Bytes) (n : Nat) :
    uEqual s u n ignoreCase = uEqual t u n ignoreCase := by
  cases ignoreCase with
  | false => rw [(memcmp_eq_zero hlen).mp h]
  | true => exact strncasecmp_of_zero hlen h n u

end ULib.KeyComparison
