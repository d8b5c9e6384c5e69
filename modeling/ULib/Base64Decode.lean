import ULib.Base64
import Mathlib.Data.List.TakeWhile

/-!
`u_base64_decode` of `base/coder/cbase64.c` on any input: which places of its
tables it reads, where it stops, how much it writes and what it calls an error.
-/

namespace ULib.Base64Decode

open ULib.KeyComparison
open ULib.EscapeCoding (isSpace forall_byte)
open ULib.Base64

/-- `(int)c`, the char being signed -/
def charIndex (c : UInt8) : Int := c.toInt8.toInt

def inTable (i : Int) : Bool := 0 ≤ i && i ≤ 255

/-- The indices into `member` of the loop that looks for the end, up to one that is outside of
the table. -/
def scanReads : Bytes → List Int
  | [] => []
  | c :: t =>
      if c = 0 then []
      else charIndex c ::
        if inTable (charIndex c) ∧ (member c ∨ c = pad ∨ isSpace c) then scanReads t else []

/-- The indices into `member` and `decoder` of the loop over the groups. -/
def groupReads : Bytes → List Int
  | [] => []
  | c :: t =>
      if c = pad then []
      else if member c = false then charIndex c :: groupReads t
      else charIndex c :: charIndex c :: groupReads t

/-- All places of the tables that are read. -/
def tableReads (inp : Bytes) : List Int :=
  scanReads inp ++ ((taken inp).map groupReads).getD []

/-! ### What the input says -/

/-- The bytes before the first one that is neither alphabet nor padding nor white space -/
def text (inp : Bytes) : Bytes := inp.takeWhile isClean

def isLetter (c : UInt8) : Bool := c ≠ 0 && member c

/-- The alphabet characters before the first padding -/
def letters (t : Bytes) : Bytes := (t.takeWhile (· ≠ pad)).filter isLetter

/-- The first padding and what follows it, without white space -/
def ending (t : Bytes) : Bytes := (t.dropWhile (· ≠ pad)).filter fun c => !isSpace c

/-- A padding follows on a last group of `n` letters that padding can complete. -/
def padded (n : Nat) (e : Bytes) : Bool := (n = 2 || n = 3) && e.head? = some pad

/-- The last group of `n` letters is completed by its padding. -/
def paddedInFull (n : Nat) (e : Bytes) : Bool :=
  (n = 2 && e.take 2 = [pad, pad]) || (n = 3 && e.take 1 = [pad])

/-- What is asked of the decoder, where `ok n e` says that the ending `e` pads the last `n` letters
correctly: it stays inside of the tables, it stops at the first other byte, what it writes is
bounded, and an error is the lack of whole groups and of a correctly padded last one. -/
structure Decodes (ok : Nat → Bytes → Bool) (inp : Bytes) : Prop where
  reads : ∀ i ∈ tableReads inp, inTable i
  stops : taken inp = some (text inp)
  writes : ∀ r ∈ decode inp, r.1.length ≤ 3 * (inp.length / 4) + 2
  errors : ∀ r ∈ decode inp, r.2 = true ↔
    ¬ ((letters (text inp)).length % 4 = 0 ∨
      ok ((letters (text inp)).length % 4) (ending (text inp)))

/-- The byte that ends the text, if there is one, is not from 128 on. -/
def endsInTable (inp : Bytes) : Bool := (inp.dropWhile isClean).head?.all (· < 128)

/-- Two letters with a single padding -/
def halfPadded (inp : Bytes) : Bool :=
  (letters (text inp)).length % 4 = 2 && (ending (text inp)).head? = some pad &&
    (ending (text inp)).take 2 ≠ [pad, pad]

/-! ### Where the decoder stops -/

theorem inTable_charIndex (c : UInt8) : inTable (charIndex c) = decide (c < 128) := by
  revert c
  exact forall_byte (by decide +kernel)

theorem isClean_iff (c : UInt8) :
    isClean c ↔ c ≠ 0 ∧ c < 128 ∧ (member c ∨ c = pad ∨ isSpace c) := by
  simp only [isClean, Bool.and_eq_true, Bool.or_eq_true, decide_eq_true_eq, and_assoc, or_assoc]

theorem endsInTable_cons {c : UInt8} (hc : isClean c) (t : Bytes) :
    endsInTable (c :: t) = endsInTable t := by
  rw [endsInTable, List.dropWhile_cons_of_pos hc, endsInTable]

theorem endsInTable_stop {c : UInt8} (hc : ¬ isClean c) (t : Bytes) :
    endsInTable (c :: t) = decide (c < 128) := by
  rw [endsInTable, List.dropWhile_cons_of_neg hc]
  rfl

theorem taken_eq (inp : Bytes) :
    taken inp = if endsInTable inp then some (text inp) else none := by
  induction inp with
  | nil => rfl
  | cons c t ih =>
      by_cases hclean : isClean c
      · obtain ⟨hzero, hlt, htable⟩ := (isClean_iff c).mp hclean
        have htext : text (c :: t) = c :: text t := List.takeWhile_cons_of_pos hclean
        rw [taken, if_neg hzero, if_neg (UInt8.not_le.mpr hlt), if_pos htable, ih,
          endsInTable_cons hclean, htext]
        split_ifs
        · rfl
        · rfl
      · have htext : text (c :: t) = [] := List.takeWhile_cons_of_neg hclean
        rw [taken, endsInTable_stop hclean, htext]
        by_cases hlt : c < 128
        · have htable : ¬ (c ≠ 0 ∧ (member c ∨ c = pad ∨ isSpace c)) :=
            fun h => hclean ((isClean_iff c).mpr ⟨h.1, hlt, h.2⟩)
          rw [if_pos (decide_eq_true hlt), if_neg (UInt8.not_le.mpr hlt)]
          split_ifs with hzero h
          · rfl
          · exact absurd ⟨hzero, h⟩ htable
          · rfl
        · have hzero : c ≠ 0 := by
            rintro rfl
            exact hlt (by decide)
          rw [if_neg hzero, if_pos (UInt8.not_lt.mp hlt), if_neg (by simpa using hlt)]

/-- The first loop leaves the table if and only if its last byte does. -/
theorem scanReads_inTable (inp : Bytes) :
    (∀ i ∈ scanReads inp, inTable i) ↔ endsInTable inp := by
  induction inp with
  | nil => simp [scanReads, endsInTable]
  | cons c t ih =>
      rw [scanReads]
      by_cases hclean : isClean c
      · obtain ⟨hzero, hlt, htable⟩ := (isClean_iff c).mp hclean
        have hin : inTable (charIndex c) := by
          rw [inTable_charIndex]
          exact decide_eq_true hlt
        rw [if_neg hzero, if_pos ⟨hin, htable⟩, List.forall_mem_cons, ih, endsInTable_cons hclean]
        exact and_iff_right hin
      · rw [endsInTable_stop hclean]
        by_cases hzero : c = 0
        · rw [if_pos hzero, hzero]
          simp
        · rw [if_neg hzero, if_neg, List.forall_mem_singleton, inTable_charIndex]
          rintro ⟨hin, htable⟩
          rw [inTable_charIndex, decide_eq_true_iff] at hin
          exact hclean ((isClean_iff c).mpr ⟨hzero, hin, htable⟩)

theorem groupReads_inTable {t : Bytes} (h : ∀ c ∈ t, c < 128) : ∀ i ∈ groupReads t, inTable i := by
  induction t with
  | nil => simp [groupReads]
  | cons c t ih =>
      have hin : inTable (charIndex c) := by
        rw [inTable_charIndex]
        exact decide_eq_true (h c List.mem_cons_self)
      have hrest := ih fun d hd => h d (List.mem_cons_of_mem c hd)
      rw [groupReads]
      split_ifs
      · simp
      · exact List.forall_mem_cons.mpr ⟨hin, hrest⟩
      · exact List.forall_mem_cons.mpr ⟨hin, List.forall_mem_cons.mpr ⟨hin, hrest⟩⟩

theorem clean_text {inp : Bytes} {c : UInt8} (h : c ∈ text inp) : isClean c :=
  List.mem_takeWhile_imp h

theorem tableReads_inTable (inp : Bytes) :
    (∀ i ∈ tableReads inp, inTable i) ↔ endsInTable inp := by
  rw [tableReads, List.forall_mem_append, scanReads_inTable, taken_eq]
  refine ⟨And.left, fun h => ⟨h, ?_⟩⟩
  rw [if_pos h, Option.map_some, Option.getD_some]
  exact groupReads_inTable fun c hc => ((isClean_iff c).mp (clean_text hc)).2.1

/-! ### Groups of letters -/

theorem letters_pad (t : Bytes) : letters (pad :: t) = [] := by
  rw [letters, List.takeWhile_cons_of_neg (by simp)]
  rfl

theorem letters_cons {c : UInt8} (hc : c ≠ pad) (t : Bytes) :
    letters (c :: t) = if isLetter c then c :: letters t else letters t := by
  rw [letters, List.takeWhile_cons_of_pos (by simpa using hc), List.filter_cons, letters]

/-- What the loop over the groups makes of `count` letters and those of `t`. -/
theorem decodeLoop_letters {t : Bytes} (h : ∀ c ∈ t, c ≠ 0) {count : Nat} (hcount : count < 4)
    (v : Nat) :
    ((decodeLoop count v t).2 = true ↔
        if pad ∈ t then (count + (letters t).length) % 4 = 1
        else (count + (letters t).length) % 4 ≠ 0) ∧
      (decodeLoop count v t).1.length = 3 * ((count + (letters t).length) / 4) +
        if pad ∈ t then (count + (letters t).length) % 4 - 1 else 0 := by
  induction t generalizing count v with
  | nil => 
      have hmod : count % 4 = count := Nat.mod_eq_of_lt hcount
      have hdiv : count / 4 = 0 := Nat.div_eq_of_lt hcount
      simp [decodeLoop, letters, hmod, hdiv]
  | cons c t ih =>
      have ht : ∀ c ∈ t, c ≠ 0 := fun d hd => h d (List.mem_cons_of_mem c hd)
      by_cases hpad : c = pad
      · subst hpad
        rw [decodeLoop, if_pos rfl, letters_pad]
        obtain rfl | rfl | rfl | rfl : count = 0 ∨ count = 1 ∨ count = 2 ∨ count = 3 := by omega
        · simp
        · simp
        · simp
        · simp
      · have hmem : pad ∈ c :: t ↔ pad ∈ t := by
          rw [List.mem_cons, or_iff_right (Ne.symm hpad)]
        rw [decodeLoop, if_neg hpad, letters_cons hpad]
        simp only [hmem]
        by_cases hmember : member c = false
        · have hletter : ¬ isLetter c := by simp [isLetter, hmember]
          rw [if_pos hmember, if_neg hletter]
          exact ih ht hcount v
        · have hletter : isLetter c := by
            simp [isLetter, h c List.mem_cons_self, hmember]
          rw [if_neg hmember, if_pos hletter, List.length_cons]
          by_cases hfull : count + 1 = 4
          · obtain ⟨herrors, hlength⟩ := ih ht (by decide : 0 < 4) 0
            have hmod : (count + ((letters t).length + 1)) % 4 = (0 + (letters t).length) % 4 := by
              omega
            have hdiv : (count + ((letters t).length + 1)) / 4 =
                (0 + (letters t).length) / 4 + 1 := by omega
            rw [if_pos hfull, hmod, hdiv]
            refine ⟨herrors, ?_⟩
            simp only [Prod.map_fst, List.length_append, List.length_cons, List.length_nil, hlength]
            omega
          · have hsum : count + ((letters t).length + 1) = count + 1 + (letters t).length := by
              omega
            rw [if_neg hfull, hsum]
            exact ih ht (by omega) _

theorem length_letters (t : Bytes) :
    (letters t).length + (if pad ∈ t then 1 else 0) ≤ t.length := by
  induction t with
  | nil => exact Nat.le_refl 0
  | cons c t ih =>
      by_cases hpad : c = pad
      · subst hpad
        rw [letters_pad, if_pos List.mem_cons_self]
        simp
      · have hmem : pad ∈ c :: t ↔ pad ∈ t := by
          rw [List.mem_cons, or_iff_right (Ne.symm hpad)]
        rw [letters_cons hpad, List.length_cons]
        simp only [hmem]
        by_cases hletter : isLetter c
        · rw [if_pos hletter, List.length_cons]
          omega
        · rw [if_neg hletter]
          omega

/-- Behind the letters stands the first padding, or nothing. -/
theorem ending_eq (t : Bytes) :
    (pad ∈ t ∧ ∃ e, ending t = pad :: e) ∨ (pad ∉ t ∧ ending t = []) := by
  induction t with
  | nil => exact .inr ⟨by simp, rfl⟩
  | cons c t ih =>
      by_cases hpad : c = pad
      · subst hpad
        refine .inl ⟨List.mem_cons_self, ?_⟩
        rw [ending, List.dropWhile_cons_of_neg (by simp), List.filter_cons_of_pos (by decide)]
        exact ⟨_, rfl⟩
      · have hmem : pad ∈ c :: t ↔ pad ∈ t := by
          rw [List.mem_cons, or_iff_right (Ne.symm hpad)]
        have hending : ending (c :: t) = ending t := by
          rw [ending, List.dropWhile_cons_of_pos (by simpa using hpad), ending]
        rw [hmem, hending]
        exact ih

/-! ### What the decoder does -/

/-- The number of letters in the last group -/
def lastGroup (inp : Bytes) : Nat := (letters (text inp)).length % 4

theorem decode_spec {inp : Bytes} (h : endsInTable inp) :
    ∃ out errors, decode inp = some (out, errors) ∧ out.length ≤ 3 * (inp.length / 4) + 2 ∧
      (errors = true ↔ if pad ∈ text inp then lastGroup inp = 1 else lastGroup inp ≠ 0) := by
  have hzero : ∀ c ∈ text inp, c ≠ 0 := fun c hc => ((isClean_iff c).mp (clean_text hc)).1
  have hdecode : decode inp = some (decodeLoop 0 0 (text inp)) := by
    rw [decode, taken_eq, if_pos h, Option.map_some]
  obtain ⟨herrors, hlength⟩ := decodeLoop_letters hzero (by decide : 0 < 4) 0
  rw [Nat.zero_add] at herrors hlength
  refine ⟨_, _, hdecode, ?_, herrors⟩
  have hletters := length_letters (text inp)
  have htext : (text inp).length ≤ inp.length := (List.takeWhile_sublist _).length_le
  rw [hlength]
  split_ifs at hletters ⊢ <;> omega

/-- What is asked of the decoder holds where it stays inside of its tables, if the endings that
count as correct are those that it accepts. -/
theorem decodes_iff_accepts (ok : Nat → Bytes → Bool) (inp : Bytes) :
    Decodes ok inp ↔ endsInTable inp ∧
      ((if pad ∈ text inp then lastGroup inp = 1 else lastGroup inp ≠ 0) ↔
        ¬ (lastGroup inp = 0 ∨ ok (lastGroup inp) (ending (text inp)))) := by
  constructor
  · rintro ⟨hreads, -, -, herrors⟩
    have hend := (tableReads_inTable inp).mp hreads
    obtain ⟨out, errors, hdecode, -, hloop⟩ := decode_spec hend
    exact ⟨hend, hloop.symm.trans (herrors (out, errors) hdecode)⟩
  · rintro ⟨hend, haccepts⟩
    obtain ⟨out, errors, hdecode, hlength, hloop⟩ := decode_spec hend
    refine ⟨(tableReads_inTable inp).mpr hend, ?_, ?_, ?_⟩
    · rw [taken_eq, if_pos hend]
    · rintro r hr
      obtain rfl := Option.some.inj (hdecode.symm.trans hr)
      exact hlength
    · rintro r hr
      obtain rfl := Option.some.inj (hdecode.symm.trans hr)
      exact hloop.trans haccepts

/-- Any padding behind two or three letters is accepted, also one that does not complete the
group. -/
theorem decodes_iff (inp : Bytes) :
    (Decodes padded inp ↔ endsInTable inp) ∧
      (Decodes paddedInFull inp ↔ endsInTable inp ∧ ¬ halfPadded inp) := by
  have hlt : lastGroup inp < 4 := Nat.mod_lt _ (by decide)
  rw [decodes_iff_accepts, decodes_iff_accepts, halfPadded]
  change _ ∧ (_ ↔ _ ∧ ¬ (decide (lastGroup inp = 2) && _ && _) = true)
  generalize lastGroup inp = n at hlt ⊢
  rcases ending_eq (text inp) with ⟨hmem, e, he⟩ | ⟨hmem, he⟩
  · rw [he, if_pos hmem]
    match n, hlt with
    | 0, _ => simp [padded, paddedInFull]
    | 1, _ => simp [padded, paddedInFull]
    | 2, _ => simp [padded, paddedInFull]
    | 3, _ => simp [padded, paddedInFull]
  · rw [he, if_neg hmem]
    simp [padded, paddedInFull]

/-- A byte from 128 on is a place in front of the table. -/
theorem not_decodes_high : ¬ Decodes padded [0x80] ∧ ¬ Decodes paddedInFull [0x80] :=
  ⟨fun h => absurd (h.reads (-128) (by decide)) (by decide),
    fun h => absurd (h.reads (-128) (by decide)) (by decide)⟩

/-- `QQ=`, and `QQ==` -/
example : decode [81, 81, 61] = some ([65], false) ∧
    decode [81, 81, 61, 61] = some ([65], false) := by
  decide

end ULib.Base64Decode
