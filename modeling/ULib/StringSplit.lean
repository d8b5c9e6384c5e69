import ULib.TextBuffer

/-!
`join` and the `split` at one character of `UVector<UString>` in `vector.cpp`. The
length of the joined text is counted in 32 bits before anything is copied.
-/

namespace ULib.StringSplit

open ULib.KeyComparison
open ULib.EscapeCoding (peek quote)
open ULib.JsonValue (uCapacity)
open ULib.StringHeap (allocated)
open ULib.TextBuffer

/-! ### join -/

/-- The sum of the sizes and the delimiters, an `uint32_t` -/
def joinedLength (vec : List Bytes) (tlen : Nat) : Nat :=
  (vec.foldl (fun len s => (len + s.length) % 2 ^ 32) 0 + (vec.length - 1) * tlen) % 2 ^ 32

/-- The loop that copies: it is left behind the last string, in front of the delimiter. -/
def copyLoop (t : Bytes) : Buffer → List Bytes → Option Buffer
  | x, [] => some x
  | x, [s] => put x s
  | x, s :: s' :: vec => do
      let x ← put x s
      let x ← put x t
      copyLoop t x (s' :: vec)

/-- `join(t, tlen)`; `none` where a copy leaves the block. -/
def join (vec : List Bytes) (t : Bytes) : Option Bytes :=
  if vec = [] then some []
  else
    let len := joinedLength vec t.length
    (copyLoop t (created (if len < uCapacity then uCapacity else len)) vec).map
      fun x => x.data.take len

/-! ### split -/

/-- The loop of `split` over the text `str` that is left at the offset `s`: where its tokens begin
and end. -/
def splitLoop (delim : UInt8) : Nat → Nat → Bytes → List (Nat × Nat)
  | 0, _, _ => []
  | _ + 1, _, [] => []
  | n + 1, s, c :: str =>
      if c = delim then splitLoop delim n (s + 1) str
      else
        -- `memchr`, which finds the end when it finds nothing
        let len := (c :: str).idxOf delim
        (s, s + len) :: splitLoop delim n (s + len + 1) ((c :: str).drop (len + 1))

/-- Where the tokens of `split(str, delim)` are; a quote at the start is left out with the last
byte. -/
def splitSpans (str : Bytes) (delim : UInt8) : List (Nat × Nat) :=
  if peek str 0 = quote then splitLoop delim str.length 1 ((str.drop 1).take (str.length - 2))
  else splitLoop delim str.length 0 str

/-- `substr(p, s - p)` -/
def substr (str : Bytes) (span : Nat × Nat) : Bytes := (str.drop span.1).take (span.2 - span.1)

/-- `split(str, delim)`: the vector behind it, and the number of tokens. -/
def split (vec : List Bytes) (str : Bytes) (delim : UInt8) : List Bytes × Nat :=
  (vec ++ (splitSpans str delim).map (substr str), (splitSpans str delim).length)

/-! ### Maximal runs -/

section Run

variable {α : Type*} {d : α} {str : List α}

/-- No `d` stands from `i` up to `j`, and the text begins or a `d` stands in front of `i`, and it
ends or a `d` stands at `j`. -/
structure MaximalRun (d : α) (str : List α) (i j : Nat) : Prop where
  lt : i < j
  le : j ≤ str.length
  free : ∀ k, i ≤ k → k < j → str[k]? ≠ some d
  start : i = 0 ∨ str[i - 1]? = some d
  stop : j = str.length ∨ str[j]? = some d

/-- Two maximal runs of which one begins within the other are the same. -/
theorem MaximalRun.unique {i j i' j' : Nat} (h : MaximalRun d str i j)
    (h' : MaximalRun d str i' j') (hle : i ≤ i') (hlt : i' < j) : i' = i ∧ j' = j := by
  have hstart : i' = i := by
    rcases h'.start with hzero | hsep
    · omega
    · by_contra hne
      exact h.free (i' - 1) (by omega) (by omega) hsep
  subst hstart
  refine ⟨rfl, ?_⟩
  rcases Nat.lt_trichotomy j' j with hj | hj | hj
  · rcases h'.stop with hend | hsep
    · have := h.le
      omega
    · exact absurd hsep (h.free j' (Nat.le_of_lt h'.lt) hj)
  · exact hj
  · rcases h.stop with hend | hsep
    · have := h'.le
      omega
    · exact absurd hsep (h'.free j (Nat.le_of_lt h.lt) hj)

variable [DecidableEq α]

theorem idxOf_spec (d : α) (t : List α) :
    (∀ k < t.idxOf d, t[k]? ≠ some d) ∧ (t.idxOf d = t.length ∨ t[t.idxOf d]? = some d) := by
  induction t with
  | nil => simp
  | cons c t ih =>
      by_cases hc : c = d
      · subst hc
        simp
      · rw [List.idxOf_cons_ne t hc]
        refine ⟨?_, ?_⟩
        · rintro (_ | k) hk
          · simpa using hc
          · exact ih.1 k (Nat.lt_of_succ_lt_succ hk)
        · exact ih.2.imp (congrArg Nat.succ) id

/-- The run that begins at `s`, where `t` is left of the text. -/
theorem maximalRun_idxOf {s : Nat} {c : α} {t : List α} (hdrop : str.drop s = c :: t) (hc : c ≠ d)
    (hstart : s = 0 ∨ str[s - 1]? = some d) :
    MaximalRun d str s (s + (c :: t).idxOf d) := by
  have hget : ∀ k, str[s + k]? = (c :: t)[k]? := by
    intro k
    rw [← hdrop, List.getElem?_drop]
  have hlength : str.length = s + (c :: t).length := by
    have h := congrArg List.length hdrop
    rw [List.length_drop, List.length_cons] at h
    rw [List.length_cons]
    omega
  obtain ⟨hfree, hstop⟩ := idxOf_spec d (c :: t)
  constructor
  · rw [List.idxOf_cons_ne t hc]
    omega
  · have := List.idxOf_le_length (l := c :: t) (a := d)
    omega
  · intro k hk hlt
    obtain ⟨k, rfl⟩ := Nat.exists_eq_add_of_le hk
    rw [hget]
    exact hfree k (by omega)
  · exact hstart
  · rw [hget, hlength]
    exact hstop.imp (fun h => by rw [h]) id

end Run

/-- No run begins behind the end. -/
theorem not_maximalRun_of_drop {d : UInt8} {str : Bytes} {s i j : Nat} (hdrop : str.drop s = []) :
    ¬ (s ≤ i ∧ MaximalRun d str i j) := by
  have hs : str.length ≤ s := List.drop_eq_nil_iff.mp hdrop
  rintro ⟨hle, hrun⟩
  have := hrun.lt
  have := hrun.le
  omega

/-- The loop finds the maximal runs that begin at `s` or later. -/
theorem mem_splitLoop {d : UInt8} {str : Bytes} {n s : Nat} {t : Bytes} (hdrop : str.drop s = t)
    (hn : t.length ≤ n) (hstart : s = 0 ∨ str[s - 1]? = some d ∨ str.length < s) (i j : Nat) :
    (i, j) ∈ splitLoop d n s t ↔ s ≤ i ∧ MaximalRun d str i j := by
  induction n generalizing s t with
  | zero =>
      obtain rfl := List.eq_nil_of_length_eq_zero (Nat.le_zero.mp hn)
      simp only [splitLoop, List.not_mem_nil, false_iff]
      exact not_maximalRun_of_drop hdrop
  | succ n ih =>
      cases t with
      | nil =>
          simp only [splitLoop, List.not_mem_nil, false_iff]
          exact not_maximalRun_of_drop hdrop
      | cons c t =>
          have hlt : s < str.length := by
            by_contra hge
            rw [List.drop_eq_nil_of_le (Nat.not_lt.mp hge)] at hdrop
            cases hdrop
          have hget : str[s]? = some c := by
            have h := congrArg (·[0]?) hdrop
            simpa using h
          have hrest : ∀ k, str.drop (s + k + 1) = t.drop k := by
            intro k
            rw [Nat.add_assoc, ← List.drop_drop, hdrop, List.drop_succ_cons]
          rw [splitLoop]
          by_cases hc : c = d
          · have hskip : str.drop (s + 1) = t := hrest 0
            rw [if_pos hc, ih hskip (Nat.le_of_succ_le_succ hn) (.inr (.inl (hc ▸ hget)))]
            refine and_congr_left fun hrun => ⟨Nat.le_of_succ_le, fun hle => ?_⟩
            refine Nat.lt_of_le_of_ne hle ?_
            rintro rfl
            exact hrun.free s (Nat.le_refl s) hrun.lt (hc ▸ hget)
          · rw [if_neg hc]
            dsimp only
            rw [List.drop_succ_cons]
            have hrun := maximalRun_idxOf hdrop hc
              (hstart.imp_right fun h => h.resolve_right (by omega))
            have hpos : 0 < (c :: t).idxOf d := by
              have := hrun.lt
              omega
            generalize hlen : (c :: t).idxOf d = len at hrun hpos ⊢
            have hnext : s + len + 1 = 0 ∨ str[s + len + 1 - 1]? = some d ∨
                str.length < s + len + 1 := by
              rcases hrun.stop with hend | hsep
              · exact .inr (.inr (by omega))
              · exact .inr (.inl hsep)
            have hshort : (t.drop len).length ≤ n := by
              rw [List.length_drop]
              rw [List.length_cons] at hn
              omega
            rw [List.mem_cons, ih (hrest len) hshort hnext]
            constructor
            · rintro (heq | ⟨hle, hrun'⟩)
              · obtain ⟨rfl, rfl⟩ := Prod.mk.inj heq
                exact ⟨Nat.le_refl _, hrun⟩
              · exact ⟨by omega, hrun'⟩
            · rintro ⟨hle, hrun'⟩
              by_cases hin : i < s + len
              · obtain ⟨rfl, rfl⟩ := hrun.unique hrun' hle hin
                exact .inl rfl
              · refine .inr ⟨?_, hrun'⟩
                refine Nat.lt_of_le_of_ne (Nat.not_lt.mp hin) ?_
                rintro rfl
                rcases hrun.stop with hend | hsep
                · have := hrun'.lt
                  have := hrun'.le
                  omega
                · exact hrun'.free _ (Nat.le_refl _) hrun'.lt hsep

/-- Each token ends in front of the delimiter that the next one begins behind. -/
theorem splitLoop_ordered (d : UInt8) (n s : Nat) (t : Bytes) :
    (∀ a ∈ splitLoop d n s t, s ≤ a.1) ∧
      (splitLoop d n s t).Pairwise fun a b => a.2 < b.1 := by
  induction n generalizing s t with
  | zero => exact ⟨nofun, .nil⟩
  | succ n ih =>
      cases t with
      | nil => exact ⟨nofun, .nil⟩
      | cons c t =>
          rw [splitLoop]
          by_cases hc : c = d
          · rw [if_pos hc]
            exact ⟨fun a ha => Nat.le_of_succ_le ((ih (s + 1) t).1 a ha), (ih (s + 1) t).2⟩
          · rw [if_neg hc]
            dsimp only
            obtain ⟨hle, hordered⟩ := ih (s + (c :: t).idxOf d + 1)
              ((c :: t).drop ((c :: t).idxOf d + 1))
            refine ⟨?_, List.pairwise_cons.mpr ⟨fun b hb => hle b hb, hordered⟩⟩
            rintro a ha
            rcases List.mem_cons.mp ha with rfl | ha
            · exact Nat.le_refl s
            · have := hle a ha
              omega

/-! ### What was joined -/

/-- The strings with the delimiter between them -/
def joined (t : Bytes) : List Bytes → Bytes
  | [] => []
  | [s] => s
  | s :: s' :: vec => s ++ t ++ joined t (s' :: vec)

theorem copyLoop_eq (t : Bytes) (x : Buffer) (s : Bytes) (vec : List Bytes) :
    copyLoop t x (s :: vec) = put x (joined t (s :: vec)) := by
  induction vec generalizing x s with
  | nil => rfl
  | cons s' vec ih =>
      rw [joined, ← put_append, ← put_append, Option.bind_assoc]
      simp only [copyLoop, ih, Option.bind_eq_bind]

theorem length_joined (t : Bytes) (s : Bytes) (vec : List Bytes) (len : Nat) :
    (vec.foldl (fun len s => len + s.length) (len + s.length)) + vec.length * t.length =
      len + (joined t (s :: vec)).length := by
  induction vec generalizing s len with
  | nil => rw [List.foldl_nil, List.length_nil, Nat.zero_mul, joined, Nat.add_zero]
  | cons s' vec ih =>
      have h := ih s' (len + s.length)
      rw [List.foldl_cons, List.length_cons, joined, List.length_append, List.length_append,
        Nat.succ_mul, ← Nat.add_assoc, h]
      omega

theorem foldl_mod (vec : List Bytes) (len : Nat) :
    vec.foldl (fun len s => (len + s.length) % 2 ^ 32) (len % 2 ^ 32) =
      vec.foldl (fun len s => len + s.length) len % 2 ^ 32 := by
  induction vec generalizing len with
  | nil => rfl
  | cons s vec ih => rw [List.foldl_cons, List.foldl_cons, Nat.mod_add_mod, ih]

theorem joinedLength_eq (s : Bytes) (vec : List Bytes) (t : Bytes) :
    joinedLength (s :: vec) t.length = (joined t (s :: vec)).length % 2 ^ 32 := by
  have hlength := length_joined t s vec 0
  rw [Nat.zero_add] at hlength
  rw [joinedLength, show (0 : Nat) = 0 % 2 ^ 32 from rfl, foldl_mod, Nat.mod_add_mod,
    List.foldl_cons, List.length_cons, Nat.add_sub_cancel, Nat.zero_add, hlength, Nat.zero_add]

/-- The text is put together as long as its length can be allocated. -/
theorem join_eq (s : Bytes) (vec : List Bytes) (t : Bytes) :
    join (s :: vec) t =
      if (joined t (s :: vec)).length ≤ maxSize then some (joined t (s :: vec)) else none := by
  have hmap : ∀ (x : Option Buffer) (len : Nat), x.map (fun x => x.data.take len) =
      (x.map Buffer.data).map (·.take len) := by
    intro x len
    rw [Option.map_map]
    rfl
  rw [join, if_neg (by simp)]
  dsimp only
  rw [copyLoop_eq, hmap, put_created, joinedLength_eq]
  generalize joined t (s :: vec) = text
  by_cases hle : text.length ≤ maxSize
  · have hmod : text.length % 2 ^ 32 = text.length := by
      rw [maxSize] at hle
      exact Nat.mod_eq_of_lt (by omega)
    have hfits : text.length ≤
        (allocated (if text.length < uCapacity then uCapacity else text.length)).1 := by
      split_ifs with hsmall
      · exact Nat.le_trans (Nat.le_of_lt hsmall) (le_allocated (by decide))
      · exact le_allocated hle
    rw [hmod, if_pos hle, if_pos hfits, Option.map_some, List.take_length]
  · rw [if_neg hle, if_neg fun hfits => hle (Nat.le_trans hfits (allocated_le _).1)]
    rfl

/-- A token that ends the text, or in front of a delimiter. -/
theorem splitLoop_token {d : UInt8} {w : Bytes} (hw : w ≠ []) (hd : d ∉ w) (n s : Nat)
    {rest : Bytes} (hrest : rest = [] ∨ rest.head? = some d) :
    splitLoop d (n + 1) s (w ++ rest) =
      (s, s + w.length) :: splitLoop d n (s + w.length + 1) (rest.drop 1) := by
  have hidx : (w ++ rest).idxOf d = w.length := by
    have hzero : rest.idxOf d = 0 := by
      rcases rest with _ | ⟨c, rest⟩
      · rfl
      · obtain rfl : c = d := by simpa using hrest
        exact List.idxOf_cons_self
    rw [List.idxOf_append, if_neg hd, hzero, Nat.zero_add]
  cases w with
  | nil => exact absurd rfl hw
  | cons c w =>
      have hc : c ≠ d := fun h => hd (h ▸ List.mem_cons_self)
      rw [List.cons_append] at hidx ⊢
      rw [splitLoop, if_neg hc, hidx]
      dsimp only
      rw [← List.cons_append, List.drop_length_add_append]

theorem substr_split (w rest : Bytes) {str : Bytes} {s : Nat} (hdrop : str.drop s = w ++ rest) :
    substr str (s, s + w.length) = w := by
  rw [substr, hdrop, Nat.add_sub_cancel_left, List.take_left]

/-- The loop cuts what was joined at the delimiters. -/
theorem splitLoop_joined {d : UInt8} {vec : List Bytes} (h : ∀ w ∈ vec, w ≠ [] ∧ d ∉ w)
    {str : Bytes} {n s : Nat} (hdrop : str.drop s = joined [d] vec)
    (hn : (joined [d] vec).length ≤ n) :
    (splitLoop d n s (joined [d] vec)).map (substr str) = vec := by
  induction vec generalizing n s with
  | nil => 
      cases n with
      | zero => rfl
      | succ n => rfl
  | cons w vec ih =>
      obtain ⟨⟨hw, hd⟩, hvec⟩ := List.forall_mem_cons.mp h
      have hpos := List.length_pos_of_ne_nil hw
      cases vec with
      | nil =>
          have htext : joined [d] [w] = w ++ [] := (List.append_nil w).symm
          rw [htext] at hdrop hn ⊢
          rw [List.length_append] at hn
          obtain ⟨n, rfl⟩ : ∃ k, n = k + 1 := ⟨n - 1, by omega⟩
          rw [splitLoop_token hw hd n s (.inl rfl), List.map_cons, substr_split w [] hdrop]
          cases n with
          | zero => rfl
          | succ n => rfl
      | cons w' vec =>
          have htext : joined [d] (w :: w' :: vec) = w ++ d :: joined [d] (w' :: vec) := by
            rw [joined, List.append_assoc]
            rfl
          rw [htext] at hdrop hn ⊢
          rw [List.length_append, List.length_cons] at hn
          obtain ⟨n, rfl⟩ : ∃ k, n = k + 1 := ⟨n - 1, by omega⟩
          have hdrop' : str.drop (s + w.length + 1) = joined [d] (w' :: vec) := by
            rw [Nat.add_assoc, ← List.drop_drop, hdrop, List.drop_length_add_append]
            rfl
          rw [splitLoop_token hw hd n s (.inr rfl), List.map_cons, substr_split w _ hdrop]
          exact congrArg _ (ih hvec hdrop' (by omega))

theorem peek_joined (t : Bytes) {s : Bytes} (hs : s ≠ []) (vec : List Bytes) :
    peek (joined t (s :: vec)) 0 = peek s 0 := by
  cases s with
  | nil => exact absurd rfl hs
  | cons c s =>
      cases vec with
      | nil => rfl
      | cons s' vec => rfl

theorem splitSpans_plain {str : Bytes} (h : peek str 0 ≠ quote) (d : UInt8) :
    splitSpans str d = splitLoop d str.length 0 str := if_neg h

/-- The strings come back if and only if their text can be allocated, and the tokens of any text
are its maximal runs. -/
theorem split_join (d : UInt8) :
    (∀ (s : Bytes) (vec before : List Bytes), (∀ w ∈ s :: vec, w ≠ [] ∧ d ∉ w) →
      peek s 0 ≠ quote →
        ((join (s :: vec) [d]).map (fun str => split before str d) =
            some (before ++ s :: vec, (s :: vec).length) ↔
          (joined [d] (s :: vec)).length ≤ maxSize)) ∧
      ∀ str : Bytes, peek str 0 ≠ quote →
        ∃ spans : List (Nat × Nat), (∀ i j, (i, j) ∈ spans ↔ MaximalRun d str i j) ∧
          (spans.Pairwise fun a b => a.2 < b.1) ∧
          ∀ before, split before str d = (before ++ spans.map (substr str), spans.length) := by
  constructor
  · rintro s vec before h hquote
    have hs := (List.forall_mem_cons.mp h).1.1
    have hdrop : (joined [d] (s :: vec)).drop 0 = joined [d] (s :: vec) := List.drop_zero
    have hback := splitLoop_joined h hdrop (Nat.le_refl _)
    have hsplit : split before (joined [d] (s :: vec)) d =
        (before ++ s :: vec, (s :: vec).length) := by
      have hlength := congrArg List.length hback
      rw [List.length_map] at hlength
      rw [split, splitSpans_plain ((peek_joined [d] hs vec).trans_ne hquote), hback, hlength]
    rw [join_eq]
    split_ifs with hle
    · exact iff_of_true (congrArg some hsplit) hle
    · exact iff_of_false nofun hle
  · rintro str hquote
    refine ⟨splitSpans str d, ?_, ?_, fun before => rfl⟩
    · intro i j
      rw [splitSpans_plain hquote, mem_splitLoop (List.drop_zero) (Nat.le_refl _) (.inl rfl)]
      exact and_iff_right (Nat.zero_le i)
    · rw [splitSpans_plain hquote]
      exact (splitLoop_ordered d _ 0 str).2

theorem split_join_two :
    (join [[97], [98]] [44]).map (fun str => split [] str 44) = some ([[97], [98]], 2) :=
  ((split_join 44).1 [97] [[98]] [] (by decide) (by decide)).mpr (by decide)

/-- Two strings of 2 GiB: the length of their text is 1 in 32 bits. -/
theorem not_split_join : ¬ ∀ (d : UInt8) (s : Bytes) (vec : List Bytes),
    (∀ w ∈ s :: vec, w ≠ [] ∧ d ∉ w) → peek s 0 ≠ quote →
      (join (s :: vec) [d]).map (fun str => split [] str d) =
        some (s :: vec, (s :: vec).length) := by
  intro h
  have hfirst : ∀ n c, peek (List.replicate (n + 1) c) 0 = c := fun n c => rfl
  have hlong : ∀ n c, c ≠ 44 → List.replicate (n + 1) c ≠ [] ∧
      (44 : UInt8) ∉ List.replicate (n + 1) c :=
    fun n c hc => ⟨nofun, fun hmem => hc (List.eq_of_mem_replicate hmem).symm⟩
  obtain ⟨n, hn⟩ : ∃ n, n = 2 ^ 31 - 1 := ⟨_, rfl⟩
  have hback := h 44 (List.replicate (n + 1) 97) [List.replicate (n + 1) 98]
    (List.forall_mem_cons.mpr ⟨hlong n 97 (by decide),
      List.forall_mem_singleton.mpr (hlong n 98 (by decide))⟩)
    (by rw [hfirst]; decide)
  rw [join_eq, if_neg] at hback
  · cases hback
  · rw [joined, joined, List.length_append, List.length_append, List.length_replicate,
      List.length_replicate, List.length_singleton, maxSize]
    omega

end ULib.StringSplit
