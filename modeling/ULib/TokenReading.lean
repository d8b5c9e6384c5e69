import ULib.ChunkedBody

/-!
`USocketExt::readWhileNotToken` of `utility/socket_ext.cpp` over the reads that
fill its buffer, and where it looks for a token that comes in parts.
-/

namespace ULib.TokenReading

open ULib.KeyComparison
open ULib.TextSearch
open ULib.ChunkedBody

/-! ### USocketExt::readWhileNotToken -/

/-- What `USocketExt::read` puts into the buffer, and its result. -/
structure Reading where
  got : Bytes
  ok : Bool
  deriving DecidableEq, Repr

/-- `UString::find`; from behind the end it would search in other memory. -/
def find (t token : Bytes) (pos : Nat) : Option (Option Nat) :=
  if t.length < pos then none else some (findFrom t token pos)

/-- The loop; the last read is the one that fails. -/
def readLoop (token : Bytes) (maxRead : Nat) :
    List Reading → Nat → Nat → Bytes → Option (Option Nat)
  | [], _, _, _ => some none
  | reading :: readings, count, start, buffer =>
      if reading.ok then
        let buffer := buffer ++ reading.got
        (find buffer token start).bind fun
          | some pos => some (some pos)
          | none =>
              if maxRead < count then some none
              else
                readLoop token maxRead readings (count + 1)
                  ((buffer.length + 2 ^ 32 - token.length) % 2 ^ 32) buffer
      else some none

def readWhileNotToken (readings : List Reading) (buffer token : Bytes) (maxRead : Nat) :
    Option (Option Nat) :=
  readLoop token maxRead readings 0 buffer.length buffer

/-! ### What it should find -/

/-- Reads that bring the pieces, and one that fails, with what it has put into the buffer. -/
def delivered (pieces : List Bytes) (last : Bytes) : List Reading :=
  pieces.map (⟨·, true⟩) ++ [⟨last, false⟩]

/-- The first position behind what was in the buffer is found. -/
def FindsFirst (before token : Bytes) (pieces : List Bytes) (last : Bytes) (maxRead : Nat) : Prop :=
  readWhileNotToken (delivered pieces last) before token maxRead =
    some (findFrom (before ++ pieces.flatten ++ last) token before.length)

/-- The second search begins neither before the buffer nor at a place before its end where the token
stands. -/
def ResumesBehind (before token : Bytes) : List Bytes → Prop
  | piece :: next :: pieces =>
      token.length ≤ (before ++ piece).length ∧
        ∀ i < before.length, (before ++ piece).length ≤ i + token.length →
          ¬ token <+: (before ++ (piece :: next :: pieces).flatten).drop i
  | _ => True

instance (before token : Bytes) (pieces : List Bytes) (last : Bytes) (maxRead : Nat) :
    Decidable (FindsFirst before token pieces last maxRead) :=
  inferInstanceAs (Decidable (_ = _))

instance (before token : Bytes) : ∀ pieces, Decidable (ResumesBehind before token pieces)
  | [] => isTrue trivial
  | [_] => isTrue trivial
  | piece :: next :: pieces =>
      inferInstanceAs (Decidable (token.length ≤ (before ++ piece).length ∧
        ∀ i < before.length, (before ++ piece).length ≤ i + token.length →
          ¬ token <+: (before ++ (piece :: next :: pieces).flatten).drop i))

/-! ### Positions -/

section Positions

variable {t token : Bytes} {pos i : Nat}

theorem le_of_prefix_drop (htoken : token ≠ []) (h : token <+: t.drop i) :
    i + token.length ≤ t.length := by
  have hlength := h.length_le
  have hpos := List.length_pos_of_ne_nil htoken
  rw [List.length_drop] at hlength
  omega

theorem findFrom_eq_some (htoken : token ≠ []) :
    findFrom t token pos = some i ↔
      pos ≤ i ∧ token <+: t.drop i ∧ ∀ j, pos ≤ j → j < i → ¬ token <+: t.drop j := by
  have hdrop : ∀ k, (t.drop pos).drop k = t.drop (pos + k) := fun k => List.drop_drop
  constructor
  · intro h
    obtain ⟨k, hk, rfl⟩ := Option.map_eq_some_iff.mp h
    obtain ⟨hfound, hfirst⟩ := of_search hk
    rw [hdrop] at hfound
    refine ⟨Nat.le_add_right pos k, hfound, fun j hj hlt => ?_⟩
    obtain ⟨l, rfl⟩ := Nat.exists_eq_add_of_le hj
    rw [← hdrop]
    exact hfirst l (by omega)
  · rintro ⟨hle, hfound, hfirst⟩
    obtain ⟨k, rfl⟩ := Nat.exists_eq_add_of_le hle
    have hlength := le_of_prefix_drop htoken hfound
    have hsearch : search token (t.drop pos) = some k := by
      refine search_some ?_ ?_ fun j hj => ?_
      · rw [List.length_drop]
        omega
      · rwa [hdrop]
      · rw [hdrop]
        exact hfirst (pos + j) (Nat.le_add_right pos j) (by omega)
    rw [findFrom, hsearch]
    rfl

theorem findFrom_eq_none (htoken : token ≠ []) :
    findFrom t token pos = none ↔ ∀ i, pos ≤ i → ¬ token <+: t.drop i := by
  constructor
  · intro h i hi hfound
    obtain ⟨k, rfl⟩ := Nat.exists_eq_add_of_le hi
    have hlength := le_of_prefix_drop htoken hfound
    obtain ⟨l, -, hsearch⟩ := @exists_search _ _ token (t.drop pos) k
      (by rw [List.length_drop]; omega) (by rwa [List.drop_drop])
    rw [findFrom, hsearch] at h
    cases h
  · intro h
    have hsearch : search token (t.drop pos) = none :=
      search_none fun i => by
        rw [List.drop_drop]
        exact h (pos + i) (Nat.le_add_right pos i)
    rw [findFrom, hsearch]
    rfl

/-- Where the token stands, it stands when more has come; and it stood before when it was there as
a whole. -/
theorem prefix_drop_append (htoken : token ≠ []) (u : Bytes) :
    token <+: t.drop i ↔ token <+: (t ++ u).drop i ∧ i + token.length ≤ t.length := by
  constructor
  · intro h
    have hlength := le_of_prefix_drop htoken h
    refine ⟨?_, hlength⟩
    rw [List.drop_append_of_le_length (by omega)]
    exact h.trans (List.prefix_append _ _)
  · rintro ⟨h, hlength⟩
    rw [List.drop_append_of_le_length (by omega)] at h
    refine List.prefix_of_prefix_length_le h (List.prefix_append _ u) ?_
    rw [List.length_drop]
    omega

theorem findFrom_append (htoken : token ≠ []) (h : findFrom t token pos = some i) (u : Bytes) :
    findFrom (t ++ u) token pos = some i := by
  obtain ⟨hle, hfound, hfirst⟩ := (findFrom_eq_some htoken).mp h
  obtain ⟨hfound, hlength⟩ := (prefix_drop_append htoken u).mp hfound
  refine (findFrom_eq_some htoken).mpr ⟨hle, hfound, fun j hj hlt hstands => hfirst j hj hlt ?_⟩
  exact (prefix_drop_append htoken u).mpr ⟨hstands, by omega⟩

/-- Two searches come to the same when the token does not stand between their starts. -/
theorem findFrom_congr (htoken : token ≠ []) {pos' : Nat} (hle : pos ≤ pos')
    (hbetween : ∀ i, pos ≤ i → i < pos' → ¬ token <+: t.drop i) :
    findFrom t token pos = findFrom t token pos' := by
  cases hfind : findFrom t token pos' with
  | none =>
      rw [findFrom_eq_none htoken] at hfind ⊢
      intro i hi
      rcases Nat.lt_or_ge i pos' with hlt | hge
      · exact hbetween i hi hlt
      · exact hfind i hge
  | some i =>
      rw [findFrom_eq_some htoken] at hfind ⊢
      obtain ⟨hle', hfound, hfirst⟩ := hfind
      refine ⟨Nat.le_trans hle hle', hfound, fun j hj hlt => ?_⟩
      rcases Nat.lt_or_ge j pos' with hlt' | hge
      · exact hbetween j hj hlt'
      · exact hfirst j hge hlt

end Positions

/-! ### The reads -/

section Reads

variable {before token last : Bytes} {pieces : List Bytes} {maxRead count : Nat}

theorem delivered_cons (piece : Bytes) (pieces : List Bytes) (last : Bytes) :
    delivered (piece :: pieces) last = ⟨piece, true⟩ :: delivered pieces last := rfl

theorem readLoop_end (start : Nat) (buffer : Bytes) :
    readLoop token maxRead (delivered [] last) count start buffer = some none := rfl

/-- One read, from a place inside the buffer. -/
theorem readLoop_piece {piece buffer : Bytes} {start : Nat}
    (hstart : start ≤ (buffer ++ piece).length) :
    readLoop token maxRead (delivered (piece :: pieces) last) count start buffer =
      match findFrom (buffer ++ piece) token start with
      | some pos => some (some pos)
      | none =>
          if maxRead < count then some none
          else
            readLoop token maxRead (delivered pieces last) (count + 1)
              (((buffer ++ piece).length + 2 ^ 32 - token.length) % 2 ^ 32) (buffer ++ piece) := by
  rw [delivered_cons, readLoop, if_pos rfl]
  dsimp only
  rw [find, if_neg (Nat.not_lt.mpr hstart), Option.bind_some]

theorem resume_eq {n : Nat} (hn : n + token.length < 2 ^ 32) (hle : token.length ≤ n) :
    (n + 2 ^ 32 - token.length) % 2 ^ 32 = n - token.length := by
  omega

/-- From the second read on the search goes over the rest of the stream and the last bytes of what
is in the buffer, as many as the token has. -/
theorem readLoop_rest (htoken : token ≠ []) {buffer : Bytes}
    (hinside : token.length ≤ buffer.length)
    (hsize : (buffer ++ pieces.flatten).length + token.length < 2 ^ 32)
    (hlimit : count + pieces.length ≤ maxRead + 2) :
    readLoop token maxRead (delivered pieces last) count (buffer.length - token.length) buffer =
      some (if pieces = [] then none
        else findFrom (buffer ++ pieces.flatten) token (buffer.length - token.length)) := by
  induction pieces generalizing buffer count with
  | nil => rfl
  | cons piece pieces ih =>
      have hflatten : buffer ++ (piece :: pieces).flatten = buffer ++ piece ++ pieces.flatten := by
        rw [List.flatten_cons, List.append_assoc]
      rw [hflatten] at hsize ⊢
      have hlength : (buffer ++ piece).length = buffer.length + piece.length := List.length_append
      have hle : (buffer ++ piece).length ≤ (buffer ++ piece ++ pieces.flatten).length := by
        rw [@List.length_append _ (buffer ++ piece)]
        exact Nat.le_add_right _ _
      rw [readLoop_piece (by omega), if_neg (List.cons_ne_nil _ _)]
      cases hfind : findFrom (buffer ++ piece) token (buffer.length - token.length) with
      | some i => exact congrArg some (findFrom_append htoken hfind _).symm
      | none =>
          dsimp only
          have hnil : pieces = [] →
              findFrom (buffer ++ piece ++ pieces.flatten) token (buffer.length - token.length) =
                none := by
            rintro rfl
            rwa [List.flatten_nil, List.append_nil]
          rw [List.length_cons] at hlimit
          split_ifs with hmany
          · rw [hnil (List.eq_nil_of_length_eq_zero (by omega))]
          · rw [resume_eq (by omega) (by omega), ih (by omega) hsize (by omega)]
            split_ifs with hpieces
            · rw [hnil hpieces]
            · refine congrArg some (findFrom_congr htoken (by omega) ?_).symm
              -- what stands before the new start would have been found
              intro i hi hlt hstands
              refine (findFrom_eq_none htoken).mp hfind i hi ?_
              exact (prefix_drop_append htoken _).mpr ⟨hstands, by omega⟩

/-- The search over the whole stream, and the one behind the first read. -/
theorem findFrom_resumed (htoken : token ≠ []) {stream : Bytes} {n start : Nat}
    (hnone : ∀ i, n ≤ i → i < start → ¬ token <+: stream.drop i) :
    findFrom stream token start = findFrom (stream ++ last) token n ↔
      (∀ i < n, start ≤ i → ¬ token <+: stream.drop i) ∧
        findFrom (stream ++ last) token n = findFrom stream token n := by
  have hsame : (∀ i < n, start ≤ i → ¬ token <+: stream.drop i) →
      findFrom stream token start = findFrom stream token n := by
    intro hbefore
    rcases Nat.le_total start n with hle | hle
    · exact findFrom_congr htoken hle fun i hi hlt => hbefore i hlt hi
    · exact (findFrom_congr htoken hle hnone).symm
  constructor
  · intro hequal
    have hbefore : ∀ i < n, start ≤ i → ¬ token <+: stream.drop i := by
      intro i hlt hi hstands
      cases hfind : findFrom stream token start with
      | none => exact (findFrom_eq_none htoken).mp hfind i hi hstands
      | some k =>
          obtain ⟨hle, -, -⟩ := (findFrom_eq_some htoken).mp (hequal.symm.trans hfind)
          obtain ⟨-, -, hfirst⟩ := (findFrom_eq_some htoken).mp hfind
          exact hfirst i hi (by omega) hstands
    exact ⟨hbefore, hequal.symm.trans (hsame hbefore)⟩
  · rintro ⟨hbefore, hequal⟩
    exact (hsame hbefore).trans hequal.symm

/-- The second search, when the buffer has less than the token, begins before the buffer. -/
theorem readLoop_short {piece next : Bytes}
    (hsize : (before ++ (piece :: next :: pieces).flatten).length + token.length < 2 ^ 32)
    (hshort : (before ++ piece).length < token.length)
    (hnone : findFrom (before ++ piece) token before.length = none) :
    readWhileNotToken (delivered (piece :: next :: pieces) last) before token maxRead = none := by
  have hlength : (before ++ piece).length = before.length + piece.length := List.length_append
  have hbehind : (before ++ piece ++ next).length <
      ((before ++ piece).length + 2 ^ 32 - token.length) % 2 ^ 32 := by
    simp only [List.flatten_cons, List.length_append] at hsize hlength hshort ⊢
    omega
  rw [readWhileNotToken, readLoop_piece (by omega), hnone]
  dsimp only
  rw [if_neg (Nat.not_lt_zero maxRead), delivered_cons, readLoop, if_pos rfl]
  dsimp only
  rw [find, if_pos hbehind, Option.bind_none]

/-- The whole run from the second read on. -/
theorem readWhileNotToken_resumed (htoken : token ≠ []) {piece next : Bytes}
    (hsize : (before ++ (piece :: next :: pieces).flatten).length + token.length < 2 ^ 32)
    (hlimit : (piece :: next :: pieces).length ≤ maxRead + 2)
    (hinside : token.length ≤ (before ++ piece).length)
    (hnone : findFrom (before ++ piece) token before.length = none) :
    readWhileNotToken (delivered (piece :: next :: pieces) last) before token maxRead =
      some (findFrom (before ++ (piece :: next :: pieces).flatten) token
        ((before ++ piece).length - token.length)) := by
  have hlength : (before ++ piece).length = before.length + piece.length := List.length_append
  rw [List.flatten_cons, ← List.append_assoc] at hsize ⊢
  have hle : (before ++ piece).length ≤ (before ++ piece ++ (next :: pieces).flatten).length := by
    rw [@List.length_append _ (before ++ piece)]
    exact Nat.le_add_right _ _
  rw [List.length_cons] at hlimit
  rw [readWhileNotToken, readLoop_piece (by omega), hnone]
  dsimp only
  rw [if_neg (Nat.not_lt_zero maxRead), resume_eq (by omega) hinside,
    readLoop_rest htoken hinside hsize (by omega), if_neg (List.cons_ne_nil _ _)]

end Reads

/-- The first token is found, however it is split, exactly when at most one read succeeds or the
search after it begins inside the buffer and comes upon no token before its initial end; and when
what the failing read puts into the buffer makes no difference. -/
theorem findsFirst_iff {before token last : Bytes} {pieces : List Bytes} {maxRead : Nat}
    (htoken : token ≠ [])
    (hsize : (before ++ pieces.flatten).length + token.length < 2 ^ 32)
    (hlimit : pieces.length ≤ maxRead + 2) :
    FindsFirst before token pieces last maxRead ↔
      ResumesBehind before token pieces ∧
        findFrom (before ++ pieces.flatten ++ last) token before.length =
          findFrom (before ++ pieces.flatten) token before.length := by
  rcases pieces with _ | ⟨piece, _ | ⟨next, pieces⟩⟩
  · -- nothing comes
    have hnone : findFrom (before ++ ([] : List Bytes).flatten) token before.length = none := by
      rw [findFrom_eq_none htoken]
      intro i hi hstands
      have hlength := le_of_prefix_drop htoken hstands
      have hpos := List.length_pos_of_ne_nil htoken
      rw [List.flatten_nil, List.append_nil] at hlength
      omega
    rw [FindsFirst, readWhileNotToken, readLoop_end, hnone]
    simp only [ResumesBehind, true_and, Option.some.injEq]
    exact eq_comm
  · have hresult : readWhileNotToken (delivered [piece] last) before token maxRead =
        some (findFrom (before ++ [piece].flatten) token before.length) := by
      have hflatten : before ++ [piece].flatten = before ++ piece := by simp
      rw [readWhileNotToken, readLoop_piece (by simp), hflatten]
      cases findFrom (before ++ piece) token before.length <;> simp [readLoop_end]
    rw [FindsFirst, hresult]
    simp only [ResumesBehind, true_and, Option.some.injEq]
    exact eq_comm
  · have hstream : before ++ (piece :: next :: pieces).flatten =
        before ++ piece ++ (next :: pieces).flatten := by
      rw [List.flatten_cons, List.append_assoc]
    have hlength : (before ++ piece).length = before.length + piece.length := List.length_append
    cases hfind : findFrom (before ++ piece) token before.length with
    | some i =>
        have hwhole : ∀ u, findFrom (before ++ piece ++ u) token before.length = some i :=
          findFrom_append htoken hfind
        have hresult : readWhileNotToken (delivered (piece :: next :: pieces) last) before token
            maxRead = some (some i) := by
          rw [readWhileNotToken, readLoop_piece (by omega), hfind]
        have hbehind : ResumesBehind before token (piece :: next :: pieces) := by
          obtain ⟨hle, hfound, -⟩ := (findFrom_eq_some htoken).mp hfind
          have hinside := le_of_prefix_drop htoken hfound
          exact ⟨by omega, fun j hj hle => by omega⟩
        rw [FindsFirst, hresult, hstream, List.append_assoc, hwhole, hwhole]
        exact ⟨fun _ => ⟨hbehind, rfl⟩, fun _ => rfl⟩
    | none =>
        rcases Nat.lt_or_ge (before ++ piece).length token.length with hshort | hinside
        · rw [FindsFirst, readLoop_short hsize hshort hfind]
          constructor
          · rintro ⟨⟩
          · rintro ⟨⟨hinside, -⟩, -⟩
            exact absurd hshort (Nat.not_lt.mpr hinside)
        · have hnone : ∀ i, before.length ≤ i → i < (before ++ piece).length - token.length →
              ¬ token <+: (before ++ (piece :: next :: pieces).flatten).drop i := by
            intro i hi hlt hstands
            rw [hstream] at hstands
            refine (findFrom_eq_none htoken).mp hfind i hi ?_
            exact (prefix_drop_append htoken _).mpr ⟨hstands, by omega⟩
          rw [FindsFirst, readWhileNotToken_resumed htoken hsize hlimit hinside hfind,
            Option.some.injEq, findFrom_resumed htoken hnone]
          refine and_congr_left fun _ => ⟨fun h => ⟨hinside, ?_⟩, ?_⟩
          · exact fun i hi hle => h i hi (Nat.sub_le_iff_le_add.mpr hle)
          · exact fun ⟨_, h⟩ i hi hle => h i hi (Nat.sub_le_iff_le_add.mp hle)

/-- A token that comes in two parts is found. -/
theorem findsFirst_split :
    FindsFirst [120] [97, 98] [[121, 97], [98, 99]] [] 10 :=
  (findsFirst_iff (by decide) (by decide) (by decide)).mpr (by decide)

/-- One that began before the reads is found instead of none, and with less than the token in the
buffer the search begins outside of it. -/
theorem not_findsFirst :
    ¬ FindsFirst [97] [97, 98] [[98], [99]] [] 10 ∧
      readWhileNotToken (delivered [[97], [98, 99]] []) [] [97, 98, 99] 10 = none := by
  decide

end ULib.TokenReading
