import ULib.ChunkedBody

/-!
When the loop of `UHTTP::readBody` over the chunks stays within the bytes that
were received and the memory for the body: what it reads divides into chunks
whose sizes are those that `strtol` finds, whatever the peer sent.
-/

namespace ULib.ChunkBounds

open ULib.KeyComparison
open ULib.JsonValue
open ULib.TextSearch
open ULib.ChunkedBody

/-- One round: the rest of a line, the bytes of a chunk, and what is skipped for a line terminator,
of whatever bytes. -/
structure Piece where
  line : Bytes
  data : Bytes
  gap : Bytes
  oneLine : lineFeed ∉ line
  nonempty : data ≠ []

def Piece.text (p : Piece) : Bytes := p.line ++ lineFeed :: (p.data ++ p.gap)

def textOf (pieces : List Piece) : Bytes := pieces.flatMap Piece.text

def dataOf (pieces : List Piece) : Bytes := pieces.flatMap Piece.data

/-- Every size is that of the bytes behind its line, and the last one is zero. -/
def Divides (lt : LineTerminator) : List Piece → Bytes → Prop
  | [], rest => chunkSize rest = some 0
  | p :: pieces, rest =>
      chunkSize (p.text ++ (textOf pieces ++ rest)) = some p.data.length ∧
        p.gap.length = lt.bytes.length ∧ Divides lt pieces rest

/-- The bytes divide into chunks whose data fits in the memory. -/
def Bounded (lt : LineTerminator) (capacity : Nat) (inp : Bytes) : Prop :=
  ∃ pieces rest, inp = textOf pieces ++ rest ∧ Divides lt pieces rest ∧
    (dataOf pieces).length ≤ capacity

theorem textOf_cons (p : Piece) (pieces : List Piece) :
    textOf (p :: pieces) = p.text ++ textOf pieces := List.flatMap_cons

theorem dataOf_cons (p : Piece) (pieces : List Piece) :
    dataOf (p :: pieces) = p.data ++ dataOf pieces := List.flatMap_cons

theorem skipLine_line {w : Bytes} (hw : lineFeed ∉ w) (t : Bytes) :
    skipLine (w ++ lineFeed :: t) = some t := by
  induction w with
  | nil => rw [List.nil_append, skipLine, if_pos rfl]
  | cons c w ih =>
      rw [List.mem_cons, not_or] at hw
      rw [List.cons_append, skipLine, if_neg (Ne.symm hw.1), ih hw.2]

theorem of_skipLine {inp t : Bytes} (h : skipLine inp = some t) :
    ∃ w, inp = w ++ lineFeed :: t ∧ lineFeed ∉ w := by
  induction inp with
  | nil => cases h
  | cons c inp ih =>
      rw [skipLine] at h
      split_ifs at h with hc
      · obtain rfl := Option.some.inj h
        exact ⟨[], by rw [hc]; rfl, List.not_mem_nil⟩
      · obtain ⟨w, rfl, hw⟩ := ih h
        exact ⟨c :: w, rfl, List.not_mem_cons_of_ne_of_not_mem (Ne.symm hc) hw⟩

/-- Behind the bytes that were received there is no size. -/
theorem chunkSize_nil : chunkSize [] = none := by decide

theorem length_le_textOf (pieces : List Piece) : pieces.length ≤ (textOf pieces).length := by
  induction pieces with
  | nil => exact Nat.le_refl 0
  | cons p pieces ih =>
      rw [textOf_cons, List.length_append, Piece.text, List.length_append, List.length_cons,
        List.length_cons]
      omega

section
variable {lt : LineTerminator} {capacity : Nat}

/-- One round takes one piece. -/
theorem chunkLoop_piece {p : Piece} {t : Bytes}
    (hsize : chunkSize (p.text ++ t) = some p.data.length)
    (hgap : p.gap.length = lt.bytes.length) (left : Nat) (out : Bytes) :
    chunkLoop lt capacity (left + 1) (p.text ++ t) out =
      if capacity < out.length + p.data.length then none
      else chunkLoop lt capacity left t (out ++ p.data) := by
  have htext : p.text ++ t = p.line ++ lineFeed :: (p.data ++ (p.gap ++ t)) := by
    simp only [Piece.text, List.append_assoc, List.cons_append]
  have hskip := skipLine_line p.oneLine (p.data ++ (p.gap ++ t))
  have hdrop : (p.data ++ (p.gap ++ t)).drop (p.data.length + lt.bytes.length) = t := by
    rw [← List.drop_drop, List.drop_left, ← hgap, List.drop_left]
  have hshort : ¬ (p.data ++ (p.gap ++ t)).length < p.data.length := by
    rw [List.length_append]
    omega
  have hzero : p.data.length ≠ 0 := fun h => p.nonempty (List.length_eq_zero_iff.mp h)
  rw [chunkLoop, hsize]
  simp only [Option.bind_eq_bind, Option.bind_some, if_neg hzero]
  rw [htext, hskip]
  simp only [Option.bind_some, hshort, false_or, hdrop, List.take_left]

theorem chunkLoop_pieces {pieces : List Piece} {rest : Bytes} (h : Divides lt pieces rest)
    {left : Nat} (hleft : pieces.length < left) {out : Bytes}
    (hout : out.length + (dataOf pieces).length ≤ capacity) :
    chunkLoop lt capacity left (textOf pieces ++ rest) out = some (out ++ dataOf pieces) := by
  induction pieces generalizing left out with
  | nil =>
      cases left with
      | zero => cases hleft
      | succ left =>
          have hsize : chunkSize rest = some 0 := h
          have htext : textOf [] ++ rest = rest := rfl
          rw [htext, chunkLoop, hsize]
          simp [dataOf]
  | cons p pieces ih =>
      obtain ⟨hsize, hgap, hrest⟩ := h
      rw [dataOf_cons, List.length_append] at hout
      cases left with
      | zero => cases hleft
      | succ left =>
          rw [textOf_cons, List.append_assoc, chunkLoop_piece hsize hgap, if_neg (by omega),
            ih hrest (Nat.lt_of_succ_lt_succ hleft) (by rw [List.length_append]; omega),
            dataOf_cons, List.append_assoc]

/-- A round that stays within its bounds is the last one, or takes a piece. -/
theorem of_chunkLoop_succ {left : Nat} {inp out body : Bytes}
    (h : chunkLoop lt capacity (left + 1) inp out = some body) :
    chunkSize inp = some 0 ∧ body = out ∨
      ∃ p t, inp = Piece.text p ++ t ∧ chunkSize inp = some p.data.length ∧
        p.gap.length = lt.bytes.length ∧ out.length + p.data.length ≤ capacity ∧
          chunkLoop lt capacity left t (out ++ p.data) = some body := by
  rw [chunkLoop] at h
  obtain ⟨n, hsize, hround⟩ := Option.bind_eq_some_iff.mp h
  split_ifs at hround with hzero
  · subst hzero
    exact Or.inl ⟨hsize, (Option.some.inj hround).symm⟩
  · obtain ⟨t, hskip, hcopy⟩ := Option.bind_eq_some_iff.mp hround
    split_ifs at hcopy with hfits
    rw [not_or, Nat.not_lt, Nat.not_lt] at hfits
    have htake : (t.take n).length = n := List.length_take_of_le hfits.1
    -- nothing is read behind the bytes that were received
    have hgap : n + lt.bytes.length ≤ t.length := by
      refine Nat.not_lt.mp fun hlt => ?_
      rw [List.drop_of_length_le (Nat.le_of_lt hlt)] at hcopy
      cases left with
      | zero => cases hcopy
      | succ left =>
          rw [chunkLoop, chunkSize_nil] at hcopy
          cases hcopy
    have hdata : t.take n ≠ [] := fun hnil => hzero (by rw [← htake, hnil]; rfl)
    obtain ⟨line, rfl, hline⟩ := of_skipLine hskip
    refine Or.inr ⟨⟨line, t.take n, (t.drop n).take lt.bytes.length, hline, hdata⟩,
      t.drop (n + lt.bytes.length), ?_, ?_, ?_, ?_, hcopy⟩
    · rw [Piece.text, List.append_assoc, List.cons_append, List.append_assoc, ← List.drop_drop,
        List.take_append_drop, List.take_append_drop]
    · rw [hsize, htake]
    · rw [List.length_take, List.length_drop]
      omega
    · rw [htake]
      exact hfits.2

/-- A run that stays within its bounds goes through pieces. -/
theorem of_chunkLoop {left : Nat} {inp out body : Bytes} (hout : out.length ≤ capacity)
    (h : chunkLoop lt capacity left inp out = some body) :
    ∃ pieces rest, inp = textOf pieces ++ rest ∧ Divides lt pieces rest ∧
      body = out ++ dataOf pieces ∧ body.length ≤ capacity := by
  induction left generalizing inp out with
  | zero => cases h
  | succ left ih =>
      obtain ⟨hsize, rfl⟩ | ⟨p, t, rfl, hsize, hgap, hfits, hrest⟩ := of_chunkLoop_succ h
      · exact ⟨[], inp, rfl, hsize, (List.append_nil body).symm, hout⟩
      · rw [← List.length_append] at hfits
        obtain ⟨pieces, rest, rfl, hdivides, rfl, hle⟩ := ih hfits hrest
        refine ⟨p :: pieces, rest, ?_, ⟨hsize, hgap, hdivides⟩, ?_, hle⟩
        · rw [textOf_cons, List.append_assoc]
        · rw [dataOf_cons, List.append_assoc]

/-- The loop ends within its bounds exactly when the bytes divide into chunks that fit. -/
theorem isSome_decodeChunks (inp : Bytes) :
    (decodeChunks lt capacity inp).isSome ↔ Bounded lt capacity inp := by
  rw [Option.isSome_iff_exists]
  constructor
  · rintro ⟨body, hbody⟩
    obtain ⟨pieces, rest, hinp, hdivides, hdata, hle⟩ := of_chunkLoop (Nat.zero_le _) hbody
    exact ⟨pieces, rest, hinp, hdivides, by rwa [hdata, List.nil_append] at hle⟩
  · rintro ⟨pieces, rest, rfl, hdivides, hle⟩
    have hlength := length_le_textOf pieces
    refine ⟨_, chunkLoop_pieces hdivides ?_ (by rwa [List.length_nil, Nat.zero_add])⟩
    rw [List.length_append]
    omega

end

/-- A body in chunks is decoded within the bytes that were received, into `u_http_info.clength`
bytes at most, exactly when they divide into chunks that fit; it is never refused for its sizes. -/
theorem chunkBounds_iff {lt : LineTerminator} {b : UString} {endHeader count : Nat}
    (hb : b.data.length < 2 ^ 32) (hcount : findFrom b.data lt.twice endHeader = some count) :
    (decodeBody (fun n => n) lt b endHeader count).isSome ↔
      Bounded lt (count + lt.twice.length - endHeader) (b.data.drop endHeader) := by
  obtain ⟨k, hsearch, rfl⟩ := Option.map_eq_some_iff.mp hcount
  have hle := (of_search hsearch).1.length_le
  have htwice : 2 ≤ lt.twice.length := by cases lt <;> decide
  rw [List.length_drop, List.length_drop] at hle
  have hmod : (endHeader + k + lt.twice.length) % 2 ^ 32 = endHeader + k + lt.twice.length :=
    Nat.mod_eq_of_lt (by omega)
  rw [decodeBody]
  dsimp only
  rw [hmod, if_neg (by omega), Option.isSome_map, isSome_decodeChunks]

theorem bounded_chunk :
    (decodeBody (fun n => n) .lf ⟨[49, 10, 120, 10, 48, 10, 10], 64⟩ 0 5).isSome ↔
      Bounded .lf (5 + LineTerminator.lf.twice.length - 0)
        ([49, 10, 120, 10, 48, 10, 10].drop 0) :=
  @chunkBounds_iff .lf ⟨[49, 10, 120, 10, 48, 10, 10], 64⟩ 0 5 (by decide) (by decide)

/-- Five bytes are announced, and there is one. -/
theorem not_bounded_five :
    findFrom [53, 10, 10] LineTerminator.lf.twice 0 = some 1 ∧
      ¬ (decodeBody (fun n => n) .lf ⟨[53, 10, 10], 64⟩ 0 1).isSome := by decide

end ULib.ChunkBounds
