import Mathlib.Algebra.Order.BigOperators.Group.List
import ULib.ChunkedBody

/-!
What `readBody` makes of a message in chunks. When its first blank line is its end it is
read as it was sent, however it arrives; when it has a blank line before, the memory for the
body is that of the text up to there.
-/

namespace ULib.ChunkedReading

open ULib.KeyComparison
open ULib.EscapeCoding
open ULib.JsonValue
open ULib.RpcFraming hiding read
open ULib.RpcRoundTrip
open ULib.NumberText
open ULib.TextSearch
open ULib.ChunkedBody

/-! ### The sizes -/

theorem xdigit_plain : ∀ c, isXdigit c → cSpace c = false ∧ c ≠ '-'.toUInt8 ∧ c ≠ '+'.toUInt8 ∧
    toUpper c ≠ 'X'.toUInt8 ∧ c ≠ lineFeed ∧ c ≠ '\r'.toUInt8 ∧ (hexc2int c).toNat < 16 :=
  forall_byte (by decide +kernel)

theorem zero_xdigit : isXdigit '0'.toUInt8 ∧ (hexc2int '0'.toUInt8).toNat = 0 := by decide

/-- What stands behind the digits of a size. -/
def EndsSize (t : Bytes) : Prop :=
  ∃ c u, t = c :: u ∧ isXdigit c = false ∧ toUpper c ≠ 'X'.toUInt8

theorem endsSize_line (lt : LineTerminator) (t : Bytes) : EndsSize (lt.bytes ++ t) := by
  cases lt with
  | lf => exact ⟨_, _, rfl, by decide, by decide⟩
  | crlf => exact ⟨_, _, rfl, by decide, by decide⟩

theorem endsSize_extension {e : Bytes} (h : e.head? = none ∨ e.head? = some ';'.toUInt8)
    (lt : LineTerminator) (t : Bytes) : EndsSize (e ++ (lt.bytes ++ t)) := by
  cases e with
  | nil => exact endsSize_line lt t
  | cons c e =>
      rcases h with h | h
      · cases h
      · obtain rfl : c = ';'.toUInt8 := Option.some.inj h
        exact ⟨_, _, rfl, by decide, by decide⟩

/-- A size is read up to its end. -/
theorem chunkSize_digits {w t : Bytes} (hw : ∀ c ∈ w, isXdigit c) (hne : w ≠ [])
    (hlt : valueIn 16 w < 2 ^ 32) (ht : EndsSize t) : chunkSize (w ++ t) = some (valueIn 16 w) := by
  obtain ⟨e, u, rfl, hxdigit, hx⟩ := ht
  cases w with
  | nil => exact absurd rfl hne
  | cons c w =>
      obtain ⟨hspace, hminus, hplus, -, -, -, -⟩ := xdigit_plain c (hw c List.mem_cons_self)
      have hsigned : signed (c :: w ++ e :: u) = (false, c :: w ++ e :: u) := by
        rw [signed, List.cons_append, List.dropWhile_cons_of_neg (by simp [hspace])]
        dsimp only
        rw [if_neg hminus, if_neg hplus]
      have hsecond : toUpper (peek (c :: w ++ e :: u) 1) ≠ 'X'.toUInt8 := by
        cases w with
        | nil => exact hx
        | cons d w => exact (xdigit_plain d (hw d (by simp))).2.2.2.1
      have hends : EndsNumber (e :: u) := by
        intro d hd
        obtain rfl : e = d := Option.some.inj hd
        exact ⟨hxdigit, hx⟩
      have hdigits : digitsIn 16 (c :: w ++ e :: u) = c :: w :=
        digitsIn_append (fun d hd => ⟨hw d hd, (xdigit_plain d (hw d hd)).2.2.2.2.2.2⟩) hends
      rw [chunkSize, hsigned]
      dsimp only
      rw [if_neg fun h => hsecond h.2, hexNumber, hdigits, if_neg (by simp), clampLong,
        if_neg Bool.false_ne_true, min_eq_left (by omega)]
      congr 1
      omega

theorem valueIn_zeros {w : Bytes} (hw : ∀ c ∈ w, c = '0'.toUInt8) : valueIn 16 w = 0 := by
  induction w with
  | nil => rfl
  | cons c w ih =>
      rw [valueIn_cons, hw c List.mem_cons_self, zero_xdigit.2, Nat.zero_mul, Nat.zero_add,
        ih fun d hd => hw d (List.mem_cons_of_mem c hd)]

theorem skipLine_append {w : Bytes} (hw : lineFeed ∉ w) (lt : LineTerminator) (t : Bytes) :
    skipLine (w ++ (lt.bytes ++ t)) = some t := by
  induction w with
  | nil =>
      cases lt with
      | lf => rfl
      | crlf => rfl
  | cons c w ih =>
      have hc : c ≠ lineFeed := fun h => hw (by rw [h]; exact List.mem_cons_self)
      rw [List.cons_append, skipLine, if_neg hc, ih fun h => hw (List.mem_cons_of_mem c h)]

/-! ### The chunks -/

section Decode

variable {lt : LineTerminator} {capacity : Nat}

theorem size_ne_nil (c : Chunk) : c.size ≠ [] := by
  intro h
  have hcounts := c.counts
  rw [h] at hcounts
  exact c.nonempty (List.length_eq_zero_iff.mp hcounts.symm)

/-- One round takes one chunk. -/
theorem chunkLoop_chunk {c : Chunk} (hc : c.data.length < 2 ^ 32) (left : Nat) (t out : Bytes) :
    chunkLoop lt capacity (left + 1) (c.text lt ++ t) out =
      if capacity < out.length + c.data.length then none
      else chunkLoop lt capacity left t (out ++ c.data) := by
  have htext : c.text lt ++ t =
      c.size ++ (c.extension ++ (lt.bytes ++ (c.data ++ (lt.bytes ++ t)))) := by
    simp only [Chunk.text, List.append_assoc]
  have hsize := chunkSize_digits c.hex (size_ne_nil c) (by rw [c.counts]; exact hc)
    (endsSize_extension c.semicolon lt (c.data ++ (lt.bytes ++ t)))
  have hline : lineFeed ∉ c.size ++ c.extension := by
    intro h
    rcases List.mem_append.mp h with h | h
    · exact (xdigit_plain _ (c.hex _ h)).2.2.2.2.1 rfl
    · exact c.oneLine h
  have hskip := skipLine_append hline lt (c.data ++ (lt.bytes ++ t))
  rw [List.append_assoc] at hskip
  have hne : c.data.length ≠ 0 := fun h => c.nonempty (List.length_eq_zero_iff.mp h)
  have hrest : (c.data ++ (lt.bytes ++ t)).drop (c.data.length + lt.bytes.length) = t := by
    rw [← List.drop_drop, List.drop_left, List.drop_left]
  have hthere : ¬ (c.data ++ (lt.bytes ++ t)).length < c.data.length := by
    rw [List.length_append]
    omega
  rw [htext, chunkLoop, hsize, c.counts]
  simp only [Option.bind_eq_bind, Option.bind_some, if_neg hne, hskip, hrest, List.take_left,
    hthere, false_or]

/-- All the chunks are taken where there is memory for them. -/
theorem chunkLoop_chunks {chunks : List Chunk} (hchunks : ∀ c ∈ chunks, c.data.length < 2 ^ 32)
    (left : Nat) (t out : Bytes) (hout : out.length ≤ capacity) :
    chunkLoop lt capacity (chunks.length + left) ((chunks.map (Chunk.text lt)).flatten ++ t) out =
      if capacity < out.length + ((chunks.map Chunk.data).flatten).length then none
      else chunkLoop lt capacity left t (out ++ (chunks.map Chunk.data).flatten) := by
  induction chunks generalizing out with
  | nil =>
      simp only [List.map_nil, List.flatten_nil, List.length_nil, Nat.zero_add, Nat.add_zero,
        List.nil_append, List.append_nil]
      rw [if_neg (by omega)]
  | cons c chunks ih =>
      have hc := hchunks c List.mem_cons_self
      have hrest := fun d hd => hchunks d (List.mem_cons_of_mem c hd)
      rw [List.length_cons, Nat.add_right_comm]
      simp only [List.map_cons, List.flatten_cons, List.length_append]
      rw [List.append_assoc, chunkLoop_chunk hc]
      by_cases hfull : capacity < out.length + c.data.length
      · rw [if_pos hfull, if_pos (by omega)]
      · rw [if_neg hfull, ih hrest _ (by rw [List.length_append]; omega), List.length_append,
          Nat.add_assoc, List.append_assoc]

theorem chunkLoop_ending (m : Message) (left : Nat) (t out : Bytes) :
    chunkLoop lt capacity (left + 1) (m.ending lt ++ t) out = some out := by
  have hsize := chunkSize_digits (fun c hc => by rw [m.zero c hc]; exact zero_xdigit.1) m.nonempty
    (by rw [valueIn_zeros m.zero]; decide)
    (endsSize_extension m.semicolon lt ((m.trailers.map (· ++ lt.bytes)).flatten ++ (lt.bytes ++ t)))
  have htext : m.ending lt ++ t = m.zeros ++ (m.extension ++ (lt.bytes ++
      ((m.trailers.map (· ++ lt.bytes)).flatten ++ (lt.bytes ++ t)))) := by
    simp only [Message.ending, List.append_assoc]
  rw [htext, chunkLoop, hsize, valueIn_zeros m.zero]
  rfl

theorem length_chunks_le (lt : LineTerminator) (chunks : List Chunk) :
    chunks.length + ((chunks.map Chunk.data).flatten).length ≤
      ((chunks.map (Chunk.text lt)).flatten).length := by
  induction chunks with
  | nil => exact Nat.le_refl 0
  | cons c chunks ih =>
      have hpos := List.length_pos_of_ne_nil (size_ne_nil c)
      simp only [List.map_cons, List.flatten_cons, List.length_append, List.length_cons, Chunk.text]
      omega

theorem data_le_flatten {chunks : List Chunk} {c : Chunk} (hc : c ∈ chunks) :
    c.data.length ≤ ((chunks.map Chunk.data).flatten).length := by
  rw [List.length_flatten, List.map_map]
  exact List.single_le_sum (fun _ _ => Nat.zero_le _) _ (List.mem_map.mpr ⟨c, hc, rfl⟩)

/-- The chunks give their bytes where the memory is enough, whatever is behind the message. -/
theorem decodeChunks_message {m : Message} (hsize : (m.text lt).length < 2 ^ 32) (t : Bytes) :
    decodeChunks lt capacity (m.text lt ++ t) =
      if capacity < m.data.length then none else some m.data := by
  have hcount := length_chunks_le lt m.chunks
  have htext : (m.text lt).length = ((m.chunks.map (Chunk.text lt)).flatten).length +
      (m.ending lt).length := List.length_append
  obtain ⟨left, hleft⟩ : ∃ left, (m.text lt ++ t).length + 1 = m.chunks.length + (left + 1) := by
    refine ⟨(m.text lt ++ t).length - m.chunks.length, ?_⟩
    rw [List.length_append]
    omega
  have hchunks : ∀ c ∈ m.chunks, c.data.length < 2 ^ 32 := by
    intro c hc
    have := data_le_flatten hc
    omega
  rw [decodeChunks, hleft, Message.text, List.append_assoc,
    chunkLoop_chunks hchunks _ _ [] (Nat.zero_le capacity), chunkLoop_ending, List.length_nil,
    Nat.zero_add, List.nil_append]
  rfl

end Decode

/-! ### One read -/

/-- How many pieces arrive. -/
def pieces (events : List Event) : Nat := events.countP (· ≠ .pause)

/-- There is room for the next read, and it does not come to an end in what is to arrive. -/
structure Ready (b : UString) (events : List Event) : Prop where
  room : b.data.length < b.capacity
  capacity : b.capacity < 2 ^ 31
  arrives : ∀ x, .data x ∈ events → x ≠ []
  size : b.data.length + (pending events).length + 2048 ≤ 2 ^ 30

theorem pending_data (x : Bytes) (events : List Event) :
    pending (.data x :: events) = x ++ pending events := rfl

theorem pending_append (es fs : List Event) : pending (es ++ fs) = pending es ++ pending fs := by
  rw [pending, List.map_append, List.flatten_append]
  rfl

theorem pieces_append (es fs : List Event) : pieces (es ++ fs) = pieces es + pieces fs :=
  List.countP_append

theorem pieces_data (x : Bytes) (events : List Event) :
    pieces (.data x :: events) = pieces events + 1 :=
  List.countP_cons_of_pos (by simp)

theorem reserve_spec {b : UString} {n : Nat} (hn : n + 4095 < 2 ^ 31) (hcap : b.capacity < 2 ^ 31) :
    n ≤ (reserve b n).capacity ∧ (reserve b n).capacity < 2 ^ 31 := by
  have hpre : n ≤ howMuchPreallocate n ∧ howMuchPreallocate n + 4095 < 2 ^ 31 := by
    unfold howMuchPreallocate uCapacity
    constructor <;> split_ifs <;> omega
  unfold reserve
  split
  · next h => exact ⟨h, hcap⟩
  · show n ≤ created (howMuchPreallocate n) ∧ created (howMuchPreallocate n) < 2 ^ 31
    generalize howMuchPreallocate n = m at hpre ⊢
    unfold created uCapacity
    constructor <;> split_ifs <;> omega

/-- A read that takes whole pieces and leaves room in the buffer. -/
def TakesPieces (before : Bytes) (events : List Event) (r : Option (Bool × UString × Socket)) :
    Prop :=
  ∃ used rest b, r = some (true, b, ⟨rest, true⟩) ∧ events = used ++ rest ∧
    b.data = before ++ pending used ∧ b.data.length < b.capacity ∧ b.capacity < 2 ^ 31 ∧
    ((∃ x es, events = .data x :: es) → 0 < pieces used)

/-- What is left of a piece, with what comes behind it. -/
def leftOver (x : Bytes) (n : Nat) (events : List Event) : List Event :=
  if n < x.length then .data (x.drop n) :: events else events

theorem pending_leftOver (x : Bytes) (n : Nat) (events : List Event) :
    pending (leftOver x n events) = x.drop n ++ pending events := by
  unfold leftOver
  split
  · rfl
  · rw [List.drop_of_length_le (by omega), List.nil_append]

/-- A piece of which the rest is taken is taken whole. -/
theorem leftOver_taken {x : Bytes} {n : Nat} {events used rest : List Event}
    (h : leftOver x n events = used ++ rest)
    (hused : (∃ y es, leftOver x n events = .data y :: es) → 0 < pieces used) :
    ∃ used', .data x :: events = used' ++ rest ∧ pending used' = x.take n ++ pending used ∧
      0 < pieces used' := by
  unfold leftOver at h hused
  split at h
  · next hlong =>
      rw [if_pos hlong] at hused
      have hpos := hused ⟨_, _, rfl⟩
      cases used with
      | nil => exact absurd hpos (Nat.lt_irrefl 0)
      | cons e used =>
          rw [List.cons_append] at h
          obtain ⟨rfl, rfl⟩ := List.cons.inj h
          refine ⟨.data x :: used, rfl, ?_, ?_⟩
          · rw [pending_data, pending_data, ← List.append_assoc, List.take_append_drop]
          · rw [pieces_data]
            omega
  · next hshort =>
      refine ⟨.data x :: used, by rw [h]; rfl, ?_, ?_⟩
      · rw [pending_data, List.take_of_length_le (by omega)]
      · rw [pieces_data]
        omega

section Single

variable {start fuel ncount : Nat} {b : UString} {byteRead : Bytes}

theorem readLoop_timeout {events rest : List Event} (hne : byteRead ≠ [])
    (h : recvFrom ncount 500 events = some (.timeout, rest)) :
    readLoop start (-1) (fuel + 1) b byteRead ncount 500 ⟨events, true⟩ =
      some (true, b, ⟨rest, true⟩) := by
  have hlen : byteRead.length ≠ 0 := fun h => hne (List.length_eq_zero_iff.mp h)
  rw [readLoop, recv, if_pos rfl]
  dsimp only
  rw [h]
  exact if_pos hlen

/-- A piece, or as much of it as there is room for. -/
theorem readLoop_data {x : Bytes} {events : List Event} (hx : x ≠ []) (hncount : 0 < ncount)
    (hroom : start + byteRead.length + ncount ≤ b.capacity) {timeoutMS : Int} :
    readLoop start (-1) (fuel + 1) b byteRead ncount timeoutMS ⟨.data x :: events, true⟩ =
      if x.length < ncount then
        some (true, { b with data := b.data.take start ++ (byteRead ++ x) }, ⟨events, true⟩)
      else
        let b := reserve { b with data := b.data.take start ++ (byteRead ++ x.take ncount) }
          ((start + (byteRead ++ x.take ncount).length + ncount) % 2 ^ 32)
        readLoop start (-1) fuel b (byteRead ++ x.take ncount) (repSpace b) 500
          ⟨leftOver x ncount events, true⟩ := by
  unfold leftOver
  have hpos := List.length_pos_of_ne_nil hx
  have hcount : ∀ w : Bytes, ¬ (((byteRead ++ w).length : Nat) : Int) < -1 := by
    intro w
    omega
  rw [readLoop, recv, if_pos rfl, recvFrom]
  dsimp only
  by_cases hlong : ncount < x.length
  · have htake : (x.take ncount).length = ncount := List.length_take_of_le (by omega)
    rw [if_pos hlong, if_neg (by omega), if_pos hlong]
    simp only [Option.bind_eq_bind, Option.bind_some, if_neg (hcount _), htake]
    rw [if_neg (by omega), if_neg (by omega), if_true]
  · rw [if_neg hlong, if_neg hlong]
    simp only [Option.bind_eq_bind, Option.bind_some, if_neg (hcount _)]
    rw [if_neg (by omega), if_neg (by omega)]
    by_cases hshort : x.length < ncount
    · rw [if_pos hshort, if_neg (by omega)]
    · rw [if_neg hshort, if_pos (by omega), List.take_of_length_le (by omega : x.length ≤ ncount)]

/-- The loop takes whole pieces: the last of them leaves room in the buffer, or nothing comes
behind it. -/
theorem readLoop_pieces {events : List Event} (hfuel : (pending events).length < fuel)
    (harrives : ∀ x, .data x ∈ events → x ≠ [])
    (hnext : byteRead ≠ [] ∨ ∃ x es, events = .data x :: es)
    (hdata : byteRead ≠ [] → b.data = b.data.take start ++ byteRead)
    (hstart : start ≤ b.data.length)
    (hroom : start + byteRead.length + ncount = b.capacity) (hncount : 0 < ncount)
    (hcap : b.capacity < 2 ^ 31)
    (hsize : start + byteRead.length + (pending events).length + 2048 ≤ 2 ^ 30) :
    TakesPieces (b.data.take start ++ byteRead) events
      (readLoop start (-1) fuel b byteRead ncount 500 ⟨events, true⟩) := by
  induction fuel generalizing b byteRead ncount events with
  | zero => omega
  | succ fuel ih =>
      have htake : (b.data.take start).length = start := List.length_take_of_le hstart
      -- nothing comes for half a second
      have hwait : ∀ used rest, events = used ++ rest → pending used = [] →
          recvFrom ncount 500 events = some (.timeout, rest) → (¬ ∃ x es, events = .data x :: es) →
          TakesPieces (b.data.take start ++ byteRead) events
            (readLoop start (-1) (fuel + 1) b byteRead ncount 500 ⟨events, true⟩) := by
        intro used rest hevents hused hrecv hno
        have hne : byteRead ≠ [] := hnext.resolve_right hno
        refine ⟨used, rest, b, readLoop_timeout hne hrecv, hevents, ?_, ?_, hcap,
          fun h => absurd h hno⟩
        · rw [hused, List.append_nil]
          exact hdata hne
        · rw [hdata hne, List.length_append, htake]
          omega
      cases events with
      | nil => exact hwait [] [] rfl rfl rfl (by simp)
      | cons e events =>
          cases e with
          | pause => exact hwait [.pause] events rfl rfl rfl (by simp)
          | data x =>
              have hx : x ≠ [] := harrives x List.mem_cons_self
              have hpos := List.length_pos_of_ne_nil hx
              rw [pending_data, List.length_append] at hfuel hsize
              rw [readLoop_data hx hncount (by omega)]
              by_cases hshort : x.length < ncount
              · rw [if_pos hshort]
                refine ⟨[.data x], events, _, rfl, rfl, ?_, ?_, hcap, fun _ => ?_⟩
                · simp [pending, Event.bytes]
                · simp only [List.length_append, htake]
                  omega
                · rw [pieces_data]
                  omega
              · rw [if_neg hshort]
                dsimp only
                have hgot : (x.take ncount).length = ncount := List.length_take_of_le (by omega)
                obtain ⟨hcap₁, hlt₁⟩ :=
                  @reserve_spec { b with data := b.data.take start ++ (byteRead ++ x.take ncount) }
                    ((start + (byteRead ++ x.take ncount).length + ncount) % 2 ^ 32)
                    (by rw [List.length_append]; omega) hcap
                generalize hb₁ : reserve _ _ = b₁ at hcap₁ hlt₁ ⊢
                have hdata₁ : b₁.data = b.data.take start ++ (byteRead ++ x.take ncount) := by
                  rw [← hb₁, data_reserve]
                have hlen₁ : b₁.data.length = start + byteRead.length + ncount := by
                  rw [hdata₁, List.length_append, List.length_append, htake, hgot, Nat.add_assoc]
                have htake₁ : b₁.data.take start = b.data.take start := by
                  rw [hdata₁, List.take_left' htake]
                rw [List.length_append, hgot] at hcap₁
                have hleft := pending_leftOver x ncount events
                have hlenleft : (pending (leftOver x ncount events)).length + ncount =
                    x.length + (pending events).length := by
                  rw [hleft, List.length_append, List.length_drop]
                  omega
                have hleftarrives : ∀ y, .data y ∈ leftOver x ncount events → y ≠ [] := by
                  intro y hy
                  unfold leftOver at hy
                  split at hy
                  · next hlong =>
                      rcases List.mem_cons.mp hy with h | hy
                      · cases h
                        exact List.ne_nil_of_length_pos (by rw [List.length_drop]; omega)
                      · exact harrives y (List.mem_cons_of_mem _ hy)
                  · exact harrives y (List.mem_cons_of_mem _ hy)
                have hne₁ : byteRead ++ x.take ncount ≠ [] :=
                  List.ne_nil_of_length_pos (by rw [List.length_append, hgot]; omega)
                obtain ⟨used, rest, b', hread, hevents, hdata', hroom', hcap', hused⟩ :=
                  @ih (repSpace b₁) b₁ _ _ (by omega) hleftarrives (Or.inl hne₁)
                    (fun _ => by rw [htake₁, hdata₁]) (by omega)
                    (by rw [repSpace, List.length_append, hgot]; omega) (by rw [repSpace]; omega)
                    hlt₁ (by rw [List.length_append, hgot]; omega)
                obtain ⟨used', hsplit, hpending, hpieces⟩ := leftOver_taken hevents hused
                refine ⟨used', rest, b', hread, hsplit, ?_, hroom', hcap', fun _ => hpieces⟩
                rw [hdata', htake₁, hpending]
                simp only [List.append_assoc]

end Single

/-! ### Reading up to the blank line -/

/-- The first piece that is to come, behind what is waited for. -/
theorem exists_piece {events : List Event} (h : pending events ≠ []) :
    ∃ k x es, events = List.replicate k .pause ++ .data x :: es := by
  induction events with
  | nil => exact absurd rfl h
  | cons e events ih =>
      cases e with
      | pause =>
          obtain ⟨k, x, es, rfl⟩ := ih h
          exact ⟨k + 1, x, es, rfl⟩
      | data x => exact ⟨0, x, events, rfl⟩

theorem recv_pauses (n k : Nat) (events : List Event) :
    recv n (-1) ⟨List.replicate k .pause ++ events, true⟩ = recv n (-1) ⟨events, true⟩ := by
  induction k with
  | zero => rfl
  | succ k ih => exact ih

theorem pending_pauses (k : Nat) (events : List Event) :
    pending (List.replicate k .pause ++ events) = pending events := by
  induction k with
  | zero => rfl
  | succ k ih => exact ih

theorem readLoop_pauses {start fuel n k : Nat} {count : Int} {b : UString} {byteRead : Bytes}
    {events : List Event} :
    readLoop start count (fuel + 1) b byteRead n (-1) ⟨List.replicate k .pause ++ events, true⟩ =
      readLoop start count (fuel + 1) b byteRead n (-1) ⟨events, true⟩ := by
  rw [readLoop, readLoop, recv_pauses]

theorem readLoop_single {start fuel : Nat} {b : UString} {k : Nat} {x : Bytes} {es : List Event}
    (hfuel : (pending (.data x :: es)).length < fuel)
    (harrives : ∀ y, .data y ∈ Event.data x :: es → y ≠ []) (hstart : start = b.data.length)
    (hroom : start < b.capacity) (hcap : b.capacity < 2 ^ 31)
    (hsize : start + (pending (.data x :: es)).length + 2048 ≤ 2 ^ 30) :
    TakesPieces b.data (.data x :: es)
      (readLoop start (-1) fuel b [] (b.capacity - start) (-1)
        ⟨List.replicate k .pause ++ .data x :: es, true⟩) := by
  subst hstart
  cases fuel with
  | zero => omega
  | succ fuel =>
      have hx : x ≠ [] := harrives x List.mem_cons_self
      have hn : 0 < b.capacity - b.data.length := by omega
      have hle : b.data.length + ([] : Bytes).length + (b.capacity - b.data.length) ≤
          b.capacity := by
        rw [List.length_nil]
        omega
      have hpieces := @readLoop_pieces b.data.length (fuel + 1) (b.capacity - b.data.length) b []
        _ hfuel harrives (Or.inr ⟨x, es, rfl⟩) (fun h => absurd rfl h) (Nat.le_refl _)
        (by rw [List.length_nil]; omega) hn hcap (by rw [List.length_nil]; omega)
      rw [readLoop_data hx hn hle, List.take_length, List.append_nil] at hpieces
      rw [readLoop_pauses, readLoop_data hx hn hle, List.take_length]
      exact hpieces

/-- A read takes a piece or more, and leaves the buffer ready for the next. -/
theorem singleRead_ready {b : UString} {events : List Event} (h : Ready b events)
    (hne : pending events ≠ []) :
    ∃ used rest b', singleRead ⟨events, true⟩ b = some (true, b', ⟨rest, true⟩) ∧
      events = used ++ rest ∧ b'.data = b.data ++ pending used ∧ 0 < pieces used ∧
      Ready b' rest := by
  obtain ⟨k, x, es, rfl⟩ := exists_piece hne
  have hsize := h.size
  have harrives : ∀ y, .data y ∈ Event.data x :: es → y ≠ [] :=
    fun y hy => h.arrives y (List.mem_append_right _ hy)
  obtain ⟨b₁, hdata₁, hroom₁, hcap₁, hread⟩ : ∃ b₁ : UString, b₁.data = b.data ∧
      b.data.length < b₁.capacity ∧ b₁.capacity < 2 ^ 31 ∧ ∀ s fuel, RpcFraming.read fuel s b (-1) =
        readLoop b.data.length (-1) fuel b₁ [] (b₁.capacity - b.data.length) (-1) s := by
    have hchunk : (max (-1 : Int) uCapacity).toNat = uCapacity := rfl
    by_cases hless : space b < uCapacity ∧ b.capacity < uCapacity
    · obtain ⟨hle, hlt⟩ := @reserve_spec b uCapacity (by decide) h.capacity
      have hroom := h.room
      refine ⟨reserve b uCapacity, data_reserve b _, by omega, hlt, fun s fuel => ?_⟩
      rw [RpcFraming.read, hchunk, if_pos hless]
      dsimp only
      rw [repSpace, data_reserve]
    · have hspace : space b = b.capacity - b.data.length := by
        have hroom := h.room
        rw [space, if_pos ⟨by omega, h.capacity⟩]
      refine ⟨b, rfl, h.room, h.capacity, fun s fuel => ?_⟩
      rw [RpcFraming.read, hchunk, if_neg hless, hspace]
  rw [pending_pauses] at hsize
  rw [singleRead, hread, pending_pauses, ← hdata₁]
  obtain ⟨used, rest, b', hloop, hevents, hdata, hroom, hcap, hused⟩ :=
    @readLoop_single b₁.data.length _ b₁ k x es (Nat.lt_succ_self _) harrives rfl
      (by rw [hdata₁]; exact hroom₁) hcap₁ (by rw [hdata₁]; exact hsize)
  refine ⟨List.replicate k .pause ++ used, rest, b', hloop, ?_, ?_, ?_, hroom, hcap, ?_, ?_⟩
  · rw [hevents, List.append_assoc]
  · rw [hdata, pending_pauses]
  · have := hused ⟨x, es, rfl⟩
    rw [pieces_append]
    omega
  · exact fun y hy => harrives y (hevents ▸ List.mem_append_right used hy)
  · rw [hevents, pending_append, List.length_append] at hsize
    rw [hdata, hdata₁, List.length_append]
    omega

/-! ### Where the blank line is -/

/-- The first blank line in the text of the message is its end. -/
def EndsFirst (m : Message) (lt : LineTerminator) : Prop :=
  search lt.twice (m.text lt) = some ((m.text lt).length - lt.twice.length)

instance (m : Message) (lt : LineTerminator) : Decidable (EndsFirst m lt) :=
  inferInstanceAs (Decidable (_ = _))

theorem twice_line (lt : LineTerminator) : ∀ c ∈ lt.twice, isXdigit c = false := by
  cases lt <;> decide

theorem text_head (m : Message) (lt : LineTerminator) :
    ∃ c t, m.text lt = c :: t ∧ isXdigit c := by
  cases hchunks : m.chunks with
  | nil =>
      cases hzeros : m.zeros with
      | nil => exact absurd hzeros m.nonempty
      | cons c w =>
          refine ⟨c, _, by rw [Message.text, Message.ending, hchunks, hzeros]; rfl, ?_⟩
          rw [m.zero c (hzeros ▸ List.mem_cons_self)]
          rfl
  | cons d chunks =>
      cases hsize : d.size with
      | nil => exact absurd hsize (size_ne_nil d)
      | cons c w =>
          refine ⟨c, _, by rw [Message.text, hchunks, List.map_cons, Chunk.text, hsize]; rfl, ?_⟩
          exact d.hex c (hsize ▸ List.mem_cons_self)

/-- The text ends with a blank line. -/
theorem text_end (m : Message) (lt : LineTerminator) : ∃ w, m.text lt = w ++ lt.twice := by
  obtain ⟨w, hw⟩ : ∃ w, lt.bytes ++ (m.trailers.map (· ++ lt.bytes)).flatten = w ++ lt.bytes := by
    rcases List.eq_nil_or_concat m.trailers with h | ⟨ls, l, h⟩
    · exact ⟨[], by rw [h]; simp⟩
    · refine ⟨lt.bytes ++ (ls.map (· ++ lt.bytes)).flatten ++ l, ?_⟩
      rw [h, List.map_concat, List.concat_eq_append, List.flatten_append]
      simp
  refine ⟨(m.chunks.map (Chunk.text lt)).flatten ++ (m.zeros ++ (m.extension ++ w)), ?_⟩
  simp only [Message.text, Message.ending, LineTerminator.twice, List.append_assoc]
  rw [← List.append_assoc lt.bytes, hw, List.append_assoc]

theorem data_le_text (m : Message) (lt : LineTerminator) : m.data.length ≤ (m.text lt).length := by
  have hcount := length_chunks_le lt m.chunks
  rw [Message.text, List.length_append, Message.data]
  omega

section Find

variable {m : Message} {lt : LineTerminator} {head x rest : Bytes} {start : Nat}

theorem twice_le_text (hfirst : EndsFirst m lt) : lt.twice.length ≤ (m.text lt).length := by
  have hpre := (of_search hfirst).1.length_le
  rw [List.length_drop] at hpre
  omega

/-- A blank line that is found reaches behind the header, and is not before the end. -/
theorem le_of_blank (hfirst : EndsFirst m lt) {y : Bytes} (htext : x ++ y = m.text lt ++ rest)
    {j : Nat}
    (hj : head.length < j + lt.twice.length) (hblank : lt.twice <+: (head ++ x).drop j) :
    head.length + ((m.text lt).length - lt.twice.length) ≤ j := by
  by_cases hhead : j < head.length
  · exfalso
    rw [List.drop_append_of_le_length (by omega)] at hblank
    have hlength : (head.drop j).length < lt.twice.length := by
      rw [List.length_drop]
      omega
    cases x with
    | nil =>
        have := hblank.length_le
        rw [List.append_nil] at this
        omega
    | cons d x =>
        -- the first byte of the text would be in the blank line
        obtain ⟨c, t, hc, hxdigit⟩ := text_head m lt
        rw [hc] at htext
        obtain rfl : d = c := (List.cons.inj htext).1
        have hpre : head.drop j ++ [d] <+: lt.twice :=
          List.prefix_of_prefix_length_le ⟨x, by simp⟩ hblank (by simp at hlength ⊢; omega)
        have hmem : d ∈ lt.twice := hpre.subset (by simp)
        rw [twice_line lt d hmem] at hxdigit
        cases hxdigit
  · by_contra hbefore
    obtain ⟨i, rfl⟩ : ∃ i, j = head.length + i := ⟨j - head.length, by omega⟩
    rw [← List.drop_drop, List.drop_left] at hblank
    have htwice := twice_le_text hfirst
    have hwhole : lt.twice <+: (m.text lt).drop i ++ rest := by
      rw [← List.drop_append_of_le_length (by omega), ← htext, List.drop_append]
      exact hblank.trans (List.prefix_append _ _)
    refine (of_search hfirst).2 i (by omega) ?_
    refine List.prefix_of_prefix_length_le hwhole (List.prefix_append _ _) ?_
    rw [List.length_drop]
    omega

/-- The search finds the end of a message that is there. -/
theorem findFrom_message (hfirst : EndsFirst m lt) (hx : x = m.text lt ++ rest)
    (hlow : head.length < start + lt.twice.length)
    (hhigh : start ≤ head.length + ((m.text lt).length - lt.twice.length)) :
    findFrom (head ++ x) lt.twice start =
      some (head.length + ((m.text lt).length - lt.twice.length)) := by
  obtain ⟨k, hk⟩ : ∃ k, head.length + ((m.text lt).length - lt.twice.length) = start + k :=
    ⟨_, (Nat.add_sub_cancel' hhigh).symm⟩
  have hle : start + k ≤ (head ++ x).length := by
    rw [hx, List.length_append, List.length_append]
    omega
  have hfound : lt.twice <+: ((head ++ x).drop start).drop k := by
    rw [List.drop_drop, ← hk, ← List.drop_drop, List.drop_left, hx,
      List.drop_append_of_le_length (by omega)]
    exact (of_search hfirst).1.trans (List.prefix_append _ _)
  have hfirst' : ∀ j < k, ¬ lt.twice <+: ((head ++ x).drop start).drop j := by
    intro j hj hblank
    rw [List.drop_drop] at hblank
    have := le_of_blank (y := []) hfirst (by rw [List.append_nil]; exact hx) (by omega) hblank
    omega
  rw [findFrom, search_some (by rw [List.length_drop]; omega) hfound hfirst', Option.map_some, hk]

/-- The search finds nothing while the message is not there whole. -/
theorem findFrom_part (hfirst : EndsFirst m lt) {y : Bytes} (htext : x ++ y = m.text lt ++ rest)
    (hshort : x.length < (m.text lt).length) (hlow : head.length < start + lt.twice.length) :
    findFrom (head ++ x) lt.twice start = none := by
  have htwice := twice_le_text hfirst
  have hnone : search lt.twice ((head ++ x).drop start) = none := by
    refine search_none fun j hblank => ?_
    rw [List.drop_drop] at hblank
    have hle := le_of_blank hfirst htext (by omega) hblank
    have hlength := hblank.length_le
    rw [List.length_drop, List.length_append] at hlength
    have hpos : 0 < lt.twice.length := by cases lt <;> decide
    omega
  rw [findFrom, hnone]
  rfl

end Find

/-! ### All the reads -/

theorem pending_of_pieces {es : List Event} (h : pieces es = 0) : pending es = [] := by
  induction es with
  | nil => rfl
  | cons e es ih =>
      cases e with
      | pause => exact ih (by rwa [pieces, List.countP_cons_of_neg (by simp)] at h)
      | data x =>
          rw [pieces_data] at h
          cases h

theorem pending_pos {es : List Event} (harrives : ∀ x, .data x ∈ es → x ≠ []) (h : 0 < pieces es) :
    0 < (pending es).length := by
  induction es with
  | nil => cases h
  | cons e es ih =>
      cases e with
      | pause =>
          rw [pieces, List.countP_cons_of_neg (by simp)] at h
          exact ih (fun x hx => harrives x (List.mem_cons_of_mem _ hx)) h
      | data x =>
          have := List.length_pos_of_ne_nil (harrives x List.mem_cons_self)
          rw [pending_data, List.length_append]
          omega

section Reads

variable {m : Message} {lt : LineTerminator} {head rest : Bytes}

/-- The pieces are read until the end of the message is there. -/
theorem readLoopNotToken_message (hfirst : EndsFirst m lt) (hhead : lt.twice.length ≤ head.length)
    {left start : Nat} {b : UString} {x : Bytes} {es more : List Event}
    (hready : Ready b (es ++ more)) (hb : b.data = head ++ x)
    (htext : x ++ pending (es ++ more) = m.text lt ++ rest)
    (hes : m.text lt <+: x ++ pending es) (hleft : pieces es ≤ left)
    (hlow : head.length < start + lt.twice.length)
    (hhigh : start ≤ head.length + ((m.text lt).length - lt.twice.length))
    (hshort : x.length < (m.text lt).length) :
    ∃ b' s' rest', readLoopNotToken lt.twice left start ⟨es ++ more, true⟩ b =
      some (some (head.length + ((m.text lt).length - lt.twice.length)), b', s') ∧
      b'.data = head ++ (m.text lt ++ rest') := by
  induction left generalizing start b x es with
  | zero =>
      have hle := hes.length_le
      rw [pending_of_pieces (Nat.le_zero.mp hleft), List.append_nil] at hle
      omega
  | succ left ih =>
      have hne : pending (es ++ more) ≠ [] := by
        intro h
        have hlength := congrArg List.length htext
        rw [h, List.append_nil, List.length_append] at hlength
        omega
      obtain ⟨used, rest₁, b₁, hread, hevents, hdata, hused, hready₁⟩ := singleRead_ready hready hne
      rw [hevents, pending_append, ← List.append_assoc] at htext
      rw [hb, List.append_assoc] at hdata
      rw [readLoopNotToken, hread]
      simp only [Option.bind_eq_bind, Option.bind_some, if_true, hdata]
      by_cases hpart : (x ++ pending used).length < (m.text lt).length
      · have hsize := hready₁.size
        have hlength : b₁.data.length = head.length + (x ++ pending used).length := by
          rw [hdata, List.length_append]
        have hpos := pending_pos
          (fun y hy => hready.arrives y (hevents ▸ List.mem_append_left rest₁ hy)) hused
        have hstart : (b₁.data.length + 2 ^ 32 - lt.twice.length) % 2 ^ 32 =
            b₁.data.length - lt.twice.length := by
          rw [hlength]
          omega
        rw [List.length_append] at hlength
        rw [findFrom_part hfirst htext hpart hlow]
        dsimp only
        rw [← hdata, hstart]
        have htwice := twice_le_text hfirst
        rcases List.append_eq_append_iff.mp hevents with ⟨a, rfl, rfl⟩ | ⟨a, rfl, rfl⟩
        · have hle := hes.length_le
          rw [pending_append] at hpart
          simp only [List.length_append] at hle hpart
          omega
        · rw [pending_append, ← List.append_assoc] at hes
          rw [pieces_append] at hleft
          rw [List.length_append] at hpart
          exact ih hready₁ hdata htext hes (by omega) (by omega) (by omega)
            (by rw [List.length_append]; exact hpart)
      · have hwhole : m.text lt <+: x ++ pending used :=
          List.prefix_of_prefix_length_le ⟨rest, rfl⟩ ⟨pending rest₁, htext⟩ (by omega)
        obtain ⟨rest', hrest'⟩ := hwhole
        rw [← hrest', findFrom_message hfirst rfl hlow hhigh]
        exact ⟨b₁, _, rest', rfl, by rw [hdata, hrest']⟩

end Reads

/-! ### The body -/

section Body

variable {room : Nat → Nat} {m : Message} {lt : LineTerminator} {head p rest : Bytes} {b : UString}
  {events : List Event}

/-- The body is what the chunks hold. -/
def Decodes (room : Nat → Nat) (m : Message) (lt : LineTerminator) (head : Bytes) (b : UString)
    (events : List Event) : Prop :=
  ∃ clength b' s', readBody room lt ⟨events, true⟩ b head.length =
    some (.done m.data clength, b', s')

theorem decodeBody_message {rest' : Bytes} {k : Nat} (hb : b.data = head ++ (m.text lt ++ rest'))
    (hsize : (m.text lt).length < 2 ^ 32) (hk : head.length + k + lt.twice.length < 2 ^ 32) :
    decodeBody room lt b head.length (head.length + k) =
      if room (k + lt.twice.length) < m.data.length then none
      else some (.done m.data (k + lt.twice.length)) := by
  have hpos : 0 < lt.twice.length := by cases lt <;> decide
  have hlength : head.length + k + lt.twice.length - head.length = k + lt.twice.length := by omega
  rw [decodeBody, Nat.mod_eq_of_lt hk]
  dsimp only
  rw [if_neg (by omega), hlength, hb, List.drop_left, decodeChunks_message hsize]
  split <;> rfl

/-- What is in the buffer behind the header, and what is still to arrive. -/
structure Sent (m : Message) (lt : LineTerminator) (head p rest : Bytes) (b : UString)
    (events : List Event) : Prop where
  header : lt.twice.length ≤ head.length
  buffered : b.data = head ++ p
  bytes : p ++ pending events = m.text lt ++ rest
  arrives : ∀ x, .data x ∈ events → x ≠ []
  size : b.data.length + (pending events).length < 2 ^ 32

/-- A message of which a part arrives is read when its first blank line is its end, the part
that is buffered does not reach into it, there is room in the buffer, and the pieces are not more
than the reads. -/
structure ArrivesWhole (m : Message) (lt : LineTerminator) (p : Bytes) (b : UString)
    (events : List Event) : Prop where
  first : EndsFirst m lt
  apart : p.length + lt.twice.length ≤ (m.text lt).length
  inTime : ∃ es more, events = es ++ more ∧ m.text lt <+: p ++ pending es ∧ pieces es ≤ 16386
  room : b.data.length < b.capacity
  capacity : b.capacity < 2 ^ 31
  size : b.data.length + (pending events).length + 2048 ≤ 2 ^ 30

theorem decodes_buffered (hsent : Sent m lt head p rest b events) (hwhole : m.text lt <+: p) :
    Decodes room m lt head b events ↔
      ∃ k, search lt.twice p = some k ∧ m.data.length ≤ room (k + lt.twice.length) := by
  obtain ⟨t, rfl⟩ := hwhole
  have hsize := hsent.size
  rw [hsent.buffered, List.length_append, List.length_append] at hsize
  have hfind : findFrom b.data lt.twice head.length =
      (search lt.twice (m.text lt ++ t)).map (head.length + ·) := by
    rw [findFrom, hsent.buffered, List.drop_left]
  obtain ⟨w, hw⟩ := text_end m lt
  have hfound : lt.twice <+: (m.text lt ++ t).drop w.length := by
    rw [hw, List.append_assoc, List.drop_left]
    exact List.prefix_append _ _
  obtain ⟨k, -, hk⟩ := exists_search (by rw [hw]; simp) hfound
  have hle := (of_search hk).1.length_le
  rw [List.length_drop, List.length_append] at hle
  have hpos : 0 < lt.twice.length := by cases lt <;> decide
  have hbody := @decodeBody_message room m lt head b t k hsent.buffered (by omega) (by omega)
  rw [hk, Option.map_some] at hfind
  simp only [Decodes, readBody, hfind, Option.bind_eq_bind, Option.bind_some, hbody, hk,
    Option.some.injEq, exists_eq_left']
  by_cases hfull : room (k + lt.twice.length) < m.data.length
  · rw [if_pos hfull]
    constructor
    · rintro ⟨clength, b', s', h⟩
      cases h
    · intro h
      omega
  · rw [if_neg hfull]
    exact ⟨fun _ => by omega, fun _ => ⟨_, _, _, rfl⟩⟩

theorem decodes_arriving (hroom : ∀ n, n ≤ room n) (hsent : Sent m lt head p rest b events)
    (h : ArrivesWhole m lt p b events) : Decodes room m lt head b events := by
  obtain ⟨es, more, rfl, hes, hpieces⟩ := h.inTime
  have htwice := twice_le_text h.first
  have hapart := h.apart
  have hsize := h.size
  have hheader := hsent.header
  have hpos : 0 < lt.twice.length := by cases lt <;> decide
  have hready : Ready b (es ++ more) := ⟨h.room, h.capacity, hsent.arrives, h.size⟩
  have hlength : b.data.length = head.length + p.length := by
    rw [hsent.buffered, List.length_append]
  obtain ⟨b', s', rest', hread, hdata⟩ := @readLoopNotToken_message m lt head rest h.first hheader
    16386 b.data.length b p es more hready hsent.buffered hsent.bytes hes hpieces (by omega)
    (by omega) (by omega)
  have hnone : findFrom b.data lt.twice head.length = none := by
    rw [hsent.buffered]
    exact findFrom_part h.first hsent.bytes (by omega) (by omega)
  have hdatalength := data_le_text m lt
  have hes_length := hes.length_le
  have hmore := hsent.bytes
  have hroom' := hroom (m.text lt).length
  rw [pending_append, List.length_append] at hsize
  rw [List.length_append] at hes_length
  have hbody := @decodeBody_message room m lt head b' rest' ((m.text lt).length - lt.twice.length)
    hdata (by omega) (by omega)
  rw [Nat.sub_add_cancel htwice, if_neg (by omega)] at hbody
  refine ⟨(m.text lt).length, b', s', ?_⟩
  rw [readBody, hnone, readWhileNotToken]
  simp only [Option.bind_eq_bind]
  rw [hread, Option.bind_some]
  dsimp only
  rw [hbody]
  rfl

/-- A message that is buffered is read if and only if there is memory for its bytes in what is made
for the text up to the first blank line; one that arrives is read when that line is its end. -/
theorem decodes_message (hroom : ∀ n, n ≤ room n) (hsent : Sent m lt head p rest b events) :
    (m.text lt <+: p → (Decodes room m lt head b events ↔
      ∃ k, search lt.twice p = some k ∧ m.data.length ≤ room (k + lt.twice.length))) ∧
    (ArrivesWhole m lt p b events → Decodes room m lt head b events) :=
  ⟨decodes_buffered hsent, decodes_arriving hroom hsent⟩

end Body

/-- A request with its body in chunks -/
def sampleHeader : Bytes :=
  ['P', 'O', 'S', 'T', ' ', '/', ' ', 'H', 'T', 'T', 'P', '/', '1', '.', '1', '\r', '\n', 'T',
    'r', 'a', 'n', 's', 'f', 'e', 'r', '-', 'E', 'n', 'c', 'o', 'd', 'i', 'n', 'g', ':', ' ',
    'c', 'h', 'u', 'n', 'k', 'e', 'd', '\r', '\n', '\r', '\n'].map Char.toUInt8

/-- `3;x`, and three bytes -/
def sampleChunk : Chunk where
  size := ['3'.toUInt8]
  extension := [';'.toUInt8, 'x'.toUInt8]
  data := [0, lineFeed, 255]
  hex := by decide
  counts := rfl
  nonempty := by decide
  semicolon := by decide
  oneLine := by decide

/-- The chunk is a blank line. -/
def blankChunk : Chunk where
  size := ['4'.toUInt8]
  extension := []
  data := LineTerminator.crlf.twice
  hex := by decide
  counts := rfl
  nonempty := by decide
  semicolon := by decide
  oneLine := by decide

/-- The chunks, and a trailer behind them -/
def sampleMessage (chunks : List Chunk) : Message where
  chunks := chunks
  zeros := ['0'.toUInt8]
  extension := []
  trailers := [['T'.toUInt8, ':'.toUInt8]]
  zero := by decide
  nonempty := by decide
  semicolon := by decide
  oneLine := by decide
  lines := by decide

/-- The first `n` bytes of the message are in the buffer, and the next `k` come together. -/
def sampleBuffer (chunks : List Chunk) (n : Nat) : UString :=
  ⟨sampleHeader ++ ((sampleMessage chunks).text .crlf).take n, uCapacity⟩

def sampleEvents (chunks : List Chunk) (n k : Nat) : List Event :=
  let text := (sampleMessage chunks).text .crlf
  [.pause, .data ((text.drop n).take k), .data (text.drop (n + k))]

theorem arrives_of {events : List Event} (h : .data [] ∉ events) (x : Bytes)
    (hx : .data x ∈ events) : x ≠ [] := by
  rintro rfl
  exact h hx

/-- The text is buffered, or comes behind a part of it in two pieces. -/
theorem decodes_sample :
    Decodes id (sampleMessage [sampleChunk]) .crlf sampleHeader (sampleBuffer [sampleChunk] 25) [] ∧
    Decodes id (sampleMessage [sampleChunk]) .crlf sampleHeader (sampleBuffer [sampleChunk] 3)
      (sampleEvents [sampleChunk] 3 15) := by
  constructor
  · have hsent : Sent (sampleMessage [sampleChunk]) .crlf sampleHeader
        ((sampleMessage [sampleChunk]).text .crlf) [] (sampleBuffer [sampleChunk] 25) [] :=
      ⟨by decide, by decide, by decide, arrives_of (by decide), by decide⟩
    refine ((decodes_message (fun n => Nat.le_refl n) hsent).1 (List.prefix_refl _)).mpr
      ⟨15, by decide, by decide⟩
  · have hsent : Sent (sampleMessage [sampleChunk]) .crlf sampleHeader
        (((sampleMessage [sampleChunk]).text .crlf).take 3) [] (sampleBuffer [sampleChunk] 3)
        (sampleEvents [sampleChunk] 3 15) :=
      ⟨by decide, by decide, by decide, arrives_of (by decide), by decide⟩
    refine (decodes_message (fun n => Nat.le_refl n) hsent).2
      ⟨by decide, by decide, ?_, by decide, by decide, by decide⟩
    exact ⟨_, [], (List.append_nil _).symm, by decide, by decide⟩

/-- The chunk with the blank line is read as the end of the message: the rest is looked for behind
what was received. -/
theorem not_decodes_blank :
    Sent (sampleMessage [blankChunk, sampleChunk]) .crlf sampleHeader [] []
      (sampleBuffer [blankChunk, sampleChunk] 0) (sampleEvents [blankChunk, sampleChunk] 0 9) ∧
    ¬ Decodes id (sampleMessage [blankChunk, sampleChunk]) .crlf sampleHeader
      (sampleBuffer [blankChunk, sampleChunk] 0) (sampleEvents [blankChunk, sampleChunk] 0 9) := by
  refine ⟨⟨by decide, by decide, by decide, arrives_of (by decide), by decide⟩, ?_⟩
  rintro ⟨clength, b', s', h⟩
  have hnone : (readBody id .crlf ⟨sampleEvents [blankChunk, sampleChunk] 0 9, true⟩
      (sampleBuffer [blankChunk, sampleChunk] 0) sampleHeader.length).isNone := by decide
  rw [h] at hnone
  cases hnone

end ULib.ChunkedReading
