import ULib.CdbText
import ULib.JournalVisit

/-!
The text of a database with its journal, which `URDB::print` writes and the
client reads line by line with `URDB::parseLine`. A line holds the two lengths
in decimal and then the bytes of the record, whatever they are.
-/

namespace ULib.RdbText

open ULib.ByteMemory
open ULib.KeyComparison
open ULib.EscapeCoding
open ULib.JsonValue (printNat)
open ULib.JsonScan
open ULib.NumberText
open ULib.ConstantDatabase
open ULib.ReliableDatabase
open ULib.JournalVisit
open ULib.CdbText (plus lineFeed lengths arrow pieces text)
open ULib.StringHeap (allocated)
open ULib.TextBuffer hiding put

/-! ### print -/

section
variable {σ : Type} (add : Bytes → Bytes → σ → σ)

/-- What `call2` and `print2` do with an entry of the constant database: nothing if its key is in
the journal. -/
def call2 (r : URDB × σ) (entry : Nat × Nat) : Option (URDB × σ) := do
  let (s, a) := r
  let x := recordAt s.cdb.file entry.2
  let (found, s) ← htLookup { s with khash := entry.1, key := Datum.ofBytes x.key }
  some (s, if found then a else add x.key x.data a)

/-- `URDB::call` -/
def call (s : URDB) (a : σ) : Option (URDB × σ) := do
  let (m, a) ← visitHashtab add s.journal.stSize (s.mem, a)
  let s := s.setMem m
  if s.cdb.stSize ≠ 0 then (callForAllEntryExt s.cdb).foldlM (call2 add) (s, a) else some (s, a)

end

/-- What `print1` and `print2` append for an entry. -/
def printEntry (key data : Bytes) (pbuffer : Buffer) : Option Buffer := do
  let pbuffer ← append pbuffer (lengths key.length data.length)
  let pbuffer ← append pbuffer key
  let pbuffer ← append pbuffer arrow
  let pbuffer ← append pbuffer data
  append pbuffer [lineFeed]

/-- `URDB::print` -/
def print (s : URDB) : Option (Bytes × URDB) :=
  let size := (s.cdb.stSize + s.off) % 2 ^ 32
  if size ≠ 0 then
    (call (fun key data pbuffer => pbuffer.bind (printEntry key data)) s.lock
      (some (created size))).bind fun (s, pbuffer) => pbuffer.map fun x => (x.data, s.unlock)
  else some ([], s)

/-- The entries that are printed, in their order. -/
def printed (s : URDB) : Option (List Record) :=
  if (s.cdb.stSize + s.off) % 2 ^ 32 ≠ 0 then
    (call (fun key data rs => rs ++ [⟨key, data⟩]) s.lock []).map Prod.snd
  else some []

/-! ### parseLine -/

/-- `strtol(t, &end, 10)`, with what is behind the number. -/
def strtol (t : Bytes) : Int × Bytes :=
  let (negative, u) := signed t
  match u.takeWhile isDigit with
  | [] => (0, t)
  | digits => (clampLong negative (digitsValue digits), u.drop digits.length)

/-- A `long` as a `uint32_t`. -/
def toUint32 (i : Int) : Nat := (i % 2 ^ 32).toNat

/-- The size of the key, and what is behind it. -/
def keySize (ptr : Bytes) : Nat × Bytes :=
  if ptr.head? = some '0'.toUInt8 then (0, ptr.tail)
  else (toUint32 (strtol ptr).1, (strtol ptr).2)

/-- The size of the data, which is `-1` for a deleted key, and what is behind it. -/
def dataSize (ptr : Bytes) : Nat × Bytes :=
  if ptr.head? = some '-'.toUInt8 then (uNotFound, ptr.drop 2)
  else (toUint32 (strtol ptr).1, (strtol ptr).2)

/-- The key and the data of a line, which has none for a deleted key, and where the line ends. A
position is what is behind it. -/
def parseLine (ptr : Bytes) : (Bytes × Option Bytes) × Bytes :=
  let (ksize, ptr) := keySize ptr.tail
  let (dsize, ptr) := dataSize ptr.tail
  let ptr := ptr.tail
  let key := ptr.take ksize
  let ptr := ptr.drop ((ksize + 2) % 2 ^ 32)
  let (data, ptr) :=
    if dsize = uNotFound then (none, ptr) else (some (ptr.take dsize), ptr.drop dsize)
  ((key, data), if ptr.head? = some lineFeed then ptr.tail else ptr)

/-- The loop of `URDBClient_Base::_callForAllEntry`; `none` is a loop that did not end in so many
rounds. -/
def parseLoop : Nat → Bytes → Option (List (Bytes × Option Bytes))
  | 0, _ => none
  | fuel + 1, ptr =>
      if ptr.head? = some plus then
        (parseLoop fuel (parseLine ptr).2).map ((parseLine ptr).1 :: ·)
      else some []

def parse (response : Bytes) : Option (List (Bytes × Option Bytes)) :=
  parseLoop (response.length + 1) response

/-! ### A line -/

def line (r : Record) : Bytes := (pieces r).flatten

theorem line_eq (r : Record) :
    line r = plus :: (printNat r.key.length ++ ','.toUInt8 :: (printNat r.data.length ++
      ':'.toUInt8 :: (r.key ++ ('-'.toUInt8 :: '>'.toUInt8 :: (r.data ++ [lineFeed]))))) := by
  rw [line, pieces, lengths, arrow]
  simp only [List.flatten_cons, List.flatten_nil, List.append_nil, List.cons_append,
    List.append_assoc, List.nil_append]

/-- A printed number starts with zero only if it is zero. -/
theorem head_printNat {n : Nat} (hn : n ≠ 0) : (printNat n).head? ≠ some '0'.toUInt8 := by
  have hne := Nat.digits_ne_nil_iff_ne_zero (b := 10).mpr hn
  have hlast := Nat.getLast_digit_ne_zero 10 hn
  have hlt := Nat.digits_lt_base (b := 10) (by decide) (List.getLast_mem hne)
  rw [printNat, if_neg hn, List.head?_map, List.head?_reverse, List.getLast?_eq_some_getLast hne]
  intro h
  have hzero : digit ((Nat.digits 10 n).getLast hne) = digit 0 := Option.some.inj h
  have hvalue := (digit_spec _ hlt).2
  rw [hzero] at hvalue
  exact hlast hvalue.symm

theorem strtol_printNat {n : Nat} (hn : n < 2 ^ 32) {c : UInt8} (hc : isDigit c = false)
    (rest : Bytes) : strtol (printNat n ++ c :: rest) = ((n : Int), c :: rest) := by
  obtain ⟨hne, hdigits, hvalue⟩ := printNat_spec n
  have htake := takeWhile_digits (t := rest) hdigits hc
  rw [strtol, signed_digits hdigits hne]
  dsimp only
  rw [htake]
  cases hprint : printNat n with
  | nil => exact absurd hprint hne
  | cons d w =>
      dsimp only
      rw [← hprint, hvalue, List.drop_left, clampLong, if_neg Bool.false_ne_true,
        min_eq_left (by omega)]

theorem toUint32_natCast {n : Nat} (hn : n < 2 ^ 32) : toUint32 n = n := by
  rw [toUint32]
  omega

/-- The key size is read in one of two ways. -/
theorem keySize_printNat {n : Nat} (hn : n < 2 ^ 32) (rest : Bytes) :
    keySize (printNat n ++ ','.toUInt8 :: rest) = (n, ','.toUInt8 :: rest) := by
  by_cases hzero : n = 0
  · subst hzero
    rfl
  · obtain ⟨hne, -, -⟩ := printNat_spec n
    rw [keySize, List.head?_append_of_ne_nil _ hne, if_neg (head_printNat hzero),
      strtol_printNat hn (by decide), toUint32_natCast hn]

theorem length_line (r : Record) :
    (line r).length = (lengths r.key.length r.data.length).length + r.key.length + r.data.length +
      3 := by
  simp only [line, pieces, arrow, List.flatten_cons, List.flatten_nil, List.length_append,
    List.length_cons, List.length_nil]
  omega

/-- The data size is read in one of two ways, and a number does not start with a minus. -/
theorem dataSize_printNat {n : Nat} (hn : n < 2 ^ 32) (rest : Bytes) :
    dataSize (printNat n ++ ':'.toUInt8 :: rest) = (n, ':'.toUInt8 :: rest) := by
  obtain ⟨hne, hdigits, -⟩ := printNat_spec n
  have hminus : (printNat n ++ ':'.toUInt8 :: rest).head? ≠ some '-'.toUInt8 := by
    rw [List.head?_append_of_ne_nil _ hne]
    intro h
    have hdigit := hdigits _ (List.mem_of_mem_head? h)
    exact absurd hdigit (by decide)
  rw [dataSize, if_neg hminus, strtol_printNat hn (by decide), toUint32_natCast hn]

/-- A line is read as the record for which it was written, and up to the next line. -/
theorem parseLine_line {r : Record} (hr : (line r).length < 2 ^ 32) (rest : Bytes) :
    parseLine (line r ++ rest) = ((r.key, some r.data), rest) := by
  have hlength := length_line r
  have hk : (r.key.length + 2) % 2 ^ 32 = r.key.length + 2 := Nat.mod_eq_of_lt (by omega)
  have hd : r.data.length ≠ uNotFound := by
    rw [uNotFound]
    omega
  have hkey := keySize_printNat (n := r.key.length) (by omega) (printNat r.data.length ++
    ':'.toUInt8 :: (r.key ++ ('-'.toUInt8 :: '>'.toUInt8 :: (r.data ++ lineFeed :: rest))))
  have hdata := dataSize_printNat (n := r.data.length) (by omega)
    (r.key ++ ('-'.toUInt8 :: '>'.toUInt8 :: (r.data ++ lineFeed :: rest)))
  have hline : line r ++ rest = plus :: (printNat r.key.length ++ ','.toUInt8 ::
      (printNat r.data.length ++ ':'.toUInt8 :: (r.key ++ ('-'.toUInt8 :: '>'.toUInt8 ::
        (r.data ++ lineFeed :: rest))))) := by
    rw [line_eq]
    simp only [List.cons_append, List.append_assoc, List.nil_append]
  have hdrop : (r.key ++ ('-'.toUInt8 :: '>'.toUInt8 :: (r.data ++ lineFeed :: rest))).drop
      (r.key.length + 2) = r.data ++ lineFeed :: rest := by
    rw [← List.drop_drop, List.drop_left]
    rfl
  rw [hline, parseLine]
  simp only [List.tail_cons, hkey, hdata]
  rw [hk, if_neg hd, hdrop, List.take_left, List.take_left, List.drop_left]
  rfl

/-! ### The text -/

theorem text_eq (rs : List Record) : text rs = (rs.map line).flatten := by
  induction rs with
  | nil => rfl
  | cons r rs ih =>
      rw [CdbText.text_cons, ih]
      rfl

theorem parseLoop_text {rs : List Record} (hrs : ∀ r ∈ rs, (line r).length < 2 ^ 32) {fuel : Nat}
    (hfuel : rs.length < fuel) :
    parseLoop fuel (text rs) = some (rs.map fun r => (r.key, some r.data)) := by
  induction rs generalizing fuel with
  | nil =>
      cases fuel with
      | zero => exact absurd hfuel (Nat.not_lt_zero _)
      | succ fuel => rfl
  | cons r rs ih =>
      cases fuel with
      | zero => exact absurd hfuel (Nat.not_lt_zero _)
      | succ fuel =>
          have hhead : (text (r :: rs)).head? = some plus := by
            rw [CdbText.text_cons, ← line, line_eq]
            rfl
          have hparse := parseLine_line (hrs r List.mem_cons_self) (text rs)
          rw [line, ← CdbText.text_cons] at hparse
          rw [parseLoop, if_pos hhead, hparse,
            ih (fun x hx => hrs x (List.mem_cons_of_mem r hx)) (Nat.lt_of_succ_lt_succ hfuel)]
          rfl

theorem length_le_text (rs : List Record) : rs.length ≤ (text rs).length := by
  induction rs with
  | nil => exact Nat.zero_le _
  | cons r rs ih =>
      have hline := length_line r
      rw [CdbText.text_cons, List.length_append, ← line, List.length_cons]
      omega

theorem line_le_text {rs : List Record} {r : Record} (hr : r ∈ rs) :
    (line r).length ≤ (text rs).length := by
  rw [text_eq]
  exact (List.sublist_flatten_of_mem (List.mem_map_of_mem hr)).length_le

theorem parse_text {rs : List Record} (h : (text rs).length < 2 ^ 32) :
    parse (text rs) = some (rs.map fun r => (r.key, some r.data)) :=
  parseLoop_text (fun _ hr => (line_le_text hr).trans_lt h) (Nat.lt_succ_of_le (length_le_text rs))

/-! ### What is printed -/

/-- A fold commutes with a function when each of its steps does. -/
theorem foldlM_map {α β γ : Type} {g : α → γ → Option α} {g' : β → γ → Option β} (f : α → β)
    (hg : ∀ a c, g' (f a) c = (g a c).map f) (l : List γ) (a : α) :
    l.foldlM g' (f a) = (l.foldlM g a).map f := by
  induction l generalizing a with
  | nil => rfl
  | cons c l ih =>
      rw [List.foldlM_cons, List.foldlM_cons, hg]
      cases g a c with
      | none => rfl
      | some b => exact ih b

section
variable {σ τ : Type} {add : Bytes → Bytes → σ → σ} {add' : Bytes → Bytes → τ → τ} {f : σ → τ}
  (hf : ∀ key data a, add' key data (f a) = f (add key data a))
include hf

theorem visitNode_map (n : Nat) (m : Mem) (a : σ) :
    visitNode add' n (m, f a) = (visitNode add n (m, a)).map id f := by
  unfold visitNode
  dsimp only
  split_ifs
  · exact Prod.ext rfl (hf _ _ _)
  · rfl
  · rfl

theorem visitTree_map (fuel n : Nat) (m : Mem) (a : σ) :
    visitTree add' fuel n (m, f a) = (visitTree add fuel n (m, a)).map (Prod.map id f) := by
  induction fuel generalizing n m a with
  | zero => rfl
  | succ fuel ih =>
      have hat : ∀ b m (a : σ), visitAt add' fuel b (m, f a) =
          (visitAt add fuel b (m, a)).map (Prod.map id f) := by
        intro b m a
        unfold visitAt
        dsimp only
        split_ifs
        · exact ih _ _ _
        · rfl
      rw [visitTree_succ, visitTree_succ, hat]
      cases visitAt add fuel (n + 16) (m, a) with
      | none => rfl
      | some s =>
          obtain ⟨m, a⟩ := s
          dsimp only [Option.map_some, Option.bind_some, Prod.map_apply, id_eq]
          rw [hat]
          cases visitAt add fuel (n + 20) (m, a) with
          | none => rfl
          | some s => exact congrArg some (visitNode_map hf n s.1 s.2)

theorem visitHashtab_map (fuel : Nat) (m : Mem) (a : σ) :
    visitHashtab add' fuel (m, f a) = (visitHashtab add fuel (m, a)).map (Prod.map id f) := by
  refine foldlM_map (Prod.map id f) ?_ (List.range cacheHashtabLen) (m, a)
  intro s i
  dsimp only [Prod.map_fst, id_eq]
  split_ifs
  · exact visitTree_map hf _ _ s.1 s.2
  · rfl

theorem call2_map (s : URDB) (a : σ) (entry : Nat × Nat) :
    call2 add' (s, f a) entry = (call2 add (s, a) entry).map (Prod.map id f) := by
  unfold call2
  dsimp only [Option.bind_eq_bind]
  cases htLookup { s with khash := entry.1, key := Datum.ofBytes (recordAt s.cdb.file entry.2).key }
    with
  | none => rfl
  | some r =>
      obtain ⟨found, s⟩ := r
      cases found with
      | true => rfl
      | false => exact congrArg some (Prod.ext rfl (hf _ _ _))

/-- What the entries are handed to can be exchanged for its image. -/
theorem call_map (s : URDB) (a : σ) : call add' s (f a) = (call add s a).map (Prod.map id f) := by
  unfold call
  rw [visitHashtab_map hf]
  cases visitHashtab add s.journal.stSize (s.mem, a) with
  | none => rfl
  | some r =>
      obtain ⟨m, a⟩ := r
      dsimp only [Option.bind_eq_bind, Option.map_some, Option.bind_some, Prod.map_apply, id_eq]
      split_ifs
      · exact foldlM_map (Prod.map id f) (fun r entry => call2_map hf r.1 r.2 entry) _
          (s.setMem m, a)
      · rfl

end

/-! ### What is appended -/

/-- What is appended comes behind the text, and with it the text has a length of 32 bits. -/
theorem append_data {x y : Buffer} {t : Bytes} (hx : x.room ≤ maxSize) (h : append x t = some y) :
    y.data = x.data ++ t ∧ y.room ≤ maxSize ∧ (t ≠ [] → y.data.length ≤ maxSize) := by
  rw [append] at h
  split_ifs at h with ht
  · cases h
    exact ⟨by rw [ht, List.append_nil], hx, fun hne => absurd ht hne⟩
  · -- the block with the text, which may be another one
    obtain ⟨z, hz, hput⟩ := Option.bind_eq_some_iff.mp h
    have hroom : z.data = x.data ∧ z.room ≤ maxSize := by
      split_ifs at hz with hgrow
      · rw [TextBuffer.copied] at hz
        split_ifs at hz
        cases hz
        exact ⟨rfl, (allocated_le _).2⟩
      · cases hz
        exact ⟨rfl, hx⟩
    split_ifs at hput with hfits
    cases hput
    refine ⟨by rw [hroom.1], hroom.2, fun _ => ?_⟩
    rw [List.length_append]
    exact hfits.2.trans hroom.2

theorem foldlM_append_data {x y : Buffer} {ts : List Bytes} (hx : x.room ≤ maxSize)
    (h : ts.foldlM append x = some y) :
    y.data = x.data ++ ts.flatten ∧ y.room ≤ maxSize ∧
      (ts.flatten ≠ [] → y.data.length ≤ maxSize) := by
  induction ts generalizing x with
  | nil =>
      cases h
      exact ⟨by rw [List.flatten_nil, List.append_nil], hx, fun hne => absurd rfl hne⟩
  | cons t ts ih =>
      rw [List.foldlM_cons] at h
      obtain ⟨z, hz, hrest⟩ := Option.bind_eq_some_iff.mp h
      obtain ⟨hdata, hroom, hlength⟩ := append_data hx hz
      obtain ⟨hdata', hroom', hlength'⟩ := ih hroom hrest
      refine ⟨by rw [hdata', hdata, List.flatten_cons, List.append_assoc], hroom', fun hne => ?_⟩
      by_cases hflatten : ts.flatten = []
      · rw [List.flatten_cons, hflatten, List.append_nil] at hne
        rw [hdata', hflatten, List.append_nil]
        exact hlength hne
      · exact hlength' hflatten

theorem printEntry_eq (key data : Bytes) (x : Buffer) :
    printEntry key data x = (pieces ⟨key, data⟩).foldlM append x := by
  rw [printEntry, pieces]
  simp only [List.foldlM_cons, List.foldlM_nil, bind_pure]

/-- A line that was appended is read as its entry. -/
theorem parseLine_of_printEntry {key data : Bytes} {x y : Buffer} (hx : x.room ≤ maxSize)
    (h : printEntry key data x = some y) :
    y.data = x.data ++ line ⟨key, data⟩ ∧
      ∀ rest, parseLine (line ⟨key, data⟩ ++ rest) = ((key, some data), rest) := by
  rw [printEntry_eq] at h
  obtain ⟨hdata, -, hlength⟩ := foldlM_append_data hx h
  refine ⟨hdata, parseLine_line ?_⟩
  have hne : (pieces ⟨key, data⟩).flatten ≠ [] := List.cons_ne_nil _ _
  have hle := hlength hne
  rw [hdata, List.length_append, ← line, maxSize] at hle
  omega

/-- What is printed is the text of the entries that are printed. -/
theorem print_eq_text {s s' : URDB} {t : Bytes} (h : print s = some (t, s')) :
    ∃ rs, printed s = some rs ∧ t = text rs ∧ t.length < 2 ^ 32 := by
  rw [print] at h
  dsimp only at h
  rw [printed]
  split_ifs at h ⊢ with hsize
  · obtain ⟨⟨z, pbuffer⟩, hcall, hresult⟩ := Option.bind_eq_some_iff.mp h
    obtain ⟨x, rfl, hx⟩ := Option.map_eq_some_iff.mp hresult
    obtain ⟨rfl, -⟩ := Prod.mk.inj hx
    -- the buffer is what the entries make of it when their pieces are appended
    let f (rs : List Record) : Option Buffer :=
      (rs.flatMap pieces).foldlM append (created ((s.cdb.stSize + s.off) % 2 ^ 32))
    have hf : ∀ key data rs, (f rs).bind (printEntry key data) = f (rs ++ [⟨key, data⟩]) := by
      intro key data rs
      dsimp only [f]
      rw [List.flatMap_append, List.foldlM_append, List.flatMap_singleton]
      exact congrArg _ (funext fun x => printEntry_eq key data x)
    have hmap := @call_map _ _ (fun key data rs => rs ++ [⟨key, data⟩])
      (fun key data pbuffer => pbuffer.bind (printEntry key data)) f hf s.lock []
    change call _ s.lock (f []) = _ at hcall
    rw [hmap] at hcall
    obtain ⟨⟨u, rs⟩, hrs, hpair⟩ := Option.map_eq_some_iff.mp hcall
    have hfold : f rs = some x := (Prod.mk.inj hpair).2
    obtain ⟨hdata, -, hlength⟩ := foldlM_append_data (allocated_le _).2 hfold
    refine ⟨rs, by rw [hrs]; rfl, hdata, ?_⟩
    by_cases hne : (rs.flatMap pieces).flatten = []
    · rw [hdata, hne]
      exact Nat.two_pow_pos 32
    · exact (hlength hne).trans_lt (by decide)
  · obtain ⟨rfl, -⟩ := Prod.mk.inj (Option.some.inj h)
    exact ⟨[], rfl, rfl, by decide⟩

end ULib.RdbText
