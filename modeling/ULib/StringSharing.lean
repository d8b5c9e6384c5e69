import ULib.StringHeap

/-!
What one handle does to a representation that another one has as well: the
calls that copy it first leave every other text as it was, and what they give
is the text that they define on byte sequences.
-/

namespace ULib.StringSharing

open ULib.KeyComparison
open ULib.ByteMemory
open ULib.EscapeCoding
open ULib.JsonValue
open ULib.StringHeap
open ULib.StringHeap.Heap

/-- The text that a call defines. -/
def Mutation.text (x : Bytes) : Mutation → Bytes
  | .replace pos n1 bytes => x.take pos ++ bytes ++ x.drop (pos + min n1 (x.length - pos))
  | .append bytes => x ++ bytes
  | .erase pos n => x.take pos ++ x.drop (pos + min n (x.length - pos))
  | .resize n c => x.take n ++ List.replicate (n - x.length) c
  | .unQuote => if x.length ≤ 2 then [] else (x.drop 1).take (x.length - 2)
  | .trim => ((x.dropWhile isSpace).reverse.dropWhile isSpace).reverse
  | .clear => []
  | .assign bytes => bytes
  | .reserve _ => x
  | .setBuffer _ => []
  | .duplicate => x

structure WellFormed (s : Heap) : Prop where
  null_lt : stringRepNull < s.next
  null_length : (s.rep stringRepNull).length = 0
  length_lt : ∀ r < s.next, (s.rep r).length < 2 ^ 32
  block_lt : ∀ r < s.next, (s.rep r).block < s.next

/-- `UString::max_size` -/
def maxSize : Nat := 2 ^ 32 - 1 - 24 - 1

/-- What the assertions of the calls ask for. -/
def Permitted (s : Heap) (r : Nat) : Mutation → Prop
  | .replace pos _ bytes => pos ≤ (s.rep r).length ∧ bytes.length < uNotFound
  | .append bytes => bytes.length < 2 ^ 32
  | .erase pos _ => pos ≤ (s.rep r).length
  | .resize n _ => n ≤ maxSize
  | .trim => (s.rep r).capacity = 0
  | .assign bytes => bytes ≠ [] ∧ bytes.length < 2 ^ 32
  | .reserve n => n ≤ maxSize
  | .setBuffer n => 1 ≤ n ∧ n ≤ maxSize
  | _ => True

/-- The new text and its NUL fit in the block that is made for a capacity. -/
def Fits (n capacity : Nat) : Prop := n < (allocated capacity).2

instance (n capacity : Nat) : Decidable (Fits n capacity) :=
  inferInstanceAs (Decidable (n < (allocated capacity).2))

/-- `__replace` can copy the text: its length is a `uint32_t` and that of what
stands behind an `int32_t`. -/
def ReplaceFits (s : Heap) (r pos n1 n2 : Nat) : Prop :=
  let rep := s.rep r
  let n := rep.length + n2 - s.fold r pos n1
  n = 0 ∨ n < 2 ^ 32 ∧ rep.length - pos - s.fold r pos n1 < 2 ^ 31 ∧
    Fits n (max (if rep.capacity = uNotFound then 0 else rep.capacity) n)

def AppendFits (s : Heap) (r n : Nat) : Prop :=
  n = 0 ∨ (s.rep r).length + n < 2 ^ 32 ∧
    Fits ((s.rep r).length + n) (howMuchPreallocate ((s.rep r).length + n))

/-- The calls that copy a shared text before they change it, where the copy
fits, and those that have nothing to change. -/
def Detaches (s : Heap) (r : Nat) : Mutation → Prop
  | .replace pos n1 bytes => ReplaceFits s r pos n1 bytes.length
  | .append bytes => AppendFits s r bytes.length
  | .erase pos n => ReplaceFits s r pos n 0
  | .resize n _ =>
      if (s.rep r).length < n then AppendFits s r (n - (s.rep r).length)
      else if n < (s.rep r).length then ReplaceFits s r n uNotFound 0
      else True
  | .unQuote => (s.rep r).length ≤ 2
  | .trim => Mutation.text (s.content r) .trim = s.content r
  | .reserve n =>
      n ≤ (s.rep r).capacity ∨ (s.rep r).length = 0 ∨
        Fits (s.rep r).length (howMuchPreallocate n)
  | .duplicate => Fits (s.rep r).length (s.rep r).length ∨ (s.rep r).length = 0
  | _ => True

/-! ### The copy -/

/-- A new representation, with what its block holds. -/
def fresh (s : Heap) (length capacity : Nat) (m : Mem) : Heap where
  rep := Function.update s.rep s.next ⟨length, (allocated capacity).1, 0, s.next, 0⟩
  size := Function.update s.size s.next (allocated capacity).2
  bytes := Function.update s.bytes s.next m
  next := s.next + 1

/-- A handle has changed over from `r` to a new representation. -/
def detached (s : Heap) (r length capacity : Nat) (m : Mem) : Heap :=
  { fresh s length capacity m with
    rep := Function.update (fresh s length capacity m).rep r
      { s.rep r with references := (s.rep r).references - 1 } }

theorem write_nil (m : Mem) (a : Nat) : write m a [] = m := by
  funext x
  exact if_neg fun h => (h.1.trans_lt h.2).false

section Copy

variable (s : Heap) (r length capacity : Nat) (m : Mem)

theorem create_none :
    s.create length capacity none = some (fresh s length capacity (s.bytes s.next), s.next) := by
  rw [create, fresh, Function.update_eq_self]

theorem poke_fresh (off : Nat) (bytes : Bytes) :
    (fresh s length capacity m).poke s.next off bytes =
      if off + bytes.length ≤ (allocated capacity).2 then
        some (fresh s length capacity (write m off bytes))
      else none := by
  simp only [poke, fresh, Function.update_self, Function.update_idem]

/-- No byte is written where there is none to be copied. -/
theorem poke_fresh_if (a off : Nat) (bytes : Bytes) (hbytes : a = 0 → bytes = []) (p : Prop)
    [Decidable p] :
    (if a ≠ 0 then
        if p then (fresh s length capacity m).poke s.next off bytes else none
      else some (fresh s length capacity m)) =
      if a ≠ 0 → p ∧ off + bytes.length ≤ (allocated capacity).2 then
        some (fresh s length capacity (write m off bytes))
      else none := by
  by_cases ha : a = 0
  · rw [if_neg (not_not.mpr ha), if_pos (absurd ha), hbytes ha, write_nil]
  · rw [if_pos ha, poke_fresh]
    by_cases hp : p
    · simp only [hp, if_true, ha, ne_eq, not_false_eq_true, forall_true_left, true_and]
    · simp only [hp, if_false, ha, ne_eq, not_false_eq_true, forall_true_left, false_and]

theorem poke_detached (off : Nat) (bytes : Bytes) :
    (detached s r length capacity m).poke s.next off bytes =
      if off + bytes.length ≤ (allocated capacity).2 then
        some (detached s r length capacity (write m off bytes))
      else none := by
  simp only [poke, detached, fresh, Function.update_self, Function.update_idem]

variable {s r length}

theorem create_some {bytes : Bytes} (hbytes : bytes.length = length) (hlength : length ≠ 0) :
    s.create length capacity (some bytes) =
      if Fits length capacity then
        some (fresh s length capacity (write (write (s.bytes s.next) 0 bytes) length [0]), s.next)
      else none := by
  have hfresh := create_none s length capacity
  rw [create, Option.some_inj, Prod.mk.injEq] at hfresh
  rw [create]
  show (if length ≠ 0 then _ else _) = _
  rw [if_pos hlength, hfresh.1, poke_fresh]
  rcases Nat.lt_or_ge (allocated capacity).2 length with hlt | hle
  · have hfits : ¬ Fits length capacity := hlt.le.not_gt
    rw [if_neg (by omega), if_neg hfits]
    rfl
  · rw [if_pos (by omega), Option.bind_eq_bind, Option.bind_some, poke_fresh,
      List.length_singleton]
    by_cases hfits : Fits length capacity
    · rw [if_pos hfits, if_pos (show length + 1 ≤ _ from hfits)]
      rfl
    · rw [if_neg hfits, if_neg (show ¬ length + 1 ≤ _ from hfits)]
      rfl

variable (hr : r < s.next)

include hr

theorem rep_detached : (detached s r length capacity m).rep s.next =
    ⟨length, (allocated capacity).1, 0, s.next, 0⟩ := by
  simp only [detached, fresh, Function.update_of_ne hr.ne', Function.update_self]

theorem setLength_detached (length' : Nat) :
    (detached s r length capacity m).setLength s.next length' =
      detached s r length' capacity m := by
  rw [setLength, rep_detached capacity m hr]
  simp only [detached, fresh]
  rw [Function.update_comm hr.ne, Function.update_idem]

theorem release_fresh (hshared : (s.rep r).references ≠ 0) :
    (fresh s length capacity m).release r = detached s r length capacity m := by
  have hrep : (fresh s length capacity m).rep r = s.rep r := Function.update_of_ne hr.ne _ _
  rw [release, hrep, if_pos hshared, detached]

omit hr in
theorem content_detached_of_lt (hs : WellFormed s) {i : Nat} (hi : i < s.next) :
    (detached s r length capacity m).content i = s.content i := by
  have hbytes : (detached s r length capacity m).bytes (s.rep i).block = s.bytes (s.rep i).block :=
    Function.update_of_ne (hs.block_lt i hi).ne _ _
  have hrep : (fresh s length capacity m).rep i = s.rep i := Function.update_of_ne hi.ne _ _
  rcases eq_or_ne i r with rfl | hne
  · have hi' : (detached s i length capacity m).rep i =
        { s.rep i with references := (s.rep i).references - 1 } := Function.update_self _ _ _
    rw [content, hi', hbytes, content]
  · have hi' : (detached s r length capacity m).rep i = s.rep i :=
      (Function.update_of_ne hne _ _).trans hrep
    rw [content, hi', hbytes, content]

theorem content_detached : (detached s r length capacity m).content s.next = read m 0 length := by
  rw [content, rep_detached capacity m hr]
  simp only [detached, fresh, Function.update_self]

end Copy

/-! ### The calls -/

/-- A call leaves every text that there was, and gives this one to its handle. -/
def Copies (s : Heap) (x : Bytes) (result : Option (Heap × Nat)) : Prop :=
  ∃ t r', result = some (t, r') ∧ (∀ i < s.next, t.content i = s.content i) ∧ t.content r' = x

theorem Copies.unique {s t : Heap} {x : Bytes} {r' : Nat} {result : Option (Heap × Nat)}
    (h : Copies s x result) (hresult : result = some (t, r')) :
    (∀ i < s.next, t.content i = s.content i) ∧ t.content r' = x := by
  obtain ⟨t', r'', h', hrest⟩ := h
  obtain ⟨rfl, rfl⟩ := Prod.mk.inj (Option.some.inj (h'.symm.trans hresult))
  exact hrest

theorem length_content (s : Heap) (r : Nat) : (s.content r).length = (s.rep r).length :=
  length_read _ _ _

theorem allocated_lt (capacity : Nat) : (allocated capacity).2 < 2 ^ 32 := by
  rw [allocated]
  split
  · dsimp only
    split_ifs <;> decide
  · dsimp only
    omega

/-- All that is written is in the block where the lengths did not wrap. -/
theorem room_iff {pos l k n room : Nat} (hn : pos + l + k = n) (hpos : pos < 2 ^ 32)
    (hroom : room < 2 ^ 32) :
    ((pos ≠ 0 → pos ≤ room) ∧ (k ≠ 0 → k < 2 ^ 31 ∧ pos + l + k ≤ room) ∧ n % 2 ^ 32 < room) ∧
        (l ≠ 0 → pos + l ≤ room) ↔
      n < 2 ^ 32 ∧ k < 2 ^ 31 ∧ n % 2 ^ 32 < room := by
  omega

/-- The text of the copy with the new bytes in place. -/
theorem read_replaced (m : Mem) (x y z : Bytes) (c : UInt8) :
    read (write (write (write (write m 0 x) (x.length + y.length) z)
      (x.length + y.length + z.length) [c]) x.length y) 0 (x.length + y.length + z.length) =
        x ++ y ++ z := by
  rw [read_append, read_append, Nat.zero_add, Nat.zero_add]
  congr 1
  · congr 1
    · rw [read_write_apart _ _ (.inr (by omega)), read_write_apart _ _ (.inr (by omega)),
        read_write_apart _ _ (.inr (by omega)), read_write_same]
    · rw [read_write_same]
  · rw [read_write_apart _ _ (.inl (by omega)), read_write_apart _ _ (.inr (by omega)),
      read_write_same]

theorem poke_rep {s t : Heap} {b off : Nat} {bytes : Bytes} (h : s.poke b off bytes = some t) :
    t.rep = s.rep := by
  rw [poke] at h
  split at h
  · rw [← Option.some.inj h]
  · exact nomatch h

theorem read_drop_take (m : Mem) (a : Nat) {i n k : Nat} (h : i + n ≤ k) :
    ((read m a k).drop i).take n = read m (a + i) n := by
  obtain ⟨j, rfl⟩ := Nat.exists_eq_add_of_le h
  rw [Nat.add_assoc, read_append, read_append, List.drop_left' (length_read _ _ _),
    List.take_left' (length_read _ _ _)]

/-- What `trim` leaves of the text. -/
theorem content_trim (s : Heap) (r : Nat) :
    (s.trim r).1.content r = Mutation.text (s.content r) .trim := by
  have hlength := length_content s r
  generalize hx : s.content r = x at hlength
  have hsplit : (x.takeWhile isSpace).length + (x.dropWhile isSpace).length = x.length := by
    rw [← List.length_append, List.takeWhile_append_dropWhile]
  have hdrop : x.drop (x.takeWhile isSpace).length = x.dropWhile isSpace := by
    have h := @List.drop_left _ (x.takeWhile isSpace) (x.dropWhile isSpace)
    rwa [List.takeWhile_append_dropWhile] at h
  have hback : ((x.dropWhile isSpace).reverse.dropWhile isSpace).reverse <+:
      x.dropWhile isSpace := by
    rw [← List.reverse_suffix, List.reverse_reverse]
    exact List.dropWhile_suffix _
  have hlen : ((x.dropWhile isSpace).reverse.dropWhile isSpace).length ≤
      (x.dropWhile isSpace).length := by
    rw [← List.length_reverse]
    exact hback.length_le
  have htext := List.prefix_iff_eq_take.mp hback
  rw [List.length_reverse] at htext
  have hread := read_drop_take (s.bytes (s.rep r).block) (s.rep r).str
    (show (x.takeWhile isSpace).length + ((x.dropWhile isSpace).reverse.dropWhile isSpace).length ≤
      (s.rep r).length by omega)
  rw [← content, hx, hdrop] at hread
  rw [Mutation.text, htext, hread, content]
  simp only [trim, Function.update_self, hx, hdrop]

section Shared

variable {s : Heap} {r : Nat} (hs : WellFormed s) (hr : r < s.next)
  (hshared : (s.rep r).references ≠ 0)

omit hs hr hshared in
theorem content_hold (r i : Nat) : (s.hold r).content i = s.content i := by
  rcases eq_or_ne i r with rfl | hne
  · simp only [content, hold, Function.update_self]
  · simp only [content, hold, Function.update_of_ne hne]

include hshared

omit hs hr in
theorem content_release (i : Nat) : (s.release r).content i = s.content i := by
  rw [release, if_pos hshared]
  rcases eq_or_ne i r with rfl | hne
  · simp only [content, Function.update_self]
  · simp only [content, Function.update_of_ne hne]

include hs

omit hr in
theorem clear_copies : Copies s [] (some (s.clear r)) := by
  have hheld : ((s.hold stringRepNull).rep r).references ≠ 0 := by
    rcases eq_or_ne r stringRepNull with rfl | hne
    · simp only [hold, Function.update_self]
      exact Nat.succ_ne_zero _
    · simpa only [hold, Function.update_of_ne hne] using hshared
  have hcontent : ∀ i, (s.clear r).1.content i = s.content i := fun i =>
    (content_release hheld i).trans (content_hold _ i)
  refine ⟨_, _, rfl, fun i _ => hcontent i, (hcontent _).trans ?_⟩
  exact List.eq_nil_of_length_eq_zero ((length_content s _).trans hs.null_length)

include hr

/-- The capacity that `__replace` asks for. -/
def asked (s : Heap) (r n : Nat) : Nat :=
  max (if (s.rep r).capacity = uNotFound then 0 else (s.rep r).capacity) n

omit hs in
/-- The copy of a text with room for `n2` bytes at `pos`. -/
theorem replaceRep_shared {pos n1 n2 n k : Nat} (hpos : pos ≤ (s.rep r).length)
    (hn : ((s.rep r).length + n2 - s.fold r pos n1) % 2 ^ 32 = n) (hne : n ≠ 0)
    (hk : (s.rep r).length - pos - s.fold r pos n1 = k) :
    s.replaceRep r pos n1 n2 =
      if (pos ≠ 0 → pos ≤ (allocated (asked s r n)).2) ∧
          (k ≠ 0 → k < 2 ^ 31 ∧ pos + n2 + k ≤ (allocated (asked s r n)).2) ∧
          Fits n (asked s r n) then
        some (detached s r n (asked s r n)
          (write (write (write (s.bytes s.next) 0 ((s.content r).take pos)) (pos + n2)
            ((s.content r).drop (pos + s.fold r pos n1))) n [0]), s.next, some pos)
      else none := by
  have hlength := length_content s r
  have htake : ((s.content r).take pos).length = pos := by
    rw [List.length_take, hlength, Nat.min_eq_left hpos]
  have hdrop : ((s.content r).drop (pos + s.fold r pos n1)).length = k := by
    rw [List.length_drop, hlength, ← Nat.sub_sub, hk]
  rw [replaceRep]
  dsimp only
  rw [hn, if_neg hne, if_pos (Or.inl hshared), hk, ← asked, create_none, Option.bind_eq_bind,
    Option.bind_some]
  have hfront := poke_fresh_if s n (asked s r n) (s.bytes s.next) pos 0
    ((s.content r).take pos) (by rintro rfl; rfl) True
  simp only [if_true, true_and, htake, Nat.zero_add] at hfront
  have hback := poke_fresh_if s n (asked s r n) (write (s.bytes s.next) 0 ((s.content r).take pos))
    k (pos + n2) ((s.content r).drop (pos + s.fold r pos n1))
    (fun h => List.eq_nil_of_length_eq_zero (hdrop.trans h)) (k < 2 ^ 31)
  rw [hdrop] at hback
  dsimp only
  rw [hfront]
  by_cases h1 : pos ≠ 0 → pos ≤ (allocated (asked s r n)).2
  · rw [if_pos h1, Option.bind_eq_bind, Option.bind_some, hback]
    by_cases h2 : k ≠ 0 → k < 2 ^ 31 ∧ pos + n2 + k ≤ (allocated (asked s r n)).2
    · rw [if_pos h2, Option.bind_some, release_fresh _ _ hr hshared, poke_detached,
        List.length_singleton]
      by_cases h3 : Fits n (asked s r n)
      · rw [if_pos (show n + 1 ≤ _ from h3), if_pos ⟨h1, h2, h3⟩]
        rfl
      · rw [if_neg (show ¬ n + 1 ≤ _ from h3), if_neg fun h => h3 h.2.2]
        rfl
    · rw [if_neg h2, if_neg fun h => h2 h.2.1]
      rfl
  · rw [if_neg h1, if_neg fun h => h1 h.1]
    rfl

omit hs in
/-- The texts that `replace` puts together. -/
theorem replace_shared {pos n1 n k : Nat} {bytes : Bytes} (hpos : pos ≤ (s.rep r).length)
    (hn : ((s.rep r).length + bytes.length - s.fold r pos n1) % 2 ^ 32 = n) (hne : n ≠ 0)
    (hk : (s.rep r).length - pos - s.fold r pos n1 = k) :
    s.replace r pos n1 bytes =
      if ((pos ≠ 0 → pos ≤ (allocated (asked s r n)).2) ∧
          (k ≠ 0 → k < 2 ^ 31 ∧ pos + bytes.length + k ≤ (allocated (asked s r n)).2) ∧
          Fits n (asked s r n)) ∧ (bytes ≠ [] → pos + bytes.length ≤ (allocated (asked s r n)).2) then
        some (detached s r n (asked s r n)
          (write (write (write (write (s.bytes s.next) 0 ((s.content r).take pos))
            (pos + bytes.length) ((s.content r).drop (pos + s.fold r pos n1))) n [0]) pos bytes),
          s.next)
      else none := by
  rw [replace, replaceRep_shared hr hshared hpos hn hne hk]
  by_cases hcopy : (pos ≠ 0 → pos ≤ (allocated (asked s r n)).2) ∧
      (k ≠ 0 → k < 2 ^ 31 ∧ pos + bytes.length + k ≤ (allocated (asked s r n)).2) ∧
      Fits n (asked s r n)
  · rw [if_pos hcopy, Option.bind_eq_bind, Option.bind_some]
    dsimp only
    rw [rep_detached _ _ hr, Nat.zero_add, poke_detached]
    rcases eq_or_ne bytes [] with rfl | hbytes
    · rw [if_neg (not_not.mpr rfl), if_pos ⟨hcopy, absurd rfl⟩, write_nil]
      rfl
    · rw [if_pos hbytes]
      by_cases hroom : pos + bytes.length ≤ (allocated (asked s r n)).2
      · rw [if_pos hroom, if_pos ⟨hcopy, fun _ => hroom⟩]
        rfl
      · rw [if_neg hroom, if_neg fun h => hroom (h.2 hbytes)]
        rfl
  · rw [if_neg hcopy, if_neg fun h => hcopy h.1]
    rfl

theorem replace_iff {pos n1 : Nat} {bytes : Bytes} (hpos : pos ≤ (s.rep r).length) :
    Copies s (Mutation.text (s.content r) (.replace pos n1 bytes)) (s.replace r pos n1 bytes) ↔
      ReplaceFits s r pos n1 bytes.length := by
  have hlength := length_content s r
  have hlt := hs.length_lt r hr
  have htake : ((s.content r).take pos).length = pos := by
    rw [List.length_take, hlength, Nat.min_eq_left hpos]
  have hdrop : ((s.content r).drop (pos + s.fold r pos n1)).length =
      (s.rep r).length - pos - s.fold r pos n1 := by
    rw [List.length_drop, hlength, ← Nat.sub_sub]
  have hfold : s.fold r pos n1 ≤ (s.rep r).length - pos := Nat.min_le_right _ _
  have htext : Mutation.text (s.content r) (.replace pos n1 bytes) =
      (s.content r).take pos ++ bytes ++ (s.content r).drop (pos + s.fold r pos n1) := by
    rw [Mutation.text, hlength, fold]
  have htotal : (Mutation.text (s.content r) (.replace pos n1 bytes)).length =
      (s.rep r).length + bytes.length - s.fold r pos n1 := by
    rw [htext, List.length_append, List.length_append, htake, hdrop]
    omega
  generalize hN : (s.rep r).length + bytes.length - s.fold r pos n1 = N at htotal
  generalize hk : (s.rep r).length - pos - s.fold r pos n1 = k at hdrop
  have hsum : pos + bytes.length + k = N := by omega
  rw [ReplaceFits, hN, hk, ← asked]
  rcases eq_or_ne (N % 2 ^ 32) 0 with hzero | hne
  · have hreplace : s.replace r pos n1 bytes = some (s.clear r) := by
      rw [replace, replaceRep, hN]
      dsimp only
      rw [if_pos hzero]
      rfl
    have hclear := clear_copies hs hshared
    rw [hreplace]
    constructor
    · intro h
      have hnil := (hclear.unique rfl).2.symm.trans (h.unique rfl).2
      rw [← hnil] at htotal
      exact .inl htotal.symm
    · intro h
      have hN0 : N = 0 := by omega
      rwa [List.eq_nil_of_length_eq_zero (htotal.trans hN0)]
  · have hroom := room_iff hsum (hpos.trans_lt hlt) (allocated_lt (asked s r (N % 2 ^ 32)))
    have hreplace := replace_shared hr hshared hpos (congrArg (· % 2 ^ 32) hN) hne hk
    simp only [ne_eq, ← List.length_eq_zero_iff, Fits] at hreplace hroom
    by_cases hfits : N < 2 ^ 32 ∧ k < 2 ^ 31 ∧ N % 2 ^ 32 < (allocated (asked s r (N % 2 ^ 32))).2
    · rw [hreplace, if_pos (hroom.mpr hfits), Nat.mod_eq_of_lt hfits.1]
      rw [Nat.mod_eq_of_lt hfits.1] at hfits
      refine iff_of_true ⟨_, _, rfl, fun i hi => content_detached_of_lt _ _ hs hi, ?_⟩ (.inr hfits)
      have hread := read_replaced (s.bytes s.next) ((s.content r).take pos) bytes
        ((s.content r).drop (pos + s.fold r pos n1)) 0
      rw [htake, hdrop, hsum] at hread
      rw [content_detached _ _ hr, htext, hread]
    · rw [hreplace, if_neg (mt hroom.mp hfits)]
      refine iff_of_false (fun ⟨_, _, h, _⟩ => nomatch h) ?_
      rintro (rfl | h)
      · exact hne rfl
      · rw [Nat.mod_eq_of_lt h.1] at hfits
        exact hfits h

omit hs hr hshared in
/-- The copy that `create` makes of a text. -/
theorem create_copy {capacity : Nat} (hfits : (s.rep r).length = 0 ∨
    Fits (s.rep r).length capacity) :
    ∃ m, read m 0 (s.rep r).length = s.content r ∧
      s.create (s.rep r).length capacity (some (s.content r)) =
        some (fresh s (s.rep r).length capacity m, s.next) := by
  have hlength := length_content s r
  rcases eq_or_ne (s.rep r).length 0 with hzero | hne
  · refine ⟨s.bytes s.next, ?_, ?_⟩
    · rw [hzero, List.eq_nil_of_length_eq_zero (hlength.trans hzero)]
      rfl
    · rw [← create_none, create, create]
      exact if_neg (not_not.mpr hzero)
  · refine ⟨_, ?_, (create_some capacity hlength hne).trans (if_pos (hfits.resolve_left hne))⟩
    have hread := read_write_same (s.bytes s.next) 0 (s.content r)
    rw [hlength] at hread
    rw [read_write_apart _ _ (.inr (by omega)), hread]

omit hs hr hshared in
theorem create_copy_none {capacity : Nat}
    (hfits : ¬ ((s.rep r).length = 0 ∨ Fits (s.rep r).length capacity)) :
    s.create (s.rep r).length capacity (some (s.content r)) = none := by
  obtain ⟨hne, hfits⟩ := not_or.mp hfits
  rw [create_some capacity (length_content s r) hne, if_neg hfits]

omit hs in
/-- `append` behind the copy of the text. -/
theorem append_copied {bytes : Bytes} (hbytes : bytes ≠ []) {n capacity : Nat} {m : Mem}
    (hn : ((s.rep r).length + bytes.length) % 2 ^ 32 = n)
    (hcapacity : howMuchPreallocate n = capacity)
    (hcreate : s.create (s.rep r).length capacity (some (s.content r)) =
      some (fresh s (s.rep r).length capacity m, s.next)) :
    s.append r bytes =
      if n + 1 ≤ (allocated capacity).2 ∧
          (s.rep r).length + bytes.length ≤ (allocated capacity).2 then
        some (detached s r n capacity (write (write m n [0]) (s.rep r).length bytes), s.next)
      else none := by
  rw [Heap.append, if_neg hbytes, appendRep]
  dsimp only
  rw [if_pos (Or.inl hshared), hn, hcapacity, hcreate, Option.bind_eq_bind, Option.bind_some]
  dsimp only
  rw [Option.bind_some]
  dsimp only
  rw [release_fresh _ _ hr hshared, setLength_detached _ _ hr, rep_detached _ _ hr, Nat.zero_add,
    poke_detached, List.length_singleton]
  by_cases h1 : n + 1 ≤ (allocated capacity).2
  · rw [if_pos h1]
    simp only [Option.bind_eq_bind, Option.bind_some]
    rw [rep_detached _ _ hr, Nat.zero_add, poke_detached]
    by_cases h2 : (s.rep r).length + bytes.length ≤ (allocated capacity).2
    · rw [if_pos h2, if_pos ⟨h1, h2⟩]
      rfl
    · rw [if_neg h2, if_neg fun h => h2 h.2]
      rfl
  · rw [if_neg h1, if_neg fun h => h1 h.1]
    rfl

theorem append_iff (bytes : Bytes) :
    Copies s (s.content r ++ bytes) (s.append r bytes) ↔ AppendFits s r bytes.length := by
  have hlength := length_content s r
  rcases eq_or_ne bytes [] with rfl | hbytes
  · rw [Heap.append, if_pos rfl, List.append_nil]
    exact iff_of_true ⟨s, r, rfl, fun _ _ => rfl, rfl⟩ (.inl rfl)
  · have hpos : bytes.length ≠ 0 := mt List.eq_nil_of_length_eq_zero hbytes
    generalize hn : ((s.rep r).length + bytes.length) % 2 ^ 32 = n
    have hroom := allocated_lt (howMuchPreallocate n)
    have hfits : AppendFits s r bytes.length ↔
        n + 1 ≤ (allocated (howMuchPreallocate n)).2 ∧
          (s.rep r).length + bytes.length ≤ (allocated (howMuchPreallocate n)).2 := by
      constructor
      · intro h
        obtain ⟨hlt, hroom⟩ := h.resolve_left hpos
        rw [Nat.mod_eq_of_lt hlt] at hn
        rw [hn] at hroom ⊢
        exact ⟨hroom, le_of_lt hroom⟩
      · rintro ⟨h1, h2⟩
        have hlt : (s.rep r).length + bytes.length < 2 ^ 32 := h2.trans_lt hroom
        rw [Nat.mod_eq_of_lt hlt] at hn
        exact .inr ⟨hlt, hn.symm ▸ h1⟩
    by_cases hcopy : (s.rep r).length = 0 ∨ Fits (s.rep r).length (howMuchPreallocate n)
    · obtain ⟨m, hread, hcreate⟩ := create_copy hcopy
      rw [append_copied hr hshared hbytes hn rfl hcreate, hfits]
      split
      · rename_i hcond
        refine iff_of_true ⟨_, _, rfl, fun i hi => content_detached_of_lt _ _ hs hi, ?_⟩ hcond
        rw [Nat.mod_eq_of_lt (hcond.2.trans_lt hroom)] at hn
        rw [content_detached _ _ hr, ← hn, read_append, Nat.zero_add, read_write_same,
          read_write_apart _ _ (.inr (by omega)), read_write_apart _ _ (.inr (by omega)), hread]
      · rename_i hcond
        exact iff_of_false (fun ⟨_, _, h, _⟩ => nomatch h) hcond
    · have hnone : s.append r bytes = none := by
        rw [Heap.append, if_neg hbytes, appendRep]
        dsimp only
        rw [if_pos (Or.inl hshared), hn, create_copy_none hcopy]
        rfl
      rw [hnone, hfits]
      refine iff_of_false (fun ⟨_, _, h, _⟩ => nomatch h) fun h => hcopy (.inr ?_)
      rw [Fits]
      omega

theorem erase_iff {pos n : Nat} (hpos : pos ≤ (s.rep r).length) :
    Copies s (Mutation.text (s.content r) (.erase pos n)) (s.erase r pos n) ↔
      ReplaceFits s r pos n 0 := by
  have hfold : s.fold r pos (s.fold r pos n) = s.fold r pos n := by
    rw [fold, fold, Nat.min_assoc, Nat.min_self]
  have htext : Mutation.text (s.content r) (.erase pos n) =
      Mutation.text (s.content r) (.replace pos (s.fold r pos n) []) := by
    rw [Mutation.text, Mutation.text, List.append_nil, length_content, ← fold, ← fold, hfold]
  have hfits : ReplaceFits s r pos n 0 ↔ ReplaceFits s r pos (s.fold r pos n) 0 := by
    rw [ReplaceFits, ReplaceFits, hfold]
  rw [htext, erase, hfits]
  exact replace_iff hs hr hshared hpos

theorem resize_iff (n : Nat) (c : UInt8) :
    Copies s (Mutation.text (s.content r) (.resize n c)) (s.resize r n c) ↔
      Detaches s r (.resize n c) := by
  have hlength := length_content s r
  rw [resize, Detaches, Mutation.text, hlength]
  split
  · rename_i hlt
    have happend := append_iff hs hr hshared (List.replicate (n - (s.rep r).length) c)
    rw [List.length_replicate] at happend
    rwa [List.take_of_length_le (hlength.trans_le hlt.le)]
  · rename_i hge
    have hreplicate : List.replicate (n - (s.rep r).length) c = [] := by
      rw [Nat.sub_eq_zero_of_le (Nat.le_of_not_lt hge)]
      rfl
    rw [hreplicate, List.append_nil]
    split
    · rename_i hlt
      have herase := erase_iff hs hr hshared (n := uNotFound) hlt.le
      have hall : n + min uNotFound ((s.rep r).length - n) = (s.rep r).length := by
        have := hs.length_lt r hr
        rw [uNotFound]
        omega
      rwa [Mutation.text, hlength, hall, List.drop_of_length_le hlength.le,
        List.append_nil] at herase
    · rename_i hle
      have heq : (s.rep r).length = n := by omega
      have hsame : s.setLength r n = s := by
        rw [setLength, ← heq, Function.update_eq_self]
      rw [hsame, List.take_of_length_le (hlength.trans heq).le]
      exact iff_of_true ⟨s, r, rfl, fun _ _ => rfl, rfl⟩ trivial

/-- A shared text loses its quotes for every handle. -/
theorem unQuote_iff : Copies s (Mutation.text (s.content r) .unQuote) (s.unQuote r) ↔
    (s.rep r).length ≤ 2 := by
  have hlength := length_content s r
  rw [Mutation.text, unQuote, hlength]
  dsimp only
  split
  · rename_i hle
    exact iff_of_true (clear_copies hs hshared) hle
  · rename_i hlong
    refine iff_of_false ?_ hlong
    rintro ⟨t, r', hsome, hsame, -⟩
    have hrep : (t.rep r).length = (s.rep r).length - 2 := by
      split at hsome
      · obtain ⟨rfl, -⟩ := Prod.mk.inj (Option.some.inj hsome)
        simp only [Function.update_self]
      · obtain ⟨t₁, h₁, hsome⟩ := Option.bind_eq_some_iff.mp hsome
        obtain ⟨t₂, h₂, hsome⟩ := Option.bind_eq_some_iff.mp hsome
        obtain ⟨rfl, -⟩ := Prod.mk.inj (Option.some.inj hsome)
        rw [poke_rep h₂, setLength]
        simp only [Function.update_self]
    have hcontent := length_content t r
    rw [hsame r hr, hlength, hrep] at hcontent
    omega

theorem reserve_iff (n : Nat) : Copies s (s.content r) (s.reserve r n) ↔
    Detaches s r (.reserve n) := by
  rw [Heap.reserve, Detaches]
  dsimp only
  by_cases hroom : n ≤ (s.rep r).capacity
  · rw [if_pos hroom]
    exact iff_of_true ⟨s, r, rfl, fun _ _ => rfl, rfl⟩ (.inl hroom)
  · rw [if_neg hroom, or_iff_right hroom]
    by_cases hfits : (s.rep r).length = 0 ∨ Fits (s.rep r).length (howMuchPreallocate n)
    · obtain ⟨m, hread, hcreate⟩ := create_copy hfits
      rw [hcreate, Option.bind_eq_bind, Option.bind_some]
      dsimp only
      rw [release_fresh _ _ hr hshared]
      exact iff_of_true ⟨_, _, rfl, fun i hi => content_detached_of_lt _ _ hs hi,
        (content_detached _ _ hr).trans hread⟩ hfits
    · rw [create_copy_none hfits]
      exact iff_of_false (fun ⟨_, _, h, _⟩ => nomatch h) hfits

theorem setBuffer_copies (n : Nat) : Copies s [] (s.setBuffer r n) := by
  rw [setBuffer]
  dsimp only
  rw [if_neg fun h => hshared h.1, create_none, Option.bind_eq_bind, Option.bind_some]
  dsimp only
  rw [release_fresh _ _ hr hshared]
  exact ⟨_, _, rfl, fun i hi => content_detached_of_lt _ _ hs hi, content_detached _ _ hr⟩

theorem duplicate_iff : Copies s (s.content r) (s.duplicate r) ↔ Detaches s r .duplicate := by
  rw [duplicate, Detaches]
  dsimp only
  rcases eq_or_ne (s.rep r).length 0 with hzero | hne
  · have hnil := List.eq_nil_of_length_eq_zero ((length_content s r).trans hzero)
    rw [if_neg (not_not.mpr hzero), create_none, Option.bind_eq_bind, Option.bind_some]
    dsimp only
    rw [release_fresh _ _ hr hshared, poke_detached, if_pos (by decide), hnil]
    exact iff_of_true ⟨_, _, rfl, fun i hi => content_detached_of_lt _ _ hs hi,
      content_detached _ _ hr⟩ (.inr hzero)
  · rw [if_pos hne, or_comm]
    by_cases hfits : (s.rep r).length = 0 ∨ Fits (s.rep r).length (s.rep r).length
    · obtain ⟨m, hread, hcreate⟩ := create_copy hfits
      rw [hcreate, Option.bind_eq_bind, Option.bind_some]
      dsimp only
      rw [release_fresh _ _ hr hshared]
      exact iff_of_true ⟨_, _, rfl, fun i hi => content_detached_of_lt _ _ hs hi,
        (content_detached _ _ hr).trans hread⟩ hfits
    · rw [create_copy_none hfits]
      exact iff_of_false (fun ⟨_, _, h, _⟩ => nomatch h) hfits

theorem assign_copies (bytes : Bytes) : Copies s bytes (s.assign r bytes) := by
  rw [Heap.assign]
  dsimp only
  rw [if_pos (Or.inl hshared), release, if_pos hshared]
  refine ⟨_, _, rfl, fun i hi => ?_, ?_⟩
  · have hblock := (hs.block_lt i hi).ne
    rcases eq_or_ne i r with rfl | hne
    · simp only [content, Function.update_of_ne hi.ne, Function.update_self,
        Function.update_of_ne hblock]
    · simp only [content, Function.update_of_ne hi.ne, Function.update_of_ne hne,
        Function.update_of_ne hblock]
  · simp only [content, Function.update_self, read_write_same]

omit hs hshared in
theorem trim_iff : Copies s (Mutation.text (s.content r) .trim) (some (s.trim r)) ↔
    Mutation.text (s.content r) .trim = s.content r := by
  constructor
  · intro h
    exact (content_trim s r).symm.trans ((h.unique rfl).1 r hr)
  · intro h
    refine ⟨_, _, rfl, fun i _ => ?_, content_trim s r⟩
    rcases eq_or_ne i r with rfl | hne
    · exact (content_trim s i).trans h
    · simp only [content, Function.update_of_ne hne]

end Shared

/-- **What is done through one of two handles.** Every text that there was is
left as it is, and the handle has the text that the call defines, exactly where
the call copies what it shares. -/
theorem copies_iff_detaches {s : Heap} (hs : WellFormed s) {r : Nat} (hr : r < s.next)
    (hshared : (s.rep r).references ≠ 0) (i : Mutation) (hi : Permitted s r i) :
    Copies s (Mutation.text (s.content r) i) (s.apply r i) ↔ Detaches s r i := by
  cases i with
  | replace pos n1 bytes => exact replace_iff hs hr hshared hi.1
  | append bytes => exact append_iff hs hr hshared bytes
  | erase pos n => exact erase_iff hs hr hshared hi
  | resize n c => exact resize_iff hs hr hshared n c
  | unQuote => exact unQuote_iff hs hr hshared
  | trim => exact trim_iff hr
  | clear => exact iff_of_true (clear_copies hs hshared) trivial
  | assign bytes => exact iff_of_true (assign_copies hs hr hshared bytes) trivial
  | reserve n => exact reserve_iff hs hr hshared n
  | setBuffer n => exact iff_of_true (setBuffer_copies hs hr hshared n) trivial
  | duplicate => exact duplicate_iff hs hr hshared

/-- Two handles of a constant string in quotes. -/
def quoted : Heap where
  rep r := if r = 1 then ⟨4, 0, 1, 1, 0⟩ else ⟨0, 0, 0, 0, 0⟩
  size b := if b = 1 then 4 else 0
  bytes _ := write (fun _ => 0) 0 ['"'.toUInt8, 'a'.toUInt8, 'b'.toUInt8, '"'.toUInt8]
  next := 2

theorem wellFormed_quoted : WellFormed quoted where
  null_lt := by decide
  null_length := rfl
  length_lt := by decide
  block_lt := by decide

theorem copies_append_quoted :
    Copies quoted (Mutation.text (quoted.content 1) (.append ['c'.toUInt8]))
        (quoted.apply 1 (.append ['c'.toUInt8])) ↔ Detaches quoted 1 (.append ['c'.toUInt8]) :=
  copies_iff_detaches wellFormed_quoted (by decide) (by decide) (.append ['c'.toUInt8])
    (by decide : 1 < 2 ^ 32)

/-- The quotes are taken from the other handle too. -/
theorem unQuote_shared : WellFormed quoted ∧ (quoted.rep 1).references ≠ 0 ∧
    quoted.content 1 = ['"'.toUInt8, 'a'.toUInt8, 'b'.toUInt8, '"'.toUInt8] ∧
    ∃ t, quoted.apply 1 .unQuote = some (t, 1) ∧ t.content 1 = ['a'.toUInt8, 'b'.toUInt8] :=
  ⟨wellFormed_quoted, by decide, by decide, _, rfl, by decide⟩

end ULib.StringSharing
