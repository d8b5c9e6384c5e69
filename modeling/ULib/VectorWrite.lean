import Mathlib.Algebra.GroupWithZero.Nat
import ULib.KeyComparison

/-!
`USocketExt::writev` of `utility/socket_ext.cpp`: the buffers of a vector are
handed to the kernel, which may take a part of them at a time.
-/

namespace ULib.VectorWrite

open ULib.KeyComparison

/-! ### USocketExt::writev -/

/-- `iov_base` is the rest of the buffer from where it points, `iov_len` bytes of which are to be
written. -/
structure Iovec where
  iov_base : Bytes
  iov_len : Nat
  deriving DecidableEq, Repr

/-- What the kernel is offered. -/
def offered (iov : List Iovec) : Bytes := (iov.map fun e => e.iov_base.take e.iov_len).flatten

/-- What `USocket::writev` gives: no bytes where `checkIO` is false, else the number that the
kernel took; and what `waitForWrite` gives when not all is written. -/
inductive Round
  | failed
  | wrote (value : Nat) (res : Int)
  deriving DecidableEq, Repr

/-- Behind a short write: the entry at `idx`, when all of it is written, and the next one are cut.
`none` where there is no such entry, or where its `iov_len` goes below zero. -/
def advance (iov : List Iovec) (idx value : Nat) : Option (List Iovec × Nat) :=
  iov[idx]?.bind fun e =>
    let (iov, idx, value) :=
      if e.iov_len ≤ value then (iov.set idx { e with iov_len := 0 }, idx + 1, value - e.iov_len)
      else (iov, idx, value)
    iov[idx]?.bind fun e =>
      if e.iov_len < value then none
      else some (iov.set idx ⟨e.iov_base.drop value, e.iov_len - value⟩, idx)

/-- The loop, with what the kernel has taken. The count that is returned comes with it, or nothing
where the next round is still to come. -/
def writevLoop :
    List Round → List Iovec → Nat → UInt32 → Int32 → Bytes → Option (Bytes × Option Int32)
  | [], _, _, _, _, taken => some (taken, none)
  | .failed :: _, _, _, _, iBytesWrite, taken => some (taken, some iBytesWrite)
  | .wrote value res :: rounds, iov, idx, ncount, iBytesWrite, taken =>
      let taken := taken ++ (offered iov).take value
      let iBytesWrite := iBytesWrite + Int32.ofNat value
      let ncount := ncount - UInt32.ofNat value
      if ncount = 0 then some (taken, some iBytesWrite)
      else
        (advance iov idx value).bind fun (iov, idx) =>
          if res = 1 then writevLoop rounds iov idx ncount iBytesWrite taken
          else some (taken, some iBytesWrite)

def writev (rounds : List Round) (iov : List Iovec) (ncount : UInt32) :
    Option (Bytes × Option Int32) :=
  writevLoop rounds iov 0 ncount 0 []

/-! ### What is to be written -/

/-- The vector of some buffers. -/
def vector (buffers : List Bytes) : List Iovec := buffers.map fun t => ⟨t, t.length⟩

/-- What comes of writing `left`, with the number that is taken and returned: the bytes in their
order, until all are taken, the kernel fails or is not ready. -/
def written (left : Bytes) : List Round → Nat → Bytes × Option Nat
  | [], _ => ([], none)
  | .failed :: _, n => ([], some n)
  | .wrote value res :: rounds, n =>
      if value = left.length ∨ res ≠ 1 then (left.take value, some (n + value))
      else
        let (taken, count) := written (left.drop value) rounds (n + value)
        (left.take value ++ taken, count)

/-- The kernel takes a byte at least, and none but those that are left. -/
def Possible : Nat → List Round → Prop
  | left, .wrote value _ :: rounds => 0 < value ∧ value ≤ left ∧ Possible (left - value) rounds
  | left, .failed :: rounds => Possible left rounds
  | _, [] => True

/-- The buffers are written as they should be, and the count is that of the bytes taken. -/
def Writes (buffers : List Bytes) (rounds : List Round) (ncount : UInt32) : Prop :=
  ∃ taken count, writev rounds (vector buffers) ncount = some (taken, count) ∧
    (taken, count.map Int32.toInt) =
      ((written buffers.flatten rounds 0).1, (written buffers.flatten rounds 0).2.map Int.ofNat)

/-- What is left of the lengths from the entry on where a write ended. -/
def lengthsBehind : List Nat → Nat → List Nat
  | l :: m :: ls, value => if value < l then (l - value) :: m :: ls else (m - (value - l)) :: ls
  | ls, value => ls.map (· - value)

/-- No short write goes further than the entry behind the one where the last write ended. -/
def EndsClose : List Nat → List Round → Prop
  | lens, .wrote value res :: rounds =>
      value = lens.sum ∨
        value ≤ (lens.take 2).sum ∧ (res = 1 → EndsClose (lengthsBehind lens value) rounds)
  | _, .failed :: _ => True
  | _, [] => True

instance decidablePossible : (left : Nat) → (rounds : List Round) → Decidable (Possible left rounds)
  | _, [] => isTrue trivial
  | left, .failed :: rounds => decidablePossible left rounds
  | left, .wrote value _ :: rounds =>
      have := decidablePossible (left - value) rounds
      inferInstanceAs (Decidable (0 < value ∧ value ≤ left ∧ Possible (left - value) rounds))

instance decidableEndsClose : (lens : List Nat) → (rounds : List Round) →
    Decidable (EndsClose lens rounds)
  | _, [] => isTrue trivial
  | _, .failed :: _ => isTrue trivial
  | lens, .wrote value res :: rounds =>
      have := decidableEndsClose (lengthsBehind lens value) rounds
      inferInstanceAs (Decidable (value = lens.sum ∨ value ≤ (lens.take 2).sum ∧
        (res = 1 → EndsClose (lengthsBehind lens value) rounds)))

/-! ### One write -/

/-- The entries in front of `idx` are written, `lens` are the lengths from there on, and `left` is
what is to be written. -/
structure Stands (iov : List Iovec) (idx : Nat) (lens : List Nat) (left : Bytes) : Prop where
  splits : ∃ past rest, iov = past ++ rest ∧ idx = past.length ∧ (∀ e ∈ past, e.iov_len = 0) ∧
    rest.map Iovec.iov_len = lens ∧ (∀ e ∈ rest, e.iov_len ≤ e.iov_base.length) ∧
      offered rest = left

theorem offered_cons (e : Iovec) (iov : List Iovec) :
    offered (e :: iov) = e.iov_base.take e.iov_len ++ offered iov := by
  rw [offered, List.map_cons, List.flatten_cons, offered]

theorem offered_past {past : List Iovec} (hpast : ∀ e ∈ past, e.iov_len = 0) (rest : List Iovec) :
    offered (past ++ rest) = offered rest := by
  induction past with
  | nil => rfl
  | cons e past ih =>
      obtain ⟨he, hpast⟩ := List.forall_mem_cons.mp hpast
      rw [List.cons_append, offered_cons, he, List.take_zero, List.nil_append, ih hpast]

theorem length_offered {iov : List Iovec} (hin : ∀ e ∈ iov, e.iov_len ≤ e.iov_base.length) :
    (offered iov).length = (iov.map Iovec.iov_len).sum := by
  induction iov with
  | nil => rfl
  | cons e iov ih =>
      obtain ⟨he, hin⟩ := List.forall_mem_cons.mp hin
      rw [offered_cons, List.length_append, List.length_take, Nat.min_eq_left he, ih hin,
        List.map_cons, List.sum_cons]

/-- An entry of which `value` bytes are written. -/
theorem offered_cut {e : Iovec} {value : Nat} (hle : value ≤ e.iov_len)
    (hin : e.iov_len ≤ e.iov_base.length) (rest : List Iovec) :
    offered (⟨e.iov_base.drop value, e.iov_len - value⟩ :: rest) =
      (offered (e :: rest)).drop value := by
  have hlength : (e.iov_base.take e.iov_len).length = e.iov_len := by
    rw [List.length_take, Nat.min_eq_left hin]
  rw [offered_cons, offered_cons, List.drop_append_of_le_length (by rwa [hlength]), List.drop_take]

variable {iov : List Iovec} {idx : Nat} {lens : List Nat} {left : Bytes}

theorem Stands.length_left (h : Stands iov idx lens left) : left.length = lens.sum := by
  obtain ⟨past, rest, -, -, -, rfl, hin, rfl⟩ := h.splits
  exact length_offered hin

theorem Stands.offered_eq (h : Stands iov idx lens left) : offered iov = left := by
  obtain ⟨past, rest, rfl, -, hpast, -, -, rfl⟩ := h.splits
  exact offered_past hpast rest

theorem stands_vector (buffers : List Bytes) :
    Stands (vector buffers) 0 (buffers.map List.length) buffers.flatten := by
  refine ⟨[], vector buffers, rfl, rfl, nofun, ?_, ?_, ?_⟩
  · rw [vector, List.map_map]
    rfl
  · intro e he
    obtain ⟨t, -, rfl⟩ := List.mem_map.mp he
    exact Nat.le_refl _
  · rw [offered, vector, List.map_map]
    refine congrArg List.flatten ((List.map_congr_left fun t _ => ?_).trans (List.map_id _))
    exact List.take_length

/-- The entry behind the past ones is cut. -/
theorem advance_short {past rest : List Iovec} {e : Iovec} {value : Nat} (hlt : value < e.iov_len) :
    advance (past ++ e :: rest) past.length value =
      some (past ++ ⟨e.iov_base.drop value, e.iov_len - value⟩ :: rest, past.length) := by
  have hget : (past ++ e :: rest)[past.length]? = some e := by simp
  rw [advance, hget, Option.bind_some, if_neg (Nat.not_le.mpr hlt)]
  dsimp only
  rw [hget, Option.bind_some, if_neg (Nat.not_lt.mpr (Nat.le_of_lt hlt)), List.set_append_right _ _
    (Nat.le_refl _), Nat.sub_self, List.set_cons_zero]

/-- It is written, and the next one is cut. -/
theorem advance_over {past rest : List Iovec} {e f : Iovec} {value : Nat}
    (hle : e.iov_len ≤ value) :
    advance (past ++ e :: f :: rest) past.length value =
      if f.iov_len < value - e.iov_len then none
      else some (past ++ [{ e with iov_len := 0 }] ++
        ⟨f.iov_base.drop (value - e.iov_len), f.iov_len - (value - e.iov_len)⟩ :: rest,
          past.length + 1) := by
  have hget : (past ++ e :: f :: rest)[past.length]? = some e := by simp
  have hset : (past ++ e :: f :: rest).set past.length { e with iov_len := 0 } =
      past ++ [{ e with iov_len := 0 }] ++ f :: rest := by simp
  have hnext : (past ++ [{ e with iov_len := 0 }] ++ f :: rest)[past.length + 1]? = some f := by
    simp
  have hcut : ∀ g, (past ++ [{ e with iov_len := 0 }] ++ f :: rest).set (past.length + 1) g =
      past ++ [{ e with iov_len := 0 }] ++ g :: rest := by
    simp
  rw [advance, hget, Option.bind_some, if_pos hle, hset]
  dsimp only
  rw [hnext, Option.bind_some, hcut]

/-- A write that leaves something cuts the entry where it ends, unless this is further than the one
behind `idx`. -/
theorem Stands.advanced (h : Stands iov idx lens left) {value : Nat} (hlt : value < left.length) :
    ((lens.take 2).sum < value → advance iov idx value = none) ∧
      (value ≤ (lens.take 2).sum → ∃ iov' idx', advance iov idx value = some (iov', idx') ∧
        Stands iov' idx' (lengthsBehind lens value) (left.drop value)) := by
  have hsum := h.length_left
  obtain ⟨past, rest, rfl, rfl, hpast, rfl, hin, rfl⟩ := h.splits
  cases rest with
  | nil => exact absurd hlt (Nat.not_lt_zero _)
  | cons e rest =>
      obtain ⟨he, hrest⟩ := List.forall_mem_cons.mp hin
      rcases Nat.lt_or_ge value e.iov_len with hshort | hover
      · constructor
        · intro hfar
          rw [List.map_cons, List.take_succ_cons, List.sum_cons] at hfar
          omega
        · intro _
          refine ⟨_, _, advance_short hshort, past, _, rfl, rfl, hpast, ?_, ?_,
            offered_cut (Nat.le_of_lt hshort) he rest⟩
          · cases rest with
            | nil => rfl
            | cons f rest => exact (if_pos hshort).symm
          · rw [List.forall_mem_cons, List.length_drop]
            exact ⟨Nat.sub_le_sub_right he value, hrest⟩
      · cases rest with
        | nil =>
            rw [List.map_cons, List.map_nil, List.sum_cons, List.sum_nil] at hsum
            omega
        | cons f rest =>
            obtain ⟨hf, hrest⟩ := List.forall_mem_cons.mp hrest
            have htwo : ((e :: f :: rest).map Iovec.iov_len |>.take 2).sum =
                e.iov_len + f.iov_len := by
              simp
            rw [htwo, advance_over hover]
            constructor
            · intro hfar
              exact if_pos (by omega)
            · intro hclose
              have hle : value - e.iov_len ≤ f.iov_len := by omega
              refine ⟨_, _, if_neg (Nat.not_lt.mpr hle), past ++ [{ e with iov_len := 0 }], _, rfl,
                by simp, ?_, (if_neg (Nat.not_lt.mpr hover)).symm, ?_, ?_⟩
              · rw [List.forall_mem_append, List.forall_mem_singleton]
                exact ⟨hpast, rfl⟩
              · rw [List.forall_mem_cons, List.length_drop]
                exact ⟨Nat.sub_le_sub_right hf _, hrest⟩
              · have hwhole : (e.iov_base.take e.iov_len).length = e.iov_len := by
                  rw [List.length_take, Nat.min_eq_left he]
                have hdrop : (e.iov_base.take e.iov_len).drop value = [] :=
                  List.drop_of_length_le (by rwa [hwhole])
                rw [offered_cut hle hf, offered_cons e, List.drop_append, hwhole, hdrop,
                  List.nil_append]

/-! ### The rounds -/

theorem toNat_sub_ofNat {ncount : UInt32} {value : Nat} (h : value ≤ ncount.toNat) :
    (ncount - UInt32.ofNat value).toNat = ncount.toNat - value := by
  have hvalue : (UInt32.ofNat value).toNat = value :=
    UInt32.toNat_ofNat_of_lt' (Nat.lt_of_le_of_lt h ncount.toNat_lt)
  rw [UInt32.toNat_sub_of_le _ _ (UInt32.le_iff_toNat_le.mpr (hvalue.symm ▸ h)), hvalue]

theorem sub_eq_zero_iff {ncount : UInt32} {value : Nat} (h : value ≤ ncount.toNat) :
    ncount - UInt32.ofNat value = 0 ↔ value = ncount.toNat := by
  rw [← UInt32.toNat_inj, toNat_sub_ofNat h, UInt32.toNat_zero]
  omega

/-- Where every short write ends close, the loop writes what it should, and else an `iov_len` goes
below zero. -/
theorem writevLoop_eq {rounds : List Round} (h : Stands iov idx lens left) {ncount : UInt32}
    (hncount : ncount.toNat = left.length) (hpossible : Possible left.length rounds) (n : Nat)
    (taken : Bytes) :
    (EndsClose lens rounds → writevLoop rounds iov idx ncount (Int32.ofNat n) taken =
      some (taken ++ (written left rounds n).1, (written left rounds n).2.map Int32.ofNat)) ∧
    (¬ EndsClose lens rounds → writevLoop rounds iov idx ncount (Int32.ofNat n) taken = none) := by
  induction rounds generalizing iov idx lens left ncount n taken with
  | nil => exact ⟨fun _ => by rw [writevLoop, written, List.append_nil]; rfl,
        fun h => absurd trivial h⟩
  | cons round rounds ih =>
      cases round with
      | failed =>
          exact ⟨fun _ => by rw [writevLoop, written, List.append_nil]; rfl,
            fun h => absurd trivial h⟩
      | wrote value res =>
          obtain ⟨-, hle, hpossible⟩ := hpossible
          have hle' : value ≤ ncount.toNat := hncount.symm ▸ hle
          rw [writevLoop, h.offered_eq, ← Int32.ofNat_add, written, EndsClose, ← h.length_left]
          dsimp only
          by_cases hall : value = left.length
          · rw [if_pos ((sub_eq_zero_iff hle').mpr (hall.trans hncount.symm)), if_pos (.inl hall)]
            exact ⟨fun _ => rfl, fun h => absurd (.inl hall) h⟩
          · have hlt : value < left.length := Nat.lt_of_le_of_ne hle hall
            obtain ⟨hfar, hclose⟩ := h.advanced hlt
            rw [if_neg fun h => hall (((sub_eq_zero_iff hle').mp h).trans hncount)]
            rcases Nat.lt_or_ge (lens.take 2).sum value with hmore | htwo
            · rw [hfar hmore]
              refine ⟨?_, fun _ => rfl⟩
              rintro (h | ⟨h, -⟩)
              · exact absurd h hall
              · exact absurd hmore (Nat.not_lt.mpr h)
            · obtain ⟨iov', idx', hadvance, hstands⟩ := hclose htwo
              rw [hadvance, Option.bind_some]
              by_cases hres : res = 1
              · have hncount' : (ncount - UInt32.ofNat value).toNat = (left.drop value).length := by
                  rw [toNat_sub_ofNat hle', hncount, List.length_drop]
                obtain ⟨hwrites, hbelow⟩ := ih hstands hncount'
                  (by rwa [List.length_drop]) (n + value) (taken ++ left.take value)
                rw [if_pos hres, if_neg (by simp [hall, hres])]
                constructor
                · rintro (h | ⟨-, h⟩)
                  · exact absurd h hall
                  · rw [hwrites (h hres), List.append_assoc]
                · intro h
                  exact hbelow fun hends => h (.inr ⟨htwo, fun _ => hends⟩)
              · rw [if_neg hres, if_pos (.inr hres)]
                exact ⟨fun _ => rfl, fun h => absurd (.inr ⟨htwo, fun h => absurd h hres⟩) h⟩

theorem toInt_ofNat_iff (n : Nat) : (Int32.ofNat n).toInt = n ↔ n < 2 ^ 31 := by
  constructor
  · intro h
    have hlt := (Int32.ofNat n).toInt_lt
    omega
  · intro h
    exact Int32.toInt_ofNat_of_lt h

/-- The buffers are written as they should be if and only if every write that leaves something ends
in the entry where the last one ended or in the one behind it, and less than 2^31 bytes are taken
when it returns. -/
theorem writes_iff {buffers : List Bytes} {rounds : List Round} {ncount : UInt32}
    (hncount : ncount.toNat = buffers.flatten.length)
    (hpossible : Possible buffers.flatten.length rounds) :
    Writes buffers rounds ncount ↔ EndsClose (buffers.map List.length) rounds ∧
      ∀ n, (written buffers.flatten rounds 0).2 = some n → n < 2 ^ 31 := by
  obtain ⟨hwrites, hbelow⟩ := writevLoop_eq (stands_vector buffers) hncount hpossible 0 []
  constructor
  · rintro ⟨taken, count, hwritev, hequal⟩
    have hends : EndsClose (buffers.map List.length) rounds := by
      by_contra hfar
      have hnone := hwritev.symm.trans (hbelow hfar)
      cases hnone
    refine ⟨hends, ?_⟩
    intro n hn
    obtain ⟨-, rfl⟩ := Prod.mk.inj (Option.some.inj (hwritev.symm.trans (hwrites hends)))
    rw [hn] at hequal
    exact (toInt_ofNat_iff n).mp (Option.some.inj (Prod.mk.inj hequal).2)
  · rintro ⟨hends, hcount⟩
    refine ⟨_, _, hwrites hends, Prod.ext rfl ?_⟩
    cases hwritten : (written buffers.flatten rounds 0).2 with
    | none => rfl
    | some n => exact congrArg some ((toInt_ofNat_iff n).mpr (hcount n hwritten))

/-- The third write begins at an empty buffer. -/
theorem writes_sample : Writes [[1, 2, 3], [], [4, 5], [6]]
    [.wrote 2 1, .wrote 1 1, .wrote 1 1, .wrote 2 1] 6 :=
  (writes_iff rfl (by decide)).mpr ⟨by decide, fun n hn => by cases hn; decide⟩

/-- A write that goes over an entry between, even an empty one, takes its `iov_len` below zero. -/
theorem not_writes : ¬ Writes [[1], [2], [3, 4]] [.wrote 3 1, .wrote 1 1] 4 ∧
    ¬ Writes [[1], [], [2, 3]] [.wrote 2 1, .wrote 1 1] 3 := by
  constructor
  · rintro ⟨taken, count, hwritev, -⟩
    have hnone : writev [.wrote 3 1, .wrote 1 1] (vector [[1], [2], [3, 4]]) 4 = none := by decide
    cases hnone.symm.trans hwritev
  · rintro ⟨taken, count, hwritev, -⟩
    have hnone : writev [.wrote 2 1, .wrote 1 1] (vector [[1], [], [2, 3]]) 3 = none := by decide
    cases hnone.symm.trans hwritev

end ULib.VectorWrite
