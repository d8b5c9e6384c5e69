import Mathlib.Data.Finset.Card
import ULib.CdbImage

/-!
`makeFinish` over a file whose contents are not known. Every record takes a
slot that reads as free, and there are as many slots as records, so it comes
to an end only if all of them read as free before.
-/

namespace ULib.CdbLeftover

open ByteMemory
open KeyComparison
open ConstantDatabase
open CdbImage

/-- The slots behind `eod`, of `n`, that read as used. -/
def taken (eod n : Nat) (m : Mem) : Finset Nat :=
  (Finset.range n).filter fun k => get m (eod + k * 8 + 4) ≠ 0

variable {reset : Bool} {c : UCDB} {rs : List Record} {m m' : Mem}

/-- The header with the pointers to the tables. -/
structure Header (ignoreCase : Bool) (rs : List Record) (m : Mem) : Prop where
  pointer : ∀ i < numHashTablePointer, get m (i * 8) =
    dataStart + totalSize rs + 8 * slotsBefore ignoreCase (placed dataStart rs) i
  slots : ∀ i < numHashTablePointer, get m (i * 8 + 4) =
    (bucket ignoreCase (placed dataStart rs) i).length

theorem Header.congr {ignoreCase : Bool} (h : Header ignoreCase rs m)
    (hframe : ∀ a < dataStart, m' a = m a) : Header ignoreCase rs m' := by
  have h512 : numHashTablePointer = 512 := rfl
  have h4096 : dataStart = 4096 := rfl
  have hword : ∀ a, a + 4 ≤ dataStart → get m' a = get m a := fun a ha =>
    Agree.get_eq fun x _ hx => hframe x (by omega)
  exact ⟨fun i hi => (hword _ (by omega)).trans (h.pointer i hi),
    fun i hi => (hword _ (by omega)).trans (h.slots i hi)⟩

/-- One turn of the last loop takes one free slot and leaves all else alone. -/
theorem insertSlot_takes {ignoreCase : Bool} (h : Header ignoreCase rs m)
    (hfits : dataStart + totalSize rs < 2 ^ 32) {x : Nat × Record} (hx : x ∈ placed dataStart rs)
    (hinsert : insertSlot m (toTmp ignoreCase x) = some m') :
    ∃ k < rs.length, get m (dataStart + totalSize rs + k * 8 + 4) = 0 ∧
      get m' (dataStart + totalSize rs + k * 8 + 4) ≠ 0 ∧
      ∀ a, a < dataStart + totalSize rs + k * 8 ∨ dataStart + totalSize rs + k * 8 + 8 ≤ a →
        m' a = m a := by
  have hi := indexOf_lt ignoreCase x
  have hle := slotsBefore_bucket_le ignoreCase (placed dataStart rs) hi
  rw [length_placed] at hle
  obtain ⟨hne, hlt⟩ := placed_pos hfits hx
  set i := indexOf ignoreCase x with hidx
  set n := (bucket ignoreCase (placed dataStart rs) i).length with hn
  set base := dataStart + totalSize rs + 8 * slotsBefore ignoreCase (placed dataStart rs) i
    with hbase
  have hbucket : x ∈ bucket ignoreCase (placed dataStart rs) i :=
    List.mem_filter.mpr ⟨hx, by simp [hidx]⟩
  have hhome : hashOf ignoreCase x / numHashTablePointer % n < n :=
    Nat.mod_lt _ (List.length_pos_of_mem hbucket)
  have hptr : get m ((toTmp ignoreCase x).index * sizeofHashTablePointer) = base := h.pointer i hi
  have hcount : get m ((toTmp ignoreCase x).index * sizeofHashTablePointer + 4) = n :=
    h.slots i hi
  simp only [insertSlot, hptr, hcount] at hinsert
  obtain ⟨j, hsearch, rfl⟩ := Option.map_eq_some_iff.mp hinsert
  obtain ⟨d, hd, rfl, hfree, -⟩ := (LinearProbing.search_eq_some hhome) hsearch
  set j := (hashOf ignoreCase x / numHashTablePointer % n + d) % n with hj
  have hjlt : j < n := Nat.mod_lt _ (by omega)
  have hslot : dataStart + totalSize rs + (slotsBefore ignoreCase (placed dataStart rs) i + j) * 8 =
      base + j * 8 := by omega
  refine ⟨slotsBefore ignoreCase (placed dataStart rs) i + j, by omega, ?_⟩
  rw [hslot]
  refine ⟨?_, ?_, fun a ha => ?_⟩
  · exact not_not.mp (of_decide_eq_false hfree)
  · show get (put _ (base + j * 8 + 4) x.1) (base + j * 8 + 4) ≠ 0
    rw [get_put_of_lt _ _ hlt]
    exact hne
  · show put (put m (base + j * 8) _) (base + j * 8 + 4) _ a = m a
    exact (put_agree _ _ _ (b := a) (k := 1) (by unfold Apart; omega) a (by omega)
      (by omega)).trans (put_agree _ _ _ (b := a) (k := 1) (by unfold Apart; omega) a (by omega)
      (by omega))

/-- The last loop takes as many slots as there are records left. -/
theorem insertAll_takes {ignoreCase : Bool} (hfits : dataStart + totalSize rs < 2 ^ 32)
    (xs : List (Nat × Record)) (hxs : ∀ x ∈ xs, x ∈ placed dataStart rs)
    (h : Header ignoreCase rs m)
    (hinsert : (xs.map (toTmp ignoreCase)).foldlM insertSlot m = some m') :
    (taken (dataStart + totalSize rs) rs.length m').card =
        (taken (dataStart + totalSize rs) rs.length m).card + xs.length ∧
      ∀ a, a < dataStart + totalSize rs ∨ dataStart + totalSize rs + 8 * rs.length ≤ a →
        m' a = m a := by
  induction xs generalizing m with
  | nil =>
      obtain rfl := Option.some.inj hinsert
      exact ⟨rfl, fun _ _ => rfl⟩
  | cons x xs ih =>
      rw [List.map_cons, List.foldlM_cons] at hinsert
      obtain ⟨m₁, hstep, hinsert⟩ := Option.bind_eq_some_iff.mp hinsert
      obtain ⟨k, hk, hfree, hused, hframe⟩ :=
        insertSlot_takes h hfits (hxs x List.mem_cons_self) hstep
      have hheader : Header ignoreCase rs m₁ := h.congr fun a ha => hframe a (.inl (by omega))
      obtain ⟨hcard, hframe'⟩ := ih (fun y hy => hxs y (List.mem_cons_of_mem _ hy)) hheader hinsert
      have htaken : taken (dataStart + totalSize rs) rs.length m₁ =
          insert k (taken (dataStart + totalSize rs) rs.length m) := by
        ext k'
        simp only [taken, Finset.mem_filter, Finset.mem_insert, Finset.mem_range]
        by_cases hkk : k' = k
        · subst hkk
          exact iff_of_true ⟨hk, hused⟩ (.inl rfl)
        · have hword : get m₁ (dataStart + totalSize rs + k' * 8 + 4) =
              get m (dataStart + totalSize rs + k' * 8 + 4) :=
            Agree.get_eq fun a _ _ => hframe a (by omega)
          rw [hword, or_iff_right hkk]
      have hnotin : k ∉ taken (dataStart + totalSize rs) rs.length m := fun hin =>
        (Finset.mem_filter.mp hin).2 hfree
      refine ⟨?_, fun a ha => ?_⟩
      · rw [hcard, htaken, Finset.card_insert_of_notMem hnotin, List.length_cons]
        omega
      · rw [hframe' a ha, hframe a (by omega)]

theorem taken_eq_empty {eod n : Nat} (h : (taken eod n m).card = 0) :
    ∀ k < n, get m (eod + k * 8 + 4) = 0 := by
  intro k hk
  by_contra hne
  have hmem : k ∈ taken eod n m := Finset.mem_filter.mpr ⟨Finset.mem_range.mpr hk, hne⟩
  rw [Finset.card_eq_zero.mp h] at hmem
  exact absurd hmem (Finset.notMem_empty k)

/-- Where `makeFinish` comes to an end, it leaves an image of the records, and
nothing behind it was written. -/
theorem makeFinish_some (hadd : Adding c rs)
    (hfits : dataStart + totalSize rs + 8 * rs.length < 2 ^ 32)
    (hheader : rs = [] → ∀ i < numHashTablePointer, get c.file (i * 8 + 4) = 0) {pos : Nat}
    {c' : UCDB} (h : makeFinish reset c = some (pos, c')) :
    pos = dataStart + totalSize rs + 8 * rs.length ∧
      c' = { c with file := c'.file, startHashTableSlot := dataStart + totalSize rs } ∧
      IsImage c.ignoreCase c'.file pos rs ∧ ∀ a, pos ≤ a → c'.file a = c.file a := by
  have hfree : reset = true ∨ ∀ k < rs.length, get c.file (c.hr + k * 8 + 4) = 0 := by
    cases reset with
    | true => exact .inl rfl
    | false =>
        refine .inr ?_
        by_cases hne : rs = []
        · intro k hk
          rw [hne] at hk
          exact absurd hk (Nat.not_lt_zero k)
        · obtain ⟨m₂, hlaid, hfinish⟩ := makeFinish_laid false hadd hfits hne
          rw [hfinish] at h
          obtain ⟨m, hinsert, -⟩ := Option.map_eq_some_iff.mp h
          obtain ⟨hcard, -⟩ := insertAll_takes (by omega) (placed dataStart rs) (fun _ hx => hx)
            ⟨hlaid.pointer, hlaid.slots⟩ hinsert
          have hle : (taken (dataStart + totalSize rs) rs.length m).card ≤ rs.length :=
            (Finset.card_filter_le _ _).trans (le_of_eq (Finset.card_range _))
          rw [length_placed] at hcard
          have hempty : (taken (dataStart + totalSize rs) rs.length m₂).card = 0 := by omega
          intro k hk
          rw [hadd.hr, ← taken_eq_empty hempty k hk]
          exact Agree.get_eq fun a ha _ => (hlaid.kept rfl a (by omega)).symm
  obtain ⟨m, hfinish, himage⟩ := makeFinish_isImage hadd ⟨hfits, hfree, hheader⟩
  have hframe : ∀ a, dataStart + totalSize rs + 8 * rs.length ≤ a → m a = c.file a := by
    by_cases hne : rs = []
    · subst hne
      intro a _
      have hzero : ¬0 < c.nrecord := by simp [hadd.nrecord]
      simp only [makeFinish, hzero, if_false] at hfinish
      have hc := (Prod.mk.inj (Option.some.inj hfinish)).2
      rw [← (UCDB.mk.inj hc).2.2.1]
    · obtain ⟨m₂, hlaid, hfinish'⟩ := makeFinish_laid reset hadd hfits hne
      rw [hfinish'] at hfinish
      obtain ⟨m', hinsert, hm'⟩ := Option.map_eq_some_iff.mp hfinish
      obtain rfl : m' = m := (UCDB.mk.inj (Prod.mk.inj hm').2).2.2.1
      obtain ⟨-, hframe⟩ := insertAll_takes (by omega) (placed dataStart rs) (fun _ hx => hx)
        ⟨hlaid.pointer, hlaid.slots⟩ hinsert
      intro a ha
      rw [hframe a (.inr ha), hlaid.frame a (by omega) (.inr ha)]
  obtain ⟨rfl, rfl⟩ := Prod.mk.inj (Option.some.inj (hfinish.symm.trans h))
  exact ⟨rfl, rfl, himage, hframe⟩

end ULib.CdbLeftover
