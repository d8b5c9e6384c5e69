import Mathlib.Data.List.Pairwise
import ULib.RangeRequest

/-!
The ranges that answer a `Range` header: where the list asks for ranges of
which, in their order, only the last two may overlap, they are the bytes that
are asked for.
-/

namespace ULib.RangeResolution

open ULib.RangeRequest

/-- One range lies before another. -/
def Before (a b : HTTPRange) : Prop := a.last < b.start

instance (a b : HTTPRange) : Decidable (Before a b) := inferInstanceAs (Decidable (_ < _))

def Valid (r : HTTPRange) : Prop := r.start ≤ r.last

theorem Before.trans {a b c : HTTPRange} (hb : Valid b) (hab : Before a b) (hbc : Before b c) :
    Before a c := by
  simp only [Before, Valid, UInt32.lt_iff_toNat_lt, UInt32.le_iff_toNat_le] at *
  omega

theorem pairwise_of_chain {l : List HTTPRange} (hl : ∀ r ∈ l, Valid r) (h : l.IsChain Before) :
    l.Pairwise Before := by
  induction l with
  | nil => exact List.Pairwise.nil
  | cons a l ih =>
      have hrest := ih (fun r hr => hl r (List.mem_cons_of_mem a hr)) h.tail
      refine List.pairwise_cons.mpr ⟨?_, hrest⟩
      cases l with
      | nil => exact fun b hb => absurd hb List.not_mem_nil
      | cons b l =>
          have hab : Before a b := (List.isChain_cons_cons.mp h).1
          intro c hc
          rcases List.mem_cons.mp hc with rfl | hc
          · exact hab
          · exact hab.trans (hl b (by simp)) ((List.pairwise_cons.mp hrest).1 c hc)

/-! ### The loop -/

/-- The last two ranges as one, where they overlap. -/
def merged : List HTTPRange → List HTTPRange
  | [prev, cur] =>
      if cur.start ≤ prev.last then [{ prev with last := U_max prev.last cur.last }] else [prev, cur]
  | r :: s :: t :: rs => r :: merged (s :: t :: rs)
  | rs => rs

/-- An index that has come past the end stays there. -/
theorem mergeLoop_past {n i : Nat} {array : List HTTPRange} (hn : 0 < n)
    (hpast : array.length < i + n) : mergeLoop n i array = none := by
  induction n generalizing i array with
  | zero => exact absurd hn (Nat.lt_irrefl 0)
  | succ n ih =>
      rw [mergeLoop]
      cases hcur : array[i]? with
      | none => rfl
      | some cur =>
          have hi : i < array.length := (List.getElem?_eq_some_iff.mp hcur).1
          cases hprev : array[i - 1]? with
          | none => rfl
          | some prev =>
              dsimp only
              split_ifs
              · apply ih
                · omega
                · rw [List.length_eraseIdx_of_lt (by rwa [List.length_set]), List.length_set]
                  omega
              · exact ih (by omega) (by omega)

/-- The loop from a range on: it is defined where only the last two ranges overlap. -/
theorem mergeLoop_eq (pre rest : List HTTPRange) (prev : HTTPRange) :
    mergeLoop rest.length (pre.length + 1) (pre ++ prev :: rest) =
      if (prev :: rest).dropLast.IsChain Before then some (pre ++ merged (prev :: rest))
      else none := by
  induction rest generalizing pre prev with
  | nil => rw [if_pos (by simp)]; rfl
  | cons cur rest ih =>
      have hcur : (pre ++ prev :: cur :: rest)[pre.length + 1]? = some cur := by simp
      have hprev : (pre ++ prev :: cur :: rest)[pre.length + 1 - 1]? = some prev := by simp
      have hset : ((pre ++ prev :: cur :: rest).set (pre.length + 1 - 1)
          { prev with last := U_max prev.last cur.last }).eraseIdx (pre.length + 1) =
          pre ++ { prev with last := U_max prev.last cur.last } :: rest := by
        simp [List.eraseIdx_append_of_length_le]
      rw [List.length_cons, mergeLoop, hcur, hprev]
      dsimp only
      rw [hset]
      by_cases hoverlap : cur.start ≤ prev.last
      · rw [if_pos hoverlap]
        cases rest with
        | nil =>
            rw [if_pos (by exact List.isChain_singleton prev), merged, if_pos hoverlap]
            rfl
        | cons next rest =>
            -- one range fewer, but not one step fewer
            rw [if_neg]
            · apply mergeLoop_past
              · exact Nat.succ_pos _
              · simp only [List.length_append, List.length_cons]
                omega
            · intro hchain
              exact UInt32.not_lt.mpr hoverlap (List.isChain_cons_cons.mp hchain).1
      · rw [if_neg hoverlap]
        have hgap : Before prev cur := UInt32.not_le.mp hoverlap
        cases rest with
        | nil =>
            rw [if_pos (by exact List.isChain_singleton prev), merged, if_neg hoverlap]
            rfl
        | cons next rest =>
            have hstep := ih (pre ++ [prev]) cur
            rw [List.length_append, List.append_assoc] at hstep
            refine hstep.trans ?_
            have hchain : (prev :: cur :: next :: rest).dropLast.IsChain Before ↔
                (cur :: next :: rest).dropLast.IsChain Before :=
              List.isChain_cons_cons.trans (and_iff_right hgap)
            have hmerged : merged (prev :: cur :: next :: rest) =
                prev :: merged (cur :: next :: rest) := rfl
            simp only [hchain, hmerged, List.append_assoc]
            rfl

/-! ### What is merged -/

theorem mem_merged {l : List HTTPRange} (hl : ∀ r ∈ l, Valid r) {r : HTTPRange}
    (hr : r ∈ merged l) : Valid r ∧ ∃ s ∈ l, r.last = s.last := by
  fun_induction merged l with
  | case1 prev cur hoverlap =>
      rw [List.mem_singleton] at hr
      have hprev := hl prev List.mem_cons_self
      subst hr
      refine ⟨?_, ?_⟩
      · simp only [Valid, UInt32.le_iff_toNat_le, toNat_U_max] at hprev ⊢
        omega
      · rw [U_max]
        split_ifs
        · exact ⟨prev, by simp, rfl⟩
        · exact ⟨cur, by simp, rfl⟩
  | case2 prev cur => exact ⟨hl r hr, r, hr, rfl⟩
  | case3 r' s t rs ih =>
      rcases List.mem_cons.mp hr with rfl | hr
      · exact ⟨hl r List.mem_cons_self, r, List.mem_cons_self, rfl⟩
      · obtain ⟨hvalid, q, hq, hlast⟩ := ih (fun q hq => hl q (List.mem_cons_of_mem r' hq)) hr
        exact ⟨hvalid, q, List.mem_cons_of_mem r' hq, hlast⟩
  | case4 => exact ⟨hl r hr, r, hr, rfl⟩

/-- The first range keeps its start. -/
theorem merged_cons (r : HTTPRange) (l : List HTTPRange) :
    ∃ s t, merged (r :: l) = s :: t ∧ s.start = r.start := by
  match l with
  | [] => exact ⟨r, [], rfl, rfl⟩
  | [cur] =>
      rw [merged]
      split_ifs
      · exact ⟨_, _, rfl, rfl⟩
      · exact ⟨_, _, rfl, rfl⟩
  | s :: t :: l => exact ⟨r, _, rfl, rfl⟩

theorem merged_chain {l : List HTTPRange} (h : l.dropLast.IsChain Before) :
    (merged l).IsChain Before := by
  fun_induction merged l with
  | case1 prev cur hoverlap => exact List.isChain_singleton _
  | case2 prev cur hgap =>
      exact List.isChain_cons_cons.mpr ⟨UInt32.not_le.mp hgap, List.isChain_singleton cur⟩
  | case3 r s t rs ih =>
      obtain ⟨hrs, hrest⟩ := List.isChain_cons_cons.mp h
      obtain ⟨s', u, hu, hstart⟩ := merged_cons s (t :: rs)
      have hchain := ih hrest
      rw [hu] at hchain ⊢
      refine List.isChain_cons_cons.mpr ⟨?_, hchain⟩
      rw [Before, hstart]
      exact hrs
  | case4 l hpair hmore =>
      match l with
      | [] => exact List.isChain_nil
      | [r] => exact List.isChain_singleton r
      | [r, s] => exact absurd rfl (hpair r s)
      | r :: s :: t :: rs => exact absurd rfl (hmore r s t rs)

theorem covers_cons (r : HTTPRange) (l : List HTTPRange) (x : Nat) :
    Covers (r :: l) x ↔ (r.start.toNat ≤ x ∧ x ≤ r.last.toNat) ∨ Covers l x := by
  simp [Covers]

theorem covers_nil (x : Nat) : ¬ Covers [] x := by simp [Covers]

theorem covers_merged {l : List HTTPRange} (hl : ∀ r ∈ l, Valid r)
    (hsorted : l.Pairwise fun a b => a.start ≤ b.start) (x : Nat) :
    Covers (merged l) x ↔ Covers l x := by
  fun_induction merged l with
  | case1 prev cur hoverlap =>
      have hstart : prev.start ≤ cur.start := by simpa using hsorted
      have hprev : Valid prev := hl prev (by simp)
      have hcur : Valid cur := hl cur (by simp)
      simp only [covers_cons, covers_nil, or_false, toNat_U_max, Valid, UInt32.le_iff_toNat_le] at *
      omega
  | case2 => exact Iff.rfl
  | case3 r s t rs ih =>
      rw [covers_cons, covers_cons, ih (fun q hq => hl q (List.mem_cons_of_mem r hq)) hsorted.tail]
  | case4 => exact Iff.rfl

/-- A range is merged into the range before it, or it lies behind that one. -/
theorem mem_merged_last {u : List HTTPRange} (hu : u ≠ []) {c r : HTTPRange}
    (hr : r ∈ merged (u ++ [c])) :
    (∃ p ∈ u, r.start = p.start) ∨ (r = c ∧ ∃ p ∈ u, Before p c) := by
  induction u with
  | nil => exact absurd rfl hu
  | cons a u ih =>
      cases u with
      | nil =>
          rw [List.singleton_append, merged] at hr
          split_ifs at hr with hoverlap
          · rw [List.mem_singleton] at hr
            exact .inl ⟨a, List.mem_cons_self, by rw [hr]⟩
          · rcases List.mem_cons.mp hr with rfl | hr
            · exact .inl ⟨r, List.mem_cons_self, rfl⟩
            · exact .inr ⟨List.mem_singleton.mp hr, a, List.mem_cons_self,
                UInt32.not_le.mp hoverlap⟩
      | cons b u =>
          have hmerged : merged (a :: b :: u ++ [c]) = a :: merged (b :: u ++ [c]) := by
            cases u with
            | nil => rfl
            | cons d u => rfl
          rw [hmerged] at hr
          rcases List.mem_cons.mp hr with rfl | hr
          · exact .inl ⟨r, List.mem_cons_self, rfl⟩
          · rcases ih (List.cons_ne_nil b u) hr with ⟨p, hp, hstart⟩ | ⟨rfl, p, hp, hbefore⟩
            · exact .inl ⟨p, List.mem_cons_of_mem a hp, hstart⟩
            · exact .inr ⟨rfl, p, List.mem_cons_of_mem a hp, hbefore⟩

/-! ### The order -/

theorem sortRange_value (a b : HTTPRange) :
    sortRange a b = ((a.start.toNat : Int) - b.start.toNat + 2 ^ 31) % 2 ^ 32 - 2 ^ 31 := by
  have ha := a.start.toNat_lt
  have hb := b.start.toNat_lt
  have hvalue : sortRange a b = if 2 * (a.start - b.start).toNat < 2 ^ 32 then
      ((a.start - b.start).toNat : Int) else (a.start - b.start).toNat - 2 ^ 32 := by
    rw [sortRange]
    exact BitVec.toInt_eq_toNat_cond (a.start - b.start).toBitVec
  rw [hvalue, UInt32.toNat_sub]
  split_ifs
  · omega
  · omega

/-- The starts of the ranges are less than half of what 32 bits hold apart. -/
def Near (ranges : List HTTPRange) : Prop :=
  ∀ a ∈ ranges, ∀ b ∈ ranges, a.start.toNat < b.start.toNat + 2 ^ 31

instance (ranges : List HTTPRange) : Decidable (Near ranges) :=
  inferInstanceAs (Decidable (∀ _ ∈ _, ∀ _ ∈ _, _))

/-- The ranges in order of their start. -/
def ascending (ranges : List HTTPRange) : List HTTPRange :=
  ranges.insertionSort fun a b => a.start ≤ b.start

theorem ascending_pairwise (ranges : List HTTPRange) :
    (ascending ranges).Pairwise fun a b => a.start ≤ b.start :=
  have : Std.Total fun a b : HTTPRange => a.start ≤ b.start := ⟨fun _ _ => UInt32.le_total _ _⟩
  have : IsTrans HTTPRange fun a b => a.start ≤ b.start := ⟨fun _ _ _ => UInt32.le_trans⟩
  List.pairwise_insertionSort _ ranges

/-- Near starts are sorted. -/
theorem qsort_near {ranges : List HTTPRange} (h : Near ranges) :
    qsort sortRange ranges = some (ascending ranges) := by
  have hle : ∀ a ∈ ranges, ∀ b ∈ ranges, sortRange a b ≤ 0 ↔ a.start.toNat ≤ b.start.toNat := by
    intro a ha b hb
    have hab := h a ha b hb
    have hba := h b hb a ha
    rw [sortRange_value]
    omega
  have hneg : ∀ a ∈ ranges, ∀ b ∈ ranges, sortRange a b < 0 ↔ a.start.toNat < b.start.toNat := by
    intro a ha b hb
    have hab := h a ha b hb
    have hba := h b hb a ha
    rw [sortRange_value]
    omega
  have horder : IsOrder sortRange ranges := by
    refine ⟨fun a ha b hb => ?_, fun a ha b hb c hc hab hbc => ?_⟩
    · rw [hneg b hb a ha, ← not_le, hle a ha b hb, not_le]
    · rw [hle a ha b hb] at hab
      rw [hle b hb c hc] at hbc
      rw [hle a ha c hc]
      exact le_trans hab hbc
  have hsame := List.map_insertionSort (fun a b => sortRange a b ≤ 0)
    (fun a b : HTTPRange => a.start ≤ b.start) id ranges fun a ha b hb =>
      (hle a ha b hb).trans UInt32.le_iff_toNat_le.symm
  rw [List.map_id, List.map_id] at hsame
  rw [qsort, if_pos horder, hsame]
  rfl

/-- What is sorted is in order, as the comparison has it. -/
theorem qsort_pairwise {α : Type*} {compare : α → α → Int} {l s : List α}
    (h : qsort compare l = some s) :
    IsOrder compare l ∧ s.Perm l ∧ s.Pairwise fun a b => compare a b ≤ 0 := by
  rw [qsort] at h
  split_ifs at h with horder
  cases h
  refine ⟨horder, List.perm_insertionSort _ _, ?_⟩
  -- on the elements of the list the comparison is an order
  have hattach := List.map_insertionSort (fun a b : {x // x ∈ l} => compare a.1 b.1 ≤ 0)
    (fun a b => compare a b ≤ 0) Subtype.val l.attach fun _ _ _ _ => Iff.rfl
  rw [List.attach_map_subtype_val] at hattach
  rw [← hattach, List.pairwise_map]
  have : Std.Total fun a b : {x // x ∈ l} => compare a.1 b.1 ≤ 0 := ⟨fun a b => by
    have := horder.1 a.1 a.2 b.1 b.2
    omega⟩
  have : IsTrans {x // x ∈ l} fun a b => compare a.1 b.1 ≤ 0 :=
    ⟨fun a b c => horder.2 a.1 a.2 b.1 b.2 c.1 c.2⟩
  exact List.pairwise_insertionSort _ l.attach

/-! ### The answer -/

/-- The array is in order, its ranges lie in the resource and one behind the other, they are
what is asked for, and it is not satisfiable where nothing is. -/
def Resolved (size : UInt32) (specs : List Spec) : Prop :=
  match checkGetRequestForRange size (specsText specs) (UInt8.ofNat (specsText specs).length) with
  | none => False
  | some answer =>
      answer.ranges.Pairwise Before ∧
        (∀ r ∈ answer.ranges, r.start.toNat ≤ r.last.toNat ∧ r.last.toNat < size.toNat) ∧
        (∀ x, Covers answer.ranges x ↔ ∃ s ∈ specs, s.Asks size.toNat x) ∧
        (answer = .notSatisfiable ↔ ∀ x, ¬ ∃ s ∈ specs, s.Asks size.toNat x)

/-- The ranges that are read of a list. -/
def listed (size : UInt32) (specs : List Spec) : List HTTPRange :=
  readRanges size (specsText specs) (UInt8.ofNat (specsText specs).length)

/-- In the order of their start only the last two ranges may overlap. -/
def OnlyLast (ranges : List HTTPRange) : Prop := (ascending ranges).dropLast.IsChain Before

instance (ranges : List HTTPRange) : Decidable (OnlyLast ranges) :=
  inferInstanceAs (Decidable (List.IsChain _ _))

theorem not_resolved_of_none {size : UInt32} {specs : List Spec}
    (h : sortAndMerge (listed size specs) = none) : ¬ Resolved size specs := by
  have hnone : checkGetRequestForRange size (specsText specs)
      (UInt8.ofNat (specsText specs).length) = none := congrArg (Option.map respond) h
  rw [Resolved, hnone]
  exact id

theorem mergeLoop_start {ranges : List HTTPRange} (hne : ranges ≠ []) :
    mergeLoop (ranges.length - 1) 1 ranges =
      if ranges.dropLast.IsChain Before then some (merged ranges) else none := by
  cases ranges with
  | nil => exact absurd rfl hne
  | cons r ranges => exact mergeLoop_eq [] ranges r

theorem merged_short {ranges : List HTTPRange} (h : ranges.length ≤ 1) :
    merged ranges = ranges := by
  match ranges with
  | [] => rfl
  | [_] => rfl

theorem sortAndMerge_eq {ranges s : List HTTPRange} (hs : qsort sortRange ranges = some s)
    (hlength : 1 < ranges.length) : sortAndMerge ranges =
      if s.dropLast.IsChain Before then some (merged s) else none := by
  have hperm := (qsort_pairwise hs).2.1
  have hne : s ≠ [] := by
    rintro rfl
    have := hperm.length_eq
    rw [List.length_nil] at this
    omega
  rw [sortAndMerge, if_pos hlength, hs]
  exact mergeLoop_start hne

theorem sortAndMerge_near {ranges : List HTTPRange} (hnear : Near ranges)
    (honly : OnlyLast ranges) :
    sortAndMerge ranges = some (merged (ascending ranges)) := by
  by_cases hlength : 1 < ranges.length
  · rw [sortAndMerge_eq (qsort_near hnear) hlength]
    exact if_pos honly
  · have hsame : ascending ranges = ranges := by
      match ranges with
      | [] => rfl
      | [r] => rfl
      | _ :: _ :: _ => exact absurd (by simp) hlength
    rw [sortAndMerge, if_neg hlength, hsame, merged_short (by omega)]

theorem covers_perm {l l' : List HTTPRange} (h : l.Perm l') (x : Nat) :
    Covers l x ↔ Covers l' x := by
  simp only [Covers, h.mem_iff]

section

variable {size : UInt32} {specs : List Spec}

theorem resolved_iff_merged {ranges : List HTTPRange}
    (hranges : sortAndMerge (listed size specs) = some ranges)
    (hvalid : ∀ r ∈ ranges, r.start.toNat ≤ r.last.toNat ∧ r.last.toNat < size.toNat) :
    Resolved size specs ↔ ranges.Pairwise Before ∧
      ∀ x, Covers ranges x ↔ ∃ s ∈ specs, s.Asks size.toNat x := by
  have hanswer : checkGetRequestForRange size (specsText specs)
      (UInt8.ofNat (specsText specs).length) = some (respond ranges) := by
    rw [checkGetRequestForRange]
    exact congrArg (Option.map respond) hranges
  rw [Resolved, hanswer]
  dsimp only
  rw [ranges_respond, respond_notSatisfiable]
  constructor
  · rintro ⟨hbefore, -, hcovers, -⟩
    exact ⟨hbefore, hcovers⟩
  · rintro ⟨hbefore, hcovers⟩
    refine ⟨hbefore, hvalid, hcovers, ?_⟩
    constructor
    · rintro rfl x hx
      exact covers_nil x ((hcovers x).mpr hx)
    · intro hnone
      cases ranges with
      | nil => rfl
      | cons r ranges =>
          have hr := hvalid r List.mem_cons_self
          have hcovered : Covers (r :: ranges) r.start.toNat :=
            ⟨r, List.mem_cons_self, Nat.le_refl _, hr.1⟩
          exact absurd ((hcovers _).mp hcovered) (hnone _)

theorem valid_listed (hsize : 0 < size.toNat) {r : HTTPRange} (hr : r ∈ listed size specs) :
    Valid r := UInt32.le_iff_toNat_le.mpr (mem_readRanges hsize hr).1

/-- The ranges that the loop leaves lie in the resource. -/
theorem merged_listed (hsize : 0 < size.toNat) {l : List HTTPRange}
    (hl : l.Perm (listed size specs)) {r : HTTPRange} (hr : r ∈ merged l) :
    r.start.toNat ≤ r.last.toNat ∧ r.last.toNat < size.toNat := by
  obtain ⟨hvalid, s, hs, hlast⟩ :=
    mem_merged (fun s hs => valid_listed hsize (hl.mem_iff.mp hs)) hr
  rw [hlast]
  exact ⟨hlast ▸ UInt32.le_iff_toNat_le.mp hvalid, (mem_readRanges hsize (hl.mem_iff.mp hs)).2⟩

/-- Ranges that are near and of which only the last two overlap are answered as asked. -/
theorem resolved_of_onlyLast (hsize : 0 < size.toNat) (hplain : ∀ s ∈ specs, s.Plain size.toNat)
    (hlength : (specsText specs).length < 256) (hnear : Near (listed size specs))
    (honly : OnlyLast (listed size specs)) : Resolved size specs := by
  have hperm : (ascending (listed size specs)).Perm (listed size specs) :=
    List.perm_insertionSort _ _
  have hvalid : ∀ r ∈ ascending (listed size specs), Valid r := fun r hr =>
    valid_listed hsize (hperm.mem_iff.mp hr)
  refine (resolved_iff_merged (sortAndMerge_near hnear honly)
    fun r hr => merged_listed hsize hperm hr).mpr ⟨?_, fun x => ?_⟩
  · exact pairwise_of_chain (fun r hr => (mem_merged hvalid hr).1) (merged_chain honly)
  · rw [covers_merged hvalid (ascending_pairwise _), covers_perm hperm]
    exact covers_readRanges hsize hplain hlength x

/-- A range is never put behind one that begins far before it. -/
theorem far_compare {l : List HTTPRange} (horder : IsOrder sortRange l) {a b : HTTPRange}
    (ha : a ∈ l) (hb : b ∈ l) (hfar : b.start.toNat + 2 ^ 31 ≤ a.start.toNat) :
    0 < sortRange b a := by
  refine (horder.1 b hb a ha).mpr ?_
  have hlt := a.start.toNat_lt
  rw [sortRange_value]
  omega

/-- Ranges of which none overlap are near. -/
theorem near_of_before {l u : List HTTPRange} (horder : IsOrder sortRange l)
    (hmem : ∀ r ∈ u, r ∈ l) (hvalid : ∀ r ∈ l, Valid r)
    (hsorted : u.Pairwise fun a b => sortRange a b ≤ 0) (hbefore : u.Pairwise Before) : Near u := by
  intro a ha b hb
  by_contra hfar
  have hfar := Nat.not_lt.mp hfar
  have hne : a ≠ b := by
    rintro rfl
    omega
  have hcompare := far_compare horder (hmem a ha) (hmem b hb) hfar
  have hordered : u.Pairwise fun a b => (sortRange a b ≤ 0 ∧ Before a b) ∨
      (sortRange b a ≤ 0 ∧ Before b a) := (hsorted.and hbefore).imp fun h => .inl h
  have : Std.Symm fun a b => (sortRange a b ≤ 0 ∧ Before a b) ∨ (sortRange b a ≤ 0 ∧ Before b a) :=
    ⟨fun _ _ h => h.symm⟩
  rcases hordered.forall ha hb hne with ⟨-, h⟩ | ⟨h, -⟩
  · have hlast := hvalid a (hmem a ha)
    simp only [Before, Valid, UInt32.lt_iff_toNat_lt, UInt32.le_iff_toNat_le] at h hlast
    omega
  · omega

/-- Where the answer is as asked the ranges are near. -/
theorem near_of_covers {l u : List HTTPRange} {c : HTTPRange} (horder : IsOrder sortRange l)
    (hperm : (u ++ [c]).Perm l) (hvalid : ∀ r ∈ l, Valid r)
    (hsorted : (u ++ [c]).Pairwise fun a b => sortRange a b ≤ 0) (hbefore : u.Pairwise Before)
    (hcovers : Covers (merged (u ++ [c])) c.start.toNat) : Near l := by
  have hmem : ∀ r ∈ u, r ∈ l := fun r hr => hperm.mem_iff.mp (List.mem_append_left _ hr)
  have hc : c ∈ l := hperm.mem_iff.mp (List.mem_append_right _ (List.mem_singleton_self c))
  obtain ⟨hsortedu, -, hlast⟩ := List.pairwise_append.mp hsorted
  have hnear := near_of_before horder hmem hvalid hsortedu hbefore
  intro a ha b hb
  by_contra hfar
  have hfar := Nat.not_lt.mp hfar
  rcases List.mem_append.mp (hperm.mem_iff.mpr ha) with hau | hac
  · rcases List.mem_append.mp (hperm.mem_iff.mpr hb) with hbu | hbc
    · have := hnear a hau b hbu
      omega
    · -- what begins at the last range is not in the others
      obtain rfl := List.mem_singleton.mp hbc
      obtain ⟨r, hr, hstart, -⟩ := hcovers
      rcases mem_merged_last (List.ne_nil_of_mem hau) hr with ⟨p, hp, hrp⟩ | ⟨-, p, hp, hpb⟩
      · have := hnear a hau p hp
        rw [hrp] at hstart
        omega
      · have := hnear a hau p hp
        have hvalidp := hvalid p (hmem p hp)
        simp only [Before, Valid, UInt32.lt_iff_toNat_lt, UInt32.le_iff_toNat_le] at hpb hvalidp
        omega
  · obtain rfl := List.mem_singleton.mp hac
    have hcompare := far_compare horder ha hb hfar
    rcases List.mem_append.mp (hperm.mem_iff.mpr hb) with hbu | hbc
    · have := hlast b hbu a (List.mem_singleton_self a)
      omega
    · obtain rfl := List.mem_singleton.mp hbc
      omega

/-- Where the answer is as asked the ranges are near, and only the last two overlap. -/
theorem onlyLast_of_resolved (hsize : 0 < size.toNat) (hplain : ∀ s ∈ specs, s.Plain size.toNat)
    (hlength : (specsText specs).length < 256) (hresolved : Resolved size specs) :
    Near (listed size specs) ∧ OnlyLast (listed size specs) := by
  by_cases hmany : 1 < (listed size specs).length
  · have hsome : ∃ s, qsort sortRange (listed size specs) = some s ∧ s.dropLast.IsChain Before ∧
        sortAndMerge (listed size specs) = some (merged s) := by
      have hanswered : sortAndMerge (listed size specs) ≠ none := fun hnone =>
        not_resolved_of_none hnone hresolved
      cases hs : qsort sortRange (listed size specs) with
      | none =>
          rw [sortAndMerge, if_pos hmany, hs] at hanswered
          exact absurd rfl hanswered
      | some s =>
          rw [sortAndMerge_eq hs hmany] at hanswered ⊢
          split_ifs at hanswered ⊢ with hchain
          · exact ⟨s, rfl, hchain, rfl⟩
          · exact absurd rfl hanswered
    obtain ⟨s, hs, hchain, hmerged⟩ := hsome
    obtain ⟨horder, hperm, hsorted⟩ := qsort_pairwise hs
    obtain ⟨-, hcovers⟩ := (resolved_iff_merged hmerged
      fun r hr => merged_listed hsize hperm hr).mp hresolved
    have hne : s ≠ [] := by
      rintro rfl
      have := hperm.length_eq
      rw [List.length_nil] at this
      omega
    have hsplit : s = s.dropLast ++ [s.getLast hne] := (List.dropLast_append_getLast hne).symm
    generalize s.getLast hne = c at hsplit
    generalize s.dropLast = u at hsplit hchain
    subst hsplit
    have hvalid : ∀ r ∈ listed size specs, Valid r := fun r hr => valid_listed hsize hr
    have hbefore : u.Pairwise Before := pairwise_of_chain
      (fun r hr => hvalid r (hperm.mem_iff.mp (List.mem_append_left _ hr))) hchain
    have hnear : Near (listed size specs) := by
      refine near_of_covers horder hperm hvalid hsorted hbefore ((hcovers _).mpr ?_)
      rw [← covers_readRanges hsize hplain hlength]
      have hc : c ∈ listed size specs :=
        hperm.mem_iff.mp (List.mem_append_right _ (List.mem_singleton_self c))
      exact ⟨c, hc, Nat.le_refl _, UInt32.le_iff_toNat_le.mp (hvalid c hc)⟩
    refine ⟨hnear, ?_⟩
    have hsame := Option.some.inj ((qsort_near hnear).symm.trans hs)
    rw [OnlyLast, hsame, List.dropLast_concat]
    exact hchain
  · generalize listed size specs = ranges at hmany
    match ranges with
    | [] => exact ⟨fun a ha => absurd ha List.not_mem_nil, by decide⟩
    | [r] =>
        refine ⟨fun a ha b hb => ?_, ?_⟩
        · rw [List.mem_singleton.mp ha, List.mem_singleton.mp hb]
          exact Nat.lt_add_of_pos_right (by decide)
        · exact List.isChain_nil
    | _ :: _ :: _ => exact absurd (by simp) hmany

/-- Where every number is read as it is meant the answer is as asked if and only if the ranges
are near and only the last two overlap. -/
theorem resolved_iff (hsize : 0 < size.toNat) (hplain : ∀ s ∈ specs, s.Plain size.toNat)
    (hlength : (specsText specs).length < 256) : Resolved size specs ↔
      Near (listed size specs) ∧ OnlyLast (listed size specs) :=
  ⟨onlyLast_of_resolved hsize hplain hlength,
    fun h => resolved_of_onlyLast hsize hplain hlength h.1 h.2⟩

end

/-- `5-9`, `0-2`, `-4` of a resource of twelve bytes -/
def sampleSpecs : List Spec :=
  [.closed ⟨['5'.toUInt8], by decide⟩ ⟨['9'.toUInt8], by decide⟩,
    .closed ⟨['0'.toUInt8], by decide⟩ ⟨['2'.toUInt8], by decide⟩,
    .suffix ⟨['4'.toUInt8], by decide⟩]

theorem resolved_sample : Resolved 12 sampleSpecs ↔
    Near (listed 12 sampleSpecs) ∧ OnlyLast (listed 12 sampleSpecs) :=
  resolved_iff (by decide) (by decide) (by decide)

/-- `7-8`, `5-9`, `0-2`, `-4`: with another range behind the two that overlap the loop runs past
the end. -/
theorem not_resolved_longer : ¬ Resolved 20
    (.closed ⟨['7'.toUInt8], by decide⟩ ⟨['8'.toUInt8], by decide⟩ :: sampleSpecs) :=
  not_resolved_of_none (by decide)

end ULib.RangeResolution
