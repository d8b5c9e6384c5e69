import ULib.VectorWrite

/-!
What `USocketExt::write` and `writev` leave behind when not everything could be
written: the number of bytes that are gone, and the vector, of which `writev`
cuts off what is written.
-/

namespace ULib.PartialWrite

open ULib.KeyComparison (Bytes)
open ULib.VectorWrite

/-! ### USocketExt::write and writev -/

/-- What is taken, and the count that is returned; none where the next round is
still to come. There is no wait between the rounds. -/
def write : List Round → Bytes → Nat → Bytes × Option Nat
  | [], _, _ => ([], none)
  | .failed :: _, _, iBytesWrite => ([], some iBytesWrite)
  | .wrote value _ :: rounds, left, iBytesWrite =>
      if left.length ≤ value then (left, some (iBytesWrite + value))
      else
        let (taken, count) := write rounds (left.drop value) (iBytesWrite + value)
        (left.take value ++ taken, count)

/-- The loop of `writev` with the vector as it leaves it. -/
def writevLeft : List Round → List Iovec → Nat → UInt32 → Int32 → Bytes →
    Option (Bytes × Option Int32 × List Iovec)
  | [], iov, _, _, _, taken => some (taken, none, iov)
  | .failed :: _, iov, _, _, iBytesWrite, taken => some (taken, some iBytesWrite, iov)
  | .wrote value res :: rounds, iov, idx, ncount, iBytesWrite, taken =>
      let taken := taken ++ (offered iov).take value
      let iBytesWrite := iBytesWrite + Int32.ofNat value
      let ncount := ncount - UInt32.ofNat value
      if ncount = 0 then some (taken, some iBytesWrite, iov)
      else
        (advance iov idx value).bind fun (iov, idx) =>
          if res = 1 then writevLeft rounds iov idx ncount iBytesWrite taken
          else some (taken, some iBytesWrite, iov)

/-! ### What is left -/

theorem write_spec {rounds : List Round} {left : Bytes} (n : Nat)
    (hpossible : Possible left.length rounds) :
    ∃ m ≤ left.length, (write rounds left n).1 = left.take m ∧
      ∀ count, (write rounds left n).2 = some count → count = n + m := by
  induction rounds generalizing left n with
  | nil => exact ⟨0, Nat.zero_le _, rfl, nofun⟩
  | cons round rounds ih =>
      cases round with
      | failed => exact ⟨0, Nat.zero_le _, rfl, fun count h => (Option.some.inj h).symm⟩
      | wrote value res =>
          obtain ⟨-, hle, hpossible⟩ := hpossible
          rw [write]
          split
          · next hall =>
            obtain rfl := Nat.le_antisymm hle hall
            exact ⟨left.length, Nat.le_refl _, List.take_length.symm,
              fun count h => (Option.some.inj h).symm⟩
          · rw [← List.length_drop] at hpossible
            obtain ⟨m, hm, htaken, hcount⟩ := ih (n + value) hpossible
            rw [List.length_drop] at hm
            refine ⟨value + m, by omega, ?_, fun count h => ?_⟩
            · dsimp only
              rw [htaken, List.take_add]
            · rw [hcount count h, Nat.add_assoc]

/-- The vector stands where the bytes are that are not taken. -/
theorem writevLeft_spec {rounds : List Round} {iov : List Iovec} {idx : Nat} {lens : List Nat}
    {left : Bytes} (h : Stands iov idx lens left) {ncount : UInt32}
    (hncount : ncount.toNat = left.length) (hpossible : Possible left.length rounds)
    (hends : EndsClose lens rounds) (n : Nat) (taken : Bytes) :
    ∃ m ≤ left.length, ∃ count iov',
      writevLeft rounds iov idx ncount (Int32.ofNat n) taken =
        some (taken ++ left.take m, count, iov') ∧
      (∀ k, count = some k → k = Int32.ofNat (n + m)) ∧
      (m < left.length → offered iov' = left.drop m) := by
  induction rounds generalizing iov idx lens left ncount n taken with
  | nil =>
      exact ⟨0, Nat.zero_le _, none, iov, by rw [writevLeft, List.take_zero, List.append_nil],
        nofun, fun _ => h.offered_eq⟩
  | cons round rounds ih =>
      cases round with
      | failed =>
          exact ⟨0, Nat.zero_le _, some (Int32.ofNat n), iov,
            by rw [writevLeft, List.take_zero, List.append_nil],
            fun k hk => (Option.some.inj hk).symm, fun _ => h.offered_eq⟩
      | wrote value res =>
          obtain ⟨-, hle, hpossible⟩ := hpossible
          have hle' : value ≤ ncount.toNat := hncount.symm ▸ hle
          rw [EndsClose, ← h.length_left] at hends
          rw [writevLeft, h.offered_eq, ← Int32.ofNat_add]
          dsimp only
          by_cases hall : value = left.length
          · rw [if_pos ((sub_eq_zero_iff hle').mpr (hall.trans hncount.symm))]
            exact ⟨value, hle, _, iov, rfl, fun k hk => (Option.some.inj hk).symm,
              fun hlt => absurd hall (Nat.ne_of_lt hlt)⟩
          · obtain ⟨htwo, hends⟩ := hends.resolve_left hall
            obtain ⟨iov', idx', hadvance, hstands⟩ :=
              (h.advanced (Nat.lt_of_le_of_ne hle hall)).2 htwo
            rw [if_neg fun h => hall (((sub_eq_zero_iff hle').mp h).trans hncount), hadvance,
              Option.bind_some]
            split
            · next hres =>
              have hncount' : (ncount - UInt32.ofNat value).toNat = (left.drop value).length := by
                rw [toNat_sub_ofNat hle', hncount, List.length_drop]
              obtain ⟨m, hm, count, iov'', hwrite, hcount, hrest⟩ := ih hstands hncount'
                (by rwa [List.length_drop]) (hends hres) (n + value) (taken ++ left.take value)
              rw [List.length_drop] at hm hrest
              refine ⟨value + m, by omega, count, iov'', ?_, fun k hk => ?_, fun hlt => ?_⟩
              · rw [hwrite, List.append_assoc, List.take_add]
              · rw [hcount k hk, Nat.add_assoc]
              · rw [hrest (by omega), List.drop_drop]
            · exact ⟨value, hle, _, iov', rfl, fun k hk => (Option.some.inj hk).symm,
                fun _ => hstands.offered_eq⟩

/-- Of two buffers, every write ends in the one where the last one ended or in
the one behind it. -/
theorem endsClose_two {rounds : List Round} {lens : List Nat} (hlens : lens.length ≤ 2)
    (hpossible : Possible lens.sum rounds) : EndsClose lens rounds := by
  induction rounds generalizing lens with
  | nil => trivial
  | cons round rounds ih =>
      cases round with
      | failed => trivial
      | wrote value res =>
          obtain ⟨-, hle, hpossible⟩ := hpossible
          have htake : lens.take 2 = lens := List.take_of_length_le hlens
          refine .inr ⟨by rwa [htake], fun _ => ?_⟩
          have hsum : (lengthsBehind lens value).sum = lens.sum - value ∧
              (lengthsBehind lens value).length ≤ 2 := by
            match lens, hlens with
            | [], _ => exact ⟨(Nat.zero_sub value).symm, Nat.zero_le _⟩
            | [l], _ => exact ⟨rfl, Nat.le_succ 1⟩
            | [l, m], _ =>
                simp only [List.sum_cons, List.sum_nil] at hle ⊢
                rw [lengthsBehind]
                split
                · exact ⟨by simp only [List.sum_cons, List.sum_nil]; omega, Nat.le_refl 2⟩
                · exact ⟨by simp only [List.sum_cons, List.sum_nil]; omega, Nat.le_succ 1⟩
          exact ih hsum.2 (by rwa [hsum.1])

end ULib.PartialWrite
