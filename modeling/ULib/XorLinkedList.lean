import ULib.ByteMemory

/-!
Lists in memory whose items hold one word each, the xor of the positions of the
two neighbours. Zero stands for no neighbour; a list is entered at its head.
-/

namespace ULib.XorLinkedList

open ULib.ByteMemory

/-- The item at `cur` comes after `prev` and is followed by the items `ps`. -/
def Linked (m : Mem) : Nat → Nat → List Nat → Prop
  | prev, cur, [] => ByteMemory.get m cur = prev
  | prev, cur, p :: ps => ByteMemory.get m cur = prev ^^^ p ∧ Linked m cur p ps

/-- The first `n` items met on a walk that came from `prev` to `pos`. -/
def follow (m : Mem) : Nat → Nat → Nat → List Nat
  | 0, _, _ => []
  | n + 1, prev, pos =>
      if pos = 0 then [] else pos :: follow m n pos (prev ^^^ ByteMemory.get m pos)

/-- The last item of a list that is entered at `cur`. -/
def lastOf : Nat → List Nat → Nat
  | cur, [] => cur
  | _, p :: ps => lastOf p ps

theorem lastOf_mem (cur : Nat) (ps : List Nat) : lastOf cur ps ∈ cur :: ps := by
  induction ps generalizing cur with
  | nil => exact List.mem_cons_self
  | cons p ps ih => exact List.mem_cons_of_mem cur (ih p)

theorem xor_cancel_left (a b : Nat) : a ^^^ (a ^^^ b) = b := by
  rw [← Nat.xor_assoc, Nat.xor_self, Nat.zero_xor]

theorem follow_eq_take {m : Mem} {ps : List Nat} {prev cur : Nat} (h : Linked m prev cur ps)
    (hpos : ∀ p ∈ ps, p ≠ 0) (n : Nat) :
    follow m n cur (prev ^^^ ByteMemory.get m cur) = ps.take n := by
  induction ps generalizing prev cur n with
  | nil =>
      have hend : prev ^^^ ByteMemory.get m cur = 0 := by rw [h, Nat.xor_self]
      rw [hend]
      cases n <;> simp [follow]
  | cons p ps ih =>
      obtain ⟨hcur, hrest⟩ := h
      rw [hcur, xor_cancel_left]
      cases n with
      | zero => rfl
      | succ n =>
          have hp := hpos p List.mem_cons_self
          rw [follow, if_neg hp, List.take_succ_cons,
            ih hrest (fun q hq => hpos q (List.mem_cons_of_mem p hq))]

/-- The walk from the head of a list. -/
theorem follow_head {m : Mem} {ps : List Nat} {b : Nat} (h : Linked m 0 b ps)
    (hpos : ∀ p ∈ ps, p ≠ 0) (n : Nat) : follow m n b (ByteMemory.get m b) = ps.take n := by
  have hwalk := follow_eq_take h hpos n
  rwa [Nat.zero_xor] at hwalk

theorem Linked.congr {m m' : Mem} {ps : List Nat} {prev cur : Nat} (h : Linked m prev cur ps)
    (hsame : ∀ q ∈ cur :: ps, ByteMemory.get m' q = ByteMemory.get m q) :
    Linked m' prev cur ps := by
  induction ps generalizing prev cur with
  | nil => exact (hsame cur List.mem_cons_self).trans h
  | cons p ps ih =>
      exact ⟨(hsame cur List.mem_cons_self).trans h.1,
        ih h.2 fun q hq => hsame q (List.mem_cons_of_mem cur hq)⟩

theorem Linked.head_eq {m : Mem} {ps : List Nat} {b : Nat} (h : Linked m 0 b ps) :
    ByteMemory.get m b = ps.headD 0 := by
  cases ps with
  | nil => exact h
  | cons p ps => simpa using h.1

/-- A new item directly after the head. -/
theorem Linked.push {m m' : Mem} {ps : List Nat} {b w : Nat} (h : Linked m 0 b ps)
    (hhead : ByteMemory.get m' b = w)
    (hnew : ByteMemory.get m' w = ByteMemory.get m b ^^^ b)
    (hfirst : ∀ p, ps.head? = some p → ByteMemory.get m' p = b ^^^ w ^^^ ByteMemory.get m p)
    (hrest : ∀ p ∈ ps.tail, ByteMemory.get m' p = ByteMemory.get m p) :
    Linked m' 0 b (w :: ps) := by
  refine ⟨by rw [hhead, Nat.zero_xor], ?_⟩
  cases ps with
  | nil =>
      have hnone : ByteMemory.get m b = 0 := h
      show ByteMemory.get m' w = b
      rw [hnew, hnone, Nat.zero_xor]
  | cons p ps =>
      obtain ⟨hb, hps⟩ := h
      refine ⟨by rw [hnew, hb, Nat.zero_xor, Nat.xor_comm], ?_⟩
      have hp := hfirst p rfl
      -- the old first item now comes after `w` instead of `b`
      cases ps with
      | nil =>
          have hlast : ByteMemory.get m p = b := hps
          show ByteMemory.get m' p = w
          rw [hp, hlast, Nat.xor_comm, xor_cancel_left]
      | cons q ps =>
          obtain ⟨hpq, hps⟩ := hps
          refine ⟨?_, hps.congr fun x hx => hrest x hx⟩
          rw [hp, hpq, Nat.xor_comm b w, Nat.xor_assoc, xor_cancel_left]

/-- The word of the last item is the position before it. -/
theorem Linked.get_last {m : Mem} {xs : List Nat} {prev cur p : Nat}
    (h : Linked m prev cur (xs ++ [p])) : ByteMemory.get m p = lastOf cur xs := by
  induction xs generalizing prev cur with
  | nil => exact h.2
  | cons x xs ih => exact ih h.2

/-- The last item is dropped. -/
theorem Linked.pop {m m' : Mem} {xs : List Nat} {prev cur p : Nat}
    (h : Linked m prev cur (xs ++ [p])) (hnodup : (cur :: xs).Nodup)
    (hlast : ByteMemory.get m' (lastOf cur xs) = p ^^^ ByteMemory.get m (lastOf cur xs))
    (hrest : ∀ q ∈ cur :: xs, q ≠ lastOf cur xs → ByteMemory.get m' q = ByteMemory.get m q) :
    Linked m' prev cur xs := by
  induction xs generalizing prev cur with
  | nil =>
      have hcur : ByteMemory.get m cur = prev ^^^ p := h.1
      have hlast' : ByteMemory.get m' cur = p ^^^ ByteMemory.get m cur := hlast
      show ByteMemory.get m' cur = prev
      rw [hlast', hcur, Nat.xor_comm prev, xor_cancel_left]
  | cons x xs ih =>
      obtain ⟨hcur, hnodup⟩ := List.nodup_cons.mp hnodup
      refine ⟨?_, ih h.2 hnodup hlast fun q hq => hrest q (List.mem_cons_of_mem cur hq)⟩
      rw [hrest cur List.mem_cons_self fun heq => hcur (heq ▸ lastOf_mem x xs)]
      exact h.1

end ULib.XorLinkedList
