import ULib.Notifier

/-!
`UNotifier::callForAllEntryDynamic` and `UNotifier::clear` of `notifier.cpp` in
the build with `epoll`, and when their sweep comes to every registered
descriptor without a step from a deleted node of the hash map.
-/

namespace ULib.NotifierSweep

open ULib.GenericHashMap
open ULib.Notifier

/-! ### callForAllEntryDynamic and clear -/

def erase (n : UNotifier) (item : UEventFd) : Option UNotifier := handlerDelete n item

/-- The body of both loops. -/
def visit (function : UEventFd → Bool) (n : UNotifier) (item : UEventFd) : Option UNotifier :=
  if function item then erase n item else some n

/-- The loop over the array, `k` descriptors from `fd` on. -/
def lowSweep (function : UEventFd → Bool) :
    Nat → Nat → UNotifier → Option (List UEventFd × UNotifier)
  | 0, _, n => some ([], n)
  | k + 1, fd, n =>
      match n.loMapFd fd with
      | none => lowSweep function k (fd + 1) n
      | some item =>
          (visit function n item).bind fun n =>
            (lowSweep function k (fd + 1) n).map fun r => (item :: r.1, r.2)

/-- The loop over the hash map, at most `k` nodes. -/
def highSweep (function : UEventFd → Bool) : Nat → UNotifier → Option (List UEventFd × UNotifier)
  | 0, _ => none
  | k + 1, n =>
      (elem n.hiMapFd).bind fun item =>
        (visit function n item).bind fun n =>
          (next n.hiMapFd).bind fun (more, hiMapFd) =>
            let n := { n with hiMapFd := hiMapFd }
            if more then (highSweep function k n).map fun r => (item :: r.1, r.2)
            else some ([item], n)

/-- Both loops, with the items that were visited. -/
def sweep (function : UEventFd → Bool) (n : UNotifier) : Option (List UEventFd × UNotifier) :=
  (lowSweep function (n.maxConnection - 1) 1 n).bind fun low =>
    let (found, hiMapFd) := first low.2.hiMapFd
    let n := { low.2 with hiMapFd := hiMapFd }
    if found then
      (highSweep function (nodes hiMapFd).length n).map fun high => (low.1 ++ high.1, high.2)
    else some (low.1, n)

def callForAllEntryDynamic (function : UEventFd → Bool) (n : UNotifier) :
    Option (List UEventFd × UNotifier) :=
  sweep function n

/-- `clear`, up to where it gives back the tables. -/
def clear (numConnection : Nat) (n : UNotifier) : Option UNotifier :=
  if numConnection ≠ 0 then (sweep (fun item => item.fd ≠ 0) n).map Prod.snd else some n

/-! ### What a sweep should do -/

/-- The registries that come about by calls. -/
inductive Reachable : UNotifier → Prop
  | init (maxConnection : Nat) (hpos : 0 < maxConnection)
      (hroom : maxConnection ≤ HashMap.mallocNum maxConnection) : Reachable (init maxConnection)
  | find {n : UNotifier} (hn : Reachable n) (fd : Nat) : Reachable (find n fd).2
  | insert {n : UNotifier} (hn : Reachable n) (item : UEventFd)
      (hnone : registered n item.fd = none) : Reachable (insert n item)
  | erase {n n' : UNotifier} (hn : Reachable n) (item : UEventFd)
      (hitem : registered n item.fd = some item) (h : erase n item = some n') : Reachable n'
  | sweep {n n' : UNotifier} (hn : Reachable n) (function : UEventFd → Bool)
      (calls : List UEventFd) (h : callForAllEntryDynamic function n = some (calls, n')) :
      Reachable n'

/-- Every registered descriptor from 1 on is visited once, and those for which the function is false
stay registered. -/
def SweepsAll (function : UEventFd → Bool) (n : UNotifier) : Prop :=
  ∃ calls n', callForAllEntryDynamic function n = some (calls, n') ∧ calls.Nodup ∧
    (∀ item, item ∈ calls ↔ 1 ≤ item.fd ∧ registered n item.fd = some item) ∧
      ∀ fd, 1 ≤ fd → registered n' fd = (registered n fd).filter fun item => !function item

def ClearsAll (numConnection : Nat) (n : UNotifier) : Prop :=
  ∃ n', clear numConnection n = some n' ∧ ∀ fd, 1 ≤ fd → registered n' fd = none

/-! ### The array -/

theorem visit_low (function : UEventFd → Bool) {n : UNotifier} {item : UEventFd}
    (hn : Consistent n) (hlt : item.fd < n.maxConnection)
    (hlow : n.loMapFd item.fd = some item) :
    ∃ n', visit function n item = some n' ∧ Consistent n' ∧ n'.hiMapFd = n.hiMapFd ∧
      n'.maxConnection = n.maxConnection ∧
      n'.loMapFd item.fd = (n.loMapFd item.fd).filter (fun item => !function item) ∧
      ∀ d, d ≠ item.fd → n'.loMapFd d = n.loMapFd d := by
  rw [visit, hlow]
  cases hfunction : function item with
  | true =>
      refine ⟨{ n with loMapFd := Function.update n.loMapFd item.fd none }, ?_,
        (hn.update_low hlt (by simp)).1, rfl, rfl, ?_, fun d hd => Function.update_of_ne hd _ _⟩
      · rw [if_pos rfl, erase, handlerDelete, if_pos hlt]
      · dsimp only
        rw [Function.update_self, Option.filter_some_neg (by simp [hfunction])]
  | false =>
      refine ⟨n, if_neg Bool.false_ne_true, hn, rfl, rfl, ?_, fun _ _ => rfl⟩
      rw [hlow, Option.filter_some_pos (by simp [hfunction])]

theorem lowSweep_spec (function : UEventFd → Bool) (k fd : Nat) {n : UNotifier}
    (hn : Consistent n) (hend : fd + k = n.maxConnection) :
    ∃ n', lowSweep function k fd n = some ((List.range' fd k).filterMap n.loMapFd, n') ∧
      Consistent n' ∧ n'.hiMapFd = n.hiMapFd ∧ n'.maxConnection = n.maxConnection ∧
      (∀ d < fd, n'.loMapFd d = n.loMapFd d) ∧
      ∀ d, fd ≤ d → d < n.maxConnection →
        n'.loMapFd d = (n.loMapFd d).filter fun item => !function item := by
  induction k generalizing fd n with
  | zero =>
      refine ⟨n, rfl, hn, rfl, rfl, fun _ _ => rfl, fun d hle hlt => ?_⟩
      omega
  | succ k ih =>
      rw [lowSweep, List.range'_succ, List.filterMap_cons]
      cases hlow : n.loMapFd fd with
      | none =>
          obtain ⟨n', hsweep, hconsistent, hhigh, hmax, hbefore, hafter⟩ :=
            ih (fd + 1) hn (by omega)
          refine ⟨n', hsweep, hconsistent, hhigh, hmax, fun d hd => hbefore d (by omega), ?_⟩
          intro d hle hlt
          rcases Nat.eq_or_lt_of_le hle with rfl | hlt'
          · rw [hbefore fd (Nat.lt_succ_self fd), hlow]
            rfl
          · exact hafter d hlt' hlt
      | some item =>
          obtain rfl : item.fd = fd := hn.low fd item hlow
          obtain ⟨n₁, hvisit, hn₁, hhigh₁, hmax₁, hself, hother⟩ :=
            visit_low function hn (by omega) hlow
          obtain ⟨n', hsweep, hconsistent, hhigh, hmax, hbefore, hafter⟩ :=
            ih (item.fd + 1) hn₁ (by omega)
          have hcalls : (List.range' (item.fd + 1) k).filterMap n₁.loMapFd =
              (List.range' (item.fd + 1) k).filterMap n.loMapFd := by
            apply List.filterMap_congr
            intro d hd
            rw [List.mem_range'_1] at hd
            exact hother d (by omega)
          dsimp only
          rw [hvisit, Option.bind_some, hsweep, hcalls]
          refine ⟨n', rfl, hconsistent, hhigh.trans hhigh₁, hmax.trans hmax₁, ?_, ?_⟩
          · intro d hd
            rw [hbefore d (by omega), hother d (by omega)]
          · intro d hle hlt
            rcases Nat.eq_or_lt_of_le hle with rfl | hlt'
            · rw [hbefore item.fd (Nat.lt_succ_self _), hself]
            · rw [hafter d hlt' (by omega), hother d (by omega)]

/-! ### The hash map -/

section
variable {function : UEventFd → Bool} {n : UNotifier} {c : HashMapNode UEventFd}
  {rest : List (HashMapNode UEventFd)}

/-- The item of a node is registered under its key. -/
theorem registered_of_mem (hn : Consistent n) {i : Nat} (hc : c ∈ n.hiMapFd.table i) :
    c.item.fd = c.key ∧ n.maxConnection ≤ c.item.fd ∧
      registered n c.item.fd = some c.item := by
  have hget := hn.shape.get_of_mem hc
  obtain ⟨hfd, hhigh⟩ := hn.high c.key c.item hget
  rw [hfd]
  refine ⟨rfl, hhigh, ?_⟩
  rw [hn.registered_high hhigh, hget]

theorem highSweep_keeps (hn : Consistent n) (hstands : Stands n.hiMapFd c rest)
    (hfalse : ∀ d ∈ c :: rest, function d.item = false) {k : Nat} (hk : rest.length < k) :
    ∃ hiMapFd, highSweep function k n =
        some ((c :: rest).map (·.item), { n with hiMapFd := hiMapFd }) ∧
      SameEntries n.hiMapFd hiMapFd := by
  induction k generalizing n c rest with
  | zero => exact absurd hk (Nat.not_lt_zero _)
  | succ k ih =>
      obtain ⟨hc, hrest⟩ := List.forall_mem_cons.mp hfalse
      rw [highSweep, hstands.elem hn.shape, Option.bind_some, visit,
        if_neg (by simp [hc]), Option.bind_some]
      cases rest with
      | nil =>
          obtain ⟨hiMapFd, hnext, hsame⟩ := hstands.next_nil hn.shape
          rw [hnext, Option.bind_some]
          exact ⟨hiMapFd, rfl, hsame⟩
      | cons d rest =>
          obtain ⟨hiMapFd, hnext, hsame, hstands'⟩ := hstands.next_cons hn.shape
          obtain ⟨hiMapFd', hsweep, hsame'⟩ :=
            ih (hn.sameEntries hsame).1 hstands' hrest (Nat.lt_of_succ_lt_succ hk)
          rw [hnext, Option.bind_some]
          dsimp only
          rw [if_pos rfl, hsweep]
          exact ⟨hiMapFd', rfl, hsame.trans hsame'⟩

/-- The first node for which the function is true is deleted, and the next step is from it. -/
theorem highSweep_none (hn : Consistent n) (hstands : Stands n.hiMapFd c rest)
    (htrue : ∃ d ∈ c :: rest, function d.item = true) (k : Nat) :
    highSweep function k n = none := by
  induction k generalizing n c rest with
  | zero => rfl
  | succ k ih =>
      rw [highSweep, hstands.elem hn.shape, Option.bind_some, visit]
      cases hfunction : function c.item with
      | true =>
          have hc : c ∈ n.hiMapFd.table n.hiMapFd.index := by
            obtain ⟨front, back, htable, -, -⟩ := hstands
            rw [htable]
            exact List.mem_append_right front List.mem_cons_self
          obtain ⟨-, hhigh, hregistered⟩ := registered_of_mem hn hc
          obtain ⟨n', hdelete, -, -, -, hnext⟩ := hn.handlerDelete hregistered
          rw [if_pos rfl, erase, hdelete, Option.bind_some, hnext hhigh, Option.bind_none]
      | false =>
          rw [if_neg Bool.false_ne_true, Option.bind_some]
          cases rest with
          | nil =>
              obtain ⟨d, hd, htrue⟩ := htrue
              obtain rfl := List.mem_singleton.mp hd
              rw [hfunction] at htrue
              cases htrue
          | cons d rest =>
              obtain ⟨hiMapFd, hnext, hsame, hstands'⟩ := hstands.next_cons hn.shape
              rw [hnext, Option.bind_some]
              dsimp only
              rw [if_pos rfl, ih (hn.sameEntries hsame).1 hstands' ?_]
              · rfl
              · obtain ⟨e, he, htrue⟩ := htrue
                rcases List.mem_cons.mp he with rfl | he
                · rw [hfunction] at htrue
                  cases htrue
                · exact ⟨e, he, htrue⟩

end

/-! ### The whole sweep -/

section
variable {function : UEventFd → Bool} {n : UNotifier}

/-- The items in the order of the sweep. -/
def sequence (n : UNotifier) : List UEventFd :=
  (List.range' 1 (n.maxConnection - 1)).filterMap n.loMapFd ++ (nodes n.hiMapFd).map (·.item)

theorem high_nodes (hn : Consistent n) (P : UEventFd → Prop) :
    (∀ fd item, n.maxConnection ≤ fd → registered n fd = some item → P item) ↔
      ∀ d ∈ nodes n.hiMapFd, P d.item := by
  constructor
  · intro h d hd
    obtain ⟨i, -, hd⟩ := List.mem_flatMap.mp hd
    obtain ⟨-, hhigh, hregistered⟩ := registered_of_mem hn hd
    exact h d.item.fd d.item hhigh hregistered
  · intro h fd item hhigh hregistered
    rw [hn.registered_high hhigh] at hregistered
    obtain ⟨d, hd, -, rfl⟩ := hn.shape.mem_nodes.mpr hregistered
    exact h d hd

theorem mem_sequence (hn : Consistent n) {item : UEventFd} :
    item ∈ sequence n ↔ 1 ≤ item.fd ∧ registered n item.fd = some item := by
  rw [sequence, List.mem_append, List.mem_filterMap, List.mem_map]
  constructor
  · rintro (⟨fd, hfd, hlow⟩ | ⟨d, hd, rfl⟩)
    · obtain rfl := hn.low fd item hlow
      rw [List.mem_range'_1] at hfd
      refine ⟨hfd.1, ?_⟩
      rw [hn.registered_low (by omega), hlow]
    · obtain ⟨i, -, hd⟩ := List.mem_flatMap.mp hd
      obtain ⟨-, hhigh, hregistered⟩ := registered_of_mem hn hd
      exact ⟨Nat.le_trans hn.max_pos hhigh, hregistered⟩
  · rintro ⟨hpos, hregistered⟩
    rcases Nat.lt_or_ge item.fd n.maxConnection with hlow | hhigh
    · rw [hn.registered_low hlow] at hregistered
      refine Or.inl ⟨item.fd, ?_, hregistered⟩
      rw [List.mem_range'_1]
      omega
    · rw [hn.registered_high hhigh] at hregistered
      obtain ⟨d, hd, -, rfl⟩ := hn.shape.mem_nodes.mpr hregistered
      exact Or.inr ⟨d, hd, rfl⟩

theorem sequence_nodup (hn : Consistent n) : (sequence n).Nodup := by
  rw [sequence, List.nodup_append]
  refine ⟨?_, ?_, ?_⟩
  · have hrange : (List.range' 1 (n.maxConnection - 1)).Nodup := List.nodup_range'
    refine hrange.filterMap fun fd fd' item h h' => ?_
    exact (hn.low fd item h).symm.trans (hn.low fd' item h')
  · have hkeys : (nodes n.hiMapFd).map (·.key) = ((nodes n.hiMapFd).map (·.item)).map (·.fd) := by
      rw [List.map_map]
      apply List.map_congr_left
      intro d hd
      obtain ⟨i, -, hd⟩ := List.mem_flatMap.mp hd
      exact (registered_of_mem hn hd).1.symm
    have hnodup := hn.shape.keys_nodup
    rw [hkeys] at hnodup
    exact hnodup.of_map _
  · rintro item hitem other hother rfl
    obtain ⟨fd, hfd, hlow⟩ := List.mem_filterMap.mp hitem
    obtain ⟨d, hd, rfl⟩ := List.mem_map.mp hother
    obtain ⟨i, -, hd⟩ := List.mem_flatMap.mp hd
    obtain ⟨-, hhigh, -⟩ := registered_of_mem hn hd
    rw [hn.low fd d.item hlow] at hhigh
    rw [List.mem_range'_1] at hfd
    omega

/-- No node of the hash map is deleted. -/
theorem sweep_keeps (hn : Consistent n)
    (hfalse : ∀ d ∈ nodes n.hiMapFd, function d.item = false) :
    ∃ n', sweep function n = some (sequence n, n') ∧ Consistent n' ∧
      ∀ fd, 1 ≤ fd → registered n' fd = (registered n fd).filter fun item => !function item := by
  have hmax := hn.max_pos
  obtain ⟨n₁, hlow, hn₁, hhigh₁, hmax₁, -, hafter⟩ :=
    lowSweep_spec function (n.maxConnection - 1) 1 hn (by omega)
  have hfilter : ∀ fd, 1 ≤ fd →
      registered n₁ fd = (registered n fd).filter fun item => !function item := by
    intro fd hfd
    rcases Nat.lt_or_ge fd n.maxConnection with hlt | hge
    · rw [hn₁.registered_low (by omega), hn.registered_low hlt, hafter fd hfd hlt]
    · rw [hn₁.registered_high (by omega), hhigh₁, ← hn.registered_high hge]
      cases hitem : registered n fd with
      | none => rfl
      | some item =>
          have hitem' := (high_nodes hn (function · = false)).mpr hfalse fd item hge hitem
          rw [Option.filter_some_pos (by simp [hitem'])]
  rw [sweep, hlow, Option.bind_some, sequence, ← hhigh₁]
  rw [← hhigh₁] at hfalse
  dsimp only
  cases hnodes : nodes n₁.hiMapFd with
  | nil =>
      obtain ⟨hiMapFd, hfirst, hsame⟩ := first_nil hnodes
      obtain ⟨hconsistent, hregistered⟩ := hn₁.sameEntries hsame
      rw [hfirst]
      dsimp only
      rw [if_neg Bool.false_ne_true, List.map_nil, List.append_nil]
      refine ⟨_, rfl, hconsistent, fun fd hfd => ?_⟩
      rw [hregistered, hfilter fd hfd]
  | cons c rest =>
      obtain ⟨hiMapFd, hfirst, hsame, hstands⟩ := first_cons hnodes
      obtain ⟨hconsistent, hregistered⟩ := hn₁.sameEntries hsame
      rw [hnodes] at hfalse
      obtain ⟨hiMapFd', hsweep, hsame'⟩ := highSweep_keeps hconsistent hstands hfalse
        (k := (nodes hiMapFd).length) (by
          rw [hsame.nodes_eq, hnodes]
          exact Nat.lt_succ_self _)
      obtain ⟨hconsistent', hregistered'⟩ := hconsistent.sameEntries hsame'
      rw [hfirst]
      dsimp only
      rw [if_pos rfl, hsweep]
      refine ⟨_, rfl, hconsistent', fun fd hfd => ?_⟩
      rw [← hfilter fd hfd, ← hregistered, ← hregistered']

theorem sweep_none (hn : Consistent n)
    (htrue : ∃ d ∈ nodes n.hiMapFd, function d.item = true) : sweep function n = none := by
  have hmax := hn.max_pos
  obtain ⟨n₁, hlow, hn₁, hhigh₁, -, -, -⟩ :=
    lowSweep_spec function (n.maxConnection - 1) 1 hn (by omega)
  rw [← hhigh₁] at htrue
  rw [sweep, hlow, Option.bind_some]
  dsimp only
  cases hnodes : nodes n₁.hiMapFd with
  | nil =>
      rw [hnodes] at htrue
      obtain ⟨d, hd, -⟩ := htrue
      cases hd
  | cons c rest =>
      obtain ⟨hiMapFd, hfirst, hsame, hstands⟩ := first_cons hnodes
      rw [hnodes] at htrue
      rw [hfirst]
      dsimp only
      rw [if_pos rfl, highSweep_none (hn₁.sameEntries hsame).1 hstands htrue]
      rfl

theorem sweep_cases (hn : Consistent n) (function : UEventFd → Bool) :
    (∀ d ∈ nodes n.hiMapFd, function d.item = false) ∨ sweep function n = none := by
  by_cases htrue : ∃ d ∈ nodes n.hiMapFd, function d.item = true
  · exact Or.inr (sweep_none hn htrue)
  · refine Or.inl fun d hd => ?_
    rw [← Bool.not_eq_true]
    exact fun h => htrue ⟨d, hd, h⟩

end

theorem Reachable.consistent {n : UNotifier} (h : Reachable n) : Consistent n := by
  induction h with
  | init maxConnection hpos hroom => exact consistent_init hpos hroom
  | find _ fd ih => exact (ih.find fd).1
  | insert _ item hnone ih => exact (ih.insert hnone).1
  | erase _ item hitem h ih =>
      obtain ⟨n', hdelete, hn', -⟩ := ih.handlerDelete hitem
      obtain rfl := Option.some.inj (hdelete.symm.trans h)
      exact hn'
  | sweep _ function calls h ih =>
      rw [callForAllEntryDynamic] at h
      rcases sweep_cases ih function with hfalse | hnone
      · obtain ⟨n', hsweep, hn', -⟩ := sweep_keeps ih hfalse
        obtain ⟨-, rfl⟩ := Prod.mk.inj (Option.some.inj (hsweep.symm.trans h))
        exact hn'
      · rw [hnone] at h
        cases h

theorem sweepsAll_iff {n : UNotifier} (hn : Consistent n) (function : UEventFd → Bool) :
    SweepsAll function n ↔
      ∀ fd item, n.maxConnection ≤ fd → registered n fd = some item → function item = false := by
  rw [high_nodes hn (function · = false)]
  constructor
  · rintro ⟨calls, n', hsweep, -⟩
    refine (sweep_cases hn function).resolve_right fun hnone => ?_
    rw [callForAllEntryDynamic, hnone] at hsweep
    cases hsweep
  · intro hfalse
    obtain ⟨n', hsweep, -, hregistered⟩ := sweep_keeps hn hfalse
    exact ⟨sequence n, n', hsweep, sequence_nodup hn, fun item => mem_sequence hn, hregistered⟩

/-- With connections counted `clear` is a sweep for all that is registered. -/
theorem clearsAll_counted {n : UNotifier} (hn : Consistent n) {numConnection : Nat}
    (hcount : numConnection ≠ 0) :
    ClearsAll numConnection n ↔ ∀ fd, n.maxConnection ≤ fd → registered n fd = none := by
  have hmax := hn.max_pos
  have hnodes : (∀ d ∈ nodes n.hiMapFd, decide (d.item.fd ≠ 0) = false) ↔
      ∀ fd, n.maxConnection ≤ fd → registered n fd = none := by
    rw [← high_nodes hn fun item => decide (item.fd ≠ 0) = false]
    refine forall_congr' fun fd => ⟨fun h hhigh => ?_, fun h item hhigh hitem => ?_⟩
    · rw [Option.eq_none_iff_forall_ne_some]
      intro item hitem
      have hzero := of_decide_eq_false (h item hhigh hitem)
      rw [hn.fd_eq hitem] at hzero
      omega
    · rw [h hhigh] at hitem
      cases hitem
  rw [ClearsAll, clear, if_pos hcount, ← hnodes]
  constructor
  · rintro ⟨n', hclear, -⟩
    refine (sweep_cases hn fun item => decide (item.fd ≠ 0)).resolve_right fun hnone => ?_
    rw [hnone] at hclear
    cases hclear
  · intro hfalse
    obtain ⟨n', hsweep, -, hregistered⟩ :=
      @sweep_keeps (fun item => item.fd ≠ 0) n hn hfalse
    refine ⟨n', by rw [hsweep, Option.map_some], fun fd hfd => ?_⟩
    rw [hregistered fd hfd]
    cases hitem : registered n fd with
    | none => rfl
    | some item =>
        have hne : item.fd ≠ 0 := by
          rw [hn.fd_eq hitem]
          omega
        exact Option.filter_some_neg (by simp [hne])

/-- The sweep does what it should exactly when the function is false for what lies in the hash map,
and `clear` exactly when there is nothing to erase, or connections are counted and nothing lies in
the hash map. -/
theorem sweeps_iff {n : UNotifier} (hn : Reachable n) (function : UEventFd → Bool)
    (numConnection : Nat) :
    (SweepsAll function n ↔
        ∀ fd item, n.maxConnection ≤ fd → registered n fd = some item → function item = false) ∧
      (ClearsAll numConnection n ↔
        (∀ fd, 1 ≤ fd → registered n fd = none) ∨
          numConnection ≠ 0 ∧ ∀ fd, n.maxConnection ≤ fd → registered n fd = none) := by
  have hconsistent := hn.consistent
  have hmax := hconsistent.max_pos
  refine ⟨sweepsAll_iff hconsistent function, ?_⟩
  by_cases hcount : numConnection = 0
  · subst hcount
    simp only [ClearsAll, clear, ne_eq, not_true_eq_false, if_false, false_and, or_false]
    constructor
    · rintro ⟨n', ⟨⟩, hnone⟩
      exact hnone
    · exact fun hnone => ⟨n, rfl, hnone⟩
  · rw [clearsAll_counted hconsistent hcount]
    constructor
    · exact fun hhigh => Or.inr ⟨hcount, hhigh⟩
    · rintro (hnone | ⟨-, hhigh⟩) fd hfd
      · exact hnone fd (Nat.le_trans hmax hfd)
      · exact hhigh fd hfd

/-- Three descriptors, the last two of them in the hash map. -/
def three : UNotifier :=
  insert (insert (insert (init 2) ⟨1, .readIn⟩) ⟨5, .readIn⟩) ⟨7, .writeOut⟩

theorem reachable_three : Reachable three :=
  (((Reachable.init 2 (by decide) (by decide)).insert ⟨1, .readIn⟩ rfl).insert ⟨5, .readIn⟩
    rfl).insert ⟨7, .writeOut⟩ (by decide)

/-- The low one is erased; to clear the registry would be undefined. -/
theorem sweeps_three : SweepsAll (fun item => item.fd = 1) three ∧ ¬ ClearsAll 3 three := by
  obtain ⟨hsweeps, hclears⟩ := sweeps_iff reachable_three (fun item => item.fd = 1) 3
  refine ⟨hsweeps.mpr fun fd item hhigh hitem => ?_, fun h => ?_⟩
  · have hfd := reachable_three.consistent.fd_eq hitem
    have hmax : 2 ≤ fd := hhigh
    exact decide_eq_false (by omega)
  · rcases hclears.mp h with hnone | ⟨-, hnone⟩
    · exact absurd (hnone 1 (by decide)) (by decide)
    · exact absurd (hnone 5 (by decide)) (by decide)

/-- When the first of the high ones is erased, the sweep goes on from its node, which is deleted. -/
theorem not_sweeps : ¬ SweepsAll (fun item => item.fd = 5) three ∧ ¬ ClearsAll 3 three := by
  constructor
  · rintro ⟨calls, n', hsweep, -⟩
    cases hsweep
  · rintro ⟨n', hclear, -⟩
    cases hclear

end ULib.NotifierSweep
