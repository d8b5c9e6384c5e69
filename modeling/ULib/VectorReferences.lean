import ULib.VectorOperations

/-!
The references that a `UVector<UString>` keeps: `u_construct` and `u_destroy`
of `container/construct.h` count the owners of a representation, which is freed
when the last one is gone. Two of the operations count wrong: `top` gives back
the reference of the vector with the string that it returns, and `assign` drops
only as many of the old elements as there are new ones.
-/

namespace ULib.VectorReferences

open ULib.HashMap (maxCount)
open ULib.Runs
open ULib.VectorHeap (UVector load store created reserve)
open ULib.VectorOperations

/-! ### Counting -/

/-- The field `references` of the representations, which there is none of for
those that are freed. -/
abbrev References := Nat → Option Nat

/-- `hold`, or `n` at once as in `u_construct(rep, n)`. -/
def hold (m : References) (r n : Nat) : Option References :=
  (m r).map fun k => Function.update m r (some (k + n))

def release (m : References) (r : Nat) : Option References :=
  (m r).map fun k => Function.update m r (if k = 0 then none else some (k - 1))

/-- `u_destroy(rep, n)` -/
def releases (m : References) (rs : List Nat) : Option References := rs.foldlM release m

/-- The entries that `u_destroy` goes through. -/
def entries (v : UVector Nat) (start n : Nat) : Option (List Nat) :=
  (List.range n).mapM fun k => load v (start + k)

/-! ### The calls of a program -/

/-- A vector of strings, and the strings of the program that uses it. -/
structure Program where
  references : References
  next : Nat
  vec : UVector Nat
  handles : List Nat

def start (n : Nat) : Program := ⟨fun _ => none, 0, created n, []⟩

/-- What a program does. The elements it passes are strings of its own, given
by their positions. -/
inductive Use where
  | create
  | copy (i : Nat)
  | drop (i : Nat)
  | pushText
  | call (c : Call Nat)
  deriving DecidableEq, Repr

variable (p : Program)

/-- A new representation. -/
def Program.allocate : Program :=
  { p with references := Function.update p.references p.next (some 0), next := p.next + 1 }

/-- `UString(rep)`, which is returned. -/
def Program.take (r : Nat) : Option (Option Nat × Program) := do
  let m ← hold p.references r 1
  some (some r, { p with references := m, handles := p.handles ++ [r] })

/-- A call for strings. -/
def Program.call : Call Nat → Option (Option Nat × Program)
  | .push i => do
      let r ← p.handles[i]?
      let references ← hold p.references r 1
      let vec ← push p.vec r
      some (none, { p with references, vec })
  | .pop => do
      let (r, vec) ← pop p.vec
      let (result, p) ← Program.take { p with vec } r
      let references ← release p.references r
      some (result, { p with references })
  | .top => do
      let r ← top p.vec
      let (result, p) ← Program.take p r
      let references ← release p.references r
      some (result, { p with references })
  | .at pos => do
      let r ← load p.vec pos
      Program.take p r
  | .replace pos i => do
      let r ← p.handles[i]?
      let references ← hold p.references r 1
      let old ← load p.vec pos
      let references ← release references old
      let vec ← store p.vec pos r
      some (none, { p with references, vec })
  | .insert pos i => do
      let r ← p.handles[i]?
      let references ← hold p.references r 1
      let vec ← insert p.vec pos r
      some (none, { p with references, vec })
  | .insertCopies pos n i => do
      let r ← p.handles[i]?
      let references ← hold p.references r n
      let vec ← insertCopies p.vec pos n r
      some (none, { p with references, vec })
  | .erase pos => do
      let old ← load p.vec pos
      let references ← release p.references old
      let vec ← erase p.vec pos
      some (none, { p with references, vec })
  | .eraseRange first last => do
      let old ← entries p.vec first (last - first)
      let references ← releases p.references old
      let vec ← eraseRange p.vec first last
      some (none, { p with references, vec })
  | .swap i j => do
      let vec ← swap p.vec i j
      some (none, { p with vec })
  | .assign n i => do
      let r ← p.handles[i]?
      let references ← hold p.references r n
      let old ← entries p.vec 0 (min n p.vec.length)
      let references ← releases references old
      let vec ← assign p.vec n r
      some (none, { p with references, vec })
  | .reserve n => do
      let vec ← reserve p.vec n
      some (none, { p with vec })
  | .clear => do
      let old ← entries p.vec 0 p.vec.length
      let references ← releases p.references old
      some (none, { p with references, vec := { p.vec with length := 0 } })

/-- What the program does next, and the string that is returned to it. There is
no outcome where a string is touched that was freed. -/
def Program.use : Use → Option (Option Nat × Program)
  | .create => some (none, { p.allocate with handles := p.handles ++ [p.next] })
  | .copy i => do
      let r ← p.handles[i]?
      let (_, p) ← Program.take p r
      some (none, p)
  | .drop i => do
      let r ← p.handles[i]?
      let references ← release p.references r
      some (none, { p with references, handles := p.handles.eraseIdx i })
  | .pushText => do
      let references ← hold p.allocate.references p.next 1
      let vec ← push p.vec p.next
      some (none, { p.allocate with references, vec })
  | .call c => p.call c

/-! ### The owners -/

/-- The strings in the vector and those of the program, with the references
that were lost: those that nobody gives back, and those that were given back
twice. -/
structure Ledger where
  items : List Nat
  handles : List Nat
  next : Nat
  leaked : List Nat
  stolen : List Nat

def Ledger.empty : Ledger := ⟨[], [], 0, [], []⟩

namespace Ledger

variable (a : Ledger)

/-- The string of the program at a position. -/
def elem (i : Nat) : Nat := a.handles[i]?.getD 0

/-- A call with the strings themselves. -/
def named : Call Nat → Call Nat
  | .push i => .push (a.elem i)
  | .replace pos i => .replace pos (a.elem i)
  | .insert pos i => .insert pos (a.elem i)
  | .insertCopies pos n i => .insertCopies pos n (a.elem i)
  | .assign n i => .assign n (a.elem i)
  | c => c

/-- The string that a call returns. -/
def answer (c : Call Nat) : Option Nat := VectorOperations.answer a.items (a.named c)

/-- The string that a call takes references of, and how many. -/
def held : Call Nat → Option (Nat × Nat)
  | .push i => some (a.elem i, 1)
  | .replace _ i => some (a.elem i, 1)
  | .insert _ i => some (a.elem i, 1)
  | .insertCopies _ n i => some (a.elem i, n)
  | .assign n i => some (a.elem i, n)
  | c => (a.answer c).map fun r => (r, 1)

/-- The strings that a call gives back references of. -/
def released : Call Nat → List Nat
  | .pop => a.items.getLast?.toList
  | .top => a.items.getLast?.toList
  | .replace pos _ => a.items[pos]?.toList
  | .erase pos => a.items[pos]?.toList
  | .eraseRange first last => (a.items.drop first).take (last - first)
  | .assign n _ => a.items.take n
  | .clear => a.items
  | _ => []

/-- The old elements that `assign` forgets. -/
def leaks : Call Nat → List Nat
  | .assign n _ => a.items.drop n
  | _ => []

/-- The element of which `top` gives back the reference of the vector. -/
def steals : Call Nat → List Nat
  | .top => a.items.getLast?.toList
  | _ => []

def step : Use → Ledger
  | .create => { a with handles := a.handles ++ [a.next], next := a.next + 1 }
  | .copy i => { a with handles := a.handles ++ [a.elem i] }
  | .drop i => { a with handles := a.handles.eraseIdx i }
  | .pushText =>
      { a with items := a.items ++ [a.next], next := a.next + 1, leaked := a.leaked ++ [a.next] }
  | .call c =>
      { a with
        items := VectorOperations.next a.items (a.named c)
        handles := a.handles ++ (a.answer c).toList
        leaked := a.leaked ++ a.leaks c
        stolen := a.stolen ++ a.steals c }

/-- The string that is returned. -/
def reply : Use → Option Nat
  | .call c => a.answer c
  | _ => none

/-- The position among the strings of the program of the one that a call passes. -/
def passed : Call Nat → Option Nat
  | .push i => some i
  | .replace _ i => some i
  | .insert _ i => some i
  | .insertCopies _ _ i => some i
  | .assign _ i => some i
  | _ => none

/-- The positions are there, and there is room for the elements. -/
def Permits : Use → Prop
  | .create => True
  | .copy i => i < a.handles.length
  | .drop i => i < a.handles.length
  | .pushText => a.items.length < maxLength
  | .call c => VectorOperations.Permits a.items c ∧ ∀ i ∈ passed c, i < a.handles.length

/-- The references that a string should have been left with. -/
def owned (x : Nat) : Nat :=
  a.items.count x + a.handles.count x + a.leaked.count x - a.stolen.count x

/-- No string is touched that was freed. -/
def Alive : Use → Prop
  | .create => True
  | .copy i => 0 < a.owned (a.elem i)
  | .drop i => 0 < a.owned (a.elem i)
  | .pushText => True
  | .call c => (∀ h ∈ a.held c, 0 < a.owned h.1) ∧ ∀ x ∈ a.released c, (a.released c).count x ≤
      a.owned x + (a.held c).elim 0 fun h => if x = h.1 then h.2 else 0

/-- No reference is lost. -/
def Balanced : Use → Prop
  | .pushText => False
  | .call c => a.leaks c = [] ∧ a.steals c = []
  | _ => True

instance : ∀ u, Decidable (a.Permits u)
  | .create => isTrue trivial
  | .copy _ => inferInstanceAs (Decidable (_ < _))
  | .drop _ => inferInstanceAs (Decidable (_ < _))
  | .pushText => inferInstanceAs (Decidable (_ < _))
  | .call _ => inferInstanceAs (Decidable (_ ∧ _))

instance : ∀ u, Decidable (a.Alive u)
  | .create => isTrue trivial
  | .copy _ => inferInstanceAs (Decidable (_ < _))
  | .drop _ => inferInstanceAs (Decidable (_ < _))
  | .pushText => isTrue trivial
  | .call _ => inferInstanceAs (Decidable (_ ∧ _))

instance : ∀ u, Decidable (a.Balanced u)
  | .create => isTrue trivial
  | .copy _ => isTrue trivial
  | .drop _ => isTrue trivial
  | .pushText => isFalse id
  | .call _ => inferInstanceAs (Decidable (_ ∧ _))

end Ledger

/-- The references of a representation, which are one more than it counts. -/
def owned (m : References) (x : Nat) : Nat := (m x).elim 0 (· + 1)

/-- The references are those of the ledger. -/
structure Keeps (p : Program) (a : Ledger) : Prop where
  vec : Stores p.vec a.items
  handles : p.handles = a.handles
  next : p.next = a.next
  owned : ∀ x, owned p.references x + a.stolen.count x =
    a.items.count x + a.handles.count x + a.leaked.count x
  fresh : ∀ x, p.next ≤ x → p.references x = none

/-- Every owner has a reference, and there are no others: a representation
without owners is freed. -/
structure Exact (p : Program) (a : Ledger) : Prop extends Keeps p a where
  exact : ∀ x, VectorReferences.owned p.references x = a.items.count x + a.handles.count x

/-! ### Taking and giving back -/

variable {m : References} {r n : Nat} {rs : List Nat}

theorem hold_owned (hr : 0 < owned m r) : ∃ m', hold m r n = some m' ∧
    ∀ x, owned m' x = owned m x + if x = r then n else 0 := by
  rw [owned] at hr
  cases hmr : m r with
  | none => rw [hmr] at hr; exact absurd hr (Nat.lt_irrefl 0)
  | some k =>
      refine ⟨Function.update m r (some (k + n)), by rw [hold, hmr]; rfl, fun x => ?_⟩
      rw [owned, owned]
      by_cases hx : x = r
      · rw [hx, Function.update_self, hmr, if_pos rfl]
        show k + n + 1 = k + 1 + n
        omega
      · rw [Function.update_of_ne hx, if_neg hx, Nat.add_zero]

theorem hold_none (hr : ¬0 < owned m r) : hold m r n = none := by
  rw [owned] at hr
  rw [hold]
  cases hmr : m r with
  | none => rfl
  | some k => rw [hmr] at hr; exact absurd (Nat.succ_pos k) hr

theorem release_owned (hr : 0 < owned m r) : ∃ m', release m r = some m' ∧
    ∀ x, owned m' x + (if x = r then 1 else 0) = owned m x := by
  rw [owned] at hr
  cases hmr : m r with
  | none => rw [hmr] at hr; exact absurd hr (Nat.lt_irrefl 0)
  | some k =>
      refine ⟨Function.update m r (if k = 0 then none else some (k - 1)),
        by rw [release, hmr]; rfl, fun x => ?_⟩
      rw [owned, owned]
      by_cases hx : x = r
      · rw [hx, Function.update_self, hmr, if_pos rfl]
        cases k <;> rfl
      · rw [Function.update_of_ne hx, if_neg hx, Nat.add_zero]

theorem release_none (hr : ¬0 < owned m r) : release m r = none := by
  rw [owned] at hr
  rw [release]
  cases hmr : m r with
  | none => rfl
  | some k => rw [hmr] at hr; exact absurd (Nat.succ_pos k) hr

theorem count_cons_eq (x r : Nat) (rs : List Nat) :
    (r :: rs).count x = rs.count x + if x = r then 1 else 0 := by
  by_cases hx : x = r
  · rw [hx, List.count_cons_self, if_pos rfl]
  · rw [List.count_cons_of_ne (fun h => hx h.symm), if_neg hx, Nat.add_zero]

theorem releases_owned (hrs : ∀ x ∈ rs, rs.count x ≤ owned m x) : ∃ m', releases m rs = some m' ∧
    ∀ x, owned m' x + rs.count x = owned m x := by
  induction rs generalizing m with
  | nil => exact ⟨m, rfl, fun x => rfl⟩
  | cons r rs ih =>
      have hr := hrs r List.mem_cons_self
      rw [count_cons_eq, if_pos rfl] at hr
      obtain ⟨m₁, hm₁, h₁⟩ := release_owned (m := m) (r := r) (by omega)
      obtain ⟨m', hm', h'⟩ := ih (m := m₁) fun x hx => by
        have := hrs x (List.mem_cons_of_mem r hx)
        have := h₁ x
        rw [count_cons_eq] at *
        omega
      refine ⟨m', ?_, fun x => ?_⟩
      · rw [releases, List.foldlM_cons, hm₁]
        exact hm'
      · have := h₁ x
        have := h' x
        rw [count_cons_eq]
        omega

theorem releases_needs {m' : References} (h : releases m rs = some m') (x : Nat) :
    rs.count x ≤ owned m x := by
  induction rs generalizing m with
  | nil => exact Nat.zero_le _
  | cons r rs ih =>
      rw [releases, List.foldlM_cons] at h
      obtain ⟨m₁, hm₁, hrest⟩ := Option.bind_eq_some_iff.mp h
      have hr : 0 < owned m r := by
        by_contra hnot
        rw [release_none hnot] at hm₁
        cases hm₁
      obtain ⟨m₂, hm₂, h₂⟩ := release_owned hr
      obtain rfl := Option.some.inj (hm₁.symm.trans hm₂)
      have := ih hrest
      have := h₂ x
      rw [count_cons_eq]
      omega

/-- What a call does to the references: some are taken, then some are given
back. -/
def exchange (m : References) (h : Option (Nat × Nat)) (rs : List Nat) : Option References :=
  (h.elim (some m) fun h => hold m h.1 h.2).bind fun m => releases m rs

/-- How many references of a string are taken. -/
def taken (h : Option (Nat × Nat)) (x : Nat) : Nat := h.elim 0 fun h => if x = h.1 then h.2 else 0

theorem exchange_owned {h : Option (Nat × Nat)} (hheld : ∀ h' ∈ h, 0 < owned m h'.1)
    (hrs : ∀ x ∈ rs, rs.count x ≤ owned m x + taken h x) :
    ∃ m', exchange m h rs = some m' ∧ ∀ x, owned m' x + rs.count x = owned m x + taken h x := by
  cases h with
  | none => exact releases_owned hrs
  | some h =>
      obtain ⟨m₁, hm₁, h₁⟩ := hold_owned (n := h.2) (hheld h rfl)
      have hleft : ∀ x ∈ rs, rs.count x ≤ owned m₁ x := fun x hx => by
        rw [h₁ x]
        exact hrs x hx
      obtain ⟨m', hm', h'⟩ := releases_owned hleft
      refine ⟨m', ?_, fun x => by rw [h' x, h₁ x]; rfl⟩
      rw [exchange, Option.elim_some, hm₁]
      exact hm'

theorem exchange_needs {h : Option (Nat × Nat)} (hdefined : (exchange m h rs).isSome = true) :
    (∀ h' ∈ h, 0 < owned m h'.1) ∧ ∀ x ∈ rs, rs.count x ≤ owned m x + taken h x := by
  obtain ⟨m', hm'⟩ := Option.isSome_iff_exists.mp hdefined
  obtain ⟨m₁, hm₁, hrest⟩ := Option.bind_eq_some_iff.mp hm'
  cases h with
  | none =>
      obtain rfl := Option.some.inj hm₁
      exact ⟨fun _ hnone => (nomatch hnone), fun x _ => releases_needs hrest x⟩
  | some h =>
      have hr : 0 < owned m h.1 := by
        by_contra hnot
        rw [Option.elim_some, hold_none hnot] at hm₁
        cases hm₁
      obtain ⟨m₂, hm₂, h₂⟩ := hold_owned (n := h.2) hr
      obtain rfl := Option.some.inj (hm₁.symm.trans hm₂)
      refine ⟨fun h' hh' => Option.some.inj hh' ▸ hr, fun x _ => ?_⟩
      have hneeds := releases_needs hrest x
      rwa [h₂ x] at hneeds

/-! ### What a call does -/

variable {p : Program} {a : Ledger}

theorem handle_eq (h : Keeps p a) {i : Nat} (hi : i < a.handles.length) :
    p.handles[i]? = some (a.elem i) := by
  rw [h.handles, Ledger.elem, List.getElem?_eq_getElem hi]
  rfl

theorem entries_eq {v : UVector Nat} {l : List Nat} (h : Stores v l) {start n : Nat}
    (hn : start + n ≤ l.length) : entries v start n = some ((l.drop start).take n) := by
  have hload : ∀ ks : List Nat, (∀ k ∈ ks, k < n) →
      ks.mapM (fun k => load v (start + k)) = some (ks.map fun k => l[start + k]?.getD 0) := by
    intro ks hks
    induction ks with
    | nil => rfl
    | cons k ks ih =>
        have hk : start + k < l.length := by
          have := hks k List.mem_cons_self
          omega
        rw [List.mapM_cons, load_spec h hk, ih fun k' hk' => hks k' (List.mem_cons_of_mem k hk'),
          List.map_cons, List.getElem?_eq_getElem hk]
        rfl
  rw [entries, hload _ fun k hk => List.mem_range.mp hk]
  congr 1
  apply List.ext_getElem?
  intro i
  rw [List.getElem?_map]
  by_cases hi : i < n
  · rw [List.getElem?_range hi, List.getElem?_take_of_lt hi, List.getElem?_drop, Option.map_some,
      List.getElem?_eq_getElem (show start + i < l.length by omega)]
    rfl
  · rw [List.getElem?_eq_none (by rw [List.length_range]; omega),
      List.getElem?_eq_none (by rw [List.length_take]; omega)]
    rfl

theorem releases_singleton (m : References) (r : Nat) : releases m [r] = release m r := by
  rw [releases, List.foldlM_cons]
  cases release m r <;> rfl

theorem exchange_take (m : References) (r n : Nat) :
    exchange m (some (r, n)) [] = hold m r n := by
  rw [exchange, Option.elim_some]
  cases hold m r n <;> rfl

theorem exchange_replace (m : References) (r n r' : Nat) :
    exchange m (some (r, n)) [r'] = (hold m r n).bind fun m => release m r' := by
  rw [exchange, Option.elim_some]
  exact congrArg _ (funext fun m => releases_singleton m r')

/-- The end of a call that returns nothing. -/
theorem changed_eq {x : Option References} {y : Option (UVector Nat)} {v : UVector Nat}
    (hy : y = some v) :
    (x.bind fun m => y.bind fun v => some (none, { p with references := m, vec := v })) =
      x.map fun m => ((none : Option Nat),
        { p with
          references := m, vec := v, handles := p.handles ++ (none : Option Nat).toList }) := by
  rw [hy, Option.toList_none, List.append_nil]
  cases x <;> rfl

/-- The end of a call that returns a string. -/
theorem returned_eq {m : References} {v : UVector Nat} {r : Nat} {rs : List Nat}
    {give : References → Option References} (hgive : ∀ m, give m = releases m rs) :
    ((Program.take { p with references := m, vec := v } r).bind fun x =>
        (give x.2.references).bind fun m => some (x.1, { x.2 with references := m })) =
      (exchange m (some (r, 1)) rs).map fun m => (some r,
        { p with references := m, vec := v, handles := p.handles ++ (some r).toList }) := by
  rw [Program.take, exchange, Option.elim_some]
  cases hold m r 1 with
  | none => rfl
  | some m =>
      show (give m).bind _ = (releases m rs).map _
      rw [hgive]
      cases releases m rs <;> rfl

/-- A call changes the vector as it does for any elements, and the references
as in the ledger. -/
theorem call_eq (h : Keeps p a) {c : Call Nat} (hc : a.Permits (.call c)) :
    ∃ v', Stores v' (VectorOperations.next a.items (a.named c)) ∧
      p.call c = (exchange p.references (a.held c) (a.released c)).map fun m =>
        (a.answer c, { p with
          references := m, vec := v', handles := p.handles ++ (a.answer c).toList }) := by
  obtain ⟨hpermits, hhandle⟩ := hc
  have hlength := h.vec.length
  cases c with
  | push i =>
      obtain ⟨v', hv', hstores⟩ := push_spec h.vec hpermits (a.elem i)
      refine ⟨v', hstores, ?_⟩
      show _ = (exchange p.references (some (a.elem i, 1)) []).map _
      rw [Program.call, handle_eq h (hhandle i rfl), exchange_take]
      exact changed_eq hv'
  | pop =>
      obtain ⟨r, v', hv', hlast, hstores⟩ := pop_spec h.vec hpermits
      refine ⟨v', hstores, ?_⟩
      have hanswer : a.answer .pop = some r := hlast
      have hreleased : a.released .pop = [r] := by rw [Ledger.released, hlast]; rfl
      rw [Program.call, hv', hreleased, Ledger.held, hanswer]
      · exact returned_eq fun m => (releases_singleton m r).symm
      all_goals simp
  | top =>
      have hlast := List.getLast?_eq_some_getLast hpermits
      refine ⟨p.vec, h.vec, ?_⟩
      have hanswer : a.answer .top = some (a.items.getLast hpermits) := hlast
      have hreleased : a.released .top = [a.items.getLast hpermits] := by
        rw [Ledger.released, hlast]; rfl
      rw [Program.call, top_spec h.vec hpermits, hlast, hreleased, Ledger.held, hanswer]
      · exact returned_eq fun m => (releases_singleton m _).symm
      all_goals simp
  | «at» pos =>
      have hpos : pos < a.items.length := hpermits
      refine ⟨p.vec, h.vec, ?_⟩
      have hanswer : a.answer (.at pos) = some a.items[pos] := List.getElem?_eq_getElem hpos
      rw [Program.call, load_spec h.vec hpos, Ledger.held, hanswer]
      · show Program.take p _ = (exchange p.references (some (_, 1)) []).map _
        rw [exchange_take, Program.take]
        cases hold p.references a.items[pos] 1 <;> rfl
      all_goals simp
  | replace pos i =>
      have hpos : pos < a.items.length := hpermits
      obtain ⟨v', hv', hstores⟩ := store_spec h.vec hpos (a.elem i)
      refine ⟨v', hstores, ?_⟩
      have hreleased : a.released (.replace pos i) = [a.items[pos]] := by
        rw [Ledger.released, List.getElem?_eq_getElem hpos]; rfl
      rw [hreleased]
      show _ = (exchange p.references (some (a.elem i, 1)) [a.items[pos]]).map _
      rw [Program.call, handle_eq h (hhandle i rfl), load_spec h.vec hpos, exchange_replace]
      simp only [Option.bind_eq_bind, Option.bind_some]
      rw [← Option.bind_assoc]
      exact changed_eq hv'
  | insert pos i =>
      obtain ⟨v', hv', hstores⟩ := insert_spec h.vec hpermits.1 hpermits.2 (a.elem i)
      refine ⟨v', hstores, ?_⟩
      show _ = (exchange p.references (some (a.elem i, 1)) []).map _
      rw [Program.call, handle_eq h (hhandle i rfl), exchange_take]
      exact changed_eq hv'
  | insertCopies pos n i =>
      obtain ⟨v', hv', hstores⟩ := insertCopies_spec h.vec hpermits.1 hpermits.2 (a.elem i)
      refine ⟨v', hstores, ?_⟩
      show _ = (exchange p.references (some (a.elem i, n)) []).map _
      rw [Program.call, handle_eq h (hhandle i rfl), exchange_take]
      exact changed_eq hv'
  | erase pos =>
      have hpos : pos < a.items.length := hpermits
      obtain ⟨r, v', hv', -, hstores⟩ := step_spec h.vec hpermits
      obtain ⟨v₁, hv₁, heq⟩ := Option.map_eq_some_iff.mp hv'
      obtain ⟨-, rfl⟩ := Prod.mk.inj heq
      refine ⟨v₁, hstores, ?_⟩
      have hreleased : a.released (.erase pos) = [a.items[pos]] := by
        rw [Ledger.released, List.getElem?_eq_getElem hpos]; rfl
      rw [hreleased]
      show _ = (releases p.references [a.items[pos]]).map _
      rw [Program.call, load_spec h.vec hpos, releases_singleton]
      exact changed_eq hv₁
  | eraseRange first last =>
      obtain ⟨v', hv', hstores⟩ := eraseRange_spec h.vec hpermits.1 hpermits.2
      refine ⟨v', hstores, ?_⟩
      have hbound : first + (last - first) ≤ a.items.length := by
        have := hpermits.1
        have := hpermits.2
        omega
      show _ = (releases p.references ((a.items.drop first).take (last - first))).map _
      rw [Program.call, entries_eq h.vec hbound]
      exact changed_eq hv'
  | swap i j =>
      obtain ⟨r, v', hv', -, hstores⟩ := step_spec h.vec hpermits
      obtain ⟨v₁, hv₁, heq⟩ := Option.map_eq_some_iff.mp hv'
      obtain ⟨-, rfl⟩ := Prod.mk.inj heq
      refine ⟨v₁, hstores, ?_⟩
      exact @changed_eq p (some p.references) _ _ hv₁
  | assign n i =>
      obtain ⟨v', hv', hstores⟩ := assign_spec h.vec hpermits (a.elem i)
      refine ⟨v', hstores, ?_⟩
      have hbound : 0 + min n p.vec.length ≤ a.items.length := by omega
      show _ = (exchange p.references (some (a.elem i, n)) (a.items.take n)).map _
      rw [Program.call, handle_eq h (hhandle i rfl), entries_eq h.vec hbound, List.drop_zero,
        hlength, ← List.take_eq_take_min]
      simp only [Option.bind_eq_bind, Option.bind_some]
      rw [← Option.bind_assoc]
      exact changed_eq hv'
  | reserve n =>
      obtain ⟨v', hv', hstores⟩ := reserve_spec h.vec hpermits.1 hpermits.2
      exact ⟨v', hstores, @changed_eq p (some p.references) _ _ hv'⟩
  | clear =>
      obtain ⟨r, v', hv', -, hstores⟩ := step_spec h.vec hpermits
      obtain ⟨-, rfl⟩ := Prod.mk.inj (Option.some.inj hv')
      refine ⟨_, hstores, ?_⟩
      show _ = (releases p.references a.items).map _
      rw [Program.call, entries_eq h.vec (show 0 + p.vec.length ≤ a.items.length by omega),
        List.drop_zero, hlength, List.take_length]
      exact changed_eq rfl

/-! ### The balance -/

theorem count_set_eq {l : List Nat} {i : Nat} (hi : i < l.length) (r x : Nat) :
    (l.set i r).count x + (if x = l[i] then 1 else 0) = l.count x + if x = r then 1 else 0 := by
  have hsplit : l = l.take i ++ l[i] :: l.drop (i + 1) := by
    rw [List.getElem_cons_drop, List.take_append_drop]
  have hcount := congrArg (List.count x) hsplit
  rw [List.count_append, count_cons_eq] at hcount
  rw [List.set_eq_take_append_cons_drop, if_pos hi, List.count_append, count_cons_eq]
  omega

theorem count_swap {l : List Nat} {i j : Nat} (hi : i < l.length) (hj : j < l.length) (x : Nat) :
    ((l.set i l[j]).set j l[i]).count x = l.count x := by
  have hfirst := count_set_eq hi l[j] x
  have hj' : j < (l.set i l[j]).length := by rwa [List.length_set]
  have hsecond := count_set_eq hj' l[i] x
  have hsame : (l.set i l[j])[j] = l[j] := by
    rw [List.getElem_set]
    split
    · rfl
    · rfl
  rw [hsame] at hsecond
  omega

theorem count_last {l : List Nat} (hl : l ≠ []) (x : Nat) :
    l.dropLast.count x + l.getLast?.toList.count x = l.count x := by
  have happend := congrArg (List.count x) (List.dropLast_append_getLast hl)
  rw [List.count_append] at happend
  rw [List.getLast?_eq_some_getLast hl]
  exact happend

theorem taken_some (r n x : Nat) : taken (some (r, n)) x = if x = r then n else 0 := rfl

theorem count_replicate_eq (r n x : Nat) :
    (List.replicate n r).count x = if x = r then n else 0 := by
  rw [List.count_replicate]
  by_cases hx : x = r
  · rw [hx, if_pos rfl, if_pos (beq_self_eq_true r)]
  · rw [if_neg hx, if_neg (by simpa using fun h => hx h.symm)]

theorem taken_answer (o : Option Nat) (x : Nat) :
    taken (o.map fun r => (r, 1)) x = o.toList.count x := by
  cases o with
  | none => rfl
  | some r => exact (count_replicate_eq r 1 x).symm

/-- What a call takes and gives back is what it does to the owners, but for
what it leaks or steals. -/
theorem balance {c : Call Nat} (hc : VectorOperations.Permits a.items c) (x : Nat) :
    (VectorOperations.next a.items (a.named c)).count x + (a.answer c).toList.count x +
        (a.leaks c).count x + (a.released c).count x =
      a.items.count x + taken (a.held c) x + (a.steals c).count x := by
  have hanswer := taken_answer (a.answer c) x
  cases c with
  | push i =>
      show (a.items ++ [a.elem i]).count x + 0 + 0 + 0 = _ + (if x = a.elem i then 1 else 0) + 0
      rw [List.count_append, ← count_replicate_eq]
      rfl
  | pop =>
      have hlast := count_last hc x
      show a.items.dropLast.count x + _ + 0 + a.items.getLast?.toList.count x = _ + taken _ x + 0
      rw [Ledger.held, hanswer]
      · omega
      all_goals simp
  | top =>
      show a.items.count x + _ + 0 + a.items.getLast?.toList.count x =
        _ + taken _ x + a.items.getLast?.toList.count x
      rw [Ledger.held, hanswer]
      · omega
      all_goals simp
  | «at» pos =>
      show a.items.count x + (a.answer (.at pos)).toList.count x + 0 + 0 =
        a.items.count x + taken (a.held (.at pos)) x + 0
      rw [Ledger.held, hanswer]
      all_goals simp
  | replace pos i =>
      have hpos : pos < a.items.length := hc
      have hset := count_set_eq hpos (a.elem i) x
      have hold : a.items[pos]?.toList.count x = if x = a.items[pos] then 1 else 0 := by
        rw [List.getElem?_eq_getElem hpos]
        exact count_replicate_eq _ 1 x
      show (a.items.set pos (a.elem i)).count x + 0 + 0 + a.items[pos]?.toList.count x =
        _ + (if x = a.elem i then 1 else 0) + 0
      omega
  | insert pos i =>
      have hsplit := congrArg (List.count x) (List.take_append_drop pos a.items)
      rw [List.count_append] at hsplit
      show (a.items.take pos ++ a.elem i :: a.items.drop pos).count x + 0 + 0 + 0 =
        _ + (if x = a.elem i then 1 else 0) + 0
      rw [List.count_append, count_cons_eq]
      omega
  | insertCopies pos n i =>
      have hsplit := congrArg (List.count x) (List.take_append_drop pos a.items)
      rw [List.count_append] at hsplit
      show (a.items.take pos ++ (List.replicate n (a.elem i) ++ a.items.drop pos)).count x + 0 + 0 +
        0 = _ + (if x = a.elem i then n else 0) + 0
      rw [List.count_append, List.count_append, count_replicate_eq]
      omega
  | erase pos =>
      have hpos : pos < a.items.length := hc
      have hsplit : a.items = a.items.take pos ++ a.items[pos] :: a.items.drop (pos + 1) := by
        rw [List.getElem_cons_drop, List.take_append_drop]
      have hcount := congrArg (List.count x) hsplit
      rw [List.count_append, count_cons_eq] at hcount
      have hold : a.items[pos]?.toList.count x = if x = a.items[pos] then 1 else 0 := by
        rw [List.getElem?_eq_getElem hpos]
        exact count_replicate_eq _ 1 x
      show (a.items.eraseIdx pos).count x + 0 + 0 + a.items[pos]?.toList.count x = _ + 0 + 0
      rw [List.eraseIdx_eq_take_drop_succ, List.count_append]
      omega
  | eraseRange first last =>
      have hfirst := congrArg (List.count x) (List.take_append_drop first a.items)
      have hmiddle := congrArg (List.count x)
        (List.take_append_drop (last - first) (a.items.drop first))
      rw [List.drop_drop, Nat.add_sub_cancel' (Nat.le_of_lt hc.1)] at hmiddle
      rw [List.count_append] at hfirst hmiddle
      show (a.items.take first ++ a.items.drop last).count x + 0 + 0 +
        ((a.items.drop first).take (last - first)).count x = _ + 0 + 0
      rw [List.count_append]
      omega
  | swap i j =>
      show ((a.items[i]?.bind fun x => a.items[j]?.map fun y =>
        (a.items.set i y).set j x).getD a.items).count x + 0 + 0 + 0 = _ + 0 + 0
      rw [List.getElem?_eq_getElem hc.1, List.getElem?_eq_getElem hc.2]
      exact count_swap hc.1 hc.2 x
  | assign n i =>
      have hsplit := congrArg (List.count x) (List.take_append_drop n a.items)
      rw [List.count_append] at hsplit
      show (List.replicate n (a.elem i)).count x + 0 + (a.items.drop n).count x +
        (a.items.take n).count x = _ + (if x = a.elem i then n else 0) + 0
      rw [count_replicate_eq]
      omega
  | reserve n => rfl
  | clear =>
      show 0 + 0 + 0 + a.items.count x = a.items.count x + 0 + 0
      omega

/-! ### Runs -/

theorem owned_eq (h : Keeps p a) (x : Nat) : a.owned x = owned p.references x := by
  have := h.owned x
  rw [Ledger.owned]
  omega

theorem alive_call_iff (h : Keeps p a) (c : Call Nat) : a.Alive (.call c) ↔
    (∀ h ∈ a.held c, 0 < owned p.references h.1) ∧ ∀ x ∈ a.released c,
      (a.released c).count x ≤ owned p.references x + taken (a.held c) x := by
  rw [Ledger.Alive]
  simp only [owned_eq h]
  rfl

theorem elem_count {i : Nat} (hi : i < a.handles.length) (x : Nat) :
    (a.handles.eraseIdx i).count x + (if x = a.elem i then 1 else 0) = a.handles.count x := by
  have helem : a.elem i = a.handles[i] := by
    rw [Ledger.elem, List.getElem?_eq_getElem hi]
    rfl
  have hsplit : a.handles = a.handles.take i ++ a.handles[i] :: a.handles.drop (i + 1) := by
    rw [List.getElem_cons_drop, List.take_append_drop]
  have hcount := congrArg (List.count x) hsplit
  rw [List.count_append, count_cons_eq] at hcount
  rw [helem, List.eraseIdx_eq_take_drop_succ, List.count_append]
  omega

theorem count_append_one (l : List Nat) (r x : Nat) :
    (l ++ [r]).count x = l.count x + if x = r then 1 else 0 := by
  rw [List.count_append]
  congr 1
  exact count_replicate_eq r 1 x

/-- References to a string that is there do not make another one. -/
theorem fresh_of_owned {m m' : References} {n : Nat} (hfresh : ∀ x, n ≤ x → m x = none)
    (hle : ∀ x, owned m x = 0 → owned m' x = 0) (x : Nat) (hx : n ≤ x) : m' x = none := by
  have hzero := hle x (by rw [owned, hfresh x hx]; rfl)
  rw [owned] at hzero
  cases hm' : m' x with
  | none => rfl
  | some k => rw [hm'] at hzero; exact absurd hzero (Nat.succ_ne_zero k)

theorem allocated_owned {n : Nat} (hn : m n = none) (k x : Nat) :
    owned (Function.update m n (some k)) x = owned m x + if x = n then k + 1 else 0 := by
  rw [owned, owned]
  by_cases hx : x = n
  · rw [hx, Function.update_self, hn, if_pos rfl]
    exact (Nat.zero_add _).symm
  · rw [Function.update_of_ne hx, if_neg hx, Nat.add_zero]

theorem allocated_fresh {n k : Nat} (hfresh : ∀ x, n ≤ x → m x = none) (x : Nat)
    (hx : n + 1 ≤ x) : Function.update m n (some k) x = none := by
  rw [Function.update_of_ne (by omega)]
  exact hfresh x (by omega)

theorem use_keeps (h : Keeps p a) {u : Use} (hu : a.Permits u) (halive : a.Alive u) :
    ∃ r p', p.use u = some (r, p') ∧ r = a.reply u ∧ Keeps p' (a.step u) := by
  cases u with
  | create =>
      refine ⟨none, _, rfl, rfl, h.vec, ?_, ?_, fun x => ?_, allocated_fresh h.fresh⟩
      · show p.handles ++ [p.next] = a.handles ++ [a.next]
        rw [h.handles, h.next]
      · show p.next + 1 = a.next + 1
        rw [h.next]
      · have hold := h.owned x
        show owned (Function.update p.references p.next (some 0)) x + a.stolen.count x =
          a.items.count x + (a.handles ++ [a.next]).count x + a.leaked.count x
        rw [allocated_owned (h.fresh p.next (Nat.le_refl _)), count_append_one, h.next,
          Nat.zero_add]
        omega
  | copy i =>
      have hi : 0 < owned p.references (a.elem i) := owned_eq h (a.elem i) ▸ halive
      obtain ⟨m, hm, howned⟩ := hold_owned (n := 1) hi
      refine ⟨none, { p with references := m, handles := p.handles ++ [a.elem i] }, ?_, rfl, h.vec,
        ?_, h.next, fun x => ?_, fresh_of_owned h.fresh fun x hx => ?_⟩
      · rw [Program.use, handle_eq h hu]
        simp only [Option.bind_eq_bind, Option.bind_some]
        rw [Program.take, hm]
        rfl
      · show p.handles ++ [a.elem i] = a.handles ++ [a.elem i]
        rw [h.handles]
      · have hold := h.owned x
        show owned m x + a.stolen.count x =
          a.items.count x + (a.handles ++ [a.elem i]).count x + a.leaked.count x
        rw [howned x, count_append_one]
        omega
      · show owned m x = 0
        rw [howned x, hx, if_neg]
        rintro rfl
        omega
  | drop i =>
      have hi : 0 < owned p.references (a.elem i) := owned_eq h (a.elem i) ▸ halive
      obtain ⟨m, hm, howned⟩ := release_owned hi
      refine ⟨none, { p with references := m, handles := p.handles.eraseIdx i }, ?_, rfl, h.vec,
        ?_, h.next, fun x => ?_, fresh_of_owned h.fresh fun x hx => ?_⟩
      · rw [Program.use, handle_eq h hu]
        simp only [Option.bind_eq_bind, Option.bind_some, hm]
      · show p.handles.eraseIdx i = a.handles.eraseIdx i
        rw [h.handles]
      · have hold := h.owned x
        have hnew := howned x
        have herase := elem_count hu x
        show owned m x + a.stolen.count x =
          a.items.count x + (a.handles.eraseIdx i).count x + a.leaked.count x
        omega
      · have hnew := howned x
        show owned m x = 0
        omega
  | pushText =>
      have hnone := h.fresh p.next (Nat.le_refl _)
      obtain ⟨v', hv', hstores⟩ := push_spec h.vec hu p.next
      have hhold : hold p.allocate.references p.next 1 =
          some (Function.update p.references p.next (some 1)) := by
        show (Function.update p.references p.next (some 0) p.next).map (fun k => Function.update
          (Function.update p.references p.next (some 0)) p.next (some (k + 1))) = _
        rw [Function.update_self, Option.map_some, Function.update_idem]
      refine ⟨none, { p.allocate with
          references := Function.update p.references p.next (some 1), vec := v' },
        ?_, rfl, ?_, h.handles, ?_, fun x => ?_, allocated_fresh h.fresh⟩
      · rw [Program.use, hhold, hv']
        rfl
      · show Stores v' (a.items ++ [a.next])
        rw [← h.next]
        exact hstores
      · show p.next + 1 = a.next + 1
        rw [h.next]
      · have hold := h.owned x
        show owned (Function.update p.references p.next (some 1)) x + a.stolen.count x =
          (a.items ++ [a.next]).count x + a.handles.count x + (a.leaked ++ [a.next]).count x
        rw [allocated_owned hnone, count_append_one, count_append_one, h.next]
        split <;> omega
  | call c =>
      obtain ⟨hheld, hreleased⟩ := (alive_call_iff h c).mp halive
      obtain ⟨v', hstores, hcall⟩ := call_eq h hu
      obtain ⟨m, hm, howned⟩ := exchange_owned hheld hreleased
      rw [hm] at hcall
      refine ⟨_, _, hcall, rfl, hstores, ?_, h.next, fun x => ?_, ?_⟩
      · show p.handles ++ _ = a.handles ++ _
        rw [h.handles]
      · have hbalance := balance hu.1 x
        have hold := h.owned x
        have hnew := howned x
        show owned m x + (a.stolen ++ a.steals c).count x =
          (VectorOperations.next a.items (a.named c)).count x +
            (a.handles ++ (a.answer c).toList).count x + (a.leaked ++ a.leaks c).count x
        rw [List.count_append, List.count_append, List.count_append]
        omega
      · refine fresh_of_owned h.fresh fun x hx => ?_
        have hnew := howned x
        have htaken : taken (a.held c) x = 0 := by
          rw [taken]
          cases hc : a.held c with
          | none => rfl
          | some q =>
              have hq := hheld q (by rw [hc]; rfl)
              rw [Option.elim_some, if_neg]
              rintro rfl
              omega
        show owned m x = 0
        omega

/-- A step that is defined touches no string that was freed. -/
theorem alive_of_use (h : Keeps p a) {u : Use} (hu : a.Permits u)
    (hdefined : (p.use u).isSome = true) : a.Alive u := by
  cases u with
  | create => trivial
  | copy i =>
      show 0 < a.owned (a.elem i)
      rw [owned_eq h]
      by_contra hnot
      rw [Program.use, handle_eq h hu] at hdefined
      simp only [Option.bind_eq_bind, Option.bind_some] at hdefined
      rw [Program.take, hold_none hnot] at hdefined
      cases hdefined
  | drop i =>
      show 0 < a.owned (a.elem i)
      rw [owned_eq h]
      by_contra hnot
      rw [Program.use, handle_eq h hu] at hdefined
      simp only [Option.bind_eq_bind, Option.bind_some] at hdefined
      rw [release_none hnot] at hdefined
      cases hdefined
  | pushText => trivial
  | call c =>
      obtain ⟨v', -, hcall⟩ := call_eq h hu
      rw [alive_call_iff h]
      refine exchange_needs ?_
      rw [Program.use, hcall, Option.isSome_map] at hdefined
      exact hdefined

theorem keeps_start {n : Nat} (hn : n ≤ maxCount) : Keeps (start n) .empty :=
  ⟨stores_created hn, rfl, rfl, fun _ => rfl, fun _ _ => rfl⟩

theorem elem_mem {i : Nat} (hi : i < a.handles.length) : a.elem i ∈ a.handles := by
  rw [Ledger.elem, List.getElem?_eq_getElem hi]
  exact List.getElem_mem hi

theorem answer_mem {c : Call Nat} {r : Nat} (hr : a.answer c = some r) : r ∈ a.items := by
  cases c with
  | pop => exact List.mem_of_getLast? hr
  | top => exact List.mem_of_getLast? hr
  | «at» pos => exact List.mem_of_getElem? hr
  | _ => cases hr

theorem held_mem {c : Call Nat} (hc : a.Permits (.call c)) {q : Nat × Nat} (hq : q ∈ a.held c) :
    q.1 ∈ a.items ∨ q.1 ∈ a.handles := by
  have hanswer : q ∈ (a.answer c).map (fun r => (r, 1)) → q.1 ∈ a.items := fun h => by
    obtain ⟨r, hr, rfl⟩ := Option.map_eq_some_iff.mp h
    exact answer_mem hr
  have hpassed := hc.2
  cases c with
  | push i => exact .inr (Option.some.inj hq ▸ elem_mem (hpassed i rfl))
  | replace pos i => exact .inr (Option.some.inj hq ▸ elem_mem (hpassed i rfl))
  | insert pos i => exact .inr (Option.some.inj hq ▸ elem_mem (hpassed i rfl))
  | insertCopies pos n i => exact .inr (Option.some.inj hq ▸ elem_mem (hpassed i rfl))
  | assign n i => exact .inr (Option.some.inj hq ▸ elem_mem (hpassed i rfl))
  | _ => exact .inl (hanswer hq)

/-- A call that gives nothing back twice leaves every owner its reference. -/
theorem alive_of_owners {u : Use} (hu : a.Permits u)
    (howners : ∀ x, a.items.count x + a.handles.count x ≤ a.owned x)
    (hsteals : ∀ c, u = .call c → a.steals c = []) : a.Alive u := by
  have hmem : ∀ {x}, x ∈ a.items ∨ x ∈ a.handles → 0 < a.owned x := fun {x} hx => by
    have := howners x
    rcases hx with hx | hx
    · have := List.count_pos_iff.mpr hx
      omega
    · have := List.count_pos_iff.mpr hx
      omega
  cases u with
  | create => trivial
  | copy i => exact hmem (.inr (elem_mem hu))
  | drop i => exact hmem (.inr (elem_mem hu))
  | pushText => trivial
  | call c =>
      refine ⟨fun q hq => hmem (held_mem hu hq), fun x _ => ?_⟩
      have hbalance := balance hu.1 x
      have := howners x
      rw [hsteals c rfl, List.count_nil] at hbalance
      show _ ≤ a.owned x + taken (a.held c) x
      omega

/-- No call both leaks and gives back twice. -/
theorem leaks_steals (c : Call Nat) : a.leaks c = [] ∨ a.steals c = [] := by
  cases c with
  | assign n i => exact .inr rfl
  | _ => exact .inl rfl

theorem exact_of_balanced (h : Exact p a) {u : Use} (hu : a.Permits u) (hbalanced : a.Balanced u) :
    ∃ r p', p.use u = some (r, p') ∧ r = a.reply u ∧ Exact p' (a.step u) := by
  have halive : a.Alive u := by
    refine alive_of_owners hu (fun x => ?_) fun c hc => ?_
    · rw [owned_eq h.toKeeps, h.exact x]
    · subst hc
      exact hbalanced.2
  obtain ⟨r, p', hp', hr, hkeeps⟩ := use_keeps h.toKeeps hu halive
  refine ⟨r, p', hp', hr, hkeeps, fun x => ?_⟩
  have hold := h.owned x
  have hexact := h.exact x
  have hnew := hkeeps.owned x
  have hsame : (a.step u).leaked = a.leaked ∧ (a.step u).stolen = a.stolen := by
    cases u with
    | pushText => exact hbalanced.elim
    | call c =>
        show a.leaked ++ a.leaks c = a.leaked ∧ a.stolen ++ a.steals c = a.stolen
        rw [hbalanced.1, hbalanced.2, List.append_nil, List.append_nil]
        exact ⟨rfl, rfl⟩
    | _ => exact ⟨rfl, rfl⟩
  rw [hsame.1, hsame.2] at hnew
  omega

theorem balanced_of_exact (h : Exact p a) {p' : Program} {u : Use} (h' : Exact p' (a.step u)) :
    a.Balanced u := by
  have hcount : ∀ x, (a.step u).leaked.count x = (a.step u).stolen.count x ∧
      a.leaked.count x = a.stolen.count x := fun x => by
    have := h.owned x
    have := h.exact x
    have := h'.owned x
    have := h'.exact x
    omega
  cases u with
  | pushText =>
      obtain ⟨hnew, hold⟩ := hcount a.next
      have hleaked : (a.leaked ++ [a.next]).count a.next = a.stolen.count a.next := hnew
      rw [count_append_one, if_pos rfl] at hleaked
      omega
  | call c =>
      have hempty : ∀ x, (a.leaks c).count x = (a.steals c).count x := fun x => by
        obtain ⟨hnew, hold⟩ := hcount x
        have heq : (a.leaked ++ a.leaks c).count x = (a.stolen ++ a.steals c).count x := hnew
        rw [List.count_append, List.count_append] at heq
        omega
      have hnil : ∀ l : List Nat, (∀ x, l.count x = 0) → l = [] := fun l hl =>
        List.eq_nil_iff_forall_not_mem.mpr fun x => List.count_eq_zero.mp (hl x)
      rcases leaks_steals (a := a) c with hleaks | hsteals
      · exact ⟨hleaks, hnil _ fun x => by rw [← hempty x, hleaks, List.count_nil]⟩
      · exact ⟨hnil _ fun x => by rw [hempty x, hsteals, List.count_nil], hsteals⟩
  | _ => trivial

end ULib.VectorReferences
