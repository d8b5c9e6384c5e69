import ULib.BinaryHeap
import ULib.HashMap

/-!
The binary heap in a vector of pointers, `bh_put` and `bh_get` of
`container/vector.h`. The entry 0 of the array is not used, and the array is
made larger when it has no entry for the next element.
-/

namespace ULib.VectorHeap

open ULib.BinaryHeap
open ULib.HashMap (mallocNum maxCount le_mallocNum)

/-- A `UVector<T*>`: the entries that were not written yet have no value. An element is a pointer,
and the elements are in the order of the objects they point to. -/
structure UVector (α : Type*) where
  vec : Nat → Option α
  length : Nat
  capacity : Nat

variable {α : Type*}

/-- The constructor with a size estimate. -/
def created (n : Nat) : UVector α := ⟨fun _ => none, 0, mallocNum n⟩

/-- `vec[i]`; `none` is an entry outside of the array or without a value. -/
def load (v : UVector α) (i : Nat) : Option α := if i < v.capacity then v.vec i else none

/-- `vec[i] = y` -/
def store (v : UVector α) (i : Nat) (y : α) : Option (UVector α) :=
  if i < v.capacity then some { v with vec := Function.update v.vec i (some y) } else none

/-- The entries are copied, as many as the vector has elements. -/
def reserve (v : UVector α) (n : Nat) : Option (UVector α) :=
  if n = v.capacity then some v
  else
    let capacity := mallocNum (if n = 0 then 64 else n)
    if v.length ≤ capacity ∧ v.length ≤ v.capacity then
      some { v with vec := fun i => if i < v.length then v.vec i else none, capacity }
    else none

/-- `if (++_length == _capacity) reserve(_capacity * 2)` -/
def lengthen (v : UVector α) : Option (UVector α) :=
  let v := { v with length := (v.length + 1) % 2 ^ 32 }
  if v.length = v.capacity then reserve v (v.capacity * 2 % 2 ^ 32) else some v

section
variable [Preorder α] [DecidableLE α]

/-- The loop of `bh_put` from the insertion point `i`, and the store behind it. `none` is a fault,
or a loop that did not end in so many rounds. -/
def putLoop (elem : α) : Nat → UVector α → Nat → Option (UVector α)
  | 0, _, _ => none
  | fuel + 1, v, i =>
      if 2 ≤ i then do
        let y ← load v (i / 2)
        if y ≤ elem then store v i elem
        else do
          let v ← store v i y
          putLoop elem fuel v (i / 2)
      else store v i elem

def bhPut (v : UVector α) (elem : α) : Option (UVector α) :=
  (lengthen v).bind fun v => putLoop elem (v.length + 1) v v.length

variable [DecidableLT α]

/-- The child with the minimum, unless there is only one. -/
def minChild (v : UVector α) (k : Nat) : Option (α × Nat) := do
  let z ← load v k
  if k < v.length then
    let z' ← load v (k + 1)
    some (if z' < z then (z', k + 1) else (z, k))
  else some (z, k)

/-- The loop of `bh_get` from the insertion point `j`, and the store behind it. -/
def getLoop (y : α) : Nat → UVector α → Nat → Option (UVector α)
  | 0, _, _ => none
  | fuel + 1, v, j =>
      if 2 * j ≤ v.length then do
        let (z, k) ← minChild v (2 * j)
        if y ≤ z then store v j y
        else do
          let v ← store v j z
          getLoop y fuel v k
      else store v j y

/-- The element, which is null if there is none, and the vector. -/
def bhGet (v : UVector α) : Option (Option α × UVector α) :=
  if v.length = 0 then some (none, v)
  else do
    let elem ← load v 1
    let y ← load v v.length
    let v ← getLoop y v.length { v with length := v.length - 1 } 1
    some (some elem, v)

inductive Op (α : Type*) where
  | put (elem : α)
  | get

/-- What a call returns, and the vector. -/
def call (v : UVector α) : Op α → Option (Option α × UVector α)
  | .put elem => (bhPut v elem).map (none, ·)
  | .get => bhGet v

def run (v : UVector α) (ops : List (Op α)) : Option (UVector α) :=
  ops.foldlM (fun v op => (call v op).map Prod.snd) v

end

/-! ### Heaps -/

/-- The elements of the vector. -/
def contents (v : UVector α) : Multiset α := (Finset.Icc 1 v.length).val.filterMap v.vec

/-- The entries of the vector are those of `f`. -/
def Holds (v : UVector α) (f : Nat → α) : Prop :=
  ∀ i, 1 ≤ i → i ≤ v.length → v.vec i = some (f i)

/-- A heap with an entry for the next element. -/
structure IsHeap [LE α] (v : UVector α) : Prop where
  room : v.length < v.capacity
  capacity_lt : v.capacity < 2 ^ 29
  filled : ∀ i, 1 ≤ i → i ≤ v.length → v.vec i ≠ none
  ordered : ∀ k x y, 2 ≤ k → k ≤ v.length → v.vec (k / 2) = some x → v.vec k = some y → x ≤ y

theorem contents_of_holds {v : UVector α} {f : Nat → α} (h : Holds v f) :
    contents v = entries f v.length := by
  have hcongr : ∀ s : Multiset Nat, (∀ i ∈ s, v.vec i = some (f i)) →
      s.filterMap v.vec = s.filterMap (some ∘ f) := fun s =>
    Quot.inductionOn s fun _ hl => congrArg _ (List.filterMap_congr hl)
  rw [contents, entries, ← Multiset.filterMap_eq_map]
  refine hcongr _ fun i hi => ?_
  obtain ⟨hi1, hin⟩ := Finset.mem_Icc.mp (Finset.mem_val.mp hi)
  exact h i hi1 hin

section
variable [Preorder α] {v : UVector α} {f : Nat → α}

theorem isHeap_of_holds (hroom : v.length < v.capacity) (hcapacity : v.capacity < 2 ^ 29)
    (h : Holds v f) (hf : Ordered f v.length) : IsHeap v where
  room := hroom
  capacity_lt := hcapacity
  filled i hi hin := by
    rw [h i hi hin]
    exact Option.some_ne_none _
  ordered k x y hk hkn hx hy := by
    rw [h _ (by omega) (by omega)] at hx
    rw [h _ (by omega) hkn] at hy
    cases hx
    cases hy
    exact hf k hk hkn

/-- The entries of a heap; there is a value where it has none. -/
theorem IsHeap.holds (h : IsHeap v) (y : α) : Holds v fun i => (v.vec i).getD y := by
  intro i hi hin
  obtain ⟨x, hx⟩ := Option.ne_none_iff_exists'.mp (h.filled i hi hin)
  simp only [hx, Option.getD_some]

theorem IsHeap.ordered_getD (h : IsHeap v) (y : α) :
    Ordered (fun i => (v.vec i).getD y) v.length := fun k hk hkn =>
  h.ordered k _ _ hk hkn (h.holds y _ (by omega) (by omega)) (h.holds y k (by omega) hkn)

end

/-! ### bh_put -/

/-- The capacity with one more element. -/
def grownCapacity (v : UVector α) : Nat :=
  if v.length + 1 = v.capacity then mallocNum (v.capacity * 2) else v.capacity

/-- The array has an entry for one more element, or it becomes larger. -/
theorem lengthen_spec {v : UVector α} (h : v.length < v.capacity) (hcapacity : v.capacity < 2 ^ 29)
    (hfits : v.length + 1 = v.capacity → v.capacity * 2 ≤ maxCount) :
    ∃ w, lengthen v = some w ∧ w.length = v.length + 1 ∧ w.capacity = grownCapacity v ∧
      w.length < w.capacity ∧ w.capacity < 2 ^ 29 ∧ ∀ k, k ≤ v.length → w.vec k = v.vec k := by
  have hlength : (v.length + 1) % 2 ^ 32 = v.length + 1 := Nat.mod_eq_of_lt (by omega)
  have hdouble : v.capacity * 2 % 2 ^ 32 = v.capacity * 2 := Nat.mod_eq_of_lt (by omega)
  rw [lengthen, hlength, hdouble, grownCapacity]
  dsimp only
  split_ifs with hfull
  · have hmalloc := le_mallocNum (hfits hfull)
    refine ⟨⟨fun i => if i < v.length + 1 then v.vec i else none, v.length + 1,
      mallocNum (v.capacity * 2)⟩, ?_, rfl, rfl, ?_, hmalloc.2,
      fun k hk => if_pos (Nat.lt_succ_of_le hk)⟩
    · rw [reserve, if_neg (show v.capacity * 2 ≠ v.capacity by omega)]
      dsimp only
      rw [if_neg (show v.capacity * 2 ≠ 0 by omega), if_pos ⟨by omega, hfull.le⟩]
    · dsimp only
      omega
  · exact ⟨⟨v.vec, v.length + 1, v.capacity⟩, rfl, rfl, rfl, by dsimp only; omega, hcapacity,
      fun _ _ => rfl⟩

theorem isHeap_created [LE α] {n : Nat} (hn : n ≤ maxCount) :
    IsHeap (created n : UVector α) := by
  have hmalloc := le_mallocNum hn
  have hpos : 0 < mallocNum n := by
    rcases n.eq_zero_or_pos with rfl | hpos
    · decide
    · omega
  exact ⟨hpos, hmalloc.2, fun i hi hin => absurd (hi.trans hin) (Nat.not_succ_le_zero 0),
    fun _ _ _ _ _ hx _ => nomatch hx⟩

theorem load_of_lt {v : UVector α} {i : Nat} (h : i < v.capacity) : load v i = v.vec i := if_pos h

theorem store_of_lt {v : UVector α} {i : Nat} (h : i < v.capacity) (y : α) :
    store v i y = some { v with vec := Function.update v.vec i (some y) } := if_pos h

/-- The store at the insertion point fills the hole. -/
theorem holds_store {v : UVector α} {f : Nat → α} {i : Nat}
    (h : ∀ k, 1 ≤ k → k ≤ v.length → k ≠ i → v.vec k = some (f k)) :
    Holds { v with vec := Function.update v.vec i (some (f i)) } f := by
  intro k hk hkn
  dsimp only at hkn ⊢
  by_cases hki : k = i
  · rw [hki, Function.update_self]
  · rw [Function.update_of_ne hki]
    exact h k hk hkn hki

/-- An entry moves into the hole, and the hole is where the entry was. -/
theorem hole_store {v : UVector α} {f : Nat → α} {i j : Nat}
    (h : ∀ k, 1 ≤ k → k ≤ v.length → k ≠ i → v.vec k = some (f k)) {k : Nat} (hk : 1 ≤ k)
    (hkn : k ≤ v.length) (hkj : k ≠ j) :
    Function.update v.vec i (some (f j)) k = some ((f ∘ Equiv.swap i j) k) := by
  by_cases hki : k = i
  · rw [hki, Function.update_self, Function.comp_apply, Equiv.swap_apply_left]
  · rw [Function.update_of_ne hki, Function.comp_apply, Equiv.swap_apply_of_ne_of_ne hki hkj]
    exact h k hk hkn hki

section
variable [Preorder α] [DecidableLE α] [Std.Total (α := α) (· ≤ ·)]

/-- The insertion point goes up in a heap that has a hole there. -/
theorem putLoop_spec {elem : α} {v : UVector α} {f : Nat → α} {fuel i : Nat}
    (hroom : v.length < v.capacity)
    (h : ∀ k, 1 ≤ k → k ≤ v.length → k ≠ i → v.vec k = some (f k)) (hf : f i = elem)
    (horder : UpOrder f v.length i) (hi : 1 ≤ i) (hin : i ≤ v.length) (hfuel : i < fuel) :
    ∃ vec g, putLoop elem fuel v i = some { v with vec } ∧ Holds { v with vec } g ∧
      Ordered g v.length ∧ entries g v.length = entries f v.length := by
  induction fuel generalizing v f i with
  | zero => exact absurd hfuel (Nat.not_lt_zero i)
  | succ fuel ih =>
      have hstop (hle : 2 ≤ i → f (i / 2) ≤ f i) : ∃ vec g,
          store v i elem = some { v with vec } ∧ Holds { v with vec } g ∧
            Ordered g v.length ∧ entries g v.length = entries f v.length := by
        refine ⟨_, f, store_of_lt (by omega) elem, ?_, horder.ordered hle, rfl⟩
        rw [← hf]
        exact holds_store h
      rw [putLoop]
      split_ifs with htop
      · have hparent : load v (i / 2) = some (f (i / 2)) := by
          rw [load_of_lt (by omega)]
          exact h _ (by omega) (by omega) (by omega)
        rw [hparent, Option.bind_eq_bind, Option.bind_some]
        split_ifs with hle
        · exact hstop fun _ => hf ▸ hle
        · -- the parent moves down
          have hge : f i ≤ f (i / 2) := by
            rw [hf]
            exact (Std.Total.total _ _).resolve_left hle
          rw [store_of_lt (by omega), Option.bind_eq_bind, Option.bind_some]
          obtain ⟨vec, g, hloop, hholds, hordered, hentries⟩ := ih
            (v := { v with vec := Function.update v.vec i (some (f (i / 2))) }) (i := i / 2) hroom
            (fun k hk hkn hkj => hole_store h hk hkn hkj)
            (by rw [Function.comp_apply, Equiv.swap_apply_right, hf])
            (horder.swap htop hin hge) (by omega) (show i / 2 ≤ v.length by omega) (by omega)
          have hswap := entries_swap f hi hin (j := i / 2) (by omega) (by omega)
          exact ⟨vec, g, hloop, hholds, hordered, hentries.trans hswap⟩
      · exact hstop fun h2 => absurd h2 htop

/-- What `bh_put` does with a heap. -/
theorem bhPut_spec {v : UVector α} (h : IsHeap v) (elem : α)
    (hfits : v.length + 1 = v.capacity → v.capacity * 2 ≤ maxCount) :
    ∃ w, bhPut v elem = some w ∧ IsHeap w ∧ contents w = elem ::ₘ contents v ∧
      w.length = v.length + 1 ∧ w.capacity = grownCapacity v := by
  obtain ⟨w, hw, hlength, hgrown, hroom, hcapacity, hvec⟩ :=
    lengthen_spec h.room h.capacity_lt hfits
  let f : Nat → α := Function.update (fun i => (v.vec i).getD elem) (v.length + 1) elem
  have hf : ∀ k, k ≤ v.length → f k = (v.vec k).getD elem := fun k hk =>
    Function.update_of_ne (by omega) _ _
  have hordered : Ordered f v.length := (h.ordered_getD elem).congr fun k _ hkn => (hf k hkn).symm
  obtain ⟨vec, g, hloop, hholds, hg, hentries⟩ := @putLoop_spec α _ _ _ elem w f
    (w.length + 1) w.length hroom
    (fun k hk hkn hne => by
      rw [hvec k (by omega), hf k (by omega)]
      exact h.holds elem k hk (by omega))
    (by rw [hlength]; exact Function.update_self _ _ _)
    (by rw [hlength]; exact hordered.upOrder) (by omega) le_rfl (Nat.lt_succ_self _)
  refine ⟨{ w with vec }, ?_, isHeap_of_holds hroom hcapacity hholds hg, ?_, hlength, hgrown⟩
  · rw [bhPut, hw]
    exact hloop
  · have hrest : entries f v.length = contents v := by
      rw [contents_of_holds (h.holds elem)]
      exact entries_congr fun k _ hkn => hf k hkn
    rw [contents_of_holds hholds]
    change entries g w.length = _
    rw [hentries, hlength, entries_succ, hrest]
    exact congrArg (· ::ₘ contents v) (Function.update_self _ _ _)

/-! ### bh_get -/

omit [DecidableLE α] in
theorem le_of_not_gt_total {x y : α} (h : ¬y < x) : x ≤ y := by
  rcases Std.Total.total (r := (· ≤ ·)) x y with hle | hge
  · exact hle
  · by_contra hnot
    exact h (lt_of_le_not_ge hge hnot)

variable [DecidableLT α]

omit [DecidableLE α] in
theorem minChild_spec {v : UVector α} {f : Nat → α} {j : Nat} (hroom : v.length < v.capacity)
    (h : ∀ k, 1 ≤ k → k ≤ v.length → k ≠ j → v.vec k = some (f k)) (hj : 1 ≤ j)
    (hchild : 2 * j ≤ v.length) :
    ∃ k, minChild v (2 * j) = some (f k, k) ∧ k / 2 = j ∧ k ≤ v.length ∧
      ∀ l, l / 2 = j → l ≤ v.length → f k ≤ f l := by
  have hload : ∀ k, 2 * j ≤ k → k ≤ v.length → load v k = some (f k) := by
    intro k hk hkn
    rw [load_of_lt (by omega)]
    exact h k (by omega) hkn (by omega)
  rw [minChild, hload (2 * j) le_rfl hchild, Option.bind_eq_bind, Option.bind_some]
  split_ifs with htwo
  · rw [hload (2 * j + 1) (by omega) (by omega), Option.bind_some]
    by_cases hlt : f (2 * j + 1) < f (2 * j)
    · refine ⟨2 * j + 1, by rw [if_pos hlt], by omega, by omega, fun l hl hln => ?_⟩
      obtain rfl | rfl : l = 2 * j ∨ l = 2 * j + 1 := by omega
      · exact hlt.le
      · exact le_rfl
    · refine ⟨2 * j, by rw [if_neg hlt], by omega, by omega, fun l hl hln => ?_⟩
      obtain rfl | rfl : l = 2 * j ∨ l = 2 * j + 1 := by omega
      · exact le_rfl
      · exact le_of_not_gt_total hlt
  · refine ⟨2 * j, rfl, by omega, hchild, fun l hl hln => ?_⟩
    obtain rfl : l = 2 * j := by omega
    exact le_rfl

/-- The insertion point goes down in a heap that has a hole there. -/
theorem getLoop_spec {y : α} {v : UVector α} {f : Nat → α} {fuel j : Nat}
    (hroom : v.length < v.capacity)
    (h : ∀ k, 1 ≤ k → k ≤ v.length → k ≠ j → v.vec k = some (f k)) (hf : f j = y)
    (horder : DownOrder f v.length j) (hj : 1 ≤ j) (hjn : j ≤ v.length + 1) (hjc : j < v.capacity)
    (hfuel : v.length + 2 ≤ fuel + j) :
    ∃ vec g, getLoop y fuel v j = some { v with vec } ∧ Holds { v with vec } g ∧
      Ordered g v.length ∧ entries g v.length = entries f v.length := by
  induction fuel generalizing v f j with
  | zero => omega
  | succ fuel ih =>
      have hstop (hle : ∀ k, k / 2 = j → k ≤ v.length → f j ≤ f k) : ∃ vec g,
          store v j y = some { v with vec } ∧ Holds { v with vec } g ∧
            Ordered g v.length ∧ entries g v.length = entries f v.length := by
        refine ⟨_, f, store_of_lt hjc y, ?_, horder.ordered hle, rfl⟩
        rw [← hf]
        exact holds_store h
      rw [getLoop]
      split_ifs with hchild
      · obtain ⟨k, hmin, hk, hkn, hle⟩ := minChild_spec hroom h hj hchild
        rw [hmin, Option.bind_eq_bind, Option.bind_some]
        dsimp only
        split_ifs with hyz
        · exact hstop fun l hl hln => by
            rw [hf]
            exact hyz.trans (hle l hl hln)
        · -- the child moves up
          have hge : f k ≤ f j := by
            rw [hf]
            exact (Std.Total.total _ _).resolve_left hyz
          rw [store_of_lt hjc, Option.bind_eq_bind, Option.bind_some]
          obtain ⟨vec, g, hloop, hholds, hordered, hentries⟩ := ih
            (v := { v with vec := Function.update v.vec j (some (f k)) }) (j := k) hroom
            (fun l hl hln hlk => hole_store h hl hln hlk)
            (by rw [Function.comp_apply, Equiv.swap_apply_right, hf])
            (horder.swap hk hj hkn hge hle) (by omega) (hkn.trans (Nat.le_succ _))
            (hkn.trans_lt hroom) (show v.length + 2 ≤ fuel + k by omega)
          have hswap := entries_swap f hj (show j ≤ v.length by omega) (show 1 ≤ k by omega) hkn
          exact ⟨vec, g, hloop, hholds, hordered, hentries.trans hswap⟩
      · exact hstop fun k hk hkn => absurd hkn (by omega)

/-- What `bh_get` does with a heap. -/
theorem bhGet_spec {v : UVector α} (h : IsHeap v) (hne : v.length ≠ 0) :
    ∃ x w, bhGet v = some (some x, w) ∧ IsHeap w ∧ contents v = x ::ₘ contents w ∧
      (∀ y ∈ contents v, x ≤ y) ∧ w.length + 1 = v.length := by
  obtain ⟨n, hn⟩ := Nat.exists_eq_succ_of_ne_zero hne
  obtain ⟨x, hx⟩ := Option.ne_none_iff_exists'.mp (h.filled 1 le_rfl (by omega))
  obtain ⟨y, hy⟩ := Option.ne_none_iff_exists'.mp (h.filled v.length (by omega) le_rfl)
  let f : Nat → α := fun i => (v.vec i).getD x
  have hroom := h.room
  have hholds : Holds v f := h.holds x
  have hordered : Ordered f (n + 1) := by
    have hordered := h.ordered_getD x
    rwa [hn] at hordered
  have hfirst : f 1 = x := by simp only [f, hx, Option.getD_some]
  have hlast : f (n + 1) = y := by
    rw [hn] at hy
    simp only [f, hy, Option.getD_some]
  have hcontents : contents v = entries f (n + 1) := by rw [contents_of_holds hholds, hn]
  obtain ⟨vec, g, hloop, hg, hgordered, hentries⟩ := @getLoop_spec α _ _ _ _ y
    { v with length := v.length - 1 } (Function.update f 1 y) v.length 1
    (show v.length - 1 < v.capacity by omega)
    (fun k hk hkn hne => by
      rw [Function.update_of_ne hne]
      exact hholds k hk (by dsimp only at hkn; omega))
    (Function.update_self _ _ _)
    (by rw [hn]; exact hordered.downOrder y) le_rfl (Nat.le_add_left _ _)
    (show 1 < v.capacity by omega) (show v.length - 1 + 2 ≤ v.length + 1 by omega)
  refine ⟨x, ⟨vec, v.length - 1, v.capacity⟩, ?_, ?_, ?_, ?_, ?_⟩
  · rw [bhGet, if_neg hne, load_of_lt (by omega), hx, load_of_lt hroom, hy]
    simp only [Option.bind_eq_bind, Option.bind_some]
    rw [hloop]
    rfl
  · exact isHeap_of_holds (show v.length - 1 < v.capacity by omega) h.capacity_lt hg hgordered
  · rw [hcontents, entries_root, hfirst, hlast, contents_of_holds hg]
    dsimp only
    rw [hentries, hn]
    rfl
  · intro z hz
    rw [hcontents] at hz
    rw [← hfirst]
    exact hordered.root_le_entries hz
  · dsimp only
    omega

/-! ### Runs -/

/-- A call that makes the array larger asks for a block whose bytes can be counted. -/
def Fits (v : UVector α) : Op α → Prop
  | .put _ => v.length + 1 = v.capacity → v.capacity * 2 ≤ maxCount
  | .get => True

omit [Preorder α] [DecidableLE α] [Std.Total (α := α) (· ≤ ·)] [DecidableLT α] in
instance decidableFits (v : UVector α) : (op : Op α) → Decidable (Fits v op)
  | .put _ => inferInstanceAs (Decidable (_ → _))
  | .get => isTrue trivial

/-- Every call of the run does. -/
def FitsRun : UVector α → List (Op α) → Prop
  | _, [] => True
  | v, op :: ops => Fits v op ∧
      match call v op with
      | some (_, w) => FitsRun w ops
      | none => True

omit [Std.Total (α := α) (· ≤ ·)] in
instance decidableFitsRun : (v : UVector α) → (ops : List (Op α)) → Decidable (FitsRun v ops)
  | _, [] => isTrue trivial
  | v, op :: ops =>
      have : Decidable (match call v op with | some (_, w) => FitsRun w ops | none => True) :=
        match call v op with
        | some (_, w) => decidableFitsRun w ops
        | none => isTrue trivial
      inferInstanceAs (Decidable (_ ∧ _))

/-- What a call of the heap does with its elements. -/
def CallSpec (v : UVector α) : Op α → Prop
  | .put elem => ∃ w, call v (.put elem) = some (none, w) ∧ IsHeap w ∧
      contents w = elem ::ₘ contents v
  | .get => (contents v = 0 ∧ call v .get = some (none, v)) ∨
      ∃ x w, call v .get = some (some x, w) ∧ IsHeap w ∧ contents v = x ::ₘ contents w ∧
        ∀ y ∈ contents v, x ≤ y

/-- A step of a run. -/
theorem callSpec_of_fits {v : UVector α} (h : IsHeap v) {op : Op α} (hfits : Fits v op) :
    CallSpec v op := by
  cases op with
  | put elem =>
      obtain ⟨w, hput, hw, hcontents, -, -⟩ := bhPut_spec h elem hfits
      exact ⟨w, by rw [call, hput]; rfl, hw, hcontents⟩
  | get =>
      by_cases hempty : v.length = 0
      · refine .inl ⟨?_, if_pos hempty⟩
        rw [contents, hempty]
        rfl
      · obtain ⟨x, w, hget, hw, hcontents, hmin, -⟩ := bhGet_spec h hempty
        exact .inr ⟨x, w, hget, hw, hcontents, hmin⟩

omit [Std.Total (α := α) (· ≤ ·)] in
theorem CallSpec.exists_call {v : UVector α} (h : IsHeap v) {op : Op α} (hspec : CallSpec v op) :
    ∃ x w, call v op = some (x, w) ∧ IsHeap w := by
  cases op with
  | put elem =>
      obtain ⟨w, hcall, hw, -⟩ := hspec
      exact ⟨none, w, hcall, hw⟩
  | get =>
      rcases hspec with ⟨-, hcall⟩ | ⟨x, w, hcall, hw, -, -⟩
      · exact ⟨none, v, hcall, h⟩
      · exact ⟨some x, w, hcall, hw⟩

theorem run_isHeap {v : UVector α} (h : IsHeap v) {ops : List (Op α)} (hops : FitsRun v ops) :
    ∃ w, run v ops = some w ∧ IsHeap w := by
  induction ops generalizing v with
  | nil => exact ⟨v, rfl, h⟩
  | cons op ops ih =>
      obtain ⟨hfits, hrest⟩ := hops
      obtain ⟨x, w, hcall, hw⟩ := (callSpec_of_fits h hfits).exists_call h
      rw [hcall] at hrest
      obtain ⟨u, hrun, hu⟩ := ih hw hrest
      refine ⟨u, ?_, hu⟩
      rw [run, List.foldlM_cons, hcall]
      exact hrun

/-- Every run from a vector without elements ends in a heap, and every further call adds its
element, or takes away and returns a minimum. No call uses an entry that the array does not have. -/
theorem run_heap {n : Nat} (hn : n ≤ maxCount) {ops : List (Op α)}
    (hops : FitsRun (created n) ops) :
    ∃ v, run (created n) ops = some v ∧ IsHeap v ∧ ∀ op, Fits v op → CallSpec v op := by
  obtain ⟨v, hrun, hv⟩ := run_isHeap (isHeap_created hn) hops
  exact ⟨v, hrun, hv, fun op => callSpec_of_fits hv⟩

end

/-- Three elements, for the last of which the array becomes larger. -/
theorem run_heap_grown :
    ∃ v, run (created 2) [Op.put 3, .put 1, .put 2, .get] = some v ∧ IsHeap v ∧
      ∀ op, Fits v op → CallSpec v op :=
  run_heap (α := Nat) (n := 2) (by decide) (by decide)

/-! ### Where the bytes cannot be counted -/

/-- The array of a vector with the default size has a power of two for its capacity. -/
theorem run_replicate {k : Nat} (hk : k < 2 ^ 28) :
    ∃ v, run (created 64) (List.replicate k (Op.put 0)) = some v ∧ IsHeap v ∧ v.length = k ∧
      ∃ e ∈ Finset.Icc 6 28, v.capacity = 2 ^ e := by
  induction k with
  | zero => exact ⟨created 64, rfl, isHeap_created (by decide), rfl, 6, by decide, by decide⟩
  | succ k ih =>
      obtain ⟨v, hrun, hv, hlength, e, he, hcapacity⟩ := ih (by omega)
      have hroom := hv.room
      have hdouble : v.length + 1 = v.capacity → e ∈ Finset.Icc 6 27 := by
        intro hfull
        obtain ⟨he6, he28⟩ := Finset.mem_Icc.mp he
        rw [Finset.mem_Icc]
        refine ⟨he6, Nat.le_of_lt_succ (lt_of_le_of_ne he28 ?_)⟩
        rintro rfl
        omega
      have hgrown : ∀ e ∈ Finset.Icc 6 27, 2 ^ e * 2 ≤ maxCount ∧
          mallocNum (2 ^ e * 2) = 2 ^ (e + 1) ∧ e + 1 ∈ Finset.Icc 6 28 := by decide
      obtain ⟨w, hput, hw, -, hlength', hcapacity'⟩ := bhPut_spec hv 0 fun hfull => by
        rw [hcapacity]
        exact (hgrown e (hdouble hfull)).1
      refine ⟨w, ?_, hw, by omega, ?_⟩
      · rw [List.replicate_succ', run, List.foldlM_append]
        rw [run] at hrun
        rw [hrun]
        simp only [Option.bind_eq_bind, Option.bind_some, List.foldlM_cons, List.foldlM_nil, call,
          hput]
        rfl
      · rw [hcapacity', grownCapacity]
        split_ifs with hfull
        · obtain ⟨-, hmalloc, hmem⟩ := hgrown e (hdouble hfull)
          exact ⟨e + 1, hmem, by rw [hcapacity, hmalloc]⟩
        · exact ⟨e, he, hcapacity⟩

/-- With so many elements the array would need `2 ^ 32` bytes, and gets a block for none. -/
theorem not_run_heap :
    ¬ ∃ v, run (created 64) (List.replicate (2 ^ 28) (Op.put 0)) = some v ∧ IsHeap v := by
  rintro ⟨u, hu, -⟩
  obtain ⟨v, hrun, hv, hlength, e, he, hcapacity⟩ := run_replicate (k := 2 ^ 28 - 1) (by decide)
  have hroom := hv.room
  have hlast : 2 ^ 28 = 2 ^ 28 - 1 + 1 := by decide
  rw [hlast, List.replicate_succ', run, List.foldlM_append] at hu
  rw [run] at hrun
  rw [hrun] at hu
  have hfull : v.capacity = 2 ^ 28 := by
    have hpow : ∀ e ∈ Finset.Icc 6 28, 2 ^ e ≤ 2 ^ 28 := by decide
    have hle := hpow e he
    omega
  have hlengthen : lengthen v = none := by
    rw [lengthen, reserve, hfull, hlength]
    dsimp only
    rw [if_pos (by decide), if_neg (by decide), if_neg (by decide)]
  rw [Option.bind_eq_bind, Option.bind_some, List.foldlM_cons, call, bhPut, hlengthen] at hu
  exact nomatch hu

end ULib.VectorHeap
