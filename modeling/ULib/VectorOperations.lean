import ULib.Runs
import ULib.VectorHeap

/-!
The operations of `UVector<void*>` on the array: `push`, `insert`, `erase` and
the others of `container/vector.h` and `container/vector.cpp`, which move the
entries behind a position and make a larger array when there is no room. As
long as the array can be allocated they do what the operations on a list do.
-/

namespace ULib.VectorOperations

open ULib.HashMap (mallocNum maxCount le_mallocNum)
open ULib.Runs
open ULib.VectorHeap (UVector load store created reserve load_of_lt store_of_lt)

variable {α : Type*}

/-- `memmove` of `n` entries. -/
def moved (v : UVector α) (dst src n : Nat) : Option (UVector α) :=
  if dst + n ≤ v.capacity ∧ src + n ≤ v.capacity then
    some { v with
      vec := fun i => if dst ≤ i ∧ i < dst + n then v.vec (i - dst + src) else v.vec i }
  else none

/-- The new array of `push` and `insert`, into which the entries before `pos`
are copied, and the others `n` further. -/
def grown (v : UVector α) (size pos n : Nat) : Option (UVector α) :=
  let capacity := mallocNum size
  if v.length + n ≤ capacity then
    some { v with
      vec := fun i => if i < pos then v.vec i else if i < pos + n then none
        else if i < v.length + n then v.vec (i - n) else none
      capacity }
  else none

def push (v : UVector α) (elem : α) : Option (UVector α) :=
  (if v.length = v.capacity then grown v (v.capacity * 2 % 2 ^ 32) v.length 0
    else some v).bind fun v =>
      (store v v.length elem).map fun v => { v with length := (v.length + 1) % 2 ^ 32 }

def insert (v : UVector α) (pos : Nat) (elem : α) : Option (UVector α) :=
  if v.length < pos then none
  else
    (if v.length = v.capacity then grown v (v.capacity * 2 % 2 ^ 32) pos 1
      else moved v (pos + 1) pos (v.length - pos)).bind fun v =>
        (store v pos elem).map fun v => { v with length := (v.length + 1) % 2 ^ 32 }

/-- `for (i = 0; i < n; ++i) vec[pos++] = elem` -/
def fill (elem : α) : Nat → UVector α → Nat → Option (UVector α)
  | 0, v, _ => some v
  | n + 1, v, pos => do
      let v ← store v pos elem
      fill elem n v (pos + 1)

/-- `insert(pos, n, elem)` -/
def insertCopies (v : UVector α) (pos n : Nat) (elem : α) : Option (UVector α) :=
  if v.length < pos then none
  else
    let newLength := (v.length + n) % 2 ^ 32
    (if v.capacity < newLength then grown v (newLength * 2 % 2 ^ 32) pos n
      else moved v (pos + n) pos (v.length - pos)).bind fun v =>
        (fill elem n v pos).map fun v => { v with length := newLength }

def erase (v : UVector α) (pos : Nat) : Option (UVector α) :=
  if v.length ≤ pos then none
  else
    let v := { v with length := v.length - 1 }
    if v.length ≠ 0 then moved v pos (pos + 1) (v.length - pos) else some v

/-- `erase(first, last)` -/
def eraseRange (v : UVector α) (first last : Nat) : Option (UVector α) :=
  if last ≤ v.length ∧ first < last then
    let newLength := v.length - (last - first)
    (if newLength ≠ 0 then moved v first last (v.length - last) else some v).map fun v =>
      { v with length := newLength }
  else none

def top (v : UVector α) : Option α := if v.length = 0 then none else load v (v.length - 1)

def pop (v : UVector α) : Option (α × UVector α) :=
  (top v).map fun elem => (elem, { v with length := v.length - 1 })

def swap (v : UVector α) (i j : Nat) : Option (UVector α) := do
  let tmp ← load v i
  let v ← store v i (← load v j)
  store v j tmp

/-- `assign` of `UVector<T*>`, for pointers. -/
def assign (v : UVector α) (n : Nat) (elem : α) : Option (UVector α) :=
  let v := if v.capacity < n then { v with vec := fun _ => none, capacity := mallocNum n } else v
  (fill elem n v 0).map fun v => { v with length := n }

/-! ### Calls -/

inductive Call (α : Type*) where
  | push (elem : α)
  | pop
  | top
  | at (pos : Nat)
  | replace (pos : Nat) (elem : α)
  | insert (pos : Nat) (elem : α)
  | insertCopies (pos n : Nat) (elem : α)
  | erase (pos : Nat)
  | eraseRange (first last : Nat)
  | swap (i j : Nat)
  | assign (n : Nat) (elem : α)
  | reserve (n : Nat)
  | clear
  deriving DecidableEq, Repr

/-- The element that a call returns, and the vector. -/
def step (v : UVector α) : Call α → Option (Option α × UVector α)
  | .push elem => (push v elem).map (none, ·)
  | .pop => (pop v).map fun (elem, v) => (some elem, v)
  | .top => (top v).map fun elem => (some elem, v)
  | .at pos => (load v pos).map fun elem => (some elem, v)
  | .replace pos elem => (store v pos elem).map (none, ·)
  | .insert pos elem => (insert v pos elem).map (none, ·)
  | .insertCopies pos n elem => (insertCopies v pos n elem).map (none, ·)
  | .erase pos => (erase v pos).map (none, ·)
  | .eraseRange first last => (eraseRange v first last).map (none, ·)
  | .swap i j => (swap v i j).map (none, ·)
  | .assign n elem => (assign v n elem).map (none, ·)
  | .reserve n => (reserve v n).map (none, ·)
  | .clear => some (none, { v with length := 0 })

/-! ### The list -/

/-- What a call makes of the list. -/
def next (l : List α) : Call α → List α
  | .push elem => l ++ [elem]
  | .pop => l.dropLast
  | .top => l
  | .at _ => l
  | .replace pos elem => l.set pos elem
  | .insert pos elem => l.take pos ++ elem :: l.drop pos
  | .insertCopies pos n elem => l.take pos ++ (List.replicate n elem ++ l.drop pos)
  | .erase pos => l.eraseIdx pos
  | .eraseRange first last => l.take first ++ l.drop last
  | .swap i j => (l[i]?.bind fun x => l[j]?.map fun y => (l.set i y).set j x).getD l
  | .assign n elem => List.replicate n elem
  | .reserve _ => l
  | .clear => []

/-- What it returns. -/
def answer (l : List α) : Call α → Option α
  | .pop => l.getLast?
  | .top => l.getLast?
  | .at pos => l[pos]?
  | _ => none

/-- Twice as many pointers can be allocated at once. -/
def maxLength : Nat := maxCount / 2

/-- The positions are in the list, and the arrays can be allocated. An array
that is reserved has room for the elements. -/
def Permits (l : List α) : Call α → Prop
  | .push _ => l.length < maxLength
  | .pop => l ≠ []
  | .top => l ≠ []
  | .at pos => pos < l.length
  | .replace pos _ => pos < l.length
  | .insert pos _ => pos ≤ l.length ∧ l.length < maxLength
  | .insertCopies pos n _ => pos ≤ l.length ∧ l.length + n ≤ maxLength
  | .erase pos => pos < l.length
  | .eraseRange first last => first < last ∧ last ≤ l.length
  | .swap i j => i < l.length ∧ j < l.length
  | .assign n _ => n ≤ maxCount
  | .reserve n => n ≤ maxCount ∧ l.length ≤ mallocNum (if n = 0 then 64 else n)
  | .clear => True

instance (l : List α) : ∀ c, Decidable (Permits l c)
  | .push _ => inferInstanceAs (Decidable (_ < _))
  | .pop => decidable_of_iff (l.isEmpty = false) List.isEmpty_eq_false_iff
  | .top => decidable_of_iff (l.isEmpty = false) List.isEmpty_eq_false_iff
  | .at _ => inferInstanceAs (Decidable (_ < _))
  | .replace _ _ => inferInstanceAs (Decidable (_ < _))
  | .insert _ _ => inferInstanceAs (Decidable (_ ∧ _))
  | .insertCopies _ _ _ => inferInstanceAs (Decidable (_ ∧ _))
  | .erase _ => inferInstanceAs (Decidable (_ < _))
  | .eraseRange _ _ => inferInstanceAs (Decidable (_ ∧ _))
  | .swap _ _ => inferInstanceAs (Decidable (_ ∧ _))
  | .assign _ _ => inferInstanceAs (Decidable (_ ≤ _))
  | .reserve _ => inferInstanceAs (Decidable (_ ∧ _))
  | .clear => isTrue trivial

/-- The array has the list at its beginning. -/
structure Stores (v : UVector α) (l : List α) : Prop where
  length : v.length = l.length
  room : v.length ≤ v.capacity
  capacity_pos : 0 < v.capacity
  capacity_lt : v.capacity < 2 ^ 29
  entry : ∀ i < l.length, v.vec i = l[i]?

theorem mallocNum_bounds {n : Nat} (h : n ≤ maxCount) :
    n ≤ mallocNum n ∧ 0 < mallocNum n ∧ mallocNum n < 2 ^ 29 := by
  obtain ⟨hle, hlt⟩ := le_mallocNum h
  refine ⟨hle, ?_, hlt⟩
  rcases Nat.eq_zero_or_pos n with rfl | hpos
  · decide
  · omega

theorem stores_created {n : Nat} (hn : n ≤ maxCount) : Stores (created n : UVector α) [] :=
  ⟨rfl, Nat.zero_le _, (mallocNum_bounds hn).2.1, (mallocNum_bounds hn).2.2,
    fun _ h => absurd h (Nat.not_lt_zero _)⟩

variable {v : UVector α} {l : List α}

/-! ### One element -/

theorem load_spec (h : Stores v l) {i : Nat} (hi : i < l.length) : load v i = some l[i] := by
  have := h.length
  have := h.room
  rw [load_of_lt (by omega), h.entry i hi, List.getElem?_eq_getElem hi]

theorem store_spec (h : Stores v l) {i : Nat} (hi : i < l.length) (elem : α) :
    ∃ v', store v i elem = some v' ∧ Stores v' (l.set i elem) := by
  have hlength := h.length
  have hroom := h.room
  refine ⟨_, store_of_lt (by omega) elem, ⟨by rw [List.length_set]; exact hlength, hroom,
    h.capacity_pos, h.capacity_lt, fun j hj => ?_⟩⟩
  rw [List.length_set] at hj
  show Function.update v.vec i (some elem) j = _
  by_cases hji : j = i
  · rw [hji, Function.update_self, List.getElem?_set_self hi]
  · rw [Function.update_of_ne hji, List.getElem?_set_ne (fun heq => hji heq.symm), h.entry j hj]

/-! ### Room for more -/

/-- Before `insert` writes: the entries are where they belong, and those in
between are free. -/
structure Opened (v : UVector α) (l : List α) (pos n : Nat) : Prop where
  length : v.length = l.length
  room : l.length + n ≤ v.capacity
  capacity_pos : 0 < v.capacity
  capacity_lt : v.capacity < 2 ^ 29
  before : ∀ i < pos, v.vec i = l[i]?
  after : ∀ i, pos ≤ i → i < l.length → v.vec (i + n) = l[i]?

theorem grown_spec (h : Stores v l) {size pos n : Nat} (hpos : pos ≤ l.length)
    (hsize : size ≤ maxCount) (hn : l.length + n ≤ size) :
    ∃ v', grown v size pos n = some v' ∧ Opened v' l pos n ∧ size ≤ v'.capacity := by
  have hlength := h.length
  obtain ⟨hle, hgt, hlt⟩ := mallocNum_bounds hsize
  rw [grown, if_pos (by omega)]
  refine ⟨_, rfl, ⟨hlength, by dsimp only; omega, hgt, hlt, fun i hi => ?_,
    fun i hi hil => ?_⟩, hle⟩
  · dsimp only
    rw [if_pos hi, h.entry i (by omega)]
  · dsimp only
    rw [if_neg (by omega), if_neg (by omega), if_pos (by omega), Nat.add_sub_cancel,
      h.entry i hil]

theorem moved_spec (h : Stores v l) {pos n : Nat} (hpos : pos ≤ l.length)
    (hn : l.length + n ≤ v.capacity) :
    ∃ v', moved v (pos + n) pos (v.length - pos) = some v' ∧ Opened v' l pos n := by
  have hlength := h.length
  rw [moved, if_pos (by omega)]
  refine ⟨_, rfl, hlength, hn, h.capacity_pos, h.capacity_lt, fun i hi => ?_, fun i hi hil => ?_⟩
  · dsimp only
    rw [if_neg (by omega), h.entry i (by omega)]
  · dsimp only
    rw [if_pos (by omega), show i + n - (pos + n) + pos = i by omega, h.entry i hil]

theorem fill_eq {elem : α} {n pos : Nat} (h : pos + n ≤ v.capacity) :
    fill elem n v pos = some { v with
      vec := fun i => if pos ≤ i ∧ i < pos + n then some elem else v.vec i } := by
  induction n generalizing v pos with
  | zero =>
      have hvec : (fun i => if pos ≤ i ∧ i < pos + 0 then some elem else v.vec i) = v.vec :=
        funext fun i => if_neg (by omega)
      rw [fill, hvec]
  | succ n ih =>
      have hrest := @ih { v with vec := Function.update v.vec pos (some elem) } (pos + 1)
        (by dsimp only; omega)
      rw [fill, store_of_lt (by omega), Option.bind_eq_bind, Option.bind_some, hrest]
      congr
      funext i
      dsimp only
      by_cases hi : i = pos
      · rw [hi, if_neg (by omega), Function.update_self, if_pos (by omega)]
      · rw [Function.update_of_ne hi]
        exact if_congr (by omega) rfl rfl

/-- The free entries are filled. -/
theorem fill_spec (h : Opened v l pos n) (hpos : pos ≤ l.length) (elem : α) :
    ∃ v', fill elem n v pos = some v' ∧ v'.capacity = v.capacity ∧
      ∀ i < l.length + n, v'.vec i = (l.take pos ++ (List.replicate n elem ++ l.drop pos))[i]? := by
  have hroom := h.room
  refine ⟨_, fill_eq (by omega), rfl, fun i hi => ?_⟩
  have htake : (l.take pos).length = pos := List.length_take_of_le hpos
  have hreplicate : (List.replicate n elem).length = n := List.length_replicate
  dsimp only
  rw [List.getElem?_append, htake]
  split_ifs with hin hlt hlt
  · omega
  · rw [List.getElem?_append_left (by omega), List.getElem?_replicate, if_pos (by omega)]
  · rw [h.before i hlt, List.getElem?_take_of_lt hlt]
  · rw [List.getElem?_append_right (by omega), hreplicate, List.getElem?_drop]
    obtain ⟨j, rfl⟩ : ∃ j, i = j + n := ⟨i - n, by omega⟩
    rw [h.after j (by omega) (by omega)]
    congr 1
    omega

/-- The elements are written and counted. -/
theorem filled_spec (h : Opened v l pos n) (hpos : pos ≤ l.length) (elem : α) :
    ∃ v', fill elem n v pos = some v' ∧
      Stores { v' with length := (v.length + n) % 2 ^ 32 }
        (l.take pos ++ (List.replicate n elem ++ l.drop pos)) := by
  have hlength := h.length
  have hroom := h.room
  have hlt := h.capacity_lt
  have hgt := h.capacity_pos
  obtain ⟨v', hfill, hcapacity, hentry⟩ := fill_spec h hpos elem
  have hcount : (l.take pos ++ (List.replicate n elem ++ l.drop pos)).length = l.length + n := by
    rw [List.length_append, List.length_append, List.length_take_of_le hpos, List.length_replicate,
      List.length_drop]
    omega
  refine ⟨v', hfill, ⟨?_, ?_, ?_, ?_, fun i hi => hentry i (hcount ▸ hi)⟩⟩
  · rw [hcount]
    dsimp only
    omega
  · dsimp only
    omega
  · dsimp only
    omega
  · dsimp only
    omega

/-- One element is written and counted. -/
theorem stored_spec {pos : Nat} (h : Opened v l pos 1) (hpos : pos ≤ l.length) (elem : α) :
    ∃ v', (store v pos elem).map (fun v => { v with length := (v.length + 1) % 2 ^ 32 }) =
      some v' ∧ Stores v' (l.take pos ++ elem :: l.drop pos) := by
  have hroom := h.room
  obtain ⟨v', hfill, hstores⟩ := filled_spec h hpos elem
  rw [fill, store_of_lt (by omega)] at hfill
  obtain rfl := Option.some.inj hfill
  rw [store_of_lt (by omega)]
  exact ⟨_, rfl, hstores⟩

theorem push_spec (h : Stores v l) (hl : l.length < maxLength) (elem : α) :
    ∃ v', push v elem = some v' ∧ Stores v' (l ++ [elem]) := by
  have hlength := h.length
  have hroom := h.room
  have hpos := h.capacity_pos
  have hmax : maxLength * 2 = maxCount := rfl
  have hmax' : maxCount = 536870400 := rfl
  have hopened : ∃ v₁, (if v.length = v.capacity then
      grown v (v.capacity * 2 % 2 ^ 32) v.length 0 else some v) = some v₁ ∧
        Opened v₁ l l.length 1 := by
    split
    · obtain ⟨v₁, hgrown, hopened, hsize⟩ := @grown_spec _ v l h (v.capacity * 2 % 2 ^ 32)
        v.length 0 (by omega) (by omega) (by omega)
      exact ⟨v₁, hgrown, hopened.length, by omega, hopened.capacity_pos, hopened.capacity_lt,
        fun i hi => hopened.before i (by omega), fun i hi hil => by omega⟩
    · exact ⟨v, rfl, hlength, by omega, h.capacity_pos, h.capacity_lt, fun i hi => h.entry i hi,
        fun i hi hil => by omega⟩
  obtain ⟨v₁, hv₁, hopened⟩ := hopened
  obtain ⟨v', hstore, hstores⟩ := stored_spec hopened (Nat.le_refl _) elem
  rw [List.take_length, List.drop_length] at hstores
  rw [push, hv₁, Option.bind_some, hopened.length]
  exact ⟨v', hstore, hstores⟩

theorem insert_spec (h : Stores v l) {pos : Nat} (hpos : pos ≤ l.length)
    (hl : l.length < maxLength) (elem : α) :
    ∃ v', insert v pos elem = some v' ∧ Stores v' (l.take pos ++ elem :: l.drop pos) := by
  have hlength := h.length
  have hroom := h.room
  have hmax : maxLength * 2 = maxCount := rfl
  have hmax' : maxCount = 536870400 := rfl
  have hcap := h.capacity_pos
  have hopened : ∃ v₁, (if v.length = v.capacity then
      grown v (v.capacity * 2 % 2 ^ 32) pos 1 else moved v (pos + 1) pos (v.length - pos)) =
        some v₁ ∧ Opened v₁ l pos 1 := by
    split
    · obtain ⟨v₁, hgrown, hopened, -⟩ := @grown_spec _ v l h (v.capacity * 2 % 2 ^ 32)
        pos 1 hpos (by omega) (by omega)
      exact ⟨v₁, hgrown, hopened⟩
    · exact moved_spec h hpos (by omega)
  obtain ⟨v₁, hv₁, hopened⟩ := hopened
  obtain ⟨v', hstore, hstores⟩ := stored_spec hopened hpos elem
  rw [insert, if_neg (by omega), hv₁, Option.bind_some]
  exact ⟨v', hstore, hstores⟩

theorem insertCopies_spec (h : Stores v l) {pos n : Nat} (hpos : pos ≤ l.length)
    (hl : l.length + n ≤ maxLength) (elem : α) : ∃ v', insertCopies v pos n elem = some v' ∧
      Stores v' (l.take pos ++ (List.replicate n elem ++ l.drop pos)) := by
  have hlength := h.length
  have hroom := h.room
  have hmax : maxLength * 2 = maxCount := rfl
  have hmax' : maxCount = 536870400 := rfl
  have hnew : (v.length + n) % 2 ^ 32 = l.length + n := by
    rw [hlength]
    exact Nat.mod_eq_of_lt (by omega)
  have hopened : ∃ v₁, (if v.capacity < l.length + n then
      grown v ((l.length + n) * 2 % 2 ^ 32) pos n else moved v (pos + n) pos (v.length - pos)) =
        some v₁ ∧ Opened v₁ l pos n := by
    split
    · obtain ⟨v₁, hgrown, hopened, -⟩ := @grown_spec _ v l h ((l.length + n) * 2 % 2 ^ 32)
        pos n hpos (by omega) (by omega)
      exact ⟨v₁, hgrown, hopened⟩
    · exact moved_spec h hpos (by omega)
  obtain ⟨v₁, hv₁, hopened⟩ := hopened
  obtain ⟨v', hfill, hstores⟩ := filled_spec hopened hpos elem
  rw [insertCopies, if_neg (by omega)]
  dsimp only
  rw [hnew, hv₁, Option.bind_some, hfill]
  have hcount : (v₁.length + n) % 2 ^ 32 = l.length + n := by
    rw [hopened.length]
    exact Nat.mod_eq_of_lt (by omega)
  exact ⟨_, rfl, by rw [← hcount]; exact hstores⟩

theorem eraseRange_spec (h : Stores v l) {first last : Nat} (hfirst : first < last)
    (hlast : last ≤ l.length) :
    ∃ v', eraseRange v first last = some v' ∧ Stores v' (l.take first ++ l.drop last) := by
  have hlength := h.length
  have hroom := h.room
  have htake : (l.take first).length = first := List.length_take_of_le (by omega)
  have hcount : (l.take first ++ l.drop last).length = l.length - (last - first) := by
    rw [List.length_append, htake, List.length_drop]
    omega
  rw [eraseRange, if_pos (by omega)]
  dsimp only
  split
  · rw [moved, if_pos (by omega)]
    refine ⟨_, rfl, by rw [hcount, ← hlength], by dsimp only; omega, h.capacity_pos, h.capacity_lt,
      fun i hi => ?_⟩
    rw [hcount] at hi
    dsimp only
    rw [List.getElem?_append, htake]
    split_ifs with hin hlt hlt
    · omega
    · rw [List.getElem?_drop, h.entry _ (by omega)]
      congr 1
      omega
    · rw [h.entry i (by omega), List.getElem?_take_of_lt hlt]
    · omega
  · next hzero =>
    have hnil : l.take first ++ l.drop last = [] := by
      rw [← List.length_eq_zero_iff, hcount]
      omega
    rw [hnil]
    refine ⟨_, rfl, show v.length - (last - first) = 0 by omega,
      show v.length - (last - first) ≤ v.capacity by omega, h.capacity_pos, h.capacity_lt,
      fun i hi => absurd hi (Nat.not_lt_zero _)⟩

/-- One element is a range. -/
theorem erase_eq (h : v.length ≤ v.capacity) {pos : Nat} (hpos : pos < v.length) :
    erase v pos = eraseRange v pos (pos + 1) := by
  rw [erase, if_neg (by omega), eraseRange,
    if_pos (show pos + 1 ≤ v.length ∧ pos < pos + 1 by omega)]
  dsimp only
  rw [show v.length - (pos + 1 - pos) = v.length - 1 by omega]
  split
  · rw [moved, moved, if_pos (by dsimp only; omega), if_pos (by omega),
      show v.length - (pos + 1) = v.length - 1 - pos by omega]
    rfl
  · rfl

theorem top_spec (h : Stores v l) (hl : l ≠ []) : top v = l.getLast? := by
  have hlength := h.length
  have hpos := List.length_pos_iff.mpr hl
  rw [top, if_neg (by omega), load_of_lt (by have := h.room; omega), h.entry _ (by omega), hlength,
    List.getLast?_eq_getElem?]

theorem pop_spec (h : Stores v l) (hl : l ≠ []) :
    ∃ elem v', pop v = some (elem, v') ∧ l.getLast? = some elem ∧ Stores v' l.dropLast := by
  have hlength := h.length
  have hroom := h.room
  have hlast := List.getLast?_eq_some_getLast hl
  refine ⟨l.getLast hl, { v with length := v.length - 1 }, ?_, hlast, ?_⟩
  · rw [pop, top_spec h hl, hlast]
    rfl
  · have hcount : l.dropLast.length = l.length - 1 := List.length_dropLast
    refine ⟨by rw [hcount, ← hlength], by dsimp only; omega, h.capacity_pos, h.capacity_lt,
      fun i hi => ?_⟩
    rw [hcount] at hi
    rw [List.dropLast_eq_take, List.getElem?_take_of_lt hi]
    exact h.entry i (by omega)

theorem swap_spec (h : Stores v l) {i j : Nat} (hi : i < l.length) (hj : j < l.length) :
    ∃ v', swap v i j = some v' ∧ Stores v' ((l.set i l[j]).set j l[i]) := by
  obtain ⟨v₁, hv₁, h₁⟩ := store_spec h hi l[j]
  obtain ⟨v₂, hv₂, h₂⟩ := store_spec h₁ (by rw [List.length_set]; exact hj) l[i]
  refine ⟨v₂, ?_, h₂⟩
  rw [swap, load_spec h hi, load_spec h hj]
  simp only [Option.bind_eq_bind, Option.bind_some, hv₁, hv₂]

theorem assign_spec (h : Stores v l) {n : Nat} (hn : n ≤ maxCount) (elem : α) :
    ∃ v', assign v n elem = some v' ∧ Stores v' (List.replicate n elem) := by
  have hbounds := mallocNum_bounds hn
  rw [assign]
  have hroom : ∀ v : UVector α, n ≤ v.capacity → 0 < v.capacity → v.capacity < 2 ^ 29 →
      ∃ v', (fill elem n v 0).map (fun v => { v with length := n }) = some v' ∧
        Stores v' (List.replicate n elem) := by
    intro v hle hgt hlt
    rw [fill_eq (by omega), Option.map_some]
    refine ⟨_, rfl, List.length_replicate.symm, hle, hgt, hlt, fun i hi => ?_⟩
    rw [List.length_replicate] at hi
    dsimp only
    rw [if_pos (by omega), List.getElem?_replicate, if_pos hi]
  split
  · exact hroom _ hbounds.1 hbounds.2.1 hbounds.2.2
  · exact hroom v (by omega) h.capacity_pos h.capacity_lt

theorem reserve_spec (h : Stores v l) {n : Nat} (hn : n ≤ maxCount)
    (hl : l.length ≤ mallocNum (if n = 0 then 64 else n)) :
    ∃ v', reserve v n = some v' ∧ Stores v' l := by
  have hlength := h.length
  have hroom := h.room
  have hbounds : 0 < mallocNum (if n = 0 then 64 else n) ∧
      mallocNum (if n = 0 then 64 else n) < 2 ^ 29 := by
    split
    · decide
    · exact (mallocNum_bounds hn).2
  rw [reserve]
  split
  · exact ⟨v, rfl, h⟩
  · dsimp only
    rw [if_pos (by omega)]
    refine ⟨_, rfl, hlength, by dsimp only; omega, hbounds.1, hbounds.2, fun i hi => ?_⟩
    dsimp only
    rw [if_pos (by omega), h.entry i hi]

/-! ### Runs -/

/-- A call does to the list what it is to do. -/
theorem step_spec (h : Stores v l) {c : Call α} (hc : Permits l c) :
    ∃ r v', step v c = some (r, v') ∧ r = answer l c ∧ Stores v' (next l c) := by
  cases c with
  | push elem =>
      obtain ⟨v', hv', h'⟩ := push_spec h hc elem
      exact ⟨_, v', by rw [step, hv']; rfl, rfl, h'⟩
  | pop =>
      obtain ⟨elem, v', hv', hlast, h'⟩ := pop_spec h hc
      exact ⟨_, v', by rw [step, hv']; rfl, hlast.symm, h'⟩
  | top =>
      have hlast := List.getLast?_eq_some_getLast hc
      exact ⟨_, v, by rw [step, top_spec h hc, hlast]; rfl, hlast.symm, h⟩
  | «at» pos =>
      exact ⟨_, v, by rw [step, load_spec h hc]; rfl, (List.getElem?_eq_getElem hc).symm, h⟩
  | replace pos elem =>
      obtain ⟨v', hv', h'⟩ := store_spec h hc elem
      exact ⟨_, v', by rw [step, hv']; rfl, rfl, h'⟩
  | insert pos elem =>
      obtain ⟨v', hv', h'⟩ := insert_spec h hc.1 hc.2 elem
      exact ⟨_, v', by rw [step, hv']; rfl, rfl, h'⟩
  | insertCopies pos n elem =>
      obtain ⟨v', hv', h'⟩ := insertCopies_spec h hc.1 hc.2 elem
      exact ⟨_, v', by rw [step, hv']; rfl, rfl, h'⟩
  | erase pos =>
      have hpos : pos < l.length := hc
      obtain ⟨v', hv', h'⟩ := eraseRange_spec h (Nat.lt_succ_self pos) hpos
      refine ⟨_, v', ?_, rfl, ?_⟩
      · rw [step, erase_eq h.room (by rw [h.length]; exact hpos), hv']
        rfl
      · rw [next, List.eraseIdx_eq_take_drop_succ]
        exact h'
  | eraseRange first last =>
      obtain ⟨v', hv', h'⟩ := eraseRange_spec h hc.1 hc.2
      exact ⟨_, v', by rw [step, hv']; rfl, rfl, h'⟩
  | swap i j =>
      obtain ⟨v', hv', h'⟩ := swap_spec h hc.1 hc.2
      refine ⟨_, v', by rw [step, hv']; rfl, rfl, ?_⟩
      rw [next, List.getElem?_eq_getElem hc.1, List.getElem?_eq_getElem hc.2]
      exact h'
  | assign n elem =>
      obtain ⟨v', hv', h'⟩ := assign_spec h hc elem
      exact ⟨_, v', by rw [step, hv']; rfl, rfl, h'⟩
  | reserve n =>
      obtain ⟨v', hv', h'⟩ := reserve_spec h hc.1 hc.2
      exact ⟨_, v', by rw [step, hv']; rfl, rfl, h'⟩
  | clear =>
      exact ⟨_, _, rfl, rfl, rfl, Nat.zero_le _, h.capacity_pos, h.capacity_lt,
        fun i hi => absurd hi (Nat.not_lt_zero _)⟩

/-- A run of calls on a vector does what it does on a list: no call goes out of
the array or reads an entry that was not written, and each returns the element
of the list. -/
theorem calls_follow_list {n : Nat} (hn : n ≤ maxCount) (calls : List (Call α))
    (hcalls : CallsMeet next Permits [] calls) :
    Follows step (fun l c r => r = answer l c) next Stores (created n) [] calls :=
  @follows_of_simulation_within _ _ _ _ step (fun _ _ => True) Permits
    (fun l c r => r = answer l c) next Stores Stores (fun _ _ h => h)
    (fun _ _ _ h hc _ => step_spec h hc) calls _ _ (stores_created hn) hcalls
    (stepsMeet_true calls _)

/-- The array is full when the third element comes. -/
theorem calls_follow_list_full :
    Follows step (fun l c r => r = answer l c) next Stores (created 2) []
      [.push 1, .push 2, .insert 0 3, .insertCopies 1 2 4, .erase 0, .swap 0 3, .pop] :=
  calls_follow_list (by decide) _ (by decide)

end ULib.VectorOperations
