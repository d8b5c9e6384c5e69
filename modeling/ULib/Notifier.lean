import ULib.GenericHashMap

/-!
The registry of `UNotifier` of `notifier.h` and `notifier.cpp`: an array for the
descriptors below `max_connection` and a hash map for the others. Descriptors
are not negative, an item is the value that the registry holds, and the tables
are those of an `init` whose array has room for `max_connection` pointers.
-/

namespace ULib.Notifier

open ULib.GenericHashMap

/-- `U_READ_IN` and `U_WRITE_OUT`. -/
inductive OpMask where
  | readIn
  | writeOut
  deriving DecidableEq, Repr

structure UEventFd where
  fd : Nat
  opMask : OpMask
  deriving DecidableEq, Repr

structure UNotifier where
  maxConnection : Nat
  loMapFd : Nat → Option UEventFd
  hiMapFd : UGenericHashMap UEventFd

def init (maxConnection : Nat) : UNotifier :=
  { maxConnection := maxConnection
    loMapFd := fun _ => none
    hiMapFd := allocated maxConnection }

def find (n : UNotifier) (fd : Nat) : Option UEventFd × UNotifier :=
  if fd < n.maxConnection then (n.loMapFd fd, n)
  else
    let (found, hiMapFd) := GenericHashMap.find n.hiMapFd fd
    (if found then elem hiMapFd else none, { n with hiMapFd := hiMapFd })

/-- `insert`, up to what it tells the system. -/
def insert (n : UNotifier) (item : UEventFd) : UNotifier :=
  if item.fd < n.maxConnection then
    { n with loMapFd := Function.update n.loMapFd item.fd (some item) }
  else { n with hiMapFd := GenericHashMap.insert n.hiMapFd item.fd item }

/-- `handlerDelete`, up to what it tells the system. -/
def handlerDelete (n : UNotifier) (item : UEventFd) : Option UNotifier :=
  if item.fd < n.maxConnection then
    some { n with loMapFd := Function.update n.loMapFd item.fd none }
  else
    (GenericHashMap.erase n.hiMapFd item.fd).map fun r => { n with hiMapFd := r.2 }

/-- What `find` gives. -/
def registered (n : UNotifier) (fd : Nat) : Option UEventFd := (find n fd).1

/-- Every item lies where its descriptor leads. -/
structure Consistent (n : UNotifier) : Prop where
  max_pos : 0 < n.maxConnection
  shape : Shape n.hiMapFd
  low : ∀ fd item, n.loMapFd fd = some item → item.fd = fd
  high : ∀ fd item, get n.hiMapFd fd = some item → item.fd = fd ∧ n.maxConnection ≤ fd

theorem consistent_init {maxConnection : Nat} (hpos : 0 < maxConnection)
    (hroom : maxConnection ≤ HashMap.mallocNum maxConnection) :
    Consistent (init maxConnection) where
  max_pos := hpos
  shape := shape_allocated (Nat.lt_of_lt_of_le hpos hroom)
  low := by simp [init]
  high := by simp [init, get_allocated]

section
variable {n : UNotifier} (hn : Consistent n)
include hn

theorem Consistent.registered_eq (fd : Nat) :
    registered n fd = if fd < n.maxConnection then n.loMapFd fd else get n.hiMapFd fd := by
  rw [registered, find]
  split_ifs with hlow
  · rfl
  · have helem := hn.shape.elem_lookup fd
    have hsome := isSome_lookup (m := n.hiMapFd) fd
    rw [GenericHashMap.find]
    dsimp only
    rw [helem, hsome]
    cases get n.hiMapFd fd <;> rfl

theorem Consistent.registered_low {fd : Nat} (hlow : fd < n.maxConnection) :
    registered n fd = n.loMapFd fd := by
  rw [hn.registered_eq, if_pos hlow]

theorem Consistent.registered_high {fd : Nat} (hhigh : n.maxConnection ≤ fd) :
    registered n fd = get n.hiMapFd fd := by
  rw [hn.registered_eq, if_neg (Nat.not_lt.mpr hhigh)]

theorem Consistent.fd_eq {fd : Nat} {item : UEventFd} (h : registered n fd = some item) :
    item.fd = fd := by
  rw [hn.registered_eq] at h
  split_ifs at h with hlow
  · exact hn.low fd item h
  · exact (hn.high fd item h).1

/-- Only the cursor is moved. -/
theorem Consistent.sameEntries {hiMapFd : UGenericHashMap UEventFd}
    (hsame : SameEntries n.hiMapFd hiMapFd) :
    Consistent { n with hiMapFd := hiMapFd } ∧
      registered { n with hiMapFd := hiMapFd } = registered n := by
  have hconsistent : Consistent { n with hiMapFd := hiMapFd } := by
    refine ⟨hn.max_pos, hsame.shape hn.shape, hn.low, ?_⟩
    dsimp only
    rw [hsame.get_eq]
    exact hn.high
  refine ⟨hconsistent, funext fun fd => ?_⟩
  rw [hconsistent.registered_eq, hn.registered_eq]
  dsimp only
  rw [hsame.get_eq]

theorem Consistent.find (fd : Nat) :
    Consistent (find n fd).2 ∧ registered (find n fd).2 = registered n := by
  rw [Notifier.find]
  split_ifs with hlow
  · exact ⟨hn, rfl⟩
  · exact hn.sameEntries ⟨rfl, rfl, rfl⟩

/-- The array is changed at one descriptor. -/
theorem Consistent.update_low {fd : Nat} {entry : Option UEventFd} (hlow : fd < n.maxConnection)
    (hentry : ∀ item, entry = some item → item.fd = fd) :
    Consistent { n with loMapFd := Function.update n.loMapFd fd entry } ∧
      registered { n with loMapFd := Function.update n.loMapFd fd entry } =
        Function.update (registered n) fd entry := by
  have hconsistent : Consistent { n with loMapFd := Function.update n.loMapFd fd entry } := by
    refine ⟨hn.max_pos, hn.shape, fun d item h => ?_, hn.high⟩
    dsimp only at h
    rcases eq_or_ne d fd with rfl | hd
    · rw [Function.update_self] at h
      exact hentry item h
    · rw [Function.update_of_ne hd] at h
      exact hn.low d item h
  refine ⟨hconsistent, funext fun d => ?_⟩
  rw [hconsistent.registered_eq]
  dsimp only
  rcases eq_or_ne d fd with rfl | hd
  · rw [if_pos hlow, Function.update_self, Function.update_self]
  · rw [Function.update_of_ne hd, Function.update_of_ne hd, hn.registered_eq]

/-- The hash map is changed at one descriptor. -/
theorem Consistent.update_high {fd : Nat} {entry : Option UEventFd}
    {hiMapFd : UGenericHashMap UEventFd} (hhigh : n.maxConnection ≤ fd) (hshape : Shape hiMapFd)
    (hget : get hiMapFd = Function.update (get n.hiMapFd) fd entry)
    (hentry : ∀ item, entry = some item → item.fd = fd) :
    Consistent { n with hiMapFd := hiMapFd } ∧
      registered { n with hiMapFd := hiMapFd } = Function.update (registered n) fd entry := by
  have hconsistent : Consistent { n with hiMapFd := hiMapFd } := by
    refine ⟨hn.max_pos, hshape, hn.low, fun d item h => ?_⟩
    dsimp only at h
    rw [hget] at h
    rcases eq_or_ne d fd with rfl | hd
    · rw [Function.update_self] at h
      exact ⟨hentry item h, hhigh⟩
    · rw [Function.update_of_ne hd] at h
      exact hn.high d item h
  refine ⟨hconsistent, funext fun d => ?_⟩
  rw [hconsistent.registered_eq]
  dsimp only
  rw [hget]
  rcases eq_or_ne d fd with rfl | hd
  · rw [if_neg (Nat.not_lt.mpr hhigh), Function.update_self, Function.update_self]
  · rw [Function.update_of_ne hd, Function.update_of_ne hd, hn.registered_eq]

theorem Consistent.insert {item : UEventFd} (hnone : registered n item.fd = none) :
    Consistent (insert n item) ∧
      registered (insert n item) = Function.update (registered n) item.fd (some item) := by
  have hentry : ∀ other, some item = some other → other.fd = item.fd := by
    rintro other ⟨⟩
    rfl
  rw [Notifier.insert]
  split_ifs with hlow
  · exact hn.update_low hlow hentry
  · rw [not_lt] at hlow
    rw [hn.registered_high hlow] at hnone
    exact hn.update_high hlow (hn.shape.insert hnone item) (get_insert item.fd item) hentry

/-- The item is gone; from the hash map the cursor is left on a deleted node. -/
theorem Consistent.handlerDelete {item : UEventFd} (h : registered n item.fd = some item) :
    ∃ n', handlerDelete n item = some n' ∧ Consistent n' ∧
      n'.maxConnection = n.maxConnection ∧
      registered n' = Function.update (registered n) item.fd none ∧
      (n.maxConnection ≤ item.fd → next n'.hiMapFd = none) := by
  rw [Notifier.handlerDelete]
  split_ifs with hlow
  · obtain ⟨hconsistent, hregistered⟩ := @Consistent.update_low _ hn _ none hlow (by simp)
    exact ⟨_, rfl, hconsistent, rfl, hregistered, fun hhigh => absurd hlow (Nat.not_lt.mpr hhigh)⟩
  · rw [not_lt] at hlow
    rw [hn.registered_high hlow] at h
    obtain ⟨hiMapFd, herase, hshape, -, hget, hnext⟩ := hn.shape.erase h
    obtain ⟨hconsistent, hregistered⟩ := hn.update_high hlow hshape hget (by simp)
    rw [herase, Option.map_some]
    exact ⟨_, rfl, hconsistent, rfl, hregistered, fun _ => hnext⟩

end

end ULib.Notifier
