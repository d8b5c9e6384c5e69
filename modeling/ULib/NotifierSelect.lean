import Mathlib.Data.Finset.Card
import ULib.Notifier
import ULib.Runs

/-!
`UNotifier` of `notifier.cpp` in the build with `select`: the registry, two
bit sets, two counters and `fd_set_max`, and when they agree along every run. A
bit set has `FD_SETSIZE` bits; to set or clear another one is undefined.
-/

namespace ULib.NotifierSelect

open ULib.GenericHashMap
open ULib.Notifier
open ULib.Runs

/-! ### UNotifier -/

structure USelectNotifier extends UNotifier where
  fdSetRead : Finset Nat
  fdSetWrite : Finset Nat
  fdSetMax : Nat
  fdReadCnt : Int
  fdWriteCnt : Int

/-- `FD_SETSIZE`. -/
def fdSetSize : Nat := 1024

/-- `FD_SET`. -/
def fdSet (fd : Nat) (s : Finset Nat) : Option (Finset Nat) :=
  if fd < fdSetSize then some (insert fd s) else none

/-- `FD_CLR`. -/
def fdClr (fd : Nat) (s : Finset Nat) : Option (Finset Nat) :=
  if fd < fdSetSize then some (s.erase fd) else none

def init (maxConnection : Nat) : USelectNotifier :=
  { toUNotifier := Notifier.init maxConnection
    fdSetRead := ∅
    fdSetWrite := ∅
    fdSetMax := 0
    fdReadCnt := 0
    fdWriteCnt := 0 }

/-- The part of `insert` for the bit sets. -/
def insertMask (s : USelectNotifier) (fd : Nat) : OpMask → Option USelectNotifier
  | .readIn => (fdSet fd s.fdSetRead).map fun fds =>
      { s with fdSetRead := fds, fdReadCnt := s.fdReadCnt + 1 }
  | .writeOut => (fdSet fd s.fdSetWrite).map fun fds =>
      { s with fdSetWrite := fds, fdWriteCnt := s.fdWriteCnt + 1 }

def insert (s : USelectNotifier) (item : UEventFd) : Option USelectNotifier :=
  let fd := item.fd
  let s := { s with toUNotifier := Notifier.insert s.toUNotifier item }
  (insertMask s fd item.opMask).map fun s =>
    if s.fdSetMax ≤ fd then { s with fdSetMax := fd + 1 } else s

/-- The loop of `getNFDS`, `k` descriptors from `fd` on. -/
def nfdsLoop : Nat → Nat → Nat → UNotifier → Nat × UNotifier
  | 0, _, nfds, n => (nfds, n)
  | k + 1, fd, nfds, n =>
      let (item, n) := find n fd
      nfdsLoop k (fd + 1) (if item.isSome ∧ nfds < fd then fd else nfds) n

def getNFDS (s : USelectNotifier) : Nat × USelectNotifier :=
  let (nfds, n) := nfdsLoop (s.fdSetMax - 1) 1 0 s.toUNotifier
  (nfds + 1, { s with toUNotifier := n })

/-- Whether `empty` says so; connections are counted by others. -/
def empty (numConnection : Nat) : Bool := numConnection = 0

/-- The part of `handlerDelete` for the bit sets. -/
def deleteMask (s : USelectNotifier) (fd : Nat) : OpMask → Option USelectNotifier
  | .readIn => (fdClr fd s.fdSetRead).map fun fds =>
      { s with fdSetRead := fds, fdReadCnt := s.fdReadCnt - 1 }
  | .writeOut => (fdClr fd s.fdSetWrite).map fun fds =>
      { s with fdSetWrite := fds, fdWriteCnt := s.fdWriteCnt - 1 }

def handlerDelete (numConnection : Nat) (s : USelectNotifier) (item : UEventFd) :
    Option USelectNotifier :=
  (Notifier.handlerDelete s.toUNotifier item).bind fun n =>
    (deleteMask { s with toUNotifier := n } item.fd item.opMask).map fun s =>
      if empty numConnection = false then
        let (nfds, s) := getNFDS s
        { s with fdSetMax := nfds }
      else s

def erase (numConnection : Nat) (s : USelectNotifier) (item : UEventFd) : Option USelectNotifier :=
  handlerDelete numConnection s item

def modify (s : USelectNotifier) (item : UEventFd) : Option USelectNotifier :=
  let fd := item.fd
  match item.opMask with
  | .readIn =>
      (fdSet fd s.fdSetRead).bind fun fdsRead => (fdClr fd s.fdSetWrite).map fun fdsWrite =>
        { s with
          fdSetRead := fdsRead
          fdSetWrite := fdsWrite
          fdReadCnt := s.fdReadCnt + 1
          fdWriteCnt := s.fdWriteCnt - 1 }
  | .writeOut =>
      (fdClr fd s.fdSetRead).bind fun fdsRead => (fdSet fd s.fdSetWrite).map fun fdsWrite =>
        { s with
          fdSetRead := fdsRead
          fdSetWrite := fdsWrite
          fdReadCnt := s.fdReadCnt - 1
          fdWriteCnt := s.fdWriteCnt + 1 }

/-! ### The calls -/

def OpMask.flip : OpMask → OpMask
  | .readIn => .writeOut
  | .writeOut => .readIn

/-- The item with its `op_mask` flipped. -/
def flipped (item : UEventFd) : UEventFd := { item with opMask := OpMask.flip item.opMask }

/-- A registered item gets another value. -/
def assign (n : UNotifier) (item : UEventFd) : UNotifier :=
  if item.fd < n.maxConnection then
    { n with loMapFd := Function.update n.loMapFd item.fd (some item) }
  else { n with hiMapFd := replace n.hiMapFd item.fd item }

inductive Call where
  | insert (item : UEventFd)
  /-- `modify` of what is registered for the descriptor, after its `op_mask` was flipped. -/
  | modify (fd : Nat)
  | erase (numConnection fd : Nat)

def step (s : USelectNotifier) : Call → Option (Unit × USelectNotifier)
  | .insert item => (insert s item).map ((), ·)
  | .modify fd =>
      (registered s.toUNotifier fd).bind fun item =>
        let item := flipped item
        (modify { s with toUNotifier := assign s.toUNotifier item } item).map ((), ·)
  | .erase numConnection fd =>
      (registered s.toUNotifier fd).bind fun item =>
        (erase numConnection s item).map ((), ·)

/-- What is inserted is not registered, and what is modified or erased is. -/
def Proper (s : USelectNotifier) : Call → Prop
  | .insert item => registered s.toUNotifier item.fd = none
  | .modify fd => registered s.toUNotifier fd ≠ none
  | .erase _ fd => registered s.toUNotifier fd ≠ none

instance (s : USelectNotifier) : ∀ call, Decidable (Proper s call)
  | .insert item => inferInstanceAs (Decidable (registered s.toUNotifier item.fd = none))
  | .modify fd => inferInstanceAs (Decidable (registered s.toUNotifier fd ≠ none))
  | .erase _ fd => inferInstanceAs (Decidable (registered s.toUNotifier fd ≠ none))

/-! ### What they should do -/

/-- The items inserted and not yet erased. -/
abbrev Items := Nat → Option UEventFd

def Items.next (items : Items) : Call → Items
  | .insert item => Function.update items item.fd (some item)
  | .modify fd => Function.update items fd ((items fd).map flipped)
  | .erase _ fd => Function.update items fd none

/-- A bit set has the descriptors of the items with the `op_mask`, and the counter their number. -/
structure Collects (fds : Finset Nat) (cnt : Int) (items : Items) (mask : OpMask) : Prop where
  mem : ∀ fd, fd ∈ fds ↔ (items fd).map (·.opMask) = some mask
  count : cnt = fds.card

/-- The bit sets and the counters are those of the items. -/
structure Masks (s : USelectNotifier) (items : Items) : Prop where
  read : Collects s.fdSetRead s.fdReadCnt items .readIn
  write : Collects s.fdSetWrite s.fdWriteCnt items .writeOut

structure Agrees (s : USelectNotifier) (items : Items) : Prop extends Masks s items where
  found : ∀ fd, registered s.toUNotifier fd = items fd
  max : ∀ fd, items fd ≠ none → fd < s.fdSetMax

/-- The bits are there for what is inserted. -/
def HasBit : Call → Prop
  | .insert item => item.fd < fdSetSize
  | _ => True

instance : DecidablePred HasBit
  | .insert item => inferInstanceAs (Decidable (item.fd < fdSetSize))
  | .modify _ => isTrue trivial
  | .erase _ _ => isTrue trivial

/-! ### The bit sets -/

section
variable {fds : Finset Nat} {cnt : Int} {items : Items} {mask : OpMask}
  (h : Collects fds cnt items mask) {fd : Nat} {entry : Option UEventFd}
include h

theorem Collects.gain (hbefore : (items fd).map (·.opMask) ≠ some mask)
    (hafter : entry.map (·.opMask) = some mask) :
    Collects (Insert.insert fd fds) (cnt + 1) (Function.update items fd entry) mask := by
  have hfd : fd ∉ fds := fun hmem => hbefore ((h.mem fd).mp hmem)
  refine ⟨fun d => ?_, ?_⟩
  · rw [Finset.mem_insert]
    rcases eq_or_ne d fd with rfl | hd
    · rw [Function.update_self]
      exact iff_of_true (Or.inl rfl) hafter
    · rw [Function.update_of_ne hd, ← h.mem d]
      exact or_iff_right hd
  · rw [Finset.card_insert_of_notMem hfd, h.count]
    omega

theorem Collects.lose (hbefore : (items fd).map (·.opMask) = some mask)
    (hafter : entry.map (·.opMask) ≠ some mask) :
    Collects (fds.erase fd) (cnt - 1) (Function.update items fd entry) mask := by
  have hfd : fd ∈ fds := (h.mem fd).mpr hbefore
  refine ⟨fun d => ?_, ?_⟩
  · rw [Finset.mem_erase]
    rcases eq_or_ne d fd with rfl | hd
    · rw [Function.update_self]
      exact iff_of_false (fun hmem => hmem.1 rfl) hafter
    · rw [Function.update_of_ne hd, ← h.mem d]
      exact and_iff_right hd
  · have hpos := Finset.card_pos.mpr ⟨fd, hfd⟩
    rw [Finset.card_erase_of_mem hfd, h.count]
    omega

theorem Collects.keep (hbefore : (items fd).map (·.opMask) ≠ some mask)
    (hafter : entry.map (·.opMask) ≠ some mask) :
    Collects fds cnt (Function.update items fd entry) mask := by
  refine ⟨fun d => ?_, h.count⟩
  rw [h.mem d]
  rcases eq_or_ne d fd with rfl | hd
  · rw [Function.update_self]
    exact iff_of_false hbefore hafter
  · rw [Function.update_of_ne hd]

end

/-! ### getNFDS -/

theorem nfdsLoop_spec {k fd nfds : Nat} {n : UNotifier} (hn : Consistent n) :
    Consistent (nfdsLoop k fd nfds n).2 ∧
      registered (nfdsLoop k fd nfds n).2 = registered n ∧ nfds ≤ (nfdsLoop k fd nfds n).1 ∧
      ∀ d, fd ≤ d → d < fd + k → registered n d ≠ none → d ≤ (nfdsLoop k fd nfds n).1 := by
  induction k generalizing fd nfds n with
  | zero => exact ⟨hn, rfl, Nat.le_refl _, fun d hle hlt => absurd hlt (Nat.not_lt.mpr hle)⟩
  | succ k ih =>
      obtain ⟨hfind, hregistered⟩ := hn.find fd
      obtain ⟨hconsistent, hsame, hle, hall⟩ := @ih (fd + 1)
        (if (find n fd).1.isSome ∧ nfds < fd then fd else nfds) (find n fd).2 hfind
      rw [nfdsLoop]
      refine ⟨hconsistent, hsame.trans hregistered, ?_, fun d hd hlt hsome => ?_⟩
      · refine Nat.le_trans ?_ hle
        split_ifs with hmore
        · exact Nat.le_of_lt hmore.2
        · exact Nat.le_refl _
      · rcases Nat.eq_or_lt_of_le hd with rfl | hd'
        · refine Nat.le_trans ?_ hle
          have hfound : (find n fd).1.isSome := Option.isSome_iff_ne_none.mpr hsome
          split_ifs with hmore
          · exact Nat.le_refl _
          · exact Nat.not_lt.mp fun hlt' => hmore ⟨hfound, hlt'⟩
        · refine hall d hd' (by omega) ?_
          rwa [hregistered]

/-- What `getNFDS` gives lies above every registered descriptor when the old bound did. -/
theorem getNFDS_spec {s : USelectNotifier} (hs : Consistent s.toUNotifier)
    (hmax : ∀ fd, registered s.toUNotifier fd ≠ none → fd < s.fdSetMax) :
    ∃ n, (getNFDS s).2 = { s with toUNotifier := n } ∧ Consistent n ∧
      registered n = registered s.toUNotifier ∧
      ∀ fd, registered s.toUNotifier fd ≠ none → fd < (getNFDS s).1 := by
  obtain ⟨hconsistent, hregistered, -, hall⟩ :=
    @nfdsLoop_spec (s.fdSetMax - 1) 1 0 _ hs
  refine ⟨_, rfl, hconsistent, hregistered, fun fd hfd => Nat.lt_succ_of_le ?_⟩
  have hlt := hmax fd hfd
  rcases Nat.eq_zero_or_pos fd with rfl | hpos
  · exact Nat.zero_le _
  · exact hall fd hpos (by omega) hfd

/-! ### One call -/

theorem Consistent.assign {n : UNotifier} (hn : Consistent n) {item old : UEventFd}
    (h : registered n item.fd = some old) :
    Consistent (assign n item) ∧
      registered (assign n item) = Function.update (registered n) item.fd (some item) := by
  have hentry : ∀ other, some item = some other → other.fd = item.fd := by
    rintro other ⟨⟩
    rfl
  rw [NotifierSelect.assign]
  split_ifs with hlow
  · exact hn.update_low hlow hentry
  · rw [not_lt] at hlow
    rw [hn.registered_high hlow] at h
    exact hn.update_high hlow (hn.shape.replace item.fd item) (get_replace h item) hentry

structure Inv (s : USelectNotifier) (items : Items) : Prop where
  consistent : Consistent s.toUNotifier
  agrees : Agrees s items
  inside : ∀ fd, items fd ≠ none → fd < fdSetSize

theorem insertMask_spec {s : USelectNotifier} {items : Items} (h : Masks s items) {item : UEventFd}
    (hnone : items item.fd = none) (hbit : item.fd < fdSetSize) :
    ∃ s', insertMask s item.fd item.opMask = some s' ∧ s'.toUNotifier = s.toUNotifier ∧
      s'.fdSetMax = s.fdSetMax ∧ Masks s' (Function.update items item.fd (some item)) := by
  have hbefore : ∀ mask, (items item.fd).map (·.opMask) ≠ some mask := by simp [hnone]
  rcases hmask : item.opMask with - | -
  · exact ⟨{ s with
      fdSetRead := Insert.insert item.fd s.fdSetRead
      fdReadCnt := s.fdReadCnt + 1 }, by simp [insertMask, fdSet, hbit], rfl, rfl,
      h.read.gain (hbefore _) (by simp [hmask]), h.write.keep (hbefore _) (by simp [hmask])⟩
  · exact ⟨{ s with
      fdSetWrite := Insert.insert item.fd s.fdSetWrite
      fdWriteCnt := s.fdWriteCnt + 1 }, by simp [insertMask, fdSet, hbit], rfl, rfl,
      h.read.keep (hbefore _) (by simp [hmask]), h.write.gain (hbefore _) (by simp [hmask])⟩

theorem deleteMask_spec {s : USelectNotifier} {items : Items} (h : Masks s items) {item : UEventFd}
    (hitem : items item.fd = some item) (hbit : item.fd < fdSetSize) :
    ∃ s', deleteMask s item.fd item.opMask = some s' ∧ s'.toUNotifier = s.toUNotifier ∧
      s'.fdSetMax = s.fdSetMax ∧ Masks s' (Function.update items item.fd none) := by
  have hafter : ∀ mask, (none : Option UEventFd).map (·.opMask) ≠ some mask := by simp
  rcases hmask : item.opMask with - | -
  · exact ⟨{ s with
      fdSetRead := s.fdSetRead.erase item.fd
      fdReadCnt := s.fdReadCnt - 1 }, by simp [deleteMask, fdClr, hbit], rfl, rfl,
      h.read.lose (by simp [hitem, hmask]) (hafter _),
      h.write.keep (by simp [hitem, hmask]) (hafter _)⟩
  · exact ⟨{ s with
      fdSetWrite := s.fdSetWrite.erase item.fd
      fdWriteCnt := s.fdWriteCnt - 1 }, by simp [deleteMask, fdClr, hbit], rfl, rfl,
      h.read.keep (by simp [hitem, hmask]) (hafter _),
      h.write.lose (by simp [hitem, hmask]) (hafter _)⟩

theorem modify_spec {s : USelectNotifier} {items : Items} (h : Masks s items) {item : UEventFd}
    (hitem : items item.fd = some item) (hbit : item.fd < fdSetSize) :
    ∃ s', modify s (flipped item) = some s' ∧ s'.toUNotifier = s.toUNotifier ∧
      s'.fdSetMax = s.fdSetMax ∧ Masks s' (Function.update items item.fd (some (flipped item))) := by
  rcases hmask : item.opMask with - | -
  · exact ⟨{ s with
      fdSetRead := s.fdSetRead.erase item.fd
      fdSetWrite := Insert.insert item.fd s.fdSetWrite
      fdReadCnt := s.fdReadCnt - 1
      fdWriteCnt := s.fdWriteCnt + 1 },
      by simp [modify, flipped, OpMask.flip, hmask, fdClr, fdSet, hbit], rfl, rfl,
      h.read.lose (by simp [hitem, hmask]) (by simp [flipped, OpMask.flip, hmask]),
      h.write.gain (by simp [hitem, hmask]) (by simp [flipped, OpMask.flip, hmask])⟩
  · exact ⟨{ s with
      fdSetRead := Insert.insert item.fd s.fdSetRead
      fdSetWrite := s.fdSetWrite.erase item.fd
      fdReadCnt := s.fdReadCnt + 1
      fdWriteCnt := s.fdWriteCnt - 1 },
      by simp [modify, flipped, OpMask.flip, hmask, fdClr, fdSet, hbit], rfl, rfl,
      h.read.gain (by simp [hitem, hmask]) (by simp [flipped, OpMask.flip, hmask]),
      h.write.lose (by simp [hitem, hmask]) (by simp [flipped, OpMask.flip, hmask])⟩

section
variable {s : USelectNotifier} {items : Items} (hI : Inv s items)
include hI

theorem Inv.insert {item : UEventFd} (hnone : registered s.toUNotifier item.fd = none)
    (hbit : item.fd < fdSetSize) :
    ∃ s', insert s item = some s' ∧ Inv s' (items.next (.insert item)) := by
  obtain ⟨hconsistent, hregistered⟩ := hI.consistent.insert hnone
  rw [hI.agrees.found] at hnone
  obtain ⟨s', hmask, hregistry, hmax, hmasks⟩ := insertMask_spec
    (s := { s with toUNotifier := Notifier.insert s.toUNotifier item })
    ⟨hI.agrees.read, hI.agrees.write⟩ hnone hbit
  rw [NotifierSelect.insert]
  dsimp only
  rw [hmask, Option.map_some]
  refine ⟨_, rfl, ?_, ⟨?_, ?_, ?_⟩, ?_⟩
  · split_ifs <;> rwa [hregistry]
  · split_ifs <;> exact ⟨hmasks.read, hmasks.write⟩
  · intro fd
    have hfound : registered s'.toUNotifier fd = items.next (.insert item) fd := by
      rw [hregistry, hregistered, funext hI.agrees.found]
      rfl
    split_ifs <;> exact hfound
  · intro fd hfd
    have hbound : fd ≠ item.fd → fd < s'.fdSetMax := by
      intro hne
      rw [Items.next, Function.update_of_ne hne] at hfd
      rw [hmax]
      exact hI.agrees.max fd hfd
    rcases eq_or_ne fd item.fd with rfl | hne
    · split_ifs with hle
      · exact Nat.lt_succ_self _
      · exact Nat.not_le.mp hle
    · have hlt := hbound hne
      split_ifs with hle
      · exact Nat.lt_succ_of_lt (Nat.lt_of_lt_of_le hlt hle)
      · exact hlt
  · intro fd hfd
    rcases eq_or_ne fd item.fd with rfl | hne
    · exact hbit
    · rw [Items.next, Function.update_of_ne hne] at hfd
      exact hI.inside fd hfd

theorem Inv.modify {item : UEventFd} (hitem : registered s.toUNotifier item.fd = some item) :
    ∃ s', modify { s with toUNotifier := assign s.toUNotifier (flipped item) } (flipped item) =
        some s' ∧
      Inv s' (items.next (.modify item.fd)) := by
  obtain ⟨hconsistent, hregistered⟩ := @Consistent.assign _ hI.consistent (flipped item) _ hitem
  rw [hI.agrees.found] at hitem
  have hnext : items.next (.modify item.fd) =
      Function.update items item.fd (some (flipped item)) := by
    rw [Items.next, hitem, Option.map_some]
  have hsome : ∀ fd, items.next (.modify item.fd) fd ≠ none → items fd ≠ none := by
    intro fd hfd
    rcases eq_or_ne fd item.fd with rfl | hne
    · rw [hitem]
      exact Option.some_ne_none item
    · rwa [hnext, Function.update_of_ne hne] at hfd
  obtain ⟨s', hmodify, hregistry, hmax, hmasks⟩ := modify_spec
    (s := { s with toUNotifier := NotifierSelect.assign s.toUNotifier (flipped item) })
    ⟨hI.agrees.read, hI.agrees.write⟩ hitem (hI.inside item.fd (by simp [hitem]))
  refine ⟨s', hmodify, ?_, ⟨?_, ?_, ?_⟩, fun fd hfd => hI.inside fd (hsome fd hfd)⟩
  · rwa [hregistry]
  · rwa [hnext]
  · intro fd
    rw [hnext, hregistry, hregistered, funext hI.agrees.found]
    rfl
  · intro fd hfd
    rw [hmax]
    exact hI.agrees.max fd (hsome fd hfd)

theorem Inv.erase (numConnection : Nat) {item : UEventFd}
    (hitem : registered s.toUNotifier item.fd = some item) :
    ∃ s', erase numConnection s item = some s' ∧
      Inv s' (items.next (.erase numConnection item.fd)) := by
  obtain ⟨n, hdelete, hconsistent, -, hregistered, -⟩ := hI.consistent.handlerDelete hitem
  rw [hI.agrees.found] at hitem
  obtain ⟨s', hmask, rfl, hmax, hmasks⟩ := deleteMask_spec (s := { s with toUNotifier := n })
    ⟨hI.agrees.read, hI.agrees.write⟩ hitem (hI.inside item.fd (by simp [hitem]))
  have hfound : ∀ fd, registered s'.toUNotifier fd =
      items.next (.erase numConnection item.fd) fd := by
    intro fd
    rw [hregistered, funext hI.agrees.found]
    rfl
  have hsome : ∀ fd, items.next (.erase numConnection item.fd) fd ≠ none → items fd ≠ none := by
    intro fd hfd
    rcases eq_or_ne fd item.fd with rfl | hne
    · rw [Items.next, Function.update_self] at hfd
      exact absurd rfl hfd
    · rwa [Items.next, Function.update_of_ne hne] at hfd
  have hbound : ∀ fd, registered s'.toUNotifier fd ≠ none → fd < s'.fdSetMax := by
    intro fd hfd
    rw [hfound] at hfd
    rw [hmax]
    exact hI.agrees.max fd (hsome fd hfd)
  have hinside := fun fd hfd => hI.inside fd (hsome fd hfd)
  rw [NotifierSelect.erase, handlerDelete, hdelete, Option.bind_some, hmask, Option.map_some]
  obtain ⟨n, hnfds, hn, hsame, habove⟩ := getNFDS_spec hconsistent hbound
  split_ifs with hempty
  · refine ⟨_, rfl, ?_, ⟨?_, fun fd => ?_, fun fd hfd => ?_⟩, hinside⟩
    · dsimp only
      rwa [hnfds]
    · dsimp only
      rw [hnfds]
      exact ⟨hmasks.read, hmasks.write⟩
    · dsimp only
      rw [hnfds, ← hfound, hsame]
    · refine habove fd ?_
      rwa [hfound]
  · refine ⟨_, rfl, hconsistent, ⟨hmasks, hfound, fun fd hfd => hbound fd ?_⟩, hinside⟩
    rwa [hfound]

theorem Inv.step {call : Call} (hproper : Proper s call) (hbit : HasBit call) :
    ∃ s', step s call = some ((), s') ∧ Inv s' (items.next call) := by
  cases call with
  | insert item =>
      obtain ⟨s', hinsert, hI'⟩ := hI.insert hproper hbit
      exact ⟨s', by rw [NotifierSelect.step, hinsert, Option.map_some], hI'⟩
  | modify fd =>
      obtain ⟨item, hitem⟩ := Option.ne_none_iff_exists'.mp hproper
      obtain rfl := hI.consistent.fd_eq hitem
      obtain ⟨s', hmodify, hI'⟩ := hI.modify hitem
      refine ⟨s', ?_, hI'⟩
      rw [NotifierSelect.step, hitem, Option.bind_some]
      dsimp only
      rw [hmodify, Option.map_some]
  | erase numConnection fd =>
      obtain ⟨item, hitem⟩ := Option.ne_none_iff_exists'.mp hproper
      obtain rfl := hI.consistent.fd_eq hitem
      obtain ⟨s', herase, hI'⟩ := hI.erase numConnection hitem
      exact ⟨s', by rw [NotifierSelect.step, hitem, Option.bind_some, herase, Option.map_some], hI'⟩

end

/-- What is inserted has a bit, as otherwise the step would be undefined. -/
theorem hasBit_of_step {s s' : USelectNotifier} {call : Call} (h : step s call = some ((), s')) :
    HasBit call := by
  cases call with
  | insert item =>
      refine Nat.not_le.mp fun hle => ?_
      have hnone : ∀ s, insertMask s item.fd item.opMask = none := by
        intro s
        cases item.opMask <;> simp [insertMask, fdSet, Nat.not_lt.mpr hle]
      rw [step, insert] at h
      dsimp only at h
      rw [hnone] at h
      cases h
  | modify fd => trivial
  | erase numConnection fd => trivial

theorem inv_init {maxConnection : Nat} (hpos : 0 < maxConnection)
    (hroom : maxConnection ≤ HashMap.mallocNum maxConnection) :
    Inv (init maxConnection) fun _ => none := by
  have hconsistent := consistent_init hpos hroom
  refine ⟨hconsistent, ⟨⟨⟨?_, rfl⟩, ⟨?_, rfl⟩⟩, fun fd => ?_, ?_⟩, ?_⟩
  · simp [init]
  · simp [init]
  · exact (hconsistent.registered_eq fd).trans (ite_self _)
  · simp
  · simp

/-- Along a run the registry, the bit sets, the counters and the bound agree exactly when every
descriptor inserted has a bit. -/
theorem agrees_iff {maxConnection : Nat} (hpos : 0 < maxConnection)
    (hroom : maxConnection ≤ HashMap.mallocNum maxConnection) {calls : List Call}
    (hproper : StepsMeet step Proper (init maxConnection) calls) :
    Follows step (fun _ _ _ => True) Items.next Agrees (init maxConnection) (fun _ => none) calls ↔
      StepsMeet step (fun _ call => HasBit call) (init maxConnection) calls := by
  rw [follows_iff_tracks]
  refine tracks_iff_of_simulation (I := Inv) (fun s items hI => hI.agrees) ?_ ?_ calls
    (inv_init hpos hroom) hproper
  · intro s items call hI hproper hbit
    obtain ⟨s', hstep, hI'⟩ := hI.step hproper hbit
    exact ⟨(), s', hstep, trivial, hI'⟩
  · intro s items call reply s' _ _ hstep _ _
    exact hasBit_of_step hstep

/-- A run over the array and the hash map. -/
theorem agrees_run :
    Follows step (fun _ _ _ => True) Items.next Agrees (init 2) (fun _ => none)
      [.insert ⟨1, .readIn⟩, .insert ⟨5, .writeOut⟩, .modify 5, .erase 1 1] :=
  (agrees_iff (by decide) (by decide) (by decide)).mpr (stepsMeet_of_forall (by decide) _)

/-- The first descriptor behind the bit sets. -/
theorem not_agrees :
    StepsMeet step Proper (init 2) [.insert ⟨1024, .readIn⟩] ∧
      ¬ Follows step (fun _ _ _ => True) Items.next Agrees (init 2) (fun _ => none)
        [.insert ⟨1024, .readIn⟩] := by
  refine ⟨by decide, ?_⟩
  rintro ⟨-, reply, s', hstep, -⟩
  cases hstep

end ULib.NotifierSelect
