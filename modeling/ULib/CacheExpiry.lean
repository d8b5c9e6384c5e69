import ULib.CacheFreshness

/-!
Runs that close and open the cache file again: the time after which an entry is
no longer returned.
-/

namespace ULib.CacheExpiry

open ULib.ByteMemory
open ULib.BlockLayout
open ULib.KeyComparison
open ULib.Cache
open ULib.CacheShape
open ULib.CacheLookup
open ULib.CacheFreshness (State Reply getTime_eq shape_ttl)
open ULib.Runs

/-- A call of a session, or the end of it and the opening of the file with the
time of its last modification. -/
inductive Op
  | call (i : CacheFreshness.Op)
  | reopen (mtime : Nat)

def step (s : State) : Op → Option (Reply × State)
  | .call i => CacheFreshness.step s i
  | .reopen mtime => some (.waited, { s with cache := reopen s.cache mtime })

/-- The wall clock and, for the position at which a key was written last, when
this was and with which time to live. -/
structure Deadlines where
  now : Nat
  placed : Nat → Option (Nat × Nat)

def Deadlines.next (a : Deadlines) : Op → Reply → Deadlines
  | .call (.add _ _ ttl), .added p =>
      { a with placed := Function.update a.placed p (some (a.now, ttl)) }
  | .call (.wait seconds), _ => { a with now := a.now + seconds }
  | _, _ => a

/-- An entry that is returned was added and is not past its time to live. -/
def InTime (a : Deadlines) : Op → Reply → Prop
  | .call (.get key), .got (some r) => ∃ at' ttl, a.placed (r.1 - key.length) = some (at', ttl) ∧
      (ttl = 0 ∨ a.now < at' + ttl)
  | _, _ => True

/-- No opening moves the time of reference forward, an added entry fits and does
not look as if it had no time to live, and the clock stays in 32 bits. -/
def SameReference (s : State) : Op → Prop
  | .call (.add key data ttl) =>
      s.cache.hsize + (sizeofEntry + key.length + data.length) ≤ s.cache.size ∧
        (ttl = 0 ∨ expire s.cache s.now ttl ≠ noTtl)
  | .call (.get _) => True
  | .call (.wait seconds) => s.now + seconds < s.cache.start + 2 ^ 32
  | .reopen mtime => mtime ≤ s.cache.start ∧ s.now < mtime + 2 ^ 32

instance decidableSameReference (s : State) : (i : Op) → Decidable (SameReference s i)
  | .call (.add _ _ _) => inferInstanceAs (Decidable (_ ∧ _))
  | .call (.get _) => isTrue trivial
  | .call (.wait _) => inferInstanceAs (Decidable (_ < _))
  | .reopen _ => inferInstanceAs (Decidable (_ ∧ _))

/-- The stored time is not past the deadline. -/
def Due (start : Nat) (q : Nat × Entry) (at' ttl : Nat) : Prop :=
  ttl = 0 ∨ q.2.expire = 0 ∨ (q.2.expire ≠ noTtl ∧ start + q.2.expire ≤ at' + ttl)

def Inv (s : State) (a : Deadlines) : Prop :=
  ∃ olds news, Shape s.cache olds news ∧ a.now = s.now ∧ s.cache.start ≤ s.now ∧
    s.now < s.cache.start + 2 ^ 32 ∧ ∀ q ∈ live s.cache olds news, ∃ at' ttl,
      a.placed (q.1 + sizeofEntry) = some (at', ttl) ∧ Due s.cache.start q at' ttl

theorem add_inTime {s : State} {a : Deadlines} (hI : Inv s a) {key data : Bytes} {ttl : Nat}
    (hok : SameReference s (.call (.add key data ttl))) :
    ∃ r s', step s (.call (.add key data ttl)) = some (r, s') ∧
      InTime a (.call (.add key data ttl)) r ∧ Inv s' (a.next (.call (.add key data ttl)) r) := by
  obtain ⟨olds, news, hs, hnow, hlo, hhi, hdue⟩ := hI
  obtain ⟨hfit, hexp⟩ := hok
  obtain ⟨w, c', olds', news', gone, kept, hadd, hs', ⟨-, -, hstart⟩, hlive, hlive'⟩ :=
    add_spec hs s.now ttl hfit
  refine ⟨.added (w + sizeofEntry), { s with cache := c' }, ?_, trivial, olds', news', hs', hnow,
    by show c'.start ≤ s.now; omega, by show s.now < c'.start + 2 ^ 32; omega, ?_⟩
  · show CacheFreshness.step s (.add key data ttl) = _
    rw [CacheFreshness.step, hadd]
    rfl
  have hdisjoint := hs'.disjoint
  rw [hlive'] at hdisjoint
  show ∀ q ∈ live c' olds' news', ∃ at' ttl', _ ∧ Due c'.start q at' ttl'
  rw [hlive', hstart]
  intro q hq
  rcases List.mem_append.mp hq with hq | hq
  · have hne : q.1 ≠ w := by
      have h := (List.pairwise_append.mp hdisjoint).2.2 q hq _ List.mem_cons_self
      have h₁ := sizeofEntry_le q.2
      have h₂ := sizeofEntry_le ⟨key, data, expire s.cache s.now ttl⟩
      unfold BlockLayout.Disjoint at h
      simp only [sizeofEntry] at h h₁ h₂
      omega
    obtain ⟨at', ttl', hplaced, hq'⟩ :=
      hdue q (by rw [hlive]; exact List.mem_append_right gone hq)
    refine ⟨at', ttl', ?_, hq'⟩
    simpa [Deadlines.next, hne] using hplaced
  · obtain rfl := List.mem_singleton.mp hq
    refine ⟨s.now, ttl, by simp [Deadlines.next, hnow], ?_⟩
    by_cases hzero : ttl = 0
    · exact Or.inl hzero
    · refine Or.inr (Or.inr ⟨hexp.resolve_left hzero, ?_⟩)
      show s.cache.start + expire s.cache s.now ttl ≤ s.now + ttl
      rw [expire, if_neg hzero, getTime_eq hlo hhi]
      have := Nat.mod_le (s.now - s.cache.start + ttl) (2 ^ 32)
      omega

theorem get_inTime {s : State} {a : Deadlines} (hI : Inv s a) (key : Bytes) :
    ∃ r s', step s (.call (.get key)) = some (r, s') ∧ InTime a (.call (.get key)) r ∧
      Inv s' (a.next (.call (.get key)) r) := by
  obtain ⟨olds, news, hs, hnow, hlo, hhi, hdue⟩ := hI
  show ∃ r s', CacheFreshness.step s (.get key) = _ ∧ _
  rw [CacheFreshness.step, get_spec hs]
  cases hvis : (visible s.cache.hsize key (live s.cache olds news)).head? with
  | none => exact ⟨_, _, rfl, trivial, olds, news, hs, hnow, hlo, hhi, hdue⟩
  | some q =>
      obtain ⟨hmem, hexp0, hkey⟩ := visible_subset (List.mem_of_head? hvis)
      obtain ⟨at', ttl, hplaced, hq⟩ := hdue q hmem
      simp only [answer]
      by_cases hexp : Expired s.cache s.now q.2.expire
      · rw [if_pos hexp]
        obtain ⟨olds', news', hs', hlive'⟩ := mark_shape hs hmem
        refine ⟨_, _, rfl, trivial, olds', news', hs', hnow, hlo, hhi, ?_⟩
        rw [hlive']
        intro r hr
        obtain ⟨r, hr', rfl⟩ := List.mem_map.mp hr
        obtain ⟨at', ttl, hplaced, hr'⟩ := hdue r hr'
        refine ⟨at', ttl, hplaced, ?_⟩
        unfold Due mark
        split
        · exact Or.inr (Or.inl rfl)
        · exact hr'
      · rw [if_neg hexp]
        refine ⟨_, _, rfl, ⟨at', ttl, ?_, ?_⟩, olds, news, shape_ttl hs _, hnow, hlo, hhi, hdue⟩
        · rw [Nat.add_sub_cancel]
          exact hplaced
        · rw [hnow]
          rcases hq with hzero | hzero | ⟨hne, hle⟩
          · exact Or.inl hzero
          · exact absurd hzero hexp0
          · right
            have htime : ¬ getTime s.cache s.now ≥ q.2.expire := fun h => hexp ⟨hne, h⟩
            rw [getTime_eq hlo hhi] at htime
            omega

/-- In every run in which no opening moves the time of reference forward, no entry
is returned once its time to live is over. -/
theorem returned_in_time {size : Nat} (hmin : 100 ≤ size) (hmax : size ≤ 10 ^ 9) (now : Nat)
    (is : List Op) (hok : StepsMeet step SameReference ⟨create size now, now⟩ is) :
    Tracks step InTime Deadlines.next (fun s a => a.now = s.now) ⟨create size now, now⟩
      ⟨now, fun _ => none⟩ is := by
  refine tracks_of_simulation (I := Inv) ?_ ?_ is ?_ hok
  · rintro s a ⟨-, -, -, hnow, -⟩
    exact hnow
  · rintro s a i hI hok
    match i, hok with
    | .call (.add key data ttl), hok => exact add_inTime hI hok
    | .call (.get key), _ => exact get_inTime hI key
    | .call (.wait seconds), hok =>
        obtain ⟨olds, news, hs, hnow, hlo, hhi, hdue⟩ := hI
        refine ⟨.waited, _, rfl, trivial, olds, news, hs, ?_, Nat.le_add_right_of_le hlo, hok,
          hdue⟩
        show a.now + seconds = s.now + seconds
        rw [hnow]
    | .reopen mtime, hok =>
        obtain ⟨olds, news, hs, hnow, hlo, hhi, hdue⟩ := hI
        have hs' : Shape (reopen s.cache mtime) olds news :=
          ⟨hs.hsize_pos, hs.hsize_mod, hs.small, hs.writer_le, hs.unused_le, hs.olds_end,
            hs.news_end, hs.no_olds, hs.stored, hs.linked⟩
        refine ⟨.waited, _, rfl, trivial, olds, news, hs', hnow, Nat.le_trans hok.1 hlo, hok.2, ?_⟩
        intro q hq
        obtain ⟨at', ttl, hplaced, hq⟩ := hdue q hq
        refine ⟨at', ttl, hplaced, hq.imp_right (Or.imp_right ?_)⟩
        rintro ⟨hne, hle⟩
        exact ⟨hne, Nat.le_trans (Nat.add_le_add_right hok.1 _) hle⟩
  · refine ⟨[], [], create_shape hmin hmax now, rfl, Nat.le_refl now, ?_, ?_⟩
    · show now < now + 2 ^ 32
      omega
    · intro q hq
      cases hq

theorem returned_in_time_after_reopen :
    StepsMeet step SameReference ⟨create 100 7, 7⟩ [.call (.add [97] [1] 10), .call (.wait 4),
        .reopen 7, .call (.get [97]), .call (.wait 6), .call (.get [97])] ∧
      Tracks step InTime Deadlines.next (fun s a => a.now = s.now) ⟨create 100 7, 7⟩
        ⟨7, fun _ => none⟩ [.call (.add [97] [1] 10), .call (.wait 4), .reopen 7,
          .call (.get [97]), .call (.wait 6), .call (.get [97])] := by
  have hok : StepsMeet step SameReference ⟨create 100 7, 7⟩ [.call (.add [97] [1] 10),
      .call (.wait 4), .reopen 7, .call (.get [97]), .call (.wait 6), .call (.get [97])] := by
    decide
  exact ⟨hok, returned_in_time (by decide) (by decide) 7 _ hok⟩

/-- The file was modified five seconds after it was created; an entry of ten
seconds is returned after twelve. -/
theorem returned_late_after_reopen :
    ¬ Tracks step InTime Deadlines.next (fun s a => a.now = s.now) ⟨create 100 0, 0⟩
      ⟨0, fun _ => none⟩ [.call (.add [97] [1] 10), .call (.wait 5), .call (.add [98] [2] 0),
        .reopen 5, .call (.wait 7), .call (.get [97])] := by
  rintro ⟨-, r₁, s₁, h₁, -, -, r₂, s₂, h₂, -, -, r₃, s₃, h₃, -, -, r₄, s₄, h₄, -, -, r₅, s₅, h₅,
    -, -, r₆, s₆, h₆, hintime, -⟩
  have hreplies : ((step ⟨create 100 0, 0⟩ (.call (.add [97] [1] 10))).bind fun r₁ =>
      (run step r₁.2 [.call (.wait 5)]).bind fun s =>
        (step s (.call (.add [98] [2] 0))).bind fun r₃ =>
          (run step r₃.2 [.reopen 5, .call (.wait 7)]).bind fun s =>
            (step s (.call (.get [97]))).map fun r₆ => (r₁.1, r₃.1, r₆.1)) =
      some (.added 24, .added 42, .got (some (25, [1]))) := by
    decide
  simp only [run, h₁, h₂, h₃, h₄, h₅, Option.bind_some, h₆, Option.map_some] at hreplies
  obtain ⟨rfl, hrest⟩ := Prod.mk.inj (Option.some.inj hreplies)
  obtain ⟨rfl, rfl⟩ := Prod.mk.inj hrest
  obtain ⟨at', ttl, hplaced, htime⟩ := hintime
  have hten : (0, 10) = (at', ttl) := by
    simpa [Deadlines.next] using hplaced
  obtain ⟨rfl, rfl⟩ := Prod.mk.inj hten
  simp [Deadlines.next] at htime

end ULib.CacheExpiry
