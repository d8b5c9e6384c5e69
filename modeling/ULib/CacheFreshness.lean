import ULib.CacheLookup
import ULib.Runs
import Mathlib.Data.List.Infix

/-!
Runs of `add` and `get` while the clock goes on: what `get` answers against what
was added last.
-/

namespace ULib.CacheFreshness

open ULib.ByteMemory
open ULib.KeyComparison
open ULib.XorLinkedList
open ULib.Cache
open ULib.CacheShape
open ULib.CacheLookup
open ULib.Runs

/-- The cache and the wall clock. -/
structure State where
  cache : UCache
  now : Nat

inductive Op
  | add (key data : Bytes) (ttl : Nat)
  | get (key : Bytes)
  | wait (seconds : Nat)

inductive Reply
  | added (p : Nat)
  | got (r : Option (Nat × Bytes))
  | waited
  deriving DecidableEq

def step (s : State) : Op → Option (Reply × State)
  | .add key data ttl =>
      (add s.cache s.now key data ttl).map fun r => (.added r.1, { s with cache := r.2 })
  | .get key =>
      let r := Cache.get s.cache s.now key
      some (.got r.1, { s with cache := r.2 })
  | .wait seconds => some (.waited, { s with now := s.now + seconds })

/-- The data of the last `add` of each key, until a `get` finds nothing. -/
abbrev Latest := Bytes → Option Bytes

def Latest.next (a : Latest) : Op → Reply → Latest
  | .add key data _, _ => Function.update a key (some data)
  | .get key, .got none => Function.update a key none
  | _, _ => a

/-- A `get` answers with nothing or with the latest data. -/
def Fresh (a : Latest) : Op → Reply → Prop
  | .get key, .got (some r) => a key = some r.2
  | _, _ => True

/-- The positions of the entries of `key` among the first 101 of its bucket, from
the newest to the oldest, without those that were found expired. -/
def duplicates (c : UCache) (key : Bytes) : List Nat :=
  (follow c.x 101 (cacheHash c.hsize key) (getLink c (cacheHash c.hsize key))).filter
    fun p => isFor c.x key p

/-- A `get` that finds the newest entry of its key expired finds the older ones
expired too, an added entry fits and does not look expired at once, and the
clock stays in the 32 bits of `getTime`. -/
def NoOlder (s : State) : Op → Prop
  | .add key data ttl =>
      s.cache.hsize + (sizeofEntry + key.length + data.length) ≤ s.cache.size ∧
        expire s.cache s.now ttl ≠ 0
  | .get key => ∀ p ∈ (duplicates s.cache key).head?,
      Expired s.cache s.now (timeExpire s.cache.x p) →
        ∀ p' ∈ (duplicates s.cache key).tail, Expired s.cache s.now (timeExpire s.cache.x p')
  | .wait seconds => s.now + seconds < s.cache.start + 2 ^ 32

instance decidableNoOlder (s : State) : (i : Op) → Decidable (NoOlder s i)
  | .add _ _ _ => inferInstanceAs (Decidable (_ ∧ _))
  | .get key => inferInstanceAs (Decidable (∀ p ∈ (duplicates s.cache key).head?,
      Expired s.cache s.now (timeExpire s.cache.x p) →
        ∀ p' ∈ (duplicates s.cache key).tail, Expired s.cache s.now (timeExpire s.cache.x p')))
  | .wait _ => inferInstanceAs (Decidable (_ < _))

/-- What is visible of each key agrees with what was added last. -/
structure Agrees (s : State) (a : Latest) (es : List (Nat × Entry)) : Prop where
  latest : ∀ key data, a key = some data →
    ∀ q ∈ (visible s.cache.hsize key es).head?, q.2.data = data
  gone : ∀ key, a key = none →
    ∀ q ∈ visible s.cache.hsize key es, Expired s.cache s.now q.2.expire

def Inv (s : State) (a : Latest) : Prop :=
  ∃ olds news, Shape s.cache olds news ∧ s.cache.start ≤ s.now ∧
    s.now < s.cache.start + 2 ^ 32 ∧ Agrees s a (live s.cache olds news)

theorem duplicates_eq {c : UCache} {olds news : List Entry} (hs : Shape c olds news)
    (key : Bytes) :
    duplicates c key = (visible c.hsize key (live c olds news)).map Prod.fst := by
  have hb := cacheHash_isHead hs.hsize_pos hs.hsize_mod key
  have hwalk := follow_head (hs.linked _ hb) (fun p hp => hs.chain_ne_zero hp) 101
  rw [duplicates, getLink, hwalk, ← List.map_take, List.filter_map, visible]
  congr 1
  apply List.filter_congr
  intro q hq
  have hfor := isFor_iff (hs.stored q (bucket_subset (List.mem_of_mem_take hq))) key
  simpa using hfor

/-- Entries that are dropped or pushed back leave a prefix of what was visible. -/
theorem visible_prefix {hsize : Nat} {key : Bytes} {gone kept : List (Nat × Entry)}
    {q : Nat × Entry} (hne : q.2.key ≠ key) :
    visible hsize key (kept ++ [q]) <+: visible hsize key (gone ++ kept) := by
  have hold : bucket hsize (cacheHash hsize key) kept <+:
      bucket hsize (cacheHash hsize key) (gone ++ kept) := by
    rw [bucket, bucket, List.reverse_append, List.filter_append]
    exact List.prefix_append _ _
  have htake : ∀ n ≤ 101, ((bucket hsize (cacheHash hsize key) kept).take n).filter
      (fun q => Unmarked key q) <+: visible hsize key (gone ++ kept) := by
    intro n hn
    refine List.IsPrefix.filter _ ?_
    exact ((List.take_prefix_take_left hn).trans (hold.take 101))
  rw [visible, bucket_newest]
  split
  · rw [List.take_succ_cons, List.filter_cons_of_neg]
    · exact htake 100 (by omega)
    · simp only [decide_eq_true_eq]
      exact fun h => hne h.2
  · exact htake 101 (Nat.le_refl _)

/-- The newest entry of a key is the first that is visible. -/
theorem visible_newest {hsize : Nat} {key data : Bytes} {t w : Nat} (ht : t ≠ 0)
    (es : List (Nat × Entry)) :
    (visible hsize key (es ++ [(w, ⟨key, data, t⟩)])).head? = some (w, ⟨key, data, t⟩) := by
  rw [visible, bucket_newest, if_pos rfl, List.take_succ_cons, List.filter_cons_of_pos]
  · rfl
  · simp only [decide_eq_true_eq]
    exact ⟨ht, rfl⟩

/-- A marked entry is not visible, and marking shows no other. -/
theorem mem_visible_mark {hsize p : Nat} {key : Bytes} {es : List (Nat × Entry)}
    {r : Nat × Entry} (hr : r ∈ visible hsize key (es.map fun q => (q.1, mark p q))) :
    r ∈ visible hsize key es ∧ r.1 ≠ p := by
  rw [visible, bucket_mark, ← List.map_take] at hr
  obtain ⟨hmem, hkey⟩ := List.mem_filter.mp hr
  obtain ⟨q, hq, rfl⟩ := List.mem_map.mp hmem
  have hkey : Unmarked key (q.1, mark p q) := by simpa using hkey
  have hne : q.1 ≠ p := by
    intro h
    apply hkey.1
    simp [mark, h]
  have hsame : mark p q = q.2 := if_neg hne
  rw [hsame] at hkey ⊢
  exact ⟨List.mem_filter.mpr ⟨hq, by simpa using hkey⟩, hne⟩

theorem visible_mark_of_ne {hsize p : Nat} {key : Bytes} {es : List (Nat × Entry)}
    (hne : ∀ q ∈ es, q.1 = p → q.2.key ≠ key) :
    visible hsize key (es.map fun q => (q.1, mark p q)) = visible hsize key es := by
  have hmark : ∀ q ∈ es, q.2.key = key → (q.1, mark p q) = q := by
    intro q hq hkey
    have : mark p q = q.2 := if_neg fun h => hne q hq h hkey
    rw [this]
  have hsub : ∀ q ∈ (bucket hsize (cacheHash hsize key) es).take 101, q ∈ es :=
    fun q hq => bucket_subset (List.mem_of_mem_take hq)
  rw [visible, bucket_mark, ← List.map_take, List.filter_map]
  have hfilter : ((bucket hsize (cacheHash hsize key) es).take 101).filter
      ((fun q => decide (Unmarked key q)) ∘ fun q => (q.1, mark p q)) = visible hsize key es := by
    apply List.filter_congr
    intro q hq
    simp only [Function.comp_apply, decide_eq_decide]
    by_cases hkey : q.2.key = key
    · rw [hmark q (hsub q hq) hkey]
    · constructor
      · rintro ⟨-, h⟩
        exact absurd (by simpa using h) hkey
      · rintro ⟨-, h⟩
        exact absurd h hkey
  rw [hfilter]
  conv_rhs => rw [← List.map_id (visible hsize key es)]
  apply List.map_congr_left
  intro q hq
  obtain ⟨hmem, -, hkey⟩ := visible_subset hq
  exact hmark q hmem hkey

theorem getTime_eq {c : UCache} {now : Nat} (hlo : c.start ≤ now) (hhi : now < c.start + 2 ^ 32) :
    getTime c now = now - c.start := by
  unfold getTime
  omega

theorem Expired.congr {c c' : UCache} (hstart : c'.start = c.start) {now t : Nat} :
    Expired c' now t ↔ Expired c now t := by
  simp only [Expired, getTime, hstart]

theorem add_agrees {s : State} {a : Latest} (hI : Inv s a) {key data : Bytes} {ttl : Nat}
    (hok : NoOlder s (.add key data ttl)) :
    ∃ r s', step s (.add key data ttl) = some (r, s') ∧ Fresh a (.add key data ttl) r ∧
      Inv s' (a.next (.add key data ttl) r) := by
  obtain ⟨olds, news, hs, hlo, hhi, hagrees⟩ := hI
  obtain ⟨w, c', olds', news', gone, kept, hadd, hs', ⟨hsize, hhsize, hstart⟩, hlive, hlive'⟩ :=
    add_spec hs s.now ttl hok.1
  refine ⟨.added (w + sizeofEntry), { s with cache := c' }, by rw [step, hadd]; rfl, trivial,
    olds', news', hs', ?_, ?_, ?_⟩
  · show c'.start ≤ s.now
    omega
  · show s.now < c'.start + 2 ^ 32
    omega
  rw [hlive'] 
  have hfirst : ∀ key', key' ≠ key →
      visible s.cache.hsize key' (kept ++ [(w, ⟨key, data, expire s.cache s.now ttl⟩)]) <+:
        visible s.cache.hsize key' (live s.cache olds news) := by
    intro key' hne
    rw [hlive]
    exact visible_prefix (Ne.symm hne)
  refine ⟨?_, ?_⟩
  · intro key' data' hlatest q hq
    rw [show ({ s with cache := c' } : State).cache.hsize = s.cache.hsize from hhsize] at hq
    by_cases hkey : key' = key
    · subst hkey
      rw [visible_newest hok.2] at hq
      obtain rfl := Option.some.inj hq
      simpa [Latest.next] using hlatest
    · have hold : a key' = some data' := by simpa [Latest.next, hkey] using hlatest
      refine hagrees.latest key' data' hold q ?_
      obtain ⟨t, ht⟩ := hfirst key' hkey
      rw [← ht, List.head?_append]
      simp only [Option.mem_def] at hq ⊢
      rw [hq]
      rfl
  · intro key' hnone q hq
    rw [show ({ s with cache := c' } : State).cache.hsize = s.cache.hsize from hhsize] at hq
    have hkey : key' ≠ key := by
      rintro rfl
      simp [Latest.next] at hnone
    have hold : a key' = none := by simpa [Latest.next, hkey] using hnone
    exact (Expired.congr hstart).mpr (hagrees.gone key' hold q ((hfirst key' hkey).subset hq))

/-- Nothing of the shape depends on the time to live that `get` leaves. -/
theorem shape_ttl {c : UCache} {olds news : List Entry} (hs : Shape c olds news) (t : Nat) :
    Shape { c with ttl := t } olds news :=
  ⟨hs.hsize_pos, hs.hsize_mod, hs.small, hs.writer_le, hs.unused_le, hs.olds_end, hs.news_end,
    hs.no_olds, hs.stored, hs.linked⟩

theorem get_agrees {s : State} {a : Latest} (hI : Inv s a) {key : Bytes}
    (hok : NoOlder s (.get key)) :
    ∃ r s', step s (.get key) = some (r, s') ∧ Fresh a (.get key) r ∧
      Inv s' (a.next (.get key) r) := by
  obtain ⟨olds, news, hs, hlo, hhi, hagrees⟩ := hI
  have hdup := duplicates_eq hs key
  rw [step, get_spec hs]
  cases hvis : visible s.cache.hsize key (live s.cache olds news) with
  | nil =>
      refine ⟨_, _, rfl, trivial, olds, news, hs, hlo, hhi, ?_, ?_⟩
      · intro key' data' hlatest
        have hkey : key' ≠ key := by
          rintro rfl
          simp [Latest.next, answer] at hlatest
        exact hagrees.latest key' data' (by simpa [Latest.next, answer, hkey] using hlatest)
      · intro key' hnone
        by_cases hkey : key' = key
        · subst hkey
          intro q hq
          have hq : q ∈ visible s.cache.hsize key' (live s.cache olds news) := hq
          rw [hvis] at hq
          cases hq
        · exact hagrees.gone key' (by simpa [Latest.next, answer, hkey] using hnone)
  | cons q qs =>
      rw [hvis, List.map_cons] at hdup
      have hq : q ∈ visible s.cache.hsize key (live s.cache olds news) := by
        rw [hvis]
        exact List.mem_cons_self
      obtain ⟨hmem, -, hqkey⟩ := visible_subset hq
      simp only [List.head?_cons, answer]
      by_cases hexp : Expired s.cache s.now q.2.expire
      · rw [if_pos hexp]
        obtain ⟨olds', news', hs', hlive'⟩ := mark_shape hs hmem
        refine ⟨_, _, rfl, trivial, olds', news', hs', hlo, hhi, ?_⟩
        rw [hlive']
        -- the older entries of the key are expired as well
        have hrest : ∀ q' ∈ qs, Expired s.cache s.now q'.2.expire := by
          intro q' hq'
          have hvis' : q' ∈ visible s.cache.hsize key (live s.cache olds news) := by
            rw [hvis]
            exact List.mem_cons_of_mem q hq'
          have hmem' := (visible_subset hvis').1
          have h := hok q.1 (by rw [hdup]; rfl)
            (by rw [(hs.stored q hmem).expire_eq]; exact hexp) q'.1
            (by rw [hdup]; exact List.mem_map_of_mem hq')
          rwa [(hs.stored q' hmem').expire_eq] at h
        refine ⟨?_, ?_⟩
        · intro key' data' hlatest r hr
          have hkey : key' ≠ key := by
            rintro rfl
            simp [Latest.next] at hlatest
          refine hagrees.latest key' data' (by simpa [Latest.next, hkey] using hlatest) r ?_
          have hother : ∀ r ∈ live s.cache olds news, r.1 = q.1 → r.2.key ≠ key' := by
            intro r hr hpos hrkey
            obtain rfl := hs.eq_of_pos hr hmem hpos
            exact hkey (hrkey.symm.trans hqkey)
          rw [← visible_mark_of_ne hother]
          exact hr
        · intro key' hnone r hr
          obtain ⟨hr, hpos⟩ := mem_visible_mark hr
          by_cases hkey : key' = key
          · subst hkey
            rw [hvis] at hr
            rcases List.mem_cons.mp hr with rfl | hr
            · exact absurd rfl hpos
            · exact hrest r hr
          · exact hagrees.gone key' (by simpa [Latest.next, hkey] using hnone) r hr
      · rw [if_neg hexp]
        refine ⟨_, _, rfl, ?_, olds, news, shape_ttl hs _, hlo, hhi, ?_⟩
        · show a key = some q.2.data
          cases ha : a key with
          | none => exact absurd (hagrees.gone key ha q hq) hexp
          | some data =>
              have h := hagrees.latest key data ha q (by rw [hvis]; rfl)
              rw [h]
        · exact ⟨hagrees.latest, hagrees.gone⟩

theorem wait_agrees {s : State} {a : Latest} (hI : Inv s a) {seconds : Nat}
    (hok : NoOlder s (.wait seconds)) :
    ∃ r s', step s (.wait seconds) = some (r, s') ∧ Fresh a (.wait seconds) r ∧
      Inv s' (a.next (.wait seconds) r) := by
  obtain ⟨olds, news, hs, hlo, hhi, hagrees⟩ := hI
  have hnow : s.now + seconds < s.cache.start + 2 ^ 32 := hok
  refine ⟨.waited, _, rfl, trivial, olds, news, hs, Nat.le_add_right_of_le hlo, hnow,
    hagrees.latest, ?_⟩
  intro key hnone q hq
  obtain ⟨hne, htime⟩ := hagrees.gone key hnone q hq
  refine ⟨hne, ?_⟩
  rw [getTime_eq hlo hhi] at htime
  rw [getTime_eq (Nat.le_add_right_of_le hlo) hnow]
  omega

/-- In every run whose steps leave no unexpired duplicate behind an expired entry,
`get` answers with the data added last or with nothing, and with nothing again
until the key is added again. -/
theorem get_is_fresh {size : Nat} (hmin : 100 ≤ size) (hmax : size ≤ 10 ^ 9) (now : Nat)
    (is : List Op) (hok : StepsMeet step NoOlder ⟨create size now, now⟩ is) :
    Tracks step Fresh Latest.next (fun _ _ => True) ⟨create size now, now⟩ (fun _ => none) is := by
  refine tracks_of_simulation (I := Inv) (fun _ _ _ => trivial) ?_ is ?_ hok
  · intro s a i hI hok
    cases i with
    | add key data ttl => exact add_agrees hI hok
    | get key => exact get_agrees hI hok
    | wait seconds => exact wait_agrees hI hok
  · refine ⟨[], [], create_shape hmin hmax now, Nat.le_refl now, ?_, ?_, ?_⟩
    · show now < now + 2 ^ 32
      omega
    · intro key data h
      cases h
    · intro key _ q hq
      cases hq

/-- An entry that expires, is found expired and is added again. -/
theorem fresh_after_expiry :
    StepsMeet step NoOlder ⟨create 100 0, 0⟩ [.add [97] [1] 5, .get [97], .wait 5, .get [97],
        .get [97], .add [97] [2] 0, .get [97]] ∧
      Tracks step Fresh Latest.next (fun _ _ => True) ⟨create 100 0, 0⟩ (fun _ => none)
        [.add [97] [1] 5, .get [97], .wait 5, .get [97], .get [97], .add [97] [2] 0,
          .get [97]] := by
  have hok : StepsMeet step NoOlder ⟨create 100 0, 0⟩ [.add [97] [1] 5, .get [97], .wait 5,
      .get [97], .get [97], .add [97] [2] 0, .get [97]] := by
    decide
  exact ⟨hok, get_is_fresh (by decide) (by decide) 0 _ hok⟩

/-- The newer of two entries of one key expires, and the older one is returned
from the second `get` on. -/
theorem older_duplicate_reappears :
    ¬ Tracks step Fresh Latest.next (fun _ _ => True) ⟨create 100 0, 0⟩ (fun _ => none)
      [.add [97] [1] 0, .add [97] [2] 1, .wait 1, .get [97], .get [97]] := by
  rintro ⟨-, r₁, s₁, h₁, -, -, r₂, s₂, h₂, -, -, r₃, s₃, h₃, -, -, r₄, s₄, h₄, -, -, r₅, s₅, h₅,
    hfresh, -⟩
  have hrun : ((run step ⟨create 100 0, 0⟩ [.add [97] [1] 0, .add [97] [2] 1, .wait 1]).bind
      fun s => (step s (.get [97])).bind fun r => (step r.2 (.get [97])).map fun r' =>
        (r.1, r'.1)) = some (.got none, .got (some (25, [1]))) := by
    decide
  simp only [run, h₁, h₂, h₃, Option.bind_some, h₄, h₅, Option.map_some] at hrun
  obtain ⟨rfl, rfl⟩ := Prod.mk.inj (Option.some.inj hrun)
  simp [Fresh, Latest.next] at hfresh

end ULib.CacheFreshness
