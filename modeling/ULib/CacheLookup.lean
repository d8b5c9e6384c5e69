import ULib.CacheShape

/-!
`get` over the shape of the cache: which entries it looks at, which of them it
answers with, and what it leaves when it finds that entry expired.
-/

namespace ULib.CacheLookup

open ULib.ByteMemory
open ULib.BlockLayout
open ULib.KeyComparison
open ULib.XorLinkedList
open ULib.Cache
open ULib.CacheShape

/-- An entry of `key` that was not found expired. -/
def Unmarked (key : Bytes) (q : Nat × Entry) : Prop := q.2.expire ≠ 0 ∧ q.2.key = key

instance (key : Bytes) (q : Nat × Entry) : Decidable (Unmarked key q) :=
  inferInstanceAs (Decidable (_ ∧ _))

/-- The entries among the first 101 of its bucket that are for `key`. -/
def visible (hsize : Nat) (key : Bytes) (es : List (Nat × Entry)) : List (Nat × Entry) :=
  ((bucket hsize (cacheHash hsize key) es).take 101).filter fun q => Unmarked key q

/-- The time has come at which the entry is no longer returned. -/
def Expired (c : UCache) (now time : Nat) : Prop := time ≠ noTtl ∧ getTime c now ≥ time

instance (c : UCache) (now time : Nat) : Decidable (Expired c now time) :=
  inferInstanceAs (Decidable (_ ∧ _))

/-- What `get` does with the first visible entry. -/
def answer (c : UCache) (now : Nat) (key : Bytes) :
    Option (Nat × Entry) → Option (Nat × Bytes) × UCache
  | none => (none, c)
  | some q =>
      if Expired c now q.2.expire then (none, { c with x := put c.x (q.1 + 12) 0 })
      else (some (q.1 + sizeofEntry + key.length, q.2.data), { c with ttl := q.2.expire })

theorem isFor_iff {x : Mem} {q : Nat × Entry} (h : Stored x q.1 q.2) (key : Bytes) :
    isFor x key q.1 ↔ Unmarked key q := by
  unfold isFor Unmarked
  rw [h.expire_eq, h.keylen_eq]
  constructor
  · rintro ⟨hexp, hlen, hkey⟩
    rw [← hlen, h.key_eq] at hkey
    exact ⟨hexp, hkey⟩
  · rintro ⟨hexp, rfl⟩
    exact ⟨hexp, rfl, h.key_eq⟩

theorem getLoop_spec {c : UCache} (now : Nat) (key : Bytes) (n : Nat) {qs : List (Nat × Entry)}
    {prev cur : Nat} (hlinked : Linked c.x prev cur (qs.map Prod.fst))
    (hstored : ∀ q ∈ qs, Stored c.x q.1 q.2) (hpos : ∀ q ∈ qs, q.1 ≠ 0) :
    getLoop c now key n cur (prev ^^^ getLink c cur) =
      answer c now key ((qs.take n).filter fun q => Unmarked key q).head? := by
  induction qs generalizing prev cur n with
  | nil =>
      have hend : prev ^^^ getLink c cur = 0 := by
        rw [getLink, show ByteMemory.get c.x cur = prev from hlinked, Nat.xor_self]
      rw [hend]
      cases n <;> simp [getLoop, answer]
  | cons q qs ih =>
      obtain ⟨hcur, hrest⟩ := hlinked
      rw [getLink, hcur, xor_cancel_left]
      cases n with
      | zero => rfl
      | succ n =>
          have hq := hstored q List.mem_cons_self
          have hfor := isFor_iff hq key
          rw [getLoop, if_neg (hpos q List.mem_cons_self), List.take_succ_cons]
          by_cases hkey : Unmarked key q
          · rw [if_pos (hfor.mpr hkey), List.filter_cons_of_pos (by simpa using hkey)]
            simp only [List.head?_cons, answer, Expired, hq.expire_eq, hq.datalen_eq]
            obtain ⟨-, rfl⟩ := hkey
            rw [hq.data_eq]
            rfl
          · rw [if_neg (fun h => hkey (hfor.mp h)), List.filter_cons_of_neg (by simpa using hkey)]
            exact ih n hrest (fun r hr => hstored r (List.mem_cons_of_mem q hr))
              (fun r hr => hpos r (List.mem_cons_of_mem q hr))

theorem bucket_subset {hsize b : Nat} {es : List (Nat × Entry)} {q : Nat × Entry}
    (hq : q ∈ bucket hsize b es) : q ∈ es :=
  List.mem_reverse.mp (List.mem_filter.mp hq).1

theorem visible_subset {hsize : Nat} {key : Bytes} {es : List (Nat × Entry)} {q : Nat × Entry}
    (hq : q ∈ visible hsize key es) : q ∈ es ∧ Unmarked key q := by
  obtain ⟨hmem, hkey⟩ := List.mem_filter.mp hq
  exact ⟨bucket_subset (List.mem_of_mem_take hmem), by simpa using hkey⟩

/-- `get` answers with the first visible entry. -/
theorem get_spec {c : UCache} {olds news : List Entry} (hs : Shape c olds news) (now : Nat)
    (key : Bytes) : Cache.get c now key =
      answer c now key (visible c.hsize key (live c olds news)).head? := by
  have hb := cacheHash_isHead hs.hsize_pos hs.hsize_mod key
  have h := getLoop_spec now key 101 (hs.linked _ hb)
    (fun q hq => hs.stored q (bucket_subset hq))
    (fun q hq => hs.chain_ne_zero (List.mem_map_of_mem hq))
  rwa [Nat.zero_xor] at h

/-- The entry at `p` found expired. -/
def mark (p : Nat) (q : Nat × Entry) : Entry := if q.1 = p then { q.2 with expire := 0 } else q.2

@[simp] theorem entrylen_mark (p : Nat) (q : Nat × Entry) : entrylen (mark p q) = entrylen q.2 := by
  unfold mark
  split <;> rfl

@[simp] theorem mark_key (p : Nat) (q : Nat × Entry) : (mark p q).key = q.2.key := by
  unfold mark
  split <;> rfl

@[simp] theorem mark_data (p : Nat) (q : Nat × Entry) : (mark p q).data = q.2.data := by
  unfold mark
  split <;> rfl

theorem bucket_mark (hsize b p : Nat) (es : List (Nat × Entry)) :
    bucket hsize b (es.map fun q => (q.1, mark p q)) =
      (bucket hsize b es).map fun q => (q.1, mark p q) := by
  rw [bucket, ← List.map_reverse, List.filter_map, bucket]
  congr 1
  apply List.filter_congr
  intro q _
  simp

/-- Marking an entry changes nothing but its time. -/
theorem mark_shape {c : UCache} {olds news : List Entry} (hs : Shape c olds news)
    {q : Nat × Entry} (hq : q ∈ live c olds news) :
    ∃ olds' news', Shape { c with x := put c.x (q.1 + 12) 0 } olds' news' ∧
      live { c with x := put c.x (q.1 + 12) 0 } olds' news' =
        (live c olds news).map fun r => (r.1, mark q.1 r) := by
  obtain ⟨holds, holdsEnd⟩ := placed_map (entrylen_mark q.1) c.oldest olds
  obtain ⟨hnews, hnewsEnd⟩ := placed_map (entrylen_mark q.1) c.hsize news
  have hlive : live { c with x := put c.x (q.1 + 12) 0 }
      ((placed entrylen c.oldest olds).map (mark q.1))
      ((placed entrylen c.hsize news).map (mark q.1)) =
      (live c olds news).map fun r => (r.1, mark q.1 r) := by
    simp only [live, List.map_append, holds, hnews]
  have hlen := sizeofEntry_le q.2
  simp only [sizeofEntry] at hlen
  have hitem : ∀ p, IsItem c olds news p → Apart (q.1 + 12) 4 p 4 := by
    intro p hp
    have hmod := hs.hsize_mod
    unfold Apart
    rcases hp with ⟨hlt, hp⟩ | ⟨r, hr, rfl⟩
    · have := (hs.within hq).1
      omega
    · have hrlen := sizeofEntry_le r.2
      simp only [sizeofEntry] at hrlen
      rcases hs.eq_or_disjoint hq hr with rfl | hdis
      · omega
      · unfold BlockLayout.Disjoint at hdis
        omega
  refine ⟨_, _, ⟨hs.hsize_pos, hs.hsize_mod, hs.small, hs.writer_le, hs.unused_le,
    holdsEnd.trans hs.olds_end, hnewsEnd.trans hs.news_end, ?_, ?_, ?_⟩, hlive⟩
  · intro h
    apply hs.no_olds
    have hnil := List.map_eq_nil_iff.mp h
    rw [← map_snd_placed entrylen c.oldest olds, hnil]
    rfl
  · rw [hlive]
    intro r₀ hr₀
    obtain ⟨r, hr, rfl⟩ := List.mem_map.mp hr₀
    have hst := hs.stored r hr
    have hrlen : entrylen r.2 = 16 + r.2.key.length + r.2.data.length := rfl
    rcases hs.eq_or_disjoint hq hr with rfl | hdis
    · -- the marked entry itself
      have hkeep : ∀ a n, q.1 + 12 + 4 ≤ a ∨ a + n ≤ q.1 + 12 →
          Agree (put c.x (q.1 + 12) 0) c.x a n := by
        intro a n h
        apply put_agree
        unfold Apart
        omega
      have hmark : mark q.1 q = { q.2 with expire := 0 } := if_pos rfl
      rw [hmark]
      refine ⟨?_, ?_, ?_, ?_, ?_⟩
      · exact (hkeep _ _ (by omega)).get_eq.trans hst.keylen_eq
      · exact (hkeep _ _ (by omega)).get_eq.trans hst.datalen_eq
      · exact get_put_of_lt c.x _ (by decide)
      · exact (hkeep _ _ (by simp only [sizeofEntry]; omega)).read_eq.trans hst.key_eq
      · exact (hkeep _ _ (by simp only [sizeofEntry]; omega)).read_eq.trans hst.data_eq
    · have hne : r.1 ≠ q.1 := by
        unfold BlockLayout.Disjoint at hdis
        omega
      have hmark : mark q.1 r = r.2 := if_neg hne
      rw [hmark]
      refine hst.congr (put_agree c.x _ _ ?_)
      unfold BlockLayout.Disjoint at hdis
      unfold Apart
      omega
  · intro b hb
    rw [hlive]
    have hpos : (bucket c.hsize b ((live c olds news).map fun r => (r.1, mark q.1 r))).map Prod.fst =
        (bucket c.hsize b (live c olds news)).map Prod.fst := by
      rw [bucket_mark, List.map_map]
      rfl
    show Linked _ 0 b ((bucket c.hsize b _).map Prod.fst)
    rw [hpos]
    refine (hs.linked b hb).congr ?_
    intro p hp
    exact get_put_apart c.x 0 (hitem p (item_of_chain hb hp))

end ULib.CacheLookup
