import ULib.Cache
import Mathlib.Data.List.Nodup
import Mathlib.Data.List.Pairwise

/-!
The shape of the cache: two stretches of entries, one list of links for each
bucket, and what the rounds of `add` do to them.
-/

namespace ULib.CacheShape

open ULib.ByteMemory
open ULib.BlockLayout
open ULib.KeyComparison
open ULib.XorLinkedList
open ULib.Cache

structure Entry where
  key : Bytes
  data : Bytes
  expire : Nat

def entrylen (e : Entry) : Nat := sizeofEntry + e.key.length + e.data.length

/-- The entry `e` lies at `p`, its link apart. -/
structure Stored (x : Mem) (p : Nat) (e : Entry) : Prop where
  keylen_eq : keylen x p = e.key.length
  datalen_eq : datalen x p = e.data.length
  expire_eq : timeExpire x p = e.expire
  key_eq : read x (p + sizeofEntry) e.key.length = e.key
  data_eq : read x (p + sizeofEntry + e.key.length) e.data.length = e.data

/-- The entries with their positions, from the oldest to the newest. -/
def live (c : UCache) (olds news : List Entry) : List (Nat × Entry) :=
  placed entrylen c.oldest olds ++ placed entrylen c.hsize news

/-- The entries of a bucket, from the newest to the oldest. -/
def bucket (hsize b : Nat) (es : List (Nat × Entry)) : List (Nat × Entry) :=
  es.reverse.filter fun q => cacheHash hsize q.2.key = b

/-- The position of the head link of a bucket. -/
def IsHead (hsize b : Nat) : Prop := b < hsize ∧ b % 4 = 0

structure Shape (c : UCache) (olds news : List Entry) : Prop where
  hsize_pos : 0 < c.hsize
  hsize_mod : c.hsize % 4 = 0
  small : c.size < 2 ^ 32
  writer_le : c.writer ≤ c.oldest
  unused_le : c.unused ≤ c.size
  olds_end : endOf entrylen c.oldest olds = c.unused
  news_end : endOf entrylen c.hsize news = c.writer
  no_olds : olds = [] → c.unused = c.size
  stored : ∀ q ∈ live c olds news, Stored c.x q.1 q.2
  linked : ∀ b, IsHead c.hsize b →
    Linked c.x 0 b ((bucket c.hsize b (live c olds news)).map Prod.fst)

theorem sizeofEntry_le (e : Entry) : sizeofEntry ≤ entrylen e := by
  unfold entrylen
  omega

theorem Stored.congr {x x' : Mem} {p : Nat} {e : Entry} (h : Stored x p e)
    (hsame : Agree x' x (p + 4) (entrylen e - 4)) : Stored x' p e := by
  have hlen : entrylen e = 16 + e.key.length + e.data.length := rfl
  refine ⟨?_, ?_, ?_, ?_, ?_⟩
  · exact ((hsame.mono (by omega) (by omega)).get_eq).trans h.keylen_eq
  · exact ((hsame.mono (by omega) (by omega)).get_eq).trans h.datalen_eq
  · exact ((hsame.mono (by omega) (by omega)).get_eq).trans h.expire_eq
  · refine ((hsame.mono ?_ ?_).read_eq).trans h.key_eq <;> simp only [sizeofEntry] <;> omega
  · refine ((hsame.mono ?_ ?_).read_eq).trans h.data_eq <;> simp only [sizeofEntry] <;> omega

theorem cacheHash_isHead {hsize : Nat} (hpos : 0 < hsize) (hmod : hsize % 4 = 0) (key : Bytes) :
    IsHead hsize (cacheHash hsize key) := by
  refine ⟨Nat.mod_lt _ hpos, ?_⟩
  rw [cacheHash, Nat.mod_mod_of_dvd _ (Nat.dvd_of_mod_eq_zero hmod), Nat.mul_mod_left]

theorem mem_bucket {hsize b p : Nat} {es : List (Nat × Entry)}
    (hp : p ∈ (bucket hsize b es).map Prod.fst) :
    ∃ q ∈ es, q.1 = p ∧ cacheHash hsize q.2.key = b := by
  obtain ⟨q, hq, rfl⟩ := List.mem_map.mp hp
  obtain ⟨hmem, hhash⟩ := List.mem_filter.mp hq
  exact ⟨q, List.mem_reverse.mp hmem, rfl, by simpa using hhash⟩

/-- What the links of the cache are kept in: the heads and the entries. -/
def IsItem (c : UCache) (olds news : List Entry) (a : Nat) : Prop :=
  IsHead c.hsize a ∨ ∃ q ∈ live c olds news, q.1 = a

theorem item_of_chain {c : UCache} {olds news : List Entry} {b p : Nat} (hb : IsHead c.hsize b)
    (hp : p ∈ b :: (bucket c.hsize b (live c olds news)).map Prod.fst) :
    IsItem c olds news p := by
  rcases List.mem_cons.mp hp with rfl | hp
  · exact Or.inl hb
  · obtain ⟨q, hq, rfl, -⟩ := mem_bucket hp
    exact Or.inr ⟨q, hq, rfl⟩

section
variable {c : UCache} {olds news : List Entry} (hs : Shape c olds news)
include hs

theorem Shape.hsize_le : c.hsize ≤ c.writer := by
  rw [← hs.news_end]
  exact le_endOf entrylen c.hsize news

theorem Shape.oldest_le : c.oldest ≤ c.unused := by
  rw [← hs.olds_end]
  exact le_endOf entrylen c.oldest olds

theorem Shape.inside {q : Nat × Entry} (hq : q ∈ live c olds news) :
    (c.hsize ≤ q.1 ∧ q.1 + entrylen q.2 ≤ c.writer) ∨
      (c.oldest ≤ q.1 ∧ q.1 + entrylen q.2 ≤ c.unused) := by
  rcases List.mem_append.mp hq with hq | hq
  · right
    rw [← hs.olds_end]
    exact placed_bounds hq
  · left
    rw [← hs.news_end]
    exact placed_bounds hq

theorem Shape.within {q : Nat × Entry} (hq : q ∈ live c olds news) :
    c.hsize ≤ q.1 ∧ q.1 + entrylen q.2 ≤ c.size := by
  have h₁ := hs.hsize_le
  have h₂ := hs.oldest_le
  have h₃ := hs.writer_le
  have h₄ := hs.unused_le
  rcases hs.inside hq with h | h <;> omega

/-- No entry overlaps another. -/
theorem Shape.disjoint : (live c olds news).Pairwise (BlockLayout.Disjoint entrylen) := by
  refine List.pairwise_append.mpr ⟨?_, ?_, ?_⟩
  · exact (placed_pairwise c.oldest olds).imp Or.inl
  · exact (placed_pairwise c.hsize news).imp Or.inl
  · intro q hq q' hq'
    right
    have hlo := (placed_bounds hq).1
    have hhi := (placed_bounds hq').2
    rw [hs.news_end] at hhi
    have := hs.writer_le
    omega

theorem Shape.eq_or_disjoint {q q' : Nat × Entry} (hq : q ∈ live c olds news)
    (hq' : q' ∈ live c olds news) : q = q' ∨ BlockLayout.Disjoint entrylen q q' := by
  let R : Nat × Entry → Nat × Entry → Prop := fun q q' =>
      q = q' ∨ BlockLayout.Disjoint entrylen q q'
  have : Std.Symm R := ⟨fun _ _ h => h.imp Eq.symm Or.symm⟩
  have hpairs : (live c olds news).Pairwise R := hs.disjoint.imp Or.inr
  have hrefl : ∀ q ∈ live c olds news, R q q := fun q _ => Or.inl rfl
  exact hpairs.forall_of_forall hrefl hq hq'

theorem Shape.eq_of_pos {q q' : Nat × Entry} (hq : q ∈ live c olds news)
    (hq' : q' ∈ live c olds news) (h : q.1 = q'.1) : q = q' := by
  rcases hs.eq_or_disjoint hq hq' with heq | hdis
  · exact heq
  · have h₁ := sizeofEntry_le q.2
    have h₂ := sizeofEntry_le q'.2
    unfold BlockLayout.Disjoint at hdis
    simp only [sizeofEntry] at h₁ h₂
    omega

theorem Shape.item_lt {a : Nat} (ha : IsItem c olds news a) : a < 2 ^ 32 := by
  have h₁ := hs.small
  rcases ha with ha | ⟨q, hq, rfl⟩
  · have h₂ := hs.hsize_le
    have h₃ := hs.oldest_le
    have h₄ := hs.writer_le
    have h₅ := hs.unused_le
    have := ha.1
    omega
  · have h₂ := hs.within hq
    omega

theorem Shape.items_apart {a a' : Nat} (ha : IsItem c olds news a) (ha' : IsItem c olds news a')
    (hne : a ≠ a') : Apart a 4 a' 4 := by
  have hmod := hs.hsize_mod
  unfold Apart
  rcases ha with ⟨hlt, ha⟩ | ⟨q, hq, rfl⟩
  · rcases ha' with ⟨hlt', ha'⟩ | ⟨q', hq', rfl⟩
    · omega
    · have := (hs.within hq').1
      omega
  · have hlen := sizeofEntry_le q.2
    simp only [sizeofEntry] at hlen
    rcases ha' with ⟨hlt', ha'⟩ | ⟨q', hq', rfl⟩
    · have := (hs.within hq).1
      omega
    · have hlen' := sizeofEntry_le q'.2
      simp only [sizeofEntry] at hlen'
      rcases hs.eq_or_disjoint hq hq' with rfl | hdis
      · exact absurd rfl hne
      · unfold BlockLayout.Disjoint at hdis
        omega

/-- A change of a link leaves the entries as they are. -/
theorem Shape.stored_put {x : Mem} {a v : Nat} (ha : IsItem c olds news a) {q : Nat × Entry}
    (hq : q ∈ live c olds news) (h : Stored x q.1 q.2) : Stored (put x a v) q.1 q.2 := by
  refine h.congr (put_agree x a v ?_)
  have hlen := sizeofEntry_le q.2
  have hmod := hs.hsize_mod
  simp only [sizeofEntry] at hlen
  unfold Apart
  rcases ha with ⟨hlt, ha⟩ | ⟨q', hq', rfl⟩
  · have := (hs.within hq).1
    omega
  · have hlen' := sizeofEntry_le q'.2
    simp only [sizeofEntry] at hlen'
    rcases hs.eq_or_disjoint hq hq' with rfl | hdis
    · omega
    · unfold BlockLayout.Disjoint at hdis
      omega

theorem Shape.get_put_ne {a a' v : Nat} (ha : IsItem c olds news a)
    (ha' : IsItem c olds news a') (hne : a ≠ a') :
    ByteMemory.get (put c.x a v) a' = ByteMemory.get c.x a' :=
  get_put_apart c.x v (hs.items_apart ha ha' hne)

theorem Shape.chains_apart {b b' p p' : Nat} (hb : IsHead c.hsize b) (hb' : IsHead c.hsize b')
    (hne : b ≠ b') (hp : p ∈ b :: (bucket c.hsize b (live c olds news)).map Prod.fst)
    (hp' : p' ∈ b' :: (bucket c.hsize b' (live c olds news)).map Prod.fst) : p ≠ p' := by
  rintro rfl
  rcases List.mem_cons.mp hp with rfl | hp
  · rcases List.mem_cons.mp hp' with rfl | hp'
    · exact hne rfl
    · obtain ⟨q, hq, rfl, -⟩ := mem_bucket hp'
      exact absurd hb.1 (Nat.not_lt.mpr (hs.within hq).1)
  · obtain ⟨q, hq, rfl, hhash⟩ := mem_bucket hp
    rcases List.mem_cons.mp hp' with rfl | hp'
    · exact absurd hb'.1 (Nat.not_lt.mpr (hs.within hq).1)
    · obtain ⟨q', hq', hpos, hhash'⟩ := mem_bucket hp'
      obtain rfl := hs.eq_of_pos hq hq' hpos.symm
      exact hne (hhash.symm.trans hhash')

theorem Shape.chain_nodup {b : Nat} (hb : IsHead c.hsize b) :
    (b :: (bucket c.hsize b (live c olds news)).map Prod.fst).Nodup := by
  refine List.nodup_cons.mpr ⟨?_, ?_⟩
  · intro hmem
    obtain ⟨q, hq, rfl, -⟩ := mem_bucket hmem
    exact absurd hb.1 (Nat.not_lt.mpr (hs.within hq).1)
  · have hpos : ((live c olds news).map Prod.fst).Nodup := by
      refine List.pairwise_map.mpr (hs.disjoint.imp ?_)
      intro q q' hdis
      have h₁ := sizeofEntry_le q.2
      have h₂ := sizeofEntry_le q'.2
      simp only [sizeofEntry] at h₁ h₂
      unfold BlockLayout.Disjoint at hdis
      omega
    have hrev : ((live c olds news).reverse.map Prod.fst).Nodup := by
      rw [List.map_reverse]
      exact List.nodup_reverse.mpr hpos
    exact hrev.sublist (List.filter_sublist.map Prod.fst)

end

theorem entrylen_pos (e : Entry) : 0 < entrylen e :=
  Nat.lt_of_lt_of_le (by decide) (sizeofEntry_le e)

/-- The entry that `evict` drops is the last of its bucket. -/
theorem bucket_oldest {hsize b : Nat} (q : Nat × Entry) (es : List (Nat × Entry)) :
    bucket hsize b (q :: es) =
      if cacheHash hsize q.2.key = b then bucket hsize b es ++ [q] else bucket hsize b es := by
  simp only [bucket, List.reverse_cons, List.filter_append]
  split <;> simp [*]

theorem bucket_newest {hsize b : Nat} (q : Nat × Entry) (es : List (Nat × Entry)) :
    bucket hsize b (es ++ [q]) =
      if cacheHash hsize q.2.key = b then q :: bucket hsize b es else bucket hsize b es := by
  simp only [bucket, List.reverse_append, List.reverse_cons, List.reverse_nil, List.nil_append,
    List.singleton_append, List.filter_cons, decide_eq_true_eq]

/-- The cache after `evict`, with the lengths of the dropped entry filled in. -/
def evicted (c : UCache) (e : Entry) (olds : List Entry) : UCache :=
  { c with
    x := replace c.x (getLink c c.oldest) c.oldest
    oldest := if olds = [] then c.size else c.oldest + entrylen e
    unused := if olds = [] then c.size else c.unused }

theorem live_evicted (c : UCache) (e : Entry) (olds news : List Entry) :
    live c (e :: olds) news = (c.oldest, e) :: live (evicted c e olds) olds news := by
  simp only [live, placed, evicted]
  split
  · simp [*, placed]
  · rfl

theorem oldest_isItem (c : UCache) (e : Entry) (olds news : List Entry) :
    IsItem c (e :: olds) news c.oldest :=
  Or.inr ⟨(c.oldest, e), by simp [live, placed], rfl⟩

theorem chain_evicted_subset {c : UCache} {e : Entry} {olds news : List Entry} {b p : Nat}
    (hp : p ∈ b :: (bucket c.hsize b (live (evicted c e olds) olds news)).map Prod.fst) :
    p ∈ b :: (bucket c.hsize b (live c (e :: olds) news)).map Prod.fst := by
  rw [live_evicted, bucket_oldest]
  split
  · rw [List.map_append, ← List.cons_append]
    exact List.mem_append_left _ hp
  · exact hp

section
variable {c : UCache} {e : Entry} {olds news : List Entry} (hs : Shape c (e :: olds) news)
include hs

/-- The link of the oldest entry leads back to the item before it. -/
theorem getLink_oldest : getLink c c.oldest = lastOf (cacheHash c.hsize e.key)
    ((bucket c.hsize (cacheHash c.hsize e.key) (live (evicted c e olds) olds news)).map
      Prod.fst) := by
  have hlinked := hs.linked _ (cacheHash_isHead hs.hsize_pos hs.hsize_mod e.key)
  rw [live_evicted, bucket_oldest, if_pos rfl, List.map_append] at hlinked
  exact hlinked.get_last

theorem getLink_oldest_mem : getLink c c.oldest ∈ cacheHash c.hsize e.key ::
    (bucket c.hsize (cacheHash c.hsize e.key) (live c (e :: olds) news)).map Prod.fst := by
  rw [getLink_oldest hs]
  exact chain_evicted_subset (lastOf_mem _ _)

theorem getLink_oldest_isItem : IsItem c (e :: olds) news (getLink c c.oldest) :=
  item_of_chain (cacheHash_isHead hs.hsize_pos hs.hsize_mod e.key) (getLink_oldest_mem hs)

theorem evict_eq : evict c = evicted c e olds := by
  have hmem : (c.oldest, e) ∈ live c (e :: olds) news := by simp [live, placed]
  have hstored := hs.stored_put (v := c.oldest ^^^ ByteMemory.get c.x (getLink c c.oldest))
    (getLink_oldest_isItem hs) hmem (hs.stored _ hmem)
  have hend : c.oldest + sizeofEntry + e.key.length + e.data.length = c.unused ↔ olds = [] := by
    rw [← hs.olds_end, endOf, show c.oldest + sizeofEntry + e.key.length + e.data.length =
      c.oldest + entrylen e by unfold entrylen; omega]
    rw [eq_comm]
    exact endOf_eq_self_iff entrylen_pos _ _
  simp only [evict, replace, hstored.keylen_eq, hstored.datalen_eq, evicted, hend]
  split
  · rfl
  · simp [entrylen, Nat.add_assoc]

theorem evict_linked {b : Nat} (hb : IsHead c.hsize b) : Linked (evicted c e olds).x 0 b
    ((bucket c.hsize b (live (evicted c e olds) olds news)).map Prod.fst) := by
  have hlast := getLink_oldest hs
  have hitem := getLink_oldest_isItem hs
  have hhead := cacheHash_isHead hs.hsize_pos hs.hsize_mod e.key
  have hlinked := hs.linked b hb
  by_cases hsame : cacheHash c.hsize e.key = b
  · subst hsame
    have hnodup := hs.chain_nodup hb
    rw [live_evicted, bucket_oldest, if_pos rfl, List.map_append] at hlinked hnodup
    refine hlinked.pop ?_ ?_ ?_
    · rw [← List.cons_append] at hnodup
      exact hnodup.of_append_left
    · rw [← hlast]
      show ByteMemory.get (put c.x _ (c.oldest ^^^ _)) _ = c.oldest ^^^ _
      rw [get_put_of_lt]
      exact Nat.xor_lt_two_pow (hs.item_lt (oldest_isItem c e olds news)) (ByteMemory.get_lt c.x _)
    · intro q hq hne
      rw [← hlast] at hne
      exact hs.get_put_ne hitem (item_of_chain hb (chain_evicted_subset hq)) (Ne.symm hne)
  · rw [live_evicted, bucket_oldest, if_neg hsame] at hlinked
    refine hlinked.congr ?_
    intro q hq
    have hq' := chain_evicted_subset hq
    exact hs.get_put_ne hitem (item_of_chain hb hq')
      (hs.chains_apart hhead hb hsame (getLink_oldest_mem hs) hq')

theorem evict_shape : Shape (evicted c e olds) olds news := by
  have hstored : ∀ q ∈ live (evicted c e olds) olds news,
      Stored (evicted c e olds).x q.1 q.2 := by
    intro q hq
    have hq' : q ∈ live c (e :: olds) news := by
      rw [live_evicted]
      exact List.mem_cons_of_mem _ hq
    exact hs.stored_put (getLink_oldest_isItem hs) hq' (hs.stored q hq')
  have holds := hs.olds_end
  have hwriter := hs.writer_le
  have holdest := hs.oldest_le
  have hunused := hs.unused_le
  refine ⟨hs.hsize_pos, hs.hsize_mod, hs.small, ?_, ?_, ?_, hs.news_end, ?_, hstored,
    fun b hb => evict_linked hs hb⟩
  · show c.writer ≤ if olds = [] then c.size else c.oldest + entrylen e
    split <;> omega
  · show (if olds = [] then c.size else c.unused) ≤ c.size
    split <;> omega
  · show endOf entrylen (if olds = [] then c.size else c.oldest + entrylen e) olds =
      if olds = [] then c.size else c.unused
    split
    · simp [*, endOf]
    · exact holds
  · rintro rfl
    rfl

end

/-- The log starts over where no entry of the older stretch is left. -/
theorem wrap_shape {c : UCache} {news : List Entry} (hs : Shape c [] news) (hnews : news ≠ []) :
    Shape (wrap c) news [] ∧ live (wrap c) news [] = live c [] news := by
  have hlive : live (wrap c) news [] = live c [] news := by
    simp [live, wrap, placed]
  have hend : c.oldest = c.unused := hs.olds_end
  have hwriter := hs.writer_le
  have hunused := hs.unused_le
  refine ⟨⟨hs.hsize_pos, hs.hsize_mod, hs.small, Nat.le_refl _, ?_, hs.news_end, rfl,
    fun h => absurd h hnews, ?_, ?_⟩, hlive⟩
  · show c.writer ≤ c.size
    omega
  · rw [hlive]
    exact hs.stored
  · rw [hlive]
    exact hs.linked

/-- What `insert` writes at the position of a new entry. -/
def fillEntry (x : Mem) (w link : Nat) (e : Entry) : Mem :=
  let x := put x w link
  let x := put x (w + 4) e.key.length
  let x := put x (w + 8) e.data.length
  let x := put x (w + 12) e.expire
  let x := write x (w + sizeofEntry) e.key
  write x (w + sizeofEntry + e.key.length) e.data

theorem fillEntry_agree (x : Mem) (w link : Nat) (e : Entry) {a n : Nat}
    (h : Apart w (entrylen e) a n) : Agree (fillEntry x w link e) x a n := by
  have hlen : entrylen e = 16 + e.key.length + e.data.length := rfl
  simp only [fillEntry, sizeofEntry]
  unfold Apart at h
  refine (write_agree _ _ _ ?_).trans ((write_agree _ _ _ ?_).trans ((put_agree _ _ _ ?_).trans
    ((put_agree _ _ _ ?_).trans ((put_agree _ _ _ ?_).trans (put_agree _ _ _ ?_))))) <;>
  · unfold Apart
    omega

theorem fillEntry_spec (x : Mem) (w : Nat) {link : Nat} {e : Entry} (hlink : link < 2 ^ 32)
    (hkey : e.key.length < 2 ^ 32) (hdata : e.data.length < 2 ^ 32) (hexp : e.expire < 2 ^ 32) :
    ByteMemory.get (fillEntry x w link e) w = link ∧ Stored (fillEntry x w link e) w e := by
  have hput : ∀ a, a + 4 ≤ w + 16 → w ≤ a →
      ByteMemory.get (fillEntry x w link e) a = ByteMemory.get (put (put (put (put x w link)
        (w + 4) e.key.length) (w + 8) e.data.length) (w + 12) e.expire) a := by
    intro a hhi hlo
    simp only [fillEntry, sizeofEntry]
    rw [get_write_apart _ _ (by unfold Apart; omega), get_write_apart _ _ (by unfold Apart; omega)]
  refine ⟨?_, ?_, ?_, ?_, ?_, ?_⟩
  · rw [hput w (by omega) (by omega), get_put_apart _ _ (by unfold Apart; omega),
      get_put_apart _ _ (by unfold Apart; omega), get_put_apart _ _ (by unfold Apart; omega),
      get_put_of_lt _ _ hlink]
  · rw [keylen, hput _ (by omega) (by omega), get_put_apart _ _ (by unfold Apart; omega),
      get_put_apart _ _ (by unfold Apart; omega), get_put_of_lt _ _ hkey]
  · rw [datalen, hput _ (by omega) (by omega), get_put_apart _ _ (by unfold Apart; omega),
      get_put_of_lt _ _ hdata]
  · rw [timeExpire, hput _ (by omega) (by omega), get_put_of_lt _ _ hexp]
  · simp only [fillEntry]
    rw [read_write_apart _ _ (by unfold Apart; omega), read_write_same]
  · simp only [fillEntry]
    rw [read_write_same]

/-- The links once the new entry has its place after the head. -/
def relinked (c : UCache) (key : Bytes) : Mem :=
  let index := cacheHash c.hsize key
  let pos := getLink c index
  let x := put c.x index c.writer
  if pos ≠ 0 then replace x pos (index ^^^ c.writer) else x

theorem insert_eq (c : UCache) (now : Nat) (key data : Bytes) (ttl : Nat) :
    insert c now key data ttl =
      { c with
        x := fillEntry (relinked c key) c.writer
          (getLink c (cacheHash c.hsize key) ^^^ cacheHash c.hsize key)
          ⟨key, data, expire c now ttl⟩
        writer := c.writer + entrylen ⟨key, data, expire c now ttl⟩ } :=
  rfl

section
variable {c : UCache} {olds news : List Entry} (hs : Shape c olds news)
include hs

theorem Shape.chain_ne_zero {b p : Nat}
    (hp : p ∈ (bucket c.hsize b (live c olds news)).map Prod.fst) : p ≠ 0 := by
  obtain ⟨q, hq, rfl, -⟩ := mem_bucket hp
  have h₁ := (hs.within hq).1
  have h₂ := hs.hsize_pos
  omega

/-- The old first entry of the bucket, if there is one. -/
theorem Shape.getLink_head {b : Nat} (hb : IsHead c.hsize b) :
    getLink c b = ((bucket c.hsize b (live c olds news)).map Prod.fst).headD 0 :=
  (hs.linked b hb).head_eq

theorem Shape.writer_lt (e : Entry) (hroom : c.writer + entrylen e ≤ c.oldest) :
    c.writer < 2 ^ 32 := by
  have h₁ := hs.oldest_le
  have h₂ := hs.unused_le
  have h₃ := hs.small
  omega

theorem relinked_spec (key : Bytes) (hroom : c.writer < 2 ^ 32) :
    ByteMemory.get (relinked c key) (cacheHash c.hsize key) = c.writer ∧
      (∀ p, ((bucket c.hsize (cacheHash c.hsize key) (live c olds news)).map Prod.fst).head? =
        some p → ByteMemory.get (relinked c key) p =
          cacheHash c.hsize key ^^^ c.writer ^^^ ByteMemory.get c.x p) ∧
      (∀ p, IsItem c olds news p → p ≠ cacheHash c.hsize key →
        ((bucket c.hsize (cacheHash c.hsize key) (live c olds news)).map Prod.fst).head? ≠ some p →
          ByteMemory.get (relinked c key) p = ByteMemory.get c.x p) ∧
      ∀ q ∈ live c olds news, Stored (relinked c key) q.1 q.2 := by
  have hb := cacheHash_isHead hs.hsize_pos hs.hsize_mod key
  have hhead := hs.getLink_head hb
  have hnodup := hs.chain_nodup hb
  have hitem : ∀ p ∈ cacheHash c.hsize key ::
      (bucket c.hsize (cacheHash c.hsize key) (live c olds news)).map Prod.fst,
      IsItem c olds news p := fun p hp => item_of_chain hb hp
  have hnz : ∀ p ∈ (bucket c.hsize (cacheHash c.hsize key) (live c olds news)).map Prod.fst,
      p ≠ 0 := fun p hp => hs.chain_ne_zero hp
  generalize hps : (bucket c.hsize (cacheHash c.hsize key) (live c olds news)).map Prod.fst = ps
    at hhead hnodup hitem hnz ⊢
  have hbi : IsItem c olds news (cacheHash c.hsize key) := Or.inl hb
  have hstored : ∀ q ∈ live c olds news,
      Stored (put c.x (cacheHash c.hsize key) c.writer) q.1 q.2 :=
    fun q hq => hs.stored_put hbi hq (hs.stored q hq)
  cases ps with
  | nil =>
      have hzero : getLink c (cacheHash c.hsize key) = 0 := hhead
      simp only [relinked, hzero, ne_eq, not_true_eq_false, if_false]
      refine ⟨get_put_of_lt c.x _ hroom, by simp, ?_, hstored⟩
      intro p hp hne _
      exact hs.get_put_ne hbi hp (Ne.symm hne)
  | cons p ps =>
      have hfirst : getLink c (cacheHash c.hsize key) = p := hhead
      have hp : p ≠ 0 := hnz p List.mem_cons_self
      have hpi := hitem p (List.mem_cons_of_mem _ List.mem_cons_self)
      have hpb : p ≠ cacheHash c.hsize key := by
        rintro rfl
        exact (List.nodup_cons.mp hnodup).1 List.mem_cons_self
      simp only [relinked, hfirst, ne_eq, hp, not_false_eq_true, if_true, replace]
      refine ⟨?_, ?_, ?_, ?_⟩
      · rw [get_put_apart _ _ (hs.items_apart hpi hbi hpb), get_put_of_lt c.x _ hroom]
      · rintro p' hp'
        obtain rfl : p = p' := Option.some.inj hp'
        rw [hs.get_put_ne hbi hpi (Ne.symm hpb), get_put_of_lt]
        exact Nat.xor_lt_two_pow (Nat.xor_lt_two_pow (hs.item_lt hbi) hroom)
          (ByteMemory.get_lt c.x p)
      · rintro p' hp' hne hhead'
        have hpp' : p ≠ p' := fun h => hhead' (congrArg some h)
        rw [get_put_apart _ _ (hs.items_apart hpi hp' hpp'),
          hs.get_put_ne hbi hp' (Ne.symm hne)]
      · intro q hq
        exact hs.stored_put hpi hq (hstored q hq)

theorem Shape.item_apart_free {e : Entry} {p : Nat} (hp : IsItem c olds news p)
    (hroom : c.writer + entrylen e ≤ c.oldest) : Apart c.writer (entrylen e) p 4 := by
  have hmod := hs.hsize_mod
  have hle := hs.hsize_le
  unfold Apart
  rcases hp with ⟨hlt, hp⟩ | ⟨q, hq, rfl⟩
  · omega
  · have hlen := sizeofEntry_le q.2
    simp only [sizeofEntry] at hlen
    rcases hs.inside hq with h | h <;> omega

theorem live_insert (e : Entry) (c' : UCache) (hold : c'.oldest = c.oldest)
    (hh : c'.hsize = c.hsize) :
    live c' olds (news ++ [e]) = live c olds news ++ [(c.writer, e)] := by
  rw [live, live, hold, hh, placed_append, hs.news_end, List.append_assoc]
  rfl

/-- A new entry in the free space. -/
theorem insert_shape (now ttl : Nat) {key data : Bytes}
    (hroom : c.writer + entrylen ⟨key, data, expire c now ttl⟩ ≤ c.oldest)
    (hexp : expire c now ttl < 2 ^ 32) :
    Shape (insert c now key data ttl) olds (news ++ [⟨key, data, expire c now ttl⟩]) := by
  generalize he : (⟨key, data, expire c now ttl⟩ : Entry) = e at hroom ⊢
  have hkey : e.key = key := by rw [← he]
  have hlen : entrylen e = 16 + e.key.length + e.data.length := rfl
  have hwriter := hs.writer_lt e hroom
  have holdest := hs.oldest_le
  have hunused := hs.unused_le
  have hsmall := hs.small
  have hb := cacheHash_isHead hs.hsize_pos hs.hsize_mod key
  obtain ⟨hhead, hfirst, hrest, hstored⟩ := relinked_spec hs key hwriter
  have hlink : getLink c (cacheHash c.hsize key) ^^^ cacheHash c.hsize key < 2 ^ 32 :=
    Nat.xor_lt_two_pow (ByteMemory.get_lt c.x _) (hs.item_lt (Or.inl hb))
  obtain ⟨hnew, hnewStored⟩ := fillEntry_spec (relinked c key) c.writer hlink
    (show e.key.length < 2 ^ 32 by omega) (show e.data.length < 2 ^ 32 by omega)
    (show e.expire < 2 ^ 32 by rw [← he]; exact hexp)
  have hkeep : ∀ p, IsItem c olds news p →
      ByteMemory.get (insert c now key data ttl).x p = ByteMemory.get (relinked c key) p := by
    intro p hp
    rw [insert_eq, he]
    exact (fillEntry_agree _ _ _ _ (hs.item_apart_free hp hroom)).get_eq
  rw [insert_eq, he] at hkeep ⊢
  have hlive := live_insert hs e (insert c now key data ttl) rfl rfl
  rw [insert_eq, he] at hlive
  refine ⟨hs.hsize_pos, hs.hsize_mod, hs.small, hroom, hs.unused_le, hs.olds_end, ?_, hs.no_olds,
    ?_, ?_⟩
  · show endOf entrylen c.hsize (news ++ [e]) = c.writer + entrylen e
    rw [endOf_append, hs.news_end]
    rfl
  · rw [hlive]
    intro q hq
    rcases List.mem_append.mp hq with hq | hq
    · refine (hstored q hq).congr (fillEntry_agree _ _ _ _ ?_)
      have hq16 := sizeofEntry_le q.2
      simp only [sizeofEntry] at hq16
      unfold Apart
      rcases hs.inside hq with h | h <;> omega
    · obtain rfl := List.mem_singleton.mp hq
      exact hnewStored
  · intro b' hb'
    have hlinked := hs.linked b' hb'
    rw [hlive]
    show Linked _ 0 b' ((bucket c.hsize b' (live c olds news ++ [(c.writer, e)])).map Prod.fst)
    rw [bucket_newest]
    by_cases hsame : cacheHash c.hsize key = b'
    · subst hsame
      have hnodup := hs.chain_nodup hb
      rw [if_pos (by rw [hkey]), List.map_cons]
      refine hlinked.push ?_ hnew ?_ ?_
      · rw [hkeep _ (Or.inl hb), hhead]
      · intro p hp
        have hpi := item_of_chain hb (List.mem_cons_of_mem _ (List.mem_of_head? hp))
        rw [hkeep p hpi, hfirst p hp]
      · intro p hp
        have hpi := item_of_chain hb (List.mem_cons_of_mem _ (List.mem_of_mem_tail hp))
        rw [hkeep p hpi]
        obtain ⟨hnb, hnodup⟩ := List.nodup_cons.mp hnodup
        refine hrest p hpi ?_ ?_
        · rintro rfl
          exact hnb (List.mem_of_mem_tail hp)
        · intro hh
          generalize (bucket c.hsize (cacheHash c.hsize key) (live c olds news)).map Prod.fst = ps
            at hh hp hnodup
          cases ps with
          | nil => cases hp
          | cons p' ps =>
              obtain rfl : p' = p := Option.some.inj hh
              exact (List.nodup_cons.mp hnodup).1 hp
    · rw [if_neg (by rw [hkey]; exact hsame)]
      refine hlinked.congr ?_
      intro p hp
      have hpi := item_of_chain hb' hp
      rw [hkeep p hpi]
      refine hrest p hpi ?_ ?_
      · exact Ne.symm (hs.chains_apart hb hb' hsame List.mem_cons_self hp)
      · intro hh
        exact hs.chains_apart hb hb' hsame (List.mem_cons_of_mem _ (List.mem_of_head? hh)) hp rfl

end

/-- What the calls leave as it is. -/
def SameBase (c c' : UCache) : Prop :=
  c'.size = c.size ∧ c'.hsize = c.hsize ∧ c'.start = c.start

/-- The loop of `add` ends, with the oldest entries dropped. -/
theorem makeRoom_spec {n : Nat} (fuel : Nat) {c : UCache} {olds news : List Entry}
    (hs : Shape c olds news) (hfit : c.hsize + n ≤ c.size)
    (hfuel : (live c olds news).length < fuel) :
    ∃ c' olds' news' gone, makeRoom n fuel c = some c' ∧ Shape c' olds' news' ∧
      live c olds news = gone ++ live c' olds' news' ∧ c'.writer + n ≤ c'.oldest ∧
      SameBase c c' := by
  induction fuel generalizing c olds news with
  | zero => exact absurd hfuel (Nat.not_lt_zero _)
  | succ fuel ih =>
      -- a round that drops an entry, with the rest of the loop
      have hround : ∀ {d : UCache} {e : Entry} {olds₁ news₁ : List Entry},
          Shape d (e :: olds₁) news₁ → live d (e :: olds₁) news₁ = live c olds news →
          SameBase c d → ∃ c' olds' news' gone, makeRoom n fuel (evict d) = some c' ∧
            Shape c' olds' news' ∧ live c olds news = gone ++ live c' olds' news' ∧
            c'.writer + n ≤ c'.oldest ∧ SameBase c c' := by
        rintro d e olds₁ news₁ hd hlive ⟨hsize, hhsize, hstart⟩
        have hdrop := live_evicted d e olds₁ news₁
        rw [hlive] at hdrop
        rw [evict_eq hd]
        obtain ⟨c', olds', news', gone, hroom, hs', hgone, hle, hsize', hhsize', hstart'⟩ :=
          ih (evict_shape hd) (show d.hsize + n ≤ d.size by omega)
            (by rw [hdrop, List.length_cons] at hfuel; omega)
        refine ⟨c', olds', news', (d.oldest, e) :: gone, hroom, hs', ?_, hle, hsize'.trans hsize,
          hhsize'.trans hhsize, hstart'.trans hstart⟩
        rw [hdrop, hgone, List.cons_append]
      rw [makeRoom]
      by_cases hfull : c.writer + n > c.oldest
      swap
      · rw [if_neg hfull]
        exact ⟨c, olds, news, [], rfl, hs, rfl, by omega, rfl, rfl, rfl⟩
      rw [if_pos hfull]
      cases olds with
      | nil =>
          have hend : c.oldest = c.unused := hs.olds_end
          have hsize := hs.no_olds rfl
          have hnews := hs.news_end
          rw [if_pos hend]
          cases news with
          | nil =>
              have hw : c.hsize = c.writer := hnews
              omega
          | cons e news =>
              have hw := length_le_endOf entrylen_pos c.hsize (e :: news)
              rw [hnews, List.length_cons] at hw
              rw [if_neg (by omega)]
              obtain ⟨hwrap, hlive⟩ := wrap_shape hs (List.cons_ne_nil e news)
              exact hround hwrap hlive ⟨rfl, rfl, rfl⟩
      | cons e olds =>
          have hend := length_le_endOf entrylen_pos c.oldest (e :: olds)
          rw [hs.olds_end, List.length_cons] at hend
          rw [if_neg (by omega)]
          exact hround hs rfl ⟨rfl, rfl, rfl⟩

theorem live_length_le {c : UCache} {olds news : List Entry} (hs : Shape c olds news) :
    (live c olds news).length ≤ c.size := by
  have h₁ := length_le_endOf entrylen_pos c.oldest olds
  have h₂ := length_le_endOf entrylen_pos c.hsize news
  have hlen : ∀ a es, (placed entrylen a es).length = es.length := by
    intro a es
    rw [← List.length_map Prod.snd, map_snd_placed]
  rw [hs.olds_end] at h₁
  rw [hs.news_end] at h₂
  have h₃ := hs.writer_le
  have h₄ := hs.unused_le
  rw [live, List.length_append, hlen, hlen]
  omega

theorem expire_lt (c : UCache) (now ttl : Nat) : expire c now ttl < 2 ^ 32 := by
  unfold expire
  split
  · decide
  · exact Nat.mod_lt _ (by decide)

/-- `add` drops the oldest entries and puts the new one behind the newest. -/
theorem add_spec {c : UCache} {olds news : List Entry} (hs : Shape c olds news) (now ttl : Nat)
    {key data : Bytes} (hfit : c.hsize + (sizeofEntry + key.length + data.length) ≤ c.size) :
    ∃ w c' olds' news' gone kept, add c now key data ttl = some (w + sizeofEntry, c') ∧
      Shape c' olds' news' ∧ SameBase c c' ∧ live c olds news = gone ++ kept ∧
      live c' olds' news' = kept ++ [(w, ⟨key, data, expire c now ttl⟩)] := by
  have hfuel := live_length_le hs
  obtain ⟨c₁, olds₁, news₁, gone, hmake, hs₁, hgone, hroom, hsize, hhsize, hstart⟩ :=
    makeRoom_spec (c.size + 1) hs hfit (by omega)
  have hexp : expire c₁ now ttl = expire c now ttl := by
    simp only [expire, getTime, hstart]
  have hshape := insert_shape hs₁ now ttl hroom (expire_lt c₁ now ttl)
  have hlive := live_insert hs₁ ⟨key, data, expire c₁ now ttl⟩ (insert c₁ now key data ttl) rfl rfl
  refine ⟨c₁.writer, insert c₁ now key data ttl, olds₁, _, gone, live c₁ olds₁ news₁, ?_, hshape,
    ⟨hsize, hhsize, hstart⟩, hgone, ?_⟩
  · rw [add, hmake]
    rfl
  · rw [hlive, hexp]

theorem hsizeLoop_spec (size n hsize : Nat) (hmod : hsize % 4 = 0) (hpos : 0 < hsize)
    (hle : hsize ≤ 4 ∨ hsize ≤ 2 * (size / sizeofEntry)) :
    hsizeLoop size n hsize % 4 = 0 ∧ 0 < hsizeLoop size n hsize ∧
      (hsizeLoop size n hsize ≤ 4 ∨ hsizeLoop size n hsize ≤ 2 * (size / sizeofEntry)) := by
  induction n generalizing hsize with
  | zero => exact ⟨hmod, hpos, hle⟩
  | succ n ih =>
      rw [hsizeLoop]
      split
      · exact ih (hsize * 2) (by omega) (by omega) (by omega)
      · exact ⟨hmod, hpos, hle⟩

/-- A new cache holds nothing. -/
theorem create_shape {size : Nat} (hmin : 100 ≤ size) (hmax : size ≤ 10 ^ 9) (now : Nat) :
    Shape (create size now) [] [] := by
  obtain ⟨hmod, hpos, hle⟩ := hsizeLoop_spec (size - sizeofInfo) 32 4 rfl (by decide) (by omega)
  have hroom : getHSize (size - sizeofInfo) ≤ size - sizeofInfo := by
    unfold getHSize
    simp only [sizeofInfo, sizeofEntry] at hle ⊢
    omega
  refine ⟨hpos, hmod, ?_, hroom, Nat.le_refl _, rfl, rfl, fun _ => rfl, by simp [live, placed],
    ?_⟩
  · show size - sizeofInfo < 2 ^ 32
    omega
  · intro b _
    show ByteMemory.get (fun _ => 0) b = 0
    rfl

end ULib.CacheShape
