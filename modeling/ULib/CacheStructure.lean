import ULib.CacheShape
import ULib.Runs

/-!
Runs of `add`: the layout of `cache.h` holds after every call.
-/

namespace ULib.CacheStructure

open ULib.ByteMemory
open ULib.BlockLayout
open ULib.KeyComparison
open ULib.XorLinkedList
open ULib.Cache
open ULib.CacheShape
open ULib.Runs

/-- A call of `add` at a time. -/
structure Call where
  now : Nat
  key : Bytes
  data : Bytes
  ttl : Nat

def step (c : UCache) (i : Call) : Option (Nat × UCache) := add c i.now i.key i.data i.ttl

/-- The entry of the call is no larger than the entry area. -/
def Fits (c : UCache) (i : Call) : Prop :=
  c.hsize + (sizeofEntry + i.key.length + i.data.length) ≤ c.size

instance (c : UCache) (i : Call) : Decidable (Fits c i) := inferInstanceAs (Decidable (_ ≤ _))

/-- What is reached from the head link of a bucket. -/
def chain (c : UCache) (b : Nat) : List Nat := follow c.x c.size b (getLink c b)

/-- An entry lies in one of the two stretches. -/
def Inside (c : UCache) (q : Nat × Entry) : Prop :=
  (c.hsize ≤ q.1 ∧ q.1 + entrylen q.2 ≤ c.writer) ∨
    (c.oldest ≤ q.1 ∧ q.1 + entrylen q.2 ≤ c.unused)

/-- The entries added so far, from the oldest on, are those that were dropped and
those that `es` has in the cache. -/
structure Holds (c : UCache) (added : List (Bytes × Bytes)) (es : List (Nat × Entry)) :
    Prop where
  kept : ∃ gone, added = gone ++ es.map fun q => (q.2.key, q.2.data)
  stored : ∀ q ∈ es, Stored c.x q.1 q.2
  inside : ∀ q ∈ es, Inside c q
  disjoint : es.Pairwise (BlockLayout.Disjoint entrylen)
  chained : ∀ b, IsHead c.hsize b → chain c b = (bucket c.hsize b es).map Prod.fst

def Structured (c : UCache) (added : List (Bytes × Bytes)) : Prop :=
  (c.hsize ≤ c.writer ∧ c.writer ≤ c.oldest ∧ c.oldest ≤ c.unused ∧ c.unused ≤ c.size) ∧
    ∃ es, Holds c added es

theorem chain_eq {c : UCache} {olds news : List Entry} (hs : Shape c olds news) {b : Nat}
    (hb : IsHead c.hsize b) :
    chain c b = (bucket c.hsize b (live c olds news)).map Prod.fst := by
  have hwalk := follow_head (hs.linked b hb) (fun p hp => hs.chain_ne_zero hp) c.size
  have hlen : ((bucket c.hsize b (live c olds news)).map Prod.fst).length ≤ c.size := by
    rw [List.length_map]
    calc
      _ ≤ (live c olds news).reverse.length := List.length_filter_le _ _
      _ = (live c olds news).length := List.length_reverse
      _ ≤ c.size := live_length_le hs
  rwa [List.take_of_length_le hlen] at hwalk

theorem structured_of_shape {c : UCache} {olds news : List Entry} {added gone}
    (hs : Shape c olds news)
    (hadded : added = gone ++ (live c olds news).map fun q => (q.2.key, q.2.data)) :
    Structured c added := by
  refine ⟨⟨hs.hsize_le, hs.writer_le, hs.oldest_le, hs.unused_le⟩, live c olds news, ?_⟩
  exact
    { kept := ⟨gone, hadded⟩
      stored := hs.stored
      inside := fun q hq => hs.inside hq
      disjoint := hs.disjoint
      chained := fun b hb => chain_eq hs hb }

end ULib.CacheStructure
