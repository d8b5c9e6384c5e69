import ULib.CacheLookup
import ULib.CacheStructure
import ULib.CdbText

/-!
The text of a cache, which `operator<<` of `cache.cpp` writes from the oldest
entry to the newest, and which `operator>>` adds to another cache.
-/

namespace ULib.CacheText

open ULib.ByteMemory
open ULib.BlockLayout
open ULib.KeyComparison
open ULib.JsonValue (printNat)
open ULib.EscapeCoding (isDigit)
open ULib.NumberText (cSpace)
open ULib.Cache
open ULib.CacheShape
open ULib.CacheLookup
open ULib.CacheStructure (Call)
open ULib.CdbText (Istream plus lineFeed arrow lengths number_printNat skip_cons char_cons
  bytes_append)

/-- `U_MAX_KEYLEN` -/
def maxKeylen : Nat := 1000

/-! ### operator<< -/

/-- `UCache::print`: the text of the entry at `pos`, and the position behind the entry. -/
def print (c : UCache) (pos : Nat) : Bytes × Nat :=
  let klen := keylen c.x pos
  let dlen := datalen c.x pos
  let pos := pos + sizeofEntry
  let key := read c.x pos klen
  let pos := pos + klen
  let data := read c.x pos dlen
  (lengths klen dlen ++ (key ++ (arrow ++ (data ++ [lineFeed]))), pos + dlen)

/-- One of the two loops of `operator<<`; `none` is a loop that did not end in so many rounds. -/
def printLoop (c : UCache) (finish : Nat) : Nat → Nat → Option Bytes
  | 0, pos => if pos < finish then none else some []
  | fuel + 1, pos =>
      if pos < finish then
        (printLoop c finish fuel (print c pos).2).map fun t => (print c pos).1 ++ t
      else some []

/-- `operator<<` -/
def dump (c : UCache) : Option Bytes :=
  (printLoop c c.unused c.size c.oldest).bind fun olds =>
    (printLoop c c.writer c.size c.hsize).map fun news => olds ++ (news ++ [lineFeed])

/-! ### operator>> -/

/-- `add(key, keylen, datalen, ttl)`, which leaves the bytes of the entry to its caller: their
position. -/
def addEntry (c : UCache) (now : Nat) (key : Bytes) (dlen ttl : Nat) : Option (Nat × UCache) :=
  (makeRoom (sizeofEntry + key.length + dlen) (c.size + 1) c).map fun c =>
    let index := cacheHash c.hsize key
    let pos := getLink c index
    let x := put c.x index c.writer
    let x := if pos ≠ 0 then replace x pos (index ^^^ c.writer) else x
    let x := put x c.writer (pos ^^^ index)
    let x := put x (c.writer + 4) key.length
    let x := put x (c.writer + 8) dlen
    let x := put x (c.writer + 12) (expire c now ttl)
    (c.writer + sizeofEntry,
      { c with x := x, writer := c.writer + (sizeofEntry + key.length + dlen) })

/-- What the loop of `operator>>` keeps, with the array `key`. -/
structure Loading where
  is : Istream
  cache : UCache
  key : Mem
  klen : Nat
  dlen : Nat

/-- The entry behind a `'+'`; a key that is longer than its array is undefined. -/
def loadEntry (now : Nat) (s : Loading) : Option Loading :=
  let (klen, is) := s.is.number s.klen
  let is := is.skip
  let (dlen, is) := is.number s.dlen
  let is := is.skip
  if maxKeylen < klen then none
  else
    let (bytes, is) := is.bytes klen
    let key := write s.key 0 bytes
    (addEntry s.cache now (read key 0 klen) dlen 0).map fun (ptr, c) =>
      let x := write c.x ptr (read key 0 klen)
      let is := is.skip.skip
      let ptr := ptr + klen
      let (bytes, is) := is.bytes dlen
      let x := write x ptr bytes
      ⟨is.skip, { c with x := x }, key, klen, dlen⟩

def loadLoop (now : Nat) : Nat → Loading → Option Loading
  | 0, _ => none
  | fuel + 1, s =>
      match s.is.char with
      | (none, is) => some { s with is }
      | (some c, is) =>
          if c = '#'.toUInt8 then loadLoop now fuel { s with is := is.skipLine }
          else if c ≠ plus then some { s with is }
          else (loadEntry now { s with is }).bind fun s => loadLoop now fuel s

/-- `operator>>` at a time; the variables are not initialised. -/
def load (now : Nat) (c : UCache) (key : Mem) (klen dlen : Nat) (text : Bytes) : Option UCache :=
  (loadLoop now (text.length + 1) ⟨⟨text, true⟩, c, key, klen, dlen⟩).map Loading.cache

/-! ### The text of the entries -/

def entryText (e : Entry) : Bytes :=
  lengths e.key.length e.data.length ++ (e.key ++ (arrow ++ (e.data ++ [lineFeed])))

def text (es : List Entry) : Bytes := es.flatMap entryText

theorem print_stored {c : UCache} {p : Nat} {e : Entry} (h : Stored c.x p e) :
    print c p = (entryText e, p + entrylen e) := by
  simp only [print, h.keylen_eq, h.datalen_eq, h.key_eq, h.data_eq, entryText]
  rw [entrylen, ← Nat.add_assoc, ← Nat.add_assoc]

theorem printLoop_placed {c : UCache} {es : List Entry} {p finish fuel : Nat}
    (h : ∀ q ∈ placed entrylen p es, Stored c.x q.1 q.2) (hend : endOf entrylen p es = finish)
    (hfuel : es.length ≤ fuel) : printLoop c finish fuel p = some (text es) := by
  induction es generalizing p fuel with
  | nil =>
      have hdone : ¬ p < finish := Nat.not_lt.mpr (Nat.le_of_eq hend.symm)
      cases fuel <;> exact if_neg hdone
  | cons e es ih =>
      obtain ⟨fuel, rfl⟩ := Nat.exists_eq_succ_of_ne_zero (Nat.ne_zero_of_lt hfuel)
      have hstored := h (p, e) List.mem_cons_self
      have hlt : p < finish := by
        have hle := le_endOf entrylen (p + entrylen e) es
        have hpos := entrylen_pos e
        rw [endOf] at hend
        omega
      rw [printLoop, if_pos hlt, print_stored hstored,
        ih (fun q hq => h q (List.mem_cons_of_mem _ hq)) hend (Nat.le_of_succ_le_succ hfuel)]
      rfl

/-- The text has the entries in the order of their age. -/
theorem dump_eq {c : UCache} {olds news : List Entry} (hs : Shape c olds news) :
    dump c = some (text (olds ++ news) ++ [lineFeed]) := by
  have hlength := live_length_le hs
  have hcount : ∀ a (es : List Entry), (placed entrylen a es).length = es.length := by
    intro a es
    rw [← List.length_map Prod.snd, map_snd_placed]
  rw [live, List.length_append, hcount, hcount] at hlength
  have holds : printLoop c c.unused c.size c.oldest = some (text olds) :=
    printLoop_placed (fun q hq => hs.stored q (List.mem_append_left _ hq)) hs.olds_end (by omega)
  have hnews : printLoop c c.writer c.size c.hsize = some (text news) :=
    printLoop_placed (fun q hq => hs.stored q (List.mem_append_right _ hq)) hs.news_end (by omega)
  rw [dump, holds, Option.bind_some, hnews, Option.map_some, text, text, text, List.flatMap_append,
    List.append_assoc]

/-! ### Reading the text -/

theorem entryText_append (e : Entry) (rest : Bytes) :
    entryText e ++ rest =
      plus :: (printNat e.key.length ++ ','.toUInt8 :: (printNat e.data.length ++ ':'.toUInt8 ::
        (e.key ++ '-'.toUInt8 :: '>'.toUInt8 :: (e.data ++ lineFeed :: rest)))) := by
  simp only [entryText, lengths, arrow, List.cons_append, List.append_assoc, List.nil_append]

/-- In a cache with room nothing is dropped, and the caller completes the entry. -/
theorem addEntry_eq {c : UCache} (now : Nat) (key data : Bytes)
    (hroom : c.writer + (sizeofEntry + key.length + data.length) ≤ c.oldest) :
    ∃ c', addEntry c now key data.length 0 = some (c.writer + sizeofEntry, c') ∧
      { c' with
        x := write (write c'.x (c.writer + sizeofEntry) key) (c.writer + sizeofEntry + key.length)
          data } = insert c now key data 0 := by
  have hmake : makeRoom (sizeofEntry + key.length + data.length) (c.size + 1) c = some c :=
    if_neg (Nat.not_lt.mpr hroom)
  rw [addEntry, hmake]
  exact ⟨_, rfl, rfl⟩

/-- The bytes of the entry are counted, so that none of them is looked at. -/
theorem loadEntry_text (now : Nat) (c : UCache) (buf : Mem) (klen dlen : Nat) {e : Entry}
    (hkey : e.key.length ≤ maxKeylen) (hdata : e.data.length < 2 ^ 32)
    (hroom : c.writer + entrylen e ≤ c.oldest) (rest : Bytes) :
    loadEntry now ⟨⟨printNat e.key.length ++ ','.toUInt8 :: (printNat e.data.length ++
        ':'.toUInt8 :: (e.key ++ '-'.toUInt8 :: '>'.toUInt8 :: (e.data ++ lineFeed :: rest))),
        true⟩, c, buf, klen, dlen⟩ =
      some ⟨⟨rest, true⟩, insert c now e.key e.data 0, write buf 0 e.key, e.key.length,
        e.data.length⟩ := by
  have hcomma : isDigit ','.toUInt8 = false := rfl
  have hcolon : isDigit ':'.toUInt8 = false := rfl
  have hk : e.key.length < 2 ^ 32 := Nat.lt_of_le_of_lt hkey (by decide)
  obtain ⟨c', hadd, hinsert⟩ := addEntry_eq now e.key e.data hroom
  simp only [loadEntry, number_printNat hk hcomma, number_printNat hdata hcolon, skip_cons,
    bytes_append, if_neg (Nat.not_lt.mpr hkey), read_write_same, hadd, Option.map_some, hinsert]

theorem loadLoop_cons (now k : Nat) (c : UCache) (buf : Mem) (klen dlen : Nat) {e : Entry}
    (hkey : e.key.length ≤ maxKeylen) (hdata : e.data.length < 2 ^ 32)
    (hroom : c.writer + entrylen e ≤ c.oldest) (rest : Bytes) :
    loadLoop now (k + 1) ⟨⟨entryText e ++ rest, true⟩, c, buf, klen, dlen⟩ =
      loadLoop now k ⟨⟨rest, true⟩, insert c now e.key e.data 0, write buf 0 e.key, e.key.length,
        e.data.length⟩ := by
  have hspace : cSpace plus = false := rfl
  have hcomment : plus ≠ '#'.toUInt8 := by decide
  rw [entryText_append, loadLoop]
  simp only [char_cons hspace, if_neg hcomment, ne_eq, not_true_eq_false, if_false]
  rw [loadEntry_text now c buf klen dlen hkey hdata hroom, Option.bind_some]

/-- An entry that does not expire, with a key that is shorter than its array. -/
structure Plain (e : Entry) : Prop where
  expire : e.expire = noTtl
  key : e.key.length < maxKeylen

/-- The loop adds the entries of the text where there is room for all of them, and ends at the line
feed behind them. -/
theorem loadLoop_text (now k : Nat) {c : UCache} {news es : List Entry} (hs : Shape c [] news)
    (buf : Mem) (klen dlen : Nat) (hes : ∀ e ∈ es, Plain e) (hk : es.length < k)
    (hroom : endOf entrylen c.writer es ≤ c.oldest) :
    ∃ s, loadLoop now k ⟨⟨text es ++ [lineFeed], true⟩, c, buf, klen, dlen⟩ = some s ∧
      Shape s.cache [] (news ++ es) ∧ s.cache.size = c.size ∧ s.cache.hsize = c.hsize := by
  induction es generalizing k c news buf klen dlen with
  | nil =>
      obtain ⟨k, rfl⟩ := Nat.exists_eq_succ_of_ne_zero (Nat.ne_zero_of_lt hk)
      refine ⟨⟨Istream.failed, c, buf, klen, dlen⟩, rfl, ?_, rfl, rfl⟩
      rw [List.append_nil]
      exact hs
  | cons e es ih =>
      obtain ⟨k, rfl⟩ := Nat.exists_eq_succ_of_ne_zero (Nat.ne_zero_of_lt hk)
      obtain ⟨hexpire, hkey⟩ := hes e List.mem_cons_self
      have hrest := le_endOf entrylen (c.writer + entrylen e) es
      rw [endOf] at hroom
      have hfits : c.writer + entrylen e ≤ c.oldest := Nat.le_trans hrest hroom
      have hlen : entrylen e = 16 + e.key.length + e.data.length := rfl
      have hdata : e.data.length < 2 ^ 32 := by
        have hsmall := hs.small
        have hunused := hs.unused_le
        have holdest := hs.oldest_le
        omega
      have he : (⟨e.key, e.data, expire c now 0⟩ : Entry) = e := by
        rw [expire, if_pos rfl, ← hexpire]
      have hs' := insert_shape hs now 0 (he.symm ▸ hfits) (expire_lt c now 0)
      rw [he] at hs'
      obtain ⟨s, hloop, hshape, hsame⟩ := ih k hs' (write buf 0 e.key) e.key.length
        e.data.length (fun e' he' => hes e' (List.mem_cons_of_mem e he'))
        (Nat.lt_of_succ_lt_succ hk) hroom
      refine ⟨s, ?_, ?_, hsame⟩
      · rw [text, List.flatMap_cons, List.append_assoc,
          loadLoop_cons now k c buf klen dlen (Nat.le_of_lt hkey) hdata hfits]
        exact hloop
      · rw [List.append_assoc] at hshape
        exact hshape

theorem length_le_text (es : List Entry) : es.length ≤ (text es).length := by
  induction es with
  | nil => exact Nat.zero_le _
  | cons e es ih =>
      rw [text, List.flatMap_cons, ← text, entryText_append]
      simp only [List.length_cons, List.length_append]
      omega

/-! ### Runs of `add` -/

/-- The loop of `add` ends where the entry is no larger than the entry area. -/
theorem makeRoom_fits {n fuel : Nat} {c c' : UCache} {olds news : List Entry}
    (hs : Shape c olds news) (h : makeRoom n fuel c = some c') : c.hsize + n ≤ c.size := by
  induction fuel generalizing c olds news with
  | zero => exact nomatch h
  | succ fuel ih =>
      have hwriter := hs.writer_le
      have hhsize := hs.hsize_le
      have holdest := hs.oldest_le
      have hunused := hs.unused_le
      rw [makeRoom] at h
      split_ifs at h with hfull hend hexhausted
      · -- the log starts over, with an entry to drop
        cases olds with
        | nil =>
            cases news with
            | nil =>
                have hw : c.hsize = c.writer := hs.news_end
                exact absurd (Nat.le_of_eq hw.symm) hexhausted
            | cons e news =>
                obtain ⟨hwrap, -⟩ := wrap_shape hs (List.cons_ne_nil e news)
                rw [evict_eq hwrap] at h
                have hfits := ih (evict_shape hwrap) h
                exact hfits
        | cons e olds =>
            have hlen := length_le_endOf entrylen_pos c.oldest (e :: olds)
            rw [hs.olds_end, List.length_cons] at hlen
            omega
      · cases olds with
        | nil => exact absurd hs.olds_end hend
        | cons e olds =>
            rw [evict_eq hs] at h
            have hfits := ih (evict_shape hs) h
            exact hfits
      · omega

/-- The cache after a run: its entries, and the fields that stay. -/
structure Ran (size : Nat) (c : UCache) (olds news : List Entry) : Prop where
  shape : Shape c olds news
  plain : ∀ e ∈ olds ++ news, Plain e
  size_eq : c.size = size - sizeofInfo
  hsize_eq : c.hsize = getHSize (size - sizeofInfo)

theorem map_snd_live (c : UCache) (olds news : List Entry) :
    (live c olds news).map Prod.snd = olds ++ news := by
  rw [live, List.map_append, map_snd_placed, map_snd_placed]

/-- A step of a run. -/
theorem Ran.step {size : Nat} {c c' : UCache} {olds news : List Entry} (h : Ran size c olds news)
    {i : Call} (httl : i.ttl = 0) (hkey : i.key.length < maxKeylen) {p : Nat}
    (hadd : CacheStructure.step c i = some (p, c')) : ∃ olds' news', Ran size c' olds' news' := by
  obtain ⟨c₁, hroom, -⟩ := Option.map_eq_some_iff.mp hadd
  have hfits := makeRoom_fits h.shape hroom
  obtain ⟨w, c', olds', news', gone, kept, hadd', hs', ⟨hsize, hhsize, -⟩, hlive, hlive'⟩ :=
    add_spec h.shape i.now i.ttl hfits
  obtain ⟨rfl, rfl⟩ := Prod.mk.inj (Option.some.inj (hadd'.symm.trans hadd))
  refine ⟨olds', news', hs', fun e he => ?_, hsize.trans h.size_eq, hhsize.trans h.hsize_eq⟩
  rw [← map_snd_live c', hlive', List.map_append, List.mem_append] at he
  rcases he with he | he
  · refine h.plain e ?_
    rw [← map_snd_live c, hlive, List.map_append]
    exact List.mem_append_right _ he
  · obtain rfl := List.mem_singleton.mp he
    exact ⟨if_pos httl, hkey⟩

theorem Ran.run {size : Nat} {c c' : UCache} {olds news : List Entry} (h : Ran size c olds news)
    {calls : List Call} (hcalls : ∀ i ∈ calls, i.ttl = 0 ∧ i.key.length < maxKeylen)
    (hrun : Runs.run CacheStructure.step c calls = some c') :
    ∃ olds' news', Ran size c' olds' news' := by
  induction calls generalizing c olds news with
  | nil =>
      obtain rfl := Option.some.inj hrun
      exact ⟨olds, news, h⟩
  | cons i calls ih =>
      obtain ⟨⟨p, c₁⟩, hstep, hrest⟩ := Option.bind_eq_some_iff.mp hrun
      obtain ⟨httl, hkey⟩ := hcalls i List.mem_cons_self
      obtain ⟨olds₁, news₁, h₁⟩ := h.step httl hkey hstep
      exact ih h₁ (fun j hj => hcalls j (List.mem_cons_of_mem i hj)) hrest

theorem ran_create {size : Nat} (hmin : 100 ≤ size) (hmax : size ≤ 10 ^ 9) (now : Nat) :
    Ran size (create size now) [] [] :=
  ⟨create_shape hmin hmax now, fun _ he => absurd he List.not_mem_nil, rfl, rfl⟩

/-! ### The same answers -/

/-- The newest entry of a key among the first 101 of its bucket. -/
def newest (hsize : Nat) (key : Bytes) (es : List Entry) : Option Entry :=
  (((es.reverse.filter fun e => cacheHash hsize e.key = cacheHash hsize key).take 101).filter
    fun e => e.expire ≠ 0 ∧ e.key = key).head?

theorem visible_head (hsize : Nat) (key : Bytes) (es : List (Nat × Entry)) :
    (visible hsize key es).head?.map Prod.snd = newest hsize key (es.map Prod.snd) := by
  rw [newest, ← List.map_reverse, List.filter_map, ← List.map_take, List.filter_map, List.head?_map]
  rfl

/-- What `get` returns depends on the entries and their order alone, where none of them expires. -/
theorem get_eq_newest {c : UCache} {olds news : List Entry} (hs : Shape c olds news)
    (hplain : ∀ e ∈ olds ++ news, e.expire = noTtl) (now : Nat) (key : Bytes) :
    (Cache.get c now key).1.map Prod.snd =
      (newest c.hsize key (olds ++ news)).map Entry.data := by
  rw [← map_snd_live c, ← visible_head, get_spec hs]
  cases hhead : (visible c.hsize key (live c olds news)).head? with
  | none => rfl
  | some q =>
      have hmem := (visible_subset (List.mem_of_mem_head? hhead)).1
      have hexpire := hplain q.2 (map_snd_live c olds news ▸ List.mem_map_of_mem hmem)
      have hlive : ¬ Expired c now q.2.expire := fun hexpired => hexpired.1 hexpire
      rw [answer, if_neg hlive]
      rfl

theorem Ran.get_eq {size : Nat} {c : UCache} {olds news : List Entry} (h : Ran size c olds news)
    (now : Nat) (key : Bytes) :
    (Cache.get c now key).1.map Prod.snd =
      (newest (getHSize (size - sizeofInfo)) key (olds ++ news)).map Entry.data := by
  rw [get_eq_newest h.shape (fun e he => (h.plain e he).expire), h.hsize_eq]

/-- A cache that was filled without times is written and read into a new one of its size, and both
give the same answers. -/
theorem load_dump {size : Nat} (hmin : 100 ≤ size) (hmax : size ≤ 10 ^ 9) (start : Nat)
    {calls : List Call} (hcalls : ∀ i ∈ calls, i.ttl = 0 ∧ i.key.length < maxKeylen) {c : UCache}
    (hrun : Runs.run CacheStructure.step (create size start) calls = some c) (start' now : Nat)
    (key : Mem) (klen dlen : Nat) :
    ∃ t c', dump c = some t ∧ load now (create size start') key klen dlen t = some c' ∧
      ∀ k time time', (Cache.get c' time' k).1.map Prod.snd =
        (Cache.get c time k).1.map Prod.snd := by
  obtain ⟨olds, news, h⟩ := (ran_create hmin hmax start).run hcalls hrun
  have hnew := ran_create hmin hmax start'
  have hroom : endOf entrylen (create size start').writer (olds ++ news) ≤
      (create size start').oldest := by
    have holds := h.shape.olds_end
    have hnews := h.shape.news_end
    have hwriter := h.shape.writer_le
    have hunused := h.shape.unused_le
    have hhsize := h.hsize_eq
    have hsize := h.size_eq
    rw [endOf_eq_sum] at holds hnews ⊢
    rw [List.map_append, List.sum_append]
    show getHSize (size - sizeofInfo) + _ ≤ size - sizeofInfo
    omega
  have hlength : (olds ++ news).length < (text (olds ++ news) ++ [lineFeed]).length + 1 := by
    have hle := length_le_text (olds ++ news)
    have happend : (text (olds ++ news) ++ [lineFeed]).length = (text (olds ++ news)).length + 1 :=
      List.length_append
    omega
  obtain ⟨s, hloop, hshape, hsize, hhsize⟩ := loadLoop_text now _ hnew.shape key klen dlen h.plain
    hlength hroom
  refine ⟨_, s.cache, dump_eq h.shape, by rw [load, hloop]; rfl, fun k time time' => ?_⟩
  have hloaded : Ran size s.cache [] (olds ++ news) := ⟨hshape, h.plain, hsize, hhsize⟩
  rw [h.get_eq, hloaded.get_eq]
  rfl

/-- Three entries in the eighty bytes of the smallest cache, of which the third drops the first. -/
theorem load_dump_smallest :
    ∃ c t c', Runs.run CacheStructure.step (create 100 0) [⟨0, [97], [1], 0⟩, ⟨0, [98], [2], 0⟩,
        ⟨0, [97], List.replicate 40 3, 0⟩] = some c ∧
      dump c = some t ∧ load 5 (create 100 7) (fun _ => 0) 0 0 t = some c' ∧
      ∀ k time time', (Cache.get c' time' k).1.map Prod.snd =
        (Cache.get c time k).1.map Prod.snd := by
  have hsome : (Runs.run CacheStructure.step (create 100 0) [⟨0, [97], [1], 0⟩,
      ⟨0, [98], [2], 0⟩, ⟨0, [97], List.replicate 40 3, 0⟩]).isSome = true := by
    decide
  obtain ⟨c, hrun⟩ := Option.isSome_iff_exists.mp hsome
  obtain ⟨t, c', hdump, hload, hget⟩ := load_dump (by decide) (by decide) 0 (by decide) hrun 7 5
    (fun _ => 0) 0 0
  exact ⟨c, t, c', hrun, hdump, hload, hget⟩

end ULib.CacheText
