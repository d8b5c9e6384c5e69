import ULib.CacheText

/-!
`UCache::open` with a directory: the paths of the listing are collected in one
vector and the contents of its files in another, the size of the cache is
computed from them, and the contents are added under the base names.
-/

namespace ULib.CacheTemplate

open ULib.ByteMemory
open ULib.BlockLayout
open ULib.KeyComparison
open ULib.Cache
open ULib.CacheShape
open ULib.CacheStructure (Call step)
open ULib.CacheText (newest get_eq_newest)

/-! ### The code -/

def rfindLoop (s : Bytes) (c : UInt8) : Nat → Option Nat
  | 0 => none
  | xpos + 1 => if s[xpos]? = some c then some xpos else rfindLoop s c xpos

/-- `UString::rfind` of a byte. -/
def rfind (s : Bytes) (c : UInt8) : Option Nat := rfindLoop s c s.length

/-- `UStringExt::basename` -/
def basename (s : Bytes) : Bytes :=
  match rfind s '/'.toUInt8 with
  | none => s
  | some pos => s.drop (pos + 1)

/-- `UStringExt::getBaseNameLen` -/
def getBaseNameLen (s : Bytes) : Nat :=
  match rfind s '/'.toUInt8 with
  | none => s.length
  | some pos => s.length - (pos + 1)

/-- A path of the listing, and what the file holds. -/
structure File where
  path : Bytes
  content : Bytes

/-- `vec2` and `size`. -/
structure Collected where
  vec2 : List Bytes
  size : Nat

/-- A round of the loop over the listing; a file without content is passed over. -/
def collectItem (s : Collected) (item : File) : Collected :=
  if item.content = [] then s
  else
    ⟨s.vec2 ++ [item.content],
      s.size + (sizeofEntry + getBaseNameLen item.path + item.content.length + 1)⟩

def collect (files : List File) : Collected := files.foldl collectItem ⟨[], 0⟩

/-- The size of the hash table for contents of so many bytes. -/
def tableSize (size : Nat) : Nat :=
  getHSize (size + sizeofInfo + getHSize (size + sizeofInfo))

/-- The size to which the file is cut. -/
def cacheSize (files : List File) : Nat :=
  (collect files).size + sizeofInfo + tableSize (collect files).size

/-- `init` of a file that holds the bytes `old`: a new file holds zeros. -/
def initTemplate (old : Mem) (size now : Nat) : UCache := { create size now with x := old }

/-- The calls of `addContent`: the paths are those of all files. -/
def contentCalls (files : List File) (now : Nat) : List Call :=
  ((files.map File.path).zip (collect files).vec2).map fun r => ⟨now, basename r.1, r.2 ++ [0], 0⟩

/-- `open(path, dir_template)` where it builds the cache. -/
def openTemplate (old : Mem) (files : List File) (now : Nat) : Option UCache :=
  Runs.run step (initTemplate old (cacheSize files) now) (contentCalls files now)

/-- `getContent`; a key that is not found is undefined. -/
def getContent (c : UCache) (now : Nat) (key : Bytes) : Option Bytes :=
  (Cache.get c now key).1.map fun r => r.2.take (r.2.length - 1)

/-! ### What the cache is for -/

/-- The loop of `add` has nothing to drop. -/
def HasRoom (c : UCache) (i : Call) : Prop :=
  c.writer + (sizeofEntry + i.key.length + i.data.length) ≤ c.oldest

instance (c : UCache) (i : Call) : Decidable (HasRoom c i) := inferInstanceAs (Decidable (_ ≤ _))

/-- Every file with content is found under its name, and a name has the content of its file. -/
structure Serves (files : List File) (c : UCache) : Prop where
  found : ∀ f ∈ files, f.content ≠ [] → ∀ now,
    getContent c now (basename f.path) = some f.content
  own : ∀ now key content, getContent c now key = some content →
    ∃ f ∈ files, basename f.path = key ∧ f.content = content

/-- The cache is built without dropping an entry, is full, and serves the files. -/
def Fills (old : Mem) (files : List File) (now : Nat) : Prop :=
  Runs.StepsMeet step HasRoom (initTemplate old (cacheSize files) now) (contentCalls files now) ∧
    ∃ c, openTemplate old files now = some c ∧ c.writer = c.size ∧ Serves files c

/-- The sizes of contents for which `init` takes the size of the hash table that `open` took. -/
def Settled (size : Nat) : Prop :=
  ¬ (40 ≤ size ∧ size < 56) ∧ ¬ (100 ≤ size ∧ size < 112) ∧ ¬ (220 ≤ size ∧ size < 224)

instance (size : Nat) : Decidable (Settled size) := inferInstanceAs (Decidable (_ ∧ _ ∧ _))

/-- The files with content. -/
def filled (files : List File) : List File := files.filter fun f => f.content ≠ []

def contentSize (files : List File) : Nat :=
  ((filled files).map fun f =>
    sizeofEntry + (basename f.path).length + (f.content.length + 1)).sum

/-- The listing has its empty files behind the others, a size of contents for which the table is
settled, and no more names in a bucket than `get` looks at. -/
structure Regular (files : List File) : Prop where
  order : files.Pairwise fun f g => f.content = [] → g.content = []
  settled : Settled (contentSize files)
  buckets : ∀ b, ((filled files).filter fun f =>
    cacheHash (tableSize (contentSize files)) (basename f.path) = b).length ≤ 101

/-! ### The vectors -/

theorem getBaseNameLen_eq (s : Bytes) : getBaseNameLen s = (basename s).length := by
  unfold getBaseNameLen basename
  split <;> simp only [List.length_drop]

theorem filled_cons_empty {f : File} (h : f.content = []) (files : List File) :
    filled (f :: files) = filled files :=
  List.filter_cons_of_neg (by simpa using h)

theorem filled_cons_content {f : File} (h : f.content ≠ []) (files : List File) :
    filled (f :: files) = f :: filled files :=
  List.filter_cons_of_pos (by simpa using h)

theorem mem_filled {f : File} {files : List File} :
    f ∈ filled files ↔ f ∈ files ∧ f.content ≠ [] := by
  rw [filled, List.mem_filter, decide_eq_true_iff]

theorem collect_eq (files : List File) :
    collect files = ⟨(filled files).map File.content, contentSize files⟩ := by
  have hloop : ∀ s : Collected, files.foldl collectItem s =
      ⟨s.vec2 ++ (filled files).map File.content, s.size + contentSize files⟩ := by
    induction files with
    | nil => exact fun s => by simp only [filled, contentSize]; simp
    | cons f files ih =>
        intro s
        rw [List.foldl_cons, ih, collectItem]
        by_cases hf : f.content = []
        · rw [if_pos hf, contentSize, contentSize, filled_cons_empty hf]
        · rw [if_neg hf, contentSize, contentSize, filled_cons_content hf, getBaseNameLen_eq]
          simp only [List.map_cons, List.sum_cons, List.append_assoc, List.singleton_append,
            Nat.add_assoc]
  rw [collect, hloop]
  simp only [List.nil_append, Nat.zero_add]

/-- The names under which the contents are added. -/
def bound (files : List File) : List (Bytes × Bytes) :=
  (files.map fun f => basename f.path).zip ((filled files).map File.content)

def entry (r : Bytes × Bytes) : Entry := ⟨r.1, r.2 ++ [0], noTtl⟩

theorem contentCalls_eq (files : List File) (now : Nat) :
    contentCalls files now = (bound files).map fun r => ⟨now, r.1, r.2 ++ [0], 0⟩ := by
  have hnames : (files.map fun f => basename f.path) = (files.map File.path).map basename := by
    rw [List.map_map]
    rfl
  rw [contentCalls, collect_eq, bound, hnames, List.zip_map_left (f := basename), List.map_map]
  rfl

/-- Where the empty files are last, every content is added under the name of its file. -/
theorem bound_eq {files : List File}
    (h : files.Pairwise fun f g => f.content = [] → g.content = []) :
    bound files = (filled files).map fun f => (basename f.path, f.content) := by
  induction files with
  | nil => rfl
  | cons f files ih =>
      obtain ⟨hf, hrest⟩ := List.pairwise_cons.mp h
      by_cases hempty : f.content = []
      · have hnone : filled (f :: files) = [] := by
          apply List.eq_nil_iff_forall_not_mem.mpr
          intro g hg
          obtain ⟨hmem, hcontent⟩ := mem_filled.mp hg
          rcases List.mem_cons.mp hmem with rfl | hmem
          · exact hcontent hempty
          · exact hcontent (hf g hmem hempty)
        rw [bound, hnone, List.map_nil, List.zip_nil_right, List.map_nil]
      · rw [bound, filled_cons_content hempty, List.map_cons, List.map_cons, List.zip_cons_cons,
          ← bound, ih hrest, List.map_cons]

/-- The names of the files with content are bound only where the empty files are last. -/
theorem order_of_bound {files : List File} (hnames : (files.map fun f => basename f.path).Nodup)
    (h : ∀ f ∈ files, f.content ≠ [] → basename f.path ∈ (bound files).map Prod.fst) :
    files.Pairwise fun f g => f.content = [] → g.content = [] := by
  induction files with
  | nil => exact List.Pairwise.nil
  | cons f files ih =>
      rw [List.map_cons, List.nodup_cons] at hnames
      by_cases hempty : f.content = []
      · -- the name of the empty file takes a content, so that another name is left without one
        have hskip := filled_cons_empty hempty files
        have hnone : filled files = [] := by
          by_contra hsome
          obtain ⟨g, gs, hgs⟩ := List.exists_cons_of_ne_nil hsome
          have hkeys : (bound (f :: files)).map Prod.fst =
              basename f.path :: ((files.map fun f => basename f.path).zip
                (gs.map File.content)).map Prod.fst := by
            rw [bound, hskip, hgs, List.map_cons, List.map_cons, List.zip_cons_cons,
              List.map_cons]
          have hsub : (basename f.path :: (filled files).map fun f => basename f.path) ⊆
              (bound (f :: files)).map Prod.fst := by
            intro key hkey
            rcases List.mem_cons.mp hkey with rfl | hkey
            · rw [hkeys]
              exact List.mem_cons_self
            · obtain ⟨g', hg', rfl⟩ := List.mem_map.mp hkey
              obtain ⟨hmem, hcontent⟩ := mem_filled.mp hg'
              exact h g' (List.mem_cons_of_mem f hmem) hcontent
          have hsublist : ((filled files).map fun f => basename f.path).Sublist
              (files.map fun f => basename f.path) := List.filter_sublist.map _
          have hnodup := List.nodup_cons.mpr
            ⟨fun hmem => hnames.1 (hsublist.subset hmem), hnames.2.sublist hsublist⟩
          have hle := (hnodup.subperm hsub).length_le
          rw [List.length_cons, List.length_map, List.length_map, bound, List.length_zip, hskip,
            List.length_map, List.length_map] at hle
          omega
        have hall : ∀ g ∈ files, g.content = [] := by
          intro g hg
          by_contra hcontent
          exact absurd (mem_filled.mpr ⟨hg, hcontent⟩) (hnone ▸ List.not_mem_nil)
        refine List.pairwise_cons.mpr ⟨fun g hg _ => hall g hg, ?_⟩
        exact List.pairwise_of_forall_mem_list fun _ _ g hg _ => hall g hg
      · have hcons := filled_cons_content hempty files
        refine List.pairwise_cons.mpr ⟨fun g _ hf => absurd hf hempty, ih hnames.2 ?_⟩
        intro g hg hcontent
        have hmem := h g (List.mem_cons_of_mem f hg) hcontent
        rw [bound, hcons, List.map_cons, List.map_cons, List.zip_cons_cons, List.map_cons] at hmem
        rcases List.mem_cons.mp hmem with heq | hmem
        · exact absurd (List.mem_map_of_mem (f := fun f => basename f.path) hg) (heq ▸ hnames.1)
        · exact hmem

/-! ### The size of the hash table -/

theorem hsizeLoop_pow (size n hsize : Nat) (h : size / sizeofEntry < hsize * 2 ^ n) :
    size / sizeofEntry < hsizeLoop size n hsize ∧ ∃ k, hsizeLoop size n hsize = hsize * 2 ^ k := by
  induction n generalizing hsize with
  | zero => exact ⟨by rwa [Nat.pow_zero, Nat.mul_one] at h, 0, (Nat.mul_one hsize).symm⟩
  | succ n ih =>
      rw [hsizeLoop]
      split_ifs with hle
      · rw [Nat.pow_succ', ← Nat.mul_assoc] at h
        obtain ⟨hlt, k, hk⟩ := ih _ h
        exact ⟨hlt, k + 1, by rw [hk, Nat.pow_succ', Nat.mul_assoc]⟩
      · exact ⟨by omega, 0, by rw [Nat.pow_zero, Nat.mul_one]⟩

/-- A power of two, the smallest of those from four on that are greater than a sixteenth. -/
theorem getHSize_spec {size : Nat} (h : size < 2 ^ 32) :
    size < 16 * getHSize size ∧ (getHSize size ≤ 4 ∨ 8 * getHSize size ≤ size) ∧
      ∃ k, getHSize size = 4 * 2 ^ k := by
  have hfuel : size / sizeofEntry < 4 * 2 ^ 32 := by
    simp only [sizeofEntry]
    omega
  obtain ⟨hlt, hpow⟩ := hsizeLoop_pow size 32 4 hfuel
  obtain ⟨-, -, hle⟩ := hsizeLoop_spec size 32 4 rfl (by decide) (Or.inl le_rfl)
  simp only [sizeofEntry] at hlt hle
  unfold getHSize
  exact ⟨by omega, by omega, hpow⟩

/-- Of two powers one is the other, or no greater than half of it. -/
theorem pow_eq_or_le {a b i j : Nat} (ha : a = 4 * 2 ^ i) (hb : b = 4 * 2 ^ j) :
    a = b ∨ 2 * a ≤ b ∨ 2 * b ≤ a := by
  rcases Nat.lt_trichotomy i j with h | h | h
  · have hle := Nat.pow_le_pow_right Nat.two_pos (Nat.succ_le_of_lt h)
    rw [Nat.pow_succ] at hle
    omega
  · left
    rw [ha, hb, h]
  · have hle := Nat.pow_le_pow_right Nat.two_pos (Nat.succ_le_of_lt h)
    rw [Nat.pow_succ] at hle
    omega

theorem small_table : ∀ size < 512, getHSize (size + tableSize size) ≤ tableSize size ∧
    (getHSize (size + tableSize size) = tableSize size ↔ Settled size) := by
  decide +kernel

/-- `init` takes no greater table than `open`, and the same one for a settled size. -/
theorem table_spec {size : Nat} (h : size + sizeofInfo + tableSize size ≤ 10 ^ 9) :
    getHSize (size + tableSize size) ≤ tableSize size ∧
      (getHSize (size + tableSize size) = tableSize size ↔ Settled size) := by
  by_cases hsmall : size < 512
  · exact small_table size hsmall
  · have hsettled : Settled size := by
      unfold Settled
      omega
    suffices heq : getHSize (size + tableSize size) = tableSize size from
      ⟨Nat.le_of_eq heq, iff_of_true heq hsettled⟩
    have h20 : sizeofInfo = 20 := rfl
    obtain ⟨hlt, hle, i, hi⟩ := getHSize_spec (show size + sizeofInfo < 2 ^ 32 by omega)
    obtain ⟨hlt', hle', j, hj⟩ := getHSize_spec
      (show size + sizeofInfo + getHSize (size + sizeofInfo) < 2 ^ 32 by omega)
    obtain ⟨hlt'', hle'', k, hk⟩ := getHSize_spec (show size + tableSize size < 2 ^ 32 by omega)
    rw [tableSize] at hk hlt'' hle'' ⊢
    have hfirst := pow_eq_or_le hi hj
    have hsecond := pow_eq_or_le hk hj
    omega

/-! ### The run -/

variable {c : UCache} {news : List Entry}

/-- A call that finds room puts its entry behind the others. -/
theorem add_room (hs : Shape c [] news) {r : Bytes × Bytes} (now : Nat)
    (hroom : HasRoom c ⟨now, r.1, r.2 ++ [0], 0⟩) :
    ∃ p c', step c ⟨now, r.1, r.2 ++ [0], 0⟩ = some (p, c') ∧
      Shape c' [] (news ++ [entry r]) ∧ c'.size = c.size ∧ c'.hsize = c.hsize := by
  have hmake : makeRoom (sizeofEntry + r.1.length + (r.2 ++ [0]).length) (c.size + 1) c = some c :=
    if_neg (Nat.not_lt.mpr hroom)
  refine ⟨c.writer + sizeofEntry, insert c now r.1 (r.2 ++ [0]) 0, ?_, ?_, rfl, rfl⟩
  · rw [CacheStructure.step, add, hmake]
    rfl
  · exact insert_shape hs now 0 hroom (expire_lt c now 0)

/-- Calls that all find room. -/
theorem run_room (hs : Shape c [] news) (now : Nat) {rs : List (Bytes × Bytes)}
    (hroom : Runs.StepsMeet step HasRoom c (rs.map fun r => ⟨now, r.1, r.2 ++ [0], 0⟩)) :
    ∃ c', Runs.run step c (rs.map fun r => ⟨now, r.1, r.2 ++ [0], 0⟩) = some c' ∧
      Shape c' [] (news ++ rs.map entry) ∧ c'.size = c.size ∧ c'.hsize = c.hsize := by
  induction rs generalizing c news with
  | nil => exact ⟨c, rfl, by rwa [List.map_nil, List.append_nil], rfl, rfl⟩
  | cons r rs ih =>
      obtain ⟨hfirst, hrest⟩ := hroom
      obtain ⟨p, c₁, hstep, hs₁, hsize₁, hhsize₁⟩ := add_room hs now hfirst
      obtain ⟨c', hrun, hs', hsize, hhsize⟩ := ih hs₁ (hrest p c₁ hstep)
      refine ⟨c', ?_, ?_, hsize.trans hsize₁, hhsize.trans hhsize₁⟩
      · rw [List.map_cons, Runs.run, hstep, Option.bind_some]
        exact hrun
      · rwa [List.append_assoc, List.singleton_append, ← List.map_cons] at hs'

theorem stepsMeet_room (hs : Shape c [] news) (now : Nat) {rs : List (Bytes × Bytes)}
    (hroom : c.writer + ((rs.map entry).map entrylen).sum ≤ c.size) :
    Runs.StepsMeet step HasRoom c (rs.map fun r => ⟨now, r.1, r.2 ++ [0], 0⟩) := by
  induction rs generalizing c news with
  | nil => trivial
  | cons r rs ih =>
      have hunused : c.oldest = c.unused := hs.olds_end
      have hend := hs.no_olds rfl
      rw [List.map_cons, List.map_cons, List.sum_cons] at hroom
      have hlen : entrylen (entry r) = sizeofEntry + r.1.length + (r.2 ++ [0]).length := rfl
      have hfirst : HasRoom c ⟨now, r.1, r.2 ++ [0], 0⟩ := by
        show c.writer + (sizeofEntry + r.1.length + (r.2 ++ [0]).length) ≤ c.oldest
        omega
      refine ⟨hfirst, fun p c' hstep => ?_⟩
      obtain ⟨p₁, c₁, hstep₁, hs₁, hsize₁, hhsize₁⟩ := add_room hs now hfirst
      obtain ⟨-, rfl⟩ := Prod.mk.inj (Option.some.inj (hstep₁.symm.trans hstep))
      have hnews := hs.news_end
      have hnews₁ := hs₁.news_end
      rw [endOf_eq_sum] at hnews hnews₁
      rw [List.map_append, List.sum_append, List.map_singleton, List.sum_singleton] at hnews₁
      exact ih hs₁ (by omega)

/-! ### The answers -/

/-- The entries that `get` looks at. -/
def seen (hsize : Nat) (rs : List (Bytes × Bytes)) (key : Bytes) : List (Bytes × Bytes) :=
  (rs.reverse.filter fun r => cacheHash hsize r.1 = cacheHash hsize key).take 101

def lookup (hsize : Nat) (rs : List (Bytes × Bytes)) (key : Bytes) : Option (Bytes × Bytes) :=
  (seen hsize rs key).find? fun r => r.1 = key

theorem newest_entries (hsize : Nat) (rs : List (Bytes × Bytes)) (key : Bytes) :
    newest hsize key (rs.map entry) = (lookup hsize rs key).map entry := by
  have hexpire : (fun r : Bytes × Bytes => decide ((entry r).expire ≠ 0 ∧ (entry r).key = key)) =
      fun r => decide (r.1 = key) := by
    funext r
    exact decide_eq_decide.mpr ⟨And.right, fun h => ⟨show noTtl ≠ 0 by decide, h⟩⟩
  rw [newest, ← List.map_reverse, List.filter_map, ← List.map_take, List.filter_map,
    List.head?_map, List.head?_filter]
  exact congrArg (fun p => (List.find? p (seen hsize rs key)).map entry) hexpire

theorem getContent_eq {rs : List (Bytes × Bytes)} (hs : Shape c [] (rs.map entry)) (now : Nat)
    (key : Bytes) : getContent c now key = (lookup c.hsize rs key).map Prod.snd := by
  have hplain : ∀ e ∈ [] ++ rs.map entry, e.expire = noTtl := by
    intro e he
    obtain ⟨r, -, rfl⟩ := List.mem_map.mp he
    rfl
  have hget := get_eq_newest hs hplain now key
  rw [List.nil_append, newest_entries, Option.map_map] at hget
  calc
    getContent c now key =
        ((Cache.get c now key).1.map Prod.snd).map fun d => d.take (d.length - 1) := by
      rw [getContent, Option.map_map]
      rfl
    _ = (lookup c.hsize rs key).map Prod.snd := by
      rw [hget, Option.map_map]
      congr 1
      funext r
      show (r.2 ++ [0]).take ((r.2 ++ [0]).length - 1) = r.2
      rw [List.length_append, List.length_singleton, Nat.add_sub_cancel, List.take_left]

section

variable {hsize : Nat} {rs : List (Bytes × Bytes)}

theorem lookup_some {key : Bytes} {r : Bytes × Bytes} (h : lookup hsize rs key = some r) :
    r ∈ seen hsize rs key ∧ r.1 = key :=
  ⟨List.mem_of_find?_eq_some h, by simpa using List.find?_some h⟩

theorem seen_subset (key : Bytes) {r : Bytes × Bytes} (h : r ∈ seen hsize rs key) : r ∈ rs :=
  List.mem_reverse.mp (List.mem_filter.mp (List.mem_of_mem_take h)).1

/-- A pair is found under its name if it is among those that are looked at. -/
theorem lookup_of_seen (hkeys : (rs.map Prod.fst).Nodup) {r : Bytes × Bytes}
    (h : r ∈ seen hsize rs r.1) : lookup hsize rs r.1 = some r := by
  cases hlookup : lookup hsize rs r.1 with
  | none => exact absurd (List.find?_eq_none.mp hlookup r h) (by simp)
  | some r' =>
      obtain ⟨hseen, hkey⟩ := lookup_some hlookup
      rw [List.inj_on_of_nodup_map hkeys (seen_subset _ hseen) (seen_subset _ h) hkey]

/-- Every name is found if and only if no bucket has more entries than are looked at. -/
theorem lookup_all_iff (hkeys : (rs.map Prod.fst).Nodup) :
    (∀ r ∈ rs, (lookup hsize rs r.1).isSome) ↔
      ∀ b, (rs.filter fun r => cacheHash hsize r.1 = b).length ≤ 101 := by
  have hseen : ∀ key, seen hsize rs key =
      ((rs.filter fun r => cacheHash hsize r.1 = cacheHash hsize key).reverse).take 101 := by
    intro key
    rw [seen, List.filter_reverse]
  constructor
  · intro h b
    have hnodup := hkeys.sublist ((List.filter_sublist (p := fun r : Bytes × Bytes =>
      decide (cacheHash hsize r.1 = b))).map Prod.fst)
    have hsub : (rs.filter fun r => cacheHash hsize r.1 = b).map Prod.fst ⊆
        (((rs.filter fun r => cacheHash hsize r.1 = b).reverse).take 101).map Prod.fst := by
      intro key hkey
      obtain ⟨r, hr, rfl⟩ := List.mem_map.mp hkey
      obtain ⟨hmem, hbucket⟩ := List.mem_filter.mp hr
      obtain ⟨r', hlookup⟩ := Option.isSome_iff_exists.mp (h r hmem)
      obtain ⟨hr', hkey'⟩ := lookup_some hlookup
      rw [hseen, of_decide_eq_true hbucket] at hr'
      exact hkey' ▸ List.mem_map_of_mem hr'
    have hle := (hnodup.subperm hsub).length_le
    rw [List.length_map, List.length_map] at hle
    exact hle.trans (List.length_take_le _ _)
  · intro h r hr
    have hmem : r ∈ seen hsize rs r.1 := by
      rw [hseen, List.take_of_length_le (by rw [List.length_reverse]; exact h _),
        List.mem_reverse]
      exact List.mem_filter.mpr ⟨hr, decide_eq_true rfl⟩
    rw [lookup_of_seen hkeys hmem]
    rfl

end

/-! ### The cache of a directory -/

theorem cacheSize_eq (files : List File) :
    cacheSize files = contentSize files + sizeofInfo + tableSize (contentSize files) := by
  rw [cacheSize, collect_eq]

theorem cacheSize_sub (files : List File) :
    cacheSize files - sizeofInfo = contentSize files + tableSize (contentSize files) := by
  rw [cacheSize_eq]
  omega

/-- What is bound to the files with content, where the empty files are last. -/
def pairs (files : List File) : List (Bytes × Bytes) :=
  (filled files).map fun f => (basename f.path, f.content)

theorem sum_pairs (files : List File) :
    (((pairs files).map entry).map entrylen).sum = contentSize files := by
  rw [pairs, contentSize, List.map_map, List.map_map]
  congr 2
  funext f
  show sizeofEntry + (basename f.path).length + (f.content ++ [0]).length = _
  rw [List.length_append, List.length_singleton]

theorem mem_pairs {files : List File} {r : Bytes × Bytes} :
    r ∈ pairs files ↔ ∃ f ∈ files, f.content ≠ [] ∧ (basename f.path, f.content) = r := by
  simp only [pairs, List.mem_map, mem_filled, and_assoc]

theorem bucket_pairs (files : List File) (hsize b : Nat) :
    ((pairs files).filter fun r => cacheHash hsize r.1 = b).length =
      ((filled files).filter fun f => cacheHash hsize (basename f.path) = b).length := by
  rw [pairs, List.filter_map, List.length_map]
  rfl

section

variable {old : Mem} {files : List File}
  (hnames : (files.map fun f => basename f.path).Nodup) (hmax : cacheSize files ≤ 10 ^ 9)
  (hold : ∀ b < getHSize (cacheSize files - sizeofInfo), old b = 0)

include hnames in
theorem pairs_nodup : ((pairs files).map Prod.fst).Nodup := by
  rw [pairs, List.map_map]
  exact hnames.sublist (List.filter_sublist.map _)

include hmax in
theorem hsize_le_table : getHSize (cacheSize files - sizeofInfo) ≤ tableSize (contentSize files) ∧
    (getHSize (cacheSize files - sizeofInfo) = tableSize (contentSize files) ↔
      Settled (contentSize files)) := by
  rw [cacheSize_sub]
  exact table_spec (cacheSize_eq files ▸ hmax)

include hmax hold

theorem init_shape (now : Nat) : Shape (initTemplate old (cacheSize files) now) [] [] := by
  obtain ⟨hmod, hpos, -⟩ :=
    hsizeLoop_spec (cacheSize files - sizeofInfo) 32 4 rfl (by decide) (Or.inl le_rfl)
  have hle : getHSize (cacheSize files - sizeofInfo) ≤ cacheSize files - sizeofInfo := by
    have htable := (hsize_le_table hmax).1
    have hsize := cacheSize_sub files
    omega
  refine ⟨hpos, hmod, ?_, hle, le_rfl, rfl, rfl, fun _ => rfl, ?_, ?_⟩
  · show cacheSize files - sizeofInfo < 2 ^ 32
    omega
  · exact fun q hq => absurd hq List.not_mem_nil
  · rintro b ⟨hb, hb4⟩
    replace hb : b < getHSize (cacheSize files - sizeofInfo) := hb
    have hmod' : getHSize (cacheSize files - sizeofInfo) % 4 = 0 := hmod
    show ByteMemory.get old b = 0
    rw [ByteMemory.get, hold b hb, hold (b + 1) (by omega), hold (b + 2) (by omega),
      hold (b + 3) (by omega)]
    rfl

/-- Without an eviction, the entries are those of the names that are bound. -/
theorem shape_of_room {now : Nat}
    (hroom : Runs.StepsMeet step HasRoom (initTemplate old (cacheSize files) now)
      (contentCalls files now)) :
    ∃ c, openTemplate old files now = some c ∧ Shape c [] ((bound files).map entry) ∧
      c.size = cacheSize files - sizeofInfo ∧
      c.hsize = getHSize (cacheSize files - sizeofInfo) := by
  rw [contentCalls_eq] at hroom
  rw [openTemplate, contentCalls_eq]
  exact run_room (init_shape hmax hold now) now hroom

include hnames

theorem order_of_fills {now : Nat} (h : Fills old files now) :
    files.Pairwise fun f g => f.content = [] → g.content = [] := by
  obtain ⟨hroom, c, hopen, -, hserves⟩ := h
  obtain ⟨c', hopen', hs, -, -⟩ := shape_of_room hmax hold hroom
  obtain rfl := Option.some.inj (hopen'.symm.trans hopen)
  refine order_of_bound hnames fun f hf hcontent => ?_
  have hfound := hserves.found f hf hcontent now
  rw [getContent_eq hs] at hfound
  obtain ⟨r, hlookup, -⟩ := Option.map_eq_some_iff.mp hfound
  obtain ⟨hseen, hkey⟩ := lookup_some hlookup
  exact hkey ▸ List.mem_map_of_mem (seen_subset _ hseen)

theorem regular_of_fills {now : Nat} (h : Fills old files now) : Regular files := by
  have horder := order_of_fills hnames hmax hold h
  obtain ⟨hroom, c, hopen, hfull, hserves⟩ := h
  obtain ⟨c', hopen', hs, hsize, hhsize⟩ := shape_of_room hmax hold hroom
  obtain rfl := Option.some.inj (hopen'.symm.trans hopen)
  rw [bound_eq horder, ← pairs] at hs
  have hsettled := (hsize_le_table hmax).2
  rw [← hhsize] at hsettled
  have htable : c'.hsize = tableSize (contentSize files) := by
    have hend := hs.news_end
    have hsum := sum_pairs files
    have hsub := cacheSize_sub files
    rw [endOf_eq_sum] at hend
    omega
  refine ⟨horder, hsettled.mp htable, ?_⟩
  have hall : ∀ r ∈ pairs files, (lookup c'.hsize (pairs files) r.1).isSome := by
    intro r hr
    obtain ⟨f, hf, hcontent, rfl⟩ := mem_pairs.mp hr
    have hfound := hserves.found f hf hcontent now
    rw [getContent_eq hs] at hfound
    obtain ⟨r', hlookup, -⟩ := Option.map_eq_some_iff.mp hfound
    exact Option.isSome_iff_exists.mpr ⟨r', hlookup⟩
  intro b
  rw [← htable, ← bucket_pairs]
  exact (lookup_all_iff (pairs_nodup hnames)).mp hall b

theorem fills_of_regular (now : Nat) (h : Regular files) : Fills old files now := by
  have hinit := init_shape hmax hold now
  have hkeys := pairs_nodup hnames
  have htable := (hsize_le_table hmax).2.mpr h.settled
  have hsum := sum_pairs files
  have hsub := cacheSize_sub files
  have hbound : bound files = pairs files := bound_eq h.order
  have hroom : Runs.StepsMeet step HasRoom (initTemplate old (cacheSize files) now)
      (contentCalls files now) := by
    rw [contentCalls_eq, hbound]
    refine stepsMeet_room hinit now ?_
    show getHSize (cacheSize files - sizeofInfo) + _ ≤ cacheSize files - sizeofInfo
    omega
  obtain ⟨c, hopen, hs, hsize, hhsize⟩ := shape_of_room hmax hold hroom
  rw [hbound] at hs
  have hall : ∀ r ∈ pairs files, (lookup c.hsize (pairs files) r.1).isSome := by
    refine (lookup_all_iff hkeys).mpr fun b => ?_
    rw [bucket_pairs, hhsize, htable]
    exact h.buckets b
  refine ⟨hroom, c, hopen, ?_, ?_, ?_⟩
  · have hend := hs.news_end
    rw [endOf_eq_sum] at hend
    omega
  · intro f hf hcontent time
    have hr : (basename f.path, f.content) ∈ pairs files :=
      mem_pairs.mpr ⟨f, hf, hcontent, rfl⟩
    obtain ⟨r', hlookup⟩ := Option.isSome_iff_exists.mp (hall _ hr)
    obtain ⟨hseen, hkey⟩ := lookup_some hlookup
    have heq := List.inj_on_of_nodup_map hkeys (seen_subset _ hseen) hr hkey
    rw [getContent_eq hs, hlookup, heq, Option.map_some]
  · intro time key content hget
    rw [getContent_eq hs] at hget
    obtain ⟨r, hlookup, rfl⟩ := Option.map_eq_some_iff.mp hget
    obtain ⟨hseen, rfl⟩ := lookup_some hlookup
    obtain ⟨f, hf, -, rfl⟩ := mem_pairs.mp (seen_subset _ hseen)
    exact ⟨f, hf, rfl, rfl⟩

/-- A new cache is filled with the files if and only if the listing is regular. -/
theorem fills_iff (now : Nat) : Fills old files now ↔ Regular files :=
  ⟨regular_of_fills hnames hmax hold, fills_of_regular hnames hmax hold now⟩

end

/-- The paths `t/a` and `t/b`, of which the second file is empty. -/
theorem fills_last_empty : Fills (fun _ => 0) [⟨[116, 47, 97], [120]⟩, ⟨[116, 47, 98], []⟩] 0 := by
  refine (fills_iff (by decide) (by decide) (fun _ _ => rfl) 0).mpr ⟨by decide, by decide, ?_⟩
  intro b
  exact (List.length_filter_le _ _).trans (by decide)

/-- Where the first file is empty, the content of the second is bound to the name of the first. -/
theorem not_fills_first_empty :
    ([⟨[116, 47, 97], []⟩, ⟨[116, 47, 98], [120]⟩].map fun f : File => basename f.path).Nodup ∧
      ¬ Fills (fun _ => 0) [⟨[116, 47, 97], []⟩, ⟨[116, 47, 98], [120]⟩] 0 := by
  refine ⟨by decide, fun h => ?_⟩
  have horder := order_of_fills (by decide) (by decide) (fun _ _ => rfl) h
  exact absurd horder (by decide)

end ULib.CacheTemplate
