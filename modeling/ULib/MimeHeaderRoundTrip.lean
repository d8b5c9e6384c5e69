import ULib.MimeHeaderFields

/-!
A table of headers that is written and parsed again, and the values of a name that comes more
than once.
-/

namespace ULib.MimeHeaderRoundTrip

open ULib.KeyComparison
open ULib.EscapeCoding
open ULib.HashMap
open ULib.HashMapShape
open ULib.HashMapOperations
open ULib.HashMapIteration
open ULib.HashMapRefinement
open ULib.MimeMultipart (crlf)
open ULib.ContainerStream
open ULib.UrlText
open ULib.MimeHeader
open ULib.MimeHeaderFields

/-! ### Written tables -/

/-- A header as a table may hold it; the value may be empty. -/
structure Writable (e : Bytes × Bytes) : Prop where
  name_ne : e.1 ≠ []
  name_plain : ∀ c ∈ e.1, c ≠ colon ∧ isSpace c = false
  value_line : lineFeed ∉ e.2
  value_start : ∀ c, e.2.head? = some c → isSpace c = false
  value_end : ∀ c, e.2.getLast? = some c → isSpace c = false

theorem Writable.plain {e : Bytes × Bytes} (h : Writable e) : Plain e :=
  ⟨h.name_ne, h.name_plain, h.value_line, h.value_start,
    fun hend => absurd (h.value_end _ hend) (by decide)⟩

def writtenFields (entries : List (Bytes × Bytes)) (h : ∀ e ∈ entries, Writable e) : List Field :=
  plainFields true entries fun e he => (h e he).plain

theorem message_written {entries : List (Bytes × Bytes)} (h : ∀ e ∈ entries, Writable e) :
    message true (writtenFields entries h) = (entries.map headerLine).flatten ++ crlf :=
  message_plain true _

/-- The table is written, and the text and an empty line are read into the table `t₀`. -/
def TableComes (t t₀ : UHashMap Bytes) (m : Bytes → Option Bytes) : Prop :=
  ∃ text t₁ count t', writeHeaders t [] = some (text, t₁) ∧
    parse (text ++ crlf) t₀ = some (count, t') ∧ Refines t' m

/-- A table comes back if and only if none of its values is empty. -/
theorem tableComes_iff {t t₀ : UHashMap Bytes} {m : Bytes → Option Bytes} (ht : Keeps t m)
    (ht₀ : Keeps t₀ fun _ => none) (hwritable : ∀ key value, m key = some value →
      Writable (key, value)) :
    TableComes t t₀ m ↔ ∀ key value, m key = some value → value ≠ [] := by
  obtain ⟨⟨chains, hrep⟩, -⟩ := ht
  have henum := Represents.enumerates hrep
  obtain ⟨t₁, hiterate, -⟩ := iterate_spec hrep.shape
  have hcount : ((cells t.capacity chains).map entry).length = t.length := by
    rw [List.length_map, hrep.length_eq]
  have hlt := hrep.length_lt
  generalize (cells t.capacity chains).map entry = entries at henum hiterate hcount
  have hentries : ∀ e ∈ entries, Writable e :=
    fun e he => hwritable e.1 e.2 ((henum.2 e.1 e.2).mp he)
  have hwrite : writeHeaders t [] = some ((entries.map headerLine).flatten, t₁) := by
    rw [writeHeaders, hiterate]
    rfl
  have hroom : t₀.length + (writtenFields entries hentries).length < 2 ^ 32 := by
    rw [length_empty ht₀, writtenFields, plainFields, List.length_pmap]
    omega
  have hfields : (∀ f ∈ writtenFields entries hentries, f.first.text ≠ []) ↔
      ∀ key value, m key = some value → value ≠ [] := by
    constructor
    · intro h key value hkey
      have hmem := (henum.2 key value).mpr hkey
      exact h _ (List.mem_pmap.mpr ⟨(key, value), hmem, rfl⟩)
    · intro h f hf
      obtain ⟨e, he, rfl⟩ := List.mem_pmap.mp hf
      exact h e.1 e.2 ((henum.2 e.1 e.2).mp he)
  rw [← hfields]
  constructor
  · rintro ⟨text, t₂, count, t', hwrite', hparse, -⟩
    by_contra hempty
    have hnone := parse_message_empty (Or.inr rfl) hempty ht₀ hroom
    obtain ⟨rfl, -⟩ := Prod.mk.inj (Option.some.inj (hwrite'.symm.trans hwrite))
    rw [message_written] at hnone
    rw [hnone] at hparse
    cases hparse
  · intro h
    obtain ⟨t', hparse, hkeeps⟩ := parse_fields (Or.inr (rfl : true = true)) h ht₀ hroom
    rw [writtenFields, foldl_plain true _ henum.1 fun _ _ => rfl, henum.bindAll_eq] at hkeeps
    rw [message_written] at hparse
    exact ⟨_, t₁, _, t', hwrite, hparse, refines_of_keeps hkeeps⟩

/-! ### Names that come again -/

/-- A line without the carriage return at its end -/
def chomp (line : Bytes) : Bytes :=
  if line.getLast? = some carriageReturn then line.dropLast else line

/-- The values that the element of `name` lists: the first one, and behind it lines that begin
with the name, the colon and a blank. -/
def listed (name elem : Bytes) : List Bytes :=
  match (elem.splitOn lineFeed).map chomp with
  | [] => []
  | first :: rest => first :: rest.map (List.drop (name.length + 2))

/-- Every value of the fields is in the table that is parsed. -/
def NoneDropped (fs : List Field) (t₀ : UHashMap Bytes) : Prop :=
  ∃ count t', parse (message true fs) t₀ = some (count, t') ∧
    ∀ f ∈ fs, ∃ elem t'', at' t' f.name = some (some elem, t'') ∧ f.value ∈ listed f.name elem

/-- What the lines that came again left behind the first value. -/
def remains (name : Bytes) (crs : List Bool) : Bytes :=
  (crs.map fun cr => lineEnd cr ++ (name ++ [colon, blank])).flatten

theorem chomp_line {w : Bytes} (hw : w.getLast? ≠ some carriageReturn) (cr : Bool) :
    chomp (w ++ beforeFeed cr) = w := by
  cases cr with
  | true => simp [chomp, beforeFeed]
  | false => simp [chomp, beforeFeed, hw]

theorem splitOn_cons {w : Bytes} (hw : lineFeed ∉ w) (t : Bytes) :
    (w ++ lineFeed :: t).splitOn lineFeed = w :: t.splitOn lineFeed := by
  rw [List.splitOn, List.splitOn, List.splitOnP_append_cons_of_forall_mem]
  · intro c hc
    simpa using fun h : c = lineFeed => hw (h ▸ hc)
  · simp

theorem splitOn_remains {name : Bytes} (hname : lineFeed ∉ name) (crs : List Bool) {w : Bytes}
    (hw : lineFeed ∉ w) (hend : w.getLast? ≠ some carriageReturn) :
    ((w ++ remains name crs).splitOn lineFeed).map chomp =
      w :: List.replicate crs.length (name ++ [colon, blank]) := by
  induction crs generalizing w with
  | nil =>
      have hchomp := chomp_line hend false
      have hsplit : w.splitOn lineFeed = [w] := by
        rw [List.splitOn, List.splitOnP_eq_singleton]
        intro c hc
        simpa using fun h : c = lineFeed => hw (h ▸ hc)
      rw [beforeFeed, if_neg (by simp), List.append_nil] at hchomp
      rw [remains, List.map_nil, List.flatten_nil, List.append_nil, hsplit, List.map_singleton,
        hchomp]
      rfl
  | cons cr crs ih =>
      have hprefix : lineFeed ∉ name ++ [colon, blank] := by
        rw [List.mem_append, not_or]
        exact ⟨hname, by decide⟩
      have hline : lineFeed ∉ w ++ beforeFeed cr := by
        rw [List.mem_append, not_or]
        exact ⟨hw, fun h => (beforeFeed_space cr _ h).2 rfl⟩
      have happend : w ++ remains name (cr :: crs) =
          w ++ beforeFeed cr ++ lineFeed :: (name ++ [colon, blank] ++ remains name crs) := by
        simp [remains, lineEnd_eq]
      rw [happend, splitOn_cons hline, List.map_cons, chomp_line hend,
        ih hprefix (by simp [show blank ≠ carriageReturn by decide]), List.length_cons,
        List.replicate_succ]

theorem listed_remains {name : Bytes} (hname : lineFeed ∉ name) (crs : List Bool) {w : Bytes}
    (hw : lineFeed ∉ w) (hend : w.getLast? ≠ some carriageReturn) :
    listed name (w ++ remains name crs) = w :: List.replicate crs.length [] := by
  rw [listed, splitOn_remains hname crs hw hend]
  dsimp only
  rw [List.map_replicate, List.drop_eq_nil_of_le (by simp)]

theorem value_ne {f : Field} (hf : f.first.text ≠ []) : f.value ≠ [] := by
  rw [Field.value]
  exact List.append_ne_nil_of_left_ne_nil hf _

theorem name_line (f : Field) : lineFeed ∉ f.name :=
  fun h => absurd (f.name_plain _ h).2 (by decide)

theorem value_line (f : Field) : lineFeed ∉ f.value := by
  rw [Field.value, List.mem_append, List.mem_flatten]
  rintro (h | ⟨text, htext, h⟩)
  · exact f.first.text_line h
  · obtain ⟨p, -, rfl⟩ := List.mem_map.mp htext
    exact p.text_line h

theorem pieces_end {pieces : List Piece} (hpieces : ∀ p ∈ pieces, p.text ≠ []) {w : Bytes}
    (hw : w.getLast? ≠ some carriageReturn) :
    (w ++ (pieces.map Piece.text).flatten).getLast? ≠ some carriageReturn := by
  induction pieces generalizing w with
  | nil => simpa using hw
  | cons p pieces ih =>
      rw [List.map_cons, List.flatten_cons, ← List.append_assoc]
      refine ih (fun r hr => hpieces r (List.mem_cons_of_mem p hr)) ?_
      rw [List.getLast?_append_of_ne_nil _ (hpieces p List.mem_cons_self)]
      exact p.text_end

theorem value_end (f : Field) : f.value.getLast? ≠ some carriageReturn :=
  pieces_end (fun p hp => (f.folded p hp).2) f.first.text_end

/-! ### The fields that were read -/

/-- The bindings are those of the fields: a name has the value of one of them, and what other
values of it left. -/
def Accounts (done : List Field) (m : Bytes → Option Bytes) : Prop :=
  (∀ key elem, m key = some elem →
    ∃ f ∈ done, f.name = key ∧ ∃ crs, elem = f.value ++ remains key crs) ∧
  ∀ f ∈ done, m f.name ≠ none

section Accounts

variable {done : List Field} {m : Bytes → Option Bytes}

theorem Accounts.update (h : Accounts done m) {f g : Field} (hg : g ∈ done ++ [f])
    (hname : g.name = f.name) (crs : List Bool) :
    Accounts (done ++ [f]) (Function.update m f.name (some (g.value ++ remains f.name crs))) := by
  constructor
  · intro key elem hkey
    by_cases heq : key = f.name
    · subst heq
      rw [Function.update_self] at hkey
      exact ⟨g, hg, hname, crs, (Option.some.inj hkey).symm⟩
    · rw [Function.update_of_ne heq] at hkey
      obtain ⟨r, hr, hrest⟩ := h.1 key elem hkey
      exact ⟨r, List.mem_append_left _ hr, hrest⟩
  · intro r hr
    by_cases heq : r.name = f.name
    · rw [heq, Function.update_self]
      exact Option.some_ne_none _
    · rw [Function.update_of_ne heq]
      rcases List.mem_append.mp hr with hr | hr
      · exact h.2 r hr
      · obtain rfl := List.mem_singleton.mp hr
        exact absurd rfl heq

theorem remains_concat (name : Bytes) (crs : List Bool) (cr : Bool) :
    remains name (crs ++ [cr]) = remains name crs ++ (lineEnd cr ++ (name ++ [colon, blank])) := by
  simp [remains]

theorem Accounts.step (h : Accounts done m) (f : Field) :
    Accounts (done ++ [f]) (afterField m f) := by
  have hmem : f ∈ done ++ [f] := List.mem_append_right _ List.mem_cons_self
  rw [afterField]
  split_ifs with hrest
  · have hvalue : f.value = f.first.text := by simp [Field.value, hrest]
    rw [← hvalue, addTo]
    cases hname : m f.name with
    | none =>
        have hupdate := h.update hmem rfl []
        rwa [remains, List.map_nil, List.flatten_nil, List.append_nil] at hupdate
    | some elem =>
        obtain ⟨g, hg, hgname, crs, rfl⟩ := h.1 f.name elem hname
        dsimp only
        split_ifs
        · refine ⟨?_, ?_⟩
          · intro key elem hkey
            obtain ⟨r, hr, hr'⟩ := h.1 key elem hkey
            exact ⟨r, List.mem_append_left _ hr, hr'⟩
          · intro r hr
            rcases List.mem_append.mp hr with hr | hr
            · exact h.2 r hr
            · obtain rfl := List.mem_singleton.mp hr
              rw [hname]
              exact Option.some_ne_none _
        · have hupdate := h.update (List.mem_append_left [f] hg) hgname (crs ++ [f.first.cr])
          rw [remains_concat] at hupdate
          simpa only [List.append_assoc] using hupdate
  · have hupdate := h.update hmem rfl []
    rwa [remains, List.map_nil, List.flatten_nil, List.append_nil] at hupdate

theorem Accounts.run (h : Accounts done m) (fs : List Field) :
    Accounts (done ++ fs) (fs.foldl afterField m) := by
  induction fs generalizing done m with
  | nil => rwa [List.append_nil]
  | cons f fs ih =>
      have hrest := ih (h.step f)
      rwa [List.append_assoc, List.singleton_append] at hrest

end Accounts

/-- No value is dropped if and only if no value is empty and no name comes with different values. -/
theorem noneDropped_iff {fs : List Field} {t₀ : UHashMap Bytes} (ht₀ : Keeps t₀ fun _ => none)
    (hfits : (message true fs).length < 2 ^ 32) :
    NoneDropped fs t₀ ↔ (∀ f ∈ fs, f.first.text ≠ []) ∧
      ∀ f ∈ fs, ∀ g ∈ fs, f.name = g.name → f.value = g.value := by
  have hroom : t₀.length + fs.length < 2 ^ 32 := by
    have hle := lines_le fs
    have hcount : fs.length ≤ lines fs := by
      rw [lines, ← List.length_map Field.lines]
      exact List.length_le_sum_of_one_le _ (by simp [Field.lines])
    rw [message, List.length_append] at hfits
    rw [length_empty ht₀]
    omega
  have haccounts : Accounts fs (fs.foldl afterField fun _ => none) := by
    have hnone : Accounts [] fun _ => none := ⟨by simp, by simp⟩
    exact hnone.run fs
  have hlisted : ∀ g : Field, ∀ crs,
      listed g.name (g.value ++ remains g.name crs) = g.value :: List.replicate crs.length [] :=
    fun g crs => listed_remains (name_line g) crs (value_line g) (value_end g)
  constructor
  · rintro ⟨count, t', hparse, hall⟩
    have hne : ∀ f ∈ fs, f.first.text ≠ [] := by
      by_contra hempty
      rw [parse_message_empty (Or.inr rfl) hempty ht₀ hroom] at hparse
      cases hparse
    obtain ⟨t₁, hparse', hkeeps⟩ := parse_fields (Or.inr rfl) hne ht₀ hroom
    obtain ⟨-, rfl⟩ := Prod.mk.inj (Option.some.inj (hparse.symm.trans hparse'))
    refine ⟨hne, ?_⟩
    -- the first value that is listed is the only one that is not empty
    have hvalue : ∀ f ∈ fs, ∀ g ∈ fs, g.name = f.name → ∀ crs,
        fs.foldl afterField (fun _ => none) f.name = some (g.value ++ remains f.name crs) →
          f.value = g.value := by
      intro f hf g hg hname crs hm
      obtain ⟨elem, t₂, hat, hmem⟩ := hall f hf
      obtain ⟨t₃, hat'⟩ := (refines_of_keeps hkeeps).lookup_eq f.name
      rw [hat'] at hat
      obtain ⟨helem, -⟩ := Prod.mk.inj (Option.some.inj hat)
      obtain rfl := Option.some.inj (hm.symm.trans helem)
      rw [← hname, hlisted, List.mem_cons, List.mem_replicate] at hmem
      rcases hmem with hmem | ⟨-, hmem⟩
      · exact hmem
      · exact absurd hmem (value_ne (hne f hf))
    intro f hf g hg hname
    obtain ⟨elem, hm⟩ := Option.ne_none_iff_exists'.mp (haccounts.2 f hf)
    obtain ⟨r, hr, hrname, crs, rfl⟩ := haccounts.1 f.name elem hm
    rw [hvalue f hf r hr hrname crs hm]
    refine (hvalue g hg r hr (hrname.trans hname) crs ?_).symm
    rw [← hname, hm]
  · rintro ⟨hne, hsame⟩
    obtain ⟨t', hparse, hkeeps⟩ := parse_fields (Or.inr rfl) hne ht₀ hroom
    refine ⟨_, t', hparse, ?_⟩
    intro f hf
    obtain ⟨elem, hm⟩ := Option.ne_none_iff_exists'.mp (haccounts.2 f hf)
    obtain ⟨g, hg, hname, crs, rfl⟩ := haccounts.1 f.name elem hm
    obtain ⟨t₂, hat⟩ := (refines_of_keeps hkeeps).lookup_eq f.name
    refine ⟨_, t₂, by rw [hat, hm], ?_⟩
    rw [← hname, hlisted, hsame f hf g hg hname.symm]
    exact List.mem_cons_self

/-- A table comes back if and only if none of its values is empty, and of the values of a text none
is dropped if and only if none is empty and no name comes with different values. -/
theorem headers_come {t₀ : UHashMap Bytes} (ht₀ : Keeps t₀ fun _ => none) :
    (∀ (t : UHashMap Bytes) (m : Bytes → Option Bytes), Keeps t m →
      (∀ key value, m key = some value → Writable (key, value)) →
        (TableComes t t₀ m ↔ ∀ key value, m key = some value → value ≠ [])) ∧
    ∀ fs : List Field, (message true fs).length < 2 ^ 32 →
      (NoneDropped fs t₀ ↔ (∀ f ∈ fs, f.first.text ≠ []) ∧
        ∀ f ∈ fs, ∀ g ∈ fs, f.name = g.name → f.value = g.value) :=
  ⟨fun _ _ ht hwritable => tableComes_iff ht ht₀ hwritable,
    fun _ hfits => noneDropped_iff ht₀ hfits⟩

def nameA : Bytes := ['A'.toUInt8]

theorem writable_byte {c : UInt8} (hc : isSpace c = false) : Writable (nameA, [c]) where
  name_ne := (by decide : nameA ≠ [])
  name_plain := (by decide : ∀ d ∈ nameA, d ≠ colon ∧ isSpace d = false)
  value_line h := by
    rw [← List.mem_singleton.mp h] at hc
    exact absurd hc (by decide)
  value_start := by simpa using hc
  value_end := by simpa using hc

/-- `A: x` -/
def fieldX : Field := plainField true (nameA, ['x'.toUInt8]) (writable_byte (by decide)).plain

/-- `A: y` -/
def fieldY : Field := plainField true (nameA, ['y'.toUInt8]) (writable_byte (by decide)).plain

/-- `A: x`, with the line `y` behind it -/
def fieldXY : Field :=
  { fieldX with
    rest :=
      [{ fieldY.first with
          gap := [tab, blank]
          cr := false
          gap_space := by decide }]
    folded := by decide }

theorem keeps_empty : Keeps (allocated 53 : UHashMap Bytes) fun _ => none :=
  keeps_allocated (by decide)

theorem insert_one (value : Bytes) : ∃ t, insert (allocated 53) nameA value = some t ∧
    Keeps t (Function.update (fun _ => none) nameA (some value)) := by
  obtain ⟨⟨chains, hrep⟩, hcap⟩ := keeps_empty
  obtain ⟨t, chains', hinsert, hrep', hcap', -⟩ := insert_spec hrep nameA value (Or.inr (by decide))
  exact ⟨t, hinsert, ⟨chains', hrep'⟩, hcap' ▸ hcap⟩

theorem of_update_one {value : Bytes} {P : Bytes → Bytes → Prop} (hP : P nameA value) :
    ∀ key value', Function.update (fun _ => none) nameA (some value) key = some value' →
      P key value' := by
  intro key value' h
  by_cases hkey : key = nameA
  · subst hkey
    rw [Function.update_self] at h
    exact Option.some.inj h ▸ hP
  · rw [Function.update_of_ne hkey] at h
    cases h

theorem headers_sample :
    (∃ t, insert (allocated 53) nameA ['x'.toUInt8] = some t ∧
      TableComes t (allocated 53) (Function.update (fun _ => none) nameA (some ['x'.toUInt8]))) ∧
    NoneDropped [fieldX, fieldX] (allocated 53) ∧ NoneDropped [fieldXY] (allocated 53) ∧
    ¬ NoneDropped [fieldX, fieldXY] (allocated 53) := by
  refine ⟨?_, ?_, ?_, ?_⟩
  · obtain ⟨t, hinsert, hkeeps⟩ := insert_one ['x'.toUInt8]
    refine ⟨t, hinsert, ((headers_come keeps_empty).1 t _ hkeeps ?_).mpr ?_⟩
    · exact of_update_one (writable_byte (by decide))
    · exact of_update_one (by decide)
  · exact ((headers_come keeps_empty).2 _ (by decide)).mpr (by decide)
  · exact ((headers_come keeps_empty).2 _ (by decide)).mpr (by decide)
  · rw [(headers_come keeps_empty).2 _ (by decide)]
    decide

/-- The value of an empty header begins behind the end of its line, and the second value of a name
is not in the table. -/
theorem headers_lost :
    (∃ t, insert (allocated 53) nameA [] = some t ∧
      ¬ TableComes t (allocated 53) (Function.update (fun _ => none) nameA (some []))) ∧
    ((parse (message true [fieldX, fieldY]) (allocated 53)).bind fun r =>
      (at' r.2 nameA).map Prod.fst) =
        some (some ("x\r\nA: ".toUTF8.data.toList)) ∧
    ¬ NoneDropped [fieldX, fieldY] (allocated 53) := by
  refine ⟨?_, by decide, ?_⟩
  · obtain ⟨t, hinsert, hkeeps⟩ := insert_one []
    refine ⟨t, hinsert, ?_⟩
    rw [tableComes_iff hkeeps keeps_empty]
    · exact fun h => h nameA [] (Function.update_self _ _ _) rfl
    · exact of_update_one ⟨by decide, by decide, by decide, by simp, by simp⟩
  · rw [noneDropped_iff keeps_empty (by decide)]
    decide

end ULib.MimeHeaderRoundTrip
