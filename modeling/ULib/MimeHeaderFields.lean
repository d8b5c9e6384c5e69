import ULib.HashMapRefinement
import ULib.MimeHeader

/-!
The headers of a text, field by field, and what `UMimeHeader::parse` makes of them: the lines
that continue a value, the names that come again, and the values that are empty.
-/

namespace ULib.MimeHeaderFields

open ULib.KeyComparison
open ULib.EscapeCoding
open ULib.HashMap
open ULib.HashMapShape
open ULib.HashMapOperations
open ULib.HashMapIteration
open ULib.HashMapRefinement
open ULib.ContainerStream
open ULib.UrlText
open ULib.MimeHeader

/-- A line of a field without the name: white space, text, and how the line ends. -/
structure Piece where
  gap : Bytes
  text : Bytes
  cr : Bool
  gap_space : ∀ c ∈ gap, isSpace c ∧ c ≠ lineFeed
  text_line : lineFeed ∉ text
  text_start : ∀ c, text.head? = some c → isSpace c = false
  text_end : text.getLast? ≠ some carriageReturn

def Piece.bytes (p : Piece) : Bytes := p.gap ++ p.text ++ lineEnd p.cr

/-- A header, with the lines that continue it. -/
structure Field where
  name : Bytes
  first : Piece
  rest : List Piece
  name_ne : name ≠ []
  name_plain : ∀ c ∈ name, c ≠ colon ∧ isSpace c = false
  folded : ∀ p ∈ rest, p.gap ≠ [] ∧ p.text ≠ []

def Field.value (f : Field) : Bytes := f.first.text ++ (f.rest.map Piece.text).flatten

def Field.bytes (f : Field) : Bytes :=
  f.name ++ colon :: f.first.bytes ++ (f.rest.map Piece.bytes).flatten

/-- The fields and the empty line. -/
def message (cr : Bool) (fs : List Field) : Bytes := (fs.map Field.bytes).flatten ++ lineEnd cr

/-! ### Lines -/

theorem isSpace_lineFeed : isSpace lineFeed := by decide

theorem skipSpace_append {w : Bytes} (hw : ∀ c ∈ w, isSpace c) (t : Bytes) :
    skipSpace (w ++ t) = skipSpace t :=
  List.dropWhile_append_of_pos hw

theorem skipSpace_text {p : Piece} (hp : p.text ≠ []) (t : Bytes) :
    skipSpace (p.text ++ t) = p.text ++ t := by
  obtain ⟨c, u, hcu⟩ := List.exists_cons_of_ne_nil hp
  have hc := p.text_start c (by rw [hcu]; rfl)
  rw [hcu, List.cons_append, skipSpace, List.dropWhile_cons_of_neg (by simp [hc])]

/-- What stands before the line feed of a line end. -/
def beforeFeed (cr : Bool) : Bytes := if cr then [carriageReturn] else []

theorem lineEnd_eq (cr : Bool) : lineEnd cr = beforeFeed cr ++ [lineFeed] := by
  cases cr with
  | true => rfl
  | false => rfl

theorem length_beforeFeed (cr : Bool) : (beforeFeed cr).length = cr.toNat := by
  cases cr with
  | true => rfl
  | false => rfl

theorem beforeFeed_space (cr : Bool) : ∀ c ∈ beforeFeed cr, isSpace c ∧ c ≠ lineFeed := by
  cases cr with
  | true => decide
  | false => decide

theorem getLast_line {w : Bytes} (hend : w.getLast? ≠ some carriageReturn) (cr : Bool) :
    decide ((w ++ beforeFeed cr).getLast? = some carriageReturn) = cr := by
  cases cr with
  | true => simp [beforeFeed]
  | false => simpa [beforeFeed] using hend

theorem parseLoop_line {w : Bytes} (hw : lineFeed ∉ w) (hblank : w.all isSpace = false) (n : Nat)
    (t value : Bytes) (table : UHashMap Bytes) :
    parseLoop (n + 1) (w ++ lineFeed :: t) value table =
      (parseLine (w ++ lineFeed :: t) w.length (w.getLast? = some carriageReturn) value table).bind
        fun
        | none => some table
        | some (value, table) => parseLoop n t value table := by
  have hline : (w ++ lineFeed :: t).takeWhile (· ≠ lineFeed) = w := by
    rw [List.takeWhile_append_of_pos, List.takeWhile_cons_of_neg (by simp), List.append_nil]
    intro c hc
    simpa using fun h : c = lineFeed => hw (h ▸ hc)
  have hdrop : (w ++ lineFeed :: t).drop (w.length + 1) = t := by
    rw [← List.drop_drop, List.drop_left]
    rfl
  rw [parseLoop, if_neg (by simp), hline, if_neg (by simp [hblank])]
  dsimp only
  cases parseLine (w ++ lineFeed :: t) w.length (w.getLast? = some carriageReturn) value table with
  | none => rfl
  | some read =>
    cases read with
    | none => rfl
    | some kept => exact congrArg (parseLoop n · kept.1 kept.2) hdrop

theorem skipWhite_append {w g : Bytes} (hg : ∀ c ∈ g, isSpace c) {t : Bytes}
    (ht : skipSpace t = t) : skipWhite (w ++ (g ++ t)) w.length = (t, w.length + g.length) := by
  have hrest : skipSpace ((w ++ (g ++ t)).drop w.length) = t := by
    rw [List.drop_left, skipSpace_append hg, ht]
  rw [skipWhite, hrest, List.length_append, List.length_append, ← Nat.add_assoc, Nat.add_sub_cancel]

theorem length_skipSpace_le (t : Bytes) : (skipSpace t).length ≤ t.length :=
  (List.dropWhile_sublist _).length_le

theorem span_text (pkv n : Nat) (cr : Bool) : span (pkv + n + cr.toNat) pkv cr = some n := by
  rw [span, if_pos (by omega)]
  congr 1
  omega

theorem Piece.gap_white (p : Piece) : ∀ c ∈ p.gap, isSpace c := fun c hc => (p.gap_space c hc).1

/-- The line of a piece, without its line feed -/
def Piece.line (p : Piece) : Bytes := p.gap ++ p.text ++ beforeFeed p.cr

theorem Piece.bytes_append (p : Piece) (t : Bytes) :
    p.bytes ++ t = p.line ++ lineFeed :: t := by
  rw [Piece.bytes, Piece.line, lineEnd_eq]
  simp only [List.append_assoc, List.singleton_append]

theorem Piece.length_line (p : Piece) :
    p.line.length = p.gap.length + p.text.length + p.cr.toNat := by
  rw [Piece.line, List.length_append, List.length_append, length_beforeFeed]

theorem Piece.line_oneLine (p : Piece) : lineFeed ∉ p.line := by
  intro h
  rw [Piece.line, List.append_assoc, List.mem_append, List.mem_append] at h
  rcases h with h | h | h
  · exact (p.gap_space _ h).2 rfl
  · exact p.text_line h
  · exact (beforeFeed_space p.cr _ h).2 rfl

section Line

variable {f : Field} {value : Bytes} {table : UHashMap Bytes}

theorem Field.oneLine (f : Field) : lineFeed ∉ f.name ++ colon :: f.first.line := by
  intro h
  rw [List.mem_append, List.mem_cons] at h
  rcases h with h | h | h
  · exact absurd (f.name_plain _ h).2 (by decide)
  · exact absurd h (by decide)
  · exact f.first.line_oneLine h

theorem Field.name_head (f : Field) (t : Bytes) : isSpace (peek (f.name ++ t) 0) = false := by
  obtain ⟨c, u, hcu⟩ := List.exists_cons_of_ne_nil f.name_ne
  rw [hcu]
  exact (f.name_plain c (by rw [hcu]; exact List.mem_cons_self)).2

theorem Field.takeWhile_name (f : Field) (t : Bytes) :
    (f.name ++ colon :: t).takeWhile (· ≠ colon) = f.name := by
  rw [List.takeWhile_append_of_pos, List.takeWhile_cons_of_neg (by simp), List.append_nil]
  intro c hc
  simpa using (f.name_plain c hc).1

/-- The value of a line is its text. -/
theorem parseLine_field (hf : f.first.text ≠ []) (t : Bytes) :
    parseLine (f.name ++ colon :: f.first.line ++ lineFeed :: t)
        (f.name ++ colon :: f.first.line).length f.first.cr value table =
      (addHeader table f.name f.first.text f.first.cr).map fun table =>
        some (f.first.text, table) := by
  have hinp : f.name ++ colon :: f.first.line ++ lineFeed :: t = (f.name ++ [colon]) ++
      (f.first.gap ++ (f.first.text ++ (beforeFeed f.first.cr ++ lineFeed :: t))) := by
    simp [Piece.line]
  have hskip := skipWhite_append (w := f.name ++ [colon]) f.first.gap_white
    (skipSpace_text hf (beforeFeed f.first.cr ++ lineFeed :: t))
  rw [← hinp, List.length_append, List.length_singleton] at hskip
  have hptr : (f.name ++ colon :: f.first.line).length =
      f.name.length + 1 + f.first.gap.length + f.first.text.length + f.first.cr.toNat := by
    rw [List.length_append, List.length_cons, Piece.length_line]
    omega
  rw [parseLine, List.append_assoc, f.name_head, if_neg (by simp), List.cons_append,
    f.takeWhile_name]
  rw [List.append_assoc, List.cons_append] at hskip
  dsimp only
  rw [if_neg (by omega), hskip, hptr, span_text]
  dsimp only [bind, Option.bind]
  rw [List.take_left]
  cases addHeader table f.name f.first.text f.first.cr with
  | none => rfl
  | some t => rfl

/-- The white space of an empty value goes on behind the end of its line. -/
theorem parseLine_empty (hf : f.first.text = []) (cr : Bool) (t : Bytes) :
    parseLine (f.name ++ colon :: f.first.line ++ lineFeed :: t)
        (f.name ++ colon :: f.first.line).length cr value table = none := by
  have hwhite : ∀ c ∈ f.first.line ++ [lineFeed], isSpace c := by
    intro c hc
    rw [Piece.line, hf, List.append_nil, List.append_assoc, List.mem_append, List.mem_append,
      List.mem_singleton] at hc
    rcases hc with hc | hc | rfl
    · exact f.first.gap_white c hc
    · exact (beforeFeed_space _ c hc).1
    · exact isSpace_lineFeed
  have hdrop : (f.name ++ colon :: (f.first.line ++ lineFeed :: t)).drop (f.name.length + 1) =
      f.first.line ++ [lineFeed] ++ t := by
    rw [← List.drop_drop, List.drop_left]
    simp
  have hlength := length_skipSpace_le t
  rw [parseLine, List.append_assoc, f.name_head, if_neg (by simp), List.cons_append,
    f.takeWhile_name]
  dsimp only
  rw [if_neg (by simp), skipWhite, hdrop, skipSpace_append hwhite]
  dsimp only
  rw [span, if_neg]
  · rfl
  · simp only [List.length_append, List.length_cons]
    omega

/-- The text of a line that begins with white space is appended. -/
theorem parseLine_folded {p : Piece} (hgap : p.gap ≠ []) (htext : p.text ≠ [])
    (hvalue : value ≠ []) (t : Bytes) :
    parseLine (p.line ++ lineFeed :: t) p.line.length p.cr value table =
      (replaceAfterFind table (value ++ p.text)).map fun table =>
        some (value ++ p.text, table) := by
  obtain ⟨c, u, hcu⟩ := List.exists_cons_of_ne_nil hgap
  have hinp : p.line ++ lineFeed :: t =
      p.gap ++ (p.text ++ (beforeFeed p.cr ++ lineFeed :: t)) := by
    simp [Piece.line]
  have hskip := skipWhite_append (w := []) p.gap_white
    (skipSpace_text htext (beforeFeed p.cr ++ lineFeed :: t))
  rw [List.nil_append, List.length_nil, Nat.zero_add] at hskip
  have hspace : isSpace (peek (p.line ++ lineFeed :: t) 0) := by
    rw [hinp, hcu]
    exact p.gap_white c (by rw [hcu]; exact List.mem_cons_self)
  rw [parseLine, if_pos hspace, if_neg hvalue, hinp, hskip, p.length_line]
  dsimp only
  rw [span_text]
  dsimp only [bind, Option.bind]
  rw [List.take_left]
  cases replaceAfterFind table (value ++ p.text) with
  | none => rfl
  | some t => rfl

end Line

/-! ### The table -/

/-- The bindings after a line with a name. -/
def addTo (m : Bytes → Option Bytes) (name value : Bytes) (cr : Bool) : Bytes → Option Bytes :=
  match m name with
  | none => Function.update m name (some value)
  | some elem =>
      if value = elem then m
      else Function.update m name (some (elem ++ lineEnd cr ++ name ++ [colon, blank]))

/-- The bindings after a field. -/
def afterField (m : Bytes → Option Bytes) (f : Field) : Bytes → Option Bytes :=
  if f.rest = [] then addTo m f.name f.first.text f.first.cr
  else Function.update m f.name (some f.value)

/-- The table keeps the bindings, and its cursor stands on `key`. -/
def KeepsOn (t : UHashMap Bytes) (m : Bytes → Option Bytes) (key : Bytes) : Prop :=
  (∃ chains, Represents t chains m ∧ OnKey t chains key) ∧ t.capacity < 2 ^ 29

section Table

variable {t : UHashMap Bytes} {m : Bytes → Option Bytes}

theorem KeepsOn.keeps {key : Bytes} (h : KeepsOn t m key) : Keeps t m := by
  obtain ⟨⟨chains, hrep, -⟩, hcap⟩ := h
  exact ⟨⟨chains, hrep⟩, hcap⟩

theorem KeepsOn.replace {key : Bytes} (h : KeepsOn t m key) (value : Bytes) :
    ∃ t', replaceAfterFind t value = some t' ∧
      KeepsOn t' (Function.update m key (some value)) key ∧ t'.length = t.length := by
  obtain ⟨⟨chains, hrep, hon⟩, hcap⟩ := h
  obtain ⟨t', chains', hreplace, hrep', hon', hcap', hlength⟩ :=
      replaceAfterFind_spec hrep hon value
  exact ⟨t', hreplace, ⟨⟨chains', hrep', hon'⟩, hcap' ▸ hcap⟩, hlength⟩

theorem addHeader_spec (h : Keeps t m) (hroom : t.length + 1 < 2 ^ 32) (key value : Bytes)
    (cr : Bool) :
    ∃ t', addHeader t key value cr = some t' ∧ KeepsOn t' (addTo m key value cr) key ∧
      t'.length ≤ t.length + 1 := by
  obtain ⟨⟨chains, hrep⟩, hcap⟩ := h
  cases hkey : m key with
  | none =>
      obtain ⟨t₁, hfind, hlookup⟩ := find_absent hrep hkey
      obtain ⟨t', chains', hinsert, hrep', hon, hcap', hlength⟩ :=
        insertAfterFind_spec hrep hlookup value (Or.inr hroom)
      refine ⟨t', ?_, ?_, hlength⟩
      · rw [addHeader, hfind]
        exact hinsert
      · rw [addTo, hkey]
        exact ⟨⟨chains', hrep', hon⟩, hcap' ▸ hcap⟩
  | some elem =>
      obtain ⟨t₁, node, hfind, hsame, hon, hnode, rfl⟩ := find_onKey hrep hkey
      have hkeeps : KeepsOn t₁ m key :=
        ⟨⟨chains, hrep.sameMap hsame, hon⟩, hsame.2.2.2.2 ▸ hcap⟩
      have hlength : t₁.length ≤ t.length + 1 := hsame.2.2.2.1 ▸ Nat.le_succ _
      rw [addHeader, hfind, addTo, hkey]
      dsimp only [bind, Option.bind]
      rw [if_neg (by simp), hnode]
      dsimp only
      split_ifs with heq
      · exact ⟨t₁, rfl, hkeeps, hlength⟩
      · obtain ⟨t', hreplace, hkeeps', hlength'⟩ :=
          hkeeps.replace (node.elem ++ lineEnd cr ++ key ++ [colon, blank])
        exact ⟨t', hreplace, hkeeps', hlength' ▸ hlength⟩

/-- The lines that continue a value. -/
theorem parseLoop_folded {key : Bytes} {pieces : List Piece}
    (hpieces : ∀ p ∈ pieces, p.gap ≠ [] ∧ p.text ≠ []) {value : Bytes} (hvalue : value ≠ [])
    (h : KeepsOn t m key) (n : Nat) (inp : Bytes) :
    ∃ t', parseLoop (n + pieces.length) ((pieces.map Piece.bytes).flatten ++ inp) value t =
        parseLoop n inp (value ++ (pieces.map Piece.text).flatten) t' ∧
      Keeps t' (if pieces = [] then m
        else Function.update m key (some (value ++ (pieces.map Piece.text).flatten))) ∧
      t'.length = t.length := by
  induction pieces generalizing value t m with
  | nil =>
      exact ⟨t, by simp, h.keeps, rfl⟩
  | cons p pieces ih =>
      obtain ⟨hgap, htext⟩ := hpieces p List.mem_cons_self
      obtain ⟨t₁, hreplace, hon, hlength⟩ := h.replace (value ++ p.text)
      obtain ⟨t', hloop, hkeeps, hlength'⟩ :=
        ih (fun r hr => hpieces r (List.mem_cons_of_mem p hr))
          (List.append_ne_nil_of_right_ne_nil value htext) hon
      have hblank : p.line.all isSpace = false := by
        obtain ⟨c, u, hcu⟩ := List.exists_cons_of_ne_nil htext
        have hc := p.text_start c (by rw [hcu]; rfl)
        simp [Piece.line, hcu, hc]
      have hcr : decide (p.line.getLast? = some carriageReturn) = p.cr := by
        refine getLast_line ?_ p.cr
        rw [List.getLast?_append_of_ne_nil _ htext]
        exact p.text_end
      refine ⟨t', ?_, ?_, hlength'.trans hlength⟩
      · rw [List.map_cons, List.flatten_cons, List.append_assoc, Piece.bytes_append,
          List.length_cons, ← Nat.add_assoc, parseLoop_line p.line_oneLine hblank, hcr,
          parseLine_folded hgap htext hvalue, hreplace, List.map_cons, List.flatten_cons,
          ← List.append_assoc, ← hloop]
        rfl
      · rw [if_neg (List.cons_ne_nil p pieces), List.map_cons, List.flatten_cons,
          ← List.append_assoc]
        split_ifs at hkeeps with hnil
        · subst hnil
          rw [List.map_nil, List.flatten_nil, List.append_nil]
          exact hkeeps
        · rwa [Function.update_idem] at hkeeps

theorem Field.bytes_append (f : Field) (t : Bytes) :
    f.bytes ++ t = f.name ++ colon :: f.first.line ++ lineFeed ::
      ((f.rest.map Piece.bytes).flatten ++ t) := by
  rw [Field.bytes, List.append_assoc, List.append_assoc, List.cons_append, Piece.bytes_append,
    List.append_assoc, List.cons_append]

/-- The number of lines -/
def Field.lines (f : Field) : Nat := f.rest.length + 1

theorem Field.not_blank (f : Field) : (f.name ++ colon :: f.first.line).all isSpace = false := by
  have hcolon : isSpace colon = false := by decide
  simp [hcolon]

/-- A field is read, and the table takes it. -/
theorem parseLoop_field {f : Field} (hf : f.first.text ≠ []) (h : Keeps t m)
    (hroom : t.length + 1 < 2 ^ 32) (n : Nat) (inp value : Bytes) :
    ∃ t', parseLoop (n + f.lines) (f.bytes ++ inp) value t = parseLoop n inp f.value t' ∧
      Keeps t' (afterField m f) ∧ t'.length ≤ t.length + 1 := by
  obtain ⟨t₁, hadd, hon, hlength⟩ := addHeader_spec h hroom f.name f.first.text f.first.cr
  obtain ⟨t', hloop, hkeeps, hlength'⟩ := parseLoop_folded f.folded hf hon n inp
  have hcr : decide ((f.name ++ colon :: f.first.line).getLast? = some carriageReturn) =
      f.first.cr := by
    have happend : f.name ++ colon :: f.first.line =
        f.name ++ colon :: f.first.gap ++ f.first.text ++ beforeFeed f.first.cr := by
      simp [Piece.line]
    rw [happend]
    refine getLast_line ?_ f.first.cr
    rw [List.getLast?_append_of_ne_nil _ hf]
    exact f.first.text_end
  refine ⟨t', ?_, ?_, hlength' ▸ hlength⟩
  · rw [f.bytes_append, Field.lines, ← Nat.add_assoc, parseLoop_line f.oneLine f.not_blank, hcr,
      parseLine_field hf, hadd, Field.value, ← hloop]
    rfl
  · rw [afterField]
    split_ifs at hkeeps ⊢ with hnil
    · exact hkeeps
    · have hupdate : ∀ m' : Bytes → Option Bytes, m' = addTo m f.name f.first.text f.first.cr →
          Function.update m' f.name (some f.value) = Function.update m f.name (some f.value) := by
        rintro m' rfl
        rw [addTo]
        split
        · rw [Function.update_idem]
        · split_ifs
          · rfl
          · rw [Function.update_idem]
      rw [← hupdate _ rfl]
      exact hkeeps

theorem parseLoop_empty {f : Field} (hf : f.first.text = []) (n : Nat) (inp value : Bytes) :
    parseLoop (n + 1) (f.bytes ++ inp) value t = none := by
  rw [f.bytes_append, parseLoop_line f.oneLine f.not_blank, parseLine_empty hf]
  rfl

/-- The lines of the fields -/
def lines (fs : List Field) : Nat := (fs.map Field.lines).sum

/-- All fields are read when none of them is empty. -/
theorem parseLoop_fields {fs : List Field} (hfs : ∀ f ∈ fs, f.first.text ≠ []) (h : Keeps t m)
    (hroom : t.length + fs.length < 2 ^ 32) (n : Nat) (inp value : Bytes) :
    ∃ t' value', parseLoop (n + lines fs) ((fs.map Field.bytes).flatten ++ inp) value t =
        parseLoop n inp value' t' ∧ Keeps t' (fs.foldl afterField m) := by
  induction fs generalizing t m value with
  | nil => exact ⟨t, value, rfl, h⟩
  | cons f fs ih =>
      rw [List.length_cons] at hroom
      obtain ⟨t₁, hfield, hkeeps, hlength⟩ :=
        parseLoop_field (hfs f List.mem_cons_self) h (by omega) (n + lines fs)
          ((fs.map Field.bytes).flatten ++ inp) value
      obtain ⟨t', value', hloop, hkeeps'⟩ :=
        ih (fun g hg => hfs g (List.mem_cons_of_mem f hg)) hkeeps (by omega) f.value
      refine ⟨t', value', ?_, hkeeps'⟩
      have hlines : lines (f :: fs) = lines fs + f.lines := by
        rw [lines, List.map_cons, List.sum_cons, Nat.add_comm]
        rfl
      rw [hlines, List.map_cons, List.flatten_cons, List.append_assoc, ← Nat.add_assoc, hfield,
        hloop]

/-- Reading stops where a value is empty. -/
theorem parseLoop_fields_empty {fs : List Field} (hfs : ¬ ∀ f ∈ fs, f.first.text ≠ [])
    (h : Keeps t m) (hroom : t.length + fs.length < 2 ^ 32) (n : Nat) (inp value : Bytes) :
    parseLoop (n + lines fs) ((fs.map Field.bytes).flatten ++ inp) value t = none := by
  induction fs generalizing t m value with
  | nil => exact absurd (by simp) hfs
  | cons f fs ih =>
      rw [List.length_cons] at hroom
      have hlines : n + lines (f :: fs) = n + lines fs + f.lines := by
        rw [lines, List.map_cons, List.sum_cons, ← lines, Nat.add_comm f.lines, Nat.add_assoc]
      rw [hlines, List.map_cons, List.flatten_cons, List.append_assoc]
      by_cases hf : f.first.text = []
      · rw [Field.lines, ← Nat.add_assoc]
        exact parseLoop_empty hf _ _ value
      · obtain ⟨t₁, hfield, hkeeps, hlength⟩ :=
          parseLoop_field hf h (by omega) (n + lines fs) ((fs.map Field.bytes).flatten ++ inp) value
        rw [hfield]
        refine ih ?_ hkeeps (by omega) f.value
        intro hall
        refine hfs fun g hg => ?_
        rcases List.mem_cons.mp hg with rfl | hg
        · exact hf
        · exact hall g hg

end Table

theorem Field.lines_le (f : Field) : f.lines ≤ f.bytes.length := by
  have hpieces : ∀ pieces : List Piece,
      pieces.length ≤ ((pieces.map Piece.bytes).flatten).length := by
    intro pieces
    induction pieces with
    | nil => exact Nat.le_refl 0
    | cons p pieces ih =>
        rw [List.map_cons, List.flatten_cons, List.length_append, List.length_cons, Piece.bytes,
          lineEnd_eq]
        simp only [List.length_append, List.length_singleton]
        omega
  have hrest := hpieces f.rest
  rw [Field.lines, Field.bytes, List.length_append, List.length_append, List.length_cons]
  omega

theorem lines_le (fs : List Field) : lines fs ≤ ((fs.map Field.bytes).flatten).length := by
  induction fs with
  | nil => exact Nat.le_refl 0
  | cons f fs ih =>
      have hf := f.lines_le
      rw [lines, List.map_cons, List.sum_cons, ← lines, List.map_cons, List.flatten_cons,
        List.length_append]
      omega

theorem head_message {cr : Bool} {fs : List Field} (h : fs ≠ [] ∨ cr) :
    (message cr fs).head? ≠ some lineFeed := by
  cases fs with
  | nil =>
      obtain rfl : cr = true := h.resolve_left (by simp)
      decide
  | cons f fs =>
      obtain ⟨c, u, hcu⟩ := List.exists_cons_of_ne_nil f.name_ne
      have hc : c ≠ lineFeed := by
        rintro rfl
        exact absurd (f.name_plain _ (by rw [hcu]; exact List.mem_cons_self)).2 (by decide)
      simp [message, Field.bytes, hcu, hc]

theorem parseLoop_end (n : Nat) (cr : Bool) (value : Bytes) (t : UHashMap Bytes) :
    parseLoop (n + 1) (lineEnd cr) value t = some t := by
  cases cr with
  | true => rfl
  | false => rfl

section Message

variable {cr : Bool} {fs : List Field} {t : UHashMap Bytes} {m : Bytes → Option Bytes}

theorem parse_eq (hhead : fs ≠ [] ∨ cr) (t : UHashMap Bytes) : ∃ n,
    parse (message cr fs) t =
      (parseLoop (n + 1 + lines fs) ((fs.map Field.bytes).flatten ++ lineEnd cr) [] t).map
        fun t' => ((t'.length + 2 ^ 32 - t.length) % 2 ^ 32, t') := by
  have hle := lines_le fs
  have hlength : (message cr fs).length + 1 =
      (message cr fs).length - lines fs + 1 + lines fs := by
    rw [message, List.length_append]
    omega
  refine ⟨(message cr fs).length - lines fs, ?_⟩
  rw [parse, if_neg (head_message hhead), hlength, message]

theorem parse_fields (hhead : fs ≠ [] ∨ cr) (hfs : ∀ f ∈ fs, f.first.text ≠ [])
    (h : Keeps t m) (hroom : t.length + fs.length < 2 ^ 32) :
    ∃ t', parse (message cr fs) t = some ((t'.length + 2 ^ 32 - t.length) % 2 ^ 32, t') ∧
      Keeps t' (fs.foldl afterField m) := by
  obtain ⟨n, hparse⟩ := parse_eq hhead t
  obtain ⟨t', value', hloop, hkeeps⟩ := parseLoop_fields hfs h hroom (n + 1) (lineEnd cr) []
  rw [hparse, hloop, parseLoop_end]
  exact ⟨t', rfl, hkeeps⟩

theorem parse_message_empty (hhead : fs ≠ [] ∨ cr) (hfs : ¬ ∀ f ∈ fs, f.first.text ≠ [])
    (h : Keeps t m) (hroom : t.length + fs.length < 2 ^ 32) : parse (message cr fs) t = none := by
  obtain ⟨n, hparse⟩ := parse_eq hhead t
  rw [hparse, parseLoop_fields_empty hfs h hroom (n + 1) (lineEnd cr) []]
  rfl

end Message

/-! ### Headers of one line -/

/-- A name and a value that stand in one line. -/
structure Plain (e : Bytes × Bytes) : Prop where
  name_ne : e.1 ≠ []
  name_plain : ∀ c ∈ e.1, c ≠ colon ∧ isSpace c = false
  value_line : lineFeed ∉ e.2
  value_start : ∀ c, e.2.head? = some c → isSpace c = false
  value_end : e.2.getLast? ≠ some carriageReturn

def plainField (cr : Bool) (e : Bytes × Bytes) (h : Plain e) : Field where
  name := e.1
  first :=
    { gap := [blank]
      text := e.2
      cr := cr
      gap_space := by decide
      text_line := h.value_line
      text_start := h.value_start
      text_end := h.value_end }
  rest := []
  name_ne := h.name_ne
  name_plain := h.name_plain
  folded := by simp

theorem plainField_bytes (cr : Bool) (e : Bytes × Bytes) (h : Plain e) :
    (plainField cr e h).bytes = e.1 ++ [colon, blank] ++ e.2 ++ lineEnd cr := by
  simp [plainField, Field.bytes, Piece.bytes]

section Plain

variable (cr : Bool) {entries : List (Bytes × Bytes)}

def plainFields (entries : List (Bytes × Bytes)) (h : ∀ e ∈ entries, Plain e) : List Field :=
  entries.pmap (plainField cr) h

theorem message_plain (h : ∀ e ∈ entries, Plain e) :
    message cr (plainFields cr entries h) =
      (entries.map fun e => e.1 ++ [colon, blank] ++ e.2 ++ lineEnd cr).flatten ++ lineEnd cr := by
  rw [message, plainFields, List.map_pmap]
  congr 2
  rw [← List.pmap_eq_map (p := Plain) h]
  exact List.pmap_congr_left _ fun e _ he _ => plainField_bytes cr e he

/-- Fields with names that are new bind what they hold. -/
theorem foldl_plain (h : ∀ e ∈ entries, Plain e) (hkeys : (entries.map Prod.fst).Nodup)
    {m : Bytes → Option Bytes} (hnew : ∀ e ∈ entries, m e.1 = none) :
    (plainFields cr entries h).foldl afterField m = bindAll entries m := by
  induction entries generalizing m with
  | nil => rfl
  | cons e entries ih =>
      rw [List.map_cons, List.nodup_cons] at hkeys
      have hafter : afterField m (plainField cr e (h e List.mem_cons_self)) =
          Function.update m e.1 (some e.2) := by
        have he := hnew e List.mem_cons_self
        simp [afterField, addTo, plainField, he]
      have hrest := ih (fun r hr => h r (List.mem_cons_of_mem e hr)) hkeys.2
        (m := Function.update m e.1 (some e.2)) ?_
      · rw [bindAll, List.foldl_cons, ← bindAll, ← hrest, ← hafter]
        rfl
      · intro r hr
        have hne : r.1 ≠ e.1 := fun heq => hkeys.1 (heq ▸ List.mem_map_of_mem hr)
        rw [Function.update_of_ne hne, hnew r (List.mem_cons_of_mem e hr)]

end Plain

end ULib.MimeHeaderFields
