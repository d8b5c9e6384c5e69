import Mathlib.Data.List.TakeWhile
import ULib.EscapeCoding
import ULib.HashMapRefinement

/-!
`UFileConfig::loadINI` and `UFileConfig::loadProperties` of `file_config.cpp`,
which read a text line by line into a table. The value of a line is kept in a
variable that outlives the line.
-/

namespace ULib.FileConfig

open ULib.KeyComparison
open ULib.HashMap
open ULib.HashMapIteration
open ULib.HashMapOperations
open ULib.HashMapRefinement
open ULib.EscapeCoding (isSpace quote forall_byte)

def lineFeed : UInt8 := '\n'.toUInt8

def carriageReturn : UInt8 := '\r'.toUInt8

def semicolon : UInt8 := ';'.toUInt8

def equals : UInt8 := '='.toUInt8

def colon : UInt8 := ':'.toUInt8

def period : UInt8 := '.'.toUInt8

def hash : UInt8 := '#'.toUInt8

def exclamation : UInt8 := '!'.toUInt8

def openBracket : UInt8 := '['.toUInt8

def closeBracket : UInt8 := ']'.toUInt8

/-! ### The texts -/

/-- `u_skip` without delimiters; the flag says that a comment is skipped, up to the end of its
line. -/
def skip (lineComment : UInt8) : Bool → Bytes → Bytes
  | _, [] => []
  | true, c :: s => skip lineComment (c ≠ lineFeed) s
  | false, c :: s =>
      if isSpace c then skip lineComment false s
      else if c = lineComment then skip lineComment true s
      else c :: s

/-- `u__strpbrk`: what stands in front of the first of the characters, and the text from it on.
With one character it is `memchr`. -/
def strpbrk (accept s : Bytes) : Option (Bytes × Bytes) :=
  if s.dropWhile (· ∉ accept) = [] then none
  else some (s.takeWhile (· ∉ accept), s.dropWhile (· ∉ accept))

def strip (s : Bytes) : Bytes := ((s.dropWhile isSpace).reverse.dropWhile isSpace).reverse

/-- `UStringExt::trim`, which compares the length as an `int32_t`. -/
def trim (s : Bytes) : Bytes := if s.length < 2 ^ 31 then strip s else []

/-- `isQuoted` and `unQuote`; `fresh` is what the buffer of an empty value begins with. With a
quote there, the byte in front of the buffer is read, and that at an offset of 32 bits. -/
def unQuote (fresh : UInt8) (value : Bytes) : Option Bytes :=
  if value = [] then if fresh = quote then none else some []
  else if value.head? = some quote ∧ value.getLast? = some quote then some value.tail.dropLast
  else some value

def fullKey (sectionKey key : Bytes) : Bytes :=
  if sectionKey.length = 0 then key else sectionKey ++ period :: key

/-! ### The loops -/

/-- The loop of `loadINI`, with the variables `sectionKey` and `value`. -/
def loadINILoop : Nat → Bytes → Bytes × Bytes → UHashMap Bytes → Option (UHashMap Bytes)
  | 0, _, _, _ => none
  | fuel + 1, start, (sectionKey, value), table =>
      match skip semicolon false start with
      | [] => some table
      | c :: t =>
          if c = openBracket then
            (strpbrk [closeBracket, lineFeed] t).elim (some table) fun (text, ptr) =>
              loadINILoop fuel ptr.tail (trim text, value) table
          else
            (strpbrk [equals, lineFeed] (c :: t)).elim (some table) fun (text, ptr) =>
              let key := trim text
              if ptr.head? = some equals then
                (strpbrk [lineFeed] ptr.tail).elim (some table) fun (text, ptr) =>
                  let value := trim text
                  (insert table (fullKey sectionKey key) value).bind fun table =>
                    loadINILoop fuel ptr.tail (sectionKey, value) table
              else
                (insert table (fullKey sectionKey key) value).bind fun table =>
                  loadINILoop fuel ptr.tail (sectionKey, value) table

/-- `UFileConfig::loadINI`: the result, and the table -/
def loadINI (text : Bytes) (table : UHashMap Bytes) : Option (Bool × UHashMap Bytes) :=
  (loadINILoop (text.length + 1) text ([], []) table).map fun table =>
    (decide (table.length ≠ 0), table)

section Properties

-- what a fresh buffer begins with, by the length of the text that is left
variable (fresh : Nat → UInt8)

/-- The loop of `loadProperties`, with the variable `value`. -/
def loadPropertiesLoop : Nat → Bytes → Bytes → UHashMap Bytes → Option (UHashMap Bytes)
  | 0, _, _, _ => none
  | _ + 1, [], _, table => some table
  | fuel + 1, c :: t, value, table =>
      if isSpace c then loadPropertiesLoop fuel t value table
      else if c = hash ∨ c = exclamation then
        loadPropertiesLoop fuel ((c :: t).dropWhile (· ≠ lineFeed)) value table
      else
        (strpbrk [equals, colon, carriageReturn, lineFeed] (c :: t)).elim (some table)
          fun (text, ptr) =>
            let key := trim text
            if ptr.head? = some equals ∨ ptr.head? = some colon then
              (strpbrk [lineFeed] ptr.tail).elim (some table) fun (text, end_) =>
                let value := trim text
                let unquoted :=
                  if ptr.head? = some equals then unQuote (fresh ptr.length) value else some value
                unquoted.bind fun value => (insert table key value).bind fun table =>
                  loadPropertiesLoop fuel end_.tail value table
            else
              (insert table key value).bind fun table =>
                loadPropertiesLoop fuel ptr.tail value table

/-- `UFileConfig::loadProperties`: the result, and the table -/
def loadProperties (text : Bytes) (table : UHashMap Bytes) : Option (Bool × UHashMap Bytes) :=
  (loadPropertiesLoop fresh (text.length + 1) text [] table).map fun table =>
    (decide (table.length ≠ 0), table)

end Properties

/-! ### The lines -/

/-- What holds of the byte that may come first is decided by looking at it. -/
local instance (priority := high) decidableForallHead {P : UInt8 → Prop} [DecidablePred P]
    (o : Option UInt8) : Decidable (∀ c ∈ o, P c) :=
  Option.decidableForallMem o

/-- White space, and perhaps a comment behind it -/
def Ignored (comments r : Bytes) : Prop :=
  lineFeed ∉ r ∧ ∀ c ∈ (r.dropWhile isSpace).head?, c ∈ comments

/-- A text in front of one of the stops, which does not begin with one of the marks -/
def KeyText (stops marks key : Bytes) : Prop :=
  (∀ c ∈ key, c ∉ stops) ∧ ∀ c ∈ (key.dropWhile isSpace).head?, c ∉ marks

inductive IniLine where
  | ignored (r : Bytes) (text : Ignored [semicolon] r)
  | header (blanks name rest : Bytes) (front : Ignored [] blanks)
      (section_ : ∀ c ∈ name, c ∉ [closeBracket, lineFeed]) (behind : Ignored [semicolon] rest)
  | assign (key value : Bytes) (front : KeyText [equals, lineFeed] [semicolon, openBracket] key)
      (behind : lineFeed ∉ value)
  | keyOnly (key : Bytes) (front : KeyText [equals, lineFeed] [semicolon, openBracket] key)
      (nonblank : key.dropWhile isSpace ≠ [])

/-- A key alone may end with a carriage return. -/
inductive PropertyLine where
  | ignored (r : Bytes) (text : Ignored [hash, exclamation] r)
  | assign (key : Bytes) (quotes : Bool) (value : Bytes)
      (front : KeyText [equals, colon, carriageReturn, lineFeed] [hash, exclamation] key)
      (behind : lineFeed ∉ value)
  | keyOnly (key : Bytes) (cr : Bool)
      (front : KeyText [equals, colon, carriageReturn, lineFeed] [hash, exclamation] key)
      (nonblank : key.dropWhile isSpace ≠ [])

/-- A text of lines, of which the last one may not be ended -/
def textOf {ℓ : Type} (text : ℓ → Bytes) (lines : List ℓ) (last : Option ℓ) : Bytes :=
  lines.flatMap (fun l => text l ++ [lineFeed]) ++ last.elim [] text

/-- The bindings that lines make, with what they pass on -/
def entriesOf {ℓ σ : Type} (next : σ → ℓ → σ) (entry : σ → ℓ → List (Bytes × Bytes)) :
    σ → List ℓ → List (Bytes × Bytes)
  | _, [] => []
  | s, l :: ls => entry s l ++ entriesOf next entry (next s l) ls

section Reading

-- how a text is trimmed, and whether a key alone takes the value that was read before it
variable (read : Bytes → Bytes) (keeps : Bool)

/-- A value between quotes, without them -/
def unquoted (value : Bytes) : Bytes :=
  if value.head? = some quote ∧ value.getLast? = some quote then value.tail.dropLast else value

namespace IniLine

def text : IniLine → Bytes
  | .ignored r _ => r
  | .header blanks name rest _ _ _ => blanks ++ openBracket :: (name ++ closeBracket :: rest)
  | .assign key value _ _ => key ++ equals :: value
  | .keyOnly key _ _ => key

/-- The section and the value behind a line -/
def next (s : Bytes × Bytes) : IniLine → Bytes × Bytes
  | .ignored _ _ => s
  | .header _ name _ _ _ _ => (read name, s.2)
  | .assign _ value _ _ => (s.1, read value)
  | .keyOnly _ _ _ => s

def entry (s : Bytes × Bytes) : IniLine → List (Bytes × Bytes)
  | .ignored _ _ => []
  | .header _ _ _ _ _ _ => []
  | .assign key value _ _ => [(fullKey s.1 (read (key.dropWhile isSpace)), read value)]
  | .keyOnly key _ _ =>
      [(fullKey s.1 (read (key.dropWhile isSpace)), if keeps then s.2 else [])]

def entries (lines : List IniLine) : List (Bytes × Bytes) :=
  entriesOf (next read) (entry read keeps) ([], []) lines

end IniLine

namespace PropertyLine

def text : PropertyLine → Bytes
  | .ignored r _ => r
  | .assign key quotes value _ _ => key ++ (if quotes then equals else colon) :: value
  | .keyOnly key cr _ _ => key ++ if cr then [carriageReturn] else []

/-- Whether the line is ended without a line feed. -/
def isEnded : PropertyLine → Bool
  | .ignored _ _ => false
  | .assign _ _ _ _ _ => false
  | .keyOnly _ cr _ _ => cr

def value (value : Bytes) : PropertyLine → Bytes
  | .ignored _ _ => value
  | .assign _ quotes value _ _ => if quotes then unquoted (read value) else read value
  | .keyOnly _ _ _ _ => value

def entry (value : Bytes) : PropertyLine → List (Bytes × Bytes)
  | .ignored _ _ => []
  | l@(.assign key _ _ _ _) => [(read (key.dropWhile isSpace), l.value read value)]
  | .keyOnly key _ _ _ => [(read (key.dropWhile isSpace), if keeps then value else [])]

def entries (lines : List PropertyLine) : List (Bytes × Bytes) :=
  entriesOf (value read) (entry read keeps) [] lines

/-- Whether the quotes are looked for in an empty value. -/
def looksBehind : PropertyLine → Prop
  | .ignored _ _ => False
  | .assign _ quotes value _ _ => quotes = true ∧ trim value = []
  | .keyOnly _ _ _ _ => False

end PropertyLine

end Reading

/-- The value of the last entry of a key -/
def lastOf (entries : List (Bytes × Bytes)) : Bytes → Option Bytes := bindAll entries fun _ => none

/-- The table gets the bindings of all lines. -/
def LoadsINI (table : UHashMap Bytes) (lines : List IniLine) (last : Option IniLine) : Prop :=
  ∃ r, loadINI (textOf IniLine.text lines last) table = some r ∧
    Refines r.2 (lastOf (IniLine.entries strip false (lines ++ last.toList)))

/-- The same for properties, whatever fresh buffers begin with -/
def LoadsProperties (table : UHashMap Bytes) (lines : List PropertyLine)
    (last : Option PropertyLine) : Prop :=
  ∀ fresh, ∃ r, loadProperties fresh (textOf PropertyLine.text lines last) table = some r ∧
    Refines r.2 (lastOf (PropertyLine.entries strip false (lines ++ last.toList)))

/-! ### Skipping -/

theorem skip_comment {c : UInt8} {r : Bytes} (hr : lineFeed ∉ r) (t : Bytes) :
    skip c true (r ++ lineFeed :: t) = skip c false t ∧ skip c true r = [] := by
  induction r with
  | nil => exact ⟨rfl, rfl⟩
  | cons d r ih =>
      rw [List.mem_cons, not_or] at hr
      obtain ⟨hd, hr⟩ := hr
      rw [List.cons_append, skip, skip, decide_eq_true (Ne.symm hd)]
      exact ih hr

theorem skip_blanks {c : UInt8} (w t : Bytes) :
    skip c false (w.takeWhile isSpace ++ t) = skip c false t := by
  induction w with
  | nil => rfl
  | cons d w ih =>
      by_cases hd : isSpace d
      · rw [List.takeWhile_cons_of_pos hd, List.cons_append, skip, if_pos hd]
        exact ih
      · rw [List.takeWhile_cons_of_neg hd]
        rfl

theorem skip_dropWhile {c : UInt8} (w t : Bytes) :
    skip c false (w ++ t) = skip c false (w.dropWhile isSpace ++ t) := by
  conv => lhs; rw [← List.takeWhile_append_dropWhile (p := isSpace) (l := w)]
  rw [List.append_assoc, skip_blanks]

theorem not_isSpace_head {w t : Bytes} {c : UInt8} (h : w.dropWhile isSpace = c :: t) :
    isSpace c = false := by
  have hne : w.dropWhile isSpace ≠ [] := by
    rw [h]
    exact List.cons_ne_nil _ _
  have hnot := List.head_dropWhile_not isSpace hne
  simpa only [h, List.head_cons] using hnot

theorem skip_ignored {c : UInt8} {r : Bytes} (hr : Ignored [c] r) (t : Bytes) :
    skip c false (r ++ lineFeed :: t) = skip c false t ∧ skip c false r = [] := by
  obtain ⟨hfeed, hhead⟩ := hr
  have hfeed' : lineFeed ∉ r.dropWhile isSpace :=
    fun h => hfeed ((List.dropWhile_sublist _).subset h)
  have hnil := skip_dropWhile (c := c) r []
  rw [List.append_nil, List.append_nil] at hnil
  rw [skip_dropWhile, hnil]
  cases hrest : r.dropWhile isSpace with
  | nil => exact ⟨rfl, rfl⟩
  | cons d r' =>
      rw [hrest] at hhead hfeed'
      rw [List.mem_cons, not_or] at hfeed'
      obtain rfl := List.mem_singleton.mp (hhead d rfl)
      have hspace : ¬ isSpace d = true := by
        rw [not_isSpace_head hrest]
        exact Bool.false_ne_true
      obtain ⟨hcomment, hend⟩ := skip_comment (c := d) hfeed'.2 t
      rw [List.cons_append, skip, skip, if_neg hspace, if_neg hspace, if_pos rfl, if_pos rfl]
      exact ⟨hcomment, hend⟩

theorem strpbrk_append {accept w : Bytes} (hw : ∀ c ∈ w, c ∉ accept) {d : UInt8}
    (hd : d ∈ accept) (t : Bytes) : strpbrk accept (w ++ d :: t) = some (w, d :: t) := by
  have hall : ∀ c ∈ w, (decide (c ∉ accept)) = true := fun c hc => decide_eq_true (hw c hc)
  have hnot : ¬ (decide (d ∉ accept)) = true := by simpa using hd
  rw [strpbrk, List.dropWhile_append_of_pos hall, List.takeWhile_append_of_pos hall,
    List.dropWhile_cons_of_neg (p := fun c => decide (c ∉ accept)) hnot,
    List.takeWhile_cons_of_neg (p := fun c => decide (c ∉ accept)) hnot, List.append_nil]
  exact if_neg (List.cons_ne_nil _ _)

theorem strpbrk_none {accept w : Bytes} (hw : ∀ c ∈ w, c ∉ accept) : strpbrk accept w = none := by
  rw [strpbrk, if_pos]
  rw [List.dropWhile_eq_nil_iff]
  exact fun c hc => decide_eq_true (hw c hc)

theorem not_lineFeed {w : Bytes} (hw : lineFeed ∉ w) : ∀ c ∈ w, c ∉ [lineFeed] := by
  intro c hc hmem
  rw [List.mem_singleton] at hmem
  rw [hmem] at hc
  exact hw hc

/-! ### Insertions -/

def insertEntries (table : UHashMap Bytes) (entries : List (Bytes × Bytes)) :
    Option (UHashMap Bytes) :=
  entries.foldlM (fun t e => insert t e.1 e.2) table

theorem insertEntries_spec {entries : List (Bytes × Bytes)} {t : UHashMap Bytes}
    {m : Bytes → Option Bytes} (ht : Keeps t m) (hroom : t.length + entries.length < 2 ^ 32) :
    ∃ t', insertEntries t entries = some t' ∧ Keeps t' (bindAll entries m) := by
  induction entries generalizing t m with
  | nil => exact ⟨t, rfl, ht⟩
  | cons e entries ih =>
      rw [List.length_cons] at hroom
      obtain ⟨⟨chains, hrep⟩, hcap⟩ := ht
      obtain ⟨t₁, chains₁, hinsert, hrep₁, hcap₁, hlength⟩ :=
        insert_spec hrep e.1 e.2 (Or.inr (by omega))
      obtain ⟨t', hrest, hkeeps⟩ := ih ⟨⟨chains₁, hrep₁⟩, hcap₁ ▸ hcap⟩ (by omega)
      refine ⟨t', ?_, hkeeps⟩
      rw [insertEntries, List.foldlM_cons, hinsert]
      exact hrest

theorem insertEntries_append (t : UHashMap Bytes) (a b : List (Bytes × Bytes)) :
    insertEntries t (a ++ b) = (insertEntries t a).bind fun t => insertEntries t b :=
  List.foldlM_append

theorem insertEntries_single (t : UHashMap Bytes) (key value : Bytes) :
    insertEntries t [(key, value)] = insert t key value := by
  rw [insertEntries, List.foldlM_cons]
  exact Option.bind_fun_some _

/-- A table holds one map. -/
theorem keeps_unique {t : UHashMap Bytes} {m m' : Bytes → Option Bytes} (h : Keeps t m)
    (h' : Refines t m') : m = m' := by
  funext key
  obtain ⟨t₁, hat⟩ := (refines_of_keeps h).lookup_eq key
  obtain ⟨t₂, hat'⟩ := h'.lookup_eq key
  rw [hat] at hat'
  exact congrArg Prod.fst (Option.some.inj hat')

section Run

variable {ℓ σ : Type} {loop : Nat → Bytes → σ → UHashMap Bytes → Option (UHashMap Bytes)}
  {text : ℓ → Bytes} {next : σ → ℓ → σ} {entry : σ → ℓ → List (Bytes × Bytes)}

/-- What a loop does for an ended line in front of a text -/
def ReadsLine (loop : Nat → Bytes → σ → UHashMap Bytes → Option (UHashMap Bytes))
    (text : ℓ → Bytes) (next : σ → ℓ → σ) (entry : σ → ℓ → List (Bytes × Bytes)) (l : ℓ) : Prop :=
  ∀ fuel rest, (text l ++ lineFeed :: rest).length < fuel →
    ∃ fuel', rest.length < fuel' ∧ ∀ s t, loop fuel (text l ++ lineFeed :: rest) s t =
      (insertEntries t (entry s l)).bind (loop fuel' rest (next s l))

/-- A loop that reads each line reads all of them. -/
theorem run_lines {lines : List ℓ} (hlines : ∀ l ∈ lines, ReadsLine loop text next entry l)
    {fuel : Nat} (rest : Bytes)
    (hfuel : (lines.flatMap (fun l => text l ++ [lineFeed]) ++ rest).length < fuel) :
    ∃ fuel', rest.length < fuel' ∧
      ∀ s t, loop fuel (lines.flatMap (fun l => text l ++ [lineFeed]) ++ rest) s t =
        (insertEntries t (entriesOf next entry s lines)).bind
          (loop fuel' rest (lines.foldl next s)) := by
  induction lines generalizing fuel with
  | nil => exact ⟨fuel, hfuel, fun s t => rfl⟩
  | cons l lines ih =>
      have htext : (l :: lines).flatMap (fun l => text l ++ [lineFeed]) ++ rest =
          text l ++ lineFeed :: (lines.flatMap (fun l => text l ++ [lineFeed]) ++ rest) := by
        simp
      rw [htext] at hfuel ⊢
      obtain ⟨fuel₁, hfuel₁, hline⟩ := hlines l List.mem_cons_self fuel _ hfuel
      obtain ⟨fuel₂, hfuel₂, hrest⟩ := ih (fun l hl => hlines l (List.mem_cons_of_mem _ hl)) hfuel₁
      refine ⟨fuel₂, hfuel₂, fun s t => ?_⟩
      rw [hline, entriesOf, insertEntries_append, Option.bind_assoc, List.foldl_cons]
      exact congrArg _ (funext fun t => hrest (next s l) t)

end Run

/-! ### The lines of loadINI -/

theorem loadINILoop_skip {fuel : Nat} {start start' : Bytes} (s : Bytes × Bytes)
    (t : UHashMap Bytes) (h : skip semicolon false start = skip semicolon false start') :
    loadINILoop (fuel + 1) start s t = loadINILoop (fuel + 1) start' s t := by
  rw [loadINILoop, loadINILoop, h]

/-- The text of a key is neither skipped nor taken for something else. -/
theorem key_head {stops marks key tail : Bytes} (hkey : KeyText stops marks key)
    (htail : key.dropWhile isSpace = [] →
      ∃ d r, tail = d :: r ∧ isSpace d = false ∧ d ∉ marks) :
    ∃ e u, key.dropWhile isSpace ++ tail = e :: u ∧ isSpace e = false ∧ e ∉ marks := by
  cases hdrop : key.dropWhile isSpace with
  | nil =>
      obtain ⟨d, r, rfl, hspace, hmarks⟩ := htail hdrop
      exact ⟨d, r, rfl, hspace, hmarks⟩
  | cons e u => exact ⟨e, u ++ tail, rfl, not_isSpace_head hdrop, hkey.2 e (by rw [hdrop]; rfl)⟩

theorem forall_mem_dropWhile {P : UInt8 → Prop} {w : Bytes} (h : ∀ c ∈ w, P c) :
    ∀ c ∈ w.dropWhile isSpace, P c :=
  fun c hc => h c ((List.dropWhile_sublist _).subset hc)

/-- A turn that reads a key: the text may end before a separator is found, or before the value
does, and the key may be alone. -/
theorem loadINILoop_key {fuel : Nat} {key tail : Bytes}
    (hkey : KeyText [equals, lineFeed] [semicolon, openBracket] key)
    (htail : key.dropWhile isSpace = [] → tail.head? = some equals) (s : Bytes × Bytes)
    (t : UHashMap Bytes) :
    (strpbrk [equals, lineFeed] (key.dropWhile isSpace ++ tail) = none →
      loadINILoop (fuel + 1) (key ++ tail) s t = some t) ∧
    ∀ text ptr, strpbrk [equals, lineFeed] (key.dropWhile isSpace ++ tail) = some (text, ptr) →
      (ptr.head? ≠ some equals → loadINILoop (fuel + 1) (key ++ tail) s t =
        (insert t (fullKey s.1 (trim text)) s.2).bind (loadINILoop fuel ptr.tail s)) ∧
      (ptr.head? = some equals → strpbrk [lineFeed] ptr.tail = none →
        loadINILoop (fuel + 1) (key ++ tail) s t = some t) ∧
      ∀ text' ptr', ptr.head? = some equals → strpbrk [lineFeed] ptr.tail = some (text', ptr') →
        loadINILoop (fuel + 1) (key ++ tail) s t =
          (insert t (fullKey s.1 (trim text)) (trim text')).bind
            (loadINILoop fuel ptr'.tail (s.1, trim text')) := by
  obtain ⟨e, u, heq, hspace, hmarks⟩ := @key_head _ _ key tail hkey fun hnil => by
    obtain ⟨r, hr⟩ := List.head?_eq_some_iff.mp (htail hnil)
    exact ⟨equals, r, hr, by decide, by decide⟩
  have hskip : skip semicolon false (key ++ tail) = e :: u := by
    rw [skip_dropWhile, heq, skip, if_neg (by rw [hspace]; exact Bool.false_ne_true), if_neg]
    rintro rfl
    exact hmarks (by decide)
  have hbracket : e ≠ openBracket := by
    rintro rfl
    exact hmarks (by decide)
  rw [heq, loadINILoop, hskip]
  dsimp only
  rw [if_neg hbracket]
  refine ⟨fun hnone => by rw [hnone]; rfl, fun text ptr hsome => ?_⟩
  rw [hsome]
  refine ⟨fun hne => if_neg hne, fun heq hnone => ?_, fun text' ptr' heq hvalue => ?_⟩
  · refine (if_pos heq).trans ?_
    rw [hnone]
    rfl
  · refine (if_pos heq).trans ?_
    rw [hvalue]
    rfl

/-- A turn that reads a section -/
theorem loadINILoop_header {fuel : Nat} {blanks name : Bytes} (hblanks : Ignored [] blanks)
    (hname : ∀ c ∈ name, c ∉ [closeBracket, lineFeed]) (tail : Bytes) (s : Bytes × Bytes)
    (t : UHashMap Bytes) :
    loadINILoop (fuel + 1) (blanks ++ openBracket :: (name ++ closeBracket :: tail)) s t =
      loadINILoop fuel tail (trim name, s.2) t := by
  have hblank : blanks.dropWhile isSpace = [] := by
    cases hdrop : blanks.dropWhile isSpace with
    | nil => rfl
    | cons d u => exact absurd (hblanks.2 d (by rw [hdrop]; rfl)) List.not_mem_nil
  have hbracket := strpbrk_append hname (by decide : closeBracket ∈ [closeBracket, lineFeed]) tail
  have hskip : ∀ u, skip semicolon false (blanks ++ openBracket :: u) = openBracket :: u := by
    intro u
    rw [skip_dropWhile, hblank]
    rfl
  rw [loadINILoop, hskip]
  dsimp only
  rw [if_pos rfl, hbracket]
  rfl

theorem ini_readsLine (l : IniLine) :
    ReadsLine loadINILoop IniLine.text (IniLine.next trim) (IniLine.entry trim true) l := by
  intro fuel rest hfuel
  obtain ⟨fuel, rfl⟩ := Nat.exists_eq_succ_of_ne_zero (show fuel ≠ 0 by omega)
  rw [List.length_append, List.length_cons] at hfuel
  cases l with
  | ignored r text =>
      refine ⟨fuel + 1, by omega, fun s t => ?_⟩
      exact loadINILoop_skip s t (skip_ignored text rest).1
  | header blanks name rest' front section_ behind =>
      rw [IniLine.text, List.length_append, List.length_cons, List.length_append,
        List.length_cons] at hfuel
      obtain ⟨fuel, rfl⟩ := Nat.exists_eq_succ_of_ne_zero (show fuel ≠ 0 by omega)
      refine ⟨fuel + 1, by omega, fun s t => ?_⟩
      rw [IniLine.text, List.append_assoc, List.cons_append, List.append_assoc, List.cons_append,
        loadINILoop_header front section_]
      exact loadINILoop_skip (trim name, s.2) t (skip_ignored behind rest).1
  | assign key value front behind =>
      refine ⟨fuel, ?_, fun s t => ?_⟩
      · rw [IniLine.text, List.length_append, List.length_cons] at hfuel
        omega
      · have hkey := strpbrk_append (forall_mem_dropWhile front.1)
          (by decide : equals ∈ [equals, lineFeed]) (value ++ lineFeed :: rest)
        have hvalue := strpbrk_append (not_lineFeed behind) (List.mem_singleton.mpr rfl) rest
        have hturn := ((@loadINILoop_key fuel key _ front (fun _ => rfl) s t).2 _ _ hkey).2.2 _ _
          rfl hvalue
        rw [IniLine.text, List.append_assoc, List.cons_append, hturn, IniLine.entry,
          insertEntries_single]
        rfl
  | keyOnly key front nonblank =>
      refine ⟨fuel, ?_, fun s t => ?_⟩
      · omega
      · have hkey := strpbrk_append (forall_mem_dropWhile front.1)
          (by decide : lineFeed ∈ [equals, lineFeed]) rest
        have hne : ¬ (lineFeed :: rest).head? = some equals := by
          rw [List.head?_cons]
          decide
        have hturn := ((@loadINILoop_key fuel key _ front (fun h => absurd h nonblank) s t).2 _ _
          hkey).1 hne
        rw [IniLine.text, hturn, IniLine.entry, insertEntries_single]
        rfl

/-- What is left without a line feed at its end gives no binding. -/
theorem ini_last (l : IniLine) {fuel : Nat} (hfuel : l.text.length < fuel) (s : Bytes × Bytes)
    (t : UHashMap Bytes) : loadINILoop fuel l.text s t = some t := by
  obtain ⟨fuel, rfl⟩ := Nat.exists_eq_succ_of_ne_zero (show fuel ≠ 0 by omega)
  cases l with
  | ignored r text =>
      rw [IniLine.text, loadINILoop, (skip_ignored text []).2]
  | header blanks name rest' front section_ behind =>
      rw [IniLine.text, List.length_append, List.length_cons, List.length_append,
        List.length_cons] at hfuel
      obtain ⟨fuel, rfl⟩ := Nat.exists_eq_succ_of_ne_zero (show fuel ≠ 0 by omega)
      rw [IniLine.text, loadINILoop_header front section_, loadINILoop, (skip_ignored behind []).2]
  | assign key value front behind =>
      have hkey := strpbrk_append (forall_mem_dropWhile front.1)
        (by decide : equals ∈ [equals, lineFeed]) value
      have hvalue := strpbrk_none (not_lineFeed behind)
      exact ((loadINILoop_key front (fun _ => rfl) s t).2 _ _ hkey).2.1 rfl hvalue
  | keyOnly key front nonblank =>
      have hkey := strpbrk_none (forall_mem_dropWhile front.1)
      have hturn := (@loadINILoop_key fuel key [] front (fun h => absurd h nonblank) s t).1
      rw [List.append_nil, List.append_nil] at hturn
      exact hturn hkey

/-! ### The lines of loadProperties -/

section Properties

variable {fresh : Nat → UInt8}

theorem loadPropertiesLoop_blanks (w tail : Bytes) {fuel : Nat}
    (hfuel : (w ++ tail).length < fuel) :
    ∃ fuel', (w.dropWhile isSpace ++ tail).length < fuel' ∧ ∀ value t,
      loadPropertiesLoop fresh fuel (w ++ tail) value t =
        loadPropertiesLoop fresh fuel' (w.dropWhile isSpace ++ tail) value t := by
  induction w generalizing fuel with
  | nil => exact ⟨fuel, hfuel, fun value t => rfl⟩
  | cons c w ih =>
      by_cases hc : isSpace c
      · rw [List.cons_append, List.length_cons] at hfuel
        obtain ⟨fuel, rfl⟩ := Nat.exists_eq_succ_of_ne_zero (show fuel ≠ 0 by omega)
        obtain ⟨fuel', hfuel', hrest⟩ := ih (Nat.lt_of_succ_lt_succ hfuel)
        rw [List.dropWhile_cons_of_pos hc]
        refine ⟨fuel', hfuel', fun value t => ?_⟩
        rw [List.cons_append, loadPropertiesLoop, if_pos hc]
        exact hrest value t
      · rw [List.dropWhile_cons_of_neg hc]
        exact ⟨fuel, hfuel, fun value t => rfl⟩

/-- A line that is ignored, in front of nothing or of a line feed -/
theorem loadPropertiesLoop_ignored {r : Bytes} (hr : Ignored [hash, exclamation] r) {tail : Bytes}
    (htail : tail = [] ∨ ∃ rest, tail = lineFeed :: rest) {fuel : Nat}
    (hfuel : (r ++ tail).length < fuel) :
    ∃ fuel', tail.length < fuel' ∧ ∀ value t,
      loadPropertiesLoop fresh fuel (r ++ tail) value t =
        loadPropertiesLoop fresh fuel' tail value t := by
  obtain ⟨fuel', hfuel', hblanks⟩ := @loadPropertiesLoop_blanks fresh r tail fuel hfuel
  cases hdrop : r.dropWhile isSpace with
  | nil =>
      rw [hdrop] at hfuel' hblanks
      exact ⟨fuel', hfuel', hblanks⟩
  | cons c u =>
      rw [hdrop] at hfuel' hblanks
      rw [List.cons_append, List.length_cons, List.length_append] at hfuel'
      obtain ⟨fuel', rfl⟩ := Nat.exists_eq_succ_of_ne_zero (show fuel' ≠ 0 by omega)
      have hmark : c = hash ∨ c = exclamation := by
        have hmem := hr.2 c (by rw [hdrop]; rfl)
        simpa using hmem
      have hall : ∀ d ∈ c :: u, decide (d ≠ lineFeed) = true := by
        intro d hd
        rw [decide_eq_true_eq]
        rintro rfl
        exact hr.1 ((List.dropWhile_sublist _).subset (hdrop ▸ hd))
      have hline : ((c :: u) ++ tail).dropWhile (· ≠ lineFeed) = tail := by
        rw [List.dropWhile_append_of_pos hall]
        rcases htail with rfl | ⟨rest, rfl⟩
        · rfl
        · exact List.dropWhile_cons_of_neg (by simp)
      refine ⟨fuel', by omega, fun value t => ?_⟩
      rw [hblanks, List.cons_append, loadPropertiesLoop,
        if_neg (by rw [not_isSpace_head hdrop]; exact Bool.false_ne_true), if_pos hmark,
        ← List.cons_append, hline]

/-- A turn that reads a key, behind the white space in front of it -/
theorem loadPropertiesLoop_key {key tail : Bytes}
    (hkey : KeyText [equals, colon, carriageReturn, lineFeed] [hash, exclamation] key)
    (htail : key.dropWhile isSpace = [] →
      ∃ d r, tail = d :: r ∧ isSpace d = false ∧ d ∉ [hash, exclamation]) {fuel : Nat}
    (hfuel : (key ++ tail).length < fuel) :
    ∃ fuel', tail.length ≤ fuel' ∧ ∀ value t,
      (strpbrk [equals, colon, carriageReturn, lineFeed] (key.dropWhile isSpace ++ tail) = none →
        loadPropertiesLoop fresh fuel (key ++ tail) value t = some t) ∧
      ∀ text ptr, strpbrk [equals, colon, carriageReturn, lineFeed]
          (key.dropWhile isSpace ++ tail) = some (text, ptr) →
        (¬ (ptr.head? = some equals ∨ ptr.head? = some colon) →
          loadPropertiesLoop fresh fuel (key ++ tail) value t =
            (insert t (trim text) value).bind (loadPropertiesLoop fresh fuel' ptr.tail value)) ∧
        (ptr.head? = some equals ∨ ptr.head? = some colon → strpbrk [lineFeed] ptr.tail = none →
          loadPropertiesLoop fresh fuel (key ++ tail) value t = some t) ∧
        ∀ text' ptr', ptr.head? = some equals ∨ ptr.head? = some colon →
          strpbrk [lineFeed] ptr.tail = some (text', ptr') →
          loadPropertiesLoop fresh fuel (key ++ tail) value t =
            (if ptr.head? = some equals then unQuote (fresh ptr.length) (trim text')
              else some (trim text')).bind fun value =>
                (insert t (trim text) value).bind
                  (loadPropertiesLoop fresh fuel' ptr'.tail value) := by
  obtain ⟨fuel', hfuel', hblanks⟩ := @loadPropertiesLoop_blanks fresh key tail fuel hfuel
  obtain ⟨e, u, heq, hspace, hmarks⟩ := key_head hkey htail
  rw [List.length_append] at hfuel'
  obtain ⟨fuel', rfl⟩ := Nat.exists_eq_succ_of_ne_zero (show fuel' ≠ 0 by omega)
  have hmark : ¬ (e = hash ∨ e = exclamation) := by simpa using hmarks
  refine ⟨fuel', by omega, fun value t => ?_⟩
  rw [hblanks, heq, loadPropertiesLoop, if_neg (by rw [hspace]; exact Bool.false_ne_true),
    if_neg hmark]
  refine ⟨fun hnone => by rw [hnone]; rfl, fun text ptr hsome => ?_⟩
  rw [hsome]
  refine ⟨fun hne => if_neg hne, fun heq hnone => ?_, fun text' ptr' heq hvalue => ?_⟩
  · refine (if_pos heq).trans ?_
    rw [hnone]
    rfl
  · refine (if_pos heq).trans ?_
    rw [hvalue]
    rfl

theorem unQuote_eq {value : Bytes} (h : value ≠ []) (c : UInt8) :
    unQuote c value = some (unquoted value) := by
  rw [unQuote, if_neg h, unquoted]
  split_ifs <;> rfl

theorem loadPropertiesLoop_assign {key text : Bytes} {quotes : Bool}
    (front : KeyText [equals, colon, carriageReturn, lineFeed] [hash, exclamation] key)
    (behind : lineFeed ∉ text) {fuel : Nat} {rest : Bytes}
    (hfuel : ((PropertyLine.assign key quotes text front behind).text ++
      lineFeed :: rest).length < fuel) :
    ∃ fuel' n, rest.length < fuel' ∧ ∀ value t,
      loadPropertiesLoop fresh fuel
          ((PropertyLine.assign key quotes text front behind).text ++ lineFeed :: rest) value t =
        (if quotes then unQuote (fresh n) (trim text) else some (trim text)).bind fun value =>
          (insert t (trim (key.dropWhile isSpace)) value).bind
            (loadPropertiesLoop fresh fuel' rest value) := by
  have hline : (PropertyLine.assign key quotes text front behind).text ++ lineFeed :: rest =
      key ++ (if quotes then equals else colon) :: (text ++ lineFeed :: rest) := by
    rw [PropertyLine.text, List.append_assoc, List.cons_append]
  rw [hline] at hfuel ⊢
  obtain ⟨fuel', hfuel', hturn⟩ := @loadPropertiesLoop_key fresh key _ front
    (fun _ => ⟨_, _, rfl, by cases quotes <;> decide, by cases quotes <;> decide⟩) fuel hfuel
  rw [List.length_cons, List.length_append, List.length_cons] at hfuel'
  have hvalue := strpbrk_append (not_lineFeed behind) (List.mem_singleton.mpr rfl) rest
  cases quotes with
  | true =>
      have hkey := strpbrk_append (forall_mem_dropWhile front.1)
        (by decide : equals ∈ [equals, colon, carriageReturn, lineFeed]) (text ++ lineFeed :: rest)
      refine ⟨fuel', (equals :: (text ++ lineFeed :: rest)).length, by omega, fun value t => ?_⟩
      exact ((hturn value t).2 _ _ hkey).2.2 _ _ (.inl rfl) hvalue
  | false =>
      have hkey := strpbrk_append (forall_mem_dropWhile front.1)
        (by decide : colon ∈ [equals, colon, carriageReturn, lineFeed]) (text ++ lineFeed :: rest)
      refine ⟨fuel', 0, by omega, fun value t => ?_⟩
      exact ((hturn value t).2 _ _ hkey).2.2 _ _ (.inr rfl) hvalue

theorem loadPropertiesLoop_keyOnly {key : Bytes}
    (front : KeyText [equals, colon, carriageReturn, lineFeed] [hash, exclamation] key)
    (nonblank : key.dropWhile isSpace ≠ []) {c : UInt8} (hc : c = carriageReturn ∨ c = lineFeed)
    {fuel : Nat} {rest : Bytes} (hfuel : (key ++ c :: rest).length < fuel) :
    ∃ fuel', rest.length < fuel' ∧ ∀ value t,
      loadPropertiesLoop fresh fuel (key ++ c :: rest) value t =
        (insert t (trim (key.dropWhile isSpace)) value).bind
          (loadPropertiesLoop fresh fuel' rest value) := by
  obtain ⟨fuel', hfuel', hturn⟩ := @loadPropertiesLoop_key fresh key _ front
    (fun h => absurd h nonblank) fuel hfuel
  have hstop : c ∈ [equals, colon, carriageReturn, lineFeed] := by
    rcases hc with rfl | rfl <;> decide
  have hne : ¬ (some c = some equals ∨ some c = some colon) := by
    rcases hc with rfl | rfl <;> decide
  have hkey := strpbrk_append (forall_mem_dropWhile front.1) hstop rest
  exact ⟨fuel', hfuel', fun value t => ((hturn value t).2 _ _ hkey).1 hne⟩

theorem property_readsLine {l : PropertyLine} (hl : ¬ l.looksBehind) :
    ReadsLine (loadPropertiesLoop fresh) PropertyLine.text (PropertyLine.value trim)
      (PropertyLine.entry trim true) l := by
  intro fuel rest hfuel
  cases l with
  | ignored r text =>
      obtain ⟨fuel', hfuel', hignored⟩ :=
        @loadPropertiesLoop_ignored fresh r text (lineFeed :: rest) (.inr ⟨rest, rfl⟩) fuel hfuel
      rw [List.length_cons] at hfuel'
      obtain ⟨fuel', rfl⟩ := Nat.exists_eq_succ_of_ne_zero (show fuel' ≠ 0 by omega)
      refine ⟨fuel', by omega, fun value t => ?_⟩
      exact hignored value t
  | assign key quotes text front behind =>
      obtain ⟨fuel', n, hfuel', hline⟩ :=
        @loadPropertiesLoop_assign fresh key text quotes front behind fuel rest hfuel
      refine ⟨fuel', hfuel', fun value t => ?_⟩
      have hvalue : (if quotes then unQuote (fresh n) (trim text) else some (trim text)) =
          some (if quotes then unquoted (trim text) else trim text) := by
        cases quotes with
        | true => exact unQuote_eq (fun hnil => hl ⟨rfl, hnil⟩) (fresh n)
        | false => rfl
      rw [hline, hvalue, PropertyLine.entry, insertEntries_single]
      rfl
  | keyOnly key cr front nonblank =>
      cases cr with
      | true =>
          have hline : (PropertyLine.keyOnly key true front nonblank).text ++ lineFeed :: rest =
              key ++ carriageReturn :: lineFeed :: rest := by
            simp [PropertyLine.text]
          rw [hline] at hfuel ⊢
          obtain ⟨fuel', hfuel', hturn⟩ :=
            @loadPropertiesLoop_keyOnly fresh key front nonblank _ (.inl rfl) fuel _ hfuel
          rw [List.length_cons] at hfuel'
          obtain ⟨fuel', rfl⟩ := Nat.exists_eq_succ_of_ne_zero (show fuel' ≠ 0 by omega)
          refine ⟨fuel', by omega, fun value t => ?_⟩
          rw [hturn, PropertyLine.entry, insertEntries_single]
          rfl
      | false =>
          have hline : (PropertyLine.keyOnly key false front nonblank).text ++ lineFeed :: rest =
              key ++ lineFeed :: rest := by
            simp [PropertyLine.text]
          rw [hline] at hfuel ⊢
          obtain ⟨fuel', hfuel', hturn⟩ :=
            @loadPropertiesLoop_keyOnly fresh key front nonblank _ (.inr rfl) fuel _ hfuel
          refine ⟨fuel', hfuel', fun value t => ?_⟩
          rw [hturn, PropertyLine.entry, insertEntries_single]
          rfl

/-- With a quote in a fresh buffer, an empty value between separator and line feed is not read. -/
theorem loadPropertiesLoop_looksBehind {l : PropertyLine} (hl : l.looksBehind) {fuel : Nat}
    {rest : Bytes} (hfuel : (l.text ++ lineFeed :: rest).length < fuel) (value : Bytes)
    (t : UHashMap Bytes) :
    loadPropertiesLoop (fun _ => quote) fuel (l.text ++ lineFeed :: rest) value t = none := by
  cases l with
  | ignored r text => exact hl.elim
  | assign key quotes text front behind =>
      obtain ⟨rfl, hnil⟩ := hl
      obtain ⟨fuel', n, -, hline⟩ :=
        @loadPropertiesLoop_assign (fun _ => quote) key text true front behind fuel rest hfuel
      rw [hline, if_pos rfl, hnil]
      rfl
  | keyOnly key cr front nonblank => exact hl.elim

/-- The last line, without a line feed -/
theorem property_last (l : PropertyLine) {fuel : Nat} (hfuel : l.text.length < fuel)
    (value : Bytes) (t : UHashMap Bytes) :
    loadPropertiesLoop fresh fuel l.text value t =
      insertEntries t (if l.isEnded then l.entry trim true value else []) := by
  cases l with
  | ignored r text =>
      obtain ⟨fuel', hfuel', hignored⟩ :=
        @loadPropertiesLoop_ignored fresh r text [] (.inl rfl) fuel
          (by rw [List.append_nil]; exact hfuel)
      obtain ⟨fuel', rfl⟩ := Nat.exists_eq_succ_of_ne_zero (show fuel' ≠ 0 by omega)
      rw [List.append_nil] at hignored
      exact hignored value t
  | assign key quotes text front behind =>
      have hsep : (if quotes then equals else colon) ∈
          [equals, colon, carriageReturn, lineFeed] := by
        cases quotes <;> decide
      obtain ⟨fuel', -, hturn⟩ := @loadPropertiesLoop_key fresh key _ front
        (fun _ => ⟨_, _, rfl, by cases quotes <;> decide, by cases quotes <;> decide⟩) fuel hfuel
      have hkey := strpbrk_append (forall_mem_dropWhile front.1) hsep text
      have hvalue := strpbrk_none (not_lineFeed behind)
      refine ((hturn value t).2 _ _ hkey).2.1 ?_ hvalue
      cases quotes with
      | true => exact .inl rfl
      | false => exact .inr rfl
  | keyOnly key cr front nonblank =>
      cases cr with
      | true =>
          have hline : (PropertyLine.keyOnly key true front nonblank).text =
              key ++ carriageReturn :: [] := by
            simp [PropertyLine.text]
          rw [hline] at hfuel ⊢
          obtain ⟨fuel', hfuel', hturn⟩ :=
            @loadPropertiesLoop_keyOnly fresh key front nonblank _ (.inl rfl) fuel _ hfuel
          obtain ⟨fuel', rfl⟩ := Nat.exists_eq_succ_of_ne_zero (show fuel' ≠ 0 by omega)
          rw [hturn, PropertyLine.isEnded, if_pos rfl, PropertyLine.entry, insertEntries_single]
          exact Option.bind_fun_some _
      | false =>
          obtain ⟨fuel', -, hturn⟩ := @loadPropertiesLoop_key fresh key [] front
            (fun h => absurd h nonblank) fuel (by simpa [PropertyLine.text] using hfuel)
          have hkey := strpbrk_none (forall_mem_dropWhile front.1)
          rw [List.append_nil] at hturn
          exact (hturn value t).1 hkey

/-- One such line is enough. -/
theorem run_looksBehind {lines : List PropertyLine} (h : ∃ l ∈ lines, l.looksBehind) {fuel : Nat}
    (rest : Bytes)
    (hfuel : (lines.flatMap (fun l => l.text ++ [lineFeed]) ++ rest).length < fuel)
    (value : Bytes) (t : UHashMap Bytes) :
    loadPropertiesLoop (fun _ => quote) fuel
      (lines.flatMap (fun l => l.text ++ [lineFeed]) ++ rest) value t = none := by
  induction lines generalizing fuel value t with
  | nil =>
      obtain ⟨l, hl, -⟩ := h
      exact absurd hl List.not_mem_nil
  | cons l lines ih =>
      have htext : (l :: lines).flatMap (fun l => l.text ++ [lineFeed]) ++ rest =
          l.text ++ lineFeed :: (lines.flatMap (fun l => l.text ++ [lineFeed]) ++ rest) := by
        simp
      rw [htext] at hfuel ⊢
      by_cases hl : l.looksBehind
      · exact loadPropertiesLoop_looksBehind hl hfuel value t
      · have hmore : ∃ l ∈ lines, l.looksBehind := by
          obtain ⟨d, hd, hlooks⟩ := h
          rcases List.mem_cons.mp hd with rfl | hd
          · exact absurd hlooks hl
          · exact ⟨d, hd, hlooks⟩
        obtain ⟨fuel', hfuel', hline⟩ := property_readsLine hl fuel _ hfuel
        rw [hline, Option.bind_eq_none_iff]
        exact fun t _ => ih hmore hfuel' _ t

end Properties

/-! ### The tables -/

section Entries

variable {ℓ σ : Type} {text : ℓ → Bytes} {next : σ → ℓ → σ}
  {entry : σ → ℓ → List (Bytes × Bytes)}

theorem entriesOf_append (s : σ) (a b : List ℓ) :
    entriesOf next entry s (a ++ b) =
      entriesOf next entry s a ++ entriesOf next entry (a.foldl next s) b := by
  induction a generalizing s with
  | nil => rfl
  | cons l a ih =>
      rw [List.cons_append, entriesOf, ih, entriesOf, List.append_assoc, List.foldl_cons]

theorem length_entriesOf_le (hentry : ∀ s l, (entry s l).length ≤ 1) (s : σ) (lines : List ℓ) :
    (entriesOf next entry s lines).length ≤ lines.length := by
  induction lines generalizing s with
  | nil => exact Nat.le_refl 0
  | cons l lines ih =>
      have hrest := ih (next s l)
      have hfirst := hentry s l
      rw [entriesOf, List.length_append, List.length_cons]
      omega

theorem length_lines_le (text : ℓ → Bytes) (lines : List ℓ) :
    lines.length ≤ (lines.flatMap fun l => text l ++ [lineFeed]).length := by
  induction lines with
  | nil => exact Nat.le_refl 0
  | cons l lines ih =>
      rw [List.flatMap_cons, List.length_append, List.length_append, List.length_cons,
        List.length_singleton]
      omega

end Entries

theorem refines_iff {t : UHashMap Bytes} {m m' : Bytes → Option Bytes} (h : Keeps t m) :
    Refines t m' ↔ ∀ key, m key = m' key := by
  constructor
  · intro h' key
    rw [keeps_unique h h']
  · intro heq
    rw [← funext heq]
    exact refines_of_keeps h

/-- What the lines that end give, with the values that the variable holds, is what all lines
give. -/
def AgreesINI (lines : List IniLine) (last : Option IniLine) : Prop :=
  ∀ key, lastOf (IniLine.entries trim true lines) key =
    lastOf (IniLine.entries strip false (lines ++ last.toList)) key

/-- The lines of properties that give a binding -/
def endedLines (lines : List PropertyLine) (last : Option PropertyLine) : List PropertyLine :=
  lines ++ last.toList.filter PropertyLine.isEnded

/-- The same for properties, of which none has an empty value behind an equals sign -/
def AgreesProperties (lines : List PropertyLine) (last : Option PropertyLine) : Prop :=
  (∀ l ∈ lines, ¬ l.looksBehind) ∧
    ∀ key, lastOf (PropertyLine.entries trim true (endedLines lines last)) key =
      lastOf (PropertyLine.entries strip false (lines ++ last.toList)) key

section Tables

variable {table : UHashMap Bytes} (htable : Keeps table fun _ => none)

include htable

theorem loadINI_spec (lines : List IniLine) (last : Option IniLine)
    (hlength : (textOf IniLine.text lines last).length < 2 ^ 32) :
    ∃ r, loadINI (textOf IniLine.text lines last) table = some r ∧
      Keeps r.2 (lastOf (IniLine.entries trim true lines)) := by
  obtain ⟨fuel, hfuel, hrun⟩ := run_lines (fun l _ => ini_readsLine l) (last.elim [] IniLine.text)
    (Nat.lt_succ_self (textOf IniLine.text lines last).length)
  have hend : ∀ s t, loadINILoop fuel (last.elim [] IniLine.text) s t = some t := by
    intro s t
    cases last with
    | none =>
        obtain ⟨fuel, rfl⟩ := Nat.exists_eq_succ_of_ne_zero (show fuel ≠ 0 by omega)
        rfl
    | some l => exact ini_last l hfuel s t
  have hentries := @length_entriesOf_le _ _ (IniLine.next trim) (IniLine.entry trim true)
    (fun s l => by cases l <;> simp [IniLine.entry]) ([], []) lines
  have hlines := length_lines_le IniLine.text lines
  rw [textOf, List.length_append] at hlength
  obtain ⟨t, hinsert, hkeeps⟩ := insertEntries_spec htable
    (show table.length + (IniLine.entries trim true lines).length < 2 ^ 32 by
      rw [length_empty htable, IniLine.entries]
      omega)
  refine ⟨(decide (t.length ≠ 0), t), ?_, hkeeps⟩
  have hloop := hrun ([], []) table
  rw [← textOf, ← IniLine.entries, hinsert, Option.bind_some, hend] at hloop
  rw [loadINI, hloop]
  rfl

theorem loadsINI_iff (lines : List IniLine) (last : Option IniLine)
    (hlength : (textOf IniLine.text lines last).length < 2 ^ 32) :
    LoadsINI table lines last ↔ AgreesINI lines last := by
  obtain ⟨r, hload, hkeeps⟩ := loadINI_spec htable lines last hlength
  rw [LoadsINI, hload]
  constructor
  · rintro ⟨r', heq, hrefines⟩
    obtain rfl := Option.some.inj heq
    exact (refines_iff hkeeps).mp hrefines
  · intro hagrees
    exact ⟨r, rfl, (refines_iff hkeeps).mpr hagrees⟩

theorem loadProperties_spec {lines : List PropertyLine} (hlines : ∀ l ∈ lines, ¬ l.looksBehind)
    (last : Option PropertyLine) (hlength : (textOf PropertyLine.text lines last).length < 2 ^ 32)
    (fresh : Nat → UInt8) :
    ∃ r, loadProperties fresh (textOf PropertyLine.text lines last) table = some r ∧
      Keeps r.2 (lastOf (PropertyLine.entries trim true (endedLines lines last))) := by
  obtain ⟨fuel, hfuel, hrun⟩ := run_lines
    (fun l hl => @property_readsLine fresh l (hlines l hl)) (last.elim [] PropertyLine.text)
    (Nat.lt_succ_self (textOf PropertyLine.text lines last).length)
  have hend : ∀ value t,
      loadPropertiesLoop fresh fuel (last.elim [] PropertyLine.text) value t =
        insertEntries t (entriesOf (PropertyLine.value trim) (PropertyLine.entry trim true) value
          (last.toList.filter PropertyLine.isEnded)) := by
    intro value t
    cases last with
    | none =>
        obtain ⟨fuel, rfl⟩ := Nat.exists_eq_succ_of_ne_zero (show fuel ≠ 0 by omega)
        rfl
    | some l =>
        rw [Option.elim_some, property_last l hfuel, Option.toList_some]
        by_cases hended : l.isEnded
        · rw [if_pos hended, List.filter_cons_of_pos hended, List.filter_nil, entriesOf, entriesOf,
            List.append_nil]
        · rw [if_neg hended, List.filter_cons_of_neg hended, List.filter_nil, entriesOf]
  have hentries := @length_entriesOf_le _ _ (PropertyLine.value trim) (PropertyLine.entry trim true)
    (fun s l => by cases l <;> simp [PropertyLine.entry]) [] (endedLines lines last)
  have hcount : (endedLines lines last).length ≤ (textOf PropertyLine.text lines last).length := by
    have hlines := length_lines_le PropertyLine.text lines
    have hlast : (last.toList.filter PropertyLine.isEnded).length ≤
        (last.elim [] PropertyLine.text).length := by
      cases last with
      | none => exact Nat.le_refl 0
      | some l =>
          cases l with
          | ignored r text => exact Nat.zero_le _
          | assign key quotes value front behind => exact Nat.zero_le _
          | keyOnly key cr front nonblank =>
              cases cr with
              | true =>
                  have htext : 1 ≤ (key ++ [carriageReturn]).length := by
                    rw [List.length_append]
                    exact Nat.le_add_left 1 _
                  exact htext
              | false => exact Nat.zero_le _
    rw [endedLines, textOf, List.length_append, List.length_append]
    omega
  obtain ⟨t, hinsert, hkeeps⟩ := insertEntries_spec htable
    (show table.length +
        (PropertyLine.entries trim true (endedLines lines last)).length < 2 ^ 32 by
      rw [length_empty htable, PropertyLine.entries]
      omega)
  refine ⟨(decide (t.length ≠ 0), t), ?_, hkeeps⟩
  have hloop := hrun [] table
  rw [← textOf, funext (hend _), ← insertEntries_append, ← entriesOf_append, ← endedLines,
    ← PropertyLine.entries, hinsert] at hloop
  rw [loadProperties, hloop]
  rfl

theorem loadsProperties_iff (lines : List PropertyLine) (last : Option PropertyLine)
    (hlength : (textOf PropertyLine.text lines last).length < 2 ^ 32) :
    LoadsProperties table lines last ↔ AgreesProperties lines last := by
  by_cases hlines : ∀ l ∈ lines, ¬ l.looksBehind
  · rw [AgreesProperties, and_iff_right hlines]
    have hload := loadProperties_spec htable hlines last hlength
    constructor
    · intro h
      obtain ⟨r, hr, hkeeps⟩ := hload fun _ => 0
      obtain ⟨r', hr', hrefines⟩ := h fun _ => 0
      rw [hr] at hr'
      obtain rfl := Option.some.inj hr'
      exact (refines_iff hkeeps).mp hrefines
    · intro hagrees fresh
      obtain ⟨r, hr, hkeeps⟩ := hload fresh
      exact ⟨r, hr, (refines_iff hkeeps).mpr hagrees⟩
  · refine iff_of_false (fun h => ?_) fun h => hlines h.1
    obtain ⟨l, hl, hlooks⟩ : ∃ l ∈ lines, l.looksBehind := by
      by_contra hnone
      exact hlines fun l hl hlooks => hnone ⟨l, hl, hlooks⟩
    obtain ⟨r, hr, -⟩ := h fun _ => quote
    have hfail := run_looksBehind ⟨l, hl, hlooks⟩ (last.elim [] PropertyLine.text)
      (Nat.lt_succ_self (textOf PropertyLine.text lines last).length) [] table
    rw [loadProperties, ← textOf] at *
    rw [hfail] at hr
    cases hr

/-- A text of lines is loaded if and only if each key has the same value in the lines that end,
with the values as the variable holds them, and in all lines as they stand; moreover no empty
value may stand behind an equals sign of properties. -/
theorem load_iff (lines : List IniLine) (last : Option IniLine)
    (hlength : (textOf IniLine.text lines last).length < 2 ^ 32) (lines' : List PropertyLine)
    (last' : Option PropertyLine)
    (hlength' : (textOf PropertyLine.text lines' last').length < 2 ^ 32) :
    (∃ r, loadINI (textOf IniLine.text lines last) table = some r) ∧
      (LoadsINI table lines last ↔ AgreesINI lines last) ∧
      (LoadsProperties table lines' last' ↔ AgreesProperties lines' last') := by
  obtain ⟨r, hload, -⟩ := loadINI_spec htable lines last hlength
  exact ⟨⟨r, hload⟩, loadsINI_iff htable lines last hlength,
    loadsProperties_iff htable lines' last' hlength'⟩

end Tables

/-! ### Samples -/

/-- `[s]`, `a = 1` -/
def sampleINI : List IniLine :=
  [.header [] ['s'.toUInt8] [] ⟨by decide, by decide⟩ (by decide) ⟨by decide, by decide⟩,
    .assign ['a'.toUInt8] ['1'.toUInt8] ⟨by decide, by decide⟩ (by decide)]

def bKey : IniLine := .keyOnly ['b'.toUInt8] ⟨by decide, by decide⟩ (by decide)

/-- `a = "1"`, where the quotes are taken away -/
def sampleProperties : List PropertyLine :=
  [.assign ['a'.toUInt8] true [quote, '1'.toUInt8, quote] ⟨by decide, by decide⟩ (by decide)]

theorem load_sample : LoadsINI (allocated 53) sampleINI none ∧
    LoadsProperties (allocated 53) sampleProperties none := by
  have hinit : Keeps (allocated 53 : UHashMap Bytes) fun _ => none := keeps_allocated (by decide)
  obtain ⟨-, hini, hproperties⟩ := load_iff hinit sampleINI none (by decide) sampleProperties none
    (by decide)
  have heq : IniLine.entries trim true sampleINI =
      IniLine.entries strip false (sampleINI ++ Option.toList none) := by decide
  have heq' : PropertyLine.entries trim true (endedLines sampleProperties none) =
      PropertyLine.entries strip false (sampleProperties ++ Option.toList none) := by decide
  refine ⟨hini.mpr fun key => by rw [heq], hproperties.mpr ⟨?_, fun key => by rw [heq']⟩⟩
  intro l hl
  rw [List.mem_singleton.mp hl]
  rintro ⟨-, hnil⟩
  exact absurd hnil (by decide)

/-- A key alone behind `a = 1`, a last line that does not end, and in properties an empty value
behind an equals sign -/
theorem not_load : ¬ LoadsINI (allocated 53) (sampleINI ++ [bKey]) none ∧
    ¬ LoadsINI (allocated 53) sampleINI (some bKey) ∧
    ¬ LoadsProperties (allocated 53) sampleProperties
      (some (.assign ['b'.toUInt8] false [] ⟨by decide, by decide⟩ (by decide))) ∧
    ¬ LoadsProperties (allocated 53)
      [.assign ['b'.toUInt8] true [] ⟨by decide, by decide⟩ (by decide)] none := by
  have hinit : Keeps (allocated 53 : UHashMap Bytes) fun _ => none := keeps_allocated (by decide)
  refine ⟨fun h => ?_, fun h => ?_, fun h => ?_, fun h => ?_⟩
  · have hkey := (loadsINI_iff hinit _ _ (by decide)).mp h (['s'.toUInt8, period, 'b'.toUInt8])
    exact absurd hkey (by decide)
  · have hkey := (loadsINI_iff hinit _ _ (by decide)).mp h (['s'.toUInt8, period, 'b'.toUInt8])
    exact absurd hkey (by decide)
  · have hkey := ((loadsProperties_iff hinit _ _ (by decide)).mp h).2 ['b'.toUInt8]
    exact absurd hkey (by decide)
  · exact ((loadsProperties_iff hinit _ _ (by decide)).mp h).1 _ List.mem_cons_self
      ⟨rfl, by decide⟩

end ULib.FileConfig
