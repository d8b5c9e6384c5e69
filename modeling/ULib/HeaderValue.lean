import ULib.HeaderLookup

/-!
What `getValueFromName` finds in a block of lines `name: value`.
-/

namespace ULib.HeaderValue

open ULib.KeyComparison
open ULib.EscapeCoding
open ULib.TextSearch hiding find
open ULib.HeaderLookup

/-- A name of a header: a text without white space, colon and NUL. -/
def IsName (w : Bytes) : Prop := w ≠ [] ∧ ∀ c ∈ w, isSpace c = false ∧ c ≠ colon ∧ c ≠ 0

/-- A line `name: value`, with what is between the colon and the value and what ends it. -/
structure Line where
  name : Bytes
  gap : Bytes
  value : Bytes
  eol : Bytes

def Line.text (l : Line) : Bytes := l.name ++ colon :: (l.gap ++ l.value ++ l.eol)

/-- The value has no white space in front and no line end. -/
structure Line.Proper (l : Line) : Prop where
  name : IsName l.name
  gap : ∀ c ∈ l.gap, isSpace c = true ∧ c ≠ 10 ∧ c ≠ 13
  value : l.value.head?.all (! isSpace ·) ∧ ∀ c ∈ l.value, c ≠ 10 ∧ c ≠ 13
  eol : l.eol = [] ∨ l.eol = [10] ∨ l.eol = [13, 10]

/-- A block of lines, the last of which may have no end of its own. -/
def Block : List Line → Prop
  | [] => True
  | l :: ls => l.Proper ∧ (ls ≠ [] → l.eol ≠ []) ∧ Block ls

def text (ls : List Line) : Bytes := ls.flatMap Line.text

/-- Whether a line has the name. -/
def same (nocase : Bool) (w : Bytes) (l : Line) : Bool :=
  if nocase then l.name.map tolower = w.map tolower else l.name = w

/-- The lines in front of the first one with the name, and those from it on. -/
def before (nocase : Bool) (w : Bytes) (ls : List Line) : List Line :=
  ls.takeWhile (! same nocase w ·)

def fromName (nocase : Bool) (w : Bytes) (ls : List Line) : List Line :=
  ls.dropWhile (! same nocase w ·)

/-- Where the value of the first line with the name starts. -/
def valueAt (pos : Nat) (nocase : Bool) (w : Bytes) (ls : List Line) : Option Nat :=
  match fromName nocase w ls with
  | [] => none
  | l :: _ =>
      some (pos + (text (before nocase w ls)).length + (l.name.length + 1 + l.gap.length))

/-- For the block with `pre` in front and `post` behind it the start of that value is found. -/
def FindsValue (pre post : Bytes) (nocase : Bool) (w : Bytes) (ls : List Line) : Prop :=
  getValueFromName (pre ++ text ls ++ post) pre.length (text ls).length w nocase =
    some (valueAt pre.length nocase w ls)

/-! ### When it is the right value -/

/-- No occurrence of the name is followed by a colon. -/
def Clear (f : UInt8 → UInt8) (w a : Bytes) : Prop := ∀ u ∈ behind f w a, u.head? ≠ some colon

/-- From the start of the value of a line on. -/
def valueText (l : Line) (ls : List Line) (post : Bytes) : Bytes :=
  l.value ++ l.eol ++ text ls ++ post

/-- The first line with the name is the first in which the search takes it for one: no occurrence in
the lines before it is followed by a colon, and white space is not skipped where the value has to
start. A name in another case is only looked for behind the last occurrence of the name as it is. -/
def Chosen (w : Bytes) (ls₁ : List Line) (l : Line) (ls₂ : List Line) (post : Bytes) : Prop :=
  Clear id w (text ls₁) ∧ (valueText l ls₂ post).dropWhile isSpace = valueText l ls₂ post ∧
    (l.name ≠ w → behind id w (text (l :: ls₂)) = [] ∧ Clear tolower w (rest w (text ls₁)) ∧
      (glue (text (l :: ls₂)) (rest w (text ls₁))).length + 1 < 2 ^ 31 + w.length)

/-- No occurrence of the name that the search meets is followed by a colon, neither in the lines
nor, where it ends them, in what follows. -/
def Missing (nocase : Bool) (w : Bytes) (ls : List Line) (post : Bytes) : Prop :=
  (∀ u ∈ met nocase w (text ls), (after post u).head? ≠ some colon) ∧
    ([] ∈ met nocase w (text ls) → post.dropWhile isSpace ≠ post →
      ∀ u ∈ met nocase w (post.dropWhile isSpace), u.head? ≠ some colon)

def Unmistakable (nocase : Bool) (w : Bytes) (ls : List Line) (post : Bytes) : Prop :=
  match fromName nocase w ls with
  | [] => Missing nocase w ls post
  | l :: ls₂ => Chosen w (before nocase w ls) l ls₂ post

theorem space_tolower : ∀ c, isSpace (tolower c) = isSpace c ∧ (isSpace c → tolower c = c) :=
  forall_byte (by decide +kernel)

section
variable {w : Bytes} (hw : IsName w)
include hw

theorem IsName.apart (c : UInt8) (hc : c ∈ w) (s : UInt8) (hs : isSpace s = true) : s ≠ c := by
  rintro rfl
  rw [(hw.2 s hc).1] at hs
  cases hs

theorem IsName.apart_tolower (c : UInt8) (hc : c ∈ w) (s : UInt8) (hs : isSpace s = true) :
    tolower s ≠ tolower c := by
  intro heq
  have hspace := (space_tolower c).1
  rw [← heq, (space_tolower s).1, hs, (hw.2 c hc).1] at hspace
  cases hspace

omit hw in
theorem text_cons (l : Line) (ls : List Line) :
    text (l :: ls) = l.name ++ (colon :: (l.gap ++ l.value ++ l.eol) ++ text ls) := by
  rw [text, List.flatMap_cons, Line.text, List.append_assoc]
  rfl

omit hw in
theorem head_text {l : Line} (hl : l.Proper) (ls : List Line) :
    ∃ c t, text (l :: ls) = c :: t ∧ isSpace c = false ∧ c ≠ colon := by
  obtain ⟨hne, hname⟩ := hl.name
  cases hcase : l.name with
  | nil => exact absurd hcase hne
  | cons c t =>
      rw [hcase] at hname
      obtain ⟨hspace, hcolon, -⟩ := hname c List.mem_cons_self
      refine ⟨c, t ++ colon :: (l.gap ++ l.value ++ l.eol) ++ text ls, ?_, hspace, hcolon⟩
      rw [text, List.flatMap_cons, Line.text, hcase]
      rfl

omit hw in
theorem ended_append {a b : Bytes} (ha : Ended a) (hb : Ended b) : Ended (a ++ b) := by
  intro s hs
  rw [List.getLast?_append, Option.mem_def, Option.or_eq_some_iff] at hs
  rcases hs with hs | ⟨-, hs⟩
  · exact hb s hs
  · exact ha s hs

omit hw in
theorem ended_text {l : Line} (hl : l.Proper) (heol : l.eol ≠ []) : Ended l.text := by
  intro s hs
  rw [Line.text, ← List.cons_append, ← List.append_assoc, List.getLast?_append] at hs
  rcases hl.eol with heq | heq | heq
  · exact absurd heq heol
  · rw [heq] at hs
    obtain rfl := Option.some.inj hs
    rfl
  · rw [heq] at hs
    obtain rfl := Option.some.inj hs
    rfl

omit hw in
theorem Block.split {ls₁ ls₂ : List Line} {l : Line} (h : Block (ls₁ ++ l :: ls₂)) :
    Ended (text ls₁) ∧ l.Proper := by
  induction ls₁ with
  | nil => exact ⟨fun s hs => (Option.not_mem_none s hs).elim, h.1⟩
  | cons a ls₁ ih =>
      obtain ⟨ha, heol, hrest⟩ := h
      obtain ⟨hended, hl⟩ := ih hrest
      refine ⟨?_, hl⟩
      rw [text, List.flatMap_cons]
      exact ended_append (ended_text ha (heol (by simp))) hended

/-! ### The lines and the search -/

omit hw in
theorem ended_rest {a : Bytes} (ha : Ended a) (w : Bytes) (hne : w ≠ []) : Ended (rest w a) := by
  rw [rest]
  cases hlast : (behind id w a).getLast? with
  | none => exact ha
  | some u => exact ha.suffix (suffix_of_mem_behind hne (List.mem_of_getLast? hlast))

omit hw in
theorem behind_glue {f : UInt8 → UInt8} (hne : w ≠ [])
    (hf : ∀ c ∈ w, ∀ s, isSpace s = true → f s ≠ f c) {a b : Bytes} (ha : Ended a)
    (hb : b.dropWhile isSpace = b) :
    behind f w (glue b a) = (behind f w a).map (glue b) ++ behind f w b := by
  by_cases hnil : a = []
  · subst hnil
    rw [glue, if_pos rfl]
    rfl
  · rw [glue, if_neg hnil]
    exact behind_append hne hf ha hb

theorem rest_append {a b : Bytes} (ha : Ended a) (hb : b.dropWhile isSpace = b) :
    rest w (a ++ b) = if behind id w b = [] then glue b (rest w a) else rest w b := by
  rw [rest, behind_append (f := id) hw.1 hw.apart ha hb, List.getLast?_append, List.getLast?_map]
  split_ifs with hnil
  · rw [hnil, List.getLast?_nil, Option.none_or, rest]
    cases hlast : (behind id w a).getLast? with
    | some u => rfl
    | none =>
        by_cases hempty : a = []
        · subst hempty
          rfl
        · rw [Option.map_none, Option.getD_none, Option.getD_none, glue, if_neg hempty]
  · rw [rest]
    cases hlast : (behind id w b).getLast? with
    | none => exact absurd (List.getLast?_eq_none_iff.mp hlast) hnil
    | some u => rfl

omit hw in
/-- What is met in the lines before goes on with the line that has the name. -/
theorem head_after_glue {b : Bytes} {c : UInt8} {t : Bytes} (hb : b = c :: t) (hc : c ≠ colon)
    (post u : Bytes) : (after post (glue b u)).head? = some colon ↔ u.head? = some colon := by
  subst hb
  cases u with
  | nil =>
      rw [glue, if_pos rfl, after, if_neg (List.cons_ne_nil c t)]
      simp [hc]
  | cons d u =>
      rw [glue, if_neg (List.cons_ne_nil d u), after, if_neg (by simp)]
      simp

/-- A line with the name is met at its start. -/
theorem behind_text {f : UInt8 → UInt8} {l : Line} (hname : l.name.map f = w.map f)
    (ls : List Line) :
    behind f w (text (l :: ls)) = (colon :: (l.gap ++ l.value ++ l.eol) ++ text ls) ::
      behind f w (colon :: (l.gap ++ l.value ++ l.eol) ++ text ls) := by
  have hlength := congrArg List.length hname
  rw [List.length_map, List.length_map] at hlength
  have hfound : search (w.map f) ((text (l :: ls)).map f) = some 0 := by
    rw [text_cons, List.map_append, hname]
    exact search_prefix (List.prefix_append _ _)
  have hdrop : ((text (l :: ls)).drop (0 + w.length)).dropWhile isSpace =
      colon :: (l.gap ++ l.value ++ l.eol) ++ text ls := by
    rw [text_cons, Nat.zero_add, ← hlength, List.drop_left]
    exact List.dropWhile_cons_of_neg (by decide)
  rw [behind_of_some hw.1 hfound, hdrop]

omit hw in
/-- The last byte that is not white space is where it is. -/
theorem last_byte_unique {a a' s s' : Bytes} {c c' : UInt8} (hc : isSpace c = false)
    (hc' : isSpace c' = false) (hs : ∀ d ∈ s, isSpace d = true) (hs' : ∀ d ∈ s', isSpace d = true)
    (h : a ++ c :: s = a' ++ c' :: s') : a = a' := by
  rcases List.append_eq_append_iff.mp h with ⟨t, rfl, ht⟩ | ⟨t, rfl, ht⟩
  · cases t with
    | nil => exact (List.append_nil a).symm
    | cons d t =>
        obtain ⟨-, rfl⟩ := List.cons.inj ht
        have := hs c' (List.mem_append_right t List.mem_cons_self)
        rw [hc'] at this
        cases this
  · cases t with
    | nil => exact List.append_nil a'
    | cons d t =>
        obtain ⟨-, rfl⟩ := List.cons.inj ht
        have := hs' c (List.mem_append_right t List.mem_cons_self)
        rw [hc] at this
        cases this

omit hw in
/-- Where the search comes to the value of a line, it has met the name of the line. -/
theorem met_of_value {l : Line} (hl : l.Proper) {a u post : Bytes} {ls : List Line}
    (hu : u <:+ a ++ text (l :: ls)) (hmarked : (after post u).head? = some colon)
    (hvalue : valueOf (after post u) = valueText l ls post) :
    u = colon :: (l.gap ++ l.value ++ l.eol) ++ text ls := by
  have hlt := length_valueOf_lt hmarked
  rw [hvalue, valueText, List.length_append] at hlt
  by_cases hnil : u = []
  · have hdrop := List.length_dropWhile_le isSpace post
    rw [after, if_pos hnil] at hlt
    omega
  · rw [after, if_neg hnil] at hmarked hvalue
    cases u with
    | nil => exact absurd rfl hnil
    | cons d v =>
        obtain rfl : d = colon := Option.some.inj hmarked
        obtain ⟨y, hy⟩ := hu
        rw [valueOf, List.cons_append, List.tail_cons] at hvalue
        have hsplit := List.takeWhile_append_dropWhile (p := isSpace) (l := v ++ post)
        rw [hvalue] at hsplit
        have hall : y ++ colon :: (v ++ post).takeWhile isSpace ++ valueText l ls post =
            (a ++ l.name) ++ colon :: l.gap ++ valueText l ls post := by
          calc
            y ++ colon :: (v ++ post).takeWhile isSpace ++ valueText l ls post =
                (y ++ colon :: v) ++ post := by
              rw [List.append_assoc, List.cons_append, hsplit, List.append_assoc, List.cons_append]
            _ = (a ++ l.name) ++ colon :: l.gap ++ valueText l ls post := by
              rw [hy, text_cons, valueText]
              simp only [List.append_assoc, List.cons_append]
        have hsame := List.append_cancel_right hall
        have hya : y = a ++ l.name := by
          refine last_byte_unique (by decide) (by decide) (fun d hd => List.mem_takeWhile_imp hd)
            (fun d hd => (hl.gap d hd).1) hsame
        rw [hya, text_cons, List.append_assoc] at hy
        exact List.append_cancel_left (List.append_cancel_left hy)

omit hw in
theorem length_rest (hne : w ≠ []) {x : Bytes} (h : behind id w x ≠ []) :
    (rest w x).length + w.length ≤ x.length := by
  rw [rest]
  cases hlast : (behind id w x).getLast? with
  | none => exact absurd (List.getLast?_eq_none_iff.mp hlast) h
  | some u => exact (length_behind hne (List.mem_of_getLast? hlast)).1

omit hw in
theorem of_same {nocase : Bool} {l : Line} (hsame : same nocase w l = true) (hname : l.name ≠ w) :
    nocase = true ∧ l.name.map tolower = w.map tolower := by
  cases nocase with
  | false => exact absurd (of_decide_eq_true hsame) hname
  | true => exact ⟨rfl, of_decide_eq_true hsame⟩

omit hw in
theorem suffix_of_mem_met (hne : w ≠ []) {nocase : Bool} {x u : Bytes} (hu : u ∈ met nocase w x) :
    u <:+ x := by
  have hrest : rest w x <:+ x := by
    rw [rest]
    cases hlast : (behind id w x).getLast? with
    | none => exact List.suffix_refl x
    | some v => exact suffix_of_mem_behind hne (List.mem_of_getLast? hlast)
  rw [met] at hu
  rcases List.mem_append.mp hu with hu | hu
  · exact suffix_of_mem_behind hne hu
  · split_ifs at hu
    · exact (suffix_of_mem_behind hne hu).trans hrest
    · cases hu

omit hw in
/-- What is met in the lines before is in front of the line with the name. -/
theorem find_front_append {f : UInt8 → UInt8} {l : Line} (hl : l.Proper) (ls : List Line)
    (r post : Bytes) (back : List Bytes) :
    ((behind f w r).map (glue (text (l :: ls))) ++ back).find? (fun u => marked (after post u)) =
        some (colon :: (l.gap ++ l.value ++ l.eol) ++ text ls) ↔
      Clear f w r ∧ back.find? (fun u => marked (after post u)) =
        some (colon :: (l.gap ++ l.value ++ l.eol) ++ text ls) := by
  obtain ⟨c, t, hb, -, hc⟩ := head_text hl ls
  have hclear : ((behind f w r).map (glue (text (l :: ls)))).find?
      (fun u => marked (after post u)) = none ↔ Clear f w r := by
    rw [List.find?_eq_none, Clear]
    simp only [List.mem_map, forall_exists_index, and_imp, forall_apply_eq_imp_iff₂, marked,
      decide_eq_true_eq, head_after_glue hb hc]
  rw [List.find?_append]
  cases hfront : ((behind f w r).map (glue (text (l :: ls)))).find?
      (fun u => marked (after post u)) with
  | none => rw [Option.none_or, and_iff_right (hclear.mp hfront)]
  | some y =>
      refine iff_of_false ?_ fun h => ?_
      · rw [Option.some_or]
        intro heq
        obtain rfl := Option.some.inj heq
        obtain ⟨u, -, hu⟩ := List.mem_map.mp (List.mem_of_find?_eq_some hfront)
        have hlength := congrArg List.length hu
        have hname := List.length_pos_of_ne_nil hl.name.1
        rw [glue, text_cons] at hlength
        split_ifs at hlength
        · rw [List.length_append] at hlength
          omega
        · rw [List.length_append, List.length_append] at hlength
          omega
      · rw [hclear.mpr h.1] at hfront
        cases hfront

theorem find_met_iff {nocase : Bool} {l : Line} (hl : l.Proper) (hsame : same nocase w l = true)
    {a : Bytes} (ha : Ended a) (ls : List Line) (post : Bytes) :
    (met nocase w (a ++ text (l :: ls))).find? (fun u => marked (after post u)) =
        some (colon :: (l.gap ++ l.value ++ l.eol) ++ text ls) ↔
      Clear id w a ∧ (l.name ≠ w → behind id w (text (l :: ls)) = [] ∧ Clear tolower w (rest w a) ∧
        (glue (text (l :: ls)) (rest w a)).length + 1 < 2 ^ 31 + w.length) := by
  obtain ⟨c, t, hb, hspace, -⟩ := head_text hl ls
  have hdrop : (text (l :: ls)).dropWhile isSpace = text (l :: ls) := by
    rw [hb]
    exact List.dropWhile_cons_of_neg (by simp [hspace])
  have hfound : marked (after post (colon :: (l.gap ++ l.value ++ l.eol) ++ text ls)) = true := rfl
  rw [met, behind_append (f := id) hw.1 hw.apart ha hdrop, List.append_assoc,
    find_front_append hl]
  refine and_congr_right fun _ => ?_
  by_cases hname : l.name = w
  · have hhead := behind_text hw (f := id) (congrArg (List.map id) hname) ls
    rw [hhead, List.cons_append,
      List.find?_cons_of_pos (p := fun u => marked (after post u)) hfound]
    exact iff_of_true rfl fun hne => absurd hname hne
  · obtain ⟨hnocase, htolower⟩ := of_same hsame hname
    have hlength := congrArg List.length htolower
    rw [List.length_map, List.length_map] at hlength
    have htext := congrArg List.length (text_cons l ls)
    rw [List.length_append, hlength] at htext
    have hnot : colon :: (l.gap ++ l.value ++ l.eol) ++ text ls ∉ behind id w (text (l :: ls)) := by
      intro hmem
      have hpre := (length_behind hw.1 hmem).2 (by omega)
      rw [List.map_id, List.map_id, text_cons] at hpre
      have hpre := List.prefix_of_prefix_length_le hpre (List.prefix_append _ _)
        (Nat.le_of_eq hlength.symm)
      exact hname (hpre.eq_of_length hlength.symm).symm
    constructor
    · intro h
      rw [List.find?_append] at h
      cases hexact : (behind id w (text (l :: ls))).find? (fun u => marked (after post u)) with
      | some y =>
          rw [hexact, Option.some_or] at h
          obtain rfl := Option.some.inj h
          exact absurd (List.mem_of_find?_eq_some hexact) hnot
      | none =>
          rw [hexact, Option.none_or] at h
          split_ifs at h with hcond
          · have hmem := (length_behind hw.1 (List.mem_of_find?_eq_some h)).1
            have hnil : behind id w (text (l :: ls)) = [] := by
              by_contra hne
              have hrest := length_rest hw.1 hne
              rw [rest_append hw ha hdrop, if_neg hne] at hmem
              have hpos := List.length_pos_of_ne_nil hw.1
              omega
            rw [rest_append hw ha hdrop, if_pos hnil] at h hcond
            rw [behind_glue hw.1 hw.apart_tolower (ended_rest ha w hw.1) hdrop,
              find_front_append hl] at h
            exact fun _ => ⟨hnil, h.1, hcond.2⟩
          · cases h
    · intro h
      obtain ⟨hnil, hclear, hsize⟩ := h hname
      rw [hnil, List.nil_append, rest_append hw ha hdrop, if_pos hnil, if_pos ⟨hnocase, hsize⟩,
        behind_glue hw.1 hw.apart_tolower (ended_rest ha w hw.1) hdrop, find_front_append hl,
        behind_text hw htolower ls]
      exact ⟨hclear, List.find?_cons_of_pos (p := fun u => marked (after post u)) hfound⟩

/-! ### The value that is found -/

omit hw in
theorem suffix_of_outcome (hne : w ≠ []) {nocase : Bool} {x post s : Bytes}
    (h : outcome nocase w x post = some s) : s <:+ x ++ post := by
  rw [outcome, List.find?_map] at h
  cases hfind : (met nocase w x).find? (marked ∘ after post) with
  | some u =>
      rw [hfind] at h
      obtain rfl := Option.some.inj h
      have hu := suffix_of_mem_met hne (List.mem_of_find?_eq_some hfind)
      rw [after]
      split_ifs
      · exact (List.dropWhile_suffix isSpace).trans (List.suffix_append x post)
      · obtain ⟨y, rfl⟩ := hu
        rw [List.append_assoc]
        exact List.suffix_append y _
  | none =>
      rw [hfind] at h
      dsimp only [Option.map_none] at h
      split_ifs at h
      have hs := suffix_of_mem_met hne (List.mem_of_find?_eq_some h)
      exact (hs.trans (List.dropWhile_suffix isSpace)).trans (List.suffix_append x post)

omit hw in
theorem outcome_eq_none (nocase : Bool) (w : Bytes) (ls : List Line) (post : Bytes) :
    outcome nocase w (text ls) post = none ↔ Missing nocase w ls post := by
  rw [outcome, Missing]
  cases hfind : ((met nocase w (text ls)).map (after post)).find? marked with
  | some s =>
      refine iff_of_false (Option.some_ne_none s) fun h => ?_
      obtain ⟨u, hu, rfl⟩ := List.mem_map.mp (List.mem_of_find?_eq_some hfind)
      exact h.1 u hu (marked_iff.mp (List.find?_some hfind))
  | none =>
      have hclear : ∀ u ∈ met nocase w (text ls), (after post u).head? ≠ some colon := by
        intro u hu hmarked
        exact List.find?_eq_none.mp hfind (after post u) (List.mem_map_of_mem hu)
          (decide_eq_true hmarked)
      dsimp only
      rw [and_iff_right hclear]
      split_ifs with hcond
      · rw [List.find?_eq_none]
        constructor
        · intro h _ _ u hu hmarked
          exact h u hu (decide_eq_true hmarked)
        · intro h u hu hmarked
          exact h hcond.1 hcond.2 u hu (of_decide_eq_true hmarked)
      · exact iff_of_true rfl fun hmem hspace => absurd ⟨hmem, hspace⟩ hcond

/-- The search comes to the value of the line. -/
theorem outcome_value_iff {nocase : Bool} {l : Line} (hl : l.Proper)
    (hsame : same nocase w l = true) {ls₁ : List Line} (hended : Ended (text ls₁))
    (ls₂ : List Line) (post : Bytes) :
    (∃ s, outcome nocase w (text ls₁ ++ text (l :: ls₂)) post = some s ∧
        valueOf s = valueText l ls₂ post) ↔ Chosen w ls₁ l ls₂ post := by
  have hfind := find_met_iff hw hl hsame hended ls₂ post
  have hvalue : valueOf (after post (colon :: (l.gap ++ l.value ++ l.eol) ++ text ls₂)) =
      (valueText l ls₂ post).dropWhile isSpace := by
    have hgap : ∀ c ∈ l.gap, isSpace c = true := fun c hc => (hl.gap c hc).1
    rw [valueText, ← List.dropWhile_append_of_pos hgap]
    simp only [after, List.cons_append, reduceCtorEq, if_false, valueOf, List.tail_cons,
      List.append_assoc]
  rw [Chosen, ← and_assoc, and_right_comm, ← hfind]
  constructor
  · rintro ⟨s, houtcome, hs⟩
    rw [outcome, List.find?_map] at houtcome
    cases hmet : (met nocase w (text ls₁ ++ text (l :: ls₂))).find? (marked ∘ after post) with
    | some u =>
        rw [hmet] at houtcome
        obtain rfl := Option.some.inj houtcome
        have hu := suffix_of_mem_met hw.1 (List.mem_of_find?_eq_some hmet)
        have hfound : marked (after post u) = true :=
          List.find?_some (p := marked ∘ after post) hmet
        obtain rfl := met_of_value hl hu (marked_iff.mp hfound) hs
        exact ⟨hmet, hvalue.symm.trans hs⟩
    | none =>
        rw [hmet] at houtcome
        dsimp only [Option.map_none] at houtcome
        split_ifs at houtcome
        have hlt := length_valueOf_lt (marked_iff.mp (List.find?_some houtcome))
        have hle := (suffix_of_mem_met hw.1 (List.mem_of_find?_eq_some houtcome)).length_le
        have hdrop := List.length_dropWhile_le isSpace post
        rw [hs, valueText, List.length_append] at hlt
        omega
  · rintro ⟨hmet, hstart⟩
    refine ⟨after post (colon :: (l.gap ++ l.value ++ l.eol) ++ text ls₂), ?_,
      hvalue.trans hstart⟩
    have hfirst : (met nocase w (text ls₁ ++ text (l :: ls₂))).find? (marked ∘ after post) =
        some (colon :: (l.gap ++ l.value ++ l.eol) ++ text ls₂) := hmet
    rw [outcome, List.find?_map, hfirst]
    rfl

omit hw in
theorem before_append (nocase : Bool) (w : Bytes) (ls : List Line) :
    before nocase w ls ++ fromName nocase w ls = ls := List.takeWhile_append_dropWhile

omit hw in
theorem same_of_fromName {nocase : Bool} {w : Bytes} {ls ls₂ : List Line} {l : Line}
    (h : fromName nocase w ls = l :: ls₂) : same nocase w l = true := by
  have hhead := List.head?_dropWhile_not (! same nocase w ·) ls
  rw [show ls.dropWhile (! same nocase w ·) = l :: ls₂ from h] at hhead
  exact (Bool.not_eq_false' _).mp hhead

/-- The value of the first line with the name is found, and none where there is none, exactly when
the name cannot be mistaken. -/
theorem findsValue_iff {ls : List Line} (hls : Block ls) (pre post : Bytes)
    (hsize : (pre ++ text ls ++ post).length < 2 ^ 32) (nocase : Bool) :
    FindsValue pre post nocase w ls ↔ Unmistakable nocase w ls post := by
  rw [FindsValue, getValueFromName_eq hw.1 hsize, Option.some.injEq, Unmistakable, valueAt]
  cases hcase : fromName nocase w ls with
  | nil =>
      dsimp only
      rw [Option.map_eq_none_iff, outcome_eq_none]
  | cons l ls₂ =>
      have happend := before_append nocase w ls
      rw [hcase] at happend
      obtain ⟨hended, hl⟩ := Block.split (happend ▸ hls)
      have htext : text ls = text (before nocase w ls) ++ text (l :: ls₂) := by
        rw [text, text, text, ← List.flatMap_append, happend]
      dsimp only
      rw [← outcome_value_iff hw hl (same_of_fromName hcase) hended, ← htext,
        Option.map_eq_some_iff]
      refine exists_congr fun s => and_congr_right fun hs => ?_
      have hvalue : valueOf s <:+ text ls ++ post :=
        ((List.dropWhile_suffix isSpace).trans (List.tail_suffix s)).trans
          (suffix_of_outcome hw.1 hs)
      have hblock : text ls ++ post =
          (text (before nocase w ls) ++ l.name ++ colon :: l.gap) ++ valueText l ls₂ post := by
        rw [htext, text_cons, valueText]
        simp only [List.append_assoc, List.cons_append]
      have hstart : valueText l ls₂ post <:+ text ls ++ post := hblock ▸ List.suffix_append _ _
      have hlength := congrArg List.length hblock
      simp only [List.length_append, List.length_cons] at hlength ⊢
      have hle := hvalue.length_le
      rw [List.length_append] at hle
      constructor
      · intro heq
        have hsame : (valueOf s).length = (valueText l ls₂ post).length := by omega
        exact (List.suffix_of_suffix_length_le hvalue hstart hsame.le).eq_of_length hsame
      · intro heq
        rw [heq]
        omega

end

/-- `AB: y` behind `X: x`, when `ab` is looked for without regard to case. -/
theorem findsValue_nocase :
    FindsValue [10] [13, 10, 13, 10] true [97, 98]
      [⟨[88], [32], [120], [13, 10]⟩, ⟨[65, 66], [32], [121], []⟩] := by
  have hname : IsName [97, 98] := ⟨by decide, by decide⟩
  have hblock : Block [⟨[88], [32], [120], [13, 10]⟩, ⟨[65, 66], [32], [121], []⟩] :=
    ⟨⟨⟨by decide, by decide⟩, by decide, by decide, by decide⟩, by decide,
      ⟨⟨by decide, by decide⟩, by decide, by decide, by decide⟩, by decide, trivial⟩
  refine (findsValue_iff hname hblock [10] [13, 10, 13, 10] (by decide) true).mpr ?_
  change Chosen [97, 98] [⟨[88], [32], [120], [13, 10]⟩] ⟨[65, 66], [32], [121], []⟩ []
    [13, 10, 13, 10]
  unfold Chosen Clear
  decide

/-- The line `XA: b` in front of `A: c` is taken for one with the name `A`. -/
theorem not_findsValue :
    ¬ FindsValue [] [] false [65]
      [⟨[88, 65], [32], [98], [13, 10]⟩, ⟨[65], [32], [99], [13, 10]⟩] := by
  unfold FindsValue
  decide

end ULib.HeaderValue
