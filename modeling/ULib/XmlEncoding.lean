import ULib.EscapeCoding

/-!
`u_xml_encode` of `base/coder/cxml_coder.c`: what begins like a reference is
copied up to the next semicolon, wherever that is.
-/

namespace ULib.XmlEncoding

open ULib.KeyComparison
open ULib.EscapeCoding (isAlnum quote)

def ampersand : UInt8 := '&'.toUInt8

def sharp : UInt8 := '#'.toUInt8

def semicolon : UInt8 := ';'.toUInt8

def apostrophe : UInt8 := 0x27

def less : UInt8 := '<'.toUInt8

def greater : UInt8 := '>'.toUInt8

/-! The names of the five references, with the semicolon -/

def quot : Bytes := ['q'.toUInt8, 'u'.toUInt8, 'o'.toUInt8, 't'.toUInt8, semicolon]

def amp : Bytes := ['a'.toUInt8, 'm'.toUInt8, 'p'.toUInt8, semicolon]

def lt : Bytes := ['l'.toUInt8, 't'.toUInt8, semicolon]

def gt : Bytes := ['g'.toUInt8, 't'.toUInt8, semicolon]

def apos : Bytes := ['a'.toUInt8, 'p'.toUInt8, 'o'.toUInt8, 's'.toUInt8, semicolon]

/-- In the order in which they are compared -/
def names : List Bytes := [quot, amp, lt, gt, apos]

/-! ### u_xml_encode -/

/-- `U_STRNEQ`; `none` where a byte behind the text is compared. -/
def strneq : Bytes → Bytes → Option Bool
  | [], _ => some true
  | _ :: _, [] => none
  | a :: name, c :: t => if c = a then strneq name t else some false

def anyName : List Bytes → Bytes → Option Bool
  | [], _ => some false
  | name :: names, t => do if ← strneq name t then some true else anyName names t

/-- Whether a reference seems to begin in front of `t`. -/
def isReference (t : Bytes) : Option Bool :=
  match t with
  | [] => none
  | c :: _ => if c = sharp then some true else anyName names t

/-- The inner loop: what is copied, and what is left from the semicolon on; `none` where it goes on
behind the text. -/
def copyReference : Bytes → Option (Bytes × Bytes)
  | [] => none
  | c :: t =>
      if c = semicolon then some ([], c :: t)
      else (copyReference t).map fun (u, r) => (c :: u, r)

def encodeLoop : Nat → Bytes → Option Bytes
  | 0, _ => some []
  | _ + 1, [] => some []
  | fuel + 1, ch :: t => do
      if isAlnum ch ∨ ch ∉ [quote, ampersand, apostrophe, less, greater, 0] then
        return ch :: (← encodeLoop fuel t)
      else if ch = ampersand then
        if ← isReference t then
          let (u, r) ← copyReference t
          return ampersand :: u ++ (← encodeLoop fuel r)
        else return ampersand :: amp ++ (← encodeLoop fuel t)
      else if ch = quote then return ampersand :: quot ++ (← encodeLoop fuel t)
      else if ch = apostrophe then return ampersand :: apos ++ (← encodeLoop fuel t)
      else if ch = less then return ampersand :: lt ++ (← encodeLoop fuel t)
      else if ch = greater then return ampersand :: gt ++ (← encodeLoop fuel t)
      else return ch :: (← encodeLoop fuel t)

/-- `u_xml_encode`; `none` where it reads behind the text. -/
def encode (s : Bytes) : Option Bytes := encodeLoop s.length s

/-! ### References in a text -/

/-- Whether a numeric reference begins with `c` in front of `t`. -/
def opens (c : UInt8) (t : Bytes) : Bool := c = ampersand && t.head? = some sharp

/-- The text without its numeric references; the flag says that one of them is open. -/
def outside : Bool → Bytes → Bytes
  | _, [] => []
  | true, c :: t => outside (c ≠ semicolon) t
  | false, c :: t => if opens c t then outside true t else c :: outside false t

/-- The numeric references of a text, one behind the other -/
def inside : Bool → Bytes → Bytes
  | _, [] => []
  | true, c :: t => c :: inside (c ≠ semicolon) t
  | false, c :: t => if opens c t then c :: inside true t else inside false t

/-- `<`, `>` and the quotes -/
def isRaw (c : UInt8) : Bool := c = less || c = greater || c = quote || c = apostrophe

/-- What is asked of the encoder: it reads nothing behind the text, it is right about the raw
characters, and it leaves its output as it is. -/
def Encodes (ok : Bytes → Bytes → Prop) (s : Bytes) : Prop :=
  ∃ out, encode s = some out ∧ ok s out ∧ encode out = some out

/-- Raw characters stand only in numeric references, and these are those of the text. -/
def RawInReferences (s out : Bytes) : Prop :=
  (∀ c ∈ outside false out, isRaw c = false) ∧ inside false out = inside false s

/-- No raw character is left. -/
def NoRaw (_ out : Bytes) : Prop := ∀ c ∈ out, isRaw c = false

/-- Whether the text behind an ampersand says by itself if it is one of the names. -/
def decided (t : Bytes) : Bool := names.all fun name => name.isPrefixOf t || !t.isPrefixOf name

/-- Every numeric reference ends within the text, and no name is cut off by its end. -/
def closed : Bool → Bytes → Bool
  | inReference, [] => !inReference
  | true, c :: t => closed (c ≠ semicolon) t
  | false, c :: t => (c ≠ ampersand || decided t) && closed (opens c t) t

/-! ### The loop and the references -/

/-- What is written for a character that is no ampersand. -/
def escaped (c : UInt8) : Bytes :=
  if c = quote then ampersand :: quot
  else if c = apostrophe then ampersand :: apos
  else if c = less then ampersand :: lt
  else if c = greater then ampersand :: gt
  else [c]

/-- What is written for a text whose references end. -/
def encoded : Bool → Bytes → Bytes
  | _, [] => []
  | true, c :: t => c :: encoded (c ≠ semicolon) t
  | false, c :: t =>
      if c = ampersand then
        if opens c t then c :: encoded true t
        else if names.any (·.isPrefixOf t) then c :: encoded false t
        else ampersand :: amp ++ encoded false t
      else escaped c ++ encoded false t

theorem strneq_eq (name t : Bytes) :
    strneq name t = if name <+: t then some true else if t <+: name then none else some false := by
  induction name generalizing t with
  | nil => simp [strneq]
  | cons a name ih =>
      cases t with
      | nil => simp [strneq]
      | cons c t =>
          rw [strneq, ih]
          by_cases hc : c = a
          · subst hc
            simp only [if_true, List.cons_prefix_cons, true_and]
          · rw [if_neg hc, if_neg, if_neg]
            · exact fun h => hc (List.cons_prefix_cons.mp h).1
            · exact fun h => hc (List.cons_prefix_cons.mp h).1.symm

/-- The comparisons with names of which none begins another one. -/
theorem anyName_eq {l : List Bytes} (hl : ∀ a ∈ l, ∀ b ∈ l, a <+: b → a = b) (t : Bytes) :
    anyName l t = if l.all (fun name => name.isPrefixOf t || !t.isPrefixOf name) then
      some (l.any (·.isPrefixOf t)) else none := by
  induction l with
  | nil => rfl
  | cons name l ih =>
      have hrest := ih fun a ha b hb =>
        hl a (List.mem_cons_of_mem name ha) b (List.mem_cons_of_mem name hb)
      rw [anyName, strneq_eq, hrest, List.all_cons, List.any_cons]
      by_cases hname : name <+: t
      · have hall : l.all fun name => name.isPrefixOf t || !t.isPrefixOf name := by
          rw [List.all_eq_true]
          intro b hb
          by_cases hb' : t <+: b
          · have heq := hl name List.mem_cons_self b (List.mem_cons_of_mem name hb)
              (hname.trans hb')
            rw [← heq, List.isPrefixOf_iff_prefix.mpr hname]
            rfl
          · rw [Bool.eq_false_iff.mpr fun h => hb' (List.isPrefixOf_iff_prefix.mp h)]
            simp
        rw [if_pos hname, hall, List.isPrefixOf_iff_prefix.mpr hname]
        rfl
      · have hfalse : name.isPrefixOf t = false :=
          Bool.eq_false_iff.mpr fun h => hname (List.isPrefixOf_iff_prefix.mp h)
        rw [if_neg hname, hfalse, Bool.false_or, Bool.false_or]
        by_cases ht : t <+: name
        · rw [if_pos ht, List.isPrefixOf_iff_prefix.mpr ht]
          rfl
        · rw [if_neg ht, Bool.eq_false_iff.mpr fun h => ht (List.isPrefixOf_iff_prefix.mp h)]
          rfl

theorem isReference_eq (t : Bytes) :
    isReference t =
      if decided t then some (opens ampersand t || names.any (·.isPrefixOf t)) else none := by
  cases t with
  | nil => rfl
  | cons c t =>
      rw [isReference]
      by_cases hc : c = sharp
      · subst hc
        rfl
      · have hopens : opens ampersand (c :: t) = false := by simp [opens, hc]
        rw [if_neg hc, hopens, Bool.false_or, decided]
        exact anyName_eq (by decide) _

/-- The inner loop ends at the next semicolon. -/
theorem copyReference_eq (t : Bytes) :
    (copyReference t = none ∧ closed true t = false) ∨
      ∃ u r, copyReference t = some (u, semicolon :: r) ∧ t = u ++ semicolon :: r ∧
        closed true t = closed false (semicolon :: r) ∧
        encoded true t = u ++ encoded false (semicolon :: r) := by
  induction t with
  | nil => exact .inl ⟨rfl, rfl⟩
  | cons c t ih =>
      rw [copyReference, closed, encoded]
      by_cases hc : c = semicolon
      · subst hc
        refine .inr ⟨[], t, if_pos rfl, rfl, rfl, rfl⟩
      · rw [if_neg hc, decide_eq_true hc]
        rcases ih with ⟨hnone, hclosed⟩ | ⟨u, r, hsome, rfl, hclosed, hencoded⟩
        · exact .inl ⟨by rw [hnone]; rfl, hclosed⟩
        · exact .inr ⟨c :: u, r, by rw [hsome]; rfl, rfl, hclosed, by rw [hencoded]; rfl⟩

/-- A byte that is copied and has no part in a reference -/
def isText (c : UInt8) : Bool := c ≠ ampersand && !isRaw c

theorem isText_spec {c : UInt8} (h : isText c) :
    c ≠ ampersand ∧ isRaw c = false ∧ escaped c = [c] := by
  rw [isText, Bool.and_eq_true, decide_eq_true_eq, Bool.not_eq_true'] at h
  obtain ⟨hamp, hraw⟩ := h
  refine ⟨hamp, hraw, ?_⟩
  simp only [isRaw, Bool.or_eq_false_iff, decide_eq_false_iff_not] at hraw
  obtain ⟨⟨⟨hless, hgreater⟩, hquote⟩, hapostrophe⟩ := hraw
  rw [escaped, if_neg hquote, if_neg hapostrophe, if_neg hless, if_neg hgreater]

theorem isText_of_mem {name : Bytes} (h : name ∈ names) : ∀ c ∈ name, isText c := by
  revert name
  decide

section Plain

variable {c : UInt8} (hc : c ≠ ampersand) (t : Bytes)

include hc

theorem opens_plain : opens c t = false := by
  rw [opens, decide_eq_false hc, Bool.false_and]

theorem closed_plain : closed false (c :: t) = closed false t := by
  rw [closed, opens_plain hc, decide_eq_true hc, Bool.true_or, Bool.true_and]

theorem encoded_plain : encoded false (c :: t) = escaped c ++ encoded false t := by
  rw [encoded, if_neg hc]

theorem outside_plain : outside false (c :: t) = c :: outside false t := by
  rw [outside, opens_plain hc, if_neg Bool.false_ne_true]

theorem inside_plain : inside false (c :: t) = inside false t := by
  rw [inside, opens_plain hc, if_neg Bool.false_ne_true]

end Plain

/-- Behind text everything goes on as before. -/
theorem text_append {w : Bytes} (hw : ∀ c ∈ w, isText c) (t : Bytes) :
    closed false (w ++ t) = closed false t ∧ encoded false (w ++ t) = w ++ encoded false t ∧
      outside false (w ++ t) = w ++ outside false t ∧
      inside false (w ++ t) = inside false t := by
  induction w with
  | nil => exact ⟨rfl, rfl, rfl, rfl⟩
  | cons c w ih =>
      obtain ⟨hc, hrest⟩ := List.forall_mem_cons.mp hw
      obtain ⟨hne, -, hescaped⟩ := isText_spec hc
      obtain ⟨hclosed, hencoded, houtside, hinside⟩ := ih hrest
      rw [List.cons_append, closed_plain hne, encoded_plain hne, outside_plain hne,
        inside_plain hne, hclosed, hencoded, houtside, hinside, hescaped]
      exact ⟨rfl, rfl, rfl, rfl⟩

theorem opens_name {name : Bytes} (h : name ∈ names) (r : Bytes) :
    opens ampersand (name ++ r) = false := by
  have hall : ∀ name ∈ names, ∃ c w, name = c :: w ∧ c ≠ sharp := by
    simp only [names, List.forall_mem_cons]
    exact ⟨⟨_, _, rfl, by decide⟩, ⟨_, _, rfl, by decide⟩, ⟨_, _, rfl, by decide⟩,
      ⟨_, _, rfl, by decide⟩, ⟨_, _, rfl, by decide⟩, nofun⟩
  obtain ⟨c, w, rfl, hc⟩ := hall name h
  simp [opens, hc]

theorem decided_name {name : Bytes} (h : name ∈ names) (r : Bytes) : decided (name ++ r) := by
  have hdistinct : ∀ a ∈ names, ∀ b ∈ names, a <+: b → a = b := by decide
  rw [decided, List.all_eq_true]
  intro b hb
  by_cases hle : name ++ r <+: b
  · have heq := hdistinct name h b hb ((List.prefix_append name r).trans hle)
    rw [← heq, List.isPrefixOf_iff_prefix.mpr (List.prefix_append name r)]
    rfl
  · rw [Bool.eq_false_iff.mpr fun h => hle (List.isPrefixOf_iff_prefix.mp h)]
    simp

theorem copyReference_name {name : Bytes} (h : name ∈ names) (r : Bytes) :
    copyReference (name ++ r) = some (name.dropLast, semicolon :: r) ∧
      name ++ r = name.dropLast ++ semicolon :: r := by
  revert name
  simp only [names, List.forall_mem_cons]
  exact ⟨⟨rfl, rfl⟩, ⟨rfl, rfl⟩, ⟨rfl, rfl⟩, ⟨rfl, rfl⟩, ⟨rfl, rfl⟩, nofun⟩

theorem closed_ampersand (t : Bytes) :
    closed false (ampersand :: t) = (decided t && closed (opens ampersand t) t) := rfl

theorem encoded_ampersand (t : Bytes) :
    encoded false (ampersand :: t) =
      if opens ampersand t then ampersand :: encoded true t
      else if names.any (·.isPrefixOf t) then ampersand :: encoded false t
      else ampersand :: amp ++ encoded false t := by
  rw [encoded, if_pos rfl]

/-- What is copied as a reference goes up to a semicolon, behind which the text is as before. -/
theorem copyReference_reference {t : Bytes}
    (h : (opens ampersand t || names.any (·.isPrefixOf t)) = true) :
    (copyReference t = none ∧ closed (opens ampersand t) t = false) ∨
      ∃ u r, copyReference t = some (u, semicolon :: r) ∧ (semicolon :: r).length ≤ t.length ∧
        closed (opens ampersand t) t = closed false (semicolon :: r) ∧
        encoded false (ampersand :: t) = ampersand :: u ++ encoded false (semicolon :: r) := by
  rw [encoded_ampersand]
  by_cases hopens : opens ampersand t
  · rw [hopens, if_pos rfl]
    rcases copyReference_eq t with hnone | ⟨u, r, hcopy, rfl, hclosed, hencoded⟩
    · exact .inl hnone
    · exact .inr ⟨u, r, hcopy, by simp, hclosed, by rw [hencoded]; rfl⟩
  · rw [Bool.not_eq_true] at hopens
    rw [hopens, Bool.false_or] at h
    rw [hopens, if_neg Bool.false_ne_true, if_pos h]
    obtain ⟨name, hname, hbegins⟩ := List.any_eq_true.mp h
    obtain ⟨r, rfl⟩ := List.isPrefixOf_iff_prefix.mp hbegins
    obtain ⟨hcopy, heq⟩ := copyReference_name hname r
    have htext : ∀ c ∈ name.dropLast, isText c :=
      fun c hc => isText_of_mem hname c (List.dropLast_subset name hc)
    obtain ⟨hclosed, hencoded, -, -⟩ := text_append htext (semicolon :: r)
    refine .inr ⟨name.dropLast, r, hcopy, ?_, ?_, ?_⟩
    · rw [heq]
      simp
    · rw [heq, hclosed]
    · rw [heq, hencoded]
      rfl

theorem escaped_of_copied {c : UInt8}
    (hc : isAlnum c ∨ c ∉ [quote, ampersand, apostrophe, less, greater, 0]) :
    c ≠ ampersand ∧ escaped c = [c] := by
  have hspecial : ∀ d ∈ [quote, ampersand, apostrophe, less, greater, 0], isAlnum d = false := by
    decide
  have hne : ∀ d ∈ [quote, ampersand, apostrophe, less, greater, 0], c ≠ d := by
    rintro d hd rfl
    rcases hc with halnum | hnot
    · rw [hspecial c hd] at halnum
      cases halnum
    · exact hnot hd
  refine ⟨hne _ (by simp), ?_⟩
  rw [escaped, if_neg (hne _ (by simp)), if_neg (hne _ (by simp)), if_neg (hne _ (by simp)),
    if_neg (hne _ (by simp))]

/-- The loop writes the encoded text as long as all references end. -/
theorem encodeLoop_eq {fuel : Nat} {s : Bytes} (hfuel : s.length ≤ fuel) :
    encodeLoop fuel s = if closed false s then some (encoded false s) else none := by
  induction fuel generalizing s with
  | zero =>
      obtain rfl := List.eq_nil_of_length_eq_zero (Nat.le_zero.mp hfuel)
      rfl
  | succ fuel ih =>
      cases s with
      | nil => rfl
      | cons ch t =>
          have ht := ih (Nat.le_of_succ_le_succ hfuel)
          rw [encodeLoop]
          by_cases hcopied : isAlnum ch ∨ ch ∉ [quote, ampersand, apostrophe, less, greater, 0]
          · obtain ⟨hne, hescaped⟩ := escaped_of_copied hcopied
            rw [if_pos hcopied, closed_plain hne, encoded_plain hne, hescaped, ht]
            cases closed false t <;> rfl
          · rw [if_neg hcopied]
            by_cases hamp : ch = ampersand
            · subst hamp
              rw [if_pos rfl, isReference_eq, closed_ampersand]
              by_cases hdecided : decided t
              · rw [if_pos hdecided, hdecided, Bool.true_and]
                by_cases href : (opens ampersand t || names.any (·.isPrefixOf t)) = true
                · rw [href]
                  rcases copyReference_reference href with
                    ⟨hcopy, hclosed⟩ | ⟨u, r, hcopy, hlength, hclosed, hencoded⟩
                  · rw [hcopy, hclosed]
                    rfl
                  · have hrest := ih (Nat.le_trans hlength (Nat.le_of_succ_le_succ hfuel))
                    rw [hcopy, hclosed, hencoded]
                    simp only [Option.bind_eq_bind, Option.bind_some, if_true, hrest]
                    cases closed false (semicolon :: r) <;> rfl
                · rw [Bool.not_eq_true] at href
                  obtain ⟨hopens, hany⟩ := Bool.or_eq_false_iff.mp href
                  rw [href, hopens, encoded_ampersand, hopens, hany]
                  simp only [Option.bind_eq_bind, Option.bind_some, Bool.false_eq_true, if_false,
                    ht]
                  cases closed false t <;> rfl
              · rw [if_neg hdecided, Bool.eq_false_iff.mpr hdecided]
                rfl
            · rw [if_neg hamp, closed_plain hamp, encoded_plain hamp, escaped, ht]
              split_ifs <;> rfl

/-! ### What is written -/

/-- The ampersand of a name is left as it is. -/
theorem reference_cons {name : Bytes} (h : name ∈ names) (r : Bytes) :
    closed false (ampersand :: (name ++ r)) = closed false (name ++ r) ∧
      encoded false (ampersand :: (name ++ r)) = ampersand :: encoded false (name ++ r) ∧
      outside false (ampersand :: (name ++ r)) = ampersand :: outside false (name ++ r) ∧
      inside false (ampersand :: (name ++ r)) = inside false (name ++ r) := by
  have hopens := opens_name h r
  have hany : names.any (·.isPrefixOf (name ++ r)) :=
    List.any_eq_true.mpr ⟨name, h, List.isPrefixOf_iff_prefix.mpr (List.prefix_append name r)⟩
  refine ⟨?_, ?_, ?_, ?_⟩
  · rw [closed_ampersand, decided_name h r, hopens, Bool.true_and]
  · rw [encoded_ampersand, hopens, if_neg Bool.false_ne_true, if_pos hany]
  · rw [outside, hopens, if_neg Bool.false_ne_true]
  · rw [inside, hopens, if_neg Bool.false_ne_true]

/-- What a further run finds in a text that was written: it is closed, it stays as it is, it has
its raw characters in references, and these are `references`. -/
structure Settled (inReference : Bool) (references out : Bytes) : Prop where
  closed : closed inReference out
  encoded : encoded inReference out = out
  raw : ∀ c ∈ outside inReference out, isRaw c = false
  inside : inside inReference out = references

theorem Settled.text {c : UInt8} (hc : isText c) {references out : Bytes}
    (h : Settled false references out) : Settled false references (c :: out) := by
  obtain ⟨hne, hraw, hescaped⟩ := isText_spec hc
  constructor
  · rw [closed_plain hne]
    exact h.closed
  · rw [encoded_plain hne, hescaped, h.encoded]
    rfl
  · rw [outside_plain hne]
    exact List.forall_mem_cons.mpr ⟨hraw, h.raw⟩
  · rw [inside_plain hne]
    exact h.inside

theorem Settled.texts {w : Bytes} (hw : ∀ c ∈ w, isText c) {references out : Bytes}
    (h : Settled false references out) : Settled false references (w ++ out) := by
  induction w with
  | nil => exact h
  | cons c w ih =>
      obtain ⟨hc, hrest⟩ := List.forall_mem_cons.mp hw
      exact (ih hrest).text hc

theorem Settled.reference {name : Bytes} (hname : name ∈ names) {references r : Bytes}
    (h : Settled false references (name ++ r)) :
    Settled false references (ampersand :: (name ++ r)) := by
  obtain ⟨hclosed, hencoded, houtside, hinside⟩ := reference_cons hname r
  constructor
  · rw [hclosed]
    exact h.closed
  · rw [hencoded, h.encoded]
  · rw [houtside]
    exact List.forall_mem_cons.mpr ⟨by decide, h.raw⟩
  · rw [hinside]
    exact h.inside

theorem Settled.numeric {references out : Bytes} (h : Settled true references (sharp :: out)) :
    Settled false (ampersand :: references) (ampersand :: sharp :: out) := by
  have hopens : opens ampersand (sharp :: out) := rfl
  constructor
  · exact h.closed
  · rw [encoded_ampersand, if_pos hopens, h.encoded]
  · exact h.raw
  · exact congrArg (ampersand :: ·) h.inside

theorem escaped_cases (c : UInt8) (hc : c ≠ ampersand) :
    (isText c ∧ escaped c = [c]) ∨ ∃ name ∈ names, escaped c = ampersand :: name := by
  rw [escaped]
  split_ifs with h1 h2 h3 h4
  · exact .inr ⟨quot, by decide, rfl⟩
  · exact .inr ⟨apos, by decide, rfl⟩
  · exact .inr ⟨lt, by decide, rfl⟩
  · exact .inr ⟨gt, by decide, rfl⟩
  · exact .inl ⟨by simp [isText, isRaw, hc, h1, h2, h3, h4], rfl⟩

theorem settled_encoded {inReference : Bool} {s : Bytes} (h : closed inReference s) :
    Settled inReference (inside inReference s) (encoded inReference s) := by
  induction s generalizing inReference with
  | nil =>
      cases inReference with
      | true => cases h
      | false => exact ⟨rfl, rfl, nofun, rfl⟩
  | cons c t ih =>
      cases inReference with
      | true =>
          have hrest : Settled (c ≠ semicolon) (inside (c ≠ semicolon) t)
              (encoded (c ≠ semicolon) t) := ih h
          exact ⟨hrest.closed, congrArg (c :: ·) hrest.encoded, hrest.raw,
            congrArg (c :: ·) hrest.inside⟩
      | false =>
          by_cases hc : c = ampersand
          · subst hc
            rw [closed_ampersand, Bool.and_eq_true] at h
            obtain ⟨-, ht⟩ := h
            rw [encoded_ampersand, inside]
            by_cases hopens : opens ampersand t
            · rw [hopens] at ht
              rw [if_pos hopens, if_pos hopens]
              have hhead : t.head? = some sharp := by simpa [opens] using hopens
              obtain ⟨u, rfl⟩ := List.head?_eq_some_iff.mp hhead
              exact (ih ht).numeric
            · rw [Bool.not_eq_true] at hopens
              rw [hopens] at ht
              rw [hopens, if_neg Bool.false_ne_true, if_neg Bool.false_ne_true]
              by_cases hany : names.any (·.isPrefixOf t)
              · obtain ⟨name, hname, hbegins⟩ := List.any_eq_true.mp hany
                obtain ⟨r, rfl⟩ := List.isPrefixOf_iff_prefix.mp hbegins
                have hrest := ih ht
                rw [(text_append (isText_of_mem hname) r).2.1] at hrest ⊢
                rw [if_pos hany]
                exact hrest.reference hname
              · rw [if_neg hany]
                have hamp : amp ∈ names := by decide
                exact ((ih ht).texts (isText_of_mem hamp)).reference hamp
          · rw [closed_plain hc] at h
            rw [encoded_plain hc, inside_plain hc]
            rcases escaped_cases c hc with ⟨htext, heq⟩ | ⟨name, hname, heq⟩
            · rw [heq]
              exact (ih h).text htext
            · rw [heq]
              exact ((ih h).texts (isText_of_mem hname)).reference hname

theorem mem_outside_or_inside (inReference : Bool) (t : Bytes) (c : UInt8) :
    c ∈ t ↔ c ∈ outside inReference t ∨ c ∈ inside inReference t := by
  induction t generalizing inReference with
  | nil => cases inReference <;> simp [outside, inside]
  | cons d t ih =>
      cases inReference with
      | true =>
          rw [outside, inside, List.mem_cons, List.mem_cons, ih]
          exact or_left_comm
      | false =>
          rw [outside, inside]
          by_cases hopens : opens d t
          · rw [if_pos hopens, if_pos hopens, List.mem_cons, List.mem_cons, ih true]
            exact or_left_comm
          · rw [if_neg hopens, if_neg hopens, List.mem_cons, List.mem_cons, ih false, or_assoc]

/-- The encoder stays within the text, leaves raw characters in numeric references only and does
not change its output if and only if every reference of the text ends within it. Not one raw
character is left if moreover none stands in a numeric reference. -/
theorem xml_encodes_iff (s : Bytes) :
    (Encodes RawInReferences s ↔ closed false s) ∧
      (Encodes NoRaw s ↔ closed false s ∧ ∀ c ∈ inside false s, isRaw c = false) := by
  have hencode : ∀ t, encode t = if closed false t then some (encoded false t) else none :=
    fun t => encodeLoop_eq (Nat.le_refl _)
  have hclosed : ∀ {ok}, Encodes ok s → closed false s := by
    rintro ok ⟨out, hout, -, -⟩
    by_contra hno
    rw [hencode, if_neg hno] at hout
    cases hout
  have hback : closed false s → ∀ {ok : Bytes → Bytes → Prop}, ok s (encoded false s) →
      Encodes ok s := by
    intro h ok hok
    have hsettled := settled_encoded h
    refine ⟨encoded false s, by rw [hencode, if_pos h], hok, ?_⟩
    rw [hencode, if_pos hsettled.closed, hsettled.encoded]
  constructor
  · refine ⟨hclosed, fun h => hback h ?_⟩
    exact ⟨(settled_encoded h).raw, (settled_encoded h).inside⟩
  · constructor
    · intro h
      have hend := hclosed h
      obtain ⟨out, hout, hraw, -⟩ := h
      rw [hencode, if_pos hend] at hout
      obtain rfl := Option.some.inj hout
      refine ⟨hend, fun c hc => hraw c ?_⟩
      rw [mem_outside_or_inside false, (settled_encoded hend).inside]
      exact .inr hc
    · rintro ⟨h, hraw⟩
      refine hback h fun c hc => ?_
      rw [mem_outside_or_inside false, (settled_encoded h).inside] at hc
      exact hc.elim ((settled_encoded h).raw c) (hraw c)

/-- `&`, whose next byte is looked at, `&#1` without a semicolon and `&#<;` -/
theorem not_xml_encodes : ¬ Encodes RawInReferences [ampersand] ∧
    ¬ Encodes RawInReferences [ampersand, sharp, '1'.toUInt8] ∧
    ¬ Encodes NoRaw [ampersand, sharp, less, semicolon] := by
  refine ⟨?_, ?_, ?_⟩
  · rintro ⟨out, hout, -⟩
    exact absurd hout nofun
  · rintro ⟨out, hout, -⟩
    exact absurd hout nofun
  · rintro ⟨out, hout, hraw, -⟩
    have heq : encode [ampersand, sharp, less, semicolon] =
        some [ampersand, sharp, less, semicolon] := by decide
    obtain rfl := Option.some.inj (heq.symm.trans hout)
    exact absurd (hraw less (by decide)) (by decide)

end ULib.XmlEncoding
