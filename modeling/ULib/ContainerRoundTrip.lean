import Mathlib.Data.List.TakeWhile
import Mathlib.Tactic.Common
import ULib.ContainerStream

/-!
Reading back what `operator<<` wrote of a vector: it comes back if and only if each of its
strings is readable where it stands.
-/

namespace ULib.ContainerRoundTrip

open ULib.KeyComparison
open ULib.EscapeCoding
open ULib.HashMap
open ULib.ContainerStream

/-! ### Between quotes -/

section Quoted

variable {c prev : UInt8} {t u : Bytes}

theorem getline_plain (hbackslash : c ≠ backslash) (hquote : c ≠ quote) (t : Bytes) :
    getline quote .plain (c :: t) = (getline quote .plain t).map (c :: ·) id := by
  have hstep : byteStep quote .plain c = ([c], some .plain) := by
    rw [byteStep, plainByte, if_neg hbackslash, if_neg hquote]
  rw [getline, hstep]
  rfl

theorem getline_escaped_quote (t : Bytes) :
    getline quote .plain (backslash :: quote :: t) =
      (getline quote .plain t).map (quote :: ·) id := by
  rfl

theorem getline_keeps (hkeeps : keepsBackslash c) (hquote : c ≠ quote) (t : Bytes) :
    getline quote .plain (backslash :: c :: t) =
      (getline quote .plain t).map (backslash :: c :: ·) id := by
  have hstep : byteStep quote .escaped c = ([backslash, c], some .plain) := by
    rw [byteStep, if_neg hquote, if_pos hkeeps]
  show (getline quote .escaped (c :: t)).map id id = _
  rw [getline, hstep]
  rfl

/-- Before other bytes a backslash is lost. -/
theorem getline_drops (hkeeps : keepsBackslash c = false) (hquote : c ≠ quote)
    (hline : c ≠ lineFeed)
    (t : Bytes) : getline quote .plain (backslash :: c :: t) =
      (getline quote .plain t).map (c :: ·) id := by
  have hstep : byteStep quote .escaped c = ([c], some .plain) := by
    rw [byteStep, if_neg hquote, if_neg (by simp [hkeeps]), if_neg hline]
  show (getline quote .escaped (c :: t)).map id id = _
  rw [getline, hstep]
  rfl

/-- Before a line feed it stands for white space. -/
theorem getline_continued (t : Bytes) :
    ∀ d v, (getline quote .plain (backslash :: lineFeed :: t)).1 = d :: v → d = lineFeed := by
  have hloop : ∀ t d v, (getline quote .continued t).1 = d :: v → d = lineFeed := by
    intro t
    induction t with
    | nil =>
        intro d v h
        cases h
    | cons c t ih =>
        intro d v h
        rw [getline] at h
        by_cases hc : isSpace c
        · rw [byteStep, if_pos hc] at h
          exact ih d v h
        · rw [byteStep, if_neg hc] at h
          cases hplain : (plainByte quote c).2 with
          | none =>
              rw [hplain] at h
              exact (List.cons.inj h).1.symm
          | some mode =>
              rw [hplain] at h
              exact (List.cons.inj h).1.symm
  exact hloop t

theorem escapeQuotes_ne (h : c ≠ quote) : escapeQuotes prev (c :: t) = c :: escapeQuotes c t := by
  rw [escapeQuotes, if_neg h]

theorem escapeQuotes_quote (h : prev ≠ backslash) :
    escapeQuotes prev (quote :: t) = backslash :: quote :: escapeQuotes quote t := by
  rw [escapeQuotes, if_pos rfl, if_neg h, List.nil_append]

theorem escapeQuotes_backslash :
    escapeQuotes backslash (quote :: t) =
      backslash :: backslash :: quote :: escapeQuotes quote t := by
  rw [escapeQuotes, if_pos rfl, if_pos rfl]
  rfl

theorem keeps_plain (c : UInt8) (h : keepsBackslash c) : c ≠ quote ∧ c ≠ backslash ∧ c ≠ lineFeed :=
  ⟨ne_of_class h (by decide), ne_of_class h (by decide), ne_of_class h (by decide)⟩

theorem quote_ne : quote ≠ backslash := by decide

/-- A quote is written with a backslash before it, and another where it stands behind one. -/
theorem getline_quote (t rest : Bytes) : prev ≠ backslash →
    getline quote .plain (escapeQuotes prev (quote :: t) ++ rest) =
      (getline quote .plain (escapeQuotes quote t ++ rest)).map (quote :: ·) id := by
  intro hprev
  rw [escapeQuotes_quote hprev, List.cons_append, List.cons_append, getline_escaped_quote]

theorem getline_other (hquote : c ≠ quote) (hbackslash : c ≠ backslash) (t rest : Bytes) :
    getline quote .plain (escapeQuotes prev (c :: t) ++ rest) =
      (getline quote .plain (escapeQuotes c t ++ rest)).map (c :: ·) id := by
  rw [escapeQuotes_ne hquote, List.cons_append, getline_plain hbackslash hquote]

/-- A backslash and the quote behind it. -/
theorem getline_pair (t rest : Bytes) :
    getline quote .plain (escapeQuotes prev (backslash :: quote :: t) ++ rest) =
      (getline quote .plain (escapeQuotes quote t ++ rest)).map (backslash :: quote :: ·) id := by
  rw [escapeQuotes_ne quote_ne.symm, escapeQuotes_backslash, List.cons_append, List.cons_append,
    List.cons_append, List.cons_append,
    getline_drops (by decide : keepsBackslash backslash = false) quote_ne.symm (by decide),
    getline_escaped_quote]
  rfl

/-- A backslash and a byte that keeps it. -/
theorem getline_kept (hkeeps : keepsBackslash c) (t rest : Bytes) :
    getline quote .plain (escapeQuotes prev (backslash :: c :: t) ++ rest) =
      (getline quote .plain (escapeQuotes c t ++ rest)).map (backslash :: c :: ·) id := by
  obtain ⟨hquote, -, -⟩ := keeps_plain c hkeeps
  rw [escapeQuotes_ne quote_ne.symm, escapeQuotes_ne hquote, List.cons_append, List.cons_append,
    getline_keeps hkeeps hquote]

/-- The text of a string between quotes is read up to its end. -/
theorem getline_escapeQuotes (rest : Bytes) : ∀ (t : Bytes) (prev : UInt8), KeepsBackslashes t →
    ¬ (prev = backslash ∧ t.head? = some quote) →
    getline quote .plain (escapeQuotes prev t ++ quote :: rest) = (t, rest)
  | [], _, _, _ => rfl
  | [c], prev, ⟨hc, _⟩, hprev => by
      have hbackslash : c ≠ backslash := fun h => Bool.false_ne_true (hc h)
      by_cases hquote : c = quote
      · subst hquote
        rw [getline_quote _ _ fun h => hprev ⟨h, rfl⟩]
        rfl
      · rw [getline_other hquote hbackslash]
        rfl
  | c :: d :: t, prev, ⟨hc, hd, ht⟩, hprev => by
      by_cases hquote : c = quote
      · subst hquote
        rw [getline_quote _ _ fun h => hprev ⟨h, rfl⟩,
          getline_escapeQuotes rest (d :: t) quote ⟨hd, ht⟩ fun h => quote_ne h.1]
        rfl
      by_cases hbackslash : c = backslash
      · subst hbackslash
        have hnext := hc rfl
        rw [List.head?_cons, Option.any_some, Bool.or_eq_true, decide_eq_true_iff] at hnext
        rcases hnext with rfl | hkeeps
        · rw [getline_pair, getline_escapeQuotes rest t quote ht fun h => quote_ne h.1]
          rfl
        · rw [getline_kept hkeeps,
            getline_escapeQuotes rest t d ht fun h => (keeps_plain d hkeeps).2.1 h.1]
          rfl
      · rw [getline_other hquote hbackslash,
          getline_escapeQuotes rest (d :: t) c ⟨hd, ht⟩ fun h => hbackslash h.1]
        rfl

theorem getline_two (t : Bytes) : getline quote .plain (backslash :: backslash :: t) =
    (getline quote .plain t).map (backslash :: ·) id :=
  getline_drops (by decide) quote_ne.symm (by decide) t

/-- A backslash before a byte that does not keep it, or at the end: another byte is read in
its place. -/
theorem getline_lost {rest : Bytes} (hnext : t.head?.any (fun d => d = quote || keepsBackslash d) = false)
    (htwo : t.head? ≠ some backslash) : ∀ v,
    (getline quote .plain (escapeQuotes prev (backslash :: t) ++ quote :: rest)).1 ≠ backslash :: v := by
  intro v h
  rw [escapeQuotes_ne quote_ne.symm, List.cons_append] at h
  cases t with
  | nil =>
      rw [escapeQuotes, List.nil_append, getline_escaped_quote] at h
      exact quote_ne (List.cons.inj h).1
  | cons d t =>
      rw [List.head?_cons, Option.any_some, Bool.or_eq_false_iff, decide_eq_false_iff_not] at hnext
      obtain ⟨hquote, hkeeps⟩ := hnext
      rw [escapeQuotes_ne hquote, List.cons_append] at h
      by_cases hline : d = lineFeed
      · rw [hline] at h
        exact absurd (getline_continued _ _ _ h) (by decide)
      · rw [getline_drops hkeeps hquote hline] at h
        exact htwo (congrArg some (List.cons.inj h).1)

theorem replicate_cons (m : Nat) (t : Bytes) :
    List.replicate m c ++ c :: t = c :: (List.replicate m c ++ t) := by
  induction m with
  | zero => rfl
  | succ m ih => rw [List.replicate_succ, List.cons_append, ih, List.cons_append]

/-- Backslashes that stand together are halved. -/
theorem getline_halves (rest : Bytes) : ∀ (t : Bytes) (m : Nat),
    (getline quote .plain (escapeQuotes backslash t ++ quote :: rest)).1 ≠
      List.replicate (m + 1) backslash ++ t
  | [], m => by
      intro h
      cases h
  | c :: t, m => by
      intro h
      rw [List.replicate_succ, List.cons_append] at h
      by_cases hquote : c = quote
      · subst hquote
        rw [escapeQuotes_backslash, List.cons_append, List.cons_append, List.cons_append,
          getline_two] at h
        have hlength := congrArg List.length (List.cons.inj h).2
        simp at hlength
      by_cases hbackslash : c = backslash
      · subst hbackslash
        rw [replicate_cons] at h
        cases t with
        | nil => exact getline_lost rfl (by decide) _ h
        | cons d t =>
            by_cases hd : d = quote
            · subst hd
              rw [getline_pair] at h
              exact quote_ne (List.cons.inj (List.cons.inj h).2).1
            by_cases htwo : d = backslash
            · subst htwo
              rw [escapeQuotes_ne quote_ne.symm, escapeQuotes_ne quote_ne.symm, List.cons_append,
                List.cons_append, getline_two, replicate_cons] at h
              exact getline_halves rest t (m + 1) (List.cons.inj h).2
            by_cases hkeeps : keepsBackslash d
            · rw [getline_kept hkeeps] at h
              exact (keeps_plain d hkeeps).2.1 (List.cons.inj (List.cons.inj h).2).1
            · refine getline_lost ?_ (by simp [htwo]) _ h
              simp [hd, hkeeps]
      · rw [getline_other hquote hbackslash] at h
        exact hbackslash (List.cons.inj h).1

/-- A text that is not readable comes back as another. -/
theorem getline_ne (rest : Bytes) : ∀ (t : Bytes) (prev : UInt8),
    ¬ (KeepsBackslashes t ∧ ¬ (prev = backslash ∧ t.head? = some quote)) →
    (getline quote .plain (escapeQuotes prev t ++ quote :: rest)).1 ≠ t
  | [], _, hbad => absurd ⟨trivial, fun h => nomatch h.2⟩ hbad
  | c :: t, prev, hbad => by
      intro h
      by_cases hquote : c = quote
      · subst hquote
        by_cases hprev : prev = backslash
        · subst hprev
          rw [escapeQuotes_backslash, List.cons_append, List.cons_append, getline_two] at h
          exact quote_ne (List.cons.inj h).1.symm
        · rw [getline_quote _ _ hprev] at h
          refine getline_ne rest t quote (fun hgood => hbad ⟨⟨?_, hgood.1⟩, ?_⟩) (List.cons.inj h).2
          · exact fun h => absurd h quote_ne
          · exact fun h => hprev h.1
      by_cases hbackslash : c = backslash
      · subst hbackslash
        cases t with
        | nil => exact getline_lost rfl (by decide) _ h
        | cons d t =>
            by_cases hd : d = quote
            · subst hd
              rw [getline_pair] at h
              refine getline_ne rest t quote (fun hgood => hbad ?_)
                (List.cons.inj (List.cons.inj h).2).2
              exact ⟨⟨fun _ => rfl, fun h => absurd h quote_ne, hgood.1⟩,
                fun h => hquote (by simpa using h.2)⟩
            by_cases htwo : d = backslash
            · subst htwo
              rw [escapeQuotes_ne quote_ne.symm, escapeQuotes_ne quote_ne.symm, List.cons_append,
                List.cons_append, getline_two] at h
              exact getline_halves rest t 0 (List.cons.inj h).2
            by_cases hkeeps : keepsBackslash d
            · rw [getline_kept hkeeps] at h
              refine getline_ne rest t d (fun hgood => hbad ?_)
                (List.cons.inj (List.cons.inj h).2).2
              exact ⟨⟨fun _ => by simp [hkeeps], fun h => absurd h htwo, hgood.1⟩,
                fun h => hquote (by simpa using h.2)⟩
            · refine getline_lost ?_ (by simp [htwo]) _ h
              simp [hd, hkeeps]
      · rw [getline_other hquote hbackslash] at h
        refine getline_ne rest t c (fun hgood => hbad ⟨⟨fun h => absurd h hbackslash, hgood.1⟩, ?_⟩)
          (List.cons.inj h).2
        exact fun h => hquote (by simpa using h.2)

end Quoted

/-! ### One string -/

section Element

variable {stops : Bytes} {s : Stored} {c : UInt8}

theorem asksQuote_not (c : UInt8) (h : asksQuote c = false) : c ≠ quote ∧ c ≠ backslash ∧
    c ≠ lineFeed ∧ c ≠ blank :=
  ⟨ne_of_class h (by decide), ne_of_class h (by decide), ne_of_class h (by decide),
    ne_of_class h (by decide)⟩

theorem not_asksQuote (h : needQuote s.text = false) : ∀ c ∈ s.text, asksQuote c = false := by
  rw [needQuote, Bool.or_eq_false_iff, List.any_eq_false] at h
  exact fun c hc => Bool.eq_false_iff.mpr (h.2 c hc)

theorem text_ne_nil (h : needQuote s.text = false) : s.text ≠ [] := by
  intro hnil
  rw [hnil] at h
  cases h

theorem write_quoted (h : needQuote s.text) (rest : Bytes) :
    write s ++ rest = quote :: (escapeQuotes s.before s.text ++ quote :: rest) := by
  rw [write, if_pos h, List.cons_append, List.append_assoc]
  rfl

theorem write_plain (h : needQuote s.text = false) : write s = s.text := by
  rw [write, if_neg (by simp [h])]

theorem get_quoted (h : needQuote s.text) (rest : Bytes) :
    get (write s ++ rest) = getline quote .plain (escapeQuotes s.before s.text ++ quote :: rest) := by
  rw [write_quoted h, ContainerStream.get, if_pos rfl]

theorem readWord_append {w rest : Bytes} (hw : ∀ c ∈ w, isSpace c = false) (hc : isSpace c) :
    readWord (w ++ c :: rest) = (w, c :: rest) := by
  have hall : ∀ d ∈ w, (!isSpace d) = true := fun d hd => by rw [hw d hd]; rfl
  rw [readWord, List.takeWhile_append_of_pos hall, List.dropWhile_append_of_pos hall,
    List.takeWhile_cons_of_neg (by simp [hc]), List.dropWhile_cons_of_neg (by simp [hc]),
    List.append_nil]

/-- A readable string is read up to the white space behind it. -/
theorem get_write (h : Readable stops s) (hc : isSpace c) (rest : Bytes) :
    get (write s ++ c :: rest) = (s.text, c :: rest) := by
  unfold Readable at h
  cases hquote : needQuote s.text with
  | true =>
      rw [if_pos hquote] at h
      rw [get_quoted hquote, getline_escapeQuotes _ _ _ h.1 h.2]
  | false =>
      rw [if_neg (by simp [hquote])] at h
      have hword := @readWord_append _ _ rest h.1 hc
      rw [write_plain hquote]
      cases htext : s.text with
      | nil => exact absurd htext (text_ne_nil hquote)
      | cons d t =>
          have hd := asksQuote_not d (not_asksQuote hquote d (htext ▸ List.mem_cons_self))
          rw [htext] at hword
          rw [List.cons_append, ContainerStream.get, if_neg hd.1]
          exact hword

/-- What a readable string begins with. -/
theorem write_head (h : Readable stops s) : ∃ d t, write s = d :: t ∧ isSpace d = false ∧
    (d = quote ∨ ∀ e ∈ stops, d ≠ e) := by
  unfold Readable at h
  cases hquote : needQuote s.text with
  | true =>
      refine ⟨quote, escapeQuotes s.before s.text ++ [quote], ?_, by decide, Or.inl rfl⟩
      rw [write, if_pos hquote]
  | false =>
      rw [if_neg (by simp [hquote])] at h
      rw [write_plain hquote]
      cases htext : s.text with
      | nil => exact absurd htext (text_ne_nil hquote)
      | cons d t =>
          rw [htext] at h
          exact ⟨d, t, rfl, h.1 d List.mem_cons_self,
            Or.inr fun e he hde => h.2 e he (by rw [hde]; rfl)⟩

/-- A string between quotes that is not readable comes back as another. -/
theorem get_quoted_ne (hquote : needQuote s.text) (h : ¬ Readable stops s) (rest : Bytes) :
    (get (write s ++ rest)).1 ≠ s.text := by
  unfold Readable at h
  rw [if_pos hquote] at h
  rw [get_quoted hquote]
  exact getline_ne rest _ _ h

end Element

/-! ### Vectors -/

/-- A round parenthesis -/
def closing : UInt8 := ')'.toUInt8

/-- What ends or hides a string of a vector. -/
def vectorStops : Bytes := [hash, closing]

/-- The strings of a vector, and its end. -/
def vectorText (v : List Stored) : Bytes := (v.map fun s => write s ++ [blank]).flatten ++ [closing]

theorem vectorText_cons (s : Stored) (v : List Stored) :
    vectorText (s :: v) = write s ++ blank :: vectorText v := by
  simp [vectorText]

section Vector

variable {s : Stored} {v : List Stored} {n : Nat}

theorem readVectorLoop_space {c terminator : UInt8} (hc : isSpace c) (t : Bytes) :
    readVectorLoop terminator (n + 1) (c :: t) = readVectorLoop terminator (n + 1) t := by
  have hskip : skipSpace (c :: t) = skipSpace t := List.dropWhile_cons_of_pos hc
  rw [readVectorLoop, hskip, readVectorLoop]

theorem readVectorLoop_readable (h : Readable vectorStops s) (hn : 0 < n) (u : Bytes) :
    readVectorLoop closing (n + 1) (write s ++ blank :: u) =
      (readVectorLoop closing n u).map (s.text :: ·) id := by
  obtain ⟨n, rfl⟩ : ∃ k, n = k + 1 := ⟨n - 1, by omega⟩
  obtain ⟨d, t, hwrite, hd, hstops⟩ := write_head h
  have hget := get_write h (by decide : isSpace blank) u
  have hne : d ≠ closing ∧ d ≠ hash := by
    rcases hstops with rfl | hstops
    · exact ⟨by decide, by decide⟩
    · exact ⟨hstops closing (by simp [vectorStops]), hstops hash (by simp [vectorStops])⟩
  rw [← readVectorLoop_space (by decide : isSpace blank) u]
  rw [hwrite, List.cons_append] at hget ⊢
  rw [readVectorLoop, skipSpace, List.dropWhile_cons_of_neg (by simp [hd])]
  dsimp only
  rw [if_neg hne.1, if_neg hne.2, hget]

/-- The strings of a vector are read up to its end, whatever is behind it. -/
theorem readVectorLoop_all (h : ∀ s ∈ v, Readable vectorStops s) (hn : v.length < n)
    (rest : Bytes) :
    readVectorLoop closing n (vectorText v ++ rest) = (v.map Stored.text, rest) := by
  induction v generalizing n with
  | nil =>
      obtain ⟨n, rfl⟩ : ∃ k, n = k + 1 := ⟨n - 1, by omega⟩
      rfl
  | cons s v ih =>
      rw [List.length_cons] at hn
      obtain ⟨n, rfl⟩ : ∃ k, n = k + 1 := ⟨n - 1, by omega⟩
      rw [vectorText_cons, List.append_assoc, List.cons_append,
        readVectorLoop_readable (h s List.mem_cons_self) (by omega),
        ih (fun r hr => h r (List.mem_cons_of_mem s hr)) (by omega)]
      rfl

/-! ### Behind a comment -/

/-- What is left of a vector inside a string between quotes. -/
def insideText (prev : UInt8) (t : Bytes) (v : List Stored) : Bytes :=
  escapeQuotes prev t ++ quote :: blank :: vectorText v

/-- What is read there: it begins with a blank, or has no white space and can stand in a vector. -/
def Tame (x : Bytes) : Prop :=
  x.head? = some blank ∨ ((∀ c ∈ vectorStops, x.head? ≠ some c) ∧ ∀ c ∈ x, isSpace c = false)

theorem skipComment_append {w : Bytes} (hw : lineFeed ∉ w) (t : Bytes) :
    skipComment (w ++ t) = skipComment t := by
  have hall : ∀ c ∈ w, (decide (c ≠ lineFeed)) = true := by
    intro c hc
    simpa using fun h : c = lineFeed => hw (h ▸ hc)
  rw [skipComment, List.dropWhile_append_of_pos hall, skipComment]

/-- A line feed in the text of a string, where the text goes on. -/
theorem escapeQuotes_line {prev : UInt8} {t : Bytes} (h : lineFeed ∈ escapeQuotes prev t) :
    ∃ w u, escapeQuotes prev t = w ++ lineFeed :: escapeQuotes lineFeed u ∧ lineFeed ∉ w := by
  induction t generalizing prev with
  | nil => cases h
  | cons c t ih =>
      by_cases hquote : c = quote
      · obtain ⟨w, hw, hescape⟩ : ∃ w, lineFeed ∉ w ∧
            escapeQuotes prev (c :: t) = w ++ escapeQuotes quote t := by
          subst hquote
          by_cases hprev : prev = backslash
          · subst hprev
            exact ⟨[backslash, backslash, quote], by decide, escapeQuotes_backslash⟩
          · exact ⟨[backslash, quote], by decide, escapeQuotes_quote hprev⟩
        rw [hescape] at h ⊢
        obtain ⟨w', u, hsplit, hw'⟩ := ih ((List.mem_append.mp h).resolve_left hw)
        refine ⟨w ++ w', u, by rw [hsplit, List.append_assoc], fun hmem => ?_⟩
        rcases List.mem_append.mp hmem with hmem | hmem
        · exact hw hmem
        · exact hw' hmem
      · rw [escapeQuotes_ne hquote] at h ⊢
        by_cases hline : c = lineFeed
        · subst hline
          exact ⟨[], t, rfl, List.not_mem_nil⟩
        · obtain ⟨w, u, hsplit, hw⟩ := ih ((List.mem_cons.mp h).resolve_left (Ne.symm hline))
          refine ⟨c :: w, u, by rw [hsplit]; rfl, fun hmem => ?_⟩
          exact (List.mem_cons.mp hmem).elim (fun h => hline h.symm) hw

/-- A comment ends inside a string between quotes, or with the text. -/
def Lands (t : Bytes) : Prop := skipComment t = [] ∨ ∃ prev u v, skipComment t = insideText prev u v

theorem lands_append {w t : Bytes} (hw : lineFeed ∉ w) (h : Lands t) : Lands (w ++ t) := by
  unfold Lands
  rwa [skipComment_append hw]

theorem lands_inside (prev : UInt8) (t : Bytes) {v : List Stored} (h : Lands (vectorText v)) :
    Lands (insideText prev t v) := by
  by_cases hline : lineFeed ∈ escapeQuotes prev t
  · obtain ⟨w, u, hsplit, hw⟩ := escapeQuotes_line hline
    right
    refine ⟨lineFeed, u, v, ?_⟩
    rw [insideText, hsplit, List.append_assoc, skipComment_append hw]
    rfl
  · exact lands_append hline (lands_append (w := [quote, blank]) (by decide) h)

theorem lands_vector (v : List Stored) : Lands (vectorText v) := by
  induction v with
  | nil => exact Or.inl rfl
  | cons s v ih =>
      cases hquote : needQuote s.text with
      | true =>
          rw [vectorText_cons, write_quoted hquote]
          exact lands_append (w := [quote]) (by decide) (lands_inside s.before s.text ih)
      | false =>
          rw [vectorText_cons, write_plain hquote]
          refine lands_append (fun hmem => ?_) (lands_append (w := [blank]) (by decide) ih)
          exact (asksQuote_not _ (not_asksQuote hquote _ hmem)).2.2.1 rfl

/-- Behind white space a string between quotes ends, or goes on with a byte that is no quote. -/
theorem skipSpace_escapeQuotes (prev : UInt8) (t rest : Bytes) :
    skipSpace (escapeQuotes prev t ++ quote :: rest) = quote :: rest ∨
      ∃ c w, skipSpace (escapeQuotes prev t ++ quote :: rest) = c :: w ∧ isSpace c = false ∧
        c ≠ quote ∧ (c = hash → ∃ prev' u, w = escapeQuotes prev' u ++ quote :: rest) := by
  induction t generalizing prev with
  | nil => exact Or.inl rfl
  | cons c t ih =>
      by_cases hquote : c = quote
      · obtain ⟨w, hw⟩ : ∃ w, escapeQuotes prev (c :: t) = backslash :: w := by
          subst hquote
          by_cases hprev : prev = backslash
          · exact ⟨_, by rw [hprev]; exact escapeQuotes_backslash⟩
          · exact ⟨_, escapeQuotes_quote hprev⟩
        rw [hw]
        exact Or.inr ⟨backslash, _, rfl, by decide, by decide, fun h => absurd h (by decide)⟩
      · rw [escapeQuotes_ne hquote, List.cons_append]
        by_cases hspace : isSpace c
        · rw [skipSpace, List.dropWhile_cons_of_pos hspace]
          exact ih c
        · rw [skipSpace, List.dropWhile_cons_of_neg hspace]
          exact Or.inr ⟨c, _, rfl, Bool.eq_false_iff.mpr hspace, hquote, fun _ => ⟨c, t, rfl⟩⟩

/-- What is read of a word is tame, whatever stands behind it. -/
theorem tame_word {c : UInt8} (hspace : isSpace c = false) (hclosing : c ≠ closing)
    (hhash : c ≠ hash)
    (t : Bytes) : Tame (readWord (c :: t)).1 := by
  right
  rw [readWord]
  constructor
  · intro d hd
    rw [List.takeWhile_cons_of_pos (by simp [hspace]), List.head?_cons]
    simp only [vectorStops, List.mem_cons, List.not_mem_nil, or_false] at hd
    rcases hd with rfl | rfl
    · simpa using hhash
    · simpa using hclosing
  · intro d hd
    simpa using List.mem_takeWhile_imp hd

/-- A word, a comment or the end of the vector: what is read first is tame. -/
theorem tame_first {c : UInt8} {w : Bytes} (hspace : isSpace c = false) (hquote : c ≠ quote)
    (hcomment : c = hash → ∀ y ys, (readVectorLoop closing n (skipComment w)).1 = y :: ys → Tame y)
    {inp x : Bytes} {xs : List Bytes} (hskip : skipSpace inp = c :: w)
    (hread : (readVectorLoop closing (n + 1) inp).1 = x :: xs) : Tame x := by
  rw [readVectorLoop, hskip] at hread
  dsimp only at hread
  split at hread
  · cases hread
  · next hclosing =>
      split at hread
      · next hhash => exact hcomment hhash x xs hread
      · next hhash =>
          rw [ContainerStream.get, if_neg hquote] at hread
          obtain ⟨rfl, -⟩ := List.cons.inj hread
          exact tame_word hspace hclosing hhash w

theorem tame_inside {prev : UInt8} {t x : Bytes} {xs : List Bytes}
    (h : (readVectorLoop closing n (insideText prev t v)).1 = x :: xs) : Tame x := by
  induction n generalizing prev t v x xs with
  | zero => cases h
  | succ n ih =>
      rcases skipSpace_escapeQuotes prev t (blank :: vectorText v) with hskip | ⟨c, w, hskip, hspace,
        hquote, hcomment⟩
      · -- the quote at the end begins a string, which starts with the blank
        rw [insideText, readVectorLoop, hskip] at h
        dsimp only at h
        rw [if_neg (by decide), if_neg (by decide), ContainerStream.get, if_pos rfl,
          getline_plain (by decide) (by decide)] at h
        obtain ⟨rfl, -⟩ := List.cons.inj h
        exact Or.inl rfl
      · refine tame_first hspace hquote (fun hhash y ys hread => ?_) hskip h
        obtain ⟨prev', u, rfl⟩ := hcomment hhash
        rcases lands_inside prev' u (lands_vector v) with hland | ⟨prev'', u', v', hland⟩
        · rw [insideText] at hland
          rw [hland] at hread
          cases n with
          | zero => cases hread
          | succ n => cases hread
        · rw [insideText] at hland
          rw [hland] at hread
          exact ih hread

/-! ### Strings of white space -/

/-- White space that is written without quotes. -/
def soft (c : UInt8) : Bool := isSpace c && !asksQuote c

/-- Such white space with backslashes before it. -/
def Soft (x : Bytes) : Prop := (∀ c ∈ x, c = backslash ∨ soft c) ∧ ∀ c ∈ x.getLast?, soft c

theorem soft_spec : ∀ c, soft c → isSpace c ∧ c ≠ backslash ∧ c ≠ quote ∧ c ≠ blank ∧ c ≠ lineFeed ∧
    keepsBackslash c = false := forall_byte (by decide +kernel)

theorem soft_nil : Soft [] := ⟨fun _ h => absurd h List.not_mem_nil, nofun⟩

theorem soft_cons {c : UInt8} {x : Bytes} (h : Soft (c :: x)) : (c = backslash ∨ soft c) ∧ Soft x ∧
    (x = [] → soft c) := by
  refine ⟨h.1 c List.mem_cons_self, ⟨fun d hd => h.1 d (List.mem_cons_of_mem c hd), ?_⟩, ?_⟩
  · intro d hd
    cases x with
    | nil => cases hd
    | cons e x => exact h.2 d hd
  · rintro rfl
    exact h.2 c rfl

theorem soft_of_cons {c : UInt8} {x : Bytes} (hc : c = backslash ∨ soft c) (hx : Soft x)
    (hlast : x = [] → soft c) : Soft (c :: x) := by
  constructor
  · intro d hd
    rcases List.mem_cons.mp hd with rfl | hd
    · exact hc
    · exact hx.1 d hd
  · intro d hd
    cases x with
    | nil =>
        cases hd
        exact hlast rfl
    | cons e x => exact hx.2 d hd

theorem not_tame_soft {x : Bytes} (hne : x ≠ []) (hsoft : Soft x) : ¬ Tame x := by
  rintro (hblank | ⟨-, hspace⟩)
  · obtain ⟨y, rfl⟩ : ∃ y, x = blank :: y := ⟨x.tail, (List.cons_head?_tail hblank).symm⟩
    rcases hsoft.1 blank List.mem_cons_self with h | h
    · exact absurd h (by decide)
    · exact absurd h (by decide)
  · have hlast := hsoft.2 (x.getLast hne) (List.getLast?_eq_some_getLast hne)
    have := (soft_spec _ hlast).1
    rw [hspace _ (List.getLast_mem hne)] at this
    cases this

theorem getline_line (w rest : Bytes) : ∃ y,
    (getline quote .plain (backslash :: lineFeed :: (w ++ quote :: rest))).1 = lineFeed :: y := by
  have hloop : ∃ y, (getline quote .continued (w ++ quote :: rest)).1 = lineFeed :: y := by
    induction w with
    | nil => exact ⟨[], rfl⟩
    | cons c w ih =>
        rw [List.cons_append, getline]
        by_cases hspace : isSpace c
        · rw [byteStep, if_pos hspace]
          exact ih
        · rw [byteStep, if_neg hspace]
          cases (plainByte quote c).2 with
          | none => exact ⟨_, rfl⟩
          | some mode => exact ⟨_, rfl⟩
  exact hloop

/-- A string that comes back as white space without quotes ends at its quote, and is such white
space itself. -/
theorem soft_of_getline (rest : Bytes) : ∀ (t : Bytes) (prev : UInt8),
    Soft (getline quote .plain (escapeQuotes prev t ++ quote :: rest)).1 →
    (getline quote .plain (escapeQuotes prev t ++ quote :: rest)).2 = rest ∧ Soft t ∧
      ((getline quote .plain (escapeQuotes prev t ++ quote :: rest)).1 ≠ [] → t ≠ [])
  | [], _, _ => ⟨rfl, soft_nil, fun h => absurd rfl h⟩
  | c :: t, prev, h => by
      have hnot : ∀ {d : UInt8} {x : Bytes}, Soft (d :: x) → d ≠ backslash → soft d = false → False := by
        intro d x hsoft hne hd
        rcases (soft_cons hsoft).1 with hbackslash | hd'
        · exact hne hbackslash
        · rw [hd] at hd'
          cases hd'
      by_cases hquote : c = quote
      · exfalso
        subst hquote
        by_cases hprev : prev = backslash
        · subst hprev
          rw [escapeQuotes_backslash, List.cons_append, List.cons_append, getline_two] at h
          exact absurd ((soft_cons h).2.2 rfl) (by decide)
        · rw [getline_quote _ _ hprev] at h
          exact hnot h (by decide) (by decide)
      by_cases hbackslash : c = backslash
      · subst hbackslash
        cases t with
        | nil =>
            exfalso
            exact hnot h (by decide) (by decide)
        | cons d u =>
            by_cases hd : d = quote
            · exfalso
              subst hd
              rw [getline_pair] at h
              exact hnot (soft_cons h).2.1 (by decide) (by decide)
            by_cases htwo : d = backslash
            · subst htwo
              rw [escapeQuotes_ne quote_ne.symm, escapeQuotes_ne quote_ne.symm, List.cons_append,
                List.cons_append, getline_two] at h ⊢
              obtain ⟨-, hrest, hlast⟩ := soft_cons h
              obtain ⟨hend, hu, hne⟩ := soft_of_getline rest u backslash hrest
              have hune : u ≠ [] := hne fun h => absurd (hlast h) (by decide)
              exact ⟨hend, soft_of_cons (Or.inl rfl)
                (soft_of_cons (Or.inl rfl) hu fun h => absurd h hune) nofun, fun _ => List.cons_ne_nil _ _⟩
            by_cases hkeeps : keepsBackslash d
            · exfalso
              rw [getline_kept hkeeps] at h
              rcases (soft_cons (soft_cons h).2.1).1 with hd' | hd'
              · exact htwo hd'
              · rw [(soft_spec d hd').2.2.2.2.2] at hkeeps
                cases hkeeps
            rw [escapeQuotes_ne quote_ne.symm, escapeQuotes_ne hd, List.cons_append,
              List.cons_append]
              at h ⊢
            by_cases hline : d = lineFeed
            · exfalso
              subst hline
              obtain ⟨y, hy⟩ := getline_line (escapeQuotes lineFeed u) rest
              rw [hy] at h
              exact hnot h (by decide) (by decide)
            · rw [getline_drops (Bool.eq_false_iff.mpr hkeeps) hd hline] at h ⊢
              obtain ⟨hsoft, hrest, -⟩ := soft_cons h
              have hsoft := hsoft.resolve_left htwo
              obtain ⟨hend, hu, -⟩ := soft_of_getline rest u d hrest
              exact ⟨hend, soft_of_cons (Or.inl rfl) (soft_of_cons (Or.inr hsoft) hu fun _ => hsoft)
                nofun, fun _ => List.cons_ne_nil _ _⟩
      · rw [getline_other hquote hbackslash] at h ⊢
        obtain ⟨hsoft, hrest, -⟩ := soft_cons h
        have hsoft := hsoft.resolve_left hbackslash
        obtain ⟨hend, ht, -⟩ := soft_of_getline rest t c hrest
        exact ⟨hend, soft_of_cons (Or.inr hsoft) ht fun _ => hsoft, fun _ => List.cons_ne_nil _ _⟩

/-! ### What is not read back -/

theorem soft_text (hquote : needQuote s.text = false) (h : ∀ c ∈ s.text, isSpace c) :
    s.text ≠ [] ∧ Soft s.text := by
  have htext : ∀ c ∈ s.text, soft c := by
    intro c hc
    rw [soft, h c hc, not_asksQuote hquote c hc]
    rfl
  exact ⟨text_ne_nil hquote, fun c hc => Or.inr (htext c hc), fun c hc =>
    htext c (List.mem_of_getLast? hc)⟩

/-- A string of white space without quotes is not read at all. -/
theorem readVectorLoop_vanishes (hquote : needQuote s.text = false) (h : ∀ c ∈ s.text, isSpace c) :
    readVectorLoop closing (n + 1) (vectorText (s :: v)) =
      readVectorLoop closing (n + 1) (vectorText v) := by
  rw [vectorText_cons, write_plain hquote]
  generalize s.text = t at h
  induction t with
  | nil => exact readVectorLoop_space (by decide) _
  | cons c t ih =>
      rw [List.cons_append, readVectorLoop_space (h c List.mem_cons_self)]
      exact ih fun d hd => h d (List.mem_cons_of_mem c hd)

/-- Of another string without quotes a tame part is read, or what a comment leads to. -/
theorem tame_plain (hquote : needQuote s.text = false) (h : ¬ ∀ c ∈ s.text, isSpace c) {x : Bytes}
    {xs : List Bytes} (hread : (readVectorLoop closing (n + 1) (vectorText (s :: v))).1 = x :: xs) :
    Tame x := by
  have hdrop : s.text.dropWhile isSpace ≠ [] := by
    rw [Ne, List.dropWhile_eq_nil_iff]
    exact h
  obtain ⟨c, u, hcu⟩ := List.exists_cons_of_ne_nil hdrop
  have hmem : ∀ d ∈ c :: u, d ∈ s.text := by
    intro d hd
    rw [← hcu] at hd
    exact (List.dropWhile_suffix isSpace).subset hd
  have hspace : isSpace c = false := by
    have := List.head_dropWhile_not isSpace hdrop
    simpa [hcu] using this
  have hplain := fun d hd => asksQuote_not d (not_asksQuote hquote d (hmem d hd))
  have hskip : skipSpace (vectorText (s :: v)) = c :: (u ++ blank :: vectorText v) := by
    rw [vectorText_cons, write_plain hquote, skipSpace, List.dropWhile_append, hcu]
    rfl
  refine tame_first hspace (hplain c List.mem_cons_self).1 (fun _ y ys hy => ?_) hskip hread
  have hline : lineFeed ∉ u := fun hu => (hplain _ (List.mem_cons_of_mem c hu)).2.2.1 rfl
  rcases lands_append hline (lands_append (w := [blank]) (by decide) (lands_vector v)) with hland |
    ⟨prev, t, v', hland⟩
  · change skipComment (u ++ blank :: vectorText v) = [] at hland
    rw [hland] at hy
    cases n with
    | zero => cases hy
    | succ n => cases hy
  · change skipComment (u ++ blank :: vectorText v) = _ at hland
    rw [hland] at hy
    exact tame_inside hy

theorem readVectorLoop_quoted (hquote : needQuote s.text) :
    (readVectorLoop closing (n + 1) (vectorText (s :: v))).1 =
      (get (write s ++ blank :: vectorText v)).1 ::
        (readVectorLoop closing n (get (write s ++ blank :: vectorText v)).2).1 := by
  rw [vectorText_cons, write_quoted hquote]
  rfl

/-- Strings of white space that were expected before are not made up for by the strings that
follow: each that is read in their place is white space itself. -/
theorem readVectorLoop_shift {xs : List Bytes} (hne : xs ≠ []) (hxs : ∀ x ∈ xs, x ≠ [] ∧ Soft x) :
    (readVectorLoop closing n (vectorText v)).1 ≠ xs ++ v.map Stored.text := by
  induction v generalizing n xs with
  | nil =>
      intro h
      rw [List.map_nil, List.append_nil] at h
      cases n with
      | zero => exact hne h.symm
      | succ n => exact hne h.symm
  | cons s v ih =>
      intro h
      obtain ⟨x, xs, rfl⟩ := List.exists_cons_of_ne_nil hne
      obtain ⟨hx, hsoft⟩ := hxs x List.mem_cons_self
      have hrest : ∀ y ∈ xs, y ≠ [] ∧ Soft y := fun y hy => hxs y (List.mem_cons_of_mem x hy)
      cases n with
      | zero => cases h
      | succ n =>
          cases hquote : needQuote s.text with
          | true =>
              rw [readVectorLoop_quoted hquote, List.cons_append] at h
              obtain ⟨hfirst, htail⟩ := List.cons.inj h
              rw [get_quoted hquote] at hfirst htail
              obtain ⟨hend, htext, htextne⟩ :=
                soft_of_getline (blank :: vectorText v) s.text s.before (by rw [hfirst]; exact hsoft)
              rw [hend] at htail
              cases n with
              | zero => simp [readVectorLoop] at htail
              | succ n =>
                  rw [readVectorLoop_space (by decide), List.map_cons, List.append_cons] at htail
                  refine ih (by simp) (fun y hy => ?_) htail
                  rcases List.mem_append.mp hy with hy | hy
                  · exact hrest y hy
                  · rw [List.mem_singleton.mp hy]
                    exact ⟨htextne (by rw [hfirst]; exact hx), htext⟩
          | false =>
              by_cases hall : ∀ c ∈ s.text, isSpace c
              · rw [readVectorLoop_vanishes hquote hall, List.map_cons, List.append_cons] at h
                refine ih (by simp) (fun y hy => ?_) h
                rcases List.mem_append.mp hy with hy | hy
                · exact hxs y hy
                · rw [List.mem_singleton.mp hy]
                  exact soft_text hquote hall
              · exact not_tame_soft hx hsoft (tame_plain hquote hall h)

/-- The first string that is not readable comes back as another, or not at all. -/
theorem readVectorLoop_ne (h : ∃ s ∈ v, ¬ Readable vectorStops s) (hn : v.length < n) :
    (readVectorLoop closing n (vectorText v)).1 ≠ v.map Stored.text := by
  induction v generalizing n with
  | nil =>
      obtain ⟨s, hs, -⟩ := h
      cases hs
  | cons s v ih =>
      rw [List.length_cons] at hn
      obtain ⟨n, rfl⟩ : ∃ k, n = k + 1 := ⟨n - 1, by omega⟩
      by_cases hs : Readable vectorStops s
      · rw [vectorText_cons, readVectorLoop_readable hs (by omega)]
        have hrest : ∃ r ∈ v, ¬ Readable vectorStops r := by
          obtain ⟨r, hr, hbad⟩ := h
          rcases List.mem_cons.mp hr with rfl | hr
          · exact absurd hs hbad
          · exact ⟨r, hr, hbad⟩
        exact fun heq => ih hrest (by omega) (List.cons.inj heq).2
      · intro heq
        cases hquote : needQuote s.text with
        | true =>
            rw [readVectorLoop_quoted hquote] at heq
            exact get_quoted_ne hquote hs _ (List.cons.inj heq).1
        | false =>
            by_cases hall : ∀ c ∈ s.text, isSpace c
            · rw [readVectorLoop_vanishes hquote hall] at heq
              refine @readVectorLoop_shift _ _ [s.text] (by simp) (fun x hx => ?_) heq
              rw [List.mem_singleton.mp hx]
              exact soft_text hquote hall
            · refine hs ?_
              rw [Readable, if_neg (by simp [hquote])]
              rcases tame_plain hquote hall heq with hblank | ⟨hstops, hspace⟩
              · have hmem : blank ∈ s.text := List.mem_of_head? hblank
                exact absurd (not_asksQuote hquote blank hmem) (by decide)
              · exact ⟨hspace, hstops⟩

/-- A vector comes back as it was. -/
def Comes (v : List Stored) : Prop := readVector (writeVector v) = (v.map Stored.text, [])

instance : DecidablePred Comes := fun _ => inferInstanceAs (Decidable (_ = _))

theorem length_lt_vectorText (v : List Stored) : v.length < (vectorText v).length := by
  induction v with
  | nil => decide
  | cons s v ih =>
      rw [vectorText_cons]
      simp only [List.length_append, List.length_cons]
      omega

theorem readVector_write (v : List Stored) (rest : Bytes) : readVector (writeVector v ++ rest) =
    readVectorLoop closing ((vectorText v ++ rest).length + 1 + 1) (vectorText v ++ rest) := by
  rw [← readVectorLoop_space (by decide : isSpace blank), writeVector, vectorText]
  simp only [List.append_assoc, List.cons_append, List.nil_append]
  rfl

theorem readVector_readable (h : ∀ s ∈ v, Readable vectorStops s) (rest : Bytes) :
    readVector (writeVector v ++ rest) = (v.map Stored.text, rest) := by
  have hlength := length_lt_vectorText v
  rw [readVector_write, readVectorLoop_all h (by rw [List.length_append]; omega)]

theorem comes_iff (v : List Stored) : Comes v ↔ ∀ s ∈ v, Readable vectorStops s := by
  have hlength := length_lt_vectorText v
  constructor
  · intro h
    by_contra hbad
    push Not at hbad
    have hread := readVector_write v []
    rw [List.append_nil, List.append_nil] at hread
    rw [Comes, hread] at h
    exact readVectorLoop_ne hbad (by omega) (congrArg Prod.fst h)
  · intro h
    have hread := readVector_readable h []
    rwa [List.append_nil] at hread

end Vector

end ULib.ContainerRoundTrip
