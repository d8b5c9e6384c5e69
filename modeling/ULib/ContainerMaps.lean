import ULib.ContainerRoundTrip
import ULib.HashMapRefinement

/-!
Reading back what `operator<<` wrote of a hash map, into a map that is empty: the bindings come
back when the keys and the values are readable.
-/

namespace ULib.ContainerMaps

open ULib.KeyComparison
open ULib.EscapeCoding
open ULib.HashMap
open ULib.HashMapShape
open ULib.HashMapOperations
open ULib.HashMapIteration
open ULib.HashMapRefinement
open ULib.ContainerStream
open ULib.ContainerRoundTrip

/-- A square bracket -/
def bracket : UInt8 := ']'.toUInt8

/-- What ends or hides the key of a map; a value stands behind its key. -/
def mapStops : Bytes := [hash, bracket]

section Map

variable {before : Bytes → UInt8} {n : Nat} {t : UHashMap Bytes}

def entryText (before : Bytes → UInt8) (e : Bytes × Stored) : Bytes :=
  write ⟨before e.1, e.1⟩ ++ tab :: write e.2 ++ [lineFeed]

/-- The entries of a map, and its end. -/
def mapText (before : Bytes → UInt8) (entries : List (Bytes × Stored)) : Bytes :=
  (entries.map (entryText before)).flatten ++ [bracket]

def EntryReadable (before : Bytes → UInt8) (e : Bytes × Stored) : Prop :=
  Readable mapStops ⟨before e.1, e.1⟩ ∧ Readable [] e.2

theorem mapText_cons (e : Bytes × Stored) (entries : List (Bytes × Stored)) :
    mapText before (e :: entries) =
      write ⟨before e.1, e.1⟩ ++ tab :: (write e.2 ++ lineFeed :: mapText before entries) := by
  simp [mapText, entryText]

theorem readMapLoop_space {c : UInt8} (hc : isSpace c) (inp : Bytes) {terminator : Option UInt8} :
    readMapLoop terminator (n + 1) (c :: inp) t = readMapLoop terminator (n + 1) inp t := by
  have hskip : skipSpace (c :: inp) = skipSpace inp := List.dropWhile_cons_of_pos hc
  rw [readMapLoop, hskip, readMapLoop]

theorem skipSpace_write {stops : Bytes} {s : Stored} (h : Readable stops s) (rest : Bytes) :
    skipSpace (write s ++ rest) = write s ++ rest := by
  obtain ⟨d, u, hwrite, hd, -⟩ := write_head h
  rw [hwrite, List.cons_append, skipSpace, List.dropWhile_cons_of_neg (by simp [hd])]

/-- One entry is read and inserted. -/
theorem readMapLoop_entry {e : Bytes × Stored} (h : EntryReadable before e)
    (entries : List (Bytes × Stored)) :
    readMapLoop (some bracket) (n + 1 + 1) (mapText before (e :: entries)) t =
      (insert t e.1 e.2.text).bind (readMapLoop (some bracket) (n + 1) (mapText before entries)) := by
  obtain ⟨hkey, hvalue⟩ := h
  obtain ⟨d, u, hwrite, hd, hstops⟩ := write_head hkey
  have hne : d ≠ bracket ∧ d ≠ hash := by
    rcases hstops with rfl | hstops
    · exact ⟨by decide, by decide⟩
    · exact ⟨hstops bracket (by simp [mapStops]), hstops hash (by simp [mapStops])⟩
  have hgetkey := get_write hkey (by decide : isSpace tab)
    (write e.2 ++ lineFeed :: mapText before entries)
  have hskip : skipSpace (tab :: (write e.2 ++ lineFeed :: mapText before entries)) =
      write e.2 ++ lineFeed :: mapText before entries :=
    skipSpace_write hvalue _
  have hgetvalue := get_write hvalue (by decide : isSpace lineFeed) (mapText before entries)
  obtain ⟨d', u', hwrite', -, -⟩ := write_head hvalue
  have hrest : (fun t => readMapLoop (some bracket) (n + 1) (lineFeed :: mapText before entries) t) =
      readMapLoop (some bracket) (n + 1) (mapText before entries) := by
    funext t
    exact readMapLoop_space (by decide) _
  rw [mapText_cons, readMapLoop, skipSpace_write hkey]
  rw [hwrite, List.cons_append] at hgetkey ⊢
  dsimp only
  rw [if_neg (by simp [hne.1.symm]), if_neg hne.2, hgetkey]
  dsimp only
  rw [hskip]
  rw [hwrite', List.cons_append] at hgetvalue ⊢
  dsimp only
  rw [hgetvalue, ← hrest]

/-- The bindings with an entry more. -/
def bound (m : Bytes → Option Bytes) (e : Bytes × Stored) : Bytes → Option Bytes :=
  Function.update m e.1 (some e.2.text)

theorem readMapLoop_entries {entries : List (Bytes × Stored)}
    (hread : ∀ e ∈ entries, EntryReadable before e) {m : Bytes → Option Bytes} (ht : Keeps t m)
    (hroom : t.length + entries.length < 2 ^ 32) (hn : entries.length < n) :
    ∃ t', readMapLoop (some bracket) n (mapText before entries) t = some (t', []) ∧
      Keeps t' (entries.foldl bound m) := by
  induction entries generalizing t m n with
  | nil =>
      obtain ⟨n, rfl⟩ : ∃ k, n = k + 1 := ⟨n - 1, by omega⟩
      exact ⟨t, rfl, ht⟩
  | cons e entries ih =>
      rw [List.length_cons] at hroom hn
      obtain ⟨n, rfl⟩ : ∃ k, n = k + 1 + 1 := ⟨n - 2, by omega⟩
      obtain ⟨⟨chains, hrep⟩, hcap⟩ := ht
      obtain ⟨t₁, chains₁, hinsert, hrep₁, hcap₁, hlength⟩ :=
        insert_spec hrep e.1 e.2.text (Or.inr (by omega))
      obtain ⟨t', hloop, hkeeps⟩ := @ih (n + 1) t₁ (fun r hr => hread r (List.mem_cons_of_mem e hr))
        _ ⟨⟨chains₁, hrep₁⟩, hcap₁ ▸ hcap⟩ (by omega) (by omega)
      refine ⟨t', ?_, hkeeps⟩
      rw [readMapLoop_entry (hread e List.mem_cons_self), hinsert, Option.bind_some, hloop]

theorem foldl_enumerates {entries : List (Bytes × Stored)} {m : Bytes → Option Stored}
    (h : Enumerates entries m) :
    entries.foldl bound (fun _ => none) = fun key => (m key).map Stored.text := by
  rw [← (h.map Stored.text).bindAll_eq, bindAll, List.foldl_map]
  rfl

end Map

/-- The bindings of a map are those of the map that is read. -/
def BindingsCome (before : Bytes → UInt8) (t : UHashMap Stored) (m : Bytes → Option Stored)
    (t₀ : UHashMap Bytes) : Prop :=
  ∃ text t', writeMap before t = some text ∧ readMap text t₀ = some (t', []) ∧
    Refines t' fun key => (m key).map Stored.text

theorem length_lt_mapText (before : Bytes → UInt8) (entries : List (Bytes × Stored)) :
    entries.length < (mapText before entries).length := by
  induction entries with
  | nil => exact Nat.zero_lt_one
  | cons e entries ih =>
      rw [mapText_cons]
      simp only [List.length_append, List.length_cons]
      omega

theorem bindings_come {before : Bytes → UInt8} {t : UHashMap Stored} {m : Bytes → Option Stored}
    {t₀ : UHashMap Bytes} (ht : Keeps t m) (ht₀ : Keeps t₀ fun _ => none)
    (hread : ∀ key v, m key = some v → EntryReadable before (key, v)) :
    BindingsCome before t m t₀ := by
  obtain ⟨⟨chains, hrep⟩, -⟩ := ht
  have henum := Represents.enumerates hrep
  have hwrite := callForAllEntry_spec hrep.shape
  have hcount : ((cells t.capacity chains).map entry).length = t.length := by
    rw [List.length_map, hrep.length_eq]
  generalize (cells t.capacity chains).map entry = entries at henum hwrite hcount
  have hreadable : ∀ e ∈ entries, EntryReadable before e :=
    fun e he => hread e.1 e.2 ((henum.2 e.1 e.2).mp he)
  have hlength := length_lt_mapText before entries
  have hlt := hrep.length_lt
  obtain ⟨t', hloop, hkeeps⟩ := @readMapLoop_entries before
      ((mapText before entries).length + 1 + 1) t₀
    entries hreadable _ ht₀ (by rw [length_empty ht₀]; omega) (by omega)
  rw [foldl_enumerates henum] at hkeeps
  refine ⟨['['.toUInt8, lineFeed] ++ mapText before entries, t', ?_, ?_, refines_of_keeps hkeeps⟩
  · rw [writeMap, hwrite, mapText, ← List.append_assoc]
    rfl
  · rw [← readMapLoop_space (by decide : isSpace lineFeed)] at hloop
    exact hloop

/-- A vector comes back if and only if its strings are readable, and the bindings of a map come
back when its keys and its values are. -/
theorem containers_come (v : List Stored) (before : Bytes → UInt8) :
    (Comes v ↔ ∀ s ∈ v, Readable vectorStops s) ∧
    ∀ (t : UHashMap Stored) (m : Bytes → Option Stored) (t₀ : UHashMap Bytes), Keeps t m →
      (Keeps t₀ fun _ => none) → (∀ key s, m key = some s → EntryReadable before (key, s)) →
        BindingsCome before t m t₀ :=
  ⟨comes_iff v, fun _ _ _ ht ht₀ hread => bindings_come ht ht₀ hread⟩

/-- The empty string, a line feed between words, and a quote behind a backslash -/
def sampleVector : List Stored :=
  [⟨0, []⟩, ⟨0, [0xff, lineFeed, 0]⟩, ⟨0, [backslash, quote, quote]⟩, ⟨blank, ['x'.toUInt8]⟩]

theorem containers_sample : Comes sampleVector ∧
    ∃ t, insert (allocated 7) [hash, blank] ⟨0, [hash]⟩ = some t ∧
      BindingsCome (fun _ => 0) t
        (Function.update (fun _ => none) [hash, blank] (some ⟨0, [hash]⟩)) (allocated 7) := by
  refine ⟨(containers_come sampleVector fun _ => 0).1.mpr (by decide), ?_⟩
  have hempty : Keeps (allocated 7 : UHashMap Stored) fun _ => none := keeps_allocated (by decide)
  obtain ⟨⟨chains, hrep⟩, hcap⟩ := hempty
  obtain ⟨t, chains', hinsert, hrep', hcap', -⟩ :=
    insert_spec hrep [hash, blank] ⟨0, [hash]⟩ (Or.inr (by decide))
  refine ⟨t, hinsert, (containers_come [] _).2 t _ _ ⟨⟨chains', hrep'⟩, hcap' ▸ hcap⟩
    (keeps_allocated (by decide)) ?_⟩
  intro key v hv
  by_cases hkey : key = [hash, blank]
  · subst hkey
    rw [Function.update_self] at hv
    cases hv
    exact ⟨by decide, by decide⟩
  · rw [Function.update_of_ne hkey] at hv
    cases hv

/-- A string that ends with a backslash takes the quote behind it, and one that begins with `#` is
a comment. -/
theorem not_comes : ¬ Comes [⟨0, [blank, backslash]⟩, ⟨0, ['x'.toUInt8]⟩] ∧
    ¬ Comes [⟨0, [hash]⟩] := by
  decide

end ULib.ContainerMaps
