import ULib.EscapeCoding
import ULib.ReferenceExpansion
import ULib.TextSearch

/-!
`UStringExt::expandEnvironmentVar` and `UStringExt::getEnvironmentVar` of
`utility/string_ext.cpp`, which call each other: the references `$name` of a
text are replaced by the values of an environment, and these are expanded
themselves. Behind the text of an environment is a NUL.
-/

namespace ULib.EnvironmentVar

open ULib.KeyComparison
open ULib.EscapeCoding
open ULib.ReferenceExpansion
open ULib.TextSearch (search idxOf_append_cons)

def dollar : UInt8 := '$'.toUInt8

def hash : UInt8 := '#'.toUInt8

def equals : UInt8 := '='.toUInt8

def isQuote (c : UInt8) : Bool := c = '\''.toUInt8 || c = '"'.toUInt8

/-- `u__isname` -/
def isName (c : UInt8) : Bool := isAlnum c || c = '_'.toUInt8

/-! ### The lookup in an environment -/

/-- The byte in front of a position, or NUL. -/
def before (environment : Bytes) (i : Nat) : UInt8 := if i = 0 then 0 else peek environment (i - 1)

/-- The loop that looks for `name=`; every round goes behind a name, and the outer `none` is a loop
that did not end in so many rounds. -/
def assignedLoop (environment name : Bytes) : Nat → Nat → Option (Option Nat)
  | 0, _ => none
  | fuel + 1, start =>
      match (search name (environment.drop start)).map (start + ·) with
      | none => some none
      | some i =>
          let c := before environment i
          if isName c ∨ c = hash then assignedLoop environment name fuel (i + name.length)
          else if peek environment (i + name.length) ≠ equals then
            assignedLoop environment name fuel (i + name.length)
          else some (some i)

/-- Whether `c1` behind `prev` ends a value: it is the quote `c` that was in front of the name, or
white space if there was none. -/
def endsValue (c prev c1 : UInt8) : Bool :=
  if isQuote c then c1 = c && prev ≠ backslash else isSpace c1

def valueLoop (c : UInt8) : UInt8 → Bytes → Bytes
  | _, [] => []
  | prev, c1 :: t => if endsValue c prev c1 then [] else c1 :: valueLoop c c1 t

/-- The value of a name before it is expanded; the inner `none` is a name that is not there. -/
def assigned (environment name : Bytes) : Option (Option Bytes) :=
  (assignedLoop environment name (environment.length + 1) 0).map (Option.map fun i =>
    valueLoop (before environment i) equals (environment.drop (i + name.length + 1)))

/-! ### The two functions -/

/-- The environment of the process, which is asked with a buffer of 128 bytes. -/
def processVar (getenv : Bytes → Option Bytes) (name : Bytes) : Option Bytes :=
  if name.length < 128 then some ((getenv name).getD []) else none

/-- The loop of `expandEnvironmentVar` with what `getEnvironmentVar` gives; every round goes behind
a `$`. -/
def expandLoop (get : Option Bytes → Bytes → Option Bytes) (environment : Option Bytes) :
    Nat → Bytes → Bytes → Option Bytes
  | 0, _, _ => none
  | fuel + 1, s, result =>
      match s.idxOf? dollar with
      | none => some (result ++ s)
      | some len =>
          let name := (s.drop (len + 1)).takeWhile isName
          let value :=
            if name = [] then some []
            else (get environment name).bind fun value =>
              if result ≠ [] ∧ dollar ∈ value then get (some result) name else some value
          value.bind fun value =>
            expandLoop get environment fuel (s.drop (len + 1 + name.length))
              (result ++ s.take len ++ value)

/-- `none` is a recursion deeper than `fuel`, or a name too long for the buffer. -/
def getEnvironmentVar (getenv : Bytes → Option Bytes) :
    Nat → Option Bytes → Bytes → Option Bytes
  | 0, _, _ => none
  | _ + 1, none, name => processVar getenv name
  | fuel + 1, some environment, name =>
      (assigned environment name).bind fun
        | none => processVar getenv name
        | some v =>
            if dollar ∈ v then
              expandLoop (getEnvironmentVar getenv fuel) (some environment) (v.length + 1) v []
            else some v

def expandEnvironmentVar (getenv : Bytes → Option Bytes) (fuel : Nat) (environment : Option Bytes)
    (s : Bytes) : Option Bytes :=
  expandLoop (getEnvironmentVar getenv fuel) environment (s.length + 1) s []

/-! ### The references of a text -/

/-- The pieces of a text behind `k` bytes that belong to a name; a `$` without a name is `lone`. -/
def piecesFrom (lone : Bytes) : Nat → Bytes → List (Piece UInt8 Bytes)
  | _, [] => []
  | k + 1, _ :: t => piecesFrom lone k t
  | 0, c :: t =>
      if c ≠ dollar then .text [c] :: piecesFrom lone 0 t
      else if t.takeWhile isName = [] then .text lone :: piecesFrom lone 0 t
      else .reference (t.takeWhile isName) :: piecesFrom lone (t.takeWhile isName).length t

def pieces (lone s : Bytes) : List (Piece UInt8 Bytes) := piecesFrom lone 0 s

theorem pieces_nil (lone : Bytes) : pieces lone [] = [] := rfl

theorem piecesFrom_drop (lone : Bytes) (k : Nat) (s : Bytes) :
    piecesFrom lone k s = pieces lone (s.drop k) := by
  induction k generalizing s with
  | zero => rfl
  | succ k ih =>
      cases s with
      | nil => rfl
      | cons c t => exact ih t

theorem pieces_append {w : Bytes} (hw : dollar ∉ w) (lone t : Bytes) :
    pieces lone (w ++ t) = w.map (fun c => .text [c]) ++ pieces lone t := by
  induction w with
  | nil => rfl
  | cons c w ih =>
      have hc : c ≠ dollar := fun h => hw (h ▸ List.mem_cons_self)
      have hrest := ih fun h => hw (List.mem_cons_of_mem c h)
      rw [List.cons_append, pieces, piecesFrom, if_pos hc]
      exact congrArg (Piece.text [c] :: ·) hrest

theorem pieces_plain {w : Bytes} (hw : dollar ∉ w) (lone : Bytes) :
    pieces lone w = w.map (fun c => .text [c]) := by
  have happend := pieces_append hw lone []
  rwa [pieces_nil, List.append_nil, List.append_nil] at happend

theorem pieces_lone {lone t : Bytes} (h : t.takeWhile isName = []) :
    pieces lone (dollar :: t) = .text lone :: pieces lone t := by
  rw [pieces, piecesFrom, if_neg (not_not_intro rfl), if_pos h]
  rfl

theorem pieces_reference {lone t : Bytes} (h : t.takeWhile isName ≠ []) :
    pieces lone (dollar :: t) =
      .reference (t.takeWhile isName) :: pieces lone (t.drop (t.takeWhile isName).length) := by
  rw [pieces, piecesFrom, if_neg (not_not_intro rfl), if_neg h, piecesFrom_drop]

/-! ### One text -/

/-- A text with the values that a function gives to its references. -/
def substitute (get : Bytes → Option Bytes) : List (Piece UInt8 Bytes) → Option Bytes
  | [] => some []
  | .text t :: ps => (substitute get ps).map (t ++ ·)
  | .reference name :: ps => (get name).bind fun v => (substitute get ps).map (v ++ ·)

theorem substitute_append (get : Bytes → Option Bytes) (w : Bytes)
    (ps : List (Piece UInt8 Bytes)) :
    substitute get (w.map (fun c => .text [c]) ++ ps) = (substitute get ps).map (w ++ ·) := by
  induction w with
  | nil => exact (congrFun Option.map_id _).symm
  | cons c w ih =>
      rw [List.map_cons, List.cons_append, substitute, ih, Option.map_map]
      rfl

theorem references_append (w : Bytes) (ps : List (Piece UInt8 Bytes)) :
    references (w.map (fun c => Piece.text [c]) ++ ps) = references ps := by
  induction w with
  | nil => rfl
  | cons c w ih => exact ih

/-! ### One round of the loop -/

theorem expandLoop_plain (get : Option Bytes → Bytes → Option Bytes)
    (environment : Option Bytes) (k : Nat) {s : Bytes} (hs : dollar ∉ s) (result : Bytes) :
    expandLoop get environment (k + 1) s result = some (result ++ s) := by
  rw [expandLoop, List.idxOf?_eq_none_iff.mpr hs]

theorem drop_reference (w u : Bytes) (j : Nat) :
    (w ++ dollar :: u).drop (w.length + 1 + j) = u.drop j := by
  rw [← List.drop_drop, ← List.drop_drop, List.drop_left, List.drop_one, List.tail_cons]

theorem expandLoop_dollar (get : Option Bytes → Bytes → Option Bytes)
    (environment : Option Bytes) (k : Nat) {w : Bytes} (hw : dollar ∉ w) (u result : Bytes) :
    expandLoop get environment (k + 1) (w ++ dollar :: u) result =
      (if u.takeWhile isName = [] then some []
        else (get environment (u.takeWhile isName)).bind fun value =>
          if result ≠ [] ∧ dollar ∈ value then get (some result) (u.takeWhile isName)
          else some value).bind fun value =>
        expandLoop get environment k (u.drop (u.takeWhile isName).length)
          (result ++ w ++ value) := by
  have hdrop := drop_reference w u 0
  rw [Nat.add_zero, List.drop_zero] at hdrop
  rw [expandLoop, idxOf_append_cons hw]
  dsimp only
  rw [hdrop, drop_reference, List.take_left]

/-- The loop gives the text with its references replaced as long as no value has a `$`, with which
it would be looked for again. -/
theorem expandLoop_eq {get : Option Bytes → Bytes → Option Bytes} {environment : Option Bytes}
    {k : Nat} {s : Bytes} (hk : s.length < k)
    (hget : ∀ m ∈ references (pieces [] s), ∀ v, get environment m = some v → dollar ∉ v)
    (result : Bytes) :
    expandLoop get environment k s result =
      (substitute (get environment) (pieces [] s)).map (result ++ ·) := by
  induction k generalizing s result with
  | zero => cases hk
  | succ k ih =>
      by_cases hs : dollar ∈ s
      · obtain ⟨w, u, rfl, hw⟩ := List.eq_append_cons_of_mem hs
        have hlength : (u.drop (u.takeWhile isName).length).length < k := by
          rw [List.length_append, List.length_cons] at hk
          rw [List.length_drop]
          omega
        rw [pieces_append hw, references_append] at hget
        rw [expandLoop_dollar get environment k hw, pieces_append hw, substitute_append]
        by_cases hname : u.takeWhile isName = []
        · rw [pieces_lone hname] at hget ⊢
          rw [hname, List.length_nil] at hlength ⊢
          rw [if_pos rfl, Option.bind_some, ih hlength hget, substitute, Option.map_map,
            Option.map_map, List.append_nil]
          refine congrArg (Option.map · _) (funext fun x => ?_)
          exact List.append_assoc result w x
        · rw [pieces_reference hname] at hget ⊢
          rw [if_neg hname, substitute, Option.map_bind, Option.map_bind, Option.bind_assoc]
          rw [references_reference] at hget
          refine Option.bind_congr fun v hv => ?_
          have hv : dollar ∉ v := hget _ List.mem_cons_self v hv
          rw [if_neg fun h => hv h.2, Option.bind_some,
            ih hlength fun m hm => hget m (List.mem_cons_of_mem _ hm)]
          dsimp only [Function.comp_apply]
          rw [Option.map_map, Option.map_map]
          refine congrArg (Option.map · _) (funext fun x => ?_)
          rw [List.append_assoc, List.append_assoc]
          rfl
      · have happend := substitute_append (get environment) s []
        rw [List.append_nil] at happend
        rw [expandLoop_plain get environment k hs, pieces_plain hs, happend, substitute,
          Option.map_some, Option.map_some, List.append_nil]

/-- The loop asks for the value of every reference. -/
theorem get_of_expandLoop {get : Option Bytes → Bytes → Option Bytes} {environment : Option Bytes}
    {k : Nat} {s result out : Bytes} (h : expandLoop get environment k s result = some out) :
    ∀ m ∈ references (pieces [] s), ∃ v, get environment m = some v := by
  induction k generalizing s result with
  | zero => cases h
  | succ k ih =>
      by_cases hs : dollar ∈ s
      · obtain ⟨w, u, rfl, hw⟩ := List.eq_append_cons_of_mem hs
        rw [expandLoop_dollar get environment k hw] at h
        obtain ⟨value, hvalue, hrest⟩ := Option.bind_eq_some_iff.mp h
        have hnext := ih hrest
        rw [pieces_append hw, references_append]
        by_cases hname : u.takeWhile isName = []
        · rw [hname] at hnext
          rw [pieces_lone hname]
          exact hnext
        · rw [if_neg hname] at hvalue
          obtain ⟨v, hv, -⟩ := Option.bind_eq_some_iff.mp hvalue
          rw [pieces_reference hname, references_reference]
          intro m hm
          rcases List.mem_cons.mp hm with rfl | hm
          · exact ⟨v, hv⟩
          · exact hnext m hm
      · rw [pieces_plain hs, ← List.append_nil (s.map _), references_append]
        exact nofun

/-- The loop ends also where more values are known. -/
theorem expandLoop_mono {get get' : Option Bytes → Bytes → Option Bytes}
    (hmono : ∀ environment m v, get environment m = some v → get' environment m = some v)
    {environment : Option Bytes} {k : Nat} {s result out : Bytes}
    (h : expandLoop get environment k s result = some out) :
    expandLoop get' environment k s result = some out := by
  induction k generalizing s result with
  | zero => cases h
  | succ k ih =>
      by_cases hs : dollar ∈ s
      · obtain ⟨w, u, rfl, hw⟩ := List.eq_append_cons_of_mem hs
        rw [expandLoop_dollar _ environment k hw] at h ⊢
        obtain ⟨value, hvalue, hrest⟩ := Option.bind_eq_some_iff.mp h
        refine Option.bind_eq_some_iff.mpr ⟨value, ?_, ih hrest⟩
        split_ifs at hvalue ⊢ with hname
        · exact hvalue
        · obtain ⟨v, hv, hagain⟩ := Option.bind_eq_some_iff.mp hvalue
          refine Option.bind_eq_some_iff.mpr ⟨v, hmono _ _ _ hv, ?_⟩
          split_ifs at hagain ⊢
          · exact hmono _ _ _ hagain
          · exact hagain
      · rw [expandLoop_plain _ environment k hs] at h ⊢
        exact h

/-! ### Texts without `$` -/

theorem plain_pieces {k : Nat} {s t : Bytes} (h : Piece.text t ∈ piecesFrom [] k s) :
    dollar ∉ t := by
  induction s generalizing k with
  | nil => cases k <;> cases h
  | cons c s ih =>
      cases k with
      | succ k => exact ih h
      | zero =>
          rw [piecesFrom] at h
          split_ifs at h with hc hname
          · rcases List.mem_cons.mp h with htext | hmem
            · cases htext
              exact fun hmem => hc (List.mem_singleton.mp hmem).symm
            · exact ih hmem
          · rcases List.mem_cons.mp h with htext | hmem
            · cases htext
              exact List.not_mem_nil
            · exact ih hmem
          · rcases List.mem_cons.mp h with htext | hmem
            · cases htext
            · exact ih hmem

/-- Texts without `$` to which no value gives one. -/
theorem plain_substitute {get : Bytes → Option Bytes} {ps : List (Piece UInt8 Bytes)} {out : Bytes}
    (htext : ∀ t, Piece.text t ∈ ps → dollar ∉ t)
    (hget : ∀ m ∈ references ps, ∀ v, get m = some v → dollar ∉ v)
    (h : substitute get ps = some out) : dollar ∉ out := by
  induction ps generalizing out with
  | nil =>
      obtain rfl := Option.some.inj h
      exact List.not_mem_nil
  | cons p ps ih =>
      have htext' := fun t ht => htext t (List.mem_cons_of_mem p ht)
      cases p with
      | text t =>
          obtain ⟨w, hw, rfl⟩ := Option.map_eq_some_iff.mp h
          rw [List.mem_append, not_or]
          exact ⟨htext t List.mem_cons_self, ih htext' hget hw⟩
      | reference name =>
          rw [references_reference] at hget
          obtain ⟨v, hv, hrest⟩ := Option.bind_eq_some_iff.mp h
          obtain ⟨w, hw, rfl⟩ := Option.map_eq_some_iff.mp hrest
          rw [List.mem_append, not_or]
          exact ⟨hget name List.mem_cons_self v hv,
            ih htext' (fun m hm => hget m (List.mem_cons_of_mem name hm)) hw⟩

/-! ### The recursion -/

theorem getEnvironmentVar_succ (getenv : Bytes → Option Bytes) {fuel : Nat}
    {environment : Option Bytes} {name v : Bytes}
    (h : getEnvironmentVar getenv fuel environment name = some v) :
    getEnvironmentVar getenv (fuel + 1) environment name = some v := by
  induction fuel generalizing environment name v with
  | zero => cases h
  | succ fuel ih =>
      cases environment with
      | none => exact h
      | some environment =>
          obtain ⟨found, hfound, hvalue⟩ := Option.bind_eq_some_iff.mp h
          refine Option.bind_eq_some_iff.mpr ⟨found, hfound, ?_⟩
          cases found with
          | none => exact hvalue
          | some t =>
              dsimp only at hvalue ⊢
              split_ifs at hvalue ⊢
              · exact expandLoop_mono (fun _ _ _ hv => ih hv) hvalue
              · exact hvalue

theorem getEnvironmentVar_mono (getenv : Bytes → Option Bytes) {fuel fuel' : Nat}
    (hle : fuel ≤ fuel') {environment : Option Bytes} {name v : Bytes}
    (h : getEnvironmentVar getenv fuel environment name = some v) :
    getEnvironmentVar getenv fuel' environment name = some v := by
  induction hle with
  | refl => exact h
  | step _ ih => exact getEnvironmentVar_succ getenv ih

theorem substitute_mono {get get' : Bytes → Option Bytes}
    (hmono : ∀ m v, get m = some v → get' m = some v) {ps : List (Piece UInt8 Bytes)}
    {out : Bytes} (h : substitute get ps = some out) : substitute get' ps = some out := by
  induction ps generalizing out with
  | nil => exact h
  | cons p ps ih =>
      cases p with
      | text t =>
          obtain ⟨w, hw, rfl⟩ := Option.map_eq_some_iff.mp h
          exact Option.map_eq_some_iff.mpr ⟨w, ih hw, rfl⟩
      | reference name =>
          obtain ⟨v, hv, hrest⟩ := Option.bind_eq_some_iff.mp h
          obtain ⟨w, hw, rfl⟩ := Option.map_eq_some_iff.mp hrest
          exact Option.bind_eq_some_iff.mpr
            ⟨v, hmono name v hv, Option.map_eq_some_iff.mpr ⟨w, ih hw, rfl⟩⟩

variable (getenv : Bytes → Option Bytes) (environment : Bytes)

/-- What a name stands for; what the process gives is not expanded. -/
def valuePieces (name : Bytes) : Option (List (Piece UInt8 Bytes)) :=
  (assigned environment name).bind fun
    | none => (processVar getenv name).map fun v => [.text v]
    | some v => some (pieces [] v)

/-- The same, where the process gives a text without `$`. -/
def settledPieces (name : Bytes) : Option (List (Piece UInt8 Bytes)) :=
  (assigned environment name).bind fun
    | none => ((processVar getenv name).filter (dollar ∉ ·)).map fun v => [.text v]
    | some v => some (pieces [] v)

variable {getenv environment}

theorem plain_settled {name : Bytes} {qs : List (Piece UInt8 Bytes)}
    (h : settledPieces getenv environment name = some qs) {t : Bytes} (ht : Piece.text t ∈ qs) :
    dollar ∉ t := by
  obtain ⟨found, -, hqs⟩ := Option.bind_eq_some_iff.mp h
  cases found with
  | none =>
      obtain ⟨v, hv, rfl⟩ := Option.map_eq_some_iff.mp hqs
      cases List.mem_singleton.mp ht
      exact of_decide_eq_true (Option.filter_eq_some_iff.mp hv).2
  | some u =>
      obtain rfl := Option.some.inj hqs
      exact plain_pieces ht

/-- One level of the recursion. -/
theorem get_eq {fuel : Nat} {name : Bytes} {qs : List (Piece UInt8 Bytes)}
    (h : settledPieces getenv environment name = some qs)
    (hget : ∀ m ∈ references qs, ∀ v,
      getEnvironmentVar getenv fuel (some environment) m = some v → dollar ∉ v) :
    getEnvironmentVar getenv (fuel + 1) (some environment) name =
      substitute (getEnvironmentVar getenv fuel (some environment)) qs := by
  obtain ⟨found, hfound, hqs⟩ := Option.bind_eq_some_iff.mp h
  rw [getEnvironmentVar, hfound, Option.bind_some]
  cases found with
  | none =>
      obtain ⟨v, hv, rfl⟩ := Option.map_eq_some_iff.mp hqs
      rw [substitute, substitute, Option.map_some, List.append_nil]
      exact (Option.filter_eq_some_iff.mp hv).1
  | some u =>
      obtain rfl := Option.some.inj hqs
      dsimp only
      split_ifs with hdollar
      · rw [expandLoop_eq (Nat.lt_succ_self _) hget]
        exact congrFun Option.map_id _
      · have happend := substitute_append (getEnvironmentVar getenv fuel (some environment)) u []
        rw [List.append_nil, substitute, Option.map_some, List.append_nil] at happend
        rw [pieces_plain hdollar, happend]

/-- What is grounded comes without `$`. -/
theorem plain_get {name : Bytes} (h : Grounded (settledPieces getenv environment) name)
    {fuel : Nat} {v : Bytes} (hv : getEnvironmentVar getenv fuel (some environment) name = some v) :
    dollar ∉ v := by
  induction h generalizing fuel v with
  | intro hvalue _ ih =>
      cases fuel with
      | zero => cases hv
      | succ fuel =>
          have hget := fun m hm v => @ih m hm fuel v
          rw [get_eq hvalue hget] at hv
          exact plain_substitute (fun t => plain_settled hvalue) hget hv

/-- A text whose references are grounded is expanded by replacing them. -/
theorem expandEnvironmentVar_eq {s : Bytes}
    (h : ∀ m ∈ references (pieces [] s), Grounded (settledPieces getenv environment) m)
    (fuel : Nat) :
    expandEnvironmentVar getenv fuel (some environment) s =
      substitute (getEnvironmentVar getenv fuel (some environment)) (pieces [] s) := by
  rw [expandEnvironmentVar,
    expandLoop_eq (Nat.lt_succ_self _) fun m hm v => plain_get (h m hm)]
  exact congrFun Option.map_id _

/-- A text that has an expansion gets it from some depth on. -/
theorem exists_substitute {ps : List (Piece UInt8 Bytes)} {out : Bytes}
    (h : Expands (settledPieces getenv environment) ps out) :
    ∃ fuel, substitute (getEnvironmentVar getenv fuel (some environment)) ps = some out := by
  induction h with
  | nil => exact ⟨0, rfl⟩
  | text _ ih =>
      obtain ⟨fuel, hfuel⟩ := ih
      exact ⟨fuel, Option.map_eq_some_iff.mpr ⟨_, hfuel, rfl⟩⟩
  | @reference name qs v ps out hvalue hv _ ihv ih =>
      obtain ⟨k, hk⟩ := ihv
      obtain ⟨j, hj⟩ := ih
      have hget : getEnvironmentVar getenv (k + 1) (some environment) name = some v :=
        (get_eq hvalue fun m hm v => plain_get (hv.grounded m hm)).trans hk
      refine ⟨max (k + 1) j, Option.bind_eq_some_iff.mpr ⟨v, ?_, Option.map_eq_some_iff.mpr
        ⟨out, substitute_mono (fun m v => ?_) hj, rfl⟩⟩⟩
      · exact getEnvironmentVar_mono getenv (Nat.le_max_left _ _) hget
      · exact getEnvironmentVar_mono getenv (Nat.le_max_right _ _)

/-- The names whose values the recursion gets are grounded. -/
theorem grounded_of_get {fuel : Nat} {name v : Bytes}
    (h : getEnvironmentVar getenv fuel (some environment) name = some v) :
    Grounded (valuePieces getenv environment) name := by
  induction fuel generalizing name v with
  | zero => cases h
  | succ fuel ih =>
      obtain ⟨found, hfound, hvalue⟩ := Option.bind_eq_some_iff.mp h
      cases found with
      | none =>
          have hpieces : valuePieces getenv environment name = some [.text v] :=
            Option.bind_eq_some_iff.mpr
              ⟨none, hfound, Option.map_eq_some_iff.mpr ⟨v, hvalue, rfl⟩⟩
          exact .intro hpieces nofun
      | some t =>
          refine .intro (Option.bind_eq_some_iff.mpr ⟨some t, hfound, rfl⟩) fun m hm => ?_
          dsimp only at hvalue
          split_ifs at hvalue with hdollar
          · obtain ⟨w, hw⟩ := get_of_expandLoop hvalue m hm
            exact ih hw
          · rw [pieces_plain hdollar, ← List.append_nil (t.map _), references_append] at hm
            cases hm

/-! ### Termination and expansion -/

/-- Where the two functions end, no chain of references goes on without end. -/
theorem grounded_of_expand {fuel : Nat} {s out : Bytes}
    (h : expandEnvironmentVar getenv fuel (some environment) s = some out) :
    ∀ m ∈ references (pieces [] s), Grounded (valuePieces getenv environment) m := by
  intro m hm
  obtain ⟨v, hv⟩ := get_of_expandLoop h m hm
  exact grounded_of_get hv

/-- A text that has an expansion is expanded to it. -/
theorem exists_expand {s out : Bytes}
    (h : Expands (settledPieces getenv environment) (pieces [] s) out) :
    ∃ fuel, expandEnvironmentVar getenv fuel (some environment) s = some out := by
  obtain ⟨fuel, hfuel⟩ := exists_substitute h
  exact ⟨fuel, (expandEnvironmentVar_eq h.grounded fuel).trans hfuel⟩

/-- So is the value of a name. -/
theorem exists_get {name : Bytes} {qs : List (Piece UInt8 Bytes)} {out : Bytes}
    (hvalue : settledPieces getenv environment name = some qs)
    (h : Expands (settledPieces getenv environment) qs out) :
    ∃ fuel, getEnvironmentVar getenv fuel (some environment) name = some out := by
  obtain ⟨fuel, hfuel⟩ := exists_substitute h
  exact ⟨fuel + 1, (get_eq hvalue fun m hm v => plain_get (h.grounded m hm)).trans hfuel⟩

end ULib.EnvironmentVar
