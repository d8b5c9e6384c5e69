import Mathlib.Data.List.TakeWhile
import ULib.NumberText
import ULib.TextSearch
import ULib.WhiteSpace

/-!
`UHTTP::isValidRequest` and `UHTTP::scanfHeader` of `utility/uhttp.cpp`: two
ways to recognise the first line of a request. What is scanned is followed by
other bytes in memory; a line is shorter than 2^32 bytes.
-/

namespace ULib.RequestLine

open ULib.KeyComparison
open ULib.EscapeCoding
open ULib.JsonScan
open ULib.NumberText
open ULib.TextSearch
open ULib.WhiteSpace (isLterm)

def blank : UInt8 := ' '.toUInt8

def questionMark : UInt8 := '?'.toUInt8

/-- `u__iscntrl`, of an ISO-1 character. -/
def isCntrl (c : UInt8) : Bool := c < 32 || (127 ≤ c && c < 160)

inductive HTTPMethodType
  | get
  | post
  | put
  | delete
  | head
  | copy
  | options
  deriving DecidableEq, Repr

def HTTPMethodType.name : HTTPMethodType → Bytes
  | get => ['G'.toUInt8, 'E'.toUInt8, 'T'.toUInt8]
  | post => ['P'.toUInt8, 'O'.toUInt8, 'S'.toUInt8, 'T'.toUInt8]
  | put => ['P'.toUInt8, 'U'.toUInt8, 'T'.toUInt8]
  | delete => ['D'.toUInt8, 'E'.toUInt8, 'L'.toUInt8, 'E'.toUInt8, 'T'.toUInt8, 'E'.toUInt8]
  | head => ['H'.toUInt8, 'E'.toUInt8, 'A'.toUInt8, 'D'.toUInt8]
  | copy => ['C'.toUInt8, 'O'.toUInt8, 'P'.toUInt8, 'Y'.toUInt8]
  | options => ['O'.toUInt8, 'P'.toUInt8, 'T'.toUInt8, 'I'.toUInt8, 'O'.toUInt8, 'N'.toUInt8,
      'S'.toUInt8]

/-! ### isValidRequest -/

/-- `U_STRNCASECMP(p, w) == 0` -/
def startsNocase (w p : Bytes) : Bool := (p.take w.length).map tolower = w.map tolower

/-- The name of a method with a blank. -/
def isMethod (m : HTTPMethodType) (p : Bytes) : Bool := startsNocase (m.name ++ [blank]) p

def isValidRequest (ptr : Bytes) : Option HTTPMethodType :=
  let p := ptr.dropWhile isSpace
  let c := toUpper (peek p 0)
  if c = 'G'.toUInt8 then if isMethod .get p then some .get else none
  else if c = 'P'.toUInt8 then
    if isMethod .post p then some .post
    else if isMethod .put p then some .put
    else none
  else if c = 'D'.toUInt8 then if isMethod .delete p then some .delete else none
  else if c = 'H'.toUInt8 then if isMethod .head p then some .head else none
  else if c = 'C'.toUInt8 then if isMethod .copy p then some .copy else none
  else if c = 'O'.toUInt8 then if isMethod .options p then some .options else none
  else none

/-! ### scanfHeader -/

/-- What is written to `u_http_info` for a request; pointers are counted from the start. -/
structure HttpInfo where
  method : Nat
  methodType : HTTPMethodType
  uri : Nat
  uriLen : Nat
  query : Option Nat
  queryLen : Nat
  isNavigation : Bool
  version : UInt8
  terminator : Option UInt8
  startHeader : Nat

inductive Outcome
  /-- The table `is_req` is indexed behind its end. -/
  | outside
  | refused
  | response (code : Nat) (terminator : UInt8) (startHeader : Nat)
  | request (info : HttpInfo)

/-- The table `is_req`, of 128 entries. -/
def isReq (c : UInt8) : Option UInt8 :=
  if c < 128 then
    if toUpper c ∈ ['C'.toUInt8, 'D'.toUInt8, 'G'.toUInt8, 'H'.toUInt8, 'O'.toUInt8, 'P'.toUInt8]
    then some (toUpper c)
    else some 0
  else none

def httpVersion : Bytes :=
  ['H'.toUInt8, 'T'.toUInt8, 'T'.toUInt8, 'P'.toUInt8, '/'.toUInt8, '1'.toUInt8, '.'.toUInt8]

/-- `U_STRNCMP(p, "HTTP/1.") == 0`; `none` where the bytes end before it is decided. -/
def startsHttp (p : Bytes) : Option Bool :=
  if httpVersion.isPrefixOf p then some true
  else if p.isPrefixOf httpVersion then none
  else some false

/-- The first line terminator, from the byte behind `ptr` on. -/
def findLterm (p : Bytes) : Option (UInt8 × Bytes) :=
  match p.tail.dropWhile fun c => !isLterm c with
  | [] => none
  | c :: t => some (c, c :: t)

/-- The line `HTTP/1.n nnn <ssss>` of a response. -/
def scanResponse (start p : Bytes) : Option Outcome := do
  if ← startsHttp p then
    let (negative, u) := signed (p.drop 9)
    let digits := u.takeWhile isDigit
    let code := (clampLong negative (digitsValue digits) % 2 ^ 32).toNat
    if digits ≠ [] ∧ 100 ≤ code ∧ code < 600 then
      let (c, t) ← findLterm (u.drop digits.length)
      some (.response code c (start.length - t.length))
    else some .refused
  else some .refused

/-- Which method the first bytes stand for, when they do for one and not for a response. -/
def methodOf (c : UInt8) (p : Bytes) : Option (Option HTTPMethodType) :=
  if c = 'G'.toUInt8 then some (some .get)
  else if c = 'P'.toUInt8 then
    p[1]?.map fun d => some (if toUpper d = 'O'.toUInt8 then .post else .put)
  else if c = 'H'.toUInt8 then p[1]?.map fun d => if d = 'T'.toUInt8 then none else some .head
  else if c = 'D'.toUInt8 then some (some .delete)
  else if c = 'C'.toUInt8 then
    p[2]?.map fun d => if toUpper d ≠ 'P'.toUInt8 then none else some .copy
  else if c = 'O'.toUInt8 then some (some .options)
  else some none

/-- The loop over the URI, `n` bytes behind its start, up to a blank or a control character; it
keeps the length of the URI and the start of the query. -/
def uriLoop (uriLen : Nat) (query : Option Nat) : Nat → Bytes → Option (Nat × Option Nat × Bytes)
  | _, [] => none
  | n, c :: t =>
      if c = blank ∨ isCntrl c then some (uriLen, query, c :: t)
      else if c = questionMark ∧ uriLen = 0 then uriLoop n (some (n + 1)) (n + 1) t
      else uriLoop uriLen query (n + 1) t

def navigation : Bytes :=
  ['_'.toUInt8, 'n'.toUInt8, 'a'.toUInt8, 'v'.toUInt8, '_'.toUInt8]

/-- The line from the blank behind the URI on. -/
def scanVersion (start rest : Bytes) (info : HttpInfo) : Option Outcome := do
  let p := rest.tail.dropWhile isSpace
  if ← startsHttp p then
    let p := p.drop httpVersion.length
    let version ← p.head?
    let (c, t) ← findLterm p
    some (.request { info with version := version, terminator := some c
                               startHeader := start.length - t.length })
  else some .refused

/-- The line from the method on. -/
def scanMethod (start : Bytes) (size : Nat) (m : HTTPMethodType) (p : Bytes) : Option Outcome :=
  match p.drop m.name.length with
  | [] => none
  | c :: t =>
      if isSpace c = false then some .refused
      else do
        let q := t.dropWhile isSpace
        let uri := start.length - q.length
        let (uriLen, query, rest) ← uriLoop 0 none 0 q
        let ptr := start.length - rest.length
        let n := ptr - uri
        let info : HttpInfo :=
          { method := start.length - p.length, methodType := m, uri := uri, uriLen := uriLen
            query := query.map (uri + ·), queryLen := 0, isNavigation := false, version := 0
            terminator := none, startHeader := ptr }
        if rest.head? ≠ some blank then
          if size ≤ ptr then some (.request { info with uriLen := 0 }) else some .refused
        else if size ≤ ptr then some (.request info)
        else
          match query with
          | none => scanVersion start rest { info with uriLen := n }
          | some k =>
              scanVersion start rest
                { info with queryLen := n - k
                            isNavigation := (q.drop k).take (n - k) = navigation }

def scanfHeader (start : Bytes) (size : Nat) : Option Outcome :=
  let p := if start.head? = some 'G'.toUInt8 then start else start.dropWhile isSpace
  match p with
  | [] => none
  | c :: _ =>
      match isReq c with
      | none => some .outside
      | some c =>
          if c = 0 then some .refused
          else if c = 'H'.toUInt8 ∧ p[1]? = some 'T'.toUInt8 then scanResponse start p
          else
            (methodOf c p).bind fun
              | none => some .refused
              | some m => scanMethod start size m p

/-! ### The line -/

/-- The first line ends within the bytes. -/
def IsComplete (start : Bytes) (size : Nat) : Prop :=
  let p := start.dropWhile isSpace
  (start.takeWhile isSpace).length + (p.takeWhile fun c => !isLterm c).length < size ∧
    size ≤ start.length

/-- A byte of the URI. -/
def isPlain (c : UInt8) : Bool := c ≠ blank && !isCntrl c

/-- What was recorded is what the first line says: the method that `isValidRequest` finds, followed
by white space, and the parts of the line up to the first question mark and from there to the
blank. -/
def Recorded (start : Bytes) (info : HttpInfo) : Prop :=
  let off := (start.takeWhile isSpace).length
  let p := start.dropWhile isSpace
  let line := p.takeWhile fun c => !isLterm c
  let m := info.methodType
  let gap := (line.drop m.name.length).takeWhile isSpace
  let target := ((line.drop m.name.length).dropWhile isSpace).takeWhile (· ≠ blank)
  isValidRequest start = some m ∧ startsNocase m.name p ∧ (p[m.name.length]?.any isSpace) ∧
    info.method = off ∧ info.uri = off + m.name.length + gap.length ∧
    info.uriLen = (target.takeWhile (· ≠ questionMark)).length ∧
    if questionMark ∈ target then
      info.query = some (info.uri + info.uriLen + 1) ∧
        info.queryLen = target.length - (info.uriLen + 1)
    else info.query = none ∧ info.queryLen = 0

/-- No byte is looked up behind the table, and what is accepted as a request is recorded right. -/
def Recognised (start : Bytes) (size : Nat) : Prop :=
  match scanfHeader start size with
  | some .outside => False
  | some (.request info) => Recorded start info
  | _ => True

/-! ### What is accepted -/

/-- The text behind a method: white space, the bytes of a URI, and something else. -/
structure Parts (t gap target rest : Bytes) : Prop where
  text : t = gap ++ (target ++ rest)
  gap_ne : gap ≠ []
  gap_space : ∀ c ∈ gap, isSpace c
  start : ∀ c ∈ (target ++ rest).head?, isSpace c = false
  plain : ∀ c ∈ target, isPlain c
  rest_ne : rest ≠ []
  stop : ∀ c ∈ rest.head?, isPlain c = false

/-- Behind a blank there is the version, unless the bytes end before. -/
def Ends (size ptr : Nat) (rest : Bytes) : Prop :=
  size ≤ ptr ∨ rest.head? = some blank ∧ startsHttp (rest.tail.dropWhile isSpace) = some true ∧
    (findLterm ((rest.tail.dropWhile isSpace).drop httpVersion.length)).isSome

/-- The parts of a line that are recorded right: the whole name of the method and a blank, white
space in the same line, and no question mark behind one at the start of the URI. -/
def Proper (m : HTTPMethodType) (p gap target : Bytes) : Prop :=
  isMethod m p ∧ (∀ c ∈ gap, isLterm c = false) ∧
    ¬ (target.head? = some questionMark ∧ questionMark ∈ target.tail)

/-- The first byte is in the table, and a line that is accepted is a proper one. -/
def IsProper (start : Bytes) (size : Nat) : Prop :=
  let p := start.dropWhile isSpace
  ∀ c ∈ p.head?, c < 128 ∧ ∀ m gap target rest, methodOf (toUpper c) p = some (some m) →
    Parts (p.drop m.name.length) gap target rest → Ends size (start.length - rest.length) rest →
      Proper m p gap target

/-! ### The method -/

theorem toUpper_of_tolower (m : HTTPMethodType) : ∀ c d, m.name.head? = some d →
    tolower c = tolower d → toUpper c = d := by
  cases m <;> (rintro c d ⟨⟩; revert c; exact forall_byte (by decide +kernel))

theorem head_of_isMethod {m : HTTPMethodType} {p : Bytes} (h : isMethod m p) :
    m.name.head? = some (toUpper (peek p 0)) := by
  rw [isMethod, startsNocase, decide_eq_true_eq] at h
  cases p with
  | nil => cases m <;> cases h
  | cons c p =>
      cases hname : m.name with
      | nil => cases m <;> cases hname
      | cons d w =>
          rw [hname] at h
          have hhead : tolower c = tolower d := (List.cons.inj h).1
          have := toUpper_of_tolower m c d (by rw [hname]; rfl) hhead
          rw [List.head?_cons]
          exact congrArg some this.symm

theorem not_isMethod_post {p : Bytes} (h : isMethod .put p) : ¬ isMethod .post p := by
  intro hpost
  rw [isMethod, startsNocase, decide_eq_true_eq] at h hpost
  have hput := congrArg (·[1]?) h
  have hpost := congrArg (·[1]?) hpost
  rw [List.getElem?_map, List.getElem?_take_of_lt (by decide)] at hput hpost
  rw [hput] at hpost
  cases hpost

/-- Each branch of a choice returns only a method that it has found. -/
theorem method_of_ite {c : Prop} [Decidable c] {x y : Option HTTPMethodType}
    {m : HTTPMethodType} {p : Bytes} (hx : c → x = some m → isMethod m p)
    (hy : y = some m → isMethod m p) : (if c then x else y) = some m → isMethod m p := by
  split_ifs with h
  · exact hx h
  · exact hy

theorem isValidRequest_eq_some {start : Bytes} {m : HTTPMethodType} :
    isValidRequest start = some m ↔ isMethod m (start.dropWhile isSpace) := by
  constructor
  · have hmethod : ∀ k, (if isMethod k (start.dropWhile isSpace) then some k else none) = some m →
        isMethod m (start.dropWhile isSpace) := by
      intro k h
      obtain ⟨hk, heq⟩ := Option.ite_none_right_eq_some.mp h
      rwa [← Option.some.inj heq]
    rw [isValidRequest]
    refine method_of_ite (fun _ => hmethod .get) ?_
    refine method_of_ite (fun _ => ?_) ?_
    · refine method_of_ite (fun hpost heq => ?_) (hmethod .put)
      rwa [← Option.some.inj heq]
    refine method_of_ite (fun _ => hmethod .delete) ?_
    refine method_of_ite (fun _ => hmethod .head) ?_
    refine method_of_ite (fun _ => hmethod .copy) ?_
    refine method_of_ite (fun _ => hmethod .options) ?_
    exact nofun
  · intro h
    have hhead := head_of_isMethod h
    rw [isValidRequest]
    cases m with
    | put =>
        rw [← Option.some.inj hhead]
        exact (if_neg (not_isMethod_post h)).trans (if_pos h)
    | _ =>
        rw [← Option.some.inj hhead]
        exact if_pos h

/-! ### The URI -/

/-- What the loop over the URI keeps. -/
def marks (uriLen : Nat) (query : Option Nat) : Nat → Bytes → Nat × Option Nat
  | _, [] => (uriLen, query)
  | n, c :: t =>
      if c = questionMark ∧ uriLen = 0 then marks n (some (n + 1)) (n + 1) t
      else marks uriLen query (n + 1) t

theorem isPlain_eq_false {c : UInt8} : isPlain c = false ↔ c = blank ∨ isCntrl c := by
  rw [isPlain]
  cases isCntrl c <;> simp

theorem uriLoop_append {target rest : Bytes} (hplain : ∀ c ∈ target, isPlain c)
    (hrest : rest ≠ []) (hstop : ∀ c ∈ rest.head?, isPlain c = false) (uriLen : Nat)
    (query : Option Nat) (n : Nat) :
    uriLoop uriLen query n (target ++ rest) =
      some ((marks uriLen query n target).1, (marks uriLen query n target).2, rest) := by
  induction target generalizing uriLen query n with
  | nil =>
      cases rest with
      | nil => exact absurd rfl hrest
      | cons c r =>
          rw [List.nil_append, uriLoop, if_pos (isPlain_eq_false.mp (hstop c rfl))]
          rfl
  | cons c target ih =>
      have hc : ¬ (c = blank ∨ isCntrl c = true) := fun h => by
        rw [← isPlain_eq_false, hplain c List.mem_cons_self] at h
        cases h
      have hrec := ih fun d hd => hplain d (List.mem_cons_of_mem c hd)
      rw [List.cons_append, uriLoop, if_neg hc, marks]
      split_ifs
      · exact hrec _ _ _
      · exact hrec _ _ _

theorem of_uriLoop {uriLen uriLen' n : Nat} {query query' : Option Nat} {t rest : Bytes}
    (h : uriLoop uriLen query n t = some (uriLen', query', rest)) :
    ∃ target, t = target ++ rest ∧ (∀ c ∈ target, isPlain c) ∧ rest ≠ [] ∧
      ∀ c ∈ rest.head?, isPlain c = false := by
  induction t generalizing uriLen query n with
  | nil => cases h
  | cons c t ih =>
      rw [uriLoop] at h
      by_cases hc : c = blank ∨ isCntrl c = true
      · rw [if_pos hc] at h
        cases h
        refine ⟨[], rfl, fun d hd => absurd hd List.not_mem_nil, List.cons_ne_nil _ _, ?_⟩
        rintro d ⟨⟩
        exact isPlain_eq_false.mpr hc
      · rw [if_neg hc] at h
        have hplain : isPlain c = true := by
          rw [← Bool.not_eq_false, isPlain_eq_false]
          exact hc
        obtain ⟨target, rfl, htarget, hrest⟩ : ∃ target, t = target ++ rest ∧
            (∀ c ∈ target, isPlain c) ∧ rest ≠ [] ∧ ∀ c ∈ rest.head?, isPlain c = false := by
          split_ifs at h
          · exact ih h
          · exact ih h
        refine ⟨c :: target, rfl, fun d hd => ?_, hrest⟩
        rcases List.mem_cons.mp hd with rfl | hd
        · exact hplain
        · exact htarget d hd

theorem marks_of_notMem {t : Bytes} (h : questionMark ∉ t) (uriLen : Nat) (query : Option Nat)
    (n : Nat) : marks uriLen query n t = (uriLen, query) := by
  induction t generalizing n with
  | nil => rfl
  | cons c t ih =>
      rw [List.mem_cons, not_or] at h
      rw [marks, if_neg fun hc => h.1 hc.1.symm, ih h.2]

theorem marks_of_pos {uriLen : Nat} (h : uriLen ≠ 0) (query : Option Nat) (n : Nat) (t : Bytes) :
    marks uriLen query n t = (uriLen, query) := by
  induction t generalizing n with
  | nil => rfl
  | cons c t ih => rw [marks, if_neg fun hc => h hc.2, ih]

/-- Up to the first question mark nothing is kept. -/
theorem marks_append {u : Bytes} (h : questionMark ∉ u) (query : Option Nat) (n : Nat) (v : Bytes) :
    marks 0 query n (u ++ questionMark :: v) =
      marks (n + u.length) (some (n + u.length + 1)) (n + u.length + 1) v := by
  induction u generalizing n with
  | nil =>
      rw [List.nil_append, marks, if_pos ⟨rfl, rfl⟩]
      rfl
  | cons c u ih =>
      rw [List.mem_cons, not_or] at h
      rw [List.cons_append, marks, if_neg fun hc => h.1 hc.1.symm, ih h.2, List.length_cons,
        Nat.add_right_comm n 1 u.length, Nat.add_assoc n u.length 1]

/-! ### From the method on -/

theorem exists_scanVersion {start rest : Bytes} {info : HttpInfo} :
    (∃ info', scanVersion start rest info = some (.request info')) ↔
      startsHttp (rest.tail.dropWhile isSpace) = some true ∧
        (findLterm ((rest.tail.dropWhile isSpace).drop httpVersion.length)).isSome := by
  rw [scanVersion]
  generalize rest.tail.dropWhile isSpace = p
  cases hhttp : startsHttp p with
  | none => simp
  | some b =>
      cases b with
      | false => simp
      | true =>
          cases htail : p.drop httpVersion.length with
          | nil => simp [findLterm]
          | cons v x => cases hlterm : findLterm (v :: x) <;> simp [hlterm]

theorem of_scanVersion {start rest : Bytes} {info info' : HttpInfo}
    (h : scanVersion start rest info = some (.request info')) :
    ∃ version terminator startHeader, info' =
      { info with version := version, terminator := terminator, startHeader := startHeader } := by
  rw [scanVersion] at h
  obtain ⟨b, -, hb⟩ := Option.bind_eq_some_iff.mp h
  split_ifs at hb
  · obtain ⟨version, -, hversion⟩ := Option.bind_eq_some_iff.mp hb
    obtain ⟨⟨c, t⟩, -, hc⟩ := Option.bind_eq_some_iff.mp hversion
    cases hc
    exact ⟨_, _, _, rfl⟩
  · cases hb

/-- What is recorded of a line with these parts. -/
structure Marked (start : Bytes) (size : Nat) (m : HTTPMethodType) (p target rest : Bytes)
    (info : HttpInfo) : Prop where
  method : info.method = start.length - p.length
  methodType : info.methodType = m
  uri : info.uri = start.length - (target ++ rest).length
  kept : start.length - rest.length < size →
    info.uriLen = (if (marks 0 none 0 target).2 = none then target.length
      else (marks 0 none 0 target).1) ∧
      info.query = (marks 0 none 0 target).2.map (info.uri + ·) ∧
        info.queryLen = (marks 0 none 0 target).2.elim 0 fun k => target.length - k

section
variable {start : Bytes} {size : Nat} {m : HTTPMethodType} {p gap target rest : Bytes}

theorem dropWhile_space {gap t : Bytes} (hgap : ∀ c ∈ gap, isSpace c)
    (ht : ∀ c ∈ t.head?, isSpace c = false) : (gap ++ t).dropWhile isSpace = t := by
  rw [List.dropWhile_append_of_pos hgap]
  cases t with
  | nil => rfl
  | cons c t => exact List.dropWhile_cons_of_neg (by rw [ht c rfl]; exact Bool.false_ne_true)

theorem scanMethod_parts (hparts : Parts (p.drop m.name.length) gap target rest)
    (hle : (target ++ rest).length ≤ start.length) :
    ((∃ info, scanMethod start size m p = some (.request info)) ↔
        Ends size (start.length - rest.length) rest) ∧
      ∀ info, scanMethod start size m p = some (.request info) →
        Marked start size m p target rest info := by
  obtain ⟨g, gs, rfl⟩ := List.exists_cons_of_ne_nil hparts.gap_ne
  have hskip := dropWhile_space (fun c hc => hparts.gap_space c (List.mem_cons_of_mem g hc))
    hparts.start
  have hloop := uriLoop_append hparts.plain hparts.rest_ne hparts.stop 0 none 0
  have hn : start.length - rest.length - (start.length - (target ++ rest).length) =
      target.length := by
    rw [List.length_append] at hle ⊢
    omega
  rw [scanMethod, hparts.text, List.cons_append]
  dsimp only
  rw [if_neg (by rw [hparts.gap_space g List.mem_cons_self]; decide), hskip, hloop]
  simp only [Option.bind_eq_bind, Option.bind_some, hn]
  generalize hquery : (marks 0 none 0 target).2 = query
  generalize huriLen : (marks 0 none 0 target).1 = uriLen
  by_cases hptr : size ≤ start.length - rest.length
  · -- the bytes end first
    rw [if_pos hptr, if_pos hptr]
    split_ifs
    · refine ⟨iff_of_true ⟨_, rfl⟩ (Or.inl hptr), ?_⟩
      rintro info ⟨⟩
      exact ⟨rfl, rfl, rfl, fun hlt => absurd hptr (Nat.not_le.mpr hlt)⟩
    · refine ⟨iff_of_true ⟨_, rfl⟩ (Or.inl hptr), ?_⟩
      rintro info ⟨⟩
      exact ⟨rfl, rfl, rfl, fun hlt => absurd hptr (Nat.not_le.mpr hlt)⟩
  · rw [if_neg hptr, if_neg hptr]
    by_cases hblank : rest.head? = some blank
    · rw [if_neg (not_not.mpr hblank)]
      have hends : Ends size (start.length - rest.length) rest ↔
          startsHttp (rest.tail.dropWhile isSpace) = some true ∧
            (findLterm ((rest.tail.dropWhile isSpace).drop httpVersion.length)).isSome := by
        rw [Ends, or_iff_right hptr, and_iff_right hblank]
      cases query with
      | none =>
          refine ⟨exists_scanVersion.trans hends.symm, fun info hinfo => ?_⟩
          obtain ⟨_, _, _, rfl⟩ := of_scanVersion hinfo
          exact ⟨rfl, rfl, rfl, fun _ => by rw [hquery]; exact ⟨rfl, rfl, rfl⟩⟩
      | some k =>
          refine ⟨exists_scanVersion.trans hends.symm, fun info hinfo => ?_⟩
          obtain ⟨_, _, _, rfl⟩ := of_scanVersion hinfo
          exact ⟨rfl, rfl, rfl, fun _ => by rw [hquery, huriLen]; exact ⟨rfl, rfl, rfl⟩⟩
    · rw [if_pos hblank]
      refine ⟨iff_of_false (fun ⟨_, h⟩ => by cases h) ?_, fun _ h => by cases h⟩
      rintro (h | h)
      · exact hptr h
      · exact hblank h.1

/-- A request has these parts. -/
theorem exists_parts {info : HttpInfo} (h : scanMethod start size m p = some (.request info)) :
    ∃ gap target rest, Parts (p.drop m.name.length) gap target rest := by
  rw [scanMethod] at h
  cases htext : p.drop m.name.length with
  | nil =>
      rw [htext] at h
      cases h
  | cons c t =>
      rw [htext] at h
      dsimp only at h
      by_cases hc : isSpace c = false
      · rw [if_pos hc] at h
        cases h
      · rw [if_neg hc] at h
        obtain ⟨⟨uriLen, query, rest⟩, hloop, -⟩ := Option.bind_eq_some_iff.mp h
        obtain ⟨target, hsplit, hplain, hrest, hstop⟩ := of_uriLoop hloop
        refine ⟨c :: t.takeWhile isSpace, target, rest, ?_, List.cons_ne_nil _ _, ?_, ?_, hplain,
          hrest, hstop⟩
        · rw [← hsplit, List.cons_append, List.takeWhile_append_dropWhile]
        · intro d hd
          rcases List.mem_cons.mp hd with rfl | hd
          · rwa [← Bool.not_eq_false]
          · exact List.mem_takeWhile_imp hd
        · intro d hd
          rw [← hsplit, Option.mem_def] at hd
          have hhead := List.head?_dropWhile_not isSpace t
          rwa [hd] at hhead

/-- A response is no request, and no look behind the table. -/
theorem of_scanResponse {o : Outcome} (h : scanResponse start p = some o) :
    o = .refused ∨ ∃ code c n, o = .response code c n := by
  rw [scanResponse] at h
  obtain ⟨b, -, hb⟩ := Option.bind_eq_some_iff.mp h
  cases b with
  | false =>
      cases hb
      exact Or.inl rfl
  | true =>
      rw [if_pos rfl] at hb
      cases hsigned : signed (p.drop 9) with
      | mk negative u =>
          rw [hsigned] at hb
          dsimp only at hb
          split_ifs at hb
          · obtain ⟨⟨c, t⟩, -, hc⟩ := Option.bind_eq_some_iff.mp hb
            cases hc
            exact Or.inr ⟨_, _, _, rfl⟩
          · cases hb
            exact Or.inl rfl

theorem scanVersion_ne_outside {info : HttpInfo} : scanVersion start rest info ≠ some .outside := by
  intro h
  rw [scanVersion] at h
  obtain ⟨b, -, hb⟩ := Option.bind_eq_some_iff.mp h
  split_ifs at hb
  · obtain ⟨version, -, hversion⟩ := Option.bind_eq_some_iff.mp hb
    obtain ⟨⟨c, t⟩, -, hc⟩ := Option.bind_eq_some_iff.mp hversion
    cases hc
  · cases hb

theorem scanMethod_ne_outside : scanMethod start size m p ≠ some .outside := by
  intro h
  rw [scanMethod] at h
  cases htext : p.drop m.name.length with
  | nil =>
      rw [htext] at h
      cases h
  | cons c t =>
      rw [htext] at h
      dsimp only at h
      by_cases hc : isSpace c = false
      · rw [if_pos hc] at h
        cases h
      · rw [if_neg hc] at h
        obtain ⟨⟨uriLen, query, rest⟩, -, hrest⟩ := Option.bind_eq_some_iff.mp h
        dsimp only at hrest
        split_ifs at hrest
        · cases hrest
        · cases hrest
        · cases hrest
        · cases query with
          | none => exact scanVersion_ne_outside hrest
          | some k => exact scanVersion_ne_outside hrest

end

/-! ### The scan -/

theorem start_eq (start : Bytes) :
    (if start.head? = some 'G'.toUInt8 then start else start.dropWhile isSpace) =
      start.dropWhile isSpace := by
  split_ifs with hhead
  · cases start with
    | nil => rfl
    | cons c t =>
        obtain rfl := Option.some.inj hhead
        rw [List.dropWhile_cons_of_neg (by decide)]
  · rfl

/-- Only the letters of the table stand for a method. -/
theorem methodOf_of_notMem {c : UInt8} {p : Bytes}
    (h : c ∉ ['C'.toUInt8, 'D'.toUInt8, 'G'.toUInt8, 'H'.toUInt8, 'O'.toUInt8, 'P'.toUInt8]) :
    methodOf c p = some none := by
  simp only [List.mem_cons, List.not_mem_nil, or_false, not_or] at h
  obtain ⟨hC, hD, hG, hH, hO, hP⟩ := h
  rw [methodOf, if_neg hG, if_neg hP, if_neg hH, if_neg hD, if_neg hC, if_neg hO]

section
variable {start : Bytes} {size : Nat} {c : UInt8} {t : Bytes}
  (hp : start.dropWhile isSpace = c :: t)
include hp

/-- Behind the table the scan ends. -/
theorem scanfHeader_of_not_lt (hc : ¬ c < 128) : scanfHeader start size = some .outside := by
  rw [scanfHeader, start_eq, hp]
  dsimp only
  rw [isReq, if_neg hc]

theorem scanfHeader_of_lt (hc : c < 128) :
    scanfHeader start size =
      if toUpper c = 'H'.toUInt8 ∧ (c :: t)[1]? = some 'T'.toUInt8 then
        scanResponse start (c :: t)
      else
        (methodOf (toUpper c) (c :: t)).bind fun
          | none => some .refused
          | some m => scanMethod start size m (c :: t) := by
  rw [scanfHeader, start_eq, hp]
  dsimp only
  rw [isReq, if_pos hc]
  by_cases hmem : toUpper c ∈
      ['C'.toUInt8, 'D'.toUInt8, 'G'.toUInt8, 'H'.toUInt8, 'O'.toUInt8, 'P'.toUInt8]
  · have hzero : toUpper c ≠ 0 := fun h => absurd (h ▸ hmem) (by decide)
    rw [if_pos hmem]
    dsimp only
    rw [if_neg hzero]
  · have hH : ¬ (toUpper c = 'H'.toUInt8 ∧ (c :: t)[1]? = some 'T'.toUInt8) := fun h =>
      hmem (by rw [h.1]; decide)
    rw [if_neg hmem, if_neg hH, methodOf_of_notMem hmem]
    rfl

/-- A request is scanned from its method on. -/
theorem scanfHeader_request (hc : c < 128) {info : HttpInfo} :
    scanfHeader start size = some (.request info) ↔
      ∃ m, methodOf (toUpper c) (c :: t) = some (some m) ∧
        scanMethod start size m (c :: t) = some (.request info) := by
  rw [scanfHeader_of_lt hp hc]
  by_cases hT : toUpper c = 'H'.toUInt8 ∧ (c :: t)[1]? = some 'T'.toUInt8
  · have hnone : methodOf (toUpper c) (c :: t) = some none := by
      rw [hT.1, methodOf, if_neg (by decide), if_neg (by decide), if_pos rfl, hT.2]
      rfl
    rw [if_pos hT, hnone]
    refine iff_of_false (fun h => ?_) fun ⟨m, hm, _⟩ => by cases hm
    obtain ho | ⟨code, d, n, ho⟩ := of_scanResponse h <;> cases ho
  · rw [if_neg hT]
    cases methodOf (toUpper c) (c :: t) with
    | none => simp
    | some m => cases m <;> simp

theorem scanfHeader_ne_outside (hc : c < 128) : scanfHeader start size ≠ some .outside := by
  rw [scanfHeader_of_lt hp hc]
  split_ifs
  · intro h
    obtain ho | ⟨code, d, n, ho⟩ := of_scanResponse h <;> cases ho
  · intro h
    obtain ⟨m, -, hm⟩ := Option.bind_eq_some_iff.mp h
    cases m with
    | none => cases hm
    | some m => exact scanMethod_ne_outside hm

end

/-! ### The first line -/

/-- The bytes in front of the first line terminator. -/
def lineOf (p : Bytes) : Bytes := p.takeWhile fun c => !isLterm c

theorem not_isLterm_of_isPlain : ∀ c, isPlain c → isLterm c = false :=
  forall_byte (by decide +kernel)

theorem not_isSpace_of_isPlain : ∀ c, isPlain c → c ≠ blank := by
  intro c hc
  rw [isPlain, Bool.and_eq_true, decide_eq_true_eq] at hc
  exact hc.1

theorem lineOf_append {w : Bytes} (hw : ∀ c ∈ w, isLterm c = false) (t : Bytes) :
    lineOf (w ++ t) = w ++ lineOf t :=
  List.takeWhile_append_of_pos fun c hc => by rw [hw c hc]; rfl

theorem name_lterm (m : HTTPMethodType) : ∀ c, ∀ d ∈ m.name, tolower c = tolower d →
    isLterm c = false := by
  have hbyte : ∀ c, isLterm c → tolower c = c := forall_byte (by decide +kernel)
  have hname : ∀ d ∈ m.name, isLterm (tolower d) = false := by cases m <;> decide
  intro c d hd heq
  rw [← Bool.not_eq_true]
  intro hc
  have hlower := hname d hd
  rw [← heq, hbyte c hc, hc] at hlower
  cases hlower

section
variable {m : HTTPMethodType} {p : Bytes} (h : isMethod m p)
include h

theorem map_take_of_isMethod :
    (p.take m.name.length).map tolower = m.name.map tolower ∧ p[m.name.length]? = some blank := by
  have hblank : ∀ d, tolower d = tolower blank → d = blank := forall_byte (by decide +kernel)
  rw [isMethod, startsNocase, decide_eq_true_eq, List.length_append, List.length_singleton,
    List.map_append] at h
  constructor
  · have htake := congrArg (List.take m.name.length) h
    rwa [← List.map_take, List.take_take, Nat.min_eq_left (Nat.le_succ _),
      List.take_left' (List.length_map tolower)] at htake
  · have hget := congrArg (·[m.name.length]?) h
    rw [List.getElem?_map, List.getElem?_take_of_lt (Nat.lt_succ_self _),
      List.getElem?_append_right (by rw [List.length_map]), List.length_map, Nat.sub_self] at hget
    obtain ⟨d, hd, heq⟩ := Option.map_eq_some_iff.mp hget
    rw [hd, hblank d heq]

/-- There is no line terminator in the name of a method. -/
theorem take_not_isLterm : ∀ c ∈ p.take m.name.length, isLterm c = false := by
  intro c hc
  have hmem : tolower c ∈ m.name.map tolower := by
    rw [← (map_take_of_isMethod h).1]
    exact List.mem_map.mpr ⟨c, hc, rfl⟩
  obtain ⟨d, hd, heq⟩ := List.mem_map.mp hmem
  exact name_lterm m c d hd heq.symm

theorem startsNocase_of_isMethod : startsNocase m.name p := by
  rw [startsNocase, decide_eq_true_eq]
  exact (map_take_of_isMethod h).1

/-- The line behind the method. -/
theorem drop_lineOf : (lineOf p).drop m.name.length = lineOf (p.drop m.name.length) := by
  have hlength : m.name.length < p.length := by
    obtain ⟨hlt, -⟩ := List.getElem?_eq_some_iff.mp (map_take_of_isMethod h).2
    exact hlt
  have hsplit := lineOf_append (take_not_isLterm h) (p.drop m.name.length)
  rw [List.take_append_drop] at hsplit
  rw [hsplit, List.drop_left' (List.length_take_of_le (Nat.le_of_lt hlength))]

end

theorem lineOf_eq_self {w : Bytes} : lineOf w = w ↔ ∀ c ∈ w, isLterm c = false := by
  rw [lineOf, List.takeWhile_eq_self_iff]
  simp only [Bool.not_eq_true']

theorem length_lineOf {w : Bytes} :
    (lineOf w).length = w.length ↔ ∀ c ∈ w, isLterm c = false := by
  rw [← lineOf_eq_self]
  exact ⟨(List.takeWhile_prefix _).eq_of_length, congrArg List.length⟩

theorem head_lineOf {w : Bytes} {c : UInt8} (h : c ∈ (lineOf w).head?) : c ∈ w.head? := by
  cases w with
  | nil => cases h
  | cons d w =>
      rw [lineOf, List.takeWhile_cons] at h
      split_ifs at h
      · exact h
      · cases h

section
variable {t gap target rest : Bytes} (hparts : Parts t gap target rest)
include hparts

theorem lineOf_target : lineOf (target ++ rest) = target ++ lineOf rest :=
  lineOf_append (fun c hc => not_isLterm_of_isPlain c (hparts.plain c hc)) rest

theorem start_lineOf : ∀ c ∈ (target ++ lineOf rest).head?, isSpace c = false := by
  rw [← lineOf_target hparts]
  exact fun c hc => hparts.start c (head_lineOf hc)

/-- The white space of the line ends where the line does. -/
theorem takeWhile_lineOf : (lineOf t).takeWhile isSpace = lineOf gap := by
  rw [hparts.text]
  by_cases hlterm : ∀ c ∈ gap, isLterm c = false
  · have hend : (target ++ lineOf rest).takeWhile isSpace = [] := by
      have hstart := start_lineOf hparts
      cases hw : target ++ lineOf rest with
      | nil => rfl
      | cons c w =>
          rw [hw] at hstart
          rw [List.takeWhile_cons, hstart c rfl]
          rfl
    rw [lineOf_append hlterm, List.takeWhile_append_of_pos hparts.gap_space, lineOf_target hparts,
      hend, List.append_nil, lineOf_eq_self.mpr hlterm]
  · have hshort : ¬ (gap.takeWhile fun c => !isLterm c).length = gap.length := fun h =>
      hlterm (length_lineOf.mp h)
    have hline : lineOf (gap ++ (target ++ rest)) = lineOf gap := by
      rw [lineOf, List.takeWhile_append, if_neg hshort, lineOf]
    rw [hline, List.takeWhile_eq_self_iff]
    exact fun c hc => hparts.gap_space c ((List.takeWhile_prefix _).subset hc)

theorem dropWhile_lineOf (hlterm : ∀ c ∈ gap, isLterm c = false) :
    (lineOf t).dropWhile isSpace = target ++ lineOf rest := by
  rw [hparts.text, lineOf_append hlterm, lineOf_target hparts]
  exact dropWhile_space hparts.gap_space (start_lineOf hparts)

end

/-! ### What is recorded -/

theorem takeWhile_questionMark {u : Bytes} (hu : questionMark ∉ u) (v : Bytes) :
    (u ++ questionMark :: v).takeWhile (· ≠ questionMark) = u := by
  have hall : ∀ c ∈ u, decide (c ≠ questionMark) = true := fun c hc =>
    decide_eq_true fun heq => hu (heq ▸ hc)
  rw [List.takeWhile_append_of_pos hall, List.takeWhile_cons_of_neg (by simp), List.append_nil]

/-- The URI and the query are kept as the line has them, unless the URI begins with a question mark
and has another one. -/
theorem kept_iff {target : Bytes} {uri uriLen queryLen : Nat} {query : Option Nat}
    (huriLen : uriLen = if (marks 0 none 0 target).2 = none then target.length
      else (marks 0 none 0 target).1)
    (hquery : query = (marks 0 none 0 target).2.map (uri + ·))
    (hqueryLen : queryLen = (marks 0 none 0 target).2.elim 0 fun k => target.length - k) :
    (uriLen = (target.takeWhile (· ≠ questionMark)).length ∧
      if questionMark ∈ target then
        query = some (uri + uriLen + 1) ∧ queryLen = target.length - (uriLen + 1)
      else query = none ∧ queryLen = 0) ↔
      ¬ (target.head? = some questionMark ∧ questionMark ∈ target.tail) := by
  by_cases hmem : questionMark ∈ target
  · obtain ⟨u, v, rfl, hu⟩ := List.eq_append_cons_of_mem hmem
    rw [takeWhile_questionMark hu, if_pos hmem]
    rw [marks_append hu, Nat.zero_add] at huriLen hquery hqueryLen
    cases u with
    | nil =>
        by_cases hv : questionMark ∈ v
        · -- the second question mark counts
          obtain ⟨w, x, rfl, hw⟩ := List.eq_append_cons_of_mem hv
          rw [List.length_nil, marks_append hw, marks_of_pos (by omega)] at huriLen
          refine iff_of_false (fun h => ?_) fun h => h ⟨rfl, hv⟩
          have hzero := h.1
          rw [huriLen, List.length_nil, if_neg (Option.some_ne_none _)] at hzero
          omega
        · rw [List.length_nil, marks_of_notMem hv] at huriLen hquery hqueryLen
          rw [if_neg (Option.some_ne_none _)] at huriLen
          subst huriLen
          exact iff_of_true ⟨rfl, hquery, hqueryLen⟩ fun h => hv h.2
    | cons c u =>
        have hc : c ≠ questionMark := fun h => hu (h ▸ List.mem_cons_self)
        rw [marks_of_pos (by rw [List.length_cons]; omega)] at huriLen hquery hqueryLen
        rw [if_neg (Option.some_ne_none _)] at huriLen
        subst huriLen
        exact iff_of_true ⟨rfl, hquery, hqueryLen⟩ fun h => hc (Option.some.inj h.1)
  · rw [marks_of_notMem hmem] at huriLen hquery hqueryLen
    have hself : target.takeWhile (· ≠ questionMark) = target :=
      List.takeWhile_eq_self_iff.mpr fun c hc => decide_eq_true fun heq => hmem (heq ▸ hc)
    rw [hself, if_neg hmem]
    rw [if_pos rfl] at huriLen
    refine iff_of_true ⟨huriLen, hquery, hqueryLen⟩ fun h => hmem ?_
    exact List.mem_of_mem_tail h.2

/-- What is recorded of a complete first line is right exactly when the line is a proper one. -/
theorem recorded_iff {start : Bytes} {size : Nat} {m : HTTPMethodType} {gap target rest : Bytes}
    {info : HttpInfo} (hline : IsComplete start size)
    (hparts : Parts ((start.dropWhile isSpace).drop m.name.length) gap target rest)
    (hends : Ends size (start.length - rest.length) rest)
    (hmarked : Marked start size m (start.dropWhile isSpace) target rest info) :
    Recorded start info ↔ Proper m (start.dropWhile isSpace) gap target := by
  obtain ⟨hsize, hle⟩ := hline
  have hoff : (start.takeWhile isSpace).length + (start.dropWhile isSpace).length =
      start.length := by
    rw [← List.length_append, List.takeWhile_append_dropWhile]
  rw [Recorded, isValidRequest_eq_some, hmarked.methodType]
  generalize start.dropWhile isSpace = p at *
  have hdrop : p.length - m.name.length = gap.length + (target ++ rest).length := by
    rw [← List.length_drop, hparts.text, List.length_append]
  have hgap := List.length_pos_of_ne_nil hparts.gap_ne
  have htarget : (target ++ rest).length = target.length + rest.length := List.length_append
  have huri : info.uri = (start.takeWhile isSpace).length + m.name.length + gap.length := by
    rw [hmarked.uri]
    omega
  -- in a line that goes on behind the white space, the rest is as the line has it
  have hkept : isMethod m p → (∀ c ∈ gap, isLterm c = false) →
      ((lineOf (p.drop m.name.length)).dropWhile isSpace).takeWhile (· ≠ blank) = target ∧
        start.length - rest.length < size := by
    intro hm hlterm
    have hdropped := dropWhile_lineOf hparts hlterm
    have hptr : start.length - rest.length < size := by
      have hlength := congrArg List.length (drop_lineOf hm)
      rw [hparts.text, lineOf_append hlterm, lineOf_target hparts, List.length_drop,
        List.length_append, List.length_append] at hlength
      rw [← lineOf] at hsize
      omega
    refine ⟨?_, hptr⟩
    obtain hfar | ⟨hblank, -⟩ := hends
    · exact absurd hptr (Nat.not_lt.mpr hfar)
    · have hall : ∀ c ∈ target, decide (c ≠ blank) = true := fun c hc =>
        decide_eq_true (not_isSpace_of_isPlain c (hparts.plain c hc))
      cases rest with
      | nil => cases hblank
      | cons c r =>
          obtain rfl := Option.some.inj hblank
          have hline : lineOf (blank :: r) = blank :: lineOf r :=
            List.takeWhile_cons_of_pos (by decide)
          rw [hdropped, hline, List.takeWhile_append_of_pos hall,
            List.takeWhile_cons_of_neg (by simp), List.append_nil]
  constructor
  · rintro ⟨hm, -, -, -, huri', hrest⟩
    rw [← lineOf, drop_lineOf hm, takeWhile_lineOf hparts, huri] at huri'
    have hlterm := length_lineOf.mp (Nat.add_left_cancel huri').symm
    obtain ⟨hself, hptr⟩ := hkept hm hlterm
    obtain ⟨huriLen, hquery, hqueryLen⟩ := hmarked.kept hptr
    rw [← lineOf, drop_lineOf hm, hself] at hrest
    exact ⟨hm, hlterm, (kept_iff huriLen hquery hqueryLen).mp hrest⟩
  · rintro ⟨hm, hlterm, hmark⟩
    obtain ⟨hself, hptr⟩ := hkept hm hlterm
    obtain ⟨huriLen, hquery, hqueryLen⟩ := hmarked.kept hptr
    refine ⟨hm, startsNocase_of_isMethod hm, ?_, ?_, ?_, ?_⟩
    · rw [(map_take_of_isMethod hm).2]
      rfl
    · rw [hmarked.method]
      omega
    · rw [← lineOf, drop_lineOf hm, takeWhile_lineOf hparts, length_lineOf.mpr hlterm]
      exact huri
    · rw [← lineOf, drop_lineOf hm, hself]
      exact (kept_iff huriLen hquery hqueryLen).mpr hmark

/-- Both recognisers agree, and the parts of the line are recorded, exactly for proper lines. -/
theorem recognised_iff {start : Bytes} {size : Nat} (hline : IsComplete start size) :
    Recognised start size ↔ IsProper start size := by
  have hne : start.dropWhile isSpace ≠ [] := by
    intro hnil
    have hlength := congrArg List.length (@List.takeWhile_append_dropWhile _ isSpace start)
    obtain ⟨hsize, hle⟩ := hline
    rw [hnil, List.append_nil] at hlength
    omega
  obtain ⟨c, t, hp⟩ := List.exists_cons_of_ne_nil hne
  rw [Recognised, IsProper, hp]
  by_cases hc : c < 128
  · have hrequest := @scanfHeader_request start size c t hp hc
    have hrecognised : (match scanfHeader start size with
        | some .outside => False
        | some (.request info) => Recorded start info
        | _ => True) ↔ ∀ info, scanfHeader start size = some (.request info) →
          Recorded start info := by
      have houtside := @scanfHeader_ne_outside start size c t hp hc
      split
      · next h => exact absurd h houtside
      · next info h => simp [h]
      · next h => exact iff_of_true trivial fun info hinfo => absurd hinfo (h info)
    rw [hrecognised]
    have hparts_le : ∀ {m gap target rest}, Parts ((c :: t).drop (HTTPMethodType.name m).length)
        gap target rest → (target ++ rest).length ≤ start.length := by
      intro m gap target rest hparts
      have hle := (@List.dropWhile_sublist _ start isSpace).length_le
      have hdrop := congrArg List.length hparts.text
      rw [hp] at hle
      rw [List.length_drop, List.length_append] at hdrop
      omega
    constructor
    · intro h d hd
      obtain rfl := Option.some.inj hd
      refine ⟨hc, fun m gap target rest hm hparts hends => ?_⟩
      obtain ⟨hexists, hmarked⟩ := scanMethod_parts hparts (hparts_le hparts)
      obtain ⟨info, hinfo⟩ := hexists.mpr hends
      have hrecorded := h info (hrequest.mpr ⟨m, hm, hinfo⟩)
      have hiff := @recorded_iff start size m gap target rest info hline
      rw [hp] at hiff
      exact (hiff hparts hends (hmarked info hinfo)).mp hrecorded
    · intro h info hinfo
      obtain ⟨m, hm, hscan⟩ := hrequest.mp hinfo
      obtain ⟨gap, target, rest, hparts⟩ := exists_parts hscan
      obtain ⟨hexists, hmarked⟩ := scanMethod_parts hparts (hparts_le hparts)
      have hends := hexists.mp ⟨info, hscan⟩
      have hproper := (h c rfl).2 m gap target rest hm hparts hends
      have hiff := @recorded_iff start size m gap target rest info hline
      rw [hp] at hiff
      exact (hiff hparts hends (hmarked info hscan)).mpr hproper
  · rw [scanfHeader_of_not_lt hp hc]
    exact iff_of_false (fun h => h) fun h => hc (h c rfl).1

/-- `GET / HTTP/1.0` -/
theorem recognised_get :
    Recognised [71, 69, 84, 32, 47, 32, 72, 84, 84, 80, 47, 49, 46, 48, 10] 15 ↔
      IsProper [71, 69, 84, 32, 47, 32, 72, 84, 84, 80, 47, 49, 46, 48, 10] 15 :=
  recognised_iff ⟨by decide, by decide⟩

/-- A byte of the upper half is looked up behind the table; and `GXX / HTTP/1.0` is a `GET`. -/
theorem not_recognised :
    ¬ Recognised [128, 10] 2 ∧
      ¬ Recognised [71, 88, 88, 32, 47, 32, 72, 84, 84, 80, 47, 49, 46, 48, 10] 15 := by
  refine ⟨fun h => h, fun h => ?_⟩
  have hvalid : isValidRequest [71, 88, 88, 32, 47, 32, 72, 84, 84, 80, 47, 49, 46, 48, 10] =
      some .get := h.1
  exact absurd hvalid (by decide)

end ULib.RequestLine
