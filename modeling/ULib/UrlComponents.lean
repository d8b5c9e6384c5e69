import ULib.Runs
import ULib.UrlText

/-!
The parts of a URL under the setters of `Url`: each changes one part and leaves
what is read of the others. A well-formed URL is given by its parts, and the
positions of the object are those at which its parts stand in the text.
-/

namespace ULib.UrlComponents

open ULib.KeyComparison
open ULib.EscapeCoding
open ULib.JsonValue
open ULib.JsonScan
open ULib.TextSearch
open ULib.UrlCoding
open ULib.UrlText
open ULib.Runs

/-! ### Well-formed parts -/

abbrev Service : Type := {s : Bytes // s ≠ [] ∧ slash ∉ s}

/-- A user, with a password or without. -/
abbrev User : Type := {s : Bytes // s ≠ [] ∧ slash ∉ s ∧ question ∉ s ∧ atSign ∉ s}

/-- A name or an address. -/
def IsPlainHost (s : Bytes) : Prop :=
  s ≠ [] ∧ slash ∉ s ∧ question ∉ s ∧ atSign ∉ s ∧ colon ∉ s ∧ '['.toUInt8 ∉ s

instance (s : Bytes) : Decidable (IsPlainHost s) := inferInstanceAs (Decidable (_ ∧ _))

/-- The inner part of an address in brackets. -/
def IsInner (s : Bytes) : Prop :=
  slash ∉ s ∧ question ∉ s ∧ atSign ∉ s ∧ ']'.toUInt8 ∉ s

def bracketed (s : Bytes) : Bytes := '['.toUInt8 :: (s ++ [']'.toUInt8])

inductive Host
  | plain (s : {s : Bytes // IsPlainHost s})
  | address (s : {s : Bytes // IsInner s})

abbrev Port : Type := {s : Bytes // s ≠ [] ∧ s.length ≤ 5 ∧ ∀ c ∈ s, isDigit c}

/-- A path with its slash. -/
abbrev Path : Type := {s : Bytes // s.head? = some slash ∧ question ∉ s ∧ isEscaped s}

/-- What `setPath` takes, which may be without the slash. -/
abbrev PathArgument : Type := {s : Bytes // s ≠ [] ∧ question ∉ s ∧ isEscaped s}

abbrev Query : Type := {s : Bytes // isEscaped s}

structure Parts where
  service : Service
  user : Option User
  host : Host
  port : Option Port
  path : Option Path
  query : Option Query

def Host.text : Host → Bytes
  | .plain s => s.1
  | .address s => bracketed s.1

def userText : Option User → Bytes
  | none => []
  | some user => user.1 ++ [atSign]

/-- The user without the `@`. -/
def userLength : Option User → Nat
  | none => 0
  | some user => user.1.length

def portText : Option Port → Bytes
  | none => []
  | some port => colon :: port.1

def pathText : Option Path → Bytes
  | none => []
  | some path => path.1

def queryText : Option Query → Bytes
  | none => []
  | some query => question :: query.1

namespace Parts

variable (p : Parts)

def head : Bytes := p.service.1 ++ [colon, slash, slash]

def authority : Bytes := userText p.user ++ (p.host.text ++ portText p.port)

def tail : Bytes := pathText p.path ++ queryText p.query

/-- `service://[user@]host[:port][/path][?query]` -/
def text : Bytes := p.head ++ (p.authority ++ p.tail)

/-- The object of the text. -/
def laid : Url where
  url := p.text
  serviceEnd := p.service.1.length
  userBegin := p.head.length
  userEnd := p.head.length + userLength p.user
  hostBegin := p.head.length + (userText p.user).length
  hostEnd := p.head.length + (userText p.user).length + p.host.text.length
  pathBegin := p.head.length + p.authority.length
  pathEnd := p.head.length + p.authority.length + (pathText p.path).length

/-- The path begins at the first slash behind the authority. -/
def Findable : Prop := p.path = none → slash ∉ queryText p.query

instance : Decidable p.Findable :=
  match hpath : p.path with
  | some _ => isTrue fun h => nomatch hpath.symm.trans h
  | none => decidable_of_iff (slash ∉ queryText p.query) ⟨fun h _ => h, fun h => h hpath⟩

/-! ### The positions that are found -/

theorem host_ne_nil (host : Host) : host.text ≠ [] := by
  cases host with
  | plain s => exact s.2.1
  | address s => exact List.cons_ne_nil _ _

theorem host_chars (host : Host) : slash ∉ host.text ∧ question ∉ host.text ∧
    atSign ∉ host.text := by
  cases host with
  | plain s => exact ⟨s.2.2.1, s.2.2.2.1, s.2.2.2.2.1⟩
  | address s =>
      obtain ⟨s, hslash, hquestion, hat, -⟩ := s
      refine ⟨?_, ?_, ?_⟩
      · simpa [Host.text, bracketed, hslash] using (by decide)
      · simpa [Host.text, bracketed, hquestion] using (by decide)
      · simpa [Host.text, bracketed, hat] using (by decide)

theorem path_cons (path : Path) : ∃ t, path.1 = slash :: t := by
  obtain ⟨path, hhead, -⟩ := path
  cases path with
  | nil => cases hhead
  | cons d t => exact ⟨t, congrArg (· :: t) (Option.some.inj hhead)⟩

theorem not_mem_portText {c : UInt8} (hc : isDigit c = false) (hcolon : c ≠ colon)
    (port : Option Port) : c ∉ portText port := by
  cases port with
  | none => exact List.not_mem_nil
  | some port =>
      simp only [portText, List.mem_cons, not_or]
      exact ⟨hcolon, fun h => by simpa [hc] using port.2.2.2 c h⟩

theorem not_mem_authority {c : UInt8} (hc : c = slash ∨ c = question) : c ∉ p.authority := by
  have huser : c ∉ userText p.user := by
    cases p.user with
    | none => exact List.not_mem_nil
    | some user =>
        obtain ⟨user, -, hslash, hquestion, -⟩ := user
        rcases hc with rfl | rfl
        · simpa [userText, hslash] using (by decide)
        · simpa [userText, hquestion] using (by decide)
  have hhost : c ∉ p.host.text := by
    rcases hc with rfl | rfl
    · exact (host_chars p.host).1
    · exact (host_chars p.host).2.1
  have hport : c ∉ portText p.port := by
    rcases hc with rfl | rfl
    · exact not_mem_portText (by decide) (by decide) p.port
    · exact not_mem_portText (by decide) (by decide) p.port
  simp only [authority, List.mem_append, not_or]
  exact ⟨huser, hhost, hport⟩

/-- What stands behind the authority. -/
theorem tail_cases : p.tail = [] ∨ ∃ d t, p.tail = d :: t ∧ (d = slash ∨ d = question) := by
  obtain ⟨_, _, _, _, path, query⟩ := p
  cases path with
  | some path =>
      obtain ⟨t, ht⟩ := path_cons path
      refine .inr ⟨slash, t ++ queryText query, ?_, .inl rfl⟩
      rw [tail, pathText, ht]
      rfl
  | none =>
      cases query with
      | none => exact .inl rfl
      | some query => exact .inr ⟨question, query.1, rfl, .inr rfl⟩

variable {p}

/-- A byte that is not in the rest of the authority is found behind it, if at all. -/
theorem find_behind {c : UInt8} {w : Bytes} {pos : Nat} (hdrop : p.text.drop pos = w ++ p.tail)
    (hc : c ∉ w) (hslash : c ≠ slash) (hquestion : c ≠ question) {i : Nat}
    (hfound : find p.text c pos = some i) : pos + w.length < i := by
  obtain ⟨v, u, hvu, -, rfl⟩ := of_find hfound
  rw [hdrop] at hvu
  rcases List.append_eq_append_iff.mp hvu with ⟨x, rfl, htail⟩ | ⟨x, rfl, htail⟩
  · cases x with
    | nil =>
        rcases p.tail_cases with h | ⟨d, t, h, hd⟩
        · rw [h] at htail
          cases htail
        · rw [h] at htail
          cases htail
          exact absurd hd (not_or.mpr ⟨hslash, hquestion⟩)
    | cons d x =>
        rw [List.length_append, List.length_cons]
        omega
  · cases x with
    | nil =>
        rcases p.tail_cases with h | ⟨d, t, h, hd⟩
        · rw [h] at htail
          cases htail
        · rw [h] at htail
          cases htail
          exact absurd hd (not_or.mpr ⟨hslash, hquestion⟩)
    | cons d x =>
        cases htail
        exact absurd (List.mem_append_right v List.mem_cons_self) hc

variable (p)

theorem drop_head : p.text.drop p.head.length = p.authority ++ p.tail := List.drop_left

theorem drop_user :
    p.text.drop (p.head.length + (userText p.user).length) =
      p.host.text ++ portText p.port ++ p.tail := by
  rw [← List.drop_drop, drop_head, authority, List.append_assoc, List.drop_left,
    List.append_assoc]

theorem drop_authority : p.text.drop (p.head.length + p.authority.length) = p.tail := by
  rw [← List.drop_drop, drop_head, List.drop_left]

theorem search_slashes : search [slash, slash] p.text = some (p.service.1.length + 1) := by
  have hhead : ∀ q r, p.service.1 ++ [colon] = q ++ r → r ≠ [] →
      ¬ [slash, slash] <+: r ++ (slash :: slash :: (p.authority ++ p.tail)) := by
    intro q r hqr hr hpre
    cases r with
    | nil => exact hr rfl
    | cons c r =>
        have hc : c ∈ p.service.1 ++ [colon] := hqr ▸ List.mem_append_right q List.mem_cons_self
        rw [List.cons_append, List.cons_prefix_cons] at hpre
        rcases List.mem_append.mp hc with h | h
        · exact p.service.2.2 (hpre.1 ▸ h)
        · exact absurd (hpre.1.trans (List.mem_singleton.mp h)) (by decide)
  have htext : p.text = p.service.1 ++ [colon] ++ (slash :: slash :: (p.authority ++ p.tail)) := by
    simp [text, head]
  have hfound : search [slash, slash] (slash :: slash :: (p.authority ++ p.tail)) = some 0 :=
    search_prefix ⟨_, rfl⟩
  rw [htext, search_skip hhead, hfound, List.length_append]
  rfl

theorem tail_of_path {path : Path} (h : p.path = some path) :
    ∃ t, p.tail = slash :: (t ++ queryText p.query) ∧ path.1 = slash :: t := by
  obtain ⟨t, ht⟩ := path_cons path
  refine ⟨t, ?_, ht⟩
  rw [tail, h, pathText, ht]
  rfl

theorem findPathBegin_text (hp : p.Findable) :
    findPathBegin p.text p.head.length = p.head.length + p.authority.length := by
  have hslash : slash ∉ p.authority := p.not_mem_authority (.inl rfl)
  have hquestion : question ∉ p.authority := p.not_mem_authority (.inr rfl)
  have hdrop := p.drop_head
  rw [findPathBegin]
  cases hpath : p.path with
  | some path =>
      obtain ⟨t, htail, -⟩ := p.tail_of_path hpath
      rw [htail] at hdrop
      rw [find_eq_some hdrop hslash]
  | none =>
      have htail : p.tail = queryText p.query := by rw [tail, hpath]; rfl
      rw [htail] at hdrop
      have hnone : slash ∉ p.text.drop p.head.length := by
        rw [hdrop, List.mem_append, not_or]
        exact ⟨hslash, hp hpath⟩
      rw [find_eq_none hnone]
      cases hquery : p.query with
      | some query =>
          rw [hquery] at hdrop
          rw [find_eq_some hdrop hquestion]
          rfl
      | none =>
          rw [hquery] at hdrop htail
          have hnone : question ∉ p.text.drop p.head.length := by
            rw [hdrop]
            simpa [queryText] using hquestion
          rw [find_eq_none hnone, Option.getD_none, text, htail]
          simp [queryText]

theorem findUser_text :
    findUser p.text p.head.length (p.head.length + p.authority.length) =
      (p.laid.userEnd, p.laid.hostBegin) := by
  have hdrop := p.drop_head
  rw [findUser]
  cases huser : p.user with
  | some user =>
      have hat : atSign ∉ user.1 := user.2.2.2.2
      have hauthority : p.authority = user.1 ++ (atSign :: (p.host.text ++ portText p.port)) := by
        rw [authority, huser, userText, List.append_assoc]
        rfl
      rw [hauthority, List.append_assoc] at hdrop
      rw [find_eq_some hdrop hat]
      dsimp only
      rw [if_neg, laid, huser]
      · simp only [userLength, userText, List.length_append, List.length_singleton]
        rfl
      · rw [hauthority, List.length_append]
        omega
  | none =>
      have hat : atSign ∉ p.authority := by
        simp only [authority, huser, userText, List.nil_append, List.mem_append, not_or]
        exact ⟨(host_chars p.host).2.2, not_mem_portText (by decide) (by decide) p.port⟩
      have hlaid : (p.head.length, p.head.length) = (p.laid.userEnd, p.laid.hostBegin) := by
        rw [laid, huser]
        rfl
      rw [← hlaid]
      cases hfound : find p.text atSign p.head.length with
      | none => rfl
      | some i => exact if_pos (find_behind hdrop hat (by decide) (by decide) hfound)

theorem findHost_text :
    findHost p.text p.laid.hostBegin (p.head.length + p.authority.length) = p.laid.hostEnd := by
  have hdrop : p.text.drop p.laid.hostBegin = p.host.text ++ portText p.port ++ p.tail :=
    p.drop_user
  have hlength : p.laid.hostBegin + (p.host.text ++ portText p.port).length =
      p.head.length + p.authority.length := by
    rw [laid, authority, @List.length_append _ (userText p.user)]
    exact Nat.add_assoc _ _ _
  have hend : p.laid.hostEnd = p.laid.hostBegin + p.host.text.length := rfl
  rw [← hlength, hend]
  generalize p.laid.hostBegin = hostBegin at hdrop
  cases hhost : p.host with
  | plain s =>
      have hbracket : '['.toUInt8 ∉ p.host.text ++ portText p.port := by
        rw [List.mem_append, not_or, hhost]
        exact ⟨s.2.2.2.2.2.2, not_mem_portText (by decide) (by decide) p.port⟩
      have hplain : findHost p.text hostBegin
          (hostBegin + (p.host.text ++ portText p.port).length) =
          findHostEnd p.text hostBegin (hostBegin + (p.host.text ++ portText p.port).length) := by
        rw [findHost]
        cases hfound : find p.text '['.toUInt8 hostBegin with
        | none => rfl
        | some i =>
            have := find_behind hdrop hbracket (by decide) (by decide) hfound
            exact if_neg (by omega)
      have hcolon : colon ∉ p.host.text := by
        rw [hhost]
        exact s.2.2.2.2.2.1
      rw [← hhost, hplain, findHostEnd]
      cases hport : p.port with
      | some port =>
          rw [hport, portText, List.append_assoc] at hdrop
          rw [find_eq_some hdrop hcolon]
          dsimp only
          rw [if_neg]
          rw [List.length_append]
          omega
      | none =>
          rw [hport] at hdrop
          have hcolon : colon ∉ p.host.text ++ portText none := by simpa [portText] using hcolon
          have hresult : hostBegin + (p.host.text ++ portText none).length =
              hostBegin + p.host.text.length := by simp [portText]
          rw [← hresult]
          cases hfound : find p.text colon hostBegin with
          | none => rfl
          | some i => exact if_pos (find_behind hdrop hcolon (by decide) (by decide) hfound)
  | address s =>
      have hpos : 0 < (p.host.text ++ portText p.port).length := by
        rw [List.length_append]
        have := List.length_pos_of_ne_nil (host_ne_nil p.host)
        omega
      have hbracket : ']'.toUInt8 ∉ '['.toUInt8 :: s.1 := by
        simpa [s.2.2.2.2] using (by decide : ¬ ']'.toUInt8 = '['.toUInt8)
      have htext : p.host.text = '['.toUInt8 :: s.1 ++ [']'.toUInt8] := by rw [hhost]; rfl
      rw [htext, List.append_assoc, List.append_assoc] at hdrop
      have hopen : find p.text '['.toUInt8 hostBegin = some hostBegin :=
        find_eq_some (w := []) hdrop List.not_mem_nil
      have hclose : find p.text ']'.toUInt8 hostBegin = some (hostBegin + (s.1.length + 1)) :=
        find_eq_some hdrop hbracket
      rw [← hhost, findHost, hopen]
      dsimp only
      rw [if_pos (by omega), findBracketEnd, hclose]
      dsimp only
      rw [htext, if_pos]
      · simp
        omega
      · simp

theorem findpos_text (hp : p.Findable) : findpos p.text = p.laid := by
  have hservice : ¬ ((p.service.1.length + 1 : Nat) - 1 : Int) = 0 := by
    have := List.length_pos_of_ne_nil p.service.2.1
    omega
  have hhead : p.service.1.length + 1 + 2 = p.head.length := by
    rw [head, List.length_append]
    rfl
  have hpathEnd : (find p.text question (p.head.length + p.authority.length)).getD p.text.length =
      p.laid.pathEnd := by
    have hdrop := p.drop_authority
    have hquestion : question ∉ pathText p.path := by
      cases p.path with
      | none => exact List.not_mem_nil
      | some path => exact path.2.2.1
    have hend : p.laid.pathEnd = p.head.length + p.authority.length + (pathText p.path).length :=
        rfl
    cases hquery : p.query with
    | some query =>
        rw [tail, hquery, queryText] at hdrop
        rw [find_eq_some hdrop hquestion]
        rfl
    | none =>
        have htail : p.tail = pathText p.path := by rw [tail, hquery, queryText, List.append_nil]
        rw [find_eq_none (by rwa [hdrop, htail]), Option.getD_none, hend, text, htail,
          List.length_append, List.length_append, Nat.add_assoc]
  rw [findpos, p.search_slashes]
  dsimp only
  rw [if_neg (fun h => hservice h.1), hhead, p.findPathBegin_text hp, p.findUser_text]
  dsimp only
  rw [p.findHost_text, hpathEnd]
  simp only [laid, Nat.cast_add, Nat.cast_one, Int.add_sub_cancel]

end Parts

/-! ### What is read -/

/-- What the getters return, the port as it stands in the text. -/
structure Values where
  service : Bytes
  user : Bytes
  host : Bytes
  port : Bytes
  path : Bytes
  query : Bytes
  deriving DecidableEq, Repr

def values (u : Url) : Values :=
  ⟨u.getService, u.getUser, u.getHost, u.getPortText, u.getPath, u.getQuery⟩

/-- What the parts stand for; nothing is the empty text, and no path is the root. -/
def Parts.values (p : Parts) : Values where
  service := p.service.1
  user := (p.user.map Subtype.val).getD []
  host := p.host.text
  port := (p.port.map Subtype.val).getD []
  path := decoded ((p.path.map Subtype.val).getD [slash])
  query := decoded ((p.query.map Subtype.val).getD [])

theorem between_append (x y z : Bytes) :
    between (x ++ (y ++ z)) x.length (x.length + y.length) = y := by
  rw [between, List.drop_left, Nat.add_sub_cancel_left, List.take_left]

namespace Parts

variable (p : Parts)

theorem getService_laid : p.laid.getService = p.service.1 := by
  have hpos : (0 : Int) < p.service.1.length :=
    Int.natCast_pos.mpr (List.length_pos_of_ne_nil p.service.2.1)
  have htext : p.text = p.service.1 ++ ([colon, slash, slash] ++ (p.authority ++ p.tail)) := by
    rw [text, head, List.append_assoc]
  rw [Url.getService, laid, if_pos hpos, Int.toNat_natCast, htext, List.take_left]

theorem getUser_laid : p.laid.getUser = (p.user.map Subtype.val).getD [] := by
  rw [Url.getUser, laid]
  cases huser : p.user with
  | none => exact if_neg (Nat.lt_irrefl _)
  | some user =>
      have hpos : 0 < user.1.length := List.length_pos_of_ne_nil user.2.1
      have htext : p.text =
          p.head ++ (user.1 ++ (atSign :: (p.host.text ++ portText p.port) ++ p.tail)) := by
        rw [text, authority, huser, userText, List.append_assoc, List.append_assoc]
        rfl
      rw [userLength, if_pos (Nat.lt_add_of_pos_right hpos), htext, between_append]
      rfl

theorem getHost_laid : p.laid.getHost = p.host.text := by
  have hpos : 0 < p.host.text.length := List.length_pos_of_ne_nil (host_ne_nil p.host)
  have htext : p.text =
      p.head ++ userText p.user ++ (p.host.text ++ (portText p.port ++ p.tail)) := by
    simp [text, authority]
  rw [Url.getHost, laid, if_pos (Nat.lt_add_of_pos_right hpos), htext, ← List.length_append,
    between_append]

theorem drop_host : p.text.drop p.laid.hostEnd = portText p.port ++ p.tail := by
  rw [laid, ← List.drop_drop, drop_user, List.append_assoc, List.drop_left]

theorem pathBegin_laid : p.laid.pathBegin = p.laid.hostEnd + (portText p.port).length := by
  simp only [laid, authority, List.length_append]
  omega

theorem getPortText_laid : p.laid.getPortText = (p.port.map Subtype.val).getD [] := by
  have hdrop := p.drop_host
  rw [Url.getPortText, pathBegin_laid]
  generalize p.laid.hostEnd = hostEnd at hdrop
  cases hport : p.port with
  | none => exact if_neg (Nat.lt_irrefl _)
  | some port =>
      have hpos : 0 < port.1.length := List.length_pos_of_ne_nil port.2.1
      have hsize : hostEnd + (portText (some port)).length - hostEnd - 1 = port.1.length := by
        simp [portText]
      have hdigits : p.laid.url.drop (hostEnd + 1) = port.1 ++ p.tail := by
        rw [← List.drop_drop, laid, hdrop, hport]
        rfl
      rw [if_pos (by simp [portText])]
      simp only [hsize]
      rw [if_pos ⟨by omega, port.2.2.1⟩, hdigits, List.take_left]
      rfl

theorem path_pos (path : Path) : 0 < path.1.length := by
  obtain ⟨t, ht⟩ := path_cons path
  rw [ht]
  exact Nat.succ_pos _

theorem getPath_laid : p.laid.getPath = decoded ((p.path.map Subtype.val).getD [slash]) := by
  have hdrop := p.drop_authority
  rw [Url.getPath, laid]
  cases hpath : p.path with
  | none => exact if_neg (Nat.lt_irrefl _)
  | some path =>
      dsimp only
      rw [pathText, if_pos (Nat.lt_add_of_pos_right (path_pos _)), hdrop, tail, hpath,
        Nat.add_sub_cancel_left]
      exact urlDecode_escaped path.2.2.2 _

theorem drop_path : p.text.drop p.laid.pathEnd = queryText p.query := by
  rw [laid, ← List.drop_drop, drop_authority, tail, List.drop_left]

theorem take_path : p.text.take p.laid.pathEnd = p.head ++ (p.authority ++ pathText p.path) := by
  have hlength : p.laid.pathEnd = (p.head ++ (p.authority ++ pathText p.path)).length := by
    simp [laid, Nat.add_assoc]
  have htext : p.text = p.head ++ (p.authority ++ pathText p.path) ++ queryText p.query := by
    simp [text, tail]
  rw [hlength, htext, List.take_left]

theorem length_text : p.text.length = p.laid.pathEnd + (queryText p.query).length := by
  simp only [text, laid, tail, List.length_append]
  omega

theorem getQuery_laid : p.laid.getQuery = decoded ((p.query.map Subtype.val).getD []) := by
  have hdrop : p.laid.queryText = (queryText p.query).drop 1 := by
    rw [Url.queryText, ← List.drop_drop, ← p.drop_path]
    rfl
  have hlength : p.laid.url.length = p.laid.pathEnd + (queryText p.query).length := p.length_text
  rw [Url.getQuery, hdrop, hlength]
  cases p.query with
  | none => exact if_neg (by simp [queryText])
  | some query =>
      obtain ⟨query, hquery⟩ := query
      cases query with
      | nil => exact if_neg (by simp [queryText])
      | cons c t =>
          rw [if_pos (by simp [queryText])]
          have := urlDecode_escaped hquery []
          rwa [List.append_nil] at this

theorem values_laid : UrlComponents.values p.laid = p.values := by
  rw [UrlComponents.values, getService_laid, getUser_laid, getHost_laid, getPortText_laid,
    getPath_laid, getQuery_laid]
  rfl

end Parts

/-! ### Changes -/

/-- A call of a setter. Behind a query stand other bytes in memory. -/
inductive Change
  | setService (service : Service)
  | setUser (user : User)
  | eraseUser
  | setHost (host : Host)
  | setPort (port : UInt16)
  | setPath (path : PathArgument)
  | setQuery (query : Query) (behind : Bytes)
  | eraseQuery

/-- The object after the call. -/
def apply (u : Url) : Change → Url
  | .setService service => u.setService service.1
  | .setUser user => u.setUser user.1
  | .eraseUser => u.eraseUser
  | .setHost host => u.setHost host.text
  | .setPort port => u.setPort port.toNat
  | .setPath path => u.setPath path.1
  | .setQuery query behind => u.setQuery query.1 behind
  | .eraseQuery => u.eraseQuery

def step (u : Url) (c : Change) : Option (Unit × Url) := some ((), apply u c)

/-- A path that is given without its slash gets one. -/
def rooted (path : Bytes) : Bytes := if peek path 0 = slash then path else slash :: path

/-- Each call changes one value. -/
def Values.change (v : Values) : Change → Values
  | .setService service => { v with service := service.1 }
  | .setUser user => { v with user := user.1 }
  | .eraseUser => { v with user := [] }
  | .setHost host => { v with host := host.text }
  | .setPort port => { v with port := printNat port.toNat }
  | .setPath path => { v with path := decoded (rooted path.1) }
  | .setQuery query _ => { v with query := decoded query.1 }
  | .eraseQuery => { v with query := [] }

/-- There is no user to erase, and no query is given with its question mark. -/
def Careful (u : Url) : Change → Prop
  | .eraseUser => u.getUser = []
  | .setQuery query _ => peek query.1 0 ≠ question
  | _ => True

instance (u : Url) : ∀ c, Decidable (Careful u c)
  | .eraseUser => inferInstanceAs (Decidable (_ = _))
  | .setQuery _ _ => inferInstanceAs (Decidable (_ ≠ _))
  | .setService _ | .setUser _ | .setHost _ | .setPort _ | .setPath _ | .eraseQuery =>
      inferInstanceAs (Decidable True)

theorem rooted_path (path : PathArgument) : (rooted path.1).head? = some slash ∧
    question ∉ rooted path.1 ∧ isEscaped (rooted path.1) := by
  obtain ⟨path, hne, hquestion, hescaped⟩ := path
  cases path with
  | nil => exact absurd rfl hne
  | cons c t =>
      rw [rooted]
      split_ifs with hc
      · exact ⟨congrArg some hc, hquestion, hescaped⟩
      · refine ⟨rfl, ?_, ?_⟩
        · simp only [List.mem_cons, not_or] at hquestion ⊢
          exact ⟨by decide, hquestion⟩
        · rw [isEscaped_cons (by decide)]
          exact hescaped

theorem port_digits (port : UInt16) : printNat port.toNat ≠ [] ∧
    (printNat port.toNat).length ≤ 5 ∧ ∀ c ∈ printNat port.toNat, isDigit c := by
  have hlt : port.toNat < 10 ^ 5 := port.toNat_lt.trans (by decide)
  obtain ⟨hne, hdigits, -⟩ := printNat_spec port.toNat
  exact ⟨hne, length_printNat_le (by decide) hlt, hdigits⟩

/-- The parts after a call. A query has a path before it. -/
def Parts.change (p : Parts) : Change → Parts
  | .setService service => { p with service := service }
  | .setUser user => { p with user := some user }
  | .eraseUser => { p with user := none }
  | .setHost host => { p with host := host }
  | .setPort port => { p with port := some ⟨_, port_digits port⟩ }
  | .setPath path => { p with path := some ⟨_, rooted_path path⟩ }
  | .setQuery query _ =>
      { p with path := some (p.path.getD ⟨[slash], by decide⟩), query := some query }
  | .eraseQuery => { p with query := none }

theorem replace_append (x y z s : Bytes) :
    replace (x ++ (y ++ z)) x.length y.length s = x ++ (s ++ z) := by
  rw [replace, List.take_left, ← List.drop_drop, List.drop_left, List.drop_left,
    List.append_assoc]

theorem insert_append (x z s : Bytes) : replace (x ++ z) x.length 0 s = x ++ (s ++ z) :=
  replace_append x [] z s

namespace Parts

variable (p : Parts)

theorem host_found : p.laid.hostBegin < p.laid.hostEnd :=
  Nat.lt_add_of_pos_right (List.length_pos_of_ne_nil (host_ne_nil p.host))

theorem setService_text (service : Service) :
    p.laid.setService service.1 = findpos (p.change (.setService service)).text := by
  have hpos : (0 : Int) < p.service.1.length :=
    Int.natCast_pos.mpr (List.length_pos_of_ne_nil p.service.2.1)
  have htext : p.text =
      [] ++ (p.service.1 ++ ([colon, slash, slash] ++ (p.authority ++ p.tail))) := by
    rw [text, head, List.append_assoc]
    rfl
  have hreplace := replace_append [] p.service.1
    ([colon, slash, slash] ++ (p.authority ++ p.tail)) service.1
  rw [Url.setService, laid, if_pos hpos, Int.toNat_natCast, htext]
  refine congrArg findpos (hreplace.trans ?_)
  rw [text, head, List.append_assoc]
  rfl

theorem setUser_text (user : User) :
    p.laid.setUser user.1 = findpos (p.change (.setUser user)).text := by
  have hresult : (p.change (.setUser user)).text =
      p.head ++ (user.1 ++ (atSign :: (p.host.text ++ portText p.port) ++ p.tail)) := by
    simp [text, authority, change, head, tail, userText]
  rw [Url.setUser, if_pos p.host_found, hresult, laid]
  cases huser : p.user with
  | none =>
      have htext : p.text = p.head ++ (p.host.text ++ portText p.port ++ p.tail) := by
        rw [text, authority, huser]
        rfl
      dsimp only
      rw [userLength, Nat.add_zero, if_neg (Nat.lt_irrefl _), htext, insert_append, insert_append]
      rfl
  | some old =>
      have hpos : 0 < old.1.length := List.length_pos_of_ne_nil old.2.1
      have htext : p.text =
          p.head ++ (old.1 ++ (atSign :: (p.host.text ++ portText p.port) ++ p.tail)) := by
        rw [text, authority, huser, userText, List.append_assoc, List.append_assoc]
        rfl
      dsimp only
      rw [userLength, if_pos (Nat.lt_add_of_pos_right hpos), Nat.add_sub_cancel_left, htext,
        replace_append]

theorem setHost_text (host : Host) :
    p.laid.setHost host.text = findpos (p.change (.setHost host)).text := by
  have htext : p.text =
      p.head ++ userText p.user ++ (p.host.text ++ (portText p.port ++ p.tail)) := by
    simp [text, authority]
  have hresult : (p.change (.setHost host)).text =
      p.head ++ userText p.user ++ (host.text ++ (portText p.port ++ p.tail)) := by
    simp [text, authority, change, head, tail]
  rw [Url.setHost, if_pos p.host_found, hresult, laid]
  dsimp only
  rw [Nat.add_sub_cancel_left, htext, ← List.length_append, replace_append]

theorem setPort_text (port : UInt16) :
    p.laid.setPort port.toNat = findpos (p.change (.setPort port)).text := by
  have hlt : port.toNat ≤ 0xFFFF := Nat.le_of_lt_succ port.toNat_lt
  have hbegin : p.laid.hostEnd = (p.head ++ userText p.user ++ p.host.text).length := by
    rw [List.length_append, List.length_append]
    rfl
  have htext : p.text =
      p.head ++ userText p.user ++ p.host.text ++ (portText p.port ++ p.tail) := by
    simp [text, authority]
  have hresult : (p.change (.setPort port)).text =
      p.head ++ userText p.user ++ p.host.text ++ (colon :: printNat port.toNat ++ p.tail) := by
    simp [text, authority, change, head, tail, portText]
  have hurl : p.laid.url = p.text := rfl
  rw [Url.setPort, if_pos ⟨hlt, p.host_found⟩, hresult, pathBegin_laid, Nat.add_sub_cancel_left,
    hbegin, hurl, htext, replace_append]

theorem setPath_text (path : PathArgument) :
    p.laid.setPath path.1 = findpos (p.change (.setPath path)).text := by
  have hbegin : p.laid.pathBegin = (p.head ++ p.authority).length := (List.length_append).symm
  have hend : p.laid.pathEnd = p.laid.pathBegin + (pathText p.path).length := rfl
  have htext : p.laid.url = p.head ++ p.authority ++ (pathText p.path ++ queryText p.query) :=
    (List.append_assoc _ _ _).symm
  have hresult : (p.change (.setPath path)).text =
      p.head ++ p.authority ++ (rooted path.1 ++ queryText p.query) :=
    (List.append_assoc _ _ _).symm
  rw [Url.setPath, hresult, hend, hbegin, htext, rooted]
  generalize p.head ++ p.authority = before
  -- behind the slash that is there, or that was put there
  have hbehind : before.length + 1 = (before ++ [slash]).length := by
    rw [List.length_append]
    rfl
  cases hpath : p.path with
  | none =>
      rw [pathText, List.length_nil, Nat.add_zero, if_neg (Nat.lt_irrefl _), List.nil_append]
      by_cases hslash : peek path.1 0 = slash
      · rw [if_neg (not_not.mpr hslash), if_pos hslash, insert_append]
      · rw [if_pos hslash, if_neg hslash, insert_append, hbehind, ← List.append_assoc,
          insert_append, List.append_assoc]
        rfl
  | some old =>
      obtain ⟨t, ht⟩ := path_cons old
      rw [pathText, if_pos (Nat.lt_add_of_pos_right (path_pos old))]
      dsimp only
      by_cases hslash : peek path.1 0 = slash
      · rw [if_neg (not_not.mpr hslash), if_pos hslash, Nat.add_sub_cancel_left, replace_append]
      · have hrest : before ++ (old.1 ++ queryText p.query) =
            before ++ [slash] ++ (t ++ queryText p.query) := by
          rw [ht, List.append_assoc]
          rfl
        have hlength : before.length + old.1.length - (before.length + 1) = t.length := by
          rw [ht, List.length_cons]
          omega
        rw [if_pos hslash, if_neg hslash, hlength, hrest, hbehind, replace_append,
          List.append_assoc]
        rfl

/-- A query has a path before it, which is inserted where there is none. -/
def withPath : Parts := { p with path := some (p.path.getD ⟨[slash], by decide⟩) }

/-- The question mark of a query. -/
def withQuery : Parts := { p with query := some (p.query.getD ⟨[], rfl⟩) }

theorem withPath_laid : p.withPath.laid =
    if p.laid.pathBegin = p.laid.pathEnd then
      { p.laid with url := replace p.laid.url p.laid.pathBegin 0 [slash],
                    pathEnd := p.laid.pathEnd + 1 }
    else p.laid := by
  have hend : p.laid.pathEnd = p.laid.pathBegin + (pathText p.path).length := rfl
  have hbegin : p.laid.pathBegin = (p.head ++ p.authority).length := (List.length_append).symm
  cases hpath : p.path with
  | none =>
      rw [hpath, pathText, List.length_nil, Nat.add_zero] at hend
      have htext : p.laid.url = p.head ++ p.authority ++ queryText p.query := by
        simp [laid, text, tail, hpath, pathText]
      have hresult : p.withPath.text = p.head ++ p.authority ++ ([slash] ++ queryText p.query) := by
        simp [text, tail, withPath, hpath, pathText, head, authority]
      have hwith : p.laid.pathEnd + 1 = p.withPath.laid.pathEnd := by
        simp [laid, withPath, hpath, pathText, head, authority]
      rw [if_pos hend.symm, hwith, hbegin, htext, insert_append, ← hresult]
      rfl
  | some path =>
      rw [hpath, pathText] at hend
      have hpos := path_pos path
      have hwith : p.withPath = p := by
        rw [withPath, hpath, Option.getD_some, ← hpath]
      rw [if_neg (by omega), hwith]

theorem withQuery_laid : p.withQuery.laid =
    if p.laid.pathEnd = p.laid.url.length then { p.laid with url := p.laid.url ++ [question] }
    else p.laid := by
  have hlength : p.laid.url.length = _ := p.length_text
  cases hquery : p.query with
  | none =>
      rw [hquery, queryText, List.length_nil, Nat.add_zero] at hlength
      have hresult : p.withQuery.text = p.laid.url ++ [question] := by
        simp [laid, text, tail, withQuery, hquery, queryText, head, authority]
      rw [if_pos hlength.symm, ← hresult]
      rfl
  | some query =>
      rw [hquery, queryText, List.length_cons] at hlength
      have hwith : p.withQuery = p := by
        rw [withQuery, hquery, Option.getD_some, ← hquery]
      rw [if_neg (by omega), hwith]

theorem prepareForQuery_laid : p.laid.prepareForQuery = some p.withPath.withQuery.laid := by
  rw [Url.prepareForQuery, if_pos p.host_found, ← withPath_laid, withQuery_laid]

/-- A query is written over the one that is there. -/
theorem replace_query {old : Query} (hquery : p.query = some old) (bytes : Bytes) :
    replace p.laid.url (p.laid.pathEnd + 1) (p.laid.url.length - p.laid.pathEnd - 1) bytes =
      p.text.take p.laid.pathEnd ++ question :: bytes := by
  have hdrop : p.text.drop p.laid.pathEnd = question :: old.1 := by rw [drop_path, hquery]; rfl
  have htext : p.text = p.text.take p.laid.pathEnd ++ [question] ++ (old.1 ++ []) := by
    rw [List.append_nil, List.append_assoc, List.singleton_append, ← hdrop, List.take_append_drop]
  have hlength : p.text.length = p.laid.pathEnd + (old.1.length + 1) := by
    rw [length_text, hquery]
    rfl
  have hbegin : p.laid.pathEnd + 1 = (p.text.take p.laid.pathEnd ++ [question]).length := by
    rw [List.length_append, List.length_take_of_le (by omega)]
    rfl
  have hold : p.text.length - p.laid.pathEnd - 1 = old.1.length := by omega
  have hurl : p.laid.url = p.text := rfl
  rw [hurl, hold, hbegin]
  nth_rewrite 1 [htext]
  rw [replace_append, List.append_nil, List.append_assoc]
  rfl

theorem setQuery_laid (query : Query) (behind : Bytes)
    (hcareful : peek query.1 0 ≠ question) :
    p.laid.setQuery query.1 behind = (p.change (.setQuery query behind)).laid := by
  have hbytes : ((query.1 ++ behind).drop
      (if peek (query.1 ++ behind) 0 = question then 1 else 0)).take query.1.length = query.1 := by
    generalize query.1 = bytes at hcareful
    cases bytes with
    | nil => exact List.take_zero
    | cons c t =>
        have hpeek : peek (c :: t ++ behind) 0 = peek (c :: t) 0 := rfl
        rw [hpeek, if_neg hcareful, List.drop_zero, List.take_left]
  have hquery : p.withPath.withQuery.query = some (p.query.getD ⟨[], rfl⟩) := rfl
  have htext : p.withPath.withQuery.text.take p.withPath.withQuery.laid.pathEnd ++
      question :: query.1 = (p.change (.setQuery query behind)).text := by
    rw [take_path, text, tail, List.append_assoc, List.append_assoc]
    rfl
  rw [Url.setQuery, prepareForQuery_laid]
  dsimp only
  rw [hbytes, replace_query _ hquery, htext]
  rfl

theorem eraseQuery_laid : p.laid.eraseQuery = (p.change .eraseQuery).laid := by
  have hlength : p.laid.url.length = _ := p.length_text
  have htake : p.laid.url.take p.laid.pathEnd = (p.change .eraseQuery).text := by
    refine p.take_path.trans ?_
    rw [text, tail]
    simp [change, queryText, head, authority]
  rw [Url.eraseQuery, htake]
  cases hquery : p.query with
  | none =>
      have hchange : p.change .eraseQuery = p := by rw [change, ← hquery]
      rw [hchange]
      split
      · rfl
      · rfl
  | some query =>
      rw [hquery, queryText, List.length_cons] at hlength
      rw [if_pos (by omega)]
      rfl

theorem eraseUser_laid (hcareful : p.laid.getUser = []) :
    p.laid.eraseUser = (p.change .eraseUser).laid := by
  have huser : p.user = none := by
    rw [getUser_laid] at hcareful
    cases huser : p.user with
    | none => rfl
    | some user =>
        rw [huser] at hcareful
        exact absurd hcareful user.2.1
  have hchange : p.change .eraseUser = p := by rw [change, ← huser]
  have hempty : ¬ p.laid.userBegin < p.laid.userEnd := by
    rw [laid, huser]
    exact Nat.lt_irrefl _
  rw [hchange, Url.eraseUser, if_neg hempty]

theorem findable_change (hp : p.Findable) : ∀ c, (p.change c).Findable
  | .setService _ | .setUser _ | .eraseUser | .setHost _ | .setPort _ => hp
  | .setPath _ | .setQuery _ _ => fun h => nomatch h
  | .eraseQuery => fun _ => List.not_mem_nil

/-- A call leaves the object of the parts after it. -/
theorem apply_laid (hp : p.Findable) (c : Change) (hcareful : Careful p.laid c) :
    apply p.laid c = (p.change c).laid := by
  have hfound : findpos (p.change c).text = (p.change c).laid :=
    (p.change c).findpos_text (p.findable_change hp c)
  cases c with
  | setService service => exact (p.setService_text service).trans hfound
  | setUser user => exact (p.setUser_text user).trans hfound
  | eraseUser => exact p.eraseUser_laid hcareful
  | setHost host => exact (p.setHost_text host).trans hfound
  | setPort port => exact (p.setPort_text port).trans hfound
  | setPath path => exact (p.setPath_text path).trans hfound
  | setQuery query behind => exact p.setQuery_laid query behind hcareful
  | eraseQuery => exact p.eraseQuery_laid

/-- Of the parts, each call changes the value of one. -/
theorem values_change (c : Change) : (p.change c).values = p.values.change c := by
  cases c with
  | setQuery query behind =>
      obtain ⟨_, _, _, _, path, _⟩ := p
      cases path with
      | none => rfl
      | some path => rfl
  | setService _ => rfl
  | setUser _ => rfl
  | eraseUser => rfl
  | setHost _ => rfl
  | setPort _ => rfl
  | setPath _ => rfl
  | eraseQuery => rfl

end Parts

/-- `http://me@host.org:8080` -/
def sampleParts : Parts where
  service := ⟨"http".toUTF8.data.toList, by decide⟩
  user := some ⟨"me".toUTF8.data.toList, by decide⟩
  host := .plain ⟨"host.org".toUTF8.data.toList, by decide⟩
  port := some ⟨"8080".toUTF8.data.toList, by decide⟩
  path := none
  query := none

end ULib.UrlComponents
