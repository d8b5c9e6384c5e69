import ULib.ContainerRoundTrip
import ULib.DataSession
import ULib.HashMapRefinement

/-!
The requests of a session. With the database each reads what was written last; with the hash map
they do as long as nothing is put that the entry of the session does not have.
-/

namespace ULib.SessionStore

open ULib.KeyComparison
open ULib.EscapeCoding
open ULib.JsonValue
open ULib.JsonScan
open ULib.NumberText
open ULib.HashMap
open ULib.HashMapOperations
open ULib.HashMapRefinement hiding step
open ULib.ContainerStream
open ULib.ContainerRoundTrip
open ULib.DataSession
open ULib.DataSession.UDataSession
open ULib.DataSession.Server
open ULib.Runs

/-! ### The text of a session -/

def Word (t : Bytes) : Prop := t ≠ [] ∧ ∀ c ∈ t, isAlnum c

/-- A time that is not negative -/
def Time (t : Int) : Prop := 0 ≤ t ∧ t < 2 ^ 63

theorem alnum_spec : ∀ c, isAlnum c → asksQuote c = false ∧ isSpace c = false ∧ c ≠ hash ∧
    c ≠ closing := forall_byte (by decide +kernel)

theorem readable_word {t : Bytes} (h : Word t) (before : UInt8) :
    Readable vectorStops ⟨before, t⟩ := by
  have hplain : needQuote t = false := by
    rw [needQuote, Bool.or_eq_false_iff, List.any_eq_false]
    refine ⟨by simpa using h.1, fun c hc => ?_⟩
    simp [(alnum_spec c (h.2 c hc)).1]
  rw [Readable, if_neg (by simp [hplain])]
  refine ⟨fun c hc => (alnum_spec c (h.2 c hc)).2.1, fun c hc hhead => ?_⟩
  obtain ⟨-, -, hhash, hclosing⟩ := alnum_spec c (h.2 c (List.mem_of_head? hhead))
  simp only [vectorStops, List.mem_cons, List.not_mem_nil, or_false] at hc
  rcases hc with hc | hc
  · exact hhash hc
  · exact hclosing hc

theorem readLong_print {t : Int} (ht : Time t) (rest : Bytes) :
    readLong (blank :: (printInt t ++ blank :: rest)) = (t, blank :: rest) := by
  obtain ⟨n, rfl⟩ := Int.eq_ofNat_of_zero_le ht.1
  have hlt : n < 2 ^ 63 := by exact_mod_cast ht.2
  obtain ⟨hne, hdigits, hvalue⟩ := printNat_spec n
  have hprint : printInt (n : Int) = printNat n := by
    rw [printInt, if_neg (by omega), Int.natAbs_natCast]
  have hsigned : signed (blank :: (printNat n ++ blank :: rest)) =
      (false, printNat n ++ blank :: rest) := signed_digits hdigits hne _
  rw [readLong, hprint, hsigned]
  dsimp only
  rw [takeWhile_digits hdigits (by decide), hvalue, List.drop_left, clampLong,
    if_neg Bool.false_ne_true, min_eq_left (by omega)]

/-- A session comes back of its text. -/
theorem fromString_toStream {d : UDataSession} {v : List Bytes} (hvec : d.vec = some v)
    (hwords : ∀ t ∈ v, Word t) (htime : Time d.creation) (w : UDataSession) (now : Int) :
    w.fromString now d.toStream = ⟨some v, d.creation, now⟩ := by
  have hreadable : ∀ s ∈ v.map (⟨0, ·⟩), Readable vectorStops s := by
    intro s hs
    obtain ⟨t, ht, rfl⟩ := List.mem_map.mp hs
    exact readable_word (hwords t ht) 0
  have htexts : (v.map (⟨0, ·⟩)).map Stored.text = v := by
    rw [List.map_map]
    exact List.map_id v
  have hpeek : ∀ rest, peek (writeVector (v.map (⟨0, ·⟩)) ++ rest) 0 = '('.toUInt8 := fun _ => rfl
  rw [fromString, toStream, hvec, List.cons_append, readLong_print htime]
  dsimp only
  rw [List.drop_one, List.tail_cons, hpeek, if_pos rfl, readVector_readable hreadable, htexts]

/-! ### The sessions of the server -/

section Server

variable {token : Bytes} {expire : Int} {s : Server} {a : Session} {values : List Bytes}

/-- Without values there is no vector. -/
def vec (values : List Bytes) : Option (List Bytes) := if values = [] then none else some values

/-- What is stored for a session. -/
structure Entry (values : List Bytes) (d : UDataSession) : Prop where
  vec : d.vec = some values
  nonempty : values ≠ []
  time : Time d.creation

/-- The session is stored, or has no values; the hash map has nothing else. -/
def Stored (token : Bytes) (values : List Bytes) : Db → Prop
  | .hashMap map =>
      ∃ m, HashMapRefinement.Keeps map m ∧ (∀ key, key ≠ token → m key = none) ∧
        ((m token = none ∧ values = []) ∨ ∃ d, m token = some d ∧ Entry values d)
  | .database map =>
      (map token = none ∧ values = []) ∨ ∃ d, map token = some d.toStream ∧ Entry values d

theorem Entry.vec_eq {d : UDataSession} (h : Entry values d) : d.vec = SessionStore.vec values := by
  rw [SessionStore.vec, if_neg h.nonempty, h.vec]

/-- The next request loads the values. -/
theorem load_spec (hstored : Stored token values s.db) (hwords : ∀ v ∈ values, Word v)
    (hclear : s.process.dataSession.vec = none) (htime : Time s.process.dataSession.creation) :
    ∃ d db, s.load token = some (d, { s with db := db }) ∧ Stored token values db ∧
      d.vec = vec values ∧ Time d.creation ∧ d.lastAccess - d.creation = s.age token := by
  have hnone : values = [] → s.process.dataSession.vec = vec values := by
    intro h
    rw [vec, if_pos h, hclear]
  rw [Server.load, Server.age]
  cases hdb : s.db with
  | hashMap map =>
      rw [hdb] at hstored
      obtain ⟨m, hkeeps, hother, hentry⟩ := hstored
      obtain ⟨⟨chains, hrep⟩, -⟩ := id hkeeps
      obtain ⟨map', hat, hsame⟩ := at_spec hrep.shape hrep.holds token
      have hkeeps' := keeps_sameMap hkeeps hsame
      dsimp only
      rw [hat]
      rcases hentry with ⟨hm, hempty⟩ | ⟨d, hm, hd⟩
      · rw [hm]
        exact ⟨_, _, rfl, ⟨m, hkeeps', hother, Or.inl ⟨hm, hempty⟩⟩, hnone hempty, htime, rfl⟩
      · rw [hm]
        exact ⟨_, _, rfl, ⟨m, hkeeps', hother, Or.inr ⟨d, hm, hd⟩⟩, hd.vec_eq, hd.time, rfl⟩
  | database map =>
      rw [hdb] at hstored
      dsimp only
      rcases hstored with ⟨hm, hempty⟩ | ⟨d, hm, hd⟩
      · rw [hm]
        refine ⟨_, .database map, ?_, Or.inl ⟨hm, hempty⟩, hnone hempty, htime, rfl⟩
        rw [← hdb]
        rfl
      · have hread := fromString_toStream hd.vec hwords hd.time s.process.dataSession s.now
        have hlong : (readLong d.toStream).1 = d.creation := congrArg UDataSession.creation hread
        rw [hm]
        dsimp only [Option.elim]
        rw [hread, hlong]
        refine ⟨⟨some values, d.creation, s.now⟩, .database map, ?_, Or.inr ⟨d, hm, hd⟩, ?_,
          hd.time, rfl⟩
        · rw [← hdb]
        · rw [vec, if_neg hd.nonempty]

/-- A lookup that finds nothing leaves the place for the new entry. -/
theorem insertAfterFind_at {map map' : UHashMap UDataSession} {key : Bytes} (d : UDataSession)
    (h : at' map key = some (none, map')) : insertAfterFind map' key d = HashMap.insert map key d := by
  rw [at'] at h
  obtain ⟨map₁, hlookup, h⟩ := Option.bind_eq_some_iff.mp h
  rw [HashMap.insert, hlookup, Option.bind_some]
  split at h
  · cases h
    rfl
  · obtain ⟨e, -, he⟩ := Option.map_eq_some_iff.mp h
    cases he

/-- The values that are put are stored. -/
theorem store_spec {values' : List Bytes} {d : UDataSession} (hkey : s.process.keyID = token)
    (hstored : Stored token values s.db) (hd : Entry values' d)
    (hfits : d.toStream.length ≤ 64 * 1024)
    (hkeeps : s.Keeps d.vec) :
    ∃ db, s.store d = some { s with db := db } ∧ Stored token values' db := by
  rw [Server.store]
  rw [Server.Keeps] at hkeeps
  cases hdb : s.db with
  | hashMap map =>
      rw [hdb] at hstored hkeeps
      obtain ⟨m, hmap, hother, hentry⟩ := hstored
      obtain ⟨⟨chains, hrep⟩, hcap⟩ := id hmap
      obtain ⟨map', hat, hsame⟩ := at_spec hrep.shape hrep.holds token
      have hmap' := keeps_sameMap hmap hsame
      dsimp only at hkeeps ⊢
      rw [hkey] at hkeeps ⊢
      rw [hat] at hkeeps ⊢
      rcases hentry with ⟨hm, hempty⟩ | ⟨e, hm, he⟩
      · rw [hm] at hat ⊢
        have hnothing : m = fun _ => none := by
          funext key
          by_cases hk : key = token
          · rw [hk, hm]
          · exact hother key hk
        subst hnothing
        obtain ⟨map₁, chains₁, hinsert, hrep₁, hcap₁, -⟩ :=
          insert_spec hrep token d.toDataSession (Or.inr (by rw [length_empty hmap]; decide))
        refine ⟨.hashMap map₁, ?_, ?_⟩
        · dsimp only [Option.bind_some]
          rw [insertAfterFind_at _ hat, hinsert]
          rfl
        · refine ⟨_, ⟨⟨chains₁, hrep₁⟩, hcap₁ ▸ hcap⟩, fun key hk => Function.update_of_ne hk _ _,
            Or.inr ⟨d.toDataSession, Function.update_self _ _ _, hd.vec, hd.nonempty, hd.time⟩⟩
      · rw [hm] at hkeeps ⊢
        refine ⟨.hashMap map', rfl, m, hmap', hother, Or.inr ⟨e, hm, ?_, hd.nonempty, he.time⟩⟩
        exact hkeeps.trans hd.vec
  | database map =>
      refine ⟨_, rfl, Or.inr ⟨d, ?_, hd⟩⟩
      rw [hkey, Function.update_self, UDataSession.toString, List.take_of_length_le hfits]

/-! ### Runs -/

/-- The invariant of the runs. -/
structure Invariant (token : Bytes) (s : Server) (a : Session) : Prop where
  key : s.process.keyID = if a.opened then token else []
  idle : ∀ i, i ≠ s.current → (s.processes i).keyID = []
  time : ∀ i, Time (s.processes i).dataSession.creation
  words : ∀ v ∈ a.values, Word v
  stored : Stored token a.values s.db
  working : a.opened → s.process.dataSession.vec = vec a.values

theorem process_setProcess (p : Process) : (s.setProcess p).process = p :=
  Function.update_self _ _ _

theorem processes_setProcess (p : Process) {i : Nat} (h : i ≠ s.current) :
    (s.setProcess p).processes i = s.processes i := Function.update_of_ne h _ _

/-- A process changes its own copy, and the database. -/
theorem invariant_setProcess {b : Session} {p : Process} {db : Db} (h : Invariant token s a)
    (hkey : p.keyID = if b.opened then token else []) (htime : Time p.dataSession.creation)
    (hwords : ∀ v ∈ b.values, Word v) (hstored : Stored token b.values db)
    (hworking : b.opened → p.dataSession.vec = vec b.values) :
    Invariant token { s.setProcess p with db := db } b := by
  have hprocess : ({ s.setProcess p with db := db } : Server).process = p :=
      Function.update_self _ _ _
  have hothers : ∀ i, i ≠ s.current →
      ({ s.setProcess p with db := db } : Server).processes i = s.processes i :=
    fun i hi => processes_setProcess p hi
  refine ⟨by rw [hprocess, hkey], fun i hi => ?_, fun i => ?_, hwords, hstored, ?_⟩
  · rw [hothers i hi]
    exact h.idle i hi
  · by_cases hi : i = s.current
    · subst hi
      change Time ({ s.setProcess p with db := db } : Server).process.dataSession.creation
      rw [hprocess]
      exact htime
    · rw [hothers i hi]
      exact h.time i
  · rw [hprocess]
    exact hworking

theorem getValue_vec {d : UDataSession} {index : Nat} (hd : d.vec = vec a.values)
    (hindex : a.values = [] ∨ index < a.values.length) :
    d.getValue index = some a.values[index]? := by
  rw [UDataSession.getValue, hd, vec]
  by_cases hempty : a.values = []
  · rw [if_pos hempty, hempty]
    rfl
  · rw [if_neg hempty]
    have hlt := hindex.resolve_left hempty
    dsimp only
    rw [List.getElem?_eq_getElem hlt]
    rfl

theorem get_invariant (htoken : token ≠ []) (h : Invariant token s a) {index : Nat}
    (hindex : a.values = [] ∨ index < a.values.length) (hok : s.Ok token expire (.get index)) :
    ∃ s', s.getDataSession token expire index = some (a.values[index]?, s') ∧
      Invariant token s' { a with opened := true } := by
  cases hopened : a.opened with
  | true =>
      have hkey : s.process.keyID = token := by rw [h.key, hopened, if_pos rfl]
      have hne : s.process.keyID ≠ [] := hkey ▸ htoken
      have hsame : { a with opened := true } = a := by
        rw [← hopened]
      refine ⟨s, ?_, hsame ▸ h⟩
      rw [Server.getDataSession, if_pos hne]
      simp only [Option.bind_eq_bind, Option.bind_some]
      rw [if_pos hne, getValue_vec (h.working hopened) hindex]
      rfl
  | false =>
      have hkey : s.process.keyID = [] := by
        rw [h.key, hopened]
        rfl
      let cleared : Process := { s.process with dataSession := s.process.dataSession.clear }
      have hprocess : (s.setProcess cleared).process = cleared := process_setProcess cleared
      obtain ⟨d, db, hload, hstored, hvec, htime, hage⟩ := @load_spec token (s.setProcess cleared)
        a.values         h.stored h.words (by rw [hprocess]; rfl) (by rw [hprocess]; exact h.time s.current)
      have hsame : (s.setProcess cleared).age token = s.age token := by
        rw [Server.age, Server.age, hprocess]
        rfl
      have hyoung : ¬ (expire = 0 ∧ oneDay < d.lastAccess - d.creation) := by
        rintro ⟨hexpire, hold⟩
        rw [hage, hsame] at hold
        rcases hok with hne | hne | hyoung
        · exact hne hkey
        · exact hne hexpire
        · omega
      have hset : ({ s.setProcess cleared with db := db } : Server).setProcess ⟨token, d⟩ =
          { s.setProcess ⟨token, d⟩ with db := db } := by
        simp only [Server.setProcess, Function.update_idem]
      have hcheck : checkDataSession token expire (s.setProcess cleared) =
          some { s.setProcess ⟨token, d⟩ with db := db } := by
        rw [checkDataSession, hload]
        simp only [Option.bind_eq_bind, Option.bind_some]
        rw [if_neg hyoung, hset]
      have hnew : ({ s.setProcess ⟨token, d⟩ with db := db } : Server).process = ⟨token, d⟩ :=
        Function.update_self _ _ _
      refine ⟨{ s.setProcess ⟨token, d⟩ with db := db }, ?_, ?_⟩
      · rw [Server.getDataSession, if_neg (by rw [hkey]; exact fun h => h rfl)]
        change (do
          let s ← checkDataSession token expire (s.setProcess cleared)
          _) = _
        rw [hcheck]
        simp only [Option.bind_eq_bind, Option.bind_some]
        rw [hnew, if_pos htoken, getValue_vec hvec hindex]
        rfl
      · exact invariant_setProcess h rfl htime h.words hstored fun _ => hvec

theorem put_invariant (htoken : token ≠ []) (h : Invariant token s a) {index : Nat} {value : Bytes}
    (hpermits : a.Permits (.put index value)) (hok : s.Ok token expire (.put index value)) :
    ∃ s', s.putDataSession index value = some s' ∧
      Invariant token s' (a.next (.put index value)) := by
  obtain ⟨hopened, hindex, hne, hword⟩ := hpermits
  obtain ⟨hfits, hkeeps⟩ := hok
  have hkey : s.process.keyID = token := by rw [h.key, hopened, if_pos rfl]
  have hlength : value.length ≠ 0 := fun h => hne (List.length_eq_zero_iff.mp h)
  have hvalues : s.process.dataSession.vec.getD [] = a.values := by
    rw [h.working hopened, vec]
    split
    · next hempty => exact hempty.symm
    · rfl
  let b := a.next (.put index value)
  have hb : b.values = if index < a.values.length then a.values.set index value
      else a.values ++ [value] := rfl
  have hvec : (s.process.dataSession.putValue index value).vec = some b.values := by
    rw [UDataSession.putValue, hvalues]
    rfl
  have hnonempty : b.values ≠ [] := by
    rw [hb]
    split
    · next hlt => exact List.ne_nil_of_length_pos (by rw [List.length_set]; omega)
    · simp
  have hwords : ∀ v ∈ b.values, Word v := by
    intro v hv
    rw [hb] at hv
    split at hv
    · rcases List.mem_or_eq_of_mem_set hv with hv | rfl
      · exact h.words v hv
      · exact ⟨hne, hword⟩
    · rcases List.mem_append.mp hv with hv | hv
      · exact h.words v hv
      · rw [List.mem_singleton.mp hv]
        exact ⟨hne, hword⟩
  let p : Process := { s.process with dataSession := s.process.dataSession.putValue index value }
  have hprocess : (s.setProcess p).process = p := process_setProcess p
  have hentry : Entry b.values (s.process.dataSession.putValue index value) :=
    ⟨hvec, hnonempty, h.time s.current⟩
  obtain ⟨db, hstore, hstored⟩ := @store_spec token (s.setProcess p) a.values b.values
    (s.process.dataSession.putValue index value) (by rw [hprocess]; exact hkey) h.stored hentry hfits
    (by rw [Server.Keeps, hprocess]; exact hkeeps)
  refine ⟨{ s.setProcess p with db := db }, ?_, ?_⟩
  · rw [Server.putDataSession, if_neg (by rw [hkey]; exact htoken)]
    dsimp only
    rw [if_pos hlength]
    exact hstore
  · refine invariant_setProcess h ?_ hentry.time hwords hstored fun _ => ?_
    · show s.process.keyID = if a.opened then token else []
      exact h.key
    · rw [vec, if_neg hnonempty]
      exact hvec

theorem request_invariant (h : Invariant token s a) (process : Nat) (now : Int) :
    Invariant token (s.nextRequest process now) (a.next (.request process now)) := by
  let p : Process := { s.process with keyID := [] }
  have hkey : ∀ i, ((s.setProcess p).processes i).keyID = [] := by
    intro i
    by_cases hi : i = s.current
    · subst hi
      exact congrArg Process.keyID (process_setProcess p)
    · rw [processes_setProcess p hi]
      exact h.idle i hi
  have htime : ∀ i, Time ((s.setProcess p).processes i).dataSession.creation := by
    intro i
    by_cases hi : i = s.current
    · subst hi
      change Time (s.setProcess p).process.dataSession.creation
      rw [process_setProcess]
      exact h.time s.current
    · rw [processes_setProcess p hi]
      exact h.time i
  have hstored := h.stored
  rw [Server.nextRequest]
  change Invariant token (match s.db with | .hashMap _ => _ | .database _ => _) _
  cases hdb : s.db with
  | hashMap map =>
      exact ⟨hkey _, fun i _ => hkey i, htime, h.words, hstored, nofun⟩
  | database map =>
      exact ⟨hkey _, fun i _ => hkey i, htime, h.words, hstored, nofun⟩

theorem step_invariant (htoken : token ≠ []) (h : Invariant token s a) (i : Call)
    (hpermits : a.Permits i) (hok : s.Ok token expire i) :
    ∃ r s', step token expire s i = some (r, s') ∧ r = a.answer i ∧
      Invariant token s' (a.next i) := by
  cases i with
  | request process now => exact ⟨_, _, rfl, rfl, request_invariant h process now⟩
  | get index =>
      obtain ⟨s', hget, hinv⟩ := get_invariant htoken h hpermits hok
      exact ⟨_, s', hget, rfl, hinv⟩
  | put index value =>
      obtain ⟨s', hput, hinv⟩ := put_invariant htoken h hpermits hok
      exact ⟨none, s', by rw [step, hput]; rfl, rfl, hinv⟩

theorem started_invariant {db : Db} {now : Int} (hdb : Stored token [] db) (hnow : Time now) :
    Invariant token (started db now) ⟨[], false⟩ where
  key := rfl
  idle := fun _ _ => rfl
  time := fun _ => hnow
  words := fun _ hv => absurd hv List.not_mem_nil
  stored := hdb
  working := nofun

/-- The answers of the session, with its values in the database after every call. -/
def Answers (token : Bytes) (expire : Int) (s : Server) (calls : List Call) : Prop :=
  Follows (step token expire) (fun a i r => r = a.answer i) Session.next
    (fun s a => Stored token a.values s.db) s ⟨[], false⟩ calls

theorem answers_of_ok (htoken : token ≠ []) {db : Db} {now : Int} (hdb : Stored token [] db)
    (hnow : Time now) {calls : List Call}
    (hcalls : CallsMeet Session.next Session.Permits ⟨[], false⟩ calls)
    (hok : StepsMeet (step token expire) (Server.Ok token expire) (started db now) calls) :
    Answers token expire (started db now) calls :=
  follows_of_simulation_within (I := Invariant token) (fun _ _ h => h.stored)
    (fun _ _ i h hpermits hok => step_invariant htoken h i hpermits hok) calls
    (started_invariant hdb hnow) hcalls hok

end Server

section Modes

variable {token : Bytes} {expire now : Int} {n : Nat} {calls : List Call}

/-- The server of one process, and one with children. -/
def single (n : Nat) (now : Int) : Server := started (.hashMap (allocated n)) now

def preforked (now : Int) : Server := started (.database fun _ => none) now

/-- Along every run whose steps are as they should be each request reads what was written last, and
reads the same in both modes. -/
theorem sessions_answer (htoken : token ≠ []) (hn : 0 < mallocNum n) (hnow : Time now)
    (hcalls : CallsMeet Session.next Session.Permits ⟨[], false⟩ calls) :
    (StepsMeet (step token expire) (Server.Ok token expire) (single n now) calls →
      Answers token expire (single n now) calls) ∧
    (StepsMeet (step token expire) (Server.Ok token expire) (preforked now) calls →
      Answers token expire (preforked now) calls) ∧
    (StepsMeet (step token expire) (Server.Ok token expire) (single n now) calls →
      StepsMeet (step token expire) (Server.Ok token expire) (preforked now) calls →
        replies (step token expire) (single n now) calls =
          replies (step token expire) (preforked now) calls) := by
  have hempty : Stored token [] (.hashMap (allocated n)) :=
    ⟨fun _ => none, keeps_allocated hn, fun _ _ => rfl, Or.inl ⟨rfl, rfl⟩⟩
  have hnothing : Stored token [] (.database fun _ => none) := Or.inl ⟨rfl, rfl⟩
  have hsingle := @answers_of_ok token expire htoken _ now hempty hnow calls hcalls
  have hpreforked := @answers_of_ok token expire htoken _ now hnothing hnow calls hcalls
  exact ⟨hsingle, hpreforked, fun h h' => replies_eq_of_follows (hsingle h) (hpreforked h')⟩

end Modes

/-- `k` -/
def sampleToken : Bytes := ['k'.toUInt8]

/-- A value is put and read, and in a later request put once more. -/
def sampleCalls (value : UInt8) : List Call :=
  [.get 0, .put 0 ['a'.toUInt8], .request 1 10, .get 0, .put 0 [value], .request 2 20, .get 0]

theorem sessions_answer_sample :
    Answers sampleToken 0 (preforked 0) (sampleCalls 'a'.toUInt8) ∧
      Answers sampleToken 0 (single 7 0) (sampleCalls 'a'.toUInt8) ∧
      replies (step sampleToken 0) (single 7 0) (sampleCalls 'a'.toUInt8) =
        replies (step sampleToken 0) (preforked 0) (sampleCalls 'a'.toUInt8) := by
  obtain ⟨hsingle, hpreforked, hsame⟩ := @sessions_answer sampleToken 0 0 7
    (sampleCalls 'a'.toUInt8) (by decide) (by decide) ⟨by decide, by decide⟩ (by decide)
  have hok : StepsMeet (step sampleToken 0) (Server.Ok sampleToken 0) (single 7 0)
      (sampleCalls 'a'.toUInt8) := by decide
  have hok' : StepsMeet (step sampleToken 0) (Server.Ok sampleToken 0) (preforked 0)
      (sampleCalls 'a'.toUInt8) := by decide
  exact ⟨hpreforked hok', hsingle hok, hsame hok hok'⟩

/-- The hash map keeps the first value. -/
theorem replies_differ :
    CallsMeet Session.next Session.Permits ⟨[], false⟩ (sampleCalls 'b'.toUInt8) ∧
    (replies (step sampleToken 0) (preforked 0) (sampleCalls 'b'.toUInt8)).map List.getLast? =
      some (some (some ['b'.toUInt8])) ∧
    (replies (step sampleToken 0) (single 7 0) (sampleCalls 'b'.toUInt8)).map List.getLast? =
      some (some (some ['a'.toUInt8])) := by
  refine ⟨by decide, by decide, by decide⟩

end ULib.SessionStore
