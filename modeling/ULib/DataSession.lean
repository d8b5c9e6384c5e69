import ULib.ContainerStream
import ULib.NumberText

/-!
`UDataSession`, and the session functions of `utility/uhttp.cpp` for requests that carry one
cookie with a valid key: `checkDataSession`, `getDataSession` and `putDataSession`, with the
sessions in a hash map of the one process, or as text in a database of all of them.
-/

namespace ULib.DataSession

open ULib.KeyComparison
open ULib.EscapeCoding
open ULib.JsonValue
open ULib.JsonScan
open ULib.NumberText
open ULib.HashMap
open ULib.ContainerStream

/-! ### UDataSession -/

structure UDataSession where
  vec : Option (List Bytes)
  creation : Int
  lastAccess : Int
  deriving DecidableEq, Repr

namespace UDataSession

def clear (d : UDataSession) : UDataSession := { d with vec := none }

/-- `none` is an index past the end. -/
def getValue (d : UDataSession) (index : Nat) : Option (Option Bytes) :=
  match d.vec with
  | some v => (v[index]?).map some
  | none => some none

def putValue (d : UDataSession) (index : Nat) (value : Bytes) : UDataSession :=
  let v := d.vec.getD []
  { d with vec := some (if index < v.length then v.set index value else v ++ [value]) }

/-- The strings were made by `create`: before them stands the last byte of an address. -/
def toStream (d : UDataSession) : Bytes :=
  blank :: printInt d.creation ++ blank :: match d.vec with
    | some v => writeVector (v.map (⟨0, ·⟩)) ++ [blank]
    | none => []

/-- `toString`, in its buffer -/
def toString (d : UDataSession) : Bytes := d.toStream.take (64 * 1024)

/-- `operator>>` of a `long`, with what is behind the number. -/
def readLong (t : Bytes) : Int × Bytes :=
  let (negative, u) := signed t
  let digits := u.takeWhile isDigit
  (clampLong negative (digitsValue digits), u.drop digits.length)

def fromString (d : UDataSession) (now : Int) (data : Bytes) : UDataSession :=
  let (creation, t) := readLong data
  let t := t.drop 1
  { vec := if peek t 0 = '('.toUInt8 then some (readVector t).1 else d.vec
    creation := creation
    lastAccess := now }

def fromDataSession (d : UDataSession) (now : Int) (data : UDataSession) : UDataSession :=
  { d with vec := data.vec, creation := data.creation, lastAccess := now }

def toDataSession (d : UDataSession) : UDataSession := { d with lastAccess := d.creation }

end UDataSession

/-! ### The server -/

/-- `db_session`: without preforked children a `UHashMap<UDataSession*>`, with them an `URDB`,
as a finite map. -/
inductive Db
  | hashMap (map : UHashMap UDataSession)
  | database (map : Bytes → Option Bytes)

/-- What a process has of its own: `keyID`, and the working copy `data_session`. -/
structure Process where
  keyID : Bytes
  dataSession : UDataSession
  deriving DecidableEq, Repr

structure Server where
  db : Db
  processes : Nat → Process
  /-- The process that serves the request, and `u_now->tv_sec`. -/
  current : Nat
  now : Int

namespace Server

def process (s : Server) : Process := s.processes s.current

def setProcess (s : Server) (p : Process) : Server :=
  { s with processes := Function.update s.processes s.current p }

/-- The working copy with what the database has for the key; `none` is a map that is broken. -/
def load (s : Server) (token : Bytes) : Option (UDataSession × Server) :=
  let d := s.process.dataSession
  match s.db with
  | .hashMap map =>
      (at' map token).map fun (data, map) =>
        (data.elim d fun data => d.fromDataSession s.now data, { s with db := .hashMap map })
  | .database map => some ((map token).elim d fun data => d.fromString s.now data, s)

def remove (s : Server) (token : Bytes) : Option Server :=
  match s.db with
  | .hashMap map => (erase map token).map fun r => { s with db := .hashMap r.2 }
  | .database map => some { s with db := .database (Function.update map token none) }

/-- The working copy is stored: in the hash map where it has no entry. -/
def store (s : Server) (d : UDataSession) : Option Server :=
  match s.db with
  | .hashMap map =>
      (at' map s.process.keyID).bind fun (data, map) =>
        match data with
        | some _ => some { s with db := .hashMap map }
        | none =>
            (insertAfterFind map s.process.keyID d.toDataSession).map fun map =>
              { s with db := .hashMap map }
  | .database map =>
      some { s with db := .database (Function.update map s.process.keyID (some d.toString)) }

/-- `U_ONE_DAY_IN_SECOND` -/
def oneDay : Int := 24 * 60 * 60

/-- `checkDataSession` for a key that was checked, when `keyID` is empty. -/
def checkDataSession (token : Bytes) (expire : Int) (s : Server) : Option Server := do
  let (d, s) ← s.load token
  if expire = 0 ∧ oneDay < d.lastAccess - d.creation then
    (s.setProcess { s.process with dataSession := d.clear }).remove token
  else some (s.setProcess ⟨token, d⟩)

def getDataSession (token : Bytes) (expire : Int) (index : Nat) (s : Server) :
    Option (Option Bytes × Server) := do
  let s ←
    if s.process.keyID ≠ [] then some s
    else
      checkDataSession token expire
        (s.setProcess { s.process with dataSession := s.process.dataSession.clear })
  if s.process.keyID ≠ [] then
    let value ← s.process.dataSession.getValue index
    some (value, s)
  else some (none, s)

/-- Without a key nothing may be put. -/
def putDataSession (index : Nat) (value : Bytes) (s : Server) : Option Server :=
  if s.process.keyID = [] then none
  else
    let d := s.process.dataSession
    let d := if value.length ≠ 0 then d.putValue index value else d
    (s.setProcess { s.process with dataSession := d }).store d

/-- A request is at its end, and the next is served, by whatever process there is. -/
def nextRequest (process : Nat) (now : Int) (s : Server) : Server :=
  let s := s.setProcess { s.process with keyID := [] }
  match s.db with
  | .hashMap _ => { s with now := now }
  | .database _ => { s with current := process, now := now }

end Server

inductive Call
  | request (process : Nat) (now : Int)
  | get (index : Nat)
  | put (index : Nat) (value : Bytes)
  deriving DecidableEq, Repr

/-- What `get` gives, and nothing otherwise. -/
def step (token : Bytes) (expire : Int) (s : Server) : Call → Option (Option Bytes × Server)
  | .request process now => some (none, s.nextRequest process now)
  | .get index => s.getDataSession token expire index
  | .put index value => (s.putDataSession index value).map fun s => (none, s)

/-- A server at its start -/
def started (db : Db) (now : Int) : Server where
  db := db
  processes := fun _ => ⟨[], ⟨none, now, now⟩⟩
  current := 0
  now := now

/-! ### What a request may do -/

namespace Server

/-- How old the session is for the request that reads it: where there is none, what is left of
another in the working copy. -/
def age (token : Bytes) (s : Server) : Int :=
  let d := s.process.dataSession
  match s.db with
  | .hashMap map =>
      match at' map token with
      | some (some data, _) => s.now - data.creation
      | _ => d.lastAccess - d.creation
  | .database map =>
      match map token with
      | some data => s.now - (UDataSession.readLong data).1
      | none => d.lastAccess - d.creation

/-- In the hash map there is no entry, or one that has the values. -/
def Keeps (s : Server) (vec : Option (List Bytes)) : Prop :=
  match s.db with
  | .hashMap map =>
      match at' map s.process.keyID with
      | some (some data, _) => data.vec = vec
      | _ => True
  | .database _ => True

instance (s : Server) (vec : Option (List Bytes)) : Decidable (s.Keeps vec) :=
  match h : s.db with
  | .hashMap map =>
      match h' : at' map s.process.keyID with
      | some (some data, _) => decidable_of_iff (data.vec = vec) (by simp [Keeps, h, h'])
      | some (none, _) => isTrue (by simp [Keeps, h, h'])
      | none => isTrue (by simp [Keeps, h, h'])
  | .database _ => isTrue (by simp [Keeps, h])

/-- A session is not too old, its text fits into the buffer, and nothing is put that is not kept. -/
def Ok (token : Bytes) (expire : Int) (s : Server) : Call → Prop
  | .request _ _ => True
  | .get _ => s.process.keyID ≠ [] ∨ expire ≠ 0 ∨ s.age token ≤ oneDay
  | .put index value =>
      let d := s.process.dataSession.putValue index value
      d.toStream.length ≤ 64 * 1024 ∧ s.Keeps d.vec

instance (token : Bytes) (expire : Int) (s : Server) : (i : Call) → Decidable (s.Ok token expire i)
  | .request _ _ => isTrue trivial
  | .get _ => inferInstanceAs (Decidable (_ ∨ _))
  | .put _ _ => inferInstanceAs (Decidable (_ ∧ _))

end Server

/-! ### What a session is for -/

/-- The values of the session, and whether a value was asked for in the request. -/
structure Session where
  values : List Bytes
  opened : Bool
  deriving DecidableEq, Repr

def Session.next (a : Session) : Call → Session
  | .request _ _ => { a with opened := false }
  | .get _ => { a with opened := true }
  | .put index value =>
      { a with values :=
          if index < a.values.length then a.values.set index value else a.values ++ [value] }

def Session.answer (a : Session) : Call → Option Bytes
  | .get index => a.values[index]?
  | _ => none

/-- The indices have no gaps, and the values are words; the first call of a request is a `get`. -/
def Session.Permits (a : Session) : Call → Prop
  | .request _ _ => True
  | .get index => a.values = [] ∨ index < a.values.length
  | .put index value =>
      a.opened ∧ index ≤ a.values.length ∧ value ≠ [] ∧ ∀ c ∈ value, isAlnum c

instance (a : Session) : (i : Call) → Decidable (a.Permits i)
  | .request _ _ => isTrue trivial
  | .get _ => inferInstanceAs (Decidable (_ ∨ _))
  | .put _ _ => inferInstanceAs (Decidable (_ ∧ _))

end ULib.DataSession
