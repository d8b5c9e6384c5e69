import ULib.JsonScan
import ULib.TextSearch
import ULib.UrlCoding

/-!
The class `Url` of `url.h` and `url.cpp`: one text and the positions of its
parts, which most of the setters have computed anew. The positions are those of
a text shorter than 2^31 bytes; `query`, which nothing reads, is left out.
-/

namespace ULib.UrlText

open ULib.KeyComparison
open ULib.EscapeCoding
open ULib.JsonValue
open ULib.JsonScan
open ULib.TextSearch
open ULib.UrlCoding

def slash : UInt8 := '/'.toUInt8

def colon : UInt8 := ':'.toUInt8

def question : UInt8 := '?'.toUInt8

def atSign : UInt8 := '@'.toUInt8

def ampersand : UInt8 := '&'.toUInt8

def equals : UInt8 := '='.toUInt8

/-- `UString::replace`; with `n = 0` it is `insert`, with no bytes `erase`. -/
def replace (t : Bytes) (pos n : Nat) (s : Bytes) : Bytes := t.take pos ++ s ++ t.drop (pos + n)

/-- `UString::substr`, from one position to another. -/
def between (t : Bytes) (start stop : Nat) : Bytes := (t.drop start).take (stop - start)

structure Url where
  url : Bytes
  serviceEnd : Int
  userBegin : Nat
  userEnd : Nat
  hostBegin : Nat
  hostEnd : Nat
  pathBegin : Nat
  pathEnd : Nat
  deriving DecidableEq, Repr

/-! ### Where the parts are -/

section Findpos

variable (url : Bytes)

/-- The `/` behind the authority, else its `?`. -/
def findPathBegin (userBegin : Nat) : Nat :=
  match find url slash userBegin with
  | some i => i
  | none => (find url question userBegin).getD url.length

/-- `user_end` and `host_begin`. -/
def findUser (userBegin pathBegin : Nat) : Nat × Nat :=
  match find url atSign userBegin with
  | some userEnd => if pathBegin < userEnd then (userBegin, userBegin) else (userEnd, userEnd + 1)
  | none => (userBegin, userBegin)

/-- The end of a host without brackets. -/
def findHostEnd (hostBegin pathBegin : Nat) : Nat :=
  match find url colon hostBegin with
  | some hostEnd => if pathBegin < hostEnd then pathBegin else hostEnd
  | none => pathBegin

/-- The end of a host in brackets; -1 and one more where there is no closing bracket. -/
def findBracketEnd (bracket hostBegin pathBegin : Nat) : Nat :=
  match find url ']'.toUInt8 bracket with
  | some hostEnd => if hostEnd < pathBegin then hostEnd + 1 else hostBegin
  | none => 0

def findHost (hostBegin pathBegin : Nat) : Nat :=
  match find url '['.toUInt8 hostBegin with
  | some bracket =>
      if bracket < pathBegin then findBracketEnd url bracket hostBegin pathBegin
      else findHostEnd url hostBegin pathBegin
  | none => findHostEnd url hostBegin pathBegin

/-- No `.` stands before the path. -/
def noDot (pathBegin : Nat) : Bool :=
  match find url '.'.toUInt8 0 with
  | some dot => pathBegin < dot
  | none => true

/-- The constructor from a text, with `Url::findpos`. -/
def findpos : Url :=
  match search [slash, slash] url with
  | none => ⟨url, 0, 0, 0, 0, 0, 0, 0⟩
  | some i =>
      let userBegin := i + 2
      let serviceEnd : Int := i - 1
      let pathBegin := findPathBegin url userBegin
      let (serviceEnd, userBegin) : Int × Nat :=
        if serviceEnd = 0 ∧ pathBegin ≠ 0 ∧ peek url (pathBegin - 1) = colon ∧
            noDot url pathBegin = true then
          (pathBegin - 1, pathBegin - 1)
        else (serviceEnd, userBegin)
      let (userEnd, hostBegin) := findUser url userBegin pathBegin
      ⟨url, serviceEnd, userBegin, userEnd, hostBegin, findHost url hostBegin pathBegin, pathBegin,
        (find url question pathBegin).getD url.length⟩

end Findpos

/-! ### Reading the parts -/

/-- `atoi`, of a number without a sign. -/
def atoi (t : Bytes) : Nat := digitsValue (t.takeWhile isDigit)

/-- The services with a port of their own. -/
def defaultPort (service : Bytes) : Option Nat :=
  if service = "http".toUTF8.data.toList then some 80
  else if service = "https".toUTF8.data.toList then some 443
  else if service = "ldap".toUTF8.data.toList then some 389
  else if service = "ldaps".toUTF8.data.toList then some 636
  else if service = "ftp".toUTF8.data.toList then some 21
  else if service = "smtp".toUTF8.data.toList then some 25
  else if service = "pop3".toUTF8.data.toList then some 110
  else none

/-- The loop of `UStringExt::getNameValueFromData` at a pointer into the text, for the
delimiter `&`: names and values in turn. -/
def getNameValueFromData : Nat → Bytes → List Bytes
  | 0, _ => []
  | fuel + 1, t =>
      match t.idxOf? equals with
      | none => []
      | some len =>
          let name := urlDecode t len
          let t := t.drop (len + 1)
          match t.idxOf? ampersand with
          | none => [name, urlDecode t t.length]
          | some len => name :: urlDecode t len :: getNameValueFromData fuel (t.drop (len + 1))

namespace Url

variable (u : Url)

def getService : Bytes := if 0 < u.serviceEnd then u.url.take u.serviceEnd.toNat else []

def getUser : Bytes := if u.userBegin < u.userEnd then between u.url u.userBegin u.userEnd else []

def getHost : Bytes := if u.hostBegin < u.hostEnd then between u.url u.hostBegin u.hostEnd else []

/-- `getPort(buffer, size)` -/
def getPortText : Bytes :=
  if u.hostEnd < u.pathBegin then
    let size := u.pathBegin - u.hostEnd - 1
    if size ≠ 0 ∧ size ≤ 5 then (u.url.drop (u.hostEnd + 1)).take size else []
  else []

/-- `getPort()` -/
def getPort : Int :=
  if u.getPortText ≠ [] then atoi u.getPortText
  else if 0 < u.serviceEnd then
    match defaultPort (u.url.take u.serviceEnd.toNat) with
    | some port => port
    | none => -1
  else -1

def getPath : Bytes :=
  if u.pathBegin < u.pathEnd then urlDecode (u.url.drop u.pathBegin) (u.pathEnd - u.pathBegin)
  else [slash]

/-- The text behind the question mark. -/
def queryText : Bytes := u.url.drop (u.pathEnd + 1)

def getQuery : Bytes :=
  if u.pathEnd + 1 < u.url.length then urlDecode u.queryText u.queryText.length else []

/-- `getQuery(vec)` -/
def getQueryVec : List Bytes :=
  if u.pathEnd + 1 < u.url.length then getNameValueFromData u.url.length u.queryText else []

/-! ### Changing the parts -/

def setService (service : Bytes) : Url :=
  if 0 < u.serviceEnd then findpos (replace u.url 0 u.serviceEnd.toNat service)
  else findpos (service ++ [colon, slash, slash] ++ u.url)

def setUser (user : Bytes) : Url :=
  if u.hostBegin < u.hostEnd then
    if u.userBegin < u.userEnd then
      findpos (replace u.url u.userBegin (u.userEnd - u.userBegin) user)
    else findpos (replace (replace u.url u.userBegin 0 [atSign]) u.userBegin 0 user)
  else u

/-- The second argument of `erase` is a number of bytes. -/
def eraseUser : Url :=
  if u.userBegin < u.userEnd then findpos (replace u.url u.userBegin (u.userEnd + 1) []) else u

def setHost (host : Bytes) : Url :=
  if u.hostBegin < u.hostEnd then
    findpos (replace u.url u.hostBegin (u.hostEnd - u.hostBegin) host)
  else findpos (replace u.url u.hostBegin 0 host)

def setPort (port : Nat) : Url :=
  if port ≤ 0xFFFF ∧ u.hostBegin < u.hostEnd then
    findpos (replace u.url u.hostEnd (u.pathBegin - u.hostEnd) (colon :: printNat port))
  else u

def setPath (path : Bytes) : Url :=
  if u.pathBegin < u.pathEnd then
    let pathBegin := if peek path 0 ≠ slash then u.pathBegin + 1 else u.pathBegin
    findpos (replace u.url pathBegin (u.pathEnd - pathBegin) path)
  else if peek path 0 ≠ slash then
    findpos (replace (replace u.url u.pathBegin 0 [slash]) (u.pathBegin + 1) 0 path)
  else findpos (replace u.url u.pathBegin 0 path)

/-- `none` where there is no host. -/
def prepareForQuery : Option Url :=
  if u.hostBegin < u.hostEnd then
    let u := if u.pathBegin = u.pathEnd then
        { u with url := replace u.url u.pathBegin 0 [slash], pathEnd := u.pathEnd + 1 }
      else u
    some (if u.pathEnd = u.url.length then { u with url := u.url ++ [question] } else u)
  else none

/-- `setQuery(query, n)`: the `n` bytes of the query, and what stands in memory behind them. -/
def setQuery (query behind : Bytes) : Url :=
  match u.prepareForQuery with
  | some u =>
      -- past a question mark, but not with fewer bytes
      let start := if peek (query ++ behind) 0 = question then 1 else 0
      let bytes := ((query ++ behind).drop start).take query.length
      { u with url := replace u.url (u.pathEnd + 1) (u.url.length - u.pathEnd - 1) bytes }
  | none => u

def eraseQuery : Url :=
  if u.pathEnd < u.url.length then { u with url := u.url.take u.pathEnd } else u

def addQuery (entry value : Bytes) : Url :=
  match u.prepareForQuery with
  | some u =>
      let url := if u.url.getLast? ≠ some question then u.url ++ [ampersand] else u.url
      { u with url := url ++ urlEncode [] entry ++ [equals] ++ urlEncode rfc2231 value }
  | none => u

/-- `setQuery(vec)`, of a vector of pairs. -/
def setQueryVec (pairs : List (Bytes × Bytes)) : Url :=
  match u.prepareForQuery with
  | some u => pairs.foldl (fun u p => u.addQuery p.1 p.2) u
  | none => u

end Url

end ULib.UrlText
