import ULib.JsonParser
import ULib.MimeSection
import ULib.NumberText
import ULib.TimeDate

/-!
`UHTTP::checkRequestForHeader` of `utility/uhttp.cpp`: the loop over the header lines of a
request, and what it keeps of them in `u_http_info`. A request is shorter than 2^32 bytes.
-/

namespace ULib.HeaderScan

open ULib.KeyComparison
open ULib.EscapeCoding
open ULib.JsonScan
open ULib.NumberText
open ULib.TextSearch
open ULib.JsonParser
open ULib.MimeMultipart
open ULib.ContainerStream
open ULib.UrlText hiding atoi
open ULib.MimeHeader
open ULib.MimeSection

/-! ### Comparing and reading -/

/-- `memcmp(w, p + i, strlen(w)) == 0` -/
def stands : Bytes → Bytes → Nat → Bool
  | [], _, _ => true
  | c :: w, p, i => peek p i = c && stands w p (i + 1)

/-- `strncasecmp(w, p + i, strlen(w)) == 0` -/
def standsFolded : Bytes → Bytes → Nat → Bool
  | [], _, _ => true
  | c :: w, p, i => tolower (peek p i) = tolower c && standsFolded w p (i + 1)

/-- `strtoul(t, 0, 0)`: a minus is taken in 64 bits. -/
def strtoul0 (t : Bytes) : Nat :=
  let (negative, u) := signed t
  let (base, u) := baseOf u
  let n := valueIn base (digitsIn base u)
  if 2 ^ 64 ≤ n then 2 ^ 64 - 1 else if negative then (2 ^ 64 - n) % 2 ^ 64 else n

/-- `u_months` and `u_months_it` -/
def months : List (Bytes × Bytes) :=
  [("jan", "gen"), ("feb", "feb"), ("mar", "mar"), ("apr", "apr"), ("may", "mag"), ("jun", "giu"),
    ("jul", "lug"), ("aug", "ago"), ("sep", "set"), ("oct", "ott"), ("nov", "nov"),
    ("dec", "dic")].map fun m => (str m.1, str m.2)

def getMonth (buf : Bytes) : Nat :=
  let name := (buf.take 3).map uTolower
  match months.findIdx? fun m => stands m.1 name 0 || stands m.2 name 0 with
  | some i => i + 1
  | none => 0

structure Tm where
  mday : Int
  mon : Int
  year : Int
  hour : Int
  min : Int
  sec : Int

/-- The numbers of a date; the default format has none of the six that `sscanf` has to read. -/
def readTm (s : Bytes) : Option Tm :=
  if peek s 3 = ','.toUInt8 then
    some ⟨atoi (s.drop 5), getMonth (s.drop 8), atoi (s.drop 12), atoi (s.drop 17),
      atoi (s.drop 20), atoi (s.drop 23)⟩
  else if getMonth s ≠ 0 then
    some ⟨atoi (s.drop 4), getMonth s, atoi (s.drop 16), atoi (s.drop 7), atoi (s.drop 10),
      atoi (s.drop 13)⟩
  else none

/-- `UTimeDate::getSecondFromTime(s, true)`; the assertions of `toJulian` keep the year below
8000. -/
def getSecondFromTime (s : Bytes) : Int :=
  match readTm s with
  | none => -1
  | some tm =>
      if tm.year < 1900 ∨ tm.mon < 1 ∨ 12 < tm.mon ∨ tm.mday < 1 ∨ 31 < tm.mday ∨ tm.hour < 0 ∨
          23 < tm.hour ∨ tm.min < 0 ∨ 59 < tm.min ∨ tm.sec < 0 ∨ 61 < tm.sec then -1
      else
        let t := (TimeDate.toJulian tm.mday tm.mon tm.year - 2440588) * 86400
        if t < 0 then 2 ^ 63 - 1 else t + (tm.sec + tm.min * 60 + tm.hour * 3600)

/-! ### What is kept -/

/-- The headers that the scan knows. -/
inductive Header
  | host
  | range
  | accept
  | cookie
  | referer
  | xRealIp
  | userAgent
  | connection
  | contentType
  | contentLength
  | xForwardedFor
  | xHttpXForwardedFor
  | acceptEncoding
  | acceptLanguage
  | ifModifiedSince
  | secWebSocketKey
  | upgrade
  deriving DecidableEq, Repr

/-- A pointer into the request, and the length of what it points at. -/
structure Part where
  start : Nat
  len : Nat
  deriving DecidableEq, Repr

/-- The members of `u_http_info` that the scan reads or writes, and `client_address`: `none` once
it is written past its end. -/
structure HttpInfo where
  startHeader : Nat
  endHeader : Nat
  szHeader : Nat
  host : Part
  hostVlen : Nat
  range : Part
  cookie : Part
  accept : Part
  referer : Part
  ipClient : Part
  websocket : Part
  userAgent : Part
  contentType : Part
  acceptLanguage : Part
  ifModifiedSince : Int
  clength : Nat
  upgrade : Bool
  isWebsocket : Bool
  keepAlive : Bool
  isAcceptGzip : Bool
  isConnectionClose : Bool
  clientAddress : Option Bytes
  deriving DecidableEq, Repr

/-- `u_line_terminator_len`, `bIPv6`, the size of `client_address`, and what lies behind the
constant `"X-Forwarded-For"`, which is read past its end. -/
structure Setting where
  lineTerminatorLen : Nat
  bIPv6 : Bool
  addrStrLen : Nat
  behind : Bytes

/-! ### Finding a header -/

/-- `ctable1`; the table has 128 entries. -/
def ctable1 (c : UInt8) : Option UInt8 :=
  if c < 128 then some (if toUpper c ∈ str "ACHIRSUX" then toUpper c else 0) else none

/-- `ctable2`, the bytes that may stand behind a name. -/
def ctable2 (c : UInt8) : Option Bool :=
  if c < 128 then some (c = 9 || c = blank || c = colon) else none

/-- The distances of the end of a name from its start, in the order of the tests. -/
def distances : List Nat := [4, 5, 6, 7, 9, 10, 12, 14, 15, 17]

/-- The first of the distances with a mark. -/
def findMark (p : Bytes) : List Nat → Option (Option Nat)
  | [] => some none
  | n :: ns => (ctable2 (peek p n)).bind fun mark => if mark then some (some n) else findMark p ns

variable (g : Setting)

/-- The tests of the switch; `p` is what stands behind the first letter. -/
def headerOf (c : UInt8) (p : Bytes) : Option Header :=
  if c = 'C'.toUInt8 then
    if stands (str "ontent-") p 0 then
      if toUpper (peek p 7) = 'T'.toUInt8 ∧ stands (str "ype") p 8 then some .contentType
      else if toUpper (peek p 7) = 'L'.toUInt8 ∧ stands (str "ength") p 8 then some .contentLength
      else none
    else if stands (str "onnection") p 0 then some .connection
    else if stands (str "ookie") p 0 then some .cookie
    else none
  else if c = 'A'.toUInt8 then
    if stands (str "ccept") p 0 then
      if peek p 5 = '-'.toUInt8 then
        if toUpper (peek p 6) = 'E'.toUInt8 ∧ stands (str "ncoding") p 7 then some .acceptEncoding
        else if toUpper (peek p 6) = 'L'.toUInt8 ∧ stands (str "anguage") p 7 then
          some .acceptLanguage
        else none
      else some .accept
    else none
  else if c = 'R'.toUInt8 then
    if stands (str "eferer") p 0 then some .referer
    else if stands (str "ange") p 0 then some .range
    else none
  else if c = 'X'.toUInt8 then
    if peek p 0 = '-'.toUInt8 then
      if toUpper (peek p 1) = 'F'.toUInt8 then
        if toUpper (peek p 11) = 'F'.toUInt8 ∧ stands (str "orwarded-") p 2 ∧
            stands (str "or") p 12 then some .xForwardedFor
        else none
      else if toUpper (peek p 1) = 'R'.toUInt8 then
        if toUpper (peek p 6) = 'I'.toUInt8 ∧ toUpper (peek p 7) = 'P'.toUInt8 ∧
            stands (str "eal-") p 2 then some .xRealIp
        else none
      else if toUpper (peek p 1) = 'H'.toUInt8 then
        let ptrX := str "-Forwarded-For" ++ 0 :: g.behind
        if toUpper (peek p 2) = 'T'.toUInt8 ∧ toUpper (peek p 3) = 'T'.toUInt8 ∧
            toUpper (peek p 4) = 'P'.toUInt8 ∧ toUpper (peek p 18) = 'F'.toUInt8 ∧
            stands ((ptrX.drop 9).take 9) p 9 ∧ stands ((ptrX.drop 19).take 2) p 19 then
          some .xHttpXForwardedFor
        else none
      else none
    else none
  else if c = 'U'.toUInt8 then
    if toUpper (peek p 4) = 'A'.toUInt8 ∧ stands (str "ser-") p 0 ∧ stands (str "gent") p 5 then
      some .userAgent
    else if stands (str "pgrade") p 0 then some .upgrade
    else none
  else if c = 'I'.toUInt8 then
    if toUpper (peek p 2) = 'M'.toUInt8 ∧ toUpper (peek p 11) = 'S'.toUInt8 ∧
        stands (str "f-") p 0 ∧ stands (str "odified-") p 3 ∧ stands (str "ince") p 12 then
      some .ifModifiedSince
    else none
  else if c = 'H'.toUInt8 then
    if stands (str "ost") p 0 then some .host else none
  else if c = 'S'.toUInt8 then
    if toUpper (peek p 3) = 'W'.toUInt8 ∧ toUpper (peek p 6) = 'S'.toUInt8 ∧
        toUpper (peek p 13) = 'K'.toUInt8 ∧ stands (str "ec-") p 0 ∧ stands (str "eb") p 4 ∧
        stands (str "ocket-") p 7 ∧ stands (str "ey") p 14 then
      some .secWebSocketKey
    else none
  else none

/-! ### Taking a value -/

/-- `char_r` -/
def charR : Nat := if g.lineTerminatorLen = 2 then 1 else 0

/-- `pos2 - pos1 - char_r` in 32 bits, less so many bytes. -/
def valueLen (pos1 pos2 less : Nat) : Nat := (pos2 + 2 ^ 32 - pos1 - charR g - less) % 2 ^ 32

/-- The part of the value of which the length is held in 32 bits. -/
def part32 (pos1 pos2 : Nat) : Part := ⟨pos1, valueLen g pos1 pos2 0⟩

/-- The part of the value, from `less` bytes on, of which the length is held in a byte. -/
def part8 (pos1 pos2 less : Nat) : Part := ⟨pos1 + less, valueLen g pos1 pos2 less % 2 ^ 8⟩

/-- Whether the value of `Accept-Encoding` asks for gzip. -/
def acceptsGzip (p : Bytes) : Bool :=
  stands (str "gzip") p 0 && !stands (str ";q=0") (p.drop 4) 0 ||
    (search (str "gzip") ((p.drop 4).take 30)).isSome

/-- `u_isIPAddr`, for a byte of the address. -/
def isAddr (c : UInt8) : Bool :=
  if g.bIPv6 then isXdigit c || c = '.'.toUInt8 || c = colon else isDigit c || c = '.'.toUInt8

variable (ptr : Bytes)

/-- The first of the addresses, as far as it is one. -/
def firstAddress (value : Bytes) : Bytes := value.takeWhile fun c => !(isSpace c || c = ','.toUInt8)

/-- The text of a part. -/
def text (part : Part) : Bytes := (ptr.drop part.start).take part.len

/-- `client_address` after the tests of the headers with `X-`. -/
def clientAddress (info : HttpInfo) : Option Bytes :=
  if info.ipClient.len ≠ 0 then
    let w := firstAddress (text ptr info.ipClient)
    if w.all (isAddr g) then
      info.clientAddress.bind fun _ => if w.length < g.addrStrLen then some w else none
    else info.clientAddress
  else info.clientAddress

/-- What a header does with the value from `pos1` to `pos2`. -/
def note (h : Header) (pos1 pos2 : Nat) (info : HttpInfo) : HttpInfo :=
  let p := ptr.drop pos1
  match h with
  | .contentType => { info with contentType := part8 g pos1 pos2 0 }
  | .contentLength => { info with clength := strtoul0 p % 2 ^ 32 }
  | .connection =>
      let c1 := toUpper (peek p 0)
      if c1 = 'C'.toUInt8 then
        if standsFolded (str "lose") p 1 then { info with isConnectionClose := true } else info
      else if c1 = 'K'.toUInt8 then
        if standsFolded (str "eep-alive") p 1 then { info with keepAlive := true } else info
      else if c1 = 'U'.toUInt8 then
        if standsFolded (str "pgrade") p 1 then { info with upgrade := true } else info
      else info
  | .cookie => { info with cookie := part32 g pos1 pos2 }
  | .acceptEncoding => if acceptsGzip p then { info with isAcceptGzip := true } else info
  | .acceptLanguage => { info with acceptLanguage := part8 g pos1 pos2 0 }
  | .accept => { info with accept := part8 g pos1 pos2 0 }
  | .referer => { info with referer := part32 g pos1 pos2 }
  | .range =>
      if stands (str "bytes=") p 0 then { info with range := part8 g pos1 pos2 6 } else info
  | .xForwardedFor | .xRealIp | .xHttpXForwardedFor =>
      { info with ipClient := part8 g pos1 pos2 0 }
  | .userAgent => { info with userAgent := part32 g pos1 pos2 }
  | .upgrade =>
      { info with
        upgrade := true
        isWebsocket := info.isWebsocket || standsFolded (str "websocket") p 0 }
  | .ifModifiedSince => { info with ifModifiedSince := getSecondFromTime p }
  | .host =>
      let host := part8 g pos1 pos2 0
      let name := (text ptr host).takeWhile (· ≠ colon)
      { info with
        host := host
        hostVlen := if colon ∈ text ptr host then name.length else host.len }
  | .secWebSocketKey => { info with websocket := part8 g pos1 pos2 0 }

/-- The switch: `p` is what stands behind the first letter of the line. -/
def record (c : UInt8) (p : Bytes) (pos1 pos2 : Nat) (info : HttpInfo) : HttpInfo :=
  let info := match headerOf g c p with
    | some h => note g ptr h pos1 pos2 info
    | none => info
  if c = 'X'.toUInt8 ∧ peek p 0 = '-'.toUInt8 then
    { info with clientAddress := clientAddress g ptr info }
  else info

/-! ### The loop -/

/-- A line from `pos1` on, with the position from which the search for its end goes on; the inner
`none` is the result false. -/
def checkLine (stop pos1 : Nat) (info : HttpInfo) : Option (Option (Nat × HttpInfo)) :=
  let p := ptr.drop pos1
  (ctable1 (peek p 0)).bind fun c =>
    if c = 0 then some (some (pos1, info))
    else (findMark p distances).bind fun
      | none => some (some (pos1, info))
      | some n =>
          let pos := skipSpaces ptr (pos1 + n)
          -- the white space is not given back
          if peek ptr pos ≠ colon then some (some (pos - n, info))
          else
            let pos := skipSpaces ptr (pos + 1)
            if stop ≤ pos then some none
            else
              let line := ((ptr.drop pos).take (stop - pos)).takeWhile (· ≠ lineFeed)
              some (some (pos, record g ptr c (p.drop 1) pos (pos + line.length) info))

/-- `while (ptr[pos] != '\n') if (++pos >= end)`, with so many steps to the end. -/
def findFeed : Nat → Nat → Option Nat
  | 0, pos => if peek ptr pos = lineFeed then some pos else none
  | n + 1, pos => if peek ptr pos = lineFeed then some pos else findFeed n (pos + 1)

/-- The test for the blank line at the end `pos2` of a line, where the end of the header is not
known yet. -/
def checkEnd (stop pos2 : Nat) (info : HttpInfo) : Option (Bool × HttpInfo) :=
  if info.endHeader = 0 ∧ (peek ptr (pos2 + 1) = carriageReturn ∨ peek ptr (pos2 + 1) = lineFeed) then
    if peek ptr (pos2 - 1) = carriageReturn ∧ peek ptr (pos2 + 2) = lineFeed then
      some (pos2 + 3 ≤ stop,
        { info with szHeader := pos2 - 1 - info.startHeader, endHeader := pos2 + 3 })
    else if g.lineTerminatorLen = 1 then
      some (true, { info with szHeader := pos2 - info.startHeader, endHeader := pos2 + 2 })
    else some (false, info)
  else none

/-- The loop, for fewer than so many lines. -/
def scanLoop (stop : Nat) (result : Bool) : Nat → Nat → HttpInfo → Option (Bool × HttpInfo)
  | 0, _, _ => none
  | n + 1, pos1, info =>
      if stop ≤ pos1 then some (result, info)
      else (checkLine g ptr stop pos1 info).bind fun
        | none => some (false, info)
        | some (pos1, info) =>
            match findFeed ptr (stop - 1 - pos1) pos1 with
            | none => some (false, info)
            | some pos2 =>
                match checkEnd g ptr stop pos2 info with
                | some answer => some answer
                | none => scanLoop stop result n (pos2 + 1) info

/-- The first `size` bytes from `ptr` on are the request; `none` is undefined. -/
def checkRequestForHeader (size : Nat) (info : HttpInfo) : Option (Bool × HttpInfo) :=
  if info.endHeader ≠ 0 then
    let stop := info.endHeader - g.lineTerminatorLen
    scanLoop g ptr stop true (stop + 1) info.startHeader info
  else scanLoop g ptr size false (size + 1) info.startHeader info

end ULib.HeaderScan
