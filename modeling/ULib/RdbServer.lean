import ULib.RdbEnumeration
import ULib.RpcRoundTrip

/-!
A database that is served: `URDBClient_Base` of `net/client/client_rdb.cpp`
turns a call into a request, `URDBClientImage::handlerRead` of
`net/server/client_image_rdb.cpp` carries it out and answers with a code, and
the client turns the code back into the result of the call. Whatever the
clients are and however their calls interleave, each gets what it would get
from the database itself, unless one of the strings is empty.
-/

namespace ULib.RdbServer

open ULib.KeyComparison
open ULib.ConstantDatabase
open ULib.ReliableDatabase
open ULib.ReliableDatabase.URDB
open ULib.RpcFraming
open ULib.RpcRoundTrip
open ULib.Runs
open ULib.RdbRefinement (newDatabase granting)
open ULib.RdbEnumeration (printSorted visitKeys)
open ULib.RdbText (print printed printEntry)
open ULib.CdbText (text)
open ULib.JsonValue (UString reserve append space uCapacity)

/-! ### Tokens -/

def find : Bytes := ['F'.toUInt8, 'I'.toUInt8, 'N'.toUInt8, 'D'.toUInt8]

def str : Flag → Bytes
  | .insert => ['S'.toUInt8, 'T'.toUInt8, 'R'.toUInt8, '0'.toUInt8]
  | .replace => ['S'.toUInt8, 'T'.toUInt8, 'R'.toUInt8, '1'.toUInt8]

def remv : Bytes := ['R'.toUInt8, 'E'.toUInt8, 'M'.toUInt8, 'V'.toUInt8]

def sub : Flag → Bytes
  | .insert => ['S'.toUInt8, 'U'.toUInt8, 'B'.toUInt8, '0'.toUInt8]
  | .replace => ['S'.toUInt8, 'U'.toUInt8, 'B'.toUInt8, '1'.toUInt8]

def prt (sorted : Bool) : Bytes :=
  ['P'.toUInt8, 'R'.toUInt8, 'T'.toUInt8, if sorted then '1'.toUInt8 else '0'.toUInt8]

def rorg : Bytes := ['R'.toUInt8, 'O'.toUInt8, 'R'.toUInt8, 'G'.toUInt8]

def btrn : Bytes := ['B'.toUInt8, 'T'.toUInt8, 'R'.toUInt8, 'N'.toUInt8]

def atrn : Bytes := ['A'.toUInt8, 'T'.toUInt8, 'R'.toUInt8, 'N'.toUInt8]

def ctrn : Bytes := ['C'.toUInt8, 'T'.toUInt8, 'R'.toUInt8, 'N'.toUInt8]

/-- `STR_200` to `STR_500`. -/
inductive Status where
  | s200
  | s400
  | s401
  | s402
  | s500
  deriving DecidableEq, Repr

def Status.number : Status → Nat
  | .s200 => 200
  | .s400 => 400
  | .s401 => 401
  | .s402 => 402
  | .s500 => 500

def Status.text (status : Status) : Bytes :=
  JsonValue.printNat status.number ++ [' '.toUInt8]

/-! ### The server -/

/-- The status for a result of `store`; there is none for others. -/
def storeStatus (result : Int) : Option Status :=
  if result = 0 then some .s200 else if result = -1 then some .s401
  else if result = -3 then some .s500 else none

def removeStatus (result : Int) : Option Status :=
  if result = 0 then some .s200 else if result = -1 then some .s400
  else if result = -2 then some .s402 else if result = -3 then some .s500 else none

def substituteStatus (result : Int) : Option Status :=
  if result = 0 then some .s200 else if result = -1 then some .s400
  else if result = -2 then some .s402 else if result = -3 then some .s500
  else if result = -4 then some .s401 else none

/-- The answer without data. -/
def answer (status : Status) (wbuffer : UString) : Option UString :=
  buildTokenInt status.text 0 wbuffer

/-- The flag of `STR0`, `SUB1` and so on. -/
def flagOf (ptr : Bytes) : Flag := if ptr[3]? = some '0'.toUInt8 then .insert else .replace

section

variable (sort : List Bytes → List Bytes)

/-- `print` or `printSorted`. -/
def printText (sorted : Bool) (s : URDB) : Option (Bytes × URDB) :=
  if sorted then
    (printSorted (fun key data pbuffer => pbuffer.bind (printEntry key data)) sort s
      (some (TextBuffer.created ((s.cdb.stSize + s.off) % 2 ^ 32)))).bind fun (pbuffer, s) =>
        pbuffer.map fun x => (x.data, s)
  else print s

/-- What is done with a request that was read; `none` where a string is read
behind the vector, where an answer has no status, or where the database has no
defined outcome. -/
def perform (s : URDB) (ptr : Bytes) (vec : List Bytes) (env : Env) : Option (UString × URDB) :=
  -- `initAfterGenericRead` has cleared the string
  let wbuffer := reserve ⟨[], 0⟩ tokenLn
  if ptr.take 4 = find then do
    let key ← vec[0]?
    let (found, s) ← fetchKey s key
    if found then
      let wbuffer := reserve wbuffer (tokenLn + s.data.dsize)
      let wbuffer ← buildTokenInt Status.s200.text s.data.dsize wbuffer
      some (append wbuffer (s.data.bytes s.mem), s)
    else (answer .s400 wbuffer).map (·, s)
  else if ptr.take 3 = (str .insert).take 3 then do
    let key ← vec[0]?
    let data ← vec[1]?
    let (result, s) ← storeKey s key data (flagOf ptr) env
    let status ← storeStatus result
    (answer status wbuffer).map (·, s)
  else if ptr.take 4 = remv then do
    let key ← vec[0]?
    let (result, s) ← removeKey s key env
    let status ← removeStatus result
    (answer status wbuffer).map (·, s)
  else if ptr.take 3 = (sub .insert).take 3 then do
    let key ← vec[0]?
    let newKey ← vec[1]?
    let data ← vec[2]?
    let (result, s) ← substituteKey s key newKey data (flagOf ptr) env
    let status ← substituteStatus result
    (answer status wbuffer).map (·, s)
  else if ptr.take 3 = (prt false).take 3 then do
    let (tmp, s) ← printText sort (ptr[3]? ≠ some '0'.toUInt8) s
    let wbuffer ← buildTokenInt Status.s200.text (tmp.length % 2 ^ 32) wbuffer
    some (append wbuffer tmp, s)
  else if ptr.take 4 = rorg then do
    let (result, s) ← reorganize s env
    (answer (if result then .s200 else .s500) wbuffer).map (·, s)
  else if ptr.take 4 = btrn then do
    let (result, s) ← beginTransaction s env
    (answer (if result then .s200 else .s500) wbuffer).map (·, s)
  else if ptr.take 4 = atrn then
    (answer .s200 wbuffer).map (·, abortTransaction s)
  else if ptr.take 4 = ctrn then
    (answer .s200 wbuffer).map (·, commitTransaction s)
  else (answer .s500 wbuffer).map (·, s)

/-- A connection on which these bytes come together, and no others. -/
def arriving (bytes : Bytes) : Socket := ⟨if bytes = [] then [] else [.data bytes], true⟩

/-- More rounds than a read can take. -/
def rounds (sock : Socket) : Nat := (pending sock.events).length + 2

/-- `genericRead`: whether something was read, and the buffer. -/
def genericRead (sock : Socket) : Option (Bool × UString × Socket) :=
  readLoop 0 (-1) (rounds sock) ⟨[], uCapacity⟩ [] uCapacity 0 sock

/-- `handlerRead`: the answer, or none where the connection is given up or the
request is still to come. -/
def handlerRead (s : URDB) (sock : Socket) (env : Env) : Option (Option UString × URDB) := do
  let (ok, rbuffer, sock) ← genericRead sock
  if ok = false ∧ (sock.connected = false ∨ rbuffer.data = []) then some (none, s)
  else
    let (size, vec, rbuffer, _) ← readTokenVector (rounds sock) sock none rbuffer
    if size = 0 then some (none, s)
    else (perform sort s rbuffer.data vec env).map fun (w, s) => (some w, s)

end

/-! ### The client -/

inductive Request where
  | find (key : Bytes)
  | store (key data : Bytes) (flag : Flag)
  | remove (key : Bytes)
  | substitute (key newKey data : Bytes) (flag : Flag)
  | callForAllEntry (sorted : Bool)
  | closeReorganize
  | beginTransaction
  | abortTransaction
  | commitTransaction
  deriving DecidableEq, Repr

/-- What a call returns, or hands to its function. -/
inductive Outcome where
  | value (data : Bytes)
  | code (result : Int)
  | ok (result : Bool)
  | pairs (entries : List (Bytes × Option Bytes))
  deriving DecidableEq, Repr

def Request.token : Request → Bytes
  | .find _ => RdbServer.find
  | .store _ _ flag => str flag
  | .remove _ => remv
  | .substitute _ _ _ flag => sub flag
  | .callForAllEntry sorted => prt sorted
  | .closeReorganize => rorg
  | .beginTransaction => btrn
  | .abortTransaction => atrn
  | .commitTransaction => ctrn

/-- What a call pushes onto `rpc_info`. -/
def Request.strings : Request → List Bytes
  | .find key => [key]
  | .store key data _ => [key, data]
  | .remove key => [key]
  | .substitute key newKey data _ => [key, newKey, data]
  | _ => []

/-- The request that `processRequest` sends, in a string of the size that it
counts. -/
def processRequest (c : Request) : Option UString :=
  let size := (tokenLn + (c.strings.map fun x => tokenLn + x.length).sum) % 2 ^ 32
  buildTokenVector c.token c.strings ⟨[], (StringHeap.allocated size).1⟩

/-- `readResponse`: the code and the data, or none where nothing is read, and
the buffer. -/
def readResponse (sock : Socket) (buffer : UString) : Option (Option (Int × Bytes) × UString) := do
  let (t, response) ← readTokenString (rounds sock) sock none { buffer with data := [] } 0 []
  let buffer := if t.value ≠ 0 then { t.buffer with data := t.buffer.data.take tokenNm }
    else t.buffer
  if buffer.data = [] then some (none, buffer)
  else some (some ((RdbText.strtol buffer.data).1, response), buffer)

def storeResult (nResponseCode : Int) : Int :=
  if nResponseCode = 200 then 0 else if nResponseCode = 401 then -1
  else if nResponseCode = 500 then -3 else -5

def removeResult (nResponseCode : Int) : Int :=
  if nResponseCode = 200 then 0 else if nResponseCode = 400 then -1
  else if nResponseCode = 402 then -2 else if nResponseCode = 500 then -3 else -5

def substituteResult (nResponseCode : Int) : Int :=
  if nResponseCode = 200 then 0 else if nResponseCode = 400 then -1
  else if nResponseCode = 402 then -2 else if nResponseCode = 500 then -3
  else if nResponseCode = 401 then -4 else -5

/-- What the client makes of a response, or of none; it has no outcome where
the lines of `callForAllEntry` do not end. -/
def Request.outcome (c : Request) (response : Option (Int × Bytes)) : Option Outcome :=
  match c with
  | .find _ =>
      some (.value (response.elim [] fun (code, data) => if code = 200 then data else []))
  | .store _ _ _ => some (.code (response.elim (-5) fun (code, _) => storeResult code))
  | .remove _ => some (.code (response.elim (-5) fun (code, _) => removeResult code))
  | .substitute _ _ _ _ =>
      some (.code (response.elim (-5) fun (code, _) => substituteResult code))
  | .callForAllEntry _ =>
      (response.elim (some []) fun (_, data) => RdbText.parse data).map Outcome.pairs
  | _ => some (.ok (response.elim false fun (code, _) => decide (code = 200)))

section

variable (sort : List Bytes → List Bytes) {κ : Type} [DecidableEq κ]

/-- A call of the client `k`, on the database and the buffers of the clients.
The request and the answer come in one piece each. -/
def remote (u : URDB × (κ → UString)) (c : κ × Request × Env) :
    Option (Outcome × URDB × (κ → UString)) := do
  let (k, request, env) := c
  let message ← processRequest request
  let (w, s) ← handlerRead sort u.1 (arriving message.data) env
  let (response, buffer) ← w.elim (some (none, u.2 k)) fun w =>
    readResponse (arriving w.data) (u.2 k)
  let outcome ← request.outcome response
  some (outcome, s, Function.update u.2 k buffer)

/-- The entries that `print` or `printSorted` writes. -/
def entries (sorted : Bool) (s : URDB) : Option (List Record) :=
  if sorted then
    (printSorted (fun key data rs => rs ++ [⟨key, data⟩]) sort s []).map Prod.fst
  else printed s

/-- The same call on the database itself. -/
def direct (s : URDB) (c : κ × Request × Env) : Option (Outcome × URDB) :=
  match c.2.1 with
  | .find key =>
      (fetchKey s key).map fun (found, s) => (.value (if found then s.data.bytes s.mem else []), s)
  | .store key data flag =>
      (storeKey s key data flag c.2.2).map fun (result, s) => (.code result, s)
  | .remove key => (removeKey s key c.2.2).map fun (result, s) => (.code result, s)
  | .substitute key newKey data flag =>
      (substituteKey s key newKey data flag c.2.2).map fun (result, s) => (.code result, s)
  | .callForAllEntry sorted => do
      let (_, t) ← printText sort sorted s
      let es ← entries sort sorted s
      some (.pairs (es.map fun r => (r.key, some r.data)), t)
  | .closeReorganize => (reorganize s c.2.2).map fun (result, s) => (.ok result, s)
  | .beginTransaction =>
      (ReliableDatabase.beginTransaction s c.2.2).map fun (result, s) => (.ok result, s)
  | .abortTransaction => some (.ok true, ReliableDatabase.abortTransaction s)
  | .commitTransaction => some (.ok true, ReliableDatabase.commitTransaction s)

/-- The number of bytes that an answer has besides the status. -/
def dataLength (s : URDB) (c : Request) : Nat :=
  match c with
  | .find key =>
      ((fetchKey s key).map fun (found, s) => if found then s.data.dsize else 0).getD 0
  | .callForAllEntry sorted => ((printText sort sorted s).map fun r => r.1.length).getD 0
  | _ => 0

/-- The request and the answer are shorter than 512 MB. -/
def Fits (s : URDB) (c : κ × Request × Env) : Prop :=
  (message c.2.1.token c.2.1.strings).length < 2 ^ 29 ∧
    tokenLn + dataLength sort s c.2.1 < 2 ^ 29

end

/-! ### The request -/

theorem length_token (c : Request) : c.token.length = tokenNm := by
  cases c with
  | store key data flag => cases flag <;> rfl
  | substitute key newKey data flag => cases flag <;> rfl
  | _ => rfl

theorem append_fits {b : UString} {t : Bytes} (h : b.data.length + t.length ≤ b.capacity) :
    append b t = { b with data := b.data ++ t } := by
  unfold append
  split
  · next ht => rw [ht, List.append_nil]
  · dsimp only
    rw [if_neg (not_lt.mpr h)]

theorem buildTokenInt_fits {token : Bytes} (htoken : token.length = tokenNm) (n : Nat) {b : UString}
    (h : b.data.length + tokenLn ≤ b.capacity) :
    buildTokenInt token n b = some { b with data := b.data ++ packet token n } := by
  rw [buildTokenInt, if_pos h, List.take_of_length_le (Nat.le_of_eq htoken), packet,
    List.append_assoc]

theorem foldlM_buildTokenString_fits {vec : List Bytes} {b : UString}
    (hvec : ∀ x ∈ vec, x.length < 2 ^ 32)
    (h : b.data.length + (strings vec).length ≤ b.capacity) :
    vec.foldlM (fun b x => buildTokenString argv x b) b =
      some { b with data := b.data ++ strings vec } := by
  induction vec generalizing b with
  | nil =>
      rw [strings, List.map_nil, List.flatten_nil, List.append_nil]
      rfl
  | cons x vec ih =>
      have hx := hvec x List.mem_cons_self
      rw [strings_cons, List.length_append, List.length_append, length_argv] at h
      have hstep : buildTokenString argv x b =
          some { b with data := b.data ++ (packet argv x.length ++ x) } := by
        rw [buildTokenString, Nat.mod_eq_of_lt hx,
          buildTokenInt_fits rfl x.length (show b.data.length + tokenLn ≤ b.capacity by omega)]
        simp only [Option.bind_eq_bind, Option.bind_some]
        rw [append_fits]
        · rw [List.append_assoc]
        · show (b.data ++ packet argv x.length).length + x.length ≤ b.capacity
          rw [List.length_append, length_argv]
          omega
      rw [List.foldlM_cons, hstep, Option.bind_eq_bind, Option.bind_some,
        ih (fun y hy => hvec y (List.mem_cons_of_mem x hy)), strings_cons, List.append_assoc]
      show (b.data ++ (packet argv x.length ++ x)).length + (strings vec).length ≤ b.capacity
      rw [List.length_append, List.length_append, length_argv]
      omega

theorem length_strings (vec : List Bytes) :
    (strings vec).length = (vec.map fun x => tokenLn + x.length).sum := by
  induction vec with
  | nil => rfl
  | cons x vec ih =>
      rw [strings_cons, List.length_append, List.length_append, length_argv, ih, List.map_cons,
        List.sum_cons]

theorem le_allocated {n : Nat} (h : n + 4095 < 2 ^ 32) : n ≤ (StringHeap.allocated n).1 := by
  unfold StringHeap.allocated
  split
  · next hsmall =>
    have h4071 : uCapacity = 4071 := rfl
    dsimp only
    split_ifs <;> omega
  · dsimp only
    omega

/-- The string is large enough for the request. -/
theorem processRequest_eq {c : Request} (h : (message c.token c.strings).length + 4095 < 2 ^ 32) :
    ∃ room, processRequest c = some ⟨message c.token c.strings, room⟩ := by
  have hlength : (message c.token c.strings).length =
      tokenLn + (c.strings.map fun x => tokenLn + x.length).sum := by
    rw [message, List.length_append, length_packet (length_token c), length_strings]
  have hcount := length_le_strings c.strings
  rw [length_strings] at hcount
  have h12 : tokenLn = 12 := rfl
  have hroom := le_allocated h
  rw [hlength] at h hroom
  rw [processRequest, Nat.mod_eq_of_lt (by omega), buildTokenVector,
    Nat.mod_eq_of_lt (show c.strings.length < 2 ^ 32 by omega)]
  generalize (StringHeap.allocated (tokenLn + _)).1 = room at hroom ⊢
  have hint := @buildTokenInt_fits _ (length_token c) c.strings.length ⟨[], room⟩
    (show 0 + tokenLn ≤ room by omega)
  refine ⟨room, ?_⟩
  rw [hint]
  simp only [Option.bind_eq_bind, Option.bind_some]
  rw [foldlM_buildTokenString_fits]
  · rw [List.nil_append, message]
  · intro x hx
    have hle := mem_length_le_strings hx
    rw [length_strings] at hle
    omega
  · show ([] ++ packet c.token c.strings.length).length + (strings c.strings).length ≤ room
    rw [List.nil_append, length_packet (length_token c), length_strings]
    exact hroom

/-- The server reads the strings up to the first empty one. -/
theorem readTokenVector_request {fuel : Nat} {c : Request} {room : Nat}
    (h : (message c.token c.strings).length < 2 ^ 32) :
    ∃ size vec, readTokenVector fuel (arriving []) none ⟨message c.token c.strings, room⟩ =
        some (size, vec, ⟨message c.token c.strings, room⟩, arriving []) ∧ size ≠ 0 ∧
      ((∀ x ∈ c.strings, x ≠ []) → vec = c.strings) ∧
      ((¬∀ x ∈ c.strings, x ≠ []) → vec.length < c.strings.length) := by
  have h12 : tokenLn = 12 := rfl
  have hb : (⟨message c.token c.strings, room⟩ : UString).data.length < 2 ^ 32 := h
  have hcount := length_le_strings c.strings
  have hlength : (message c.token c.strings).length = tokenLn + (strings c.strings).length := by
    rw [message, List.length_append, length_packet (length_token c)]
  have hint : readTokenInt fuel (arriving []) none ⟨message c.token c.strings, room⟩ 0 =
      some ⟨c.strings.length, 0 + tokenLn, ⟨message c.token c.strings, room⟩, arriving []⟩ :=
    @readTokenInt_buffered fuel (arriving []) _ [] (strings c.strings) c.token none
      c.strings.length hb (length_token c) (.inl rfl) (by omega) (by rw [List.nil_append, message])
  rw [readTokenVector, hint, Nat.zero_add]
  simp only [Option.bind_eq_bind, Option.bind_some]
  have hpre : (packet c.token c.strings.length).length = tokenLn := length_packet (length_token c) _
  by_cases hall : ∀ x ∈ c.strings, x ≠ []
  · obtain ⟨data', hread⟩ := @readStrings_buffered fuel (arriving []) _
      (packet c.token c.strings.length) [] c.strings hb hall
      (by rw [List.append_nil, message]) 0 [] []
    rw [Nat.add_zero, hpre] at hread
    refine ⟨_, c.strings, hread, ?_, fun _ => rfl, fun hnot => absurd hall hnot⟩
    rw [List.length_append, hpre]
    omega
  · obtain ⟨us, ws, hsplit, hus⟩ := exists_empty hall
    have hwhole : message c.token c.strings = packet c.token c.strings.length ++
        (strings us ++ (packet argv 0 ++ strings ws)) := by
      rw [message, hsplit, strings_append, strings_cons, List.length_nil, List.append_nil]
    obtain ⟨data', hread⟩ := @readStrings_buffered fuel (arriving []) _
      (packet c.token c.strings.length) (packet argv 0 ++ strings ws) us hb hus hwhole
      (ws.length + 1) [] []
    have hlast := @readStrings_empty fuel (arriving []) _
      (packet c.token c.strings.length ++ strings us) (strings ws) ws.length data' ([] ++ us) hb
      (by rw [hwhole, List.append_assoc])
    have hlen : c.strings.length = us.length + (ws.length + 1) := by
      rw [hsplit, List.length_append, List.length_cons]
    rw [hpre, ← hlen, hlast, List.nil_append] at hread
    exact ⟨_, us, hread, by omega, fun hall' => absurd hall' hall, fun _ => by omega⟩

/-! ### What arrives in one piece -/

theorem reserve_data (b : UString) (n : Nat) : (reserve b n).data = b.data := by
  unfold reserve
  split <;> rfl

theorem reserve_room {b : UString} {n : Nat} (hb : b.capacity < 2 ^ 31) (hn : n ≤ 2 ^ 30) :
    n ≤ (reserve b n).capacity ∧ (reserve b n).capacity < 2 ^ 31 := by
  have h4071 : uCapacity = 4071 := rfl
  unfold reserve
  split
  · next h => exact ⟨h, hb⟩
  · simp only [JsonValue.created, JsonValue.howMuchPreallocate]
    split_ifs <;> omega

/-- `recv` with a bound on the time. -/
theorem recv_arriving {n : Nat} {timeoutMS : Int} {bytes : Bytes}
    (h : bytes ≠ [] ∨ 0 ≤ timeoutMS) : recv n timeoutMS (arriving bytes) =
      some (if bytes = [] then .timeout else .bytes (bytes.take n), arriving (bytes.drop n)) := by
  by_cases hbytes : bytes = []
  · have htime := h.resolve_left (not_not.mpr hbytes)
    rw [hbytes, if_pos rfl, List.drop_nil]
    simp only [recv, arriving, recvFrom, if_true, if_neg (not_lt.mpr htime), Option.bind_eq_bind,
      Option.bind_some]
  · rw [if_neg hbytes, recv, arriving, if_neg hbytes]
    simp only [if_true, recvFrom]
    by_cases hn : n < bytes.length
    · have hdrop : bytes.drop n ≠ [] := fun hnil => by
        have := List.drop_eq_nil_iff.mp hnil
        omega
      rw [if_pos hn, arriving, if_neg hdrop]
      rfl
    · rw [if_neg hn, List.take_of_length_le (not_lt.mp hn), List.drop_of_length_le (not_lt.mp hn)]
      rfl

/-- The loop reads all of it. -/
theorem readLoop_arriving {fuel n : Nat} {count timeoutMS : Int} {b : UString} {bytes : Bytes}
    (hfuel : bytes.length + 2 ≤ fuel) (htime : bytes ≠ [] ∨ 0 ≤ timeoutMS ∧ b.data ≠ [])
    (hcount : count ≤ b.data.length + min n bytes.length) (hn : 0 < n)
    (hroom : b.data.length + n ≤ b.capacity) (hb : b.capacity < 2 ^ 31)
    (hsize : b.data.length + bytes.length < 2 ^ 29) :
    ∃ room, readLoop 0 count fuel b b.data n timeoutMS (arriving bytes) =
      some (true, ⟨b.data ++ bytes, room⟩, arriving []) ∧ room < 2 ^ 31 := by
  induction fuel generalizing b bytes n timeoutMS with
  | zero => omega
  | succ fuel ih =>
      rw [readLoop, recv_arriving (htime.imp_right And.left)]
      by_cases hbytes : bytes = []
      · -- nothing more comes after what was read
        have hne := (htime.resolve_left (not_not.mpr hbytes)).2
        have hlength : b.data.length ≠ 0 := fun h => hne (List.length_eq_zero_iff.mp h)
        simp only [hbytes, if_true, Option.bind_eq_bind, Option.bind_some, if_pos hlength,
          List.append_nil, List.drop_nil]
        exact ⟨b.capacity, rfl, hb⟩
      · have hpos : 0 < bytes.length := List.length_pos_iff.mpr hbytes
        have hgot : (bytes.take n).length = min n bytes.length := List.length_take
        have hread : (b.data ++ bytes.take n).length = b.data.length + min n bytes.length := by
          rw [List.length_append, hgot]
        have hfits : ¬ b.capacity < b.data.length + (bytes.take n).length := by omega
        have hall : ¬ ((b.data ++ bytes.take n).length : Int) < count := by
          rw [hread]
          omega
        simp only [if_neg hbytes, Option.bind_eq_bind, Option.bind_some,
          if_neg (show (bytes.take n).length ≠ 0 by omega), if_neg hfits, if_neg hall,
          List.take_zero, List.nil_append, Nat.zero_add]
        by_cases hfull : (bytes.take n).length = n
        · -- the room is used up: the loop makes more and waits for the rest
          rw [if_pos hfull, hread, Nat.mod_eq_of_lt (by omega)]
          set b₁ := reserve { b with data := b.data ++ bytes.take n }
            (b.data.length + min n bytes.length + n) with hb₁
          obtain ⟨hge, hlt⟩ := @reserve_room { b with data := b.data ++ bytes.take n }
            (b.data.length + min n bytes.length + n) hb (by omega)
          have hdata : b₁.data = b.data ++ bytes.take n := reserve_data _ _
          have hlength : b₁.data.length = b.data.length + min n bytes.length := by
            rw [hdata, hread]
          rw [← hb₁] at hge hlt
          have hdrop : (bytes.drop n).length = bytes.length - n := List.length_drop
          obtain ⟨room, hloop, hroom'⟩ := @ih (repSpace b₁) 500 b₁ (bytes.drop n) (by omega)
            (.inr ⟨by decide, fun h => by rw [h, List.length_nil] at hlength; omega⟩)
            (by omega) (by rw [repSpace]; omega) (by rw [repSpace]; omega) hlt (by omega)
          rw [hdata, List.append_assoc, List.take_append_drop] at hloop
          exact ⟨room, hloop, hroom'⟩
        · have hshort : bytes.length ≤ n := by omega
          rw [if_neg hfull, List.take_of_length_le hshort, List.drop_of_length_le hshort]
          exact ⟨b.capacity, rfl, hb⟩

theorem rounds_arriving (bytes : Bytes) : rounds (arriving bytes) = bytes.length + 2 := by
  rw [rounds, arriving]
  split
  · next h => rw [h]; rfl
  · show (bytes ++ []).length + 2 = bytes.length + 2
    rw [List.append_nil]

theorem genericRead_arriving {bytes : Bytes} (hne : bytes ≠ []) (hsize : bytes.length < 2 ^ 29) :
    ∃ room, genericRead (arriving bytes) = some (true, ⟨bytes, room⟩, arriving []) := by
  have h4071 : uCapacity = 4071 := rfl
  obtain ⟨room, hread, -⟩ := @readLoop_arriving (rounds (arriving bytes)) uCapacity (-1) 0
    ⟨[], uCapacity⟩ bytes (rounds_arriving bytes).ge (.inl hne) (by omega) (by decide) (by simp)
    (by decide) (by simpa using hsize)
  exact ⟨room, hread⟩

/-- The buffer of a client is emptied and is read into. -/
theorem read_arriving {bytes : Bytes} {b : UString} (hempty : b.data = [])
    (hb : b.capacity < 2 ^ 31) (hlong : tokenLn ≤ bytes.length) (hsize : bytes.length < 2 ^ 29) :
    ∃ room, read (rounds (arriving bytes)) (arriving bytes) b (toInt tokenLn) =
      some (true, ⟨bytes, room⟩, arriving []) ∧ room < 2 ^ 31 := by
  have h4071 : uCapacity = 4071 := rfl
  have h12 : tokenLn = 12 := rfl
  have hchunk : (max (toInt tokenLn) (uCapacity : Int)).toNat = uCapacity := by decide
  have hcount : toInt tokenLn = 12 := by decide
  have hne : bytes ≠ [] := fun h => by rw [h, List.length_nil] at hlong; omega
  rw [RpcFraming.read]
  dsimp only
  rw [hchunk]
  split
  · obtain ⟨hge, hlt⟩ := reserve_room hb (show uCapacity ≤ 2 ^ 30 by decide)
    have hdata : (reserve b uCapacity).data = [] := (reserve_data b _).trans hempty
    have hread := @readLoop_arriving (rounds (arriving bytes)) (repSpace (reserve b uCapacity))
      (toInt tokenLn) (-1) (reserve b uCapacity) bytes (rounds_arriving bytes).ge (.inl hne)
    rw [repSpace, hdata, List.length_nil, List.nil_append] at hread
    rw [repSpace, hdata, List.length_nil]
    exact hread (by omega) (by omega) (by omega) hlt (by omega)
  · next hroom =>
    have hspace : space b = b.capacity ∧ uCapacity ≤ b.capacity := by
      rw [space, hempty, List.length_nil] at hroom ⊢
      split at hroom <;> split <;> omega
    have hread := @readLoop_arriving (rounds (arriving bytes)) (space b)
      (toInt tokenLn) (-1) b bytes (rounds_arriving bytes).ge (.inl hne)
    rw [hempty, List.length_nil, List.nil_append] at hread
    rw [hempty, List.length_nil]
    exact hread (by omega) (by omega) (by omega) hb (by omega)

/-- What is read first may as well have been in the buffer. -/
theorem readTokenInt_read {fuel rstart : Nat} {sock sock' : Socket} {b b' : UString}
    (hread : available fuel sock b rstart tokenLn = some (true, b', sock'))
    (hbuffered : available fuel sock' b' rstart tokenLn = some (true, b', sock')) :
    readTokenInt fuel sock none b rstart = readTokenInt fuel sock' none b' rstart := by
  rw [readTokenInt, readTokenInt, hread, hbuffered]

theorem length_text (status : Status) : status.text.length = tokenNm := by
  cases status <;> simp [Status.text, Status.number, JsonValue.printNat, tokenNm]

theorem strtol_text (status : Status) (rest : Bytes) :
    (RdbText.strtol (status.text ++ rest)).1 = status.number := by
  rw [Status.text, List.append_assoc, List.cons_append, List.nil_append,
    RdbText.strtol_printNat (by cases status <;> decide) (by decide)]

/-- The client reads the status and the data of an answer. -/
theorem readResponse_arriving {status : Status} {data : Bytes} {buffer : UString}
    (hbuffer : buffer.capacity < 2 ^ 31) (hsize : tokenLn + data.length < 2 ^ 29) :
    ∃ buffer' : UString, readResponse (arriving (packet status.text data.length ++ data)) buffer =
      some (some ((status.number : Int), data), buffer') ∧ buffer'.capacity < 2 ^ 31 := by
  have h12 : tokenLn = 12 := rfl
  have htext := length_text status
  have hpacket : (packet status.text data.length).length = tokenLn := length_packet htext _
  have hlength : (packet status.text data.length ++ data).length = tokenLn + data.length := by
    rw [List.length_append, hpacket]
  have hstrtol := strtol_text status (u_int2hex data.length)
  have hdrop : (packet status.text data.length ++ data).drop tokenLn = data := by
    rw [← hpacket, List.drop_left]
  have htake : (packet status.text data.length ++ data).take tokenNm = status.text := by
    rw [packet, List.append_assoc, ← htext, List.take_left]
  have hnil : data = [] → packet status.text data.length ++ data =
      status.text ++ u_int2hex data.length := by
    intro h
    rw [h, List.append_nil, packet]
  generalize hbytes : packet status.text data.length ++ data = bytes at hlength hdrop htake hnil
  obtain ⟨room, hread, hroom⟩ := @read_arriving bytes { buffer with data := [] } rfl hbuffer
    (by omega) (by omega)
  have hb : (⟨bytes, room⟩ : UString).data.length < 2 ^ 32 := by
    show bytes.length < 2 ^ 32
    omega
  have hbuffered {n : Nat} (hn : n ≤ data.length) : tokenLn + n ≤
      (⟨bytes, room⟩ : UString).data.length := by
    show tokenLn + n ≤ bytes.length
    omega
  have havail : available (rounds (arriving bytes)) (arriving bytes) { buffer with data := [] } 0
      tokenLn = some (true, ⟨bytes, room⟩, arriving []) := by
    rw [available, if_neg (show ¬ (0 + tokenLn) % 2 ^ 32 ≤ ([] : Bytes).length by decide), hread]
  have hint : readTokenInt (rounds (arriving bytes)) (arriving bytes) none
      { buffer with data := [] } 0 = some ⟨data.length, tokenLn, ⟨bytes, room⟩, arriving []⟩ := by
    rw [readTokenInt_read havail (available_buffered hb (by
      rw [Nat.zero_add]; exact hbuffered (Nat.zero_le _)))]
    exact @readTokenInt_buffered _ _ _ [] data status.text none data.length hb htext (.inl rfl)
      (by omega) hbytes.symm
  have hne : bytes ≠ [] := fun h => by rw [h, List.length_nil] at hlength; omega
  rw [readResponse, readTokenString, hint]
  simp only [Option.bind_eq_bind, Option.bind_some]
  by_cases hdata : data = []
  · simp only [hdata, List.length_nil, if_true, Option.bind_some, ne_eq, not_true_eq_false,
      if_false, if_neg hne]
    rw [hdata, List.length_nil] at hstrtol hnil
    rw [hnil rfl, hstrtol]
    exact ⟨_, rfl, hroom⟩
  · have hzero : data.length ≠ 0 := fun h => hdata (List.length_eq_zero_iff.mp h)
    have htext' : status.text ≠ [] := fun h => by rw [h] at htext; cases htext
    have hcode := strtol_text status []
    rw [List.append_nil] at hcode
    simp only [if_neg hzero, available_buffered hb (hbuffered (Nat.le_refl _)), Option.bind_some,
      if_true, if_pos hzero, hdrop, htake, List.take_length, if_neg htext', hcode]
    exact ⟨_, rfl, hroom⟩

variable {s s' : URDB} {env : Env} {r : Int}

/-! ### The results of the calls -/

/-- The result is one of these. -/
def Returns (codes : List Int) (x : Option (Int × URDB)) : Prop :=
  ∀ r s, x = some (r, s) → r ∈ codes

theorem Returns.pure {codes : List Int} (h : r ∈ codes) : Returns codes (some (r, s)) := by
  rintro _ _ ⟨⟩
  exact h

theorem Returns.bind {α : Type} {codes : List Int} {x : Option α} {f : α → Option (Int × URDB)}
    (h : ∀ a, Returns codes (f a)) : Returns codes (x.bind f) := by
  intro r s hx
  obtain ⟨a, -, ha⟩ := Option.bind_eq_some_iff.mp hx
  exact h a r s ha

theorem Returns.ite {codes : List Int} {p : Prop} [Decidable p] {x y : Option (Int × URDB)}
    (hx : Returns codes x) (hy : Returns codes y) : Returns codes (if p then x else y) := by
  split
  · exact hx
  · exact hy

theorem rollback_returns {codes : List Int} (h : -3 ∈ codes) : Returns codes (rollback s) :=
  .bind fun _ => .pure h

theorem storeEntry_returns {codes : List Int} (h : -3 ∈ codes) (h0 : 0 ∈ codes) {exist : Bool} :
    Returns codes (storeEntry s exist env) :=
  .bind fun _ => .ite (rollback_returns h) (.bind fun _ => .pure h0)

theorem storeKey_returns (key data : Bytes) (flag : Flag) :
    Returns [0, -1, -3] (storeKey s key data flag env) := by
  refine .bind fun _ => .ite ?_ ?_
  · cases flag with
    | insert =>
        exact .ite (.pure (by decide))
          (.ite (.pure (by decide)) (storeEntry_returns (by decide) (by decide)))
    | replace =>
        exact .ite (.pure (by decide))
          (.ite (.pure (by decide)) (storeEntry_returns (by decide) (by decide)))
  · exact .ite (.pure (by decide)) (.ite (.pure (by decide))
      (.bind fun _ => storeEntry_returns (by decide) (by decide)))

theorem removeEntry_returns {codes : List Int} (h : -3 ∈ codes) (h0 : 0 ∈ codes) :
    Returns codes (removeEntry s env) :=
  .bind fun _ => .ite (rollback_returns h) (.bind fun _ => .pure h0)

theorem removeKey_returns (key : Bytes) : Returns [0, -1, -2, -3] (removeKey s key env) :=
  .bind fun _ => .ite
    (.ite (.pure (by decide)) (removeEntry_returns (by decide) (by decide)))
    (.ite (.bind fun _ => removeEntry_returns (by decide) (by decide)) (.pure (by decide)))

theorem substituteEntry_returns {codes : List Int} (h : -3 ∈ codes) (h0 : 0 ∈ codes)
    {data2 : Datum} {node1 : Nat} {pnode1 : Nat × Nat} :
    Returns codes (substituteEntry s data2 node1 pnode1 env) :=
  .bind fun _ => .ite (rollback_returns h)
    (.bind fun _ => .ite (.bind fun _ => .bind fun _ => .pure h0)
      (.bind fun _ => .bind fun _ => .pure h0))

theorem substituteKey_returns (key newKey data : Bytes) (flag : Flag) :
    Returns [0, -1, -2, -3, -4] (substituteKey s key newKey data flag env) := by
  refine .bind fun r => ?_
  dsimp only
  generalize hresult : (if r.1 = true then
      (if (isDeleted r.2).1 = true then (-2 : Int) else 0, (isDeleted r.2).2)
    else (if (cdbLookup r.2).1 = true then 0 else -1, (cdbLookup r.2).2)) = x
  have hcode : x.1 ∈ [0, -1, -2, -3, -4] := by
    rw [← hresult]
    split_ifs <;> simp
  refine .ite (.pure hcode) (.bind fun y => .ite ?_ ?_)
  · cases flag with
    | insert =>
        exact .ite (.pure (by decide)) (substituteEntry_returns (by decide) (by decide))
    | replace =>
        exact .ite (.pure (by decide)) (substituteEntry_returns (by decide) (by decide))
  · exact .ite (.pure (by decide))
      (.bind fun _ => substituteEntry_returns (by decide) (by decide))

/-- A key that is found has data of the size that is given. -/
theorem length_found {key : Bytes} (h : fetchKey s key = some (true, s')) :
    (s'.data.bytes s'.mem).length = s'.data.dsize := by
  rw [fetchKey, fetch] at h
  obtain ⟨⟨found, s₁⟩, -, h⟩ := Option.bind_eq_some_iff.mp h
  dsimp only at h
  split at h
  · simp only [cdbLookup] at h
    split at h
    · cases h
    · obtain ⟨hfound, rfl⟩ := Prod.mk.inj (Option.some.inj h)
      rw [hfound] at *
      show ((Datum.ofBytes _).bytes _).length = (Datum.ofBytes _).dsize
      rw [JournalLog.bytes_ofBytes]
      rfl
  · split at h
    · cases h
    · obtain ⟨-, rfl⟩ := Prod.mk.inj (Option.some.inj h)
      exact ByteMemory.length_read _ _ _

/-! ### The text of the entries -/

section

variable {σ τ : Type} {add : Bytes → Bytes → σ → σ} {add' : Bytes → Bytes → τ → τ} {f : σ → τ}
  (hf : ∀ key data a, add' key data (f a) = f (add key data a))

include hf

theorem visitKeys_map (vkey : List Bytes) (s : URDB) (a : σ) :
    visitKeys add' vkey (s, f a) = (visitKeys add vkey (s, a)).map (Prod.map id f) := by
  induction vkey generalizing s a with
  | nil => rfl
  | cons key vkey ih =>
      rw [visitKeys, visitKeys]
      cases fetchKey s key with
      | none => rfl
      | some r =>
          simp only [Option.bind_eq_bind, Option.bind_some]
          rw [← ih]
          split
          · rw [hf]
          · rfl

theorem printSorted_map (sort : List Bytes → List Bytes) (s : URDB) (a : σ) :
    printSorted add' sort s (f a) = (printSorted add sort s a).map (Prod.map f id) := by
  rw [printSorted, printSorted]
  split
  · cases RdbEnumeration.getKeys s with
    | none => rfl
    | some r =>
        simp only [Option.bind_eq_bind, Option.bind_some]
        generalize (if size s > 1 then sort r.1 else r.1) = vkey
        split
        · rw [visitKeys_map hf]
          cases visitKeys add (vkey.take (size s)) (r.2, a) <;> rfl
        · rfl
  · rfl

end

/-- What is printed, in either order, is the text of entries. -/
theorem printText_eq {sort : List Bytes → List Bytes} {sorted : Bool} {t : Bytes}
    (h : printText sort sorted s = some (t, s')) :
    ∃ es, entries sort sorted s = some es ∧ t = text es := by
  cases sorted with
  | false =>
      obtain ⟨es, hes, htext, -⟩ := RdbText.print_eq_text h
      exact ⟨es, hes, htext⟩
  | true =>
      obtain ⟨⟨pbuffer, u⟩, hprint, hresult⟩ := Option.bind_eq_some_iff.mp h
      obtain ⟨x, rfl, hx⟩ := Option.map_eq_some_iff.mp hresult
      let f (es : List Record) : Option TextBuffer.Buffer :=
        (es.flatMap CdbText.pieces).foldlM TextBuffer.append
          (TextBuffer.created ((s.cdb.stSize + s.off) % 2 ^ 32))
      have hf : ∀ key data es, (f es).bind (printEntry key data) = f (es ++ [⟨key, data⟩]) := by
        intro key data es
        dsimp only [f]
        rw [List.flatMap_append, List.foldlM_append, List.flatMap_singleton]
        exact congrArg _ (funext fun x => RdbText.printEntry_eq key data x)
      have hmap := @printSorted_map _ _ (fun key data es => es ++ [⟨key, data⟩])
        (fun key data pbuffer => pbuffer.bind (printEntry key data)) f hf sort s []
      change printSorted _ sort s (f []) = _ at hprint
      rw [hmap] at hprint
      obtain ⟨⟨es, u'⟩, hes, hpair⟩ := Option.map_eq_some_iff.mp hprint
      have hfold : f es = some x := (Prod.mk.inj hpair).1
      obtain ⟨hdata, -⟩ := RdbText.foldlM_append_data (TextBuffer.allocated_le _).2 hfold
      refine ⟨es, ?_, ?_⟩
      · rw [entries, if_pos rfl, hes]
        rfl
      · rw [← (Prod.mk.inj hx).1, hdata]
        rfl

/-! ### The answer -/

theorem rel_bind_map {α β γ : Type} {R : β → γ → Prop} {x : Option α} {f : α → Option β}
    {g : α → γ} (h : ∀ a, x = some a → Option.Rel R (f a) (some (g a))) :
    Option.Rel R (x.bind f) (x.map g) := by
  cases x with
  | none => exact .none
  | some a => exact h a rfl

/-- The answer is what the client takes for the outcome. -/
def Answers (c : Request) (w : UString × URDB) (o : Outcome × URDB) : Prop :=
  w.2 = o.2 ∧ ∃ (status : Status) (data : Bytes),
    w.1.data = packet status.text data.length ++ data ∧ tokenLn + data.length < 2 ^ 29 ∧
      c.outcome (some ((status.number : Int), data)) = some o.1

theorem reserve_cleared : reserve ⟨[], 0⟩ tokenLn = ⟨[], uCapacity⟩ := rfl

theorem answer_answers {c : Request} {status : Status} {o : Outcome} (s : URDB)
    (h : c.outcome (some ((status.number : Int), [])) = some o) :
    Option.Rel (Answers c) ((answer status (reserve ⟨[], 0⟩ tokenLn)).map (·, s))
      (some (o, s)) := by
  rw [reserve_cleared, answer, buildTokenInt_fits (length_text status) 0 (by decide)]
  exact .some ⟨rfl, status, [], by rw [List.append_nil]; rfl, by decide, h⟩

/-- The answer to a call that returns a code. -/
theorem code_answers {c : Request} {codes : List Int} {x : Option (Int × URDB)}
    {toStatus : Int → Option Status} {toResult : Int → Int} (hx : Returns codes x)
    (hcodes : ∀ r ∈ codes, (toStatus r).map (fun status => toResult status.number) = some r)
    (hc : ∀ code data, c.outcome (some (code, data)) = some (.code (toResult code))) :
    Option.Rel (Answers c)
      (x.bind fun a => (toStatus a.1).bind fun status =>
        (answer status (reserve ⟨[], 0⟩ tokenLn)).map (·, a.2))
      (x.map fun a => (.code a.1, a.2)) := by
  refine rel_bind_map fun a ha => ?_
  obtain ⟨status, hstatus, hresult⟩ := Option.map_eq_some_iff.mp (hcodes a.1 (hx a.1 a.2 ha))
  rw [hstatus]
  exact answer_answers a.2 (by rw [hc, hresult])

/-- The answer to a call that returns whether it was carried out. -/
theorem ok_answers {c : Request} (x : Option (Bool × URDB))
    (hc : ∀ code data, c.outcome (some (code, data)) = some (.ok (decide (code = 200)))) :
    Option.Rel (Answers c)
      (x.bind fun a =>
        (answer (if a.1 then .s200 else .s500) (reserve ⟨[], 0⟩ tokenLn)).map (·, a.2))
      (x.map fun a => (.ok a.1, a.2)) := by
  refine rel_bind_map fun a _ => answer_answers a.2 ?_
  rw [hc]
  cases a.1 <;> rfl

/-- The answer with data. -/
theorem data_answers {c : Request} {data : Bytes} {wbuffer : UString} {o : Outcome} (s : URDB)
    (hempty : wbuffer.data = []) (hroom : tokenLn ≤ wbuffer.capacity)
    (hsize : tokenLn + data.length < 2 ^ 29)
    (h : c.outcome (some (200, data)) = some o) :
    Option.Rel (Answers c)
      ((buildTokenInt Status.s200.text data.length wbuffer).bind fun w => some (append w data, s))
      (some (o, s)) := by
  rw [buildTokenInt_fits (length_text .s200) data.length
    (show wbuffer.data.length + tokenLn ≤ wbuffer.capacity by
      rw [hempty, List.length_nil, Nat.zero_add]; exact hroom)]
  refine .some ⟨rfl, .s200, data, ?_, hsize, h⟩
  rw [data_append, hempty, List.nil_append]

variable {sort : List Bytes → List Bytes} {κ : Type}

/-- A request that was read is answered with the outcome of the call. -/
theorem perform_direct {ptr : Bytes} {k : κ} {c : Request} (hptr : ptr.take 4 = c.token)
    (hfits : Fits sort s (k, c, env)) :
    Option.Rel (Answers c) (perform sort s ptr c.strings env) (direct sort s (k, c, env)) := by
  have hthree : ptr.take 3 = c.token.take 3 := by
    rw [← hptr, List.take_take]
    rfl
  have hflag : ptr[3]? = c.token[3]? := by
    rw [← hptr, List.getElem?_take_of_lt (by decide)]
  cases c with
  | find key =>
      have hperform : perform sort s ptr (Request.find key).strings env =
          (fetchKey s key).bind fun a => if a.1 then
              (buildTokenInt Status.s200.text a.2.data.dsize
                (reserve (reserve ⟨[], 0⟩ tokenLn) (tokenLn + a.2.data.dsize))).bind fun w =>
                  some (append w (a.2.data.bytes a.2.mem), a.2)
            else (answer .s400 (reserve ⟨[], 0⟩ tokenLn)).map (·, a.2) := by
        rw [perform, hptr, hthree]
        rfl
      rw [hperform]
      refine rel_bind_map fun ⟨found, t⟩ ht => ?_
      have hdsize : found = true → tokenLn + t.data.dsize < 2 ^ 29 := by
        intro hfound
        have hsize := hfits.2
        simp only [dataLength, ht, Option.map_some, Option.getD_some, if_pos hfound] at hsize
        exact hsize
      cases found with
      | false => exact answer_answers t rfl
      | true =>
          have hlength := length_found ht
          have hsize := hdsize rfl
          obtain ⟨hroom, -⟩ := @reserve_room (reserve ⟨[], 0⟩ tokenLn) (tokenLn + t.data.dsize)
            (by decide) (by omega)
          rw [← hlength] at hsize hroom ⊢
          exact data_answers t (reserve_data _ _) (by omega) hsize rfl
  | store key data flag =>
      have hflagOf : flagOf ptr = flag := by
        rw [flagOf, hflag]
        cases flag <;> rfl
      have hperform : perform sort s ptr (Request.store key data flag).strings env =
          (storeKey s key data flag env).bind fun a => (storeStatus a.1).bind fun status =>
            (answer status (reserve ⟨[], 0⟩ tokenLn)).map (·, a.2) := by
        rw [perform, hptr, hthree, hflagOf]
        cases flag <;> rfl
      rw [hperform]
      exact code_answers (storeKey_returns key data flag) (by decide) fun _ _ => rfl
  | remove key =>
      have hperform : perform sort s ptr (Request.remove key).strings env =
          (removeKey s key env).bind fun a => (removeStatus a.1).bind fun status =>
            (answer status (reserve ⟨[], 0⟩ tokenLn)).map (·, a.2) := by
        rw [perform, hptr, hthree]
        rfl
      rw [hperform]
      exact code_answers (removeKey_returns key) (by decide) fun _ _ => rfl
  | substitute key newKey data flag =>
      have hflagOf : flagOf ptr = flag := by
        rw [flagOf, hflag]
        cases flag <;> rfl
      have hperform : perform sort s ptr (Request.substitute key newKey data flag).strings env =
          (substituteKey s key newKey data flag env).bind fun a =>
            (substituteStatus a.1).bind fun status =>
              (answer status (reserve ⟨[], 0⟩ tokenLn)).map (·, a.2) := by
        rw [perform, hptr, hthree, hflagOf]
        cases flag <;> rfl
      rw [hperform]
      exact code_answers (substituteKey_returns key newKey data flag) (by decide) fun _ _ => rfl
  | callForAllEntry sorted =>
      have hsorted : decide (ptr[3]? ≠ some '0'.toUInt8) = sorted := by
        rw [hflag]
        cases sorted <;> rfl
      have hperform : perform sort s ptr (Request.callForAllEntry sorted).strings env =
          (printText sort sorted s).bind fun a =>
            (buildTokenInt Status.s200.text (a.1.length % 2 ^ 32)
              (reserve ⟨[], 0⟩ tokenLn)).bind fun w => some (append w a.1, a.2) := by
        rw [perform, hptr, hthree, hsorted]
        cases sorted <;> rfl
      rw [hperform, direct]
      dsimp only
      cases htext : printText sort sorted s with
      | none => exact .none
      | some r =>
          obtain ⟨t, s'⟩ := r
          obtain ⟨es, hes, heq⟩ := printText_eq htext
          have hsize := hfits.2
          simp only [dataLength, htext, Option.map_some, Option.getD_some] at hsize
          simp only [Option.bind_eq_bind, Option.bind_some, hes,
            Nat.mod_eq_of_lt (show t.length < 2 ^ 32 by omega)]
          refine data_answers s' rfl (by decide) hsize ?_
          show (RdbText.parse t).map Outcome.pairs = _
          rw [heq, RdbText.parse_text (by rw [← heq]; omega)]
          rfl
  | closeReorganize =>
      rw [perform, hptr, hthree]
      exact ok_answers (reorganize s env) fun _ _ => rfl
  | beginTransaction =>
      rw [perform, hptr, hthree]
      exact ok_answers (ReliableDatabase.beginTransaction s env) fun _ _ => rfl
  | abortTransaction =>
      rw [perform, hptr, hthree]
      exact answer_answers _ rfl
  | commitTransaction =>
      rw [perform, hptr, hthree]
      exact answer_answers _ rfl

/-- A request of which a string was lost is not carried out. -/
theorem perform_lost {ptr : Bytes} {c : Request} {vec : List Bytes} (hptr : ptr.take 4 = c.token)
    (hvec : vec.length < c.strings.length) : perform sort s ptr vec env = none := by
  have hthree : ptr.take 3 = c.token.take 3 := by
    rw [← hptr, List.take_take]
    rfl
  have hnone : ∀ n, vec.length ≤ n → vec[n]? = none := fun n hn =>
    List.getElem?_eq_none hn
  rw [perform, hptr, hthree]
  cases c with
  | find key =>
      show (vec[0]?).bind _ = none
      rw [hnone 0 (Nat.le_of_lt_succ hvec), Option.bind_none]
  | store key data flag =>
      have hstore : (vec[0]?).bind (fun key => (vec[1]?).bind fun data =>
          (storeKey s key data (flagOf ptr) env).bind fun a => (storeStatus a.1).bind fun status =>
            (answer status (reserve ⟨[], 0⟩ tokenLn)).map (·, a.2)) = none := by
        rw [hnone 1 (Nat.le_of_lt_succ hvec)]
        cases vec[0]? <;> rfl
      cases flag <;> exact hstore
  | remove key =>
      show (vec[0]?).bind _ = none
      rw [hnone 0 (Nat.le_of_lt_succ hvec), Option.bind_none]
  | substitute key newKey data flag =>
      have hsubstitute : (vec[0]?).bind (fun key => (vec[1]?).bind fun newKey =>
          (vec[2]?).bind fun data =>
            (substituteKey s key newKey data (flagOf ptr) env).bind fun a =>
              (substituteStatus a.1).bind fun status =>
                (answer status (reserve ⟨[], 0⟩ tokenLn)).map (·, a.2)) = none := by
        rw [hnone 2 (Nat.le_of_lt_succ hvec)]
        cases vec[0]? <;> cases vec[1]? <;> rfl
      cases flag <;> exact hsubstitute
  | _ => cases hvec

theorem take_message (c : Request) : (message c.token c.strings).take 4 = c.token := by
  rw [message, packet, List.append_assoc, ← show c.token.length = 4 from length_token c,
    List.take_left]

/-- The server carries out a request of which every string has a byte, and no
other one. -/
theorem handlerRead_request (c : Request) (h : (message c.token c.strings).length < 2 ^ 29) :
    ((∀ x ∈ c.strings, x ≠ []) → handlerRead sort s (arriving (message c.token c.strings)) env =
        (perform sort s (message c.token c.strings) c.strings env).map fun (w, s) =>
          (some w, s)) ∧
      ((¬∀ x ∈ c.strings, x ≠ []) →
        handlerRead sort s (arriving (message c.token c.strings)) env = none) := by
  have hne : message c.token c.strings ≠ [] := fun hnil => by
    have := take_message c
    rw [hnil] at this
    have := length_token c
    rw [← ‹List.take 4 [] = c.token›] at this
    cases this
  obtain ⟨room, hread⟩ := genericRead_arriving hne h
  obtain ⟨size, vec, hvector, hsize, hall, hlost⟩ :=
    @readTokenVector_request (rounds (arriving [])) c room (by omega)
  have hhandler : handlerRead sort s (arriving (message c.token c.strings)) env =
      (perform sort s (message c.token c.strings) vec env).map fun (w, s) => (some w, s) := by
    rw [handlerRead, hread]
    simp only [Option.bind_eq_bind, Option.bind_some, Bool.true_eq_false, false_and, if_false,
      hvector, if_neg hsize]
  refine ⟨fun hfull => ?_, fun hempty => ?_⟩
  · rw [hhandler, hall hfull]
  · rw [hhandler, perform_lost (take_message c) (hlost hempty), Option.map_none]

/-! ### A call over the network -/

variable [DecidableEq κ]

/-- The buffers of the clients can be read into. -/
def Roomy (u : URDB × (κ → UString)) (s : URDB) : Prop :=
  u.1 = s ∧ ∀ k, (u.2 k).capacity < 2 ^ 31

theorem remote_agrees {u : URDB × (κ → UString)} {s : URDB} {c : κ × Request × Env}
    (hu : Roomy u s) (hfits : Fits sort s c) (hfull : ∀ x ∈ c.2.1.strings, x ≠ []) :
    Option.Rel (fun r o => r.1 = o.1 ∧ Roomy r.2 o.2) (remote sort u c) (direct sort s c) := by
  obtain ⟨k, request, env⟩ := c
  obtain ⟨rfl, hbuffers⟩ := hu
  obtain ⟨room, hrequest⟩ := processRequest_eq (c := request) (by
    have := hfits.1
    dsimp only at this
    omega)
  have hperform := perform_direct (take_message request) hfits
  rw [remote]
  dsimp only
  rw [hrequest]
  simp only [Option.bind_eq_bind, Option.bind_some]
  rw [(handlerRead_request request hfits.1).1 hfull]
  generalize direct sort u.1 (k, request, env) = o at hperform ⊢
  generalize perform sort u.1 (message request.token request.strings) request.strings env = w
    at hperform ⊢
  cases hperform with
  | none => exact .none
  | some h =>
      obtain ⟨hstate, status, data, hdata, hsize, houtcome⟩ := h
      obtain ⟨buffer, hresponse, hbuffer⟩ := readResponse_arriving (hbuffers k) hsize
      simp only [Option.map_some, Option.bind_some, Option.elim_some]
      rw [hdata, hresponse]
      simp only [Option.bind_some, houtcome]
      refine .some ⟨rfl, hstate, fun k' => ?_⟩
      show (Function.update u.2 k buffer k').capacity < 2 ^ 31
      by_cases hk : k' = k
      · subst hk
        rw [Function.update_self]
        exact hbuffer
      · rw [Function.update_of_ne hk]
        exact hbuffers k'

theorem remote_lost {u : URDB × (κ → UString)} {c : κ × Request × Env} (hfits : Fits sort u.1 c)
    (hempty : ¬∀ x ∈ c.2.1.strings, x ≠ []) : remote sort u c = none := by
  obtain ⟨room, hrequest⟩ := processRequest_eq (c := c.2.1) (by
    have := hfits.1
    omega)
  rw [remote]
  dsimp only
  rw [hrequest]
  simp only [Option.bind_eq_bind, Option.bind_some]
  rw [(handlerRead_request c.2.1 hfits.1).2 hempty, Option.bind_none]

instance (s : URDB) (c : κ × Request × Env) : Decidable (Fits sort s c) :=
  inferInstanceAs (Decidable (_ ∧ _))

end ULib.RdbServer
