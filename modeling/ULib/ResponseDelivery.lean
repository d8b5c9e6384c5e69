import ULib.PartialWrite
import ULib.Runs

/-!
How a connection gets its responses, in `net/server/client_image.cpp`:
`handlerRead` serves the requests that came together one after the other,
`handlerResponse` writes a response or puts what the socket does not take into a
temporary file, and `handlerWrite` goes on with the file behind the response.
The object of a connection is used again for the next one.
-/

namespace ULib.ResponseDelivery

open ULib.KeyComparison (Bytes)
open ULib.VectorWrite (Round Possible offered vector)
open ULib.PartialWrite
open ULib.Runs

/-! ### The responses -/

/-- What the plugins do with a request: they have written to the socket
themselves, find it closed, or leave a response in memory, where they may reset
the pipeline, or set `sfd` and `start` to the file that it was mapped from, or
one of which `sendfile` gets the body. -/
inductive Response where
  | off (error : Bool)
  | closed
  | memory (error reset : Bool) (wbuffer body : Bytes) (mapped : Option (Bytes × Nat))
  | sendfile (wbuffer file : Bytes) (start count : Nat) (close : Bool)
  deriving DecidableEq, Repr

/-- The bytes of a response. -/
def Response.bytes : Response → Bytes
  | .off _ => []
  | .closed => []
  | .memory _ _ wbuffer body _ => wbuffer ++ body
  | .sendfile wbuffer file start count _ => wbuffer ++ (file.drop start).take count

/-- What is behind the request in `rbuffer`. -/
inductive Rest where
  | nothing
  | blank
  | request
  deriving DecidableEq, Repr

/-- What `sendfile` gives; where there is nothing left in the file, `errno` is
that of an earlier call. -/
inductive Sendfile where
  | took (value : Nat)
  | again
  | failed
  deriving DecidableEq, Repr

/-- What the system does while a response is sent: the rounds of `write` or
`writev`, whether a failed one closes the socket, whether a temporary file is
made, unlinked and written, and `sendfile`. -/
structure Answers where
  rounds : List Round
  closes : Bool
  store : Bool
  sendfile : Sendfile
  deriving DecidableEq, Repr

/-- How the server is built, and whether it has a log and uses SSL. -/
structure Config where
  partialWriteSupport : Bool
  isLog : Bool
  bssl : Bool

/-- A `UClientImage_Base`, and the statics that belong to the request.
`error` is that `state` is U_PLUGIN_HANDLER_ERROR, `bclose` its flag U_YES,
`writing` that `op_mask` is U_WRITE_OUT, and `looping` that `handlerRead` goes
to the next request. Nothing reads `sent`, which is what the socket took. -/
structure Client where
  start : Nat
  count : Nat
  sfd : Option Bytes
  error : Bool
  bclose : Bool
  writing : Bool
  isOpen : Bool
  pipeline : Bool
  looping : Bool
  sent : Bytes
  deriving DecidableEq, Repr

/-- One of the objects that have no connection yet. -/
def created : Client := ⟨0, 0, none, false, false, false, false, false, false, []⟩

/-! ### Sending -/

variable (cfg : Config) (c : Client) (a : Answers)

/-- `handlerWrite`, with whether the client is to be deleted. There is no
outcome where `sfd` is no file. -/
def handlerWrite (answer : Sendfile) : Option (Bool × Client) :=
  c.sfd.map fun file =>
    match answer with
    | .failed => (true, c)
    | .again => (false, c)
    | .took value =>
        let c := { c with
          sent := c.sent ++ (file.drop c.start).take value
          count := c.count - value }
        if 0 < c.count then
          (false, { c with start := (c.start + value) % 2 ^ 32, writing := true })
        else if c.bclose then (true, c)
        else (false, { c with writing := false })

/-- `U_MIN_SIZE_FOR_PARTIAL_WRITE` -/
def minSizeForPartialWrite : Nat := 16 * 1024

/-- What is taken of a response, the number that is returned, and what the
vector is left with. -/
def sendBuffers (rounds : List Round) (wbuffer body : Bytes) : Option (Bytes × Nat × Bytes) :=
  if body = [] then
    let (taken, count) := write rounds wbuffer 0
    count.map fun n => (taken, n, wbuffer)
  else
    (writevLeft rounds (vector [wbuffer, body]) 0
      (UInt32.ofNat (wbuffer.length + body.length)) 0 []).bind fun (taken, count, iov) =>
        count.map fun n => (taken, n.toUInt32.toNat, offered iov)

/-- From the label `partial` on -/
def waitForWrite (count : Nat) : Bool × Client :=
  (false, { c with count, writing := true, error := false, bclose := c.bclose || c.error })

/-- The rest is put into a temporary file, or is lost. -/
def saveRest (ncount iBytesWrite : Nat) (left : Bytes) : Bool × Client :=
  if ¬ cfg.bssl ∧ minSizeForPartialWrite < ncount ∧ a.store ∧
      left.length = ncount - iBytesWrite then
    waitForWrite { c with sfd := some left, bclose := false } (ncount - iBytesWrite)
  else (true, c)

/-- Behind a write that left something -/
def keepRest (ncount iBytesWrite : Nat) (left : Bytes) : Bool × Client :=
  if ¬ cfg.partialWriteSupport then
    (true, if c.isOpen ∧ cfg.isLog then { c with pipeline := false } else c)
  else if ¬ c.isOpen then (true, c)
  else if c.sfd.isSome then waitForWrite c ncount
  else saveRest cfg c a ncount iBytesWrite left

def handlerResponse (wbuffer body : Bytes) : Option (Bool × Client) :=
  (sendBuffers a.rounds wbuffer body).map fun (taken, iBytesWrite, left) =>
    let ncount := (wbuffer.length + body.length) % 2 ^ 32
    let c := { c with sent := c.sent ++ taken }
    if iBytesWrite = ncount then (false, c)
    else keepRest cfg { c with isOpen := c.isOpen && !a.closes } a ncount iBytesWrite left

/-- `if (... == U_NOTIFIER_DELETE) state = U_PLUGIN_HANDLER_ERROR` -/
def checked (r : Bool × Client) : Client := if r.1 then { r.2 with error := true } else r.2

/-- What `handlerRead` does with a response. -/
def sendResponse (wbuffer body : Bytes) : Option Client :=
  if c.count = 0 then (handlerResponse cfg c a wbuffer body).map checked
  else if c.writing then (handlerWrite c a.sendfile).map checked
  else
    let (taken, count) := write a.rounds wbuffer 0
    count.bind fun n =>
      let c := { c with sent := c.sent ++ taken }
      if n = wbuffer.length then (handlerWrite c a.sendfile).map checked
      else some { c with error := true, isOpen := c.isOpen && !a.closes }

/-! ### The requests of a client -/

/-- The client when the plugins are through with the request. -/
def prepared (r : Response) (rest : Rest) : Client :=
  let c := { c with
    pipeline := if c.looping then c.pipeline else rest ≠ Rest.nothing
    sfd := none
    bclose := false }
  match r with
  | .off error => { c with error }
  | .closed => { c with error := true, isOpen := false }
  | .memory error reset _ _ mapped =>
      { c with
        error
        pipeline := c.pipeline && !reset
        sfd := mapped.map Prod.fst
        start := mapped.elim c.start Prod.snd }
  | .sendfile _ file start count close =>
      { c with error := false, sfd := some file, start, count, bclose := close }

/-- `wbuffer` and `body`, where they are to be written. -/
def Response.output : Response → Option (Bytes × Bytes)
  | .off _ => none
  | .closed => none
  | .memory _ _ wbuffer body _ => some (wbuffer, body)
  | .sendfile wbuffer _ _ _ _ => some (wbuffer, [])

/-- `handlerDelete` -/
def handlerDelete : Client :=
  { c with
    isOpen := false, looping := false, count := 0
    writing := if 0 < c.count then false else c.writing }

/-- `socket->isClosed() || (state == U_PLUGIN_HANDLER_ERROR && pipeline == false)` -/
def GivenUp : Prop := c.isOpen = false ∨ c.error = true ∧ c.pipeline = false

instance : Decidable (GivenUp c) := inferInstanceAs (Decidable (_ ∨ _))

/-- Behind the label `next` -/
def finish (rest : Rest) : Client :=
  if GivenUp c then handlerDelete c else { c with looping := c.pipeline && rest = .request }

/-- Up to the label `next` -/
def answered (r : Response) (rest : Rest) : Option Client :=
  match r.output with
  | none => some (prepared c r rest)
  | some (wbuffer, body) => sendResponse cfg (prepared c r rest) a wbuffer body

/-- One request of those that `handlerRead` goes through. -/
def handleRequest (r : Response) (rest : Rest) : Option Client :=
  (answered cfg c a r rest).map (finish · rest)

inductive Event where
  | accept
  | request (r : Response) (a : Answers) (rest : Rest)
  | writable (answer : Sendfile)
  | hangup
  deriving DecidableEq, Repr

def step (c : Client) : Event → Option (Unit × Client)
  | .accept =>
      some ((), { c with isOpen := true, pipeline := false, sent := [] })
  | .request r a rest => (handleRequest cfg c a r rest).map ((), ·)
  | .writable answer =>
      (handlerWrite c answer).map fun (delete, c) => ((), if delete then handlerDelete c else c)
  | .hangup => some ((), handlerDelete c)

/-! ### What the client is owed -/

/-- What a connection should have got after an event, in the end. -/
def next (owed : Bytes) : Event → Bytes
  | .accept => []
  | .request r _ _ => owed ++ r.bytes
  | .writable _ => owed
  | .hangup => owed

/-- Everything was sent, or what is missing is in the file that is being sent. -/
def Serving (owed : Bytes) : Prop :=
  if c.count = 0 then c.writing = false ∧ c.sent = owed
  else c.writing = true ∧ ∃ file, c.sfd = some file ∧ file.length < 2 ^ 32 ∧
    c.start + c.count ≤ file.length ∧ c.sent ++ (file.drop c.start).take c.count = owed

/-- A connection that is there gets what it is owed, and one that was given up
got the first bytes of it. -/
def Delivers (owed : Bytes) : Prop :=
  if c.isOpen then (c.looping = true → c.pipeline = true) ∧ Serving c owed
  else c.looping = false ∧ c.count = 0 ∧ c.sent <+: owed

/-- The notifier looks for what `op_mask` says, when `handlerRead` is through
with the requests. -/
def Enabled : Event → Prop
  | .accept => c.isOpen = false
  | .request _ _ _ => c.isOpen = true ∧ (c.looping = false → c.writing = false)
  | .writable _ => c.isOpen = true ∧ c.looping = false ∧ c.writing = true
  | .hangup => c.isOpen = true ∧ c.looping = false

/-- `sendfile` takes a byte at least, and none but those it is asked for. -/
def Takes (count : Nat) (answer : Sendfile) : Prop :=
  match answer with
  | .took value => 0 < value ∧ value ≤ count
  | _ => True

instance (count : Nat) : ∀ answer, Decidable (Takes count answer)
  | .took _ => inferInstanceAs (Decidable (_ ∧ _))
  | .again => isTrue trivial
  | .failed => isTrue trivial

/-- The answers are those of a system, and the range of a response is inside its
file. -/
def Valid (r : Response) (a : Answers) : Prop :=
  match r with
  | .off _ => True
  | .closed => True
  | .memory _ reset wbuffer body mapped =>
      wbuffer ≠ [] ∧ wbuffer.length + body.length < 2 ^ 31 ∧
        Possible (wbuffer.length + body.length) a.rounds ∧
        (sendBuffers a.rounds wbuffer body).isSome = true ∧ Takes c.count a.sendfile ∧
        (∀ m ∈ mapped, m.1.length < 2 ^ 32) ∧ (reset = true → mapped = none)
  | .sendfile wbuffer file start count _ =>
      wbuffer ≠ [] ∧ wbuffer.length < 2 ^ 31 ∧ Possible wbuffer.length a.rounds ∧
        (write a.rounds wbuffer 0).2.isSome = true ∧ 0 < count ∧ start + count ≤ file.length ∧
        file.length < 2 ^ 32 ∧ Takes count a.sendfile

instance : ∀ r, Decidable (Valid c r a)
  | .off _ => isTrue trivial
  | .closed => isTrue trivial
  | .memory .. => inferInstanceAs (Decidable (_ ∧ _))
  | .sendfile .. => inferInstanceAs (Decidable (_ ∧ _))

/-- The events that there may be in a state. -/
def Proper (c : Client) (i : Event) : Prop :=
  Enabled c i ∧
    match i with
    | .request r a _ => Valid c r a
    | .writable answer => Takes c.count answer
    | _ => True

instance : ∀ i, Decidable (Enabled c i)
  | .accept => inferInstanceAs (Decidable (_ = _))
  | .request .. => inferInstanceAs (Decidable (_ ∧ _))
  | .writable _ => inferInstanceAs (Decidable (_ ∧ _))
  | .hangup => inferInstanceAs (Decidable (_ ∧ _))

instance : ∀ i, Decidable (Proper c i)
  | .accept => inferInstanceAs (Decidable (Enabled c .accept ∧ True))
  | .request r a rest => inferInstanceAs (Decidable (Enabled c (.request r a rest) ∧ Valid c r a))
  | .writable answer =>
      inferInstanceAs (Decidable (Enabled c (.writable answer) ∧ Takes c.count answer))
  | .hangup => inferInstanceAs (Decidable (Enabled c .hangup ∧ True))

/-- After a short write the connection is given up, or the rest of the response
gets into a file that is sent from its beginning. -/
def Harmless (p : Client) (wbuffer body : Bytes) (iBytesWrite : Nat) (left : Bytes) : Prop :=
  a.closes = true ∨
    if cfg.partialWriteSupport = false then cfg.isLog = true ∨ p.pipeline = false
    else
      (∀ file ∈ p.sfd, iBytesWrite = 0 ∧ p.start + (wbuffer.length + body.length) ≤ file.length ∧
        (file.drop p.start).take (wbuffer.length + body.length) = wbuffer ++ body) ∧
      (p.sfd = none →
        if cfg.bssl = false ∧ minSizeForPartialWrite < wbuffer.length + body.length ∧
            a.store = true ∧ left.length = wbuffer.length + body.length - iBytesWrite then
          p.start = 0
        else p.pipeline = false)

instance (p : Client) (wbuffer body : Bytes) (iBytesWrite : Nat) (left : Bytes) :
    Decidable (Harmless cfg a p wbuffer body iBytesWrite left) :=
  inferInstanceAs (Decidable (_ ∨ ite ..))

/-- A response in memory is written as a whole, or the short write is harmless. -/
def Written (p : Client) (wbuffer body : Bytes) : Prop :=
  ∀ r ∈ sendBuffers a.rounds wbuffer body,
    r.2.1 = wbuffer.length + body.length ∨ Harmless cfg a p wbuffer body r.2.1 r.2.2

instance (p : Client) (wbuffer body : Bytes) : Decidable (Written cfg a p wbuffer body) :=
  inferInstanceAs (Decidable (∀ _ ∈ _, _ ∨ _))

/-- The header in front of a file is written and the first `sendfile` takes
something, or the connection is given up. -/
def Started (p : Client) (wbuffer : Bytes) : Prop :=
  if (write a.rounds wbuffer 0).2 = some wbuffer.length then
    a.sendfile ≠ .again ∧ (a.sendfile = .failed → p.pipeline = false)
  else a.closes = true ∨ p.pipeline = false

instance (p : Client) (wbuffer : Bytes) : Decidable (Started a p wbuffer) :=
  inferInstanceAs (Decidable (ite ..))

/-- The condition on an event. -/
def Orderly : Event → Prop
  | .accept => c.writing = false
  | .request r a rest =>
      if c.count = 0 then
        ∀ o ∈ r.output,
          if (prepared c r rest).count = 0 then Written cfg a (prepared c r rest) o.1 o.2
          else Started a (prepared c r rest) o.1
      else r = .closed
  | .writable _ => True
  | .hangup => True

instance : ∀ i, Decidable (Orderly cfg c i)
  | .accept => inferInstanceAs (Decidable (_ = _))
  | .request .. => inferInstanceAs (Decidable (ite ..))
  | .writable _ => isTrue trivial
  | .hangup => isTrue trivial

/-! ### One request -/

variable {cfg c a} {p : Client} {owed : Bytes} {rest : Rest}

theorem handlerDelete_iff : Delivers (handlerDelete c) owed ↔ c.sent <+: owed := by
  simp [Delivers, handlerDelete]

/-- At the label `next` -/
theorem finish_iff : Delivers (finish c rest) owed ↔
    if GivenUp c then c.sent <+: owed else Serving c owed := by
  rw [finish]
  split
  · exact handlerDelete_iff
  · next halive =>
    have hopen : c.isOpen = true := by
      by_contra h
      exact halive (.inl (Bool.eq_false_iff.mpr h))
    rw [Delivers, if_pos hopen, and_iff_right]
    · rfl
    · exact fun h => (Bool.and_eq_true_iff.mp h).1

/-- What `write` and `writev` make of a response. -/
theorem sendBuffers_spec {rounds : List Round} {wbuffer body : Bytes}
    (hsize : wbuffer.length + body.length < 2 ^ 31)
    (hpossible : Possible (wbuffer.length + body.length) rounds)
    (hsome : (sendBuffers rounds wbuffer body).isSome = true) :
    ∃ m ≤ wbuffer.length + body.length, ∃ left,
      sendBuffers rounds wbuffer body = some ((wbuffer ++ body).take m, m, left) ∧
      (m < wbuffer.length + body.length → left.length = wbuffer.length + body.length - m →
        left = (wbuffer ++ body).drop m) := by
  unfold sendBuffers at hsome ⊢
  split
  · next hbody =>
    subst hbody
    obtain ⟨m, hm, htaken, hcount⟩ :=
      write_spec 0 (show Possible wbuffer.length rounds from hpossible)
    rw [if_pos rfl] at hsome
    cases hwrite : (write rounds wbuffer 0).2 with
    | none => simp [hwrite] at hsome
    | some n =>
        obtain rfl := (hcount n hwrite).trans (Nat.zero_add m)
        refine ⟨n, by simpa using hm, wbuffer, ?_, fun hlt hlen => ?_⟩
        · simp only [hwrite, Option.map_some, htaken, List.append_nil]
        · simp only [List.length_nil, Nat.add_zero] at hlt hlen
          have hzero : n = 0 := by omega
          rw [hzero, List.append_nil, List.drop_zero]
  · next hbody =>
    rw [if_neg hbody] at hsome
    have hflat : [wbuffer, body].flatten = wbuffer ++ body := by simp
    have hlength : (wbuffer ++ body).length = wbuffer.length + body.length := List.length_append
    have hncount : (UInt32.ofNat (wbuffer.length + body.length)).toNat =
        (wbuffer ++ body).length := by
      rw [hlength]
      exact UInt32.toNat_ofNat_of_lt' (by change _ < 2 ^ 32; omega)
    have hstands := VectorWrite.stands_vector [wbuffer, body]
    rw [hflat] at hstands
    obtain ⟨m, hm, count, iov, hwrite, hcount, hleft⟩ := writevLeft_spec hstands hncount
      (by rwa [hlength]) (endsClose_two (by simp) (by simpa using hpossible)) 0 []
    have hzero : Int32.ofNat 0 = 0 := rfl
    rw [hzero] at hwrite
    rw [hwrite] at hsome ⊢
    cases count with
    | none => simp at hsome
    | some n =>
        rw [hlength] at hm hleft
        have hn : n.toUInt32.toNat = m := by
          rw [hcount n rfl, Nat.zero_add]
          exact UInt32.toNat_ofNat_of_lt' (by change _ < 2 ^ 32; omega)
        refine ⟨m, hm, offered iov, ?_, fun hlt _ => hleft hlt⟩
        simp only [Option.bind_some, Option.map_some, List.nil_append, hn]

/-- A response that was cut short is no harm where the connection is given
up. -/
theorem short_iff (hcount : c.count = 0) (hpart : c.sent <+: owed) (hne : c.sent ≠ owed) :
    Delivers (finish { c with error := true } rest) owed ↔
      c.isOpen = false ∨ c.pipeline = false := by
  rw [finish_iff]
  split
  · next hgone => exact iff_of_true hpart (hgone.imp_right And.right)
  · next halive =>
    refine iff_of_false (fun h => ?_) fun h => halive (h.imp_right fun h => ⟨rfl, h⟩)
    rw [Serving, if_pos hcount] at h
    exact hne h.2

/-- A rest that is kept in a file is what the connection gets next. -/
theorem waitForWrite_iff (hopen : c.isOpen = true) {count : Nat}
    (hcount : count ≠ 0) {file : Bytes} (hsfd : c.sfd = some file) (hfile : file.length < 2 ^ 32)
    {left : Bytes} (howed : owed = c.sent ++ left) (hleft : left.length ≤ count) :
    Delivers (finish (waitForWrite c count).2 rest) owed ↔
      left.length = count ∧ c.start + count ≤ file.length ∧
        (file.drop c.start).take count = left := by
  have halive : ¬ GivenUp (waitForWrite c count).2 := by
    rintro (h | ⟨h, -⟩)
    · exact absurd hopen (by simpa [waitForWrite] using h)
    · cases h
  rw [finish_iff, if_neg halive, Serving,
    if_neg (show (waitForWrite c count).2.count ≠ 0 from hcount)]
  simp only [waitForWrite, hsfd, howed, Option.some.injEq, true_and, exists_eq_left',
    List.append_cancel_left_eq, hfile]
  constructor
  · rintro ⟨hin, heq⟩
    have hlength := congrArg List.length heq
    rw [List.length_take, List.length_drop] at hlength
    exact ⟨by omega, hin, heq⟩
  · exact And.right

/-- What `handlerResponse` does behind a write of which `left` is left. -/
theorem harmless_iff (hcount : c.count = 0) (hopen : c.isOpen = !a.closes)
    (hfile : ∀ file ∈ c.sfd, file.length < 2 ^ 32)
    {wbuffer body left sent : Bytes} {m : Nat} (hsize : wbuffer.length + body.length < 2 ^ 31)
    (hm : m < wbuffer.length + body.length) (hsent : c.sent = sent ++ (wbuffer ++ body).take m)
    (hleft : left.length = wbuffer.length + body.length - m → left = (wbuffer ++ body).drop m) :
    Delivers (finish (checked (keepRest cfg c a (wbuffer.length + body.length) m left)) rest)
      (sent ++ (wbuffer ++ body)) ↔ Harmless cfg a c wbuffer body m left := by
  have hlength : (wbuffer ++ body).length = wbuffer.length + body.length := List.length_append
  rw [Harmless]
  generalize wbuffer ++ body = all at *
  generalize wbuffer.length + body.length = ncount at *
  have hprefix : c.sent <+: sent ++ all := by
    rw [hsent]
    exact (List.prefix_append_right_inj _).mpr (List.take_prefix m all)
  have hne : c.sent ≠ sent ++ all := by
    intro h
    have hlen := congrArg List.length (List.append_cancel_left (hsent.symm.trans h))
    rw [List.length_take] at hlen
    omega
  have howed : sent ++ all = c.sent ++ all.drop m := by
    rw [hsent, List.append_assoc, List.take_append_drop]
  have hgiven : Delivers (finish (checked (true, c)) rest) (sent ++ all) ↔
      c.isOpen = false ∨ c.pipeline = false := short_iff hcount hprefix hne
  rw [keepRest]
  by_cases hsupport : cfg.partialWriteSupport = false
  · rw [if_pos (by simp [hsupport]), if_pos hsupport]
    split
    · next hlog =>
      refine iff_of_true ?_ (.inr (.inl hlog.2))
      exact (short_iff (c := { c with pipeline := false }) hcount hprefix hne).mpr (.inr rfl)
    · next hlog =>
      rw [hgiven]
      rw [hopen] at hlog ⊢
      revert hlog
      cases a.closes <;> cases cfg.isLog <;> simp
  rw [if_neg (by simpa using hsupport), if_neg hsupport]
  by_cases hcloses : a.closes = true
  · rw [if_pos (by simp [hopen, hcloses]), hgiven]
    exact iff_of_true (.inl (by simp [hopen, hcloses])) (.inl hcloses)
  have hopen' : c.isOpen = true := by simpa [hcloses] using hopen
  rw [if_neg (by simp [hopen']), or_iff_right hcloses]
  have hrest : (all.drop m).length ≤ ncount := by
    rw [List.length_drop]
    omega
  cases hsfd : c.sfd with
  | some file =>
      simp only [Option.mem_def, Option.some.injEq, forall_eq', reduceCtorEq, false_implies,
        and_true]
      refine (waitForWrite_iff hopen' (by omega) hsfd (hfile file hsfd) howed hrest).trans ?_
      rw [List.length_drop]
      constructor
      · rintro ⟨hlen, hin, heq⟩
        obtain rfl : m = 0 := by omega
        exact ⟨rfl, hin, heq⟩
      · rintro ⟨rfl, hin, heq⟩
        exact ⟨by omega, hin, heq⟩
  | none =>
      simp only [Option.isSome_none, Bool.false_eq_true, if_false, saveRest, Bool.not_eq_true,
        Option.not_mem_none, false_implies, implies_true, true_and, forall_const]
      split
      · next hsaved =>
        have hleft' := hleft hsaved.2.2.2
        refine (waitForWrite_iff (c := { c with sfd := some left, bclose := false }) hopen'
          (show ncount - m ≠ 0 by omega) rfl (by omega) howed
          (by rw [List.length_drop]; omega)).trans ?_
        rw [← hleft', and_iff_right hsaved.2.2.2, hsaved.2.2.2]
        constructor
        · rintro ⟨hin, -⟩
          change c.start + (ncount - m) ≤ ncount - m at hin
          omega
        · intro hstart
          change c.start + (ncount - m) ≤ ncount - m ∧ (left.drop c.start).take (ncount - m) = left
          rw [hstart, List.drop_zero, ← hsaved.2.2.2, List.take_length]
          exact ⟨by omega, rfl⟩
      · rw [hgiven, hopen']
        simp

/-- A response in memory gets to the connection under its condition. -/
theorem written_iff (hcount : p.count = 0) (hwriting : p.writing = false) (hopen : p.isOpen = true)
    (hfile : ∀ file ∈ p.sfd, file.length < 2 ^ 32)
    {wbuffer body : Bytes} (hsize : wbuffer.length + body.length < 2 ^ 31)
    (hpossible : Possible (wbuffer.length + body.length) a.rounds)
    (hsome : (sendBuffers a.rounds wbuffer body).isSome = true) :
    (∃ c', sendResponse cfg p a wbuffer body = some c' ∧
      Delivers (finish c' rest) (p.sent ++ (wbuffer ++ body))) ↔ Written cfg a p wbuffer body := by
  obtain ⟨m, hm, left, hsend, hleft⟩ := sendBuffers_spec hsize hpossible hsome
  have hlength : (wbuffer ++ body).length = wbuffer.length + body.length := List.length_append
  have hwrap : (wbuffer.length + body.length) % 2 ^ 32 = wbuffer.length + body.length :=
    Nat.mod_eq_of_lt (by omega)
  simp only [Written, hsend, Option.mem_def, Option.some.injEq, forall_eq', sendResponse,
    if_pos hcount, handlerResponse, Option.map_some, exists_eq_left', hwrap]
  by_cases hall : m = wbuffer.length + body.length
  · -- everything was written
    refine iff_of_true ?_ (.inl hall)
    rw [if_pos hall, hall, ← hlength, List.take_length]
    change Delivers (finish { p with sent := p.sent ++ (wbuffer ++ body) } rest) _
    rw [finish_iff]
    split
    · exact List.prefix_rfl
    · rw [Serving, if_pos (show p.count = 0 from hcount)]
      exact ⟨hwriting, rfl⟩
  rw [if_neg hall, or_iff_right hall]
  have hlt := Nat.lt_of_le_of_ne hm hall
  have hopen' : (p.isOpen && !a.closes) = !a.closes := by rw [hopen, Bool.true_and]
  exact harmless_iff (c := { p with
    sent := p.sent ++ (wbuffer ++ body).take m
    isOpen := p.isOpen && !a.closes }) hcount hopen' hfile hsize hlt rfl (hleft hlt)

/-! ### Files -/

theorem Serving.length_le (h : Serving c owed) : owed.length ≤ c.sent.length + c.count := by
  rw [Serving] at h
  split at h
  · rw [← h.2]
    exact Nat.le_add_right _ _
  · obtain ⟨-, file, -, -, -, rfl⟩ := h
    rw [List.length_append, List.length_take]
    omega

theorem checked_eq (r : Bool × Client) : ∃ error, checked r = { r.2 with error } := by
  rw [checked]
  split
  · exact ⟨true, rfl⟩
  · exact ⟨r.2.error, rfl⟩

/-- What `handlerWrite` leaves alone; no more is sent than is asked for. -/
structure Kept (c c' : Client) : Prop where
  isOpen : c'.isOpen = c.isOpen
  pipeline : c'.pipeline = c.pipeline
  looping : c'.looping = c.looping
  length : c'.sent.length + c'.count ≤ c.sent.length + c.count

theorem handlerWrite_kept {answer : Sendfile} {delete : Bool} {c' : Client}
    (htakes : Takes c.count answer) (h : handlerWrite c answer = some (delete, c')) :
    Kept c c' := by
  obtain ⟨file, -, h⟩ := Option.map_eq_some_iff.mp h
  cases answer with
  | failed =>
      obtain ⟨-, rfl⟩ := Prod.mk.inj h
      exact ⟨rfl, rfl, rfl, Nat.le_refl _⟩
  | again =>
      obtain ⟨-, rfl⟩ := Prod.mk.inj h
      exact ⟨rfl, rfl, rfl, Nat.le_refl _⟩
  | took value =>
      obtain ⟨hpos, hle⟩ := htakes
      have hsum : (c.sent ++ (file.drop c.start).take value).length + (c.count - value) ≤
          c.sent.length + c.count := by
        rw [List.length_append, List.length_take]
        omega
      dsimp only at h
      split_ifs at h
      all_goals
        obtain ⟨-, rfl⟩ := Prod.mk.inj h
        exact ⟨rfl, rfl, rfl, hsum⟩

/-- What is sent of a file is the next part of it. -/
theorem handlerWrite_took {file : Bytes} {value : Nat} (hsfd : c.sfd = some file)
    (hfile : file.length < 2 ^ 32) (hin : c.start + c.count ≤ file.length)
    (hle : value ≤ c.count) (howed : c.sent ++ (file.drop c.start).take c.count = owed) :
    ∃ delete c', handlerWrite c (.took value) = some (delete, c') ∧ c'.sent <+: owed ∧
      (delete = true → c'.count = 0 ∧ c'.writing = c.writing ∧ c'.sent = owed) ∧
      (delete = false → Serving c' owed) := by
  have htake : (file.drop c.start).take c.count = (file.drop c.start).take value ++
      (file.drop (c.start + value)).take (c.count - value) := by
    conv_lhs => rw [← Nat.add_sub_cancel' hle, List.take_add, List.drop_drop]
  have hprefix : c.sent ++ (file.drop c.start).take value <+: owed := by
    rw [← howed, htake, ← List.append_assoc]
    exact List.prefix_append _ _
  simp only [handlerWrite, hsfd, Option.map_some]
  by_cases hrest : 0 < c.count - value
  · rw [if_pos hrest]
    refine ⟨false, _, rfl, hprefix, nofun, fun _ => ?_⟩
    have hwrap : (c.start + value) % 2 ^ 32 = c.start + value := Nat.mod_eq_of_lt (by omega)
    rw [Serving, if_neg (Nat.ne_of_gt hrest)]
    refine ⟨rfl, file, rfl, hfile, ?_, ?_⟩
    · dsimp only
      rw [hwrap]
      omega
    · dsimp only
      rw [hwrap, List.append_assoc, ← htake, howed]
  · have hall : c.count - value = 0 := by omega
    have hsent : c.sent ++ (file.drop c.start).take value = owed := by
      rw [← howed, htake, hall, List.take_zero, List.append_nil]
    rw [if_neg hrest]
    split
    · exact ⟨true, _, rfl, hprefix, fun _ => ⟨hall, rfl, hsent⟩, nofun⟩
    · refine ⟨false, _, rfl, hprefix, nofun, fun _ => ?_⟩
      rw [Serving, if_pos hall]
      exact ⟨rfl, hsent⟩

/-- A response that is sent from a file gets to the connection under its
condition. -/
theorem started_iff {file wbuffer : Bytes} (hsfd : p.sfd = some file) (hfile : file.length < 2 ^ 32)
    (hcount : p.count ≠ 0) (hin : p.start + p.count ≤ file.length) (hwriting : p.writing = false)
    (hopen : p.isOpen = true) (herror : p.error = false)
    (hpossible : Possible wbuffer.length a.rounds)
    (hsome : (write a.rounds wbuffer 0).2.isSome = true) (htakes : Takes p.count a.sendfile) :
    (∃ c', sendResponse cfg p a wbuffer [] = some c' ∧
      Delivers (finish c' rest) (p.sent ++ (wbuffer ++ (file.drop p.start).take p.count))) ↔
        Started a p wbuffer := by
  obtain ⟨m, hm, htaken, hreturned⟩ := write_spec 0 hpossible
  obtain ⟨n, hn⟩ := Option.isSome_iff_exists.mp hsome
  obtain rfl := (hreturned n hn).trans (Nat.zero_add m)
  -- nothing is lost where the connection is given up, and else `op_mask` would have to be set
  have hgiven : ∀ q : Client, q.count ≠ 0 → q.writing = false →
      q.sent <+: p.sent ++ (wbuffer ++ (file.drop p.start).take p.count) →
      (Delivers (finish q rest) (p.sent ++ (wbuffer ++ (file.drop p.start).take p.count)) ↔
        GivenUp q) := by
    intro q hqc hqw hprefix
    rw [finish_iff]
    split
    · next hgone => exact iff_of_true hprefix hgone
    · next halive =>
      refine iff_of_false (fun h => ?_) halive
      rw [Serving, if_neg hqc, hqw] at h
      cases h.1
  have hsend : sendResponse cfg p a wbuffer [] =
      if n = wbuffer.length then
        (handlerWrite { p with sent := p.sent ++ wbuffer.take n } a.sendfile).map checked
      else some { p with
        sent := p.sent ++ wbuffer.take n
        error := true
        isOpen := p.isOpen && !a.closes } := by
    rw [sendResponse, if_neg hcount, if_neg (by simp [hwriting])]
    simp only [hn, htaken, Option.bind_some]
  have hwhole : (write a.rounds wbuffer 0).2 = some wbuffer.length ↔ n = wbuffer.length := by
    rw [hn, Option.some.injEq]
  rw [hsend, Started]
  by_cases hall : n = wbuffer.length
  · rw [if_pos hall, if_pos (hwhole.mpr hall), hall, List.take_length]
    set q : Client := { p with sent := p.sent ++ wbuffer } with hq
    have howed : q.sent ++ (file.drop q.start).take q.count =
        p.sent ++ (wbuffer ++ (file.drop p.start).take p.count) := List.append_assoc _ _ _
    have hprefix : q.sent <+: p.sent ++ (wbuffer ++ (file.drop p.start).take p.count) :=
      howed ▸ List.prefix_append _ _
    cases hanswer : a.sendfile with
    | failed =>
        have hwrite : handlerWrite q .failed = some (true, q) := by simp [handlerWrite, hq, hsfd]
        simp only [hwrite, Option.map_some, Option.some.injEq, exists_eq_left', checked, if_true]
        refine (hgiven { q with error := true } hcount hwriting hprefix).trans ?_
        simp [GivenUp, hq, hopen]
    | again =>
        have hwrite : handlerWrite q .again = some (false, q) := by simp [handlerWrite, hq, hsfd]
        simp only [hwrite, Option.map_some, Option.some.injEq, exists_eq_left', checked,
          Bool.false_eq_true, if_false]
        refine (hgiven q hcount hwriting hprefix).trans ?_
        simp [GivenUp, hq, hopen, herror]
    | took value =>
        rw [hanswer] at htakes
        obtain ⟨delete, q', hwrite, hprefix', hdone, hserving⟩ :=
          handlerWrite_took (c := q) hsfd hfile hin htakes.2 howed
        have hserving' : Serving q' (p.sent ++ (wbuffer ++ (file.drop p.start).take p.count)) := by
          cases delete with
          | false => exact hserving rfl
          | true =>
              obtain ⟨hzero, hidle, hsent⟩ := hdone rfl
              rw [Serving, if_pos hzero]
              exact ⟨hidle.trans hwriting, hsent⟩
        obtain ⟨error, heq⟩ := checked_eq (delete, q')
        refine iff_of_true ⟨_, by rw [hwrite, Option.map_some], ?_⟩ ⟨nofun, nofun⟩
        rw [heq, finish_iff]
        split
        · exact hprefix'
        · exact hserving'
  · rw [if_neg hall, if_neg (mt hwhole.mp hall)]
    simp only [Option.some.injEq, exists_eq_left']
    refine (hgiven { p with
      sent := p.sent ++ wbuffer.take n
      error := true
      isOpen := p.isOpen && !a.closes } hcount hwriting ?_).trans ?_
    · exact (List.prefix_append_right_inj _).mpr
        ((List.take_prefix _ _).trans (List.prefix_append _ _))
    · simp [GivenUp, hopen]

/-! ### The step -/

/-- One request behind which nothing is left of an earlier response. -/
theorem idle_iff {r : Response} (hcount : c.count = 0) (hwriting : c.writing = false)
    (hopen : c.isOpen = true) (hvalid : Valid c r a) :
    (∃ c', handleRequest cfg c a r rest = some c' ∧ Delivers c' (c.sent ++ r.bytes)) ↔
      ∀ o ∈ r.output,
        if (prepared c r rest).count = 0 then Written cfg a (prepared c r rest) o.1 o.2
        else Started a (prepared c r rest) o.1 := by
  simp only [handleRequest, Option.map_eq_some_iff, exists_exists_and_eq_and]
  cases r with
  | off error =>
      refine iff_of_true ⟨_, rfl, ?_⟩ nofun
      rw [finish_iff, Response.bytes, List.append_nil]
      split
      · exact List.prefix_rfl
      · rw [Serving, if_pos (show (prepared c (.off error) rest).count = 0 from hcount)]
        exact ⟨hwriting, rfl⟩
  | closed =>
      refine iff_of_true ⟨_, rfl, ?_⟩ nofun
      rw [finish_iff, if_pos (.inl rfl)]
      exact List.prefix_append _ _
  | memory error reset wbuffer body mapped =>
      obtain ⟨-, hsize, hpossible, hsome, -, hmapped, -⟩ := hvalid
      simp only [Response.output, Option.mem_def, Option.some.injEq, forall_eq']
      set p := prepared c (.memory error reset wbuffer body mapped) rest
      rw [if_pos (show p.count = 0 from hcount)]
      refine written_iff (p := p) hcount hwriting hopen (fun file hfile => ?_) hsize hpossible hsome
      obtain ⟨m, hm, rfl⟩ := Option.map_eq_some_iff.mp hfile
      exact hmapped m hm
  | sendfile wbuffer file start count close =>
      obtain ⟨-, -, hpossible, hsome, hpos, hin, hfile, htakes⟩ := hvalid
      simp only [Response.output, Option.mem_def, Option.some.injEq, forall_eq']
      set p := prepared c (.sendfile wbuffer file start count close) rest
      have hcount' : p.count ≠ 0 := Nat.ne_of_gt hpos
      rw [if_neg hcount']
      exact started_iff (p := p) rfl hfile hcount' hin hwriting hopen rfl hpossible hsome htakes

/-- Behind a rest that is still to be sent nothing is written but that. -/
theorem length_le_of_pending (hcount : p.count ≠ 0) (hwriting : p.writing = true)
    (hopen : p.isOpen = true) (hpipeline : p.pipeline = true) (htakes : Takes p.count a.sendfile)
    {wbuffer body : Bytes} {c' : Client}
    (hsend : sendResponse cfg p a wbuffer body = some c')
    (hdelivers : Delivers (finish c' rest) owed) : owed.length ≤ p.sent.length + p.count := by
  rw [sendResponse, if_neg hcount, if_pos hwriting] at hsend
  obtain ⟨⟨delete, q⟩, hwrite, rfl⟩ := Option.map_eq_some_iff.mp hsend
  have hkept := handlerWrite_kept htakes hwrite
  obtain ⟨error, heq⟩ := checked_eq (delete, q)
  have halive : ¬ GivenUp { q with error } := by
    rintro (h | ⟨-, h⟩)
    · exact absurd (hkept.isOpen.trans hopen) (by simpa using h)
    · exact absurd (hkept.pipeline.trans hpipeline) (by simpa using h)
  rw [heq, finish_iff, if_neg halive] at hdelivers
  exact Nat.le_trans hdelivers.length_le hkept.length

/-- A request behind a response of which a rest is in a file. -/
theorem pending_iff {r : Response} {file : Bytes} (hcount : c.count ≠ 0)
    (hwriting : c.writing = true) (hopen : c.isOpen = true) (hlooping : c.looping = true)
    (hpipeline : c.pipeline = true) (hin : c.start + c.count ≤ file.length) (hvalid : Valid c r a) :
    (∃ c', handleRequest cfg c a r rest = some c' ∧
      Delivers c' (c.sent ++ (file.drop c.start).take c.count ++ r.bytes)) ↔ r = .closed := by
  have hrest : (c.sent ++ (file.drop c.start).take c.count ++ r.bytes).length =
      c.sent.length + c.count + r.bytes.length := by
    rw [List.length_append, List.length_append, List.length_take, List.length_drop]
    omega
  have hkeep : (if c.looping then c.pipeline else rest ≠ Rest.nothing) = true := by
    rw [if_pos hlooping, hpipeline]
  constructor
  · rintro ⟨c', hrequest, hdelivers⟩
    obtain ⟨c', hsend, rfl⟩ := Option.map_eq_some_iff.mp hrequest
    cases r with
    | closed => rfl
    | off error =>
        obtain rfl := Option.some.inj hsend
        have halive : ¬ GivenUp (prepared c (.off error) rest) := by
          rintro (h | ⟨-, h⟩)
          · exact absurd hopen (by simpa [prepared] using h)
          · exact absurd hpipeline (by simpa [prepared, hlooping] using h)
        rw [finish_iff, if_neg halive, Serving,
          if_neg (show (prepared c (.off error) rest).count ≠ 0 from hcount)] at hdelivers
        exact nomatch hdelivers.2.choose_spec.1
    | memory error reset wbuffer body mapped =>
        obtain ⟨hne, -, -, -, htakes, -, hnone⟩ := hvalid
        have hpos := List.length_pos_iff.mpr hne
        set p := prepared c (.memory error reset wbuffer body mapped) rest with hp
        cases reset with
        | true =>
            have hsfd : p.sfd = none := by
              rw [hp, hnone rfl]
              rfl
            have hundefined : sendResponse cfg p a wbuffer body = none := by
              rw [sendResponse, if_neg (show p.count ≠ 0 from hcount),
                if_pos (show p.writing = true from hwriting), handlerWrite, hsfd]
              rfl
            exact nomatch hundefined.symm.trans hsend
        | false =>
            have hle := length_le_of_pending (p := p) hcount hwriting hopen
              ((Bool.and_true _).trans hkeep) htakes hsend hdelivers
            rw [hrest] at hle
            simp only [Response.bytes, List.length_append] at hle
            change _ ≤ c.sent.length + c.count at hle
            omega
    | sendfile wbuffer file' start count close =>
        obtain ⟨hne, -, -, -, hpos, hin', -, htakes⟩ := hvalid
        have hwpos := List.length_pos_iff.mpr hne
        have hle := length_le_of_pending
          (p := prepared c (.sendfile wbuffer file' start count close) rest) (Nat.ne_of_gt hpos)
          hwriting hopen hkeep htakes hsend hdelivers
        rw [hrest] at hle
        simp only [Response.bytes, List.length_append, List.length_take, List.length_drop] at hle
        change _ ≤ c.sent.length + count at hle
        omega
  · rintro rfl
    refine ⟨_, rfl, ?_⟩
    rw [finish_iff, if_pos (.inl rfl), Response.bytes, List.append_nil]
    exact List.prefix_append _ _

/-- One request does what the client is owed exactly under the condition. -/
theorem handleRequest_iff {r : Response} (hdelivers : Delivers c owed)
    (henabled : Enabled c (.request r a rest)) (hvalid : Valid c r a) :
    (∃ c', handleRequest cfg c a r rest = some c' ∧ Delivers c' (owed ++ r.bytes)) ↔
      Orderly cfg c (.request r a rest) := by
  obtain ⟨hopen, hidle⟩ := henabled
  rw [Delivers, if_pos hopen] at hdelivers
  obtain ⟨hlooping, hserving⟩ := hdelivers
  rw [Orderly]
  by_cases hcount : c.count = 0
  · rw [Serving, if_pos hcount] at hserving
    obtain ⟨hwriting, rfl⟩ := hserving
    rw [if_pos hcount]
    exact idle_iff hcount hwriting hopen hvalid
  · rw [Serving, if_neg hcount] at hserving
    obtain ⟨hwriting, file, -, -, hin, rfl⟩ := hserving
    have hloop : c.looping = true := by
      by_contra h
      exact absurd hwriting (by simp [hidle (Bool.eq_false_iff.mpr h)])
    rw [if_neg hcount]
    exact pending_iff hcount hwriting hopen hloop (hlooping hloop) hin hvalid

/-- The socket can be written again. -/
theorem writable_delivers {answer : Sendfile} (hdelivers : Delivers c owed)
    (henabled : Enabled c (.writable answer)) (htakes : Takes c.count answer) :
    ∃ c', step cfg c (.writable answer) = some ((), c') ∧ Delivers c' owed := by
  obtain ⟨hopen, hlooping, hwriting⟩ := henabled
  rw [Delivers, if_pos hopen] at hdelivers
  obtain ⟨hpipeline, hserving⟩ := hdelivers
  rw [Serving] at hserving
  split at hserving
  · exact absurd hwriting (by simp [hserving.1])
  obtain ⟨-, file, hsfd, hfile, hin, howed⟩ := hserving
  have hprefix : c.sent <+: owed := howed ▸ List.prefix_append _ _
  cases answer with
  | failed =>
      refine ⟨handlerDelete c, ?_, handlerDelete_iff.mpr hprefix⟩
      simp only [step, handlerWrite, hsfd, Option.map_some, if_true]
  | again =>
      refine ⟨c, by simp only [step, handlerWrite, hsfd, Option.map_some, Bool.false_eq_true,
        if_false], ?_⟩
      rw [Delivers, if_pos hopen, Serving, if_neg ‹_›]
      exact ⟨hpipeline, hwriting, file, hsfd, hfile, hin, howed⟩
  | took value =>
      obtain ⟨delete, c', hwrite, hprefix', -, hserving⟩ :=
        handlerWrite_took hsfd hfile hin htakes.2 howed
      have hkept := handlerWrite_kept htakes hwrite
      refine ⟨if delete then handlerDelete c' else c', by simp only [step, hwrite, Option.map_some],
        ?_⟩
      cases delete with
      | true => exact handlerDelete_iff.mpr hprefix'
      | false =>
          change Delivers c' owed
          rw [Delivers, if_pos (hkept.isOpen.trans hopen)]
          exact ⟨fun h => hkept.pipeline.trans (hpipeline (hkept.looping ▸ h)), hserving rfl⟩

/-- The object is used for another connection. -/
theorem accept_iff (hdelivers : Delivers c owed) (henabled : Enabled c .accept) :
    Delivers { c with isOpen := true, pipeline := false, sent := [] } [] ↔
      c.writing = false := by
  rw [Delivers, if_neg (Bool.eq_false_iff.mp henabled)] at hdelivers
  obtain ⟨hlooping, hcount, -⟩ := hdelivers
  rw [Delivers, if_pos rfl, Serving, if_pos (by simpa using hcount)]
  simp [hlooping]

/-- What a step makes of a connection that gets what it is owed. -/
theorem step_iff {i : Event} (hdelivers : Delivers c owed) (hproper : Proper c i) :
    (∃ r c', step cfg c i = some (r, c') ∧ Delivers c' (next owed i)) ↔ Orderly cfg c i := by
  obtain ⟨henabled, hvalid⟩ := hproper
  cases i with
  | accept =>
      refine Iff.trans ⟨?_, fun h => ⟨(), _, rfl, h⟩⟩ (accept_iff hdelivers henabled)
      rintro ⟨r, c', hstep, h⟩
      obtain ⟨-, rfl⟩ := Prod.mk.inj (Option.some.inj hstep)
      exact h
  | request r a rest =>
      rw [← handleRequest_iff hdelivers henabled hvalid]
      constructor
      · rintro ⟨u, c', hstep, h⟩
        obtain ⟨c'', hrequest, heq⟩ := Option.map_eq_some_iff.mp hstep
        obtain ⟨-, rfl⟩ := Prod.mk.inj heq
        exact ⟨c'', hrequest, h⟩
      · rintro ⟨c', hrequest, h⟩
        exact ⟨(), c', by rw [step, hrequest, Option.map_some], h⟩
  | writable answer =>
      refine iff_of_true ?_ trivial
      obtain ⟨c', hstep, h⟩ := @writable_delivers cfg c owed answer hdelivers henabled hvalid
      exact ⟨(), c', hstep, h⟩
  | hangup =>
      refine iff_of_true ⟨(), _, rfl, handlerDelete_iff.mpr ?_⟩ trivial
      rw [Delivers, if_pos henabled.1, Serving] at hdelivers
      obtain ⟨-, hserving⟩ := hdelivers
      split at hserving
      · exact hserving.2 ▸ List.prefix_rfl
      · obtain ⟨-, file, -, -, -, howed⟩ := hserving
        exact howed ▸ List.prefix_append _ _

/-! ### Connections -/

end ULib.ResponseDelivery
