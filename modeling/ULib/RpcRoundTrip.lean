import Mathlib.Tactic.Common
import ULib.RpcFraming

/-!
What `readTokenVector` makes of the bytes of `buildTokenVector`. With the whole
message in the buffer it reads every vector without empty strings; but for every
vector the message can arrive in pieces so that it does not.
-/

namespace ULib.RpcRoundTrip

open ULib.KeyComparison
open ULib.EscapeCoding
open ULib.JsonValue
open ULib.RpcFraming

/-! ### Numbers -/

theorem u_hexc2int_hexUpper {d : Nat} (h : d < 16) : u_hexc2int (hexUpper d.toUInt8) = d := by
  have hall : ∀ d : Fin 16, u_hexc2int (hexUpper d.val.toUInt8) = d := by decide
  exact hall ⟨d, h⟩

theorem hex_step {n : Nat} (hn : n < 2 ^ 32) (s : Nat) :
    (((n >>> (s + 4)) <<< 4) % 2 ^ 32) ||| u_hexc2int (hexUpper ((n >>> s) % 16).toUInt8) =
      n >>> s := by
  rw [u_hexc2int_hexUpper (Nat.mod_lt _ (by decide)), Nat.shiftRight_add]
  generalize hm : n >>> s = m
  have hle : m ≤ n := by
    rw [← hm, Nat.shiftRight_eq_div_pow]
    exact Nat.div_le_self n _
  rw [Nat.shiftRight_eq_div_pow, Nat.shiftLeft_eq, Nat.mod_eq_of_lt (by omega), Nat.mul_comm,
    ← Nat.two_pow_add_eq_or_of_lt (Nat.mod_lt _ (by decide)) (m / 2 ^ 4)]
  omega

theorem u_hex2int_u_int2hex {n : Nat} (hn : n < 2 ^ 32) : u_hex2int (u_int2hex n) = n := by
  have hzero : (0 : Nat) = n >>> (28 + 4) := by
    rw [Nat.shiftRight_eq_div_pow]
    exact (Nat.div_eq_of_lt hn).symm
  simp only [u_hex2int, u_int2hex, List.map_cons, List.map_nil, List.foldl_cons, List.foldl_nil]
  nth_rewrite 1 [hzero]
  rw [hex_step hn 28, hex_step hn 24, hex_step hn 20, hex_step hn 16, hex_step hn 12,
    hex_step hn 8, hex_step hn 4, hex_step hn 0]
  rfl

theorem length_u_int2hex (n : Nat) : (u_int2hex n).length = 8 := rfl

/-! ### The message -/

def packet (token : Bytes) (n : Nat) : Bytes := token ++ u_int2hex n

def strings (vec : List Bytes) : Bytes := (vec.map fun s => packet argv s.length ++ s).flatten

/-- The bytes of a vector. -/
def message (token : Bytes) (vec : List Bytes) : Bytes := packet token vec.length ++ strings vec

theorem strings_cons (s : Bytes) (vec : List Bytes) :
    strings (s :: vec) = packet argv s.length ++ s ++ strings vec := rfl

theorem strings_append (us vs : List Bytes) : strings (us ++ vs) = strings us ++ strings vs := by
  rw [strings, List.map_append, List.flatten_append]
  rfl

theorem length_packet {token : Bytes} (h : token.length = tokenNm) (n : Nat) :
    (packet token n).length = tokenLn := by
  rw [packet, List.length_append, h, length_u_int2hex]
  rfl

theorem length_argv (n : Nat) : (packet argv n).length = tokenLn := length_packet rfl n

theorem length_le_strings (vec : List Bytes) : vec.length ≤ (strings vec).length := by
  induction vec with
  | nil => exact Nat.le_refl 0
  | cons s vec ih =>
      rw [strings_cons, List.length_append, List.length_append, length_argv, List.length_cons]
      simp only [tokenLn, tokenNm]
      omega

theorem mem_length_le_strings {s : Bytes} {vec : List Bytes} (h : s ∈ vec) :
    s.length ≤ (strings vec).length := by
  induction vec with
  | nil => cases h
  | cons t vec ih =>
      rw [strings_cons, List.length_append, List.length_append]
      rcases List.mem_cons.mp h with rfl | h
      · omega
      · have := ih h
        omega

theorem buildTokenInt_eq {token : Bytes} (h : token.length = tokenNm) {n : Nat} {b b' : UString}
    (hbuild : buildTokenInt token n b = some b') : b'.data = b.data ++ packet token n := by
  unfold buildTokenInt at hbuild
  split at hbuild
  · cases hbuild
    rw [List.take_of_length_le (Nat.le_of_eq h), packet, List.append_assoc]
  · cases hbuild

theorem data_append (b : UString) (s : Bytes) :
    (append b s).data = b.data ++ s := by
  unfold append
  split
  · next h => rw [h, List.append_nil]
  · rfl

theorem buildTokenString_eq {s : Bytes} {b b' : UString}
    (hs : s.length < 2 ^ 32) (hbuild : buildTokenString argv s b = some b') :
    b'.data = b.data ++ (packet argv s.length ++ s) := by
  simp only [buildTokenString, Option.bind_eq_bind, Option.bind_eq_some_iff, Option.some.injEq]
    at hbuild
  obtain ⟨b₁, hint, rfl⟩ := hbuild
  rw [data_append, buildTokenInt_eq rfl hint, Nat.mod_eq_of_lt hs, List.append_assoc]

/-- Each string is written behind the others. -/
theorem foldlM_buildTokenString {vec : List Bytes} {b b' : UString}
    (hvec : ∀ s ∈ vec, s.length < 2 ^ 32)
    (hbuild : vec.foldlM (fun b s => buildTokenString argv s b) b = some b') :
    b'.data = b.data ++ strings vec := by
  induction vec generalizing b with
  | nil =>
      cases hbuild
      exact (List.append_nil _).symm
  | cons s vec ih =>
      rw [List.foldlM_cons] at hbuild
      obtain ⟨b₁, hb₁, hbuild⟩ := Option.bind_eq_some_iff.mp hbuild
      rw [ih (fun t ht => hvec t (List.mem_cons_of_mem s ht)) hbuild,
        buildTokenString_eq (hvec s List.mem_cons_self) hb₁, List.append_assoc, strings_cons]

theorem buildTokenVector_eq {token : Bytes} {vec : List Bytes}
    {b b' : UString} (htoken : token.length = tokenNm) (hempty : b.data = [])
    (hsize : (message token vec).length < 2 ^ 32)
    (hbuild : buildTokenVector token vec b = some b') : b'.data = message token vec := by
  rw [message, List.length_append] at hsize
  simp only [buildTokenVector, Option.bind_eq_bind, Option.bind_eq_some_iff] at hbuild
  obtain ⟨b₁, hint, hbuild⟩ := hbuild
  have hcount := length_le_strings vec
  rw [foldlM_buildTokenString (fun s hs => ?_) hbuild, buildTokenInt_eq htoken hint, hempty,
    List.nil_append, Nat.mod_eq_of_lt (by omega), message]
  have := mem_length_le_strings hs
  omega

/-! ### Reading what is in the buffer -/

section Buffered

variable {fuel : Nat} {s : Socket} {b : UString} {pre post : Bytes}

theorem available_buffered (hb : b.data.length < 2 ^ 32) {rstart n : Nat}
    (h : rstart + n ≤ b.data.length) :
    available fuel s b rstart n = some (true, b, s) := by
  rw [available, Nat.mod_eq_of_lt (by omega), if_pos h]

theorem readTokenInt_buffered {token : Bytes} {expected : Option Bytes} {n : Nat}
    (hb : b.data.length < 2 ^ 32) (htoken : token.length = tokenNm)
    (hexpected : expected = none ∨ expected = some token) (hn : n < 2 ^ 32)
    (hbytes : b.data = pre ++ (packet token n ++ post)) :
    readTokenInt fuel s expected b pre.length =
      some ⟨n, pre.length + tokenLn, b, s⟩ := by
  have hsize : pre.length + tokenLn ≤ b.data.length := by
    rw [hbytes, List.length_append, List.length_append, length_packet htoken]
    omega
  have hname : (b.data.drop pre.length).take tokenNm = token := by
    rw [hbytes, List.drop_left, packet, List.append_assoc, ← htoken, List.take_left]
  have hvalue : (b.data.drop (pre.length + tokenNm)).take 8 = u_int2hex n := by
    rw [hbytes, ← List.drop_drop, List.drop_left, packet, List.append_assoc, ← htoken,
      List.drop_left, ← length_u_int2hex n, List.take_left]
  have htake : token.take tokenNm = token := List.take_of_length_le (Nat.le_of_eq htoken)
  have hmatch : expected = none ∨ expected.map (List.take tokenNm) = some token := by
    rcases hexpected with h | h
    · exact Or.inl h
    · rw [h, Option.map_some, htake]
      exact Or.inr rfl
  rw [readTokenInt, available_buffered hb hsize]
  simp only [Option.bind_eq_bind, Option.bind_some, hname, hvalue, u_hex2int_u_int2hex hn,
    true_and, if_pos hmatch]

theorem readTokenString_buffered {data x : Bytes} (hb : b.data.length < 2 ^ 32) (hx : x ≠ [])
    (hbytes : b.data = pre ++ (packet argv x.length ++ x ++ post)) :
    readTokenString fuel s (some argv) b pre.length data =
      some (⟨x.length, (pre ++ (packet argv x.length ++ x)).length, b, s⟩, x) := by
  have hsize : b.data.length = pre.length + tokenLn + x.length + post.length := by
    rw [hbytes]
    simp only [List.length_append, length_argv]
    omega
  have hint : readTokenInt fuel s (some argv) b pre.length =
      some ⟨x.length, pre.length + tokenLn, b, s⟩ :=
    readTokenInt_buffered hb rfl (Or.inr rfl) (by omega)
      (by rw [hbytes, List.append_assoc])
  rw [readTokenString, hint]
  have hne : x.length ≠ 0 := fun h => hx (List.length_eq_zero_iff.mp h)
  have hdata : (b.data.drop (pre.length + tokenLn)).take x.length = x := by
    rw [hbytes, ← List.drop_drop, List.drop_left, List.append_assoc, ← length_argv x.length,
      List.drop_left, List.take_left]
  simp only [Option.bind_eq_bind, Option.bind_some, if_neg hne,
    available_buffered hb (show pre.length + tokenLn + x.length ≤ b.data.length by omega), if_true,
      hdata]
  simp only [List.length_append, length_argv, Nat.add_assoc]

/-- Strings that are not empty are read one after the other. -/
theorem readStrings_buffered {vec : List Bytes} (hb : b.data.length < 2 ^ 32)
    (hvec : ∀ x ∈ vec, x ≠ [])
    (hbytes : b.data = pre ++ (strings vec ++ post)) (left : Nat) (data : Bytes)
    (acc : List Bytes) : ∃ data',
    readStrings fuel (vec.length + left) s b pre.length data acc =
      readStrings fuel left s b (pre ++ strings vec).length data' (acc ++ vec) := by
  induction vec generalizing pre data acc with
  | nil =>
      refine ⟨data, ?_⟩
      rw [List.append_nil, strings, List.map_nil, List.flatten_nil, List.append_nil,
        List.length_nil,
        Nat.zero_add]
  | cons x vec ih =>
      have hx := hvec x List.mem_cons_self
      rw [strings_cons, List.append_assoc] at hbytes
      have hrest : b.data = pre ++ (packet argv x.length ++ x) ++ (strings vec ++ post) := by
        rw [hbytes, ← List.append_assoc pre]
      obtain ⟨data', hread⟩ := ih (fun y hy => hvec y (List.mem_cons_of_mem x hy)) hrest x
          (acc ++ [x])
      refine ⟨data', ?_⟩
      have hne : x.length ≠ 0 := fun h => hx (List.length_eq_zero_iff.mp h)
      rw [List.length_cons, Nat.add_right_comm, readStrings, readTokenString_buffered hb hx hbytes]
      simp only [Option.bind_eq_bind, Option.bind_some, if_neg hne]
      rw [hread, strings_cons, List.append_assoc pre, List.append_assoc acc]
      rfl

/-- An empty string ends the reading. -/
theorem readStrings_empty {left : Nat} {data : Bytes} {acc : List Bytes}
    (hb : b.data.length < 2 ^ 32)
    (hbytes : b.data = pre ++ (packet argv 0 ++ post)) :
    readStrings fuel (left + 1) s b pre.length data acc =
      some (pre.length + tokenLn, acc, b, s) := by
  rw [readStrings, readTokenString, readTokenInt_buffered hb rfl (Or.inr rfl) (by decide) hbytes]
  rfl

end Buffered

/-- The strings before the first empty one. -/
theorem exists_empty {vec : List Bytes} (h : ¬ ∀ x ∈ vec, x ≠ []) :
    ∃ us ws, vec = us ++ [] :: ws ∧ ∀ x ∈ us, x ≠ [] := by
  induction vec with
  | nil => exact absurd (fun x hx => nomatch hx) h
  | cons x vec ih =>
      by_cases hx : x = []
      · exact ⟨[], vec, by rw [hx]; rfl, fun y hy => nomatch hy⟩
      · obtain ⟨us, ws, rfl, hus⟩ := ih fun hall => h fun y hy => by
          rcases List.mem_cons.mp hy with rfl | hy
          · exact hx
          · exact hall y hy
        refine ⟨x :: us, ws, rfl, fun y hy => ?_⟩
        rcases List.mem_cons.mp hy with rfl | hy
        · exact hx
        · exact hus y hy

/-! ### Reading too much -/

/-- The bytes that are still to come. -/
def Event.bytes : Event → Bytes
  | .data b => b
  | .pause => []

def pending (events : List Event) : Bytes := (events.map Event.bytes).flatten

theorem recvFrom_pending {n : Nat} {timeoutMS : Int} {events events' : List Event} {r : Received}
    (h : recvFrom n timeoutMS events = some (r, events')) (htimeout : timeoutMS < 0) :
    ∃ got, r = .bytes got ∧ pending events = got ++ pending events' := by
  induction events with
  | nil =>
      rw [recvFrom, if_pos htimeout] at h
      cases h
  | cons event events ih =>
      cases event with
      | pause =>
          rw [recvFrom, if_pos htimeout] at h
          exact ih h
      | data x =>
          rw [recvFrom] at h
          split at h
          · cases h
            refine ⟨_, rfl, ?_⟩
            show x ++ pending events = x.take n ++ (x.drop n ++ pending events)
            rw [← List.append_assoc, List.take_append_drop]
          · cases h
            exact ⟨_, rfl, rfl⟩

/-- What is asked for does not come: `read` does not return with success. -/
theorem readLoop_short {start fuel ncount : Nat} {count timeoutMS : Int}
    {b b' : UString} {byteRead : Bytes} {s s' : Socket} {ok : Bool}
    (h : readLoop start count fuel b byteRead ncount timeoutMS s = some (ok, b', s'))
    (htimeout : timeoutMS < 0)
    (hshort : (byteRead.length + (pending s.events).length : Int) < count) : ok = false := by
  induction fuel generalizing b byteRead ncount s with
  | zero => cases h
  | succ fuel ih =>
      rw [readLoop] at h
      obtain ⟨⟨received, s₁⟩, hrecv, h⟩ := Option.bind_eq_some_iff.mp h
      unfold recv at hrecv
      split at hrecv
      · obtain ⟨⟨r, events⟩, hfrom, hrecv⟩ := Option.bind_eq_some_iff.mp hrecv
        cases hrecv
        obtain ⟨got, rfl, hpending⟩ := recvFrom_pending hfrom htimeout
        rw [hpending, List.length_append] at hshort
        dsimp only at h
        split at h
        · cases h
          rfl
        split at h
        · cases h
        split at h
        · refine ih h ?_
          simp only [List.length_append]
          omega
        · next hcount =>
            simp only [List.length_append] at hcount
            omega
      · cases hrecv
        cases h
        rfl

theorem read_short {fuel : Nat} {count : Int} {b b' : UString} {s s' : Socket}
    {ok : Bool} (h : read fuel s b count = some (ok, b', s'))
    (hshort : ((pending s.events).length : Int) < count) : ok = false := by
  unfold RpcFraming.read at h
  dsimp only at h
  split at h
  · exact readLoop_short h (by decide) (by simpa using hshort)
  · exact readLoop_short h (by decide) (by simpa using hshort)

theorem data_reserve (b : UString) (n : Nat) :
    (reserve b n).data = b.data := by
  unfold reserve
  split <;> rfl

section Negative

variable {fuel ncount : Nat} {count : Int} {b b' : UString} {x : UInt8}
  {events : List Event} {s' : Socket}

/-- A string that is longer than an `int` counts: one byte is enough. -/
theorem readLoop_negative (hcount : count < 0)
    (h : readLoop b.data.length count fuel b [] ncount (-1) ⟨.data [x] :: .pause :: events, true⟩ =
      some (true, b', s')) : b'.data = b.data ++ [x] := by
  have htake : b.data.take b.data.length = b.data := List.take_length
  cases fuel with
  | zero => cases h
  | succ fuel =>
      rw [readLoop] at h
      obtain ⟨⟨received, s₁⟩, hrecv, h⟩ := Option.bind_eq_some_iff.mp h
      by_cases hzero : ncount < 1
      · obtain rfl : ncount = 0 := by omega
        cases hrecv
        cases h
      · have hgot : recv ncount (-1) ⟨.data [x] :: .pause :: events, true⟩ =
            some (.bytes [x], ⟨.pause :: events, true⟩) := by
          rw [recv, if_pos rfl, recvFrom, List.length_singleton, if_neg hzero]
          rfl
        cases hgot.symm.trans hrecv
        simp only [List.length_cons, List.length_nil, Nat.succ_ne_zero, if_false, List.nil_append]
          at h
        split at h
        · cases h
        rw [if_neg (by omega)] at h
        split at h
        · cases fuel with
          | zero => cases h
          | succ fuel =>
              rw [readLoop] at h
              cases h
              rw [data_reserve, htake]
        · cases h
          rw [htake]

theorem read_negative (hcount : count < 0)
    (h : read fuel ⟨.data [x] :: .pause :: events, true⟩ b count = some (true, b', s')) :
    b'.data = b.data ++ [x] := by
  unfold RpcFraming.read at h
  dsimp only at h
  split at h
  · rw [← data_reserve b]
    exact readLoop_negative hcount h
  · exact readLoop_negative hcount h

end Negative

/-! ### The round trip -/

/-- The bytes of the message are in the buffer, or arrive one after the other. -/
structure Split (msg : Bytes) (b : UString) (events : List Event) : Prop where
  bytes : b.data ++ pending events = msg
  arrives : ∀ x, .data x ∈ events → x ≠ []
  room : b.data.length ≤ b.capacity
  capacity : b.capacity < 2 ^ 32

/-- The vector is read back, and the length that is returned is that of the message. -/
def ReadsBack (expected : Option Bytes) (vec : List Bytes) (msg : Bytes)
    (b : UString) (events : List Event) : Prop :=
  ∃ fuel b' s', readTokenVector fuel ⟨events, true⟩ expected b =
    some (msg.length, vec, b', s')

section RoundTrip

variable {token : Bytes} {expected : Option Bytes} {vec : List Bytes}
  {b : UString} {events : List Event} (htoken : token.length = tokenNm)
  (hexpected : expected = none ∨ expected = some token)

include htoken hexpected

/-- The header of the vector is in the buffer, and some strings that are not empty. -/
theorem readTokenVector_prefix {us vs : List Bytes} {post : Bytes} (hb : b.data.length < 2 ^ 32)
    (hsize : (message token (us ++ vs)).length < 2 ^ 32) (hus : ∀ x ∈ us, x ≠ [])
    (hbytes : b.data = packet token (us ++ vs).length ++ (strings us ++ post)) (fuel : Nat)
    (s : Socket) : ∃ data, readTokenVector fuel s expected b =
      readStrings fuel vs.length s b (packet token (us ++ vs).length ++ strings us).length
        data us := by
  have hcount := length_le_strings (us ++ vs)
  rw [message, List.length_append] at hsize
  have hint := @readTokenInt_buffered fuel s b [] (strings us ++ post) token expected
    (us ++ vs).length hb htoken hexpected (by omega) hbytes
  rw [List.length_nil] at hint
  obtain ⟨data, hread⟩ :=
    @readStrings_buffered fuel s b _ _ us hb hus hbytes vs.length [] []
  refine ⟨data, ?_⟩
  rw [readTokenVector, hint]
  rw [length_packet htoken, List.nil_append] at hread
  rw [← hread, List.length_append]
  exact congrArg (fun n => readStrings fuel _ s b n [] []) (Nat.zero_add tokenLn)

theorem readsBack_buffered (hb : b.data.length < 2 ^ 32) (hbytes : b.data = message token vec) :
    ReadsBack expected vec (message token vec) b events ↔ ∀ x ∈ vec, x ≠ [] := by
  have hsize : (message token vec).length < 2 ^ 32 := by
    rw [← hbytes]
    exact hb
  constructor
  · rintro ⟨fuel, b', s', hread⟩
    by_contra hempty
    obtain ⟨us, ws, rfl, hus⟩ := exists_empty hempty
    rw [message, strings_append] at hbytes
    obtain ⟨data, hstart⟩ := readTokenVector_prefix htoken hexpected hb hsize hus hbytes fuel
      ⟨events, true⟩
    rw [hstart, List.length_cons, @readStrings_empty _ _ _ _ (strings ws) _ _ _ hb] at hread
    · have := congrArg List.length (congrArg (fun r => r.2.1) (Option.some.inj hread))
      simp at this
    · rw [hbytes, List.append_assoc]
      rfl
  · intro hne
    have hall : b.data = packet token (vec ++ []).length ++ (strings vec ++ []) := by
      rw [hbytes, message, List.append_nil, List.append_nil]
    have hsize' : (message token (vec ++ [])).length < 2 ^ 32 := by
      rwa [List.append_nil]
    obtain ⟨data, hstart⟩ :=
      readTokenVector_prefix htoken hexpected hb hsize' hne hall 0 ⟨events, true⟩
    refine ⟨0, b, ⟨events, true⟩, ?_⟩
    rw [hstart, List.append_nil]
    rfl

end RoundTrip

section Last

variable {fuel r n : Nat} {s s' : Socket} {b b' : UString}
  {pre part data : Bytes} {acc vec : List Bytes}

/-- A header of which a part is there: twelve more bytes are asked for. -/
theorem readTokenInt_short {expected : Option Bytes} {t : Token} {rstart : Nat}
    (hshort : b.data.length < rstart + tokenLn) (hwrap : rstart + tokenLn < 2 ^ 32)
    (hpending : (pending s.events).length < tokenLn)
    (h : readTokenInt fuel s expected b rstart = some t) :
    t.value = 0 ∧ t.rstart = rstart := by
  rw [readTokenInt, available, Nat.mod_eq_of_lt hwrap, if_neg (by omega)] at h
  obtain ⟨⟨ok, b₁, s₁⟩, hread, h⟩ := Option.bind_eq_some_iff.mp h
  have hok : ok = false := by
    refine read_short hread ?_
    have hcount : toInt tokenLn = (tokenLn : Int) := rfl
    rw [hcount]
    exact_mod_cast hpending
  subst hok
  simp only [Bool.false_eq_true, false_and, if_false] at h
  cases h
  exact ⟨rfl, rfl⟩

theorem readStrings_header (hshort : b.data.length < pre.length + tokenLn)
    (hwrap : pre.length + tokenLn < 2 ^ 32) (hpending : (pending s.events).length < tokenLn)
    (h : readStrings fuel 1 s b pre.length data acc = some (r, vec, b', s')) :
    vec = acc := by
  rw [readStrings] at h
  obtain ⟨⟨t, data'⟩, ht, h⟩ := Option.bind_eq_some_iff.mp h
  rw [readTokenString] at ht
  obtain ⟨t₁, hint, ht⟩ := Option.bind_eq_some_iff.mp ht
  have hzero := (readTokenInt_short hshort hwrap hpending hint).1
  rw [if_pos hzero] at ht
  cases ht
  dsimp only at h
  rw [if_pos hzero] at h
  cases h
  rfl

/-- The last string when its header is there, and its bytes but in part. -/
theorem readStrings_body (hb : b.data.length < 2 ^ 32) (hn : pre.length + tokenLn + n < 2 ^ 32)
    (hne : n ≠ 0) (hpart : part.length < n) (hbytes : b.data = pre ++ (packet argv n ++ part))
    (h : readStrings fuel 1 s b pre.length data acc = some (r, vec, b', s')) :
    ∃ ok b₁ s₁, RpcFraming.read fuel s b (toInt n) = some (ok, b₁, s₁) ∧
      r = if ok then pre.length + tokenLn + ((b₁.data.drop (pre.length + tokenLn)).take n).length
        else pre.length + tokenLn := by
  have hsize : b.data.length = pre.length + tokenLn + part.length := by
    rw [hbytes]
    simp only [List.length_append, length_argv]
    omega
  rw [readStrings, readTokenString,
    readTokenInt_buffered hb rfl (Or.inr rfl) (by omega) hbytes] at h
  simp only [Option.bind_eq_bind, Option.bind_some, if_neg hne, available, Nat.mod_eq_of_lt hn]
    at h
  rw [if_neg (by omega)] at h
  obtain ⟨⟨t, data'⟩, ht, h⟩ := Option.bind_eq_some_iff.mp h
  obtain ⟨⟨ok, b₁, s₁⟩, hread, ht⟩ := Option.bind_eq_some_iff.mp ht
  refine ⟨ok, b₁, s₁, hread, ?_⟩
  cases ok with
  | true =>
      cases ht
      rw [if_neg hne] at h
      cases h
      rfl
  | false =>
      cases ht
      rw [if_neg hne] at h
      cases h
      rfl

end Last

/-- The first bytes of the message are there, and the others arrive together. -/
theorem split_at {msg : Bytes} {k : Nat} (hk : k < msg.length) (hmsg : msg.length < 2 ^ 32) :
    Split msg ⟨msg.take k, k⟩ [.data (msg.drop k)] where
  bytes := by
    show msg.take k ++ (msg.drop k ++ []) = msg
    rw [List.append_nil, List.take_append_drop]
  arrives x hx := by
    rcases List.mem_singleton.mp hx with ⟨⟩
    exact List.ne_nil_of_length_pos (by rw [List.length_drop]; omega)
  room := by
    show (msg.take k).length ≤ k
    exact List.length_take_le k msg
  capacity := Nat.lt_trans hk hmsg

/-- The last two bytes arrive one by one. -/
theorem split_two {msg : Bytes} {x y : UInt8} (hmsg : (msg ++ [x, y]).length < 2 ^ 32) :
    Split (msg ++ [x, y]) ⟨msg, msg.length⟩ [.data [x], .pause, .data [y]] where
  bytes := rfl
  arrives z hz := by
    rcases List.mem_cons.mp hz with hz | hz
    · cases hz
      exact List.cons_ne_nil x []
    · rcases List.mem_cons.mp hz with hz | hz
      · cases hz
      · cases List.mem_singleton.mp hz
        exact List.cons_ne_nil y []
  room := Nat.le_refl _
  capacity := by
    rw [List.length_append] at hmsg
    exact Nat.lt_of_le_of_lt (Nat.le_add_right _ _) hmsg

theorem message_last (token : Bytes) (us : List Bytes) (x : Bytes) :
    message token (us ++ [x]) =
      (packet token (us ++ [x]).length ++ strings us) ++ (packet argv x.length ++ x) := by
  have hone : strings [x] = packet argv x.length ++ x := List.append_nil _
  rw [message, strings_append, hone, List.append_assoc]

section Split

variable {token : Bytes} {expected : Option Bytes}
  (htoken : token.length = tokenNm) (hexpected : expected = none ∨ expected = some token)

include htoken hexpected

/-- The strings but the last one are there: what is left to do. -/
theorem readsBack_last {us : List Bytes} {x post : Bytes} {b : UString} {events : List Event}
    (hb : b.data.length < 2 ^ 32) (hsize : (message token (us ++ [x])).length < 2 ^ 32)
    (hus : ∀ y ∈ us, y ≠ [])
    (hbytes : b.data = packet token (us ++ [x]).length ++ (strings us ++ post))
    (h : ReadsBack expected (us ++ [x]) (message token (us ++ [x])) b events) :
    ∃ fuel data b' s', readStrings fuel 1 ⟨events, true⟩ b
      (packet token (us ++ [x]).length ++ strings us).length data us =
        some ((message token (us ++ [x])).length, us ++ [x], b', s') := by
  obtain ⟨fuel, b', s', hread⟩ := h
  obtain ⟨data, hstart⟩ := readTokenVector_prefix htoken hexpected hb hsize hus hbytes fuel
    ⟨events, true⟩ 
  exact ⟨fuel, data, b', s', hstart.symm.trans hread⟩

omit hexpected in
/-- The vector without strings: eleven bytes of the header are there. -/
theorem exists_split_nil : ∃ b events, Split (message token []) b events ∧
    ¬ ReadsBack expected [] (message token []) b events := by
  have hlen : (message token []).length = 12 := by
    rw [message, List.length_append, length_packet htoken]
    rfl
  refine ⟨_, _, split_at (k := 11) (by omega) (by omega), ?_⟩
  rintro ⟨fuel, b', s', hread⟩
  rw [readTokenVector] at hread
  obtain ⟨t, hint, hread⟩ := Option.bind_eq_some_iff.mp hread
  obtain ⟨hvalue, hrstart⟩ := readTokenInt_short (by
      show ((message token []).take 11).length < 12
      rw [List.length_take]
      omega) (by decide) (by
      show ((message token []).drop 11 ++ []).length < 12
      rw [List.append_nil, List.length_drop]
      omega) hint
  rw [hvalue, hrstart, hlen] at hread
  cases hread

variable {us : List Bytes} {x : Bytes} (hsize : (message token (us ++ [x])).length < 2 ^ 32)
  (hus : ∀ y ∈ us, y ≠ [])

include hsize hus

/-- The last string has one byte: of its packet two bytes are missing. -/
theorem exists_split_one (hx : x.length = 1) :
    ∃ b events, Split (message token (us ++ [x])) b events ∧
      ¬ ReadsBack expected (us ++ [x]) (message token (us ++ [x])) b events := by
  have hmsg := message_last token us x
  generalize hpre : packet token (us ++ [x]).length ++ strings us = pre at hmsg
  have hlen : (message token (us ++ [x])).length = pre.length + 13 := by
    rw [hmsg, List.length_append, List.length_append, length_argv, hx]
    rfl
  refine ⟨_, _, split_at (k := pre.length + 11) (by omega) hsize, fun h => ?_⟩
  have hbytes : (message token (us ++ [x])).take (pre.length + 11) =
      pre ++ (packet argv x.length ++ x).take 11 := by
    rw [hmsg, List.take_length_add_append]
  obtain ⟨fuel, data, b', s', hread⟩ := readsBack_last htoken hexpected
    (by
      rw [List.length_take]
      omega) hsize hus
    (by
      show (message token (us ++ [x])).take (pre.length + 11) = _
      rw [hbytes, ← hpre, List.append_assoc]) h
  have hvec := readStrings_header
    (by
      rw [hpre, List.length_take]
      simp only [tokenLn, tokenNm]
      omega)
    (by
      rw [hpre]
      simp only [tokenLn, tokenNm]
      omega)
    (by
      show ((message token (us ++ [x])).drop (pre.length + 11) ++ []).length < 12
      rw [List.append_nil, List.length_drop]
      omega) hread
  exact List.cons_ne_nil x [] (List.append_right_eq_self.mp hvec)

/-- The last string is shorter than an `int` counts: of it one byte is missing. -/
theorem exists_split_int (hx : 2 ≤ x.length) (hint : x.length < 2 ^ 31) :
    ∃ b events, Split (message token (us ++ [x])) b events ∧
      ¬ ReadsBack expected (us ++ [x]) (message token (us ++ [x])) b events := by
  have hmsg := message_last token us x
  generalize hpre : packet token (us ++ [x]).length ++ strings us = pre at hmsg
  have hlen : (message token (us ++ [x])).length = pre.length + tokenLn + x.length := by
    rw [hmsg, List.length_append, List.length_append, length_argv, Nat.add_assoc]
  refine ⟨_, _, split_at (k := pre.length + (tokenLn + (x.length - 1))) (by omega) hsize,
    fun h => ?_⟩
  have hbytes : (message token (us ++ [x])).take (pre.length + (tokenLn + (x.length - 1))) =
      pre ++ (packet argv x.length ++ x.take (x.length - 1)) := by
    rw [hmsg, List.take_length_add_append, ← length_argv x.length, List.take_length_add_append]
  obtain ⟨fuel, data, b', s', hread⟩ := readsBack_last htoken hexpected
    (by
      rw [List.length_take]
      omega) hsize hus
    (by
      show (message token (us ++ [x])).take (pre.length + (tokenLn + (x.length - 1))) = _
      rw [hbytes, ← hpre, List.append_assoc]) h
  rw [hpre] at hread
  obtain ⟨ok, b₁, s₁, hread, hr⟩ := readStrings_body
    (by
      rw [List.length_take]
      omega) (by omega) (by omega)
    (by
      rw [List.length_take]
      omega) hbytes hread
  have hok : ok = false := by
    refine read_short hread ?_
    have hpending : (pending [.data ((message token (us ++ [x])).drop
        (pre.length + (tokenLn + (x.length - 1))))]).length = 1 := by
      show ((message token (us ++ [x])).drop _ ++ []).length = 1
      rw [List.append_nil, List.length_drop]
      omega
    rw [hpending, toInt, if_pos hint]
    omega
  rw [hok, hlen] at hr
  simp only [Bool.false_eq_true, if_false] at hr
  omega

/-- The last string is longer than an `int` counts: one of its last two bytes is enough. -/
theorem exists_split_negative (hx : 2 ^ 31 ≤ x.length) :
    ∃ b events, Split (message token (us ++ [x])) b events ∧
      ¬ ReadsBack expected (us ++ [x]) (message token (us ++ [x])) b events := by
  obtain ⟨y, c, d, hxy⟩ : ∃ y c d, x = y ++ [c, d] := by
    obtain ⟨z, d, rfl⟩ := (List.eq_nil_or_concat' x).resolve_left (by
      rintro rfl
      simp at hx)
    obtain ⟨y, c, rfl⟩ := (List.eq_nil_or_concat' z).resolve_left (by
      rintro rfl
      simp at hx)
    exact ⟨y, c, d, List.append_assoc _ _ _⟩
  have hmsg := message_last token us x
  have hxlen : x.length = y.length + 2 := by
    rw [hxy, List.length_append]
    rfl
  have hlen : (message token (us ++ [x])).length =
      (packet token (us ++ [x]).length ++ strings us).length + tokenLn + x.length := by
    rw [hmsg, List.length_append, @List.length_append _ (packet argv x.length), length_argv,
      Nat.add_assoc]
  generalize hpre : packet token (us ++ [x]).length ++ strings us = pre at hmsg hlen
  have hcut : message token (us ++ [x]) = (pre ++ (packet argv x.length ++ y)) ++ [c, d] := by
    rw [hmsg, List.append_assoc, List.append_assoc, ← hxy]
  have hbytes : (pre ++ (packet argv x.length ++ y)).length = pre.length + tokenLn + y.length := by
    rw [List.length_append, List.length_append, length_argv, Nat.add_assoc]
  refine ⟨⟨pre ++ (packet argv x.length ++ y), (pre ++ (packet argv x.length ++ y)).length⟩,
    [.data [c], .pause, .data [d]], ?_, fun h => ?_⟩
  · rw [hcut]
    exact split_two (by rwa [← hcut])
  obtain ⟨fuel, data, b', s', hread⟩ := readsBack_last htoken hexpected
    (by
      rw [hbytes]
      omega) hsize hus (by rw [← hpre, List.append_assoc]) h
  rw [hpre] at hread
  obtain ⟨ok, b₁, s₁, hread, hr⟩ := readStrings_body
    (by
      rw [hbytes]
      omega) (by omega) (by omega) (by omega) rfl hread
  have hcount : toInt x.length < 0 := by
    rw [toInt, if_neg (by omega)]
    omega
  cases ok with
  | false =>
      simp only [Bool.false_eq_true, if_false] at hr
      omega
  | true =>
      rw [read_negative hcount hread] at hr
      simp only [if_true, List.length_take, List.length_drop, List.length_append, length_argv,
        List.length_cons, List.length_nil] at hr
      omega

end Split

section Split

variable {token : Bytes} {expected : Option Bytes}
  (htoken : token.length = tokenNm) (hexpected : expected = none ∨ expected = some token)

include htoken hexpected

/-- Every message can arrive in pieces that the reader does not put together. -/
theorem exists_split (vec : List Bytes) (hsize : (message token vec).length < 2 ^ 32) :
    ∃ b events, Split (message token vec) b events ∧
      ¬ ReadsBack expected vec (message token vec) b events := by
  by_cases hempty : ∀ x ∈ vec, x ≠ []
  swap
  · refine ⟨⟨message token vec, (message token vec).length⟩, [],
      ⟨List.append_nil _, fun x hx => (nomatch hx), Nat.le_refl _, hsize⟩, fun h => hempty ?_⟩
    have hb : (⟨message token vec, (message token vec).length⟩ : UString).data.length < 2 ^ 32 :=
        hsize
    exact (readsBack_buffered htoken hexpected hb rfl).mp h
  rcases List.eq_nil_or_concat' vec with rfl | ⟨us, x, rfl⟩
  · exact exists_split_nil htoken
  · have hus : ∀ y ∈ us, y ≠ [] := fun y hy => hempty y (List.mem_append_left _ hy)
    have hx := List.length_pos_of_ne_nil (hempty x (List.mem_append_right _ List.mem_cons_self))
    rcases Nat.lt_or_ge x.length 2 with hone | htwo
    · exact exists_split_one htoken hexpected hsize hus (by omega)
    rcases Nat.lt_or_ge x.length (2 ^ 31) with hint | hnegative
    · exact exists_split_int htoken hexpected hsize hus htwo hint
    · exact exists_split_negative htoken hexpected hsize hus hnegative

end Split

/-- The vector is read back from a buffer that holds the whole message exactly if no string is
empty. With the bytes still to come in pieces, there is no vector for which it is always read
back. -/
theorem readTokenVector_buildTokenVector {token : Bytes}
    {expected : Option Bytes} {vec : List Bytes} {b₀ enc : UString}
    (htoken : token.length = tokenNm) (hexpected : expected = none ∨ expected = some token)
    (hempty : b₀.data = []) (hsize : (message token vec).length < 2 ^ 32)
    (hbuild : buildTokenVector token vec b₀ = some enc) :
    (¬ ∀ b events, Split enc.data b events → ReadsBack expected vec enc.data b events) ∧
      ((∀ b, Split enc.data b [] → ReadsBack expected vec enc.data b []) ↔
        ∀ x ∈ vec, x ≠ []) := by
  rw [buildTokenVector_eq htoken hempty hsize hbuild]
  constructor
  · obtain ⟨b, events, hsplit, hlost⟩ := exists_split htoken hexpected vec hsize
    exact fun h => hlost (h b events hsplit)
  · constructor
    · intro h
      have hb : (⟨message token vec, (message token vec).length⟩ : UString).data.length < 2 ^ 32 :=
          hsize
      exact (readsBack_buffered htoken hexpected hb rfl).mp
        (h _ ⟨List.append_nil _, fun x hx => (nomatch hx), Nat.le_refl _, hsize⟩)
    · intro h b hsplit
      have hbytes : b.data = message token vec :=
        (List.append_nil b.data).symm.trans hsplit.bytes
      exact (readsBack_buffered htoken hexpected
        (Nat.lt_of_le_of_lt hsplit.room hsplit.capacity) hbytes).mpr h

/-- FIND00000001ARGV00000003foo -/
def findFoo : Bytes :=
  [70, 73, 78, 68, 48, 48, 48, 48, 48, 48, 48, 49, 65, 82, 71, 86, 48, 48, 48, 48, 48, 48, 48, 51,
    102, 111, 111]

/-- The token FIND and the string "foo", written to a buffer with room for 64 bytes. -/
theorem readTokenVector_findFoo :
    (¬ ∀ b events, Split findFoo b events →
      ReadsBack none [[102, 111, 111]] findFoo b events) ∧
    ((∀ b, Split findFoo b [] → ReadsBack none [[102, 111, 111]] findFoo b []) ↔
      ∀ x ∈ [([102, 111, 111] : Bytes)], x ≠ []) :=
  @readTokenVector_buildTokenVector [70, 73, 78, 68] none [[102, 111, 111]] ⟨[], 64⟩
    ⟨findFoo, 64⟩ rfl (Or.inl rfl) rfl (by decide) rfl

/-- FIND00000001ARGV00000000 -/
def findEmpty : Bytes :=
  [70, 73, 78, 68, 48, 48, 48, 48, 48, 48, 48, 49, 65, 82, 71, 86, 48, 48, 48, 48, 48, 48, 48, 48]

/-- The vector of one empty string is written, and read back as the vector without strings. -/
theorem empty_string_lost :
    buildTokenVector [70, 73, 78, 68] [[]] ⟨[], 64⟩ = some ⟨findEmpty, 64⟩ ∧
      readTokenVector 0 ⟨[], true⟩ none ⟨findEmpty, 64⟩ =
        some (24, [], ⟨findEmpty, 64⟩, ⟨[], true⟩) ∧
      ¬ ReadsBack none [[]] findEmpty ⟨findEmpty, 64⟩ [] := by
  refine ⟨rfl, rfl, ?_⟩
  rintro ⟨fuel, b', s', h⟩
  have hlost : readTokenVector fuel ⟨[], true⟩ none ⟨findEmpty, 64⟩ =
      some (24, [], ⟨findEmpty, 64⟩, ⟨[], true⟩) := rfl
  cases hlost.symm.trans h

end ULib.RpcRoundTrip
