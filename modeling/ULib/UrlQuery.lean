import ULib.UrlText

/-!
The pairs of names and values in the query of a URL: `setQuery` of a vector and
`getQuery` into one. The pairs are put behind the query that is there.
-/

namespace ULib.UrlQuery

open ULib.KeyComparison
open ULib.EscapeCoding
open ULib.JsonValue
open ULib.TextSearch
open ULib.RpcFraming
open ULib.UrlCoding
open ULib.UrlText

def pairText (p : Bytes × Bytes) : Bytes := urlEncode [] p.1 ++ equals :: urlEncode rfc2231 p.2

/-- The pairs behind another one. -/
def laterText (ps : List (Bytes × Bytes)) : Bytes := ps.flatMap fun p => ampersand :: pairText p

/-- The text of a pair and of those behind it. -/
def pairsText (p : Bytes × Bytes) (ps : List (Bytes × Bytes)) : Bytes := pairText p ++ laterText ps

def flattened (ps : List (Bytes × Bytes)) : List Bytes := ps.flatMap fun p => [p.1, p.2]

/-! ### What the encoder leaves out -/

theorem reserved_not_mem {c : UInt8} (hc : uriEncodedChar c) (hplus : c ≠ plus)
    (hpercent : c ≠ percent) (extra s : Bytes) : c ∉ urlEncode extra s := by
  intro h
  rcases mem_urlEncode h with h | h | h
  · exact hplus h
  · exact hpercent h
  · exact Bool.noConfusion (hc.symm.trans h)

theorem equals_not_mem (extra s : Bytes) : equals ∉ urlEncode extra s :=
  reserved_not_mem rfl (by decide) (by decide) extra s

theorem ampersand_not_mem (extra s : Bytes) : ampersand ∉ urlEncode extra s :=
  reserved_not_mem rfl (by decide) (by decide) extra s

/-! ### Decoding across the end of another text -/

/-- A byte that is no hex digit, where the decoder takes it for one and the byte behind it for
the other. -/
structure Foreign (s : UInt8) : Prop where
  ne_percent : s ≠ percent
  ne_zero : s ≠ 0
  hex : ∀ c, (u_hex2int [s, c]).toUInt8 ≠ if c = plus then 0x20 else c

theorem foreign_ampersand : Foreign ampersand :=
  ⟨by decide, by decide, forall_byte (by decide +kernel)⟩

theorem foreign_question : Foreign question :=
  ⟨by decide, by decide, forall_byte (by decide +kernel)⟩

/-- What ends with a foreign byte, if it is anything. -/
def EndsForeign (z : Bytes) : Prop := ∀ s, z.getLast? = some s → Foreign s

theorem EndsForeign.suffix {w z : Bytes} (hz : EndsForeign (w ++ z)) : EndsForeign z := by
  intro s hs
  exact hz s (by rw [List.getLast?_append, hs, Option.some_or])

theorem xdigit_ne_percent (c : UInt8) (h : isXdigit c) : c ≠ percent := ne_of_class h (by decide)

/-- The first byte of an escaped text behind a percent sign and a foreign byte. -/
theorem decodeLoop_taken {s d : UInt8} (hs : Foreign s) {e : Bytes} (he : isEscaped (d :: e))
    (hd : d ≠ 0) (rest : Bytes) {fuel : Nat} (hfuel : e.length ≤ fuel) :
    ∃ c t, decodeLoop false (fuel + 1) (percent :: s :: d :: (e ++ rest)) (e.length + 3) = c :: t ∧
      (decoded (d :: e)).length ≤ t.length + 1 ∧ c :: t ≠ decoded (d :: e) := by
  have hdrop : (s :: d :: (e ++ rest)).drop 2 = e ++ rest := rfl
  have hpeek : peek (s :: d :: (e ++ rest)) 0 = s ∧ peek (s :: d :: (e ++ rest)) 1 = d :=
    ⟨rfl, rfl⟩
  rw [decodeLoop_percent, hpeek.1, hpeek.2, if_neg hs.ne_zero, if_neg hd, hdrop]
  refine ⟨_, _, rfl, ?_⟩
  by_cases hpercent : d = percent
  · subst hpercent
    obtain ⟨a, b, e, rfl, ha, hb, he⟩ := isEscaped_percent he
    have ha := xdigit_ne_percent a ha
    have hb := xdigit_ne_percent b hb
    have hab : isEscaped (a :: b :: e) := by rwa [isEscaped_cons ha, isEscaped_cons hb]
    rw [Nat.add_sub_cancel, decodeLoop_escaped hab rest hfuel, decoded_cons ha, decoded_cons hb,
      decoded, if_pos rfl]
    refine ⟨by simp, fun h => ?_⟩
    have := congrArg List.length h
    simp only [List.length_cons] at this
    omega
  · rw [isEscaped_cons hpercent] at he
    rw [Nat.add_sub_cancel, decodeLoop_escaped he rest hfuel, decoded_cons hpercent]
    exact ⟨Nat.le_refl _, fun h => hs.hex d (List.cons.inj h).1⟩

/-- Of an escaped text behind another one at most its first byte is lost, and then a wrong
one stands in its place. -/
theorem decodeLoop_mixed {e : Bytes} (he : isEscaped e) (hne : e ≠ []) (hzero : 0 ∉ e)
    (rest : Bytes) {fuel : Nat} {z : Bytes} (hz : EndsForeign z)
    (hfuel : z.length + e.length ≤ fuel) :
    (decoded e).length ≤
        (decodeLoop false fuel (z ++ (e ++ rest)) (z.length + e.length)).length ∧
      (z ≠ [] → decodeLoop false fuel (z ++ (e ++ rest)) (z.length + e.length) ≠ decoded e) := by
  -- a byte before what is long enough
  have hlonger : ∀ (c : UInt8) (d : Bytes) {P : Prop}, (decoded e).length ≤ d.length →
      (decoded e).length ≤ (c :: d).length ∧ (P → c :: d ≠ decoded e) := by
    intro c d P hd
    refine ⟨Nat.le_succ_of_le hd, fun _ heq => ?_⟩
    rw [← heq, List.length_cons] at hd
    exact Nat.lt_irrefl _ hd
  induction fuel generalizing z with
  | zero =>
      have := List.length_pos_of_ne_nil hne
      omega
  | succ fuel ih =>
      cases z with
      | nil =>
          rw [List.length_nil, Nat.zero_add] at hfuel
          rw [List.nil_append, List.length_nil, Nat.zero_add, decodeLoop_escaped he rest hfuel]
          exact ⟨Nat.le_refl _, fun h => absurd rfl h⟩
      | cons c z =>
          rw [List.length_cons, Nat.add_right_comm] at hfuel ⊢
          rw [List.cons_append]
          have hfuel : z.length + e.length ≤ fuel := Nat.le_of_succ_le_succ hfuel
          have htail : EndsForeign z := hz.suffix (w := [c])
          by_cases hc : c = percent
          · subst hc
            match z with
            | [] => exact absurd rfl (hz percent rfl).ne_percent
            | [s] =>
                cases e with
                | nil => exact absurd rfl hne
                | cons d e =>
                    have hd : d ≠ 0 := fun h => hzero (h ▸ List.mem_cons_self)
                    have hlength : [s].length + (d :: e).length + 1 = e.length + 3 := by
                      simp only [List.length_cons, List.length_nil]
                      omega
                    obtain ⟨b, t, ht, hle, hdiff⟩ := decodeLoop_taken (hz s rfl) he hd rest
                      (show e.length ≤ fuel by simp only [List.length_cons] at hfuel; omega)
                    rw [hlength]
                    simp only [List.cons_append, List.nil_append]
                    rw [ht]
                    exact ⟨hle, fun _ => hdiff⟩
            | a :: b :: z =>
                have hpeek : peek (a :: b :: z ++ (e ++ rest)) 0 = a ∧
                    peek (a :: b :: z ++ (e ++ rest)) 1 = b := ⟨rfl, rfl⟩
                rw [decodeLoop_percent, hpeek.1, hpeek.2]
                simp only [List.length_cons] at hfuel
                split_ifs
                · exact hlonger _ _ (ih htail hfuel).1
                · have hlength : (a :: b :: z).length + e.length - 1 =
                    (b :: z).length + e.length := by
                    simp only [List.length_cons]
                    omega
                  have hrest := ih (htail.suffix (w := [a])) (z := b :: z) (by
                    simp only [List.length_cons]; omega)
                  rw [hlength]
                  exact hlonger _ _ hrest.1
                · have hlength : (a :: b :: z).length + e.length - 2 = z.length + e.length := by
                    simp only [List.length_cons]
                    omega
                  have hrest := ih (htail.suffix (w := [a, b])) (z := z) (by omega)
                  rw [hlength]
                  exact hlonger _ _ hrest.1
          · rw [decodeLoop_cons hc]
            exact hlonger _ _ (ih htail hfuel).1

/-! ### The pairs of a text -/

/-- What is read of the pairs behind another one. -/
def later (fuel : Nat) : List (Bytes × Bytes) → List Bytes
  | [] => []
  | p :: ps => getNameValueFromData fuel (pairsText p ps)

/-- The first name and the first value, with the pairs behind them. -/
theorem getNameValue_first {a x : Bytes} (ha : equals ∉ a) (hx : ampersand ∉ x)
    (ps : List (Bytes × Bytes)) (fuel : Nat) :
    getNameValueFromData (fuel + 1) (a ++ equals :: (x ++ laterText ps)) =
      urlDecode (a ++ equals :: (x ++ laterText ps)) a.length ::
        urlDecode (x ++ laterText ps) x.length :: later fuel ps := by
  have hvalue : (a ++ equals :: (x ++ laterText ps)).drop (a.length + 1) = x ++ laterText ps := by
    rw [← List.drop_drop, List.drop_left]
    rfl
  rw [getNameValueFromData, idxOf_append_cons ha]
  dsimp only
  rw [hvalue]
  cases ps with
  | nil =>
      have hlater : x ++ laterText [] = x := List.append_nil x
      rw [hlater, List.idxOf?_eq_none_iff.mpr hx]
      rfl
  | cons p ps =>
      have hlater : laterText (p :: ps) = ampersand :: pairsText p ps := rfl
      have hnext : (x ++ ampersand :: pairsText p ps).drop (x.length + 1) = pairsText p ps := by
        rw [← List.drop_drop, List.drop_left]
        rfl
      rw [hlater, idxOf_append_cons hx]
      dsimp only
      rw [hnext]
      rfl

/-- A pair between other texts that has ended. -/
theorem getNameValue_ended {a v : Bytes} (ha : equals ∉ a) (hv : ampersand ∉ v) (r : Bytes)
    (fuel : Nat) :
    ∃ name value, getNameValueFromData (fuel + 1) (a ++ equals :: (v ++ ampersand :: r)) =
      name :: value :: getNameValueFromData fuel r := by
  have hvalue : (a ++ equals :: (v ++ ampersand :: r)).drop (a.length + 1) =
      v ++ ampersand :: r := by
    rw [← List.drop_drop, List.drop_left]
    rfl
  have hnext : (v ++ ampersand :: r).drop (v.length + 1) = r := by
    rw [← List.drop_drop, List.drop_left]
    rfl
  rw [getNameValueFromData, idxOf_append_cons ha]
  dsimp only
  rw [hvalue, idxOf_append_cons hv]
  dsimp only
  rw [hnext]
  exact ⟨_, _, rfl⟩

theorem urlDecode_encode (extra s rest : Bytes) :
    urlDecode (urlEncode extra s ++ rest) (urlEncode extra s).length = s :=
  (urlDecode_escaped (isEscaped_encode extra s) rest).trans (decoded_encode extra s)

theorem pairsText_eq (p : Bytes × Bytes) (ps : List (Bytes × Bytes)) : pairsText p ps =
    urlEncode [] p.1 ++ equals :: (urlEncode rfc2231 p.2 ++ laterText ps) := by
  rw [pairsText, pairText, List.append_assoc, List.cons_append]

theorem later_eq {ps : List (Bytes × Bytes)} {fuel : Nat} (hfuel : ps.length ≤ fuel) :
    later fuel ps = flattened ps := by
  induction ps generalizing fuel with
  | nil => rfl
  | cons p ps ih =>
      obtain ⟨fuel, rfl⟩ := Nat.exists_eq_succ_of_ne_zero (Nat.ne_zero_of_lt hfuel)
      have hrest := ih (Nat.le_of_succ_le_succ hfuel)
      rw [later, pairsText_eq,
        getNameValue_first (equals_not_mem [] p.1) (ampersand_not_mem rfc2231 p.2),
        urlDecode_encode, urlDecode_encode, hrest]
      rfl

theorem length_le_laterText (ps : List (Bytes × Bytes)) : ps.length ≤ (laterText ps).length := by
  induction ps with
  | nil => exact Nat.le_refl 0
  | cons p ps ih =>
      have hlater : laterText (p :: ps) = ampersand :: (pairText p ++ laterText ps) := rfl
      rw [hlater, List.length_cons, List.length_cons, List.length_append]
      omega

/-- The pairs are read back where nothing stands before them. -/
theorem getNameValue_pairs (p : Bytes × Bytes) (ps : List (Bytes × Bytes)) {fuel : Nat}
    (hfuel : (pairsText p ps).length ≤ fuel) :
    getNameValueFromData fuel (pairsText p ps) = flattened (p :: ps) := by
  have hlength := length_le_laterText ps
  have hlater : later fuel (p :: ps) = flattened (p :: ps) := by
    refine later_eq ?_
    rw [pairsText_eq] at hfuel
    simp only [List.length_append, List.length_cons] at hfuel ⊢
    omega
  exact hlater

/-- What stands before the pairs is a part of the first name, or of the first value, or has
ended a pair of its own. -/
theorem before_cases (z : Bytes) : equals ∉ z ∨
    (∃ a b, z = a ++ equals :: b ∧ equals ∉ a ∧ ampersand ∉ b) ∨
    ∃ a v r, z = a ++ equals :: (v ++ ampersand :: r) ∧ equals ∉ a ∧ ampersand ∉ v := by
  by_cases hequals : equals ∈ z
  · obtain ⟨a, b, rfl, ha⟩ := List.eq_append_cons_of_mem hequals
    by_cases hampersand : ampersand ∈ b
    · obtain ⟨v, r, rfl, hv⟩ := List.eq_append_cons_of_mem hampersand
      exact .inr (.inr ⟨a, v, r, rfl, ha, hv⟩)
    · exact .inr (.inl ⟨a, b, rfl, ha, hampersand⟩)
  · exact .inl hequals

theorem ampersand_not_mem_pair (p : Bytes × Bytes) : ampersand ∉ pairText p := by
  simp only [pairText, List.mem_append, List.mem_cons, not_or]
  exact ⟨ampersand_not_mem [] p.1, by decide, ampersand_not_mem rfc2231 p.2⟩

section Behind

variable (p : Bytes × Bytes) (ps : List (Bytes × Bytes)) (fuel : Nat)

theorem getNameValue_name {z : Bytes} (hz : equals ∉ z) :
    getNameValueFromData (fuel + 1) (z ++ pairsText p ps) =
      urlDecode (z ++ (urlEncode [] p.1 ++ equals :: (urlEncode rfc2231 p.2 ++ laterText ps)))
        (z.length + (urlEncode [] p.1).length) :: p.2 :: later fuel ps := by
  have hname : equals ∉ z ++ urlEncode [] p.1 := by
    rw [List.mem_append, not_or]
    exact ⟨hz, equals_not_mem [] p.1⟩
  have hfirst := getNameValue_first hname (ampersand_not_mem rfc2231 p.2) ps fuel
  rw [urlDecode_encode, List.length_append, List.append_assoc] at hfirst
  rw [pairsText_eq, hfirst]

theorem getNameValue_value {a b : Bytes} (ha : equals ∉ a) (hb : ampersand ∉ b) :
    ∃ name, getNameValueFromData (fuel + 1) (a ++ equals :: b ++ pairsText p ps) =
      name :: urlDecode (b ++ (pairText p ++ laterText ps)) (b.length + (pairText p).length) ::
        later fuel ps := by
  have hvalue : ampersand ∉ b ++ pairText p := by
    rw [List.mem_append, not_or]
    exact ⟨hb, ampersand_not_mem_pair p⟩
  have hfirst := getNameValue_first ha hvalue ps fuel
  rw [List.length_append, List.append_assoc] at hfirst
  rw [pairsText, List.append_assoc, List.cons_append, hfirst]
  exact ⟨_, rfl⟩

end Behind

theorem later_of_length {w : Bytes} {p : Bytes × Bytes} {ps : List (Bytes × Bytes)} {fuel : Nat}
    (hfuel : (w ++ pairsText p ps).length ≤ fuel + 1) : later fuel ps = flattened ps := by
  have hlength := length_le_laterText ps
  refine later_eq ?_
  rw [pairsText_eq] at hfuel
  simp only [List.length_append, List.length_cons] at hfuel
  omega

/-- A text behind which the pairs stand holds none of them back. -/
theorem length_getNameValue (p : Bytes × Bytes) (ps : List (Bytes × Bytes)) {fuel : Nat}
    (w : Bytes) (hfuel : (w ++ pairsText p ps).length ≤ fuel) :
    (flattened (p :: ps)).length ≤ (getNameValueFromData fuel (w ++ pairsText p ps)).length := by
  induction fuel generalizing w with
  | zero =>
      rw [pairsText_eq] at hfuel
      simp at hfuel
  | succ fuel ih =>
      have hlater := later_of_length hfuel
      rcases before_cases w with hw | ⟨a, b, rfl, ha, hb⟩ | ⟨a, v, r, rfl, ha, hv⟩
      · rw [getNameValue_name p ps fuel hw, hlater]
        exact Nat.le_refl _
      · obtain ⟨name, hresult⟩ := getNameValue_value p ps fuel ha hb
        rw [hresult, hlater]
        exact Nat.le_refl _
      · simp only [List.append_assoc, List.cons_append, List.length_append,
          List.length_cons] at hfuel ⊢
        obtain ⟨name, value, hresult⟩ := getNameValue_ended ha hv (r ++ pairsText p ps) fuel
        have hrest := ih r (by rw [List.length_append]; omega)
        rw [hresult, List.length_cons, List.length_cons]
        omega

theorem urlDecode_mixed {z e : Bytes} (hz : EndsForeign z) (he : isEscaped e) (hne : e ≠ [])
    (hzero : 0 ∉ e) (rest : Bytes) :
    (decoded e).length ≤ (urlDecode (z ++ (e ++ rest)) (z.length + e.length)).length ∧
      (z ≠ [] → urlDecode (z ++ (e ++ rest)) (z.length + e.length) ≠ decoded e) :=
  decodeLoop_mixed he hne hzero rest hz (Nat.le_refl _)

theorem pairText_spec (p : Bytes × Bytes) : isEscaped (pairText p) ∧
    decoded (pairText p) = p.1 ++ equals :: p.2 ∧ pairText p ≠ [] ∧ 0 ∉ pairText p := by
  have happend := escaped_append (isEscaped_encode [] p.1) (equals :: urlEncode rfc2231 p.2)
  rw [isEscaped_cons (by decide), decoded_cons (by decide), decoded_encode, decoded_encode]
    at happend
  refine ⟨happend.1.trans (isEscaped_encode rfc2231 p.2), happend.2,
    List.append_ne_nil_of_right_ne_nil _ (List.cons_ne_nil _ _), ?_⟩
  simp only [pairText, List.mem_append, List.mem_cons, not_or]
  exact ⟨reserved_not_mem rfl (by decide) (by decide) [] p.1, by decide,
    reserved_not_mem rfl (by decide) (by decide) rfc2231 p.2⟩

/-- Behind another text the pairs are not what is read. -/
theorem getNameValue_behind {p : Bytes × Bytes} (hp : p.1 ≠ []) (ps : List (Bytes × Bytes))
    {z : Bytes} (hz : EndsForeign z) (hne : z ≠ []) {fuel : Nat}
    (hfuel : (z ++ pairsText p ps).length ≤ fuel) :
    getNameValueFromData fuel (z ++ pairsText p ps) ≠ flattened (p :: ps) := by
  intro heq
  have hflat : flattened (p :: ps) = p.1 :: p.2 :: flattened ps := rfl
  cases fuel with
  | zero =>
      rw [pairsText_eq] at hfuel
      simp at hfuel
  | succ fuel =>
      rcases before_cases z with hz' | ⟨a, b, rfl, ha, hb⟩ | ⟨a, v, r, rfl, ha, hv⟩
      · -- a part of the first name
        have hencoded : urlEncode [] p.1 ≠ [] := by
          intro h
          have hdecoded := decoded_encode [] p.1
          rw [h] at hdecoded
          exact hp hdecoded.symm
        have hmixed := urlDecode_mixed hz (isEscaped_encode [] p.1) hencoded
          (reserved_not_mem rfl (by decide) (by decide) [] p.1)
          (equals :: (urlEncode rfc2231 p.2 ++ laterText ps))
        rw [getNameValue_name p ps fuel hz', hflat] at heq
        have hname := (List.cons.inj heq).1
        exact hmixed.2 hne (hname.trans (decoded_encode [] p.1).symm)
      · -- a part of the first value, which is too long
        obtain ⟨hescaped, hdecoded, hpair, hzero⟩ := pairText_spec p
        have hmixed := urlDecode_mixed (EndsForeign.suffix (w := a ++ [equals])
          (by rwa [List.append_assoc])) hescaped hpair hzero (laterText ps)
        obtain ⟨name, hresult⟩ := getNameValue_value p ps fuel ha hb
        rw [hresult, hflat] at heq
        have hvalue := (List.cons.inj (List.cons.inj heq).2).1
        rw [hvalue, hdecoded, List.length_append, List.length_cons] at hmixed
        exact absurd hmixed.1 (by omega)
      · -- one pair more
        simp only [List.append_assoc, List.cons_append, List.length_append,
          List.length_cons] at hfuel heq
        obtain ⟨name, value, hresult⟩ := getNameValue_ended ha hv (r ++ pairsText p ps) fuel
        have hrest := @length_getNameValue p ps fuel r (by
          rw [List.length_append]; omega)
        have hlength := congrArg List.length (hresult.symm.trans heq)
        rw [List.length_cons, List.length_cons] at hlength
        omega

/-! ### Putting the pairs into a URL -/

/-- What `prepareForQuery` leaves as it is. -/
structure Prepared (u : Url) : Prop where
  host : u.hostBegin < u.hostEnd
  path : u.pathBegin ≠ u.pathEnd
  query : u.pathEnd < u.url.length

theorem prepareForQuery_prepared {u : Url} (hu : Prepared u) : u.prepareForQuery = some u := by
  rw [Url.prepareForQuery, if_pos hu.host, if_neg hu.path]
  dsimp only
  rw [if_neg (Nat.ne_of_lt hu.query)]

/-- What is put between the query and a pair. -/
def separator (t : Bytes) : Bytes := if t.getLast? ≠ some question then [ampersand] else []

theorem addQuery_prepared {u : Url} (hu : Prepared u) (p : Bytes × Bytes) :
    u.addQuery p.1 p.2 = { u with url := u.url ++ (separator u.url ++ pairText p) } := by
  rw [Url.addQuery, prepareForQuery_prepared hu, separator, pairText]
  dsimp only
  split_ifs
  · simp
  · simp

theorem separator_pairText (t : Bytes) (p : Bytes × Bytes) :
    separator (t ++ pairText p) = [ampersand] := by
  have hquestion : question ∉ pairText p := by
    simp only [pairText, List.mem_append, List.mem_cons, not_or]
    exact ⟨reserved_not_mem rfl (by decide) (by decide) [] p.1, by decide,
      reserved_not_mem rfl (by decide) (by decide) rfc2231 p.2⟩
  have hne : pairText p ≠ [] := (pairText_spec p).2.2.1
  refine if_pos fun h => hquestion ?_
  rw [List.getLast?_append, List.getLast?_eq_some_getLast hne, Option.some_or] at h
  exact Option.some.inj h ▸ List.getLast_mem hne

theorem addQueries_prepared {u : Url} (hu : Prepared u) (p : Bytes × Bytes)
    (ps : List (Bytes × Bytes)) :
    (p :: ps).foldl (fun u p => u.addQuery p.1 p.2) u =
      { u with url := u.url ++ (separator u.url ++ pairsText p ps) } := by
  induction ps generalizing u p with
  | nil =>
      rw [List.foldl_cons, addQuery_prepared hu]
      have htext : pairsText p [] = pairText p := List.append_nil _
      rw [htext]
      rfl
  | cons q ps ih =>
      rw [List.foldl_cons, addQuery_prepared hu, ih]
      · dsimp only
        have htext : pairsText p (q :: ps) = pairText p ++ (ampersand :: pairsText q ps) := rfl
        rw [← List.append_assoc u.url, separator_pairText, htext]
        simp
      · exact ⟨hu.host, hu.path, hu.query.trans_le (by simp)⟩

theorem separator_empty (w : Bytes) : separator (w ++ [question]) = [] := by
  rw [separator, List.getLast?_concat, if_neg (not_not.mpr rfl)]

theorem endsForeign_separator (w : Bytes) {q : Bytes} (hq : q ≠ []) :
    EndsForeign (q ++ separator (w ++ question :: q)) := by
  have hlast : (w ++ question :: q).getLast? = q.getLast? := by
    have hsplit : w ++ question :: q = w ++ [question] ++ q := by simp
    rw [hsplit, List.getLast?_append, List.getLast?_eq_some_getLast hq, Option.some_or]
  intro s hs
  rw [separator, hlast] at hs
  split_ifs at hs with hquestion
  · rw [List.getLast?_concat] at hs
    cases hs
    exact foreign_ampersand
  · rw [List.append_nil] at hs
    have : s = question := Option.some.inj (hs.symm.trans (not_not.mp hquestion))
    exact this ▸ foreign_question

/-- Where the query of a text begins. -/
theorem findpos_query {t : Bytes} (hhost : (findpos t).hostBegin < (findpos t).hostEnd) :
    (findpos t).url = t ∧
      ((findpos t).pathEnd = t.length ∨ ∃ q, t.drop (findpos t).pathEnd = question :: q) := by
  rw [findpos] at hhost ⊢
  cases hsearch : search [slash, slash] t with
  | none =>
      rw [hsearch] at hhost
      exact absurd hhost (Nat.lt_irrefl 0)
  | some i =>
      refine ⟨rfl, ?_⟩
      dsimp only
      cases hfound : find t question (findPathBegin t (i + 2)) with
      | none => exact .inl rfl
      | some j =>
          obtain ⟨w, q, hdrop, -, rfl⟩ := of_find hfound
          refine .inr ⟨q, ?_⟩
          rw [Option.getD_some, ← List.drop_drop, hdrop, List.drop_left]

/-- The slash of a URL without a path. -/
theorem prepare_path (u : Url) (hend : u.pathEnd ≤ u.url.length) :
    ∃ w, (if u.pathBegin = u.pathEnd then
        { u with url := replace u.url u.pathBegin 0 [slash], pathEnd := u.pathEnd + 1 }
      else u) = { u with url := w ++ u.url.drop u.pathEnd, pathEnd := w.length } ∧
      u.pathBegin ≠ w.length := by
  have htake : (u.url.take u.pathEnd).length = u.pathEnd := List.length_take_of_le hend
  split_ifs with hpath
  · refine ⟨u.url.take u.pathEnd ++ [slash], ?_, ?_⟩
    · rw [List.length_append, htake, hpath, replace]
      rfl
    · rw [List.length_append, htake, hpath]
      exact Nat.ne_of_lt (Nat.lt_succ_self _)
  · refine ⟨u.url.take u.pathEnd, ?_, ?_⟩
    · rw [List.take_append_drop, htake]
    · rwa [htake]

/-- A text with a host, prepared for a query. -/
theorem prepareForQuery_findpos {t : Bytes}
    (hhost : (findpos t).hostBegin < (findpos t).hostEnd) :
    ∃ u w q, (findpos t).prepareForQuery = some u ∧ Prepared u ∧ u.url = w ++ question :: q ∧
      u.pathEnd = w.length ∧ (q = [] ↔ t.length ≤ (findpos t).pathEnd + 1) := by
  obtain ⟨hurl, hquery⟩ := findpos_query hhost
  have hend : (findpos t).pathEnd ≤ (findpos t).url.length := by
    rw [hurl]
    rcases hquery with hquery | ⟨q, hquery⟩
    · exact Nat.le_of_eq hquery
    · have := congrArg List.length hquery
      rw [List.length_drop, List.length_cons] at this
      omega
  obtain ⟨w, hprepare, hpath⟩ := prepare_path (findpos t) hend
  rw [Url.prepareForQuery, if_pos hhost, hprepare, hurl]
  rcases hquery with hquery | ⟨q, hquery⟩
  · have hdrop : t.drop (findpos t).pathEnd = [] := by rw [hquery, List.drop_length]
    rw [hdrop, List.append_nil]
    refine ⟨_, w, [], congrArg some (if_pos rfl), ⟨hhost, hpath, ?_⟩, rfl, rfl, ?_⟩
    · simp
    · rw [hquery]
      exact ⟨fun _ => Nat.le_succ _, fun _ => rfl⟩
  · have hlength := congrArg List.length hquery
    rw [List.length_drop, List.length_cons] at hlength
    rw [hquery]
    have hlt : w.length < (w ++ question :: q).length := by simp
    refine ⟨_, w, q, congrArg some (if_neg (Nat.ne_of_lt hlt)), ⟨hhost, hpath, hlt⟩, rfl, rfl, ?_⟩
    rw [← List.length_eq_zero_iff]
    omega

/-- The pairs are read back where there was no query before. -/
theorem getQueryVec_setQueryVec_iff (t : Bytes)
    (hhost : (findpos t).hostBegin < (findpos t).hostEnd) (pairs : List (Bytes × Bytes))
    (hpairs : pairs ≠ []) (hnames : ∀ p ∈ pairs, p.1 ≠ []) :
    ((findpos t).setQueryVec pairs).getQueryVec = flattened pairs ↔
      t.length ≤ (findpos t).pathEnd + 1 := by
  obtain ⟨u, w, q, hprepare, hu, hurl, hend, hq⟩ := prepareForQuery_findpos hhost
  cases pairs with
  | nil => exact absurd rfl hpairs
  | cons p ps =>
      rw [← hq, Url.setQueryVec, hprepare]
      dsimp only
      rw [addQueries_prepared hu, Url.getQueryVec, Url.queryText]
      dsimp only
      have hpairsText : (pairsText p ps).length ≠ 0 := by
        rw [pairsText_eq]
        simp
      have htext : (u.url ++ (separator u.url ++ pairsText p ps)).drop (u.pathEnd + 1) =
          q ++ separator u.url ++ pairsText p ps := by
        rw [hurl, hend, List.append_assoc, ← List.drop_drop, List.drop_left]
        simp
      have hlength : (q ++ separator u.url ++ pairsText p ps).length ≤
          (u.url ++ (separator u.url ++ pairsText p ps)).length := by
        rw [← htext, List.length_drop]
        exact Nat.sub_le _ _
      have hquery : u.pathEnd + 1 < (u.url ++ (separator u.url ++ pairsText p ps)).length := by
        have := hu.query
        rw [List.length_append, List.length_append]
        omega
      rw [if_pos hquery, htext]
      constructor
      · intro hread
        by_contra hne
        have hforeign := endsForeign_separator w hne
        rw [← hurl] at hforeign
        exact getNameValue_behind (hnames p List.mem_cons_self) ps hforeign
          (List.append_ne_nil_of_left_ne_nil hne _) hlength hread
      · rintro rfl
        rw [hurl, separator_empty] at hlength ⊢
        exact getNameValue_pairs p ps hlength

theorem getQueryVec_setQueryVec_sample :
    ((findpos "http://host".toUTF8.data.toList).setQueryVec [([38, 0], [61]), ([32], [])]).getQueryVec =
        flattened [([38, 0], [61]), ([32], [])] ↔
      "http://host".toUTF8.data.toList.length ≤
        (findpos "http://host".toUTF8.data.toList).pathEnd + 1 :=
  getQueryVec_setQueryVec_iff _ (by decide) _ (by decide) (by decide)

/-- The pairs come behind the query that was there. -/
theorem getQueryVec_setQueryVec_old :
    (findpos "http://host?x=1".toUTF8.data.toList).hostBegin <
        (findpos "http://host?x=1".toUTF8.data.toList).hostEnd ∧
      ((findpos "http://host?x=1".toUTF8.data.toList).setQueryVec [([97], [98])]).getQueryVec ≠
        flattened [([97], [98])] := by
  decide

end ULib.UrlQuery
