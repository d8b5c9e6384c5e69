import ULib.MimeHeaderFields
import ULib.MimeSection

/-!
A content that is put into a section and read back from it.
-/

namespace ULib.MimeSectionRoundTrip

open ULib.KeyComparison
open ULib.EscapeCoding
open ULib.HashMap
open ULib.HashMapIteration
open ULib.HashMapRefinement
open ULib.ContainerStream
open ULib.UrlText
open ULib.MimeHeader
open ULib.MimeHeaderFields
open ULib.MimeSection

/-! ### The end of the headers -/

theorem findEndHeader_append {w : Bytes} (hw : lineFeed ∉ w) (prev : UInt8) (pos : Nat)
    (t : Bytes) :
    findEndHeader prev pos (w ++ t) =
      findEndHeader (w.getLast?.getD prev) (pos + w.length) t := by
  induction w generalizing prev pos with
  | nil => rfl
  | cons c w ih =>
      have hc : c ≠ lineFeed := fun h => hw (h ▸ List.mem_cons_self)
      rw [List.cons_append, findEndHeader, if_neg hc, ih fun h => hw (List.mem_cons_of_mem c h),
        List.getLast?_cons, List.length_cons, Nat.add_assoc, Nat.add_comm 1]
      rfl

/-- Another header follows. -/
theorem findEndHeader_next {t : Bytes} (ht : peek t 0 ≠ carriageReturn ∧ peek t 0 ≠ lineFeed)
    (prev : UInt8) (pos : Nat) :
    findEndHeader prev pos (lineFeed :: t) = findEndHeader lineFeed (pos + 1) t := by
  rw [findEndHeader, if_pos rfl, if_neg fun h => ht.1 h.1, if_neg ht.2]

theorem findEndHeader_end {cr : Bool} {prev : UInt8} (hprev : cr = true → prev = carriageReturn)
    (pos : Nat) (body : Bytes) :
    findEndHeader prev pos (lineFeed :: (lineEnd cr ++ body)) =
      some (pos + 1 + (lineEnd cr).length) := by
  cases cr with
  | true =>
      rw [findEndHeader, if_pos rfl, if_pos ⟨rfl, hprev rfl, rfl⟩]
      rfl
  | false =>
      have hpeek : peek (lineEnd false ++ body) 0 = lineFeed := rfl
      rw [findEndHeader, if_pos rfl, hpeek, if_neg fun h => absurd h.1 (by decide), if_pos rfl]
      rfl

section Message

variable {cr : Bool}

theorem head_bytes (f : Field) (t : Bytes) :
    peek (f.bytes ++ t) 0 ≠ carriageReturn ∧ peek (f.bytes ++ t) 0 ≠ lineFeed := by
  have hspace := f.name_head (colon :: f.first.line ++ lineFeed ::
    ((f.rest.map Piece.bytes).flatten ++ t))
  rw [f.bytes_append, List.append_assoc]
  constructor
  · intro h
    rw [h] at hspace
    exact absurd hspace (by decide)
  · intro h
    rw [h] at hspace
    exact absurd hspace (by decide)

/-- The headers end behind their empty line, whatever the body is. -/
theorem findEndHeader_message {fs : List Field} (hfs : fs ≠ [])
    (hrest : ∀ f ∈ fs, f.rest = [] ∧ f.first.cr = cr) (prev : UInt8) (pos : Nat) (body : Bytes) :
    findEndHeader prev pos (message cr fs ++ body) = some (pos + (message cr fs).length) := by
  induction fs generalizing prev pos with
  | nil => exact absurd rfl hfs
  | cons f fs ih =>
      obtain ⟨hnil, hcr⟩ := hrest f List.mem_cons_self
      have hmessage : message cr (f :: fs) = f.bytes ++ message cr fs := by
        rw [message, List.map_cons, List.flatten_cons, List.append_assoc]
        rfl
      have hbytes : ∀ t, f.bytes ++ t = f.name ++ colon :: f.first.line ++ lineFeed :: t := by
        intro t
        rw [f.bytes_append, hnil]
        rfl
      have hlength : f.bytes.length = (f.name ++ colon :: f.first.line).length + 1 := by
        have h := congrArg List.length (hbytes [])
        rwa [List.append_nil, List.length_append, List.length_singleton] at h
      rw [hmessage, List.append_assoc, hbytes, findEndHeader_append f.oneLine,
        @List.length_append _ f.bytes, hlength]
      by_cases hlast : fs = []
      · have hprev : cr = true →
            (f.name ++ colon :: f.first.line).getLast?.getD prev = carriageReturn := by
          rintro rfl
          have happend : f.name ++ colon :: f.first.line =
              f.name ++ colon :: f.first.gap ++ f.first.text ++ [carriageReturn] := by
            simp [Piece.line, hcr, beforeFeed]
          rw [happend, List.getLast?_concat]
          rfl
        rw [hlast]
        rw [message, List.map_nil, List.flatten_nil, List.nil_append, findEndHeader_end hprev,
          Nat.add_assoc, Nat.add_assoc, Nat.add_assoc]
      · obtain ⟨g, gs, rfl⟩ := List.exists_cons_of_ne_nil hlast
        have hhead : peek (message cr (g :: gs) ++ body) 0 ≠ carriageReturn ∧
            peek (message cr (g :: gs) ++ body) 0 ≠ lineFeed := by
          rw [message, List.map_cons, List.flatten_cons, List.append_assoc, List.append_assoc]
          exact head_bytes g _
        rw [findEndHeader_next hhead, ih hlast fun r hr => hrest r (List.mem_cons_of_mem f hr)]
        congr 1
        omega

end Message

/-! ### The headers of a section -/

/-- A type that may be printed: one line that does not begin with white space. -/
structure OneLine (t : Bytes) : Prop where
  ne : t ≠ []
  line : lineFeed ∉ t
  start : ∀ c, t.head? = some c → isSpace c = false
  final : t.getLast? ≠ some carriageReturn

def attributeText (name value : Bytes) : Bytes :=
  if value = [] then [] else str "; " ++ name ++ str "=\"" ++ value ++ str "\""

/-- The value of `Content-Type` -/
def typeText (p : Parts) (name : Bytes) : Bytes :=
  p.type ++ attributeText (str "charset") p.charset ++ attributeText (str "name") name

def headers (p : Parts) (name : Bytes) : List (Bytes × Bytes) :=
  (contentType, typeText p name) ::
    if p.encoding = .none then [] else [(contentTransferEncoding, strEncoding p.encoding)]

theorem headText_eq (cr : Bool) (p : Parts) (name : Bytes) :
    headText cr p name [] =
      ((headers p name).map fun e => e.1 ++ [colon, blank] ++ e.2 ++ lineEnd cr).flatten ++
        lineEnd cr := by
  have htype : str "Content-Type: " = contentType ++ [colon, blank] := by decide
  have htransfer : str "Content-Transfer-Encoding: " =
      contentTransferEncoding ++ [colon, blank] := by decide
  have hcharset : str "; charset=\"" = str "; " ++ str "charset" ++ str "=\"" := by decide
  have hname : str "; name=\"" = str "; " ++ str "name" ++ str "=\"" := by decide
  rw [headText, headers, typeText, attributeText, attributeText, htype, htransfer, hcharset, hname,
    if_pos rfl]
  split_ifs <;> simp

theorem attribute_line {name value : Bytes} (hname : lineFeed ∉ name) (hvalue : lineFeed ∉ value) :
    lineFeed ∉ attributeText name value := by
  have hstart : lineFeed ∉ str "; " := by decide
  have hequals : lineFeed ∉ str "=\"" := by decide
  have hquote : lineFeed ∉ str "\"" := by decide
  rw [attributeText]
  split_ifs
  · exact List.not_mem_nil
  · simp [hstart, hequals, hquote, hname, hvalue]

theorem attribute_end {t name value : Bytes} (ht : t.getLast? ≠ some carriageReturn) :
    (t ++ attributeText name value).getLast? ≠ some carriageReturn := by
  rw [attributeText]
  split_ifs
  · rwa [List.append_nil]
  · have hquote : str "\"" = [quote] := by decide
    rw [hquote, ← List.append_assoc, List.getLast?_concat]
    decide

theorem contentType_plain :
    contentType ≠ [] ∧ ∀ c ∈ contentType, c ≠ colon ∧ isSpace c = false := by
  decide

theorem transferEncoding_plain : contentTransferEncoding ≠ [] ∧
    ∀ c ∈ contentTransferEncoding, c ≠ colon ∧ isSpace c = false := by
  decide

theorem typeText_plain {p : Parts} {name : Bytes} (htype : OneLine p.type)
    (hcharset : lineFeed ∉ p.charset) (hname : lineFeed ∉ name) :
    Plain (contentType, typeText p name) where
  name_ne := contentType_plain.1
  name_plain := contentType_plain.2
  value_line := by
    have hcharset := @attribute_line (str "charset") _ (by decide) hcharset
    have hname := @attribute_line (str "name") _ (by decide) hname
    simp [typeText, htype.line, hcharset, hname]
  value_start := by
    intro c hc
    refine htype.start c ?_
    rw [typeText, List.append_assoc] at hc
    rwa [List.head?_append_of_ne_nil _ htype.ne] at hc
  value_end := attribute_end (attribute_end htype.final)

theorem strEncoding_ne {e : Encoding} (he : e ≠ .none ∧ e ≠ .auto) : strEncoding e ≠ [] := by
  cases e with
  | none => exact absurd rfl he.1
  | auto => exact absurd rfl he.2
  | bit7 | bit8 | quotedPrintable | base64 => decide

theorem strEncoding_plain {e : Encoding} (he : e ≠ .none ∧ e ≠ .auto) :
    Plain (contentTransferEncoding, strEncoding e) := by
  have hvalue : lineFeed ∉ strEncoding e ∧ (strEncoding e).head?.all (isSpace · = false) ∧
      (strEncoding e).getLast? ≠ some carriageReturn := by
    cases e with
    | none => exact absurd rfl he.1
    | auto => exact absurd rfl he.2
    | bit7 | bit8 | quotedPrintable | base64 => decide
  refine ⟨transferEncoding_plain.1, transferEncoding_plain.2, hvalue.1, ?_, hvalue.2.2⟩
  intro c hc
  have hall := hvalue.2.1
  rw [show (strEncoding e).head? = some c from hc] at hall
  simpa using hall

/-! ### Reading a section -/

theorem headers_nodup (p : Parts) (name : Bytes) : ((headers p name).map Prod.fst).Nodup := by
  have hne : contentType ≠ contentTransferEncoding := by decide
  rw [headers]
  split_ifs
  · simp
  · simp [hne]

section Entity

variable {p : Parts} {name : Bytes} (htype : OneLine p.type) (hcharset : lineFeed ∉ p.charset)
  (hname : lineFeed ∉ name) (hencoding : p.encoding ≠ .auto)

include htype hcharset hname hencoding

theorem headers_plain : ∀ e ∈ headers p name, Plain e := by
  intro e he
  rw [headers, List.mem_cons] at he
  rcases he with rfl | he
  · exact typeText_plain htype hcharset hname
  · split_ifs at he with hnone
    · exact absurd he List.not_mem_nil
    · rw [List.mem_singleton.mp he]
      exact strEncoding_plain ⟨hnone, hencoding⟩

/-- The body of a section is decoded as the encoding says. -/
theorem entity_section (cr : Bool) (body : Bytes) :
    entity (headText cr p name [] ++ body) =
      (decodeBody (if p.encoding = .none then [] else strEncoding p.encoding) body).map
        fun content => ⟨true, content⟩ := by
  have hplain := headers_plain htype hcharset hname hencoding
  have hnodup := headers_nodup p name
  have hhead : headText cr p name [] = message cr (plainFields cr (headers p name) hplain) :=
    (headText_eq cr p name).trans (message_plain cr hplain).symm
  have hfields : plainFields cr (headers p name) hplain ≠ [] := by
    simp [plainFields, headers]
  have hlines : ∀ f ∈ plainFields cr (headers p name) hplain, f.rest = [] ∧ f.first.cr = cr := by
    intro f hf
    obtain ⟨e, he, rfl⟩ := List.mem_pmap.mp hf
    exact ⟨rfl, rfl⟩
  have hvalues : ∀ f ∈ plainFields cr (headers p name) hplain, f.first.text ≠ [] := by
    intro f hf
    obtain ⟨e, he, rfl⟩ := List.mem_pmap.mp hf
    show e.2 ≠ []
    rw [headers, List.mem_cons] at he
    rcases he with rfl | he
    · exact List.append_ne_nil_of_left_ne_nil (List.append_ne_nil_of_left_ne_nil htype.ne _) _
    · split_ifs at he with hnone
      · exact absurd he List.not_mem_nil
      · rw [List.mem_singleton.mp he]
        exact strEncoding_ne ⟨hnone, hencoding⟩
  have hroom : (allocated 53 : UHashMap Bytes).length +
      (plainFields cr (headers p name) hplain).length < 2 ^ 32 := by
    have hle : (headers p name).length ≤ 2 := by
      rw [headers]
      split_ifs <;> simp
    rw [plainFields, List.length_pmap]
    exact Nat.lt_of_le_of_lt (Nat.add_le_add_left hle _) (by decide)
  have hend := findEndHeader_message hfields hlines 0 0 body
  obtain ⟨t, hparse, hkeeps⟩ := parse_fields (Or.inl hfields) hvalues
    (keeps_allocated (by decide) : Keeps (allocated 53 : UHashMap Bytes) fun _ => none)
    hroom
  rw [foldl_plain cr hplain hnodup fun _ _ => rfl] at hkeeps
  have htypeBound : bindAll (headers p name) (fun _ => none) contentType =
      some (typeText p name) := by
    rw [bindAll_apply hnodup, headers, List.find?_cons_of_pos (by simp)]
  have hencodingBound : bindAll (headers p name) (fun _ => none) contentTransferEncoding =
      if p.encoding = .none then none else some (strEncoding p.encoding) := by
    have hne : contentType ≠ contentTransferEncoding := by decide
    rw [bindAll_apply hnodup, headers, List.find?_cons_of_neg (by simpa using hne)]
    split_ifs
    · rfl
    · simp
  obtain ⟨hpos, hlt⟩ := length_pos hkeeps htypeBound
  obtain ⟨t₁, hat₁, hkeeps₁⟩ := at_keeps hkeeps contentType
  obtain ⟨t₂, hat₂, -⟩ := at_keeps hkeeps₁ contentTransferEncoding
  have hcount : (t.length + 2 ^ 32 - (allocated 53 : UHashMap Bytes).length) % 2 ^ 32 ≠ 0 := by
    show (t.length + 2 ^ 32 - 0) % 2 ^ 32 ≠ 0
    omega
  have hvalue : typeText p name ≠ [] :=
    List.append_ne_nil_of_left_ne_nil (List.append_ne_nil_of_left_ne_nil htype.ne _) _
  rw [entity, hhead, hend, Nat.zero_add]
  dsimp only [bind, Option.bind]
  rw [List.take_left, hparse]
  dsimp only
  rw [if_neg hcount, hat₁]
  dsimp only
  rw [htypeBound, Option.getD_some, if_neg hvalue, hat₂, List.drop_left]
  dsimp only
  rw [hencodingBound]
  split_ifs with hnone
  · rw [Option.getD_none]
    cases decodeBody [] body with
    | none => rfl
    | some content => rfl
  · rw [Option.getD_some]
    cases decodeBody (strEncoding p.encoding) body with
    | none => rfl
    | some content => rfl

end Entity

/-! ### The choice of the encoding -/

theorem detectLoop_ne (charset : Bytes) {encoding : Encoding} (h : encoding ≠ .auto) (l : Nat)
    (longline : Bool) (x : Bytes) : detectLoop charset encoding l longline x ≠ .auto := by
  induction x generalizing encoding l longline with
  | nil =>
      rw [detectLoop]
      split_ifs
      · decide
      · decide
      · exact h
  | cons c x ih =>
      have hite : ∀ {p : Prop} [Decidable p] {a b : Encoding}, a ≠ .auto → b ≠ .auto →
          (if p then a else b) ≠ .auto := by
        intro p _ a b ha hb
        split_ifs
        · exact ha
        · exact hb
      have hbyte := hite (p := c < 0x20 ∧ c ≠ tab ∧ c ≠ carriageReturn ∧ c ≠ lineFeed ∧
        charset ≠ []) (by decide : Encoding.quotedPrintable ≠ .auto)
        (hite (p := 0x80 ≤ c) (by decide : Encoding.bit8 ≠ .auto) h)
      rw [detectLoop]
      dsimp only
      refine hite (by decide) (hite ?_ (hite ?_ ?_))
      · exact ih hbyte 0 longline
      · exact ih (hite hbyte (by decide)) (l + 1) true
      · exact ih hbyte (l + 1) longline

theorem chosenEncoding_ne (content charset : Bytes) (encoding : Encoding) :
    chosenEncoding content charset encoding ≠ .auto := by
  rw [chosenEncoding]
  split_ifs with h
  · exact detectLoop_ne charset (by decide) 0 false content
  · exact h

section Choose

variable {getType : Option (Bytes → Bytes)} {content type charset : Bytes} {encoding : Encoding}

theorem oneLine_default : OneLine (str "text/plain") ∧
    OneLine (str "application/octet-stream") := by
  have hplain : str "text/plain" ≠ [] ∧ lineFeed ∉ str "text/plain" ∧
      (str "text/plain").head?.all (isSpace · = false) ∧
      (str "text/plain").getLast? ≠ some carriageReturn := by decide
  have hstream : str "application/octet-stream" ≠ [] ∧
      lineFeed ∉ str "application/octet-stream" ∧
      (str "application/octet-stream").head?.all (isSpace · = false) ∧
      (str "application/octet-stream").getLast? ≠ some carriageReturn := by decide
  have hstart : ∀ {t : Bytes}, t.head?.all (isSpace · = false) →
      ∀ c, t.head? = some c → isSpace c = false := by
    intro t ht c hc
    rw [hc] at ht
    simpa using ht
  exact ⟨⟨hplain.1, hplain.2.1, hstart hplain.2.2.1, hplain.2.2.2⟩,
    ⟨hstream.1, hstream.2.1, hstart hstream.2.2.1, hstream.2.2.2⟩⟩

/-- What a type is chosen from. -/
theorem chooseType_spec (hgetType : ∀ g, getType = some g → ∀ x, OneLine (g x))
    (htype : type ≠ [] → OneLine type) (hcharset : lineFeed ∉ charset) :
    (chooseType getType content type encoding charset).encoding = encoding ∧
      OneLine (chooseType getType content type encoding charset).type ∧
      lineFeed ∉ (chooseType getType content type encoding charset).charset := by
  unfold chooseType
  by_cases hnil : type = []
  · rw [if_pos hnil]
    cases getType with
    | some getType => exact ⟨rfl, hgetType getType rfl content, List.not_mem_nil⟩
    | none =>
        dsimp only
        split_ifs
        · exact ⟨rfl, oneLine_default.2, List.not_mem_nil⟩
        · exact ⟨rfl, oneLine_default.1, hcharset⟩
  · rw [if_neg hnil]
    exact ⟨rfl, htype hnil, hcharset⟩

end Choose

/-! ### The body -/

/-- The content of a section as it stands behind the headers. -/
def bodyText (cr : Bool) (encoding : Encoding) (content : Bytes) : Bytes :=
  (transferText cr encoding content).getD content

/-- What the encoding asks of a content. -/
def Readable (encoding : Encoding) (content : Bytes) : Prop :=
  encoding = .quotedPrintable →
    QuotedPrintable.underscore ∉ content ∧ QuotedPrintable.blanksAtEnd content = 0

theorem terminates_lineEnd (cr : Bool) : Base64.Terminates (lineEnd cr) := by
  cases cr with
  | true => exact (by decide : ∀ c ∈ lineEnd true, isSpace c ∧ c < 128)
  | false => exact (by decide : ∀ c ∈ lineEnd false, isSpace c ∧ c < 128)

theorem startsWith_encoding :
    (∀ e : Encoding, startsWith (strEncoding e) (str "base64") = decide (e = .base64)) ∧
    ∀ e : Encoding, startsWith (strEncoding e) (str "quoted-printable") =
      decide (e = .quotedPrintable) := by
  constructor
  · intro e
    cases e <;> decide
  · intro e
    cases e <;> decide

/-- A body is decoded to its content if and only if this is readable. -/
theorem decodeBody_iff {content : Bytes} (hcontent : content ≠ []) (cr : Bool)
    {encoding : Encoding} (hencoding : encoding ≠ .auto) :
    decodeBody (if encoding = .none then [] else strEncoding encoding)
      (bodyText cr encoding content) = some content ↔ Readable encoding content := by
  have htransfer : (if encoding = .none then [] else strEncoding encoding) =
      strEncoding encoding := by
    cases encoding with
    | none => rfl
    | auto | bit7 | bit8 | quotedPrintable | base64 => rfl
  rw [htransfer, decodeBody, startsWith_encoding.1, startsWith_encoding.2]
  cases encoding with
  | auto => exact absurd rfl hencoding
  | none | bit7 | bit8 => simp [Readable, bodyText, transferText]
  | base64 =>
      have hdecode := Base64.decode_encode (terminates_lineEnd cr) 64 content
      simp [Readable, bodyText, transferText, hdecode, hcontent]
  | quotedPrintable =>
      have hiff := QuotedPrintable.decode_encode_iff content
      rw [Readable, ← hiff]
      simp only [bodyText, transferText, Option.getD_some]
      by_cases hnil : QuotedPrintable.decode (QuotedPrintable.encode content) = []
      · have hencode := QuotedPrintable.encode_of_decode_nil hnil
        have hdecode : QuotedPrintable.decode [] = [] := rfl
        simp [hencode, hdecode, hcontent.symm]
      · simp [hnil]

/-! ### The buffers -/

/-- The headers fit into their buffer. -/
def HeadFits (cr : Bool) (p : Parts) (name : Bytes) : Prop :=
  (headText cr p name []).length ≤ 4072

/-- An encoded content fits into a buffer of four times the length, computed in 32 bits. -/
def BodyFits (cr : Bool) (encoding : Encoding) (content : Bytes) : Prop :=
  ∀ tmp, transferText cr encoding content = some tmp →
    tmp.length < blockSize (content.length * 4 % 2 ^ 32)

theorem lt_blockSize {n : Nat} (h : n < 2 ^ 32 - 4095) : (n ≤ 4071 → n < blockSize n) ∧
    n ≤ blockSize n ∧ 104 ≤ blockSize n := by
  rw [blockSize, JsonValue.uCapacity]
  split_ifs <;> omega

/-- Contents below a gigabyte fit. -/
theorem bodyFits_of_lt (cr : Bool) (encoding : Encoding) {content : Bytes}
    (hcontent : content ≠ []) (hlength : content.length < 2 ^ 30 - 1024) :
    BodyFits cr encoding content := by
  have hpos := List.length_pos_of_ne_nil hcontent
  have hmod : content.length * 4 % 2 ^ 32 = content.length * 4 := Nat.mod_eq_of_lt (by omega)
  obtain ⟨hsmall, hle, hleast⟩ := lt_blockSize (n := content.length * 4) (by omega)
  have hend : (lineEnd cr).length ≤ 2 := by
    cases cr <;> decide
  have hbase := Base64.length_encodeLoop_le hend 64 0 false content
  have hquoted := QuotedPrintable.length_encodeLoop_le ⟨0, none⟩ content
  have hweight : (⟨0, none⟩ : QuotedPrintable.Line).weight = 0 := rfl
  intro tmp htmp
  rw [hmod]
  cases encoding with
  | none | auto | bit7 | bit8 => cases htmp
  | quotedPrintable =>
      obtain rfl := Option.some.inj htmp
      rw [← QuotedPrintable.encode] at hquoted
      omega
  | base64 =>
      obtain rfl := Option.some.inj htmp
      rw [← Base64.encode] at hbase
      omega

theorem sectionText_eq {cr : Bool} {getType : Option (Bytes → Bytes)}
    {content type charset name : Bytes} {encoding : Encoding} {p : Parts}
    (hp : choose getType content type encoding charset = p) (text : Bytes) :
    sectionText cr getType content type encoding charset name [] = some text ↔
      HeadFits cr p name ∧ BodyFits cr p.encoding content ∧
        text = headText cr p name [] ++ bodyText cr p.encoding content := by
  have hroom : blockSize 4000 = 4072 := by decide
  rw [sectionText, hp, HeadFits, BodyFits, bodyText, hroom]
  by_cases hhead : (headText cr p name []).length ≤ 4072
  · rw [if_neg (Nat.not_lt.mpr hhead)]
    cases transferText cr p.encoding content with
    | none => simp [hhead, eq_comm]
    | some tmp => simp [hhead, eq_comm]
  · rw [if_pos (Nat.lt_of_not_le hhead)]
    simp [hhead]

/-! ### The round trip -/

/-- The section is made, and the entity that is parsed from it has the content. -/
def SectionComes (cr : Bool) (getType : Option (Bytes → Bytes)) (content type : Bytes)
    (encoding : Encoding) (charset name : Bytes) : Prop :=
  ∃ text, sectionText cr getType content type encoding charset name [] = some text ∧
    entity text = some ⟨true, content⟩

/-- A content comes back if and only if the headers and what is encoded fit into their buffers, and
quoted-printable content has no underscore and no blank at its end. -/
theorem sections_come (cr : Bool) (getType : Option (Bytes → Bytes))
    (hgetType : ∀ g, getType = some g → ∀ x, OneLine (g x)) {content type : Bytes}
    (hcontent : content ≠ []) (htype : type ≠ [] → OneLine type) (encoding : Encoding)
    {charset name : Bytes} (hcharset : lineFeed ∉ charset) (hname : lineFeed ∉ name) :
    SectionComes cr getType content type encoding charset name ↔
      HeadFits cr (choose getType content type encoding charset) name ∧
        BodyFits cr (chosenEncoding content charset encoding) content ∧
          Readable (chosenEncoding content charset encoding) content := by
  have hchoose := @chooseType_spec getType content type charset
    (chosenEncoding content charset encoding)
  obtain ⟨hencoding, hone, hline⟩ := hchoose hgetType htype hcharset
  have hne := chosenEncoding_ne content charset encoding
  rw [← choose] at hencoding hone hline
  generalize hp : choose getType content type encoding charset = p at *
  rw [← hencoding] at hne ⊢
  have hentity := entity_section hone hline hname hne cr (bodyText cr p.encoding content)
  have hdecode := decodeBody_iff hcontent cr hne
  rw [SectionComes, ← hdecode]
  simp only [sectionText_eq hp]
  constructor
  · rintro ⟨text, ⟨hhead, hbody, rfl⟩, hcomes⟩
    refine ⟨hhead, hbody, ?_⟩
    rw [hentity, Option.map_eq_some_iff] at hcomes
    obtain ⟨content', hcontent', heq⟩ := hcomes
    cases heq
    exact hcontent'
  · rintro ⟨hhead, hbody, hback⟩
    refine ⟨_, ⟨hhead, hbody, rfl⟩, ?_⟩
    rw [hentity, hback]
    rfl

/-- A text with an equals sign, a blank before a line end, a byte that is no ASCII, and a charset
and a name -/
theorem section_sample :
    SectionComes true none (str "a = b \r\n\u00e9") [] .quotedPrintable (str "utf-8") (str "f") ∧
      SectionComes false none (str "\x00_ ") [] .auto (str "utf-8") [] := by
  have htype : ([] : Bytes) ≠ [] → OneLine [] := fun h => absurd rfl h
  have hmagic : ∀ g, (none : Option (Bytes → Bytes)) = some g → ∀ x, OneLine (g x) :=
    fun g hg => absurd hg (by simp)
  constructor
  · rw [sections_come true none hmagic (by decide) htype .quotedPrintable
      (by decide) (by decide)]
    exact ⟨by unfold HeadFits; decide,
      bodyFits_of_lt _ _ (by decide) (by decide), fun _ => by decide⟩
  · rw [sections_come false none hmagic (by decide) htype .auto (by decide)
      (by decide)]
    exact ⟨by unfold HeadFits; decide,
      bodyFits_of_lt _ _ (by decide) (by decide),
      fun h => absurd h (by decide)⟩

/-- An underscore comes back as a blank, a blank at the end is lost, and a long charset is printed
behind the end of the buffer. -/
theorem section_lost :
    (sectionText true none (str "a_b") [] .quotedPrintable [] [] []).bind entity =
        some ⟨true, str "a b"⟩ ∧
      (sectionText true none (str "a ") [] .quotedPrintable [] [] []).bind entity =
        some ⟨true, str "a"⟩ ∧
      ¬ SectionComes true none (str "a_b") [] .quotedPrintable [] [] ∧
      ¬ SectionComes true none (str "a ") [] .quotedPrintable [] [] ∧
      ¬ SectionComes true none (str "a") [] .bit7 (List.replicate 4072 'x'.toUInt8) [] := by
  refine ⟨by decide, by decide, ?_, ?_, ?_⟩
  · rw [SectionComes, ← Option.bind_eq_some_iff]
    decide
  · rw [SectionComes, ← Option.bind_eq_some_iff]
    decide
  · rintro ⟨text, htext, -⟩
    have hhead := ((sectionText_eq rfl text).mp htext).1
    have hcharset : (choose none (str "a") [] .bit7 (List.replicate 4072 'x'.toUInt8)).charset =
        List.replicate 4072 'x'.toUInt8 := rfl
    have hlong : (str "; charset=\"").length = 11 := by decide
    rw [HeadFits, headText, hcharset, if_neg (c := List.replicate 4072 _ = []) (by simp)] at hhead
    simp only [List.length_append, List.length_replicate, hlong] at hhead
    omega

end ULib.MimeSectionRoundTrip
