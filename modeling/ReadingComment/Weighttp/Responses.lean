import ReadingComment.Lib.Fields
import ReadingComment.Weighttp.ChunkArithmetic
import ReadingComment.Weighttp.Segments

/-!
# Well-formed responses

A response as a server writes it: a status line, header fields, and a body whose end is known by its
length, by its chunks, or by the end of the connection. What the reader makes of its parts.
-/

namespace Weighttp

open Lib List

/-! ## Data -/

def crlf : List Char := ['\r', '\n']

def isBlank (c : Char) : Bool := c = ' ' || c = '\t'

def isToken (c : Char) : Bool :=
  c.isAlphanum || "!#$%&*+-.^_|~".toList.contains c || c.toNat = 39 || c.toNat = 96

/-- A character of a value, of a reason phrase or of a chunk extension. -/
def isText (c : Char) : Bool := c = '\t' || (' ' ≤ c && c.toNat ≠ 127)

/-- A header field: its name, and what is behind the colon. -/
structure Field where
  name : List Char
  text : List Char
  name_ne : name ≠ []
  name_token : ∀ c ∈ name, isToken c = true
  text_plain : ∀ c ∈ text, isText c = true

namespace Field

def value (f : Field) : List Char := Fields.trim isBlank f.text

/-- The field as it is sent, without its line end. -/
def line (f : Field) : List Char := f.name ++ ':' :: f.text

/-- The name of the field is `t`, whatever its case. -/
def named (t : String) (f : Field) : Bool := caseEq f.name t.toList

end Field

def fieldLines (fields : List Field) : List Char := fields.flatMap fun f => f.line ++ crlf

/-- The line with the size of a chunk. -/
structure ChunkLine where
  digits : List Char
  ext : List Char
  hex : HexNumber digits
  ext_semicolon : ∀ c ∈ ext.head?, c = ';'
  ext_plain : ∀ c ∈ ext, isText c = true

namespace ChunkLine

def size (l : ChunkLine) : ℕ := hexValue l.digits

def bytes (l : ChunkLine) : List Char := l.digits ++ l.ext ++ crlf

end ChunkLine

/-- A chunk with its size line. -/
structure Chunk extends ChunkLine where
  data : List Char
  data_ne : data ≠ []
  size_eq : hexValue digits = data.length

def Chunk.bytes (k : Chunk) : List Char := k.toChunkLine.bytes ++ k.data ++ crlf

/-- How the end of the body is known. -/
inductive Framing where
  | length (body : List Char)
  | chunked (chunks : List Chunk) (last : ChunkLine) (trailer : List Field)
  | close (body : List Char)

def Framing.bytes : Framing → List Char
  | .length body => body
  | .chunked chunks last trailer =>
    chunks.flatMap Chunk.bytes ++ last.bytes ++ fieldLines trailer ++ crlf
  | .close body => body

def IsNumber (s : List Char) (n : ℕ) : Prop :=
  s ≠ [] ∧ (∀ c ∈ s, c.isDigit = true) ∧ digits 10 s 0 = n

/-- The last one of the codings that a field lists. -/
def lastCoding (value : List Char) : List Char := (value.rtakeWhile (· != ',')).dropWhile isBlank

/-- The header says how the body ends. -/
def Framing.Announced (fields : List Field) : Framing → Prop
  | .length body =>
    (∃ f, fields.filter (Field.named "Content-Length") = [f] ∧ IsNumber f.value body.length) ∧
      ∀ f ∈ fields, f.named "Transfer-Encoding" = false
  | .chunked _ last _ =>
    last.size = 0 ∧ (∀ f ∈ fields, f.named "Content-Length" = false) ∧
      ∃ f ∈ (fields.filter (Field.named "Transfer-Encoding")).getLast?,
        caseEq (lastCoding f.value) "chunked".toList = true
  | .close _ =>
    (∀ f ∈ fields, f.named "Content-Length" = false) ∧
      ∀ f ∈ fields, f.named "Transfer-Encoding" = true →
        hasPrefix "chunked" (f.text.dropWhile isBlank) = false

/-- A response that is well formed. -/
structure Response where
  code : ℕ
  reason : List Char
  fields : List Field
  framing : Framing
  code_ge : 100 ≤ code
  code_lt : code < 600
  reason_plain : ∀ c ∈ reason, isText c = true
  announced : framing.Announced fields

namespace Response

/-- The status line and the fields. -/
def head (w : Response) : List Char :=
  "HTTP/1.1 ".toList ++ Nat.toDigits 10 w.code ++ ' ' :: w.reason ++ crlf ++ fieldLines w.fields ++
    crlf

def bytes (w : Response) : List Char := w.head ++ w.framing.bytes

end Response

/-! ## Characters -/

variable {s : List Char}

theorem isText_plain (h : ∀ c ∈ s, isText c = true) : Plain s := fun c hc =>
  ⟨fun heq => absurd (heq ▸ h c hc) (by decide), fun heq => absurd (heq ▸ h c hc) (by decide)⟩

theorem isToken_ne (h : ∀ c ∈ s, isToken c = true) {d : Char} (hd : isToken d = false) : d ∉ s :=
  fun hmem => Bool.false_ne_true (hd.symm.trans (h d hmem))

theorem Field.line_plain (f : Field) : Plain f.line := by
  intro c hc
  rcases mem_append.mp hc with hc | hc
  · exact ⟨ne_of_mem_of_not_mem hc (isToken_ne f.name_token rfl),
      ne_of_mem_of_not_mem hc (isToken_ne f.name_token rfl)⟩
  · rcases mem_cons.mp hc with rfl | hc
    · decide
    · exact isText_plain f.text_plain c hc

theorem toLower_eq {c d : Char} (hd : d < 'a') (h : c.toLower = d) : c = d := by
  unfold Char.toLower at h
  split at h
  · rename_i hup
    have hlow : d.toNat < 97 := hd
    have hge : 65 ≤ c.val.toNat := hup.1
    have hle : c.val.toNat ≤ 90 := hup.2
    have heq : (c.val + ('a'.val - 'A'.val)).toNat = d.toNat := congrArg Char.toNat h
    rw [UInt32.toNat_add, show ('a'.val - 'A'.val).toNat = 32 from rfl] at heq
    omega
  · exact h

/-! ## Fields -/

/-- **What a field is taken for** depends on its name and on the blank behind the colon. -/
theorem Field.hasPrefix_line (f : Field) {p t : String} (hp : p.toList = t.toList ++ [':', ' '])
    (ht : ':' ∉ t.toList) :
    hasPrefix p f.line = true ↔ f.named t = true ∧ f.text.head? = some ' ' := by
  rw [hasPrefix, hp, caseEq, beq_iff_eq, map_append, map_take, line, map_append, map_cons, named,
    caseEq, beq_iff_eq]
  have hcolon {s : List Char} (hs : ':' ∉ s) : ∀ c ∈ s.map Char.toLower, (c != ':') = true := by
    intro c hc
    obtain ⟨d, hd, rfl⟩ := mem_map.mp hc
    exact bne_iff_ne.mpr fun heq => hs (toLower_eq (by decide) heq ▸ hd)
  constructor
  · intro h
    have hsplit := take_append_drop (t.toList ++ [':', ' ']).length
      (f.name.map Char.toLower ++ Char.toLower ':' :: f.text.map Char.toLower)
    rw [h, append_assoc] at hsplit
    have hstop (u : List Char) : ∀ c ∈ (':' :: u).head?, (c != ':') = false := by
      rintro c ⟨⟩
      rfl
    obtain ⟨hname, hrest⟩ :=
      append_stop_inj (hcolon ht) (hstop _) (hcolon (isToken_ne f.name_token rfl)) (hstop _) hsplit
    refine ⟨hname.symm, ?_⟩
    cases htext : f.text with
    | nil =>
      rw [htext] at hrest
      cases hrest
    | cons c u =>
      rw [htext] at hrest
      have hc : ' ' = c.toLower := (List.cons.inj (List.cons.inj hrest).2).1
      rw [toLower_eq (by decide) hc.symm]
      rfl
  · rintro ⟨hname, htext⟩
    obtain ⟨u, hu⟩ := head?_eq_some_iff.mp htext
    have hlen : f.name.length = t.toList.length := by simpa using congrArg List.length hname
    have htake : (f.name.map Char.toLower ++ Char.toLower ':' :: f.text.map Char.toLower).take
        (t.toList ++ [':', ' ']).length = f.name.map Char.toLower ++ [Char.toLower ':',
          Char.toLower ' '] := by
      rw [hu, length_append, ← hlen, ← length_map Char.toLower, take_length_add_append]
      rfl
    rw [htake, hname]
    rfl

theorem Field.drop_line (f : Field) {t : String} (h : f.named t = true)
    (htext : f.text.head? = some ' ') :
    f.line.drop (t.toList.length + 2) = f.text.tail := by
  obtain ⟨u, hu⟩ := head?_eq_some_iff.mp htext
  have hlen : f.name.length = t.toList.length := by
    simpa using congrArg List.length (beq_iff_eq.mp h)
  rw [line, ← hlen, drop_length_add_append, hu]
  rfl

/-- The blank behind the colon of a field that the parser looks at. -/
def Field.Spaced (f : Field) : Prop := f.text.head? = some ' '

def Field.Refused (f : Field) : Prop :=
  f.Spaced ∧
    (f.named "Connection" = true ∧ hasPrefix "close" f.text.tail = false ∧
      hasPrefix "keep-alive" f.text.tail = false ∨
      f.named "Transfer-Encoding" = true ∧ hasPrefix "chunked" f.text.tail = false)

instance (f : Field) : Decidable f.Spaced := inferInstanceAs (Decidable (_ = _))

/-- The length that the client has read from the fields. -/
def lengthOf (fields : List Field) (n : ℕ) : ℕ :=
  fields.foldl (fun n f => if f.named "Content-Length" = true ∧
    f.Spaced then strToUint64 f.text.tail 0 else n) n

/-- What a client knows after some fields. -/
structure Informed (fields : List Field) (c c' : Client) : Prop where
  statusSuccess : c'.statusSuccess = c.statusSuccess
  contentLength : c'.contentLength = lengthOf fields c.contentLength
  chunked :
      c'.chunked = true ↔ c.chunked = true ∨ ∃ f ∈ fields, f.named "Transfer-Encoding" = true ∧
        f.Spaced

theorem Field.named_inj {f : Field} {s t : String} (hs : f.named s = true) (ht : f.named t = true) :
    s.toList.map Char.toLower = t.toList.map Char.toLower :=
  (beq_iff_eq.mp hs).symm.trans (beq_iff_eq.mp ht)

variable {cfg : Config}

/-- **One field.** -/
theorem headerLine_field (f : Field) (c : Client) :
    (f.Refused ∧ headerLine cfg f.line c = none) ∨
      (¬ f.Refused ∧ ∃ c', headerLine cfg f.line c = some c' ∧ Informed [f] c c') := by
  have hlength := f.hasPrefix_line (p := "Content-Length: ") (t := "Content-Length") rfl (by decide)
  have hconnection := f.hasPrefix_line (p := "Connection: ") (t := "Connection") rfl (by decide)
  have hcoding :=
    f.hasPrefix_line (p := "Transfer-Encoding: ") (t := "Transfer-Encoding") rfl (by decide)
  simp only [headerLine]
  by_cases hl : hasPrefix "Content-Length: " f.line = true
  · obtain ⟨hname, hspaced⟩ := hlength.mp hl
    have hnot {t : String}
        (ht : "Content-Length".toList.map Char.toLower ≠ t.toList.map Char.toLower) :
        ¬ f.named t = true := fun h => ht (Field.named_inj hname h)
    have hdrop : f.line.drop 16 = f.text.tail := f.drop_line hname hspaced
    rw [if_pos hl, hdrop]
    refine .inr ⟨?_, _, rfl, rfl, (if_pos ⟨hname, hspaced⟩).symm, ?_⟩
    · rintro ⟨-, h | h⟩
      · exact hnot (by decide) h.1
      · exact hnot (by decide) h.1
    · simp [hnot (t := "Transfer-Encoding") (by decide)]
  have hsame : lengthOf [f] c.contentLength = c.contentLength := if_neg fun h => hl (hlength.mpr h)
  rw [if_neg hl]
  by_cases hn : hasPrefix "Connection: " f.line = true
  · obtain ⟨hname, hspaced⟩ := hconnection.mp hn
    have hcode : ¬ f.named "Transfer-Encoding" = true := fun h =>
      absurd (Field.named_inj hname h) (by decide)
    have hdrop : f.line.drop 12 = f.text.tail := f.drop_line hname hspaced
    rw [if_pos hn, hdrop]
    have hchunked :
        c.chunked = true ↔ c.chunked = true ∨ ∃ g ∈ [f], g.named "Transfer-Encoding" = true ∧
          g.Spaced := by
      simp [hcode]
    by_cases hclose : hasPrefix "close" f.text.tail = true
    · rw [if_pos hclose]
      refine .inr ⟨?_, _, rfl, rfl, hsame.symm, hchunked⟩
      rintro ⟨-, h | h⟩
      · exact Bool.false_ne_true (h.2.1.symm.trans hclose)
      · exact hcode h.1
    rw [if_neg hclose]
    by_cases hkeep : hasPrefix "keep-alive" f.text.tail = true
    · rw [if_pos hkeep]
      refine .inr ⟨?_, _, rfl, rfl, hsame.symm, hchunked⟩
      rintro ⟨-, h | h⟩
      · exact Bool.false_ne_true (h.2.2.symm.trans hkeep)
      · exact hcode h.1
    · rw [if_neg hkeep]
      exact .inl ⟨⟨hspaced, .inl ⟨hname, Bool.eq_false_iff.mpr hclose,
        Bool.eq_false_iff.mpr hkeep⟩⟩, rfl⟩
  rw [if_neg hn]
  by_cases ht : hasPrefix "Transfer-Encoding: " f.line = true
  · obtain ⟨hname, hspaced⟩ := hcoding.mp ht
    have hdrop : f.line.drop 19 = f.text.tail := f.drop_line hname hspaced
    rw [if_pos ht, hdrop]
    by_cases hchunked : hasPrefix "chunked" f.text.tail = true
    · rw [if_pos hchunked]
      refine .inr ⟨?_, _, rfl, rfl, hsame.symm,
        iff_of_true rfl (.inr ⟨f, mem_singleton_self f, hname, hspaced⟩)⟩
      rintro ⟨-, h | h⟩
      · exact hn (hconnection.mpr ⟨h.1, hspaced⟩)
      · exact Bool.false_ne_true (h.2.symm.trans hchunked)
    · rw [if_neg hchunked]
      exact .inl ⟨⟨hspaced, .inr ⟨hname, Bool.eq_false_iff.mpr hchunked⟩⟩, rfl⟩
  · rw [if_neg ht]
    refine .inr ⟨?_, c, rfl, rfl, hsame.symm, (or_iff_left ?_).symm⟩
    · rintro ⟨hspaced, h | h⟩
      · exact hn (hconnection.mpr ⟨h.1, hspaced⟩)
      · exact ht (hcoding.mpr ⟨h.1, hspaced⟩)
    · rintro ⟨g, hg, h⟩
      exact ht (hcoding.mpr (mem_singleton.mp hg ▸ h))

theorem Informed.cons {f : Field} {fields : List Field} {c c' c'' : Client} (h : Informed [f] c c')
    (h' : Informed fields c' c'') : Informed (f :: fields) c c'' where
  statusSuccess := h'.statusSuccess.trans h.statusSuccess
  contentLength := by
    rw [h'.contentLength, h.contentLength]
    rfl
  chunked := by
    rw [h'.chunked, h.chunked]
    simp [or_assoc]

/-- **The fields**: one of them is refused, or the client is informed. -/
theorem read_fields (fields : List Field) (conn : Conn) (n : ℕ) (t : List Char) :
    ((∃ f ∈ fields, f.Refused) ∧
      (Reader.read cfg ⟨conn, .line [], n⟩ (fieldLines fields ++ t)).part = .broken) ∨
      (∀ f ∈ fields, ¬ f.Refused) ∧ ∃ client, Informed fields conn.client client ∧
        Reader.read cfg ⟨conn, .line [], n⟩ (fieldLines fields ++ t) =
          Reader.read cfg ⟨{ conn with client := client }, .line [],
            n + (fieldLines fields).length⟩ t := by
  induction fields generalizing conn n with
  | nil => exact .inr ⟨by rintro _ ⟨⟩, conn.client, ⟨rfl, rfl, by simp⟩, rfl⟩
  | cons f fields ih =>
    have hline :
        fieldLines (f :: fields) ++ t = f.line ++ '\r' :: '\n' :: (fieldLines fields ++ t) := by
      simp [fieldLines, crlf]
    have hne : f.line ≠ [] := append_ne_nil_of_left_ne_nil f.name_ne _
    have hend : Reader.read cfg ⟨conn, .line [], n⟩ (fieldLines (f :: fields) ++ t) =
        Reader.read cfg (Reader.endLine cfg ⟨conn, .lineCr f.line, n + f.line.length + 2⟩ f.line)
          (fieldLines fields ++ t) := by
      rw [hline, read_line_cr f.line_plain]
      rfl
    rw [hend, Reader.endLine, if_neg hne]
    rcases headerLine_field f conn.client with ⟨hrefused, hnone⟩ |
      ⟨haccepted, client, hsome, hclient⟩
    · rw [hnone]
      refine .inl ⟨⟨f, mem_cons_self .., hrefused⟩, ?_⟩
      rw [Reader.read_final (.inr (.inr (.inr (.inr (.inr rfl)))))]
    · rw [hsome]
      dsimp only
      rcases ih { conn with client := client } (n + f.line.length + 2) with
        ⟨⟨g, hg, hrefused⟩, hbroken⟩ | ⟨hall, client', hclient', hread⟩
      · exact .inl ⟨⟨g, mem_cons_of_mem _ hg, hrefused⟩, hbroken⟩
      · refine .inr ⟨forall_mem_cons.mpr ⟨haccepted, hall⟩, client', hclient.cons hclient', ?_⟩
        have hlen :
            n + f.line.length + 2 + (fieldLines fields).length =
              n + (fieldLines (f :: fields)).length := by
          rw [fieldLines, fieldLines, flatMap_cons, length_append, length_append]
          simp only [crlf, length_cons, length_nil]
          omega
        rw [hread, hlen]

/-! ## Chunks -/

theorem hex_ne {c : Char} (h : (digitValue 16 c).isSome = true) : c ≠ ';' ∧ c ≠ '\r' :=
  ⟨fun heq => absurd (heq ▸ h) (by decide), fun heq => absurd (heq ▸ h) (by decide)⟩

variable {conn : Conn}

theorem read_digits {ds : List Char} (hds : ∀ c ∈ ds, (digitValue 16 c).isSome = true) (v : ℤ)
    (n : ℕ) :
    Reader.read cfg ⟨conn, .size v, n⟩ ds = ⟨conn, .size (sizeValue ds v), n + ds.length⟩ := by
  induction ds generalizing v n with
  | nil => rfl
  | cons c ds ih =>
    obtain ⟨hc, hrest⟩ := forall_mem_cons.mp hds
    obtain ⟨d, hd⟩ := Option.isSome_iff_exists.mp hc
    obtain ⟨hsemi, hcr⟩ := hex_ne hc
    have hdigit := sizeDigit_of_hex hd
    have hstep :
        Reader.step cfg ⟨conn, .size v, n⟩ c = ⟨conn, .size ((v * 16 + d).bmod (2 ^ 64)),
          n + 1⟩ := by
      simp only [Reader.step, Reader.stepLater, Part.next, sizeByte, if_neg hsemi, if_neg hcr,
        hdigit]
    rw [Reader.read_cons, hstep, ih hrest, sizeValue, sizeValue, foldl_cons, hdigit,
      Option.getD_some,
      length_cons, Nat.add_assoc, Nat.add_comm 1]

theorem read_sizeEnd (hs : Plain s) (v : ℤ) (n : ℕ) :
    Reader.read cfg ⟨conn, .sizeEnd v false, n⟩ s = ⟨conn, .sizeEnd v false, n + s.length⟩ := by
  induction s generalizing n with
  | nil => rfl
  | cons c s ih =>
    obtain ⟨⟨hcr, hnul⟩, hrest⟩ := forall_mem_cons.mp hs
    have hstep :
        Reader.step cfg ⟨conn, .sizeEnd v false, n⟩ c = ⟨conn, .sizeEnd v false, n + 1⟩ := by
      simp [Reader.step, Reader.stepLater, Part.next, hcr, hnul]
    rw [Reader.read_cons, hstep, ih hrest, length_cons, Nat.add_assoc, Nat.add_comm 1]

def AtSize (p : Part) : Prop := p = .size 0 ∨ p = .between

theorem sizeValue_line {l : ChunkLine} (hsmall : l.size < 2 ^ 63) :
    sizeValue l.digits 0 = l.size := by
  have h := sizeValue_hex l.hex.2 0
  rw [Nat.cast_zero, Int.zero_bmod] at h
  rw [h, ← hexValue, ← ChunkLine.size]
  exact Int.bmod_eq_of_le (by omega) (by omega)

theorem read_ext (l : ChunkLine) (v : ℤ) (n : ℕ) :
    ∃ m, Reader.read cfg ⟨conn, .size v, n⟩ (l.ext ++ crlf) = ⟨conn, chunkOf v, m⟩ := by
  cases hl : l.ext with
  | nil => exact ⟨_, rfl⟩
  | cons c ext =>
    obtain rfl := l.ext_semicolon c (hl ▸ rfl)
    have hplain : Plain ext := fun d hd => isText_plain l.ext_plain d (hl ▸ mem_cons_of_mem _ hd)
    have hstep : Reader.step cfg ⟨conn, .size v, n⟩ ';' = ⟨conn, .sizeEnd v false, n + 1⟩ := rfl
    rw [cons_append, Reader.read_cons, hstep, Reader.read_append, read_sizeEnd hplain]
    exact ⟨_, rfl⟩

/-- **The line with the size of a chunk.** -/
theorem read_chunkLine {p : Part} (hp : AtSize p) (l : ChunkLine) (hsmall : l.size < 2 ^ 63)
    (n : ℕ) :
    ∃ m, Reader.read cfg ⟨conn, p, n⟩ l.bytes = ⟨conn, chunkOf l.size, m⟩ := by
  obtain ⟨c, ds, hcons⟩ := exists_cons_of_ne_nil l.hex.1
  have hstart :
      Reader.read cfg ⟨conn, p, n⟩ l.bytes = Reader.read cfg ⟨conn, .size 0, n⟩ l.bytes := by
    rcases hp with rfl | rfl
    · rfl
    · rw [ChunkLine.bytes, hcons]
      exact sizeByte_between _ _
  obtain ⟨m, hm⟩ := @read_ext cfg conn l l.size (n + l.digits.length)
  refine ⟨m, ?_⟩
  rw [hstart, ChunkLine.bytes, append_assoc, Reader.read_append, read_digits l.hex.2,
    sizeValue_line hsmall, hm]

/-- **A chunk.** -/
theorem read_chunk {p : Part} (hp : AtSize p) (k : Chunk) (hsmall : k.data.length < 2 ^ 31)
    (n : ℕ) :
    ∃ m, Reader.read cfg ⟨conn, p, n⟩ k.bytes = ⟨conn, .between, m⟩ := by
  have hsize : k.toChunkLine.size = k.data.length := k.size_eq
  have hpos := length_pos_of_ne_nil k.data_ne
  have hchunk : chunkOf k.toChunkLine.size = .data k.data.length := by
    rw [chunkOf, hsize, if_neg (by omega), if_neg (by omega), if_pos (by omega), Int.toNat_natCast]
  obtain ⟨m, hm⟩ := @read_chunkLine cfg conn p hp k.toChunkLine (by omega) n
  rw [Chunk.bytes, append_assoc, Reader.read_append, hm, hchunk, Reader.read_append,
    Reader.read_data le_rfl hpos, if_pos rfl]
  exact ⟨_, rfl⟩

/-- **The chunks up to the last one.** -/
theorem read_chunks {p : Part} (hp : AtSize p) (chunks : List Chunk) {last : ChunkLine}
    (hlast : last.size = 0)
    (hsmall : ∀ k ∈ chunks, k.data.length < 2 ^ 31) (n : ℕ) (t : List Char) :
    (Reader.read cfg ⟨conn, p, n⟩ (chunks.flatMap Chunk.bytes ++ (last.bytes ++ t))).part =
      .complete := by
  induction chunks generalizing p n with
  | nil =>
    obtain ⟨m, hm⟩ := read_chunkLine hp last (by omega) n
    rw [flatMap_nil, nil_append, Reader.read_append, hm, hlast]
    rw [show chunkOf (0 : ℕ) = .complete from rfl,
      Reader.read_final (.inr (.inr (.inr (.inr (.inl rfl)))))]
  | cons k chunks ih =>
    obtain ⟨hk, hrest⟩ := forall_mem_cons.mp hsmall
    obtain ⟨m, hm⟩ := read_chunk hp k hk n
    rw [flatMap_cons, append_assoc, Reader.read_append, hm]
    exact ih (.inr rfl) hrest m

/-! ## The status line -/

theorem countStatus_spec {code : ℕ} (hcode : code < 600) (c : Conn) :
    ∃ c', countStatus code c = some c' ∧ c'.stats.bytesBody = c.stats.bytesBody ∧
      c'.stats.reqError = c.stats.reqError ∧
      c'.client =
        { c.client with statusSuccess := c.client.statusSuccess || decide (code < 400) } := by
  rw [countStatus]
  by_cases h2 : 200 ≤ code ∧ code < 300
  · rw [if_pos h2]
    exact ⟨_, rfl, rfl, rfl, by simp [show code < 400 by omega]⟩
  rw [if_neg h2]
  by_cases h3 : code < 400
  · rw [if_pos h3]
    exact ⟨_, rfl, rfl, rfl, by simp [h3]⟩
  rw [if_neg h3]
  have hsame :
      c.client =
        { c.client with statusSuccess := c.client.statusSuccess || decide (code < 400) } := by
    simp [h3]
  by_cases h4 : code < 500
  · rw [if_pos h4]
    exact ⟨_, rfl, rfl, rfl, hsame⟩
  · rw [if_neg h4, if_pos hcode]
    exact ⟨_, rfl, rfl, rfl, hsame⟩

theorem statusCode_toDigits {code : ℕ} (hge : 100 ≤ code) (hlt : code < 600) :
    statusCode (Nat.toDigits 10 code) 0 = some code ∧ (Nat.toDigits 10 code).length = 3 := by
  have hall : ∀ k < 500, statusCode (Nat.toDigits 10 (100 + k)) 0 = some (100 + k) ∧
      (Nat.toDigits 10 (100 + k)).length = 3 := by decide +kernel
  have h := hall (code - 100) (by omega)
  rwa [Nat.add_sub_cancel' hge] at h

/-- **The status line.** -/
theorem Response.read_status (w : Response) (c : Conn) (t : List Char) :
    ∃ conn n, countStatus w.code c = some conn ∧
      Reader.read cfg c.reader ("HTTP/1.1 ".toList ++ Nat.toDigits 10 w.code ++ ' ' :: w.reason ++
        crlf ++ t) =
        Reader.read cfg ⟨conn, .line [], n⟩ t := by
  obtain ⟨conn, hconn, -⟩ := countStatus_spec w.code_lt c
  obtain ⟨hcode, hlen⟩ := statusCode_toDigits w.code_ge w.code_lt
  obtain ⟨x, y, z, hxyz⟩ := length_eq_three.mp hlen
  have hplain : Plain (' ' :: w.reason) :=
    forall_mem_cons.mpr ⟨by decide, isText_plain w.reason_plain⟩
  refine ⟨conn, 12 + (' ' :: w.reason).length + 1 + 1, hconn, ?_⟩
  rw [hxyz] at hcode ⊢
  have hbytes : "HTTP/1.1 ".toList ++ [x, y, z] ++ ' ' :: w.reason ++ crlf ++ t =
      'H' :: 'T' :: 'T' :: 'P' :: '/' :: '1' :: '.' :: '1' :: ' ' :: x :: y :: z ::
        (' ' :: w.reason ++ '\r' :: ('\n' :: t)) := by
    simp [crlf]
  rw [hbytes, Conn.reader, Reader.read_start c (by simp; omega), if_neg (by simp)]
  simp only [drop_succ_cons, drop_zero, take_succ_cons, take_zero, hcode, Option.bind_some, hconn]
  rw [read_status_cr hplain]
  rfl

end Weighttp
