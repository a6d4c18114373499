import ReadingComment.Spserver.HttpMsg

/-!
# Well-formed HTTP messages

The text of a message as the protocol has it: a start line, header lines with a name
and a non-empty value, a blank line, and a body whose length is given by
`Content-Length` or that comes in chunks. Each piece carries its own syntax. For each
there is a lemma that says what the parser makes of its text.
-/

namespace Spserver

open HttpMsgParser Lib List

def crlf : List Char := ['\r', '\n']

/-- There is no line end and no NUL. -/
def Clean (s : List Char) : Prop := ∀ c ∈ s, isBreak c = false ∧ c ≠ '\x00'

instance : DecidablePred Clean :=
  fun s => List.decidableBAll (fun c => isBreak c = false ∧ c ≠ '\x00') s

/-- A header line. -/
structure HeaderLine where
  name : List Char
  value : List Char
  name_clean : Clean name
  name_ne : name ≠ []
  name_colon : ':' ∉ name
  value_clean : Clean value
  value_ne : value ≠ []

namespace HeaderLine

def text (h : HeaderLine) : List Char := h.name ++ ':' :: h.value ++ crlf

/-- The field as the message keeps it. -/
def entry (h : HeaderLine) : List Char × List Char :=
  (h.name, h.value.dropWhile (· == ' '))

end HeaderLine

/-- The fields as they are sent. -/
def headerText (hs : List HeaderLine) : List Char := (hs.map HeaderLine.text).flatten

/-- The line before a chunk: the size in hexadecimal digits, of which the parser's array
holds 31, and perhaps an extension. -/
structure ChunkLine where
  size : List Char
  ext : List Char
  size_digits : ∀ c ∈ size, (digitValue 16 c).isSome
  size_ne : size ≠ []
  size_length : size.length ≤ 31
  ext_clean : Clean ext
  ext_head : ∀ c ∈ ext.head?, c = ';' ∨ c = ' ' ∨ c = '\t'

namespace ChunkLine

def text (l : ChunkLine) : List Char := l.size ++ l.ext ++ crlf

def value (l : ChunkLine) : ℕ := digits 16 l.size 0

end ChunkLine

/-- A chunk of data with its size line. -/
structure Chunk where
  line : ChunkLine
  data : List Char
  data_ne : data ≠ []
  size_eq : line.value = data.length

def Chunk.text (c : Chunk) : List Char := c.line.text ++ c.data ++ crlf

def chunkText (cs : List Chunk) : List Char := (cs.map Chunk.text).flatten

/-- The body of a message. -/
inductive Body where
  /-- a body of known length -/
  | length (content : List Char)
  /-- chunks, the line of size 0, and trailer lines up to a blank one -/
  | chunked (chunks : List Chunk) (last : ChunkLine) (trailers : List HeaderLine)

namespace Body

def text : Body → List Char
  | length content => content
  | chunked chunks last trailers => chunkText chunks ++ last.text ++ (headerText trailers ++ crlf)

/-- The body is in chunks. -/
def isChunked : Body → Bool
  | length _ => false
  | chunked .. => true

/-- The header says how the body ends. -/
def Framed (headers : List (List Char × List Char)) : Body → Prop
  | length content =>
    (headerValue headers "Transfer-Encoding".toList).any (caseEq · "chunked".toList) = false ∧
      atoi ((headerValue headers "Content-Length".toList).getD "0".toList) = content.length
  | chunked _ last _ =>
    (headerValue headers "Transfer-Encoding".toList).any (caseEq · "chunked".toList) = true ∧
      last.value = 0

end Body

/-- A well-formed message; its length is an `int`. -/
structure HttpText where
  startLine : List Char
  headers : List HeaderLine
  body : Body
  startLine_clean : Clean startLine
  framed : body.Framed (headers.map HeaderLine.entry)
  fits : (startLine ++ crlf ++ headerText headers ++ crlf ++ body.text).length < 2 ^ 31

namespace HttpText

/-- The start line and the fields. -/
def head (m : HttpText) : List Char := m.startLine ++ crlf ++ headerText m.headers

def text (m : HttpText) : List Char := m.head ++ crlf ++ m.body.text

/-- The start line ends right after its second space: a response without a reason
phrase, or a request without a version. -/
def EmptyLastPart (m : HttpText) : Prop :=
  (strsep ' ' (strsep ' ' (some m.startLine)).2).2 = some []

instance (m : HttpText) : Decidable m.EmptyLastPart :=
  inferInstanceAs (Decidable (_ = some []))

end HttpText

/-! ## Lines and the characters in them -/

variable {s : List Char}

theorem Clean.newline_notMem (h : Clean s) : '\n' ∉ s :=
  fun hn => absurd (h _ hn).1 (by decide)

theorem Clean.nul_notMem (h : Clean s) : '\x00' ∉ s :=
  fun hn => (h _ hn).2 rfl

theorem Clean.append {s t : List Char} (hs : Clean s) (ht : Clean t) : Clean (s ++ t) := by
  intro c hc
  exact (mem_append.1 hc).elim (hs c) (ht c)

theorem Clean.cons {c : Char} (hc : isBreak c = false ∧ c ≠ '\x00') (hs : Clean s) :
    Clean (c :: s) := by
  intro d hd
  rcases mem_cons.1 hd with rfl | hd
  · exact hc
  · exact hs d hd

theorem Clean.line (h : Clean s) (t : List Char) :
    s ++ crlf ++ t = (s ++ ['\r']) ++ '\n' :: t ∧ '\n' ∉ s ++ ['\r'] := by
  refine ⟨by simp [crlf], ?_⟩
  simpa using h.newline_notMem

theorem Clean.lineLen (h : Clean s) (t : List Char) :
    lineLen (s ++ crlf ++ t) = (s ++ crlf).length := by
  rw [(h.line t).1, lineLen_append (h.line t).2]
  simp [crlf]

theorem Clean.take_line (h : Clean s) (t : List Char) :
    (s ++ crlf ++ t).take (Lib.lineLen (s ++ crlf ++ t)) = s ++ crlf := by
  rw [h.lineLen t, take_left]

theorem Clean.cstr_line (h : Clean s) : cstr (s ++ crlf) = s ++ crlf := by
  apply cstr_eq_self
  simpa [crlf] using h.nul_notMem

theorem Clean.strtok_line (h : Clean s) :
    strtok (s ++ crlf) = if s = [] then none else some s := by
  have hs : strtok (s ++ '\r' :: '\n' :: []) = _ := strtok_append (fun c hc => (h c hc).1) []
  rw [crlf, hs]
  rfl

theorem Clean.cases {s b z t : List Char} (h : Clean s) (hb : b ++ z = s ++ crlf ++ t) :
    ('\n' ∉ b ∧ b.length ≤ s.length + 1 ∧ t.length < z.length) ∨
      ∃ b', b = s ++ crlf ++ b' ∧ b' ++ z = t := by
  rw [(h.line t).1] at hb
  rcases line_cases (h.line t).2 hb with ⟨hn, u, hu, rfl⟩ | ⟨b', rfl, hz⟩
  · have hl := congrArg List.length hu
    simp only [length_append, length_cons, length_nil] at hl ⊢
    exact Or.inl ⟨hn, by omega, by omega⟩
  · exact Or.inr ⟨b', by simp [crlf], hz⟩

/-! ## Header lines -/

namespace HeaderLine

def line (h : HeaderLine) : List Char := h.name ++ ':' :: h.value

theorem text_eq (h : HeaderLine) : h.text = h.line ++ crlf := rfl

theorem line_clean (h : HeaderLine) : Clean h.line :=
  h.name_clean.append (h.value_clean.cons (by decide))

theorem line_head (h : HeaderLine) : ∃ c cs, h.line = c :: cs ∧ isBreak c = false := by
  obtain ⟨c, cs, hc⟩ := exists_cons_of_ne_nil h.name_ne
  refine ⟨c, cs ++ ':' :: h.value, by rw [line, hc, cons_append], ?_⟩
  exact (h.name_clean c (by rw [hc]; exact mem_cons_self ..)).1

theorem addHeaderLine (h : HeaderLine) (message : HttpMessage) :
    HttpMsgParser.addHeaderLine message (cstr h.text) =
      .ok (message.addHeader h.entry.1 h.entry.2) := by
  have hsep : strsep ':' (some (h.name ++ ':' :: (h.value ++ crlf))) = _ :=
    strsep_append h.name_colon (h.value ++ crlf)
  have htok := h.value_clean.strtok_line
  rw [if_neg h.value_ne] at htok
  rw [text_eq, h.line_clean.cstr_line, HttpMsgParser.addHeaderLine, line, append_assoc,
    cons_append, hsep]
  simp only [htok, entry]

theorem parseHeader (h : HeaderLine) (message : HttpMessage) (b : List Char) :
    HttpMsgParser.parseHeader message (h.text ++ b) =
      .ok (message.addHeader h.entry.1 h.entry.2, h.text.length) := by
  have hlen : lineLen (h.text ++ b) = h.text.length := h.line_clean.lineLen b
  have htake : (h.text ++ b).take h.text.length = h.text := take_left
  have hpos : h.text.length ≠ 0 := by simp [text, crlf]
  rw [HttpMsgParser.parseHeader, hlen, if_neg hpos, htake, addHeaderLine]
  rfl

end HeaderLine

/-! ## The start line -/

theorem strsep_line (hs : Clean s) :
    strsep ' ' (some (s ++ crlf)) =
      match strsep ' ' (some s) with
      | (first, some t) => (first, some (t ++ crlf))
      | (_, none) => (some (s ++ crlf), none) := by
  rcases strsep_cases ' ' s with h | ⟨u, v, rfl, h⟩
  · have hc : ' ' ∉ s ++ crlf := by simpa [crlf] using h
    rw [strsep_notMem h, strsep_notMem hc]
  · rw [append_assoc, cons_append, strsep_append h, strsep_append h]

theorem strsep_clean {s t : List Char} (hs : Clean s) (ht : (strsep ' ' (some s)).2 = some t) :
    Clean t := by
  rcases strsep_cases ' ' s with h | ⟨u, v, rfl, h⟩
  · rw [strsep_notMem h] at ht
    exact absurd ht (by simp)
  · rw [strsep_append h] at ht
    obtain rfl : v = t := by simpa using ht
    intro c hc
    exact hs c (by simp [hc])

theorem lineRest_line (hs : Clean s) :
    lineRest (some (s ++ crlf)) = if s = [] then .error .nullString else .ok (some s) := by
  rw [lineRest]
  simp only [hs.strtok_line]
  split_ifs <;> rfl

namespace HttpText

theorem lineRest_startLine (m : HttpText) :
    ∃ res, lineRest (strsep ' ' (strsep ' ' (some (m.startLine ++ crlf))).2).2 = res ∧
      ((∃ e, res = .error e) ↔ m.EmptyLastPart) := by
  refine ⟨_, rfl, ?_⟩
  rw [EmptyLastPart, strsep_line m.startLine_clean]
  cases hfirst : strsep ' ' (some m.startLine) with
  | mk first pos =>
    cases pos with
    | none => simp [strsep, lineRest]
    | some pos =>
      have hpos : Clean pos := strsep_clean m.startLine_clean (by rw [hfirst])
      simp only [strsep_line hpos]
      cases hsecond : strsep ' ' (some pos) with
      | mk second rest =>
        cases rest with
        | none => simp [lineRest]
        | some rest =>
          have hrest : Clean rest := strsep_clean hpos (by rw [hsecond])
          simp only [lineRest_line hrest]
          split_ifs with h
          · simp [h]
          · simp [h]

theorem startMessage_cases (m : HttpText) :
    (m.EmptyLastPart ∧ ∃ e, startMessage (m.startLine ++ crlf) = .error e) ∨
      (¬ m.EmptyLastPart ∧ ∃ message, startMessage (m.startLine ++ crlf) = .ok message ∧
        message.headers = [] ∧ message.content = []) := by
  obtain ⟨res, hres, hiff⟩ := m.lineRest_startLine
  rw [startMessage]
  cases res with
  | error e =>
    refine Or.inl ⟨hiff.1 ⟨e, rfl⟩, e, ?_⟩
    simp only [hres]
    split_ifs <;> rfl
  | ok text =>
    refine Or.inr ⟨fun h => ?_, ?_⟩
    · obtain ⟨e, he⟩ := hiff.2 h
      exact absurd he (by simp)
    · simp only [hres]
      split_ifs
      · exact ⟨_, rfl, rfl, rfl⟩
      · exact ⟨_, rfl, rfl, rfl⟩

theorem parseStartLine (m : HttpText) (b : List Char) :
    HttpMsgParser.parseStartLine (m.startLine ++ crlf ++ b) =
      (startMessage (m.startLine ++ crlf)).map fun message =>
        (some message, (m.startLine ++ crlf).length) := by
  have hpos : (m.startLine ++ crlf).length ≠ 0 := by simp [crlf]
  rw [HttpMsgParser.parseStartLine, m.startLine_clean.take_line, m.startLine_clean.lineLen,
    if_neg hpos, m.startLine_clean.cstr_line]
  cases startMessage (m.startLine ++ crlf) <;> rfl

end HttpText

/-! ## Chunk lines -/

theorem digitValue_eq_none_of_isSpace {c : Char} (h : isSpace c = true) :
    digitValue 16 c = none := by
  have hc : c.toNat = 32 ∨ (9 ≤ c.toNat ∧ c.toNat ≤ 13) := by
    simp only [isSpace, Bool.or_eq_true, Bool.and_eq_true, decide_eq_true_eq] at h
    exact h.imp (fun h => by rw [h]; rfl) id
  have hlt : ∀ d : Char, 33 ≤ d.toNat → ¬ d ≤ c := by
    intro d hd hle
    have : d.toNat ≤ c.toNat := hle
    omega
  simp [digitValue, hlt '0' (by decide), hlt 'a' (by decide), hlt 'A' (by decide)]

namespace ChunkLine

theorem digit_ne (l : ChunkLine) {c d : Char} (hc : c ∈ l.size) (hd : digitValue 16 d = none) :
    c ≠ d := by
  rintro rfl
  have := l.size_digits c hc
  rw [hd] at this
  exact absurd this (by simp)

theorem size_clean (l : ChunkLine) : Clean l.size := by
  intro c hc
  refine ⟨?_, l.digit_ne hc (by decide)⟩
  simp [isBreak, l.digit_ne (d := '\r') hc (by decide), l.digit_ne (d := '\n') hc (by decide)]

theorem line_clean (l : ChunkLine) : Clean (l.size ++ l.ext) := l.size_clean.append l.ext_clean

theorem strtol_size (l : ChunkLine) {e : List Char}
    (he : ∀ c ∈ e.head?, c = ';' ∨ c = ' ' ∨ c = '\t') (hv : l.value < 2 ^ 31) :
    toInt (strtol 16 (l.size ++ e)) = l.value := by
  have henone : ∀ c ∈ e.head?, digitValue 16 c = none := by
    intro c hc
    rcases he c hc with rfl | rfl | rfl <;> decide
  have hdigits : digits 16 (l.size ++ e) 0 = l.value := digits_append l.size_digits henone 0
  obtain ⟨c, cs, hsize⟩ := exists_cons_of_ne_nil l.size_ne
  have hc : c ∈ l.size := by rw [hsize]; exact mem_cons_self ..
  have hspace : isSpace c = false := by
    rw [Bool.eq_false_iff]
    intro h
    exact l.digit_ne hc (digitValue_eq_none_of_isSpace h) rfl
  -- the second character is a digit or begins the extension, so there is no `0x`
  have hstrip : stripHex (c :: (cs ++ e)) = c :: (cs ++ e) := by
    apply stripHex_cons
    intro x hx
    cases cs with
    | nil => rcases he x hx with rfl | rfl | rfl <;> decide
    | cons y ys =>
      obtain rfl : y = x := by simpa using hx
      have hy : y ∈ l.size := by rw [hsize]; simp
      exact ⟨l.digit_ne hy (by decide), l.digit_ne hy (by decide)⟩
  have hsign : stripSign (c :: (cs ++ e)) = (false, c :: (cs ++ e)) :=
    stripSign_cons (l.digit_ne hc (by decide)) (l.digit_ne hc (by decide)) _
  have hdrop : (c :: (cs ++ e)).dropWhile isSpace = c :: (cs ++ e) := by
    rw [dropWhile_cons, if_neg (by simp [hspace])]
  have hstrtol : strtol 16 (l.size ++ e) = l.value := by
    rw [hsize, cons_append] at hdigits ⊢
    simp only [strtol, hdrop, hsign, hstrip, hdigits, if_true, Bool.false_eq_true, if_false]
    omega
  rw [hstrtol, toInt, Int.bmod_eq_of_le (by omega) (by omega)]

theorem getLine (l : ChunkLine) (t : List Char) :
    ∃ e, HttpMsgParser.getLine (l.text ++ t) = (l.text.length, l.size ++ e) ∧
      ∀ c ∈ e.head?, c = ';' ∨ c = ' ' ∨ c = '\t' := by
  have hlen : lineLen (l.text ++ t) = l.text.length := l.line_clean.lineLen t
  have htake : (l.text ++ t).take l.text.length = l.text := take_left
  -- the array holds all digits and as much of the rest as fits
  have h31 : l.text.take 31 = l.size ++ (l.ext ++ crlf).take (31 - l.size.length) := by
    rw [text, append_assoc, take_append, take_of_length_le l.size_length]
  have hcstr : cstr (l.text.take 31) = l.text.take 31 := by
    apply cstr_eq_self
    intro h
    have := mem_of_mem_take h
    simp [text, crlf, l.size_clean.nul_notMem, l.ext_clean.nul_notMem] at this
  have hbreak : ∀ c ∈ l.size, (! isBreak c) = true := by
    intro c hc
    simp [(l.size_clean c hc).1]
  have hcut : cutLine (l.text.take 31) =
      l.size ++ ((l.ext ++ crlf).take (31 - l.size.length)).takeWhile (! isBreak ·) := by
    obtain ⟨c, cs, hsize⟩ := exists_cons_of_ne_nil l.size_ne
    have hc : isBreak c = false := (l.size_clean c (by rw [hsize]; exact mem_cons_self ..)).1
    have hfront : cutLine (l.text.take 31) = (l.text.take 31).takeWhile (! isBreak ·) := by
      rw [h31, hsize, cons_append, cutLine, takeWhile_cons, dropWhile_cons]
      simp [hc]
    rw [hfront, h31, takeWhile_append_of_pos hbreak]
  refine ⟨((l.ext ++ crlf).take (31 - l.size.length)).takeWhile (! isBreak ·), ?_, ?_⟩
  · rw [HttpMsgParser.getLine, hlen, htake, hcstr, hcut]
  · intro c hc
    apply l.ext_head c
    cases hext : l.ext with
    | nil =>
      rw [hext] at hc
      cases hk : 31 - l.size.length with
      | zero => simp [hk] at hc
      | succ k => simp [hk, crlf, isBreak] at hc
    | cons d ds =>
      rw [hext] at hc
      cases hk : 31 - l.size.length with
      | zero => simp [hk] at hc
      | succ k =>
        have hd : isBreak d = false := (l.ext_clean d (by rw [hext]; exact mem_cons_self ..)).1
        simpa [hk, hd] using hc

end ChunkLine

end Spserver
