import ReadingComment.Spserver.HttpText

/-!
# One call of the parser

What `append` does with a buffer that holds a piece of a well-formed message. While the
start line and the headers come in, the parser stands at the beginning of a line
(`Before`); what it has of the line waits in the buffer. A call that reaches the blank
line goes on in the body, also if only half of the blank line is there. A body of known
length is taken when it is complete, a chunk when the line end after it is there.
-/

namespace Spserver

open Lib List

def HttpMessage.addHeaders (message : HttpMessage) (hs : List HeaderLine) : HttpMessage :=
  { message with headers := message.headers ++ hs.map HeaderLine.entry }

@[simp]
theorem HttpMessage.addHeaders_nil (message : HttpMessage) : message.addHeaders [] = message := by
  simp [addHeaders]

theorem HttpMessage.addHeader_addHeaders (message : HttpMessage) (h : HeaderLine)
    (hs : List HeaderLine) :
    (message.addHeader h.entry.1 h.entry.2).addHeaders hs = message.addHeaders (h :: hs) := by
  simp [addHeaders, addHeader]

theorem HttpMessage.addHeaders_append (message : HttpMessage) (hs hs' : List HeaderLine) :
    (message.addHeaders hs).addHeaders hs' = message.addHeaders (hs ++ hs') := by
  simp [addHeaders]

namespace HttpMsgParser

/-! ## The header lines -/

variable {fuel : ℕ} {b : List Char} {n : ℕ} {status : Status}

theorem parseHeaders_noLine (message : HttpMessage) {c : Char} {cs : List Char}
    (hn : '\n' ∉ c :: cs) :
    parseHeaders (fuel + 1) message (c :: cs) =
      .ok (message, if isBreak c then .content else .header, 0) := by
  rw [parseHeaders, parseHeader, if_pos (lineLen_eq_zero hn)]
  cases isBreak c <;> rfl

theorem parseHeaders_blank (message : HttpMessage) (b : List Char) :
    parseHeaders (fuel + 1) message (crlf ++ b) = .ok (message, .content, 2) := by
  have hlen : lineLen (crlf ++ b) = 2 := lineLen_append (s := ['\r']) (by decide) b
  have hline : addHeaderLine message (cstr crlf) = .ok message := by
    rw [show cstr crlf = crlf from rfl, addHeaderLine, strsep_notMem (by decide)]
  have htake : (crlf ++ b).take 2 = crlf := take_left' rfl
  have hparse : parseHeader message (crlf ++ b) = .ok (message, 2) := by
    rw [parseHeader, hlen, if_neg (by decide), htake, hline]
    rfl
  have hb : crlf ++ b = '\r' :: '\n' :: b := rfl
  rw [hb] at hparse ⊢
  rw [parseHeaders, hparse]
  rfl

theorem parseHeaders_line (message : HttpMessage) (h : HeaderLine) (b : List Char) :
    parseHeaders (fuel + 1) message (h.text ++ b) =
      (parseHeaders fuel (message.addHeader h.entry.1 h.entry.2) b).map fun res =>
        (res.1, res.2.1, h.text.length + res.2.2) := by
  obtain ⟨c, cs, hline, hc⟩ := h.line_head
  have htext : h.text ++ b = c :: (cs ++ crlf ++ b) := by simp [h.text_eq, hline]
  have hparse := h.parseHeader message b
  have hpos : h.text.length ≠ 0 := by simp [HeaderLine.text, crlf]
  have hdrop : (h.text ++ b).drop h.text.length = b := drop_left
  rw [htext] at hparse hdrop ⊢
  rw [parseHeaders, hparse]
  simp only [bind, Except.bind, hc, Bool.false_eq_true, if_false, hpos, hdrop]
  cases parseHeaders fuel (message.addHeader h.entry.1 h.entry.2) b <;> rfl

/-- The header loop on a piece of the header lines: it waits before a line that is not
complete, or it stops at half a blank line, or it takes the blank line. -/
theorem parseHeaders_cases {hs : List HeaderLine} {tail b z : List Char} (message : HttpMessage)
    (hf : b.length < fuel) (hb : b ++ z = headerText hs ++ (crlf ++ tail)) :
    (∃ done todo n, hs = done ++ todo ∧
        parseHeaders fuel message b = .ok (message.addHeaders done, .header, n) ∧
        b.drop n ++ z = headerText todo ++ (crlf ++ tail) ∧ tail.length + 2 ≤ z.length) ∨
      (∃ n, parseHeaders fuel message b = .ok (message.addHeaders hs, .content, n) ∧
        b.drop n = ['\r'] ∧ z = '\n' :: tail) ∨
      ∃ n, parseHeaders fuel message b = .ok (message.addHeaders hs, .content, n) ∧
        b.drop n ++ z = tail := by
  induction hs generalizing b fuel message with
  | nil =>
    obtain ⟨fuel, rfl⟩ : ∃ f, fuel = f + 1 := ⟨fuel - 1, by omega⟩
    rcases b with - | ⟨c, - | ⟨d, b⟩⟩
    · refine Or.inl ⟨[], [], 0, rfl, by simp [parseHeaders], by simpa using hb, ?_⟩
      obtain rfl : z = crlf ++ tail := by simpa [headerText] using hb
      simp [crlf]
    · obtain ⟨rfl, rfl⟩ : c = '\r' ∧ z = '\n' :: tail := by simpa [headerText, crlf] using hb
      refine Or.inr (Or.inl ⟨0, ?_, rfl, rfl⟩)
      rw [parseHeaders_noLine message (by decide)]
      simp [isBreak]
    · obtain ⟨rfl, rfl, hz⟩ : c = '\r' ∧ d = '\n' ∧ b ++ z = tail := by
        simpa [headerText, crlf] using hb
      refine Or.inr (Or.inr ⟨2, ?_, hz⟩)
      rw [HttpMessage.addHeaders_nil]
      exact parseHeaders_blank message b
  | cons h hs ih =>
    obtain ⟨fuel, rfl⟩ : ∃ f, fuel = f + 1 := ⟨fuel - 1, by omega⟩
    have hb' : b ++ z = h.line ++ crlf ++ (headerText hs ++ (crlf ++ tail)) := by
      rw [hb]
      simp [headerText, HeaderLine.text_eq]
    rcases h.line_clean.cases hb' with ⟨hn, -, hz⟩ | ⟨b', rfl, hz⟩
    · -- the line is not complete: nothing is taken
      refine Or.inl ⟨[], h :: hs, 0, rfl, ?_, by simpa using hb, ?_⟩
      · rw [HttpMessage.addHeaders_nil]
        cases b with
        | nil => rfl
        | cons c cs =>
          obtain ⟨d, ds, hd, hbreak⟩ := h.line_head
          obtain rfl : c = d := by
            rw [hd] at hb'
            simpa using congrArg List.head? hb'
          rw [parseHeaders_noLine message hn, hbreak]
          rfl
      · simp [crlf] at hz
        omega
    · have hlen : b'.length < fuel := by
        simp only [length_append] at hf
        simp [crlf] at hf
        omega
      have hdrop : ∀ n, (h.text ++ b').drop (h.text.length + n) = b'.drop n := fun n => by
        rw [← drop_drop, drop_left]
      rw [← h.text_eq, parseHeaders_line]
      rcases ih (message.addHeader h.entry.1 h.entry.2) hlen hz with
        ⟨done, todo, n, rfl, hp, hleft, hlong⟩ | ⟨n, hp, hleft, rfl⟩ | ⟨n, hp, hleft⟩
      · refine Or.inl ⟨h :: done, todo, h.text.length + n, rfl, ?_, ?_, hlong⟩
        · rw [hp, HttpMessage.addHeader_addHeaders]
          rfl
        · rw [hdrop, hleft]
      · refine Or.inr (Or.inl ⟨h.text.length + n, ?_, ?_, rfl⟩)
        · rw [hp, HttpMessage.addHeader_addHeaders]
          rfl
        · rw [hdrop, hleft]
      · refine Or.inr (Or.inr ⟨h.text.length + n, ?_, ?_⟩)
        · rw [hp, HttpMessage.addHeader_addHeaders]
          rfl
        · rw [hdrop, hleft]

/-! ## From the start line to the body -/

def advance (k : ℕ) (res : HttpMsgParser × ℕ) : HttpMsgParser × ℕ := (res.1, k + res.2)

theorem map_advance_zero (res : Except HttpFault (HttpMsgParser × ℕ)) :
    res.map (advance 0) = res := by
  cases res <;> simp [Except.map, advance]

def inBody (message : HttpMessage) : HttpMsgParser := ⟨some message, .content, false⟩

theorem parseRest_header {x : Option HttpMessage} {message message' : HttpMessage}
    (h : parseHeaders (b.length + 1) message b = .ok (message', .header, n)) :
    parseRest ⟨x, .header, false⟩ message b = .ok (⟨some message', .header, false⟩, n) := by
  simp [parseRest, h, parseBody, bind, Except.bind]

theorem parseRest_content {x : Option HttpMessage} {message message' : HttpMessage}
    (h : parseHeaders (b.length + 1) message b = .ok (message', .content, n)) :
    parseRest ⟨x, .header, false⟩ message b =
      (append (inBody message') (b.drop n)).map (advance n) := by
  simp only [parseRest, h, if_true, append, inBody, bind, Except.bind, reduceCtorEq, if_false,
    drop_zero]
  cases parseBody false message' .content (b.drop n) with
  | error e => rfl
  | ok res => simp [Except.map, advance]

section Before

variable (m : HttpText) (message : HttpMessage) (r : List Char)

/-- The parser at the beginning of the start line or of a header line, and the bytes
that it has not taken. -/
inductive Before : HttpMsgParser → List Char → Prop
  | start : Before .new (m.startLine ++ crlf ++ (headerText m.headers ++ (crlf ++ r)))
  | header {done todo : List HeaderLine} (h : m.headers = done ++ todo) :
    Before ⟨some (message.addHeaders done), .header, false⟩ (headerText todo ++ (crlf ++ r))

variable {m message r}

theorem Before.status_ne {p : HttpMsgParser} {left : List Char} (h : Before m message r p left) :
    p.status ≠ .completed := by
  cases h <;> simp [new]

def HeadCases (m : HttpText) (message : HttpMessage) (r b z : List Char)
    (res : Except HttpFault (HttpMsgParser × ℕ)) : Prop :=
  (∃ p n, res = .ok (p, n) ∧ Before m message r p (b.drop n ++ z) ∧ r.length + 2 ≤ z.length) ∨
    (∃ n, res = (append (inBody (message.addHeaders m.headers)) (b.drop n)).map (advance n) ∧
      b.drop n = ['\r'] ∧ z = '\n' :: r) ∨
    ∃ n, res = (append (inBody (message.addHeaders m.headers)) (b.drop n)).map (advance n) ∧
      b.drop n ++ z = r

theorem parseRest_cases {x : Option HttpMessage} {done todo : List HeaderLine} {b z : List Char}
    (h : m.headers = done ++ todo) (hb : b ++ z = headerText todo ++ (crlf ++ r)) :
    HeadCases m message r b z
      (parseRest ⟨x, .header, false⟩ (message.addHeaders done) b) := by
  rcases parseHeaders_cases (message.addHeaders done) (Nat.lt_succ_self b.length) hb with
    ⟨done', todo', n, rfl, hp, hleft, hlong⟩ | ⟨n, hp, hleft, hz⟩ | ⟨n, hp, hleft⟩
  · rw [HttpMessage.addHeaders_append] at hp
    refine Or.inl ⟨_, n, parseRest_header hp, ?_, hlong⟩
    rw [hleft]
    exact Before.header (by rw [h, append_assoc])
  · rw [HttpMessage.addHeaders_append, ← h] at hp
    exact Or.inr (Or.inl ⟨n, parseRest_content hp, hleft, hz⟩)
  · rw [HttpMessage.addHeaders_append, ← h] at hp
    exact Or.inr (Or.inr ⟨n, parseRest_content hp, hleft⟩)

theorem HeadCases.advance {s b z : List Char} {res : Except HttpFault (HttpMsgParser × ℕ)}
    (h : HeadCases m message r b z res) :
    HeadCases m message r (s ++ b) z (res.map (advance s.length)) := by
  have hdrop : ∀ n, (s ++ b).drop (s.length + n) = b.drop n := fun n => by
    rw [← drop_drop, drop_left]
  have hmap : ∀ n (res : Except HttpFault (HttpMsgParser × ℕ)),
      (res.map (HttpMsgParser.advance n)).map (HttpMsgParser.advance s.length) =
        res.map (HttpMsgParser.advance (s.length + n)) := by
    intro n res
    cases res <;> simp [Except.map, HttpMsgParser.advance, Nat.add_assoc]
  rcases h with ⟨p, n, rfl, hp, hlong⟩ | ⟨n, rfl, hb, hz⟩ | ⟨n, rfl, hb⟩
  · exact Or.inl ⟨p, s.length + n, rfl, by rwa [hdrop], hlong⟩
  · exact Or.inr (Or.inl ⟨s.length + n, by rw [hmap, hdrop], by rwa [hdrop], hz⟩)
  · exact Or.inr (Or.inr ⟨s.length + n, by rw [hmap, hdrop], by rwa [hdrop]⟩)

theorem append_start (hstart : startMessage (m.startLine ++ crlf) = .ok message) (b : List Char) :
    append .new (m.startLine ++ crlf ++ b) =
      (parseRest ⟨none, .header, false⟩ message b).map
        (advance (m.startLine ++ crlf).length) := by
  have hparse := m.parseStartLine b
  rw [hstart] at hparse
  have hdrop : (m.startLine ++ crlf ++ b).drop (m.startLine ++ crlf).length = b := drop_left
  simp only [append, new, reduceCtorEq, if_false, hparse, Except.map, bind, Except.bind, hdrop]
  cases parseRest ⟨none, .header, false⟩ message b <;> rfl

theorem Before.append_cases (hstart : startMessage (m.startLine ++ crlf) = .ok message)
    {p : HttpMsgParser} {left b z : List Char} (h : Before m message r p left)
    (hb : b ++ z = left) : HeadCases m message r b z (append p b) := by
  cases h with
  | start =>
    rcases m.startLine_clean.cases hb with ⟨hn, -, hz⟩ | ⟨b', rfl, hz⟩
    · have hp : append .new b = .ok (.new, 0) := by
        simp [append, new, parseStartLine, lineLen_eq_zero hn, bind, Except.bind]
      refine Or.inl ⟨.new, 0, hp, ?_, ?_⟩
      · rw [drop_zero, hb]
        exact Before.start
      · simp [crlf] at hz
        omega
    · rw [append_start hstart]
      have hcases : HeadCases m message r b' z
          (parseRest ⟨none, .header, false⟩ (message.addHeaders []) b') :=
        parseRest_cases (nil_append m.headers).symm hz
      rw [HttpMessage.addHeaders_nil] at hcases
      exact hcases.advance
  | header h => exact parseRest_cases h hb

end Before

/-! ## The body -/

theorem append_inBody {message : HttpMessage} (b : List Char) :
    append (inBody message) b =
      (if isChunked message then parseChunked (b.length + 1) message b
        else parseContent message b).map fun res =>
          (⟨some (if res.2.1 = .completed then postProcess res.1 else res.1), res.2.1, false⟩,
            res.2.2) := by
  simp only [append, inBody, reduceCtorEq, if_false, parseRest, bind, Except.bind, drop_zero,
    parseBody, Bool.false_eq_true, and_false, if_true]
  split_ifs
  · cases parseChunked (b.length + 1) message b <;> simp [Except.map]
  · cases parseContent message b <;> simp [Except.map]

theorem append_inBody_length {message : HttpMessage} (hc : isChunked message = false)
    (hlen : contentLength message = n) (hn : n + 1 < 2 ^ 31) (hcontent : message.content = [])
    (b : List Char) :
    append (inBody message) b =
      if n ≤ b.length then
        .ok (⟨some (postProcess { message with content := b.take n }), .completed, false⟩, n)
      else .ok (inBody message, 0) := by
  have hparse : parseContent message b =
      if n ≤ b.length then .ok ({ message with content := b.take n }, .completed, n)
      else .ok (message, .content, 0) := by
    obtain ⟨kind, version, headers, content⟩ := message
    obtain rfl : content = [] := hcontent
    simp only [parseContent, hlen, Int.toNat_natCast, Int.natCast_pos, Nat.cast_le, bind,
      Except.bind]
    by_cases hle : n ≤ b.length
    · rcases Nat.eq_zero_or_pos n with rfl | hpos
      · simp
      · have hn' : n + 1 < 2147483648 := by simpa using hn
        simp [hle, hpos, HttpMessage.appendContent, hn']
    · have hpos : n ≠ 0 := by omega
      simp [hle, hpos]
  rw [append_inBody, hc, hparse]
  split_ifs with h <;> simp_all [Except.map, inBody]

theorem parseChunked_noLine (message : HttpMessage) (hn : '\n' ∉ b) :
    parseChunked fuel message b = .ok (message, .content, 0) := by
  cases fuel with
  | zero => rfl
  | succ fuel =>
    have hline : getLine b = (0, []) := by rw [getLine, lineLen_eq_zero hn]; rfl
    have hzero : toInt (strtol 16 []) = 0 := by decide
    simp [parseChunked, hline, hzero]

theorem parseChunked_last (message : HttpMessage) {size : List Char} (hline : getLine b = (n, size))
    (hsize : toInt (strtol 16 size) = 0) (hn : 0 < n) :
    parseChunked (fuel + 1) message b = .ok (message, .completed, n) := by
  simp [parseChunked, hline, hsize, hn]

theorem getLine_chunk (c : Chunk) (b : List Char) (hdata : c.data.length < 2 ^ 31) :
    ∃ size, getLine (c.line.text ++ b) = (c.line.text.length, size) ∧
      toInt (strtol 16 size) = c.data.length := by
  obtain ⟨e, hline, he⟩ := c.line.getLine b
  refine ⟨_, hline, ?_⟩
  rw [c.line.strtol_size he (by rw [c.size_eq]; exact hdata), c.size_eq]

theorem parseChunked_chunk {message message' : HttpMessage} {c : Chunk}
    (hdata : c.data.length < 2 ^ 31)
    (h : parseChunked (fuel + 1) message (c.text ++ b) = .ok (message', status, n)) :
    ∃ message₁ k, message₁.headers = message.headers ∧
      parseChunked fuel message₁ b = .ok (message', status, k) ∧ n = c.text.length + k := by
  obtain ⟨size, hline, hsize⟩ := getLine_chunk c (c.data ++ (crlf ++ b)) hdata
  have htext : c.text ++ b = c.line.text ++ (c.data ++ (crlf ++ b)) := by simp [Chunk.text]
  have hlength : c.line.text.length + c.data.length + 2 = c.text.length := by
    simp [Chunk.text, crlf, Nat.add_assoc]
  have hpos : 0 < c.data.length := length_pos_iff.2 c.data_ne
  have hdrop : (c.line.text ++ (c.data ++ (crlf ++ b))).drop
      (c.line.text.length + c.data.length) = crlf ++ b := by
    rw [← drop_drop, drop_left, drop_left]
  have htwo : (getLine (crlf ++ b)).1 = 2 := lineLen_append (s := ['\r']) (by decide) b
  have hall : (c.text ++ b).drop c.text.length = b := drop_left
  rw [htext] at h hall
  have hfull : c.line.text.length + c.data.length <
      (c.line.text ++ (c.data ++ (crlf ++ b))).length := by
    simp [crlf]
  simp only [parseChunked, hline, hsize, Int.natCast_pos, hpos, if_true, Int.toNat_natCast, hdrop,
    htwo, hfull, Nat.zero_lt_two, and_self, hlength, hall, drop_left, take_left] at h
  split_ifs at h
  cases happ : message.appendContent c.data with
  | error e => simp [happ, bind, Except.bind] at h
  | ok message₁ =>
    have hheaders : message₁.headers = message.headers := by
      rw [HttpMessage.appendContent] at happ
      split_ifs at happ
      cases happ
      rfl
    simp only [happ, bind, Except.bind] at h
    cases hrec : parseChunked fuel message₁ b with
    | error e => simp [hrec] at h
    | ok res =>
      obtain ⟨message₂, status₂, k⟩ := res
      simp only [hrec, Except.ok.injEq, Prod.mk.injEq] at h
      obtain ⟨rfl, rfl, rfl⟩ := h
      exact ⟨message₁, k, hheaders, hrec, rfl⟩

theorem parseChunked_waits {message message' : HttpMessage} {c : Chunk} {b u : List Char}
    (hdata : c.data.length < 2 ^ 31) (hb : b ++ u = c.text) (hu : u ≠ [])
    (h : parseChunked fuel message b = .ok (message', status, n)) :
    message' = message ∧ status = .content ∧ n = 0 := by
  have hb' : b ++ u = c.line.size ++ c.line.ext ++ crlf ++ (c.data ++ crlf) := by
    rw [hb]
    simp [Chunk.text, ChunkLine.text]
  rcases c.line.line_clean.cases hb' with ⟨hn, -, -⟩ | ⟨b', rfl, hz⟩
  · rw [parseChunked_noLine message hn] at h
    cases h
    exact ⟨rfl, rfl, rfl⟩
  · rw [← ChunkLine.text] at h
    cases fuel with
    | zero =>
      cases h
      exact ⟨rfl, rfl, rfl⟩
    | succ fuel =>
      obtain ⟨size, hline, hsize⟩ := getLine_chunk c b' hdata
      have hpos : 0 < c.data.length := length_pos_iff.2 c.data_ne
      have hdrop : (c.line.text ++ b').drop (c.line.text.length + c.data.length) =
          b'.drop c.data.length := by
        rw [← drop_drop, drop_left]
      -- what is behind the data is at most half a line end
      have hempty : (getLine (b'.drop c.data.length)).1 = 0 := by
        rcases append_eq_append_iff.1 hz with ⟨v, hv, -⟩ | ⟨v, rfl, hv⟩
        · have : b'.drop c.data.length = [] := by
            rw [hv]
            simp
          rw [this]
          rfl
        · rw [drop_left]
          rcases v with - | ⟨x, - | ⟨y, v⟩⟩
          · rfl
          · obtain ⟨rfl, -⟩ : '\r' = x ∧ _ := by simpa [crlf] using hv
            rfl
          · obtain ⟨-, -, hv⟩ : '\r' = x ∧ '\n' = y ∧ v ++ u = [] := by
              simpa [crlf, eq_comm] using hv
            exact absurd (append_eq_nil_iff.1 hv).2 hu
      simp only [parseChunked, hline, hsize, Int.natCast_pos, hpos, if_true, Int.toNat_natCast,
        hdrop, hempty, Nat.lt_irrefl, and_false, if_false] at h
      split_ifs at h
      cases h
      exact ⟨rfl, rfl, rfl⟩

/-- The parser in a chunked body: it waits before a chunk that is not complete, or it ends
with the line of size 0. -/
theorem parseChunked_cases {chunks : List Chunk} {last : ChunkLine} {tail b z : List Char}
    {message message' : HttpMessage} (hlast : last.value = 0)
    (hsize : ∀ c ∈ chunks, c.data.length < 2 ^ 31)
    (hb : b ++ z = chunkText chunks ++ (last.text ++ tail))
    (h : parseChunked fuel message b = .ok (message', status, n)) :
    message'.headers = message.headers ∧
      ((status = .content ∧ ∃ todo, todo <:+ chunks ∧
          b.drop n ++ z = chunkText todo ++ (last.text ++ tail)) ∨
        (status = .completed ∧ b.drop n ++ z = tail)) := by
  induction chunks generalizing b fuel message n with
  | nil =>
    have hb' : b ++ z = last.size ++ last.ext ++ crlf ++ tail := by
      simpa [chunkText, ChunkLine.text] using hb
    rcases last.line_clean.cases hb' with ⟨hn, -, -⟩ | ⟨b', rfl, hz⟩
    · rw [parseChunked_noLine message hn] at h
      cases h
      exact ⟨rfl, Or.inl ⟨rfl, [], suffix_refl _, hb⟩⟩
    · cases fuel with
      | zero =>
        cases h
        exact ⟨rfl, Or.inl ⟨rfl, [], suffix_refl _, hb⟩⟩
      | succ fuel =>
        obtain ⟨e, hline, he⟩ := last.getLine b'
        have hzero : toInt (strtol 16 (last.size ++ e)) = 0 := by
          rw [last.strtol_size he (by omega), hlast]
          rfl
        rw [← ChunkLine.text] at h ⊢
        rw [parseChunked_last message hline hzero (by simp [ChunkLine.text, crlf])] at h
        cases h
        refine ⟨rfl, Or.inr ⟨rfl, ?_⟩⟩
        rw [drop_left, hz]
  | cons c chunks ih =>
    have hdata : c.data.length < 2 ^ 31 := hsize c (mem_cons_self ..)
    have hb' : b ++ z = c.text ++ (chunkText chunks ++ (last.text ++ tail)) := by
      rw [hb]
      simp [chunkText]
    have hsplit : (∃ u, u ≠ [] ∧ b ++ u = c.text) ∨
        ∃ b', b = c.text ++ b' ∧ b' ++ z = chunkText chunks ++ (last.text ++ tail) := by
      rcases append_eq_append_iff.1 hb' with ⟨u, hu, hz⟩ | ⟨b', rfl, hz⟩
      · rcases u with - | ⟨x, u⟩
        · exact Or.inr ⟨[], by simpa using hu.symm, by simpa using hz⟩
        · exact Or.inl ⟨x :: u, cons_ne_nil _ _, hu.symm⟩
      · exact Or.inr ⟨b', rfl, hz.symm⟩
    rcases hsplit with ⟨u, hne, hu⟩ | ⟨b', rfl, hz⟩
    · obtain ⟨rfl, rfl, rfl⟩ := parseChunked_waits hdata hu hne h
      exact ⟨rfl, Or.inl ⟨rfl, c :: chunks, suffix_refl _, hb⟩⟩
    · cases fuel with
      | zero =>
        cases h
        exact ⟨rfl, Or.inl ⟨rfl, c :: chunks, suffix_refl _, hb⟩⟩
      | succ fuel =>
        obtain ⟨message₁, k, hheaders, hrec, rfl⟩ := parseChunked_chunk hdata h
        obtain ⟨hm, hcases⟩ := ih (fun c hc => hsize c (mem_cons_of_mem _ hc)) hz hrec
        rw [← drop_drop, drop_left]
        refine ⟨hm.trans hheaders, ?_⟩
        rcases hcases with ⟨hs, todo, hsuf, hleft⟩ | ⟨hs, hleft⟩
        · exact Or.inl ⟨hs, todo, hsuf.trans (suffix_cons _ _), hleft⟩
        · exact Or.inr ⟨hs, hleft⟩

theorem parseChunked_late {rest b z : List Char} {message message' : HttpMessage}
    (hb : b ++ z = crlf ++ rest) (h : parseChunked fuel message b = .ok (message', status, n)) :
    (message' = message ∧ status = .content ∧ n = 0) ∨
      (status = .completed ∧ b.drop n ++ z = rest) := by
  rcases Clean.cases (s := []) (by intro c hc; cases hc) hb with ⟨hn, -, -⟩ | ⟨b', rfl, hz⟩
  · rw [parseChunked_noLine message hn] at h
    cases h
    exact Or.inl ⟨rfl, rfl, rfl⟩
  · cases fuel with
    | zero =>
      cases h
      exact Or.inl ⟨rfl, rfl, rfl⟩
    | succ fuel =>
      have hlen : lineLen (crlf ++ b') = 2 := lineLen_append (s := ['\r']) (by decide) b'
      have hline : getLine (crlf ++ b') = (2, crlf) := by
        rw [getLine, hlen]
        rfl
      rw [nil_append, parseChunked_last message hline (by decide) (by decide)] at h
      cases h
      exact Or.inr ⟨rfl, hz⟩

end HttpMsgParser

end Spserver
