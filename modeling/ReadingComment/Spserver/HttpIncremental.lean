import ReadingComment.Spserver.HttpSteps

/-!
# Messages that arrive in pieces

A message is cut anywhere into reads, with other bytes behind it. If a read ends between
the two characters of the blank line the parser goes to the body without taking them,
and takes them for the beginning of the body later. A body of known length is otherwise
taken exactly; of a chunked one the parser never takes what follows the line of size 0.
So a message is read as if it had come in one piece, with the rest left, exactly if it is
not chunked and not cut there.
-/

namespace Spserver

open Lib List

/-! ## Feeding -/

open HttpMsgParser

section Feed

variable {p p' : HttpMsgParser} {inBuffer read : List Char} {reads : List (List Char)}

theorem feed_nothing (h : inBuffer ++ read = []) :
    feed p inBuffer (read :: reads) = feed p [] reads := by
  rw [feed, decode, if_pos h, h]
  rfl

theorem feed_error {e : HttpFault} (hne : inBuffer ++ read ≠ [])
    (h : p.append (inBuffer ++ read) = .error e) :
    feed p inBuffer (read :: reads) = .error e := by
  rw [feed, decode, if_neg hne, h]
  rfl

section

variable {n : ℕ} (hne : inBuffer ++ read ≠ []) (h : p.append (inBuffer ++ read) = .ok (p', n))

include hne h

theorem feed_more (hs : p'.status ≠ .completed) :
    feed p inBuffer (read :: reads) = feed p' ((inBuffer ++ read).drop n) reads := by
  rw [feed, decode, if_neg hne, h]
  simp [bind, Except.bind, isCompleted, hs]

theorem feed_done (hs : p'.status = .completed) :
    feed p inBuffer (read :: reads) =
      .ok (p', (inBuffer ++ read).drop n ++ reads.flatten) := by
  rw [feed, decode, if_neg hne, h]
  simp [bind, Except.bind, isCompleted, hs]

end

/-- The rule for messages that the parser does not delimit: an invariant of the parser, the
buffer and the reads to come that no call breaks, and under which no call that completes
the message leaves `r`. -/
theorem feed_misses {r : List Char}
    (Inv : HttpMsgParser → List Char → List (List Char) → Prop)
    (hstatus : ∀ p inBuffer reads, Inv p inBuffer reads → p.status ≠ .completed)
    (hnothing : ∀ p reads, Inv p [] ([] :: reads) → Inv p [] reads)
    (hstep : ∀ p inBuffer read reads p' n, Inv p inBuffer (read :: reads) →
      p.append (inBuffer ++ read) = .ok (p', n) →
        (p'.status = .completed → (inBuffer ++ read).drop n ++ reads.flatten ≠ r) ∧
          (p'.status ≠ .completed → Inv p' ((inBuffer ++ read).drop n) reads))
    (hinv : Inv p inBuffer reads) {left : List Char}
    (h : feed p inBuffer reads = .ok (p', left)) (hs : p'.status = .completed) : left ≠ r := by
  induction reads generalizing p inBuffer with
  | nil =>
    obtain ⟨rfl, rfl⟩ : p = p' ∧ inBuffer = left := by simpa [feed] using h
    exact absurd hs (hstatus _ _ _ hinv)
  | cons read reads ih =>
    by_cases hne : inBuffer ++ read = []
    · rw [feed_nothing hne] at h
      obtain ⟨rfl, rfl⟩ := append_eq_nil_iff.1 hne
      exact ih (hnothing p reads hinv) h
    · cases happ : p.append (inBuffer ++ read) with
      | error e =>
        rw [feed_error hne happ] at h
        exact absurd h (by simp)
      | ok res =>
        obtain ⟨p₁, n⟩ := res
        obtain ⟨hdone, hmore⟩ := hstep _ _ _ _ _ _ hinv happ
        by_cases hp : p₁.status = .completed
        · rw [feed_done hne happ hp] at h
          obtain ⟨-, rfl⟩ : p₁ = p' ∧ _ = left := by simpa using h
          exact hdone hp
        · rw [feed_more hne happ hp] at h
          exact ih (hmore hp) h

end Feed

namespace HttpText

variable {m : HttpText} {message : HttpMessage} {r : List Char}

theorem text_append (m : HttpText) (r : List Char) :
    m.text ++ r =
      m.startLine ++ crlf ++ (headerText m.headers ++ (crlf ++ (m.body.text ++ r))) := by
  simp [text, head]

def full (m : HttpText) (message : HttpMessage) : HttpMessage := message.addHeaders m.headers

theorem append_text_error (m : HttpText) {e : HttpFault}
    (h : startMessage (m.startLine ++ crlf) = .error e) :
    HttpMsgParser.append .new m.text = .error e := by
  have htext : m.text = m.startLine ++ crlf ++ (headerText m.headers ++ (crlf ++ m.body.text)) := by
    simp [text, head]
  have hparse := m.parseStartLine (headerText m.headers ++ (crlf ++ m.body.text))
  rw [h] at hparse
  rw [htext]
  simp only [HttpMsgParser.append, new, reduceCtorEq, if_false, hparse, Except.map, bind,
    Except.bind]

/-! ## Bodies of known length -/

section Length

variable {content : List Char}

def finished (m : HttpText) (message : HttpMessage) (content : List Char) : HttpMsgParser :=
  ⟨some (postProcess { m.full message with content := content }), .completed, false⟩

section

variable (hbody : m.body = .length content) (hheaders : message.headers = [])
  (hcontent : message.content = [])

include hbody hheaders hcontent

theorem append_length (b : List Char) :
    HttpMsgParser.append (inBody (m.full message)) b =
      if content.length ≤ b.length then
        .ok (m.finished message (b.take content.length), content.length)
      else .ok (inBody (m.full message), 0) := by
  have hframed := m.framed
  rw [hbody] at hframed
  have hfits := m.fits
  rw [hbody, Body.text] at hfits
  have hn : content.length + 1 < 2 ^ 31 := by
    simp only [length_append] at hfits
    simp only [crlf, length_cons] at hfits
    omega
  have hempty : (m.full message).content = [] := hcontent
  refine append_inBody_length ?_ ?_ hn hempty b
  · simpa [HttpMsgParser.isChunked, HttpMessage.getHeaderValue, full, HttpMessage.addHeaders,
      hheaders] using hframed.1
  · simpa [contentLength, HttpMessage.getHeaderValue, full, HttpMessage.addHeaders,
      hheaders] using hframed.2

theorem append_length_cases {b z : List Char} (hb : b ++ z = content ++ r) :
    (HttpMsgParser.append (inBody (m.full message)) b = .ok (inBody (m.full message), 0) ∧
        r.length < z.length) ∨
      (HttpMsgParser.append (inBody (m.full message)) b =
          .ok (m.finished message content, content.length) ∧
        b.drop content.length ++ z = r) := by
  rw [append_length hbody hheaders hcontent]
  have hlen := congrArg List.length hb
  simp only [length_append] at hlen
  split_ifs with h
  · have htake : b.take content.length = content := by
      have := congrArg (List.take content.length) hb
      rwa [take_append_of_le_length h, take_left] at this
    have hdrop : b.drop content.length ++ z = r := by
      have := congrArg (List.drop content.length) hb
      rwa [drop_append_of_le_length h, drop_left] at this
    rw [htake]
    exact Or.inr ⟨rfl, hdrop⟩
  · exact Or.inl ⟨rfl, by omega⟩

end

section

variable (hstart : startMessage (m.startLine ++ crlf) = .ok message)
  (hbody : m.body = .length content) (hheaders : message.headers = [])
  (hcontent : message.content = [])

include hstart hbody hheaders hcontent

theorem feed_length {p : HttpMsgParser} {inBuffer : List Char} {reads : List (List Char)}
    (hinv : Before m message (content ++ r) p (inBuffer ++ reads.flatten) ∨
      (p = inBody (m.full message) ∧ inBuffer ++ reads.flatten = content ++ r))
    (hcut : ∀ after, after <:+ reads → after.flatten.length ≠ (content ++ r).length + 1)
    (hlong : r.length < reads.flatten.length) :
    feed p inBuffer reads = .ok (m.finished message content, r) := by
  induction reads generalizing p inBuffer with
  | nil => simp at hlong
  | cons read reads ih =>
    have hcut' : ∀ after, after <:+ reads → after.flatten.length ≠ (content ++ r).length + 1 :=
      fun after hs => hcut after (hs.trans (suffix_cons _ _))
    rw [flatten_cons, ← append_assoc] at hinv
    by_cases hne : inBuffer ++ read = []
    · rw [feed_nothing hne]
      rw [hne] at hinv
      refine ih hinv hcut' ?_
      rw [flatten_cons, (append_eq_nil_iff.1 hne).2] at hlong
      exact hlong
    · -- from the point where the rest of the message is before the parser
      have hinside : ∀ n, p.append (inBuffer ++ read) =
            (HttpMsgParser.append (inBody (m.full message)) ((inBuffer ++ read).drop n)).map
              (advance n) →
          (inBuffer ++ read).drop n ++ reads.flatten = content ++ r →
          feed p inBuffer (read :: reads) = .ok (m.finished message content, r) := by
        intro n happ hleft
        rcases append_length_cases hbody hheaders hcontent hleft with ⟨hb, hlong'⟩ | ⟨hb, hdrop⟩
        · rw [hb] at happ
          rw [feed_more hne happ (by simp [inBody])]
          exact ih (Or.inr ⟨rfl, hleft⟩) hcut' hlong'
        · rw [hb] at happ
          rw [feed_done hne happ rfl, ← drop_drop, hdrop]
      rcases hinv with hbefore | ⟨rfl, hleft⟩
      · rcases hbefore.append_cases hstart rfl with
          ⟨p', n, happ, hbefore', hlong'⟩ | ⟨n, -, -, hz⟩ | ⟨n, happ, hleft⟩
        · rw [feed_more hne happ hbefore'.status_ne]
          refine ih (Or.inl hbefore') hcut' ?_
          simp only [length_append] at hlong'
          omega
        · exact absurd (by rw [hz]; rfl) (hcut' reads (suffix_refl _))
        · exact hinside n happ hleft
      · exact hinside 0 (map_advance_zero _).symm hleft

theorem feed_length_cut {p : HttpMsgParser} {reads : List (List Char)}
    (hbefore : Before m message (content ++ r) .new reads.flatten)
    (hlong : (content ++ r).length + 2 ≤ reads.flatten.length)
    (hcut : ∃ after, after <:+ reads ∧ after.flatten.length = (content ++ r).length + 1)
    {left : List Char} (h : feed .new [] reads = .ok (p, left)) (hs : p.status = .completed) :
    left ≠ r := by
  -- before the cut, or in the body with the blank line not taken
  refine feed_misses (fun p inBuffer reads =>
    (Before m message (content ++ r) p (inBuffer ++ reads.flatten) ∧
      (content ++ r).length + 2 ≤ reads.flatten.length ∧
      ∃ after, after <:+ reads ∧ after.flatten.length = (content ++ r).length + 1) ∨
    (p = inBody (m.full message) ∧ inBuffer ++ reads.flatten = crlf ++ (content ++ r)))
    ?_ ?_ ?_ (Or.inl ⟨hbefore, hlong, hcut⟩) h hs
  · rintro p inBuffer reads (⟨hb, -⟩ | ⟨rfl, -⟩)
    · exact hb.status_ne
    · simp [inBody]
  · rintro p reads (⟨hb, hlong, after, hsuf, hafter⟩ | hlate)
    · refine Or.inl ⟨hb, hlong, after, ?_, hafter⟩
      rcases suffix_cons_iff.1 hsuf with rfl | hsuf
      · omega
      · exact hsuf
    · exact Or.inr hlate
  · intro p inBuffer read reads p' n hinv happ
    -- once late, a completed message leaves at least two bytes too many
    have hlate : ∀ k b, p.append (inBuffer ++ read) =
          (HttpMsgParser.append (inBody (m.full message)) b).map (advance k) →
        (inBuffer ++ read).drop k = b → b ++ reads.flatten = crlf ++ (content ++ r) →
        (p'.status = .completed → (inBuffer ++ read).drop n ++ reads.flatten ≠ r) ∧
          (p'.status ≠ .completed → p' = inBody (m.full message) ∧
            (inBuffer ++ read).drop n ++ reads.flatten = crlf ++ (content ++ r)) := by
      intro k b hk hb hz
      have hlen := congrArg List.length hz
      simp only [length_append] at hlen
      rw [hk, append_length hbody hheaders hcontent] at happ
      split_ifs at happ with hfull
      · obtain ⟨rfl, rfl⟩ : m.finished message (b.take content.length) = p' ∧
            k + content.length = n := by simpa [Except.map, advance] using happ
        refine ⟨fun _ heq => ?_, fun hne => absurd rfl hne⟩
        rw [← drop_drop, hb] at heq
        have := congrArg List.length heq
        simp only [length_append, length_drop] at this
        simp only [crlf, length_cons] at hlen
        omega
      · obtain ⟨rfl, rfl⟩ : inBody (m.full message) = p' ∧ k + 0 = n := by
          simpa [Except.map, advance] using happ
        refine ⟨fun hc => absurd hc (by simp [inBody]), fun _ => ⟨rfl, ?_⟩⟩
        rw [Nat.add_zero, hb, hz]
    rcases hinv with ⟨hbefore, hlong, after, hsuf, hafter⟩ | ⟨rfl, hz⟩
    · have hsuf' : after <:+ reads := by
        rcases suffix_cons_iff.1 hsuf with rfl | hsuf
        · omega
        · exact hsuf
      have hz : (content ++ r).length + 1 ≤ reads.flatten.length := by
        obtain ⟨before, hreads⟩ := hsuf'
        have hlen := congrArg (fun l => l.flatten.length) hreads
        simp only [flatten_append, length_append] at hlen hafter ⊢
        omega
      rw [flatten_cons, ← append_assoc] at hbefore
      rcases hbefore.append_cases hstart rfl with
        ⟨p₁, k, hk, hbefore', hlong'⟩ | ⟨k, hk, hb, hz'⟩ | ⟨k, -, hleft⟩
      · rw [hk] at happ
        obtain ⟨rfl, rfl⟩ : p₁ = p' ∧ k = n := by simpa using happ
        exact ⟨fun hc => absurd hc hbefore'.status_ne,
          fun _ => Or.inl ⟨hbefore', hlong', after, hsuf', hafter⟩⟩
      · have := hlate k _ hk rfl (by rw [hb, hz']; rfl)
        exact ⟨this.1, fun hne => Or.inr (this.2 hne)⟩
      · have := congrArg List.length hleft
        rw [length_append] at this
        omega
    · have := hlate 0 _ (map_advance_zero _).symm rfl (by rw [append_assoc]; exact hz)
      exact ⟨this.1, fun hne => Or.inr (this.2 hne)⟩

end

end Length

/-! ## Chunked bodies -/

section Chunked

variable {chunks : List Chunk} {last : ChunkLine} {trailers : List HeaderLine}

def chunksLeft (chunks : List Chunk) (last : ChunkLine) (trailers : List HeaderLine)
    (r : List Char) : List Char :=
  chunkText chunks ++ (last.text ++ (headerText trailers ++ (crlf ++ r)))

/-- The parser in a chunked body, in front of a chunk or, after a cut in the blank line, in
front of that. -/
def InChunks (chunks : List Chunk) (last : ChunkLine) (trailers : List HeaderLine)
    (r : List Char) (p : HttpMsgParser) (left : List Char) : Prop :=
  ∃ msg, p = inBody msg ∧ HttpMsgParser.isChunked msg = true ∧
    ((∃ todo, todo <:+ chunks ∧ left = chunksLeft todo last trailers r) ∨
      left = crlf ++ chunksLeft chunks last trailers r)

theorem length_lt_trailers (trailers : List HeaderLine) (r : List Char) :
    r.length < (headerText trailers ++ (crlf ++ r)).length := by
  simp only [length_append, crlf, length_cons]
  omega

theorem InChunks.append (hlast : last.value = 0) (hsize : ∀ c ∈ chunks, c.data.length < 2 ^ 31)
    {p p' : HttpMsgParser} {b z : List Char} {n : ℕ}
    (h : InChunks chunks last trailers r p (b ++ z)) (happ : p.append b = .ok (p', n)) :
    (p'.status = .completed → b.drop n ++ z ≠ r) ∧
      (p'.status ≠ .completed → InChunks chunks last trailers r p' (b.drop n ++ z)) := by
  obtain ⟨msg, rfl, hmsg, hat⟩ := h
  have hmore := length_lt_trailers trailers r
  rw [append_inBody, hmsg, if_pos rfl] at happ
  cases hparse : parseChunked (b.length + 1) msg b with
  | error e =>
    rw [hparse] at happ
    exact absurd happ (by simp [Except.map])
  | ok res =>
    obtain ⟨msg', status, k⟩ := res
    rw [hparse] at happ
    obtain ⟨rfl, rfl⟩ : ⟨some (if status = .completed then postProcess msg' else msg'), status,
        false⟩ = p' ∧ k = n := by simpa [Except.map] using happ
    rcases hat with ⟨todo, hsuf, hb⟩ | hb
    · obtain ⟨hkeep, hcases⟩ := parseChunked_cases hlast
        (fun c hc => hsize c (hsuf.mem hc)) hb hparse
      rcases hcases with ⟨rfl, todo', hsuf', hleft⟩ | ⟨rfl, hleft⟩
      · have hmsg' : HttpMsgParser.isChunked msg' = true := by
          rw [HttpMsgParser.isChunked, HttpMessage.getHeaderValue, hkeep]
          exact hmsg
        exact ⟨fun hc => absurd hc (by simp), fun _ =>
          ⟨msg', by simp [inBody], hmsg', Or.inl ⟨todo', hsuf'.trans hsuf, hleft⟩⟩⟩
      · refine ⟨fun _ heq => ?_, fun hne => absurd rfl hne⟩
        rw [← hleft, heq] at hmore
        exact Nat.lt_irrefl _ hmore
    · rcases parseChunked_late hb hparse with ⟨rfl, rfl, rfl⟩ | ⟨rfl, hleft⟩
      · exact ⟨fun hc => absurd hc (by simp),
          fun _ => ⟨msg', by simp [inBody], hmsg, Or.inr hb⟩⟩
      · refine ⟨fun _ heq => ?_, fun hne => absurd rfl hne⟩
        rw [hleft] at heq
        have := congrArg List.length heq
        simp only [chunksLeft, length_append] at this hmore
        omega

theorem feed_chunked (hstart : startMessage (m.startLine ++ crlf) = .ok message)
    (hbody : m.body = .chunked chunks last trailers) (hheaders : message.headers = [])
    {p : HttpMsgParser} {reads : List (List Char)}
    (hbefore : Before m message (chunksLeft chunks last trailers r) .new reads.flatten)
    {left : List Char} (h : feed .new [] reads = .ok (p, left)) (hs : p.status = .completed) :
    left ≠ r := by
  obtain ⟨hchunked, hlast⟩ : (headerValue (m.headers.map HeaderLine.entry)
      "Transfer-Encoding".toList).any (caseEq · "chunked".toList) = true ∧ last.value = 0 := by
    have := m.framed
    rwa [hbody] at this
  have hsize : ∀ c ∈ chunks, c.data.length < 2 ^ 31 := by
    intro c hc
    have hfits := m.fits
    have hle : c.text.length ≤ (chunkText chunks).length :=
      (sublist_flatten_of_mem (mem_map_of_mem hc)).length_le
    rw [hbody] at hfits
    simp only [Body.text, Chunk.text, length_append] at hfits hle
    omega
  have hfull : HttpMsgParser.isChunked (m.full message) = true := by
    simpa [HttpMsgParser.isChunked, HttpMessage.getHeaderValue, full, HttpMessage.addHeaders,
      hheaders] using hchunked
  refine feed_misses (fun p inBuffer reads =>
    Before m message (chunksLeft chunks last trailers r) p (inBuffer ++ reads.flatten) ∨
      InChunks chunks last trailers r p (inBuffer ++ reads.flatten))
    ?_ (fun _ _ hinv => hinv) ?_ (Or.inl hbefore) h hs
  · rintro p inBuffer reads (hb | ⟨msg, rfl, -⟩)
    · exact hb.status_ne
    · simp [inBody]
  · intro p inBuffer read reads p' n hinv happ
    rw [flatten_cons, ← append_assoc] at hinv
    rcases hinv with hbefore | hin
    · -- the call goes from the head into the body
      have henter : ∀ k, p.append (inBuffer ++ read) =
            (HttpMsgParser.append (inBody (m.full message)) ((inBuffer ++ read).drop k)).map
              (advance k) →
          InChunks chunks last trailers r (inBody (m.full message))
            ((inBuffer ++ read).drop k ++ reads.flatten) →
          (p'.status = .completed → (inBuffer ++ read).drop n ++ reads.flatten ≠ r) ∧
            (p'.status ≠ .completed → InChunks chunks last trailers r p'
              ((inBuffer ++ read).drop n ++ reads.flatten)) := by
        intro k hk hin
        rw [hk] at happ
        cases hres : HttpMsgParser.append (inBody (m.full message)) ((inBuffer ++ read).drop k) with
        | error e =>
          rw [hres] at happ
          exact absurd happ (by simp [Except.map])
        | ok res =>
          obtain ⟨p₁, k'⟩ := res
          rw [hres] at happ
          obtain ⟨rfl, rfl⟩ : p₁ = p' ∧ k + k' = n := by simpa [Except.map, advance] using happ
          rw [← drop_drop]
          exact hin.append hlast hsize hres
      rcases hbefore.append_cases hstart rfl with
        ⟨p₁, k, hk, hbefore', -⟩ | ⟨k, hk, hb, hz⟩ | ⟨k, hk, hleft⟩
      · rw [hk] at happ
        obtain ⟨rfl, rfl⟩ : p₁ = p' ∧ k = n := by simpa using happ
        exact ⟨fun hc => absurd hc hbefore'.status_ne, fun _ => Or.inl hbefore'⟩
      · have := henter k hk ⟨_, rfl, hfull, Or.inr (by rw [hb, hz]; rfl)⟩
        exact ⟨this.1, fun hne => Or.inr (this.2 hne)⟩
      · have := henter k hk ⟨_, rfl, hfull, Or.inl ⟨chunks, suffix_refl _, hleft⟩⟩
        exact ⟨this.1, fun hne => Or.inr (this.2 hne)⟩
    · have := hin.append hlast hsize happ
      exact ⟨this.1, fun hne => Or.inr (this.2 hne)⟩

end Chunked

/-! ## The main result -/

/-- The message is read as if it had come in one piece, and what follows it is left. -/
def ReadAsOnePiece (m : HttpText) (r : List Char) (reads : List (List Char)) : Prop :=
  ∃ parser whole n, feed .new [] reads = .ok (parser, r) ∧ parser.isCompleted = true ∧
    HttpMsgParser.append .new m.text = .ok (whole, n) ∧ parser.message = whole.message

def CutInBlankLine (m : HttpText) (reads : List (List Char)) : Prop :=
  ∃ before after, reads = before ++ after ∧ before.flatten.length = m.head.length + 1

theorem cutInBlankLine_iff {reads : List (List Char)} (h : reads.flatten = m.text ++ r) :
    m.CutInBlankLine reads ↔
      ∃ after, after <:+ reads ∧ after.flatten.length = (m.body.text ++ r).length + 1 := by
  have hlen : ∀ before after : List (List Char), reads = before ++ after →
      before.flatten.length + after.flatten.length =
        m.head.length + 2 + (m.body.text ++ r).length := by
    intro before after hreads
    have := congrArg List.length h
    rw [hreads] at this
    simp only [flatten_append, text, length_append, crlf, length_cons,
      length_nil] at this ⊢
    omega
  constructor
  · rintro ⟨before, after, hreads, hb⟩
    have := hlen before after hreads
    exact ⟨after, ⟨before, hreads.symm⟩, by omega⟩
  · rintro ⟨after, ⟨before, hreads⟩, ha⟩
    have := hlen before after hreads.symm
    exact ⟨before, after, hreads.symm, by omega⟩

theorem append_of_feed {read left : List Char} {p : HttpMsgParser} (hne : read ≠ [])
    (h : feed .new [] [read] = .ok (p, left)) :
    ∃ n, HttpMsgParser.append .new read = .ok (p, n) := by
  have hne' : [] ++ read ≠ [] := hne
  cases happ : HttpMsgParser.append .new read with
  | error e =>
    rw [feed_error hne' happ] at h
    exact absurd h (by simp)
  | ok res =>
    obtain ⟨p', n⟩ := res
    refine ⟨n, ?_⟩
    by_cases hs : p'.status = .completed
    · rw [feed_done hne' happ hs] at h
      obtain ⟨rfl, -⟩ : p' = p ∧ _ := by simpa using h
      rfl
    · rw [feed_more hne' happ hs, feed] at h
      obtain ⟨rfl, -⟩ : p' = p ∧ _ := by simpa using h
      rfl

theorem readAsOnePiece_length {content : List Char}
    (hstart : startMessage (m.startLine ++ crlf) = .ok message)
    (hbody : m.body = .length content) (hheaders : message.headers = [])
    (hcontent : message.content = []) {reads : List (List Char)}
    (h : reads.flatten = m.text ++ r) (hcut : ¬ m.CutInBlankLine reads) :
    m.ReadAsOnePiece r reads := by
  have hfeed : ∀ r reads, reads.flatten = m.text ++ r → ¬ m.CutInBlankLine reads →
      feed .new [] reads = .ok (m.finished message content, r) := by
    intro r reads h hcut
    rw [cutInBlankLine_iff h, hbody] at hcut
    refine feed_length hstart hbody hheaders hcontent (Or.inl ?_) ?_ ?_
    · rw [nil_append, h, text_append, hbody]
      exact Before.start
    · exact fun after hs ha => hcut ⟨after, hs, ha⟩
    · rw [h]
      simp [text, crlf]
      omega
  have hwhole : ¬ m.CutInBlankLine [m.text] := by
    rw [cutInBlankLine_iff (r := []) (by simp)]
    rintro ⟨after, hs, ha⟩
    rcases suffix_cons_iff.1 hs with rfl | hs
    · simp [text, crlf] at ha
      omega
    · rw [suffix_nil.1 hs] at ha
      simp at ha
  have hne : m.text ≠ [] := by simp [text, crlf]
  obtain ⟨n, happ⟩ := append_of_feed hne (hfeed [] [m.text] (by simp) hwhole)
  exact ⟨_, _, n, hfeed r reads h hcut, rfl, happ, rfl⟩

/-- Exactly when a message cut into reads is parsed like the message in one piece, with the
bytes after it left: its length is known, no read ends inside the blank line, and its start
line has no empty last part. What is given to `append` at once is taken to be no longer than the
`int` that it gets for it. -/
theorem incremental_parsing (m : HttpText) (r : List Char) (reads : List (List Char))
    (h : reads.flatten = m.text ++ r) :
    m.ReadAsOnePiece r reads ↔
      m.body.isChunked = false ∧ ¬ m.CutInBlankLine reads ∧ ¬ m.EmptyLastPart := by
  rcases m.startMessage_cases with ⟨hempty, e, hstart⟩ | ⟨hempty, message, hstart, hh, hc⟩
  · constructor
    · rintro ⟨parser, whole, n, -, -, happ, -⟩
      rw [m.append_text_error hstart] at happ
      exact absurd happ (by simp)
    · rintro ⟨-, -, hne⟩
      exact absurd hempty hne
  · have hbefore : Before m message (m.body.text ++ r) .new reads.flatten := by
      rw [h, text_append]
      exact Before.start
    cases hbody : m.body with
    | length content =>
      constructor
      · rintro ⟨parser, whole, n, hfeed, hdone, -⟩
        refine ⟨rfl, fun hcut => ?_, hempty⟩
        rw [cutInBlankLine_iff h] at hcut
        have hlong : (m.body.text ++ r).length + 2 ≤ reads.flatten.length := by
          rw [h]
          simp [text, crlf]
        rw [hbody] at hbefore hlong hcut
        exact feed_length_cut hstart hbody hh hc hbefore hlong hcut hfeed (by
          simpa [isCompleted] using hdone) rfl
      · rintro ⟨-, hcut, -⟩
        exact readAsOnePiece_length hstart hbody hh hc h hcut
    | chunked chunks last trailers =>
      constructor
      · rintro ⟨parser, whole, n, hfeed, hdone, -⟩
        have hrest : m.body.text ++ r = chunksLeft chunks last trailers r := by
          rw [hbody]
          simp [Body.text, chunksLeft]
        rw [hrest] at hbefore
        exact absurd rfl (feed_chunked hstart hbody hh hbefore hfeed (by
          simpa [isCompleted] using hdone))
      · rintro ⟨hne, -⟩
        exact absurd hne (by simp [Body.isChunked])

def posted : HttpText where
  startLine := "POST /a HTTP/1.1".toList
  headers := [
    { name := "Content-Length".toList
      value := " 1".toList
      name_clean := by decide
      name_ne := by decide
      name_colon := by decide
      value_clean := by decide
      value_ne := by decide }]
  body := .length "x".toList
  startLine_clean := by decide
  framed := ⟨by decide, by decide⟩
  fits := by decide

/-- In two reads with the cut in the header, and the beginning of another message. -/
theorem incremental_parsing_posted :
    [posted.text.take 25, posted.text.drop 25 ++ "GET".toList].flatten =
        posted.text ++ "GET".toList ∧
      posted.ReadAsOnePiece "GET".toList
        [posted.text.take 25, posted.text.drop 25 ++ "GET".toList] := by
  have hflat : [posted.text.take 25, posted.text.drop 25 ++ "GET".toList].flatten =
      posted.text ++ "GET".toList := by decide
  refine ⟨hflat, (incremental_parsing posted _ _ hflat).2 ⟨rfl, ?_, by decide⟩⟩
  rintro ⟨before, after, hreads, hlen⟩
  have hcut : ∀ k ≤ 2, ([posted.text.take 25, posted.text.drop 25 ++ "GET".toList].take
      k).flatten.length ≠ posted.head.length + 1 := by decide
  have hk : before.length ≤ 2 := by
    have := congrArg List.length hreads
    simp only [List.length_append, List.length_cons, List.length_nil] at this
    omega
  apply hcut before.length hk
  rw [hreads, List.take_left, hlen]

/-- Cut inside the blank line: the carriage return becomes the body, and the newline and the
body are left for the next message. -/
theorem cut_in_blank_line :
    ∃ reads, reads.flatten = posted.text ++ [] ∧ ¬ posted.ReadAsOnePiece [] reads := by
  refine ⟨[posted.text.take 38, posted.text.drop 38], by decide, ?_⟩
  rintro ⟨parser, whole, n, hfeed, -⟩
  have hleft : (feed .new [] [posted.text.take 38, posted.text.drop 38]).map Prod.snd =
      .ok "\nx".toList := by decide
  rw [hfeed] at hleft
  simp [Except.map] at hleft

end HttpText

end Spserver
