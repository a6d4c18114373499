import ReadingComment.Weighttp.Header
import ReadingComment.Weighttp.ParserEffects

/-!
# One read

A client that waits for more bytes is where the reader is, and `client_parse` of what a
`read` has brought takes it to where these bytes take the reader.
-/

namespace Weighttp

open List

variable {cfg : Config} {r : Reader} {c : Conn} {size : ℤ}

/-! ## The parts of the parser -/

theorem strchr_nul {u : List Char} (hu : Plain u) (v : List Char) :
    strchr '\r' (u ++ '\x00' :: v) = none := by
  induction u with
  | nil => rfl
  | cons b u ih =>
    obtain ⟨hcr, hnul⟩ := hu b (mem_cons_self ..)
    rw [cons_append, strchr, if_neg hcr, if_neg hnul,
      ih (fun d hd => hu d (mem_cons_of_mem _ hd))]
    rfl

theorem parse_heading {pre rest : List Char} {conn : Conn} (h : Heading c.client pre rest)
    (ha : Agrees conn.client c.client)
    (hblank : c.client.chunked = true → ∀ t, rest ≠ '\r' :: '\n' :: t)
    (hwhole : WholeHeader (Reader.read cfg ⟨conn, .line [], pre.length⟩ rest) size
      (pre ++ rest).length)
    (hneg : (Reader.read cfg ⟨conn, .line [], pre.length⟩ rest).part ≠ .negative) :
    ∃ c' ok, ((fun x => (({ c with client := x.1 } : Conn), x.2)) <$>
        parseHeader cfg size (c.client.buffer.length + 1) c.client) = .ok (c', ok) ∧
      Meets (Reader.read cfg ⟨conn, .line [], pre.length⟩ rest) c'.client ok ∧
      c'.stats = c.stats := by
  have hfuel : rest.length < c.client.buffer.length + 1 := by
    rw [h.buffer, length_append]
    omega
  obtain ⟨c', ok, hparse, hmeets⟩ := parseHeader_spec cfg size _ h ha hfuel hblank hwhole hneg
  rw [hparse]
  exact ⟨_, ok, rfl, hmeets, rfl⟩

section

variable {conn : Conn} {b : ℕ} (h : Starting c.client) (ha : Agrees conn.client c.client)
  (hs : c.stats = { conn.stats with bytesTotal := b })

include h ha hs

theorem parseStart_cases (hlong : 15 ≤ c.client.buffer.length) :
    (∃ c', parseStart c = (c', false) ∧
      Meets (Reader.read cfg ⟨conn, .early [], 0⟩ c.client.buffer) c'.client false ∧
      c'.stats = { (Reader.read cfg ⟨conn, .early [], 0⟩ c.client.buffer).conn.stats with
        bytesTotal := b }) ∨
    ∃ c' conn' pre rest, parseStart c = (c', true) ∧ c.client.buffer = pre ++ rest ∧
      Reader.read cfg ⟨conn, .early [], 0⟩ c.client.buffer =
        Reader.read cfg ⟨conn', .line [], pre.length⟩ rest ∧
      Heading c'.client pre rest ∧ Agrees conn'.client c'.client ∧ c'.client.chunked = false ∧
      c'.stats = { conn'.stats with bytesTotal := b } := by
  rw [parseStart, Reader.read_start conn hlong]
  simp only
  rcases Classical.em (c.client.buffer.take 9 ≠ "HTTP/1.1 ".toList) with hhttp | hhttp
  · rw [if_pos hhttp, if_pos hhttp]
    exact .inl ⟨_, rfl, .broken ha rfl h.state h.success, hs⟩
  rw [if_neg hhttp, if_neg hhttp]
  cases statusCode ((c.client.buffer.drop 9).take 3) 0 with
  | none => exact .inl ⟨_, rfl, .broken ha rfl h.state h.success, hs⟩
  | some code =>
    simp only [Option.bind_some]
    rcases countStatus_agrees ha hs code with ⟨hna, hnc⟩ | ⟨a', stats, success, hsa, hsc, hs', ha'⟩
    · rw [hna, hnc]
      exact .inl ⟨_, rfl, .broken ha rfl h.state h.success, hs⟩
    · rw [hsa, hsc]
      simp only
      have hsplit : c.client.buffer = c.client.buffer.take 12 ++ c.client.buffer.drop 12 :=
        (take_append_drop 12 c.client.buffer).symm
      have htwelve : (c.client.buffer.take 12).length = 12 := by
        rw [length_take]
        omega
      have hat : ∀ i, charAt c.client.buffer (12 + i) = charAt (c.client.buffer.drop 12) i := by
        intro i
        have happend := charAt_append (c.client.buffer.take 12) (c.client.buffer.drop 12) i
        rw [← hsplit, htwelve] at happend
        exact happend
      rcases @status_cases cfg a' (c.client.buffer.drop 12) 12 with
        ⟨hnot, q, m, hread, hbroken⟩ | ⟨u, w, hline, hsome, hread⟩
      · -- the line does not end
        rw [hread]
        rcases hnot with hnone | ⟨k, hsome, hlf⟩
        · rw [hnone]
          exact .inl ⟨_, rfl, .broken ha' hbroken h.state h.success, hs'⟩
        · rw [hsome]
          simp only
          rw [Nat.add_assoc, hat, if_pos hlf]
          exact .inl ⟨_, rfl, .broken ha' hbroken h.state h.success, hs'⟩
      · have hlf : charAt (c.client.buffer.drop 12) (u.length + 1) = '\n' := by
          rw [hline]
          exact charAt_append u ('\r' :: '\n' :: w) 1
        have hbuf : c.client.buffer = (c.client.buffer.take 12 ++ (u ++ ['\r', '\n'])) ++ w := by
          have hw : u ++ '\r' :: '\n' :: w = (u ++ ['\r', '\n']) ++ w := by
            rw [append_assoc]
            rfl
          rw [append_assoc, ← hw, ← hline]
          exact hsplit
        have hpre :
            (c.client.buffer.take 12 ++ (u ++ ['\r', '\n'])).length = 12 + u.length + 2 := by
          simp only [length_append, htwelve, length_cons, length_nil]
          omega
        rw [hsome]
        simp only
        rw [Nat.add_assoc, hat, if_neg (not_not_intro hlf)]
        refine .inr ⟨_, a', _, w, rfl, hbuf, ?_, ?_, ⟨ha'.1, ha'.2, ha'.3, ha'.4, ha'.5⟩, h.chunked,
          hs'⟩
        · rw [hpre, hread]
        · refine ⟨h.state, h.success, rfl, h.chunkSize, hbuf, hpre.symm, ?_, ?_, ?_⟩
          · rw [hpre]
            exact Nat.succ_pos _
          · rw [← hbuf]
            exact h.received
          · rw [← hbuf]
            exact h.small

theorem parse_starting
    (hwhole : WholeHeader (Reader.read cfg ⟨conn, .early [], 0⟩ c.client.buffer) size
      c.client.buffer.length)
    (hneg : (Reader.read cfg ⟨conn, .early [], 0⟩ c.client.buffer).part ≠ .negative) :
    ∃ c' ok, clientParse cfg size c = .ok (c', ok) ∧
      Meets (Reader.read cfg ⟨conn, .early [], 0⟩ c.client.buffer) c'.client ok ∧
      c'.stats = { (Reader.read cfg ⟨conn, .early [], 0⟩ c.client.buffer).conn.stats with
        bytesTotal := b } := by
  rw [clientParse, h.parserState]
  simp only
  rcases Nat.lt_or_ge c.client.buffer.length 15 with hshort | hlong
  · have hearly : ([] : List Char).length + c.client.buffer.length < 15 := by
      rw [length_nil, Nat.zero_add]
      exact hshort
    rw [if_pos hshort, Reader.read_early hearly, nil_append, Nat.zero_add]
    exact ⟨c, true, rfl, ⟨ha, rfl, h.state, h.success, h.parserState, h.chunked, h.chunkSize, rfl,
      rfl, hshort⟩, hs⟩
  · rw [if_neg (Nat.not_lt.mpr hlong)]
    rcases @parseStart_cases cfg c conn b h ha hs hlong with ⟨c', hstart, hmeets, hs'⟩ |
      ⟨c', conn', pre, rest, hstart, hbuf, hread, hheading, ha', hchunked, hs'⟩
    · rw [hstart]
      exact ⟨c', false, rfl, hmeets, hs'⟩
    · have hblank : c'.client.chunked = true → ∀ t, rest ≠ '\r' :: '\n' :: t := by
        intro hc
        rw [hchunked] at hc
        cases hc
      rw [hread] at hwhole hneg ⊢
      rw [hbuf] at hwhole
      obtain ⟨c'', ok, hparse, hmeets, hstats⟩ := parse_heading hheading ha' hblank hwhole hneg
      rw [hstart]
      refine ⟨c'', ok, hparse, hmeets, ?_⟩
      have hlater : Reader.Later ⟨conn', .line [], pre.length⟩ := (by rintro _ ⟨⟩)
      rw [hstats, hs', Reader.read_stats hlater]

end

theorem parse_body {r' : Reader} (hstate : c.client.parserState = .body)
    (hbody : ∃ c' ok, parseBody size c.client = .ok (c', ok) ∧ Meets r' c' ok) :
    ∃ c' ok, clientParse cfg size c = .ok (c', ok) ∧ Meets r' c'.client ok ∧
      c'.stats = c.stats := by
  obtain ⟨c', ok, hparse, hmeets⟩ := hbody
  rw [clientParse, hstate]
  simp only [hparse]
  exact ⟨_, ok, rfl, hmeets, rfl⟩

/-! ## Following the reader -/

/-- A client that waits for more is where the reader is; `base` bytes were counted before. -/
structure Follows (base : ℕ) (r : Reader) (c : Conn) : Prop where
  stats : c.stats = { r.conn.stats with bytesTotal := base + r.seen }
  received : c.client.bytesReceived = r.seen
  agrees : Agrees r.conn.client c.client
  state : c.client.state = .reading
  success : c.client.success = false
  awaits : Awaits r c.client
  sound : r.Sound

def Conn.taking (c : Conn) (bytes : List Char) : Conn :=
  ⟨{ c.stats with bytesTotal := c.stats.bytesTotal + bytes.length }, { c.client with
    bytesReceived := c.client.bytesReceived + bytes.length
    buffer := c.client.buffer ++ bytes }⟩

/-- The header of a chunked response has come with the first read. -/
def HeaderSeen (r r' : Reader) : Prop :=
  r'.conn.client.chunked = true → r'.conn.client.headerSize ≠ 0 →
    r.seen = 0 ∨ r.conn.client.headerSize ≠ 0

variable {base : ℕ} {bytes : List Char}

theorem parse_line {acc : List Char} {conn : Conn} {n : ℕ}
    (h : Follows base ⟨conn, .line acc, n⟩ c) (hsmall : n + bytes.length < bufferSize)
    (hfirst : HeaderSeen ⟨conn, .line acc, n⟩ (Reader.read cfg ⟨conn, .line acc, n⟩ bytes))
    (hneg : (Reader.read cfg ⟨conn, .line acc, n⟩ bytes).part ≠ .negative) :
    ∃ c' ok, clientParse cfg bytes.length (c.taking bytes) = .ok (c', ok) ∧
      Meets (Reader.read cfg ⟨conn, .line acc, n⟩ bytes) c'.client ok ∧
      c'.stats = (c.taking bytes).stats := by
  obtain ⟨hp, hsize, hplain, pre, hbuf, hoff, hpos, hlen⟩ := h.awaits
  have hn : n = pre.length + acc.length := by
    rw [← length_append, ← hbuf]
    exact hlen.symm
  have hread : Reader.read cfg ⟨conn, .line acc, n⟩ bytes =
      Reader.read cfg ⟨conn, .line [], pre.length⟩ (acc ++ bytes) := by
    rw [Reader.read_append, Reader.read_line hplain, nil_append, hn]
  have hbuf' : (c.taking bytes).client.buffer = pre ++ (acc ++ bytes) := by
    rw [Conn.taking, hbuf, append_assoc]
  have htotal : (pre ++ (acc ++ bytes)).length = n + bytes.length := by
    rw [← append_assoc, length_append, length_append, hn]
  have hheading : Heading (c.taking bytes).client pre (acc ++ bytes) := by
    refine ⟨h.state, h.success, hp, hsize, hbuf', hoff, hpos, ?_, ?_⟩
    · rw [htotal, Conn.taking, h.received]
    · rw [htotal]
      exact hsmall
  -- the header of a chunked response is not complete, and does not become so
  have hopen : (Reader.read cfg ⟨conn, .line [], pre.length⟩ (acc ++ bytes)).conn.client.chunked =
        true →
      (Reader.read cfg ⟨conn, .line [], pre.length⟩ (acc ++ bytes)).conn.client.headerSize = 0 := by
    intro hchunked
    by_contra hne
    rw [hread] at hfirst
    rcases hfirst hchunked hne with hzero | hdone
    · have hzero' : n = 0 := hzero
      omega
    · exact absurd (h.sound hdone) nofun
  have hblank : (c.taking bytes).client.chunked = true → ∀ t, acc ++ bytes ≠ '\r' :: '\n' :: t := by
    intro hchunked t ht
    have hbody : Reader.read cfg ⟨conn, .line [], pre.length⟩ ('\r' :: '\n' :: t) =
        (Reader.startBody ⟨conn, .lineCr [], pre.length + 2⟩).read cfg t := rfl
    have hclient := @startBody_read_conn cfg conn (pre.length + 2) t
    rw [ht, hbody, hclient] at hopen
    exact absurd (hopen (h.agrees.chunked.symm.trans hchunked)) (Nat.succ_ne_zero _)
  rw [hread] at hneg ⊢
  have hparse := @parse_heading cfg (c.taking bytes) bytes.length pre (acc ++ bytes) conn hheading
    ⟨h.agrees.1, h.agrees.2, h.agrees.3, h.agrees.4, h.agrees.5⟩ hblank
    (fun hchunked hne => absurd (hopen hchunked) hne) hneg
  have hp' : (c.taking bytes).client.parserState = .header := hp
  rw [clientParse, hp']
  exact hparse

theorem parse_stuck {conn : Conn} {n : ℕ} (h : Follows base ⟨conn, .stuck, n⟩ c) :
    ∃ c' ok, clientParse cfg bytes.length (c.taking bytes) = .ok (c', ok) ∧
      Meets (Reader.read cfg ⟨conn, .stuck, n⟩ bytes) c'.client ok ∧
      c'.stats = (c.taking bytes).stats := by
  obtain ⟨hp, pre, u, v, hbuf, hu, hoff, hlen⟩ := h.awaits
  have hbuf' : (c.taking bytes).client.buffer = pre ++ (u ++ '\x00' :: (v ++ bytes)) := by
    rw [Conn.taking, hbuf]
    simp only [append_assoc, cons_append]
  have hdrop : (c.taking bytes).client.buffer.drop (c.taking bytes).client.parserOffset =
      u ++ '\x00' :: (v ++ bytes) := by
    have hoff' : (c.taking bytes).client.parserOffset = pre.length := hoff
    rw [hbuf', hoff']
    exact drop_left
  have hp' : (c.taking bytes).client.parserState = .header := hp
  rw [Reader.read_final (.inl rfl), clientParse, hp']
  simp only
  rw [parseHeader, hdrop, strchr_nul hu]
  refine ⟨_, true, rfl, ⟨⟨h.agrees.1, h.agrees.2, h.agrees.3, h.agrees.4, h.agrees.5⟩, rfl, h.state,
    h.success, hp, pre, u, _, hbuf', hu, hoff, ?_⟩, rfl⟩
  have hlen' : c.client.buffer.length = n := hlen
  rw [Conn.taking, length_append, hlen']

theorem parse_rest {conn : Conn} {p : Part} {n : ℕ} (h : Follows base ⟨conn, p, n⟩ c)
    (hp : Awaits ⟨conn, p, n⟩ c.client → c.client.parserState = .body) (hbytes : bytes ≠ [])
    (hsmall : n + bytes.length < bufferSize)
    (hneg : (Reader.read cfg ⟨conn, p, n⟩ bytes).part ≠ .negative) :
    ∃ c' ok, clientParse cfg bytes.length (c.taking bytes) = .ok (c', ok) ∧
      Meets (Reader.read cfg ⟨conn, p, n⟩ bytes) c'.client ok ∧
      c'.stats = (c.taking bytes).stats := by
  have hbody := hp h.awaits
  have hbody' : (c.taking bytes).client.parserState = .body := hbody
  apply parse_body hbody'
  have ha : Agrees conn.client (c.taking bytes).client :=
    ⟨h.agrees.1, h.agrees.2, h.agrees.3, h.agrees.4, h.agrees.5⟩
  -- what is in the buffer is what was read
  have hchunking : c.client.chunked = true → c.client.buffer = [] → c.client.parserOffset = 0 →
      Chunking (c.taking bytes).client [] bytes ∧ bytes.length ≤
        (c.taking bytes).client.buffer.length := by
    intro hchunked hbuf hoff
    have hbuf' : (c.taking bytes).client.buffer = bytes := by
      rw [Conn.taking, hbuf, nil_append]
    refine ⟨⟨h.state, h.success, hbody, hchunked, hbuf', hoff, ?_⟩, ?_⟩
    · rw [nil_append]
      omega
    · rw [hbuf']
  cases p with
  | body =>
    obtain ⟨-, hchunked, hlength, -⟩ := h.awaits
    have hopening : Opening (c.taking bytes).client n bytes := by
      refine ⟨h.state, h.success, hbody, ?_⟩
      rw [Conn.taking, h.received]
    have hknown : ¬ conn.client.contentLength = unknown :=
      ne_of_eq_of_ne h.agrees.contentLength.symm hlength
    have hplain := parseBody_plain hopening ha hchunked bytes.length
    rw [if_neg hknown] at hplain
    rw [Reader.read_final (.inr (.inl rfl))]
    exact hplain
  | data left =>
    obtain ⟨-, hchunked, hbuf, hoff, hpos, h0, hsize, hbig⟩ := h.awaits
    obtain ⟨hchunk, hlen⟩ := hchunking hchunked hbuf hoff
    have hne : (c.taking bytes).client.chunkSize ≠ -1 := by
      have hsize' : c.client.chunkSize ≠ -1 := by omega
      exact hsize'
    have hfuel : bytes.length ≤ (c.taking bytes).client.buffer.length + 1 := by omega
    rw [parseBody, if_pos hchunk.chunked, parseChunks_data hne]
    exact chunkStep_data (sizeSpec cfg _) hchunk ha hpos hsize h0 hbig hfuel hsmall hneg
  | between =>
    obtain ⟨-, hchunked, hbuf, hoff, hsize⟩ := h.awaits
    obtain ⟨hchunk, hlen⟩ := hchunking hchunked hbuf hoff
    have hfuel : bytes.length < (c.taking bytes).client.buffer.length + 2 := by omega
    obtain ⟨b, s, rfl⟩ := exists_cons_of_ne_nil hbytes
    rw [sizeByte_between] at hneg ⊢
    rw [parseBody, if_pos hchunk.chunked]
    exact sizeSpec cfg _ n hchunk hsize ha hfuel hsmall hneg
  | endless =>
    obtain ⟨-, hchunked, hbuf, hoff, hbig, hrec⟩ := h.awaits
    obtain ⟨hchunk, -⟩ := hchunking hchunked hbuf hoff
    have hne : (c.taking bytes).client.chunkSize ≠ -1 := by
      have hsize' : c.client.chunkSize ≠ -1 := by omega
      exact hsize'
    rw [parseBody, if_pos hchunk.chunked, parseChunks_data hne]
    exact chunkStep_large hchunk ha hbig hrec hsmall _
  | early acc | line acc | stuck => cases hbody.symm.trans h.awaits.1
  | _ => exact h.awaits.elim

theorem parse_follows (h : Follows base r c) (hbytes : bytes ≠ [])
    (hsmall : r.seen + bytes.length < bufferSize) (hfirst : HeaderSeen r (r.read cfg bytes))
    (hneg : (r.read cfg bytes).part ≠ .negative) :
    ∃ c' ok, clientParse cfg bytes.length (c.taking bytes) = .ok (c', ok) ∧
      Meets (r.read cfg bytes) c'.client ok ∧
      c'.stats = { (r.read cfg bytes).conn.stats with
        bytesTotal := base + (r.seen + bytes.length) } := by
  obtain ⟨conn, p, n⟩ := r
  have hstats : (c.taking bytes).stats =
      { conn.stats with bytesTotal := base + (n + bytes.length) } := by
    rw [Conn.taking, h.stats, ← Nat.add_assoc]
  rcases Classical.em (∃ acc, p = .early acc) with ⟨acc, rfl⟩ | hlate
  · obtain ⟨hp, hchunked, hsize, hbuf, hlen, hlt⟩ := h.awaits
    have hlen' : acc.length = n := hlen
    have hread : Reader.read cfg ⟨conn, .early acc, n⟩ bytes =
        Reader.read cfg ⟨conn, .early [], 0⟩ (acc ++ bytes) := by
      have hshort : ([] : List Char).length + acc.length < 15 := by
        rw [length_nil, Nat.zero_add]
        exact hlt
      rw [Reader.read_append, Reader.read_early hshort, nil_append, Nat.zero_add, hlen']
    have hbuf' : (c.taking bytes).client.buffer = acc ++ bytes := by
      rw [Conn.taking, hbuf]
    have htotal : (acc ++ bytes).length = n + bytes.length := by
      rw [length_append, hlen']
    have hstarting : Starting (c.taking bytes).client := by
      refine ⟨h.state, h.success, hp, hchunked, hsize, ?_, ?_⟩
      · rw [hbuf', htotal, Conn.taking, h.received]
      · rw [hbuf', htotal]
        exact hsmall
    rw [hread, ← hbuf'] at hneg hfirst ⊢
    refine parse_starting hstarting ⟨h.agrees.1, h.agrees.2, h.agrees.3, h.agrees.4, h.agrees.5⟩
      hstats ?_ hneg
    intro hc hh
    rw [hbuf', htotal]
    rcases hfirst hc hh with hzero | hdone
    · have hzero' : n = 0 := hzero
      rw [hzero', Nat.zero_add]
    · exact absurd (h.sound hdone) nofun
  · have hlater : Reader.Later ⟨conn, p, n⟩ := fun acc hacc => hlate ⟨acc, hacc⟩
    have hparse : ∃ c' ok, clientParse cfg bytes.length (c.taking bytes) = .ok (c', ok) ∧
        Meets (Reader.read cfg ⟨conn, p, n⟩ bytes) c'.client ok ∧
        c'.stats = (c.taking bytes).stats := by
      cases p with
      | early acc => exact absurd rfl (hlater acc)
      | line acc => exact parse_line h hsmall hfirst hneg
      | stuck => exact parse_stuck h
      | body | data left | between | endless => exact parse_rest h And.left hbytes hsmall hneg
      | _ => exact h.awaits.elim
    obtain ⟨c', ok, hparse, hmeets, hs⟩ := hparse
    refine ⟨c', ok, hparse, hmeets, ?_⟩
    rw [hs, hstats, Reader.read_stats hlater]

theorem Awaits.length_le {client : Client} (h : Awaits r client) :
    client.buffer.length ≤ r.seen := by
  obtain ⟨conn, p, n⟩ := r
  cases p with
  | early acc =>
    obtain ⟨-, -, -, hbuf, hlen, -⟩ := h
    rw [hbuf]
    exact Nat.le_of_eq hlen
  | line acc =>
    obtain ⟨-, -, -, pre, -, -, -, hlen⟩ := h
    exact Nat.le_of_eq hlen
  | stuck =>
    obtain ⟨-, pre, u, v, -, -, -, hlen⟩ := h
    exact Nat.le_of_eq hlen
  | body =>
    obtain ⟨-, -, -, hbuf⟩ := h
    rw [hbuf]
    exact Nat.zero_le n
  | data left | between | endless =>
    obtain ⟨-, -, hbuf, -⟩ := h
    rw [hbuf]
    exact Nat.zero_le n
  | _ => exact h.elim

theorem Awaits.counted {client : Client} (h : Awaits r client) : r.Counted := by
  obtain ⟨conn, p, n⟩ := r
  rintro bytes rfl
  obtain ⟨-, -, -, -, hlen, -⟩ := h
  exact hlen

/-- **One read.** What was read fits into the buffer, and the parser takes it as the reader does. -/
theorem received_follows (h : Follows base r c) (hbytes : bytes ≠ [])
    (hsmall : r.seen + bytes.length < bufferSize) (hfirst : HeaderSeen r (r.read cfg bytes))
    (hneg : (r.read cfg bytes).part ≠ .negative) :
    ∃ c' ok, received cfg bytes c = .ok (if ok then c' else c'.failed, ok) ∧
      Meets (r.read cfg bytes) c'.client ok ∧
      c'.stats = { (r.read cfg bytes).conn.stats with
        bytesTotal := base + (r.read cfg bytes).seen } ∧
      c'.client.bytesReceived = (r.read cfg bytes).seen := by
  obtain ⟨c', ok, hparse, hmeets, hstats⟩ := parse_follows h hbytes hsmall hfirst hneg
  have hseen : (r.read cfg bytes).seen = r.seen + bytes.length :=
    (Reader.read_counted h.awaits.counted bytes).2
  have hreceived : c'.client.bytesReceived = c.client.bytesReceived + bytes.length :=
    (clientParse_kept hparse).received
  have hroom : ¬ bufferSize ≤ (c.taking bytes).client.buffer.length := by
    have hle := h.awaits.length_le
    rw [Conn.taking, length_append]
    omega
  refine ⟨c', ok, ?_, hmeets, ?_, ?_⟩
  · have heq : received cfg bytes c = (if bufferSize ≤ (c.taking bytes).client.buffer.length then
        .ok ((c.taking bytes).failed, false)
      else clientParse cfg bytes.length (c.taking bytes) >>= fun r =>
        .ok (if r.2 then (r.1, true) else (r.1.failed, false))) := rfl
    rw [heq, if_neg hroom, hparse]
    cases ok <;> rfl
  · rw [hstats, hseen]
  · rw [hreceived, h.received, hseen]

end Weighttp
