import ReadingComment.Weighttp.Chunks

/-!
# Status lines, headers and bodies

The parser and the reader up to the end of the header. A header is parsed from the
buffer line by line, and the parser stops at the first line that is not complete; the
reader goes through the bytes of this line, and the parser goes through them again when
more has come.

What a chunked body is parsed with is the size of the last read less the size of the
header. This is what is left of the read only if the header came with it as a whole.
-/

namespace Weighttp

open List

variable {cfg : Config} {conn : Conn} {c : Client} {pre rest : List Char}

/-! ## Bodies -/

/-- A client at the start of a body, behind so many bytes. -/
structure Opening (c : Client) (n : ℕ) (z : List Char) : Prop where
  state : c.state = .reading
  success : c.success = false
  parserState : c.parserState = .body
  received : c.bytesReceived = n + z.length

theorem startBody_eq (n : ℕ) : Reader.startBody ⟨conn, .lineCr [], n⟩ =
    ⟨{ conn with client := { conn.client with headerSize := n } },
      if conn.client.chunked then .size 0
      else if conn.client.contentLength = unknown then .broken else .body, n⟩ := rfl

theorem parseBody_of_plain (h : c.chunked = false) (size : ℤ) :
    parseBody size c =
      if c.contentLength = unknown then .ok ({ c with buffer := [] }, false)
      else if c.bytesReceived = (c.headerSize + c.contentLength) % 2 ^ 64 then
        .ok (Client.completed { c with buffer := [] }, true)
      else .ok ({ c with buffer := [] }, true) := by
  have hnot : ¬ c.chunked = true := Bool.eq_false_iff.mp h
  rw [parseBody, if_neg hnot]

variable {z : List Char} {u : List Char}

theorem parseBody_plain {n : ℕ} (h : Opening c n z) (ha : Agrees conn.client c)
    (hchunked : c.chunked = false) (size : ℤ) :
    ∃ c' ok, parseBody size c = .ok (c', ok) ∧
      Meets ⟨conn, if conn.client.contentLength = unknown then .broken else .body, n + z.length⟩
        c' ok := by
  have hverdict : Reader.verdict ⟨conn, .body, n + z.length⟩ =
      if c.bytesReceived = (c.headerSize + c.contentLength) % 2 ^ 64 then .complete else .more := by
    rw [h.received, ha.headerSize, ha.contentLength]
    rfl
  rw [parseBody_of_plain hchunked, ← ha.contentLength]
  split
  · exact ⟨_, false, rfl, ⟨ha.1, ha.2, ha.3, ha.4, ha.5⟩, rfl, h.state, h.success⟩
  · rename_i hknown
    split
    · rename_i hdone
      refine ⟨_, true, rfl, ⟨ha.1, ha.2, ha.3, ha.4, ha.5⟩, ?_⟩
      rw [hverdict, if_pos hdone]
      exact ⟨rfl, rfl, rfl⟩
    · rename_i hdone
      refine ⟨_, true, rfl, ⟨ha.1, ha.2, ha.3, ha.4, ha.5⟩, ?_⟩
      rw [hverdict, if_neg hdone]
      exact ⟨rfl, h.state, h.success, h.parserState, hchunked, hknown, rfl⟩

theorem parseBody_spec {n : ℕ} (h : Opening c n z)
    (ha : Agrees { conn.client with headerSize := n } c) (hsize : c.chunkSize = -1)
    (hbuffer : c.chunked = true → c.buffer = pre ++ z ∧ c.parserOffset = pre.length ∧
      pre.length = n) (hsmall : n + z.length < bufferSize) {size : ℤ}
    (hchunk : c.chunked = true → size = z.length)
    (hneg : ((Reader.startBody ⟨conn, .lineCr [], n⟩).read cfg z).part ≠ .negative) :
    ∃ c' ok, parseBody size c = .ok (c', ok) ∧
      Meets ((Reader.startBody ⟨conn, .lineCr [], n⟩).read cfg z) c' ok := by
  have hagree : c.chunked = conn.client.chunked := ha.chunked
  rw [startBody_eq] at hneg ⊢
  cases hc : c.chunked with
  | true =>
    obtain ⟨hbuf, hoff, hlen⟩ := hbuffer hc
    have hchunking : Chunking c pre z :=
      ⟨h.state, h.success, h.parserState, hc, hbuf, hoff, by
        rw [length_append, hlen]
        exact hsmall⟩
    have hfuel : z.length < c.buffer.length + 2 := by
      rw [hbuf, length_append]
      omega
    rw [if_pos (hagree.symm.trans hc)] at hneg ⊢
    rw [parseBody, if_pos hc, hchunk hc]
    exact sizeSpec cfg _ n hchunking hsize ha hfuel hsmall hneg
  | false =>
    have hif : ¬ conn.client.chunked = true := Bool.eq_false_iff.mp (hagree.symm.trans hc)
    rw [if_neg hif]
    have hread : ∀ p, (p = .broken ∨ p = .body) → Reader.read cfg
        ⟨{ conn with client := { conn.client with headerSize := n } }, p, n⟩ z =
        ⟨{ conn with client := { conn.client with headerSize := n } }, p, n + z.length⟩ := by
      rintro _ (rfl | rfl)
      · exact Reader.read_final (.inr (.inr (.inr (.inr (.inr rfl))))) z n
      · exact Reader.read_final (.inr (.inl rfl)) z n
    rw [hread _ (by split <;> simp)]
    exact parseBody_plain h ha hc size

/-! ## Header lines -/

theorem headerLine_agrees {a : Client} (ha : Agrees a c) (line : List Char) :
    (headerLine cfg line a = none ∧ headerLine cfg line c = none) ∨
    ∃ a' k l ch, headerLine cfg line a = some a' ∧ headerLine cfg line c =
      some { c with keepalive := k, contentLength := l, chunked := ch } ∧
      Agrees a' { c with keepalive := k, contentLength := l, chunked := ch } := by
  obtain ⟨hstatus, hkeep, hchunked, hlength, hheader⟩ := ha
  simp only [headerLine]
  split
  · exact .inr ⟨_, c.keepalive, _, c.chunked, rfl, rfl, hstatus, hkeep, hchunked, rfl, hheader⟩
  · split
    · split
      · exact .inr ⟨_, _, c.contentLength, c.chunked, rfl, rfl, hstatus, rfl, hchunked, hlength,
          hheader⟩
      · split
        · exact .inr ⟨_, _, c.contentLength, c.chunked, rfl, rfl, hstatus, rfl, hchunked, hlength,
            hheader⟩
        · exact .inl ⟨rfl, rfl⟩
    · split
      · split
        · exact .inr ⟨_, c.keepalive, c.contentLength, _, rfl, rfl, hstatus, hkeep, rfl, hlength,
            hheader⟩
        · exact .inl ⟨rfl, rfl⟩
      · exact .inr ⟨_, c.keepalive, c.contentLength, c.chunked, rfl, rfl, hstatus, hkeep, hchunked,
          hlength, hheader⟩

/-- A client in the header, with the lines that it has not parsed yet. -/
structure Heading (c : Client) (pre rest : List Char) : Prop where
  state : c.state = .reading
  success : c.success = false
  parserState : c.parserState = .header
  chunkSize : c.chunkSize = -1
  buffer : c.buffer = pre ++ rest
  offset : c.parserOffset = pre.length
  begun : 0 < pre.length
  received : c.bytesReceived = (pre ++ rest).length
  small : (pre ++ rest).length < bufferSize

theorem Heading.drop (h : Heading c pre rest) : c.buffer.drop c.parserOffset = rest := by
  rw [h.buffer, h.offset]
  exact drop_left

theorem Heading.charAt (h : Heading c pre rest) (i : ℕ) :
    charAt c.buffer (c.parserOffset + i) = Weighttp.charAt rest i := by
  rw [h.buffer, h.offset]
  exact charAt_append pre rest i

theorem read_line_cr (hu : Plain u) (v : List Char) (n : ℕ) :
    Reader.read cfg ⟨conn, .line [], n⟩ (u ++ '\r' :: v) =
      Reader.read cfg ⟨conn, .lineCr u, n + u.length + 1⟩ v := by
  rw [Reader.read_append, Reader.read_line hu]
  rfl

theorem read_line_nul (hu : Plain u) (v : List Char) (n : ℕ) :
    Reader.read cfg ⟨conn, .line [], n⟩ (u ++ '\x00' :: v) =
      ⟨conn, .stuck, n + (u ++ '\x00' :: v).length⟩ := by
  have hlen : n + (u ++ '\x00' :: v).length = n + u.length + 1 + v.length := by
    rw [length_append, length_cons]
    omega
  rw [Reader.read_append, Reader.read_line hu, hlen]
  exact Reader.read_final (.inl rfl) v _

theorem read_lineCr_broken {v : List Char} (hv : charAt v 0 ≠ '\n') (u : List Char) (n : ℕ) :
    ∃ q k, Reader.read cfg ⟨conn, .lineCr u, n⟩ v = ⟨conn, q, k⟩ ∧
      (⟨conn, q, k⟩ : Reader).verdict = .broken := by
  cases v with
  | nil => exact ⟨_, _, rfl, rfl⟩
  | cons b v =>
    have hb : b ≠ '\n' := hv
    have hstep : Reader.step cfg ⟨conn, .lineCr u, n⟩ b = ⟨conn, .broken, n + 1⟩ := by
      simp only [Reader.step, Reader.stepLater, if_neg hb]
    refine ⟨.broken, n + 1 + v.length, ?_, rfl⟩
    rw [Reader.read_cons, hstep, Reader.read_final (.inr (.inr (.inr (.inr (.inr rfl)))))]

theorem eq_cons_of_charAt {v : List Char} {b : Char} (hb : b ≠ '\x00') (h : charAt v 0 = b) :
    ∃ w, v = b :: w := by
  cases v with
  | nil => exact absurd h.symm hb
  | cons b' w =>
    have hb' : b' = b := h
    exact ⟨w, hb' ▸ rfl⟩

theorem startBody_read_conn (n : ℕ) (z : List Char) :
    ((Reader.startBody ⟨conn, .lineCr [], n⟩).read cfg z).conn.client =
      { conn.client with headerSize := n } := by
  have hpast : Reader.Past (Reader.startBody ⟨conn, .lineCr [], n⟩).part = true := by
    rw [startBody_eq]
    split
    · rfl
    · split <;> rfl
  rw [(Reader.read_past hpast z).1]
  rfl

/-- The read in which the header of a chunked response ends started with the response. -/
def WholeHeader (r : Reader) (size : ℤ) (total : ℕ) : Prop :=
  r.conn.client.chunked = true → r.conn.client.headerSize ≠ 0 → size = total

theorem openBody {n : ℕ} (h : Heading c pre rest) (ha : Agrees conn.client c) (hpos : 0 < n)
    (hn : n + z.length = (pre ++ rest).length) {c' : Client}
    (hc' : ∃ o, c' = { c with parserState := .body, headerSize := n, parserOffset := o } ∧
      (c.chunked = true → o = n ∧ ∃ pre', c.buffer = pre' ++ z ∧ pre'.length = n)) {size : ℤ}
    (hwhole : WholeHeader ((Reader.startBody ⟨conn, .lineCr [], n⟩).read cfg z) size
      (pre ++ rest).length)
    (hneg : ((Reader.startBody ⟨conn, .lineCr [], n⟩).read cfg z).part ≠ .negative) :
    ∃ c'' ok, parseBody (size - n) c' = .ok (c'', ok) ∧
      Meets ((Reader.startBody ⟨conn, .lineCr [], n⟩).read cfg z) c'' ok := by
  obtain ⟨o, rfl, ho⟩ := hc'
  have hopen : Opening { c with parserState := .body, headerSize := n, parserOffset := o } n z :=
    ⟨h.state, h.success, rfl, h.received.trans hn.symm⟩
  have hagrees : Agrees { conn.client with headerSize := n }
      { c with parserState := .body, headerSize := n, parserOffset := o } :=
    ⟨ha.1, ha.2, ha.3, ha.4, rfl⟩
  have hsmall : n + z.length < bufferSize := by
    rw [hn]
    exact h.small
  have hsize : c.chunked = true → size - n = z.length := by
    intro hc
    have htotal := hwhole
    rw [WholeHeader, startBody_read_conn] at htotal
    rw [htotal (ha.chunked.symm.trans hc) (Nat.ne_of_gt hpos), ← hn]
    omega
  rcases Classical.em (c.chunked = true) with hc | hc
  · obtain ⟨rfl, pre', hpre', hlen⟩ := ho hc
    exact @parseBody_spec cfg conn _ pre' _ _ hopen hagrees h.chunkSize
      (fun _ => ⟨hpre', hlen.symm, hlen⟩) hsmall _ hsize hneg
  · exact @parseBody_spec cfg conn _ [] _ _ hopen hagrees h.chunkSize (fun hc' =>
      absurd hc' hc) hsmall
      _ hsize hneg

def HeaderSpec (cfg : Config) (size : ℤ) (fuel : ℕ) : Prop :=
  ∀ {c : Client} {pre rest : List Char} {conn : Conn}, Heading c pre rest → Agrees conn.client c →
    rest.length < fuel → (c.chunked = true → ∀ t, rest ≠ '\r' :: '\n' :: t) →
    WholeHeader (Reader.read cfg ⟨conn, .line [], pre.length⟩ rest) size (pre ++ rest).length →
    (Reader.read cfg ⟨conn, .line [], pre.length⟩ rest).part ≠ .negative →
    ∃ c' ok, parseHeader cfg size fuel c = .ok (c', ok) ∧
      Meets (Reader.read cfg ⟨conn, .line [], pre.length⟩ rest) c' ok

theorem parseHeader_next {size : ℤ} {fuel : ℕ} (ih : HeaderSpec cfg size fuel) {b : Char}
    {u w : List Char} (h : Heading c pre (u ++ b :: '\n' :: w)) (ha : Agrees conn.client c)
    (hfuel : w.length < fuel)
    (hwhole : WholeHeader (Reader.read cfg ⟨conn, .line [], pre.length + u.length + 2⟩ w) size
      (pre ++ (u ++ b :: '\n' :: w)).length)
    (hneg : (Reader.read cfg ⟨conn, .line [], pre.length + u.length + 2⟩ w).part ≠ .negative) :
    ∃ c' ok, (if charAt c.buffer (pre.length + u.length + 2) = '\r' ∧
        charAt c.buffer (pre.length + u.length + 3) = '\n' then
      parseBody (size - ((pre.length + u.length : ℕ) + 4)) { c with
        parserState := .body
        headerSize := pre.length + u.length + 4
        parserOffset := pre.length + u.length + 4 }
      else parseHeader cfg size fuel { c with parserOffset := pre.length + u.length + 2 }) =
        .ok (c', ok) ∧
      Meets (Reader.read cfg ⟨conn, .line [], pre.length + u.length + 2⟩ w) c' ok := by
  have hat : ∀ i, charAt c.buffer (pre.length + u.length + (2 + i)) = charAt w i := by
    intro i
    rw [← h.offset, Nat.add_assoc, h.charAt, charAt_append]
    have hcons : charAt (b :: '\n' :: w) (i + 2) = charAt w i := rfl
    rw [Nat.add_comm 2 i, hcons]
  have hlen : (pre ++ (u ++ b :: '\n' :: w)).length = pre.length + u.length + 2 + w.length := by
    simp only [length_append, length_cons]
    omega
  rw [hat 0, hat 1]
  split
  · -- the blank line follows
    rename_i hblank
    obtain ⟨w, rfl⟩ := eq_cons_of_charAt (by decide) hblank.1
    obtain ⟨z, rfl⟩ := eq_cons_of_charAt (v := w) (by decide) hblank.2
    have hpos : 0 < pre.length + u.length + 4 := Nat.succ_pos _
    have hn : pre.length + u.length + 4 + z.length =
        (pre ++ (u ++ b :: '\n' :: '\r' :: '\n' :: z)).length := by
      rw [hlen]
      simp only [length_cons]
      omega
    refine openBody h ha hpos hn ⟨_, rfl, fun _ => ⟨rfl, pre ++ (u ++ [b, '\n', '\r', '\n']), ?_,
      ?_⟩⟩ hwhole hneg
    · rw [h.buffer]
      simp only [append_assoc, cons_append, nil_append]
    · simp only [length_append, length_cons, length_nil]
      omega
  · rename_i hblank
    have hpre : (pre ++ (u ++ [b, '\n'])).length = pre.length + u.length + 2 := by
      simp only [length_append, length_cons, length_nil]
      omega
    have hsplit : pre ++ (u ++ b :: '\n' :: w) = (pre ++ (u ++ [b, '\n'])) ++ w := by
      simp only [append_assoc, cons_append, nil_append]
    have hnext : Heading { c with parserOffset := pre.length + u.length + 2 }
        (pre ++ (u ++ [b, '\n'])) w := by
      refine ⟨h.state, h.success, h.parserState, h.chunkSize, h.buffer.trans hsplit, hpre.symm, ?_,
        ?_, ?_⟩
      · rw [hpre]
        exact Nat.succ_pos _
      · rw [← hsplit]
        exact h.received
      · rw [← hsplit]
        exact h.small
    have hspec := @ih _ _ _ conn hnext
    rw [hpre, ← hsplit] at hspec
    refine hspec ⟨ha.1, ha.2, ha.3, ha.4, ha.5⟩ hfuel ?_ hwhole hneg
    rintro - t rfl
    exact hblank ⟨rfl, rfl⟩

theorem set_cr (pre u v : List Char) (b b' : Char) :
    (pre ++ (u ++ b :: v)).set (pre.length + u.length) b' = pre ++ (u ++ b' :: v) := by
  rw [set_append_right _ _ (Nat.le_add_right _ _), Nat.add_sub_cancel_left,
    set_append_right _ _ le_rfl,
    Nat.sub_self]
  rfl

/-- **The loop over header lines.** -/
theorem parseHeader_spec (cfg : Config) (size : ℤ) (fuel : ℕ) : HeaderSpec cfg size fuel := by
  induction fuel with
  | zero =>
    intro c pre rest conn _ _ hfuel
    exact absurd hfuel (Nat.not_lt_zero _)
  | succ fuel ih =>
    intro c pre rest conn h ha hfuel hblank hwhole hneg
    rw [parseHeader, h.drop]
    rcases strchr_cases rest with ⟨hplain, hnone⟩ | ⟨u, v, rfl, hu, hnone⟩ | ⟨u, v, rfl, hu, hsome⟩
    · -- the last line is not complete
      rw [hnone, Reader.read_line hplain]
      refine ⟨c, true, rfl, ha, rfl, h.state, h.success, h.parserState, h.chunkSize, hplain, pre,
        h.buffer, h.offset, h.begun, ?_⟩
      rw [h.buffer, length_append]
    · -- a NUL ends the string
      rw [hnone, read_line_nul hu]
      refine ⟨c, true, rfl, ha, rfl, h.state, h.success, h.parserState, pre, u, v, h.buffer, hu,
        h.offset, ?_⟩
      rw [h.buffer, length_append]
    · rw [hsome, read_line_cr hu] at *
      simp only
      have hat : charAt c.buffer (c.parserOffset + u.length + 1) = charAt v 0 := by
        rw [Nat.add_assoc, h.charAt]
        exact charAt_append u ('\r' :: v) 1
      rw [hat]
      rcases eq_or_ne (charAt v 0) '\n' with hlf | hlf
      · rw [if_neg (not_not_intro hlf)]
        obtain ⟨w, rfl⟩ := eq_cons_of_charAt (by decide) hlf
        have hlen : (u ++ '\r' :: '\n' :: w).length = u.length + 2 + w.length := by
          rw [length_append, length_cons, length_cons]
          omega
        have hread : Reader.read cfg ⟨conn, .lineCr u, pre.length + u.length + 1⟩ ('\n' :: w) =
            (Reader.endLine cfg ⟨conn, .lineCr u, pre.length + u.length + 2⟩ u).read cfg w := rfl
        rw [hread] at hwhole hneg ⊢
        rw [h.offset]
        rcases eq_or_ne u [] with rfl | hne
        · -- a blank line
          rw [if_pos length_nil]
          refine openBody h ha (Nat.succ_pos _) ?_ ⟨_, rfl,
            fun hc => absurd rfl (hblank hc w)⟩ hwhole
            hneg
          rw [length_append, hlen]
          simp only [length_nil]
          omega
        · have hzero : ¬ u.length = 0 := fun hu0 => hne (eq_nil_of_length_eq_zero hu0)
          rw [if_neg hzero, take_left]
          rw [Reader.endLine, if_neg hne] at hwhole hneg ⊢
          have hended : Agrees conn.client (c.endLine (pre.length + u.length)) :=
            ⟨ha.1, ha.2, ha.3, ha.4, ha.5⟩
          rcases @headerLine_agrees cfg _ _ hended u with ⟨hna, hnc⟩ | ⟨a', k, l, ch, hsa, hsc, ha'⟩
          · rw [hna, hnc, Reader.read_final (.inr (.inr (.inr (.inr (.inr rfl)))))]
            exact ⟨_, false, rfl, hended, rfl, h.state, h.success⟩
          · rw [hsa] at hwhole hneg ⊢
            rw [hsc]
            have hsame : (pre ++ (u ++ '\r' :: '\n' :: w)).length =
                (pre ++ (u ++ '\x00' :: '\n' :: w)).length := by
              simp only [length_append, length_cons]
            have hbuffer : (c.endLine (pre.length + u.length)).buffer =
                pre ++ (u ++ '\x00' :: '\n' :: w) := by
              rw [Client.endLine, h.buffer]
              exact set_cr pre u ('\n' :: w) '\r' '\x00'
            have h' : Heading { c.endLine (pre.length + u.length) with
                keepalive := k, contentLength := l, chunked :=
                  ch } pre (u ++ '\x00' :: '\n' :: w) :=
              ⟨h.state, h.success, h.parserState, h.chunkSize, hbuffer, h.offset, h.begun,
                h.received.trans hsame, hsame ▸ h.small⟩
            have hfuel' : w.length < fuel := by omega
            rw [hsame] at hwhole
            exact @parseHeader_next cfg
              { conn with client := a' } _ _ _ _ ih _ _ _ h' ha' hfuel' hwhole hneg
      · rw [if_pos hlf]
        obtain ⟨q, k, hread, hbroken⟩ :=
          @read_lineCr_broken cfg conn v hlf u (pre.length + u.length + 1)
        rw [hread]
        exact ⟨c, false, rfl, .broken ha hbroken h.state h.success⟩

/-! ## The status line -/

theorem countStatus_agrees {a : Conn} {c : Conn} {b : ℕ} (ha : Agrees a.client c.client)
    (hs : c.stats = { a.stats with bytesTotal := b }) (code : ℕ) :
    (countStatus code a = none ∧ countStatus code c = none) ∨
    ∃ a' stats success, countStatus code a = some a' ∧
      countStatus code c = some ⟨stats, { c.client with statusSuccess := success }⟩ ∧
      stats = { a'.stats with bytesTotal := b } ∧
      Agrees a'.client { c.client with statusSuccess := success } := by
  obtain ⟨s, c⟩ := c
  obtain rfl : s = { a.stats with bytesTotal := b } := hs
  obtain ⟨hstatus, hkeep, hchunked, hlength, hheader⟩ := ha
  simp only [countStatus]
  split
  · exact .inr ⟨_, _, true, rfl, rfl, rfl, rfl, hkeep, hchunked, hlength, hheader⟩
  · split
    · exact .inr ⟨_, _, true, rfl, rfl, rfl, rfl, hkeep, hchunked, hlength, hheader⟩
    · split
      · exact .inr ⟨_, _, c.statusSuccess, rfl, rfl, rfl, hstatus, hkeep, hchunked, hlength,
          hheader⟩
      · split
        · exact .inr ⟨_, _, c.statusSuccess, rfl, rfl, rfl, hstatus, hkeep, hchunked, hlength,
            hheader⟩
        · exact .inl ⟨rfl, rfl⟩

/-- A client before the status line. -/
structure Starting (c : Client) : Prop where
  state : c.state = .reading
  success : c.success = false
  parserState : c.parserState = .start
  chunked : c.chunked = false
  chunkSize : c.chunkSize = -1
  received : c.bytesReceived = c.buffer.length
  small : c.buffer.length < bufferSize

theorem read_status_cr (hu : Plain u) (v : List Char) (n : ℕ) :
    Reader.read cfg ⟨conn, .status false, n⟩ (u ++ '\r' :: v) =
      Reader.read cfg ⟨conn, .status true, n + u.length + 1⟩ v := by
  rw [Reader.read_append, Reader.read_status hu]
  rfl

theorem status_cases (s : List Char) (n : ℕ) :
    (((strchr '\r' s = none) ∨ ∃ k, strchr '\r' s = some k ∧ charAt s (k + 1) ≠ '\n') ∧
      ∃ q m, Reader.read cfg ⟨conn, .status false, n⟩ s = ⟨conn, q, m⟩ ∧
        (⟨conn, q, m⟩ : Reader).verdict = .broken) ∨
    ∃ u w, s = u ++ '\r' :: '\n' :: w ∧ strchr '\r' s = some u.length ∧
      Reader.read cfg ⟨conn, .status false, n⟩ s =
        Reader.read cfg ⟨conn, .line [], n + u.length + 2⟩ w := by
  rcases strchr_cases s with ⟨hplain, hnone⟩ | ⟨u, v, rfl, hu, hnone⟩ | ⟨u, v, rfl, hu, hsome⟩
  · exact .inl ⟨.inl hnone, _, _, Reader.read_status hplain n, rfl⟩
  · refine .inl ⟨.inl hnone, .broken, n + u.length + 1 + v.length, ?_, rfl⟩
    rw [Reader.read_append, Reader.read_status hu]
    exact Reader.read_final (.inr (.inr (.inr (.inr (.inr rfl))))) v _
  · have hat : charAt (u ++ '\r' :: v) (u.length + 1) = charAt v 0 := charAt_append u ('\r' :: v) 1
    rw [read_status_cr hu]
    rcases eq_or_ne (charAt v 0) '\n' with hlf | hlf
    · obtain ⟨w, rfl⟩ := eq_cons_of_charAt (by decide) hlf
      exact .inr ⟨u, w, rfl, hsome, rfl⟩
    · refine .inl ⟨.inr ⟨u.length, hsome, ne_of_eq_of_ne hat hlf⟩, ?_⟩
      cases v with
      | nil => exact ⟨_, _, rfl, rfl⟩
      | cons b v =>
        have hb : b ≠ '\n' := hlf
        have hstep : Reader.step cfg ⟨conn, .status true, n + u.length + 1⟩ b =
            ⟨conn, .broken, n + u.length + 1 + 1⟩ := by
          simp only [Reader.step, Reader.stepLater, Part.next, if_neg hb]
        refine ⟨.broken, n + u.length + 1 + 1 + v.length, ?_, rfl⟩
        rw [Reader.read_cons, hstep, Reader.read_final (.inr (.inr (.inr (.inr (.inr rfl)))))]

end Weighttp
