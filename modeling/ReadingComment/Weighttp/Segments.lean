import ReadingComment.Weighttp.Machine
import ReadingComment.Weighttp.Reads

/-!
# Responses in pieces

A response comes in as many reads as the network makes of it. As long as each read but
the last ends where the parser can wait for more, the client comes to what the reader
makes of the bytes of all of them, and so to what it makes of them when they come at
once; after a read that ends elsewhere the request is over, and the rest is not read.
-/

namespace Weighttp

open List

/-! ## Reads until the response is over -/

/-- The case `CLIENT_READING` with a `read` that has brought bytes, up to where the counters are
updated at `CLIENT_END`. A client that does not read any more is left alone. -/
def readPiece (cfg : Config) (bytes : List Char) (c : Conn) : Except Fault Conn :=
  if c.client.state = .reading then do
    let (c, ok) ← received cfg bytes c
    let c := if ok then c else clientError c
    return if c.client.state = .atEnd then { c with stats := countDone c } else c
  else .ok c

def readPieces (cfg : Config) (pieces : List (List Char)) (c : Conn) : Except Fault Conn :=
  pieces.foldlM (fun c bytes => readPiece cfg bytes c) c

def Worker.goOn (w : Worker) (i : ℕ) : Worker :=
  let w := { w with counted := w.serial i :: w.counted }
  if w.stats.reqStarted = w.stats.reqTodo then w.rest i else w.again i

theorem countDone_started (c : Conn) :
    (countDone c).reqStarted = c.stats.reqStarted ∧ (countDone c).reqTodo = c.stats.reqTodo := by
  rw [countDone]
  split
  · exact ⟨rfl, rfl⟩
  · exact ⟨rfl, rfl⟩

theorem put_atEnd (w : Worker) (i : ℕ) (c : Conn) :
    (w.put i c).atEnd i = (w.put i { c with stats := countDone c }).goOn i := by
  obtain ⟨hstarted, htodo⟩ := countDone_started c
  have hcount : (w.put i c).count i =
      { w.put i { c with stats := countDone c } with
        counted := (w.put i { c with stats := countDone c }).serial i ::
          (w.put i { c with stats := countDone c }).counted } := by
    rw [Worker.count, Worker.put_conn]
    rfl
  have hiff : (w.put i c).stats.reqStarted = (w.put i c).stats.reqTodo ↔
      (countDone c).reqStarted = (countDone c).reqTodo := by
    rw [hstarted, htodo]
    exact Iff.rfl
  rw [Worker.atEnd, hcount]
  simp only [hiff]
  rfl

theorem readBytes_eq {w : Worker} {i : ℕ} {bytes : List Char}
    (hstate : (w.client i).state = .reading) :
    w.readBytes i bytes =
      (fun c => if c.client.state = .atEnd then (w.put i c).goOn i else (w.put i c).returns) <$>
        readPiece w.cfg bytes (w.conn i) := by
  have hstate' : (w.conn i).client.state = .reading := hstate
  rw [Worker.readBytes, readPiece, if_pos hstate']
  cases received w.cfg bytes (w.conn i) with
  | error e => rfl
  | ok r =>
    obtain ⟨c, ok⟩ := r
    cases ok with
    | false =>
      have hend : (w.put i c).atError i = (w.put i (clientError c)).atEnd i := by
        rw [Worker.atError, Worker.put_conn, Worker.put_put]
      refine congrArg Except.ok (hend.trans ?_)
      exact put_atEnd w i (clientError c)
    | true =>
      rcases Classical.em (c.client.state = .atEnd) with hdone | hmore
      · simp only [pure, Except.pure, bind, Except.bind, Functor.map, Except.map, if_pos hdone,
          if_true]
        exact congrArg Except.ok (put_atEnd w i c)
      · simp only [pure, Except.pure, bind, Except.bind, Functor.map, Except.map, if_neg hmore,
          if_true]

/-- A client that has sent its request and waits for the response. -/
def Conn.Waiting (cfg : Config) (c : Conn) : Prop :=
  ∃ watched offset, c.client = { clientNew cfg with
    state := .reading, watched := watched, requestOffset := offset }

/-- What a response comes to. -/
structure Outcome where
  state : ClientState
  success : Bool
  statusSuccess : Bool
  keepalive : Bool
  contentLength : ℕ
  bytesReceived : ℕ
  stats : Stats

def Conn.outcome (c : Conn) : Outcome where
  state := c.client.state
  success := c.client.success
  statusSuccess := c.client.statusSuccess
  keepalive := c.client.keepalive
  contentLength := c.client.contentLength
  bytesReceived := c.client.bytesReceived
  stats := c.stats

def Conn.reader (c : Conn) : Reader := ⟨c, .early [], 0⟩

theorem outcome_eq {c d : Conn} (hstate : c.client.state = d.client.state)
    (hsuccess : c.client.success = d.client.success) (ha : Agrees d.client c.client)
    (hreceived : c.client.bytesReceived = d.client.bytesReceived) (hstats : c.stats = d.stats) :
    c.outcome = d.outcome := by
  rw [Conn.outcome, hstate, hsuccess, ha.statusSuccess, ha.keepalive, ha.contentLength, hreceived,
    hstats]
  rfl

/-! ## What the reader comes to -/

namespace Reader

def current (base : ℕ) (r : Reader) : Conn where
  stats := { r.conn.stats with bytesTotal := base + r.seen }
  client := { r.conn.client with bytesReceived := r.seen, state := .reading, success := false }

def final (base : ℕ) (r : Reader) : Conn :=
  let c := r.current base
  match r.verdict with
  | .more => c
  | .complete =>
    let c : Conn := ⟨c.stats, c.client.completed⟩
    { c with stats := countDone c }
  | .broken =>
    let c := clientError c
    { c with stats := countDone c }

/-- If the response turns out to be chunked, its header is known now. -/
def Headed (r r' : Reader) : Prop :=
  r'.conn.client.chunked = true → r'.conn.client.headerSize ≠ 0 → r.conn.client.headerSize ≠ 0

theorem Headed.later {cfg : Config} {r : Reader} {r' : Reader} (h : r.Headed r') (hr : r.Sound)
    (bytes : List Char) : (r.read cfg bytes).Headed r' := by
  intro hchunked hne
  have hheader := h hchunked hne
  rw [read_conn hr hheader]
  exact hheader

theorem read_ne_negative {cfg : Config} {r : Reader} {s : List Char}
    (h : (r.read cfg s).part ≠ .negative) : r.part ≠ .negative := by
  obtain ⟨conn, p, n⟩ := r
  rintro rfl
  rw [read_final (.inr (.inr (.inr (.inl rfl))))] at h
  exact h rfl

/-- The reader expects more at the end of each piece but the last. -/
def Waits (cfg : Config) (r : Reader) : List (List Char) → Prop
  | [] => True
  | [_] => True
  | bytes :: next :: pieces =>
    (r.read cfg bytes).verdict = .more ∧ (r.read cfg bytes).Waits cfg (next :: pieces)

end Reader

theorem countDone_bytesTotal (c : Conn) : (countDone c).bytesTotal = c.stats.bytesTotal := by
  rw [countDone]
  split
  · rfl
  · rfl

theorem final_bytesTotal (base : ℕ) (r : Reader) :
    (r.final base).stats.bytesTotal = base + r.seen := by
  rw [Reader.final]
  split
  · rfl
  · exact countDone_bytesTotal _
  · exact countDone_bytesTotal _

theorem countDone_eq {c d : Conn} (hsuccess : c.client.success = d.client.success)
    (hreceived : c.client.bytesReceived = d.client.bytesReceived)
    (hheader : c.client.headerSize = d.client.headerSize) (hstats : c.stats = d.stats) :
    countDone c = countDone d := by
  rw [countDone, countDone, hsuccess, hreceived, hheader, hstats]

variable {cfg : Config} {base : ℕ} {r : Reader} {c : Conn} {bytes : List Char}

/-- **One read, and what follows it.** -/
theorem readPiece_follows (h : Follows base r c) (hbytes : bytes ≠ [])
    (hsmall : r.seen + bytes.length < bufferSize) (hfirst : HeaderSeen r (r.read cfg bytes))
    (hneg : (r.read cfg bytes).part ≠ .negative) :
    ∃ c', readPiece cfg bytes c = .ok c' ∧
      c'.outcome = ((r.read cfg bytes).final base).outcome ∧
      ((r.read cfg bytes).verdict = .more → Follows base (r.read cfg bytes) c') ∧
      ((r.read cfg bytes).verdict ≠ .more → c'.client.state ≠ .reading) := by
  obtain ⟨c', ok, hreceived, ⟨ha, hmeets⟩, hstats, hseen⟩ :=
    received_follows h hbytes hsmall hfirst hneg
  have hsound := @Reader.read_sound cfg r h.sound bytes
  rw [readPiece, if_pos h.state, hreceived, Reader.final]
  cases hv : (r.read cfg bytes).verdict with
  | more =>
    rw [hv] at hmeets
    obtain ⟨rfl, hstate, hsuccess, hawaits⟩ := hmeets
    have hnot : ¬ c'.client.state = .atEnd := by
      rw [hstate]
      exact nofun
    refine ⟨c', ?_, ?_, ?_, ?_⟩
    · simp only [pure, Except.pure, bind, Except.bind, if_true, if_neg hnot]
    · exact outcome_eq hstate hsuccess ⟨ha.1, ha.2, ha.3, ha.4, ha.5⟩ hseen hstats
    · exact fun _ => ⟨hstats, hseen, ha, hstate, hsuccess, hawaits, hsound⟩
    · exact fun hne => absurd rfl hne
  | complete =>
    rw [hv] at hmeets
    obtain ⟨rfl, hstate, hsuccess⟩ := hmeets
    refine ⟨{ c' with stats := countDone c' }, ?_, ?_, nofun, ?_⟩
    · simp only [pure, Except.pure, bind, Except.bind, if_true, if_pos hstate]
    · have hsuccess' : c'.client.success = (r.read cfg bytes).conn.client.statusSuccess :=
        hsuccess.trans ha.statusSuccess
      exact outcome_eq hstate hsuccess' ⟨ha.1, ha.2, ha.3, ha.4, ha.5⟩ hseen
        (countDone_eq hsuccess' hseen ha.headerSize hstats)
    · rintro - hreading
      rw [hstate] at hreading
      cases hreading
  | broken =>
    rw [hv] at hmeets
    obtain ⟨rfl, hstate, hsuccess⟩ := hmeets
    refine ⟨{ clientError c'.failed with stats := countDone (clientError c'.failed) }, rfl, ?_,
      nofun, nofun⟩
    have hstats' : (clientError c'.failed).stats =
        (clientError ((r.read cfg bytes).current base)).stats := by
      rw [clientError, Conn.failed, hstats]
      rfl
    exact outcome_eq rfl rfl ⟨ha.1, rfl, ha.3, ha.4, ha.5⟩ hseen
      (@countDone_eq (clientError c'.failed)
        (clientError ((r.read cfg bytes).current base)) rfl hseen
        ha.headerSize hstats')

theorem readPieces_cons (bytes : List Char) (pieces : List (List Char)) (c : Conn) :
    readPieces cfg (bytes :: pieces) c = readPiece cfg bytes c >>= readPieces cfg pieces := rfl

theorem readPieces_over (h : c.client.state ≠ .reading) (pieces : List (List Char)) :
    readPieces cfg pieces c = .ok c := by
  induction pieces with
  | nil => rfl
  | cons bytes pieces ih =>
    rw [readPieces_cons, readPiece, if_neg h]
    exact ih

theorem readPiece_first {rest : List Char} (h : Follows base r c) (hbytes : bytes ≠ [])
    (hsmall : r.seen + (bytes ++ rest).length < bufferSize)
    (hneg : (r.read cfg (bytes ++ rest)).part ≠ .negative)
    (hstart : r.seen = 0 ∨ r.Headed (r.read cfg (bytes ++ rest))) :
    ∃ c', readPiece cfg bytes c = .ok c' ∧
      c'.outcome = ((r.read cfg bytes).final base).outcome ∧
      c'.stats.bytesTotal = base + (r.seen + bytes.length) ∧
      ((r.read cfg bytes).verdict = .more → Follows base (r.read cfg bytes) c') ∧
      ((r.read cfg bytes).verdict ≠ .more → c'.client.state ≠ .reading) := by
  have hseen : (r.read cfg bytes).seen = r.seen + bytes.length :=
    (Reader.read_counted h.awaits.counted bytes).2
  have hfirst : HeaderSeen r (r.read cfg bytes) := by
    intro hchunked hheader
    refine hstart.imp id fun hheaded => ?_
    have hconn : (r.read cfg (bytes ++ rest)).conn = (r.read cfg bytes).conn := by
      rw [Reader.read_append, Reader.read_conn (Reader.read_sound h.sound bytes) hheader]
    rw [Reader.Headed, hconn] at hheaded
    exact hheaded hchunked hheader
  have hroom : r.seen + bytes.length < bufferSize := by
    rw [length_append] at hsmall
    omega
  rw [Reader.read_append] at hneg
  obtain ⟨c', hread, houtcome, hmore, hover⟩ :=
    readPiece_follows h hbytes hroom hfirst (Reader.read_ne_negative hneg)
  refine ⟨c', hread, houtcome, ?_, hmore, hover⟩
  have htotal : c'.stats.bytesTotal = ((r.read cfg bytes).final base).stats.bytesTotal :=
    congrArg (fun o => o.stats.bytesTotal) houtcome
  rw [htotal, final_bytesTotal, hseen]

/-- **All reads.** The client comes to what the reader comes to, or it has stopped before. -/
theorem readPieces_follows {first : List Char} {more : List (List Char)} (h : Follows base r c)
    (hne : ∀ bytes ∈ first :: more, bytes ≠ [])
    (hsmall : r.seen + (first :: more).flatten.length < bufferSize)
    (hneg : (r.read cfg (first :: more).flatten).part ≠ .negative)
    (hheaded : (r.read cfg first).Headed (r.read cfg (first :: more).flatten))
    (hstart : r.seen = 0 ∨ r.Headed (r.read cfg (first :: more).flatten)) :
    ∃ a, readPieces cfg (first :: more) c = .ok a ∧
      ((r.Waits cfg (first :: more) ∧
          a.outcome = ((r.read cfg (first :: more).flatten).final base).outcome) ∨
        (¬ r.Waits cfg (first :: more) ∧
          a.stats.bytesTotal < base + (r.seen + (first :: more).flatten.length))) := by
  induction more generalizing first r c with
  | nil =>
    obtain ⟨c', hread, houtcome, -⟩ :=
      readPiece_first h (hne first (mem_cons_self ..)) hsmall hneg hstart
    rw [readPieces_cons, hread]
    refine ⟨c', rfl, .inl ⟨trivial, ?_⟩⟩
    rw [flatten_cons, flatten_nil, append_nil]
    exact houtcome
  | cons next more ih =>
    obtain ⟨c', hread, -, hbytes, hmore, hover⟩ :=
      readPiece_first h (hne first (mem_cons_self ..)) hsmall hneg hstart
    have hwhole : r.read cfg (first :: next :: more).flatten =
        (r.read cfg first).read cfg (next :: more).flatten := by
      rw [flatten_cons, Reader.read_append]
    have hseen : (r.read cfg first).seen = r.seen + first.length :=
      (Reader.read_counted h.awaits.counted first).2
    have hlen : r.seen + (first :: next :: more).flatten.length =
        (r.read cfg first).seen + (next :: more).flatten.length := by
      rw [flatten_cons, length_append, hseen, Nat.add_assoc]
    have hnext : next ≠ [] := hne next (mem_cons_of_mem _ (mem_cons_self ..))
    rw [readPieces_cons, hread]
    rcases Classical.em ((r.read cfg first).verdict = .more) with hv | hv
    · -- the client goes on where the reader is
      rw [hwhole] at hneg hheaded ⊢
      rw [hlen] at hsmall ⊢
      have hlater := @Reader.Headed.later cfg _ _ hheaded (Reader.read_sound h.sound first) next
      obtain ⟨a, hrun, hcases⟩ := ih (hmore hv)
        (fun bytes hmem => hne bytes (mem_cons_of_mem _ hmem)) hsmall hneg hlater (.inr hheaded)
      refine ⟨a, hrun, hcases.imp ?_ ?_⟩
      · rintro ⟨hwaits, houtcome⟩
        exact ⟨⟨hv, hwaits⟩, houtcome⟩
      · rintro ⟨hwaits, hless⟩
        exact ⟨fun hall => hwaits hall.2, hless⟩
    · -- the rest is not read
      refine ⟨c', readPieces_over (hover hv) _, .inr ⟨fun hall => hv hall.1, ?_⟩⟩
      have hpos : 0 < next.length := length_pos_of_ne_nil hnext
      rw [hbytes, hlen, hseen, flatten_cons, length_append]
      omega

/-! ## Segmentation -/

theorem Conn.Waiting.follows (h : c.Waiting cfg) : Follows c.stats.bytesTotal c.reader c := by
  obtain ⟨watched, offset, hc⟩ := h
  obtain ⟨stats, client⟩ := c
  obtain rfl : client = _ := hc
  exact ⟨rfl, rfl, ⟨rfl, rfl, rfl, rfl, rfl⟩, rfl, rfl,
    ⟨rfl, rfl, rfl, rfl, rfl, Nat.succ_pos 14⟩, fun hne => absurd rfl hne⟩

/-- **Segmentation.** A response whose header, if the body is chunked, comes with the first read,
and that has no chunk size with the sign bit, comes to the same in pieces as at once if and only if
all reads but the last end where the reader expects more. -/
theorem segmentation (h : c.Waiting cfg) {first : List Char} {more : List (List Char)}
    (hne : ∀ bytes ∈ first :: more, bytes ≠ [])
    (hsmall : (first :: more).flatten.length < bufferSize)
    (hneg : (c.reader.read cfg (first :: more).flatten).part ≠ .negative)
    (hheaded : (c.reader.read cfg first).Headed (c.reader.read cfg (first :: more).flatten)) :
    ∃ a b, readPieces cfg (first :: more) c = .ok a ∧
      readPieces cfg [(first :: more).flatten] c = .ok b ∧
      (a.outcome = b.outcome ↔ c.reader.Waits cfg (first :: more)) := by
  have hsmall' : c.reader.seen + (first :: more).flatten.length < bufferSize := by
    rw [Conn.reader, Nat.zero_add]
    exact hsmall
  obtain ⟨a, ha, hcases⟩ := readPieces_follows h.follows hne hsmall' hneg hheaded (.inl rfl)
  have hpos : (first :: more).flatten ≠ [] := by
    rw [List.flatten_cons]
    exact List.append_ne_nil_of_left_ne_nil (hne first (List.mem_cons_self ..)) _
  have honce := @readPiece_first cfg c.stats.bytesTotal c.reader c (first :: more).flatten []
    h.follows hpos
  rw [List.append_nil] at honce
  obtain ⟨b, hb, houtcome, hbytes, -⟩ := honce hsmall' hneg (.inl rfl)
  refine ⟨a, b, ha, ?_, ?_⟩
  · rw [readPieces_cons, hb]
    rfl
  · rcases hcases with ⟨hwaits, houtcome'⟩ | ⟨hwaits, hless⟩
    · exact iff_of_true (houtcome'.trans houtcome.symm) hwaits
    · refine iff_of_false (fun heq => ?_) hwaits
      have htotal : a.stats.bytesTotal = b.stats.bytesTotal :=
        congrArg (fun o => o.stats.bytesTotal) heq
      rw [htotal, hbytes] at hless
      exact absurd hless (Nat.lt_irrefl _)

/-- The only client of a worker, when it waits for the only response. -/
def waiting : Conn where
  stats := { (workerNew ⟨false, 10⟩ 1 1).stats with reqStarted := 1 }
  client := { clientNew ⟨false, 10⟩ with state := .reading, watched := true, requestOffset := 10 }

/-- A chunked response that is cut within a chunk. -/
theorem segmentation_chunk :
    ∃ a b, readPieces ⟨false,
      10⟩ ["HTTP/1.1 200 OK\r\nTransfer-Encoding: chunked\r\n\r\n5\r\nhe".toList,
        "llo\r\n0\r\n\r\n".toList] waiting = .ok a ∧
      readPieces ⟨false,
        10⟩ [["HTTP/1.1 200 OK\r\nTransfer-Encoding: chunked\r\n\r\n5\r\nhe".toList,
        "llo\r\n0\r\n\r\n".toList].flatten] waiting = .ok b ∧ a.outcome = b.outcome := by
  have hwaiting : waiting.Waiting ⟨false, 10⟩ := ⟨true, 10, rfl⟩
  obtain ⟨a, b, ha, hb, hiff⟩ := @segmentation ⟨false, 10⟩ waiting hwaiting
    "HTTP/1.1 200 OK\r\nTransfer-Encoding: chunked\r\n\r\n5\r\nhe".toList
      ["llo\r\n0\r\n\r\n".toList]
    (by decide) (by decide) (by decide) (fun _ _ => by decide)
  exact ⟨a, b, ha, hb, hiff.mpr ⟨rfl, trivial⟩⟩

/-- A response that is cut behind its status line: what there is of the response is refused. -/
theorem segmentation_status_line :
    ∃ a b, readPieces ⟨false, 10⟩ ["HTTP/1.1 200 OK".toList, "\r\nContent-Length: 0\r\n\r\n".toList]
        waiting = .ok a ∧
      readPieces ⟨false, 10⟩ [["HTTP/1.1 200 OK".toList,
        "\r\nContent-Length: 0\r\n\r\n".toList].flatten] waiting = .ok b ∧
      a.outcome.success = false ∧ b.outcome.success = true ∧ a.outcome ≠ b.outcome := by
  refine ⟨_, _, rfl, rfl, rfl, rfl, ?_⟩
  intro heq
  exact Bool.false_ne_true (congrArg Outcome.success heq)

end Weighttp
