import ReadingComment.Weighttp.Reader

/-!
# Chunked bodies

The parser and the reader in a chunked body: as long as the parser knows how many bytes
of the last read it has left, what it makes of them is what the reader makes of them.
-/

namespace Weighttp

open List

/-- What the reader knows of the response is what the client knows. -/
structure Agrees (a c : Client) : Prop where
  statusSuccess : c.statusSuccess = a.statusSuccess
  keepalive : c.keepalive = a.keepalive
  chunked : c.chunked = a.chunked
  contentLength : c.contentLength = a.contentLength
  headerSize : c.headerSize = a.headerSize

/-- How a client waits for more bytes, in the parts of a response in which it can. -/
def Awaits (r : Reader) (c : Client) : Prop :=
  match r.part with
  | .early bytes => c.parserState = .start ∧ c.chunked = false ∧ c.chunkSize = -1 ∧
      c.buffer = bytes ∧ bytes.length = r.seen ∧ bytes.length < 15
  | .line bytes => c.parserState = .header ∧ c.chunkSize = -1 ∧ Plain bytes ∧
      ∃ pre, c.buffer = pre ++ bytes ∧ c.parserOffset = pre.length ∧ 0 < pre.length ∧
        c.buffer.length = r.seen
  | .stuck => c.parserState = .header ∧ ∃ pre u v, c.buffer = pre ++ (u ++ '\x00' :: v) ∧
      Plain u ∧ c.parserOffset = pre.length ∧ c.buffer.length = r.seen
  | .body => c.parserState = .body ∧ c.chunked = false ∧ c.contentLength ≠ unknown ∧ c.buffer = []
  | .data left => c.parserState = .body ∧ c.chunked = true ∧ c.buffer = [] ∧ c.parserOffset = 0 ∧
      0 < left ∧ 0 ≤ c.chunkReceived ∧ c.chunkSize = c.chunkReceived + left ∧ c.chunkSize < 2 ^ 31
  | .between => c.parserState = .body ∧ c.chunked = true ∧ c.buffer = [] ∧ c.parserOffset = 0 ∧
      c.chunkSize = -1
  | .endless => c.parserState = .body ∧ c.chunked = true ∧ c.buffer = [] ∧ c.parserOffset = 0 ∧
      2 ^ 31 ≤ c.chunkSize ∧ c.chunkReceived ≤ r.seen
  | _ => False

/-- What the parser makes of a read: the client, and whether it could be parsed. -/
def Meets (r : Reader) (c : Client) (ok : Bool) : Prop :=
  Agrees r.conn.client c ∧
  match r.verdict with
  | .more => ok = true ∧ c.state = .reading ∧ c.success = false ∧ Awaits r c
  | .complete => ok = true ∧ c.state = .atEnd ∧ c.success = c.statusSuccess
  | .broken => ok = false ∧ c.state = .reading ∧ c.success = false

theorem Meets.broken {r : Reader} {c : Client} (ha : Agrees r.conn.client c)
    (hr : r.verdict = .broken) (hstate : c.state = .reading) (hsuccess : c.success = false) :
    Meets r c false := by
  refine ⟨ha, ?_⟩
  rw [hr]
  exact ⟨rfl, hstate, hsuccess⟩

/-- A client in a chunked body, with what it has left of the last read. -/
structure Chunking (c : Client) (pre rest : List Char) : Prop where
  state : c.state = .reading
  success : c.success = false
  parserState : c.parserState = .body
  chunked : c.chunked = true
  buffer : c.buffer = pre ++ rest
  offset : c.parserOffset = pre.length
  small : (pre ++ rest).length < bufferSize

def chunkStep (fuel : ℕ) (size : ℤ) (c : Client) : Except Fault (Client × Bool) := do
  let (c, consumed) := consume size c
  let (c, ok, rest) ← endChunk size consumed c
  match rest with
  | some size => parseChunks fuel size c
  | none => return (c, ok)

theorem parseChunks_data {fuel : ℕ} {size : ℤ} {c : Client} (h : c.chunkSize ≠ -1) :
    parseChunks (fuel + 1) size c = chunkStep fuel size c := by
  rw [parseChunks]
  simp only [if_neg h]
  rfl

theorem parseChunks_size {fuel : ℕ} {size : ℤ} {c : Client} (h : c.chunkSize = -1) :
    parseChunks (fuel + 1) size c =
      match sizeLine size c with
      | none => .ok (c, false)
      | some (c, n) =>
        if c.chunkSize = 0 then .ok (c.completed, true)
        else chunkStep fuel (size - n) { c with parserOffset := c.parserOffset + n } := by
  rw [parseChunks]
  simp only [if_pos h]
  rfl

theorem bmod_small {x : ℤ} (h0 : 0 ≤ x) (h : x < 2 ^ 31) : x.bmod (2 ^ 32) = x := by
  apply Int.bmod_eq_of_le
  · omega
  · omega

theorem emod_offset {x : ℤ} {n : ℕ} (hx : x = n) (h : n < bufferSize) :
    (x % 2 ^ 32).toNat = n := by
  have hlt : (n : ℤ) < 2 ^ 32 := by
    rw [bufferSize] at h
    omega
  rw [hx, Int.emod_eq_of_lt (Int.natCast_nonneg n) hlt, Int.toNat_natCast]

theorem charAt_append (pre s : List Char) (i : ℕ) :
    charAt (pre ++ s) (pre.length + i) = charAt s i := by
  rw [charAt, charAt, getD_eq_getElem?_getD, getD_eq_getElem?_getD,
    getElem?_append_right (Nat.le_add_right _ _), Nat.add_sub_cancel_left]

variable {cfg : Config} {r : Reader} {c : Client} {pre rest : List Char} {left : ℕ}

def Client.within (c : Client) (n : ℤ) : Client :=
  { c with chunkReceived := c.chunkReceived + n, parserOffset := 0, buffer := [] }

theorem chunkStep_part (hsize : c.chunkSize = c.chunkReceived + left)
    (h0 : 0 ≤ c.chunkReceived) (hbig : c.chunkSize < 2 ^ 31) {size : ℕ} (hlt : size < left)
    (fuel : ℕ) : chunkStep fuel size c = .ok (c.within size, true) := by
  have hmax : (c.chunkSize - c.chunkReceived).bmod (2 ^ 32) = left := by
    rw [hsize, add_sub_cancel_left]
    apply bmod_small
    · omega
    · omega
  have hif : (size : ℤ) < left := Int.ofNat_lt.mpr hlt
  have hne : ¬ c.chunkReceived + (size : ℤ) = c.chunkSize := by omega
  simp only [chunkStep, consume, hmax, if_pos hif, endChunk, if_neg hne]
  rfl

theorem chunkStep_endless (hbig : 2 ^ 31 ≤ c.chunkSize) {size : ℕ}
    (hsmall : c.chunkReceived + size < 2 ^ 31) (fuel : ℕ) :
    ∃ n ≤ (size : ℤ), chunkStep fuel size c = .ok (c.within n, true) := by
  obtain ⟨n, hn⟩ : ∃ n, n = if (size : ℤ) < (c.chunkSize - c.chunkReceived).bmod (2 ^ 32) then
    (size : ℤ) else (c.chunkSize - c.chunkReceived).bmod (2 ^ 32) := ⟨_, rfl⟩
  have hle : n ≤ size := by
    rw [hn]
    split <;> omega
  refine ⟨n, hle, ?_⟩
  have hne : ¬ c.chunkReceived + n = c.chunkSize := by omega
  simp only [chunkStep, consume, ← hn, endChunk, if_neg hne]
  rfl

theorem chunkStep_end (h : Chunking c pre rest) (hsize : c.chunkSize = c.chunkReceived + left)
    (h0 : 0 ≤ c.chunkReceived) (hbig : c.chunkSize < 2 ^ 31) {x y : List Char}
    (hrest : rest = x ++ y) (hx : x.length = left) (fuel : ℕ) :
    chunkStep fuel rest.length c =
      if charAt y 0 ≠ '\r' ∨ charAt y 1 ≠ '\n' then
        .ok ({ c with chunkReceived := c.chunkSize, parserOffset := (pre ++ x).length }, false)
      else if 2 < y.length then
        parseChunks fuel (y.length - 2 : ℕ) { c with
          chunkSize := -1, chunkReceived := 0, parserOffset := (pre ++ x).length + 2 }
      else .ok ({ c with chunkSize := -1, chunkReceived := 0, parserOffset := 0, buffer := [] },
        true) := by
  have hlen : rest.length = left + y.length := by rw [hrest, length_append, hx]
  have hmax : (c.chunkSize - c.chunkReceived).bmod (2 ^ 32) = left := by
    rw [hsize, add_sub_cancel_left]
    apply bmod_small
    · omega
    · omega
  have hif : ¬ (rest.length : ℤ) < left := by omega
  have hdone : c.chunkReceived + (left : ℤ) = c.chunkSize := hsize.symm
  have hbuf : c.buffer = (pre ++ x) ++ y := by rw [h.buffer, hrest, append_assoc]
  have hin : (pre ++ x).length < bufferSize := by
    have hsmall := h.small
    rw [length_append, hlen] at hsmall
    rw [length_append, hx]
    omega
  have hoff : (((c.parserOffset : ℤ) + left) % 2 ^ 32).toNat = (pre ++ x).length := by
    apply emod_offset _ hin
    rw [h.offset, length_append, hx]
    rfl
  have hat0 : charAt c.buffer (pre ++ x).length = charAt y 0 := by
    rw [hbuf]
    exact charAt_append _ _ 0
  have hat1 : charAt c.buffer ((pre ++ x).length + 1) = charAt y 1 := by
    rw [hbuf]
    exact charAt_append _ _ 1
  simp only [chunkStep, consume, hmax, if_neg hif, hdone, hoff, endChunk, if_true,
    if_neg (Nat.not_le.mpr hin), hat0, hat1]
  split
  · rfl
  · have hcast : (rest.length : ℤ) - (left + 2) = (y.length : ℤ) - 2 := by omega
    rw [hcast]
    rcases Nat.lt_or_ge 2 y.length with hlt | hge
    · have hnat : (y.length : ℤ) - 2 = ((y.length - 2 : ℕ) : ℤ) := by omega
      have hpos : 0 < ((y.length - 2 : ℕ) : ℤ) := by omega
      rw [hnat]
      simp only [if_pos hpos, if_pos hlt]
      rfl
    · have hpos : ¬ 0 < (y.length : ℤ) - 2 := by omega
      simp only [if_neg hpos, if_neg (Nat.not_lt.mpr hge)]
      rfl

/-! ## The loop over chunks -/

/-- What is to be shown of the loop at the digits of a chunk size. -/
def SizeSpec (cfg : Config) (fuel : ℕ) : Prop :=
  ∀ {c : Client} {pre rest : List Char} {conn : Conn} (n : ℕ), Chunking c pre rest →
    c.chunkSize = -1 → Agrees conn.client c → rest.length < fuel →
    n + rest.length < bufferSize →
    (Reader.read cfg ⟨conn, .size 0, n⟩ rest).part ≠ .negative →
    ∃ c' ok, parseChunks fuel rest.length c = .ok (c', ok) ∧
      Meets (Reader.read cfg ⟨conn, .size 0, n⟩ rest) c' ok

variable {conn : Conn} {n : ℕ}

theorem sizeByte_between (b : Char) (s : List Char) :
    Reader.read cfg ⟨conn, .between, n⟩ (b :: s) = Reader.read cfg ⟨conn, .size 0, n⟩ (b :: s) :=
  rfl

theorem dataEnd_cases (y : List Char) (n : ℕ) :
    (∃ z, y = '\r' :: '\n' :: z ∧ Reader.read cfg ⟨conn, .dataEnd false, n⟩ y =
      Reader.read cfg ⟨conn, .between, n + 2⟩ z) ∨
    ((charAt y 0 ≠ '\r' ∨ charAt y 1 ≠ '\n') ∧ ∃ q k,
      Reader.read cfg ⟨conn, .dataEnd false, n⟩ y = ⟨conn, q, k⟩ ∧
        (⟨conn, q, k⟩ : Reader).verdict = .broken) := by
  have hfinal : ∀ s k, Reader.read cfg ⟨conn, .broken, k⟩ s = ⟨conn, .broken, k + s.length⟩ :=
    fun s k => Reader.read_final (.inr (.inr (.inr (.inr (.inr rfl))))) s k
  cases y with
  | nil => exact .inr ⟨.inl nofun, _, _, rfl, rfl⟩
  | cons b y =>
    rcases eq_or_ne b '\r' with rfl | hb
    · cases y with
      | nil => exact .inr ⟨.inr nofun, _, _, rfl, rfl⟩
      | cons b' z =>
        rcases eq_or_ne b' '\n' with rfl | hb'
        · exact .inl ⟨z, rfl, rfl⟩
        · refine .inr ⟨.inr hb', .broken, n + 2 + z.length, ?_, rfl⟩
          have hstep :
              Reader.step cfg ⟨conn, .dataEnd true, n + 1⟩ b' = ⟨conn, .broken, n + 2⟩ := by
            simp only [Reader.step, Reader.stepLater, Part.next, if_neg hb']
          rw [Reader.read_cons, Reader.read_cons]
          show Reader.read cfg (Reader.step cfg ⟨conn, .dataEnd true, n + 1⟩ b') z = _
          rw [hstep, hfinal]
    · refine .inr ⟨.inl hb, .broken, n + 1 + y.length, ?_, rfl⟩
      have hstep : Reader.step cfg ⟨conn, .dataEnd false, n⟩ b = ⟨conn, .broken, n + 1⟩ := by
        simp only [Reader.step, Reader.stepLater, Part.next, if_neg hb]
      rw [Reader.read_cons, hstep, hfinal]

theorem chunkStep_data {fuel : ℕ} (ih : SizeSpec cfg fuel) (h : Chunking c pre rest)
    (ha : Agrees conn.client c) (hpos : 0 < left) (hsize : c.chunkSize = c.chunkReceived + left)
    (h0 : 0 ≤ c.chunkReceived) (hbig : c.chunkSize < 2 ^ 31) (hfuel : rest.length ≤ fuel)
    (hn : n + rest.length < bufferSize)
    (hneg : (Reader.read cfg ⟨conn, .data left, n⟩ rest).part ≠ .negative) :
    ∃ c' ok, chunkStep fuel rest.length c = .ok (c', ok) ∧
      Meets (Reader.read cfg ⟨conn, .data left, n⟩ rest) c' ok := by
  rcases Nat.lt_or_ge rest.length left with hlt | hge
  · -- the chunk goes on
    refine ⟨_, true, chunkStep_part hsize h0 hbig hlt fuel, ?_⟩
    rw [Reader.read_data (Nat.le_of_lt hlt) hpos, if_neg (Nat.ne_of_lt hlt)]
    refine ⟨⟨ha.1, ha.2, ha.3, ha.4, ha.5⟩, rfl, h.state, h.success, h.parserState, h.chunked, rfl,
      rfl, by omega, ?_, ?_, hbig⟩
    · show 0 ≤ c.chunkReceived + (rest.length : ℤ)
      omega
    · show c.chunkSize = c.chunkReceived + (rest.length : ℤ) + ((left - rest.length : ℕ) : ℤ)
      omega
  · obtain ⟨x, y, rfl, hx⟩ : ∃ x y, rest = x ++ y ∧ x.length = left :=
      ⟨rest.take left, rest.drop left, (take_append_drop left rest).symm, by
        rw [length_take]
        omega⟩
    have hread : Reader.read cfg ⟨conn, .data left, n⟩ (x ++ y) =
        Reader.read cfg ⟨conn, .dataEnd false, n + x.length⟩ y := by
      rw [Reader.read_append, Reader.read_data (Nat.le_of_eq hx) hpos, if_pos hx]
    rw [hread] at hneg ⊢
    rw [chunkStep_end h hsize h0 hbig rfl hx]
    rcases @dataEnd_cases cfg conn y (n + x.length) with
      ⟨z, rfl, hz⟩ | ⟨hnot, q, k, hq, hverdict⟩
    · rw [hz] at hneg ⊢
      have hcrlf : ¬ (charAt ('\r' :: '\n' :: z) 0 ≠ '\r' ∨
          charAt ('\r' :: '\n' :: z) 1 ≠ '\n') := by
        rintro (hcr | hlf)
        · exact hcr rfl
        · exact hlf rfl
      rw [if_neg hcrlf]
      cases z with
      | nil =>
        -- the next chunk is not there yet
        refine ⟨_, true, rfl, ⟨ha.1, ha.2, ha.3, ha.4, ha.5⟩, rfl, h.state, h.success,
          h.parserState, h.chunked, rfl, rfl, rfl⟩
      | cons b z =>
        have hlong : 2 < ('\r' :: '\n' :: b :: z).length := by
          simp only [length_cons]
          omega
        rw [if_pos hlong]
        rw [sizeByte_between] at hneg ⊢
        have hlen : ((x ++ '\r' :: '\n' :: b :: z).length) = x.length + 2 + (b :: z).length := by
          simp only [length_append, length_cons]
          omega
        have hpre : c.buffer = (pre ++ (x ++ ['\r', '\n'])) ++ (b :: z) := by
          rw [h.buffer]
          simp only [append_assoc, cons_append, nil_append]
        have hchunk : Chunking { c with
            chunkSize := -1, chunkReceived := 0, parserOffset := (pre ++ x).length + 2 }
            (pre ++ (x ++ ['\r', '\n'])) (b :: z) := by
          refine ⟨h.state, h.success, h.parserState, h.chunked, hpre, ?_, ?_⟩
          · simp only [length_append, length_cons, length_nil]
            omega
          · rw [← hpre, h.buffer]
            exact h.small
        exact ih _ hchunk rfl ⟨ha.1, ha.2, ha.3, ha.4, ha.5⟩ (by omega) (by omega) hneg
    · rw [if_pos hnot, hq]
      exact ⟨_, false, rfl, .broken ⟨ha.1, ha.2, ha.3, ha.4, ha.5⟩ hverdict h.state h.success⟩

theorem chunkStep_large (h : Chunking c pre rest) (ha : Agrees conn.client c)
    (hbig : 2 ^ 31 ≤ c.chunkSize) (hrec : c.chunkReceived ≤ n) (hn : n + rest.length < bufferSize)
    (fuel : ℕ) :
    ∃ c' ok, chunkStep fuel rest.length c = .ok (c', ok) ∧
      Meets (Reader.read cfg ⟨conn, .endless, n⟩ rest) c' ok := by
  have hsmall : c.chunkReceived + (rest.length : ℤ) < 2 ^ 31 := by
    rw [bufferSize] at hn
    omega
  obtain ⟨k, hk, hstep⟩ := chunkStep_endless hbig hsmall fuel
  refine ⟨_, true, hstep, ?_⟩
  rw [Reader.read_final (.inr (.inr (.inl rfl)))]
  refine ⟨⟨ha.1, ha.2, ha.3, ha.4, ha.5⟩, rfl, h.state, h.success, h.parserState, h.chunked, rfl,
    rfl, hbig, ?_⟩
  show c.chunkReceived + k ≤ ((n + rest.length : ℕ) : ℤ)
  omega

theorem read_size_end {b : Char} (hb : b = ';' ∨ b = '\r') (v : ℤ) (t : List Char) (n : ℕ) :
    Reader.read cfg ⟨conn, .size v, n⟩ (b :: t) =
      Reader.read cfg ⟨conn, .sizeEnd v false, n⟩ (b :: t) := by
  rcases hb with rfl | rfl <;> rfl

theorem chunk_of_size {fuel k : ℕ} (ih : SizeSpec cfg fuel) {t : List Char} {v : ℤ}
    (h : Chunking { c with parserOffset := c.parserOffset + k } pre t) (hv : c.chunkSize = v)
    (hrec : c.chunkReceived = 0) (ha : Agrees conn.client c)
    (hfuel : t.length ≤ fuel) (hn : n + t.length < bufferSize)
    (hneg : (Reader.read cfg ⟨conn, chunkOf v, n⟩ t).part ≠ .negative) :
    ∃ c' ok, (if c.chunkSize = 0 then .ok (c.completed, true)
      else chunkStep fuel t.length { c with parserOffset := c.parserOffset + k }) = .ok (c', ok) ∧
      Meets (Reader.read cfg ⟨conn, chunkOf v, n⟩ t) c' ok := by
  have ha' : Agrees conn.client { c with parserOffset := c.parserOffset + k } :=
    ⟨ha.1, ha.2, ha.3, ha.4, ha.5⟩
  subst hv
  rw [chunkOf] at hneg ⊢
  split at hneg
  · rename_i hzero
    rw [if_pos hzero, if_pos hzero]
    refine ⟨_, true, rfl, ?_⟩
    rw [Reader.read_final (.inr (.inr (.inr (.inr (.inl rfl)))))]
    exact ⟨⟨ha.1, ha.2, ha.3, ha.4, ha.5⟩, rfl, rfl, rfl⟩
  · rename_i hzero
    rw [if_neg hzero, if_neg hzero]
    split at hneg
    · rw [Reader.read_final (.inr (.inr (.inr (.inl rfl))))] at hneg
      exact absurd rfl hneg
    · rename_i hnonneg
      rw [if_neg hnonneg]
      split at hneg
      · rename_i hsmall
        rw [if_pos hsmall]
        refine chunkStep_data ih h ha' (by omega) ?_ (Int.le_of_eq hrec.symm) hsmall hfuel hn hneg
        show c.chunkSize = c.chunkReceived + (c.chunkSize.toNat : ℤ)
        omega
      · rename_i hlarge
        rw [if_neg hlarge]
        refine chunkStep_large h ha' ?_ ?_ hn fuel
        · show 2 ^ 31 ≤ c.chunkSize
          omega
        · show c.chunkReceived ≤ (n : ℤ)
          omega

/-- **The loop over chunks.** -/
theorem sizeSpec (cfg : Config) (fuel : ℕ) : SizeSpec cfg fuel := by
  induction fuel with
  | zero =>
    intro c pre rest conn n _ _ _ hfuel
    exact absurd hfuel (Nat.not_lt_zero _)
  | succ fuel ih =>
    intro c pre rest conn n h hsize ha hfuel hn hneg
    have hstr : c.buffer.drop c.parserOffset = rest := by
      rw [h.buffer, h.offset]
      exact drop_left
    have hbroken : ∀ {q : Part} {k : ℕ}, (⟨conn, q, k⟩ : Reader).verdict = .broken →
        Meets ⟨conn, q, k⟩ c false := fun hq => .broken ha hq h.state h.success
    rw [parseChunks_size hsize]
    rcases @Reader.readSize_cases cfg conn rest 0 n with ⟨w, hw, hr⟩ |
      ⟨u, b, t, w, rfl, hb, hw, hr⟩ | ⟨hw, hr⟩
    · -- the read ends in the digits
      refine ⟨c, false, ?_, ?_⟩
      · simp only [sizeLine, hstr, Int.toNat_natCast, hw, drop_length, strCrLf]
      · rw [hr]
        exact hbroken rfl
    · have hdrop : (u ++ b :: t).drop u.length = b :: t := drop_left
      rw [Reader.read_append, hr, read_size_end hb] at hneg ⊢
      rcases @Reader.strCrLf_cases cfg conn (b :: t) w false (n + u.length) (by rintro ⟨⟩) with
        ⟨u', t', hut, hstr', hr'⟩ | ⟨hnone, hr'⟩
      · have hline : sizeLine ((u ++ b :: t).length : ℤ) c =
            some ({ c with chunkSize := w, chunkReceived := 0 }, u.length + u'.length + 2) := by
          simp only [sizeLine, hstr, Int.toNat_natCast, hw, hdrop, hstr']
        have hread : Reader.read cfg ⟨conn, .sizeEnd w false, n + u.length⟩ (b :: t) =
            Reader.read cfg ⟨conn, chunkOf w, n + u.length + (u'.length + 2)⟩ t' := by
          have hsplit : b :: t = (u' ++ ['\r', '\n']) ++ t' := by
            rw [hut, append_assoc]
            rfl
          rw [hsplit, Reader.read_append, hr']
        have hlen : (u ++ b :: t).length = u.length + u'.length + 2 + t'.length := by
          rw [length_append, hut, length_append]
          simp only [length_cons]
          omega
        have hbuf : c.buffer = (pre ++ (u ++ (u' ++ ['\r', '\n']))) ++ t' := by
          rw [h.buffer, hut]
          simp only [append_assoc, cons_append, nil_append]
        rw [hread] at hneg ⊢
        simp only [hline]
        have hcast : ((u ++ b :: t).length : ℤ) - ((u.length + u'.length + 2 : ℕ) : ℤ) =
            (t'.length : ℤ) := by omega
        rw [hcast]
        have hchunk : Chunking { c with
            chunkSize := w, chunkReceived := 0
            parserOffset := c.parserOffset + (u.length + u'.length + 2) }
            (pre ++ (u ++ (u' ++ ['\r', '\n']))) t' := by
          refine ⟨h.state, h.success, h.parserState, h.chunked, hbuf, ?_, ?_⟩
          · simp only [h.offset, length_append, length_cons, length_nil]
            omega
          · rw [← hbuf, h.buffer]
            exact h.small
        exact chunk_of_size (c := { c with chunkSize := w, chunkReceived := 0 }) ih hchunk rfl rfl
          ⟨ha.1, ha.2, ha.3, ha.4, ha.5⟩ (by omega) (by omega) hneg
      · refine ⟨c, false, ?_, ?_⟩
        · simp only [sizeLine, hstr, Int.toNat_natCast, hw, hdrop, hnone]
        · rcases hr' with ⟨cr', hr'⟩ | hr' <;> rw [hr'] <;> exact hbroken rfl
    · refine ⟨c, false, ?_, ?_⟩
      · simp only [sizeLine, hstr, Int.toNat_natCast, hw]
      · rw [hr]
        exact hbroken rfl

end Weighttp
