import Mathlib.Data.List.Basic
import ReadingComment.Weighttp.Client

/-!
# Responses byte by byte

What `client_parse` is meant to do, said without a buffer: a reader takes the bytes of
a response one at a time and knows in each moment in which part of the response it
is. `Reader.read` of a response does not depend on how it was cut into pieces; at the end
of a piece `Reader.verdict` says what the parser makes of the bytes so far, since
`client_parse` takes what it has for a broken response at some places where more bytes
would do: in the status line, between CR and LF, and in and around chunk sizes.
-/

namespace Weighttp

open List

/-- The parts of a response. -/
inductive Part where
  /-- the first bytes, fewer than the parser waits for -/
  | early (bytes : List Char)
  /-- the status line behind the status code; the last byte was a CR or not -/
  | status (cr : Bool)
  /-- a header line with the bytes that it has so far -/
  | line (bytes : List Char)
  /-- the CR of a header line -/
  | lineCr (bytes : List Char)
  /-- behind a NUL in the header -/
  | stuck
  /-- a body that is not chunked -/
  | body
  /-- the digits of a chunk size -/
  | size (v : ℤ)
  /-- the rest of the line with a chunk size; the last byte was a CR or not -/
  | sizeEnd (v : ℤ) (cr : Bool)
  /-- a chunk of which so many bytes are missing -/
  | data (left : ℕ)
  /-- the line end behind a chunk -/
  | dataEnd (cr : Bool)
  /-- behind that -/
  | between
  /-- a chunk that is too large for an `int` -/
  | endless
  /-- a chunk with a negative size -/
  | negative
  | complete
  | broken
  deriving DecidableEq

/-- The part after a size line with this value. -/
def chunkOf (v : ℤ) : Part :=
  if v = 0 then .complete
  else if v < 0 then .negative
  else if v < 2 ^ 31 then .data v.toNat
  else .endless

def sizeByte (v : ℤ) (b : Char) : Part :=
  if b = ';' then .sizeEnd v false
  else if b = '\r' then .sizeEnd v true
  else
    match sizeDigit b with
    | none => .broken
    | some d => .size ((v * 16 + d).bmod (2 ^ 64))

/-- The part after one more byte. The first bytes and the end of header lines are not treated
here. -/
def Part.next (b : Char) : Part → Part
  | .status false =>
    if b = '\r' then .status true else if b = '\x00' then .broken else .status false
  | .status true => if b = '\n' then .line [] else .broken
  | .line bytes =>
    if b = '\r' then .lineCr bytes else if b = '\x00' then .stuck else .line (bytes ++ [b])
  | .size v => sizeByte v b
  | .sizeEnd v cr =>
    if cr = true ∧ b = '\n' then chunkOf v
    else if b = '\x00' then .broken
    else .sizeEnd v (b = '\r')
  | .data left => if left ≤ 1 then .dataEnd false else .data (left - 1)
  | .dataEnd false => if b = '\r' then .dataEnd true else .broken
  | .dataEnd true => if b = '\n' then .between else .broken
  | .between => sizeByte 0 b
  | p => p

/-- A reader: what is known of the response and counted for it, the part, and how many bytes were
read. -/
structure Reader where
  conn : Conn
  part : Part
  seen : ℕ

namespace Reader

/-- The empty line has ended the header. -/
def startBody (r : Reader) : Reader :=
  let client := { r.conn.client with headerSize := r.seen }
  { r with
    conn := { r.conn with client := client }
    part := if client.chunked then .size 0
      else if client.contentLength = unknown then .broken else .body }

/-- A line of the header ends. -/
def endLine (cfg : Config) (r : Reader) (bytes : List Char) : Reader :=
  if bytes = [] then r.startBody
  else
    match headerLine cfg bytes r.conn.client with
    | none => { r with part := .broken }
    | some client => { r with conn := { r.conn with client := client }, part := .line [] }

def stepLater (cfg : Config) (r : Reader) (b : Char) : Reader :=
  let r' := { r with seen := r.seen + 1 }
  match r.part with
  | .lineCr bytes => if b = '\n' then endLine cfg r' bytes else { r' with part := .broken }
  | p => { r' with part := p.next b }

def startStatus (cfg : Config) (r : Reader) (bytes : List Char) : Reader :=
  if bytes.take 9 ≠ "HTTP/1.1 ".toList then ⟨r.conn, .broken, bytes.length⟩
  else
    match (statusCode ((bytes.drop 9).take 3) 0).bind (countStatus · r.conn) with
    | none => ⟨r.conn, .broken, bytes.length⟩
    | some conn => (bytes.drop 12).foldl (stepLater cfg) ⟨conn, .status false, 12⟩

/-- What a byte does. -/
def step (cfg : Config) (r : Reader) (b : Char) : Reader :=
  match r.part with
  | .early bytes =>
    if bytes.length + 1 < 15 then { r with part := .early (bytes ++ [b]), seen := r.seen + 1 }
    else r.startStatus cfg (bytes ++ [b])
  | _ => r.stepLater cfg b

/-- What some bytes do. -/
def read (cfg : Config) (r : Reader) (bytes : List Char) : Reader := bytes.foldl (step cfg) r

end Reader

/-- What the parser makes of the bytes so far. -/
inductive Verdict where
  /-- more bytes are expected -/
  | more
  | complete
  | broken
  deriving DecidableEq, Repr

/-- What `client_parse` and its caller do with the response. -/
def Reader.verdict (r : Reader) : Verdict :=
  match r.part with
  | .early _ => .more
  | .line _ => .more
  | .stuck => .more
  | .body =>
    if r.seen = (r.conn.client.headerSize + r.conn.client.contentLength) % 2 ^ 64 then .complete
    else .more
  | .data _ => .more
  | .between => .more
  | .endless => .more
  | .complete => .complete
  | _ => .broken

/-! ## Reading stretches of bytes -/

def Plain (s : List Char) : Prop := ∀ c ∈ s, c ≠ '\r' ∧ c ≠ '\x00'

theorem Plain.nil : Plain [] := nofun

theorem Plain.cons {c : Char} {s : List Char} (hc : c ≠ '\r' ∧ c ≠ '\x00') (hs : Plain s) :
    Plain (c :: s) := by
  intro d hd
  rcases mem_cons.mp hd with rfl | hd
  · exact hc
  · exact hs d hd

theorem strchr_cases (s : List Char) :
    (Plain s ∧ strchr '\r' s = none) ∨
    (∃ u v, s = u ++ '\x00' :: v ∧ Plain u ∧ strchr '\r' s = none) ∨
    (∃ u v, s = u ++ '\r' :: v ∧ Plain u ∧ strchr '\r' s = some u.length) := by
  induction s with
  | nil => exact .inl ⟨Plain.nil, rfl⟩
  | cons c s ih =>
    rcases eq_or_ne c '\r' with rfl | hcr
    · exact .inr (.inr ⟨[], s, rfl, Plain.nil, rfl⟩)
    · rcases eq_or_ne c '\x00' with rfl | hnul
      · exact .inr (.inl ⟨[], s, rfl, Plain.nil, rfl⟩)
      · have hstep : strchr '\r' (c :: s) = (strchr '\r' s).map (· + 1) := by
          rw [strchr, if_neg hcr, if_neg hnul]
        rw [hstep]
        rcases ih with ⟨hs, hnone⟩ | ⟨u, v, rfl, hu, hnone⟩ | ⟨u, v, rfl, hu, hsome⟩
        · exact .inl ⟨hs.cons ⟨hcr, hnul⟩, congrArg _ hnone⟩
        · exact .inr (.inl ⟨c :: u, v, rfl, hu.cons ⟨hcr, hnul⟩, congrArg _ hnone⟩)
        · exact .inr (.inr ⟨c :: u, v, rfl, hu.cons ⟨hcr, hnul⟩, congrArg _ hsome⟩)

namespace Reader

variable {cfg : Config} {conn : Conn} {n : ℕ}

theorem read_append (r : Reader) (s t : List Char) :
    r.read cfg (s ++ t) = (r.read cfg s).read cfg t := foldl_append

theorem read_cons (r : Reader) (b : Char) (s : List Char) :
    r.read cfg (b :: s) = (r.step cfg b).read cfg s := rfl

theorem read_status {u : List Char} (hu : Plain u) (n : ℕ) :
    Reader.read cfg ⟨conn, .status false, n⟩ u = ⟨conn, .status false, n + u.length⟩ := by
  induction u generalizing n with
  | nil => rfl
  | cons c u ih =>
    obtain ⟨hcr, hnul⟩ := hu c (mem_cons_self ..)
    have hstep : Reader.step cfg ⟨conn, .status false, n⟩ c = ⟨conn, .status false, n + 1⟩ := by
      simp only [step, stepLater, Part.next, if_neg hcr, if_neg hnul]
    rw [read_cons, hstep, ih (fun d hd => hu d (mem_cons_of_mem _ hd)), length_cons,
      Nat.add_assoc, Nat.add_comm 1]

theorem read_line {u : List Char} (hu : Plain u) (bytes : List Char) (n : ℕ) :
    Reader.read cfg ⟨conn, .line bytes, n⟩ u = ⟨conn, .line (bytes ++ u), n + u.length⟩ := by
  induction u generalizing bytes n with
  | nil =>
    rw [append_nil]
    rfl
  | cons c u ih =>
    obtain ⟨hcr, hnul⟩ := hu c (mem_cons_self ..)
    have hstep :
        Reader.step cfg ⟨conn, .line bytes, n⟩ c = ⟨conn, .line (bytes ++ [c]), n + 1⟩ := by
      simp only [step, stepLater, Part.next, if_neg hcr, if_neg hnul]
    rw [read_cons, hstep, ih (fun d hd => hu d (mem_cons_of_mem _ hd)), length_cons,
      Nat.add_assoc, Nat.add_comm 1, append_assoc, singleton_append]

/-- Nothing that comes is looked at any more. -/
def Part.Final (p : Part) : Prop :=
  p = .stuck ∨ p = .body ∨ p = .endless ∨ p = .negative ∨ p = .complete ∨ p = .broken

theorem read_final {p : Part} (hp : Part.Final p) (s : List Char) (n : ℕ) :
    Reader.read cfg ⟨conn, p, n⟩ s = ⟨conn, p, n + s.length⟩ := by
  induction s generalizing n with
  | nil => rfl
  | cons c s ih =>
    have hstep : Reader.step cfg ⟨conn, p, n⟩ c = ⟨conn, p, n + 1⟩ := by
      rcases hp with rfl | rfl | rfl | rfl | rfl | rfl <;> rfl
    rw [read_cons, hstep, ih, length_cons, Nat.add_assoc, Nat.add_comm 1]

theorem read_data {s : List Char} {left : ℕ} (hs : s.length ≤ left) (hpos : 0 < left) (n : ℕ) :
    Reader.read cfg ⟨conn, .data left, n⟩ s =
      ⟨conn, if s.length = left then .dataEnd false else .data (left - s.length),
        n + s.length⟩ := by
  induction s generalizing left n with
  | nil =>
    rw [length_nil, if_neg (Nat.ne_of_lt hpos)]
    rfl
  | cons c s ih =>
    rw [length_cons] at hs
    rw [read_cons, length_cons]
    rcases Nat.lt_or_ge 1 left with hlt | hge
    · have hstep : Reader.step cfg ⟨conn, .data left, n⟩ c = ⟨conn, .data (left - 1), n + 1⟩ := by
        simp only [step, stepLater, Part.next, if_neg (Nat.not_le.mpr hlt)]
      rw [hstep, ih (Nat.le_sub_one_of_lt hs) (Nat.sub_pos_of_lt hlt), Nat.add_assoc,
        Nat.add_comm 1, Nat.sub_sub, Nat.add_comm 1]
      have hiff : s.length = left - 1 ↔ s.length + 1 = left := by omega
      simp only [hiff]
    · -- the last byte
      obtain rfl : left = 1 := by omega
      obtain rfl : s = [] := eq_nil_of_length_eq_zero (by omega)
      rfl

theorem read_early {bytes s : List Char} (hs : bytes.length + s.length < 15) (n : ℕ) :
    Reader.read cfg ⟨conn, .early bytes, n⟩ s = ⟨conn, .early (bytes ++ s), n + s.length⟩ := by
  induction s generalizing bytes n with
  | nil =>
    rw [append_nil]
    rfl
  | cons c s ih =>
    rw [length_cons] at hs
    have hlt : bytes.length + 1 < 15 := by omega
    have hstep : Reader.step cfg ⟨conn, .early bytes, n⟩ c =
        ⟨conn, .early (bytes ++ [c]), n + 1⟩ := by
      simp only [step, if_pos hlt]
    have hlen : (bytes ++ [c]).length + s.length < 15 := by
      rw [length_append, length_singleton]
      omega
    rw [read_cons, hstep, ih hlen, length_cons, Nat.add_assoc, Nat.add_comm 1,
      append_assoc, singleton_append]

def Later (r : Reader) : Prop := ∀ bytes, r.part ≠ .early bytes

theorem step_of_later {r : Reader} (h : r.Later) (b : Char) : r.step cfg b = r.stepLater cfg b := by
  rw [step]
  split
  · rename_i bytes heq
    exact absurd heq (h bytes)
  · rfl

theorem chunkOf_ne_early (v : ℤ) (bytes : List Char) : chunkOf v ≠ .early bytes := by
  rw [chunkOf]
  repeat' split
  all_goals exact nofun

theorem sizeByte_ne_early (v : ℤ) (b : Char) (bytes : List Char) :
    sizeByte v b ≠ .early bytes := by
  rw [sizeByte]
  repeat' split
  all_goals exact nofun

theorem next_ne_early {p : Part} (hp : ∀ bytes, p ≠ .early bytes) (b : Char) (bytes : List Char) :
    p.next b ≠ .early bytes := by
  cases p with
  | early bytes' => exact absurd rfl (hp bytes')
  | size v => exact sizeByte_ne_early v b bytes
  | between => exact sizeByte_ne_early 0 b bytes
  | sizeEnd v cr =>
    rw [Part.next]
    split
    · exact chunkOf_ne_early v bytes
    · split
      · exact nofun
      · exact nofun
  | status cr | dataEnd cr =>
    cases cr <;> rw [Part.next] <;> repeat' split
    all_goals exact nofun
  | line acc | data left =>
    rw [Part.next]
    repeat' split
    all_goals exact nofun
  | _ => exact nofun

theorem endLine_later (r : Reader) (bytes : List Char) : (endLine cfg r bytes).Later := by
  intro acc
  rw [endLine]
  split
  · rw [startBody]
    simp only
    repeat' split
    all_goals exact nofun
  · split
    · exact nofun
    · exact nofun

theorem stepLater_later {r : Reader} (h : r.Later) (b : Char) : (r.stepLater cfg b).Later := by
  intro bytes
  rw [stepLater]
  simp only
  split
  · split
    · exact endLine_later _ _ bytes
    · exact nofun
  · exact next_ne_early h b bytes

theorem read_of_later {r : Reader} (h : r.Later) (s : List Char) :
    s.foldl (stepLater cfg) r = r.read cfg s := by
  induction s generalizing r with
  | nil => rfl
  | cons b s ih =>
    rw [read_cons, step_of_later h]
    exact ih (stepLater_later h b)

theorem read_start (conn : Conn) {buf : List Char} (hbuf : 15 ≤ buf.length) :
    Reader.read cfg ⟨conn, .early [], 0⟩ buf =
      if buf.take 9 ≠ "HTTP/1.1 ".toList then ⟨conn, .broken, buf.length⟩
      else
        match (statusCode ((buf.drop 9).take 3) 0).bind (countStatus · conn) with
        | none => ⟨conn, .broken, buf.length⟩
        | some conn' => Reader.read cfg ⟨conn', .status false, 12⟩ (buf.drop 12) := by
  -- the fifteenth byte makes the reader look at the status code
  obtain ⟨first, t, rfl, hfirst⟩ : ∃ first t, buf = first ++ t ∧ first.length = 15 :=
    ⟨buf.take 15, buf.drop 15, (take_append_drop 15 buf).symm, by
      rw [length_take]
      omega⟩
  obtain ⟨s, b, rfl⟩ : ∃ s b, first = s ++ [b] :=
    (eq_nil_or_concat' first).resolve_left (ne_nil_of_length_pos (by omega))
  have hs : s.length = 14 := by
    rw [length_append, length_singleton] at hfirst
    omega
  have htake : (s ++ [b] ++ t).take 9 = (s ++ [b]).take 9 :=
    take_append_of_le_length (by omega)
  have hdrop : (s ++ [b] ++ t).drop 9 = (s ++ [b]).drop 9 ++ t :=
    drop_append_of_le_length (by omega)
  have hdrop12 : (s ++ [b] ++ t).drop 12 = (s ++ [b]).drop 12 ++ t :=
    drop_append_of_le_length (by omega)
  have hcode : ((s ++ [b] ++ t).drop 9).take 3 = ((s ++ [b]).drop 9).take 3 := by
    rw [hdrop]
    apply take_append_of_le_length
    rw [length_drop]
    omega
  have hstep : Reader.step cfg ⟨conn, .early s, s.length⟩ b =
      Reader.startStatus cfg ⟨conn, .early s, s.length⟩ (s ++ [b]) := by
    have hnot : ¬ s.length + 1 < 15 := by omega
    simp only [step, if_neg hnot]
  rw [htake, hcode, hdrop12, append_assoc, read_append, read_early (by
    rw [length_nil]
    omega), nil_append, Nat.zero_add, read_append, read_cons, hstep, startStatus]
  have hlen : (s ++ ([b] ++ t)).length = (s ++ [b]).length + t.length := by
    rw [← append_assoc, length_append]
  have hbroken : Reader.read cfg ⟨conn, .broken, (s ++ [b]).length⟩ t =
      ⟨conn, .broken, (s ++ [b]).length + t.length⟩ :=
    read_final (.inr (.inr (.inr (.inr (.inr rfl))))) t _
  rw [hlen]
  rcases Classical.em ((s ++ [b]).take 9 = "HTTP/1.1 ".toList) with hhttp | hhttp
  · simp only [hhttp, ne_eq, not_true_eq_false, if_false]
    cases (statusCode (((s ++ [b]).drop 9).take 3) 0).bind (countStatus · conn) with
    | none => exact hbroken
    | some conn' =>
      have hlater : Reader.Later ⟨conn', .status false, 12⟩ := nofun
      simp only [read_of_later hlater, read_append]
      rfl
  · simp only [ne_eq, hhttp, not_false_eq_true, if_true]
    exact hbroken

/-! ## Chunk sizes -/

/-- The digits of a chunk size: they go on to the end, or to the end of the digits, or there is a
byte that is none. -/
theorem readSize_cases (s : List Char) (v : ℤ) (n : ℕ) :
    (∃ w, readSize s.length v s = some (w, s.length) ∧
      Reader.read cfg ⟨conn, .size v, n⟩ s = ⟨conn, .size w, n + s.length⟩) ∨
    (∃ u b t w, s = u ++ b :: t ∧ (b = ';' ∨ b = '\r') ∧
      readSize s.length v s = some (w, u.length) ∧
      Reader.read cfg ⟨conn, .size v, n⟩ u = ⟨conn, .size w, n + u.length⟩) ∨
    (readSize s.length v s = none ∧
      Reader.read cfg ⟨conn, .size v, n⟩ s = ⟨conn, .broken, n + s.length⟩) := by
  induction s generalizing v n with
  | nil => exact .inl ⟨v, rfl, rfl⟩
  | cons b s ih =>
    rcases Classical.em (b = ';' ∨ b = '\r') with hb | hb
    · refine .inr (.inl ⟨[], b, s, v, rfl, hb, ?_, rfl⟩)
      rw [length_cons, readSize, if_pos hb]
      rfl
    · obtain ⟨hsemi, hcr⟩ := not_or.mp hb
      cases hd : sizeDigit b with
      | none =>
        refine .inr (.inr ⟨?_, ?_⟩)
        · rw [length_cons, readSize, if_neg hb, hd]
        · have hstep : Reader.step cfg ⟨conn, .size v, n⟩ b = ⟨conn, .broken, n + 1⟩ := by
            simp only [step, stepLater, Part.next, sizeByte, if_neg hsemi, if_neg hcr, hd]
          rw [read_cons, hstep, read_final (.inr (.inr (.inr (.inr (.inr rfl))))), length_cons,
            Nat.add_assoc, Nat.add_comm 1]
      | some d =>
        have hstep : Reader.step cfg ⟨conn, .size v, n⟩ b =
            ⟨conn, .size ((v * 16 + d).bmod (2 ^ 64)), n + 1⟩ := by
          simp only [step, stepLater, Part.next, sizeByte, if_neg hsemi, if_neg hcr, hd]
        have hsize : readSize (b :: s).length v (b :: s) =
            (readSize s.length ((v * 16 + d).bmod (2 ^ 64)) s).map fun r => (r.1, r.2 + 1) := by
          rw [length_cons, readSize, if_neg hb, hd]
        have hlen : ∀ k, n + 1 + k = n + (k + 1) := fun k => by omega
        rcases ih ((v * 16 + d).bmod (2 ^ 64)) (n + 1) with ⟨w, hw, hr⟩ |
          ⟨u, b', t, w, rfl, hb', hw, hr⟩ | ⟨hw, hr⟩
        · refine .inl ⟨w, ?_, ?_⟩
          · rw [hsize, hw]
            rfl
          · rw [read_cons, hstep, hr, length_cons, hlen]
        · refine .inr (.inl ⟨b :: u, b', t, w, rfl, hb', ?_, ?_⟩)
          · rw [hsize, hw]
            rfl
          · rw [read_cons, hstep, hr, length_cons, hlen]
        · refine .inr (.inr ⟨?_, ?_⟩)
          · rw [hsize, hw]
            rfl
          · rw [read_cons, hstep, hr, length_cons, hlen]

theorem strCrLf_cases (s : List Char) (v : ℤ) (cr : Bool) (n : ℕ)
    (hcr : cr = true → s.head? ≠ some '\n') :
    (∃ u t, s = u ++ '\r' :: '\n' :: t ∧ strCrLf s = some u.length ∧
      Reader.read cfg ⟨conn, .sizeEnd v cr, n⟩ (u ++ ['\r', '\n']) =
        ⟨conn, chunkOf v, n + (u.length + 2)⟩) ∨
    (strCrLf s = none ∧
      ((∃ cr', Reader.read cfg ⟨conn, .sizeEnd v cr, n⟩ s = ⟨conn, .sizeEnd v cr', n + s.length⟩) ∨
        Reader.read cfg ⟨conn, .sizeEnd v cr, n⟩ s = ⟨conn, .broken, n + s.length⟩)) := by
  induction s generalizing cr n with
  | nil => exact .inr ⟨rfl, .inl ⟨cr, rfl⟩⟩
  | cons b s ih =>
    have hnot : ¬ (cr = true ∧ b = '\n') := by
      rintro ⟨hc, rfl⟩
      exact hcr hc rfl
    have hlen : ∀ k, n + 1 + k = n + (k + 1) := fun k => by omega
    rcases eq_or_ne b '\x00' with rfl | hnul
    · -- the string ends here
      have hstep : Reader.step cfg ⟨conn, .sizeEnd v cr, n⟩ '\x00' = ⟨conn, .broken, n + 1⟩ := by
        simp only [step, stepLater, Part.next, if_neg hnot, if_true]
      refine .inr ⟨?_, .inr ?_⟩
      · rw [strCrLf, if_neg (fun h => absurd h.1 nofun), if_pos rfl]
      · rw [read_cons, hstep, read_final (.inr (.inr (.inr (.inr (.inr rfl))))), length_cons, hlen]
    · have hstep : Reader.step cfg ⟨conn, .sizeEnd v cr, n⟩ b =
          ⟨conn, .sizeEnd v (b = '\r'), n + 1⟩ := by
        simp only [step, stepLater, Part.next, if_neg hnot, if_neg hnul]
      rcases Classical.em (b = '\r' ∧ s.head? = some '\n') with ⟨rfl, hlf⟩ | hfound
      · obtain ⟨t, rfl⟩ := head?_eq_some_iff.mp hlf
        refine .inl ⟨[], t, rfl, ?_, ?_⟩
        · rw [strCrLf, if_pos ⟨rfl, hlf⟩]
          rfl
        · rw [nil_append, read_cons, hstep]
          rfl
      · have hstr : strCrLf (b :: s) = (strCrLf s).map (· + 1) := by
          rw [strCrLf, if_neg hfound, if_neg hnul]
        have hcr' : decide (b = '\r') = true → s.head? ≠ some '\n' :=
          fun hb hlf => hfound ⟨of_decide_eq_true hb, hlf⟩
        rcases ih (decide (b = '\r')) (n + 1) hcr' with ⟨u, t, rfl, hu, hr⟩ | ⟨hnone, hr⟩
        · refine .inl ⟨b :: u, t, rfl, ?_, ?_⟩
          · rw [hstr, hu]
            rfl
          · rw [cons_append, read_cons, hstep, hr, hlen, length_cons, Nat.add_right_comm]
        · refine .inr ⟨?_, ?_⟩
          · rw [hstr, hnone]
            rfl
          · rw [read_cons, hstep, length_cons, ← hlen s.length]
            exact hr

/-! ## Behind the header -/

def Past : Part → Bool
  | .early _ => false
  | .status _ => false
  | .line _ => false
  | .lineCr _ => false
  | _ => true

theorem past_chunkOf (v : ℤ) : Past (chunkOf v) = true := by
  rw [chunkOf]
  repeat' split
  all_goals rfl

theorem past_sizeByte (v : ℤ) (b : Char) : Past (sizeByte v b) = true := by
  rw [sizeByte]
  repeat' split
  all_goals rfl

theorem past_next {p : Part} (h : Past p = true) (b : Char) : Past (p.next b) = true := by
  cases p with
  | size v => exact past_sizeByte v b
  | between => exact past_sizeByte 0 b
  | sizeEnd v cr =>
    rw [Part.next]
    split
    · exact past_chunkOf v
    · split <;> rfl
  | dataEnd cr =>
    cases cr <;> rw [Part.next] <;> split <;> rfl
  | data left =>
    rw [Part.next]
    split <;> rfl
  | early bytes => cases h
  | status cr => cases h
  | line bytes => cases h
  | lineCr bytes => cases h
  | _ => rfl

theorem step_past {r : Reader} (h : Past r.part = true) (b : Char) :
    (r.step cfg b).conn = r.conn ∧ Past (r.step cfg b).part = true := by
  obtain ⟨conn, p, n⟩ := r
  have hstep : Reader.step cfg ⟨conn, p, n⟩ b = ⟨conn, p.next b, n + 1⟩ := by
    cases p with
    | early bytes => cases h
    | lineCr bytes => cases h
    | _ => rfl
  rw [hstep]
  exact ⟨rfl, past_next h b⟩

theorem read_past {r : Reader} (h : Past r.part = true) (s : List Char) :
    (r.read cfg s).conn = r.conn ∧ Past (r.read cfg s).part = true := by
  induction s generalizing r with
  | nil => exact ⟨rfl, h⟩
  | cons b s ih =>
    obtain ⟨hconn, hpast⟩ := step_past h b
    obtain ⟨hconn', hpast'⟩ := ih hpast
    exact ⟨hconn'.trans hconn, hpast'⟩

def Sound (r : Reader) : Prop := r.conn.client.headerSize ≠ 0 → Past r.part = true

theorem countStatus_headerSize {code : ℕ} {c c' : Conn} (h : countStatus code c = some c') :
    c'.client.headerSize = c.client.headerSize := by
  rw [countStatus] at h
  repeat' split at h
  all_goals first
    | exact Option.some.inj h ▸ rfl
    | cases h

theorem headerLine_headerSize {line : List Char} {c c' : Client}
    (h : headerLine cfg line c = some c') : c'.headerSize = c.headerSize := by
  simp only [headerLine] at h
  repeat' split at h
  all_goals first
    | exact Option.some.inj h ▸ rfl
    | cases h

theorem sound_of_eq {r r' : Reader} (h : r.Sound) (hp : Past r.part = false)
    (heq : r'.conn.client.headerSize = r.conn.client.headerSize) : r'.Sound := by
  intro hne
  rw [heq] at hne
  rw [h hne] at hp
  cases hp

section

variable {r : Reader} (h : r.Sound)

include h

theorem endLine_sound (hp : Past r.part = false) (bytes : List Char) :
    (endLine cfg r bytes).Sound := by
  rw [endLine]
  split
  · intro _
    rw [startBody]
    simp only
    repeat' split
    all_goals rfl
  · split
    · exact sound_of_eq h hp rfl
    · rename_i c hc
      exact sound_of_eq h hp (headerLine_headerSize hc)

theorem stepLater_sound (b : Char) : (r.stepLater cfg b).Sound := by
  cases hp : Past r.part with
  | true =>
    have hlater : r.Later := by
      intro bytes heq
      rw [heq] at hp
      cases hp
    rw [← step_of_later hlater]
    exact fun _ => (step_past hp b).2
  | false =>
    rw [stepLater]
    simp only
    split
    · split
      · exact endLine_sound (r := { r with seen := r.seen + 1 }) h hp _
      · exact sound_of_eq h hp rfl
    · exact sound_of_eq h hp rfl

theorem foldl_sound (s : List Char) :
    (s.foldl (stepLater cfg) r).Sound := by
  induction s generalizing r with
  | nil => exact h
  | cons b s ih => exact ih (stepLater_sound h b)

theorem step_sound (b : Char) : (r.step cfg b).Sound := by
  rw [step]
  split
  · rename_i bytes heq
    have hp : Past r.part = false := by
      rw [heq]
      rfl
    split
    · exact sound_of_eq h hp rfl
    · rw [startStatus]
      split
      · exact sound_of_eq h hp rfl
      · split
        · exact sound_of_eq h hp rfl
        · rename_i c hc
          obtain ⟨code, -, hcount⟩ := Option.bind_eq_some_iff.mp hc
          exact foldl_sound (sound_of_eq h hp (countStatus_headerSize hcount)) _
  · exact stepLater_sound h b

theorem read_sound (s : List Char) : (r.read cfg s).Sound := by
  induction s generalizing r with
  | nil => exact h
  | cons b s ih => exact ih (step_sound h b)

theorem read_conn (hne : r.conn.client.headerSize ≠ 0) (s : List Char) :
    (r.read cfg s).conn = r.conn := (read_past (h hne) s).1

end

/-! ## What is counted while reading -/

variable {r : Reader}

theorem endLine_stats (r : Reader) (bytes : List Char) :
    (endLine cfg r bytes).conn.stats = r.conn.stats := by
  rw [endLine]
  split
  · rfl
  · split <;> rfl

theorem endLine_seen (r : Reader) (bytes : List Char) : (endLine cfg r bytes).seen = r.seen := by
  rw [endLine]
  split
  · rfl
  · split <;> rfl

theorem stepLater_stats (r : Reader) (b : Char) :
    (r.stepLater cfg b).conn.stats = r.conn.stats := by
  rw [stepLater]
  simp only
  split
  · split
    · exact endLine_stats _ _
    · rfl
  · rfl

theorem stepLater_seen (r : Reader) (b : Char) : (r.stepLater cfg b).seen = r.seen + 1 := by
  rw [stepLater]
  simp only
  split
  · split
    · exact endLine_seen _ _
    · rfl
  · rfl

theorem read_stats (h : r.Later) (s : List Char) : (r.read cfg s).conn.stats = r.conn.stats := by
  induction s generalizing r with
  | nil => rfl
  | cons b s ih =>
    rw [read_cons, step_of_later h, ih (stepLater_later h b), stepLater_stats]

theorem read_seen_later (h : r.Later) (s : List Char) :
    (r.read cfg s).seen = r.seen + s.length := by
  induction s generalizing r with
  | nil => rfl
  | cons b s ih =>
    rw [read_cons, step_of_later h, ih (stepLater_later h b), stepLater_seen, length_cons,
      Nat.add_assoc, Nat.add_comm 1]

theorem read_later (h : r.Later) (s : List Char) : (r.read cfg s).Later := by
  induction s generalizing r with
  | nil => exact h
  | cons b s ih =>
    rw [read_cons, step_of_later h]
    exact ih (stepLater_later h b)

def Counted (r : Reader) : Prop := ∀ bytes, r.part = .early bytes → bytes.length = r.seen

theorem Later.counted (h : r.Later) : r.Counted := fun bytes heq => absurd heq (h bytes)

theorem startStatus_later {bytes : List Char} (hbytes : 12 ≤ bytes.length) :
    (r.startStatus cfg bytes).Later ∧ (r.startStatus cfg bytes).seen = bytes.length := by
  rw [startStatus]
  split
  · exact ⟨nofun, rfl⟩
  · split
    · exact ⟨nofun, rfl⟩
    · rename_i conn _
      have hlater : Later ⟨conn, .status false, 12⟩ := nofun
      rw [read_of_later hlater]
      refine ⟨read_later hlater _, ?_⟩
      rw [read_seen_later hlater, length_drop]
      exact Nat.add_sub_of_le hbytes

theorem step_counted (h : r.Counted) (b : Char) :
    (r.step cfg b).Counted ∧ (r.step cfg b).seen = r.seen + 1 := by
  rw [step]
  split
  · rename_i bytes heq
    have hlen : (bytes ++ [b]).length = r.seen + 1 := by
      rw [length_append, h bytes heq, length_singleton]
    split
    · refine ⟨?_, rfl⟩
      intro bytes' heq'
      obtain rfl : bytes ++ [b] = bytes' := Part.early.inj heq'
      exact hlen
    · obtain ⟨hlater, hseen⟩ := @startStatus_later cfg r (bytes ++ [b]) (by
        rw [length_append, length_singleton]
        omega)
      exact ⟨hlater.counted, hseen.trans hlen⟩
  · rename_i hne
    have hlater : r.Later := fun bytes heq => hne bytes heq
    exact ⟨(stepLater_later hlater b).counted, stepLater_seen r b⟩

theorem read_counted (h : r.Counted) (s : List Char) :
    (r.read cfg s).Counted ∧ (r.read cfg s).seen = r.seen + s.length := by
  induction s generalizing r with
  | nil => exact ⟨h, rfl⟩
  | cons b s ih =>
    obtain ⟨hcounted, hseen⟩ := @step_counted cfg r h b
    obtain ⟨hcounted', hseen'⟩ := ih hcounted
    refine ⟨hcounted', ?_⟩
    rw [read_cons, hseen', hseen, length_cons, Nat.add_assoc, Nat.add_comm 1]

end Reader

end Weighttp
