import Mathlib.Tactic.Linarith
import ReadingComment.Weighttp.ChunkPoints
import ReadingComment.Weighttp.Machine

/-!
# Chunk arithmetic (`weighttp/src/client.c`)

What holds in a chunked body at each point of the parser, and for which chunk sizes. A chunk size
should be a hexadecimal number. Its letters are read up to `Z`, its value wraps around at 64 bits,
and what is left of a chunk is taken as an `int`.
-/

namespace Weighttp

open Lib List

/-! ## What is meant -/

/-- The digits of a chunk size: what is before the first `;` or CR. -/
def sizeDigits (str : List Char) : List Char := str.takeWhile fun c => c != ';' && c != '\r'

def HexNumber (s : List Char) : Prop := s ≠ [] ∧ ∀ c ∈ s, (digitValue 16 c).isSome = true

def hexValue (s : List Char) : ℕ := digits 16 s 0

/-- **The chunk arithmetic is in bounds**: the bytes received of a chunk are no more than its size,
which is -1 between the chunks; what is to be parsed next, and all that is left of the last read, is
in the bytes that were received; and these do not fill the buffer. -/
structure InBounds (m : Moment) : Prop where
  received : m.conn.client.chunkSize = -1 ∧ m.conn.client.chunkReceived = 0 ∨
    0 ≤ m.conn.client.chunkReceived ∧ m.conn.client.chunkReceived ≤ m.conn.client.chunkSize
  offset : m.conn.client.parserOffset ≤ m.conn.client.buffer.length
  buffer : m.conn.client.buffer.length < bufferSize
  left : match m.point with
    | .idle => True
    | .call size | .data size => m.conn.client.parserOffset + size ≤ m.conn.client.buffer.length
    | .behind size consumed =>
      m.conn.client.parserOffset + (size - consumed) ≤ m.conn.client.buffer.length

def Moment.Sound (m : Moment) : Prop :=
  m.conn.client.parserState = .body → m.conn.client.chunked = true → InBounds m

/-- **A chunk size that is read** is the value of a hexadecimal number, or the parser fails. -/
def RightSize (m m' : Moment) : Prop :=
  ∀ size, m.point = .call size → m.conn.client.chunked = true → m.conn.client.chunkSize = -1 →
    m'.conn.client.state ≠ .error →
      HexNumber (sizeDigits (m.conn.client.buffer.drop m.conn.client.parserOffset)) ∧
      m'.conn.client.chunkSize =
        hexValue (sizeDigits (m.conn.client.buffer.drop m.conn.client.parserOffset))

/-- The parser fails at the line with a chunk size, of which it reads no more than `size` digits. -/
def SizeRefused (size : ℕ) (str : List Char) : Prop :=
  (∃ c ∈ sizeDigits (str.take size), sizeDigit c = none) ∨
    strCrLf (str.drop (sizeDigits (str.take size)).length) = none

/-- The line with a chunk size is refused, or its digits make a hexadecimal number below 2^63 and
those that are read make the same. -/
def SizeFits (size : ℕ) (str : List Char) : Prop :=
  SizeRefused size str ∨ HexNumber (sizeDigits str) ∧ hexValue (sizeDigits str) < 2 ^ 63 ∧
    hexValue (sizeDigits (str.take size)) = hexValue (sizeDigits str)

/-- The condition for a step in a chunked body: on the line with a chunk size; and, before a chunk
is consumed, that the line was in the bytes that were counted and that what is missing of the chunk
is not negative as an `int`. -/
def Moment.Fits (m : Moment) : ParserAct → Prop
  | .read _ => True
  | .go => m.conn.client.chunked = true →
    match m.point with
    | .call size => m.conn.client.chunkSize = -1 →
      SizeFits size.toNat (m.conn.client.buffer.drop m.conn.client.parserOffset)
    | .data size =>
      0 ≤ size ∧ (m.conn.client.chunkSize - m.conn.client.chunkReceived) % 2 ^ 32 < 2 ^ 31
    | _ => True

/-! ## Digits -/

theorem sizeDigits_take (n : ℕ) (str : List Char) :
    sizeDigits (str.take n) = (sizeDigits str).take n := by
  induction str generalizing n with
  | nil => rw [take_nil, sizeDigits, takeWhile_nil, take_nil]
  | cons c str ih =>
    cases n with
    | zero => rfl
    | succ n =>
      rw [take_succ_cons, sizeDigits, sizeDigits, takeWhile_cons, takeWhile_cons]
      split
      · rw [take_succ_cons]
        exact congrArg (c :: ·) (ih n)
      · rw [take_nil]

theorem sizeDigit_of_hex {c : Char} {d : ℕ} (h : digitValue 16 c = some d) :
    sizeDigit c = some (d : ℤ) := by
  have h0 : '0'.toNat = 48 := rfl
  have hA : 'A'.toNat = 65 := rfl
  have ha : 'a'.toNat = 97 := rfl
  have hle {x y : Char} : x ≤ y ↔ x.toNat ≤ y.toNat := Iff.rfl
  simp only [digitValue, Option.ite_none_right_eq_some, Option.some.injEq] at h
  obtain ⟨hlt, hd⟩ := h
  rw [hd] at hlt
  rw [sizeDigit]
  by_cases hdec : '0' ≤ c ∧ c ≤ '9'
  · rw [if_pos hdec] at hd ⊢
    have := hle.mp hdec.1
    rw [Option.some_inj]
    omega
  rw [if_neg hdec] at hd ⊢
  by_cases hlow : 'a' ≤ c ∧ c ≤ 'z'
  · rw [if_pos hlow] at hd
    have hnot : ¬ ('A' ≤ c ∧ c ≤ 'Z') := fun h => by
      have := hle.mp hlow.1
      have := hle.mp h.2
      have hZ : 'Z'.toNat = 90 := rfl
      omega
    have := hle.mp hlow.1
    rw [if_neg hnot, if_pos hlow, Option.some_inj]
    omega
  · rw [if_neg hlow] at hd
    by_cases hup : 'A' ≤ c ∧ c ≤ 'Z'
    · rw [if_pos hup] at hd ⊢
      have := hle.mp hup.1
      rw [Option.some_inj]
      omega
    · rw [if_neg hup] at hd
      omega

theorem le_digits {base : ℕ} (hbase : 0 < base) (s : List Char) (acc : ℕ) :
    acc ≤ digits base s acc := by
  induction s generalizing acc with
  | nil => exact le_rfl
  | cons c s ih =>
    rw [digits]
    split
    · rename_i d _
      exact (Nat.le_mul_of_pos_right acc hbase).trans ((Nat.le_add_right _ _).trans (ih _))
    · exact le_rfl

theorem digits_append {a : List Char} (ha : ∀ c ∈ a, (digitValue 16 c).isSome = true)
    (b : List Char) (acc : ℕ) :
    digits 16 (a ++ b) acc = digits 16 b (digits 16 a acc) := by
  induction a generalizing acc with
  | nil => rfl
  | cons c a ih =>
    obtain ⟨d, hd⟩ := Option.isSome_iff_exists.mp (ha c (mem_cons_self ..))
    rw [cons_append, digits, digits, hd]
    exact ih (fun c hc => ha c (mem_cons_of_mem _ hc)) _

variable {s : List Char} {str : List Char}

theorem hexValue_take_le (hs : ∀ c ∈ s, (digitValue 16 c).isSome = true) (n : ℕ) :
    hexValue (s.take n) ≤ hexValue s := by
  rw [hexValue, hexValue, ← take_append_drop n s, digits_append, take_append_drop]
  · exact le_digits (by decide) _ _
  · exact fun c hc => hs c (mem_of_mem_take hc)

/-! ## The line with a chunk size -/

def sizeValue (ds : List Char) (v : ℤ) : ℤ :=
  ds.foldl (fun v c => (v * 16 + (sizeDigit c).getD 0).bmod (2 ^ 64)) v

theorem sizeValue_hex {ds : List Char} (hds : ∀ c ∈ ds, (digitValue 16 c).isSome = true) (x : ℕ) :
    sizeValue ds ((x : ℤ).bmod (2 ^ 64)) = (digits 16 ds x : ℤ).bmod (2 ^ 64) := by
  induction ds generalizing x with
  | nil => rw [sizeValue, foldl_nil, digits]
  | cons c ds ih =>
    obtain ⟨d, hd⟩ := Option.isSome_iff_exists.mp (hds c (mem_cons_self ..))
    have hstep :
        ((x : ℤ).bmod (2 ^ 64) * 16 + d).bmod (2 ^ 64) = ((x * 16 + d : ℕ) : ℤ).bmod (2 ^ 64) := by
      rw [← Int.bmod_add_bmod, Int.bmod_mul_bmod, Int.bmod_add_bmod]
      push_cast
      rfl
    rw [digits, hd, sizeValue, foldl_cons, sizeDigit_of_hex hd, Option.getD_some, hstep]
    exact ih (fun c hc => hds c (mem_cons_of_mem _ hc)) _

theorem sizeDigits_end {c : Char} (h : c = ';' ∨ c = '\r') (str : List Char) :
    sizeDigits (c :: str) = [] := by
  rcases h with rfl | rfl <;> rfl

theorem sizeDigits_cons {c : Char} (h : ¬ (c = ';' ∨ c = '\r')) (str : List Char) :
    sizeDigits (c :: str) = c :: sizeDigits str :=
  takeWhile_cons_of_pos (by simpa [not_or] using h)

/-- **The loop over the digits**, when all of them have a value. -/
theorem readSize_some {n : ℕ} (hn : n ≤ str.length)
    (h : ∀ c ∈ sizeDigits (str.take n), (sizeDigit c).isSome = true) (v : ℤ) :
    readSize n v str = some (sizeValue (sizeDigits (str.take n)) v,
      (sizeDigits (str.take n)).length) := by
  induction n generalizing str v with
  | zero => rfl
  | succ n ih =>
    obtain ⟨c, str, rfl⟩ := exists_cons_of_length_pos (Nat.zero_lt_of_lt hn)
    rw [take_succ_cons] at h ⊢
    rw [readSize]
    by_cases hend : c = ';' ∨ c = '\r'
    · rw [if_pos hend, sizeDigits_end hend]
      rfl
    · rw [sizeDigits_cons hend] at h ⊢
      obtain ⟨hc, hrest⟩ := forall_mem_cons.mp h
      obtain ⟨d, hd⟩ := Option.isSome_iff_exists.mp hc
      rw [if_neg hend, hd]
      dsimp only
      rw [ih (Nat.le_of_succ_le_succ hn) hrest, Option.map_some, sizeValue, sizeValue, foldl_cons,
        hd,
        Option.getD_some]
      rfl

theorem readSize_none {n : ℕ} (h : ∃ c ∈ sizeDigits (str.take n), sizeDigit c = none) (v : ℤ) :
    readSize n v str = none := by
  induction n generalizing str v with
  | zero =>
    obtain ⟨c, hc, -⟩ := h
    cases hc
  | succ n ih =>
    cases str with
    | nil => rfl
    | cons c str =>
      rw [take_succ_cons] at h
      rw [readSize]
      by_cases hend : c = ';' ∨ c = '\r'
      · rw [sizeDigits_end hend] at h
        obtain ⟨d, hd, -⟩ := h
        cases hd
      · rw [sizeDigits_cons hend] at h
        rw [if_neg hend]
        cases hc : sizeDigit c with
        | none => rfl
        | some d =>
          dsimp only
          obtain ⟨b, hb, hnone⟩ := h
          rcases mem_cons.mp hb with rfl | hb
          · rw [hnone] at hc
            cases hc
          · rw [ih ⟨b, hb, hnone⟩]
            rfl

theorem strCrLf_lt {k : ℕ} (h : strCrLf s = some k) : k + 2 ≤ s.length := by
  induction s generalizing k with
  | nil => cases h
  | cons c s ih =>
    rw [strCrLf] at h
    split at h
    · rename_i hcrlf
      cases h
      cases s with
      | nil => cases hcrlf.2
      | cons _ _ =>
        simp only [length_cons]
        omega
    · split at h
      · cases h
      · obtain ⟨j, hj, rfl⟩ := Option.map_eq_some_iff.mp h
        have := ih hj
        rw [length_cons]
        omega

section line

variable {size : ℤ} {c : Client} (hn : size.toNat ≤ (c.buffer.drop c.parserOffset).length)

include hn

/-- **The line with a chunk size**, when it is not refused. -/
theorem sizeLine_some (h : ¬ SizeRefused size.toNat (c.buffer.drop c.parserOffset)) :
    ∃ k, k ≤ (c.buffer.drop c.parserOffset).length ∧ sizeLine size c = some ({ c with
      chunkSize := sizeValue (sizeDigits ((c.buffer.drop c.parserOffset).take size.toNat)) 0
      chunkReceived := 0 }, k) := by
  obtain ⟨hdigits, hline⟩ := not_or.mp h
  have hall :
      ∀ d ∈ sizeDigits ((c.buffer.drop c.parserOffset).take size.toNat),
        (sizeDigit d).isSome = true :=
    fun d hd => Option.isSome_iff_ne_none.mpr fun hnone => hdigits ⟨d, hd, hnone⟩
  obtain ⟨j, hj⟩ := Option.ne_none_iff_exists'.mp hline
  have hlong := strCrLf_lt hj
  rw [length_drop] at hlong
  refine ⟨(sizeDigits ((c.buffer.drop c.parserOffset).take size.toNat)).length + j + 2, by omega,
    ?_⟩
  simp only [sizeLine, readSize_some hn hall, hj]

theorem sizeLine_none (h : SizeRefused size.toNat (c.buffer.drop c.parserOffset)) :
    sizeLine size c = none := by
  by_cases hbad :
      ∃ d ∈ sizeDigits ((c.buffer.drop c.parserOffset).take size.toNat), sizeDigit d = none
  · simp only [sizeLine, readSize_none hbad]
  · have hall : ∀ d ∈ sizeDigits ((c.buffer.drop c.parserOffset).take size.toNat),
        (sizeDigit d).isSome = true := fun d hd =>
      Option.isSome_iff_ne_none.mpr fun hnone => hbad ⟨d, hd, hnone⟩
    simp only [sizeLine, readSize_some hn hall, h.resolve_left hbad]

end line

/-- **The value is right** just if the digits make a hexadecimal number that does not wrap around.
-/
theorem sizeValue_right_iff (n : ℕ) :
    (HexNumber (sizeDigits str) ∧
      sizeValue (sizeDigits (str.take n)) 0 = hexValue (sizeDigits str)) ↔
      HexNumber (sizeDigits str) ∧ hexValue (sizeDigits str) < 2 ^ 63 ∧
        hexValue (sizeDigits (str.take n)) = hexValue (sizeDigits str) := by
  refine and_congr_right fun hhex => ?_
  have hle : hexValue (sizeDigits (str.take n)) ≤ hexValue (sizeDigits str) := by
    rw [sizeDigits_take]
    exact hexValue_take_le hhex.2 n
  have hvalue : sizeValue (sizeDigits (str.take n)) 0 =
      (hexValue (sizeDigits (str.take n)) : ℤ).bmod (2 ^ 64) := by
    have htake : ∀ c ∈ sizeDigits (str.take n), (digitValue 16 c).isSome = true := fun c hc => by
      rw [sizeDigits_take] at hc
      exact hhex.2 c (mem_of_mem_take hc)
    have h := sizeValue_hex htake 0
    rw [Nat.cast_zero, Int.zero_bmod] at h
    exact h
  rw [hvalue]
  generalize hexValue (sizeDigits (str.take n)) = x at hle ⊢
  generalize hexValue (sizeDigits str) = y at hle ⊢
  constructor
  · intro h
    have hlt := Int.bmod_lt (x := (x : ℤ)) (m := 2 ^ 64) (by decide)
    have hmod : (x : ℤ).bmod (2 ^ 64) ≤ x := by
      rw [Int.bmod_eq_emod]
      split <;> omega
    rw [h] at hlt hmod
    have hlt' : (y : ℤ) < 2 ^ 63 := hlt
    omega
  · rintro ⟨hlt, rfl⟩
    exact Int.bmod_eq_of_le (by omega) (by omega)

/-! ## The header -/

theorem lt_of_charAt {i : ℕ} {b : Char} (h : charAt s i = b) (hb : b ≠ '\x00') : i < s.length := by
  by_contra hge
  rw [charAt, getD_eq_getElem?_getD, getElem?_eq_none (Nat.le_of_not_lt hge)] at h
  exact hb h.symm

/-- What the header does not change; it writes to the buffer, but not behind its end. -/
structure HeaderKeeps (c c' : Client) : Prop where
  state : c'.state = c.state
  buffer : c'.buffer.length = c.buffer.length
  chunkSize : c'.chunkSize = c.chunkSize
  chunkReceived : c'.chunkReceived = c.chunkReceived

theorem headerLine_keeps {cfg : Config} {line : List Char} {c c' : Client}
    (h : headerLine cfg line c = some c') :
    HeaderKeeps c c' ∧ c'.parserState = c.parserState := by
  simp only [headerLine] at h
  split at h
  · cases h
    exact ⟨⟨rfl, rfl, rfl, rfl⟩, rfl⟩
  · split at h
    · split at h
      · cases h
        exact ⟨⟨rfl, rfl, rfl, rfl⟩, rfl⟩
      · split at h
        · cases h
          exact ⟨⟨rfl, rfl, rfl, rfl⟩, rfl⟩
        · cases h
    · split at h
      · split at h
        · cases h
          exact ⟨⟨rfl, rfl, rfl, rfl⟩, rfl⟩
        · cases h
      · cases h
        exact ⟨⟨rfl, rfl, rfl, rfl⟩, rfl⟩

theorem HeaderKeeps.trans {c c' c'' : Client} (h : HeaderKeeps c c') (h' : HeaderKeeps c' c'') :
    HeaderKeeps c c'' :=
  ⟨h'.state.trans h.state, h'.buffer.trans h.buffer, h'.chunkSize.trans h.chunkSize,
    h'.chunkReceived.trans h.chunkReceived⟩

/-- Where the header leads to: it goes on, or the body is called with no more than what is there. -/
structure HeaderLeads (size : ℤ) (c c' : Client) (body : Option ℤ) : Prop where
  keeps : HeaderKeeps c c'
  offset : c'.parserOffset ≤ c'.buffer.length
  rest : body = none → c'.parserState = c.parserState
  left : ∀ s, body = some s → c'.parserState = .body ∧ c'.parserOffset + s ≤ size

/-- **The header** comes to an end. -/
theorem parseHeaderTo_spec (cfg : Config) (size : ℤ) {fuel : ℕ} {c : Client}
    (hoff : c.parserOffset ≤ c.buffer.length) (hfuel : c.buffer.length - c.parserOffset < fuel) :
    ∃ c' ok body, parseHeaderTo cfg size fuel c = .ok (c', ok, body) ∧
      HeaderLeads size c c' body := by
  induction fuel generalizing c with
  | zero => exact absurd hfuel (Nat.not_lt_zero _)
  | succ fuel ih =>
    have hsame : HeaderKeeps c c := ⟨rfl, rfl, rfl, rfl⟩
    rw [parseHeaderTo]
    cases strchr '\r' (c.buffer.drop c.parserOffset) with
    | none => exact ⟨c, true, none, rfl, hsame, hoff, fun _ => rfl, by rintro _ ⟨⟩⟩
    | some k =>
      dsimp only
      by_cases hlf : charAt c.buffer (c.parserOffset + k + 1) ≠ '\n'
      · rw [if_pos hlf]
        exact ⟨c, false, none, rfl, hsame, hoff, fun _ => rfl, by rintro _ ⟨⟩⟩
      rw [if_neg hlf]
      have hcr := lt_of_charAt (not_ne_iff.mp hlf) (by decide)
      by_cases hzero : k = 0
      · rw [if_pos hzero]
        refine ⟨_, _, _, rfl, ⟨rfl, rfl, rfl, rfl⟩, hoff, by rintro ⟨⟩, fun s hs => ⟨rfl, ?_⟩⟩
        cases hs
        dsimp only
        omega
      rw [if_neg hzero]
      have hset : (c.endLine (c.parserOffset + k)).buffer.length = c.buffer.length := length_set
      have hended : HeaderKeeps c (c.endLine (c.parserOffset + k)) := ⟨rfl, hset, rfl, rfl⟩
      cases hline : headerLine cfg ((c.buffer.drop c.parserOffset).take k)
          (c.endLine (c.parserOffset + k)) with
      | none =>
        exact ⟨_, false, none, rfl, hended, hoff.trans_eq hset.symm, fun _ => rfl, by rintro _ ⟨⟩⟩
      | some c₁ =>
        obtain ⟨hkeeps, hparser⟩ := headerLine_keeps hline
        replace hkeeps := hended.trans hkeeps
        dsimp only
        by_cases hblank : charAt c₁.buffer (c.parserOffset + k + 2) = '\r' ∧
            charAt c₁.buffer (c.parserOffset + k + 3) = '\n'
        · rw [if_pos hblank]
          have hend := lt_of_charAt hblank.2 (by decide)
          refine ⟨_, _, _, rfl, ⟨hkeeps.state, hkeeps.buffer, hkeeps.chunkSize,
            hkeeps.chunkReceived⟩, hend,
            by rintro ⟨⟩, fun s hs => ⟨rfl, ?_⟩⟩
          cases hs
          dsimp only
          omega
        · rw [if_neg hblank]
          have hlen : c₁.buffer.length = c.buffer.length := hkeeps.buffer
          obtain ⟨c', ok, body, hres, hleads⟩ :=
            ih (c := { c₁ with parserOffset := c.parserOffset + k + 2 }) (by dsimp only; omega)
              (by dsimp only; omega)
          have hstep : HeaderKeeps c { c₁ with parserOffset := c.parserOffset + k + 2 } :=
            ⟨hkeeps.state, hkeeps.buffer, hkeeps.chunkSize, hkeeps.chunkReceived⟩
          exact ⟨c', ok, body, hres, hstep.trans hleads.keeps, hleads.offset,
            fun h => (hleads.rest h).trans hparser, hleads.left⟩

/-! ## The invariant -/

/-- A number that is not negative as an `int`. -/
def IntSized (r : ℤ) : Prop := r % 2 ^ 32 < 2 ^ 31

/-- What else holds at the points of a chunked body: a chunk of which some was consumed is one whose
rest is not negative as an `int`, and the buffer is given up when the parser waits for more. -/
def Moment.Steady (m : Moment) : Prop :=
  match m.point with
  | .idle =>
    m.conn.client.state = .reading → m.conn.client.parserOffset = 0 ∧ m.conn.client.buffer = [] ∧
      (m.conn.client.chunkSize ≠ -1 →
        IntSized (m.conn.client.chunkSize - m.conn.client.chunkReceived))
  | .call size => m.conn.client.chunkSize ≠ -1 →
      0 ≤ size ∧ IntSized (m.conn.client.chunkSize - m.conn.client.chunkReceived)
  | .data size => m.conn.client.chunkSize ≠ -1 ∧ (m.conn.client.chunkReceived = 0 ∨
      0 ≤ size ∧ IntSized (m.conn.client.chunkSize - m.conn.client.chunkReceived))
  | .behind size consumed => m.conn.client.chunkSize ≠ -1 ∧ consumed ≤ size ∧
      IntSized (m.conn.client.chunkSize - m.conn.client.chunkReceived)

/-- The parser runs for a client that reads, and is in chunks for a chunked body. -/
def Moment.Running (m : Moment) : Prop :=
  match m.point with
  | .idle => True
  | .call _ => m.conn.client.state = .reading
  | .data _ | .behind _ _ => m.conn.client.state = .reading ∧ m.conn.client.chunked = true

/-- What holds at every point. -/
structure Moment.Inv (m : Moment) : Prop where
  buffer : m.conn.client.buffer.length < bufferSize
  running : m.Running
  early : m.conn.client.parserState ≠ .body → m.point = .idle ∧ m.conn.client.chunkSize = -1 ∧
    m.conn.client.chunkReceived = 0 ∧ m.conn.client.parserOffset ≤ m.conn.client.buffer.length
  body : m.conn.client.parserState = .body → m.conn.client.chunked = true → InBounds m ∧ m.Steady

theorem Moment.Inv.sound {m : Moment} (h : m.Inv) : m.Sound := fun hstate hchunked =>
  (h.body hstate hchunked).1

theorem Moment.Inv.of_header {c : Conn} {ok : Bool} (hbuf : c.client.buffer.length < bufferSize)
    (hstate : c.client.parserState ≠ .body)
    (hsize : c.client.chunkSize = -1) (hrec : c.client.chunkReceived = 0)
    (hoff : c.client.parserOffset ≤ c.client.buffer.length) : (Moment.returned c ok).Inv := by
  cases ok with
  | true | false =>
    exact ⟨hbuf, trivial, fun _ => ⟨rfl, hsize, hrec, hoff⟩, fun h => absurd h hstate⟩

/-- **The header**, as a step. -/
theorem inv_header (cfg : Config) {n : ℕ} {c : Conn} (hreading : c.client.state = .reading)
    (hbuf : c.client.buffer.length < bufferSize) (hstate : c.client.parserState ≠ .body)
    (hsize : c.client.chunkSize = -1) (hrec : c.client.chunkReceived = 0)
    (hoff : c.client.parserOffset ≤ c.client.buffer.length) (hn : n ≤ c.client.buffer.length) :
    ∃ m, Moment.header cfg n c = .ok m ∧ m.Inv := by
  obtain ⟨c', ok, body, hto, hleads⟩ :=
    parseHeaderTo_spec cfg n hoff (Nat.lt_succ_of_le (Nat.sub_le _ c.client.parserOffset))
  have hbuf' := hbuf
  rw [← hleads.keeps.buffer] at hbuf' hn
  rw [Moment.header, hto]
  cases body with
  | none =>
    refine ⟨_, rfl, .of_header hbuf' ?_ (hleads.keeps.chunkSize.trans hsize)
      (hleads.keeps.chunkReceived.trans hrec) hleads.offset⟩
    rw [show ({ c with client := c' } : Conn).client.parserState = c'.parserState from rfl,
      hleads.rest rfl]
    exact hstate
  | some s =>
    obtain ⟨hbody, hleft⟩ := hleads.left s rfl
    have hnone : c'.chunkSize = -1 := hleads.keeps.chunkSize.trans hsize
    refine ⟨_, rfl, hbuf', hleads.keeps.state.trans hreading, fun h => absurd hbody h,
      fun _ _ => ⟨⟨.inl ⟨hnone, ?_⟩, hleads.offset, hbuf', ?_⟩, ?_⟩⟩
    · exact hleads.keeps.chunkReceived.trans hrec
    · show (c'.parserOffset : ℤ) + s ≤ c'.buffer.length
      omega
    · exact fun h => absurd hnone h

theorem parseStart_spec {c c' : Conn} {ok : Bool} (hstate : c.client.parserState = .start)
    (hoff : c.client.parserOffset ≤ c.client.buffer.length) (h : parseStart c = (c', ok)) :
    HeaderKeeps c.client c'.client ∧ c'.client.parserState ≠ .body ∧
      c'.client.parserOffset ≤ c'.client.buffer.length := by
  have hstart : c.client.parserState ≠ .body := by
    rw [hstate]
    decide
  rw [parseStart] at h
  dsimp only at h
  split at h
  · cases h
    exact ⟨⟨rfl, rfl, rfl, rfl⟩, hstart, hoff⟩
  · split at h
    · cases h
      exact ⟨⟨rfl, rfl, rfl, rfl⟩, hstart, hoff⟩
    · rename_i c₁ hcount
      obtain ⟨code, -, hcode⟩ := Option.bind_eq_some_iff.mp hcount
      obtain ⟨hkeeps, hparser, hsame⟩ : HeaderKeeps c.client c₁.client ∧
          c₁.client.parserState = c.client.parserState ∧
            c₁.client.parserOffset = c.client.parserOffset := by
        rw [countStatus] at hcode
        repeat' split at hcode
        all_goals first
          | (cases hcode; exact ⟨⟨rfl, rfl, rfl, rfl⟩, rfl, rfl⟩)
          | cases hcode
      have hoff₁ : c₁.client.parserOffset ≤ c₁.client.buffer.length := by
        rw [hsame, hkeeps.buffer]
        exact hoff
      split at h
      · cases h
        exact ⟨hkeeps, hparser ▸ hstart, hoff₁⟩
      · rename_i k _
        split at h
        · cases h
          exact ⟨hkeeps, hparser ▸ hstart, hoff₁⟩
        · rename_i hlf
          cases h
          have hin := lt_of_charAt (not_ne_iff.mp hlf) (by decide)
          refine ⟨⟨hkeeps.state, hkeeps.buffer, hkeeps.chunkSize,
            hkeeps.chunkReceived⟩, by rintro ⟨⟩, ?_⟩
          dsimp only
          rw [hkeeps.buffer]
          omega

/-- **A read**, up to the call for the body, keeps the invariant. -/
theorem inv_read (cfg : Config) {m : Moment} {bytes : List Char} (hm : m.Inv)
    (hpoint : m.point = .idle)
    (hreading : m.conn.client.state = .reading)
    (hroom : m.conn.client.buffer.length + bytes.length < bufferSize) :
    ∃ m', m.read cfg bytes = .ok m' ∧ m'.Inv := by
  have hlen :
      (m.conn.taking bytes).client.buffer.length = m.conn.client.buffer.length + bytes.length :=
    length_append
  have hbuf : (m.conn.taking bytes).client.buffer.length < bufferSize := hlen ▸ hroom
  have hn : bytes.length ≤ (m.conn.taking bytes).client.buffer.length := by omega
  rw [Moment.read, if_neg (Nat.not_le_of_lt hbuf)]
  cases hstate : (m.conn.taking bytes).client.parserState with
  | body =>
    refine ⟨_, rfl, hbuf, hreading, fun h => absurd hstate h, fun _ hchunked => ?_⟩
    obtain ⟨hin, hsteady⟩ := hm.body hstate hchunked
    rw [Moment.Steady, hpoint] at hsteady
    obtain ⟨hoff, hempty, hrest⟩ := hsteady hreading
    have hoff' : (m.conn.taking bytes).client.parserOffset = 0 := hoff
    rw [hempty, length_nil, Nat.zero_add] at hlen
    refine ⟨⟨hin.received, hoff' ▸ Nat.zero_le _, hbuf, ?_⟩,
      fun hsize => ⟨Int.natCast_nonneg _, hrest hsize⟩⟩
    show ((m.conn.taking bytes).client.parserOffset : ℤ) + bytes.length ≤ _
    rw [hoff', hlen]
    simp
  | header =>
    obtain ⟨-, hsize, hrec, hoff⟩ := hm.early (by
      rw [show m.conn.client.parserState = .header from hstate]
      decide)
    exact inv_header cfg hreading hbuf (hstate ▸ (by rintro ⟨⟩)) hsize hrec
      (hoff.trans (hlen ▸ Nat.le_add_right _ _)) hn
  | start =>
    obtain ⟨-, hsize, hrec, hoff⟩ := hm.early (by
      rw [show m.conn.client.parserState = .start from hstate]
      decide)
    have hoff' :
        (m.conn.taking bytes).client.parserOffset ≤ (m.conn.taking bytes).client.buffer.length :=
      hoff.trans (hlen ▸ Nat.le_add_right _ _)
    dsimp only
    by_cases hshort : (m.conn.taking bytes).client.buffer.length < 15
    · rw [if_pos hshort]
      exact ⟨_, rfl, hbuf, trivial, fun _ => ⟨rfl, hsize, hrec, hoff'⟩,
        fun h => absurd (hstate.symm.trans h) (by rintro ⟨⟩)⟩
    · rw [if_neg hshort]
      rcases hres : parseStart (m.conn.taking bytes) with ⟨c', ok⟩
      obtain ⟨hkeeps, hparser, hoff₁⟩ := parseStart_spec hstate hoff' hres
      have hbuf₁ : c'.client.buffer.length < bufferSize := hkeeps.buffer ▸ hbuf
      have hsize₁ := hkeeps.chunkSize.trans hsize
      have hrec₁ := hkeeps.chunkReceived.trans hrec
      cases ok with
      | false => exact ⟨_, rfl, .of_header hbuf₁ hparser hsize₁ hrec₁ hoff₁⟩
      | true =>
        exact inv_header cfg (hkeeps.state.trans hreading) hbuf₁ hparser hsize₁ hrec₁ hoff₁
          (hkeeps.buffer ▸ hn)

/-! ## Steps in the body -/

section go

variable {m : Moment}

theorem Moment.Inv.inBody (hm : m.Inv) (hpoint : m.point ≠ .idle) :
    m.conn.client.parserState = .body := by
  by_contra hstate
  exact hpoint (hm.early hstate).1

section

variable {size : ℤ} (hm : m.Inv) (hpoint : m.point = .call size)

include hm hpoint

theorem inv_plain (hplain : m.conn.client.chunked ≠ true) :
    ∃ m', m.go = .ok m' ∧ m'.Inv := by
  have hbody := hm.inBody (hpoint ▸ nofun)
  have hgo :
      m.go = (fun r =>
        Moment.returned { m.conn with client := r.1 } r.2) <$> parseBody size m.conn.client := by
    rw [Moment.go, hpoint]
    exact if_neg hplain
  have hinv {c : Client} {ok : Bool} (hstate : c.parserState = .body) (hbuf : c.buffer = [])
      (hchunked : c.chunked = m.conn.client.chunked) :
          (Moment.returned { m.conn with client := c } ok).Inv := by
    have hlen : c.buffer.length < bufferSize := by
      rw [hbuf]
      decide
    cases ok with
    | true | false =>
      exact ⟨hlen, trivial, fun h => absurd hstate h, fun _ h => absurd (hchunked ▸ h) hplain⟩
  rw [hgo, parseBody, if_neg hplain]
  dsimp only
  split
  · exact ⟨_, rfl, hinv hbody rfl rfl⟩
  · split
    · exact ⟨_, rfl, hinv hbody rfl rfl⟩
    · exact ⟨_, rfl, hinv hbody rfl rfl⟩

/-- **The line with a chunk size.** -/
theorem inv_size (hchunked : m.conn.client.chunked = true) (hnone : m.conn.client.chunkSize = -1)
    (hfits : SizeFits size.toNat (m.conn.client.buffer.drop m.conn.client.parserOffset)) :
    ∃ m', m.go = .ok m' ∧ m'.Inv ∧ RightSize m m' := by
  have hbody := hm.inBody (hpoint ▸ (by rintro ⟨⟩))
  obtain ⟨hin, -⟩ := hm.body hbody hchunked
  have hleft := hin.left
  rw [hpoint] at hleft
  dsimp only at hleft
  have hoff := hin.offset
  have hn : size.toNat ≤ (m.conn.client.buffer.drop m.conn.client.parserOffset).length := by
    rw [length_drop]
    omega
  by_cases href : SizeRefused size.toNat (m.conn.client.buffer.drop m.conn.client.parserOffset)
  · have hgo : m.go = .ok (.returned { m.conn with client := m.conn.client } false) := by
      rw [Moment.go, hpoint]
      dsimp only
      rw [if_pos hchunked, if_pos hnone, sizeLine_none hn href]
    refine ⟨_, hgo, ⟨hm.buffer, trivial, fun h => absurd hbody h, fun _ _ => ⟨?_, by rintro ⟨⟩⟩⟩,
      ?_⟩
    · exact ⟨hin.received, hin.offset, hin.buffer, trivial⟩
    · exact fun _ _ _ _ h => absurd rfl h
  · obtain ⟨k, hk, hline⟩ := sizeLine_some hn href
    obtain ⟨hhex, hlt, hall⟩ := hfits.resolve_left href
    obtain ⟨-, hvalue⟩ := (sizeValue_right_iff size.toNat).mpr ⟨hhex, hlt, hall⟩
    have hright {m' : Moment} (h : m'.conn.client.chunkSize =
        hexValue
          (sizeDigits (m.conn.client.buffer.drop m.conn.client.parserOffset))) : RightSize m m' :=
      fun _ _ _ _ _ => ⟨hhex, h⟩
    rw [hvalue] at hline
    rw [length_drop] at hk
    rw [Moment.go, hpoint]
    dsimp only
    rw [if_pos hchunked, if_pos hnone, hline]
    dsimp only
    by_cases hzero :
        (hexValue (sizeDigits (m.conn.client.buffer.drop m.conn.client.parserOffset)) : ℤ) = 0
    · rw [if_pos hzero]
      refine ⟨_, rfl, ⟨hm.buffer, trivial, fun h => absurd hbody h, fun _ _ => ⟨?_, by rintro ⟨⟩⟩⟩,
        hright rfl⟩
      exact ⟨.inr ⟨le_rfl, Int.natCast_nonneg _⟩, hin.offset, hin.buffer, trivial⟩
    · rw [if_neg hzero]
      have hreading := hm.running
      rw [Moment.Running, hpoint] at hreading
      refine ⟨_, rfl, ⟨hm.buffer, ⟨hreading, hchunked⟩, fun h => absurd hbody h,
        fun _ _ => ⟨?_, ?_, .inl rfl⟩⟩,
        hright rfl⟩
      · refine ⟨.inr ⟨le_rfl, Int.natCast_nonneg _⟩, ?_, hin.buffer, ?_⟩
        · show m.conn.client.parserOffset + k ≤ m.conn.client.buffer.length
          omega
        · show ((m.conn.client.parserOffset + k : ℕ) : ℤ) + (size - k) ≤ m.conn.client.buffer.length
          push_cast
          omega
      · show (hexValue (sizeDigits (m.conn.client.buffer.drop m.conn.client.parserOffset)) : ℤ) ≠ -1
        omega

theorem inv_call (hchunked : m.conn.client.chunked = true) (hsome : m.conn.client.chunkSize ≠ -1) :
    ∃ m', m.go = .ok m' ∧ m'.Inv := by
  have hbody := hm.inBody (hpoint ▸ nofun)
  obtain ⟨hin, hsteady⟩ := hm.body hbody hchunked
  rw [Moment.Steady, hpoint] at hsteady
  have hleft := hin.left
  rw [hpoint] at hleft
  have hreading := hm.running
  rw [Moment.Running, hpoint] at hreading
  rw [Moment.go, hpoint]
  dsimp only
  rw [if_pos hchunked, if_neg hsome]
  exact ⟨_, rfl, hm.buffer, ⟨hreading, hchunked⟩, fun h => absurd hbody h, fun _ _ =>
    ⟨⟨hin.received, hin.offset, hin.buffer, hleft⟩, hsome, .inr (hsteady hsome)⟩⟩

end

theorem consume_fits {size : ℤ} {c : Client} (hsize : 0 ≤ size)
    (hint : IntSized (c.chunkSize - c.chunkReceived))
    (hle : c.chunkReceived ≤ c.chunkSize) (hleft : c.parserOffset + size < bufferSize) :
    ∃ n : ℕ, consume size c =
        ({ c with chunkReceived := c.chunkReceived + n, parserOffset := c.parserOffset + n },
          (n : ℤ)) ∧
      (n : ℤ) ≤ size ∧ c.chunkReceived + n ≤ c.chunkSize ∧
      IntSized (c.chunkSize - (c.chunkReceived + n)) := by
  rw [IntSized] at hint
  have hbmod :
      (c.chunkSize - c.chunkReceived).bmod (2 ^ 32) = (c.chunkSize - c.chunkReceived) % 2 ^ 32 := by
    rw [Int.bmod_eq_emod]
    split <;> omega
  have hmod := Int.emod_nonneg (c.chunkSize - c.chunkReceived) (show (2 ^ 32 : ℤ) ≠ 0 by decide)
  have hmodle : (c.chunkSize - c.chunkReceived) % 2 ^ 32 ≤ c.chunkSize - c.chunkReceived := by
    omega
  rw [bufferSize] at hleft
  have hwrap {k : ℤ} (hk : 0 ≤ k) (hks : k ≤ size) :
      ((c.parserOffset + k) % 2 ^ 32).toNat = c.parserOffset + k.toNat := by
    rw [Int.emod_eq_of_lt (by omega) (by omega)]
    omega
  simp only [consume, hbmod]
  split
  · refine ⟨size.toNat, ?_, by omega, by omega, ?_⟩
    · rw [hwrap hsize le_rfl, Int.toNat_of_nonneg hsize]
    · rw [IntSized]
      omega
  · refine ⟨((c.chunkSize - c.chunkReceived) % 2 ^ 32).toNat, ?_, by omega, by omega, ?_⟩
    · rw [hwrap hmod (by omega), Int.toNat_of_nonneg hmod]
    · rw [IntSized]
      omega

/-- **What there is of a chunk.** -/
theorem inv_data {size : ℤ} (hm : m.Inv) (hpoint : m.point = .data size) (hsize : 0 ≤ size)
    (hint : IntSized (m.conn.client.chunkSize - m.conn.client.chunkReceived)) :
    ∃ m', m.go = .ok m' ∧ m'.Inv := by
  have hbody := hm.inBody (hpoint ▸ nofun)
  have hrunning := hm.running
  rw [Moment.Running, hpoint] at hrunning
  obtain ⟨hreading, hchunked⟩ := hrunning
  obtain ⟨hin, hsteady⟩ := hm.body hbody hchunked
  rw [Moment.Steady, hpoint] at hsteady
  have hleft := hin.left
  rw [hpoint] at hleft
  dsimp only at hleft
  obtain ⟨hpos, hle⟩ := hin.received.resolve_left fun h => hsteady.1 h.1
  have hbuf := hin.buffer
  obtain ⟨n, hn, hnsize, hnle, hnint⟩ := consume_fits hsize hint hle (by omega)
  rw [Moment.go, hpoint]
  dsimp only
  rw [hn]
  refine ⟨_, rfl, hm.buffer, ⟨hreading, hchunked⟩, fun h => absurd hbody h, fun _ _ =>
    ⟨⟨.inr ⟨?_, hnle⟩, ?_, hin.buffer, ?_⟩, hsteady.1, hnsize, hnint⟩⟩
  · show (0 : ℤ) ≤ m.conn.client.chunkReceived + n
    omega
  · show m.conn.client.parserOffset + n ≤ m.conn.client.buffer.length
    omega
  · show ((m.conn.client.parserOffset + n : ℕ) : ℤ) + (size - n) ≤ m.conn.client.buffer.length
    push_cast
    omega

/-- **The end of a chunk**, or of what there is of it. -/
theorem inv_behind {size consumed : ℤ} (hm : m.Inv) (hpoint : m.point = .behind size consumed) :
    ∃ m', m.go = .ok m' ∧ m'.Inv := by
  have hbody := hm.inBody (hpoint ▸ (by rintro ⟨⟩))
  have hrunning := hm.running
  rw [Moment.Running, hpoint] at hrunning
  obtain ⟨hreading, hchunked⟩ := hrunning
  obtain ⟨hin, hsteady⟩ := hm.body hbody hchunked
  rw [Moment.Steady, hpoint] at hsteady
  obtain ⟨hsome, hle, hint⟩ := hsteady
  have hleft := hin.left
  rw [hpoint] at hleft
  dsimp only at hleft
  have hbuf := hin.buffer
  have hoff := hin.offset
  obtain ⟨⟨c', ok, rest⟩, hend⟩ : ∃ r, endChunk size consumed m.conn.client = .ok r := by
    rw [endChunk]
    split
    · rw [if_neg (by omega)]
      split
      · exact ⟨_, rfl⟩
      · dsimp only
        split
        · exact ⟨_, rfl⟩
        · exact ⟨_, rfl⟩
    · exact ⟨_, rfl⟩
  refine ⟨_, go_behind hpoint hend, ?_⟩
  have hpos : 0 < bufferSize := by decide
  cases endsChunk hend with
  | within hne =>
    exact ⟨hpos, trivial, fun h => absurd hbody h, fun _ _ =>
      ⟨⟨hin.received, le_rfl, hpos, trivial⟩, fun _ => ⟨rfl, rfl, fun _ => hint⟩⟩⟩
  | refused hdone =>
    exact ⟨hm.buffer, trivial, fun h => absurd hbody h,
      fun _ _ => ⟨⟨hin.received, hoff, hbuf, trivial⟩, by rintro ⟨⟩⟩⟩
  | last hdone =>
    exact ⟨hpos, trivial, fun h => absurd hbody h, fun _ _ =>
      ⟨⟨.inl ⟨rfl, rfl⟩, le_rfl, hpos, trivial⟩, fun _ => ⟨rfl, rfl, fun h => absurd rfl h⟩⟩⟩
  | next hdone hcr hlf hmore =>
    have hroom := lt_of_charAt hlf (by decide)
    refine ⟨hm.buffer, hreading, fun h => absurd hbody h, fun _ _ =>
      ⟨⟨.inl ⟨rfl, rfl⟩, hroom, hbuf, ?_⟩, fun h => absurd rfl h⟩⟩
    show ((m.conn.client.parserOffset + 2 : ℕ) : ℤ) + (size - (consumed + 2)) ≤
      m.conn.client.buffer.length
    push_cast
    omega

end go

/-! ## Runs -/

section run

variable {cfg : Config} {stats : Stats} {m m' : Moment}

theorem inv_init : (parsing cfg stats).init.Inv :=
  ⟨show 0 < bufferSize by decide, trivial, fun _ => ⟨rfl, rfl, rfl, le_rfl⟩, nofun⟩

/-- **A step** whose condition is met goes right, and keeps the invariant. -/
theorem inv_step {a : ParserAct} (hm : m.Inv) (ha : (parsing cfg stats).Allowed m a)
    (hfits : m.Fits a) :
    ∃ m', (parsing cfg stats).step m a = .ok m' ∧ m'.Inv ∧ RightSize m m' := by
  cases a with
  | read bytes =>
    obtain ⟨hpoint, hreading, -, hroom⟩ := ha
    obtain ⟨m', hres, hinv⟩ := inv_read cfg hm hpoint hreading hroom
    exact ⟨m', hres, hinv, fun size h => by rw [hpoint] at h; cases h⟩
  | go =>
    have hother {m' : Moment} (h : ∀ size, m.point ≠ .call size) : RightSize m m' :=
      fun size hcall => absurd hcall (h size)
    have hrunning := hm.running
    rw [Moment.Running] at hrunning
    by_cases hchunked : m.conn.client.chunked = true
    · have hcond := hfits hchunked
      cases hpoint : m.point with
      | idle => exact absurd hpoint ha
      | call size =>
        rw [hpoint] at hcond
        by_cases hsize : m.conn.client.chunkSize = -1
        · exact inv_size hm hpoint hchunked hsize (hcond hsize)
        · obtain ⟨m', hres, hinv⟩ := inv_call hm hpoint hchunked hsize
          exact ⟨m', hres, hinv, fun _ _ _ h => absurd h hsize⟩
      | data size =>
        rw [hpoint] at hcond
        obtain ⟨m', hres, hinv⟩ := inv_data hm hpoint hcond.1 hcond.2
        exact ⟨m', hres, hinv, hother (hpoint ▸ nofun)⟩
      | behind size consumed =>
        obtain ⟨m', hres, hinv⟩ := inv_behind hm hpoint
        exact ⟨m', hres, hinv, hother (hpoint ▸ nofun)⟩
    · cases hpoint : m.point with
      | idle => exact absurd hpoint ha
      | call size =>
        obtain ⟨m', hres, hinv⟩ := inv_plain hm hpoint hchunked
        exact ⟨m', hres, hinv, fun _ _ h => absurd h hchunked⟩
      | data size | behind size consumed =>
        rw [hpoint] at hrunning
        exact absurd hrunning.2 hchunked

theorem sizeFits_of_right {size : ℤ} (hm : m.Inv) (hpoint : m.point = .call size)
    (hchunked : m.conn.client.chunked = true) (hnone : m.conn.client.chunkSize = -1)
    (h : m.go = .ok m')
    (hright : RightSize m m') :
    SizeFits size.toNat (m.conn.client.buffer.drop m.conn.client.parserOffset) := by
  refine or_iff_not_imp_left.mpr fun href => ?_
  have hreading := hm.running
  rw [Moment.Running, hpoint] at hreading
  obtain ⟨hin, -⟩ := hm.body (hm.inBody (hpoint ▸ (by rintro ⟨⟩))) hchunked
  have hleft := hin.left
  rw [hpoint] at hleft
  dsimp only at hleft
  have hoff := hin.offset
  have hn : size.toNat ≤ (m.conn.client.buffer.drop m.conn.client.parserOffset).length := by
    rw [length_drop]
    omega
  obtain ⟨k, -, hline⟩ := sizeLine_some hn href
  rw [Moment.go, hpoint] at h
  dsimp only at h
  rw [if_pos hchunked, if_pos hnone, hline] at h
  dsimp only at h
  rw [← sizeValue_right_iff]
  split at h
  · cases h
    exact hright size hpoint hchunked hnone (by rintro ⟨⟩)
  · cases h
    refine hright size hpoint hchunked hnone ?_
    show m.conn.client.state ≠ .error
    rw [show m.conn.client.state = .reading from hreading]
    decide

theorem data_fits_of_sound {size : ℤ} (hm : m.Inv) (hpoint : m.point = .data size)
    (h : m.go = .ok m')
    (hsound : m'.Sound) :
    0 ≤ size ∧ (m.conn.client.chunkSize - m.conn.client.chunkReceived) % 2 ^ 32 < 2 ^ 31 := by
  have hbody := hm.inBody (hpoint ▸ nofun)
  have hrunning := hm.running
  rw [Moment.Running, hpoint] at hrunning
  obtain ⟨-, hsteady⟩ := hm.body hbody hrunning.2
  rw [Moment.Steady, hpoint] at hsteady
  obtain ⟨hsome, hstart | hgoing⟩ := hsteady
  · rw [Moment.go, hpoint] at h
    cases h
    obtain ⟨hnone, -⟩ | ⟨hpos, -⟩ := (hsound hbody hrunning.2).received
    · exact absurd hnone hsome
    · have hpos' : 0 ≤ m.conn.client.chunkReceived +
          if size < (m.conn.client.chunkSize - m.conn.client.chunkReceived).bmod (2 ^ 32) then size
          else (m.conn.client.chunkSize - m.conn.client.chunkReceived).bmod (2 ^ 32) := hpos
      rw [hstart, Int.zero_add, Int.bmod_eq_emod] at hpos'
      rw [hstart]
      have := Int.emod_lt_of_pos (m.conn.client.chunkSize - 0) (show (0 : ℤ) < 2 ^ 32 by decide)
      split at hpos'
      · split at hpos' <;> omega
      · split at hpos' <;> omega
  · exact hgoing

/-- **Chunk arithmetic**: in a run whose steps meet their condition the arithmetic is in bounds, and
a step from there goes right and stays in bounds just if it meets its condition. -/
theorem chunk_arithmetic (h : (parsing cfg stats).Reach Moment.Fits m) :
    m.Sound ∧ ∀ a, (parsing cfg stats).Allowed m a →
      ((∃ m', (parsing cfg stats).step m a = .ok m' ∧ m'.Sound ∧ RightSize m m') ↔ m.Fits a) := by
  have hm : m.Inv := h.invariant inv_init fun s a s' hs ha hok hstep => by
    obtain ⟨s₁, hres, hinv, -⟩ := inv_step hs ha hok
    obtain rfl := Except.ok.inj (hres.symm.trans hstep)
    exact hinv
  refine ⟨hm.sound, fun a ha => ⟨?_, fun hfits => ?_⟩⟩
  · rintro ⟨m', hstep, hsound, hright⟩
    cases a with
    | read bytes => trivial
    | go =>
      intro hchunked
      cases hpoint : m.point with
      | idle => trivial
      | call size => exact fun hnone => sizeFits_of_right hm hpoint hchunked hnone hstep hright
      | data size => exact data_fits_of_sound hm hpoint hstep hsound
      | behind size consumed => trivial
  · obtain ⟨m', hstep, hinv, hright⟩ := inv_step hm ha hfits
    exact ⟨m', hstep, hinv.sound, hright⟩

end run

def oneClient : System Moment ParserAct Fault :=
  parsing ⟨false, 10⟩ (workerNew ⟨false, 10⟩ 1 1).stats

/-- A response whose first chunk has five bytes. -/
theorem chunk_arithmetic_five :
    ∃ m m', oneClient.Reach Moment.Fits m ∧ m.point = .call 15 ∧ m.Sound ∧
      m.go = .ok m' ∧ m'.Sound ∧ RightSize m m' := by
  obtain ⟨m, hread, hpoint, hfits⟩ : ∃ m, oneClient.step oneClient.init
      (.read "HTTP/1.1 200 OK\r\nTransfer-Encoding: chunked\r\n\r\n5\r\nhello\r\n0\r\n\r\n".toList) = .ok m ∧
      m.point = .call 15 ∧ m.Fits .go := by
    refine ⟨_, rfl, ?_, ?_⟩
    · rfl
    · exact fun _ _ => .inr ⟨⟨nofun, List.all_eq_true.mp rfl⟩, by decide, by decide⟩
  have hreach : oneClient.Reach Moment.Fits m :=
    .step (a := .read _) .init ⟨rfl, rfl, by decide, by decide⟩ trivial hread
  obtain ⟨hsound, hgo⟩ := chunk_arithmetic hreach
  have hrunning : m.point ≠ .idle := hpoint ▸ nofun
  obtain ⟨m', hstep, hsound', hright⟩ := (hgo .go hrunning).mpr hfits
  exact ⟨m, m', hreach, hpoint, hsound, hstep, hsound', hright⟩

/-- A chunk whose size is no hexadecimal number. -/
theorem chunk_size_letter :
    ∃ m m', oneClient.Reach Moment.Fits m ∧ m.go = .ok m' ∧ m'.conn.client.chunkSize = 16 ∧
      m'.conn.client.state = .reading ∧ ¬ RightSize m m' := by
  refine ⟨_, _, .step (a := .read
    "HTTP/1.1 200 OK\r\nTransfer-Encoding: chunked\r\n\r\nG\r\n0123456789abcdef\r\n0\r\n\r\n".toList)
    .init ⟨rfl, rfl, by decide, by decide⟩ trivial rfl, rfl, rfl, rfl, fun hright => ?_⟩
  obtain ⟨⟨-, hall⟩, -⟩ := hright _ rfl rfl rfl nofun
  exact absurd (hall 'G' (by decide)) (by decide)

end Weighttp
