import ReadingComment.Lib.Run
import ReadingComment.Spserver.HttpMsg

/-!
# What the HTTP parser reads (`spserver/sphttpmsg.cpp`)

`append` once more, with the places in the buffer that it reads. It goes through one buffer with
`parsedLen`; what is left of it, and the lengths that the message names, are places and lengths in
this buffer, and a read outside of it is a fault. The sum of the length of a chunk and of its line
is an `int`, which wraps around; without that the parser is the one in `HttpMsg`.
-/

namespace Spserver

open Lib List

/-- What goes wrong in `append`. -/
inductive ReadFault where
  /-- a `NULL` string is dereferenced or passed to a setter -/
  | nullString
  /-- bytes are read that are not in the buffer -/
  | outside
  /-- the content of the message and its NUL do not fit into an `int` -/
  | contentOverflow
  deriving DecidableEq, Repr

def HttpFault.atRead : HttpFault → ReadFault
  | .nullString => .nullString
  | .lengthOverflow => .contentOverflow

def ReadFault.toHttp : ReadFault → HttpFault
  | .nullString => .nullString
  | .outside => .lengthOverflow
  | .contentOverflow => .lengthOverflow

namespace HttpMsgParser

def span (buffer : List Char) (place : ℕ) (len : ℤ) : Except ReadFault (List Char) :=
  if 0 ≤ len ∧ place + len ≤ buffer.length then .ok ((buffer.drop place).take len.toNat)
  else .error .outside

/-- The loop of `append` over the header lines. -/
def parseHeadersAt : ℕ → HttpMessage → List Char → ℕ → Except ReadFault (HttpMessage × Status × ℕ)
  | 0, message, _, parsedLen => .ok (message, .header, parsedLen)
  | fuel + 1, message, buffer, parsedLen =>
    if parsedLen < buffer.length then do
      let bytes ← span buffer parsedLen (buffer.length - parsedLen)
      let (message, headerLen) ← (parseHeader message bytes).mapError HttpFault.atRead
      let ch ← span buffer parsedLen 1
      if ch.any isBreak then .ok (message, .content, parsedLen + headerLen)
      else if headerLen = 0 then .ok (message, .header, parsedLen)
      else parseHeadersAt fuel message buffer (parsedLen + headerLen)
    else .ok (message, .header, parsedLen)

/-- `parseChunked`. -/
def parseChunkedAt : ℕ → HttpMessage → List Char → ℕ → Except ReadFault (HttpMessage × Status × ℕ)
  | 0, message, _, parsedLen => .ok (message, .content, parsedLen)
  | fuel + 1, message, buffer, parsedLen => do
    let (lineLen, chunkSize) ← getLine <$> span buffer parsedLen (buffer.length - parsedLen)
    let contentLen := toInt (strtol 16 chunkSize)
    if 0 < contentLen then
      if toInt (contentLen + lineLen) < buffer.length - parsedLen then do
        let (emptyLen, _) ← getLine <$> span buffer (parsedLen + lineLen + contentLen.toNat)
          (buffer.length - parsedLen - lineLen - contentLen)
        if 0 < emptyLen then do
          let content ← span buffer (parsedLen + lineLen) contentLen
          let message ← (message.appendContent content).mapError HttpFault.atRead
          parseChunkedAt fuel message buffer (parsedLen + lineLen + contentLen.toNat + emptyLen)
        else .ok (message, .content, parsedLen)
      else .ok (message, .content, parsedLen)
    else if contentLen = 0 ∧ 0 < lineLen then .ok (message, .completed, parsedLen + lineLen)
    else .ok (message, .content, parsedLen)

/-- `parseContent`. -/
def parseContentAt (message : HttpMessage) (buffer : List Char) (parsedLen : ℕ) :
    Except ReadFault (HttpMessage × Status × ℕ) := do
  let contentLen := contentLength message
  let n := if 0 < contentLen ∧ contentLen ≤ buffer.length - parsedLen then contentLen.toNat else 0
  let message ← if 0 < n then do
      let content ← span buffer parsedLen n
      (message.appendContent content).mapError HttpFault.atRead
    else .ok message
  .ok (message, if contentLen = message.content.length then .completed else .content, parsedLen + n)

/-- The part of `append` after the header lines. -/
def parseBodyAt (ignoreContent : Bool) (message : HttpMessage) (status : Status)
    (buffer : List Char)
    (parsedLen : ℕ) : Except ReadFault (HttpMessage × Status × ℕ) := do
  let status := if message.isResponse ∧ status = .content ∧ ignoreContent then .completed
    else status
  let (message, status, parsedLen) ←
    if status = .content then
      if isChunked message then parseChunkedAt (buffer.length + 1) message buffer parsedLen
      else parseContentAt message buffer parsedLen
    else .ok (message, status, parsedLen)
  .ok (if status = .completed then postProcess message else message, status, parsedLen)

/-- The part of `append` after the start line. -/
def parseRestAt (parser : HttpMsgParser) (message : HttpMessage) (buffer : List Char)
    (parsedLen : ℕ) :
    Except ReadFault (HttpMsgParser × ℕ) := do
  let (message, status, parsedLen) ←
    if parser.status = .header then parseHeadersAt (buffer.length + 1) message buffer parsedLen
    else .ok (message, parser.status, parsedLen)
  let (message, status,
    parsedLen) ← parseBodyAt parser.ignoreContent message status buffer parsedLen
  .ok ({ parser with message := some message, status := status }, parsedLen)

/-- `append`, with what it reads. -/
def appendAt (parser : HttpMsgParser) (buffer : List Char) : Except ReadFault (HttpMsgParser × ℕ) :=
  if parser.status = .completed then .ok (parser, 0)
  else
    match parser.message with
    | some message => parseRestAt parser message buffer 0
    | none => do
      let (message, lineLen) ← (parseStartLine buffer).mapError HttpFault.atRead
      match message with
      | none => .ok (parser, 0)
      | some message => parseRestAt { parser with status := .header } message buffer lineLen

/-! ## The places are those of the lists -/

section places

variable {buffer : List Char} {k : ℕ}

theorem span_rest (hk : k ≤ buffer.length) :
    span buffer k (buffer.length - k) = .ok (buffer.drop k) := by
  have hlen : ((buffer.length : ℤ) - k).toNat = (buffer.drop k).length := by
    rw [length_drop]
    omega
  rw [span, if_pos (by omega), hlen, take_length]

theorem span_inside {len : ℤ} (hlen : 0 ≤ len) (hin : k + len ≤ buffer.length) :
    span buffer k len = .ok ((buffer.drop k).take len.toNat) := if_pos ⟨hlen, hin⟩

theorem span_outside {len : ℤ} (h : len < 0 ∨ buffer.length < k + len) :
    span buffer k len = .error .outside := if_neg (by omega)

theorem lineLen_le (s : List Char) : lineLen s ≤ s.length := by
  induction s with
  | nil => exact le_rfl
  | cons c s ih =>
    rw [lineLen, length_cons]
    split_ifs <;> omega

end places

/-- What a part of the parser makes of the rest of the buffer, with the place that it came to. -/
def moved {α : Type} (k : ℕ) (r : α × Status × ℕ) : α × Status × ℕ := (r.1, r.2.1, k + r.2.2)

theorem mapError_atRead {α : Type} (r : Except HttpFault α) :
    (r.mapError HttpFault.atRead).mapError ReadFault.toHttp = r := by
  cases r with
  | error e => cases e <;> rfl
  | ok a => rfl

theorem toHttp_bind {α β γ δ : Type} {x : Except ReadFault α} {y : Except HttpFault β} {f : β → α}
    {g : α → Except ReadFault γ} {g' : β → Except HttpFault δ} {f' : δ → γ}
    (h : x.mapError ReadFault.toHttp = y.map f)
    (hg : ∀ b, y = .ok b → (g (f b)).mapError ReadFault.toHttp = (g' b).map f') :
    (x >>= g).mapError ReadFault.toHttp = (y >>= g').map f' := by
  cases y with
  | error e =>
    cases x with
    | error e' => exact congrArg Except.error (Except.error.inj h)
    | ok a => cases h
  | ok b =>
    cases x with
    | error e' => cases h
    | ok a =>
      cases h
      exact hg b rfl

variable {b : List Char}

theorem parseHeader_length {message message' : HttpMessage} {n : ℕ}
    (h : parseHeader message b = .ok (message', n)) : n = lineLen b := by
  rw [parseHeader] at h
  split at h
  · rename_i hzero
    cases h
    exact hzero.symm
  · obtain ⟨m, -, hm⟩ := bind_eq_ok h
    exact (Prod.mk.inj (Except.ok.inj hm)).2.symm

theorem parseStartLine_length {message : Option HttpMessage} {n : ℕ}
    (h : parseStartLine b = .ok (message, n)) : n = lineLen b := by
  rw [parseStartLine] at h
  split at h
  · rename_i hzero
    cases h
    exact hzero.symm
  · obtain ⟨m, -, hm⟩ := bind_eq_ok h
    exact (Prod.mk.inj (Except.ok.inj hm)).2.symm

theorem parseHeaders_le {fuel : ℕ} {message message' : HttpMessage} {status : Status} {n : ℕ}
    (h : parseHeaders fuel message b = .ok (message', status, n)) : n ≤ b.length := by
  induction fuel generalizing message b n with
  | zero =>
    obtain ⟨-, -, rfl⟩ := by simpa [parseHeaders] using h
    exact Nat.zero_le _
  | succ fuel ih =>
    cases b with
    | nil =>
      obtain ⟨-, -, rfl⟩ := by simpa [parseHeaders] using h
      exact Nat.zero_le _
    | cons ch cs =>
      rw [parseHeaders] at h
      obtain ⟨⟨message₁, n₁⟩, hparse, h⟩ := bind_eq_ok h
      have hle := lineLen_le (ch :: cs)
      rw [← parseHeader_length hparse] at hle
      dsimp only at h
      split at h
      · obtain ⟨-, -, rfl⟩ : message₁ = message' ∧ _ ∧ n₁ = n := by simpa using h
        exact hle
      · split at h
        · obtain ⟨-, -, rfl⟩ : message₁ = message' ∧ _ ∧ 0 = n := by simpa using h
          exact Nat.zero_le _
        · obtain ⟨⟨message₂, status₂, n₂⟩, hrec, h⟩ := bind_eq_ok h
          obtain ⟨rfl, rfl, rfl⟩ :
              message₂ = message' ∧ status₂ = status ∧ n₁ + n₂ = n := by simpa using h
          have hrest := ih hrec
          rw [length_drop] at hrest
          omega

/-- **The header lines** are read inside the buffer. -/
theorem parseHeadersAt_eq {fuel : ℕ} {buffer : List Char} {k : ℕ} (hk : k ≤ buffer.length)
    (message : HttpMessage) :
    parseHeadersAt fuel message buffer k =
      ((parseHeaders fuel message (buffer.drop k)).map (moved k)).mapError HttpFault.atRead := by
  induction fuel generalizing k message with
  | zero => rfl
  | succ fuel ih =>
    rw [parseHeadersAt]
    by_cases hlt : k < buffer.length
    · obtain ⟨ch, cs, hrest⟩ :=
        exists_cons_of_length_pos (l := buffer.drop k) (by rw [length_drop]; omega)
      have hone : span buffer k 1 = .ok [ch] := by
        rw [span_inside (by decide) (by omega), hrest]
        rfl
      rw [if_pos hlt, span_rest hk, hone, hrest, parseHeaders]
      dsimp only [bind, Except.bind]
      cases hparse : parseHeader message (ch :: cs) with
      | error e => rfl
      | ok r =>
        obtain ⟨message₁, n⟩ := r
        have hn : k + n ≤ buffer.length := by
          have hle := lineLen_le (buffer.drop k)
          rw [hrest, ← parseHeader_length hparse, ← hrest, length_drop] at hle
          omega
        have hdrop : (ch :: cs).drop n = buffer.drop (k + n) := by rw [← hrest, drop_drop]
        have hbreak : [ch].any isBreak = isBreak ch := Bool.or_false _
        dsimp only [Except.mapError]
        rw [hbreak, hdrop]
        split
        · rfl
        · split
          · rfl
          · rw [ih hn]
            cases parseHeaders fuel message₁ (buffer.drop (k + n)) with
            | error e => rfl
            | ok r => exact congrArg (fun i => Except.ok (r.1, r.2.1, i)) (Nat.add_assoc k n r.2.2)
    · rw [if_neg hlt, drop_eq_nil_of_le (Nat.le_of_not_lt hlt)]
      rfl

theorem parseHeaders_fuel {fuel fuel' : ℕ} (h : b.length < fuel) (h' : b.length < fuel')
    (message : HttpMessage) : parseHeaders fuel message b = parseHeaders fuel' message b := by
  induction fuel generalizing fuel' b message with
  | zero => exact absurd h (Nat.not_lt_zero _)
  | succ fuel ih =>
    obtain ⟨fuel', rfl⟩ : ∃ n, fuel' = n + 1 := ⟨fuel' - 1, by omega⟩
    cases b with
    | nil => rfl
    | cons ch cs =>
      rw [parseHeaders, parseHeaders]
      refine bind_congr fun r => ?_
      obtain ⟨message₁, n⟩ := r
      dsimp only
      split
      · rfl
      · split
        · rfl
        · rename_i hn
          have hlen : ((ch :: cs).drop n).length < (ch :: cs).length := by
            rw [length_drop, length_cons]
            omega
          rw [ih (Nat.lt_of_lt_of_le hlen (Nat.le_of_lt_succ h))
            (Nat.lt_of_lt_of_le hlen (Nat.le_of_lt_succ h'))]

/-! ## Chunks -/

theorem toInt_of_lt {n : ℤ} (h0 : -2 ^ 31 ≤ n) (h : n < 2 ^ 31) : toInt n = n :=
  Int.bmod_eq_of_le (by omega) (by omega)

def chunkSize (b : List Char) : ℤ := toInt (strtol 16 (getLine b).2)

def chunkEnd (b : List Char) : ℕ := lineLen b + (chunkSize b).toNat

/-- Where the next chunk begins, behind the line end after the data. -/
def nextChunk (b : List Char) : ℕ := chunkEnd b + lineLen (b.drop (chunkEnd b))

theorem chunkSize_lt (b : List Char) : chunkSize b < 2 ^ 31 := by
  have := Int.bmod_lt (x := strtol 16 (getLine b).2) (m := 2 ^ 32) (by decide)
  rw [chunkSize, toInt]
  omega

theorem parseChunked_succ (fuel : ℕ) (message : HttpMessage) (b : List Char) :
    parseChunked (fuel + 1) message b =
      if 0 < chunkSize b then
        if 2 ^ 31 ≤ chunkEnd b then .error .lengthOverflow
        else if chunkEnd b < b.length ∧ 0 < lineLen (b.drop (chunkEnd b)) then do
          let message ← message.appendContent ((b.drop (lineLen b)).take (chunkSize b).toNat)
          let (message, status, n) ← parseChunked fuel message (b.drop (nextChunk b))
          .ok (message, status, nextChunk b + n)
        else .ok (message, .content, 0)
      else if chunkSize b = 0 ∧ 0 < lineLen b then .ok (message, .completed, lineLen b)
      else .ok (message, .content, 0) := by
  rw [parseChunked]
  rfl

theorem parseChunked_fuel {fuel fuel' : ℕ} (h : b.length < fuel) (h' : b.length < fuel')
    (message : HttpMessage) : parseChunked fuel message b = parseChunked fuel' message b := by
  induction fuel generalizing fuel' b message with
  | zero => exact absurd h (Nat.not_lt_zero _)
  | succ fuel ih =>
    obtain ⟨fuel', rfl⟩ : ∃ n, fuel' = n + 1 := ⟨fuel' - 1, by omega⟩
    rw [parseChunked_succ, parseChunked_succ]
    split
    · split
      · rfl
      · split
        · rename_i hfull
          refine bind_congr fun message₁ => ?_
          have hlen : (b.drop (nextChunk b)).length < b.length := by
            rw [length_drop, nextChunk]
            omega
          rw [ih (Nat.lt_of_lt_of_le hlen (Nat.le_of_lt_succ h))
            (Nat.lt_of_lt_of_le hlen (Nat.le_of_lt_succ h'))]
        · rfl
    · rfl

section chunk

variable {fuel : ℕ} {buffer : List Char} {k : ℕ} (hk : k ≤ buffer.length)
  (hlen : buffer.length < 2 ^ 31)

include hk

theorem parseChunkedAt_succ (fuel : ℕ) (message : HttpMessage) :
    parseChunkedAt (fuel + 1) message buffer k =
      if 0 < chunkSize (buffer.drop k) then
        if toInt (chunkSize (buffer.drop k) + lineLen (buffer.drop k)) < buffer.length - k then do
          let (emptyLen, _) ← getLine <$> span buffer
            (k + lineLen (buffer.drop k) + (chunkSize (buffer.drop k)).toNat)
            (buffer.length - k - lineLen (buffer.drop k) - chunkSize (buffer.drop k))
          if 0 < emptyLen then do
            let content ← span buffer (k + lineLen (buffer.drop k)) (chunkSize (buffer.drop k))
            let message ← (message.appendContent content).mapError HttpFault.atRead
            parseChunkedAt fuel message buffer
              (k + lineLen (buffer.drop k) + (chunkSize (buffer.drop k)).toNat + emptyLen)
          else .ok (message, .content, k)
        else .ok (message, .content, k)
      else if chunkSize (buffer.drop k) = 0 ∧ 0 < lineLen (buffer.drop k) then
        .ok (message, .completed, k + lineLen (buffer.drop k))
      else .ok (message, .content, k) := by
  rw [parseChunkedAt, span_rest hk]
  rfl

include hlen

/-- A chunk whose size and line do not fit into an `int`: the sum is negative, and what is behind
the chunk is looked for behind the buffer. -/
theorem parseChunkedAt_over (message : HttpMessage) (hpos : 0 < chunkSize (buffer.drop k))
    (hover : 2 ^ 31 ≤ chunkEnd (buffer.drop k)) :
    parseChunkedAt (fuel + 1) message buffer k = .error .outside := by
  have hline := lineLen_le (buffer.drop k)
  rw [length_drop] at hline
  have hlt := chunkSize_lt (buffer.drop k)
  rw [chunkEnd] at hover
  have hneg : toInt (chunkSize (buffer.drop k) + lineLen (buffer.drop k)) < buffer.length - k := by
    rw [toInt, Int.bmod_eq_emod]
    split <;> omega
  rw [parseChunkedAt_succ hk, if_pos hpos, if_pos hneg, span_outside (.inl (by omega))]
  rfl

example :
    parseChunkedAt 2 ⟨.response 200 [], [], [], []⟩ "7fffffff\r\n".toList 0 = .error .outside := by
  decide +kernel

omit hlen in
theorem parseChunkedAt_fits (message : HttpMessage) (hpos : 0 < chunkSize (buffer.drop k))
    (hfits : chunkEnd (buffer.drop k) < 2 ^ 31) :
    parseChunkedAt (fuel + 1) message buffer k =
      if chunkEnd (buffer.drop k) < (buffer.drop k).length ∧
          0 < lineLen ((buffer.drop k).drop (chunkEnd (buffer.drop k))) then do
        let message ← (message.appendContent (((buffer.drop k).drop (lineLen (buffer.drop k))).take
          (chunkSize (buffer.drop k)).toNat)).mapError HttpFault.atRead
        parseChunkedAt fuel message buffer (k + nextChunk (buffer.drop k))
      else .ok (message, .content, k) := by
  have hsum : toInt (chunkSize (buffer.drop k) + lineLen (buffer.drop k)) =
      chunkSize (buffer.drop k) + lineLen (buffer.drop k) := by
    rw [chunkEnd] at hfits
    exact toInt_of_lt (by omega) (by omega)
  have hguard : chunkSize (buffer.drop k) + lineLen (buffer.drop k) < buffer.length - k ↔
      chunkEnd (buffer.drop k) < (buffer.drop k).length := by
    rw [chunkEnd, length_drop]
    omega
  rw [parseChunkedAt_succ hk, if_pos hpos, hsum]
  by_cases hthere : chunkEnd (buffer.drop k) < (buffer.drop k).length
  · have hthere' := hthere
    rw [chunkEnd, length_drop] at hthere'
    have hempty : span buffer (k + lineLen (buffer.drop k) + (chunkSize (buffer.drop k)).toNat)
        (buffer.length - k - lineLen (buffer.drop k) - chunkSize (buffer.drop k)) =
          .ok ((buffer.drop k).drop (chunkEnd (buffer.drop k))) := by
      have hrest := @span_rest buffer
        (k + lineLen (buffer.drop k) + (chunkSize (buffer.drop k)).toNat) (by omega)
      rw [show (buffer.length : ℤ) - k - lineLen (buffer.drop k) - chunkSize (buffer.drop k) =
        buffer.length - (k + lineLen (buffer.drop k) +
          (chunkSize (buffer.drop k)).toNat : ℕ) by omega, hrest,
        drop_drop, chunkEnd, Nat.add_assoc]
    have hdata : span buffer (k + lineLen (buffer.drop k)) (chunkSize (buffer.drop k)) =
        .ok (((buffer.drop k).drop (lineLen (buffer.drop k))).take
          (chunkSize (buffer.drop k)).toNat) := by
      rw [span_inside hpos.le (by omega), drop_drop]
    rw [if_pos (hguard.mpr hthere), hempty, hdata]
    by_cases hline : 0 < lineLen ((buffer.drop k).drop (chunkEnd (buffer.drop k)))
    · rw [if_pos ⟨hthere, hline⟩]
      refine (if_pos hline).trans ?_
      dsimp only [bind, Except.bind]
      refine bind_congr (m := Except ReadFault) fun message₁ => ?_
      have hnext : k + lineLen (buffer.drop k) + (chunkSize (buffer.drop k)).toNat +
          lineLen ((buffer.drop k).drop (chunkEnd (buffer.drop k))) =
            k + nextChunk (buffer.drop k) := by
        rw [nextChunk, chunkEnd]
        omega
      exact congrArg (parseChunkedAt fuel message₁ buffer) hnext
    · rw [if_neg fun h => hline h.2]
      exact if_neg hline
  · rw [if_neg fun h => hthere (hguard.mp h), if_neg fun h => hthere h.1]

/-- **A chunked body** is read inside the buffer, or a chunk with its line is too long for an `int`.
-/
theorem parseChunkedAt_eq (message : HttpMessage) :
    (parseChunkedAt fuel message buffer k).mapError ReadFault.toHttp =
      (parseChunked fuel message (buffer.drop k)).map (moved k) := by
  induction fuel generalizing k message with
  | zero => rfl
  | succ fuel ih =>
    rw [parseChunked_succ]
    by_cases hpos : 0 < chunkSize (buffer.drop k)
    · rw [if_pos hpos]
      by_cases hover : 2 ^ 31 ≤ chunkEnd (buffer.drop k)
      · rw [if_pos hover, parseChunkedAt_over hk hlen message hpos hover]
        rfl
      · rw [if_neg hover, parseChunkedAt_fits hk message hpos (Nat.lt_of_not_le hover)]
        split
        · rename_i hfull
          cases message.appendContent (((buffer.drop k).drop (lineLen (buffer.drop k))).take
              (chunkSize (buffer.drop k)).toNat) with
          | error e => cases e <;> rfl
          | ok message₁ =>
            have hnext : k + nextChunk (buffer.drop k) ≤ buffer.length := by
              have hle := lineLen_le ((buffer.drop k).drop (chunkEnd (buffer.drop k)))
              rw [length_drop, length_drop] at hle
              rw [length_drop] at hfull
              rw [nextChunk]
              omega
            have hrec := ih hnext message₁
            rw [← drop_drop] at hrec
            refine hrec.trans ?_
            dsimp only [bind, Except.bind]
            cases parseChunked fuel message₁ ((buffer.drop k).drop (nextChunk (buffer.drop k))) with
            | error e => rfl
            | ok r =>
              exact congrArg (fun i => Except.ok (r.1, r.2.1, i))
                (Nat.add_assoc k (nextChunk (buffer.drop k)) r.2.2)
        · rfl
    · rw [parseChunkedAt_succ hk, if_neg hpos, if_neg hpos]
      split <;> rfl

end chunk

/-! ## The parser is the one that takes lists -/

theorem parseContentAt_eq {buffer : List Char} {k : ℕ} (hk : k ≤ buffer.length)
    (message : HttpMessage) :
    parseContentAt message buffer k =
      ((parseContent message (buffer.drop k)).map (moved k)).mapError HttpFault.atRead := by
  have hguard :
      contentLength message ≤ buffer.length - k ↔
        contentLength message ≤ (buffer.drop k).length := by
    rw [length_drop]
    omega
  rw [parseContentAt, parseContent]
  dsimp only
  simp only [hguard]
  generalize hn :
      (if 0 < contentLength message ∧ contentLength message ≤ (buffer.drop k).length then
    (contentLength message).toNat else 0) = n
  by_cases hpos : 0 < n
  · have hle : n ≤ (buffer.drop k).length := by
      split at hn <;> omega
    have hspan : span buffer k n = .ok ((buffer.drop k).take n) := by
      rw [length_drop] at hle
      exact span_inside (Int.natCast_nonneg n) (by omega)
    rw [if_pos hpos, if_pos hpos, hspan]
    dsimp only [bind, Except.bind]
    cases message.appendContent ((buffer.drop k).take n) with
    | error e => rfl
    | ok message₁ => rfl
  · rw [if_neg hpos, if_neg hpos]
    rfl

section refine

variable {buffer : List Char} {k : ℕ} (hk : k ≤ buffer.length) (hlen : buffer.length < 2 ^ 31)

include hk hlen

theorem parseBodyAt_eq (ignoreContent : Bool) (message : HttpMessage) (status : Status) :
    (parseBodyAt ignoreContent message status buffer k).mapError ReadFault.toHttp =
      (parseBody ignoreContent message status (buffer.drop k)).map (moved k) := by
  rw [parseBodyAt, parseBody]
  dsimp only
  generalize (if message.isResponse ∧ status = .content ∧
    ignoreContent then Status.completed else status) = st
  split
  · split
    · have hfuel : parseChunked ((buffer.drop k).length + 1) message (buffer.drop k) =
          parseChunked (buffer.length + 1) message (buffer.drop k) :=
        parseChunked_fuel (Nat.lt_succ_self _) (by rw [length_drop]; omega) message
      rw [hfuel]
      refine toHttp_bind (parseChunkedAt_eq hk hlen message) fun r _ => ?_
      obtain ⟨message₁, status₁, n⟩ := r
      rfl
    · rw [parseContentAt_eq hk message]
      refine toHttp_bind (mapError_atRead _) fun r _ => ?_
      obtain ⟨message₁, status₁, n⟩ := r
      rfl
  · rfl

theorem parseRestAt_eq (parser : HttpMsgParser) (message : HttpMessage) :
    (parseRestAt parser message buffer k).mapError ReadFault.toHttp =
      (parseRest parser message (buffer.drop k)).map fun r => (r.1, k + r.2) := by
  have hbody {n : ℕ} (hn : n ≤ (buffer.drop k).length) (message : HttpMessage) (status : Status) :
      (do
        let (message, status, parsedLen) ←
          parseBodyAt parser.ignoreContent message status buffer (k + n)
        .ok ({ parser with message := some message, status := status },
          parsedLen)).mapError ReadFault.toHttp =
      (do
        let (message, status, n') ← parseBody parser.ignoreContent message status
          ((buffer.drop k).drop n)
        .ok ({ parser with message := some message, status := status }, n + n')).map
          fun (r : HttpMsgParser × ℕ) => (r.1, k + r.2) := by
    rw [length_drop] at hn
    rw [drop_drop]
    refine toHttp_bind (parseBodyAt_eq (by omega) hlen _ message status) fun r _ => ?_
    obtain ⟨message₁, status₁, n'⟩ := r
    exact congrArg (fun i => Except.ok (_, i)) (Nat.add_assoc k n n')
  rw [parseRestAt, parseRest]
  split
  · have hfuel : parseHeaders ((buffer.drop k).length + 1) message (buffer.drop k) =
        parseHeaders (buffer.length + 1) message (buffer.drop k) :=
      parseHeaders_fuel (Nat.lt_succ_self _) (by rw [length_drop]; omega) message
    rw [hfuel, parseHeadersAt_eq hk]
    refine toHttp_bind (mapError_atRead _) fun r hr => ?_
    obtain ⟨message₁, status₁, n⟩ := r
    exact hbody (parseHeaders_le hr) message₁ status₁
  · exact hbody (Nat.zero_le _) message parser.status

end refine

/-- **The parser that is given lists** does what `append` does, where no place is outside of the
buffer. -/
theorem appendAt_eq {buffer : List Char} (hlen : buffer.length < 2 ^ 31) (parser : HttpMsgParser) :
    (appendAt parser buffer).mapError ReadFault.toHttp = append parser buffer := by
  have hid (r : Except HttpFault (HttpMsgParser × ℕ)) : r.map (fun r => (r.1, 0 + r.2)) = r := by
    cases r with
    | error e => rfl
    | ok r => exact congrArg (fun i => Except.ok (r.1, i)) (Nat.zero_add r.2)
  obtain ⟨_ | message, status, ignoreContent⟩ := parser
  · rw [appendAt, append]
    split
    · rfl
    · dsimp only
      cases hline : parseStartLine buffer with
      | error e => cases e <;> rfl
      | ok r =>
        obtain ⟨_ | message, n⟩ := r
        · rfl
        · have hn : n ≤ buffer.length := parseStartLine_length hline ▸ lineLen_le buffer
          refine (parseRestAt_eq hn hlen ⟨none, .header, ignoreContent⟩ message).trans ?_
          dsimp only [bind, Except.bind]
          cases parseRest ⟨none, .header, ignoreContent⟩ message (buffer.drop n) with
          | error e => rfl
          | ok r => rfl
  · rw [appendAt, append]
    split
    · rfl
    · exact (parseRestAt_eq (Nat.zero_le _) hlen ⟨some message, status,
        ignoreContent⟩ message).trans (hid _)

end HttpMsgParser

end Spserver
