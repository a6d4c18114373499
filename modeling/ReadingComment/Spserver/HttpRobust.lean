import ReadingComment.Spserver.HttpReads

/-!
# Robust parsing (`spserver/sphttpmsg.cpp`)

When `append` neither passes a `NULL` on nor reads outside of the buffer. There must be something
behind the second space of the start line and behind the colon of a header line that is parsed,
other than line ends: `strtok` finds nothing there. And a chunk with its line must fit into an
`int`.
-/

namespace Spserver

open Lib List

/-! ## What is meant -/

/-- There is something for `strtok` to find. -/
def hasText (s : List Char) : Bool := s.any (! isBreak ·)

/-- What is behind the second space of a start line, if there are two, is not empty. -/
def startFits (line : List Char) : Bool :=
  (strsep ' ' (strsep ' ' (some (cstr line))).2).2.all hasText

/-- What is behind the colon of a header line, if there is one, is not empty. -/
def headerFits (line : List Char) : Bool := (strsep ':' (some (cstr line))).2.all hasText

def responseLine (line : List Char) : Bool :=
  caseEq (((strsep ' ' (some (cstr line))).1.getD []).take 4) "HTTP".toList

def headerOf (line : List Char) : Option (List Char × List Char) :=
  match strsep ':' (some (cstr line)) with
  | (some name, some pos) => (strtok pos).map fun value => (name, value.dropWhile (· == ' '))
  | _ => none

/-- The lines of a header, with the one that begins like a blank line, and what is behind that. -/
def headerLines : ℕ → List Char → List (List Char) × Option (List Char)
  | 0, _ => ([], none)
  | _ + 1, [] => ([], none)
  | fuel + 1, ch :: cs =>
    let line := (ch :: cs).take (lineLen (ch :: cs))
    let rest := (ch :: cs).drop (lineLen (ch :: cs))
    if isBreak ch then ([line], some rest)
    else if lineLen (ch :: cs) = 0 then ([], none)
    else (line :: (headerLines fuel rest).1, (headerLines fuel rest).2)

namespace HttpMsgParser

def chunkedIn (headers : List (List Char × List Char)) : Bool :=
  (headerValue headers "Transfer-Encoding".toList).any (caseEq · "chunked".toList)

/-- Each chunk up to the first that is not complete, or that the content of the message has no room
for, fits into an `int` together with its line. -/
def ChunksFit : ℕ → ℕ → List Char → Prop
  | 0, _, _ => True
  | fuel + 1, content, b => 0 < chunkSize b → chunkEnd b < 2 ^ 31 ∧
      (chunkEnd b < b.length → 0 < lineLen (b.drop (chunkEnd b)) →
        content + (chunkSize b).toNat + 1 < 2 ^ 31 →
        ChunksFit fuel (content + (chunkSize b).toNat) (b.drop (nextChunk b)))

def BodyFits (fuel : ℕ) (ignored : Bool) (headers : List (List Char × List Char)) (content : ℕ)
    (b : List Char) : Prop :=
  ignored = false → chunkedIn headers = true → ChunksFit fuel content b

def RestFits (fuel : ℕ) (ignored : Bool) (headers : List (List Char × List Char)) (content : ℕ)
    (b : List Char) : Status → Prop
  | .header => (∀ line ∈ (headerLines fuel b).1, headerFits line = true) ∧
      ∀ rest ∈ (headerLines fuel b).2,
        BodyFits fuel ignored (headers ++ (headerLines fuel b).1.filterMap headerOf) content rest
  | .content => BodyFits fuel ignored headers content b
  | _ => True

/-- **The condition** for a call of `append`. -/
def Fits (parser : HttpMsgParser) (buffer : List Char) : Prop :=
  parser.status ≠ .completed →
    match parser.message with
    | some message =>
      RestFits (buffer.length + 1) (message.isResponse && parser.ignoreContent) message.headers
        message.content.length buffer parser.status
    | none => lineLen buffer ≠ 0 →
        startFits (buffer.take (lineLen buffer)) = true ∧
        RestFits (buffer.length + 1) (responseLine (buffer.take (lineLen buffer)) &&
          parser.ignoreContent) [] 0
          (buffer.drop (lineLen buffer)) .header

instance ChunksFit.decidable : ∀ fuel content b, Decidable (ChunksFit fuel content b)
  | 0, _, _ => isTrue trivial
  | fuel + 1, content, b =>
    have := ChunksFit.decidable fuel (content + (chunkSize b).toNat) (b.drop (nextChunk b))
    inferInstanceAs (Decidable (_ → _ ∧ (_ → _ → _ → _)))

instance (fuel : ℕ) (ignored : Bool) (headers : List (List Char × List Char)) (content : ℕ)
    (b : List Char) :
    Decidable (BodyFits fuel ignored headers content b) := inferInstanceAs (Decidable (_ → _ → _))

instance (fuel : ℕ) (ignored : Bool) (headers : List (List Char × List Char)) (content : ℕ)
    (b : List Char) :
    ∀ status, Decidable (RestFits fuel ignored headers content b status)
  | .header => inferInstanceAs (Decidable (_ ∧ ∀ rest ∈ (headerLines fuel b).2, _))
  | .content => inferInstanceAs (Decidable (BodyFits ..))
  | .startLine => isTrue trivial
  | .completed => isTrue trivial

instance (buffer : List Char) : ∀ parser, Decidable (Fits parser buffer)
  | ⟨some _, _, _⟩ => inferInstanceAs (Decidable (_ → RestFits ..))
  | ⟨none, _, _⟩ => inferInstanceAs (Decidable (_ → _ → _ ∧ _))

/-- No `NULL` was passed on, and nothing outside of the buffer was read. -/
def Inside {α : Type} (r : Except ReadFault α) : Prop := ∀ e, r = .error e → e = .contentOverflow

/-- **A call is robust**: no `NULL` is passed on, nothing is read outside of the buffer, and no more
is reported consumed than was given. -/
def Robust (parser : HttpMsgParser) (buffer : List Char) : Prop :=
  Inside (appendAt parser buffer) ∧ ∀ parser' n, appendAt parser buffer = .ok (parser', n) →
    n ≤ buffer.length

/-- What holds at each call, when the parser is fed with some pieces. -/
def Along (P : HttpMsgParser → List Char → Prop) : HttpMsgParser → List (List Char) → Prop
  | _, [] => True
  | parser, piece :: pieces => P parser piece ∧
      ∀ parser' n, appendAt parser piece = .ok (parser', n) → Along P parser' pieces

/-! ## Lines -/

theorem strtok_eq_none_iff {s : List Char} : strtok s = none ↔ hasText s = false := by
  rw [strtok, hasText]
  cases hs : s.dropWhile isBreak with
  | nil =>
    refine iff_of_true rfl ?_
    rw [any_eq_false]
    intro c hc
    simpa using dropWhile_eq_nil_iff.mp hs c hc
  | cons c cs =>
    refine iff_of_false (by rintro ⟨⟩) ?_
    have hc : c ∈ s := dropWhile_subset _ (hs ▸ mem_cons_self ..)
    have hstop := head_dropWhile isBreak s c (hs ▸ rfl)
    simpa using ⟨c, hc, hstop⟩

theorem lineRest_error {pos : Option (List Char)} (h : pos.all hasText = false) :
    lineRest pos = .error .nullString := by
  cases pos with
  | none => cases h
  | some s => rw [lineRest, strtok_eq_none_iff.mpr h]

theorem lineRest_ok {pos : Option (List Char)} (h : pos.all hasText = true) :
    ∃ text, lineRest pos = .ok text := by
  cases pos with
  | none => exact ⟨none, rfl⟩
  | some s =>
    obtain ⟨text, htext⟩ : ∃ text, strtok s = some text :=
      Option.ne_none_iff_exists'.mp fun hnone =>
        absurd (strtok_eq_none_iff.mp hnone) (Bool.not_eq_false _ ▸ h)
    exact ⟨some text, by rw [lineRest, htext]⟩

variable {line : List Char} {b : List Char} {fuel : ℕ} {buffer : List Char} {n : ℕ}

/-- **The start line.** -/
theorem startMessage_error (h : startFits line = false) :
    startMessage (cstr line) = .error .nullString := by
  rw [startMessage]
  dsimp only
  rw [lineRest_error h]
  split <;> rfl

theorem startMessage_ok (h : startFits line = true) :
    ∃ message, startMessage (cstr line) = .ok message ∧ message.headers = [] ∧
      message.content = [] ∧
      message.isResponse = responseLine line := by
  obtain ⟨text, htext⟩ := lineRest_ok h
  rw [startMessage, responseLine]
  dsimp only
  rw [htext]
  split
  · rename_i hresponse
    exact ⟨_, rfl, rfl, rfl, hresponse.symm⟩
  · rename_i hrequest
    exact ⟨_, rfl, rfl, rfl, (Bool.not_eq_true _ ▸ hrequest).symm⟩

def withHeaders (message : HttpMessage) (headers : List (List Char × List Char)) : HttpMessage :=
  { message with headers := message.headers ++ headers }

theorem withHeaders_nil (message : HttpMessage) : withHeaders message [] = message := by
  rw [withHeaders, append_nil]

theorem withHeaders_withHeaders (message : HttpMessage) (hs hs' : List (List Char × List Char)) :
    withHeaders (withHeaders message hs) hs' = withHeaders message (hs ++ hs') := by
  simp only [withHeaders, append_assoc]

/-- **A header line.** -/
theorem addHeaderLine_error (h : headerFits line = false) (message : HttpMessage) :
    addHeaderLine message (cstr line) = .error .nullString := by
  rw [headerFits] at h
  rcases strsep_cases ':' (cstr line) with hnone | ⟨name, pos, hline, hname⟩
  · rw [strsep_notMem hnone] at h
    cases h
  · rw [hline, strsep_append hname] at h
    rw [hline, addHeaderLine, strsep_append hname]
    dsimp only
    rw [strtok_eq_none_iff.mpr h]

theorem addHeaderLine_ok (h : headerFits line = true) (message : HttpMessage) :
    addHeaderLine message (cstr line) = .ok (withHeaders message (headerOf line).toList) := by
  rw [headerFits] at h
  rw [headerOf]
  rcases strsep_cases ':' (cstr line) with hnone | ⟨name, pos, hline, hname⟩
  · rw [addHeaderLine, strsep_notMem hnone]
    exact congrArg Except.ok (withHeaders_nil message).symm
  · rw [hline, strsep_append hname] at h
    rw [hline, addHeaderLine, strsep_append hname]
    dsimp only
    cases htext : strtok pos with
    | none =>
      rw [strtok_eq_none_iff] at htext
      exact absurd (htext.symm.trans h) nofun
    | some value => rfl

theorem parseHeader_error (h : headerFits (b.take (lineLen b)) = false) (message : HttpMessage) :
    parseHeader message b = .error .nullString := by
  rw [parseHeader]
  by_cases hzero : lineLen b = 0
  · rw [hzero, take_zero] at h
    cases h
  · rw [if_neg hzero, addHeaderLine_error h]
    rfl

theorem parseHeader_ok (h : headerFits (b.take (lineLen b)) = true) (message : HttpMessage) :
    parseHeader message b = .ok (withHeaders message (headerOf (b.take (lineLen b))).toList,
      lineLen b) := by
  rw [parseHeader]
  by_cases hzero : lineLen b = 0
  · rw [if_pos hzero, hzero, take_zero]
    exact congrArg (fun m => Except.ok (m, 0)) (withHeaders_nil message).symm
  · rw [if_neg hzero, addHeaderLine_ok h]
    rfl

/-- **The header lines**, when each of them has something behind its colon. -/
theorem parseHeaders_ok (h : ∀ line ∈ (headerLines fuel b).1, headerFits line = true)
    (message : HttpMessage) :
    ∃ n, parseHeaders fuel message b =
        .ok (withHeaders message ((headerLines fuel b).1.filterMap headerOf),
          (headerLines fuel b).2.elim .header fun _ => .content, n) ∧
      ∀ rest, (headerLines fuel b).2 = some rest → b.drop n = rest := by
  induction fuel generalizing b message with
  | zero =>
    exact ⟨0, congrArg (fun m => Except.ok (m, _, 0)) (withHeaders_nil message).symm,
      by rintro _ ⟨⟩⟩
  | succ fuel ih =>
    cases b with
    | nil =>
      exact ⟨0, congrArg (fun m => Except.ok (m, _, 0)) (withHeaders_nil message).symm,
        by rintro _ ⟨⟩⟩
    | cons ch cs =>
      rw [headerLines] at h ⊢
      rw [parseHeaders]
      dsimp only at h ⊢
      by_cases hbreak : isBreak ch = true
      · rw [if_pos hbreak] at h ⊢
        rw [parseHeader_ok (h _ (mem_cons_self ..))]
        refine ⟨lineLen (ch :: cs), ?_, fun rest hrest => Option.some.inj hrest⟩
        dsimp only [bind, Except.bind]
        rw [if_pos hbreak, filterMap_cons]
        cases headerOf ((ch :: cs).take (lineLen (ch :: cs))) <;> rfl
      · rw [if_neg hbreak] at h ⊢
        by_cases hzero : lineLen (ch :: cs) = 0
        · have hparse : parseHeader message (ch :: cs) = .ok (message, 0) := by
            rw [parseHeader, if_pos hzero]
          rw [if_pos hzero, hparse]
          dsimp only [bind, Except.bind]
          rw [if_neg hbreak, if_pos rfl]
          exact ⟨0,
            congrArg (fun m => Except.ok (m, _, 0)) (withHeaders_nil message).symm, by rintro _ ⟨⟩⟩
        · rw [if_neg hzero] at h ⊢
          obtain ⟨hline, hrest⟩ := forall_mem_cons.mp h
          rw [parseHeader_ok hline]
          dsimp only [bind, Except.bind]
          rw [if_neg hbreak, if_neg hzero]
          obtain ⟨n, hrec, hdrop⟩ :=
            ih hrest (withHeaders message (headerOf ((ch :: cs).take (lineLen (ch :: cs)))).toList)
          have hheaders : (headerOf ((ch :: cs).take (lineLen (ch :: cs)))).toList ++
              (headerLines fuel ((ch :: cs).drop (lineLen (ch :: cs)))).1.filterMap headerOf =
                ((ch :: cs).take (lineLen (ch :: cs)) ::
                  (headerLines fuel
                    ((ch :: cs).drop (lineLen (ch :: cs)))).1).filterMap headerOf := by
            rw [filterMap_cons]
            cases headerOf ((ch :: cs).take (lineLen (ch :: cs))) <;> rfl
          rw [hrec, withHeaders_withHeaders, hheaders]
          refine ⟨lineLen (ch :: cs) + n, rfl, fun rest h => ?_⟩
          rw [← drop_drop]
          exact hdrop rest h

theorem parseHeaders_error (h : ¬ ∀ line ∈ (headerLines fuel b).1, headerFits line = true)
    (message : HttpMessage) :
    parseHeaders fuel message b = .error .nullString := by
  induction fuel generalizing b message with
  | zero => exact absurd (fun line hline => by cases hline) h
  | succ fuel ih =>
    cases b with
    | nil => exact absurd (fun line hline => by cases hline) h
    | cons ch cs =>
      rw [headerLines] at h
      rw [parseHeaders]
      cases hline : headerFits ((ch :: cs).take (lineLen (ch :: cs))) with
      | false =>
        rw [parseHeader_error hline]
        rfl
      | true =>
        rw [parseHeader_ok hline]
        dsimp only [bind, Except.bind]
        by_cases hbreak : isBreak ch = true
        · rw [if_pos hbreak] at h
          refine absurd (fun line hmem => ?_) h
          rw [mem_singleton.mp hmem]
          exact hline
        · rw [if_neg hbreak] at h ⊢
          by_cases hzero : lineLen (ch :: cs) = 0
          · rw [if_pos hzero] at h
            exact absurd (fun line hline => by cases hline) h
          · rw [if_neg hzero] at h ⊢
            rw [forall_mem_cons] at h
            rw [ih fun hrest => h ⟨hline, hrest⟩]

/-! ## What is read -/

theorem Inside.ok {α : Type} (a : α) : Inside (.ok a) := nofun

theorem not_inside_null {α : Type} : ¬ Inside (.error .nullString : Except ReadFault α) :=
  fun h => nomatch h _ rfl

theorem not_inside_outside {α : Type} : ¬ Inside (.error .outside : Except ReadFault α) :=
  fun h => nomatch h _ rfl

theorem inside_bind {α β : Type} {x : Except ReadFault α} {f : α → Except ReadFault β} :
    Inside (x >>= f) ↔ Inside x ∧ ∀ a, x = .ok a → Inside (f a) := by
  cases x with
  | error e => exact ⟨fun h => ⟨fun e' he => h e' (congrArg _ (Except.error.inj he)), nofun⟩,
      fun h e' he => h.1 e' (congrArg _ (Except.error.inj he))⟩
  | ok a => exact ⟨fun h => ⟨.ok a, fun a' ha => Except.ok.inj ha ▸ h⟩, fun h => h.2 a rfl⟩

theorem appendContent_cases (message : HttpMessage) (content : List Char) :
    message.content.length + content.length + 1 < 2 ^ 31 ∧
        message.appendContent content = .ok { message with content := message.content ++ content } ∨
      ¬ message.content.length + content.length + 1 < 2 ^ 31 ∧
        message.appendContent content = .error .lengthOverflow := by
  rw [HttpMessage.appendContent]
  split
  · rename_i h
    exact .inl ⟨h, rfl⟩
  · rename_i h
    exact .inr ⟨h, rfl⟩

section

variable {k : ℕ} (hk : k ≤ buffer.length)

include hk

/-- **A chunked body.** -/
theorem inside_chunked (hlen : buffer.length < 2 ^ 31) (message : HttpMessage) :
    Inside (parseChunkedAt fuel message buffer k) ↔
    ChunksFit fuel message.content.length (buffer.drop k) := by
  induction fuel generalizing k message with
  | zero => exact iff_of_true (.ok _) trivial
  | succ fuel ih =>
    rw [ChunksFit]
    by_cases hpos : 0 < chunkSize (buffer.drop k)
    · rw [forall_prop_of_true hpos]
      by_cases hover : 2 ^ 31 ≤ chunkEnd (buffer.drop k)
      · rw [parseChunkedAt_over hk hlen message hpos hover]
        exact iff_of_false not_inside_outside fun h => absurd h.1 (Nat.not_lt_of_le hover)
      · have hlt := Nat.lt_of_not_le hover
        rw [parseChunkedAt_fits hk message hpos hlt]
        by_cases hfull : chunkEnd (buffer.drop k) < (buffer.drop k).length ∧
            0 < lineLen ((buffer.drop k).drop (chunkEnd (buffer.drop k)))
        · rw [if_pos hfull]
          have hdata : (((buffer.drop k).drop (lineLen (buffer.drop k))).take
              (chunkSize (buffer.drop k)).toNat).length = (chunkSize (buffer.drop k)).toNat := by
            have := hfull.1
            rw [chunkEnd] at this
            rw [length_take, length_drop]
            omega
          rcases appendContent_cases message (((buffer.drop k).drop (lineLen (buffer.drop k))).take
            (chunkSize (buffer.drop k)).toNat) with ⟨hroom, hok⟩ | ⟨hroom, herr⟩
          · rw [hok]
            rw [hdata] at hroom
            have hnext : k + nextChunk (buffer.drop k) ≤ buffer.length := by
              have hle := lineLen_le ((buffer.drop k).drop (chunkEnd (buffer.drop k)))
              rw [length_drop, length_drop] at hle
              have := hfull.1
              rw [length_drop] at this
              rw [nextChunk]
              omega
            refine (ih hnext _).trans ?_
            rw [length_append, hdata, ← drop_drop]
            exact ⟨fun h => ⟨hlt, fun _ _ _ => h⟩, fun h => h.2 hfull.1 hfull.2 hroom⟩
          · rw [herr]
            rw [hdata] at hroom
            refine iff_of_true ?_ ⟨hlt, fun _ _ h => absurd h hroom⟩
            exact fun e he => (Except.error.inj he).symm
        · rw [if_neg hfull]
          exact iff_of_true (.ok _) ⟨hlt, fun h h' _ => absurd ⟨h, h'⟩ hfull⟩
    · rw [parseChunkedAt_succ hk, if_neg hpos]
      refine iff_of_true ?_ fun h => absurd h hpos
      split
      · exact .ok _
      · exact .ok _

theorem inside_content (message : HttpMessage) :
    Inside (parseContentAt message buffer k) := by
  rw [parseContentAt_eq hk, parseContent]
  dsimp only
  generalize (if 0 < contentLength message ∧ contentLength message ≤ (buffer.drop k).length then
    (contentLength message).toNat else 0) = n
  by_cases hpos : 0 < n
  · rw [if_pos hpos]
    rcases appendContent_cases message ((buffer.drop k).take n) with ⟨-, h⟩ | ⟨-, h⟩
    · rw [h]
      exact .ok _
    · rw [h]
      exact fun e he => (Except.error.inj he).symm
  · rw [if_neg hpos]
    exact .ok _

/-- **The body.** -/
theorem inside_body (hlen : buffer.length < 2 ^ 31) (ignoreContent : Bool) (message : HttpMessage)
    (status : Status) :
    Inside (parseBodyAt ignoreContent message status buffer k) ↔
      (status = .content →
        BodyFits (buffer.length + 1) (message.isResponse && ignoreContent) message.headers
        message.content.length (buffer.drop k)) := by
  have hignored :
      (message.isResponse && ignoreContent) = false ↔ ¬ (message.isResponse ∧ ignoreContent) := by
    rw [← Bool.not_eq_true, Bool.and_eq_true]
  rw [parseBodyAt]
  dsimp only
  by_cases hskip : message.isResponse ∧ status = .content ∧ ignoreContent
  · rw [if_pos hskip, if_neg (by decide)]
    refine iff_of_true (.ok _) fun _ hnot => ?_
    exact absurd ⟨hskip.1, hskip.2.2⟩ (hignored.mp hnot)
  · rw [if_neg hskip]
    by_cases hstatus : status = .content
    · have hnot := hignored.mpr fun h => hskip ⟨h.1, hstatus, h.2⟩
      rw [if_pos hstatus, forall_prop_of_true hstatus, BodyFits, forall_prop_of_true hnot]
      by_cases hchunked : isChunked message = true
      · have hchunked' : chunkedIn message.headers = true := hchunked
        rw [if_pos hchunked, inside_bind, forall_prop_of_true hchunked', ← inside_chunked hk hlen]
        exact and_iff_left fun r _ => .ok _
      · rw [if_neg hchunked, inside_bind]
        exact iff_of_true ⟨inside_content hk message, fun r _ => .ok _⟩ fun h => absurd h hchunked
    · rw [if_neg hstatus]
      exact iff_of_true (.ok _) fun h => absurd h hstatus

theorem inside_rest (hlen : buffer.length < 2 ^ 31) (parser : HttpMsgParser)
    (message : HttpMessage) :
    Inside (parseRestAt parser message buffer k) ↔
      RestFits (buffer.length + 1) (message.isResponse && parser.ignoreContent) message.headers
        message.content.length (buffer.drop k) parser.status := by
  rw [parseRestAt]
  by_cases hheader : parser.status = .header
  · rw [if_pos hheader, hheader, RestFits]
    by_cases hlines :
        ∀ line ∈ (headerLines (buffer.length + 1) (buffer.drop k)).1, headerFits line = true
    · obtain ⟨n, hparse, hdrop⟩ := parseHeaders_ok hlines message
      have hn := parseHeaders_le hparse
      rw [length_drop] at hn
      rw [parseHeadersAt_eq hk, hparse, and_iff_right hlines]
      refine (inside_bind.trans (and_iff_left fun r _ => .ok _)).trans ?_
      refine (inside_body (k := k + n) (by omega) hlen _ _ _).trans ?_
      cases hbody : (headerLines (buffer.length + 1) (buffer.drop k)).2 with
      | none => exact iff_of_true (by rintro ⟨⟩) (by rintro _ ⟨⟩)
      | some rest =>
        rw [← drop_drop, hdrop rest hbody]
        exact ⟨fun h rest' hrest => Option.some.inj hrest ▸ h rfl, fun h _ => h rest rfl⟩
    · rw [parseHeadersAt_eq hk, parseHeaders_error hlines]
      exact iff_of_false not_inside_null fun h => hlines h.1
  · rw [if_neg hheader]
    refine (inside_bind.trans (and_iff_left fun r _ => .ok _)).trans ?_
    refine (inside_body hk hlen _ _ _).trans ?_
    cases hstatus : parser.status with
    | header => exact absurd hstatus hheader
    | content => exact ⟨fun h => h rfl, fun h _ => h⟩
    | startLine | completed => exact iff_of_true (by rintro ⟨⟩) trivial

end

/-- **A call** passes on no `NULL` and reads nothing outside just if its condition is met. -/
theorem inside_append (hlen : buffer.length < 2 ^ 31) (parser : HttpMsgParser) :
    Inside (appendAt parser buffer) ↔ Fits parser buffer := by
  obtain ⟨message, status, ignoreContent⟩ := parser
  rw [appendAt, Fits]
  by_cases hdone : status = .completed
  · rw [if_pos hdone]
    exact iff_of_true (.ok _) fun h => absurd hdone h
  · rw [if_neg hdone, forall_prop_of_true hdone]
    cases message with
    | some message => exact inside_rest (Nat.zero_le _) hlen _ message
    | none =>
      dsimp only
      by_cases hzero : lineLen buffer = 0
      · rw [parseStartLine, if_pos hzero]
        exact iff_of_true (.ok _) fun h => absurd hzero h
      · rw [parseStartLine, if_neg hzero, forall_prop_of_true hzero]
        cases hline : startFits (buffer.take (lineLen buffer)) with
        | false =>
          rw [startMessage_error hline]
          exact iff_of_false not_inside_null fun h => by cases h.1
        | true =>
          obtain ⟨message, hok, hheaders, hcontent, hresponse⟩ := startMessage_ok hline
          rw [hok, and_iff_right rfl, ← hresponse]
          have hrest := inside_rest (lineLen_le buffer) hlen ⟨none, .header, ignoreContent⟩ message
          rw [hheaders, hcontent] at hrest
          exact hrest

/-! ## What is consumed -/

variable {message message' : HttpMessage}

theorem parseChunked_le {status : Status}
    (h : parseChunked fuel message b = .ok (message', status, n)) : n ≤ b.length := by
  induction fuel generalizing message b n with
  | zero =>
    obtain ⟨-, -, rfl⟩ := by simpa [parseChunked] using h
    exact Nat.zero_le _
  | succ fuel ih =>
    have hstop {s : Status} (h : (.ok (message, s, 0) : Except HttpFault _) = .ok (message', status,
        n)) :
        n ≤ b.length := by
      obtain ⟨-, -, rfl⟩ : message = message' ∧ s = status ∧ 0 = n := by simpa using h
      exact Nat.zero_le _
    rw [parseChunked_succ] at h
    split at h
    · split at h
      · cases h
      · split at h
        · rename_i hfull
          obtain ⟨message₁, -, h⟩ := bind_eq_ok h
          obtain ⟨⟨message₂, status₂, n₂⟩, hrec, h⟩ := bind_eq_ok h
          obtain ⟨rfl, rfl, rfl⟩ :
              message₂ = message' ∧ status₂ = status ∧ nextChunk b + n₂ = n := by
            simpa using h
          have hrest := ih hrec
          have hline := lineLen_le (b.drop (chunkEnd b))
          rw [length_drop] at hrest hline
          rw [nextChunk] at hrest ⊢
          omega
        · exact hstop h
    · split at h
      · obtain ⟨-, -, rfl⟩ : message = message' ∧ _ ∧ lineLen b = n := by simpa using h
        exact lineLen_le b
      · exact hstop h

theorem parseContent_le {status : Status} (h : parseContent message b = .ok (message', status, n)) :
    n ≤ b.length := by
  rw [parseContent] at h
  dsimp only at h
  generalize hk : (if 0 < contentLength message ∧ contentLength message ≤ b.length then
    (contentLength message).toNat else 0) = k at h
  have hle : k ≤ b.length := by
    split at hk <;> omega
  split at h
  · obtain ⟨message₁, -, h⟩ := bind_eq_ok h
    obtain ⟨-, hn⟩ := Prod.mk.inj (Except.ok.inj h)
    exact (Prod.mk.inj hn).2 ▸ hle
  · obtain ⟨-, hn⟩ := Prod.mk.inj (Except.ok.inj h)
    exact (Prod.mk.inj hn).2 ▸ hle

theorem parseBody_le {ignoreContent : Bool} {status status' : Status}
    (h : parseBody ignoreContent message status b = .ok (message', status', n)) : n ≤ b.length := by
  rw [parseBody] at h
  dsimp only at h
  generalize (if message.isResponse ∧ status = .content ∧
    ignoreContent then Status.completed else status) = st at h
  split at h
  · split at h
    · obtain ⟨⟨message₁, status₁, n₁⟩, hbody, h⟩ := bind_eq_ok h
      obtain ⟨-, hn⟩ := Prod.mk.inj (Except.ok.inj h)
      exact (Prod.mk.inj hn).2 ▸ parseChunked_le hbody
    · obtain ⟨⟨message₁, status₁, n₁⟩, hbody, h⟩ := bind_eq_ok h
      obtain ⟨-, hn⟩ := Prod.mk.inj (Except.ok.inj h)
      exact (Prod.mk.inj hn).2 ▸ parseContent_le hbody
  · obtain ⟨-, hn⟩ := Prod.mk.inj (Except.ok.inj h)
    exact (Prod.mk.inj hn).2 ▸ Nat.zero_le _

theorem parseRest_le {parser parser' : HttpMsgParser} {message : HttpMessage}
    (h : parseRest parser message b = .ok (parser', n)) : n ≤ b.length := by
  have hbody {m : ℕ} (hm : m ≤ b.length) {message : HttpMessage} {status : Status}
      (h : (parseBody parser.ignoreContent message status (b.drop m) >>= fun r =>
        .ok ({ parser with message := some r.1, status := r.2.1 }, m + r.2.2)) =
          (.ok (parser', n) : Except HttpFault _)) : n ≤ b.length := by
    obtain ⟨⟨message₁, status₁, n₁⟩, hparse, h⟩ := bind_eq_ok h
    have hn := parseBody_le hparse
    rw [length_drop] at hn
    have hlen : m + n₁ = n := (Prod.mk.inj (Except.ok.inj h)).2
    omega
  rw [parseRest] at h
  split at h
  · obtain ⟨⟨message₁, status₁, m⟩, hheaders, h⟩ := bind_eq_ok h
    exact hbody (parseHeaders_le hheaders) h
  · exact hbody (Nat.zero_le _) h

theorem append_le {parser parser' : HttpMsgParser} (h : append parser b = .ok (parser', n)) :
    n ≤ b.length := by
  rw [append] at h
  split at h
  · cases h
    exact Nat.zero_le _
  · split at h
    · exact parseRest_le h
    · obtain ⟨⟨message₁, m⟩, hstart, h⟩ := bind_eq_ok h
      cases message₁ with
      | none =>
        cases h
        exact Nat.zero_le _
      | some message =>
        obtain ⟨⟨parser₁, n₁⟩, hrest, h⟩ := bind_eq_ok h
        have hn := parseRest_le hrest
        have hm := parseStartLine_length hstart ▸ lineLen_le b
        rw [length_drop] at hn
        rw [← (Prod.mk.inj (Except.ok.inj h)).2]
        omega

/-- **A call is robust** just if its condition is met. -/
theorem robust_append (hlen : buffer.length < 2 ^ 31) (parser : HttpMsgParser) :
    Robust parser buffer ↔ Fits parser buffer := by
  rw [Robust, inside_append hlen]
  refine and_iff_left fun parser' n h => ?_
  have hlist := appendAt_eq hlen parser
  rw [h] at hlist
  exact append_le hlist.symm

/-- **Robust parsing**: however the bytes are cut into pieces, and whether or not contents are
ignored, each call is robust just if each call meets its condition. -/
theorem robust_parsing (ignoreContent : Bool) (pieces : List (List Char))
    (h : ∀ piece ∈ pieces, piece.length < 2 ^ 31) :
    Along Robust { new with ignoreContent := ignoreContent } pieces ↔
      Along Fits { new with ignoreContent := ignoreContent } pieces := by
  generalize ({ new with ignoreContent := ignoreContent } : HttpMsgParser) = parser
  induction pieces generalizing parser with
  | nil => exact Iff.rfl
  | cons piece pieces ih =>
    obtain ⟨hpiece, hpieces⟩ := List.forall_mem_cons.mp h
    refine and_congr (robust_append hpiece parser) ?_
    exact forall_congr' fun parser' => forall_congr' fun n => forall_congr' fun _ =>
      ih hpieces parser'

/-- A chunked response of which the first piece ends in a chunk; what was not consumed is given
again. -/
theorem robust_parsing_chunked :
    Along Robust new ["HTTP/1.1 200 OK\r\nTransfer-Encoding: chunked\r\n\r\n5\r\nhe".toList,
      "5\r\nhello\r\n0\r\n\r\n".toList] := by
  have hcall : appendAt new "HTTP/1.1 200 OK\r\nTransfer-Encoding: chunked\r\n\r\n5\r\nhe".toList =
      .ok (⟨some ⟨.response 200 "OK".toList, "HTTP/1.1".toList,
        [("Transfer-Encoding".toList, "chunked".toList)], []⟩, .content, false⟩,
          47) := by decide +kernel
  refine (robust_parsing false _ (by decide +kernel)).mpr ⟨by decide +kernel, fun parser n h => ?_⟩
  obtain ⟨rfl, -⟩ := Prod.mk.inj (Except.ok.inj (hcall.symm.trans h))
  exact ⟨by decide +kernel, fun _ _ _ => trivial⟩

/-- A header without a value. -/
theorem header_without_value : ¬ Along Robust new ["HTTP/1.1 200 OK\r\nA:\r\n".toList] := by
  intro h
  have hcall : appendAt new "HTTP/1.1 200 OK\r\nA:\r\n".toList = .error .nullString := by
    decide +kernel
  exact nomatch h.1.1 _ hcall

end HttpMsgParser

end Spserver
