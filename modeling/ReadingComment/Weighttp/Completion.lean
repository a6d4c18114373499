import ReadingComment.Weighttp.Responses

/-!
# When a response is complete (`weighttp/src/client.c`)

A well-formed response that comes in one read, and the end of the connection behind it. A body that
goes on to the end of the connection is refused before the connection has ended, and a field is only
known when its value is written as `client_parse` expects it.
-/

namespace Weighttp

open Lib List

/-! ## What is meant -/

/-- The case `CLIENT_READING` with a `read` that has brought nothing, up to where the counters are
updated at `CLIENT_END`. -/
def readEnd (c : Conn) : Conn :=
  let c := { c with client := disconnected c.client }
  let c := if c.client.state = .atEnd then c else clientError c
  { c with stats := countDone c }

/-- A response in one read, and then the end of the connection if it comes and the client still
reads. -/
def deliver (cfg : Config) (bytes : List Char) (eof : Bool) (c : Conn) : Except Fault Conn :=
  (fun c => if eof = true ∧
    c.client.state = .reading then readEnd c else c) <$> readPiece cfg bytes c

namespace Response

def Over (w : Response) (eof : Bool) : Prop :=
  match w.framing with
  | .close _ => eof = true
  | _ => True

/-- **The client is at its end when and only when the response is complete**, without an error, with
success just if the status is 2xx or 3xx, and what is behind the header is counted. -/
def Completes (cfg : Config) (c : Conn) (w : Response) : Prop :=
  ∀ eof, ∃ c', deliver cfg w.bytes eof c = .ok c' ∧ c'.stats.reqError = c.stats.reqError ∧
    (c'.client.state = .atEnd ↔ w.Over eof) ∧
    (w.Over eof → (c'.client.success = true ↔ 200 ≤ w.code ∧ w.code < 400) ∧
      c'.stats.bytesBody = c.stats.bytesBody + w.framing.bytes.length)

/-- **The header is understood**: no field is refused, and the one that says how the end of the body
is known is written with one blank behind the colon, and for a length with nothing but the digits
behind that. -/
structure Understood (w : Response) : Prop where
  accepted : ∀ f ∈ w.fields, ¬ f.Refused
  framed : match w.framing with
    | .length _ => ∀ f ∈ w.fields, f.named "Content-Length" = true →
        f.Spaced ∧ ∀ c ∈ f.text.tail, c.isDigit = true
    | .chunked .. => ∃ f ∈ w.fields, f.named "Transfer-Encoding" = true ∧ f.Spaced
    | .close _ => False

end Response

/-! ## Lengths -/

theorem isDigit_iff {c : Char} : c.isDigit = true ↔ ¬ (c < '0' ∨ '9' < c) := by
  rw [Char.isDigit, Bool.and_eq_true, decide_eq_true_iff, decide_eq_true_iff, not_or]
  exact ⟨fun h => ⟨UInt32.not_lt.mpr h.1, UInt32.not_lt.mpr h.2⟩,
    fun h => ⟨UInt32.not_lt.mp h.1, UInt32.not_lt.mp h.2⟩⟩

theorem strToUint64_digits {s : List Char} (hs : ∀ c ∈ s, c.isDigit = true) {n : ℕ}
    (h : digits 10 s n < 2 ^ 64) :
    strToUint64 s n = digits 10 s n := by
  induction s generalizing n with
  | nil => rfl
  | cons c s ih =>
    obtain ⟨hc, hrest⟩ := forall_mem_cons.mp hs
    rw [digits, digitValue_of_isDigit hc] at h ⊢
    dsimp only at h ⊢
    have hle : n * 10 + (c.toNat - 48) ≤ digits 10 s (n * 10 + (c.toNat - 48)) :=
      le_digits (by decide) s _
    rw [strToUint64, if_neg (isDigit_iff.mp hc), show '0'.toNat = 48 from rfl,
      Nat.mod_eq_of_lt (hle.trans_lt h)]
    exact ih hrest h

theorem strToUint64_other {s : List Char} (hs : ∃ c ∈ s, c.isDigit = false) (n : ℕ) :
    strToUint64 s n = unknown := by
  induction s generalizing n with
  | nil =>
    obtain ⟨c, hc, -⟩ := hs
    cases hc
  | cons c s ih =>
    rw [strToUint64]
    split
    · rfl
    · rename_i hdigit
      refine ih ?_ _
      obtain ⟨d, hd, hother⟩ := hs
      rcases mem_cons.mp hd with rfl | hd
      · rw [isDigit_iff.mpr hdigit] at hother
        cases hother
      · exact ⟨d, hd, hother⟩

theorem lengthOf_filter (fields : List Field) (n : ℕ) :
    lengthOf fields n = lengthOf (fields.filter (Field.named "Content-Length")) n := by
  induction fields generalizing n with
  | nil => rfl
  | cons f fields ih =>
    rw [filter_cons]
    split
    · exact ih _
    · rename_i hname
      rw [← ih]
      exact congrArg (lengthOf fields) (if_neg fun h => hname h.1)

theorem lengthOf_announced {fields : List Field} {f : Field}
    (hf : fields.filter (Field.named "Content-Length") = [f])
    {n : ℕ} (hn : IsNumber f.value n) (hsmall : n < bufferSize) :
    lengthOf fields unknown = if f.Spaced ∧
    f.text.tail.all Char.isDigit = true then n else unknown := by
  have hname : f.named "Content-Length" = true :=
    (mem_filter.mp (hf ▸ mem_singleton_self f : f ∈ fields.filter _)).2
  have hone : lengthOf [f] unknown = if f.Spaced then strToUint64 f.text.tail 0 else unknown := by
    simp only [lengthOf, foldl_cons, foldl_nil, hname, true_and]
  rw [lengthOf_filter, hf, hone]
  by_cases hspaced : f.Spaced
  · obtain ⟨u, hu⟩ := head?_eq_some_iff.mp hspaced
    rw [if_pos hspaced, hu, tail_cons]
    by_cases hdigits : ∀ c ∈ u, c.isDigit = true
    · have hblank : ∀ c ∈ u, isBlank c = false := fun c hc => Bool.eq_false_iff.mpr fun hb => by
        have hc' : c = ' ' ∨ c = '\t' := by simpa [isBlank] using hb
        rcases hc' with rfl | rfl
        · exact absurd (hdigits _ hc) (by decide)
        · exact absurd (hdigits _ hc) (by decide)
      have hvalue : f.value = u := by
        have hdrop : u.dropWhile isBlank = u := by
          simpa using @dropWhile_append_stop Char isBlank [] u nofun fun c hc =>
            hblank c (mem_of_mem_head? hc)
        rw [Field.value, Fields.trim, hu, dropWhile_cons_of_pos (by decide), hdrop]
        exact Fields.rdropWhile_eq_self fun c hc => hblank c (mem_of_mem_getLast? hc)
      rw [if_pos ⟨hspaced, all_eq_true.mpr hdigits⟩]
      rw [hvalue] at hn
      obtain ⟨-, -, hn⟩ := hn
      rw [strToUint64_digits hdigits, hn]
      rw [hn]
      exact hsmall.trans (by decide)
    · rw [if_neg fun h => hdigits (all_eq_true.mp h.2)]
      refine strToUint64_other ?_ 0
      push Not at hdigits
      exact hdigits.imp fun c hc => ⟨hc.1, Bool.eq_false_iff.mpr hc.2⟩
  · rw [if_neg hspaced, if_neg fun h => hspaced h.1]

/-! ## What the reader comes to -/

variable {cfg : Config} {c : Conn}

namespace Response

variable (w : Response)

/-- **The header** is refused, or known. -/
theorem read_head :
    ∃ conn, countStatus w.code c = some conn ∧ (c.reader.read cfg w.head).Later ∧
      (c.reader.read cfg w.head).conn.stats = conn.stats ∧
      ((¬ (∀ f ∈ w.fields, ¬ f.Refused) ∧ (c.reader.read cfg w.head).part = .broken) ∨
        (∀ f ∈ w.fields, ¬ f.Refused) ∧ ∃ client, Informed w.fields conn.client client ∧
          c.reader.read cfg w.head = Reader.startBody ⟨{ conn with client := client }, .lineCr [],
            w.head.length⟩) := by
  obtain ⟨conn, n, hcount, hstatus⟩ := @read_status cfg w c (fieldLines w.fields ++ crlf)
  rw [← append_assoc] at hstatus
  have hhead :
      c.reader.read cfg w.head = Reader.read cfg ⟨conn, .line [],
        n⟩ (fieldLines w.fields ++ crlf) := hstatus
  have hline : Reader.Later ⟨conn, .line [], n⟩ := nofun
  have hseen : (c.reader.read cfg w.head).seen = 0 + w.head.length :=
    (Reader.read_counted (fun bytes h => Part.early.inj h ▸ rfl) _).2
  refine ⟨conn, hcount, hhead ▸ Reader.read_later hline _, hhead ▸ Reader.read_stats hline _, ?_⟩
  rcases @read_fields cfg w.fields conn n crlf with ⟨⟨f, hf, hrefused⟩, hbroken⟩ |
    ⟨hall, client, hclient, hread⟩
  · exact .inl ⟨fun h => h f hf hrefused, (congrArg Reader.part hhead).trans hbroken⟩
  · have hstart : c.reader.read cfg w.head =
        Reader.startBody ⟨{ conn with client := client }, .lineCr [],
          n + (fieldLines w.fields).length + 2⟩ :=
      hhead.trans hread
    have hlen : n + (fieldLines w.fields).length + 2 = w.head.length := by
      rw [hstart, Nat.zero_add] at hseen
      exact hseen
    rw [hlen] at hstart
    exact .inr ⟨hall, client, hclient, hstart⟩

variable {w}

theorem framed_cases {client client' : Client} (h : Informed w.fields client client')
    (hchunked : client.chunked = false)
    (hlength : client.contentLength = unknown) (haccepted : ∀ f ∈ w.fields, ¬ f.Refused)
    (hsmall : w.framing.bytes.length < bufferSize) :
    (client'.chunked = true ∧ w.Understood ∧ ∃ chunks last trailer,
      w.framing = .chunked chunks last trailer) ∨
      (client'.chunked = false ∧ w.Understood ∧ client'.contentLength = w.framing.bytes.length) ∨
        client'.chunked = false ∧ ¬ w.Understood ∧ client'.contentLength = unknown := by
  have hcoded :
      client'.chunked = true ↔ ∃ f ∈ w.fields, f.named "Transfer-Encoding" = true ∧ f.Spaced := by
    rw [h.chunked, hchunked]
    simp
  have hknown : client'.contentLength = lengthOf w.fields unknown := by
    rw [h.contentLength, hlength]
  have hnone (hfields : ∀ f ∈ w.fields, f.named "Content-Length" = false) :
      client'.contentLength = unknown := by
    rw [hknown, lengthOf_filter, filter_eq_nil_iff.mpr fun f hf =>
      Bool.eq_false_iff.mp (hfields f hf)]
    rfl
  have hannounced := w.announced
  have hframed (hu : w.Understood) := hu.framed
  cases hw : w.framing with
  | length body =>
    rw [hw] at hannounced hsmall hframed
    obtain ⟨⟨f, hf, hn⟩, hno⟩ := hannounced
    have hplain : client'.chunked = false := Bool.eq_false_iff.mpr fun hc => by
      obtain ⟨g, hg, hname, -⟩ := hcoded.mp hc
      rw [hno g hg] at hname
      cases hname
    rw [lengthOf_announced hf hn hsmall] at hknown
    by_cases hright : f.Spaced ∧ f.text.tail.all Char.isDigit = true
    · rw [if_pos hright] at hknown
      refine .inr (.inl ⟨hplain, ⟨haccepted, ?_⟩, hknown⟩)
      rw [hw]
      intro g hg hname
      have hmem : g ∈ w.fields.filter (Field.named "Content-Length") := mem_filter.mpr ⟨hg, hname⟩
      rw [hf] at hmem
      exact mem_singleton.mp hmem ▸ hright.imp_right all_eq_true.mp
    · rw [if_neg hright] at hknown
      have hmem := mem_filter.mp (hf ▸ mem_singleton_self f : f ∈ w.fields.filter _)
      exact .inr (.inr ⟨hplain, fun hu =>
        hright ((hframed hu f hmem.1 hmem.2).imp_right all_eq_true.mpr), hknown⟩)
  | chunked chunks last trailer =>
    rw [hw] at hannounced hframed
    by_cases hc : client'.chunked = true
    · refine .inl ⟨hc, ⟨haccepted, ?_⟩, chunks, last, trailer, rfl⟩
      rw [hw]
      exact hcoded.mp hc
    · exact .inr (.inr ⟨Bool.eq_false_iff.mpr hc, fun hu => hc (hcoded.mpr (hframed hu)),
        hnone hannounced.2.1⟩)
  | close body =>
    rw [hw] at hannounced hframed
    refine .inr (.inr ⟨Bool.eq_false_iff.mpr fun hc => ?_, hframed, hnone hannounced.1⟩)
    -- a coding that is not refused is `chunked`
    obtain ⟨f, hf, hname, hspaced⟩ := hcoded.mp hc
    have hother := hannounced.2 f hf hname
    obtain ⟨u, hu⟩ := head?_eq_some_iff.mp hspaced
    refine haccepted f hf ⟨hspaced, .inr ⟨hname, ?_⟩⟩
    rw [hu, dropWhile_cons_of_pos (by decide)] at hother
    rw [hu, tail_cons]
    cases u with
    | nil => rfl
    | cons d u =>
      by_cases hd : isBlank d = true
      · have hd' : d = ' ' ∨ d = '\t' := by simpa [isBlank] using hd
        rcases hd' with rfl | rfl <;> rfl
      · rwa [dropWhile_cons_of_neg hd] at hother

end Response

/-- **What the reader makes of a well-formed response**: it is complete if the header is understood,
else it is refused. -/
theorem Conn.Waiting.read_response (h : c.Waiting cfg) {w : Response}
    (hsmall : w.bytes.length < bufferSize) :
    (c.reader.read cfg w.bytes).part ≠ .negative ∧
      (c.reader.read cfg w.bytes).conn.stats.bytesBody = c.stats.bytesBody ∧
      (c.reader.read cfg w.bytes).conn.stats.reqError = c.stats.reqError ∧
      (w.Understood ∧ (c.reader.read cfg w.bytes).verdict = .complete ∧
          (c.reader.read cfg w.bytes).conn.client.statusSuccess = decide (w.code < 400) ∧
          (c.reader.read cfg w.bytes).conn.client.headerSize = w.head.length ∨
        ¬ w.Understood ∧ (c.reader.read cfg w.bytes).verdict = .broken) := by
  obtain ⟨conn, hcount, hlater, hstats, hcases⟩ := @Response.read_head cfg c w
  obtain ⟨conn', hcount', hbody, herror, hclient⟩ := countStatus_spec w.code_lt c
  obtain rfl := Option.some.inj (hcount.symm.trans hcount')
  obtain ⟨watched, offset, hc⟩ := h
  have hsplit : c.reader.read cfg w.bytes = (c.reader.read cfg w.head).read cfg w.framing.bytes :=
    Reader.read_append _ _ _
  have hall : (c.reader.read cfg w.bytes).conn.stats = conn.stats := by
    rw [hsplit, Reader.read_stats hlater, hstats]
  have hroom : w.head.length + w.framing.bytes.length < bufferSize := by
    rw [← length_append]
    exact hsmall
  rw [hall, hsplit]
  suffices h : ((c.reader.read cfg w.head).read cfg w.framing.bytes).part ≠ .negative ∧ _ from
    ⟨h.1, hbody, herror, h.2⟩
  rcases hcases with ⟨hrefused, hbroken⟩ | ⟨haccepted, client, hinformed, hstart⟩
  · -- a field was refused
    generalize c.reader.read cfg w.head = r at hbroken
    obtain ⟨a, p, n⟩ := r
    obtain rfl : p = .broken := hbroken
    rw [Reader.read_final (.inr (.inr (.inr (.inr (.inr rfl)))))]
    exact ⟨by rintro ⟨⟩, .inr ⟨fun hu => hrefused hu.accepted, rfl⟩⟩
  have hstatus : client.statusSuccess = decide (w.code < 400) := by
    rw [hinformed.statusSuccess, hclient, hc]
    exact Bool.false_or _
  have hchunked : conn.client.chunked = false := by rw [hclient, hc]; rfl
  have hlength : conn.client.contentLength = unknown := by rw [hclient, hc]; rfl
  have hhead : ((c.reader.read cfg w.head).read cfg w.framing.bytes).conn.client =
      { client with headerSize := w.head.length } := by
    rw [hstart]
    exact startBody_read_conn _ _
  rw [hhead]
  dsimp only
  rw [hstatus, hstart, startBody_eq]
  dsimp only
  rcases Response.framed_cases hinformed hchunked hlength haccepted (by omega) with
    ⟨hcoded, hu, chunks, last, trailer, hw⟩ | ⟨hplain, hu, hknown⟩ | ⟨hplain, hu, hunknown⟩
  · -- chunks
    have hlast := w.announced
    rw [hw] at hlast hroom
    have hdata : ∀ k ∈ chunks, k.data.length < 2 ^ 31 := by
      intro k hk
      obtain ⟨before, behind, rfl⟩ := append_of_mem hk
      have hbig : bufferSize < 2 ^ 31 := by decide
      simp only [Framing.bytes, flatMap_append, flatMap_cons, Chunk.bytes, length_append] at hroom
      omega
    have hpart :=
      @read_chunks cfg { conn with client := { client with headerSize := w.head.length } } (.size 0)
        (.inl rfl)
      chunks last hlast.1 hdata w.head.length (fieldLines trailer ++ crlf)
    have hbytes :
        w.framing.bytes =
          chunks.flatMap Chunk.bytes ++ (last.bytes ++ (fieldLines trailer ++ crlf)) := by
      rw [hw, Framing.bytes, append_assoc, append_assoc]
    rw [if_pos hcoded, hbytes, Reader.verdict, hpart]
    exact ⟨by rintro ⟨⟩, .inl ⟨hu, rfl, rfl, rfl⟩⟩
  · -- the length is known
    have hne : client.contentLength ≠ unknown := by
      rw [hknown]
      exact ne_of_lt (lt_of_le_of_lt (Nat.le_add_left _ _) (hroom.trans (by decide)))
    rw [if_neg (by rw [hplain]; decide), if_neg hne, Reader.read_final (.inr (.inl rfl))]
    refine ⟨by rintro ⟨⟩, .inl ⟨hu, if_pos ?_, rfl, rfl⟩⟩
    have hbig : bufferSize < 2 ^ 64 := by decide
    show w.head.length + w.framing.bytes.length = (w.head.length + client.contentLength) % 2 ^ 64
    rw [hknown, Nat.mod_eq_of_lt (by omega)]
  · rw [if_neg (by rw [hplain]; decide), if_pos hunknown,
      Reader.read_final (.inr (.inr (.inr (.inr (.inr rfl)))))]
    exact ⟨by rintro ⟨⟩, .inr ⟨hu, rfl⟩⟩

theorem countDone_counts (c : Conn) :
    (countDone c).reqError = c.stats.reqError ∧ (countDone c).bytesBody =
    c.stats.bytesBody +
      if c.client.success then c.client.bytesReceived - c.client.headerSize else 0 := by
  rw [countDone]
  split
  · exact ⟨rfl, rfl⟩
  · exact ⟨rfl, rfl⟩

theorem final_complete {base : ℕ} {r : Reader} (h : r.verdict = .complete) :
    (r.final base).client.state = .atEnd ∧
    (r.final base).client.success = r.conn.client.statusSuccess ∧
      (r.final base).stats.reqError = r.conn.stats.reqError ∧
      (r.final base).stats.bytesBody = r.conn.stats.bytesBody +
        if r.conn.client.statusSuccess then r.seen - r.conn.client.headerSize else 0 := by
  rw [Reader.final, h]
  exact ⟨rfl, rfl, countDone_counts _⟩

theorem final_broken {base : ℕ} {r : Reader} (h : r.verdict = .broken) :
    (r.final base).stats.reqError = r.conn.stats.reqError + 1 := by
  rw [Reader.final, h]
  rfl

/-- **Completion.** A well-formed response that fits the buffer is completed as it should be just if
its header is understood, its status is no 1xx, and it has success or nothing behind the header. -/
theorem response_completion (h : c.Waiting cfg) {w : Response}
    (hsmall : w.bytes.length < bufferSize) :
    w.Completes cfg c ↔ w.Understood ∧ 200 ≤ w.code ∧ (w.code < 400 ∨ w.framing.bytes = []) := by
  obtain ⟨hneg, hbody, herror, hcases⟩ := h.read_response hsmall
  have hbytes : w.bytes ≠ [] := (by rintro ⟨⟩)
  have hroom : c.reader.seen + w.bytes.length < bufferSize := by
    rw [Conn.reader, Nat.zero_add]
    exact hsmall
  have hseen : (c.reader.read cfg w.bytes).seen = w.head.length + w.framing.bytes.length := by
    rw [← List.length_append]
    exact ((Reader.read_counted (fun bytes h => Part.early.inj h ▸ rfl) _).2).trans (Nat.zero_add _)
  obtain ⟨c', hread, houtcome, -, hover⟩ :=
    readPiece_follows h.follows hbytes hroom (fun _ _ => .inl rfl) hneg
  have hstate : c'.client.state = _ := congrArg Outcome.state houtcome
  have hsuccess : c'.client.success = _ := congrArg Outcome.success houtcome
  have hstats : c'.stats = _ := congrArg Outcome.stats houtcome
  have hread' (hend : c'.client.state ≠ .reading) (eof : Bool) :
      deliver cfg w.bytes eof c = .ok c' := by
    rw [deliver, hread]
    exact congrArg Except.ok (if_neg fun h => hend h.2)
  rcases hcases with ⟨hu, hverdict, hstatus, hheader⟩ | ⟨hu, hverdict⟩
  · have hdeliver := hread' (hover (by rw [hverdict]; rintro ⟨⟩))
    obtain ⟨hatEnd, hflag, hfailed, hcount⟩ := @final_complete c.stats.bytesTotal _ hverdict
    have hover' (eof : Bool) : w.Over eof := by
      have hframed := hu.framed
      rw [Response.Over]
      revert hframed
      cases w.framing with
      | close body => exact False.elim
      | _ => exact fun _ => trivial
    have hend : c'.client.state = .atEnd := hstate.trans hatEnd
    have hok : c'.client.success = true ↔ w.code < 400 := by
      rw [hsuccess]
      show (Reader.final _ _).client.success = true ↔ _
      rw [hflag, hstatus, decide_eq_true_iff]
    have hno : c'.stats.reqError = c.stats.reqError := by
      rw [hstats]
      exact hfailed.trans herror
    have hgrown :
        c'.stats.bytesBody = c.stats.bytesBody + if w.code <
          400 then w.framing.bytes.length else 0 := by
      rw [hstats]
      refine hcount.trans ?_
      rw [hbody, hstatus, hseen, hheader, Nat.add_sub_cancel_left]
      simp only [decide_eq_true_iff]
    constructor
    · intro hdone
      obtain ⟨c'', hc'', -, -, hcounts⟩ := hdone true
      obtain rfl := Except.ok.inj ((hdeliver true).symm.trans hc'')
      obtain ⟨hiff, hbytes'⟩ := hcounts (hover' true)
      rw [hok] at hiff
      rw [hgrown] at hbytes'
      by_cases hcode : w.code < 400
      · exact ⟨hu, (hiff.mp hcode).1, .inl hcode⟩
      · rw [if_neg hcode] at hbytes'
        exact ⟨hu, by omega, .inr (List.eq_nil_of_length_eq_zero (by omega))⟩
    · rintro ⟨-, hge, hcode⟩ eof
      refine ⟨c', hdeliver eof, hno, iff_of_true hend (hover' eof),
        fun _ => ⟨by rw [hok]; omega, ?_⟩⟩
      rw [hgrown]
      split
      · rfl
      · rw [hcode.resolve_left ‹_›]
        rfl
  · have hdeliver := hread' (hover (by rw [hverdict]; rintro ⟨⟩))
    refine iff_of_false (fun hdone => ?_) fun hr => hu hr.1
    obtain ⟨c'', hc'', hno, -⟩ := hdone true
    obtain rfl := Except.ok.inj ((hdeliver true).symm.trans hc'')
    have hmore : c'.stats.reqError = c.stats.reqError + 1 := by
      rw [hstats]
      exact (final_broken hverdict).trans (congrArg (· + 1) herror)
    omega

def lengthField : Field where
  name := "Content-Length".toList
  text := " 5".toList
  name_ne := nofun
  name_token := List.all_eq_true.mp rfl
  text_plain := List.all_eq_true.mp rfl

def lengthResponse : Response where
  code := 200
  reason := "OK".toList
  fields := [lengthField]
  framing := .length "hello".toList
  code_ge := by decide
  code_lt := by decide
  reason_plain := List.all_eq_true.mp rfl
  announced := ⟨⟨lengthField, rfl, nofun, List.all_eq_true.mp rfl, rfl⟩, by decide⟩

/-- A response with a `Content-Length` completes. -/
theorem response_completion_length : lengthResponse.Completes ⟨false, 10⟩ waiting := by
  refine (response_completion ⟨true, 10, rfl⟩ (by decide)).mpr ⟨⟨?_, ?_⟩, by decide,
    .inl (by decide)⟩
  · rintro f hf ⟨-, h | h⟩
    · rw [List.mem_singleton.mp hf] at h
      exact absurd h.1 (by decide)
    · rw [List.mem_singleton.mp hf] at h
      exact absurd h.1 (by decide)
  · intro f hf _
    rw [List.mem_singleton.mp hf]
    exact ⟨rfl, List.all_eq_true.mp rfl⟩

def closeResponse : Response where
  code := 200
  reason := "OK".toList
  fields := []
  framing := .close "hello".toList
  code_ge := by decide
  code_lt := by decide
  reason_plain := List.all_eq_true.mp rfl
  announced := ⟨nofun, nofun⟩

/-- It is refused before the connection has ended. -/
theorem response_close_refused : ¬ closeResponse.Completes ⟨false, 10⟩ waiting := by
  intro h
  obtain ⟨c', hc, hno, -⟩ := h false
  have herror :
      (fun c => c.stats.reqError) <$> deliver ⟨false, 10⟩ closeResponse.bytes false waiting =
        .ok 1 := rfl
  rw [hc] at herror
  exact absurd (hno.symm.trans (Except.ok.inj herror)) (by decide)

end Weighttp
