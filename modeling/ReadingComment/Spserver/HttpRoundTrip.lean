import ReadingComment.Spserver.HttpReply
import ReadingComment.Spserver.HttpRobust
import ReadingComment.Spserver.HttpSteps

/-!
# The reply is parsed back (`spserver/sphttp.cpp`, `spserver/sphttpmsg.cpp`)

The parser on what `SP_HttpHandlerAdapter::handle` puts in the reply. A header line of more than 511
characters loses its line end and runs into the next one; the content is sent to a request for the
head too, and after a `Transfer-Encoding` of the handler it is taken for chunks.
-/

namespace Spserver

open HttpMsgParser Lib List

/-! ## What is meant -/

/-- A header whose line is printed in full and is not taken for a blank line or for several lines.
-/
structure FineHeader (header : List Char × List Char) : Prop where
  name_lf : '\n' ∉ header.1
  name_cr : header.1.head? ≠ some '\r'
  length : header.1.length + header.2.length + 4 ≤ 511

namespace HttpResponse

def message (request : HttpMessage) (tm : Tm) (response : HttpResponse) : HttpMessage where
  kind := .response response.statusCode response.reasonPhrase
  version := response.version
  headers := response.sent request tm
  content := response.content

/-- **The round trip**: the reply is consumed completely and gives the response. -/
def RoundTrip (request : HttpMessage) (tm : Tm) (response : HttpResponse) : Prop :=
  ∃ parser, append .new (response.handle request tm) = .ok (parser,
    (response.handle request tm).length) ∧
    parser.isCompleted = true ∧ parser.message = some (response.message request tm)

/-- The status line is parsed back: the version begins with `HTTP` and has no blank. A line feed
ends the line, and does no harm at the end of the version if the rest of the line is `200 OK`. -/
structure FineVersion (response : HttpResponse) : Prop where
  http : caseEq (response.version.take 4) "HTTP".toList = true
  blank : ' ' ∉ response.version
  lf : '\n' ∈ response.version → '\n' ∉ response.version.dropLast ∧ response.statusCode = 200 ∧
    response.reasonPhrase = "OK".toList

/-- **The condition** for the round trip. -/
structure Survives (request : HttpMessage) (response : HttpResponse) : Prop where
  version : response.FineVersion
  headers : ∀ header ∈ response.kept request, FineHeader header
  chunked : chunkedIn (response.kept request) = false
  length : atoi ((headerValue (response.kept request) "Content-Length".toList).getD
    (if caseEq request.getMethod "head".toList then "0".toList else decimal response.content.length)) =
      response.content.length

end HttpResponse

/-! ## Lines -/

section line

variable {s : List Char} (hs : '\n' ∉ s) (t : List Char)

include hs

theorem take_lineLen : (s ++ '\n' :: t).take (lineLen (s ++ '\n' :: t)) = s ++ ['\n'] := by
  rw [lineLen_append hs, append_cons, take_left' (by rw [length_append, length_singleton])]

theorem drop_lineLen : (s ++ '\n' :: t).drop (lineLen (s ++ '\n' :: t)) = t := by
  rw [lineLen_append hs, append_cons, drop_left' (by rw [length_append, length_singleton])]

theorem headerLines_line {fuel : ℕ} (hne : s ≠ []) (hbreak : s.head? ≠ some '\r') :
    headerLines (fuel + 1) (s ++ '\n' :: t) =
      ((s ++ ['\n']) :: (headerLines fuel t).1, (headerLines fuel t).2) := by
  obtain ⟨c, cs, rfl⟩ := exists_cons_of_ne_nil hne
  have hc : isBreak c = false := by
    rw [isBreak, Bool.or_eq_false_iff]
    refine ⟨beq_false_of_ne fun h => hbreak (congrArg some h), beq_false_of_ne fun h => hs ?_⟩
    exact h ▸ mem_cons_self ..
  have htake := take_lineLen hs t
  have hdrop := drop_lineLen hs t
  have hlen := lineLen_append hs t
  rw [cons_append] at htake hdrop hlen ⊢
  rw [headerLines, htake, hdrop, hlen, hc, if_neg Bool.false_ne_true, if_neg (Nat.succ_ne_zero _)]

theorem headerLines_break {fuel : ℕ} (hbreak : s.head? = some '\r') :
    headerLines (fuel + 1) (s ++ '\n' :: t) = ([s ++ ['\n']], some t) := by
  obtain ⟨cs, rfl⟩ := head?_eq_some_iff.mp hbreak
  have htake := take_lineLen hs t
  have hdrop := drop_lineLen hs t
  rw [cons_append] at htake hdrop ⊢
  rw [headerLines, htake, hdrop]
  rfl

end line

theorem take_lineLen_cases (b : List Char) :
    b.take (lineLen b) = [] ∨ ∃ s, '\n' ∉ s ∧ b.take (lineLen b) = s ++ ['\n'] := by
  by_cases h : '\n' ∈ b
  · obtain ⟨s, t, hs, rfl, -⟩ := exists_erase_eq h
    exact .inr ⟨s, hs, take_lineLen hs t⟩
  · rw [lineLen_eq_zero h]
    exact .inl rfl

theorem headerOf_lf {s : List Char} (hs : '\n' ∉ s) {header : List Char × List Char}
    (h : headerOf (s ++ ['\n']) = some header) : '\n' ∉ header.1 := by
  rw [headerOf] at h
  rcases strsep_cases ':' (cstr (s ++ ['\n'])) with hnone | ⟨name, pos, hline, hname⟩
  · rw [strsep_notMem hnone] at h
    cases h
  · rw [hline, strsep_append hname] at h
    obtain ⟨value, -, rfl⟩ := Option.map_eq_some_iff.mp h
    have hpre : name ++ ':' :: pos <+: s ++ ['\n'] := hline ▸ isPrefix_cstr _
    have hlen := hpre.length_le
    rw [length_append, length_append, length_cons, length_singleton] at hlen
    have hin : name <+: s := prefix_of_prefix_length_le ((prefix_append _ _).trans hpre)
      (prefix_append _ _) (by omega)
    exact fun hmem => hs (hin.subset hmem)

theorem headerLines_lf {fuel : ℕ} {b line : List Char} (h : line ∈ (headerLines fuel b).1) :
    ∀ header, headerOf line = some header → '\n' ∉ header.1 := by
  have hline : ∃ b', line = List.take (lineLen b') b' := by
    induction fuel generalizing b with
    | zero => cases h
    | succ fuel ih =>
      cases b with
      | nil => cases h
      | cons ch cs =>
        rw [headerLines] at h
        split at h
        · exact ⟨_, mem_singleton.mp h⟩
        · split at h
          · cases h
          · rcases mem_cons.mp h with h | h
            · exact ⟨_, h⟩
            · exact ih h
  obtain ⟨b', rfl⟩ := hline
  intro header hheader
  rcases take_lineLen_cases b' with hnil | ⟨s, hs, htake⟩
  · rw [hnil] at hheader
    cases hheader
  · rw [htake] at hheader
    exact headerOf_lf hs hheader

/-! ## The lines of the headers -/

section header

variable {header : List Char × List Char}

def openLine (header : List Char × List Char) : List Char :=
  header.1 ++ ':' :: ' ' :: header.2 ++ ['\r']

theorem headerLine_eq (header : List Char × List Char) :
    HttpResponse.headerLine header = openLine header ++ ['\n'] := by
  simp only [HttpResponse.headerLine, openLine, crlf, append_assoc, cons_append, nil_append]

theorem openLine_lf (h : ProperHeader header) (hlf : '\n' ∉ header.1) : '\n' ∉ openLine header := by
  simp only [openLine, mem_append, mem_cons, mem_nil_iff, not_or, or_false]
  exact ⟨⟨hlf, by decide, by decide, h.value_clean.newline_notMem⟩, by decide⟩

theorem openLine_ne (header : List Char × List Char) : openLine header ≠ [] := by
  rw [openLine]
  exact append_ne_nil_of_right_ne_nil _ (cons_ne_nil _ _)

theorem openLine_cr : (openLine header).head? = some '\r' ↔ header.1.head? = some '\r' := by
  rw [openLine]
  cases header.1 with
  | nil => exact iff_of_false (fun h => absurd (Option.some.inj h) (by decide)) nofun
  | cons c cs => exact Iff.rfl

theorem length_openLine (header : List Char × List Char) :
    (openLine header).length = header.1.length + header.2.length + 3 := by
  simp only [openLine, length_append, length_cons, length_nil]
  omega

theorem snprintf_fits (h : header.1.length + header.2.length + 4 ≤ 511) :
    snprintf (HttpResponse.headerLine header) = openLine header ++ ['\n'] := by
  have hlen : (openLine header ++ ['\n']).length ≤ 511 := by
    rw [length_append, length_openLine, length_singleton]
    omega
  rw [headerLine_eq, snprintf, take_of_length_le hlen]

theorem snprintf_cut (h : ¬ header.1.length + header.2.length + 4 ≤ 511) :
    snprintf (HttpResponse.headerLine header) = (openLine header).take 511 := by
  have hlen : 511 ≤ (openLine header).length := by
    rw [length_openLine]
    omega
  rw [headerLine_eq, snprintf, take_append_of_le_length hlen]

/-- **A header line is parsed back.** -/
theorem headerOf_headerLine (h : ProperHeader header) :
    headerFits (HttpResponse.headerLine header) = true ∧
      headerOf (HttpResponse.headerLine header) = some header := by
  have hclean : Clean (' ' :: header.2) := h.value_clean.cons (by decide)
  have hcstr :
      cstr (HttpResponse.headerLine header) = header.1 ++ ':' :: (' ' :: header.2 ++ crlf) := by
    rw [HttpResponse.headerLine, append_assoc, cons_append]
    refine cstr_eq_self ?_
    simp only [mem_append, mem_cons, not_or]
    exact ⟨h.name_nul, by decide, ⟨by decide, h.value_clean.nul_notMem⟩, by decide⟩
  have htok : strtok (' ' :: header.2 ++ crlf) = some (' ' :: header.2) :=
    hclean.strtok_line.trans (if_neg (cons_ne_nil _ _))
  have hvalue : (' ' :: header.2).dropWhile (· == ' ') = header.2 := by
    rw [dropWhile_cons_of_pos (by decide)]
    obtain ⟨c, cs, hcs⟩ := exists_cons_of_ne_nil h.value_ne
    have hc := h.value_blank
    rw [hcs] at hc ⊢
    exact dropWhile_cons_of_neg fun heq => hc (congrArg some (by simpa using heq))
  rw [headerFits, headerOf, hcstr, strsep_append h.name_colon]
  constructor
  · have hne := mt strtok_eq_none_iff.mpr (by rw [htok]; rintro ⟨⟩)
    exact Bool.not_eq_false _ ▸ hne
  · dsimp only
    rw [htok, Option.map_some, hvalue]

end header

section block

variable {fuel : ℕ} {headers : List (List Char × List Char)} (body : List Char)

theorem printHeaders_cons (header : List Char × List Char)
    (headers : List (List Char × List Char)) :
    HttpResponse.printHeaders (header :: headers) =
      snprintf (HttpResponse.headerLine header) ++ HttpResponse.printHeaders headers := by
  rw [HttpResponse.printHeaders, map_cons, flatten_cons, ← HttpResponse.printHeaders]

theorem headerLines_blank (fuel : ℕ) (body : List Char) :
    headerLines (fuel + 1) (crlf ++ body) = ([crlf], some body) :=
  headerLines_break (s := ['\r']) (by decide) body rfl

theorem headerLines_reply (hproper : ∀ header ∈ headers, ProperHeader header)
    (hfine : ∀ header ∈ headers, FineHeader header)
    (hfuel : (HttpResponse.printHeaders headers ++ crlf ++ body).length ≤ fuel) :
    headerLines fuel (HttpResponse.printHeaders headers ++ crlf ++ body) =
      (headers.map HttpResponse.headerLine ++ [crlf], some body) := by
  induction headers generalizing fuel with
  | nil =>
    obtain ⟨fuel, rfl⟩ : ∃ n, fuel = n + 1 := ⟨fuel - 1, by
      simp only [HttpResponse.printHeaders, map_nil, flatten_nil, nil_append, length_append,
        crlf, length_cons] at hfuel
      omega⟩
    exact headerLines_blank fuel body
  | cons header headers ih =>
    obtain ⟨hp, hproper⟩ := forall_mem_cons.mp hproper
    obtain ⟨hf, hfine⟩ := forall_mem_cons.mp hfine
    have htext : HttpResponse.printHeaders (header :: headers) ++ crlf ++ body =
        openLine header ++ '\n' :: (HttpResponse.printHeaders headers ++ crlf ++ body) := by
      rw [printHeaders_cons, snprintf_fits hf.length]
      simp only [append_assoc, cons_append, nil_append]
    rw [htext] at hfuel ⊢
    rw [length_append, length_cons] at hfuel
    obtain ⟨fuel, rfl⟩ : ∃ n, fuel = n + 1 := ⟨fuel - 1, by omega⟩
    rw [headerLines_line (openLine_lf hp hf.name_lf) _ (openLine_ne header)
      (mt openLine_cr.mp hf.name_cr),
      ih hproper hfine (by omega), ← headerLine_eq]
    rfl

/-- No more headers are found than were printed, and fewer if one of the lines is cut off or begins
like a blank line. What is before the first line is what is left of a line that was cut off. -/
theorem length_found_le {before : List Char} (hbefore : '\n' ∉ before)
    (hproper : ∀ header ∈ headers, ProperHeader header) (hlf : ∀ header ∈ headers, '\n' ∉ header.1)
    (hnone : headers = [] → before = []) (hlast : ∀ header ∈ headers.getLast?, FineHeader header) :
    ((headerLines fuel (before ++ HttpResponse.printHeaders headers ++ crlf ++
      body)).1.filterMap headerOf).length ≤
        headers.length ∧
      (((headerLines fuel (before ++ HttpResponse.printHeaders headers ++ crlf ++ body)).1.filterMap
          headerOf).length = headers.length →
        ∀ header ∈ headers, header.1.length + header.2.length + 4 ≤ 511 ∧
          (before = [] → header.1.head? ≠ some '\r')) := by
  induction headers generalizing fuel before with
  | nil =>
    rw [hnone rfl]
    cases fuel with
    | zero => exact ⟨le_rfl, fun _ => nofun⟩
    | succ fuel =>
      have hblank :
          headerLines (fuel + 1) ([] ++ HttpResponse.printHeaders [] ++ crlf ++ body) =
            ([crlf], some body) :=
        headerLines_blank fuel body
      rw [hblank]
      exact ⟨le_rfl, fun _ => nofun⟩
  | cons header headers ih =>
    obtain ⟨hp, hproper⟩ := forall_mem_cons.mp hproper
    obtain ⟨hl, hlf⟩ := forall_mem_cons.mp hlf
    have hlast' : ∀ h ∈ headers.getLast?, FineHeader h := fun h hmem => hlast h (by
      rw [getLast?_cons, Option.mem_def.mp hmem]
      rfl)
    have hline := openLine_lf hp hl
    rw [length_cons, printHeaders_cons]
    by_cases hfits : header.1.length + header.2.length + 4 ≤ 511
    · have htext :
        before ++ (snprintf (HttpResponse.headerLine header) ++
          HttpResponse.printHeaders headers) ++
          crlf ++ body =
            (before ++ openLine header) ++ '\n' :: ([] ++ HttpResponse.printHeaders headers ++
              crlf ++ body) := by
        rw [snprintf_fits hfits]
        simp only [append_assoc, cons_append, nil_append]
      have hopen : '\n' ∉ before ++ openLine header := not_mem_append hbefore hline
      rw [htext]
      cases fuel with
      | zero => exact ⟨Nat.zero_le _, fun h => absurd h (Nat.succ_ne_zero _).symm⟩
      | succ fuel =>
        by_cases hbreak : (before ++ openLine header).head? = some '\r'
        · -- nothing is looked for behind this line
          rw [headerLines_break hopen _ hbreak]
          have hone := length_filterMap_le headerOf [before ++ openLine header ++ ['\n']]
          rw [length_singleton] at hone
          refine ⟨by dsimp only; omega, fun hcount => ?_⟩
          obtain rfl : headers = [] := eq_nil_of_length_eq_zero (by dsimp only at hcount; omega)
          intro h hmem
          rw [mem_singleton.mp hmem]
          exact ⟨hfits, fun _ => (hlast header rfl).name_cr⟩
        · rw [headerLines_line hopen _
            (append_ne_nil_of_right_ne_nil _ (openLine_ne header)) hbreak]
          obtain ⟨hle, hall⟩ := @ih fuel [] (not_mem_nil) hproper hlf (fun _ => rfl) hlast'
          have hcons (ls : List (List Char)) :
              (((before ++ openLine header ++ ['\n']) :: ls).filterMap headerOf).length ≤
                (ls.filterMap headerOf).length + 1 := by
            rw [filterMap_cons]
            split
            · exact Nat.le_succ _
            · exact le_rfl
          have hone :=
            hcons (headerLines fuel ([] ++ HttpResponse.printHeaders headers ++ crlf ++ body)).1
          refine ⟨hone.trans (Nat.succ_le_succ hle), fun hcount => ?_⟩
          have htail := hall (by dsimp only at hcount; omega)
          refine forall_mem_cons.mpr ⟨⟨hfits, ?_⟩,
            fun h hmem => ⟨(htail h hmem).1, fun _ => (htail h hmem).2 rfl⟩⟩
          rintro rfl
          exact mt openLine_cr.mpr hbreak
    · have hne : headers ≠ [] := by
        rintro rfl
        exact hfits (hlast header rfl).length
      have htext :
          before ++ (snprintf (HttpResponse.headerLine header) ++
            HttpResponse.printHeaders headers) ++
          crlf ++ body =
            (before ++ (openLine header).take 511) ++ HttpResponse.printHeaders headers ++ crlf ++
              body := by
        rw [snprintf_cut hfits]
        simp only [append_assoc]
      rw [htext]
      obtain ⟨hle, -⟩ := @ih fuel (before ++ (openLine header).take 511)
        (not_mem_append hbefore fun h => hline (mem_of_mem_take h)) hproper hlf (fun h =>
          absurd h hne) hlast'
      exact ⟨by omega, fun hcount => by omega⟩

end block

theorem filterMap_headerLine {headers : List (List Char × List Char)}
    (hproper : ∀ header ∈ headers, ProperHeader header) :
    (headers.map HttpResponse.headerLine).filterMap headerOf = headers := by
  induction headers with
  | nil => rfl
  | cons header headers ih =>
    obtain ⟨hp, hproper⟩ := forall_mem_cons.mp hproper
    rw [map_cons, filterMap_cons_some (headerOf_headerLine hp).2, ih hproper]

/-- **The headers are found** just if all of them are fine. -/
theorem found_iff {fuel : ℕ} {headers : List (List Char × List Char)} (body : List Char)
    (hproper : ∀ header ∈ headers, ProperHeader header)
    (hlast : ∀ header ∈ headers.getLast?, FineHeader header)
    (hfuel : (HttpResponse.printHeaders headers ++ crlf ++ body).length ≤ fuel) :
    (headerLines fuel (HttpResponse.printHeaders headers ++ crlf ++ body)).1.filterMap headerOf =
      headers ↔
      ∀ header ∈ headers, FineHeader header := by
  constructor
  · intro hfound
    have hlf : ∀ header ∈ headers, '\n' ∉ header.1 := by
      intro header hmem
      rw [← hfound] at hmem
      obtain ⟨line, hline, hheader⟩ := mem_filterMap.mp hmem
      exact headerLines_lf hline header hheader
    obtain ⟨-, hall⟩ :=
      @length_found_le fuel headers body [] not_mem_nil hproper hlf (fun _ => rfl) hlast
    intro header hmem
    obtain ⟨hlen, hcr⟩ := hall (congrArg List.length hfound) header hmem
    exact ⟨hlf header hmem, hcr rfl, hlen⟩
  · intro hfine
    rw [headerLines_reply body hproper hfine hfuel, filterMap_append, filterMap_headerLine hproper]
    exact append_nil _

/-! ## The status line -/

namespace HttpResponse

variable (response : HttpResponse)

def openStatus : List Char :=
  response.version ++ ' ' ::
    (decimal response.statusCode ++ ' ' :: (response.reasonPhrase ++ ['\r']))

theorem snprintf_statusLine : snprintf response.statusLine = response.openStatus ++ ['\n'] := by
  have hge := response.status_ge
  have hlt := response.status_lt
  have hcode := length_decimal (n := response.statusCode) (by omega)
  have hline : response.statusLine = response.openStatus ++ ['\n'] := by
    simp only [statusLine, openStatus, crlf, append_assoc, cons_append, nil_append]
  have hlen : response.statusLine.length ≤ 511 := by
    have hv := response.version_length
    have hr := response.reason_length
    simp only [statusLine, crlf, length_append, length_cons, length_nil]
    omega
  rw [snprintf, take_of_length_le hlen, hline]

theorem openStatus_nul : '\x00' ∉ response.openStatus := by
  simp only [openStatus, mem_append, mem_cons, mem_nil_iff, not_or, or_false]
  exact ⟨response.version_nul, by decide, (decimal_clean _).nul_notMem, by decide,
    response.reason_clean.nul_notMem, by decide⟩

theorem openStatus_lf (h : '\n' ∉ response.version) : '\n' ∉ response.openStatus := by
  simp only [openStatus, mem_append, mem_cons, mem_nil_iff, not_or, or_false]
  exact ⟨h, by decide, (decimal_clean _).newline_notMem, by decide,
    response.reason_clean.newline_notMem, by decide⟩

def started : HttpMessage where
  kind := .response response.statusCode response.reasonPhrase
  version := response.version
  headers := []
  content := []

/-- **The status line is parsed back.** -/
theorem startMessage_status (hblank : ' ' ∉ response.version)
    (hhttp : caseEq (response.version.take 4) "HTTP".toList = true) :
    startMessage (cstr (response.openStatus ++ ['\n'])) = .ok response.started := by
  have hcstr : cstr (response.openStatus ++ ['\n']) =
      response.version ++ ' ' ::
        (decimal response.statusCode ++ ' ' :: (response.reasonPhrase ++ crlf)) := by
    rw [cstr_eq_self (not_mem_append response.openStatus_nul (by decide))]
    simp only [openStatus, crlf, append_assoc, cons_append, nil_append]
  have hcode : ' ' ∉ decimal response.statusCode := fun h => (decimal_mem h).2 rfl
  have hreason :
      lineRest (some (response.reasonPhrase ++ crlf)) = .ok (some response.reasonPhrase) := by
    rw [lineRest_line response.reason_clean, if_neg response.reason_ne]
  rw [hcstr, startMessage, strsep_append hblank]
  dsimp only
  rw [strsep_append hcode]
  dsimp only
  rw [hreason, Option.getD_some, if_pos hhttp]
  refine congrArg Except.ok ?_
  rw [Option.elim_some, atoi_decimal response.status_ge response.status_lt, Option.getD_some,
    take_of_length_le response.reason_length, take_of_length_le response.version_length]
  rfl

end HttpResponse

theorem startMessage_spec {line : List Char} {message : HttpMessage}
    (h : startMessage line = .ok message) :
    message.isResponse = caseEq (((strsep ' ' (some line)).1.getD []).take 4) "HTTP".toList ∧
      (message.isResponse = true → message.version = ((strsep ' ' (some line)).1.getD []).take 15) ∧
      message.headers = [] ∧ message.content = [] := by
  rw [startMessage] at h
  dsimp only at h
  split at h
  · rename_i hhttp
    obtain ⟨reason, -, h⟩ := bind_eq_ok h
    cases h
    exact ⟨hhttp.symm, fun _ => rfl, rfl, rfl⟩
  · rename_i hhttp
    obtain ⟨version, -, h⟩ := bind_eq_ok h
    cases h
    exact ⟨(Bool.not_eq_true _ ▸ hhttp).symm, by rintro ⟨⟩, rfl, rfl⟩

theorem strsep_first (del : Char) (s : List Char) : del ∉ (strsep del (some s)).1.getD [] := by
  rcases strsep_cases del s with h | ⟨u, v, rfl, h⟩
  · rw [strsep_notMem h]
    exact h
  · rw [strsep_append h]
    exact h

namespace HttpResponse

variable (request : HttpMessage) (tm : Tm) (response : HttpResponse)

def behindStatus : List Char := printHeaders (response.sent request tm) ++ crlf ++ response.content

theorem handle_eq :
    response.handle request tm =
      response.openStatus ++ '\n' :: response.behindStatus request tm := by
  rw [handle, snprintf_statusLine, behindStatus]
  simp only [append_assoc, cons_append, nil_append]

/-- What is left of a status line whose version ends with a line feed. -/
def statusRest : List Char := " 200 OK\r".toList

variable {response}

theorem FineVersion.start (h : response.FineVersion) :
    lineLen (response.handle request tm) ≠ 0 ∧
      startMessage
        (cstr ((response.handle request tm).take (lineLen (response.handle request tm)))) =
        .ok response.started ∧
      ((response.handle request tm).drop (lineLen (response.handle request tm)) =
        response.behindStatus request tm ∨
        (response.handle request tm).drop (lineLen (response.handle request tm)) =
          statusRest ++ '\n' :: response.behindStatus request tm) := by
  by_cases hlf : '\n' ∈ response.version
  · obtain ⟨hfirst, hcode, hreason⟩ := h.lf hlf
    obtain ⟨u, hu⟩ : ∃ u, response.version = u ++ ['\n'] := by
      rcases eq_nil_or_concat response.version with hnil | ⟨u, c, hversion⟩
      · rw [hnil] at hlf
        cases hlf
      · rw [concat_eq_append] at hversion
        rw [hversion, dropLast_concat] at hfirst
        rw [hversion] at hlf
        rcases mem_append.mp hlf with hlf | hlf
        · exact absurd hlf hfirst
        · exact ⟨u, by rw [hversion, mem_singleton.mp hlf]⟩
    rw [hu, dropLast_concat] at hfirst
    have htext : response.handle request tm =
        u ++ '\n' :: (statusRest ++ '\n' :: response.behindStatus request tm) := by
      have hdecimal : decimal 200 = "200".toList := by decide
      have hrest : statusRest = ' ' :: ("200".toList ++ ' ' :: ("OK".toList ++ ['\r'])) := by decide
      rw [handle_eq, openStatus, hu, hcode, hreason, hdecimal, hrest]
      simp only [append_assoc, cons_append, nil_append]
    have hnul : '\x00' ∉ u ++ ['\n'] := hu ▸ response.version_nul
    have hblank : ' ' ∉ u ++ ['\n'] := hu ▸ h.blank
    have hlen : (u ++ ['\n']).length ≤ 15 := hu ▸ response.version_length
    have hhttp : caseEq ((u ++ ['\n']).take 4) "HTTP".toList = true := hu ▸ h.http
    rw [htext, take_lineLen hfirst, drop_lineLen hfirst, lineLen_append hfirst]
    refine ⟨Nat.succ_ne_zero _, ?_, .inr rfl⟩
    rw [cstr_eq_self hnul, startMessage, strsep_notMem hblank]
    dsimp only [strsep, lineRest]
    rw [Option.getD_some, if_pos hhttp, take_of_length_le hlen, started, hcode, hreason, hu]
    rfl
  · rw [handle_eq, take_lineLen (response.openStatus_lf hlf),
      drop_lineLen (response.openStatus_lf hlf),
      lineLen_append (response.openStatus_lf hlf)]
    exact ⟨Nat.succ_ne_zero _, response.startMessage_status h.blank h.http, .inl rfl⟩

theorem FineVersion.of_start {message : HttpMessage}
    (h : startMessage (cstr
      ((response.handle request tm).take (lineLen (response.handle request tm)))) = .ok message)
    (hkind : message.kind = .response response.statusCode response.reasonPhrase)
    (hversion : message.version = response.version) : response.FineVersion := by
  have hresponse : message.isResponse = true := by rw [HttpMessage.isResponse, hkind]
  obtain ⟨hhttp, hfirst, -⟩ := startMessage_spec h
  have hown := hfirst hresponse
  rw [hresponse] at hhttp
  rw [hversion] at hown
  have hblank : ' ' ∉ response.version := by
    rw [hown]
    exact fun hmem => strsep_first ' ' _ (mem_of_mem_take hmem)
  have htake : response.version.take 4 = ((strsep ' ' (some (cstr ((response.handle request tm).take
      (lineLen (response.handle request tm)))))).1.getD []).take 4 := by
    rw [hown, take_take]
    rfl
  refine ⟨by rw [htake]; exact hhttp.symm, hblank, fun hlf => ?_⟩
  obtain ⟨u, w, hu, hv, -⟩ := exists_erase_eq hlf
  have htext : ∃ rest, response.handle request tm = u ++ '\n' :: rest := by
    rw [handle_eq, openStatus, hv, append_assoc, append_assoc]
    exact ⟨_, rfl⟩
  obtain ⟨rest, htext⟩ := htext
  have hnul : '\x00' ∉ u ++ ['\n'] := fun hmem => response.version_nul (by
    rw [hv, append_cons]
    exact mem_append_left _ hmem)
  have hblank' : ' ' ∉ u ++ ['\n'] := fun hmem => hblank (by
    rw [hv, append_cons]
    exact mem_append_left _ hmem)
  rw [htext, take_lineLen hu, cstr_eq_self hnul, strsep_notMem hblank'] at hown
  rw [htext, take_lineLen hu, cstr_eq_self hnul, strsep_notMem hblank'] at hhttp
  rw [htext, take_lineLen hu, cstr_eq_self hnul, startMessage, strsep_notMem hblank'] at h
  dsimp only [strsep, lineRest] at h
  rw [if_pos hhttp.symm] at h
  cases h
  obtain ⟨hcode, hreason⟩ := HttpKind.response.inj hkind
  have hlen := response.version_length
  rw [hv, length_append, length_cons] at hlen
  have hfull : (u ++ ['\n']).length ≤ 15 := by
    rw [length_append, length_singleton]
    omega
  dsimp only at hown
  rw [Option.getD_some, take_of_length_le hfull] at hown
  rw [hown, dropLast_concat]
  exact ⟨hu, hcode.symm, hreason.symm⟩

end HttpResponse

namespace HttpMsgParser

/-! ## The body -/

variable {b : List Char}

variable {message message' : HttpMessage}

theorem parseChunked_content {fuel : ℕ} {status : Status} {n : ℕ}
    (h : parseChunked fuel message b = .ok (message', status, n)) :
    ∃ content, message' = { message with content := content } ∧
      (status = .completed → content.length < message.content.length + n) := by
  induction fuel generalizing message b n with
  | zero =>
    obtain ⟨rfl, rfl, -⟩ :
        message = message' ∧ .content = status ∧ 0 = n := by simpa [parseChunked] using h
    exact ⟨_, rfl, by rintro ⟨⟩⟩
  | succ fuel ih =>
    have hstop (h : (.ok (message, .content, 0) : Except HttpFault _) = .ok (message', status, n)) :
        ∃ content, message' = { message with content := content } ∧
          (status = .completed → content.length < message.content.length + n) := by
      obtain ⟨rfl, rfl, -⟩ : message = message' ∧ .content = status ∧ 0 = n := by simpa using h
      exact ⟨_, rfl, by rintro ⟨⟩⟩
    rw [parseChunked_succ] at h
    split at h
    · split at h
      · cases h
      · split at h
        · rename_i hfull
          obtain ⟨message₁, happend, h⟩ := bind_eq_ok h
          obtain ⟨⟨message₂, status₂, n₂⟩, hrec, h⟩ := bind_eq_ok h
          obtain ⟨rfl, rfl, rfl⟩ :
              message₂ = message' ∧ status₂ = status ∧ nextChunk b + n₂ = n := by
            simpa using h
          obtain ⟨content, hcontent, hlen⟩ := ih hrec
          rcases appendContent_cases message
            ((b.drop (lineLen b)).take (chunkSize b).toNat) with ⟨-, hok⟩ | ⟨-, herr⟩
          · obtain rfl := Except.ok.inj (hok.symm.trans happend)
            refine ⟨content, hcontent, fun hdone => ?_⟩
            have hlt := hlen hdone
            rw [length_append, length_take] at hlt
            rw [nextChunk, chunkEnd]
            omega
          · rw [herr] at happend
            cases happend
        · exact hstop h
    · split at h
      · rename_i hlast
        obtain ⟨rfl, rfl, rfl⟩ :
            message = message' ∧ .completed = status ∧ lineLen b = n := by simpa using h
        exact ⟨_, rfl, fun _ => Nat.lt_add_of_pos_right hlast.2⟩
      · exact hstop h

theorem parseContent_content {status : Status} {n : ℕ}
    (h : parseContent message b = .ok (message', status, n)) :
    ∃ content, message' = { message with content := content } ∧
      (status = .completed → contentLength message = content.length) := by
  rw [parseContent] at h
  dsimp only at h
  generalize (if 0 < contentLength message ∧ contentLength message ≤ b.length then
    (contentLength message).toNat else 0) = k at h
  have hdone {c : List Char} (h : (if contentLength message =
      c.length then Status.completed else .content) = status) :
      status = .completed → contentLength message = c.length := by
    intro hstatus
    by_contra hne
    rw [if_neg hne, hstatus] at h
    cases h
  split at h
  · obtain ⟨message₁, happend, h⟩ := bind_eq_ok h
    obtain ⟨rfl, hstatus⟩ := Prod.mk.inj (Except.ok.inj h)
    rcases appendContent_cases message (b.take k) with ⟨-, hok⟩ | ⟨-, herr⟩
    · obtain rfl := Except.ok.inj (hok.symm.trans happend)
      exact ⟨_, rfl, hdone (Prod.mk.inj hstatus).1⟩
    · rw [herr] at happend
      cases happend
  · obtain ⟨rfl, hstatus⟩ := Prod.mk.inj (Except.ok.inj h)
    exact ⟨_, rfl, hdone (Prod.mk.inj hstatus).1⟩

theorem postProcess_response {message : HttpMessage} (h : message.isResponse = true) :
    postProcess message = message := by
  obtain ⟨kind, version, headers, content⟩ := message
  cases kind with
  | request => cases h
  | response => rfl

theorem isResponse_postProcess (message : HttpMessage) :
    (postProcess message).isResponse = message.isResponse := by
  obtain ⟨kind, version, headers, content⟩ := message
  cases kind with
  | request method url uri params =>
    rw [postProcess]
    dsimp only
    split
    · split <;> rfl
    · rfl
  | response => rfl

theorem append_inBody_response {parser : HttpMsgParser} {n : ℕ}
    (h : append (inBody message) b = .ok (parser, n)) (hmessage : parser.message = some message')
    (hresponse : message'.isResponse = true) :
    ∃ content, message' = { message with content := content } ∧
      (parser.status = .completed →
        if isChunked message then content.length < message.content.length + n
        else contentLength message = content.length) := by
  rw [append_inBody] at h
  have hfinish {m : HttpMessage} {status : Status} {k : ℕ}
      (h : (⟨some (if status = .completed then postProcess m else m), status, false⟩, k) =
        (parser, n)) :
      message' = m ∧ status = parser.status ∧ k = n := by
    cases h
    have heq := Option.some.inj hmessage
    split at heq
    · rw [← heq, isResponse_postProcess] at hresponse
      rw [postProcess_response hresponse] at heq
      exact ⟨heq.symm, rfl, rfl⟩
    · exact ⟨heq.symm, rfl, rfl⟩
  by_cases hchunked : isChunked message = true
  · rw [if_pos hchunked] at h
    cases hparse : parseChunked (b.length + 1) message b with
    | error e =>
      rw [hparse] at h
      cases h
    | ok r =>
      obtain ⟨m, status, k⟩ := r
      rw [hparse] at h
      obtain ⟨rfl, rfl, rfl⟩ := hfinish (Except.ok.inj h)
      obtain ⟨c, hc, hdone⟩ := parseChunked_content hparse
      refine ⟨c, hc, fun h => ?_⟩
      rw [if_pos hchunked]
      exact hdone h
  · rw [if_neg hchunked] at h
    cases hparse : parseContent message b with
    | error e =>
      rw [hparse] at h
      cases h
    | ok r =>
      obtain ⟨m, status, k⟩ := r
      rw [hparse] at h
      obtain ⟨rfl, rfl, rfl⟩ := hfinish (Except.ok.inj h)
      obtain ⟨c, hc, hdone⟩ := parseContent_content hparse
      refine ⟨c, hc, fun h => ?_⟩
      rw [if_neg hchunked]
      exact hdone h

/-- **The body is parsed back** just if its length was announced. -/
theorem append_inBody_iff {message : HttpMessage} {content : List Char}
    (hresponse : message.isResponse = true)
    (hempty : message.content = []) (hlen : content.length + 1 < 2 ^ 31) :
    (∃ parser, append (inBody message) content = .ok (parser, content.length) ∧
      parser.isCompleted = true ∧
        parser.message = some { message with content := content }) ↔
      isChunked message = false ∧ contentLength message = content.length := by
  constructor
  · rintro ⟨parser, happend, hdone, hmessage⟩
    obtain ⟨c, hc, hcond⟩ := append_inBody_response happend hmessage hresponse
    have hcontent : content = c := congrArg HttpMessage.content hc
    have hcond := hcond (of_decide_eq_true hdone)
    rw [← hcontent, hempty] at hcond
    split at hcond
    · exact absurd hcond (by rw [length_nil]; omega)
    · rename_i hchunked
      exact ⟨Bool.eq_false_iff.mpr hchunked, hcond⟩
  · rintro ⟨hchunked, hcl⟩
    rw [append_inBody_length hchunked hcl hlen hempty, if_pos le_rfl, take_length]
    refine ⟨_, rfl, rfl, ?_⟩
    exact congrArg some (postProcess_response hresponse)

/-! ## From the start line on -/

theorem append_started {message : HttpMessage} (hline : lineLen b ≠ 0)
    (hstart : startMessage (cstr (b.take (lineLen b))) = .ok message) :
    append .new b = (parseRest ⟨none, .header, false⟩ message (b.drop (lineLen b))).map
      (advance (lineLen b)) := by
  have hnew : new.status ≠ .completed := by decide
  rw [append, if_neg hnew, parseStartLine, if_neg hline, hstart]
  dsimp only [new, bind, Except.bind]
  cases parseRest ⟨none, .header, false⟩ message (b.drop (lineLen b)) <;> rfl

theorem append_new_completed {parser : HttpMsgParser} {n : ℕ} (h : append .new b = .ok (parser, n))
    (hdone : parser.status = .completed) :
    ∃ message body k, startMessage (cstr (b.take (lineLen b))) = .ok message ∧
      append (inBody (withHeaders message ((headerLines ((b.drop (lineLen b)).length + 1)
        (b.drop (lineLen b))).1.filterMap headerOf))) body = .ok (parser, k) := by
  by_cases hline : lineLen b = 0
  · have hnothing : append .new b = .ok (.new, 0) := by
      rw [append, if_neg (by decide), parseStartLine, if_pos hline]
      rfl
    obtain ⟨rfl, -⟩ := Prod.mk.inj (Except.ok.inj (hnothing.symm.trans h))
    cases hdone
  cases hstart : startMessage (cstr (b.take (lineLen b))) with
  | error e =>
    rw [append, if_neg (by decide), parseStartLine, if_neg hline, hstart] at h
    cases h
  | ok message =>
    rw [append_started hline hstart] at h
    generalize b.drop (lineLen b) = rest at h ⊢
    by_cases hfits : ∀ line ∈ (headerLines (rest.length + 1) rest).1, headerFits line = true
    · obtain ⟨j, hparse, hdrop⟩ := parseHeaders_ok hfits message
      cases hbody : (headerLines (rest.length + 1) rest).2 with
      | none =>
        rw [hbody] at hparse
        rw [parseRest_header hparse] at h
        cases h
        cases hdone
      | some body =>
        rw [hbody] at hparse
        rw [parseRest_content hparse, hdrop body hbody] at h
        refine ⟨message, body, ?_⟩
        cases hres : append (inBody (withHeaders message
            ((headerLines (rest.length + 1) rest).1.filterMap headerOf))) body with
        | error e =>
          rw [hres] at h
          cases h
        | ok r =>
          rw [hres] at h
          obtain ⟨hparser, -⟩ := Prod.mk.inj (Except.ok.inj h)
          exact ⟨r.2, rfl, congrArg (fun p => Except.ok (p, r.2)) hparser⟩
    · rw [parseRest, if_pos rfl, parseHeaders_error hfits] at h
      cases h

end HttpMsgParser

/-! ## The headers that are sent -/

namespace HttpResponse

variable (request : HttpMessage) (tm : Tm) (response : HttpResponse)

theorem fine_of_name {name value : List Char}
    (hname : '\x00' ∉ name ∧ ':' ∉ name ∧ '\n' ∉ name ∧ name.head? ≠ some '\r')
    (hvalue : Clean value ∧ value ≠ [] ∧
      value.head? ≠ some ' ') (hlen : name.length + value.length + 4 ≤ 511) :
    ProperHeader (name, value) ∧ FineHeader (name, value) :=
  ⟨⟨hname.1, hname.2.1, hvalue.1, hvalue.2.1, hvalue.2.2⟩, hname.2.2.1, hname.2.2.2, hlen⟩

theorem settings_fine {header : List Char × List Char} (h : header ∈ settings tm response.content) :
    ProperHeader header ∧ FineHeader header := by
  have hlen := response.content_length
  have hdecimal := length_decimal (n := response.content.length) (by omega)
  have hblank : (decimal response.content.length).head? ≠ some ' ' := fun hhead =>
    (decimal_mem (mem_of_mem_head? hhead)).2 rfl
  have hdate := length_strftime tm
  rcases mem_cons.mp h with rfl | h
  · exact fine_of_name (by decide) (by decide) (by decide)
  rcases mem_cons.mp h with rfl | h
  · have hname : "Content-Length".toList.length = 14 := rfl
    exact fine_of_name (by decide) ⟨decimal_clean _, decimal_ne _, hblank⟩ (by omega)
  rcases mem_cons.mp h with rfl | h
  · have hname : "Date".toList.length = 4 := rfl
    exact fine_of_name (by decide) ⟨strftime_clean tm, strftime_head tm⟩ (by omega)
  · rw [mem_singleton.mp h]
    exact fine_of_name (by decide) (by decide) (by decide)

theorem server_fine : ProperHeader ("Server".toList, "sphttp/spserver".toList) ∧
    FineHeader ("Server".toList, "sphttp/spserver".toList) :=
  fine_of_name (by decide) (by decide) (by decide)

theorem sent_proper : ∀ header ∈ response.sent request tm, ProperHeader header := by
  obtain ⟨added, hsent, hadded, -⟩ := response.sent_eq request tm
  intro header h
  rw [hsent] at h
  rcases mem_append.mp h with h | h
  · rcases mem_append.mp h with h | h
    · have hmem := response.kept_subset request header h
      exact ⟨response.name_nul header hmem, response.name_colon header hmem,
        response.value_clean header hmem,
        response.value_ne header hmem, response.value_blank header hmem⟩
    · exact (response.settings_fine tm (hadded header h)).1
  · rw [mem_singleton.mp h]
    exact server_fine.1

theorem sent_fine_iff :
    (∀ header ∈ response.sent request tm, FineHeader header) ↔
      ∀ header ∈ response.kept request, FineHeader header := by
  obtain ⟨added, hsent, hadded, -⟩ := response.sent_eq request tm
  rw [hsent]
  constructor
  · exact fun h header hmem => h header (mem_append_left _ (mem_append_left _ hmem))
  · intro h header hmem
    rcases mem_append.mp hmem with hmem | hmem
    · rcases mem_append.mp hmem with hmem | hmem
      · exact h header hmem
      · exact (response.settings_fine tm (hadded header hmem)).2
    · rw [mem_singleton.mp hmem]
      exact server_fine.2

theorem sent_last : ∀ header ∈ (response.sent request tm).getLast?, FineHeader header := by
  obtain ⟨added, hsent, -⟩ := response.sent_eq request tm
  intro header h
  rw [hsent, getLast?_concat] at h
  exact Option.some.inj h ▸ server_fine.2

theorem sent_chunked :
    chunkedIn (response.sent request tm) = chunkedIn (response.kept request) := by
  obtain ⟨added, hsent, hadded, -⟩ := response.sent_eq request tm
  have hnone : headerValue added "Transfer-Encoding".toList = none := by
    rw [headerValue, Option.map_eq_none_iff, find?_eq_none]
    intro header h
    have hnames : ∀ header ∈ settings tm response.content,
        ¬ caseEq "Transfer-Encoding".toList header.1 = true := by
      intro header h
      rcases mem_cons.mp h with rfl | h
      · exact (by decide : ¬ caseEq "Transfer-Encoding".toList "Connection".toList = true)
      rcases mem_cons.mp h with rfl | h
      · exact (by decide : ¬ caseEq "Transfer-Encoding".toList "Content-Length".toList = true)
      rcases mem_cons.mp h with rfl | h
      · exact (by decide : ¬ caseEq "Transfer-Encoding".toList "Date".toList = true)
      · rw [mem_singleton.mp h]
        decide
    exact hnames header (hadded header h)
  have hserver :
      headerValue [("Server".toList, "sphttp/spserver".toList)] "Transfer-Encoding".toList =
        none := by decide
  rw [chunkedIn, hsent, headerValue_append, headerValue_append, hnone, hserver, Option.or_none,
    Option.or_none,
    ← chunkedIn]

theorem contentLength_message :
    contentLength (response.message request tm) =
      atoi ((headerValue (response.kept request) "Content-Length".toList).getD
        (if caseEq request.getMethod "head".toList then "0".toList else decimal response.content.length)) := by
  obtain ⟨added, hsent, -, hlen⟩ := response.sent_eq request tm
  have hserver :
      headerValue [("Server".toList, "sphttp/spserver".toList)] "Content-Length".toList =
        none := by decide
  have hvalue : headerValue (response.sent request tm) "Content-Length".toList =
      (headerValue (response.kept request) "Content-Length".toList).or
        (if caseEq request.getMethod "head".toList then none else some
          (decimal response.content.length)) := by
    rw [hsent, headerValue_append, headerValue_append, hserver, Option.or_none, hlen]
  rw [contentLength, HttpMessage.getHeaderValue, message, hvalue]
  cases headerValue (response.kept request) "Content-Length".toList with
  | some value => rfl
  | none =>
    rw [Option.none_or, Option.getD_none]
    split <;> rfl

/-! ## The reply -/

variable {request tm response}

theorem headerLines_rest {rest t : List Char} (h : rest = t ∨ rest = statusRest ++ '\n' :: t) :
    ∃ fuel, t.length ≤ fuel ∧
      (headerLines (rest.length + 1) rest).1.filterMap headerOf =
      (headerLines fuel t).1.filterMap headerOf ∧
      (headerLines (rest.length + 1) rest).2 = (headerLines fuel t).2 ∧
      ((∀ line ∈ (headerLines fuel t).1, headerFits line = true) →
        ∀ line ∈ (headerLines (rest.length + 1) rest).1, headerFits line = true) := by
  rcases h with rfl | rfl
  · exact ⟨_, Nat.le_succ _, rfl, rfl, id⟩
  · refine ⟨(statusRest ++ '\n' :: t).length, ?_, ?_⟩
    · rw [length_append, length_cons]
      omega
    · rw [headerLines_line (by decide) t (by decide) (by decide)]
      have hnone : headerOf (statusRest ++ ['\n']) = none := by decide
      refine ⟨filterMap_cons_none hnone, rfl, fun h => forall_mem_cons.mpr ⟨by decide, h⟩⟩

section

variable (hversion : response.FineVersion)
  (hfine : ∀ header ∈ response.sent request tm, FineHeader header)

include hversion hfine

theorem roundTrip_iff_body :
    response.RoundTrip request tm ↔
      chunkedIn (response.sent request tm) = false ∧
        contentLength (response.message request tm) = response.content.length := by
  obtain ⟨hline, hstart, hrest⟩ := hversion.start request tm
  obtain ⟨fuel, hfuel, hfound, hbody, hfits⟩ := headerLines_rest hrest
  have hproper := response.sent_proper request tm
  have hlines := headerLines_reply response.content hproper hfine hfuel
  have hall :
      ∀ line ∈ (headerLines fuel (response.behindStatus request tm)).1, headerFits line = true := by
    intro line hmem
    rw [behindStatus, hlines] at hmem
    rcases mem_append.mp hmem with hmem | hmem
    · obtain ⟨header, hheader, rfl⟩ := mem_map.mp hmem
      exact (headerOf_headerLine (hproper header hheader)).1
    · rw [mem_singleton.mp hmem]
      decide
  rw [behindStatus,
    (found_iff response.content hproper (response.sent_last request tm) hfuel).mpr hfine] at hfound
  rw [behindStatus, hlines] at hbody
  generalize hb : response.handle request tm = b at hline hstart hfound hbody hfits
  obtain ⟨n, hparse, hdrop⟩ := parseHeaders_ok (hfits hall) response.started
  have hn := parseHeaders_le hparse
  have hcontent := hdrop response.content hbody
  rw [hbody, hfound] at hparse
  have happend :
      append .new b = ((append (inBody (withHeaders response.started (response.sent request tm)))
      response.content).map (advance n)).map (advance (lineLen b)) := by
    rw [append_started hline hstart, parseRest_content hparse, hcontent]
  have hlength : b.length = lineLen b + (n + response.content.length) := by
    have hrestlen := congrArg List.length hcontent
    rw [length_drop] at hrestlen
    have := lineLen_le b
    rw [length_drop] at hrestlen hn
    omega
  have hiff : response.RoundTrip request tm ↔
      ∃ parser,
        append (inBody (withHeaders response.started (response.sent request tm))) response.content =
        .ok (parser, response.content.length) ∧ parser.isCompleted = true ∧
        parser.message = some (response.message request tm) := by
    rw [RoundTrip, hb, happend]
    refine exists_congr fun parser => and_congr_left fun _ => ?_
    cases append
      (inBody (withHeaders response.started (response.sent request tm))) response.content with
    | error e => exact iff_of_false nofun nofun
    | ok r =>
      constructor
      · intro h
        obtain ⟨hparser, hk⟩ := Prod.mk.inj (Except.ok.inj h)
        have hk : lineLen b + (n + r.2) = b.length := hk
        exact congrArg Except.ok (Prod.ext hparser (by dsimp only; omega))
      · intro h
        cases h
        exact congrArg (fun i => Except.ok (parser, i)) hlength.symm
  exact hiff.trans (append_inBody_iff rfl rfl response.content_length)

theorem roundTrip_iff_kept :
    response.RoundTrip request tm ↔ chunkedIn (response.kept request) = false ∧
      atoi ((headerValue (response.kept request) "Content-Length".toList).getD
        (if caseEq request.getMethod "head".toList then "0".toList else decimal response.content.length)) =
          response.content.length := by
  rw [roundTrip_iff_body hversion hfine, sent_chunked, contentLength_message]

end

theorem RoundTrip.survives (htrip : response.RoundTrip request tm) : response.Survives request := by
  obtain ⟨parser, happend, hdone, hmessage⟩ := id htrip
  obtain ⟨message, body, k, hstart, hinBody⟩ :=
    append_new_completed happend (of_decide_eq_true hdone)
  obtain ⟨c, hc, -⟩ := append_inBody_response hinBody hmessage rfl
  obtain ⟨-, -, hnone, -⟩ := startMessage_spec hstart
  have hkind : HttpKind.response response.statusCode response.reasonPhrase = message.kind :=
    congrArg HttpMessage.kind hc
  have hver : response.version = message.version := congrArg HttpMessage.version hc
  have hversion := FineVersion.of_start request tm hstart hkind.symm hver.symm
  obtain ⟨-, -, hrest⟩ := hversion.start request tm
  obtain ⟨fuel, hfuel, hfound, -⟩ := headerLines_rest hrest
  have hheaders : response.sent request tm = message.headers ++ _ := congrArg HttpMessage.headers hc
  rw [hnone, nil_append, hfound] at hheaders
  have hfine :=
    (found_iff response.content (response.sent_proper request tm) (response.sent_last request tm)
    hfuel).mp hheaders.symm
  obtain ⟨hchunked, hlen⟩ := (roundTrip_iff_kept hversion hfine).mp htrip
  exact ⟨hversion, (response.sent_fine_iff request tm).mp hfine, hchunked, hlen⟩

/-- **The reply of a handler is parsed back** just if its version and its headers are fine, it is
not taken for chunks, and the length of the content is the one that is announced. The reply is
taken to be no longer than the `int` that `append` gets for it. -/
theorem round_trip (request : HttpMessage) (tm : Tm) (response : HttpResponse) :
    response.RoundTrip request tm ↔ response.Survives request := by
  refine ⟨RoundTrip.survives, fun h => ?_⟩
  have hfine := (response.sent_fine_iff request tm).mpr h.headers
  exact (roundTrip_iff_kept h.version hfine).mpr ⟨h.chunked, h.length⟩

/-! ## A long value -/

theorem mem_removeHeader {headers : List (List Char × List Char)} {header : List Char × List Char}
    {name : List Char}
    (h : caseEq name header.1 = false) (hmem : header ∈ headers) :
    header ∈ removeHeader headers name := by
  rw [removeHeader, mem_eraseP_of_neg]
  · exact hmem
  · exact ne_true_of_eq_false h

theorem mem_kept {request : HttpMessage} {response : HttpResponse} {header : List Char × List Char}
    (hmem : header ∈ response.headers) (hlength : caseEq "Content-Length".toList header.1 = false)
    (hdate : caseEq "Date".toList header.1 = false)
    (hserver : caseEq "Server".toList header.1 = false) :
    header ∈ response.kept request := by
  refine mem_removeHeader hserver (mem_removeHeader hdate ?_)
  split
  · exact hmem
  · exact mem_removeHeader hlength hmem

def withEtag (value : List Char) (hclean : Clean value) (hne : value ≠ [])
    (hblank : value.head? ≠ some ' ') :
    HttpResponse where
  version := "HTTP/1.1".toList
  statusCode := 200
  reasonPhrase := "OK".toList
  headers := [("ETag".toList, value)]
  content := "hello".toList
  version_length := by decide
  version_nul := by decide
  status_ge := by decide
  status_lt := by decide
  reason_length := by decide
  reason_clean := by decide
  reason_ne := nofun
  name_nul := fun header h => List.mem_singleton.mp h ▸ (by decide : '\x00' ∉ "ETag".toList)
  name_colon := fun header h => List.mem_singleton.mp h ▸ (by decide : ':' ∉ "ETag".toList)
  value_clean := fun header h => List.mem_singleton.mp h ▸ hclean
  value_ne := fun header h => List.mem_singleton.mp h ▸ hne
  value_blank := fun header h => List.mem_singleton.mp h ▸ hblank
  content_length := by decide

theorem withEtag_lost {value : List Char} {hclean : Clean value} {hne : value ≠ []}
    {hblank : value.head? ≠ some ' '}
    (hlong : 511 < value.length) (request : HttpMessage) (tm : Tm) :
    ¬ (withEtag value hclean hne hblank).RoundTrip request tm := by
  intro htrip
  have hmem : ("ETag".toList, value) ∈ (withEtag value hclean hne hblank).headers :=
    mem_singleton_self _
  have hkept : _ ∈ kept request _ := mem_kept hmem (by rfl) (by rfl) (by rfl)
  have hlength : "ETag".toList.length + value.length + 4 ≤ 511 :=
    (htrip.survives.headers _ hkept).length
  omega

/-- A value of 600 characters in the answer to a request of `/`, at the epoch. -/
theorem etag_of_600_lost :
    ¬ (withEtag (List.replicate 600 'v') (fun c hc =>
      List.eq_of_mem_replicate hc ▸ by decide) nofun (by decide)).RoundTrip
      (HttpMessage.mk (.request "GET".toList (some "/".toList) (some "/".toList)
        []) "HTTP/1.1".toList [] [])
      (Tm.mk 4 1 0 70 0 0 0 (by decide) (by decide)) :=
  withEtag_lost (by rw [List.length_replicate]; decide) _ _

end HttpResponse

end Spserver
