import ReadingComment.Ktap.FormatItems

/-!
# Formatted output (`kp_str_fmt` of `runtime/kp_str.c`)

`kp_str_fmt` copies the literal characters of a format string to a sequence of the kernel and has
each conversion item print the next argument. The sequence is a page; a write that does not fit is
dropped, and so is what comes after it.

`trace_seq_putc`, `trace_seq_printf` and `sprint_symbol` are functions of the kernel. What is known
of them is in `Kernel`; `_trace_seq_puts` is one of the program.
-/

namespace Ktap

open Codec Lib List

namespace StrFmt

/-- `PAGE_SIZE`. -/
def pageSize : ℕ := 4096

/-- A `struct trace_seq`: what is in its buffer, and whether a write was dropped. -/
structure TraceSeq where
  buffer : Bytes
  full : Bool

/-- `trace_seq_init`. -/
def TraceSeq.init : TraceSeq := ⟨[], false⟩

/-- An argument of `trace_seq_printf`. -/
inductive Arg where
  | num (n : Number)
  | str (s : Bytes)

def decimal (ds : Bytes) : ℕ := ds.foldl (fun n c => 10 * n + (c.toNat - 48)) 0

/-- A text with blanks up to the width, behind it under the flag `-`. -/
def justify (flags : Bytes) (width : ℕ) (s : Bytes) : Bytes :=
  let blanks := List.replicate (width - s.length) 32
  if 45 ∈ flags then s ++ blanks else blanks ++ s

/-- What a `%s` item without a precision prints for a string: its characters before the zero. -/
def Item.strText (i : Item) (s : Bytes) : Bytes :=
  justify i.flags (decimal i.width) (cstring s)

/-- The functions of the kernel. -/
structure Kernel where
  /-- the text of a format string with one item -/
  vsnprintf : Bytes → Arg → Bytes
  /-- `SPRINT_SYMBOL` -/
  sprintSymbol : Number → Bytes
  traceSeqPutc : TraceSeq → BitVec 8 → TraceSeq
  traceSeqPrintf : TraceSeq → Bytes → Arg → TraceSeq
  vsnprintf_str : ∀ (i : Item) (s : Bytes), i.conv = .s → i.prec = none →
    vsnprintf i.bytes (.str s) = i.strText s
  putc_room : ∀ seq c, seq.full = false → seq.buffer.length < pageSize - 1 →
    traceSeqPutc seq c = ⟨seq.buffer ++ [c], false⟩
  putc_lost : ∀ seq c, (seq.full = true ∨ pageSize - 1 ≤ seq.buffer.length) →
    traceSeqPutc seq c = ⟨seq.buffer, true⟩
  printf_room : ∀ seq form x, seq.full = false →
    seq.buffer.length + (vsnprintf form x).length < pageSize - 1 →
    traceSeqPrintf seq form x = ⟨seq.buffer ++ vsnprintf form x, false⟩
  printf_lost : ∀ seq form x,
    (seq.full = true ∨ pageSize - 1 ≤ seq.buffer.length + (vsnprintf form x).length) →
    (traceSeqPrintf seq form x).buffer = seq.buffer ∧
      ((traceSeqPrintf seq form x).full = true ∨ pageSize - 1 ≤ seq.buffer.length)

/-- `_trace_seq_puts(s, str)`. -/
def traceSeqPuts (seq : TraceSeq) (str : Bytes) : TraceSeq :=
  let len := (cstring str).length
  if seq.full then seq
  else if len > pageSize - 1 - seq.buffer.length then { seq with full := true }
  else { seq with buffer := seq.buffer ++ cstring str }

/-- How `kp_str_fmt` ends: it returns 0; it returns -1 after an error; it goes on with `NULL` after
one; it has written behind the end of `form`. -/
inductive FmtEnd where
  | ok
  | error (msg : String)
  | nullDeref (msg : String)
  | overrun

/-- What a conversion item comes to. -/
inductive ItemEnd where
  | next (seq : TraceSeq)
  | ret (e : FmtEnd) (seq : TraceSeq)

/-- `kp_arg_checknumber(ks, arg)`, and then what is done with the number. -/
def argChecknumber (seq : TraceSeq) (arg : ℕ) (v : Val Bytes) (k : Number → ItemEnd) : ItemEnd :=
  match v with
  | .num n => k n
  | _ => .ret (.error s!"wrong type of argument {arg}\n") seq

/-- The cases that print a `long long`. -/
def printLong (kernel : Kernel) (seq : TraceSeq) (form : Bytes) (n : Number) : ItemEnd :=
  let form := addlenmod form intfrmlen
  if maxFormat < form.length + 1 then .ret .overrun seq
  else .next (kernel.traceSeqPrintf seq form (.num n))

/-- The case `'s'`. `eventstr` is what `kp_event_tostr` returns, which prints an error when that is
`NULL`. -/
def printString (kernel : Kernel) (eventstr : Option Bytes) (seq : TraceSeq) (arg : ℕ)
    (form : Bytes)
    (v : Val Bytes) : ItemEnd :=
  match v with
  | .nil => .ret .ok (traceSeqPuts seq [110, 105, 108])
  | .eventstr _ =>
    match eventstr with
    | none => .ret (.error "cannot stringify event str in invalid context\n") seq
    | some str => .ret .ok (traceSeqPuts seq str)
  | .str s =>
    if 46 ∉ cstring form ∧ s.length ≥ 100 then .next (traceSeqPuts seq s)
    else .next (kernel.traceSeqPrintf seq form (.str s))
  | _ => .ret (.error s!"wrong type of argument {arg}\n") seq

/-- The `switch` of `kp_str_fmt`. -/
def formatItem (kernel : Kernel) (eventstr : Option Bytes) (seq : TraceSeq) (arg : ℕ) (form : Bytes)
    (v : Val Bytes) (c : BitVec 8) : ItemEnd :=
  match Conv.ofByte c with
  | some .c =>
    argChecknumber seq arg v fun n => .next (kernel.traceSeqPrintf seq form (.num n))
  | some .p =>
    argChecknumber seq arg v fun n => .next (traceSeqPuts seq (kernel.sprintSymbol n))
  | some .s => printString kernel eventstr seq arg form v
  | some _ => argChecknumber seq arg v (printLong kernel seq form)
  | none => .ret (.error s!"invalid option '%{Char.ofNat c.toNat}' to 'format'") seq

/-- The loop of `kp_str_fmt`: the arguments behind `arg` and the format string from `strfrmt` on. -/
def kpStrFmtLoop (kernel : Kernel) (eventstr : Option Bytes) (seq : TraceSeq) (arg : ℕ)
    (args : List (Val Bytes)) : Bytes → FmtEnd × TraceSeq
  | [] => (.ok, seq)
  | c :: strfrmt =>
    if c ≠ 37 then kpStrFmtLoop kernel eventstr (kernel.traceSeqPutc seq c) arg args strfrmt
    else if strfrmt.head? = some 37 then
      kpStrFmtLoop kernel eventstr (kernel.traceSeqPutc seq 37) arg args strfrmt.tail
    else
      let arg := arg + 1
      match args with
      | [] => (.error s!"bad argument #{arg}: (no value)\n", seq)
      | v :: args =>
        match scanformat strfrmt with
        | .error msg => (.nullDeref msg, seq)
        | .ok (form, n) =>
          if maxFormat < form.length + 1 then (.overrun, seq)
          else
            match formatItem kernel eventstr seq arg form v (charAt strfrmt n) with
            | .ret e seq => (e, seq)
            | .next seq => kpStrFmtLoop kernel eventstr seq arg args (strfrmt.drop (n + 1))
  termination_by strfrmt => strfrmt.length
  decreasing_by all_goals grind

/-- `kp_str_fmt(ks, seq)` with the format string `fmt` and the arguments `args`. -/
def kpStrFmt (kernel : Kernel) (eventstr : Option Bytes) (fmt : Bytes) (args : List (Val Bytes))
    (seq : TraceSeq) : FmtEnd × TraceSeq :=
  kpStrFmtLoop kernel eventstr seq 1 args fmt

/-! ## What is promised -/

/-- A piece of a format string: a literal character, `%%`, or a conversion item. -/
inductive Piece where
  | lit (c : BitVec 8) (h : c ≠ 37)
  | percent
  | item (i : Item)

def Piece.bytes : Piece → Bytes
  | .lit c _ => [c]
  | .percent => [37, 37]
  | .item i => i.bytes

/-- What an item makes of an argument. A string of 100 characters or more is not formatted without a
precision: it is longer than every width. -/
def Item.render (kernel : Kernel) (eventstr : Option Bytes) (i : Item) (v : Val Bytes) :
    Option Bytes :=
  match i.conv, v with
  | .s, .nil => some (kernel.vsnprintf i.bytes (.str [110, 105, 108]))
  | .s, .eventstr _ => eventstr.map fun str => kernel.vsnprintf i.bytes (.str str)
  | .s, .str s =>
    some (if i.prec = none ∧ s.length ≥ 100 then cstring s else kernel.vsnprintf i.bytes (.str s))
  | .s, _ => none
  | .c, .num n => some (kernel.vsnprintf i.bytes (.num n))
  | .p, .num n => some (cstring (kernel.sprintSymbol n))
  | _, .num n => some (kernel.vsnprintf i.longBytes (.num n))
  | _, _ => none

/-- The text of a format string, taken apart, over its arguments; no text if an item has no argument
or cannot print it. -/
def render (kernel : Kernel) (eventstr : Option Bytes) :
    List Piece → List (Val Bytes) → Option Bytes
  | [], _ => some []
  | .lit c _ :: ps, args => (render kernel eventstr ps args).map (c :: ·)
  | .percent :: ps, args => (render kernel eventstr ps args).map (37 :: ·)
  | .item _ :: _, [] => none
  | .item i :: ps, v :: args =>
    (i.render kernel eventstr v).bind fun text => (render kernel eventstr ps args).map (text ++ ·)

/-- `kp_str_fmt` formats: it reports an error, or it writes the text of the whole format string; and
it keeps to the buffer `form`. -/
def Formats (kernel : Kernel) (eventstr : Option Bytes) (fmt : Bytes) (args : List (Val Bytes)) :
    Prop :=
  match kpStrFmt kernel eventstr fmt args .init with
  | (.ok, seq) =>
    ∃ ps : List Piece, ps.flatMap Piece.bytes = fmt ∧
      render kernel eventstr ps args = some seq.buffer
  | (.error _, _) => True
  | (.nullDeref _, _) => False
  | (.overrun, _) => False

/-! ## Writes -/

/-- A write to the sequence. -/
inductive Write where
  | putc (c : BitVec 8)
  | puts (str : Bytes)
  | printf (form : Bytes) (x : Arg)

def Kernel.text (kernel : Kernel) : Write → Bytes
  | .putc c => [c]
  | .puts str => cstring str
  | .printf form x => kernel.vsnprintf form x

def Kernel.write (kernel : Kernel) (seq : TraceSeq) : Write → TraceSeq
  | .putc c => kernel.traceSeqPutc seq c
  | .puts str => traceSeqPuts seq str
  | .printf form x => kernel.traceSeqPrintf seq form x

/-- A write behind `len` characters fits; the last character of the page is not for `printf`. -/
def Kernel.FitsAt (kernel : Kernel) (len : ℕ) : Write → Prop
  | .putc _ => len < pageSize - 1
  | .puts str => len + (cstring str).length ≤ pageSize - 1
  | .printf form x =>
    kernel.vsnprintf form x = [] ∨ len + (kernel.vsnprintf form x).length < pageSize - 1

instance (kernel : Kernel) (len : ℕ) (w : Write) : Decidable (kernel.FitsAt len w) :=
  match w with
  | .putc _ => inferInstanceAs (Decidable (len < pageSize - 1))
  | .puts str => inferInstanceAs (Decidable (len + (cstring str).length ≤ pageSize - 1))
  | .printf form x => inferInstanceAs (Decidable (kernel.vsnprintf form x = [] ∨
      len + (kernel.vsnprintf form x).length < pageSize - 1))

def Kernel.Fits (kernel : Kernel) (len : ℕ) : List Write → Prop
  | [] => True
  | w :: ws => kernel.FitsAt len w ∧ kernel.Fits (len + (kernel.text w).length) ws

variable {kernel : Kernel} {eventstr : Option Bytes}

/-- Nothing was dropped so far that had a text. -/
structure Open (seq : TraceSeq) : Prop where
  length : seq.buffer.length ≤ pageSize - 1
  full : seq.full = true → seq.buffer.length = pageSize - 1

def Closed (seq : TraceSeq) : Prop := seq.full = true ∨ pageSize - 1 ≤ seq.buffer.length

variable {seq : TraceSeq}

theorem write_fits {w : Write} (h : Open seq) (hfit : kernel.FitsAt seq.buffer.length w) :
    (kernel.write seq w).buffer = seq.buffer ++ kernel.text w ∧ Open (kernel.write seq w) := by
  obtain ⟨hlen, hfull⟩ := h
  cases w with
  | putc c =>
    have hlt : seq.buffer.length < pageSize - 1 := hfit
    have hroom : seq.full = false := eq_false_of_ne_true fun h => by
      have := hfull h
      omega
    rw [Kernel.write, kernel.putc_room seq c hroom hlt]
    refine ⟨rfl, ?_, nofun⟩
    rw [length_append]
    exact hlt
  | puts str =>
    have hle : seq.buffer.length + (cstring str).length ≤ pageSize - 1 := hfit
    have hnot : ¬ (cstring str).length > pageSize - 1 - seq.buffer.length := by omega
    rw [Kernel.write, traceSeqPuts]
    by_cases hf : seq.full = true
    · have hnil : cstring str = [] := length_eq_zero_iff.mp (by have := hfull hf; omega)
      rw [if_pos hf, Kernel.text, hnil, append_nil]
      exact ⟨rfl, hlen, hfull⟩
    · rw [if_neg hf, if_neg hnot]
      refine ⟨rfl, ?_, fun h => absurd h hf⟩
      rw [length_append]
      exact hle
  | printf form x =>
    by_cases hroom : seq.full = false ∧
        seq.buffer.length + (kernel.vsnprintf form x).length < pageSize - 1
    · rw [Kernel.write, kernel.printf_room seq form x hroom.1 hroom.2]
      refine ⟨rfl, ?_, nofun⟩
      rw [length_append]
      exact Nat.le_of_lt hroom.2
    · have hlost : seq.full = true ∨
          pageSize - 1 ≤ seq.buffer.length + (kernel.vsnprintf form x).length := by
        rw [not_and_or, Bool.not_eq_false, Nat.not_lt] at hroom
        exact hroom
      have hnil : kernel.vsnprintf form x = [] := by
        rcases hfit with hnil | hlt
        · exact hnil
        · rcases hlost with hf | hle
          · have := hfull hf
            omega
          · omega
      have hend : seq.buffer.length = pageSize - 1 := by
        rw [hnil, length_nil] at hlost
        rcases hlost with hf | hle
        · exact hfull hf
        · omega
      obtain ⟨hbuffer, -⟩ := kernel.printf_lost seq form x hlost
      rw [Kernel.write, Kernel.text, hbuffer, hnil, append_nil]
      refine ⟨rfl, ?_, fun _ => ?_⟩
      · rw [hbuffer]
        exact hlen
      · rw [hbuffer]
        exact hend

theorem write_lost {w : Write} (h : Open seq) (hfit : ¬ kernel.FitsAt seq.buffer.length w) :
    (kernel.write seq w).buffer = seq.buffer ∧ kernel.text w ≠ [] ∧
    Closed (kernel.write seq w) := by
  cases w with
  | putc c =>
    have hlost : pageSize - 1 ≤ seq.buffer.length := Nat.not_lt.mp hfit
    rw [Kernel.write, kernel.putc_lost seq c (.inr hlost)]
    exact ⟨rfl, cons_ne_nil _ _, .inl rfl⟩
  | puts str =>
    have hlen := h.length
    have hlong : ¬ seq.buffer.length + (cstring str).length ≤ pageSize - 1 := hfit
    have htext : kernel.text (.puts str) ≠ [] := by
      intro hnil
      have hnil' : (cstring str).length = 0 := congrArg List.length hnil
      omega
    have hover : (cstring str).length > pageSize - 1 - seq.buffer.length := by omega
    rw [Kernel.write, traceSeqPuts]
    by_cases hf : seq.full = true
    · rw [if_pos hf]
      exact ⟨rfl, htext, .inl hf⟩
    · rw [if_neg hf, if_pos hover]
      exact ⟨rfl, htext, .inl rfl⟩
  | printf form x =>
    rw [Kernel.FitsAt, not_or, Nat.not_lt] at hfit
    obtain ⟨hbuffer, hclosed⟩ := kernel.printf_lost seq form x (.inr hfit.2)
    refine ⟨hbuffer, hfit.1, ?_⟩
    rw [Closed, Kernel.write, hbuffer]
    exact hclosed

theorem write_closed {w : Write} (h : Closed seq) :
    (kernel.write seq w).buffer = seq.buffer ∧ Closed (kernel.write seq w) := by
  cases w with
  | putc c =>
    rw [Kernel.write, kernel.putc_lost seq c h]
    exact ⟨rfl, .inl rfl⟩
  | puts str =>
    rw [Kernel.write, traceSeqPuts]
    by_cases hf : seq.full = true
    · rw [if_pos hf]
      exact ⟨rfl, .inl hf⟩
    · rw [if_neg hf]
      by_cases hover : (cstring str).length > pageSize - 1 - seq.buffer.length
      · rw [if_pos hover]
        exact ⟨rfl, .inl rfl⟩
      · have hle := h.resolve_left hf
        have hnil : cstring str = [] := length_eq_zero_iff.mp (by omega)
        rw [if_neg hover, hnil]
        exact ⟨append_nil _, .inr (by rw [append_nil]; exact hle)⟩
  | printf form x =>
    obtain ⟨hbuffer, hclosed⟩ :=
      kernel.printf_lost seq form x (h.imp_right fun hle => Nat.le_trans hle (Nat.le_add_right _ _))
    refine ⟨hbuffer, ?_⟩
    rw [Closed, Kernel.write, hbuffer]
    exact hclosed

theorem writes_closed (h : Closed seq) (ws : List Write) :
    (ws.foldl kernel.write seq).buffer = seq.buffer ∧ Closed (ws.foldl kernel.write seq) := by
  induction ws generalizing seq with
  | nil => exact ⟨rfl, h⟩
  | cons w ws ih =>
    obtain ⟨hbuffer, hclosed⟩ := @write_closed kernel seq w h
    obtain ⟨hbuffer', hclosed'⟩ := ih hclosed
    exact ⟨hbuffer'.trans hbuffer, hclosed'⟩

variable {ws : List Write}

theorem writes_fit (h : Open seq) (hfit : kernel.Fits seq.buffer.length ws) :
    (ws.foldl kernel.write seq).buffer = seq.buffer ++ ws.flatMap kernel.text ∧
      Open (ws.foldl kernel.write seq) := by
  induction ws generalizing seq with
  | nil => exact ⟨(append_nil _).symm, h⟩
  | cons w ws ih =>
    obtain ⟨hbuffer, hopen⟩ := write_fits h hfit.1
    have hrest : kernel.Fits (kernel.write seq w).buffer.length ws := by
      rw [hbuffer, length_append]
      exact hfit.2
    obtain ⟨hbuffer', hopen'⟩ := ih hopen hrest
    refine ⟨?_, hopen'⟩
    rw [foldl_cons, hbuffer', hbuffer, flatMap_cons, append_assoc]

theorem writes_lost (h : Open seq) (hfit : ¬ kernel.Fits seq.buffer.length ws) :
    (ws.foldl kernel.write seq).buffer.length < (seq.buffer ++ ws.flatMap kernel.text).length ∧
      Closed (ws.foldl kernel.write seq) := by
  induction ws generalizing seq with
  | nil => exact absurd trivial hfit
  | cons w ws ih =>
    rw [foldl_cons, flatMap_cons, ← append_assoc]
    by_cases hw : kernel.FitsAt seq.buffer.length w
    · obtain ⟨hbuffer, hopen⟩ := write_fits h hw
      have hrest : ¬ kernel.Fits (kernel.write seq w).buffer.length ws := by
        rw [hbuffer, length_append]
        exact fun hrest => hfit ⟨hw, hrest⟩
      rw [← hbuffer]
      exact ih hopen hrest
    · obtain ⟨hbuffer, htext, hclosed⟩ := write_lost h hw
      obtain ⟨hbuffer', hclosed'⟩ := writes_closed hclosed ws
      have hpos := length_pos_of_ne_nil htext
      refine ⟨?_, hclosed'⟩
      rw [hbuffer', hbuffer, length_append, length_append]
      omega

/-- **The writes that fit** are those whose text is the whole of what is added. -/
theorem writes_eq_iff (h : Open seq) :
    (ws.foldl kernel.write seq).buffer = seq.buffer ++ ws.flatMap kernel.text ↔
      kernel.Fits seq.buffer.length ws := by
  refine ⟨fun heq => ?_, fun hfit => (writes_fit h hfit).1⟩
  by_contra hfit
  have hlt := (writes_lost h hfit).1
  rw [heq] at hlt
  exact absurd hlt (Nat.lt_irrefl _)

end StrFmt

end Ktap
