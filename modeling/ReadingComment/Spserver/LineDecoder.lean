import Mathlib.Data.List.Induction
import ReadingComment.Lib.CString

/-!
# Lines of a session (`spserver/spmsgdecoder.cpp`, `spserver/spwin32buffer.cpp`)

A line ends with CR, with LF, or with both in either order. `spwin32buffer_readline` drains the
second character of such a pair only if it is in the buffer; if it comes with the next read, it ends
a line of its own.

Bytes are characters, and there is memory for the lines.
-/

namespace Spserver

open Lib List

namespace LineDecoder

/-- `spwin32buffer_readline(buffer)`: the line, and what is left in the buffer. -/
def readline (data : List Char) : Option (List Char × List Char) :=
  let i := (data.takeWhile (! isBreak ·)).length
  if i = data.length then none
  else
    let line := data.take i
    let fch := data.getD i '\x00'
    let sch := data.getD (i + 1) '\x00'
    let i := if i < data.length - 1 ∧ isBreak sch = true ∧ sch ≠ fch then i + 1 else i
    some (line, data.drop (i + 1))

theorem readline_length {data line rest : List Char} (h : readline data = some (line, rest)) :
    rest.length < data.length := by
  have hle := (takeWhile_sublist (fun c => ! isBreak c) (l := data)).length_le
  simp only [readline] at h
  split at h
  case isTrue => cases h
  case isFalse hlt =>
    cases h
    rw [length_drop]
    omega

/-- `SP_LineMsgDecoder::decode(inBuffer)`: the line and what is left; `none` for `eMoreData`. -/
def lineDecode (inBuffer : List Char) : Option (List (List Char) × List Char) :=
  (readline inBuffer).map fun r => ([r.1], r.2)

/-- The loop of `SP_MultiLineMsgDecoder::decode`: the lines that are pushed, and what is left. -/
def pushLines (inBuffer : List Char) : List (List Char) × List Char :=
  match _h : readline inBuffer with
  | none => ([], inBuffer)
  | some (line, rest) => (line :: (pushLines rest).1, (pushLines rest).2)
termination_by inBuffer.length
decreasing_by all_goals exact readline_length _h

/-- `SP_MultiLineMsgDecoder::decode(inBuffer)`. -/
def multiLineDecode (inBuffer : List Char) : Option (List (List Char) × List Char) :=
  if (pushLines inBuffer).1 = [] then none else some (pushLines inBuffer)

/-- The two decoders. -/
inductive Decoder where
  | line
  | multiLine
  deriving DecidableEq, Repr

def Decoder.decode : Decoder → List Char → Option (List (List Char) × List Char)
  | line => lineDecode
  | multiLine => multiLineDecode

/-- `decode` is called until it needs more data, or so many times: the lines, and what is left. -/
def Decoder.decodeAll (d : Decoder) : ℕ → List Char → List (List Char) × List Char
  | 0, inBuffer => ([], inBuffer)
  | calls + 1, inBuffer =>
    match d.decode inBuffer with
    | none => ([], inBuffer)
    | some (lines, rest) => (lines ++ (d.decodeAll calls rest).1, (d.decodeAll calls rest).2)

/-- The reads come one after the other, and after each one `decode` is called until it needs more
data. -/
def Decoder.feed (d : Decoder) : List (List Char) → List Char → List (List Char) × List Char
  | [], inBuffer => ([], inBuffer)
  | r :: reads, inBuffer =>
    let (lines, inBuffer) := d.decodeAll ((inBuffer ++ r).length + 1) (inBuffer ++ r)
    (lines ++ (d.feed reads inBuffer).1, (d.feed reads inBuffer).2)

/-! ## What is meant -/

def ends : List (List Char) := [['\r'], ['\n'], ['\r', '\n'], ['\n', '\r']]

/-- Every character of a stream is in one of the lines, in what ends one of them, or is left. -/
inductive Cut : List Char → List (List Char) → List Char → Prop where
  | rest {left : List Char} (h : ∀ c ∈ left, isBreak c = false) : Cut left [] left
  | line {l t stream left : List Char} {lines : List (List Char)} (hl : ∀ c ∈ l, isBreak c = false)
    (ht : t ∈ ends) (h : Cut stream lines left) : Cut (l ++ t ++ stream) (l :: lines) left

/-- How many characters at the beginning end lines and are each another one than the one before. -/
def alternating : Option Char → List Char → ℕ
  | _, [] => 0
  | prev, c :: cs => if isBreak c = true ∧ prev ≠ some c then alternating (some c) cs + 1 else 0

/-- A pair of CR and LF is in two reads: before the read there is an odd number of such characters
in a row, and an odd number of them goes on in it. -/
def Splits (before r : List Char) : Prop :=
  Odd (alternating none before.reverse) ∧ Odd (alternating before.getLast? r)

/-! ## One character after the other -/

/-- Lines from a stream: the character that ended the line before and may have a second one, and the
characters of the line that is not over. The result is the lines, and both at the end. -/
def scan : Option Char → List Char → List Char → List (List Char) × Option Char × List Char
  | first, cur, [] => ([], first, cur)
  | first, cur, c :: cs =>
    if isBreak c = true then
      if first ≠ none ∧ first ≠ some c then scan none cur cs
      else (cur :: (scan (some c) [] cs).1, (scan (some c) [] cs).2)
    else scan none (cur ++ [c]) cs

theorem scan_append (first : Option Char) (cur xs ys : List Char) :
    scan first cur (xs ++ ys) =
      ((scan first cur xs).1 ++ (scan (scan first cur xs).2.1 (scan first cur xs).2.2 ys).1,
        (scan (scan first cur xs).2.1 (scan first cur xs).2.2 ys).2) := by
  induction xs generalizing first cur with
  | nil => rfl
  | cons c xs ih =>
    rw [cons_append, scan, scan]
    split
    · split
      · exact ih none cur
      · rw [ih (some c) []]
        rfl
    · exact ih none (cur ++ [c])

theorem scan_plain (first : Option Char) (cur : List Char) {l : List Char}
    (hl : ∀ c ∈ l, isBreak c = false) (rest : List Char) (hne : l ≠ [] ∨ first = none) :
    scan first cur (l ++ rest) = scan none (cur ++ l) rest := by
  induction l generalizing first cur with
  | nil =>
    obtain rfl := hne.resolve_left fun h => h rfl
    rw [nil_append, append_nil]
  | cons c l ih =>
    rw [cons_append, scan, if_neg (by rw [hl c mem_cons_self]; exact Bool.false_ne_true),
      ih none _ (fun x hx => hl x (mem_cons_of_mem c hx)) (.inr rfl), append_assoc]
    rfl

/-- What is left behind the character that ends a line: the second one of a pair goes with it. -/
def behind (c : Char) : List Char → List Char
  | [] => []
  | d :: rest => if isBreak d = true ∧ d ≠ c then rest else d :: rest

theorem scan_behind (c : Char) (cur rest : List Char) :
    (scan (some c) cur rest).1 = (scan none cur (behind c rest)).1 ∧
      (scan (some c) cur rest).2.2 = (scan none cur (behind c rest)).2.2 := by
  cases rest with
  | nil => exact ⟨rfl, rfl⟩
  | cons d rest =>
    rw [behind, scan]
    cases hd : isBreak d with
    | false =>
      rw [if_neg Bool.false_ne_true, if_neg fun h => Bool.false_ne_true h.1, scan, hd,
        if_neg Bool.false_ne_true]
      exact ⟨rfl, rfl⟩
    | true =>
      rw [if_pos rfl]
      by_cases hne : d = c
      · subst hne
        rw [if_neg fun h => h.2 rfl, if_neg fun h => h.2 rfl, scan, hd, if_pos rfl,
          if_neg fun h => h.1 rfl]
        exact ⟨rfl, rfl⟩
      · rw [if_pos ⟨Option.some_ne_none c, fun h => hne (Option.some.inj h).symm⟩,
          if_pos ⟨rfl, hne⟩]
        exact ⟨rfl, rfl⟩

/-! ## The buffer -/

theorem readline_eq {l rest : List Char} {c : Char} (hl : ∀ x ∈ l, isBreak x = false)
    (hc : isBreak c = true) : readline (l ++ c :: rest) = some (l, behind c rest) := by
  have htake : (l ++ c :: rest).takeWhile (! isBreak ·) = l := by
    apply takeWhile_append_stop
    · intro x hx
      rw [hl x hx, Bool.not_false]
    · intro x hx
      cases hx
      rw [hc, Bool.not_true]
  have hlen : (l ++ c :: rest).length = l.length + rest.length + 1 := by
    rw [length_append, length_cons]
    omega
  have hdrop : ∀ n, (l ++ c :: rest).drop (l.length + n + 1) = rest.drop n := by
    intro n
    rw [Nat.add_assoc, drop_append, drop_eq_nil_of_le (Nat.le_add_right _ _),
      Nat.add_sub_cancel_left]
    rfl
  have hget : ∀ n, (l ++ c :: rest).getD (l.length + n) '\x00' = (c :: rest).getD n '\x00' := by
    intro n
    rw [getD_eq_getElem?_getD, getElem?_append_right (Nat.le_add_right _ _),
      Nat.add_sub_cancel_left, getD_eq_getElem?_getD]
  have hsecond := hget 1
  have hfirst := hget 0
  rw [Nat.add_zero] at hfirst
  rw [readline]
  simp only [htake, hfirst, hsecond, take_left]
  rw [if_neg (by omega)]
  cases rest with
  | nil =>
    rw [if_neg fun h => absurd h.1 (by rw [hlen]; exact Nat.lt_irrefl _)]
    exact congrArg (fun x => some (l, x)) (hdrop 0)
  | cons d rest =>
    rw [length_cons] at hlen
    rw [behind]
    by_cases hd : isBreak d = true ∧ d ≠ c
    · rw [if_pos ⟨by omega, hd⟩, if_pos hd]
      exact congrArg (fun x => some (l, x)) (hdrop 1)
    · rw [if_neg fun h => hd h.2, if_neg hd]
      exact congrArg (fun x => some (l, x)) (hdrop 0)

theorem readline_none {data : List Char} (h : ∀ x ∈ data, isBreak x = false) :
    readline data = none := by
  have htake : data.takeWhile (! isBreak ·) = data := by
    rw [takeWhile_eq_self_iff]
    intro x hx
    rw [h x hx, Bool.not_false]
  simp only [readline, htake, if_true]

theorem buffer_cases (data : List Char) : (∀ x ∈ data, isBreak x = false) ∨
    ∃ l c rest, data = l ++ c :: rest ∧ (∀ x ∈ l, isBreak x = false) ∧ isBreak c = true := by
  cases hdrop : data.dropWhile (! isBreak ·) with
  | nil =>
    refine .inl fun x hx => ?_
    have := dropWhile_eq_nil_iff.mp hdrop x hx
    rwa [Bool.not_eq_true'] at this
  | cons c rest =>
    refine .inr ⟨data.takeWhile (! isBreak ·), c, rest, ?_, ?_, ?_⟩
    · rw [← hdrop, takeWhile_append_dropWhile]
    · intro x hx
      have := mem_takeWhile_imp hx
      rwa [Bool.not_eq_true'] at this
    · have := head_dropWhile (! isBreak ·) data c (by rw [hdrop]; rfl)
      rwa [Bool.not_eq_false'] at this

theorem behind_length (c : Char) (rest : List Char) : (behind c rest).length ≤ rest.length := by
  cases rest with
  | nil => exact le_rfl
  | cons d rest =>
    rw [behind]
    split
    · exact Nat.le_succ _
    · exact le_rfl

theorem pushLines_none {data : List Char} (h : ∀ x ∈ data, isBreak x = false) :
    pushLines data = ([], data) := by
  rw [pushLines]
  split
  case h_1 => rfl
  case h_2 line rest hline =>
    rw [readline_none h] at hline
    cases hline

theorem pushLines_cons {l rest : List Char} {c : Char} (hl : ∀ x ∈ l, isBreak x = false)
    (hc : isBreak c = true) : pushLines (l ++ c :: rest) =
      (l :: (pushLines (behind c rest)).1, (pushLines (behind c rest)).2) := by
  have hline : readline (l ++ c :: rest) = some (l, behind c rest) := readline_eq hl hc
  rw [pushLines]
  split
  case h_1 hnone =>
    rw [hline] at hnone
    cases hnone
  case h_2 line rest' heq =>
    rw [hline] at heq
    cases heq
    rfl

theorem buffer_induction {P : List Char → Prop}
    (hnone : ∀ data, (∀ x ∈ data, isBreak x = false) → P data)
    (hline : ∀ l c rest, (∀ x ∈ l, isBreak x = false) → isBreak c = true → P (behind c rest) →
      P (l ++ c :: rest)) (data : List Char) : P data := by
  induction hn : data.length using Nat.strong_induction_on generalizing data with
  | h n ih =>
    rcases buffer_cases data with h | ⟨l, c, rest, rfl, hl, hc⟩
    · exact hnone data h
    · have hlen := behind_length c rest
      rw [length_append, length_cons] at hn
      exact hline l c rest hl hc (ih _ (by omega) (behind c rest) rfl)

/-- **All lines of a buffer**, as they come out one character after the other. -/
theorem pushLines_eq (data : List Char) :
    pushLines data = ((scan none [] data).1, (scan none [] data).2.2) := by
  induction data using buffer_induction with
  | hnone data h =>
    have hscan := scan_plain none [] h [] (.inr rfl)
    rw [append_nil] at hscan
    rw [pushLines_none h, hscan]
    rfl
  | hline l c rest hl hc ih =>
    obtain ⟨hlines, hcur⟩ := scan_behind c [] rest
    rw [pushLines_cons hl hc, ih, scan_plain none [] hl _ (.inr rfl), scan, if_pos hc,
      if_neg fun h => h.1 rfl, hlines, hcur]
    rfl

theorem pushLines_left (data : List Char) : ∀ x ∈ (pushLines data).2, isBreak x = false := by
  induction data using buffer_induction with
  | hnone data h =>
    rw [pushLines_none h]
    exact h
  | hline l c rest hl hc ih =>
    rw [pushLines_cons hl hc]
    exact ih

theorem decodeAll_eq (d : Decoder) (data : List Char) {calls : ℕ} (h : data.length < calls) :
    d.decodeAll calls data = pushLines data := by
  obtain ⟨calls, rfl⟩ := Nat.exists_eq_succ_of_ne_zero (Nat.ne_zero_of_lt h)
  cases d with
  | line =>
    induction data using buffer_induction generalizing calls with
    | hnone data hnone =>
      rw [Decoder.decodeAll, Decoder.decode, lineDecode, readline_none hnone, pushLines_none hnone]
      rfl
    | hline l c rest hl hc ih =>
      have hlen := behind_length c rest
      rw [length_append, length_cons] at h
      obtain ⟨calls, rfl⟩ := Nat.exists_eq_succ_of_ne_zero (n := calls) (by omega)
      rw [Decoder.decodeAll, Decoder.decode, lineDecode, readline_eq hl hc, pushLines_cons hl hc]
      show ([l] ++ _, _) = _
      rw [ih calls (by omega)]
      rfl
  | multiLine =>
    have hleft := pushLines_none (pushLines_left data)
    have hagain :
        Decoder.multiLine.decodeAll calls (pushLines data).2 = ([], (pushLines data).2) := by
      cases calls with
      | zero => rfl
      | succ calls => rw [Decoder.decodeAll, Decoder.decode, multiLineDecode, hleft, if_pos rfl]
    rw [Decoder.decodeAll, Decoder.decode, multiLineDecode]
    by_cases hnil : (pushLines data).1 = []
    · -- nothing was drained
      rcases buffer_cases data with hnone | ⟨l, c, rest, rfl, hl, hc⟩
      · rw [pushLines_none hnone, if_pos rfl]
      · rw [pushLines_cons hl hc] at hnil
        cases hnil
    · rw [if_neg hnil]
      show ((pushLines data).1 ++ _, _) = _
      rw [hagain, append_nil]

theorem decodeAll_read (d : Decoder) {cur : List Char} (hcur : ∀ c ∈ cur, isBreak c = false)
    (r : List Char) : d.decodeAll ((cur ++ r).length + 1) (cur ++ r) =
      ((scan none cur r).1, (scan none cur r).2.2) := by
  rw [decodeAll_eq d _ (Nat.lt_succ_self _), pushLines_eq, scan_plain none [] hcur r (.inr rfl)]
  rfl

/-! ## Nothing is lost -/

theorem Cut.append {stream left r : List Char} {lines : List (List Char)}
    (h : Cut stream lines left)
    {lines' : List (List Char)} {left' : List Char} (h' : Cut (left ++ r) lines' left') :
    Cut (stream ++ r) (lines ++ lines') left' := by
  induction h with
  | rest _ => exact h'
  | line hl ht _ ih =>
    rw [append_assoc]
    exact .line hl ht (ih h')

theorem cut_pushLines (data : List Char) : Cut data (pushLines data).1 (pushLines data).2 := by
  induction data using buffer_induction with
  | hnone data h =>
    rw [pushLines_none h]
    exact .rest h
  | hline l c rest hl hc ih =>
    have hsplit : ∃ t ∈ ends, l ++ c :: rest = l ++ t ++ behind c rest := by
      have hcases : ∀ x : Char, isBreak x = true → x = '\r' ∨ x = '\n' := by
        intro x hx
        simpa [isBreak] using hx
      cases rest with
      | nil =>
        refine ⟨[c], ?_, by rw [behind, append_nil]⟩
        rcases hcases c hc with rfl | rfl <;> decide
      | cons d rest =>
        rw [behind]
        split
        case isTrue hd =>
          refine ⟨[c, d], ?_, by simp⟩
          rcases hcases c hc with rfl | rfl <;> rcases hcases d hd.1 with rfl | rfl
          · exact absurd rfl hd.2
          · decide
          · decide
          · exact absurd rfl hd.2
        case isFalse =>
          refine ⟨[c], ?_, by simp⟩
          rcases hcases c hc with rfl | rfl <;> decide
    obtain ⟨t, ht, hsplit⟩ := hsplit
    rw [pushLines_cons hl hc, hsplit]
    exact .line hl ht ih

/-- **No character is lost**, whatever the reads are. -/
theorem cut_feed (d : Decoder) (reads : List (List Char)) {cur : List Char}
    (hcur : ∀ c ∈ cur, isBreak c = false) :
    Cut (cur ++ reads.flatten) (d.feed reads cur).1 (d.feed reads cur).2 := by
  induction reads generalizing cur with
  | nil =>
    rw [flatten_nil, append_nil]
    exact .rest hcur
  | cons r reads ih =>
    have hall := decodeAll_eq d (cur ++ r) (Nat.lt_succ_self _)
    rw [Decoder.feed, hall, flatten_cons, ← append_assoc]
    exact (cut_pushLines (cur ++ r)).append (ih (pushLines_left (cur ++ r)))

/-! ## Pairs in two reads -/

/-- A read behind the first character of a pair, as it is read with that character and without it:
without it there is one more line, if an odd number of characters goes on in it. -/
theorem scan_none_some (f : Char) (r : List Char) :
    (scan none [] r).1 = List.replicate (alternating (some f) r % 2) [] ++ (scan (some f) [] r).1 ∧
      (scan none [] r).2.2 = (scan (some f) [] r).2.2 := by
  induction r generalizing f with
  | nil => exact ⟨rfl, rfl⟩
  | cons c cs ih =>
    rw [alternating]
    by_cases hc : isBreak c = true ∧ some f ≠ some c
    · obtain ⟨hlines, hcur⟩ := ih c
      rw [if_pos hc, scan, if_pos hc.1, if_neg fun h => h.1 rfl, scan, if_pos hc.1,
        if_pos ⟨Option.some_ne_none f, hc.2⟩, hlines, hcur]
      refine ⟨?_, rfl⟩
      rcases Nat.mod_two_eq_zero_or_one (alternating (some c) cs) with h0 | h1
      · rw [h0, show (alternating (some c) cs + 1) % 2 = 1 by omega]
        rfl
      · rw [h1, show (alternating (some c) cs + 1) % 2 = 0 by omega]
        rfl
    · rw [if_neg hc]
      have hsame := scan_behind f [] (c :: cs)
      have hbehind : behind f (c :: cs) = c :: cs := by
        rw [behind, if_neg]
        rintro ⟨hbreak, hne⟩
        exact hc ⟨hbreak, fun h => hne (Option.some.inj h).symm⟩
      rw [hbehind] at hsame
      exact ⟨hsame.1.symm, hsame.2.symm⟩

theorem alternating_some (c : Char) (q : List Char) :
    alternating (some c) q = if q.head? = some c then 0 else alternating none q := by
  cases q with
  | nil => rfl
  | cons l q =>
    rw [alternating, head?_cons]
    by_cases hl : l = c
    · subst hl
      rw [if_neg fun h => h.2 rfl, if_pos rfl]
    · have hne : some l ≠ some c := fun h => hl (Option.some.inj h)
      rw [if_neg hne, alternating]
      simp only [hne.symm, ne_eq, not_false_eq_true, and_true, reduceCtorEq]

theorem scan_first (before : List Char) : (scan none [] before).2.1 =
      (if Odd (alternating none before.reverse) then before.getLast? else none) ∧
    ((scan none [] before).2.1 ≠ none → (scan none [] before).2.2 = []) := by
  induction before using List.reverseRecOn with
  | nil => exact ⟨(if_neg (by decide)).symm, fun h => absurd rfl h⟩
  | append_singleton before c ih =>
    rcases hscan : scan none [] before with ⟨lines, first, cur⟩
    rw [hscan] at ih
    obtain ⟨hfirst, -⟩ := ih
    dsimp only at hfirst
    have hnext : (scan none [] (before ++ [c])).2 = (scan first cur [c]).2 := by
      rw [scan_append, hscan]
    rw [hnext, reverse_append, reverse_singleton, singleton_append,
      getLast?_concat]
    cases hc : isBreak c with
    | false =>
      have halt : alternating none (c :: before.reverse) = 0 := by
        rw [alternating, hc]
        exact if_neg fun h => Bool.false_ne_true h.1
      have hplain : (scan first cur [c]).2 = (none, cur ++ [c]) := by
        rw [scan, hc]
        rfl
      rw [halt, hplain, if_neg (by decide)]
      exact ⟨rfl, fun h => absurd rfl h⟩
    | true =>
      have halt : alternating none (c :: before.reverse) =
          (if before.getLast? = some c then 0 else alternating none before.reverse) + 1 := by
        rw [alternating, hc, if_pos ⟨rfl, nofun⟩, alternating_some, head?_reverse]
      by_cases hpair : first ≠ none ∧ first ≠ some c
      · -- the second character of a pair
        have hodd : Odd (alternating none before.reverse) := by
          by_contra hnot
          rw [if_neg hnot] at hfirst
          exact hpair.1 hfirst
        have hdrained : (scan first cur [c]).2 = (none, cur) := by
          rw [scan, hc, if_pos rfl, if_pos hpair]
          rfl
        rw [if_pos hodd] at hfirst
        rw [halt, hdrained, ← hfirst, if_neg hpair.2,
          if_neg (Nat.not_odd_iff_even.mpr hodd.add_one)]
        exact ⟨rfl, fun h => absurd rfl h⟩
      · have hended : (scan first cur [c]).2 = (some c, []) := by
          rw [scan, hc, if_pos rfl, if_neg hpair]
          rfl
        have hodd : Odd ((if before.getLast? = some c then 0 else alternating none before.reverse)
            + 1) := by
          split
          case isTrue => decide
          case isFalse hlast =>
            refine (Nat.not_odd_iff_even.mp fun hodd => ?_).add_one
            rw [if_pos hodd] at hfirst
            rw [hfirst] at hpair
            refine hpair ⟨fun hnone => ?_, hlast⟩
            rw [getLast?_eq_none_iff.mp hnone] at hodd
            exact absurd hodd (by decide)
        rw [halt, hended, if_pos hodd]
        exact ⟨rfl, fun _ => rfl⟩

def splits (before : List Char) : List (List Char) → ℕ
  | [] => 0
  | r :: reads =>
    (if Odd (alternating none before.reverse) then alternating before.getLast? r % 2 else 0) +
      splits (before ++ r) reads

/-- **One read more**: without what was before there is one more line if it splits a pair. -/
theorem scan_read (before r : List Char) :
    (scan none (scan none [] before).2.2 r).1 =
      List.replicate
        (if Odd (alternating none before.reverse) then alternating before.getLast? r % 2
        else 0) [] ++ (scan (scan none [] before).2.1 (scan none [] before).2.2 r).1 ∧
    (scan none (scan none [] before).2.2 r).2.2 =
      (scan (scan none [] before).2.1 (scan none [] before).2.2 r).2.2 := by
  obtain ⟨hfirst, hcur⟩ := scan_first before
  by_cases hodd : Odd (alternating none before.reverse)
  · rw [if_pos hodd] at hfirst ⊢
    obtain ⟨f, hf⟩ : ∃ f, before.getLast? = some f := by
      cases before using List.reverseRecOn with
      | nil => exact absurd hodd (by decide)
      | append_singleton before c => exact ⟨c, getLast?_concat⟩
    rw [hf] at hfirst
    rw [hcur (by rw [hfirst]; exact Option.some_ne_none f), hfirst, hf]
    exact scan_none_some f r
  · rw [if_neg hodd] at hfirst ⊢
    rw [hfirst]
    exact ⟨rfl, rfl⟩

/-- **The reads together**: there are as many more lines as reads that split a pair. -/
theorem feed_scan (d : Decoder) (reads : List (List Char)) (before : List Char) :
    (d.feed reads (scan none [] before).2.2).1.length =
      splits before reads + (scan (scan none [] before).2.1 (scan none [] before).2.2
        reads.flatten).1.length ∧
    (splits before reads = 0 → d.feed reads (scan none [] before).2.2 =
      ((scan (scan none [] before).2.1 (scan none [] before).2.2 reads.flatten).1,
        (scan (scan none [] before).2.1 (scan none [] before).2.2 reads.flatten).2.2)) := by
  induction reads generalizing before with
  | nil => exact ⟨(Nat.zero_add _).symm, fun _ => rfl⟩
  | cons r reads ih =>
    have hplain : ∀ c ∈ (scan none [] before).2.2, isBreak c = false := by
      have hleft := pushLines_left before
      rwa [pushLines_eq] at hleft
    have hnext : (scan none [] (before ++ r)).2 =
        (scan (scan none [] before).2.1 (scan none [] before).2.2 r).2 := by
      rw [scan_append]
    obtain ⟨hlines, hcur⟩ := scan_read before r
    obtain ⟨hlength, hsame⟩ := ih (before ++ r)
    rw [hnext] at hlength hsame
    rw [Decoder.feed, decodeAll_read d hplain, flatten_cons, scan_append, splits, hcur, hlines]
    dsimp only
    constructor
    · rw [length_append, length_append, length_append, length_replicate, hlength]
      omega
    · intro hzero
      obtain ⟨hk, hrest⟩ := Nat.add_eq_zero_iff.mp hzero
      rw [hk, hsame hrest]
      rfl

theorem splits_eq_zero (before : List Char) (reads : List (List Char)) : splits before reads = 0 ↔
    ∀ earlier r later, reads = earlier ++ r :: later → ¬ Splits (before ++ earlier.flatten) r := by
  induction reads generalizing before with
  | nil =>
    refine iff_of_true rfl fun earlier r later h => ?_
    cases earlier <;> cases h
  | cons r reads ih =>
    have hfirst : (if Odd (alternating none before.reverse) then alternating before.getLast? r % 2
        else 0) = 0 ↔ ¬ Splits before r := by
      rw [Splits, not_and, ← Nat.not_even_iff_odd (n := alternating before.getLast? r), not_not,
        Nat.even_iff]
      split
      case isTrue h => exact ⟨fun h0 _ => h0, fun h0 => h0 h⟩
      case isFalse h => exact iff_of_true rfl fun hodd => absurd hodd h
    rw [splits, Nat.add_eq_zero_iff, hfirst, ih]
    constructor
    · rintro ⟨hr, hall⟩ earlier r' later heq
      cases earlier with
      | nil =>
        cases heq
        rwa [flatten_nil, append_nil]
      | cons e earlier =>
        obtain ⟨rfl, hreads⟩ := List.cons.inj heq
        rw [flatten_cons, ← append_assoc]
        exact hall earlier r' later hreads
    · intro hall
      constructor
      · have h := hall [] r reads rfl
        rwa [flatten_nil, append_nil] at h
      · intro earlier r' later hreads
        have h := hall (r :: earlier) r' later (congrArg (r :: ·) hreads)
        rwa [flatten_cons, ← append_assoc] at h

/-- **Lines do not depend on the reads** if and only if no read splits a pair of CR and LF; and in
any case every character is in a line or in what ends one, or is left. -/
theorem lines_segmented_iff (d : Decoder) (reads : List (List Char)) :
    Cut reads.flatten (d.feed reads []).1 (d.feed reads []).2 ∧
    (d.feed reads [] = d.feed [reads.flatten] [] ↔
      ∀ earlier r later, reads = earlier ++ r :: later → ¬ Splits earlier.flatten r) := by
  have hnil : ∀ c ∈ ([] : List Char), isBreak c = false := fun _ hc => nomatch hc
  refine ⟨cut_feed d reads hnil, ?_⟩
  have hwhole : d.feed [reads.flatten] [] =
      ((scan none [] reads.flatten).1, (scan none [] reads.flatten).2.2) := by
    rw [Decoder.feed, decodeAll_read d hnil]
    show (_ ++ [], _) = _
    rw [List.append_nil]
    rfl
  obtain ⟨hlength, hsame⟩ := feed_scan d reads []
  have hzero := splits_eq_zero [] reads
  simp only [List.nil_append] at hzero
  rw [hwhole, ← hzero]
  constructor
  · intro heq
    have hlines := congrArg (fun r => r.1.length) heq
    change (d.feed reads (scan none [] []).2.2).1.length = _ at hlines
    rw [hlength] at hlines
    exact Nat.add_eq_right.mp hlines
  · exact hsame

/-- A line ends with CR and LF, and the LF comes with the next read: there is an empty line more. -/
theorem lines_split : Decoder.line.feed [['a', '\r', '\n']] [] = ([['a']], []) ∧
    Decoder.line.feed [['a', '\r'], ['\n']] [] = ([['a'], []], []) := by
  decide

end LineDecoder

end Spserver
