import ReadingComment.Ktap.Value
import ReadingComment.Lib.CString
import ReadingComment.Lib.Codec

/-!
# Conversion items (`scanformat` and `addlenmod` of `runtime/kp_str.c`)

A conversion item is flags, a width, a precision and the letter of the conversion. `scanformat`
takes one off the front of a format string and copies it; that it reads exactly the items, each in
one way, is what the formatting rests on.

A string of C ends with a zero that is not among its bytes.
-/

namespace Ktap

open Codec Lib List

namespace StrFmt

/-- The byte at place `n` of a string, which ends with a zero. -/
def charAt (s : Bytes) (n : ℕ) : BitVec 8 := (s[n]?).getD 0

def cstring (s : Bytes) : Bytes := s.takeWhile (· ≠ 0)

/-- `strchr(FLAGS, c)`, with `FLAGS` `"-+ #0"`, for a character that is not zero. -/
def isFlag (c : BitVec 8) : Bool := c == 45 || c == 43 || c == 32 || c == 35 || c == 48

/-- `isdigit(uchar(c))`. -/
def isdigit (c : BitVec 8) : Bool := decide (48 ≤ c) && decide (c ≤ 57)

/-- `sizeof(FLAGS)`. -/
def sizeofFlags : ℕ := 6

/-- `INTFRMLEN`. -/
def intfrmlen : Bytes := [108, 108]

/-- `MAX_FORMAT`. -/
def maxFormat : ℕ := sizeofFlags + (intfrmlen.length + 1) + 10

/-- `if (isdigit(uchar(*p))) p++`. -/
def skipDigit : Bytes → Bytes
  | [] => []
  | c :: p => if isdigit c then p else c :: p

def skipPrecision (p : Bytes) : Bytes :=
  if p.head? = some 46 then skipDigit (skipDigit p.tail) else p

/-- `scanformat(ks, strfrmt, form)`: what it writes to `form`, and how many characters the result is
behind `strfrmt`; or the message, and `NULL`. -/
def scanformat (strfrmt : Bytes) : Except String (Bytes × ℕ) :=
  let p := strfrmt.dropWhile isFlag
  if strfrmt.length - p.length ≥ sizeofFlags then .error "invalid format (repeated flags)\n"
  else
    let p := skipPrecision (skipDigit (skipDigit p))
    if isdigit (charAt p 0) then .error "invalid format (width or precision too long)\n"
    else
      let n := strfrmt.length - p.length
      .ok (37 :: (strfrmt ++ [0]).take (n + 1), n)

/-- `addlenmod(form, lenmod)`. -/
def addlenmod (form lenmod : Bytes) : Bytes :=
  let l := (cstring form).length
  form.take (l - 1) ++ lenmod ++ [charAt form (l - 1)]

/-! ## Items -/

/-- The conversions. -/
inductive Conv where
  | c | d | i | p | o | u | x | X | s
  deriving DecidableEq, Repr

def Conv.byte : Conv → BitVec 8
  | .c => 99
  | .d => 100
  | .i => 105
  | .p => 112
  | .o => 111
  | .u => 117
  | .x => 120
  | .X => 88
  | .s => 115

/-- The case of the `switch`; a zero is not one. -/
def Conv.ofByte (c : BitVec 8) : Option Conv :=
  [Conv.c, .d, .i, .p, .o, .u, .x, .X, .s].find? (·.byte == c)

def Digits (ds : Bytes) : Prop := (∀ c ∈ ds, isdigit c = true) ∧ ds.length ≤ 2

/-- A conversion item, without the `%`. -/
structure Item where
  flags : Bytes
  width : Bytes
  prec : Option Bytes
  conv : Conv
  flags_flag : ∀ c ∈ flags, isFlag c = true
  flags_few : flags.length < sizeofFlags
  width_digits : Digits width
  /-- a zero in front is a flag -/
  width_head : ∀ c ∈ width.head?, isFlag c = false
  prec_digits : ∀ ds ∈ prec, Digits ds

namespace Item

def precision (i : Item) : Bytes := i.prec.elim [] (46 :: ·)

def spec (i : Item) : Bytes := i.flags ++ (i.width ++ i.precision)

def bytes (i : Item) : Bytes := 37 :: i.spec ++ [i.conv.byte]

/-- The item for an argument of type `long long`. -/
def longBytes (i : Item) : Bytes := 37 :: i.spec ++ intfrmlen ++ [i.conv.byte]

end Item

theorem Conv.ofByte_byte (conv : Conv) : Conv.ofByte conv.byte = some conv := by
  cases conv <;> decide

theorem Conv.byte_ofByte {b : BitVec 8} {conv : Conv} (h : Conv.ofByte b = some conv) :
    conv.byte = b := by
  simpa using find?_some h

theorem Conv.byte_injective : Function.Injective Conv.byte := by
  intro conv conv' h
  have hsome := Conv.ofByte_byte conv
  rw [h, Conv.ofByte_byte] at hsome
  exact (Option.some.inj hsome).symm

theorem Conv.byte_plain (conv : Conv) : isFlag conv.byte = false ∧ isdigit conv.byte = false ∧
    conv.byte ≠ 46 ∧ conv.byte ≠ 37 ∧ conv.byte ≠ 0 := by
  cases conv <;> decide

/-! ## Digits -/

theorem skipDigit_of_head {p : Bytes} (h : ∀ c ∈ p.head?, isdigit c = false) : skipDigit p = p := by
  cases p with
  | nil => rfl
  | cons c p => simp [skipDigit, h c rfl]

theorem skipDigit_digits {ds p : Bytes} (hds : Digits ds) (hp : ∀ c ∈ p.head?, isdigit c = false) :
    skipDigit (skipDigit (ds ++ p)) = p := by
  obtain ⟨hdigit, hlen⟩ := hds
  match ds with
  | [] => rw [nil_append, skipDigit_of_head hp, skipDigit_of_head hp]
  | [c] =>
    have hc : skipDigit ([c] ++ p) = p := by simp [skipDigit, hdigit c (by simp)]
    rw [hc, skipDigit_of_head hp]
  | [c, c'] => simp [skipDigit, hdigit c (by simp), hdigit c' (by simp)]
  | _ :: _ :: _ :: _ => simp at hlen

theorem exists_skipDigit (p : Bytes) :
    ∃ ds, p = ds ++ skipDigit p ∧ (∀ c ∈ ds, isdigit c = true) ∧ ds.length ≤ 1 := by
  cases p with
  | nil => exact ⟨[], rfl, by simp, by simp⟩
  | cons c p =>
    by_cases hc : isdigit c
    · exact ⟨[c], by simp [skipDigit, hc], by simpa using hc, by simp⟩
    · exact ⟨[], by simp [skipDigit, hc], by simp, by simp⟩

theorem exists_digits (p : Bytes) : ∃ ds, p = ds ++ skipDigit (skipDigit p) ∧ Digits ds := by
  obtain ⟨ds, hds, hdigit, hlen⟩ := exists_skipDigit p
  obtain ⟨ds', hds', hdigit', hlen'⟩ := exists_skipDigit (skipDigit p)
  refine ⟨ds ++ ds', ?_, ?_, ?_⟩
  · rw [append_assoc, ← hds', ← hds]
  · intro c hc
    exact (mem_append.mp hc).elim (hdigit c) (hdigit' c)
  · rw [length_append]
    omega

theorem exists_precision (p : Bytes) :
    ∃ prec : Option Bytes,
      p = prec.elim [] (46 :: ·) ++ skipPrecision p ∧ ∀ ds ∈ prec, Digits ds := by
  by_cases hdot : p.head? = some 46
  · obtain ⟨q, rfl⟩ := head?_eq_some_iff.mp hdot
    obtain ⟨ds, hds, hdigits⟩ := exists_digits q
    refine ⟨some ds, ?_, fun ds' hds' => Option.some.inj hds' ▸ hdigits⟩
    rw [skipPrecision, if_pos hdot, Option.elim_some, cons_append]
    exact congrArg (46 :: ·) hds
  · refine ⟨none, ?_, fun ds hds => nomatch hds⟩
    rw [skipPrecision, if_neg hdot]
    rfl

/-! ## Scanning an item -/

namespace Item

variable (i : Item) (rest : Bytes)

theorem precision_head : ∀ c ∈ (i.precision ++ i.conv.byte :: rest).head?, isdigit c = false := by
  rw [precision]
  cases i.prec with
  | none =>
    intro c hc
    obtain rfl : i.conv.byte = c := by simpa using hc
    exact i.conv.byte_plain.2.1
  | some ds =>
    intro c hc
    obtain rfl : 46 = c := by simpa using hc
    decide

theorem width_precision_head :
    ∀ c ∈ (i.width ++ (i.precision ++ i.conv.byte :: rest)).head?, isFlag c = false := by
  cases hwidth : i.width with
  | nil =>
    rw [nil_append, precision]
    cases i.prec with
    | none =>
      intro c hc
      obtain rfl : i.conv.byte = c := by simpa using hc
      exact i.conv.byte_plain.1
    | some ds =>
      intro c hc
      obtain rfl : 46 = c := by simpa using hc
      decide
  | cons d ds =>
    intro c hc
    refine i.width_head c ?_
    rw [hwidth]
    simpa using hc

theorem skipPrecision_item :
    skipPrecision (i.precision ++ i.conv.byte :: rest) = i.conv.byte :: rest := by
  obtain ⟨-, hdigit, hdot, -, -⟩ := i.conv.byte_plain
  rw [precision]
  cases hprec : i.prec with
  | none => exact if_neg fun hhead => hdot (Option.some.inj hhead)
  | some ds =>
    have hrest : ∀ c ∈ (i.conv.byte :: rest).head?, isdigit c = false := by
      intro c hc
      obtain rfl : i.conv.byte = c := by simpa using hc
      exact hdigit
    exact skipDigit_digits (i.prec_digits ds hprec) hrest

theorem append_spec : i.spec ++ i.conv.byte :: rest =
    i.flags ++ (i.width ++ (i.precision ++ i.conv.byte :: rest)) := by
  rw [spec, append_assoc, append_assoc]

/-- **An item is scanned** as it is. -/
theorem scanformat_item :
    scanformat (i.spec ++ i.conv.byte :: rest) = .ok (i.bytes, i.spec.length) := by
  have hflags : (i.spec ++ i.conv.byte :: rest).dropWhile isFlag =
      i.width ++ (i.precision ++ i.conv.byte :: rest) := by
    rw [append_spec, dropWhile_append_stop i.flags_flag (i.width_precision_head rest)]
  have hfew : ¬ (i.spec ++ i.conv.byte :: rest).length -
      (i.width ++ (i.precision ++ i.conv.byte :: rest)).length ≥ sizeofFlags := by
    have hlt := i.flags_few
    rw [append_spec, length_append]
    omega
  have hdigit : isdigit (charAt (i.conv.byte :: rest) 0) = false := i.conv.byte_plain.2.1
  have hlen :
      (i.spec ++ i.conv.byte :: rest).length - (i.conv.byte :: rest).length = i.spec.length := by
    rw [length_append, Nat.add_sub_cancel]
  have htake : (i.spec ++ i.conv.byte :: rest ++ [0]).take (i.spec.length + 1) =
      i.spec ++ [i.conv.byte] := by
    simp [take_append]
  rw [scanformat]
  dsimp only
  rw [hflags, if_neg hfew, skipDigit_digits i.width_digits (i.precision_head rest),
    skipPrecision_item, hdigit, if_neg Bool.false_ne_true, hlen, htake]
  rfl

variable {i rest}

/-- **An item is written in one way.** -/
theorem spec_inj {j : Item} {rest' : Bytes}
    (h : i.spec ++ i.conv.byte :: rest = j.spec ++ j.conv.byte :: rest') :
    i = j ∧ rest = rest' := by
  rw [append_spec, append_spec] at h
  obtain ⟨hflags, h⟩ := append_stop_inj i.flags_flag (i.width_precision_head rest) j.flags_flag
    (j.width_precision_head rest') h
  obtain ⟨hwidth, h⟩ := append_stop_inj i.width_digits.1 (i.precision_head rest) j.width_digits.1
    (j.precision_head rest') h
  have hsame : i.prec = j.prec ∧ i.conv.byte :: rest = j.conv.byte :: rest' := by
    have hi : ∀ c ∈ (i.conv.byte :: rest).head?, isdigit c = false := by
      simpa using i.conv.byte_plain.2.1
    have hj : ∀ c ∈ (j.conv.byte :: rest').head?, isdigit c = false := by
      simpa using j.conv.byte_plain.2.1
    rw [precision, precision] at h
    cases hp : i.prec with
    | none =>
      cases hp' : j.prec with
      | none =>
        rw [hp, hp'] at h
        exact ⟨rfl, h⟩
      | some ds' =>
        rw [hp, hp'] at h
        exact absurd (List.cons.inj h).1 i.conv.byte_plain.2.2.1
    | some ds =>
      cases hp' : j.prec with
      | none =>
        rw [hp, hp'] at h
        exact absurd (List.cons.inj h).1.symm j.conv.byte_plain.2.2.1
      | some ds' =>
        rw [hp, hp'] at h
        obtain ⟨rfl, hrest⟩ :=
          append_stop_inj (i.prec_digits ds hp).1 hi (j.prec_digits ds' hp').1 hj
          (List.cons.inj h).2
        exact ⟨rfl, hrest⟩
  obtain ⟨hprec, hconv⟩ := hsame
  obtain ⟨hbyte, rfl⟩ := List.cons.inj hconv
  have hconv' := Conv.byte_injective hbyte
  cases i
  cases j
  cases hflags
  cases hwidth
  cases hprec
  cases hconv'
  exact ⟨rfl, rfl⟩

end Item

variable {s form : Bytes}

section

variable {n : ℕ} (h : scanformat s = .ok (form, n))

include h

theorem scanformat_parts :
    ∃ flags width prec p, s = flags ++ (width ++ Option.elim prec [] (46 :: ·)) ++ p ∧
      (∀ c ∈ flags, isFlag c = true) ∧ flags.length < sizeofFlags ∧ Digits width ∧
      (∀ c ∈ width.head?, isFlag c = false) ∧ (∀ ds ∈ prec, Digits ds) ∧
      n = (flags ++ (width ++ Option.elim prec [] (46 :: ·))).length ∧
      form = 37 :: (s ++ [0]).take (n + 1) := by
  rw [scanformat] at h
  dsimp only at h
  by_cases hfew : s.length - (s.dropWhile isFlag).length ≥ sizeofFlags
  · rw [if_pos hfew] at h
    cases h
  · rw [if_neg hfew] at h
    obtain ⟨width, hwidth, hdigits⟩ := exists_digits (s.dropWhile isFlag)
    obtain ⟨prec, hprec, hprec'⟩ := exists_precision (skipDigit (skipDigit (s.dropWhile isFlag)))
    generalize hp : skipPrecision (skipDigit (skipDigit (s.dropWhile isFlag))) = p at h hprec
    have hs : s = s.takeWhile isFlag ++ (width ++ prec.elim [] (46 :: ·)) ++ p := by
      rw [append_assoc, append_assoc, ← hprec, ← hwidth, takeWhile_append_dropWhile]
    have hlen : s.length - p.length =
        (s.takeWhile isFlag ++ (width ++ prec.elim [] (46 :: ·))).length := by
      nth_rewrite 1 [hs]
      rw [length_append, Nat.add_sub_cancel]
    have hflags : ∀ c ∈ s.takeWhile isFlag, isFlag c = true := fun c hc => mem_takeWhile_imp hc
    have hfew' : (s.takeWhile isFlag).length < sizeofFlags := by
      have hlen := congrArg List.length (@takeWhile_append_dropWhile _ isFlag s)
      rw [length_append] at hlen
      omega
    have hhead : ∀ c ∈ width.head?, isFlag c = false := by
      intro c hc
      refine head_dropWhile isFlag s c ?_
      rw [hwidth, head?_append, Option.mem_def.mp hc]
      rfl
    refine ⟨_, width, prec, p, hs, hflags, hfew', hdigits, hhead, hprec', ?_⟩
    by_cases hdigit : isdigit (charAt p 0) = true
    · rw [if_pos hdigit] at h
      cases h
    · rw [if_neg hdigit] at h
      cases h
      exact ⟨hlen, rfl⟩

/-- **What is scanned is an item**, when the letter is that of a conversion. -/
theorem item_of_scanformat {conv : Conv} (hconv : Conv.ofByte (charAt s n) = some conv) :
    ∃ (i : Item) (rest : Bytes), s = i.spec ++ i.conv.byte :: rest ∧ i.conv = conv := by
  obtain ⟨flags, width, prec, p, rfl, hflags, hfew, hdigits, hhead, hprec, rfl, -⟩ :=
    scanformat_parts h
  -- the letter is in front of what is left
  rw [charAt, getElem?_append_right (Nat.le_refl _), Nat.sub_self] at hconv
  have hbyte := Conv.byte_ofByte hconv
  cases p with
  | nil => exact absurd hbyte conv.byte_plain.2.2.2.2
  | cons c rest =>
    obtain rfl : conv.byte = c := hbyte
    exact ⟨⟨flags, width, prec, conv, hflags, hfew, hdigits, hhead, hprec⟩, rest, rfl, rfl⟩

theorem length_form_lt :
    form.length < maxFormat := by
  obtain ⟨flags, width, prec, p, -, -, hfew, hdigits, -, hprec, hn, rfl⟩ := scanformat_parts h
  have hwidth := hdigits.2
  have hprec' : (Option.elim prec [] (46 :: ·)).length ≤ 3 := by
    cases prec with
    | none => exact Nat.zero_le _
    | some ds => exact Nat.succ_le_succ (hprec ds rfl).2
  have htake : ((s ++ [0]).take (n + 1)).length ≤ n + 1 := length_take_le _ _
  rw [length_append, length_append] at hn
  rw [length_cons, maxFormat]
  rw [sizeofFlags] at hfew ⊢
  omega

end

/-! ## The buffer of an item -/

namespace Item

variable (i : Item)

theorem length_spec_le : i.spec.length ≤ 10 := by
  have hflags := i.flags_few
  have hwidth := i.width_digits.2
  have hprec : i.precision.length ≤ 3 := by
    rw [precision]
    cases hp : i.prec with
    | none => exact Nat.zero_le _
    | some ds => exact Nat.succ_le_succ (i.prec_digits ds hp).2
  rw [sizeofFlags] at hflags
  rw [spec, length_append, length_append]
  omega

/-- **The buffer is long enough**, also for the item with the length modifier. -/
theorem length_longBytes_lt : i.bytes.length < maxFormat ∧ i.longBytes.length < maxFormat := by
  have hspec := i.length_spec_le
  constructor
  · rw [bytes, length_append, length_cons, length_singleton, maxFormat, sizeofFlags]
    omega
  · rw [longBytes, length_append, length_append, length_cons, length_singleton,
      maxFormat, sizeofFlags]
    omega

theorem bytes_ne_zero : ∀ c ∈ i.bytes, c ≠ 0 := by
  have hflag : ∀ c, isFlag c = true → c ≠ 0 := by
    rintro c hc rfl
    exact absurd hc (by decide)
  have hdigit : ∀ c, isdigit c = true → c ≠ 0 := by
    rintro c hc rfl
    exact absurd hc (by decide)
  intro c hc
  rw [bytes, cons_append, mem_cons, mem_append, spec, mem_append, mem_append,
    mem_singleton] at hc
  rcases hc with rfl | (hc | hc | hc) | rfl
  · decide
  · exact hflag c (i.flags_flag c hc)
  · exact hdigit c (i.width_digits.1 c hc)
  · rw [precision] at hc
    cases hp : i.prec with
    | none =>
      rw [hp] at hc
      exact absurd hc not_mem_nil
    | some ds =>
      rw [hp] at hc
      rcases mem_cons.mp hc with rfl | hc
      · decide
      · exact hdigit c ((i.prec_digits ds hp).1 c hc)
  · exact i.conv.byte_plain.2.2.2.2

/-- **The length modifier** goes in front of the letter. -/
theorem addlenmod_bytes : addlenmod i.bytes intfrmlen = i.longBytes := by
  have hstring : cstring i.bytes = i.bytes :=
    takeWhile_eq_self_iff.mpr fun c hc => by simpa using i.bytes_ne_zero c hc
  have hlen : i.bytes.length - 1 = (37 :: i.spec).length := by
    rw [bytes, length_append, length_singleton, Nat.add_sub_cancel]
  have hletter : charAt i.bytes (37 :: i.spec).length = i.conv.byte := by
    rw [charAt, bytes, getElem?_append_right (Nat.le_refl _), Nat.sub_self]
    rfl
  rw [addlenmod, hstring, hlen, hletter, bytes, take_left, longBytes]

end Item

end StrFmt

end Ktap
