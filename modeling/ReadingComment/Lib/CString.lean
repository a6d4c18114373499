import Mathlib.Data.List.TakeWhile
import Mathlib.Tactic.Ring

/-!
# C strings

Buffers and strings of C as lists of characters, and the functions of `string.h`
and `stdlib.h` that parsers take them apart with: a line found by `memchr`, tokens
cut off by a separator or by `strtok`, comparison without case, and `strtol`. A
string ends before its first NUL.
-/

namespace Lib

open List

/-- What a C string function sees of some bytes. -/
def cstr (bytes : List Char) : List Char := bytes.takeWhile (· != '\x00')

/-- `strncpy (dest, src, n)`: what is missing is filled up with NULs. -/
def strncpyInto (dest src : List Char) (n : ℕ) : List Char :=
  (src ++ List.replicate n '\x00').take n ++ dest.drop n

/-- The length of the first line of a buffer, its newline included; `0` if there is none. -/
def lineLen : List Char → ℕ
  | [] => 0
  | c :: cs => if c = '\n' then 1 else if lineLen cs = 0 then 0 else lineLen cs + 1

/-- `strsep` with a separator of one character: the token and what is left. -/
def strsep (del : Char) : Option (List Char) → Option (List Char) × Option (List Char)
  | none => (none, none)
  | some s =>
    if del ∈ s then (some (s.takeWhile (· != del)), some (s.dropWhile (· != del)).tail)
    else (some s, none)

/-- The delimiters of `strtok (s, "\r\n")`. -/
def isBreak (c : Char) : Bool := c == '\r' || c == '\n'

/-- The first call of `strtok (s, "\r\n")`. -/
def strtok (s : List Char) : Option (List Char) :=
  match s.dropWhile isBreak with
  | [] => none
  | t => some (t.takeWhile (! isBreak ·))

/-- `0 == strcasecmp (s, t)`. -/
def caseEq (s t : List Char) : Bool := s.map Char.toLower == t.map Char.toLower

/-- `isspace`. -/
def isSpace (c : Char) : Bool := c = ' ' || (9 ≤ c.toNat && c.toNat ≤ 13)

/-- The value of a digit in a base up to 36. -/
def digitValue (base : ℕ) (c : Char) : Option ℕ :=
  let d :=
    if '0' ≤ c ∧ c ≤ '9' then c.toNat - 48
    else if 'a' ≤ c ∧ c ≤ 'z' then c.toNat - 87
    else if 'A' ≤ c ∧ c ≤ 'Z' then c.toNat - 55
    else 36
  if d < base then some d else none

/-- The number that the digits at the front of a string make. -/
def digits (base : ℕ) : List Char → ℕ → ℕ
  | [], acc => acc
  | c :: cs, acc =>
    match digitValue base c with
    | some d => digits base cs (acc * base + d)
    | none => acc

/-- The optional `0x` of a hexadecimal number. -/
def stripHex : List Char → List Char
  | '0' :: x :: c :: cs =>
    if (x = 'x' ∨ x = 'X') ∧ (digitValue 16 c).isSome then c :: cs else '0' :: x :: c :: cs
  | cs => cs

/-- The optional sign of a number. -/
def stripSign : List Char → Bool × List Char
  | '-' :: s => (true, s)
  | '+' :: s => (false, s)
  | s => (false, s)

/-- `strtol (s, NULL, base)` for base 10 and 16, with a 64-bit `long`. -/
def strtol (base : ℕ) (s : List Char) : ℤ :=
  let (neg, s) := stripSign (s.dropWhile isSpace)
  let n := digits base (if base = 16 then stripHex s else s) 0
  max (-2 ^ 63) (min (if neg then -(n : ℤ) else n) (2 ^ 63 - 1))

/-- A `long` stored in an `int`. -/
def toInt (n : ℤ) : ℤ := n.bmod (2 ^ 32)

/-- `atoi`. -/
def atoi (s : List Char) : ℤ := toInt (strtol 10 s)

/-- What `%d` prints. -/
def decimal (n : ℤ) : List Char :=
  if n < 0 then '-' :: Nat.toDigits 10 n.natAbs else Nat.toDigits 10 n.natAbs

/-! ## Spans -/

section spans

variable {α : Type} {p : α → Bool} {xs ys xs' ys' : List α}

section

variable (hxs : ∀ c ∈ xs, p c = true) (hys : ∀ c ∈ ys.head?, p c = false)

include hxs hys

/-- What a span takes off a list that goes on with something else. -/
theorem takeWhile_append_stop :
    (xs ++ ys).takeWhile p = xs := by
  rw [takeWhile_append_of_pos hxs]
  cases ys with
  | nil => simp
  | cons c ys => simp [hys c rfl]

theorem dropWhile_append_stop :
    (xs ++ ys).dropWhile p = ys := by
  rw [dropWhile_append_of_pos hxs]
  cases ys with
  | nil => rfl
  | cons c ys => simp [hys c rfl]

/-- A list is a span and the rest in one way. -/
theorem append_stop_inj (hxs' : ∀ c ∈ xs', p c = true) (hys' : ∀ c ∈ ys'.head?, p c = false)
    (h : xs ++ ys = xs' ++ ys') :
    xs = xs' ∧ ys = ys' := by
  have hfirst : xs = xs' := by
    rw [← takeWhile_append_stop hxs hys, h, takeWhile_append_stop hxs' hys']
  subst hfirst
  exact ⟨rfl, append_cancel_left h⟩

end

/-- What is left behind a span does not go on with it. -/
theorem head_dropWhile (p : α → Bool) (xs : List α) :
    ∀ c ∈ (xs.dropWhile p).head?, p c = false := by
  intro c hc
  have h := head?_dropWhile_not p xs
  rwa [Option.mem_def.mp hc] at h

end spans

/-! ## Lines -/

variable {s : List Char}

theorem lineLen_append (h : '\n' ∉ s) (t : List Char) :
    lineLen (s ++ '\n' :: t) = s.length + 1 := by
  induction s with
  | nil => simp [lineLen]
  | cons c s ih =>
    simp only [mem_cons, not_or] at h
    simp [lineLen, ih h.2, Ne.symm h.1]

theorem lineLen_eq_zero (h : '\n' ∉ s) : lineLen s = 0 := by
  induction s with
  | nil => rfl
  | cons c s ih =>
    simp only [mem_cons, not_or] at h
    simp [lineLen, ih h.2, Ne.symm h.1]

/-- A buffer that is the beginning of a line and more either stops inside the line
or has the whole of it. -/
theorem line_cases {s b z t : List Char} (h : '\n' ∉ s) (hb : b ++ z = s ++ '\n' :: t) :
    ('\n' ∉ b ∧ ∃ u, b ++ u = s ∧ z = u ++ '\n' :: t) ∨
      ∃ b', b = s ++ '\n' :: b' ∧ b' ++ z = t := by
  rcases append_eq_append_iff.1 hb with ⟨u, hs, hz⟩ | ⟨u, hb', hu⟩
  · refine Or.inl ⟨fun hn => h ?_, u, hs.symm, hz⟩
    rw [hs]
    exact mem_append_left _ hn
  · cases u with
    | nil =>
      refine Or.inl ⟨?_, [], by simpa using hb', by simpa using hu.symm⟩
      rw [hb', append_nil]
      exact h
    | cons c u =>
      obtain ⟨rfl, rfl⟩ : '\n' = c ∧ t = u ++ z := by simpa using hu
      exact Or.inr ⟨u, hb', rfl⟩

/-! ## Tokens -/

theorem cstr_eq_self (h : '\x00' ∉ s) : cstr s = s := by
  apply takeWhile_eq_self_iff.2
  intro c hc
  simpa using ne_of_mem_of_not_mem hc h

theorem cstr_append_nul (s t : List Char) : cstr (s ++ '\x00' :: t) = cstr s := by
  induction s with
  | nil => rfl
  | cons c s ih =>
    rw [cons_append, cstr, cstr, takeWhile_cons, takeWhile_cons]
    split
    · exact congrArg (c :: ·) ih
    · rfl

theorem cstr_set_nul {k : ℕ} (hk : k < s.length) :
    cstr (s.set k '\x00') = cstr (s.take k) := by
  rw [set_eq_take_append_cons_drop, if_pos hk, cstr_append_nul]

theorem isPrefix_cstr (s : List Char) : cstr s <+: s := takeWhile_prefix _

theorem notMem_cstr (s : List Char) : '\x00' ∉ cstr s := by
  intro h
  have := mem_takeWhile_imp h
  simp at this

theorem length_strncpyInto {dest : List Char} {n : ℕ} (hn : n ≤ dest.length) (src : List Char) :
    (strncpyInto dest src n).length = dest.length := by
  rw [strncpyInto, length_append, length_take, length_append, length_replicate,
    length_drop]
  omega

theorem drop_strncpyInto (dest src : List Char) {k n : ℕ} (hk : n ≤ k) :
    (strncpyInto dest src n).drop k = dest.drop k := by
  obtain ⟨j, rfl⟩ := Nat.exists_eq_add_of_le hk
  have hfull : ((src ++ List.replicate n '\x00').take n).length = n := by
    rw [length_take, length_append, length_replicate]
    omega
  rw [← drop_drop, strncpyInto, drop_left' hfull, drop_drop]

theorem cstr_take_strncpyInto {src : List Char} (hsrc : '\x00' ∉ src) (dest : List Char) {k n : ℕ}
    (hk : k ≤ n) : cstr ((strncpyInto dest src n).take k) = src.take k := by
  have hfull : k ≤ ((src ++ List.replicate n '\x00').take n).length := by
    rw [length_take, length_append, length_replicate]
    omega
  have hnone : '\x00' ∉ src.take k := fun h => hsrc (mem_of_mem_take h)
  rw [strncpyInto, take_append_of_le_length hfull, take_take, Nat.min_eq_left hk, take_append,
    take_replicate]
  rcases min (k - src.length) n with _ | m
  · rw [replicate_zero, append_nil, cstr_eq_self hnone]
  · rw [replicate_succ, cstr_append_nul, cstr_eq_self hnone]

theorem strsep_notMem {del : Char} (h : del ∉ s) :
    strsep del (some s) = (some s, none) := by
  simp [strsep, h]

theorem strsep_append {del : Char} (h : del ∉ s) (t : List Char) :
    strsep del (some (s ++ del :: t)) = (some s, some t) := by
  have hs : ∀ c ∈ s, (c != del) = true := by
    intro c hc
    simpa using ne_of_mem_of_not_mem hc h
  simp [strsep, takeWhile_append_of_pos hs, dropWhile_append_of_pos hs]

/-- Every string has the separator or does not. -/
theorem strsep_cases (del : Char) (s : List Char) :
    del ∉ s ∨ ∃ u v, s = u ++ del :: v ∧ del ∉ u := by
  by_cases h : del ∈ s
  · obtain ⟨u, v, hu, hs, -⟩ := exists_erase_eq h
    exact Or.inr ⟨u, v, hs, hu⟩
  · exact Or.inl h

theorem strtok_append (h : ∀ c ∈ s, isBreak c = false) (t : List Char) :
    strtok (s ++ '\r' :: '\n' :: t) = if s = [] then strtok t else some s := by
  cases s with
  | nil => simp [strtok, isBreak]
  | cons c s =>
    have hc : isBreak c = false := h c (mem_cons_self ..)
    have hs : ∀ d ∈ s, (! isBreak d) = true := by
      intro d hd
      simp [h d (mem_cons_of_mem _ hd)]
    have ht : (s ++ '\r' :: '\n' :: t).takeWhile (! isBreak ·) = s := by
      rw [takeWhile_append_of_pos hs]
      simp [isBreak]
    simp [strtok, hc, ht]

/-! ## Numbers -/

theorem stripSign_cons {c : Char} (hm : c ≠ '-') (hp : c ≠ '+') (cs : List Char) :
    stripSign (c :: cs) = (false, c :: cs) := by
  rw [stripSign.eq_def]
  split
  · rename_i heq
    exact absurd (List.cons.inj heq).1 hm
  · rename_i heq
    exact absurd (List.cons.inj heq).1 hp
  · rfl

theorem stripHex_cons (c : Char) {cs : List Char} (h : ∀ x ∈ cs.head?, x ≠ 'x' ∧ x ≠ 'X') :
    stripHex (c :: cs) = c :: cs := by
  rw [stripHex.eq_def]
  split
  · rename_i x d ds heq
    cases heq
    simp [h x rfl]
  · rfl

theorem digits_append {base : ℕ} (h : ∀ c ∈ s, (digitValue base c).isSome) {t : List Char}
    (ht : ∀ c ∈ t.head?, digitValue base c = none) (acc : ℕ) :
    digits base (s ++ t) acc = digits base s acc := by
  induction s generalizing acc with
  | nil =>
    cases t with
    | nil => rfl
    | cons c t => simp [digits, ht c rfl]
  | cons c s ih =>
    obtain ⟨d, hd⟩ := Option.isSome_iff_exists.1 (h c (mem_cons_self ..))
    simp [digits, hd, ih fun e he => h e (mem_cons_of_mem _ he)]

theorem digitValue_of_isDigit {c : Char} (h : c.isDigit = true) :
    digitValue 10 c = some (c.toNat - 48) := by
  obtain ⟨h0, h9⟩ : '0' ≤ c ∧ c ≤ '9' := by simpa [Char.isDigit, Char.le_def] using h
  have hlt : c.toNat - 48 < 10 := by
    have : c.toNat ≤ 57 := h9
    omega
  simp only [digitValue, h0, h9, and_self, if_true, hlt]

theorem isDigit_toDigits {n : ℕ} {c : Char} (h : c ∈ Nat.toDigits 10 n) : c.isDigit = true :=
  Nat.isDigit_of_mem_toDigits (by decide) (by decide) h

theorem digits_toDigits (n : ℕ) : digits 10 (Nat.toDigits 10 n) 0 = n := by
  have hall {s : List Char} (hs : ∀ c ∈ s, c.isDigit = true) (acc : ℕ) :
      digits 10 s acc = Nat.ofDigitChars 10 s acc := by
    induction s generalizing acc with
    | nil => rw [digits, Nat.ofDigitChars_nil]
    | cons c s ih =>
      obtain ⟨hc, hrest⟩ := forall_mem_cons.mp hs
      rw [digits, digitValue_of_isDigit hc, Nat.ofDigitChars_cons]
      dsimp only
      rw [ih hrest, Nat.mul_comm]
      rfl
  rw [hall fun c hc => isDigit_toDigits hc, Nat.ofDigitChars_toDigits (by decide) (by decide)]

/-- **Numbers** that are printed are read back. -/
theorem atoi_decimal {n : ℤ} (h0 : -2 ^ 31 ≤ n) (h : n < 2 ^ 31) : atoi (decimal n) = n := by
  obtain ⟨c, s, hs⟩ := exists_cons_of_ne_nil (Nat.toDigits_ne_nil (n := n.natAbs) (b := 10))
  have hc : c.isDigit = true := isDigit_toDigits (hs ▸ mem_cons_self ..)
  have hdigit : ∀ d : Char, d.isDigit = false → c ≠ d := fun d hd heq => by
    rw [heq, hd] at hc
    cases hc
  have hspace : isSpace c = false := by
    obtain ⟨h0, -⟩ : '0' ≤ c ∧ c ≤ '9' := by simpa [Char.isDigit, Char.le_def] using hc
    have : 48 ≤ c.toNat := h0
    simp only [isSpace, Bool.or_eq_false_iff, Bool.and_eq_false_iff, decide_eq_false_iff_not]
    exact ⟨hdigit ' ' rfl, .inr (by omega)⟩
  have hvalue := digits_toDigits n.natAbs
  have hten : ¬ 10 = 16 := by decide
  rw [atoi, decimal]
  split
  · have hminus : stripSign (('-' :: Nat.toDigits 10 n.natAbs).dropWhile isSpace) =
        (true, Nat.toDigits 10 n.natAbs) := rfl
    simp only [strtol, hminus, if_neg hten, hvalue, if_true]
    rw [toInt, Int.bmod_eq_of_le] <;> omega
  · have hplus : stripSign ((Nat.toDigits 10 n.natAbs).dropWhile isSpace) =
        (false, Nat.toDigits 10 n.natAbs) := by
      rw [hs, dropWhile_cons_of_neg (by rw [hspace]; decide),
        stripSign_cons (hdigit '-' rfl) (hdigit '+' rfl)]
    simp only [strtol, hplus, if_neg hten, hvalue, Bool.false_eq_true, if_false]
    rw [toInt, Int.bmod_eq_of_le] <;> omega

end Lib
