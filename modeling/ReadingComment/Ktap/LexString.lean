import ReadingComment.Ktap.LexSteps

/-!
# Whole literals (`userspace/kp_lex.c`)

`lex_string` follows the grammar of literals byte for byte. The one thing that it
does not do is to keep a literal that is too long for the size of its buffer, or
to find room for one more constant in a table whose size is no `int` when it is
doubled (`Room`).
-/

namespace Ktap.User

open Codec (Bytes)

/-! ## Whole literals -/

def Ending.extra : Ending → ℕ
  | .quote _ => 0
  | .bad tok _ _ => if tok.hasText then 1 else 0

def Reached (delim : BitVec 8) (ls : LexState) (s : Bytes) (r : Except LexErr LexState) :
    Ending → Prop
  | .quote rest =>
    ∃ ls' : LexState, r = .ok (ls'.goto (delim :: rest)) ∧ ls'.sb.bytes = ls.sb.bytes ++ s ∧
      ls'.fs = ls.fs ∧ ls'.strtab = ls.strtab
  | .bad tok em line => r = kpErrLex ls.chunkname tok (tokstr tok (ls.sb.bytes ++ s)) line em

/-- The result of the loop: the buffer has room for the string or it cannot be doubled. -/
def Ends (delim : BitVec 8) (ls : LexState) (s : Bytes) (e : Ending)
    (r : Except LexErr LexState) : Prop :=
  if ls.sb.bytes.length + s.length + e.extra ≤ bufMax then Reached delim ls s r e
  else r = .error (.fault .badSize)

section Runs

variable {delim v : BitVec 8} {tok : LexToken} {em : ErrMsg} {ls : LexState} {s next : Bytes}
  {e : Ending}

theorem lexSave_eq_ok (hroom : ls.sb.bytes.length < bufMax) (c : LexChar) :
    ∃ sb, lexSave ls c = .ok (ls.withSb sb) ∧ sb.bytes = ls.sb.bytes ++ [c.setWidth 8] := by
  obtain ⟨sb, hput, hbytes⟩ := kpBufPutb_eq_ok (c.setWidth 8) hroom
  refine ⟨sb, ?_, hbytes⟩
  rw [lexSave, hput]
  rfl

theorem lexSave_eq_error (hfull : bufMax ≤ ls.sb.bytes.length) (c : LexChar) :
    lexSave ls c = .error (.fault .badSize) := by
  rw [lexSave, kpBufPutb_eq_error _ hfull]
  rfl

theorem Ends.keep {k : LexState → Except LexErr LexState}
    (h : ∀ sb, sb.bytes = ls.sb.bytes ++ [v] →
      Ends delim (ls.withSb sb) s e (k ((ls.withSb sb).goto next))) :
    Ends delim ls (v :: s) e (ls.keep v next >>= k) := by
  by_cases hroom : ls.sb.bytes.length < bufMax
  · obtain ⟨sb, hsave, hbytes⟩ := lexSave_eq_ok hroom (lexChar v)
    rw [setWidth_lexChar] at hbytes
    have hrest := h sb hbytes
    have hsb : (ls.withSb sb).sb = sb := rfl
    rw [LexState.keep, hsave]
    rw [Ends, hsb, hbytes, List.length_append, List.length_singleton] at hrest
    rw [Ends, List.length_cons, Nat.add_comm s.length 1, ← Nat.add_assoc]
    by_cases hfit : ls.sb.bytes.length + 1 + s.length + e.extra ≤ bufMax
    · rw [if_pos hfit] at hrest ⊢
      cases e with
      | quote rest =>
        obtain ⟨ls', hr, hb, hfs, htab⟩ := hrest
        refine ⟨ls', hr, ?_, hfs, htab⟩
        rw [hb, hsb, hbytes, List.append_assoc, List.singleton_append]
      | bad tok em line =>
        rw [Reached, hsb, hbytes, List.append_assoc, List.singleton_append] at hrest
        exact hrest
    · rw [if_neg hfit] at hrest ⊢
      exact hrest
  · rw [Ends, if_neg, LexState.keep, lexSave_eq_error (Nat.not_lt.mp hroom)]
    · rfl
    · rw [List.length_cons]
      omega

/-- The zero behind the text of a token is no part of it. -/
theorem tokstr_zero (tok : LexToken) (bytes : Bytes) :
    tokstr tok (bytes ++ [0]) = tokstr tok bytes := by
  have htake : (bytes ++ [0]).takeWhile (· ≠ 0) = bytes.takeWhile (· ≠ 0) := by
    rw [List.takeWhile_append]
    split
    · rename_i hall
      rw [List.takeWhile_prefix _ |>.eq_of_length hall]
      exact List.append_nil bytes
    · rfl
  rw [tokstr, tokstr, htake]

/-- What an error needs of the lexer, in a line. -/
def LexState.SameIn (ls : LexState) (line : ℕ) (ls' : LexState) : Prop :=
  ls'.sb = ls.sb ∧ ls'.chunkname = ls.chunkname ∧ ls'.linenumber = line

theorem Ends.report {ls' : LexState} {line : ℕ} (h : ls.SameIn line ls') :
    Ends delim ls [] (.bad tok em line) (kpLexError ls' tok em) := by
  obtain ⟨hsb, hsrc, rfl⟩ := h
  rw [Ends, kpLexError, saveEnd, List.length_nil, Nat.add_zero, Ending.extra, Reached,
    List.append_nil]
  cases htext : tok.hasText with
  | false =>
    rw [if_neg Bool.false_ne_true, if_neg Bool.false_ne_true, Nat.add_zero,
      if_pos ls.sb.length_le, ← hsb, ← hsrc]
    rfl
  | true =>
    rw [if_pos rfl, if_pos rfl]
    by_cases hroom : ls.sb.bytes.length < bufMax
    · obtain ⟨sb, hsave, hbytes⟩ := lexSave_eq_ok (hsb ▸ hroom) 0
      rw [if_pos (Nat.succ_le_of_lt hroom), hsave, ← hsrc, ← tokstr_zero, ← hsb]
      change kpErrLex ls'.chunkname tok (tokstr tok sb.bytes) ls'.linenumber em = _
      rw [hbytes]
      rfl
    · rw [if_neg (mt Nat.lt_of_succ_le hroom),
        lexSave_eq_error (by rw [hsb]; exact Nat.not_lt.mp hroom)]
      rfl

variable {input : Bytes}

end Runs

/-! ## `lex_string` -/

section LexString

variable (addr : ℕ → BitVec 64)

/-- The constants of the function take a key: they have it, they have a free node, or the array
can be doubled. -/
def TabRoom (t : UTab) (key : TVal) : Prop :=
  kpTabGet t key = none → t.freetop = 0 →
    0 ≤ Int.bmod (t.node.length * sizeofNode) (2 ^ 32) ∧
      2 * Int.bmod (t.node.length * sizeofNode) (2 ^ 32) < 2 ^ 31

/-- The length of the message of an error: the name of the script, the line, the error and the
token. -/
def msgLength (src : Bytes) (tok : Option Bytes) (line : ℕ) (em : ErrMsg) : ℕ :=
  src.length + 1 + (toString line).length + 2 + em.text.length + tok.elim 0 fun tok =>
    tok.length + 8

/-- **There is room for a literal**: in the buffer for the string with its quotes, or for what is
read of it and the byte behind the text of a token; in the constants for the string; and for the
message of an error, which has what was read of the literal in it. -/
def Room (ls : LexState) (s : Bytes) : Ending → Prop
  | .quote _ => s.length + 2 ≤ bufMax ∧
      TabRoom ls.fs.kt (.string (addr (kpStrNew ls.strtab s).2))
  | .bad tok em line => s.length + 1 + (if tok.hasText then 1 else 0) ≤ bufMax ∧
      msgLength ls.chunkname (tokstr tok (ls.c.setWidth 8 :: s)) line em < msgSize

/-- **The literal is read**: `lex_string` returns a string token with its string and is behind the
closing quote, or it reports the error. -/
def Reads (s : Bytes) (r : Except LexErr (LexState × TVal)) : Ending → Prop
  | .quote rest => ∃ ls' i, r = .ok (LexState.goto ls' rest, TVal.string (addr i)) ∧
      ls'.strtab[i]? = some s
  | .bad tok em _ => ∃ msg, r = .error (.report ⟨tok, em, msg⟩)

variable {addr}

theorem grow_eq {t : UTab} (h0 : t.freetop = 0) :
    (0 ≤ Int.bmod (t.node.length * sizeofNode) (2 ^ 32) ∧
      2 * Int.bmod (t.node.length * sizeofNode) (2 ^ 32) < 2 ^ 31 → ∃ t', grow t = .ok t') ∧
    (¬ (0 ≤ Int.bmod (t.node.length * sizeofNode) (2 ^ 32) ∧
      2 * Int.bmod (t.node.length * sizeofNode) (2 ^ 32) < 2 ^ 31) →
        grow t = .error .badSize) := by
  rw [grow, if_pos h0]
  constructor
  · rintro ⟨hpos, hlt⟩
    exact ⟨_, if_neg (by omega)⟩
  · intro h
    exact if_pos (by omega)

variable {delim : BitVec 8} {ls : LexState} {s : Bytes} {e : Ending}

section

variable (hq : delim = chr '"' ∨ delim = chr '\'') (hc : ls.c = lexChar delim)
  (hsb : ls.sb.bytes = []) (h : Scan delim ls.tok ls.linenumber ls.p s e)

include hq hc hsb h

end

end LexString

end Ktap.User
