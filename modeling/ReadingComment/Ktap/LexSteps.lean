import ReadingComment.Ktap.LexGrammar

/-!
# The steps of `lex_string` (`userspace/kp_lex.c`)

What the lexer does at each place of a literal. The lexer that is at an input is
`ls.goto input`, so a step is an equation between the lexer at a text with
something behind it and the lexer at what is behind.
-/

namespace Ktap.User

open List

set_option maxRecDepth 8000

open Codec (Bytes)

/-! ## Characters -/

section Chars

variable {b : BitVec 8} {x : ℕ}

@[simp] theorem setWidth_lexChar (b : BitVec 8) : (lexChar b).setWidth 8 = b := by
  rw [lexChar]
  simp

end Chars

/-! ## The lexer -/

section Steps

variable {ls : LexState} {b : BitVec 8} {next : Bytes} {c : LexChar}

def LexState.withSb (ls : LexState) (sb : SBuf) : LexState := { ls with sb := sb }

/-- A byte is saved and the lexer goes on at `next`. -/
def LexState.keep (ls : LexState) (v : BitVec 8) (next : Bytes) : Except LexErr LexState := do
  let ls ← lexSave ls (lexChar v)
  return ls.goto next

variable {a : BitVec 8}

end Steps

end Ktap.User
