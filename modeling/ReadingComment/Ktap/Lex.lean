import ReadingComment.Ktap.UserConst
import ReadingComment.Lib.Codec

/-!
# Characters and strings of the lexer (`userspace/kp_lex.c`)

The lexer reads one character ahead: `c` is the character it is at and `p` the
input behind it. The text of a token is collected in a buffer that lives as long
as the lexer and is doubled when it is full, with a size that is an `int`.

`kp_lex_error` does not return (`kp_err_lex` prints its message and exits), so it
is an error of the model that carries the message. The message is printed into blocks
of 128 bytes, and what is longer is written behind them.
-/

namespace Ktap.User

open Codec (Bytes)

/-! ## The buffer of a token -/

/-- The size that `kp_buf_init` allocates. -/
def bufInit : ℕ := 200

/-- The largest size of the buffer: its double is no `int`. -/
def bufMax : ℕ := bufInit * 2 ^ 23

/-- An `SBuf`: the bytes from `b` to `p`, and how often the buffer was doubled. -/
structure SBuf where
  bytes : Bytes
  doubled : ℕ
  /-- `p` is not behind `e` -/
  fits : bytes.length ≤ bufInit * 2 ^ doubled
  /-- the size is an `int` -/
  small : doubled ≤ 23
  deriving DecidableEq, Repr

/-- `sbufsz(sb)`. -/
def SBuf.sbufsz (sb : SBuf) : ℕ := bufInit * 2 ^ sb.doubled

/-- `kp_buf_reset(sb)`. -/
def kpBufReset (sb : SBuf) : SBuf := { sb with bytes := [], fits := Nat.zero_le _ }

theorem length_putb {bytes : Bytes} {n : ℕ} (c : BitVec 8) (h : bytes.length < n) :
    (bytes ++ [c]).length ≤ n := by
  rw [List.length_append, List.length_singleton]
  exact h

theorem SBuf.length_lt (sb : SBuf) : sb.bytes.length < bufInit * 2 ^ (sb.doubled + 1) := by
  have hpos : 0 < 2 ^ sb.doubled := Nat.two_pow_pos _
  have hfits := sb.fits
  rw [bufInit] at *
  rw [pow_succ]
  omega

/-- `kp_buf_putb(sb, c)`: `kp_buf_more` doubles a buffer that has no byte left. -/
def kpBufPutb (sb : SBuf) (c : BitVec 8) : Except Fault SBuf :=
  if h : sb.bytes.length < sb.sbufsz then
    .ok ⟨sb.bytes ++ [c], sb.doubled, length_putb c h, sb.small⟩
  else if hs : sb.doubled < 23 then
    .ok ⟨sb.bytes ++ [c], sb.doubled + 1, length_putb c sb.length_lt, hs⟩
  else .error .badSize

theorem SBuf.length_le (sb : SBuf) : sb.bytes.length ≤ bufMax :=
  sb.fits.trans (Nat.mul_le_mul_left _ (Nat.pow_le_pow_right Nat.two_pos sb.small))

theorem kpBufPutb_eq_ok {sb : SBuf} (c : BitVec 8) (h : sb.bytes.length < bufMax) :
    ∃ sb', kpBufPutb sb c = .ok sb' ∧ sb'.bytes = sb.bytes ++ [c] := by
  rw [kpBufPutb]
  by_cases hroom : sb.bytes.length < sb.sbufsz
  · exact ⟨_, dif_pos hroom, rfl⟩
  · have hs : sb.doubled < 23 := by
      by_contra hs
      obtain hs : sb.doubled = 23 := by
        have := sb.small
        omega
      rw [SBuf.sbufsz, hs] at hroom
      exact hroom h
    rw [dif_neg hroom]
    exact ⟨_, dif_pos hs, rfl⟩

theorem kpBufPutb_eq_error {sb : SBuf} (c : BitVec 8) (h : bufMax ≤ sb.bytes.length) :
    kpBufPutb sb c = .error .badSize := by
  have hfull : ¬ sb.bytes.length < sb.sbufsz := by
    have hle : sb.sbufsz ≤ bufMax :=
      Nat.mul_le_mul_left _ (Nat.pow_le_pow_right Nat.two_pos sb.small)
    exact Nat.not_lt.mpr (hle.trans h)
  have hs : ¬ sb.doubled < 23 := by
    intro hs
    have hlt : sb.sbufsz < bufMax :=
      Nat.mul_lt_mul_of_pos_left (Nat.pow_lt_pow_right Nat.one_lt_two hs) (by decide)
    exact absurd (h.trans sb.fits) (Nat.not_le.mpr hlt)
  rw [kpBufPutb, dif_neg hfull, dif_neg hs]

/-! ## Characters -/

/-- A `LexChar`: a byte without sign, or `LEX_EOF`. -/
abbrev LexChar : Type := BitVec 32

/-- `LEX_EOF`. -/
def lexEof : LexChar := -1

def chr (c : Char) : BitVec 8 := BitVec.ofNat 8 c.toNat

/-- A byte as `lex_next` reads it. -/
def lexChar (b : BitVec 8) : LexChar := b.setWidth 32

/-- `kp_char_bits`. -/
def kpCharBits : List ℕ :=
  [0,
    1,  1,  1,  1,  1,  1,  1,  1,  1,  3,  3,  3,  3,  3,  1,  1,
    1,  1,  1,  1,  1,  1,  1,  1,  1,  1,  1,  1,  1,  1,  1,  1,
    2,  4,  4,  4,  4,  4,  4,  4,  4,  4,  4,  4,  4,  4,  4,  4,
  152, 152, 152, 152, 152, 152, 152, 152, 152, 152,  4,  4,  4,  4,  4,  4,
    4, 176, 176, 176, 176, 176, 176, 160, 160, 160, 160, 160, 160, 160, 160, 160,
  160, 160, 160, 160, 160, 160, 160, 160, 160, 160, 160,  4,  4,  4,  4, 132,
    4, 208, 208, 208, 208, 208, 208, 192, 192, 192, 192, 192, 192, 192, 192, 192,
  192, 192, 192, 192, 192, 192, 192, 192, 192, 192, 192,  4,  4,  4,  4,  1] ++
  List.replicate 128 128

/-- `kp_char_isa(c, t)`, with the entry of `LEX_EOF` in front. -/
def kpCharIsa (c : LexChar) (t : ℕ) : Bool := kpCharBits.getD (c + 1).toNat 0 &&& t != 0

/-- `kp_char_isspace(c)`. -/
def kpCharIsspace (c : LexChar) : Bool := kpCharIsa c 0x02

/-- A `LexToken`. -/
inductive LexToken where
  /-- a token of one character -/
  | char (c : Char)
  | and | or | not | concat | eq | ge | le | ne
  | number | name | string | eof
  /-- a reserved word that is no operator -/
  | reserved (word : String)
  deriving DecidableEq, Repr

/-- The messages of `ktap_errmsg.h` that a string can end with. -/
inductive ErrMsg where
  | xlines
  | xstr
  | xesc
  deriving DecidableEq, Repr

def ErrMsg.text : ErrMsg → String
  | .xlines => "chunk has too many lines"
  | .xstr => "unfinished string"
  | .xesc => "invalid escape sequence"

/-- What `kp_err_lex` says: the token, the kind of the error and the message that is printed. -/
structure Report where
  tok : LexToken
  em : ErrMsg
  msg : Bytes
  deriving DecidableEq, Repr

/-- How the lexer ends without a token. -/
inductive LexErr where
  /-- `kp_lex_error` -/
  | report (r : Report)
  /-- a message is printed behind the end of its block -/
  | overrun
  /-- an allocation with a size that is none -/
  | fault (f : Fault)
  /-- the model's loop is out of fuel -/
  | fuel
  deriving DecidableEq, Repr

/-- The fields of a `LexState` that a string token needs, the function that is parsed, and the
strings of the compiler's string table in their order. -/
structure LexState where
  fs : FuncState
  p : Bytes
  c : LexChar
  tok : LexToken
  sb : SBuf
  linenumber : ℕ
  strtab : List Bytes
  /-- `getstr(ls->chunkname)` -/
  chunkname : Bytes

def alloc {α : Type} : Except Fault α → Except LexErr α
  | .ok a => .ok a
  | .error f => .error (.fault f)

/-- `KP_MAX_LINE`. -/
def kpMaxLine : ℕ := 1000

def LexState.goto (ls : LexState) : Bytes → LexState
  | [] => { ls with p := [], c := lexEof }
  | b :: p => { ls with p := p, c := lexChar b }

/-- `lex_next(ls)`. -/
def lexNext (ls : LexState) : LexState := ls.goto ls.p

/-- `lex_save(ls, c)`. -/
def lexSave (ls : LexState) (c : LexChar) : Except LexErr LexState := do
  let sb ← alloc (kpBufPutb ls.sb (c.setWidth 8))
  return { ls with sb := sb }

/-- `lex_iseol(ls)`. -/
def lexIseol (c : LexChar) : Bool := c == lexChar (chr '\n') || c == lexChar (chr '\r')

def LexToken.hasText : LexToken → Bool
  | .name | .string | .number => true
  | _ => false

def text (s : String) : Bytes := s.toList.map chr

/-- `tokennames`. -/
def LexToken.tokenname : LexToken → String
  | .char _ => ""
  | .and => "&&"
  | .or => "||"
  | .not => "!"
  | .concat => ".."
  | .eq => "=="
  | .ge => ">="
  | .le => "<="
  | .ne => "!="
  | .number => "<number>"
  | .name => "<name>"
  | .string => "<string>"
  | .eof => "<eof>"
  | .reserved word => word

/-- `kp_lex_token2str(ls, tok)`. -/
def kpLexToken2str : LexToken → Bytes
  | .char c =>
    if kpCharIsa (lexChar (chr c)) 0x01 then text "char(" ++ text (toString c.toNat) ++ text ")"
    else [chr c]
  | tok => text tok.tokenname

/-- `tokstr` of `kp_lex_error`, with what the buffer holds; `none` is `NULL`. -/
def tokstr (tok : LexToken) (bytes : Bytes) : Option Bytes :=
  if tok = .char (Char.ofNat 0) then none
  else if tok.hasText then some (bytes.takeWhile (· ≠ 0))
  else some (kpLexToken2str tok)

/-- The size of the block of a message. -/
def msgSize : ℕ := 128

/-- `kp_sprintf(fmt, ...)`, with the text that is printed; a zero follows it. -/
def kpSprintf (msg : Bytes) : Except LexErr Bytes :=
  if msg.length < msgSize then .ok msg else .error .overrun

/-- The message of `kp_err_lex(src, tok, line, em, argp)`. -/
def errMessage (src : Bytes) (tok : Option Bytes) (line : ℕ) (em : ErrMsg) :
    Except LexErr Bytes := do
  let msg ← kpSprintf (text em.text)
  let msg ← kpSprintf (src ++ text ":" ++ text (toString line) ++ text ": " ++ msg)
  match tok with
  | none => return msg
  | some tok => kpSprintf (msg ++ text " near '" ++ tok ++ text "'")

/-- `kp_err_lex`, for a token with the text `tokstr`. -/
def kpErrLex {α : Type} (src : Bytes) (tok : LexToken) (tokstr : Option Bytes) (line : ℕ)
    (em : ErrMsg) : Except LexErr α := do
  let msg ← errMessage src tokstr line em
  .error (.report ⟨tok, em, msg⟩)

/-- A token with a text is ended by a zero. -/
def saveEnd (ls : LexState) (tok : LexToken) : Except LexErr LexState :=
  if tok.hasText then lexSave ls 0 else .ok ls

/-- `kp_lex_error(ls, tok, em)`. -/
def kpLexError {α : Type} (ls : LexState) (tok : LexToken) (em : ErrMsg) : Except LexErr α := do
  let ls ← saveEnd ls tok
  kpErrLex ls.chunkname tok (tokstr tok ls.sb.bytes) ls.linenumber em

/-- `lex_newline(ls)`. -/
def lexNewline (ls : LexState) : Except LexErr LexState :=
  let old := ls.c
  let ls := lexNext ls
  let ls := if lexIseol ls.c && ls.c != old then lexNext ls else ls
  let ls := { ls with linenumber := ls.linenumber + 1 }
  if ls.linenumber ≥ kpMaxLine then kpLexError ls ls.tok .xlines else .ok ls

/-! ## Strings -/

/-- The loop of `case 'z'`. -/
def skipSpace : ℕ → LexState → Except LexErr LexState
  | 0, _ => .error .fuel
  | n + 1, ls =>
    if kpCharIsspace ls.c then do
      let ls ← if lexIseol ls.c then lexNewline ls else .ok (lexNext ls)
      skipSpace n ls
    else .ok ls

section Keep

variable (addr : ℕ → BitVec 64)

/-- `kp_str_new(str, len)`: the string's place in the string table. -/
def kpStrNew (strtab : List Bytes) (str : Bytes) : List Bytes × ℕ :=
  match strtab.findIdx? (· == str) with
  | some i => (strtab, i)
  | none => (strtab ++ [str], strtab.length)

/-- `kp_parse_keepstr(ls, str, len)`; `addr` says where the strings of the table lie. -/
def keepstr (ls : LexState) (str : Bytes) : Except LexErr (LexState × BitVec 64) := do
  let (strtab, i) := kpStrNew ls.strtab str
  let fs ← alloc (kpParseKeepstr ls.fs (addr i))
  return ({ ls with strtab := strtab, fs := fs }, addr i)

end Keep

end Ktap.User
