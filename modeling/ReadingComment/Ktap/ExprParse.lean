import ReadingComment.Ktap.Lex

/-!
# Expressions of the parser (`userspace/kp_parse.c`)

The parser emits the code of an expression while it reads it. What it emits is a parameter
(`Actions`): the model has the tokens, the recursion and the order of the emitting functions, each
of which may fail.

The tokens are those of operands of one token, operators, parentheses and calls (`LexToken.plain`);
behind the last one the parser is at a token that no expression goes on with. Every nested call of
`expr_binop` takes one of the levels that `synlevel_begin` counts, so the model recurses on these.
-/

namespace Ktap.User

/-! ## Operators -/

/-- A `BinOpr`; `OPR_NOBINOPR` is `none`. -/
inductive BinOpr where
  | add | sub | mul | div | mod | pow
  | concat
  | ne | eq
  | lt | ge | le | gt
  | and | or
  deriving DecidableEq, Repr

/-- `token2binop(tok)`. -/
def token2binop : LexToken → Option BinOpr
  | .char '+' => some .add
  | .char '-' => some .sub
  | .char '*' => some .mul
  | .char '/' => some .div
  | .char '%' => some .mod
  | .char '^' => some .pow
  | .concat => some .concat
  | .ne => some .ne
  | .eq => some .eq
  | .char '<' => some .lt
  | .le => some .le
  | .char '>' => some .gt
  | .ge => some .ge
  | .and => some .and
  | .or => some .or
  | _ => none

/-- An entry of `priority`. -/
structure Priority where
  left : ℕ
  right : ℕ

/-- `priority[op]`. -/
def priority : BinOpr → Priority
  | .add => ⟨6, 6⟩
  | .sub => ⟨6, 6⟩
  | .mul => ⟨7, 7⟩
  | .div => ⟨7, 7⟩
  | .mod => ⟨7, 7⟩
  | .pow => ⟨10, 9⟩
  | .concat => ⟨5, 4⟩
  | .ne => ⟨3, 3⟩
  | .eq => ⟨3, 3⟩
  | .lt => ⟨3, 3⟩
  | .ge => ⟨3, 3⟩
  | .le => ⟨3, 3⟩
  | .gt => ⟨3, 3⟩
  | .and => ⟨2, 2⟩
  | .or => ⟨1, 1⟩

/-- `UNARY_PRIORITY`. -/
def unaryPriority : ℕ := 8

/-- The operators of `expr_unop`: `BC_NOT` and `BC_UNM`. -/
inductive UnOpr where
  | not
  | unm
  deriving DecidableEq, Repr

/-- The operator that `expr_unop` finds at a token. -/
def token2unop : LexToken → Option UnOpr
  | .not => some .not
  | .char '-' => some .unm
  | _ => none

/-! ## Tokens -/

/-- The words that are operands by themselves in `expr_simple`. -/
def operandWords : List String :=
  ["nil", "true", "false", "argstr", "probename", "arg0", "arg1", "arg2", "arg3", "arg4", "arg5",
    "arg6", "arg7", "arg8", "arg9", "pid", "tid", "uid", "cpu", "execname"]

def LexToken.isConst : LexToken → Bool
  | .number | .string => true
  | .reserved word => operandWords.contains word
  | _ => false

def LexToken.plain (tok : LexToken) : Bool :=
  tok.isConst || tok == .name || (token2binop tok).isSome || (token2unop tok).isSome ||
    tok == .char '(' || tok == .char ')'

/-- A token of an expression: its value, and whether a line ends between it and the token before
(`ls->linenumber != ls->lastline`). -/
structure Lexeme where
  tok : LexToken
  val : TVal
  newLine : Bool
  plain : tok.plain = true

/-! ## The parser -/

/-- How the parser ends without an expression. -/
inductive ParseErr (ε : Type) where
  /-- `unexpected symbol` -/
  | xsymbol
  /-- `')' expected` -/
  | xmatch
  /-- `ambiguous syntax (function call x new statement)` -/
  | xambig
  /-- `chunk has too many syntax levels` -/
  | xlevels
  /-- an error of an emitting function -/
  | emit (e : ε)
  /-- a loop of the model is out of fuel -/
  | fuel

/-- The emitting functions on a state `σ`, with the type `V` of expression descriptions. -/
structure Actions (σ ε V : Type) where
  /-- the description of an operand of one token: `expr_init` or `var_lookup` -/
  operand : Lexeme → σ → Except ε (V × σ)
  /-- `expr_discharge` behind a closing parenthesis -/
  discharge : V → σ → Except ε (V × σ)
  /-- `expr_tonextreg` in front of arguments -/
  callee : V → σ → Except ε (V × σ)
  /-- the end of `parse_args` -/
  call : V → Option V → σ → Except ε (V × σ)
  /-- `bcemit_unop` -/
  unop : UnOpr → V → σ → Except ε (V × σ)
  /-- `bcemit_binop_left` -/
  binopLeft : BinOpr → V → σ → Except ε (V × σ)
  /-- `bcemit_binop` -/
  binop : BinOpr → V → V → σ → Except ε (V × σ)

/-- The tokens from the current one on, and the state of the emitting functions. -/
structure ParseState (σ : Type) where
  toks : List Lexeme
  out : σ

/-- `expr_binop(ls, v, limit)`, with the operator that it returns. -/
abbrev Binop (σ ε V : Type) : Type :=
  ℕ → ParseState σ → Except (ParseErr ε) ((V × Option BinOpr) × ParseState σ)

section Parser

variable {σ ε V : Type}

/-- `ls->tok`; `eof` stands for the token behind the expression. -/
def tokOf : List Lexeme → LexToken
  | [] => .eof
  | x :: _ => x.tok

/-- `kp_lex_next(ls)`. -/
def ParseState.next (ls : ParseState σ) : ParseState σ := { ls with toks := ls.toks.tail }

def ParseState.emit {α : Type} (ls : ParseState σ) (f : σ → Except ε (α × σ)) :
    Except (ParseErr ε) (α × ParseState σ) :=
  match f ls.out with
  | .ok (a, out) => .ok (a, { ls with out := out })
  | .error e => .error (.emit e)

/-- `lex_match(ls, ')', '(', line)`. -/
def lexMatch (ls : ParseState σ) : Except (ParseErr ε) (Unit × ParseState σ) :=
  if tokOf ls.toks = .char ')' then .ok ((), ls.next) else .error .xmatch

def operandNext (a : Actions σ ε V) (ls : ParseState σ) :
    Except (ParseErr ε) (V × ParseState σ) :=
  match ls.toks with
  | [] => .error .xsymbol
  | x :: _ => do
    let (v, ls) ← ls.emit (a.operand x)
    return (v, ls.next)

section Levels

-- `sub` is `expr_binop` one level further in
variable (a : Actions σ ε V) (sub : Binop σ ε V)

/-- `parse_args(ls, e)`, at a parenthesis or a string. -/
def parseArgs (e : V) (ls : ParseState σ) : Except (ParseErr ε) (V × ParseState σ) := do
  match ls.toks with
  | [] => .error .xsymbol
  | x :: _ =>
    if x.tok = .char '(' then
      if x.newLine then .error .xambig
      else
        let ls := ls.next
        if tokOf ls.toks = .char ')' then ls.next.emit (a.call e none)
        else do
          let ((args, _), ls) ← sub 0 ls
          let ((), ls) ← lexMatch ls
          ls.emit (a.call e (some args))
    else do
      let (args, ls) ← operandNext a ls
      ls.emit (a.call e (some args))

def LexToken.isSuffix (tok : LexToken) : Bool := tok == .char '(' || tok == .string

/-- The loop of `expr_primary`. -/
def suffixLoop : ℕ → V → ParseState σ → Except (ParseErr ε) (V × ParseState σ)
  | 0, _, _ => .error .fuel
  | k + 1, v, ls =>
    if (tokOf ls.toks).isSuffix then do
      let (v, ls) ← ls.emit (a.callee v)
      let (v, ls) ← parseArgs a sub v ls
      suffixLoop k v ls
    else .ok (v, ls)

/-- The prefix of `expr_primary(ls, v)`. -/
def exprPrefix (ls : ParseState σ) : Except (ParseErr ε) (V × ParseState σ) :=
  if tokOf ls.toks = .char '(' then do
    let ((v, _), ls) ← sub 0 ls.next
    let ((), ls) ← lexMatch ls
    ls.emit (a.discharge v)
  else if tokOf ls.toks = .name then operandNext a ls
  else .error .xsymbol

/-- `expr_primary(ls, v)`. -/
def exprPrimary (ls : ParseState σ) : Except (ParseErr ε) (V × ParseState σ) := do
  let (v, ls) ← exprPrefix a sub ls
  suffixLoop a sub (ls.toks.length + 1) v ls

/-- `expr_simple(ls, v)`. -/
def exprSimple (ls : ParseState σ) : Except (ParseErr ε) (V × ParseState σ) :=
  if (tokOf ls.toks).isConst then operandNext a ls else exprPrimary a sub ls

/-- `expr_unop(ls, v)`. -/
def exprUnop (ls : ParseState σ) : Except (ParseErr ε) (V × ParseState σ) :=
  match token2unop (tokOf ls.toks) with
  | some op => do
    let ((v, _), ls) ← sub unaryPriority ls.next
    ls.emit (a.unop op v)
  | none => exprSimple a sub ls

/-- The loop of `expr_binop`. -/
def binopLoop (limit : ℕ) : ℕ → V → Option BinOpr → ParseState σ →
    Except (ParseErr ε) ((V × Option BinOpr) × ParseState σ)
  | 0, _, _, _ => .error .fuel
  | _ + 1, v, none, ls => .ok ((v, none), ls)
  | k + 1, v, some op, ls =>
    if (priority op).left > limit then do
      let (v, ls) ← ls.next.emit (a.binopLeft op v)
      let ((v2, nextop), ls) ← sub (priority op).right ls
      let (v, ls) ← ls.emit (a.binop op v v2)
      binopLoop limit k v nextop ls
    else .ok ((v, some op), ls)

end Levels

/-- `KP_MAX_XLEVEL`. -/
def kpMaxXlevel : ℕ := 200

/-- `expr_binop(ls, v, limit)` with the number of levels that `synlevel_begin` still allows. -/
def exprBinop (a : Actions σ ε V) : ℕ → Binop σ ε V
  | 0, _, _ => .error .xlevels
  | left + 1, limit, ls => do
    let (v, ls) ← exprUnop a (exprBinop a left) ls
    binopLoop a (exprBinop a left) limit (ls.toks.length + 1) v (token2binop (tokOf ls.toks)) ls

/-- The levels that are left at `ls->level`. -/
def levelsLeft (level : ℕ) : ℕ := kpMaxXlevel - 1 - level

/-- `expr(ls, v)`. -/
def expr (a : Actions σ ε V) (level : ℕ) (ls : ParseState σ) :
    Except (ParseErr ε) (V × ParseState σ) := do
  let ((v, _), ls) ← exprBinop a (levelsLeft level) 0 ls
  return (v, ls)

end Parser

end Ktap.User
