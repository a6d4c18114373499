import ReadingComment.Ktap.ExprParse

/-!
# The trees of expressions (`userspace/kp_parse.c`)

What the tokens of an expression mean is said here without the parser: `Spells` is
the relation between a tree and the tokens that it is written with, by the table of
priorities alone. The parser reads every spelling of a tree and emits the code of
the tree (`Spells.parses`), as far as what is behind it does not go on with it.
-/

namespace Ktap.User

open List

/-! ## Trees -/

/-- The tree of an expression. -/
inductive Tree where
  | operand (x : Lexeme)
  | paren (e : Tree)
  | call0 (f : Tree)
  | call (f arg : Tree)
  | unop (op : UnOpr) (e : Tree)
  | binop (op : BinOpr) (l r : Tree)

/-- An operator behind a tree does not take the operand that the tree ends with: the operators on
the right edge of the tree bind it. -/
def Tree.Binds (op : BinOpr) : Tree → Prop
  | .unop _ e => (priority op).left ≤ unaryPriority ∧ e.Binds op
  | .binop op' _ r => (priority op).left ≤ (priority op').right ∧ r.Binds op
  | _ => True

/-- The tree ends with a name, a parenthesis or a call, so that arguments may follow. -/
def Tree.Open : Tree → Prop
  | .operand x => x.tok = .name
  | .paren _ => True
  | .call0 _ => True
  | .call _ _ => True
  | .unop _ e => e.Open
  | .binop _ _ r => r.Open

/-- What the tokens spell: a prefix with its suffixes, or an expression whose operators bind tighter
than a limit. -/
inductive Form where
  | primary
  | limit (n : ℕ)

/-- The tokens that spell a tree, when `levels` nested expressions are allowed. -/
inductive Spells : ℕ → Form → Tree → List Lexeme → Prop where
  | name {d : ℕ} {x : Lexeme} : x.tok = .name → Spells (d + 1) .primary (.operand x) [x]
  | paren {d : ℕ} {e : Tree} {w : List Lexeme} {lp rp : Lexeme} : lp.tok = .char '(' →
      rp.tok = .char ')' → Spells d (.limit 0) e w →
      Spells (d + 1) .primary (.paren e) (lp :: (w ++ [rp]))
  | call0 {d : ℕ} {f : Tree} {w : List Lexeme} {lp rp : Lexeme} : lp.tok = .char '(' →
      lp.newLine = false → rp.tok = .char ')' → Spells (d + 1) .primary f w →
      Spells (d + 1) .primary (.call0 f) (w ++ [lp, rp])
  | call {d : ℕ} {f arg : Tree} {w w' : List Lexeme} {lp rp : Lexeme} : lp.tok = .char '(' →
      lp.newLine = false → rp.tok = .char ')' → Spells (d + 1) .primary f w →
      Spells d (.limit 0) arg w' → Spells (d + 1) .primary (.call f arg) (w ++ lp :: (w' ++ [rp]))
  | callString {d : ℕ} {f : Tree} {w : List Lexeme} {x : Lexeme} : x.tok = .string →
      Spells (d + 1) .primary f w → Spells (d + 1) .primary (.call f (.operand x)) (w ++ [x])
  | const {d n : ℕ} {x : Lexeme} : x.tok.isConst = true →
      Spells (d + 1) (.limit n) (.operand x) [x]
  | primary {d n : ℕ} {t : Tree} {w : List Lexeme} : Spells (d + 1) .primary t w →
      Spells (d + 1) (.limit n) t w
  | unop {d n : ℕ} {op : UnOpr} {e : Tree} {w : List Lexeme} {x : Lexeme} :
      token2unop x.tok = some op → Spells d (.limit unaryPriority) e w →
      Spells (d + 1) (.limit n) (.unop op e) (x :: w)
  | binop {d n : ℕ} {op : BinOpr} {l r : Tree} {w w' : List Lexeme} {x : Lexeme} :
      token2binop x.tok = some op → n < (priority op).left → Spells (d + 1) (.limit n) l w →
      l.Binds op → Spells d (.limit (priority op).right) r w' →
      Spells (d + 1) (.limit n) (.binop op l r) (w ++ x :: w')

/-- What is behind a tree does not go on with it. -/
structure Follows (t : Tree) (rest : List Lexeme) : Prop where
  op : ∀ op, token2binop (tokOf rest) = some op → t.Binds op
  suffix : (tokOf rest).isSuffix = true → ¬ t.Open

/-- What is behind an expression with a limit is no part of it. -/
structure Stops (n : ℕ) (t : Tree) (rest : List Lexeme) : Prop where
  follows : Follows t rest
  limit : ∀ op, token2binop (tokOf rest) = some op → (priority op).left ≤ n

section Build

variable {σ ε V : Type} (a : Actions σ ε V)

/-- The emitting functions that are called for a tree, in their order. -/
def build : Tree → σ → Except ε (V × σ)
  | .operand x, s => a.operand x s
  | .paren e, s => do
    let (v, s) ← build e s
    a.discharge v s
  | .call0 f, s => do
    let (v, s) ← build f s
    let (v, s) ← a.callee v s
    a.call v none s
  | .call f arg, s => do
    let (v, s) ← build f s
    let (v, s) ← a.callee v s
    let (args, s) ← build arg s
    a.call v (some args) s
  | .unop op e, s => do
    let (v, s) ← build e s
    a.unop op v s
  | .binop op l r, s => do
    let (v, s) ← build l s
    let (v, s) ← a.binopLeft op v s
    let (v2, s) ← build r s
    a.binop op v v2 s

end Build

/-! ## Emitting -/

section Emits

variable {σ ε V β γ : Type}

def emits (f : σ → Except ε (V × σ)) (s : σ) (k : V → σ → Except (ParseErr ε) β) :
    Except (ParseErr ε) β :=
  match f s with
  | .ok (v, s) => k v s
  | .error e => .error (.emit e)

variable {f : σ → Except ε (V × σ)}

theorem emits_of_ok {s s' : σ} {v : V} (h : f s = .ok (v, s')) (k : V → σ → Except (ParseErr ε) β) :
    emits f s k = k v s' := by
  rw [emits, h]

theorem emits_eq_ok {s : σ} {k : V → σ → Except (ParseErr ε) β} {b : β} (h : emits f s k = .ok b) :
    ∃ v s', f s = .ok (v, s') ∧ k v s' = .ok b := by
  rw [emits] at h
  cases hf : f s with
  | error e =>
    rw [hf] at h
    cases h
  | ok r =>
    rw [hf] at h
    exact ⟨r.1, r.2, rfl, h⟩

theorem bind_emits {s : σ} {k : V → σ → Except (ParseErr ε) β} (K : β → Except (ParseErr ε) γ) :
    (emits f s k >>= K) = emits f s fun v s => k v s >>= K := by
  rw [emits, emits]
  cases f s <;> rfl

theorem emit_bind {s : σ} {toks : List Lexeme} (K : V × ParseState σ → Except (ParseErr ε) β) :
    (ParseState.emit ⟨toks, s⟩ f >>= K) = emits f s fun v s => K (v, ⟨toks, s⟩) := by
  rw [ParseState.emit, emits]
  cases f s <;> rfl

theorem emit_eq_emits {s : σ} {toks : List Lexeme} :
    ParseState.emit ⟨toks, s⟩ f = emits f s fun v s => .ok (v, ⟨toks, s⟩) := by
  cases hf : f s <;> simp only [ParseState.emit, emits, hf]

end Emits

/-! ## The parser follows the relation -/

section Steps

attribute [local simp] build emits suffixLoop binopLoop

variable {σ ε V : Type} {a : Actions σ ε V} {sub : Binop σ ε V} {x : Lexeme} {toks : List Lexeme}
  {s : σ} {v : V}

theorem operandNext_cons : operandNext a ⟨x :: toks, s⟩ =
    emits (a.operand x) s fun v s => .ok (v, ⟨toks, s⟩) := by
  change (ParseState.emit ⟨x :: toks, s⟩ (a.operand x) >>= _) = _
  rw [emit_bind]
  rfl

theorem lexMatch_cons (h : x.tok = .char ')') :
    (lexMatch ⟨x :: toks, s⟩ : Except (ParseErr ε) _) = .ok ((), ⟨toks, s⟩) :=
  if_pos h

theorem parseArgs_none {lp rp : Lexeme} (hlp : lp.tok = .char '(') (hline : lp.newLine = false)
    (hrp : rp.tok = .char ')') : parseArgs a sub v ⟨lp :: rp :: toks, s⟩ =
      emits (a.call v none) s fun v s => .ok (v, ⟨toks, s⟩) := by
  rw [parseArgs]
  simp only [hlp, hline, if_true, if_neg Bool.false_ne_true]
  rw [if_pos (show tokOf (ParseState.next ⟨lp :: rp :: toks, s⟩).toks = .char ')' from hrp)]
  exact emit_eq_emits

theorem parseArgs_some {lp : Lexeme} (hlp : lp.tok = .char '(') (hline : lp.newLine = false)
    (hrp : tokOf toks ≠ .char ')') : parseArgs a sub v ⟨lp :: toks, s⟩ = (do
      let ((args, _), ls) ← sub 0 ⟨toks, s⟩
      let ((), ls) ← lexMatch ls
      ls.emit (a.call v (some args))) := by
  rw [parseArgs]
  simp only [hlp, hline, if_true, if_neg Bool.false_ne_true]
  rw [if_neg (show tokOf (ParseState.next ⟨lp :: toks, s⟩).toks ≠ .char ')' from hrp)]
  rfl

theorem parseArgs_string (hx : x.tok = .string) : parseArgs a sub v ⟨x :: toks, s⟩ =
    emits (a.operand x) s fun args s => emits (a.call v (some args)) s fun v s =>
      .ok (v, ⟨toks, s⟩) := by
  have hne : ¬ x.tok = .char '(' := by
    rw [hx]
    decide
  rw [parseArgs]
  simp only [if_neg hne]
  rw [operandNext_cons, bind_emits]
  simp only [← emit_eq_emits]
  rfl

theorem suffixLoop_suffix (h : (tokOf toks).isSuffix = true) (k : ℕ) :
    suffixLoop a sub (k + 1) v ⟨toks, s⟩ = emits (a.callee v) s fun v s =>
      parseArgs a sub v ⟨toks, s⟩ >>= fun r => suffixLoop a sub k r.1 r.2 := by
  rw [suffixLoop, if_pos h, emit_bind]

theorem suffixLoop_end (h : (tokOf toks).isSuffix = false) (k : ℕ) :
    suffixLoop a sub (k + 1) v ⟨toks, s⟩ = .ok (v, ⟨toks, s⟩) := by
  rw [suffixLoop, h, if_neg Bool.false_ne_true]

theorem binopLoop_op {n : ℕ} {op : BinOpr} (h : n < (priority op).left) (k : ℕ) :
    binopLoop a sub n (k + 1) v (some op) ⟨x :: toks, s⟩ = emits (a.binopLeft op v) s fun v s =>
      sub (priority op).right ⟨toks, s⟩ >>= fun r =>
        r.2.emit (a.binop op v r.1.1) >>= fun r' => binopLoop a sub n k r'.1 r.1.2 r'.2 := by
  rw [binopLoop, if_pos h]
  exact emit_bind _

theorem binopLoop_end {n : ℕ} {op : Option BinOpr}
    (h : ∀ op', op = some op' → (priority op').left ≤ n) (k : ℕ) (ls : ParseState σ) :
    binopLoop a sub n (k + 1) v op ls = .ok ((v, op), ls) := by
  cases op with
  | none => rfl
  | some op => rw [binopLoop, if_neg (Nat.not_lt.mpr (h op rfl))]

section

variable {β : Type} (k : V → σ → Except (ParseErr ε) β)

include k

theorem emits_call0 {f : Tree} :
    emits (build a (.call0 f)) s k = emits (build a f) s fun v s =>
      emits (a.callee v) s fun v s => emits (a.call v none) s k := by
  simp only [emits, build, bind, Except.bind]
  rcases build a f s with e | ⟨v, s⟩
  · rfl
  rcases h : a.callee v s with e | ⟨v, s⟩ <;> simp only [h]

theorem emits_call {f arg : Tree} :
    emits (build a (.call f arg)) s k = emits (build a f) s fun v s =>
      emits (a.callee v) s fun v s => emits (build a arg) s fun args s =>
        emits (a.call v (some args)) s k := by
  simp only [emits, build, bind, Except.bind]
  rcases build a f s with e | ⟨v, s⟩
  · rfl
  rcases h : a.callee v s with e | ⟨v', s'⟩ <;> simp only [h]
  rcases build a arg s' with e | ⟨args, s''⟩ <;> rfl

theorem emits_binop {op : BinOpr} {l r : Tree} :
    emits (build a (.binop op l r)) s k = emits (build a l) s fun v s =>
      emits (a.binopLeft op v) s fun v s => emits (build a r) s fun v2 s =>
        emits (a.binop op v v2) s k := by
  simp only [emits, build, bind, Except.bind]
  rcases build a l s with e | ⟨v, s⟩
  · rfl
  rcases h : a.binopLeft op v s with e | ⟨v', s'⟩ <;> simp only [h]
  rcases build a r s' with e | ⟨v2, s''⟩ <;> rfl

theorem emits_paren {e : Tree} :
    emits (build a (.paren e)) s k = emits (build a e) s fun v s => emits (a.discharge v) s k := by
  simp only [emits, build, bind, Except.bind]
  rcases build a e s with e | ⟨v, s⟩ <;> rfl

theorem emits_unop {op : UnOpr} {e : Tree} :
    emits (build a (.unop op e)) s k = emits (build a e) s fun v s => emits (a.unop op v) s k := by
  simp only [emits, build, bind, Except.bind]
  rcases build a e s with e | ⟨v, s⟩ <;> rfl

end

end Steps

/-! ### First tokens -/

section Tokens

variable {tok : LexToken} {d : ℕ} {form : Form} {t : Tree} {w rest : List Lexeme}

theorem not_suffix_of_binop {op : BinOpr} (h : token2binop tok = some op) :
    tok.isSuffix = false := by
  rw [LexToken.isSuffix, Bool.or_eq_false_iff, beq_eq_false_iff_ne, beq_eq_false_iff_ne]
  constructor <;> rintro rfl <;> cases h

theorem token2unop_of_isConst (h : tok.isConst = true) : token2unop tok = none := by
  cases tok <;> first | rfl | cases h

theorem Spells.head_primary (h : Spells d .primary t w) :
    ∃ x w', w = x :: w' ∧ (x.tok = .name ∨ x.tok = .char '(') := by
  generalize hform : Form.primary = form at h
  induction h with
  | name hx => exact ⟨_, _, rfl, .inl hx⟩
  | paren hlp _ _ _ => exact ⟨_, _, rfl, .inr hlp⟩
  | call0 _ _ _ _ ih | call _ _ _ _ _ ih _ | callString _ _ ih =>
    obtain ⟨x, w', rfl, hx⟩ := ih hform
    exact ⟨x, _, rfl, hx⟩
  | _ => cases hform

theorem Spells.tok_primary (h : Spells d .primary t w) (rest : List Lexeme) :
    token2unop (tokOf (w ++ rest)) = none ∧ (tokOf (w ++ rest)).isConst = false := by
  obtain ⟨x, w', rfl, hx⟩ := h.head_primary
  rw [cons_append, tokOf]
  rcases hx with hx | hx <;> rw [hx] <;> decide

theorem follows_binop {op : BinOpr} {x : Lexeme} (hx : token2binop x.tok = some op)
    (hbinds : t.Binds op) : Follows t (x :: rest) := by
  constructor
  · intro op' hop'
    obtain rfl := Option.some.inj (hx.symm.trans hop')
    exact hbinds
  · rw [tokOf, not_suffix_of_binop hx]
    rintro ⟨⟩

theorem Spells.open_primary (h : Spells d .primary t w) : t.Open := by
  cases h with
  | name hx => exact hx
  | _ => trivial

theorem Spells.binds_primary (h : Spells d .primary t w) (op : BinOpr) : t.Binds op := by
  cases h <;> trivial

theorem Spells.head_ne (h : Spells d form t w) : tokOf (w ++ rest) ≠ .char ')' := by
  induction h generalizing rest with
  | name hx =>
    rw [singleton_append, tokOf, hx]
    decide
  | paren hlp _ _ _ =>
    rw [cons_append, tokOf, hlp]
    decide
  | call0 _ _ _ _ ih | call _ _ _ _ _ ih _ | callString _ _ ih | binop _ _ _ _ _ ih _ =>
    rw [append_assoc]
    exact ih
  | const hx =>
    intro hc
    rw [singleton_append, tokOf] at hc
    rw [hc] at hx
    exact absurd hx (by decide)
  | primary _ ih => exact ih
  | unop hx _ _ =>
    intro hc
    rw [cons_append, tokOf] at hc
    rw [hc] at hx
    cases hx

end Tokens

/-! ### Every expression is read -/

section Reads

variable {σ ε V : Type} (a : Actions σ ε V)

/-- The parser at a text with something behind it: it emits the tree of the text and goes on with
its loop. -/
def Parses (d : ℕ) (t : Tree) (w : List Lexeme) : Form → Prop
  | .primary => ∀ rest, ∃ k, rest.length < k ∧ ∀ s,
      exprPrimary a (exprBinop a (d - 1)) ⟨w ++ rest, s⟩ = emits (build a t) s fun v s =>
        suffixLoop a (exprBinop a (d - 1)) k v ⟨rest, s⟩
  | .limit n => ∀ rest, Follows t rest → ∃ k, rest.length < k ∧ ∀ s,
      exprBinop a d n ⟨w ++ rest, s⟩ = emits (build a t) s fun v s =>
        binopLoop a (exprBinop a (d - 1)) n k v (token2binop (tokOf rest)) ⟨rest, s⟩

variable {a}

theorem Parses.close {d : ℕ} {e : Tree} {w rest : List Lexeme} {rp : Lexeme}
    (h : Parses a d e w (.limit 0)) (hrp : rp.tok = .char ')') (s : σ) :
    exprBinop a d 0 ⟨w ++ rp :: rest, s⟩ = emits (build a e) s fun v s =>
      .ok ((v, none), ⟨rp :: rest, s⟩) := by
  have hop : token2binop (tokOf (rp :: rest)) = none := by
    rw [tokOf, hrp]
    rfl
  have hfollows : Follows e (rp :: rest) := by
    constructor
    · rw [hop]
      rintro op ⟨⟩
    · rw [tokOf, hrp]
      rintro ⟨⟩
  obtain ⟨k, hk, hparse⟩ := h (rp :: rest) hfollows
  rw [hparse, hop]
  congr 1
  funext v s
  obtain ⟨k, rfl⟩ := Nat.exists_eq_succ_of_ne_zero (Nat.ne_zero_of_lt hk)
  rfl

theorem exprBinop_unop {d n : ℕ} {f : σ → Except ε (V × σ)} {toks rest : List Lexeme} {s : σ}
    (h : exprUnop a (exprBinop a d) ⟨toks, s⟩ = emits f s fun v s => .ok (v, ⟨rest, s⟩)) :
    exprBinop a (d + 1) n ⟨toks, s⟩ = emits f s fun v s =>
      binopLoop a (exprBinop a d) n (rest.length + 1) v (token2binop (tokOf rest)) ⟨rest, s⟩ := by
  rw [exprBinop, h, bind_emits]
  rfl

theorem exprUnop_none {sub : Binop σ ε V} {ls : ParseState σ}
    (h : token2unop (tokOf ls.toks) = none) : exprUnop a sub ls = exprSimple a sub ls := by
  rw [exprUnop, h]

/-- **The parser reads every spelling of a tree.** -/
theorem Spells.parses {d : ℕ} {form : Form} {t : Tree} {w : List Lexeme} (h : Spells d form t w) :
    Parses a d t w form := by
  induction h with
  | @name d x hx =>
    intro rest
    refine ⟨rest.length + 1, Nat.lt_succ_self _, fun s => ?_⟩
    have hne : tokOf (x :: rest) ≠ .char '(' := by
      rw [tokOf, hx]
      decide
    have hname : tokOf (x :: rest) = .name := hx
    rw [singleton_append, exprPrimary, exprPrefix, if_neg hne, if_pos hname, operandNext_cons,
      bind_emits]
    rfl
  | @paren d e w lp rp hlp hrp _ ih =>
    intro rest
    refine ⟨rest.length + 1, Nat.lt_succ_self _, fun s => ?_⟩
    have hprefix : exprPrefix a (exprBinop a d) ⟨lp :: (w ++ rp :: rest), s⟩ =
        emits (build a (.paren e)) s fun v s => .ok (v, ⟨rest, s⟩) := by
      have hpos : tokOf (lp :: (w ++ rp :: rest)) = .char '(' := hlp
      rw [exprPrefix, if_pos hpos]
      change (exprBinop a d 0 ⟨w ++ rp :: rest, s⟩ >>= _) = _
      rw [ih.close hrp, bind_emits, emits_paren]
      congr 1
      funext v s
      change (lexMatch ⟨rp :: rest, s⟩ >>= _) = _
      rw [lexMatch_cons hrp]
      exact emit_eq_emits
    rw [cons_append, append_assoc, singleton_append, exprPrimary, Nat.add_sub_cancel,
      hprefix, bind_emits]
    rfl
  | @call0 d f w lp rp hlp hline hrp _ ih =>
    intro rest
    obtain ⟨k, hk, hparse⟩ := ih (lp :: rp :: rest)
    obtain ⟨k, rfl⟩ := Nat.exists_eq_succ_of_ne_zero (Nat.ne_zero_of_lt hk)
    rw [length_cons, length_cons] at hk
    have hsuffix : (tokOf (lp :: rp :: rest)).isSuffix = true := by
      rw [tokOf, hlp]
      rfl
    refine ⟨k, by omega, fun s => ?_⟩
    rw [append_assoc, cons_append, singleton_append, hparse, emits_call0]
    congr 1
    funext v s
    rw [suffixLoop_suffix hsuffix]
    congr 1
    funext v s
    rw [parseArgs_none hlp hline hrp, bind_emits]
    rfl
  | @call d f arg w w' lp rp hlp hline hrp _ harg ih iharg =>
    intro rest
    obtain ⟨k, hk, hparse⟩ := ih (lp :: (w' ++ rp :: rest))
    obtain ⟨k, rfl⟩ := Nat.exists_eq_succ_of_ne_zero (Nat.ne_zero_of_lt hk)
    rw [length_cons, length_append, length_cons] at hk
    have hsuffix : (tokOf (lp :: (w' ++ rp :: rest))).isSuffix = true := by
      rw [tokOf, hlp]
      rfl
    refine ⟨k, by omega, fun s => ?_⟩
    rw [append_assoc, cons_append, append_assoc, singleton_append, hparse,
      emits_call]
    congr 1
    funext v s
    rw [suffixLoop_suffix hsuffix]
    congr 1
    funext v s
    have hsub : exprBinop a (d + 1 - 1) 0 ⟨w' ++ rp :: rest, s⟩ = _ := iharg.close hrp s
    rw [parseArgs_some hlp hline harg.head_ne, hsub, bind_emits, bind_emits]
    congr 1
    funext args s
    change ((lexMatch ⟨rp :: rest, s⟩ >>= _) >>= _) = _
    rw [lexMatch_cons hrp]
    exact emit_bind _
  | @callString d f w x hx _ ih =>
    intro rest
    obtain ⟨k, hk, hparse⟩ := ih (x :: rest)
    obtain ⟨k, rfl⟩ := Nat.exists_eq_succ_of_ne_zero (Nat.ne_zero_of_lt hk)
    rw [length_cons] at hk
    have hsuffix : (tokOf (x :: rest)).isSuffix = true := by
      rw [tokOf, hx]
      rfl
    refine ⟨k, by omega, fun s => ?_⟩
    rw [append_assoc, singleton_append, hparse, emits_call]
    congr 1
    funext v s
    rw [suffixLoop_suffix hsuffix]
    congr 1
    funext v s
    rw [parseArgs_string hx, bind_emits]
    congr 1
    funext args s
    rw [bind_emits]
    rfl
  | @const d n x hx =>
    intro rest hfollows
    refine ⟨rest.length + 1, Nat.lt_succ_self _, fun s => ?_⟩
    apply exprBinop_unop
    have hconst : (tokOf (x :: rest)).isConst = true := hx
    rw [singleton_append, exprUnop_none (token2unop_of_isConst hconst), exprSimple,
      if_pos hconst, operandNext_cons]
    rfl
  | @primary d n t w hprim ih =>
    intro rest hfollows
    obtain ⟨k, hk, hparse⟩ := ih rest
    obtain ⟨k, rfl⟩ := Nat.exists_eq_succ_of_ne_zero (Nat.ne_zero_of_lt hk)
    refine ⟨rest.length + 1, Nat.lt_succ_self _, fun s => ?_⟩
    apply exprBinop_unop
    have hsuffix : (tokOf rest).isSuffix = false := by
      by_contra hs
      exact hfollows.suffix (Bool.not_eq_false _ ▸ hs) hprim.open_primary
    obtain ⟨hunop, hconst⟩ := hprim.tok_primary rest
    rw [exprUnop_none hunop, exprSimple, hconst, if_neg Bool.false_ne_true]
    refine (hparse s).trans ?_
    congr 1
    funext v s
    exact suffixLoop_end hsuffix k
  | @unop d n op e w x hx _ ih =>
    intro rest hfollows
    have hinner : Follows e rest := ⟨fun op' hop => (hfollows.op op' hop).2, hfollows.suffix⟩
    obtain ⟨k, hk, hparse⟩ := ih rest hinner
    obtain ⟨k, rfl⟩ := Nat.exists_eq_succ_of_ne_zero (Nat.ne_zero_of_lt hk)
    refine ⟨rest.length + 1, Nat.lt_succ_self _, fun s => ?_⟩
    apply exprBinop_unop
    have hop : token2unop (tokOf (x :: (w ++ rest))) = some op := hx
    have hloop : ∀ op', token2binop (tokOf rest) = some op' → (priority op').left ≤ unaryPriority :=
      fun op' hop' => (hfollows.op op' hop').1
    rw [cons_append, exprUnop, hop]
    change (exprBinop a d unaryPriority ⟨w ++ rest, s⟩ >>= _) = _
    rw [hparse, bind_emits, emits_unop]
    congr 1
    funext v s
    rw [binopLoop_end hloop]
    exact emit_eq_emits
  | @binop d n op l r w w' x hx hlt _ hbinds _ ihl ihr =>
    intro rest hfollows
    have hright : Follows r rest := ⟨fun op' hop => (hfollows.op op' hop).2, hfollows.suffix⟩
    have hloop : ∀ op', token2binop (tokOf rest) = some op' →
        (priority op').left ≤ (priority op).right := fun op' hop' => (hfollows.op op' hop').1
    obtain ⟨k, hk, hparsel⟩ := ihl (x :: (w' ++ rest)) (follows_binop hx hbinds)
    obtain ⟨k, rfl⟩ := Nat.exists_eq_succ_of_ne_zero (Nat.ne_zero_of_lt hk)
    obtain ⟨k', hk', hparser⟩ := ihr rest hright
    obtain ⟨k', rfl⟩ := Nat.exists_eq_succ_of_ne_zero (Nat.ne_zero_of_lt hk')
    rw [length_cons, length_append] at hk
    refine ⟨k, by omega, fun s => ?_⟩
    have hop : token2binop (tokOf (x :: (w' ++ rest))) = some op := hx
    rw [append_assoc, cons_append, hparsel, hop, emits_binop]
    congr 1
    funext v s
    rw [binopLoop_op hlt]
    congr 1
    funext v s
    have hsub : exprBinop a (d + 1 - 1) (priority op).right ⟨w' ++ rest, s⟩ = _ := hparser s
    rw [hsub, bind_emits]
    congr 1
    funext v2 s
    rw [binopLoop_end hloop]
    exact emit_bind _

end Reads

end Ktap.User
