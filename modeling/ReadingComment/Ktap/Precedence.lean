import ReadingComment.Ktap.ExprTree

/-!
# Operator precedence (`userspace/kp_parse.c`)

Whatever the parser reads is an expression, no expression in front is longer, and
tokens spell one tree. So `expr_binop` does what the table of priorities says, and
the only sequences that it does not read are those in which an operator or an
argument list that it has to go on with does not come to an end.
-/

namespace Ktap.User

open Lib List

/-! ## Whatever is read is an expression -/

section Sound

variable {σ ε V : Type} {a : Actions σ ε V} {d : ℕ} {s s' s₀ : σ} {v v' : V}
  {toks rest : List Lexeme}

theorem emit_eq_ok {f : σ → Except ε (V × σ)} {ls ls' : ParseState σ}
    (h : ls.emit f = .ok (v, ls')) : f ls.out = .ok (v, ls'.out) ∧ ls'.toks = ls.toks := by
  obtain ⟨toks, s⟩ := ls
  rw [emit_eq_emits] at h
  obtain ⟨v₁, s₁, hf, h⟩ := emits_eq_ok h
  cases h
  exact ⟨hf, rfl⟩

theorem operandNext_eq_ok (h : operandNext a ⟨toks, s⟩ = .ok (v, ⟨rest, s'⟩)) :
    ∃ x, toks = x :: rest ∧ a.operand x s = .ok (v, s') := by
  cases toks with
  | nil => cases h
  | cons x toks =>
    rw [operandNext_cons] at h
    obtain ⟨v₁, s₁, hop, h⟩ := emits_eq_ok h
    cases h
    exact ⟨x, rfl, hop⟩

theorem lexMatch_eq_ok {ls : ParseState σ} {u : Unit × ParseState σ}
    (h : (lexMatch ls : Except (ParseErr ε) _) = .ok u) :
    ∃ rp, rp.tok = .char ')' ∧ ls.toks = rp :: u.2.toks ∧ u.2.out = ls.out := by
  obtain ⟨toks, out⟩ := ls
  rw [lexMatch] at h
  split at h
  · rename_i hrp
    cases h
    cases toks with
    | nil => cases hrp
    | cons rp toks => exact ⟨rp, hrp, rfl, rfl⟩
  · cases h

/-- The expressions that `expr_binop` reads with `d` levels. -/
def Sound (a : Actions σ ε V) (d : ℕ) : Prop :=
  ∀ n toks s v op rest s', exprBinop a d n ⟨toks, s⟩ = .ok ((v, op), ⟨rest, s'⟩) →
    ∃ t w, toks = w ++ rest ∧ Spells d (.limit n) t w ∧ Stops n t rest ∧
      op = token2binop (tokOf rest) ∧ build a t s = .ok (v, s')

/-- A primary expression was read: the tokens from `toks₀` to `rest` spell it. -/
def ReadPrimary (a : Actions σ ε V) (d : ℕ) (toks₀ : List Lexeme) (s₀ : σ) (v : V)
    (rest : List Lexeme) (s : σ) : Prop :=
  ∃ t w, toks₀ = w ++ rest ∧ Spells (d + 1) .primary t w ∧ build a t s₀ = .ok (v, s)

section

variable (hsub : Sound a d)

include hsub

theorem exprPrefix_sound (h : exprPrefix a (exprBinop a d) ⟨toks, s⟩ = .ok (v, ⟨rest, s'⟩)) :
    ReadPrimary a d toks s v rest s' := by
  rw [exprPrefix] at h
  split at h
  · rename_i hlp
    cases toks with
    | nil => cases hlp
    | cons lp toks =>
      obtain ⟨⟨⟨v₁, op⟩, ls₁⟩, hexpr, h⟩ := bind_eq_ok h
      obtain ⟨⟨_, ls₂⟩, hmatch, h⟩ := bind_eq_ok h
      obtain ⟨rp, hrp, htoks, hout⟩ := lexMatch_eq_ok hmatch
      obtain ⟨hdis, hrest⟩ := emit_eq_ok h
      obtain ⟨t, w, hsplit, hspells, -, -, hbuild⟩ := hsub _ _ _ _ _ _ _ hexpr
      refine ⟨.paren t, lp :: (w ++ [rp]), ?_, .paren hlp hrp hspells, ?_⟩
      · have hrest' : rest = ls₂.toks := hrest
        have hsplit' : toks = w ++ ls₁.toks := hsplit
        rw [hsplit', htoks, hrest', cons_append, append_assoc]
        rfl
      · rw [build, show build a t s = .ok (v₁, ls₁.out) from hbuild, ← hout]
        exact hdis
  · split at h
    · rename_i hname
      obtain ⟨x, rfl, hop⟩ := operandNext_eq_ok h
      exact ⟨.operand x, [x], rfl, .name hname, hop⟩
    · cases h

theorem parseArgs_sound {f : Tree} {wf : List Lexeme} {s₁ s₂ : σ} {v₀ v₁ : V}
    (hf : Spells (d + 1) .primary f wf) (hbuild : build a f s₀ = .ok (v₀, s₁))
    (hcallee : a.callee v₀ s₁ = .ok (v₁, s₂)) (hsuffix : (tokOf toks).isSuffix = true)
    (h : parseArgs a (exprBinop a d) v₁ ⟨toks, s₂⟩ = .ok (v, ⟨rest, s'⟩)) :
    ReadPrimary a d (wf ++ toks) s₀ v rest s' := by
  cases toks with
  | nil => cases hsuffix
  | cons x toks =>
    by_cases hlp : x.tok = .char '('
    · cases hline : x.newLine with
      | true =>
        rw [parseArgs] at h
        simp only [hlp, hline, if_true] at h
        cases h
      | false =>
        by_cases hrp : tokOf toks = .char ')'
        · cases toks with
          | nil => cases hrp
          | cons rp toks =>
            rw [parseArgs_none hlp hline hrp] at h
            obtain ⟨v₂, s₃, hcall, h⟩ := emits_eq_ok h
            cases h
            refine ⟨.call0 f, wf ++ [x, rp], ?_, .call0 hlp hline hrp hf, ?_⟩
            · rw [append_assoc]
              rfl
            · simp only [build, hbuild, hcallee, bind, Except.bind]
              exact hcall
        · rw [parseArgs_some hlp hline hrp] at h
          obtain ⟨⟨⟨args, op⟩, ls₁⟩, hexpr, h⟩ := bind_eq_ok h
          obtain ⟨⟨_, ls₂⟩, hmatch, h⟩ := bind_eq_ok h
          obtain ⟨rp, hrp', htoks, hout⟩ := lexMatch_eq_ok hmatch
          obtain ⟨hcall, hrest⟩ := emit_eq_ok h
          obtain ⟨t, w, hsplit, hspells, -, -, hargs⟩ := hsub _ _ _ _ _ _ _ hexpr
          refine ⟨.call f t, wf ++ x :: (w ++ [rp]), ?_, .call hlp hline hrp' hf hspells, ?_⟩
          · have hrest' : rest = ls₂.toks := hrest
            rw [hsplit, htoks, hrest']
            simp
          · simp only [build, hbuild, hcallee, hargs, bind, Except.bind]
            rw [← hout]
            exact hcall
    · have hx : x.tok = .string := by
        rw [tokOf, LexToken.isSuffix, Bool.or_eq_true, beq_iff_eq, beq_iff_eq] at hsuffix
        exact hsuffix.resolve_left hlp
      rw [parseArgs_string hx] at h
      obtain ⟨args, s₃, hop, h⟩ := emits_eq_ok h
      obtain ⟨v₂, s₄, hcall, h⟩ := emits_eq_ok h
      cases h
      refine ⟨.call f (.operand x), wf ++ [x], ?_, .callString hx hf, ?_⟩
      · rw [append_assoc]
        rfl
      · simp only [build, hbuild, hcallee, hop, bind, Except.bind]
        exact hcall

theorem suffixLoop_sound (k : ℕ) : ∀ {f : Tree} {wf toks : List Lexeme} {v : V}
    {s : σ}, Spells (d + 1) .primary f wf → build a f s₀ = .ok (v, s) →
    suffixLoop a (exprBinop a d) k v ⟨toks, s⟩ = .ok (v', ⟨rest, s'⟩) →
      ReadPrimary a d (wf ++ toks) s₀ v' rest s' ∧ (tokOf rest).isSuffix = false := by
  induction k with
  | zero =>
    intro f wf toks v s hf hbuild h
    cases h
  | succ k ih =>
    intro f wf toks v s hf hbuild h
    cases hsuffix : (tokOf toks).isSuffix with
    | false =>
      rw [suffixLoop_end hsuffix] at h
      cases h
      exact ⟨⟨f, wf, rfl, hf, hbuild⟩, hsuffix⟩
    | true =>
      rw [suffixLoop_suffix hsuffix] at h
      obtain ⟨v₁, s₁, hcallee, h⟩ := emits_eq_ok h
      obtain ⟨⟨v₂, ls⟩, hargs, h⟩ := bind_eq_ok h
      obtain ⟨t, w, hsplit, ht, hbuildt⟩ :=
        parseArgs_sound hsub hf hbuild hcallee hsuffix hargs
      rw [hsplit]
      exact ih ht hbuildt h

theorem exprPrimary_sound (h : exprPrimary a (exprBinop a d) ⟨toks, s⟩ = .ok (v, ⟨rest, s'⟩)) :
    ReadPrimary a d toks s v rest s' ∧ (tokOf rest).isSuffix = false := by
  obtain ⟨⟨v₁, ls⟩, hprefix, h⟩ := bind_eq_ok h
  obtain ⟨t, w, hsplit, ht, hbuild⟩ := exprPrefix_sound hsub hprefix
  rw [hsplit]
  exact suffixLoop_sound hsub _ ht hbuild h

theorem exprUnop_sound (n : ℕ) (h : exprUnop a (exprBinop a d) ⟨toks, s⟩ = .ok (v, ⟨rest, s'⟩)) :
    ∃ t w, toks = w ++ rest ∧ Spells (d + 1) (.limit n) t w ∧ Follows t rest ∧
      build a t s = .ok (v, s') := by
  rw [exprUnop] at h
  split at h
  · rename_i op hop
    cases toks with
    | nil => cases hop
    | cons x toks =>
      obtain ⟨⟨⟨v₁, op'⟩, ls⟩, hexpr, h⟩ := bind_eq_ok h
      obtain ⟨hunop, hrest⟩ := emit_eq_ok h
      obtain ⟨t, w, hsplit, hspells, hstops, -, hbuild⟩ := hsub _ _ _ _ _ _ _ hexpr
      have hrest' : rest = ls.toks := hrest
      refine ⟨.unop op t, x :: w, ?_, .unop hop hspells, ⟨?_, ?_⟩, ?_⟩
      · rw [hrest', cons_append, ← hsplit]
        rfl
      · rw [hrest']
        exact fun op' hop' => ⟨hstops.limit op' hop', hstops.follows.op op' hop'⟩
      · rw [hrest']
        exact hstops.follows.suffix
      · simp only [build, hbuild, bind, Except.bind]
        exact hunop
  · rw [exprSimple] at h
    split at h
    · rename_i hconst
      obtain ⟨x, rfl, hop⟩ := operandNext_eq_ok h
      refine ⟨.operand x, [x], rfl, .const hconst, ⟨fun _ _ => trivial, ?_⟩, hop⟩
      intro _ hname
      rw [tokOf, show x.tok = .name from hname] at hconst
      cases hconst
    · obtain ⟨⟨t, w, hsplit, ht, hbuild⟩, hsuffix⟩ := exprPrimary_sound hsub h
      refine ⟨t, w, hsplit, .primary ht, ⟨fun op _ => ht.binds_primary op, ?_⟩, hbuild⟩
      rw [hsuffix]
      rintro ⟨⟩

theorem binopLoop_sound (n k : ℕ) : ∀ {t₀ : Tree} {w₀ toks : List Lexeme} {v : V}
    {s : σ} {op : Option BinOpr}, Spells (d + 1) (.limit n) t₀ w₀ → Follows t₀ toks →
    build a t₀ s₀ = .ok (v, s) →
    binopLoop a (exprBinop a d) n k v (token2binop (tokOf toks)) ⟨toks, s⟩ =
      .ok ((v', op), ⟨rest, s'⟩) →
    ∃ t w, w₀ ++ toks = w ++ rest ∧ Spells (d + 1) (.limit n) t w ∧ Stops n t rest ∧
      op = token2binop (tokOf rest) ∧ build a t s₀ = .ok (v', s') := by
  induction k with
  | zero =>
    intro t₀ w₀ toks v s op ht hfollows hbuild h
    cases h
  | succ k ih =>
    intro t₀ w₀ toks v s op ht hfollows hbuild h
    by_cases hend : ∀ op', token2binop (tokOf toks) = some op' → (priority op').left ≤ n
    · rw [binopLoop_end hend] at h
      cases h
      exact ⟨t₀, w₀, rfl, ht, ⟨hfollows, hend⟩, rfl, hbuild⟩
    · push Not at hend
      obtain ⟨op₁, hop₁, hlt⟩ := hend
      cases toks with
      | nil => cases hop₁
      | cons x toks =>
        rw [hop₁, binopLoop_op hlt] at h
        obtain ⟨v₁, s₁, hleft, h⟩ := emits_eq_ok h
        obtain ⟨⟨⟨v₂, nextop⟩, ls₁⟩, hexpr, h⟩ := bind_eq_ok h
        obtain ⟨⟨v₃, ls₂⟩, hbin, h⟩ := bind_eq_ok h
        obtain ⟨hbin', hrest⟩ := emit_eq_ok hbin
        obtain ⟨r, w, hsplit, hspells, hstops, hnext, hbuildr⟩ := hsub _ _ _ _ _ _ _ hexpr
        have htree : build a (.binop op₁ t₀ r) s₀ = .ok (v₃, ls₂.out) := by
          simp only [build, hbuild, hleft, hbuildr, bind, Except.bind]
          exact hbin'
        have hfollows' : Follows (.binop op₁ t₀ r) ls₂.toks := by
          rw [hrest]
          exact ⟨fun op' hop' => ⟨hstops.limit op' hop', hstops.follows.op op' hop'⟩,
            hstops.follows.suffix⟩
        have hspells' := Spells.binop hop₁ hlt ht (hfollows.op op₁ hop₁) hspells
        rw [hnext, ← hrest] at h
        obtain ⟨t, w', hsplit', hres⟩ := ih hspells' hfollows' htree h
        refine ⟨t, w', ?_, hres⟩
        rw [← hsplit', hsplit, hrest, append_assoc]
        rfl

end

/-- **Whatever the parser reads is an expression that what is behind it does not go on with.** -/
theorem exprBinop_sound (a : Actions σ ε V) (d : ℕ) : Sound a d := by
  induction d with
  | zero =>
    intro n toks s v op rest s' h
    cases h
  | succ d ih =>
    intro n toks s v op rest s' h
    obtain ⟨⟨v₁, ls⟩, hunop, h⟩ := bind_eq_ok h
    obtain ⟨t, w, hsplit, ht, hfollows, hbuild⟩ := exprUnop_sound ih n hunop
    rw [hsplit]
    exact binopLoop_sound ih n _ ht hfollows hbuild h

end Sound

/-! ## The longest expression -/

section Longest

variable {σ ε V : Type} {a : Actions σ ε V} {d n : ℕ} {s : σ}

theorem exprBinop_length {toks : List Lexeme} {v : V × Option BinOpr} {ls : ParseState σ}
    (h : exprBinop a d n ⟨toks, s⟩ = .ok (v, ls)) : ls.toks.length ≤ toks.length := by
  obtain ⟨t, w, hsplit, -⟩ := exprBinop_sound a d _ _ _ _ _ _ _ h
  rw [hsplit, length_append]
  exact Nat.le_add_left _ _

theorem binopLoop_length (k : ℕ) : ∀ {v : V} {op : Option BinOpr} {ls ls' : ParseState σ}
    {r : V × Option BinOpr}, binopLoop a (exprBinop a d) n k v op ls = .ok (r, ls') →
    ls'.toks.length ≤ ls.toks.length := by
  induction k with
  | zero =>
    intro v op ls ls' r h
    cases h
  | succ k ih =>
    intro v op ls ls' r h
    by_cases hend : ∀ op', op = some op' → (priority op').left ≤ n
    · rw [binopLoop_end hend] at h
      cases h
      exact Nat.le_refl _
    · push Not at hend
      obtain ⟨op, rfl, hlt⟩ := hend
      rw [binopLoop, if_pos hlt] at h
      obtain ⟨⟨v₁, ls₁⟩, hleft, h⟩ := bind_eq_ok h
      obtain ⟨⟨v₂, ls₂⟩, hexpr, h⟩ := bind_eq_ok h
      obtain ⟨⟨v₃, ls₃⟩, hbin, h⟩ := bind_eq_ok h
      have h₁ : ls₁.toks = ls.toks.tail := (emit_eq_ok hleft).2
      have h₂ : ls₂.toks.length ≤ ls₁.toks.length := exprBinop_length hexpr
      have h₃ : ls₃.toks = ls₂.toks := (emit_eq_ok hbin).2
      have h₄ : ls'.toks.length ≤ ls₃.toks.length := ih h
      rw [h₃] at h₄
      rw [h₁, length_tail] at h₂
      omega

theorem parseArgs_length {v v' : V} {ls ls' : ParseState σ}
    (h : parseArgs a (exprBinop a d) v ls = .ok (v', ls')) :
    ls'.toks.length < ls.toks.length := by
  obtain ⟨toks, s⟩ := ls
  cases toks with
  | nil => cases h
  | cons x toks =>
    refine Nat.lt_succ_of_le ?_
    rw [parseArgs] at h
    split at h
    · cases h
    · rename_i x' toks' heq
      cases heq
      split at h
      · split at h
        · cases h
        · dsimp only at h
          split at h
          · have hrest := (emit_eq_ok h).2
            rw [hrest]
            exact length_tail ▸ Nat.sub_le _ _
          · obtain ⟨⟨⟨args, op⟩, ls₁⟩, hexpr, h⟩ := bind_eq_ok h
            obtain ⟨⟨_, ls₂⟩, hmatch, h⟩ := bind_eq_ok h
            obtain ⟨rp, -, htoks, -⟩ := lexMatch_eq_ok hmatch
            have h₁ : ls₁.toks.length ≤ toks.length := exprBinop_length hexpr
            have h₂ : ls'.toks = ls₂.toks := (emit_eq_ok h).2
            rw [htoks, length_cons] at h₁
            rw [h₂]
            exact (Nat.le_succ _).trans h₁
      · obtain ⟨⟨args, ls₁⟩, hop, h⟩ := bind_eq_ok h
        obtain ⟨x', hx, -⟩ := operandNext_eq_ok hop
        have h₂ : ls'.toks = ls₁.toks := (emit_eq_ok h).2
        rw [h₂]
        exact Nat.le_of_eq (congrArg length (List.cons.inj hx).2).symm

theorem suffixLoop_length (k : ℕ) : ∀ {v v' : V} {ls ls' : ParseState σ},
    suffixLoop a (exprBinop a d) k v ls = .ok (v', ls') → ls'.toks.length ≤ ls.toks.length := by
  induction k with
  | zero =>
    intro v v' ls ls' h
    cases h
  | succ k ih =>
    intro v v' ls ls' h
    rw [suffixLoop] at h
    split at h
    · obtain ⟨⟨v₁, ls₁⟩, hcallee, h⟩ := bind_eq_ok h
      obtain ⟨⟨v₂, ls₂⟩, hargs, h⟩ := bind_eq_ok h
      have h₁ : ls₁.toks = ls.toks := (emit_eq_ok hcallee).2
      have h₂ : ls₂.toks.length ≤ ls₁.toks.length := (parseArgs_length hargs).le
      rw [h₁] at h₂
      exact (ih h).trans h₂
    · cases h
      exact Nat.le_refl _

/-- What is left when an expression in front has been passed is never more than what is behind
it. -/
def Passes (a : Actions σ ε V) (d : ℕ) (w : List Lexeme) : Form → Prop
  | .primary => True
  | .limit n => ∀ rest s r ls, exprBinop a d n ⟨w ++ rest, s⟩ = .ok (r, ls) →
      ls.toks.length ≤ rest.length

/-- **No expression in front is longer than what is read.** -/
theorem Spells.passes {form : Form} {t : Tree} {w : List Lexeme} (h : Spells d form t w) :
    Passes a d w form := by
  induction h with
  | @const d n x hx =>
    intro rest s r ls h
    obtain ⟨⟨v, ls₁⟩, hunop, hloop⟩ := bind_eq_ok h
    have hconst : (tokOf (x :: rest)).isConst = true := hx
    rw [singleton_append, exprUnop_none (token2unop_of_isConst hconst), exprSimple,
      if_pos hconst] at hunop
    obtain ⟨x', hx', -⟩ := operandNext_eq_ok hunop
    cases hx'
    exact binopLoop_length _ hloop
  | @primary d n t w hprim _ =>
    intro rest s r ls h
    obtain ⟨⟨v, ls₁⟩, hunop, hloop⟩ := bind_eq_ok h
    obtain ⟨k, -, hparse⟩ := hprim.parses (a := a) rest
    obtain ⟨htok, hconst⟩ := hprim.tok_primary rest
    rw [exprUnop_none htok, exprSimple, hconst, if_neg Bool.false_ne_true] at hunop
    obtain ⟨v', s', -, hsuffix⟩ := emits_eq_ok ((hparse s).symm.trans hunop)
    exact (binopLoop_length _ hloop).trans (suffixLoop_length _ hsuffix)
  | @unop d n op e w x hx _ ih =>
    intro rest s r ls h
    obtain ⟨⟨v, ls₁⟩, hunop, h⟩ := bind_eq_ok h
    have hop : token2unop (tokOf (x :: (w ++ rest))) = some op := hx
    rw [cons_append, exprUnop, hop] at hunop
    obtain ⟨⟨v₁, ls₂⟩, hexpr, hunop⟩ := bind_eq_ok hunop
    have h₁ : ls₁.toks = ls₂.toks := (emit_eq_ok hunop).2
    have h₂ : ls₂.toks.length ≤ rest.length := ih rest s _ _ hexpr
    rw [← h₁] at h₂
    exact (binopLoop_length _ h).trans h₂
  | @binop d n op l r w w' x hx hlt hl hbinds _ _ ihr =>
    intro rest s res ls h
    obtain ⟨k, hk, hparse⟩ := hl.parses (a := a) (x :: (w' ++ rest)) (follows_binop hx hbinds)
    obtain ⟨k, rfl⟩ := Nat.exists_eq_succ_of_ne_zero (Nat.ne_zero_of_lt hk)
    have hop : token2binop (tokOf (x :: (w' ++ rest))) = some op := hx
    rw [append_assoc, cons_append, hparse, hop] at h
    obtain ⟨v, s₁, -, h⟩ := emits_eq_ok h
    rw [binopLoop_op hlt] at h
    obtain ⟨v, s₂, -, h⟩ := emits_eq_ok h
    obtain ⟨⟨v₂, ls₁⟩, hexpr, h⟩ := bind_eq_ok h
    obtain ⟨⟨v₃, ls₂⟩, hbin, h⟩ := bind_eq_ok h
    have h₁ : ls₁.toks.length ≤ rest.length := ihr rest s₂ _ _ hexpr
    have h₂ : ls₂.toks = ls₁.toks := (emit_eq_ok hbin).2
    rw [← h₂] at h₁
    exact (binopLoop_length k h).trans h₁
  | _ => trivial

end Longest

/-! ## The fuel is enough -/

section Fuel

variable {σ ε V : Type} {a : Actions σ ε V} {d : ℕ}

/-- The parser does not end for want of fuel. -/
def Fueled {α : Type} (x : Except (ParseErr ε) α) : Prop := x ≠ .error .fuel

theorem Fueled.bind {α β : Type} {x : Except (ParseErr ε) α} {f : α → Except (ParseErr ε) β}
    (hx : Fueled x) (hf : ∀ r, x = .ok r → Fueled (f r)) : Fueled (x >>= f) := by
  cases x with
  | error e => exact fun h => hx (congrArg _ (Except.error.inj h))
  | ok r => exact hf r rfl

theorem fueled_emit {α : Type} (ls : ParseState σ) (f : σ → Except ε (α × σ)) :
    Fueled (ls.emit f) := by
  rw [ParseState.emit]
  split <;> rintro ⟨⟩

theorem fueled_lexMatch (ls : ParseState σ) : Fueled (ε := ε) (lexMatch ls) := by
  rw [lexMatch]
  split <;> rintro ⟨⟩

theorem fueled_operandNext (ls : ParseState σ) : Fueled (operandNext a ls) := by
  rw [operandNext]
  split
  · rintro ⟨⟩
  · exact (fueled_emit _ _).bind fun _ _ => by rintro ⟨⟩

section

variable (hsub : ∀ n ls, Fueled (exprBinop a d n ls))

include hsub

theorem fueled_parseArgs (v : V) (ls : ParseState σ) :
    Fueled (parseArgs a (exprBinop a d) v ls) := by
  rw [parseArgs]
  split
  · rintro ⟨⟩
  · split
    · split
      · rintro ⟨⟩
      · dsimp only
        split
        · exact fueled_emit _ _
        · exact (hsub _ _).bind fun _ _ => (fueled_lexMatch _).bind fun _ _ => fueled_emit _ _
    · exact (fueled_operandNext _).bind fun _ _ => fueled_emit _ _

/-- A round of the loop reads arguments, of one token at least. -/
theorem fueled_suffixLoop (k : ℕ) : ∀ {v : V} {ls : ParseState σ}, ls.toks.length < k →
    Fueled (suffixLoop a (exprBinop a d) k v ls) := by
  induction k with
  | zero => exact fun hk => absurd hk (Nat.not_lt_zero _)
  | succ k ih =>
    intro v ls hk
    rw [suffixLoop]
    split
    · refine (fueled_emit _ _).bind fun ⟨v₁, ls₁⟩ hcallee => ?_
      refine (fueled_parseArgs hsub _ _).bind fun ⟨v₂, ls₂⟩ hargs => ih ?_
      have hlt : ls₂.toks.length < ls₁.toks.length := parseArgs_length hargs
      rw [(emit_eq_ok hcallee).2] at hlt
      exact hlt.trans_le (Nat.le_of_lt_succ hk)
    · rintro ⟨⟩

theorem fueled_exprUnop (ls : ParseState σ) : Fueled (exprUnop a (exprBinop a d) ls) := by
  rw [exprUnop]
  split
  · exact (hsub _ _).bind fun _ _ => fueled_emit _ _
  · rw [exprSimple, exprPrimary, exprPrefix]
    split
    · exact fueled_operandNext _
    · refine Fueled.bind ?_ fun _ _ => fueled_suffixLoop hsub _ (Nat.lt_succ_self _)
      split
      · exact (hsub _ _).bind fun _ _ => (fueled_lexMatch _).bind fun _ _ => fueled_emit _ _
      · split
        · exact fueled_operandNext _
        · rintro ⟨⟩

/-- A round of the loop reads an operator. -/
theorem fueled_binopLoop (n k : ℕ) : ∀ {v : V} {ls : ParseState σ}, ls.toks.length < k →
    Fueled (binopLoop a (exprBinop a d) n k v (token2binop (tokOf ls.toks)) ls) := by
  induction k with
  | zero => exact fun hk => absurd hk (Nat.not_lt_zero _)
  | succ k ih =>
    intro v ls hk
    by_cases hend : ∀ op, token2binop (tokOf ls.toks) = some op → (priority op).left ≤ n
    · rw [binopLoop_end hend]
      rintro ⟨⟩
    · push Not at hend
      obtain ⟨op, hop, hlt⟩ := hend
      rw [hop, binopLoop, if_pos hlt]
      refine (fueled_emit _ _).bind fun ⟨v₁, ls₁⟩ hleft => ?_
      refine (hsub _ _).bind fun ⟨⟨v₂, nextop⟩, ls₂⟩ hexpr => ?_
      refine (fueled_emit _ _).bind fun ⟨v₃, ls₃⟩ hbin => ?_
      obtain ⟨t, w, -, -, -, hnext, -⟩ := exprBinop_sound a d _ _ _ _ _ _ _ hexpr
      have h₁ : ls₁.toks = ls.toks.tail := (emit_eq_ok hleft).2
      have h₂ : ls₂.toks.length ≤ ls₁.toks.length := exprBinop_length hexpr
      have h₃ : ls₃.toks = ls₂.toks := (emit_eq_ok hbin).2
      have hpos : 0 < ls.toks.length := by
        rw [length_pos_iff]
        intro hnil
        rw [hnil] at hop
        cases hop
      rw [hnext, ← h₃]
      refine ih ?_
      rw [h₁, length_tail] at h₂
      rw [h₃]
      omega

end

/-- **The fuel of the loops is enough.** -/
theorem fueled_exprBinop (d n : ℕ) (ls : ParseState σ) : Fueled (exprBinop a d n ls) := by
  induction d generalizing n ls with
  | zero => rintro ⟨⟩
  | succ d ih =>
    exact (fueled_exprUnop ih _).bind fun _ _ => fueled_binopLoop ih _ _ (Nat.lt_succ_self _)

end Fuel

/-! ## Operator precedence -/

section Precedence

variable {σ ε V : Type} {d n : ℕ} {t t' : Tree} {w w' rest : List Lexeme}

theorem Spells.read (h : Spells d (.limit n) t w) (hstops : Stops n t rest) (a : Actions σ ε V)
    (s : σ) : exprBinop a d n ⟨w ++ rest, s⟩ = emits (build a t) s fun v s =>
      .ok ((v, token2binop (tokOf rest)), ⟨rest, s⟩) := by
  obtain ⟨k, hk, hparse⟩ := h.parses (a := a) rest hstops.follows
  obtain ⟨k, rfl⟩ := Nat.exists_eq_succ_of_ne_zero (Nat.ne_zero_of_lt hk)
  rw [hparse]
  congr 1
  funext v s
  exact binopLoop_end hstops.limit k _

def treeActions : Actions Unit Empty Tree where
  operand x s := .ok (.operand x, s)
  discharge e s := .ok (.paren e, s)
  callee f s := .ok (f, s)
  call f arg s := .ok (arg.elim (.call0 f) (.call f), s)
  unop op e s := .ok (.unop op e, s)
  binopLeft _ l s := .ok (l, s)
  binop op l r s := .ok (.binop op l r, s)

theorem build_treeActions (t : Tree) : build treeActions t () = .ok (t, ()) := by
  induction t with
  | operand x => rfl
  | paren e ih =>
    rw [build, ih]
    rfl
  | call0 f ih =>
    rw [build, ih]
    rfl
  | call f arg ih iharg =>
    rw [build, ih]
    change (build treeActions arg () >>= _) = _
    rw [iharg]
    rfl
  | unop op e ih =>
    rw [build, ih]
    rfl
  | binop op l r ihl ihr =>
    rw [build, ihl]
    change (build treeActions r () >>= _) = _
    rw [ihr]
    rfl

theorem Spells.read_tree (h : Spells d (.limit n) t w) (hstops : Stops n t rest) :
    exprBinop treeActions d n ⟨w ++ rest, ()⟩ =
      .ok ((t, token2binop (tokOf rest)), ⟨rest, ()⟩) :=
  (h.read hstops treeActions ()).trans (emits_of_ok (build_treeActions t) _)

theorem stops_nil (n : ℕ) (t : Tree) : Stops n t [] := by
  refine ⟨⟨?_, ?_⟩, ?_⟩
  · rintro op ⟨⟩
  · rintro ⟨⟩
  · rintro op ⟨⟩

theorem Spells.unique (h : Spells d (.limit n) t w) (h' : Spells d (.limit n) t' w) : t = t' := by
  have hread := h.read_tree (stops_nil n t)
  rw [h'.read_tree (stops_nil n t')] at hread
  cases hread
  rfl

theorem Spells.length_le {rest' : List Lexeme} (h : Spells d (.limit n) t w)
    (hstops : Stops n t rest) (h' : Spells d (.limit n) t' w') (heq : w ++ rest = w' ++ rest') :
    w'.length ≤ w.length := by
  have hread := h.read_tree hstops
  rw [heq] at hread
  have hle : rest.length ≤ rest'.length := h'.passes (a := treeActions) rest' () _ _ hread
  have hlen := congrArg List.length heq
  rw [length_append, length_append] at hlen
  omega

theorem left_assoc_iff (op : BinOpr) :
    (priority op).left ≤ (priority op).right ↔ op ≠ .pow ∧ op ≠ .concat := by
  cases op <;> decide

theorem unary_binds_iff (op : BinOpr) : (priority op).left ≤ unaryPriority ↔ op ≠ .pow := by
  cases op <;> decide

/-- `expr_binop` returns exactly if some expression in front is followed by nothing that goes on
with it. Then it has read that expression, which is the longest one in front and has one tree, has
emitted the code of the tree and returns the operator behind it. Otherwise it ends in an error, of
the tokens or of the emitting functions; the fuel of the loops never runs out. -/
theorem exprBinop_precedence (a : Actions σ ε V) (level n : ℕ) (toks : List Lexeme) (s : σ) :
    (∀ v op rest s', exprBinop a (levelsLeft level) n ⟨toks, s⟩ = .ok ((v, op), ⟨rest, s'⟩) ↔
      ∃ t w, toks = w ++ rest ∧ Spells (levelsLeft level) (.limit n) t w ∧ Stops n t rest ∧
        op = token2binop (tokOf rest) ∧ build a t s = .ok (v, s')) ∧
    exprBinop a (levelsLeft level) n ⟨toks, s⟩ ≠ .error .fuel ∧
    (∀ t w rest, toks = w ++ rest → Spells (levelsLeft level) (.limit n) t w → Stops n t rest →
      ∀ t' w' rest', toks = w' ++ rest' → Spells (levelsLeft level) (.limit n) t' w' →
        w'.length ≤ w.length ∧ (w' = w → t' = t)) ∧
    (∀ op, (priority op).left ≤ (priority op).right ↔ op ≠ .pow ∧ op ≠ .concat) ∧
    ∀ op, (priority op).left ≤ unaryPriority ↔ op ≠ .pow := by
  refine ⟨?_, fueled_exprBinop _ _ _, ?_, left_assoc_iff, unary_binds_iff⟩
  · intro v op rest s'
    constructor
    · exact exprBinop_sound a _ _ _ _ _ _ _ _
    · rintro ⟨t, w, rfl, hspells, hstops, rfl, hbuild⟩
      exact (hspells.read hstops a s).trans (emits_of_ok hbuild _)
  · rintro t w rest rfl hspells hstops t' w' rest' heq hspells'
    refine ⟨hspells.length_le hstops hspells' heq, ?_⟩
    rintro rfl
    exact hspells'.unique hspells

theorem number_plain : LexToken.number.plain = true := rfl

/-- The number `1`. -/
def one : Lexeme := ⟨.number, TVal.number 1, false, number_plain⟩

/-- The token `+`. -/
def plus : Lexeme := ⟨.char '+', ⟨.nil, 0⟩, false, rfl⟩

/-- In front of `1 +` the longest expression is `1`, and `expr_binop` does not return. -/
theorem dangling_operator :
    (Spells (levelsLeft 0) (.limit 0) (.operand one) [one] ∧
      ∀ t w rest, [one, plus] = w ++ rest → Spells (levelsLeft 0) (.limit 0) t w →
        w.length ≤ 1) ∧
    exprBinop treeActions (levelsLeft 0) 0 ⟨[one, plus], ()⟩ = .error .xsymbol := by
  have herror : exprBinop treeActions (levelsLeft 0) 0 ⟨[one, plus], ()⟩ = .error .xsymbol := rfl
  refine ⟨⟨.const rfl, ?_⟩, herror⟩
  intro t w rest heq hspells
  by_contra hlong
  have hlen := congrArg List.length heq
  rw [List.length_append, List.length_cons, List.length_singleton] at hlen
  obtain rfl : rest = [] := List.length_eq_zero_iff.mp (by omega)
  have hread := hspells.read_tree (stops_nil 0 t)
  rw [← heq, herror] at hread
  cases hread

end Precedence

end Ktap.User
