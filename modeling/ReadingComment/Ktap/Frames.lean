import ReadingComment.Ktap.Machine

/-!
# What a round of the dispatch loop does to the frames

The frames of the functions that wait for a call to return form a chain through the
stack (`Frames`): the cell of a function leads to the `CALL` that it was called by, and
the field `A` of that instruction to the base of the caller. `Good` says that a state has
such a chain, and `dispatch_moves` what a round does to it: it stays inside the function,
calls, replaces the frame by that of a tail call, or returns.
-/

namespace Ktap.Vm

open Function

variable {π : Type}

/-! ## Stores -/

namespace Stack

theorem write_of_ne {c : ℕ} {ws : List (ℕ × Cell π)} (h : ∀ w ∈ ws, w.1 ≠ c) (σ : Stack π) :
    σ.write ws c = σ c := by
  induction ws generalizing σ with
  | nil => rfl
  | cons w ws ih =>
    rw [write, ih (fun x hx => h x (List.mem_cons_of_mem _ hx)),
      update_of_ne (h w List.mem_cons_self).symm]

theorem fillNil_of_lt (σ : Stack π) {start n c : ℕ} (h : c < start) :
    σ.fillNil start n c = σ c := by
  rw [fillNil, if_neg (by omega)]

@[simp] theorem val_fillNil (σ : Stack π) (start n c : ℕ) :
    (σ.fillNil start n c).val = (σ c).val := by
  rw [fillNil]
  split <;> rfl

theorem adjustVarargs_of_lt {c fixed top : ℕ} (hf : c < fixed) (ht : c < top) (n : ℕ)
    (σ : Stack π) : σ.adjustVarargs fixed top n c = σ c := by
  induction n generalizing fixed top σ with
  | zero => rfl
  | succ n ih =>
    rw [adjustVarargs, ih (by omega) (by omega), update_of_ne hf.ne,
      update_of_ne ht.ne]

theorem poscall_of_lt {c func : ℕ} (h : c < func) (first n : ℕ) (i : ℤ) (σ : Stack π) :
    σ.poscall func first n i c = σ c := by
  induction n generalizing func first i σ with
  | zero => exact fillNil_of_lt σ h
  | succ n ih =>
    rw [poscall]
    split
    · rfl
    · rw [ih (by omega), update_of_ne h.ne]

theorem moveArgs_of_le {c ofunc : ℕ} (h : c ≤ ofunc) (nfunc n : ℕ) (σ : Stack π) :
    σ.moveArgs ofunc nfunc n c = σ c := by
  induction n generalizing ofunc nfunc σ with
  | zero => rfl
  | succ n ih =>
    rw [moveArgs, ih (by omega), update_of_ne (by omega)]

theorem push_of_lt {c top : ℕ} (h : c < top) (vs : List (Cell π)) (σ : Stack π) :
    σ.push top vs c = σ c := by
  induction vs generalizing top σ with
  | nil => rfl
  | cons v vs ih =>
    rw [push, ih (by omega), update_of_ne h.ne]

end Stack

section calls

variable {P : Program π}

theorem callStack_of_lt {σ : Stack π} {p : π} {func top c : ℕ} (hc : c < func) (ht : func ≤ top) :
    callStack P σ p func top c = σ c := by
  have hfill : ∀ n, σ.fillNil top n c = σ c := fun n => Stack.fillNil_of_lt σ (by omega)
  rw [callStack]
  split
  · rw [Stack.adjustVarargs_of_lt (by omega) (by rw [completeTop]; omega), hfill]
  · exact hfill _

@[simp] theorem val_callStack {σ : Stack π} {p : π} {func top : ℕ} :
    (callStack P σ p func top func).val = (σ func).val := by
  rw [callStack]
  split
  · rw [Stack.adjustVarargs_of_lt (by omega) (by rw [completeTop]; omega), Stack.val_fillNil]
  · exact Stack.val_fillNil ..

theorem lt_callBase (p : π) (func top : ℕ) : func < callBase P p func top := by
  rw [callBase, completeTop]
  split <;> omega

end calls

/-! ## Patched code -/

theorem Program.code_get (P : Program π) (q : Pc π) :
    P.code.get q = fetch (P q.proto).bc q.ix := rfl

theorem Machine.dojump_eq (s : Machine π) :
    s.dojump = ⟨s.pc.proto, s.instr.target s.pc.ix⟩ := rfl

/-- The code is what was loaded, but for despecialized iterations. -/
def Patched (P : Program π) (C : Code π) : Prop :=
  ∀ q : Pc π, C.get q = P.code.get q ∨
    ((P.code.get q).op = .isnext ∧ C.get q = { P.code.get q with op := .jmp }) ∨
    ((P.code.get q).op = .itern ∧ C.get q = { P.code.get q with op := .iterc })

def Inside (P : Program π) (q : Pc π) : Prop := 1 ≤ q.ix ∧ q.ix < (P q.proto).bc.length

theorem Inside.start (P : Program π) (p : π) : Inside P ⟨p, 1⟩ := ⟨le_refl _, (P p).start_lt⟩

namespace Patched

variable {P : Program π} {C : Code π} (h : Patched P C)

include h

theorem a_eq (q : Pc π) : (C.get q).a = (P.code.get q).a := by
  rcases h q with he | ⟨_, he⟩ | ⟨_, he⟩ <;> rw [he]

theorem d_eq (q : Pc π) : (C.get q).d = (P.code.get q).d := by
  rcases h q with he | ⟨_, he⟩ | ⟨_, he⟩ <;> rw [he]

theorem target_eq (q : Pc π) (k : ℕ) : (C.get q).target k = (P.code.get q).target k := by
  rw [Instr.target, Instr.target, h.d_eq]

variable {q : Pc π}

theorem get_eq (hj : (C.get q).op ≠ .jmp) (hi : (C.get q).op ≠ .iterc) :
    C.get q = P.code.get q := by
  rcases h q with he | ⟨_, he⟩ | ⟨_, he⟩
  · exact he
  · exact absurd (congrArg Instr.op he) hj
  · exact absurd (congrArg Instr.op he) hi

theorem get_eq_of_kind (hj : (C.get q).op.kind ≠ .jump) (hl : (C.get q).op.kind ≠ .leave) :
    C.get q = P.code.get q := by
  apply h.get_eq
  · rintro hop
    exact hj (by rw [hop]; rfl)
  · rintro hop
    exact hl (by rw [hop]; rfl)

theorem succs_eq {p : π} {k l : ℕ} (hl : l ∈ succs (C p) k) :
    l ∈ succs (P.code p) k ∧ (C p k).op.kind.counts = (P.code p k).op.kind.counts := by
  have hnext : (C p (k + 1)).target (k + 1) = (P.code p (k + 1)).target (k + 1) :=
    h.target_eq ⟨p, k + 1⟩ _
  rcases h ⟨p, k⟩ with he | ⟨hop, he⟩ | ⟨hop, he⟩
  · have he : C p k = P.code p k := he
    rw [succs, he, hnext] at hl
    rw [he]
    exact ⟨hl, rfl⟩
  · have he : C p k = { P.code p k with op := .jmp } := he
    have hop : (P.code p k).op = .isnext := hop
    rw [succs, he] at hl
    rw [succs, he, hop]
    exact ⟨hl, rfl⟩
  · have he : C p k = { P.code p k with op := .iterc } := he
    rw [succs, he] at hl
    exact absurd hl List.not_mem_nil

theorem inside_of_succs (hq : Inside P q) {l : ℕ} (hl : l ∈ succs (C q.proto) q.ix) :
    Inside P ⟨q.proto, l⟩ := by
  obtain ⟨_, hrank⟩ := (P q.proto).flows
  exact ((hrank q.ix hq.1 hq.2).2 l (h.succs_eq hl).1).1

theorem reg_lt (hq : Inside P q) {r : ℕ} (hr : r ∈ (C.get q).reads ++ (C.get q).writes) :
    r < (P q.proto).framesize := by
  have hreg := (P q.proto).reg_lt q.ix hq.1 hq.2 r
  rcases h q with he | ⟨_, he⟩ | ⟨_, he⟩
  · rw [he] at hr
    exact hreg hr
  · rw [he] at hr
    exact absurd hr List.not_mem_nil
  · rw [he] at hr
    exact absurd hr List.not_mem_nil

section patch

variable [DecidableEq π]

theorem setOp {q : Pc π} {op : Opcode}
    (hq : (P.code.get q).op = .isnext ∧ op = .jmp ∨ (P.code.get q).op = .itern ∧ op = .iterc) :
    Patched P (C.setOp q op) := by
  intro r
  by_cases hr : r = q
  · subst hr
    have hget : (C.setOp r op).get r = { C.get r with op := op } := if_pos ⟨rfl, rfl⟩
    have hfields : ({ C.get r with op := op } : Instr) = { P.code.get r with op := op } := by
      rw [Instr.mk.injEq]
      exact ⟨rfl, h.a_eq r, h.d_eq r⟩
    rw [hget, hfields]
    rcases hq with ⟨hop, rfl⟩ | ⟨hop, rfl⟩
    · exact .inr (.inl ⟨hop, rfl⟩)
    · exact .inr (.inr ⟨hop, rfl⟩)
  · have hget : (C.setOp q op).get r = C.get r :=
      if_neg fun hc => hr (Pc.ext hc.1 hc.2)
    rw [hget]
    exact h r

end patch

end Patched

theorem Patched.refl (P : Program π) : Patched P P.code := fun _ => .inl rfl

/-! ## The chain of frames -/

/-- A function that waits: its cell and its call. -/
structure Frame (π : Type) where
  func : ℕ
  pc : Pc π

/-- The functions that wait for the one at `f`, which executes the code of `p`. -/
inductive Frames (P : Program π) (last : ℕ) (σ : Stack π) : ℕ → π → List (Frame π) → Prop where
  | entry {f : ℕ} {p : π} : (σ f).tag = .pcr none → (σ f).val = some p → Frames P last σ f p []
  | call {f g : ℕ} {p : π} {q : Pc π} {l : List (Frame π)} : (σ f).tag = .pcr (some q) →
    (σ f).val = some p → Inside P q → (P.code.get q).op.kind = .call →
    f = g + 1 + (P.code.get q).a → f < last → Frames P last σ g q.proto l →
    Frames P last σ f p (⟨g, q⟩ :: l)

theorem Caller.le {C : Code π} {σ : Stack π} {f c : ℕ} (h : Caller C σ f c) : c ≤ f := by
  induction h with
  | self f => exact le_refl _
  | up _ _ ih => omega

namespace Frames

variable {P : Program π} {last : ℕ} {σ σ' : Stack π} {f : ℕ} {p : π} {l : List (Frame π)}

theorem val_eq (h : Frames P last σ f p l) : (σ f).val = some p := by
  cases h with
  | entry _ hval => exact hval
  | call _ hval => exact hval

theorem congr {C : Code π} (hC : Patched P C) (h : Frames P last σ f p l)
    (hσ : ∀ c, Caller C σ f c → σ' c = σ c) : Frames P last σ' f p l := by
  induction h with
  | @entry f p htag hval =>
    have hf := hσ f (.self f)
    exact .entry (by rw [hf, htag]) (by rw [hf, hval])
  | @call f g p q l htag hval hq hop hfg hlast _ ih =>
    have hf := hσ f (.self f)
    have hg : f - (C.get q).a - 1 = g := by
      rw [hC.a_eq]
      omega
    refine .call (by rw [hf, htag]) (by rw [hf, hval]) hq hop hfg hlast (ih fun c hc => ?_)
    exact hσ c (.up htag (hg ▸ hc))

theorem congr_le (h : Frames P last σ f p l) (hσ : ∀ c ≤ f, σ' c = σ c) :
    Frames P last σ' f p l :=
  h.congr (.refl P) fun c hc => hσ c hc.le

theorem replace (h : Frames P last σ f p l) {p' : π} (hσ : ∀ c < f, σ' c = σ c)
    (htag : (σ' f).tag = (σ f).tag) (hval : (σ' f).val = some p') :
    Frames P last σ' f p' l := by
  cases h with
  | entry ht _ => exact .entry (htag.trans ht) hval
  | call ht _ hq hop hfg hlast hrest =>
    refine .call (htag.trans ht) hval hq hop hfg hlast (hrest.congr_le fun c hc => hσ c ?_)
    omega

end Frames

/-! ## Rounds -/

/-- A state whose frames are in order. -/
structure Good (P : Program π) (last : ℕ) (s : Machine π) (l : List (Frame π)) : Prop where
  patched : Patched P s.code
  inside : Inside P s.pc
  func_lt : s.func < s.base
  frames : Frames P last s.stack s.func s.pc.proto l
  fn_eq : s.fn = s.pc.proto

/-- The base of a function that calls another one stands right behind its cell: a function that
was called with variable arguments makes no calls. -/
def FixedBase (s : Machine π) : Prop :=
  s.instr.op.kind = .call → (s.stack s.ra).tag = .func → s.base = s.func + 1

/-- Where the loop goes on after the instruction that is dispatched. -/
def Machine.successors (s : Machine π) : List ℕ := succs (s.code s.pc.proto) s.pc.ix

theorem Machine.successors_eq (s : Machine π) : s.successors =
    match s.instr.op.kind with
    | .store | .call | .loop => [s.pc.ix + 1]
    | .test | .itern => [(s.code.get s.next).target (s.pc.ix + 1), s.pc.ix + 2]
    | .jump | .isnext => [s.instr.target s.pc.ix]
    | .fori | .forl => [s.pc.ix + 1, s.instr.target s.pc.ix]
    | .callt | .ret0 | .ret1 | .leave => [] := rfl

/-- An instruction of the kind calls a function with the prototype `p`. -/
structure Callee (s : Machine π) (kind : Kind) (p : π) : Prop where
  kind_eq : s.instr.op.kind = kind
  tag_eq : (s.stack s.ra).tag = .func
  val_eq : (s.stack s.ra).val = some p

theorem Good.enter (P : Program π) (last : ℕ) (σ : Stack π) (func : ℕ) (main : π) :
    Good P last (enter P σ func main) [] := by
  have hcell : (Vm.enter P σ func main).stack func = (Cell.func main).setPcr none :=
    update_self ..
  refine ⟨.refl P, .start P main, Nat.lt_succ_self func, .entry ?_ ?_, rfl⟩
  · exact congrArg Cell.tag hcell
  · exact congrArg Cell.val hcell

/-- What a round does to the frames. -/
inductive Moves (P : Program π) (last : ℕ) (maxLoop : BitVec 32) (s : Machine π) :
    List (Frame π) → Machine π → List (Frame π) → Prop where
  /-- the loop goes on in the same function -/
  | inside {l : List (Frame π)} {s' : Machine π} {k : ℕ}
    (hk : k ∈ s.successors) (hpc : s'.pc = s.goto k)
    (hfunc : s'.func = s.func) (hbase : s'.base = s.base) (htop : s'.top = s.top)
    (hpt : s'.pt = s.pt)
    (hcount : if s.instr.op.kind.counts then
      s.loopCount ≠ maxLoop ∧ s'.loopCount = s.loopCount + 1 else s'.loopCount = s.loopCount) :
    Moves P last maxLoop s l s' l
  | call {l : List (Frame π)} {s' : Machine π} {p : π} (hcallee : Callee s .call p)
    (hcheck : Checkstack last s.argTop (P p).framesize) (hpc : s'.pc = ⟨p, 1⟩)
    (hfunc : s'.func = s.ra) (hbase : s'.base = callBase P p s.ra s.argTop)
    (htop : s'.top = s'.base + (P p).framesize) (hpt : s'.pt = p)
    (hcount : s'.loopCount = s.loopCount) :
    Moves P last maxLoop s l s' (⟨s.func, s.pc⟩ :: l)
  | callt {l : List (Frame π)} {s' : Machine π} {p : π} (hcallee : Callee s .callt p)
    (hpc : s'.pc = ⟨p, 1⟩) (hfunc : s'.func = s.func) (hbase : s'.base = s.base)
    (htop : s'.top = s.base + (P p).framesize) (hpt : s'.pt = p)
    (hcount : s'.loopCount = s.loopCount) :
    Moves P last maxLoop s l s' l
  | ret {l : List (Frame π)} {s' : Machine π} {g : ℕ} {q : Pc π}
    (hkind : s.instr.op.kind = .ret0 ∨ s.instr.op.kind = .ret1)
    (htag : (s.stack s.func).tag = .pcr (some q)) (hpc : s'.pc = ⟨q.proto, q.ix + 1⟩)
    (hfunc : s'.func = g) (hbase : s'.base = g + 1)
    (htop : s'.top = g + 1 + (P s.pt).framesize) (hpt : s'.pt = s.pt)
    (hcount : s'.loopCount = s.loopCount) :
    Moves P last maxLoop s (⟨g, q⟩ :: l) s' l

section rounds

variable [DecidableEq π] {P : Program π} {last : ℕ} {maxLoop : BitVec 32} {s s' : Machine π}
  {a : Answer π} {l : List (Frame π)}

namespace Good

section

omit [DecidableEq π]

section

variable (hg : Good P last s l)

include hg

theorem instr_eq (hj : s.instr.op.kind ≠ .jump) (hl : s.instr.op.kind ≠ .leave) :
    s.instr = fetch (P s.pc.proto).bc s.pc.ix :=
  hg.patched.get_eq_of_kind hj hl

theorem ra_le_argTop (hk : s.instr.op.kind = .call) :
    s.ra ≤ s.argTop := by
  have hi := hg.instr_eq (by rw [hk]; decide) (by rw [hk]; decide)
  have hpos := (P s.pc.proto).call_pos s.pc.ix hg.inside.1 hg.inside.2
  rw [← hi] at hpos
  rw [Machine.argTop]
  by_cases hop : s.instr.op = .call
  · rw [if_pos ⟨hop, hpos hop⟩]
    omega
  · have hm : s.instr.op = .callm := by
      revert hk hop
      cases s.instr.op <;> simp [Opcode.kind]
    rw [if_neg (fun h => hop h.1), if_pos hm]
    omega

theorem func_lt_ra : s.func < s.ra :=
  lt_of_lt_of_le hg.func_lt (Nat.le_add_right ..)

theorem write_eq (ha : Allowed s a) {c : ℕ} (hc : Caller s.code s.stack s.func c) :
    s.stack.write a.stores c = s.stack c := by
  apply Stack.write_of_ne
  rintro w hw rfl
  have hle := hc.le
  have hlt := hg.func_lt
  rcases ha.stores w hw with ⟨r, _, hr⟩ | ⟨_, hnot⟩
  · omega
  · exact hnot hc

theorem goes_on {k : ℕ} (hk : k ∈ s.successors) {σ : Stack π} {C : Code π}
    (hσ : ∀ c, Caller s.code s.stack s.func c → σ c = s.stack c) (hC : Patched P C) (m : ℕ)
    (n : BitVec 32) :
    Good P last
      { s with stack := σ, code := C, pc := s.goto k, multres := m, loopCount := n } l :=
  ⟨hC, hg.patched.inside_of_succs hg.inside hk, hg.func_lt, hg.frames.congr hg.patched hσ,
    hg.fn_eq⟩

end

end

end Good

section

omit [DecidableEq π]

theorem Moves.stays {k : ℕ} (hk : k ∈ s.successors)
    (hc : s.instr.op.kind.counts = false) (σ : Stack π) (C : Code π) (m : ℕ) :
    Moves P last maxLoop s l { s with stack := σ, code := C, pc := s.goto k, multres := m } l :=
  .inside hk rfl rfl rfl rfl rfl (by rw [hc]; rfl)

theorem hotLoop_moves (hg : Good P last s l) {k : ℕ}
    (hk : k ∈ s.successors) (hc : s.instr.op.kind.counts = true)
    {σ : Stack π} (hσ : ∀ c, Caller s.code s.stack s.func c → σ c = s.stack c)
    (h : hotLoop maxLoop s { s with stack := σ, pc := s.goto k } = .ok s') :
    Moves P last maxLoop s l s' l ∧ Good P last s' l := by
  rw [hotLoop] at h
  split at h
  · cases h
  · rename_i hne
    cases h
    exact ⟨.inside hk rfl rfl rfl rfl rfl (by rw [hc]; exact ⟨hne, rfl⟩),
      hg.goes_on hk hσ hg.patched _ _⟩

section

variable (hg : Good P last s l) (hk : s.instr.op.kind = .call)

include hg hk

theorem callC_moves (h : callC last s a = .ok s') :
    Moves P last maxLoop s l s' l ∧ Good P last s' l := by
  have hnext : s.pc.ix + 1 ∈ s.successors := by
    simp [Machine.successors_eq, hk]
  rw [callC] at h
  split at h
  · split at h
    · cases h
    · cases h
      refine ⟨.stays hnext (by rw [hk]; rfl) .., hg.goes_on hnext ?_ hg.patched _ _⟩
      intro c hc
      have hlt : c < s.ra := lt_of_le_of_lt hc.le hg.func_lt_ra
      rw [Stack.poscall_of_lt hlt, Stack.push_of_lt (lt_of_lt_of_le hlt (hg.ra_le_argTop hk))]
  · cases h

theorem Good.call_frames {p : π} (hval : (s.stack s.ra).val = some p) (hbase : s.base = s.func + 1)
    (hlast : s.argTop < last) :
    let σ := callStack P s.stack p s.ra s.argTop
    Frames P last (update σ s.ra ((σ s.ra).setPcr (some s.pc))) s.ra p
      (⟨s.func, s.pc⟩ :: l) := by
  intro σ
  have hle := hg.ra_le_argTop hk
  have hi : s.instr = P.code.get s.pc :=
    hg.patched.get_eq_of_kind (by rw [← Machine.instr, hk]; decide)
      (by rw [← Machine.instr, hk]; decide)
  refine .call ?_ ?_ hg.inside (hi ▸ hk) ?_ (lt_of_le_of_lt hle hlast)
    (hg.frames.congr_le fun c hc => ?_)
  · rw [update_self]
    rfl
  · rw [update_self, Cell.setPcr, val_callStack, hval]
  · rw [Machine.ra, hbase, hi]
  · have hlt : c < s.ra := lt_of_le_of_lt hc hg.func_lt_ra
    rw [update_of_ne hlt.ne]
    exact callStack_of_lt hlt hle

theorem callFunc_moves {p : π} (htag : (s.stack s.ra).tag = .func)
    (hval : (s.stack s.ra).val = some p) (hfixed : FixedBase s) (h : callFunc P last s p = .ok s') :
    Moves P last maxLoop s l s' (⟨s.func, s.pc⟩ :: l) ∧
      Good P last s' (⟨s.func, s.pc⟩ :: l) := by
  rw [callFunc] at h
  split at h
  · rename_i hcheck
    have hlast : s.argTop < last := by
      rw [Checkstack] at hcheck
      omega
    have hframes := hg.call_frames hk hval (hfixed hk htag) hlast
    cases h
    exact ⟨.call ⟨hk, htag, hval⟩ hcheck rfl rfl rfl rfl rfl rfl,
      ⟨hg.patched, .start P p, lt_callBase .., hframes, rfl⟩⟩
  · cases h

end

theorem callT_moves (hg : Good P last s l) (hk : s.instr.op.kind = .callt) {p : π}
    (htag : (s.stack s.ra).tag = .func) (hval : (s.stack s.ra).val = some p) :
    Moves P last maxLoop s l (callT P s p) l ∧ Good P last (callT P s p) l := by
  have hstack : (callT P s p).stack = Stack.moveArgs
      (update s.stack s.func ((s.stack s.func).setVal p)) s.func s.ra
      (P p).numparams := rfl
  have hcell : (callT P s p).stack s.func = (s.stack s.func).setVal p := by
    rw [hstack, Stack.moveArgs_of_le (le_refl _), update_self]
  refine ⟨.callt ⟨hk, htag, hval⟩ rfl rfl rfl rfl rfl rfl,
    ⟨hg.patched, .start P p, hg.func_lt, hg.frames.replace (fun c hc => ?_) ?_ ?_, rfl⟩⟩
  · rw [hstack, Stack.moveArgs_of_le hc.le, update_of_ne hc.ne]
  · rw [hcell]
    rfl
  · rw [hcell]
    rfl

theorem doReturn_eq {q : Pc π} {σ : Stack π} {g : ℕ} {p : π}
    (hfunc : s.func = g + 1 + (s.code.get q).a) (hval : (σ g).val = some p) :
    doReturn P s q σ = .ok { s with
      stack := σ
      func := g
      base := g + 1
      top := g + 1 + (P s.pt).framesize
      fn := p
      pc := ⟨q.proto, q.ix + 1⟩
      multres := s.instr.d } := by
  have hg : s.func - (s.code.get q).a - 1 = g := by omega
  have hbase : s.func - (s.code.get q).a = g + 1 := by omega
  rw [doReturn, if_pos (by omega)]
  simp only [hg, hval]
  rw [hbase]

theorem ret_moves (hg : Good P last s l) (hk : s.instr.op.kind = .ret0 ∨ s.instr.op.kind = .ret1)
    {c : ℕ} (hc : s.func ≤ c) (v : Cell π) (h : ret P s c v = .ok s') :
    ∃ l', Moves P last maxLoop s l s' l' ∧ Good P last s' l' := by
  have hframes := hg.frames
  rw [ret] at h
  cases hframes with
  | entry htag _ =>
    rw [htag] at h
    cases h
  | @call _ g _ q l htag _ hq hop hfg _ hrest =>
    rw [htag] at h
    rw [← hg.patched.a_eq q] at hfg
    have hrest : Frames P last (update s.stack c v) g q.proto l :=
      hrest.congr_le fun d hd => update_of_ne (by omega) ..
    simp only [doReturn_eq hfg hrest.val_eq] at h
    cases h
    refine ⟨l, .ret hk htag rfl rfl rfl rfl rfl rfl, ⟨hg.patched, ?_, Nat.lt_succ_self g, hrest,
      rfl⟩⟩
    have hk : (P.code q.proto q.ix).op.kind = .call := hop
    obtain ⟨_, hrank⟩ := (P q.proto).flows
    refine ((hrank q.ix hq.1 hq.2).2 (q.ix + 1) ?_).1
    rw [succs, show (fetch (P q.proto).bc q.ix).op.kind = .call from hop]
    exact List.mem_singleton_self _

theorem Good.ret_ne_wild (hg : Good P last s l) {c : ℕ} (hc : s.func ≤ c) (v : Cell π) :
    ret P s c v ≠ .error .wild := by
  have hframes := hg.frames
  intro h
  rw [ret] at h
  cases hframes with
  | entry htag _ =>
    rw [htag] at h
    cases h
  | @call _ g _ q l htag _ _ _ hfg _ hrest =>
    rw [htag] at h
    rw [← hg.patched.a_eq q] at hfg
    have hrest : Frames P last (update s.stack c v) g q.proto l :=
      hrest.congr_le fun d hd => update_of_ne (by omega) ..
    simp only [doReturn_eq hfg hrest.val_eq] at h
    cases h

theorem kind_eq_isnext {op : Opcode} (h : op.kind = .isnext) : op = .isnext := by
  revert h
  cases op <;> simp [Opcode.kind]

end

theorem Good.despecialize (hg : Good P last s l) (hk : s.instr.op.kind = .isnext) :
    Patched P ((s.code.setOp s.pc .jmp).setOp s.dojump .iterc) := by
  have hi := hg.instr_eq (by rw [hk]; decide) (by rw [hk]; decide)
  have hop : (fetch (P s.pc.proto).bc s.pc.ix).op = .isnext := by
    rw [hi] at hk
    exact kind_eq_isnext hk
  have hnext := (P s.pc.proto).isnext_itern s.pc.ix hg.inside.1 hg.inside.2 hop
  rw [← hi] at hnext
  have hdojump : (P.code.get s.dojump).op = .itern := by
    rw [Program.code_get, Machine.dojump_eq]
    exact hnext
  exact (hg.patched.setOp (.inl ⟨hop, rfl⟩)).setOp (.inr ⟨hdojump, rfl⟩)

/-- **Step lemma**: what a round does to the frames, which stay in order. -/
theorem dispatch_moves (hg : Good P last s l) (ha : Allowed s a) (hfixed : FixedBase s)
    (h : dispatch P last maxLoop s a = .ok s') :
    ∃ l', Moves P last maxLoop s l s' l' ∧ Good P last s' l' := by
  have hsame : ∀ c, Caller s.code s.stack s.func c → s.stack c = s.stack c := fun _ _ => rfl
  have hwrite : ∀ c, Caller s.code s.stack s.func c → s.stack.write a.stores c = s.stack c :=
    fun _ => hg.write_eq ha
  -- a round that stays in the function and does not count
  have hstay {k : ℕ} {σ : Stack π} (hσ : ∀ c, Caller s.code s.stack s.func c → σ c = s.stack c)
      (hk : k ∈ s.successors := by simp [Machine.successors_eq, *])
      (hc : s.instr.op.kind.counts = false := by simp only [*]; rfl) :
      ∃ l', Moves P last maxLoop s l { s with stack := σ, pc := s.goto k } l' ∧
        Good P last { s with stack := σ, pc := s.goto k } l' :=
    ⟨l, .stays hk hc .., hg.goes_on hk hσ hg.patched _ _⟩
  rw [dispatch] at h
  cases hk : s.instr.op.kind <;> simp only [hk] at h
  case store =>
    split at h
    · cases h
    · cases h
      exact hstay hwrite
  case test =>
    split at h
    · cases h
    · split at h
      · cases h
        exact hstay hwrite
      · cases h
        exact hstay hsame
  case jump =>
    cases h
    exact hstay hsame
  case call =>
    split at h
    · exact ⟨l, callC_moves hg hk h⟩
    · rename_i htag
      split at h
      · rename_i p hval
        exact ⟨_, callFunc_moves hg hk htag hval hfixed h⟩
      · cases h
    · cases h
  case callt =>
    split at h
    · cases h
    · rename_i htag
      split at h
      · rename_i p hval
        cases h
        exact ⟨l, callT_moves hg hk htag hval⟩
      · cases h
    · cases h
  case itern =>
    have hc : s.instr.op.kind.counts = true := by
      rw [hk]
      rfl
    split at h
    · exact ⟨l, hotLoop_moves hg (by simp [Machine.successors_eq, hk]) hc hwrite h⟩
    · exact ⟨l, hotLoop_moves hg (by simp [Machine.successors_eq, hk]) hc hsame h⟩
  case isnext =>
    have hlt := hg.func_lt_ra
    split at h
    · cases h
      refine hstay fun c hc => ?_
      exact Stack.fillNil_of_lt _ (lt_of_le_of_lt hc.le hlt)
    · cases h
      have hjump : s.instr.target s.pc.ix ∈ s.successors := by
        simp [Machine.successors_eq, hk]
      exact ⟨l, .stays hjump (by rw [hk]; rfl) .., hg.goes_on hjump hsame (hg.despecialize hk) _ _⟩
  case ret0 => exact ret_moves hg (.inl hk) (le_refl _) _ h
  case ret1 => exact ret_moves hg (.inr hk) (Nat.le_sub_one_of_lt hg.func_lt) _ h
  case fori =>
    split at h
    · cases h
    · split at h
      · cases h
        exact hstay hwrite
      · cases h
        exact hstay hsame
  case forl =>
    have hc : s.instr.op.kind.counts = true := by
      rw [hk]
      rfl
    split at h
    · exact ⟨l, hotLoop_moves hg (by simp [Machine.successors_eq, hk]) hc hwrite h⟩
    · exact ⟨l, hotLoop_moves hg (by simp [Machine.successors_eq, hk]) hc hsame h⟩
  case loop =>
    have hc : s.instr.op.kind.counts = true := by
      rw [hk]
      rfl
    exact ⟨l, hotLoop_moves hg (by simp [Machine.successors_eq, hk]) hc hsame h⟩
  case leave => cases h

theorem dispatch_ne_wild (hg : Good P last s l) (a : Answer π) :
    dispatch P last maxLoop s a ≠ .error .wild := by
  have hisSome : (s.stack s.ra).tag = .func → (s.stack s.ra).val ≠ none := by
    intro htag hval
    have := (s.stack s.ra).isSome_of_func htag
    rw [hval] at this
    cases this
  have hloop : ∀ t : Machine π, hotLoop maxLoop s t ≠ .error .wild := by
    intro t h
    rw [hotLoop] at h
    split at h <;> cases h
  intro h
  rw [dispatch] at h
  cases hk : s.instr.op.kind <;> simp only [hk] at h
  case call =>
    split at h
    · rw [callC] at h
      split at h
      · split at h <;> cases h
      · cases h
    · rename_i htag
      split at h
      · rw [callFunc] at h
        split at h <;> cases h
      · exact hisSome htag ‹_›
    · cases h
  case callt =>
    split at h
    · cases h
    · rename_i htag
      split at h
      · cases h
      · exact hisSome htag ‹_›
    · cases h
  case ret0 => exact hg.ret_ne_wild (le_refl _) _ h
  case ret1 => exact hg.ret_ne_wild (Nat.le_sub_one_of_lt hg.func_lt) _ h
  case itern => split at h <;> exact hloop _ h
  case forl => split at h <;> exact hloop _ h
  case loop => exact hloop _ h
  case jump => cases h
  case leave => cases h
  case store => split at h <;> cases h
  case isnext => split at h <;> cases h
  case test =>
    split at h
    · cases h
    · split at h <;> cases h
  case fori =>
    split at h
    · cases h
    · split at h <;> cases h

end rounds

end Ktap.Vm
