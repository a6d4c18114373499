import Mathlib.Order.Lattice.Nat
import ReadingComment.Ktap.StackBound
import ReadingComment.Lib.Potential

/-!
# Runs of the dispatch loop end (`runtime/kp_vm.c`)

A circle inside a function passes an instruction that calls `check_hot_loop`, which
passes `kp_max_loop_count` times; and the functions that wait stand at different cells
of the stack, which `CALL` does not let grow beyond its end. So the rounds between two
that count are bounded: the potential of a state weighs the place in each function of
the chain by a power that falls with the height of its cell. A tail call, however,
neither counts nor makes the stack grow.
-/

namespace Ktap.Vm

variable {π : Type}

/-- The ranks of the instructions of a prototype. -/
noncomputable def Proto.rank (p : Proto) : ℕ → ℕ := p.flows.choose

theorem Proto.rank_spec (p : Proto) {k : ℕ} (h1 : 1 ≤ k) (hlt : k < p.bc.length) :
    (1 ≤ p.rank k ∧ p.rank k ≤ p.bc.length) ∧
      ∀ l ∈ succs (fetch p.bc) k, (1 ≤ l ∧ l < p.bc.length) ∧
        ((fetch p.bc k).op.kind.counts = false → p.rank l < p.rank k) :=
  p.flows.choose_spec k h1 hlt

variable [Fintype π] (P : Program π) (last : ℕ)

def longest : ℕ := Finset.univ.sup fun p => (P p).bc.length

def segment : ℕ := (longest P + 1) ^ (last + 1)

/-- The weight of a function that is at `q`, with its cell at `f`. -/
noncomputable def level (q : Pc π) (f : ℕ) : ℕ :=
  (P q.proto).rank q.ix * (longest P + 1) ^ (last - f)

/-- The weight of the functions that wait: each goes on behind its call. -/
noncomputable def waiting : List (Frame π) → ℕ
  | [] => 0
  | x :: l => level P last ⟨x.pc.proto, x.pc.ix + 1⟩ x.func + waiting l

variable {P last}

theorem waiting_cons (g : ℕ) (q : Pc π) (l : List (Frame π)) :
    waiting P last (⟨g, q⟩ :: l) =
      level P last ⟨q.proto, q.ix + 1⟩ g + waiting P last l := rfl

variable {q : Pc π}

theorem rank_le (hq : Inside P q) : (P q.proto).rank q.ix ≤ longest P :=
  ((P q.proto).rank_spec hq.1 hq.2).1.2.trans
    (Finset.le_sup (f := fun p => (P p).bc.length) (Finset.mem_univ q.proto))

theorem level_add_le (hq : Inside P q) (f : ℕ) :
    level P last q f + (longest P + 1) ^ (last - f) ≤ (longest P + 1) ^ (last - f + 1) := by
  have hle : (P q.proto).rank q.ix * (longest P + 1) ^ (last - f) ≤
      longest P * (longest P + 1) ^ (last - f) := Nat.mul_le_mul_right _ (rank_le hq)
  have hpow : (longest P + 1) ^ (last - f + 1) =
      longest P * (longest P + 1) ^ (last - f) + (longest P + 1) ^ (last - f) := by
    rw [pow_succ, Nat.mul_comm, Nat.add_mul, Nat.one_mul]
  rw [level]
  omega

theorem level_lt_level {q r : Pc π} {f : ℕ}
    (h : (P q.proto).rank q.ix < (P r.proto).rank r.ix) : level P last q f < level P last r f :=
  Nat.mul_lt_mul_of_pos_right h (Nat.pow_pos (Nat.succ_pos _))

theorem level_pos (hq : Inside P q) (f : ℕ) : 0 < level P last q f :=
  Nat.mul_pos ((P q.proto).rank_spec hq.1 hq.2).1.1 (Nat.pow_pos (Nat.succ_pos _))

omit [Fintype π] in
theorem next_of_call (hq : Inside P q) (hk : (P.code.get q).op.kind = .call) :
    Inside P ⟨q.proto, q.ix + 1⟩ ∧ (P q.proto).rank (q.ix + 1) < (P q.proto).rank q.ix := by
  have hk : (fetch (P q.proto).bc q.ix).op.kind = .call := hk
  have hsucc : q.ix + 1 ∈ succs (fetch (P q.proto).bc) q.ix := by
    rw [succs, hk]
    exact List.mem_singleton_self _
  obtain ⟨hin, hrank⟩ := ((P q.proto).rank_spec hq.1 hq.2).2 _ hsucc
  exact ⟨hin, hrank (by rw [hk]; rfl)⟩

theorem Frames.waiting_le {σ : Stack π} {f : ℕ} {p : π} {l : List (Frame π)}
    (h : Frames P last σ f p l) :
    waiting P last l + (longest P + 1) ^ (last - f + 1) ≤ segment P last := by
  induction h with
  | @entry f p =>
    rw [waiting, Nat.zero_add, segment]
    exact Nat.pow_le_pow_right (Nat.succ_pos _) (by omega)
  | @call f g p q l _ _ hq hk hf hlt _ ih =>
    have hlevel : level P last ⟨q.proto, q.ix + 1⟩ g + (longest P + 1) ^ (last - g) ≤ _ :=
      level_add_le (next_of_call hq hk).1 g
    have hpow : (longest P + 1) ^ (last - f + 1) ≤ (longest P + 1) ^ (last - g) :=
      Nat.pow_le_pow_right (Nat.succ_pos _) (by omega)
    rw [waiting_cons]
    omega

/-- The weight of all functions. -/
noncomputable def weight (P : Program π) (last : ℕ) (s : Machine π) (l : List (Frame π)) : ℕ :=
  level P last s.pc s.func + waiting P last l

theorem Good.weight_lt {s : Machine π} {l : List (Frame π)} (hg : Good P last s l) :
    weight P last s l < segment P last := by
  have hwait := hg.frames.waiting_le
  have hlevel : level P last s.pc s.func + (longest P + 1) ^ (last - s.func) ≤ _ :=
    level_add_le hg.inside s.func
  have hpos : 0 < (longest P + 1) ^ (last - s.func) := Nat.pow_pos (Nat.succ_pos _)
  rw [weight]
  omega

/-! ## The potential -/

section potential

variable {maxLoop : BitVec 32} {s s' : Machine π} {l l' : List (Frame π)}

def TailCalls (s : Machine π) : Prop := s.instr.op.kind = .callt

instance (s : Machine π) : Decidable (TailCalls s) :=
  inferInstanceAs (Decidable (s.instr.op.kind = .callt))

/-- The checks of `check_hot_loop` that are still passed. -/
def checksLeft (maxLoop : BitVec 32) (s : Machine π) : ℕ := (maxLoop - s.loopCount).toNat

/-- The potential of a state. -/
noncomputable def potential (P : Program π) (last : ℕ) (maxLoop : BitVec 32) (s : Machine π)
    (l : List (Frame π)) : ℕ :=
  checksLeft maxLoop s * segment P last + weight P last s l

omit [Fintype π] in
theorem checksLeft_succ (hne : s.loopCount ≠ maxLoop) (h : s'.loopCount = s.loopCount + 1) :
    checksLeft maxLoop s' + 1 = checksLeft maxLoop s := by
  rw [checksLeft, checksLeft, h]
  bv_omega

theorem Moves.weight_lt (hg : Good P last s l) (hm : Moves P last maxLoop s l s' l')
    (hnot : ¬ TailCalls s) (hcounts : s.instr.op.kind.counts = false) (hg' : Good P last s' l') :
    weight P last s' l' < weight P last s l ∧ s'.loopCount = s.loopCount := by
  cases hm with
  | @inside l _ k hk hpc hfunc _ _ _ hcount =>
    rw [hcounts] at hcount
    have hsucc := hg.patched.succs_eq hk
    have hrank := ((P s.pc.proto).rank_spec hg.inside.1 hg.inside.2).2 k hsucc.1
    have hlt := hrank.2 (hsucc.2.symm.trans hcounts)
    refine ⟨?_, hcount⟩
    rw [weight, weight, hpc, hfunc]
    exact Nat.add_lt_add_right (level_lt_level hlt) _
  | @call l _ p hp _ hpc hfunc _ _ _ hcount =>
    refine ⟨?_, hcount⟩
    have hframes := hg'.frames
    cases hframes with
    | call _ _ hq hk hf hlt _ =>
      have hin := hg'.inside
      rw [hpc] at hin
      have hcallee : level P last ⟨p, 1⟩ s'.func + (longest P + 1) ^ (last - s'.func) ≤ _ :=
        level_add_le hin s'.func
      have hpos : 0 < (longest P + 1) ^ (last - s'.func) := Nat.pow_pos (Nat.succ_pos _)
      have hpow : (longest P + 1) ^ (last - s'.func + 1) ≤ (longest P + 1) ^ (last - s.func) :=
        Nat.pow_le_pow_right (Nat.succ_pos _) (by omega)
      have hrank := (next_of_call hq hk).2
      have hcaller : level P last ⟨s.pc.proto, s.pc.ix + 1⟩ s.func +
          (longest P + 1) ^ (last - s.func) ≤ level P last s.pc s.func := by
        rw [level, level, ← Nat.succ_mul]
        exact Nat.mul_le_mul_right _ hrank
      rw [weight, weight, waiting_cons, hpc]
      omega
  | callt hp => exact absurd hp.kind_eq hnot
  | @ret l _ g q _ _ hpc hfunc _ _ _ hcount =>
    refine ⟨?_, hcount⟩
    have hpos : 0 < level P last s.pc s.func := level_pos hg.inside s.func
    rw [weight, weight, waiting_cons, hpc, hfunc]
    omega

omit [Fintype π] in
theorem Moves.checksLeft_lt (hm : Moves P last maxLoop s l s' l')
    (hcounts : s.instr.op.kind.counts = true) :
    checksLeft maxLoop s' + 1 = checksLeft maxLoop s := by
  cases hm with
  | inside _ _ _ _ _ _ hcount =>
    rw [hcounts] at hcount
    exact checksLeft_succ hcount.1 hcount.2
  | call hp | callt hp =>
    rw [hp.kind_eq] at hcounts
    cases hcounts
  | ret hk =>
    rcases hk with hk | hk
    · rw [hk] at hcounts
      cases hcounts
    · rw [hk] at hcounts
      cases hcounts

theorem Moves.potential_lt (hg : Good P last s l) (hm : Moves P last maxLoop s l s' l')
    (hnot : ¬ TailCalls s) (hg' : Good P last s' l') :
    potential P last maxLoop s' l' < potential P last maxLoop s l := by
  have hlt := hg'.weight_lt
  rw [potential, potential]
  cases hcounts : s.instr.op.kind.counts with
  | false =>
    obtain ⟨hw, hcount⟩ := hm.weight_lt hg hnot hcounts hg'
    rw [checksLeft, checksLeft, hcount]
    omega
  | true =>
    rw [← hm.checksLeft_lt hcounts, Nat.succ_mul]
    omega

theorem Moves.potential_lt_add (hm : Moves P last maxLoop s l s' l') (htail : TailCalls s)
    (hg' : Good P last s' l') :
    potential P last maxLoop s' l' < potential P last maxLoop s l + segment P last := by
  have hlt := hg'.weight_lt
  have hcount : s'.loopCount = s.loopCount := by
    cases hm with
    | inside hk =>
      rw [Machine.successors_eq, show s.instr.op.kind = .callt from htail] at hk
      exact absurd hk List.not_mem_nil
    | call _ _ _ _ _ _ _ hcount => exact hcount
    | callt _ _ _ _ _ _ hcount => exact hcount
    | ret _ _ _ _ _ _ _ hcount => exact hcount
  rw [potential, potential, checksLeft, checksLeft, hcount]
  omega

end potential

/-! ## Runs -/

section runs

variable [DecidableEq π] {maxLoop : BitVec 32} {σ : Stack π} {func : ℕ} {main : π}
  {s : Machine π}

theorem vm_potential : (vm P last maxLoop σ func main).Potential (fun s _ => FixedBase s)
    TailCalls (segment P last)
    (fun s v => ∃ l, Good P last s l ∧ v = potential P last maxLoop s l) where
  lower := by
    rintro s a s' v ⟨l, hg, rfl⟩ ha hfixed hs hnot
    obtain ⟨l', hm, hg'⟩ := dispatch_moves hg ha hfixed hs
    exact ⟨_, hm.potential_lt hg hnot hg', l', hg', rfl⟩
  raise := by
    rintro s a s' v ⟨l, hg, rfl⟩ ha hfixed hs htail
    obtain ⟨l', hm, hg'⟩ := dispatch_moves hg ha hfixed hs
    exact ⟨_, hm.potential_lt_add htail hg', l', hg', rfl⟩

/-- **Runs end**: a run in which functions that were called with variable arguments make no calls
has a number of rounds that is bounded by the program, the stack, `kp_max_loop_count` and its
tail calls; and it does not end by jumping nowhere. -/
theorem run_length_le {k n : ℕ} (h : (vm P last maxLoop σ func main).Runs
    (fun s _ => FixedBase s) TailCalls k n s) :
    n ≤ (maxLoop.toNat + 1 + k) * segment P last ∧
      ∀ a, dispatch P last maxLoop s a ≠ .error .wild := by
  have hgood := Good.enter P last σ func main
  have hstart : ∃ l, Good P last (vm P last maxLoop σ func main).init l ∧
      potential P last maxLoop (enter P σ func main) [] =
        potential P last maxLoop (vm P last maxLoop σ func main).init l := ⟨[], hgood, rfl⟩
  obtain ⟨v, ⟨l, hg, _⟩, hle⟩ := vm_potential.steps_le hstart h
  have hlt := hgood.weight_lt
  have hleft : checksLeft maxLoop (enter P σ func main) = maxLoop.toNat := by
    rw [checksLeft, enter]
    simp
  refine ⟨?_, dispatch_ne_wild hg⟩
  rw [potential, hleft] at hle
  rw [Nat.add_mul, Nat.add_mul, Nat.one_mul]
  omega

end runs

instance : Fintype ReturnOne := ⟨{.main, .f}, fun p => by cases p <;> decide⟩

/-- The call of `f` in the main function, in at most so many rounds. -/
theorem run_length_le_returnOne :
    ∃ s : Machine ReturnOne, s.func = 2 ∧
      3 ≤ ((100000 : BitVec 32).toNat + 1 + 0) * segment returnOne 120 ∧
      ∀ a, dispatch returnOne 120 100000 s a ≠ .error .wild := by
  have h0 : (vm returnOne 120 100000 (fun _ => .data) 0 .main).Runs (fun s _ => FixedBase s)
      TailCalls 0 0 _ := .init
  have h1 := h0.step (Allowed.store (r := 0) (by decide) (.func .f)) nofun rfl
    (by decide)
  have h2 := h1.step (Allowed.store (r := 1) (by decide) (.func .f)) nofun rfl
    (by decide)
  have h3 := h2.step (Allowed.none _) (fun _ _ => rfl) rfl (by decide)
  exact ⟨_, rfl, run_length_le h3⟩

/-! ## A tail call in a circle -/

/-- The functions of `function f() { return f() } f()`. -/
inductive TailSelf where
  | main
  | f
  deriving DecidableEq, Repr

/-- What the compiler makes of it: `f` is an upvalue of itself. -/
def tailSelf : Program TailSelf
  | .main => .ofKeeps 2 true [⟨.funcv, 2, 0⟩, ⟨.fnew, 0, 0⟩, ⟨.mov, 1, 0⟩, .abc .call 1 1 1,
      ⟨.uclo, 0, bcbiasJ⟩, ⟨.ret0, 0, 1⟩] (6 - ·) (by decide) (by decide)
  | .f => .ofKeeps 1 false [⟨.funcf, 1, 0⟩, ⟨.uget, 0, 0⟩, ⟨.callt, 0, 1⟩] (3 - ·)
      (by decide) (by decide)

/-- The states of the loop through `f`. -/
def InTailSelf (s : Machine TailSelf) : Prop :=
  s.code = tailSelf.code ∧
    (s.pc = ⟨.f, 1⟩ ∨ s.pc = ⟨.f, 2⟩ ∧ s.stack s.base = .func .f)

theorem InTailSelf.step {s : Machine TailSelf} (h : InTailSelf s) (last : ℕ)
    (maxLoop : BitVec 32) :
    ∃ a s', Allowed s a ∧ dispatch tailSelf last maxLoop s a = .ok s' ∧ InTailSelf s' := by
  obtain ⟨hcode, hpc | ⟨hpc, hcell⟩⟩ := h
  · have hi : s.instr = ⟨.uget, 0, 0⟩ := by
      rw [Machine.instr, hcode, hpc]
      rfl
    refine ⟨.store (s.base + 0) (.func .f), { s with
      stack := s.stack.write [(s.base + 0, .func .f)]
      pc := s.next }, .store ?_ _, ?_, hcode, .inr ⟨?_, ?_⟩⟩
    · rw [hi]
      decide
    · simp only [dispatch, hi]
      rfl
    · rw [Machine.next, Machine.goto, hpc]
    · exact Function.update_self ..
  · have hi : s.instr = ⟨.callt, 0, 1⟩ := by
      rw [Machine.instr, hcode, hpc]
      rfl
    have hra : s.stack s.ra = .func .f := by
      rw [Machine.ra, hi]
      exact hcell
    refine ⟨.none, callT tailSelf s .f, .none s, ?_, hcode, .inl rfl⟩
    simp only [dispatch, hi, hra]
    rfl

/-- A run that never ends. -/
theorem tail_call_endless :
    ∃ s, (vm tailSelf 120 100000 (fun _ => .data) 0 .main).Reach (fun _ _ => True) s ∧
      ∃ run : ℕ → Machine TailSelf, run 0 = s ∧ ∀ n, ∃ a, Allowed (run n) a ∧
        dispatch tailSelf 120 100000 (run n) a = .ok (run (n + 1)) := by
  have h0 : (vm tailSelf 120 100000 (fun _ => .data) 0 .main).Reach (fun _ _ => True) _ := .init
  have h1 := h0.step (Allowed.store (r := 0) (by decide) (.func .f)) trivial rfl
  have h2 := h1.step (Allowed.store (r := 1) (by decide) (.func .f)) trivial rfl
  have h3 := h2.step (Allowed.none _) trivial rfl
  exact ⟨_, h3, (vm tailSelf 120 100000 (fun _ => .data) 0 .main).exists_endless
    (fun s hs => InTailSelf.step hs 120 100000) ⟨rfl, .inl rfl⟩⟩

end Ktap.Vm
