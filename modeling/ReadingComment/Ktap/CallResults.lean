import ReadingComment.Ktap.CallReturn

/-!
# The results of a call (`runtime/kp_vm.c`)

A `CALL` with `B = k + 1` asks for `k` results, in the registers from `A` on;
`assign_adjust` of `userspace/kp_parse.c` sets `B` for a list of variables and relies on
missing results being nil. `poscall` copies the results of a C function and fills up with
nil. `RET0` and `RET1` set one register and do not look at `B`: behind it the caller finds
what the function that returns has left in its own registers.
-/

namespace Ktap.Vm

open Function List

variable {π : Type}

/-- The `k` cells from `ra` on hold the first results, padded with nil. -/
def Delivered (σ : Stack π) (ra k : ℕ) (results : List (Cell π)) : Prop :=
  ∀ j < k, match results[j]? with
    | some v => σ (ra + j) = v
    | none => (σ (ra + j)).tag = .nil

/-- The cells behind the first one of `k` cells are nil. -/
def Padded (σ : Stack π) (ra k : ℕ) : Prop := ∀ j, 1 ≤ j → j < k → (σ (ra + j)).tag = .nil

/-- The round completes a call, for which the results are returned. A call of a C function is
completed at once, one of a function of the program by the return to it; `RET` leaves the loop and
completes no call. -/
inductive Completes (s : Machine π) (a : Answer π) (xs : List (Call π)) :
    Call π → List (Cell π) → Prop where
  | cfunc : s.instr.op.kind = .call → (s.stack s.ra).tag = .cfunc →
    Completes s a xs ⟨s, fun _ => False⟩ a.results
  | ret0 {x : Call π} {xs' : List (Call π)} : xs = x :: xs' → s.instr.op.kind = .ret0 →
    Completes s a xs x []
  | ret1 {x : Call π} {xs' : List (Call π)} : xs = x :: xs' → s.instr.op.kind = .ret1 →
    Completes s a xs x [s.stack s.ra]

/-! ## `poscall` -/

theorem Delivered.cons {σ : Stack π} {ra k : ℕ} {v : Cell π} {vs : List (Cell π)}
    (hv : σ ra = v) (h : Delivered σ (ra + 1) k vs) : Delivered σ ra (k + 1) (v :: vs) := by
  rintro (_ | j) hj
  · exact hv
  · have hrest := h j (by omega)
    rwa [Nat.add_right_comm] at hrest

theorem delivered_fillNil (σ : Stack π) (ra k : ℕ) : Delivered (σ.fillNil ra k) ra k [] := by
  intro j hj
  change (σ.fillNil ra k (ra + j)).tag = .nil
  rw [Stack.fillNil, if_pos ⟨by omega, by omega⟩]
  rfl

theorem Stack.poscall_delivered {func first : ℕ} (h : func ≤ first) (σ : Stack π) (n k : ℕ) :
    Delivered (σ.poscall func first n k) func k ((List.range n).map fun i => σ (first + i)) := by
  induction n generalizing func first k σ with
  | zero => exact delivered_fillNil σ func k
  | succ n ih =>
    rw [poscall]
    cases k with
    | zero => exact fun j hj => absurd hj (Nat.not_lt_zero j)
    | succ k =>
      have hk : ((k + 1 : ℕ) : ℤ) - 1 = k := by omega
      have hcopied : ∀ i, update σ func (σ first) (first + 1 + i) = σ (first + (i + 1)) := by
        intro i
        rw [update_of_ne (by omega), Nat.add_assoc, Nat.add_comm 1 i]
      have hrest := ih (Nat.succ_le_succ h) (update σ func (σ first)) k
      simp only [hcopied] at hrest
      rw [if_neg (by omega), hk, range_succ_eq_map, map_cons, map_map]
      refine .cons ?_ hrest
      rw [poscall_of_lt (Nat.lt_succ_self func), update_self]
      rfl

theorem Stack.push_range (σ : Stack π) (top : ℕ) (vs : List (Cell π)) :
    ((List.range vs.length).map fun i => σ.push top vs (top + i)) = vs := by
  induction vs generalizing σ top with
  | nil => rfl
  | cons v vs ih =>
    have hv : Stack.push (update σ top v) (top + 1) vs top = v := by
      rw [push_of_lt (Nat.lt_succ_self top), update_self]
    have hrest := ih (update σ top v) (top + 1)
    simp only [Nat.add_right_comm top 1] at hrest
    rw [length_cons, range_succ_eq_map, map_cons, map_map]
    exact congrArg₂ List.cons hv hrest

/-! ## The rounds that complete a call -/

section rounds

variable [DecidableEq π] {P : Program π} {last : ℕ} {maxLoop : BitVec 32} {s u : Machine π}
  {a : Answer π} {l : List (Frame π)} {xs : List (Call π)} {k : ℕ}

section

omit [DecidableEq π]

theorem callC_delivered (hle : s.ra ≤ s.argTop) (hb : s.instr.b = k + 1)
    (h : callC last s a = .ok u) : Delivered u.stack s.ra k a.results := by
  rw [callC] at h
  split at h
  · split at h <;> cases h
    have hk : (s.instr.b : ℤ) - 1 = k := by omega
    have hdel := Stack.poscall_delivered hle (s.stack.push s.argTop a.results) a.results.length k
    rw [Stack.push_range] at hdel
    simp only [hk]
    exact hdel
  · cases h

theorem delivered_update_iff {σ : Stack π} {ra : ℕ} {v : Cell π} {results : List (Cell π)}
    (hlen : results.length ≤ 1)
    (hv : match results[0]? with
      | some w => v = w
      | none => v.tag = .nil) :
    Delivered (update σ ra v) ra k results ↔ Padded σ ra k := by
  have hnone : ∀ j, 1 ≤ j → results[j]? = none := fun j hj =>
    getElem?_eq_none (by omega)
  constructor
  · intro h j hj hlt
    have hcell := h j hlt
    rw [hnone j hj] at hcell
    dsimp only at hcell
    rwa [update_of_ne (by omega)] at hcell
  · rintro h (_ | j) hlt
    · rw [Nat.add_zero, update_self]
      exact hv
    · rw [hnone (j + 1) (by omega)]
      dsimp only
      rw [update_of_ne (by omega)]
      exact h (j + 1) (by omega) hlt

theorem Recorded.ret {x : Call π} (h : Recorded P last s l (x :: xs))
    (hk : s.instr.op.kind = .ret0 ∨ s.instr.op.kind = .ret1) {c : ℕ} (hc : s.func ≤ c) {v : Cell π}
    (hs : Vm.ret P s c v = .ok u) :
    x.caller.ra = s.func ∧ (u.base = x.caller.base ∧ u.pc = x.caller.next) ∧
      ∀ d < x.caller.ra, ¬ x.assigned d → u.stack d = x.caller.stack d := by
  obtain ⟨hg, hw⟩ := h
  obtain ⟨l', hm, -⟩ : ∃ l', Moves P last 0 s l u l' ∧ Good P last u l' := ret_moves hg hk hc v hs
  have hstack := ret_stack hs
  have hret : Returns s := hk
  cases hw with
  | @cons _ g q _ _ _ hfunc hb hpc hfn hra hbelow hlt _ =>
    obtain ⟨g', q', hl, -, hbase', hpc'⟩ := hm.of_returns hret
    cases hl
    refine ⟨hra, ⟨by rw [hbase', hb], by rw [hpc', Machine.next, Machine.goto, hpc]⟩,
      fun d hd hnot => ?_⟩
    rw [hra] at hd
    rw [hstack, update_of_ne (by omega)]
    exact hbelow d hd hnot

end

end rounds

section runs

variable [DecidableEq π] {P : Program π} {last : ℕ} {maxLoop : BitVec 32} {σ : Stack π} {func : ℕ}
  {main : π} {s u : Machine π} {a : Answer π} {xs : List (Call π)}

/-- **Run lemma.** -/
theorem Recorded.reach (h : (vmCalls P last maxLoop σ func main).Reach
    (fun s _ => FixedBase s.1) (s, xs)) : ∃ l, Recorded P last s l xs := by
  refine Lib.System.Reach.record_invariant (S := vm P last maxLoop σ func main)
    (fun s _ => FixedBase s) (fun s xs => ∃ l, Recorded P last s l xs) ?_ ?_ h
  · exact ⟨[], Good.enter .., .nil _⟩
  rintro t ys a t' ⟨l, hr⟩ ha hfixed hs
  obtain ⟨l', -, hr'⟩ := hr.step ha hfixed hs
  exact ⟨l', hr'⟩

/-- **The results of a call**: in a run in which functions that were called with variable arguments
call no functions of the program, a call that asks for `k` results goes on behind the `CALL` in the
frame of its caller. The cells below the register `A` are as they were, other than those that were
assigned through upvalues. The registers from `A` on hold the results padded with nil if and only if
a C function was called, or the function that returns has left nil in the cells behind the first
one; a result of `RET1` is delivered by a function with a fixed parameter list. -/
theorem call_delivers_iff (h : (vmCalls P last maxLoop σ func main).Reach
      (fun s _ => FixedBase s.1) (s, xs)) {x : Call π} {results : List (Cell π)}
    (hc : Completes s a xs x results) (hs : dispatch P last maxLoop s a = .ok u) {k : ℕ}
    (hb : x.caller.instr.b = k + 1)
    (hbase : s.instr.op.kind = .ret1 → 0 < k → s.base = s.func + 1) :
    (Delivered u.stack x.caller.ra k results ↔
        s.instr.op.kind = .call ∨ Padded s.stack x.caller.ra k) ∧
      (u.base = x.caller.base ∧ u.pc = x.caller.next) ∧
      ∀ c < x.caller.ra, ¬ x.assigned c → u.stack c = x.caller.stack c := by
  obtain ⟨l, hr⟩ := Recorded.reach h
  cases hc with
  | cfunc hk htag =>
    have hcall : callC last s a = .ok u := by
      simpa only [dispatch, hk, htag] using hs
    have hle := hr.good.ra_le_argTop hk
    refine ⟨iff_of_true (callC_delivered hle hb hcall) (.inl hk), ?_, fun c hlt _ => ?_⟩
    · rw [callC] at hcall
      split at hcall
      · split at hcall <;> cases hcall
        exact ⟨rfl, rfl⟩
      · cases hcall
    · exact callC_stack hle hlt hcall
  | ret0 hxs hk =>
    subst hxs
    have hret : ret P s s.func (s.stack s.func).setNil = .ok u := by
      simpa only [dispatch, hk] using hs
    obtain ⟨hra, hframe, hbelow⟩ := hr.ret (.inl hk) (le_refl _) hret
    refine ⟨?_, hframe, hbelow⟩
    rw [or_iff_right (by rw [hk]; decide), ret_stack hret, hra]
    exact delivered_update_iff (Nat.zero_le 1) rfl
  | ret1 hxs hk =>
    subst hxs
    have hret : ret P s (s.base - 1) (s.stack s.ra) = .ok u := by
      simpa only [dispatch, hk] using hs
    have hle : s.func ≤ s.base - 1 := by
      have := hr.good.func_lt
      omega
    obtain ⟨hra, hframe, hbelow⟩ := hr.ret (.inr hk) hle hret
    refine ⟨?_, hframe, hbelow⟩
    rw [or_iff_right (by rw [hk]; decide)]
    rcases Nat.eq_zero_or_pos k with rfl | hpos
    · exact iff_of_true (fun j hj => absurd hj (Nat.not_lt_zero j)) fun j _ hj =>
        absurd hj (Nat.not_lt_zero j)
    · rw [ret_stack hret, hra, hbase hk hpos, Nat.add_sub_cancel]
      exact delivered_update_iff (le_refl 1) rfl

end runs

/-- What the compiler makes of `var a, b = arch()`, with `arch` as a C function. -/
def twoOfC : Program Unit := fun _ =>
  .ofKeeps 2 true [⟨.funcv, 2, 0⟩, ⟨.gget, 0, 0⟩, .abc .call 0 3 1, ⟨.ret0, 0, 1⟩] (4 - ·)
    (by decide) (by decide)

/-- The C function returns one value; `b` is nil. -/
theorem call_delivers_iff_twoOfC : ∃ (s u : Machine Unit) (x : Call Unit),
    s = x.caller ∧ x.caller.instr.b = 3 ∧ u.pc = x.caller.next ∧
      Delivered u.stack x.caller.ra 2 [.data] := by
  have hfixed : ∀ {s : Machine Unit}, s.base = s.func + 1 → FixedBase s := fun h _ _ => h
  have h0 : (vmCalls twoOfC 120 100000 (fun _ => .data) 0 ()).Reach
      (fun s _ => FixedBase s.1) (_, _) := .init
  have h1 := h0.step (Allowed.store (r := 0) (by decide) ⟨none, .cfunc, nofun⟩) (hfixed rfl) rfl
  obtain ⟨hdel, hframe, -⟩ :=
    call_delivers_iff h1 (.cfunc (a := ⟨false, false, [], [.data]⟩) rfl rfl)
    rfl (k := 2) rfl nofun
  exact ⟨_, _, _, rfl, rfl, hframe.2, hdel.mpr (.inl rfl)⟩

/-- The functions of `function f() { return 1 } var a, b = f()`. -/
inductive TwoWanted where
  | main
  | f
  deriving DecidableEq, Repr

/-- What the compiler makes of it: the register of `b` is the one register of `f`. -/
def twoWanted : Program TwoWanted
  | .main => .ofKeeps 3 true [⟨.funcv, 3, 0⟩, ⟨.fnew, 0, 0⟩, ⟨.mov, 1, 0⟩, .abc .call 1 3 1,
      ⟨.ret0, 0, 1⟩] (5 - ·) (by decide) (by decide)
  | .f => returnOne .f

/-- `b` is the number that `f` has loaded, and not nil. -/
theorem second_result_not_nil : ∃ (s u : Machine TwoWanted) (xs : List (Call TwoWanted))
    (x : Call TwoWanted) (results : List (Cell TwoWanted)),
    (vmCalls twoWanted 120 100000 (fun _ => .data) 0 .main).Reach
      (fun s _ => FixedBase s.1) (s, xs) ∧ Completes s .none xs x results ∧
    dispatch twoWanted 120 100000 s .none = .ok u ∧ x.caller.instr.b = 2 + 1 ∧
    ¬ Delivered u.stack x.caller.ra 2 results := by
  have hfixed : ∀ {s : Machine TwoWanted}, s.base = s.func + 1 → FixedBase s := fun h _ _ => h
  have h0 : (vmCalls twoWanted 120 100000 (fun _ => .data) 0 .main).Reach
      (fun s _ => FixedBase s.1) (_, _) := .init
  have h1 := h0.step (Allowed.store (r := 0) (by decide) (.func .f)) (hfixed rfl) rfl
  have h2 := h1.step (Allowed.store (r := 1) (by decide) (.func .f)) (hfixed rfl) rfl
  have h3 := h2.step (Allowed.none _) (hfixed rfl) rfl
  have h4 := h3.step (Allowed.store (r := 0) (by decide) .data) (hfixed rfl) rfl
  refine ⟨_, _, _, _, _, h4, .ret1 rfl rfl, rfl, rfl, fun hdel => ?_⟩
  have hcell : (Tag.data : Tag TwoWanted) = .nil := hdel 1 (by decide)
  cases hcell

end Ktap.Vm
