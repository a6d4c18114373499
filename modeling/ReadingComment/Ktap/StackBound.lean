import ReadingComment.Ktap.Frames

/-!
# The bound on the stack (`runtime/kp_vm.c`)

`checkstack` guards the calls. A tail call puts its frame in place of the caller's
without it, and a return sets the top from the frame size of the function that returns
(`pt`), not of the one that it returns to. A run in which these do no harm keeps the top
at the end of the frame and the frame inside the stack.
-/

namespace Ktap.Vm

variable {π : Type} (P : Program π) (last : ℕ)

/-- The top is at the end of the frame of the function being executed, inside the stack. -/
structure Bounded (s : Machine π) : Prop where
  top_eq : s.top = s.base + (P s.fn).framesize
  le_last : s.base + (P s.fn).framesize ≤ last

/-- The rounds that keep the bound. -/
structure StackFine (s : Machine π) : Prop where
  /-- a function that was called with variable arguments makes no calls -/
  fixed : FixedBase s
  /-- behind variable arguments there is room for the frame -/
  varargs : ∀ p, Callee s .call p → (P p).vararg → Checkstack last s.argTop (P p).framesize →
    callBase P p s.ra s.argTop + (P p).framesize ≤ last
  /-- there is room for the frame of a tail call, and its parameters are read inside the stack -/
  tail : ∀ p, Callee s .callt p → s.base + (P p).framesize ≤ last ∧
    s.ra + (P p).numparams < last
  /-- the function that returns last entered a frame of the size of the caller's -/
  ret : ∀ q, s.instr.op.kind = .ret0 ∨ s.instr.op.kind = .ret1 →
    (s.stack s.func).tag = .pcr (some q) → (P s.pt).framesize = (P q.proto).framesize

/-- The cells of the stack that a round reads or writes. -/
inductive Touches (s : Machine π) (a : Answer π) : ℕ → Prop where
  | register {r : ℕ} : r ∈ s.instr.reads ++ s.instr.writes → Touches s a (s.base + r)
  /-- "complete missing arguments" -/
  | missing {p : π} {c : ℕ} : Callee s .call p → Checkstack last s.argTop (P p).framesize →
    s.argTop ≤ c → c < s.ra + 1 + (P p).numparams → Touches s a c
  /-- `adjust_varargs`, where the parameters are and where they go to -/
  | fixed {p : π} {c : ℕ} : Callee s .call p → Checkstack last s.argTop (P p).framesize →
    (P p).vararg → s.ra + 1 ≤ c → c < s.ra + 1 + (P p).numparams → Touches s a c
  | moved {p : π} {c : ℕ} : Callee s .call p → Checkstack last s.argTop (P p).framesize →
    (P p).vararg → callBase P p s.ra s.argTop ≤ c →
    c < callBase P p s.ra s.argTop + (P p).numparams → Touches s a c
  /-- what a C function pushes, and where `poscall` moves it -/
  | pushed {c : ℕ} : s.instr.op.kind = .call → Checkstack last s.argTop ktapMinReservedStackSize →
    s.argTop ≤ c → c < s.argTop + a.results.length → Touches s a c
  | result {c : ℕ} : s.instr.op.kind = .call → Checkstack last s.argTop ktapMinReservedStackSize →
    s.ra ≤ c → c < s.ra + a.results.length → Touches s a c
  /-- the arguments of a tail call, and where they are moved -/
  | argument {p : π} {c : ℕ} : Callee s .callt p → s.ra ≤ c → c ≤ s.ra + (P p).numparams →
    Touches s a c
  | parameter {p : π} {c : ℕ} : Callee s .callt p → s.func ≤ c → c ≤ s.func + (P p).numparams →
    Touches s a c
  /-- the cell of a function that returns, and that below its registers -/
  | returned : s.instr.op.kind = .ret0 ∨ s.instr.op.kind = .ret1 → Touches s a s.func
  | result1 : s.instr.op.kind = .ret1 → Touches s a (s.base - 1)

section bound

variable {P last} {maxLoop : BitVec 32} {s s' : Machine π} {a : Answer π} {l : List (Frame π)}

theorem StackFine.callBase_le (hg : Good P last s l) (hfine : StackFine P last s) {p : π}
    (hp : Callee s .call p) (hcheck : Checkstack last s.argTop (P p).framesize) :
    callBase P p s.ra s.argTop + (P p).framesize ≤ last := by
  by_cases hv : (P p).vararg
  · exact hfine.varargs p hp hv hcheck
  · have hle := hg.ra_le_argTop hp.kind_eq
    rw [Checkstack] at hcheck
    rw [callBase, if_neg hv]
    omega

theorem params_le_callBase (p : π) (func top : ℕ) :
    func + 1 + (P p).numparams ≤ callBase P p func top + (P p).framesize := by
  have := (P p).numparams_le
  rw [callBase, completeTop]
  split <;> omega

theorem Bounded.touches_lt (hb : Bounded P last s) (hg : Good P last s l)
    (hfine : StackFine P last s) (ha : Allowed s a) {c : ℕ} (h : Touches P last s a c) :
    c < last := by
  have hle := hb.le_last
  have hfunc := hg.func_lt
  cases h with
  | register hr =>
    have hlt := hg.patched.reg_lt hg.inside hr
    rw [hg.fn_eq] at hle
    omega
  | @missing p _ hp hcheck _ hc | @fixed p _ hp hcheck _ _ hc =>
    have h1 := hfine.callBase_le hg hp hcheck
    have h2 := params_le_callBase (P := P) p s.ra s.argTop
    omega
  | @moved p _ hp hcheck _ _ hc =>
    have h1 := hfine.callBase_le hg hp hcheck
    have h2 := (P p).numparams_le
    omega
  | pushed _ hcheck _ hc =>
    have hlen := ha.results
    rw [Checkstack] at hcheck
    omega
  | result hk hcheck _ hc =>
    have hlen := ha.results
    have hra := hg.ra_le_argTop hk
    rw [Checkstack] at hcheck
    omega
  | argument hp _ hc =>
    have := (hfine.tail _ hp).2
    omega
  | @parameter p _ hp _ hc =>
    have h1 := (hfine.tail _ hp).1
    have h2 := (P p).numparams_le
    omega
  | returned _ => omega
  | result1 _ => omega

theorem StackFine.stackOverflow [DecidableEq π] (hg : Good P last s l)
    (hfine : StackFine P last s) {p : π} (hp : Callee s .call p)
    (hlt : last < callBase P p s.ra s.argTop + (P p).framesize) (a : Answer π) :
    dispatch P last maxLoop s a = .error .stackOverflow := by
  have hnot : ¬ Checkstack last s.argTop (P p).framesize := fun hcheck =>
    absurd (hfine.callBase_le hg hp hcheck) (by omega)
  simp only [dispatch, hp.kind_eq, hp.tag_eq, hp.val_eq]
  rw [callFunc, if_neg hnot]

/-- The frames are in order and all of them inside the stack. -/
structure InBounds (P : Program π) (last : ℕ) (s : Machine π) (l : List (Frame π)) : Prop where
  good : Good P last s l
  bounded : Bounded P last s
  waiting : ∀ x ∈ l, x.func + 1 + (P x.pc.proto).framesize ≤ last

/-- **Step lemma** for the bound. -/
theorem InBounds.step [DecidableEq π] (h : InBounds P last s l) (ha : Allowed s a)
    (hfine : StackFine P last s) (hs : dispatch P last maxLoop s a = .ok s') :
    ∃ l', InBounds P last s' l' := by
  obtain ⟨hg, hb, hw⟩ := h
  obtain ⟨l', hm, hg'⟩ := dispatch_moves hg ha hfine.fixed hs
  refine ⟨l', hg', ?_, ?_⟩
  · have hfn := hg.fn_eq
    have hfn' := hg'.fn_eq
    cases hm with
    | inside _ hpc _ hbase htop _ _ =>
      have hsame : s'.fn = s.fn := by
        rw [hfn', hpc, hfn]
        rfl
      exact ⟨by rw [htop, hbase, hsame, hb.top_eq], by rw [hbase, hsame]; exact hb.le_last⟩
    | @call _ _ p hp hcheck hpc _ hbase htop _ _ =>
      have hsame : s'.fn = p := by rw [hfn', hpc]
      refine ⟨by rw [htop, hsame], ?_⟩
      rw [hsame, hbase]
      exact hfine.callBase_le hg hp hcheck
    | @callt _ _ p hp hpc _ hbase htop _ _ =>
      have hsame : s'.fn = p := by rw [hfn', hpc]
      exact ⟨by rw [htop, hbase, hsame], by rw [hbase, hsame]; exact (hfine.tail p hp).1⟩
    | @ret _ _ g q hk htag hpc _ hbase htop _ _ =>
      have hsame : s'.fn = q.proto := by rw [hfn', hpc]
      refine ⟨by rw [htop, hbase, hsame, hfine.ret q hk htag], ?_⟩
      rw [hbase, hsame]
      exact hw ⟨g, q⟩ List.mem_cons_self
  · cases hm with
    | inside => exact hw
    | call hp =>
      intro x hx
      rcases List.mem_cons.mp hx with rfl | hx
      · have hle := hb.le_last
        rw [hfine.fixed hp.kind_eq hp.tag_eq, hg.fn_eq] at hle
        exact hle
      · exact hw x hx
    | callt => exact hw
    | ret => exact fun x hx => hw x (List.mem_cons_of_mem _ hx)

/-- **Run lemma.** -/
theorem InBounds.reach [DecidableEq π] {σ : Stack π} {func : ℕ} {main : π}
    (hentry : func + 1 + (P main).framesize ≤ last)
    (h : (vm P last maxLoop σ func main).Reach (fun s _ => StackFine P last s) s) :
    ∃ l, InBounds P last s l := by
  apply Lib.System.Reach.invariant ?_ ?_ h
  · exact ⟨[], Good.enter .., ⟨rfl, hentry⟩, nofun⟩
  · rintro s a s' ⟨l, hin⟩ ha hfine hs
    exact hin.step ha hfine hs

/-- **The stack bound**: in a run whose rounds all keep it, the top is at the end of the frame and
the frame inside the stack; no round touches a cell behind the stack, and a call that would is
reported as a stack overflow. -/
theorem stack_bounded [DecidableEq π] {σ : Stack π} {func : ℕ} {main : π}
    (hentry : func + 1 + (P main).framesize ≤ last)
    (h : (vm P last maxLoop σ func main).Reach (fun s _ => StackFine P last s) s) :
    (s.top = s.base + (P s.fn).framesize ∧ s.base + (P s.fn).framesize ≤ last) ∧
      (StackFine P last s → ∀ a, Allowed s a →
        (∀ c, Touches P last s a c → c < last) ∧
        ∀ p, Callee s .call p → last < callBase P p s.ra s.argTop + (P p).framesize →
          dispatch P last maxLoop s a = .error .stackOverflow) := by
  obtain ⟨l, hg, hb, _⟩ := InBounds.reach hentry h
  exact ⟨⟨hb.top_eq, hb.le_last⟩, fun hfine a ha =>
    ⟨fun _ hc => hb.touches_lt hg hfine ha hc, fun _ hp hlt => hfine.stackOverflow hg hp hlt a⟩⟩

theorem StackFine.of_kind (hcall : s.instr.op.kind ≠ .call) (hcallt : s.instr.op.kind ≠ .callt)
    (hret : ¬ (s.instr.op.kind = .ret0 ∨ s.instr.op.kind = .ret1)) : StackFine P last s :=
  ⟨fun hk => absurd hk hcall, fun _ hp => absurd hp.kind_eq hcall,
    fun _ hp => absurd hp.kind_eq hcallt, fun _ hk => absurd hk hret⟩

end bound

/-- The functions of `function f() { return 1 } f()`. -/
inductive ReturnOne where
  | main
  | f
  deriving DecidableEq, Repr

/-- What the compiler makes of it: `f` has one register and the main function two. -/
def returnOne : Program ReturnOne
  | .main => .ofKeeps 2 true [⟨.funcv, 2, 0⟩, ⟨.fnew, 0, 0⟩, ⟨.mov, 1, 0⟩, .abc .call 1 1 1,
      ⟨.ret0, 0, 1⟩] (5 - ·) (by decide) (by decide)
  | .f => .ofKeeps 1 false [⟨.funcf, 1, 0⟩, ⟨.kshort, 0, 1⟩, ⟨.ret1, 0, 2⟩] (3 - ·)
      (by decide) (by decide)

def Answer.store {π : Type} (c : ℕ) (v : Cell π) : Answer π := ⟨false, false, [(c, v)], []⟩

def Answer.none {π : Type} : Answer π := ⟨false, false, [], []⟩

theorem Allowed.none {π : Type} (s : Machine π) : Allowed s .none := ⟨nofun, Nat.zero_le _⟩

theorem Allowed.store {π : Type} {s : Machine π} {r : ℕ} (hr : r ∈ s.instr.writes) (v : Cell π) :
    Allowed s (.store (s.base + r) v) := by
  refine ⟨fun w hw => .inl ⟨r, hr, ?_⟩, Nat.zero_le _⟩
  rw [List.mem_singleton.mp hw]

/-- The bound in the frame of `f`, where `main` has called it. -/
theorem stack_bounded_returnOne :
    ∃ s : Machine ReturnOne, s.func = 2 ∧ s.fn = .f ∧ (s.top = s.base + (returnOne s.fn).framesize ∧
      s.base + (returnOne s.fn).framesize ≤ 120) := by
  have h0 : (vm returnOne 120 100000 (fun _ => .data) 0 .main).Reach
      (fun s _ => StackFine returnOne 120 s) _ := .init
  have h1 := h0.step (Allowed.store (r := 0) (by decide) (.func .f))
    (.of_kind (by decide) (by decide) (by decide)) rfl
  have h2 := h1.step (Allowed.store (r := 1) (by decide) (.func .f))
    (.of_kind (by decide) (by decide) (by decide)) rfl
  have h3 := h2.step (Allowed.none _)
    ⟨fun _ _ => rfl, fun p hp => (by cases hp.val_eq; nofun), fun _ hp => (nomatch hp.kind_eq),
      fun _ hk => absurd hk (by decide)⟩ rfl
  exact ⟨_, rfl, rfl, (stack_bounded (by decide) h3).1⟩

/-- `f` has returned: the top is at the end of a frame of its own size. -/
theorem top_after_return :
    ∃ s, (vm returnOne 120 100000 (fun _ => .data) 0 .main).Reach (fun _ _ => True) s ∧
      s.top ≠ s.base + (returnOne s.fn).framesize := by
  have h0 : (vm returnOne 120 100000 (fun _ => .data) 0 .main).Reach (fun _ _ => True) _ := .init
  have h1 := h0.step (Allowed.store (r := 0) (by decide) (.func .f)) trivial rfl
  have h2 := h1.step (Allowed.store (r := 1) (by decide) (.func .f)) trivial rfl
  have h3 := h2.step (Allowed.none _) trivial rfl
  have h4 := h3.step (Allowed.store (r := 0) (by decide) .data) trivial rfl
  have h5 := h4.step (Allowed.none _) trivial rfl
  exact ⟨_, h5, by decide⟩

end Ktap.Vm
