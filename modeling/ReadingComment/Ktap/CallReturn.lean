import ReadingComment.Ktap.StackBound

/-!
# Calls and returns (`runtime/kp_vm.c`)

A run is recorded with the calls that wait for their return: for each the state of the
machine at the call and the cells that were assigned through upvalues since. The record
follows the chain of frames on the stack, so a return finds the frame of the last call
again. Its caller finds the cells below the result as they were, other than those that
an inner function has assigned.
-/

namespace Ktap.Vm

open Function

variable {π : Type} [DecidableEq π]

/-- A call of a function that has not returned. -/
structure Call (π : Type) where
  /-- the state at the call -/
  caller : Machine π
  /-- the cells that were assigned through upvalues since -/
  assigned : ℕ → Prop

omit [DecidableEq π] in
def Assigns (s : Machine π) (a : Answer π) (c : ℕ) : Prop :=
  s.instr.op.setsUpval = true ∧ ∃ w ∈ a.stores, w.1 = c

omit [DecidableEq π] in
def Calls (s : Machine π) : Prop := s.instr.op.kind = .call ∧ (s.stack s.ra).tag = .func

instance (s : Machine π) : Decidable (Calls s) :=
  inferInstanceAs (Decidable (_ ∧ _))

section

omit [DecidableEq π]

def Returns (s : Machine π) : Prop := s.instr.op.kind = .ret0 ∨ s.instr.op.kind = .ret1

instance (s : Machine π) : Decidable (Returns s) :=
  inferInstanceAs (Decidable (_ ∨ _))

def Call.note (s : Machine π) (a : Answer π) (x : Call π) : Call π :=
  { x with assigned := fun c => x.assigned c ∨ Assigns s a c }

end

def record (s : Machine π) (a : Answer π) (xs : List (Call π)) : List (Call π) :=
  let xs := xs.map (.note s a)
  if Calls s then ⟨s, fun _ => False⟩ :: xs
  else if Returns s then xs.tail
  else xs

/-- The runs of `kp_vm_call` with their calls. -/
def vmCalls (P : Program π) (last : ℕ) (maxLoop : BitVec 32) (σ : Stack π) (func : ℕ) (main : π) :
    Lib.System (Machine π × List (Call π)) (Answer π) Stop :=
  (vm P last maxLoop σ func main).record [] record

omit [DecidableEq π] in
def FixedParams (P : Program π) (s : Machine π) : Prop :=
  ∀ p, Callee s .call p → (P p).vararg = false

omit [DecidableEq π] in
theorem Caller.eq_or_le {C : Code π} {σ : Stack π} {f c : ℕ} (h : Caller C σ f c) :
    c = f ∨ ∃ q, (σ f).tag = .pcr (some q) ∧ c ≤ f - (C.get q).a - 1 := by
  cases h with
  | self => exact .inl rfl
  | up htag hrest => exact .inr ⟨_, htag, hrest.le⟩

/-! ## What a round does to the stack -/

section stack

variable {P : Program π} {last : ℕ} {maxLoop : BitVec 32} {s s' : Machine π} {a : Answer π}
  {l : List (Frame π)}

section

omit [DecidableEq π]

theorem write_eq_of_lt (ha : Allowed s a) {c : ℕ} (hc : c < s.base) (hnot : ¬ Assigns s a c) :
    s.stack.write a.stores c = s.stack c := by
  apply Stack.write_of_ne
  rintro w hw rfl
  rcases ha.stores w hw with ⟨r, _, hr⟩ | ⟨hup, _⟩
  · omega
  · exact hnot ⟨hup, w, hw, rfl⟩

theorem hotLoop_stack {t : Machine π} (h : hotLoop maxLoop s t = .ok s') : s'.stack = t.stack := by
  rw [hotLoop] at h
  split at h <;> cases h
  rfl

theorem ret_stack {c : ℕ} {v : Cell π} (h : ret P s c v = .ok s') :
    s'.stack = update s.stack c v := by
  rw [ret] at h
  split at h
  · cases h
  · rw [doReturn] at h
    split at h
    · split at h <;> cases h
      rfl
    · cases h
  · cases h

theorem callC_stack (hle : s.ra ≤ s.argTop) {c : ℕ} (hc : c < s.ra) (h : callC last s a = .ok s') :
    s'.stack c = s.stack c := by
  rw [callC] at h
  split at h
  · split at h <;> cases h
    exact (Stack.poscall_of_lt hc ..).trans (Stack.push_of_lt (lt_of_lt_of_le hc hle) ..)
  · cases h

theorem callFunc_stack (hg : Good P last s l) (hk : s.instr.op.kind = .call) {p : π} {c : ℕ}
    (hc : c < s.ra) (h : callFunc P last s p = .ok s') : s'.stack c = s.stack c := by
  rw [callFunc] at h
  split at h <;> cases h
  exact (update_of_ne hc.ne ..).trans (callStack_of_lt hc (hg.ra_le_argTop hk))

end

/-- **Frame lemma**: below the cell of the function being executed, the stack changes only through
upvalues. -/
theorem dispatch_stack (hg : Good P last s l) (ha : Allowed s a)
    (h : dispatch P last maxLoop s a = .ok s') {c : ℕ} (hc : c < s.func)
    (hnot : ¬ Assigns s a c) : s'.stack c = s.stack c := by
  have hwrite := write_eq_of_lt ha (hc.trans hg.func_lt) hnot
  have hra := hc.trans hg.func_lt_ra
  rw [dispatch] at h
  cases hk : s.instr.op.kind <;> simp only [hk] at h
  case store =>
    split at h <;> cases h
    exact hwrite
  case test =>
    split at h
    · cases h
    · split at h <;> cases h
      · exact hwrite
      · rfl
  case jump =>
    cases h
    rfl
  case call =>
    split at h
    · exact callC_stack (hg.ra_le_argTop hk) hra h
    · split at h
      · exact callFunc_stack hg hk hra h
      · cases h
    · cases h
  case callt =>
    split at h
    · cases h
    · split at h <;> cases h
      exact (Stack.moveArgs_of_le hc.le ..).trans (update_of_ne hc.ne ..)
    · cases h
  case itern =>
    split at h
    · rw [hotLoop_stack h]
      exact hwrite
    · rw [hotLoop_stack h]
  case isnext =>
    split at h <;> cases h
    · exact Stack.fillNil_of_lt _ hra
    · rfl
  case ret0 =>
    rw [ret_stack h]
    exact update_of_ne hc.ne ..
  case ret1 =>
    rw [ret_stack h]
    exact update_of_ne (by have := hg.func_lt; omega) ..
  case fori =>
    split at h
    · cases h
    · split at h <;> cases h
      · exact hwrite
      · rfl
  case forl =>
    split at h
    · rw [hotLoop_stack h]
      exact hwrite
    · rw [hotLoop_stack h]
  case loop => rw [hotLoop_stack h]
  case leave => cases h

end stack

/-! ## The calls follow the frames -/

omit [DecidableEq π] in
/-- The calls that wait are those of the frames, and the cells below their functions are as they
were at the call, or assigned. -/
inductive Waiting (σ : Stack π) : ℕ → List (Frame π) → List (Call π) → Prop where
  | nil (f : ℕ) : Waiting σ f [] []
  | cons {f g : ℕ} {q : Pc π} {l : List (Frame π)} {x : Call π} {xs : List (Call π)}
    (hfunc : x.caller.func = g) (hbase : x.caller.base = g + 1) (hpc : x.caller.pc = q)
    (hfn : x.caller.fn = q.proto) (hra : x.caller.ra = f)
    (hstack : ∀ c < f, ¬ x.assigned c → σ c = x.caller.stack c) (hlt : g < f) :
    Waiting σ g l xs → Waiting σ f (⟨g, q⟩ :: l) (x :: xs)

section waiting

variable {P : Program π} {last : ℕ} {maxLoop : BitVec 32} {s s' : Machine π} {a : Answer π}
  {l : List (Frame π)} {xs : List (Call π)}

section

omit [DecidableEq π]

theorem Waiting.tail {σ : Stack π} {f : ℕ} {y : Frame π} (h : Waiting σ f (y :: l) xs) :
    Waiting σ y.func l xs.tail := by
  cases h with
  | cons _ _ _ _ _ _ _ hrest => exact hrest

theorem Waiting.note {σ σ' : Stack π} {f : ℕ} (h : Waiting σ f l xs)
    (hσ : ∀ c < f, ¬ Assigns s a c → σ' c = σ c) : Waiting σ' f l (xs.map (.note s a)) := by
  induction h with
  | nil f => exact .nil f
  | cons hfunc hbase hpc hfn hra hstack hlt _ ih =>
    refine .cons hfunc hbase hpc hfn hra (fun c hc hnot => ?_) hlt
      (ih fun c hc => hσ c (hc.trans hlt))
    rw [hσ c hc fun h => hnot (.inr h)]
    exact hstack c hc fun h => hnot (.inl h)

/-- The frames are in order, and the calls follow them. -/
structure Recorded (P : Program π) (last : ℕ) (s : Machine π) (l : List (Frame π))
    (xs : List (Call π)) : Prop where
  good : Good P last s l
  waiting : Waiting s.stack s.func l xs

theorem Recorded.call (h : Recorded P last s l xs) (hfixed : FixedBase s) {p : π}
    (hp : Callee s .call p) (hs : callFunc P last s p = .ok s') :
    Recorded P last s' (⟨s.func, s.pc⟩ :: l) (⟨s, fun _ => False⟩ :: xs.map (.note s a)) := by
  obtain ⟨hg, hw⟩ := h
  have hk := hp.kind_eq
  obtain ⟨_, hg'⟩ : Moves P last 0 s l s' _ ∧ Good P last s' _ :=
    callFunc_moves hg hk hp.tag_eq hp.val_eq hfixed hs
  have hstack : ∀ c < s.ra, s'.stack c = s.stack c := fun c hc => callFunc_stack hg hk hc hs
  have hfunc : s'.func = s.ra := by
    rw [callFunc] at hs
    split at hs <;> cases hs
    rfl
  refine ⟨hg', ?_⟩
  rw [hfunc]
  refine .cons rfl (hfixed hk hp.tag_eq) rfl hg.fn_eq rfl (fun c hc _ => hstack c hc)
    hg.func_lt_ra ?_
  exact hw.note fun c hc _ => hstack c (hc.trans hg.func_lt_ra)

end

/-- **Step lemma**: the record follows the frames. -/
theorem Recorded.step (h : Recorded P last s l xs) (ha : Allowed s a) (hfixed : FixedBase s)
    (hs : dispatch P last maxLoop s a = .ok s') :
    ∃ l', Moves P last maxLoop s l s' l' ∧ Recorded P last s' l' (record s a xs) := by
  obtain ⟨l', hm, hg'⟩ := dispatch_moves h.good ha hfixed hs
  by_cases hcalls : Calls s
  · obtain ⟨hk, htag⟩ := hcalls
    obtain ⟨p, hval⟩ := Option.isSome_iff_exists.mp ((s.stack s.ra).isSome_of_func htag)
    have hcall : callFunc P last s p = .ok s' := by
      simpa only [dispatch, hk, htag, hval] using hs
    obtain ⟨hm, -⟩ := callFunc_moves h.good hk htag hval hfixed hcall
    rw [record, if_pos ⟨hk, htag⟩]
    exact ⟨_, hm, h.call hfixed ⟨hk, htag, hval⟩ hcall⟩
  · obtain ⟨hg, hw⟩ := h
    have hnote : Waiting s'.stack s.func l (xs.map (.note s a)) :=
      hw.note fun c hc hnot => dispatch_stack hg ha hs hc hnot
    refine ⟨l', hm, hg', ?_⟩
    rw [record, if_neg hcalls]
    cases hm with
    | inside hk _ hfunc =>
      have hnot : ¬ Returns s := by
        rw [Machine.successors_eq] at hk
        rintro (hr | hr) <;> simp [hr] at hk
      rw [if_neg hnot, hfunc]
      exact hnote
    | call hp => exact absurd ⟨hp.kind_eq, hp.tag_eq⟩ hcalls
    | callt hp _ hfunc =>
      have hnot : ¬ Returns s := by
        rintro (hr | hr) <;> simp [hp.kind_eq] at hr
      rw [if_neg hnot, hfunc]
      exact hnote
    | ret hk _ _ hfunc =>
      rw [if_pos (show Returns s from hk), hfunc]
      exact hnote.tail

omit [DecidableEq π] in
/-- The frames are in order, the base of each function stands behind its cell, and the calls follow
the frames. -/
structure Nested (P : Program π) (last : ℕ) (s : Machine π) (l : List (Frame π))
    (xs : List (Call π)) : Prop where
  good : Good P last s l
  base_eq : s.base = s.func + 1
  waiting : Waiting s.stack s.func l xs

omit [DecidableEq π] in
theorem FixedParams.callBase_eq (h : FixedParams P s) {p : π} (hp : Callee s .call p)
    (func top : ℕ) : callBase P p func top = func + 1 := by
  rw [callBase, h p hp]
  rfl

/-- **Step lemma**: with fixed parameter lists, the base of each function stays behind its cell. -/
theorem Nested.step (h : Nested P last s l xs) (ha : Allowed s a) (hfixed : FixedParams P s)
    (hs : dispatch P last maxLoop s a = .ok s') :
    ∃ l', Nested P last s' l' (record s a xs) := by
  obtain ⟨hg, hbase, hw⟩ := h
  obtain ⟨l', hm, hg', hw'⟩ := Recorded.step ⟨hg, hw⟩ ha (fun _ _ => hbase) hs
  refine ⟨l', hg', ?_, hw'⟩
  cases hm with
  | inside _ _ hfunc hbase' => rw [hbase', hfunc, hbase]
  | call hp _ _ hfunc hbase' => rw [hbase', hfunc, hfixed.callBase_eq hp]
  | callt _ _ hfunc hbase' => rw [hbase', hfunc, hbase]
  | ret _ _ _ hfunc hbase' => rw [hbase', hfunc]

end waiting

section runs

variable {P : Program π} {last : ℕ} {maxLoop : BitVec 32} {σ : Stack π} {func : ℕ} {main : π}
  {s u : Machine π} {a : Answer π} {xs : List (Call π)}

theorem exists_vmCalls {ok : Machine π → Answer π → Prop}
    (h : (vm P last maxLoop σ func main).Reach ok s) :
    ∃ xs, (vmCalls P last maxLoop σ func main).Reach (fun s a => ok s.1 a) (s, xs) :=
  h.record [] record

/-- **Run lemma.** -/
theorem Nested.reach (h : (vmCalls P last maxLoop σ func main).Reach
    (fun s _ => FixedParams P s.1) (s, xs)) : ∃ l, Nested P last s l xs := by
  refine Lib.System.Reach.record_invariant (S := vm P last maxLoop σ func main)
    (fun s _ => FixedParams P s) (fun s xs => ∃ l, Nested P last s l xs) ?_ ?_ h
  · exact ⟨[], Good.enter .., rfl, .nil _⟩
  rintro t ys a t' ⟨l, hn⟩ ha hfixed hs
  exact hn.step ha hfixed hs

omit [DecidableEq π] in
theorem Moves.of_returns {l l' : List (Frame π)} (hm : Moves P last maxLoop s l u l')
    (hret : Returns s) : ∃ g q, l = ⟨g, q⟩ :: l' ∧ u.func = g ∧ u.base = g + 1 ∧
      u.pc = ⟨q.proto, q.ix + 1⟩ := by
  cases hm with
  | inside hk =>
    rw [Machine.successors_eq] at hk
    rcases hret with hr | hr <;> simp [hr] at hk
  | call hp | callt hp => rcases hret with hr | hr <;> simp [hp.kind_eq] at hr
  | @ret _ _ g q _ _ hpc hfunc hbase => exact ⟨g, q, rfl, hfunc, hbase, hpc⟩

theorem returns_stack (hret : Returns s) (hbase : s.base = s.func + 1)
    (hs : dispatch P last maxLoop s a = .ok u) :
    u.stack = update s.stack s.func
      (if s.instr.op.kind = .ret1 then s.stack s.ra else (s.stack s.func).setNil) := by
  rcases hret with hk | hk
  · have hret0 : ret P s s.func (s.stack s.func).setNil = .ok u := by
      simpa only [dispatch, hk] using hs
    rw [ret_stack hret0, if_neg (by rw [hk]; decide)]
  · have hret1 : ret P s (s.base - 1) (s.stack s.ra) = .ok u := by
      simpa only [dispatch, hk] using hs
    rw [ret_stack hret1, if_pos hk, hbase, Nat.add_sub_cancel]

theorem exists_return (h : (vmCalls P last maxLoop σ func main).Reach
      (fun s _ => FixedParams P s.1) (s, xs)) (hxs : xs ≠ []) (hret : Returns s) (a : Answer π) :
    ∃ u, dispatch P last maxLoop s a = .ok u := by
  obtain ⟨l, hg, hbase, hw⟩ := Nested.reach h
  cases hw with
  | nil => exact absurd rfl hxs
  | @cons _ g q l' _ _ _ _ _ _ _ _ _ =>
    have hframes := hg.frames
    cases hframes with
    | call htag _ _ _ hfg _ hrest =>
      rw [← hg.patched.a_eq q] at hfg
      have hok : ∀ c, s.func ≤ c → ∀ v, ∃ u, ret P s c v = .ok u := by
        intro c hc v
        have hrest : Frames P last (update s.stack c v) g q.proto l' :=
          hrest.congr_le fun d hd => update_of_ne (by omega) ..
        rw [ret, htag]
        exact ⟨_, doReturn_eq hfg hrest.val_eq⟩
      rcases hret with hk | hk
      · simpa only [dispatch, hk] using hok s.func (le_refl _) _
      · simpa only [dispatch, hk] using hok (s.base - 1) (by omega) _

/-- **The call discipline**: in a run in which the functions that are called have fixed parameter
lists, a return to a function finds the last call that has not returned; it restores `func`, `base`
and the function as they were at that call, goes on behind it, and leaves the result in the register
`A` of the call. The cells below are as they were at the call, other than those that were assigned
through upvalues since. -/
theorem return_restores (h : (vmCalls P last maxLoop σ func main).Reach
      (fun s _ => FixedParams P s.1) (s, xs)) (ha : Allowed s a) (hret : Returns s)
    (hs : dispatch P last maxLoop s a = .ok u) :
    ∃ x xs', xs = x :: xs' ∧ (u.func = x.caller.func ∧ u.base = x.caller.base ∧
      u.fn = x.caller.fn ∧ u.pc = x.caller.next) ∧
      u.stack x.caller.ra =
        (if s.instr.op.kind = .ret1 then s.stack s.ra else (s.stack s.func).setNil) ∧
      ∀ c < x.caller.ra, ¬ x.assigned c → u.stack c = x.caller.stack c := by
  obtain ⟨l, hg, hbase, hw⟩ := Nested.reach h
  obtain ⟨l', hm, hg'⟩ := dispatch_moves hg ha (fun _ _ => hbase) hs
  obtain ⟨g, q, rfl, hfunc', hbase', hpc'⟩ := hm.of_returns hret
  have hstack' := returns_stack hret hbase hs
  cases hw with
  | @cons _ _ _ _ x xs' hfunc hb hpc hfn hra hstack hlt _ =>
    refine ⟨x, xs', rfl, ⟨by rw [hfunc', hfunc], by rw [hbase', hb], ?_, ?_⟩, ?_,
      fun c hc hnot => ?_⟩
    · rw [hg'.fn_eq, hpc', hfn]
    · rw [hpc', Machine.next, Machine.goto, hpc]
    · rw [hstack', hra, Function.update_self]
    · rw [hra] at hc
      rw [hstack', Function.update_of_ne hc.ne]
      exact hstack c hc hnot

end runs

/-- The return of `f` to the main function, with its result. -/
theorem return_restores_returnOne : ∃ (s u : Machine ReturnOne) (x : Call ReturnOne),
    s.func = 2 ∧ x.caller.func = 0 ∧ u.func = x.caller.func ∧ u.pc = x.caller.next ∧
      u.stack x.caller.ra = s.stack s.ra := by
  have hfixed : ∀ {s : Machine ReturnOne}, s.instr.op.kind ≠ .call → FixedParams returnOne s :=
    fun hk p hp => absurd hp.kind_eq hk
  have h0 : (vmCalls returnOne 120 100000 (fun _ => .data) 0 .main).Reach
      (fun s _ => FixedParams returnOne s.1) (_, _) := .init
  have h1 := h0.step (Allowed.store (r := 0) (by decide) (.func .f)) (hfixed (by decide)) rfl
  have h2 := h1.step (Allowed.store (r := 1) (by decide) (.func .f)) (hfixed (by decide)) rfl
  have h3 := h2.step (Allowed.none _) (fun p hp => (by cases hp.val_eq; rfl)) rfl
  have h4 := h3.step (Allowed.store (r := 0) (by decide) .data) (hfixed (by decide)) rfl
  obtain ⟨u, hu⟩ := exists_return h4 (List.cons_ne_nil _ _) (.inr rfl) .none
  obtain ⟨x, xs, hx, ⟨hfunc, _, _, hpc⟩, hres, _⟩ := return_restores h4 (.none _) (.inr rfl) hu
  cases hx
  exact ⟨_, u, _, rfl, rfl, hfunc, hpc, hres⟩

/-- The functions of `var x = 1; function f() { x = nil } f()`. -/
inductive Captured where
  | main
  | f
  deriving DecidableEq, Repr

/-- What the compiler makes of it: `x` is an upvalue of `f`. -/
def captured : Program Captured
  | .main => .ofKeeps 3 true [⟨.funcv, 3, 0⟩, ⟨.kshort, 0, 1⟩, ⟨.fnew, 1, 0⟩, ⟨.mov, 2, 1⟩,
      .abc .call 2 1 1, ⟨.uclo, 0, bcbiasJ⟩, ⟨.ret0, 0, 1⟩] (7 - ·)
      (by decide) (by decide)
  | .f => .ofKeeps 1 false [⟨.funcf, 1, 0⟩, ⟨.usetp, 0, 0⟩, ⟨.ret0, 0, 1⟩] (3 - ·)
      (by decide) (by decide)

/-- `f` assigns the register of `x` in the frame of its caller. -/
theorem captured_assigned :
    ∃ (s u : Machine Captured) (x : Call Captured) (xs : List (Call Captured)),
    (vmCalls captured 120 100000 (fun _ => .data) 0 .main).Reach
      (fun s _ => FixedParams captured s.1) (s, x :: xs) ∧ Returns s ∧
    dispatch captured 120 100000 s .none = .ok u ∧
    ∃ c, x.caller.base ≤ c ∧ c < x.caller.ra ∧ u.stack c ≠ x.caller.stack c := by
  have hfixed : ∀ {s : Machine Captured}, s.instr.op.kind ≠ .call → FixedParams captured s :=
    fun hk p hp => absurd hp.kind_eq hk
  have h0 : (vmCalls captured 120 100000 (fun _ => .data) 0 .main).Reach
      (fun s _ => FixedParams captured s.1) (_, _) := .init
  have h1 := h0.step (Allowed.store (r := 0) (by decide) .data) (hfixed (by decide)) rfl
  have h2 := h1.step (Allowed.store (r := 1) (by decide) (.func .f)) (hfixed (by decide)) rfl
  have h3 := h2.step (Allowed.store (r := 2) (by decide) (.func .f)) (hfixed (by decide)) rfl
  have h4 := h3.step (Allowed.none _) (fun p hp => (by cases hp.val_eq; rfl)) rfl
  have h5 := h4.step (a := .store 1 Cell.data.setNil)
    ⟨fun w hw => .inr ⟨rfl, ?_⟩, Nat.zero_le _⟩ (hfixed (by decide)) rfl
  · obtain ⟨u, hu⟩ := exists_return h5 (List.cons_ne_nil _ _) (.inl rfl) .none
    have hstack := returns_stack (.inl rfl) rfl hu
    refine ⟨_, u, _, _, h5, .inl rfl, hu, 1, by decide, by decide, fun h => ?_⟩
    rw [hstack, Function.update_of_ne (by decide)] at h
    exact nomatch congrArg Cell.tag h
  · -- the cell of `x` is neither that of `f` nor that of the main function
    intro hcaller
    rw [List.mem_singleton.mp hw] at hcaller
    rcases hcaller.eq_or_le with hc | ⟨q, hq, hc⟩
    · exact absurd hc (by decide)
    · obtain rfl : (⟨.main, 4⟩ : Pc Captured) = q := by
        cases hq
        rfl
      exact absurd hc (by decide)

end Ktap.Vm
