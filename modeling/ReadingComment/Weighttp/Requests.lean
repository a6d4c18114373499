import ReadingComment.Weighttp.Books

/-!
# The accounting of requests

Whatever the system calls answer and in whatever order events come, the counters of a
worker add up, and a request that was started is either one that a client works on
or was counted, once. The worker leaves its loop when all requests were counted.

What is not certain is that a request comes to be counted at all. When a `read`
fails, the state machine sets the state of the client to `CLIENT_ERROR` and stays
in its loop, where after a failed `write` it goes on to count the request; so with
reads that fail for ever `client_state_machine` does not return.
-/

namespace Weighttp

namespace Worker

/-! ## Whether the state machine returns -/

/-- The worker after some answers; when the state machine has returned nothing happens any more. -/
def after (w : Worker) (s : ℕ → Answer) : ℕ → Except Fault Worker
  | 0 => .ok w
  | n + 1 => do
    let w ← w.after s n
    w.answer (s n)

/-- `client_state_machine` returns. -/
def Returns (w : Worker) (s : ℕ → Answer) : Prop :=
  ∃ n w', w.after s n = .ok w' ∧ w'.busy = none

end Worker

/-- `read` fails. -/
def Answer.ReadFails (a : Answer) : Prop := ∃ e, a.read = .error e

/-- No call is interrupted for ever. -/
structure Calm (s : ℕ → Answer) : Prop where
  socket : ∀ n, ∃ m, n ≤ m ∧ (s m).socket ≠ .error .eintr
  connect : ∀ n, ∃ m, n ≤ m ∧ (s m).connect ≠ .error .eintr
  write : ∀ n, ∃ m, n ≤ m ∧ (s m).write ≠ .error .eintr

namespace Worker

section Returns

variable {w v : Worker} {s : ℕ → Answer} {n i : ℕ}

theorem after_succ {v' : Worker} (hn : w.after s n = .ok v) (hv : v.answer (s n) = .ok v') :
    w.after s (n + 1) = .ok v' := by
  rw [after, hn]
  exact hv

theorem after_wait {P : Answer → Prop} {Q : Worker → Prop}
    (hstay : ∀ v a, Q v → ¬ P a → ∃ v', v.answer a = .ok v' ∧ Q v') (hn : w.after s n = .ok v)
    (hv : Q v) (hp : ∃ m, n ≤ m ∧ P (s m)) :
    ∃ m v', w.after s m = .ok v' ∧ Q v' ∧ P (s m) := by
  obtain ⟨m, hm, hp⟩ := hp
  obtain ⟨d, rfl⟩ := Nat.exists_eq_add_of_le hm
  induction d generalizing n v with
  | zero => exact ⟨n, v, hn, hv, hp⟩
  | succ d ih =>
    rcases Classical.em (P (s n)) with hnow | hnot
    · exact ⟨n, v, hn, hv, hnow⟩
    · obtain ⟨v', hv', hq⟩ := hstay v (s n) hv hnot
      have hp' : P (s (n + 1 + d)) := by
        rw [Nat.add_right_comm]
        exact hp
      exact ih (after_succ hn hv') hq (Nat.le_add_right _ _) hp'

theorem after_wait_self {P : Answer → Prop} (hstay : ∀ a, ¬ P a → v.answer a = .ok v)
    (hn : w.after s n = .ok v) (hp : ∃ m, n ≤ m ∧ P (s m)) :
    ∃ m, w.after s m = .ok v ∧ P (s m) := by
  have hstay' : ∀ u a, u = v → ¬ P a → ∃ u', u.answer a = .ok u' ∧ u' = v := by
    rintro u a rfl ha
    exact ⟨u, hstay a ha, rfl⟩
  obtain ⟨m, v', hm, rfl, hpm⟩ := after_wait hstay' hn rfl hp
  exact ⟨m, hm, hpm⟩

def left (w : Worker) : ℕ := w.stats.reqTodo - w.stats.reqStarted

theorem atEnd_cases (w : Worker) (i : ℕ) (hle : w.stats.reqStarted ≤ w.stats.reqTodo) :
    (w.atEnd i).busy = none ∨
    (((w.atEnd i).busy = some (i, .write) ∨ (w.atEnd i).busy = some (i, .socket)) ∧
      (w.atEnd i).stats.reqStarted ≤ (w.atEnd i).stats.reqTodo ∧ (w.atEnd i).left < w.left) := by
  obtain ⟨htodo, hstarted, -, -⟩ := countDone_spec (w.conn i)
  rw [atEnd]
  split
  · exact .inl rfl
  · rename_i hne
    refine .inr ⟨again_busy (w.count i) i, ?_⟩
    rw [left, left, again_stats]
    show (countDone (w.conn i)).reqStarted + 1 ≤ (countDone (w.conn i)).reqTodo ∧
      (countDone (w.conn i)).reqTodo - ((countDone (w.conn i)).reqStarted + 1) <
        w.stats.reqTodo - w.stats.reqStarted
    rw [htodo, hstarted]
    show w.stats.reqStarted + 1 ≤ w.stats.reqTodo ∧
      w.stats.reqTodo - (w.stats.reqStarted + 1) < w.stats.reqTodo - w.stats.reqStarted
    omega

def ReturnsBelow (w : Worker) (s : ℕ → Answer) (k : ℕ) : Prop :=
  ∀ n v i c, w.after s n = .ok v → v.busy = some (i, c) → c ≠ .read →
    v.stats.reqStarted ≤ v.stats.reqTodo → v.left < k → w.Returns s

variable {k : ℕ} {a : Answer}

theorem ReturnsBelow.atEnd (h : w.ReturnsBelow s k) (hn : w.after s n = .ok (v.atEnd i))
    (hle : v.stats.reqStarted ≤ v.stats.reqTodo) (hk : v.left ≤ k) : w.Returns s := by
  rcases atEnd_cases v i hle with hidle | ⟨hb | hb, hle', hleft⟩
  · exact ⟨n, _, hn, hidle⟩
  · exact h n _ i _ hn hb nofun hle' (Nat.lt_of_lt_of_le hleft hk)
  · exact h n _ i _ hn hb nofun hle' (Nat.lt_of_lt_of_le hleft hk)

theorem ReturnsBelow.atError (h : w.ReturnsBelow s k) (hn : w.after s n = .ok (v.atError i))
    (hle : v.stats.reqStarted ≤ v.stats.reqTodo) (hk : v.left ≤ k) : w.Returns s :=
  h.atEnd (v := v.put i (clientError (v.conn i))) hn hle hk

theorem answer_socket_again {v : Worker} (hb : v.busy = some (i, .socket))
    (ha : a.socket = .error .eintr) : v.answer a = .ok v := by
  rw [Worker.answer, hb]
  simp only [ha]

theorem answer_connect_again {v : Worker} {first : Bool} (hb : v.busy = some (i, .connect first))
    (ha : a.connect = .error .eintr) :
    v.answer a = .ok v := by
  rw [Worker.answer, hb]
  simp only [ha]

theorem answer_write_again {v : Worker} (hb : v.busy = some (i, .write))
    (ha : a.write = .error .eintr) : v.answer a = .ok v := by
  rw [Worker.answer, hb]
  simp only [ha]

variable (hcalm : Calm s)

include hcalm

section

variable (h : w.ReturnsBelow s k) (hn : w.after s n = .ok v)

include h hn

theorem ReturnsBelow.write (hb : v.busy = some (i, .write))
    (hle : v.stats.reqStarted ≤ v.stats.reqTodo) (hk : v.left ≤ k) : w.Returns s := by
  obtain ⟨m, hm, hans⟩ := after_wait_self
    (fun _ hp => answer_write_again hb (Classical.not_not.mp hp)) hn (hcalm.write n)
  have hnext : ∀ v', v.answer (s m) = .ok v' → w.after s (m + 1) = .ok v' := fun _ => after_succ hm
  rw [Worker.answer, hb] at hnext
  simp only at hnext
  split at hnext
  · rename_i heq
    exact absurd heq hans
  · exact h.atError (hnext _ rfl) hle hk
  · exact h.atEnd (hnext _ rfl) hle hk
  · exact ⟨m + 1, _, hnext _ rfl, rfl⟩

theorem ReturnsBelow.connect {first : Bool} (hb : v.busy = some (i, .connect first))
    (hle : v.stats.reqStarted ≤ v.stats.reqTodo) (hk : v.left ≤ k) : w.Returns s := by
  obtain ⟨m, hm, hans⟩ := after_wait_self
    (fun _ hp => answer_connect_again hb (Classical.not_not.mp hp)) hn (hcalm.connect n)
  have hconnected : ∀ state, w.after s (m + 1) = .ok (v.connected i first state) →
      w.Returns s := by
    intro state hm'
    cases first with
    | true => exact ⟨m + 1, _, hm', rfl⟩
    | false => exact h.write hcalm (v := v.connected i false state) hm' rfl hle hk
  have hnext : ∀ v', v.answer (s m) = .ok v' → w.after s (m + 1) = .ok v' := fun _ => after_succ hm
  rw [Worker.answer, hb] at hnext
  simp only at hnext
  split at hnext
  · exact hconnected _ (hnext _ rfl)
  · rename_i heq
    exact absurd heq hans
  · exact h.atError (hnext _ rfl) hle hk
  · exact hconnected _ (hnext _ rfl)
  · exact hconnected _ (hnext _ rfl)

theorem ReturnsBelow.socket (hb : v.busy = some (i, .socket))
    (hle : v.stats.reqStarted ≤ v.stats.reqTodo) (hk : v.left ≤ k) : w.Returns s := by
  obtain ⟨m, hm, hans⟩ := after_wait_self
    (fun _ hp => answer_socket_again hb (Classical.not_not.mp hp)) hn (hcalm.socket n)
  have hnext : ∀ v', v.answer (s m) = .ok v' → w.after s (m + 1) = .ok v' := fun _ => after_succ hm
  rw [Worker.answer, hb] at hnext
  simp only at hnext
  split at hnext
  · rename_i heq
    exact absurd heq hans
  · exact h.atError (hnext _ rfl) hle hk
  · exact h.connect hcalm (v := (v.putClient i { v.client i with watched := true }).calls i
      (.connect true)) (hnext _ rfl) rfl hle hk

end

theorem returnsBelow (w : Worker) (k : ℕ) : w.ReturnsBelow s k := by
  induction k with
  | zero =>
    intro n v i c _ _ _ _ hlt
    exact absurd hlt (Nat.not_lt_zero _)
  | succ k ih =>
    intro n v i c hn hb hc hle hlt
    have hk : v.left ≤ k := Nat.le_of_lt_succ hlt
    cases c with
    | socket => exact ih.socket hcalm hn hb hle hk
    | connect first => exact ih.connect hcalm hn hb hle hk
    | write => exact ih.write hcalm hn hb hle hk
    | read => exact absurd rfl hc

omit hcalm in
theorem answer_read_fails (hb : v.busy = some (i, .read)) (ha : a.ReadFails) :
    ∃ v', v.answer a = .ok v' ∧ v'.busy = some (i, .read) ∧ v'.stats = v.stats := by
  obtain ⟨e, he⟩ := ha
  rw [Worker.answer, hb]
  simp only [he]
  cases e with
  | eintr => exact ⟨v, rfl, hb, rfl⟩
  | _ => exact ⟨_, rfl, hb, rfl⟩

omit hcalm in
theorem after_reads_fail (hb : w.busy = some (i, .read)) (hs : ∀ n, (s n).ReadFails) (n : ℕ) :
    ∃ v, w.after s n = .ok v ∧ v.busy = some (i, .read) ∧ v.stats = w.stats := by
  induction n with
  | zero => exact ⟨w, rfl, hb, rfl⟩
  | succ n ih =>
    obtain ⟨v, hn, hv, hstats⟩ := ih
    obtain ⟨v', hv', hb', hstats'⟩ := answer_read_fails hv (hs n)
    exact ⟨v', after_succ hn hv', hb', hstats'.trans hstats⟩

theorem returns_of_read (hn : w.after s n = .ok v) (hb : v.busy = some (i, .read))
    (hle : v.stats.reqStarted ≤ v.stats.reqTodo) (hread : ¬ (s n).ReadFails)
    (hsafe : ∀ n e, w.after s n ≠ .error e) : w.Returns s := by
  have hbelow : w.ReturnsBelow s v.left := returnsBelow hcalm w v.left
  have hnext : ∀ r, v.answer (s n) = r → w.after s (n + 1) = r := by
    intro r hr
    rw [after, hn]
    exact hr
  rw [Worker.answer, hb] at hnext
  simp only at hnext
  split at hnext
  · rename_i heq
    exact absurd ⟨_, heq⟩ hread
  · rename_i heq
    exact absurd ⟨_, heq⟩ hread
  · have hm := hnext _ rfl
    simp only [readNothing] at hm
    split at hm
    · exact hbelow.atEnd (v := v.putClient i (disconnected (v.client i))) hm hle (Nat.le_refl _)
    · exact hbelow.atError (v := v.putClient i (disconnected (v.client i))) hm hle (Nat.le_refl _)
  · rename_i b bytes _
    cases hr : received v.cfg (b :: bytes) (v.conn i) with
    | error e =>
      refine absurd (hnext (.error e) ?_) (hsafe (n + 1) e)
      rw [readBytes, hr]
      rfl
    | ok r =>
      obtain ⟨c, ok⟩ := r
      have hstats : v.stats.SameRequests c.stats := (received_kept hr).1
      have hle' : (v.put i c).stats.reqStarted ≤ (v.put i c).stats.reqTodo := by
        show c.stats.reqStarted ≤ c.stats.reqTodo
        rw [hstats.started, hstats.todo]
        exact hle
      have hleft : (v.put i c).left ≤ v.left := by
        show c.stats.reqTodo - c.stats.reqStarted ≤ _
        rw [hstats.started, hstats.todo]
        exact Nat.le_refl _
      have hm := hnext _ rfl
      rw [readBytes, hr] at hm
      cases ok with
      | false => exact hbelow.atError (v := v.put i c) hm hle' hleft
      | true =>
        have hm' : w.after s (n + 1) = .ok (if c.client.state = .atEnd then (v.put i c).atEnd i
          else (v.put i c).returns) := hm
        split at hm'
        · exact hbelow.atEnd hm' hle' hleft
        · exact ⟨n + 1, _, hm', rfl⟩

/-- **When the state machine returns**: if reads do not fail for ever. -/
theorem returns_iff (hle : w.stats.reqStarted ≤ w.stats.reqTodo)
    (hsafe : ∀ n e, w.after s n ≠ .error e) :
    w.Returns s ↔ ∀ i, w.busy = some (i, .read) → ∃ n, ¬ (s n).ReadFails := by
  constructor
  · rintro ⟨n, v, hn, hidle⟩ i hb
    by_contra hfail
    have hs : ∀ n, (s n).ReadFails := fun n => Classical.not_not.mp (not_exists.mp hfail n)
    obtain ⟨v', hv', hb', -⟩ := after_reads_fail hb hs n
    obtain rfl := Except.ok.inj (hn.symm.trans hv')
    rw [hidle] at hb'
    cases hb'
  · intro hreads
    cases hb : w.busy with
    | none => exact ⟨0, w, rfl, hb⟩
    | some b =>
      obtain ⟨i, c⟩ := b
      rcases eq_or_ne c .read with rfl | hc
      · obtain ⟨n, hread⟩ := hreads i hb
        have hstay : ∀ (v : Worker) (a : Answer), v.busy = some (i, .read) ∧ v.stats = w.stats →
            ¬ ¬ a.ReadFails → ∃ v', v.answer a = .ok v' ∧
              v'.busy = some (i, .read) ∧ v'.stats = w.stats := by
          rintro v a ⟨hv, hstats⟩ ha
          obtain ⟨v', hv', hb', hstats'⟩ := answer_read_fails hv (Classical.not_not.mp ha)
          exact ⟨v', hv', hb', hstats'.trans hstats⟩
        obtain ⟨m, v, hm, ⟨hv, hstats⟩, hread'⟩ :=
          after_wait (n := 0) hstay rfl ⟨hb, rfl⟩ ⟨n, Nat.zero_le n, hread⟩
        exact returns_of_read hcalm hm hv (hstats ▸ hle) hread' hsafe
      · exact returnsBelow hcalm w (w.left + 1) 0 w i c rfl hb hc hle (Nat.lt_succ_self _)

end Returns

/-! ## The accounting -/

/-- **The accounts are right**: requests that ended have succeeded or failed, and each request that
was started was counted once, or there is one client that works on it. -/
structure Accounted (w : Worker) : Prop where
  ended : w.stats.reqDone = w.stats.reqSuccess + w.stats.reqFailed
  done_le : w.stats.reqDone ≤ w.stats.reqStarted
  started_le : w.stats.reqStarted ≤ w.stats.reqTodo
  length : w.counted.length = w.stats.reqDone
  once : (w.counted : Multiset ℕ) + w.working.val.map w.serial = Multiset.range w.stats.reqStarted

theorem Inv.accounted {w : Worker} (h : w.Inv) : w.Accounted := by
  refine ⟨h.books.ended, ?_, h.books.bound, h.books.length, h.books.once⟩
  rw [h.books.started]
  exact Nat.le_add_right _ _

theorem Inv.counted_perm {w : Worker} (h : w.Inv) (hdone : w.stats.reqDone = w.stats.reqTodo) :
    w.counted.Perm (List.range w.stats.reqTodo) := by
  have hstarted := h.books.started
  have hbound := h.books.bound
  have hnone : w.working = ∅ := Finset.card_eq_zero.mp (by omega)
  have honce := h.books.once
  rw [hnone, Finset.empty_val, Multiset.map_zero, Multiset.add_zero] at honce
  have heq : w.stats.reqStarted = w.stats.reqTodo := by
    rw [hstarted, hnone, Finset.card_empty, hdone, Nat.add_zero]
  rw [heq] at honce
  exact Multiset.coe_eq_coe.mp honce

end Worker

/-- **The accounting of a worker.** In every run the accounts are right and the loop is left when
all requests were counted; and a callback, as long as no other call is interrupted for ever and the
parser stays in its buffer and comes to an end, returns if and only if its reads do not fail for
ever. -/
theorem request_accounting {cfg : Config} {numClients numRequests : ℕ} {w : Worker}
    (h : (workerSystem cfg numClients numRequests).Reach (fun _ _ => True) w) :
    w.Accounted ∧
    (w.phase = .stopped →
      w.stats.reqDone = w.stats.reqTodo ∧ w.counted.Perm (List.range w.stats.reqTodo)) ∧
    ∀ s, Calm s → (∀ n e, w.after s n ≠ .error e) →
      (w.Returns s ↔ ∀ i, w.busy = some (i, .read) → ∃ n, ¬ (s n).ReadFails) := by
  have hinv : w.Inv := by
    refine h.invariant (Worker.workerNew_inv cfg numClients numRequests) ?_
    exact fun _ _ _ hinv hallowed _ hstep => hinv.act hallowed hstep
  refine ⟨hinv.accounted, ?_, ?_⟩
  · intro hstop
    have hdone := (hinv.stop hstop).2
    exact ⟨hdone, hinv.counted_perm hdone⟩
  · intro s hcalm hsafe
    exact Worker.returns_iff hcalm hinv.books.bound hsafe

/-- Everything goes well, and then `read` has this to say. -/
def sendsThen (read : Except Errno (List Char)) : Answer where
  socket := .ok ()
  connect := .ok ()
  write := .ok 10
  read := read
  text := []

theorem sendsThen_calm (read : Except Errno (List Char)) : Calm fun _ => sendsThen read := by
  refine ⟨fun n => ⟨n, Nat.le_refl n, nofun⟩, fun n => ⟨n, Nat.le_refl n, nofun⟩,
    fun n => ⟨n, Nat.le_refl n, nofun⟩⟩

theorem after_ok {s : ℕ → Answer} (hs : ∀ n b bytes, (s n).read ≠ .ok (b :: bytes)) (w : Worker)
    (n : ℕ) : ∃ v, w.after s n = .ok v := by
  induction n with
  | zero => exact ⟨w, rfl⟩
  | succ n ih =>
    obtain ⟨v, hn⟩ := ih
    suffices h : ∃ v', v.answer (s n) = .ok v' by
      obtain ⟨v', hv'⟩ := h
      exact ⟨v', Worker.after_succ hn hv'⟩
    rw [Worker.answer]
    split
    · exact ⟨_, rfl⟩
    · split <;> exact ⟨_, rfl⟩
    · split <;> exact ⟨_, rfl⟩
    · split <;> exact ⟨_, rfl⟩
    · split
      · exact ⟨_, rfl⟩
      · exact ⟨_, rfl⟩
      · exact ⟨_, rfl⟩
      · rename_i b bytes heq
        exact absurd heq (hs n b bytes)

theorem reads_first_response (read : Except Errno (List Char)) :
    ∃ w, (workerSystem ⟨false, 10⟩ 1 1).Reach (fun _ _ => True) w ∧ w.stats.reqStarted = 1 ∧
      w.stats.reqDone = 0 ∧ w.busy = some (0, .read) := by
  have h₁ : (workerSystem ⟨false, 10⟩ 1 1).Reach (fun _ _ => True) _ :=
    .step (a := .launch) .init ⟨rfl, 0, rfl⟩ trivial rfl
  have h₂ := h₁.next (.answer (sendsThen read)) nofun trivial rfl
  have h₃ := h₂.next (.answer (sendsThen read)) nofun trivial rfl
  have h₄ := h₃.next .launch ⟨rfl, 1, rfl⟩ trivial rfl
  have h₅ := h₄.next (.event 0) ⟨rfl, rfl, Nat.one_pos, rfl⟩ trivial rfl
  have h₆ := h₅.next (.answer (sendsThen read)) nofun trivial rfl
  have h₇ := h₆.next (.event 0) ⟨rfl, rfl, Nat.one_pos, rfl⟩ trivial rfl
  exact ⟨_, h₇, rfl, rfl, rfl⟩

/-- The other side closes the connection, and the state machine returns. -/
theorem request_accounting_closed :
    ∃ w, (workerSystem ⟨false, 10⟩ 1 1).Reach (fun _ _ => True) w ∧ w.busy = some (0, .read) ∧
      w.Accounted ∧ w.Returns fun _ => sendsThen (.ok []) := by
  obtain ⟨w, hreach, -, -, hb⟩ := reads_first_response (.ok [])
  obtain ⟨haccounted, -, hreturns⟩ := request_accounting hreach
  refine ⟨w, hreach, hb, haccounted, ?_⟩
  rw [hreturns _ (sendsThen_calm _)]
  · exact fun _ _ => ⟨0, nofun⟩
  · intro n e herr
    obtain ⟨v, hv⟩ := after_ok (s := fun _ => sendsThen (.ok [])) nofun w n
    rw [hv] at herr
    cases herr

/-- Reads that fail: the request was started, and it is never counted. -/
theorem request_never_counted :
    ∃ w s, (workerSystem ⟨false, 10⟩ 1 1).Reach (fun _ _ => True) w ∧ Calm s ∧
      w.stats.reqStarted = 1 ∧ ∀ n, ∃ v, w.after s n = .ok v ∧ v.busy = some (0, .read) ∧
        v.stats.reqStarted = 1 ∧ v.stats.reqDone = 0 := by
  obtain ⟨w, hreach, hstarted, hdone, hb⟩ := reads_first_response (.error .other)
  refine ⟨w, fun _ => sendsThen (.error .other), hreach, sendsThen_calm _, hstarted, ?_⟩
  intro n
  obtain ⟨v, hv, hb', hstats⟩ := Worker.after_reads_fail
    (s := fun _ => sendsThen (.error .other)) hb (fun _ => ⟨.other, rfl⟩) n
  exact ⟨v, hv, hb', hstats ▸ hstarted, hstats ▸ hdone⟩

end Weighttp
