import ReadingComment.Lib.Potential
import ReadingComment.Spserver.PoolRuns

/-!
# Ends of the runs of a thread pool

Who has `mMainMutex` can go on: a caller asks for the mutex of a thread only when
this thread waits or is about to. So the threads of a pool never block each other,
and when nobody can go on, everything that was dispatched was executed. Without new
calls every step lowers a weight, so this end is reached.
-/

namespace Spserver.ThreadPool

open Function Lib List

variable {τ : Type}

namespace Pool

variable {p p' : Pool τ} {h h' : History τ} {S : Finset ℕ} {idle : List ℕ} {i t : ℕ} {task : τ}

/-! ## Ends of runs -/

def Action.Continues : Action τ → Prop
  | .dispatch _ _ => False
  | _ => True

def Blocked (p : Pool τ) : Prop := ∀ a : Action τ, a.Continues → ¬ p.Allowed a

def waitsFor (p : Pool τ) : Party → Option Mutex
  | .caller i => (p.caller i).waitsFor
  | .worker t => (p.worker t).waitsFor t

namespace Inv

section

variable (hinv : Inv p h S idle)

include hinv

theorem thread_free (hworker : (p.worker t).holds t (.thread t) = false)
    (hcaller : ∀ i, (p.caller i).holds (.thread t) = false) : p.mMutex t = none := by
  cases hm : p.mMutex t with
  | none => rfl
  | some x =>
    have hholds := (hinv.locks x (.thread t)).mpr hm
    cases x with
    | caller i =>
      rw [holds, hcaller i] at hholds
      cases hholds
    | worker u =>
      obtain rfl := WorkerPc.eq_of_holds hholds
      rw [holds, hworker] at hholds
      cases hholds

theorem lockThread_free (hi : p.caller i = .lockThread task t) (hsleep : p.worker t ≠ .sleep) :
    p.mMutex t = none := by
  obtain ⟨-, hworker, -⟩ := hinv.listed.given i task t (by rw [hi]; rfl)
  refine hinv.thread_free ?_ fun j => ?_
  · rw [hworker.resolve_left hsleep]
    rfl
  · rw [← Bool.not_eq_true]
    intro hj
    have hji := hinv.alone (i := i) (by rw [hi]; rfl) (CallerPc.main_of_holds hj)
    rw [hji, hi] at hj
    cases hj

/-- **No deadlock**: who has `mMainMutex` can go on. -/
theorem main_free (hblocked : p.Blocked) : p.mMainMutex = none := by
  cases hm : p.mMainMutex with
  | none => rfl
  | some x =>
    have hholds := (hinv.locks x .main).mpr hm
    exfalso
    cases x with
    | caller i =>
      rw [holds] at hholds
      have hstuck := hblocked (.caller i true) trivial
      cases hi : p.caller i with
      | idle | wait | lock | woken =>
        rw [hi] at hholds
        cases hholds
      | test | signal | unlockThread | unlock => simp [Allowed, hi] at hstuck
      | lockThread task t =>
        simp only [Allowed, hi] at hstuck
        refine hstuck (hinv.lockThread_free hi fun hsleep => ?_)
        exact hblocked (.worker t none) trivial (by simp [Allowed, hsleep])
    | worker t =>
      rw [holds] at hholds
      have hstuck := hblocked (.worker t none) trivial
      cases ht : p.worker t with
      | save | saveUnlock | exit => simp [Allowed, ht] at hstuck
      | signalIdle =>
        simp only [Allowed, ht] at hstuck
        refine hstuck fun i hi => ?_
        exact hblocked (.worker t (some i)) trivial (by simp only [Allowed, ht]; exact hi)
      | _ =>
        rw [ht] at hholds
        cases hholds

/-- **When nobody can go on**, nobody is in `dispatch` and every task was executed. -/
theorem executed (hblocked : p.Blocked) :
    (∀ i, p.caller i = .idle) ∧ (h.executed : Multiset τ) = h.dispatched := by
  have hmain := hinv.main_free hblocked
  have hfree : ∀ i, (p.caller i).holds .main = false := fun i =>
    hinv.locks.free (m := .main) hmain (.caller i)
  have hcaller : ∀ i, p.caller i = .idle ∨ p.Waiting i := by
    intro i
    have hnot := hfree i
    have hstuck := hblocked (.caller i true) trivial
    cases hi : p.caller i with
    | idle => exact .inl rfl
    | wait task => exact .inr ⟨task, hi⟩
    | lock | woken => simp [Allowed, hi, hmain] at hstuck
    | _ =>
      rw [hi] at hnot
      cases hnot
  have hworker : ∀ t, p.worker t = .absent ∨ p.worker t = .wait := by
    intro t
    have hstays := hinv.counts.stays t
    have hstuck := hblocked (.worker t none) trivial
    have hthread : (p.worker t).holds t (.thread t) = false → p.mMutex t = none := fun hnot =>
      hinv.thread_free hnot fun i => by
        rw [← Bool.not_eq_true]
        exact fun hholds => Bool.false_ne_true
          ((hfree i).symm.trans (CallerPc.main_of_holds hholds))
    have hnone : (p.worker t).holds t .main = false :=
      hinv.locks.free (m := .main) hmain (.worker t)
    cases ht : p.worker t with
    | absent => exact .inl rfl
    | wait => exact .inr rfl
    | gone | exitLock | exit | unlockFree =>
      rw [ht] at hstays
      cases hstays
    | save | signalIdle | saveUnlock =>
      rw [ht] at hnone
      cases hnone
    | lock | woken =>
      rw [ht] at hthread
      simp [Allowed, ht, hthread rfl] at hstuck
    | saveLock => simp [Allowed, ht, hmain] at hstuck
    | _ => simp [Allowed, ht] at hstuck
  have hlooking : ∑ i ∈ S, (p.caller i).looking = 0 := Finset.sum_eq_zero fun i _ => by
    rcases hcaller i with hi | ⟨task, hi⟩ <;> rw [hi] <;> rfl
  have hwaking : ∑ t ∈ Finset.range p.created, (p.worker t).waking = 0 :=
    Finset.sum_eq_zero fun t _ => by
      rcases hworker t with ht | ht <;> rw [ht] <;> rfl
  have hpending : ∑ i ∈ S, (p.caller i).pending = 0 := Finset.sum_eq_zero fun i _ => by
    rcases hcaller i with hi | ⟨task, hi⟩ <;> rw [hi] <;> rfl
  have hready : ∑ t ∈ Finset.range p.created, p.pendingOf t = 0 := Finset.sum_eq_zero fun t _ => by
    rcases hworker t with ht | ht <;> rw [pendingOf, ht] <;> rfl
  -- all threads are on the list, so nobody would wait for one
  have hidle : List.range p.created ⊆ idle := by
    intro t ht
    have hne : p.worker t ≠ .absent := fun habsent =>
      absurd ((hinv.counts.absent t).mp habsent) (Nat.not_le.mpr (mem_range.mp ht))
    have hwait := (hworker t).resolve_left hne
    refine (hinv.listed.handed t (by rw [hwait]; rfl)).resolve_right fun hhanding => ?_
    obtain ⟨i, task, hi⟩ := hhanding
    exact Bool.false_ne_true ((hfree i).symm.trans (CallerPc.main_of_handing hi))
  have hlen := (subperm_of_subset nodup_range hidle).length_le
  rw [length_range] at hlen
  refine ⟨fun i => (hcaller i).resolve_right fun hi => ?_, ?_⟩
  · have hlooked := hinv.awake.looked ⟨i, hi⟩
    have hcreated := hinv.awake.created ⟨i, hi⟩
    omega
  · have hacc := hinv.accounted
    rw [Accounted, hpending, hready, add_zero, add_zero] at hacc
    exact hacc.symm

/-- **No cycle**: a caller and a thread of the pool never wait for mutexes of each other. -/
theorem no_cycle {m m' : Mutex} (hi : p.waitsFor (.caller i) = some m)
    (hm : p.holder m = some (.worker t)) (ht : p.waitsFor (.worker t) = some m')
    (hm' : p.holder m' = some (.caller i)) : False := by
  have hholds := (hinv.locks (.caller i) m').mpr hm'
  have hworker := (hinv.locks (.worker t) m).mpr hm
  rw [waitsFor] at hi
  rw [waitsFor] at ht
  rw [holds] at hholds
  rw [holds] at hworker
  have hmain := CallerPc.main_of_holds hholds
  -- a caller that has a mutex waits for no other one than the mutex of a thread
  cases hc : p.caller i with
  | lockThread task u =>
    rw [hc] at hi
    cases hi
    obtain rfl := WorkerPc.eq_of_holds hworker
    obtain ⟨-, hquiet, -⟩ := hinv.listed.given i task t (by rw [hc]; rfl)
    rcases hquiet with hw | hw <;> rw [hw] at ht <;> cases ht
  | lock | woken =>
    rw [hc] at hmain
    cases hmain
  | _ =>
    rw [hc] at hi
    cases hi

end

end Inv

/-! ## Termination -/

def weight (p : Pool τ) (S : Finset ℕ) : ℕ :=
  ∑ i ∈ S, (p.caller i).weight + ∑ t ∈ Finset.range p.created, (p.worker t).weight

theorem weight_caller {pc : CallerPc τ} (hcaller : p'.caller = update p.caller i pc)
    (hworker : p'.worker = p.worker) (hcreated : p'.created = p.created) (hi : i ∈ S)
    (hlt : pc.weight < (p.caller i).weight) : p'.weight S < p.weight S := by
  have hsum := sum_exchange (s := S) (f := fun j => (p'.caller j).weight)
    (g := fun j => (p.caller j).weight) hi fun j hj => by rw [hcaller, update_of_ne hj]
  simp only [hcaller, update_self] at hsum
  rw [weight, weight, hworker, hcreated, hcaller]
  omega

theorem weight_worker {pc : WorkerPc} (hworker : p'.worker = update p.worker t pc)
    (hcaller : p'.caller = p.caller) (hcreated : p'.created = p.created) (ht : t < p.created)
    (hlt : pc.weight < (p.worker t).weight) : p'.weight S < p.weight S := by
  have hsum := sum_exchange (s := Finset.range p.created) (f := fun u => (p'.worker u).weight)
    (g := fun u => (p.worker u).weight) (Finset.mem_range.mpr ht) fun u hu => by
      rw [hworker, update_of_ne hu]
  simp only [hworker, update_self] at hsum
  rw [weight, weight, hcaller, hcreated, hworker]
  omega

theorem take_same {p₁ : Pool τ} (htake : p.take task = .ok (p₁, t)) :
    p₁.caller = p.caller ∧ p₁.worker = p.worker ∧ p₁.created = p.created := by
  rw [take] at htake
  cases hk : p.slot (p.mIndex - 1) with
  | error e =>
    rw [hk] at htake
    cases htake
  | ok k =>
    rw [hk] at htake
    simp only [bind, Except.bind] at htake
    split at htake
    · cases htake
    · split at htake
      · cases htake
      · cases htake
        exact ⟨rfl, rfl, rfl⟩

namespace Inv

theorem workerStep_weight (hinv : Inv p h S idle) {woken : Option ℕ}
    (hallowed : p.Allowed (.worker t woken)) (hstep : p.workerStep t woken = .ok p') :
    p'.weight S < p.weight S := by
  have hne : p.worker t ≠ .absent := fun ht => by simp [Allowed, ht] at hallowed
  have hlt := hinv.lt_created hne
  -- a step in which only this thread moves
  have hmove : ∀ {p₁ : Pool τ} {pc : WorkerPc}, p₁ = p' →
      p₁.worker = update p.worker t pc → p₁.caller = p.caller → p₁.created = p.created →
      pc.weight < (p.worker t).weight → p'.weight S < p.weight S := by
    rintro p₁ pc rfl hworker hcaller hcreated hpc
    exact weight_worker hworker hcaller hcreated hlt hpc
  cases ht : p.worker t with
  | absent | wait | gone => simp [Allowed, ht] at hallowed
  | test =>
    simp only [Pool.workerStep, ht, hinv.counts.running] at hstep
    obtain ⟨task, htask⟩ := Option.ne_none_iff_exists'.mp (hinv.counts.task t hlt)
    rw [htask] at hstep
    exact hmove (Except.ok.inj hstep) rfl rfl rfl (by rw [ht]; decide)
  | run =>
    simp only [Pool.workerStep, ht, hinv.counts.running] at hstep
    exact hmove (Except.ok.inj hstep) rfl rfl rfl (by rw [ht]; decide)
  | save =>
    obtain ⟨hlt', hslot, -⟩ := hinv.workerSave ht
    simp only [Pool.workerStep, ht, if_pos hlt', hslot] at hstep
    exact hmove (Except.ok.inj hstep) rfl rfl rfl (by rw [ht]; decide)
  | saveUnlock ret =>
    simp only [Pool.workerStep, ht] at hstep
    refine hmove (Except.ok.inj hstep) rfl rfl rfl ?_
    rw [ht]
    split <;> exact Nat.lt_succ_self 1
  | signalIdle =>
    simp only [Allowed, ht] at hallowed
    simp only [Pool.workerStep, ht] at hstep
    cases hstep
    cases woken with
    | none =>
      have hpc : (WorkerPc.saveUnlock 0).weight < (p.worker t).weight := by rw [ht]; decide
      exact weight_worker rfl rfl rfl hlt hpc
    | some i =>
      obtain ⟨task, hi⟩ := hallowed
      have hwake : p.wake (some i) = p.callerTo i (.woken task) := by rw [wake, hi]
      rw [hwake]
      have hm : CallerMoves p (p.callerTo i (.woken task)) i (.woken task) :=
        ⟨rfl, rfl, rfl, rfl, rfl, rfl, rfl, rfl, rfl⟩
      have hcallers := hm.sum (hinv.mem (by rw [hi]; rintro ⟨⟩)) CallerPc.weight
      have hworkers := (workerTo_moves (p.callerTo i (.woken task)) t (.saveUnlock 0)).sum hlt
        WorkerPc.weight
      have hold : (p.callerTo i (.woken task)).worker t = .signalIdle := ht
      have hwait : (CallerPc.wait task).weight = 16 := rfl
      have hwoken : (CallerPc.woken task).weight = 18 := rfl
      have hsignal : WorkerPc.signalIdle.weight = 5 := rfl
      have hunlock : (WorkerPc.saveUnlock 0).weight = 2 := rfl
      rw [hi, hwait, hwoken] at hcallers
      rw [hold, hsignal, hunlock] at hworkers
      change ∑ j ∈ S, ((p.callerTo i (.woken task)).caller j).weight + _ <
        _ + ∑ u ∈ Finset.range p.created, (p.worker u).weight
      change _ = ∑ u ∈ Finset.range p.created, (p.worker u).weight + 2 at hworkers
      omega
  | _ =>
    simp only [Pool.workerStep, ht] at hstep
    exact hmove (Except.ok.inj hstep) rfl rfl rfl (by rw [ht]; decide)

theorem callerStep_weight (hinv : Inv p h S idle) {creates : Bool}
    (hallowed : p.Allowed (.caller i creates)) (hstep : p.callerStep i creates = .ok p') :
    p'.weight S < p.weight S := by
  have hi' : i ∈ S := hinv.mem fun hi => by simp [Allowed, hi] at hallowed
  -- a step in which only this caller moves
  have hmove : ∀ {p₁ : Pool τ} {pc : CallerPc τ}, p₁ = p' →
      p₁.caller = update p.caller i pc → p₁.worker = p.worker → p₁.created = p.created →
      pc.weight < (p.caller i).weight → p'.weight S < p.weight S := by
    rintro p₁ pc rfl hcaller hworker hcreated hpc
    exact weight_caller hcaller hworker hcreated hi' hpc
  cases hi : p.caller i with
  | idle | wait => simp [Allowed, hi] at hallowed
  | lock task | woken task =>
    simp only [Pool.callerStep, hi] at hstep
    exact hmove (Except.ok.inj hstep) rfl rfl rfl (by rw [hi]; exact Nat.lt_succ_self 17)
  | test task =>
    have htest : (CallerPc.test task).weight = 17 := rfl
    simp only [Pool.callerStep, hi] at hstep
    split at hstep
    · exact hmove (Except.ok.inj hstep) rfl rfl rfl (by rw [hi]; exact Nat.lt_succ_self 16)
    · split at hstep
      · split at hstep
        · -- a new thread weighs less than the way of a caller to a thread that exists
          cases hstep
          have hcallers := sum_exchange hi' fun j hj => congrArg CallerPc.weight
            (update_of_ne hj (CallerPc.unlock 0) p.caller)
          have hworkers : ∑ t ∈ Finset.range p.created, ((p.create task).worker t).weight =
              ∑ t ∈ Finset.range p.created, (p.worker t).weight :=
            Finset.sum_congr rfl fun t ht => congrArg WorkerPc.weight
              (update_of_ne (Nat.ne_of_lt (Finset.mem_range.mp ht)) ..)
          have hnew : (p.create task).worker p.created = .test := update_self ..
          have hweight : WorkerPc.test.weight = 10 := rfl
          have hunlock : (CallerPc.unlock 0 : CallerPc τ).weight = 1 := rfl
          rw [hi, htest, update_self, hunlock] at hcallers
          change ∑ j ∈ S, (update p.caller i (.unlock 0) j).weight +
            ∑ t ∈ Finset.range (p.created + 1), ((p.create task).worker t).weight < _
          rw [Finset.sum_range_succ, hworkers, hnew, hweight, weight]
          omega
        · refine hmove (Except.ok.inj hstep) rfl rfl rfl ?_
          rw [hi, htest]
          exact (by decide : 1 < 17)
      · rename_i hnot hindex
        obtain ⟨p₁, t, idle', htake, -⟩ := hinv.callerTake hi hindex
        rw [htake] at hstep
        obtain ⟨hcaller, hworker, hcreated⟩ := take_same htake
        have hcaller' : (p₁.callerTo i (.lockThread task t)).caller =
            update p.caller i (.lockThread task t) := by rw [callerTo, hcaller]
        exact hmove (Except.ok.inj hstep) hcaller' hworker hcreated
          (by rw [hi]; exact Nat.lt_succ_self 16)
  | lockThread task t =>
    simp only [Pool.callerStep, hi] at hstep
    exact hmove (Except.ok.inj hstep) rfl rfl rfl (by rw [hi]; exact Nat.lt_succ_self 15)
  | signal task t =>
    have hwait := hinv.listed.signal i task t hi
    have hlt : t < p.created := hinv.lt_created (by rw [hwait]; rintro ⟨⟩)
    simp only [Pool.callerStep, hi, hwait, if_true] at hstep
    cases hstep
    have hcallers := sum_exchange hi' fun j hj => congrArg CallerPc.weight
      (signalled_caller_ne (p := p) (t := t) hj)
    have hworkers := sum_exchange (Finset.mem_range.mpr hlt) fun u hu => congrArg WorkerPc.weight
      (signalled_worker_ne (p := p) (i := i) hu)
    have hsignal : (CallerPc.signal task t).weight = 15 := rfl
    have hunlock : (CallerPc.unlockThread t : CallerPc τ).weight = 2 := rfl
    have hwait' : WorkerPc.wait.weight = 0 := rfl
    have hwoken : WorkerPc.woken.weight = 12 := rfl
    rw [signalled_caller_self, hi, hsignal, hunlock] at hcallers
    rw [signalled_worker_self, hwait, hwait', hwoken] at hworkers
    change ∑ j ∈ S, ((p.signalled i t).caller j).weight +
      ∑ u ∈ Finset.range p.created, ((p.signalled i t).worker u).weight < _
    rw [weight]
    omega
  | unlockThread t =>
    simp only [Pool.callerStep, hi] at hstep
    exact hmove (Except.ok.inj hstep) rfl rfl rfl (by rw [hi]; exact Nat.lt_succ_self 1)
  | unlock ret =>
    simp only [Pool.callerStep, hi] at hstep
    exact hmove (Except.ok.inj hstep) rfl rfl rfl (by rw [hi]; exact Nat.lt_succ_self 0)

end Inv

theorem reach_inv {maxThreads : ℤ}
    (hreach : (historySystem maxThreads).Reach (fun _ _ => True) (p, h)) :
    ∃ S idle, Inv p h S idle := by
  refine Lib.System.Reach.record_invariant (S := system maxThreads) (fun _ _ => True)
    (fun p h => ∃ S idle, Inv p h S idle) ⟨∅, [], .init maxThreads⟩
    (fun p h a p' ⟨S, idle, hinv⟩ hallowed _ hstep => ?_) hreach
  obtain ⟨p₁, S', idle', hrun, hnext⟩ := hinv.next hallowed
  obtain rfl := Except.ok.inj (hrun.symm.trans hstep)
  exact ⟨S', idle', hnext⟩

theorem steps_le {maxThreads : ℤ} (hinv : Inv p h S idle) {n : ℕ} {x : Pool τ × History τ}
    (hsteps : (historySystem maxThreads).Steps (fun _ a => a.Continues) n (p, h) x) :
    n ≤ p.weight S := by
  have hlower : ∀ (x : Pool τ × History τ) a x' v,
      (∃ idle, Inv x.1 x.2 S idle ∧ x.1.weight S = v) →
      (historySystem maxThreads).Allowed x a → a.Continues →
      (historySystem maxThreads).step x a = .ok x' →
      ∃ v' < v, ∃ idle, Inv x'.1 x'.2 S idle ∧ x'.1.weight S = v' := by
    rintro ⟨q, k⟩ a ⟨q', k'⟩ v ⟨idle, hq, rfl⟩ hallowed hcontinues hstep
    change Inv q k S idle at hq
    change q.Allowed a at hallowed
    change (q.step a).map _ = _ at hstep
    cases a with
    | dispatch i task => exact hcontinues.elim
    | caller i creates =>
      obtain ⟨q₁, idle', hrun, hnext⟩ := hq.callerStep hallowed
      change (q.callerStep i creates).map _ = _ at hstep
      rw [hrun] at hstep
      cases hstep
      exact ⟨_, hq.callerStep_weight hallowed hrun, idle', hnext, rfl⟩
    | worker t woken =>
      obtain ⟨q₁, idle', hrun, hnext⟩ := hq.workerStep hallowed
      change (q.workerStep t woken).map _ = _ at hstep
      rw [hrun] at hstep
      cases hstep
      exact ⟨_, hq.workerStep_weight hallowed hrun, idle', hnext, rfl⟩
  obtain ⟨v, -, hle⟩ := hsteps.le hlower ⟨idle, hinv, rfl⟩
  exact (Nat.le_add_right n v).trans hle

/-- **The thread pool**: in every interleaving, no step goes wrong; a task is executed at most as
often as it was dispatched; a run without new calls comes to an end, and when nobody can go on,
nobody is in `dispatch` and exactly the tasks that were dispatched were executed; the threads of the
list exist and execute nothing; the counts are in order; and a caller and a thread of the pool never
wait for mutexes of each other. -/
theorem dispatched_once {maxThreads : ℤ}
    (hreach : (historySystem maxThreads).Reach (fun _ _ => True) (p, h)) :
    (∀ a, p.Allowed a → ∃ p', p.step a = .ok p') ∧
    (h.executed : Multiset τ) ≤ h.dispatched ∧
    (∃ bound, ∀ n x, (historySystem maxThreads).Steps (fun _ a => a.Continues) n (p, h) x →
      n ≤ bound) ∧
    (p.Blocked → (∀ i, p.caller i = .idle) ∧ (h.executed : Multiset τ) = h.dispatched) ∧
    (∀ k : ℕ, (k : ℤ) < p.mIndex → ∃ t, p.mThreadList k = some t ∧
      p.worker t ≠ .absent ∧ p.worker t ≠ .run) ∧
    (0 ≤ p.mIndex ∧ p.mIndex ≤ p.mTotal ∧ p.mTotal ≤ p.mMaxThreads) ∧
    ∀ i t m m', p.waitsFor (.caller i) = some m → p.holder m = some (.worker t) →
      p.waitsFor (.worker t) = some m' → p.holder m' ≠ some (.caller i) := by
  obtain ⟨S, idle, hinv⟩ := reach_inv hreach
  have hindex := hinv.listed.index
  have htotal := hinv.counts.total
  have hle := hinv.length_le
  refine ⟨fun a hallowed => ?_, ?_, ⟨p.weight S, fun n x => steps_le hinv⟩, hinv.executed,
    fun k hk => ?_, ⟨by omega, by omega, hinv.counts.le⟩,
    fun i t m m' hi hm ht hm' => hinv.no_cycle hi hm ht hm'⟩
  · obtain ⟨p', -, -, hrun, -⟩ := hinv.next hallowed
    exact ⟨p', hrun⟩
  · have hacc := hinv.accounted
    rw [Accounted] at hacc
    rw [hacc]
    exact Multiset.le_add_right ..
  · have hlt : k < idle.length := by omega
    have hrests := hinv.listed.rests idle[k] (List.getElem_mem hlt)
    refine ⟨idle[k], hinv.listed.slot k _ (List.getElem?_eq_getElem hlt),
      WorkerPc.ne_absent_of_rests hrests, fun hrun => ?_⟩
    rw [hrun] at hrests
    cases hrests

/-- A run: two tasks make two threads, which execute them and then wait on the list, and a third
task is handed to the second thread. -/
theorem reach_handed : ∃ (p : Pool ℕ) (h : History ℕ),
    (historySystem 2).Reach (fun _ _ => True) (p, h) ∧ h.dispatched = [7, 8, 9] ∧
      h.executed = [7, 8] ∧ (p.caller 0).handing = some (9, 1) ∧ p.mIndex = 1 := by
  have h₁ : (historySystem 2).Reach (fun _ (_ : Action ℕ) => True) _ :=
    .step (a := .dispatch 0 7) .init rfl trivial rfl
  have h₂ := h₁.next (.caller 0 true) rfl trivial rfl
  have h₃ := h₂.next (.caller 0 true) trivial trivial rfl
  have h₄ := h₃.next (.caller 0 true) trivial trivial rfl
  have h₅ := h₄.next (.dispatch 1 8) rfl trivial rfl
  have h₆ := h₅.next (.caller 1 true) rfl trivial rfl
  have h₇ := h₆.next (.caller 1 true) trivial trivial rfl
  have h₈ := h₇.next (.caller 1 true) trivial trivial rfl
  have h₁ := h₈.next (.worker 0 none) trivial trivial rfl
  have h₂ := h₁.next (.worker 0 none) trivial trivial rfl
  have h₃ := h₂.next (.worker 0 none) rfl trivial rfl
  have h₄ := h₃.next (.worker 0 none) rfl trivial rfl
  have h₅ := h₄.next (.worker 0 none) trivial trivial rfl
  have h₆ := h₅.next (.worker 0 none) (by rintro (_ | _ | i) ⟨task, ⟨⟩⟩) trivial rfl
  have h₇ := h₆.next (.worker 0 none) trivial trivial rfl
  have h₈ := h₇.next (.worker 0 none) trivial trivial rfl
  have h₁ := h₈.next (.worker 1 none) trivial trivial rfl
  have h₂ := h₁.next (.worker 1 none) trivial trivial rfl
  have h₃ := h₂.next (.worker 1 none) rfl trivial rfl
  have h₄ := h₃.next (.worker 1 none) rfl trivial rfl
  have h₅ := h₄.next (.worker 1 none) trivial trivial rfl
  have h₆ := h₅.next (.worker 1 none) (by rintro (_ | _ | i) ⟨task, ⟨⟩⟩) trivial rfl
  have h₇ := h₆.next (.worker 1 none) trivial trivial rfl
  have h₈ := h₇.next (.worker 1 none) trivial trivial rfl
  have h₁ := h₈.next (.dispatch 0 9) rfl trivial rfl
  have h₂ := h₁.next (.caller 0 true) rfl trivial rfl
  have h₃ := h₂.next (.caller 0 true) trivial trivial rfl
  exact ⟨_, _, h₃, rfl, rfl, rfl, rfl⟩
/-- Of three tasks two were executed, and one thread is on the list. -/
theorem dispatched_once_handed : ∃ (p : Pool ℕ) (h : History ℕ),
    (historySystem 2).Reach (fun _ _ => True) (p, h) ∧ h.dispatched = [7, 8, 9] ∧
      h.executed = [7, 8] ∧ (h.executed : Multiset ℕ) ≤ h.dispatched ∧
        ∃ t, p.mThreadList 0 = some t ∧ p.worker t ≠ .absent ∧ p.worker t ≠ .run := by
  obtain ⟨p, h, hreach, hdispatched, hexecuted, -, hindex⟩ := reach_handed
  obtain ⟨-, hle, -, -, hlist, -⟩ := dispatched_once hreach
  exact ⟨p, h, hreach, hdispatched, hexecuted, hle, hlist 0 (by omega)⟩

/-- **A thread is handed to one caller**: a mutex is held by one party, the list of the idle threads
names each thread once, and a thread with a new task sleeps, is out of the list, and has got it from
the only caller that hands one out. -/
theorem handed_to_one {maxThreads : ℤ}
    (hreach : (historySystem maxThreads).Reach (fun _ _ => True) (p, h)) :
    (∀ m x y, p.holds x m = true → p.holds y m = true → x = y) ∧
      (∀ k k' : ℕ, (k : ℤ) < p.mIndex → (k' : ℤ) < p.mIndex → p.mThreadList k = p.mThreadList k' →
        k = k') ∧
        ∀ i task t, (p.caller i).handing = some (task, t) →
          p.task t = some task ∧ (p.worker t = .sleep ∨ p.worker t = .wait) ∧
            (∀ k : ℕ, (k : ℤ) < p.mIndex → p.mThreadList k ≠ some t) ∧
              ∀ j x, (p.caller j).handing = some x → j = i := by
  obtain ⟨S, idle, hinv⟩ := reach_inv hreach
  have hindex := hinv.listed.index
  have hslot (k : ℕ) (hk : (k : ℤ) < p.mIndex) :
      ∃ t, idle[k]? = some t ∧ p.mThreadList k = some t := by
    have hlt : k < idle.length := by omega
    exact ⟨idle[k], getElem?_eq_getElem hlt, hinv.listed.slot k _ (getElem?_eq_getElem hlt)⟩
  refine ⟨fun m x y => hinv.locks.unique, fun k k' hk hk' heq => ?_, fun i task t hi => ?_⟩
  · obtain ⟨t, ht, hlist⟩ := hslot k hk
    obtain ⟨t', ht', hlist'⟩ := hslot k' hk'
    obtain rfl : t = t' := Option.some.inj (hlist.symm.trans (heq.trans hlist'))
    have hlt : k < idle.length := by omega
    exact (getElem?_inj hlt hinv.listed.nodup).mp (ht.trans ht'.symm)
  · obtain ⟨hout, hsleeps, htask⟩ := hinv.listed.given i task t hi
    refine ⟨htask, hsleeps, fun k hk hlist => ?_, fun j x hj =>
      hinv.alone (CallerPc.main_of_handing hi) (CallerPc.main_of_handing hj)⟩
    obtain ⟨t', ht', hlist'⟩ := hslot k hk
    obtain rfl : t' = t := Option.some.inj (hlist'.symm.trans hlist)
    exact hout (mem_of_getElem? ht')

/-- The second thread sleeps with the third task, out of the list, and nobody else hands it out. -/
theorem handed_to_one_handed : ∃ (p : Pool ℕ) (h : History ℕ),
    (historySystem 2).Reach (fun _ _ => True) (p, h) ∧ (p.caller 0).handing = some (9, 1) ∧
      p.task 1 = some 9 ∧ (p.worker 1 = .sleep ∨ p.worker 1 = .wait) ∧
        p.mThreadList 0 ≠ some 1 ∧ ∀ j x, (p.caller j).handing = some x → j = 0 := by
  obtain ⟨p, h, hreach, -, -, hhanding, hindex⟩ := reach_handed
  obtain ⟨-, -, hgiven⟩ := handed_to_one hreach
  obtain ⟨htask, hsleeps, hlist, halone⟩ := hgiven 0 9 1 hhanding
  exact ⟨p, h, hreach, hhanding, htask, hsleeps, hlist 0 (by omega), halone⟩

end Pool

end Spserver.ThreadPool
