import ReadingComment.Spserver.Dispatch

/-!
# Runs of a thread pool

The steps of the threads of the pool keep the invariant too. So in every
interleaving each task that was dispatched is executed at most once and is not lost.
Without new calls every step lowers a weight, so the threads come to an end; they
never block each other, so then everything that was dispatched was executed.
-/

namespace Spserver.ThreadPool

open Function Lib List

variable {τ : Type}

namespace Pool

variable {p p' : Pool τ} {h h' : History τ} {S : Finset ℕ} {idle : List ℕ} {i t : ℕ} {task : τ}

theorem workerTo_moves (p : Pool τ) (t : ℕ) (pc : WorkerPc) :
    WorkerMoves p (p.workerTo t pc) t pc := ⟨rfl, rfl, rfl, rfl, rfl, rfl, rfl, rfl, rfl⟩

theorem setMutex_moves (p : Pool τ) (t : ℕ) (holder : Option Party) (pc : WorkerPc) :
    WorkerMoves p ((p.setMutex t holder).workerTo t pc) t pc :=
  ⟨rfl, rfl, rfl, rfl, rfl, rfl, rfl, rfl, rfl⟩

theorem main_moves (p : Pool τ) (t : ℕ) (holder : Option Party) (pc : WorkerPc) :
    WorkerMoves p { p.workerTo t pc with mMainMutex := holder } t pc :=
  ⟨rfl, rfl, rfl, rfl, rfl, rfl, rfl, rfl, rfl⟩

namespace Inv

/-! ## Steps of a thread of the pool -/

section

variable (hinv : Inv p h S idle)

include hinv

/-- **A task is executed.** -/
theorem workerRun (ht : p.worker t = .test) (htask : p.task t = some task) :
    Inv (p.workerTo t .run) { h with executed := h.executed ++ [task] } S idle := by
  have hm := workerTo_moves p t .run
  have hne : p.worker t ≠ .absent := by rw [ht]; nofun
  refine ⟨hm.stay hinv.locks (fun m => by rw [ht]; cases m <;> rfl) rfl,
    hm.listed hinv.listed (by rw [ht]; rfl) (by rw [ht]; simp) nofun,
    hm.counts hinv.counts nofun hne rfl, hm.awake hinv.awake (by rw [ht]; rfl), ?_⟩
  have hpending : ∀ u, u ≠ t → (p.workerTo t .run).pendingOf u = p.pendingOf u := by
    intro u hu
    rw [pendingOf, hm.worker_ne hu]
    rfl
  have hsum := sum_exchange (Finset.mem_range.mpr (hinv.lt_created hne)) hpending
  have hold : p.pendingOf t = {task} := by
    rw [pendingOf, ht, htask]
    rfl
  have hnew : (p.workerTo t .run).pendingOf t = 0 := by
    rw [pendingOf, hm.worker_self]
    rfl
  rw [hold, hnew, add_zero] at hsum
  have hacc := hinv.accounted
  rw [Accounted] at hacc ⊢
  change (h.dispatched : Multiset τ) = ((h.executed ++ [task] : List τ) : Multiset τ) +
    (∑ j ∈ S, (p.caller j).pending +
      ∑ u ∈ Finset.range p.created, (p.workerTo t .run).pendingOf u)
  rw [hacc, ← hsum, ← Multiset.coe_add, Multiset.coe_singleton]
  abel

theorem workerSave (ht : p.worker t = .save) :
    p.mIndex < p.mMaxThreads ∧ p.slot p.mIndex = .ok idle.length ∧
    Inv { p.workerTo t .signalIdle with
      mThreadList := update p.mThreadList idle.length (some t)
      mIndex := p.mIndex + 1 } h S (idle ++ [t]) := by
  have hm := workerTo_moves p t .signalIdle
  have hne : p.worker t ≠ .absent := by rw [ht]; rintro ⟨⟩
  have hnot : t ∉ idle := fun hmem => by
    have := hinv.listed.rests t hmem
    rw [ht] at this
    cases this
  have hnodup : (idle ++ [t]).Nodup := by
    rw [nodup_append]
    exact ⟨hinv.listed.nodup, nodup_singleton t, fun u hu v hv heq =>
      hnot (mem_singleton.mp hv ▸ heq ▸ hu)⟩
  have hlen := hinv.listed.index
  -- the thread is not on the list, so the list is shorter than the number of threads
  have hlt : idle.length < p.created := by
    have hsub : idle ++ [t] ⊆ List.range p.created := fun u hu => by
      rw [mem_range]
      rcases mem_append.mp hu with hu | hu
      · exact hinv.lt_created (WorkerPc.ne_absent_of_rests (hinv.listed.rests u hu))
      · exact mem_singleton.mp hu ▸ hinv.lt_created hne
    have := (subperm_of_subset hnodup hsub).length_le
    rw [length_append, length_singleton, length_range] at this
    exact this
  have hmax := hinv.counts.le
  have htotal := hinv.counts.total
  refine ⟨by omega, ?_, ?_, ⟨?_, ?_, hnodup, ?_, ?_, ?_, ?_, ?_⟩, ?_, ⟨?_, ?_, ?_⟩, ?_⟩
  · rw [slot, if_pos ⟨by omega, by omega⟩, hlen]
    rfl
  · exact hm.stay hinv.locks (fun m => by rw [ht]; cases m <;> rfl) rfl
  · change p.mIndex + 1 = _
    rw [length_append, length_singleton]
    omega
  · intro k u hk
    change update p.mThreadList idle.length (some t) k = some u
    rw [getElem?_append] at hk
    split at hk
    · rename_i hk'
      rw [update_of_ne (Nat.ne_of_lt hk')]
      exact hinv.listed.slot k u hk
    · obtain ⟨hk', rfl⟩ : k - idle.length = 0 ∧ t = u := by
        simpa [getElem?_singleton] using hk
      rw [show k = idle.length by omega, update_self]
  · intro u hu
    change ((p.workerTo t .signalIdle).worker u).rests = true
    by_cases hut : u = t
    · rw [hut, hm.worker_self]
      rfl
    · rw [hm.worker_ne hut]
      exact hinv.listed.rests u ((mem_append.mp hu).resolve_right (by simpa using hut))
  · intro u hu
    by_cases hut : u = t
    · exact .inl (by simp [hut])
    · change ((p.workerTo t .signalIdle).worker u).rests = true at hu
      rw [hm.worker_ne hut] at hu
      exact (hinv.listed.handed u hu).imp_left (mem_append_left _)
  · intro j task' u hj
    obtain ⟨hnot', hwait, htask⟩ := hinv.listed.given j task' u hj
    have hut : u ≠ t := by
      rintro rfl
      rw [ht] at hwait
      rcases hwait with hw | hw <;> cases hw
    change _ ∧ ((p.workerTo t .signalIdle).worker u = .sleep ∨ _) ∧ _
    refine ⟨?_, (hm.worker_ne hut).symm ▸ hwait, htask⟩
    simp [hnot', hut]
  · intro j task' u hj
    have hwait := hinv.listed.signal j task' u hj
    have hut : u ≠ t := by
      rintro rfl
      rw [ht] at hwait
      cases hwait
    exact (hm.worker_ne hut).trans hwait
  · intro j u hj
    change (p.workerTo t .signalIdle).worker u ≠ .absent
    by_cases hut : u = t
    · rw [hut, hm.worker_self]
      rintro ⟨⟩
    · rw [hm.worker_ne hut]
      exact hinv.listed.unlockThread j u hj
  · exact (hm.counts hinv.counts (by rintro ⟨⟩) hne rfl).congr rfl rfl rfl rfl rfl rfl
  · exact hinv.awake.cover
  · intro hwaiting
    have hold := hinv.awake.looked hwaiting
    have hsum := hm.sum (hinv.lt_created hne) WorkerPc.waking
    have hsave : WorkerPc.save.waking = 0 := rfl
    have hsignal : WorkerPc.signalIdle.waking = 1 := rfl
    rw [ht, hsave, hsignal] at hsum
    rw [length_append, length_singleton]
    change _ ≤ ∑ j ∈ S, (p.caller j).looking +
      ∑ u ∈ Finset.range (p.workerTo t .signalIdle).created,
        ((p.workerTo t .signalIdle).worker u).waking
    omega
  · exact hinv.awake.created
  · exact hm.accounted hinv.accounted (by rw [ht]; rfl)

/-- **A thread wakes a caller**, if one waits. -/
theorem workerSignal (ht : p.worker t = .signalIdle) {woken : Option ℕ} (hwakes : p.Wakes woken) :
    Inv ((p.wake woken).workerTo t (.saveUnlock 0)) h S idle := by
  have hne : p.worker t ≠ .absent := by rw [ht]; nofun
  have hsignal : WorkerPc.signalIdle.waking = 1 := rfl
  have hunlock : (WorkerPc.saveUnlock 0).waking = 0 := rfl
  -- what is left to do once the caller is woken
  have hrest : ∀ {p₁ : Pool τ}, Inv p₁ h S idle → p₁.worker = p.worker →
      (p₁.workerTo t (.saveUnlock 0)).Awake S idle →
      Inv (p₁.workerTo t (.saveUnlock 0)) h S idle := by
    intro p₁ hinv₁ hworker hawake
    have hm := workerTo_moves p₁ t (.saveUnlock 0)
    have ht₁ : p₁.worker t = .signalIdle := by rw [hworker, ht]
    have hne₁ : p₁.worker t ≠ .absent := by rw [ht₁]; nofun
    exact ⟨hm.stay hinv₁.locks (fun m => by rw [ht₁]; cases m <;> rfl) rfl,
      hm.listed hinv₁.listed (by rw [ht₁]; rfl) (by rw [ht₁]; simp) nofun,
      hm.counts hinv₁.counts nofun hne₁ rfl, hawake,
      hm.accounted hinv₁.accounted (by rw [ht₁]; rfl)⟩
  cases woken with
  | none =>
    refine hrest hinv rfl ⟨hinv.awake.cover, ?_, ?_⟩
    · rintro ⟨j, hj⟩
      exact absurd hj (hwakes j)
    · rintro ⟨j, hj⟩
      exact absurd hj (hwakes j)
  | some i =>
    obtain ⟨task, hi⟩ := hwakes
    have hmem : i ∈ S := hinv.mem (by rw [hi]; nofun)
    have hwake : p.wake (some i) = p.callerTo i (.woken task) := by rw [wake, hi]
    rw [hwake]
    have hm : CallerMoves p (p.callerTo i (.woken task)) i (.woken task) :=
      ⟨rfl, rfl, rfl, rfl, rfl, rfl, rfl, rfl, rfl⟩
    have hlook : (CallerPc.wait task).looking ≤ (CallerPc.woken task).looking := Nat.zero_le _
    have hawake : ∀ task', CallerPc.woken task ≠ .wait task' := by
      intro task' heq
      cases heq
    have hinv₁ : Inv (p.callerTo i (.woken task)) h S idle :=
      hm.next hinv hmem (hm.stay hinv.locks (fun m => by rw [hi]; rfl) rfl) (by rw [hi]; rfl)
        (fun _ _ heq => by cases heq) (fun _ heq => by cases heq)
        (.inr ⟨hawake, by rw [hi]; exact hlook⟩) fun _ heq => absurd heq (hawake _)
    have hw := workerTo_moves (p.callerTo i (.woken task)) t (.saveUnlock 0)
    refine hrest hinv₁ rfl ⟨hinv₁.awake.cover, ?_, fun _ => hinv.awake.created ⟨i, task, hi⟩⟩
    intro _
    have hold := hinv.awake.looked ⟨i, task, hi⟩
    have hlooking := hm.sum hmem CallerPc.looking
    have hwaking := hw.sum (hinv.lt_created hne) WorkerPc.waking
    have hwait : (CallerPc.wait task).looking = 0 := rfl
    have hwoken : (CallerPc.woken task).looking = 1 := rfl
    have ht₁ : (p.callerTo i (.woken task)).worker t = .signalIdle := ht
    rw [hi, hwait, hwoken] at hlooking
    rw [ht₁, hsignal, hunlock] at hwaking
    change _ ≤ ∑ j ∈ S, ((p.callerTo i (.woken task)).caller j).looking + _
    change _ = ∑ u ∈ Finset.range p.created, (p.worker u).waking + 0 at hwaking
    omega

theorem workerStep {woken : Option ℕ} (hallowed : p.Allowed (.worker t woken)) :
    ∃ p' idle', p.workerStep t woken = .ok p' ∧ Inv p' (p.note (.worker t woken) h) S idle' := by
  have hstays := hinv.counts.stays t
  have hrunning : p.mIsShutdown = false := hinv.counts.running
  simp only [note]
  cases ht : p.worker t with
  | absent | wait | gone => simp [Allowed, ht] at hallowed
  | exitLock | exit | unlockFree =>
    rw [ht] at hstays
    cases hstays
  | test =>
    have hlt : t < p.created := hinv.lt_created (by rw [ht]; rintro ⟨⟩)
    obtain ⟨task, htask⟩ := Option.ne_none_iff_exists'.mp (hinv.counts.task t hlt)
    simp only [Pool.workerStep, ht, hrunning, htask]
    exact ⟨_, idle, rfl, hinv.workerRun ht htask⟩
  | run =>
    have hm := workerTo_moves p t .lock
    simp only [Pool.workerStep, ht, hrunning]
    refine ⟨_, idle, rfl, hm.next hinv ht ?_⟩
    exact hm.stay hinv.locks (fun m => by rw [ht]; cases m <;> rfl) rfl
  | lock =>
    simp only [Allowed, ht] at hallowed
    have hm := setMutex_moves p t (some (.worker t)) .saveLock
    simp only [Pool.workerStep, ht]
    refine ⟨_, idle, rfl, hm.next hinv ht ?_⟩
    refine hm.take hinv.locks ht (show p.holder (.thread t) = none from hallowed) (fun m => ?_)
      (holder_thread rfl rfl)
    cases m <;> simp [WorkerPc.holds, eq_comm]
  | saveLock =>
    simp only [Allowed, ht] at hallowed
    have hm := main_moves p t (some (.worker t)) .save
    simp only [Pool.workerStep, ht]
    refine ⟨_, idle, rfl, hm.next hinv ht ?_⟩
    refine hm.take hinv.locks ht (show p.holder .main = none from hallowed) (fun m => ?_)
      (holder_main rfl rfl)
    cases m <;> simp [WorkerPc.holds]
  | save =>
    obtain ⟨hlt, hslot, hnext⟩ := hinv.workerSave ht
    simp only [Pool.workerStep, ht, if_pos hlt, hslot]
    exact ⟨_, _, rfl, hnext⟩
  | signalIdle =>
    simp only [Allowed, ht] at hallowed
    simp only [Pool.workerStep, ht]
    exact ⟨_, idle, rfl, hinv.workerSignal ht hallowed⟩
  | saveUnlock ret =>
    obtain rfl : ret = 0 := by
      rw [ht] at hstays
      exact of_decide_eq_true hstays
    have hm := main_moves p t none .sleep
    simp only [Pool.workerStep, ht, if_true]
    refine ⟨_, idle, rfl, hm.next hinv ht ?_⟩
    refine hm.give hinv.locks ht rfl (fun m => ?_) (holder_main rfl rfl)
    cases m <;> simp [WorkerPc.holds]
  | sleep =>
    have hm := setMutex_moves p t none .wait
    simp only [Pool.workerStep, ht]
    refine ⟨_, idle, rfl, hm.next hinv ht ?_⟩
    refine hm.give hinv.locks ht (by simp [WorkerPc.holds]) (fun m => ?_) (holder_thread rfl rfl)
    cases m <;> simp [WorkerPc.holds, eq_comm]
  | woken =>
    simp only [Allowed, ht] at hallowed
    have hm := setMutex_moves p t (some (.worker t)) .unlock
    simp only [Pool.workerStep, ht]
    refine ⟨_, idle, rfl, hm.next hinv ht ?_⟩
    refine hm.take hinv.locks ht (show p.holder (.thread t) = none from hallowed) (fun m => ?_)
      (holder_thread rfl rfl)
    cases m <;> simp [WorkerPc.holds, eq_comm]
  | unlock =>
    have hm := setMutex_moves p t none .test
    simp only [Pool.workerStep, ht]
    refine ⟨_, idle, rfl, hm.next hinv ht ?_⟩
    refine hm.give hinv.locks ht (by simp [WorkerPc.holds]) (fun m => ?_) (holder_thread rfl rfl)
    cases m <;> simp [WorkerPc.holds, eq_comm]

theorem callerStep {creates : Bool} (hallowed : p.Allowed (.caller i creates)) :
    ∃ p' idle', p.callerStep i creates = .ok p' ∧
      Inv p' (p.note (.caller i creates) h) S idle' := by
  simp only [note]
  cases hi : p.caller i with
  | idle | wait => simp [Allowed, hi] at hallowed
  | lock task =>
    simp only [Allowed, hi] at hallowed
    simp only [Pool.callerStep, hi]
    exact ⟨_, idle, rfl, hinv.callerLock hallowed (.inl hi)⟩
  | woken task =>
    simp only [Allowed, hi] at hallowed
    simp only [Pool.callerStep, hi]
    exact ⟨_, idle, rfl, hinv.callerLock hallowed (.inr hi)⟩
  | test task =>
    simp only [Pool.callerStep, hi]
    by_cases hindex : p.mIndex ≤ 0
    · by_cases htotal : p.mTotal ≥ p.mMaxThreads
      · simp only [hindex, htotal, and_self, true_or, if_true]
        exact ⟨_, idle, rfl, hinv.callerWait hi hindex htotal⟩
      · cases creates with
        | true =>
          simp only [hindex, htotal, and_false, false_or, if_true, if_false]
          exact ⟨_, idle, rfl, hinv.callerCreate hi hindex (by omega)⟩
        | false =>
          simp only [hindex, htotal, and_false, or_true, and_self, if_true, if_false]
          exact ⟨_, idle, rfl, hinv.callerFail hi hindex⟩
    · obtain ⟨p₁, t, idle', htake, hnext⟩ := hinv.callerTake hi hindex
      simp only [hindex, false_and, if_false, htake]
      exact ⟨_, idle', rfl, hnext⟩
  | lockThread task t =>
    simp only [Allowed, hi] at hallowed
    simp only [Pool.callerStep, hi]
    exact ⟨_, idle, rfl, hinv.callerLockThread hi hallowed⟩
  | signal task t =>
    simp only [Pool.callerStep, hi, hinv.listed.signal i task t hi, if_true]
    exact ⟨_, idle, rfl, hinv.callerSignal hi⟩
  | unlockThread t =>
    simp only [Pool.callerStep, hi]
    exact ⟨_, idle, rfl, hinv.callerUnlockThread hi⟩
  | unlock ret =>
    simp only [Pool.callerStep, hi]
    exact ⟨_, idle, rfl, hinv.callerUnlock hi⟩

/-- **Step lemma**: nothing goes wrong, and the invariant is kept. -/
theorem next {a : Action τ} (hallowed : p.Allowed a) :
    ∃ p' S' idle', p.step a = .ok p' ∧ Inv p' (p.note a h) S' idle' := by
  cases a with
  | dispatch i task => exact ⟨_, insert i S, idle, rfl, hinv.dispatch hallowed task⟩
  | caller i creates =>
    obtain ⟨p', idle', hrun, hnext⟩ := hinv.callerStep hallowed
    exact ⟨p', S, idle', hrun, hnext⟩
  | worker t woken =>
    obtain ⟨p', idle', hrun, hnext⟩ := hinv.workerStep hallowed
    exact ⟨p', S, idle', hrun, hnext⟩

end

theorem init (maxThreads : ℤ) : Inv (new maxThreads : Pool τ) ⟨[], []⟩ ∅ [] where
  locks x m := by
    cases x <;> cases m <;> exact ⟨nofun, nofun⟩
  listed := ⟨rfl, nofun, nodup_nil, nofun, nofun, nofun, nofun, nofun⟩
  counts := by
    have hpos : 0 < (new maxThreads : Pool τ).mMaxThreads := by
      change 0 < if maxThreads ≤ 0 then 2 else maxThreads
      split <;> omega
    exact ⟨rfl, hpos.le, hpos, fun t => ⟨fun _ => Nat.zero_le _, fun _ => rfl⟩, fun _ => rfl, rfl,
      nofun⟩
  awake := ⟨fun _ _ => rfl, fun ⟨_, _, hi⟩ => (nomatch hi), fun ⟨_, _, hi⟩ => (nomatch hi)⟩
  accounted := rfl

end Inv

end Pool

end Spserver.ThreadPool
