import Mathlib.Tactic.Abel
import ReadingComment.Spserver.PoolInvariant

/-!
# Dispatching tasks

The steps of a caller and of a thread keep the invariant of the pool; so in every
interleaving each task that was dispatched is executed at most once and is not lost.
Without new calls every step lowers a weight, so the threads come to an end; they
never block each other, so then everything that was dispatched was executed.
-/

namespace Spserver.ThreadPool

open Function Lib List

variable {τ : Type}

namespace Pool

variable {p p' : Pool τ} {h h' : History τ} {S : Finset ℕ} {idle : List ℕ} {i t : ℕ} {task : τ}

namespace Inv

theorem mem (hinv : Inv p h S idle) (hi : p.caller i ≠ .idle) : i ∈ S := by
  by_contra hnot
  exact hi (hinv.awake.cover i hnot)

/-! ## Steps of a caller -/

section

variable (hinv : Inv p h S idle)

include hinv

theorem enlist (hi : p.caller i = .idle) : Inv p h (insert i S) idle := by
  by_cases hmem : i ∈ S
  · rwa [Finset.insert_eq_of_mem hmem]
  · refine ⟨hinv.locks, hinv.listed, hinv.counts, ⟨fun j hj => ?_, ?_, hinv.awake.created⟩, ?_⟩
    · exact hinv.awake.cover j fun hmem => hj (Finset.mem_insert_of_mem hmem)
    · have hlooking : (CallerPc.idle : CallerPc τ).looking = 0 := rfl
      rw [Finset.sum_insert hmem, hi, hlooking, Nat.zero_add]
      exact hinv.awake.looked
    · have hpending : (CallerPc.idle : CallerPc τ).pending = 0 := rfl
      rw [Accounted, Finset.sum_insert hmem, hi, hpending, zero_add]
      exact hinv.accounted

theorem dispatch (hi : p.caller i = .idle) (task : τ) :
    Inv (p.callerTo i (.lock task)) h (insert i S) idle := by
  have hm : CallerMoves p (p.callerTo i (.lock task)) i (.lock task) :=
    ⟨rfl, rfl, rfl, rfl, rfl, rfl, rfl, rfl, rfl⟩
  refine hm.next (hinv.enlist hi) (Finset.mem_insert_self i S) ?_ (by rw [hi]; rfl) nofun nofun
    (.inr ⟨nofun, by rw [hi]; exact Nat.zero_le _⟩) nofun
  exact hm.stay hinv.locks (fun m => by rw [hi]; rfl) rfl

theorem callerLock (hfree : p.mMainMutex = none)
    (hi : p.caller i = .lock task ∨ p.caller i = .woken task) :
    Inv { p.callerTo i (.test task) with mMainMutex := some (.caller i) } h S idle := by
  have hm : CallerMoves p { p.callerTo i (.test task) with mMainMutex := some (.caller i) } i
      (.test task) := ⟨rfl, rfl, rfl, rfl, rfl, rfl, rfl, rfl, rfl⟩
  refine hm.next hinv (hinv.mem (by rcases hi with hi | hi <;> rw [hi] <;> nofun)) ?_
    (by rcases hi with hi | hi <;> rw [hi] <;> rfl) nofun nofun (.inr ⟨nofun, ?_⟩) nofun
  · refine hm.take hinv.locks (show p.holder .main = none from hfree) (fun m => ?_)
      (holder_main rfl rfl)
    rcases hi with hi | hi <;> rw [hi] <;> cases m <;> simp [CallerPc.holds]
  · rcases hi with hi | hi <;> rw [hi] <;> simp [CallerPc.looking]

theorem callerWait (hi : p.caller i = .test task) (hindex : p.mIndex ≤ 0)
    (htotal : p.mTotal ≥ p.mMaxThreads) :
    Inv { p.callerTo i (.wait task) with mMainMutex := none } h S idle := by
  have hm : CallerMoves p { p.callerTo i (.wait task) with mMainMutex := none } i (.wait task) :=
    ⟨rfl, rfl, rfl, rfl, rfl, rfl, rfl, rfl, rfl⟩
  have hidle : idle = [] := by
    have := hinv.listed.index
    exact eq_nil_of_length_eq_zero (by omega)
  have hcreated : 0 < p.created := by
    have := hinv.counts.pos
    have := hinv.counts.total
    omega
  refine hm.next hinv (hinv.mem (by rw [hi]; nofun)) ?_ (by rw [hi]; rfl) nofun nofun (.inl hidle)
    fun _ _ => hcreated
  refine hm.give hinv.locks (show (p.caller i).holds .main = true by rw [hi]; rfl) (fun m =>
    ?_) (holder_main rfl rfl)
  rw [hi]
  cases m <;> simp [CallerPc.holds]

theorem callerFail (hi : p.caller i = .test task) (hindex : p.mIndex ≤ 0) :
    Inv (p.callerTo i (.unlock (-1))) h S idle := by
  have hm : CallerMoves p (p.callerTo i (.unlock (-1))) i (.unlock (-1)) :=
    ⟨rfl, rfl, rfl, rfl, rfl, rfl, rfl, rfl, rfl⟩
  have hidle : idle = [] := by
    have := hinv.listed.index
    exact eq_nil_of_length_eq_zero (by omega)
  refine hm.next hinv (hinv.mem (by rw [hi]; nofun)) ?_
    (by rw [hi]; rfl) nofun nofun (.inl hidle) nofun
  exact hm.stay hinv.locks (fun m => by rw [hi]; cases m <;> rfl) rfl

theorem callerLockThread (hi : p.caller i = .lockThread task t) (hfree : p.mMutex t = none) :
    Inv ((p.setMutex t (some (.caller i))).callerTo i (.signal task t)) h S idle := by
  have hm : CallerMoves p ((p.setMutex t (some (.caller i))).callerTo i (.signal task t)) i
      (.signal task t) := ⟨rfl, rfl, rfl, rfl, rfl, rfl, rfl, rfl, rfl⟩
  obtain ⟨-, hworker, -⟩ := hinv.listed.given i task t (by rw [hi]; rfl)
  have hwait : p.worker t = .wait := by
    refine hworker.resolve_left fun hsleep => ?_
    have := (hinv.locks (.worker t) (.thread t)).mp (by rw [holds, hsleep]; simp [WorkerPc.holds])
    rw [holder, hfree] at this
    cases this
  refine hm.next hinv (hinv.mem (by rw [hi]; rintro ⟨⟩)) ?_ (by rw [hi]; rfl) ?_ (by rintro _ ⟨⟩)
    (.inr ⟨by rintro _ ⟨⟩, by rw [hi]; exact Nat.le_refl 0⟩) (by rintro _ ⟨⟩)
  · refine hm.take hinv.locks (show p.holder (.thread t) = none from hfree) (fun m => ?_)
      (holder_thread rfl rfl)
    rw [hi]
    cases m <;> simp [CallerPc.holds, eq_comm]
  · rintro task' t' heq
    obtain ⟨rfl, rfl⟩ := CallerPc.signal.inj heq
    exact hwait

theorem callerUnlockThread (hi : p.caller i = .unlockThread t) :
    Inv ((p.setMutex t none).callerTo i (.unlock 0)) h S idle := by
  have hm : CallerMoves p ((p.setMutex t none).callerTo i (.unlock 0)) i (.unlock 0) :=
    ⟨rfl, rfl, rfl, rfl, rfl, rfl, rfl, rfl, rfl⟩
  refine hm.next hinv (hinv.mem (by rw [hi]; nofun)) ?_ (by rw [hi]; rfl) nofun nofun
    (.inr ⟨nofun, by rw [hi]; exact Nat.le_refl 0⟩) nofun
  refine hm.give hinv.locks
    (show (p.caller i).holds (.thread t) = true by rw [hi]; simp [CallerPc.holds]) (fun m => ?_)
    (holder_thread rfl rfl)
  rw [hi]
  cases m <;> simp [CallerPc.holds, eq_comm]

theorem callerUnlock {ret : ℤ} (hi : p.caller i = .unlock ret) :
    Inv { p.callerTo i .idle with mMainMutex := none } h S idle := by
  have hm : CallerMoves p { p.callerTo i .idle with mMainMutex := none } i .idle :=
    ⟨rfl, rfl, rfl, rfl, rfl, rfl, rfl, rfl, rfl⟩
  refine hm.next hinv (hinv.mem (by rw [hi]; nofun)) ?_ (by rw [hi]; rfl) nofun nofun
    (.inr ⟨nofun, by rw [hi]; exact Nat.le_refl 0⟩) nofun
  refine hm.give hinv.locks (show (p.caller i).holds .main = true by rw [hi]; rfl) (fun m => ?_)
    (holder_main rfl rfl)
  rw [hi]
  cases m <;> simp [CallerPc.holds]

theorem alone {j : ℕ} (hi : (p.caller i).holds .main = true)
    (hj : (p.caller j).holds .main = true) :
    j = i :=
  Party.caller.inj (hinv.locks.unique (m := .main) (show p.holds (.caller j) .main = true from hj)
    (show p.holds (.caller i) .main = true from hi))

theorem lt_created (ht : p.worker t ≠ .absent) : t < p.created :=
  Nat.lt_of_not_le fun hle => ht ((hinv.counts.absent t).mpr hle)

end

theorem mutex_fresh (hinv : Inv p h S idle) : p.mMutex p.created = none := by
  have habsent : p.worker p.created = .absent := (hinv.counts.absent _).mpr (Nat.le_refl _)
  cases hm : p.mMutex p.created with
  | none => rfl
  | some x =>
    have hholds := (hinv.locks x (.thread p.created)).mpr hm
    cases x with
    | caller i =>
      rw [holds] at hholds
      cases hi : p.caller i with
      | signal task t =>
        rw [hi] at hholds
        obtain rfl : t = p.created := of_decide_eq_true hholds
        exact absurd (hinv.listed.signal i task _ hi) (by rw [habsent]; rintro ⟨⟩)
      | unlockThread t =>
        rw [hi] at hholds
        obtain rfl : t = p.created := of_decide_eq_true hholds
        exact absurd habsent (hinv.listed.unlockThread i _ hi)
      | _ =>
        rw [hi] at hholds
        cases hholds
    | worker t =>
      rw [holds] at hholds
      obtain rfl : t = p.created := by
        cases hw : p.worker t <;> rw [hw] at hholds <;> first
          | exact of_decide_eq_true hholds
          | cases hholds
      rw [habsent] at hholds
      cases hholds

/-- **A new thread** is created for the task. -/
theorem callerCreate (hinv : Inv p h S idle) (hi : p.caller i = .test task) (hindex : p.mIndex ≤ 0)
    (htotal : p.mTotal < p.mMaxThreads) :
    Inv ((p.create task).callerTo i (.unlock 0))
      { h with dispatched := h.dispatched ++ [task] } S idle := by
  have hmem : i ∈ S := hinv.mem (by rw [hi]; rintro ⟨⟩)
  have habsent : p.worker p.created = .absent := (hinv.counts.absent _).mpr (Nat.le_refl _)
  have hidle : idle = [] := by
    have := hinv.listed.index
    exact eq_nil_of_length_eq_zero (by omega)
  set p' := (p.create task).callerTo i (.unlock 0) with hp'
  have hself : p'.caller i = .unlock 0 := update_self ..
  have hcaller : ∀ j, j ≠ i → p'.caller j = p.caller j := fun j hj => update_of_ne hj ..
  have hnew : p'.worker p.created = .test := update_self ..
  have hworker : ∀ t, t ≠ p.created → p'.worker t = p.worker t :=
    fun t ht => update_of_ne ht ..
  have htask : ∀ t, t ≠ p.created → p'.task t = p.task t := fun t ht => update_of_ne ht ..
  have hhanding : ∀ j, (p'.caller j).handing = (p.caller j).handing := by
    intro j
    by_cases hj : j = i
    · rw [hj, hself, hi]
      rfl
    · rw [hcaller j hj]
  have hne : ∀ {t}, p.worker t ≠ .absent → t ≠ p.created := fun ht heq => ht (heq ▸ habsent)
  refine ⟨?_, ⟨hinv.listed.index, hinv.listed.slot, hinv.listed.nodup, ?_, ?_, ?_, ?_, ?_⟩,
    ⟨?_, ?_, hinv.counts.pos, ?_, ?_, hinv.counts.running, ?_⟩, ⟨?_, ?_, ?_⟩, ?_⟩
  · have hholder : p'.holder = p.holder := by
      funext m
      cases m with
      | main => rfl
      | thread t =>
        change update p.mMutex p.created none t = p.mMutex t
        rw [← hinv.mutex_fresh, update_eq_self]
    rw [hholder]
    refine hinv.locks.stay fun x m => ?_
    cases x with
    | caller j =>
      by_cases hj : j = i
      · rw [hj, holds, holds, hself, hi]
        cases m <;> rfl
      · rw [holds, holds, hcaller j hj]
    | worker t =>
      by_cases ht : t = p.created
      · rw [ht, holds, holds, hnew, habsent]
        cases m <;> rfl
      · rw [holds, holds, hworker t ht]
  · rw [hidle]
    rintro _ ⟨⟩
  · intro t ht
    by_cases htc : t = p.created
    · rw [htc, hnew] at ht
      cases ht
    · rw [hworker t htc] at ht
      simp only [hhanding]
      exact hinv.listed.handed t ht
  · intro j task' t hj
    rw [hhanding] at hj
    obtain ⟨hnot, hwait, htask'⟩ := hinv.listed.given j task' t hj
    have htc : t ≠ p.created := hne (by rcases hwait with hw | hw <;> rw [hw] <;> rintro ⟨⟩)
    rw [hworker t htc, htask t htc]
    exact ⟨hnot, hwait, htask'⟩
  · intro j task' t hj
    have hji : j ≠ i := fun heq => by
      rw [heq, hself] at hj
      cases hj
    rw [hcaller j hji] at hj
    have hwait := hinv.listed.signal j task' t hj
    rw [hworker t (hne (by rw [hwait]; rintro ⟨⟩))]
    exact hwait
  · intro j t hj
    have hji : j ≠ i := fun heq => by
      rw [heq, hself] at hj
      cases hj
    rw [hcaller j hji] at hj
    have habs := hinv.listed.unlockThread j t hj
    rw [hworker t (hne habs)]
    exact habs
  · have := hinv.counts.total
    change p.mTotal + 1 = ((p.created + 1 : ℕ) : ℤ)
    omega
  · change p.mTotal + 1 ≤ p.mMaxThreads
    omega
  · intro t
    change _ ↔ p.created + 1 ≤ t
    by_cases ht : t = p.created
    · rw [ht, hnew]
      exact ⟨by rintro ⟨⟩, fun hle => by omega⟩
    · rw [hworker t ht, hinv.counts.absent t]
      omega
  · intro t
    by_cases ht : t = p.created
    · rw [ht, hnew]
      rfl
    · rw [hworker t ht]
      exact hinv.counts.stays t
  · intro t ht
    by_cases htc : t = p.created
    · rw [htc]
      change update p.task p.created (some task) p.created ≠ none
      rw [update_self]
      rintro ⟨⟩
    · rw [htask t htc]
      have hlt : t < p.created + 1 := ht
      exact hinv.counts.task t (by omega)
  · intro j hj
    rw [hcaller j fun heq => hj (heq ▸ hmem)]
    exact hinv.awake.cover j hj
  · rw [hidle]
    exact fun _ => Nat.zero_le _
  · exact fun _ => Nat.succ_pos _
  · have hpendings : ∑ j ∈ S, (p'.caller j).pending = ∑ j ∈ S, (p.caller j).pending :=
      Finset.sum_congr rfl fun j _ => by rw [CallerPc.pending, CallerPc.pending, hhanding]
    have hold : ∑ t ∈ Finset.range p.created, p'.pendingOf t =
        ∑ t ∈ Finset.range p.created, p.pendingOf t := by
      refine Finset.sum_congr rfl fun t ht => ?_
      have htc : t ≠ p.created := Nat.ne_of_lt (Finset.mem_range.mp ht)
      rw [pendingOf, pendingOf, hworker t htc, htask t htc]
    have hlast : p'.pendingOf p.created = {task} := by
      rw [pendingOf, hnew]
      change (if true = true then (update p.task p.created (some task) p.created).elim 0 _
        else 0) = _
      rw [update_self]
      rfl
    have hacc := hinv.accounted
    rw [Accounted] at hacc ⊢
    change ((h.dispatched ++ [task] : List τ) : Multiset τ) = _ + (_ + ∑ t ∈ Finset.range
      (p.created + 1), p'.pendingOf t)
    rw [Finset.sum_range_succ, hold, hlast, hpendings, ← Multiset.coe_add, hacc]
    simp only [Multiset.coe_singleton, add_assoc]

theorem length_le (hinv : Inv p h S idle) : idle.length ≤ p.created := by
  have hsub : idle ⊆ List.range p.created := fun t ht =>
    mem_range.mpr (hinv.lt_created (WorkerPc.ne_absent_of_rests (hinv.listed.rests t ht)))
  simpa using (subperm_of_subset hinv.listed.nodup hsub).length_le

theorem quiet_of_rests (hinv : Inv p h S idle) (hi : (p.caller i).holds .main = true)
    (hrests : (p.worker t).rests = true) : p.worker t = .sleep ∨ p.worker t = .wait := by
  have hfree : (p.worker t).holds t .main = false := by
    rw [← Bool.not_eq_true]
    intro hholds
    have := hinv.locks.unique (m := .main) (show p.holds (.worker t) .main = true from hholds)
      (show p.holds (.caller i) .main = true from hi)
    cases this
  cases hw : p.worker t with
  | sleep => exact .inl rfl
  | wait => exact .inr rfl
  | signalIdle | saveUnlock =>
    rw [hw] at hfree
    cases hfree
  | _ =>
    rw [hw] at hrests
    cases hrests

end Inv

/-! ### Taking a thread -/

def taken (p : Pool τ) (i : ℕ) (task : τ) (k t : ℕ) : Pool τ :=
  callerTo { p with
    mIndex := p.mIndex - 1
    mThreadList := Function.update p.mThreadList k none
    task := Function.update p.task t (some task) } i (.lockThread task t)

theorem taken_caller_self {k : ℕ} : (p.taken i task k t).caller i = .lockThread task t :=
  update_self ..

theorem taken_caller_ne {j k : ℕ} (hj : j ≠ i) : (p.taken i task k t).caller j = p.caller j :=
  update_of_ne hj ..

theorem taken_task_self {k : ℕ} : (p.taken i task k t).task t = some task := update_self ..

theorem taken_task_ne {k u : ℕ} (hu : u ≠ t) : (p.taken i task k t).task u = p.task u :=
  update_of_ne hu ..

theorem Idle.taken {init : List ℕ} (hl : p.Idle (init ++ [t])) (hi : p.caller i = .test task)
    (hnone : ∀ j x, (p.caller j).handing = some x → j = i)
    (hquiet : p.worker t = .sleep ∨ p.worker t = .wait) :
    (p.taken i task init.length t).Idle init := by
  have hnodup := nodup_append.mp hl.nodup
  have hnot : t ∉ init := fun ht => hnodup.2.2 t ht t (mem_singleton_self t) rfl
  have hother : ∀ {j} {pc : CallerPc τ}, (p.taken i task init.length t).caller j = pc →
      pc ≠ .lockThread task t → j ≠ i := by
    rintro j pc hj hne rfl
    exact hne (hj.symm.trans taken_caller_self)
  refine ⟨?_, fun k u hk => ?_, hnodup.1, fun u hu => ?_, fun u hu => ?_, fun j task' u hj => ?_,
    fun j task' u hj => ?_, fun j u hj => ?_⟩
  · have := hl.index
    rw [length_append, length_singleton] at this
    change p.mIndex - 1 = _
    omega
  · have hlt : k < init.length := (List.getElem?_eq_some_iff.mp hk).1
    change update p.mThreadList init.length none k = some u
    rw [update_of_ne (Nat.ne_of_lt hlt)]
    exact hl.slot k u (by rw [getElem?_append_left hlt, hk])
  · exact hl.rests u (mem_append_left _ hu)
  · by_cases hut : u = t
    · exact .inr ⟨i, task, by rw [taken_caller_self, hut]; rfl⟩
    · rcases hl.handed u hu with hin | ⟨j, task', hj⟩
      · exact .inl ((mem_append.mp hin).resolve_right (by simpa using hut))
      · rw [hnone j _ hj, hi] at hj
        cases hj
  · by_cases hji : j = i
    · rw [hji, taken_caller_self] at hj
      cases hj
      exact ⟨hnot, hquiet, taken_task_self⟩
    · rw [taken_caller_ne hji] at hj
      exact absurd (hnone j _ hj) hji
  · rw [taken_caller_ne (hother hj nofun)] at hj
    exact hl.signal j task' u hj
  · rw [taken_caller_ne (hother hj nofun)] at hj
    exact hl.unlockThread j u hj

theorem Awake.taken {init : List ℕ} (ha : p.Awake S (init ++ [t])) (hi : p.caller i = .test task)
    (hmem : i ∈ S) : (p.taken i task init.length t).Awake S init := by
  have hwaiting : ∀ j, (p.taken i task init.length t).Waiting j → p.Waiting j := by
    rintro j ⟨task', hj⟩
    have hji : j ≠ i := by
      rintro rfl
      rw [taken_caller_self] at hj
      cases hj
    exact ⟨task', (taken_caller_ne hji).symm.trans hj⟩
  refine ⟨fun j hj => ?_, fun ⟨j, hj⟩ => ?_, fun ⟨j, hj⟩ => ha.created ⟨j, hwaiting j hj⟩⟩
  · have hji : j ≠ i := by
      rintro rfl
      exact hj hmem
    rw [taken_caller_ne hji]
    exact ha.cover j hj
  · have hold := ha.looked ⟨j, hwaiting j hj⟩
    have hother : ∀ j, j ≠ i → (p.taken i task init.length t).caller j = p.caller j :=
      fun j hj => taken_caller_ne hj
    have hsum := sum_exchange hmem fun j hj => congrArg CallerPc.looking (hother j hj)
    have htest : (CallerPc.test task).looking = 1 := rfl
    have hlock : (CallerPc.lockThread task t).looking = 0 := rfl
    rw [taken_caller_self, hi, htest, hlock] at hsum
    rw [length_append, length_singleton] at hold
    change init.length ≤ ∑ i ∈ S, _ + ∑ t ∈ Finset.range p.created, (p.worker t).waking
    omega

theorem Accounted.taken {k : ℕ} (ha : p.Accounted h S) (hi : p.caller i = .test task) (hmem : i ∈ S)
    (hready : (p.worker t).ready = false) :
    (p.taken i task k t).Accounted { h with dispatched := h.dispatched ++ [task] } S := by
  have hother : ∀ j, j ≠ i → (p.taken i task k t).caller j = p.caller j :=
    fun j hj => taken_caller_ne hj
  have hsum := sum_exchange hmem fun j hj => congrArg CallerPc.pending (hother j hj)
  have htest : (CallerPc.test task).pending = 0 := rfl
  have hlock : (CallerPc.lockThread task t).pending = {task} := rfl
  rw [taken_caller_self, hi, htest, hlock] at hsum
  have hpending : ∀ u, (p.taken i task k t).pendingOf u = p.pendingOf u := by
    intro u
    change (if (p.worker u).ready = true then _ else _) = _
    by_cases hut : u = t
    · rw [pendingOf, hut, hready]
      rfl
    · rw [taken_task_ne hut, pendingOf]
  rw [Accounted] at ha ⊢
  change ((h.dispatched ++ [task] : List τ) : Multiset τ) =
    _ + (_ + ∑ u ∈ Finset.range p.created, (p.taken i task k t).pendingOf u)
  rw [← add_zero (∑ j ∈ S, ((p.taken i task k t).caller j).pending), hsum,
    Finset.sum_congr rfl fun u _ => hpending u, ← Multiset.coe_add, ha, Multiset.coe_singleton]
  abel

namespace Inv

/-- **An idle thread** gets the task. -/
theorem callerTake (hinv : Inv p h S idle) (hi : p.caller i = .test task)
    (hindex : ¬ p.mIndex ≤ 0) :
    ∃ p₁ t idle', p.take task = .ok (p₁, t) ∧ Inv (p₁.callerTo i (.lockThread task t))
      { h with dispatched := h.dispatched ++ [task] } S idle' := by
  have hmem : i ∈ S := hinv.mem (by rw [hi]; rintro ⟨⟩)
  have hmain : (p.caller i).holds .main = true := by rw [hi]; rfl
  have hlen := hinv.listed.index
  have hle := hinv.length_le
  have hmax := hinv.counts.le
  have htotal := hinv.counts.total
  obtain ⟨init, t, rfl⟩ : ∃ init t, idle = init ++ [t] := by
    rcases eq_nil_or_concat idle with rfl | ⟨init, t, rfl⟩
    · rw [length_nil] at hlen
      omega
    · exact ⟨init, t, concat_eq_append ..⟩
  rw [length_append, length_singleton] at hlen hle
  have hslot : p.mThreadList init.length = some t :=
    hinv.listed.slot _ _ (by rw [getElem?_append_right (Nat.le_refl _)]; simp)
  have hquiet := hinv.quiet_of_rests hmain (hinv.listed.rests t (by simp))
  have hrun : p.take task = .ok ({ p with
      mIndex := p.mIndex - 1
      mThreadList := update p.mThreadList init.length none
      task := update p.task t (some task) }, t) := by
    have hk : p.slot (p.mIndex - 1) = .ok init.length := by
      rw [slot, if_pos ⟨by omega, by omega⟩]
      exact congrArg Except.ok (by omega)
    rw [take, hk]
    simp only [bind, Except.bind, hslot]
    rw [if_neg]
    · rfl
    · rcases hquiet with hw | hw <;> rw [hw] <;> simp
  refine ⟨_, t, init, hrun, ?_, hinv.listed.taken hi ?_ hquiet,
    ⟨htotal, hmax, hinv.counts.pos, hinv.counts.absent, hinv.counts.stays, hinv.counts.running, ?_⟩,
    hinv.awake.taken hi hmem, hinv.accounted.taken hi hmem ?_⟩
  · refine hinv.locks.stay fun x m => ?_
    cases x with
    | caller j =>
      by_cases hj : j = i
      · rw [hj, holds, holds, hi]
        change ((p.taken i task init.length t).caller i).holds m = _
        rw [taken_caller_self]
        cases m <;> rfl
      · have hother : (p.taken i task init.length t).caller j = p.caller j := taken_caller_ne hj
        exact congrArg (CallerPc.holds · m) hother
    | worker u => rfl
  · exact fun j x hj => hinv.alone hmain (CallerPc.main_of_handing hj)
  · intro u hu
    by_cases hut : u = t
    · rw [hut]
      change (p.taken i task init.length t).task t ≠ none
      rw [taken_task_self]
      rintro ⟨⟩
    · exact fun hnone =>
        hinv.counts.task u hu ((taken_task_ne (i := i) (k := init.length) hut).symm.trans hnone)
  · rcases hquiet with hw | hw <;> rw [hw] <;> rfl

end Inv

/-! ### Signalling a thread -/

def signalled (p : Pool τ) (i t : ℕ) : Pool τ := (p.workerTo t .woken).callerTo i (.unlockThread t)

theorem signalled_caller_self : (p.signalled i t).caller i = .unlockThread t :=
  update_self ..

theorem signalled_caller_ne {j : ℕ} (hj : j ≠ i) : (p.signalled i t).caller j = p.caller j :=
  update_of_ne hj ..

theorem signalled_worker_self : (p.signalled i t).worker t = .woken := update_self ..

theorem signalled_worker_ne {u : ℕ} (hu : u ≠ t) : (p.signalled i t).worker u = p.worker u :=
  update_of_ne hu ..

theorem Idle.signalled (hl : p.Idle idle) (hi : p.caller i = .signal task t)
    (halone : ∀ j, (p.caller j).holds .main = true → j = i) : (p.signalled i t).Idle idle := by
  obtain ⟨hnot, -, -⟩ := hl.given i task t (by rw [hi]; rfl)
  have hother : ∀ {j}, ((p.signalled i t).caller j).holds .main = true →
      (p.signalled i t).caller j = .unlockThread t := by
    intro j hj
    by_cases hji : j = i
    · rw [hji, signalled_caller_self]
    · rw [signalled_caller_ne hji] at hj
      exact absurd (halone j hj) hji
  refine ⟨hl.index, hl.slot, hl.nodup, fun u hu => ?_, fun u hu => ?_, fun j task' u hj => ?_,
    fun j task' u hj => ?_, fun j u hj => ?_⟩
  · have hut : u ≠ t := fun heq => hnot (heq ▸ hu)
    rw [signalled_worker_ne hut]
    exact hl.rests u hu
  · have hut : u ≠ t := by
      rintro rfl
      rw [signalled_worker_self] at hu
      cases hu
    rw [signalled_worker_ne hut] at hu
    refine (hl.handed u hu).imp_right fun ⟨j, task', hj⟩ => ?_
    rw [halone j (CallerPc.main_of_handing hj), hi] at hj
    exact absurd (congrArg Prod.snd (Option.some.inj hj)).symm hut
  · rw [hother (CallerPc.main_of_handing hj)] at hj
    cases hj
  · have := hother (j := j) (by rw [hj]; rfl)
    rw [hj] at this
    cases this
  · have := hother (j := j) (by rw [hj]; rfl)
    obtain rfl := CallerPc.unlockThread.inj (hj.symm.trans this)
    rw [signalled_worker_self]
    nofun

theorem Counts.signalled (hc : p.Counts) (hwait : p.worker t = .wait) :
    (p.signalled i t).Counts where
  total := hc.total
  le := hc.le
  pos := hc.pos
  absent u := by
    change _ ↔ p.created ≤ u
    by_cases hut : u = t
    · rw [hut, signalled_worker_self, ← hc.absent t, hwait]
      exact ⟨nofun, nofun⟩
    · rw [signalled_worker_ne hut, hc.absent u]
  stays u := by
    by_cases hut : u = t
    · rw [hut, signalled_worker_self]
      rfl
    · rw [signalled_worker_ne hut]
      exact hc.stays u
  running := hc.running
  task := hc.task

theorem Awake.signalled (ha : p.Awake S idle) (hi : p.caller i = .signal task t) (hmem : i ∈ S)
    (hwait : p.worker t = .wait) : (p.signalled i t).Awake S idle := by
  have hwaiting : ∀ j, (p.signalled i t).Waiting j → p.Waiting j := by
    rintro j ⟨task', hj⟩
    have hji : j ≠ i := by
      rintro rfl
      rw [signalled_caller_self] at hj
      cases hj
    exact ⟨task', (signalled_caller_ne hji).symm.trans hj⟩
  have hlooking : ∀ j, ((p.signalled i t).caller j).looking = (p.caller j).looking := by
    intro j
    by_cases hji : j = i
    · rw [hji, signalled_caller_self, hi]
      rfl
    · rw [signalled_caller_ne hji]
  have hwaking : ∀ u, ((p.signalled i t).worker u).waking = (p.worker u).waking := by
    intro u
    by_cases hut : u = t
    · rw [hut, signalled_worker_self, hwait]
      rfl
    · rw [signalled_worker_ne hut]
  refine ⟨fun j hj => ?_, fun ⟨j, hj⟩ => ?_, fun ⟨j, hj⟩ => ha.created ⟨j, hwaiting j hj⟩⟩
  · have hji : j ≠ i := by
      rintro rfl
      exact hj hmem
    rw [signalled_caller_ne hji]
    exact ha.cover j hj
  · simp only [hlooking, hwaking]
    exact ha.looked ⟨j, hwaiting j hj⟩

theorem Accounted.signalled (ha : p.Accounted h S) (hi : p.caller i = .signal task t) (hmem : i ∈ S)
    (hwait : p.worker t = .wait) (htask : p.task t = some task) (ht : t < p.created) :
    (p.signalled i t).Accounted h S := by
  have hcallers := sum_exchange hmem fun j hj => congrArg CallerPc.pending
    (signalled_caller_ne (p := p) (t := t) hj)
  have hunlock : (CallerPc.unlockThread t : CallerPc τ).pending = 0 := rfl
  have hsignal : (CallerPc.signal task t).pending = {task} := rfl
  rw [signalled_caller_self, hi, hunlock, hsignal, add_zero] at hcallers
  have hpending : ∀ u, u ≠ t → (p.signalled i t).pendingOf u = p.pendingOf u := by
    intro u hut
    rw [pendingOf, signalled_worker_ne hut]
    rfl
  have hworkers := sum_exchange (Finset.mem_range.mpr ht) hpending
  have hold : p.pendingOf t = 0 := by
    rw [pendingOf, hwait]
    rfl
  have hnew : (p.signalled i t).pendingOf t = {task} := by
    rw [pendingOf, signalled_worker_self]
    change (p.task t).elim 0 _ = _
    rw [htask]
    rfl
  rw [hold, hnew, add_zero] at hworkers
  rw [Accounted] at ha ⊢
  change _ = _ + (_ + ∑ u ∈ Finset.range p.created, (p.signalled i t).pendingOf u)
  rw [hworkers, ha, ← hcallers]
  abel

namespace Inv

/-- **The signal** reaches the thread: it waits. -/
theorem callerSignal (hinv : Inv p h S idle) (hi : p.caller i = .signal task t) :
    Inv (p.signalled i t) h S idle := by
  have hmem : i ∈ S := hinv.mem (by rw [hi]; nofun)
  have hmain : (p.caller i).holds .main = true := by rw [hi]; rfl
  have hwait := hinv.listed.signal i task t hi
  obtain ⟨-, -, htask⟩ := hinv.listed.given i task t (by rw [hi]; rfl)
  have ht : t < p.created := hinv.lt_created (by rw [hwait]; nofun)
  refine ⟨hinv.locks.stay fun x m => ?_, hinv.listed.signalled hi fun j => hinv.alone hmain,
    hinv.counts.signalled hwait, hinv.awake.signalled hi hmem hwait,
    hinv.accounted.signalled hi hmem hwait htask ht⟩
  cases x with
  | caller j =>
    by_cases hji : j = i
    · rw [hji, holds, holds, signalled_caller_self, hi]
      cases m <;> rfl
    · rw [holds, holds, signalled_caller_ne hji]
  | worker u =>
    by_cases hut : u = t
    · rw [hut, holds, holds, signalled_worker_self, hwait]
      cases m <;> rfl
    · rw [holds, holds, signalled_worker_ne hut]

end Inv

end Pool

end Spserver.ThreadPool
