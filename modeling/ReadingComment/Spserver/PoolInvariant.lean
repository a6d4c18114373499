import ReadingComment.Lib.Locks
import ReadingComment.Spserver.ThreadPool

/-!
# What holds in a thread pool

A thread is on the list of idle threads from the moment it saves itself until a caller takes it off;
from then on until the caller's signal, the caller has `mMainMutex`, and the thread waits or is
about to wait. So the signal is not lost. A thread saves itself with its own mutex locked, but a
caller asks for this mutex only when the thread is done with `mMainMutex`.

As long as somebody waits for an idle thread, each thread on the list is matched by somebody who was
woken and did not look yet, or by a thread that is about to wake somebody.
-/

namespace Spserver.ThreadPool

open Function Lib

variable {τ : Type}

/-! ## Places -/

/-- The caller has locked the mutex. -/
def CallerPc.holds : CallerPc τ → Mutex → Bool
  | .test _, .main | .lockThread _ _, .main | .unlock _, .main => true
  | .signal _ _, .main | .unlockThread _, .main => true
  | .signal _ t, .thread u | .unlockThread t, .thread u => t = u
  | _, _ => false

/-- The thread has locked the mutex. -/
def WorkerPc.holds (t : ℕ) : WorkerPc → Mutex → Bool
  | .save, .main | .signalIdle, .main | .saveUnlock _, .main | .exit, .main => true
  | .saveLock, .thread u | .save, .thread u | .signalIdle, .thread u | .saveUnlock _, .thread u
  | .sleep, .thread u | .unlock, .thread u | .unlockFree, .thread u => t = u
  | _, _ => false

/-- The thread that a caller has taken, and the task for it, up to the signal. -/
def CallerPc.handing : CallerPc τ → Option (τ × ℕ)
  | .lockThread task t | .signal task t => some (task, t)
  | _ => none

/-- The task that the caller has not handed over yet. -/
def CallerPc.pending (pc : CallerPc τ) : Multiset τ := pc.handing.elim 0 fun x => {x.1}

def CallerPc.looking : CallerPc τ → ℕ
  | .woken _ | .test _ => 1
  | _ => 0

/-- The thread is in the list of the idle ones. -/
def WorkerPc.rests : WorkerPc → Bool
  | .signalIdle | .sleep | .wait => true
  | .saveUnlock ret => ret = 0
  | _ => false

def WorkerPc.waking : WorkerPc → ℕ
  | .signalIdle => 1
  | _ => 0

/-- The thread has a task that it has not executed. -/
def WorkerPc.ready : WorkerPc → Bool
  | .test | .woken | .unlock => true
  | _ => false

def WorkerPc.stays : WorkerPc → Bool
  | .unlockFree | .exitLock | .exit | .gone => false
  | .saveUnlock ret => ret = 0
  | _ => true

/-- The mutex that the caller waits for. -/
def CallerPc.waitsFor : CallerPc τ → Option Mutex
  | .lock _ | .woken _ => some .main
  | .lockThread _ t => some (.thread t)
  | _ => none

/-- The mutex that the thread waits for. -/
def WorkerPc.waitsFor (t : ℕ) : WorkerPc → Option Mutex
  | .lock | .woken => some (.thread t)
  | .saveLock | .exitLock => some .main
  | _ => none

def CallerPc.weight : CallerPc τ → ℕ
  | .idle => 0
  | .unlock _ => 1
  | .unlockThread _ => 2
  | .signal _ _ => 15
  | .lockThread _ _ | .wait _ => 16
  | .test _ => 17
  | .lock _ | .woken _ => 18

/-- An upper bound of the steps that a thread of the pool causes until it waits. -/
def WorkerPc.weight : WorkerPc → ℕ
  | .absent | .gone | .wait => 0
  | .sleep | .unlockFree | .exit => 1
  | .saveUnlock _ | .exitLock => 2
  | .signalIdle => 5
  | .save => 6
  | .saveLock => 7
  | .lock => 8
  | .run => 9
  | .test => 10
  | .unlock => 11
  | .woken => 12

theorem WorkerPc.eq_of_holds {t u : ℕ} {pc : WorkerPc} (hpc : pc.holds t (.thread u) = true) :
    t = u := by
  cases pc <;> first
    | exact of_decide_eq_true hpc
    | cases hpc

theorem CallerPc.main_of_holds {pc : CallerPc τ} {m : Mutex} (hpc : pc.holds m = true) :
    pc.holds .main = true := by
  cases m with
  | main => exact hpc
  | thread t => cases pc <;> first | rfl | cases hpc

theorem CallerPc.main_of_handing {pc : CallerPc τ} {x : τ × ℕ} (hpc : pc.handing = some x) :
    pc.holds .main = true := by
  cases pc <;> first
    | rfl
    | cases hpc

theorem WorkerPc.ne_absent_of_rests {pc : WorkerPc} (hpc : pc.rests = true) : pc ≠ .absent := by
  rintro rfl
  cases hpc

/-- What a run did. -/
structure History (τ : Type) where
  /-- the tasks for which `dispatch` has found a thread -/
  dispatched : List τ
  /-- the tasks whose execution has begun -/
  executed : List τ

namespace Pool

variable {p p' : Pool τ} {h h' : History τ} {S : Finset ℕ} {idle : List ℕ} {i t : ℕ} {task : τ}

def holds (p : Pool τ) : Party → Mutex → Bool
  | .caller i, m => (p.caller i).holds m
  | .worker t, m => (p.worker t).holds t m

def holder (p : Pool τ) : Mutex → Option Party
  | .main => p.mMainMutex
  | .thread t => p.mMutex t

def pendingOf (p : Pool τ) (t : ℕ) : Multiset τ :=
  if (p.worker t).ready then (p.task t).elim 0 fun x => {x} else 0

def note (p : Pool τ) (a : Action τ) (h : History τ) : History τ :=
  match a with
  | .caller i creates =>
    match p.caller i with
    | .test task =>
      if p.mIndex ≤ 0 ∧ (p.mTotal ≥ p.mMaxThreads ∨ creates = false) then h
      else { h with dispatched := h.dispatched ++ [task] }
    | _ => h
  | .worker t _ =>
    match p.worker t with
    | .test =>
      if p.mIsShutdown then h else { h with executed := h.executed ++ (p.task t).toList }
    | _ => h
  | _ => h

/-- The pool with what a run did. -/
def historySystem (maxThreads : ℤ) : Lib.System (Pool τ × History τ) (Action τ) Fault :=
  (system maxThreads).record ⟨[], []⟩ note

/-! ## The invariant -/

/-- The list of idle threads. -/
structure Idle (p : Pool τ) (idle : List ℕ) : Prop where
  index : p.mIndex = idle.length
  slot : ∀ k t, idle[k]? = some t → p.mThreadList k = some t
  nodup : idle.Nodup
  rests : ∀ t ∈ idle, (p.worker t).rests = true
  handed : ∀ t, (p.worker t).rests = true →
    t ∈ idle ∨ ∃ i task, (p.caller i).handing = some (task, t)
  given : ∀ i task t, (p.caller i).handing = some (task, t) →
    t ∉ idle ∧ (p.worker t = .sleep ∨ p.worker t = .wait) ∧ p.task t = some task
  signal : ∀ i task t, p.caller i = .signal task t → p.worker t = .wait
  unlockThread : ∀ i t, p.caller i = .unlockThread t → p.worker t ≠ .absent

/-- The threads that were created. -/
structure Counts (p : Pool τ) : Prop where
  total : p.mTotal = p.created
  le : p.mTotal ≤ p.mMaxThreads
  pos : 0 < p.mMaxThreads
  absent : ∀ t, p.worker t = .absent ↔ p.created ≤ t
  stays : ∀ t, (p.worker t).stays = true
  running : p.mIsShutdown = false
  task : ∀ t, t < p.created → p.task t ≠ none

/-- Nobody waits in vain for an idle thread. -/
structure Awake (p : Pool τ) (S : Finset ℕ) (idle : List ℕ) : Prop where
  cover : ∀ i, i ∉ S → p.caller i = .idle
  looked : (∃ i, p.Waiting i) → idle.length ≤
    ∑ i ∈ S, (p.caller i).looking + ∑ t ∈ Finset.range p.created, (p.worker t).waking
  created : (∃ i, p.Waiting i) → 0 < p.created

/-- Every dispatched task was executed or waits for it. -/
def Accounted (p : Pool τ) (h : History τ) (S : Finset ℕ) : Prop :=
  (h.dispatched : Multiset τ) = (h.executed : Multiset τ) +
    (∑ i ∈ S, (p.caller i).pending + ∑ t ∈ Finset.range p.created, p.pendingOf t)

/-- **The invariant** of a pool. -/
structure Inv (p : Pool τ) (h : History τ) (S : Finset ℕ) (idle : List ℕ) : Prop where
  locks : Locked p.holds p.holder
  listed : p.Idle idle
  counts : p.Counts
  awake : p.Awake S idle
  accounted : p.Accounted h S

/-! ## Moves -/

/-- A caller has moved, and everything that the others see but the mutexes is as before. -/
structure CallerMoves (p p' : Pool τ) (i : ℕ) (pc : CallerPc τ) : Prop where
  caller : p'.caller = Function.update p.caller i pc
  worker : p'.worker = p.worker
  task : p'.task = p.task
  created : p'.created = p.created
  mIndex : p'.mIndex = p.mIndex
  mThreadList : p'.mThreadList = p.mThreadList
  mTotal : p'.mTotal = p.mTotal
  mMaxThreads : p'.mMaxThreads = p.mMaxThreads
  mIsShutdown : p'.mIsShutdown = p.mIsShutdown

/-- A thread of the pool has moved, and everything that the others see but the mutexes is as
before. -/
structure WorkerMoves (p p' : Pool τ) (t : ℕ) (pc : WorkerPc) : Prop where
  worker : p'.worker = Function.update p.worker t pc
  caller : p'.caller = p.caller
  task : p'.task = p.task
  created : p'.created = p.created
  mIndex : p'.mIndex = p.mIndex
  mThreadList : p'.mThreadList = p.mThreadList
  mTotal : p'.mTotal = p.mTotal
  mMaxThreads : p'.mMaxThreads = p.mMaxThreads
  mIsShutdown : p'.mIsShutdown = p.mIsShutdown

theorem holder_main {v : Option Party} (hmain : p'.mMainMutex = v) (hmutex : p'.mMutex = p.mMutex) :
    p'.holder = update p.holder .main v := by
  funext m
  cases m with
  | main => rw [update_self, holder, hmain]
  | thread t =>
    have hne : Mutex.thread t ≠ .main := nofun
    rw [update_of_ne hne, holder, holder, hmutex]

theorem holder_thread {v : Option Party} (hmain : p'.mMainMutex = p.mMainMutex)
    (hmutex : p'.mMutex = update p.mMutex t v) :
    p'.holder = update p.holder (.thread t) v := by
  funext m
  cases m with
  | main =>
    have hne : Mutex.main ≠ .thread t := nofun
    rw [update_of_ne hne, holder, holder, hmain]
  | thread u =>
    by_cases hu : u = t
    · rw [hu, update_self, holder, hmutex, update_self]
    · have hne : Mutex.thread u ≠ .thread t := fun heq => hu (Mutex.thread.inj heq)
      rw [update_of_ne hne, holder, holder, hmutex, update_of_ne hu]

theorem Counts.congr (hc : p.Counts) (hworker : p'.worker = p.worker) (htask : p'.task = p.task)
    (hcreated : p'.created = p.created) (htotal : p'.mTotal = p.mTotal)
    (hmax : p'.mMaxThreads = p.mMaxThreads) (hshutdown : p'.mIsShutdown = p.mIsShutdown) :
    p'.Counts where
  total := by rw [htotal, hcreated]; exact hc.total
  le := by rw [htotal, hmax]; exact hc.le
  pos := by rw [hmax]; exact hc.pos
  absent t := by rw [hworker, hcreated]; exact hc.absent t
  stays t := by rw [hworker]; exact hc.stays t
  running := by rw [hshutdown]; exact hc.running
  task t := by rw [hcreated, htask]; exact hc.task t

namespace CallerMoves

variable {pc : CallerPc τ}

section

variable (hm : CallerMoves p p' i pc)

include hm

theorem caller_self : p'.caller i = pc := by
  rw [hm.caller, update_self]

theorem caller_ne {j : ℕ} (hj : j ≠ i) : p'.caller j = p.caller j := by
  rw [hm.caller, update_of_ne hj]

theorem holds_ne {x : Party} (hx : x ≠ .caller i) (m : Mutex) :
    p'.holds x m = p.holds x m := by
  cases x with
  | caller j =>
    have hj : j ≠ i := fun heq => hx (heq ▸ rfl)
    simp only [holds, hm.caller_ne hj]
  | worker t => simp only [holds, hm.worker]

theorem holds_self (m : Mutex) :
    p'.holds (.caller i) m = pc.holds m := by
  simp only [holds, hm.caller_self]

theorem take (hl : Locked p.holds p.holder) {m₀ : Mutex} (hfree : p.holder m₀ = none)
    (hself : ∀ m, pc.holds m = true ↔ (p.caller i).holds m = true ∨ m = m₀)
    (hholder : p'.holder = update p.holder m₀ (some (.caller i))) :
    Locked p'.holds p'.holder :=
  hl.take hfree (fun m => by rw [hm.holds_self]; exact hself m) (fun _ hx m => hm.holds_ne hx m)
    hholder

theorem give (hl : Locked p.holds p.holder) {m₀ : Mutex} (hhas : (p.caller i).holds m₀ = true)
    (hself : ∀ m, pc.holds m = true ↔ (p.caller i).holds m = true ∧ m ≠ m₀)
    (hholder : p'.holder = update p.holder m₀ none) : Locked p'.holds p'.holder :=
  hl.give (show p.holds (.caller i) m₀ = true from hhas)
    (fun m => by rw [hm.holds_self]; exact hself m) (fun _ hx m => hm.holds_ne hx m) hholder

theorem stay (hl : Locked p.holds p.holder) (hself : ∀ m, pc.holds m = (p.caller i).holds m)
    (hholder : p'.holder = p.holder) :
    Locked p'.holds p'.holder := by
  rw [hholder]
  refine hl.stay fun x m => ?_
  by_cases hx : x = .caller i
  · rw [hx, hm.holds_self]
    exact hself m
  · exact hm.holds_ne hx m

theorem counts (hc : p.Counts) : p'.Counts :=
  hc.congr hm.worker hm.task hm.created hm.mTotal hm.mMaxThreads hm.mIsShutdown

theorem listed (hi : p.Idle idle) (hhanding : pc.handing = (p.caller i).handing)
    (hsignal : ∀ task t, pc = .signal task t → p.worker t = .wait)
    (hunlock : ∀ t, pc ≠ .unlockThread t) : p'.Idle idle := by
  have hsame : ∀ j, (p'.caller j).handing = (p.caller j).handing := by
    intro j
    by_cases hj : j = i
    · rw [hj, hm.caller_self, hhanding]
    · rw [hm.caller_ne hj]
  refine ⟨hm.mIndex.trans hi.index, ?_, hi.nodup, ?_, ?_, ?_, ?_, ?_⟩
  · rw [hm.mThreadList]
    exact hi.slot
  · rw [hm.worker]
    exact hi.rests
  · simp only [hm.worker, hsame]
    exact hi.handed
  · simp only [hm.worker, hsame, hm.task]
    exact hi.given
  · intro j task t hj
    rw [hm.worker]
    by_cases hji : j = i
    · rw [hji, hm.caller_self] at hj
      exact hsignal task t hj
    · rw [hm.caller_ne hji] at hj
      exact hi.signal j task t hj
  · intro j t hj
    rw [hm.worker]
    by_cases hji : j = i
    · rw [hji, hm.caller_self] at hj
      exact absurd hj (hunlock t)
    · rw [hm.caller_ne hji] at hj
      exact hi.unlockThread j t hj

theorem sum {M : Type} [AddCommMonoid M] (hi : i ∈ S) (f : CallerPc τ → M) :
    ∑ j ∈ S, f (p'.caller j) + f (p.caller i) =
      ∑ j ∈ S, f (p.caller j) + f pc := by
  have hsum := sum_exchange hi fun j hj => congrArg f (hm.caller_ne hj)
  rwa [hm.caller_self] at hsum

theorem accounted (ha : p.Accounted h S) (hi : i ∈ S)
    (hpending : pc.handing = (p.caller i).handing) :
    p'.Accounted h S := by
  have hsum := hm.sum hi CallerPc.pending
  rw [CallerPc.pending, CallerPc.pending, hpending] at hsum
  have hsame : ∀ t, p'.pendingOf t = p.pendingOf t := fun t => by
    rw [pendingOf, pendingOf, hm.worker, hm.task]
  rw [Accounted, hm.created, Finset.sum_congr rfl fun t _ => hsame t, add_right_cancel hsum]
  exact ha

theorem awake (ha : p.Awake S idle) (hi : i ∈ S)
    (hlook : idle = [] ∨ (∀ task, pc ≠ .wait task) ∧ (p.caller i).looking ≤ pc.looking)
    (hcreated : ∀ task, pc = .wait task → 0 < p.created) : p'.Awake S idle := by
  -- who waits now, waited before or is the caller
  have hwaiting : ∀ j, p'.Waiting j → p.Waiting j ∨ ∃ task, pc = .wait task := by
    rintro j ⟨task, hj⟩
    by_cases hji : j = i
    · rw [hji, hm.caller_self] at hj
      exact .inr ⟨task, hj⟩
    · rw [hm.caller_ne hji] at hj
      exact .inl ⟨task, hj⟩
  refine ⟨fun j hj => ?_, ?_, ?_⟩
  · have hji : j ≠ i := fun heq => hj (heq ▸ hi)
    rw [hm.caller_ne hji]
    exact ha.cover j hj
  · rintro ⟨j, hj⟩
    rcases hlook with rfl | ⟨hpc, hle⟩
    · exact Nat.zero_le _
    · have hold := ha.looked ⟨j, (hwaiting j hj).resolve_right fun ⟨task, heq⟩ => hpc task heq⟩
      have hsum := hm.sum hi CallerPc.looking
      rw [hm.worker, hm.created]
      omega
  · rintro ⟨j, hj⟩
    rw [hm.created]
    rcases hwaiting j hj with hj | ⟨task, heq⟩
    · exact ha.created ⟨j, hj⟩
    · exact hcreated task heq

theorem next (hinv : Inv p h S idle) (hi : i ∈ S) (hlocks : Locked p'.holds p'.holder)
    (hhanding : pc.handing = (p.caller i).handing)
    (hsignal : ∀ task t, pc = .signal task t → p.worker t = .wait)
    (hunlock : ∀ t, pc ≠ .unlockThread t)
    (hlook : idle = [] ∨ (∀ task, pc ≠ .wait task) ∧ (p.caller i).looking ≤ pc.looking)
    (hcreated : ∀ task, pc = .wait task → 0 < p.created) : Inv p' h S idle :=
  ⟨hlocks, hm.listed hinv.listed hhanding hsignal hunlock, hm.counts hinv.counts,
    hm.awake hinv.awake hi hlook hcreated, hm.accounted hinv.accounted hi hhanding⟩

end

end CallerMoves

namespace WorkerMoves

variable {pc old : WorkerPc}

section

variable (hm : WorkerMoves p p' t pc)

include hm

theorem worker_self : p'.worker t = pc := by
  rw [hm.worker, update_self]

theorem worker_ne {u : ℕ} (hu : u ≠ t) : p'.worker u = p.worker u := by
  rw [hm.worker, update_of_ne hu]

theorem holds_ne {x : Party} (hx : x ≠ .worker t) (m : Mutex) :
    p'.holds x m = p.holds x m := by
  cases x with
  | caller i => simp only [holds, hm.caller]
  | worker u =>
    have hu : u ≠ t := fun heq => hx (heq ▸ rfl)
    simp only [holds, hm.worker_ne hu]

theorem holds_self (m : Mutex) :
    p'.holds (.worker t) m = pc.holds t m := by
  simp only [holds, hm.worker_self]

theorem take (hl : Locked p.holds p.holder) (ht : p.worker t = old) {m₀ : Mutex}
    (hfree : p.holder m₀ = none) (hself : ∀ m, pc.holds t m = true ↔ old.holds t m = true ∨ m = m₀)
    (hholder : p'.holder = update p.holder m₀ (some (.worker t))) :
    Locked p'.holds p'.holder :=
  hl.take hfree (fun m => by rw [hm.holds_self, holds, ht]; exact hself m)
    (fun _ hx m => hm.holds_ne hx m) hholder

theorem give (hl : Locked p.holds p.holder) (ht : p.worker t = old) {m₀ : Mutex}
    (hhas : old.holds t m₀ = true)
    (hself : ∀ m, pc.holds t m = true ↔ old.holds t m = true ∧ m ≠ m₀)
    (hholder : p'.holder = update p.holder m₀ none) : Locked p'.holds p'.holder :=
  hl.give (by rw [holds, ht]; exact hhas) (fun m => by rw [hm.holds_self, holds, ht]; exact hself m)
    (fun _ hx m => hm.holds_ne hx m) hholder

theorem stay (hl : Locked p.holds p.holder) (hself : ∀ m, pc.holds t m = (p.worker t).holds t m)
    (hholder : p'.holder = p.holder) :
    Locked p'.holds p'.holder := by
  rw [hholder]
  refine hl.stay fun x m => ?_
  by_cases hx : x = .worker t
  · rw [hx, hm.holds_self]
    exact hself m
  · exact hm.holds_ne hx m

theorem counts (hc : p.Counts) (hpc : pc ≠ .absent) (hold : p.worker t ≠ .absent)
    (hstays : pc.stays = true) : p'.Counts where
  total := by rw [hm.mTotal, hm.created]; exact hc.total
  le := by rw [hm.mTotal, hm.mMaxThreads]; exact hc.le
  pos := by rw [hm.mMaxThreads]; exact hc.pos
  absent u := by
    rw [hm.created, ← hc.absent u]
    by_cases hu : u = t
    · rw [hu, hm.worker_self]
      exact ⟨fun heq => absurd heq hpc, fun heq => absurd heq hold⟩
    · rw [hm.worker_ne hu]
  stays u := by
    by_cases hu : u = t
    · rw [hu, hm.worker_self]
      exact hstays
    · rw [hm.worker_ne hu]
      exact hc.stays u
  running := by rw [hm.mIsShutdown]; exact hc.running
  task u := by rw [hm.created, hm.task]; exact hc.task u

theorem listed (hi : p.Idle idle) (hrests : pc.rests = (p.worker t).rests)
    (hsleep : p.worker t = .sleep ∨ p.worker t = .wait → pc = .wait) (hpc : pc ≠ .absent) :
    p'.Idle idle := by
  have hsame : ∀ u, (p'.worker u).rests = (p.worker u).rests := by
    intro u
    by_cases hu : u = t
    · rw [hu, hm.worker_self, hrests]
    · rw [hm.worker_ne hu]
  refine ⟨hm.mIndex.trans hi.index, ?_, hi.nodup, ?_, ?_, ?_, ?_, ?_⟩
  · rw [hm.mThreadList]
    exact hi.slot
  · simp only [hsame]
    exact hi.rests
  · simp only [hsame, hm.caller]
    exact hi.handed
  · intro i task u hu
    rw [hm.caller] at hu
    obtain ⟨hnot, hwait, htask⟩ := hi.given i task u hu
    refine ⟨hnot, ?_, hm.task ▸ htask⟩
    by_cases hut : u = t
    · rw [hut] at hwait ⊢
      rw [hm.worker_self]
      exact .inr (hsleep hwait)
    · rwa [hm.worker_ne hut]
  · intro i task u hu
    rw [hm.caller] at hu
    have hwait := hi.signal i task u hu
    by_cases hut : u = t
    · rw [hut] at hwait ⊢
      rw [hm.worker_self]
      exact hsleep (.inr hwait)
    · rwa [hm.worker_ne hut]
  · intro i u hu
    rw [hm.caller] at hu
    by_cases hut : u = t
    · rw [hut, hm.worker_self]
      exact hpc
    · rw [hm.worker_ne hut]
      exact hi.unlockThread i u hu

theorem sum {M : Type} [AddCommMonoid M] (ht : t < p.created) (f : WorkerPc → M) :
    ∑ u ∈ Finset.range p'.created, f (p'.worker u) + f (p.worker t) =
      ∑ u ∈ Finset.range p.created, f (p.worker u) + f pc := by
  have hsum := sum_exchange (Finset.mem_range.mpr ht) fun u hu => congrArg f (hm.worker_ne hu)
  rw [hm.created]
  rwa [hm.worker_self] at hsum

theorem accounted (ha : p.Accounted h S) (hready : pc.ready = (p.worker t).ready) :
    p'.Accounted h S := by
  have hsame : ∀ u, p'.pendingOf u = p.pendingOf u := fun u => by
    rw [pendingOf, pendingOf, hm.task]
    by_cases hu : u = t
    · rw [hu, hm.worker_self, hready]
    · rw [hm.worker_ne hu]
  rw [Accounted, hm.created, hm.caller, Finset.sum_congr rfl fun u _ => hsame u]
  exact ha

theorem awake (ha : p.Awake S idle) (hwaking : pc.waking = (p.worker t).waking) :
    p'.Awake S idle := by
  have hsame : ∀ u, (p'.worker u).waking = (p.worker u).waking := fun u => by
    by_cases hu : u = t
    · rw [hu, hm.worker_self, hwaking]
    · rw [hm.worker_ne hu]
  have hwaiting : ∀ i, p'.Waiting i ↔ p.Waiting i := fun i => by rw [Waiting, Waiting, hm.caller]
  refine ⟨?_, ?_, ?_⟩
  · rw [hm.caller]
    exact ha.cover
  · simp only [hwaiting, hsame, hm.caller, hm.created]
    exact ha.looked
  · simp only [hwaiting, hm.created]
    exact ha.created

theorem next (hinv : Inv p h S idle) (ht : p.worker t = old) (hlocks : Locked p'.holds p'.holder)
    (hpc : pc ≠ .absent := by rintro ⟨⟩) (hold : old ≠ .absent := by rintro ⟨⟩)
    (hstays : pc.stays = true := by rfl)
    (hrests : pc.rests = old.rests := by rfl)
    (hsleep : old = .sleep ∨ old = .wait → pc = .wait := by simp)
    (hready : pc.ready = old.ready := by rfl) (hwaking : pc.waking = old.waking := by rfl) :
    Inv p' h S idle := by
  subst ht
  exact ⟨hlocks, hm.listed hinv.listed hrests hsleep hpc, hm.counts hinv.counts hpc hold hstays,
    hm.awake hinv.awake hwaking, hm.accounted hinv.accounted hready⟩

end

end WorkerMoves

end Pool

end Spserver.ThreadPool
