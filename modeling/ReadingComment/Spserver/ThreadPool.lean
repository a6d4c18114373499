import ReadingComment.Lib.Run
import Mathlib.Data.Int.Notation

/-!
# The thread pool (`spserver/spthreadpool.cpp`)

Threads call `dispatch` with a task (a function and its argument); the pool hands
it to a thread of its own that is idle, or creates one, or waits for one. A step of
the model is what a thread does up to its next operation on a mutex or a condition:
it locks, waits, signals or unlocks. A waiting thread is woken by a signal only.

The memory for a new thread is there, but its creation may fail. The destructor of
the pool is left out: nobody waits for `mFullCond` and `mEmptyCond`.
-/

namespace Spserver.ThreadPool

/-- The undefined behaviour that the steps check for. -/
inductive Fault where
  /-- an access outside `mThreadList` -/
  | outOfArray
  /-- a thread that is `NULL`, was freed, or was never created -/
  | noThread
  /-- a call of a function that was never set -/
  | noTask
  deriving DecidableEq, Repr

/-- Who uses the pool. -/
inductive Party where
  /-- a thread that calls `dispatch` -/
  | caller (i : ℕ)
  /-- a thread of the pool -/
  | worker (t : ℕ)
  deriving DecidableEq, Repr

/-- The mutexes of the pool. -/
inductive Mutex where
  /-- `mMainMutex` -/
  | main
  /-- the `mMutex` of a thread -/
  | thread (t : ℕ)
  deriving DecidableEq, Repr

/-- Where a thread is in `dispatch`. -/
inductive CallerPc (τ : Type) where
  /-- not in `dispatch` -/
  | idle
  | lock (task : τ)
  /-- at the test of the loop -/
  | test (task : τ)
  /-- waiting for `mIdleCond` -/
  | wait (task : τ)
  /-- woken, and waiting for `mMainMutex` -/
  | woken (task : τ)
  | lockThread (task : τ) (t : ℕ)
  | signal (task : τ) (t : ℕ)
  | unlockThread (t : ℕ)
  | unlock (ret : ℤ)

/-- Where a thread of the pool is in `wrapperFunc`. -/
inductive WorkerPc where
  /-- not created -/
  | absent
  /-- at the test of the loop -/
  | test
  /-- in `mFunc( mArg )` -/
  | run
  | lock
  /-- at the `lock` of `saveThread` -/
  | saveLock
  /-- behind it -/
  | save
  /-- at the signal of `mIdleCond` -/
  | signalIdle
  /-- at the `unlock` of `saveThread` -/
  | saveUnlock (ret : ℤ)
  /-- at the `wait` for its `mCond` -/
  | sleep
  /-- waiting for its `mCond` -/
  | wait
  /-- woken, and waiting for its `mMutex` -/
  | woken
  | unlock
  /-- at the `unlock` before it frees itself -/
  | unlockFree
  /-- at the `lock` after the loop -/
  | exitLock
  /-- behind it -/
  | exit
  /-- ended or freed -/
  | gone
  deriving DecidableEq, Repr

/-- A pool with its threads, and the threads that call `dispatch`. -/
structure Pool (τ : Type) where
  mMaxThreads : ℤ
  mIndex : ℤ
  mTotal : ℤ
  mIsShutdown : Bool
  mThreadList : ℕ → Option ℕ
  mMainMutex : Option Party
  /-- the number of threads that were created; they are numbered -/
  created : ℕ
  /-- the `mFunc` and `mArg` of a thread -/
  task : ℕ → Option τ
  /-- the `mMutex` of a thread -/
  mMutex : ℕ → Option Party
  worker : ℕ → WorkerPc
  caller : ℕ → CallerPc τ

namespace Pool

variable {τ : Type}

/-- `SP_ThreadPool( maxThreads, tag )`. -/
def new (maxThreads : ℤ) : Pool τ where
  mMaxThreads := if maxThreads ≤ 0 then 2 else maxThreads
  mIndex := 0
  mTotal := 0
  mIsShutdown := false
  mThreadList _ := none
  mMainMutex := none
  created := 0
  task _ := none
  mMutex _ := none
  worker _ := .absent
  caller _ := .idle

/-- What happens next. -/
inductive Action (τ : Type) where
  /-- A thread calls `dispatch`. -/
  | dispatch (i : ℕ) (task : τ)
  /-- A thread goes on in `dispatch`; `creates` says whether a thread can be created. -/
  | caller (i : ℕ) (creates : Bool)
  /-- A thread of the pool goes on; `woken` is who is woken by a signal of `mIdleCond`. -/
  | worker (t : ℕ) (woken : Option ℕ)

/-- The caller waits for `mIdleCond`. -/
def Waiting (p : Pool τ) (i : ℕ) : Prop := ∃ task, p.caller i = .wait task

/-- A signal of `mIdleCond` wakes one of those who wait, if there are any. -/
def Wakes (p : Pool τ) : Option ℕ → Prop
  | some i => p.Waiting i
  | none => ∀ i, ¬ p.Waiting i

def Allowed (p : Pool τ) : Action τ → Prop
  | .dispatch i _ => p.caller i = .idle
  | .caller i _ =>
    match p.caller i with
    | .idle | .wait _ => False
    | .lock _ | .woken _ => p.mMainMutex = none
    | .lockThread _ t => p.mMutex t = none
    | _ => True
  | .worker t woken =>
    match p.worker t with
    | .absent | .wait | .gone => False
    | .lock | .woken => p.mMutex t = none
    | .saveLock | .exitLock => p.mMainMutex = none
    | .signalIdle => p.Wakes woken
    | _ => True

def callerTo (p : Pool τ) (i : ℕ) (pc : CallerPc τ) : Pool τ :=
  { p with caller := Function.update p.caller i pc }

def workerTo (p : Pool τ) (t : ℕ) (pc : WorkerPc) : Pool τ :=
  { p with worker := Function.update p.worker t pc }

def setMutex (p : Pool τ) (t : ℕ) (holder : Option Party) : Pool τ :=
  { p with mMutex := Function.update p.mMutex t holder }

def create (p : Pool τ) (task : τ) : Pool τ :=
  { p with
    task := Function.update p.task p.created (some task)
    mMutex := Function.update p.mMutex p.created none
    worker := Function.update p.worker p.created .test
    created := p.created + 1
    mTotal := p.mTotal + 1 }

/-- The place in `mThreadList` with an index. -/
def slot (p : Pool τ) (index : ℤ) : Except Fault ℕ :=
  if 0 ≤ index ∧ index < p.mMaxThreads then .ok index.toNat else .error .outOfArray

/-- The last thread of `mThreadList` is taken and gets a task. -/
def take (p : Pool τ) (task : τ) : Except Fault (Pool τ × ℕ) := do
  let k ← p.slot (p.mIndex - 1)
  match p.mThreadList k with
  | none => .error .noThread
  | some t =>
    if p.worker t = .absent ∨ p.worker t = .gone then .error .noThread
    else return ({ p with
      mIndex := p.mIndex - 1
      mThreadList := Function.update p.mThreadList k none
      task := Function.update p.task t (some task) }, t)

/-- A step of `dispatch( dispatchFunc, arg )`. -/
def callerStep (p : Pool τ) (i : ℕ) (creates : Bool) : Except Fault (Pool τ) :=
  match p.caller i with
  | .idle | .wait _ => .ok p
  | .lock task => .ok { p.callerTo i (.test task) with mMainMutex := some (.caller i) }
  | .test task =>
    if p.mIndex ≤ 0 ∧ p.mTotal ≥ p.mMaxThreads then
      .ok { p.callerTo i (.wait task) with mMainMutex := none }
    else if p.mIndex ≤ 0 then
      if creates then .ok ((p.create task).callerTo i (.unlock 0))
      else .ok (p.callerTo i (.unlock (-1)))
    else do
      let (p, t) ← p.take task
      return p.callerTo i (.lockThread task t)
  | .woken task => .ok { p.callerTo i (.test task) with mMainMutex := some (.caller i) }
  | .lockThread task t => .ok ((p.setMutex t (some (.caller i))).callerTo i (.signal task t))
  | .signal _ t =>
    -- nobody but the thread itself waits for its `mCond`
    let p := if p.worker t = .wait then p.workerTo t .woken else p
    .ok (p.callerTo i (.unlockThread t))
  | .unlockThread t => .ok ((p.setMutex t none).callerTo i (.unlock 0))
  | .unlock _ => .ok { p.callerTo i .idle with mMainMutex := none }

/-- A caller that waits for `mIdleCond` is woken. -/
def wake (p : Pool τ) : Option ℕ → Pool τ
  | none => p
  | some i =>
    match p.caller i with
    | .wait task => p.callerTo i (.woken task)
    | _ => p

/-- A step of `wrapperFunc( arg )`. -/
def workerStep (p : Pool τ) (t : ℕ) (woken : Option ℕ) : Except Fault (Pool τ) :=
  match p.worker t with
  | .absent | .wait | .gone => .ok p
  | .test =>
    if p.mIsShutdown then .ok (p.workerTo t .exitLock)
    else
      match p.task t with
      | some _ => .ok (p.workerTo t .run)
      | none => .error .noTask
  | .run => .ok (p.workerTo t (if p.mIsShutdown then .exitLock else .lock))
  | .lock => .ok ((p.setMutex t (some (.worker t))).workerTo t .saveLock)
  | .saveLock => .ok { p.workerTo t .save with mMainMutex := some (.worker t) }
  | .save =>
    if p.mIndex < p.mMaxThreads then do
      let k ← p.slot p.mIndex
      return { p.workerTo t .signalIdle with
        mThreadList := Function.update p.mThreadList k (some t)
        mIndex := p.mIndex + 1 }
    else .ok (p.workerTo t (.saveUnlock (-1)))
  | .signalIdle => .ok ((p.wake woken).workerTo t (.saveUnlock 0))
  | .saveUnlock ret =>
    .ok { p.workerTo t (if ret = 0 then .sleep else .unlockFree) with mMainMutex := none }
  | .sleep => .ok ((p.setMutex t none).workerTo t .wait)
  | .woken => .ok ((p.setMutex t (some (.worker t))).workerTo t .unlock)
  | .unlock => .ok ((p.setMutex t none).workerTo t .test)
  | .unlockFree => .ok ((p.setMutex t none).workerTo t .gone)
  | .exitLock => .ok { p.workerTo t .exit with mMainMutex := some (.worker t) }
  | .exit => .ok { p.workerTo t .gone with mTotal := p.mTotal - 1, mMainMutex := none }

def step (p : Pool τ) : Action τ → Except Fault (Pool τ)
  | .dispatch i task => .ok (p.callerTo i (.lock task))
  | .caller i creates => p.callerStep i creates
  | .worker t woken => p.workerStep t woken

def system (maxThreads : ℤ) : Lib.System (Pool τ) (Action τ) Fault :=
  ⟨new maxThreads, Allowed, step⟩

end Pool

end Spserver.ThreadPool
