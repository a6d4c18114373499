import ReadingComment.Lib.Locks
import ReadingComment.Lib.Run

/-!
# The end of an executor (`spserver/spexecutor.cpp`)

An executor takes its tasks off a queue in a thread of its own, the event loop. The destructor asks
it to end and waits until it has: it tests `mIsShutdown` without the mutex and waits with it, while
the event loop sets it, signals and unlocks in three steps.

The owner queues some tasks and then destroys the executor. A step of the model is what a thread
does up to its next operation on a mutex, on a condition or on `mIsShutdown`. A waiting thread is
woken by a signal only.
-/

namespace Spserver.Executor

open Lib

/-- The threads. -/
inductive Thread where
  | owner
  | loop
  deriving DecidableEq, Repr

/-- What is queued: a task, or the `worker` without an argument that wakes the event loop up. -/
inductive Item (τ : Type) where
  | task (t : τ)
  | wake
  deriving DecidableEq, Repr

/-- Where a thread is in `SP_BlockingQueue::push`. -/
inductive PushPc where
  | lock
  | push
  | signal
  | unlock
  deriving DecidableEq, Repr

/-- Where the owner is. -/
inductive OwnerPc (τ : Type) where
  /-- in `execute`, with the tasks that come after it -/
  | execute (item : Item τ) (pc : PushPc) (tasks : List τ)
  /-- at the `lock` of `shutdown` -/
  | shutdownLock
  | shutdownTest
  | shutdownSet
  | shutdownUnlock
  /-- at the test of the loop of the destructor -/
  | test
  | lock
  /-- at the `wait` -/
  | wait
  /-- waiting for `mCond` -/
  | waiting
  /-- woken, and waiting for `mMutex` -/
  | woken
  | unlock
  | destroyMutex
  | destroyCond
  /-- behind the `destroy` of both -/
  | delete
  deriving DecidableEq, Repr

/-- A signal of `mCond`. -/
def OwnerPc.wake {τ : Type} : OwnerPc τ → OwnerPc τ
  | .waiting => .woken
  | pc => pc

/-- Where the event loop is. -/
inductive LoopPc where
  /-- at the test of its loop -/
  | test
  /-- at the `lock` of `SP_BlockingQueue::pop` -/
  | popLock
  | popTest
  | popWait
  | popWaiting
  | popWoken
  | pop
  | popUnlock
  /-- with a task, which it runs or dispatches -/
  | work
  /-- at the `lock` behind its loop -/
  | lock
  | set
  | signal
  | unlock
  | done
  deriving DecidableEq, Repr

def LoopPc.wake : LoopPc → LoopPc
  | .popWaiting => .popWoken
  | pc => pc

/-- An executor with its threads. -/
structure State (τ : Type) where
  mIsShutdown : ℤ
  mMutex : Option Thread
  /-- what is in `mQueue` -/
  queue : List (Item τ)
  /-- the `mMutex` of `mQueue` -/
  queueMutex : Option Thread
  /-- the last result of `pop` -/
  queueData : Option (Item τ)
  owner : OwnerPc τ
  loop : LoopPc
  mutexDestroyed : Bool
  condDestroyed : Bool
  deriving DecidableEq, Repr

namespace State

variable {τ : Type}

/-- The owner queues the tasks, and then it is in the destructor. -/
def queueAll : List τ → OwnerPc τ
  | [] => .shutdownLock
  | t :: tasks => .execute (.task t) .lock tasks

def new (tasks : List τ) : State τ where
  mIsShutdown := 0
  mMutex := none
  queue := []
  queueMutex := none
  queueData := none
  owner := queueAll tasks
  loop := .test
  mutexDestroyed := false
  condDestroyed := false

/-- `SP_BlockingQueue::push`, and where the owner goes on. -/
def pushStep (s : State τ) (item : Item τ) (tasks : List τ) : PushPc → State τ
  | .lock => { s with queueMutex := some .owner, owner := .execute item .push tasks }
  | .push => { s with queue := s.queue ++ [item], owner := .execute item .signal tasks }
  | .signal => { s with loop := s.loop.wake, owner := .execute item .unlock tasks }
  | .unlock =>
    { s with
      queueMutex := none
      owner := match item with
        | .task _ => queueAll tasks
        | .wake => .shutdownUnlock }

/-- A step of the owner: `execute`, `shutdown`, and `~SP_Executor`. -/
def ownerStep (s : State τ) : State τ :=
  match s.owner with
  | .execute item pc tasks => s.pushStep item tasks pc
  | .shutdownLock => { s with mMutex := some .owner, owner := .shutdownTest }
  | .shutdownTest => { s with owner := if s.mIsShutdown = 0 then .shutdownSet else .shutdownUnlock }
  | .shutdownSet => { s with mIsShutdown := 1, owner := .execute .wake .lock [] }
  | .shutdownUnlock => { s with mMutex := none, owner := .test }
  | .test => { s with owner := if s.mIsShutdown ≠ 2 then .lock else .destroyMutex }
  | .lock => { s with mMutex := some .owner, owner := .wait }
  | .wait => { s with mMutex := none, owner := .waiting }
  | .waiting => s
  | .woken => { s with mMutex := some .owner, owner := .unlock }
  | .unlock => { s with mMutex := none, owner := .test }
  | .destroyMutex => { s with mutexDestroyed := true, owner := .destroyCond }
  | .destroyCond => { s with condDestroyed := true, owner := .delete }
  | .delete => s

/-- A step of `eventLoop`. -/
def loopStep (s : State τ) : State τ :=
  match s.loop with
  | .test => { s with loop := if s.mIsShutdown = 0 then .popLock else .lock }
  | .popLock => { s with queueMutex := some .loop, loop := .popTest }
  | .popTest => { s with loop := if s.queue.length = 0 then .popWait else .pop }
  | .popWait => { s with queueMutex := none, loop := .popWaiting }
  | .popWaiting => s
  | .popWoken => { s with queueMutex := some .loop, loop := .pop }
  | .pop => { s with queueData := s.queue.head?, queue := s.queue.tail, loop := .popUnlock }
  | .popUnlock => { s with queueMutex := none, loop := .work }
  | .work => { s with queueData := none, loop := .test }
  | .lock => { s with mMutex := some .loop, loop := .set }
  | .set => { s with mIsShutdown := 2, loop := .signal }
  | .signal => { s with owner := s.owner.wake, loop := .unlock }
  | .unlock => { s with mMutex := none, loop := .done }
  | .done => s

def step (s : State τ) : Thread → State τ
  | .owner => s.ownerStep
  | .loop => s.loopStep

def Allowed (s : State τ) : Thread → Prop
  | .owner =>
    match s.owner with
    | .execute _ .lock _ => s.queueMutex = none
    | .shutdownLock | .lock | .woken => s.mMutex = none
    | .waiting | .delete => False
    | _ => True
  | .loop =>
    match s.loop with
    | .popLock | .popWoken => s.queueMutex = none
    | .lock => s.mMutex = none
    | .popWaiting | .done => False
    | _ => True

/-- Steps of the same kind can be replayed. -/
instance (s : State τ) (x : Thread) : Decidable (s.Allowed x) := by
  unfold Allowed
  split <;> split <;> infer_instance

end State

/-- An executor whose owner queues some tasks and then destroys it. -/
def executor {τ : Type} (tasks : List τ) : System (State τ) Thread Empty where
  init := .new tasks
  Allowed s x := s.Allowed x
  step s x := .ok (s.step x)

/-! ## What is promised -/

variable {τ : Type}

/-- The event loop is behind its signal of `mCond`. -/
def LoopPc.signalled (pc : LoopPc) : Prop := pc = .unlock ∨ pc = .done

/-- The event loop has not finished while the destructor waits, and it has given back `mMutex` for
the last time when it is destroyed. -/
structure Safe (s : State τ) : Prop where
  woken : ¬ (s.mIsShutdown = 2 ∧ s.loop.signalled ∧ s.owner = .waiting)
  alive : s.mutexDestroyed = true ∨ s.condDestroyed = true → s.loop = .done

/-- The event loop is between the `lock` and the `unlock` of its end. -/
def LoopPc.ending : LoopPc → Bool
  | .set | .signal | .unlock => true
  | _ => false

/-- The condition on a step: the destructor does not test `mIsShutdown` while the event loop has
`mMutex` for its end, and the event loop does not take it between that test and the `lock`. -/
def Timely (s : State τ) : Thread → Prop
  | .owner => s.owner = .test → s.loop.ending = false
  | .loop => s.loop = .lock → s.owner ≠ .lock

/-! ## The invariant -/

/-- The owner is at a place where it has `mMutex`. -/
def OwnerPc.hasMutex : OwnerPc τ → Bool
  | .shutdownTest | .shutdownSet | .shutdownUnlock | .execute .wake _ _ | .wait | .unlock => true
  | _ => false

/-- The destructor has seen that the event loop has not ended, and has not been woken. -/
def OwnerPc.expects : OwnerPc τ → Bool
  | .lock | .wait | .waiting => true
  | _ => false

def OwnerPc.destroys : OwnerPc τ → Bool
  | .destroyMutex | .destroyCond | .delete => true
  | _ => false

/-- The event loop has set `mIsShutdown`. -/
def LoopPc.hasSet : LoopPc → Bool
  | .signal | .unlock | .done => true
  | _ => false

/-- Whether a thread is at a place where it has `mMutex`. -/
def State.holds (s : State τ) : Thread → Unit → Bool
  | .owner, _ => s.owner.hasMutex
  | .loop, _ => s.loop.ending

/-- The invariant of an executor. -/
structure Inv (s : State τ) : Prop where
  locked : Locked s.holds fun _ => s.mMutex
  shutdown : s.mIsShutdown = 2 ↔ s.loop.hasSet = true
  /-- `shutdown` has seen under `mMutex` that the event loop has not ended -/
  setting : s.owner = .shutdownSet → s.mIsShutdown ≠ 2
  /-- the event loop does not take `mMutex` when the destructor is about to -/
  tested : s.owner = .lock → s.loop.ending = false
  expects : s.owner.expects = true → s.loop ≠ .unlock ∧ s.loop ≠ .done
  destroys : s.owner.destroys = true → s.loop = .done
  destroyed : s.mutexDestroyed = true ∨ s.condDestroyed = true → s.owner.destroys = true

theorem Inv.safe {s : State τ} (h : Inv s) : Safe s := by
  refine ⟨?_, fun hdestroyed => h.destroys (h.destroyed hdestroyed)⟩
  rintro ⟨-, hloop, hwaiting⟩
  have hexpects : s.owner.expects = true := by rw [hwaiting, OwnerPc.expects]
  rcases hloop with hloop | hloop
  · exact (h.expects hexpects).1 hloop
  · exact (h.expects hexpects).2 hloop

theorem queueAll_plain (tasks : List τ) : (State.queueAll tasks).hasMutex = false ∧
    (State.queueAll tasks).expects = false ∧ (State.queueAll tasks).destroys = false := by
  cases tasks <;> exact ⟨rfl, rfl, rfl⟩

theorem Inv.new (tasks : List τ) : Inv (State.new tasks) := by
  obtain ⟨hmutex, hexpects, hdestroys⟩ := queueAll_plain tasks
  refine ⟨?_, iff_of_false nofun nofun, fun _ => nofun, fun _ => rfl, fun h => ?_, fun h => ?_,
    nofun⟩
  · rintro (_ | _) _
    · exact iff_of_false (by rw [State.holds, State.new, hmutex]; nofun) nofun
    · exact iff_of_false nofun nofun
  · exact absurd h (by rw [State.new, hexpects]; nofun)
  · exact absurd h (by rw [State.new, hdestroys]; nofun)

section steps

variable {s s' : State τ}

theorem Inv.exclusive (h : Inv s) (howner : s.owner.hasMutex = true) : s.loop.ending = false := by
  by_contra hloop
  have hsame : Thread.owner = .loop :=
    @Locked.unique _ _ _ _ h.locked .owner .loop () howner (eq_true_of_ne_false hloop)
  cases hsame

theorem Inv.stays (h : Inv s) (howner : s'.owner.hasMutex = s.owner.hasMutex)
    (hloop : s'.loop.ending = s.loop.ending) (hmutex : s'.mMutex = s.mMutex) :
    Locked s'.holds fun _ => s'.mMutex := by
  rw [hmutex]
  refine h.locked.stay ?_
  rintro (_ | _) _
  · exact howner
  · exact hloop

theorem Inv.takes (h : Inv s) {x : Thread} (hfree : s.mMutex = none) (hself : s'.holds x () = true)
    (hothers : ∀ y, y ≠ x → s'.holds y () = s.holds y ()) (hmutex : s'.mMutex = some x) :
    Locked s'.holds fun _ => s'.mMutex := by
  refine @Locked.take _ _ _ _ _ _ _ x () h.locked hfree (fun _ => ?_) (fun y hy _ =>
    hothers y hy) ?_
  · exact iff_of_true hself (.inr rfl)
  · funext
    exact hmutex

theorem Inv.gives (h : Inv s) {x : Thread} (hhas : s.holds x () = true)
    (hself : s'.holds x () = false)
    (hothers : ∀ y, y ≠ x → s'.holds y () = s.holds y ()) (hmutex : s'.mMutex = none) :
    Locked s'.holds fun _ => s'.mMutex := by
  refine @Locked.give _ _ _ _ _ _ _ x () h.locked hhas (fun _ => ?_) (fun y hy _ => hothers y hy) ?_
  · exact iff_of_false (by rw [hself]; nofun) fun hne => hne.2 rfl
  · funext
    exact hmutex

theorem holds_of_loop (h : s'.loop = s.loop) : ∀ y, y ≠ .owner → s'.holds y () = s.holds y () := by
  rintro (_ | _) hne
  · exact absurd rfl hne
  · exact congrArg LoopPc.ending h

theorem holds_of_owner (h : s'.owner = s.owner) :
    ∀ y, y ≠ .loop → s'.holds y () = s.holds y () := by
  rintro (_ | _) hne
  · exact congrArg OwnerPc.hasMutex h
  · exact absurd rfl hne

theorem Inv.ownerTo (h : Inv s) (hlocked : Locked s'.holds fun _ => s'.mMutex)
    (hloop : s'.loop = s.loop) (hshutdown : s'.mIsShutdown = 2 ↔ s.mIsShutdown = 2)
    (hsetting : s'.owner = .shutdownSet → s'.mIsShutdown ≠ 2) (htested : s'.owner ≠ .lock)
    (hexpects : s'.owner.expects = true → s.owner.expects = true)
    (hdestroys : s'.owner.destroys = s.owner.destroys)
    (hmutex : s'.mutexDestroyed = s.mutexDestroyed) (hcond : s'.condDestroyed = s.condDestroyed) :
    Inv s' where
  locked := hlocked
  shutdown := by rw [hshutdown, hloop, h.shutdown]
  setting := hsetting
  tested hlock := absurd hlock htested
  expects hexp := by
    rw [hloop]
    exact h.expects (hexpects hexp)
  destroys hdest := by
    rw [hloop]
    exact h.destroys (hdestroys ▸ hdest)
  destroyed hdest := by
    rw [hmutex, hcond] at hdest
    rw [hdestroys]
    exact h.destroyed hdest

theorem LoopPc.wake_same (pc : LoopPc) : pc.wake.ending = pc.ending ∧ pc.wake.hasSet = pc.hasSet ∧
    (pc.wake = .unlock ↔ pc = .unlock) ∧ (pc.wake = .done ↔ pc = .done) := by
  cases pc <;> decide

theorem Inv.pushStep (h : Inv s) {item : Item τ} {pc : PushPc} {tasks : List τ}
    (howner : s.owner = .execute item pc tasks) : Inv (s.pushStep item tasks pc) := by
  have hmutex : ∀ pc', (OwnerPc.execute item pc' tasks).hasMutex = s.owner.hasMutex := by
    rw [howner]
    cases item <;> exact fun _ => rfl
  have hdestroys : ∀ pc', (OwnerPc.execute item pc' tasks).destroys = s.owner.destroys := by
    rw [howner]
    exact fun _ => rfl
  cases pc with
  | lock =>
    exact h.ownerTo
      (h.stays (hmutex .push) rfl rfl) rfl .rfl nofun nofun nofun (hdestroys _) rfl rfl
  | push =>
    exact h.ownerTo
      (h.stays (hmutex .signal) rfl rfl) rfl .rfl nofun nofun nofun (hdestroys _) rfl rfl
  | signal =>
    obtain ⟨hending, hset, hunlock, hdone⟩ := s.loop.wake_same
    refine ⟨h.stays (hmutex .unlock) hending rfl, ?_, nofun, nofun, nofun, nofun, fun hdest => ?_⟩
    · exact h.shutdown.trans (by rw [← hset]; rfl)
    · have hfalse := h.destroyed hdest
      rw [howner] at hfalse
      exact hfalse
  | unlock =>
    cases item with
    | task t =>
      obtain ⟨hmutex', hexpects, hdestroys'⟩ := queueAll_plain tasks
      refine h.ownerTo (h.stays (hmutex'.trans ?_) rfl rfl) rfl .rfl ?_ ?_ ?_
        (hdestroys'.trans ?_) rfl rfl
      · rw [howner]
        rfl
      · cases tasks <;> exact nofun
      · cases tasks <;> exact nofun
      · exact fun hexp => absurd hexp (by rw [State.pushStep, hexpects]; nofun)
      · rw [howner]
        rfl
    | wake =>
      refine h.ownerTo (h.stays ?_ rfl rfl) rfl .rfl nofun nofun nofun ?_ rfl rfl
      · rw [howner]
        rfl
      · rw [howner]
        rfl

theorem LoopPc.done_of_hasSet {pc : LoopPc} (hset : pc.hasSet = true)
    (hending : pc.ending = false) :
    pc = .done := by
  cases pc with
  | done => rfl
  | signal | unlock => cases hending
  | _ => cases hset

/-- **Step lemma** of the owner. -/
theorem Inv.ownerStep (h : Inv s) (hallowed : s.Allowed .owner) (htimely : Timely s .owner) :
    Inv s.ownerStep := by
  unfold State.Allowed at hallowed
  unfold State.ownerStep
  cases howner : s.owner with
  | execute item pc tasks => exact h.pushStep howner
  | shutdownLock | woken =>
    rw [howner] at hallowed
    exact h.ownerTo
      (h.takes (x := .owner) hallowed rfl (holds_of_loop rfl) rfl) rfl .rfl nofun nofun nofun
      (by rw [howner]; rfl) rfl rfl
  | shutdownTest =>
    dsimp only
    split
    · rename_i hzero
      exact h.ownerTo (h.stays (by rw [howner]; rfl) rfl rfl) rfl .rfl
        (fun _ => by rw [hzero]; nofun) nofun nofun (by rw [howner]; rfl) rfl rfl
    · exact h.ownerTo (h.stays (by rw [howner]; rfl) rfl rfl) rfl .rfl nofun nofun nofun
        (by rw [howner]; rfl) rfl rfl
  | shutdownSet =>
    have hnot := h.setting howner
    exact h.ownerTo (h.stays (by rw [howner]; rfl) rfl rfl) rfl
      (iff_of_false nofun hnot) nofun nofun
      nofun (by rw [howner]; rfl) rfl rfl
  | shutdownUnlock | unlock =>
    exact h.ownerTo (h.gives (x := .owner) (by rw [State.holds, howner]; rfl) rfl
      (holds_of_loop rfl) rfl)
      rfl .rfl nofun nofun nofun (by rw [howner]; rfl) rfl rfl
  | test =>
    have hending := htimely howner
    have hlocked : ∀ pc : OwnerPc τ, pc.hasMutex = false →
        Locked (State.holds { s with owner := pc }) fun _ => s.mMutex :=
      fun pc hpc => h.stays (by rw [howner]; exact hpc) rfl rfl
    dsimp only
    split
    · rename_i hnot
      refine ⟨hlocked .lock rfl, h.shutdown, nofun, fun _ => hending, fun _ => ⟨?_, ?_⟩, nofun,
        fun hdest => ?_⟩
      · intro hloop
        rw [hloop] at hending
        cases hending
      · exact fun hloop => hnot (h.shutdown.mpr (by rw [hloop]; rfl))
      · exact absurd (h.destroyed hdest) (by rw [howner]; nofun)
    · rename_i hset
      have hdone := LoopPc.done_of_hasSet (h.shutdown.mp (not_not.mp hset)) hending
      exact ⟨hlocked .destroyMutex rfl, h.shutdown, nofun, nofun, nofun, fun _ => hdone,
        fun _ => rfl⟩
  | lock =>
    rw [howner] at hallowed
    exact h.ownerTo
      (h.takes (x := .owner) hallowed rfl (holds_of_loop rfl) rfl) rfl .rfl nofun nofun
      (fun _ => by rw [howner]; rfl) (by rw [howner]; rfl) rfl rfl
  | wait =>
    exact h.ownerTo (h.gives (x := .owner) (by rw [State.holds, howner]; rfl) rfl
      (holds_of_loop rfl) rfl)
      rfl .rfl nofun nofun (fun _ => by rw [howner]; rfl) (by rw [howner]; rfl) rfl rfl
  | waiting => exact h
  | destroyMutex | destroyCond =>
    have hdone := h.destroys (by rw [howner]; rfl)
    exact ⟨h.stays (by rw [howner]; rfl) rfl rfl, h.shutdown, nofun, nofun, nofun, fun _ => hdone,
      fun _ => rfl⟩
  | delete => exact h

theorem Inv.loopTo (h : Inv s) (hloop : s'.loop.ending = false) (hset : s'.loop.hasSet = false)
    (hending : s.loop.ending = false) (hset' : s.loop.hasSet = false) (howner : s'.owner = s.owner)
    (hshutdown : s'.mIsShutdown = s.mIsShutdown) (hmMutex : s'.mMutex = s.mMutex)
    (hmutex : s'.mutexDestroyed = s.mutexDestroyed) (hcond : s'.condDestroyed = s.condDestroyed) :
    Inv s' where
  locked := h.stays (congrArg OwnerPc.hasMutex howner) (hloop.trans hending.symm) hmMutex
  shutdown := by rw [hshutdown, h.shutdown, hset, hset']
  setting := by
    rw [howner, hshutdown]
    exact h.setting
  tested _ := hloop
  expects _ := by
    constructor
    · intro heq
      rw [heq] at hset
      cases hset
    · intro heq
      rw [heq] at hset
      cases hset
  destroys hdest := by
    rw [howner] at hdest
    rw [h.destroys hdest] at hset'
    cases hset'
  destroyed hdest := by
    rw [hmutex, hcond] at hdest
    rw [howner]
    exact h.destroyed hdest

theorem Inv.not_destroys (h : Inv s) (hloop : s.loop ≠ .done) : s.owner.destroys = false :=
  eq_false_of_ne_true fun hdest => hloop (h.destroys hdest)

theorem OwnerPc.wake_same (pc : OwnerPc τ) : pc.wake.hasMutex = pc.hasMutex ∧
    pc.wake.destroys = pc.destroys ∧ (pc.wake = .lock → pc = .lock) ∧
    (pc.wake = .shutdownSet → pc = .shutdownSet) ∧
    (pc.wake.expects = true → pc = .lock ∨ pc = .wait) := by
  cases pc <;> simp [wake, hasMutex, destroys, expects]

/-- **Step lemma** of the event loop. -/
theorem Inv.loopStep (h : Inv s) (hallowed : s.Allowed .loop) (htimely : Timely s .loop) :
    Inv s.loopStep := by
  unfold State.Allowed at hallowed
  unfold State.loopStep
  cases hloop : s.loop with
  | test | popTest =>
    dsimp only
    split <;> exact h.loopTo rfl rfl (by rw [hloop]; rfl) (by rw [hloop]; rfl) rfl rfl rfl rfl rfl
  | lock =>
    rw [hloop] at hallowed
    have hset : s.loop.hasSet = false := by rw [hloop]; rfl
    refine ⟨h.takes (x := .loop) hallowed rfl (holds_of_owner rfl) rfl, ?_, h.setting,
      fun howner => absurd howner (htimely hloop), fun _ => ⟨nofun, nofun⟩, fun hdest => ?_,
        h.destroyed⟩
    · exact h.shutdown.trans (by rw [hset]; rfl)
    · exact absurd hdest (by rw [h.not_destroys (by rw [hloop]; nofun)]; nofun)
  | set =>
    have hending : s.loop.ending = true := by rw [hloop]; rfl
    refine ⟨h.stays rfl hending.symm rfl, iff_of_true rfl rfl, fun howner => ?_, fun howner => ?_,
      fun _ => ⟨nofun, nofun⟩, fun hdest => ?_, h.destroyed⟩
    · -- `shutdown` has `mMutex`
      exact absurd (h.exclusive (by rw [howner]; rfl)) (by rw [hending]; nofun)
    · exact absurd (h.tested howner) (by rw [hending]; nofun)
    · exact absurd hdest (by rw [h.not_destroys (by rw [hloop]; nofun)]; nofun)
  | signal =>
    have hending : s.loop.ending = true := by rw [hloop]; rfl
    obtain ⟨hmutex, hdestroys, hlock, hsetting, hexpects⟩ := s.owner.wake_same
    have htwo : s.mIsShutdown = 2 := h.shutdown.mpr (by rw [hloop]; rfl)
    refine ⟨h.stays hmutex hending.symm rfl, iff_of_true htwo rfl, fun howner => ?_,
      fun howner => ?_,
      fun hexp => ?_, fun hdest => ?_, fun hdest => ?_⟩
    · exact absurd (h.exclusive (by rw [hsetting howner]; rfl)) (by rw [hending]; nofun)
    · exact absurd (h.tested (hlock howner)) (by rw [hending]; nofun)
    · -- neither at the `lock` nor behind it
      rcases hexpects hexp with howner | howner
      · exact absurd (h.tested howner) (by rw [hending]; nofun)
      · exact absurd (h.exclusive (by rw [howner]; rfl)) (by rw [hending]; nofun)
    · exact absurd (hdestroys ▸ hdest) (by rw [h.not_destroys (by rw [hloop]; nofun)]; nofun)
    · exact hdestroys.trans (h.destroyed hdest)
  | unlock =>
    have hset : s.mIsShutdown = 2 := h.shutdown.mpr (by rw [hloop]; rfl)
    refine ⟨h.gives (x := .loop) (by rw [State.holds, hloop]; rfl) rfl (holds_of_owner rfl) rfl,
      iff_of_true hset rfl, h.setting, fun _ => rfl, fun hexp => ?_, fun _ => rfl, h.destroyed⟩
    exact absurd hloop (h.expects hexp).1
  | done => exact h
  | popWaiting => exact h
  | _ => exact h.loopTo rfl rfl (by rw [hloop]; rfl) (by rw [hloop]; rfl) rfl rfl rfl rfl rfl

end steps

/-! ## Runs -/

/-- **Run lemma.** -/
theorem Inv.reach {tasks : List τ} {s : State τ} (h : (executor tasks).Reach Timely s) : Inv s := by
  refine @System.Reach.invariant _ _ _ _ _ Inv (Inv.new tasks) ?_ _ h
  intro s x s' hinv hallowed htimely hstep
  cases hstep
  cases x with
  | owner => exact hinv.ownerStep hallowed htimely
  | loop => exact hinv.loopStep hallowed htimely

/-- **The end of an executor**: while the destructor tests `mIsShutdown` only when the event loop
does not have `mMutex` for its end, nor takes it before the destructor does, the destructor is not
left waiting, and it destroys nothing that the event loop still uses. -/
theorem executor_safe {tasks : List τ} {s : State τ} (h : (executor tasks).Reach Timely s) :
    Safe s :=
  (Inv.reach h).safe

instance (tasks : List τ) (s : State τ) (x : Thread) : Decidable ((executor tasks).Allowed s x) :=
  inferInstanceAs (Decidable (s.Allowed x))

instance [DecidableEq τ] (s : State τ) : (x : Thread) → Decidable (Timely s x)
  | .owner => inferInstanceAs (Decidable (s.owner = .test → s.loop.ending = false))
  | .loop => inferInstanceAs (Decidable (s.loop = .lock → s.owner ≠ .lock))

/-- The owner queues a task and destroys the executor, and the event loop runs it and ends. -/
theorem executor_safe_ended :
    ∃ s : State ℕ, (executor [7]).Reach Timely s ∧ s.owner = .delete ∧ Safe s := by
  have hrun : (executor [7]).run Timely
      (List.replicate 4 .owner ++ List.replicate 6 .loop ++ List.replicate 11 .owner ++
        List.replicate 5 .loop ++ List.replicate 5 .owner) (State.new [7]) = some
      ⟨2, none, [.wake], none, none, .delete, .done, true, true⟩ := by decide
  have hreach := System.Reach.run .init hrun
  exact ⟨_, hreach, rfl, executor_safe hreach⟩

/-- The event loop ends between the test of the destructor and its `lock`; or it has set
`mIsShutdown` when the destructor tests it, and has not signalled yet. -/
theorem executor_unsafe :
    ¬ (∀ (tasks : List ℕ) (s : State ℕ), (executor tasks).Reach (fun _ _ => True) s →
        ¬ (s.mIsShutdown = 2 ∧ s.loop.signalled ∧ s.owner = .waiting)) ∧
      ¬ ∀ (tasks : List ℕ) (s : State ℕ), (executor tasks).Reach (fun _ _ => True) s →
        (s.mutexDestroyed = true ∨ s.condDestroyed = true → s.loop = .done) := by
  constructor
  · intro h
    have hrun : (executor ([] : List ℕ)).run (fun _ _ => True)
        (List.replicate 9 .owner ++ List.replicate 5 .loop ++ List.replicate 2 .owner)
          (State.new []) =
        some ⟨2, none, [.wake], none, none, .waiting, .done, false, false⟩ := by decide
    exact h [] _ (System.Reach.run .init hrun) ⟨rfl, .inr rfl, rfl⟩
  · intro h
    have hrun : (executor ([] : List ℕ)).run (fun _ _ => True)
        (List.replicate 8 .owner ++ List.replicate 3 .loop ++ List.replicate 2 .owner)
          (State.new []) =
        some ⟨2, some .loop, [.wake], none, none, .destroyCond, .signal, true, false⟩ := by decide
    exact absurd (h [] _ (System.Reach.run .init hrun) (.inl rfl)) nofun

end Spserver.Executor
