import ReadingComment.Lib.Ring
import ReadingComment.Lib.Run

/-!
# The message queue between threads (`spserver/event_msgqueue.c`)

Any number of threads push messages; the event loop pops them and calls the
callback. The messages are in a ring of cells under a lock, and a byte in a socket
pair wakes the event loop.

A step of the model is what a thread does between two operations that another
thread can see: it takes or gives back the lock, changes the ring while it has the
lock, sends or receives bytes, or calls the callback. Sends succeed; `malloc` may
fail when the ring grows, and a number of bytes in memory does not exceed a
`size_t`.
-/

namespace Spserver.MsgQueue

/-- The undefined behaviour that the steps check for. -/
inductive Fault where
  /-- an access outside an array -/
  | outOfArray
  /-- a read of a cell that was not written -/
  | uninitialized
  deriving DecidableEq, Repr

/-! ## The ring -/

/-- A value of type `unsigned int`. -/
def uint (x : ℕ) : ℕ := x % 2 ^ 32

/-- `nextpow2(num)`. -/
def nextpow2 (num : ℕ) : ℕ :=
  let num := uint (num + (2 ^ 32 - 1))
  let num := num ||| num >>> 1
  let num := num ||| num >>> 2
  let num := num ||| num >>> 4
  let num := num ||| num >>> 8
  let num := num ||| num >>> 16
  uint (num + 1)

variable {α : Type}

/-- `struct circqueue`; a cell that was not written is `none`. -/
structure Circqueue (α : Type) where
  head : ℕ
  tail : ℕ
  count : ℕ
  maxEntries : ℕ
  arrayElements : ℕ
  entries : List (Option α)

/-- `DEFAULT_UNBOUNDED_QUEUE_SIZE` -/
def defaultUnboundedQueueSize : ℕ := 1024

/-- `circqueue_new(size)`, when there is memory. -/
def circqueueNew (size : ℕ) : Circqueue α :=
  let arrayElements :=
    if size = 0 ∨ nextpow2 size = 0 then defaultUnboundedQueueSize else nextpow2 size
  ⟨0, 0, 0, size, arrayElements, List.replicate arrayElements none⟩

namespace Circqueue

/-- The `len` cells from `from` on, as `memcpy` reads them. -/
def cells (entries : List (Option α)) (start len : ℕ) : Except Fault (List (Option α)) :=
  if start + len ≤ entries.length then .ok ((entries.drop start).take len) else .error .outOfArray

/-- `circqueue_grow(cq)`; `memory` says whether `malloc` succeeds. -/
def grow (cq : Circqueue α) (memory : Bool) : Except Fault (Circqueue α × Bool) :=
  if memory then do
    let newsize := uint (cq.arrayElements <<< 1)
    let headchunklen := if cq.head < cq.tail then cq.tail - cq.head else cq.arrayElements - cq.head
    let tailchunklen := if cq.head < cq.tail then 0 else cq.tail
    let headchunk ← cells cq.entries cq.head headchunklen
    let tailchunk ← cells cq.entries 0 tailchunklen
    let chunks := headchunk ++ tailchunk
    if chunks.length ≤ newsize then
      return ({ cq with
        head := 0
        tail := headchunklen + tailchunklen
        arrayElements := newsize
        entries := chunks ++ List.replicate (newsize - chunks.length) none }, true)
    else .error .outOfArray
  else .ok (cq, false)

/-- A number after `++`, masked with `array_elements - 1`. -/
def next (cq : Circqueue α) (i : ℕ) : ℕ := uint (i + 1) &&& uint (cq.arrayElements + (2 ^ 32 - 1))

/-- The last lines of `circqueue_push_tail(cq, elem)`. -/
def put (cq : Circqueue α) (elem : α) : Except Fault (Circqueue α) :=
  if cq.tail < cq.entries.length then .ok { cq with
    count := uint (cq.count + 1)
    entries := cq.entries.set cq.tail (some elem)
    tail := cq.next cq.tail }
  else .error .outOfArray

/-- `circqueue_push_tail(cq, elem)`; whether it returns 0. -/
def pushTail (cq : Circqueue α) (memory : Bool) (elem : α) : Except Fault (Circqueue α × Bool) :=
  if cq.maxEntries ≠ 0 then
    if cq.count = cq.maxEntries then .ok (cq, false)
    else do return (← cq.put elem, true)
  else if cq.count = cq.arrayElements then do
    match ← cq.grow memory with
    | (cq, true) => return (← cq.put elem, true)
    | (cq, false) => return (cq, false)
  else do return (← cq.put elem, true)

/-- `circqueue_pop_head(cq)`. -/
def popHead (cq : Circqueue α) : Except Fault (Circqueue α × Option α) :=
  if cq.count = 0 then .ok (cq, none)
  else
    match cq.entries[cq.head]? with
    | none => .error .outOfArray
    | some none => .error .uninitialized
    | some (some data) =>
      .ok ({ cq with count := cq.count - 1, head := cq.next cq.head }, some data)

end Circqueue

/-! ## The threads -/

/-- Who has the lock. -/
inductive Holder where
  /-- the event loop -/
  | reader
  /-- a thread that pushes -/
  | pusher (i : ℕ)
  deriving DecidableEq, Repr

/-- Where the event loop is in `msgqueue_pop`. -/
inductive ReaderPc (α : Type) where
  /-- not in `msgqueue_pop` -/
  | idle
  | recv
  | lock
  /-- at the test of the loop -/
  | test
  /-- at the `unlock` before the callback -/
  | unlock (qdata : Option α)
  | callback (qdata : Option α)
  /-- at the `lock` after the callback -/
  | relock
  /-- at the `unlock` after the loop -/
  | exit

/-- Where a thread is in `msgqueue_push`. -/
inductive PusherPc (α : Type) where
  /-- not in `msgqueue_push` -/
  | idle
  | lock (msg : α)
  | push (msg : α)
  | send
  | unlock

/-- `struct event_msgqueue`, the bytes that are on their way in its socket pair, and the threads. -/
structure Msgqueue (α : Type) where
  queue : Circqueue α
  unlockBetweenCallbacks : Bool
  lock : Option Holder
  unread : ℕ
  reader : ReaderPc α
  pusher : ℕ → PusherPc α

namespace Msgqueue

/-- `msgqueue_new(base, max_size, callback, cbarg)`, when its calls succeed. -/
def new (maxSize : ℕ) : Msgqueue α := ⟨circqueueNew maxSize, true, none, 0, .idle, fun _ => .idle⟩

/-- What happens next. -/
inductive Action (α : Type) where
  /-- A thread calls `msgqueue_push`. -/
  | call (i : ℕ) (msg : α)
  /-- A thread goes on in `msgqueue_push`; `memory` says whether `malloc` succeeds. -/
  | pusher (i : ℕ) (memory : Bool)
  /-- The event loop calls `msgqueue_pop`. -/
  | wake
  /-- The event loop goes on in `msgqueue_pop`; `bytes` is what `recv` takes. -/
  | reader (bytes : ℕ)

/-- The size of the buffer of `msgqueue_pop`. -/
def bufSize : ℕ := 64

def Allowed (q : Msgqueue α) : Action α → Prop
  | .call i _ => q.pusher i = .idle
  | .pusher i _ =>
    match q.pusher i with
    | .idle => False
    | .lock _ => q.lock = none
    | _ => True
  | .wake => q.reader = .idle
  | .reader bytes =>
    match q.reader with
    | .idle => False
    | .recv => bytes ≤ q.unread ∧ bytes ≤ bufSize
    | .lock => q.lock = none
    | .relock => q.unlockBetweenCallbacks = true → q.lock = none
    | _ => True

def goto (q : Msgqueue α) (i : ℕ) (pc : PusherPc α) : Msgqueue α :=
  { q with pusher := Function.update q.pusher i pc }

/-- A step of `msgqueue_push`. -/
def pusherStep (q : Msgqueue α) (i : ℕ) (memory : Bool) : Except Fault (Msgqueue α) :=
  match q.pusher i with
  | .idle => .ok q
  | .lock msg => .ok { q.goto i (.push msg) with lock := some (.pusher i) }
  | .push msg => do
    let (queue, pushed) ← q.queue.pushTail memory msg
    return { q.goto i (if pushed ∧ queue.count = 1 then .send else .unlock) with queue := queue }
  | .send => .ok { q.goto i .unlock with unread := q.unread + 1 }
  | .unlock => .ok { q.goto i .idle with lock := none }

/-- A step of `msgqueue_pop`. -/
def readerStep (q : Msgqueue α) (bytes : ℕ) : Except Fault (Msgqueue α) :=
  match q.reader with
  | .idle => .ok q
  | .recv => .ok { q with unread := q.unread - bytes, reader := .lock }
  | .lock => .ok { q with lock := some .reader, reader := .test }
  | .test =>
    if q.queue.count = 0 then .ok { q with reader := .exit }
    else do
      let (queue, qdata) ← q.queue.popHead
      return { q with
        queue := queue
        reader := if q.unlockBetweenCallbacks then .unlock qdata else .callback qdata }
  | .unlock qdata => .ok { q with lock := none, reader := .callback qdata }
  | .callback _ => .ok { q with reader := .relock }
  | .relock =>
    .ok { q with
      lock := if q.unlockBetweenCallbacks then some .reader else q.lock
      reader := .test }
  | .exit => .ok { q with lock := none, reader := .idle }

def step (q : Msgqueue α) : Action α → Except Fault (Msgqueue α)
  | .call i msg => .ok (q.goto i (.lock msg))
  | .pusher i memory => q.pusherStep i memory
  | .wake => .ok { q with reader := .recv }
  | .reader bytes => q.readerStep bytes

def system (maxSize : ℕ) : Lib.System (Msgqueue α) (Action α) Fault := ⟨new maxSize, Allowed, step⟩

end Msgqueue

end Spserver.MsgQueue
