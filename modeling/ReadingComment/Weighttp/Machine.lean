import ReadingComment.Lib.Run
import ReadingComment.Weighttp.Client

/-!
# Workers and their clients (`weighttp/src/client.c`, `worker.c`)

A worker starts its clients and then runs the event loop, which calls `client_state_machine` for the
clients whose sockets are ready. A state of the model is where the state machine waits for the
answer to a system call. What the answers are and which client has the next event is up to the
environment.

The loop of libev ends when it has no active watcher and no reference is left: `worker_new` takes
one, and the client that finishes the last request gives it back. The numbers of requests and the
list of those that were counted are not in the code.
-/

namespace Weighttp

/-! ## The environment -/

/-- The errors that are told apart. -/
inductive Errno where
  | eintr
  /-- `EINPROGRESS` or `EALREADY` -/
  | einprogress
  | eisconn
  | other
  deriving DecidableEq, Repr

/-- What the system answers, whichever call it is that is made. -/
structure Answer where
  socket : Except Errno Unit
  connect : Except Errno Unit
  write : Except Errno ℕ
  read : Except Errno (List Char)
  /-- what `strerror_r` writes over the buffer of the client -/
  text : List Char

/-- The system calls that the state machine makes; `connect` is first made when the client starts,
and again when the socket is writable. -/
inductive SysCall where
  | socket
  | connect (first : Bool)
  | write
  | read
  deriving DecidableEq, Repr

/-! ## Workers -/

/-- Where `worker_thread` is. -/
inductive Phase where
  /-- about to start the client with this index -/
  | starting (i : ℕ)
  | looping
  | stopped
  deriving DecidableEq, Repr

structure Worker where
  cfg : Config
  stats : Stats
  numClients : ℕ
  client : ℕ → Client
  /-- the client whose state machine runs, and the call that it has made -/
  busy : Option (ℕ × SysCall)
  /-- the references to the loop that are not the watchers' -/
  refs : ℤ
  phase : Phase
  /-- the number of the request that a client works on -/
  serial : ℕ → ℕ
  /-- the numbers of the requests that were counted as done -/
  counted : List ℕ

/-- `worker_new(id, config, num_clients, num_requests)`. -/
def workerNew (cfg : Config) (numClients numRequests : ℕ) : Worker where
  cfg := cfg
  stats := ⟨numRequests, 0, 0, 0, 0, 0, 0, 0, 0, 0, 0, 0⟩
  numClients := numClients
  client _ := clientNew cfg
  busy := none
  refs := 1
  phase := .starting 0
  serial _ := 0
  counted := []

namespace Worker

def conn (w : Worker) (i : ℕ) : Conn := ⟨w.stats, w.client i⟩

def put (w : Worker) (i : ℕ) (c : Conn) : Worker :=
  { w with stats := c.stats, client := Function.update w.client i c.client }

theorem put_conn (w : Worker) (i : ℕ) (c : Conn) : (w.put i c).conn i = c := by
  rw [conn, put]
  simp only [Function.update_self]

theorem put_put (w : Worker) (i : ℕ) (c c' : Conn) : (w.put i c).put i c' = w.put i c' := by
  simp only [put, Function.update_idem]

def putClient (w : Worker) (i : ℕ) (c : Client) : Worker :=
  { w with client := Function.update w.client i c }

/-- Client `i` waits for the answer to a system call. -/
def calls (w : Worker) (i : ℕ) (c : SysCall) : Worker := { w with busy := some (i, c) }

/-- `client_state_machine` returns. -/
def returns (w : Worker) : Worker := { w with busy := none }

/-- The client sends the request that was started last. -/
def nextSerial (w : Worker) (i : ℕ) : Worker :=
  { w with serial := Function.update w.serial i w.stats.reqStarted }

/-- The case `CLIENT_START`. -/
def atStart (w : Worker) (i : ℕ) : Worker :=
  { w.nextSerial i with stats := { w.stats with reqStarted := w.stats.reqStarted + 1 } }.calls i
    .socket

/-- The request of client `i` ends and is counted. -/
def count (w : Worker) (i : ℕ) : Worker :=
  { w with stats := countDone (w.conn i), counted := w.serial i :: w.counted }

/-- All requests have been started, and the client has nothing more to do; the last one of them
gives the reference to the loop back. -/
def rest (w : Worker) (i : ℕ) : Worker :=
  let c := w.conn i
  let w := w.put i (clientReset w.cfg { c with client := { c.client with keepalive := false } })
  { w.returns with
    refs := if w.stats.reqDone = w.stats.reqTodo then w.refs - 1 else w.refs }

/-- The next request, on the same connection or on a new one. -/
def again (w : Worker) (i : ℕ) : Worker :=
  let c := w.conn i
  if c.client.keepalive then ((w.nextSerial i).put i (clientReset w.cfg c)).calls i .write
  else (w.put i (clientReset w.cfg c)).atStart i

/-- The case `CLIENT_END`. -/
def atEnd (w : Worker) (i : ℕ) : Worker :=
  if w.stats.reqStarted = w.stats.reqTodo then (w.count i).rest i else (w.count i).again i

/-- The case `CLIENT_ERROR`, which goes on with `CLIENT_END`. -/
def atError (w : Worker) (i : ℕ) : Worker := (w.put i (clientError (w.conn i))).atEnd i

/-- `client_state_machine(client)` from its start. -/
def enter (w : Worker) (i : ℕ) : Worker :=
  match (w.client i).state with
  | .start => w.atStart i
  | .connecting => w.calls i (.connect false)
  | .writing => w.calls i .write
  | .reading => w.calls i .read
  | .error => w.atError i
  | .atEnd => w.atEnd i

/-- `client_connect(client)` has succeeded: the first time the state machine returns, else it goes
on with the state `CLIENT_WRITING`. -/
def connected (w : Worker) (i : ℕ) (first : Bool) (state : ClientState) : Worker :=
  let w := w.putClient i { w.client i with state := state }
  if first then w.returns else w.calls i .write

def sent (w : Worker) (i n : ℕ) : Worker :=
  let c := w.client i
  let offset := c.requestOffset + n
  let state := if offset = w.cfg.requestSize then .reading else c.state
  (w.putClient i { c with requestOffset := offset, state := state }).returns

/-- `sprintf` into the buffer of the client. -/
def overwrite (text buffer : List Char) : List Char :=
  (text ++ ['\x00']).take buffer.length ++ buffer.drop (text.length + 1)

/-- A `read` has failed. The loop goes on. -/
def readFailed (w : Worker) (i : ℕ) (text : List Char) : Worker :=
  let c := w.client i
  w.putClient i { c with state := .error, buffer := overwrite text c.buffer }

/-- A `read` has succeeded. -/
def readBytes (w : Worker) (i : ℕ) (bytes : List Char) : Except Fault Worker := do
  let (c, ok) ← received w.cfg bytes (w.conn i)
  let w := w.put i c
  return if ok then if c.client.state = .atEnd then w.atEnd i else w.returns else w.atError i

def readNothing (w : Worker) (i : ℕ) : Worker :=
  let w := w.putClient i (disconnected (w.client i))
  if (w.client i).state = .atEnd then w.atEnd i else w.atError i

/-- The system call of the busy client returns. -/
def answer (w : Worker) (a : Answer) : Except Fault Worker :=
  match w.busy with
  | none => .ok w
  | some (i, .socket) =>
    match a.socket with
    | .error .eintr => .ok w
    | .error _ => .ok (w.atError i)
    | .ok () => .ok ((w.putClient i { w.client i with watched := true }).calls i (.connect true))
  | some (i, .connect first) =>
    match a.connect with
    | .error .einprogress => .ok (w.connected i first .connecting)
    | .error .eintr => .ok w
    | .error .other => .ok (w.atError i)
    | .error .eisconn => .ok (w.connected i first .writing)
    | .ok () => .ok (w.connected i first .writing)
  | some (i, .write) =>
    match a.write with
    | .error .eintr => .ok w
    | .error _ => .ok (w.atError i)
    | .ok 0 => .ok ((w.putClient i { w.client i with state := .atEnd }).atEnd i)
    | .ok (n + 1) => .ok (w.sent i (n + 1))
  | some (i, .read) =>
    match a.read with
    | .error .eintr => .ok w
    | .error _ => .ok (w.readFailed i a.text)
    | .ok [] => .ok (w.readNothing i)
    | .ok (b :: bytes) => w.readBytes i (b :: bytes)

/-- The loop of `worker_thread` that starts the clients. -/
def launch (w : Worker) (i : ℕ) : Worker :=
  if i < w.numClients then
    let w := { w with phase := .starting (i + 1) }
    if w.stats.reqStarted < w.stats.reqTodo then w.enter i else w
  else { w with phase := .looping }

def activecnt (w : Worker) : ℤ :=
  w.refs + ((List.range w.numClients).countP fun i => (w.client i).watched)

end Worker

/-! ## Runs -/

/-- What happens to a worker. -/
inductive Action where
  /-- the next client is started -/
  | launch
  /-- a watcher calls `client_io_cb` -/
  | event (i : ℕ)
  | answer (a : Answer)
  /-- `ev_loop` returns -/
  | leave

/-- What the event loop may do next. -/
def Action.Allowed (w : Worker) : Action → Prop
  | .launch => w.busy = none ∧ ∃ i, w.phase = .starting i
  | .event i => w.busy = none ∧ w.phase = .looping ∧ i < w.numClients ∧ (w.client i).watched = true
  | .answer _ => w.busy ≠ none
  | .leave => w.busy = none ∧ w.phase = .looping ∧ w.activecnt = 0

/-- One action of the event loop. -/
def Worker.act (w : Worker) : Action → Except Fault Worker
  | .launch =>
    match w.phase with
    | .starting i => .ok (w.launch i)
    | _ => .ok w
  | .event i => .ok (w.enter i)
  | .answer a => w.answer a
  | .leave => .ok { w with phase := .stopped }

/-- A worker with its clients, for any answers of the system. -/
def workerSystem (cfg : Config) (numClients numRequests : ℕ) :
    Lib.System Worker Action Fault where
  init := workerNew cfg numClients numRequests
  Allowed := fun w a => a.Allowed w
  step := Worker.act

end Weighttp
