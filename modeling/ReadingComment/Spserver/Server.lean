import ReadingComment.Lib.Run
import ReadingComment.Spserver.SessionManager

/-!
# The event server (`spserver/speventcb.cpp`)

One event thread runs the callbacks `onAccept`, `onRead`, `onWrite` and `onResponse`; worker threads
run the tasks that the callbacks push on the input queue. They share the sessions, the response
queue and the output queue.

Each step reads at most one of the fields that both sides use (`mRunning`, `mStatus`) or pushes to
one queue, so a run is an interleaving of the threads. What the outside decides (bytes received and
written, the decoder, the handler) comes with the action. An address whose session was deleted
faults.

`History` records what a run did; no step reads it.
-/

namespace Spserver

/-- A pointer to a session. -/
abbrev Ptr : Type := ℕ

/-- A pointer to a message. -/
abbrev MsgPtr : Type := ℕ

/-! ## Sids and messages (`spresponse.cpp`) -/

/-- `SP_Sid_t`. -/
structure Sid where
  key : ℕ
  seq : ℕ
  deriving DecidableEq, Repr

def eTimerKey : ℕ := 0
def eTimerSeq : ℕ := 65535
def ePushKey : ℕ := 1
def ePushSeq : ℕ := 65535

/-- `SP_EventHelper::isSystemSid`. -/
def isSystemSid (sid : Sid) : Bool :=
  (sid.key = eTimerKey ∧ sid.seq = eTimerSeq) ∨ (sid.key = ePushKey ∧ sid.seq = ePushSeq)

namespace SidList

/-- `SP_SidList::get(index)`; an index outside the list gives the sid `0.0`. -/
def get (l : List Sid) (index : ℕ) : Sid := l.getD index ⟨0, 0⟩

/-- What `SP_SidList::take(index)` leaves. -/
def take (l : List Sid) (index : ℕ) : List Sid := l.eraseIdx index

/-- `SP_SidList::find(sid)`; `none` is the source's `-1`. -/
def find (l : List Sid) (sid : Sid) : Option ℕ := l.findIdx? (· = sid)

/-- `int index = find( sid ); if( index >= 0 ) take( index );`. -/
def takeFound (l : List Sid) (sid : Sid) : List Sid :=
  match find l sid with
  | some index => take l index
  | none => l

end SidList

/-- An `SP_Message`; of its blocks only the total size matters. -/
structure Message where
  totalSize : ℕ
  toList : List Sid
  success : List Sid
  failure : List Sid

/-- The message reached `sid`. -/
def Message.succeed (msg : Message) (sid : Sid) : Message :=
  { msg with toList := SidList.takeFound msg.toList sid, success := msg.success ++ [sid] }

/-- The message is lost for `sid`. -/
def Message.fail (msg : Message) (sid : Sid) : Message :=
  { msg with toList := SidList.takeFound msg.toList sid, failure := msg.failure ++ [sid] }

/-- The message is lost for its `i`-th destination. -/
def Message.failAt (msg : Message) (i : ℕ) (sid : Sid) : Message :=
  { msg with toList := SidList.take msg.toList i, failure := msg.failure ++ [sid] }

/-- An `SP_Response`: size and destinations of each message. `request` is not in the source: it
says which request of which session the response answers. -/
structure Response where
  fromSid : Sid
  messages : List (ℕ × List Sid)
  toCloseList : List Sid
  request : Option (Ptr × ℕ)
  deriving DecidableEq

/-! ## Sessions and tasks -/

/-- The values of `mStatus`. -/
inductive Status where
  | eNormal
  | eWouldExit
  | eExit
  deriving DecidableEq, Repr

/-- The fields of an `SP_Session` that callbacks and tasks use. -/
structure Session where
  sid : Sid
  status : Status
  running : Bool
  writing : Bool
  reading : Bool
  outList : List MsgPtr
  outOffset : ℕ

/-- `SP_Session::SP_Session(sid)`. -/
def Session.new (sid : Sid) : Session := ⟨sid, .eNormal, false, false, false, [], 0⟩

/-- A task on the input queue or in the hands of a thread, with what it still has to do. -/
inductive Task where
  /-- `worker`: call `handle` for a request -/
  | worker (p : Ptr) (request : ℕ)
  /-- `worker`: `handle` returned -/
  | handled (p : Ptr) (response : Response) (ret : Bool)
  /-- `start`: call `init` and `SP_Handler::start` -/
  | start (p : Ptr)
  /-- `start`: set the status -/
  | started (p : Ptr) (response : Response) (status : Status)
  /-- `worker` and `start`: `setRunning( 0 )` -/
  | clear (p : Ptr) (response : Response)
  /-- `worker` and `start`: `msgqueue_push` -/
  | push (response : Response)
  /-- `error`: call `SP_Handler::error` -/
  | error (p : Ptr)
  /-- `timeout`: call `SP_Handler::timeout` -/
  | timeout (p : Ptr)
  /-- `error` and `timeout`: `msgqueue_push` -/
  | pushLast (p : Ptr) (response : Response)
  /-- `myclose`, and `error` and `timeout` after the push: log, call `close` -/
  | myclose (p : Ptr)
  /-- `delete session` -/
  | delete (p : Ptr)

/-- Where the event thread is. -/
inductive EventPc where
  /-- between two callbacks -/
  | idle
  /-- `onRead`: bytes were received, is the session running? -/
  | readRun (p : Ptr)
  /-- `onRead`: a request was decoded -/
  | readWork (p : Ptr)
  /-- `onRead`: wait for more -/
  | readTail (p : Ptr)
  /-- `onRead` and `onWrite`: the channel failed -/
  | error (p : Ptr)
  /-- `onRead` and `onWrite`: the event timed out -/
  | timeout (p : Ptr)
  /-- `onWrite`: is everything written and the session to be closed? -/
  | closeTest (p : Ptr)
  /-- `onWrite`: to be closed, is the session running? -/
  | closeRun (p : Ptr)
  /-- `onWrite`: is the session running? -/
  | writeRun (p : Ptr)
  /-- `onWrite`: a request was decoded -/
  | writeWork (p : Ptr)
  /-- `onResponse`: look at the sender -/
  | respFrom (r : Response)
  /-- `onResponse`: the sender lives -/
  | respEvents (r : Response) (p : Ptr)
  /-- `onResponse`: take the next message -/
  | respMessages (r : Response)
  /-- `onResponse`: the destinations below the index are left -/
  | respSids (r : Response) (m : MsgPtr) (i : ℕ)
  /-- `onResponse`: the sessions to close are left -/
  | respClose (r : Response)
  deriving DecidableEq

/-- What a run did so far. -/
structure History where
  /-- the destinations of the messages that were handed to `onResponse` -/
  dest : MsgPtr → Option (List Sid)
  /-- the requests decoded for a session -/
  decoded : Ptr → ℕ
  /-- the requests whose replies were appended to the session's `outList`, in that order -/
  replies : Ptr → List ℕ
  /-- the sessions removed from the manager -/
  removed : List Ptr
  /-- the deleted sessions -/
  deleted : List Ptr

/-- The server: memory, session manager, pending events of libevent, queues and threads. -/
structure Server where
  heap : Ptr → Option Session
  nextPtr : Ptr
  mgr : SessionManager Ptr
  readEvents : Ptr → Bool
  writeEvents : Ptr → Bool
  pc : EventPc
  tasks : List Task
  responses : List Response
  msgs : MsgPtr → Message
  nextMsg : MsgPtr
  output : List MsgPtr
  log : History

/-- What can go wrong. -/
inductive Fault where
  /-- a session is used after it was deleted -/
  | deleted
  /-- the session manager is misused -/
  | mgr (f : MgrFault)
  /-- `assert( sid.mKey > 0 )` in `onAccept` -/
  | noKey
  deriving DecidableEq, Repr

namespace Server

/-- The server before the first connection. -/
def init : Server where
  heap _ := none
  nextPtr := 0
  mgr := .new
  readEvents _ := false
  writeEvents _ := false
  pc := .idle
  tasks := []
  responses := []
  msgs _ := ⟨0, [], [], []⟩
  nextMsg := 0
  output := []
  log := ⟨fun _ => none, fun _ => 0, fun _ => [], [], []⟩

/-! ## Access to the parts -/

/-- A session that was deleted is not there any more. -/
def deref (w : Server) (p : Ptr) : Except Fault Session :=
  match w.heap p with
  | some s => .ok s
  | none => .error .deleted

def modify (w : Server) (p : Ptr) (f : Session → Session) : Server :=
  { w with heap := Function.update w.heap p ((w.heap p).map f) }

/-- `delete session`. -/
def deleteSession (w : Server) (p : Ptr) : Server :=
  { w with
    heap := Function.update w.heap p none
    log := { w.log with deleted := w.log.deleted ++ [p] } }

/-- The session that `SP_SessionManager::get` finds for a sid, if the sequence number matches. -/
def lookup (w : Server) (sid : Sid) : Option Ptr :=
  if (w.mgr.get sid.key).2 = sid.seq then (w.mgr.get sid.key).1 else none

/-- The event thread goes on at `pc`. -/
def goto (w : Server) (pc : EventPc) : Server := { w with pc := pc }

/-- A task for the executor. -/
def pushTask (w : Server) (t : Task) : Server := { w with tasks := w.tasks ++ [t] }

/-- The `i`-th task goes on to `t`. -/
def setTask (w : Server) (i : ℕ) (t : Task) : Server := { w with tasks := w.tasks.set i t }

/-- The `i`-th task is finished. -/
def endTask (w : Server) (i : ℕ) : Server := { w with tasks := w.tasks.eraseIdx i }

/-- `msgqueue_push` on the response queue. -/
def msgqueuePush (w : Server) (r : Response) : Server := { w with responses := w.responses ++ [r] }

/-- `addEvent( session, EV_WRITE, -1 )`. -/
def addWrite (w : Server) (p : Ptr) : Server :=
  match w.heap p with
  | some s =>
    if s.writing then w
    else { w.modify p fun s => { s with writing := true } with
      writeEvents := Function.update w.writeEvents p true }
  | none => w

/-- `addEvent( session, EV_READ, -1 )`. -/
def addRead (w : Server) (p : Ptr) : Server :=
  match w.heap p with
  | some s =>
    if s.reading then w
    else { w.modify p fun s => { s with reading := true } with
      readEvents := Function.update w.readEvents p true }
  | none => w

/-- `event_del( session->getReadEvent() )`. -/
def delRead (w : Server) (p : Ptr) : Server :=
  { w with readEvents := Function.update w.readEvents p false }

/-- `event_del( session->getWriteEvent() )`. -/
def delWrite (w : Server) (p : Ptr) : Server :=
  { w with writeEvents := Function.update w.writeEvents p false }

/-- `SP_EventHelper::doCompletion`. -/
def doCompletion (w : Server) (m : MsgPtr) : Server := { w with output := w.output ++ [m] }

/-- Store a message whose lists changed; it is complete when its ToList is empty. -/
def settle (w : Server) (m : MsgPtr) (msg : Message) : Server :=
  let w := { w with msgs := Function.update w.msgs m msg }
  if msg.toList = [] then w.doCompletion m else w

/-- `remove` of the session manager. -/
def removeSession (w : Server) (p : Ptr) (sid : Sid) : Except Fault Server :=
  match w.mgr.remove sid.key sid.seq with
  | .ok (mgr, _) =>
    .ok { w with mgr := mgr, log := { w.log with removed := w.log.removed ++ [p] } }
  | .error f => .error (.mgr f)

/-! ## `SP_IOChannel::transmit` -/

/-- The messages at the front that are written in full leave the list. -/
def takeSent (sid : Sid) : List MsgPtr → ℕ → Server → Server × List MsgPtr × ℕ
  | [], outOffset, w => (w, [], outOffset)
  | m :: outList, outOffset, w =>
    if (w.msgs m).totalSize ≤ outOffset then
      takeSent sid outList (outOffset - (w.msgs m).totalSize)
        (w.settle m ((w.msgs m).succeed sid))
    else (w, m :: outList, outOffset)

/-- `transmit( session )`; the list gives the results of the successive calls of `write_vec`,
which fails when the list is used up. -/
def transmit (sid : Sid) : List ℤ → List MsgPtr → ℕ → Server → Server × List MsgPtr × ℕ × ℤ
  | [], outList, outOffset, w => (w, outList, outOffset, -1)
  | len :: lens, outList, outOffset, w =>
    if len > 0 then
      match takeSent sid outList (outOffset + len.toNat) w with
      | (w, [], outOffset) => (w, [], outOffset, len)
      | (w, m :: outList, outOffset) =>
        match transmit sid lens (m :: outList) outOffset w with
        | (w, outList, outOffset, tmpLen) =>
          (w, outList, outOffset, if tmpLen > 0 then len + tmpLen else len)
    else (w, outList, outOffset, len)

/-! ## `SP_EventHelper` -/

/-- `doWork( session )`; input of a session that is about to exit is dropped. -/
def doWork (w : Server) (p : Ptr) (s : Session) : Server :=
  if s.status = .eNormal then
    (w.modify p fun s => { s with running := true }).pushTask (.worker p (w.log.decoded p))
  else w

/-- `doStart( session )`. -/
def doStart (w : Server) (p : Ptr) : Server :=
  (w.modify p fun s => { s with running := true }).pushTask (.start p)

/-- The loop of `doError` and `doTimeout` over the messages that are still to be written, from
the last one on. -/
def failAll (sid : Sid) : List MsgPtr → Server → Server
  | [], w => w
  | m :: rest, w => failAll sid rest (w.settle m ((w.msgs m).fail sid))

/-- `doError` and `doTimeout`: give up the session, then let a task finish it. -/
def giveUp (t : Task) (w : Server) (p : Ptr) (s : Session) : Except Fault Server := do
  let w := failAll s.sid s.outList.reverse ((w.delWrite p).delRead p)
  let w ← (w.modify p fun s => { s with outList := [] }).removeSession p s.sid
  return w.pushTask t

/-- `doError( session )`. -/
def doError (w : Server) (p : Ptr) (s : Session) : Except Fault Server := giveUp (.error p) w p s

/-- `doTimeout( session )`. -/
def doTimeout (w : Server) (p : Ptr) (s : Session) : Except Fault Server :=
  giveUp (.timeout p) w p s

/-- `doClose( session )`. -/
def doClose (w : Server) (p : Ptr) (s : Session) : Except Fault Server := do
  let w ← ((w.delWrite p).delRead p).removeSession p s.sid
  return w.pushTask (.myclose p)

/-! ## `onAccept` and `SP_Dispatcher::onPush` -/

/-- How a new session begins. -/
inductive Start where
  /-- with a `start` task -/
  | start
  /-- waiting for input and output (`SP_Dispatcher::push` without `needStart`) -/
  | wait
  /-- the system is busy: it is sent `mRefusedMsg`, of this size, and closed -/
  | refused (size : ℕ)

/-- `new SP_Session( sid )`, put under its key. -/
def newSession (w : Server) (mgr : SessionManager Ptr) (sid : Sid) : Server :=
  { w with
    mgr := mgr
    nextPtr := w.nextPtr + 1
    heap := Function.update w.heap w.nextPtr (some (.new sid)) }

/-- `new SP_Message()` for a message without destinations. -/
def newMessage (w : Server) (size : ℕ) : Server :=
  { w with
    nextMsg := w.nextMsg + 1
    msgs := Function.update w.msgs w.nextMsg ⟨size, [], [], []⟩ }

/-- The session starts, waits for its start, or is refused with a message. -/
def begin (w : Server) (p : Ptr) : Start → Server
  | .start => w.doStart p
  | .wait => (w.addWrite p).addRead p
  | .refused size =>
    ((w.newMessage size).modify p fun s =>
      { s with outList := s.outList ++ [w.nextMsg], status := .eExit }).addWrite p

def onAccept (w : Server) (how : Start) : Except Fault Server :=
  match w.mgr.allocKey with
  | .error f => .error (.mgr f)
  | .ok (mgr, key, seq) =>
    if key > 0 then
      match mgr.put key seq w.nextPtr with
      | .error f => .error (.mgr f)
      | .ok mgr => .ok ((w.newSession mgr ⟨key, seq⟩).begin w.nextPtr how)
    else .error .noKey

/-! ## `onRead` and `onWrite` -/

/-- What `onRead` is called with, and what `receive` gives. -/
inductive ReadEvent where
  | received
  | again
  | failed
  | timeout

/-- What `onWrite` is called with: the results of `write_vec` and whether the last error is
`EAGAIN`. -/
inductive WriteEvent where
  | ready (lens : List ℤ) (again : Bool)
  | timeout

/-- `onRead` up to the first look at `mRunning`. The event is not persistent. -/
def onRead (w : Server) (p : Ptr) (ev : ReadEvent) : Server :=
  let w := (w.delRead p).modify p fun s => { s with reading := false }
  match ev with
  | .received => w.goto (.readRun p)
  | .again => w.addRead p
  | .failed => w.goto (.error p)
  | .timeout => w.goto (.timeout p)

/-- `onWrite` after `transmit`. -/
def transmitted (w : Server) (p : Ptr) (again : Bool) (outList : List MsgPtr) (outOffset : ℕ)
    (len : ℤ) : Server :=
  let w := w.modify p fun s => { s with outList := outList, outOffset := outOffset }
  if len > 0 then
    -- what is left waits for the next write event
    (if outList = [] then w else w.addWrite p).goto (.closeTest p)
  else if again then (w.addWrite p).goto (.closeTest p)
  else w.goto (.error p)

/-- `onWrite` up to the first look at `mRunning` or `mStatus`. -/
def onWrite (w : Server) (p : Ptr) (s : Session) (ev : WriteEvent) : Server :=
  let w := (w.delWrite p).modify p fun s => { s with writing := false }
  match ev with
  | .timeout => w.goto (.timeout p)
  | .ready lens again =>
    if s.outList = [] then w.goto (.closeTest p)
    else
      let (w, outList, outOffset, len) := transmit s.sid lens s.outList s.outOffset w
      w.transmitted p again outList outOffset len

/-- `if( 0 == session->getRunning() )` and, if the decoder has a request, on to `doWork`. -/
def decode (w : Server) (p : Ptr) (s : Session) (ok : Bool) (work skip : EventPc) : Server :=
  if s.running then w.goto skip
  else if ok then
    { w with log := { w.log with
        decoded := Function.update w.log.decoded p (w.log.decoded p + 1) } }.goto work
  else w.goto skip

/-! ## `onResponse` -/

/-- The session that the response comes from. -/
def respFrom (w : Server) (r : Response) : Except Fault Server :=
  if isSystemSid r.fromSid then .ok (w.goto (.respMessages r))
  else
    match w.lookup r.fromSid with
    | some p => do
      let s ← w.deref p
      let w := if s.status = .eWouldExit then w.modify p fun s => { s with status := .eExit }
        else w
      return w.goto (.respEvents r p)
    | none => .ok (w.goto (.respMessages r))

def respEvents (w : Server) (r : Response) (p : Ptr) (s : Session) : Server :=
  let w := if s.status = .eNormal then w else w.delRead p
  ((w.addWrite p).addRead p).goto (.respMessages r)

/-- `takeMessage`; a message without content fails for all its destinations. -/
def respMessages (w : Server) (r : Response) : Server :=
  match r.messages with
  | [] => w.goto (.respClose r)
  | (totalSize, toList) :: messages =>
    let r := { r with messages := messages }
    let m := w.nextMsg
    let w := { w with
      nextMsg := m + 1
      log := { w.log with dest := Function.update w.log.dest m (some toList) } }
    if totalSize > 0 then
      { w with msgs := Function.update w.msgs m ⟨totalSize, toList, [], []⟩ }.goto
        (.respSids r m toList.length)
    else
      { w with msgs := Function.update w.msgs m ⟨totalSize, [], [], toList.reverse⟩ }.goto
        (.respSids r m 0)

/-- `take( i )` and `getFailure()->add( sid )`. -/
def dropSid (w : Server) (m : MsgPtr) (i : ℕ) (sid : Sid) : Server :=
  { w with msgs := Function.update w.msgs m ((w.msgs m).failAt i sid) }

/-- The reply to a request of the session itself is noted in the history. -/
def noteReply (w : Server) (p : Ptr) (request : Option (Ptr × ℕ)) : Server :=
  match request with
  | some (q, n) =>
    if q = p then
      { w with log := { w.log with
          replies := Function.update w.log.replies p (w.log.replies p ++ [n]) } }
    else w
  | none => w

/-- `session->getOutList()->append( msg )` and `addEvent`. -/
def append (w : Server) (p : Ptr) (m : MsgPtr) (request : Option (Ptr × ℕ)) : Server :=
  ((w.modify p fun s => { s with outList := s.outList ++ [m] }).noteReply p request).addWrite p

/-- One round of the loop over the destinations, from the last one down; at the end the message
is complete if no destination is left. -/
def respSids (w : Server) (r : Response) (m : MsgPtr) : ℕ → Except Fault Server
  | 0 => .ok ((if (w.msgs m).toList = [] then w.doCompletion m else w).goto (.respMessages r))
  | i + 1 => do
    let sid := SidList.get (w.msgs m).toList i
    match w.lookup sid with
    | some p =>
      let s ← w.deref p
      let w := if r.fromSid ≠ sid ∧ s.status = .eExit then w.dropSid m i sid
        else w.append p m r.request
      return w.goto (.respSids r m i)
    | none => return (w.dropSid m i sid).goto (.respSids r m i)

/-- One round of the loop over `getToCloseList()`. -/
def respClose (w : Server) (r : Response) : Except Fault Server :=
  match r.toCloseList with
  | [] => .ok (w.goto .idle)
  | sid :: rest =>
    let pc := EventPc.respClose { r with toCloseList := rest }
    match w.lookup sid with
    | some p => do
      let _ ← w.deref p
      return ((w.modify p fun s => { s with status := .eExit }).addWrite p).goto pc
    | none => .ok (w.goto pc)

/-! ## Steps -/

/-- The event thread goes on; `ok` is what the decoder says if it is asked. -/
def eventStep (w : Server) (ok : Bool) : Except Fault Server :=
  match w.pc with
  | .idle => .ok w
  | .readRun p => do return w.decode p (← w.deref p) ok (.readWork p) (.readTail p)
  | .readWork p => do return (w.doWork p (← w.deref p)).goto (.readTail p)
  | .readTail p => do
    let _ ← w.deref p
    return (w.addRead p).goto .idle
  | .error p => do
    let s ← w.deref p
    if s.running then return w.goto .idle else return (← w.doError p s).goto .idle
  | .timeout p => do
    let s ← w.deref p
    if s.running then return w.goto .idle else return (← w.doTimeout p s).goto .idle
  | .closeTest p => do
    let s ← w.deref p
    return w.goto (if s.outList = [] ∧ s.status = .eExit then .closeRun p else .writeRun p)
  | .closeRun p => do
    let s ← w.deref p
    if s.running then return w.goto .idle else return (← w.doClose p s).goto .idle
  | .writeRun p => do return w.decode p (← w.deref p) ok (.writeWork p) .idle
  | .writeWork p => do return (w.doWork p (← w.deref p)).goto .idle
  | .respFrom r => w.respFrom r
  | .respEvents r p => do return w.respEvents r p (← w.deref p)
  | .respMessages r => .ok (w.respMessages r)
  | .respSids r m i => w.respSids r m i
  | .respClose r => w.respClose r

/-- What a handler does when a task calls it. -/
structure Outcome where
  initRet : Bool
  ret : Bool
  messages : List (ℕ × List Sid)
  toCloseList : List Sid

def Outcome.response (o : Outcome) (sid : Sid) (request : Option (Ptr × ℕ)) : Response :=
  ⟨sid, o.messages, o.toCloseList, request⟩

/-- A thread takes its task, the `i`-th, one step further. -/
def taskStep (w : Server) (i : ℕ) (o : Outcome) : Except Fault Server :=
  match w.tasks[i]? with
  | none => .ok w
  | some (.worker p n) => do
    let s ← w.deref p
    return w.setTask i (.handled p (o.response s.sid (some (p, n))) o.ret)
  | some (.handled p r ret) => do
    let _ ← w.deref p
    let w := if ret then w.modify p fun s => { s with status := .eWouldExit } else w
    return w.setTask i (.clear p r)
  | some (.start p) => do
    let s ← w.deref p
    -- a failed `init` makes the response an empty one
    let r := if o.initRet then ⟨s.sid, [], [], none⟩ else o.response s.sid none
    return w.setTask i
      (.started p r (if o.initRet ∨ o.ret then .eWouldExit else .eNormal))
  | some (.started p r status) => do
    let _ ← w.deref p
    return (w.modify p fun s => { s with status := status }).setTask i (.clear p r)
  | some (.clear p r) => do
    let _ ← w.deref p
    return (w.modify p fun s => { s with running := false }).setTask i (.push r)
  | some (.push r) => .ok ((w.msgqueuePush r).endTask i)
  | some (.error p) => do return w.setTask i (.pushLast p (o.response (← w.deref p).sid none))
  | some (.timeout p) => do return w.setTask i (.pushLast p (o.response (← w.deref p).sid none))
  | some (.pushLast p r) => .ok ((w.msgqueuePush r).setTask i (.myclose p))
  | some (.myclose p) => do
    let _ ← w.deref p
    return w.setTask i (.delete p)
  | some (.delete p) => do
    let _ ← w.deref p
    return (w.endTask i).deleteSession p

/-- What happens next. -/
inductive Action where
  | onAccept (how : Start)
  | onRead (p : Ptr) (ev : ReadEvent)
  | onWrite (p : Ptr) (ev : WriteEvent)
  | onResponse
  /-- the event thread goes on in its callback -/
  | event (ok : Bool)
  /-- a worker thread goes on in its task -/
  | task (i : ℕ) (o : Outcome)
  /-- a timer or another part of the program pushes a response -/
  | post (sid : Sid) (messages : List (ℕ × List Sid)) (toCloseList : List Sid)

/-- A callback begins when the event thread is free, for an event that is pending. -/
def Allowed (w : Server) : Action → Prop
  | .onAccept _ => w.pc = .idle
  | .onRead p _ => w.pc = .idle ∧ w.readEvents p = true
  | .onWrite p _ => w.pc = .idle ∧ w.writeEvents p = true
  | .onResponse => w.pc = .idle ∧ w.responses ≠ []
  | .event _ => w.pc ≠ .idle
  | .task i _ => i < w.tasks.length
  | .post _ _ _ => True

instance (w : Server) : ∀ a, Decidable (w.Allowed a)
  | .onAccept _ => inferInstanceAs (Decidable (_ = _))
  | .onRead _ _ => inferInstanceAs (Decidable (_ ∧ _))
  | .onWrite _ _ => inferInstanceAs (Decidable (_ ∧ _))
  | .onResponse => inferInstanceAs (Decidable (_ ∧ _))
  | .event _ => inferInstanceAs (Decidable (_ ≠ _))
  | .task _ _ => inferInstanceAs (Decidable (_ < _))
  | .post _ _ _ => inferInstanceAs (Decidable True)

/-- One step of the event thread or of a task. -/
def step (w : Server) : Action → Except Fault Server
  | .onAccept how => w.onAccept how
  | .onRead p ev => do
    let _ ← w.deref p
    return w.onRead p ev
  | .onWrite p ev => do return w.onWrite p (← w.deref p) ev
  | .onResponse =>
    match w.responses with
    | [] => .ok w
    | r :: rest => .ok ({ w with responses := rest }.goto (.respFrom r))
  | .event ok => w.eventStep ok
  | .task i o => w.taskStep i o
  | .post sid messages toCloseList => .ok (w.msgqueuePush ⟨sid, messages, toCloseList, none⟩)

/-- The server with its tasks, in any order of their steps. -/
def system : Lib.System Server Action Fault := ⟨init, Allowed, step⟩

instance (w : Server) (a : Action) : Decidable (system.Allowed w a) :=
  inferInstanceAs (Decidable (w.Allowed a))

end Server

end Spserver
