import ReadingComment.Lib.Bytes
import ReadingComment.Spserver.Server

/-!
# The tunnel (`sptunnel/sptunnelimpl.cpp`)

A client's session (the tunnel) opens a connection to a backend, which becomes a
session of its own, and each forwards to the other what it receives. What the client
sends before the backend's session has started is parked, and goes out with the next
message.

The tasks of one session do not overlap; those of the two sessions do. The model cuts
them into the steps between which the other session can be seen: each step uses the
shared `SP_TunnelArg` once. The event thread decodes the input of a session that has no
task, and ends a session (`error`, `timeout`, `close`).
-/

namespace Spserver

open Lib List
open Lib (Bytes)

/-- The values of `mTunnelStatus` and `mBackendStatus`. -/
inductive ArgStatus where
  | eCreate
  | eNormal
  | eDestroy
  deriving DecidableEq, Repr

/-- `SP_TunnelArg`. -/
structure TunnelArg where
  tunnelStatus : ArgStatus
  backendStatus : ArgStatus
  tunnelSid : Sid
  backendSid : Sid

/-- A message with its blocks. -/
structure BlockMessage where
  toList : List Sid
  blocks : List Bytes

/-- `SP_TunnelDecoder::decode`: the new `mBuffer`, and whether the result is `eOK`. -/
def tunnelDecode (mBuffer : Option Bytes) (inBuffer : Bytes) : Option Bytes × Bool :=
  let mBuffer := if inBuffer.length > 0 then some (mBuffer.getD [] ++ inBuffer) else mBuffer
  (mBuffer, decide (0 < (mBuffer.getD []).length))

/-- The task of the tunnel's session, with what it does next. -/
inductive TunnelTask where
  /-- `start`: `setTunnelSid` -/
  | start
  /-- `start`: `setTunnelStatus` -/
  | startStatus
  /-- `start`: `connect` and `push` -/
  | startConnect
  /-- `handle`: `takeBuffer`, then look at the backend's status -/
  | handle
  /-- `handle`: park the buffer or make a message -/
  | forward (seen : ArgStatus) (buffer : Bytes)
  /-- `handle`: look at the backend's status again for the result -/
  | result
  /-- no task -/
  | idle
  /-- the session is gone -/
  | gone
  deriving DecidableEq

/-- The task of the backend's session. -/
inductive BackendTask where
  /-- there is no session yet -/
  | none
  /-- `start`: `setBackendSid` -/
  | start
  /-- `start`: `setBackendStatus` -/
  | startStatus
  /-- `handle`: make a message -/
  | handle
  /-- `handle`: look at the tunnel's status for the result -/
  | result
  | idle
  | gone
  deriving DecidableEq

/-- What a run did: client data was looked at, or the backend's status was set to `eNormal`. -/
inductive TunnelEvent where
  | looked
  | started
  deriving DecidableEq, Repr

/-- The two sessions. Of the session of the tunnel: its task, whether it is about to exit, its
decoder and `mMsgBlockList`; `lost` is what was parked when the handler was deleted. -/
structure Tunnel where
  arg : TunnelArg
  tunnelTask : TunnelTask
  tunnelExit : Bool
  tunnelDecoder : Option Bytes
  parked : List Bytes
  backendTask : BackendTask
  backendExit : Bool
  backendDecoder : Option Bytes
  /-- messages that the tunnel's handler has added to its responses -/
  toBackend : List BlockMessage
  toTunnel : List BlockMessage
  received : Bytes
  lost : List Bytes
  order : List TunnelEvent

/-- What happens. -/
inductive TunnelAction where
  /-- the next step of the tunnel's task; what `connect` gives -/
  | tunnelStep (connected : Bool)
  /-- input of the client is decoded -/
  | tunnelRead (inBuffer : Bytes)
  /-- `error`, `timeout` or `close` of the tunnel, and its handler is deleted -/
  | tunnelEnd
  | backendStep
  | backendRead (inBuffer : Bytes)
  | backendEnd

namespace Tunnel

def init : Tunnel where
  arg := ⟨.eCreate, .eCreate, ⟨0, 0⟩, ⟨0, 0⟩⟩
  tunnelTask := .start
  tunnelExit := false
  tunnelDecoder := none
  parked := []
  backendTask := .none
  backendExit := false
  backendDecoder := none
  toBackend := []
  toTunnel := []
  received := []
  lost := []
  order := []

/-- `SP_TunnelHandler::start` and `handle`, step by step. -/
def tunnelStep (tunnelSid : Sid) (s : Tunnel) (connected : Bool) : Option Tunnel :=
  match s.tunnelTask with
  | .start =>
    some { s with arg := { s.arg with tunnelSid := tunnelSid }, tunnelTask := .startStatus }
  | .startStatus =>
    some { s with arg := { s.arg with tunnelStatus := .eNormal }, tunnelTask := .startConnect }
  | .startConnect =>
    if connected then some { s with backendTask := .start, tunnelTask := .idle }
    else some { s with tunnelExit := true, tunnelTask := .idle }
  | .handle =>
    some { s with
      tunnelDecoder := none
      tunnelTask := .forward s.arg.backendStatus (s.tunnelDecoder.getD [])
      order := s.order ++ [.looked] }
  | .forward seen buffer =>
    if seen = .eCreate then some { s with parked := s.parked ++ [buffer], tunnelTask := .result }
    else
      some { s with
        toBackend := s.toBackend ++ [⟨[s.arg.backendSid], s.parked ++ [buffer]⟩]
        parked := []
        tunnelTask := .result }
  | .result =>
    some { s with
      tunnelExit := s.tunnelExit || decide (s.arg.backendStatus = .eDestroy)
      tunnelTask := .idle }
  | .idle => none
  | .gone => none

/-- `SP_BackendHandler::start` and `handle`, step by step. -/
def backendStep (backendSid : Sid) (s : Tunnel) : Option Tunnel :=
  match s.backendTask with
  | .start =>
    some { s with arg := { s.arg with backendSid := backendSid }, backendTask := .startStatus }
  | .startStatus =>
    some { s with
      arg := { s.arg with backendStatus := .eNormal }
      backendTask := .idle
      order := s.order ++ [.started] }
  | .handle =>
    some { s with
      toTunnel := s.toTunnel ++ [⟨[s.arg.tunnelSid], [s.backendDecoder.getD []]⟩]
      backendDecoder := none
      backendTask := .result }
  | .result =>
    some { s with
      backendExit := s.backendExit || decide (s.arg.tunnelStatus ≠ .eNormal)
      backendTask := .idle }
  | .none => none
  | .idle => none
  | .gone => none

/-- One step of a task, or an event. -/
def next (tunnelSid backendSid : Sid) (s : Tunnel) : TunnelAction → Option Tunnel
  | .tunnelStep connected => s.tunnelStep tunnelSid connected
  | .tunnelRead inBuffer =>
    if s.tunnelTask = .idle then
      let (buffer, ok) := tunnelDecode s.tunnelDecoder inBuffer
      some { s with
        tunnelDecoder := buffer
        received := s.received ++ inBuffer
        -- the input of a session that is about to exit is dropped
        tunnelTask := if ok && ! s.tunnelExit then .handle else .idle }
    else none
  | .tunnelEnd =>
    if s.tunnelTask = .idle then
      some { s with
        arg := { s.arg with tunnelStatus := .eDestroy }
        tunnelTask := .gone, parked := [], lost := s.parked }
    else none
  | .backendStep => s.backendStep backendSid
  | .backendRead inBuffer =>
    if s.backendTask = .idle then
      let (buffer, ok) := tunnelDecode s.backendDecoder inBuffer
      some { s with
        backendDecoder := buffer
        backendTask := if ok && ! s.backendExit then .handle else .idle }
    else none
  | .backendEnd =>
    if s.backendTask = .idle then
      some { s with arg := { s.arg with backendStatus := .eDestroy }, backendTask := .gone }
    else none

/-- No task is in the middle of a callback. -/
def Quiet (s : Tunnel) : Prop :=
  (s.tunnelTask = .idle ∨ s.tunnelTask = .gone) ∧
    (s.backendTask = .idle ∨ s.backendTask = .gone ∨ s.backendTask = .none)

/-- What was sent to the backend. -/
def forwarded (s : Tunnel) (backendSid : Sid) : Bytes :=
  (s.toBackend.filter fun m => backendSid ∈ m.toList).flatMap fun m => m.blocks.flatten

end Tunnel

def tunnelSystem (tunnelSid backendSid : Sid) : System Tunnel TunnelAction Unit where
  init := .init
  Allowed := fun _ _ => True
  step := fun s a =>
    match s.next tunnelSid backendSid a with
    | some s => .ok s
    | none => .error ()

/-! ## The order of events -/

/-- Client data was looked at before the backend had started, and none after that. -/
def Stuck (order : List TunnelEvent) : Prop :=
  order.head? = some .looked ∧ (TunnelEvent.started ∈ order → order.getLast? ≠ some .looked)

variable {order : List TunnelEvent}

theorem stuck_early (h : TunnelEvent.started ∉ order) :
    Stuck (order ++ [.looked]) := by
  refine ⟨?_, fun hmem => ?_⟩
  · cases order with
    | nil => rfl
    | cons e l =>
      cases e with
      | looked => rfl
      | started => exact absurd (mem_cons_self ..) h
  · rcases mem_append.mp hmem with hold | hnew
    · exact absurd hold h
    · cases mem_singleton.mp hnew

theorem not_stuck_late (h : TunnelEvent.started ∈ order) :
    ¬ Stuck (order ++ [.looked]) := by
  rintro ⟨-, hlast⟩
  exact hlast (mem_append_left _ h) getLast?_concat

theorem stuck_started (h : TunnelEvent.started ∉ order) :
    Stuck (order ++ [.started]) ↔ Stuck order := by
  have hhead : (order ++ [TunnelEvent.started]).head? = some .looked ↔
      order.head? = some .looked := by
    cases order with
    | nil => exact iff_of_false (fun heq => nomatch Option.some.inj heq) nofun
    | cons e l => exact Iff.rfl
  constructor
  · rintro ⟨hlooked, -⟩
    exact ⟨hhead.mp hlooked, fun hmem => absurd hmem h⟩
  · rintro ⟨hlooked, -⟩
    refine ⟨hhead.mpr hlooked, fun _ => ?_⟩
    rw [getLast?_concat]
    exact nofun

/-! ## The invariant -/

namespace Tunnel

variable {tunnelSid backendSid : Sid} {s s' : Tunnel}

def inHand (s : Tunnel) : Bytes :=
  match s.tunnelTask with
  | .forward _ buffer => buffer
  | _ => []

def Fresh (s : Tunnel) : Prop :=
  s.backendTask = .none ∨ s.backendTask = .start ∨ s.backendTask = .startStatus

def Parks (s : Tunnel) : Prop :=
  match s.tunnelTask with
  | .forward .eCreate _ => Stuck s.order
  | .forward _ _ => TunnelEvent.started ∈ s.order ∧ ¬ Stuck s.order
  | _ => s.parked ++ s.lost ≠ [] ↔ Stuck s.order

/-- **The invariant**: what was received is forwarded, lost, parked, in hand or still in the
decoder. -/
structure Inv (backendSid : Sid) (s : Tunnel) : Prop where
  bytes : s.forwarded backendSid ++ s.lost.flatten ++ s.parked.flatten ++ s.inHand ++
    s.tunnelDecoder.getD [] = s.received
  sid : s.arg.backendStatus ≠ .eCreate ∨ s.backendTask = .startStatus →
    s.arg.backendSid = backendSid
  lost : s.tunnelTask ≠ .gone → s.lost = []
  solid : ∀ b ∈ s.parked ++ s.lost, b ≠ []
  queued : s.tunnelTask = .handle → s.tunnelDecoder.getD [] ≠ []
  held : ∀ seen b, s.tunnelTask = .forward seen b → b ≠ []
  drained : s.tunnelTask ≠ .handle → s.tunnelExit = false → s.tunnelDecoder.getD [] = []
  exits : s.tunnelExit = true → s.arg.backendStatus = .eDestroy ∨ s.backendTask = .none
  starting : s.tunnelTask = .start ∨ s.tunnelTask = .startStatus ∨ s.tunnelTask = .startConnect →
    s.tunnelExit = false ∧ s.backendTask = .none
  fresh : s.arg.backendStatus = .eCreate ↔ s.Fresh
  started : s.arg.backendStatus = .eCreate ↔ TunnelEvent.started ∉ s.order
  parks : s.Parks

theorem init_inv (backendSid : Sid) : Inv backendSid .init where
  bytes := rfl
  sid := by
    rintro (h | h)
    · exact absurd rfl h
    · cases h
  lost _ := rfl
  solid := nofun
  queued := nofun
  held := nofun
  drained _ _ := rfl
  exits := nofun
  starting _ := ⟨rfl, rfl⟩
  fresh := iff_of_true rfl (.inl rfl)
  started := iff_of_true rfl nofun
  parks := iff_of_false (fun h => h rfl) fun h => nomatch h.1

/-! ## Steps -/

section

variable {s : Tunnel} (h : Inv backendSid s)

include h

theorem Inv.start_step {tunnelSid : Sid} (ht : s.tunnelTask = .start) :
    Inv backendSid { s with
      arg := { s.arg with tunnelSid := tunnelSid }, tunnelTask := .startStatus } := by
  have hlost := h.lost (by rw [ht]; nofun)
  have hbytes := h.bytes
  have hparks := h.parks
  rw [inHand, ht] at hbytes
  rw [Parks, ht] at hparks
  exact { h with
    bytes := hbytes
    lost := fun _ => hlost
    queued := nofun
    held := nofun
    drained := fun _ => h.drained (by rw [ht]; nofun)
    starting := fun _ => h.starting (.inl ht)
    parks := hparks }

theorem Inv.startStatus_step (ht : s.tunnelTask = .startStatus) :
    Inv backendSid { s with
      arg := { s.arg with tunnelStatus := .eNormal }, tunnelTask := .startConnect } := by
  have hlost := h.lost (by rw [ht]; nofun)
  have hbytes := h.bytes
  have hparks := h.parks
  rw [inHand, ht] at hbytes
  rw [Parks, ht] at hparks
  exact { h with
    bytes := hbytes
    lost := fun _ => hlost
    queued := nofun
    held := nofun
    drained := fun _ => h.drained (by rw [ht]; nofun)
    starting := fun _ => h.starting (.inr (.inl ht))
    parks := hparks }

theorem Inv.connect_step (ht : s.tunnelTask = .startConnect) (connected : Bool) :
    Inv backendSid (if connected then { s with backendTask := .start, tunnelTask := .idle }
      else { s with tunnelExit := true, tunnelTask := .idle }) := by
  have hlost := h.lost (by rw [ht]; nofun)
  have hbytes := h.bytes
  have hparks := h.parks
  have hempty := h.drained (by rw [ht]; nofun)
  obtain ⟨hexit, hnone⟩ := h.starting (.inr (.inr ht))
  have hcreate : s.arg.backendStatus = .eCreate := h.fresh.mpr (.inl hnone)
  rw [inHand, ht] at hbytes
  rw [Parks, ht] at hparks
  cases connected with
  | true =>
    exact { h with
      bytes := hbytes
      sid := by
        rintro (hne | hst)
        · exact absurd hcreate hne
        · cases hst
      lost := fun _ => hlost
      queued := nofun
      held := nofun
      drained := fun _ => hempty
      exits := fun hx => absurd hx (Bool.eq_false_iff.mp hexit)
      starting := by
        rintro (hst | hst | hst) <;> cases hst
      fresh := iff_of_true hcreate (.inr (.inl rfl))
      parks := hparks }
  | false =>
    exact { h with
      bytes := hbytes
      lost := fun _ => hlost
      queued := nofun
      held := nofun
      drained := nofun
      exits := fun _ => .inr hnone
      starting := by
        rintro (hst | hst | hst) <;> cases hst
      parks := hparks }

theorem Inv.look_step (ht : s.tunnelTask = .handle) :
    Inv backendSid { s with
      tunnelDecoder := none
      tunnelTask := .forward s.arg.backendStatus (s.tunnelDecoder.getD [])
      order := s.order ++ [.looked] } := by
  have hbytes := h.bytes
  rw [inHand, ht, append_nil] at hbytes
  have hmem : TunnelEvent.started ∈ s.order ++ [.looked] ↔ TunnelEvent.started ∈ s.order := by
    rw [mem_append, mem_singleton]
    exact or_iff_left nofun
  exact { h with
    bytes := by
      rw [inHand]
      simp only [Option.getD_none, append_nil]
      exact hbytes
    lost := fun _ => h.lost (by rw [ht]; nofun)
    queued := nofun
    held := by
      rintro seen b heq
      cases heq
      exact h.queued ht
    drained := fun _ _ => rfl
    starting := by
      rintro (hst | hst | hst) <;> cases hst
    started := h.started.trans (not_congr hmem).symm
    parks := by
      rw [Parks]
      cases hst : s.arg.backendStatus with
      | eCreate => exact stuck_early (h.started.mp hst)
      | eNormal =>
        have hin : TunnelEvent.started ∈ s.order := by
          by_contra hnot
          cases hst.symm.trans (h.started.mpr hnot)
        exact ⟨hmem.mpr hin, not_stuck_late hin⟩
      | eDestroy =>
        have hin : TunnelEvent.started ∈ s.order := by
          by_contra hnot
          cases hst.symm.trans (h.started.mpr hnot)
        exact ⟨hmem.mpr hin, not_stuck_late hin⟩ }

end

theorem flatten_ne_nil {l : List Bytes} (hl : l ≠ []) (h : ∀ b ∈ l, b ≠ []) : l.flatten ≠ [] := by
  intro hnil
  cases l with
  | nil => exact hl rfl
  | cons b l => exact h b (mem_cons_self ..) (flatten_eq_nil_iff.mp hnil b (mem_cons_self ..))

theorem Inv.park_step {s : Tunnel} (h : Inv backendSid s) {buffer : Bytes}
    (ht : s.tunnelTask = .forward .eCreate buffer) :
    Inv backendSid { s with parked := s.parked ++ [buffer], tunnelTask := .result } := by
  have hbytes := h.bytes
  have hparks := h.parks
  have hlost := h.lost (by rw [ht]; nofun)
  rw [inHand, ht] at hbytes
  rw [Parks, ht] at hparks
  exact { h with
    bytes := by
      rw [inHand]
      simp only [flatten_append, flatten_cons, flatten_nil, append_nil]
      rw [← append_assoc]
      exact hbytes
    lost := fun _ => hlost
    solid := by
      intro b hb
      rw [hlost, append_nil] at hb
      rcases mem_append.mp hb with hb | hb
      · exact h.solid b (mem_append_left _ hb)
      · obtain rfl := mem_singleton.mp hb
        exact h.held _ _ ht
    queued := nofun
    held := nofun
    drained := fun _ => h.drained (by rw [ht]; nofun)
    starting := by
      rintro (hst | hst | hst) <;> cases hst
    parks := by
      refine iff_of_true ?_ hparks
      rw [append_assoc]
      exact append_ne_nil_of_right_ne_nil _ nofun }

theorem forwarded_concat {msgs : List BlockMessage} {m : BlockMessage}
    (hm : backendSid ∈ m.toList) :
    ((msgs ++ [m]).filter fun m => backendSid ∈ m.toList).flatMap (fun m => m.blocks.flatten) =
      (msgs.filter fun m => backendSid ∈ m.toList).flatMap (fun m => m.blocks.flatten) ++
        m.blocks.flatten := by
  have hfilter : [m].filter (fun m => backendSid ∈ m.toList) = [m] :=
    filter_cons_of_pos (decide_eq_true hm)
  rw [filter_append, flatMap_append, hfilter, flatMap_singleton]

theorem Inv.flush_step {s : Tunnel} (h : Inv backendSid s) {seen : ArgStatus} {buffer : Bytes}
    (ht : s.tunnelTask = .forward seen buffer) (hseen : seen ≠ .eCreate) :
    Inv backendSid { s with
      toBackend := s.toBackend ++ [⟨[s.arg.backendSid], s.parked ++ [buffer]⟩]
      parked := []
      tunnelTask := .result } := by
  have hbytes := h.bytes
  have hlost := h.lost (by rw [ht]; nofun)
  obtain ⟨hin, hnot⟩ : TunnelEvent.started ∈ s.order ∧ ¬ Stuck s.order := by
    have hparks := h.parks
    rw [Parks, ht] at hparks
    cases seen with
    | eCreate => exact absurd rfl hseen
    | eNormal => exact hparks
    | eDestroy => exact hparks
  have hsid : s.arg.backendSid = backendSid := by
    refine h.sid (.inl fun hcreate => ?_)
    exact h.started.mp hcreate hin
  rw [inHand, ht] at hbytes
  exact { h with
    bytes := by
      have hmine : backendSid ∈ [s.arg.backendSid] := by
        rw [hsid]
        exact mem_singleton_self _
      rw [forwarded, hlost, flatten_nil, append_nil] at hbytes
      rw [forwarded, forwarded_concat hmine, inHand]
      simp only [hlost, append_nil, flatten_append, flatten_cons, flatten_nil]
      rw [← append_assoc]
      exact hbytes
    lost := fun _ => hlost
    solid := by
      rw [hlost]
      exact nofun
    queued := nofun
    held := nofun
    drained := fun _ => h.drained (by rw [ht]; nofun)
    starting := by
      rintro (hst | hst | hst) <;> cases hst
    parks := by
      refine iff_of_false ?_ hnot
      rw [hlost]
      exact fun hne => hne rfl }

theorem Inv.result_step {s : Tunnel} (h : Inv backendSid s) (ht : s.tunnelTask = .result) :
    Inv backendSid { s with
      tunnelExit := s.tunnelExit || decide (s.arg.backendStatus = .eDestroy)
      tunnelTask := .idle } := by
  have hlost := h.lost (by rw [ht]; nofun)
  have hbytes := h.bytes
  have hparks := h.parks
  rw [inHand, ht] at hbytes
  rw [Parks, ht] at hparks
  exact { h with
    bytes := hbytes
    lost := fun _ => hlost
    queued := nofun
    held := nofun
    drained := by
      intro _ hexit
      rw [Bool.or_eq_false_iff] at hexit
      exact h.drained (by rw [ht]; nofun) hexit.1
    exits := by
      intro hexit
      rcases (Bool.or_eq_true _ _).mp hexit with hold | hnew
      · exact h.exits hold
      · exact .inl (of_decide_eq_true hnew)
    starting := by
      rintro (hst | hst | hst) <;> cases hst
    parks := hparks }

theorem tunnelDecode_fst (mBuffer : Option Bytes) (inBuffer : Bytes) :
    (tunnelDecode mBuffer inBuffer).1.getD [] = mBuffer.getD [] ++ inBuffer := by
  rw [tunnelDecode]
  split
  · rfl
  · rename_i hlen
    have hnil : inBuffer = [] := eq_nil_of_length_eq_zero (Nat.eq_zero_of_not_pos hlen)
    rw [hnil, append_nil]

section

variable {s : Tunnel} (h : Inv backendSid s)

include h

theorem Inv.read_step (ht : s.tunnelTask = .idle) (inBuffer : Bytes) :
    Inv backendSid { s with
      tunnelDecoder := (tunnelDecode s.tunnelDecoder inBuffer).1
      received := s.received ++ inBuffer
      tunnelTask :=
        if (tunnelDecode s.tunnelDecoder inBuffer).2 && ! s.tunnelExit then .handle
        else .idle } := by
  have hlost := h.lost (by rw [ht]; nofun)
  have hbytes := h.bytes
  have hparks := h.parks
  rw [inHand, ht, append_nil] at hbytes
  rw [Parks, ht] at hparks
  have hok : (tunnelDecode s.tunnelDecoder inBuffer).2 =
      decide (0 < ((tunnelDecode s.tunnelDecoder inBuffer).1.getD []).length) := rfl
  have hbytes' : s.forwarded backendSid ++ s.lost.flatten ++ s.parked.flatten ++
      (tunnelDecode s.tunnelDecoder inBuffer).1.getD [] = s.received ++ inBuffer := by
    rw [tunnelDecode_fst, ← append_assoc, hbytes]
  cases hgo : (tunnelDecode s.tunnelDecoder inBuffer).2 && ! s.tunnelExit with
  | true =>
    obtain ⟨hyes, hexit⟩ := (Bool.and_eq_true _ _).mp hgo
    exact { h with
      bytes := by
        simp only [inHand, if_true, append_nil]
        exact hbytes'
      lost := fun _ => hlost
      queued := by
        intro _ hnil
        have hpos := of_decide_eq_true (hok ▸ hyes)
        rw [hnil] at hpos
        exact absurd hpos (Nat.lt_irrefl 0)
      held := nofun
      drained := fun hne => absurd rfl hne
      starting := by
        rintro (hst | hst | hst) <;> cases hst
      parks := hparks }
  | false =>
    exact { h with
      bytes := by
        simp only [inHand, Bool.false_eq_true, if_false, append_nil]
        exact hbytes'
      lost := fun _ => hlost
      queued := nofun
      held := nofun
      drained := by
        intro _ hexit
        have hno : (tunnelDecode s.tunnelDecoder inBuffer).2 = false := by
          rcases (Bool.and_eq_false_iff).mp hgo with hno | hno
          · exact hno
          · rw [hexit] at hno
            cases hno
        have hlen := of_decide_eq_false (hok.symm.trans hno)
        exact eq_nil_of_length_eq_zero (Nat.eq_zero_of_not_pos hlen)
      starting := by
        rintro (hst | hst | hst) <;> cases hst
      parks := hparks }

theorem Inv.end_step (ht : s.tunnelTask = .idle) :
    Inv backendSid { s with
      arg := { s.arg with tunnelStatus := .eDestroy }
      tunnelTask := .gone, parked := [], lost := s.parked } := by
  have hlost := h.lost (by rw [ht]; nofun)
  have hbytes := h.bytes
  have hparks := h.parks
  have hsolid := h.solid
  rw [inHand, ht, hlost, flatten_nil, append_nil, append_nil] at hbytes
  rw [Parks, ht, hlost, append_nil] at hparks
  rw [hlost, append_nil] at hsolid
  exact { h with
    bytes := by
      simp only [inHand, flatten_nil, append_nil]
      exact hbytes
    lost := fun hne => absurd rfl hne
    solid := hsolid
    queued := nofun
    held := nofun
    drained := fun _ => h.drained (by rw [ht]; nofun)
    starting := by
      rintro (hst | hst | hst) <;> cases hst
    parks := hparks }

theorem Inv.backendSid_step (ht : s.backendTask = .start) :
    Inv backendSid { s with
      arg := { s.arg with backendSid := backendSid }, backendTask := .startStatus } where
  bytes := h.bytes
  sid _ := rfl
  lost := h.lost
  solid := h.solid
  queued := h.queued
  held := h.held
  drained := h.drained
  exits hexit := by
    rcases h.exits hexit with hdestroy | hnone
    · exact .inl hdestroy
    · cases ht.symm.trans hnone
  starting hst := by
    obtain ⟨-, hnone⟩ := h.starting hst
    cases ht.symm.trans hnone
  fresh := iff_of_true (h.fresh.mpr (.inr (.inl ht))) (.inr (.inr rfl))
  started := h.started
  parks := h.parks

theorem Inv.backendStatus_step (ht : s.backendTask = .startStatus) :
    Inv backendSid { s with
      arg := { s.arg with backendStatus := .eNormal }
      backendTask := .idle
      order := s.order ++ [.started] } := by
  have hcreate : s.arg.backendStatus = .eCreate := h.fresh.mpr (.inr (.inr ht))
  have hnot := h.started.mp hcreate
  have hparks := h.parks
  exact { h with
    sid := fun _ => h.sid (.inr ht)
    exits := by
      intro hexit
      rcases h.exits hexit with hdestroy | hnone
      · cases hcreate.symm.trans hdestroy
      · cases ht.symm.trans hnone
    starting := by
      intro hst
      obtain ⟨-, hnone⟩ := h.starting hst
      cases ht.symm.trans hnone
    fresh := by
      refine iff_of_false nofun ?_
      rintro (hst | hst | hst) <;> cases hst
    started := iff_of_false nofun fun hout =>
      hout (mem_append_right _ (mem_singleton_self _))
    parks := by
      rw [Parks] at hparks ⊢
      simp only at hparks ⊢
      split at hparks
      · exact (stuck_started hnot).mpr hparks
      · exact absurd hparks.1 hnot
      · exact hparks.trans (stuck_started hnot).symm }

theorem Inv.backend_step {task : BackendTask} {buffer : Option Bytes} {exit : Bool}
    {msgs : List BlockMessage} (hold : ¬ s.Fresh)
    (hnew : task = .handle ∨ task = .result ∨ task = .idle) :
    Inv backendSid { s with
      backendTask := task, backendDecoder := buffer, backendExit := exit, toTunnel := msgs } where
  bytes := h.bytes
  sid := by
    rintro (hne | hst)
    · exact h.sid (.inl hne)
    · subst hst
      rcases hnew with hst | hst | hst <;> cases hst
  lost := h.lost
  solid := h.solid
  queued := h.queued
  held := h.held
  drained := h.drained
  exits hexit := by
    rcases h.exits hexit with hdestroy | hnone
    · exact .inl hdestroy
    · exact absurd (.inl hnone) hold
  starting hst := absurd (.inl (h.starting hst).2) hold
  fresh := by
    refine iff_of_false (fun hcreate => hold (h.fresh.mp hcreate)) ?_
    rintro (hst | hst | hst)
    all_goals
      subst hst
      rcases hnew with hst | hst | hst <;> cases hst
  started := h.started
  parks := h.parks

theorem Inv.backendEnd_step (ht : s.backendTask = .idle) :
    Inv backendSid { s with
      arg := { s.arg with backendStatus := .eDestroy }, backendTask := .gone } := by
  have hold : ¬ s.Fresh := by
    rintro (hst | hst | hst) <;> cases ht.symm.trans hst
  have hne : s.arg.backendStatus ≠ .eCreate := fun hcreate => hold (h.fresh.mp hcreate)
  exact { h with
    sid := fun _ => h.sid (.inl hne)
    exits := fun _ => .inl rfl
    starting := fun hst => absurd (.inl (h.starting hst).2) hold
    fresh := by
      refine iff_of_false nofun ?_
      rintro (hst | hst | hst) <;> cases hst
    started := iff_of_false nofun fun hout => hne (h.started.mpr hout) }

end

theorem tunnelStep_inv (h : Inv backendSid s) {connected : Bool}
    (hs : s.tunnelStep tunnelSid connected = some s') : Inv backendSid s' := by
  rw [tunnelStep] at hs
  split at hs
  · rename_i ht
    cases hs
    exact h.start_step ht
  · rename_i ht
    cases hs
    exact h.startStatus_step ht
  · rename_i ht
    have hconnect := h.connect_step ht connected
    cases connected with
    | true =>
      cases hs
      exact hconnect
    | false =>
      cases hs
      exact hconnect
  · rename_i ht
    cases hs
    exact h.look_step ht
  · rename_i seen buffer ht
    split at hs
    · rename_i hseen
      cases hs
      exact h.park_step (hseen ▸ ht)
    · rename_i hseen
      cases hs
      exact h.flush_step ht hseen
  · rename_i ht
    cases hs
    exact h.result_step ht
  · cases hs
  · cases hs

theorem backendStep_inv (h : Inv backendSid s) (hs : s.backendStep backendSid = some s') :
    Inv backendSid s' := by
  have hold : s.backendTask = .handle ∨ s.backendTask = .result → ¬ s.Fresh := by
    rintro (ht | ht) (hst | hst | hst) <;> cases ht.symm.trans hst
  rw [backendStep] at hs
  split at hs
  · rename_i ht
    cases hs
    exact h.backendSid_step ht
  · rename_i ht
    cases hs
    exact h.backendStatus_step ht
  · rename_i ht
    cases hs
    exact h.backend_step (hold (.inl ht)) (.inr (.inl rfl))
  · rename_i ht
    cases hs
    exact h.backend_step (hold (.inr ht)) (.inr (.inr rfl))
  · cases hs
  · cases hs
  · cases hs

/-- **Each step** keeps the invariant. -/
theorem next_inv (h : Inv backendSid s) {a : TunnelAction}
    (hs : s.next tunnelSid backendSid a = some s') : Inv backendSid s' := by
  cases a with
  | tunnelStep connected => exact tunnelStep_inv h hs
  | tunnelRead inBuffer =>
    rw [next] at hs
    split at hs
    · rename_i ht
      cases hs
      exact h.read_step ht inBuffer
    · cases hs
  | tunnelEnd =>
    rw [next] at hs
    split at hs
    · rename_i ht
      cases hs
      exact h.end_step ht
    · cases hs
  | backendStep => exact backendStep_inv h hs
  | backendRead inBuffer =>
    rw [next] at hs
    split at hs
    · rename_i ht
      have hold : ¬ s.Fresh := by
        rintro (hst | hst | hst) <;> cases ht.symm.trans hst
      cases hs
      refine h.backend_step hold ?_
      have htask : ∀ b : Bool, (if b then BackendTask.handle else .idle) = .handle ∨
          (if b then BackendTask.handle else .idle) = .result ∨
          (if b then BackendTask.handle else .idle) = .idle := by decide
      exact htask _
    · cases hs
  | backendEnd =>
    rw [next] at hs
    split at hs
    · rename_i ht
      cases hs
      exact h.backendEnd_step ht
    · cases hs

theorem reach_inv (h : (tunnelSystem tunnelSid backendSid).Reach (fun _ _ => True) s) :
    Inv backendSid s := by
  refine h.invariant (init_inv backendSid) fun s a s' hinv _ _ hstep => ?_
  simp only [tunnelSystem] at hstep
  split at hstep
  · rename_i hs
    cases hstep
    exact next_inv hinv hs
  · cases hstep

theorem Inv.eq_forwarded_iff (h : Inv backendSid s) (hquiet : s.Quiet)
    (hnormal : s.arg.backendStatus = .eNormal) :
    (s.parked = [] ∧ s.forwarded backendSid = s.received) ↔ ¬ Stuck s.order := by
  have hne : s.arg.backendStatus ≠ .eCreate := by
    rw [hnormal]
    nofun
  -- the backend lives, so the tunnel is not about to exit
  have hexit : s.tunnelExit = false := by
    cases hx : s.tunnelExit with
    | false => rfl
    | true =>
      rcases h.exits hx with hdestroy | hnone
      · cases hnormal.symm.trans hdestroy
      · exact absurd (h.fresh.mpr (.inl hnone)) hne
  have hbytes := h.bytes
  have hparks := h.parks
  have hempty : s.tunnelTask ≠ .handle → s.tunnelDecoder.getD [] = [] :=
    fun ht => h.drained ht hexit
  have hshape : s.forwarded backendSid ++ (s.lost.flatten ++ s.parked.flatten) = s.received ∧
      (s.parked ++ s.lost ≠ [] ↔ Stuck s.order) := by
    rw [Parks] at hparks
    rw [inHand] at hbytes
    rcases hquiet.1 with ht | ht
    · rw [hempty (by rw [ht]; nofun), ht, append_nil, append_nil, append_assoc] at hbytes
      rw [ht] at hparks
      exact ⟨hbytes, hparks⟩
    · rw [hempty (by rw [ht]; nofun), ht, append_nil, append_nil, append_assoc] at hbytes
      rw [ht] at hparks
      exact ⟨hbytes, hparks⟩
  obtain ⟨hall, hstuck⟩ := hshape
  constructor
  · rintro ⟨hparked, hforwarded⟩ hs
    have hsome := hstuck.mpr hs
    rw [hforwarded] at hall
    have hnil := append_right_eq_self.mp hall
    rw [hparked, nil_append] at hsome
    have hsolid : ∀ b ∈ s.lost, b ≠ [] := fun b hb => h.solid b (mem_append_right _ hb)
    exact flatten_ne_nil hsome hsolid (append_eq_nil_iff.mp hnil).1
  · intro hs
    have hnone : s.parked ++ s.lost = [] := not_not.mp fun hsome => hs (hstuck.mp hsome)
    obtain ⟨hparked, hlost⟩ := append_eq_nil_iff.mp hnone
    refine ⟨hparked, ?_⟩
    rw [hparked, hlost, flatten_nil, append_nil, append_nil] at hall
    exact hall

end Tunnel

/-- **Forwarding**: what is put in messages to the backend is always the beginning of what was
received from the client; and when the backend is up and there is no task, all of it was forwarded
and nothing is parked if and only if client data that was looked at before the backend had started
was followed by data that was looked at after that. -/
theorem tunnel_forwards (tunnelSid backendSid : Sid) {s : Tunnel}
    (h : (tunnelSystem tunnelSid backendSid).Reach (fun _ _ => True) s) :
    (s.forwarded backendSid <+: s.received) ∧
    (s.Quiet → s.arg.backendStatus = .eNormal →
      ((s.parked = [] ∧ s.forwarded backendSid = s.received) ↔
        (s.order.head? = some .looked → s.order.getLast? = some .looked))) := by
  have hinv := Tunnel.reach_inv h
  refine ⟨?_, fun hquiet hnormal => ?_⟩
  · have hbytes := hinv.bytes
    rw [List.append_assoc, List.append_assoc, List.append_assoc] at hbytes
    exact ⟨_, hbytes⟩
  · rw [hinv.eq_forwarded_iff hquiet hnormal, Stuck, not_and, Classical.not_imp, not_not]
    have hstarted : TunnelEvent.started ∈ s.order := by
      by_contra hnot
      cases hnormal.symm.trans (hinv.started.mpr hnot)
    exact imp_congr_right fun _ => and_iff_right hstarted

instance (tunnelSid backendSid : Sid) (s : Tunnel) (a : TunnelAction) :
    Decidable ((tunnelSystem tunnelSid backendSid).Allowed s a) := inferInstanceAs (Decidable True)

instance (s : Tunnel) : Decidable s.Quiet := inferInstanceAs (Decidable ((_ ∨ _) ∧ (_ ∨ _ ∨ _)))

def connects : List TunnelAction := List.replicate 3 (.tunnelStep true)

def backendStarts : List TunnelAction := [.backendStep, .backendStep]

def clientSends (bytes : Bytes) : List TunnelAction :=
  .tunnelRead bytes :: List.replicate 3 (.tunnelStep true)

/-- What the client sends after the backend has started is forwarded, with what was parked. -/
theorem tunnel_forwards_late :
    ∃ s, (tunnelSystem ⟨1, 0⟩ ⟨2, 0⟩).run (fun _ _ => True)
        (connects ++ clientSends [65] ++ backendStarts ++ clientSends [66]) .init = some s ∧
      s.parked = [] ∧ s.forwarded ⟨2, 0⟩ = s.received := by
  have hrun : ((tunnelSystem ⟨1, 0⟩ ⟨2, 0⟩).run (fun _ _ => True)
      (connects ++ clientSends [65] ++ backendStarts ++ clientSends [66]) .init).map
        (fun s => (decide s.Quiet, s.arg.backendStatus, s.order.getLast?)) =
      some (true, .eNormal, some .looked) := by decide +kernel
  obtain ⟨s, hs, heq⟩ := Option.map_eq_some_iff.mp hrun
  obtain ⟨hquiet, heq⟩ := Prod.mk.inj heq
  obtain ⟨hnormal, hlast⟩ := Prod.mk.inj heq
  have hiff := (tunnel_forwards ⟨1, 0⟩ ⟨2, 0⟩ (System.Reach.init.run hs)).2
    (of_decide_eq_true hquiet) hnormal
  exact ⟨s, hs, hiff.mpr fun _ => hlast⟩

/-- What the client sends before the backend has started is parked, and stays there. -/
theorem parked_forever :
    ∃ s, (tunnelSystem ⟨1, 0⟩ ⟨2, 0⟩).Reach (fun _ _ => True) s ∧ s.Quiet ∧
      s.arg.backendStatus = .eNormal ∧ s.received = [65] ∧ s.parked = [[65]] ∧
      s.forwarded ⟨2, 0⟩ = [] := by
  have hrun : ((tunnelSystem ⟨1, 0⟩ ⟨2, 0⟩).run (fun _ _ => True)
      (connects ++ clientSends [65] ++ backendStarts) .init).map
        (fun s => decide (s.Quiet ∧ s.arg.backendStatus = .eNormal ∧ s.received = [65] ∧
          s.parked = [[65]] ∧ s.forwarded ⟨2, 0⟩ = [])) = some true := by decide +kernel
  obtain ⟨s, hs, heq⟩ := Option.map_eq_some_iff.mp hrun
  exact ⟨s, System.Reach.init.run hs, of_decide_eq_true heq⟩

end Spserver
