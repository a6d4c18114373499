import ReadingComment.Spserver.Server

/-!
# What one step of the server does

`Step` lists the outcomes of `Server.step` that do not fault, each with the guard
under which it is taken. The invariants of the server are proved by cases on it
and do not unfold the callbacks again.
-/

namespace Spserver

/-- The task works for the session and clears its running flag later. -/
def Task.runs : Task → Ptr → Bool
  | .worker q _, p | .handled q _ _, p | .start q, p | .started q _ _, p | .clear q _, p => q = p
  | _, _ => false

def Task.ends : Task → Ptr → Bool
  | .error q, p | .timeout q, p | .pushLast q _, p | .myclose q, p | .delete q, p => q = p
  | _, _ => false

def Task.request : Task → Option (Ptr × ℕ)
  | .worker p n => some (p, n)
  | .handled _ r _ | .started _ r _ | .clear _ r | .push r | .pushLast _ r => r.request
  | _ => none

/-- The task, whose response is not ready to be pushed, goes on to another of the same kind, for
the same request. -/
structure Task.Same (t t' : Task) : Prop where
  waits : ∀ r, t ≠ .push r
  runs : ∀ q, t'.runs q = t.runs q
  ends : ∀ q, t'.ends q = t.ends q
  request : t'.request = t.request

namespace Server

/-- The outcomes of a step. -/
inductive Step (w : Server) : Action → Server → Prop where
  | accept {how : Start} {mgr : SessionManager Ptr} {sid : Sid} :
    Step w (.onAccept how) ((w.newSession mgr sid).begin w.nextPtr how)
  | read {p : Ptr} {s : Session} {ev : ReadEvent} (hs : w.heap p = some s) :
    Step w (.onRead p ev) (w.onRead p ev)
  | write {p : Ptr} {s : Session} {ev : WriteEvent} (hs : w.heap p = some s) :
    Step w (.onWrite p ev) (w.onWrite p s ev)
  | response {r : Response} {rest : List Response} (hr : w.responses = r :: rest) :
    Step w .onResponse ({ w with responses := rest }.goto (.respFrom r))
  | decode {ok : Bool} {p : Ptr} {s : Session} {work skip : EventPc} (hs : w.heap p = some s)
    (hpc : w.pc = .readRun p ∧ work = .readWork p ∧ skip = .readTail p ∨
      w.pc = .writeRun p ∧ work = .writeWork p ∧ skip = .idle) :
    Step w (.event ok) (w.decode p s ok work skip)
  | work {ok : Bool} {p : Ptr} {s : Session} {next : EventPc} (hs : w.heap p = some s)
    (hpc : w.pc = .readWork p ∧ next = .readTail p ∨ w.pc = .writeWork p ∧ next = .idle) :
    Step w (.event ok) ((w.doWork p s).goto next)
  | tail {ok : Bool} {p : Ptr} {s : Session} (hs : w.heap p = some s) (hpc : w.pc = .readTail p) :
    Step w (.event ok) ((w.addRead p).goto .idle)
  | busy {ok : Bool} {p : Ptr} {s : Session} (hs : w.heap p = some s) (hr : s.running = true)
    (hpc : w.pc = .error p ∨ w.pc = .timeout p ∨ w.pc = .closeRun p) :
    Step w (.event ok) (w.goto .idle)
  | giveUp {ok : Bool} {p : Ptr} {s : Session} {t : Task} {w' : Server} (hs : w.heap p = some s)
    (hr : s.running = false)
    (hpc : w.pc = .error p ∧ t = .error p ∨ w.pc = .timeout p ∧ t = .timeout p)
    (hw : giveUp t w p s = .ok w') :
    Step w (.event ok) (w'.goto .idle)
  | close {ok : Bool} {p : Ptr} {s : Session} {w' : Server} (hs : w.heap p = some s)
    (hr : s.running = false) (hpc : w.pc = .closeRun p) (hw : w.doClose p s = .ok w') :
    Step w (.event ok) (w'.goto .idle)
  | closeTest {ok : Bool} {p : Ptr} {s : Session} (hs : w.heap p = some s)
    (hpc : w.pc = .closeTest p) :
    Step w (.event ok)
      (w.goto (if s.outList = [] ∧ s.status = .eExit then .closeRun p else .writeRun p))
  | noSender {ok : Bool} {r : Response} (hpc : w.pc = .respFrom r) :
    Step w (.event ok) (w.goto (.respMessages r))
  | sender {ok : Bool} {r : Response} {p : Ptr} {s : Session} (hpc : w.pc = .respFrom r)
    (hl : w.lookup r.fromSid = some p) (hs : w.heap p = some s) :
    Step w (.event ok) ((if s.status = .eWouldExit then
      w.modify p fun s => { s with status := .eExit } else w).goto (.respEvents r p))
  | respEvents {ok : Bool} {r : Response} {p : Ptr} {s : Session} (hpc : w.pc = .respEvents r p)
    (hs : w.heap p = some s) : Step w (.event ok) (w.respEvents r p s)
  | respMessages {ok : Bool} {r : Response} (hpc : w.pc = .respMessages r) :
    Step w (.event ok) (w.respMessages r)
  | sidsDone {ok : Bool} {r : Response} {m : MsgPtr} (hpc : w.pc = .respSids r m 0) :
    Step w (.event ok)
      ((if (w.msgs m).toList = [] then w.doCompletion m else w).goto (.respMessages r))
  | dropSid {ok : Bool} {r : Response} {m : MsgPtr} {i : ℕ} (hpc : w.pc = .respSids r m (i + 1)) :
    Step w (.event ok)
      ((w.dropSid m i (SidList.get (w.msgs m).toList i)).goto (.respSids r m i))
  | append {ok : Bool} {r : Response} {m : MsgPtr} {i : ℕ} {p : Ptr} {s : Session}
    (hpc : w.pc = .respSids r m (i + 1))
    (hl : w.lookup (SidList.get (w.msgs m).toList i) = some p) (hs : w.heap p = some s) :
    Step w (.event ok) ((w.append p m r.request).goto (.respSids r m i))
  | responded {ok : Bool} {r : Response} (hpc : w.pc = .respClose r) :
    Step w (.event ok) (w.goto .idle)
  | noClose {ok : Bool} {r : Response} {sid : Sid} {rest : List Sid} (hpc : w.pc = .respClose r)
    (hr : r.toCloseList = sid :: rest) :
    Step w (.event ok) (w.goto (.respClose { r with toCloseList := rest }))
  | toClose {ok : Bool} {r : Response} {sid : Sid} {rest : List Sid} {p : Ptr} {s : Session}
    (hpc : w.pc = .respClose r) (hr : r.toCloseList = sid :: rest)
    (hl : w.lookup sid = some p) (hs : w.heap p = some s) :
    Step w (.event ok) (((w.modify p fun s => { s with status := .eExit }).addWrite p).goto
      (.respClose { r with toCloseList := rest }))
  | advance {i : ℕ} {o : Outcome} {t t' : Task} (ht : w.tasks[i]? = some t) (hsame : t.Same t') :
    Step w (.task i o) (w.setTask i t')
  | status {i : ℕ} {o : Outcome} {t t' : Task} {p : Ptr} {s : Session} {st : Status}
    (ht : w.tasks[i]? = some t) (hs : w.heap p = some s) (hsame : t.Same t') :
    Step w (.task i o) ((w.modify p fun s => { s with status := st }).setTask i t')
  | clear {i : ℕ} {o : Outcome} {p : Ptr} {r : Response} (ht : w.tasks[i]? = some (.clear p r)) :
    Step w (.task i o) ((w.modify p fun s => { s with running := false }).setTask i (.push r))
  | push {i : ℕ} {o : Outcome} {r : Response} (ht : w.tasks[i]? = some (.push r)) :
    Step w (.task i o) ((w.msgqueuePush r).endTask i)
  | pushLast {i : ℕ} {o : Outcome} {p : Ptr} {r : Response}
    (ht : w.tasks[i]? = some (.pushLast p r)) :
    Step w (.task i o) ((w.msgqueuePush r).setTask i (.myclose p))
  | delete {i : ℕ} {o : Outcome} {p : Ptr} (ht : w.tasks[i]? = some (.delete p)) :
    Step w (.task i o) ((w.endTask i).deleteSession p)
  | post {sid : Sid} {messages : List (ℕ × List Sid)} {toCloseList : List Sid} :
    Step w (.post sid messages toCloseList) (w.msgqueuePush ⟨sid, messages, toCloseList, none⟩)

section

variable {w w' : Server} {p : Ptr}

theorem deref_of_heap {s : Session} (h : w.heap p = some s) : w.deref p = .ok s := by
  rw [deref, h]

theorem deref_bind_eq_ok {α : Type} {f : Session → Except Fault α} {a : α}
    (h : w.deref p >>= f = .ok a) : ∃ s, w.heap p = some s ∧ f s = .ok a := by
  rcases hs : w.heap p with _ | s
  · rw [deref, hs] at h
    cases h
  · rw [deref_of_heap hs] at h
    exact ⟨s, rfl, h⟩

theorem bind_pure_eq_ok {α β : Type} {x : Except Fault α} {f : α → β} {b : β}
    (h : (do return f (← x)) = Except.ok b) : ∃ a, x = .ok a ∧ b = f a := by
  rcases x with e | a
  · cases h
  · exact ⟨a, rfl, (Except.ok.inj h).symm⟩

theorem eventStep_cases {ok : Bool} (h : w.eventStep ok = .ok w') (hidle : w.pc ≠ .idle) :
    Step w (.event ok) w' := by
  rw [eventStep] at h
  cases hpc : w.pc with
  | idle => exact absurd hpc hidle
  | readRun p =>
    simp only [hpc] at h
    obtain ⟨s, hs, h⟩ := deref_bind_eq_ok h
    cases h
    exact .decode hs (.inl ⟨hpc, rfl, rfl⟩)
  | readWork p =>
    simp only [hpc] at h
    obtain ⟨s, hs, h⟩ := deref_bind_eq_ok h
    cases h
    exact .work hs (.inl ⟨hpc, rfl⟩)
  | readTail p =>
    simp only [hpc] at h
    obtain ⟨s, hs, h⟩ := deref_bind_eq_ok h
    cases h
    exact .tail hs hpc
  | error p =>
    simp only [hpc] at h
    obtain ⟨s, hs, h⟩ := deref_bind_eq_ok h
    split at h
    · cases h
      exact .busy hs ‹_› (.inl hpc)
    · obtain ⟨w₁, hw, rfl⟩ := bind_pure_eq_ok h
      exact .giveUp hs (by simpa using ‹¬ s.running = true›) (.inl ⟨hpc, rfl⟩) hw
  | timeout p =>
    simp only [hpc] at h
    obtain ⟨s, hs, h⟩ := deref_bind_eq_ok h
    split at h
    · cases h
      exact .busy hs ‹_› (.inr (.inl hpc))
    · obtain ⟨w₁, hw, rfl⟩ := bind_pure_eq_ok h
      exact .giveUp hs (by simpa using ‹¬ s.running = true›) (.inr ⟨hpc, rfl⟩) hw
  | closeTest p =>
    simp only [hpc] at h
    obtain ⟨s, hs, h⟩ := deref_bind_eq_ok h
    cases h
    exact .closeTest hs hpc
  | closeRun p =>
    simp only [hpc] at h
    obtain ⟨s, hs, h⟩ := deref_bind_eq_ok h
    split at h
    · cases h
      exact .busy hs ‹_› (.inr (.inr hpc))
    · obtain ⟨w₁, hw, rfl⟩ := bind_pure_eq_ok h
      exact .close hs (by simpa using ‹¬ s.running = true›) hpc hw
  | writeRun p =>
    simp only [hpc] at h
    obtain ⟨s, hs, h⟩ := deref_bind_eq_ok h
    cases h
    exact .decode hs (.inr ⟨hpc, rfl, rfl⟩)
  | writeWork p =>
    simp only [hpc] at h
    obtain ⟨s, hs, h⟩ := deref_bind_eq_ok h
    cases h
    exact .work hs (.inr ⟨hpc, rfl⟩)
  | respFrom r =>
    simp only [hpc, respFrom] at h
    split at h
    · cases h
      exact .noSender hpc
    split at h
    · rename_i p hl
      obtain ⟨s, hs, h⟩ := deref_bind_eq_ok h
      cases h
      exact .sender hpc hl hs
    · cases h
      exact .noSender hpc
  | respEvents r p =>
    simp only [hpc] at h
    obtain ⟨s, hs, h⟩ := deref_bind_eq_ok h
    cases h
    exact .respEvents hpc hs
  | respMessages r =>
    simp only [hpc] at h
    cases h
    exact .respMessages hpc
  | respSids r m i =>
    simp only [hpc] at h
    cases i with
    | zero =>
      cases h
      exact .sidsDone hpc
    | succ i =>
      simp only [respSids] at h
      split at h
      · rename_i p hl
        obtain ⟨s, hs, h⟩ := deref_bind_eq_ok h
        cases h
        split_ifs
        · exact .dropSid hpc
        · exact .append hpc hl hs
      · cases h
        exact .dropSid hpc
  | respClose r =>
    simp only [hpc, respClose] at h
    split at h
    · cases h
      exact .responded hpc
    · rename_i sid rest hr
      split at h
      · rename_i p hl
        obtain ⟨s, hs, h⟩ := deref_bind_eq_ok h
        cases h
        exact .toClose hpc hr hl hs
      · cases h
        exact .noClose hpc hr

theorem taskStep_cases {i : ℕ} {o : Outcome} (h : w.taskStep i o = .ok w')
    (hi : i < w.tasks.length) : Step w (.task i o) w' := by
  have ht := List.getElem?_eq_getElem hi
  simp only [taskStep, ht] at h
  cases htask : w.tasks[i] with
  | worker p n | error p | timeout p | myclose p =>
    rw [htask] at h ht
    obtain ⟨s, hs, h⟩ := deref_bind_eq_ok h
    cases h
    exact .advance ht ⟨nofun, fun _ => rfl, fun _ => rfl, rfl⟩
  | handled p r ret =>
    rw [htask] at h ht
    obtain ⟨s, hs, h⟩ := deref_bind_eq_ok h
    cases h
    split_ifs
    · exact .status ht hs ⟨nofun, fun _ => rfl, fun _ => rfl, rfl⟩
    · exact .advance ht ⟨nofun, fun _ => rfl, fun _ => rfl, rfl⟩
  | start p =>
    rw [htask] at h ht
    obtain ⟨s, hs, h⟩ := deref_bind_eq_ok h
    cases h
    refine .advance ht ⟨nofun, fun _ => rfl, fun _ => rfl, ?_⟩
    simp only [Task.request]
    split_ifs <;> rfl
  | started p r st =>
    rw [htask] at h ht
    obtain ⟨s, hs, h⟩ := deref_bind_eq_ok h
    cases h
    exact .status ht hs ⟨nofun, fun _ => rfl, fun _ => rfl, rfl⟩
  | clear p r =>
    rw [htask] at h ht
    obtain ⟨s, hs, h⟩ := deref_bind_eq_ok h
    cases h
    exact .clear ht
  | push r =>
    rw [htask] at h ht
    cases h
    exact .push ht
  | pushLast p r =>
    rw [htask] at h ht
    cases h
    exact .pushLast ht
  | delete p =>
    rw [htask] at h ht
    obtain ⟨s, hs, h⟩ := deref_bind_eq_ok h
    cases h
    exact .delete ht

/-- **Inversion**: a step that does not fault has one of the outcomes. -/
theorem step_cases {a : Action} (ha : w.Allowed a) (h : w.step a = .ok w') : Step w a w' := by
  cases a with
  | onAccept how =>
    simp only [step, onAccept] at h
    split at h
    · cases h
    split_ifs at h
    split at h
    · cases h
    · cases h
      exact .accept
  | onRead p ev =>
    obtain ⟨s, hs, h⟩ := deref_bind_eq_ok h
    cases h
    exact .read hs
  | onWrite p ev =>
    obtain ⟨s, hs, h⟩ := deref_bind_eq_ok h
    cases h
    exact .write hs
  | onResponse =>
    simp only [step] at h
    split at h
    · rename_i hnil
      exact absurd hnil ha.2
    · rename_i r rest hr
      cases h
      exact .response hr
  | event ok => exact eventStep_cases h ha
  | task i o => exact taskStep_cases h ha
  | post sid messages toCloseList =>
    cases h
    exact .post

end

end Server

end Spserver
