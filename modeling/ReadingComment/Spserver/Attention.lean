import ReadingComment.Spserver.Accounting
import ReadingComment.Spserver.SessionTable

/-!
# What is still to happen to a session

A living session is attended when it is running, when a response of its is on the
way to `onResponse`, which registers its write event, or when its write event is
registered. Only the callback of that event ends this: all other steps keep a
session attended as long as it lives.
-/

namespace Spserver

open Function List

def Task.answer : Task → Option (Ptr × Response)
  | .handled p r _ | .started p r _ | .clear p r => some (p, r)
  | _ => none

namespace Server

def statusOf (w : Server) (p : Ptr) : Option Status := (w.heap p).map Session.status

def writingOf (w : Server) (p : Ptr) : Bool := (w.heap p).any Session.writing

/-- A response of the session is on the way to `onResponse`: a task is about to push it, it is
queued, or it was just taken. -/
def InFlight (w : Server) (p : Ptr) : Prop :=
  (∃ r, .push r ∈ w.tasks ∧ w.sidOf p = some r.fromSid) ∨
    (∃ r ∈ w.responses, w.sidOf p = some r.fromSid) ∨
    ∃ r, w.pc = .respFrom r ∧ w.sidOf p = some r.fromSid

def Answering (w : Server) (p : Ptr) : Prop := w.runningOf p = true ∨ w.InFlight p

def Attended (w : Server) (p : Ptr) : Prop :=
  w.Answering p ∨ (∃ r, w.pc = .respEvents r p) ∨ w.writeEvents p = true

/-- Tasks hold the responses of their sessions, and `mWriting` says that the write event is
registered. -/
structure Synced (w : Server) : Prop where
  answers : ∀ t ∈ w.tasks, ∀ p r, t.answer = some (p, r) → w.sidOf p = some r.fromSid
  armed : ∀ p, w.Live p → w.writingOf p = true → w.writeEvents p = true

/-- The step takes nothing from the session. -/
structure Tends (w w' : Server) (p : Ptr) : Prop where
  tasks : ∀ t ∈ w.tasks, t ∈ w'.tasks
  fresh : ∀ t ∈ w'.tasks, t ∈ w.tasks ∨ t.answer = none
  responses : ∀ r ∈ w.responses, r ∈ w'.responses
  running : w.runningOf p = true → w'.runningOf p = true
  write : w.writeEvents p = true → w'.writeEvents p = true
  writing : w'.writingOf p = true → w.writingOf p = true ∨ w'.writeEvents p = true

/-- The step takes nothing from the session and does not set its status. -/
structure Keeps (w w' : Server) (p : Ptr) : Prop extends Tends w w' p where
  status : w'.statusOf p = w.statusOf p

section

variable {w w' w'' : Server} {p q : Ptr}

theorem mem_pushTask {t t' : Task} (ht : t.answer = none) (h : t' ∈ (w.pushTask t).tasks) :
    t' ∈ w.tasks ∨ t'.answer = none := by
  rcases mem_append.mp h with h | h
  · exact .inl h
  · rw [mem_singleton.mp h]
    exact .inr ht

theorem statusOf_of_heap {s : Session} (h : w.heap p = some s) : w.statusOf p = some s.status := by
  rw [statusOf, h]
  rfl

theorem statusOf_modify {f : Session → Session} (hf : ∀ s, (f s).status = s.status) :
    (w.modify q f).statusOf p = w.statusOf p := by
  by_cases hp : p = q
  · subst hp
    simp [statusOf, modify, Function.comp_def, hf]
  · simp [statusOf, modify, hp]

theorem writeEvents_settle (m : MsgPtr) (msg : Message) :
    (w.settle m msg).writeEvents = w.writeEvents := by
  rw [settle]
  split_ifs <;> rfl

theorem writeEvents_failAll (sid : Sid) (l : List MsgPtr) :
    (failAll sid l w).writeEvents = w.writeEvents :=
  failAll_same (·.writeEvents) (fun _ => writeEvents_settle) sid l

theorem writeEvents_transmit (sid : Sid) (lens : List ℤ) (l : List MsgPtr) (off : ℕ) :
    (transmit sid lens l off w).1.writeEvents = w.writeEvents :=
  transmit_same (·.writeEvents) (fun _ => writeEvents_settle) sid lens l off

theorem writingOf_modify {f : Session → Session} (hf : ∀ s, (f s).writing = s.writing) :
    (w.modify q f).writingOf p = w.writingOf p := by
  by_cases hp : p = q
  · subst hp
    rcases hs : w.heap p with _ | s <;> simp [writingOf, modify, hs, hf]
  · simp [writingOf, modify, hp]

end

namespace Tends

variable {w w' w'' : Server} {p q : Ptr}

theorem refl (w : Server) : Tends w w p :=
  ⟨fun _ h => h, fun _ => .inl, fun _ h => h, fun h => h, fun h => h, .inl⟩

theorem trans (h : Tends w w' p) (h' : Tends w' w'' p) : Tends w w'' p where
  tasks t ht := h'.tasks t (h.tasks t ht)
  fresh t ht := (h'.fresh t ht).elim (h.fresh t) .inr
  responses r hr := h'.responses r (h.responses r hr)
  running hr := h'.running (h.running hr)
  write hw := h'.write (h.write hw)
  writing hw := (h'.writing hw).elim (fun hw => (h.writing hw).imp_right h'.write) .inr

theorem of_quiet {P : Ptr → Prop} (h : Quiet P w w') (hheap : w'.heap p = w.heap p)
    (hwrite : w'.writeEvents p = w.writeEvents p) : Tends w w' p where
  tasks t ht := h.tasks ▸ ht
  fresh t ht := .inl (h.tasks ▸ ht)
  responses r hr := h.responses ▸ hr
  running hr := by rwa [h.running]
  write hw := by rwa [hwrite]
  writing hw := .inl (by rwa [writingOf, hheap] at hw)

theorem modify {f : Session → Session}
    (hf : (fun s => ((f s).running, (f s).writing)) = fun s => (s.running, s.writing)) :
    Tends w (w.modify q f) p where
  tasks _ ht := ht
  fresh _ := .inl
  responses _ hr := hr
  running hr := by rwa [runningOf_modify fun s => (Prod.mk.inj (congrFun hf s)).1]
  write hw := hw
  writing hw := .inl (by rwa [writingOf_modify fun s => (Prod.mk.inj (congrFun hf s)).2] at hw)

theorem setStatus (st : Status) : Tends w (w.modify q fun s => { s with status := st }) p :=
  modify rfl

theorem work {t : Task} (ht : t.answer = none) :
    Tends w ((w.modify q fun s => { s with running := true }).pushTask t) p where
  tasks _ ht := mem_append_left _ ht
  fresh t' ht' := mem_pushTask ht ht'
  responses _ hr := hr
  running hr := by
    by_cases hp : p = q
    · subst hp
      rcases hs : w.heap p with _ | s <;> simp [runningOf, pushTask, Server.modify, hs] at hr ⊢
    · rwa [← runningOf_modify_ne hp] at hr
  write hw := hw
  writing hw := by
    rw [← writingOf_modify (q := q) (f := fun s => { s with running := true }) fun _ => rfl]
    exact .inl hw

end Tends

namespace Keeps

variable {w w' w'' : Server} {p q : Ptr}

theorem refl (w : Server) : Keeps w w p := ⟨.refl w, rfl⟩

theorem trans (h : Keeps w w' p) (h' : Keeps w' w'' p) : Keeps w w'' p :=
  ⟨h.toTends.trans h'.toTends, h'.status.trans h.status⟩

theorem of_quiet {P : Ptr → Prop} (h : Quiet P w w') (hheap : w'.heap p = w.heap p)
    (hwrite : w'.writeEvents p = w.writeEvents p) : Keeps w w' p :=
  ⟨.of_quiet h hheap hwrite, by rw [statusOf, hheap, statusOf]⟩

theorem goto (pc : EventPc) : Keeps w (w.goto pc) p :=
  of_quiet (P := fun _ => False) (.goto pc) rfl rfl

theorem modify {f : Session → Session}
    (hf : (fun s => ((f s).running, (f s).writing)) = fun s => (s.running, s.writing))
    (hstatus : (fun s => (f s).status) = fun s => s.status) : Keeps w (w.modify q f) p :=
  ⟨.modify hf, statusOf_modify (congrFun hstatus)⟩

theorem addWrite : Keeps w (w.addWrite q) p := by
  rw [Server.addWrite]
  split
  · split_ifs
    · exact refl w
    · by_cases hp : p = q
      · subst hp
        refine ⟨⟨fun _ ht => ht, fun _ => .inl, fun _ hr => hr, fun hr => ?_, fun _ => ?_,
          fun _ => .inr ?_⟩, ?_⟩
        · rwa [← runningOf_modify (p := p) (f := fun s => { s with writing := true }) fun _ => rfl]
            at hr
        · exact update_self ..
        · exact update_self ..
        · exact statusOf_modify fun _ => rfl
      · have hheap : (w.modify q fun s => { s with writing := true }).heap p = w.heap p :=
          update_of_ne hp ..
        refine ⟨⟨fun _ ht => ht, fun _ => .inl, fun _ hr => hr, fun hr => ?_, fun hw => ?_,
          fun hw => .inl ?_⟩, ?_⟩
        · rwa [runningOf, hheap]
        · exact (update_of_ne hp ..).trans hw
        · rwa [writingOf, hheap] at hw
        · rw [statusOf, hheap, statusOf]
  · exact refl w

theorem addRead : Keeps w (w.addRead q) p := by
  rw [Server.addRead]
  split
  · split_ifs
    · exact refl w
    · have hm : Keeps w (w.modify q fun s => { s with reading := true }) p :=
        modify rfl rfl
      exact { hm with }
  · exact refl w

theorem delRead : Keeps w (w.delRead q) p := of_quiet (P := fun _ => False) .delRead rfl rfl

theorem delWrite (hp : p ≠ q) : Keeps w (w.delWrite q) p :=
  of_quiet (P := fun _ => False) .delWrite rfl (update_of_ne hp ..)

theorem failAll (sid : Sid) (l : List MsgPtr) : Keeps w (Server.failAll sid l w) p :=
  of_quiet (P := fun _ => False) (.failAll sid l) (by rw [heap_failAll])
    (by rw [writeEvents_failAll])

theorem transmit (sid : Sid) (lens : List ℤ) (l : List MsgPtr) (off : ℕ) :
    Keeps w (Server.transmit sid lens l off w).1 p :=
  of_quiet (P := fun _ => False) (.transmit sid lens l off) (by rw [heap_transmit])
    (by rw [writeEvents_transmit])

theorem transmitted (again : Bool) (l : List MsgPtr) (off : ℕ) (len : ℤ) :
    Keeps w (w.transmitted q again l off len) p := by
  have hstored : Keeps w (w.modify q fun s => { s with outList := l, outOffset := off }) p :=
    modify rfl rfl
  simp only [Server.transmitted]
  split_ifs
  · exact hstored.trans (goto _)
  · exact (hstored.trans addWrite).trans (goto _)
  · exact (hstored.trans addWrite).trans (goto _)
  · exact hstored.trans (goto _)

theorem fired (s : Session) (ev : WriteEvent) :
    Keeps ((w.delWrite q).modify q fun s => { s with writing := false }) (w.onWrite q s ev) p := by
  cases ev with
  | timeout => exact goto _
  | ready lens again =>
    simp only [Server.onWrite]
    split_ifs
    · exact goto _
    · exact (transmit s.sid lens s.outList s.outOffset).trans (transmitted again _ _ _)

theorem onWrite (hp : p ≠ q) (s : Session) (ev : WriteEvent) : Keeps w (w.onWrite q s ev) p := by
  have hquiet : Quiet (fun _ => False) (w.delWrite q)
      ((w.delWrite q).modify q fun s => { s with writing := false }) :=
    .modify rfl
  exact ((delWrite hp).trans (of_quiet hquiet (heap_modify_ne hp) rfl)).trans (fired s ev)

theorem onRead (ev : ReadEvent) : Keeps w (w.onRead q ev) p := by
  have hbegin : Keeps w ((w.delRead q).modify q fun s => { s with reading := false }) p :=
    delRead.trans (modify rfl rfl)
  cases ev with
  | received => exact hbegin.trans (goto _)
  | again => exact hbegin.trans addRead
  | failed => exact hbegin.trans (goto _)
  | timeout => exact hbegin.trans (goto _)

theorem decode (s : Session) (ok : Bool) (work skip : EventPc) :
    Keeps w (w.decode q s ok work skip) p := by
  refine of_quiet (P := fun _ => False) (.decode s ok work skip) ?_ ?_
  · rw [Server.decode]
    split_ifs <;> rfl
  · rw [Server.decode]
    split_ifs <;> rfl

theorem doWork (s : Session) : Keeps w (w.doWork q s) p := by
  rw [Server.doWork]
  split_ifs
  · exact ⟨.work rfl, statusOf_modify fun _ => rfl⟩
  · exact refl w

theorem respEvents (r : Response) (s : Session) : Keeps w (w.respEvents r q s) p := by
  rw [Server.respEvents]
  split_ifs
  · exact (addWrite.trans addRead).trans (goto _)
  · exact ((delRead.trans addWrite).trans addRead).trans (goto _)

theorem respMessages (r : Response) : Keeps w (w.respMessages r) p := by
  refine of_quiet (P := fun _ => False) (.respMessages r) ?_ ?_
  · rw [Server.respMessages]
    split
    · rfl
    · simp only
      split_ifs <;> rfl
  · rw [Server.respMessages]
    split
    · rfl
    · simp only
      split_ifs <;> rfl

theorem noteReply (request : Option (Ptr × ℕ)) : Keeps w (w.noteReply q request) p := by
  refine of_quiet (P := fun _ => False) (.noteReply request) ?_ ?_
  · rw [heap_noteReply]
  · unfold Server.noteReply
    split
    · split_ifs <;> rfl
    · rfl

theorem append (m : MsgPtr) (request : Option (Ptr × ℕ)) : Keeps w (w.append q m request) p := by
  refine trans (trans ?_ (noteReply request)) addWrite
  exact modify rfl rfl

theorem removeSession {sid : Sid} (h : w.removeSession q sid = .ok w') : Keeps w w' p := by
  rw [Server.removeSession] at h
  split at h
  · cases h
    exact ⟨⟨fun _ ht => ht, fun _ => .inl, fun _ hr => hr, fun hr => hr, fun hw => hw, .inl⟩, rfl⟩
  · cases h

theorem pushTask {t : Task} (ht : t.answer = none) : Keeps w (w.pushTask t) p :=
  ⟨⟨fun _ ht => mem_append_left _ ht, fun _ => mem_pushTask ht, fun _ hr => hr, fun hr => hr,
    fun hw => hw, .inl⟩, rfl⟩

theorem giveUp (hp : p ≠ q) {s : Session} {t : Task} (ht : t.answer = none)
    (h : Server.giveUp t w q s = .ok w') : Keeps w w' p := by
  obtain ⟨w₁, hremove, rfl⟩ := bind_pure_eq_ok h
  have hfail : Keeps w (Server.failAll s.sid s.outList.reverse ((w.delWrite q).delRead q)) p :=
    ((delWrite hp).trans delRead).trans (failAll _ _)
  refine ((hfail.trans ?_).trans (removeSession hremove)).trans (pushTask ht)
  exact modify rfl rfl

theorem doClose (hp : p ≠ q) {s : Session} (h : w.doClose q s = .ok w') : Keeps w w' p := by
  obtain ⟨w₁, hremove, rfl⟩ := bind_pure_eq_ok h
  exact (((delWrite hp).trans delRead).trans (removeSession hremove)).trans (pushTask rfl)

end Keeps

theorem Tends.begin {w : Server} {p q : Ptr} (how : Start) : Tends w (w.begin q how) p := by
  cases how with
  | start => exact .work rfl
  | wait => exact (Keeps.addWrite.trans .addRead).toTends
  | refused size =>
    have hmsg : Quiet (fun _ => False) w (w.newMessage size) :=
      ⟨rfl, rfl, rfl, rfl, rfl, rfl, rfl, rfl, fun _ => .inl, fun _ => .inl⟩
    refine Tends.trans ((Tends.of_quiet hmsg rfl rfl).trans ?_) Keeps.addWrite.toTends
    exact .modify rfl

theorem statusOf_begin {w : Server} {p q : Ptr} (hp : p ≠ q) (how : Start) :
    (w.begin q how).statusOf p = w.statusOf p := by
  cases how with
  | start => exact statusOf_modify fun _ => rfl
  | wait => exact (Keeps.addWrite.trans Keeps.addRead).status
  | refused size =>
    refine Keeps.addWrite.status.trans ?_
    rw [statusOf, heap_modify_ne hp]
    rfl

namespace Keeps

variable {w w' : Server} {p q : Ptr}

theorem onAccept (hlife : Life w) (hpc : w.pc = .idle) (hne : p ≠ w.nextPtr) {how : Start}
    (h : w.onAccept how = .ok w') : Keeps w w' p := by
  rcases hlife.onAccept hpc how with herr | ⟨m, key, seq, hok, -⟩
  · rw [h] at herr
    cases herr
  obtain rfl := Except.ok.inj (h.symm.trans hok)
  have hnew : Keeps w (w.newSession m ⟨key, seq⟩) p := by
    have hheap : (w.newSession m ⟨key, seq⟩).heap p = w.heap p := update_of_ne hne ..
    exact ⟨⟨fun _ ht => ht, fun _ => .inl, fun _ hr => hr, fun hr => by rwa [runningOf, hheap],
      fun hw => hw, fun hw => .inl (by rwa [writingOf, hheap] at hw)⟩,
      by rw [statusOf, hheap, statusOf]⟩
  exact hnew.trans ⟨.begin how, statusOf_begin hne how⟩

end Keeps

/-- What a task does next. -/
inductive TaskTurn (w : Server) (i : ℕ) (o : Outcome) (w' : Server) : Prop where
  | handle {p : Ptr} {n : ℕ} {r : Response} {ret : Bool} (ht : w.tasks[i]? = some (.worker p n))
    (hr : w.sidOf p = some r.fromSid) (hw : w' = w.setTask i (.handled p r ret))
  | exit {p : Ptr} {r : Response} (ht : w.tasks[i]? = some (.handled p r true))
    (hw : w' = (w.modify p fun s => { s with status := .eWouldExit }).setTask i (.clear p r))
  | stay {p : Ptr} {r : Response} (ht : w.tasks[i]? = some (.handled p r false))
    (hw : w' = w.setTask i (.clear p r))
  | start {p : Ptr} {r : Response} {st : Status} (ht : w.tasks[i]? = some (.start p))
    (hr : w.sidOf p = some r.fromSid)
    (hst : st = .eNormal → o.initRet = false ∧ o.ret = false)
    (hw : w' = w.setTask i (.started p r st))
  | started {p : Ptr} {r : Response} {st : Status} (ht : w.tasks[i]? = some (.started p r st))
    (hw : w' = (w.modify p fun s => { s with status := st }).setTask i (.clear p r))
  | clear {p : Ptr} {r : Response} (ht : w.tasks[i]? = some (.clear p r))
    (hw : w' = (w.modify p fun s => { s with running := false }).setTask i (.push r))
  | push {r : Response} (ht : w.tasks[i]? = some (.push r)) (hw : w' = (w.msgqueuePush r).endTask i)
  | ends {p : Ptr} {t t' : Task} (ht : w.tasks[i]? = some t) (hends : t.ends p = true)
    (hends' : t'.ends p = true) (hw : w' = w.setTask i t')
  | pushLast {p : Ptr} {r : Response} (ht : w.tasks[i]? = some (.pushLast p r))
    (hw : w' = (w.msgqueuePush r).setTask i (.myclose p))
  | delete {p : Ptr} (ht : w.tasks[i]? = some (.delete p)) (hw : w' = (w.endTask i).deleteSession p)

theorem taskTurn {w w' : Server} {i : ℕ} {o : Outcome} (h : w.taskStep i o = .ok w')
    (hi : i < w.tasks.length) : TaskTurn w i o w' := by
  have ht := getElem?_eq_getElem hi
  simp only [taskStep, ht] at h
  cases htask : w.tasks[i] with
  | worker p n =>
    rw [htask] at h ht
    obtain ⟨s, hs, h⟩ := deref_bind_eq_ok h
    exact .handle ht (sidOf_of_heap hs) (Except.ok.inj h).symm
  | handled p r ret =>
    rw [htask] at h ht
    obtain ⟨s, hs, h⟩ := deref_bind_eq_ok h
    cases ret with
    | true => exact .exit ht (Except.ok.inj h).symm
    | false => exact .stay ht (Except.ok.inj h).symm
  | start p =>
    rw [htask] at h ht
    obtain ⟨s, hs, h⟩ := deref_bind_eq_ok h
    refine .start ht ?_ (fun hst => ?_) (Except.ok.inj h).symm
    · rw [sidOf_of_heap hs]
      split_ifs <;> rfl
    · split_ifs at hst with hret
      simpa using hret
  | started p r st =>
    rw [htask] at h ht
    obtain ⟨s, hs, h⟩ := deref_bind_eq_ok h
    exact .started ht (Except.ok.inj h).symm
  | clear p r =>
    rw [htask] at h ht
    obtain ⟨s, hs, h⟩ := deref_bind_eq_ok h
    exact .clear ht (Except.ok.inj h).symm
  | push r =>
    rw [htask] at h ht
    exact .push ht (Except.ok.inj h).symm
  | error p | timeout p | myclose p =>
    rw [htask] at h ht
    obtain ⟨s, hs, h⟩ := deref_bind_eq_ok h
    exact .ends (p := p) ht (by simp [Task.ends]) (by simp [Task.ends]) (Except.ok.inj h).symm
  | pushLast p r =>
    rw [htask] at h ht
    exact .pushLast ht (Except.ok.inj h).symm
  | delete p =>
    rw [htask] at h ht
    obtain ⟨s, hs, h⟩ := deref_bind_eq_ok h
    exact .delete ht (Except.ok.inj h).symm

theorem mem_set_of_ne {α : Type} {l : List α} {i : ℕ} {a b c : α} (ha : a ∈ l)
    (hi : l[i]? = some b) (hne : a ≠ b) : a ∈ l.set i c := by
  obtain ⟨j, hj⟩ := mem_iff_getElem?.mp ha
  refine mem_iff_getElem?.mpr ⟨j, ?_⟩
  rw [getElem?_set_ne, hj]
  rintro rfl
  exact hne (Option.some.inj (hj.symm.trans hi))

theorem mem_eraseIdx_of_ne {α : Type} {l : List α} {i : ℕ} {a b : α} (ha : a ∈ l)
    (hi : l[i]? = some b) (hne : a ≠ b) : a ∈ l.eraseIdx i := by
  obtain ⟨j, hj⟩ := mem_iff_getElem?.mp ha
  refine mem_eraseIdx_iff_getElem?.mpr ⟨j, ?_, hj⟩
  rintro rfl
  exact hne (Option.some.inj (hj.symm.trans hi))

/-- What the step of a task takes from a session: the running flag, for a response that is about
to be pushed, and that response, when it is pushed. -/
structure TaskTends (w w' : Server) (p : Ptr) : Prop where
  pushes : ∀ r, .push r ∈ w.tasks → .push r ∈ w'.tasks ∨ r ∈ w'.responses
  answers : ∀ t ∈ w'.tasks, ∀ q r, t.answer = some (q, r) → w.sidOf q = some r.fromSid
  responses : ∀ r ∈ w.responses, r ∈ w'.responses
  running : w.runningOf p = true → w'.Live p →
    w'.runningOf p = true ∨ ∃ r, .push r ∈ w'.tasks ∧ w.sidOf p = some r.fromSid
  write : w'.writeEvents = w.writeEvents
  writing : w'.writingOf p = true → w.writingOf p = true
  pc : w'.pc = w.pc

theorem TaskTurn.tends {w w' : Server} {p : Ptr} {i : ℕ} {o : Outcome} (hlife : Life w)
    (h : TaskTurn w i o w')
    (hanswers : ∀ t ∈ w.tasks, ∀ p r, t.answer = some (p, r) → w.sidOf p = some r.fromSid) :
    TaskTends w w' p := by
  -- the task goes on to `t'`
  have onward : ∀ {w₁ : Server} {t t' : Task}, w₁.tasks = w.tasks → w₁.responses = w.responses →
      w₁.runningOf p = w.runningOf p → w₁.writeEvents = w.writeEvents →
      w₁.writingOf p = w.writingOf p → w₁.pc = w.pc → w.tasks[i]? = some t →
      (∀ r, t ≠ .push r) → (∀ q r, t'.answer = some (q, r) → w.sidOf q = some r.fromSid) →
      TaskTends w (w₁.setTask i t') p := by
    intro w₁ t t' htasks hresponses hrun hwrite hwriting hpc ht hpush hanswer
    have htasks' : (w₁.setTask i t').tasks = w.tasks.set i t' := by rw [setTask, htasks]
    refine ⟨fun r hr => .inl ?_, fun t₁ ht₁ q r hr => ?_, fun r hr => ?_, fun hr _ => .inl ?_,
      hwrite, fun hw => ?_, hpc⟩
    · rw [htasks']
      exact mem_set_of_ne hr ht (hpush r).symm
    · rw [htasks'] at ht₁
      rcases mem_or_eq_of_mem_set ht₁ with ht₁ | rfl
      · exact hanswers t₁ ht₁ q r hr
      · exact hanswer q r hr
    · exact hresponses ▸ hr
    · exact hrun.trans hr
    · exact hwriting.symm.trans hw
  -- a task that has its response keeps it
  have answer : ∀ {t t' : Task}, w.tasks[i]? = some t → t'.answer = t.answer →
      ∀ q r, t'.answer = some (q, r) → w.sidOf q = some r.fromSid :=
    fun ht heq q r hr => hanswers _ (mem_of_getElem? ht) q r (heq ▸ hr)
  have setStatus : ∀ q st, (w.modify q fun s => { s with status := st }).runningOf p =
        w.runningOf p ∧
      (w.modify q fun s => { s with status := st }).writingOf p = w.writingOf p := by
    refine fun q st => ⟨congrFun (runningOf_modify ?_) p, writingOf_modify ?_⟩
    · exact fun _ => rfl
    · exact fun _ => rfl
  cases h with
  | handle ht hr hw | start ht hr hst hw =>
    subst hw
    refine onward rfl rfl rfl rfl rfl rfl ht (by rintro _ ⟨⟩) fun q r hqr => ?_
    cases hqr
    exact hr
  | exit ht hw | started ht hw =>
    subst hw
    exact onward rfl rfl (setStatus _ _).1 rfl (setStatus _ _).2 rfl ht (by rintro _ ⟨⟩)
      (answer ht rfl)
  | stay ht hw =>
    subst hw
    exact onward rfl rfl rfl rfl rfl rfl ht (by rintro _ ⟨⟩) (answer ht rfl)
  | clear ht hw =>
    rename_i q r
    subst hw
    refine ⟨fun r' hr' => .inl (mem_set_of_ne hr' ht (by rintro ⟨⟩)), fun t ht' q' r' hr' => ?_,
      fun _ hr' => hr', fun hrun _ => ?_, rfl, fun hw => ?_, rfl⟩
    · rcases mem_or_eq_of_mem_set ht' with ht' | rfl
      · exact hanswers t ht' q' r' hr'
      · cases hr'
    · by_cases hq : p = q
      · subst hq
        refine .inr ⟨r, ?_, hanswers _ (mem_of_getElem? ht) p r rfl⟩
        exact mem_set (List.getElem?_eq_some_iff.mp ht).1 _
      · exact .inl ((runningOf_modify_ne hq).trans hrun)
    · rw [← writingOf_modify (q := q) (f := fun s => { s with running := false }) fun _ => rfl]
      exact hw
  | push ht hw =>
    rename_i r
    subst hw
    refine ⟨fun r' hr' => ?_, fun t ht' q r' hr' => ?_, fun r' hr' => mem_append_left _ hr',
      fun hrun _ => .inl hrun, rfl, fun hw => hw, rfl⟩
    · by_cases hr : r' = r
      · exact .inr (mem_append_right _ (mem_singleton.mpr hr))
      · exact .inl (mem_eraseIdx_of_ne hr' ht fun heq => hr (Task.push.inj heq))
    · exact hanswers t (mem_of_mem_eraseIdx ht') q r' hr'
  | ends ht hends hends' hw =>
    rename_i q t t'
    subst hw
    refine onward rfl rfl rfl rfl rfl rfl ht ?_ fun q' r hqr => ?_
    · rintro r rfl
      cases hends
    · cases t' <;> first | cases hends' | cases hqr
  | pushLast ht hw =>
    rename_i q r
    subst hw
    refine ⟨fun r' hr' => .inl (mem_set_of_ne hr' ht (by rintro ⟨⟩)), fun t ht' q' r' hr' => ?_,
      fun r' hr' => mem_append_left _ hr', fun hrun _ => .inl hrun, rfl, fun hw => hw, rfl⟩
    rcases mem_or_eq_of_mem_set ht' with ht' | rfl
    · exact hanswers t ht' q' r' hr'
    · cases hr'
  | delete ht hw =>
    rename_i q
    subst hw
    have hheap : ∀ q', q' ≠ q → ((w.endTask i).deleteSession q).heap q' = w.heap q' :=
      fun q' hq' => update_of_ne hq' ..
    refine ⟨fun r hr => .inl (mem_eraseIdx_of_ne hr ht (by rintro ⟨⟩)), fun t ht' q' r hr => ?_,
      fun _ hr => hr, fun hrun hp' => .inl ?_, rfl, fun hw => ?_, rfl⟩
    · exact hanswers t (mem_of_mem_eraseIdx ht') q' r hr
    · have hne : p ≠ q := by
        rintro rfl
        exact hp'.2 (hlife.heap_of_ends ht (by simp [Task.ends])).1
      rwa [runningOf, hheap p hne]
    · by_cases hq : p = q
      · subst hq
        simp [writingOf, deleteSession, endTask] at hw
      · rwa [writingOf, hheap p hq] at hw

theorem writeEvents_addWrite {w : Server} {p : Ptr} {s : Session} (hs : w.heap p = some s)
    (harmed : w.writingOf p = true → w.writeEvents p = true) :
    (w.addWrite p).writeEvents p = true := by
  rw [addWrite, hs]
  simp only
  split_ifs with hw
  · refine harmed ?_
    rw [writingOf, hs]
    exact hw
  · exact update_self ..

/-- What a step does to a session that it neither starts nor removes. -/
inductive SessionTurn (w : Server) (a : Action) (w' : Server) (p : Ptr) : Prop where
  | keeps (ha : a ≠ .onResponse) (h : Keeps w w' p)
  | response {r : Response} {rest : List Response} (ha : a = .onResponse)
    (hr : w.responses = r :: rest) (hw : w' = { w with responses := rest }.goto (.respFrom r))
  | sender {ok : Bool} {r : Response} (ha : a = .event ok) (hpc : w.pc = .respFrom r)
    (hl : w.lookup r.fromSid = some p) (hold : w.statusOf p = some .eWouldExit)
    (h : Tends w w' p) (hst : w'.statusOf p = some .eExit)
  | toClose {ok : Bool} {r : Response} {sid : Sid} {rest : List Sid} (ha : a = .event ok)
    (hpc : w.pc = .respClose r) (hr : r.toCloseList = sid :: rest) (hl : w.lookup sid = some p)
    (h : Tends w w' p) (hst : w'.statusOf p = some .eExit)
    (harm : (w.writingOf p = true → w.writeEvents p = true) → w'.writeEvents p = true)
  | write {ev : WriteEvent} {s : Session} (ha : a = .onWrite p ev) (hs : w.heap p = some s)
    (hw : w' = w.onWrite p s ev)
  | task {i : ℕ} {o : Outcome} (ha : a = .task i o) (h : TaskTurn w i o w')

/-- **Inversion** from the point of view of a session. -/
theorem sessionTurn {w w' : Server} {p : Ptr} (hlife : Life w) {a : Action} (ha : w.Allowed a)
    (hstep : w.step a = .ok w') (hp : p ≠ w.nextPtr) (hp' : p ∉ w'.log.removed) :
    SessionTurn w a w' p := by
  cases step_cases ha hstep with
  | accept => exact .keeps (by rintro ⟨⟩) (.onAccept hlife ha hp hstep)
  | read hs => exact .keeps (by rintro ⟨⟩) (.onRead _)
  | write hs =>
    rename_i q s ev
    by_cases hq : p = q
    · subst hq
      exact .write rfl hs rfl
    · exact .keeps (by rintro ⟨⟩) (.onWrite hq s ev)
  | response hr => exact .response rfl hr rfl
  | decode hs hpc => exact .keeps (by rintro ⟨⟩) (.decode _ _ _ _)
  | work hs hpc => exact .keeps (by rintro ⟨⟩) ((Keeps.doWork _).trans (.goto _))
  | tail hs hpc => exact .keeps (by rintro ⟨⟩) (Keeps.addRead.trans (.goto _))
  | busy hs hr hpc | closeTest hs hpc | noSender hpc | responded hpc | noClose hpc hr =>
    exact .keeps (by rintro ⟨⟩) (.goto _)
  | giveUp hs hr hpc hw =>
    rename_i ok q s t w₁
    have hne : p ≠ q := by
      rintro rfl
      obtain ⟨w₁, hremove, rfl⟩ := bind_pure_eq_ok hw
      refine hp' ?_
      change p ∈ w₁.log.removed
      rw [(removed_removeSession hremove).1]
      exact mem_append_right _ (mem_singleton_self p)
    have ht : t.answer = none := by rcases hpc with ⟨-, rfl⟩ | ⟨-, rfl⟩ <;> rfl
    exact .keeps (by rintro ⟨⟩) ((Keeps.giveUp hne ht hw).trans (.goto _))
  | close hs hr hpc hw =>
    rename_i ok q s w₁
    have hne : p ≠ q := by
      rintro rfl
      obtain ⟨w₁, hremove, rfl⟩ := bind_pure_eq_ok hw
      refine hp' ?_
      change p ∈ w₁.log.removed
      rw [(removed_removeSession hremove).1]
      exact mem_append_right _ (mem_singleton_self p)
    exact .keeps (by rintro ⟨⟩) ((Keeps.doClose hne hw).trans (.goto _))
  | sender hpc hl hs =>
    rename_i ok r q s
    split_ifs with hst
    · by_cases hq : p = q
      · subst hq
        refine .sender rfl hpc hl (by rw [statusOf_of_heap hs, hst]) ?_ ?_
        · exact (Tends.setStatus .eExit).trans (Keeps.goto _).toTends
        · simp [statusOf, modify, goto, hs]
      · have hquiet : Quiet (fun _ => False) w (w.modify q fun s => { s with status := .eExit }) :=
          .modify rfl
        exact .keeps (by rintro ⟨⟩) ((Keeps.of_quiet hquiet (heap_modify_ne hq) rfl).trans
          (.goto _))
    · exact .keeps (by rintro ⟨⟩) (.goto _)
  | respEvents hpc hs => exact .keeps (by rintro ⟨⟩) (.respEvents _ _)
  | respMessages hpc => exact .keeps (by rintro ⟨⟩) (.respMessages _)
  | sidsDone hpc =>
    have hdone : ∀ {r : Response} {m : MsgPtr}, Keeps w
        ((if (w.msgs m).toList = [] then w.doCompletion m else w).goto (.respMessages r)) p := by
      intro r m
      refine Keeps.trans ?_ (.goto _)
      split_ifs
      · exact .of_quiet (P := fun _ => False)
          ⟨rfl, rfl, rfl, rfl, rfl, rfl, rfl, rfl, fun _ => .inl, fun _ => .inl⟩ rfl rfl
      · exact .refl w
    exact .keeps (by rintro ⟨⟩) hdone
  | dropSid hpc =>
    exact .keeps (by rintro ⟨⟩)
      (.of_quiet ((Quiet.dropSid (P := fun _ => False) _ _ _).trans (.goto _))
      rfl rfl)
  | append hpc hl hs => exact .keeps (by rintro ⟨⟩) ((Keeps.append _ _).trans (.goto _))
  | toClose hpc hr hl hs =>
    rename_i ok r sid rest q s
    by_cases hq : p = q
    · subst hq
      have hs' : (w.modify p fun s => { s with status := .eExit }).heap p =
          some { s with status := .eExit } := by simp [modify, hs]
      refine .toClose rfl hpc hr hl ?_ ?_ fun harmed => ?_
      · exact ((Tends.setStatus .eExit).trans Keeps.addWrite.toTends).trans (Keeps.goto _).toTends
      · exact Keeps.addWrite.status.trans (statusOf_of_heap hs')
      · refine writeEvents_addWrite hs' fun hw => harmed ?_
        rw [← writingOf_modify (q := p) (f := fun s => { s with status := .eExit }) fun _ => rfl]
        exact hw
    · have hquiet : Quiet (fun _ => False) w (w.modify q fun s => { s with status := .eExit }) :=
        .modify rfl
      exact .keeps (by rintro ⟨⟩)
        (((Keeps.of_quiet hquiet (heap_modify_ne hq) rfl).trans .addWrite).trans
        (.goto _))
  | advance ht hsame | status ht hs hsame | clear ht | push ht | pushLast ht | delete ht =>
    exact .task rfl (taskTurn hstep ha)
  | post =>
    exact .keeps (by rintro ⟨⟩) ⟨⟨fun _ ht => ht, fun _ => .inl, fun _ hr => mem_append_left _ hr,
      fun hr => hr, fun hw => hw, .inl⟩, rfl⟩

/-! ## The steps keep a session attended -/

theorem answer_step {w w' : Server} (hlife : Life w) {a : Action} (ha : w.Allowed a)
    (hstep : w.step a = .ok w')
    (hanswers : ∀ t ∈ w.tasks, ∀ p r, t.answer = some (p, r) → w.sidOf p = some r.fromSid)
    {t : Task} (ht : t ∈ w'.tasks) {p : Ptr} {r : Response} (hr : t.answer = some (p, r)) :
    w.sidOf p = some r.fromSid := by
  have old : t ∈ w.tasks ∨ t.answer = none → w.sidOf p = some r.fromSid := by
    rintro (hmem | hnone)
    · exact hanswers t hmem p r hr
    · rw [hnone] at hr
      cases hr
  -- the view of a session that does not exist
  obtain ⟨q, hq, hq'⟩ : ∃ q, w.nextPtr < q ∧ w'.nextPtr < q :=
    ⟨max w.nextPtr w'.nextPtr + 1, Nat.lt_succ_of_le (le_max_left ..),
      Nat.lt_succ_of_le (le_max_right ..)⟩
  have hnot : q ∉ w'.log.removed :=
    fun hrem => Nat.lt_asymm hq' ((hlife.next ha hstep).removed_lt _ hrem)
  cases sessionTurn hlife ha hstep (Nat.ne_of_gt hq) hnot with
  | keeps _ h => exact old (h.fresh t ht)
  | response _ _ hw =>
    subst hw
    exact old (.inl ht)
  | sender _ _ _ _ h => exact old (h.fresh t ht)
  | toClose _ _ _ _ h => exact old (h.fresh t ht)
  | write _ _ hw =>
    rw [hw, (Quiet.onWrite _ _).tasks] at ht
    exact old (.inl ht)
  | task _ h => exact (h.tends (p := p) hlife hanswers).answers t ht p r hr

namespace Synced

variable {w w' : Server} {p : Ptr}

theorem init : Synced Server.init := ⟨nofun, nofun⟩

/-- **Step lemma**: a step keeps the tasks and the write events in order. -/
theorem next (h : Synced w) (hlife : Life w) {a : Action} (ha : w.Allowed a)
    (hstep : w.step a = .ok w') : Synced w' where
  answers t ht p r hr := by
    have hold := answer_step hlife ha hstep h.answers ht hr
    have hruns : t.runs p = true := by
      cases t <;> simp [Task.answer, Task.runs] at hr ⊢ <;> exact hr.1
    obtain ⟨i, hi⟩ := mem_iff_getElem?.mp ht
    rcases live_step hlife ha hstep ((hlife.next ha hstep).live_of_runs hi hruns) with
      ⟨-, hsid⟩ | ⟨rfl, -⟩
    · exact hsid.trans hold
    · exact absurd ((hlife.heap _).mp (by rw [hold]; rfl)).1 (Nat.lt_irrefl _)
  armed p hp' hw := by
    rcases live_step hlife ha hstep hp' with ⟨hp, -⟩ | ⟨rfl, how, rfl⟩
    · have old : (w.writingOf p = true ∨ w'.writeEvents p = true) →
          (w.writeEvents p = true → w'.writeEvents p = true) → w'.writeEvents p = true := by
        rintro (hold | hnew) hmono
        · exact hmono (h.armed p hp hold)
        · exact hnew
      cases sessionTurn hlife ha hstep (Nat.ne_of_lt hp.1) hp'.2 with
      | keeps _ ht | sender _ _ _ _ ht | toClose _ _ _ _ ht => exact old (ht.writing hw) ht.write
      | response _ _ hw' =>
        subst hw'
        exact h.armed p hp hw
      | write _ hs hw' =>
        subst hw'
        refine ((Keeps.fired _ _).writing hw).resolve_left fun hfalse => ?_
        simp [writingOf, modify, delWrite, hs] at hfalse
      | task _ ht =>
        have htends := ht.tends (p := p) hlife h.answers
        rw [htends.write]
        exact h.armed p hp (htends.writing hw)
    · rcases hlife.onAccept ha how with herr | ⟨m, key, seq, hok, -⟩
      · change w.onAccept how = _ at hstep
        rw [hstep] at herr
        cases herr
      · obtain rfl := Except.ok.inj (hstep.symm.trans hok)
        refine ((Tends.begin how).writing hw).resolve_left fun hfalse => ?_
        simp [writingOf, newSession, Session.new] at hfalse

end Synced

section

variable {w w' : Server} {p : Ptr}

theorem pc_step (hsync : Synced w) (hlife : Life w) {a : Action} (ha : w.Allowed a)
    (hstep : w.step a = .ok w') (hpc : w.pc ≠ .idle) :
    (∃ ok, a = .event ok) ∨ w'.pc = w.pc := by
  cases a with
  | onAccept how => exact absurd ha hpc
  | onRead q ev => exact absurd ha.1 hpc
  | onWrite q ev => exact absurd ha.1 hpc
  | onResponse => exact absurd ha.1 hpc
  | event ok => exact .inl ⟨ok, rfl⟩
  | task i o => exact .inr ((taskTurn hstep ha).tends (p := 0) hlife hsync.answers).pc
  | post sid messages toCloseList =>
    cases hstep
    exact .inr rfl

theorem respFrom_next (hlife : Life w) (hp : w.Live p) {r : Response} (hpc : w.pc = .respFrom r)
    (hsid : w.sidOf p = some r.fromSid) {ok : Bool} (hstep : w.eventStep ok = .ok w') :
    w'.pc = .respEvents r p ∧ w'.statusOf p ≠ some .eWouldExit := by
  obtain ⟨s, hs, hderef⟩ := hlife.deref hp
  have hl : w.lookup r.fromSid = some p := hlife.lookup_eq_some.mpr ⟨hp, hsid⟩
  rw [eventStep, hpc] at hstep
  simp only [respFrom, hlife.isSystemSid_eq hp hsid, hl, hderef] at hstep
  cases hstep
  refine ⟨rfl, ?_⟩
  split_ifs with hst
  · simp [statusOf, modify, goto, hs]
  · simpa [statusOf, goto, hs] using hst

theorem respEvents_next (hsync : Synced w) (hlife : Life w) {r : Response}
    (hpc : w.pc = .respEvents r p) {ok : Bool} (hstep : w.eventStep ok = .ok w') :
    w'.writeEvents p = true := by
  have hp : w.Live p := hlife.pc p (by rw [hpc]; rfl)
  obtain ⟨s, hs, hderef⟩ := hlife.deref hp
  rw [eventStep, hpc] at hstep
  simp only [hderef] at hstep
  cases hstep
  rw [respEvents]
  refine ((Keeps.addRead.trans (.goto _)).toTends (p := p)).write ?_
  split_ifs
  · exact writeEvents_addWrite hs (hsync.armed p hp)
  · exact writeEvents_addWrite hs (hsync.armed p hp)

/-- **Step lemma**: a session goes on being answered until `onResponse` has found it. -/
theorem Answering.step (h : w.Answering p) (hsync : Synced w) (hlife : Life w) {a : Action}
    (ha : w.Allowed a) (hstep : w.step a = .ok w') (hp : w.Live p) (hp' : w'.Live p) :
    w'.Answering p ∨ ∃ r, w'.pc = .respEvents r p ∧ w'.statusOf p ≠ some .eWouldExit := by
  have hsid := sidOf_step hlife ha hstep hp hp'
  have pushed : ∀ r, (.push r ∈ w'.tasks ∨ r ∈ w'.responses) → w.sidOf p = some r.fromSid →
      w'.Answering p := by
    rintro r (hr | hr) hfrom
    · exact .inr (.inl ⟨r, hr, hsid.trans hfrom⟩)
    · exact .inr (.inr (.inl ⟨r, hr, hsid.trans hfrom⟩))
  have tended : Tends w w' p → (w.runningOf p = true ∨ (∃ r, .push r ∈ w.tasks ∧
      w.sidOf p = some r.fromSid) ∨ ∃ r ∈ w.responses, w.sidOf p = some r.fromSid) →
      w'.Answering p := by
    rintro ht (hrun | ⟨r, hr, hfrom⟩ | ⟨r, hr, hfrom⟩)
    · exact .inl (ht.running hrun)
    · exact pushed r (.inl (ht.tasks _ hr)) hfrom
    · exact pushed r (.inr (ht.responses r hr)) hfrom
  -- `onResponse` has just taken the response
  by_cases hfrom : ∃ r, w.pc = .respFrom r ∧ w.sidOf p = some r.fromSid
  · obtain ⟨r, hpc, hr⟩ := hfrom
    rcases pc_step hsync hlife ha hstep (by rw [hpc]; nofun) with ⟨ok, rfl⟩ | hsame
    · exact .inr ⟨r, respFrom_next hlife hp hpc hr hstep⟩
    · exact .inl (.inr (.inr (.inr ⟨r, hsame.trans hpc, hsid.trans hr⟩)))
  have hwait : w.runningOf p = true ∨ (∃ r, .push r ∈ w.tasks ∧ w.sidOf p = some r.fromSid) ∨
      ∃ r ∈ w.responses, w.sidOf p = some r.fromSid := by
    rcases h with hrun | hpush | hqueued | htaken
    · exact .inl hrun
    · exact .inr (.inl hpush)
    · exact .inr (.inr hqueued)
    · exact absurd htaken hfrom
  refine .inl ?_
  cases sessionTurn hlife ha hstep (Nat.ne_of_lt hp.1) hp'.2 with
  | keeps _ ht => exact tended ht.toTends hwait
  | sender _ _ _ _ ht => exact tended ht hwait
  | toClose _ _ _ _ ht => exact tended ht hwait
  | response _ hr hw =>
    rename_i r rest
    subst hw
    rcases hwait with hrun | ⟨r', hr', hfrom'⟩ | ⟨r', hr', hfrom'⟩
    · exact .inl hrun
    · exact pushed r' (.inl hr') hfrom'
    · rw [hr] at hr'
      rcases mem_cons.mp hr' with rfl | hr'
      · exact .inr (.inr (.inr ⟨r', rfl, hsid.trans hfrom'⟩))
      · exact pushed r' (.inr hr') hfrom'
  | write hfires hs hw =>
    rename_i ev s
    have hq := Quiet.onWrite (w := w) (p := p) s ev
    rw [← hw] at hq
    rcases hwait with hrun | ⟨r', hr', hfrom'⟩ | ⟨r', hr', hfrom'⟩
    · exact .inl (by rwa [hq.running])
    · exact pushed r' (.inl (hq.tasks ▸ hr')) hfrom'
    · exact pushed r' (.inr (hq.responses ▸ hr')) hfrom'
  | task _ ht =>
    have htends := ht.tends (p := p) hlife hsync.answers
    rcases hwait with hrun | ⟨r', hr', hfrom'⟩ | ⟨r', hr', hfrom'⟩
    · rcases htends.running hrun hp' with hrun' | ⟨r', hr', hfrom'⟩
      · exact .inl hrun'
      · exact pushed r' (.inl hr') hfrom'
    · exact pushed r' (htends.pushes r' hr') hfrom'
    · exact pushed r' (.inr (htends.responses r' hr')) hfrom'

/-- **Step lemma**: only the callback of its write event ends the attention to a session. -/
theorem Attended.step (h : w.Attended p) (hsync : Synced w) (hlife : Life w) {a : Action}
    (ha : w.Allowed a) (hstep : w.step a = .ok w') (hp : w.Live p) (hp' : w'.Live p) :
    w'.Attended p ∨ ∃ ev, a = .onWrite p ev := by
  rcases h with hans | ⟨r, hpc⟩ | hwrite
  · rcases hans.step hsync hlife ha hstep hp hp' with hans' | ⟨r, hpc, -⟩
    · exact .inl (.inl hans')
    · exact .inl (.inr (.inl ⟨r, hpc⟩))
  · rcases pc_step hsync hlife ha hstep (by rw [hpc]; nofun) with ⟨ok, rfl⟩ | hsame
    · exact .inl (.inr (.inr (respEvents_next hsync hlife hpc hstep)))
    · exact .inl (.inr (.inl ⟨r, hsame.trans hpc⟩))
  · cases sessionTurn hlife ha hstep (Nat.ne_of_lt hp.1) hp'.2 with
    | keeps _ ht | sender _ _ _ _ ht | toClose _ _ _ _ ht =>
      exact .inl (.inr (.inr (ht.write hwrite)))
    | response _ _ hw =>
      subst hw
      exact .inl (.inr (.inr hwrite))
    | write ha' => exact .inr ⟨_, ha'⟩
    | task _ ht =>
      refine .inl (.inr (.inr ?_))
      rw [(ht.tends (p := p) hlife hsync.answers).write]
      exact hwrite

end

end Server

end Spserver
