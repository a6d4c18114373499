import ReadingComment.Spserver.Steps

/-!
# The lifetime of a session

A session lives from `onAccept` until it is removed from the manager; a session
that was removed is held by exactly one task, which deletes it. `mRunning` says
that exactly one task of a living session has not cleared the flag yet. Pending
events and the callback that is under way belong to living sessions. So whoever
uses a session has it before it is deleted.

Most steps leave all this alone (`Quiet`); the others are the start of a session,
`doWork`, the end of a task's work, giving up a session and deleting it.
-/

namespace Spserver

open Function List

def EventPc.session : EventPc → Option Ptr
  | .readRun p | .readWork p | .readTail p | .error p | .timeout p | .closeTest p | .closeRun p
  | .writeRun p | .writeWork p | .respEvents _ p => some p
  | _ => none

/-- The callback is about to call `doWork`. -/
def EventPc.works : EventPc → Option Ptr
  | .readWork p | .writeWork p => some p
  | _ => none

theorem EventPc.session_of_works {pc : EventPc} {p : Ptr} (h : pc.works = some p) :
    pc.session = some p := by
  cases pc <;> first | exact h | cases h

namespace Server

def sidOf (w : Server) (p : Ptr) : Option Sid := (w.heap p).map Session.sid

def runningOf (w : Server) (p : Ptr) : Bool := (w.heap p).any Session.running

def Live (w : Server) (p : Ptr) : Prop := p < w.nextPtr ∧ p ∉ w.log.removed

instance (w : Server) (p : Ptr) : Decidable (w.Live p) := inferInstanceAs (Decidable (_ ∧ _))

/-- **The lifetime invariant.** -/
structure Life (w : Server) : Prop where
  mgr : ∃ rows free live, World.Inv ⟨w.mgr, [], live⟩ rows free
  session : ∀ k p, (w.mgr.entry k).session = some p ↔
    w.Live p ∧ w.sidOf p = some ⟨k, (w.mgr.entry k).seq⟩
  registered : ∀ p, w.Live p → ∃ k, (w.mgr.entry k).session = some p
  heap : ∀ p, (w.sidOf p).isSome ↔ p < w.nextPtr ∧ p ∉ w.log.deleted
  removed_lt : ∀ p ∈ w.log.removed, p < w.nextPtr
  deleted_sub : ∀ p ∈ w.log.deleted, p ∈ w.log.removed
  removed_nodup : w.log.removed.Nodup
  deleted_nodup : w.log.deleted.Nodup
  read : ∀ p, w.readEvents p = true → w.Live p
  write : ∀ p, w.writeEvents p = true → w.Live p
  pc : ∀ p, w.pc.session = some p → w.Live p
  works : ∀ p, w.pc.works = some p → w.runningOf p = false
  runs : ∀ p, w.tasks.countP (·.runs p) = if w.Live p ∧ w.runningOf p = true then 1 else 0
  ends : ∀ p, w.tasks.countP (·.ends p) =
    if p ∈ w.log.removed ∧ p ∉ w.log.deleted then 1 else 0

/-- The step leaves the lifetime of sessions alone: it writes other fields, and arms events of
the sessions `P` only. -/
structure Quiet (P : Ptr → Prop) (w w' : Server) : Prop where
  sid : w'.sidOf = w.sidOf
  running : w'.runningOf = w.runningOf
  nextPtr : w'.nextPtr = w.nextPtr
  mgr : w'.mgr = w.mgr
  tasks : w'.tasks = w.tasks
  removed : w'.log.removed = w.log.removed
  deleted : w'.log.deleted = w.log.deleted
  responses : w'.responses = w.responses
  read : ∀ q, w'.readEvents q = true → w.readEvents q = true ∨ P q
  write : ∀ q, w'.writeEvents q = true → w.writeEvents q = true ∨ P q

/-! ## Sessions in memory -/

section views

variable {w : Server} {p : Ptr}

variable {f : Session → Session}

theorem sidOf_modify (hf : ∀ s, (f s).sid = s.sid) :
    (w.modify p f).sidOf = w.sidOf := by
  funext q
  simp only [sidOf, modify]
  by_cases hq : q = p
  · subst hq
    rw [update_self, Option.map_map]
    exact Option.map_congr fun s _ => hf s
  · rw [update_of_ne hq]

theorem runningOf_modify_ne {q : Ptr} (hq : q ≠ p) :
    (w.modify p f).runningOf q = w.runningOf q := by
  simp only [runningOf, modify, update_of_ne hq]

theorem runningOf_modify (hf : ∀ s, (f s).running = s.running) :
    (w.modify p f).runningOf = w.runningOf := by
  funext q
  by_cases hq : q = p
  · subst hq
    simp only [runningOf, modify, update_self]
    cases w.heap q with
    | none => rfl
    | some s => exact hf s
  · exact runningOf_modify_ne hq

theorem pc_addWrite : (w.addWrite p).pc = w.pc := by
  rw [addWrite]
  split
  · split_ifs <;> rfl
  · rfl

theorem pc_addRead : (w.addRead p).pc = w.pc := by
  rw [addRead]
  split
  · split_ifs <;> rfl
  · rfl

section rules

variable {R : Server → Server → Prop} (hrefl : ∀ w, R w w)
  (htrans : ∀ {a b c}, R a b → R b c → R a c)
  (hsettle : ∀ w m msg, R w (Server.settle w m msg))

include hrefl htrans hsettle

theorem failAll_rule (sid : Sid) (l : List MsgPtr) (w : Server) : R w (failAll sid l w) := by
  induction l generalizing w with
  | nil => exact hrefl w
  | cons m l ih => exact htrans (hsettle w m _) (ih _)

theorem takeSent_rule (sid : Sid) (l : List MsgPtr) (off : ℕ) (w : Server) :
    R w (takeSent sid l off w).1 := by
  induction l generalizing w off with
  | nil => exact hrefl w
  | cons m l ih =>
    rw [takeSent]
    split_ifs
    · exact htrans (hsettle w m _) (ih _ _)
    · exact hrefl w

theorem transmit_rule (sid : Sid) (lens : List ℤ) (l : List MsgPtr) (off : ℕ) (w : Server) :
    R w (transmit sid lens l off w).1 := by
  induction lens generalizing w l off with
  | nil => exact hrefl w
  | cons len lens ih =>
    rw [transmit]
    split_ifs
    · have hsent := takeSent_rule hrefl htrans hsettle sid l (off + len.toNat) w
      rcases hres : takeSent sid l (off + len.toNat) w with ⟨w₁, l₁, off₁⟩
      rw [hres] at hsent
      cases l₁ with
      | nil => exact hsent
      | cons m l₁ => exact htrans hsent (ih (m :: l₁) off₁ w₁)
    · exact hrefl w

end rules

theorem failAll_same {γ : Type} (f : Server → γ) (hf : ∀ w m msg, f (settle w m msg) = f w)
    (sid : Sid)
    (l : List MsgPtr) : f (failAll sid l w) = f w :=
  failAll_rule (R := fun w w' => f w' = f w) (fun _ => rfl) (fun h h' => h'.trans h) hf sid l w

theorem transmit_same {γ : Type} (f : Server → γ) (hf : ∀ w m msg, f (settle w m msg) = f w)
    (sid : Sid)
    (lens : List ℤ) (l : List MsgPtr) (off : ℕ) : f (transmit sid lens l off w).1 = f w :=
  transmit_rule (R := fun w w' => f w' = f w) (fun _ => rfl) (fun h h' =>
    h'.trans h) hf sid lens l off w

theorem pc_settle (m : MsgPtr) (msg : Message) : (w.settle m msg).pc = w.pc := by
  rw [settle]
  split_ifs <;> rfl

theorem pc_failAll (sid : Sid) (l : List MsgPtr) : (failAll sid l w).pc = w.pc :=
  failAll_same (·.pc) (fun _ => pc_settle) sid l

theorem onRead_pc (ev : ReadEvent) : (w.onRead p ev).pc = w.pc ∨
    (w.onRead p ev).pc = .readRun p ∨ (w.onRead p ev).pc = .error p ∨
      (w.onRead p ev).pc = .timeout p := by
  cases ev with
  | again => exact .inl pc_addRead
  | received => exact .inr (.inl rfl)
  | failed => exact .inr (.inr (.inl rfl))
  | timeout => exact .inr (.inr (.inr rfl))

theorem onWrite_pc (s : Session) (ev : WriteEvent) : (w.onWrite p s ev).pc = .timeout p ∨
    (w.onWrite p s ev).pc = .closeTest p ∨ (w.onWrite p s ev).pc = .error p := by
  cases ev with
  | timeout => exact .inl rfl
  | ready lens again =>
    right
    simp only [onWrite]
    split_ifs
    · exact .inl rfl
    · simp only [transmitted]
      split_ifs
      · exact .inl rfl
      · exact .inl rfl
      · exact .inl rfl
      · exact .inr rfl

theorem runningOf_of_heap {s : Session} (h : w.heap p = some s) : w.runningOf p = s.running := by
  rw [runningOf, h]
  rfl

theorem sidOf_of_heap {s : Session} (h : w.heap p = some s) : w.sidOf p = some s.sid := by
  rw [sidOf, h]
  rfl

end views

/-! ## Steps that leave the lifetime alone -/

namespace Quiet

variable {P : Ptr → Prop} {w w' w'' : Server} {p : Ptr}

theorem refl (w : Server) : Quiet P w w :=
  ⟨rfl, rfl, rfl, rfl, rfl, rfl, rfl, rfl, fun _ => .inl, fun _ => .inl⟩

theorem trans (h : Quiet P w w') (h' : Quiet P w' w'') : Quiet P w w'' where
  sid := h'.sid.trans h.sid
  running := h'.running.trans h.running
  nextPtr := h'.nextPtr.trans h.nextPtr
  mgr := h'.mgr.trans h.mgr
  tasks := h'.tasks.trans h.tasks
  removed := h'.removed.trans h.removed
  deleted := h'.deleted.trans h.deleted
  responses := h'.responses.trans h.responses
  read q hq := (h'.read q hq).elim (h.read q) .inr
  write q hq := (h'.write q hq).elim (h.write q) .inr

theorem live (h : Quiet P w w') : w'.Live p ↔ w.Live p := by
  rw [Live, Live, h.nextPtr, h.removed]

theorem lookup (h : Quiet P w w') : w'.lookup = w.lookup := by
  funext sid
  rw [Server.lookup, Server.lookup, h.mgr]

theorem modify {f : Session → Session}
    (hf : (fun s => ((f s).sid, (f s).running)) = fun s => (s.sid, s.running)) :
    Quiet P w (w.modify p f) :=
  ⟨sidOf_modify fun s => (Prod.mk.inj (congrFun hf s)).1,
    runningOf_modify fun s => (Prod.mk.inj (congrFun hf s)).2, rfl, rfl, rfl, rfl, rfl, rfl,
    fun _ => .inl, fun _ => .inl⟩

theorem goto (pc : EventPc) : Quiet P w (w.goto pc) :=
  ⟨rfl, rfl, rfl, rfl, rfl, rfl, rfl, rfl, fun _ => .inl, fun _ => .inl⟩

theorem delRead : Quiet P w (w.delRead p) := by
  refine ⟨rfl, rfl, rfl, rfl, rfl, rfl, rfl, rfl, fun q hq => .inl ?_, fun _ => .inl⟩
  by_cases hqp : q = p
  · subst hqp
    simp [Server.delRead] at hq
  · simpa [Server.delRead, update_of_ne hqp] using hq

theorem delWrite : Quiet P w (w.delWrite p) := by
  refine ⟨rfl, rfl, rfl, rfl, rfl, rfl, rfl, rfl, fun _ => .inl, fun q hq => .inl ?_⟩
  by_cases hqp : q = p
  · subst hqp
    simp [Server.delWrite] at hq
  · simpa [Server.delWrite, update_of_ne hqp] using hq

theorem addWrite : Quiet (· = p) w (w.addWrite p) := by
  rw [Server.addWrite]
  split
  · split_ifs
    · exact .refl w
    · have hm := Quiet.modify (P := (· = p)) (w := w) (p := p)
        (f := fun s => { s with writing := true }) rfl
      refine { hm with write := fun q hq => ?_ }
      by_cases hqp : q = p
      · exact .inr hqp
      · exact .inl (by simpa [update_of_ne hqp] using hq)
  · exact .refl w

theorem addRead : Quiet (· = p) w (w.addRead p) := by
  rw [Server.addRead]
  split
  · split_ifs
    · exact .refl w
    · have hm := Quiet.modify (P := (· = p)) (w := w) (p := p)
        (f := fun s => { s with reading := true }) rfl
      refine { hm with read := fun q hq => ?_ }
      by_cases hqp : q = p
      · exact .inr hqp
      · exact .inl (by simpa [update_of_ne hqp] using hq)
  · exact .refl w

theorem settle (m : MsgPtr) (msg : Message) : Quiet P w (w.settle m msg) := by
  rw [Server.settle]
  split_ifs <;> exact ⟨rfl, rfl, rfl, rfl, rfl, rfl, rfl, rfl, fun _ => .inl, fun _ => .inl⟩

theorem failAll (sid : Sid) (l : List MsgPtr) : Quiet P w (Server.failAll sid l w) :=
  failAll_rule .refl .trans (fun _ => settle) sid l w

theorem takeSent (sid : Sid) (l : List MsgPtr) (off : ℕ) :
    Quiet P w (Server.takeSent sid l off w).1 :=
  takeSent_rule .refl .trans (fun _ => settle) sid l off w

theorem transmit (sid : Sid) (lens : List ℤ) (l : List MsgPtr) (off : ℕ) :
    Quiet P w (Server.transmit sid lens l off w).1 :=
  transmit_rule .refl .trans (fun _ => settle) sid lens l off w

theorem onRead (ev : ReadEvent) : Quiet (· = p) w (w.onRead p ev) := by
  have hbegin : Quiet (· = p) w
      ((w.delRead p).modify p fun s => { s with reading := false }) :=
    delRead.trans (.modify rfl)
  cases ev with
  | received => exact hbegin.trans (.goto _)
  | again => exact hbegin.trans .addRead
  | failed => exact hbegin.trans (.goto _)
  | timeout => exact hbegin.trans (.goto _)

theorem transmitted (again : Bool) (l : List MsgPtr) (off : ℕ) (len : ℤ) :
    Quiet (· = p) w (w.transmitted p again l off len) := by
  have hstored : Quiet (· = p) w
      (w.modify p fun s => { s with outList := l, outOffset := off }) :=
    .modify rfl
  simp only [Server.transmitted]
  split_ifs
  · exact hstored.trans (.goto _)
  · exact (hstored.trans .addWrite).trans (.goto _)
  · exact (hstored.trans .addWrite).trans (.goto _)
  · exact hstored.trans (.goto _)

theorem onWrite (s : Session) (ev : WriteEvent) : Quiet (· = p) w (w.onWrite p s ev) := by
  have hbegin : Quiet (· = p) w
      ((w.delWrite p).modify p fun s => { s with writing := false }) :=
    delWrite.trans (.modify rfl)
  cases ev with
  | timeout => exact hbegin.trans (.goto _)
  | ready lens again =>
    simp only [Server.onWrite]
    split_ifs
    · exact hbegin.trans (.goto _)
    · exact (hbegin.trans (transmit s.sid lens s.outList s.outOffset)).trans
        (transmitted again _ _ _)

theorem decode (s : Session) (ok : Bool) (work skip : EventPc) :
    Quiet P w (w.decode p s ok work skip) := by
  rw [Server.decode]
  split_ifs
  · exact .goto _
  · exact ⟨rfl, rfl, rfl, rfl, rfl, rfl, rfl, rfl, fun _ => .inl, fun _ => .inl⟩
  · exact .goto _

theorem respEvents (r : Response) (s : Session) : Quiet (· = p) w (w.respEvents r p s) := by
  rw [Server.respEvents]
  split_ifs
  · exact (addWrite.trans .addRead).trans (.goto _)
  · exact ((delRead.trans .addWrite).trans .addRead).trans (.goto _)

theorem respMessages (r : Response) : Quiet P w (w.respMessages r) := by
  rw [Server.respMessages]
  split
  · exact .goto _
  · simp only
    split_ifs <;> exact ⟨rfl, rfl, rfl, rfl, rfl, rfl, rfl, rfl, fun _ => .inl, fun _ => .inl⟩

theorem dropSid (m : MsgPtr) (i : ℕ) (sid : Sid) : Quiet P w (w.dropSid m i sid) :=
  ⟨rfl, rfl, rfl, rfl, rfl, rfl, rfl, rfl, fun _ => .inl, fun _ => .inl⟩

theorem noteReply (request : Option (Ptr × ℕ)) : Quiet P w (w.noteReply p request) := by
  rcases request with _ | ⟨q, n⟩
  · exact .refl w
  · rw [Server.noteReply]
    split_ifs
    · exact ⟨rfl, rfl, rfl, rfl, rfl, rfl, rfl, rfl, fun _ => .inl, fun _ => .inl⟩
    · exact .refl w

theorem append (m : MsgPtr) (request : Option (Ptr × ℕ)) :
    Quiet (· = p) w (w.append p m request) := by
  refine Quiet.trans (Quiet.trans ?_ (noteReply request)) addWrite
  exact .modify rfl

end Quiet

/-! ## The invariant and single steps -/

theorem exists_split {α : Type} {l : List α} {i : ℕ} {a : α} (h : l[i]? = some a) :
    ∃ pre post, l = pre ++ a :: post ∧ (∀ b, l.set i b = pre ++ b :: post) ∧
      l.eraseIdx i = pre ++ post := by
  induction l generalizing i with
  | nil => cases h
  | cons b l ih =>
    cases i with
    | zero =>
      cases h
      exact ⟨[], l, rfl, fun _ => rfl, rfl⟩
    | succ i =>
      obtain ⟨pre, post, rfl, hset, herase⟩ := ih h
      refine ⟨b :: pre, post, rfl, fun c => ?_, ?_⟩
      · rw [set_cons_succ, hset, cons_append]
      · rw [eraseIdx_cons_succ, herase, cons_append]

namespace Life

variable {w w' : Server} {p : Ptr} {P : Ptr → Prop}

theorem init : Life Server.init where
  mgr := ⟨0, [], [], .init⟩
  session k p := by
    simp [Server.init, SessionManager.new, SessionManager.entry, SessionEntry.zero, Live]
  registered p hp := by simp [Live, Server.init] at hp
  heap p := by simp [Server.init, sidOf]
  removed_lt p hp := by cases hp
  deleted_sub p hp := by cases hp
  removed_nodup := .nil
  deleted_nodup := .nil
  read p hp := by cases hp
  write p hp := by cases hp
  pc p hp := by cases hp
  works p hp := by cases hp
  runs p := by simp [Server.init, Live]
  ends p := by simp [Server.init]

theorem deref (h : Life w) (hp : w.Live p) :
    ∃ s, w.heap p = some s ∧ w.deref p = .ok s := by
  have hsome := (h.heap p).mpr ⟨hp.1, fun hd => hp.2 (h.deleted_sub p hd)⟩
  rw [sidOf, Option.isSome_map] at hsome
  obtain ⟨s, hs⟩ := Option.isSome_iff_exists.mp hsome
  exact ⟨s, hs, deref_of_heap hs⟩

variable {sid : Sid}

theorem lookup_eq_some (h : Life w) :
    w.lookup sid = some p ↔ w.Live p ∧ w.sidOf p = some sid := by
  rw [lookup, SessionManager.get_eq]
  constructor
  · intro hl
    split_ifs at hl with hseq
    simp only at hseq hl
    have := (h.session _ _).mp hl
    rwa [hseq] at this
  · rintro ⟨hlive, hsid⟩
    obtain ⟨k, hk⟩ := h.registered p hlive
    obtain ⟨-, hsid'⟩ := (h.session k p).mp hk
    rw [hsid] at hsid'
    cases hsid'
    rw [if_pos rfl, hk]

theorem sid_eq (h : Life w) {s : Session} (hs : w.heap p = some s) (hl : w.lookup sid = some p) :
    sid = s.sid := by
  have := (h.lookup_eq_some.mp hl).2
  rw [sidOf_of_heap hs] at this
  exact (Option.some.inj this).symm

theorem quiet (h : Life w) (hq : Quiet P w w') (hP : ∀ q, P q → w.Live q)
    (hpc : ∀ q, w'.pc.session = some q → w.Live q)
    (hworks : ∀ q, w'.pc.works = some q → w.runningOf q = false) : Life w' where
  mgr := by rw [hq.mgr]; exact h.mgr
  session k p := by rw [hq.mgr, hq.sid, hq.live]; exact h.session k p
  registered p hp := by rw [hq.mgr]; exact h.registered p (hq.live.mp hp)
  heap p := by rw [hq.sid, hq.nextPtr, hq.deleted]; exact h.heap p
  removed_lt p hp := by rw [hq.nextPtr]; exact h.removed_lt p (hq.removed ▸ hp)
  deleted_sub p hp := by rw [hq.removed]; exact h.deleted_sub p (hq.deleted ▸ hp)
  removed_nodup := by rw [hq.removed]; exact h.removed_nodup
  deleted_nodup := by rw [hq.deleted]; exact h.deleted_nodup
  read p hp := hq.live.mpr ((hq.read p hp).elim (h.read p) (hP p))
  write p hp := hq.live.mpr ((hq.write p hp).elim (h.write p) (hP p))
  pc p hp := hq.live.mpr (hpc p hp)
  works p hp := by rw [hq.running]; exact hworks p hp
  runs p := by
    rw [hq.tasks, hq.running, h.runs p]
    exact if_congr (and_congr_left' hq.live.symm) rfl rfl
  ends p := by rw [hq.tasks, hq.removed, hq.deleted]; exact h.ends p

theorem runs_eq_zero (h : Life w) (hr : w.runningOf p = false) :
    w.tasks.countP (·.runs p) = 0 := by
  rw [h.runs p, if_neg]
  rintro ⟨-, hrun⟩
  rw [hr] at hrun
  cases hrun

theorem ends_eq_zero (h : Life w) (hp : w.Live p) : w.tasks.countP (·.ends p) = 0 := by
  rw [h.ends p, if_neg]
  exact fun hr => hp.2 hr.1

variable {t : Task} {i : ℕ}

section

variable (h : Life w)

include h

theorem work (hp : w.Live p) (hr : w.runningOf p = false) (hpc : w.pc.works = none)
    (hruns : ∀ q, t.runs q = decide (p = q)) (hends : ∀ q, t.ends q = false) :
    Life ((w.modify p fun s => { s with running := true }).pushTask t) := by
  set w' := (w.modify p fun s => { s with running := true }).pushTask t with hw'
  have hsid : w'.sidOf = w.sidOf := sidOf_modify fun _ => rfl
  obtain ⟨s, hs, -⟩ := h.deref hp
  refine { h with session := ?_, heap := ?_, works := ?_, runs := ?_, ends := ?_ }
  · rw [hsid]
    exact h.session
  · rw [hsid]
    exact h.heap
  · intro q hq
    change w.pc.works = some q at hq
    rw [hpc] at hq
    cases hq
  · intro q
    change (w.tasks ++ [t]).countP _ = _
    rw [countP_append, countP_singleton, hruns]
    by_cases hq : q = p
    · subst hq
      have hself : w'.runningOf q = true := by simp [hw', runningOf, modify, pushTask, hs]
      rw [h.runs_eq_zero hr, if_pos (decide_eq_true rfl), if_pos ⟨hp, hself⟩]
    · have hother : w'.runningOf q = w.runningOf q := runningOf_modify_ne hq
      rw [if_neg (by simpa using Ne.symm hq), h.runs q, hother, Nat.add_zero]
      rfl
  · intro q
    change (w.tasks ++ [t]).countP _ = _
    rw [countP_append, countP_singleton, hends]
    exact h.ends q

theorem setTask {t t' : Task} (ht : w.tasks[i]? = some t) (hruns : ∀ q, t'.runs q = t.runs q)
    (hends : ∀ q, t'.ends q = t.ends q) :
    Life (w.setTask i t') := by
  obtain ⟨pre, post, htasks, hset, -⟩ := exists_split ht
  refine { h with runs := fun q => ?_, ends := fun q => ?_ }
  · have := h.runs q
    rw [htasks, countP_append, countP_cons] at this
    change (w.tasks.set i t').countP _ = _
    rw [hset, countP_append, countP_cons, hruns]
    exact this
  · have := h.ends q
    rw [htasks, countP_append, countP_cons] at this
    change (w.tasks.set i t').countP _ = _
    rw [hset, countP_append, countP_cons, hends]
    exact this

theorem clear {r : Response} (ht : w.tasks[i]? = some (.clear p r)) :
    w.Live p ∧
      Life ((w.modify p fun s => { s with running := false }).setTask i (.push r)) := by
  obtain ⟨pre, post, htasks, hset, -⟩ := exists_split ht
  have hcount := h.runs p
  rw [htasks, countP_append, countP_cons, if_pos (by simp [Task.runs])] at hcount
  have hlive : w.Live p ∧ w.runningOf p = true := by
    by_contra hnot
    rw [if_neg hnot] at hcount
    omega
  refine ⟨hlive.1, ?_⟩
  set w' := (w.modify p fun s => { s with running := false }).setTask i (.push r) with hw'
  have hsid : w'.sidOf = w.sidOf := sidOf_modify fun _ => rfl
  have hself : w'.runningOf p = false := by
    simp only [hw', runningOf, modify, Server.setTask, update_self]
    cases w.heap p <;> rfl
  refine { h with session := ?_, heap := ?_, works := ?_, runs := ?_, ends := ?_ }
  · rw [hsid]
    exact h.session
  · rw [hsid]
    exact h.heap
  · intro q hq
    by_cases hqp : q = p
    · rw [hqp, hself]
    · rw [hw']
      exact (runningOf_modify_ne hqp).trans (h.works q hq)
  · intro q
    change (w.tasks.set i (.push r)).countP _ = _
    rw [hset, countP_append, countP_cons, if_neg (by simp [Task.runs])]
    by_cases hqp : q = p
    · rw [hqp, hself, if_neg (by simp)]
      rw [if_pos hlive] at hcount
      omega
    · have hother : w'.runningOf q = w.runningOf q := runningOf_modify_ne hqp
      have := h.runs q
      rw [htasks, countP_append, countP_cons,
        if_neg (by simpa [Task.runs] using Ne.symm hqp)] at this
      rw [hother]
      exact this
  · intro q
    have := h.ends q
    rw [htasks, countP_append, countP_cons] at this
    change (w.tasks.set i (.push r)).countP _ = _
    rw [hset, countP_append, countP_cons]
    exact this

theorem live_of_runs (ht : w.tasks[i]? = some t) (hruns : t.runs p = true) :
    w.Live p := by
  by_contra hnot
  have hcount := h.runs p
  rw [if_neg fun hl => hnot hl.1] at hcount
  exact countP_eq_zero.mp hcount t (mem_of_getElem? ht) hruns

theorem heap_of_ends (ht : w.tasks[i]? = some t) (hends : t.ends p = true) :
    p ∈ w.log.removed ∧ p ∉ w.log.deleted ∧ ∃ s, w.heap p = some s ∧ w.deref p = .ok s := by
  have hcount := h.ends p
  have hrm : p ∈ w.log.removed ∧ p ∉ w.log.deleted := by
    by_contra hnot
    rw [if_neg hnot] at hcount
    exact countP_eq_zero.mp hcount t (mem_of_getElem? ht) hends
  have hsome := (h.heap p).mpr ⟨h.removed_lt p hrm.1, hrm.2⟩
  rw [sidOf, Option.isSome_map] at hsome
  obtain ⟨s, hs⟩ := Option.isSome_iff_exists.mp hsome
  exact ⟨hrm.1, hrm.2, s, hs, deref_of_heap hs⟩

theorem endTask {r : Response} (ht : w.tasks[i]? = some (.push r)) :
    Life ((w.msgqueuePush r).endTask i) := by
  obtain ⟨pre, post, htasks, -, herase⟩ := exists_split ht
  refine { h with runs := fun q => ?_, ends := fun q => ?_ }
  · have := h.runs q
    rw [htasks, countP_append, countP_cons, if_neg (by simp [Task.runs])] at this
    change (w.tasks.eraseIdx i).countP _ = _
    rw [herase, countP_append]
    exact this
  · have := h.ends q
    rw [htasks, countP_append, countP_cons, if_neg (by simp [Task.ends])] at this
    change (w.tasks.eraseIdx i).countP _ = _
    rw [herase, countP_append]
    exact this

theorem delete (ht : w.tasks[i]? = some (.delete p)) :
    Life ((w.endTask i).deleteSession p) := by
  obtain ⟨pre, post, htasks, -, herase⟩ := exists_split ht
  obtain ⟨hrm, hdel, -⟩ := h.heap_of_ends (p := p) ht (by simp [Task.ends])
  set w' := (w.endTask i).deleteSession p with hw'
  -- the session was not living, so what is seen of living sessions does not change
  have hne : ∀ q, w.Live q → q ≠ p := by
    rintro q hq rfl
    exact hq.2 hrm
  have hsid : ∀ q, q ≠ p → w'.sidOf q = w.sidOf q := fun q hq => by
    simp only [hw', sidOf, deleteSession, Server.endTask, update_of_ne hq]
  have hrun : ∀ q, q ≠ p → w'.runningOf q = w.runningOf q := fun q hq => by
    simp only [hw', runningOf, deleteSession, Server.endTask, update_of_ne hq]
  have hdeleted : ∀ q, q ∈ w'.log.deleted ↔ q ∈ w.log.deleted ∨ q = p := fun q => by
    simp [hw', deleteSession, Server.endTask]
  refine { h with
    session := ?_
    heap := ?_
    deleted_sub := ?_
    deleted_nodup := ?_
    works := ?_
    runs := ?_
    ends := ?_ }
  · intro k q
    refine (h.session k q).trans (and_congr_right fun hq => ?_)
    rw [hsid q (hne q hq)]
    rfl
  · intro q
    rw [hdeleted]
    by_cases hq : q = p
    · subst hq
      simp [hw', sidOf, deleteSession]
    · rw [hsid q hq, h.heap q]
      simp only [hq, or_false]
      rfl
  · intro q hq
    rcases (hdeleted q).mp hq with hq | rfl
    · exact h.deleted_sub q hq
    · exact hrm
  · refine nodup_append.mpr ⟨h.deleted_nodup, nodup_cons.mpr ⟨by simp, .nil⟩, ?_⟩
    rintro a ha b hb rfl
    rw [mem_singleton.mp hb] at ha
    exact hdel ha
  · intro q hq
    by_cases hqp : q = p
    · rw [hqp]
      simp [hw', runningOf, deleteSession]
    · rw [hrun q hqp]
      exact h.works q hq
  · intro q
    have := h.runs q
    rw [htasks, countP_append, countP_cons, if_neg (by simp [Task.runs]),
      Nat.add_zero] at this
    change (w.tasks.eraseIdx i).countP _ = _
    rw [herase, countP_append, this]
    refine if_congr (and_congr_right fun hq => ?_) rfl rfl
    rw [hrun q (hne q hq)]
  · intro q
    have := h.ends q
    rw [htasks, countP_append, countP_cons] at this
    change (w.tasks.eraseIdx i).countP _ = _
    rw [herase, countP_append]
    by_cases hqp : q = p
    · subst hqp
      rw [if_pos (by simp [Task.ends]), if_pos ⟨hrm, hdel⟩] at this
      rw [if_neg fun hq => hq.2 ((hdeleted q).mpr (.inr rfl))]
      omega
    · rw [if_neg (by simpa [Task.ends] using Ne.symm hqp), Nat.add_zero] at this
      rw [this]
      refine if_congr (and_congr_right fun _ => ?_) rfl rfl
      rw [hdeleted, or_iff_left hqp]

theorem removeSession_eq (hp : w.Live p) (hsid : w.sidOf p = some sid) :
    ∃ m, w.removeSession p sid =
        .ok { w with mgr := m, log := { w.log with removed := w.log.removed ++ [p] } } ∧
      (∃ rows free live, World.Inv ⟨m, [], live⟩ rows free) ∧
      (w.mgr.entry sid.key).session = some p ∧
      ∀ k, (m.entry k).session = (if k = sid.key then none else (w.mgr.entry k).session) ∧
        (k ≠ sid.key → (m.entry k).seq = (w.mgr.entry k).seq) := by
  obtain ⟨k, hk⟩ := h.registered p hp
  obtain ⟨-, hsid'⟩ := (h.session k p).mp hk
  obtain rfl := Option.some.inj (hsid.symm.trans hsid')
  obtain ⟨rows, free, live, hinv⟩ := h.mgr
  have hmem := (hinv.session k p).mp hk
  obtain ⟨m, hremove, hinv'⟩ := hinv.remove hmem
  have hrow := (hinv.key_row (mem_append_right _ (mem_append_right _
    (mem_map_of_mem hmem)))).1
  have hentry := SessionManager.remove_entry hrow hremove
  rw [SessionManager.get_eq] at hremove
  refine ⟨m, ?_, ⟨rows, _, _, hinv'⟩, hk, fun k' => ?_⟩
  · rw [removeSession]
    simp only at hremove ⊢
    rw [hremove]
  · rw [hentry k']
    split_ifs with hkk
    · exact ⟨rfl, fun hne => absurd hkk hne⟩
    · exact ⟨rfl, fun _ => rfl⟩

theorem remove (hp : w.Live p) (hr : w.runningOf p = false) (hread : w.readEvents p = false)
    (hwrite : w.writeEvents p = false) (hsid : w.sidOf p = some sid)
    (hends : ∀ q, t.ends q = decide (p = q)) (hruns : ∀ q, t.runs q = false) :
    ∃ w', w.removeSession p sid = .ok w' ∧ Life ((w'.pushTask t).goto .idle) := by
  obtain ⟨m, hremove, hmgr, hentry, hentries⟩ := h.removeSession_eq hp hsid
  refine ⟨_, hremove, ?_⟩
  set w' : Server := ((({ w with
    mgr := m
    log := { w.log with removed := w.log.removed ++ [p] } } : Server).pushTask t).goto .idle)
    with hw'
  have hremoved : ∀ q, q ∈ w'.log.removed ↔ q ∈ w.log.removed ∨ q = p := fun q => by
    simp [hw', pushTask, goto]
  have hlive : ∀ q, w'.Live q ↔ w.Live q ∧ q ≠ p := fun q => by
    rw [Live, hremoved, Live]
    change q < w.nextPtr ∧ _ ↔ _
    tauto
  have hkey : ∀ k q, (w.mgr.entry k).session = some q → (k = sid.key ↔ q = p) := by
    intro k q hk
    constructor
    · rintro rfl
      exact Option.some.inj (hk.symm.trans hentry)
    · rintro rfl
      have := ((h.session k q).mp hk).2
      rw [hsid] at this
      exact congrArg Sid.key (Option.some.inj this).symm
  refine { h with
    mgr := hmgr
    session := fun k q => ?_
    registered := fun q hq => ?_
    removed_lt := fun q hq => ?_
    deleted_sub := fun q hq => ?_
    removed_nodup := ?_
    read := fun q hq => ?_
    write := fun q hq => ?_
    pc := fun q hq => by cases hq
    works := fun q hq => by cases hq
    runs := fun q => ?_
    ends := fun q => ?_ }
  · change (m.entry k).session = some q ↔ w'.Live q ∧ w.sidOf q = some ⟨k, (m.entry k).seq⟩
    rw [hlive, (hentries k).1]
    split_ifs with hk
    · -- no living session is left under this key
      subst hk
      refine iff_of_false (by simp) ?_
      rintro ⟨⟨hq, hne⟩, hsidq⟩
      obtain ⟨k, hk⟩ := h.registered q hq
      have := ((h.session k q).mp hk).2
      rw [hsidq] at this
      obtain rfl : sid.key = k := congrArg Sid.key (Option.some.inj this)
      exact hne ((hkey _ q hk).mp rfl)
    · rw [(hentries k).2 hk]
      constructor
      · intro hq
        exact ⟨⟨((h.session k q).mp hq).1, fun hqp => hk ((hkey k q hq).mpr hqp)⟩,
          ((h.session k q).mp hq).2⟩
      · rintro ⟨⟨hq, -⟩, hsidq⟩
        exact (h.session k q).mpr ⟨hq, hsidq⟩
  · obtain ⟨hq, hne⟩ := (hlive q).mp hq
    obtain ⟨k, hk⟩ := h.registered q hq
    refine ⟨k, (hentries k).1.trans ?_⟩
    rw [if_neg fun hkk => hne ((hkey k q hk).mp hkk), hk]
  · rcases (hremoved q).mp hq with hq | rfl
    · exact h.removed_lt q hq
    · exact hp.1
  · exact (hremoved q).mpr (.inl (h.deleted_sub q hq))
  · refine nodup_append.mpr ⟨h.removed_nodup, nodup_cons.mpr ⟨by simp, .nil⟩, ?_⟩
    rintro a ha b hb rfl
    rw [mem_singleton.mp hb] at ha
    exact hp.2 ha
  · refine (hlive q).mpr ⟨h.read q hq, ?_⟩
    rintro rfl
    exact Bool.false_ne_true (hread.symm.trans hq)
  · refine (hlive q).mpr ⟨h.write q hq, ?_⟩
    rintro rfl
    exact Bool.false_ne_true (hwrite.symm.trans hq)
  · change (w.tasks ++ [t]).countP _ = if w'.Live q ∧ w.runningOf q = true then 1 else 0
    rw [countP_append, countP_singleton, hruns, if_neg (by simp), h.runs q,
      Nat.add_zero]
    refine if_congr ?_ rfl rfl
    rw [hlive]
    constructor
    · rintro ⟨hq, hrun⟩
      refine ⟨⟨hq, ?_⟩, hrun⟩
      rintro rfl
      rw [hr] at hrun
      cases hrun
    · rintro ⟨⟨hq, -⟩, hrun⟩
      exact ⟨hq, hrun⟩
  · change (w.tasks ++ [t]).countP _ = if q ∈ w'.log.removed ∧ q ∉ w.log.deleted then 1 else 0
    rw [countP_append, countP_singleton, hends]
    by_cases hq : q = p
    · subst hq
      rw [h.ends_eq_zero hp, if_pos (by simp),
        if_pos ⟨(hremoved q).mpr (.inr rfl), fun hd => hp.2 (h.deleted_sub q hd)⟩]
    · rw [if_neg (by simpa using Ne.symm hq), h.ends q, Nat.add_zero]
      refine if_congr (and_congr_left' ?_) rfl rfl
      rw [hremoved, or_iff_left hq]

theorem born (hpc : w.pc = .idle) {m : SessionManager Ptr} {key seq : ℕ}
    (hmgr : ∃ rows free live, World.Inv ⟨m, [], live⟩ rows free)
    (hfree : (w.mgr.entry key).session = none) (hentry : ∀ k, (m.entry k).session =
        (if k = key then some w.nextPtr else (w.mgr.entry k).session) ∧
      (m.entry k).seq = (w.mgr.entry k).seq) (hseq : seq = (w.mgr.entry key).seq) :
    Life (w.newSession m ⟨key, seq⟩) := by
  set w' := w.newSession m ⟨key, seq⟩ with hw'
  have hnew : w.nextPtr ∉ w.log.removed := fun hr => Nat.lt_irrefl _ (h.removed_lt _ hr)
  have hlive : ∀ q, w'.Live q ↔ w.Live q ∨ q = w.nextPtr := by
    intro q
    simp only [hw', Live, newSession]
    constructor
    · rintro ⟨hq, hr⟩
      rcases Nat.lt_succ_iff_lt_or_eq.mp hq with hq | hq
      · exact .inl ⟨hq, hr⟩
      · exact .inr hq
    · rintro (⟨hq, hr⟩ | rfl)
      · exact ⟨Nat.lt_succ_of_lt hq, hr⟩
      · exact ⟨Nat.lt_succ_self _, hnew⟩
  have hsid : ∀ q, q ≠ w.nextPtr → w'.sidOf q = w.sidOf q := fun q hq => by
    simp only [hw', sidOf, newSession, update_of_ne hq]
  have hsid' : w'.sidOf w.nextPtr = some ⟨key, seq⟩ := by
    simp only [hw', sidOf, newSession, update_self]
    rfl
  have hrun : ∀ q, q ≠ w.nextPtr → w'.runningOf q = w.runningOf q := fun q hq => by
    simp only [hw', runningOf, newSession, update_of_ne hq]
  have hrun' : w'.runningOf w.nextPtr = false := by
    simp only [hw', runningOf, newSession, update_self]
    rfl
  have hold : ∀ q, w.Live q → q ≠ w.nextPtr := fun q hq => Nat.ne_of_lt hq.1
  refine { h with
    mgr := hmgr
    session := fun k q => ?_
    registered := fun q hq => ?_
    heap := fun q => ?_
    removed_lt := fun q hq => Nat.lt_succ_of_lt (h.removed_lt q hq)
    read := fun q hq => (hlive q).mpr (.inl (h.read q hq))
    write := fun q hq => (hlive q).mpr (.inl (h.write q hq))
    pc := fun q hq => (hlive q).mpr (.inl (h.pc q hq))
    works := fun q hq => ?_
    runs := fun q => ?_ }
  · change (m.entry k).session = some q ↔ w'.Live q ∧ w'.sidOf q = some ⟨k, (m.entry k).seq⟩
    rw [(hentry k).1, (hentry k).2, hlive]
    split_ifs with hk
    · subst hk
      constructor
      · rintro ⟨rfl⟩
        exact ⟨.inr rfl, by rw [hsid', hseq]⟩
      · rintro ⟨hq | rfl, hsidq⟩
        · rw [hsid q (hold q hq)] at hsidq
          have := (h.session k q).mpr ⟨hq, hsidq⟩
          rw [hfree] at this
          cases this
        · rfl
    · rw [h.session k q]
      constructor
      · rintro ⟨hq, hsidq⟩
        exact ⟨.inl hq, by rw [hsid q (hold q hq), hsidq]⟩
      · rintro ⟨hq | rfl, hsidq⟩
        · exact ⟨hq, by rw [← hsid q (hold q hq), hsidq]⟩
        · rw [hsid'] at hsidq
          exact absurd (congrArg Sid.key (Option.some.inj hsidq)).symm hk
  · rcases (hlive q).mp hq with hq | rfl
    · obtain ⟨k, hk⟩ := h.registered q hq
      refine ⟨k, (hentry k).1.trans ?_⟩
      rw [if_neg, hk]
      rintro rfl
      rw [hfree] at hk
      cases hk
    · exact ⟨key, (hentry key).1.trans (if_pos rfl)⟩
  · by_cases hq : q = w.nextPtr
    · subst hq
      rw [hsid']
      refine iff_of_true rfl ⟨Nat.lt_succ_self _, fun hd => hnew (h.deleted_sub _ hd)⟩
    · rw [hsid q hq, h.heap q]
      refine and_congr_left fun _ => ⟨Nat.lt_succ_of_lt, fun hlt => ?_⟩
      exact (Nat.lt_succ_iff_lt_or_eq.mp hlt).resolve_right hq
  · change w.pc.works = some q at hq
    rw [hpc] at hq
    cases hq
  · change w.tasks.countP _ = _
    rw [h.runs q]
    by_cases hq : q = w.nextPtr
    · subst hq
      rw [if_neg fun hl => hold _ hl.1 rfl, if_neg]
      rw [hrun']
      simp
    · rw [hrun q hq]
      refine if_congr (and_congr_left' ?_) rfl rfl
      rw [hlive, or_iff_left hq]

theorem begin (hpc : w.pc = .idle) (hp : w.Live p) (hr : w.runningOf p = false) (how : Start) :
    Life (w.begin p how) := by
  have hidle : ∀ w' : Server, Quiet (· = p) w w' → w'.pc = w.pc → Life w' := by
    intro w' hq hsame
    refine h.quiet hq (fun q hqp => hqp ▸ hp) (fun q hq => ?_) fun q hq => ?_
    · rw [hsame, hpc] at hq
      cases hq
    · rw [hsame, hpc] at hq
      cases hq
  cases how with
  | start => exact h.work hp hr (by rw [hpc]; rfl) (fun _ => rfl) fun _ => rfl
  | wait => exact hidle _ (Quiet.addWrite.trans .addRead) (pc_addRead.trans pc_addWrite)
  | refused size =>
    have hmsg : Quiet (· = p) w (w.newMessage size) :=
      ⟨rfl, rfl, rfl, rfl, rfl, rfl, rfl, rfl, fun _ => .inl, fun _ => .inl⟩
    refine hidle _ (Quiet.trans (hmsg.trans ?_) .addWrite) pc_addWrite
    exact .modify rfl

/-- **A new connection**: there is no key left, or a session begins its life. -/
theorem onAccept (hpc : w.pc = .idle) (how : Start) :
    w.onAccept how = .error .noKey ∨
      ∃ m key seq, w.onAccept how = .ok ((w.newSession m ⟨key, seq⟩).begin w.nextPtr how) ∧
        Life (w.newSession m ⟨key, seq⟩) := by
  obtain ⟨rows, free, live, hinv⟩ := h.mgr
  by_cases hfits : World.Fits (⟨w.mgr, [], live⟩ : World Ptr) .allocKey
  · right
    obtain ⟨m, key, seq, rows', free', halloc, hpos, -, hnolive, hinv'⟩ := hinv.allocKey hfits
    obtain ⟨m', hput, hinv''⟩ := hinv'.put (mem_cons_self ..) w.nextPtr
    have hfree : (w.mgr.entry key).session = none := by
      rcases hs : (w.mgr.entry key).session with _ | q
      · rfl
      · exact absurd ((hinv.session key q).mp hs) (hnolive q)
    have halloc' := SessionManager.allocKey_entry halloc
    have hput' := SessionManager.put_entry hput
    refine ⟨m', key, seq, ?_, h.born hpc ⟨_, _, _, by simpa using hinv''⟩ hfree (fun k => ?_)
      ((hput' key).2.trans (halloc' key).2)⟩
    · simp only [Server.onAccept, halloc] at hput ⊢
      rw [if_pos hpos, hput]
    · rw [(hput' k).1]
      split_ifs with hk
      · exact ⟨rfl, by rw [hk]; exact (halloc' key).2⟩
      · exact halloc' k
  · left
    obtain ⟨hzero, hfull⟩ : w.mgr.freeList = 0 ∧ ∀ i, 1 ≤ i → i < 64 → w.mgr.array i ≠ none := by
      simpa [World.Fits] using hfits
    -- the 63 rows that fit 16 bits are all there
    have hrows := (hinv.row_some 63).mp (Option.isSome_iff_ne_none.mpr
      (hfull 63 (by decide) (by decide)))
    have hlt := hinv.rows_lt
    obtain rfl : rows = 63 := by omega
    have halloc := hinv.allocKey_none hzero
    simp only at halloc
    simp only [Server.onAccept, halloc, gt_iff_lt, lt_irrefl, if_false]

theorem giveUp (hp : w.Live p) {s : Session} (hs : w.heap p = some s) (hr : s.running = false)
    (hends : ∀ q, t.ends q = decide (p = q)) (hruns : ∀ q, t.runs q = false) :
    ∃ w', Server.giveUp t w p s = .ok w' ∧ Life (w'.goto .idle) := by
  set w₁ := (Server.failAll s.sid s.outList.reverse ((w.delWrite p).delRead p)).modify p
    fun s => { s with outList := [] } with hw₁
  have hq' : Quiet (fun _ => False) ((w.delWrite p).delRead p) w₁ :=
    (Quiet.failAll _ _).trans (.modify rfl)
  have hq : Quiet (fun _ => False) w w₁ := (Quiet.delWrite.trans .delRead).trans hq'
  have hpc : w₁.pc = w.pc := pc_failAll _ _
  have hlife : Life w₁ := h.quiet hq (fun q hf => hf.elim) (hpc ▸ h.pc) (hpc ▸ h.works)
  have hread : w₁.readEvents p = false := by
    by_contra hne
    have := (hq'.read p (by simpa using hne)).resolve_right id
    simp [Server.delRead] at this
  have hwrite : w₁.writeEvents p = false := by
    by_contra hne
    have := (hq'.write p (by simpa using hne)).resolve_right id
    simp [Server.delRead, Server.delWrite] at this
  have hrun : w₁.runningOf p = false := by rw [hq.running, runningOf_of_heap hs, hr]
  have hsid : w₁.sidOf p = some s.sid := by rw [hq.sid, sidOf_of_heap hs]
  obtain ⟨w', hremove, hlife'⟩ :=
    hlife.remove (hq.live.mpr hp) hrun hread hwrite hsid hends hruns
  refine ⟨w'.pushTask t, ?_, hlife'⟩
  simp only [Server.giveUp]
  rw [← hw₁, hremove]
  rfl

theorem doClose (hp : w.Live p) {s : Session} (hs : w.heap p = some s) (hr : s.running = false) :
    ∃ w', w.doClose p s = .ok w' ∧ Life (w'.goto .idle) := by
  have hq : Quiet (fun _ => False) w ((w.delWrite p).delRead p) := Quiet.delWrite.trans .delRead
  have hlife : Life ((w.delWrite p).delRead p) := h.quiet hq (fun q hf => hf.elim) h.pc h.works
  have hread : ((w.delWrite p).delRead p).readEvents p = false := by simp [Server.delRead]
  have hwrite : ((w.delWrite p).delRead p).writeEvents p = false := by
    simp [Server.delRead, Server.delWrite]
  obtain ⟨w', hremove, hlife'⟩ := hlife.remove (hq.live.mpr hp)
    ((runningOf_of_heap hs).trans hr) hread hwrite (sidOf_of_heap hs) (t := .myclose p)
    (fun _ => rfl) fun _ => rfl
  refine ⟨w'.pushTask (.myclose p), ?_, hlife'⟩
  rw [Server.doClose, hremove]
  rfl

theorem onward (hp : w.Live p) (hq : Quiet (· = p) w w')
    (hpc : w'.pc.session = some p ∨ w'.pc.session = none)
    (hworks : w'.pc.works = none ∨ w.runningOf p = false) : Life w' := by
  refine h.quiet hq (fun _ hqp => hqp ▸ hp) (fun q hq => ?_) fun q hq => ?_
  · rcases hpc with hpc | hpc
    · rw [hpc] at hq
      exact Option.some.inj hq ▸ hp
    · rw [hpc] at hq
      cases hq
  · rcases hworks with hworks | hrun
    · rw [hworks] at hq
      cases hq
    · have hq' := EventPc.session_of_works hq
      rcases hpc with hpc | hpc
      · rw [hpc] at hq'
        exact Option.some.inj hq' ▸ hrun
      · rw [hpc] at hq'
        cases hq'

theorem elsewhere (hq : Quiet (fun _ => False) w w') (hpc : w'.pc.session = none)
    (hworks : w'.pc.works = none) : Life w' :=
  h.quiet hq (fun _ hf => hf.elim) (fun q hq => by rw [hpc] at hq; cases hq)
    fun q hq => by rw [hworks] at hq; cases hq

/-- **Step lemma**: a step keeps the invariant. -/
theorem next {a : Action} (ha : w.Allowed a) (hstep : w.step a = .ok w') :
    Life w' := by
  -- the session of the callback lives
  have live : ∀ {pc : EventPc} {p : Ptr}, w.pc = pc → pc.session = some p → w.Live p :=
    fun hpc hp => h.pc _ (hpc ▸ hp)
  cases step_cases ha hstep with
  | accept =>
    rename_i how mgr sid
    rcases h.onAccept ha how with herr | ⟨m, key, seq, hok, hlife⟩
    · rw [step, herr] at hstep
      cases hstep
    · rw [step, hok] at hstep
      rw [← Except.ok.inj hstep]
      refine hlife.begin ha ⟨Nat.lt_succ_self _, fun hr => ?_⟩ ?_ how
      · exact Nat.lt_irrefl _ (h.removed_lt _ hr)
      · simp [runningOf, newSession, Session.new]
  | read hs =>
    rename_i p s ev
    have hp := h.read p ha.2
    rcases onRead_pc (w := w) (p := p) ev with hpc | hpc | hpc | hpc
    · rw [ha.1] at hpc
      exact h.onward hp (.onRead ev) (.inr (by rw [hpc]; rfl)) (.inl (by rw [hpc]; rfl))
    · exact h.onward hp (.onRead ev) (.inl (by rw [hpc]; rfl)) (.inl (by rw [hpc]; rfl))
    · exact h.onward hp (.onRead ev) (.inl (by rw [hpc]; rfl)) (.inl (by rw [hpc]; rfl))
    · exact h.onward hp (.onRead ev) (.inl (by rw [hpc]; rfl)) (.inl (by rw [hpc]; rfl))
  | write hs =>
    rename_i p s ev
    have hp := h.write p ha.2
    rcases onWrite_pc (w := w) (p := p) s ev with hpc | hpc | hpc
    · exact h.onward hp (.onWrite s ev) (.inl (by rw [hpc]; rfl)) (.inl (by rw [hpc]; rfl))
    · exact h.onward hp (.onWrite s ev) (.inl (by rw [hpc]; rfl)) (.inl (by rw [hpc]; rfl))
    · exact h.onward hp (.onWrite s ev) (.inl (by rw [hpc]; rfl)) (.inl (by rw [hpc]; rfl))
  | response hr =>
    rename_i r rest
    have hpop : Life { w with responses := rest } := { h with }
    exact hpop.elsewhere (.goto _) rfl rfl
  | decode hs hpc =>
    rename_i ok p s work skip
    have hdecode := Quiet.decode (P := (· = p)) (w := w) (p := p) s ok work skip
    have hrun := runningOf_of_heap hs
    rcases hpc with ⟨hpc, rfl, rfl⟩ | ⟨hpc, rfl, rfl⟩
    · refine h.onward (live hpc rfl) hdecode (.inl ?_) ?_
      · simp only [decode]
        split_ifs <;> rfl
      · simp only [decode]
        split_ifs with hr
        · exact .inl rfl
        · exact .inr (by simpa [hrun] using hr)
        · exact .inl rfl
    · refine h.onward (live hpc rfl) hdecode ?_ ?_
      · simp only [decode]
        split_ifs
        · exact .inr rfl
        · exact .inl rfl
        · exact .inr rfl
      · simp only [decode]
        split_ifs with hr
        · exact .inl rfl
        · exact .inr (by simpa [hrun] using hr)
        · exact .inl rfl
  | work hs hpc =>
    rename_i ok p s next
    -- nothing works for the session when `doWork` is called
    have hidle : w.Live p ∧ w.runningOf p = false ∧ next.works = none ∧
        (next.session = some p ∨ next.session = none) := by
      rcases hpc with ⟨hpc, rfl⟩ | ⟨hpc, rfl⟩
      · exact ⟨live hpc rfl, h.works p (by rw [hpc]; rfl), rfl, .inl rfl⟩
      · exact ⟨live hpc rfl, h.works p (by rw [hpc]; rfl), rfl, .inr rfl⟩
    obtain ⟨hp, hr, hworks, hsession⟩ := hidle
    have hgoto : Life (w.goto next) := h.onward hp (.goto _) hsession (.inl hworks)
    rw [doWork]
    split_ifs
    · exact hgoto.work hp hr hworks (fun _ => rfl) fun _ => rfl
    · exact hgoto
  | tail hs hpc =>
    exact h.onward (live hpc rfl) (Quiet.addRead.trans (.goto _)) (.inr rfl) (.inl rfl)
  | busy hs hr hpc | noSender hpc | responded hpc | noClose hpc hr =>
    exact h.elsewhere (.goto _) rfl rfl
  | giveUp hs hr hpc hw =>
    rename_i ok p s t w₀
    have hgive : ∃ w₁, Server.giveUp t w p s = .ok w₁ ∧ Life (w₁.goto .idle) := by
      rcases hpc with ⟨hpc, rfl⟩ | ⟨hpc, rfl⟩
      · exact h.giveUp (live hpc rfl) hs hr (fun _ => rfl) fun _ => rfl
      · exact h.giveUp (live hpc rfl) hs hr (fun _ => rfl) fun _ => rfl
    obtain ⟨w₁, hw₁, hlife⟩ := hgive
    obtain rfl := Except.ok.inj (hw.symm.trans hw₁)
    exact hlife
  | close hs hr hpc hw =>
    obtain ⟨w₁, hw₁, hlife⟩ := h.doClose (live hpc rfl) hs hr
    obtain rfl := Except.ok.inj (hw.symm.trans hw₁)
    exact hlife
  | closeTest hs hpc =>
    split_ifs
    · exact h.onward (live hpc rfl) (.goto _) (.inl rfl) (.inl rfl)
    · exact h.onward (live hpc rfl) (.goto _) (.inl rfl) (.inl rfl)
  | sender hpc hl hs =>
    have hp := (h.lookup_eq_some.mp hl).1
    split_ifs
    · refine h.onward hp (Quiet.trans ?_ (.goto _)) (.inl rfl) (.inl rfl)
      exact .modify rfl
    · exact h.onward hp (.goto _) (.inl rfl) (.inl rfl)
  | respEvents hpc hs =>
    exact h.onward (live hpc rfl) (.respEvents _ _) (.inr rfl) (.inl rfl)
  | respMessages hpc =>
    rename_i ok r
    have hpc' : (w.respMessages r).pc.session = none ∧ (w.respMessages r).pc.works = none := by
      rw [respMessages]
      split
      · exact ⟨rfl, rfl⟩
      · simp only
        split_ifs <;> exact ⟨rfl, rfl⟩
    exact h.elsewhere (.respMessages r) hpc'.1 hpc'.2
  | sidsDone hpc =>
    split_ifs
    · refine h.elsewhere (Quiet.trans ?_ (.goto _)) rfl rfl
      exact ⟨rfl, rfl, rfl, rfl, rfl, rfl, rfl, rfl, fun _ => .inl, fun _ => .inl⟩
    · exact h.elsewhere (.goto _) rfl rfl
  | dropSid hpc => exact h.elsewhere ((Quiet.dropSid _ _ _).trans (.goto _)) rfl rfl
  | append hpc hl hs =>
    have hp := (h.lookup_eq_some.mp hl).1
    exact h.onward hp ((Quiet.append _ _).trans (.goto _)) (.inr rfl) (.inl rfl)
  | toClose hpc hr hl hs =>
    have hp := (h.lookup_eq_some.mp hl).1
    refine h.onward hp (Quiet.trans (Quiet.trans ?_ .addWrite) (.goto _)) (.inr rfl) (.inl rfl)
    exact .modify rfl
  | advance ht hsame => exact h.setTask ht hsame.runs hsame.ends
  | status ht hs hsame =>
    rename_i i o t t' p s st
    have hq : Quiet (fun _ => False) w (w.modify p fun s => { s with status := st }) :=
      .modify rfl
    exact (h.quiet hq (fun _ hf => hf.elim) h.pc h.works).setTask ht hsame.runs hsame.ends
  | clear ht => exact (h.clear ht).2
  | push ht => exact h.endTask ht
  | pushLast ht =>
    rename_i i o p r
    have hlife :=
      h.setTask ht (show ∀ q, (Task.myclose p).runs q = _ from fun _ => rfl) fun _ => rfl
    exact { hlife with }
  | delete ht => exact h.delete ht
  | post => exact { h with }

theorem eventStep_ok (ok : Bool) : ∃ w', w.eventStep ok = .ok w' := by
  -- the session of the callback is in memory
  have inMemory : ∀ {pc : EventPc} {p : Ptr}, w.pc = pc → pc.session = some p →
      w.Live p ∧ ∃ s, w.heap p = some s ∧ w.deref p = .ok s :=
    fun hpc hp => ⟨h.pc _ (hpc ▸ hp), h.deref (h.pc _ (hpc ▸ hp))⟩
  -- a session that the manager finds is, too
  have found : ∀ {sid : Sid} {p : Ptr}, w.lookup sid = some p → ∃ s, w.deref p = .ok s := by
    intro sid p hl
    obtain ⟨s, -, hs⟩ := h.deref (h.lookup_eq_some.mp hl).1
    exact ⟨s, hs⟩
  rw [Server.eventStep]
  cases hpc : w.pc with
  | idle => exact ⟨_, rfl⟩
  | readRun p | readWork p | readTail p | closeTest p | writeRun p | writeWork p
  | respEvents r p =>
    obtain ⟨-, s, -, hs⟩ := inMemory hpc rfl
    simp only [hs]
    exact ⟨_, rfl⟩
  | error p =>
    obtain ⟨hp, s, hs, hderef⟩ := inMemory hpc rfl
    simp only [hderef]
    by_cases hr : s.running = true
    · exact ⟨_, if_pos hr⟩
    · obtain ⟨w', hw, -⟩ := h.giveUp hp hs (by simpa using hr) (t := .error p) (fun _ => rfl)
        fun _ => rfl
      refine ⟨w'.goto .idle, (if_neg hr).trans ?_⟩
      rw [doError, hw]
      rfl
  | timeout p =>
    obtain ⟨hp, s, hs, hderef⟩ := inMemory hpc rfl
    simp only [hderef]
    by_cases hr : s.running = true
    · exact ⟨_, if_pos hr⟩
    · obtain ⟨w', hw, -⟩ := h.giveUp hp hs (by simpa using hr) (t := .timeout p) (fun _ => rfl)
        fun _ => rfl
      refine ⟨w'.goto .idle, (if_neg hr).trans ?_⟩
      rw [doTimeout, hw]
      rfl
  | closeRun p =>
    obtain ⟨hp, s, hs, hderef⟩ := inMemory hpc rfl
    simp only [hderef]
    by_cases hr : s.running = true
    · exact ⟨_, if_pos hr⟩
    · obtain ⟨w', hw, -⟩ := h.doClose hp hs (by simpa using hr)
      refine ⟨w'.goto .idle, (if_neg hr).trans ?_⟩
      rw [hw]
      rfl
  | respFrom r =>
    simp only [respFrom]
    split_ifs
    · exact ⟨_, rfl⟩
    · cases hl : w.lookup r.fromSid with
      | none => exact ⟨_, rfl⟩
      | some p =>
        obtain ⟨s, hs⟩ := found hl
        simp only [hs]
        exact ⟨_, rfl⟩
  | respMessages r => exact ⟨_, rfl⟩
  | respSids r m i =>
    cases i with
    | zero => exact ⟨_, rfl⟩
    | succ i =>
      simp only [respSids]
      cases hl : w.lookup (SidList.get (w.msgs m).toList i) with
      | none => exact ⟨_, rfl⟩
      | some p =>
        obtain ⟨s, hs⟩ := found hl
        simp only [hs]
        exact ⟨_, rfl⟩
  | respClose r =>
    simp only [respClose]
    cases r.toCloseList with
    | nil => exact ⟨_, rfl⟩
    | cons sid rest =>
      simp only
      cases hl : w.lookup sid with
      | none => exact ⟨_, rfl⟩
      | some p =>
        obtain ⟨s, hs⟩ := found hl
        simp only [hs]
        exact ⟨_, rfl⟩

theorem taskStep_ok (i : ℕ) (o : Outcome) : ∃ w', w.taskStep i o = .ok w' := by
  rw [Server.taskStep]
  cases ht : w.tasks[i]? with
  | none => exact ⟨_, rfl⟩
  | some t =>
    cases t with
    | worker p _ | handled p _ _ | start p | started p _ _ | clear p _ =>
      obtain ⟨s, -, hs⟩ := h.deref (h.live_of_runs (p := p) ht (by simp [Task.runs]))
      simp only [hs]
      exact ⟨_, rfl⟩
    | push r => exact ⟨_, rfl⟩
    | pushLast p r => exact ⟨_, rfl⟩
    | error p | timeout p | myclose p | delete p =>
      obtain ⟨-, -, s, -, hs⟩ := h.heap_of_ends (p := p) ht (by simp [Task.ends])
      simp only [hs]
      exact ⟨_, rfl⟩

/-- **Progress**: a step goes wrong only when `onAccept` finds no key. -/
theorem step_ok {a : Action} (ha : w.Allowed a) :
    (∃ w', w.step a = .ok w') ∨ w.step a = .error .noKey := by
  cases a with
  | onAccept how =>
    rcases h.onAccept ha how with herr | ⟨m, key, seq, hok, -⟩
    · exact .inr herr
    · exact .inl ⟨_, hok⟩
  | onRead p ev =>
    obtain ⟨s, -, hs⟩ := h.deref (h.read p ha.2)
    simp only [step, hs]
    exact .inl ⟨_, rfl⟩
  | onWrite p ev =>
    obtain ⟨s, -, hs⟩ := h.deref (h.write p ha.2)
    simp only [step, hs]
    exact .inl ⟨_, rfl⟩
  | onResponse =>
    simp only [step]
    split <;> exact .inl ⟨_, rfl⟩
  | event ok => exact .inl (h.eventStep_ok ok)
  | task i o => exact .inl (h.taskStep_ok i o)
  | post _ _ _ => exact .inl ⟨_, rfl⟩

end

end Life

/-! ## Every run -/

theorem reach_life {ok : Server → Action → Prop} {w : Server} (h : system.Reach ok w) : Life w :=
  h.invariant .init fun _ _ _ hlife ha _ hstep => hlife.next ha hstep

/-- In every interleaving, no callback and no task uses a session after it was deleted (the only
fault is the assertion of `onAccept` when the keys are used up), and every session is removed from
the manager and deleted at most once, in this order. -/
theorem session_lifetime {w : Server} (h : system.Reach (fun _ _ => True) w) :
    (∀ a, w.Allowed a → ∀ e, w.step a = .error e → e = .noKey) ∧
    w.log.removed.Nodup ∧ w.log.deleted.Nodup ∧ ∀ p ∈ w.log.deleted, p ∈ w.log.removed := by
  have hlife := reach_life h
  refine ⟨fun a ha e he => ?_, hlife.removed_nodup, hlife.deleted_nodup, hlife.deleted_sub⟩
  rcases hlife.step_ok ha with ⟨w', hok⟩ | herr
  · rw [hok] at he
    cases he
  · exact (Except.error.inj (herr.symm.trans he)).symm

def Outcome.silent : Outcome := ⟨false, false, [], []⟩

def failedSession : List Action :=
  [.onAccept .start] ++ List.replicate 4 (.task 0 .silent) ++ [.onResponse] ++
    List.replicate 4 (.event true) ++ [.onRead 0 .failed, .event true] ++
    List.replicate 4 (.task 0 .silent)

/-- The session that failed was removed and deleted, once. -/
theorem session_lifetime_failed : ∃ w, system.Reach (fun _ _ => True) w ∧
    w.log.removed = [0] ∧ w.log.deleted = [0] ∧
      ∀ a, w.Allowed a → ∀ e, w.step a = .error e → e = .noKey := by
  have hrun : (system.run (fun _ _ => True) failedSession system.init).map
      (fun w => (w.log.removed, w.log.deleted)) = some ([0], [0]) := by decide +kernel
  obtain ⟨w, hw, hlog⟩ := Option.map_eq_some_iff.mp hrun
  obtain ⟨hrm, hdel⟩ := Prod.mk.inj hlog
  have hreach := Lib.System.Reach.run .init hw
  exact ⟨w, hreach, hrm, hdel, (session_lifetime hreach).1⟩

end Server

end Spserver
