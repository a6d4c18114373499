import ReadingComment.Spserver.Lifetime

/-!
# The order of replies

Requests of a session are numbered as they are decoded. The number of a request
travels with its task, its response on the queue and the response that
`onResponse` works on, until the reply is appended to the `outList` of the
session. These numbers, read from the `outList` back to the tasks, stay in order
as long as the session has only one task on the way.

`mRunning` should see to that, but `worker` clears it before it pushes its
response. A request that is decoded in between gets a second task, which may push
first. In a run in which this does not happen the replies are in order.
-/

namespace Spserver

open List

/-- The request that the response in the hands of the event thread answers. -/
def EventPc.request : EventPc → Option (Ptr × ℕ)
  | .respFrom r | .respEvents r _ | .respMessages r | .respSids r _ _ | .respClose r => r.request
  | _ => none

def stamp (p : Ptr) : Option (Ptr × ℕ) → Option ℕ
  | some (q, n) => if q = p then some n else none
  | none => none

def taskStamps (p : Ptr) (tasks : List Task) : List ℕ :=
  tasks.filterMap fun t => stamp p t.request

def responseStamps (p : Ptr) (responses : List Response) : List ℕ :=
  responses.filterMap fun r => stamp p r.request

/-- The task has cleared the running flag of the session and has not pushed its response. -/
def Task.between : Task → Ptr → Bool
  | .push r, p => (stamp p r.request).isSome
  | _, _ => false

namespace Server

/-- The requests of a session that are on the way, the next to be replied to first. -/
def onTheWay (w : Server) (p : Ptr) : List ℕ :=
  (stamp p w.pc.request).toList ++ (responseStamps p w.responses ++ taskStamps p w.tasks)

/-- The session whose request the next step of the event thread gives to a worker. -/
def dispatching (w : Server) : Option Ptr :=
  w.pc.works.filter fun p => (w.heap p).map Session.status = some .eNormal

/-- No request is given to a worker while another worker of the same session is between clearing
the running flag and pushing its response. -/
def Serial (w : Server) : Action → Prop
  | .event _ => ∀ p ∈ w.dispatching, ∀ t ∈ w.tasks, t.between p = false
  | _ => True

instance (w : Server) : ∀ a, Decidable (w.Serial a)
  | .event _ =>
    inferInstanceAs (Decidable (∀ p ∈ w.dispatching, ∀ t ∈ w.tasks, t.between p = false))
  | .onAccept _ | .onRead _ _ | .onWrite _ _ | .onResponse | .task _ _ | .post _ _ _ =>
    inferInstanceAs (Decidable True)

/-- **The order invariant.** -/
structure Ordered (w : Server) : Prop where
  sorted : ∀ p, (w.log.replies p ++ w.onTheWay p).Pairwise (· ≤ ·)
  bound : ∀ p, ∀ n ∈ w.log.replies p ++ w.onTheWay p, n ≤ w.log.decoded p
  single : ∀ p, (taskStamps p w.tasks).length ≤ 1
  owner : ∀ t ∈ w.tasks, ∀ p n, t.request = some (p, n) → t.runs p = true ∨ ∃ r, t = .push r

/-! ## The history is not touched by most steps -/

section log

variable {w : Server} {p : Ptr}

theorem log_addWrite : (w.addWrite p).log = w.log := by
  rw [addWrite]
  split
  · split_ifs <;> rfl
  · rfl

theorem log_addRead : (w.addRead p).log = w.log := by
  rw [addRead]
  split
  · split_ifs <;> rfl
  · rfl

theorem log_settle (m : MsgPtr) (msg : Message) : (w.settle m msg).log = w.log := by
  rw [settle]
  split_ifs <;> rfl

theorem log_failAll (sid : Sid) (l : List MsgPtr) : (failAll sid l w).log = w.log :=
  failAll_same (·.log) (fun _ => log_settle) sid l

theorem log_transmit (sid : Sid) (lens : List ℤ) (l : List MsgPtr) (off : ℕ) :
    (transmit sid lens l off w).1.log = w.log :=
  transmit_same (·.log) (fun _ => log_settle) sid lens l off

theorem log_onRead (ev : ReadEvent) : (w.onRead p ev).log = w.log := by
  cases ev with
  | again => exact log_addRead
  | received | failed | timeout => rfl

theorem log_transmitted (again : Bool) (l : List MsgPtr) (off : ℕ) (len : ℤ) :
    (w.transmitted p again l off len).log = w.log := by
  simp only [transmitted]
  split_ifs
  · rfl
  · exact log_addWrite
  · exact log_addWrite
  · rfl

theorem log_onWrite (s : Session) (ev : WriteEvent) : (w.onWrite p s ev).log = w.log := by
  cases ev with
  | timeout => rfl
  | ready lens again =>
    simp only [onWrite]
    split_ifs
    · rfl
    · exact (log_transmitted again _ _ _).trans (log_transmit s.sid lens s.outList s.outOffset)

theorem log_respEvents (r : Response) (s : Session) : (w.respEvents r p s).log = w.log := by
  refine log_addRead.trans (log_addWrite.trans ?_)
  split_ifs <;> rfl

end log

/-! ## The steps keep the invariant -/

namespace Ordered

variable {w w' : Server} {p : Ptr}

theorem init : Ordered Server.init where
  sorted p := .nil
  bound p n hn := by cases hn
  single p := Nat.zero_le _
  owner t ht := by cases ht

section

variable (h : Ordered w) (hreplies : w'.log.replies = w.log.replies)
  (hdecoded : ∀ p, w.log.decoded p ≤ w'.log.decoded p)

include h hreplies hdecoded

theorem sublist (hway : ∀ p, (w'.onTheWay p).Sublist (w.onTheWay p))
    (htasks : ∀ p, (taskStamps p w'.tasks).Sublist (taskStamps p w.tasks))
    (howner : ∀ t ∈ w'.tasks, ∀ p n, t.request = some (p, n) → t.runs p = true ∨ ∃ r, t = .push r) :
    Ordered w' where
  sorted p := by
    rw [hreplies]
    exact (h.sorted p).sublist ((hway p).append_left _)
  bound p n hn := by
    rw [hreplies] at hn
    exact Nat.le_trans (h.bound p n (((hway p).append_left _).mem hn)) (hdecoded p)
  single p := Nat.le_trans (htasks p).length_le (h.single p)
  owner := howner

theorem event (hresp : w'.responses = w.responses) (htasks : w'.tasks = w.tasks)
    (hpc : w'.pc.request = none ∨ w'.pc.request = w.pc.request) : Ordered w' := by
  refine h.sublist hreplies hdecoded (fun p => ?_) (fun p => by rw [htasks]) (htasks ▸ h.owner)
  rw [onTheWay, onTheWay, hresp, htasks]
  refine List.Sublist.append_right ?_ _
  rcases hpc with hpc | hpc
  · rw [hpc]
    exact nil_sublist _
  · rw [hpc]

end

theorem goto (h : Ordered w) {pc : EventPc}
    (hpc : pc.request = none ∨ pc.request = w.pc.request) : Ordered (w.goto pc) :=
  h.event rfl (fun _ => Nat.le_refl _) rfl rfl hpc

theorem quiet (h : Ordered w) {P : Ptr → Prop} (hq : Quiet P w w') (hlog : w'.log = w.log)
    (hpc : w'.pc.request = none ∨ w'.pc.request = w.pc.request) : Ordered w' :=
  h.event (by rw [hlog]) (fun p => by rw [hlog]) hq.responses hq.tasks hpc

theorem taskStamps_split (p : Ptr) (pre post : List Task) (t : Task) :
    taskStamps p (pre ++ t :: post) =
      taskStamps p pre ++ ((stamp p t.request).toList ++ taskStamps p post) := by
  rw [taskStamps, filterMap_append, filterMap_cons]
  cases stamp p t.request <;> rfl

variable {i : ℕ} {r : Response}

theorem taskStamps_set {t t' : Task} (ht : w.tasks[i]? = some t) (hreq : t'.request = t.request)
    (p : Ptr) :
    taskStamps p (w.tasks.set i t') = taskStamps p w.tasks := by
  obtain ⟨pre, post, htasks, hset, -⟩ := exists_split ht
  rw [hset, htasks, taskStamps_split, taskStamps_split, hreq]

theorem setTask (h : Ordered w) {t t' : Task} (ht : w.tasks[i]? = some t)
    (hreq : t'.request = t.request)
    (howner : ∀ p n, t'.request = some (p, n) → t'.runs p = true ∨ ∃ r, t' = .push r) :
    Ordered (w.setTask i t') := by
  have hsame : ∀ p, taskStamps p (w.setTask i t').tasks = taskStamps p w.tasks :=
    taskStamps_set ht hreq
  refine h.sublist rfl (fun _ => Nat.le_refl _) (fun p => ?_) (fun p => ?_) fun u hu => ?_
  · rw [onTheWay, hsame]
    exact .refl _
  · rw [hsame]
  · rcases mem_or_eq_of_mem_set hu with hu | rfl
    · exact h.owner u hu
    · exact howner

theorem pushTask (h : Ordered w) {t : Task} (ht : t.request = none) : Ordered (w.pushTask t) := by
  have hsame : ∀ p, taskStamps p (w.pushTask t).tasks = taskStamps p w.tasks := by
    intro p
    rw [Server.pushTask, taskStamps_split, ht]
    exact append_nil _
  refine h.sublist rfl (fun _ => Nat.le_refl _) (fun p => ?_) (fun p => ?_) fun u hu p n hreq => ?_
  · rw [onTheWay, hsame]
    exact .refl _
  · rw [hsame]
  · rcases mem_append.mp hu with hu | hu
    · exact h.owner u hu p n hreq
    · rw [mem_singleton.mp hu, ht] at hreq
      cases hreq

theorem responseStamps_append (p : Ptr) (l : List Response) (r : Response) :
    responseStamps p (l ++ [r]) = responseStamps p l ++ (stamp p r.request).toList := by
  rw [responseStamps, filterMap_append, filterMap_cons]
  cases stamp p r.request <;> rfl

section

variable (h : Ordered w)

include h

theorem msgqueuePush (hr : r.request = none) :
    Ordered (w.msgqueuePush r) := by
  refine h.sublist rfl (fun _ => Nat.le_refl _) (fun p => ?_) (fun p => .refl _) h.owner
  rw [onTheWay, Server.msgqueuePush, responseStamps_append, hr]
  exact (append_nil _).symm ▸ .refl _

/-- The task of a request pushes its response: the request is the only one of its session that a
task works on, so it takes the last place on the queue. -/
theorem push (ht : w.tasks[i]? = some (.push r)) :
    Ordered ((w.msgqueuePush r).endTask i) := by
  obtain ⟨pre, post, htasks, -, herase⟩ := exists_split ht
  have hway : ∀ p, ((w.msgqueuePush r).endTask i).onTheWay p = w.onTheWay p := by
    intro p
    change (stamp p w.pc.request).toList ++
      (responseStamps p (w.responses ++ [r]) ++ taskStamps p (w.tasks.eraseIdx i)) = _
    have hone := h.single p
    rw [htasks, taskStamps_split] at hone
    rw [onTheWay, herase, htasks, responseStamps_append, taskStamps_split, taskStamps,
      filterMap_append, ← taskStamps, ← taskStamps]
    change _ ++ (responseStamps p w.responses ++ (stamp p r.request).toList ++ _) = _ ++
      (_ ++ (_ ++ ((stamp p r.request).toList ++ _)))
    rcases hstamp : stamp p r.request with _ | n
    · simp
    · -- the other tasks have no request of this session
      change (_ ++ ((stamp p r.request).toList ++ _)).length ≤ 1 at hone
      rw [hstamp] at hone
      simp only [Option.toList_some, length_append, length_cons, length_nil] at hone
      have hpre : taskStamps p pre = [] := length_eq_zero_iff.mp (by omega)
      have hpost : taskStamps p post = [] := length_eq_zero_iff.mp (by omega)
      rw [hpre, hpost]
      simp
  refine h.sublist rfl (fun _ => Nat.le_refl _) (fun p => by rw [hway]) (fun p => ?_) fun u hu => ?_
  · refine List.Sublist.filterMap _ ?_
    exact eraseIdx_sublist ..
  · exact h.owner u (mem_of_mem_eraseIdx hu)

theorem response (hpc : w.pc = .idle) {rest : List Response} (hr : w.responses = r :: rest) :
    Ordered ({ w with responses := rest }.goto (.respFrom r)) := by
  refine h.sublist rfl (fun _ => Nat.le_refl _) (fun p => ?_) (fun p => .refl _) h.owner
  have hway : w.onTheWay p =
      (stamp p r.request).toList ++ (responseStamps p rest ++ taskStamps p w.tasks) := by
    rw [onTheWay, hpc, hr, responseStamps, filterMap_cons, ← responseStamps]
    change [] ++ _ = _
    cases stamp p r.request <;> rfl
  rw [hway]
  exact .refl _

theorem append {m : MsgPtr} (hpc : w.pc = .respSids r m (i + 1)) :
    Ordered ((w.append p m r.request).goto (.respSids r m i)) := by
  set w' := (w.append p m r.request).goto (.respSids r m i) with hw'
  have hquiet : Quiet (· = p) w w' := (Quiet.append m r.request).trans (.goto _)
  have hlog : w'.log = ((w.modify p fun s => { s with outList := s.outList ++ [m] }).noteReply p
    r.request).log := log_addWrite
  have hreq : w'.pc.request = w.pc.request := by rw [hpc]; rfl
  rcases hr : r.request with _ | ⟨q, n⟩
  · rw [hr] at hlog
    exact h.quiet hquiet hlog (.inr hreq)
  · rw [hr, noteReply] at hlog
    split_ifs at hlog with hq
    · -- the number stays in its place on the way, and is the last of the replies
      subst hq
      have hself : w'.log.replies q = w.log.replies q ++ [n] := by simp [hlog, modify]
      have hother : ∀ q', q' ≠ q → w'.log.replies q' = w.log.replies q' := fun q' hq' => by
        simp [hlog, modify, hq']
      have hway : ∀ q', w'.onTheWay q' = w.onTheWay q' := fun q' => by
        rw [onTheWay, onTheWay, hreq, hquiet.responses, hquiet.tasks]
      have hfirst : ∃ l, w.onTheWay q = n :: l := by
        rw [onTheWay, hpc]
        change ∃ l, (stamp q r.request).toList ++ _ = n :: l
        rw [hr, stamp, if_pos rfl]
        exact ⟨_, rfl⟩
      obtain ⟨l, hl⟩ := hfirst
      constructor
      · intro q'
        by_cases hq' : q' = q
        · subst hq'
          have hsorted := h.sorted q'
          rw [hl] at hsorted
          rw [hself, hway, hl, append_assoc]
          rw [pairwise_append] at hsorted ⊢
          obtain ⟨hleft, hright, hcross⟩ := hsorted
          refine ⟨hleft, ?_, fun a ha b hb => ?_⟩
          · refine pairwise_cons.mpr ⟨fun b hb => ?_, hright⟩
            rcases mem_cons.mp hb with rfl | hb
            · exact Nat.le_refl _
            · exact (pairwise_cons.mp hright).1 b hb
          · rcases mem_cons.mp hb with rfl | hb
            · exact hcross a ha b (mem_cons_self ..)
            · exact hcross a ha b hb
        · rw [hother q' hq', hway]
          exact h.sorted q'
      · intro q' n' hn'
        have hdecoded : w'.log.decoded = w.log.decoded := by rw [hlog]; rfl
        rw [hdecoded]
        refine h.bound q' n' ?_
        by_cases hq' : q' = q
        · subst hq'
          rw [hself, hway, hl] at hn'
          rw [hl]
          simp only [mem_append, mem_cons, not_mem_nil, or_false] at hn' ⊢
          tauto
        · rwa [hother q' hq', hway] at hn'
      · rw [hquiet.tasks]
        exact h.single
      · rw [hquiet.tasks]
        exact h.owner
    · exact h.quiet hquiet hlog (.inr hreq)

theorem work (hnone : taskStamps p w.tasks = []) :
    Ordered (w.pushTask (.worker p (w.log.decoded p))) := by
  set w' := w.pushTask (.worker p (w.log.decoded p)) with hw'
  have hself : taskStamps p w'.tasks = [w.log.decoded p] := by
    rw [hw', Server.pushTask, taskStamps_split, hnone]
    simp [Task.request, stamp, taskStamps]
  have hother : ∀ q, q ≠ p → taskStamps q w'.tasks = taskStamps q w.tasks := by
    intro q hq
    rw [hw', Server.pushTask, taskStamps_split]
    simp [Task.request, stamp, taskStamps, Ne.symm hq]
  have hway : w'.onTheWay p = w.onTheWay p ++ [w.log.decoded p] := by
    rw [onTheWay, onTheWay, hself, hnone]
    simp [hw', Server.pushTask]
  have hway' : ∀ q, q ≠ p → w'.onTheWay q = w.onTheWay q := fun q hq => by
    rw [onTheWay, onTheWay, hother q hq]
    rfl
  constructor
  · intro q
    by_cases hq : q = p
    · subst hq
      rw [hway, ← append_assoc]
      refine pairwise_append.mpr ⟨h.sorted q, pairwise_singleton .., fun a ha b hb => ?_⟩
      rw [mem_singleton.mp hb]
      exact h.bound q a ha
    · rw [hway' q hq]
      exact h.sorted q
  · intro q n hn
    by_cases hq : q = p
    · subst hq
      rw [hway, ← append_assoc] at hn
      rcases mem_append.mp hn with hn | hn
      · exact h.bound q n hn
      · rw [mem_singleton.mp hn]
        exact Nat.le_refl _
    · rw [hway' q hq] at hn
      exact h.bound q n hn
  · intro q
    by_cases hq : q = p
    · rw [hq, hself]
      exact Nat.le_refl _
    · rw [hother q hq]
      exact h.single q
  · intro t ht q n hreq
    rcases mem_append.mp ht with ht | ht
    · exact h.owner t ht q n hreq
    · rw [mem_singleton.mp ht] at hreq ⊢
      cases hreq
      exact .inl (by simp [Task.runs])

theorem taskStamps_eq_nil (hlife : Life w) (hr : w.runningOf p = false)
    (hserial : ∀ t ∈ w.tasks, t.between p = false) : taskStamps p w.tasks = [] := by
  rw [taskStamps, filterMap_eq_nil_iff]
  intro t ht
  rcases hreq : t.request with _ | ⟨q, n⟩
  · rfl
  · rw [stamp, if_neg]
    rintro rfl
    rcases h.owner t ht q n hreq with hruns | ⟨r, rfl⟩
    · exact countP_eq_zero.mp (hlife.runs_eq_zero hr) t ht hruns
    · have := hserial _ ht
      rw [Task.between] at this
      change r.request = some (q, n) at hreq
      rw [hreq] at this
      simp [stamp] at this

theorem owner_of_same {t t' : Task} (ht : w.tasks[i]? = some t) (hsame : t.Same t') (p : Ptr)
    (n : ℕ) (hreq : t'.request = some (p, n)) :
    t'.runs p = true ∨ ∃ r, t' = .push r := by
  rw [hsame.request] at hreq
  rcases h.owner t (mem_of_getElem? ht) p n hreq with hruns | ⟨r, hr⟩
  · exact .inl (by rw [hsame.runs, hruns])
  · exact absurd hr (hsame.waits r)

theorem removeSession {sid : Sid} (hw : w.removeSession p sid = .ok w') :
    Ordered w' := by
  rw [Server.removeSession] at hw
  split at hw
  · cases hw
    exact { h with }
  · cases hw

/-- **Step lemma**: a step of a serial run keeps the invariant. -/
theorem next (hlife : Life w) {a : Action} (ha : w.Allowed a) (hserial : w.Serial a)
    (hstep : w.step a = .ok w') : Ordered w' := by
  cases step_cases ha hstep with
  | accept =>
    rename_i how mgr sid
    have hnew : Ordered (w.newSession mgr sid) := { h with }
    cases how with
    | start =>
      have hmod : Ordered ((w.newSession mgr sid).modify w.nextPtr fun s =>
        { s with running := true }) := { hnew with }
      exact hmod.pushTask rfl
    | wait =>
      exact hnew.quiet (Quiet.addWrite.trans .addRead) (log_addRead.trans log_addWrite)
        (.inr (by rw [begin, pc_addRead, pc_addWrite]))
    | refused size =>
      have hmod : Ordered (((w.newSession mgr sid).newMessage size).modify w.nextPtr fun s =>
        { s with outList := s.outList ++ [w.nextMsg], status := .eExit }) := { hnew with }
      exact hmod.quiet .addWrite log_addWrite (.inr (congrArg EventPc.request pc_addWrite))
  | read hs =>
    rename_i p s ev
    refine h.quiet (.onRead ev) (log_onRead ev) ?_
    rcases onRead_pc (w := w) (p := p) ev with hpc | hpc | hpc | hpc
    · exact .inr (by rw [hpc])
    · exact .inl (by rw [hpc]; rfl)
    · exact .inl (by rw [hpc]; rfl)
    · exact .inl (by rw [hpc]; rfl)
  | write hs =>
    rename_i p s ev
    refine h.quiet (.onWrite s ev) (log_onWrite s ev) (.inl ?_)
    rcases onWrite_pc (w := w) (p := p) s ev with hpc | hpc | hpc <;> rw [hpc] <;> rfl
  | response hr => exact h.response ha.1 hr
  | decode hs hpc =>
    rename_i ok p s work skip
    have hquiet := Quiet.decode (P := fun _ => False) (w := w) (p := p) s ok work skip
    have hpc' : (w.decode p s ok work skip).pc.request = none := by
      simp only [decode]
      rcases hpc with ⟨-, rfl, rfl⟩ | ⟨-, rfl, rfl⟩ <;> split_ifs <;> rfl
    refine h.event ?_ (fun q => ?_) hquiet.responses hquiet.tasks (.inl hpc')
    · simp only [decode]
      split_ifs <;> rfl
    · simp only [decode]
      split_ifs
      · exact Nat.le_refl _
      · by_cases hq : q = p
        · subst hq
          simp [Server.goto]
        · simp [Server.goto, hq]
      · exact Nat.le_refl _
  | work hs hpc =>
    rename_i ok p s next
    have hworks : w.pc.works = some p ∧ next.request = none := by
      rcases hpc with ⟨hpc, rfl⟩ | ⟨hpc, rfl⟩
      · exact ⟨by rw [hpc]; rfl, rfl⟩
      · exact ⟨by rw [hpc]; rfl, rfl⟩
    rw [doWork]
    split_ifs with hnormal
    · have hdispatch : p ∈ w.dispatching := by
        simp [dispatching, hworks.1, hs, hnormal]
      have hnone := h.taskStamps_eq_nil hlife (hlife.works p hworks.1) (hserial p hdispatch)
      have hmod : Ordered ((w.modify p fun s => { s with running := true }).goto next) :=
        h.event rfl (fun _ => Nat.le_refl _) rfl rfl (.inl hworks.2)
      exact hmod.work hnone
    · exact h.goto (.inl hworks.2)
  | tail hs hpc => exact h.quiet (Quiet.addRead.trans (.goto _)) log_addRead (.inl rfl)
  | busy hs hr hpc => exact h.goto (.inl rfl)
  | giveUp hs hr hpc hw =>
    rename_i ok p s t w₀
    have ht : t.request = none := by rcases hpc with ⟨-, rfl⟩ | ⟨-, rfl⟩ <;> rfl
    obtain ⟨w₂, hremove, rfl⟩ := bind_pure_eq_ok hw
    have hfailed : Ordered (failAll s.sid s.outList.reverse ((w.delWrite p).delRead p)) :=
      h.quiet ((Quiet.delWrite.trans .delRead).trans (.failAll (P := fun _ => False) _ _))
        (log_failAll _ _) (.inr (congrArg EventPc.request (pc_failAll _ _)))
    have hmod : Ordered ((failAll s.sid s.outList.reverse ((w.delWrite p).delRead p)).modify p
      fun s => { s with outList := [] }) := { hfailed with }
    exact ((hmod.removeSession hremove).pushTask ht).goto (.inl rfl)
  | close hs hr hpc hw =>
    rename_i ok p s w₀
    obtain ⟨w₂, hremove, rfl⟩ := bind_pure_eq_ok hw
    have hdel : Ordered ((w.delWrite p).delRead p) := { h with }
    exact ((hdel.removeSession hremove).pushTask rfl).goto (.inl rfl)
  | closeTest hs hpc =>
    refine h.goto (.inl ?_)
    split_ifs <;> rfl
  | noSender hpc | noClose hpc hr => exact h.goto (.inr (by rw [hpc]; rfl))
  | sender hpc hl hs =>
    split_ifs
    · exact h.event rfl (fun _ => Nat.le_refl _) rfl rfl (.inr (by rw [hpc]; rfl))
    · exact h.goto (.inr (by rw [hpc]; rfl))
  | respEvents hpc hs =>
    exact h.quiet (.respEvents _ _) (log_respEvents _ _) (.inr (by rw [hpc]; rfl))
  | respMessages hpc =>
    rename_i ok r
    have hquiet := Quiet.respMessages (P := fun _ => False) (w := w) r
    have hsame : (w.respMessages r).log.replies = w.log.replies ∧
        (w.respMessages r).log.decoded = w.log.decoded ∧
        (w.respMessages r).pc.request = r.request := by
      rw [respMessages]
      split
      · exact ⟨rfl, rfl, rfl⟩
      · simp only
        split_ifs <;> exact ⟨rfl, rfl, rfl⟩
    obtain ⟨hreplies, hdecoded, hreq⟩ := hsame
    refine h.event hreplies (fun q => by rw [hdecoded]) hquiet.responses hquiet.tasks (.inr ?_)
    rw [hreq, hpc]
    rfl
  | sidsDone hpc =>
    split_ifs
    · exact h.event rfl (fun _ => Nat.le_refl _) rfl rfl (.inr (by rw [hpc]; rfl))
    · exact h.event rfl (fun _ => Nat.le_refl _) rfl rfl (.inr (by rw [hpc]; rfl))
  | dropSid hpc =>
    exact h.event rfl (fun _ => Nat.le_refl _) rfl rfl (.inr (by rw [hpc]; rfl))
  | append hpc hl hs => exact h.append hpc
  | responded hpc => exact h.goto (.inl rfl)
  | toClose hpc hr hl hs =>
    rename_i ok r sid rest p s
    have hmod : Ordered (w.modify p fun s => { s with status := .eExit }) := { h with }
    refine hmod.quiet (Quiet.addWrite.trans (.goto _)) log_addWrite (.inr ?_)
    change r.request = w.pc.request
    rw [hpc]
    rfl
  | advance ht hsame => exact h.setTask ht hsame.request (h.owner_of_same ht hsame)
  | status ht hs hsame =>
    rename_i i o t t' p s st
    have hmod : Ordered (w.modify p fun s => { s with status := st }) := { h with }
    exact hmod.setTask ht hsame.request (h.owner_of_same ht hsame)
  | clear ht =>
    rename_i i o p r
    have hmod : Ordered (w.modify p fun s => { s with running := false }) := { h with }
    exact hmod.setTask ht rfl fun _ _ _ => .inr ⟨r, rfl⟩
  | push ht => exact h.push ht
  | pushLast ht =>
    rename_i i o p r
    have hnone : r.request = none := by
      rcases hreq : r.request with _ | ⟨q, n⟩
      · rfl
      · rcases h.owner _ (mem_of_getElem? ht) q n hreq with hruns | ⟨r', hr'⟩
        · cases hruns
        · cases hr'
    refine (h.msgqueuePush hnone).setTask ht ?_ (by rintro _ _ ⟨⟩)
    exact hnone.symm
  | delete ht =>
    rename_i i o p
    have hsub : (w.tasks.eraseIdx i).Sublist w.tasks := eraseIdx_sublist ..
    refine h.sublist rfl (fun _ => Nat.le_refl _) (fun q => ?_) (fun q => hsub.filterMap _)
      fun u hu => h.owner u (hsub.mem hu)
    exact ((hsub.filterMap _).append_left _).append_left _
  | post => exact h.msgqueuePush rfl

end

end Ordered

/-! ## Every run -/

/-- **Reply order**: in every run in which no request is given to a worker while another worker of
its session is between clearing the running flag and pushing its response, the replies of a
session are appended to its `outList` in the order in which its requests were decoded. -/
theorem replies_in_order {w : Server} (h : system.Reach Serial w) (p : Ptr) :
    (w.log.replies p).Pairwise (· ≤ ·) := by
  have hboth : Life w ∧ Ordered w := by
    apply Lib.System.Reach.invariant ?_ ?_ h
    · exact ⟨.init, .init⟩
    · rintro s a s' ⟨hlife, hord⟩ ha hserial hstep
      exact ⟨hlife.next ha hstep, hord.next hlife ha hserial hstep⟩
  exact (List.pairwise_append.mp (hboth.2.sorted p)).1

def Outcome.reply : Outcome := ⟨false, false, [(1, [⟨1024, 0⟩])], []⟩

def startedSession : List Action :=
  [.onAccept .start] ++ List.replicate 4 (.task 0 ⟨false, false, [], []⟩) ++ [.onResponse] ++
    List.replicate 4 (.event true)

/-- The event thread reads and decodes a request of the session and gives it to a worker. -/
def readRequest : List Action := [.onRead 0 .received] ++ List.replicate 3 (.event true)

def respond : List Action := [.onResponse] ++ List.replicate 7 (.event true)

/-- Two requests one after the other. -/
theorem replies_in_order_two : ∃ w, system.Reach Serial w ∧ w.log.replies 0 = [1, 2] ∧
    (w.log.replies 0).Pairwise (· ≤ ·) := by
  have hrun : (system.run Serial (startedSession ++
      (readRequest ++ List.replicate 4 (.task 0 .reply) ++ respond) ++
      (readRequest ++ List.replicate 4 (.task 0 .reply) ++ respond)) system.init).map
        (fun w => w.log.replies 0) = some [1, 2] := by decide +kernel
  obtain ⟨w, hw, hreplies⟩ := Option.map_eq_some_iff.mp hrun
  have hreach := Lib.System.Reach.run .init hw
  exact ⟨w, hreach, hreplies, replies_in_order hreach 0⟩

/-- The first worker clears the running flag and is stopped; a second request is read and handled
by another worker, which pushes its response first. -/
theorem replies_overtake : ∃ w, system.Reach (fun _ _ => True) w ∧
    ¬ (w.log.replies 0).Pairwise (· ≤ ·) := by
  have hrun : (system.run (fun _ _ => True) (startedSession ++
      (readRequest ++ List.replicate 3 (.task 0 .reply)) ++
      (readRequest ++ List.replicate 4 (.task 1 .reply) ++ respond) ++
      ([.task 0 .reply] ++ respond)) system.init).map
        (fun w => w.log.replies 0) = some [2, 1] := by decide +kernel
  obtain ⟨w, hw, hreplies⟩ := Option.map_eq_some_iff.mp hrun
  refine ⟨w, Lib.System.Reach.run .init hw, ?_⟩
  rw [hreplies]
  decide

end Server

end Spserver
