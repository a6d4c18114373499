import ReadingComment.Spserver.Attention
import ReadingComment.Spserver.ReplyOrder

/-!
# Close requests

A session is to be closed when its handler says so (`eWouldExit`, until its
response is processed) or a response names it in its ToCloseList (`eExit`). The
close is carried out by the callback of its write event, and a session that is to
be closed is attended until then. The request is lost when `start` sets the status
of a session to `eNormal` after a ToCloseList has set it to `eExit`.
-/

namespace Spserver

open List

/-- The task is about to set the status of the session to `eNormal`. -/
def Task.setsNormal : Task → Ptr → Bool
  | .started q _ .eNormal, p => q = p
  | _, _ => false

/-- The callback is about to close the session or to give it up, or to look whether it is to be
closed. -/
def EventPc.ending : EventPc → Option Ptr
  | .error p | .timeout p | .closeTest p | .closeRun p => some p
  | _ => none

theorem EventPc.session_of_ending {pc : EventPc} {p : Ptr} (h : pc.ending = some p) :
    pc.session = some p := by
  cases pc <;> first | exact h | cases h

namespace Server

/-- The session that the next step of `onResponse` marks, for its ToCloseList. -/
def closes (w : Server) : Option Ptr :=
  match w.pc with
  | .respClose r => r.toCloseList.head?.bind w.lookup
  | _ => none

/-- The session that the `i`-th task is about to start. -/
def startsAt (w : Server) (i : ℕ) : Option Ptr :=
  match w.tasks[i]? with
  | some (.start p) => some p
  | _ => none

/-- No ToCloseList reaches a session whose `start` is going to set it to `eNormal`: neither after
`SP_Handler::start` has succeeded nor, if it will succeed, before. -/
def StartsFirst (w : Server) : Action → Prop
  | .event _ => (w.closes.all fun p => w.tasks.all fun t => !t.setsNormal p) = true
  | .task i o => (w.startsAt i).all (fun p => o.initRet || o.ret || w.statusOf p = some .eNormal) =
    true
  | _ => True

instance (w : Server) : ∀ a, Decidable (w.StartsFirst a)
  | .event _ => inferInstanceAs (Decidable (_ = true))
  | .task _ _ => inferInstanceAs (Decidable (_ = true))
  | .onAccept _ => inferInstanceAs (Decidable True)
  | .onRead _ _ => inferInstanceAs (Decidable True)
  | .onWrite _ _ => inferInstanceAs (Decidable True)
  | .onResponse => inferInstanceAs (Decidable True)
  | .post _ _ _ => inferInstanceAs (Decidable True)

/-- Note the sessions whose status is not `eNormal`. -/
def noteClosing (w : Server) (_ : Action) (closing : Ptr → Bool) : Ptr → Bool := fun p =>
  closing p || (w.statusOf p).any (· ≠ .eNormal)

/-- The server with a record of the sessions that were to be closed at some time. -/
def closingSystem : Lib.System (Server × (Ptr → Bool)) Action Fault :=
  system.record (fun _ => false) noteClosing

/-- **The close invariant.** -/
structure Closing (w : Server) : Prop where
  would : ∀ p, w.Live p → w.statusOf p = some .eWouldExit → w.Answering p
  exit : ∀ p, w.Live p → w.statusOf p = some .eExit → w.Attended p ∨ w.pc.ending = some p
  test : ∀ p, w.pc = .closeTest p → w.outOf p = [] ∨ w.writeEvents p = true

section

variable {w w' : Server} {p : Ptr}

theorem Life.running_of_runs (h : Life w) {i : ℕ} {t : Task} (ht : w.tasks[i]? = some t)
    (hruns : t.runs p = true) : w.runningOf p = true := by
  by_contra hrun
  have hcount := h.runs_eq_zero (by simpa using hrun)
  exact countP_eq_zero.mp hcount t (mem_of_getElem? ht) hruns

theorem setStatus_cases {s : Session} {q : Ptr} (hs : w.heap q = some s) (st : Status) :
    ((w.modify q fun s => { s with status := st }).statusOf p = w.statusOf p ∨
      p = q ∧ (w.modify q fun s => { s with status := st }).statusOf p = some st) ∧
      (w.modify q fun s => { s with status := st }).runningOf p = w.runningOf p ∧
      (w.modify q fun s => { s with status := st }).outOf p = w.outOf p := by
  by_cases hq : p = q
  · subst hq
    exact ⟨.inr ⟨rfl, by simp [statusOf, modify, hs]⟩, by simp [runningOf, modify, hs],
      by simp [outOf, modify, hs]⟩
  · have hheap : (w.modify q fun s => { s with status := st }).heap p = w.heap p :=
      heap_modify_ne hq
    exact ⟨.inl (by rw [statusOf, hheap, statusOf]), by rw [runningOf, hheap, runningOf],
      by rw [outOf, hheap, outOf]⟩

theorem Life.runs_unique (h : Life w) {i j : ℕ} {t t' : Task} (ht : w.tasks[i]? = some t)
    (ht' : w.tasks[j]? = some t') (hruns : t.runs p = true) (hruns' : t'.runs p = true) :
    i = j := by
  by_contra hne
  obtain ⟨hi, rfl⟩ := List.getElem?_eq_some_iff.mp ht
  have hcount : w.tasks.countP (·.runs p) = (w.tasks.eraseIdx i).countP (·.runs p) + 1 := by
    rw [(perm_eraseIdx hi).countP_eq]
    exact countP_cons_of_pos hruns
  have hpos : 0 < (w.tasks.eraseIdx i).countP (·.runs p) :=
    countP_pos_iff.mpr ⟨t', mem_eraseIdx_iff_getElem?.mpr ⟨j, Ne.symm hne, ht'⟩, hruns'⟩
  have hone := h.runs p
  rw [hcount] at hone
  split_ifs at hone
  all_goals omega

theorem TaskTurn.status {i : ℕ} {o : Outcome} (hlife : Life w) (hp' : w'.Live p)
    (h : TaskTurn w i o w') :
    (w'.statusOf p = w.statusOf p ∨ ∃ t r, w.tasks[i]? = some t ∧ t.runs p = true ∧
      w'.tasks = w.tasks.set i (.clear p r) ∧ w'.runningOf p = true ∧
      (w'.statusOf p = some .eWouldExit ∨
        ∃ st, t = .started p r st ∧ w'.statusOf p = some st)) ∧ w'.outOf p = w.outOf p := by
  have running : ∀ {q : Ptr} {t : Task} (st : Status), w.tasks[i]? = some t → t.runs q = true →
      ((w.modify q fun s => { s with status := st }).statusOf p = w.statusOf p ∨ p = q ∧
        (w.modify q fun s => { s with status := st }).runningOf p = true ∧
        (w.modify q fun s => { s with status := st }).statusOf p = some st) ∧
        (w.modify q fun s => { s with status := st }).outOf p = w.outOf p := by
    intro q t st ht hruns
    obtain ⟨s, hs, -⟩ := hlife.deref (hlife.live_of_runs ht hruns)
    obtain ⟨hst, hrun, hout⟩ := setStatus_cases (p := p) hs st
    refine ⟨hst.imp_right fun h => ⟨h.1, ?_, h.2⟩, hout⟩
    rw [hrun, h.1]
    exact hlife.running_of_runs ht hruns
  cases h with
  | handle ht hr hw | stay ht hw | start ht hr hst hw | push ht hw | ends ht hends hends' hw
  | pushLast ht hw =>
    subst hw
    exact ⟨.inl rfl, rfl⟩
  | exit ht hw =>
    rename_i q r
    subst hw
    obtain ⟨hst, hout⟩ := running (q := q) .eWouldExit ht (by simp [Task.runs])
    refine ⟨hst.imp_right ?_, hout⟩
    rintro ⟨rfl, hrun, hst⟩
    exact ⟨_, r, ht, by simp [Task.runs], rfl, hrun, .inl hst⟩
  | started ht hw =>
    rename_i q r st
    subst hw
    obtain ⟨hst, hout⟩ := running (q := q) st ht (by simp [Task.runs])
    refine ⟨hst.imp_right ?_, hout⟩
    rintro ⟨rfl, hrun, hst⟩
    exact ⟨_, r, ht, by simp [Task.runs], rfl, hrun, .inr ⟨st, rfl, hst⟩⟩
  | clear ht hw =>
    rename_i q r
    subst hw
    have hcalm : Calm w (w.modify q fun s => { s with running := false }) := .modify rfl
    refine ⟨.inl ?_, congrFun hcalm.out p⟩
    exact statusOf_modify fun _ => rfl
  | delete ht hw =>
    rename_i q
    subst hw
    have hne : p ≠ q := by
      rintro rfl
      exact hp'.2 (hlife.heap_of_ends ht (by simp [Task.ends])).1
    have hheap : ((w.endTask i).deleteSession q).heap p = w.heap p := Function.update_of_ne hne ..
    exact ⟨.inl (by rw [statusOf, hheap, statusOf]), by rw [outOf, hheap, outOf]⟩

theorem ending_next (hpc : w.pc.ending = some p) {ok : Bool}
    (hstep : w.eventStep ok = .ok w') (hp' : w'.Live p) :
    w'.runningOf p = true ∨ w.pc = .closeTest p ∧ Keeps w w' p ∧ (w'.pc = .closeRun p ∨
      w'.pc = .writeRun p ∧ ¬ (w.outOf p = [] ∧ w.statusOf p = some .eExit)) := by
  -- a session that is removed does not live
  have gone : ∀ {w₁ w₂ : Server} {sid : Sid}, w₁.removeSession p sid = .ok w₂ →
      w'.log.removed = w₂.log.removed → False := by
    intro w₁ w₂ sid hremove hlog
    refine hp'.2 ?_
    rw [hlog, (removed_removeSession hremove).1]
    exact mem_append_right _ (mem_singleton_self p)
  have hgiveUp : ∀ {s : Session} {t : Task}, w.heap p = some s → (if s.running = true then
      .ok (w.goto .idle) else do return (← giveUp t w p s).goto .idle) = Except.ok w' →
      w'.runningOf p = true := by
    intro s t hs hstep
    split_ifs at hstep with hrun
    · cases hstep
      exact (runningOf_of_heap hs).trans hrun
    · obtain ⟨w₁, hgive, rfl⟩ := bind_pure_eq_ok hstep
      obtain ⟨w₂, hremove, rfl⟩ := bind_pure_eq_ok hgive
      exact (gone hremove rfl).elim
  rw [eventStep] at hstep
  split at hstep
  all_goals rename_i hpc'; rw [hpc'] at hpc
  all_goals try cases hpc
  all_goals obtain ⟨s, hs, hstep⟩ := deref_bind_eq_ok hstep
  · exact .inl (hgiveUp hs hstep)
  · exact .inl (hgiveUp hs hstep)
  · cases hstep
    refine .inr ⟨hpc', .goto _, ?_⟩
    rw [outOf_of_heap hs, statusOf_of_heap hs]
    split_ifs with htest
    · exact .inl rfl
    · exact .inr ⟨rfl, fun h => htest ⟨h.1, Option.some.inj h.2⟩⟩
  · split_ifs at hstep with hrun
    · cases hstep
      exact .inl ((runningOf_of_heap hs).trans hrun)
    · obtain ⟨w₁, hclose, rfl⟩ := bind_pure_eq_ok hstep
      obtain ⟨w₂, hremove, rfl⟩ := bind_pure_eq_ok hclose
      exact (gone hremove rfl).elim

theorem transmitted_test {s : Session} (hs : w.heap p = some s) (hwriting : s.writing = false)
    (again : Bool) (l : List MsgPtr) (off : ℕ) (len : ℤ)
    (hpc : (w.transmitted p again l off len).pc = .closeTest p) :
    (w.transmitted p again l off len).outOf p = [] ∨
      (w.transmitted p again l off len).writeEvents p = true := by
  set w₁ := w.modify p fun s => { s with outList := l, outOffset := off } with hw₁
  have hs₁ : w₁.heap p = some { s with outList := l, outOffset := off } := by
    simp [hw₁, modify, hs]
  have hadd : (w₁.addWrite p).writeEvents p = true :=
    writeEvents_addWrite hs₁ fun hw => by simp [writingOf, hs₁, hwriting] at hw
  simp only [transmitted, ← hw₁] at hpc ⊢
  split_ifs with hlen hnil hagain
  · exact .inl ((outOf_of_heap hs₁).trans hnil)
  · exact .inr hadd
  · exact .inr hadd
  · rw [if_neg hlen, if_neg hagain] at hpc
    cases hpc

theorem onWrite_test {s : Session} (hs : w.heap p = some s) (ev : WriteEvent)
    (hpc : (w.onWrite p s ev).pc = .closeTest p) :
    (w.onWrite p s ev).outOf p = [] ∨ (w.onWrite p s ev).writeEvents p = true := by
  set w₁ := (w.delWrite p).modify p fun s => { s with writing := false } with hw₁
  have hs₁ : w₁.heap p = some { s with writing := false } := by simp [hw₁, modify, delWrite, hs]
  cases ev with
  | timeout => cases hpc
  | ready lens again =>
    simp only [onWrite, ← hw₁] at hpc ⊢
    split_ifs at hpc ⊢ with hout
    · exact .inl ((outOf_of_heap hs₁).trans hout)
    · refine transmitted_test (s := { s with writing := false }) ?_ rfl again _ _ _ hpc
      rw [heap_transmit]
      exact hs₁

theorem eventStep_pc {ok : Bool} (hidle : w.pc ≠ .idle) (hstep : w.eventStep ok = .ok w') :
    w'.pc ≠ .closeTest p := by
  cases step_cases (a := .event ok) hidle hstep with
  | decode hs hpc =>
    rcases hpc with ⟨-, rfl, rfl⟩ | ⟨-, rfl, rfl⟩
    all_goals
      rw [decode]
      split_ifs <;> rintro ⟨⟩
  | work hs hpc => rcases hpc with ⟨-, rfl⟩ | ⟨-, rfl⟩ <;> rintro ⟨⟩
  | closeTest hs hpc =>
    change (if _ then _ else _) ≠ _
    split_ifs <;> rintro ⟨⟩
  | respMessages hpc =>
    rw [respMessages]
    split
    · rintro ⟨⟩
    · simp only
      split_ifs <;> rintro ⟨⟩
  | tail | busy | giveUp | close | noSender | sender | respEvents | sidsDone | dropSid | append
  | responded | noClose | toClose => rintro ⟨⟩

theorem closeTest_step (hsync : Synced w) (hlife : Life w) {a : Action} (ha : w.Allowed a)
    (hstep : w.step a = .ok w') (hpc : w'.pc = .closeTest p) :
    (∃ ev s, w.heap p = some s ∧ w' = w.onWrite p s ev) ∨ w.pc = .closeTest p := by
  cases a with
  | onAccept how =>
    rcases hlife.onAccept ha how with herr | ⟨m, key, seq, hok, -⟩
    · change w.onAccept how = _ at hstep
      rw [hstep] at herr
      cases herr
    · obtain rfl := Except.ok.inj (hstep.symm.trans hok)
      refine .inr (Eq.trans ?_ hpc)
      cases how with
      | start => rfl
      | wait =>
        rw [begin, pc_addRead, pc_addWrite]
        rfl
      | refused size =>
        rw [begin, pc_addWrite]
        rfl
  | onRead q ev =>
    obtain ⟨s, hs, hstep⟩ := deref_bind_eq_ok hstep
    cases hstep
    rcases onRead_pc (w := w) (p := q) ev with hq | hq | hq | hq
    all_goals rw [hq] at hpc
    · exact .inr hpc
    all_goals cases hpc
  | onWrite q ev =>
    obtain ⟨s, hs, hstep⟩ := deref_bind_eq_ok hstep
    cases hstep
    rcases onWrite_pc (w := w) (p := q) s ev with hq | hq | hq
    all_goals
      rw [hq] at hpc
      cases hpc
    exact .inl ⟨ev, s, hs, rfl⟩
  | onResponse =>
    cases step_cases ha hstep with
    | response hr => cases hpc
  | event ok => exact absurd hpc (eventStep_pc ha hstep)
  | task i o =>
    exact .inr (((taskTurn hstep ha).tends (p := p) hlife hsync.answers).pc.symm.trans hpc)
  | post sid messages toCloseList =>
    cases hstep
    exact .inr hpc

theorem statusOf_onWrite {q : Ptr} (s : Session) (ev : WriteEvent) :
    (w.onWrite q s ev).statusOf p = w.statusOf p := by
  refine (Keeps.fired s ev).status.trans ?_
  exact statusOf_modify fun _ => rfl

namespace Closing

theorem init : Closing Server.init := ⟨nofun, nofun, nofun⟩

theorem status_new (hlife : Life w) {how : Start} (hpc : w.pc = .idle)
    (hw : w.onAccept how = .ok w') : w'.statusOf w.nextPtr = some .eNormal ∨
      w'.statusOf w.nextPtr = some .eExit ∧ w'.writeEvents w.nextPtr = true := by
  rcases hlife.onAccept hpc how with herr | ⟨m, key, seq, hok, -⟩
  · rw [hw] at herr
    cases herr
  obtain rfl := Except.ok.inj (hw.symm.trans hok)
  cases how with
  | start =>
    left
    simp [begin, doStart, pushTask, statusOf, modify, newSession, Session.new]
  | wait =>
    left
    refine (Keeps.addRead.status.trans Keeps.addWrite.status).trans ?_
    simp [statusOf, newSession, Session.new]
  | refused size =>
    right
    set w₁ := ((w.newSession m ⟨key, seq⟩).newMessage size).modify w.nextPtr fun s =>
      { s with outList := s.outList ++ [w.nextMsg], status := .eExit } with hw₁
    have hs₁ :
        w₁.heap w.nextPtr = some ⟨⟨key, seq⟩, .eExit, false, false, false, [w.nextMsg], 0⟩ := by
      simp [hw₁, modify, newMessage, newSession, Session.new]
    have hwriting : w₁.writingOf w.nextPtr = false := by simp [writingOf, hs₁]
    refine ⟨Keeps.addWrite.status.trans (statusOf_of_heap hs₁), ?_⟩
    exact writeEvents_addWrite hs₁ fun hw => absurd (hwriting.symm.trans hw) Bool.false_ne_true

theorem status_step (hsync : Synced w) (hlife : Life w) {a : Action} (ha : w.Allowed a)
    (hstep : w.step a = .ok w') (hp : w.Live p) (hp' : w'.Live p) :
    w'.statusOf p = w.statusOf p ∨ w'.runningOf p = true ∨
      w'.statusOf p = some .eExit ∧ w'.Attended p := by
  cases sessionTurn hlife ha hstep (Nat.ne_of_lt hp.1) hp'.2 with
  | keeps _ ht => exact .inl ht.status
  | response _ hr hw =>
    subst hw
    exact .inl rfl
  | sender ha' hpc hl hold ht hst =>
    rename_i ok r
    subst ha'
    have hsid := (hlife.lookup_eq_some.mp hl).2
    exact .inr (.inr ⟨hst, .inr (.inl ⟨r, (respFrom_next hlife hp hpc hsid hstep).1⟩)⟩)
  | toClose _ _ _ _ ht hst harm => exact .inr (.inr ⟨hst, .inr (.inr (harm (hsync.armed p hp)))⟩)
  | write hfires hs hw =>
    subst hw
    exact .inl (statusOf_onWrite _ _)
  | task _ ht =>
    refine (ht.status hlife hp').1.imp_right ?_
    rintro ⟨t, r, -, -, -, hrun, -⟩
    exact .inl hrun

/-- **Step lemma**: a step keeps the invariant. -/
theorem next (h : Closing w) (hsync : Synced w) (hlife : Life w) {a : Action} (ha : w.Allowed a)
    (hstep : w.step a = .ok w') : Closing w' where
  would p hp' hst := by
    rcases live_step hlife ha hstep hp' with ⟨hp, -⟩ | ⟨rfl, how, rfl⟩
    · rcases status_step hsync hlife ha hstep hp hp' with hsame | hrun | ⟨hexit, -⟩
      · have hans := h.would p hp (hsame.symm.trans hst)
        rcases hans.step hsync hlife ha hstep hp hp' with hans' | ⟨r, -, hne⟩
        · exact hans'
        · exact absurd hst hne
      · exact .inl hrun
      · rw [hst] at hexit
        cases hexit
    · rcases status_new hlife ha hstep with hnew | ⟨hnew, -⟩
      all_goals
        rw [hst] at hnew
        cases hnew
  exit p hp' hst := by
    rcases live_step hlife ha hstep hp' with ⟨hp, -⟩ | ⟨rfl, how, rfl⟩
    · rcases status_step hsync hlife ha hstep hp hp' with hsame | hrun | ⟨-, hatt⟩
      · rcases h.exit p hp (hsame.symm.trans hst) with hatt | hending
        · rcases hatt.step hsync hlife ha hstep hp hp' with hatt' | ⟨ev, rfl⟩
          · exact .inl hatt'
          · obtain ⟨s, hs, hw⟩ := deref_bind_eq_ok hstep
            cases hw
            right
            rcases onWrite_pc (w := w) (p := p) s ev with hpc | hpc | hpc
            all_goals rw [hpc]; rfl
        · have hidle : w.pc ≠ .idle := by
            intro hidle
            rw [hidle] at hending
            cases hending
          rcases pc_step hsync hlife ha hstep hidle with ⟨ok, rfl⟩ | hpc
          · rcases ending_next hending hstep hp' with hrun | ⟨hpc, hkeeps, hclose | ⟨-, hout⟩⟩
            · exact .inl (.inl (.inl hrun))
            · exact .inr (by rw [hclose]; rfl)
            · -- something is left to write
              have hwrite := (h.test p hpc).resolve_left fun hnil =>
                hout ⟨hnil, hsame.symm.trans hst⟩
              exact .inl (.inr (.inr (hkeeps.write hwrite)))
          · exact .inr (hpc ▸ hending)
      · exact .inl (.inl (.inl hrun))
      · exact .inl hatt
    · rcases status_new hlife ha hstep with hnew | ⟨-, hwrite⟩
      · rw [hst] at hnew
        cases hnew
      · exact .inl (.inr (.inr hwrite))
  test p hpc := by
    rcases closeTest_step hsync hlife ha hstep hpc with ⟨ev, s, hs, rfl⟩ | hpc'
    · exact onWrite_test hs ev hpc
    · have hidle : w.pc ≠ .idle := by rw [hpc']; nofun
      have hp : w.Live p := hlife.pc p (by rw [hpc']; rfl)
      have hp' : w'.Live p := (hlife.next ha hstep).pc p (by rw [hpc]; rfl)
      have hold := h.test p hpc'
      cases a with
      | onAccept how => exact absurd ha hidle
      | onRead q ev => exact absurd ha.1 hidle
      | onWrite q ev => exact absurd ha.1 hidle
      | onResponse => exact absurd ha.1 hidle
      | event ok => exact absurd hpc (eventStep_pc ha hstep)
      | task i o =>
        have ht := taskTurn hstep ha
        rw [(ht.status hlife hp').2, (ht.tends (p := p) hlife hsync.answers).write]
        exact hold
      | post sid messages toCloseList =>
        cases hstep
        exact hold

end Closing

theorem setsNormal_eq {t : Task} (h : t.setsNormal p = true) : ∃ r, t = .started p r .eNormal := by
  cases t with
  | started q r st =>
    cases st with
    | eNormal => exact ⟨r, by rw [of_decide_eq_true h]⟩
    | eWouldExit => cases h
    | eExit => cases h
  | _ => cases h

/-- The sessions that a `start` is about to set to `eNormal` have this status already. -/
def Fresh (w : Server) : Prop :=
  ∀ t ∈ w.tasks, ∀ p, t.setsNormal p = true → w.statusOf p = some .eNormal

theorem TaskTurn.setsNormal {i : ℕ} {o : Outcome} (h : TaskTurn w i o w') {t : Task}
    (ht : t ∈ w'.tasks) (hnormal : t.setsNormal p = true) :
    t ∈ w.tasks ∨ w.startsAt i = some p ∧ o.initRet = false ∧ o.ret = false := by
  cases h with
  | start hi hr hst hw =>
    rename_i q r st
    subst hw
    refine (mem_or_eq_of_mem_set ht).imp_right ?_
    rintro rfl
    obtain ⟨r', heq⟩ := setsNormal_eq hnormal
    cases heq
    exact ⟨by rw [startsAt, hi], hst rfl⟩
  | push hi hw | delete hi hw =>
    subst hw
    exact .inl (mem_of_mem_eraseIdx ht)
  | ends hi hends hends' hw =>
    subst hw
    refine (mem_or_eq_of_mem_set ht).imp_right ?_
    rintro rfl
    obtain ⟨r', rfl⟩ := setsNormal_eq hnormal
    cases hends'
  | handle hi _ hw | exit hi hw | stay hi hw | started hi hw | clear hi hw | pushLast hi hw =>
    subst hw
    refine (mem_or_eq_of_mem_set ht).imp_right ?_
    rintro rfl
    cases hnormal

/-- **Step lemma**: when no ToCloseList overtakes a `start`, no `start` takes a close request
back. -/
theorem Fresh.next (h : Fresh w) (hsync : Synced w) (hlife : Life w) {a : Action}
    (ha : w.Allowed a) (hfirst : w.StartsFirst a) (hstep : w.step a = .ok w') : Fresh w' := by
  intro t ht p hnormal
  obtain ⟨r, ht'⟩ := setsNormal_eq hnormal
  have hruns : t.runs p = true := by rw [ht']; simp [Task.runs]
  have hsid := answer_step hlife ha hstep hsync.answers ht (p := p) (r := r) (by rw [ht']; rfl)
  obtain ⟨j, hj⟩ := mem_iff_getElem?.mp ht
  have hp' := (hlife.next ha hstep).live_of_runs hj hruns
  have hp : w.Live p := by
    rcases live_step hlife ha hstep hp' with ⟨hp, -⟩ | ⟨rfl, -⟩
    · exact hp
    · exact absurd ((hlife.heap _).mp (by rw [hsid]; rfl)).1 (Nat.lt_irrefl _)
  -- a task without a response is no `start` that is about to set the status
  have old : t ∈ w.tasks ∨ t.answer = none → w.statusOf p = some .eNormal := by
    rintro (hmem | hnone)
    · exact h t hmem p hnormal
    · rw [ht'] at hnone
      cases hnone
  cases sessionTurn hlife ha hstep (Nat.ne_of_lt hp.1) hp'.2 with
  | keeps _ hk => exact hk.status.trans (old (hk.fresh t ht))
  | response _ _ hw =>
    subst hw
    exact old (.inl ht)
  | sender _ _ _ hexit hk =>
    rw [old (hk.fresh t ht)] at hexit
    cases hexit
  | toClose ha' hpc hr hl hk _ =>
    subst ha'
    have hcloses : w.closes = some p := by
      rw [closes, hpc]
      simp only [hr]
      exact hl
    rcases hk.fresh t ht with hmem | hnone
    · simp only [StartsFirst, hcloses, Option.all_some, all_eq_true] at hfirst
      have := hfirst t hmem
      rw [hnormal] at this
      cases this
    · rw [ht'] at hnone
      cases hnone
  | write _ hs hw =>
    subst hw
    rw [(Quiet.onWrite _ _).tasks] at ht
    exact (statusOf_onWrite _ _).trans (old (.inl ht))
  | task ha' hturn =>
    rename_i i o
    subst ha'
    rcases (hturn.status hlife hp').1 with hsame | ⟨t₀, r', hi, hruns₀, htasks, -⟩
    · rw [hsame]
      rcases hturn.setsNormal ht hnormal with hmem | ⟨hstart, hinit, hret⟩
      · exact h t hmem p hnormal
      · simpa [StartsFirst, hstart, hinit, hret] using hfirst
    · -- the task that sets the status is the only one that works for the session
      rw [htasks] at hj
      by_cases hij : i = j
      · subst hij
        rw [getElem?_set_self (List.getElem?_eq_some_iff.mp hi).1, ht'] at hj
        cases hj
      · rw [getElem?_set_ne hij] at hj
        exact absurd (hlife.runs_unique hi hj hruns₀ hruns) hij

/-- **Step lemma**: when no ToCloseList overtakes a `start`, a session that is to be closed stays
so. -/
theorem Fresh.status_step (h : Fresh w) (hlife : Life w) {a : Action}
    (ha : w.Allowed a) (hstep : w.step a = .ok w') (hp : w.Live p) (hp' : w'.Live p)
    (hst : w'.statusOf p = some .eNormal) : w.statusOf p = some .eNormal := by
  cases sessionTurn hlife ha hstep (Nat.ne_of_lt hp.1) hp'.2 with
  | keeps _ ht => exact ht.status ▸ hst
  | response _ hr hw =>
    subst hw
    exact hst
  | sender _ _ _ _ _ hexit | toClose _ _ _ _ _ hexit =>
    rw [hst] at hexit
    cases hexit
  | write hfires hs hw =>
    subst hw
    exact (statusOf_onWrite _ _).symm.trans hst
  | task _ ht =>
    rcases (ht.status hlife hp').1 with hsame | ⟨t, r, ht, -, -, -, hexit | ⟨st, rfl, hst'⟩⟩
    · exact hsame ▸ hst
    · rw [hst] at hexit
      cases hexit
    · obtain rfl := Option.some.inj (hst.symm.trans hst')
      exact h _ (mem_of_getElem? ht) p (by simp [Task.setsNormal])

end

/-! ## Every run -/

/-- What holds in every state of a run in which no ToCloseList overtakes a `start`. -/
structure Closed (w : Server) (closing : Ptr → Bool) : Prop where
  life : Life w
  synced : Synced w
  inv : Closing w
  fresh : Fresh w
  known : ∀ p, closing p = true → p < w.nextPtr
  stays : ∀ p, closing p = true → w.Live p → w.statusOf p ≠ some .eNormal

namespace Closed

variable {w w' : Server} {closing : Ptr → Bool}

theorem init : Closed Server.init fun _ => false :=
  ⟨.init, .init, .init, nofun, nofun, nofun⟩

theorem noted_lt (h : Closed w closing) {a : Action} {p : Ptr}
    (hp : w.noteClosing a closing p = true) : p < w.nextPtr := by
  rcases Bool.or_eq_true_iff.mp hp with hp | hp
  · exact h.known p hp
  · refine ((h.life.heap p).mp ?_).1
    rw [sidOf, Option.isSome_map]
    by_contra hnone
    rw [statusOf, Option.not_isSome_iff_eq_none.mp hnone] at hp
    cases hp

theorem next (h : Closed w closing) {a : Action} (ha : w.Allowed a) (hfirst : w.StartsFirst a)
    (hstep : w.step a = .ok w') : Closed w' (w.noteClosing a closing) where
  life := h.life.next ha hstep
  synced := h.synced.next h.life ha hstep
  inv := h.inv.next h.synced h.life ha hstep
  fresh := h.fresh.next h.synced h.life ha hfirst hstep
  known p hp := Nat.lt_of_lt_of_le (h.noted_lt hp) (nextPtr_step h.life ha hstep)
  stays p hp hp' hst := by
    rcases live_step h.life ha hstep hp' with ⟨hlive, -⟩ | ⟨rfl, -⟩
    · have hold := h.fresh.status_step h.life ha hstep hlive hp' hst
      rcases Bool.or_eq_true_iff.mp hp with hp | hp
      · exact h.stays p hp hlive hold
      · rw [hold] at hp
        simp at hp
    · exact Nat.lt_irrefl _ (h.noted_lt hp)

end Closed

theorem drained_closes {w : Server} {p : Ptr} (hlife : Life w) (hpc : w.pc = .closeTest p)
    (hout : w.outOf p = []) (hst : w.statusOf p = some .eExit) (hrun : w.runningOf p = false) :
    ∃ w', system.run (fun _ _ => True) [.event true, .event true] w = some w' ∧
      p ∈ w'.log.removed := by
  have hp : w.Live p := hlife.pc p (by rw [hpc]; rfl)
  obtain ⟨s, hs, hderef⟩ := hlife.deref hp
  rw [outOf_of_heap hs] at hout
  rw [statusOf_of_heap hs] at hst
  rw [runningOf_of_heap hs] at hrun
  have hstep : system.step w (.event true) = .ok (w.goto (.closeRun p)) := by
    change w.eventStep true = _
    simp only [eventStep, hpc, hderef]
    exact congrArg (fun pc => Except.ok (w.goto pc)) (if_pos ⟨hout, Option.some.inj hst⟩)
  have hallowed : w.Allowed (.event true) := by
    change w.pc ≠ .idle
    rw [hpc]
    rintro ⟨⟩
  have hlife' := hlife.next hallowed hstep
  obtain ⟨w', hclose, -⟩ := hlife'.doClose (p := p) hp (s := s) hs hrun
  have hstep' : system.step (w.goto (.closeRun p)) (.event true) = .ok (w'.goto .idle) := by
    have hpc' : (w.goto (.closeRun p)).pc = .closeRun p := rfl
    change (w.goto (.closeRun p)).eventStep true = _
    have hderef' : (w.goto (.closeRun p)).deref p = .ok s := hderef
    simp only [eventStep, hpc', hderef']
    exact (if_neg (by simp [hrun])).trans (by rw [hclose]; rfl)
  have hallowed' : system.Allowed (w.goto (.closeRun p)) (.event true) := (by rintro ⟨⟩)
  refine ⟨w'.goto .idle, ?_, ?_⟩
  · have hnil : system.run (fun _ _ => True) [] w = some w := rfl
    have hfirst : system.Allowed w (.event true) := hallowed
    have hone := Lib.System.run_concat hnil hfirst trivial hstep
    exact Lib.System.run_concat hone hallowed' trivial hstep'
  · obtain ⟨w₂, hremove, rfl⟩ := bind_pure_eq_ok hclose
    change p ∈ w₂.log.removed
    rw [(removed_removeSession hremove).1]
    exact mem_append_right _ (mem_singleton_self p)

/-- **Close requests**: in every run in which no ToCloseList overtakes a `start` that sets its
session to `eNormal`, a session that was to be closed at some time is still to be closed as long as
it lives; as long as it is not closed it is running, has a response on the way, or has its write
event registered or its callback under way; and the callback that finds it drained removes it. -/
theorem close_not_forgotten {w : Server} {closing : Ptr → Bool}
    (h : closingSystem.Reach (fun s a => s.1.StartsFirst a) (w, closing)) :
    (∀ p, closing p = true → w.Live p → w.statusOf p ≠ some .eNormal) ∧
    (∀ p, w.Live p → w.statusOf p ≠ some .eNormal →
      w.runningOf p = true ∨ w.InFlight p ∨ w.writeEvents p = true ∨ w.pc.session = some p) ∧
    ∀ p, w.pc = .closeTest p → w.outOf p = [] → w.statusOf p = some .eExit →
      w.runningOf p = false →
      ∃ w', system.run (fun _ _ => True) [.event true, .event true] w = some w' ∧
        p ∈ w'.log.removed := by
  have hclosed : Closed w closing := by
    refine Lib.System.Reach.record_invariant (S := system) StartsFirst Closed .init ?_ h
    intro w closing a w' hclosed ha hfirst hstep
    exact hclosed.next ha hfirst hstep
  refine ⟨hclosed.stays, fun p hp hst => ?_, fun p => drained_closes hclosed.life⟩
  obtain ⟨s, hs, -⟩ := hclosed.life.deref hp
  have answering : w.Answering p →
      w.runningOf p = true ∨ w.InFlight p ∨ w.writeEvents p = true ∨ w.pc.session = some p :=
    fun hans => hans.imp_right .inl
  cases hstatus : s.status with
  | eNormal => exact absurd ((statusOf_of_heap hs).trans (congrArg some hstatus)) hst
  | eWouldExit =>
    exact answering (hclosed.inv.would p hp ((statusOf_of_heap hs).trans (congrArg some hstatus)))
  | eExit =>
    rcases hclosed.inv.exit p hp ((statusOf_of_heap hs).trans (congrArg some hstatus)) with
      (hans | ⟨r, hpc⟩ | hwrite) | hending
    · exact answering hans
    · exact .inr (.inr (.inr (by rw [hpc]; rfl)))
    · exact .inr (.inr (.inl hwrite))
    · exact .inr (.inr (.inr (EventPc.session_of_ending hending)))

instance (s : Server × (Ptr → Bool)) (a : Action) : Decidable (closingSystem.Allowed s a) :=
  inferInstanceAs (Decidable (s.1.Allowed a))

def timerCloses : List Action :=
  [.post ⟨eTimerKey, eTimerSeq⟩ [] [⟨1024, 0⟩], .onResponse] ++ List.replicate 4 (.event true)

/-- The first session has started and is to be closed. -/
theorem close_not_forgotten_timer : ∃ w closing,
    closingSystem.Reach (fun s a => s.1.StartsFirst a) (w, closing) ∧ closing 0 = true ∧
      w.Live 0 ∧ w.statusOf 0 ≠ some .eNormal := by
  have hrun : (closingSystem.run (fun s a => s.1.StartsFirst a)
      (startedSession ++ timerCloses ++ [.post ⟨eTimerKey, eTimerSeq⟩ [] []])
      closingSystem.init).map (fun s => (s.2 0, s.1.log.removed, s.1.nextPtr)) =
        some (true, [], 1) := by decide +kernel
  obtain ⟨⟨w, closing⟩, hw, hlog⟩ := Option.map_eq_some_iff.mp hrun
  simp only [Prod.mk.injEq] at hlog
  obtain ⟨hclosing, hremoved, hnext⟩ := hlog
  have hreach := Lib.System.Reach.run .init hw
  have hlive : w.Live 0 := ⟨by simp [hnext], by simp [hremoved]⟩
  exact ⟨w, closing, hreach, hclosing, hlive, (close_not_forgotten hreach).1 0 hclosing hlive⟩

/-- A timer asks to close the first session after `SP_Handler::start` has returned and before
`start` sets the status: the session goes on. -/
theorem close_forgotten : ∃ w closing, closingSystem.Reach (fun _ _ => True) (w, closing) ∧
    ∃ p, closing p = true ∧ w.Live p ∧ w.statusOf p = some .eNormal := by
  have hrun : (closingSystem.run (fun _ _ => True)
      ([.onAccept .start, .task 0 .silent] ++ timerCloses ++ [.task 0 .silent])
      closingSystem.init).map (fun s => (s.2 0, s.1.log.removed, s.1.nextPtr, s.1.statusOf 0)) =
        some (true, [], 1, some .eNormal) := by decide +kernel
  obtain ⟨⟨w, closing⟩, hw, hlog⟩ := Option.map_eq_some_iff.mp hrun
  simp only [Prod.mk.injEq] at hlog
  obtain ⟨hclosing, hremoved, hnext, hst⟩ := hlog
  exact ⟨w, closing, Lib.System.Reach.run .init hw, 0, hclosing,
    ⟨by simp [hnext], by simp [hremoved]⟩, hst⟩

end Server

end Spserver
