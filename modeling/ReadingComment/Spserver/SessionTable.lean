import ReadingComment.Spserver.Lifetime

/-!
# The table of sessions

A step of the server starts a session, removes one, or leaves the manager and the
sids alone (`Plain`). So a living session keeps its sid.
-/

namespace Spserver

namespace Server

/-- The step names no session and removes none. -/
structure Plain (w w' : Server) : Prop where
  sid : ∀ p s, w'.sidOf p = some s → w.sidOf p = some s
  nextPtr : w'.nextPtr = w.nextPtr
  removed : w'.log.removed = w.log.removed
  mgr : w'.mgr = w.mgr

namespace Plain

variable {w w' w'' : Server} {p : Ptr}

theorem refl (w : Server) : Plain w w := ⟨fun _ _ h => h, rfl, rfl, rfl⟩

theorem trans (h : Plain w w') (h' : Plain w' w'') : Plain w w'' :=
  ⟨fun p s hs => h.sid p s (h'.sid p s hs), h'.nextPtr.trans h.nextPtr, h'.removed.trans h.removed,
    h'.mgr.trans h.mgr⟩

theorem of_quiet {P : Ptr → Prop} (h : Quiet P w w') : Plain w w' :=
  ⟨fun p s hs => by rwa [← h.sid], h.nextPtr, h.removed, h.mgr⟩

theorem of_eq (h : (w'.heap, w'.nextPtr, w'.log, w'.mgr) = (w.heap, w.nextPtr, w.log, w.mgr)) :
    Plain w w' := by
  simp only [Prod.mk.injEq] at h
  obtain ⟨hheap, hnext, hlog, hmgr⟩ := h
  exact ⟨fun p s hs => by rwa [sidOf, hheap] at hs, hnext, by rw [hlog], hmgr⟩

theorem goto (pc : EventPc) : Plain w (w.goto pc) := of_eq rfl

theorem modify {f : Session → Session} (hf : (fun s => (f s).sid) = fun s => s.sid) :
    Plain w (w.modify p f) :=
  ⟨fun q s hs => by rwa [sidOf_modify (congrFun hf)] at hs, rfl, rfl, rfl⟩

theorem pushTask (t : Task) : Plain w (w.pushTask t) := of_eq rfl

theorem setTask (i : ℕ) (t : Task) : Plain w (w.setTask i t) := of_eq rfl

theorem endTask (i : ℕ) : Plain w (w.endTask i) := of_eq rfl

theorem msgqueuePush (r : Response) : Plain w (w.msgqueuePush r) := of_eq rfl

theorem begin (how : Start) : Plain w (w.begin p how) := by
  cases how with
  | start =>
    refine trans ?_ (pushTask _)
    exact modify rfl
  | wait => exact (of_quiet .addWrite).trans (of_quiet .addRead)
  | refused size =>
    have hmsg : Plain w (w.newMessage size) := of_eq rfl
    refine trans (hmsg.trans ?_) (of_quiet .addWrite)
    exact modify rfl

theorem doWork (s : Session) : Plain w (w.doWork p s) := by
  rw [Server.doWork]
  split_ifs
  · refine trans ?_ (pushTask _)
    exact modify rfl
  · exact refl w

theorem deleteSession : Plain w (w.deleteSession p) := by
  refine ⟨fun q s hs => ?_, rfl, rfl, rfl⟩
  rw [sidOf, Server.deleteSession] at hs
  by_cases hq : q = p
  · subst hq
    simp at hs
  · simpa [hq, sidOf] using hs

end Plain

theorem giveUp_eq_ok {w w' : Server} {p : Ptr} {s : Session} {t : Task}
    (h : giveUp t w p s = .ok w') :
    ∃ w₁ w₂, Quiet (fun _ => False) w w₁ ∧ w₁.pc = w.pc ∧ w₁.removeSession p s.sid = .ok w₂ ∧
      w' = w₂.pushTask t := by
  obtain ⟨w₂, hremove, rfl⟩ := bind_pure_eq_ok h
  refine ⟨_, w₂, ?_, ?_, hremove, rfl⟩
  · have hq := (Quiet.delWrite (P := fun _ => False) (w := w) (p := p)).trans (.delRead (p := p))
    refine (hq.trans (.failAll s.sid s.outList.reverse)).trans ?_
    exact .modify rfl
  · exact pc_failAll _ _

theorem heap_modify_ne {w : Server} {p q : Ptr} {f : Session → Session} (hq : q ≠ p) :
    (w.modify p f).heap q = w.heap q :=
  Function.update_of_ne hq ..

theorem heap_addWrite_ne {w : Server} {p q : Ptr} (hq : q ≠ p) :
    (w.addWrite p).heap q = w.heap q := by
  rw [addWrite]
  split
  · split_ifs
    · rfl
    · exact heap_modify_ne hq
  · rfl

theorem heap_noteReply {w : Server} {p : Ptr} (request : Option (Ptr × ℕ)) :
    (w.noteReply p request).heap = w.heap := by
  unfold noteReply
  split
  · split_ifs <;> rfl
  · rfl

theorem Life.key_ge {w : Server} (h : Life w) {k : ℕ} {p : Ptr}
    (hk : (w.mgr.entry k).session = some p) : eColPerRow ≤ k := by
  obtain ⟨rows, free, live, hinv⟩ := h.mgr
  have hmem := List.mem_map_of_mem (f := Prod.fst) ((hinv.session k p).mp hk)
  have hrange := hinv.keys.mem_iff.mp (List.mem_append_right _ (List.mem_append_right _ hmem))
  exact (List.mem_range'_1.mp hrange).1

theorem Life.isSystemSid_eq {w : Server} (h : Life w) {p : Ptr} (hp : w.Live p) {sid : Sid}
    (hsid : w.sidOf p = some sid) : isSystemSid sid = false := by
  obtain ⟨k, hk⟩ := h.registered p hp
  obtain rfl := Option.some.inj (hsid.symm.trans ((h.session k p).mp hk).2)
  have hkey := h.key_ge hk
  rw [eColPerRow] at hkey
  refine decide_eq_false ?_
  simp only [eTimerKey, ePushKey]
  omega

theorem removed_removeSession {w w' : Server} {p : Ptr} {sid : Sid}
    (h : w.removeSession p sid = .ok w') :
    w'.log.removed = w.log.removed ++ [p] ∧ w'.heap = w.heap ∧ w'.nextPtr = w.nextPtr := by
  rw [removeSession] at h
  split at h
  · cases h
    exact ⟨rfl, rfl, rfl⟩
  · cases h

/-- What a step does to the table of sessions. -/
inductive Turn (w : Server) (a : Action) (w' : Server) : Prop where
  | plain (hplain : Plain w w') (hname : ∀ how, a ≠ .onAccept how)
  | born {how : Start} (ha : a = .onAccept how) (hw : w.onAccept how = .ok w')
  | gone {p : Ptr} {s : Session} {w₁ w₂ : Server} (hname : ∀ how, a ≠ .onAccept how)
    (hp : w.Live p) (hs : w.heap p = some s) (hlife : Life w₁)
    (hquiet : Quiet (fun _ => False) w w₁) (hremove : w₁.removeSession p s.sid = .ok w₂)
    (hplain : Plain w₂ w')

section

variable {w w' : Server} {p : Ptr}

theorem Turn.giveUp (hlife : Life w) (hp : w.Live p) {s : Session} (hs : w.heap p = some s)
    {t : Task} (hw : giveUp t w p s = .ok w') (ok : Bool) :
    Turn w (.event ok) (w'.goto .idle) := by
  obtain ⟨w₁, w₂, hquiet, hpc, hremove, rfl⟩ := giveUp_eq_ok hw
  have hlife₁ : Life w₁ :=
    hlife.quiet hquiet (fun _ hf => hf.elim) (hpc ▸ hlife.pc) (hpc ▸ hlife.works)
  exact .gone nofun hp hs hlife₁ hquiet hremove ((Plain.pushTask t).trans (.goto _))

theorem Turn.doClose (hlife : Life w) (hp : w.Live p) {s : Session} (hs : w.heap p = some s)
    (hw : w.doClose p s = .ok w') (ok : Bool) : Turn w (.event ok) (w'.goto .idle) := by
  have hquiet : Quiet (fun _ => False) w ((w.delWrite p).delRead p) :=
    Quiet.delWrite.trans .delRead
  obtain ⟨w₂, hremove, rfl⟩ := bind_pure_eq_ok hw
  have hlife₁ := hlife.quiet hquiet (fun _ hf => hf.elim) hlife.pc hlife.works
  exact .gone nofun hp hs hlife₁ hquiet hremove ((Plain.pushTask _).trans (.goto _))

variable {a : Action}

section

variable (hlife : Life w) (ha : w.Allowed a) (hstep : w.step a = .ok w')

include hlife ha hstep

/-- **Inversion**: a step starts a session, removes one, or leaves the table alone. -/
theorem turn :
    Turn w a w' := by
  have live : ∀ {pc : EventPc} {p : Ptr}, w.pc = pc → pc.session = some p → w.Live p :=
    fun hpc hp => hlife.pc _ (hpc ▸ hp)
  cases step_cases ha hstep with
  | accept => exact .born rfl hstep
  | read hs => exact .plain (.of_quiet (.onRead _)) nofun
  | write hs => exact .plain (.of_quiet (.onWrite _ _)) nofun
  | response hr | dropSid hpc => exact .plain (.of_eq rfl) nofun
  | decode hs hpc => exact .plain (.of_quiet (.decode (P := fun _ => False) _ _ _ _)) nofun
  | work hs hpc => exact .plain ((Plain.doWork _).trans (.goto _)) nofun
  | tail hs hpc => exact .plain ((Plain.of_quiet .addRead).trans (.goto _)) nofun
  | busy hs hr hpc => exact .plain (.goto _) nofun
  | giveUp hs hr hpc hw =>
    rename_i ok p s t w₁
    have hp : w.Live p := by
      rcases hpc with ⟨hpc, -⟩ | ⟨hpc, -⟩
      · exact live hpc rfl
      · exact live hpc rfl
    exact .giveUp hlife hp hs hw ok
  | close hs hr hpc hw => exact .doClose hlife (live hpc rfl) hs hw _
  | closeTest hs hpc => exact .plain (.goto _) nofun
  | noSender hpc => exact .plain (.goto _) nofun
  | sender hpc hl hs =>
    refine .plain (Plain.trans ?_ (.goto _)) nofun
    split_ifs
    · exact .modify rfl
    · exact .refl w
  | respEvents hpc hs => exact .plain (.of_quiet (.respEvents _ _)) nofun
  | respMessages hpc => exact .plain (.of_quiet (.respMessages (P := fun _ => False) _)) nofun
  | sidsDone hpc =>
    refine .plain (Plain.trans ?_ (.goto _)) nofun
    split_ifs
    · exact .of_eq rfl
    · exact .refl w
  | append hpc hl hs => exact .plain ((Plain.of_quiet (.append _ _)).trans (.goto _)) nofun
  | responded hpc => exact .plain (.goto _) nofun
  | noClose hpc hr => exact .plain (.goto _) nofun
  | toClose hpc hr hl hs =>
    refine .plain (Plain.trans (Plain.trans ?_ (.of_quiet .addWrite)) (.goto _)) nofun
    exact .modify rfl
  | advance ht hsame => exact .plain (.setTask _ _) nofun
  | status ht hs hsame | clear ht =>
    refine .plain (Plain.trans ?_ (.setTask _ _)) nofun
    exact .modify rfl
  | push ht => exact .plain ((Plain.msgqueuePush _).trans (.endTask _)) nofun
  | pushLast ht => exact .plain ((Plain.msgqueuePush _).trans (.setTask _ _)) nofun
  | delete ht => exact .plain ((Plain.endTask _).trans .deleteSession) nofun
  | post => exact .plain (.msgqueuePush _) nofun

theorem live_step (hp' : w'.Live p) :
    w.Live p ∧ w'.sidOf p = w.sidOf p ∨ p = w.nextPtr ∧ ∃ how, a = .onAccept how := by
  obtain ⟨s, hs, -⟩ := (hlife.next ha hstep).deref hp'
  have hsid := sidOf_of_heap hs
  -- a session that was in memory and was not removed lived
  have old : w.sidOf p = some s.sid → p ∉ w.log.removed →
      w.Live p ∧ w'.sidOf p = w.sidOf p :=
    fun hold hrem => ⟨⟨((hlife.heap p).mp (by rw [hold]; rfl)).1, hrem⟩, hsid.trans hold.symm⟩
  cases turn hlife ha hstep with
  | plain hplain => exact .inl (old (hplain.sid p _ hsid) (hplain.removed ▸ hp'.2))
  | born hacc hw =>
    rename_i how
    by_cases hnew : p = w.nextPtr
    · exact .inr ⟨hnew, how, hacc⟩
    · subst hacc
      rcases hlife.onAccept ha how with herr | ⟨m, key, seq, hok, -⟩
      · rw [hw] at herr
        cases herr
      · obtain rfl := Except.ok.inj (hw.symm.trans hok)
        have hplain := Plain.begin (w := w.newSession m ⟨key, seq⟩) (p := w.nextPtr) how
        refine .inl (old ?_ (hplain.removed ▸ hp'.2))
        simpa [sidOf, newSession, hnew] using hplain.sid p _ hsid
  | gone _ _ _ _ hquiet hremove hplain =>
    obtain ⟨hremoved, hheap, -⟩ := removed_removeSession hremove
    have hold := hplain.sid p _ hsid
    rw [sidOf, hheap] at hold
    refine .inl (old (hquiet.sid ▸ hold) fun hrem => hp'.2 ?_)
    rw [hplain.removed, hremoved, hquiet.removed]
    exact List.mem_append_left _ hrem

theorem nextPtr_step :
    w.nextPtr ≤ w'.nextPtr := by
  cases turn hlife ha hstep with
  | plain hplain => exact hplain.nextPtr.ge
  | born hacc hw =>
    rename_i how
    subst hacc
    rcases hlife.onAccept ha how with herr | ⟨m, key, seq, hok, -⟩
    · rw [hw] at herr
      cases herr
    · obtain rfl := Except.ok.inj (hw.symm.trans hok)
      have hplain := Plain.begin (w := w.newSession m ⟨key, seq⟩) (p := w.nextPtr) how
      rw [hplain.nextPtr]
      exact Nat.le_succ _
  | gone _ _ _ _ hquiet hremove hplain =>
    rw [hplain.nextPtr, (removed_removeSession hremove).2.2, hquiet.nextPtr]

theorem sidOf_step (hp : w.Live p) (hp' : w'.Live p) : w'.sidOf p = w.sidOf p := by
  rcases live_step hlife ha hstep hp' with ⟨-, hsid⟩ | ⟨rfl, -⟩
  · exact hsid
  · exact absurd hp.1 (Nat.lt_irrefl _)

end

end

end Server

end Spserver
