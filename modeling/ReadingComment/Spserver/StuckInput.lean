import ReadingComment.Spserver.CloseRequests
import ReadingComment.Spserver.DotTerm

/-!
# Input that waits in the buffer

The decoder is asked for a request when input arrives and when output was written,
but only while the session is not running. A request that is already in the input
buffer is not lost: as long as the decoder has not been asked for it the session is
attended, or one of its callbacks is under way. So when the server has come to rest
the write event of the session is registered, and its callback finds the request.
-/

namespace Spserver

open Function

/-- An `SP_MsgDecoder` with the state `δ`: `decode` says whether it is `eOK`, and what it leaves of
the state and of the input buffer. -/
structure MsgDecoder (δ : Type) where
  /-- the decoder of a new `SP_Request` -/
  new : δ
  decode : δ → List UInt8 → Bool × δ × List UInt8
  /-- `eMoreData` is an answer for good: without more input the answer is the same -/
  again : ∀ d b, (decode d b).1 = false → (decode (decode d b).2.1 (decode d b).2.2).1 = false

/-- The decoder and the input buffer of a session. -/
structure Input (δ : Type) where
  decoder : δ
  inBuffer : List UInt8

namespace MsgDecoder

variable {δ : Type} (c : MsgDecoder δ)

/-- `decode( session->getInBuffer() )`. -/
def asked (x : Input δ) : Bool := (c.decode x.decoder x.inBuffer).1

/-- What `decode` leaves. -/
def left (x : Input δ) : Input δ :=
  ⟨(c.decode x.decoder x.inBuffer).2.1, (c.decode x.decoder x.inBuffer).2.2⟩

/-- The input buffer holds a request for which the decoder was not asked. -/
def Holds (x : Input δ) : Prop := x.inBuffer ≠ [] ∧ c.asked x = true

instance (x : Input δ) : Decidable (c.Holds x) := inferInstanceAs (Decidable (_ ∧ _))

theorem not_holds_left {x : Input δ} (h : c.asked x = false) : ¬ c.Holds (c.left x) := by
  rintro ⟨-, hleft⟩
  rw [asked, left, c.again _ _ h] at hleft
  cases hleft

/-- `SP_DefaultMsgDecoder`: what is there is the request. -/
def default : MsgDecoder (List UInt8) where
  new := []
  decode mBuffer inBuffer :=
    if 0 < inBuffer.length then (true, inBuffer, []) else (false, mBuffer, inBuffer)
  again mBuffer inBuffer h := by
    by_cases hlen : 0 < inBuffer.length
    · rw [if_pos hlen] at h
      cases h
    · simp [hlen]

/-- `SP_DotTermMsgDecoder`, without the text of the message; `atPos` is what `pos` points to when
the message was copied. -/
def dotTerm (atPos : Lib.Bytes → Lib.Bytes) : MsgDecoder Unit where
  new := ()
  decode _ inBuffer :=
    match DotTerm.findTerm inBuffer with
    | some pos => (true, (), inBuffer.drop (pos + DotTerm.termLength (atPos inBuffer)))
    | none => (false, (), inBuffer)
  again _ inBuffer h := by
    cases hfind : DotTerm.findTerm inBuffer with
    | some pos => simp [hfind] at h
    | none => simp [hfind]

end MsgDecoder

/-- An action with the bytes that `receive` gives, and the decoder that a handler leaves. -/
structure Feeding (δ : Type) where
  action : Server.Action
  bytes : List UInt8
  decoder : δ

def MsgDecoder.noInput {δ : Type} (c : MsgDecoder δ) (a : Server.Action) : Feeding δ :=
  ⟨a, [], c.new⟩

/-- The event thread is about to look at the running flag and to ask the decoder. -/
def EventPc.asks : EventPc → Option Ptr
  | .readRun p | .writeRun p => some p
  | _ => none

/-- A callback of the session is under way, and it is not past the decoder. -/
def EventPc.Decides (pc : EventPc) (p : Ptr) : Prop :=
  pc.ending = some p ∨ pc.asks = some p ∨ pc.works = some p

namespace Server

variable {δ : Type}

def fed (w : Server) (c : MsgDecoder δ) (f : Feeding δ) (input : Ptr → Input δ) : Ptr → Input δ :=
  match f.action with
  | .onAccept _ => Function.update input w.nextPtr ⟨c.new, []⟩
  | .onRead p .received =>
    Function.update input p { input p with inBuffer := (input p).inBuffer ++ f.bytes }
  | .event _ =>
    match w.pc.asks, w.pc.works with
    | some p, _ => if w.runningOf p then input else Function.update input p (c.left (input p))
    | none, some p =>
      -- input of a session that is about to exit is dropped
      if w.statusOf p = some .eNormal then input
      else Function.update input p { input p with inBuffer := [] }
    | none, none => input
  | .task i _ =>
    match w.tasks[i]? with
    | some (.worker p _) | some (.start p) =>
      Function.update input p { input p with decoder := f.decoder }
    | _ => input
  | _ => input

/-- Bytes come with `onRead`, and the decoder is asked about the input of the session. -/
def Agrees (w : Server) (c : MsgDecoder δ) (input : Ptr → Input δ) (f : Feeding δ) : Prop :=
  match f.action with
  | .onRead _ .received => f.bytes ≠ []
  | .event ok => (w.pc.asks.all fun p => w.runningOf p || c.asked (input p) == ok) = true
  | _ => True

def inputSystem (c : MsgDecoder δ) : Lib.System (Server × (Ptr → Input δ)) (Feeding δ) Fault where
  init := (Server.init, fun _ => ⟨c.new, []⟩)
  Allowed s f := s.1.Allowed f.action ∧ s.1.Agrees c s.2 f
  step s f := (s.1.step f.action).map (·, s.1.fed c f s.2)

instance (w : Server) (c : MsgDecoder δ) (input : Ptr → Input δ) :
    ∀ f, Decidable (w.Agrees c input f)
  | ⟨.onRead _ .received, _, _⟩ => inferInstanceAs (Decidable (_ ≠ _))
  | ⟨.onRead _ .again, _, _⟩ => inferInstanceAs (Decidable True)
  | ⟨.onRead _ .failed, _, _⟩ => inferInstanceAs (Decidable True)
  | ⟨.onRead _ .timeout, _, _⟩ => inferInstanceAs (Decidable True)
  | ⟨.event _, _, _⟩ => inferInstanceAs (Decidable (_ = true))
  | ⟨.onAccept _, _, _⟩ => inferInstanceAs (Decidable True)
  | ⟨.onWrite _ _, _, _⟩ => inferInstanceAs (Decidable True)
  | ⟨.onResponse, _, _⟩ => inferInstanceAs (Decidable True)
  | ⟨.task _ _, _, _⟩ => inferInstanceAs (Decidable True)
  | ⟨.post _ _ _, _, _⟩ => inferInstanceAs (Decidable True)

instance (c : MsgDecoder δ) (s : Server × (Ptr → Input δ)) (f : Feeding δ) :
    Decidable ((inputSystem c).Allowed s f) :=
  inferInstanceAs (Decidable (s.1.Allowed f.action ∧ s.1.Agrees c s.2 f))

section

variable {w w' : Server} {p : Ptr} {c : MsgDecoder δ} {input : Ptr → Input δ} {f : Feeding δ}

theorem fed_cases (hp : p ≠ w.nextPtr)
    (hdecoder : ∀ ok, f.action = .event ok → w.pc.asks ≠ some p ∧ w.pc.works ≠ some p) :
    w.fed c f input p = input p ∨ f.action = .onRead p .received ∨
      ∃ i o t, f.action = .task i o ∧ w.tasks[i]? = some t ∧ t.runs p = true := by
  have elsewhere : ∀ {q : Ptr} (x : Input δ), p ≠ q → update input q x p = input p :=
    fun x hq => update_of_ne hq ..
  rw [fed]
  cases haction : f.action with
  | onAccept how => exact .inl (elsewhere _ hp)
  | onRead q ev =>
    cases ev with
    | received =>
      by_cases hq : p = q
      · exact .inr (.inl (by rw [hq]))
      · exact .inl (elsewhere _ hq)
    | again | failed | timeout => exact .inl rfl
  | event ok =>
    obtain ⟨hasks, hworks⟩ := hdecoder ok haction
    left
    rcases ha : w.pc.asks with _ | q
    · rcases hw : w.pc.works with _ | q
      · rfl
      · simp only
        split_ifs
        · rfl
        · exact elsewhere _ fun hq => hworks (by rw [hw, hq])
    · simp only
      split_ifs
      · rfl
      · exact elsewhere _ fun hq => hasks (by rw [ha, hq])
  | task i o =>
    have called : ∀ {q : Ptr} {t : Task}, w.tasks[i]? = some t → t.runs q = true →
        (∀ x : Input δ, update input q x p = input p) ∨
          ∃ t, w.tasks[i]? = some t ∧ t.runs p = true := by
      intro q t ht hruns
      by_cases hq : p = q
      · exact .inr ⟨t, ht, hq ▸ hruns⟩
      · exact .inl fun x => elsewhere x hq
    cases ht : w.tasks[i]? with
    | none =>
      left
      simp only [ht]
    | some t =>
      cases t with
      | worker q n | start q =>
        simp only [ht]
        rcases called (q := q) ht (by simp [Task.runs]) with hsame | ⟨t, ht', hruns⟩
        · exact .inl (hsame _)
        · exact .inr (.inr ⟨i, o, t, rfl, ht ▸ ht', hruns⟩)
      | handled | started | clear | push | error | timeout | pushLast | myclose | delete =>
        left
        simp only [ht]
  | onWrite q ev | onResponse | post sid messages toCloseList => exact .inl rfl

variable {ok : Bool}

/-- **The decoder**: it is asked unless the session is running. -/
theorem asks_next (hpc : w.pc.asks = some p) (hstep : w.eventStep ok = .ok w') :
    w'.runningOf p = true ∨ w.runningOf p = false ∧ (ok = true → w'.pc.works = some p) := by
  have hdecode : ∀ {s : Session} {work skip : EventPc}, w.heap p = some s →
      work.works = some p → (w.decode p s ok work skip).runningOf p = true ∨
        w.runningOf p = false ∧ (ok = true → (w.decode p s ok work skip).pc.works = some p) := by
    intro s work skip hs hwork
    by_cases hrun : s.running = true
    · exact .inl ((Keeps.decode s ok work skip).running ((runningOf_of_heap hs).trans hrun))
    · refine .inr ⟨(runningOf_of_heap hs).trans (by simpa using hrun), fun hok => ?_⟩
      rw [decode, if_neg hrun, if_pos hok]
      exact hwork
  rw [eventStep] at hstep
  split at hstep
  all_goals rename_i hpc'; rw [hpc'] at hpc
  all_goals try cases hpc
  all_goals
    obtain ⟨s, hs, hstep⟩ := deref_bind_eq_ok hstep
    cases hstep
    exact hdecode hs rfl

theorem works_next (hpc : w.pc.works = some p) (hstep : w.eventStep ok = .ok w') :
    w'.runningOf p = true ∨ w.statusOf p ≠ some .eNormal := by
  have hwork : ∀ {s : Session} (pc : EventPc), w.heap p = some s →
      ((w.doWork p s).goto pc).runningOf p = true ∨ w.statusOf p ≠ some .eNormal := by
    intro s pc hs
    by_cases hst : s.status = .eNormal
    · left
      rw [doWork, if_pos hst]
      simp [runningOf, goto, pushTask, modify, hs]
    · exact .inr fun h => hst (Option.some.inj ((statusOf_of_heap hs).symm.trans h))
  rw [eventStep] at hstep
  split at hstep
  all_goals rename_i hpc'; rw [hpc'] at hpc
  all_goals try cases hpc
  all_goals
    obtain ⟨s, hs, hstep⟩ := deref_bind_eq_ok hstep
    cases hstep
    exact hwork _ hs

theorem fed_asks (haction : f.action = .event ok) (hpc : w.pc.asks = some p)
    (hrun : w.runningOf p = false) : w.fed c f input p = c.left (input p) := by
  rw [fed, haction]
  simp only [hpc, hrun]
  exact update_self ..

theorem fed_works (haction : f.action = .event ok) (hpc : w.pc.works = some p)
    (hst : w.statusOf p ≠ some .eNormal) : (w.fed c f input p).inBuffer = [] := by
  have hasks : w.pc.asks = none := by
    cases h : w.pc <;> rw [h] at hpc <;> first | rfl | cases hpc
  rw [fed, haction]
  simp only [hasks, hpc, if_neg hst, update_self]

/-- **The input invariant**: a session whose input buffer holds a request is attended, or a callback
of it will come to the decoder. -/
def NotStuck (w : Server) (c : MsgDecoder δ) (input : Ptr → Input δ) : Prop :=
  ∀ p, w.Live p → c.Holds (input p) → w.Attended p ∨ w.pc.Decides p

theorem looked_after (hsync : Synced w) (hlife : Life w) {a : Action} (ha : w.Allowed a)
    (hstep : w.step a = .ok w') (hp : w.Live p) (hp' : w'.Live p)
    (h : w.Attended p ∨ w.pc.Decides p) :
    w'.Attended p ∨ w'.pc.Decides p ∨ ∃ ok, a = .event ok ∧
      (w.pc.asks = some p ∧ w.runningOf p = false ∧ ok = false ∨
        w.pc.works = some p ∧ w.statusOf p ≠ some .eNormal) := by
  rcases h with hatt | hdecides
  · rcases hatt.step hsync hlife ha hstep hp hp' with hatt' | ⟨ev, rfl⟩
    · exact .inl hatt'
    · -- the callback of the write event comes to the test, or gives the session up
      obtain ⟨s, hs, hstep⟩ := deref_bind_eq_ok hstep
      cases hstep
      rcases onWrite_pc (w := w) (p := p) s ev with hpc | hpc | hpc
      all_goals exact .inr (.inl (.inl (by rw [hpc]; rfl)))
  · have hidle : w.pc ≠ .idle := by
      intro hidle
      rw [hidle] at hdecides
      rcases hdecides with h | h | h <;> cases h
    rcases pc_step hsync hlife ha hstep hidle with ⟨ok, rfl⟩ | hpc
    · rcases hdecides with hending | hasks | hworks
      · rcases ending_next hending hstep hp' with hrun | ⟨-, -, hpc | ⟨hpc, -⟩⟩
        · exact .inl (.inl (.inl hrun))
        · exact .inr (.inl (.inl (by rw [hpc]; rfl)))
        · exact .inr (.inl (.inr (.inl (by rw [hpc]; rfl))))
      · rcases asks_next hasks hstep with hrun | ⟨hrun, hok⟩
        · exact .inl (.inl (.inl hrun))
        · cases ok with
          | true => exact .inr (.inl (.inr (.inr (hok rfl))))
          | false => exact .inr (.inr ⟨false, rfl, .inl ⟨hasks, hrun, rfl⟩⟩)
      · rcases works_next hworks hstep with hrun | hst
        · exact .inl (.inl (.inl hrun))
        · exact .inr (.inr ⟨ok, rfl, .inr ⟨hworks, hst⟩⟩)
    · exact .inr (.inl (by rwa [EventPc.Decides, hpc]))

/-- **Step lemma**. -/
theorem NotStuck.next (h : NotStuck w c input) (hsync : Synced w) (hlife : Life w)
    (ha : w.Allowed f.action) (hagrees : w.Agrees c input f) (hstep : w.step f.action = .ok w') :
    NotStuck w' c (w.fed c f input) := by
  intro p hp' hholds
  rcases live_step hlife ha hstep hp' with ⟨hp, -⟩ | ⟨rfl, how, haction⟩
  swap
  · -- a new session has no input
    have hnew : w.fed c f input w.nextPtr = ⟨c.new, []⟩ := by
      rw [fed, haction]
      exact update_self ..
    rw [hnew] at hholds
    exact absurd rfl hholds.1
  -- the decoder was asked in vain, or the input was dropped
  have spent : ∀ ok, f.action = .event ok →
      w.pc.asks = some p ∧ w.runningOf p = false ∧ ok = false ∨
        w.pc.works = some p ∧ w.statusOf p ≠ some .eNormal → False := by
    rintro ok haction (⟨hasks, hrun, rfl⟩ | ⟨hworks, hst⟩)
    · rw [fed_asks haction hasks hrun] at hholds
      rw [Agrees, haction] at hagrees
      simp only [hasks, hrun, Option.all_some, Bool.false_or] at hagrees
      exact c.not_holds_left (by simpa using hagrees) hholds
    · exact hholds.1 (fed_works haction hworks hst)
  by_cases hdecoder : ∀ ok, f.action = .event ok → w.pc.asks ≠ some p ∧ w.pc.works ≠ some p
  · have hcases : w.fed c f input p = input p ∨ _ := fed_cases (Nat.ne_of_lt hp.1) hdecoder
    rcases hcases with hsame | hread | ⟨i, o, t, htask, ht, hruns⟩
    · rw [hsame] at hholds
      rcases looked_after hsync hlife ha hstep hp hp' (h p hp hholds) with
        hatt | hdecides | ⟨ok, haction, hspent⟩
      · exact .inl hatt
      · exact .inr hdecides
      · exact (spent ok haction hspent).elim
    · rw [hread] at hstep
      obtain ⟨s, hs, hstep⟩ := deref_bind_eq_ok hstep
      cases hstep
      exact .inr (.inr (.inl rfl))
    · -- a session whose handler is called is running
      rw [htask] at ha hstep
      have hrun := hlife.running_of_runs ht hruns
      have htends := (taskTurn hstep ha).tends (p := p) hlife hsync.answers
      rcases htends.running hrun hp' with hrun' | ⟨r, hr, hfrom⟩
      · exact .inl (.inl (.inl hrun'))
      · exact .inl (.inl (.inr (.inl ⟨r, hr, (sidOf_step hlife ha hstep hp hp').trans hfrom⟩)))
  · -- the decoder is asked, or its request is given to a worker
    simp only [not_forall] at hdecoder
    obtain ⟨ok, haction, hdecoder⟩ := hdecoder
    have hdecides : w.pc.Decides p := by
      by_cases hasks : w.pc.asks = some p
      · exact .inr (.inl hasks)
      · exact .inr (.inr (by_contra fun hworks => hdecoder ⟨hasks, hworks⟩))
    rcases looked_after hsync hlife ha hstep hp hp' (.inr hdecides) with
      hatt | hdecides' | ⟨ok', haction', hspent⟩
    · exact .inl hatt
    · exact .inr hdecides'
    · exact (spent ok' haction' hspent).elim

theorem reach_notStuck {ok : Server × (Ptr → Input δ) → Feeding δ → Prop}
    (h : (inputSystem c).Reach ok (w, input)) : Life w ∧ Synced w ∧ NotStuck w c input := by
  have hinv : ∀ s, (inputSystem c).Reach ok s → Life s.1 ∧ Synced s.1 ∧ NotStuck s.1 c s.2 := by
    intro s hs
    apply Lib.System.Reach.invariant ?_ ?_ hs
    · exact ⟨.init, .init, fun p hp => absurd hp.1 (Nat.not_lt_zero p)⟩
    · rintro ⟨w, input⟩ f s' ⟨hlife, hsync, hinput⟩ ⟨ha, hagrees⟩ - hstep
      change (w.step f.action).map _ = _ at hstep
      cases hw : w.step f.action with
      | error e =>
        rw [hw] at hstep
        cases hstep
      | ok w' =>
        rw [hw] at hstep
        cases hstep
        exact ⟨hlife.next ha hw, hsync.next hlife ha hw, hinput.next hsync hlife ha hagrees hw⟩
  exact hinv _ h

/-! ## The callback of the write event -/

theorem onWrite_ready_pc (s : Session) (lens : List ℤ) (again : Bool) :
    (w.onWrite p s (.ready lens again)).pc = .closeTest p ∨
      (w.onWrite p s (.ready lens again)).pc = .error p := by
  simp only [onWrite]
  split_ifs
  · exact .inl rfl
  · simp only [transmitted]
    split_ifs <;> first | exact .inl rfl | exact .inr rfl

theorem inputSystem_step (h : w.step f.action = .ok w') :
    (inputSystem c).step (w, input) f = .ok (w', w.fed c f input) := by
  change (w.step f.action).map _ = _
  rw [h]
  rfl

/-- The steps of `onWrite` for a session that goes on. -/
def writeTurn (c : MsgDecoder δ) (p : Ptr) (lens : List ℤ) (again : Bool) : List (Feeding δ) :=
  [c.noInput (.onWrite p (.ready lens again)), c.noInput (.event true), c.noInput (.event true),
    c.noInput (.event true)]

theorem picked_up (hlife : Life w) (hpc : w.pc = .idle) (hp : w.Live p)
    (hwrite : w.writeEvents p = true) (hst : w.statusOf p = some .eNormal)
    (hrun : w.runningOf p = false) (hholds : c.Holds (input p)) {lens : List ℤ} {again : Bool}
    (hok : ∀ s, w.heap p = some s → (w.onWrite p s (.ready lens again)).pc ≠ .error p) :
    ∃ s', (inputSystem c).run (fun _ _ => True) (writeTurn c p lens again) (w, input) = some s' ∧
      s'.1.tasks = w.tasks ++ [.worker p (w.log.decoded p + 1)] ∧
      s'.1.log.decoded p = w.log.decoded p + 1 := by
  obtain ⟨s, hs, hderef⟩ := hlife.deref hp
  set w₁ := w.onWrite p s (.ready lens again) with hw₁
  have hpc₁ : w₁.pc = .closeTest p := (onWrite_ready_pc s lens again).resolve_right (hok s hs)
  have hstep₁ : w.step (.onWrite p (.ready lens again)) = .ok w₁ := by
    simp only [step, hderef]
    rfl
  have hlife₁ := hlife.next (a := .onWrite p (.ready lens again)) ⟨hpc, hwrite⟩ hstep₁
  obtain ⟨s₁, hs₁, hderef₁⟩ := hlife₁.deref (hlife₁.pc p (by rw [hpc₁]; rfl))
  have hst₁ : s₁.status = .eNormal := by
    have := statusOf_onWrite (w := w) (p := p) (q := p) s (.ready lens again)
    rw [← hw₁, statusOf_of_heap hs₁, hst] at this
    exact Option.some.inj this
  have hrun₁ : w₁.runningOf p = false := by rw [(Quiet.onWrite s _).running, hrun]
  have hrun₁' : s₁.running = false := (runningOf_of_heap hs₁).symm.trans hrun₁
  -- the session is not to be closed
  set w₂ := w₁.goto (.writeRun p) with hw₂
  have hstep₂ : w₁.step (.event true) = .ok w₂ := by
    change w₁.eventStep true = _
    simp only [eventStep, hpc₁, hderef₁]
    have htest : ¬ (s₁.outList = [] ∧ s₁.status = .eExit) := by simp [hst₁]
    exact congrArg (fun pc => Except.ok (w₁.goto pc)) (if_neg htest)
  -- the decoder has the request
  set w₃ := { w₂ with log := { w₂.log with
    decoded := update w₂.log.decoded p (w₂.log.decoded p + 1) } }.goto (.writeWork p)
    with hw₃
  have hstep₃ : w₂.step (.event true) = .ok w₃ := by
    have hpc₂ : w₂.pc = .writeRun p := rfl
    have hderef₂ : w₂.deref p = .ok s₁ := hderef₁
    change w₂.eventStep true = _
    simp only [eventStep, hpc₂, hderef₂]
    change Except.ok (w₂.decode p s₁ true (.writeWork p) .idle) = _
    rw [decode, if_neg (by simp [hrun₁']), if_pos rfl]
  have hstep₄ : w₃.step (.event true) = .ok ((w₃.doWork p s₁).goto .idle) := by
    have hpc₃ : w₃.pc = .writeWork p := rfl
    have hderef₃ : w₃.deref p = .ok s₁ := hderef₁
    change w₃.eventStep true = _
    simp only [eventStep, hpc₃, hderef₃]
    rfl
  have hrun₀ : (inputSystem c).run (fun _ _ => True) [] (w, input) = some (w, input) := rfl
  have h₁ := Lib.System.run_concat hrun₀ (a := c.noInput (.onWrite p (.ready lens again)))
    ⟨⟨hpc, hwrite⟩, trivial⟩ trivial (inputSystem_step hstep₁)
  have hinput₁ : w.fed c (c.noInput (.onWrite p (.ready lens again))) input = input := rfl
  rw [hinput₁] at h₁
  have h₂ := Lib.System.run_concat h₁ (a := c.noInput (.event true))
    ⟨by change w₁.pc ≠ _; rw [hpc₁]; rintro ⟨⟩, by simp [Agrees, MsgDecoder.noInput, hpc₁,
      EventPc.asks]⟩
    trivial (inputSystem_step hstep₂)
  have hinput₂ : w₁.fed c (c.noInput (.event true)) input = input := by
    simp [fed, MsgDecoder.noInput, hpc₁, EventPc.asks, EventPc.works]
  rw [hinput₂] at h₂
  have hagrees₃ : w₂.Agrees c input (c.noInput (.event true)) := by
    change (Option.all _ (some p)) = true
    simp [hholds.2]
  have h₃ := Lib.System.run_concat h₂ (a := c.noInput (.event true))
    ⟨by change EventPc.writeRun p ≠ _; rintro ⟨⟩, hagrees₃⟩ trivial (inputSystem_step hstep₃)
  have h₄ := Lib.System.run_concat h₃ (a := c.noInput (.event true))
    ⟨by change EventPc.writeWork p ≠ _; rintro ⟨⟩, rfl⟩ trivial (inputSystem_step hstep₄)
  have hdecoded : w₃.log.decoded p = w.log.decoded p + 1 := by
    have hlog : w₁.log = w.log := log_onWrite s _
    refine (update_self ..).trans ?_
    change w₁.log.decoded p + 1 = _
    rw [hlog]
  have htasks : w₃.tasks = w.tasks := (Quiet.onWrite s (.ready lens again)).tasks
  refine ⟨_, h₄, ?_, ?_⟩
  · rw [doWork, if_pos hst₁]
    change w₃.tasks ++ [.worker p (w₃.log.decoded p)] = _
    rw [htasks, hdecoded]
  · rw [doWork, if_pos hst₁]
    exact hdecoded

end

/-- **No stuck input**: as long as the input buffer of a living session holds a request for which
the decoder was not asked, the session is running, or a response of it is on the way (about to be
pushed, queued, or in the hands of `onResponse`), or its write event is registered, or a callback of
the session is under way; and when the event thread is free and nothing of this is so but the write
event, the callback of this event gives the request to a worker, unless the write fails. -/
theorem no_stuck_input {c : MsgDecoder δ} {w : Server} {input : Ptr → Input δ}
    (h : (inputSystem c).Reach (fun _ _ => True) (w, input)) {p : Ptr} (hp : w.Live p)
    (hholds : c.Holds (input p)) :
    (w.runningOf p = true ∨ (∃ r ∈ w.responses, w.sidOf p = some r.fromSid) ∨
      w.writeEvents p = true ∨ (∃ r, .push r ∈ w.tasks ∧ w.sidOf p = some r.fromSid) ∨
      (∃ r, w.pc = .respFrom r ∧ w.sidOf p = some r.fromSid) ∨ (∃ r, w.pc = .respEvents r p) ∨
      w.pc.Decides p) ∧
    (w.pc = .idle → w.statusOf p = some .eNormal → w.runningOf p = false → ¬ w.InFlight p →
      w.writeEvents p = true ∧ ∀ lens again,
        (∀ s, w.heap p = some s → (w.onWrite p s (.ready lens again)).pc ≠ .error p) →
        ∃ s', (inputSystem c).run (fun _ _ => True) (writeTurn c p lens again) (w, input) =
          some s' ∧
          s'.1.tasks = w.tasks ++ [.worker p (w.log.decoded p + 1)] ∧
          s'.1.log.decoded p = w.log.decoded p + 1) := by
  obtain ⟨hlife, -, hinput⟩ := reach_notStuck h
  have hlooked := hinput p hp hholds
  refine ⟨?_, fun hpc hst hrun hflight => ?_⟩
  · rcases hlooked with ((hrun | hpush | hqueued | htaken) | hfound | hwrite) | hdecides
    · exact .inl hrun
    · exact .inr (.inr (.inr (.inl hpush)))
    · exact .inr (.inl hqueued)
    · exact .inr (.inr (.inr (.inr (.inl htaken))))
    · exact .inr (.inr (.inr (.inr (.inr (.inl hfound)))))
    · exact .inr (.inr (.inl hwrite))
    · exact .inr (.inr (.inr (.inr (.inr (.inr hdecides)))))
  · have hwrite : w.writeEvents p = true := by
      rcases hlooked with ((hrun' | hflight') | ⟨r, hfound⟩ | hwrite) | hdecides
      · rw [hrun] at hrun'
        cases hrun'
      · exact absurd hflight' hflight
      · rw [hpc] at hfound
        cases hfound
      · exact hwrite
      · rw [hpc] at hdecides
        rcases hdecides with h | h | h <;> cases h
    exact ⟨hwrite, fun lens again hok => picked_up hlife hpc hp hwrite hst hrun hholds hok⟩

def Steady (w : Server) (p : Ptr) : Prop :=
  (w.statusOf p).all (· = .eNormal) = true ∧ w.pc ≠ .error p ∧ w.pc ≠ .timeout p

instance (w : Server) (p : Ptr) : Decidable (w.Steady p) :=
  inferInstanceAs (Decidable (_ ∧ _ ∧ _))

/-- A second request of the first session arrives while a worker handles the first one, and the
write event fires in between. -/
def pipelined : List (Feeding (List UInt8)) :=
  let arrives : Feeding (List UInt8) := ⟨.onRead 0 .received, [65], []⟩
  startedSession.map MsgDecoder.default.noInput ++
    arrives :: List.replicate 3 (MsgDecoder.default.noInput (.event true)) ++
    arrives :: List.replicate 2 (MsgDecoder.default.noInput (.event true)) ++
    MsgDecoder.default.noInput (.onWrite 0 (.ready [] false)) ::
      List.replicate 2 (MsgDecoder.default.noInput (.event true)) ++
    List.replicate 3 (MsgDecoder.default.noInput (.task 0 .silent))

/-- The worker has cleared the running flag and not pushed its response yet: the second request
waits in the input buffer, and nothing that can be seen of the session says so. -/
theorem input_waits : ∃ w input, (inputSystem .default).Reach (fun s _ => s.1.Steady 0) (w, input) ∧
    w.Live 0 ∧ w.Steady 0 ∧ MsgDecoder.default.Holds (input 0) ∧
    ¬ (w.runningOf 0 = true ∨ (∃ r ∈ w.responses, w.sidOf 0 = some r.fromSid) ∨
      w.writeEvents 0 = true) := by
  have hrun : ((inputSystem .default).run (fun s _ => s.1.Steady 0) pipelined
      (inputSystem .default).init).map (fun s => decide (s.1.Live 0 ∧ s.1.Steady 0 ∧
        MsgDecoder.default.Holds (s.2 0) ∧ ¬ (s.1.runningOf 0 = true ∨
          (∃ r ∈ s.1.responses, s.1.sidOf 0 = some r.fromSid) ∨ s.1.writeEvents 0 = true))) =
      some true := by decide +kernel
  obtain ⟨⟨w, input⟩, hw, hlog⟩ := Option.map_eq_some_iff.mp hrun
  exact ⟨w, input, Lib.System.Reach.run .init hw, of_decide_eq_true hlog⟩

/-- The worker pushes its response and `onResponse` works it off: the second request is picked
up. -/
theorem no_stuck_input_pipelined : ∃ w input,
    (inputSystem .default).Reach (fun _ _ => True) (w, input) ∧
    MsgDecoder.default.Holds (input 0) ∧ w.writeEvents 0 = true ∧
    ∃ s', (inputSystem .default).run (fun _ _ => True)
        (writeTurn .default 0 [] false) (w, input) = some s' ∧
      s'.1.tasks = w.tasks ++ [.worker 0 (w.log.decoded 0 + 1)] := by
  have hrun : ((inputSystem .default).run (fun _ _ => True) (pipelined ++
      MsgDecoder.default.noInput (.task 0 .silent) :: MsgDecoder.default.noInput .onResponse ::
      List.replicate 4 (MsgDecoder.default.noInput (.event true)))
      (inputSystem .default).init).map (fun s => decide (s.1.Live 0 ∧
        MsgDecoder.default.Holds (s.2 0) ∧ s.1.pc = .idle ∧ s.1.statusOf 0 = some .eNormal ∧
        s.1.runningOf 0 = false ∧ s.1.tasks.length = 0 ∧ s.1.responses = [] ∧
        s.1.outOf 0 = [])) = some true := by decide +kernel
  obtain ⟨⟨w, input⟩, hw, hlog⟩ := Option.map_eq_some_iff.mp hrun
  obtain ⟨hlive, hholds, hpc, hst, hrunning, htasks, hresponses, hout⟩ := of_decide_eq_true hlog
  have hreach := Lib.System.Reach.run .init hw
  have hflight : ¬ w.InFlight 0 := by
    rintro (⟨r, hr, -⟩ | ⟨r, hr, -⟩ | ⟨r, hr, -⟩)
    · rw [List.length_eq_zero_iff.mp htasks] at hr
      cases hr
    · rw [show w.responses = [] from hresponses] at hr
      cases hr
    · rw [show w.pc = .idle from hpc] at hr
      cases hr
  obtain ⟨hwrite, hpicked⟩ := (no_stuck_input hreach hlive hholds).2 hpc hst hrunning hflight
  obtain ⟨s', hs', htasks', -⟩ := hpicked [] false fun s hs => by
    have hnil : s.outList = [] := (outOf_of_heap hs).symm.trans hout
    simp only [onWrite, if_pos hnil]
    rintro ⟨⟩
  exact ⟨w, input, hreach, hholds, hwrite, s', hs', htasks'⟩

end Server

end Spserver
