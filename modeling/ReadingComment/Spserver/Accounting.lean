import ReadingComment.Spserver.Lifetime

/-!
# Where a message is

A message that `onResponse` took is shared by the `outList`s of its destinations. Its ToList names
exactly the sessions that still hold it, as often as they hold it; every other destination has moved
to its success or failure list, and the message is on the output queue once, when no session holds
it any more.

The destinations below the index of `onResponse` are not handed out yet. The invariant is stated for
any content `out` of the `outList`s, so that it can follow `transmit` and `doError` while they empty
one.
-/

namespace Spserver

open Function List

/-! ## Lists of destinations -/

theorem SidList.takeFound_eq (l : List Sid) (sid : Sid) :
    SidList.takeFound l sid = l.erase sid := by
  induction l with
  | nil => rfl
  | cons a l ih =>
    rw [takeFound, find, findIdx?_cons]
    by_cases ha : a = sid
    · simp [ha, take]
    · have hne : (a == sid) = false := by simpa using ha
      rw [erase_cons, hne, ← ih, takeFound, find]
      simp only [ha, decide_false, Bool.false_eq_true, if_false]
      cases l.findIdx? (· = sid) with
      | none => rfl
      | some i => rfl

theorem SidList.get_eq {l : List Sid} {i : ℕ} (hi : i < l.length) : SidList.get l i = l[i] := by
  simp [get, hi]

theorem drop_eraseIdx_self {α : Type} (l : List α) (i : ℕ) :
    (l.eraseIdx i).drop i = l.drop (i + 1) := by
  induction l generalizing i with
  | nil => simp
  | cons a l ih =>
    cases i with
    | zero => rfl
    | succ i => exact ih i

theorem perm_eraseIdx {α : Type} {l : List α} {i : ℕ} (hi : i < l.length) :
    l.Perm (l[i] :: l.eraseIdx i) := by
  induction l generalizing i with
  | nil => cases hi
  | cons a l ih =>
    cases i with
    | zero => exact .refl _
    | succ i => exact ((ih (Nat.lt_of_succ_lt_succ hi)).cons a).trans (List.Perm.swap _ _ _)

namespace Server

def outOf (w : Server) (p : Ptr) : List MsgPtr := (w.heap p).elim [] Session.outList

/-- The message that `onResponse` is handing out. -/
def handing (w : Server) : Option MsgPtr :=
  match w.pc with
  | .respSids _ m _ => some m
  | _ => none

/-- Outside of the loop of `onResponse`, and not about to close a session. -/
def apart (w : Server) : Bool :=
  match w.pc with
  | .respSids .. | .closeRun _ => false
  | _ => true

/-- The destinations that `onResponse` has not looked at yet. -/
def left (w : Server) : ℕ :=
  match w.pc with
  | .respSids _ _ i => i
  | _ => 0

/-- The destinations of the message `m` that `onResponse` has not looked at yet. -/
def ahead (w : Server) (m : MsgPtr) : ℕ := if w.handing = some m then w.left else 0

/-- **The accounting invariant**, for sessions that have `out` left to send. -/
structure Accounts (w : Server) (out : Ptr → List MsgPtr) : Prop where
  fresh : ∀ m, w.nextMsg ≤ m → w.log.dest m = none ∧ m ∉ w.output ∧ ∀ p, m ∉ out p
  whole : ∀ m d, w.log.dest m = some d →
    ((w.msgs m).toList ++ ((w.msgs m).success ++ (w.msgs m).failure)).Perm d
  spread : ∀ m d, w.log.dest m = some d → ∀ sid,
    ((w.msgs m).toList.drop (w.ahead m)).count sid =
      (w.lookup sid).elim 0 fun p => (out p).count m
  complete : ∀ m d, w.log.dest m = some d →
    w.output.count m = if (w.msgs m).toList = [] ∧ w.handing ≠ some m then 1 else 0
  handed : ∀ m, w.handing = some m →
    w.left ≤ (w.msgs m).toList.length ∧ (w.log.dest m).isSome

/-! ## The loops of `transmit` and `doError` -/

namespace Accounts

variable {w : Server} {out : Ptr → List MsgPtr} {p : Ptr} {sid : Sid}

variable {l : List MsgPtr}

section

variable {m : MsgPtr} (h : Accounts w (Function.update out p (m :: l))) (hh : w.handing = none)
  (hl : w.lookup sid = some p) (hinj : ∀ s, w.lookup s = some p → s = sid)

include h hh hl hinj

theorem settle {msg : Message} (hto : msg.toList = (w.msgs m).toList.erase sid)
    (hrest : (msg.success ++ msg.failure).Perm
      (sid :: ((w.msgs m).success ++ (w.msgs m).failure))) :
    Accounts (w.settle m msg) (update out p l) := by
  set w' := w.settle m msg with hw'
  have hnext : w'.nextMsg = w.nextMsg := by rw [hw', Server.settle]; split_ifs <;> rfl
  have hlog : w'.log = w.log := by rw [hw', Server.settle]; split_ifs <;> rfl
  have hmsgs : w'.msgs = update w.msgs m msg := by
    rw [hw', Server.settle]; split_ifs <;> rfl
  have hlook : w'.lookup = w.lookup := (Quiet.settle (P := fun _ => False) m msg).lookup
  have hhand : w'.handing = none := by
    rw [handing, hw', pc_settle]
    exact hh
  have houtput : w'.output = if msg.toList = [] then w.output ++ [m] else w.output := by
    rw [hw', Server.settle]
    split_ifs <;> rfl
  have hahead : ∀ m', w'.ahead m' = 0 ∧ w.ahead m' = 0 := fun m' => by
    rw [ahead, ahead, hhand, hh]
    simp
  have hmem : m ∈ update out p (m :: l) p := by simp
  have hlt : m < w.nextMsg := by
    by_contra hge
    exact (h.fresh m (Nat.le_of_not_lt hge)).2.2 p hmem
  -- the session is among the destinations that are left
  have hsid : ∀ d, w.log.dest m = some d → sid ∈ (w.msgs m).toList := by
    intro d hd
    have hcount := h.spread m d hd sid
    rw [(hahead m).2, drop_zero, hl] at hcount
    refine count_pos_iff.mp ?_
    rw [hcount]
    exact count_pos_iff.mpr hmem
  constructor
  · intro m' hm'
    rw [hnext] at hm'
    obtain ⟨hd, ho, hp⟩ := h.fresh m' hm'
    refine ⟨hlog ▸ hd, ?_, fun q hq => ?_⟩
    · rw [houtput]
      split_ifs
      · rintro hmem'
        rcases mem_append.mp hmem' with hmem' | hmem'
        · exact ho hmem'
        · rw [mem_singleton.mp hmem'] at hm'
          exact Nat.not_lt.mpr hm' hlt
      · exact ho
    · by_cases hqp : q = p
      · subst hqp
        rw [update_self] at hq
        exact hp q (by rw [update_self]; exact mem_cons_of_mem _ hq)
      · rw [update_of_ne hqp] at hq
        exact hp q (by rwa [update_of_ne hqp])
  · intro m' d hd
    rw [hlog] at hd
    rw [hmsgs]
    by_cases hm' : m' = m
    · subst hm'
      rw [update_self, hto]
      refine List.Perm.trans ?_ (h.whole m' d hd)
      refine (hrest.append_left _).trans ?_
      refine perm_middle.trans ?_
      exact (perm_cons_erase (hsid d hd)).symm.append_right _
    · rw [update_of_ne hm']
      exact h.whole m' d hd
  · intro m' d hd sid'
    rw [hlog] at hd
    have hold := h.spread m' d hd sid'
    rw [(hahead m').2, drop_zero] at hold
    rw [hmsgs, hlook, (hahead m').1, drop_zero]
    by_cases hm' : m' = m
    · subst hm'
      rw [update_self, hto]
      by_cases hs : sid' = sid
      · subst hs
        rw [count_erase_self, hold, hl]
        simp
      · rw [count_erase_of_ne hs, hold]
        rcases hq : w.lookup sid' with _ | q
        · rfl
        · have hqp : q ≠ p := by
            rintro rfl
            exact hs (hinj sid' hq)
          simp [update_of_ne hqp]
    · rw [update_of_ne hm', hold]
      rcases hq : w.lookup sid' with _ | q
      · rfl
      · by_cases hqp : q = p
        · subst hqp
          simp [count_cons_of_ne (Ne.symm hm')]
        · simp [update_of_ne hqp]
  · intro m' d hd
    rw [hlog] at hd
    have hold := h.complete m' d hd
    rw [hh] at hold
    rw [hmsgs, hhand, houtput]
    by_cases hm' : m' = m
    · subst hm'
      have hne : (w.msgs m').toList ≠ [] := ne_nil_of_mem (hsid d hd)
      rw [if_neg fun hc => hne hc.1] at hold
      rw [update_self]
      split_ifs with h1 h2 h2
      · rw [count_append, hold]
        simp
      · exact absurd ⟨h1, by simp⟩ h2
      · exact absurd h2.1 h1
      · exact hold
    · rw [update_of_ne hm', ← hold]
      split_ifs
      · rw [count_append, count_singleton]
        simp [Ne.symm hm']
      · rfl
  · intro m' hm'
    rw [hhand] at hm'
    cases hm'

theorem succeed :
    Accounts (w.settle m ((w.msgs m).succeed sid)) (update out p l) := by
  refine h.settle hh hl hinj (SidList.takeFound_eq _ _) ?_
  change ((w.msgs m).success ++ [sid] ++ (w.msgs m).failure).Perm _
  rw [append_assoc]
  exact perm_middle

theorem fail :
    Accounts (w.settle m ((w.msgs m).fail sid)) (update out p l) := by
  refine h.settle hh hl hinj (SidList.takeFound_eq _ _) ?_
  change ((w.msgs m).success ++ ((w.msgs m).failure ++ [sid])).Perm _
  rw [← append_assoc]
  exact perm_append_singleton _ _

end

theorem perm {out' : Ptr → List MsgPtr} (h : Accounts w out) (hperm : ∀ q, (out' q).Perm (out q)) :
    Accounts w out' := by
  refine { h with fresh := fun m hm => ?_, spread := fun m d hd sid => ?_ }
  · obtain ⟨hd, ho, hp⟩ := h.fresh m hm
    exact ⟨hd, ho, fun q hq => hp q ((hperm q).mem_iff.mp hq)⟩
  · rw [h.spread m d hd sid]
    cases w.lookup sid with
    | none => rfl
    | some q => exact ((hperm q).count_eq m).symm

/-- The invariant reads these parts of the state only; what the manager finds matters for the
sessions that hold a message. -/
theorem congr {w' : Server} (h : Accounts w out) (hnext : w'.nextMsg = w.nextMsg)
    (hdest : w'.log.dest = w.log.dest) (hmsgs : w'.msgs = w.msgs)
    (houtput : w'.output = w.output) (hhand : w'.handing = w.handing) (hleft : w'.left = w.left)
    (hlook : ∀ sid m, ((w'.lookup sid).elim 0 fun p => (out p).count m) =
      (w.lookup sid).elim 0 fun p => (out p).count m) : Accounts w' out where
  fresh := by rw [hnext, hdest, houtput]; exact h.fresh
  whole := by rw [hdest, hmsgs]; exact h.whole
  spread m d hd sid := by
    rw [hmsgs, hlook, ahead, hhand, hleft]
    exact h.spread m d (hdest ▸ hd) sid
  complete := by rw [hdest, hmsgs, houtput, hhand]; exact h.complete
  handed := by rw [hhand, hleft, hmsgs, hdest]; exact h.handed

section

variable (h : Accounts w (Function.update out p l)) (hh : w.handing = none)
  (hl : w.lookup sid = some p) (hinj : ∀ s, w.lookup s = some p → s = sid)

include h hh hl hinj

theorem failAll :
    Accounts (Server.failAll sid l w) (update out p []) := by
  induction l generalizing w with
  | nil => exact h
  | cons m l ih =>
    have hlook := (Quiet.settle (P := fun _ => False) (w := w) m ((w.msgs m).fail sid)).lookup
    refine ih (h.fail hh hl hinj) ?_ (hlook ▸ hl) (hlook ▸ hinj)
    rw [handing, pc_settle]
    exact hh

theorem takeSent (off : ℕ) :
    Accounts (Server.takeSent sid l off w).1
        (update out p (Server.takeSent sid l off w).2.1) ∧
      (Server.takeSent sid l off w).1.handing = none := by
  induction l generalizing w off with
  | nil => exact ⟨h, hh⟩
  | cons m l ih =>
    rw [Server.takeSent]
    split_ifs
    · have hlook := (Quiet.settle (P := fun _ => False) (w := w) m ((w.msgs m).succeed sid)).lookup
      refine ih (h.succeed hh hl hinj) ?_ (hlook ▸ hl) (hlook ▸ hinj) _
      rw [handing, pc_settle]
      exact hh
    · exact ⟨h, hh⟩

theorem transmit (lens : List ℤ) (off : ℕ) :
    Accounts (Server.transmit sid lens l off w).1
        (update out p (Server.transmit sid lens l off w).2.1) ∧
      (Server.transmit sid lens l off w).1.handing = none := by
  induction lens generalizing w l off with
  | nil => exact ⟨h, hh⟩
  | cons len lens ih =>
    rw [Server.transmit]
    split_ifs
    · have hsent := h.takeSent hh hl hinj (off + len.toNat)
      have hlook := (Quiet.takeSent (P := fun _ => False) (w := w) sid l (off + len.toNat)).lookup
      rcases hres : Server.takeSent sid l (off + len.toNat) w with ⟨w₁, l₁, off₁⟩
      rw [hres] at hsent hlook
      cases l₁ with
      | nil => exact hsent
      | cons m l₁ => exact ih hsent.1 hsent.2 (hlook ▸ hl) (hlook ▸ hinj) off₁
    · exact ⟨h, hh⟩

end

end Accounts

/-! ## Steps that leave messages alone -/

/-- The step leaves messages, `outList`s and the manager alone. -/
structure Calm (w w' : Server) : Prop where
  out : w'.outOf = w.outOf
  mgr : w'.mgr = w.mgr
  nextMsg : w'.nextMsg = w.nextMsg
  dest : w'.log.dest = w.log.dest
  msgs : w'.msgs = w.msgs
  output : w'.output = w.output

theorem outOf_modify_ne {w : Server} {p q : Ptr} {f : Session → Session} (hq : q ≠ p) :
    (w.modify p f).outOf q = w.outOf q := by
  simp only [outOf, modify, update_of_ne hq]

theorem outOf_of_heap {w : Server} {p : Ptr} {s : Session} (h : w.heap p = some s) :
    w.outOf p = s.outList := by
  rw [outOf, h]
  rfl

namespace Calm

variable {w w' w'' : Server} {p : Ptr}

theorem refl (w : Server) : Calm w w := ⟨rfl, rfl, rfl, rfl, rfl, rfl⟩

theorem trans (h : Calm w w') (h' : Calm w' w'') : Calm w w'' :=
  ⟨h'.out.trans h.out, h'.mgr.trans h.mgr, h'.nextMsg.trans h.nextMsg, h'.dest.trans h.dest,
    h'.msgs.trans h.msgs, h'.output.trans h.output⟩

theorem lookup (h : Calm w w') : w'.lookup = w.lookup := by
  funext sid
  rw [Server.lookup, Server.lookup, h.mgr]

theorem modify {f : Session → Session} (hf : (fun s => (f s).outList) = fun s => s.outList) :
    Calm w (w.modify p f) := by
  refine ⟨?_, rfl, rfl, rfl, rfl, rfl⟩
  funext q
  by_cases hq : q = p
  · subst hq
    simp only [outOf, Server.modify, update_self]
    cases w.heap q with
    | none => rfl
    | some s => exact congrFun hf s
  · exact outOf_modify_ne hq

theorem goto (pc : EventPc) : Calm w (w.goto pc) := ⟨rfl, rfl, rfl, rfl, rfl, rfl⟩

theorem delRead : Calm w (w.delRead p) := ⟨rfl, rfl, rfl, rfl, rfl, rfl⟩

theorem delWrite : Calm w (w.delWrite p) := ⟨rfl, rfl, rfl, rfl, rfl, rfl⟩

theorem pushTask (t : Task) : Calm w (w.pushTask t) := ⟨rfl, rfl, rfl, rfl, rfl, rfl⟩

theorem setTask (i : ℕ) (t : Task) : Calm w (w.setTask i t) := ⟨rfl, rfl, rfl, rfl, rfl, rfl⟩

theorem addWrite : Calm w (w.addWrite p) := by
  rw [Server.addWrite]
  split
  · split_ifs
    · exact .refl w
    · have hm : Calm w (w.modify p fun s => { s with writing := true }) := .modify rfl
      exact ⟨hm.out, rfl, rfl, rfl, rfl, rfl⟩
  · exact .refl w

theorem addRead : Calm w (w.addRead p) := by
  rw [Server.addRead]
  split
  · split_ifs
    · exact .refl w
    · have hm : Calm w (w.modify p fun s => { s with reading := true }) := .modify rfl
      exact ⟨hm.out, rfl, rfl, rfl, rfl, rfl⟩
  · exact .refl w

theorem onRead (ev : ReadEvent) : Calm w (w.onRead p ev) := by
  have hbegin : Calm w ((w.delRead p).modify p fun s => { s with reading := false }) :=
    delRead.trans (.modify rfl)
  cases ev with
  | received => exact hbegin.trans (.goto _)
  | again => exact hbegin.trans .addRead
  | failed => exact hbegin.trans (.goto _)
  | timeout => exact hbegin.trans (.goto _)

theorem decode (s : Session) (ok : Bool) (work skip : EventPc) :
    Calm w (w.decode p s ok work skip) := by
  rw [Server.decode]
  split_ifs
  · exact .goto _
  · exact ⟨rfl, rfl, rfl, rfl, rfl, rfl⟩
  · exact .goto _

theorem doWork (s : Session) : Calm w (w.doWork p s) := by
  rw [Server.doWork]
  split_ifs
  · refine Calm.trans ?_ (.pushTask _)
    exact .modify rfl
  · exact .refl w

theorem doStart : Calm w (w.doStart p) := by
  refine Calm.trans ?_ (.pushTask _)
  exact .modify rfl

theorem respEvents (r : Response) (s : Session) : Calm w (w.respEvents r p s) := by
  rw [Server.respEvents]
  split_ifs
  · exact (addWrite.trans .addRead).trans (.goto _)
  · exact ((delRead.trans .addWrite).trans .addRead).trans (.goto _)

theorem noteReply (request : Option (Ptr × ℕ)) : Calm w (w.noteReply p request) := by
  rcases request with _ | ⟨q, n⟩
  · exact .refl w
  · rw [Server.noteReply]
    split_ifs
    · exact ⟨rfl, rfl, rfl, rfl, rfl, rfl⟩
    · exact .refl w

end Calm

theorem left_eq_zero {w : Server} (h : w.handing = none) : w.left = 0 := by
  rw [handing] at h
  rw [left]
  cases hpc : w.pc with
  | respSids r m i =>
    rw [hpc] at h
    cases h
  | _ => rfl

/-- **The accounting invariant** of a state; a session that `onWrite` is about to close has
nothing left to send. -/
structure Accounted (w : Server) : Prop where
  accounts : Accounts w w.outOf
  closing : ∀ p, w.pc = .closeRun p → w.outOf p = []

namespace Accounts

variable {w w' : Server} {out : Ptr → List MsgPtr} {p : Ptr}

theorem calm (h : Accounts w w.outOf) (hc : Calm w w') (hhand : w'.handing = w.handing)
    (hleft : w'.left = w.left) : Accounts w' w'.outOf := by
  rw [hc.out]
  refine h.congr hc.nextMsg hc.dest hc.msgs hc.output hhand hleft fun sid m => ?_
  rw [hc.lookup]

theorem remove (h : Accounts w w.outOf) (hlife : Life w) (hp : w.Live p) {sid : Sid}
    (hsid : w.sidOf p = some sid) (hout : w.outOf p = [])
    (hw : w.removeSession p sid = .ok w') : Accounts w' w'.outOf := by
  obtain ⟨m, hremove, -, hentry, hentries⟩ := hlife.removeSession_eq hp hsid
  obtain rfl := Except.ok.inj (hremove.symm.trans hw)
  refine h.congr rfl rfl rfl rfl rfl rfl fun s msg => ?_
  simp only [lookup, SessionManager.get_eq, (hentries s.key).1]
  by_cases hk : s.key = sid.key
  · rw [if_pos hk, hk, hentry]
    split_ifs <;> simp [hout]
  · rw [if_neg hk, (hentries s.key).2 hk]

theorem newSession (h : Accounts w w.outOf) (hlife : Life w) {m : SessionManager Ptr} {sid : Sid}
    (hlife' : Life (w.newSession m sid)) :
    Accounts (w.newSession m sid) (w.newSession m sid).outOf := by
  set w' := w.newSession m sid with hw'
  have hnone : w.outOf w.nextPtr = [] := by
    have hheap : w.heap w.nextPtr = none := by
      rcases hs : w.heap w.nextPtr with _ | s
      · rfl
      · have := (hlife.heap w.nextPtr).mp (by rw [sidOf_of_heap hs]; rfl)
        exact absurd this.1 (Nat.lt_irrefl _)
    rw [outOf, hheap]
    rfl
  have hout : w'.outOf = w.outOf := by
    funext q
    by_cases hq : q = w.nextPtr
    · rw [hq, hnone]
      simp [hw', outOf, Server.newSession, Session.new]
    · simp only [hw', outOf, Server.newSession, update_of_ne hq]
  have hold : ∀ q, w.Live q → w'.Live q ∧ w'.sidOf q = w.sidOf q := by
    intro q hq
    refine ⟨⟨Nat.lt_succ_of_lt hq.1, hq.2⟩, ?_⟩
    simp only [hw', sidOf, Server.newSession, update_of_ne (Nat.ne_of_lt hq.1)]
  rw [hout]
  refine h.congr rfl rfl rfl rfl rfl rfl fun s msg => ?_
  rcases hl : w.lookup s with _ | q
  · -- the manager may find the new session where it found none
    rcases hl' : w'.lookup s with _ | q
    · rfl
    · obtain ⟨hq, hsid⟩ := hlife'.lookup_eq_some.mp hl'
      have hnew : q = w.nextPtr := by
        by_contra hne
        have hlive : w.Live q :=
          ⟨(Nat.lt_succ_iff_lt_or_eq.mp hq.1).resolve_right hne, hq.2⟩
        have := hlife.lookup_eq_some.mpr ⟨hlive, (hold q hlive).2 ▸ hsid⟩
        rw [hl] at this
        cases this
      simp [hnew, hnone]
  · obtain ⟨hq, hsid⟩ := hlife.lookup_eq_some.mp hl
    have := hlife'.lookup_eq_some.mpr ⟨(hold q hq).1, (hold q hq).2.trans hsid⟩
    rw [this]

variable {r : Response} {m : MsgPtr}

section

variable (h : Accounts w w.outOf)

include h

theorem take (hh : w.handing = none) (msg : Message) {d : List Sid}
    (hmsg : (msg.toList ++ (msg.success ++ msg.failure)).Perm d) :
    Accounts ({ w with
      nextMsg := w.nextMsg + 1
      log := { w.log with dest := update w.log.dest w.nextMsg (some d) }
      msgs := update w.msgs w.nextMsg msg }.goto
        (.respSids r w.nextMsg msg.toList.length)) w.outOf := by
  set w' : Server := { w with
      nextMsg := w.nextMsg + 1
      log := { w.log with dest := update w.log.dest w.nextMsg (some d) }
      msgs := update w.msgs w.nextMsg msg }.goto
        (.respSids r w.nextMsg msg.toList.length) with hw'
  obtain ⟨-, hnotout, hnotin⟩ := h.fresh w.nextMsg (Nat.le_refl _)
  have hself : w'.msgs w.nextMsg = msg := by simp [hw', goto]
  have hother : ∀ m, m ≠ w.nextMsg → w'.msgs m = w.msgs m ∧ w'.log.dest m = w.log.dest m :=
    fun m hm => by simp [hw', goto, hm]
  have hahead : w'.ahead w.nextMsg = msg.toList.length := if_pos rfl
  have hahead' : ∀ m, m ≠ w.nextMsg → w'.ahead m = 0 ∧ w.ahead m = 0 := by
    intro m hm
    refine ⟨if_neg fun heq => hm (Option.some.inj heq).symm, ?_⟩
    rw [ahead, hh, if_neg (by simp)]
  constructor
  · intro m hm
    have hne : m ≠ w.nextMsg := Nat.ne_of_gt hm
    obtain ⟨hd, ho, hp⟩ := h.fresh m (Nat.le_of_succ_le hm)
    exact ⟨(hother m hne).2.trans hd, ho, hp⟩
  · intro m d' hd
    by_cases hm : m = w.nextMsg
    · subst hm
      have : some d = some d' := by simpa [hw', goto] using hd
      rw [hself, ← Option.some.inj this]
      exact hmsg
    · rw [(hother m hm).2] at hd
      rw [(hother m hm).1]
      exact h.whole m d' hd
  · intro m d' hd sid
    by_cases hm : m = w.nextMsg
    · subst hm
      rw [hself, hahead, drop_length, count_nil]
      change 0 = (w.lookup sid).elim 0 _
      cases w.lookup sid with
      | none => rfl
      | some q => exact (count_eq_zero.mpr (hnotin q)).symm
    · rw [(hother m hm).2] at hd
      rw [(hother m hm).1, (hahead' m hm).1]
      exact (hahead' m hm).2 ▸ h.spread m d' hd sid
  · intro m d' hd
    by_cases hm : m = w.nextMsg
    · subst hm
      rw [if_neg fun hc => hc.2 rfl]
      exact count_eq_zero.mpr hnotout
    · rw [(hother m hm).2] at hd
      rw [(hother m hm).1]
      refine (h.complete m d' hd).trans (if_congr (and_congr_right fun _ => ?_) rfl rfl)
      refine iff_of_true (by rw [hh]; simp) fun heq => hm (Option.some.inj heq).symm
  · intro m hm
    cases hm
    rw [hself]
    refine ⟨Nat.le_refl _, ?_⟩
    simp [hw', goto]

theorem respMessages (hpc : w.pc = .respMessages r) :
    Accounts (w.respMessages r) w.outOf := by
  have hh : w.handing = none := by rw [handing, hpc]
  have hleft := left_eq_zero hh
  rw [Server.respMessages]
  split
  · exact h.congr rfl rfl rfl rfl hh.symm hleft.symm fun _ _ => rfl
  · rename_i totalSize toList messages heq
    simp only
    split_ifs
    · exact h.take hh ⟨totalSize, toList, [], []⟩ (by simp)
    · refine h.take hh ⟨totalSize, [], [], toList.reverse⟩ ?_
      simp

theorem sidsDone (hpc : w.pc = .respSids r m 0) :
    Accounts ((if (w.msgs m).toList = [] then w.doCompletion m else w).goto (.respMessages r))
      w.outOf := by
  have hh : w.handing = some m := by rw [handing, hpc]
  have hahead : ∀ m', w.ahead m' = 0 := fun m' => by
    rw [ahead, left, hpc, ite_self]
  obtain ⟨-, hdest⟩ := h.handed m hh
  set w' := (if (w.msgs m).toList = [] then w.doCompletion m else w).goto (.respMessages r)
    with hw'
  have hhand : w'.handing = none := rfl
  have hahead' : ∀ m', w'.ahead m' = 0 := fun m' => if_neg (by rw [hhand]; simp)
  have hnext : w'.nextMsg = w.nextMsg := by rw [hw']; split_ifs <;> rfl
  have hlog : w'.log = w.log := by rw [hw']; split_ifs <;> rfl
  have hmsgs : w'.msgs = w.msgs := by rw [hw']; split_ifs <;> rfl
  have hlook : w'.lookup = w.lookup := by rw [hw']; split_ifs <;> rfl
  have houtput : w'.output = if (w.msgs m).toList = [] then w.output ++ [m] else w.output := by
    rw [hw']
    split_ifs <;> rfl
  constructor
  · intro m' hm'
    rw [hnext] at hm'
    obtain ⟨hd, ho, hp⟩ := h.fresh m' hm'
    refine ⟨hlog ▸ hd, ?_, hp⟩
    rw [houtput]
    split_ifs
    · intro hmem
      rcases mem_append.mp hmem with hmem | hmem
      · exact ho hmem
      · -- a message that is handed out has a destination list
        rw [mem_singleton.mp hmem] at hd
        rw [hd] at hdest
        cases hdest
    · exact ho
  · rw [hlog, hmsgs]
    exact h.whole
  · intro m' d hd sid
    rw [hmsgs, hlook, hahead']
    exact hahead m' ▸ h.spread m' d (hlog ▸ hd) sid
  · intro m' d hd
    rw [hlog] at hd
    have hold := h.complete m' d hd
    rw [hh] at hold
    rw [hmsgs, hhand, houtput]
    by_cases hm' : m' = m
    · subst hm'
      rw [if_neg fun hc => hc.2 rfl] at hold
      split_ifs with h1 h2 h2
      · rw [count_append, hold]
        simp
      · exact absurd ⟨h1, by simp⟩ h2
      · exact absurd h2.1 h1
      · exact hold
    · have hsame : ¬ some m = some m' := fun heq => hm' (Option.some.inj heq).symm
      have hcount : (if (w.msgs m).toList = [] then w.output ++ [m] else w.output).count m' =
          w.output.count m' := by
        split_ifs
        · rw [count_append, count_singleton]
          simp [Ne.symm hm']
        · rfl
      rw [hcount, hold]
      exact if_congr (and_congr_right fun _ => iff_of_true hsame (by simp)) rfl rfl
  · intro m' hm'
    rw [hhand] at hm'
    cases hm'

theorem walk {out' : Ptr → List MsgPtr} {i : ℕ} (hpc : w.pc = .respSids r m (i + 1))
    (hpc' : w'.pc = .respSids r m i) (hnext : w'.nextMsg = w.nextMsg)
    (hdest : w'.log.dest = w.log.dest) (houtput : w'.output = w.output)
    (hmsgs : ∀ m', m' ≠ m → w'.msgs m' = w.msgs m') (hlen : i ≤ (w'.msgs m).toList.length)
    (hwhole : ((w'.msgs m).toList ++ ((w'.msgs m).success ++ (w'.msgs m).failure)).Perm
      ((w.msgs m).toList ++ ((w.msgs m).success ++ (w.msgs m).failure)))
    (hmem : ∀ m' q, m' ≠ m → m' ∈ out' q → m' ∈ w.outOf q)
    (hspread : ∀ sid, ((w'.msgs m).toList.drop i).count sid =
      (w'.lookup sid).elim 0 fun p => (out' p).count m)
    (hspread' : ∀ m' sid, m' ≠ m → ((w'.lookup sid).elim 0 fun p => (out' p).count m') =
      (w.lookup sid).elim 0 fun p => (w.outOf p).count m') :
    Accounts w' out' := by
  have hh : w.handing = some m := by rw [handing, hpc]
  have hh' : w'.handing = some m := by rw [handing, hpc']
  have hahead : ∀ m', m' ≠ m → w'.ahead m' = 0 ∧ w.ahead m' = 0 := by
    intro m' hm'
    have hne : ¬ some m = some m' := fun heq => hm' (Option.some.inj heq).symm
    exact ⟨by rw [ahead, hh', if_neg hne], by rw [ahead, hh, if_neg hne]⟩
  have hahead' : w'.ahead m = i := by
    rw [ahead, hh', if_pos rfl, left, hpc']
  obtain ⟨-, hd⟩ := h.handed m hh
  constructor
  · intro m' hm'
    rw [hnext] at hm'
    obtain ⟨hd', ho, hp⟩ := h.fresh m' hm'
    have hne : m' ≠ m := by
      rintro rfl
      rw [hd'] at hd
      cases hd
    exact ⟨hdest ▸ hd', houtput ▸ ho, fun q hq => hp q (hmem m' q hne hq)⟩
  · intro m' d hd'
    rw [hdest] at hd'
    by_cases hm' : m' = m
    · subst hm'
      exact hwhole.trans (h.whole m' d hd')
    · rw [hmsgs m' hm']
      exact h.whole m' d hd'
  · intro m' d hd' sid
    rw [hdest] at hd'
    by_cases hm' : m' = m
    · subst hm'
      rw [hahead']
      exact hspread sid
    · rw [hmsgs m' hm', (hahead m' hm').1, hspread' m' sid hm']
      exact (hahead m' hm').2 ▸ h.spread m' d hd' sid
  · intro m' d hd'
    rw [hdest] at hd'
    have hold := h.complete m' d hd'
    rw [hh] at hold
    rw [houtput, hh']
    by_cases hm' : m' = m
    · subst hm'
      rw [if_neg fun hc => hc.2 rfl] at hold ⊢
      exact hold
    · rw [hmsgs m' hm']
      exact hold
  · intro m' hm'
    obtain rfl := Option.some.inj (hh'.symm.trans hm')
    rw [left, hpc', hdest]
    exact ⟨hlen, hd⟩

theorem dropSid {i : ℕ} (hpc : w.pc = .respSids r m (i + 1)) :
    Accounts ((w.dropSid m i (SidList.get (w.msgs m).toList i)).goto (.respSids r m i))
      w.outOf := by
  have hh : w.handing = some m := by rw [handing, hpc]
  obtain ⟨hlen, hdest⟩ := h.handed m hh
  obtain ⟨d, hd⟩ := Option.isSome_iff_exists.mp hdest
  have hleft : w.left = i + 1 := by rw [left, hpc]
  rw [hleft] at hlen
  have hahead : w.ahead m = i + 1 := by rw [ahead, hh, if_pos rfl, hleft]
  have hself : ((w.dropSid m i (SidList.get (w.msgs m).toList i)).goto (.respSids r m i)).msgs m =
      (w.msgs m).failAt i (SidList.get (w.msgs m).toList i) := update_self ..
  refine h.walk hpc rfl rfl rfl rfl (fun m' hm' => update_of_ne hm' ..) ?_ ?_
    (fun _ _ _ hq => hq) (fun sid => ?_) fun _ _ _ => rfl
  · rw [hself]
    change i ≤ ((w.msgs m).toList.eraseIdx i).length
    rw [length_eraseIdx_of_lt hlen]
    exact Nat.le_sub_one_of_lt hlen
  · rw [hself]
    change ((w.msgs m).toList.eraseIdx i ++ ((w.msgs m).success ++ ((w.msgs m).failure ++
      [SidList.get (w.msgs m).toList i]))).Perm _
    rw [SidList.get_eq hlen, ← append_assoc (w.msgs m).success]
    refine List.Perm.trans ?_ ((perm_eraseIdx hlen).symm.append_right _)
    refine List.Perm.trans ((perm_append_singleton _ _).append_left _) ?_
    exact perm_middle
  · rw [hself]
    change (((w.msgs m).toList.eraseIdx i).drop i).count sid = _
    rw [drop_eraseIdx_self, ← hahead]
    exact h.spread m d hd sid

theorem append (hlife : Life w) {i : ℕ} {s : Session} (hpc : w.pc = .respSids r m (i + 1))
    (hl : w.lookup (SidList.get (w.msgs m).toList i) = some p) (hs : w.heap p = some s) :
    Accounts ((w.append p m r.request).goto (.respSids r m i))
      ((w.append p m r.request).goto (.respSids r m i)).outOf := by
  have hh : w.handing = some m := by rw [handing, hpc]
  obtain ⟨hlen, hdest⟩ := h.handed m hh
  obtain ⟨d, hd⟩ := Option.isSome_iff_exists.mp hdest
  have hleft : w.left = i + 1 := by rw [left, hpc]
  rw [hleft] at hlen
  have hahead : w.ahead m = i + 1 := by rw [ahead, hh, if_pos rfl, hleft]
  set w₁ := w.modify p fun s => { s with outList := s.outList ++ [m] } with hw₁
  have hcalm : Calm w₁ ((w.append p m r.request).goto (.respSids r m i)) :=
    ((Calm.noteReply r.request).trans .addWrite).trans (.goto _)
  have hlook : ((w.append p m r.request).goto (.respSids r m i)).lookup = w.lookup := hcalm.lookup
  have hmsgs : ((w.append p m r.request).goto (.respSids r m i)).msgs = w.msgs := hcalm.msgs
  have hself : w₁.outOf p = w.outOf p ++ [m] := by
    simp [hw₁, outOf, modify, hs]
  have hother : ∀ q, q ≠ p → w₁.outOf q = w.outOf q := fun q hq => outOf_modify_ne hq
  rw [hcalm.out]
  refine h.walk hpc rfl hcalm.nextMsg hcalm.dest hcalm.output (fun m' _ => by rw [hmsgs]) ?_ ?_
    (fun m' q hm' hq => ?_) (fun sid => ?_) fun m' sid hm' => ?_
  · rw [hmsgs]
    exact Nat.le_of_succ_le hlen
  · rw [hmsgs]
  · by_cases hqp : q = p
    · subst hqp
      rw [hself] at hq
      exact (mem_append.mp hq).resolve_right fun hq => hm' (mem_singleton.mp hq)
    · rwa [hother q hqp] at hq
  · have hold := h.spread m d hd sid
    rw [hahead] at hold
    rw [hmsgs, hlook, drop_eq_getElem_cons hlen, count_cons, hold]
    rw [SidList.get_eq hlen] at hl
    by_cases hsid : (w.msgs m).toList[i] = sid
    · rw [hsid] at hl ⊢
      rw [hl]
      simp [hself]
    · rw [if_neg (by simpa using hsid), Nat.add_zero]
      rcases hq : w.lookup sid with _ | q
      · rfl
      · have hqp : q ≠ p := by
          rintro rfl
          have h1 := (hlife.lookup_eq_some.mp hl).2
          rw [(hlife.lookup_eq_some.mp hq).2] at h1
          exact hsid (Option.some.inj h1).symm
        simp [hother q hqp]
  · rw [hlook]
    rcases w.lookup sid with _ | q
    · rfl
    · by_cases hqp : q = p
      · subst hqp
        simp [hself, count_append, Ne.symm hm']
      · simp [hother q hqp]

end

end Accounts

/-! ## The memory of sessions is not touched by the loops -/

section heap

variable {w : Server} {p : Ptr}

theorem heap_settle (m : MsgPtr) (msg : Message) : (w.settle m msg).heap = w.heap := by
  rw [settle]
  split_ifs <;> rfl

theorem heap_failAll (sid : Sid) (l : List MsgPtr) : (failAll sid l w).heap = w.heap :=
  failAll_same (·.heap) (fun _ => heap_settle) sid l

theorem heap_transmit (sid : Sid) (lens : List ℤ) (l : List MsgPtr) (off : ℕ) :
    (transmit sid lens l off w).1.heap = w.heap :=
  transmit_same (·.heap) (fun _ => heap_settle) sid lens l off

theorem pc_removeSession {w' : Server} {sid : Sid} (h : w.removeSession p sid = .ok w') :
    w'.pc = w.pc := by
  rw [removeSession] at h
  split at h
  · cases h
    rfl
  · cases h

theorem outOf_modify {s : Session} (hs : w.heap p = some s) (f : Session → Session) :
    (w.modify p f).outOf = update w.outOf p (f s).outList := by
  funext q
  by_cases hq : q = p
  · subst hq
    simp [outOf, modify, hs]
  · rw [outOf_modify_ne hq, update_of_ne hq]

end heap

/-! ## The steps keep the invariant -/

namespace Accounted

variable {w w' : Server} {p : Ptr}

theorem init : Accounted Server.init where
  accounts :=
    { fresh := fun m _ => ⟨rfl, by simp [Server.init], fun q => by simp [outOf, Server.init]⟩
      whole := fun m d hd => by cases hd
      spread := fun m d hd => by cases hd
      complete := fun m d hd => by cases hd
      handed := fun m hm => by cases hm }
  closing p hp := by cases hp

theorem outside (h : Accounts w w.outOf) (hc : Calm w w') (hh : w.handing = none)
    (hw : w'.apart = true) : Accounted w' := by
  have hh' : w'.handing = none := by
    rw [handing]
    split
    · simp_all [apart]
    · rfl
  refine ⟨h.calm hc (hh'.trans hh.symm) ((left_eq_zero hh').trans (left_eq_zero hh).symm),
    fun p hp => ?_⟩
  rw [apart, hp] at hw
  cases hw

theorem task (h : Accounted w) (hc : Calm w w') (hpc : w'.pc = w.pc) : Accounted w' where
  accounts := h.accounts.calm hc (by rw [handing, handing, hpc]) (by rw [left, left, hpc])
  closing p hp := by
    rw [hc.out]
    exact h.closing p (hpc ▸ hp)

variable {s : Session}

theorem store {w₀ w₁ : Server} {l : List MsgPtr} (hs : w₀.heap p = some s)
    (hheap : w₁.heap = w₀.heap) (h : Accounts w₁ (update w₀.outOf p l))
    {f : Session → Session} (hf : (f s).outList = l) :
    Accounts (w₁.modify p f) (w₁.modify p f).outOf := by
  have hout : w₁.outOf = w₀.outOf := by
    funext q
    rw [outOf, outOf, hheap]
  rw [outOf_modify (hheap ▸ hs) f, hf, hout]
  exact h.congr rfl rfl rfl rfl rfl rfl fun _ _ => rfl

theorem onWrite (h : Accounted w) (hlife : Life w) (hpc : w.pc = .idle) (hp : w.Live p)
    (hs : w.heap p = some s) (ev : WriteEvent) :
    Accounted (w.onWrite p s ev) := by
  have hidle : w.handing = none := by rw [handing, hpc]
  set w₀ := (w.delWrite p).modify p fun s => { s with writing := false } with hw₀
  have hcalm : Calm w w₀ := Calm.delWrite.trans (.modify rfl)
  cases ev with
  | timeout => exact outside h.accounts (hcalm.trans (.goto _)) hidle rfl
  | ready lens again =>
    simp only [Server.onWrite]
    split_ifs
    · exact outside h.accounts (hcalm.trans (.goto _)) hidle rfl
    have hlook : w₀.lookup s.sid = some p := by
      rw [hcalm.lookup]
      exact hlife.lookup_eq_some.mpr ⟨hp, sidOf_of_heap hs⟩
    have hinj : ∀ sid, w₀.lookup sid = some p → sid = s.sid := by
      intro sid hsid
      rw [hcalm.lookup] at hsid
      exact hlife.sid_eq hs hsid
    have hh : w₀.handing = none := hidle
    have hs₀ : w₀.heap p = some { s with writing := false } := by
      simp [hw₀, modify, Server.delWrite, hs]
    have hacc : Accounts w₀ (update w₀.outOf p s.outList) := by
      rw [show s.outList = w₀.outOf p from (outOf_of_heap hs₀).symm, update_eq_self]
      exact h.accounts.calm hcalm rfl rfl
    obtain ⟨hsent, hh'⟩ := hacc.transmit hh hlook hinj lens s.outOffset
    have hheap := heap_transmit (w := w₀) s.sid lens s.outList s.outOffset
    rcases hres : Server.transmit s.sid lens s.outList s.outOffset w₀ with ⟨w₁, l₁, off₁, len⟩
    rw [hres] at hsent hh' hheap
    have hstored := store (f := fun s => { s with outList := l₁, outOffset := off₁ }) hs₀ hheap
      hsent rfl
    simp only [transmitted]
    split_ifs
    · exact outside hstored (.goto _) hh' rfl
    · exact outside hstored (Calm.addWrite.trans (.goto _)) hh' rfl
    · exact outside hstored (Calm.addWrite.trans (.goto _)) hh' rfl
    · exact outside hstored (.goto _) hh' rfl

theorem giveUp (h : Accounted w) (hlife : Life w) (hp : w.Live p) (hs : w.heap p = some s)
    (hh : w.handing = none) {t : Task} (hw : Server.giveUp t w p s = .ok w') :
    Accounted (w'.goto .idle) := by
  set w₀ := (w.delWrite p).delRead p with hw₀
  have hcalm : Calm w w₀ := Calm.delWrite.trans .delRead
  have hlook : w₀.lookup s.sid = some p := hlife.lookup_eq_some.mpr ⟨hp, sidOf_of_heap hs⟩
  have hacc : Accounts w₀ (update w₀.outOf p s.outList.reverse) := by
    refine (h.accounts.calm hcalm rfl rfl).perm fun q => ?_
    by_cases hq : q = p
    · subst hq
      rw [update_self, show w₀.outOf q = s.outList from outOf_of_heap hs]
      exact reverse_perm _
    · rw [update_of_ne hq]
  have hfailed := hacc.failAll hh hlook fun sid hl => hlife.sid_eq hs hl
  have hstored := store (f := fun s => { s with outList := [] })
    (show w₀.heap p = some s from hs) (heap_failAll s.sid s.outList.reverse) hfailed rfl
  set w₁ := (Server.failAll s.sid s.outList.reverse w₀).modify p fun s => { s with outList := [] }
    with hw₁
  have hquiet : Quiet (fun _ => False) w w₁ := (Quiet.delWrite.trans .delRead).trans
    ((Quiet.failAll _ _).trans (.modify rfl))
  have hpc₁ : w₁.pc = w.pc := pc_failAll _ _
  have hlife₁ : Life w₁ := hlife.quiet hquiet (fun _ hf => hf.elim) (hpc₁ ▸ hlife.pc)
    (hpc₁ ▸ hlife.works)
  have hout₁ : w₁.outOf p = [] := by
    have hheap : (Server.failAll s.sid s.outList.reverse w₀).heap p = some s := by
      rw [heap_failAll]
      exact hs
    rw [hw₁, outOf_modify hheap, update_self]
  have hsid₁ : w₁.sidOf p = some s.sid := by rw [hquiet.sid, sidOf_of_heap hs]
  obtain ⟨w₂, hremove, rfl⟩ := bind_pure_eq_ok hw
  have hremoved := hstored.remove hlife₁ (hquiet.live.mpr hp) hsid₁ hout₁ hremove
  refine outside hremoved ((Calm.pushTask _).trans (.goto _)) ?_ rfl
  rw [handing, pc_removeSession hremove, hpc₁]
  exact hh

theorem doClose (h : Accounted w) (hlife : Life w) (hp : w.Live p) (hs : w.heap p = some s)
    (hpc : w.pc = .closeRun p) (hw : w.doClose p s = .ok w') :
    Accounted (w'.goto .idle) := by
  set w₀ := (w.delWrite p).delRead p with hw₀
  have hquiet : Quiet (fun _ => False) w w₀ := Quiet.delWrite.trans .delRead
  have hlife₀ : Life w₀ := hlife.quiet hquiet (fun _ hf => hf.elim) hlife.pc hlife.works
  have hacc : Accounts w₀ w₀.outOf := h.accounts.calm (Calm.delWrite.trans .delRead) rfl rfl
  obtain ⟨w₂, hremove, rfl⟩ := bind_pure_eq_ok hw
  have hremoved := hacc.remove hlife₀ hp (sidOf_of_heap hs) (h.closing p hpc) hremove
  refine outside hremoved ((Calm.pushTask _).trans (.goto _)) ?_ rfl
  rw [handing, pc_removeSession hremove]
  change w.handing = none
  rw [handing, hpc]

theorem refused (h : Accounts w w.outOf) (hpc : w.pc = .idle) (hs : w.heap p = some s)
    (hout : s.outList = []) (size : ℕ) {f : Session → Session} (hf : (f s).outList = [w.nextMsg]) :
    Accounts ((w.newMessage size).modify p f) ((w.newMessage size).modify p f).outOf := by
  set w' := (w.newMessage size).modify p f with hw'
  have hout' : w'.outOf = update w.outOf p [w.nextMsg] := by
    rw [hw', outOf_modify (w := w.newMessage size) hs, hf]
    rfl
  rw [hout']
  have hnew := (h.fresh w.nextMsg (Nat.le_refl _)).1
  have hother : ∀ m d, w.log.dest m = some d → m ≠ w.nextMsg ∧ w'.msgs m = w.msgs m := by
    intro m d hd
    have hne : m ≠ w.nextMsg := by
      rintro rfl
      rw [hnew] at hd
      cases hd
    exact ⟨hne, update_of_ne hne ..⟩
  constructor
  · intro m hm
    have hlt : w.nextMsg < m := hm
    obtain ⟨hd, ho, hp⟩ := h.fresh m (Nat.le_of_lt hlt)
    refine ⟨hd, ho, fun q hq => ?_⟩
    by_cases hqp : q = p
    · subst hqp
      rw [update_self] at hq
      exact Nat.ne_of_gt hlt (mem_singleton.mp hq)
    · rw [update_of_ne hqp] at hq
      exact hp q hq
  · intro m d hd
    rw [(hother m d hd).2]
    exact h.whole m d hd
  · intro m d hd sid
    rw [(hother m d hd).2]
    refine (h.spread m d hd sid).trans ?_
    change _ = (w.lookup sid).elim 0 _
    rcases w.lookup sid with _ | q
    · rfl
    · by_cases hqp : q = p
      · subst hqp
        simp [outOf_of_heap hs, hout, (hother m d hd).1.symm]
      · simp [update_of_ne hqp]
  · intro m d hd
    rw [(hother m d hd).2]
    exact h.complete m d hd
  · intro m hm
    change w.handing = some m at hm
    rw [handing, hpc] at hm
    cases hm

theorem begin (h : Accounted w) (hpc : w.pc = .idle) (hs : w.heap p = some s)
    (hout : s.outList = []) (how : Start) : Accounted (w.begin p how) := by
  have hidle : w.handing = none := by rw [handing, hpc]
  cases how with
  | start => exact h.task .doStart rfl
  | wait => exact h.task (Calm.addWrite.trans .addRead) (pc_addRead.trans pc_addWrite)
  | refused size =>
    have hrefused := refused (f := fun s =>
      { s with outList := s.outList ++ [w.nextMsg], status := .eExit }) h.accounts hpc hs hout size
      (by rw [hout]; rfl)
    refine outside hrefused .addWrite hidle ?_
    have hpc' : (w.begin p (.refused size)).pc = .idle := pc_addWrite.trans hpc
    rw [apart, hpc']

theorem delete (h : Accounted w) (hp : p ∈ w.log.removed) (hlife : Life w) {i : ℕ} :
    Accounted ((w.endTask i).deleteSession p) := by
  set w' := (w.endTask i).deleteSession p with hw'
  have hself : w'.outOf p = [] := by simp [hw', outOf, deleteSession]
  have hother : ∀ q, q ≠ p → w'.outOf q = w.outOf q := fun q hq => by
    simp only [hw', outOf, deleteSession, endTask, update_of_ne hq]
  have hsub : ∀ m q, m ∈ w'.outOf q → m ∈ w.outOf q := by
    intro m q hm
    by_cases hq : q = p
    · rw [hq, hself] at hm
      cases hm
    · rwa [hother q hq] at hm
  refine ⟨?_, fun q hq => ?_⟩
  · refine { h.accounts with fresh := fun m hm => ?_, spread := fun m d hd sid => ?_ }
    · obtain ⟨hd, ho, hout⟩ := h.accounts.fresh m hm
      exact ⟨hd, ho, fun q hq => hout q (hsub m q hq)⟩
    · refine (h.accounts.spread m d hd sid).trans ?_
      change (w.lookup sid).elim 0 _ = (w.lookup sid).elim 0 _
      rcases hl : w.lookup sid with _ | q
      · rfl
      · have hq : q ≠ p := by
          rintro rfl
          exact (hlife.lookup_eq_some.mp hl).1.2 hp
        simp [hother q hq]
  · by_cases hqp : q = p
    · rw [hqp, hself]
    · rw [hother q hqp]
      exact h.closing q hq

/-- **Step lemma**: a step keeps the invariant. -/
theorem next (h : Accounted w) (hlife : Life w) {a : Action} (ha : w.Allowed a)
    (hstep : w.step a = .ok w') : Accounted w' := by
  cases step_cases ha hstep with
  | accept =>
    rename_i how mgr sid
    rcases hlife.onAccept ha how with herr | ⟨m, key, seq, hok, hlife'⟩
    · rw [step, herr] at hstep
      cases hstep
    · rw [step, hok] at hstep
      rw [← Except.ok.inj hstep]
      have hnew : Accounted (w.newSession m ⟨key, seq⟩) :=
        ⟨h.accounts.newSession hlife hlife', fun q hq => absurd (ha.symm.trans hq) (by rintro ⟨⟩)⟩
      exact hnew.begin ha (update_self ..) rfl how
  | read hs =>
    rename_i p s ev
    have hidle : w.handing = none := by rw [handing, ha.1]
    rcases onRead_pc (w := w) (p := p) ev with hpc | hpc | hpc | hpc
    · exact h.task (.onRead ev) hpc
    · exact outside h.accounts (.onRead ev) hidle (by rw [apart, hpc])
    · exact outside h.accounts (.onRead ev) hidle (by rw [apart, hpc])
    · exact outside h.accounts (.onRead ev) hidle (by rw [apart, hpc])
  | write hs => exact h.onWrite hlife ha.1 (hlife.write _ ha.2) hs _
  | response hr =>
    exact outside h.accounts ⟨rfl, rfl, rfl, rfl, rfl, rfl⟩ (by rw [handing, ha.1]) rfl
  | decode hs hpc =>
    rename_i ok p s work skip
    have hcalm := Calm.decode (w := w) (p := p) s ok work skip
    have hnext :
        ((w.decode p s ok work skip).pc = work ∨ (w.decode p s ok work skip).pc = skip) := by
      simp only [decode]
      split_ifs
      · exact .inr rfl
      · exact .inl rfl
      · exact .inr rfl
    rcases hpc with ⟨hpc, rfl, rfl⟩ | ⟨hpc, rfl, rfl⟩
    · rcases hnext with hnext | hnext <;>
        exact outside h.accounts hcalm (by rw [handing, hpc]) (by rw [apart, hnext])
    · rcases hnext with hnext | hnext <;>
        exact outside h.accounts hcalm (by rw [handing, hpc]) (by rw [apart, hnext])
  | work hs hpc =>
    rcases hpc with ⟨hpc, rfl⟩ | ⟨hpc, rfl⟩
    · exact outside h.accounts ((Calm.doWork _).trans (.goto _)) (by rw [handing, hpc]) rfl
    · exact outside h.accounts ((Calm.doWork _).trans (.goto _)) (by rw [handing, hpc]) rfl
  | tail hs hpc =>
    exact outside h.accounts (Calm.addRead.trans (.goto _)) (by rw [handing, hpc]) rfl
  | busy hs hr hpc =>
    rcases hpc with hpc | hpc | hpc
    · exact outside h.accounts (.goto _) (by rw [handing, hpc]) rfl
    · exact outside h.accounts (.goto _) (by rw [handing, hpc]) rfl
    · exact outside h.accounts (.goto _) (by rw [handing, hpc]) rfl
  | giveUp hs hr hpc hw =>
    rcases hpc with ⟨hpc, rfl⟩ | ⟨hpc, rfl⟩
    · exact h.giveUp hlife (hlife.pc _ (by rw [hpc]; rfl)) hs (by rw [handing, hpc]) hw
    · exact h.giveUp hlife (hlife.pc _ (by rw [hpc]; rfl)) hs (by rw [handing, hpc]) hw
  | close hs hr hpc hw => exact h.doClose hlife (hlife.pc _ (by rw [hpc]; rfl)) hs hpc hw
  | closeTest hs hpc =>
    split_ifs with hclose
    · have hh : w.handing = none := by rw [handing, hpc]
      refine ⟨h.accounts.calm (.goto _) hh.symm (left_eq_zero hh).symm, fun q hq => ?_⟩
      obtain ⟨rfl⟩ : EventPc.closeRun _ = .closeRun q := hq
      exact (outOf_of_heap hs).trans hclose.1
    · exact outside h.accounts (.goto _) (by rw [handing, hpc]) rfl
  | noSender hpc | responded hpc | noClose hpc hr =>
    exact outside h.accounts (.goto _) (by rw [handing, hpc]) rfl
  | sender hpc hl hs =>
    split_ifs
    · refine outside h.accounts (Calm.trans ?_ (.goto _)) (by rw [handing, hpc]) rfl
      exact .modify rfl
    · exact outside h.accounts (.goto _) (by rw [handing, hpc]) rfl
  | respEvents hpc hs =>
    exact outside h.accounts (.respEvents _ _) (by rw [handing, hpc]) rfl
  | respMessages hpc =>
    rename_i ok r
    have hsame : (w.respMessages r).outOf = w.outOf ∧ ∀ q, (w.respMessages r).pc ≠ .closeRun q := by
      rw [respMessages]
      split
      · exact ⟨rfl, by rintro _ ⟨⟩⟩
      · simp only
        split_ifs <;> exact ⟨rfl, by rintro _ ⟨⟩⟩
    refine ⟨?_, fun q hq => absurd hq (hsame.2 q)⟩
    rw [hsame.1]
    exact h.accounts.respMessages hpc
  | sidsDone hpc =>
    refine ⟨?_, by rintro _ ⟨⟩⟩
    have hout : ∀ w₁ : Server, w₁.heap = w.heap → w₁.outOf = w.outOf := fun w₁ hheap => by
      funext q
      rw [outOf, outOf, hheap]
    rw [hout _ (by split_ifs <;> rfl)]
    exact h.accounts.sidsDone hpc
  | dropSid hpc => exact ⟨h.accounts.dropSid hpc, by rintro _ ⟨⟩⟩
  | append hpc hl hs => exact ⟨h.accounts.append hlife hpc hl hs, by rintro _ ⟨⟩⟩
  | toClose hpc hr hl hs =>
    refine outside h.accounts (Calm.trans (Calm.trans ?_ .addWrite) (.goto _))
      (by rw [handing, hpc]) rfl
    exact .modify rfl
  | advance ht hsame => exact h.task (.setTask _ _) rfl
  | status ht hs hsame | clear ht =>
    refine h.task (Calm.trans ?_ (.setTask _ _)) rfl
    exact .modify rfl
  | push ht | pushLast ht | post => exact h.task ⟨rfl, rfl, rfl, rfl, rfl, rfl⟩ rfl
  | delete ht => exact h.delete (hlife.heap_of_ends ht (by simp [Task.ends])).1 hlife

end Accounted

/-! ## Every run -/

theorem reach_accounted {ok : Server → Action → Prop} {w : Server} (h : system.Reach ok w) :
    Accounted w := by
  have hboth : Life w ∧ Accounted w := by
    apply Lib.System.Reach.invariant ?_ ?_ h
    · exact ⟨.init, .init⟩
    · rintro s a s' ⟨hlife, hacc⟩ ha - hstep
      exact ⟨hlife.next ha hstep, hacc.next hlife ha hstep⟩
  exact hboth.2

/-- At every point of every run, for every message that was handed to `onResponse`: its ToList,
Success and Failure together are the destinations it came with, and, once `onResponse` is through
with the message, the sid of every living session occurs in its ToList as often as the message
occurs in the `outList` of the session, and the message was pushed to the output queue exactly
once if its ToList is empty and not at all if it is not. -/
theorem message_accounting {w : Server} (h : system.Reach (fun _ _ => True) w) {m : MsgPtr}
    {dest : List Sid} (hm : w.log.dest m = some dest) :
    ((w.msgs m).toList ++ (w.msgs m).success ++ (w.msgs m).failure).Perm dest ∧
    (w.handing = some m → m ∉ w.output) ∧
    (w.handing ≠ some m →
      (∀ p s, w.Live p → w.heap p = some s →
        (w.msgs m).toList.count s.sid = s.outList.count m) ∧
      w.output.count m = if (w.msgs m).toList = [] then 1 else 0) := by
  have hlife := reach_life h
  obtain ⟨hacc, -⟩ := reach_accounted h
  have hcomplete := hacc.complete m dest hm
  refine ⟨?_, fun hh => ?_, fun hh => ⟨fun p s hp hs => ?_, ?_⟩⟩
  · rw [List.append_assoc]
    exact hacc.whole m dest hm
  · rw [if_neg fun hc => hc.2 hh] at hcomplete
    exact List.count_eq_zero.mp hcomplete
  · have hspread := hacc.spread m dest hm s.sid
    rw [ahead, if_neg hh, List.drop_zero,
      hlife.lookup_eq_some.mpr ⟨hp, sidOf_of_heap hs⟩] at hspread
    rw [hspread, ← outOf_of_heap hs]
    rfl
  · rw [hcomplete]
    exact if_congr (and_iff_left hh) rfl rfl

/-- A greeting that names the new session twice and another one that does not exist. -/
def greeting : Outcome := ⟨false, false, [(5, [⟨1024, 0⟩, ⟨1024, 0⟩, ⟨7, 0⟩])], []⟩

/-- A session starts with this greeting, of which the first copy is written. -/
def greetedSession : List Action :=
  [.onAccept .start] ++ List.replicate 4 (.task 0 greeting) ++ [.onResponse] ++
    List.replicate 9 (.event true) ++ [.onWrite 0 (.ready [5] true)]

/-- One copy was delivered, one is still to be written, one destination failed. -/
theorem message_accounting_greeting : ∃ w, system.Reach (fun _ _ => True) w ∧
    w.log.dest 0 = some [⟨1024, 0⟩, ⟨1024, 0⟩, ⟨7, 0⟩] ∧ (w.msgs 0).toList = [⟨1024, 0⟩] ∧
    ((w.msgs 0).toList ++ (w.msgs 0).success ++ (w.msgs 0).failure).Perm
      [⟨1024, 0⟩, ⟨1024, 0⟩, ⟨7, 0⟩] ∧ w.output.count 0 = 0 := by
  have hrun : (system.run (fun _ _ => True) greetedSession system.init).map
      (fun w => (w.log.dest 0, (w.msgs 0).toList, w.handing)) =
        some (some [⟨1024, 0⟩, ⟨1024, 0⟩, ⟨7, 0⟩], [⟨1024, 0⟩], none) := by decide +kernel
  obtain ⟨w, hw, heq⟩ := Option.map_eq_some_iff.mp hrun
  obtain ⟨hdest, heq⟩ := Prod.mk.inj heq
  obtain ⟨hto, hh⟩ := Prod.mk.inj heq
  have hreach := Lib.System.Reach.run .init hw
  obtain ⟨hwhole, -, hdone⟩ := message_accounting hreach hdest
  have hcount := (hdone (by simp [hh])).2
  rw [if_neg (by simp [hto])] at hcount
  exact ⟨w, hreach, hdest, hto, hwhole, hcount⟩

end Server

end Spserver
