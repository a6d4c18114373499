import ReadingComment.Spserver.SessionTable

/-!
# Stale sids

A sid is a key and the sequence number that its entry had when the key was given
out. `remove` counts the number up, in 16 bits, so the sid of a removed session is
told apart from that of the next sessions under its key, up to the 65536th.

The runs are recorded with the sid that every session was given (`names`), since
a deleted session has none any more.
-/

namespace Spserver

open Function List

namespace Server

/-- The sid that `onAccept` gives to the next session. -/
def nextSid (w : Server) : Sid :=
  match w.mgr.allocKey with
  | .ok (_, key, seq) => ⟨key, seq⟩
  | .error _ => ⟨0, 0⟩

def noteSid (w : Server) (a : Action) (names : Ptr → Sid) : Ptr → Sid :=
  match a with
  | .onAccept _ => Function.update names w.nextPtr w.nextSid
  | _ => names

/-- The server with a record of the sids that its sessions were given. -/
def namedSystem : Lib.System (Server × (Ptr → Sid)) Action Fault :=
  system.record (fun _ => ⟨0, 0⟩) noteSid

instance (s : Server × (Ptr → Sid)) (a : Action) : Decidable (namedSystem.Allowed s a) :=
  inferInstanceAs (Decidable (s.1.Allowed a))

def removals (w : Server) (names : Ptr → Sid) (k : ℕ) : ℕ :=
  w.log.removed.countP fun p => (names p).key = k

/-- The sid to which `onResponse` delivers with its next step: to the sender, whose exit is now
due, to a destination of a message, to a session that is to be closed. -/
def addressed (w : Server) : Option Sid :=
  match w.pc with
  | .respFrom r => if isSystemSid r.fromSid then none else some r.fromSid
  | .respSids _ m (i + 1) => some (SidList.get (w.msgs m).toList i)
  | .respClose r => r.toCloseList.head?
  | _ => none

/-- Stale sids are rejected: no removed session has the sid of a living one, no living session
that of a timer or a push, and what `onResponse` delivers to the sid of a session changes no other
session, and none if that session was removed. -/
structure Rejects (w : Server) (names : Ptr → Sid) : Prop where
  fresh : ∀ p ∈ w.log.removed, ∀ q, w.Live q → names p ≠ names q
  system : ∀ q, w.Live q → isSystemSid (names q) = false
  delivery : ∀ p, p < w.nextPtr → w.addressed = some (names p) → ∀ ok w',
    w.step (.event ok) = .ok w' → ∀ q, w'.heap q ≠ w.heap q → q = p ∧ w.Live p

/-- The names of a run: of the sessions in memory they are the sids, and the sessions that were
removed under a key had the sequence numbers from 0 on, in this order. -/
structure Named (w : Server) (names : Ptr → Sid) : Prop where
  sid : ∀ p s, w.sidOf p = some s → names p = s
  seqs : ∀ k, (w.log.removed.filter fun p => (names p).key = k).map names =
    (List.range (w.removals names k)).map fun i => ⟨k, i % 2 ^ 16⟩
  seq : ∀ k, (w.mgr.entry k).seq = w.removals names k % 2 ^ 16

theorem Life.update_of_removed {w : Server} (h : Life w) {p : Ptr} (names : Ptr → Sid) (sid : Sid)
    (hp : p ∈ w.log.removed) : update names w.nextPtr sid p = names p :=
  update_of_ne (Nat.ne_of_lt (h.removed_lt p hp)) ..

namespace Named

variable {w w' : Server} {names : Ptr → Sid} {p : Ptr}

theorem init : Named Server.init fun _ => ⟨0, 0⟩ where
  sid p s hs := by cases hs
  seqs k := rfl
  seq k := by
    change 0 = 0 % 2 ^ 16
    rfl

theorem plain (h : Named w names) (hw : Plain w w') : Named w' names where
  sid p s hs := h.sid p s (hw.sid p s hs)
  seqs k := by
    rw [removals, hw.removed]
    exact h.seqs k
  seq k := by
    rw [removals, hw.removed, hw.mgr]
    exact h.seq k

section

variable (h : Named w names) (hlife : Life w)

include h hlife

theorem removeSession (hp : w.Live p) {sid : Sid} (hsid : w.sidOf p = some sid)
    (hw : w.removeSession p sid = .ok w') : Named w' names := by
  obtain ⟨k, hk⟩ := hlife.registered p hp
  obtain ⟨-, hsid'⟩ := (hlife.session k p).mp hk
  obtain rfl := Option.some.inj (hsid.symm.trans hsid')
  have hname : names p = ⟨k, (w.mgr.entry k).seq⟩ := h.sid p _ hsid
  have hrow : (w.mgr.array (k / eColPerRow)).isSome := by
    by_contra hnone
    rw [SessionManager.entry, Option.not_isSome_iff_eq_none.mp hnone] at hk
    cases hk
  rw [Server.removeSession] at hw
  split at hw
  · rename_i m o hremove
    cases hw
    have hentry := SessionManager.remove_entry hrow hremove
    -- the session is one more under its key
    have hfilter : ∀ k', [p].filter (fun q => (names q).key = k') = if k' = k then [p] else [] := by
      intro k'
      rw [filter_singleton, hname]
      by_cases hk' : k' = k
      · simp [hk']
      · simp [hk', Ne.symm hk']
    have hcount : ∀ k', (w.log.removed ++ [p]).countP (fun q => (names q).key = k') =
        w.removals names k' + if k' = k then 1 else 0 := by
      intro k'
      rw [countP_append, countP_eq_length_filter (l := [p]), hfilter]
      split_ifs <;> rfl
    refine ⟨h.sid, fun k' => ?_, fun k' => ?_⟩
    · change ((w.log.removed ++ [p]).filter _).map names =
        (List.range ((w.log.removed ++ [p]).countP _)).map _
      rw [hcount, filter_append, map_append, h.seqs, hfilter]
      split_ifs with hk'
      · rw [range_succ, map_append, hk', map_singleton, map_singleton, hname,
          h.seq]
      · simp
    · change (m.entry k').seq = (w.log.removed ++ [p]).countP _ % 2 ^ 16
      rw [hcount, hentry]
      split_ifs with hk'
      · rw [hk', h.seq, Nat.mod_add_mod]
      · exact h.seq k'
  · cases hw

theorem newSession {m : SessionManager Ptr} {sid : Sid}
    (hm : ∀ k, (m.entry k).seq = (w.mgr.entry k).seq) :
    Named (w.newSession m sid) (update names w.nextPtr sid) := by
  have hold := fun p => hlife.update_of_removed (p := p) names sid
  have hcount : ∀ k, (w.newSession m sid).removals (update names w.nextPtr sid) k =
      w.removals names k := fun k => countP_congr fun p hp => by rw [hold p hp]
  refine ⟨fun p s hs => ?_, fun k => ?_, fun k => ?_⟩
  · simp only [sidOf, Server.newSession] at hs
    by_cases hp : p = w.nextPtr
    · subst hp
      simp only [update_self] at hs ⊢
      exact Option.some.inj hs
    · rw [update_of_ne hp] at hs ⊢
      exact h.sid p s hs
  · rw [hcount, ← h.seqs k]
    change (w.log.removed.filter _).map _ = _
    rw [filter_congr fun p hp => by rw [hold p hp]]
    exact map_congr_left fun p hp => hold p (mem_of_mem_filter hp)
  · rw [hcount]
    exact (hm k).trans (h.seq k)

theorem onAccept {how : Start} (hw : w.onAccept how = .ok w') :
    Named w' (w.noteSid (.onAccept how) names) := by
  rw [Server.onAccept] at hw
  split at hw
  · cases hw
  rename_i m key seq halloc
  split_ifs at hw
  split at hw
  · cases hw
  · rename_i m' hput
    cases hw
    have hsid : w.nextSid = ⟨key, seq⟩ := by rw [nextSid, halloc]
    simp only [noteSid, hsid]
    refine (h.newSession hlife fun k => ?_).plain (.begin how)
    rw [← (SessionManager.allocKey_entry halloc k).2, (SessionManager.put_entry hput k).1]
    split_ifs with hk
    · rw [hk]
    · rfl

/-- **Step lemma**: a step names at most the session that it starts. -/
theorem next {a : Action} (ha : w.Allowed a) (hstep : w.step a = .ok w') :
    Named w' (w.noteSid a names) := by
  cases turn hlife ha hstep with
  | plain hplain hname =>
    cases a with
    | onAccept how => exact absurd rfl (hname how)
    | _ => exact h.plain hplain
  | born hacc hw =>
    subst hacc
    exact h.onAccept hlife hw
  | gone hname hp hs hlife₁ hquiet hremove hplain =>
    have hlive := hquiet.live.mpr hp
    have hsid := (congrFun hquiet.sid _).trans (sidOf_of_heap hs)
    have h' := ((h.plain (.of_quiet hquiet)).removeSession hlife₁ hlive hsid hremove).plain hplain
    cases a with
    | onAccept how => exact absurd rfl (hname how)
    | _ => exact h'

theorem live_eq (hp : w.Live p) :
    w.sidOf p = some (names p) ∧ (w.mgr.entry (names p).key).session = some p ∧
      (names p).seq = w.removals names (names p).key % 2 ^ 16 := by
  obtain ⟨k, hk⟩ := hlife.registered p hp
  obtain ⟨-, hsid⟩ := (hlife.session k p).mp hk
  rw [h.sid p _ hsid]
  exact ⟨hsid, hk, h.seq k⟩

end

/-- A removed session has the sequence number that comes next under a key if and only if the
numbers have come round. -/
theorem exists_removed_iff (h : Named w names) {k : ℕ} :
    (∃ p ∈ w.log.removed, names p = ⟨k, w.removals names k % 2 ^ 16⟩) ↔
      2 ^ 16 ≤ w.removals names k := by
  have hmem : ∀ s : Sid, s.key = k → ((∃ p ∈ w.log.removed, names p = s) ↔
      ∃ i < w.removals names k, (⟨k, i % 2 ^ 16⟩ : Sid) = s) := by
    rintro s rfl
    have := congrArg (s ∈ ·) (h.seqs s.key)
    simp only [mem_map, mem_filter, mem_range, decide_eq_true_eq, eq_iff_iff] at this
    rw [← this]
    refine exists_congr fun p => ?_
    constructor
    · rintro ⟨hp, hs⟩
      exact ⟨⟨hp, congrArg Sid.key hs⟩, hs⟩
    · rintro ⟨⟨hp, -⟩, hs⟩
      exact ⟨hp, hs⟩
  rw [hmem _ rfl]
  simp only [Sid.mk.injEq, true_and]
  constructor
  · rintro ⟨i, hi, heq⟩
    omega
  · intro hround
    exact ⟨w.removals names k - 2 ^ 16, by omega, by omega⟩

end Named

theorem lookup_of_changed {w w' : Server} {sid : Sid} {ok : Bool} {q : Ptr}
    (haddr : w.addressed = some sid) (hstep : w.eventStep ok = .ok w')
    (hq : w'.heap q ≠ w.heap q) : w.lookup sid = some q := by
  -- it is enough that the other sessions are left alone
  have found : ∀ {p}, w.lookup sid = some p → (q ≠ p → w'.heap q = w.heap q) →
      w.lookup sid = some q := by
    intro p hl hsame
    have hqp : q = p := not_not.mp fun hne => hq (hsame hne)
    rw [hqp, hl]
  rw [addressed] at haddr
  rw [eventStep] at hstep
  split at haddr
  · rename_i r hpc
    simp only [hpc, respFrom] at hstep
    split_ifs at haddr hstep
    cases haddr
    split at hstep
    · rename_i p hl
      obtain ⟨s, hs, hstep⟩ := deref_bind_eq_ok hstep
      cases hstep
      refine found hl fun hne => ?_
      split_ifs
      · exact heap_modify_ne hne
      · rfl
    · cases hstep
      exact absurd rfl hq
  · rename_i r m i hpc
    simp only [hpc, respSids] at hstep
    cases haddr
    split at hstep
    · rename_i p hl
      obtain ⟨s, hs, hstep⟩ := deref_bind_eq_ok hstep
      cases hstep
      refine found hl fun hne => ?_
      split_ifs
      · rfl
      · exact (heap_addWrite_ne hne).trans ((congrFun (heap_noteReply _) q).trans
          (heap_modify_ne hne))
    · cases hstep
      exact absurd rfl hq
  · rename_i r hpc
    simp only [hpc, respClose] at hstep
    split at hstep
    · rename_i hnil
      rw [hnil] at haddr
      cases haddr
    · rename_i sid' rest hr
      rw [hr] at haddr
      cases haddr
      split at hstep
      · rename_i p hl
        obtain ⟨s, hs, hstep⟩ := deref_bind_eq_ok hstep
        cases hstep
        exact found hl fun hne => (heap_addWrite_ne hne).trans (heap_modify_ne hne)
      · cases hstep
        exact absurd rfl hq
  · cases haddr

/-! ## Every run -/

theorem reach_named {w : Server} {names : Ptr → Sid}
    (h : namedSystem.Reach (fun _ _ => True) (w, names)) : Life w ∧ Named w names := by
  refine Lib.System.Reach.record_invariant (S := system) (fun _ _ => True)
    (fun w names => Life w ∧ Named w names) ?_ ?_ h
  · exact ⟨.init, .init⟩
  rintro w names a w' ⟨hlife, hnamed⟩ ha - hstep
  exact ⟨hlife.next ha hstep, hnamed.next hlife ha hstep⟩

/-- **Stale sids**: in every state of every run, stale sids are rejected if and only if fewer than
65536 sessions have been removed under the key of each living session. -/
theorem rejects_iff {w : Server} {names : Ptr → Sid}
    (h : namedSystem.Reach (fun _ _ => True) (w, names)) :
    Rejects w names ↔ ∀ q, w.Live q → w.removals names (names q).key < 2 ^ 16 := by
  obtain ⟨hlife, hnamed⟩ := reach_named h
  have hname : ∀ q, w.Live q →
      names q = ⟨(names q).key, w.removals names (names q).key % 2 ^ 16⟩ := by
    intro q hq
    rw [← (hnamed.live_eq hlife hq).2.2]
  constructor
  · intro hrej q hq
    by_contra hround
    obtain ⟨p, hp, hsid⟩ := hnamed.exists_removed_iff.mpr (not_lt.mp hround)
    exact hrej.fresh p hp q hq (hsid.trans (hname q hq).symm)
  · intro hfew
    have hfresh : ∀ p ∈ w.log.removed, ∀ q, w.Live q → names p ≠ names q := by
      intro p hp q hq hsame
      exact (hfew q hq).not_ge
        (hnamed.exists_removed_iff.mp ⟨p, hp, hsame.trans (hname q hq)⟩)
    refine ⟨hfresh, fun q hq => ?_, fun p hp haddr ok w' hstep q hq => ?_⟩
    · exact hlife.isSystemSid_eq hq (hnamed.live_eq hlife hq).1
    · obtain ⟨hlive, hsid⟩ := hlife.lookup_eq_some.mp (lookup_of_changed haddr hstep hq)
      have hnames : names q = names p := hnamed.sid q _ hsid
      by_cases hrem : p ∈ w.log.removed
      · exact absurd hnames.symm (hfresh p hrem q hlive)
      · have hp' := (hnamed.live_eq hlife ⟨hp, hrem⟩).2.1
        rw [← hnames, (hnamed.live_eq hlife hlive).2.1] at hp'
        exact ⟨Option.some.inj hp', hp, hrem⟩

/-! ## A sid that comes round -/

theorem Life.onAccept_key {w : Server} (h : Life w) (hpc : w.pc = .idle) {k : ℕ}
    (hfree : w.mgr.refill.freeList = k) (hk : 0 < k) (how : Start) :
    ∃ m seq, w.onAccept how = .ok ((w.newSession m ⟨k, seq⟩).begin w.nextPtr how) := by
  have halloc : (∃ m seq, w.mgr.allocKey = .ok (m, k, seq)) ∨ ∃ f, w.mgr.allocKey = .error f := by
    rw [SessionManager.allocKey]
    simp only [hfree, gt_iff_lt, hk, if_true]
    cases w.mgr.refill.entryAt k with
    | error f => exact .inr ⟨f, rfl⟩
    | ok e => exact .inl ⟨_, e.seq, rfl⟩
  have hok := h.onAccept hpc how
  rw [Server.onAccept] at hok ⊢
  rcases halloc with ⟨m, seq, halloc⟩ | ⟨f, halloc⟩
  · simp only [halloc, gt_iff_lt, hk, if_true] at hok ⊢
    cases hput : m.put k seq w.nextPtr with
    | error f =>
      simp only [hput] at hok
      rcases hok with herr | ⟨_, _, _, herr, -⟩
      · cases herr
      · cases herr
    | ok m' => exact ⟨m', seq, rfl⟩
  · simp only [halloc] at hok
    rcases hok with herr | ⟨_, _, _, herr, -⟩
    · cases herr
    · cases herr

theorem Life.removeSession_freeList {w w' : Server} (h : Life w) {p : Ptr} (hp : w.Live p)
    {sid : Sid} (hsid : w.sidOf p = some sid) (hw : w.removeSession p sid = .ok w') :
    w'.mgr.freeList = sid.key % 2 ^ 16 ∧ w'.log.removed = w.log.removed ++ [p] := by
  obtain ⟨k, hk⟩ := h.registered p hp
  obtain ⟨-, hsid'⟩ := (h.session k p).mp hk
  obtain rfl := Option.some.inj (hsid.symm.trans hsid')
  rw [Server.removeSession, SessionManager.remove] at hw
  rw [SessionManager.entry] at hk
  cases hrow : w.mgr.array (k / eColPerRow) with
  | none =>
    rw [hrow] at hk
    cases hk
  | some row =>
    simp only [hrow] at hw
    split_ifs at hw
    cases hw
    exact ⟨rfl, rfl⟩

section

variable {w : Server} {names : Ptr → Sid} (h : namedSystem.Reach (fun _ _ => True) (w, names))
  (hpc : w.pc = .idle)

include h hpc

theorem exists_accepted {k : ℕ} (hfree : w.mgr.refill.freeList = k) (hk : 0 < k) :
    ∃ w' names' p, namedSystem.Reach (fun _ _ => True) (w', names') ∧ w'.pc = .idle ∧
      w'.readEvents p = true ∧ w'.runningOf p = false ∧ (names' p).key = k ∧
      w'.removals names' k = w.removals names k := by
  obtain ⟨hlife, -⟩ := reach_named h
  obtain ⟨m, seq, hacc⟩ := hlife.onAccept_key hpc hfree hk .wait
  have hallowed : system.Allowed w (.onAccept .wait) := hpc
  have h' := h.record_step (S := system) (fun _ _ => True) hallowed trivial hacc
  set w' := (w.newSession m ⟨k, seq⟩).begin w.nextPtr .wait with hw'
  have hnew : w'.pc = .idle ∧ w'.readEvents w.nextPtr = true ∧ w'.runningOf w.nextPtr = false ∧
      w'.sidOf w.nextPtr = some ⟨k, seq⟩ := by
    simp [hw', begin, addWrite, addRead, newSession, modify, Session.new, hpc, runningOf, sidOf]
  obtain ⟨hpc', hread, hrun, hsid⟩ := hnew
  refine ⟨w', _, w.nextPtr, h', hpc', hread, hrun, ?_, ?_⟩
  · exact congrArg Sid.key ((reach_named h').2.sid _ _ hsid)
  · have hplain : Plain (w.newSession m ⟨k, seq⟩) w' := .begin .wait
    rw [removals, hplain.removed]
    exact countP_congr fun p hp => by rw [noteSid, hlife.update_of_removed names _ hp]

theorem exists_given_up {p : Ptr} (hread : w.readEvents p = true) (hrun : w.runningOf p = false) :
    ∃ w', namedSystem.Reach (fun _ _ => True) (w', names) ∧ w'.pc = .idle ∧
      w'.mgr.freeList = (names p).key % 2 ^ 16 ∧
      w'.removals names (names p).key = w.removals names (names p).key + 1 := by
  obtain ⟨hlife, -⟩ := reach_named h
  obtain ⟨s, hs, hderef⟩ := hlife.deref (hlife.read p hread)
  -- `onRead` finds the channel broken
  have hfail : system.step w (.onRead p .failed) = .ok (w.onRead p .failed) := by
    change (do let _ ← w.deref p; return w.onRead p .failed) = _
    rw [hderef]
    rfl
  have hallowed : system.Allowed w (.onRead p .failed) := ⟨hpc, hread⟩
  have h₁ := h.record_step (S := system) (fun _ _ => True) hallowed trivial hfail
  have hquiet : Quiet (· = p) w (w.onRead p .failed) := .onRead .failed
  set w₁ := w.onRead p .failed with hw₁
  obtain ⟨hlife₁, hnamed₁⟩ := reach_named h₁
  have hlive₁ : w₁.Live p := hquiet.live.mpr (hlife.read p hread)
  -- and gives the session up
  obtain ⟨s₁, hs₁, hderef₁⟩ := hlife₁.deref hlive₁
  have hrun₁ : s₁.running = false := by rw [← runningOf_of_heap hs₁, hquiet.running, hrun]
  obtain ⟨w₂, hgive, -⟩ :=
    hlife₁.giveUp hlive₁ hs₁ hrun₁ (t := .error p) (fun _ => rfl) fun _ => rfl
  have hstep : system.step w₁ (.event true) = .ok (w₂.goto .idle) := by
    change w₁.eventStep true = _
    have hpc₁ : w₁.pc = .error p := rfl
    simp only [eventStep, hpc₁, hderef₁]
    exact (if_neg (by simp [hrun₁])).trans (by rw [doError, hgive]; rfl)
  have hallowed₁ : system.Allowed w₁ (.event true) := (by rintro ⟨⟩)
  have h₂ := h₁.record_step (S := system) (fun _ _ => True) hallowed₁ trivial hstep
  obtain ⟨w₃, w₄, hquiet', hpc₃, hremove, rfl⟩ := giveUp_eq_ok hgive
  have hlife₃ : Life w₃ :=
    hlife₁.quiet hquiet' (fun _ hf => hf.elim) (hpc₃ ▸ hlife₁.pc) (hpc₃ ▸ hlife₁.works)
  have hname : names p = s₁.sid := hnamed₁.sid p _ (sidOf_of_heap hs₁)
  have hsid₃ : w₃.sidOf p = some (names p) := by rw [hquiet'.sid, sidOf_of_heap hs₁, hname]
  obtain ⟨hfree, hremoved⟩ :=
    hlife₃.removeSession_freeList (hquiet'.live.mpr hlive₁) hsid₃ (hname ▸ hremove)
  refine ⟨_, h₂, rfl, hfree, ?_⟩
  change w₄.log.removed.countP _ = _
  rw [hremoved, hquiet'.removed, hquiet.removed, countP_append, countP_singleton,
    if_pos (by simp)]
  rfl

end

theorem exists_cycles (n : ℕ) : ∃ w names, namedSystem.Reach (fun _ _ => True) (w, names) ∧
    w.pc = .idle ∧ w.mgr.refill.freeList = eColPerRow ∧ w.removals names eColPerRow = n := by
  induction n with
  | zero => exact ⟨_, _, .init, rfl, by decide +kernel, rfl⟩
  | succ n ih =>
    obtain ⟨w, names, h, hpc, hfree, hn⟩ := ih
    obtain ⟨w₁, names₁, p, h₁, hpc₁, hread, hrun, hkey, hn₁⟩ :=
      exists_accepted h hpc hfree (by decide)
    obtain ⟨w₂, h₂, hpc₂, hfree₂, hn₂⟩ := exists_given_up h₁ hpc₁ hread hrun
    rw [hkey] at hfree₂ hn₂
    refine ⟨w₂, names₁, h₂, hpc₂, ?_, by rw [hn₂, hn₁, hn]⟩
    rw [SessionManager.refill, if_neg (by rw [hfree₂]; decide), hfree₂]
    rfl

/-- The 65537th session under the first key has the sid of the first one, which was removed. -/
theorem sid_comes_round : ∃ w names, namedSystem.Reach (fun _ _ => True) (w, names) ∧
    ∃ p ∈ w.log.removed, ∃ q, w.Live q ∧ names p = names q := by
  obtain ⟨w, names, h, hpc, hfree, hn⟩ := exists_cycles (2 ^ 16)
  obtain ⟨w', names', q, h', -, hread, -, hkey, hn'⟩ := exists_accepted h hpc hfree (by decide)
  obtain ⟨hlife, hnamed⟩ := reach_named h'
  have hq := hlife.read q hread
  obtain ⟨p, hp, hsid⟩ := hnamed.exists_removed_iff.mpr (hn'.trans hn).ge
  refine ⟨w', names', h', p, hp, q, hq, hsid.trans ?_⟩
  rw [← hkey, ← (hnamed.live_eq hlife hq).2.2]

/-- A second session lives under the key of the first one, which failed. -/
theorem rejects_iff_second : ∃ w names, namedSystem.Reach (fun _ _ => True) (w, names) ∧
    w.log.removed = [0] ∧ w.Live 1 ∧ (names 1).key = (names 0).key ∧ Rejects w names := by
  have hrun : (namedSystem.run (fun _ _ => True) (failedSession ++ [.onAccept .start])
      namedSystem.init).map (fun s => (s.1.log.removed, s.1.nextPtr, s.2 0, s.2 1)) =
        some ([0], 2, ⟨1024, 0⟩, ⟨1024, 1⟩) := by decide +kernel
  obtain ⟨⟨w, names⟩, hw, hlog⟩ := Option.map_eq_some_iff.mp hrun
  simp only [Prod.mk.injEq] at hlog
  obtain ⟨hremoved, hnext, h0, h1⟩ := hlog
  have hreach := Lib.System.Reach.run .init hw
  refine ⟨w, names, hreach, hremoved, ⟨by simp [hnext], by simp [hremoved]⟩, by rw [h0, h1],
    (rejects_iff hreach).mpr fun q _ => ?_⟩
  calc w.removals names (names q).key ≤ w.log.removed.length := List.countP_le_length
    _ = 1 := by rw [hremoved]; rfl
    _ < 2 ^ 16 := by decide

end Server

end Spserver
