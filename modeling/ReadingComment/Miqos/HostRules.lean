import ReadingComment.Miqos.Flush

/-!
# The rules of the hosts

Whatever commands and reports the daemon gets, in the HTB mode the installed classes are
those of the hosts in its table, as long as the last octets of the hosts in each
report that it uses are valid and different. The invariant says for each mode what is
installed.
-/

namespace Miqos

open Lib

variable {setup : Setup} {s : Daemon} {report : Report}

/-! ## Modes -/

/-- `cur_bandwidth` for a bandwidth, with `band_extend_factor`. -/
def Band.extended (b : Band) : Band := ⟨ceil (b.up * (105/100)), ceil (b.down * (105/100))⟩

/-- Nothing is installed. -/
structure Off (s : Daemon) : Prop where
  tc : ∀ d o, s.tc d o = none
  htbReady : s.htbReady = false
  prioReady : s.prioReady = false
  curEnabled : s.curEnabled = false
  hosts : s.hosts = ∅

structure Prio (s : Daemon) : Prop where
  ifbUp : s.ifbUp = true
  prioReady : s.prioReady = true
  curEnabled : s.curEnabled = false

/-- The classes of the hosts are installed. -/
structure Htb (kinds : Kinds) (s : Daemon) : Prop where
  ifbUp : s.ifbUp = true
  htbReady : s.htbReady = true
  curEnabled : s.curEnabled = true
  crt : s.crt.isSome
  clear : s.hosts.Clear
  holds : ∀ d, Holds kinds (s.tc d) s.hosts.ids

/-- **The invariant.** -/
structure Inv (kinds : Kinds) (s : Daemon) : Prop where
  band : s.curBand = s.tcBand.extended
  off : s.status = .off → Off s
  prio : s.status = .prio → Prio s
  htb : s.status = .htb → Htb kinds s

theorem start_inv (kinds : Kinds) (cfg : Config) (wan : Option Wan) :
    Inv kinds (start cfg wan) := by
  have hzero : ceil (0 * (105/100)) = 0 := by
    rw [ceil, zero_mul, Int.ceil_zero, Int.cast_zero]
  refine ⟨?_, fun _ => ⟨fun _ _ => rfl, rfl, rfl, rfl, rfl⟩, nofun, nofun⟩
  rw [Band.extended, start, hzero]

/-! ## Commands -/

/-- A command changes the configuration and what is remembered of it. -/
def Daemon.Commanded (s s' : Daemon) : Prop :=
  s' = { s with
    cfg := s'.cfg, closeLayer1 := s'.closeLayer1, cfgChanged := s'.cfgChanged
    qosType := s'.qosType, wanType := s'.wanType }

variable {s' : Daemon}

theorem commanded_of_group {x : Except Exit Config} {r r' : Reply} {changed : Changed}
    (h : (do let cfg ← x; return ({ s with cfg := cfg, cfgChanged := changed }, r')) =
      (.ok (s', r) : Except Exit (Daemon × Reply))) : s.Commanded s' := by
  cases x with
  | error e => cases h
  | ok cfg =>
    cases h
    rfl

variable {r : Reply} {changed : Bool}

theorem limit_noted (s : Daemon) (activeSoon : Bool) :
    (if activeSoon = true then { s with cfgChanged := .host } else s) =
    { s with cfgChanged := if activeSoon = true then .host else s.cfgChanged } := by
  cases activeSoon <;> rfl

theorem limit_frame {activeSoon : Bool} {type : Option LimitType} {mac : Option Mac}
    {arg4 arg5 arg6 arg7 : Num}
    (h : s.limit activeSoon type mac arg4 arg5 arg6 arg7 = .ok (s', r)) :
    s.Commanded s' := by
  cases type with
  | none =>
    cases h
    rfl
  | some type =>
    cases mac with
    | none =>
      cases h
      rfl
    | some mac =>
      simp only [Daemon.limit, limit_noted] at h
      cases type with
      | max => exact commanded_of_group h
      | min => exact commanded_of_group h
      | both => exact commanded_of_group h
      | other =>
        cases h
        rfl

theorem changeBand_frame {up down : Num} (h : s.changeBand up down = .ok (s', r)) :
    s.Commanded s' := by
  rw [Daemon.changeBand.eq_def] at h
  split at h
  · cases h
    rfl
  · cases h
    rfl
  · cases h
  · split at h
    · cases h
      rfl
    · split at h
      · split at h <;> cases h <;> rfl
      · cases h

theorem onGuest_frame {up down : Num} (h : s.onGuest up down = .ok (s', r)) : s.Commanded s' := by
  rw [Daemon.onGuest.eq_def] at h
  split at h
  all_goals
    cases h
    try rfl

theorem dispatch_frame {c : Command} (h : s.dispatch c = .ok (s', r)) :
    s.Commanded s' := by
  cases c with
  | on wan =>
    cases h
    rfl
  | off wan =>
    cases h
    rfl
  | shutdown =>
    cases h
    rfl
  | changeBand up down => exact changeBand_frame h
  | onGuest up down => exact onGuest_frame h
  | limit activeSoon type mac arg4 arg5 arg6 arg7 =>
    simp only [Daemon.dispatch] at h
    split at h
    · cases h
      rfl
    · exact limit_frame h
  | unlimit activeSoon mac | setType type | apply both =>
    simp only [Daemon.dispatch] at h
    split at h <;> cases h <;> rfl

theorem Inv.commanded {kinds : Kinds} (h : Inv kinds s) (hs : s.Commanded s') :
    Inv kinds s' := by
  rw [hs]
  refine ⟨h.band, fun hst => ?_, fun hst => ?_, fun hst => ?_⟩
  · obtain ⟨htc, hhtb, hprio, hcur, hhosts⟩ := h.off hst
    exact ⟨htc, hhtb, hprio, hcur, hhosts⟩
  · obtain ⟨hifb, hprio, hcur⟩ := h.prio hst
    exact ⟨hifb, hprio, hcur⟩
  · obtain ⟨hifb, hhtb, hcur, hcrt, hclear, hholds⟩ := h.htb hst
    exact ⟨hifb, hhtb, hcur, hcrt, hclear, hholds⟩

/-! ## The check of the status -/

/-- The state after `read_qos_config` and `check_status_changed`. -/
def Daemon.checked (s : Daemon) : Daemon :=
  { s with
    cfg := writeQosType s.cfg
    qosType := (writeQosType s.cfg).qosType
    curWanType := s.wanType
    cfgChanged := if s.cfgChanged = .all then .none else s.cfgChanged
    tcBand := determineBand s.cfg
    curBand := (determineBand s.cfg).extended
    curGuest := s.cfg.guest }

/-- The result of `check_status_changed`. -/
def Daemon.statusChanged (s : Daemon) : Bool :=
  decide (s.cfg.enabled ≠ s.curEnabled ∨ s.wanType ≠ s.curWanType ∨ s.cfgChanged = .all ∨
    determineBand s.cfg ≠ s.tcBand ∨ s.cfg.guest ≠ s.curGuest)

theorem writeQosType_frame (cfg : Config) :
    writeQosType cfg = { cfg with qosType := (writeQosType cfg).qosType } := by
  rw [writeQosType]
  split <;> rfl

theorem checkStatus_eq (h : s.curBand = s.tcBand.extended) :
    Daemon.checkStatus { s with
      cfg := writeQosType s.cfg, qosType := (writeQosType s.cfg).qosType } =
      (s.checked, s.statusChanged) := by
  have hframe := writeQosType_frame s.cfg
  have hband : determineBand (writeQosType s.cfg) = determineBand s.cfg := by
    rw [hframe]
    rfl
  have henabled : (writeQosType s.cfg).enabled = s.cfg.enabled := by rw [hframe]
  have hguest : (writeQosType s.cfg).guest = s.cfg.guest := by rw [hframe]
  have hcur : (if determineBand s.cfg ≠ s.tcBand then (determineBand s.cfg).extended
      else s.curBand) = (determineBand s.cfg).extended := by
    split
    · rfl
    · rename_i heq
      rw [h, not_not.mp heq]
  simp only [Daemon.checkStatus, hband, henabled, hguest]
  rw [Daemon.checked, ← hcur]
  rfl

theorem ceil_lt_one_iff {x : ℚ} : ceil x < 1 ↔ x ≤ 0 := by
  rw [ceil, ← Int.cast_one, Int.cast_lt]
  constructor
  · intro h
    have hle : ⌈x⌉ ≤ 0 := Int.lt_add_one_iff.mp h
    exact_mod_cast Int.ceil_le.mp hle
  · intro h
    have hle : ⌈x⌉ ≤ 0 := Int.ceil_le.mpr (by exact_mod_cast h)
    exact Int.lt_add_one_iff.mpr hle

def Config.HasBand (cfg : Config) : Prop := 0 < cfg.band.up ∧ 0 < cfg.band.down

theorem extended_small_iff (cfg : Config) :
    (determineBand cfg).extended.up < 1 ∨ (determineBand cfg).extended.down < 1 ↔
    ¬ cfg.HasBand := by
  have hmul : ∀ x : ℚ, x * (105/100) ≤ 0 ↔ ¬ 0 < x := by
    intro x
    rw [not_lt]
    constructor
    · intro h
      linarith
    · intro h
      linarith
  rw [Band.extended, ceil_lt_one_iff, ceil_lt_one_iff, hmul, hmul, Config.HasBand, not_and_or,
    determineBand]
  split
  · rfl
  · rename_i hnone
    rw [not_or] at hnone
    refine iff_of_true (.inl (lt_irrefl 0)) (.inl hnone.1)

/-! ## The rules in the PRIO mode -/

theorem exec_prio {add : Bool} {d : Direction} (h : add = true → s.tc d .root = none)
    (ratelimit guest : ℚ) :
    ∃ t, s.exec d (layer1PrioCmds add ratelimit guest) =
      .ok { s with tc := Function.update s.tc d t } := by
  have hsome : (runAll (layer1PrioCmds add ratelimit guest) (s.tc d)).isSome := by
    cases add with
    | true =>
      have hroot : Cmd.run ⟨.add, .root, .prio⟩ (s.tc d) =
          some (Function.update (s.tc d) .root (some .prio)) := by
        rw [Cmd.run]
        simp only [h rfl, Option.isNone_none, if_true]
      rw [layer1PrioCmds, if_pos rfl, List.singleton_append, runAll, List.foldlM_cons, hroot]
      rfl
    | false => rfl
  obtain ⟨t, ht⟩ := Option.isSome_iff_exists.mp hsome
  refine ⟨t, ?_⟩
  rw [Daemon.exec, ht]

theorem flushPrio_spec (h : s.prioReady = true ∨ ∀ d, s.tc d .root = none) :
    ∃ tc, s.flushPrio = .ok { s with tc := tc, prioReady := true } := by
  have hroot : ∀ d, (!s.prioReady) = true → s.tc d .root = none := by
    intro d hnot
    rcases h with hready | hnone
    · rw [hready] at hnot
      cases hnot
    · exact hnone d
  obtain ⟨t, hdown⟩ := exec_prio (hroot .down) (s.curBand.get .down) (s.curGuest.get .down)
  have hne : Direction.up ≠ Direction.down := nofun
  have hroot' : (!s.prioReady) = true →
      Daemon.tc { s with tc := Function.update s.tc .down t } .up .root = none := by
    intro hnot
    have hup : Function.update s.tc .down t .up = s.tc .up := Function.update_of_ne hne ..
    exact (congrFun hup .root).trans (hroot .up hnot)
  obtain ⟨t', hup⟩ := exec_prio hroot' (s.curBand.get .up) (s.curGuest.get .up)
  refine ⟨Function.update (Function.update s.tc .down t) .up t', ?_⟩
  rw [Daemon.flushPrio]
  simp only [flows, List.foldlM_cons, List.foldlM_nil, bind, Except.bind, hdown, hup, pure,
    Except.pure]

/-- **The rules in the PRIO mode.** -/
theorem flushRules_prio (henabled : s.cfg.enabled = false)
    (h : s.prioReady = true ∨ ∀ d, s.tc d .root = none)
    (hready : changed = false → s.prioReady = true) :
    s.flushRules setup report changed = .ok (s, false) ∨
    ∃ tc nxt alive, s.flushRules setup report changed =
      .ok ({ s with tc := tc, nxt := nxt, alive := alive, prioReady := true }, true) := by
  rw [Daemon.flushRules]
  split
  · exact .inl rfl
  · right
    have hnot : ¬ s.cfg.enabled = true := by
      rw [henabled]
      exact Bool.false_ne_true
    rw [if_pos hnot]
    cases changed with
    | true =>
      obtain ⟨tc, hrun⟩ := flushPrio_spec (s := { s with
        nxt := some (updateHostListCompact report s.alive).nxt
        alive := (updateHostListCompact report s.alive).alive }) h
      refine ⟨tc, some (updateHostListCompact report s.alive).nxt,
        (updateHostListCompact report s.alive).alive, ?_⟩
      simp only [if_true, hrun]
      rfl
    | false =>
      have hsame : ∀ nxt alive, ({ s with nxt := nxt, alive := alive } : Daemon) =
          { s with tc := s.tc, nxt := nxt, alive := alive, prioReady := true } := by
        intro nxt alive
        rw [← hready rfl]
      refine ⟨s.tc, some (updateHostListCompact report s.alive).nxt,
        (updateHostListCompact report s.alive).alive, ?_⟩
      rw [← hsame]
      rfl

/-! ## Ticks -/

/-- What was changed is taken over. -/
structure Settled (s : Daemon) : Prop where
  enabled : s.cfg.enabled = true
  curEnabled : s.curEnabled = true
  wan : s.curWanType = s.wanType
  changed : s.cfgChanged = .none
  band : s.tcBand = determineBand s.cfg
  guest : s.curGuest = s.cfg.guest

/-- What holds after a tick. -/
structure Updated (kinds : Kinds) (report : Report) (s : Daemon) : Prop where
  inv : Inv kinds s
  settled : s.status = .htb → Settled s
  consistent : s.status = .htb → ∃ crt, s.crt = some crt ∧ Consistent kinds report s.tc crt

theorem updated_fail (kinds : Kinds) (report : Report) (h : s.curBand = s.tcBand.extended) :
    Updated kinds report s.cleanupSystem.fail :=
  ⟨⟨h, fun _ => ⟨fun _ _ => rfl, rfl, rfl, rfl, rfl⟩, nofun, nofun⟩, nofun, nofun⟩

theorem updated_prio (kinds : Kinds) (report : Report) (h : s'.curBand = s'.tcBand.extended)
    (hst : s'.status = .prio) (hprio : Prio s') :
    Updated kinds report s' := by
  refine ⟨⟨h, ?_, fun _ => hprio, ?_⟩, ?_, ?_⟩
  all_goals
    rw [hst]
    exact nofun

theorem updated_htb {kinds : Kinds} {crt : IpMap} (h : s'.curBand = s'.tcBand.extended)
    (hst : s'.status = .htb) (hifb : s'.ifbUp = true) (hready : s'.htbReady = true)
    (hset : Settled s') (hcrt : s'.crt = some crt) (hcons : Consistent kinds report s'.tc crt) :
    Updated kinds report s' := by
  have hhosts : s'.hosts = crt := by
    rw [Daemon.hosts, hcrt]
    rfl
  refine ⟨⟨h, ?_, ?_, fun _ => ⟨hifb, hready, hset.curEnabled, ?_, ?_, ?_⟩⟩, fun _ => hset,
    fun _ => ⟨crt, hcrt, hcons⟩⟩
  · rw [hst]
    rintro ⟨⟩
  · rw [hst]
    rintro ⟨⟩
  · rw [hcrt]
    rfl
  · rw [hhosts]
    exact hcons.clear
  · rw [hhosts]
    exact hcons.holds

/-- What the check of the status leaves. -/
structure Checked (s : Daemon) : Prop where
  band : s.curBand = s.tcBand.extended
  tcBand : s.tcBand = determineBand s.cfg
  guest : s.curGuest = s.cfg.guest
  wan : s.curWanType = s.wanType
  changed : s.cfgChanged ≠ .all
  ifbUp : s.ifbUp = true

theorem checked_checked (h : s.ifbUp = true) : Checked s.checked := by
  have hframe := writeQosType_frame s.cfg
  refine ⟨rfl, ?_, ?_, rfl, ?_, h⟩
  · rw [Daemon.checked, hframe]
    rfl
  · rw [Daemon.checked, hframe]
  · rw [Daemon.checked]
    split
    · exact nofun
    · rename_i hne
      exact hne

theorem flushRules_updated (hs : Checked s) (henabled : s.cfg.enabled = true)
    (hgood : s.cfg.HasBand → Good report) (hclear : s.hosts.Clear)
    (hlayer : Layered setup.kinds s s.hosts.ids)
    (hready : changed = false → s.htbReady = true ∧ s.crt.isSome) :
    s.flushRules setup report changed = .error .lua ∨
    s.flushRules setup report changed = .ok (s, false) ∨
    ∃ s', s.flushRules setup report changed = .ok (s', true) ∧ s'.status = s.status ∧
      Updated setup.kinds report { s' with status := .htb, curEnabled := true } := by
  rcases Classical.em (s.curBand.up < 1 ∨ s.curBand.down < 1) with hsmall | hband
  · refine .inr (.inl ?_)
    rw [Daemon.flushRules, if_pos hsmall]
  · have hhas : s.cfg.HasBand := by
      by_contra hnot
      apply hband
      rw [hs.band, hs.tcBand]
      exact (extended_small_iff s.cfg).mpr hnot
    rcases flushRules_spec hband henabled (hgood hhas) hclear hlayer hready with
      hlua | ⟨tc, crt, nxt, hok, hcons, -, -⟩
    · exact .inl hlua
    · refine .inr (.inr ⟨_, hok, rfl, ?_⟩)
      have hchanged : (if s.cfgChanged = .host then Changed.none else s.cfgChanged) = .none := by
        cases hc : s.cfgChanged with
        | none => rfl
        | host => rfl
        | all => exact absurd hc hs.changed
      exact updated_htb hs.band rfl hs.ifbUp rfl
        ⟨henabled, rfl, hs.wan, hchanged, hs.tcBand, hs.guest⟩ rfl hcons

def Daemon.Fed (s : Daemon) (report : Report) : Prop :=
  s.closeLayer1 = false → s.cfg.enabled = true → s.cfg.HasBand → Good report

theorem Daemon.Fed.good (h : s.Fed report) (hopen : ¬ s.closeLayer1 = true)
    (henabled : ¬ ¬ s.checked.cfg.enabled = true) : s.checked.cfg.HasBand → Good report := by
  rw [Daemon.checked, writeQosType_frame] at henabled ⊢
  exact h (Bool.eq_false_iff.mpr hopen) (not_not.mp henabled)

theorem updateRules_htb (h : Inv setup.kinds s) (hst : s.status = .htb) (hfed : s.Fed report) :
    s.updateRules setup report = .error .lua ∨
    ∃ s' ok, s.updateRules setup report = .ok (s', ok) ∧ Updated setup.kinds report s' := by
  obtain ⟨hifb, hready, hcur, hcrt, hclear, hholds⟩ := h.htb hst
  have hchecked := checked_checked hifb
  have hmode : s.checked.status = .htb := hst
  rw [Daemon.updateRules]
  simp only [checkStatus_eq h.band, hmode]
  split
  · exact .inr ⟨_, _, rfl, updated_fail _ _ hchecked.band⟩
  · rename_i hopen
    split
    · -- to the PRIO mode
      rename_i hoff
      have henabled : s.checked.cleanupSystem.cfg.enabled = false := Bool.eq_false_iff.mpr hoff
      have hchanged : s.statusChanged = true := by
        rw [Daemon.statusChanged, decide_eq_true_iff]
        left
        rw [hcur]
        rw [Daemon.checked, writeQosType_frame] at hoff
        exact hoff
      rcases @flushRules_prio setup _ report s.statusChanged
        henabled (.inr fun _ => rfl) (by rw [hchanged]; nofun) with hfail | ⟨tc, nxt, alive, hok⟩
      · rw [hfail]
        exact .inr ⟨_, _, rfl, updated_fail _ _ hchecked.band⟩
      · rw [hok]
        exact .inr ⟨_, _, rfl, updated_prio _ _ hchecked.band rfl ⟨hifb, rfl, rfl⟩⟩
    · rename_i hon
      rcases @flushRules_updated setup _ report s.statusChanged hchecked
        (not_not.mp hon) (hfed.good hopen hon) hclear (.inl ⟨hready, hholds⟩)
        (fun _ => ⟨hready, hcrt⟩) with hlua | hfail | ⟨s', hok, hst', hupd⟩
      · rw [hlua]
        exact .inl rfl
      · rw [hfail]
        exact .inr ⟨_, _, rfl, updated_fail _ _ hchecked.band⟩
      · rw [hok]
        have hmode' : ({ s' with curEnabled := true } : Daemon) =
            { s' with status := .htb, curEnabled := true } := by rw [← hmode, ← hst']
        refine .inr ⟨_, _, rfl, ?_⟩
        rw [hmode']
        exact hupd

theorem flushRules_begin (hs : Checked s) (henabled : s.cfg.enabled = true)
    (hgood : s.cfg.HasBand → Good report) (htc : ∀ d o, s.tc d o = none) (hhtb : s.htbReady = false)
    (hhosts : s.hosts = ∅) (hchanged : changed = true) :
    s.flushRules setup report changed = .error .lua ∨
    s.flushRules setup report changed = .ok (s, false) ∨
    ∃ s', s.flushRules setup report changed = .ok (s', true) ∧
      Updated setup.kinds report { s' with status := .htb, curEnabled := true } := by
  have hclear : s.hosts.Clear := hhosts ▸ IpMap.clear_empty
  have hlayer : Layered setup.kinds s s.hosts.ids := by
    rw [hhosts, IpMap.ids_empty]
    exact .inr ⟨hhtb, rfl, htc⟩
  have hready : changed = false → s.htbReady = true ∧ s.crt.isSome := by
    rw [hchanged]
    exact nofun
  rcases flushRules_updated hs henabled hgood hclear hlayer hready with
    hlua | hfail | ⟨s', hok, -, hupd⟩
  · exact .inl hlua
  · exact .inr (.inl hfail)
  · exact .inr (.inr ⟨s', hok, hupd⟩)

theorem updateRules_prio (h : Inv setup.kinds s) (hst : s.status = .prio) (hfed : s.Fed report) :
    s.updateRules setup report = .error .lua ∨
    ∃ s' ok, s.updateRules setup report = .ok (s', ok) ∧ Updated setup.kinds report s' := by
  obtain ⟨hifb, hready, hcur⟩ := h.prio hst
  have hchecked := checked_checked hifb
  have hmode : s.checked.status = .prio := hst
  rw [Daemon.updateRules]
  simp only [checkStatus_eq h.band, hmode]
  split
  · exact .inr ⟨_, _, rfl, updated_fail _ _ hchecked.band⟩
  · rename_i hopen
    split
    · rename_i hoff
      rcases @flushRules_prio setup _ report s.statusChanged
        (Bool.eq_false_iff.mpr hoff) (.inl hready) (fun _ => hready) with
        hfail | ⟨tc, nxt, alive, hok⟩
      · rw [hfail]
        exact .inr ⟨_, _, rfl, updated_prio _ _ hchecked.band hst ⟨hifb, hready, rfl⟩⟩
      · rw [hok]
        exact .inr ⟨_, _, rfl, updated_prio _ _ hchecked.band hst ⟨hifb, rfl, rfl⟩⟩
    · -- to the HTB mode
      rename_i hon
      have hchanged : s.statusChanged = true := by
        rw [Daemon.statusChanged, decide_eq_true_iff]
        left
        rw [hcur]
        rw [Daemon.checked, writeQosType_frame] at hon
        rw [not_not.mp hon]
        exact nofun
      have hcleaned : Checked s.checked.cleanupSystem :=
        ⟨hchecked.band, hchecked.tcBand, hchecked.guest, hchecked.wan, hchecked.changed,
          hchecked.ifbUp⟩
      rcases @flushRules_begin setup _ report s.statusChanged hcleaned
        (not_not.mp hon) (hfed.good hopen hon) (fun _ _ => rfl) rfl rfl hchanged with
        hlua | hfail | ⟨s', hok, hupd⟩
      · rw [hlua]
        exact .inl rfl
      · rw [hfail]
        exact .inr ⟨_, _, rfl, updated_fail _ _ hchecked.band⟩
      · rw [hok]
        exact .inr ⟨_, _, rfl, hupd⟩

theorem updateRules_off (h : Inv setup.kinds s) (hst : s.status = .off) (hifb : s.ifbUp = true)
    (hfed : s.Fed report) :
    s.updateRules setup report = .error .lua ∨
    ∃ s' ok, s.updateRules setup report = .ok (s', ok) ∧ Updated setup.kinds report s' := by
  obtain ⟨htc, hhtb, hprio, hcur, hhosts⟩ := h.off hst
  have hchecked := checked_checked hifb
  have hmode : s.checked.status = .off := hst
  have hoff : ∀ s', s'.curBand = s'.tcBand.extended → s'.status = .off → Off s' →
      Updated setup.kinds report s' := by
    intro s' hband hst' hoff
    refine ⟨⟨hband, fun _ => hoff, ?_, ?_⟩, ?_, ?_⟩
    all_goals
      rw [hst']
      exact nofun
  rw [Daemon.updateRules]
  simp only [checkStatus_eq h.band, hmode]
  split
  · exact .inr ⟨_, _, rfl, hoff _ hchecked.band hst ⟨htc, hhtb, hprio, hcur, hhosts⟩⟩
  · rename_i hopen
    split
    · rename_i hdisabled
      rcases @flushRules_prio setup _ report true
        (Bool.eq_false_iff.mpr hdisabled) (.inr fun d => htc d .root) nofun with
        hfail | ⟨tc, nxt, alive, hok⟩
      · rw [hfail]
        exact .inr ⟨_, _, rfl, hoff _ hchecked.band rfl ⟨htc, hhtb, hprio, rfl, hhosts⟩⟩
      · rw [hok]
        exact .inr ⟨_, _, rfl, updated_prio _ _ hchecked.band rfl ⟨hifb, rfl, rfl⟩⟩
    · rename_i hon
      rcases @flushRules_begin setup _ report _ hchecked (not_not.mp hon) (hfed.good hopen hon) htc
        hhtb hhosts rfl with hlua | hfail | ⟨s', hok, hupd⟩
      · rw [hlua]
        exact .inl rfl
      · rw [hfail]
        exact .inr ⟨_, _, rfl, updated_fail _ _ hchecked.band⟩
      · rw [hok]
        exact .inr ⟨_, _, rfl, hupd⟩

/-- **A tick**: it is an error of Lua, or the rules are as they should be. -/
theorem tick_spec {ifb : Bool} (h : Inv setup.kinds s) (hup : s.ifbUp = true ∨ ifb = true)
    (hfed : s.Fed report) :
    s.tick setup ifb report = .error .lua ∨
    ∃ s', s.tick setup ifb report = .ok s' ∧ Updated setup.kinds report s' := by
  have hinv : Inv setup.kinds { s with ifbUp := true } := by
    refine ⟨h.band, fun hst => ?_, fun hst => ?_, fun hst => ?_⟩
    · obtain ⟨htc, hhtb, hprio, hcur, hhosts⟩ := h.off hst
      exact ⟨htc, hhtb, hprio, hcur, hhosts⟩
    · obtain ⟨-, hprio, hcur⟩ := h.prio hst
      exact ⟨rfl, hprio, hcur⟩
    · obtain ⟨-, hhtb, hcur, hcrt, hclear, hholds⟩ := h.htb hst
      exact ⟨rfl, hhtb, hcur, hcrt, hclear, hholds⟩
  have hrules : Daemon.updateRules setup { s with ifbUp := true } report = .error .lua ∨
      ∃ s' ok, Daemon.updateRules setup { s with ifbUp := true } report = .ok (s', ok) ∧
        Updated setup.kinds report s' := by
    have hmode : s.status = .off ∨ s.status = .prio ∨ s.status = .htb := by
      cases s.status with
      | off => exact .inl rfl
      | prio => exact .inr (.inl rfl)
      | htb => exact .inr (.inr rfl)
    rcases hmode with hst | hst | hst
    · exact updateRules_off hinv hst rfl hfed
    · exact updateRules_prio hinv hst hfed
    · exact updateRules_htb hinv hst hfed
  rw [Daemon.tick, if_pos ((Bool.or_eq_true _ _).mpr hup)]
  rcases hrules with hlua | ⟨s', ok, hok, hupd⟩
  · rw [hlua]
    exact .inl rfl
  · simp only [hok, bind, Except.bind]
    split
    · exact .inl rfl
    · exact .inr ⟨s', rfl, hupd⟩

/-! ## Runs -/

def Daemon.Lists (s : Daemon) (ifb : Bool) : Prop :=
  (s.ifbUp = true ∨ ifb = true) ∧ s.closeLayer1 = false ∧ s.cfg.enabled = true ∧ s.cfg.HasBand

/-- In the report that a tick goes through, the hosts that are alive have valid and different last
octets. -/
def ClearReports (s : Daemon) : Action → Prop
  | .command _ => True
  | .tick ifb report => s.Lists ifb → Good report

theorem act_inv {a : Action} (h : Inv setup.kinds s) (ha : ClearReports s a)
    (hs : s.act setup a = .ok s') : Inv setup.kinds s' := by
  cases a with
  | command c =>
    obtain ⟨r, hd, rfl⟩ := Lib.map_eq_ok (show Prod.fst <$> s.dispatch c = .ok s' from hs)
    exact h.commanded (dispatch_frame hd)
  | tick ifb report =>
    rw [Daemon.act] at hs
    rcases Classical.em (s.ifbUp = true ∨ ifb = true) with hup | hdown
    · have hfed : s.Fed report := fun hopen henabled hband => ha ⟨hup, hopen, henabled, hband⟩
      rcases tick_spec h hup hfed with hlua | ⟨s'', hok, hupd⟩
      · rw [hlua] at hs
        cases hs
      · rw [hok] at hs
        cases hs
        exact hupd.inv
    · rw [Daemon.tick, if_neg fun hor => hdown ((Bool.or_eq_true _ _).mp hor)] at hs
      cases hs
      exact h

theorem reach_inv {cfg : Config} {wan : Option Wan}
    (h : (daemonSystem setup cfg wan).Reach ClearReports s) : Inv setup.kinds s :=
  h.invariant (start_inv _ cfg wan) fun _ _ _ hinv _ hclear hs => act_inv hinv hclear hs

theorem tick_down {ifb : Bool} (h : Inv setup.kinds s) (hdown : ¬ (s.ifbUp = true ∨ ifb = true)) :
    s.tick setup ifb report = .ok s ∧ s.status ≠ .htb := by
  rw [Daemon.tick, if_neg fun hor => hdown ((Bool.or_eq_true _ _).mp hor)]
  exact ⟨rfl, fun hst => hdown (.inl (h.htb hst).ifbUp)⟩

/-- **The rules of the hosts**: after any run no tick has a command refused, and in the HTB mode the
classes on both devices are those of the hosts in the table, which are the hosts that are alive. -/
theorem host_rules_consistent (setup : Setup) (cfg : Config) (wan : Option Wan) {s : Daemon}
    (h : (daemonSystem setup cfg wan).Reach ClearReports s) (ifb : Bool) (report : Report)
    (hclear : ClearReports s (.tick ifb report)) :
    s.tick setup ifb report ≠ .error .tc ∧
    ∀ s', s.tick setup ifb report = .ok s' → s'.status = .htb →
      ∃ crt, s'.crt = some crt ∧ Consistent setup.kinds report s'.tc crt := by
  have hinv := reach_inv h
  rcases Classical.em (s.ifbUp = true ∨ ifb = true) with hup | hdown
  · have hfed : s.Fed report := fun hopen henabled hband => hclear ⟨hup, hopen, henabled, hband⟩
    rcases tick_spec hinv hup hfed with hlua | ⟨s'', hok, hupd⟩
    · refine ⟨fun htc => ?_, fun s' hs' => ?_⟩
      · cases hlua.symm.trans htc
      · cases hlua.symm.trans hs'
    · refine ⟨fun htc => ?_, fun s' hs' hst => ?_⟩
      · cases hok.symm.trans htc
      · obtain rfl := Except.ok.inj (hok.symm.trans hs')
        exact hupd.consistent hst
  · obtain ⟨hsame, hmode⟩ := @tick_down setup s report ifb hinv hdown
    refine ⟨fun htc => ?_, fun s' hs' hst => ?_⟩
    · cases hsame.symm.trans htc
    · obtain rfl := Except.ok.inj (hsame.symm.trans hs')
      exact absurd hst hmode

/-! ## Two networks -/

def wireless (hw : Mac) (ip : Ip) : DeviceReport := ⟨hw, ['w', 'l', '0'], 1, [⟨ip, 0⟩]⟩

def officeSetup : Setup := ⟨⟨3, by decide, by decide⟩, ['0', '0']⟩

def officeConfig : Config where
  band := ⟨1000, 8000⟩
  enabled := true
  qosType := .auto
  guest := ⟨0, 0⟩
  groups := AList.singleton ['0', '0'] ⟨1/2, 1/2, 0, 0⟩

def exitOf {α : Type} : Except Exit α → Option Exit
  | .ok _ => none
  | .error e => some e

theorem eq_error_of_exitOf {α : Type} {x : Except Exit α} {e : Exit} (h : exitOf x = some e) :
    x = .error e := by
  cases x with
  | ok a => cases h
  | error e' => exact congrArg _ (Option.some.inj h)

def officeReport : Report := [wireless ['A'] [192, 168, 0, 5], wireless ['B'] [192, 168, 0, 6]]

theorem good_office : Good officeReport := by
  have hip : ∀ ip, Alive officeReport ip → ip = [192, 168, 0, 5] ∨ ip = [192, 168, 0, 6] := by
    rintro ip ⟨x, hx, -, rfl, -⟩
    rcases List.mem_pair.mp hx with rfl | rfl
    · exact .inl rfl
    · exact .inr rfl
  refine ⟨fun ip h => ?_, fun ip ip' h h' hsame => ?_⟩
  · rcases hip ip h with rfl | rfl
    · exact ⟨5, rfl, by decide, by decide⟩
    · exact ⟨6, rfl, by decide, by decide⟩
  · rcases hip ip h with rfl | rfl
    · rcases hip ip' h' with rfl | rfl
      · rfl
      · cases hsame
    · rcases hip ip' h' with rfl | rfl
      · cases hsame
      · rfl

theorem good_wireless : Good [wireless ['A'] [192, 168, 0, 5]] := by
  have halive : ∀ ip, Alive [wireless ['A'] [192, 168, 0, 5]] ip → Alive officeReport ip := by
    rintro ip ⟨x, hx, hrest⟩
    exact ⟨x, List.mem_append_left _ hx, hrest⟩
  exact ⟨fun ip h => good_office.valid ip (halive ip h),
    fun ip ip' h h' => good_office.inj ip ip' (halive ip h) (halive ip' h')⟩

/-- Two hosts with different last octets. -/
theorem host_rules_consistent_two :
    ∃ s', (start officeConfig none).tick officeSetup true officeReport = .ok s' ∧ s'.status = .htb ∧
      ∃ crt, s'.crt = some crt ∧ Consistent officeSetup.kinds officeReport s'.tc crt := by
  have hrules :=
    host_rules_consistent officeSetup officeConfig none .init true _ fun _ => good_office
  have hmode :
      ((start officeConfig none).tick officeSetup true officeReport).toOption.map (·.status) =
      some .htb := by decide +kernel
  obtain ⟨s', htick, hst⟩ := Lib.toOption_map_eq hmode
  exact ⟨s', htick, hst, hrules.2 s' htick hst⟩

/-- Two hosts whose addresses have the same last octet: the class of the second is there already. -/
theorem two_hosts_one_class :
    (daemonSystem officeSetup officeConfig none).Reach (fun _ _ => True) (start officeConfig none) ∧
    (start officeConfig none).tick officeSetup true
      [wireless ['A'] [192, 168, 0, 5], wireless ['B'] [192, 168, 1, 5]] = .error .tc := by
  refine ⟨.init, eq_error_of_exitOf ?_⟩
  decide +kernel

end Miqos
