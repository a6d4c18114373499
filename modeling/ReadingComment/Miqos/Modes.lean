import ReadingComment.Miqos.HighPrio

/-!
# Changes of the mode

What an update of the rules does to the mode and to the filters of the hosts with a high
priority, which are not its own: as long as the mode stays they are left alone, and when
it changes they are gone with everything else.
-/

namespace Miqos

open Lib List

variable {setup : Setup} {report : Report} {h : ℕ}

/-! ## What leaves the filters alone -/

def SameFilters (t t' : Tc) : Prop :=
  ∀ h, t' (.filter prioHostOnlyHigh h) = t (.filter prioHostOnlyHigh h)

theorem SameFilters.trans {t t₁ t₂ : Tc} (h₁ : SameFilters t t₁) (h₂ : SameFilters t₁ t₂) :
    SameFilters t t₂ :=
  fun h => (h₂ h).trans (h₁ h)

variable {act : Act} {l : List (Σ _ : Ip, HostEntry)}

theorem layer1HtbCmds_filter {ratelimit guest : ℚ} :
    ∀ c ∈ layer1HtbCmds act ratelimit guest, c.obj ≠ .filter prioHostOnlyHigh h := by
  intro c hc hobj
  rcases layer1HtbCmds_fixed c hc with heq | ⟨id, -, heq⟩
  · cases heq.symm.trans hobj
  · cases heq.symm.trans hobj

theorem layer1PrioCmds_filter {add : Bool} {ratelimit guest : ℚ} :
    ∀ c ∈ layer1PrioCmds add ratelimit guest, c.obj ≠ .filter prioHostOnlyHigh h := by
  have hobjs : ∀ o ∈ (layer1PrioCmds add ratelimit guest).map Cmd.obj,
      o = .root ∨ ∃ id, o = .leaf id := by
    intro o ho
    cases add <;> simp [layer1PrioCmds] at ho <;> grind
  intro c hc hobj
  rcases hobjs _ (mem_map_of_mem hc) with heq | ⟨id, heq⟩
  · cases heq.symm.trans hobj
  · cases heq.symm.trans hobj

variable {kinds : Kinds} {ok : Bool} {t t' : Tc}

theorem hostCmds_filter {id : ℕ} {rate ceil quantum : ℚ} :
    ∀ c ∈ hostCmds kinds act id rate ceil quantum, c.obj ≠ .filter prioHostOnlyHigh h := by
  intro c hc hobj
  have hhost := (hostCmds_script kinds act id rate ceil quantum).host c hc
  rw [hobj] at hhost
  rcases hhost with ⟨hp, -⟩ | ⟨hp, -⟩
  · cases hp
  · cases hp

theorem updateHost_filters {id : ℕ} {data : ClassData}
    (hrun : updateHost kinds act id data t = .ok (t', ok)) : SameFilters t t' := by
  rw [updateHost] at hrun
  split at hrun
  · cases hrun
    exact fun _ => rfl
  · split at hrun
    · cases hrun
    · rename_i t₁ hcmds
      cases hrun
      exact fun _ => runAll_frame hcmds hostCmds_filter

theorem hosts_filters {id : ℕ} {data : ClassData} {rest : Tc → Except Exit (Tc × Bool)}
    (hrest : ∀ t₁, rest t₁ = .ok (t', ok) → SameFilters t₁ t') (hrun : (do
      let (t, ok) ← updateHost kinds act id data t
      if ok then rest t else return (t, false)) = (.ok (t', ok) : Except Exit (Tc × Bool))) :
    SameFilters t t' := by
  obtain ⟨⟨t₁, ok₁⟩, hone, hrun⟩ := bind_eq_ok hrun
  have hsame := updateHost_filters hone
  cases ok₁ with
  | true => exact hsame.trans (hrest t₁ hrun)
  | false =>
    cases hrun
    exact hsame

theorem deleteAllHosts_filters (hrun : Daemon.deleteAllHosts kinds l t = .ok (t', ok)) :
    SameFilters t t' := by
  induction l generalizing t with
  | nil =>
    cases hrun
    exact fun _ => rfl
  | cons x l ih => exact hosts_filters (fun _ => ih) hrun

theorem delHosts_filters (hrun : delHosts kinds l t = .ok (t', ok)) : SameFilters t t' := by
  induction l generalizing t with
  | nil =>
    cases hrun
    exact fun _ => rfl
  | cons x l ih =>
    rw [delHosts] at hrun
    split at hrun
    · exact hosts_filters (fun _ => ih) hrun
    · exact ih hrun

theorem setHosts_filters {alive : AliveHosts} {data : Mac → Option ClassData}
    (hrun : setHosts kinds alive data l t = .ok (t', ok)) : SameFilters t t' := by
  induction l generalizing t with
  | nil =>
    cases hrun
    exact fun _ => rfl
  | cons x l ih =>
    rw [setHosts] at hrun
    split at hrun
    · cases hrun
      exact fun _ => rfl
    · split at hrun
      · cases hrun
      · exact hosts_filters (fun _ => ih) hrun

/-! ## Flushing -/

variable {s s' : Daemon}

/-- The rules are flushed: the configuration and the mode stay, and so do the filters. -/
structure Daemon.Flushed (s s' : Daemon) : Prop where
  cfg : s'.cfg = s.cfg
  status : s'.status = s.status
  closeLayer1 : s'.closeLayer1 = s.closeLayer1
  curEnabled : s'.curEnabled = s.curEnabled
  curBand : s'.curBand = s.curBand
  tcBand : s'.tcBand = s.tcBand
  ifbUp : s'.ifbUp = s.ifbUp
  filters : ∀ d, SameFilters (s.tc d) (s'.tc d)

namespace Daemon

theorem Flushed.refl (s : Daemon) : s.Flushed s :=
  ⟨rfl, rfl, rfl, rfl, rfl, rfl, rfl, fun _ _ => rfl⟩

theorem Flushed.trans {s₁ : Daemon} (h₁ : s.Flushed s₁) (h₂ : s₁.Flushed s') : s.Flushed s' :=
  ⟨h₂.cfg.trans h₁.cfg, h₂.status.trans h₁.status, h₂.closeLayer1.trans h₁.closeLayer1,
    h₂.curEnabled.trans h₁.curEnabled, h₂.curBand.trans h₁.curBand, h₂.tcBand.trans h₁.tcBand,
    h₂.ifbUp.trans h₁.ifbUp, fun d => (h₁.filters d).trans (h₂.filters d)⟩

theorem Flushed.remember {s₁ : Daemon} {htbReady prioReady : Bool} {crt nxt : Option IpMap}
    {alive : AliveHosts} {changed : Changed} (h : s.Flushed s₁) :
    s.Flushed { s₁ with
      htbReady := htbReady, prioReady := prioReady, crt := crt, nxt := nxt, alive := alive
      cfgChanged := changed } :=
  ⟨h.cfg, h.status, h.closeLayer1, h.curEnabled, h.curBand, h.tcBand, h.ifbUp, h.filters⟩

variable {d : Direction}

theorem Flushed.update {t : Tc} (hsame : SameFilters (s.tc d) t) :
    s.Flushed { s with tc := Function.update s.tc d t } := by
  refine ⟨rfl, rfl, rfl, rfl, rfl, rfl, rfl, fun d' => ?_⟩
  change SameFilters _ (Function.update s.tc d t d')
  by_cases hd : d' = d
  · rw [hd, Function.update_self]
    exact hsame
  · rw [Function.update_of_ne hd]
    exact fun _ => rfl

theorem exec_flushed {cmds : List TcCmd} (hrun : s.exec d cmds = .ok s')
    (hcmds : ∀ h, ∀ c ∈ cmds, c.obj ≠ .filter prioHostOnlyHigh h) : s.Flushed s' := by
  rw [exec] at hrun
  split at hrun
  · cases hrun
  · rename_i t ht
    cases hrun
    exact Flushed.update fun h => runAll_frame ht (hcmds h)

theorem foldlM_flushed {f : Daemon → Direction → Except Exit Daemon}
    (hf : ∀ s d s', f s d = .ok s' → s.Flushed s') (hrun : flows.foldlM f s = .ok s') :
    s.Flushed s' := by
  rw [flows, foldlM_cons] at hrun
  obtain ⟨s₁, hdown, hrun⟩ := bind_eq_ok hrun
  rw [foldlM_cons] at hrun
  obtain ⟨s₂, hup, hrun⟩ := bind_eq_ok hrun
  cases hrun
  exact (hf _ _ _ hdown).trans (hf _ _ _ hup)

theorem flushPrio_flushed (hrun : s.flushPrio = .ok s') : s.Flushed s' := by
  obtain ⟨s₁, hfold, hrun⟩ := bind_eq_ok hrun
  cases hrun
  have hboth : s.Flushed s₁ :=
    foldlM_flushed (fun _ _ _ hexec => exec_flushed hexec fun _ => layer1PrioCmds_filter) hfold
  exact hboth.remember

theorem flushHtb_flushed (hrun : s.flushHtb = .ok s') : s.Flushed s' := by
  obtain ⟨s₁, hfold, hrun⟩ := bind_eq_ok hrun
  cases hrun
  have hboth : s.Flushed s₁ :=
    foldlM_flushed (fun _ _ _ hexec => exec_flushed hexec fun _ => layer1HtbCmds_filter) hfold
  exact hboth.remember

theorem refresh_flushed {shares : AList fun _ : Mac => Option Share} {ok : Bool}
    (hrun : s.refresh setup shares d = .ok (s', ok)) : s.Flushed s' := by
  obtain ⟨⟨t, ok₁⟩, hdel, hrun⟩ := bind_eq_ok hrun
  have hsame := delHosts_filters hdel
  cases ok₁ with
  | true =>
    obtain ⟨⟨t', ok₂⟩, hset, hrun⟩ := bind_eq_ok hrun
    cases hrun
    exact Flushed.update (hsame.trans (setHosts_filters hset))
  | false =>
    cases hrun
    exact Flushed.update hsame

theorem flushHosts_flushed {shares : AList fun _ : Mac => Option Share}
    (hrun : s.flushHosts setup shares = .ok s') : s.Flushed s' := by
  obtain ⟨⟨s₁, ok₁⟩, hdown, hrun⟩ := bind_eq_ok hrun
  have hone := refresh_flushed hdown
  cases ok₁ with
  | true =>
    obtain ⟨⟨s₂, ok₂⟩, hup, hrun⟩ := bind_eq_ok hrun
    have htwo := hone.trans (refresh_flushed hup)
    cases hrun
    cases ok₂ with
    | true => exact htwo.remember
    | false => exact htwo
  | false =>
    cases hrun
    exact hone

theorem cleanupHosts_flushed (hrun : s.cleanupHosts setup = .ok s') : s.Flushed s' := by
  rw [cleanupHosts] at hrun
  split at hrun
  · cases hrun
    exact .refl s
  · obtain ⟨⟨down, ok⟩, hdown, hrun⟩ := bind_eq_ok hrun
    obtain ⟨⟨up, ok'⟩, hup, hrun⟩ := bind_eq_ok hrun
    cases hrun
    refine ⟨rfl, rfl, rfl, rfl, rfl, rfl, rfl, fun d => ?_⟩
    cases d with
    | down => exact deleteAllHosts_filters hdown
    | up => exact deleteAllHosts_filters hup

/-- **Flushing the rules** fails only when there is no bandwidth. -/
theorem flushRules_flushed {changed ok : Bool}
    (hrun : s.flushRules setup report changed = .ok (s', ok)) :
    s.Flushed s' ∧ (ok = true ↔ ¬ (s.curBand.up < 1 ∨ s.curBand.down < 1)) := by
  rw [flushRules] at hrun
  split at hrun
  · rename_i hsmall
    cases hrun
    exact ⟨.refl s, iff_of_false (by rintro ⟨⟩) fun hnot => hnot hsmall⟩
  · rename_i hband
    split at hrun
    · -- the PRIO mode
      have hlists : s.Flushed { s with
          nxt := some (updateHostListCompact report s.alive).nxt
          alive := (updateHostListCompact report s.alive).alive } := (Flushed.refl s).remember
      cases changed with
      | true =>
        simp only [if_true] at hrun
        obtain ⟨s₁, hprio, hrun⟩ := bind_eq_ok hrun
        cases hrun
        exact ⟨hlists.trans (flushPrio_flushed hprio), iff_of_true rfl hband⟩
      | false =>
        cases hrun
        exact ⟨hlists, iff_of_true rfl hband⟩
    · -- the HTB mode
      obtain ⟨s₁, hone, hrun⟩ : ∃ s₁, s.Flushed s₁ ∧
          (if changed || (s₁.checkHosts report).2 then do
            let shares ← arrangeBandwidth setup (readGroups setup (s₁.checkHosts report).1.cfg)
              (s₁.checkHosts report).1.alive
            let s ← (s₁.checkHosts report).1.flushHosts setup shares
            return (s, true)
          else return ((s₁.checkHosts report).1, true)) = (.ok (s', ok) :
              Except Exit (Daemon × Bool)) := by
        cases changed with
        | true =>
          simp only [if_true] at hrun
          obtain ⟨s₁, hhtb, hrun⟩ := bind_eq_ok hrun
          exact ⟨s₁, flushHtb_flushed hhtb, hrun⟩
        | false => exact ⟨s, .refl s, hrun⟩
      have hhosts : s.Flushed (s₁.checkHosts report).1 := hone.remember
      split at hrun
      · obtain ⟨shares, -, hrun⟩ := bind_eq_ok hrun
        obtain ⟨s₂, hflush, hrun⟩ := bind_eq_ok hrun
        cases hrun
        exact ⟨hhosts.trans (flushHosts_flushed hflush), iff_of_true rfl hband⟩
      · cases hrun
        exact ⟨hhosts, iff_of_true rfl hband⟩

end Daemon

/-! ## Ticks -/

def NoFilters (t : Tc) : Prop := ∀ h, t (.filter prioHostOnlyHigh h) = none

theorem SameFilters.none (h : SameFilters t t') (ht : NoFilters t) : NoFilters t' :=
  fun o => (h o).trans (ht o)

namespace Daemon

/-- How the modes of the daemon go together. -/
structure Modes (s : Daemon) : Prop where
  band : s.curBand = s.tcBand.extended
  bare : s.status = .off → ∀ d, NoFilters (s.tc d)
  mode : s.curEnabled = true ↔ s.status = .htb

/-- A tick that finds the daemon so leaves it on, when the device is up. -/
def StaysOn (s : Daemon) : Prop :=
  s.closeLayer1 = false ∧ (s.cfg.HasBand ∨ s.status = .prio ∧ s.cfg.enabled = false)

/-- What an update does not change. -/
structure Kept (s s' : Daemon) : Prop where
  enabled : s'.cfg.enabled = s.cfg.enabled
  closeLayer1 : s'.closeLayer1 = s.closeLayer1
  ifbUp : s'.ifbUp = s.ifbUp
  band : s'.curBand = s'.tcBand.extended

/-- **What an update does**: it leaves the filters alone and stays in the mode, or takes them away
and goes to another mode. -/
structure Moved (s s' : Daemon) : Prop extends s.Kept s' where
  modes : s'.Modes
  on : s'.status ≠ .off ↔ s.StaysOn
  mode : s'.status ≠ .off → (s'.status = .htb ↔ s.cfg.enabled = true)
  filters : (s'.status = s.status ∧ ∀ d, SameFilters (s.tc d) (s'.tc d)) ∨
    (s'.status ≠ s.status ∧ ∀ d, NoFilters (s'.tc d))

theorem moved_on (hkept : s.Kept s') (hon : s'.status ≠ .off)
    (hcur : s'.curEnabled = true ↔ s'.status = .htb)
    (hmode : s'.status = .htb ↔ s.cfg.enabled = true) (hstays : s.StaysOn)
    (hfilters : (s'.status = s.status ∧ ∀ d, SameFilters (s.tc d) (s'.tc d)) ∨
      (s'.status ≠ s.status ∧ ∀ d, NoFilters (s'.tc d))) : s.Moved s' :=
  ⟨hkept, ⟨hkept.band, fun hoff => absurd hoff hon, hcur⟩, iff_of_true hon hstays, fun _ => hmode,
    hfilters⟩

theorem moved_off (hm : s.Modes) (hkept : s.Kept s') (hoff : s'.status = .off)
    (hcur : s'.curEnabled = false) (hnone : ∀ d, NoFilters (s'.tc d)) (hnot : ¬ s.StaysOn) :
    s.Moved s' := by
  refine ⟨hkept, ⟨hkept.band, fun _ => hnone, ?_⟩, iff_of_false (fun hon => hon hoff) hnot,
    fun hon => absurd hoff hon, ?_⟩
  · rw [hcur, hoff]
    exact iff_of_false nofun nofun
  · rcases eq_or_ne s.status .off with hst | hst
    · exact .inl ⟨hoff.trans hst.symm, fun d h => (hnone d h).trans (hm.bare hst d h).symm⟩
    · exact .inr ⟨fun heq => hst (heq.symm.trans hoff), hnone⟩

theorem Kept.goto (h : s.Kept s') (status : Status) (enabled : Bool) :
    s.Kept { s' with status := status, curEnabled := enabled } :=
  ⟨h.enabled, h.closeLayer1, h.ifbUp, h.band⟩

theorem kept_checked (s : Daemon) : s.Kept s.checked := by
  refine ⟨?_, rfl, rfl, rfl⟩
  rw [checked, writeQosType_frame]

theorem Kept.flushed {x : Daemon} (h : s.Kept x) (hx : x.Flushed s') : s.Kept s' :=
  ⟨(congrArg Config.enabled hx.cfg).trans h.enabled, hx.closeLayer1.trans h.closeLayer1,
    hx.ifbUp.trans h.ifbUp, by
    rw [hx.curBand, hx.tcBand]
    exact h.band⟩

theorem checked_small_iff :
    (s.checked.curBand.up < 1 ∨ s.checked.curBand.down < 1) ↔ ¬ s.cfg.HasBand :=
  extended_small_iff s.cfg

theorem stays_of_band (hopen : s.closeLayer1 = false) (hband : s.cfg.HasBand) : s.StaysOn :=
  ⟨hopen, .inl hband⟩

theorem not_stays_of_closed (hclosed : s.closeLayer1 = true) : ¬ s.StaysOn := by
  rintro ⟨hopen, -⟩
  cases hclosed.symm.trans hopen

theorem not_stays_of_small (hok : false = true ↔ s.cfg.HasBand)
    (hmode : s.status ≠ .prio ∨ s.cfg.enabled = true) : ¬ s.StaysOn := by
  rintro ⟨-, hhas | ⟨hst, hdisabled⟩⟩
  · cases hok.mpr hhas
  · rcases hmode with hne | henabled
    · exact hne hst
    · cases henabled.symm.trans hdisabled

theorem flushRules_cleaned {x : Daemon} {changed ok : Bool}
    (hrun : s.checked.cleanupSystem.flushRules setup report changed = .ok (x, ok)) :
    s.Kept x ∧ (∀ d, NoFilters (x.tc d)) ∧ (ok = true ↔ s.cfg.HasBand) := by
  obtain ⟨hflushed, hok⟩ := flushRules_flushed hrun
  have hclean : s.Kept s.checked.cleanupSystem := ⟨(kept_checked s).enabled, rfl, rfl, rfl⟩
  refine ⟨hclean.flushed hflushed, fun d => (hflushed.filters d).none fun _ => rfl, ?_⟩
  exact hok.trans (not_congr checked_small_iff |>.trans not_not)

theorem flushRules_checked {x : Daemon} {changed ok : Bool}
    (hrun : s.checked.flushRules setup report changed = .ok (x, ok)) :
    s.Kept x ∧ x.status = s.status ∧ (∀ d, SameFilters (s.tc d) (x.tc d)) ∧
      (ok = true ↔ s.cfg.HasBand) := by
  obtain ⟨hflushed, hok⟩ := flushRules_flushed hrun
  refine ⟨(kept_checked s).flushed hflushed, hflushed.status, hflushed.filters, ?_⟩
  exact hok.trans (not_congr checked_small_iff |>.trans not_not)

theorem updateRules_moved_htb {ok : Bool} (hm : s.Modes) (hst : s.status = .htb)
    (hrun : s.updateRules setup report = .ok (s', ok)) : s.Moved s' := by
  have hkept := kept_checked s
  have hmode : s.checked.status = .htb := hst
  rw [updateRules] at hrun
  simp only [checkStatus_eq hm.band, hmode] at hrun
  split at hrun
  · rename_i hclosed
    cases hrun
    exact moved_off hm ⟨hkept.enabled, rfl, rfl, rfl⟩ rfl rfl (fun _ _ =>
      rfl) (not_stays_of_closed hclosed)
  · rename_i hopen
    have hopen : s.closeLayer1 = false := Bool.eq_false_iff.mpr hopen
    rw [hkept.enabled] at hrun
    split at hrun
    · -- to the PRIO mode
      rename_i hdisabled
      obtain ⟨⟨x, flushed⟩, hflush, hrun⟩ := bind_eq_ok hrun
      obtain ⟨hx, hnone, hok⟩ := flushRules_cleaned hflush
      cases flushed with
      | true =>
        cases hrun
        refine moved_on (hx.goto _ _) (by rintro ⟨⟩) (iff_of_false (by rintro ⟨⟩) (by rintro ⟨⟩))
          (iff_of_false (by rintro ⟨⟩) hdisabled) (stays_of_band hopen (hok.mp rfl)) (.inr ⟨?_,
            hnone⟩)
        rw [hst]
        rintro ⟨⟩
      | false =>
        cases hrun
        refine moved_off hm ⟨hx.enabled, hx.closeLayer1, hx.ifbUp, hx.band⟩ rfl rfl (fun _ _ => rfl)
          (not_stays_of_small hok (.inl ?_))
        rw [hst]
        rintro ⟨⟩
    · rename_i henabled
      have henabled := not_not.mp henabled
      obtain ⟨⟨x, flushed⟩, hflush, hrun⟩ := bind_eq_ok hrun
      obtain ⟨hx, hsame, hfilters, hok⟩ := flushRules_checked hflush
      cases flushed with
      | true =>
        cases hrun
        have hstx : x.status = .htb := hsame.trans hst
        refine moved_on (hx.goto _ _) ?_ (iff_of_true rfl hstx)
          (iff_of_true hstx henabled) (stays_of_band hopen (hok.mp rfl)) (.inl ⟨hsame, hfilters⟩)
        change x.status ≠ .off
        rw [hstx]
        rintro ⟨⟩
      | false =>
        cases hrun
        exact moved_off hm ⟨hx.enabled, hx.closeLayer1, hx.ifbUp, hx.band⟩ rfl rfl (fun _ _ => rfl)
          (not_stays_of_small hok (.inr henabled))

theorem updateRules_moved_prio {ok : Bool} (hm : s.Modes) (hst : s.status = .prio)
    (hrun : s.updateRules setup report = .ok (s', ok)) : s.Moved s' := by
  have hkept := kept_checked s
  have hmode : s.checked.status = .prio := hst
  rw [updateRules] at hrun
  simp only [checkStatus_eq hm.band, hmode] at hrun
  split at hrun
  · rename_i hclosed
    cases hrun
    exact moved_off hm ⟨hkept.enabled, rfl, rfl, rfl⟩ rfl rfl (fun _ _ =>
      rfl) (not_stays_of_closed hclosed)
  · rename_i hopen
    have hopen : s.closeLayer1 = false := Bool.eq_false_iff.mpr hopen
    rw [hkept.enabled] at hrun
    split at hrun
    · -- nobody looks whether the rules could be flushed
      rename_i hdisabled
      obtain ⟨⟨x, flushed⟩, hflush, hrun⟩ := bind_eq_ok hrun
      obtain ⟨hx, hsame, hfilters, -⟩ := flushRules_checked hflush
      cases hrun
      have hstx : x.status = .prio := hsame.trans hst
      have hnot : x.status ≠ .htb := by
        rw [hstx]
        rintro ⟨⟩
      refine moved_on (hx.goto _ _) ?_ (iff_of_false (by rintro ⟨⟩) hnot)
        (iff_of_false hnot hdisabled) ⟨hopen, .inr ⟨hst, Bool.eq_false_iff.mpr hdisabled⟩⟩
        (.inl ⟨hsame, hfilters⟩)
      change x.status ≠ .off
      rw [hstx]
      rintro ⟨⟩
    · -- to the HTB mode
      rename_i henabled
      have henabled := not_not.mp henabled
      obtain ⟨⟨x, flushed⟩, hflush, hrun⟩ := bind_eq_ok hrun
      obtain ⟨hx, hnone, hok⟩ := flushRules_cleaned hflush
      cases flushed with
      | true =>
        cases hrun
        refine moved_on (hx.goto _ _) (by rintro ⟨⟩) (iff_of_true rfl rfl)
          (iff_of_true rfl henabled) (stays_of_band hopen (hok.mp rfl)) (.inr ⟨?_, hnone⟩)
        rw [hst]
        rintro ⟨⟩
      | false =>
        obtain ⟨y, hhosts, hrun⟩ := bind_eq_ok hrun
        cases hrun
        have hflushed := cleanupHosts_flushed hhosts
        have hy := hx.flushed hflushed
        exact moved_off hm (hy.goto _ _) rfl rfl
          (fun d => (hflushed.filters d).none (hnone d))
          (not_stays_of_small hok (.inr henabled))

theorem updateRules_moved_off {ok : Bool} (hm : s.Modes) (hst : s.status = .off)
    (hrun : s.updateRules setup report = .ok (s', ok)) : s.Moved s' := by
  have hkept := kept_checked s
  have hmode : s.checked.status = .off := hst
  have hcur : s.curEnabled = false := by
    refine Bool.eq_false_iff.mpr fun hcur => ?_
    cases hst.symm.trans (hm.mode.mp hcur)
  have hbare : ∀ {x : Daemon}, (∀ d, SameFilters (s.tc d) (x.tc d)) → ∀ d, NoFilters (x.tc d) :=
    fun hsame d => (hsame d).none (hm.bare hst d)
  have hprio : s.status ≠ .prio := by
    rw [hst]
    rintro ⟨⟩
  rw [updateRules] at hrun
  simp only [checkStatus_eq hm.band, hmode] at hrun
  split at hrun
  · rename_i hclosed
    cases hrun
    exact moved_off hm hkept hst hcur (hm.bare hst) (not_stays_of_closed hclosed)
  · rename_i hopen
    have hopen : s.closeLayer1 = false := Bool.eq_false_iff.mpr hopen
    rw [hkept.enabled] at hrun
    split at hrun
    · -- to the PRIO mode
      rename_i hdisabled
      obtain ⟨⟨x, flushed⟩, hflush, hrun⟩ := bind_eq_ok hrun
      obtain ⟨hx, -, hfilters, hok⟩ := flushRules_checked hflush
      cases flushed with
      | true =>
        cases hrun
        refine moved_on (hx.goto _ _) (by rintro ⟨⟩) (iff_of_false (by rintro ⟨⟩) (by rintro ⟨⟩))
          (iff_of_false (by rintro ⟨⟩) hdisabled) (stays_of_band hopen (hok.mp rfl))
          (.inr ⟨?_, hbare hfilters⟩)
        rw [hst]
        rintro ⟨⟩
      | false =>
        cases hrun
        exact moved_off hm (hx.goto _ _) rfl rfl (hbare hfilters)
          (not_stays_of_small hok (.inl hprio))
    · -- to the HTB mode
      rename_i henabled
      have henabled := not_not.mp henabled
      obtain ⟨⟨x, flushed⟩, hflush, hrun⟩ := bind_eq_ok hrun
      obtain ⟨hx, -, hfilters, hok⟩ := flushRules_checked hflush
      cases flushed with
      | true =>
        cases hrun
        refine moved_on (hx.goto _ _) (by rintro ⟨⟩) (iff_of_true rfl rfl)
          (iff_of_true rfl henabled) (stays_of_band hopen (hok.mp rfl))
          (.inr ⟨?_, hbare hfilters⟩)
        rw [hst]
        rintro ⟨⟩
      | false =>
        cases hrun
        exact moved_off hm ⟨hx.enabled, hx.closeLayer1, hx.ifbUp, hx.band⟩ rfl rfl (fun _ _ => rfl)
          (not_stays_of_small hok (.inl hprio))

theorem updateRules_moved {ok : Bool} (hm : s.Modes)
    (hrun : s.updateRules setup report = .ok (s', ok)) : s.Moved s' := by
  cases hst : s.status with
  | off => exact updateRules_moved_off hm hst hrun
  | prio => exact updateRules_moved_prio hm hst hrun
  | htb => exact updateRules_moved_htb hm hst hrun

/-- **A tick**: nothing happens while the device is down. -/
theorem tick_moved {ifb : Bool} (hm : s.Modes) (hrun : s.tick setup ifb report = .ok s') :
    (¬ (s.ifbUp = true ∨ ifb = true) ∧ s' = s) ∨
      (s.ifbUp = true ∨ ifb = true) ∧ Moved { s with ifbUp := true } s' := by
  rw [tick] at hrun
  split at hrun
  · rename_i hup
    obtain ⟨⟨x, ok⟩, hupdate, hrun⟩ := bind_eq_ok hrun
    have hup' : Modes { s with ifbUp := true } := ⟨hm.band, hm.bare, hm.mode⟩
    have hmoved := updateRules_moved hup' hupdate
    simp only at hrun
    split at hrun
    · cases hrun
    · cases hrun
      exact .inr ⟨(Bool.or_eq_true _ _).mp hup, hmoved⟩
  · rename_i hdown
    cases hrun
    exact .inl ⟨fun hup => hdown ((Bool.or_eq_true _ _).mpr hup), rfl⟩

end Daemon

end Miqos
