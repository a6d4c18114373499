import ReadingComment.Miqos.Modes

/-!
# The filters of the hosts with a high priority

The filters are lost whenever the rules are cleaned up, and come back only when the list
is marked as changed: by `nprio`, `on` and `off`, but not by a bandwidth that is too
small for rules and then is not. Two hosts whose addresses have the same last octet
share one filter.
-/

namespace Miqos

open Lib List

variable {tools : Tools} {setup : Setup} {report : Report} {htb : Bool}
  {hosts : AList fun _ : IpText => FlowName}

/-! ## Installing the filters -/

def Clear (tools : Tools) (htb : Bool) (hosts : AList fun _ : IpText => FlowName) : Prop :=
  ∀ ip ip' v v' h, hosts.lookup ip = some v → hosts.lookup ip' = some v' →
    tools.handle ip = some h → tools.handle ip' = some h → flowid htb v = flowid htb v'

/-- Each filter is that of a host, and each host has a filter. -/
structure Shows (tools : Tools) (htb : Bool) (hosts : AList fun _ : IpText => FlowName) (t : Tc) :
    Prop where
  host : ∀ h x, t (.filter prioHostOnlyHigh h) = some x →
    ∃ ip v, hosts.lookup ip = some v ∧ tools.handle ip = some h ∧ x = .filter (flowid htb v)
  filter : ∀ ip v h, hosts.lookup ip = some v → tools.handle ip = some h →
    ∃ x, t (.filter prioHostOnlyHigh h) = some x

theorem highPrioCmds_spec {l : List (Σ _ : IpText, FlowName)} {cmds : List TcCmd}
    (hrun : highPrioCmds tools htb l = .ok cmds) :
    (∀ x ∈ l, ∃ h, tools.handle x.1 = some h ∧
      ⟨.replace, .filter prioHostOnlyHigh h, .filter (flowid htb x.2)⟩ ∈ cmds) ∧
    ∀ c ∈ cmds, ∃ x ∈ l, ∃ h, tools.handle x.1 = some h ∧
      c = ⟨.replace, .filter prioHostOnlyHigh h, .filter (flowid htb x.2)⟩ := by
  induction l generalizing cmds with
  | nil =>
    cases hrun
    exact ⟨nofun, nofun⟩
  | cons x l ih =>
    rw [highPrioCmds, mapM_cons] at hrun
    obtain ⟨c, hc, hrun⟩ := bind_eq_ok hrun
    obtain ⟨cmds', hrest, hrun⟩ := bind_eq_ok hrun
    cases hrun
    obtain ⟨hmem, hall⟩ := ih hrest
    obtain ⟨h, hh, rfl⟩ : ∃ h, tools.handle x.1 = some h ∧
        c = ⟨.replace, .filter prioHostOnlyHigh h, .filter (flowid htb x.2)⟩ := by
      cases hh : tools.handle x.1 with
      | none =>
        rw [hh] at hc
        cases hc
      | some h =>
        rw [hh] at hc
        exact ⟨h, rfl, (Except.ok.inj hc).symm⟩
    constructor
    · intro y hy
      rcases mem_cons.mp hy with rfl | hy
      · exact ⟨h, hh, mem_cons_self ..⟩
      · obtain ⟨h', hh', hin⟩ := hmem y hy
        exact ⟨h', hh', mem_cons_of_mem _ hin⟩
    · intro d hd
      rcases mem_cons.mp hd with rfl | hd
      · exact ⟨x, mem_cons_self .., h, hh, rfl⟩
      · obtain ⟨y, hy, h', hh', rfl⟩ := hall d hd
        exact ⟨y, mem_cons_of_mem _ hy, h', hh', rfl⟩

theorem shows_run {cmds : List TcCmd} {t t' : Tc}
    (hcmds : highPrioCmds tools htb hosts.entries = .ok cmds)
    (hrun : runAll cmds (delHighPrio t) = some t') : Shows tools htb hosts t' := by
  obtain ⟨hmem, hall⟩ := highPrioCmds_spec hcmds
  have hreplace : ∀ c ∈ cmds, c.act = .replace := by
    intro c hc
    obtain ⟨x, -, h, -, rfl⟩ := hall c hc
    rfl
  obtain ⟨t₁, ht₁, hset⟩ := runAll_replace hreplace (delHighPrio t)
  obtain rfl := Option.some.inj (ht₁.symm.trans hrun)
  refine ⟨fun h x hx => ?_, fun ip v h hv hh => ?_⟩
  · rcases Classical.em (∃ c ∈ cmds, c.obj = .filter prioHostOnlyHigh h) with ⟨c, hc, hobj⟩ | hnone
    · obtain ⟨c', hc', hobj', hdata⟩ := hset c hc
      rw [hobj] at hobj' hdata
      obtain ⟨y, hy, h', hh', rfl⟩ := hall c' hc'
      cases hobj'
      refine ⟨y.1, y.2, mem_entries_iff.mp hy, hh', ?_⟩
      exact Option.some.inj (hx.symm.trans hdata)
    · have hdel : delHighPrio t (.filter prioHostOnlyHigh h) = none := by
        rw [delHighPrio, if_pos rfl]
      rw [runAll_frame ht₁ fun c hc heq => hnone ⟨c, hc, heq⟩, hdel] at hx
      cases hx
  · obtain ⟨h', hh', hin⟩ := hmem ⟨ip, v⟩ (mem_entries_iff.mpr hv)
    obtain rfl := Option.some.inj (hh.symm.trans hh')
    obtain ⟨c', -, -, hdata⟩ := hset _ hin
    exact ⟨c'.data, hdata⟩

namespace Miqosd

variable {s s' : Miqosd}

def Numbered (tools : Tools) (hosts : AList fun _ : IpText => FlowName) : Prop :=
  ∀ ip ∈ hosts, (tools.handle ip).isSome

theorem updateFilter_spec {d : Direction} (hrun : s.updateFilter tools htb d = .ok s') :
    (∃ t, s' = { s with daemon := { s.daemon with tc := Function.update s.daemon.tc d t } } ∧
      Shows tools htb s.highPrioHost t) ∧ Numbered tools s.highPrioHost := by
  obtain ⟨cmds, hcmds, hrun⟩ := bind_eq_ok hrun
  split at hrun
  · obtain ⟨daemon, hexec, hrun⟩ := bind_eq_ok hrun
    cases hrun
    rw [Daemon.exec] at hexec
    simp only [Function.update_self, Function.update_idem] at hexec
    split at hexec
    · cases hexec
    · rename_i t ht
      cases hexec
      refine ⟨⟨t, rfl, shows_run hcmds ht⟩, fun ip hip => ?_⟩
      obtain ⟨v, hv⟩ := exists_entry hip
      obtain ⟨h, hh, -⟩ := (highPrioCmds_spec hcmds).1 ⟨ip, v⟩ hv
      rw [hh]
      rfl
  · cases hrun

/-- **Installing the filters** on both devices. -/
theorem updateHighPrioFilter_spec (hon : s.daemon.status ≠ .off)
    (hchanged : s.highPrioHostChanged = true) (hrun : s.updateHighPrioFilter tools = .ok s') :
    (∃ tc, s' = { s with daemon := { s.daemon with tc := tc }, highPrioHostChanged := false } ∧
      ∀ d, Shows tools s.daemon.curEnabled s.highPrioHost (tc d)) ∧
    Numbered tools s.highPrioHost := by
  rw [updateHighPrioFilter, if_neg hon, if_pos hchanged, flows, foldlM_cons] at hrun
  obtain ⟨s₁, hdown, hrun⟩ := bind_eq_ok hrun
  rw [foldlM_cons] at hrun
  obtain ⟨s₂, hup, hrun⟩ := bind_eq_ok hrun
  cases hrun
  obtain ⟨⟨down, rfl, hshowsDown⟩, hnumbered⟩ := updateFilter_spec hdown
  obtain ⟨⟨up, rfl, hshowsUp⟩, -⟩ := updateFilter_spec hup
  refine ⟨⟨Function.update (Function.update s.daemon.tc .down down) .up up, rfl, fun d => ?_⟩,
    hnumbered⟩
  have hne : Direction.down ≠ Direction.up := (by rintro ⟨⟩)
  cases d with
  | up =>
    rw [Function.update_self]
    exact hshowsUp
  | down =>
    rw [Function.update_of_ne hne, Function.update_self]
    exact hshowsDown

theorem updateHighPrioFilter_idle (h : s.daemon.status = .off ∨ s.highPrioHostChanged = false) :
    s.updateHighPrioFilter tools = .ok s := by
  rw [updateHighPrioFilter]
  split
  · rfl
  · rename_i hon
    rw [if_neg]
    rw [h.resolve_left hon]
    exact Bool.false_ne_true

/-! ## What is installed -/

theorem Filtered.clear (h : s.Filtered tools) :
    Clear tools (s.daemon.status = .htb) s.highPrioHost := by
  intro ip ip' v v' handle hv hv' hh hh'
  have hone := (h .up handle _).mpr ⟨ip, v, hv, hh, rfl⟩
  have htwo := (h .up handle _).mpr ⟨ip', v', hv', hh', rfl⟩
  exact (TcData.filter.inj (Option.some.inj (hone.symm.trans htwo)))

theorem filtered_of_shows (hclear : Clear tools (s.daemon.status = .htb) s.highPrioHost)
    (hshows : ∀ d, Shows tools (s.daemon.status = .htb) s.highPrioHost (s.daemon.tc d)) :
    s.Filtered tools := by
  intro d h x
  constructor
  · exact (hshows d).host h x
  · rintro ⟨ip, v, hv, hh, rfl⟩
    obtain ⟨y, hy⟩ := (hshows d).filter ip v h hv hh
    obtain ⟨ip', v', hv', hh', rfl⟩ := (hshows d).host h y hy
    rw [hy, hclear ip ip' v v' h hv hv' hh hh']

theorem filtered_iff_empty (hnone : ∀ d, NoFilters (s.daemon.tc d))
    (hnumbered : Numbered tools s.highPrioHost) : s.Filtered tools ↔ s.highPrioHost = ∅ := by
  constructor
  · intro hf
    refine AList.ext (eq_nil_iff_forall_not_mem.mpr fun x hx => ?_)
    obtain ⟨h, hh⟩ := Option.isSome_iff_exists.mp (hnumbered x.1 (mem_of_entry hx))
    have hsome := (hf .up h _).mpr ⟨x.1, x.2, mem_entries_iff.mp hx, hh, rfl⟩
    rw [hnone .up h] at hsome
    cases hsome
  · intro hempty d h x
    rw [hnone d h, hempty]
    refine iff_of_false nofun ?_
    rintro ⟨ip, v, hv, -⟩
    cases hv

/-! ## Ticks -/

/-- A tick that finds the daemon so, and leaves it on, leaves the filters as they should be. -/
structure Refreshes (tools : Tools) (s : Miqosd) : Prop where
  begins : s.daemon.status = .off → s.highPrioHostChanged = true ∨ s.highPrioHost = ∅
  clear : Clear tools s.daemon.cfg.enabled s.highPrioHost

/-- A tick that leaves the daemon on refreshes the filters that it has to. -/
def KeepsFilters (tools : Tools) (s : Miqosd) : MiqosdAction → Prop
  | .command _ => True
  | .tick ifb _ => (s.daemon.ifbUp = true ∨ ifb = true) → s.daemon.StaysOn → s.Refreshes tools

/-- **The invariant**: while the list is not marked as changed, what is installed is right. -/
structure Inv (tools : Tools) (s : Miqosd) : Prop where
  modes : s.daemon.Modes
  up : s.daemon.status ≠ .off → s.daemon.ifbUp = true
  numbered : s.highPrioHostChanged = false → Numbered tools s.highPrioHost
  mode : s.highPrioHostChanged = false → s.daemon.status ≠ .off →
    (s.daemon.status = .htb ↔ s.daemon.cfg.enabled = true)
  filtered : s.highPrioHostChanged = false → s.daemon.status ≠ .off → s.Filtered tools

theorem decide_mode {status : Status} {enabled : Bool} (h : status = .htb ↔ enabled = true) :
    decide (status = .htb) = enabled := by
  rw [Bool.eq_iff_iff, decide_eq_true_iff]
  exact h

theorem Inv.stays {daemon : Daemon} (hinv : Inv tools s) (hchanged : s.highPrioHostChanged = false)
    (hmoved : Daemon.Moved { s.daemon with ifbUp := true } daemon) (hon : daemon.status ≠ .off) :
    Filtered tools { s with daemon := daemon } ↔ s.Refreshes tools := by
  have hmode' := hmoved.mode hon
  rcases hmoved.filters with ⟨hsame, hfilters⟩ | ⟨hne, hnone⟩
  · have hsame : daemon.status = s.daemon.status := hsame
    have hon' : s.daemon.status ≠ .off := fun hoff => hon (hsame.trans hoff)
    have hold := hinv.filtered hchanged hon'
    refine iff_of_true (fun d h x => ?_) ⟨fun hoff => absurd hoff hon', ?_⟩
    · change daemon.tc d _ = _ ↔ ∃ ip v, _ ∧ _ ∧ x = .filter (flowid (daemon.status = .htb) v)
      rw [hfilters d h, hsame]
      exact hold d h x
    · rw [← decide_mode (hinv.mode hchanged hon')]
      exact hold.clear
  · -- it begins
    have hoff : s.daemon.status = .off := by
      by_contra hon'
      have hmode := (hinv.mode hchanged hon').trans hmode'.symm
      apply hne
      change daemon.status = s.daemon.status
      cases hst : daemon.status <;> cases hst' : s.daemon.status <;> simp_all
    have hempty := filtered_iff_empty (s := { s with daemon := daemon }) hnone
      (hinv.numbered hchanged)
    rw [hempty]
    constructor
    · intro hnil
      refine ⟨fun _ => .inr hnil, ?_⟩
      rw [hnil]
      intro ip ip' v v' h hv
      cases hv
    · rintro ⟨hbegins, -⟩
      refine (hbegins hoff).resolve_left ?_
      rw [hchanged]
      exact Bool.false_ne_true

/-- **A tick** that leaves the daemon on leaves the filters as they should be exactly when it
refreshes those that it has to. -/
theorem tick_spec {ifb : Bool} (hinv : Inv tools s)
    (hrun : s.tick tools setup ifb report = .ok s') :
    (s'.daemon.status ≠ .off →
      (s'.Filtered tools ↔ s.KeepsFilters tools (.tick ifb report))) ∧
    (s.KeepsFilters tools (.tick ifb report) → Inv tools s') := by
  obtain ⟨daemon, htick, hrun⟩ := bind_eq_ok hrun
  rcases Daemon.tick_moved hinv.modes htick with ⟨hdown, rfl⟩ | ⟨hup, hmoved⟩
  · have hoff : s.daemon.status = .off := by
      by_contra hon
      exact hdown (.inl (hinv.up hon))
    rw [updateHighPrioFilter_idle (.inl hoff)] at hrun
    cases hrun
    exact ⟨fun hon => absurd hoff hon, fun _ => hinv⟩
  · rcases eq_or_ne daemon.status .off with hoff | hon
    · rw [updateHighPrioFilter_idle (.inl hoff)] at hrun
      cases hrun
      exact ⟨fun hon => absurd hoff hon, fun _ => ⟨hmoved.modes, fun hon => absurd hoff hon,
        hinv.numbered, fun _ hon => absurd hoff hon, fun _ hon => absurd hoff hon⟩⟩
    · have hstays : s.daemon.StaysOn := hmoved.on.mp hon
      have hkeeps : s.KeepsFilters tools (.tick ifb report) ↔ s.Refreshes tools :=
        ⟨fun h => h hup hstays, fun h _ _ => h⟩
      rw [hkeeps]
      have hmode : daemon.status = .htb ↔ daemon.cfg.enabled = true := by
        rw [hmoved.enabled]
        exact hmoved.mode hon
      cases hchanged : s.highPrioHostChanged with
      | false =>
        have hidle : Miqosd.highPrioHostChanged { s with daemon := daemon } = false := hchanged
        rw [updateHighPrioFilter_idle (.inr hidle)] at hrun
        cases hrun
        have hiff := hinv.stays hchanged hmoved hon
        exact ⟨fun _ => hiff, fun hrefreshes => ⟨hmoved.modes, fun _ => hmoved.ifbUp, hinv.numbered,
          fun _ _ => hmode, fun _ _ => hiff.mpr hrefreshes⟩⟩
      | true =>
        have hmarked : Miqosd.highPrioHostChanged { s with daemon := daemon } = true := hchanged
        obtain ⟨⟨tc, rfl, hshows⟩, hnumbered⟩ := updateHighPrioFilter_spec hon hmarked hrun
        have hcur : daemon.curEnabled = decide (daemon.status = .htb) := by
          rw [Bool.eq_iff_iff, decide_eq_true_iff]
          exact hmoved.modes.mode
        have henabled : s.daemon.cfg.enabled = decide (daemon.status = .htb) :=
          (decide_mode (hmoved.mode hon)).symm
        have hiff : Filtered tools { s with
            daemon := { daemon with tc := tc }, highPrioHostChanged := false } ↔
            s.Refreshes tools := by
          constructor
          · intro hf
            refine ⟨fun _ => .inl hchanged, ?_⟩
            rw [henabled]
            exact hf.clear
          · rintro ⟨-, hclear⟩
            rw [henabled] at hclear
            exact filtered_of_shows hclear fun d => hcur ▸ hshows d
        exact ⟨fun _ => hiff, fun hrefreshes => ⟨⟨hmoved.modes.band, fun hoff => absurd hoff hon,
          hmoved.modes.mode⟩, fun _ => hmoved.ifbUp, fun _ => hnumbered, fun _ _ => hmode,
          fun _ _ => hiff.mpr hrefreshes⟩⟩

/-! ## Commands -/

theorem addOrChangeGroup_enabled {cfg cfg' : Config} {mac : Mac}
    {maxUp maxDown minUp minDown : Num}
    (hrun : addOrChangeGroup cfg mac maxUp maxDown minUp minDown = .ok cfg') :
    cfg'.enabled = cfg.enabled := by
  obtain ⟨minUp, -, hrun⟩ := bind_eq_ok hrun
  obtain ⟨minDown, -, hrun⟩ := bind_eq_ok hrun
  obtain ⟨maxUp, -, hrun⟩ := bind_eq_ok hrun
  obtain ⟨maxDown, -, hrun⟩ := bind_eq_ok hrun
  cases hrun
  rfl

theorem delGroup_enabled (cfg : Config) (mac : Option Mac) :
    (delGroup cfg mac).enabled = cfg.enabled := by
  cases mac <;> rfl

variable {r : Reply}

theorem limit_enabled {d d' : Daemon} {activeSoon : Bool} {type : Option LimitType}
    {mac : Option Mac} {arg4 arg5 arg6 arg7 : Num}
    (hrun : d.limit activeSoon type mac arg4 arg5 arg6 arg7 = .ok (d', r)) :
    d'.cfg.enabled = d.cfg.enabled := by
  rw [Daemon.limit.eq_def] at hrun
  split at hrun
  · have hsoon : (if activeSoon = true then { d with cfgChanged := .host } else d).cfg = d.cfg := by
      cases activeSoon <;> rfl
    simp only [hsoon] at hrun
    split at hrun
    case h_4 =>
      cases hrun
      rfl
    all_goals
      obtain ⟨cfg, hcfg, hrun⟩ := bind_eq_ok hrun
      cases hrun
      exact addOrChangeGroup_enabled hcfg
  · cases hrun
    rfl

theorem dispatch_enabled {d d' : Daemon} {c : Command} (hc : c.forces = false)
    (hrun : d.dispatch c = .ok (d', r)) : d'.cfg.enabled = d.cfg.enabled := by
  cases c with
  | on wan | off wan => cases hc
  | shutdown =>
    cases hrun
    rfl
  | changeBand up down =>
    simp only [Daemon.dispatch] at hrun
    rw [Daemon.changeBand.eq_def] at hrun
    split at hrun
    · cases hrun
      rfl
    · cases hrun
      rfl
    · cases hrun
    · split at hrun
      · cases hrun
        rfl
      · split at hrun
        · split at hrun <;> cases hrun <;> rfl
        · cases hrun
  | onGuest up down =>
    simp only [Daemon.dispatch] at hrun
    rw [Daemon.onGuest.eq_def] at hrun
    split at hrun
    all_goals
      cases hrun
      try rfl
  | limit activeSoon type mac arg4 arg5 arg6 arg7 =>
    simp only [Daemon.dispatch] at hrun
    split at hrun
    · cases hrun
      rfl
    · exact limit_enabled hrun
  | unlimit activeSoon mac =>
    simp only [Daemon.dispatch] at hrun
    split at hrun
    · cases hrun
      rfl
    · cases hrun
      exact delGroup_enabled ..
  | setType type | apply both =>
    simp only [Daemon.dispatch] at hrun
    split at hrun <;> cases hrun <;> rfl

theorem nprio_cases {op : Option NprioOp} {ip : Option IpText} {type : Option NprioType}
    (hrun : s.nprio op ip type = .ok (s', r)) :
    s' = s ∨ ∃ hosts, s' = { s with highPrioHost := hosts, highPrioHostChanged := true } := by
  have hupdate : ∀ op ip v, s.updateHostPrioAndLimit op ip v = s ∨
      ∃ hosts, s.updateHostPrioAndLimit op ip v =
        { s with highPrioHost := hosts, highPrioHostChanged := true } := by
    intro op ip v
    cases op with
    | add => exact .inr ⟨_, rfl⟩
    | del => exact .inr ⟨_, rfl⟩
    | other => exact .inl rfl
  rw [nprio.eq_def] at hrun
  split at hrun
  · cases hrun
    exact .inl rfl
  · cases hrun
    exact .inl rfl
  · split at hrun
    · cases hrun
      exact hupdate ..
    · cases hrun
      exact hupdate ..
    · cases hrun
      exact .inl rfl
    · cases hrun

theorem Inv.dispatch {c : MiqosdCommand} (hinv : Inv tools s) (hrun : s.dispatch c = .ok (s', r)) :
    Inv tools s' := by
  cases c with
  | nprio op ip type =>
    rcases nprio_cases hrun with rfl | ⟨hosts, rfl⟩
    · exact hinv
    · exact ⟨hinv.modes, hinv.up, nofun, nofun, nofun⟩
  | other c =>
    obtain ⟨⟨daemon, reply⟩, hd, hrun⟩ := bind_eq_ok hrun
    cases hrun
    have hframe := dispatch_frame hd
    have hmodes : daemon.Modes := by
      rw [hframe]
      exact ⟨hinv.modes.band, hinv.modes.bare, hinv.modes.mode⟩
    have hst : daemon.status = s.daemon.status := by rw [hframe]
    have hup : daemon.ifbUp = s.daemon.ifbUp := by rw [hframe]
    have htc : daemon.tc = s.daemon.tc := by rw [hframe]
    -- a list that is not marked now was not marked before
    have hold : (s.highPrioHostChanged || c.forces) = false →
        s.highPrioHostChanged = false ∧ c.forces = false := by
      intro hchanged
      exact Bool.or_eq_false_iff.mp hchanged
    refine ⟨hmodes, fun hon => ?_, fun hchanged => hinv.numbered (hold hchanged).1,
      fun hchanged hon => ?_, fun hchanged hon d h x => ?_⟩
    · exact hup.trans (hinv.up (hst ▸ hon))
    · change daemon.status = .htb ↔ daemon.cfg.enabled = true
      rw [dispatch_enabled (hold hchanged).2 hd, hst]
      exact hinv.mode (hold hchanged).1 (hst ▸ hon)
    · change daemon.tc d _ = _ ↔ ∃ ip v, _ ∧ _ ∧ x = .filter (flowid (daemon.status = .htb) v)
      rw [htc, hst]
      exact hinv.filtered (hold hchanged).1 (hst ▸ hon) d h x

/-! ## Runs -/

theorem inv_start (tools : Tools) (cfg : Config) (wan : Option Wan) :
    Inv tools ⟨start cfg wan, ∅, false⟩ := by
  have hstart := start_inv (⟨1, Nat.one_pos, by decide⟩ : Kinds) cfg wan
  exact ⟨⟨hstart.band, fun _ _ _ => rfl, iff_of_false nofun nofun⟩, fun hon => absurd rfl hon,
    fun _ _ hip => absurd hip (AList.notMem_empty _), fun _ hon => absurd rfl hon,
    fun _ hon => absurd rfl hon⟩

theorem reach_inv {cfg : Config} {wan : Option Wan}
    (h : (miqosdSystem tools setup cfg wan).Reach (KeepsFilters tools) s) : Inv tools s := by
  refine h.invariant (inv_start tools cfg wan) ?_
  intro s a s' hinv _ hkeeps hs
  cases a with
  | command c =>
    obtain ⟨x, hd, rfl⟩ := Lib.map_eq_ok (show Prod.fst <$> s.dispatch c = .ok s' from hs)
    exact hinv.dispatch hd
  | tick ifb report => exact (tick_spec hinv hs).2 hkeeps

/-- **The filters of the hosts on the list**: as long as each tick refreshes the filters that it has
to, a tick that leaves the daemon on leaves them as they should be exactly when it does so, too. -/
theorem high_prio_filtered (tools : Tools) (setup : Setup) (cfg : Config) (wan : Option Wan)
    {s s' : Miqosd} (h : (miqosdSystem tools setup cfg wan).Reach (KeepsFilters tools) s)
    {ifb : Bool} {report : Report} (htick : s.tick tools setup ifb report = .ok s')
    (hon : s'.daemon.status ≠ .off) :
    s'.Filtered tools ↔ s.KeepsFilters tools (.tick ifb report) :=
  (tick_spec (reach_inv h) htick).1 hon

end Miqosd

/-! ## A bandwidth that is too small for a while -/

def decimal (l : List Char) : Option ℕ :=
  if l.all Char.isDigit then some (l.foldl (fun n c => 10 * n + (c.toNat - '0'.toNat)) 0) else none

/-- Numbers are decimal ones, and handles are 32-bit numbers other than 0. -/
def decimalTools : Tools where
  number := decimal
  accepts h := decide (0 < h ∧ h < 2 ^ 32)

/-- `192.168.31.5`. -/
def officeHost : IpText :=
  ['1', '9', '2', '.', '1', '6', '8', '.', '3', '1', '.', '5']

example : decimalTools.handle officeHost = some 0x5000000 := by decide

/-- `nprio add 192.168.31.5 HIGH_PRIO_WITHOUT_LIMIT`. -/
def addOfficeHost : MiqosdCommand := .nprio (some .add) (some officeHost) (some .withoutLimit)

/-- `192.168.31.6`. -/
def secondHost : IpText :=
  ['1', '9', '2', '.', '1', '6', '8', '.', '3', '1', '.', '6']

def officeMiqosd : Miqosd where
  daemon := start officeConfig none
  highPrioHost := AList.insert secondHost .noLimitHigh (AList.insert officeHost .noLimitHigh ∅)
  highPrioHostChanged := true

/-- Two hosts are put on the list. -/
theorem high_prio_filtered_two :
    ∃ s', officeMiqosd.tick decimalTools officeSetup true [] = .ok s' ∧ s'.daemon.status = .htb ∧
      s'.Filtered decimalTools := by
  have hfirst : (miqosdSystem decimalTools officeSetup officeConfig none).Reach
      (Miqosd.KeepsFilters decimalTools) _ :=
    .step (a := .command addOfficeHost) .init trivial trivial rfl
  have hreach : (miqosdSystem decimalTools officeSetup officeConfig none).Reach
      (Miqosd.KeepsFilters decimalTools) officeMiqosd :=
    .step (a := .command (.nprio (some .add) (some secondHost) (some .withoutLimit))) hfirst trivial
      trivial rfl
  have hlookup : ∀ ip v, officeMiqosd.highPrioHost.lookup ip = some v → v = .noLimitHigh := by
    intro ip v hv
    by_cases hsecond : ip = secondHost
    · rw [hsecond, officeMiqosd, AList.lookup_insert] at hv
      exact (Option.some.inj hv).symm
    · rw [officeMiqosd, AList.lookup_insert_ne hsecond] at hv
      by_cases hfirst : ip = officeHost
      · rw [hfirst, AList.lookup_insert] at hv
        exact (Option.some.inj hv).symm
      · rw [AList.lookup_insert_ne hfirst] at hv
        cases hv
  have hkeeps : officeMiqosd.KeepsFilters decimalTools (.tick true []) := by
    refine fun _ _ => ⟨fun _ => .inl rfl, fun ip ip' v v' h hv hv' _ _ => ?_⟩
    rw [hlookup ip v hv, hlookup ip' v' hv']
  have hmode : (officeMiqosd.tick decimalTools officeSetup true []).toOption.map
      (·.daemon.status) = some .htb := by decide +kernel
  obtain ⟨s', htick, hst⟩ := Lib.toOption_map_eq hmode
  have hon : s'.daemon.status ≠ .off := by
    rw [hst]
    exact nofun
  exact ⟨s', htick, hst, (Miqosd.high_prio_filtered _ _ _ _ hreach htick hon).mpr hkeeps⟩

/-- The bandwidth is 0 at one tick and set again before the next. -/
def bandComesBack : List MiqosdAction :=
  [.command addOfficeHost, .tick true [], .command (.other (.changeBand (.num 0) (.num 0))),
    .tick true [], .command (.other (.changeBand (.num 1000) (.num 8000)))]

/-- A tick leaves the daemon on, and the filter of the host is missing. -/
def unfiltered (s : Miqosd) : Bool :=
  match s.tick decimalTools officeSetup true [] with
  | .ok s' => decide (s'.daemon.status ≠ .off ∧
      s'.daemon.tc .up (.filter prioHostOnlyHigh 0x5000000) = none ∧
      s'.highPrioHost.lookup officeHost = some .noLimitHigh)
  | .error _ => false

/-- **The filter is lost** with the bandwidth, and does not come back with it. -/
theorem high_prio_filter_lost :
    ∃ s s', (miqosdSystem decimalTools officeSetup officeConfig none).Reach (fun _ _ => True) s ∧
      s.tick decimalTools officeSetup true [] = .ok s' ∧ s'.daemon.status ≠ .off ∧
      ¬ s'.Filtered decimalTools := by
  have hend : ((miqosdSystem decimalTools officeSetup officeConfig none).run (fun _ _ => True)
      bandComesBack ⟨start officeConfig none, ∅, false⟩).map unfiltered = some true := by
    decide +kernel
  obtain ⟨s, hrun, hs⟩ := Option.map_eq_some_iff.mp hend
  unfold unfiltered at hs
  split at hs
  · rename_i s' htick
    obtain ⟨hon, hnone, hhost⟩ := of_decide_eq_true hs
    refine ⟨s, s', .run .init hrun, htick, hon, fun hf => ?_⟩
    have hsome := (hf .up 0x5000000 _).mpr ⟨officeHost, .noLimitHigh, hhost, by decide, rfl⟩
    cases hnone.symm.trans hsome
  · cases hs

end Miqos
