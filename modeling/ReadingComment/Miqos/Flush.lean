import ReadingComment.Miqos.Refresh

/-!
# Flushing the rules

What `flush_qos_rules` does in the HTB mode: the first layer is added or changed, the
tables of hosts are compared, and the hosts are refreshed when something has changed.
-/

namespace Miqos

open Function Lib List

variable {setup : Setup} {s : Daemon} {d : Direction} {ids : Set ℕ} {kinds : Kinds}

/-! ## The first layer -/

theorem layer1HtbCmds_obj (act : Act) (ratelimit guest : ℚ) :
    (layer1HtbCmds act ratelimit guest).map Cmd.obj =
      (if act = .add then [.root] else []) ++ fixedClasses.map .cls := by
  cases act <;> rfl

variable {ratelimit guest : ℚ}

theorem layer1HtbCmds_act {act : Act} :
    ∀ c ∈ layer1HtbCmds act ratelimit guest, c.act = act := by
  have hall : (layer1HtbCmds act ratelimit guest).map Cmd.act =
      List.replicate ((if act = .add then 1 else 0) + 8) act := by
    cases act <;> rfl
  intro c hc
  exact eq_of_mem_replicate (hall ▸ mem_map_of_mem hc)

theorem layer1HtbCmds_nodup (act : Act) (ratelimit guest : ℚ) :
    ((layer1HtbCmds act ratelimit guest).map Cmd.obj).Nodup := by
  rw [layer1HtbCmds_obj]
  cases act <;> decide

theorem layer1HtbCmds_fixed {act : Act} :
    ∀ c ∈ layer1HtbCmds act ratelimit guest, Fixed c.obj := by
  intro c hc
  have hobj : c.obj ∈ (layer1HtbCmds act ratelimit guest).map Cmd.obj := mem_map_of_mem hc
  rw [layer1HtbCmds_obj] at hobj
  rcases mem_append.mp hobj with hroot | hcls
  · split at hroot
    · exact .inl (mem_singleton.mp hroot)
    · cases hroot
  · obtain ⟨id, hid, heq⟩ := mem_map.mp hcls
    exact .inr ⟨id, hid, heq.symm⟩

theorem exists_layer1HtbCmds {o : TcObject} (h : Fixed o) :
    ∃ c ∈ layer1HtbCmds .add ratelimit guest, c.obj = o := by
  have hobj : o ∈ (layer1HtbCmds .add ratelimit guest).map Cmd.obj := by
    rw [layer1HtbCmds_obj]
    rcases h with rfl | ⟨id, hid, rfl⟩
    · exact mem_append_left _ (mem_singleton_self _)
    · exact mem_append_right _ (mem_map_of_mem hid)
  exact mem_map.mp hobj

/-- The first layer is there with these hosts, or nothing is there. -/
def Layered (kinds : Kinds) (s : Daemon) (ids : Set ℕ) : Prop :=
  (s.htbReady = true ∧ ∀ d, Holds kinds (s.tc d) ids) ∨
  (s.htbReady = false ∧ ids = ∅ ∧ ∀ d o, s.tc d o = none)

theorem class_ne_of_fixed {id : ℕ} {c : TcCmd} (hc : Fixed c.obj) (hid : ValidId id) :
    c.obj ≠ .cls (hostClass id) := by
  intro heq
  have hhost : HostObject ⟨1, Nat.one_pos, Nat.le_of_ble_eq_true rfl⟩ id (.cls (hostClass id)) :=
    ⟨0, Nat.zero_le _, rfl⟩
  exact hhost.not_fixed hid (heq ▸ hc)

theorem exec_htb (h : Layered kinds s ids) (d : Direction) (ratelimit guest : ℚ) :
    ∃ t, s.exec d (layer1HtbCmds (if s.htbReady then .change else .add) ratelimit guest) =
        .ok { s with tc := update s.tc d t } ∧ Holds kinds t ids ∧
      ∀ id, ValidId id → t (.cls (hostClass id)) = s.tc d (.cls (hostClass id)) := by
  rcases h with ⟨hready, hholds⟩ | ⟨hready, rfl, hnone⟩
  · have hpresent : ∀ c ∈ layer1HtbCmds .change ratelimit guest, (s.tc d c.obj).isSome :=
      fun c hc => (hholds d c.obj).mpr (.inl (layer1HtbCmds_fixed c hc))
    obtain ⟨t, hrun, hset, hframe⟩ :=
      runAll_change (layer1HtbCmds_nodup _ _ _) layer1HtbCmds_act hpresent
    refine ⟨t, ?_, ?_, ?_⟩
    · rw [if_pos hready, Daemon.exec, hrun]
    · intro o
      rw [← hholds d o]
      rcases Classical.em (∃ c ∈ layer1HtbCmds .change ratelimit guest, c.obj = o) with
        ⟨c, hc, rfl⟩ | hnot
      · rw [hset c hc]
        exact iff_of_true rfl (hpresent c hc)
      · rw [hframe o fun c hc heq => hnot ⟨c, hc, heq⟩]
    · intro id hid
      exact hframe _ fun c hc => class_ne_of_fixed (layer1HtbCmds_fixed c hc) hid
  · obtain ⟨t, hrun, hset, hframe⟩ := runAll_add (layer1HtbCmds_nodup _ ratelimit guest)
      layer1HtbCmds_act fun c _ => hnone d c.obj
    refine ⟨t, ?_, ?_, ?_⟩
    · have hnot : ¬ s.htbReady = true := Bool.eq_false_iff.mp hready
      rw [if_neg hnot, Daemon.exec, hrun]
    · intro o
      constructor
      · intro hsome
        by_contra hnot
        have hframe' := hframe o fun c hc heq => hnot (.inl (heq ▸ layer1HtbCmds_fixed c hc))
        rw [hframe', hnone d o] at hsome
        cases hsome
      · rintro (hfixed | ⟨id, hid, -⟩)
        · obtain ⟨c, hc, rfl⟩ := exists_layer1HtbCmds hfixed
          rw [hset c hc]
          rfl
        · exact hid.elim
    · intro id hid
      exact hframe _ fun c hc => class_ne_of_fixed (layer1HtbCmds_fixed c hc) hid

/-- **The first layer** on both devices. -/
theorem flushHtb_spec (h : Layered kinds s ids) :
    ∃ tc, s.flushHtb = .ok { s with tc := tc, htbReady := true } ∧ ∀ d, Holds kinds (tc d) ids ∧
      ∀ id, ValidId id → tc d (.cls (hostClass id)) = s.tc d (.cls (hostClass id)) := by
  obtain ⟨t, hdown, hholds, hframe⟩ := exec_htb h .down (s.curBand.get .down) (s.curGuest.get .down)
  -- the other device is still as it was
  have hne : Direction.up ≠ Direction.down := nofun
  obtain ⟨t', hup, hholds', hframe'⟩ :=
    exec_htb h .up (s.curBand.get .up) (s.curGuest.get .up)
  have hup' : ∀ cmds, s.exec .up cmds = .ok { s with tc := update s.tc .up t' } →
      Daemon.exec { s with tc := update s.tc .down t } .up cmds =
        .ok { s with tc := update (update s.tc .down t) .up t' } := by
    intro cmds hcmds
    rw [Daemon.exec] at hcmds ⊢
    simp only [update_of_ne hne]
    cases hrun : runAll cmds (s.tc .up) with
    | none =>
      rw [hrun] at hcmds
      cases hcmds
    | some t'' =>
      rw [hrun] at hcmds
      have htc : update s.tc .up t'' = update s.tc .up t' :=
        congrArg Daemon.tc (Except.ok.inj hcmds)
      have ht : t'' = t' := by
        have happ := congrFun htc .up
        rw [update_self, update_self] at happ
        exact happ
      rw [ht]
  refine ⟨update (update s.tc .down t) .up t', ?_, ?_⟩
  · rw [Daemon.flushHtb]
    simp only [flows, foldlM_cons, foldlM_nil, bind, Except.bind, hdown, hup' _ hup, pure,
      Except.pure]
  · intro d
    cases d with
    | up =>
      rw [update_self]
      exact ⟨hholds', hframe'⟩
    | down =>
      rw [update_of_ne hne.symm, update_self]
      exact ⟨hholds, hframe⟩

/-! ## The comparison of the tables -/

def Daemon.hosts (s : Daemon) : IpMap := s.crt.getD ∅

variable {report : Report}

theorem lookup_hosts (crt : Option IpMap) (ip : Ip) :
    crt.bind (·.lookup ip) = (crt.getD ∅).lookup ip := by
  cases crt with
  | none => rfl
  | some m => rfl

theorem entries_hosts (crt : Option IpMap) :
    (crt.map (·.entries)).getD [] = (crt.getD ∅).entries := by
  cases crt with
  | none => rfl
  | some m => rfl

theorem getD_map_mapVals (f : Ip → HostEntry → HostEntry) (crt : Option IpMap) :
    (crt.map (mapVals f)).getD ∅ = mapVals f (crt.getD ∅) := by
  cases crt with
  | none => rfl
  | some m => rfl

theorem checkHosts_staged (hgood : Good report) (hclear : s.hosts.Clear) :
    Staged (s.checkHosts report).1
      (mapVals (crtState (updateHostListCompact report ∅).nxt) s.hosts)
      (mapVals (nxtState s.crt) (updateHostListCompact report ∅).nxt) := by
  have hlisted := updateHostListCompact_listed report ∅
  refine ⟨?_, rfl, hclear.mapVals (crtState_id _), (hgood.clear hlisted).mapVals (nxtState_id _),
    ?_, ?_, ?_⟩
  · rw [entries_hosts]
    exact congrArg AList.entries (getD_map_mapVals _ s.crt)
  · intro ip e he
    obtain ⟨e₀, -, rfl⟩ := mem_entries_mapVals.mp he
    rw [mem_mapVals, crtState]
    split
    · rename_i hmem
      exact iff_of_false nofun (not_not_intro hmem)
    · rename_i hnot
      exact iff_of_true rfl hnot
  · intro ip e he
    obtain ⟨e₀, he₀, rfl⟩ := mem_entries_mapVals.mp he
    rw [mem_mapVals, nxtState, lookup_hosts, ← Daemon.hosts]
    split
    · rename_i hsome
      exact .inl ⟨AList.lookup_isSome.mp hsome, rfl⟩
    · rename_i hnone
      exact .inr ⟨fun hmem => hnone (AList.lookup_isSome.mpr hmem), hlisted.new ip e₀ he₀⟩
  · intro ip e he
    obtain ⟨e₀, he₀, rfl⟩ := mem_entries_mapVals.mp he
    have hmac : (nxtState s.crt ip e₀).mac = e₀.mac := by
      rw [nxtState]
      split <;> rfl
    rw [hmac]
    exact hlisted.alive ip e₀ he₀

theorem mem_iff_of_not_hostChanged {nxt : IpMap} {crt : Option IpMap}
    (h : hostChanged nxt crt = false) (ip : Ip) : ip ∈ nxt ↔ ip ∈ crt.getD ∅ := by
  rw [hostChanged, Bool.or_eq_false_iff, any_eq_false, any_eq_false] at h
  constructor
  · intro hmem
    obtain ⟨e, he⟩ := exists_entry hmem
    by_contra hnot
    have hnone : crt.bind (·.lookup ip) = none := by
      rw [lookup_hosts]
      exact AList.lookup_eq_none.mpr hnot
    have htrue := h.1 ⟨ip, e⟩ he
    rw [hnone] at htrue
    exact htrue rfl
  · intro hmem
    obtain ⟨e, he⟩ := exists_entry hmem
    rw [entries_hosts] at h
    by_contra hnot
    exact h.2 ⟨ip, e⟩ he (decide_eq_true hnot)

/-! ## All rules -/

theorem totalQuantum_cases (groups : Groups) (min : Group → ℚ) (alive : AliveHosts) :
    totalQuantum setup groups min alive = .error .lua ∨
      ∃ total, totalQuantum setup groups min alive = .ok total := by
  rw [totalQuantum]
  generalize (0 : ℚ) = total
  induction alive.entries generalizing total with
  | nil => exact .inr ⟨total, rfl⟩
  | cons x l ih =>
    rw [foldlM_cons]
    cases hlookup : groups.lookup (groupId setup groups x.1) with
    | none => exact .inl rfl
    | some g => exact ih _

theorem arrangeBandwidth_cases (groups : Groups) (alive : AliveHosts) :
    arrangeBandwidth setup groups alive = .error .lua ∨
      ∃ shares, arrangeBandwidth setup groups alive = .ok shares := by
  rw [arrangeBandwidth]
  rcases totalQuantum_cases groups Group.minUp alive with hup | ⟨up, hup⟩
  · rw [hup]
    exact .inl rfl
  · rw [hup]
    rcases totalQuantum_cases groups Group.minDown alive with hdown | ⟨down, hdown⟩
    · rw [hdown]
      exact .inl rfl
    · rw [hdown]
      simp only [bind, Except.bind]
      split
      · exact .inl rfl
      · exact .inr ⟨_, rfl⟩

/-- On both devices are the classes of the hosts in the table, and nothing but them and the first
layer; the table has the hosts that are alive, and these have classes of their own. -/
structure Consistent (kinds : Kinds) (report : Report) (tc : Direction → Tc) (crt : IpMap) :
    Prop where
  clear : crt.Clear
  mem : ∀ ip, ip ∈ crt ↔ Alive report ip
  holds : ∀ d, Holds kinds (tc d) crt.ids

/-- The classes of the hosts in the table have the rates that the configuration gives them when
these hosts are alive. -/
def Fitting (setup : Setup) (s : Daemon) (alive : AliveHosts) (tc : Direction → Tc) (crt : IpMap) :
    Prop :=
  ∃ shares, arrangeBandwidth setup (readGroups setup s.cfg) alive = .ok shares ∧
    ∀ d, Rated (tc d) crt (s.wanted setup shares d)

def Daemon.Refreshes (s : Daemon) (report : Report) (statusChanged : Bool) : Prop :=
  statusChanged = true ∨ s.cfgChanged = .host ∨
    hostChanged (updateHostListCompact report ∅).nxt s.crt = true

def Daemon.flushed (s : Daemon) (report : Report) (tc : Direction → Tc) (crt : IpMap)
    (nxt : Option IpMap) : Daemon :=
  { s with
    tc := tc, htbReady := true, crt := some crt, nxt := nxt
    alive := (updateHostListCompact report ∅).alive
    cfgChanged := if s.cfgChanged = .host then .none else s.cfgChanged }

/-- What `flush_qos_rules` does in the HTB mode when the first layer is there. -/
def Daemon.flushChanged (setup : Setup) (s : Daemon) (report : Report) (statusChanged : Bool) :
    Except Exit (Daemon × Bool) := do
  let r := s.checkHosts report
  if statusChanged || r.2 then do
    let shares ← arrangeBandwidth setup (readGroups setup r.1.cfg) r.1.alive
    let s ← r.1.flushHosts setup shares
    return (s, true)
  else return (r.1, true)

variable {changed : Bool}

theorem flushRules_htb {s₁ : Daemon} (hband : ¬ (s.curBand.up < 1 ∨ s.curBand.down < 1))
    (henabled : s.cfg.enabled = true) (hrun : (if changed then s.flushHtb else .ok s) = .ok s₁) :
    s.flushRules setup report changed = s₁.flushChanged setup report changed := by
  rw [Daemon.flushRules, if_neg hband, if_neg (not_not_intro henabled)]
  cases changed with
  | true =>
    rw [if_pos rfl] at hrun
    rw [if_pos rfl, hrun]
    rfl
  | false =>
    cases hrun
    rfl

theorem refreshes_iff :
    (changed || (s.checkHosts report).2) = true ↔ s.Refreshes report changed := by
  rw [Bool.or_eq_true, Daemon.checkHosts, updateHostList, Bool.or_eq_true, decide_eq_true_iff]
  rfl

/-- What the run `x` does to the daemon: Lua fails, or the rules are as they should be. -/
def Daemon.FlushesTo (setup : Setup) (report : Report) (changed : Bool) (s : Daemon)
    (x : Except Exit (Daemon × Bool)) : Prop :=
  x = .error .lua ∨
  ∃ tc crt nxt, x = .ok (s.flushed report tc crt nxt, true) ∧ Consistent setup.kinds report tc crt ∧
    (s.Refreshes report changed → Fitting setup s (updateHostListCompact report ∅).alive tc crt) ∧
    (¬ s.Refreshes report changed → tc = s.tc ∧
      crt = mapVals (crtState (updateHostListCompact report ∅).nxt) s.hosts)

theorem flushChanged_spec (hgood : Good report) (hclear : s.hosts.Clear)
    (hready : s.htbReady = true) (hholds : ∀ d, Holds setup.kinds (s.tc d) s.hosts.ids)
    (hsome : changed = false → s.crt.isSome) :
    s.FlushesTo setup report changed (s.flushChanged setup report changed) := by
  have hlisted := updateHostListCompact_listed report ∅
  have hstaged := @checkHosts_staged s report hgood hclear
  have hids : IpMap.ids (mapVals (crtState (updateHostListCompact report ∅).nxt) s.hosts) =
      s.hosts.ids := IpMap.ids_mapVals (crtState_id _)
  rw [Daemon.flushChanged]
  rcases Classical.em (s.Refreshes report changed) with hrefresh | hkeep
  · -- the tables are switched
    simp only [if_pos (refreshes_iff.mpr hrefresh)]
    rcases @arrangeBandwidth_cases setup (readGroups setup s.cfg)
      (updateHostListCompact report ∅).alive with hlua | ⟨shares, hshares⟩
    · have hlua' : arrangeBandwidth setup (readGroups setup (s.checkHosts report).1.cfg)
          (s.checkHosts report).1.alive = .error .lua := hlua
      rw [hlua']
      exact .inl rfl
    · have hholds' : ∀ d, Holds setup.kinds ((s.checkHosts report).1.tc d)
          (IpMap.ids (mapVals (crtState (updateHostListCompact report ∅).nxt) s.hosts)) := by
        intro d
        rw [hids]
        exact hholds d
      have hshares' : arrangeBandwidth setup (readGroups setup (s.checkHosts report).1.cfg)
          (s.checkHosts report).1.alive = .ok shares := hshares
      rw [hshares']
      simp only [bind, Except.bind]
      rcases @flushHosts_spec setup _ _ _ shares hstaged hholds' with hlua | ⟨tc, hok, hrest⟩
      · rw [hlua]
        exact .inl rfl
      · refine .inr ⟨tc, _, none, ?_, ⟨hstaged.clearNxt, ?_, fun d => (hrest d).1⟩,
          fun _ => ⟨shares, hshares, fun d => (hrest d).2⟩, fun hnot => absurd hrefresh hnot⟩
        · rw [hok, Daemon.flushed, ← hready]
          rfl
        · intro ip
          rw [mem_mapVals]
          exact hlisted.mem ip
  · -- nothing is to be done
    simp only [if_neg fun h => hkeep (refreshes_iff.mp h)]
    have hchanged : changed = false := by
      rw [← Bool.not_eq_true]
      exact fun h => hkeep (.inl h)
    have hsame : hostChanged (updateHostListCompact report ∅).nxt s.crt = false := by
      rw [← Bool.not_eq_true]
      exact fun h => hkeep (.inr (.inr h))
    obtain ⟨crt, hcrt⟩ := Option.isSome_iff_exists.mp (hsome hchanged)
    refine .inr ⟨s.tc, mapVals (crtState (updateHostListCompact report ∅).nxt) s.hosts,
      (s.checkHosts report).1.nxt, ?_, ⟨hstaged.clearCrt, ?_, ?_⟩, fun h => absurd h hkeep,
      fun _ => ⟨rfl, rfl⟩⟩
    · have hcrt' : s.crt.map (mapVals (crtState (updateHostListCompact report ∅).nxt)) =
          some (mapVals (crtState (updateHostListCompact report ∅).nxt) s.hosts) := by
        rw [Daemon.hosts, hcrt]
        rfl
      rw [Daemon.flushed, ← hcrt', ← hready]
      simp only [Daemon.checkHosts, updateHostList]
      rfl
    · intro ip
      rw [mem_mapVals, Daemon.hosts, ← mem_iff_of_not_hostChanged hsame ip]
      exact hlisted.mem ip
    · intro d
      rw [hids]
      exact hholds d

/-- **The rules in the HTB mode.** -/
theorem flushRules_spec (hband : ¬ (s.curBand.up < 1 ∨ s.curBand.down < 1))
    (henabled : s.cfg.enabled = true) (hgood : Good report) (hclear : s.hosts.Clear)
    (hlayer : Layered setup.kinds s s.hosts.ids)
    (hready : changed = false → s.htbReady = true ∧ s.crt.isSome) :
    s.FlushesTo setup report changed (s.flushRules setup report changed) := by
  -- the first layer
  obtain ⟨tc₁, hrun, hholds, htc⟩ : ∃ tc₁,
      (if changed then s.flushHtb else .ok s) = .ok { s with tc := tc₁, htbReady := true } ∧
      (∀ d, Holds setup.kinds (tc₁ d) s.hosts.ids) ∧ (changed = false → tc₁ = s.tc) := by
    cases changed with
    | true =>
      obtain ⟨tc₁, hrun, hholds⟩ := flushHtb_spec hlayer
      exact ⟨tc₁, hrun, fun d => (hholds d).1, nofun⟩
    | false =>
      obtain ⟨htrue, -⟩ := hready rfl
      refine ⟨s.tc, ?_, ?_, fun _ => rfl⟩
      · rw [if_neg Bool.false_ne_true, ← htrue]
      · rcases hlayer with ⟨-, hholds⟩ | ⟨hfalse, -⟩
        · exact hholds
        · rw [htrue] at hfalse
          cases hfalse
  rw [flushRules_htb hband henabled hrun]
  rcases flushChanged_spec (s := { s with tc := tc₁, htbReady := true }) hgood hclear rfl hholds
    fun hfalse => (hready hfalse).2 with hlua | ⟨tc, crt, nxt, hok, hcons, hfit, hkeep⟩
  · exact .inl hlua
  · refine .inr ⟨tc, crt, nxt, hok, hcons, hfit, fun hnot => ?_⟩
    obtain ⟨rfl, hcrt⟩ := hkeep hnot
    refine ⟨htc ?_, hcrt⟩
    rw [← Bool.not_eq_true]
    exact fun h => hnot (.inl h)

end Miqos
