import ReadingComment.Miqos.HostRules

/-!
# Pending changes

Between two ticks commands change the configuration, and the last of them that says
something about `cfg_changed` decides what the next tick knows of it. A limit of a
type that is not supported is rejected and takes back what an earlier command had left
there.
-/

namespace Miqos

open Lib List

variable {setup : Setup} {s s' : Daemon} {report : Report}

/-! ## Commands -/

/-- What a command leaves in `cfg_changed` while QoS is on. -/
def Command.pending : Command → Option Changed
  | .changeBand (.num u) (.num d) => if u < 0 ∨ d < 0 then none else some .all
  | .onGuest (.num _) (.num _) => some .all
  | .limit _ (some .other) (some _) _ _ _ _ => some .none
  | .limit true (some _) (some _) _ _ _ _ => some .host
  | .unlimit true _ => some .host
  | .setType _ => some .host
  | .apply both => some (if both then .all else .host)
  | _ => none

def Command.Active (c : Command) : Prop := ∃ x, c.pending = some x ∧ x ≠ .none

theorem not_active {c : Command} (h : c.pending = none ∨ c.pending = some .none) : ¬ c.Active := by
  rintro ⟨x, hx, hne⟩
  rcases h with h | h
  · cases h.symm.trans hx
  · exact hne (Option.some.inj (hx.symm.trans h))

def Answered (c : Command) (s s' : Daemon) (r : Reply) : Prop :=
  s'.cfgChanged = c.pending.getD s.cfgChanged ∧ (c.Active → r = ⟨0, ""⟩ ∨ r = ⟨1, "ok"⟩)

variable {r : Reply}

theorem answered_idle {c : Command} (h : c.pending = none) : Answered c s s r := by
  refine ⟨?_, fun hactive => absurd hactive (not_active (.inl h))⟩
  rw [h, Option.getD_none]

theorem changeBand_answered {up down : Num} (h : s.changeBand up down = .ok (s', r)) :
    Answered (.changeBand up down) s s' r := by
  cases up with
  | missing =>
    cases h
    exact answered_idle rfl
  | bad =>
    cases down with
    | missing =>
      cases h
      exact answered_idle rfl
    | bad => cases h
    | num d => cases h
  | num u =>
    cases down with
    | missing =>
      cases h
      exact answered_idle rfl
    | bad =>
      simp only [Daemon.changeBand] at h
      split at h
      · cases h
        exact answered_idle rfl
      · cases h
    | num d =>
      simp only [Daemon.changeBand] at h
      split at h
      · rename_i hu
        cases h
        exact answered_idle (if_pos (.inl hu))
      · rename_i hu
        split at h
        · rename_i hd
          cases h
          exact answered_idle (if_pos (.inr hd))
        · rename_i hd
          cases h
          have hp : (Command.changeBand (.num u) (.num d)).pending = some .all :=
            if_neg (not_or.mpr ⟨hu, hd⟩)
          refine ⟨?_, fun _ => .inl rfl⟩
          rw [hp]
          rfl

theorem onGuest_answered {up down : Num} (h : s.onGuest up down = .ok (s', r)) :
    Answered (.onGuest up down) s s' r := by
  rw [Daemon.onGuest.eq_def] at h
  split at h
  · cases h
    exact answered_idle rfl
  · cases h
    exact answered_idle (by cases up <;> rfl)
  · cases h
    exact ⟨rfl, fun _ => .inr rfl⟩
  · cases h

theorem group_answered {c : Command} {x : Except Exit Config} {changed : Changed}
    (hc : changed = c.pending.getD s.cfgChanged)
    (h : (do let cfg ← x; return ({ s with cfg := cfg, cfgChanged := changed }, ⟨0, ""⟩)) =
      (.ok (s', r) : Except Exit (Daemon × Reply))) : Answered c s s' r := by
  cases x with
  | error e => cases h
  | ok cfg =>
    cases h
    exact ⟨hc, fun _ => .inl rfl⟩

theorem limit_answered {activeSoon : Bool} {type : Option LimitType} {mac : Option Mac}
    {arg4 arg5 arg6 arg7 : Num}
    (h : s.limit activeSoon type mac arg4 arg5 arg6 arg7 = .ok (s', r)) :
    Answered (.limit activeSoon type mac arg4 arg5 arg6 arg7) s s' r := by
  cases type with
  | none =>
    cases h
    exact answered_idle (by cases activeSoon <;> rfl)
  | some type =>
    cases mac with
    | none =>
      cases h
      exact answered_idle (by cases activeSoon <;> cases type <;> rfl)
    | some mac =>
      simp only [Daemon.limit, limit_noted] at h
      cases type with
      | max | min | both => exact group_answered (by cases activeSoon <;> rfl) h
      | other =>
        cases h
        exact ⟨by cases activeSoon <;> rfl,
          fun hactive => absurd hactive (not_active (.inr (by cases activeSoon <;> rfl)))⟩

/-- **A command** leaves in `cfg_changed` what it has pending, and is acknowledged when it is
active. -/
theorem dispatch_answered {c : Command} (hon : s.curEnabled = true)
    (h : s.dispatch c = .ok (s', r)) :
    Answered c s s' r := by
  have hnot : ¬ ¬ s.curEnabled = true := not_not_intro hon
  cases c with
  | on wan | off wan | shutdown =>
    cases h
    exact ⟨rfl, fun hactive => absurd hactive (not_active (.inl rfl))⟩
  | changeBand up down => exact changeBand_answered h
  | onGuest up down => exact onGuest_answered h
  | limit activeSoon type mac arg4 arg5 arg6 arg7 =>
    simp only [Daemon.dispatch, if_neg hnot] at h
    exact limit_answered h
  | unlimit activeSoon mac =>
    simp only [Daemon.dispatch, if_neg hnot] at h
    cases h
    exact ⟨by cases activeSoon <;> rfl, fun _ => .inl rfl⟩
  | setType type | apply both =>
    simp only [Daemon.dispatch, if_neg hnot] at h
    cases h
    exact ⟨rfl, fun _ => .inl rfl⟩

def Daemon.sends (s : Daemon) (cs : List Command) : Except Exit Daemon :=
  cs.foldlM (fun s c => Prod.fst <$> s.dispatch c) s

theorem Daemon.Commanded.trans {s₁ s₂ s₃ : Daemon} (h : s₁.Commanded s₂) (h' : s₂.Commanded s₃) :
    s₁.Commanded s₃ := by
  rw [Daemon.Commanded] at *
  rw [h', h]

/-- **Commands** leave what the last of them has pending that has something pending. -/
theorem sends_pending {cs : List Command} (hon : s.curEnabled = true) (h : s.sends cs = .ok s') :
    s.Commanded s' ∧
      s'.cfgChanged = ((cs.filterMap Command.pending).getLast?).getD s.cfgChanged := by
  induction cs generalizing s with
  | nil =>
    cases h
    exact ⟨rfl, rfl⟩
  | cons c cs ih =>
    rw [Daemon.sends, foldlM_cons] at h
    obtain ⟨s₁, hs₁, h⟩ := bind_eq_ok h
    obtain ⟨r, hd, rfl⟩ := map_eq_ok hs₁
    have hframe := dispatch_frame hd
    have hon' : r.1.curEnabled = true := by
      rw [hframe]
      exact hon
    obtain ⟨hrest, hchanged⟩ := ih hon' h
    refine ⟨hframe.trans hrest, ?_⟩
    rw [hchanged, (dispatch_answered hon hd).1]
    cases hp : c.pending with
    | none => rw [filterMap_cons_none hp, Option.getD_none]
    | some x =>
      rw [filterMap_cons_some hp, getLast?_cons, Option.getD_some, Option.getD_some]

/-! ## The next tick -/

def Daemon.ticked (s : Daemon) (report : Report) (tc : Direction → Tc) (crt : IpMap)
    (nxt : Option IpMap) : Daemon :=
  { s.checked.flushed report tc crt nxt with curEnabled := true }

/-- What a tick in the HTB mode does to the hosts. -/
structure Ticked (setup : Setup) (s : Daemon) (report : Report) (tc : Direction → Tc)
    (crt : IpMap) : Prop where
  refreshed : s.checked.Refreshes report s.statusChanged →
    Fitting setup s.checked (updateHostListCompact report ∅).alive tc crt
  kept : ¬ s.checked.Refreshes report s.statusChanged → tc = s.tc ∧
    crt = mapVals (crtState (updateHostListCompact report ∅).nxt) s.hosts

theorem updateRules_stays {ok : Bool} (h : Inv setup.kinds s) (hst : s.status = .htb)
    (hfed : s.Fed report) (hrun : s.updateRules setup report = .ok (s', ok))
    (hst' : s'.status = .htb) :
    s.cfg.enabled = true ∧
      ∃ tc crt nxt, s' = s.ticked report tc crt nxt ∧ Ticked setup s report tc crt := by
  obtain ⟨hifb, hready, hcur, hcrt, hclear, hholds⟩ := h.htb hst
  have hmode : s.checked.status = .htb := hst
  rw [Daemon.updateRules] at hrun
  simp only [checkStatus_eq h.band, hmode] at hrun
  split at hrun
  · cases hrun
    cases hst'
  · rename_i hopen
    split at hrun
    · -- the status is another one then
      obtain ⟨⟨s₁, ok₁⟩, -, hrun⟩ := bind_eq_ok hrun
      cases ok₁ <;> cases hrun <;> cases hst'
    · rename_i hon
      rcases Classical.em (s.checked.curBand.up < 1 ∨ s.checked.curBand.down < 1) with hsmall |
        hband
      · have hfail :
          s.checked.flushRules setup report s.statusChanged = .ok (s.checked, false) := by
          rw [Daemon.flushRules, if_pos hsmall]
        rw [hfail] at hrun
        cases hrun
        cases hst'
      · have hhas : s.checked.cfg.HasBand := by
          by_contra hnot
          apply hband
          have hframe : determineBand s.checked.cfg = determineBand s.cfg := by
            rw [Daemon.checked, writeQosType_frame]
            rfl
          have hsmall := (extended_small_iff s.checked.cfg).mpr hnot
          rw [hframe] at hsmall
          exact hsmall
        rcases @flushRules_spec setup s.checked report s.statusChanged hband (not_not.mp hon)
          (hfed.good hopen hon hhas) hclear (.inl ⟨hready, hholds⟩) (fun _ => ⟨hready, hcrt⟩) with
          hlua | ⟨tc, crt, nxt, hok, -, hfit, hkeep⟩
        · rw [hlua] at hrun
          cases hrun
        · rw [hok] at hrun
          cases hrun
          have henabled := not_not.mp hon
          rw [Daemon.checked, writeQosType_frame] at henabled
          exact ⟨henabled, tc, crt, nxt, rfl, hfit, hkeep⟩

theorem tick_stays {ifb : Bool} (h : Inv setup.kinds s) (hst : s.status = .htb)
    (hfed : s.Fed report) (hrun : s.tick setup ifb report = .ok s') (hst' : s'.status = .htb) :
    s.cfg.enabled = true ∧
      ∃ tc crt nxt, s' = s.ticked report tc crt nxt ∧ Ticked setup s report tc crt := by
  have hifb := (h.htb hst).ifbUp
  have hsame : ({ s with ifbUp := true } : Daemon) = s := by rw [← hifb]
  rw [Daemon.tick, if_pos ((Bool.or_eq_true _ _).mpr (.inl hifb)), hsame] at hrun
  obtain ⟨⟨s₁, ok⟩, hrules, hrun⟩ := bind_eq_ok hrun
  dsimp only at hrun
  split at hrun
  · cases hrun
  · cases hrun
    exact updateRules_stays h hst hfed hrules hst'

/-! ## Changes take effect -/

/-- The hosts' classes have the rates that the configuration gives them. -/
def Daemon.Fitted (setup : Setup) (s : Daemon) : Prop :=
  ∃ crt, s.crt = some crt ∧ Fitting setup s s.alive s.tc crt

def Retuned (s s₁ : Daemon) : Prop :=
  s₁.wanType ≠ s.wanType ∨ determineBand s₁.cfg ≠ determineBand s.cfg ∨ s₁.cfg.guest ≠ s.cfg.guest

/-- The classes already have the rates that the hosts in the report are to get. -/
def Matching (setup : Setup) (s : Daemon) (report : Report) : Prop :=
  Fitting setup s.checked (updateHostListCompact report ∅).alive s.tc s.hosts

theorem rated_mapVals {t : Tc} {m nxt : IpMap} {data : Mac → Option ClassData} :
    Rated t (mapVals (crtState nxt) m) data ↔ Rated t m data := by
  constructor
  · intro h ip e he
    exact h ip (crtState nxt ip e) (mem_entries_mapVals.mpr ⟨e, he, rfl⟩)
  · intro h ip e he
    obtain ⟨e₀, he₀, rfl⟩ := mem_entries_mapVals.mp he
    exact h ip e₀ he₀

theorem fitting_mapVals {alive : AliveHosts} {tc : Direction → Tc} {m nxt : IpMap} :
    Fitting setup s alive tc (mapVals (crtState nxt) m) ↔ Fitting setup s alive tc m := by
  refine exists_congr fun shares => and_congr_right fun _ => forall_congr' fun d => ?_
  exact rated_mapVals

theorem fitted_ticked {tc : Direction → Tc} {crt : IpMap} {nxt : Option IpMap} :
    (s.ticked report tc crt nxt).Fitted setup ↔
      Fitting setup s.checked (updateHostListCompact report ∅).alive tc crt := by
  constructor
  · rintro ⟨m, hm, hfit⟩
    cases hm
    exact hfit
  · intro hfit
    exact ⟨crt, rfl, hfit⟩

theorem refreshes_iff_pending {s₁ : Daemon} {cs : List Command} (hset : Settled s)
    (hframe : s.Commanded s₁) (henabled : s₁.cfg.enabled = true)
    (hchanged : s₁.cfgChanged = ((cs.filterMap Command.pending).getLast?).getD s.cfgChanged)
    (hactive : ∃ c ∈ cs, c.Active) :
    s₁.checked.Refreshes report s₁.statusChanged ↔
      (cs.filterMap Command.pending).getLast? ≠ some .none ∨ Retuned s s₁ ∨
        hostChanged (updateHostListCompact report ∅).nxt s.crt = true := by
  obtain ⟨x, hx⟩ : ∃ x, (cs.filterMap Command.pending).getLast? = some x := by
    obtain ⟨c, hc, y, hy, -⟩ := hactive
    cases hlast : (cs.filterMap Command.pending).getLast? with
    | none =>
      rw [getLast?_eq_none_iff] at hlast
      have hmem : y ∈ cs.filterMap Command.pending := mem_filterMap.mpr ⟨c, hc, hy⟩
      rw [hlast] at hmem
      cases hmem
    | some x => exact ⟨x, rfl⟩
  rw [hx, Option.getD_some] at hchanged
  have hcur : s₁.curEnabled = true := by
    rw [hframe]
    exact hset.curEnabled
  have hwan : s₁.curWanType = s.wanType := by
    rw [hframe]
    exact hset.wan
  have hband : s₁.tcBand = determineBand s.cfg := by
    rw [hframe]
    exact hset.band
  have hguest : s₁.curGuest = s.cfg.guest := by
    rw [hframe]
    exact hset.guest
  have hcrt : s₁.checked.crt = s.crt := by
    rw [Daemon.checked, hframe]
  have hstatus : s₁.statusChanged = true ↔ x = .all ∨ Retuned s s₁ := by
    rw [Daemon.statusChanged, decide_eq_true_iff, henabled, hcur, hwan, hband, hguest, hchanged,
      Retuned]
    tauto
  have hhost : s₁.checked.cfgChanged = .host ↔ x = .host := by
    have hconsume : ∀ y : Changed, (if y = .all then Changed.none else y) = .host ↔ y = .host := by
      intro y
      cases y <;> decide
    rw [Daemon.checked, hchanged]
    exact hconsume x
  rw [Daemon.Refreshes, hstatus, hhost, hcrt, hx]
  have hcases : some x ≠ some .none ↔ x = .all ∨ x = .host := by
    cases x <;> decide
  rw [hcases]
  tauto

theorem tick_settled {ifb : Bool} (h : Inv setup.kinds s)
    (hclear : ClearReports s (.tick ifb report))
    (hrun : s.tick setup ifb report = .ok s') (hst : s'.status = .htb) :
    Updated setup.kinds report s' := by
  rcases Classical.em (s.ifbUp = true ∨ ifb = true) with hup | hdown
  · have hfed : s.Fed report := fun hopen henabled hband => hclear ⟨hup, hopen, henabled, hband⟩
    rcases tick_spec h hup hfed with hlua | ⟨s'', hok, hupd⟩
    · cases hlua.symm.trans hrun
    · obtain rfl := Except.ok.inj (hok.symm.trans hrun)
      exact hupd
  · obtain ⟨hsame, hmode⟩ := @tick_down setup s report ifb h hdown
    obtain rfl := Except.ok.inj (hsame.symm.trans hrun)
    exact absurd hst hmode

/-- **No change is lost**, and when: active commands were sent between two ticks in the HTB mode,
and after the second tick the hosts' classes have the rates of the configuration if and only if the
last command that says something was not a rejected limit, or something else makes the tick refresh
the hosts, or there is nothing to be done. -/
theorem changes_take_effect (setup : Setup) (cfg : Config) (wan : Option Wan)
    {s₀ s s₁ s' : Daemon} {ifb₀ ifb : Bool} {report₀ report : Report} {cs : List Command}
    (h : (daemonSystem setup cfg wan).Reach ClearReports s₀)
    (hclear₀ : ClearReports s₀ (.tick ifb₀ report₀)) (htick₀ : s₀.tick setup ifb₀ report₀ = .ok s)
    (hst : s.status = .htb) (hsends : s.sends cs = .ok s₁) (hactive : ∃ c ∈ cs, c.Active)
    (hclear : ClearReports s₁ (.tick ifb report)) (htick : s₁.tick setup ifb report = .ok s')
    (hst' : s'.status = .htb) :
    s'.Fitted setup ↔
      (cs.filterMap Command.pending).getLast? ≠ some .none ∨ Retuned s s₁ ∨
        hostChanged (updateHostListCompact report ∅).nxt s.crt = true ∨
        Matching setup s₁ report := by
  obtain ⟨hinv, hsettled, -⟩ := tick_settled (reach_inv h) hclear₀ htick₀ hst
  have hset := hsettled hst
  obtain ⟨hframe, hchanged⟩ := sends_pending hset.curEnabled hsends
  have hinv₁ := hinv.commanded hframe
  have hst₁ : s₁.status = .htb := by
    rw [hframe]
    exact hst
  have hup : s₁.ifbUp = true := (hinv₁.htb hst₁).ifbUp
  have hfed : s₁.Fed report := fun hopen henabled hband =>
    hclear ⟨.inl hup, hopen, henabled, hband⟩
  obtain ⟨henabled, tc, crt, nxt, rfl, hrefreshed, hkept⟩ := tick_stays hinv₁ hst₁ hfed htick hst'
  have hrefresh := @refreshes_iff_pending s report s₁ cs hset hframe henabled hchanged hactive
  rw [fitted_ticked]
  constructor
  · intro hfit
    rcases Classical.em (s₁.checked.Refreshes report s₁.statusChanged) with hyes | hno
    · rcases hrefresh.mp hyes with hlast | hretuned | hhosts
      · exact .inl hlast
      · exact .inr (.inl hretuned)
      · exact .inr (.inr (.inl hhosts))
    · obtain ⟨rfl, rfl⟩ := hkept hno
      exact .inr (.inr (.inr (fitting_mapVals.mp hfit)))
  · intro hcond
    rcases Classical.em (s₁.checked.Refreshes report s₁.statusChanged) with hyes | hno
    · exact hrefreshed hyes
    · obtain ⟨rfl, rfl⟩ := hkept hno
      rcases hcond with hlast | hretuned | hhosts | hmatch
      · exact absurd (hrefresh.mpr (.inl hlast)) hno
      · exact absurd (hrefresh.mpr (.inr (.inl hretuned))) hno
      · exact absurd (hrefresh.mpr (.inr (.inr hhosts))) hno
      · exact fitting_mapVals.mpr hmatch

/-! ## A rejected limit -/

def limitHost : Command :=
  .limit true (some .max) (some ['A']) (.num 100) (.num 100) .missing .missing

def limitOther : Command :=
  .limit true (some .other) (some ['A']) .missing .missing .missing .missing

def limitedConfig : Config := { officeConfig with qosType := .max }

def twoTicks (cs : List Command) : Except Exit (Daemon × Daemon × Daemon) := do
  let s ← (start limitedConfig none).tick officeSetup true [wireless ['A'] [192, 168, 0, 5]]
  let s₁ ← s.sends cs
  let s' ← s₁.tick officeSetup true [wireless ['A'] [192, 168, 0, 5]]
  return (s, s₁, s')

/-- A host's class does not have the rates that the configuration gives it on the way up. -/
def unfit (setup : Setup) (s : Daemon) (ip : Ip) : Bool :=
  match s.crt.bind (·.lookup ip), arrangeBandwidth setup (readGroups setup s.cfg) s.alive with
  | some e, .ok shares =>
    decide (s.tc .up (.cls (hostClass e.id)) ≠ (s.wanted setup shares .up e.mac).map .cls)
  | _, _ => false

theorem not_fitted {ip : Ip} (h : unfit setup s ip = true) : ¬ s.Fitted setup := by
  rintro ⟨crt, hcrt, shares, hshares, hrated⟩
  rw [unfit, hcrt, hshares, Option.bind_some] at h
  cases hlookup : crt.lookup ip with
  | none =>
    rw [hlookup] at h
    cases h
  | some e =>
    rw [hlookup] at h
    obtain ⟨d, hd, hcls⟩ := hrated .up ip e (mem_entries_iff.mpr hlookup)
    apply of_decide_eq_true h
    rw [hd, hcls]
    rfl

theorem twoTicks_steps {cs : List Command} {s s₁ s' : Daemon} (h : twoTicks cs = .ok (s, s₁, s')) :
    (start limitedConfig none).tick officeSetup true [wireless ['A'] [192, 168, 0, 5]] = .ok s ∧
    s.sends cs = .ok s₁ ∧
    s₁.tick officeSetup true [wireless ['A'] [192, 168, 0, 5]] = .ok s' := by
  rw [twoTicks] at h
  obtain ⟨s₂, htick, h⟩ := bind_eq_ok h
  obtain ⟨s₃, hsends, h⟩ := bind_eq_ok h
  obtain ⟨s₄, htick', h⟩ := bind_eq_ok h
  cases h
  exact ⟨htick, hsends, htick'⟩

/-- Both ticks are in the HTB mode, and what else holds after the second. -/
def endsWith (p : Daemon → Bool) (x : Daemon × Daemon × Daemon) : Bool :=
  decide (x.1.status = .htb) && decide (x.2.2.status = .htb) && p x.2.2

theorem exists_twoTicks {cs : List Command} {p : Daemon → Bool}
    (h : (twoTicks cs).toOption.map (endsWith p) = some true) :
    ∃ s s₁ s', (start limitedConfig none).tick officeSetup true
        [wireless ['A'] [192, 168, 0, 5]] = .ok s ∧ s.status = .htb ∧ s.sends cs = .ok s₁ ∧
      s₁.tick officeSetup true [wireless ['A'] [192, 168, 0, 5]] = .ok s' ∧ s'.status = .htb ∧
      p s' = true := by
  obtain ⟨⟨s, s₁, s'⟩, hrun, hends⟩ := toOption_map_eq h
  rw [endsWith, Bool.and_eq_true, Bool.and_eq_true, decide_eq_true_iff, decide_eq_true_iff] at hends
  obtain ⟨htick, hsends, htick'⟩ := twoTicks_steps hrun
  exact ⟨s, s₁, s', htick, hends.1.1, hsends, htick', hends.1.2, hends.2⟩

theorem limitHost_active : limitHost.Active := ⟨.host, rfl, nofun⟩

/-- The limit alone takes effect. -/
theorem changes_take_effect_limit :
    ∃ s s₁ s' : Daemon, s.sends [limitHost] = .ok s₁ ∧
      s₁.tick officeSetup true [wireless ['A'] [192, 168, 0, 5]] = .ok s' ∧
      s'.Fitted officeSetup := by
  have hrun : (twoTicks [limitHost]).toOption.map (endsWith fun _ => true) = some true := by
    decide +kernel
  obtain ⟨s, s₁, s', htick, hst, hsends, htick', hst', -⟩ := exists_twoTicks hrun
  have hiff :=
    changes_take_effect officeSetup limitedConfig none .init (fun _ => good_wireless) htick
    hst hsends ⟨limitHost, List.mem_singleton_self _, limitHost_active⟩ (fun _ => good_wireless)
    htick' hst'
  exact ⟨s, s₁, s', hsends, htick', hiff.mpr (.inl nofun)⟩

/-- A limit that was acknowledged, and a rejected one after it: the limit is not installed. -/
theorem rejected_limit_cancels :
    limitHost.Active ∧ ∃ s s₁ s',
      (start limitedConfig none).tick officeSetup true [wireless ['A'] [192, 168, 0, 5]] = .ok s ∧
      s.status = .htb ∧ s.sends [limitHost, limitOther] = .ok s₁ ∧
      s₁.tick officeSetup true [wireless ['A'] [192, 168, 0, 5]] = .ok s' ∧ s'.status = .htb ∧
      ¬ s'.Fitted officeSetup := by
  have hrun : (twoTicks [limitHost, limitOther]).toOption.map
      (endsWith fun s => unfit officeSetup s [192, 168, 0, 5]) = some true := by decide +kernel
  obtain ⟨s, s₁, s', htick, hst, hsends, htick', hst', hunfit⟩ := exists_twoTicks hrun
  exact ⟨limitHost_active, s, s₁, s', htick, hst, hsends, htick', hst', not_fitted hunfit⟩

end Miqos
