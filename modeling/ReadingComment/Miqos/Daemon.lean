import ReadingComment.Lib.Run
import ReadingComment.Miqos.Config

/-!
# The QoS daemon

The main loop takes commands from clients and calls `update_QOS` from time to time, which brings the
installed rules up to date. A pending change of the configuration is remembered in `cfg_changed`.

Whether the device `ifb0` is up and what `trafficd` reports comes with a tick. The commands that
only show something, the counters, the iptables marks and the priorities of single hosts (`nprio`)
are left out; so is `g_extend_flag`, which is constantly false.
-/

namespace Miqos

open Lib

/-! ## State -/

/-- `g_QOS_Status`. -/
inductive Status where
  | off
  | prio
  | htb
  deriving DecidableEq, Repr

/-- `cfg_changed`. -/
inductive Changed where
  | none
  | host
  | all
  deriving DecidableEq, Repr

inductive Wan where
  | ip
  | pppoe
  deriving DecidableEq, Repr

structure Daemon where
  cfg : Config
  /-- the rules that are installed on the two devices -/
  tc : Direction → Tc
  status : Status
  closeLayer1 : Bool
  curEnabled : Bool
  cfgChanged : Changed
  qosType : QosType
  htbReady : Bool
  prioReady : Bool
  /-- `g_crt_ipmac_map` and `g_nxt_ipmac_map`, which can be nil -/
  crt : Option IpMap
  nxt : Option IpMap
  alive : AliveHosts
  ifbUp : Bool
  wanType : Option Wan
  curWanType : Option Wan
  /-- `tc_bandwidth`, `cur_bandwidth` and `g_cur_guest_max_band` -/
  tcBand : Band
  curBand : Band
  curGuest : Band

def start (cfg : Config) (wan : Option Wan) : Daemon where
  cfg := writeQosType cfg
  tc _ _ := none
  status := .off
  closeLayer1 := false
  curEnabled := false
  cfgChanged := .none
  qosType := (writeQosType cfg).qosType
  htbReady := false
  prioReady := false
  crt := some ∅
  nxt := some ∅
  alive := ∅
  ifbUp := false
  wanType := wan
  curWanType := none
  tcBand := ⟨0, 0⟩
  curBand := ⟨0, 0⟩
  curGuest := ⟨0, 0⟩

/-! ## Rules -/

/-- `g_flow_type`, in its order: `ifb0` for DOWN, `eth0.2` for UP. -/
def flows : List Direction := [.down, .up]

namespace Daemon

/-- `exec_cmd` on a device; `system_exit` when it fails. -/
def exec (s : Daemon) (d : Direction) (cmds : List TcCmd) : Except Exit Daemon :=
  match runAll cmds (s.tc d) with
  | none => .error .tc
  | some t => .ok { s with tc := Function.update s.tc d t }

/-- `cleanup_system()`: with the roots everything goes. -/
def cleanupSystem (s : Daemon) : Daemon :=
  { s with tc := fun _ _ => none, htbReady := false, prioReady := false, crt := none }

/-- `delete_all_hosts_qos` on a device. -/
def deleteAllHosts (kinds : Kinds) : List (Σ _ : Ip, HostEntry) → Tc → Except Exit (Tc × Bool)
  | [], t => .ok (t, true)
  | x :: l, t => do
    let (t, ok) ← updateHost kinds .del x.2.id ⟨0, 0, 0⟩ t
    if ok then deleteAllHosts kinds l t else return (t, false)

/-- `cleanup_htb_layer2_host()`. -/
def cleanupHosts (setup : Setup) (s : Daemon) : Except Exit Daemon :=
  match s.crt with
  | none => .ok s
  | some crt => do
    let (down, _) ← deleteAllHosts setup.kinds crt.entries (s.tc .down)
    let (up, _) ← deleteAllHosts setup.kinds crt.entries (s.tc .up)
    return { s with tc := fun d => match d with | .down => down | .up => up, crt := none }

/-- `flush_prio_layer1()`. -/
def flushPrio (s : Daemon) : Except Exit Daemon := do
  let s ← flows.foldlM (fun s d =>
    s.exec d (layer1PrioCmds (!s.prioReady) (s.curBand.get d) (s.curGuest.get d))) s
  return { s with prioReady := true }

/-- `flush_htb_layer1()`. -/
def flushHtb (s : Daemon) : Except Exit Daemon := do
  let act : Act := if s.htbReady then .change else .add
  let s ← flows.foldlM (fun s d =>
    s.exec d (layer1HtbCmds act (s.curBand.get d) (s.curGuest.get d))) s
  return { s with htbReady := true }

end Daemon

/-! ## Hosts -/

/-- The first loop of `refresh_all_hosts_qos`: hosts that are gone. -/
def delHosts (kinds : Kinds) : List (Σ _ : Ip, HostEntry) → Tc → Except Exit (Tc × Bool)
  | [], t => .ok (t, true)
  | x :: l, t =>
    if x.2.st = .del then do
      let (t, ok) ← updateHost kinds .del x.2.id ⟨0, 0, 0⟩ t
      if ok then delHosts kinds l t else return (t, false)
    else delHosts kinds l t

def HostState.act : HostState → Act
  | .new => .add
  | .upd => .change
  | _ => .del

/-- The second loop of `refresh_all_hosts_qos`: hosts that are new or stay, with the rates of their
devices. -/
def setHosts (kinds : Kinds) (alive : AliveHosts) (data : Mac → Option ClassData) :
    List (Σ _ : Ip, HostEntry) → Tc → Except Exit (Tc × Bool)
  | [], t => .ok (t, true)
  | x :: l, t =>
    if x.2.mac ∉ alive then .ok (t, false)
    else
      match data x.2.mac with
      | none => .error .lua
      | some d => do
        let (t, ok) ← updateHost kinds x.2.st.act x.2.id d t
        if ok then setHosts kinds alive data l t else return (t, false)

namespace Daemon

/-- The rates that the configuration gives to the hosts of a device. -/
def wanted (setup : Setup) (s : Daemon) (shares : AList fun _ : Mac => Option Share)
    (d : Direction) (mac : Mac) : Option ClassData :=
  (shareOf setup (readGroups setup s.cfg) shares mac).map fun share =>
    hostData d share (ceil (s.curBand.get d * (1/2))) (ceil (s.curBand.get d * (105/100)))

/-- `refresh_all_hosts_qos` on a device. -/
def refresh (setup : Setup) (s : Daemon) (shares : AList fun _ : Mac => Option Share)
    (d : Direction) : Except Exit (Daemon × Bool) := do
  let store (t : Tc) : Daemon := { s with tc := Function.update s.tc d t }
  let (t, ok) ← delHosts setup.kinds ((s.crt.map (·.entries)).getD []) (s.tc d)
  if ok then do
    let (t, ok) ← setHosts setup.kinds s.alive (s.wanted setup shares d)
      ((s.nxt.map (·.entries)).getD []) t
    return (store t, ok)
  else return (store t, false)

/-- `flush_htb_layer2()`; nobody looks at its result. -/
def flushHosts (setup : Setup) (s : Daemon) (shares : AList fun _ : Mac => Option Share) :
    Except Exit Daemon := do
  let (s, ok) ← s.refresh setup shares .down
  if ok then do
    let (s, ok) ← s.refresh setup shares .up
    -- the tables are switched
    return if ok then { s with crt := some (s.nxt.getD ∅), nxt := none } else s
  else return s

/-! ## A tick -/

/-- `check_status_changed()`. -/
def checkStatus (s : Daemon) : Daemon × Bool :=
  let act := determineBand s.cfg
  let changed := s.cfg.enabled ≠ s.curEnabled ∨ s.wanType ≠ s.curWanType ∨ s.cfgChanged = .all ∨
    act ≠ s.tcBand ∨ s.cfg.guest ≠ s.curGuest
  ({ s with
      curWanType := s.wanType
      cfgChanged := if s.cfgChanged = .all then .none else s.cfgChanged
      tcBand := act
      -- band_extend_factor
      curBand := if act ≠ s.tcBand then ⟨ceil (act.up * (105/100)), ceil (act.down * (105/100))⟩
        else s.curBand
      curGuest := s.cfg.guest }, changed)

/-- `check_host_changed()`. -/
def checkHosts (s : Daemon) (report : Report) : Daemon × Bool :=
  let byCommand := s.cfgChanged = .host
  let (lists, crt, update) := updateHostList report s.crt
  ({ s with
      cfgChanged := if byCommand then .none else s.cfgChanged
      nxt := some lists.nxt
      alive := lists.alive
      crt := crt }, decide byCommand || update)

/-- `flush_qos_rules(status_changed)`. -/
def flushRules (setup : Setup) (s : Daemon) (report : Report) (statusChanged : Bool) :
    Except Exit (Daemon × Bool) :=
  if s.curBand.up < 1 ∨ s.curBand.down < 1 then .ok (s, false)
  else if ¬ s.cfg.enabled then do
    let lists := updateHostListCompact report s.alive
    let s := { s with nxt := some lists.nxt, alive := lists.alive }
    let s ← if statusChanged then s.flushPrio else .ok s
    return (s, true)
  else do
    let s ← if statusChanged then s.flushHtb else .ok s
    let (s, hostChanged) := s.checkHosts report
    if statusChanged || hostChanged then do
      let shares ← arrangeBandwidth setup (readGroups setup s.cfg) s.alive
      let s ← s.flushHosts setup shares
      return (s, true)
    else return (s, true)

def fail (s : Daemon) : Daemon := { s with curEnabled := false, status := .off }

/-- `update_QOS()` when the device is up; the result is its return value. -/
def updateRules (setup : Setup) (s : Daemon) (report : Report) : Except Exit (Daemon × Bool) :=
  -- read_qos_config
  let cfg := writeQosType s.cfg
  let (s, changed) := { s with cfg := cfg, qosType := cfg.qosType }.checkStatus
  match s.status with
  | .htb =>
    if s.closeLayer1 then .ok (s.cleanupSystem.fail, true)
    else if ¬ s.cfg.enabled then do
      let (s, ok) ← s.cleanupSystem.flushRules setup report changed
      if ok then return ({ s with status := .prio, curEnabled := false }, true)
      else return (s.cleanupSystem.fail, false)
    else do
      let (s, ok) ← s.flushRules setup report changed
      if ok then return ({ s with curEnabled := true }, true)
      else return (s.cleanupSystem.fail, false)
  | .prio =>
    if s.closeLayer1 then .ok (s.cleanupSystem.fail, true)
    else if ¬ s.cfg.enabled then do
      let (s, _) ← s.flushRules setup report changed
      return ({ s with curEnabled := false }, true)
    else do
      let (s, ok) ← s.cleanupSystem.flushRules setup report changed
      if ok then return ({ s with status := .htb, curEnabled := true }, true)
      else do
        let s ← s.cleanupHosts setup
        return (s.fail, true)
  | .off =>
    if s.closeLayer1 then .ok (s, true)
    else if ¬ s.cfg.enabled then do
      let (s, ok) ← s.flushRules setup report true
      if ok then return ({ s with status := .prio, curEnabled := false }, true)
      else return (s.fail, true)
    else do
      let (s, ok) ← s.flushRules setup report true
      if ok then return ({ s with status := .htb, curEnabled := true }, true)
      else return (s.cleanupSystem.fail, true)

/-- What the main loop does at a tick: `update_QOS()`, and then `update_tc_counters()`, which goes
through the table of the installed hosts. -/
def tick (setup : Setup) (s : Daemon) (ifb : Bool) (report : Report) : Except Exit Daemon :=
  if s.ifbUp || ifb then do
    let (s, ok) ← { s with ifbUp := true }.updateRules setup report
    if ok ∧ s.curEnabled ∧ s.crt = none then .error .lua else return s
  else return s

end Daemon

end Miqos
