import ReadingComment.Miqos.HostRules

/-!
# Hosts with a high priority (`nprio`)

With `nprio` a client puts a host on the list of those whose packets go first, or takes it
off. The filters that make it so are installed after `update_QOS`, but only when the list
was marked as changed; they all have the same `tc` priority, and the handle of a filter
is made of the last octet of the host's address.

The number that Lua takes a string for, and the handles that `tc` takes, are left open.
-/

namespace Miqos

open Lib

/-! ## The list -/

abbrev IpText : Type := List Char

/-- `const_NO_LIMIT_HIGH`, `const_BAND_LIMIT_HIGH` and `const_QDISC_PRIO_DEFAULT_HIGH`. -/
inductive FlowName where
  | noLimitHigh
  | bandLimitHigh
  | prioDefaultHigh
  deriving DecidableEq, Repr

/-- `g_filter_flowid_tab`. -/
def filterFlowid : FlowName → ℕ
  | .noLimitHigh => 0
  | .bandLimitHigh => 0x2003
  | .prioDefaultHigh => 2

/-- The class of a host with a high priority; in the PRIO mode all have the same. -/
def flowid (htb : Bool) (v : FlowName) : ℕ :=
  if htb then filterFlowid v else filterFlowid .prioDefaultHigh

/-- `string.split(ip, '.')`. -/
def split (ip : IpText) : List (List Char) := (ip.splitOn '.').filter (· ≠ [])

structure Tools where
  /-- the number that `%x` takes a string for -/
  number : List Char → Option ℕ
  /-- `tc` takes a filter with this handle -/
  accepts : ℕ → Bool

/-- The handle of the filter of a host: its last octet in hexadecimal with six zeros. -/
def Tools.handle (tools : Tools) (ip : IpText) : Option ℕ :=
  ((split ip)[3]?.bind tools.number).map (· * 0x1000000)

/-- `g_filter_prio_tab['PRIO_HOST_ONLY_HIGH']`. -/
def prioHostOnlyHigh : ℕ := 2

/-- The daemon with `g_high_prio_host` and `g_high_prio_host_changed`. -/
structure Miqosd where
  daemon : Daemon
  highPrioHost : AList fun _ : IpText => FlowName
  highPrioHostChanged : Bool

/-! ## Commands -/

inductive NprioOp where
  | add
  | del
  | other
  deriving DecidableEq, Repr

/-- `HIGH_PRIO_WITHOUT_LIMIT` and `HIGH_PRIO_WITH_BANDLIMIT`. -/
inductive NprioType where
  | withoutLimit
  | withBandlimit
  | other
  deriving DecidableEq, Repr

inductive MiqosdCommand where
  | nprio (op : Option NprioOp) (ip : Option IpText) (type : Option NprioType)
  | other (c : Command)
  deriving DecidableEq

/-- A command that marks the list as changed (`force to refresh`). -/
def Command.forces : Command → Bool
  | .on _ | .off _ => true
  | _ => false

namespace Miqosd

/-- `tc_update_host_prio_and_limit(act, ip, flowid)`. -/
def updateHostPrioAndLimit (s : Miqosd) (act : NprioOp) (ip : IpText) (flowid : FlowName) :
    Miqosd :=
  match act with
  | .add => { s with
      highPrioHost := s.highPrioHost.insert ip flowid, highPrioHostChanged := true }
  | .del => { s with
      highPrioHost := s.highPrioHost.erase ip, highPrioHostChanged := true }
  | .other => s

/-- `nprio`. -/
def nprio (s : Miqosd) (op : Option NprioOp) (ip : Option IpText) (type : Option NprioType) :
    Except Exit (Miqosd × Reply) :=
  match op with
  | none | some .other => .ok (s, ⟨1, "only support add/del op."⟩)
  | some op =>
    match type, ip with
    | some .withoutLimit, some ip => .ok (s.updateHostPrioAndLimit op ip .noLimitHigh, ⟨0, ""⟩)
    | some .withBandlimit, some ip => .ok (s.updateHostPrioAndLimit op ip .bandLimitHigh, ⟨0, ""⟩)
    | some .other, some _ => .ok (s, ⟨0, ""⟩)
    -- nil as a key of the table, or in the message of the logger
    | _, _ => .error .lua

def dispatch (s : Miqosd) : MiqosdCommand → Except Exit (Miqosd × Reply)
  | .nprio op ip type => s.nprio op ip type
  | .other c => do
    let (daemon, r) ← s.daemon.dispatch c
    return ({ s with
      daemon := daemon, highPrioHostChanged := s.highPrioHostChanged || c.forces }, r)

end Miqosd

/-! ## Filters -/

/-- `tc filter del` for all filters of the priority. -/
def delHighPrio (t : Tc) : Tc
  | .filter p h => if p = prioHostOnlyHigh then none else t (.filter p h)
  | o => t o

def highPrioCmds (tools : Tools) (htb : Bool) (hosts : List (Σ _ : IpText, FlowName)) :
    Except Exit (List TcCmd) :=
  hosts.mapM fun x =>
    match tools.handle x.1 with
    | none => .error .lua
    | some h => .ok ⟨.replace, .filter prioHostOnlyHigh h, .filter (flowid htb x.2)⟩

/-- `tc` takes the handle of a filter. -/
def Tools.takes (tools : Tools) (c : TcCmd) : Bool :=
  match c.obj with
  | .filter _ h => tools.accepts h
  | _ => true

namespace Miqosd

/-- `tc_update_host_prio_and_limit_filter(dev, parent, is_htb)`. -/
def updateFilter (tools : Tools) (htb : Bool) (s : Miqosd) (d : Direction) :
    Except Exit Miqosd := do
  -- errors of the deletion are ignored
  let daemon := { s.daemon with
    tc := Function.update s.daemon.tc d (delHighPrio (s.daemon.tc d)) }
  let cmds ← highPrioCmds tools htb s.highPrioHost.entries
  if cmds.all tools.takes then do
    let daemon ← daemon.exec d cmds
    return { s with daemon := daemon }
  else .error .tc

/-- `update_QOS_high_prio_filter()`. -/
def updateHighPrioFilter (tools : Tools) (s : Miqosd) : Except Exit Miqosd :=
  if s.daemon.status = .off then .ok s
  else if s.highPrioHostChanged then
    flows.foldlM (updateFilter tools s.daemon.curEnabled) { s with highPrioHostChanged := false }
  else .ok s

def tick (tools : Tools) (setup : Setup) (s : Miqosd) (ifb : Bool) (report : Report) :
    Except Exit Miqosd := do
  let daemon ← s.daemon.tick setup ifb report
  updateHighPrioFilter tools { s with daemon := daemon }

end Miqosd

/-! ## Runs -/

/-- What happens to the daemon. -/
inductive MiqosdAction where
  | command (c : MiqosdCommand)
  | tick (ifb : Bool) (report : Report)

def Miqosd.act (tools : Tools) (setup : Setup) (s : Miqosd) : MiqosdAction → Except Exit Miqosd
  | .command c => Prod.fst <$> s.dispatch c
  | .tick ifb report => s.tick tools setup ifb report

def miqosdSystem (tools : Tools) (setup : Setup) (cfg : Config) (wan : Option Wan) :
    System Miqosd MiqosdAction Exit where
  init := ⟨start cfg wan, ∅, false⟩
  Allowed := fun _ _ => True
  step := Miqosd.act tools setup

instance (tools : Tools) (setup : Setup) (cfg : Config) (wan : Option Wan) (s : Miqosd)
    (a : MiqosdAction) : Decidable ((miqosdSystem tools setup cfg wan).Allowed s a) :=
  .isTrue trivial

/-! ## What should be installed -/

/-- On both devices the filters of the priority are those of the hosts on the list, with the classes
of the mode. -/
def Miqosd.Filtered (tools : Tools) (s : Miqosd) : Prop :=
  ∀ d h x, s.daemon.tc d (.filter prioHostOnlyHigh h) = some x ↔
    ∃ ip v, s.highPrioHost.lookup ip = some v ∧ tools.handle ip = some h ∧
      x = .filter (flowid (s.daemon.status = .htb) v)

end Miqos
