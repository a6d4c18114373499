import ReadingComment.Miqos.Hosts

/-!
# Configuration and rates

The settings of the daemon are in a UCI configuration that commands change and that each
tick reads. From the groups (one for a device, named by its MAC address, and a
default group) and from the hosts that are alive come the rates of the hosts'
classes.

A setting that is a number is a fraction here. `tonumber` of what is no number and the
use of a group that is missing are errors of Lua, which end the daemon.
-/

namespace Miqos

open Lib

/-! ## Settings -/

structure Band where
  up : ℚ
  down : ℚ
  deriving DecidableEq

def Band.get (b : Band) : Direction → ℚ
  | .up => b.up
  | .down => b.down

/-- A group: the shares that are its minimum and the limits in kbit/s that are its maximum. -/
structure Group where
  minUp : ℚ
  minDown : ℚ
  maxUp : ℚ
  maxDown : ℚ
  deriving DecidableEq

/-- Which limits count: `QOS_TYPE`, and what else can be in the configuration. -/
inductive QosType where
  | auto
  | min
  | max
  | both
  | other
  deriving DecidableEq, Repr

abbrev Groups : Type := AList fun _ : Mac => Group

/-- The configuration `miqos`. -/
structure Config where
  band : Band
  enabled : Bool
  qosType : QosType
  guest : Band
  groups : Groups

/-- What does not change while the daemon runs: the mode and the name of the default group. -/
structure Setup where
  kinds : Kinds
  defaultGroup : Mac

/-- `g_default_min_updown_factor`. -/
def defaultMin : ℚ := 1/2

def Group.restrict (qosType : QosType) (g : Group) : Group :=
  match qosType with
  | .min => { g with maxUp := 0, maxDown := 0 }
  | .max => { g with minUp := 0, minDown := 0 }
  | _ => g

def Group.check (g : Group) : Group where
  minUp := if g.minUp < 0 ∨ 1 < g.minUp then 0 else g.minUp
  minDown := if g.minDown < 0 ∨ 1 < g.minDown then 0 else g.minDown
  maxUp := if g.maxUp < 8 then 0 else g.maxUp
  maxDown := if g.maxDown < 8 then 0 else g.maxDown

/-- The groups as `read_qos_config` has them. -/
def readGroups (setup : Setup) (cfg : Config) : Groups :=
  let groups : Groups :=
    match cfg.qosType with
    | .auto | .other =>
      -- only the default group counts
      match cfg.groups.lookup setup.defaultGroup with
      | some g => AList.singleton setup.defaultGroup g
      | none => ∅
    | qosType => mapVals (fun mac g => if mac = setup.defaultGroup then g else g.restrict qosType)
        cfg.groups
  mapVals (fun _ g => g.check) groups

/-- What `read_qos_config` writes: a type that is not known is set to `auto`. -/
def writeQosType (cfg : Config) : Config :=
  if cfg.qosType = .other then { cfg with qosType := .auto } else cfg

/-- `determine_band()`. -/
def determineBand (cfg : Config) : Band :=
  if 0 < cfg.band.up ∨ 0 < cfg.band.down then cfg.band else ⟨0, 0⟩

/-! ## Rates -/

/-- What a group comes to for each of its hosts. -/
structure Share where
  eachUpRate : ℚ
  eachDownRate : ℚ
  eachUpCeil : ℚ
  eachDownCeil : ℚ
  minUp : ℚ

def normMin (x : ℚ) : ℚ := if x ≤ 0 ∨ 1 < x then defaultMin else x

def groupId (setup : Setup) (groups : Groups) (mac : Mac) : Mac :=
  if mac ∈ groups then mac else setup.defaultGroup

def totalQuantum (setup : Setup) (groups : Groups) (min : Group → ℚ) (alive : AliveHosts) :
    Except Exit ℚ :=
  alive.entries.foldlM (fun total x =>
    match groups.lookup (groupId setup groups x.1) with
    | none => .error .lua
    | some g => .ok (total + normMin (min g) * x.2.length)) 0

/-- The number of hosts of a group, `group_def[k]['count']`. -/
def groupCount (setup : Setup) (groups : Groups) (alive : AliveHosts) (k : Mac) : ℕ :=
  if k = setup.defaultGroup then
    ((alive.entries.filter fun x => x.1 ∉ groups).map fun x => x.2.length).sum
  else ((alive.lookup k).getD []).length

/-- `arrange_bandwidth()`. -/
def arrangeBandwidth (setup : Setup) (groups : Groups) (alive : AliveHosts) :
    Except Exit (AList fun _ : Mac => Option Share) := do
  let totalUp ← totalQuantum setup groups Group.minUp alive
  let totalDown ← totalQuantum setup groups Group.minDown alive
  if setup.defaultGroup ∉ groups then .error .lua
  else
    return mapVals (fun k g =>
      if 0 < groupCount setup groups alive k then
        some ⟨normMin g.minUp / totalUp, normMin g.minDown / totalDown, g.maxUp, g.maxDown,
          normMin g.minUp⟩
      else none) groups

/-- The share of a device, `group_def[mac] or group_def[cfg_default_group]`. -/
def shareOf (setup : Setup) (groups : Groups) (shares : AList fun _ : Mac => Option Share)
    (mac : Mac) : Option Share :=
  (shares.lookup (groupId setup groups mac)).join

/-- The rates of a host, as `refresh_all_hosts_qos` computes them. -/
def hostData (dir : Direction) (s : Share) (rateHost ceilHost : ℚ) : ClassData :=
  let eachRate := match dir with | .up => s.eachUpRate | .down => s.eachDownRate
  let eachCeil := match dir with | .up => s.eachUpCeil | .down => s.eachDownCeil
  let lhostRate := if 0 < eachRate then eachRate else 0
  let lhostCeil := if 1 < eachCeil then eachCeil else ceilHost
  let inCeil := ceil lhostCeil
  let inRate := ceil (lhostRate * rateHost)
  let ratio := s.minUp * 10
  let ratio := if ratio ≤ 0 then 1 else ratio
  let ratio := if 10 < ratio then 10 else ratio
  let inQuan := ceil (quantumValue * ratio)
  -- less than 1kb/s(8kbps), will regard it as no-limit
  let inCeil := if inCeil < 8 then rateHost else inCeil
  let inRate := if inCeil < inRate then inCeil else inRate
  let inRate := if inRate < 8 then 8 else inRate
  ⟨inRate, inCeil, inQuan⟩

end Miqos
