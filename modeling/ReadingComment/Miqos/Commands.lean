import ReadingComment.Miqos.Daemon

/-!
# Commands and runs of the daemon

A client sends one command and gets a reply. Commands change the configuration; the ones
that are to take effect at once also set `cfg_changed`. In a run commands and ticks
come in any order.
-/

namespace Miqos

open Lib

/-- An argument that should be a number. -/
inductive Num where
  | missing
  | bad
  | num (q : ℚ)
  deriving DecidableEq

/-- The type of a limit. -/
inductive LimitType where
  | max
  | min
  | both
  | other
  deriving DecidableEq, Repr

inductive Command where
  /-- `on` and `off`, with the type that the WAN has in the network configuration -/
  | on (wan : Option Wan)
  | off (wan : Option Wan)
  | shutdown
  | changeBand (up down : Num)
  | onGuest (up down : Num)
  /-- `on_limit`, and `set_limit`, which is not active soon -/
  | limit (activeSoon : Bool) (type : Option LimitType) (mac : Option Mac)
      (arg4 arg5 arg6 arg7 : Num)
  /-- `off_limit`, and `reset_limit`, which is not active soon -/
  | unlimit (activeSoon : Bool) (mac : Option Mac)
  | setType (type : Option QosType)
  | apply (both : Bool)
  deriving DecidableEq

structure Reply where
  status : ℕ
  data : String
  deriving DecidableEq

/-! ## Changes of the configuration -/

/-- A setting of a group that is changed when there is an argument. -/
def setNum (check : ℚ → ℚ) (old : ℚ) : Num → Except Exit ℚ
  | .missing => .ok old
  | .bad => .error .lua
  | .num q => .ok (check q)

def checkMax (q : ℚ) : ℚ := if q < 8 then 0 else q

def newGroup : Group := ⟨1/2, 1/2, 0, 0⟩

/-- `add_or_change_group(mac, maxup, maxdown, minup, mindown, todisk)`. -/
def addOrChangeGroup (cfg : Config) (mac : Mac) (maxUp maxDown minUp minDown : Num) :
    Except Exit Config := do
  let name := mac.map Char.toUpper
  let g := (cfg.groups.lookup name).getD newGroup
  let minUp ← setNum normMin g.minUp minUp
  let minDown ← setNum normMin g.minDown minDown
  let maxUp ← setNum checkMax g.maxUp maxUp
  let maxDown ← setNum checkMax g.maxDown maxDown
  return { cfg with groups := cfg.groups.insert name ⟨minUp, minDown, maxUp, maxDown⟩ }

/-- `del_group(mac, todisk)`. -/
def delGroup (cfg : Config) (mac : Option Mac) : Config :=
  match mac with
  | some mac => { cfg with groups := cfg.groups.erase (mac.map Char.toUpper) }
  | none => { cfg with groups :=
      match cfg.groups.lookup ['0', '0'] with
      | some g => AList.singleton ['0', '0'] g
      | none => ∅ }

namespace Daemon

/-- `change_band`. -/
def changeBand (s : Daemon) (up down : Num) : Except Exit (Daemon × Reply) :=
  match up, down with
  | .missing, _ => .ok (s, ⟨1, "parameter lost"⟩)
  | _, .missing => .ok (s, ⟨1, "parameter lost"⟩)
  | .bad, _ => .error .lua
  | .num u, d =>
    if u < 0 then .ok (s, ⟨3, "parameter foramt error."⟩)
    else
      match d with
      | .num d =>
        if d < 0 then .ok (s, ⟨3, "parameter foramt error."⟩)
        else .ok ({ s with cfg := { s.cfg with band := ⟨u, d⟩ }, cfgChanged := .all }, ⟨0, ""⟩)
      | _ => .error .lua

/-- `on_guest`. -/
def onGuest (s : Daemon) (up down : Num) : Except Exit (Daemon × Reply) :=
  match up, down with
  | .missing, _ => .ok (s, ⟨2, "parameter wrong."⟩)
  | _, .missing => .ok (s, ⟨2, "parameter wrong."⟩)
  | .num u, .num d =>
    .ok ({ s with cfg := { s.cfg with guest := ⟨u, d⟩ }, cfgChanged := .all }, ⟨1, "ok"⟩)
  | _, _ => .error .lua

/-- `on_limit` and `set_limit`. -/
def limit (s : Daemon) (activeSoon : Bool) (type : Option LimitType) (mac : Option Mac)
    (arg4 arg5 arg6 arg7 : Num) : Except Exit (Daemon × Reply) :=
  match type, mac with
  | some type, some mac => do
    let s := if activeSoon then { s with cfgChanged := .host } else s
    match type with
    | .max =>
      let cfg ← addOrChangeGroup s.cfg mac arg4 arg5 .missing .missing
      return ({ s with cfg := cfg }, ⟨0, ""⟩)
    | .min =>
      let cfg ← addOrChangeGroup s.cfg mac .missing .missing arg4 arg5
      return ({ s with cfg := cfg }, ⟨0, ""⟩)
    | .both =>
      let cfg ← addOrChangeGroup s.cfg mac arg4 arg5 arg6 arg7
      return ({ s with cfg := cfg }, ⟨0, ""⟩)
    | .other => return ({ s with cfgChanged := .none }, ⟨1, "not supported limit type."⟩)
  | _, _ => .ok (s, ⟨1, "limit type + mac parameter lost."⟩)

def dispatch (s : Daemon) : Command → Except Exit (Daemon × Reply)
  | .on wan =>
    .ok ({ s with
      closeLayer1 := false, wanType := wan <|> s.wanType
      cfg := { s.cfg with enabled := true } }, ⟨0, ""⟩)
  | .off wan =>
    .ok ({ s with
      closeLayer1 := false, wanType := wan <|> s.wanType
      cfg := { s.cfg with enabled := false } }, ⟨0, ""⟩)
  | .shutdown => .ok ({ s with closeLayer1 := true }, ⟨0, ""⟩)
  | .changeBand up down => s.changeBand up down
  | .onGuest up down => s.onGuest up down
  | c =>
    if ¬ s.curEnabled then .ok (s, ⟨4, "qos disabled."⟩)
    else
      match c with
      | .limit activeSoon type mac arg4 arg5 arg6 arg7 =>
        s.limit activeSoon type mac arg4 arg5 arg6 arg7
      | .unlimit activeSoon mac =>
        .ok ({ s with
          cfgChanged := if activeSoon then .host else s.cfgChanged
          cfg := delGroup s.cfg mac }, ⟨0, ""⟩)
      | .setType type =>
        let qosType :=
          match type with
          | none => .auto
          | some .other => s.qosType
          | some t => t
        .ok ({ s with
          qosType := qosType, cfg := { s.cfg with qosType := qosType }, cfgChanged := .host },
          ⟨0, ""⟩)
      | .apply both => .ok ({ s with cfgChanged := if both then .all else .host }, ⟨0, ""⟩)
      | _ => .ok (s, ⟨2, "Not supported command."⟩)

end Daemon

/-! ## Runs -/

/-- What happens to the daemon. -/
inductive Action where
  | command (c : Command)
  | tick (ifb : Bool) (report : Report)

def Daemon.act (setup : Setup) (s : Daemon) : Action → Except Exit Daemon
  | .command c => Prod.fst <$> s.dispatch c
  | .tick ifb report => s.tick setup ifb report

def daemonSystem (setup : Setup) (cfg : Config) (wan : Option Wan) : System Daemon Action Exit where
  init := start cfg wan
  Allowed := fun _ _ => True
  step := Daemon.act setup

end Miqos
