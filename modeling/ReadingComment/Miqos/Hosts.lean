import Mathlib.Data.List.Infix
import ReadingComment.Lib.Assoc
import ReadingComment.Miqos.Tc

/-!
# Host lists

`trafficd` reports the devices in the network with the IP addresses of each. The daemon
keeps two tables of hosts by IP: the one whose classes are installed, and the one
that is to be installed next; comparing them gives each host of the latter its state.

A MAC address is the list of its characters and an IP address the list of its numbers,
as `string.split(ip, '.')` has them. The loops go through a table in the order of its
list; Lua does not say what the order is. What nothing reads (`idle` of a host, the
number of clients) is left out.
-/

namespace Miqos

open Lib List

abbrev Mac : Type := List Char

abbrev Ip : Type := List ℕ

/-! ## Reports -/

structure IpRecord where
  ip : Ip
  ageingTimer : ℕ

structure DeviceReport where
  hw : Mac
  ifname : List Char
  assoc : ℕ
  ipList : List IpRecord

/-- The answer of `trafficd` to `hw`. -/
abbrev Report : Type := List DeviceReport

inductive Wifi where
  | wired
  | host
  | guest
  deriving DecidableEq, Repr

def wifi (ifname : List Char) : Wifi :=
  if ifname = ['w', 'l', '0'] ∨ ifname = ['w', 'l', '1'] then .host
  else if ['w', 'l'] <:+: ifname then .guest
  else .wired

/-- `g_idle_timeout`. -/
def idleTimeout : ℕ := 301

/-- `valid_ip`. -/
def validIp (d : DeviceReport) (r : IpRecord) : Bool :=
  match wifi d.ifname with
  | .host => d.assoc = 1 ∧ r.ageingTimer < idleTimeout
  | .wired => r.ageingTimer < idleTimeout
  | .guest => false

/-- `nid`, the last octet of an IP address. -/
def nid (ip : Ip) : Option ℕ := ip[3]?

def records (report : Report) : List (DeviceReport × IpRecord) :=
  report.flatMap fun d => d.ipList.map (d, ·)

/-- The report has a record of the address that is counted. -/
def Alive (report : Report) (ip : Ip) : Prop :=
  ∃ x ∈ records report, validIp x.1 x.2 = true ∧ x.2.ip = ip ∧ (nid ip).isSome

/-! ## Tables of hosts -/

inductive HostState where
  | new
  | upd
  | del
  | none
  deriving DecidableEq, Repr

structure HostEntry where
  mac : Mac
  st : HostState
  id : ℕ
  deriving DecidableEq, Repr

abbrev IpMap : Type := AList fun _ : Ip => HostEntry

/-- The addresses of the hosts that are alive, `g_alive_hosts`. -/
abbrev AliveHosts : Type := AList fun _ : Mac => List Ip

structure HostLists where
  nxt : IpMap
  alive : AliveHosts

/-- `g_alive_hosts[mac][ip] = 1`. -/
def addAlive (alive : AliveHosts) (mac : Mac) (ip : Ip) : AliveHosts :=
  alive.insert mac (((alive.lookup mac).getD []).insert ip)

/-- The loop body of `update_host_list_compact`. -/
def addHost (l : HostLists) (x : DeviceReport × IpRecord) : HostLists :=
  match nid x.2.ip with
  | none => l
  | some id =>
    if validIp x.1 x.2 then
      { nxt := l.nxt.insert x.2.ip ⟨x.1.hw, .new, id⟩, alive := addAlive l.alive x.1.hw x.2.ip }
    else l

/-- `update_host_list_compact()`. -/
def updateHostListCompact (report : Report) (alive : AliveHosts) : HostLists :=
  (records report).foldl addHost ⟨∅, alive⟩

/-- The state of a host of the next list. -/
def nxtState (crt : Option IpMap) (ip : Ip) (e : HostEntry) : HostEntry :=
  if ((crt.bind (·.lookup ip)).isSome) then { e with st := .upd } else e

/-- The state of a host of the current list. -/
def crtState (nxt : IpMap) (ip : Ip) (e : HostEntry) : HostEntry :=
  { e with st := if ip ∈ nxt then .none else .del }

/-- The hosts that are alive differ from those that are installed, or from their devices. -/
def hostChanged (nxt : IpMap) (crt : Option IpMap) : Bool :=
  nxt.entries.any (fun x =>
    match crt.bind (·.lookup x.1) with
    | some e => decide (e.mac ≠ x.2.mac)
    | none => true) ||
  ((crt.map (·.entries)).getD []).any fun x => decide (x.1 ∉ nxt)

/-- `update_host_list()`: the lists, the table of the installed hosts, and whether hosts changed. -/
def updateHostList (report : Report) (crt : Option IpMap) : HostLists × Option IpMap × Bool :=
  let l := updateHostListCompact report ∅
  ({ l with nxt := mapVals (nxtState crt) l.nxt }, crt.map (mapVals (crtState l.nxt)),
    hostChanged l.nxt crt)

/-! ## What the lists hold -/

/-- The table has the addresses that were alive so far, each with its last octet and with a device
that is alive. -/
structure Listed (l : HostLists) (seen : List (DeviceReport × IpRecord)) : Prop where
  mem : ∀ ip, ip ∈ l.nxt ↔ ∃ x ∈ seen, validIp x.1 x.2 = true ∧ x.2.ip = ip ∧ (nid ip).isSome
  id : ∀ ip e, ⟨ip, e⟩ ∈ l.nxt.entries → nid ip = some e.id
  new : ∀ ip e, ⟨ip, e⟩ ∈ l.nxt.entries → e.st = .new
  alive : ∀ ip e, ⟨ip, e⟩ ∈ l.nxt.entries → e.mac ∈ l.alive

theorem Listed.add {l : HostLists} {seen : List (DeviceReport × IpRecord)} (h : Listed l seen)
    (x : DeviceReport × IpRecord) : Listed (addHost l x) (seen ++ [x]) := by
  -- what is added when `x` is skipped, and when it is not
  have hskip : (∀ ip, x.2.ip = ip → validIp x.1 x.2 = true → (nid ip).isSome → False) →
      Listed l (seen ++ [x]) := by
    intro hno
    refine ⟨fun ip => ?_, h.id, h.new, h.alive⟩
    rw [h.mem ip]
    constructor
    · rintro ⟨y, hy, hrest⟩
      exact ⟨y, mem_append_left _ hy, hrest⟩
    · rintro ⟨y, hy, hvalid, hip, hid⟩
      rcases mem_append.mp hy with hy | hy
      · exact ⟨y, hy, hvalid, hip, hid⟩
      · obtain rfl := mem_singleton.mp hy
        exact (hno ip hip hvalid hid).elim
  rw [addHost]
  cases hnid : nid x.2.ip with
  | none =>
    apply hskip
    rintro _ rfl - hid
    rw [hnid] at hid
    cases hid
  | some id =>
    simp only
    split
    · rename_i hvalid
      -- an entry is the new one or an old one
      have hentry : ∀ ip e, ⟨ip, e⟩ ∈ (l.nxt.insert x.2.ip ⟨x.1.hw, .new, id⟩).entries →
          (ip = x.2.ip ∧ e = ⟨x.1.hw, .new, id⟩) ∨ ⟨ip, e⟩ ∈ l.nxt.entries := by
        intro ip e hmem
        rw [mem_entries_iff] at hmem
        rcases eq_or_ne ip x.2.ip with rfl | hne
        · rw [AList.lookup_insert] at hmem
          exact .inl ⟨rfl, (Option.some.inj hmem).symm⟩
        · rw [AList.lookup_insert_ne hne] at hmem
          exact .inr (mem_entries_iff.mpr hmem)
      refine ⟨fun ip => ?_, ?_, ?_, ?_⟩
      · rw [AList.mem_insert, h.mem ip]
        constructor
        · rintro (rfl | ⟨y, hy, hrest⟩)
          · refine ⟨x, mem_append_right _ (mem_singleton_self x), hvalid, rfl, ?_⟩
            rw [hnid]
            rfl
          · exact ⟨y, mem_append_left _ hy, hrest⟩
        · rintro ⟨y, hy, hvalid', hip, hid⟩
          rcases mem_append.mp hy with hy | hy
          · exact .inr ⟨y, hy, hvalid', hip, hid⟩
          · obtain rfl := mem_singleton.mp hy
            exact .inl hip.symm
      · intro ip e hmem
        rcases hentry ip e hmem with ⟨rfl, rfl⟩ | hold
        · exact hnid
        · exact h.id ip e hold
      · intro ip e hmem
        rcases hentry ip e hmem with ⟨rfl, rfl⟩ | hold
        · rfl
        · exact h.new ip e hold
      · intro ip e hmem
        rw [addAlive, AList.mem_insert]
        rcases hentry ip e hmem with ⟨rfl, rfl⟩ | hold
        · exact .inl rfl
        · exact .inr (h.alive ip e hold)
    · rename_i hvalid
      exact hskip fun ip _ hvalid' _ => hvalid hvalid'

theorem foldl_listed {l : HostLists} {seen : List (DeviceReport × IpRecord)} (h : Listed l seen)
    (xs : List (DeviceReport × IpRecord)) : Listed (xs.foldl addHost l) (seen ++ xs) := by
  induction xs generalizing l seen with
  | nil =>
    rw [append_nil]
    exact h
  | cons x xs ih =>
    have hnext := ih (h.add x)
    rw [append_assoc, singleton_append] at hnext
    exact hnext

/-- **The hosts that are alive.** -/
theorem updateHostListCompact_listed (report : Report) (alive : AliveHosts) :
    Listed (updateHostListCompact report alive) (records report) := by
  have hempty : Listed ⟨∅, alive⟩ [] := by
    refine ⟨fun ip => ?_, nofun, nofun, nofun⟩
    refine iff_of_false (AList.notMem_empty ip) ?_
    rintro ⟨x, hx, -⟩
    cases hx
  exact foldl_listed hempty (records report)

end Miqos
