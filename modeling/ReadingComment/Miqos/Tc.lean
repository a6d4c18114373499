import Mathlib.Data.Rat.Floor
import ReadingComment.Lib.Objects

/-!
# Traffic control rules of the QoS daemon (`code_mine/miqosd_std_htb.lua`)

The daemon keeps a tree of HTB classes on two devices. Below a fixed first layer each host has a
class of its own, with a leaf class for each kind of traffic, its filters and an SFQ queue. The
class ids of a host are made of the last octet of its IP address.

`tc` refuses to add what is there and to change or delete what is not. Rates are in kbit/s,
fractions where Lua has doubles. Burst sizes, the filters of the first layer and its SFQ details are
left out.
-/

namespace Miqos

open Lib List

/-- `UP` and `DOWN`, and with these the devices `eth0.2` and `ifb0`. -/
inductive Direction where
  | up
  | down
  deriving DecidableEq, Repr

/-- The rate, ceil and quantum of an HTB class. -/
structure ClassData where
  rate : ℚ
  ceil : ℚ
  quantum : ℚ
  deriving DecidableEq

/-- What `tc` manages on a device. -/
inductive TcObject where
  | root
  | cls (id : ℕ)
  | filter (prio handle : ℕ)
  /-- the queue below a class -/
  | leaf (id : ℕ)
  deriving DecidableEq, Repr

inductive TcData where
  | prio
  | htb
  | cls (data : ClassData)
  | filter (cls : ℕ)
  | sfq
  | tbf (rate : ℚ)
  deriving DecidableEq

/-- What `tc` has set up on a device. -/
abbrev Tc : Type := Objects TcObject TcData

/-- A command for `tc`. -/
abbrev TcCmd : Type := Cmd TcObject TcData

/-- `math.ceil(x)`. -/
def ceil (x : ℚ) : ℚ := (⌈x⌉ : ℤ)

/-- `g_quantum_value`. -/
def quantumValue : ℚ := 1600

/-! ## The first layer -/

/-- A class of the first layer: its share of rate and ceil, and its quantum. -/
structure Layer1 where
  id : ℕ
  rate : ℚ
  ceil : ℚ
  quan : ℚ

/-- The id of the parent of all hosts, `g_htb_layer1['host']['id']`. -/
def hostParent : ℕ := 0x3000

/-- `g_htb_layer1`, apart from `guest`; UP and DOWN have the same shares. -/
def htbLayer1 : List Layer1 :=
  [⟨0x2000, 3/10, 1, 4⟩, ⟨hostParent, 1/2, 105/100, 3⟩, ⟨0x5000, 5/100, 8/10, 1⟩]

/-- `g_htb_layer2_prio`. -/
def htbLayer2Prio : List Layer1 :=
  [⟨0x2001, 4/10, 1, 4⟩, ⟨0x2002, 3/10, 1, 3⟩, ⟨0x2003, 3/10, 1, 2⟩]

/-- `g_host_rate_factor`. -/
def hostRateFactor : ℚ := 8/10

/-- The limit of the guest network: nothing, a share of the bandwidth, or kbit/s. -/
def guestLimit (ratelimit guest : ℚ) : ℚ :=
  if guest < 1/100 then ratelimit
  else if guest ≤ 1 then ceil (ratelimit * guest)
  else ceil guest

def layer1Class (act : Act) (id : ℕ) (rate ceil quan : ℚ) : TcCmd :=
  ⟨act, .cls id, .cls ⟨if ceil < rate then ceil else rate, ceil,
    Miqos.ceil (quantumValue * quan)⟩⟩

/-- `tc_fixed_layer1_htb_root_qdisc_class_filters`: with `add` also the root. -/
def layer1HtbCmds (act : Act) (ratelimit guest : ℚ) : List TcCmd :=
  (if act = .add then [⟨act, .root, .htb⟩] else []) ++
  [⟨act, .cls 0x1000, .cls ⟨ratelimit, ratelimit, ceil (quantumValue * 5)⟩⟩] ++
  htbLayer1.map (fun v => layer1Class act v.id (ceil (ratelimit * v.rate * hostRateFactor))
    (ceil (ratelimit * v.ceil)) v.quan) ++
  [layer1Class act 0x4000 (ceil (ratelimit * (2/10) * hostRateFactor)) (guestLimit ratelimit guest)
    2] ++
  htbLayer2Prio.map fun v =>
    ⟨act, .cls v.id, .cls ⟨ceil (ratelimit * (3/10) * v.rate * hostRateFactor),
      ceil (ratelimit * 1 * v.ceil), ceil (quantumValue * v.quan)⟩⟩

/-- `tc_fixed_layer1_prio_root_qdisc_class_filters`: with `add` also the root. -/
def layer1PrioCmds (add : Bool) (ratelimit guest : ℚ) : List TcCmd :=
  (if add then [⟨.add, .root, .prio⟩] else []) ++
  [⟨.replace, .leaf 4, .tbf (guestLimit ratelimit guest)⟩,
    ⟨.replace, .leaf 5, .tbf (ceil (ratelimit * (8/10)))⟩]

def fixedClasses : List ℕ := [0x1000, 0x2000, hostParent, 0x5000, 0x4000, 0x2001, 0x2002, 0x2003]

/-! ## Hosts -/

/-- The class of a host. -/
def hostClass (id : ℕ) : ℕ := hostParent + id * 0x10

/-- A kind of traffic, `g_htb_layer2_host[m]`. -/
structure HostLeaf where
  rate : ℚ
  ceil : ℚ

/-- `g_htb_layer2_host`. -/
def htbLayer2Host : List HostLeaf :=
  [⟨2/10, 95/100⟩, ⟨2/10, 95/100⟩, ⟨4/10, 95/100⟩, ⟨1/10, 95/100⟩, ⟨2/10, 95/100⟩]

/-- How many kinds of traffic the only mode has, `#(host_mode['subclass'])`. -/
structure Kinds where
  count : ℕ
  pos : 0 < count
  le : count ≤ 5

/-- The commands for the kind of traffic `m` of a host. -/
def leafCmds (act : Act) (id m : ℕ) (v : HostLeaf) (rate ceil quantum : ℚ) : List TcCmd :=
  let cls : TcCmd := ⟨act, .cls (hostClass id + m),
    .cls ⟨Miqos.ceil (rate * v.rate), Miqos.ceil (ceil * v.ceil), quantum⟩⟩
  -- filters and queues do not change
  if act = .change then [cls]
  else [cls, ⟨act, .filter 8 (id * 0x10 + m), .filter (hostClass id + m)⟩,
    ⟨act, .leaf (hostClass id + m), .sfq⟩]

/-- The commands of `tc_update_layer2_hosts_qdisc_class_filter`. What is added is added from the
root on; what is changed or deleted is put in front of the list each time. -/
def hostCmds (kinds : Kinds) (act : Act) (id : ℕ) (rate ceil quantum : ℚ) : List TcCmd :=
  let root : TcCmd := ⟨act, .cls (hostClass id), .cls ⟨rate, ceil, quantum⟩⟩
  let leaves := ((htbLayer2Host.take kinds.count).zipIdx 1).flatMap fun v =>
    leafCmds act id v.2 v.1 rate ceil quantum
  let rest : List TcCmd :=
    if act = .change then []
    else [⟨act, .filter 9 (id * 0x10), .filter (hostClass id + kinds.count)⟩]
  let cmds := root :: (leaves ++ rest)
  if act = .add then cmds else cmds.reverse

/-- How the daemon can end. -/
inductive Exit where
  /-- a command was refused: `system_exit` -/
  | tc
  /-- an error of Lua, which ends the main loop -/
  | lua
  deriving DecidableEq, Repr

/-- `tc_update_layer2_hosts_qdisc_class_filter`; the result says whether it could be done. -/
def updateHost (kinds : Kinds) (act : Act) (id : ℕ) (data : ClassData) (t : Tc) :
    Except Exit (Tc × Bool) :=
  -- only support [1,255)
  if id < 1 ∨ 255 ≤ id then .ok (t, false)
  else
    match runAll (hostCmds kinds act id data.rate data.ceil data.quantum) t with
    | none => .error .tc
    | some t => .ok (t, true)

/-! ## The objects of a host -/

/-- What is set up for a host. -/
def HostObject (kinds : Kinds) (id : ℕ) : TcObject → Prop
  | .root => False
  | .cls c => ∃ m ≤ kinds.count, c = hostClass id + m
  | .filter p h =>
    (p = 8 ∧ ∃ m, 0 < m ∧ m ≤ kinds.count ∧ h = id * 0x10 + m) ∨ (p = 9 ∧ h = id * 0x10)
  | .leaf c => ∃ m, 0 < m ∧ m ≤ kinds.count ∧ c = hostClass id + m

/-- What is set up for all hosts. -/
def Fixed (o : TcObject) : Prop := o = .root ∨ ∃ id ∈ fixedClasses, o = .cls id

def ValidId (id : ℕ) : Prop := 1 ≤ id ∧ id < 255

variable {kinds : Kinds} {id id' : ℕ} {o : TcObject}

theorem HostObject.unique (h : HostObject kinds id o) (h' : HostObject kinds id' o) : id = id' := by
  have hle := kinds.le
  cases o with
  | root => exact h.elim
  | cls c =>
    obtain ⟨m, hm, rfl⟩ := h
    obtain ⟨m', hm', heq⟩ := h'
    simp only [hostClass] at heq
    omega
  | filter p handle =>
    rcases h with ⟨rfl, m, hpos, hm, rfl⟩ | ⟨rfl, rfl⟩
    · rcases h' with ⟨-, m', hpos', hm', heq⟩ | ⟨hp, -⟩
      · omega
      · cases hp
    · rcases h' with ⟨hp, -⟩ | ⟨-, heq⟩
      · cases hp
      · omega
  | leaf c =>
    obtain ⟨m, hpos, hm, rfl⟩ := h
    obtain ⟨m', hpos', hm', heq⟩ := h'
    simp only [hostClass] at heq
    omega

theorem HostObject.not_fixed (h : HostObject kinds id o) (hid : ValidId id) : ¬ Fixed o := by
  have hle := kinds.le
  obtain ⟨hge, hlt⟩ := hid
  rintro (rfl | ⟨c, hc, rfl⟩)
  · exact h
  · obtain ⟨m, hm, heq⟩ := h
    simp only [hostClass, hostParent, fixedClasses, mem_cons, not_mem_nil, or_false] at *
    omega

/-- What the commands for a host are about. -/
structure HostScript (kinds : Kinds) (act : Act) (id : ℕ) (data : ClassData)
    (cmds : List TcCmd) : Prop where
  act_eq : ∀ c ∈ cmds, c.act = act
  nodup : (cmds.map Cmd.obj).Nodup
  host : ∀ c ∈ cmds, HostObject kinds id c.obj
  all : act ≠ .change → ∀ o, HostObject kinds id o → ∃ c ∈ cmds, c.obj = o
  root : ⟨act, .cls (hostClass id), .cls data⟩ ∈ cmds

theorem HostScript.reverse {act : Act} {data : ClassData} {cmds : List TcCmd}
    (h : HostScript kinds act id data cmds) : HostScript kinds act id data cmds.reverse where
  act_eq c hc := h.act_eq c (mem_reverse.mp hc)
  nodup := by
    rw [map_reverse, nodup_reverse]
    exact h.nodup
  host c hc := h.host c (mem_reverse.mp hc)
  all hact o ho := by
    obtain ⟨c, hc, hobj⟩ := h.all hact o ho
    exact ⟨c, mem_reverse.mpr hc, hobj⟩
  root := mem_reverse.mpr h.root

/-- The objects for the kind of traffic `m`. -/
def LeafObject (id m : ℕ) (o : TcObject) : Prop :=
  o = .cls (hostClass id + m) ∨ o = .filter 8 (id * 0x10 + m) ∨ o = .leaf (hostClass id + m)

theorem LeafObject.unique {m m' : ℕ} (h : LeafObject id m o) (h' : LeafObject id m' o) :
    m = m' := by
  rcases h with rfl | rfl | rfl
  · rcases h' with heq | heq | heq
    · exact Nat.add_left_cancel (TcObject.cls.inj heq)
    · cases heq
    · cases heq
  · rcases h' with heq | heq | heq
    · cases heq
    · exact Nat.add_left_cancel (TcObject.filter.inj heq).2
    · cases heq
  · rcases h' with heq | heq | heq
    · cases heq
    · cases heq
    · exact Nat.add_left_cancel (TcObject.leaf.inj heq)

section Leaves

variable {act : Act} {m : ℕ} {v : HostLeaf} {rate ceil quantum : ℚ}

theorem leafCmds_mem {c : TcCmd} (h : c ∈ leafCmds act id m v rate ceil quantum) :
    c.act = act ∧ LeafObject id m c.obj := by
  rw [leafCmds] at h
  split at h
  · obtain rfl := mem_singleton.mp h
    exact ⟨rfl, .inl rfl⟩
  · simp only [mem_cons, not_mem_nil, or_false] at h
    rcases h with rfl | rfl | rfl
    · exact ⟨rfl, .inl rfl⟩
    · exact ⟨rfl, .inr (.inl rfl)⟩
    · exact ⟨rfl, .inr (.inr rfl)⟩

theorem leafCmds_all (hact : act ≠ .change) (h : LeafObject id m o) :
    ∃ c ∈ leafCmds act id m v rate ceil quantum, c.obj = o := by
  rw [leafCmds]
  simp only [if_neg hact]
  rcases h with rfl | rfl | rfl
  · exact ⟨_, mem_cons_self .., rfl⟩
  · exact ⟨_, mem_cons_of_mem _ (mem_cons_self ..), rfl⟩
  · exact ⟨_, mem_cons_of_mem _ (mem_cons_of_mem _ (mem_cons_self ..)), rfl⟩

theorem leafCmds_nodup : ((leafCmds act id m v rate ceil quantum).map Cmd.obj).Nodup := by
  rw [leafCmds]
  split
  · exact nodup_singleton _
  · simp only [map_cons, map_nil, nodup_cons, mem_cons, not_mem_nil,
      reduceCtorEq, not_false_eq_true, nodup_nil, or_self, and_self]

/-- The commands for several kinds of traffic. -/
structure LeavesScript (act : Act) (id m n : ℕ) (cmds : List TcCmd) : Prop where
  mem : ∀ c ∈ cmds, c.act = act ∧ ∃ k, m ≤ k ∧ k < m + n ∧ LeafObject id k c.obj
  nodup : (cmds.map Cmd.obj).Nodup
  all : act ≠ .change → ∀ k, m ≤ k → k < m + n → ∀ o, LeafObject id k o → ∃ c ∈ cmds, c.obj = o

theorem leaves_script (l : List HostLeaf) (m : ℕ) :
    LeavesScript act id m l.length
      ((l.zipIdx m).flatMap fun v => leafCmds act id v.2 v.1 rate ceil quantum) := by
  induction l generalizing m with
  | nil => exact ⟨nofun, nodup_nil, fun _ k hge hlt => by simp only [length_nil] at hlt; omega⟩
  | cons v l ih =>
    obtain ⟨hmem, hnodup, hall⟩ := ih (m + 1)
    rw [zipIdx_cons, flatMap_cons]
    refine ⟨?_, ?_, ?_⟩
    · intro c hc
      rcases mem_append.mp hc with hc | hc
      · obtain ⟨hact, hleaf⟩ := leafCmds_mem hc
        exact ⟨hact, m, Nat.le_refl m, by rw [length_cons]; omega, hleaf⟩
      · obtain ⟨hact, k, hge, hlt, hleaf⟩ := hmem c hc
        exact ⟨hact, k, by omega, by rw [length_cons]; omega, hleaf⟩
    · rw [map_append, nodup_append]
      refine ⟨leafCmds_nodup, hnodup, ?_⟩
      intro o ho o' ho' heq
      obtain ⟨c, hc, rfl⟩ := mem_map.mp ho
      obtain ⟨c', hc', rfl⟩ := mem_map.mp ho'
      obtain ⟨-, hleaf⟩ := leafCmds_mem hc
      obtain ⟨-, k, hge, -, hleaf'⟩ := hmem c' hc'
      have hk := hleaf.unique (heq ▸ hleaf')
      omega
    · intro hact k hge hlt o ho
      rcases Nat.eq_or_lt_of_le hge with rfl | hgt
      · obtain ⟨c, hc, hobj⟩ := leafCmds_all hact ho
        exact ⟨c, mem_append_left _ hc, hobj⟩
      · obtain ⟨c, hc, hobj⟩ := hall hact k hgt (by rw [length_cons] at hlt; omega) o ho
        exact ⟨c, mem_append_right _ hc, hobj⟩

end Leaves

theorem LeafObject.host {m : ℕ} (h : LeafObject id m o) (hpos : 0 < m) (hle : m ≤ kinds.count) :
    HostObject kinds id o := by
  rcases h with rfl | rfl | rfl
  · exact ⟨m, hle, rfl⟩
  · exact .inl ⟨rfl, m, hpos, hle, rfl⟩
  · exact ⟨m, hpos, hle, rfl⟩

theorem HostObject.cases (h : HostObject kinds id o) :
    o = .cls (hostClass id) ∨ o = .filter 9 (id * 0x10) ∨
      ∃ m, 0 < m ∧ m ≤ kinds.count ∧ LeafObject id m o := by
  cases o with
  | root => exact h.elim
  | cls c =>
    obtain ⟨m, hle, rfl⟩ := h
    rcases Nat.eq_zero_or_pos m with rfl | hpos
    · exact .inl rfl
    · exact .inr (.inr ⟨m, hpos, hle, .inl rfl⟩)
  | filter p handle =>
    rcases h with ⟨rfl, m, hpos, hle, rfl⟩ | ⟨rfl, rfl⟩
    · exact .inr (.inr ⟨m, hpos, hle, .inr (.inl rfl)⟩)
    · exact .inr (.inl rfl)
  | leaf c =>
    obtain ⟨m, hpos, hle, rfl⟩ := h
    exact .inr (.inr ⟨m, hpos, hle, .inr (.inr rfl)⟩)

theorem hostCmds_script (kinds : Kinds) (act : Act) (id : ℕ) (rate ceil quantum : ℚ) :
    HostScript kinds act id ⟨rate, ceil, quantum⟩ (hostCmds kinds act id rate ceil quantum) := by
  have hlen : (htbLayer2Host.take kinds.count).length = kinds.count := by
    rw [length_take]
    exact Nat.min_eq_left kinds.le
  obtain ⟨hmem, hnodup, hall⟩ :=
    @leaves_script id act rate ceil quantum (htbLayer2Host.take kinds.count) 1
  rw [hlen] at hmem hall
  generalize hleaves : ((htbLayer2Host.take kinds.count).zipIdx 1).flatMap
    (fun v => leafCmds act id v.2 v.1 rate ceil quantum) = leaves at hmem hnodup hall
  -- the last filter, which does not change
  obtain ⟨rest, hrest, hrestNodup, hrestMem, hrestAll⟩ : ∃ rest : List TcCmd,
      rest = (if act = .change then []
        else [⟨act, .filter 9 (id * 0x10), .filter (hostClass id + kinds.count)⟩]) ∧
      (rest.map Cmd.obj).Nodup ∧
      (∀ c ∈ rest, c.act = act ∧ c.obj = .filter 9 (id * 0x10)) ∧
      (act ≠ .change → ∃ c ∈ rest, c.obj = .filter 9 (id * 0x10)) := by
    refine ⟨_, rfl, ?_⟩
    split
    · rename_i hact
      exact ⟨nodup_nil, nofun, fun hne => absurd hact hne⟩
    · refine ⟨nodup_singleton _, ?_, fun _ => ⟨_, mem_singleton_self _, rfl⟩⟩
      intro c hc
      obtain rfl := mem_singleton.mp hc
      exact ⟨rfl, rfl⟩
  have hscript : HostScript kinds act id ⟨rate, ceil, quantum⟩
      (⟨act, .cls (hostClass id), .cls ⟨rate, ceil, quantum⟩⟩ :: (leaves ++ rest)) := by
    refine ⟨?_, ?_, ?_, ?_, mem_cons_self ..⟩
    · intro c hc
      rcases mem_cons.mp hc with rfl | hc
      · rfl
      · rcases mem_append.mp hc with hc | hc
        · exact (hmem c hc).1
        · exact (hrestMem c hc).1
    · rw [map_cons, nodup_cons, map_append, nodup_append]
      refine ⟨?_, hnodup, hrestNodup, ?_⟩
      · intro hroot
        rcases mem_append.mp hroot with hroot | hroot
        · obtain ⟨c, hc, hobj⟩ := mem_map.mp hroot
          obtain ⟨-, k, hpos, -, hleaf⟩ := hmem c hc
          rw [hobj] at hleaf
          rcases hleaf with heq | heq | heq
          · have hk := TcObject.cls.inj heq
            omega
          · cases heq
          · cases heq
        · obtain ⟨c, hc, hobj⟩ := mem_map.mp hroot
          cases hobj.symm.trans (hrestMem c hc).2
      · intro o ho o' ho' heq
        obtain ⟨c, hc, rfl⟩ := mem_map.mp ho
        obtain ⟨c', hc', rfl⟩ := mem_map.mp ho'
        obtain ⟨-, k, -, -, hleaf⟩ := hmem c hc
        rw [heq, (hrestMem c' hc').2] at hleaf
        rcases hleaf with heq | heq | heq <;> cases heq
    · intro c hc
      rcases mem_cons.mp hc with rfl | hc
      · exact ⟨0, Nat.zero_le _, rfl⟩
      · rcases mem_append.mp hc with hc | hc
        · obtain ⟨-, k, hpos, hlt, hleaf⟩ := hmem c hc
          exact hleaf.host hpos (by omega)
        · rw [(hrestMem c hc).2]
          exact .inr ⟨rfl, rfl⟩
    · intro hact o ho
      rcases ho.cases with rfl | rfl | ⟨m, hpos, hle, hleaf⟩
      · exact ⟨_, mem_cons_self .., rfl⟩
      · obtain ⟨c, hc, hobj⟩ := hrestAll hact
        exact ⟨c, mem_cons_of_mem _ (mem_append_right _ hc), hobj⟩
      · obtain ⟨c, hc, hobj⟩ := hall hact m hpos (by omega) o hleaf
        exact ⟨c, mem_cons_of_mem _ (mem_append_left _ hc), hobj⟩
  rw [hostCmds, hleaves]
  simp only [← hrest]
  split
  · exact hscript
  · exact hscript.reverse

/-! ## What is there -/

def Holds (kinds : Kinds) (t : Tc) (ids : Set ℕ) : Prop :=
  ∀ o, (t o).isSome ↔ Fixed o ∨ ∃ id ∈ ids, HostObject kinds id o

variable {t : Tc} {ids : Set ℕ} {data : ClassData}

theorem updateHost_run {act : Act} {t' : Tc} (hid : ValidId id)
    (h : runAll (hostCmds kinds act id data.rate data.ceil data.quantum) t = some t') :
    updateHost kinds act id data t = .ok (t', true) := by
  have hnot : ¬ (id < 1 ∨ 255 ≤ id) := by
    obtain ⟨hge, hlt⟩ := hid
    omega
  rw [updateHost, if_neg hnot, h]

theorem hostClass_frame {act : Act} {f : TcCmd → Option TcData} {t' : Tc}
    (hs : HostScript kinds act id data (hostCmds kinds act id data.rate data.ceil data.quantum))
    (h : Sets (hostCmds kinds act id data.rate data.ceil data.quantum) f t t') (hne : id' ≠ id) :
    t' (.cls (hostClass id')) = t (.cls (hostClass id')) := by
  apply h.2
  intro c hc heq
  have hroot : HostObject kinds id' c.obj := heq ▸ ⟨0, Nat.zero_le _, rfl⟩
  exact hne (hroot.unique (hs.host c hc))

theorem isSome_of_sets {act : Act} {t' : Tc}
    (h : Sets (hostCmds kinds act id data.rate data.ceil data.quantum) (fun c => some c.data) t t')
    (o : TcObject) :
    (t' o).isSome ↔ (∃ c ∈ hostCmds kinds act id data.rate data.ceil data.quantum, c.obj = o) ∨
      (t o).isSome := by
  rcases Classical.em (∃ c ∈ hostCmds kinds act id data.rate data.ceil data.quantum, c.obj = o) with
    hmem | hmem
  · obtain ⟨c, hc, rfl⟩ := hmem
    rw [h.1 c hc]
    exact iff_of_true rfl (.inl ⟨c, hc, rfl⟩)
  · rw [h.2 o fun c hc heq => hmem ⟨c, hc, heq⟩]
    exact (or_iff_right hmem).symm

section

variable (h : Holds kinds t ids) (hid : ValidId id)

include h hid

/-- **Adding a host** that is not there. -/
theorem updateHost_add (hnew : id ∉ ids) :
    ∃ t', updateHost kinds .add id data t = .ok (t', true) ∧ Holds kinds t' (insert id ids) ∧
      t' (.cls (hostClass id)) = some (.cls data) ∧
      ∀ id' ≠ id, t' (.cls (hostClass id')) = t (.cls (hostClass id')) := by
  have hs := hostCmds_script kinds .add id data.rate data.ceil data.quantum
  have habsent : ∀ o, HostObject kinds id o → t o = none := by
    intro o ho
    by_contra hne
    rcases (h o).mp (Option.isSome_iff_ne_none.mpr hne) with hfixed | ⟨id', hid', ho'⟩
    · exact ho.not_fixed hid hfixed
    · exact hnew (ho.unique ho' ▸ hid')
  obtain ⟨t', hrun, hsets⟩ := runAll_add hs.nodup hs.act_eq fun c hc => habsent _ (hs.host c hc)
  refine ⟨t', updateHost_run hid hrun, ?_, hsets.1 _ hs.root, fun id' hne =>
    hostClass_frame hs hsets hne⟩
  intro o
  rw [isSome_of_sets hsets, h o, or_left_comm]
  refine or_congr_right ?_
  constructor
  · rintro (⟨c, hc, rfl⟩ | ⟨id', hid', ho⟩)
    · exact ⟨id, .inl rfl, hs.host c hc⟩
    · exact ⟨id', .inr hid', ho⟩
  · rintro ⟨id', rfl | hid', ho⟩
    · exact .inl (hs.all nofun o ho)
    · exact .inr ⟨id', hid', ho⟩

/-- **Changing a host** that is there. -/
theorem updateHost_change (hmem : id ∈ ids) :
    ∃ t', updateHost kinds .change id data t = .ok (t', true) ∧ Holds kinds t' ids ∧
      t' (.cls (hostClass id)) = some (.cls data) ∧
      ∀ id' ≠ id, t' (.cls (hostClass id')) = t (.cls (hostClass id')) := by
  have hs := hostCmds_script kinds .change id data.rate data.ceil data.quantum
  have hpresent : ∀ o, HostObject kinds id o → (t o).isSome :=
    fun o ho => (h o).mpr (.inr ⟨id, hmem, ho⟩)
  obtain ⟨t', hrun, hsets⟩ := runAll_change hs.nodup hs.act_eq fun c hc => hpresent _ (hs.host c hc)
  refine ⟨t', updateHost_run hid hrun, ?_, hsets.1 _ hs.root, fun id' hne =>
    hostClass_frame hs hsets hne⟩
  intro o
  rw [isSome_of_sets hsets, ← h o]
  refine or_iff_right_of_imp ?_
  rintro ⟨c, hc, rfl⟩
  exact hpresent _ (hs.host c hc)

/-- **Deleting a host** that is there. -/
theorem updateHost_del (hmem : id ∈ ids) :
    ∃ t', updateHost kinds .del id data t = .ok (t', true) ∧ Holds kinds t' (ids \ {id}) ∧
      ∀ id' ≠ id, t' (.cls (hostClass id')) = t (.cls (hostClass id')) := by
  have hs := hostCmds_script kinds .del id data.rate data.ceil data.quantum
  have hpresent : ∀ o, HostObject kinds id o → (t o).isSome :=
    fun o ho => (h o).mpr (.inr ⟨id, hmem, ho⟩)
  obtain ⟨t', hrun, hsets⟩ := runAll_del hs.nodup hs.act_eq fun c hc => hpresent _ (hs.host c hc)
  refine ⟨t', updateHost_run hid hrun, ?_, fun id' hne => hostClass_frame hs hsets hne⟩
  intro o
  rcases Classical.em (HostObject kinds id o) with ho | ho
  · obtain ⟨c, hc, rfl⟩ := hs.all nofun o ho
    rw [hsets.1 c hc]
    refine iff_of_false nofun ?_
    rintro (hfixed | ⟨id', hid', ho'⟩)
    · exact ho.not_fixed hid hfixed
    · exact hid'.2 (ho'.unique ho)
  · rw [hsets.2 o fun c hc heq => ho (heq ▸ hs.host c hc), h o]
    refine or_congr_right ?_
    constructor
    · rintro ⟨id', hid', ho'⟩
      refine ⟨id', ⟨hid', ?_⟩, ho'⟩
      rintro rfl
      exact ho ho'
    · rintro ⟨id', hid', ho'⟩
      exact ⟨id', hid'.1, ho'⟩

end

end Miqos
