import Mathlib.Tactic.SplitIfs
import ReadingComment.Lib.Run

/-!
# Indexes into the stack of variables (`userspace/kp_parse.c`)

The parser keeps variables, gotos and labels on one stack, and functions refer to its entries by
`VarIndex`, a `uint16_t`. The indexes from `KP_MAX_VSTACK` on stand for upvalues of the parent.

What the entries hold is left out: which variable a name is found to be is part of the action.
Beside an index the model keeps the one that is meant; no step reads it.
-/

namespace Ktap.VarStack

open List

abbrev VarIndex : Type := BitVec 16

/-- `KP_MAX_LOCVAR` -/
def kpMaxLocvar : ℕ := 200

/-- `KP_MAX_UPVAL` -/
def kpMaxUpval : ℕ := 60

/-- `KP_MAX_VSTACK` -/
def kpMaxVstack : ℕ := 65536 - kpMaxUpval

/-- A stored index, and the entry that is meant. -/
structure Stored where
  word : VarIndex
  vidx : ℕ

/-- What an upvalue of a function is in its parent: an upvalue, or a variable. -/
inductive Source where
  | upval (n : ℕ)
  | var (vidx : ℕ)

/-- How `fs_fixup_uv2` reads an entry of `uvtmp`. -/
def fsFixupUv2 (vidx : VarIndex) : Source :=
  if kpMaxVstack ≤ vidx.toNat then .upval (vidx.toNat - kpMaxVstack) else .var vidx.toNat

/-- The entries of `uvmap` and `uvtmp` for one upvalue, and what it is. -/
structure Upval where
  uvmap : Stored
  uvtmp : VarIndex
  source : Source

/-- `FuncState`; a register of `varmap` that was not written yet is `none`, and `nuv` is the length
of `uv`. -/
structure FuncState where
  vbase : ℕ
  nactvar : ℕ
  varmap : ℕ → Option Stored
  uv : List Upval

/-- `LexState`: the function that is being parsed and those around it. -/
structure LexState where
  vtop : ℕ
  sizevstack : ℕ
  fs : FuncState
  prev : List FuncState

inductive Err where
  /-- `KP_ERR_XLIMC` -/
  | xlimc
  /-- `err_limit` -/
  | limit (l : ℕ)
  /-- a register that was not written is read, or the main function ends -/
  | wild

/-- An entry on top of the stack, which doubles when it is full. -/
def push (ls : LexState) : Except Err LexState :=
  if ls.sizevstack ≤ ls.vtop then
    if kpMaxVstack ≤ ls.sizevstack then .error .xlimc
    else .ok { ls with
      vtop := ls.vtop + 1
      sizevstack := if ls.sizevstack = 0 then 20 else ls.sizevstack * 2 }
  else .ok { ls with vtop := ls.vtop + 1 }

/-- `fs->varmap[reg] = (uint16_t)vidx` -/
def FuncState.setVar (fs : FuncState) (reg vidx : ℕ) : FuncState :=
  { fs with varmap := Function.update fs.varmap reg (some ⟨.ofNat 16 vidx, vidx⟩) }

/-- `var_new(ls, n, name)` -/
def varNew (ls : LexState) (n : ℕ) : Except Err LexState :=
  if kpMaxLocvar ≤ ls.fs.nactvar + n then .error (.limit kpMaxLocvar)
  else (push ls).map fun ls' => { ls' with fs := ls.fs.setVar (ls.fs.nactvar + n) ls.vtop }

/-- `e->k` and, of an upvalue, `e->u.s.info`. -/
inductive ExpKind where
  | vlocal
  | vupval (info : ℕ)

/-- What `var_lookup_uv` puts into `uvtmp`. -/
def uvtmpOf (v : Stored) : ExpKind → VarIndex
  | .vlocal => .ofNat 16 v.word.toNat
  | .vupval info => .ofNat 16 (kpMaxVstack + info)

def sourceOf (v : Stored) : ExpKind → Source
  | .vlocal => .var v.vidx
  | .vupval info => .upval info

/-- `var_lookup_uv(fs, vidx, e)` -/
def varLookupUv (fs : FuncState) (v : Stored) (e : ExpKind) : Except Err (ℕ × FuncState) :=
  match fs.uv.findIdx? fun u => u.uvmap.word = v.word with
  | some i => .ok (i, fs)
  | none =>
    if kpMaxUpval ≤ fs.uv.length then .error (.limit kpMaxUpval)
    else .ok (fs.uv.length, { fs with uv := fs.uv ++ [⟨v, uvtmpOf v e, sourceOf v e⟩] })

/-- `var_lookup_` of a name that is the variable in register `reg` of the function `depth` levels
further out; a name that is not found in any function is a global. -/
def varLookup (reg : ℕ) : ℕ → FuncState → List FuncState →
    Except Err (Option (Stored × ExpKind) × FuncState × List FuncState)
  | 0, fs, prev =>
    match fs.varmap reg with
    | some v => .ok (some (v, .vlocal), fs, prev)
    | none => .error .wild
  | _ + 1, fs, [] => .ok (none, fs, [])
  | depth + 1, fs, outer :: prev => do
    let (r, outer, prev) ← varLookup reg depth outer prev
    match r with
    | none => .ok (none, fs, outer :: prev)
    | some (v, e) => do
      let (i, fs) ← varLookupUv fs v e
      .ok (some (v, .vupval (i % 256)), fs, outer :: prev)

def fsInit (vbase : ℕ) : FuncState := ⟨vbase, 0, fun _ => none, []⟩

/-- What the parser does with the stack. -/
inductive Action where
  | varNew (n : ℕ)
  | varAdd (nvars : ℕ)
  | varRemove (tolevel : ℕ)
  | golaNew
  /-- the label that `fscope_end` makes for the breaks of a loop, and drops at once -/
  | breakLabel
  | fsInit
  | fsFinish
  | varLookup (depth reg : ℕ)

def step (ls : LexState) : Action → Except Err LexState
  | .varNew n => varNew ls n
  | .varAdd nvars => .ok { ls with fs := { ls.fs with nactvar := ls.fs.nactvar + nvars } }
  | .varRemove tolevel => .ok { ls with fs := { ls.fs with nactvar := min ls.fs.nactvar tolevel } }
  | .golaNew => push ls
  | .breakLabel => (push ls).map fun ls' => { ls' with vtop := ls.vtop }
  | .fsInit => .ok { ls with fs := VarStack.fsInit ls.vtop, prev := ls.fs :: ls.prev }
  | .fsFinish =>
    match ls.prev with
    | [] => .error .wild
    | fs :: prev => .ok { ls with vtop := ls.fs.vbase, fs := fs, prev := prev }
  | .varLookup depth reg =>
    (varLookup reg depth ls.fs ls.prev).map fun r => { ls with fs := r.2.1, prev := r.2.2 }

/-- The parser, from `fs_init` of the main function on. -/
def parser : Lib.System LexState Action Err where
  init := ⟨0, 0, fsInit 0, []⟩
  Allowed _ _ := True
  step := step

/-- An entry is only added where the stack has fewer than `KP_MAX_VSTACK`. -/
def Room (ls : LexState) : Action → Prop
  | .varNew _ | .golaNew | .breakLabel => ls.vtop < kpMaxVstack
  | _ => True

/-! ## The indexes are the ones that are meant -/

/-- The index is the one that is meant, and not one of an upvalue. -/
structure Stored.Exact (v : Stored) : Prop where
  word : v.word.toNat = v.vidx
  lt : v.vidx < kpMaxVstack

structure Upval.Exact (u : Upval) : Prop where
  uvmap : u.uvmap.Exact
  uvtmp : fsFixupUv2 u.uvtmp = u.source

structure FuncState.Exact (fs : FuncState) : Prop where
  vbase : fs.vbase ≤ kpMaxVstack
  varmap : ∀ reg v, fs.varmap reg = some v → v.Exact
  nuv : fs.uv.length ≤ kpMaxUpval
  uv : ∀ u ∈ fs.uv, u.Exact

structure LexState.Exact (ls : LexState) : Prop where
  vtop : ls.vtop ≤ kpMaxVstack
  fs : ls.fs.Exact
  prev : ∀ fs ∈ ls.prev, fs.Exact

theorem fsInit_exact {vbase : ℕ} (h : vbase ≤ kpMaxVstack) : (fsInit vbase).Exact :=
  ⟨h, by rintro _ _ ⟨⟩, Nat.zero_le _, by rintro _ ⟨⟩⟩

theorem push_eq {ls ls' : LexState} (h : push ls = .ok ls') :
    ls'.vtop = ls.vtop + 1 ∧ ls'.fs = ls.fs ∧ ls'.prev = ls.prev := by
  rw [push] at h
  split_ifs at h
  all_goals
    cases h
    exact ⟨rfl, rfl, rfl⟩

theorem FuncState.Exact.setVar {fs : FuncState} (h : fs.Exact) (reg : ℕ) {vidx : ℕ}
    (hroom : vidx < kpMaxVstack) : (fs.setVar reg vidx).Exact := by
  refine ⟨h.vbase, ?_, h.nuv, h.uv⟩
  refine (Function.forall_update_iff fs.varmap fun _ o => ∀ v, o = some v → v.Exact).mpr
    ⟨fun v hv => ?_, fun r _ => h.varmap r⟩
  cases hv
  exact ⟨Nat.mod_eq_of_lt (Nat.lt_trans hroom (by decide)), hroom⟩

/-- An upvalue of the parent has a number that `uvtmp` can hold. -/
def ExpKind.Numbered : ExpKind → Prop
  | .vlocal => True
  | .vupval info => info < kpMaxUpval

theorem fsFixupUv2_uvtmpOf {v : Stored} {e : ExpKind} (hv : v.Exact) (he : e.Numbered) :
    fsFixupUv2 (uvtmpOf v e) = sourceOf v e := by
  cases e with
  | vlocal =>
    have hword : (uvtmpOf v .vlocal).toNat = v.vidx := by
      rw [uvtmpOf, BitVec.ofNat_toNat, BitVec.setWidth_eq, hv.word]
    rw [fsFixupUv2, hword, if_neg (Nat.not_le.mpr hv.lt), sourceOf]
  | vupval info =>
    have hword : (uvtmpOf v (.vupval info)).toNat = kpMaxVstack + info :=
      Nat.mod_eq_of_lt (Nat.add_lt_add_left he kpMaxVstack)
    rw [fsFixupUv2, hword, if_pos (Nat.le_add_right ..), Nat.add_sub_cancel_left, sourceOf]

theorem FuncState.Exact.varLookupUv {fs fs' : FuncState} (h : fs.Exact) {v : Stored} {e : ExpKind}
    (hv : v.Exact) (he : e.Numbered) {i : ℕ} (hrun : varLookupUv fs v e = .ok (i, fs')) :
    fs'.Exact ∧ i < kpMaxUpval := by
  rw [VarStack.varLookupUv] at hrun
  split at hrun
  · rename_i j hj
    cases hrun
    exact ⟨h, Nat.lt_of_lt_of_le (findIdx?_eq_some_iff_findIdx_eq.mp hj).1 h.nuv⟩
  · split_ifs at hrun with hfull
    cases hrun
    refine ⟨⟨h.vbase, h.varmap, ?_, fun u hu => ?_⟩, Nat.not_le.mp hfull⟩
    · rw [length_append]
      exact Nat.not_le.mp hfull
    · rcases mem_append.mp hu with hu | hu
      · exact h.uv u hu
      · obtain rfl := mem_singleton.mp hu
        exact ⟨hv, fsFixupUv2_uvtmpOf hv he⟩

theorem varLookup_exact {reg depth : ℕ} {fs fs' : FuncState} {prev prev' : List FuncState}
    (h : ∀ f ∈ fs :: prev, f.Exact) {r : Option (Stored × ExpKind)}
    (hrun : varLookup reg depth fs prev = .ok (r, fs', prev')) :
    (∀ f ∈ fs' :: prev', f.Exact) ∧ ∀ x, r = some x → x.1.Exact ∧ x.2.Numbered := by
  induction depth generalizing fs prev r fs' prev' with
  | zero =>
    rw [varLookup] at hrun
    split at hrun
    · rename_i v hv
      cases hrun
      refine ⟨h, fun x hx => ?_⟩
      cases hx
      exact ⟨(h fs mem_cons_self).varmap reg v hv, trivial⟩
    · cases hrun
  | succ depth ih =>
    cases prev with
    | nil =>
      cases hrun
      exact ⟨h, by rintro _ ⟨⟩⟩
    | cons outer prev =>
      obtain ⟨⟨r₁, outer₁, prev₁⟩, hrec, hrun⟩ := Lib.bind_eq_ok hrun
      obtain ⟨hfs, houter⟩ := forall_mem_cons.mp h
      obtain ⟨houter₁, hr₁⟩ := ih houter hrec
      cases r₁ with
      | none =>
        cases hrun
        exact ⟨forall_mem_cons.mpr ⟨hfs, houter₁⟩, by rintro _ ⟨⟩⟩
      | some ve =>
        obtain ⟨⟨i, fs₁⟩, huv, hrun⟩ := Lib.bind_eq_ok hrun
        obtain ⟨hv, he⟩ := hr₁ ve rfl
        obtain ⟨hfs₁, hi⟩ := hfs.varLookupUv hv he huv
        cases hrun
        refine ⟨forall_mem_cons.mpr ⟨hfs₁, houter₁⟩, fun x hx => ?_⟩
        cases hx
        exact ⟨hv, Nat.lt_of_le_of_lt (Nat.mod_le i 256) hi⟩

theorem LexState.Exact.next {ls ls' : LexState} {a : Action} (h : ls.Exact) (hroom : Room ls a)
    (hstep : step ls a = .ok ls') : ls'.Exact := by
  cases a with
  | varNew n =>
    rw [step, varNew] at hstep
    split_ifs at hstep
    obtain ⟨ls₁, hpush, rfl⟩ := Lib.map_eq_ok hstep
    obtain ⟨htop, -, hprev⟩ := push_eq hpush
    exact ⟨htop ▸ hroom, h.fs.setVar _ hroom, hprev ▸ h.prev⟩
  | varAdd | varRemove =>
    cases hstep
    exact ⟨h.vtop, ⟨h.fs.vbase, h.fs.varmap, h.fs.nuv, h.fs.uv⟩, h.prev⟩
  | golaNew =>
    obtain ⟨htop, hfs, hprev⟩ := push_eq hstep
    exact ⟨htop ▸ hroom, hfs ▸ h.fs, hprev ▸ h.prev⟩
  | breakLabel =>
    obtain ⟨ls₁, hpush, rfl⟩ := Lib.map_eq_ok hstep
    obtain ⟨-, hfs, hprev⟩ := push_eq hpush
    exact ⟨h.vtop, hfs ▸ h.fs, hprev ▸ h.prev⟩
  | fsInit =>
    cases hstep
    exact ⟨h.vtop, fsInit_exact h.vtop, forall_mem_cons.mpr ⟨h.fs, h.prev⟩⟩
  | fsFinish =>
    rw [step] at hstep
    split at hstep
    · cases hstep
    · rename_i fs prev hprev
      cases hstep
      obtain ⟨hfs, hrest⟩ := forall_mem_cons.mp (hprev ▸ h.prev)
      exact ⟨h.fs.vbase, hfs, hrest⟩
  | varLookup depth reg =>
    obtain ⟨⟨r, fs, prev⟩, hrun, rfl⟩ := Lib.map_eq_ok hstep
    obtain ⟨hexact, -⟩ := varLookup_exact (forall_mem_cons.mpr ⟨h.fs, h.prev⟩) hrun
    obtain ⟨hfs, hprev⟩ := forall_mem_cons.mp hexact
    exact ⟨h.vtop, hfs, hprev⟩

/-- **The indexes** in `varmap`, `uvmap` and `uvtmp` are the ones that are meant, as long as no
entry is added to a stack of `KP_MAX_VSTACK` entries. -/
theorem indexes_true {ls : LexState} (h : parser.Reach Room ls) : ls.Exact :=
  h.invariant ⟨Nat.zero_le _, fsInit_exact (Nat.zero_le _), by rintro _ ⟨⟩⟩
    fun ls a ls' hexact _ hroom hstep => hexact.next hroom hstep

/-- One variable of the main function that a function in it refers to. -/
theorem indexes_true_upvalue : ∃ ls, parser.Reach Room ls ∧ ls.fs.uv.length = 1 ∧ ls.Exact := by
  have h₀ : parser.Reach Room parser.init := .init
  have h₁ := h₀.next (.varNew 0) trivial (show 0 < kpMaxVstack by decide) rfl
  have h₂ := (h₁.next (.varAdd 1) trivial trivial rfl).next .fsInit trivial trivial rfl
  have h₃ := h₂.next (.varLookup 1 0) trivial trivial rfl
  exact ⟨_, h₃, rfl, indexes_true h₃⟩

/-! ## More entries -/

/-- What the stack doubles to. -/
def sizes : List ℕ := [0, 20, 40, 80, 160, 320, 640, 1280, 2560, 5120, 10240, 20480, 40960, 81920]

theorem push_succeeds {ls : LexState} (hsize : ls.sizevstack ∈ sizes) (hlt : ls.vtop < 81920) :
    ∃ ls', push ls = .ok ls' ∧ ls'.sizevstack ∈ sizes := by
  have hlast : ∀ n ∈ sizes, kpMaxVstack ≤ n → n = 81920 := by decide
  have hnext : ∀ n ∈ sizes, ¬ kpMaxVstack ≤ n → (if n = 0 then 20 else n * 2) ∈ sizes := by decide
  rw [push]
  split
  · rename_i hfull
    split
    · rename_i hlimit
      exact absurd (hlast _ hsize hlimit ▸ hfull) (Nat.not_le.mpr hlt)
    · rename_i hlimit
      exact ⟨_, rfl, hnext _ hsize hlimit⟩
  · exact ⟨_, rfl, hsize⟩

/-- Blocks with one variable each: none of 81920 is rejected. -/
theorem exists_blocks {k : ℕ} (hk : k ≤ 81920) :
    ∃ ls, parser.Reach (fun _ _ => True) ls ∧ ls.vtop = k ∧ ls.fs.nactvar = 0 ∧
      ls.sizevstack ∈ sizes ∧
      (k ≠ 0 → ls.fs.varmap 0 = some ⟨.ofNat 16 (k - 1), k - 1⟩) := by
  induction k with
  | zero => exact ⟨_, .init, rfl, rfl, by decide, fun h => absurd rfl h⟩
  | succ k ih =>
    obtain ⟨ls, h, rfl, hact, hsize, -⟩ := ih (Nat.le_of_succ_le hk)
    obtain ⟨ls₁, hpush, hsize₁⟩ := push_succeeds hsize hk
    have hnew : step ls (.varNew 0) = .ok { ls₁ with fs := ls.fs.setVar 0 ls.vtop } := by
      rw [step, varNew, hact, if_neg (by decide), hpush]
      rfl
    have h₃ := ((h.next (.varNew 0) trivial trivial hnew).next (.varAdd 1) trivial trivial rfl).next
      (.varRemove 0) trivial trivial rfl
    exact ⟨_, h₃, (push_eq hpush).1, Nat.min_zero _, hsize₁, fun _ =>
      Function.update_self 0 _ ls.fs.varmap⟩

/-- The index of the variable of the 65537th block is stored as 0. -/
theorem index_cut : ¬ ∀ ls, parser.Reach (fun _ _ => True) ls → ls.Exact := by
  intro hexact
  obtain ⟨ls, h, -, -, -, hvar⟩ := exists_blocks (k := 65537) (by decide)
  exact absurd ((hexact ls h).fs.varmap 0 _ (hvar (by decide))).word (by decide)

end Ktap.VarStack
