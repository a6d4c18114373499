import Mathlib.Data.List.Nodup

/-!
# Scripts that add, change and delete objects

A table of objects with data, and commands that are refused when the object is there
already, or is not there. A script is a list of commands, and fails with the first
one that is refused. A script that does the same to several objects succeeds if none
of them (or all of them) are there, and leaves the other objects alone; replacing always
succeeds.
-/

namespace Lib

open Function List

/-- What a command does to its object. -/
inductive Act where
  | add
  | change
  | del
  | replace
  deriving DecidableEq, Repr

/-- A command with the data that the object gets. -/
structure Cmd (α β : Type) where
  act : Act
  obj : α
  data : β

/-- The objects that are there, with their data. -/
abbrev Objects (α β : Type) : Type := α → Option β

variable {α β : Type} [DecidableEq α]

/-- One command; `none` when it is refused. -/
def Cmd.run (c : Cmd α β) (t : Objects α β) : Option (Objects α β) :=
  match c.act with
  | .add => if (t c.obj).isNone then some (Function.update t c.obj (some c.data)) else none
  | .change => if (t c.obj).isSome then some (Function.update t c.obj (some c.data)) else none
  | .del => if (t c.obj).isSome then some (Function.update t c.obj none) else none
  | .replace => some (Function.update t c.obj (some c.data))

/-- A script. -/
def runAll (cmds : List (Cmd α β)) (t : Objects α β) : Option (Objects α β) :=
  cmds.foldlM (fun t c => c.run t) t

omit [DecidableEq α] in
/-- The objects of a script are different ones. -/
theorem obj_ne_of_nodup {c : Cmd α β} {cmds : List (Cmd α β)}
    (h : ((c :: cmds).map Cmd.obj).Nodup) : ∀ d ∈ cmds, d.obj ≠ c.obj := by
  intro d hd heq
  rw [map_cons, nodup_cons] at h
  exact h.1 (heq ▸ mem_map_of_mem hd)

/-- What a script comes to that leaves each of its objects with `f` of its command. -/
def Sets (cmds : List (Cmd α β)) (f : Cmd α β → Option β) (t t' : Objects α β) : Prop :=
  (∀ c ∈ cmds, t' c.obj = f c) ∧ ∀ o, (∀ c ∈ cmds, c.obj ≠ o) → t' o = t o

/-- A script whose commands are all accepted in each state in which their object is as it was. -/
theorem runAll_sets {cmds : List (Cmd α β)} {f : Cmd α β → Option β} {t : Objects α β}
    (hnodup : (cmds.map Cmd.obj).Nodup)
    (hrun : ∀ c ∈ cmds, ∀ t' : Objects α β, t' c.obj = t c.obj →
      c.run t' = some (update t' c.obj (f c))) :
    ∃ t', runAll cmds t = some t' ∧ Sets cmds f t t' := by
  induction cmds generalizing t with
  | nil => exact ⟨t, rfl, nofun, fun _ _ => rfl⟩
  | cons c cmds ih =>
    have hne := obj_ne_of_nodup hnodup
    rw [map_cons, nodup_cons] at hnodup
    have hrest : ∀ d ∈ cmds, ∀ t' : Objects α β,
        t' d.obj = update t c.obj (f c) d.obj →
        d.run t' = some (update t' d.obj (f d)) := by
      intro d hd t' ht'
      rw [update_of_ne (hne d hd)] at ht'
      exact hrun d (mem_cons_of_mem _ hd) t' ht'
    obtain ⟨t', ht', hset, hframe⟩ := ih hnodup.2 hrest
    refine ⟨t', ?_, ?_, ?_⟩
    · rw [runAll, foldlM_cons, hrun c (mem_cons_self ..) t rfl]
      exact ht'
    · intro d hd
      rcases mem_cons.mp hd with rfl | hd
      · rw [hframe d.obj hne, update_self]
      · exact hset d hd
    · intro o ho
      rw [hframe o fun d hd => ho d (mem_cons_of_mem _ hd),
        update_of_ne (ho c (mem_cons_self ..)).symm]

theorem runAll_frame {cmds : List (Cmd α β)} {t t' : Objects α β} {o : α}
    (h : runAll cmds t = some t') (ho : ∀ c ∈ cmds, c.obj ≠ o) : t' o = t o := by
  induction cmds generalizing t with
  | nil =>
    cases h
    rfl
  | cons c cmds ih =>
    have hne : o ≠ c.obj := (ho c (mem_cons_self ..)).symm
    have hone : ∀ t₁, c.run t = some t₁ → t₁ o = t o := by
      intro t₁ hrun
      rw [Cmd.run] at hrun
      split at hrun
      case h_4 =>
        cases hrun
        exact update_of_ne hne ..
      all_goals
        split at hrun
        · cases hrun
          exact update_of_ne hne ..
        · cases hrun
    rw [runAll, foldlM_cons] at h
    cases hrun : c.run t with
    | none =>
      rw [hrun] at h
      cases h
    | some t₁ =>
      rw [hrun] at h
      rw [ih h fun d hd => ho d (mem_cons_of_mem _ hd), hone t₁ hrun]

/-- **Replacing**: an object of the script has the data of one of its commands. -/
theorem runAll_replace {cmds : List (Cmd α β)} (hact : ∀ c ∈ cmds, c.act = .replace)
    (t : Objects α β) :
    ∃ t', runAll cmds t = some t' ∧
      ∀ c ∈ cmds, ∃ c' ∈ cmds, c'.obj = c.obj ∧ t' c.obj = some c'.data := by
  induction cmds generalizing t with
  | nil => exact ⟨t, rfl, nofun⟩
  | cons c cmds ih =>
    have hrun : c.run t = some (update t c.obj (some c.data)) := by
      rw [Cmd.run, hact c (mem_cons_self ..)]
    obtain ⟨t', hrest, hset⟩ :=
      ih (fun d hd => hact d (mem_cons_of_mem _ hd)) (update t c.obj (some c.data))
    refine ⟨t', ?_, fun d hd => ?_⟩
    · rw [runAll, foldlM_cons, hrun]
      exact hrest
    · -- an object that comes again later is replaced again
      rcases Classical.em (∃ e ∈ cmds, e.obj = d.obj) with ⟨e, he, hobj⟩ | hlast
      · obtain ⟨e', he', hobj', hdata⟩ := hset e he
        exact ⟨e', mem_cons_of_mem _ he', hobj'.trans hobj, hobj ▸ hdata⟩
      · rcases mem_cons.mp hd with rfl | hd
        · refine ⟨d, mem_cons_self .., rfl, ?_⟩
          rw [runAll_frame hrest fun e he heq => hlast ⟨e, he, heq⟩, update_self]
        · exact absurd ⟨d, hd, rfl⟩ hlast

variable {cmds : List (Cmd α β)} {t : Objects α β}

/-- **Adding**: none of the objects is there. -/
theorem runAll_add (hnodup : (cmds.map Cmd.obj).Nodup) (hact : ∀ c ∈ cmds, c.act = .add)
    (habsent : ∀ c ∈ cmds, t c.obj = none) :
    ∃ t', runAll cmds t = some t' ∧ Sets cmds (fun c => some c.data) t t' := by
  apply runAll_sets hnodup
  intro c hc t' ht'
  rw [Cmd.run, hact c hc, ht', habsent c hc]
  rfl

/-- **Changing**: all objects are there. -/
theorem runAll_change (hnodup : (cmds.map Cmd.obj).Nodup) (hact : ∀ c ∈ cmds, c.act = .change)
    (hpresent : ∀ c ∈ cmds, (t c.obj).isSome) :
    ∃ t', runAll cmds t = some t' ∧ Sets cmds (fun c => some c.data) t t' := by
  apply runAll_sets hnodup
  intro c hc t' ht'
  rw [Cmd.run, hact c hc]
  simp only [ht', hpresent c hc, if_true]

/-- **Deleting**: all objects are there. -/
theorem runAll_del (hnodup : (cmds.map Cmd.obj).Nodup) (hact : ∀ c ∈ cmds, c.act = .del)
    (hpresent : ∀ c ∈ cmds, (t c.obj).isSome) :
    ∃ t', runAll cmds t = some t' ∧ Sets cmds (fun _ => none) t t' := by
  apply runAll_sets hnodup
  intro c hc t' ht'
  rw [Cmd.run, hact c hc]
  simp only [ht', hpresent c hc, if_true]

end Lib
