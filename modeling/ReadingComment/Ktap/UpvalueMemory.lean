import Mathlib.Data.List.Perm.Subperm
import ReadingComment.Ktap.Upvalues

/-!
# What memory holds of upvalues

The open upvalues of a thread are given by the list of their addresses and slots, in the
order of the slots from the top of the stack down; all other objects are in another list.
`Contents` says that of memory. A function relinks the ring around `uvhead` all the time:
the places of upvalues in it are left out of the `view` of an object, so that what a
function does not touch is the same there.
-/

namespace Ktap.Vm

open Function Lib List

variable {ν : Type}

def UvBody.unlinked : UvBody ν → UvBody ν
  | .tv x => .tv x
  | .links _ _ => .links none none

def Obj.OpenIn (o : Option (Obj ν)) (c : ℕ) : Prop :=
  ∃ imm p n, o = some (.upval ⟨false, imm, .links p n, .slot c⟩)

def Obj.ClosedWith (o : Option (Obj ν)) (x : ν) : Prop :=
  ∃ imm, o = some (.upval ⟨true, imm, .tv x, .own⟩)

def Obj.unlinked : Obj ν → Obj ν
  | .upval uv => .upval { uv with body := uv.body.unlinked }
  | o => o

namespace UvState

def gcLink (s : UvState ν) : Option ℕ → Option ℕ
  | none => s.allgc
  | some a => s.nextgc a

def view (s : UvState ν) (a : ℕ) : Option (Obj ν) := (s.obj a).map Obj.unlinked

/-- The upvalue at an address is open and its value is in a slot. -/
def OpenAt (s : UvState ν) (a c : ℕ) : Prop :=
  ∃ imm p n, s.upval a = some ⟨false, imm, .links p n, .slot c⟩

/-- The upvalue at an address is closed and holds a value of its own. -/
def ClosedAt (s : UvState ν) (a : ℕ) (x : ν) : Prop :=
  ∃ imm, s.upval a = some ⟨true, imm, .tv x, .own⟩

/-! ## What is at an address -/

theorem upval_eq {s : UvState ν} {a : ℕ} {uv : Upval ν} :
    s.upval a = some uv ↔ s.obj a = some (.upval uv) := by
  rw [upval]
  split
  · rename_i uv' h
    rw [h, Option.some.injEq, Option.some.injEq, Obj.upval.injEq]
  · rename_i h
    exact ⟨nofun, fun h' => absurd h' (h uv)⟩

theorem upvals_eq {s : UvState ν} {a : ℕ} {us : List ℕ} :
    s.upvals a = some us ↔ s.obj a = some (.func us) := by
  rw [upvals]
  split
  · rename_i us' h
    rw [h, Option.some.injEq, Option.some.injEq, Obj.func.injEq]
  · rename_i h
    exact ⟨nofun, fun h' => absurd h' (h us)⟩

theorem view_eq_none {s : UvState ν} {a : ℕ} : s.view a = none ↔ s.obj a = none :=
  Option.map_eq_none_iff

theorem view_upval {s : UvState ν} {a : ℕ} {closed : Bool} {imm : Option Bool} {body : UvBody ν}
    {v : ValPtr} : s.view a = some (.upval ⟨closed, imm, body, v⟩) ↔
      ∃ b, s.upval a = some ⟨closed, imm, b, v⟩ ∧ b.unlinked = body := by
  constructor
  · intro h
    obtain ⟨o, ho, hview⟩ := Option.map_eq_some_iff.mp h
    rcases o with ⟨closed', imm', b, v'⟩ | us | _
    · rw [Obj.unlinked, Obj.upval.injEq, Upval.mk.injEq] at hview
      obtain ⟨rfl, rfl, hbody, rfl⟩ := hview
      exact ⟨b, upval_eq.mpr ho, hbody⟩
    · cases hview
    · cases hview
  · rintro ⟨b, h, rfl⟩
    rw [view, upval_eq.mp h]
    rfl

theorem view_func {s : UvState ν} {a : ℕ} {us : List ℕ} :
    s.view a = some (.func us) ↔ s.upvals a = some us := by
  rw [upvals_eq, view, Option.map_eq_some_iff]
  constructor
  · rintro ⟨o, ho, hview⟩
    cases o <;> cases hview
    exact ho
  · exact fun h => ⟨_, h, rfl⟩

theorem openAt_iff {s : UvState ν} {a c : ℕ} : s.OpenAt a c ↔ Obj.OpenIn (s.view a) c := by
  constructor
  · rintro ⟨imm, p, n, h⟩
    exact ⟨imm, none, none, view_upval.mpr ⟨_, h, rfl⟩⟩
  · rintro ⟨imm, p, n, h⟩
    obtain ⟨b, hb, hbody⟩ := view_upval.mp h
    cases b with
    | tv x => cases hbody
    | links p n => exact ⟨imm, p, n, hb⟩

theorem closedAt_iff {s : UvState ν} {a : ℕ} {x : ν} :
    s.ClosedAt a x ↔ Obj.ClosedWith (s.view a) x := by
  constructor
  · rintro ⟨imm, h⟩
    exact ⟨imm, view_upval.mpr ⟨_, h, rfl⟩⟩
  · rintro ⟨imm, h⟩
    obtain ⟨b, hb, hbody⟩ := view_upval.mp h
    cases b with
    | tv y =>
      cases hbody
      exact ⟨imm, hb⟩
    | links p n => cases hbody

section setObj

variable {s : UvState ν} {a : ℕ} {o : Obj ν}

@[simp] theorem obj_setObj : (s.setObj a o).obj = update s.obj a (some o) := rfl

@[simp] theorem view_setObj :
    (s.setObj a o).view = update s.view a (some o.unlinked) := by
  funext b
  by_cases hb : b = a
  · subst hb
    rw [update_self, view, obj_setObj, update_self]
    rfl
  · rw [update_of_ne hb, view, obj_setObj, update_of_ne hb]
    rfl

variable {uv : Upval ν}

@[simp] theorem upval_setObj_self :
    (s.setObj a (.upval uv)).upval a = some uv := by
  rw [upval_eq, obj_setObj, update_self]

theorem upval_setObj_of_ne {b : ℕ} (hb : b ≠ a) : (s.setObj a o).upval b = s.upval b := by
  rw [upval, upval, obj_setObj, update_of_ne hb]

theorem uvPrev_setObj :
    (s.setObj a (.upval uv)).uvPrev = update s.uvPrev (some a) uv.body.prev := by
  funext b
  cases b with
  | none => rfl
  | some b =>
    by_cases hb : b = a
    · subst hb
      rw [update_self, uvPrev, upval_setObj_self]
      rfl
    · rw [update_of_ne (by simpa using hb), uvPrev, uvPrev, upval_setObj_of_ne hb]

theorem uvNext_setObj :
    (s.setObj a (.upval uv)).uvNext = update s.uvNext (some a) uv.body.next := by
  funext b
  cases b with
  | none => rfl
  | some b =>
    by_cases hb : b = a
    · subst hb
      rw [update_self, uvNext, upval_setObj_self]
      rfl
    · rw [update_of_ne (by simpa using hb), uvNext, uvNext, upval_setObj_of_ne hb]

end setObj

/-! ## The ring -/

/-- Two states that differ in the ring only. -/
structure Relinks (s s' : UvState ν) : Prop where
  stack : s'.stack = s.stack
  nextgc : s'.nextgc = s.nextgc
  openupval : s'.openupval = s.openupval
  allgc : s'.allgc = s.allgc
  view : s'.view = s.view

theorem Relinks.trans {s s₁ s₂ : UvState ν} (h : Relinks s s₁) (h' : Relinks s₁ s₂) :
    Relinks s s₂ :=
  ⟨h'.stack.trans h.stack, h'.nextgc.trans h.nextgc, h'.openupval.trans h.openupval,
    h'.allgc.trans h.allgc, h'.view.trans h.view⟩

theorem Relinks.openLink {s s' : UvState ν} (h : Relinks s s') : s'.openLink = s.openLink := by
  funext p
  cases p with
  | none => exact h.openupval
  | some a => exact congrFun h.nextgc a

theorem Relinks.gcLink {s s' : UvState ν} (h : Relinks s s') : s'.gcLink = s.gcLink := by
  funext p
  cases p with
  | none => exact h.allgc
  | some a => exact congrFun h.nextgc a

theorem Relinks.openAt {s s' : UvState ν} (h : Relinks s s') {a c : ℕ} :
    s'.OpenAt a c ↔ s.OpenAt a c := by
  rw [openAt_iff, openAt_iff, h.view]

def InRing (s : UvState ν) (p : Option ℕ) : Prop := ∀ a, p = some a → ∃ c, s.OpenAt a c

theorem relinks_setObj {s : UvState ν} {a : ℕ} {uv : Upval ν} {p n p' n' : Option ℕ}
    (h : s.upval a = some uv) (hbody : uv.body = .links p n) :
    Relinks s (s.setObj a (.upval { uv with body := .links p' n' })) := by
  refine ⟨rfl, rfl, rfl, rfl, ?_⟩
  rw [view_setObj, update_eq_self_iff, view, upval_eq.mp h, Option.map_some, Obj.unlinked,
    Obj.unlinked, hbody]
  rfl

theorem setPrev_spec {s : UvState ν} {p : Option ℕ} (hp : s.InRing p) (q : Option ℕ) :
    ∃ s', s.setPrev p q = .ok s' ∧ Relinks s s' ∧
      s'.uvPrev = update s.uvPrev p q ∧ s'.uvNext = s.uvNext := by
  cases p with
  | none =>
    refine ⟨_, rfl, ⟨rfl, rfl, rfl, rfl, rfl⟩, ?_, ?_⟩
    · funext b
      cases b <;> rfl
    · funext b
      cases b <;> rfl
  | some a =>
    obtain ⟨c, hopen⟩ := hp a rfl
    obtain ⟨imm, p, n, ha⟩ := hopen
    refine ⟨_, by rw [setPrev, ha], relinks_setObj ha rfl, uvPrev_setObj, uvNext_setObj.trans ?_⟩
    rw [update_eq_self_iff, uvNext, ha]
    rfl

theorem setNext_spec {s : UvState ν} {p : Option ℕ} (hp : s.InRing p) (q : Option ℕ) :
    ∃ s', s.setNext p q = .ok s' ∧ Relinks s s' ∧
      s'.uvPrev = s.uvPrev ∧ s'.uvNext = update s.uvNext p q := by
  cases p with
  | none =>
    refine ⟨_, rfl, ⟨rfl, rfl, rfl, rfl, rfl⟩, ?_, ?_⟩
    · funext b
      cases b <;> rfl
    · funext b
      cases b <;> rfl
  | some a =>
    obtain ⟨c, hopen⟩ := hp a rfl
    obtain ⟨imm, p, n, ha⟩ := hopen
    refine ⟨_, by rw [setNext, ha], relinks_setObj ha rfl, uvPrev_setObj.trans ?_, uvNext_setObj⟩
    rw [update_eq_self_iff, uvPrev, ha]
    rfl

end UvState

/-! ## What memory holds -/

theorem Obj.OpenIn.slot_unique {o : Option (Obj ν)} {c d : ℕ} (h : Obj.OpenIn o c)
    (h' : Obj.OpenIn o d) : c = d := by
  obtain ⟨imm, p, n, rfl⟩ := h
  obtain ⟨imm', p', n', h'⟩ := h'
  rw [Option.some.injEq, Obj.upval.injEq, Upval.mk.injEq, ValPtr.slot.injEq] at h'
  exact h'.2.2.2

theorem Obj.OpenIn.not_closed {o : Option (Obj ν)} {c : ℕ} {x : ν} (h : Obj.OpenIn o c) :
    ¬ Obj.ClosedWith o x := by
  rintro ⟨imm', h'⟩
  obtain ⟨imm, p, n, rfl⟩ := h
  cases h'

/-- What memory holds: the upvalues of a list are open, in slots that go down, and everything else
is in another list, with its upvalues closed. -/
structure Contents (size : ℕ) (w : ℕ → Option (Obj ν)) (l : List (ℕ × ℕ)) (g : List ℕ) : Prop where
  isOpen : ∀ x ∈ l, Obj.OpenIn (w x.1) x.2
  desc : l.Pairwise fun x y => y.2 < x.2
  lt : ∀ x ∈ l, x.2 < size
  nodup : g.Nodup
  present : ∀ a ∈ g, w a ≠ none
  listed : ∀ a, w a ≠ none → a ∈ l.map Prod.fst ∨ a ∈ g
  closed : ∀ a ∈ g, ∀ uv, w a = some (.upval uv) → ∃ x, Obj.ClosedWith (w a) x
  captured : ∀ f us, w f = some (.func us) → ∀ a ∈ us, ∃ uv, w a = some (.upval uv)

namespace Contents

variable {size : ℕ} {w : ℕ → Option (Obj ν)} {l : List (ℕ × ℕ)} {g : List ℕ}

section

variable (h : Contents size w l g)

include h

theorem nodup_open : (l.map Prod.fst).Nodup := by
  rw [List.Nodup, pairwise_map]
  refine h.desc.imp_of_mem fun {x y} hx hy hlt hxy => ?_
  have hslot := (h.isOpen x hx).slot_unique (hxy ▸ h.isOpen y hy)
  omega

theorem nodup_slots : (l.map Prod.snd).Nodup := by
  rw [List.Nodup, pairwise_map]
  exact h.desc.imp fun hlt => Nat.ne_of_gt hlt

theorem length_le : l.length ≤ size := by
  have hsub : l.map Prod.snd ⊆ List.range size := by
    intro c hc
    obtain ⟨x, hx, rfl⟩ := mem_map.mp hc
    exact mem_range.mpr (h.lt x hx)
  simpa using (h.nodup_slots.subperm hsub).length_le

theorem ne_none_of_mem {a : ℕ} (ha : a ∈ l.map Prod.fst) : w a ≠ none := by
  obtain ⟨x, hx, rfl⟩ := mem_map.mp ha
  obtain ⟨imm, p, n, hopen⟩ := h.isOpen x hx
  rw [hopen]
  exact Option.some_ne_none _

theorem not_mem {a : ℕ} (ha : a ∈ l.map Prod.fst) : a ∉ g := by
  intro hg
  obtain ⟨x, hx, rfl⟩ := mem_map.mp ha
  have hopen := h.isOpen x hx
  obtain ⟨imm, p, n, hw⟩ := id hopen
  obtain ⟨y, hclosed⟩ := h.closed x.1 hg _ hw
  exact hopen.not_closed hclosed

theorem mem_iff {a c : ℕ} : (a, c) ∈ l ↔ Obj.OpenIn (w a) c := by
  refine ⟨h.isOpen (a, c), fun hopen => ?_⟩
  obtain ⟨imm, p, n, hw⟩ := id hopen
  rcases h.listed a (by rw [hw]; exact Option.some_ne_none _) with ha | ha
  · obtain ⟨⟨a', d⟩, hx, rfl⟩ := mem_map.mp ha
    rwa [hopen.slot_unique (h.isOpen _ hx)]
  · obtain ⟨x, hclosed⟩ := h.closed a ha _ hw
    exact absurd hclosed hopen.not_closed

theorem not_mem_of_none {a : ℕ} (ha : w a = none) :
    a ∉ l.map Prod.fst ∧ a ∉ g :=
  ⟨fun hmem => h.ne_none_of_mem hmem ha, fun hmem => h.present a hmem ha⟩

end

theorem insert {a b : List (ℕ × ℕ)} {uv slot : ℕ} {o : Obj ν} (h : Contents size w (a ++ b) g)
    (hnone : w uv = none) (ho : Obj.OpenIn (some o) slot) (hlt : slot < size)
    (ha : ∀ x ∈ a, slot < x.2) (hb : ∀ x ∈ b, x.2 < slot) :
    Contents size (update w uv (some o)) (a ++ (uv, slot) :: b) g := by
  have hold : ∀ {c : ℕ}, w c ≠ none → update w uv (some o) c = w c := by
    intro c hc
    refine update_of_ne ?_ _ _
    rintro rfl
    exact hc hnone
  obtain ⟨imm, p, n, ho'⟩ := id ho
  have hmem : ∀ x, x ∈ a ++ (uv, slot) :: b ↔ x = (uv, slot) ∨ x ∈ a ++ b := by
    intro x
    simp only [mem_append, mem_cons]
    tauto
  refine ⟨fun x hx => ?_, ?_, fun x hx => ?_, h.nodup, fun c hc => ?_, fun c hc => ?_,
    fun c hc u hu => ?_, fun f us hf c hc => ?_⟩
  · rcases (hmem x).mp hx with rfl | hx
    · rwa [update_self]
    · rw [hold (h.ne_none_of_mem (mem_map_of_mem hx))]
      exact h.isOpen x hx
  · have hdesc := pairwise_append.mp h.desc
    rw [pairwise_append, pairwise_cons]
    refine ⟨hdesc.1, ⟨hb, hdesc.2.1⟩, fun x hx y hy => ?_⟩
    rcases mem_cons.mp hy with rfl | hy
    · exact ha x hx
    · exact hdesc.2.2 x hx y hy
  · rcases (hmem x).mp hx with rfl | hx
    · exact hlt
    · exact h.lt x hx
  · rw [hold (h.present c hc)]
    exact h.present c hc
  · by_cases hcu : c = uv
    · exact .inl (mem_map.mpr ⟨(uv, slot), by simp, hcu.symm⟩)
    · rw [update_of_ne hcu] at hc
      rcases h.listed c hc with hl | hg
      · obtain ⟨x, hx, rfl⟩ := mem_map.mp hl
        exact .inl (mem_map_of_mem ((hmem x).mpr (.inr hx)))
      · exact .inr hg
  · rw [hold (h.present c hc)] at hu ⊢
    exact h.closed c hc u hu
  · have hfu : f ≠ uv := by
      rintro rfl
      rw [update_self, ho'] at hf
      cases hf
    rw [update_of_ne hfu] at hf
    obtain ⟨u, hu⟩ := h.captured f us hf c hc
    refine ⟨u, ?_⟩
    rw [hold (by rw [hu]; exact Option.some_ne_none _), hu]

theorem close {a c : ℕ} {x : ν} {o : Obj ν} (h : Contents size w ((a, c) :: l) g)
    (ho : Obj.ClosedWith (some o) x) :
    Contents size (update w a (some o)) l (a :: g) := by
  have hnodup : a ∉ l.map Prod.fst := (nodup_cons.mp h.nodup_open).1
  have hag : a ∉ g := h.not_mem mem_cons_self
  have hne : ∀ {b : ℕ}, b ∈ g → b ≠ a := by
    rintro b hb rfl
    exact hag hb
  obtain ⟨imm, ho'⟩ := id ho
  refine ⟨fun y hy => ?_, h.desc.of_cons, fun y hy => h.lt y (mem_cons_of_mem _ hy),
    nodup_cons.mpr ⟨hag, h.nodup⟩, fun b hb => ?_, fun b hb => ?_, fun b hb u hu => ?_,
    fun f us hf b hb => ?_⟩
  · rw [update_of_ne]
    · exact h.isOpen y (mem_cons_of_mem _ hy)
    · intro hya
      exact hnodup (hya ▸ mem_map_of_mem hy)
  · rcases mem_cons.mp hb with rfl | hb
    · rw [update_self]
      exact Option.some_ne_none _
    · rw [update_of_ne (hne hb)]
      exact h.present b hb
  · by_cases hba : b = a
    · exact .inr (hba ▸ mem_cons_self)
    · rw [update_of_ne hba] at hb
      rcases h.listed b hb with hl | hg
      · rw [map_cons, mem_cons] at hl
        exact .inl (hl.resolve_left hba)
      · exact .inr (mem_cons_of_mem _ hg)
  · rcases mem_cons.mp hb with rfl | hb
    · exact ⟨x, by rwa [update_self]⟩
    · rw [update_of_ne (hne hb)] at hu ⊢
      exact h.closed b hb u hu
  · have hfa : f ≠ a := by
      rintro rfl
      rw [update_self, ho'] at hf
      cases hf
    rw [update_of_ne hfa] at hf
    obtain ⟨u, hu⟩ := h.captured f us hf b hb
    by_cases hba : b = a
    · exact ⟨_, by rw [hba, update_self, ho']⟩
    · exact ⟨u, by rw [update_of_ne hba, hu]⟩

theorem new {a : ℕ} {o : Obj ν} (h : Contents size w l g) (hnone : w a = none)
    (ho : o = .func [] ∨ o = .other) :
    Contents size (update w a (some o)) l (a :: g) := by
  have hnot := h.not_mem_of_none hnone
  have hold : ∀ {c : ℕ}, w c ≠ none → update w a (some o) c = w c := by
    intro c hc
    refine update_of_ne ?_ _ _
    rintro rfl
    exact hc hnone
  refine ⟨fun y hy => ?_, h.desc, h.lt, nodup_cons.mpr ⟨hnot.2, h.nodup⟩, fun b hb => ?_,
    fun b hb => ?_, fun b hb u hu => ?_, fun f us hf b hb => ?_⟩
  · rw [hold (h.ne_none_of_mem (mem_map_of_mem hy))]
    exact h.isOpen y hy
  · rcases mem_cons.mp hb with rfl | hb
    · rw [update_self]
      exact Option.some_ne_none _
    · rw [hold (h.present b hb)]
      exact h.present b hb
  · by_cases hba : b = a
    · exact .inr (hba ▸ mem_cons_self)
    · rw [update_of_ne hba] at hb
      exact (h.listed b hb).imp_right (mem_cons_of_mem _)
  · rcases mem_cons.mp hb with rfl | hb
    · rw [update_self] at hu
      rcases ho with rfl | rfl <;> cases hu
    · rw [hold (h.present b hb)] at hu ⊢
      exact h.closed b hb u hu
  · by_cases hfa : f = a
    · subst hfa
      rw [update_self] at hf
      rcases ho with rfl | rfl <;> cases hf
      cases hb
    · rw [update_of_ne hfa] at hf
      obtain ⟨u, hu⟩ := h.captured f us hf b hb
      exact ⟨u, by rw [hold (by rw [hu]; exact Option.some_ne_none _), hu]⟩

end Contents

/-- What stores make of an object: it stays open in its slot, closed, or a function. -/
inductive Obj.Like : Obj ν → Obj ν → Prop where
  | opened (imm imm' : Option Bool) (p n p' n' : Option ℕ) (c : ℕ) :
    Like (.upval ⟨false, imm, .links p n, .slot c⟩) (.upval ⟨false, imm', .links p' n', .slot c⟩)
  | closed (imm imm' : Option Bool) (x x' : ν) :
    Like (.upval ⟨true, imm, .tv x, .own⟩) (.upval ⟨true, imm', .tv x', .own⟩)
  | func (us us' : List ℕ) : Like (.func us) (.func us')

theorem Contents.set {size : ℕ} {w : ℕ → Option (Obj ν)} {l : List (ℕ × ℕ)} {g : List ℕ} {a : ℕ}
    {o o' : Obj ν} (h : Contents size w l g) (ha : w a = some o) (hlike : o.Like o')
    (hus : ∀ us, o' = .func us → ∀ b ∈ us, ∃ uv, w b = some (.upval uv)) :
    Contents size (update w a (some o')) l g := by
  have hupval : ∀ {b : ℕ} {u : Upval ν}, w b = some (.upval u) →
      ∃ u', update w a (some o') b = some (.upval u') := by
    intro b u hu
    by_cases hba : b = a
    · subst hba
      rw [ha] at hu
      cases hu
      cases hlike <;> exact ⟨_, update_self ..⟩
    · exact ⟨u, by rw [update_of_ne hba, hu]⟩
  refine ⟨fun y hy => ?_, h.desc, h.lt, h.nodup, fun b hb => ?_, fun b hb => ?_,
    fun b hb u hu => ?_, fun f us hf b hb => ?_⟩
  · by_cases hya : y.1 = a
    · have hopen := h.isOpen y hy
      rw [hya] at hopen ⊢
      obtain ⟨imm, p, n, hw⟩ := hopen
      rw [ha] at hw
      cases hw
      rw [update_self]
      cases hlike
      exact ⟨_, _, _, rfl⟩
    · rw [update_of_ne hya]
      exact h.isOpen y hy
  · by_cases hba : b = a
    · rw [hba, update_self]
      exact Option.some_ne_none _
    · rw [update_of_ne hba]
      exact h.present b hb
  · by_cases hba : b = a
    · exact h.listed b (by rw [hba, ha]; exact Option.some_ne_none _)
    · rw [update_of_ne hba] at hb
      exact h.listed b hb
  · by_cases hba : b = a
    · subst hba
      rw [update_self] at hu ⊢
      cases hu
      cases hlike with
      | opened imm imm' p n p' n' c =>
        obtain ⟨x, imm'', hx⟩ := h.closed b hb _ ha
        rw [ha] at hx
        cases hx
      | closed imm imm' x x' => exact ⟨x', imm', rfl⟩
    · rw [update_of_ne hba] at hu ⊢
      exact h.closed b hb u hu
  · by_cases hfa : f = a
    · rw [hfa, update_self] at hf
      obtain ⟨u, hu⟩ := hus us (Option.some.inj hf) b hb
      exact hupval hu
    · rw [update_of_ne hfa] at hf
      obtain ⟨u, hu⟩ := h.captured f us hf b hb
      exact hupval hu

end Ktap.Vm
