import ReadingComment.Ktap.UpvalueMemory

/-!
# Open upvalues stay in order

`Books` says that the cells of memory hold the list of the open upvalues, in the order of
the slots from the top of the stack down, that the same upvalues are in the ring around
`uvhead`, and that all other objects are in `allgc`. There is one lemma for each function
that says what it does to the list.
-/

namespace Ktap.Vm

open Function Lib List

variable {ν : Type}

namespace UvState

/-! ## The books -/

/-- The cells of memory hold the lists. -/
structure Books (size : ℕ) (s : UvState ν) (l : List (ℕ × ℕ)) (m g : List ℕ) : Prop where
  contents : Contents size s.view l g
  opens : Linked s.openLink (l.map Prod.fst)
  ring : Ringed s.uvNext s.uvPrev m
  perm : m.Perm (l.map Prod.fst)
  gc : Linked s.gcLink g

theorem books_new (size : ℕ) (stack : ℕ → ν) : Books size (.new stack) [] [] [] where
  contents := {
    isOpen := nofun
    desc := .nil
    lt := nofun
    nodup := .nil
    present := nofun
    listed := fun _ ha => absurd rfl ha
    closed := nofun
    captured := fun _ _ hf => nomatch hf }
  opens := .nil rfl
  ring := .nil rfl rfl
  perm := .nil
  gc := .nil rfl

namespace Books

variable {size : ℕ} {s : UvState ν} {l : List (ℕ × ℕ)} {m g : List ℕ}

theorem openAt (h : Books size s l m g) {a c : ℕ} : s.OpenAt a c ↔ (a, c) ∈ l := by
  rw [openAt_iff, h.contents.mem_iff]

theorem inRing_head (h : Books size s l m g) : s.InRing s.headNext := by
  intro a ha
  have hmem : a ∈ m := mem_of_head? (h.ring.next.head.symm.trans ha)
  obtain ⟨x, hx, rfl⟩ := mem_map.mp (h.perm.mem_iff.mp hmem)
  exact ⟨x.2, h.openAt.mpr hx⟩

/-- What the loop of `findupval` ends with is right: the upvalue of the slot, or the cell behind
those of higher slots. -/
def SpotOf (l : List (ℕ × ℕ)) (slot : ℕ) : Spot → Prop
  | .found p => (p, slot) ∈ l
  | .before pp => ∃ a b, l = a ++ b ∧ pp = (a.map Prod.fst).getLast? ∧
      (∀ x ∈ a, slot < x.2) ∧ ∀ x ∈ b, x.2 < slot

theorem findSpot_from (h : Books size s l m g) (slot : ℕ) {a b : List (ℕ × ℕ)} (hl : l = a ++ b)
    (ha : ∀ x ∈ a, slot < x.2) {fuel : ℕ} (hfuel : b.length < fuel) :
    ∃ r, s.findSpot slot fuel (a.map Prod.fst).getLast? = .ok r ∧ SpotOf l slot r := by
  induction b generalizing a fuel with
  | nil =>
    obtain ⟨fuel, rfl⟩ := Nat.exists_eq_add_one.mpr hfuel
    have hlink : s.openLink (a.map Prod.fst).getLast? = none := h.opens _ [] (by rw [hl]; simp)
    exact ⟨.before _, by rw [findSpot, hlink], a, [], hl, rfl, ha, nofun⟩
  | cons x b ih =>
    obtain ⟨p, c⟩ := x
    obtain ⟨fuel, rfl⟩ := Nat.exists_eq_add_one.mpr (Nat.zero_lt_of_lt hfuel)
    have hlink : s.openLink (a.map Prod.fst).getLast? = some p :=
      h.opens _ (p :: b.map Prod.fst) (by rw [hl]; simp)
    have hmem : (p, c) ∈ l := by rw [hl]; simp
    obtain ⟨imm, q, n, hp⟩ := h.openAt.mpr hmem
    rw [findSpot, hlink]
    simp only [hp]
    split
    · rename_i hle
      split
      · rename_i hc
        exact ⟨_, rfl, hc ▸ hmem⟩
      · rename_i hc
        have hlast : ((a ++ [(p, c)]).map Prod.fst).getLast? = some p := by simp
        rw [← hlast]
        refine ih (by rw [hl]; simp) (fun x hx => ?_) (Nat.lt_of_succ_lt_succ hfuel)
        rcases mem_append.mp hx with hx | hx
        · exact ha x hx
        · obtain rfl := mem_singleton.mp hx
          exact Nat.lt_of_le_of_ne hle (Ne.symm hc)
    · rename_i hlt
      refine ⟨.before _, rfl, a, (p, c) :: b, hl, rfl, ha, fun x hx => ?_⟩
      have hdesc := h.contents.desc
      rw [hl, pairwise_append, pairwise_cons] at hdesc
      rcases mem_cons.mp hx with rfl | hx
      · exact Nat.lt_of_not_le hlt
      · exact Nat.lt_trans (hdesc.2.1.1 x hx) (Nat.lt_of_not_le hlt)

theorem findSpot_spec (h : Books size s l m g) (slot : ℕ) :
    ∃ r, s.findSpot slot (size + 1) none = .ok r ∧ SpotOf l slot r :=
  h.findSpot_from slot (nil_append l).symm nofun (Nat.lt_succ_of_le h.contents.length_le)

end Books

/-! ## A new open upvalue -/

section links

variable {s : UvState ν} {pp q : Option ℕ}

theorem openLink_setOpenLink :
    (s.setOpenLink pp q).openLink = update s.openLink pp q := by
  funext b
  cases pp with
  | none => cases b <;> rfl
  | some a =>
    cases b with
    | none => rfl
    | some b =>
      by_cases hb : b = a
      · subst hb
        rw [update_self]
        exact update_self ..
      · rw [update_of_ne (by simpa using hb)]
        exact update_of_ne hb ..

theorem gcLink_setOpenLink {b : Option ℕ} (h : b = none ∨ b ≠ pp) :
    (s.setOpenLink pp q).gcLink b = s.gcLink b := by
  cases pp with
  | none => cases b <;> rfl
  | some a =>
    cases b with
    | none => rfl
    | some b =>
      refine update_of_ne ?_ ..
      rintro rfl
      exact (h.resolve_left (Option.some_ne_none _)) rfl

@[simp] theorem view_setOpenLink : (s.setOpenLink pp q).view = s.view := by
  cases pp <;> rfl

@[simp] theorem stack_setOpenLink : (s.setOpenLink pp q).stack = s.stack := by
  cases pp <;> rfl

@[simp] theorem uvNext_setOpenLink : (s.setOpenLink pp q).uvNext = s.uvNext := by
  cases pp <;> rfl

@[simp] theorem uvPrev_setOpenLink : (s.setOpenLink pp q).uvPrev = s.uvPrev := by
  cases pp <;> rfl

@[simp] theorem headNext_setOpenLink : (s.setOpenLink pp q).headNext = s.headNext := by
  cases pp <;> rfl

end links

/-- What is neither an upvalue of a list nor at an address is as before. -/
structure Frame (s s' : UvState ν) (uv : ℕ) : Prop where
  stack : s'.stack = s.stack
  view : ∀ a, a ≠ uv → s'.view a = s.view a

namespace Books

variable {size : ℕ} {s : UvState ν} {m g : List ℕ}

theorem newUpval_spec {a b : List (ℕ × ℕ)} (h : Books size s (a ++ b) m g) {slot uv : ℕ}
    (hslot : slot < size) (huv : s.obj uv = none) (ha : ∀ x ∈ a, slot < x.2)
    (hb : ∀ x ∈ b, x.2 < slot) :
    ∃ s', s.newUpval slot (a.map Prod.fst).getLast? uv = .ok s' ∧
      Books size s' (a ++ (uv, slot) :: b) (uv :: m) g ∧ Frame s s' uv := by
  let o : Upval ν := ⟨false, none, .links none s.headNext, .slot slot⟩
  let pp := (a.map Prod.fst).getLast?
  let s₁ :=
    ((s.setObj uv (.upval o)).setOpenLink (some uv) (s.openLink pp)).setOpenLink pp (some uv)
  have hview : s.view uv = none := view_eq_none.mpr huv
  have hnot := h.contents.not_mem_of_none hview
  have hview₁ : s₁.view = update s.view uv (some (Obj.upval o).unlinked) := by
    simp only [s₁, view_setOpenLink, view_setObj]
  have hopen₁ : s₁.openLink =
      update (update s.openLink (some uv) (s.openLink pp)) pp (some uv) := by
    simp only [s₁, openLink_setOpenLink]
    rfl
  -- the two ends of the ring are linked
  have hin : s₁.InRing s.headNext := by
    intro c hc
    obtain ⟨d, hd⟩ := h.inRing_head c hc
    refine ⟨d, openAt_iff.mpr ?_⟩
    rw [hview₁, update_of_ne]
    · exact openAt_iff.mp hd
    · rintro rfl
      exact hnot.1 (mem_map_of_mem (h.openAt.mp hd))
  obtain ⟨s₂, hset₂, hre₂, hprev₂, hnext₂⟩ := setPrev_spec hin (some uv)
  obtain ⟨s₃, hset₃, hre₃, hprev₃, hnext₃⟩ := setNext_spec (s := s₂) (p := none) nofun (some uv)
  have hre := hre₂.trans hre₃
  have hrun : s.newUpval slot pp uv = .ok s₃ := by
    have hhead : s₁.headNext = s.headNext := by simp only [s₁, headNext_setOpenLink]; rfl
    have hset : s₁.setPrev s₁.headNext (some uv) = .ok s₂ := by rw [hhead]; exact hset₂
    change (s₁.setPrev s₁.headNext (some uv) >>= fun t => t.setNext none (some uv)) = _
    rw [hset]
    exact hset₃
  have hmem : uv ∉ (a ++ b).map Prod.fst := hnot.1
  have hpp : pp ≠ some uv := fun hpp => hmem (by
    rw [map_append]
    exact mem_append_left _ (mem_of_getLast? hpp))
  refine ⟨s₃, hrun, ⟨?_, ?_, ?_, ?_, ?_⟩, ?_, fun c hc => ?_⟩
  · rw [hre.view, hview₁]
    exact h.contents.insert hview ⟨none, none, none, rfl⟩ hslot ha hb
  · rw [hre.openLink, hopen₁, map_append, map_cons]
    have hopens := h.opens
    rw [map_append] at hopens hmem
    exact hopens.insert hmem (map_append ▸ h.contents.nodup_open)
  · have hpush := h.ring.push (fun hm => hmem (h.perm.mem_iff.mp hm))
      (h.perm.nodup_iff.mpr h.contents.nodup_open)
    have hprev₁ : s₁.uvPrev = update s.uvPrev (some uv) none := by
      simp only [s₁, uvPrev_setOpenLink, uvPrev_setObj]
      rfl
    have hnext₁ : s₁.uvNext = update s.uvNext (some uv) (s.uvNext none) := by
      simp only [s₁, uvNext_setOpenLink, uvNext_setObj]
      rfl
    rw [hprev₃, hprev₂, hnext₃, hnext₂, hprev₁, hnext₁]
    exact hpush
  · rw [map_append, map_cons]
    exact ((h.perm.cons uv).trans (by rw [map_append])).trans perm_middle.symm
  · rw [hre.gcLink]
    refine h.gc.congr ?_ fun c hc => ?_
    · simp only [s₁]
      rw [gcLink_setOpenLink (.inl rfl), gcLink_setOpenLink (.inl rfl)]
      rfl
    · have hcuv : some c ≠ some uv := by
        rintro heq
        exact hnot.2 (Option.some.inj heq ▸ hc)
      have hcpp : some c ≠ pp := by
        rintro heq
        have hca : c ∈ (a ++ b).map Prod.fst := by
          rw [map_append]
          exact mem_append_left _ (mem_of_getLast? heq.symm)
        exact h.contents.not_mem hca hc
      simp only [s₁]
      rw [gcLink_setOpenLink (.inr hcpp), gcLink_setOpenLink (.inr hcuv)]
      rfl
  · rw [hre.stack]
    simp only [s₁, stack_setOpenLink]
    rfl
  · rw [hre.view, hview₁, update_of_ne hc]

end Books

/-- The three outcomes of `findupval`. -/
inductive Finds (size : ℕ) (s : UvState ν) (l : List (ℕ × ℕ)) (m g : List ℕ) (slot : ℕ) :
    Option ℕ → Option ℕ → UvState ν → Prop where
  | found {grant : Option ℕ} {p : ℕ} (hp : (p, slot) ∈ l) : Finds size s l m g slot grant (some p) s
  /-- `kp_malloc` fails -/
  | null (hno : ∀ p, (p, slot) ∉ l) : Finds size s l m g slot none none s
  | new {a b : List (ℕ × ℕ)} {uv : ℕ} {s' : UvState ν} (hl : l = a ++ b)
    (hbooks : Books size s' (a ++ (uv, slot) :: b) (uv :: m) g) (hframe : Frame s s' uv)
    (hno : ∀ p, (p, slot) ∉ l) : Finds size s l m g slot (some uv) (some uv) s'

namespace Books

variable {size : ℕ} {s : UvState ν} {l : List (ℕ × ℕ)} {m g : List ℕ}

theorem findupval_spec (h : Books size s l m g) {slot : ℕ} (hslot : slot < size)
    {grant : Option ℕ} (hgrant : ∀ uv, grant = some uv → s.obj uv = none) :
    ∃ r s', s.findupval size slot grant = .ok (r, s') ∧ Finds size s l m g slot grant r s' := by
  obtain ⟨r, hr, hspot⟩ := h.findSpot_spec slot
  cases r with
  | found p =>
    exact ⟨some p, s, by rw [findupval, hr]; rfl, .found hspot⟩
  | before pp =>
    obtain ⟨a, b, rfl, rfl, ha, hb⟩ := hspot
    have hno : ∀ p, (p, slot) ∉ a ++ b := by
      intro p hp
      rcases mem_append.mp hp with hp | hp
      · exact Nat.lt_irrefl _ (ha _ hp)
      · exact Nat.lt_irrefl _ (hb _ hp)
    cases grant with
    | none => exact ⟨none, s, by rw [findupval, hr]; rfl, .null hno⟩
    | some uv =>
      obtain ⟨s', hnew, hbooks, hframe⟩ := h.newUpval_spec hslot (hgrant uv rfl) ha hb
      refine ⟨some uv, s', ?_, .new rfl hbooks hframe hno⟩
      rw [findupval, hr]
      change (s.newUpval slot _ uv >>= fun t => .ok (some uv, t)) = _
      rw [hnew]
      rfl

/-! ## Closing -/

end Books

section

variable {size : ℕ} {s : UvState ν} {l : List (ℕ × ℕ)} {m g : List ℕ} (h : Contents size s.view l g)
  (hm : m.Perm (l.map Prod.fst))

include h hm

theorem inRing_of_mem {p : Option ℕ} (hp : ∀ a, p = some a → a ∈ m) : s.InRing p := by
  intro a ha
  obtain ⟨x, hx, rfl⟩ := mem_map.mp (hm.mem_iff.mp (hp a ha))
  exact ⟨x.2, openAt_iff.mpr (h.isOpen x hx)⟩

theorem unlinkupval_spec (hring : Ringed s.uvNext s.uvPrev m) {a c : ℕ} (ha : (a, c) ∈ l) :
    ∃ s' u v, s.unlinkupval a = .ok s' ∧ Relinks s s' ∧ m = u ++ a :: v ∧
      Ringed s'.uvNext s'.uvPrev (u ++ v) := by
  obtain ⟨u, v, rfl⟩ := append_of_mem (hm.mem_iff.mpr (mem_map_of_mem ha))
  obtain ⟨imm, p, n, hupval⟩ := openAt_iff.mpr (h.isOpen (a, c) ha)
  have hnodup := hm.nodup_iff.mpr h.nodup_open
  have hn : s.uvNext (some a) = n := by rw [uvNext, hupval]; rfl
  have hnext : n = v.head? := hn ▸ hring.next.node
  have hprev : s.uvPrev (some a) = u.getLast? := hring.prev_node
  have hna : n ≠ some a := by
    rw [hnext]
    intro hv
    exact (nodup_cons.mp hnodup.of_append_right).1 (mem_of_head? hv)
  have hinNext : s.InRing n := inRing_of_mem h hm fun b hb =>
    mem_append_right _ (mem_cons_of_mem _ (mem_of_head? (hnext ▸ hb)))
  have hinPrev : s.InRing (s.uvPrev (some a)) := inRing_of_mem h hm fun b hb =>
    mem_append_left _ (mem_of_getLast? (hprev ▸ hb))
  obtain ⟨s₁, hset₁, hre₁, hprev₁, hnext₁⟩ := setPrev_spec hinNext (s.uvPrev (some a))
  have hprev₁a : s₁.uvPrev (some a) = s.uvPrev (some a) := by
    rw [hprev₁, update_of_ne hna.symm]
  have hinPrev₁ : s₁.InRing (s₁.uvPrev (some a)) := by
    intro b hb
    obtain ⟨d, hd⟩ := hinPrev b (hprev₁a ▸ hb)
    exact ⟨d, hre₁.openAt.mpr hd⟩
  obtain ⟨s₂, hset₂, hre₂, hprev₂, hnext₂⟩ := setNext_spec hinPrev₁ (s₁.uvNext (some a))
  refine ⟨s₂, u, v, ?_, hre₁.trans hre₂, rfl, ?_⟩
  · rw [unlinkupval, hupval]
    change (s.setPrev n _ >>= fun t => t.setNext (t.uvPrev (some a)) (t.uvNext (some a))) = _
    rw [hset₁]
    exact hset₂
  · rw [hprev₂, hnext₂, hprev₁a, hprev₁, hnext₁, ← hn]
    exact hring.remove hnodup

end

section linkGc

variable {s : UvState ν} {o : ℕ}

@[simp] theorem view_linkGc : (s.linkGc o).view = s.view := rfl

theorem gcLink_linkGc : (s.linkGc o).gcLink =
    update (update s.gcLink (some o) s.allgc) none (some o) := by
  funext b
  cases b with
  | none => rfl
  | some b =>
    rw [update_of_ne (Option.some_ne_none b)]
    by_cases hb : b = o
    · subst hb
      rw [update_self]
      exact update_self ..
    · rw [update_of_ne (by simpa using hb)]
      exact update_of_ne hb ..

theorem openLink_linkGc {b : Option ℕ} (h : b ≠ some o) :
    (s.linkGc o).openLink b = s.openLink b := by
  cases b with
  | none => rfl
  | some b =>
    refine update_of_ne ?_ ..
    rintro rfl
    exact h rfl

end linkGc

namespace Books

variable {size : ℕ} {s : UvState ν} {l : List (ℕ × ℕ)} {m g : List ℕ}

theorem closeFirst_spec {a c : ℕ} (h : Books size s ((a, c) :: l) m g) :
    ∃ s' m', s.closeFirst a = .ok s' ∧ Books size s' l m' (a :: g) ∧ Frame s s' a ∧
      s'.ClosedAt a (s.stack c) := by
  let s₁ := s.setOpenLink none (s.openLink (some a))
  obtain ⟨s₂, u, v, hrun₂, hre, rfl, hring⟩ := unlinkupval_spec (s := s₁) h.contents h.perm h.ring
    mem_cons_self
  have hal : a ∉ l.map Prod.fst := (nodup_cons.mp h.contents.nodup_open).1
  have hag : a ∉ g := h.contents.not_mem mem_cons_self
  have hperm : (u ++ v).Perm (l.map Prod.fst) :=
    (perm_cons a).mp (perm_middle.symm.trans h.perm)
  obtain ⟨imm, p, n, hopen⟩ : s₂.OpenAt a c := hre.openAt.mpr (openAt_iff.mpr
    (h.contents.isOpen (a, c) mem_cons_self))
  let o : Upval ν := ⟨true, imm, .tv (s.stack c), .own⟩
  let s₃ := (s₂.setObj a (.upval o)).linkGc a
  have hview : s₃.view = update s.view a (some (.upval o)) := by
    simp only [s₃, view_linkGc, view_setObj, hre.view]
    rfl
  refine ⟨s₃, u ++ v, ?_, ⟨?_, ?_, ?_, hperm, ?_⟩, ⟨?_, fun b hb => ?_⟩, imm, ?_⟩
  · have hstack : s₂.stack c = s.stack c := congrFun hre.stack c
    rw [closeFirst]
    change (s₁.unlinkupval a >>= _) = _
    rw [hrun₂]
    dsimp only [bind, Except.bind]
    rw [hopen]
    change Except.ok _ = _
    rw [hstack]
  · rw [hview]
    exact h.contents.close ⟨imm, rfl⟩
  · have hpop := h.opens.pop h.contents.nodup_open
    refine hpop.congr ?_ fun b hb => ?_
    · rw [update_self]
      exact congrFun hre.openLink none
    · have hba : some b ≠ some a := by
        rintro heq
        exact hal (Option.some.inj heq ▸ hb)
      rw [update_of_ne (Option.some_ne_none b), openLink_linkGc hba]
      exact congrFun hre.openLink (some b)
  · refine hring.congr ⟨rfl, rfl⟩ fun b hb => ?_
    have hba : some b ≠ some a := by
      rintro heq
      exact hal (hperm.mem_iff.mp (Option.some.inj heq ▸ hb))
    constructor
    · change (s₂.setObj a (.upval o)).uvNext (some b) = _
      rw [uvNext_setObj, update_of_ne hba]
    · change (s₂.setObj a (.upval o)).uvPrev (some b) = _
      rw [uvPrev_setObj, update_of_ne hba]
  · have hgc : (s₂.setObj a (.upval o)).gcLink = s.gcLink := hre.gcLink
    have hall : (s₂.setObj a (.upval o)).allgc = s.gcLink none := hre.allgc
    rw [gcLink_linkGc, hgc, hall]
    exact h.gc.push hag h.contents.nodup
  · exact hre.stack
  · rw [hview, update_of_ne hb]
  · exact upval_setObj_self

theorem closeAll_spec (h : Books size s l m g) (level : ℕ) {fuel : ℕ} (hfuel : l.length < fuel) :
    ∃ s' a b m' g', closeAll level fuel s = .ok s' ∧ l = a ++ b ∧ Books size s' b m' g' ∧
      (∀ x ∈ a, level ≤ x.2) ∧ (∀ x ∈ b, x.2 < level) ∧ s'.stack = s.stack ∧
      (∀ x ∈ a, s'.ClosedAt x.1 (s.stack x.2)) ∧
      ∀ q, q ∉ a.map Prod.fst → s'.view q = s.view q := by
  induction l generalizing s m g fuel with
  | nil =>
    obtain ⟨fuel, rfl⟩ := Nat.exists_eq_add_one.mpr hfuel
    have hhead : s.openupval = none := h.opens.head
    exact ⟨s, [], [], m, g, by rw [closeAll, hhead], rfl, h, nofun, nofun, rfl, nofun,
      fun _ _ => rfl⟩
  | cons x l ih =>
    obtain ⟨p, c⟩ := x
    obtain ⟨fuel, rfl⟩ := Nat.exists_eq_add_one.mpr (Nat.zero_lt_of_lt hfuel)
    have hhead : s.openupval = some p := h.opens.head
    obtain ⟨imm, q, n, hp⟩ := h.openAt.mpr mem_cons_self
    have hrun : closeAll level (fuel + 1) s =
        if level ≤ c then s.closeFirst p >>= closeAll level fuel else .ok s := by
      rw [closeAll, hhead]
      simp only [hp]
    have hpl : p ∉ l.map Prod.fst := (nodup_cons.mp h.contents.nodup_open).1
    by_cases hle : level ≤ c
    · obtain ⟨s₁, m₁, hclose, hbooks₁, hframe, hclosed⟩ := h.closeFirst_spec
      obtain ⟨s', a, b, m', g', hrest, rfl, hbooks, ha, hb, hstack, hval, hview⟩ :=
        ih hbooks₁ (Nat.lt_of_succ_lt_succ hfuel)
      have hpa : p ∉ a.map Prod.fst := by
        rw [map_append] at hpl
        exact fun hmem => hpl (mem_append_left _ hmem)
      refine ⟨s', (p, c) :: a, b, m', g', ?_, rfl, hbooks, ?_, hb, hstack.trans hframe.stack, ?_,
        fun q hq => ?_⟩
      · rw [hrun, if_pos hle, hclose]
        exact hrest
      · exact forall_mem_cons.mpr ⟨hle, ha⟩
      · refine forall_mem_cons.mpr ⟨?_, fun x hx => ?_⟩
        · exact closedAt_iff.mpr (hview p hpa ▸ closedAt_iff.mp hclosed)
        · rw [← hframe.stack]
          exact hval x hx
      · rw [map_cons, mem_cons, not_or] at hq
        rw [hview q hq.2, hframe.view q hq.1]
    · refine ⟨s, [], (p, c) :: l, m, g, by rw [hrun, if_neg hle], rfl, h, nofun, ?_, rfl, nofun,
        fun _ _ => rfl⟩
      refine forall_mem_cons.mpr ⟨Nat.lt_of_not_le hle, fun x hx => ?_⟩
      exact Nat.lt_trans ((pairwise_cons.mp h.contents.desc).1 x hx) (Nat.lt_of_not_le hle)

/-! ## Stores in objects -/

theorem setObj (h : Books size s l m g) {a : ℕ} {o o' : Obj ν} (ha : s.view a = some o)
    (hal : a ∉ l.map Prod.fst) (hlike : o.Like o'.unlinked)
    (hus : ∀ us, o'.unlinked = .func us → ∀ b ∈ us, ∃ uv, s.view b = some (.upval uv)) :
    Books size (s.setObj a o') l m g := by
  refine ⟨?_, h.opens, h.ring.congr ⟨rfl, rfl⟩ fun b hb => ?_, h.perm, h.gc⟩
  · rw [view_setObj]
    exact h.contents.set ha hlike hus
  · have hba : b ≠ a := by
      rintro rfl
      exact hal (h.perm.mem_iff.mp hb)
    constructor
    · rw [uvNext, uvNext, upval_setObj_of_ne hba]
    · rw [uvPrev, uvPrev, upval_setObj_of_ne hba]

theorem setImmutable (h : Books size s l m g) {a c : ℕ} (ha : (a, c) ∈ l) (b : Bool) :
    Books size (s.setImmutable a b) l m g ∧ Frame s (s.setImmutable a b) a := by
  obtain ⟨imm, p, n, hopen⟩ := h.openAt.mpr ha
  have heq : s.setImmutable a b = s.setObj a (.upval ⟨false, some b, .links p n, .slot c⟩) := by
    rw [UvState.setImmutable, hopen]
  rw [heq]
  refine ⟨⟨?_, h.opens, ?_, h.perm, h.gc⟩, rfl, fun d hd => ?_⟩
  · rw [view_setObj]
    exact h.contents.set (view_upval.mpr ⟨_, hopen, rfl⟩) (.opened ..) nofun
  · rw [uvNext_setObj, uvPrev_setObj]
    have hn : update s.uvNext (some a) n = s.uvNext := by
      rw [update_eq_self_iff, uvNext, hopen]
      rfl
    have hp : update s.uvPrev (some a) p = s.uvPrev := by
      rw [update_eq_self_iff, uvPrev, hopen]
      rfl
    change Ringed (update s.uvNext (some a) n) (update s.uvPrev (some a) p) m
    rw [hn, hp]
    exact h.ring
  · rw [view_setObj, update_of_ne hd]

theorem addUpval (h : Books size s l m g) {fn : ℕ} {us : List ℕ} (hfn : s.upvals fn = some us)
    {a : ℕ} {uv : Upval ν} (ha : s.view a = some (.upval uv)) :
    Books size (s.addUpval fn a) l m g ∧ Frame s (s.addUpval fn a) fn ∧
      (s.addUpval fn a).upvals fn = some (us ++ [a]) := by
  have hview := view_func.mpr hfn
  have heq : s.addUpval fn a = s.setObj fn (.func (us ++ [a])) := by
    rw [UvState.addUpval, hfn]
  rw [heq]
  refine ⟨h.setObj hview ?_ (.func ..) ?_, ⟨rfl, fun d hd => ?_⟩, ?_⟩
  · intro hmem
    obtain ⟨x, hx, rfl⟩ := mem_map.mp hmem
    obtain ⟨imm, p, n, hopen⟩ := h.contents.isOpen x hx
    rw [hopen] at hview
    cases hview
  · rintro us' ⟨rfl⟩ b hb
    rcases mem_append.mp hb with hb | hb
    · exact h.contents.captured fn us hview b hb
    · exact ⟨uv, mem_singleton.mp hb ▸ ha⟩
  · rw [view_setObj, update_of_ne hd]
  · rw [upvals_eq, obj_setObj, update_self]

end Books

end UvState

end Ktap.Vm
