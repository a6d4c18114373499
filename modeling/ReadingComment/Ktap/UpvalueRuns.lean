import ReadingComment.Ktap.OpenUpvals

/-!
# Runs with upvalues

The loop of `func_new` keeps the books as `findupval` does, whether or not an allocation
fails; the stores between the calls change no list. So the books are kept in every state
that a run of a thread reaches, and what they say of `findupval` and `func_closeuv` holds
there.
-/

namespace Ktap.Vm

open Function Lib List

variable {ν : Type}

namespace UvState

namespace Books

variable {size : ℕ} {s : UvState ν} {l : List (ℕ × ℕ)} {m g : List ℕ}

/-! ## New objects -/

theorem objNew (h : Books size s l m g) {o : ℕ} {x : Obj ν} (ho : s.obj o = none)
    (hx : x = .func [] ∨ x = .other) :
    Books size (s.objNew o x) l m (o :: g) ∧ Frame s (s.objNew o x) o := by
  have hview : s.view o = none := view_eq_none.mpr ho
  have hnot := h.contents.not_mem_of_none hview
  have hunlinked : x.unlinked = x := by rcases hx with rfl | rfl <;> rfl
  have hne : ∀ {b : ℕ}, b ∈ l.map Prod.fst → b ≠ o := by
    rintro b hb rfl
    exact hnot.1 hb
  refine ⟨⟨?_, ?_, ?_, h.perm, ?_⟩, rfl, fun d hd => ?_⟩
  · rw [UvState.objNew, view_linkGc, view_setObj, hunlinked]
    exact h.contents.new hview hx
  · refine h.opens.congr rfl fun b hb => ?_
    exact openLink_linkGc fun heq => hne hb (Option.some.inj heq)
  · refine h.ring.congr ⟨rfl, rfl⟩ fun b hb => ?_
    have hbo : b ≠ o := hne (h.perm.mem_iff.mp hb)
    constructor
    · change (s.setObj o x).uvNext (some b) = _
      rw [uvNext, uvNext, upval_setObj_of_ne hbo]
    · change (s.setObj o x).uvPrev (some b) = _
      rw [uvPrev, uvPrev, upval_setObj_of_ne hbo]
  · have hgc : (s.setObj o x).gcLink = s.gcLink := rfl
    rw [UvState.objNew, gcLink_linkGc, hgc]
    exact h.gc.push hnot.2 h.contents.nodup
  · rw [UvState.objNew, view_linkGc, view_setObj, update_of_ne hd]

end Books

/-- What is kept while a function is made: functions lose no upvalues, and only the addresses that
`kp_malloc` gave are taken. -/
structure Keeps (s s' : UvState ν) (new : List ℕ) : Prop where
  stack : s'.stack = s.stack
  upvals : ∀ f us, s.upvals f = some us → ∃ us', s'.upvals f = some us' ∧ us.length ≤ us'.length
  free : ∀ a, a ∉ new → s.obj a = none → s'.obj a = none

namespace Keeps

variable {s s₁ s₂ : UvState ν} {new new' : List ℕ}

theorem refl (s : UvState ν) : Keeps s s [] :=
  ⟨rfl, fun _ us h => ⟨us, h, Nat.le_refl _⟩, fun _ _ h => h⟩

theorem trans (h : Keeps s s₁ new) (h' : Keeps s₁ s₂ new') : Keeps s s₂ (new ++ new') := by
  refine ⟨h'.stack.trans h.stack, fun f us hf => ?_, fun a ha hnone => ?_⟩
  · obtain ⟨us₁, hf₁, hle₁⟩ := h.upvals f us hf
    obtain ⟨us₂, hf₂, hle₂⟩ := h'.upvals f us₁ hf₁
    exact ⟨us₂, hf₂, Nat.le_trans hle₁ hle₂⟩
  · rw [mem_append, not_or] at ha
    exact h'.free a ha.2 (h.free a ha.1 hnone)

theorem of_frame {a : ℕ} (h : Frame s s₁ a) (hno : s.upvals a = none)
    (hnew : s.obj a = none → a ∈ new) : Keeps s s₁ new := by
  refine ⟨h.stack, fun f us hf => ⟨us, ?_, Nat.le_refl _⟩, fun b hb hnone => ?_⟩
  · rw [← view_func, h.view f (by rintro rfl; rw [hno] at hf; cases hf), view_func]
    exact hf
  · rw [← view_eq_none, h.view b (by rintro rfl; exact hb (hnew hnone)), view_eq_none]
    exact hnone

theorem upvals_of_upval {uv : Upval ν} {a : ℕ} (h : s.upval a = some uv) : s.upvals a = none := by
  rw [UvState.upvals, upval_eq.mp h]

end Keeps

namespace Books

variable {size : ℕ} {s : UvState ν} {l : List (ℕ × ℕ)} {m g : List ℕ}

theorem findupval_keeps (h : Books size s l m g) {slot : ℕ} (hslot : slot < size)
    (grant : Option ℕ) (hgrant : ∀ uv, grant = some uv → s.obj uv = none) :
    ∃ r s', s.findupval size slot grant = .ok (r, s') ∧ Keeps s s' grant.toList ∧
      ∃ l' m', Books size s' l' m' g ∧ ∀ uv, r = some uv → (uv, slot) ∈ l' := by
  obtain ⟨r, s', hrun, hfinds⟩ := h.findupval_spec hslot hgrant
  have hself : Keeps s s grant.toList :=
    ⟨rfl, (Keeps.refl s).upvals, fun _ _ hnone => hnone⟩
  refine ⟨r, s', hrun, ?_⟩
  cases hfinds with
  | found hp =>
    refine ⟨hself, l, m, h, ?_⟩
    rintro uv ⟨rfl⟩
    exact hp
  | null hno => exact ⟨hself, l, m, h, nofun⟩
  | @new a b uv s' hl hbooks hframe hno =>
    refine ⟨.of_frame hframe ?_ fun _ => ?_, _, _, hbooks, ?_⟩
    · rw [UvState.upvals, hgrant uv rfl]
    · simp
    · rintro uv ⟨rfl⟩
      simp

theorem addUpval_keeps (h : Books size s l m g) {fn : ℕ} {us : List ℕ}
    (hfn : s.upvals fn = some us) {a : ℕ} {uv : Upval ν} (ha : s.view a = some (.upval uv)) :
    Books size (s.addUpval fn a) l m g ∧ Keeps s (s.addUpval fn a) [] := by
  obtain ⟨hbooks, hframe, hadd⟩ := h.addUpval hfn ha
  refine ⟨hbooks, hframe.stack, fun f us' hf => ?_, fun b _ hnone => ?_⟩
  · by_cases hffn : f = fn
    · subst hffn
      obtain rfl := Option.some.inj (hfn.symm.trans hf)
      exact ⟨_, hadd, by simp⟩
    · refine ⟨us', ?_, Nat.le_refl _⟩
      rw [← view_func, hframe.view f hffn, view_func]
      exact hf
  · have hbfn : b ≠ fn := by
      rintro rfl
      rw [upvals_eq, hnone] at hfn
      cases hfn
    rw [← view_eq_none, hframe.view b hbfn, view_eq_none]
    exact hnone

/-- The upvalues that `func_new` takes from the parent are there. -/
def FromParent (s : UvState ν) (parent : ℕ) (vs : List ℕ) : Prop :=
  ∀ v ∈ vs, isLocal v = false → ∃ us, s.upvals parent = some us ∧ v < us.length

theorem FromParent.keeps {s' : UvState ν} {parent : ℕ} {vs new : List ℕ}
    (h : FromParent s parent vs) (hk : Keeps s s' new) : FromParent s' parent vs := by
  intro v hv hloc
  obtain ⟨us, hus, hlt⟩ := h v hv hloc
  obtain ⟨us', hus', hle⟩ := hk.upvals parent us hus
  exact ⟨us', hus', Nat.lt_of_lt_of_le hlt hle⟩

/-- **The loop of `func_new`.** -/
theorem fillUpvals_spec (h : Books size s l m g) {fn parent base : ℕ} {vs : List (ℕ × Option ℕ)}
    {us : List ℕ} (hfn : s.upvals fn = some us) (hparent : FromParent s parent (vs.map Prod.fst))
    (hslot : ∀ v ∈ vs.map Prod.fst, isLocal v = true → base + v % 256 < size)
    (hfresh : s.Fresh (vs.filterMap Prod.snd)) :
    ∃ r s', fillUpvals size fn parent base vs s = .ok (r, s') ∧
      ∃ l' m', Books size s' l' m' g := by
  induction vs generalizing s l m us with
  | nil => exact ⟨true, s, rfl, l, m, h⟩
  | cons x vs ih =>
    obtain ⟨v, grant⟩ := x
    rw [map_cons, forall_mem_cons] at hslot
    have hparentv := hparent v mem_cons_self
    have hparentvs : FromParent s parent (vs.map Prod.fst) := fun u hu =>
      hparent u (mem_cons_of_mem _ hu)
    have hgrants : (((v, grant) :: vs).filterMap Prod.snd) =
        grant.toList ++ vs.filterMap Prod.snd := by
      cases grant <;> rfl
    rw [Fresh, hgrants] at hfresh
    obtain ⟨hnodup, hfree⟩ := hfresh
    have hrest : ∀ {s'}, Keeps s s' grant.toList → s'.Fresh (vs.filterMap Prod.snd) := by
      intro s' hk
      refine ⟨hnodup.of_append_right, fun a ha => hk.free a ?_ (hfree a (mem_append_right _ ha))⟩
      exact fun hmem => (nodup_append.mp hnodup).2.2 a hmem a ha rfl
    cases hloc : isLocal v with
    | true =>
      obtain ⟨r, s₁, hrun, hk₁, l₁, m₁, hbooks₁, hr⟩ := h.findupval_keeps (hslot.1 hloc)
        grant (fun uv huv => hfree uv (by rw [huv]; simp))
      cases r with
      | none => exact ⟨false, s₁, by rw [fillUpvals, if_pos hloc, hrun]; rfl, l₁, m₁, hbooks₁⟩
      | some uv =>
        have hmem := hr uv rfl
        obtain ⟨hbooks₂, hframe₂⟩ := hbooks₁.setImmutable hmem (v / protoUvImmutable % 2 = 1)
        obtain ⟨imm, p, n, huv⟩ := hbooks₁.openAt.mpr hmem
        have hk₂ : Keeps s₁ _ [] := .of_frame hframe₂ (Keeps.upvals_of_upval huv) fun hnone => by
          rw [upval_eq, hnone] at huv
          cases huv
        have hk := hk₁.trans hk₂
        obtain ⟨us₂, hfn₂, -⟩ := hk.upvals fn us hfn
        obtain ⟨imm', p', n', huv₂⟩ := hbooks₂.openAt.mpr hmem
        obtain ⟨hbooks₃, hk₃⟩ := hbooks₂.addUpval_keeps hfn₂ (view_upval.mpr ⟨_, huv₂, rfl⟩)
        have hk' := hk.trans hk₃
        rw [append_nil, append_nil] at hk'
        obtain ⟨us₃, hfn₃, -⟩ := hk'.upvals fn us hfn
        obtain ⟨r', s', hrun', hbooks'⟩ := ih hbooks₃ hfn₃ (hparentvs.keeps hk') hslot.2 (hrest hk')
        refine ⟨r', s', ?_, hbooks'⟩
        rw [fillUpvals, if_pos hloc, hrun]
        exact hrun'
    | false =>
      obtain ⟨ups, hups, hlt⟩ := hparentv hloc
      obtain ⟨uv, huv⟩ := h.contents.captured parent ups (view_func.mpr hups) ups[v]
        (getElem_mem hlt)
      obtain ⟨hbooks₁, hk₁⟩ := h.addUpval_keeps hfn huv
      obtain ⟨us₁, hfn₁, -⟩ := hk₁.upvals fn us hfn
      have hk : Keeps s _ grant.toList :=
        ⟨hk₁.stack, hk₁.upvals, fun a _ hnone => hk₁.free a (by rintro ⟨⟩) hnone⟩
      obtain ⟨r', s', hrun', hbooks'⟩ := ih hbooks₁ hfn₁ (hparentvs.keeps hk) hslot.2 (hrest hk)
      refine ⟨r', s', ?_, hbooks'⟩
      rw [fillUpvals, if_neg (by rw [hloc]; exact Bool.false_ne_true), hups]
      dsimp only [Option.bind_some]
      rw [getElem?_eq_getElem hlt]
      exact hrun'

theorem funcNew_spec (h : Books size s l m g) {vs : List (ℕ × Option ℕ)} {parent base : ℕ}
    {grant : Option ℕ} (ha : s.Allowed size (.funcNew vs parent base grant)) :
    ∃ r s', s.funcNew size vs parent base grant = .ok (r, s') ∧
      ∃ l' m' g', Books size s' l' m' g' := by
  obtain ⟨⟨hnodup, hfree⟩, hv⟩ := ha
  cases grant with
  | none => exact ⟨none, s, rfl, l, m, g, h⟩
  | some fn =>
    have hfn : s.obj fn = none := hfree fn (by simp)
    obtain ⟨hbooks, hframe⟩ := h.objNew hfn (.inl rfl)
    have hk : Keeps s (s.objNew fn (.func [])) [fn] :=
      .of_frame hframe (by rw [UvState.upvals, hfn]) fun _ => by simp
    have hups : (s.objNew fn (.func [])).upvals fn = some [] := by
      rw [upvals_eq]
      exact update_self ..
    have hparent : FromParent s parent (vs.map Prod.fst) := by
      intro v hmem hloc
      have hsome := hv v hmem
      rw [hloc, if_neg Bool.false_ne_true, Option.isSome_iff_exists] at hsome
      obtain ⟨uv, huv⟩ := hsome
      obtain ⟨us, hus, hget⟩ := Option.bind_eq_some_iff.mp huv
      exact ⟨us, hus, (List.getElem?_eq_some_iff.mp hget).1⟩
    have hslot : ∀ v ∈ vs.map Prod.fst, isLocal v = true → base + v % 256 < size := by
      intro v hmem hloc
      have hlt := hv v hmem
      rwa [if_pos hloc] at hlt
    have hfresh : (s.objNew fn (.func [])).Fresh (vs.filterMap Prod.snd) := by
      rw [Option.toList_some, singleton_append, nodup_cons] at hnodup
      refine ⟨hnodup.2, fun a hmem => hk.free a ?_ (hfree a (mem_append_right _ hmem))⟩
      intro heq
      exact hnodup.1 (mem_singleton.mp heq ▸ hmem)
    obtain ⟨r, s', hrun, l', m', hbooks'⟩ :=
      hbooks.fillUpvals_spec hups (hparent.keeps hk) hslot hfresh
    refine ⟨if r then some fn else none, s', ?_, l', m', _, hbooks'⟩
    rw [funcNew, hrun]
    rfl

theorem setUpval_spec (h : Books size s l m g) {fn i : ℕ} {x : ν}
    (ha : s.Allowed size (.setUpval fn i x)) :
    ∃ s', s.setUpval fn i x = .ok s' ∧ Books size s' l m g := by
  rw [Allowed, Option.isSome_iff_exists] at ha
  obtain ⟨a, hbind⟩ := ha
  obtain ⟨us, hus, hget⟩ := Option.bind_eq_some_iff.mp hbind
  obtain ⟨uv, hview⟩ := h.contents.captured fn us (view_func.mpr hus) a (mem_of_getElem? hget)
  rcases h.contents.listed a (by rw [hview]; exact Option.some_ne_none _) with hl | hg
  · obtain ⟨⟨b, c⟩, hmem, rfl⟩ := mem_map.mp hl
    obtain ⟨imm, p, n, hopen⟩ := h.openAt.mpr hmem
    refine ⟨{ s with stack := update s.stack c x }, ?_,
      ⟨h.contents, h.opens, h.ring, h.perm, h.gc⟩⟩
    rw [UvState.setUpval, hbind]
    simp only [hopen]
  · obtain ⟨y, hclosed⟩ := h.contents.closed a hg uv hview
    obtain ⟨imm, ha⟩ := closedAt_iff.mpr hclosed
    refine ⟨s.setObj a (.upval ⟨true, imm, .tv x, .own⟩), ?_,
      h.setObj (view_upval.mpr ⟨_, ha, rfl⟩) (fun hl => h.contents.not_mem hl hg)
        (.closed ..) nofun⟩
    rw [UvState.setUpval, hbind]
    simp only [ha]

/-- **A call** goes right, and keeps the books. -/
theorem call_spec (h : Books size s l m g) {a : UvCall ν} (ha : s.Allowed size a) :
    ∃ s', s.call size a = .ok s' ∧ ∃ l' m' g', Books size s' l' m' g' := by
  cases a with
  | findupval slot grant =>
    obtain ⟨hslot, hnodup, hfree⟩ := ha
    obtain ⟨r, s', hrun, -, l', m', hbooks, -⟩ := h.findupval_keeps hslot grant
      (fun uv huv => hfree uv (by rw [huv]; simp))
    exact ⟨s', by rw [call, hrun]; rfl, l', m', g, hbooks⟩
  | funcNew vs parent base grant =>
    obtain ⟨r, s', hrun, hbooks⟩ := h.funcNew_spec ha
    exact ⟨s', by rw [call, hrun]; rfl, hbooks⟩
  | funcCloseuv level =>
    obtain ⟨s', a, b, m', g', hrun, -, hbooks, -⟩ :=
      h.closeAll_spec level (Nat.lt_succ_of_le h.contents.length_le)
    exact ⟨s', hrun, b, m', g', hbooks⟩
  | objNew o => exact ⟨_, rfl, l, m, _, (h.objNew (ha.2 o (by simp)) (.inr rfl)).1⟩
  | store c x => exact ⟨_, rfl, l, m, g, h.contents, h.opens, h.ring, h.perm, h.gc⟩
  | setUpval fn i x =>
    obtain ⟨s', hrun, hbooks⟩ := h.setUpval_spec ha
    exact ⟨s', hrun, l, m, g, hbooks⟩

end Books

/-! ## What holds in every run -/

theorem exists_books {size : ℕ} {stack : ℕ → ν} {s : UvState ν}
    (h : (upvalues size stack).Reach (fun _ _ => True) s) : ∃ l m g, Books size s l m g := by
  induction h with
  | init => exact ⟨[], [], [], books_new size stack⟩
  | step _ ha _ hstep ih =>
    obtain ⟨l, m, g, hbooks⟩ := ih
    obtain ⟨s'', hrun, hbooks'⟩ := hbooks.call_spec ha
    obtain rfl := Except.ok.inj (hstep.symm.trans hrun)
    exact hbooks'

/-- The list of open upvalues is in the order of the slots, from the top of the stack down, and its
upvalues are those of the ring. -/
structure Ordered (s : UvState ν) : Prop where
  list : ∃ l m : List ℕ, Linked s.openLink l ∧ Ringed s.uvNext s.uvPrev m ∧ m.Perm l ∧
    (∀ a, a ∈ l ↔ ∃ c, s.OpenAt a c) ∧
      l.Pairwise fun a b => ∀ c d, s.OpenAt a c → s.OpenAt b d → d < c
  unique : ∀ a b c, s.OpenAt a c → s.OpenAt b c → a = b

/-- What `func_closeuv(level)` does: the upvalues of slots from `level` on get their own copies of
the values in the slots, and all others are as before. -/
structure Closes (level : ℕ) (s s' : UvState ν) : Prop where
  closed : ∀ a c, s.OpenAt a c → level ≤ c → s'.ClosedAt a (s.stack c)
  others : ∀ a, (∀ c, s.OpenAt a c → c < level) → s'.view a = s.view a
  stillOpen : ∀ a c, s'.OpenAt a c ↔ s.OpenAt a c ∧ c < level
  stack : s'.stack = s.stack

namespace Books

variable {size : ℕ} {s : UvState ν} {l : List (ℕ × ℕ)} {m g : List ℕ}

theorem openAt_unique (h : Books size s l m g) {a b c : ℕ} (ha : s.OpenAt a c)
    (hb : s.OpenAt b c) : a = b := by
  have heq := inj_on_of_nodup_map h.contents.nodup_slots (h.openAt.mp ha) (h.openAt.mp hb) rfl
  exact congrArg Prod.fst heq

theorem ordered (h : Books size s l m g) : Ordered s := by
  refine ⟨⟨l.map Prod.fst, m, h.opens, h.ring, h.perm, fun a => ?_, ?_⟩,
    fun a b c => h.openAt_unique⟩
  · simp [h.openAt]
  · rw [pairwise_map]
    refine h.contents.desc.imp_of_mem fun {x y} hx hy hlt c d hc hd => ?_
    rwa [(openAt_iff.mp hc).slot_unique (h.contents.isOpen x hx),
      (openAt_iff.mp hd).slot_unique (h.contents.isOpen y hy)]

theorem findupval_open (h : Books size s l m g) {a slot : ℕ} (ha : s.OpenAt a slot)
    (grant : Option ℕ) : s.findupval size slot grant = .ok (some a, s) := by
  obtain ⟨r, hr, hspot⟩ := h.findSpot_spec slot
  have hmem := h.openAt.mp ha
  cases r with
  | found p =>
    obtain rfl := h.openAt_unique (h.openAt.mpr hspot) ha
    rw [findupval, hr]
    rfl
  | before pp =>
    obtain ⟨u, v, rfl, -, hu, hv⟩ := hspot
    rcases mem_append.mp hmem with hmem | hmem
    · exact absurd (hu _ hmem) (Nat.lt_irrefl slot)
    · exact absurd (hv _ hmem) (Nat.lt_irrefl slot)

theorem funcCloseuv_closes (h : Books size s l m g) (level : ℕ) :
    ∃ s', s.funcCloseuv size level = .ok s' ∧ Closes level s s' := by
  obtain ⟨s', a, b, m', g', hrun, rfl, hbooks, ha, hb, hstack, hclosed, hview⟩ :=
    h.closeAll_spec level (Nat.lt_succ_of_le h.contents.length_le)
  have hin : ∀ {q c : ℕ}, s.OpenAt q c → level ≤ c → (q, c) ∈ a := by
    intro q c hopen hle
    rcases mem_append.mp (h.openAt.mp hopen) with hmem | hmem
    · exact hmem
    · exact absurd (hb _ hmem) (Nat.not_lt.mpr hle)
  refine ⟨s', hrun, fun q c hopen hle => hclosed _ (hin hopen hle), fun q hq => hview q ?_,
    fun q c => ?_, hstack⟩
  · intro hmem
    obtain ⟨⟨p, d⟩, hx, rfl⟩ := mem_map.mp hmem
    exact absurd (hq d (h.openAt.mpr (mem_append_left _ hx))) (Nat.not_lt.mpr (ha _ hx))
  · rw [hbooks.openAt]
    constructor
    · intro hmem
      exact ⟨h.openAt.mpr (mem_append_right _ hmem), hb _ hmem⟩
    · rintro ⟨hopen, hlt⟩
      rcases mem_append.mp (h.openAt.mp hopen) with hmem | hmem
      · exact absurd (ha _ hmem) (Nat.not_le.mpr hlt)
      · exact hmem

end Books

/-- **Open upvalues.** In every state of a run, whatever is called with whatever slots, the open
upvalues are in order, there is one for a slot at most, and the ring has the same; `findupval`
answers with the one of a slot, `func_closeuv` closes those of slots from its level on, and no call
goes wrong. -/
theorem openUpvals_sound {size : ℕ} {stack : ℕ → ν} {s : UvState ν}
    (h : (upvalues size stack).Reach (fun _ _ => True) s) :
    Ordered s ∧
      (∀ slot grant a, s.OpenAt a slot → s.findupval size slot grant = .ok (some a, s)) ∧
      (∀ level, ∃ s', s.funcCloseuv size level = .ok s' ∧ Closes level s s') ∧
      ∀ a, s.Allowed size a → ∃ s', s.call size a = .ok s' := by
  obtain ⟨l, m, g, hbooks⟩ := exists_books h
  refine ⟨hbooks.ordered, fun slot grant a ha => hbooks.findupval_open ha grant,
    hbooks.funcCloseuv_closes, fun a ha => ?_⟩
  obtain ⟨s', hrun, -⟩ := hbooks.call_spec ha
  exact ⟨s', hrun⟩

/-- A function captures the variables in the slots 1 and 0, and a second one that in slot 1, which
is then closed. -/
def someCalls : List (UvCall ℕ) :=
  [.funcNew [(0x8001, some 11), (0x8000, some 12)] 0 0 (some 10), .store 1 7,
    .funcNew [(0x8001, none), (1, none)] 10 0 (some 20), .funcCloseuv 1, .setUpval 20 0 8,
    .findupval 1 (some 30)]

def someState : UvState ℕ :=
  ((upvalues 4 fun _ => 0).run (fun _ _ => True) someCalls (.new fun _ => 0)).getD (.new fun _ => 0)

theorem run_someCalls : (upvalues 4 fun _ => 0).run (fun _ _ => True) someCalls (.new fun _ => 0) =
    some someState := rfl

/-- An upvalue that two functions share is closed, and two others are open. -/
theorem openUpvals_sound_example : someState.ClosedAt 11 8 ∧ someState.OpenAt 30 1 ∧
    someState.OpenAt 12 0 ∧ Ordered someState :=
  ⟨⟨_, rfl⟩, ⟨_, _, _, rfl⟩, ⟨_, _, _, rfl⟩, (openUpvals_sound (.run .init run_someCalls)).1⟩

/-! ## The values of captured variables -/

/-- `*uv->v` for the upvalue at an address. -/
def value (s : UvState ν) (a : ℕ) : Option ν := (s.upval a).bind fun uv => (s.deref uv).toOption

section value

variable {size : ℕ} {stack : ℕ → ν} {s s' : UvState ν} {a c : ℕ} {x : ν}

theorem OpenAt.value (h : s.OpenAt a c) : s.value a = some (s.stack c) := by
  obtain ⟨imm, p, n, h⟩ := h
  rw [UvState.value, h]
  rfl

theorem ClosedAt.value (h : s.ClosedAt a x) : s.value a = some x := by
  obtain ⟨imm, h⟩ := h
  rw [UvState.value, h]
  rfl

theorem Books.open_or_closed {l : List (ℕ × ℕ)} {m g : List ℕ} (h : Books size s l m g) (a : ℕ) :
    (∃ c, s.OpenAt a c) ∨ (∃ x, s.ClosedAt a x) ∨ ∀ uv, s.view a ≠ some (.upval uv) := by
  by_cases hno : ∃ uv, s.view a = some (.upval uv)
  · obtain ⟨uv, hview⟩ := hno
    rcases h.contents.listed a (by rw [hview]; exact Option.some_ne_none _) with hl | hg
    · obtain ⟨⟨b, c⟩, hmem, rfl⟩ := mem_map.mp hl
      exact .inl ⟨c, h.openAt.mpr hmem⟩
    · obtain ⟨x, hclosed⟩ := h.contents.closed a hg uv hview
      exact .inr (.inl ⟨x, closedAt_iff.mpr hclosed⟩)
  · exact .inr (.inr fun uv hview => hno ⟨uv, hview⟩)

theorem value_eq_none (h : ∀ uv, s.view a ≠ some (.upval uv)) : s.value a = none := by
  rcases hup : s.upval a with _ | ⟨closed, imm, body, v⟩
  · rw [UvState.value, hup, Option.bind_none]
  · exact absurd (view_upval.mpr ⟨body, hup, rfl⟩) (h _)

/-- **Closing** moves values and changes none. -/
theorem Closes.value {l : List (ℕ × ℕ)} {m g : List ℕ} {level : ℕ} (h : Books size s l m g)
    (hcloses : Closes level s s') : s'.value = s.value := by
  funext a
  rcases h.open_or_closed a with ⟨c, hopen⟩ | ⟨x, hclosed⟩ | hno
  · rw [hopen.value]
    by_cases hle : level ≤ c
    · exact (hcloses.closed a c hopen hle).value
    · rw [((hcloses.stillOpen a c).mpr ⟨hopen, Nat.lt_of_not_le hle⟩).value, hcloses.stack]
  · have hview := hcloses.others a fun c hc =>
      absurd (closedAt_iff.mp hclosed) (openAt_iff.mp hc).not_closed
    rw [hclosed.value, (closedAt_iff.mpr (hview ▸ closedAt_iff.mp hclosed)).value]
  · have hview := hcloses.others a fun c hc => by
      obtain ⟨imm, p, n, hview⟩ := openAt_iff.mp hc
      exact absurd hview (hno _)
    rw [value_eq_none hno, value_eq_none (hview ▸ hno)]

/-- **A store** through an upvalue of a function is one to this upvalue, whoever has it. -/
theorem Books.setUpval_value {l : List (ℕ × ℕ)} {m g : List ℕ} (h : Books size s l m g) {fn i : ℕ}
    (ha : ((s.upvals fn).bind fun us => us[i]?) = some a) (x : ν) :
    ∃ s', s.setUpval fn i x = .ok s' ∧ s'.value = update s.value a (some x) := by
  obtain ⟨us, hus, hget⟩ := Option.bind_eq_some_iff.mp ha
  obtain ⟨uv, hview⟩ := h.contents.captured fn us (view_func.mpr hus) a (mem_of_getElem? hget)
  rcases h.open_or_closed a with ⟨c, hopen⟩ | ⟨y, hclosed⟩ | hno
  · have hrun : s.setUpval fn i x = .ok { s with stack := update s.stack c x } := by
      obtain ⟨imm, p, n, hup⟩ := hopen
      rw [UvState.setUpval, ha]
      simp only [hup]
    refine ⟨_, hrun, ?_⟩
    generalize hs' : { s with stack := update s.stack c x } = s'
    have hsame : s'.view = s.view := by
      subst hs'
      rfl
    have hopened {b d : ℕ} (hd : s.OpenAt b d) : s'.value b = some (update s.stack c x d) := by
      subst hs'
      exact OpenAt.value hd
    funext b
    by_cases hb : b = a
    · rw [hb, hopened hopen, update_self, update_self]
    rw [update_of_ne hb]
    rcases h.open_or_closed b with ⟨d, hd⟩ | ⟨y, hy⟩ | hno
    · have hne : d ≠ c := fun heq => hb (h.openAt_unique (heq ▸ hd) hopen)
      rw [hopened hd, hd.value, update_of_ne hne]
    · rw [hy.value, (closedAt_iff.mpr (hsame ▸ closedAt_iff.mp hy)).value]
    · rw [value_eq_none hno, value_eq_none (hsame ▸ hno)]
  · obtain ⟨imm, hup⟩ := hclosed
    refine ⟨s.setObj a (.upval ⟨true, imm, .tv x, .own⟩), ?_, ?_⟩
    · rw [UvState.setUpval, ha]
      simp only [hup]
    · funext b
      by_cases hb : b = a
      · subst hb
        rw [update_self, ClosedAt.value ⟨imm, upval_setObj_self⟩]
      · rw [update_of_ne hb, UvState.value, upval_setObj_of_ne hb]
        rfl
  · exact absurd hview (hno uv)

end value

/-- **Captured variables** are shared: an upvalue is found with the value of its slot, closing
changes no value that a function reads, and a store changes that of one upvalue, for all functions
that have it. -/
theorem captured_shared {size : ℕ} {stack : ℕ → ν} {s : UvState ν}
    (h : (upvalues size stack).Reach (fun _ _ => True) s) :
    (∀ slot grant a s', s.Allowed size (.findupval slot grant) →
      s.findupval size slot grant = .ok (some a, s') → s'.value a = some (s.stack slot)) ∧
    (∀ level, ∃ s', s.funcCloseuv size level = .ok s' ∧ s'.value = s.value) ∧
    ∀ fn i a x, ((s.upvals fn).bind fun us => us[i]?) = some a →
      ∃ s', s.setUpval fn i x = .ok s' ∧ s'.value = update s.value a (some x) := by
  obtain ⟨l, m, g, hbooks⟩ := exists_books h
  refine ⟨fun slot grant a s' hallowed hfind => ?_, fun level => ?_, fun fn i a x ha =>
    hbooks.setUpval_value ha x⟩
  · obtain ⟨hslot, -, hfree⟩ := hallowed
    obtain ⟨r, s₁, hrun, hkeeps, l', m', hbooks', hmem⟩ := hbooks.findupval_keeps hslot grant
      fun uv huv => hfree uv (by rw [huv]; simp)
    obtain ⟨rfl, rfl⟩ := Prod.mk.inj (Except.ok.inj (hrun.symm.trans hfind))
    rw [(hbooks'.openAt.mpr (hmem a rfl)).value, hkeeps.stack]
  · obtain ⟨s', hrun, hcloses⟩ := hbooks.funcCloseuv_closes level
    exact ⟨s', hrun, hcloses.value hbooks⟩

/-- Both functions read what one of them writes. -/
theorem captured_shared_example : ∃ s', someState.setUpval 20 0 9 = .ok s' ∧
    s'.value = update someState.value 11 (some 9) :=
  (captured_shared (.run .init run_someCalls)).2.2 20 0 11 9 rfl

end UvState

end Ktap.Vm
