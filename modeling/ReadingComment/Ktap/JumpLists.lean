import ReadingComment.Ktap.EmitSteps
import ReadingComment.Lib.Chain

/-!
# Jump lists (`userspace/kp_parse.c`)

The link of a jump to the next one of its list stands in the field `D` that takes the target later,
so a list is taken apart while it is walked. What `jmp_patchval` leaves is what it leaves of each
jump alone, in the code as it was.
-/

namespace Ktap.User

open Chain List

/-- `KP_MAX_BCINS` -/
def kpMaxBcins : ℕ := 2 ^ 26

/-- The instruction at `pc` is a jump that `bcemit_jmp` has made. -/
structure IsJump (code : List Ins) (pc : ℕ) : Prop where
  lt : pc < code.length
  op : (insAt code pc).op = .jmp
  a : (insAt code pc).a ≠ noReg

/-- The list that begins at `list` has the jumps `l`. -/
structure JumpList (code : List Ins) (list : Option ℕ) (l : List ℕ) : Prop where
  walk : match list with
    | none => l = []
    | some pc => ChainOf (jmpNext code) pc l
  jump : ∀ pc ∈ l, IsJump code pc

/-- The distance fits into `D`. -/
def InReach (pc dest : ℕ) : Prop := pc + 1 ≤ dest + bcbiasJ ∧ dest + bcbiasJ ≤ pc + 1 + bcmaxD

instance (pc dest : ℕ) : Decidable (InReach pc dest) := inferInstanceAs (Decidable (_ ∧ _))

/-- A test that is told the register, the jump behind it, and whether the test can deliver the
value. -/
def toldTest (reg : ℕ) (i jmp : Ins) : Ins × Ins × Bool :=
  if i.op = .istc ∨ i.op = .isfc then
    if reg ≠ noReg ∧ reg ≠ i.d then ({ i with a := reg }, jmp, true)
    else ({ i with op := if i.op = .istc then .ist else .isf, a := 0 }, jmp, true)
  else if i.a = noReg then
    if reg = noReg then (⟨.jmp, jmp.a, bcbiasJ⟩, jmp, true)
    else ({ i with a := reg }, if jmp.a ≤ reg then { jmp with a := reg + 1 } else jmp, true)
  else (i, jmp, false)

/-- The targets and the register that a list is patched with. -/
structure Patch where
  vtarget : ℕ
  reg : ℕ
  dtarget : ℕ

/-- Places in the code, and a register or none. -/
structure Patch.Fits (t : Patch) (size : ℕ) : Prop where
  bcins : size ≤ kpMaxBcins
  vtarget : t.vtarget ≤ size
  dtarget : t.dtarget ≤ size
  reg : t.reg = noReg ∨ t.reg < kpMaxSlots

section told

variable (code : List Ins) (t : Patch) (l : List ℕ) (q : ℕ)

def told : Ins × Ins × Bool := toldTest t.reg (insAt code (testPc q)) (insAt code q)

/-- Where the jump at `q` goes when its list is patched. -/
def landing : ℕ := if (told code t q).2.2 then t.vtarget else t.dtarget

/-- The jump at `q` when its list was patched. -/
def landedJump : Ins := { (told code t q).2.1 with d := landing code t q + bcbiasJ - (q + 1) }

/-- What is at `q` when the list `l` was patched. -/
def landed : Ins :=
  if q ∈ l then landedJump code t q
  else if q + 1 ∈ l then (told code t (q + 1)).1
  else insAt code q

end told

variable {code code' : List Ins} {list : Option ℕ} {l : List ℕ} {pc dest reg : ℕ}
  {t : Patch}

/-! ## One jump -/

theorem testPc_eq_iff {q : ℕ} (hne : q ≠ pc) : testPc pc = q ↔ q + 1 = pc := by
  rw [testPc]
  split <;> omega

theorem insAt_set {p q : ℕ} {i : Ins} (hp : p < code.length) :
    insAt (code.set p i) q = if p = q then i else insAt code q := by
  rw [insAt, getElem?_set, if_pos hp]
  split <;> rfl

theorem set_insAt (hpc : pc < code.length) : code.set pc (insAt code pc) = code := by
  rw [insAt, getElem?_eq_getElem hpc, Option.getD_some, set_getElem_self]

theorem toldTest_jump {i jmp : Ins} (hop : i.op = .jmp) (ha : i.a ≠ noReg) :
    toldTest reg i jmp = (i, jmp, false) := by
  rw [toldTest, if_neg (by rw [hop]; rintro (h | h) <;> cases h), if_neg ha]

theorem toldTest_snd {i jmp : Ins} (hreg : reg = noReg ∨ reg < kpMaxSlots) (ha : jmp.a ≠ noReg) :
    (toldTest reg i jmp).2.1.op = jmp.op ∧ (toldTest reg i jmp).2.1.a ≠ noReg := by
  rw [toldTest]
  split
  · split <;> exact ⟨rfl, ha⟩
  · split
    · split
      · exact ⟨rfl, ha⟩
      · rename_i hno
        have hlt : reg < 250 := hreg.resolve_left hno
        split
        · refine ⟨rfl, ?_⟩
          show reg + 1 ≠ 255
          omega
        · exact ⟨rfl, ha⟩
    · exact ⟨rfl, ha⟩

theorem jmpPatchtestreg_eq (h : IsJump code pc) : jmpPatchtestreg code pc t.reg =
    ((code.set (testPc pc) (told code t pc).1).set pc (told code t pc).2.1,
      (told code t pc).2.2) := by
  rcases Nat.eq_zero_or_pos pc with rfl | hpos
  · -- the first instruction has no test in front of it
    have htest : testPc 0 = 0 := rfl
    rw [told, htest, toldTest_jump h.op h.a, jmpPatchtestreg]
    dsimp only
    rw [htest, if_neg (by rw [h.op]; rintro (h | h) <;>
      cases h), if_neg h.a, set_insAt h.lt, set_insAt h.lt]
  · have htest : testPc pc = pc - 1 := if_pos hpos
    have hback : pc - 1 + 1 = pc := Nat.sub_add_cancel hpos
    have hne : pc - 1 ≠ pc := by omega
    have hlt : pc - 1 < code.length := Nat.lt_of_le_of_lt (Nat.sub_le ..) h.lt
    have hjmp (i : Ins) : insAt (code.set (pc - 1) i) pc = insAt code pc := by
      rw [insAt_set hlt, if_neg hne]
    have hset (i : Ins) : (code.set (pc - 1) i).set pc (insAt code pc) = code.set (pc - 1) i := by
      rw [← hjmp i, set_insAt (by rw [length_set]; exact h.lt)]
    rw [told, toldTest, jmpPatchtestreg, htest]
    dsimp only
    simp only [hback, hjmp]
    split_ifs <;> simp only [hset, set_insAt hlt, set_insAt h.lt]

theorem jmpPatchins_eq (hsize : code.length ≤ kpMaxBcins) (hpc : pc < code.length)
    (hdest : dest ≤ code.length) :
    jmpPatchins code pc dest = if InReach pc dest then
      .ok (code.set pc { insAt code pc with d := dest +
        bcbiasJ - (pc + 1) }) else .error .xjump := by
  have hsize : code.length ≤ 67108864 := hsize
  have hmod : jumpOffset pc dest ≤ bcmaxD ↔ InReach pc dest := by
    simp only [jumpOffset, InReach, bcbiasJ, bcmaxD]
    omega
  rw [jmpPatchins]
  by_cases h : InReach pc dest
  · have hoffset : jumpOffset pc dest = dest + bcbiasJ - (pc + 1) := by
      obtain ⟨h₁, h₂⟩ := h
      simp only [jumpOffset, bcbiasJ, bcmaxD] at *
      omega
    rw [if_pos h, ← hoffset]
    exact if_neg (Nat.not_lt.mpr (hmod.mpr h))
  · exact (if_pos (Nat.not_le.mp (mt hmod.mp h))).trans (if_neg h).symm

/-! ## Lists -/

theorem JumpList.head {pc : ℕ} (h : JumpList code list (pc :: l)) :
    list = some pc ∧ IsJump code pc ∧ JumpList code (jmpNext code pc) l ∧ pc ∉ l := by
  obtain ⟨hjump, hrest⟩ := forall_mem_cons.mp h.jump
  have hwalk := h.walk
  cases list with
  | none => cases hwalk
  | some p =>
    have hnot := (nodup_cons.mp (ChainOf.nodup hwalk)).1
    cases hwalk with
    | last hn => exact ⟨rfl, hjump, ⟨by rw [hn], hrest⟩, hnot⟩
    | cons hn hc => exact ⟨rfl, hjump, ⟨by rw [hn]; exact hc, hrest⟩, hnot⟩

theorem JumpList.eq_none (h : JumpList code list []) : list = none := by
  cases list with
  | none => rfl
  | some p => cases h.walk

theorem JumpList.length_le (h : JumpList code list l) : l.length ≤ code.length := by
  have hnodup : l.Nodup := by
    cases list with
    | none => exact h.walk ▸ nodup_nil
    | some pc => exact ChainOf.nodup h.walk
  have hsub : l ⊆ List.range code.length := fun pc hpc => mem_range.mpr (h.jump pc hpc).lt
  exact (subperm_of_subset hnodup hsub).length_le.trans length_range.le

theorem IsJump.congr (h : IsJump code pc) (heq : insAt code' pc = insAt code pc)
    (hlen : code'.length = code.length) : IsJump code' pc :=
  ⟨hlen ▸ h.lt, heq ▸ h.op, heq ▸ h.a⟩

theorem JumpList.congr (h : JumpList code list l) (heq : ∀ pc ∈ l, insAt code' pc = insAt code pc)
    (hlen : code'.length = code.length) : JumpList code' list l := by
  refine ⟨?_, fun pc hpc => (h.jump pc hpc).congr (heq pc hpc) hlen⟩
  cases list with
  | none => exact h.walk
  | some pc => exact ChainOf.congr h.walk fun q hq => by rw [jmpNext, jmpNext, heq q hq]

/-! ## Appending -/

theorem jmpLast_eq {z n : ℕ} (h : ChainOf (jmpNext code) pc (l ++ [z])) (hn : l.length < n) :
    jmpLast code n pc = .ok z := by
  obtain ⟨n, rfl⟩ := Nat.exists_eq_succ_of_ne_zero (Nat.ne_zero_of_lt hn)
  induction l generalizing pc n with
  | nil =>
    cases h with
    | last hnone => rw [jmpLast, hnone]
    | cons _ hc => cases hc
  | cons x l ih =>
    generalize hw : x :: l ++ [z] = w at h
    cases h with
    | last _ => simp at hw
    | cons hnext hc =>
      cases hw
      obtain ⟨n, rfl⟩ :=
        Nat.exists_eq_succ_of_ne_zero (Nat.ne_zero_of_lt (Nat.lt_of_succ_lt_succ hn))
      rw [jmpLast, hnext]
      exact ih hc n (Nat.lt_of_succ_lt_succ hn)

/-- **Appending a list** links the last jump of the first list to the head of the second one. -/
theorem jmpAppend_concatenates {list₁ list₂ : Option ℕ} {l₁ l₂ : List ℕ}
    (hsize : code.length ≤ kpMaxBcins)
    (h₁ : JumpList code list₁ l₁) (h₂ : JumpList code list₂ l₂) (hdisjoint : l₁.Disjoint l₂) :
    if ∀ z ∈ l₁.getLast?, ∀ p ∈ list₂, InReach z p then
      ∃ code', jmpAppend code list₁ list₂ = .ok (list₁ <|> list₂, code') ∧
        JumpList code' (list₁ <|> list₂) (l₁ ++ l₂) ∧ code'.length = code.length ∧
          ∀ q, l₁.getLast? ≠ some q → insAt code' q = insAt code q
    else jmpAppend code list₁ list₂ = .error .xjump := by
  rcases list₂ with _ | p
  · obtain rfl : l₂ = [] := h₂.walk
    rw [if_pos (by simp)]
    exact ⟨code, by cases list₁ <;> rfl, by simpa using h₁, rfl, fun _ _ => rfl⟩
  rcases list₁ with _ | pc
  · obtain rfl : l₁ = [] := h₁.walk
    rw [if_pos (by simp)]
    exact ⟨code, rfl, h₂, rfl, fun _ _ => rfl⟩
  obtain rfl | ⟨a, z, rfl⟩ := eq_nil_or_concat' l₁
  · cases h₁.walk
  have hp : p ∈ l₂ := ChainOf.head_mem h₂.walk
  have hz : z ∈ a ++ [z] := mem_append_right a (mem_singleton_self z)
  have hlast : jmpLast code code.length pc = .ok z := jmpLast_eq h₁.walk (by
    have hle := h₁.length_le
    rw [length_append] at hle
    exact hle)
  have hne : p ≠ z := fun heq => hdisjoint hz (heq ▸ hp)
  have hlt := (h₁.jump z hz).lt
  simp only [jmpAppend, hlast, jmpPatchins_eq hsize hlt (h₂.jump p hp).lt.le, bind, Except.bind,
    getLast?_append, getLast?_singleton, Option.mem_def, Option.some_or, Option.some.injEq,
      forall_eq']
  split
  · rename_i hreach
    obtain ⟨code', hcode'⟩ :
        ∃ code', code' = code.set z { insAt code z with d := p + bcbiasJ - (z + 1) } :=
      ⟨_, rfl⟩
    have hset (q : ℕ) (hq : z ≠ q) : insAt code' q = insAt code q := by
      rw [hcode', insAt_set hlt, if_neg hq]
    have hself : insAt code' z = { insAt code z with d := p + bcbiasJ - (z + 1) } := by
      rw [hcode', insAt_set hlt, if_pos rfl]
    have hlen : code'.length = code.length := by rw [hcode', length_set]
    have hlink : jmpNext code' z = some p := by
      obtain ⟨hle, -⟩ := hreach
      rw [jmpNext, hself]
      dsimp only
      rw [if_neg (by simp only [noJump, bcbiasJ] at *; omega)]
      exact congrArg some (by omega)
    have hnodup := nodup_append.mp (ChainOf.nodup h₁.walk)
    have hfirst (q : ℕ) (hq : q ∈ a) :
        z ≠ q := fun heq => hnodup.2.2 q hq z (mem_singleton_self z) heq.symm
    have hsecond : JumpList code' (some p) l₂ := h₂.congr (fun q hq => hset q fun heq =>
      hdisjoint hz (heq ▸ hq)) hlen
    refine ⟨code', by rw [hcode']; rfl, ⟨?_, fun q hq => ?_⟩, hlen, fun q hq => hset q fun heq =>
      hq (congrArg some heq)⟩
    · rw [append_assoc]
      exact ChainOf.append h₁.walk hsecond.walk (fun q hq => by rw [jmpNext, jmpNext,
        hset q (hfirst q hq)]) hlink
    · rcases mem_append.mp hq with hq | hq
      · by_cases heq : z = q
        · subst heq
          obtain ⟨-, hop, ha⟩ := h₁.jump z hz
          exact ⟨hlen ▸ hlt, by rw [hself]; exact hop, by rw [hself]; exact ha⟩
        · exact (h₁.jump q hq).congr (hset q heq) hlen
      · exact hsecond.jump q hq
  · rfl

/-- The code of a test, the jump behind it and one more jump, both alone in their lists. -/
def testAndJumps : List Ins := [⟨.istc, 255, 1⟩, ⟨.jmp, 3, noJump⟩, ⟨.jmp, 3, noJump⟩]

theorem jumpList_one : JumpList testAndJumps (some 1) [1] :=
  ⟨.last rfl, List.forall_mem_singleton.mpr ⟨by decide, rfl, by decide⟩⟩

/-- Two lists of one jump each become one. -/
theorem jmpAppend_concatenates_two :
    ∃ code', jmpAppend testAndJumps (some 1) (some 2) = .ok (some 1, code') ∧
    JumpList code' (some 1) [1, 2] ∧ code'.length = 3 ∧
      ∀ q, [1].getLast? ≠ some q → insAt code' q = insAt testAndJumps q := by
  have htwo : JumpList testAndJumps (some 2) [2] :=
    ⟨.last rfl, List.forall_mem_singleton.mpr ⟨by decide, rfl, by decide⟩⟩
  have h := jmpAppend_concatenates (by decide) jumpList_one htwo (by simp)
  rw [if_pos (by simp; decide)] at h
  exact h

/-! ## Patching -/

/-- The code when the jump at `pc` alone was patched. -/
def patchedAlone (code : List Ins) (t : Patch) (pc : ℕ) : List Ins :=
  (code.set (testPc pc) (told code t pc).1).set pc (landedJump code t pc)

theorem length_patchedAlone : (patchedAlone code t pc).length = code.length := by
  rw [patchedAlone, length_set, length_set]

theorem insAt_patchedAlone (h : IsJump code pc) (q : ℕ) : insAt (patchedAlone code t pc) q =
    if pc = q then landedJump code t pc else if testPc pc = q then (told code t pc).1
    else insAt code q := by
  have hle : testPc pc ≤ pc := by
    rw [testPc]
    split <;> omega
  rw [patchedAlone, insAt_set (by rw [length_set]; exact h.lt),
    insAt_set (Nat.lt_of_le_of_lt hle h.lt)]

section patchval

variable (ht : t.Fits code.length)

include ht

theorem jmpPatchval_cons (h : IsJump code pc) (n : ℕ) :
    jmpPatchval t.vtarget t.reg (some t.dtarget) (n + 1) code (some pc) =
      if InReach pc (landing code t pc) then
        jmpPatchval t.vtarget t.reg (some t.dtarget) n (patchedAlone code t pc) (jmpNext code pc)
      else .error .xjump := by
  have hone (dest : ℕ) (hdest : dest ≤ code.length) :
      (jmpPatchins ((code.set (testPc pc) (told code t pc).1).set pc
        (told code t pc).2.1) pc dest >>=
        fun code' => jmpPatchval t.vtarget t.reg (some t.dtarget) n code' (jmpNext code pc)) =
      if InReach pc dest then jmpPatchval t.vtarget t.reg (some t.dtarget) n
        ((code.set (testPc pc) (told code t pc).1).set pc { (told code t pc).2.1 with
          d := dest + bcbiasJ - (pc + 1) }) (jmpNext code pc)
      else .error .xjump := by
    rw [jmpPatchins_eq (by simpa using ht.bcins) (by simpa using h.lt) (by simpa using hdest),
      set_set,
      insAt_set (by simpa using h.lt), if_pos rfl]
    split <;> rfl
  rw [jmpPatchval, jmpPatchtestreg_eq h, patchedAlone, landedJump, landing]
  dsimp only
  split
  · exact hone _ ht.vtarget
  · exact hone _ ht.dtarget

variable (h : JumpList code list (pc :: l)) {q : ℕ}

omit ht in
include h in
theorem insAt_patchedAlone_mem (hq : q ∈ l) : insAt (patchedAlone code t pc) q = insAt code q := by
  obtain ⟨-, hjump, hlist, hnot⟩ := h.head
  have hqjump := hlist.jump q hq
  rw [insAt_patchedAlone hjump, if_neg (by rintro rfl; exact hnot hq)]
  split
  · rename_i heq
    rw [told, heq, toldTest_jump hqjump.op hqjump.a]
  · rfl

include h

theorem isJump_patchedAlone : IsJump (patchedAlone code t pc) pc := by
  obtain ⟨-, hjump, -, -⟩ := h.head
  have hself : insAt (patchedAlone code t pc) pc = landedJump code t pc := by
    rw [insAt_patchedAlone hjump, if_pos rfl]
  obtain ⟨hop, ha⟩ := toldTest_snd (i := insAt code (testPc pc)) ht.reg hjump.a
  exact ⟨by rw [length_patchedAlone]; exact hjump.lt, by rw [hself]; exact hop.trans hjump.op,
    by rw [hself]; exact ha⟩

theorem told_patchedAlone (hq : q ∈ l) :
    (told (patchedAlone code t pc) t q).2 = (told code t q).2 := by
  obtain ⟨-, hjump, hlist, hnot⟩ := h.head
  rw [told, told, insAt_patchedAlone_mem h hq]
  by_cases hpc : testPc q = pc
  · -- the test is the jump that was patched
    have hjump' := isJump_patchedAlone ht h
    rw [hpc, toldTest_jump hjump'.op hjump'.a, toldTest_jump hjump.op hjump.a]
  · rw [insAt_patchedAlone hjump, if_neg (Ne.symm hpc)]
    split
    · rename_i heq
      have hself : testPc q = q := by
        have hne : q ≠ pc := by
          rintro rfl
          exact hnot hq
        simp only [testPc] at *
        split_ifs at * <;> omega
      have hqjump := hlist.jump q hq
      rw [told, heq, hself, toldTest_jump hqjump.op hqjump.a, toldTest_jump hqjump.op hqjump.a]
    · rfl

theorem landed_patchedAlone (q : ℕ) :
    landed (patchedAlone code t pc) t l q = landed code t (pc :: l) q := by
  obtain ⟨-, hjump, -, hnot⟩ := h.head
  rw [landed, landed]
  by_cases hq : q ∈ l
  · rw [if_pos hq, if_pos (mem_cons_of_mem pc hq), landedJump, landedJump, landing, landing,
      told_patchedAlone ht h hq]
  rw [if_neg hq]
  by_cases hqpc : q = pc
  · subst hqpc
    have hjump' := isJump_patchedAlone ht h
    have htold : (told (patchedAlone code t q) t (q + 1)).1 = insAt (patchedAlone code t q) q := by
      rw [told, show testPc (q + 1) = q from rfl, toldTest_jump hjump'.op hjump'.a]
    rw [if_pos mem_cons_self, htold, ite_self, insAt_patchedAlone hjump, if_pos rfl]
  rw [if_neg fun hmem => (mem_cons.mp hmem).elim hqpc hq]
  by_cases hnext : q + 1 ∈ l
  · have htest : testPc pc ≠ q := fun heq => hnot ((testPc_eq_iff hqpc).mp heq ▸ hnext)
    rw [if_pos hnext, if_pos (mem_cons_of_mem pc hnext), told, told,
      show testPc (q + 1) = q from rfl,
      insAt_patchedAlone hjump, if_neg (Ne.symm hqpc), if_neg htest, insAt_patchedAlone_mem h hnext]
  · rw [if_neg hnext, insAt_patchedAlone hjump, if_neg (Ne.symm hqpc)]
    by_cases heq : q + 1 = pc
    · rw [if_pos ((testPc_eq_iff hqpc).mpr heq), if_pos (heq ▸ mem_cons_self), heq]
    · rw [if_neg (mt (testPc_eq_iff hqpc).mp heq),
        if_neg fun hmem => (mem_cons.mp hmem).elim heq hnext]

end patchval

theorem jmpPatchval_eq {n : ℕ} (ht : t.Fits code.length) (h : JumpList code list l)
    (hn : l.length ≤ n) :
    if ∀ pc ∈ l, InReach pc (landing code t pc) then
      ∃ code', jmpPatchval t.vtarget t.reg (some t.dtarget) n code list = .ok code' ∧
        code'.length = code.length ∧ ∀ q, insAt code' q = landed code t l q
    else jmpPatchval t.vtarget t.reg (some t.dtarget) n code list = .error .xjump := by
  induction l generalizing code list n with
  | nil =>
    obtain rfl := h.eq_none
    rw [if_pos (by rintro _ ⟨⟩)]
    exact ⟨code, jmpPatchval_none .., rfl, fun q => by simp [landed]⟩
  | cons pc l ih =>
    obtain ⟨rfl, hjump, hlist, -⟩ := h.head
    obtain ⟨n, rfl⟩ := Nat.exists_eq_succ_of_ne_zero (Nat.ne_zero_of_lt hn)
    rw [jmpPatchval_cons ht hjump]
    by_cases hreach : InReach pc (landing code t pc)
    · have hlist' : JumpList (patchedAlone code t pc) (jmpNext code pc) l :=
        hlist.congr (fun q hq => insAt_patchedAlone_mem h hq) length_patchedAlone
      have hrest := ih (by rw [length_patchedAlone]; exact ht) hlist' (Nat.le_of_succ_le_succ hn)
      have hall : (∀ q ∈ l, InReach q (landing (patchedAlone code t pc) t q)) ↔
          ∀ q ∈ pc :: l, InReach q (landing code t q) := by
        rw [forall_mem_cons, and_iff_right hreach]
        exact forall₂_congr fun q hq => by rw [landing, landing, told_patchedAlone ht h hq]
      simp only [hall, length_patchedAlone, landed_patchedAlone ht h] at hrest
      rw [if_pos hreach]
      exact hrest
    · rw [if_neg hreach, if_neg fun hall => hreach (hall pc mem_cons_self)]

/-- **Patching a list**: each of its jumps goes to `vtarget` or to `dtarget`, as its test can
deliver the value or not, and nothing else is changed but the tests; the error is that a target is
out of reach. -/
theorem jmpPatchval_patches_each (ht : t.Fits code.length) (h : JumpList code list l) :
    if ∀ pc ∈ l, InReach pc (landing code t pc) then
      ∃ code', jmpPatchval t.vtarget t.reg (some t.dtarget) code.length code list = .ok code' ∧
        code'.length = code.length ∧ ∀ q, insAt code' q = landed code t l q
    else jmpPatchval t.vtarget t.reg (some t.dtarget) code.length code list = .error .xjump :=
  jmpPatchval_eq ht h h.length_le

/-- A test, and two jumps in one list. -/
def testAndList : List Ins := [⟨.istc, 255, 1⟩, ⟨.jmp, 3, bcbiasJ⟩, ⟨.jmp, 3, noJump⟩]

theorem jumpList_two : JumpList testAndList (some 1) [1, 2] where
  walk := .cons (by decide : jmpNext testAndList 1 = some 2) (.last (by decide))
  jump := List.forall_mem_cons.mpr
    ⟨⟨by decide, rfl, by decide⟩, List.forall_mem_singleton.mpr ⟨by decide, rfl, by decide⟩⟩

/-- The first jump goes on with the value of its test in register 5, the second has no test. -/
theorem jmpPatchval_patches_each_two :
    ∃ code', jmpPatchval 3 5 (some 0) 3 testAndList (some 1) = .ok code' ∧
    code'.length = 3 ∧ ∀ q, insAt code' q = landed testAndList ⟨3, 5, 0⟩ [1, 2] q := by
  have h :=
    jmpPatchval_patches_each (t := ⟨3, 5, 0⟩) ⟨by decide, by decide, by decide, .inr (by decide)⟩
    jumpList_two
  rw [if_pos (by decide)] at h
  exact h

end Ktap.User
