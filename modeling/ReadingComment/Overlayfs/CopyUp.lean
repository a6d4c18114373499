import Mathlib.Algebra.BigOperators.Group.Finset.Basic
import Mathlib.Data.Fintype.Card

/-!
# Copying up (`overlayfs.c`)

What an object needs to be written to: `ovl_copy_up_data` copies the contents of a file by
splices that may move less than they are asked to, and `ovl_copy_up` copies up the topmost
directory that is only in the lower tree, until the dentry itself is copied up.

What the other functions of the kernel return is up to the environment; an error is a code
with `-(code + 1)` for its number. Between the looks at the dentries and the lock, other tasks
may copy up, rename and so on: what they cannot do is take a dentry out of the upper tree, or
rename one that is not there.
-/

namespace Overlayfs

open List

section Data

variable {β : Type}

/-- What `do_splice_direct` does: it moves at most `more + 1` bytes, or nothing, or fails. -/
inductive Splice where
  | moves (more : ℕ)
  | nothing
  | fails (code : ℕ)
  deriving DecidableEq

/-- A round of the loop: whether a signal is pending, and what the splice does. -/
structure Round where
  interrupted : Bool
  splice : Splice

/-- `OVL_COPY_UP_CHUNK_SIZE`. -/
def ovlCopyUpChunkSize : ℕ := 2 ^ 20

/-- `EINTR`. -/
def eintr : ℤ := 4

/-- `ENOMEM`. -/
def enomem : ℤ := 12

/-- `EEXIST`. -/
def eexist : ℤ := 17

/-- `do_splice_direct(old_file, &offset, new_file, len)`: what it returns, and the bytes that it
adds to the new file. -/
def doSpliceDirect (a : Splice) (old : List β) (offset len : ℕ) : ℤ × List β :=
  match a with
  | .moves more =>
    let data := (old.drop offset).take (min (more + 1) len)
    (data.length, data)
  | .nothing => (0, [])
  | .fails code => (-(code + 1), [])

/-- The loop of `ovl_copy_up_data`; the position in the new file is the number of bytes written. -/
def copyLoop (old : List β) (rounds : ℕ → Round) (c len : ℕ) (written : List β) : ℤ × List β :=
  if len = 0 then (0, written)
  else if (rounds c).interrupted then (-eintr, written)
  else
    match doSpliceDirect (rounds c).splice old written.length (min len ovlCopyUpChunkSize) with
    | (bytes, data) =>
      if bytes ≤ 0 then (bytes, written ++ data)
      else copyLoop old rounds (c + 1) (len - bytes.toNat) (written ++ data)
termination_by len
decreasing_by omega

/-- `ovl_copy_up_data(old, new, len)`, with what opening the two files gives: what it returns, and
what it has written. -/
def ovlCopyUpData (openOld openNew : Option ℕ) (old : List β) (rounds : ℕ → Round) (len : ℕ) :
    ℤ × List β :=
  if len = 0 then (0, [])
  else match openOld with
    | some code => (-(code + 1), [])
    | none =>
      match openNew with
      | some code => (-(code + 1), [])
      | none => copyLoop old rounds 0 len []

/-- The file is copied: it has as many bytes, and they are what was written. -/
def Copied (old : List β) (len : ℕ) (written : List β) : Prop :=
  len ≤ old.length ∧ written = old.take len

def Round.offers (r : Round) : ℕ :=
  if r.interrupted then 0
  else match r.splice with
    | .moves more => min (more + 1) ovlCopyUpChunkSize
    | .nothing => 0
    | .fails _ => 0

/-- How many bytes the first `c` rounds can move. -/
def offers (rounds : ℕ → Round) (c : ℕ) : ℕ := ∑ j ∈ Finset.range c, (rounds j).offers

/-- Round `c` does not look like the end of the file: it is interrupted, the splice fails, or it
moves bytes that are there. -/
def Goes (old : List β) (rounds : ℕ → Round) (c : ℕ) : Prop :=
  (rounds c).interrupted = true ∨ (∃ code, (rounds c).splice = .fails code) ∨
    0 < (rounds c).offers ∧ offers rounds c < old.length

/-- No round that comes before the end looks like the end of the file. -/
def NeverShort (old : List β) (rounds : ℕ → Round) (len : ℕ) : Prop :=
  ∀ c, (∀ j < c, 0 < (rounds j).offers) → min (offers rounds c) old.length < len → Goes old rounds c

variable {old written : List β} {rounds : ℕ → Round} {c len rest : ℕ}

theorem offers_succ (c : ℕ) : offers rounds (c + 1) = offers rounds c + (rounds c).offers :=
  Finset.sum_range_succ _ _

theorem offers_mono {c' : ℕ} (h : c ≤ c') : offers rounds c ≤ offers rounds c' := by
  induction h with
  | refl => exact le_rfl
  | step _ ih => exact ih.trans ((Nat.le_add_right _ _).trans (offers_succ _).ge)

theorem not_goes (hint : (rounds c).interrupted = false)
    (hsplice : ∀ code, (rounds c).splice ≠ .fails code)
    (hzero : (rounds c).offers = 0 ∨ old.length ≤ offers rounds c) : ¬ Goes old rounds c := by
  rintro (hgoes | ⟨code, hgoes⟩ | ⟨hpos, hlt⟩)
  · rw [hint] at hgoes
    cases hgoes
  · exact hsplice code hgoes
  · omega

/-- Where the loop is before a round: all rounds so far have moved bytes, and these are written. -/
structure Copying (old : List β) (rounds : ℕ → Round) (len c rest : ℕ) (written : List β) :
    Prop where
  rest_pos : 0 < rest
  moved : ∀ j < c, 0 < (rounds j).offers
  taken : written = old.take (offers rounds c)
  total : rest + written.length = len

namespace Copying

section

variable (h : Copying old rounds len c rest written)

include h

theorem length :
    written.length = min (offers rounds c) old.length := by
  rw [h.taken, length_take]

theorem not_copied : ¬ Copied old len written := by
  rintro ⟨hlen, hwritten⟩
  have htotal := h.total
  have hpos := h.rest_pos
  rw [hwritten, length_take, Nat.min_eq_left hlen] at htotal
  omega

theorem last (hzero : (rounds c).offers = 0) :
    (∀ c' ≥ c, (∀ j < c', 0 < (rounds j).offers) → min (offers rounds c') old.length < len →
      Goes old rounds c') ↔ Goes old rounds c := by
  constructor
  · intro hall
    refine hall c le_rfl h.moved ?_
    rw [← h.length]
    have htotal := h.total
    have hpos := h.rest_pos
    omega
  · intro hgoes c' hc' hmoved _
    rcases Nat.eq_or_lt_of_le hc' with rfl | hlt
    · exact hgoes
    · exact absurd (hmoved c hlt) (by omega)

end

theorem next (hgoes : Goes old rounds c) :
    (∀ c' ≥ c, (∀ j < c', 0 < (rounds j).offers) → min (offers rounds c') old.length < len →
      Goes old rounds c') ↔
    ∀ c' ≥ c + 1, (∀ j < c', 0 < (rounds j).offers) → min (offers rounds c') old.length < len →
      Goes old rounds c' := by
  constructor
  · exact fun hall c' hc' => hall c' (Nat.le_of_succ_le hc')
  · intro hall c' hc' hmoved hmin
    rcases Nat.eq_or_lt_of_le hc' with rfl | hlt
    · exact hgoes
    · exact hall c' hlt hmoved hmin

theorem step (h : Copying old rounds len c rest written) {n : ℕ}
    (hn : n = min (min (rounds c).offers rest) (old.length - written.length)) (hpos : 0 < n)
    (hrest : n < rest) :
    Copying old rounds len (c + 1) (rest - n) (written ++ (old.drop written.length).take n) := by
  have hlength := h.length
  have htotal := h.total
  have hoffers : 0 < (rounds c).offers := by omega
  refine ⟨by omega, ?_, ?_, ?_⟩
  · intro j hj
    rcases Nat.lt_succ_iff_lt_or_eq.mp hj with hj | rfl
    · exact h.moved j hj
    · exact hoffers
  · -- what the round could move is what it has moved, or the rest of the file
    have hbefore : written.length = offers rounds c := by omega
    have hwritten : written = old.take written.length := by rw [hbefore, ← h.taken]
    calc written ++ (old.drop written.length).take n
        = old.take (written.length + n) := by rw [take_add, ← hwritten]
      _ = old.take (offers rounds (c + 1)) := by
        rw [take_eq_take_iff, offers_succ]
        omega
  · rw [length_append, length_take, length_drop]
    omega

theorem finish (h : Copying old rounds len c rest written)
    (hall : rest ≤ old.length - written.length) :
    Copied old len (written ++ (old.drop written.length).take rest) := by
  have hlength := h.length
  have htotal := h.total
  have hpos := h.rest_pos
  have hbefore : written.length = offers rounds c := by omega
  have hwritten : written = old.take written.length := by rw [hbefore, ← h.taken]
  refine ⟨by omega, ?_⟩
  calc written ++ (old.drop written.length).take rest
      = old.take (written.length + rest) := by rw [take_add, ← hwritten]
    _ = old.take len := by rw [← htotal, Nat.add_comm]

end Copying

theorem copyLoop_splice {bytes : ℤ} {data : List β} (hrest : rest ≠ 0)
    (hint : (rounds c).interrupted = false)
    (hsplice : doSpliceDirect (rounds c).splice old written.length (min rest ovlCopyUpChunkSize) =
      (bytes, data)) :
    copyLoop old rounds c rest written = if bytes ≤ 0 then (bytes, written ++ data)
      else copyLoop old rounds (c + 1) (rest - bytes.toNat) (written ++ data) := by
  rw [copyLoop, if_neg hrest, hint, if_neg Bool.false_ne_true, hsplice]

theorem Copying.loop_iff (h : Copying old rounds len c rest written) :
    ((copyLoop old rounds c rest written).1 = 0 →
      Copied old len (copyLoop old rounds c rest written).2) ↔
    ∀ c' ≥ c, (∀ j < c', 0 < (rounds j).offers) → min (offers rounds c') old.length < len →
      Goes old rounds c' := by
  induction hr : rest using Nat.strong_induction_on generalizing c rest written with
  | _ rest ih =>
    subst hr
    have hrest := h.rest_pos.ne'
    cases hint : (rounds c).interrupted with
    | true =>
      have hloop : copyLoop old rounds c rest written = (-eintr, written) := by
        rw [copyLoop, if_neg hrest, if_pos hint]
      rw [hloop, h.last (by rw [Round.offers, if_pos hint])]
      exact iff_of_true (fun hret => nomatch hret) (.inl hint)
    | false =>
      cases hsplice : (rounds c).splice with
      | fails code =>
        have hoffers : (rounds c).offers = 0 := by simp only [Round.offers, hint, hsplice, ite_self]
        have hneg : (-(code + 1) : ℤ) ≤ 0 := by omega
        rw [copyLoop_splice hrest hint (by rw [hsplice, doSpliceDirect]), if_pos hneg,
          h.last hoffers]
        exact iff_of_true (fun hret => by omega) (.inr (.inl ⟨code, hsplice⟩))
      | nothing =>
        have hoffers : (rounds c).offers = 0 := by simp only [Round.offers, hint, hsplice, ite_self]
        rw [copyLoop_splice hrest hint (by rw [hsplice, doSpliceDirect]), if_pos le_rfl,
          h.last hoffers, append_nil]
        exact iff_of_false (fun hall => h.not_copied (hall rfl))
          (not_goes hint (by rw [hsplice]; exact nofun) (.inl hoffers))
      | moves more =>
        have hoffers : (rounds c).offers = min (more + 1) ovlCopyUpChunkSize := by
          simp only [Round.offers, hint, hsplice, Bool.false_eq_true, if_false]
        have hchunk : 0 < ovlCopyUpChunkSize := Nat.two_pow_pos 20
        obtain ⟨n, hn⟩ : ∃ n, n = min (min (rounds c).offers rest) (old.length - written.length) :=
          ⟨_, rfl⟩
        have hdata : doSpliceDirect (rounds c).splice old written.length
            (min rest ovlCopyUpChunkSize) = ((n : ℤ), (old.drop written.length).take n) := by
          have htake :
              (old.drop written.length).take (min (more + 1) (min rest ovlCopyUpChunkSize)) =
              (old.drop written.length).take n := by
            rw [take_eq_take_iff, length_drop]
            omega
          rw [hsplice, doSpliceDirect, htake, length_take, length_drop]
          simp only [Prod.mk.injEq, and_true]
          omega
        rw [copyLoop_splice hrest hint hdata]
        have hlength := h.length
        have hpos := h.rest_pos
        rcases Nat.eq_zero_or_pos n with rfl | hmoved
        · -- the file is shorter than it was
          have hshort : old.length ≤ offers rounds c := by omega
          rw [if_pos (by exact le_rfl), take_zero, append_nil]
          refine iff_of_false (fun hall => h.not_copied (hall rfl)) fun hall => ?_
          refine not_goes hint (by rw [hsplice]; exact nofun) (.inr hshort)
            (hall c le_rfl h.moved ?_)
          have htotal := h.total
          omega
        · have hgoes : Goes old rounds c := .inr (.inr ⟨by omega, by omega⟩)
          rw [if_neg (not_le.mpr (Int.natCast_pos.mpr hmoved)), Int.toNat_natCast]
          rcases Nat.lt_or_ge n rest with hlt | hge
          · rw [ih (rest - n) (by omega) (h.step hn hmoved hlt) rfl]
            exact (Copying.next hgoes).symm
          · obtain rfl : n = rest := by omega
            have hcopied := h.finish (by omega)
            rw [Nat.sub_self, copyLoop, if_pos rfl]
            refine iff_of_true (fun _ => hcopied) fun c' hc' _ hmin => ?_
            rcases Nat.eq_or_lt_of_le hc' with rfl | hlt
            · exact hgoes
            · have hmono : offers rounds (c + 1) ≤ offers rounds c' := offers_mono hlt
              have hsucc : offers rounds (c + 1) = offers rounds c + (rounds c).offers :=
                offers_succ c
              have htotal := h.total
              have hlen := hcopied.1
              omega

/-- `ovl_copy_up_data` returns 0 with the file copied, or returns something else, if and only if the
files cannot be opened or no round before the end looks like the end of the file. -/
theorem ovlCopyUpData_iff (openOld openNew : Option ℕ) :
    ((ovlCopyUpData openOld openNew old rounds len).1 = 0 →
      Copied old len (ovlCopyUpData openOld openNew old rounds len).2) ↔
    (openOld = none → openNew = none → NeverShort old rounds len) := by
  unfold ovlCopyUpData
  split
  · rename_i hzero
    subst hzero
    exact iff_of_true (fun _ => ⟨Nat.zero_le _, rfl⟩) fun _ _ _ _ hlt =>
      absurd hlt (Nat.not_lt_zero _)
  · rename_i hlen
    cases openOld with
    | some code => exact iff_of_true (fun (hret : (-(code + 1) : ℤ) = 0) => by omega) nofun
    | none =>
      cases openNew with
      | some code =>
        exact iff_of_true (fun (hret : (-(code + 1) : ℤ) = 0) => by omega) fun _ => nofun
      | none =>
        have hstart : Copying old rounds len 0 len [] :=
          ⟨Nat.pos_of_ne_zero hlen, fun j hj => absurd hj (Nat.not_lt_zero j), by
            rw [offers, Finset.sum_range_zero, take_zero], rfl⟩
        refine hstart.loop_iff.trans ⟨fun hall _ _ c => hall c (Nat.zero_le c), ?_⟩
        exact fun hall c _ => hall rfl rfl c

end Data

/-! ## Copying up what is above a dentry -/

section Chain

variable {D β : Type}

/-- The dentries: their parents, and whether there is an `__upperdentry`. What is in the upper tree
is in a directory of the upper tree, and the root is in it. -/
structure Dentries (D : Type) where
  parent : D → D
  upper : D → Bool
  inUpper : ∀ d, upper d = true → upper (parent d) = true
  rooted : ∀ d, ∃ n, upper (parent^[n] d) = true

/-- What other tasks may do: what is in the upper tree stays there, and what is not is not renamed.
-/
structure Dentries.Grows (s s' : Dentries D) : Prop where
  upper : ∀ d, s.upper d = true → s'.upper d = true
  parent : ∀ d, s'.upper d = false → s'.parent d = s.parent d

/-- What the environment does while a dentry is copied up: what the other tasks do, what the
functions of the kernel return, and the file in the lower tree. -/
structure CopyGrant (D β : Type) where
  others : (s : Dentries D) → {s' : Dentries D // s.Grows s'}
  getattr : ℤ
  getattrParent : ℤ
  isLnk : Bool
  readSymlink : Option ℕ
  creds : Bool
  upperCreate : ℤ
  isReg : Bool
  size : ℕ
  openOld : Option ℕ
  openNew : Option ℕ
  lower : List β
  rounds : ℕ → Round
  xattr : ℤ
  setMode : ℤ
  setTimestamps : ℤ

namespace Dentries

/-- `ovl_path_type(dentry) == OVL_PATH_LOWER`. -/
def isLower (s : Dentries D) (d : D) : Prop := s.upper d = false

instance (s : Dentries D) (d : D) : Decidable (s.isLower d) := inferInstanceAs (Decidable (_ = _))

/-- A dentry that is only in the lower tree and has a parent in the upper tree. -/
abbrev Topmost (s : Dentries D) : Type := {d : D // s.isLower d ∧ s.upper (s.parent d) = true}

theorem find_pos {s : Dentries D} {d : D} (hd : s.isLower d) : 0 < Nat.find (s.rooted d) := by
  rw [Nat.find_pos]
  intro hup
  exact Bool.false_ne_true (hd.symm.trans hup)

theorem find_parent {s : Dentries D} {d : D} (hd : s.isLower d) :
    Nat.find (s.rooted (s.parent d)) < Nat.find (s.rooted d) := by
  have hpos := find_pos hd
  have hspec := Nat.find_spec (s.rooted d)
  obtain ⟨n, hn⟩ : ∃ n, Nat.find (s.rooted d) = n + 1 := Nat.exists_eq_succ_of_ne_zero hpos.ne'
  rw [hn, Function.iterate_succ_apply] at hspec
  rw [hn]
  exact Nat.lt_succ_of_le (Nat.find_le_iff _ n |>.mpr ⟨n, le_rfl, hspec⟩)

/-- The search of `ovl_copy_up` for the topmost dentry that is not copied up. -/
def topmost (s : Dentries D) (d : D) (hd : s.isLower d) : s.Topmost :=
  if h : s.isLower (s.parent d) then topmost s (s.parent d) h
  else ⟨d, hd, Bool.of_not_eq_false h⟩
termination_by Nat.find (s.rooted d)
decreasing_by exact find_parent hd

variable [DecidableEq D]

/-- `ovl_dentry_update(dentry, upperdentry)`. -/
def update (s : Dentries D) (d : D) (h : s.upper (s.parent d) = true) : Dentries D where
  parent := s.parent
  upper := Function.update s.upper d true
  inUpper x hx := by
    by_cases hp : s.parent x = d
    · rw [hp, Function.update_self]
    · rw [Function.update_of_ne hp]
      by_cases hxd : x = d
      · rw [hxd, h]
      · rw [Function.update_of_ne hxd] at hx
        exact s.inUpper x hx
  rooted x := by
    obtain ⟨n, hn⟩ := s.rooted x
    refine ⟨n, ?_⟩
    by_cases hp : s.parent^[n] x = d
    · rw [hp, Function.update_self]
    · rwa [Function.update_of_ne hp]

/-- `ovl_copy_up_locked(upperdir, dentry, lowerpath, stat, link)`, with a parent that is in the
upper tree. -/
def ovlCopyUpLocked (s : Dentries D) (g : CopyGrant D β) (d : D)
    (h : s.upper (s.parent d) = true) : ℤ × Dentries D :=
  if g.upperCreate ≠ 0 then
    -- already copied up?
    if g.upperCreate = -eexist ∧ ¬ s.isLower d then (0, s) else (g.upperCreate, s)
  else
    let data := if g.isReg then (ovlCopyUpData g.openOld g.openNew g.lower g.rounds g.size).1 else 0
    if data ≠ 0 then (data, s)
    else if g.xattr ≠ 0 then (g.xattr, s)
    else
      let err := if g.isLnk then 0 else g.setMode
      let err := if err = 0 then g.setTimestamps else err
      if err ≠ 0 then (err, s) else (0, s.update d h)

/-- `ovl_copy_up_one(parent, dentry, lowerpath, stat)`, with a parent that is in the upper tree. -/
def ovlCopyUpOne (s : Dentries D) (g : CopyGrant D β) (next : s.Topmost) : ℤ × Dentries D :=
  if g.getattrParent ≠ 0 then (g.getattrParent, s)
  else match if g.isLnk then g.readSymlink else none with
    | some code => (-(code + 1), s)
    | none =>
      if ¬ g.creds then (-enomem, s)
      else
        let s' := g.others s
        if h : s'.1.parent next.1 = s.parent next.1 then
          s'.1.ovlCopyUpLocked g next.1 (h ▸ s'.2.upper _ next.2.2)
        else (0, s'.1)

variable {s s' : Dentries D} {d : D} {g : CopyGrant D β}

omit [DecidableEq D] in
theorem Grows.refl (s : Dentries D) : s.Grows s := ⟨fun _ h => h, fun _ _ => rfl⟩

omit [DecidableEq D] in
theorem Grows.trans {s'' : Dentries D} (h : s.Grows s') (h' : s'.Grows s'') : s.Grows s'' where
  upper x hx := h'.upper x (h.upper x hx)
  parent x hx := by
    have hlow : s'.upper x = false := Bool.eq_false_of_not_eq_true fun hup =>
      Bool.false_ne_true (hx.symm.trans (h'.upper x hup))
    exact (h'.parent x hx).trans (h.parent x hlow)

theorem update_grows (h : s.upper (s.parent d) = true) : s.Grows (s.update d h) where
  upper x hx := by
    by_cases hxd : x = d
    · rw [hxd]
      exact Function.update_self ..
    · exact (Function.update_of_ne hxd ..).trans hx
  parent _ _ := rfl

/-- A result of 0 means that the dentry is in the upper tree, and nothing was lost. -/
def Done (s : Dentries D) (d : D) (r : ℤ × Dentries D) : Prop :=
  r.1 = 0 → s.Grows r.2 ∧ ¬ r.2.isLower d

omit [DecidableEq D] in
theorem Done.error {s₀ : Dentries D} {e : ℤ} {r : ℤ × Dentries D} (h : s.Done d r) :
    s.Done d (if e ≠ 0 then (e, s₀) else r) := by
  split
  · rename_i he
    exact fun hret => absurd hret he
  · exact h

theorem ovlCopyUpLocked_done (h : s.upper (s.parent d) = true) :
    s.Done d (s.ovlCopyUpLocked g d h) := by
  unfold ovlCopyUpLocked
  split
  · rename_i hcreate
    split
    · rename_i hexist
      exact fun _ => ⟨.refl s, hexist.2⟩
    · exact fun hret => absurd hret hcreate
  · refine .error (.error (.error fun _ => ⟨update_grows h, fun hlow => ?_⟩))
    exact Bool.false_ne_true (hlow.symm.trans (Function.update_self ..))

theorem ovlCopyUpOne_done (next : s.Topmost) : s.Done next.1 (s.ovlCopyUpOne g next) := by
  unfold ovlCopyUpOne
  refine .error ?_
  split
  · exact fun hret => by omega
  · split
    · exact fun hret => nomatch hret
    · have hothers := (g.others s).2
      dsimp only
      split
      · exact fun hret => (ovlCopyUpLocked_done _ hret).imp_left hothers.trans
      · rename_i hparent
        -- what was renamed is in the upper tree
        exact fun _ => ⟨hothers, fun hlow => hparent (hothers.parent _ hlow)⟩

def lowerCount [Fintype D] (s : Dentries D) : ℕ := (Finset.univ.filter fun d => s.isLower d).card

omit [DecidableEq D] in
theorem lowerCount_lt [Fintype D] (h : s.Grows s') (hd : s.isLower d) (hd' : ¬ s'.isLower d) :
    s'.lowerCount < s.lowerCount := by
  refine Finset.card_lt_card ⟨fun x hx => ?_, fun hsub => ?_⟩
  · have hlow : s'.isLower x := (Finset.mem_filter.mp hx).2
    refine Finset.mem_filter.mpr ⟨Finset.mem_univ x, Bool.eq_false_of_not_eq_true fun hup => ?_⟩
    exact Bool.false_ne_true (hlow.symm.trans (h.upper x hup))
  · exact hd' (Finset.mem_filter.mp (hsub (Finset.mem_filter.mpr ⟨Finset.mem_univ d, hd⟩))).2

/-- `ovl_copy_up(dentry)`, from one of its rounds on. -/
def ovlCopyUp [Fintype D] (gs : ℕ → CopyGrant D β) (d : D) (round : ℕ) (s : Dentries D) :
    ℤ × Dentries D :=
  if hd : s.isLower d then
    if (gs round).getattr ≠ 0 then ((gs round).getattr, s)
    else
      let next := s.topmost d hd
      let r := s.ovlCopyUpOne (gs round) next
      if hret : r.1 = 0 then ovlCopyUp gs d (round + 1) r.2 else r
  else (0, s)
termination_by s.lowerCount
decreasing_by
  obtain ⟨hgrows, hup⟩ := ovlCopyUpOne_done next hret
  exact lowerCount_lt hgrows next.2.1 hup

omit [DecidableEq D] in
theorem upper_ancestors (hd : ¬ s.isLower d) (n : ℕ) : s.upper (s.parent^[n] d) = true := by
  induction n with
  | zero => exact Bool.of_not_eq_false hd
  | succ n ih =>
    rw [Function.iterate_succ_apply']
    exact s.inUpper _ ih

theorem ovlCopyUp_upper [Fintype D] (gs : ℕ → CopyGrant D β) (round : ℕ) (s : Dentries D)
    (hret : (s.ovlCopyUp gs d round).1 = 0) (n : ℕ) :
    (s.ovlCopyUp gs d round).2.upper ((s.ovlCopyUp gs d round).2.parent^[n] d) = true := by
  fun_induction ovlCopyUp gs d round s with
  | case1 _ _ _ hgetattr => exact absurd hret hgetattr
  | case2 _ _ _ _ _ _ _ ih => exact ih hret
  | case3 _ _ _ _ _ _ hne => exact absurd hret hne
  | case4 _ _ hd => exact upper_ancestors hd n

end Dentries

/-- **Copying up.** `ovl_copy_up_data` returns 0 only with the file copied if and only if no splice
before the end returns 0; and `ovl_copy_up` ends, with an error or with the dentry and all that is
above it in the upper tree. -/
theorem copy_up_iff (β D : Type) [DecidableEq D] [Fintype D] :
    (∀ (openOld openNew : Option ℕ) (old : List β) (rounds : ℕ → Round) (len : ℕ),
      ((ovlCopyUpData openOld openNew old rounds len).1 = 0 →
        Copied old len (ovlCopyUpData openOld openNew old rounds len).2) ↔
      (openOld = none → openNew = none → NeverShort old rounds len)) ∧
    ∀ (gs : ℕ → CopyGrant D β) (d : D) (s : Dentries D), (s.ovlCopyUp gs d 0).1 = 0 →
      ∀ n, (s.ovlCopyUp gs d 0).2.upper ((s.ovlCopyUp gs d 0).2.parent^[n] d) = true :=
  ⟨fun openOld openNew _ _ _ => ovlCopyUpData_iff openOld openNew,
    fun gs _ s hret n => s.ovlCopyUp_upper gs 0 hret n⟩

/-- A file of four bytes that has only two when it is read. -/
theorem short_copy :
    ovlCopyUpData none none [1, 2] (fun _ => ⟨false, .moves 3⟩) 4 = (0, [1, 2]) ∧
      ¬ Copied [1, 2] 4 [1, 2] := by
  refine ⟨?_, fun h => absurd h.1 (by decide)⟩
  have hfirst : copyLoop [1, 2] (fun _ => ⟨false, .moves 3⟩) 0 4 [] =
      copyLoop [1, 2] (fun _ => ⟨false, .moves 3⟩) 1 2 [1, 2] :=
    copyLoop_splice (by decide) rfl rfl
  have hsecond : copyLoop [1, 2] (fun _ => ⟨false, .moves 3⟩) 1 2 [1, 2] = (0, [1, 2]) :=
    copyLoop_splice (by decide) rfl rfl
  exact hfirst.trans hsecond

end Chain

end Overlayfs
