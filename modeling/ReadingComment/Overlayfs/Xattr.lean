import ReadingComment.Lib.CString

/-!
# Extended attributes (`overlayfs.c`)

The filesystem keeps marks of its own in extended attributes, and hides these where it has merged
directories. `ovl_listxattr` takes their names out of what the real filesystem has put to the
buffer, in place: the rest of the names is moved over a name that is private.

Bytes are characters. What `vfs_listxattr`, `vfs_getxattr`, `vfs_setxattr` and `ovl_copy_up` return
is given.
-/

namespace Overlayfs

/-- `enum ovl_path_type`. -/
inductive PathType where
  | upper
  | merge
  | lower
  deriving DecidableEq, Repr

namespace Xattr

open Lib List

/-- What `ovl_listxattr` can do that it must not. -/
inductive Fault where
  /-- `BUG_ON` -/
  | bug
  /-- a read outside of the buffer -/
  | outside
  deriving DecidableEq, Repr

/-- `strncmp(s, t, n)`; the end of a list is a NUL. -/
def strncmp : ℕ → List Char → List Char → ℤ
  | 0, _, _ => 0
  | n + 1, s, t =>
    let c := s.headD '\x00'
    let d := t.headD '\x00'
    if c ≠ d then c.toNat - d.toNat
    else if c = '\x00' then 0
    else strncmp n s.tail t.tail

/-- `"trusted.overlay."`. -/
def ovlPrefix : List Char := "trusted.overlay.".toList

/-- `ovl_is_private_xattr(name)`. -/
def ovlIsPrivateXattr (name : List Char) : Bool := strncmp 14 name ovlPrefix = 0

def eperm : ℤ := -1
def enodata : ℤ := -61

/-- `ovl_setxattr(dentry, name, ..)` with what `ovl_copy_up` and `vfs_setxattr` return. -/
def ovlSetxattr (name : List Char) (copyUp vfs : ℤ) : ℤ :=
  if ovlIsPrivateXattr name then eperm
  else if copyUp ≠ 0 then copyUp
  else vfs

/-- `ovl_getxattr(dentry, name, ..)` with the type of the parent and what `vfs_getxattr` returns. -/
def ovlGetxattr (parent : PathType) (name : List Char) (vfs : ℤ) : ℤ :=
  if parent = .merge ∧ ovlIsPrivateXattr name then enodata else vfs

/-- `strlen` at the beginning of what is left of a buffer. -/
def strlen (bytes : List Char) : Except Fault ℕ :=
  if '\x00' ∈ bytes then .ok (cstr bytes).length else .error .outside

/-- `memmove(list + dst, list + src, n)`. -/
def memmove (list : List Char) (dst src n : ℕ) : Except Fault (List Char) :=
  if src + n ≤ list.length ∧ dst + n ≤ list.length then
    .ok (list.take dst ++ (list.drop src).take n ++ list.drop (dst + n))
  else .error .outside

/-- The loop of `ovl_listxattr`. -/
def filterLoop (list : List Char) (off res : ℕ) : Except Fault (ℕ × List Char) :=
  if off < res then do
    let s := list.drop off
    let slen := (← strlen s) + 1
    if off + slen > res then .error .bug
    else if ovlIsPrivateXattr (cstr s) then
      filterLoop (← memmove list off (off + slen) (res - slen - off)) off (res - slen)
    else filterLoop list (off + slen) res
  else .ok (res, list)
termination_by res - off

/-- `ovl_listxattr(dentry, list, size)` with the type of the parent, what `vfs_listxattr` returns
and what it leaves in the buffer. -/
def ovlListxattr (parent : PathType) (res : ℤ) (list : List Char) (size : ℕ) :
    Except Fault (ℤ × List Char) :=
  if res ≤ 0 ∨ size = 0 then .ok (res, list)
  else if parent ≠ .merge then .ok (res, list)
  else do
    let (res, list) ← filterLoop list 0 res.toNat
    return (res, list)

/-! ## Names -/

/-- The name of an attribute: it has no NUL. -/
@[ext] structure AttrName : Type where
  chars : List Char
  noNul : '\x00' ∉ chars
  deriving DecidableEq

def text (names : List AttrName) : List Char := names.flatMap fun n => n.chars ++ ['\x00']

def AttrName.own (n : AttrName) : Bool := ovlPrefix.isPrefixOf n.chars

@[simp] theorem text_nil : text [] = [] := rfl

theorem text_cons (n : AttrName) (names : List AttrName) :
    text (n :: names) = n.chars ++ '\x00' :: text names := by
  rw [text, flatMap_cons, append_assoc]
  rfl

theorem cstr_text (n : AttrName) (rest : List Char) :
    cstr (n.chars ++ '\x00' :: rest) = n.chars := by
  apply takeWhile_append_stop
  · intro c hc
    rw [bne_iff_ne]
    rintro rfl
    exact n.noNul hc
  · rintro c hc
    cases hc
    rfl

theorem strlen_text (n : AttrName) (rest : List Char) :
    strlen (n.chars ++ '\x00' :: rest) = .ok n.chars.length := by
  rw [strlen, if_pos (mem_append_right _ mem_cons_self), cstr_text]

theorem strncmp_eq_zero {n : ℕ} {s t : List Char} (hn : n ≤ t.length) (ht : '\x00' ∉ t) :
    strncmp n s t = 0 ↔ t.take n <+: s := by
  induction n generalizing s t with
  | zero => exact iff_of_true rfl nil_prefix
  | succ n ih =>
    obtain ⟨d, t, rfl⟩ := exists_cons_of_length_pos (Nat.zero_lt_of_lt hn)
    obtain ⟨hd, htail⟩ := ne_and_not_mem_of_not_mem_cons ht
    rw [strncmp, headD_cons, tail_cons, take_succ_cons]
    have hsub : ∀ c : Char, c ≠ d → (c.toNat : ℤ) - d.toNat ≠ 0 := by
      intro c hne heq
      exact hne (Char.toNat_inj.mp (by omega))
    cases s with
    | nil =>
      rw [headD_nil, if_pos hd]
      exact iff_of_false (hsub _ hd) fun h => nomatch prefix_nil.mp h
    | cons c s =>
      rw [headD_cons, tail_cons, cons_prefix_cons]
      by_cases heq : c = d
      · subst heq
        rw [if_neg (not_not_intro rfl), if_neg hd.symm, ih (Nat.le_of_succ_le_succ hn) htail]
        exact (and_iff_right rfl).symm
      · rw [if_pos heq]
        exact iff_of_false (hsub c heq) fun h => heq h.1.symm

variable {name : List Char}

/-- **What is private**: a name that begins with the first fourteen characters of the prefix. -/
theorem isPrivate_iff :
    ovlIsPrivateXattr name = true ↔ "trusted.overla".toList <+: name := by
  rw [ovlIsPrivateXattr, decide_eq_true_iff, strncmp_eq_zero (by decide) (by decide)]
  rfl

/-! ## The loop -/

/-- **The loop takes the private names out** of those behind `off`, and keeps the others in their
order. -/
theorem filterLoop_spec (names : List AttrName) (done rest : List Char) : ∃ rest',
    filterLoop (done ++ text names ++ rest) done.length (done ++ text names).length =
      .ok ((done ++ text (names.filter fun n => ! ovlIsPrivateXattr n.chars)).length,
        done ++ text (names.filter fun n => ! ovlIsPrivateXattr n.chars) ++ rest') := by
  induction names generalizing done rest with
  | nil =>
    refine ⟨rest, ?_⟩
    rw [filterLoop, if_neg (by simp)]
    rfl
  | cons n names ih =>
    have hlen : (done ++ text (n :: names)).length =
        done.length + (n.chars.length + 1) + (text names).length := by
      rw [length_append, text_cons, length_append, length_cons]
      omega
    have hdrop : (done ++ text (n :: names) ++ rest).drop done.length =
        n.chars ++ '\x00' :: (text names ++ rest) := by
      rw [append_assoc, drop_left, text_cons, append_assoc, cons_append]
    have hnext : done.length + (n.chars.length + 1) = (done ++ (n.chars ++ ['\x00'])).length := by
      rw [length_append, length_append, length_singleton]
    have hlist : done ++ text (n :: names) ++ rest =
        done ++ (n.chars ++ ['\x00']) ++ text names ++ rest := by
      rw [text_cons]
      simp only [append_assoc, cons_append, nil_append]
    rw [filterLoop, if_pos (by omega), hdrop]
    simp only [strlen_text, bind, Except.bind, cstr_text]
    rw [if_neg (by omega)]
    cases hpriv : ovlIsPrivateXattr n.chars with
    | true =>
      -- the rest of the names is moved over this one
      have hkept : (done ++ text (n :: names)).length - (n.chars.length + 1) - done.length =
          (text names).length := by omega
      have hmove : memmove (done ++ text (n :: names) ++ rest) done.length
          (done.length + (n.chars.length + 1)) (text names).length =
          .ok (done ++ text names ++
            (done ++ text (n :: names) ++ rest).drop (done.length + (text names).length)) := by
        have hfits : (done ++ text (n :: names) ++ rest).length =
            done.length + (n.chars.length + 1) + (text names).length + rest.length := by
          rw [length_append, hlen]
        rw [memmove, if_pos (by omega)]
        congr 3
        · rw [append_assoc, take_left]
        · rw [hlist, hnext, append_assoc, drop_left, take_left]
      have hres : (done ++ text (n :: names)).length - (n.chars.length + 1) =
          (done ++ text names).length := by
        rw [hlen]
        have hsum : (done ++ text names).length = done.length + (text names).length :=
          length_append
        omega
      rw [hkept, if_pos rfl]
      simp only [hmove, hres, filter_cons, hpriv, Bool.not_true, Bool.false_eq_true, if_false]
      exact ih done _
    | false =>
      obtain ⟨rest', hih⟩ := ih (done ++ (n.chars ++ ['\x00'])) rest
      refine ⟨rest', ?_⟩
      have hwhole : (done ++ text (n :: names)).length =
          (done ++ (n.chars ++ ['\x00']) ++ text names).length := by
        rw [hlen, hnext]
        exact length_append.symm
      rw [if_neg Bool.false_ne_true, hlist, hnext, hwhole, hih]
      simp only [filter_cons, hpriv, Bool.not_false, if_true, text_cons, append_assoc,
        cons_append, nil_append]

/-! ## What is listed -/

theorem text_injective {names names' : List AttrName} (h : text names = text names') :
    names = names' := by
  induction names generalizing names' with
  | nil =>
    cases names' with
    | nil => rfl
    | cons n' names' =>
      rw [text_cons] at h
      exact absurd (congrArg List.length h) (by simp)
  | cons n names ih =>
    cases names' with
    | nil =>
      rw [text_cons] at h
      exact absurd (congrArg List.length h) (by simp)
    | cons n' names' =>
      have hplain : ∀ m : AttrName, ∀ c ∈ m.chars, (c != '\x00') = true := by
        intro m c hc
        rw [bne_iff_ne]
        rintro rfl
        exact m.noNul hc
      have hstop : ∀ rest : List Char, ∀ c ∈ ('\x00' :: rest).head?, (c != '\x00') = false := by
        rintro rest c hc
        cases hc
        rfl
      rw [text_cons, text_cons] at h
      obtain ⟨hchars, hrest⟩ := append_stop_inj (hplain n) (hstop _) (hplain n') (hstop _) h
      rw [AttrName.ext hchars, ih (List.cons.inj hrest).2]

/-- `ovl_getxattr` treats a name as private in a merged directory: the real filesystem is not asked.
-/
def GetHides (name : List Char) : Prop := ∀ vfs, ovlGetxattr .merge name vfs = enodata

/-- `ovl_setxattr` treats a name as private. -/
def SetHides (name : List Char) : Prop := ∀ copyUp vfs, ovlSetxattr name copyUp vfs = eperm

theorem getHides_iff : GetHides name ↔ ovlIsPrivateXattr name = true := by
  constructor
  · intro h
    by_contra hnot
    have h0 := h 0
    rw [ovlGetxattr, if_neg fun hin => hnot hin.2] at h0
    exact absurd h0 (by decide)
  · intro h vfs
    exact if_pos ⟨rfl, h⟩

theorem setHides_iff : SetHides name ↔ ovlIsPrivateXattr name = true := by
  constructor
  · intro h
    by_contra hnot
    have h0 := h 0 0
    rw [ovlSetxattr, if_neg hnot] at h0
    exact absurd h0 (by decide)
  · intro h copyUp vfs
    exact if_pos h

/-- The names are what is listed, in their order, and the length of the list is returned. -/
def Lists (r : Except Fault (ℤ × List Char)) (names : List AttrName) : Prop :=
  ∃ rest, r = .ok (((text names).length : ℕ), text names ++ rest)

theorem Lists.unique {r : Except Fault (ℤ × List Char)} {names names' : List AttrName}
    (h : Lists r names) (h' : Lists r names') : names = names' := by
  obtain ⟨rest, hr⟩ := h
  obtain ⟨rest', hr'⟩ := h'
  obtain ⟨hlen, hlist⟩ := Prod.mk.inj (Except.ok.inj (hr.symm.trans hr'))
  have heq := append_inj_left hlist (Int.ofNat_inj.mp hlen)
  exact text_injective heq

theorem listxattr_spec (names : List AttrName) (rest : List Char) :
    Lists (ovlListxattr .merge ((text names).length : ℕ) (text names ++ rest)
      (text names ++ rest).length) (names.filter fun n => ! ovlIsPrivateXattr n.chars) := by
  rw [ovlListxattr]
  split
  case isTrue hnone =>
    -- nothing is listed
    have hnil : names = [] := by
      cases names with
      | nil => rfl
      | cons n names =>
        have hpos : 0 < (text (n :: names)).length := by
          rw [text_cons, length_append, length_cons]
          omega
        rw [length_append] at hnone
        omega
    subst hnil
    exact ⟨rest, rfl⟩
  case isFalse =>
    obtain ⟨rest', hloop⟩ := filterLoop_spec names [] rest
    refine ⟨rest', ?_⟩
    rw [if_neg (not_not_intro rfl)]
    change (filterLoop ([] ++ text names ++ rest) 0 ([] ++ text names).length >>= _) = _
    rw [show (0 : ℕ) = ([] : List Char).length from rfl, hloop]
    rfl

/-- **Attributes in a merged directory.** A name is listed if and only if neither `ovl_getxattr` nor
`ovl_setxattr` treats it as private; the names that are listed are those without the prefix if and
only if every name that begins like the prefix up to its fourteenth character has all of it. -/
theorem listxattr_filters_iff (names : List AttrName) (rest : List Char) :
    (∃ listed, Lists (ovlListxattr .merge ((text names).length : ℕ) (text names ++ rest)
        (text names ++ rest).length) listed ∧
      ∀ n ∈ names, (n ∈ listed ↔ ¬ GetHides n.chars) ∧ (n ∈ listed ↔ ¬ SetHides n.chars)) ∧
    (Lists (ovlListxattr .merge ((text names).length : ℕ) (text names ++ rest)
        (text names ++ rest).length) (names.filter fun n => ! n.own) ↔
      ∀ n ∈ names, "trusted.overla".toList <+: n.chars → ovlPrefix <+: n.chars) := by
  have hspec := listxattr_spec names rest
  constructor
  · refine ⟨_, hspec, fun n hn => ?_⟩
    rw [getHides_iff, setHides_iff, List.mem_filter, Bool.not_eq_true', Bool.not_eq_true,
      and_iff_right hn]
    exact ⟨Iff.rfl, Iff.rfl⟩
  · have hown : ∀ n : AttrName, n.own = true ↔ ovlPrefix <+: n.chars :=
      fun n => List.isPrefixOf_iff_prefix
    have hpriv : ∀ n : AttrName, n.own = true → ovlIsPrivateXattr n.chars = true := by
      intro n h
      rw [isPrivate_iff]
      exact List.IsPrefix.trans (by decide) ((hown n).mp h)
    constructor
    · intro hlists n hn hbegins
      have heq := hlists.unique hspec
      by_contra hnot
      have hin : n ∈ names.filter fun n => ! n.own :=
        List.mem_filter.mpr ⟨hn, by rw [Bool.not_eq_true', ← Bool.not_eq_true, hown]; exact hnot⟩
      rw [heq, List.mem_filter, isPrivate_iff.mpr hbegins] at hin
      exact Bool.false_ne_true hin.2
    · intro hcond
      have heq : (names.filter fun n => ! n.own) =
          names.filter fun n => ! ovlIsPrivateXattr n.chars := by
        apply List.filter_congr
        intro n hn
        rw [Bool.not_inj_iff, Bool.eq_iff_iff]
        exact ⟨hpriv n, fun h => (hown n).mpr (hcond n hn (isPrivate_iff.mp h))⟩
      rw [heq]
      exact hspec

/-- `trusted.overlap` is not one of the names with the prefix, and is not listed. -/
theorem listxattr_hides_other : ∃ n : AttrName, n.chars = "trusted.overlap".toList ∧
    (∃ rest, ovlListxattr .merge 16 (text [n]) 16 = .ok (0, rest)) ∧
    ¬ Lists (ovlListxattr .merge 16 (text [n]) 16) ([n].filter fun n => ! n.own) := by
  have hspec := listxattr_spec [⟨"trusted.overlap".toList, by decide⟩] []
  refine ⟨⟨"trusted.overlap".toList, by decide⟩, rfl, hspec, fun hlists => ?_⟩
  exact absurd (hlists.unique hspec) (by decide)

end Xattr

end Overlayfs
