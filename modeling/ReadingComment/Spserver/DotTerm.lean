import Mathlib.Data.List.TakeWhile
import ReadingComment.Lib.CString
import ReadingComment.Lib.Bytes
import ReadingComment.Lib.Run

/-!
# Memory of the decoders for messages that end with a dot (`spserver/spmsgdecoder.cpp`)

A message ends with a line that is a single dot, and a line of the message that begins with a dot
has another dot in front of it. These dots are removed in the array that has the message and a NUL:
`src` reads and `des` writes. One decoder waits until the whole message is in the input buffer; the
other one puts full buffers on a list and looks for the terminator in the new buffer, or across its
beginning, for which it copies the last five bytes of its last buffer to a small array.

What is read or written outside of an array is a fault. Lengths of buffers are of type `size_t`, and
those of messages are cut to `int`.
-/

namespace Spserver

open Lib List
open Lib (Bytes)

namespace DotTerm

def lf : UInt8 := 10
def cr : UInt8 := 13
def dot : UInt8 := 46

/-- `"\r\n.\r\n"`. -/
def crlfDot : Bytes := [cr, lf, dot, cr, lf]

/-- `"\n.\n"`. -/
def lfDot : Bytes := [lf, dot, lf]

/-- What is undefined in the source. -/
inductive Fault where
  /-- a read or write outside of the allocated memory -/
  | outside
  /-- a negative length is taken for a size -/
  | negative
  /-- a failed assertion -/
  | assertion
  deriving DecidableEq

/-- The loop that removes dots: `prev` is before `src`, and the list is what is allocated from `src`
on. The result is what was copied up to the NUL. -/
def undot (prev : UInt8) : Bytes → Except Fault Bytes
  | [] => .error .outside
  | c :: cs =>
    if c = 0 then .ok []
    else if c = dot ∧ prev = lf then
      -- the dot is skipped, and what is after it is copied whatever it is
      match cs with
      | [] => .error .outside
      | d :: ds => (d :: ·) <$> undot d ds
    else (c :: ·) <$> undot c cs

def cstr (bytes : Bytes) : Bytes := bytes.takeWhile (· ≠ 0)

/-- Where a decoder finds a terminator: the other one is looked for if the first is not there. -/
def findTerm (bytes : Bytes) : Option ℕ := find crlfDot bytes <|> find lfDot bytes

/-- How long the terminator is that begins where these bytes begin. -/
def termLength (bytes : Bytes) : ℕ := if lfDot <+: bytes then 3 else 5

/-- `MAX_SIZE_PER_CHUNK`. -/
def maxSizePerChunk : ℕ := 1024 * 64

/-- The list of full buffers and the input buffer. -/
structure Chunks where
  mList : List Bytes
  inBuffer : Bytes
  deriving DecidableEq

/-- A buffer that is nearly full becomes a part of the list. -/
def Chunks.park (s : Chunks) : Chunks :=
  if maxSizePerChunk - 1024 * 4 ≤ s.inBuffer.length then ⟨s.mList ++ [s.inBuffer], []⟩ else s

/-- `*des = c`. -/
def writeAt (mem : Bytes) (des : ℕ) (c : UInt8) : Except Fault Bytes :=
  if des < mem.length then .ok (mem.set des c) else .error .outside

/-- The loop that copies a message and leaves its dots out. -/
def unstuffLoop (mem : Bytes) (src des : ℕ) : Except Fault Bytes :=
  if h : src < mem.length then
    if mem[src] = 0 then writeAt mem des 0
    else
      let next := if mem[src] = dot ∧ mem[src - 1]? = some lf then src + 1 else src
      match mem[next]? with
      | none => .error .outside
      | some c =>
        if des < mem.length then unstuffLoop (mem.set des c) (next + 1) (des + 1)
        else .error .outside
  else .error .outside
termination_by mem.length - src
decreasing_by
  rw [List.length_set]
  split <;> omega

/-- The array of `SP_DotTermMsgDecoder::decode`: `len + 1` bytes with the message and a NUL, in
which the dots are removed. The place of the terminator is cut to the `int` `len`, and nothing is
allocated for a negative `len + 1`. -/
def unstuffInPlace (msg : Bytes) : Except Fault Bytes :=
  let len := toInt msg.length
  if 0 ≤ len ∧ len + 1 < 2 ^ 31 then unstuffLoop (msg.take len.toNat ++ [0]) 1 1
  else .error .outside

/-- `SP_DotTermChunkMsgDecoder::getMsg`: all of the list is copied to an array of `totalSize + 1`
bytes. -/
def getMsg (mList : List Bytes) : Except Fault Bytes :=
  let totalSize := toInt mList.flatten.length
  if totalSize < mList.flatten.length then .error .outside else unstuffInPlace mList.flatten

/-- `dotTerm`, an array of 16 bytes, with the last five bytes of the previous buffer and the first
five of the input buffer. -/
def carryOver (prev inBuffer : Bytes) : Except Fault Bytes :=
  if prev.length < 5 then .error .outside
  else .ok (prev.drop (prev.length - 5) ++ inBuffer.take 5 ++
    List.replicate (11 - (inBuffer.take 5).length) 0)

/-- `SP_Buffer::truncate(len)`. -/
def truncate (b : Bytes) (len : ℤ) : Except Fault Bytes :=
  if len < toInt b.length then if len < 0 then .error .negative else .ok (b.take len.toNat)
  else .ok b

/-- `SP_DotTermChunkMsgDecoder::decode`: whether it returns `eOK`, and the list and the input
buffer. `atPos` is what is at `pos` after `getBuffer()`, which may move the bytes of the buffer away
from it. -/
def decodeList (s : Chunks) (atPos : Bytes) : Except Fault (Bool × Chunks) :=
  if s.inBuffer.length = 0 then .ok (false, s)
  else
    match findTerm s.inBuffer with
    | some pos =>
      if pos = 0 then .ok (true, ⟨s.mList, s.inBuffer.drop (termLength s.inBuffer)⟩)
      else if toInt pos < 0 then .error .negative
      else
        let len := (toInt pos).toNat
        .ok (true, ⟨s.mList ++ [s.inBuffer.take len], s.inBuffer.drop (len + termLength atPos)⟩)
    | none =>
      match s.mList.getLast? with
      | none => .ok (false, s.park)
      | some prev => do
        let dotTerm ← carryOver prev s.inBuffer
        match findTerm (cstr dotTerm) with
        | none => return (false, s.park)
        | some pos =>
          let prevLen : ℤ := 5 - pos
          let lastLen : ℤ := termLength ((cstr dotTerm).drop pos) - prevLen
          if prevLen < 5 ∧ lastLen < 5 then
            let prev ← truncate prev (toInt (prev.length - prevLen))
            -- a negative length drains the buffer
            return (true, ⟨s.mList.dropLast ++ [prev],
              if lastLen < 0 then [] else s.inBuffer.drop lastLen.toNat⟩)
          else .error .assertion

/-- A chunk decoder between two calls; `ready` when `decode` returned `eOK` and `getMsg` was not
called since. -/
structure Decoder where
  chunks : Chunks
  ready : Bool

/-- Bytes come and are decoded, or the message is taken. -/
inductive Act where
  | read (bytes atPos : Bytes)
  | getMsg

/-- A read, and the decoder after it. -/
def Decoder.step (w : Decoder) : Act → Except Fault Decoder
  | .read bytes atPos => do
    let (ready, s) ← decodeList { w.chunks with inBuffer := w.chunks.inBuffer ++ bytes } atPos
    return ⟨s, ready⟩
  | .getMsg => do
    let _ ← DotTerm.getMsg w.chunks.mList
    return ⟨{ w.chunks with mList := [] }, false⟩

/-- Both decoders on the same reads. -/
def decoders : System Decoder Act Fault where
  init := ⟨⟨[], []⟩, false⟩
  Allowed _ _ := True
  step := Decoder.step

/-! ## What is meant -/

/-- The message ends with a line feed and a dot, as it is seen behind the byte `prev`. -/
def Dangling (prev : UInt8) (cs : Bytes) : Prop := [lf, dot] <:+ prev :: cs

def Skips (prev : UInt8) (cs : Bytes) : Prop :=
  ∀ before after, cs = before ++ 0 :: after → Dangling prev before

/-- **The loop reads behind the end** of these messages: of no message, and of one whose last line
is a dot, unless a NUL stops it before (one from the second byte on that is not behind such a dot).
-/
def Overruns : Bytes → Prop
  | [] => True
  | c :: cs => Dangling c cs ∧ Skips c cs

/-- **The loop stays in the array** for these messages; the length of the array is an `int`. -/
structure InBounds (msg : Bytes) : Prop where
  short : msg.length + 1 < 2 ^ 31
  stops : ¬ Overruns msg

/-! ## The loop -/

theorem not_dangling_nil (prev : UInt8) : ¬ Dangling prev [] := by
  intro h
  have hlen := h.length_le
  simp at hlen

theorem dangling_cons {prev c : UInt8} {cs : Bytes} (h : ¬ (c = dot ∧ prev = lf)) :
    Dangling prev (c :: cs) ↔ Dangling c cs := by
  unfold Dangling
  rw [suffix_cons_iff]
  constructor
  · rintro (heq | htail)
    · simp only [List.cons.injEq] at heq
      exact absurd ⟨heq.2.1.symm, heq.1.symm⟩ h
    · exact htail
  · exact Or.inr

theorem dangling_dot (d : UInt8) (ds : Bytes) :
    Dangling lf (dot :: d :: ds) ↔ Dangling d ds := by
  unfold Dangling
  rw [suffix_cons_iff, suffix_cons_iff]
  constructor
  · rintro (heq | heq | htail)
    · simp at heq
    · simp [lf, dot] at heq
    · exact htail
  · exact fun htail => Or.inr (Or.inr htail)

theorem skips_cons {prev c : UInt8} {cs : Bytes} (hc : c ≠ 0) (h : ¬ (c = dot ∧ prev = lf)) :
    Skips prev (c :: cs) ↔ Skips c cs := by
  constructor
  · rintro hskips before after rfl
    exact (dangling_cons h).mp (hskips (c :: before) after rfl)
  · intro hskips before after heq
    cases before with
    | nil => exact absurd (List.cons.inj heq).1 hc
    | cons d before =>
      obtain ⟨rfl, htail⟩ := List.cons.inj heq
      exact (dangling_cons h).mpr (hskips before after htail)

theorem skips_dot (d : UInt8) (ds : Bytes) : Skips lf (dot :: d :: ds) ↔ Skips d ds := by
  constructor
  · rintro hskips before after rfl
    exact (dangling_dot d before).mp (hskips (dot :: d :: before) after rfl)
  · intro hskips before after heq
    rcases before with _ | ⟨x, _ | ⟨y, before⟩⟩
    · cases heq
    · cases heq
      exact suffix_rfl
    · obtain ⟨rfl, hfirst⟩ := List.cons.inj heq
      obtain ⟨rfl, hrest⟩ := List.cons.inj hfirst
      exact (dangling_dot d before).mpr (hskips before after hrest)

theorem map_eq_error {f : Bytes → Bytes} {x : Except Fault Bytes} :
    (∃ e, f <$> x = .error e) ↔ ∃ e, x = .error e := by
  cases x with
  | error e => exact iff_of_true ⟨e, rfl⟩ ⟨e, rfl⟩
  | ok r => exact iff_of_false (fun ⟨_, h⟩ => nomatch h) fun ⟨_, h⟩ => nomatch h

/-- **Where the loop faults**, with any NULs. -/
theorem undot_eq_error_iff : ∀ {cs : Bytes} {prev : UInt8},
    (∃ e, undot prev (cs ++ [0]) = .error e) ↔ Dangling prev cs ∧ Skips prev cs
  | [], prev => by
    refine iff_of_false ?_ fun h => not_dangling_nil prev h.1
    rw [nil_append, undot, if_pos rfl]
    rintro ⟨_, ⟨⟩⟩
  | c :: cs, prev => by
    rw [cons_append, undot.eq_def]
    dsimp only
    by_cases hc : c = 0
    case pos =>
      rw [if_pos hc]
      refine iff_of_false (by rintro ⟨_, ⟨⟩⟩) fun h => not_dangling_nil prev (h.2 [] cs ?_)
      rw [hc, nil_append]
    case neg =>
      rw [if_neg hc]
      by_cases hdot : c = dot ∧ prev = lf
      · rw [if_pos hdot]
        obtain ⟨rfl, rfl⟩ := hdot
        cases cs with
        | nil =>
          refine iff_of_true ⟨_, rfl⟩ ⟨suffix_rfl, fun before after heq => ?_⟩
          rcases before with _ | ⟨x, before⟩
          · cases heq
          · cases before <;> cases heq
        | cons d ds =>
          rw [dangling_dot, skips_dot, ← @undot_eq_error_iff ds d]
          exact map_eq_error
      · rw [if_neg hdot, dangling_cons hdot, skips_cons hc hdot, ← @undot_eq_error_iff cs c]
        exact map_eq_error

theorem length_undot :
    ∀ {cs : Bytes} {prev : UInt8} {r : Bytes}, undot prev cs = .ok r → r.length < cs.length
  | [], prev, r, h => by
    rw [undot] at h
    cases h
  | c :: cs, prev, r, h => by
    rw [undot.eq_def] at h
    dsimp only at h
    split at h
    · cases h
      exact Nat.succ_pos _
    · split at h
      · cases cs with
        | nil => cases h
        | cons d ds =>
          dsimp only at h
          rcases hrest : undot d ds with e | r'
          · rw [hrest] at h
            cases h
          · rw [hrest] at h
            cases h
            have := length_undot hrest
            simp only [length_cons]
            omega
      · rcases hrest : undot c cs with e | r'
        · rw [hrest] at h
          cases h
        · rw [hrest] at h
          cases h
          exact Nat.succ_lt_succ (length_undot hrest)

/-! ## The array -/

theorem set_copied (out junk : Bytes) (c : UInt8) (cs : Bytes) : ∃ junk' : Bytes,
    (out ++ junk ++ c :: cs).set out.length c = (out ++ [c]) ++ junk' ++ cs ∧
      junk'.length = junk.length ∧ ((out ++ [c]) ++ junk').getLast? = some c := by
  cases junk with
  | nil =>
    refine ⟨[], ?_, rfl, ?_⟩
    · rw [append_nil, append_nil, set_append_right _ _ le_rfl, Nat.sub_self, append_assoc]
      rfl
    · rw [append_nil, getLast?_concat]
  | cons j junk =>
    refine ⟨junk ++ [c], ?_, by rw [length_append]; rfl, ?_⟩
    · rw [append_assoc, set_append_right _ _ le_rfl, Nat.sub_self]
      simp
    · rw [← append_assoc, getLast?_concat]

theorem unstuffLoop_step {mem : Bytes} {src des : ℕ} {c prev : UInt8} (hc : mem[src]? = some c)
    (hprev : mem[src - 1]? = some prev) (hdes : des ≤ src) :
    unstuffLoop mem src des =
      if c = 0 then .ok (mem.set des 0)
      else if c = dot ∧ prev = lf then
        match mem[src + 1]? with
        | none => .error .outside
        | some d => unstuffLoop (mem.set des d) (src + 2) (des + 1)
      else unstuffLoop (mem.set des c) (src + 1) (des + 1) := by
  obtain ⟨hsrc, hget⟩ := List.getElem?_eq_some_iff.mp hc
  have hlf : mem[src - 1]? = some lf ↔ prev = lf := by
    rw [hprev, Option.some_inj]
  rw [unstuffLoop, dif_pos hsrc, hget]
  dsimp only
  by_cases hzero : c = 0
  · rw [if_pos hzero, if_pos hzero, writeAt, if_pos (hdes.trans_lt hsrc)]
  · rw [if_neg hzero, if_neg hzero]
    by_cases hdot : c = dot ∧ prev = lf
    · rw [if_pos hdot, if_pos ⟨hdot.1, hlf.mpr hdot.2⟩]
      cases mem[src + 1]? with
      | none => rfl
      | some d =>
        dsimp only
        rw [if_pos (hdes.trans_lt hsrc)]
    · rw [if_neg hdot, if_neg fun h => hdot ⟨h.1, hlf.mp h.2⟩, hc]
      dsimp only
      rw [if_pos (hdes.trans_lt hsrc)]

/-- The array after a run of the loop from `des` on, which copied `r`. -/
def copied (mem : Bytes) (des : ℕ) (r : Bytes) : Bytes :=
  mem.take des ++ r ++ 0 :: mem.drop (des + r.length + 1)

theorem unstuffLoop_copied {out junk cs : Bytes} {c : UInt8}
    (ih : ∀ (out junk : Bytes) (prev : UInt8), (out ++ junk).getLast? = some prev →
      unstuffLoop (out ++ junk ++ cs) (out ++ junk).length out.length =
        (undot prev cs).map (copied (out ++ junk ++ cs) out.length)) :
    unstuffLoop ((out ++ junk ++ c :: cs).set out.length c) ((out ++ junk).length + 1)
      (out.length + 1) =
      ((c :: ·) <$> undot c cs).map (copied (out ++ junk ++ c :: cs) out.length) := by
  obtain ⟨junk', hset, hlength, hlast⟩ := set_copied out junk c cs
  have hsrc : (out ++ [c] ++ junk').length = (out ++ junk).length + 1 := by
    simp only [length_append, length_singleton, hlength]
    omega
  have hrun := ih (out ++ [c]) junk' c hlast
  have hone : (out ++ [c]).length = out.length + 1 := by rw [length_append, length_singleton]
  rw [hsrc, hone, ← hset] at hrun
  rw [hrun]
  cases undot c cs with
  | error e => rfl
  | ok r =>
    refine congrArg Except.ok ?_
    have hfront :
        ((out ++ junk ++ c :: cs).set out.length c).take (out.length + 1) = out ++ [c] := by
      rw [hset, append_assoc, take_left' hone]
    have hout : (out ++ junk ++ c :: cs).take out.length = out := by
      rw [append_assoc, take_left]
    rw [copied, copied, hfront, hout, drop_set_of_lt (by omega), append_assoc out [c] r,
      length_cons, Nat.add_right_comm out.length 1 r.length]
    rfl

/-- **The loop in the array** copies what the loop over the bytes gives, and a NUL; the bytes behind
stay. -/
theorem unstuffLoop_spec :
    ∀ (tail out junk : Bytes) (prev : UInt8), (out ++ junk).getLast? = some prev →
    unstuffLoop (out ++ junk ++ tail) (out ++ junk).length out.length =
      (undot prev tail).map (copied (out ++ junk ++ tail) out.length)
  | [], out, junk, prev, _ => by
    rw [unstuffLoop, dif_neg (by rw [append_nil]; exact lt_irrefl _), undot]
    rfl
  | c :: cs, out, junk, prev, hprev => by
    have hne : out ++ junk ≠ [] := fun h => by
      rw [h] at hprev
      cases hprev
    have hc : (out ++ junk ++ c :: cs)[(out ++ junk).length]? = some c := by
      rw [getElem?_append_right le_rfl, Nat.sub_self]
      rfl
    have hnext : (out ++ junk ++ c :: cs)[(out ++ junk).length + 1]? = cs[0]? := by
      rw [getElem?_append_right (Nat.le_add_right _ 1), Nat.add_sub_cancel_left]
      rfl
    have hlast : (out ++ junk ++ c :: cs)[(out ++ junk).length - 1]? = some prev := by
      rw [getElem?_append_left (Nat.sub_lt (length_pos_of_ne_nil hne) Nat.one_pos),
        ← getLast?_eq_getElem?, hprev]
    have hdes : out.length ≤ (out ++ junk).length := by
      rw [length_append]
      exact Nat.le_add_right _ _
    rw [unstuffLoop_step hc hlast hdes, undot.eq_def, hnext]
    dsimp only
    by_cases hzero : c = 0
    case pos =>
      have hlt : out.length < (out ++ junk ++ c :: cs).length := by
        simp only [length_append, length_cons]
        omega
      rw [if_pos hzero, if_pos hzero, set_eq_take_append_cons_drop, if_pos hlt]
      refine congrArg Except.ok ?_
      rw [copied, append_nil]
      rfl
    case neg =>
      rw [if_neg hzero, if_neg hzero]
      by_cases hdot : c = dot ∧ prev = lf
      · rw [if_pos hdot, if_pos hdot]
        cases cs with
        | nil => rfl
        | cons d ds =>
          have hmem : out ++ (junk ++ [c]) ++ d :: ds = out ++ junk ++ c :: d :: ds := by
            rw [← append_assoc, append_assoc (out ++ junk)]
            rfl
          have hsrc : (out ++ (junk ++ [c])).length = (out ++ junk).length + 1 := by
            rw [← append_assoc, length_append, length_singleton]
          have hrun : unstuffLoop ((out ++ (junk ++ [c]) ++ d :: ds).set out.length d) _ _ = _ :=
            unstuffLoop_copied (unstuffLoop_spec ds)
          rw [hmem, hsrc] at hrun
          exact hrun
      · rw [if_neg hdot, if_neg hdot]
        exact unstuffLoop_copied (unstuffLoop_spec cs)

/-! ## The message -/

theorem toInt_length {n : ℕ} (h : n + 1 < 2 ^ 31) : toInt n = n := by
  rw [toInt]
  exact Int.bmod_eq_of_le (by omega) (by omega)

theorem toInt_le (n : ℕ) : toInt n ≤ n := by
  rw [toInt, Int.bmod_eq_emod]
  split <;> omega

/-- The loop with the message and a NUL in its array. -/
def unstuffed (msg : Bytes) : Except Fault Bytes := unstuffLoop (msg ++ [0]) 1 1

theorem unstuffInPlace_of_short {msg : Bytes} (h : msg.length + 1 < 2 ^ 31) :
    unstuffInPlace msg = unstuffed msg := by
  rw [unstuffInPlace, toInt_length h]
  rw [if_pos ⟨Int.natCast_nonneg _, by omega⟩, Int.toNat_natCast, take_length]
  rfl

theorem unstuffed_cons (c : UInt8) (cs : Bytes) :
    unstuffed (c :: cs) = (undot c (cs ++ [0])).map (copied (c :: (cs ++ [0])) 1) := by
  rw [unstuffed]
  exact unstuffLoop_spec (cs ++ [0]) [c] [] c rfl

theorem unstuffed_nil : unstuffed [] = .error .outside := by
  rw [unstuffed, unstuffLoop]
  rfl

/-- What an array should be in the end: it has not grown, and has a NUL. -/
structure Terminated (msg mem : Bytes) : Prop where
  length : mem.length = msg.length + 1
  nul : 0 ∈ mem

/-- **Where the loop does not stay in the array.** -/
theorem unstuffed_eq_error (msg : Bytes) : (∃ e, unstuffed msg = .error e) ↔ Overruns msg := by
  cases msg with
  | nil => exact iff_of_true ⟨_, unstuffed_nil⟩ trivial
  | cons c cs =>
    rw [Overruns, ← undot_eq_error_iff, unstuffed_cons]
    cases undot c (cs ++ [0]) with
    | error e => exact iff_of_true ⟨e, rfl⟩ ⟨e, rfl⟩
    | ok r => exact iff_of_false (fun ⟨_, h⟩ => nomatch h) fun ⟨_, h⟩ => nomatch h

theorem unstuffed_terminated {msg mem : Bytes} (h : unstuffed msg = .ok mem) :
    Terminated msg mem := by
  cases msg with
  | nil =>
    rw [unstuffed_nil] at h
    cases h
  | cons c cs =>
    rw [unstuffed_cons] at h
    rcases hloop : undot c (cs ++ [0]) with e | r
    · rw [hloop] at h
      cases h
    · rw [hloop] at h
      cases h
      have hlt := length_undot hloop
      rw [length_append, length_singleton] at hlt
      refine ⟨?_, mem_append_right _ (mem_cons_self ..)⟩
      rw [copied]
      simp only [length_append, length_cons, length_take, length_drop, length_nil]
      omega

theorem unstuffed_iff (msg : Bytes) :
    (∃ mem, unstuffed msg = .ok mem ∧ Terminated msg mem) ↔ ¬ Overruns msg := by
  rw [← unstuffed_eq_error]
  constructor
  · rintro ⟨mem, hmem, -⟩ ⟨e, herr⟩
    rw [hmem] at herr
    cases herr
  · intro hno
    rcases hmem : unstuffed msg with e | mem
    · exact absurd ⟨e, hmem⟩ hno
    · exact ⟨mem, rfl, unstuffed_terminated hmem⟩

/-- **One message** of the decoder that waits for all. A longer message than an `int` has does not
get its `len + 1` bytes. -/
theorem unstuffInPlace_iff (msg : Bytes) :
    (∃ mem, unstuffInPlace msg = .ok mem ∧ Terminated msg mem) ↔ InBounds msg := by
  by_cases hshort : msg.length + 1 < 2 ^ 31
  · rw [unstuffInPlace_of_short hshort, unstuffed_iff]
    exact ⟨fun hstops => ⟨hshort, hstops⟩, fun h => h.stops⟩
  · refine iff_of_false ?_ fun h => hshort h.short
    rintro ⟨mem, hmem, hterm⟩
    rw [unstuffInPlace] at hmem
    split at hmem
    · rename_i hlen
      have hmem' : unstuffed (msg.take (toInt msg.length).toNat) = .ok mem := hmem
      have hsize := (unstuffed_terminated hmem').length
      rw [hterm.length, length_take] at hsize
      omega
    · cases hmem

theorem getMsg_iff (mList : List Bytes) :
    (∃ mem, getMsg mList = .ok mem ∧ Terminated mList.flatten mem) ↔
    InBounds mList.flatten := by
  rw [getMsg]
  by_cases hshort : mList.flatten.length + 1 < 2 ^ 31
  · rw [toInt_length hshort, if_neg (lt_irrefl _)]
    exact unstuffInPlace_iff _
  · refine iff_of_false ?_ fun h => hshort h.short
    rintro ⟨mem, hmem, hterm⟩
    split at hmem
    · cases hmem
    · exact hshort ((unstuffInPlace_iff _).mp ⟨mem, hmem, hterm⟩).short

theorem getMsg_terminated {mList : List Bytes} {mem : Bytes} (h : getMsg mList = .ok mem) :
    Terminated mList.flatten mem := by
  rw [getMsg] at h
  split at h
  · cases h
  · rename_i hall
    have hle := toInt_le mList.flatten.length
    have hlen : toInt mList.flatten.length = mList.flatten.length := by omega
    rw [unstuffInPlace, hlen] at h
    split at h
    · rw [Int.toNat_natCast, take_length] at h
      exact unstuffed_terminated h
    · cases h

/-! ## The chunk decoder -/

def Chunks.Full (s : Chunks) : Prop := ∀ c ∈ s.mList, 5 ≤ c.length

theorem Chunks.Full.park {s : Chunks} (h : s.Full) : s.park.Full := by
  unfold Chunks.park
  split
  · rename_i hlong
    intro c hc
    rcases mem_append.mp hc with hc | hc
    · exact h c hc
    · obtain rfl := mem_singleton.mp hc
      rw [maxSizePerChunk] at hlong
      omega
  · exact h

theorem carryOver_short {prev : Bytes} (h : prev.length < 5) (inBuffer : Bytes) :
    carryOver prev inBuffer = .error .outside := if_pos h

theorem truncate_ne_outside (b : Bytes) (len : ℤ) : truncate b len ≠ .error .outside := by
  rw [truncate]
  split
  · split <;> rintro ⟨⟩
  · rintro ⟨⟩

theorem decodeList_outside {s : Chunks} {atPos : Bytes} : decodeList s atPos = .error .outside ↔
    s.inBuffer.length ≠ 0 ∧ findTerm s.inBuffer = none ∧
      ∃ prev, s.mList.getLast? = some prev ∧ prev.length < 5 := by
  rw [decodeList]
  by_cases hempty : s.inBuffer.length = 0
  · rw [if_pos hempty]
    exact iff_of_false nofun fun h => h.1 hempty
  rw [if_neg hempty]
  cases findTerm s.inBuffer with
  | some pos =>
    refine iff_of_false ?_ fun h => nomatch h.2.1
    dsimp only
    split
    · rintro ⟨⟩
    · split <;> rintro ⟨⟩
  | none =>
    cases s.mList.getLast? with
    | none => exact iff_of_false nofun fun ⟨_, _, _, h, _⟩ => nomatch h
    | some prev =>
      dsimp only
      by_cases hshort : prev.length < 5
      · rw [carryOver_short hshort]
        exact iff_of_true rfl ⟨hempty, rfl, prev, rfl, hshort⟩
      · refine iff_of_false (fun h => ?_) fun ⟨_, _, _, h, hlt⟩ => hshort (Option.some.inj h ▸ hlt)
        rw [carryOver, if_neg hshort] at h
        change (match findTerm (cstr _) with | none => _ | some pos => _) = _ at h
        split at h
        · cases h
        · split at h
          · rcases htrunc : truncate prev _ with e | prev'
            · rw [htrunc] at h
              cases h
              exact truncate_ne_outside _ _ htrunc
            · rw [htrunc] at h
              cases h
          · cases h

/-! ## Runs -/

/-- The condition of a run: the message is taken before the next bytes are decoded, and the loop
stays in the array. -/
def Decoder.Fits (w : Decoder) : Act → Prop
  | .read _ _ => w.ready = false
  | .getMsg => InBounds w.chunks.mList.flatten

/-- What holds between two calls: the buffers on the list are full, unless a message is there. -/
def Decoder.Inv (w : Decoder) : Prop := w.ready = false → w.chunks.Full

theorem decodeList_full {s s' : Chunks} {atPos : Bytes} (hfull : s.Full)
    (h : decodeList s atPos = .ok (false, s')) : s'.Full := by
  rw [decodeList] at h
  split at h
  · cases h
    exact hfull
  · split at h
    · split at h
      · cases h
      · split at h
        · cases h
        · cases h
    · split at h
      · cases h
        exact hfull.park
      · obtain ⟨mem, -, h⟩ := bind_eq_ok h
        dsimp only at h
        split at h
        · cases h
          exact hfull.park
        · split at h
          · obtain ⟨prev, -, h⟩ := bind_eq_ok h
            cases h
          · cases h

theorem Decoder.Inv.step {w w' : Decoder} {a : Act} (hinv : w.Inv) (hfits : w.Fits a)
    (h : w.step a = .ok w') :
    w'.Inv := by
  cases a with
  | read bytes atPos =>
    obtain ⟨⟨ready, s⟩, hdecode, h⟩ := bind_eq_ok h
    cases h
    intro (hready : ready = false)
    rw [hready] at hdecode
    exact decodeList_full (s := { w.chunks with inBuffer := w.chunks.inBuffer ++ bytes })
      (hinv hfits) hdecode
  | getMsg =>
    obtain ⟨mem, -, h⟩ := bind_eq_ok h
    cases h
    exact fun _ => nofun

theorem inv_of_reach {w : Decoder} (h : decoders.Reach Decoder.Fits w) : w.Inv :=
  h.invariant (fun _ => nofun) fun _ _ _ hinv _ hfits hstep => hinv.step hfits hstep

theorem step_getMsg (w : Decoder) :
    (∃ w', w.step .getMsg = .ok w') ↔ InBounds w.chunks.mList.flatten := by
  rw [← getMsg_iff, Decoder.step]
  rcases hmem : getMsg w.chunks.mList with e | mem
  · exact iff_of_false (fun ⟨_, h⟩ => nomatch h) fun ⟨_, h, _⟩ => nomatch h
  · exact iff_of_true ⟨_, rfl⟩ ⟨mem, rfl, getMsg_terminated hmem⟩

theorem step_read (w : Decoder) (bytes atPos : Bytes) :
    w.step (.read bytes atPos) = .error .outside ↔
    (w.chunks.inBuffer ++ bytes).length ≠ 0 ∧ findTerm (w.chunks.inBuffer ++ bytes) = none ∧
      ∃ prev, w.chunks.mList.getLast? = some prev ∧ prev.length < 5 := by
  have hout := @decodeList_outside { w.chunks with inBuffer := w.chunks.inBuffer ++ bytes } atPos
  rw [← hout, Decoder.step]
  cases decodeList { w.chunks with inBuffer := w.chunks.inBuffer ++ bytes } atPos with
  | error e =>
    exact ⟨fun h => congrArg _ (Except.error.inj h), fun h => congrArg _ (Except.error.inj h)⟩
  | ok r => exact iff_of_false nofun nofun

/-- **Dot-unstuffing stays in bounds**: in both decoders the loop stays in the `len + 1` bytes of
its array and leaves a NUL there just if the message does not make it read behind the end and has a
length that is an `int` with one byte more; what is carried over is in the last buffer just if this
has five bytes; and it has them in every run in which each message is taken before the next bytes
are decoded. -/
theorem dots_in_bounds (msg : Bytes) (mList : List Bytes) (w : Decoder) :
    ((∃ mem, unstuffInPlace msg = .ok mem ∧ Terminated msg mem) ↔ InBounds msg) ∧
    ((∃ mem, getMsg mList = .ok mem ∧ Terminated mList.flatten mem) ↔
      InBounds mList.flatten) ∧
    (∀ bytes atPos, w.step (.read bytes atPos) = .error .outside ↔
      (w.chunks.inBuffer ++ bytes).length ≠ 0 ∧ findTerm (w.chunks.inBuffer ++ bytes) = none ∧
        ∃ prev, w.chunks.mList.getLast? = some prev ∧ prev.length < 5) ∧
    (decoders.Reach Decoder.Fits w →
      (∀ bytes atPos, w.Fits (.read bytes atPos) → w.step (.read bytes atPos) ≠ .error .outside) ∧
      ((∃ w', w.step .getMsg = .ok w') ↔ w.Fits .getMsg)) := by
  refine ⟨unstuffInPlace_iff msg, getMsg_iff mList, step_read w, fun hreach => ⟨?_, step_getMsg w⟩⟩
  intro bytes atPos hready hout
  obtain ⟨-, -, prev, hlast, hshort⟩ := (step_read w bytes atPos).mp hout
  have hfull := inv_of_reach hreach hready prev (List.mem_of_getLast? hlast)
  exact absurd hshort (Nat.not_lt_of_le hfull)

/-- The message `"ab"` before CR LF . CR LF is taken. -/
theorem dots_in_bounds_taken :
    ∃ w', (⟨⟨[[97, 98]], []⟩, true⟩ : Decoder).step .getMsg = .ok w' := by
  have hreach : decoders.Reach Decoder.Fits ⟨⟨[[97, 98]], []⟩, true⟩ :=
    .step (a := .read [97, 98, 13, 10, 46, 13, 10] crlfDot) .init trivial rfl rfl
  have hplain : ¬ [lf, dot] <:+ ([97, 98] : Bytes) := by decide
  exact ((dots_in_bounds [97, 98] [[97, 98]] _).2.2.2 hreach).2.mpr
    ⟨by decide, fun hover => hplain hover.1⟩

/-- A line and a dot, as they are before CR LF . CR LF. -/
theorem dot_line_overruns :
    ¬ ∃ mem, unstuffInPlace [97, 10, 46] = .ok mem ∧ Terminated [97, 10, 46] mem := by
  intro hmem
  refine ((unstuffInPlace_iff _).mp hmem).stops ⟨⟨[97], rfl⟩, fun before after heq => ?_⟩
  have hzero : (0 : UInt8) ∈ [10, 46] := heq ▸ List.mem_append_right _ (List.mem_cons_self ..)
  exact absurd hzero (by decide)

end DotTerm

end Spserver
