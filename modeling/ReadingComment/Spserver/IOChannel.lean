import Mathlib.Data.List.Infix
import Mathlib.Tactic.Linarith
import ReadingComment.Lib.Bytes
import ReadingComment.Lib.Run

/-!
# Outgoing data of a session (`spserver/spiochannel.cpp`)

`transmit` fills a vector of at most `SP_MAX_IOV` pieces from the messages of a session, starting
behind what was written before, and calls `write_vec`; then it takes the messages that are written
in full off the list, and calls itself while something was written and messages are left. A message
has a buffer and follow blocks. What becomes of a message that is taken off is told elsewhere.

`write_vec` returns what its environment answers, but no more than what it is given. One round of
`transmit` is one call of `write_vec`. A sum that is not an `int` is a fault; the number of bytes
that `transmit` returns in the end is not cut to 32 bits.
-/

namespace Spserver

open Lib (Bytes)
open List

namespace IOChannel

inductive Fault where
  /-- `getOutOffset() + len` is no `int` -/
  | overflow
  deriving DecidableEq, Repr

/-- An `SP_Message`: `getMsg()` and `getFollowBlockList()`. -/
structure Message where
  msg : Bytes
  followBlocks : List Bytes
  deriving DecidableEq

/-- The pieces of a message, in the order in which they are sent. -/
def Message.pieces (m : Message) : List Bytes := m.msg :: m.followBlocks

/-- `getTotalSize()`. -/
def Message.totalSize (m : Message) : ℕ := m.msg.length + (m.followBlocks.map List.length).sum

def text (ms : List Message) : Bytes := (ms.flatMap Message.pieces).flatten

/-- The vector that is filled: the pieces so far, and what is to be skipped of the next ones. -/
structure Vec where
  iov : List Bytes
  outOffset : ℕ

/-- A piece is skipped, or put to the vector from `outOffset` on. -/
def Vec.add (v : Vec) (piece : Bytes) : Vec :=
  if piece.length ≤ v.outOffset then { v with outOffset := v.outOffset - piece.length }
  else ⟨v.iov ++ [piece.drop v.outOffset], 0⟩

def fillBlocks (maxIov : ℕ) : List Bytes → Vec → Vec
  | [], v => v
  | b :: bs, v => if v.iov.length < maxIov then fillBlocks maxIov bs (v.add b) else v

def fillMsgs (maxIov : ℕ) : List Message → Vec → Vec
  | [], v => v
  | m :: ms, v =>
    if v.iov.length <
      maxIov then fillMsgs maxIov ms (fillBlocks maxIov m.followBlocks (v.add m.msg))
    else v

/-- The loop that takes the messages off the list that are written in full: those, the others, and
how much of the first one of these is written. -/
def takeSent : List Message → ℕ → List Message × List Message × ℕ
  | [], outOffset => ([], [], outOffset)
  | m :: ms, outOffset =>
    if m.totalSize ≤ outOffset then
      (m :: (takeSent ms (outOffset - m.totalSize)).1, (takeSent ms (outOffset - m.totalSize)).2)
    else ([], m :: ms, outOffset)

/-- Where a session is: `transmit` calls itself, it has returned, or messages came since. -/
inductive Phase where
  | calling
  | returned
  | idle
  deriving DecidableEq, Repr

/-- The `outList` and the `outOffset` of a session; and all messages that were put on the list,
those that were taken off it, and what `write_vec` has written. -/
structure Session where
  outList : List Message
  outOffset : ℕ
  phase : Phase
  queued : List Message
  taken : List Message
  written : Bytes

/-- The vector that `write_vec` is called with. -/
def Session.iov (maxIov : ℕ) (s : Session) : List Bytes :=
  (fillMsgs maxIov s.outList ⟨[], s.outOffset⟩).iov

/-- What `write_vec` returns. -/
def Session.writeVec (maxIov : ℕ) (s : Session) (answer : BitVec 32) : ℤ :=
  min answer.toInt (s.iov maxIov).flatten.length

/-- `transmit` up to where it calls itself, and the result of `write_vec`. -/
def Session.round (maxIov : ℕ) (s : Session) (answer : BitVec 32) : Except Fault (Session × ℤ) :=
  let len := s.writeVec maxIov answer
  if 0 < len then
    let outOffset := s.outOffset + len
    if 2 ^ 31 ≤ outOffset then .error .overflow
    else
      let (taken, outList, outOffset) := takeSent s.outList outOffset.toNat
      .ok ({ s with
        outList := outList
        outOffset := outOffset
        phase := if outList = [] then .returned else .calling
        taken := s.taken ++ taken
        written := s.written ++ (s.iov maxIov).flatten.take len.toNat }, len)
  else .ok ({ s with phase := .returned }, len)

/-- `SP_IOChannel::transmit(session)` with the answers to the calls of `write_vec`, unless it has
not returned after so many rounds. -/
def transmit (maxIov : ℕ) : ℕ → (ℕ → BitVec 32) → Session → Except Fault (Option (Session × ℤ))
  | 0, _, _ => .ok none
  | rounds + 1, answers, s => do
    let (s, len) ← s.round maxIov (answers 0)
    if s.phase = .calling then
      match ← transmit maxIov rounds (fun k => answers (k + 1)) s with
      | none => return none
      | some (s, tmpLen) => return some (s, if 0 < tmpLen then len + tmpLen else len)
    else return some (s, len)

/-- What happens to a session: a message is put on the list, or a round of `transmit`. -/
inductive Act where
  | append (m : Message)
  | round (answer : BitVec 32)

def Session.step (maxIov : ℕ) (s : Session) : Act → Except Fault Session
  | .append m =>
    .ok { s with outList := s.outList ++ [m], phase := .idle, queued := s.queued ++ [m] }
  | .round answer => Prod.fst <$> s.round maxIov answer

/-- A session with nothing to send. Messages come between the calls of `transmit`. -/
def sessions (maxIov : ℕ) : Lib.System Session Act Fault where
  init := ⟨[], 0, .idle, [], [], []⟩
  Allowed s a := ∀ m, a = .append m → s.phase ≠ .calling
  step := Session.step maxIov

/-! ## What is meant -/

/-- The offset is within the first message that is left, or 0 if there is none. -/
def Session.InFirst (s : Session) : Prop :=
  match s.outList with
  | [] => s.outOffset = 0
  | m :: _ => s.outOffset < m.totalSize

/-- **The outgoing data of a session are in order.** What is written and what is left come to what
the messages say; the messages that are taken off the list are the first ones. When `transmit` has
returned, the offset is within the first message that is left, and exactly the messages that are
written in full were taken off. Whatever is answered, `transmit` comes to an end. -/
structure Session.Sound (maxIov : ℕ) (s : Session) : Prop where
  data : s.written ++ (text s.outList).drop s.outOffset = text s.queued
  messages : s.taken ++ s.outList = s.queued
  first : s.phase = .returned → s.InFirst
  complete : s.phase = .returned → ∀ n ≤ s.queued.length,
    (text (s.queued.take n)).length ≤ s.written.length ↔ n ≤ s.taken.length
  ends : ∀ answers, transmit maxIov ((text s.outList).length - s.outOffset + 1) answers s ≠ .ok none

/-- The condition under which a round is right: the sum of the offset and what is written is an
`int`, and where nothing is written the first message is not empty. -/
def Session.Fits (maxIov : ℕ) (s : Session) : Act → Prop
  | .append _ => True
  | .round answer =>
    (0 < s.writeVec maxIov answer → s.outOffset + s.writeVec maxIov answer < 2 ^ 31) ∧
      (s.writeVec maxIov answer ≤ 0 → ∀ m, s.outList.head? = some m → 0 < m.totalSize)

/-! ## Pieces -/

theorem text_append (ms ms' : List Message) : text (ms ++ ms') = text ms ++ text ms' := by
  rw [text, text, text, flatMap_append, flatten_append]

theorem text_cons (m : Message) (ms : List Message) :
    text (m :: ms) = m.pieces.flatten ++ text ms := by
  rw [text, text, flatMap_cons, flatten_append]

theorem length_pieces (m : Message) : m.pieces.flatten.length = m.totalSize := by
  rw [Message.pieces, length_flatten, map_cons, sum_cons, Message.totalSize]

theorem length_text_cons (m : Message) (ms : List Message) :
    (text (m :: ms)).length = m.totalSize + (text ms).length := by
  rw [text_cons, length_append, length_pieces]

theorem Vec.add_spec (v : Vec) (piece rest : Bytes) :
    (v.add piece).iov.flatten ++ rest.drop (v.add piece).outOffset =
      v.iov.flatten ++ (piece ++ rest).drop v.outOffset := by
  rw [Vec.add]
  split
  case isTrue hle => rw [drop_append, drop_eq_nil_of_le hle, nil_append]
  case isFalse hlt =>
    rw [flatten_append, flatten_singleton, drop_zero, append_assoc,
      drop_append_of_le_length (Nat.le_of_not_le hlt)]

theorem fillBlocks_spec (maxIov : ℕ) (bs : List Bytes) (v : Vec) (rest : Bytes) : ∃ bs',
    (fillBlocks maxIov bs v).iov.flatten ++ (bs' ++ rest).drop (fillBlocks maxIov bs v).outOffset =
      v.iov.flatten ++ (bs.flatten ++ rest).drop v.outOffset ∧
    ((fillBlocks maxIov bs v).iov.length < maxIov → bs' = []) := by
  induction bs generalizing v with
  | nil => exact ⟨[], rfl, fun _ => rfl⟩
  | cons b bs ih =>
    rw [fillBlocks]
    split
    case isTrue =>
      obtain ⟨bs', heq, hfull⟩ := ih (v.add b)
      refine ⟨bs', ?_, hfull⟩
      rw [heq, Vec.add_spec, flatten_cons, append_assoc]
    case isFalse hfull => exact ⟨(b :: bs).flatten, rfl, fun h => absurd h hfull⟩

theorem fillMsgs_full {maxIov : ℕ} {v : Vec} (h : ¬ v.iov.length < maxIov) (ms : List Message) :
    fillMsgs maxIov ms v = v := by
  cases ms with
  | nil => rfl
  | cons m ms => rw [fillMsgs, if_neg h]

/-- **The vector has what is next**: the messages from the offset on, as far as it goes. -/
theorem fillMsgs_spec (maxIov : ℕ) (ms : List Message) (v : Vec) : ∃ later,
    (fillMsgs maxIov ms v).iov.flatten ++ later = v.iov.flatten ++ (text ms).drop v.outOffset := by
  induction ms generalizing v with
  | nil => exact ⟨_, rfl⟩
  | cons m ms ih =>
    rw [fillMsgs]
    split
    case isFalse => exact ⟨_, rfl⟩
    case isTrue =>
      obtain ⟨bs', heq, hfull⟩ := fillBlocks_spec maxIov m.followBlocks (v.add m.msg) (text ms)
      rw [Vec.add_spec, ← append_assoc m.msg] at heq
      rw [text_cons, Message.pieces, flatten_cons, ← heq]
      by_cases hroom : (fillBlocks maxIov m.followBlocks (v.add m.msg)).iov.length < maxIov
      · rw [hfull hroom]
        exact ih _
      · rw [fillMsgs_full hroom]
        exact ⟨_, rfl⟩

theorem takeSent_spec (ms : List Message) (off : ℕ) :
    (takeSent ms off).1 ++ (takeSent ms off).2.1 = ms ∧
    (text (takeSent ms off).1).length + (takeSent ms off).2.2 = off ∧
    (text (takeSent ms off).2.1).drop (takeSent ms off).2.2 = (text ms).drop off ∧
    ∀ m, (takeSent ms off).2.1.head? = some m → (takeSent ms off).2.2 < m.totalSize := by
  induction ms generalizing off with
  | nil => exact ⟨rfl, Nat.zero_add off, rfl, nofun⟩
  | cons m ms ih =>
    rw [takeSent]
    split
    case isTrue hle =>
      obtain ⟨hsplit, hlen, hdrop, hfirst⟩ := ih (off - m.totalSize)
      have hbehind : (text (m :: ms)).drop off = (text ms).drop (off - m.totalSize) := by
        rw [text_cons, drop_append, length_pieces,
          drop_eq_nil_of_le (by rw [length_pieces]; exact hle), nil_append]
      refine ⟨congrArg (m :: ·) hsplit, ?_, hdrop.trans hbehind.symm, hfirst⟩
      dsimp only
      rw [length_text_cons]
      omega
    case isFalse hlt =>
      refine ⟨rfl, Nat.zero_add off, rfl, fun m' hm' => ?_⟩
      cases hm'
      exact Nat.lt_of_not_le hlt

/-! ## Rounds -/

namespace Session

variable {maxIov : ℕ} {s s' : Session} {answer : BitVec 32} {len : ℤ}

/-- `n` more bytes are written. -/
def wrote (s : Session) (n : ℕ) : Session :=
  let sent := takeSent s.outList (s.outOffset + n)
  { s with
    outList := sent.2.1
    outOffset := sent.2.2
    phase := if sent.2.1 = [] then .returned else .calling
    taken := s.taken ++ sent.1
    written := s.written ++ ((text s.outList).drop s.outOffset).take n }

/-- **What a round does**: it writes the next bytes and takes off the messages that are written in
full, or it returns. -/
theorem round_cases (h : s.round maxIov answer = .ok (s', len)) :
    (∃ n : ℕ, 0 < n ∧ s.outOffset + n < 2 ^ 31 ∧ n ≤ (text s.outList).length - s.outOffset ∧
      s' = s.wrote n) ∨
    s.writeVec maxIov answer ≤ 0 ∧ s' = { s with phase := .returned } := by
  obtain ⟨later, hvec⟩ := fillMsgs_spec maxIov s.outList ⟨[], s.outOffset⟩
  rw [flatten_nil, nil_append] at hvec
  rw [round] at h
  dsimp only at h
  split at h
  case isFalse hneg =>
    cases h
    exact .inr ⟨not_lt.mp hneg, rfl⟩
  case isTrue hpos =>
    split at h
    case isTrue => cases h
    case isFalse hint =>
      cases h
      obtain ⟨n, hn⟩ := Int.eq_ofNat_of_zero_le hpos.le
      have hle : n ≤ (s.iov maxIov).flatten.length := by
        have : s.writeVec maxIov answer ≤ (s.iov maxIov).flatten.length := min_le_right _ _
        omega
      have htake : (s.iov maxIov).flatten.take n = ((text s.outList).drop s.outOffset).take n := by
        rw [← hvec]
        exact (take_append_of_le_length hle).symm
      have hlength : (s.iov maxIov).flatten.length ≤ (text s.outList).length - s.outOffset := by
        rw [← length_drop, ← hvec, length_append]
        exact Nat.le_add_right _ _
      refine .inl ⟨n, by omega, by omega, by omega, ?_⟩
      rw [hn, Int.toNat_natCast, htake, show (s.outOffset + (n : ℤ)).toNat =
        s.outOffset + n by omega]
      rfl

theorem round_eq_error : (∃ e, s.round maxIov answer = .error e) ↔
    0 < s.writeVec maxIov answer ∧ 2 ^ 31 ≤ s.outOffset + s.writeVec maxIov answer := by
  rw [round]
  dsimp only
  split
  case isFalse hneg => exact iff_of_false (fun ⟨_, h⟩ => nomatch h) fun h => hneg h.1
  case isTrue hpos =>
    split
    case isTrue hint => exact iff_of_true ⟨_, rfl⟩ ⟨hpos, hint⟩
    case isFalse hint => exact iff_of_false (fun ⟨_, h⟩ => nomatch h) fun h => hint h.2

/-- What holds between the rounds. -/
structure Inv (s : Session) : Prop where
  data : s.written ++ (text s.outList).drop s.outOffset = text s.queued
  messages : s.taken ++ s.outList = s.queued
  progress : s.written.length = (text s.taken).length + s.outOffset
  start : ∀ m, s.outList.head? = some m → s.outOffset < m.totalSize ∨ s.outOffset = 0
  first : s.phase = .returned → s.InFirst

theorem Inv.offset_le (h : s.Inv) : s.outOffset ≤ (text s.outList).length := by
  have hlen := congrArg List.length h.data
  rw [← h.messages, text_append, length_append, length_append, length_drop, h.progress]
    at hlen
  omega

theorem Inv.append (h : s.Inv) (m : Message) : Inv { s with
    outList := s.outList ++ [m], phase := .idle, queued := s.queued ++ [m] } := by
  refine ⟨?_, ?_, h.progress, ?_, nofun⟩
  · show s.written ++ (text (s.outList ++ [m])).drop s.outOffset = text (s.queued ++ [m])
    rw [text_append, text_append, drop_append_of_le_length h.offset_le, ← append_assoc, h.data]
  · show s.taken ++ (s.outList ++ [m]) = s.queued ++ [m]
    rw [← append_assoc, h.messages]
  · intro m' hm'
    cases hlist : s.outList with
    | nil =>
      right
      have hle := h.offset_le
      rw [hlist] at hle
      exact Nat.le_zero.mp hle
    | cons m₁ ms =>
      refine h.start m' ?_
      rw [hlist] at hm' ⊢
      exact hm'

theorem left_takeSent (ms : List Message) (off n : ℕ) :
    (text (takeSent ms (off + n)).2.1).length - (takeSent ms (off + n)).2.2 =
      (text ms).length - off - n := by
  rw [← length_drop, (takeSent_spec ms (off + n)).2.2.1, length_drop, Nat.sub_sub]

theorem Inv.wrote (h : s.Inv) {n : ℕ} (hle : n ≤ (text s.outList).length - s.outOffset) :
    Inv (s.wrote n) := by
  obtain ⟨hsplit, hlen, hdrop, hfirst⟩ := takeSent_spec s.outList (s.outOffset + n)
  have hoff := h.offset_le
  rw [Session.wrote]
  refine ⟨?_, ?_, ?_, fun m hm => .inl (hfirst m hm), ?_⟩
  · show s.written ++ ((text s.outList).drop s.outOffset).take n ++ (text _).drop _ = text s.queued
    rw [hdrop, ← drop_drop, append_assoc, take_append_drop, h.data]
  · show s.taken ++ (takeSent s.outList (s.outOffset + n)).1 ++ _ = s.queued
    rw [append_assoc, hsplit, h.messages]
  · show (s.written ++ ((text s.outList).drop s.outOffset).take n).length =
      (text (s.taken ++ (takeSent s.outList (s.outOffset + n)).1)).length + _
    rw [length_append, length_take_of_le (by rw [length_drop]; exact hle), text_append,
      length_append, Nat.add_assoc, hlen, h.progress, Nat.add_assoc]
  · intro hreturned
    have hnil : (takeSent s.outList (s.outOffset + n)).2.1 = [] := by
      by_contra hne
      rw [if_neg hne] at hreturned
      cases hreturned
    have hall : (takeSent s.outList (s.outOffset + n)).1 = s.outList := by
      rw [hnil, append_nil] at hsplit
      exact hsplit
    rw [hall] at hlen
    rw [InFirst]
    rw [hnil]
    show (takeSent s.outList (s.outOffset + n)).2.2 = 0
    omega

theorem Inv.round (h : s.Inv) (hfits : s.Fits maxIov (.round answer))
    (hr : s.round maxIov answer = .ok (s', len)) : s'.Inv := by
  rcases round_cases hr with ⟨n, -, -, hle, rfl⟩ | ⟨hneg, rfl⟩
  case inl => exact h.wrote hle
  case inr =>
    refine ⟨h.data, h.messages, h.progress, h.start, fun _ => ?_⟩
    have hoff := h.offset_le
    show match s.outList with
      | [] => s.outOffset = 0
      | m :: _ => s.outOffset < m.totalSize
    cases hlist : s.outList with
    | nil =>
      rw [hlist] at hoff
      exact Nat.le_zero.mp hoff
    | cons m ms =>
      have hhead : s.outList.head? = some m := by rw [hlist]; rfl
      have hpos := hfits.2 hneg m hhead
      rcases h.start m hhead with hlt | hzero
      · exact hlt
      · show s.outOffset < m.totalSize
        omega

theorem transmit_ends (rounds : ℕ) (answers : ℕ → BitVec 32)
    (h : (text s.outList).length - s.outOffset < rounds) :
    transmit maxIov rounds answers s ≠ .ok none := by
  induction rounds generalizing answers s with
  | zero => exact absurd h (Nat.not_lt_zero _)
  | succ rounds ih =>
    intro hnone
    rcases hr : s.round maxIov (answers 0) with e | ⟨s₁, len⟩
    · rw [transmit, hr] at hnone
      cases hnone
    · simp only [transmit, hr, bind, Except.bind, pure, Except.pure] at hnone
      split at hnone
      case isFalse => cases hnone
      case isTrue hcalling =>
        have hleft : (text s₁.outList).length - s₁.outOffset < rounds := by
          rcases round_cases hr with ⟨n, hpos, -, hle, rfl⟩ | ⟨-, rfl⟩
          · show (text (takeSent _ _).2.1).length - (takeSent _ _).2.2 < rounds
            rw [left_takeSent]
            omega
          · cases hcalling
        rcases hrec : transmit maxIov rounds (fun k => answers (k + 1)) s₁ with e | _ | ⟨s₂, tmpLen⟩
        · rw [hrec] at hnone
          cases hnone
        · exact ih _ hleft hrec
        · rw [hrec] at hnone
          cases hnone

theorem Inv.complete (h : s.Inv) (hfirst : s.InFirst) {n : ℕ} (hn : n ≤ s.queued.length) :
    (text (s.queued.take n)).length ≤ s.written.length ↔ n ≤ s.taken.length := by
  rw [h.progress, ← h.messages]
  constructor
  case mpr =>
    intro hle
    rw [take_append_of_le_length hle]
    have : (text s.taken).length =
        (text (s.taken.take n)).length + (text (s.taken.drop n)).length := by
      rw [← length_append, ← text_append, take_append_drop]
    omega
  case mp =>
    intro hle
    by_contra hlt
    rw [InFirst] at hfirst
    cases hlist : s.outList with
    | nil =>
      rw [← h.messages, hlist, append_nil] at hn
      exact hlt hn
    | cons m ms =>
      rw [hlist] at hle hfirst
      obtain ⟨k, hk⟩ := Nat.exists_eq_add_of_lt (Nat.lt_of_not_le hlt)
      rw [hk, Nat.add_assoc, take_length_add_append, take_succ_cons, text_append,
        length_append, length_text_cons] at hle
      dsimp only at hfirst
      omega

theorem Inv.sound (h : s.Inv) : s.Sound maxIov where
  data := h.data
  messages := h.messages
  first := h.first
  complete hreturned _ hn := h.complete (h.first hreturned) hn
  ends answers := transmit_ends _ answers (Nat.lt_succ_self _)

end Session

/-! ## Sessions -/

variable {maxIov : ℕ} {s : Session} {answer : BitVec 32}

theorem step_round {s' : Session} :
    s.step maxIov (.round answer) = .ok s' ↔ ∃ len, s.round maxIov answer = .ok (s', len) := by
  rw [Session.step]
  rcases s.round maxIov answer with e | ⟨s₁, len⟩
  · exact iff_of_false nofun nofun
  · constructor
    · intro h
      cases h
      exact ⟨len, rfl⟩
    · rintro ⟨_, h⟩
      cases h
      rfl

theorem inv_of_reach (h : (sessions maxIov).Reach (Session.Fits maxIov) s) : s.Inv := by
  refine h.invariant ?_ ?_
  · exact ⟨rfl, rfl, rfl, nofun, nofun⟩
  · rintro s (m | answer) s' hinv - hfits hstep
    · cases hstep
      exact hinv.append m
    · obtain ⟨len, hr⟩ := step_round.mp hstep
      exact hinv.round hfits hr

theorem Session.Sound.first_pos {s' : Session} {len : ℤ}
    (hr : s.round maxIov answer = .ok (s', len))
    (hsound : s'.Sound maxIov) (hneg : s.writeVec maxIov answer ≤ 0) {m : Message}
    (hm : s.outList.head? = some m) : 0 < m.totalSize := by
  rw [Session.round, if_neg (not_lt.mpr hneg)] at hr
  cases hr
  have hfirst := hsound.first rfl
  rw [Session.InFirst] at hfirst
  cases hlist : s.outList with
  | nil =>
    rw [hlist] at hm
    cases hm
  | cons m₁ ms =>
    rw [hlist] at hm hfirst
    cases hm
    exact Nat.zero_lt_of_lt hfirst

/-- **The outgoing data of a session**: they are in order in every run in which the sums are `int`s
and an empty message is not the first one where nothing is written; and after a further round they
are so just if this holds of it as well. -/
theorem outgoing_data (h : (sessions maxIov).Reach (Session.Fits maxIov) s) :
    s.Sound maxIov ∧ ∀ answer,
      (∃ s', s.step maxIov (.round answer) = .ok s' ∧ s'.Sound maxIov) ↔
      s.Fits maxIov (.round answer) := by
  have hinv := inv_of_reach h
  refine ⟨hinv.sound, fun answer => ⟨?_, fun hfits => ?_⟩⟩
  · rintro ⟨s', hstep, hsound⟩
    obtain ⟨len, hr⟩ := step_round.mp hstep
    refine ⟨fun hpos => ?_, fun hneg m hm => hsound.first_pos hr hneg hm⟩
    by_contra hint
    obtain ⟨e, he⟩ := Session.round_eq_error.mpr ⟨hpos, not_lt.mp hint⟩
    rw [he] at hr
    cases hr
  · rcases hr : s.round maxIov answer with e | ⟨s', len⟩
    · obtain ⟨hpos, hint⟩ := Session.round_eq_error.mp ⟨e, hr⟩
      exact absurd (hfits.1 hpos) (not_lt.mpr hint)
    · exact ⟨s', step_round.mpr ⟨len, hr⟩, (hinv.round hfits hr).sound⟩

/-- A session with a message of two bytes, of which one is written. -/
theorem outgoing_data_half :
    (⟨[⟨[97, 98], []⟩], 1, .calling, [⟨[97, 98], []⟩], [], [97]⟩ : Session).Sound 8 := by
  have hqueued : (sessions 8).Reach (Session.Fits 8)
      ⟨[⟨[97, 98], []⟩], 0, .idle, [⟨[97, 98], []⟩], [], []⟩ :=
    .step (a := .append ⟨[97, 98], []⟩) .init nofun trivial rfl
  refine (outgoing_data (.step (a := .round 1) hqueued nofun ⟨fun _ => ?_, ?_⟩ rfl)).1
  · decide
  · exact fun hneg => absurd hneg (by decide)

section Long

variable {m : Message} {n : ℕ}

section

variable (hlist : s.outList = [m]) (hblocks : m.followBlocks = []) (hmax : 0 < maxIov)

include hlist hblocks hmax

theorem iov_of_one (hin : s.outOffset < m.msg.length) :
    s.iov maxIov = [m.msg.drop s.outOffset] := by
  rw [Session.iov, hlist, fillMsgs, if_pos (by exact hmax), hblocks, fillBlocks, Vec.add,
    if_neg (Nat.not_le_of_lt hin), fillMsgs, nil_append]

theorem writeVec_of_part (hn : answer.toInt = n) (hin : s.outOffset + n < m.msg.length) :
    s.writeVec maxIov answer = n := by
  have hiov := iov_of_one hlist hblocks hmax (Nat.lt_of_le_of_lt (Nat.le_add_right _ n) hin)
  rw [Session.writeVec, hiov, hn, flatten_singleton, length_drop]
  omega

theorem round_of_part (hn : answer.toInt = n) (hpos : 0 < n) (hin : s.outOffset + n < m.msg.length)
    (hint : s.outOffset + n < 2 ^ 31) :
    s.round maxIov answer = .ok ({ s with
      outOffset := s.outOffset + n
      phase := .calling
      written := s.written ++ (m.msg.drop s.outOffset).take n }, n) := by
  have hiov := iov_of_one hlist hblocks hmax (Nat.lt_of_le_of_lt (Nat.le_add_right _ n) hin)
  have hlen := writeVec_of_part hlist hblocks hmax hn hin
  have htotal : ¬ m.totalSize ≤ s.outOffset + n := by
    rw [Message.totalSize, hblocks]
    exact Nat.not_le_of_lt hin
  have hsent : takeSent s.outList (s.outOffset + n) = ([], [m], s.outOffset + n) := by
    rw [hlist, takeSent, if_neg htotal]
  rw [Session.round]
  dsimp only
  rw [hlen, if_pos (Int.natCast_pos.mpr hpos), if_neg (by omega), ← Int.natCast_add,
    Int.toNat_natCast, hsent, hiov]
  simp only [append_nil, flatten_singleton, Int.toNat_natCast, hlist, cons_ne_nil, if_false]

end

/-- A message of more than 2 GB, of which the first 2 GB less one byte are written, and then one
more. -/
theorem offset_overflows : ∃ s, (sessions 8).Reach (Session.Fits 8) s ∧
    s.step 8 (.round 1) = .error .overflow := by
  obtain ⟨msg, hmsg⟩ : ∃ msg : Bytes, msg.length = 2 ^ 31 + 2 := ⟨_, List.length_replicate (a := 0)⟩
  have hqueued : (sessions 8).Reach (Session.Fits 8) ⟨[⟨msg, []⟩], 0, .idle, [⟨msg, []⟩], [], []⟩ :=
    .step (a := .append ⟨msg, []⟩) .init nofun trivial rfl
  have hanswer : (2147483647 : BitVec 32).toInt = (2147483647 : ℕ) := by decide
  have hin : 0 + 2147483647 < msg.length := by omega
  have hlen : Session.writeVec 8 ⟨[⟨msg, []⟩], 0, .idle, [⟨msg, []⟩], [], []⟩ 2147483647 =
      (2147483647 : ℕ) := writeVec_of_part rfl rfl (by decide) hanswer hin
  have hpart : (sessions 8).Reach (Session.Fits 8)
      ⟨[⟨msg, []⟩], 0 + 2147483647, .calling, [⟨msg, []⟩], [],
        [] ++ (msg.drop 0).take 2147483647⟩ := by
    refine .step (a := .round 2147483647) hqueued nofun ⟨fun _ => ?_, fun hneg => ?_⟩ ?_
    · rw [hlen]
      show (0 : ℤ) + 2147483647 < 2 ^ 31
      decide
    · rw [hlen] at hneg
      exact absurd hneg (by decide)
    · refine step_round.mpr ⟨_, round_of_part (m := ⟨msg, []⟩)
        (s := ⟨[⟨msg, []⟩], 0, .idle, [⟨msg, []⟩], [], []⟩) rfl rfl ?_ hanswer ?_ hin ?_⟩
      · decide
      · decide
      · show 0 + 2147483647 < 2 ^ 31
        decide
  refine ⟨_, hpart, ?_⟩
  have hin' : 0 + 2147483647 + 1 < msg.length := by omega
  have hlen' : Session.writeVec 8
      ⟨[⟨msg, []⟩], 0 + 2147483647, .calling, [⟨msg, []⟩], [],
        [] ++ (msg.drop 0).take 2147483647⟩ 1 =
      (1 : ℕ) := writeVec_of_part rfl rfl (by decide) (by decide) hin'
  have hint : (2 : ℤ) ^ 31 ≤ (0 + 2147483647 : ℕ) + (1 : ℕ) := by decide
  obtain ⟨⟨⟩, he⟩ := Session.round_eq_error.mpr ⟨by rw [hlen']; decide, by rw [hlen']; exact hint⟩
  rw [Session.step, he]
  rfl

end Long

end IOChannel

end Spserver
