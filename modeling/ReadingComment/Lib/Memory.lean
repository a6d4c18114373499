import Mathlib.Data.Nat.Bitwise
import ReadingComment.Lib.Codec

/-!
# Bytes in memory

Memory is a byte at every address. What lies at an address is read off as a list of bytes
(`slice`) or as a word of four bytes, in either byte order; two words differ in their first
bytes exactly when a shift of their difference by the other bytes is not zero, which is how a
comparison that reads words ignores what is behind the end.
-/

namespace Lib

open Codec Function List

abbrev Memory : Type := ℕ → BitVec 8

/-- The `n` bytes at `a`. -/
def slice (mem : Memory) (a n : ℕ) : Bytes := (List.range n).map fun i => mem (a + i)

/-- The memory after `n` bytes at `src` were copied to `dst`. -/
def copy (mem : Memory) (dst src n : ℕ) : Memory := fun x =>
  if dst ≤ x ∧ x < dst + n then mem (src + (x - dst)) else mem x

/-- The memory after `f` was written to the `n` bytes at `dst`. -/
def fill (mem : Memory) (dst n : ℕ) (f : Memory) : Memory := fun x =>
  if dst ≤ x ∧ x < dst + n then f x else mem x

/-- The memory after `strncpy (dst, src, n)`: from the first zero on, zeros are written. -/
def strncpy (mem : Memory) (dst src : ℕ) : ℕ → Memory
  | 0 => mem
  | n + 1 =>
    strncpy (Function.update mem dst (mem src)) (dst + 1) (if mem src = 0 then src else src + 1) n

/-- What `strncpy` makes of bytes. -/
def uptoZero : Bytes → Bytes
  | [] => []
  | c :: cs => if c = 0 then List.replicate (cs.length + 1) 0 else c :: uptoZero cs

/-- The word at `a`. -/
def word (be : Bool) (mem : Memory) (a : ℕ) : BitVec 32 :=
  BitVec.ofNat 32 (memNat be (slice mem a 4))

variable {mem mem' : Memory} {a b n : ℕ}

@[simp] theorem length_slice (mem : Memory) (a n : ℕ) : (slice mem a n).length = n := by
  rw [slice, length_map, length_range]

theorem slice_eq_slice_iff :
    slice mem a n = slice mem' b n ↔ ∀ i, i < n → mem (a + i) = mem' (b + i) := by
  rw [slice, slice, map_inj_left]
  simp only [mem_range]

theorem take_slice {k : ℕ} (hk : k ≤ n) : (slice mem a n).take k = slice mem a k := by
  rw [slice, ← map_take, take_range, Nat.min_eq_left hk, slice]

theorem copy_of_lt {dst src x : ℕ} (h : x < dst) : copy mem dst src n x = mem x :=
  if_neg fun hin => absurd h (Nat.not_lt.mpr hin.1)

theorem slice_copy (mem : Memory) (dst src n : ℕ) :
    slice (copy mem dst src n) dst n = slice mem src n := by
  rw [slice_eq_slice_iff]
  intro i hi
  rw [copy, if_pos ⟨Nat.le_add_right dst i, Nat.add_lt_add_left hi dst⟩, Nat.add_sub_cancel_left]

theorem fill_of_lt {dst x : ℕ} {f : Memory} (h : x < dst) : fill mem dst n f x = mem x :=
  if_neg fun hin => absurd h (Nat.not_lt.mpr hin.1)

theorem fill_of_ge {dst x : ℕ} {f : Memory} (h : dst + n ≤ x) : fill mem dst n f x = mem x :=
  if_neg fun hin => absurd hin.2 (Nat.not_lt.mpr h)

theorem fill_of_mem {dst x : ℕ} {f : Memory} (h : dst ≤ x) (h' : x < dst + n) :
    fill mem dst n f x = f x :=
  if_pos ⟨h, h'⟩

/-! ## Strings -/

theorem slice_succ (mem : Memory) (a n : ℕ) :
    slice mem a (n + 1) = mem a :: slice mem (a + 1) n := by
  rw [slice, range_succ_eq_map, map_cons, map_map, slice, Nat.add_zero]
  refine congrArg (mem a :: ·) (map_congr_left fun i _ => ?_)
  rw [Function.comp_apply, Nat.succ_eq_add_one, Nat.add_right_comm, Nat.add_assoc]

theorem slice_add (mem : Memory) (a m n : ℕ) :
    slice mem a (m + n) = slice mem a m ++ slice mem (a + m) n := by
  rw [slice, range_add, map_append, map_map, slice, slice]
  refine congrArg (_ ++ ·) (map_congr_left fun i _ => ?_)
  rw [Function.comp_apply, Nat.add_assoc]

@[simp] theorem length_uptoZero (bs : Bytes) : (uptoZero bs).length = bs.length := by
  induction bs with
  | nil => rfl
  | cons c cs ih =>
    rw [uptoZero]
    split
    · rw [length_replicate, length_cons]
    · rw [length_cons, length_cons, ih]

/-- Bytes are kept as they are if there are only zeros from the first zero on. -/
theorem uptoZero_eq_self {bs : Bytes} : uptoZero bs = bs ↔ ∀ c ∈ bs.dropWhile (· ≠ 0), c = 0 := by
  induction bs with
  | nil => simp [uptoZero]
  | cons c cs ih =>
    by_cases hc : c = 0
    · have hzeros : List.replicate (cs.length + 1) 0 = c :: cs ↔ ∀ b ∈ c :: cs, b = 0 := by
        rw [eq_comm, eq_replicate_iff]
        simp
      simpa [uptoZero, hc] using hzeros
    · rw [uptoZero, if_neg hc, cons_inj_right, ih, dropWhile_cons_of_pos (by simpa using hc)]

/-- Nothing outside of the destination is written. -/
theorem strncpy_outside {dst src x : ℕ} (h : x < dst ∨ dst + n ≤ x) :
    strncpy mem dst src n x = mem x := by
  induction n generalizing mem dst src with
  | zero => rfl
  | succ n ih => rw [strncpy, ih (by omega), update_of_ne (by omega)]

/-- A string that is at its end is copied as zeros. -/
theorem slice_strncpy_zero {dst src : ℕ} (h : mem src = 0) (hout : src < dst ∨ dst + n ≤ src) :
    slice (strncpy mem dst src n) dst n = List.replicate n 0 := by
  induction n generalizing mem dst with
  | zero => rfl
  | succ n ih =>
    have hsrc : update mem dst (mem src) src = 0 := by
      rwa [update_of_ne (by omega)]
    have hhead : strncpy (update mem dst (mem src)) (dst + 1) src n dst = 0 := by
      rw [strncpy_outside (.inl (Nat.lt_succ_self dst)), update_self, h]
    rw [strncpy, if_pos h, slice_succ, hhead, ih hsrc (by omega), replicate_succ]

/-- **`strncpy`** to a place that does not overlap. -/
theorem slice_strncpy {dst src : ℕ} (hapart : src + n ≤ dst ∨ dst + n ≤ src) :
    slice (strncpy mem dst src n) dst n = uptoZero (slice mem src n) := by
  induction n generalizing mem dst src with
  | zero => rfl
  | succ n ih =>
    have hhead : ∀ src', strncpy (update mem dst (mem src)) (dst + 1) src' n dst = mem src :=
      fun src' => by rw [strncpy_outside (.inl (Nat.lt_succ_self dst)), update_self]
    rw [slice_succ mem, uptoZero, strncpy, slice_succ, hhead, length_slice]
    by_cases hc : mem src = 0
    · have hsrc : update mem dst (mem src) src = 0 := by
        rwa [update_of_ne (by omega)]
      rw [if_pos hc, if_pos hc, slice_strncpy_zero hsrc (by omega), hc, replicate_succ]
    · have hrest : slice (update mem dst (mem src)) (src + 1) n = slice mem (src + 1) n :=
        slice_eq_slice_iff.mpr fun i hi => update_of_ne (by omega) _ _
      rw [if_neg hc, if_neg hc, ih (by omega), hrest]

/-! ## Words -/

theorem leNat_lt (bs : Bytes) : leNat bs < 256 ^ bs.length := by
  induction bs with
  | nil => exact Nat.one_pos
  | cons b bs ih =>
    have hb : b.toNat < 256 := b.isLt
    rw [leNat, length_cons, pow_succ]
    omega

theorem leNat_take (bs : Bytes) (k : ℕ) : leNat (bs.take k) = leNat bs % 256 ^ k := by
  induction bs generalizing k with
  | nil => rw [take_nil, leNat, Nat.zero_mod]
  | cons b bs ih =>
    cases k with
    | zero => rw [take_zero, leNat, pow_zero, Nat.mod_one]
    | succ k =>
      have hb : b.toNat % 256 = b.toNat := Nat.mod_eq_of_lt b.isLt
      rw [take_succ_cons, leNat, leNat, ih, pow_succ', Nat.mod_mul, Nat.add_mul_mod_self_left, hb,
        Nat.add_mul_div_left _ _ (by decide), Nat.div_eq_of_lt b.isLt, Nat.zero_add]

theorem leNat_drop (bs : Bytes) (k : ℕ) : leNat (bs.drop k) = leNat bs / 256 ^ k := by
  induction bs generalizing k with
  | nil => rw [drop_nil, leNat, Nat.zero_div]
  | cons b bs ih =>
    cases k with
    | zero => rw [drop_zero, pow_zero, Nat.div_one]
    | succ k =>
      rw [drop_succ_cons, ih, leNat, pow_succ', ← Nat.div_div_eq_div_mul,
        Nat.add_mul_div_left _ _ (by decide), Nat.div_eq_of_lt b.isLt, Nat.zero_add]

theorem leNat_inj {bs bs' : Bytes} (hlen : bs.length = bs'.length) (h : leNat bs = leNat bs') :
    bs = bs' := by
  induction bs generalizing bs' with
  | nil => exact (length_eq_zero_iff.mp hlen.symm).symm
  | cons b bs ih =>
    cases bs' with
    | nil => cases hlen
    | cons b' bs' =>
      have hb : b.toNat < 256 := b.isLt
      have hb' : b'.toNat < 256 := b'.isLt
      rw [leNat, leNat] at h
      have hhead : b = b' := BitVec.eq_of_toNat_eq (by omega)
      have htail : bs = bs' := ih (Nat.succ_injective hlen) (by omega)
      rw [hhead, htail]

theorem shiftLeft_xor_eq_zero {x y : ℕ} {k : ℕ} (hk : k ≤ 32) :
    (BitVec.ofNat 32 x ^^^ BitVec.ofNat 32 y) <<< (32 - k) = 0 ↔ x % 2 ^ k = y % 2 ^ k := by
  have hpow : 2 ^ 32 = 2 ^ k * 2 ^ (32 - k) := by rw [← pow_add, Nat.add_sub_cancel' hk]
  have hmod : ∀ z : ℕ, z % 2 ^ 32 % 2 ^ k = z % 2 ^ k := fun z =>
    Nat.mod_mod_of_dvd z (pow_dvd_pow 2 hk)
  rw [BitVec.toNat_inj.symm, BitVec.toNat_shiftLeft, BitVec.toNat_xor, BitVec.toNat_ofNat,
    BitVec.toNat_ofNat, Nat.shiftLeft_eq, hpow, Nat.mul_mod_mul_right, ← hpow]
  simp only [Nat.xor_mod_two_pow, hmod]
  have hpos : 0 < 2 ^ (32 - k) := Nat.two_pow_pos _
  change _ * 2 ^ (32 - k) = 0 ↔ _
  rw [Nat.mul_eq_zero, Nat.xor_eq_zero_iff]
  omega

theorem shiftRight_xor_eq_zero {x y : ℕ} (hx : x < 2 ^ 32) (hy : y < 2 ^ 32) (k : ℕ) :
    (BitVec.ofNat 32 x ^^^ BitVec.ofNat 32 y) >>> k = 0 ↔ x / 2 ^ k = y / 2 ^ k := by
  rw [BitVec.toNat_inj.symm, BitVec.toNat_ushiftRight, BitVec.toNat_xor, BitVec.toNat_ofNat,
    BitVec.toNat_ofNat, Nat.mod_eq_of_lt hx, Nat.mod_eq_of_lt hy, Nat.shiftRight_xor_distrib,
    Nat.shiftRight_eq_div_pow, Nat.shiftRight_eq_div_pow]
  exact Nat.xor_eq_zero_iff

/-- The difference of two words without the bytes behind the first `r` ones. -/
def firstBytes (be : Bool) (v : BitVec 32) (r : ℕ) : BitVec 32 :=
  if be then v >>> (32 - 8 * r) else v <<< (32 - 8 * r)

/-- **Words without their last bytes** differ exactly when the first bytes do. -/
theorem firstBytes_eq_zero (be : Bool) (mem : Memory) {a b r : ℕ} (hr : r ≤ 4) :
    firstBytes be (word be mem a ^^^ word be mem b) r = 0 ↔ slice mem a r = slice mem b r := by
  have hbase : (2 : ℕ) ^ 8 = 256 := by decide
  have hpow : (2 : ℕ) ^ (8 * r) = 256 ^ r := by rw [pow_mul, hbase]
  cases be with
  | false =>
    change (BitVec.ofNat 32 (leNat (slice mem a 4)) ^^^ BitVec.ofNat 32 (leNat (slice mem b 4))) <<<
      (32 - 8 * r) = 0 ↔ _
    rw [shiftLeft_xor_eq_zero (by omega), hpow, ← leNat_take, ← leNat_take, take_slice hr,
      take_slice hr]
    exact ⟨leNat_inj (by rw [length_slice, length_slice]), congrArg leNat⟩
  | true =>
    have hlt : ∀ c, leNat (slice mem c 4).reverse < 2 ^ 32 := by
      intro c
      have h := leNat_lt (slice mem c 4).reverse
      rw [length_reverse, length_slice] at h
      exact h
    have hrest : (2 : ℕ) ^ (32 - 8 * r) = 256 ^ (4 - r) := by
      have h8 : 32 - 8 * r = 8 * (4 - r) := by omega
      rw [h8, pow_mul, hbase]
    have hfirst : ∀ c, (slice mem c 4).reverse.drop (4 - r) = (slice mem c r).reverse := by
      intro c
      rw [drop_reverse, length_slice, Nat.sub_sub_self hr, take_slice hr]
    change (BitVec.ofNat 32 (leNat (slice mem a 4).reverse) ^^^
      BitVec.ofNat 32 (leNat (slice mem b 4).reverse)) >>> (32 - 8 * r) = 0 ↔ _
    rw [shiftRight_xor_eq_zero (hlt a) (hlt b), hrest, ← leNat_drop, ← leNat_drop, hfirst, hfirst]
    constructor
    · intro h
      have hlen : (slice mem a r).reverse.length = (slice mem b r).reverse.length := by
        simp only [length_reverse, length_slice]
      exact reverse_injective (leNat_inj hlen h)
    · intro h
      rw [h]

theorem word_xor_eq_zero (be : Bool) (mem : Memory) {a b : ℕ} :
    word be mem a ^^^ word be mem b = 0 ↔ slice mem a 4 = slice mem b 4 := by
  rw [← firstBytes_eq_zero be mem (Nat.le_refl 4)]
  cases be <;> simp [firstBytes]

end Lib
