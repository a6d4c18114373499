import Mathlib.Data.BitVec

/-!
# Byte codecs

Words as they lie in memory, in either byte order, and readers that walk a byte
string while carrying a state of their own.

The one notion proofs use is `Reads m w s a s'`: whatever follows, the reader `m`
takes exactly the bytes `w` off the front of its input, returns `a`, and takes
the state from `s` to `s'`. It composes along `bind` (`Reads.bind`) and along a
counted loop (`Reads.readMany`), so the round trip of a record is the
concatenation of the round trips of its fields.
-/

namespace Codec

/-- Byte strings. -/
abbrev Bytes : Type := List (BitVec 8)

/-! ## Words in memory -/

/-- The `n` low bytes of `v`, least significant first. -/
def leBytes : ℕ → ℕ → Bytes
  | 0, _ => []
  | n + 1, v => BitVec.ofNat 8 v :: leBytes n (v / 256)

/-- The number whose bytes, least significant first, are given. -/
def leNat : Bytes → ℕ
  | [] => 0
  | b :: bs => b.toNat + 256 * leNat bs

@[simp] theorem length_leBytes (n v : ℕ) : (leBytes n v).length = n := by
  induction n generalizing v with
  | zero => rfl
  | succ n ih => simp [leBytes, ih]

theorem leNat_leBytes (n v : ℕ) : leNat (leBytes n v) = v % 256 ^ n := by
  induction n generalizing v with
  | zero => simp [leBytes, leNat, Nat.mod_one]
  | succ n ih =>
    rw [leBytes, leNat, ih, BitVec.toNat_ofNat, pow_succ' 256 n]
    exact (Nat.mod_mul).symm

/-- The bytes of an `n`-byte word in memory, on a big-endian host or on a little-endian one. -/
def memBytes (be : Bool) (n v : ℕ) : Bytes :=
  if be then (leBytes n v).reverse else leBytes n v

/-- The word that lies in memory as the given bytes. -/
def memNat (be : Bool) (bs : Bytes) : ℕ :=
  if be then leNat bs.reverse else leNat bs

@[simp] theorem length_memBytes (be : Bool) (n v : ℕ) : (memBytes be n v).length = n := by
  cases be <;> simp [memBytes]

theorem memNat_memBytes (be : Bool) (n v : ℕ) : memNat be (memBytes be n v) = v % 256 ^ n := by
  cases be <;> simp [memBytes, memNat, leNat_leBytes]

/-- A word read back is the word that was stored. -/
@[simp] theorem ofNat_memNat_memBytes (be : Bool) (n : ℕ) (v : BitVec (8 * n)) :
    BitVec.ofNat (8 * n) (memNat be (memBytes be n v.toNat)) = v := by
  have hv : v.toNat < 256 ^ n := by
    have := v.isLt
    rwa [pow_mul] at this
  rw [memNat_memBytes, Nat.mod_eq_of_lt hv, BitVec.ofNat_toNat, BitVec.setWidth_eq]

/-- A word below `2^31` read as a signed number. -/
theorem toInt_ofNat_of_lt {n : ℕ} (h : n < 2 ^ 31) : (BitVec.ofNat 32 n).toInt = n := by
  have hn : (BitVec.ofNat 32 n).toNat = n := by
    rw [BitVec.toNat_ofNat]
    exact Nat.mod_eq_of_lt (by omega)
  rw [BitVec.toInt_eq_toNat_of_lt (by omega), hn]

/-! ## Readers -/

variable {S E α β : Type}

/-- What a reader works on: the bytes not read yet and a state. -/
structure Cursor (S : Type) where
  input : Bytes
  st : S
  deriving DecidableEq, Repr

/-- A reader: it advances the cursor or stops with an error. -/
abbrev Reader (S E α : Type) : Type := StateT (Cursor S) (Except E) α

/-- Take `n` bytes off the input; `e` is the error of reading past its end. -/
def readMem (e : E) (n : ℕ) : Reader S E Bytes := fun c =>
  if n ≤ c.input.length then .ok (c.input.take n, { c with input := c.input.drop n })
  else .error e

/-- Read `n` things one after another. -/
def readMany (m : Reader S E α) : ℕ → Reader S E (List α)
  | 0 => pure []
  | n + 1 => do
    let a ← m
    let as ← readMany m n
    return a :: as

/-- Whatever follows, `m` reads exactly the bytes `w`, returns `a` and takes the state from `s`
to `s'`. -/
def Reads (m : Reader S E α) (w : Bytes) (s : S) (a : α) (s' : S) : Prop :=
  ∀ rest, m ⟨w ++ rest, s⟩ = .ok (a, ⟨rest, s'⟩)

theorem Reads.pure (a : α) (s : S) : Reads (E := E) (Pure.pure a) [] s a s := fun _ => rfl

variable {m : Reader S E α}

/-- What follows a reader runs on what the reader left. -/
theorem Reads.run_bind {w : Bytes} {s s' : S} {a : α} (hm : Reads m w s a s') (f : α → Reader S E β)
    (rest : Bytes) : (m >>= f) ⟨w ++ rest, s⟩ = f a ⟨rest, s'⟩ := by
  change (do let (a, c) ← m ⟨w ++ rest, s⟩; f a c) = _
  rw [hm rest]
  rfl

theorem Reads.bind {f : α → Reader S E β} {w w' : Bytes} {s s' s'' : S} {a : α} {b : β}
    (hm : Reads m w s a s') (hf : Reads (f a) w' s' b s'') :
    Reads (m >>= f) (w ++ w') s b s'' := by
  intro rest
  rw [List.append_assoc, hm.run_bind]
  exact hf rest

/-- A reader followed by a conversion of what it read. -/
theorem Reads.map {w : Bytes} {s s' : S} {a : α} (hm : Reads m w s a s') (f : α → β) :
    Reads (do return f (← m)) w s (f a) s' := by
  have := hm.bind (f := fun a => Pure.pure (f a)) (Reads.pure (f a) s')
  rwa [List.append_nil] at this

theorem Reads.mem (e : E) (w : Bytes) (s : S) : Reads (readMem e w.length) w s w s := by
  intro rest
  simp [readMem]

/-- **Run lemma** of a counted loop: reading the elements of a list one after another. -/
theorem Reads.readMany {w : α → Bytes} {s : S} {as : List α} (h : ∀ a ∈ as, Reads m (w a) s a s) :
    Reads (readMany m as.length) (as.flatMap w) s as s := by
  induction as with
  | nil => exact Reads.pure [] s
  | cons a as ih =>
    have ha := h a (List.mem_cons_self ..)
    have has := ih fun b hb => h b (List.mem_cons_of_mem _ hb)
    exact ha.bind (has.map (a :: ·))

end Codec
