import ReadingComment.Ktap.Proto
import ReadingComment.Lib.Memory
import ReadingComment.Lib.Run

/-!
# Interned strings (`runtime/kp_str.c`, `runtime/kp_mempool.c`)

A string object is a header, the bytes and a zero, in a pool from which nothing is given back. A
string is looked up in the chain of its hash; it is compared word by word, with reads behind its
end, unless its end is too near to the end of a page.

Memory is a byte at every address. A shift of a word by its whole width is not defined in C: what
it gives is a field of the host, as are the byte order and the bytes of a header.
-/

namespace Ktap

open Codec Function Lib List

namespace Strtab

/-- What the code runs on, and where the pool is. -/
structure Host where
  be : Bool
  /-- a word shifted by 32 -/
  shift32 : BitVec 32 → BitVec 32
  /-- the header at an address -/
  header : ℕ → Memory
  mempool : ℕ
  mpSize : ℕ

/-- A `ktap_str_t`: where it is, and its fields. -/
structure Str where
  addr : ℕ
  hash : BitVec 32
  len : ℕ
  deriving DecidableEq, Repr

/-- `sizeof(ktap_str_t)`. -/
def sizeofStr : ℕ := 24

/-- `getstr(ts)`. -/
def Str.getstr (ts : Str) : ℕ := ts.addr + sizeofStr

/-- The parts of the global state that strings are in; `strhash` is the chains. -/
structure StrState where
  mem : Memory
  strhash : ℕ → List Str
  strnum : ℕ
  mpFreepos : ℕ

/-- `PAGE_SIZE`. -/
def pageSize : ℕ := 4096

/-- `g->strmask`, as `kp_str_resize` sets it. -/
def strmask : BitVec 32 := 1024 - 1

/-! ## Comparison and hash -/

/-- What `str_fastcmp` returns for words that differ by `v`, `r` bytes before the end. -/
def fastcmpResult (host : Host) (v : BitVec 32) (r : ℕ) : BitVec 32 :=
  if r ≤ 3 then
    if r = 0 then host.shift32 v
    else if host.be then v >>> (32 - 8 * r) else v <<< (32 - 8 * r)
  else 1

/-- The loop of `str_fastcmp`, from place `i` on. -/
def fastcmpLoop (host : Host) (mem : Memory) (a b len i : ℕ) : BitVec 32 :=
  let v := word host.be mem (a + i) ^^^ word host.be mem (b + i)
  if v ≠ 0 then fastcmpResult host v (len - i)
  else if i + 4 < len then fastcmpLoop host mem a b len (i + 4)
  else 0
  termination_by len - i

/-- `str_fastcmp(a, b, len)`. -/
def strFastcmp (host : Host) (mem : Memory) (a b len : ℕ) : BitVec 32 :=
  fastcmpLoop host mem a b len 0

/-- The loop of `kp_str_hash`, with steps of `step + 1`. -/
def hashLoop (mem : Memory) (str step l1 : ℕ) (h : BitVec 32) : BitVec 32 :=
  if step + 1 ≤ l1 then
    hashLoop mem str step (l1 - (step + 1))
      (h ^^^ (h <<< 5 + h >>> 2 + (mem (str + (l1 - 1))).setWidth 32))
  else h
  termination_by l1

/-- `kp_str_hash(str, len)`, with `STRING_HASHLIMIT` 5. -/
def kpStrHash (mem : Memory) (str len : ℕ) : BitVec 32 :=
  hashLoop mem str (len >>> 5) len (BitVec.ofNat 32 (201236 ^^^ len))

/-! ## Interning -/

/-- `kp_mempool_alloc(ks, size)`. The truth value that `unlikely` makes of the new free position is
what is compared with the end of the pool. -/
def kpMempoolAlloc (host : Host) (s : StrState) (size : ℕ) : Option ℕ × StrState :=
  if (if s.mpFreepos + size ≠ 0 then 1 else 0) > host.mempool + host.mpSize then (none, s)
  else (some s.mpFreepos, { s with mpFreepos := s.mpFreepos + size })

def farFromPage (str len : ℕ) : Bool := decide ((str + len + 2 ^ 64 - 1) % pageSize ≤ pageSize - 4)

/-- The test of `kp_str_new` on a string of the bucket. -/
def sameStr (host : Host) (mem : Memory) (str len : ℕ) (sx : Str) : Bool :=
  sx.len == len &&
    if farFromPage str len then strFastcmp host mem str sx.getstr len == 0
    else slice mem str len == slice mem sx.getstr len

/-- The bytes of a new object: the header, the string and a zero. -/
def writeStr (host : Host) (mem : Memory) (s str len : ℕ) : Memory :=
  let mem := fill mem s sizeofStr (host.header s)
  let mem := copy mem (s + sizeofStr) str len
  fill mem (s + sizeofStr + len) 1 fun _ => 0

/-- The bucket of a hash. -/
def bucket (h : BitVec 32) : ℕ := (h &&& strmask).toNat

/-- `kp_str_new(ks, str, len)`. -/
def kpStrNew (host : Host) (s : StrState) (str len : ℕ) : Option ℕ × StrState :=
  let h := kpStrHash s.mem str len
  if len ≥ kpMaxStr then (none, s)
  else
    match (s.strhash (bucket h)).find? (sameStr host s.mem str len) with
    | some sx => (some sx.addr, s)
    | none =>
      match kpMempoolAlloc host s (sizeofStr + len + 1) with
      | (none, s) => (none, s)
      | (some addr, s) =>
        let s' : StrState :=
          { s with
            mem := writeStr host s.mem addr str len
            strhash := Function.update s.strhash (bucket h)
              (⟨addr, h, len⟩ :: s.strhash (bucket h))
            strnum := s.strnum + 1 }
        -- the object is in its chain, also when it is not returned
        if s.strnum > kpMaxStrnum then (none, s') else (some addr, s')

/-! ## Runs -/

/-- A call of `kp_str_new`: the bytes it was given and what it returned. -/
structure Call where
  bytes : Bytes
  result : Option ℕ

/-- The global state, and the calls up to it. -/
structure Calls where
  st : StrState
  calls : List Call

/-- What happens: anything is written outside of the pool, or a string is interned. -/
inductive Act where
  | write (f : Memory)
  | intern (str len : ℕ)

def act (host : Host) (s : Calls) : Act → Calls
  | .write f =>
    { s with st := { s.st with mem := fun x =>
      if host.mempool ≤ x ∧ x < host.mempool + host.mpSize then s.st.mem x else f x } }
  | .intern str len =>
    let r := kpStrNew host s.st str len
    ⟨r.2, ⟨slice s.st.mem str len, r.1⟩ :: s.calls⟩

/-- The string table, with calls and other writes to memory. -/
def strtab (host : Host) (mem : Memory) : System Calls Act Empty where
  init := ⟨⟨mem, fun _ => [], 0, host.mempool⟩, []⟩
  Allowed _ _ := True
  step s a := .ok (act host s a)

def Str.bytes (mem : Memory) (sx : Str) : Bytes := slice mem sx.getstr sx.len

/-- A string with these bytes is in the table. -/
def Known (s : StrState) (bytes : Bytes) : Prop := ∃ b, ∃ sx ∈ s.strhash b, sx.bytes s.mem = bytes

/-- The empty string is not compared word by word with the empty string of the table, or the words
that are there are the same (or differ by what a shift by 32 makes zero). -/
def EmptyOk (host : Host) (s : StrState) (str : ℕ) : Prop :=
  farFromPage str 0 = true → ∀ b, ∀ sx ∈ s.strhash b, sx.len = 0 →
    strFastcmp host s.mem str sx.getstr 0 = 0

/-- A new object of the string fits into the pool, and the string is not where it goes. -/
structure Fits (host : Host) (s : StrState) (str len : ℕ) : Prop where
  room : s.mpFreepos + (sizeofStr + len + 1) ≤ host.mempool + host.mpSize
  apart : str + len ≤ s.mpFreepos ∨ host.mempool + host.mpSize ≤ str

def Fine (host : Host) (s : Calls) : Act → Prop
  | .write _ => True
  | .intern str len => len < kpMaxStr →
    (len = 0 → EmptyOk host s.st str) ∧
      (¬ Known s.st (slice s.st.mem str len) → Fits host s.st str len ∧ s.st.strnum ≤ kpMaxStrnum)

/-! ## Comparison -/

variable {host : Host} {mem mem' : Memory} {a b len : ℕ}

theorem fastcmpResult_eq_zero {i : ℕ} (hi : i < len)
    (hne : word host.be mem (a + i) ^^^ word host.be mem (b + i) ≠ 0) :
    fastcmpResult host (word host.be mem (a + i) ^^^ word host.be mem (b + i)) (len - i) = 0 ↔
      slice mem (a + i) (len - i) = slice mem (b + i) (len - i) := by
  rw [fastcmpResult]
  by_cases hlast : len - i ≤ 3
  · have hpos : len - i ≠ 0 := by omega
    rw [if_pos hlast, if_neg hpos]
    exact firstBytes_eq_zero host.be mem (Nat.le_succ_of_le hlast)
  · rw [if_neg hlast]
    -- the whole of the word is before the end
    refine iff_of_false (by decide) fun heq => hne ?_
    have hfour : 4 ≤ len - i := by omega
    rw [word_xor_eq_zero, ← take_slice hfour, heq, take_slice hfour]

theorem slice_split {n k : ℕ} (hk : k ≤ n) :
    slice mem a n = slice mem b n ↔
      slice mem a k = slice mem b k ∧ slice mem (a + k) (n - k) = slice mem (b + k) (n - k) := by
  simp only [slice_eq_slice_iff]
  constructor
  · intro h
    refine ⟨fun i hi => h i (by omega), fun i hi => ?_⟩
    rw [Nat.add_assoc, Nat.add_assoc]
    exact h (k + i) (by omega)
  · rintro ⟨hfirst, hrest⟩ i hi
    by_cases hik : i < k
    · exact hfirst i hik
    · have h := hrest (i - k) (by omega)
      rwa [Nat.add_assoc, Nat.add_assoc, Nat.add_sub_cancel' (Nat.not_lt.mp hik)] at h

theorem fastcmpLoop_eq_zero {i : ℕ} (hi : i < len) :
    fastcmpLoop host mem a b len i = 0 ↔
    slice mem (a + i) (len - i) = slice mem (b + i) (len - i) := by
  induction hn : len - i using Nat.strong_induction_on generalizing i with
  | _ n ih =>
    subst hn
    rw [fastcmpLoop]
    by_cases hv : word host.be mem (a + i) ^^^ word host.be mem (b + i) = 0
    · have hword := (word_xor_eq_zero host.be mem).mp hv
      simp only [hv, ne_eq, not_true_eq_false, if_false]
      by_cases hnext : i + 4 < len
      · rw [if_pos hnext, ih (len - (i + 4)) (by omega) hnext rfl,
          slice_split (by omega : 4 ≤ len - i),
          Nat.sub_sub, Nat.add_assoc, Nat.add_assoc]
        exact ⟨fun h => ⟨hword, h⟩, fun h => h.2⟩
      · rw [if_neg hnext]
        have hle : len - i ≤ 4 := by omega
        exact iff_of_true rfl (by rw [← take_slice hle, hword, take_slice hle])
    · simp only [ne_eq, hv, not_false_eq_true, if_true]
      exact fastcmpResult_eq_zero hi hv

/-- **The comparison by words** is exact for a string that is not empty. -/
theorem strFastcmp_eq_zero (hlen : 0 < len) :
    strFastcmp host mem a b len = 0 ↔ slice mem a len = slice mem b len :=
  fastcmpLoop_eq_zero hlen

theorem bytes_of_sameStr {str : ℕ} {sx : Str} (h : sameStr host mem str len sx = true) :
    sx.bytes mem = slice mem str len := by
  rw [sameStr, Bool.and_eq_true, beq_iff_eq] at h
  obtain ⟨rfl, hcmp⟩ := h
  rw [Str.bytes]
  by_cases hzero : sx.len = 0
  · rw [hzero]
    rfl
  · split at hcmp
    · exact ((strFastcmp_eq_zero (Nat.pos_of_ne_zero hzero)).mp (beq_iff_eq.mp hcmp)).symm
    · exact (beq_iff_eq.mp hcmp).symm

theorem sameStr_of_bytes {s : StrState} {str b : ℕ} {sx : Str} (hsx : sx ∈ s.strhash b)
    (hempty : len = 0 → EmptyOk host s str) (h : sx.bytes s.mem = slice s.mem str len) :
    sameStr host s.mem str len sx = true := by
  have hlen : sx.len = len := by
    have := congrArg List.length h
    rwa [Str.bytes, length_slice, length_slice] at this
  rw [sameStr, Bool.and_eq_true, beq_iff_eq]
  refine ⟨hlen, ?_⟩
  rw [Str.bytes, hlen] at h
  split
  · rename_i hfar
    rw [beq_iff_eq]
    by_cases hzero : len = 0
    · subst hzero
      exact hempty rfl hfar b sx hsx hlen
    · exact (strFastcmp_eq_zero (Nat.pos_of_ne_zero hzero)).mpr h.symm
  · exact beq_iff_eq.mpr h.symm

/-! ## Hash -/

theorem hashLoop_congr {str str' step l1 : ℕ} {h : BitVec 32}
    (heq : ∀ i, i < l1 → mem (str + i) = mem' (str' + i)) :
    hashLoop mem str step l1 h = hashLoop mem' str' step l1 h := by
  induction hn : l1 using Nat.strong_induction_on generalizing l1 h with
  | _ n ih =>
    subst hn
    rw [hashLoop.eq_def mem, hashLoop.eq_def mem']
    by_cases hstep : step + 1 ≤ l1
    · rw [if_pos hstep, if_pos hstep, heq (l1 - 1) (by omega)]
      exact ih _ (by omega) (fun i hi => heq i (by omega)) rfl
    · rw [if_neg hstep, if_neg hstep]

theorem kpStrHash_congr {str str' : ℕ} (h : slice mem str len = slice mem' str' len) :
    kpStrHash mem str len = kpStrHash mem' str' len :=
  hashLoop_congr (slice_eq_slice_iff.mp h)

/-! ## The table -/

/-- The invariant of an object in the chain `b`. -/
structure Placed (host : Host) (s : StrState) (b : ℕ) (sx : Str) : Prop where
  low : host.mempool ≤ sx.addr
  high : sx.getstr + sx.len + 1 ≤ s.mpFreepos
  chain : b = bucket (kpStrHash s.mem sx.getstr sx.len)
  nul : s.mem (sx.getstr + sx.len) = 0

/-- The invariant of the table. -/
structure Inv (host : Host) (s : StrState) : Prop where
  low : host.mempool ≤ s.mpFreepos
  high : s.mpFreepos ≤ host.mempool + host.mpSize
  placed : ∀ b, ∀ sx ∈ s.strhash b, Placed host s b sx
  unique : ∀ b b' sx sx', sx ∈ s.strhash b → sx' ∈ s.strhash b' →
    sx.bytes s.mem = sx'.bytes s.mem → sx = sx'
  addr : ∀ b b' sx sx', sx ∈ s.strhash b → sx' ∈ s.strhash b' → sx.addr = sx'.addr → sx = sx'

theorem Inv.init (host : Host) (mem : Memory) : Inv host ⟨mem, fun _ => [], 0, host.mempool⟩ where
  low := Nat.le_refl _
  high := Nat.le_add_right _ _
  placed _ _ h := nomatch h
  unique _ _ _ _ h := nomatch h
  addr _ _ _ _ h := nomatch h

theorem Inv.same {s s' : StrState} (h : Inv host s) (hhash : s'.strhash = s.strhash)
    (hpos : s'.mpFreepos = s.mpFreepos)
    (hmem : ∀ x, host.mempool ≤ x → x < s.mpFreepos → s'.mem x = s.mem x) :
    Inv host s' ∧ ∀ b, ∀ sx ∈ s.strhash b, sx.bytes s'.mem = sx.bytes s.mem := by
  have hbytes : ∀ b, ∀ sx ∈ s.strhash b, sx.bytes s'.mem = sx.bytes s.mem := by
    intro b sx hsx
    obtain ⟨hlow, hhigh, -, -⟩ := h.placed b sx hsx
    rw [Str.bytes, Str.bytes, slice_eq_slice_iff]
    intro i hi
    refine hmem _ ?_ (by omega)
    rw [Str.getstr]
    omega
  refine ⟨⟨by rw [hpos]; exact h.low, by rw [hpos]; exact h.high, ?_, ?_, ?_⟩, hbytes⟩
  · intro b sx hsx
    rw [hhash] at hsx
    obtain ⟨hlow, hhigh, hchain, hnul⟩ := h.placed b sx hsx
    refine ⟨hlow, by rw [hpos]; exact hhigh, ?_, ?_⟩
    · rw [hchain]
      exact congrArg bucket (kpStrHash_congr (hbytes b sx hsx).symm)
    · rw [← hnul]
      refine hmem _ ?_ (by omega)
      rw [Str.getstr]
      omega
  · intro b b' sx sx' hsx hsx' heq
    rw [hhash] at hsx hsx'
    rw [hbytes b sx hsx, hbytes b' sx' hsx'] at heq
    exact h.unique b b' sx sx' hsx hsx' heq
  · rw [hhash]
    exact h.addr

/-! ### A new object -/

section fresh

variable {s : StrState} {str : ℕ}

/-- The table with a new string. -/
def fresh (host : Host) (s : StrState) (str len : ℕ) : StrState :=
  { mem := writeStr host s.mem s.mpFreepos str len
    strhash := Function.update s.strhash (bucket (kpStrHash s.mem str len))
      (⟨s.mpFreepos, kpStrHash s.mem str len, len⟩ :: s.strhash (bucket (kpStrHash s.mem str len)))
    strnum := s.strnum + 1
    mpFreepos := s.mpFreepos + (sizeofStr + len + 1) }

theorem writeStr_of_lt {x pos : ℕ} (h : x < pos) : writeStr host mem pos str len x = mem x := by
  rw [writeStr, fill_of_lt (by omega), copy_of_lt (by omega), fill_of_lt h]

theorem slice_writeStr {pos : ℕ} (hapart : str + len ≤ pos ∨ pos + sizeofStr + len + 1 ≤ str) :
    slice (writeStr host mem pos str len) (pos + sizeofStr) len = slice mem str len := by
  have hnul : slice (writeStr host mem pos str len) (pos + sizeofStr) len =
      slice (copy (fill mem pos sizeofStr (host.header pos)) (pos + sizeofStr) str len)
        (pos + sizeofStr) len := by
    rw [slice_eq_slice_iff]
    intro i hi
    rw [writeStr, fill_of_lt (Nat.add_lt_add_left hi _)]
  rw [hnul, slice_copy, slice_eq_slice_iff]
  intro i hi
  rcases hapart with hbelow | habove
  · exact fill_of_lt (by omega)
  · exact fill_of_ge (by omega)

theorem nul_writeStr (pos : ℕ) : writeStr host mem pos str len (pos + sizeofStr + len) = 0 := by
  rw [writeStr, fill_of_mem (Nat.le_refl _) (Nat.lt_succ_self _)]

theorem mem_fresh {b : ℕ} {sx : Str} (h : sx ∈ (fresh host s str len).strhash b) :
    (sx = ⟨s.mpFreepos, kpStrHash s.mem str len, len⟩ ∧ b = bucket (kpStrHash s.mem str len)) ∨
      sx ∈ s.strhash b := by
  rw [fresh] at h
  by_cases hb : b = bucket (kpStrHash s.mem str len)
  · subst hb
    dsimp only at h
    rw [update_self] at h
    rcases mem_cons.mp h with rfl | h
    · exact .inl ⟨rfl, rfl⟩
    · exact .inr h
  · dsimp only at h
    rw [update_of_ne hb] at h
    exact .inr h

theorem new_mem_fresh : (⟨s.mpFreepos, kpStrHash s.mem str len, len⟩ : Str) ∈
    (fresh host s str len).strhash (bucket (kpStrHash s.mem str len)) := by
  rw [fresh]
  dsimp only
  rw [update_self]
  exact mem_cons_self

theorem old_mem_fresh {b : ℕ} {sx : Str} (h : sx ∈ s.strhash b) :
    sx ∈ (fresh host s str len).strhash b := by
  rw [fresh]
  dsimp only
  by_cases hb : b = bucket (kpStrHash s.mem str len)
  · subst hb
    rw [update_self]
    exact mem_cons_of_mem _ h
  · rw [update_of_ne hb]
    exact h

/-- **A new object** keeps the invariant, and the bytes of the others. -/
theorem Inv.fresh (h : Inv host s) (hnew : ¬ Known s (slice s.mem str len))
    (hfits : Fits host s str len) :
    Inv host (fresh host s str len) ∧
      (∀ b, ∀ sx ∈ s.strhash b, sx.bytes (Strtab.fresh host s str len).mem = sx.bytes s.mem) ∧
      slice (Strtab.fresh host s str len).mem (s.mpFreepos + sizeofStr) len =
        slice s.mem str len := by
  obtain ⟨hroom, hapart⟩ := hfits
  have hcopy : slice (Strtab.fresh host s str len).mem (s.mpFreepos + sizeofStr) len =
      slice s.mem str len := slice_writeStr (by omega)
  have hmem : ∀ x, host.mempool ≤ x → x < s.mpFreepos →
      writeStr host s.mem s.mpFreepos str len x = s.mem x := fun x _ hx => writeStr_of_lt hx
  obtain ⟨hinv, hbytes⟩ :=
    @Inv.same host s { s with mem := writeStr host s.mem s.mpFreepos str len } h rfl rfl hmem
  have hother : ∀ b, ∀ sx ∈ s.strhash b, sx.bytes s.mem ≠ slice s.mem str len :=
    fun b sx hsx heq => hnew ⟨b, sx, hsx, heq⟩
  have hbelow : ∀ b, ∀ sx ∈ s.strhash b, sx.addr ≠ s.mpFreepos := by
    intro b sx hsx heq
    have hhigh := (h.placed b sx hsx).high
    rw [Str.getstr] at hhigh
    omega
  refine ⟨⟨?_, hroom, ?_, ?_, ?_⟩, hbytes, hcopy⟩
  · exact Nat.le_trans h.low (Nat.le_add_right _ _)
  · intro b sx hsx
    rcases mem_fresh hsx with ⟨rfl, rfl⟩ | hsx
    · refine ⟨h.low, Nat.le_of_eq ?_, congrArg bucket (kpStrHash_congr hcopy.symm), nul_writeStr _⟩
      simp only [Str.getstr, Strtab.fresh]
      omega
    · obtain ⟨hlow, hhigh, hchain, hnul⟩ := hinv.placed b sx hsx
      exact ⟨hlow, Nat.le_trans hhigh (Nat.le_add_right _ _), hchain, hnul⟩
  · intro b b' sx sx' hsx hsx' heq
    rcases mem_fresh hsx with ⟨rfl, -⟩ | hsx <;> rcases mem_fresh hsx' with ⟨rfl, -⟩ | hsx'
    · rfl
    · exact absurd ((hbytes b' sx' hsx').symm.trans (heq.symm.trans hcopy)) (hother b' sx' hsx')
    · exact absurd ((hbytes b sx hsx).symm.trans (heq.trans hcopy)) (hother b sx hsx)
    · exact hinv.unique b b' sx sx' hsx hsx' heq
  · intro b b' sx sx' hsx hsx' heq
    rcases mem_fresh hsx with ⟨rfl, -⟩ | hsx <;> rcases mem_fresh hsx' with ⟨rfl, -⟩ | hsx'
    · rfl
    · exact absurd heq.symm (hbelow b' sx' hsx')
    · exact absurd heq (hbelow b sx hsx)
    · exact h.addr b b' sx sx' hsx hsx' heq

end fresh

/-! ### One call -/

/-- What `kp_str_new` comes to. -/
inductive Interned (host : Host) (s : StrState) (str len : ℕ) : Option ℕ × StrState → Prop where
  | tooLong : kpMaxStr ≤ len → Interned host s str len (none, s)
  | noMemory : ¬ Known s (slice s.mem str len) → host.mempool + host.mpSize = 0 →
    Interned host s str len (none, s)
  | found {b : ℕ} {sx : Str} : sx ∈ s.strhash b → sx.bytes s.mem = slice s.mem str len →
    Interned host s str len (some sx.addr, s)
  | tooMany : len < kpMaxStr → ¬ Known s (slice s.mem str len) → kpMaxStrnum < s.strnum →
    Interned host s str len (none, fresh host s str len)
  | fresh : len < kpMaxStr → ¬ Known s (slice s.mem str len) →
    Interned host s str len (some s.mpFreepos, fresh host s str len)

/-- **`kp_str_new`** finds the object with the bytes of the string, or makes it. -/
theorem kpStrNew_spec {s : StrState} {str : ℕ} (h : Inv host s)
    (hempty : len = 0 → EmptyOk host s str) :
    Interned host s str len (kpStrNew host s str len) := by
  rw [kpStrNew]
  by_cases hlong : len ≥ kpMaxStr
  · rw [if_pos hlong]
    exact .tooLong hlong
  · rw [if_neg hlong]
    cases hfind :
        (s.strhash (bucket (kpStrHash s.mem str len))).find? (sameStr host s.mem str len) with
    | some sx =>
      exact .found (mem_of_find?_eq_some hfind) (bytes_of_sameStr (find?_some hfind))
    | none =>
      have hnew : ¬ Known s (slice s.mem str len) := by
        rintro ⟨b, sx, hsx, hbytes⟩
        -- an object with these bytes is in the chain that was searched
        have hlen : sx.len = len := by
          have := congrArg List.length hbytes
          rwa [Str.bytes, length_slice, length_slice] at this
        have hchain : b = bucket (kpStrHash s.mem str len) := by
          rw [Str.bytes, hlen] at hbytes
          rw [(h.placed b sx hsx).chain, hlen, kpStrHash_congr hbytes]
        have hnone := find?_eq_none.mp hfind sx (hchain ▸ hsx)
        exact hnone (sameStr_of_bytes hsx hempty hbytes)
      dsimp only
      rw [kpMempoolAlloc]
      by_cases hpool : (if s.mpFreepos + (sizeofStr + len + 1) ≠ 0 then 1 else 0) >
          host.mempool + host.mpSize
      · rw [if_pos hpool]
        refine .noMemory hnew ?_
        split at hpool <;> omega
      · rw [if_neg hpool]
        dsimp only
        split
        · exact .tooMany (Nat.lt_of_not_le hlong) hnew ‹_›
        · exact .fresh (Nat.lt_of_not_le hlong) hnew

/-! ## Runs of calls -/

/-- What the calls so far returned is in the table, with the bytes of the call; no string that is
short enough was refused. -/
structure CallsInv (host : Host) (s : Calls) : Prop where
  inv : Inv host s.st
  returned : ∀ c ∈ s.calls, c.bytes.length < kpMaxStr → ∃ a, c.result = some a
  calls : ∀ c ∈ s.calls, ∀ a, c.result = some a →
    ∃ b, ∃ sx ∈ s.st.strhash b, sx.addr = a ∧ sx.bytes s.st.mem = c.bytes

theorem CallsInv.calls_same {s : Calls} {st : StrState} (h : CallsInv host s)
    (hold : ∀ b, ∀ sx ∈ s.st.strhash b, sx ∈ st.strhash b ∧ sx.bytes st.mem = sx.bytes s.st.mem) :
    ∀ c ∈ s.calls, ∀ a, c.result = some a →
      ∃ b, ∃ sx ∈ st.strhash b, sx.addr = a ∧ sx.bytes st.mem = c.bytes := by
  intro c hc a ha
  obtain ⟨b, sx, hsx, haddr, hbytes⟩ := h.calls c hc a ha
  obtain ⟨hmem, hsame⟩ := hold b sx hsx
  exact ⟨b, sx, hmem, haddr, hsame.trans hbytes⟩

/-- **Step lemma.** -/
theorem CallsInv.act {s : Calls} (h : CallsInv host s) {x : Act} (hfine : Fine host s x) :
    CallsInv host (act host s x) := by
  cases x with
  | write f =>
    have hmem : ∀ x, host.mempool ≤ x → x < s.st.mpFreepos →
        (Strtab.act host s (.write f)).st.mem x = s.st.mem x :=
      fun x hlow hhigh => if_pos ⟨hlow, Nat.lt_of_lt_of_le hhigh h.inv.high⟩
    obtain ⟨hinv, hbytes⟩ :=
      @Inv.same host s.st (Strtab.act host s (.write f)).st h.inv rfl rfl hmem
    exact ⟨hinv, h.returned, h.calls_same fun b sx hsx => ⟨hsx, hbytes b sx hsx⟩⟩
  | intern str len =>
    -- the condition on the empty string
    have hempty : len = 0 → EmptyOk host s.st str := by
      rintro rfl
      exact (hfine (by decide)).1 rfl
    have hlength : (slice s.st.mem str len).length = len := length_slice ..
    have hspec := @kpStrNew_spec host len s.st str h.inv hempty
    have hcalls : ∀ r : Option ℕ × StrState, Interned host s.st str len r →
        CallsInv host ⟨r.2, ⟨slice s.st.mem str len, r.1⟩ :: s.calls⟩ := by
      intro r hr
      cases hr with
      | tooLong hlong =>
        refine ⟨h.inv, forall_mem_cons.mpr ⟨fun hlt => ?_, h.returned⟩,
          forall_mem_cons.mpr ⟨fun _ ha => (nomatch ha), h.calls⟩⟩
        rw [hlength] at hlt
        exact absurd hlong (Nat.not_le.mpr hlt)
      | noMemory hnot hpool =>
        refine ⟨h.inv, forall_mem_cons.mpr ⟨fun hlt => ?_, h.returned⟩,
          forall_mem_cons.mpr ⟨fun _ ha => (nomatch ha), h.calls⟩⟩
        have hroom := ((hfine (hlength ▸ hlt)).2 hnot).1.room
        rw [sizeofStr] at hroom
        omega
      | @found b sx hsx hbytes =>
        exact ⟨h.inv, forall_mem_cons.mpr ⟨fun _ => ⟨_, rfl⟩, h.returned⟩,
          forall_mem_cons.mpr ⟨fun a ha => ⟨b, sx, hsx, Option.some.inj ha, hbytes⟩, h.calls⟩⟩
      | tooMany hlen hnot hmany =>
        exact absurd hmany (Nat.not_lt.mpr ((hfine hlen).2 hnot).2)
      | fresh hlen hnot =>
        obtain ⟨hinv, hbytes, hcopy⟩ := h.inv.fresh hnot ((hfine hlen).2 hnot).1
        refine ⟨hinv, forall_mem_cons.mpr ⟨fun _ => ⟨_, rfl⟩, h.returned⟩,
          forall_mem_cons.mpr ⟨fun a ha => ?_, ?_⟩⟩
        · exact ⟨_, _, new_mem_fresh, Option.some.inj ha, hcopy⟩
        · exact h.calls_same fun b sx hsx => ⟨old_mem_fresh hsx, hbytes b sx hsx⟩
    exact hcalls _ hspec

/-- **Run lemma.** -/
theorem CallsInv.reach {s : Calls} (h : (strtab host mem).Reach (Fine host) s) :
    CallsInv host s := by
  refine @System.Reach.invariant _ _ _ _ _ (CallsInv host) ?_ ?_ _ h
  · exact ⟨.init host mem, fun _ hc => absurd hc not_mem_nil, fun _ hc => absurd hc not_mem_nil⟩
  · intro s x s' hinv _ hfine hstep
    cases hstep
    exact hinv.act hfine

/-- **Interning**: every call with a string that is short enough returns an object, two calls return
the same one if and only if the bytes were the same, and each object still holds its bytes, its
length and a zero. -/
theorem interned {s : Calls} (h : (strtab host mem).Reach (Fine host) s) :
    (∀ c ∈ s.calls, c.bytes.length < kpMaxStr → ∃ a, c.result = some a) ∧
      (∀ c ∈ s.calls, ∀ c' ∈ s.calls, ∀ a a', c.result = some a → c'.result = some a' →
        (a = a' ↔ c.bytes = c'.bytes)) ∧
      ∀ c ∈ s.calls, ∀ a, c.result = some a → ∃ b, ∃ sx ∈ s.st.strhash b, sx.addr = a ∧
        sx.len = c.bytes.length ∧ slice s.st.mem sx.getstr sx.len = c.bytes ∧
        s.st.mem (sx.getstr + sx.len) = 0 := by
  obtain ⟨hinv, hreturned, hcalls⟩ := CallsInv.reach h
  refine ⟨hreturned, ?_, ?_⟩
  · intro c hc c' hc' a a' ha ha'
    obtain ⟨b, sx, hsx, rfl, hbytes⟩ := hcalls c hc a ha
    obtain ⟨b', sx', hsx', rfl, hbytes'⟩ := hcalls c' hc' a' ha'
    constructor
    · intro haddr
      obtain rfl := hinv.addr b b' sx sx' hsx hsx' haddr
      exact hbytes.symm.trans hbytes'
    · intro heq
      have hsame := hinv.unique b b' sx sx' hsx hsx' (hbytes.trans (heq.trans hbytes'.symm))
      rw [hsame]
  · intro c hc a ha
    obtain ⟨b, sx, hsx, haddr, hbytes⟩ := hcalls c hc a ha
    have hlen : sx.len = c.bytes.length := by rw [← hbytes, Str.bytes, length_slice]
    exact ⟨b, sx, hsx, haddr, hlen, hbytes, (hinv.placed b sx hsx).nul⟩

def host64 : Host := ⟨false, id, fun _ _ => 0, 4096, 4096⟩

/-- `"ab"` interned at two addresses: both calls return one object. -/
theorem interned_twice : ∃ (s : Calls) (a : ℕ),
    (strtab host64 fun x => if x % 100 = 0 then 97 else 98).Reach (Fine host64) s ∧
      s.calls.map Call.bytes = [[97, 98], [97, 98]] ∧ ∀ c ∈ s.calls, c.result = some a := by
  let mem : Memory := fun x => if x % 100 = 0 then 97 else 98
  let s₀ : Calls := (strtab host64 mem).init
  let s₁ := act host64 s₀ (.intern 0 2)
  have hs₁ : s₁.st = fresh host64 s₀.st 0 2 := rfl
  have hfits₀ : Fine host64 s₀ (.intern 0 2) := fun _ =>
    ⟨fun h => absurd h (by decide), fun _ => ⟨⟨by decide, .inl (by decide)⟩, by decide⟩⟩
  have hfits₁ : Fine host64 s₁ (.intern 100 2) := fun _ => ⟨fun h => absurd h (by decide),
    fun _ => ⟨⟨by rw [hs₁]; decide, .inl (by rw [hs₁]; decide)⟩, by rw [hs₁]; decide⟩⟩
  have hreach : (strtab host64 mem).Reach (Fine host64) (act host64 s₁ (.intern 100 2)) :=
    .step (.step .init trivial hfits₀ rfl) trivial hfits₁ rfl
  have hbytes : (act host64 s₁ (.intern 100 2)).calls.map Call.bytes = [[97, 98], [97, 98]] := rfl
  have hall : ∀ c ∈ (act host64 s₁ (.intern 100 2)).calls, c.bytes = [97, 98] := by
    intro c hc
    have hmem := List.mem_map_of_mem (f := Call.bytes) hc
    rw [hbytes] at hmem
    simpa using hmem
  obtain ⟨hsome, hsame, -⟩ := interned hreach
  have hfirst : (⟨[97, 98], some 4096⟩ : Call) ∈ (act host64 s₁ (.intern 100 2)).calls :=
    List.mem_cons_of_mem _ List.mem_cons_self
  refine ⟨_, 4096, hreach, hbytes, fun c hc => ?_⟩
  obtain ⟨a, ha⟩ := hsome c hc (by rw [hall c hc]; decide)
  rw [ha, (hsame c hc _ hfirst a 4096 ha rfl).mpr (hall c hc)]

/-- `""` interned twice, with other bytes behind it: two objects. -/
theorem empty_twice :
    ¬ ∀ (host : Host) (mem : Memory) (s : Calls), (strtab host mem).Reach (fun _ _ => True) s →
      ∀ c ∈ s.calls, ∀ c' ∈ s.calls, ∀ a a', c.result = some a → c'.result = some a' →
        (a = a' ↔ c.bytes = c'.bytes) := by
  intro h
  let mem : Memory := fun x => if x = 100 then 1 else 0
  let s₀ : Calls := (strtab host64 mem).init
  let s₁ := act host64 s₀ (.intern 0 0)
  have hs₁ : s₁ = ⟨fresh host64 s₀.st 0 0, [⟨[], some 4096⟩]⟩ := rfl
  have hcmp :
      ∀ hash, sameStr host64 (fresh host64 s₀.st 0 0).mem 100 0 ⟨4096, hash, 0⟩ = false := by
    intro hash
    have hword : strFastcmp host64 (fresh host64 s₀.st 0 0).mem 100 (4096 + sizeofStr) 0 = 1 := by
      have hdiff : word host64.be (fresh host64 s₀.st 0 0).mem (100 + 0) ^^^
          word host64.be (fresh host64 s₀.st 0 0).mem (4096 + sizeofStr + 0) = 1 := by decide
      rw [strFastcmp, fastcmpLoop, hdiff]
      rfl
    rw [sameStr, Str.getstr, hword]
    rfl
  have hnone : ∀ b, ((fresh host64 s₀.st 0 0).strhash b).find?
      (sameStr host64 (fresh host64 s₀.st 0 0).mem 100 0) = none := by
    intro b
    rw [List.find?_eq_none]
    intro sx hsx
    rcases mem_fresh hsx with ⟨rfl, -⟩ | hsx
    · rw [Bool.not_eq_true]
      exact hcmp _
    · exact absurd hsx List.not_mem_nil
  have hnew : (kpStrNew host64 (fresh host64 s₀.st 0 0) 100 0).1 = some 4121 := by
    rw [kpStrNew, if_neg (by decide)]
    simp only [hnone]
    rfl
  have hreach : (strtab host64 mem).Reach (fun _ _ => True) (act host64 s₁ (.intern 100 0)) :=
    .step (.step .init trivial trivial rfl) trivial trivial rfl
  have hcalls : (act host64 s₁ (.intern 100 0)).calls = [⟨[], some 4121⟩, ⟨[], some 4096⟩] := by
    rw [hs₁, ← hnew]
    rfl
  have hiff := h host64 mem _ hreach ⟨[], some 4121⟩ (by rw [hcalls]; exact List.mem_cons_self)
    ⟨[], some 4096⟩
      (by rw [hcalls]; exact List.mem_cons_of_mem _ List.mem_cons_self) 4121 4096 rfl rfl
  exact absurd (hiff.mpr rfl) (by decide)

end Strtab

end Ktap
