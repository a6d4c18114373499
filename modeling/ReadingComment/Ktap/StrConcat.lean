import ReadingComment.Ktap.Str

/-!
# Concatenation of strings (`str_concat` and `BC_CAT` of `runtime/kp_vm.c`)

The strings of a run of registers are copied behind each other into a buffer of the CPU, and what
is in the buffer then is interned. The lengths are those of the objects, but the copying is that of
C strings.

A string value is the address of its object. The sum of at most 256 lengths below `KP_MAX_STR` does
not leave an `int`.
-/

namespace Ktap

open Codec Lib List

namespace Strtab

/-- `KTAP_PERCPU_BUFFER_SIZE`. -/
def ktapPercpuBufferSize : ℕ := 3 * pageSize

/-- `kp_this_cpu_print_buffer(ks)`: it is not in the pool. -/
structure PrintBuffer (host : Host) where
  addr : ℕ
  apart : addr + ktapPercpuBufferSize ≤ host.mempool ∨ host.mempool + host.mpSize ≤ addr

/-- What `BC_CAT` works on: the strings, the registers, and what `kp_error` printed. -/
structure Regs where
  st : StrState
  base : ℕ → Val ℕ
  errors : List String

/-- `kp_error(ks, msg)`. -/
def Regs.kpError (v : Regs) (msg : String) : Regs := { v with errors := v.errors ++ [msg] }

/-- The object at an address in the chains from `b` on. -/
def objFrom (s : StrState) (ts b : ℕ) : Option Str :=
  if b < strmask.toNat + 1 then
    match (s.strhash b).find? (·.addr == ts) with
    | some sx => some sx
    | none => objFrom s ts (b + 1)
  else none
  termination_by strmask.toNat + 1 - b

def rawtsvalue (s : StrState) (ts : ℕ) : Option Str := objFrom s ts 0

/-- `ts->len`. -/
def strLen (s : StrState) (ts : ℕ) : ℕ := (rawtsvalue s ts).elim 0 Str.len

/-- The first loop of `str_concat`. -/
def concatLen (s : StrState) (len : ℕ) : List (Val ℕ) → Option ℕ
  | [] => some len
  | .str ts :: os => concatLen s (len + strLen s ts) os
  | _ :: _ => none

/-- The second loop of `str_concat`. -/
def concatCopy (s : StrState) (mem : Memory) (ptr : ℕ) : List (Val ℕ) → Memory
  | [] => mem
  | .str ts :: os =>
    concatCopy s (strncpy mem ptr (ts + sizeofStr) (strLen s ts)) (ptr + strLen s ts) os
  -- the first loop has seen that there is no such operand
  | _ :: os => concatCopy s mem ptr os

/-- The message of `kp_str_new`, which is printed when a new object is not returned. -/
def kpStrNewErrors (s : StrState) (r : Option ℕ × StrState) : List String :=
  if r.1 = none ∧ r.2.strnum ≠ s.strnum then ["exceed max string number 9999\n"] else []

/-- `top[start]` to `top[end]`. -/
def Regs.operands (v : Regs) (first last : ℕ) : List (Val ℕ) :=
  (List.range' first (last + 1 - first)).map v.base

def Regs.copied {host : Host} (v : Regs) (buffer : PrintBuffer host) (first last : ℕ) : StrState :=
  { v.st with mem := concatCopy v.st v.st.mem buffer.addr (v.operands first last) }

/-- `str_concat(ks, top, start, end)`. -/
def strConcat (host : Host) (buffer : PrintBuffer host) (v : Regs) (first last : ℕ) :
    Option ℕ × Regs :=
  match concatLen v.st 0 (v.operands first last) with
  | none => (none, v.kpError "cannot concat non-string\n")
  | some len =>
    if len ≥ ktapPercpuBufferSize then (none, v.kpError "Error: too long string concatenation\n")
    else
      let st := v.copied buffer first last
      let r := kpStrNew host st buffer.addr len
      (r.1, { v with st := r.2, errors := v.errors ++ kpStrNewErrors st r })

/-- Where an instruction goes on: at the next one, or nowhere. -/
inductive Next where
  | dispatch (v : Regs)
  | stop (v : Regs)

/-- `BC_CAT`. -/
def bcCat (host : Host) (buffer : PrintBuffer host) (v : Regs) (a b c : ℕ) : Next :=
  match strConcat host buffer v b c with
  | (none, v) => .stop v
  | (some ts, v) => .dispatch { v with base := Function.update v.base a (.str ts) }

/-! ## What is promised -/

def Holds (s : StrState) (o : Val ℕ) (w : Bytes) : Prop :=
  ∃ b, ∃ sx ∈ s.strhash b, o = .str sx.addr ∧ sx.bytes s.mem = w

/-- A state of the machine: the strings of the registers are objects of the table. -/
structure Regs.Ok (host : Host) (v : Regs) : Prop where
  inv : Inv host v.st
  base : ∀ i ts, v.base i = .str ts → ∃ w, Holds v.st (.str ts) w

abbrev Regs.Operands (v : Regs) (b c : ℕ) (ws : List Bytes) : Prop :=
  List.Forall₂ (Holds v.st) (v.operands b c) ws

def Rejects (host : Host) (buffer : PrintBuffer host) (v : Regs) (a b c : ℕ) : Prop :=
  ∃ v' msg, bcCat host buffer v a b c = .stop v' ∧ v'.errors = v.errors ++ [msg] ∧
    v'.st.strhash = v.st.strhash ∧ v'.base = v.base

/-- The interned string of the bytes goes to `A`. -/
def Stores (host : Host) (buffer : PrintBuffer host) (v : Regs) (a b c : ℕ) (w : Bytes) : Prop :=
  ∃ v' ts, bcCat host buffer v a b c = .dispatch v' ∧
    v'.base = Function.update v.base a (.str ts) ∧ Holds v'.st (.str ts) w ∧ Inv host v'.st ∧
    v'.errors = v.errors

def Short (w : Bytes) : Prop := w.length < kpMaxStr ∧ w.length < ktapPercpuBufferSize

/-- `BC_CAT` concatenates. -/
structure Concatenates (host : Host) (buffer : PrintBuffer host) (v : Regs) (a b c : ℕ) : Prop where
  short : ∀ ws, v.Operands b c ws → Short ws.flatten → Stores host buffer v a b c ws.flatten
  long : ∀ ws, v.Operands b c ws → ¬ Short ws.flatten → Rejects host buffer v a b c
  other : (∃ o ∈ v.operands b c, ∀ ts, o ≠ .str ts) → Rejects host buffer v a b c

/-- The condition on the operands: no string goes on behind a zero, the empty string is compared
well, and a new object is one that the table has place for; a length that does not fit into a
string does not fit into the buffer either. -/
structure CatFine (host : Host) (buffer : PrintBuffer host) (s : StrState) (ws : List Bytes) :
    Prop where
  zeros : Short ws.flatten → ∀ w ∈ ws, ∀ x ∈ w.dropWhile (· ≠ 0), x = 0
  empty : ws.flatten = [] → EmptyOk host s buffer.addr
  room : Short ws.flatten → ¬ Known s ws.flatten →
    s.mpFreepos + (sizeofStr + ws.flatten.length + 1) ≤ host.mempool + host.mpSize ∧
      s.strnum ≤ kpMaxStrnum
  long : kpMaxStr ≤ ws.flatten.length → ktapPercpuBufferSize ≤ ws.flatten.length

/-! ## Objects by their address -/

variable {host : Host} {buffer : PrintBuffer host} {s : StrState} {v : Regs}

theorem bucket_lt (hash : BitVec 32) : bucket hash < strmask.toNat + 1 := by
  rw [bucket, BitVec.toNat_and]
  exact Nat.lt_succ_of_le Nat.and_le_right

theorem objFrom_mem (h : Inv host s) {first b : ℕ} {sx : Str} (hsx : sx ∈ s.strhash b)
    (hfirst : first ≤ b) : objFrom s sx.addr first = some sx := by
  have hb : b < strmask.toNat + 1 := by
    rw [(h.placed b sx hsx).chain]
    exact bucket_lt _
  have hfound : ∀ b', ∀ sx', (s.strhash b').find? (·.addr == sx.addr) = some sx' → sx' = sx := by
    intro b' sx' hsome
    have haddr : sx'.addr = sx.addr := by simpa using find?_some hsome
    exact h.addr b' b sx' sx (mem_of_find?_eq_some hsome) hsx haddr
  induction hn : b - first generalizing first with
  | zero =>
    obtain rfl : first = b := by omega
    rw [objFrom, if_pos hb]
    cases hsome : (s.strhash first).find? (·.addr == sx.addr) with
    | some sx' => exact congrArg some (hfound first sx' hsome)
    | none => exact absurd (beq_self_eq_true sx.addr) (find?_eq_none.mp hsome sx hsx)
  | succ n ih =>
    rw [objFrom, if_pos (by omega)]
    cases hsome : (s.strhash first).find? (·.addr == sx.addr) with
    | some sx' => exact congrArg some (hfound first sx' hsome)
    | none => exact ih (by omega) (by omega)

theorem rawtsvalue_mem (h : Inv host s) {b : ℕ} {sx : Str} (hsx : sx ∈ s.strhash b) :
    rawtsvalue s sx.addr = some sx := objFrom_mem h hsx (Nat.zero_le b)

theorem strLen_mem (h : Inv host s) {b : ℕ} {sx : Str} (hsx : sx ∈ s.strhash b) :
    strLen s sx.addr = sx.len := by
  rw [strLen, rawtsvalue_mem h hsx, Option.elim_some]

theorem Holds.unique {o : Val ℕ} {w w' : Bytes} (h : Inv host s) (hw : Holds s o w)
    (hw' : Holds s o w') : w = w' := by
  obtain ⟨b, sx, hsx, rfl, rfl⟩ := hw
  obtain ⟨b', sx', hsx', haddr, rfl⟩ := hw'
  rw [h.addr b b' sx sx' hsx hsx' (Val.str.inj haddr)]

/-! ## The loops -/

variable {os : List (Val ℕ)}

theorem concatLen_strings (h : Inv host s) {ws : List Bytes} (hos : List.Forall₂ (Holds s) os ws)
    (len : ℕ) :
    concatLen s len os = some (len + ws.flatten.length) := by
  induction hos generalizing len with
  | nil => rfl
  | cons ho _ ih =>
    obtain ⟨b, sx, hsx, rfl, rfl⟩ := ho
    rw [concatLen, strLen_mem h hsx, ih, flatten_cons, length_append, Str.bytes,
      length_slice, Nat.add_assoc]

theorem concatLen_other (hother : ∃ o ∈ os, ∀ ts, o ≠ .str ts) (len : ℕ) :
    concatLen s len os = none := by
  induction os generalizing len with
  | nil => exact absurd hother (by simp)
  | cons o os ih =>
    cases o with
    | str ts =>
      obtain ⟨o, ho, hne⟩ := hother
      have hos : o ∈ os := (mem_cons.mp ho).resolve_left (hne ts)
      exact ih ⟨o, hos, hne⟩ _
    | _ => rfl

theorem concatCopy_outside (h : Inv host s) {ws : List Bytes} (hos : List.Forall₂ (Holds s) os ws)
    {mem : Memory} {ptr x : ℕ} (hx : x < ptr ∨ ptr + ws.flatten.length ≤ x) :
    concatCopy s mem ptr os x = mem x := by
  induction hos generalizing mem ptr with
  | nil => rfl
  | cons ho _ ih =>
    obtain ⟨b, sx, hsx, rfl, rfl⟩ := ho
    rw [flatten_cons, length_append, Str.bytes, length_slice] at hx
    rw [concatCopy, strLen_mem h hsx, ih (by omega), strncpy_outside (by omega)]

theorem slice_concatCopy (h : Inv host s) {ws : List Bytes} (hos : List.Forall₂ (Holds s) os ws)
    {mem : Memory} {ptr : ℕ} (hmem : ∀ x, host.mempool ≤ x → x < s.mpFreepos → mem x = s.mem x)
    (hapart : ptr + ws.flatten.length ≤ host.mempool ∨ host.mempool + host.mpSize ≤ ptr) :
    slice (concatCopy s mem ptr os) ptr ws.flatten.length = ws.flatMap uptoZero := by
  induction hos generalizing mem ptr with
  | nil => rfl
  | @cons o w os ws ho hos ih =>
    obtain ⟨b, sx, hsx, rfl, rfl⟩ := ho
    obtain ⟨hlow, hhigh, -, -⟩ := h.placed b sx hsx
    have hend := h.high
    have hlen : (sx.bytes s.mem).length = sx.len := length_slice _ _ _
    rw [flatten_cons, length_append, hlen] at hapart ⊢
    rw [Str.getstr] at hhigh
    -- the object is not where the copy goes
    have hsrc : slice mem (sx.addr + sizeofStr) sx.len = sx.bytes s.mem :=
      slice_eq_slice_iff.mpr fun i hi => hmem _ (by omega) (by omega)
    have hmem' : ∀ x, host.mempool ≤ x → x < s.mpFreepos →
        strncpy mem ptr (sx.addr + sizeofStr) sx.len x = s.mem x := by
      intro x hx hx'
      rw [strncpy_outside (by omega), hmem x hx hx']
    have hfirst :
        slice (concatCopy s (strncpy mem ptr (sx.addr + sizeofStr) sx.len) (ptr + sx.len) os)
        ptr sx.len = uptoZero (sx.bytes s.mem) := by
      have hapart' : sx.addr + sizeofStr + sx.len ≤ ptr ∨ ptr + sx.len ≤ sx.addr + sizeofStr := by
        omega
      rw [← hsrc, ← slice_strncpy hapart']
      exact slice_eq_slice_iff.mpr fun i hi => concatCopy_outside h hos (.inl (by omega))
    rw [concatCopy, strLen_mem h hsx, slice_add, hfirst, ih hmem' (by omega), flatMap_cons]

theorem flatMap_uptoZero {ws : List Bytes} :
    ws.flatMap uptoZero = ws.flatten ↔ ∀ w ∈ ws, ∀ x ∈ w.dropWhile (· ≠ 0), x = 0 := by
  induction ws with
  | nil => simp
  | cons w ws ih =>
    rw [flatMap_cons, flatten_cons, forall_mem_cons, ← uptoZero_eq_self, ← ih]
    constructor
    · intro h
      exact append_inj h (length_uptoZero w)
    · rintro ⟨hw, hws⟩
      rw [hw, hws]

/-! ## Interning what is in the buffer -/

section intern

variable {str len : ℕ}

theorem kpStrNew_some {ts : ℕ} {s' : StrState} (h : kpStrNew host s str len = (some ts, s')) :
    (∃ b, ∃ sx ∈ s.strhash b, sameStr host s.mem str len sx = true ∧ sx.addr = ts ∧ s' = s) ∨
      ((∀ sx ∈ s.strhash (bucket (kpStrHash s.mem str len)),
          sameStr host s.mem str len sx = false) ∧
        ts = s.mpFreepos ∧ s' = fresh host s str len ∧ s.strnum ≤ kpMaxStrnum) := by
  rw [kpStrNew] at h
  by_cases hlong : len ≥ kpMaxStr
  · rw [if_pos hlong] at h
    cases h
  · rw [if_neg hlong] at h
    cases hfind :
        (s.strhash (bucket (kpStrHash s.mem str len))).find? (sameStr host s.mem str len) with
    | some sx =>
      rw [hfind] at h
      cases h
      exact .inl ⟨_, sx, mem_of_find?_eq_some hfind, find?_some hfind, rfl, rfl⟩
    | none =>
      rw [hfind, kpMempoolAlloc] at h
      dsimp only at h
      by_cases hpool : (if s.mpFreepos + (sizeofStr + len + 1) ≠ 0 then 1 else 0) >
          host.mempool + host.mpSize
      · rw [if_pos hpool] at h
        cases h
      · rw [if_neg hpool] at h
        dsimp only at h
        by_cases hmany : s.strnum > kpMaxStrnum
        · rw [if_pos hmany] at h
          cases h
        · rw [if_neg hmany] at h
          cases h
          refine .inr ⟨fun sx hsx => ?_, rfl, rfl, Nat.not_lt.mp hmany⟩
          exact eq_false_of_ne_true (find?_eq_none.mp hfind sx hsx)

theorem kpStrNew_known (h : Inv host s) (hempty : len = 0 → EmptyOk host s str)
    (hlen : len < kpMaxStr)
    (hknown : Known s (slice s.mem str len)) :
    ∃ b, ∃ sx ∈ s.strhash b, sx.bytes s.mem = slice s.mem str len ∧
      kpStrNew host s str len = (some sx.addr, s) := by
  obtain ⟨b, sx, hsx, hbytes⟩ := hknown
  have hb : b = bucket (kpStrHash s.mem str len) := by
    have hlen' : sx.len = len := by
      have := congrArg List.length hbytes
      rwa [Str.bytes, length_slice, length_slice] at this
    rw [Str.bytes, hlen'] at hbytes
    rw [(h.placed b sx hsx).chain, hlen', kpStrHash_congr hbytes]
  have hsame := sameStr_of_bytes hsx hempty hbytes
  obtain ⟨sx', hfind⟩ := Option.isSome_iff_exists.mp
    (find?_isSome.mpr ⟨sx, hb ▸ hsx, hsame⟩)
  refine ⟨_, sx', mem_of_find?_eq_some hfind, bytes_of_sameStr (find?_some hfind), ?_⟩
  rw [kpStrNew, if_neg (Nat.not_le.mpr hlen)]
  simp only [hfind]

theorem kpStrNew_new (hlen : len < kpMaxStr) (hnew : ¬ Known s (slice s.mem str len))
    (hroom : s.mpFreepos + (sizeofStr + len + 1) ≤ host.mempool + host.mpSize)
    (hnum : s.strnum ≤ kpMaxStrnum) :
    kpStrNew host s str len = (some s.mpFreepos, fresh host s str len) := by
  have hfind :
      (s.strhash (bucket (kpStrHash s.mem str len))).find? (sameStr host s.mem str len) = none :=
    find?_eq_none.mpr fun sx hsx hsame => hnew ⟨_, sx, hsx, bytes_of_sameStr hsame⟩
  have hpool : ¬ (if s.mpFreepos + (sizeofStr + len + 1) ≠ 0 then 1 else 0) >
      host.mempool + host.mpSize := by
    split <;> omega
  rw [kpStrNew, if_neg (Nat.not_le.mpr hlen)]
  simp only [hfind]
  rw [kpMempoolAlloc, if_neg hpool]
  dsimp only
  rw [if_neg (Nat.not_lt.mpr hnum)]
  rfl

end intern

/-! ## The instruction -/

section cat

variable {a b c : ℕ} {ws : List Bytes}

theorem copied_inv (buffer : PrintBuffer host) (h : v.Ok host) (hws : v.Operands b c ws)
    (hfit : ws.flatten.length < ktapPercpuBufferSize) :
    Inv host (v.copied buffer b c) ∧
      ∀ b', ∀ sx ∈ v.st.strhash b', sx.bytes (v.copied buffer b c).mem = sx.bytes v.st.mem := by
  have hapart := buffer.apart
  have hend := h.inv.high
  exact h.inv.same rfl rfl fun x hx hx' => concatCopy_outside h.inv hws (by omega)

theorem known_copied (h : v.Ok host) (hws : v.Operands b c ws)
    (hfit : ws.flatten.length < ktapPercpuBufferSize) {w : Bytes} :
    Known (v.copied buffer b c) w ↔ Known v.st w := by
  have hbytes := (copied_inv buffer h hws hfit).2
  constructor
  · rintro ⟨b', sx, hsx, hw⟩
    exact ⟨b', sx, hsx, (hbytes b' sx hsx).symm.trans hw⟩
  · rintro ⟨b', sx, hsx, hw⟩
    exact ⟨b', sx, hsx, (hbytes b' sx hsx).trans hw⟩

theorem slice_copied (buffer : PrintBuffer host) (h : v.Ok host) (hws : v.Operands b c ws)
    (hfit : ws.flatten.length < ktapPercpuBufferSize) :
    slice (v.copied buffer b c).mem buffer.addr ws.flatten.length = ws.flatMap uptoZero := by
  have hapart := buffer.apart
  exact slice_concatCopy h.inv hws (fun _ _ _ => rfl) (by omega)

section

variable (h : v.Ok host) (hws : v.Operands b c ws)

include h hws

theorem emptyOk_copied (hnil : ws.flatten = []) :
    EmptyOk host (v.copied buffer b c) buffer.addr ↔ EmptyOk host v.st buffer.addr := by
  have hmem : (v.copied buffer b c).mem = v.st.mem := by
    funext x
    exact concatCopy_outside h.inv hws (by rw [hnil, length_nil]; omega)
  rw [EmptyOk, EmptyOk, hmem]
  rfl

theorem bcCat_strings (hfit : ws.flatten.length < ktapPercpuBufferSize) {r : Option ℕ × StrState}
    (hr : kpStrNew host (v.copied buffer b c) buffer.addr ws.flatten.length = r) :
    bcCat host buffer v a b c =
      let v' : Regs := ⟨r.2, v.base, v.errors ++ kpStrNewErrors (v.copied buffer b c) r⟩
      match r.1 with
      | none => .stop v'
      | some ts => .dispatch { v' with base := Function.update v.base a (.str ts) } := by
  have hlen := concatLen_strings h.inv hws 0
  rw [Nat.zero_add] at hlen
  rw [bcCat, strConcat, hlen]
  dsimp only
  rw [if_neg (Nat.not_le.mpr hfit), hr]
  obtain ⟨_ | ts, s'⟩ := r <;> rfl

theorem Stores.conditions (hshort : Short ws.flatten)
    (hstores : Stores host buffer v a b c ws.flatten) :
    ws.flatMap uptoZero = ws.flatten ∧ (ws.flatten = [] → EmptyOk host v.st buffer.addr) ∧
      (¬ Known v.st ws.flatten →
        v.st.mpFreepos + (sizeofStr + ws.flatten.length + 1) ≤ host.mempool + host.mpSize ∧
          v.st.strnum ≤ kpMaxStrnum) := by
  obtain ⟨v', ts, hcat, hbase, hholds, hinv', -⟩ := hstores
  obtain ⟨hinv, hbytes⟩ := copied_inv buffer h hws hshort.2
  have hslice := slice_copied buffer h hws hshort.2
  cases hr : kpStrNew host (v.copied buffer b c) buffer.addr ws.flatten.length with
  | mk result s' =>
    rw [bcCat_strings h hws hshort.2 hr] at hcat
    cases result with
    | none => cases hcat
    | some ts' =>
      cases hcat
      obtain rfl : ts' = ts := by simpa using congrFun hbase a
      dsimp only at hholds hinv'
      rcases kpStrNew_some hr with ⟨b', sx, hsx, hsame, rfl, rfl⟩ | ⟨hnone, rfl, rfl, hnum⟩
      · -- an object that was there
        have hsx' : sx.bytes (v.copied buffer b c).mem = ws.flatMap uptoZero :=
          (bytes_of_sameStr hsame).trans hslice
        have heq := Holds.unique hinv ⟨b', sx, hsx, rfl, hsx'⟩ hholds
        refine ⟨heq, fun hnil => ?_, fun hnew => absurd ⟨b', sx, hsx, ?_⟩ hnew⟩
        · rw [← emptyOk_copied h hws hnil]
          intro hfar b₂ sx₂ hsx₂ hlen₂
          have hempty :
              sx.bytes (v.copied buffer b c).mem = sx₂.bytes (v.copied buffer b c).mem := by
            rw [hsx', heq, hnil, Str.bytes, hlen₂]
            rfl
          obtain rfl := hinv.unique b' b₂ sx sx₂ hsx hsx₂ hempty
          rw [sameStr, hnil, length_nil, if_pos hfar, Bool.and_eq_true] at hsame
          exact beq_iff_eq.mp hsame.2
        · exact (hbytes b' sx hsx).symm.trans (hsx'.trans heq)
      · -- a new object
        have hroom : v.st.mpFreepos + (sizeofStr + ws.flatten.length + 1) ≤
            host.mempool + host.mpSize := hinv'.high
        have hapart := buffer.apart
        have hlow := h.inv.low
        have hfit := hshort.2
        have hcopy : slice (fresh host (v.copied buffer b c) buffer.addr ws.flatten.length).mem
            ((v.copied buffer b c).mpFreepos + sizeofStr) ws.flatten.length =
              ws.flatMap uptoZero := by
          refine Eq.trans (slice_writeStr ?_) hslice
          change _ ≤ v.st.mpFreepos ∨ v.st.mpFreepos + _ + _ + _ ≤ _
          omega
        have heq := Holds.unique hinv' ⟨_, _, new_mem_fresh, rfl, hcopy⟩ hholds
        refine ⟨heq, fun hnil _ b₂ sx₂ hsx₂ hlen₂ => ?_, fun _ => ⟨hroom, hnum⟩⟩
        -- a second empty string would be in the table
        have hempty :
            sx₂.bytes (fresh host (v.copied buffer b c) buffer.addr ws.flatten.length).mem =
            slice (fresh host (v.copied buffer b c) buffer.addr ws.flatten.length).mem
              ((v.copied buffer b c).mpFreepos + sizeofStr) ws.flatten.length := by
          rw [Str.bytes, hlen₂, hnil]
          rfl
        have hsame := hinv'.unique b₂ _ sx₂ _ (old_mem_fresh hsx₂) new_mem_fresh hempty
        have hhigh := (h.inv.placed b₂ sx₂ hsx₂).high
        have haddr : sx₂.addr = v.st.mpFreepos := congrArg Str.addr hsame
        rw [Str.getstr, haddr] at hhigh
        omega

theorem CatFine.stores (hshort : Short ws.flatten) (hfine : CatFine host buffer v.st ws) :
    Stores host buffer v a b c ws.flatten := by
  obtain ⟨hinv, hbytes⟩ := copied_inv buffer h hws hshort.2
  have hslice : slice (v.copied buffer b c).mem buffer.addr ws.flatten.length = ws.flatten :=
    (slice_copied buffer h hws hshort.2).trans (flatMap_uptoZero.mpr (hfine.zeros hshort))
  by_cases hknown : Known v.st ws.flatten
  · have hempty : ws.flatten.length = 0 → EmptyOk host (v.copied buffer b c) buffer.addr := by
      intro hzero
      have hnil := length_eq_zero_iff.mp hzero
      exact (emptyOk_copied h hws hnil).mpr (hfine.empty hnil)
    obtain ⟨b', sx, hsx, hsame, hr⟩ := kpStrNew_known hinv hempty hshort.1
      (hslice.symm ▸ (known_copied h hws hshort.2).mpr hknown)
    refine ⟨_, sx.addr, bcCat_strings h hws hshort.2 hr, rfl, ?_, hinv, ?_⟩
    · exact ⟨b', sx, hsx, rfl, hsame.trans hslice⟩
    · exact append_nil _
  · obtain ⟨hroom, hnum⟩ := hfine.room hshort hknown
    have hnew : ¬ Known (v.copied buffer b c) (slice (v.copied buffer b c).mem buffer.addr
        ws.flatten.length) := by
      rwa [hslice, known_copied h hws hshort.2]
    have hr := @kpStrNew_new host _ _ _ hshort.1 hnew hroom hnum
    have hapart : buffer.addr + ws.flatten.length ≤ v.st.mpFreepos ∨
        host.mempool + host.mpSize ≤ buffer.addr := by
      have hapart := buffer.apart
      have hlow := h.inv.low
      have hfit := hshort.2
      omega
    obtain ⟨hinv', -, hcopy⟩ := hinv.fresh hnew ⟨hroom, hapart⟩
    refine ⟨_, _, bcCat_strings h hws hshort.2 hr, rfl, ?_, hinv', ?_⟩
    · exact ⟨_, _, new_mem_fresh, rfl, hcopy.trans hslice⟩
    · exact append_nil _

theorem rejects_long_iff (hlong : kpMaxStr ≤ ws.flatten.length) :
    Rejects host buffer v a b c ↔ ktapPercpuBufferSize ≤ ws.flatten.length := by
  constructor
  · rintro ⟨v', msg, hcat, herrors, -, -⟩
    by_contra hfit
    have hr : kpStrNew host (v.copied buffer b c) buffer.addr ws.flatten.length =
        (none, v.copied buffer b c) := if_pos hlong
    rw [bcCat_strings h hws (Nat.not_le.mp hfit) hr] at hcat
    cases hcat
    -- `kp_str_new` printed nothing
    have hnone : kpStrNewErrors (v.copied buffer b c) (none, v.copied buffer b c) = [] :=
      if_neg fun hne => hne.2 rfl
    rw [hnone] at herrors
    exact absurd (append_cancel_left herrors) (cons_ne_nil _ _).symm
  · intro hfit
    have hlen := concatLen_strings h.inv hws 0
    rw [Nat.zero_add] at hlen
    refine ⟨v.kpError "Error: too long string concatenation\n", _, ?_, rfl, rfl, rfl⟩
    rw [bcCat, strConcat, hlen]
    dsimp only
    rw [if_pos hfit]

end

theorem rejects_other (hother : ∃ o ∈ v.operands b c, ∀ ts, o ≠ .str ts) :
    Rejects host buffer v a b c := by
  refine ⟨v.kpError "cannot concat non-string\n", _, ?_, rfl, rfl, rfl⟩
  rw [bcCat, strConcat, concatLen_other hother]

/-- **Concatenation**: exactly for operands that meet the conditions. -/
theorem concatenates_iff (h : v.Ok host) :
    Concatenates host buffer v a b c ↔ ∀ ws, v.Operands b c ws → CatFine host buffer v.st ws := by
  have hpage : kpMaxStr < ktapPercpuBufferSize := by decide
  constructor
  · intro hcat ws hws
    have hconditions := fun hshort => Stores.conditions h hws hshort (hcat.short ws hws hshort)
    refine ⟨fun hshort => ?_, fun hnil => ?_, fun hshort => ?_, fun hlong => ?_⟩
    · exact flatMap_uptoZero.mp (hconditions hshort).1
    · refine (hconditions ?_).2.1 hnil
      rw [hnil]
      exact ⟨by decide, by decide⟩
    · exact (hconditions hshort).2.2
    · refine (rejects_long_iff h hws hlong).mp (hcat.long ws hws fun hshort => ?_)
      exact absurd hshort.1 (Nat.not_lt.mpr hlong)
  · intro hfine
    refine ⟨fun ws hws hshort => (hfine ws hws).stores h hws hshort, fun ws hws hnot => ?_,
      rejects_other⟩
    have hlong : kpMaxStr ≤ ws.flatten.length := by
      by_contra hlt
      exact hnot ⟨Nat.not_le.mp hlt, Nat.lt_trans (Nat.not_le.mp hlt) hpage⟩
    exact (rejects_long_iff h hws hlong).mpr ((hfine ws hws).long hlong)

end cat

/-- Registers that all hold the string of the first `len` bytes of the memory. -/
def oneString (mem : Memory) (len : ℕ) : Regs :=
  ⟨fresh host64 ⟨mem, fun _ => [], 0, 4096⟩ 0 len, fun _ => .str 4096, []⟩

theorem oneString_ok {mem : Memory} {len : ℕ} (hlen : len < kpMaxStr) :
    (oneString mem len).Ok host64 ∧ Holds (oneString mem len).st (.str 4096) (slice mem 0 len) := by
  have hlen' : len < 512 := hlen
  have hnew : ¬ Known ⟨mem, fun _ => [], 0, 4096⟩ (slice mem 0 len) := by
    rintro ⟨_, _, hsx, -⟩
    exact absurd hsx not_mem_nil
  have hfits : Fits host64 ⟨mem, fun _ => [], 0, 4096⟩ 0 len := by
    refine ⟨?_, .inl ?_⟩
    · change 4096 + (24 + len + 1) ≤ 4096 + 4096
      omega
    · change 0 + len ≤ 4096
      omega
  obtain ⟨hinv, -, hcopy⟩ := (Inv.init host64 mem).fresh hnew hfits
  have hholds : Holds (oneString mem len).st (.str 4096) (slice mem 0 len) :=
    ⟨_, _, new_mem_fresh, rfl, hcopy⟩
  exact ⟨⟨hinv, fun _ _ hts => ⟨_, Val.str.inj hts ▸ hholds⟩⟩, hholds⟩

def buffer64 : PrintBuffer host64 := ⟨8192, .inr (Nat.le_refl _)⟩

/-- `"ab" ~ "ab"`. -/
theorem concatenates_two :
    Concatenates host64 buffer64 (oneString (fun x => if x = 0 then 97 else 98) 2) 2 0 1 := by
  obtain ⟨hok, hab⟩ := @oneString_ok (fun x => if x = 0 then 97 else 98) 2 (by decide)
  refine (concatenates_iff hok).mpr fun ws hws => ?_
  obtain ⟨w, _, hw, hrest, rfl⟩ := List.forall₂_cons_left_iff.mp hws
  obtain ⟨w', _, hw', hnil, rfl⟩ := List.forall₂_cons_left_iff.mp hrest
  obtain rfl := List.forall₂_nil_left_iff.mp hnil
  obtain rfl := Holds.unique hok.inv hw hab
  obtain rfl := Holds.unique hok.inv hw' hab
  refine ⟨fun _ => by decide, fun hnil => absurd hnil (by decide), fun _ _ => ⟨?_, ?_⟩,
    fun hlong => absurd hlong (by decide)⟩
  · change 4096 + (24 + 2 + 1) + (24 + 4 + 1) ≤ 4096 + 4096
    omega
  · change 0 + 1 ≤ 9999
    omega

/-- `"a\0b" ~ "a\0b"` is not concatenated. -/
theorem concatenates_behind_zero :
    ¬ ∀ (host : Host) (buffer : PrintBuffer host) (v : Regs) (a b c : ℕ), v.Ok host →
      Concatenates host buffer v a b c := by
  intro h
  let mem : Memory := fun x => if x = 0 then 97 else if x = 2 then 98 else 0
  obtain ⟨hok, hstr⟩ := @oneString_ok mem 3 (by decide)
  have hws : (oneString mem 3).Operands 0 1 [[97, 0, 98], [97, 0, 98]] :=
    .cons hstr (.cons hstr .nil)
  have hshort : Short [97, 0, 98, 97, 0, 98] := ⟨by decide, by decide⟩
  have hcopied := (Stores.conditions hok hws hshort
    ((h host64 buffer64 _ 2 0 1 hok).short _ hws hshort)).1
  exact absurd hcopied (by decide)

end Strtab

end Ktap
