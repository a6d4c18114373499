import ReadingComment.Lib.Shares

/-!
# The workers of the benchmarking tool (`weighttp/src/weighttp.c`)

`main` checks the three numbers of its arguments and divides the clients and the
requests among the threads. The numbers have the widths of the fields of `Config`; the
two counters of what is left over have 16 bits.
-/

namespace Weighttp

open List

/-- The numbers of a `Config`. -/
structure Counts where
  reqCount : UInt64
  threadCount : UInt8
  concurCount : UInt16

namespace Counts

/-- `UINT64_MAX`. -/
def uint64Max : UInt64 := 0xFFFFFFFFFFFFFFFF

/-- The checks of `main`: whether it goes on. -/
def sane (c : Counts) : Bool :=
  ! (c.threadCount == 0) && ! (c.concurCount == 0) && ! (c.reqCount == 0) &&
    ! (c.reqCount == uint64Max || c.threadCount.toUInt64 > c.reqCount ||
      c.threadCount.toUInt16 > c.concurCount || c.concurCount.toUInt64 > c.reqCount)

/-- What the next so many threads are made with, clients and requests. -/
def spawn (c : Counts) : ℕ → UInt16 → UInt16 → List (UInt16 × UInt64)
  | 0, _, _ => []
  | threads + 1, restConcur, restReq =>
    let reqs := c.reqCount / c.threadCount.toUInt64
    let concur := c.concurCount / c.threadCount.toUInt16
    (if restConcur ≠ 0 then concur + 1 else concur, if restReq ≠ 0 then reqs + 1 else reqs) ::
      spawn c threads (if restConcur ≠ 0 then restConcur - 1 else restConcur)
        (if restReq ≠ 0 then restReq - 1 else restReq)

/-- The arguments of `worker_new` for each of the threads. -/
def workers (c : Counts) : List (UInt16 × UInt64) :=
  c.spawn c.threadCount.toNat (c.concurCount % c.threadCount.toUInt16)
    (c.reqCount % c.threadCount.toUInt64).toUInt16

theorem sane_iff {c : Counts} : c.sane = true ↔
    0 < c.threadCount.toNat ∧ c.threadCount.toNat ≤ c.concurCount.toNat ∧
      c.concurCount.toNat ≤ c.reqCount.toNat ∧ c.reqCount.toNat ≠ 18446744073709551615 := by
  have hmax : uint64Max.toNat = 18446744073709551615 := rfl
  simp only [sane, Bool.and_eq_true, Bool.not_eq_true', Bool.or_eq_false_iff, beq_eq_false_iff_ne,
    decide_eq_false_iff_not, ne_eq, gt_iff_lt, UInt64.lt_iff_toNat_lt, UInt16.lt_iff_toNat_lt,
    ← UInt64.toNat_inj, ← UInt16.toNat_inj, ← UInt8.toNat_inj, UInt8.toNat_toUInt64,
    UInt8.toNat_toUInt16, UInt16.toNat_toUInt64, hmax, UInt64.toNat_zero, UInt16.toNat_zero,
    UInt8.toNat_zero]
  omega

/-- **The loop hands the shares out**, the counters being what is left over. -/
theorem spawn_eq {c : Counts} {restConcur restReq : UInt16}
    (hc : 0 < restConcur.toNat → c.concurCount.toNat / c.threadCount.toNat + 1 < 2 ^ 16)
    (hr : c.reqCount.toNat / c.threadCount.toNat + 1 < 2 ^ 64) (threads : ℕ) :
    (c.spawn threads restConcur restReq).map (fun w => (w.1.toNat, w.2.toNat)) =
      (List.range threads).map fun i =>
        (c.concurCount.toNat / c.threadCount.toNat + if i < restConcur.toNat then 1 else 0,
          c.reqCount.toNat / c.threadCount.toNat + if i < restReq.toNat then 1 else 0) := by
  have hrest : ∀ r : UInt16, r ≠ 0 ↔ 0 < r.toNat := by
    intro r
    rw [ne_eq, ← UInt16.toNat_inj, UInt16.toNat_zero]
    omega
  have hless : ∀ r : UInt16, (if r ≠ 0 then r - 1 else r).toNat = r.toNat - 1 := by
    intro r
    split
    case isTrue hr =>
      have hone : (1 : UInt16) ≤ r := by
        rw [UInt16.le_iff_toNat_le]
        exact (hrest r).mp hr
      rw [UInt16.toNat_sub_of_le _ _ hone]
      rfl
    case isFalse hr =>
      have := mt (hrest r).mpr hr
      omega
  have hconcur : (c.concurCount / c.threadCount.toUInt16).toNat =
      c.concurCount.toNat / c.threadCount.toNat := by
    rw [UInt16.toNat_div, UInt8.toNat_toUInt16]
  have hreqs : (c.reqCount / c.threadCount.toUInt64).toNat =
      c.reqCount.toNat / c.threadCount.toNat := by
    rw [UInt64.toNat_div, UInt8.toNat_toUInt64]
  induction threads generalizing restConcur restReq with
  | zero => rfl
  | succ threads ih =>
    have hc' : 0 < (if restConcur ≠ 0 then restConcur - 1 else restConcur).toNat →
        c.concurCount.toNat / c.threadCount.toNat + 1 < 2 ^ 16 := by
      rw [hless]
      exact fun hpos => hc (hpos.trans_le (Nat.sub_le _ _))
    rw [spawn, map_cons, ih hc', range_succ_eq_map, map_cons, map_map]
    congr 1
    · refine Prod.ext ?_ ?_ <;> dsimp only
      · split
        case isTrue hne =>
          rw [UInt16.toNat_add, hconcur, if_pos ((hrest _).mp hne)]
          exact Nat.mod_eq_of_lt (hc ((hrest _).mp hne))
        case isFalse heq => rw [hconcur, if_neg (mt (hrest _).mpr heq), Nat.add_zero]
      · split
        case isTrue hne =>
          rw [UInt64.toNat_add, hreqs, if_pos ((hrest _).mp hne)]
          exact Nat.mod_eq_of_lt hr
        case isFalse heq => rw [hreqs, if_neg (mt (hrest _).mpr heq), Nat.add_zero]
    · apply map_congr_left
      intro i _
      rw [hless, hless, Function.comp_apply]
      simp only [Nat.succ_eq_add_one, Nat.lt_sub_iff_add_lt]

theorem workers_eq {c : Counts} (h : c.sane = true) :
    c.workers.map (fun w => (w.1.toNat, w.2.toNat)) = (List.range c.threadCount.toNat).map fun i =>
      (Shares.share c.concurCount.toNat c.threadCount.toNat i,
        Shares.share c.reqCount.toNat c.threadCount.toNat i) := by
  obtain ⟨hpos, -, -, hmax⟩ := sane_iff.mp h
  have hmod : c.reqCount.toNat % c.threadCount.toNat < 2 ^ 16 :=
    (Nat.mod_lt _ hpos).trans (c.threadCount.toNat_lt.trans (by decide))
  have hrestConcur : (c.concurCount % c.threadCount.toUInt16).toNat =
      c.concurCount.toNat % c.threadCount.toNat := by
    rw [UInt16.toNat_mod, UInt8.toNat_toUInt16]
  have hrestReq : (c.reqCount % c.threadCount.toUInt64).toUInt16.toNat =
      c.reqCount.toNat % c.threadCount.toNat := by
    rw [UInt64.toNat_toUInt16, UInt64.toNat_mod, UInt8.toNat_toUInt64]
    exact Nat.mod_eq_of_lt hmod
  rw [workers, spawn_eq]
  · rw [hrestConcur, hrestReq]
    rfl
  · -- something is left over, so there are two threads or more
    rw [hrestConcur]
    intro hleft
    have hone : c.threadCount.toNat ≠ 1 := by
      intro heq
      rw [heq, Nat.mod_one] at hleft
      exact Nat.lt_irrefl 0 hleft
    have hhalf : c.concurCount.toNat / c.threadCount.toNat ≤ c.concurCount.toNat / 2 :=
      Nat.div_le_div_left (by omega) (by decide)
    have hcount := c.concurCount.toNat_lt
    omega
  · have hle := Nat.div_le_self c.reqCount.toNat c.threadCount.toNat
    have hreq := c.reqCount.toNat_lt
    omega

/-- **The work is divided among the threads**: they have all clients and all requests between them,
each has at least one of both, and none has more clients than requests. -/
theorem workers_share_work {c : Counts} (h : c.sane = true) :
    c.workers.length = c.threadCount.toNat ∧
    (c.workers.map fun w => w.1.toNat).sum = c.concurCount.toNat ∧
    (c.workers.map fun w => w.2.toNat).sum = c.reqCount.toNat ∧
    ∀ w ∈ c.workers, 0 < w.1.toNat ∧ 0 < w.2.toNat ∧ w.1.toNat ≤ w.2.toNat := by
  obtain ⟨hpos, hconcur, hreq, -⟩ := sane_iff.mp h
  have heq := workers_eq h
  have hclients : c.workers.map (fun w => w.1.toNat) =
      (List.range c.threadCount.toNat).map
        (Shares.share c.concurCount.toNat c.threadCount.toNat) := by
    have := congrArg (List.map Prod.fst) heq
    rwa [List.map_map, List.map_map] at this
  have hrequests : c.workers.map (fun w => w.2.toNat) =
      (List.range c.threadCount.toNat).map (Shares.share c.reqCount.toNat c.threadCount.toNat) := by
    have := congrArg (List.map Prod.snd) heq
    rwa [List.map_map, List.map_map] at this
  refine ⟨?_, ?_, ?_, fun w hw => ?_⟩
  · have := congrArg List.length heq
    rwa [List.length_map, List.length_map, List.length_range] at this
  · rw [hclients, Shares.sum_share hpos]
  · rw [hrequests, Shares.sum_share hpos]
  · have hin := List.mem_map_of_mem (f := fun w : UInt16 × UInt64 => (w.1.toNat, w.2.toNat)) hw
    rw [heq] at hin
    obtain ⟨i, -, hi⟩ := List.mem_map.mp hin
    obtain ⟨h1, h2⟩ := Prod.mk.inj hi
    rw [← h1, ← h2]
    exact ⟨Shares.share_pos hpos hconcur i, Shares.share_pos hpos (hconcur.trans hreq) i,
      Shares.share_mono hreq _ i⟩

/-- Ten requests of three clients in two threads. -/
theorem workers_share_work_two :
    (Counts.mk 10 2 3).sane = true ∧ (Counts.mk 10 2 3).workers = [(2, 5), (1, 5)] ∧
    ((Counts.mk 10 2 3).workers.map fun w => w.2.toNat).sum = 10 :=
  ⟨by decide, by decide, (workers_share_work (c := ⟨10, 2, 3⟩) (by decide)).2.2.1⟩

end Counts

end Weighttp
