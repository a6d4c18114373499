import Mathlib.Algebra.BigOperators.Ring.List
import Mathlib.Algebra.Order.BigOperators.Group.List
import ReadingComment.Miqos.HostRules

/-!
# The bandwidth is divided among the hosts

Every host that is alive gets the share of its group, and the shares come to one. What a class is
given in the end is put between bounds one after the other, and for a small bandwidth the last one
undoes what the one before it did.
-/

namespace Miqos

open Lib List

variable {setup : Setup} {groups : Groups} {alive : AliveHosts} {min : Group → ℚ}

/-- `rate_host` and `ceil_host` of a bandwidth, and what a host with a share is given then. -/
def hostRates (d : Direction) (share : Share) (bandwidth : ℚ) : ClassData :=
  hostData d share (ceil (bandwidth * (1/2))) (ceil (bandwidth * (105/100)))

def Share.eachCeil (share : Share) : Direction → ℚ
  | .up => share.eachUpCeil
  | .down => share.eachDownCeil

/-- Each host has a share, and the shares of all hosts come to one. -/
def Divides (setup : Setup) (groups : Groups) (alive : AliveHosts)
    (shares : AList fun _ : Mac => Option Share) (rate : Share → ℚ) : Prop :=
  (∀ x ∈ alive.entries, x.2 ≠ [] → (shareOf setup groups shares x.1).isSome) ∧
    (alive.entries.map fun x => ((shareOf setup groups shares x.1).elim 0 rate) * x.2.length).sum =
      1

/-! ## The shares -/

/-- What a device with its hosts adds to the sum of the minima. -/
def weight (setup : Setup) (groups : Groups) (min : Group → ℚ) (x : Σ _ : Mac, List Ip) : ℚ :=
  ((groups.lookup (groupId setup groups x.1)).elim 0 fun g => normMin (min g)) * x.2.length

theorem normMin_pos (x : ℚ) : 0 < normMin x := by
  rw [normMin]
  split
  · norm_num [defaultMin]
  · rename_i h
    exact lt_of_not_ge fun hx => h (.inl hx)

section

variable (h : setup.defaultGroup ∈ groups)

include h

theorem groupId_mem (mac : Mac) : groupId setup groups mac ∈ groups := by
  rw [groupId]
  split
  · assumption
  · exact h

theorem exists_group (mac : Mac) :
    ∃ g, groups.lookup (groupId setup groups mac) = some g :=
  Option.isSome_iff_exists.mp (AList.lookup_isSome.mpr (groupId_mem h mac))

theorem totalQuantum_eq :
    totalQuantum setup groups min alive =
      .ok (alive.entries.map (weight setup groups min)).sum := by
  rw [totalQuantum, ← zero_add (alive.entries.map (weight setup groups min)).sum]
  generalize (0 : ℚ) = total
  induction alive.entries generalizing total with
  | nil => exact congrArg _ (add_zero total).symm
  | cons x l ih =>
    obtain ⟨g, hg⟩ := exists_group h x.1
    rw [foldlM_cons, hg, map_cons, sum_cons, ← add_assoc, weight, hg]
    exact ih _

theorem total_pos (halive : ∃ x ∈ alive.entries, x.2 ≠ []) :
    0 < (alive.entries.map (weight setup groups min)).sum := by
  obtain ⟨x, hx, hips⟩ := halive
  have hnonneg : ∀ w ∈ alive.entries.map (weight setup groups min), 0 ≤ w := by
    intro w hw
    obtain ⟨y, -, rfl⟩ := mem_map.mp hw
    obtain ⟨g, hg⟩ := exists_group h y.1
    rw [weight, hg]
    exact mul_nonneg (normMin_pos _).le (Nat.cast_nonneg _)
  have hpos : 0 < weight setup groups min x := by
    obtain ⟨g, hg⟩ := exists_group h x.1
    rw [weight, hg]
    exact mul_pos (normMin_pos _) (Nat.cast_pos.mpr (length_pos_iff.mpr hips))
  exact hpos.trans_le (single_le_sum hnonneg _ (mem_map_of_mem hx))

end

/-- A host of the name of the default group is not counted in it: some other host must be. -/
def DefaultCounted (setup : Setup) (groups : Groups) (alive : AliveHosts) : Prop :=
  ∀ ips, alive.lookup setup.defaultGroup = some ips → ips ≠ [] →
    ∃ x ∈ alive.entries, x.1 ∉ groups ∧ x.2 ≠ []

theorem groupCount_default_pos_iff : 0 < groupCount setup groups alive setup.defaultGroup ↔
    ∃ x ∈ alive.entries, x.1 ∉ groups ∧ x.2 ≠ [] := by
  rw [groupCount, if_pos rfl, Nat.pos_iff_ne_zero, ne_eq, sum_eq_zero_iff]
  simp [and_assoc]

theorem groupCount_pos (h : DefaultCounted setup groups alive) {x : Σ _ : Mac, List Ip}
    (hx : x ∈ alive.entries) (hips : x.2 ≠ []) :
    0 < groupCount setup groups alive (groupId setup groups x.1) := by
  have hlookup : alive.lookup x.1 = some x.2 := mem_entries_iff.mp hx
  rw [groupId]
  split
  · by_cases hdefault : x.1 = setup.defaultGroup
    · rw [hdefault] at hlookup ⊢
      exact groupCount_default_pos_iff.mpr (h _ hlookup hips)
    · rw [groupCount, if_neg hdefault, hlookup]
      exact length_pos_iff.mpr hips
  · rename_i hnone
    exact groupCount_default_pos_iff.mpr ⟨x, hx, hnone, hips⟩

/-- What `arrange_bandwidth` comes to when there is a default group. -/
theorem arrangeBandwidth_eq (h : setup.defaultGroup ∈ groups) (alive : AliveHosts) : ∃ shares,
    arrangeBandwidth setup groups alive = .ok shares ∧ ∀ mac, ∃ g,
      groups.lookup (groupId setup groups mac) = some g ∧ shareOf setup groups shares mac =
        if 0 < groupCount setup groups alive (groupId setup groups mac) then
          some ⟨normMin g.minUp / (alive.entries.map (weight setup groups Group.minUp)).sum,
            normMin g.minDown / (alive.entries.map (weight setup groups Group.minDown)).sum,
            g.maxUp, g.maxDown, normMin g.minUp⟩
        else none := by
  rw [arrangeBandwidth, totalQuantum_eq h, totalQuantum_eq h]
  refine ⟨_, if_neg (not_not_intro h), fun mac => ?_⟩
  obtain ⟨g, hg⟩ := exists_group h mac
  exact ⟨g, hg, by rw [shareOf, lookup_mapVals, hg]; rfl⟩

/-- Shares that are the weights over their sum come to one. -/
theorem divides_of_weights (min : Group → ℚ) {shares : AList fun _ : Mac => Option Share}
    {rate : Share → ℚ}
    (htotal : 0 < (alive.entries.map (weight setup groups min)).sum)
    (hshare : ∀ x ∈ alive.entries, x.2 ≠ [] →
      ∃ share, shareOf setup groups shares x.1 = some share ∧
      rate share * x.2.length =
        weight setup groups min x / (alive.entries.map (weight setup groups min)).sum) :
    Divides setup groups alive shares rate := by
  refine ⟨fun x hx hips => ?_, ?_⟩
  · obtain ⟨share, hsome, -⟩ := hshare x hx hips
    exact hsome ▸ rfl
  · generalize htot : (alive.entries.map (weight setup groups min)).sum = total at *
    have hterm : ∀ x ∈ alive.entries,
        (shareOf setup groups shares x.1).elim 0 rate * x.2.length =
          weight setup groups min x * total⁻¹ := by
      intro x hx
      by_cases hips : x.2 = []
      · simp [weight, hips]
      · obtain ⟨share, hsome, heq⟩ := hshare x hx hips
        rw [hsome, ← div_eq_mul_inv]
        exact heq
    rw [map_congr_left hterm, sum_map_mul_right, htot, mul_inv_cancel₀ htotal.ne']

/-! ## The bounds -/

theorem eight_le_ceil_iff {x : ℚ} : 8 ≤ ceil x ↔ 7 < x := by
  rw [ceil, ← Int.cast_ofNat, Int.cast_le, Int.le_ceil_iff]
  norm_num

/-- The last of the bounds undoes the one before it when the limit is less than 8. -/
theorem clamp_le_iff (rate limit : ℚ) :
    let bounded := if limit < rate then limit else rate
    let clamped := if bounded < 8 then 8 else bounded
    8 ≤ clamped ∧ (clamped ≤ limit ↔ 8 ≤ limit) := by
  intro bounded clamped
  have hbounded : bounded ≤ limit := by
    simp only [bounded]
    split <;> linarith
  simp only [clamped]
  split
  · exact ⟨le_rfl, Iff.rfl⟩
  · rename_i h
    exact ⟨not_lt.mp h, iff_of_true hbounded ((not_lt.mp h).trans hbounded)⟩

/-- **The rate** is at least 8 and at most the limit, unless neither the limit nor half of the
bandwidth is more than 7. -/
theorem hostRates_le_iff (d : Direction) (share : Share) (b : ℚ) : 8 ≤ (hostRates d share b).rate ∧
    ((hostRates d share b).rate ≤ (hostRates d share b).ceil ↔
      14 < b ∨ if 1 < share.eachCeil d then 7 < share.eachCeil d else 20/3 < b) := by
  obtain ⟨inRate, hrates⟩ : ∃ inRate, (hostRates d share b).rate =
      (let limit := (hostRates d share b).ceil
      let bounded := if limit < inRate then limit else inRate
      if bounded < 8 then 8 else bounded) := ⟨_, rfl⟩
  have hceil : (hostRates d share b).ceil =
      (let inCeil := ceil (if 1 < share.eachCeil d then share.eachCeil d else ceil (b * (105/100)))
      if inCeil < 8 then ceil (b * (1/2)) else inCeil) := by
    cases d <;> rfl
  obtain ⟨hge, hle⟩ := clamp_le_iff inRate (hostRates d share b).ceil
  have hhalf : 8 ≤ ceil (b * (1/2)) ↔ 14 < b := by
    rw [eight_le_ceil_iff]
    constructor <;> intro h <;> linarith
  have hlimit : 8 ≤ ceil (if 1 < share.eachCeil d then share.eachCeil d else ceil (b * (105/100))) ↔
      if 1 < share.eachCeil d then 7 < share.eachCeil d else 20/3 < b := by
    have hceil (x : ℚ) : ceil (ceil x) = ceil x := by rw [ceil, ceil, Int.ceil_intCast]
    split
    · exact eight_le_ceil_iff
    · rw [hceil, eight_le_ceil_iff]
      constructor <;> intro h <;> linarith
  rw [hrates]
  refine ⟨hge, hle.trans ?_⟩
  rw [hceil, ← hhalf, ← hlimit]
  generalize ceil (if 1 < share.eachCeil d then share.eachCeil d else ceil (b * (105/100))) = inCeil
  simp only
  split
  · rename_i hsmall
    rw [or_iff_left (not_le.mpr hsmall)]
  · rename_i hlarge
    exact iff_of_true (not_lt.mp hlarge) (.inr (not_lt.mp hlarge))

/-- **The division of the bandwidth.** The shares come to one if and only if there is a default
group, and it counts somebody if a device has its name. -/
theorem bandwidth_divided_iff (setup : Setup) {groups : Groups} {alive : AliveHosts}
    (halive : ∃ x ∈ alive.entries, x.2 ≠ []) :
    ((∃ shares, arrangeBandwidth setup groups alive = .ok shares ∧
        Divides setup groups alive shares Share.eachUpRate ∧
        Divides setup groups alive shares Share.eachDownRate) ↔
      setup.defaultGroup ∈ groups ∧ DefaultCounted setup groups alive) ∧
    (setup.defaultGroup ∈ groups → ∀ min, ∃ total, totalQuantum setup groups min alive = .ok total ∧
      0 < total) ∧
    ∀ d share b, 8 ≤ (hostRates d share b).rate ∧
      ((hostRates d share b).rate ≤ (hostRates d share b).ceil ↔
      14 < b ∨ if 1 < share.eachCeil d then 7 < share.eachCeil d else 20/3 < b) := by
  refine ⟨⟨?_, ?_⟩, fun h min => ⟨_, totalQuantum_eq h, total_pos h halive⟩, hostRates_le_iff⟩
  · rintro ⟨shares, harrange, ⟨hall, -⟩, -⟩
    have hdefault : setup.defaultGroup ∈ groups := by
      by_contra hnot
      rw [arrangeBandwidth] at harrange
      obtain ⟨up, -, harrange⟩ := bind_eq_ok harrange
      obtain ⟨down, -, harrange⟩ := bind_eq_ok harrange
      rw [if_pos hnot] at harrange
      cases harrange
    obtain ⟨shares', harrange', hshare⟩ := arrangeBandwidth_eq hdefault alive
    obtain rfl := Except.ok.inj (harrange.symm.trans harrange')
    refine ⟨hdefault, fun ips hlookup hips => ?_⟩
    obtain ⟨g, -, heq⟩ := hshare setup.defaultGroup
    have hsome := hall ⟨_, ips⟩ (mem_entries_iff.mpr hlookup) hips
    have hid : groupId setup groups setup.defaultGroup = setup.defaultGroup := if_pos hdefault
    rw [← groupCount_default_pos_iff]
    by_contra hnot
    rw [heq, hid, if_neg hnot] at hsome
    cases hsome
  · rintro ⟨hdefault, hcounted⟩
    obtain ⟨shares, harrange, hshare⟩ := arrangeBandwidth_eq hdefault alive
    have hterm :
        ∀ x ∈ alive.entries, x.2 ≠ [] → ∃ share, shareOf setup groups shares x.1 = some share ∧
        share.eachUpRate * x.2.length = weight setup groups Group.minUp x /
          (alive.entries.map (weight setup groups Group.minUp)).sum ∧
        share.eachDownRate * x.2.length = weight setup groups Group.minDown x /
          (alive.entries.map (weight setup groups Group.minDown)).sum := by
      intro x hx hips
      obtain ⟨g, hg, heq⟩ := hshare x.1
      rw [if_pos (groupCount_pos hcounted hx hips)] at heq
      refine ⟨_, heq, ?_, ?_⟩ <;> rw [weight, hg] <;> exact (div_mul_eq_mul_div _ _ _)
    refine ⟨shares, harrange,
      divides_of_weights Group.minUp (total_pos hdefault halive) fun x hx hips => ?_,
      divides_of_weights Group.minDown (total_pos hdefault halive) fun x hx hips => ?_⟩
    · obtain ⟨share, hsome, hup, -⟩ := hterm x hx hips
      exact ⟨share, hsome, hup⟩
    · obtain ⟨share, hsome, -, hdown⟩ := hterm x hx hips
      exact ⟨share, hsome, hdown⟩

/-- Five kinds of traffic and the default group `00`. -/
def plainSetup : Setup := ⟨⟨5, Nat.zero_lt_succ 4, Nat.le_refl 5⟩, ['0', '0']⟩

/-- A device with two hosts. -/
def oneDevice : AliveHosts := AList.singleton ['a'] [[1], [2]]

def plainGroups : Groups := AList.singleton ['0', '0'] ⟨0, 0, 0, 0⟩

/-- All of the bandwidth is divided between the hosts of the default group. -/
theorem bandwidth_divided_plain : ∃ shares,
    arrangeBandwidth plainSetup plainGroups oneDevice = .ok shares ∧
      Divides plainSetup plainGroups oneDevice shares Share.eachUpRate := by
  have halive : ∃ x ∈ oneDevice.entries, x.2 ≠ [] := ⟨_, List.mem_singleton_self _, by simp⟩
  have hplain : DefaultCounted plainSetup plainGroups oneDevice := fun _ hips => by cases hips
  have hiff := @bandwidth_divided_iff plainSetup plainGroups oneDevice halive
  obtain ⟨shares, h, hup, -⟩ := hiff.1.mpr ⟨by decide, hplain⟩
  exact ⟨shares, h, hup⟩

/-- With one kbit/s the rate is 8 and the limit is 1; without a default group there is no division.
-/
theorem bandwidth_not_divided :
    (¬ ∀ d share b, 1 ≤ b → (hostRates d share b).rate ≤ (hostRates d share b).ceil) ∧
    ¬ ∀ groups, ∃ shares, arrangeBandwidth plainSetup groups oneDevice = .ok shares := by
  constructor
  · intro h
    have := (hostRates_le_iff .up ⟨0, 0, 0, 0, 0⟩ 1).2.mp (h _ _ _ le_rfl)
    norm_num [Share.eachCeil] at this
  · intro h
    obtain ⟨shares, hshares⟩ := h ∅
    cases hshares

end Miqos
