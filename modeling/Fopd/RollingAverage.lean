import Mathlib.Algebra.Order.BigOperators.Group.List
import Fopd.Statistics

namespace Fopd.RollingAverage

open Consts Data Statistics Lib Lib.Mean

theorem foldl_averageStep {vs : List UInt32} {a : Rat} {n : UInt32} (h : n.toNat + vs.length < 2 ^ 32) :
    (vs.foldl FOPDData.averageStep (a, n)).1 = (running (a, n.toNat) (samples vs)).1 := by
  induction vs generalizing a n with
  | nil => rfl
  | cons v vs ih =>
      rw [List.length_cons] at h
      have hn : (n + 1).toNat = n.toNat + 1 := by
        rw [UInt32.toNat_add, UInt32.toNat_one, Nat.mod_eq_of_lt (by omega)]
      have hstep : FOPDData.averageStep (a, n) v = (update a n.toNat (v.toNat : Rat), n + 1) := by
        rw [FOPDData.averageStep, update, hn]
      rw [List.foldl_cons, hstep, ih (by omega), hn]
      rfl

theorem getDPSRollingAverage_eq (data : FOPDData) :
    data.getDPSRollingAverage = (samples data.rollingAverageArr.toList).sum / rollingAveragePointCount := by
  have hlen : data.rollingAverageArr.toList.length = rollingAveragePointCount := Vector.length_toList
  have hrun := running_mean ([] : List Rat) (samples data.rollingAverageArr.toList)
  have hnil : mean ([] : List Rat) = 0 := by simp [mean]
  rw [hnil, List.length_nil, List.nil_append] at hrun
  rw [FOPDData.getDPSRollingAverage, foldl_averageStep (by rw [hlen]; decide), UInt32.toNat_zero, hrun,
    mean, samples, List.length_map, hlen]

theorem samples_append (vs ws : List UInt32) : samples (vs ++ ws) = samples vs ++ samples ws := List.map_append

theorem sum_samples_zeros (n : Nat) : (samples (List.replicate n 0)).sum = 0 := by
  simp [samples]

theorem sum_samples_eq_zero_iff (vs : List UInt32) : (samples vs).sum = 0 ↔ ∀ v ∈ vs, v = 0 := by
  induction vs with
  | nil => simp [samples]
  | cons v vs ih =>
      have hv : (0 : Rat) ≤ (v.toNat : Rat) := Nat.cast_nonneg _
      have hs : (0 : Rat) ≤ (samples vs).sum := List.sum_nonneg (by simp [samples])
      have hc : (samples (v :: vs)).sum = (v.toNat : Rat) + (samples vs).sum := List.sum_cons
      rw [hc, add_eq_zero_iff_of_nonneg hv hs, ih, List.forall_mem_cons, Nat.cast_eq_zero, ← UInt32.toNat_zero,
        UInt32.toNat_inj]

/-- The average is over the last 50 values, with 0 for those that do not exist. -/
theorem rollingAverage_eq_sum_recent {data : FOPDData} {a : Arguments} (h : Summary data a) :
    data.getDPSRollingAverage =
      (samples (Ring.recent rollingAveragePointCount a.dps)).sum / rollingAveragePointCount := by
  have hp : (samples data.rollingAverageArr.toList).Perm _ := h.rollingAverage.perm.map _
  rw [getDPSRollingAverage_eq, hp.sum_eq, ← samples, samples_append, List.sum_append, sum_samples_zeros, add_zero]

/-- The ring behind the rolling average. The value written `k` calls ago is `k` slots behind the last
one written, what was never written is 0, and the loop computes the mean of all slots. -/
theorem ring_of_calls (cs : List Call) :
    (calls {} cs).rollingAverageNext.toNat = (arguments cs).dps.length % 50 ∧
    (calls {} cs).rollingAverageNext.toNat < 50 ∧
    (∀ k < min (arguments cs).dps.length 50,
      (calls {} cs).rollingAverageArr[((arguments cs).dps.length - 1 - k) % 50]? =
        (arguments cs).dps.reverse[k]?) ∧
    (∀ j < 50, (∀ k < min (arguments cs).dps.length 50, ((arguments cs).dps.length - 1 - k) % 50 ≠ j) →
      (calls {} cs).rollingAverageArr[j]? = some 0) ∧
    (calls {} cs).getDPSRollingAverage = (samples (calls {} cs).rollingAverageArr.toList).sum / 50 := by
  have hs := summary_calls cs
  refine ⟨hs.rollingAverage.next_eq, hs.next_lt, fun k hk => ?_, fun j hj hfree => ?_,
    getDPSRollingAverage_eq _⟩
  · rw [hs.rollingAverage.stored _ (by omega) (by simp; omega), List.getElem?_reverse (by omega)]
  · refine hs.rollingAverage.unwritten j (Nat.le_of_not_lt fun hlt => ?_) hj
    have := hfree (((arguments cs).dps.length - 1 - j) % 50)
    omega

theorem recent_eq_self {vs : List UInt32} (h : vs.length ≤ rollingAveragePointCount) :
    Ring.recent rollingAveragePointCount vs = vs := by
  rw [Ring.recent, Nat.sub_eq_zero_of_le h, List.drop_zero]

theorem sum_div_eq_mean_iff {vs : List UInt32} (h : vs ≠ []) :
    (samples (Ring.recent rollingAveragePointCount vs)).sum / rollingAveragePointCount =
      mean (samples (Ring.recent rollingAveragePointCount vs)) ↔
      rollingAveragePointCount ≤ vs.length ∨ ∀ v ∈ vs, v = 0 := by
  have hpos : 0 < vs.length := List.length_pos_of_ne_nil h
  rw [mean, samples, List.length_map, Ring.length_recent, ← samples]
  by_cases hle : rollingAveragePointCount ≤ vs.length
  · rw [Nat.min_eq_right hle]
    exact iff_of_true rfl (Or.inl hle)
  -- during the first round the code divides by too much, which only a sum of 0 survives
  · have hlt : vs.length < rollingAveragePointCount := Nat.lt_of_not_le hle
    have hne : (vs.length : Rat) ≠ (rollingAveragePointCount : Rat) := Nat.cast_injective.ne hlt.ne
    have hn : (vs.length : Rat) ≠ 0 := Nat.cast_ne_zero.mpr hpos.ne'
    have hc : (rollingAveragePointCount : Rat) ≠ 0 := by decide
    rw [Nat.min_eq_left hlt.le, recent_eq_self hlt.le, div_eq_div_iff hc hn, mul_eq_mul_left_iff,
      or_iff_right hne, sum_samples_eq_zero_iff, or_iff_right hle]

/-- The rolling average is the mean of the samples that exist, and agrees with the average while there
are no more than 50 of them, exactly when all slots are written or all samples are 0. -/
theorem rollingAverage_eq_mean_iff (cs : List Call) (h : (arguments cs).dps ≠ []) :
    ((calls {} cs).getDPSRollingAverage = mean (samples (Ring.recent 50 (arguments cs).dps)) ∧
      ((arguments cs).dps.length ≤ 50 →
        (calls {} cs).getDPSRollingAverage = (calls {} cs).getDPSAverage)) ↔
    50 ≤ (arguments cs).dps.length ∨ ∀ v ∈ (arguments cs).dps, v = 0 := by
  have hs := summary_calls cs
  rw [← sum_div_eq_mean_iff h, ← rollingAverage_eq_sum_recent hs]
  apply and_iff_left_of_imp
  intro he hle
  rw [he, recent_eq_self hle, FOPDData.getDPSAverage, hs.averageDps (by omega)]

theorem rollingAverage_eq_mean_iff_fifty_one :
    (calls {} (List.replicate 51 (.setDPS 7))).getDPSRollingAverage =
      mean (samples (Ring.recent 50 (arguments (List.replicate 51 (.setDPS 7))).dps)) :=
  ((rollingAverage_eq_mean_iff (List.replicate 51 (.setDPS 7)) (by decide)).mpr
    (Or.inl (by decide))).1

/-- After a single call with 100 the average is 100, the rolling average 2. -/
theorem rollingAverage_of_one_call :
    (calls {} [.setDPS 100]).getDPSRollingAverage = 2 ∧ (calls {} [.setDPS 100]).getDPSAverage = 100 ∧
    ¬ ∀ cs : List Call, (arguments cs).dps ≠ [] →
      (calls {} cs).getDPSRollingAverage = mean (samples (Ring.recent 50 (arguments cs).dps)) := by
  have hr : (calls {} [.setDPS 100]).getDPSRollingAverage = 2 := by decide +kernel
  refine ⟨hr, by decide +kernel, fun hall => ?_⟩
  have hm := hall [.setDPS 100] (by decide)
  rw [hr] at hm
  revert hm
  decide +kernel

end Fopd.RollingAverage
