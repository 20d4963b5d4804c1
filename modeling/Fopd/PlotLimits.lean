import Fopd.Lib.Transitions
import Fopd.Gui
import Fopd.RollingAverage

namespace Fopd.PlotLimits

open Consts Data Statistics Gui Lib Lib.Mean Lib.Transitions

def dpsCalls (w : World) : Nat := (arguments w.made).dps.length

/-- Between 0 and the maximum in the store. -/
def Within (w : World) (v : Rat) : Prop := 0 ≤ v ∧ v ≤ (w.data.maxDps.toNat : Rat)

def values (plot : Plot) : List Rat := plot.dps ++ (plot.avgDps ++ plot.rollingAvgDps)

def PlotWithin (plot : Plot) (w : World) : Prop := ∀ v ∈ values plot, Within w v

/-- The counter behind the average has 32 bits. -/
def Invariant (s : Screen) : Prop := dpsCalls s.world < 2 ^ 32 → PlotWithin s.plot s.world

section Store

variable {w w' : World} {v : Rat}

theorem maxDps_le_call (data : FOPDData) (c : Call) : data.maxDps ≤ (call data c).maxDps := by
  cases c with
  | setDPS dps =>
      rw [call, FOPDData.setDPS_eq]
      exact le_larger_left data.maxDps dps
  | setServerIndex serverIndex =>
      rw [call, FOPDData.setServerIndex_eq]
      exact UInt32.le_refl data.maxDps
  | setPing | setTargetRemainingHealth | trySetMaxDmg => exact UInt32.le_refl data.maxDps

theorem maxDps_le_calls (data : FOPDData) (cs : List Call) : data.maxDps ≤ (calls data cs).maxDps := by
  induction cs generalizing data with
  | nil => exact UInt32.le_refl data.maxDps
  | cons c cs ih => exact UInt32.le_trans (maxDps_le_call data c) (ih (call data c))

theorem maxDps_mono (h : w ≤ w') : w.data.maxDps ≤ w'.data.maxDps := by
  obtain ⟨cs, hcs⟩ := Shared.World.exists_of_le h
  rw [hcs]
  exact maxDps_le_calls w.data cs

theorem dpsCalls_mono (h : w ≤ w') : dpsCalls w ≤ dpsCalls w' := by
  obtain ⟨cs, hcs⟩ := h
  rw [dpsCalls, dpsCalls, ← hcs, arguments, arguments, List.filterMap_append, List.length_append]
  exact Nat.le_add_right _ _

theorem Within.mono (h : w ≤ w') (hv : Within w v) : Within w' v := by
  have hm := UInt32.le_iff_toNat_le.mp (maxDps_mono h)
  exact ⟨hv.1, hv.2.trans (Nat.cast_le.mpr hm)⟩

theorem within_arg {dps : UInt32} (h : dps ∈ (arguments w.made).dps) : Within w (dps.toNat : Rat) := by
  have hm := UInt32.le_iff_toNat_le.mp (w.summary.maxDps.1 dps h)
  exact ⟨Nat.cast_nonneg _, Nat.cast_le.mpr hm⟩

theorem within_zero (w : World) : Within w 0 := ⟨le_rfl, Nat.cast_nonneg _⟩

theorem within_dps (w : World) : Within w (w.data.dps.toNat : Rat) := by
  have hm := UInt32.le_iff_toNat_le.mp w.summary.dps_le_maxDps
  exact ⟨Nat.cast_nonneg _, Nat.cast_le.mpr hm⟩

theorem within_mean {vs : List UInt32} (h : ∀ v ∈ vs, Within w (v.toNat : Rat)) :
    Within w (mean (samples vs)) := by
  apply mean_mem (within_zero w).1 (within_zero w).2
  intro v hv
  obtain ⟨dps, hdps, rfl⟩ := List.mem_map.mp hv
  exact h dps hdps

theorem within_average (h : dpsCalls w < 2 ^ 32) : Within w w.data.averageDps := by
  rw [w.summary.averageDps h]
  exact within_mean fun dps hdps => within_arg hdps

/-- A slot that has not been written yet holds 0. -/
theorem within_rollingAverage (w : World) : Within w w.data.getDPSRollingAverage := by
  have hlen : (samples w.data.rollingAverageArr.toList).length = rollingAveragePointCount := by
    rw [samples, List.length_map, Vector.length_toList]
  have hmean : w.data.getDPSRollingAverage = mean (samples w.data.rollingAverageArr.toList) := by
    rw [RollingAverage.getDPSRollingAverage_eq, mean, hlen]
  rw [hmean]
  apply within_mean
  intro dps hdps
  rcases List.mem_append.mp (w.summary.rollingAverage.perm.subset hdps) with hr | hz
  · exact within_arg (List.mem_of_mem_drop hr)
  · rw [List.eq_of_mem_replicate hz]
    exact within_zero w

end Store

section Frame

variable {plot : Plot} {w : World} (frame : Frame)

theorem PlotWithin.mono {w' : World} (h : w ≤ w') (hp : PlotWithin plot w) : PlotWithin plot w' :=
  fun v hv => (hp v hv).mono h

theorem plotWithin_sample (hp : PlotWithin plot w) (hlt : dpsCalls ((plot.sample frame).run w).2 < 2 ^ 32) :
    PlotWithin ((plot.sample frame).run w).1 ((plot.sample frame).run w).2 := by
  by_cases ht : plot.dpsPlotTimeout = 0
  · obtain ⟨w₁, hw₁⟩ : ∃ w₁, w.perform (frame.calls .plotDps) = w₁ := ⟨_, rfl⟩
    obtain ⟨w₂, hw₂⟩ : ∃ w₂, w₁.perform (frame.calls .plotDpsAverage) = w₂ := ⟨_, rfl⟩
    obtain ⟨w₃, hw₃⟩ : ∃ w₃, w₂.perform (frame.calls .plotDpsRollingAverage) = w₃ := ⟨_, rfl⟩
    rw [Plot.run_sample_of_zero ht frame hw₁ hw₂ hw₃] at hlt ⊢
    have h₁ : w ≤ w₁ := hw₁ ▸ w.le_perform _
    have h₂ : w₁ ≤ w₂ := hw₂ ▸ w₁.le_perform _
    have h₃ : w₂ ≤ w₃ := hw₃ ▸ w₂.le_perform _
    have hold := hp.mono (h₁.trans (h₂.trans h₃))
    have hdps := (within_dps w₁).mono (h₂.trans h₃)
    have havg := (within_average ((dpsCalls_mono h₃).trans_lt hlt)).mono h₃
    have hroll := within_rollingAverage w₃
    simp only [PlotWithin, values, List.forall_mem_append, List.forall_mem_singleton] at hold ⊢
    exact ⟨⟨hold.1, hdps⟩, ⟨hold.2.1, havg⟩, hold.2.2, hroll⟩
  · rw [Plot.run_sample_of_ne_zero ht]
    exact hp

/-- The limit is read after the samples have been taken. -/
theorem within_dpsAxisLimit {v : Rat} (hv : Within w v) : 0 ≤ v ∧ v ≤ ((dpsAxisLimit frame).run w).1 := by
  refine ⟨hv.1, ?_⟩
  obtain ⟨w₁, hw₁⟩ : ∃ w₁, w₁ = w.perform (frame.calls .limitTest) := ⟨_, rfl⟩
  obtain ⟨w₂, hw₂⟩ : ∃ w₂, w₂ = w₁.perform (frame.calls .limit) := ⟨_, rfl⟩
  have h₁ : w ≤ w₁ := hw₁ ▸ w.le_perform _
  have h₂ : w₁ ≤ w₂ := hw₂ ▸ w₁.le_perform _
  rw [run_dpsAxisLimit, ← hw₁, ← hw₂]
  by_cases h0 : w₁.data.maxDps = 0
  · rw [if_pos h0]
    have hle := (hv.mono h₁).2
    rw [h0, UInt32.toNat_zero, Nat.cast_zero] at hle
    exact hle.trans (by norm_num)
  · rw [if_neg h0]
    have hle := (hv.mono (h₁.trans h₂)).2
    have hpos : (0 : Rat) ≤ (w₂.data.maxDps.toNat : Rat) := Nat.cast_nonneg _
    calc v ≤ (w₂.data.maxDps.toNat : Rat) := hle
      _ ≤ (w₂.data.maxDps.toNat : Rat) * (11 / 10) := le_mul_of_one_le_right hpos (by norm_num)

theorem plotWithin_reset (hp : PlotWithin plot w) : PlotWithin (plot.reset frame.reset) w := by
  cases frame.reset with
  | none => exact hp
  | some time => exact List.forall_mem_nil _

theorem plotWithin_plotDpsOverTime (hp : PlotWithin plot w)
    (hlt : dpsCalls ((plotDpsOverTime frame plot).run w).2 < 2 ^ 32) :
    PlotWithin ((plotDpsOverTime frame plot).run w).1.1 ((plotDpsOverTime frame plot).run w).2 ∧
      ∀ graph ∈ ((plotDpsOverTime frame plot).run w).1.2,
        ∀ v ∈ values ((plotDpsOverTime frame plot).run w).1.1, 0 ≤ v ∧ v ≤ graph.yLimits.2 := by
  obtain ⟨r, hr⟩ : ∃ r, ((plot.reset frame.reset).sample frame).run w = r := ⟨_, rfl⟩
  have hsampled : dpsCalls r.2 < 2 ^ 32 → PlotWithin r.1 r.2 := by
    intro hlt
    rw [← hr] at hlt ⊢
    exact plotWithin_sample frame (plotWithin_reset frame hp) hlt
  rw [run_plotDpsOverTime frame plot w hr] at hlt ⊢
  by_cases hs : frame.plotShown
  · rw [if_pos hs] at hlt ⊢
    have hle : r.2 ≤ ((dpsAxisLimit frame).run r.2).2 := advances_dpsAxisLimit frame r.2
    have hin : PlotWithin r.1 r.2 := hsampled ((dpsCalls_mono hle).trans_lt hlt)
    refine ⟨hin.mono hle, ?_⟩
    rintro graph ⟨rfl⟩ v hv
    exact within_dpsAxisLimit frame (hin v hv)
  · rw [if_neg hs] at hlt ⊢
    exact ⟨hsampled hlt, fun graph hg => nomatch hg⟩

theorem plotWithin_next {s : Screen} (hs : Invariant s) (hlt : dpsCalls (s.next frame).world < 2 ^ 32) :
    PlotWithin (s.next frame).plot (s.next frame).world ∧
      ∀ graph ∈ (s.shown frame).graph, ∀ v ∈ values (s.next frame).plot, 0 ≤ v ∧ v ≤ graph.yLimits.2 := by
  have hp : PlotWithin s.plot s.world := hs ((dpsCalls_mono (s.le_next frame)).trans_lt hlt)
  rw [Screen.next_eq] at hlt ⊢
  rw [Screen.graph_shown]
  exact plotWithin_plotDpsOverTime frame (hp.mono (s.le_beforePlot frame)) hlt

theorem invariant_next (s : Screen) (hs : Invariant s) : Invariant (s.next frame) := fun hlt =>
  (plotWithin_next frame hs hlt).1

end Frame

theorem invariant_start (time : Int) : Invariant (.start time) := fun _ => List.forall_mem_nil _

/-- In every frame of a run with fewer than 2^32 calls of `setDPS`, all values in the vectors are between
0 and the limit of the axis. -/
theorem values_within_limits (time : Int) (frames : List Frame)
    (hlt : dpsCalls (frames.foldl Screen.next (.start time)).world < 2 ^ 32) :
    ∀ p ∈ rounds Screen.next (.start time) frames, ∀ graph ∈ (p.1.shown p.2).graph,
      ∀ v ∈ values (p.1.next p.2).plot, 0 ≤ v ∧ v ≤ graph.yLimits.2 := by
  intro p hp
  have hinv : Invariant p.1 :=
    rounds_invariant (fun s frame => invariant_next frame s) (invariant_start time) p hp
  have hle : dpsCalls (p.1.next p.2).world ≤ dpsCalls (frames.foldl Screen.next (.start time)).world :=
    (rounds_le (f := fun s : Screen => dpsCalls s.world) fun s frame => dpsCalls_mono (s.le_next frame)).2 p hp
  exact (plotWithin_next p.2 hinv (hle.trans_lt hlt)).2

/-- The value goes up between the test and the limit. -/
def risingFrame : Frame where
  calls
    | .plotDps => [.setDPS 5]
    | .limit => [.setDPS 7]
    | _ => []

theorem values_within_limits_rising :
    ((Screen.start 0).shown risingFrame).graph.map Graph.yLimits = some (0, 77 / 10) ∧
    values ((Screen.start 0).next risingFrame).plot = [5, 5, 1 / 10] ∧
    ∀ graph ∈ ((Screen.start 0).shown risingFrame).graph,
      ∀ v ∈ values ((Screen.start 0).next risingFrame).plot, 0 ≤ v ∧ v ≤ graph.yLimits.2 :=
  ⟨by decide +kernel, by decide +kernel,
    values_within_limits 0 [risingFrame] (by decide +kernel) (.start 0, risingFrame) (List.mem_singleton_self _)⟩

end Fopd.PlotLimits
