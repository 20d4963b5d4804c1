import Fopd.Doubles
import Fopd.PlotLimits

namespace Fopd.PlotDoubles

open Consts Data Statistics Gui PlotLimits Doubles Lib Lib.Shared Lib.Rounding Lib.Double Lib.Transitions

/-- The store with its doubles, after all calls so far. -/
def doubles (w : World) : FOPDDoubles := ({} : FOPDDoubles).calls w.made

theorem data_doubles (w : World) : (doubles w).data = w.data := by
  rw [doubles, FOPDDoubles.data_calls, w.reached]
  rfl

def getDPSAverage (w : World) : Float := (doubles w).averageDps

def getDPSRollingAverage (w : World) : Float := (doubles w).getDPSRollingAverage

/-- A getter of the doubles at a place in a frame. -/
def getDouble (frame : Frame) (access : Access) (getter : World → Float) : StateM World Float :=
  read (frame.calls access) getter

structure DoublePlot where
  dps : List Float := []
  avgDps : List Float := []
  rollingAvgDps : List Float := []
  dpsPlotTimeout : Nat := 0

namespace DoublePlot

def reset (plot : DoublePlot) : Option Int → DoublePlot
  | none => plot
  | some _ => {}

def sample (plot : DoublePlot) (frame : Frame) : StateM World DoublePlot :=
  if plot.dpsPlotTimeout = 0 then do
    let dps ← frame.get .plotDps FOPDData.getDPS
    let average ← getDouble frame .plotDpsAverage getDPSAverage
    let rollingAverage ← getDouble frame .plotDpsRollingAverage getDPSRollingAverage
    pure { plot with
      dps := plot.dps ++ [dps.toFloat]
      avgDps := plot.avgDps ++ [average]
      rollingAvgDps := plot.rollingAvgDps ++ [rollingAverage] }
  else pure plot

def tick (plot : DoublePlot) : DoublePlot :=
  { plot with dpsPlotTimeout := (plot.dpsPlotTimeout + 1) % plotPollTime }

def values (plot : DoublePlot) : List Float := plot.dps ++ (plot.avgDps ++ plot.rollingAvgDps)

end DoublePlot

def axisLimit (frame : Frame) : StateM World Float := do
  let maxDps ← frame.get .limitTest FOPDData.getMaxDPS
  if maxDps = 0 then pure 1000
  else do
    let maxDps ← frame.get .limit FOPDData.getMaxDPS
    pure (maxDps.toFloat * 1.1)

/-- The limit of the axis, if the plot is drawn. -/
def plotDpsOverTime (frame : Frame) (plot : DoublePlot) : StateM World (DoublePlot × Option Float) := do
  let plot ← (plot.reset frame.reset).sample frame
  let plot := plot.tick
  if frame.plotShown then do
    let limit ← axisLimit frame
    pure (plot, some limit)
  else pure (plot, none)

/-- `build_gui`, of which only the plot is kept. -/
def buildGui (frame : Frame) (plot : DoublePlot) : StateM World (DoublePlot × Option Float) := do
  let _ ← showDebugInfo frame
  let _ ← showParameters frame
  let _ ← showDpsMeter frame
  plotDpsOverTime frame plot

structure DoubleScreen where
  plot : DoublePlot
  world : World

namespace DoubleScreen

def start : DoubleScreen := ⟨{}, World.start⟩

def next (s : DoubleScreen) (frame : Frame) : DoubleScreen :=
  ⟨((buildGui frame s.plot).run s.world).1.1, ((buildGui frame s.plot).run s.world).2⟩

def limit (s : DoubleScreen) (frame : Frame) : Option Float := ((buildGui frame s.plot).run s.world).1.2

end DoubleScreen

section Values

variable {w w' : World} {f limit : Float} {vs : List Float}

/-- A double between 0 and the maximum in the store. -/
def WithinMax (w : World) (f : Float) : Prop := ∃ x : ℚ, HasValue f x ∧ Within w x

theorem WithinMax.mono (h : w ≤ w') (hf : WithinMax w f) : WithinMax w' f := by
  obtain ⟨x, hx, hw⟩ := hf
  exact ⟨x, hx, hw.mono h⟩

theorem withinMax_dps (w : World) : WithinMax w w.data.dps.toFloat := ⟨_, HasValue.of_uint32 _, within_dps w⟩

theorem summary_doubles (w : World) : Summary (doubles w).data (arguments w.made) := by
  rw [data_doubles]
  exact w.summary

theorem withinMax_of_between {x : ℚ} (hf : HasValue f x) (h : RoundedMean.Between binary64 w.data.maxDps.toNat x) :
    WithinMax w f := ⟨x, hf, h.nonneg, h.le⟩

theorem withinMax_average (h : dpsCalls w < 2 ^ 32) : WithinMax w (getDPSAverage w) := by
  have hm := w.data.maxDps.toNat_lt
  have hvs := le_maxDps w.summary
  exact withinMax_of_between (hasValue_average w.made hm hvs h)
    (RoundedMean.between_running (exponent_neg_of_lt hm) (samples_mem hvs) (RoundedMean.between_zero binary64 _ (by decide)))

theorem withinMax_rollingAverage (w : World) : WithinMax w (getDPSRollingAverage w) := by
  have hm := w.data.maxDps.toNat_lt
  have hvs := slot_le_maxDps (summary_doubles w)
  rw [data_doubles] at hvs
  have hroll := hasValue_rollingAverage (s := doubles w) hm (by rwa [data_doubles])
  rw [data_doubles] at hroll
  exact withinMax_of_between hroll
    (RoundedMean.between_running (exponent_neg_of_lt hm) (samples_mem hvs) (RoundedMean.between_zero binary64 _ (by decide)))

theorem finite_of_le {y : ℚ} (h0 : 0 ≤ y) (h : y ≤ ((2 ^ 33 : ℕ) : ℚ)) : |y| < 2 ^ 1024 := by
  rw [abs_of_nonneg h0]
  calc y ≤ ((2 ^ 33 : ℕ) : ℚ) := h
    _ < 2 ^ 34 := by norm_num
    _ ≤ 2 ^ 1024 := pow_le_pow_right₀ one_le_two (by norm_num)

/-- The literal `1.1` is the double next to it, which is not below 1. -/
theorem hasValue_factor : ∃ x : ℚ, HasValue 1.1 x ∧ 1 ≤ x ∧ x ≤ 2 := by
  have hlit : (1.1 : Float) = (11 : UInt32).toFloat / (10 : UInt32).toFloat := by decide +kernel
  have h11 : HasValue (11 : UInt32).toFloat ((11 : ℕ) : ℚ) := HasValue.of_uint32 11
  have h10 : HasValue (10 : UInt32).toFloat ((10 : ℕ) : ℚ) := HasValue.of_uint32 10
  have hone : binary64.On ((1 : ℕ) : ℚ) := on_of_lt (by decide)
  have htwo : binary64.On ((2 : ℕ) : ℚ) := on_of_lt (by decide)
  have hle : binary64.round (((11 : ℕ) : ℚ) / ((10 : ℕ) : ℚ)) ≤ ((2 : ℕ) : ℚ) := Grid.round_le_of_on htwo (by norm_num)
  have hge : ((1 : ℕ) : ℚ) ≤ binary64.round (((11 : ℕ) : ℚ) / ((10 : ℕ) : ℚ)) :=
    Grid.le_round_of_on hone (by norm_num)
  have hfinite := finite_of_le (le_trans (Nat.cast_nonneg 1) hge) (hle.trans (by norm_num))
  refine ⟨_, ?_, by exact_mod_cast hge, by exact_mod_cast hle⟩
  rw [hlit]
  exact h11.div h10 (by norm_num) hfinite

theorem hasValue_thousand : HasValue 1000 1000 := by
  have hlit : (1000 : Float) = (1000 : UInt32).toFloat := by decide +kernel
  have h : HasValue (1000 : UInt32).toFloat ((1000 : ℕ) : ℚ) := HasValue.of_uint32 1000
  rw [hlit]
  exact_mod_cast h

/-- A tenth more than the maximum, rounded, is not less than it. -/
theorem hasValue_limit (m : UInt32) : ∃ x : ℚ, HasValue (m.toFloat * 1.1) x ∧ (m.toNat : ℚ) ≤ x := by
  obtain ⟨c, hc, h1, h2⟩ := hasValue_factor
  have hm := HasValue.of_uint32 m
  have hlt : m.toNat < 2 ^ 32 := m.toNat_lt
  have hm0 : (0 : ℚ) ≤ m.toNat := Nat.cast_nonneg _
  have hle : (m.toNat : ℚ) ≤ binary64.round (m.toNat * c) :=
    Grid.le_round_of_on (on_of_lt hlt) (le_mul_of_one_le_right hm0 h1)
  have hbound : binary64.round (m.toNat * c) ≤ ((2 ^ 33 : ℕ) : ℚ) := by
    apply Grid.round_le_of_on (Grid.on_natCast (by decide) (by decide))
    have hm32 : (m.toNat : ℚ) ≤ 2 ^ 32 := by exact_mod_cast hlt.le
    calc (m.toNat : ℚ) * c ≤ 2 ^ 32 * 2 := mul_le_mul hm32 h2 (le_trans zero_le_one h1) (by positivity)
      _ = ((2 ^ 33 : ℕ) : ℚ) := by norm_num
  exact ⟨_, hm.mul hc (finite_of_le (hm0.trans hle) hbound), hle⟩

/-- What `PlotLine` is given lies on the axis. -/
def OnAxis (limit f : Float) : Prop := 0 ≤ f ∧ f ≤ limit

theorem WithinMax.onAxis {y : ℚ} (hf : WithinMax w f) (hl : HasValue limit y) (hy : (w.data.maxDps.toNat : ℚ) ≤ y) :
    OnAxis limit f := by
  obtain ⟨x, hx, h0, hle⟩ := hf
  exact ⟨(hasValue_zero.le_iff hx).mpr h0, (hx.le_iff hl).mpr (hle.trans hy)⟩

end Values

section Frames

variable (frame : Frame) {vs : List Float}

/-- All the doubles are within the maximum, as long as the counter behind the average has not wrapped. -/
def AllWithin (vs : List Float) (w : World) : Prop := dpsCalls w < 2 ^ 32 → ∀ f ∈ vs, WithinMax w f

def AllOnAxis (vs : List Float) (limit : Float) (w : World) : Prop :=
  dpsCalls w < 2 ^ 32 → ∀ f ∈ vs, OnAxis limit f

theorem stable_allWithin (vs : List Float) : Stable (AllWithin vs) := by
  intro w w' h hw hlt f hf
  exact (hw ((dpsCalls_mono h).trans_lt hlt) f hf).mono h

theorem allWithin_reset {plot : DoublePlot} {w : World} (h : AllWithin plot.values w) :
    AllWithin (plot.reset frame.reset).values w := by
  cases frame.reset with
  | none => exact h
  | some time => exact fun _ => List.forall_mem_nil _

/-- What is read within the maximum stays so with what has been read before. -/
theorem ensures_within {α : Type} {getter : World → α} {toDouble : α → Float}
    (h : ∀ w, dpsCalls w < 2 ^ 32 → WithinMax w (toDouble (getter w))) (vs : List Float) (others : List Call) :
    Ensures (AllWithin vs) (read others getter) fun a => AllWithin (toDouble a :: vs) := by
  refine (ensures_read (stable_allWithin vs) others getter).mono ?_
  rintro a w ⟨hw, rfl⟩ hlt
  exact List.forall_mem_cons.mpr ⟨h w hlt, hw hlt⟩

theorem ensures_dps (vs : List Float) : Ensures (AllWithin vs) (frame.get .plotDps FOPDData.getDPS)
    fun dps => AllWithin (dps.toFloat :: vs) := ensures_within (fun w _ => withinMax_dps w) vs _

theorem ensures_average (vs : List Float) : Ensures (AllWithin vs) (getDouble frame .plotDpsAverage getDPSAverage)
    fun average => AllWithin (average :: vs) := ensures_within (fun _ => withinMax_average) vs _

theorem ensures_rollingAverage (vs : List Float) :
    Ensures (AllWithin vs) (getDouble frame .plotDpsRollingAverage getDPSRollingAverage)
      fun rollingAverage => AllWithin (rollingAverage :: vs) :=
  ensures_within (fun w _ => withinMax_rollingAverage w) vs _

theorem ensures_sample (plot : DoublePlot) :
    Ensures (AllWithin plot.values) (plot.sample frame) fun plot => AllWithin plot.values := by
  rw [DoublePlot.sample]
  refine Ensures.ite (fun _ => ?_) fun _ => ensures_pure fun _ hw => hw
  refine (ensures_dps frame _).bind fun dps => ?_
  refine (ensures_average frame _).bind fun average => ?_
  refine (ensures_rollingAverage frame _).bind fun rollingAverage => ?_
  apply ensures_pure
  intro w hw hlt
  have hall := hw hlt
  simp only [DoublePlot.values, List.forall_mem_append, List.forall_mem_cons] at hall
  simp only [DoublePlot.values, List.forall_mem_append, List.forall_mem_singleton]
  obtain ⟨hr, ha, hd, hdps, havg, hroll⟩ := hall
  exact ⟨⟨hdps, hd⟩, ⟨havg, ha⟩, hroll, hr⟩

theorem ensures_maxDps (vs : List Float) (access : Access) :
    Ensures (AllWithin vs) (frame.get access FOPDData.getMaxDPS) fun maxDps w => AllWithin vs w ∧ maxDps = w.data.maxDps :=
  ensures_get (stable_allWithin vs) _ _

theorem ensures_axisLimit (vs : List Float) :
    Ensures (AllWithin vs) (axisLimit frame) fun limit w => AllWithin vs w ∧ AllOnAxis vs limit w := by
  rw [axisLimit]
  refine (ensures_maxDps frame vs _).bind fun maxDps => Ensures.ite (fun hz => ?_) fun _ => ?_
  · apply ensures_pure
    rintro w ⟨hw, hm⟩
    refine ⟨hw, fun hlt f hf => (hw hlt f hf).onAxis hasValue_thousand ?_⟩
    rw [← hm, hz, UInt32.toNat_zero, Nat.cast_zero]
    norm_num
  · refine ((ensures_maxDps frame vs .limit).bind fun maxDps => ?_).of_pre fun w hw => hw.1
    apply ensures_pure
    rintro w ⟨hw, hm⟩
    obtain ⟨y, hy, hle⟩ := hasValue_limit maxDps
    rw [hm] at hle
    exact ⟨hw, fun hlt f hf => (hw hlt f hf).onAxis hy hle⟩

theorem ensures_plotDpsOverTime (plot : DoublePlot) : Ensures (AllWithin plot.values) (plotDpsOverTime frame plot)
    fun r w => AllWithin r.1.values w ∧ ∀ limit ∈ r.2, AllOnAxis r.1.values limit w := by
  have hsample := (ensures_sample frame (plot.reset frame.reset)).of_pre fun _ => allWithin_reset frame
  rw [plotDpsOverTime]
  refine hsample.bind fun plot => Ensures.ite (fun _ => ?_) fun _ => ?_
  · refine (ensures_axisLimit frame plot.values).bind fun limit => ensures_pure fun w hw => ⟨hw.1, ?_⟩
    rintro _ ⟨⟩
    exact hw.2
  · exact ensures_pure fun w hw => ⟨hw, fun _ hl => nomatch hl⟩

theorem ensures_buildGui (plot : DoublePlot) : Ensures (AllWithin plot.values) (buildGui frame plot)
    fun r w => AllWithin r.1.values w ∧ ∀ limit ∈ r.2, AllOnAxis r.1.values limit w := by
  have hstable := stable_allWithin plot.values
  refine ((advances_showDebugInfo frame).ensures hstable).bind fun _ => ?_
  refine ((advances_showParameters frame).ensures hstable).bind fun _ => ?_
  exact ((advances_showDpsMeter frame).ensures hstable).bind fun _ => ensures_plotDpsOverTime frame plot

theorem advances_buildGui (plot : DoublePlot) : Advances (buildGui frame plot) := by
  refine (advances_showDebugInfo frame).bind fun _ => (advances_showParameters frame).bind fun _ =>
    (advances_showDpsMeter frame).bind fun _ => ?_
  have hread (access : Access) (getter : World → Float) : Advances (getDouble frame access getter) := fun w =>
    w.le_perform _
  have hsample : Advances ((plot.reset frame.reset).sample frame) := by
    rw [DoublePlot.sample]
    split
    · exact (advances_frame_get frame _ _).bind fun _ => (hread _ _).bind fun _ => (hread _ _).bind fun _ =>
        advances_pure _
    · exact advances_pure _
  have hlimit : Advances (axisLimit frame) := by
    refine (advances_frame_get frame _ _).bind fun _ => ?_
    split
    · exact advances_pure _
    · exact (advances_frame_get frame _ _).bind fun _ => advances_pure _
  refine hsample.bind fun plot => ?_
  split
  · exact hlimit.bind fun _ => advances_pure _
  · exact advances_pure _

end Frames

/-- In every frame of a run with fewer than 2^32 calls of `setDPS`, all doubles that are plotted lie
between 0 and the limit that is set for the axis, as `double` compares them. -/
theorem doubles_within_limits (frames : List Frame)
    (hlt : dpsCalls (frames.foldl DoubleScreen.next .start).world < 2 ^ 32) :
    ∀ p ∈ rounds DoubleScreen.next .start frames, ∀ limit ∈ p.1.limit p.2,
      ∀ f ∈ (p.1.next p.2).plot.values, 0 ≤ f ∧ f ≤ limit := by
  intro p hp
  have hinv : AllWithin p.1.plot.values p.1.world :=
    rounds_invariant (I := fun s : DoubleScreen => AllWithin s.plot.values s.world)
      (fun s frame hs => (ensures_buildGui frame s.plot s.world hs).1) (fun _ => List.forall_mem_nil _) p hp
  have hle : dpsCalls (p.1.next p.2).world ≤ dpsCalls (frames.foldl DoubleScreen.next .start).world :=
    (rounds_le (f := fun s : DoubleScreen => dpsCalls s.world) fun s frame =>
      dpsCalls_mono (advances_buildGui frame s.plot s.world)).2 p hp
  intro limit hl
  exact (ensures_buildGui p.2 p.1.plot p.1.world hinv).2 limit hl (hle.trans_lt hlt)

theorem doubles_within_limits_rising : ∃ limit, DoubleScreen.start.limit risingFrame = some limit ∧
    (DoubleScreen.start.next risingFrame).plot.values.length = 3 ∧
    ∀ f ∈ (DoubleScreen.start.next risingFrame).plot.values, 0 ≤ f ∧ f ≤ limit := by
  have hshown : (DoubleScreen.start.limit risingFrame).isSome := by decide +kernel
  obtain ⟨limit, hlimit⟩ := Option.isSome_iff_exists.mp hshown
  refine ⟨limit, hlimit, by decide +kernel, ?_⟩
  exact doubles_within_limits [risingFrame] (by decide +kernel) (.start, risingFrame) (List.mem_singleton_self _) limit
    hlimit

end Fopd.PlotDoubles
