import Fopd.Lib.Periodic
import Fopd.Lib.Transitions
import Fopd.Gui

namespace Fopd.PlotHistory

open Data Gui Lib.Periodic Lib.Transitions

/-- A call of `plot_dps_over_time`. -/
structure PlotCall where
  frame : Frame
  world : World

namespace PlotCall

variable (call : PlotCall)

def resets : Bool := call.frame.reset.isSome

def atDps : World := call.world.perform (call.frame.calls .plotDps)

def atAverage : World := call.atDps.perform (call.frame.calls .plotDpsAverage)

def atRollingAverage : World := call.atAverage.perform (call.frame.calls .plotDpsRollingAverage)

def dps : Rat := call.atDps.data.dps.toNat

def average : Rat := call.atAverage.data.averageDps

def rollingAverage : Rat := call.atRollingAverage.data.getDPSRollingAverage

def time : Int := call.frame.now

end PlotCall

def plotNext (plot : Plot) (call : PlotCall) : Plot := ((plotDpsOverTime call.frame plot).run call.world).1.1

def drawn (plot : Plot) (call : PlotCall) : Option Graph :=
  ((plotDpsOverTime call.frame plot).run call.world).1.2

/-- The plot has the samples of the sampler in its four vectors. -/
structure Shows (plot : Plot) (s : Sampler PlotCall) : Prop where
  dps : plot.dps = s.samples.map PlotCall.dps
  avgDps : plot.avgDps = s.samples.map PlotCall.average
  rollingAvgDps : plot.rollingAvgDps = s.samples.map PlotCall.rollingAverage
  timeAxis : plot.timeAxis = s.samples.map PlotCall.time
  dpsPlotTimeout : plot.dpsPlotTimeout = s.counter

section Refinement

variable {plot : Plot} {s : Sampler PlotCall}

theorem shows_start (time : Int) : Shows { start := time } {} := ⟨rfl, rfl, rfl, rfl, rfl⟩

theorem Shows.reset (h : Shows plot s) (pressed : Option Int) :
    Shows (plot.reset pressed) (s.restart pressed.isSome) := by
  cases pressed with
  | none => exact h
  | some time => exact ⟨rfl, rfl, rfl, rfl, rfl⟩

theorem Shows.sample (h : Shows plot s) (call : PlotCall) :
    Shows ((plot.sample call.frame).run call.world).1.tick (s.feed plotPollTime call) := by
  obtain ⟨hdps, havg, hroll, htime, htimeout⟩ := h
  by_cases ht : plot.dpsPlotTimeout = 0
  · have hs : s.counter = 0 := htimeout.symm.trans ht
    rw [Plot.run_sample_of_zero ht call.frame (rfl : _ = call.atDps) (rfl : _ = call.atAverage)
      (rfl : _ = call.atRollingAverage)]
    simp only [Sampler.feed, if_pos hs]
    constructor
    · rw [Plot.tick, hdps, List.map_append, List.map_singleton, PlotCall.dps]
    · rw [Plot.tick, havg, List.map_append, List.map_singleton, PlotCall.average]
    · rw [Plot.tick, hroll, List.map_append, List.map_singleton, PlotCall.rollingAverage]
    · rw [Plot.tick, htime, List.map_append, List.map_singleton, PlotCall.time]
    · rw [Plot.tick, htimeout]
  · have hs : s.counter ≠ 0 := fun h => ht (htimeout.trans h)
    rw [Plot.run_sample_of_ne_zero ht]
    simp only [Sampler.feed, if_neg hs]
    exact ⟨hdps, havg, hroll, htime, congrArg (fun n => (n + 1) % plotPollTime) htimeout⟩

theorem plotNext_eq (plot : Plot) (call : PlotCall) :
    plotNext plot call = (((plot.reset call.frame.reset).sample call.frame).run call.world).1.tick := by
  rw [plotNext, run_plotDpsOverTime call.frame plot call.world rfl]
  split <;> rfl

theorem drawn_eq (plot : Plot) (call : PlotCall) {graph : Graph} (h : graph ∈ drawn plot call) :
    ∃ limit, graph = (plotNext plot call).graph call.frame.now limit := by
  rw [plotNext_eq]
  rw [drawn, run_plotDpsOverTime call.frame plot call.world rfl] at h
  split at h
  next => exact ⟨_, (Option.some.inj h).symm⟩
  next => cases h

theorem Shows.next (h : Shows plot s) (call : PlotCall) :
    Shows (plotNext plot call) (s.next PlotCall.resets plotPollTime call) := by
  rw [plotNext_eq]
  exact (h.reset call.frame.reset).sample call

end Refinement

def plotAfter (time : Int) (calls : List PlotCall) : Plot := calls.foldl plotNext { start := time }

/-- The vectors hold every 15th sample since the last reset. -/
theorem shows_plotAfter (time : Int) (calls : List PlotCall) :
    Shows (plotAfter time calls) (Sampler.after plotPollTime (sinceLast PlotCall.resets calls)) := by
  rw [← Sampler.foldl_next]
  induction calls using List.reverseRecOn with
  | nil => exact shows_start time
  | append_singleton calls call ih =>
      rw [plotAfter, List.foldl_concat, List.foldl_concat]
      exact ih.next call

/-- All that a line is drawn from exists. -/
def Readable (line : PlotLine) : Prop :=
  line.xs ≠ [] ∧ line.ys ≠ [] ∧ ∀ i : Nat, (i : Int) < line.count → i < line.xs.length ∧ i < line.ys.length

/-- The four vectors have the length `n`, and the lines are drawn from them. -/
structure Drawable (plot : Plot) (graph : Graph) (n : Nat) : Prop where
  pos : 0 < n
  dps : plot.dps.length = n
  avgDps : plot.avgDps.length = n
  rollingAvgDps : plot.rollingAvgDps.length = n
  timeAxis : plot.timeAxis.length = n
  lines : graph.lines.map (fun line => (line.xs, line.ys)) =
    [(plot.timeAxis, plot.dps), (plot.timeAxis, plot.avgDps), (plot.timeAxis, plot.rollingAvgDps)]
  readable : ∀ line ∈ graph.lines, Readable line

section Drawing

variable {plot : Plot} {calls run : List PlotCall} {n : Nat}

/-- From 2^31 on the cast makes the size negative, never larger. -/
theorem toInt_ofNat_le (n : Nat) : (Int32.ofNat n).toInt ≤ n := by
  rw [Int32.toInt_ofNat', Int.bmod_def, Int32.size]
  split <;> omega

theorem readable_line {values : List Rat} (label : String) (hpos : 0 < n) (ht : plot.timeAxis.length = n)
    (hv : values.length = n) : Readable (plot.line label values) := by
  subst hv
  refine ⟨List.ne_nil_of_length_pos (ht ▸ hpos), List.ne_nil_of_length_pos hpos, ?_⟩
  intro i hi
  have hcount : (plot.line label values).count ≤ values.length := toInt_ofNat_le values.length
  have hlt : i < values.length := by omega
  exact ⟨ht ▸ hlt, hlt⟩

theorem Shows.drawable (h : Shows plot (Sampler.after plotPollTime run)) (hrun : run ≠ []) (now : Int)
    (limit : Rat) : Drawable plot (plot.graph now limit) ((run.length - 1) / 15 + 1) := by
  have hpos : 0 < run.length := List.length_pos_of_ne_nil hrun
  have hn : (every plotPollTime run).length = (run.length - 1) / 15 + 1 := by
    rw [length_every (by decide)]
    change (run.length + 14) / 15 = _
    omega
  have hlen {α : Type} {values : List α} {f : PlotCall → α}
      (hv : values = (Sampler.after plotPollTime run).samples.map f) : values.length = (run.length - 1) / 15 + 1 := by
    rw [hv, List.length_map, ← hn]
    rfl
  have ht := hlen h.timeAxis
  constructor
  case pos => exact Nat.succ_pos _
  case dps => exact hlen h.dps
  case avgDps => exact hlen h.avgDps
  case rollingAvgDps => exact hlen h.rollingAvgDps
  case timeAxis => exact ht
  case lines => rfl
  case readable =>
    simp only [Plot.graph, List.forall_mem_cons]
    have hpos : 0 < (run.length - 1) / 15 + 1 := Nat.succ_pos _
    exact ⟨readable_line _ hpos ht (hlen h.dps), readable_line _ hpos ht (hlen h.avgDps),
      readable_line _ hpos ht (hlen h.rollingAvgDps), List.forall_mem_nil _⟩

theorem Shows.timeAxis_sublist (h : Shows plot (Sampler.after plotPollTime (sinceLast PlotCall.resets calls))) :
    plot.timeAxis.Sublist (calls.map PlotCall.time) := by
  rw [h.timeAxis]
  exact ((every_sublist plotPollTime _).trans (sinceLast_suffix calls).sublist).map PlotCall.time

end Drawing

/-- Whenever the lines are drawn, the four vectors have one length, which counts the calls since the last
reset or the first call by 15, and the times are in order if those of the clock are. -/
theorem plot_history (time : Int) (calls : List PlotCall) (call : PlotCall) (graph : Graph)
    (hg : graph ∈ drawn (plotAfter time calls) call) :
    Drawable (plotAfter time (calls ++ [call])) graph
      (((sinceLast PlotCall.resets (calls ++ [call])).length - 1) / 15 + 1) ∧
    (((calls ++ [call]).map PlotCall.time).Pairwise (· ≤ ·) →
      (plotAfter time (calls ++ [call])).timeAxis.Pairwise (· ≤ ·)) := by
  have hs := shows_plotAfter time (calls ++ [call])
  have hne : sinceLast PlotCall.resets (calls ++ [call]) ≠ [] := by
    rw [sinceLast_append]
    exact List.append_ne_nil_of_right_ne_nil _ (List.cons_ne_nil call [])
  have hnext : plotNext (plotAfter time calls) call = plotAfter time (calls ++ [call]) := by
    rw [plotAfter, plotAfter, List.foldl_concat]
  obtain ⟨limit, rfl⟩ := drawn_eq (plotAfter time calls) call hg
  rw [hnext]
  exact ⟨hs.drawable hne call.frame.now limit, fun hclock => hclock.sublist hs.timeAxis_sublist⟩

/-- Three frames, then Reset and fourteen more. -/
def framesWithReset : List PlotCall :=
  List.replicate 3 ⟨{}, .start⟩ ++ ⟨{ reset := some 0 }, .start⟩ :: List.replicate 14 ⟨{}, .start⟩

theorem plot_history_with_reset : ∃ graph ∈ drawn (plotAfter 0 framesWithReset) ⟨{}, .start⟩,
    Drawable (plotAfter 0 (framesWithReset ++ [⟨{}, .start⟩])) graph 2 := by
  obtain ⟨graph, hg⟩ := Option.isSome_iff_exists.mp
    (by decide +kernel : (drawn (plotAfter 0 framesWithReset) ⟨{}, .start⟩).isSome)
  exact ⟨graph, hg, (plot_history 0 framesWithReset ⟨{}, .start⟩ graph hg).1⟩

end Fopd.PlotHistory
