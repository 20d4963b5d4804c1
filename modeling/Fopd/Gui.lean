import Fopd.Lib.Shared
import Fopd.Statistics

namespace Fopd.Gui

open Consts Data Statistics Lib Lib.Shared

@[simp] abbrev plotPollTime : Nat := 15

/-- The places in a frame where the store is used, in this order. -/
inductive Access
  | ping
  | serverIndex
  | setServerIndex
  | targetRemainingHealth
  | maxDmg
  | maxDps
  | dps
  | dpsAverage
  | plotDps
  | plotDpsAverage
  | plotDpsRollingAverage
  | limitTest
  | limit
  deriving DecidableEq

/-- What a frame meets: the calls that other threads make right before it gets to the store, and what
the user and the clock do. -/
structure Frame where
  calls : Access → List Call := fun _ => []
  /-- The entries clicked on, while the list of servers is open. -/
  combo : Option (UInt64 → Bool) := none
  now : Int := 0
  /-- The clock when Reset has been pressed. -/
  reset : Option Int := none
  plotShown : Bool := true

abbrev World := Shared.World call ({} : FOPDData)

theorem World.summary (w : World) : Summary w.data (arguments w.made) := by
  rw [w.reached]
  exact summary_calls w.made

def Frame.get {α : Type} (frame : Frame) (access : Access) (getter : FOPDData → α) : StateM World α :=
  Shared.get (frame.calls access) getter

def Frame.set (frame : Frame) (access : Access) (c : Call) : StateM World Unit :=
  Shared.set (frame.calls access) c

/-- `%d` takes the bits for those of an `int`. -/
def printed (v : UInt32) : Int := v.toInt32.toInt

def showDebugInfo (frame : Frame) : StateM World Int := do
  let ping ← frame.get .ping FOPDData.getPing
  pure (printed ping)

structure Parameters where
  preview : Option String
  address : Option String
  deriving DecidableEq

/-- The loop over the entries of the list. -/
def selectItem (clicked : UInt64 → Bool) (itemCurrent : UInt64) : UInt64 :=
  ((List.range serverCount).map UInt64.ofNat).foldl (fun item n => if clicked n then n else item) itemCurrent

def showParameters (frame : Frame) : StateM World Parameters := do
  let itemCurrent ← frame.get .serverIndex FOPDData.getServerIndex
  let comboPreviewValue := foServers[itemCurrent.toNat]?.map Server.name
  match frame.combo with
  | none => pure ⟨comboPreviewValue, foServers[itemCurrent.toNat]?.map Server.address⟩
  | some clicked => do
      let itemCurrent := selectItem clicked itemCurrent
      frame.set .setServerIndex (.setServerIndex itemCurrent)
      pure ⟨comboPreviewValue, foServers[itemCurrent.toNat]?.map Server.address⟩

structure DpsMeter where
  targetHealth : Int
  maxDmg : Int
  maxDps : Int
  currentDps : Int
  averageDps : Rat
  deriving DecidableEq

/-- The window with the damage statistics in `build_gui`. -/
def showDpsMeter (frame : Frame) : StateM World DpsMeter := do
  let targetHealth ← frame.get .targetRemainingHealth FOPDData.getTargetRemainingHealth
  let maxDmg ← frame.get .maxDmg FOPDData.getMaxDmg
  let maxDps ← frame.get .maxDps FOPDData.getMaxDPS
  let dps ← frame.get .dps FOPDData.getDPS
  let averageDps ← frame.get .dpsAverage FOPDData.getDPSAverage
  pure ⟨printed targetHealth, printed maxDmg, printed maxDps, printed dps, averageDps⟩

/-- The static variables of the plot. -/
structure Plot where
  start : Int
  dps : List Rat := []
  avgDps : List Rat := []
  rollingAvgDps : List Rat := []
  timeAxis : List Int := []
  dpsPlotTimeout : Nat := 0
  deriving DecidableEq

structure PlotLine where
  label : String
  xs : List Int
  ys : List Rat
  count : Int
  deriving DecidableEq

structure Graph where
  xLimits : Int × Int
  yLimits : Rat × Rat
  lines : List PlotLine
  deriving DecidableEq

namespace Plot

/-- The button, with the clock when it has been pressed. -/
def reset (plot : Plot) : Option Int → Plot
  | none => plot
  | some time =>
      { plot with
        start := time - 1
        dps := []
        avgDps := []
        rollingAvgDps := []
        timeAxis := []
        dpsPlotTimeout := 0 }

def sample (plot : Plot) (frame : Frame) : StateM World Plot :=
  if plot.dpsPlotTimeout = 0 then do
    let dps ← frame.get .plotDps FOPDData.getDPS
    let average ← frame.get .plotDpsAverage FOPDData.getDPSAverage
    let rollingAverage ← frame.get .plotDpsRollingAverage FOPDData.getDPSRollingAverage
    pure { plot with
      dps := plot.dps ++ [(dps.toNat : Rat)]
      avgDps := plot.avgDps ++ [average]
      rollingAvgDps := plot.rollingAvgDps ++ [rollingAverage]
      timeAxis := plot.timeAxis ++ [frame.now] }
  else pure plot

theorem run_sample_of_zero {plot : Plot} (ht : plot.dpsPlotTimeout = 0) (frame : Frame) {w w₁ w₂ w₃ : World}
    (h₁ : w.perform (frame.calls .plotDps) = w₁) (h₂ : w₁.perform (frame.calls .plotDpsAverage) = w₂)
    (h₃ : w₂.perform (frame.calls .plotDpsRollingAverage) = w₃) : (plot.sample frame).run w =
      (({ plot with
        dps := plot.dps ++ [(w₁.data.dps.toNat : Rat)]
        avgDps := plot.avgDps ++ [w₂.data.averageDps]
        rollingAvgDps := plot.rollingAvgDps ++ [w₃.data.getDPSRollingAverage]
        timeAxis := plot.timeAxis ++ [frame.now] } : Plot), w₃) := by
  subst h₁ h₂ h₃
  rw [sample, if_pos ht]
  rfl

theorem run_sample_of_ne_zero {plot : Plot} (ht : plot.dpsPlotTimeout ≠ 0) (frame : Frame) (w : World) :
    (plot.sample frame).run w = (plot, w) := by
  rw [sample, if_neg ht]
  rfl

def tick (plot : Plot) : Plot := { plot with dpsPlotTimeout := (plot.dpsPlotTimeout + 1) % plotPollTime }

/-- The size is cast to `int`. -/
def line (plot : Plot) (label : String) (values : List Rat) : PlotLine :=
  ⟨label, plot.timeAxis, values, (Int32.ofNat values.length).toInt⟩

def graph (plot : Plot) (now : Int) (dpsAxisLimit : Rat) : Graph where
  xLimits := (plot.start, now)
  yLimits := (0, dpsAxisLimit)
  lines := [plot.line "##dps" plot.dps, plot.line "##average_dps" plot.avgDps,
    plot.line "##rolling_average_dps" plot.rollingAvgDps]

end Plot

def dpsAxisLimit (frame : Frame) : StateM World Rat := do
  let maxDps ← frame.get .limitTest FOPDData.getMaxDPS
  if maxDps = 0 then pure 1000
  else do
    let maxDps ← frame.get .limit FOPDData.getMaxDPS
    pure ((maxDps.toNat : Rat) * (11 / 10))

theorem run_dpsAxisLimit (frame : Frame) (w : World) : (dpsAxisLimit frame).run w =
    if (w.perform (frame.calls .limitTest)).data.maxDps = 0 then (1000, w.perform (frame.calls .limitTest))
    else (((((w.perform (frame.calls .limitTest)).perform (frame.calls .limit)).data.maxDps.toNat : Rat) * (11 / 10)),
      (w.perform (frame.calls .limitTest)).perform (frame.calls .limit)) := by
  rw [dpsAxisLimit, StateT.run_bind]
  change StateT.run (if (w.perform (frame.calls .limitTest)).data.maxDps = 0 then _ else _) _ = _
  split <;> rfl

def plotDpsOverTime (frame : Frame) (plot : Plot) : StateM World (Plot × Option Graph) := do
  let plot ← (plot.reset frame.reset).sample frame
  let plot := plot.tick
  if frame.plotShown then do
    let limit ← dpsAxisLimit frame
    pure (plot, some (plot.graph frame.now limit))
  else pure (plot, none)

theorem run_plotDpsOverTime (frame : Frame) (plot : Plot) (w : World) {r : Plot × World}
    (hr : ((plot.reset frame.reset).sample frame).run w = r) : (plotDpsOverTime frame plot).run w =
      if frame.plotShown then
        ((r.1.tick, some (r.1.tick.graph frame.now ((dpsAxisLimit frame).run r.2).1)),
          ((dpsAxisLimit frame).run r.2).2)
      else ((r.1.tick, none), r.2) := by
  subst hr
  rw [plotDpsOverTime, StateT.run_bind]
  by_cases hs : frame.plotShown
  · simp only [hs, if_true]
    rfl
  · simp only [hs]
    rfl

structure Shown where
  ping : Int
  parameters : Parameters
  dpsMeter : DpsMeter
  graph : Option Graph
  deriving DecidableEq

def buildGui (frame : Frame) (plot : Plot) : StateM World (Plot × Shown) := do
  let ping ← showDebugInfo frame
  let parameters ← showParameters frame
  let dpsMeter ← showDpsMeter frame
  let (plot, graph) ← plotDpsOverTime frame plot
  pure (plot, ⟨ping, parameters, dpsMeter, graph⟩)

/-- What lives on from frame to frame. -/
structure Screen where
  plot : Plot
  world : World

namespace Screen

def start (time : Int) : Screen := ⟨{ start := time }, World.start⟩

def shown (s : Screen) (frame : Frame) : Shown := ((buildGui frame s.plot).run s.world).1.2

def next (s : Screen) (frame : Frame) : Screen :=
  ⟨((buildGui frame s.plot).run s.world).1.1, ((buildGui frame s.plot).run s.world).2⟩

def beforeDpsMeter (s : Screen) (frame : Frame) : World :=
  ((showParameters frame).run ((showDebugInfo frame).run s.world).2).2

def beforePlot (s : Screen) (frame : Frame) : World := ((showDpsMeter frame).run (s.beforeDpsMeter frame)).2

theorem graph_shown (s : Screen) (frame : Frame) :
    (s.shown frame).graph = ((plotDpsOverTime frame s.plot).run (s.beforePlot frame)).1.2 := rfl

theorem next_eq (s : Screen) (frame : Frame) : s.next frame =
    ⟨((plotDpsOverTime frame s.plot).run (s.beforePlot frame)).1.1,
      ((plotDpsOverTime frame s.plot).run (s.beforePlot frame)).2⟩ := rfl

end Screen

section Advances

variable {α : Type} (frame : Frame)

theorem advances_frame_get (access : Access) (getter : FOPDData → α) : Advances (frame.get access getter) :=
  advances_get (frame.calls access) getter

theorem advances_showDebugInfo : Advances (showDebugInfo frame) :=
  (advances_frame_get frame _ _).bind fun _ => advances_pure _

theorem advances_showParameters : Advances (showParameters frame) := by
  apply (advances_frame_get frame _ _).bind
  intro
  cases frame.combo with
  | none => exact advances_pure _
  | some clicked => exact (advances_set (frame.calls .setServerIndex) _).bind fun _ => advances_pure _

theorem advances_showDpsMeter : Advances (showDpsMeter frame) := by
  apply (advances_frame_get frame _ _).bind
  intro
  apply (advances_frame_get frame _ _).bind
  intro
  apply (advances_frame_get frame _ _).bind
  intro
  apply (advances_frame_get frame _ _).bind
  intro
  exact (advances_frame_get frame _ _).bind fun _ => advances_pure _

theorem advances_sample (plot : Plot) : Advances (plot.sample frame) := by
  rw [Plot.sample]
  split
  next =>
    apply (advances_frame_get frame _ _).bind
    intro
    apply (advances_frame_get frame _ _).bind
    intro
    exact (advances_frame_get frame _ _).bind fun _ => advances_pure _
  next => exact advances_pure _

theorem advances_dpsAxisLimit : Advances (dpsAxisLimit frame) := by
  apply (advances_frame_get frame _ _).bind
  intro
  split
  next => exact advances_pure _
  next => exact (advances_frame_get frame _ _).bind fun _ => advances_pure _

theorem advances_plotDpsOverTime (plot : Plot) : Advances (plotDpsOverTime frame plot) := by
  apply (advances_sample frame _).bind
  intro
  split
  next => exact (advances_dpsAxisLimit frame).bind fun _ => advances_pure _
  next => exact advances_pure _

theorem Screen.le_beforePlot (s : Screen) : s.world ≤ s.beforePlot frame :=
  (advances_showDebugInfo frame s.world).trans
    ((advances_showParameters frame _).trans (advances_showDpsMeter frame _))

theorem Screen.le_next (s : Screen) : s.world ≤ (s.next frame).world :=
  (s.le_beforePlot frame).trans (advances_plotDpsOverTime frame s.plot _)

end Advances

end Fopd.Gui
