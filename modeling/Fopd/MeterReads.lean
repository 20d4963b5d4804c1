import Fopd.Lib.Transitions
import Fopd.Gui

namespace Fopd.MeterReads

open Data Statistics Gui Lib.Transitions

theorem printed_eq (v : UInt32) : printed v = if v.toNat < 2 ^ 31 then (v.toNat : Int) else v.toNat - 2 ^ 32 := by
  have h : printed v = if 2 * v.toNat < 2 ^ 32 then (v.toNat : Int) else v.toNat - (2 ^ 32 : Nat) :=
    BitVec.toInt_eq_toNat_cond v.toBitVec
  rw [h]
  split <;> split <;> omega

theorem printed_le_iff (d m : UInt32) : printed d ≤ printed m ↔
    if m.toNat < 2 ^ 31 then d ≤ m ∨ 2 ^ 31 ≤ d.toNat else d ≤ m ∧ 2 ^ 31 ≤ d.toNat := by
  have hd := d.toNat_lt
  have hm := m.toNat_lt
  rw [printed_eq, printed_eq, UInt32.le_iff_toNat_le]
  by_cases hd31 : d.toNat < 2 ^ 31 <;> by_cases hm31 : m.toNat < 2 ^ 31
  all_goals
    simp only [hd31, hm31, if_true, if_false]
    omega

theorem dps_calls (data : FOPDData) (cs : List Call) :
    (calls data cs).dps = (arguments cs).dps.getLastD data.dps := by
  induction cs using List.reverseRecOn with
  | nil => rfl
  | append_singleton cs c ih =>
      rw [calls_append, arguments_append]
      cases c with
      | setDPS dps =>
          rw [Arguments.add, List.getLastD_concat]
          exact congrArg FOPDData.dps (FOPDData.setDPS_eq _ dps)
      | setServerIndex serverIndex =>
          exact (congrArg FOPDData.dps (FOPDData.setServerIndex_eq _ serverIndex)).trans ih
      | setPing | setTargetRemainingHealth | trySetMaxDmg => exact ih

def atMaxDps (s : Screen) (frame : Frame) : World :=
  (((s.beforeDpsMeter frame).perform (frame.calls .targetRemainingHealth)).perform
    (frame.calls .maxDmg)).perform (frame.calls .maxDps)

/-- The calls that come between the two reads do not set a value above the maximum that has been read,
both taken for `int`. -/
def Keeps (data : FOPDData) (between : List Call) : Prop :=
  if data.maxDps.toNat < 2 ^ 31 then
    ∀ dps ∈ (arguments between).dps.getLast?, dps ≤ data.maxDps ∨ 2 ^ 31 ≤ dps.toNat
  else
    (arguments between).dps.getLastD data.dps ≤ data.maxDps ∧
      2 ^ 31 ≤ ((arguments between).dps.getLastD data.dps).toNat

theorem maxDps_shown (s : Screen) (frame : Frame) :
    (s.shown frame).dpsMeter.maxDps = printed (atMaxDps s frame).data.maxDps := rfl

theorem currentDps_shown (s : Screen) (frame : Frame) : (s.shown frame).dpsMeter.currentDps =
    printed ((arguments (frame.calls .dps)).dps.getLastD (atMaxDps s frame).data.dps) := by
  rw [← dps_calls]
  rfl

/-- The store itself never holds a value above its maximum. -/
theorem currentDps_le_maxDps_iff (s : Screen) (frame : Frame) :
    (s.shown frame).dpsMeter.currentDps ≤ (s.shown frame).dpsMeter.maxDps ↔
      Keeps (atMaxDps s frame).data (frame.calls .dps) := by
  have hstore := (atMaxDps s frame).summary.dps_le_maxDps
  rw [maxDps_shown, currentDps_shown, printed_le_iff, Keeps, List.getLastD_eq_getLast?]
  cases (arguments (frame.calls .dps)).dps.getLast? with
  | none => simp [hstore]
  | some dps => simp

/-- In every frame the maximum that is shown is at least the current value that is shown exactly when in
every frame the calls between the two reads keep the current value below the maximum that has been read. -/
theorem meter_agrees_iff (time : Int) (frames : List Frame) :
    (∀ p ∈ rounds Screen.next (.start time) frames,
      (p.1.shown p.2).dpsMeter.currentDps ≤ (p.1.shown p.2).dpsMeter.maxDps) ↔
    ∀ p ∈ rounds Screen.next (.start time) frames, Keeps (atMaxDps p.1 p.2).data (p.2.calls .dps) :=
  forall₂_congr fun p _ => currentDps_le_maxDps_iff p.1 p.2

def hitFrame : Frame where
  calls
    | .dps => [.setDPS 5]
    | _ => []

/-- A hit between the two reads: the maximum is shown as 0, the current value as 5. -/
theorem current_above_maximum : ((Screen.start 0).shown hitFrame).dpsMeter.maxDps = 0 ∧
    ((Screen.start 0).shown hitFrame).dpsMeter.currentDps = 5 ∧
    ¬ ∀ p ∈ rounds Screen.next (.start 0) [hitFrame],
      (p.1.shown p.2).dpsMeter.currentDps ≤ (p.1.shown p.2).dpsMeter.maxDps := by
  have hmax : ((Screen.start 0).shown hitFrame).dpsMeter.maxDps = 0 := by decide +kernel
  have hcurrent : ((Screen.start 0).shown hitFrame).dpsMeter.currentDps = 5 := by decide +kernel
  refine ⟨hmax, hcurrent, fun hall => ?_⟩
  have h := hall (.start 0, hitFrame) (List.mem_singleton_self _)
  rw [hmax, hcurrent] at h
  exact absurd h (by decide)

end Fopd.MeterReads
