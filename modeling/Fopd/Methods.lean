import Fopd.Lib.Critical
import Fopd.Statistics

namespace Fopd.Methods

open Consts Data Statistics Lib.Critical

inductive Getter
  | getDPS
  | getMaxDPS
  | getMaxDmg
  | getPing
  | getTargetRemainingHealth
  | getDPSAverage
  | getDPSRollingAverage
  | getServerIndex
  deriving DecidableEq

inductive Value
  | uint32 (v : UInt32)
  | double (v : Rat)
  | size (v : UInt64)
  deriving DecidableEq, Inhabited

/-- What a getter returns when nothing happens meanwhile. -/
def Getter.value (data : FOPDData) : Getter → Value
  | .getDPS => .uint32 data.getDPS
  | .getMaxDPS => .uint32 data.getMaxDPS
  | .getMaxDmg => .uint32 data.getMaxDmg
  | .getPing => .uint32 data.getPing
  | .getTargetRemainingHealth => .uint32 data.getTargetRemainingHealth
  | .getDPSAverage => .double data.getDPSAverage
  | .getDPSRollingAverage => .double data.getDPSRollingAverage
  | .getServerIndex => .size data.getServerIndex

/-- The variables of a call. -/
structure Vars where
  average : Rat := 0
  n : UInt32 := 0
  result : Value := default
  deriving DecidableEq, Inhabited

abbrev Statement := FOPDData × Vars → FOPDData × Vars

def assign (f : FOPDData → FOPDData) : Statement := fun p => (f p.1, p.2)

def evaluate (f : FOPDData → Vars → Vars) : Statement := fun p => (p.1, f p.1 p.2)

def returns (f : FOPDData → Value) : Statement := evaluate fun data vars => { vars with result := f data }

def setterBody : Call → Body FOPDData Vars
  | .setDPS dps => {
      init := [
        assign fun data => { data with dps := dps },
        assign fun data => if dps > data.maxDps then { data with maxDps := dps } else data,
        assign FOPDData.updateDPSAverage,
        assign fun data => { data with
          rollingAverageArr := data.rollingAverageArr.setIfInBounds data.rollingAverageNext.toNat data.dps }]
      last := assign fun data => { data with
        rollingAverageNext := (data.rollingAverageNext + 1) % UInt32.ofNat rollingAveragePointCount } }
  | .setPing ping => ⟨[], assign fun data => { data with ping := ping }⟩
  | .setTargetRemainingHealth targetHealth =>
      ⟨[], assign fun data => { data with targetRemainingHealth := targetHealth }⟩
  | .setServerIndex serverIndex => ⟨[], assign fun data => { data with serverIndex := serverIndex }⟩
  | .trySetMaxDmg damage => ⟨[], assign fun data => { data with maxDmg := max data.maxDmg damage }⟩

/-- The body of the loop over the slots. -/
def loopStatement (i : Fin rollingAveragePointCount) : Statement := evaluate fun data vars => { vars with
  average := vars.average + ((data.rollingAverageArr[i].toNat : Rat) - vars.average) / ((vars.n + 1).toNat : Rat)
  n := vars.n + 1 }

def getterBody : Getter → Body FOPDData Vars
  | .getDPSRollingAverage => {
      init := (List.finRange rollingAveragePointCount).map loopStatement
      last := evaluate fun _ vars => { vars with result := .double vars.average } }
  | getter => ⟨[], returns fun data => getter.value data⟩

/-- The only setter that can return before it takes the lock. -/
def rejected : Call → Bool
  | .setServerIndex serverIndex => decide (serverIndex ≥ UInt64.ofNat serverCount)
  | _ => false

theorem run_setterBody {c : Call} (h : rejected c = false) (data : FOPDData) (vars : Vars) :
    (setterBody c).run (data, vars) = (call data c, vars) := by
  cases c with
  | setDPS dps => rfl
  | setServerIndex serverIndex =>
      rw [call, FOPDData.setServerIndex, if_neg (of_decide_eq_false h)]
      rfl
  | setPing | setTargetRemainingHealth | trySetMaxDmg => rfl

theorem call_of_rejected {c : Call} (h : rejected c = true) (data : FOPDData) : call data c = data := by
  cases c with
  | setServerIndex serverIndex => rw [call, FOPDData.setServerIndex, if_pos (of_decide_eq_true h)]
  | setDPS | setPing | setTargetRemainingHealth | trySetMaxDmg => cases h

theorem foldl_loopStatement (is : List (Fin rollingAveragePointCount)) (data : FOPDData) (vars : Vars) :
    (is.map loopStatement).foldl (fun p f => f p) (data, vars) =
      (data, { vars with
        average := ((is.map fun i => data.rollingAverageArr[i]).foldl FOPDData.averageStep (vars.average, vars.n)).1
        n := ((is.map fun i => data.rollingAverageArr[i]).foldl FOPDData.averageStep (vars.average, vars.n)).2 }) := by
  induction is generalizing vars with
  | nil => rfl
  | cons i is ih =>
      rw [List.map_cons, List.foldl_cons, loopStatement, evaluate, ih]
      rfl

theorem run_getterBody (getter : Getter) (data : FOPDData) :
    (getterBody getter).run (data, default) = (data, ((getterBody getter).run (data, default)).2) ∧
      ((getterBody getter).run (data, default)).2.result = getter.value data := by
  cases getter with
  | getDPSRollingAverage =>
      have hslots : (List.finRange rollingAveragePointCount).map (fun i => data.rollingAverageArr[i]) =
          data.rollingAverageArr.toList := by
        apply List.ext_getElem
        · simp
        · simp
      rw [getterBody, Body.run, foldl_loopStatement, hslots]
      exact ⟨rfl, rfl⟩
  | getDPS | getMaxDPS | getMaxDmg | getPing | getTargetRemainingHealth | getDPSAverage | getServerIndex =>
      exact ⟨rfl, rfl⟩

/-- Only the last statement of a body changes the index of the server. -/
theorem serverIndex_init (c : Call) : ∀ f ∈ (setterBody c).init, ∀ p, (f p).1.serverIndex = p.1.serverIndex := by
  cases c with
  | setDPS dps =>
      simp only [setterBody, List.forall_mem_cons]
      refine ⟨fun p => rfl, fun p => ?_, fun p => rfl, fun p => rfl, List.forall_mem_nil _⟩
      rw [assign]
      split <;> rfl
  | setPing | setTargetRemainingHealth | setServerIndex | trySetMaxDmg => exact List.forall_mem_nil _

theorem init_getterBody (getter : Getter) : ∀ f ∈ (getterBody getter).init, ∀ p, (f p).1 = p.1 := by
  cases getter with
  | getDPSRollingAverage =>
      intro f hf p
      obtain ⟨i, -, rfl⟩ := List.mem_map.mp hf
      rfl
  | getDPS | getMaxDPS | getMaxDmg | getPing | getTargetRemainingHealth | getDPSAverage | getServerIndex =>
      exact List.forall_mem_nil _

end Fopd.Methods
