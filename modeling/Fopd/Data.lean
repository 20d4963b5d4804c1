import Fopd.Consts

namespace Fopd.Data

open Consts

@[simp] abbrev rollingAveragePointCount : Nat := 50

/-- The statistics store. Its `double` fields are exact rationals, and `size_t` has 64 bits. -/
structure FOPDData where
  dps : UInt32 := 0
  maxDps : UInt32 := 0
  maxDmg : UInt32 := 0
  averageDps : Rat := 0
  averageDpsN : UInt32 := 0
  rollingAverageArr : Vector UInt32 rollingAveragePointCount := Vector.replicate rollingAveragePointCount 0
  rollingAverageNext : UInt32 := 0
  ping : UInt32 := 0
  targetRemainingHealth : UInt32 := 0
  serverIndex : UInt64 := 0
  deriving DecidableEq

namespace FOPDData

/-- `a + (v - a) / (n + 1)`, with the counter incremented before it divides. -/
def updateDPSAverage (data : FOPDData) : FOPDData :=
  let n := data.averageDpsN + 1
  { data with
    averageDpsN := n
    averageDps := data.averageDps + ((data.dps.toNat : Rat) - data.averageDps) / (n.toNat : Rat) }

def updateDPSRollingAverage (data : FOPDData) : FOPDData :=
  { data with
    rollingAverageArr := data.rollingAverageArr.setIfInBounds data.rollingAverageNext.toNat data.dps
    rollingAverageNext := (data.rollingAverageNext + 1) % UInt32.ofNat rollingAveragePointCount }

def setDPS (data : FOPDData) (dps : UInt32) : FOPDData :=
  let data := { data with dps := dps }
  let data := if dps > data.maxDps then { data with maxDps := dps } else data
  data.updateDPSAverage.updateDPSRollingAverage

def setPing (data : FOPDData) (ping : UInt32) : FOPDData := { data with ping := ping }

def setTargetRemainingHealth (data : FOPDData) (targetHealth : UInt32) : FOPDData :=
  { data with targetRemainingHealth := targetHealth }

def setServerIndex (data : FOPDData) (serverIndex : UInt64) : Bool × FOPDData :=
  if serverIndex ≥ UInt64.ofNat serverCount then (false, data)
  else (true, { data with serverIndex := serverIndex })

def trySetMaxDmg (data : FOPDData) (damage : UInt32) : FOPDData :=
  { data with maxDmg := max data.maxDmg damage }

def getDPS (data : FOPDData) : UInt32 := data.dps
def getMaxDPS (data : FOPDData) : UInt32 := data.maxDps
def getMaxDmg (data : FOPDData) : UInt32 := data.maxDmg
def getPing (data : FOPDData) : UInt32 := data.ping
def getTargetRemainingHealth (data : FOPDData) : UInt32 := data.targetRemainingHealth
def getDPSAverage (data : FOPDData) : Rat := data.averageDps
def getServerIndex (data : FOPDData) : UInt64 := data.serverIndex

/-- The body of the loop in `getDPSRollingAverage`, on `average` and `n`. -/
def averageStep (p : Rat × UInt32) (value : UInt32) : Rat × UInt32 :=
  let n := p.2 + 1
  (p.1 + ((value.toNat : Rat) - p.1) / (n.toNat : Rat), n)

/-- The loop goes over all slots, also those that have not been written yet. -/
def getDPSRollingAverage (data : FOPDData) : Rat :=
  (data.rollingAverageArr.toList.foldl averageStep (0, 0)).1

theorem setDPS_eq (data : FOPDData) (dps : UInt32) : data.setDPS dps = { data with
    dps := dps
    maxDps := if dps > data.maxDps then dps else data.maxDps
    averageDpsN := data.averageDpsN + 1
    averageDps := data.averageDps +
      ((dps.toNat : Rat) - data.averageDps) / ((data.averageDpsN + 1).toNat : Rat)
    rollingAverageArr := data.rollingAverageArr.setIfInBounds data.rollingAverageNext.toNat dps
    rollingAverageNext := (data.rollingAverageNext + 1) % UInt32.ofNat rollingAveragePointCount } := by
  rw [setDPS]
  split <;> rfl

theorem setServerIndex_eq (data : FOPDData) (serverIndex : UInt64) : (data.setServerIndex serverIndex).2 =
    { data with
      serverIndex := if serverIndex ≥ UInt64.ofNat serverCount then data.serverIndex else serverIndex } := by
  rw [setServerIndex]
  split <;> rfl

@[simp] theorem maxDmg_setDPS (data : FOPDData) (dps : UInt32) : (data.setDPS dps).maxDmg = data.maxDmg := by
  rw [setDPS]
  split <;> rfl

@[simp] theorem maxDmg_setServerIndex (data : FOPDData) (serverIndex : UInt64) :
    (data.setServerIndex serverIndex).2.maxDmg = data.maxDmg := by
  rw [setServerIndex]
  split <;> rfl

@[simp] theorem setTargetRemainingHealth_self (data : FOPDData) :
    data.setTargetRemainingHealth data.targetRemainingHealth = data := rfl

end FOPDData
end Fopd.Data
