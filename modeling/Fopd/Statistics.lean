import Fopd.Lib.Commute
import Fopd.Lib.Mean
import Fopd.Lib.Ring
import Fopd.Data

namespace Fopd.Statistics

open Consts Data Lib Lib.Commute Lib.Mean

inductive Setter
  | setDPS
  | setPing
  | setTargetRemainingHealth
  | setServerIndex
  | trySetMaxDmg
  deriving DecidableEq

inductive Call
  | setDPS (dps : UInt32)
  | setPing (ping : UInt32)
  | setTargetRemainingHealth (targetHealth : UInt32)
  | setServerIndex (serverIndex : UInt64)
  | trySetMaxDmg (damage : UInt32)
  deriving DecidableEq

def Call.setter : Call → Setter
  | .setDPS _ => .setDPS
  | .setPing _ => .setPing
  | .setTargetRemainingHealth _ => .setTargetRemainingHealth
  | .setServerIndex _ => .setServerIndex
  | .trySetMaxDmg _ => .trySetMaxDmg

def call (data : FOPDData) : Call → FOPDData
  | .setDPS dps => data.setDPS dps
  | .setPing ping => data.setPing ping
  | .setTargetRemainingHealth targetHealth => data.setTargetRemainingHealth targetHealth
  | .setServerIndex serverIndex => (data.setServerIndex serverIndex).2
  | .trySetMaxDmg damage => data.trySetMaxDmg damage

def calls (data : FOPDData) (cs : List Call) : FOPDData := cs.foldl call data

/-- The arguments that each setter was called with. -/
structure Arguments where
  dps : List UInt32
  pings : List UInt32
  healths : List UInt32
  serverIndexes : List UInt64
  damages : List UInt32

def arguments (cs : List Call) : Arguments where
  dps := cs.filterMap fun | .setDPS dps => some dps | _ => none
  pings := cs.filterMap fun | .setPing ping => some ping | _ => none
  healths := cs.filterMap fun | .setTargetRemainingHealth targetHealth => some targetHealth | _ => none
  serverIndexes := cs.filterMap fun | .setServerIndex serverIndex => some serverIndex | _ => none
  damages := cs.filterMap fun | .trySetMaxDmg damage => some damage | _ => none

def Arguments.add (a : Arguments) : Call → Arguments
  | .setDPS dps => { a with dps := a.dps ++ [dps] }
  | .setPing ping => { a with pings := a.pings ++ [ping] }
  | .setTargetRemainingHealth targetHealth => { a with healths := a.healths ++ [targetHealth] }
  | .setServerIndex serverIndex => { a with serverIndexes := a.serverIndexes ++ [serverIndex] }
  | .trySetMaxDmg damage => { a with damages := a.damages ++ [damage] }

theorem arguments_append (cs : List Call) (c : Call) : arguments (cs ++ [c]) = (arguments cs).add c := by
  cases c <;> simp [arguments, Arguments.add]

def samples (vs : List UInt32) : List Rat := vs.map fun v => (v.toNat : Rat)

def IsMaximum (m : UInt32) (vs : List UInt32) : Prop := (∀ v ∈ vs, v ≤ m) ∧ (m ∈ vs ∨ vs = [] ∧ m = 0)

def knownServers (is : List UInt64) : List UInt64 := is.filter fun i => decide (i < UInt64.ofNat serverCount)

/-- What the store says of the calls made so far. The counter behind the average has 32 bits. -/
structure Summary (data : FOPDData) (a : Arguments) : Prop where
  dps : data.dps = a.dps.getLastD 0
  maxDps : IsMaximum data.maxDps a.dps
  maxDmg : IsMaximum data.maxDmg a.damages
  averageDpsN : data.averageDpsN = UInt32.ofNat a.dps.length
  averageDps : a.dps.length < 2 ^ 32 → data.averageDps = mean (samples a.dps)
  rollingAverage : Ring.Holds 0 data.rollingAverageArr data.rollingAverageNext.toNat a.dps
  ping : data.ping = a.pings.getLastD 0
  targetRemainingHealth : data.targetRemainingHealth = a.healths.getLastD 0
  serverIndex : data.serverIndex = (knownServers a.serverIndexes).getLastD 0

theorem le_larger_left (m v : UInt32) : m ≤ if v > m then v else m := by
  split
  next h => exact UInt32.le_of_lt h
  next => exact UInt32.le_refl m

theorem le_larger_right (m v : UInt32) : v ≤ if v > m then v else m := by
  split
  next => exact UInt32.le_refl v
  next h => exact UInt32.not_lt.mp h

theorem isMaximum_append {m v : UInt32} {vs : List UInt32} (h : IsMaximum m vs) :
    IsMaximum (if v > m then v else m) (vs ++ [v]) := by
  obtain ⟨hle, hmem⟩ := h
  rw [IsMaximum, List.forall_mem_append, List.forall_mem_singleton]
  refine ⟨⟨fun w hw => UInt32.le_trans (hle w hw) (le_larger_left m v), le_larger_right m v⟩, Or.inl ?_⟩
  split
  next => exact List.mem_append_right _ (List.mem_singleton_self v)
  next hmv =>
    rcases hmem with hmem | ⟨rfl, rfl⟩
    · exact List.mem_append_left _ hmem
    · have hv : v = 0 := UInt32.le_zero_iff.mp (UInt32.not_lt.mp hmv)
      exact List.mem_append_right _ (List.mem_singleton.mpr hv.symm)

theorem max_eq (m v : UInt32) : max m v = if v > m then v else m := by
  have hm : max m v = if m ≤ v then v else m := rfl
  rw [hm]
  split
  next hle =>
    split
    next => rfl
    next hlt => exact UInt32.le_antisymm (UInt32.not_lt.mp hlt) hle
  next hle => rw [if_neg fun hlt => hle (UInt32.le_of_lt hlt)]

theorem knownServers_append_lt {is : List UInt64} {i : UInt64} (h : i < UInt64.ofNat serverCount) :
    knownServers (is ++ [i]) = knownServers is ++ [i] := by
  rw [knownServers, List.filter_append, List.filter_cons_of_pos (by exact decide_eq_true h), List.filter_nil,
    ← knownServers]

theorem knownServers_append_ge {is : List UInt64} {i : UInt64} (h : UInt64.ofNat serverCount ≤ i) :
    knownServers (is ++ [i]) = knownServers is := by
  have hi : ¬ i < UInt64.ofNat serverCount := UInt64.not_lt.mpr h
  rw [knownServers, List.filter_append, List.filter_cons_of_neg (by rwa [decide_eq_true_eq]),
    List.filter_nil, List.append_nil, ← knownServers]

namespace Summary

variable {data : FOPDData} {a : Arguments}

theorem nil : Summary {} (arguments []) where
  dps := rfl
  maxDps := ⟨List.forall_mem_nil _, Or.inr ⟨rfl, rfl⟩⟩
  maxDmg := ⟨List.forall_mem_nil _, Or.inr ⟨rfl, rfl⟩⟩
  averageDpsN := rfl
  averageDps _ := by simp [samples, arguments, mean]
  rollingAverage := Ring.Holds.nil
  ping := rfl
  targetRemainingHealth := rfl
  serverIndex := rfl

theorem next_lt (h : Summary data a) : data.rollingAverageNext.toNat < rollingAveragePointCount := by
  rw [h.rollingAverage.next_eq]
  exact Nat.mod_lt _ (by decide)

theorem toNat_next (h : Summary data a) :
    ((data.rollingAverageNext + 1) % UInt32.ofNat rollingAveragePointCount).toNat =
      (data.rollingAverageNext.toNat + 1) % rollingAveragePointCount := by
  have hlt : data.rollingAverageNext.toNat < 50 := h.next_lt
  have hadd : (data.rollingAverageNext + 1).toNat = data.rollingAverageNext.toNat + 1 := by
    rw [UInt32.toNat_add, UInt32.toNat_one, Nat.mod_eq_of_lt (by omega)]
  rw [UInt32.toNat_mod, hadd]
  rfl

theorem average_setDPS (h : Summary data a) (dps : UInt32) (hlt : (a.dps ++ [dps]).length < 2 ^ 32) :
    data.averageDps + ((dps.toNat : Rat) - data.averageDps) / ((data.averageDpsN + 1).toNat : Rat) =
      mean (samples (a.dps ++ [dps])) := by
  rw [List.length_append, List.length_singleton] at hlt
  have hn : (data.averageDpsN + 1).toNat = a.dps.length + 1 := by
    rw [h.averageDpsN, UInt32.toNat_add, UInt32.toNat_ofNat', UInt32.toNat_one, Nat.mod_eq_of_lt (by omega),
      Nat.mod_eq_of_lt (by omega)]
  have hs : (samples a.dps).length = a.dps.length := List.length_map _
  have happ : samples (a.dps ++ [dps]) = samples a.dps ++ [(dps.toNat : Rat)] := List.map_append
  rw [hn, h.averageDps (by omega), happ, ← update_mean, hs, update]

theorem setDPS (h : Summary data a) (dps : UInt32) : Summary (data.setDPS dps) (a.add (.setDPS dps)) := by
  rw [FOPDData.setDPS_eq]
  refine ⟨?_, isMaximum_append h.maxDps, h.maxDmg, ?_, h.average_setDPS dps, ?_, h.ping,
    h.targetRemainingHealth, h.serverIndex⟩
  · rw [Arguments.add, List.getLastD_concat]
  · rw [Arguments.add, List.length_append, List.length_singleton, UInt32.ofNat_add, h.averageDpsN]
    rfl
  · rw [h.toNat_next]
    exact h.rollingAverage.push (by decide) dps

theorem setServerIndex (h : Summary data a) (serverIndex : UInt64) :
    Summary (data.setServerIndex serverIndex).2 (a.add (.setServerIndex serverIndex)) := by
  rw [FOPDData.setServerIndex_eq]
  refine ⟨h.dps, h.maxDps, h.maxDmg, h.averageDpsN, h.averageDps, h.rollingAverage, h.ping,
    h.targetRemainingHealth, ?_⟩
  simp only [Arguments.add]
  split
  next hge =>
    rw [knownServers_append_ge hge]
    exact h.serverIndex
  next hge => rw [knownServers_append_lt (UInt64.not_le.mp hge), List.getLastD_concat]

theorem trySetMaxDmg (h : Summary data a) (damage : UInt32) :
    Summary (data.trySetMaxDmg damage) (a.add (.trySetMaxDmg damage)) := by
  refine ⟨h.dps, h.maxDps, ?_, h.averageDpsN, h.averageDps, h.rollingAverage, h.ping,
    h.targetRemainingHealth, h.serverIndex⟩
  rw [FOPDData.trySetMaxDmg, max_eq]
  exact isMaximum_append h.maxDmg

theorem call (h : Summary data a) (c : Call) : Summary (call data c) (a.add c) := by
  cases c with
  | setDPS dps => exact h.setDPS dps
  | setPing ping =>
      exact ⟨h.dps, h.maxDps, h.maxDmg, h.averageDpsN, h.averageDps, h.rollingAverage,
        List.getLastD_concat.symm, h.targetRemainingHealth, h.serverIndex⟩
  | setTargetRemainingHealth targetHealth =>
      exact ⟨h.dps, h.maxDps, h.maxDmg, h.averageDpsN, h.averageDps, h.rollingAverage, h.ping,
        List.getLastD_concat.symm, h.serverIndex⟩
  | setServerIndex serverIndex => exact h.setServerIndex serverIndex
  | trySetMaxDmg damage => exact h.trySetMaxDmg damage

theorem dps_le_maxDps (h : Summary data a) : data.dps ≤ data.maxDps := by
  rw [h.dps]
  rcases List.eq_nil_or_concat' a.dps with hnil | ⟨us, dps, hdps⟩
  · rw [hnil]
    exact UInt32.zero_le
  · rw [hdps, List.getLastD_concat]
    apply h.maxDps.1
    rw [hdps]
    exact List.mem_concat_self

theorem serverIndex_lt (h : Summary data a) : data.serverIndex < UInt64.ofNat serverCount := by
  rw [h.serverIndex]
  rcases List.eq_nil_or_concat' (knownServers a.serverIndexes) with he | ⟨is, i, he⟩
  · rw [he]
    decide
  · have hi : i ∈ knownServers a.serverIndexes := by simp [he]
    rw [he, List.getLastD_concat]
    simpa using (List.mem_filter.mp hi).2

end Summary

theorem calls_append (data : FOPDData) (cs cs' : List Call) : calls data (cs ++ cs') = calls (calls data cs) cs' :=
  List.foldl_append

theorem summary_calls (cs : List Call) : Summary (calls {} cs) (arguments cs) := by
  induction cs using List.reverseRecOn with
  | nil => exact Summary.nil
  | append_singleton cs c ih =>
      rw [calls_append, arguments_append]
      exact ih.call c

theorem call_comm (data : FOPDData) (c c' : Call) (h : c.setter ≠ c'.setter) :
    call (call data c) c' = call (call data c') c := by
  cases c <;> cases c' <;> first
    | exact absurd rfl h
    | simp only [call, FOPDData.setDPS_eq, FOPDData.setServerIndex_eq, FOPDData.setPing,
        FOPDData.setTargetRemainingHealth, FOPDData.trySetMaxDmg]

/-- The store over all its life. After any calls of the setters its fields are what they should be of
the arguments given, and the order of calls of different setters has no effect. -/
theorem store_of_calls (cs : List Call) (h : (arguments cs).dps.length < 2 ^ 32) :
    (calls {} cs).dps = (arguments cs).dps.getLastD 0 ∧
    IsMaximum (calls {} cs).maxDps (arguments cs).dps ∧
    (calls {} cs).averageDps = mean (samples (arguments cs).dps) ∧
    IsMaximum (calls {} cs).maxDmg (arguments cs).damages ∧
    (calls {} cs).serverIndex = (knownServers (arguments cs).serverIndexes).getLastD 0 ∧
    (calls {} cs).serverIndex.toNat < foServers.size ∧
    (∀ i ≥ UInt64.ofNat serverCount, (calls {} cs).setServerIndex i = (false, calls {} cs)) ∧
    ∀ cs', (∀ setter, withKey Call.setter setter cs' = withKey Call.setter setter cs) →
      calls {} cs' = calls {} cs := by
  have hs := summary_calls cs
  refine ⟨hs.dps, hs.maxDps, hs.averageDps h, hs.maxDmg, hs.serverIndex, ?_, fun i hi => ?_,
    fun cs' hcs => ?_⟩
  · exact UInt64.lt_iff_toNat_lt.mp hs.serverIndex_lt
  · rw [FOPDData.setServerIndex, if_pos hi]
  · exact foldl_eq_of_withKey_eq call_comm hcs {}

theorem store_of_calls_five : ∃ cs : List Call, cs = [.setDPS 30, .setServerIndex 4, .trySetMaxDmg 20,
      .setServerIndex 12, .setDPS 10] ∧
    (calls {} cs).dps = 10 ∧ (calls {} cs).maxDps = 30 ∧ (calls {} cs).averageDps = mean (samples [30, 10]) ∧
    (calls {} cs).maxDmg = 20 ∧ (calls {} cs).serverIndex = 4 ∧
    calls {} [.setServerIndex 4, .setServerIndex 12, .setDPS 30, .setDPS 10, .trySetMaxDmg 20] = calls {} cs := by
  obtain ⟨h₁, -, h₃, -, h₅, -, -, h₈⟩ := store_of_calls [.setDPS 30, .setServerIndex 4, .trySetMaxDmg 20,
    .setServerIndex 12, .setDPS 10] (by decide)
  refine ⟨_, rfl, h₁, by decide +kernel, h₃, by decide +kernel, h₅, h₈ _ fun setter => ?_⟩
  cases setter <;> rfl

end Fopd.Statistics
