import Fopd.Lib.Double
import Fopd.Lib.RoundedMean
import Fopd.RollingAverage

namespace Fopd.Doubles

open Data Statistics RollingAverage Lib Lib.Mean Lib.Rounding Lib.Double Lib.RoundedMean

/-- The store, with the `double` next to the exact number. -/
structure FOPDDoubles where
  data : FOPDData := {}
  averageDps : Float := 0

/-- `a + (v - a) / n`, each operation rounded. -/
def step (a : Float) (v n : UInt32) : Float := a + (v.toFloat - a) / n.toFloat

namespace FOPDDoubles

def setDPS (s : FOPDDoubles) (dps : UInt32) : FOPDDoubles :=
  let data := s.data.setDPS dps
  ⟨data, step s.averageDps data.dps data.averageDpsN⟩

def call (s : FOPDDoubles) : Call → FOPDDoubles
  | .setDPS dps => s.setDPS dps
  | c => { s with data := Statistics.call s.data c }

def calls (s : FOPDDoubles) (cs : List Call) : FOPDDoubles := cs.foldl call s

def averageStep (p : Float × UInt32) (value : UInt32) : Float × UInt32 :=
  let n := p.2 + 1
  (step p.1 value n, n)

def getDPSRollingAverage (s : FOPDDoubles) : Float := (s.data.rollingAverageArr.toList.foldl averageStep (0, 0)).1

theorem data_calls (s : FOPDDoubles) (cs : List Call) : (s.calls cs).data = Statistics.calls s.data cs := by
  induction cs generalizing s with
  | nil => rfl
  | cons c cs ih =>
      have hc : (s.call c).data = Statistics.call s.data c := by
        cases c <;> rfl
      rw [calls, List.foldl_cons, ← calls, ih, hc]
      rfl

theorem averageDps_setDPS (s : FOPDDoubles) (dps : UInt32) :
    (s.setDPS dps).averageDps = step s.averageDps dps (s.data.averageDpsN + 1) := by
  rw [setDPS, FOPDData.setDPS_eq]

theorem calls_append (s : FOPDDoubles) (cs cs' : List Call) : s.calls (cs ++ cs') = (s.calls cs).calls cs' :=
  List.foldl_append

end FOPDDoubles

open FOPDDoubles

section Step

variable {a : Float} {x : ℚ} {m : ℕ} {v n : UInt32}

theorem on_of_lt (hm : m < 2 ^ 32) : binary64.On m := Grid.on_natCast (by change m ≤ 2 ^ 53; omega) (by decide)

theorem exponent_neg_of_lt (hm : m < 2 ^ 32) : binary64.exponent m < 0 := by
  rcases Nat.eq_zero_or_pos m with rfl | hpos
  · have h0 : binary64.exponent ((0 : ℕ) : ℚ) = -52 := by
      rw [Nat.cast_zero, Grid.exponent, abs_zero, Int.log_zero_right]
      rfl
    omega
  · have hle : binary64.exponent m ≤ -1 := by
      apply Grid.exponent_le (Nat.cast_ne_zero.mpr hpos.ne') (by decide)
      rw [Nat.abs_cast]
      calc (m : ℚ) < 2 ^ 32 := by exact_mod_cast hm
        _ ≤ 2 ^ (binary64.digits + (-1 : ℤ)) := by
          rw [← zpow_natCast]
          exact zpow_le_zpow_right₀ one_le_two (by decide)
    omega

theorem hasValue_zero : HasValue 0 0 := by
  have h := HasValue.of_uint32 0
  rwa [UInt32.toNat_zero, Nat.cast_zero] at h

theorem hasValue_step (h : HasValue a x) (hb : Between binary64 m x) (hm : m < 2 ^ 32) (hv : v.toNat ≤ m) {k : ℕ}
    (hn : n.toNat = k + 1) : HasValue (step a v n) (update binary64 x k v.toNat) := by
  have hfinite {y : ℚ} (hy : |y| ≤ m) : |y| < 2 ^ 1024 := by
    calc |y| ≤ m := hy
      _ < 2 ^ 32 := by exact_mod_cast hm
      _ ≤ 2 ^ 1024 := pow_le_pow_right₀ one_le_two (by norm_num)
  have hvm : (v.toNat : ℚ) ≤ m := Nat.cast_le.mpr hv
  have hv0 : (0 : ℚ) ≤ v.toNat := Nat.cast_nonneg _
  have hn' : HasValue n.toFloat ((k + 1 : ℕ) : ℚ) := hn ▸ HasValue.of_uint32 n
  have hk : (1 : ℚ) ≤ ((k + 1 : ℕ) : ℚ) := Nat.one_le_cast.mpr (Nat.succ_pos k)
  have hd : |binary64.round (v.toNat - x)| ≤ m := by
    apply Grid.abs_round_le_of_on (on_of_lt hm)
    exact abs_le.mpr ⟨by linarith [hb.le], by linarith [hb.nonneg]⟩
  have hq : |binary64.round (binary64.round (v.toNat - x) / ((k + 1 : ℕ) : ℚ))| ≤ m := by
    apply Grid.abs_round_le_of_on (on_of_lt hm)
    rw [abs_div, Nat.abs_cast]
    exact (div_le_self (abs_nonneg _) hk).trans hd
  have hs := hb.update (exponent_neg_of_lt hm) hv0 hvm k
  have hsub := (HasValue.of_uint32 v).sub h (hfinite hd)
  have hdiv := hsub.div hn' (one_pos.trans_le hk).ne' (hfinite hq)
  exact h.add hdiv (hfinite ((abs_of_nonneg hs.nonneg).trans_le hs.le))

end Step

section Averages

variable {m : ℕ} {vs : List UInt32}

theorem samples_mem (hvs : ∀ v ∈ vs, v.toNat ≤ m) : ∀ x ∈ samples vs, 0 ≤ x ∧ x ≤ m := by
  intro x hx
  obtain ⟨v, hv, rfl⟩ := List.mem_map.mp hx
  exact ⟨Nat.cast_nonneg _, Nat.cast_le.mpr (hvs v hv)⟩

theorem hasValue_foldl (hm : m < 2 ^ 32) (hvs : ∀ v ∈ vs, v.toNat ≤ m) {a : Float} {x : ℚ} {n : UInt32}
    (h : HasValue a x) (hb : Between binary64 m x) (hlt : n.toNat + vs.length < 2 ^ 32) :
    HasValue (vs.foldl averageStep (a, n)).1 (RoundedMean.running binary64 (x, n.toNat) (samples vs)).1 := by
  induction vs generalizing a x n with
  | nil => exact h
  | cons v vs ih =>
      obtain ⟨hv, hvs⟩ := List.forall_mem_cons.mp hvs
      rw [List.length_cons] at hlt
      have hn : (n + 1).toNat = n.toNat + 1 := by
        rw [UInt32.toNat_add, UInt32.toNat_one, Nat.mod_eq_of_lt (by omega)]
      have hstep := ih (n := n + 1) hvs (hasValue_step h hb hm hv hn)
        (hb.update (exponent_neg_of_lt hm) (Nat.cast_nonneg _) (Nat.cast_le.mpr hv) n.toNat) (by omega)
      rw [hn] at hstep
      exact hstep

/-- Of the doubles in a store that went through these values. -/
theorem hasValue_average (cs : List Call) (hm : m < 2 ^ 32) (hvs : ∀ v ∈ (arguments cs).dps, v.toNat ≤ m)
    (hlt : (arguments cs).dps.length < 2 ^ 32) :
    HasValue (({} : FOPDDoubles).calls cs).averageDps
      (RoundedMean.running binary64 (0, 0) (samples (arguments cs).dps)).1 := by
  induction cs using List.reverseRecOn with
  | nil => exact hasValue_zero
  | append_singleton cs c ih =>
      rw [arguments_append] at hvs hlt ⊢
      rw [FOPDDoubles.calls_append]
      cases c with
      | setDPS dps =>
          obtain ⟨hvs, hv⟩ := List.forall_mem_append.mp hvs
          rw [Arguments.add, List.length_append, List.length_singleton] at hlt
          have hsamples : samples ((arguments cs).add (.setDPS dps)).dps =
              samples (arguments cs).dps ++ [(dps.toNat : ℚ)] := samples_append _ [dps]
          have hn : ((({} : FOPDDoubles).calls cs).data.averageDpsN + 1).toNat = (arguments cs).dps.length + 1 := by
            rw [data_calls, (summary_calls cs).averageDpsN, UInt32.toNat_add, UInt32.toNat_ofNat',
              UInt32.toNat_one, Nat.mod_eq_of_lt (a := (arguments cs).dps.length) (by omega),
              Nat.mod_eq_of_lt (by omega)]
          have hbetween : Between binary64 m (RoundedMean.running binary64 (0, 0) (samples (arguments cs).dps)).1 :=
            between_running (exponent_neg_of_lt hm) (samples_mem hvs) (between_zero binary64 m (by decide))
          have hsnd : (RoundedMean.running binary64 (0, 0) (samples (arguments cs).dps)).2 =
              (arguments cs).dps.length := by
            rw [running_snd, Nat.zero_add, samples, List.length_map]
          have hstep := hasValue_step (ih hvs (by omega)) hbetween hm (hv dps (List.mem_singleton_self dps)) hn
          rw [← averageDps_setDPS, ← hsnd] at hstep
          rw [hsamples, running_append]
          exact hstep
      | setPing | setTargetRemainingHealth | setServerIndex | trySetMaxDmg => exact ih hvs hlt

theorem hasValue_rollingAverage {s : FOPDDoubles} (hm : m < 2 ^ 32)
    (hvs : ∀ v ∈ s.data.rollingAverageArr.toList, v.toNat ≤ m) :
    HasValue s.getDPSRollingAverage (RoundedMean.running binary64 (0, 0) (samples s.data.rollingAverageArr.toList)).1 := by
  have hlen : s.data.rollingAverageArr.toList.length = 50 := Vector.length_toList
  have hfold := hasValue_foldl (n := 0) hm hvs hasValue_zero (between_zero binary64 m (by decide))
    (by rw [hlen]; decide)
  rwa [UInt32.toNat_zero] at hfold

theorem le_maxDps {data : FOPDData} {a : Arguments} (h : Summary data a) : ∀ v ∈ a.dps, v.toNat ≤ data.maxDps.toNat :=
  fun v hv => UInt32.le_iff_toNat_le.mp (h.maxDps.1 v hv)

theorem slot_le_maxDps {data : FOPDData} {a : Arguments} (h : Summary data a) :
    ∀ v ∈ data.rollingAverageArr.toList, v.toNat ≤ data.maxDps.toNat := by
  intro v hv
  rcases List.mem_append.mp (h.rollingAverage.perm.subset hv) with hr | hz
  · exact le_maxDps h v (List.mem_of_mem_drop hr)
  · rw [List.eq_of_mem_replicate hz]
    exact Nat.zero_le _

/-- The distance of the computed mean to the mean, for as many values as the counter can count. -/
theorem abs_running_sub_le (hm : m < 2 ^ 32) (hvs : ∀ v ∈ vs, v.toNat ≤ m) (hlt : vs.length < 2 ^ 32) :
    |(RoundedMean.running binary64 (0, 0) (samples vs)).1 - mean (samples vs)| ≤ (vs.length + 3) * (m / 2 ^ 53) := by
  have hfine : m = 0 ∨ 2 ^ (binary64.least + binary64.digits - 1) * ((samples vs).length : ℚ) ≤ m := by
    apply (Nat.eq_zero_or_pos m).imp id
    intro hpos
    have hlen : ((samples vs).length : ℚ) ≤ 2 ^ 32 := by
      rw [samples, List.length_map]
      exact_mod_cast hlt.le
    calc (2 : ℚ) ^ (binary64.least + binary64.digits - 1) * ((samples vs).length : ℚ)
        ≤ 2 ^ (-32 : ℤ) * 2 ^ 32 :=
          mul_le_mul (zpow_le_zpow_right₀ one_le_two (by decide)) hlen (Nat.cast_nonneg _) (by positivity)
      _ = 1 := by norm_num
      _ ≤ m := Nat.one_le_cast.mpr hpos
  have h := abs_running_sub_mean_le (exponent_neg_of_lt hm) (on_of_lt hm) (by decide) (samples_mem hvs) hfine
  rwa [samples, List.length_map] at h

end Averages

/-- As long as the counter does not start again both averages are numbers between 0 and the maximum. -/
theorem averages_between (cs : List Call) (h : (arguments cs).dps.length < 2 ^ 32) :
    0 ≤ (({} : FOPDDoubles).calls cs).averageDps ∧
    (({} : FOPDDoubles).calls cs).averageDps ≤ (({} : FOPDDoubles).calls cs).data.maxDps.toFloat ∧
    0 ≤ (({} : FOPDDoubles).calls cs).getDPSRollingAverage ∧
    (({} : FOPDDoubles).calls cs).getDPSRollingAverage ≤ (({} : FOPDDoubles).calls cs).data.maxDps.toFloat := by
  have hs : Summary (({} : FOPDDoubles).calls cs).data (arguments cs) := by
    rw [data_calls]
    exact summary_calls cs
  have hm := (({} : FOPDDoubles).calls cs).data.maxDps.toNat_lt
  have hmax := HasValue.of_uint32 (({} : FOPDDoubles).calls cs).data.maxDps
  have havg := hasValue_average cs hm (le_maxDps hs) h
  have hroll := hasValue_rollingAverage hm (slot_le_maxDps hs)
  have hbetween {vs : List UInt32} (hvs : ∀ v ∈ vs, v.toNat ≤ (({} : FOPDDoubles).calls cs).data.maxDps.toNat) :
      Between binary64 (({} : FOPDDoubles).calls cs).data.maxDps.toNat
        (RoundedMean.running binary64 (0, 0) (samples vs)).1 :=
    between_running (exponent_neg_of_lt hm) (samples_mem hvs) (between_zero binary64 _ (by decide))
  exact ⟨(hasValue_zero.le_iff havg).mpr (hbetween (le_maxDps hs)).nonneg,
    (havg.le_iff hmax).mpr (hbetween (le_maxDps hs)).le,
    (hasValue_zero.le_iff hroll).mpr (hbetween (slot_le_maxDps hs)).nonneg,
    (hroll.le_iff hmax).mpr (hbetween (slot_le_maxDps hs)).le⟩

theorem averages_between_third : 0 ≤ (({} : FOPDDoubles).calls [.setDPS 1, .setDPS 0, .setDPS 0]).averageDps ∧
    (({} : FOPDDoubles).calls [.setDPS 1, .setDPS 0, .setDPS 0]).averageDps ≤ (1 : UInt32).toFloat := by
  obtain ⟨h₁, h₂, -, -⟩ := averages_between [.setDPS 1, .setDPS 0, .setDPS 0] (by decide)
  exact ⟨h₁, h₂⟩

theorem averageDps_error (cs : List Call) (h : (arguments cs).dps.length < 2 ^ 32) :
    ∃ x, HasValue (({} : FOPDDoubles).calls cs).averageDps x ∧
      |x - (Statistics.calls {} cs).averageDps| ≤
        ((arguments cs).dps.length + 3) * ((Statistics.calls {} cs).maxDps.toNat / 2 ^ 53) := by
  have hs := summary_calls cs
  have hm := (Statistics.calls {} cs).maxDps.toNat_lt
  refine ⟨_, hasValue_average cs hm (le_maxDps hs) h, ?_⟩
  rw [hs.averageDps h]
  exact abs_running_sub_le hm (le_maxDps hs) h

theorem rollingAverage_error (cs : List Call) :
    ∃ x, HasValue (({} : FOPDDoubles).calls cs).getDPSRollingAverage x ∧
      |x - (Statistics.calls {} cs).getDPSRollingAverage| ≤
        53 * ((Statistics.calls {} cs).maxDps.toNat / 2 ^ 53) := by
  have hm := (Statistics.calls {} cs).maxDps.toNat_lt
  have hlen : (Statistics.calls {} cs).rollingAverageArr.toList.length = 50 := Vector.length_toList
  have hslots := slot_le_maxDps (summary_calls cs)
  have hmean : (Statistics.calls {} cs).getDPSRollingAverage =
      mean (samples (Statistics.calls {} cs).rollingAverageArr.toList) := by
    rw [getDPSRollingAverage_eq, mean, samples, List.length_map, hlen]
  have herror := abs_running_sub_le hm hslots (by rw [hlen]; decide)
  rw [← data_calls ({} : FOPDDoubles)] at hm hslots
  refine ⟨_, hasValue_rollingAverage hm hslots, ?_⟩
  rw [hlen] at herror
  rw [hmean, data_calls]
  norm_num at herror ⊢
  exact herror

/-- The error of the average grows with the number of values, that of the rolling average does not. -/
theorem averages_error (cs : List Call) :
    ((arguments cs).dps.length < 2 ^ 32 → ∃ x, HasValue (({} : FOPDDoubles).calls cs).averageDps x ∧
      |x - (Statistics.calls {} cs).averageDps| ≤
        ((arguments cs).dps.length + 3) * ((Statistics.calls {} cs).maxDps.toNat / 2 ^ 53)) ∧
    ∃ x, HasValue (({} : FOPDDoubles).calls cs).getDPSRollingAverage x ∧
      |x - (Statistics.calls {} cs).getDPSRollingAverage| ≤
        53 * ((Statistics.calls {} cs).maxDps.toNat / 2 ^ 53) :=
  ⟨averageDps_error cs, rollingAverage_error cs⟩

theorem averages_error_third :
    ∃ x, HasValue (({} : FOPDDoubles).calls [.setDPS 1, .setDPS 0, .setDPS 0]).averageDps x ∧
      |x - (Statistics.calls {} [.setDPS 1, .setDPS 0, .setDPS 0]).averageDps| ≤ 6 / 2 ^ 53 := by
  obtain ⟨haverage, -⟩ := averages_error [.setDPS 1, .setDPS 0, .setDPS 0]
  obtain ⟨x, hx, herror⟩ := haverage (by decide)
  refine ⟨x, hx, herror.trans_eq ?_⟩
  have hlen : (arguments [.setDPS 1, .setDPS 0, .setDPS 0]).dps.length = 3 := by decide
  have hmax : (Statistics.calls {} [.setDPS 1, .setDPS 0, .setDPS 0]).maxDps.toNat = 1 := by decide
  rw [hlen, hmax]
  norm_num

theorem isFinite_step_of_not {a : Float} (h : a.isFinite = false) (v n : UInt32) : (step a v n).isFinite = false :=
  isFinite_add (Or.inl h)

theorem isFinite_step_zero (a : Float) (v : UInt32) : (step a v 0).isFinite = false := by
  have h0 : HasValue (0 : UInt32).toFloat 0 := hasValue_zero
  exact isFinite_add (Or.inr (isFinite_div_zero h0))

theorem averageDps_not_isFinite (cs : List Call) (h : 2 ^ 32 ≤ (arguments cs).dps.length) :
    (({} : FOPDDoubles).calls cs).averageDps.isFinite = false := by
  induction cs using List.reverseRecOn with
  | nil => exact absurd h (by decide)
  | append_singleton cs c ih =>
      rw [arguments_append] at h
      rw [FOPDDoubles.calls_append]
      cases c with
      | setDPS dps =>
          change ((({} : FOPDDoubles).calls cs).setDPS dps).averageDps.isFinite = false
          rw [Arguments.add, List.length_append, List.length_singleton] at h
          rw [averageDps_setDPS]
          rcases Nat.lt_or_ge (arguments cs).dps.length (2 ^ 32) with hlt | hge
          · have hn : (({} : FOPDDoubles).calls cs).data.averageDpsN + 1 = 0 := by
              have hlen : (arguments cs).dps.length = 2 ^ 32 - 1 := by omega
              rw [data_calls, (summary_calls cs).averageDpsN, hlen]
              decide
            rw [hn]
            exact isFinite_step_zero _ dps
          · exact isFinite_step_of_not (ih hge) _ _
      | setPing | setTargetRemainingHealth | setServerIndex | trySetMaxDmg => exact ih h

/-- The counter starts again after 2^32 values, and from then on the average is not a number. -/
theorem averageDps_isFinite_iff (cs : List Call) :
    (({} : FOPDDoubles).calls cs).averageDps.isFinite = true ↔ (arguments cs).dps.length < 2 ^ 32 := by
  constructor
  · intro h
    by_contra hge
    rw [averageDps_not_isFinite cs (not_lt.mp hge)] at h
    exact nomatch h
  · intro h
    have hs := summary_calls cs
    exact (hasValue_average cs (Statistics.calls {} cs).maxDps.toNat_lt (le_maxDps hs) h).isFinite

end Fopd.Doubles
