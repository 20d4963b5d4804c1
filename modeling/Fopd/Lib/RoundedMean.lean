import Fopd.Lib.Mean
import Fopd.Lib.Rounding

namespace Fopd.Lib.RoundedMean

open Mean Rounding

variable (g : Grid)

def update (a : ℚ) (n : ℕ) (v : ℚ) : ℚ := g.round (a + g.round (g.round (v - a) / ((n + 1 : ℕ) : ℚ)))

def running (p : ℚ × ℕ) (vs : List ℚ) : ℚ × ℕ := vs.foldl (fun p v => (update g p.1 p.2 v, p.2 + 1)) p

variable {g} {a b v : ℚ} {n m : ℕ}

theorem running_append (p : ℚ × ℕ) (us vs : List ℚ) : running g p (us ++ vs) = running g (running g p us) vs :=
  List.foldl_append

theorem running_snd (p : ℚ × ℕ) (vs : List ℚ) : (running g p vs).2 = p.2 + vs.length := by
  induction vs generalizing p with
  | nil => rfl
  | cons v vs ih =>
      rw [running, List.foldl_cons, ← running, ih, List.length_cons]
      omega

theorem on_update (a : ℚ) (n : ℕ) (v : ℚ) : g.On (update g a n v) := Grid.on_round _

theorem round_div_nonneg (h : a ≤ v) : 0 ≤ g.round (g.round (v - a) / ((n + 1 : ℕ) : ℚ)) :=
  Grid.round_nonneg (div_nonneg (Grid.round_nonneg (sub_nonneg.mpr h)) (Nat.cast_nonneg _))

theorem round_div_le (h : a ≤ v) : g.round (g.round (v - a) / ((n + 1 : ℕ) : ℚ)) ≤ g.round (v - a) := by
  apply Grid.round_le_of_on (Grid.on_round _)
  apply div_le_self (Grid.round_nonneg (sub_nonneg.mpr h))
  exact Nat.one_le_cast.mpr (Nat.succ_pos n)

theorem round_sub_comm (a v : ℚ) (n : ℕ) : g.round (g.round (v - a) / ((n + 1 : ℕ) : ℚ)) =
    -g.round (g.round (a - v) / ((n + 1 : ℕ) : ℚ)) := by
  rw [← neg_sub a v, Grid.round_neg, neg_div, Grid.round_neg]

theorem update_nonneg (hg : g.On a) (ha : 0 ≤ a) (hv : 0 ≤ v) : 0 ≤ update g a n v := by
  apply Grid.round_nonneg
  rcases le_total a v with h | h
  · exact add_nonneg ha (round_div_nonneg h)
  · rw [round_sub_comm, ← sub_eq_add_neg, sub_nonneg]
    exact (round_div_le h).trans (Grid.round_le_of_on hg (sub_le_self a hv))

theorem update_le (hm : 0 < m) (he : g.exponent m < 0) (ha : 0 ≤ a) (ham : a ≤ m) (hvm : v ≤ m) :
    update g a n v ≤ m := by
  apply Grid.round_le_natCast hm he
  have hulp := Grid.ulp_pos (g := g) m
  rcases lt_or_ge a v with h | h
  · have herr := (abs_le.mp (Grid.abs_round_sub_le (g := g) (v - a))).2
    have hle := round_div_le (g := g) (n := n) h.le
    have hmono : g.ulp (v - a) ≤ g.ulp m := by
      apply Grid.ulp_mono (sub_pos.mpr h).ne'
      rw [abs_of_pos (sub_pos.mpr h), Nat.abs_cast]
      linarith
    linarith
  · rw [round_sub_comm]
    have h0 := round_div_nonneg (g := g) (n := n) h
    linarith

theorem update_zero : update g 0 n 0 = 0 := by
  rw [update, sub_zero, Grid.round_zero, zero_div, Grid.round_zero, add_zero, Grid.round_zero]

/-- What a running mean on the grid keeps. -/
structure Between (g : Grid) (m : ℕ) (a : ℚ) : Prop where
  on : g.On a
  nonneg : 0 ≤ a
  le : a ≤ m

theorem Between.update (h : Between g m a) (he : g.exponent m < 0) (hv : 0 ≤ v) (hvm : v ≤ m) (n : ℕ) :
    Between g m (update g a n v) where
  on := on_update a n v
  nonneg := update_nonneg h.on h.nonneg hv
  le := by
    rcases Nat.eq_zero_or_pos m with rfl | hm
    · have ha := le_antisymm h.le (by rw [Nat.cast_zero]; exact h.nonneg)
      have hv' := le_antisymm hvm (by rw [Nat.cast_zero]; exact hv)
      rw [ha, hv', Nat.cast_zero, update_zero]
    · exact update_le hm he h.nonneg h.le hvm

/-- One error for the difference, one for the quotient and one for the sum. -/
theorem update_errors (h : Between g m a) (hm : g.On m) (hv : 0 ≤ v) (hvm : v ≤ m)
    (hfine : m = 0 ∨ 2 ^ (g.least + g.digits - 1) * ((n + 1 : ℕ) : ℚ) ≤ m) :
    ∃ d q : ℚ, |d - (v - a)| ≤ m / 2 ^ g.digits ∧
      |q - d / ((n + 1 : ℕ) : ℚ)| ≤ m / ((n + 1 : ℕ) : ℚ) / 2 ^ g.digits ∧
      |update g a n v - (a + q)| ≤ 2 * m / 2 ^ g.digits := by
  have hn : (1 : ℚ) ≤ ((n + 1 : ℕ) : ℚ) := Nat.one_le_cast.mpr (Nat.succ_pos n)
  have hn0 : (0 : ℚ) < ((n + 1 : ℕ) : ℚ) := one_pos.trans_le hn
  have hpow : (0 : ℚ) < 2 ^ (g.least + g.digits - 1) := zpow_pos two_pos _
  have hm0 : (0 : ℚ) ≤ m := Nat.cast_nonneg m
  have hquot : (m : ℚ) / ((n + 1 : ℕ) : ℚ) = 0 ∨ 2 ^ (g.least + g.digits - 1) ≤ (m : ℚ) / ((n + 1 : ℕ) : ℚ) := by
    apply hfine.imp
    · rintro rfl
      rw [Nat.cast_zero, zero_div]
    · exact (le_div_iff₀ hn0).mpr
  have hone : (m : ℚ) = 0 ∨ 2 ^ (g.least + g.digits - 1) ≤ (m : ℚ) := by
    apply hfine.imp (fun h => by rw [h, Nat.cast_zero])
    exact fun h => (le_mul_of_one_le_right hpow.le hn).trans h
  have htwo : 2 * (m : ℚ) = 0 ∨ 2 ^ (g.least + g.digits - 1) ≤ 2 * (m : ℚ) := by
    apply hone.imp (fun h => by rw [h, mul_zero])
    intro h
    linarith
  have hsub : |v - a| ≤ m := abs_le.mpr ⟨by linarith [h.le], by linarith [h.nonneg]⟩
  have hdiv : |g.round (v - a) / ((n + 1 : ℕ) : ℚ)| ≤ m / ((n + 1 : ℕ) : ℚ) := by
    rw [abs_div, abs_of_pos hn0]
    exact div_le_div_of_nonneg_right (Grid.abs_round_le_of_on hm hsub) hn0.le
  have hqm := Grid.abs_round_le_of_on hm (hdiv.trans (div_le_self hm0 hn))
  have hsum : |a + g.round (g.round (v - a) / ((n + 1 : ℕ) : ℚ))| ≤ 2 * m := by
    have ha : |a| ≤ m := abs_le.mpr ⟨by linarith [h.nonneg], h.le⟩
    linarith [abs_add_le a (g.round (g.round (v - a) / ((n + 1 : ℕ) : ℚ)))]
  exact ⟨_, _, Grid.abs_round_sub_le_of_le hone hsub, Grid.abs_round_sub_le_of_le hquot hdiv,
    Grid.abs_round_sub_le_of_le htwo hsum⟩

theorem abs_update_sub_le (h : Between g m a) (hm : g.On m) (hv : 0 ≤ v) (hvm : v ≤ m)
    (hfine : m = 0 ∨ 2 ^ (g.least + g.digits - 1) * ((n + 1 : ℕ) : ℚ) ≤ m) :
    ((n + 1 : ℕ) : ℚ) * |update g a n v - Mean.update b n v| ≤ n * |a - b| + (2 * n + 4) * (m / 2 ^ g.digits) := by
  obtain ⟨d, q, hd, hq, hs⟩ := update_errors h hm hv hvm hfine
  obtain ⟨s, hupdate⟩ : ∃ s, update g a n v = s := ⟨_, rfl⟩
  rw [hupdate] at hs ⊢
  have hn0 : (0 : ℚ) < ((n + 1 : ℕ) : ℚ) := Nat.cast_pos.mpr (Nat.succ_pos n)
  have hsplit : ((n + 1 : ℕ) : ℚ) * (s - Mean.update b n v) = n * (a - b) + (d - (v - a)) +
      ((n + 1 : ℕ) : ℚ) * (q - d / ((n + 1 : ℕ) : ℚ)) + ((n + 1 : ℕ) : ℚ) * (s - (a + q)) := by
    rw [Mean.update]
    field_simp
    push_cast
    ring
  calc ((n + 1 : ℕ) : ℚ) * |s - Mean.update b n v|
      = |n * (a - b) + (d - (v - a)) + ((n + 1 : ℕ) : ℚ) * (q - d / ((n + 1 : ℕ) : ℚ)) +
        ((n + 1 : ℕ) : ℚ) * (s - (a + q))| := by
        rw [← hsplit, abs_mul, Nat.abs_cast]
    _ ≤ |n * (a - b)| + |d - (v - a)| + |((n + 1 : ℕ) : ℚ) * (q - d / ((n + 1 : ℕ) : ℚ))| +
        |((n + 1 : ℕ) : ℚ) * (s - (a + q))| := by
        refine (abs_add_le _ _).trans (add_le_add_left ((abs_add_le _ _).trans (add_le_add_left (abs_add_le _ _) _)) _)
    _ ≤ n * |a - b| + m / 2 ^ g.digits + m / 2 ^ g.digits + ((n + 1 : ℕ) : ℚ) * (2 * m / 2 ^ g.digits) := by
        rw [abs_mul, abs_mul, abs_mul, Nat.abs_cast, Nat.abs_cast]
        have h2 : ((n + 1 : ℕ) : ℚ) * |q - d / ((n + 1 : ℕ) : ℚ)| ≤ m / 2 ^ g.digits := by
          calc ((n + 1 : ℕ) : ℚ) * |q - d / ((n + 1 : ℕ) : ℚ)|
              ≤ ((n + 1 : ℕ) : ℚ) * (m / ((n + 1 : ℕ) : ℚ) / 2 ^ g.digits) := mul_le_mul_of_nonneg_left hq hn0.le
            _ = m / 2 ^ g.digits := by field_simp
        have h3 := mul_le_mul_of_nonneg_left hs hn0.le
        linarith
    _ = n * |a - b| + (2 * n + 4) * (m / 2 ^ g.digits) := by
        push_cast
        ring

theorem between_running {vs : List ℚ} (he : g.exponent m < 0) (hvs : ∀ v ∈ vs, 0 ≤ v ∧ v ≤ m) {p : ℚ × ℕ}
    (hp : Between g m p.1) : Between g m (running g p vs).1 := by
  induction vs generalizing p with
  | nil => exact hp
  | cons v vs ih =>
      obtain ⟨hv, hvs⟩ := List.forall_mem_cons.mp hvs
      exact ih hvs (hp.update he hv.1 hv.2 p.2)

theorem between_zero (g : Grid) (m : ℕ) (hl : g.least ≤ 0) : Between g m 0 := by
  refine ⟨?_, le_rfl, Nat.cast_nonneg m⟩
  rw [← Nat.cast_zero]
  exact Grid.on_natCast (Nat.zero_le _) hl

/-- The errors add up to one digit per value and three more. -/
theorem abs_running_sub_mean_le {vs : List ℚ} (he : g.exponent m < 0) (hm : g.On m) (hl : g.least ≤ 0)
    (hvs : ∀ v ∈ vs, 0 ≤ v ∧ v ≤ m) (hfine : m = 0 ∨ 2 ^ (g.least + g.digits - 1) * (vs.length : ℚ) ≤ m) :
    |(running g (0, 0) vs).1 - mean vs| ≤ (vs.length + 3) * (m / 2 ^ g.digits) := by
  have hsum : vs.length * |(running g (0, 0) vs).1 - mean vs| ≤
      vs.length * (vs.length + 3) * (m / 2 ^ g.digits) := by
    induction vs using List.reverseRecOn with
    | nil => simp
    | append_singleton vs v ih =>
        obtain ⟨hvs, hv⟩ := List.forall_mem_append.mp hvs
        have hv := List.forall_mem_singleton.mp hv
        rw [List.length_append, List.length_singleton] at hfine ⊢
        have hpow : (0 : ℚ) < 2 ^ (g.least + g.digits - 1) := zpow_pos two_pos _
        have hbetween : Between g m (running g (0, 0) vs).1 := between_running he hvs (between_zero g m hl)
        have hrun : (running g (0, 0) (vs ++ [v])).1 = update g (running g (0, 0) vs).1 vs.length v := by
          rw [running_append]
          change update g (running g (0, 0) vs).1 (running g (0, 0) vs).2 v = _
          rw [running_snd, Nat.zero_add]
        have hstep := abs_update_sub_le (b := mean vs) hbetween hm hv.1 hv.2 hfine
        have ih := ih hvs (hfine.imp id fun h => le_trans (by
          apply mul_le_mul_of_nonneg_left _ hpow.le
          exact_mod_cast Nat.le_succ _) h)
        rw [hrun, ← update_mean]
        push_cast at hstep ⊢
        linarith
  rcases Nat.eq_zero_or_pos vs.length with h0 | h0
  · obtain rfl := List.eq_nil_of_length_eq_zero h0
    have hnil : (running g (0, 0) ([] : List ℚ)).1 - mean ([] : List ℚ) = 0 := by simp [running, mean]
    rw [hnil, abs_zero]
    positivity
  · have hpos : (0 : ℚ) < vs.length := Nat.cast_pos.mpr h0
    rw [mul_assoc] at hsum
    exact le_of_mul_le_mul_left hsum hpos

end Fopd.Lib.RoundedMean
