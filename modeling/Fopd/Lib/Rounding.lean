import Mathlib.Algebra.Order.Field.Power
import Mathlib.Algebra.Order.Round
import Mathlib.Data.Int.Log
import Mathlib.Data.Rat.Floor
import Mathlib.Tactic.FieldSimp
import Mathlib.Tactic.Linarith
import Mathlib.Tactic.Positivity
import Mathlib.Tactic.Ring

namespace Fopd.Lib.Rounding

/-- The nearest integer, of two the even one. -/
def roundEven (x : ℚ) : ℤ :=
  if 2 * Int.fract x < 1 then ⌊x⌋
  else if 2 * Int.fract x = 1 then ⌊x⌋ + ⌊x⌋ % 2
  else ⌊x⌋ + 1

section RoundEven

variable {x y : ℚ} {n : ℤ}

theorem roundEven_of_lt (hn : (n : ℚ) ≤ x) (hx : 2 * x < 2 * n + 1) : roundEven x = n := by
  have hf : ⌊x⌋ = n := Int.floor_eq_iff.mpr ⟨hn, by linarith⟩
  rw [roundEven, Int.fract, hf, if_pos (by linarith)]

theorem roundEven_of_eq (hx : 2 * x = 2 * n + 1) : roundEven x = n + n % 2 := by
  have hf : ⌊x⌋ = n := Int.floor_eq_iff.mpr ⟨by linarith, by linarith⟩
  rw [roundEven, Int.fract, hf, if_neg (by linarith), if_pos (by linarith)]

theorem roundEven_of_gt (hx : 2 * n + 1 < 2 * x) (hn : x < n + 1) : roundEven x = n + 1 := by
  have hf : ⌊x⌋ = n := Int.floor_eq_iff.mpr ⟨by linarith, hn⟩
  rw [roundEven, Int.fract, hf, if_neg (by linarith), if_neg (by linarith)]

theorem roundEven_intCast (n : ℤ) : roundEven n = n := roundEven_of_lt le_rfl (by linarith)

/-- Where a number lies between two integers decides how it is rounded. -/
theorem roundEven_cases (x : ℚ) : ∃ n : ℤ, (n : ℚ) ≤ x ∧ x < n + 1 ∧
    (2 * x < 2 * n + 1 ∧ roundEven x = n ∨ 2 * x = 2 * n + 1 ∧ roundEven x = n + n % 2 ∨
      2 * n + 1 < 2 * x ∧ roundEven x = n + 1) := by
  have hlo := Int.floor_le x
  have hhi := Int.lt_floor_add_one x
  refine ⟨⌊x⌋, hlo, hhi, ?_⟩
  rcases lt_trichotomy (2 * x) (2 * ⌊x⌋ + 1) with h | h | h
  · exact Or.inl ⟨h, roundEven_of_lt hlo h⟩
  · exact Or.inr (Or.inl ⟨h, roundEven_of_eq h⟩)
  · exact Or.inr (Or.inr ⟨h, roundEven_of_gt h hhi⟩)

theorem abs_roundEven_sub_le (x : ℚ) : |(roundEven x : ℚ) - x| ≤ 1 / 2 := by
  obtain ⟨n, hlo, hhi, ⟨h, he⟩ | ⟨h, he⟩ | ⟨h, he⟩⟩ := roundEven_cases x <;> rw [he, abs_le]
  · constructor <;> linarith
  · rcases Int.emod_two_eq_zero_or_one n with hm | hm <;> rw [hm] <;> push_cast <;> constructor <;> linarith
  · push_cast
    constructor <;> linarith

theorem le_roundEven (h : (n : ℚ) ≤ x) : n ≤ roundEven x := by
  have herr := abs_le.mp (abs_roundEven_sub_le x)
  have hlt : (n : ℚ) < roundEven x + 1 := by linarith
  exact Int.lt_add_one_iff.mp (by exact_mod_cast hlt)

theorem roundEven_le (h : x ≤ n) : roundEven x ≤ n := by
  have herr := abs_le.mp (abs_roundEven_sub_le x)
  have hlt : (roundEven x : ℚ) < n + 1 := by linarith
  exact Int.lt_add_one_iff.mp (by exact_mod_cast hlt)

/-- No integer is nearer. -/
theorem abs_roundEven_sub_le_abs (x : ℚ) (n : ℤ) : |(roundEven x : ℚ) - x| ≤ |(n : ℚ) - x| := by
  rcases eq_or_ne n (roundEven x) with rfl | hne
  · exact le_rfl
  · have h1 : (1 : ℚ) ≤ |(n : ℚ) - roundEven x| := by
      exact_mod_cast Int.one_le_abs (sub_ne_zero.mpr hne)
    have h2 := abs_roundEven_sub_le x
    have h3 : |(n : ℚ) - roundEven x| ≤ |(n : ℚ) - x| + |(roundEven x : ℚ) - x| := by
      rw [abs_sub_comm (roundEven x : ℚ) x]
      exact abs_sub_le _ _ _
    linarith

/-- What is nearest to the larger number is not less than what is nearest to the smaller one. -/
theorem le_of_nearest {p q : ℚ} (hlt : x < y) (hx : |p - x| ≤ |q - x|) (hy : |q - y| ≤ |p - y|) : p ≤ q := by
  by_contra hgt
  have hprod := mul_pos (sub_pos.mpr (not_le.mp hgt)) (sub_pos.mpr hlt)
  linarith [sq_le_sq.mpr hx, sq_le_sq.mpr hy]

theorem roundEven_mono (h : x ≤ y) : roundEven x ≤ roundEven y := by
  rcases eq_or_lt_of_le h with rfl | hlt
  · exact le_rfl
  · have hle := le_of_nearest hlt (abs_roundEven_sub_le_abs x (roundEven y)) (abs_roundEven_sub_le_abs y (roundEven x))
    exact_mod_cast hle

theorem roundEven_neg (x : ℚ) : roundEven (-x) = -roundEven x := by
  obtain ⟨n, hlo, hhi, ⟨h, he⟩ | ⟨h, he⟩ | ⟨h, he⟩⟩ := roundEven_cases x <;> rw [he]
  · rcases eq_or_lt_of_le hlo with rfl | hlt
    · rw [← Int.cast_neg, roundEven_intCast]
    · have h' := roundEven_of_gt (x := -x) (n := -n - 1) (by push_cast; linarith) (by push_cast; linarith)
      rw [h']
      ring
  · have h' := roundEven_of_eq (x := -x) (n := -n - 1) (by push_cast; linarith)
    rw [h']
    omega
  · have h' := roundEven_of_lt (x := -x) (n := -n - 1) (by push_cast; linarith) (by push_cast; linarith)
    rw [h']
    ring

end RoundEven

/-- The numbers with a fixed count of digits, with an exponent that is not too small. -/
structure Grid where
  digits : ℕ
  least : ℤ
  digits_pos : 0 < digits

namespace Grid

variable (g : Grid)

/-- The exponent of the last digit. -/
def exponent (x : ℚ) : ℤ := max (Int.log 2 |x| + 1 - g.digits) g.least

def ulp (x : ℚ) : ℚ := 2 ^ g.exponent x

def round (x : ℚ) : ℚ := roundEven (x / g.ulp x) * g.ulp x

/-- The numbers that are on the grid. -/
def On (x : ℚ) : Prop := ∃ m e : ℤ, |m| ≤ 2 ^ g.digits ∧ g.least ≤ e ∧ x = m * 2 ^ e

variable {g} {x y v b : ℚ} {t : ℤ}

theorem ulp_pos (x : ℚ) : 0 < g.ulp x := zpow_pos two_pos _

theorem exponent_neg (x : ℚ) : g.exponent (-x) = g.exponent x := by
  rw [exponent, exponent, abs_neg]

theorem exponent_le (hx : x ≠ 0) (ht : g.least ≤ t) (hlt : |x| < 2 ^ (g.digits + t)) : g.exponent x ≤ t := by
  have hlog : Int.log 2 |x| < g.digits + t :=
    (Int.lt_zpow_iff_log_lt one_lt_two (abs_pos.mpr hx)).mp (by exact_mod_cast hlt)
  exact max_le (by omega) ht

theorem exponent_mono (hx : x ≠ 0) (h : |x| ≤ |y|) : g.exponent x ≤ g.exponent y := by
  have hlog : Int.log 2 |x| ≤ Int.log 2 |y| := Int.log_mono_right (abs_pos.mpr hx) h
  exact max_le_max (by omega) le_rfl

theorem ulp_mono (hx : x ≠ 0) (h : |x| ≤ |y|) : g.ulp x ≤ g.ulp y :=
  zpow_le_zpow_right₀ one_le_two (exponent_mono hx h)

theorem abs_lt_ulp (x : ℚ) : |x| < 2 ^ g.digits * g.ulp x := by
  have hlog : |x| < 2 ^ (Int.log 2 |x| + 1) := by exact_mod_cast Int.lt_zpow_succ_log_self one_lt_two |x|
  have hle : Int.log 2 |x| + 1 ≤ g.digits + g.exponent x := by
    have := le_max_left (Int.log 2 |x| + 1 - g.digits) g.least
    rw [exponent]
    omega
  rw [ulp, ← zpow_natCast, ← zpow_add₀ two_ne_zero]
  exact hlog.trans_le (zpow_le_zpow_right₀ one_le_two hle)

/-- Away from the least exponent all digits count. -/
theorem ulp_le_abs (hx : x ≠ 0) (h : g.least < g.exponent x) : 2 ^ (g.digits - 1) * g.ulp x ≤ |x| := by
  have hexp : g.exponent x = Int.log 2 |x| + 1 - g.digits := by
    rw [exponent] at h ⊢
    omega
  have hlog : (2 : ℚ) ^ Int.log 2 |x| ≤ |x| := by exact_mod_cast Int.zpow_log_le_self one_lt_two (abs_pos.mpr hx)
  have hdigits := g.digits_pos
  rw [ulp, hexp, ← zpow_natCast, ← zpow_add₀ two_ne_zero]
  convert hlog using 2
  omega

theorem round_zero : g.round 0 = 0 := by
  rw [round, zero_div, ← Int.cast_zero, roundEven_intCast, Int.cast_zero, zero_mul]

theorem round_neg (x : ℚ) : g.round (-x) = -g.round x := by
  rw [round, round, ulp, exponent_neg, neg_div, roundEven_neg, Int.cast_neg, neg_mul]
  rfl

theorem abs_roundEven_div_ulp_le (x : ℚ) : |roundEven (x / g.ulp x)| ≤ 2 ^ g.digits := by
  have hlt : |x / g.ulp x| ≤ ((2 ^ g.digits : ℤ) : ℚ) := by
    rw [abs_div, abs_of_pos (ulp_pos x), div_le_iff₀ (ulp_pos x)]
    push_cast
    exact (abs_lt_ulp x).le
  have hle := abs_le.mp hlt
  exact abs_le.mpr ⟨le_roundEven (by rw [Int.cast_neg]; exact hle.1), roundEven_le hle.2⟩

theorem on_round (x : ℚ) : g.On (g.round x) :=
  ⟨roundEven (x / g.ulp x), g.exponent x, abs_roundEven_div_ulp_le x, le_max_right _ _, rfl⟩

theorem abs_round_sub (x : ℚ) : |g.round x - x| = |(roundEven (x / g.ulp x) : ℚ) - x / g.ulp x| * g.ulp x := by
  have hu := ulp_pos (g := g) x
  rw [← abs_of_pos hu, ← abs_mul, abs_of_pos hu, sub_mul, div_mul_cancel₀ x hu.ne', round]

theorem abs_round_sub_le (x : ℚ) : |g.round x - x| ≤ g.ulp x / 2 := by
  have h := mul_le_mul_of_nonneg_right (abs_roundEven_sub_le (x / g.ulp x)) (ulp_pos (g := g) x).le
  rwa [← abs_round_sub, one_div_mul_eq_div] at h

theorem abs_round_sub_le_multiple (x : ℚ) (m : ℤ) : |g.round x - x| ≤ |m * g.ulp x - x| := by
  have hu := ulp_pos (g := g) x
  have hm : |m * g.ulp x - x| = |(m : ℚ) - x / g.ulp x| * g.ulp x := by
    rw [← abs_of_pos hu, ← abs_mul, abs_of_pos hu, sub_mul, div_mul_cancel₀ x hu.ne']
  rw [abs_round_sub, hm]
  exact mul_le_mul_of_nonneg_right (abs_roundEven_sub_le_abs _ m) hu.le

theorem abs_round_sub_le_of_on (x : ℚ) (hy : g.On y) : |g.round x - x| ≤ |y - x| := by
  obtain ⟨m, e, hm, he, rfl⟩ := hy
  rcases eq_or_ne x 0 with rfl | hx
  · rw [round_zero, sub_self, abs_zero]
    exact abs_nonneg _
  rcases le_or_gt (g.exponent x) e with hle | hlt
  · obtain ⟨k, rfl⟩ := Int.le.dest hle
    have hmul : (m : ℚ) * 2 ^ (g.exponent x + k) = ((m * 2 ^ k : ℤ) : ℚ) * g.ulp x := by
      rw [zpow_add₀ two_ne_zero, zpow_natCast, ulp]
      push_cast
      ring
    rw [hmul]
    exact abs_round_sub_le_multiple x _
  · have hbound : 2 ^ (g.digits - 1) * g.ulp x ≤ |x| := ulp_le_abs hx (he.trans_lt hlt)
    have hsmall : |(m : ℚ) * 2 ^ e| ≤ 2 ^ (g.digits - 1) * g.ulp x := by
      have hm' : |(m : ℚ)| ≤ 2 ^ g.digits := by exact_mod_cast hm
      have hdigits := g.digits_pos
      calc |(m : ℚ) * 2 ^ e| = |(m : ℚ)| * 2 ^ e := by rw [abs_mul, abs_of_pos (zpow_pos (two_pos (α := ℚ)) e)]
        _ ≤ 2 ^ g.digits * 2 ^ e := mul_le_mul_of_nonneg_right hm' (zpow_pos two_pos e).le
        _ = 2 ^ (g.digits + e) := by rw [← zpow_natCast, ← zpow_add₀ two_ne_zero]
        _ ≤ 2 ^ ((g.digits - 1 : ℕ) + g.exponent x) := zpow_le_zpow_right₀ one_le_two (by omega)
        _ = 2 ^ (g.digits - 1) * g.ulp x := by rw [ulp, ← zpow_natCast, ← zpow_add₀ two_ne_zero]
    have hmultiple (m : ℤ) : |g.round x - x| ≤ |m * g.ulp x - x| := abs_round_sub_le_multiple x m
    rcases le_total 0 x with h0 | h0
    · rw [abs_of_nonneg h0] at hbound
      refine (hmultiple (2 ^ (g.digits - 1))).trans ?_
      push_cast
      rw [abs_sub_comm, abs_of_nonneg (sub_nonneg.mpr hbound), abs_sub_comm]
      exact (sub_le_sub_left (le_of_abs_le hsmall) x).trans (le_abs_self _)
    · rw [abs_of_nonpos h0] at hbound
      refine (hmultiple (-2 ^ (g.digits - 1))).trans ?_
      push_cast
      rw [abs_of_nonneg (by linarith)]
      exact (sub_le_sub_right (by linarith [neg_le_of_abs_le hsmall]) x).trans (le_abs_self _)

theorem round_of_on (h : g.On x) : g.round x = x := by
  have h0 := abs_round_sub_le_of_on x h
  rw [sub_self, abs_zero] at h0
  exact sub_eq_zero.mp (abs_nonpos_iff.mp h0)

theorem round_mono (h : x ≤ y) : g.round x ≤ g.round y := by
  rcases eq_or_lt_of_le h with rfl | hlt
  · exact le_rfl
  · exact le_of_nearest hlt (abs_round_sub_le_of_on x (on_round y)) (abs_round_sub_le_of_on y (on_round x))

theorem round_nonneg (h : 0 ≤ x) : 0 ≤ g.round x := by
  have h0 := round_mono (g := g) h
  rwa [round_zero] at h0

theorem round_le_of_on (hy : g.On y) (h : x ≤ y) : g.round x ≤ y := by
  rw [← round_of_on hy]
  exact round_mono h

theorem le_round_of_on (hy : g.On y) (h : y ≤ x) : y ≤ g.round x := by
  rw [← round_of_on hy]
  exact round_mono h

theorem On.neg (h : g.On x) : g.On (-x) := by
  obtain ⟨m, e, hm, he, rfl⟩ := h
  exact ⟨-m, e, by rwa [abs_neg], he, by rw [Int.cast_neg, neg_mul]⟩

theorem abs_round_le_of_on (hy : g.On y) (h : |x| ≤ y) : |g.round x| ≤ y := by
  have hle := abs_le.mp h
  exact abs_le.mpr ⟨le_round_of_on hy.neg hle.1, round_le_of_on hy hle.2⟩

theorem on_natCast {n : ℕ} (hn : n ≤ 2 ^ g.digits) (hl : g.least ≤ 0) : g.On n :=
  ⟨n, 0, by rw [Nat.abs_cast]; exact_mod_cast hn, hl, by rw [zpow_zero, mul_one, Int.cast_natCast]⟩

/-- The error for numbers up to a bound that is not too small itself. -/
theorem abs_round_sub_le_of_le (hb : b = 0 ∨ 2 ^ (g.least + g.digits - 1) ≤ b) (hx : |x| ≤ b) :
    |g.round x - x| ≤ b / 2 ^ g.digits := by
  have hdigits := g.digits_pos
  have hpow : (0 : ℚ) < 2 ^ g.digits := pow_pos two_pos _
  rcases eq_or_ne x 0 with rfl | hx0
  · rw [round_zero, sub_self, abs_zero]
    exact div_nonneg ((abs_nonneg 0).trans hx) hpow.le
  have hb : 2 ^ (g.least + g.digits - 1) ≤ b := by
    rcases hb with rfl | hb
    · exact absurd (abs_nonpos_iff.mp hx) hx0
    · exact hb
  have hulp : g.ulp x * 2 ^ (g.digits - 1) ≤ b := by
    rcases eq_or_lt_of_le (le_max_right (Int.log 2 |x| + 1 - g.digits) g.least) with h | h
    · rw [ulp, exponent, ← h, ← zpow_natCast, ← zpow_add₀ two_ne_zero]
      convert hb using 2
      omega
    · rw [mul_comm]
      exact (ulp_le_abs hx0 h).trans hx
  have hsplit : (2 : ℚ) ^ g.digits = 2 ^ (g.digits - 1) * 2 := by
    rw [← pow_succ, Nat.sub_add_cancel hdigits]
  refine (abs_round_sub_le x).trans ?_
  rw [div_le_div_iff₀ two_pos hpow, hsplit, ← mul_assoc]
  exact mul_le_mul_of_nonneg_right hulp two_pos.le

theorem natCast_eq_mul_ulp {n : ℕ} (he : g.exponent n < 0) : ∃ m : ℤ, m % 2 = 0 ∧ (n : ℚ) = m * g.ulp n := by
  obtain ⟨k, hk⟩ := Int.eq_negSucc_of_lt_zero he
  refine ⟨n * 2 ^ k * 2, Int.mul_emod_left _ _, ?_⟩
  rw [ulp, hk, zpow_negSucc]
  field_simp
  push_cast
  ring

/-- A natural number whose last digit is 0 takes what is half a digit larger. -/
theorem round_le_natCast {n : ℕ} (hn : 0 < n) (he : g.exponent n < 0) (hy : y ≤ n + g.ulp n / 2) : g.round y ≤ n := by
  obtain ⟨m, hm, hnm⟩ := natCast_eq_mul_ulp he
  have hu := ulp_pos (g := g) n
  have hn0 : (0 : ℚ) < n := Nat.cast_pos.mpr hn
  have hpos : 0 < (n : ℚ) + g.ulp n / 2 := by positivity
  have hlt : (n : ℚ) + g.ulp n / 2 < 2 ^ g.digits * g.ulp n := by
    have h : (m : ℚ) * g.ulp n < 2 ^ g.digits * g.ulp n := by
      rw [← hnm]
      exact (le_abs_self _).trans_lt (abs_lt_ulp _)
    have hm : m < 2 ^ g.digits := by
      have h' : (m : ℚ) < 2 ^ g.digits := lt_of_mul_lt_mul_right h hu.le
      exact_mod_cast h'
    have hm' : (m : ℚ) + 1 ≤ 2 ^ g.digits := by exact_mod_cast Int.add_one_le_of_lt hm
    have h' : ((m : ℚ) + 1) * g.ulp n ≤ 2 ^ g.digits * g.ulp n := mul_le_mul_of_nonneg_right hm' hu.le
    linarith
  have hexp : g.exponent (n + g.ulp n / 2) = g.exponent n := by
    apply le_antisymm
    · apply exponent_le hpos.ne' (le_max_right _ _)
      rwa [abs_of_pos hpos, zpow_add₀ two_ne_zero, zpow_natCast]
    · apply exponent_mono hn0.ne'
      rw [abs_of_pos hpos, abs_of_pos hn0]
      linarith
  have hulp : g.ulp (n + g.ulp n / 2) = g.ulp n := congrArg (fun e : ℤ => (2 : ℚ) ^ e) hexp
  have hround : roundEven ((n + g.ulp n / 2) / g.ulp n) = m := by
    have h : 2 * ((n + g.ulp n / 2) / g.ulp n) = 2 * m + 1 := by
      have hn : (n : ℚ) / g.ulp n = m := (div_eq_iff hu.ne').mpr hnm
      have hhalf : g.ulp n / 2 / g.ulp n = 1 / 2 := by
        rw [div_right_comm, div_self hu.ne']
      rw [add_div, hn, hhalf]
      ring
    rw [roundEven_of_eq h, hm, add_zero]
  calc g.round y ≤ g.round (n + g.ulp n / 2) := round_mono hy
    _ = n := by rw [round, hulp, hround, ← hnm]

end Grid

end Fopd.Lib.Rounding
