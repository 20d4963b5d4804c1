import Mathlib
import Fopd.Lib.Rounding

namespace Fopd.Lib.Double

open Float.Model Float.Model.UnpackedFloat Rounding

def binary64 : Grid := ⟨53, -1074, by decide⟩

def Cut (em : ExtendedMantissa) (y : ℚ) : Prop :=
  ∃ rest : ℚ, 0 ≤ rest ∧ rest < 1 ∧ 2 * y = 2 * em.mantissa + em.roundBit.toNat + rest ∧
    (em.stickyBit = false ↔ rest = 0)

namespace Cut

variable {em : ExtendedMantissa} {y : ℚ}

theorem exact (m : ℕ) : Cut (.ofMantissaAndAccuracy m .exact) m :=
  ⟨0, le_rfl, one_pos, by simp [ExtendedMantissa.ofMantissaAndAccuracy], by simp [ExtendedMantissa.ofMantissaAndAccuracy]⟩

theorem fraction (m : ℕ) {num den : ℕ} (h : num < den) :
    Cut (.ofMantissaAndAccuracy m (accuracyOfFraction num den)) (m + num / den) := by
  have hden : (0 : ℚ) < den := Nat.cast_pos.mpr (Nat.zero_lt_of_lt h)
  rw [accuracyOfFraction]
  split
  next h0 =>
    subst h0
    simpa using exact m
  next h0 =>
    have hpos : (0 : ℚ) < num / den := div_pos (Nat.cast_pos.mpr (Nat.pos_of_ne_zero h0)) hden
    have hone : (num : ℚ) / den < 1 := (div_lt_one hden).mpr (Nat.cast_lt.mpr h)
    rcases lt_trichotomy (2 * num) den with hc | hc | hc
    · have hlt : 2 * ((num : ℚ) / den) < 1 := by
        rw [← mul_div_assoc, div_lt_one hden]
        exact_mod_cast hc
      rw [Nat.compare_eq_lt.mpr hc]
      refine ⟨2 * (num / den), by positivity, hlt, ?_, ?_⟩
      · simp [ExtendedMantissa.ofMantissaAndAccuracy, mul_add]
      · simpa [ExtendedMantissa.ofMantissaAndAccuracy] using hpos.ne'
    · have heq : 2 * ((num : ℚ) / den) = 1 := by
        rw [← mul_div_assoc, div_eq_one_iff_eq hden.ne']
        exact_mod_cast hc
      rw [Nat.compare_eq_eq.mpr hc]
      refine ⟨0, le_rfl, one_pos, ?_, ?_⟩
      · simp [ExtendedMantissa.ofMantissaAndAccuracy, mul_add, heq]
      · simp [ExtendedMantissa.ofMantissaAndAccuracy]
    · have hgt : 1 < 2 * ((num : ℚ) / den) := by
        rw [← mul_div_assoc, one_lt_div hden]
        exact_mod_cast hc
      rw [Nat.compare_eq_gt.mpr hc]
      refine ⟨2 * (num / den) - 1, by linarith, by linarith, ?_, ?_⟩
      · simp [ExtendedMantissa.ofMantissaAndAccuracy, mul_add]
      · simpa [ExtendedMantissa.ofMantissaAndAccuracy] using sub_ne_zero.mpr hgt.ne'

theorem shiftRightOne (h : Cut em y) : Cut em.shiftRightOne (y / 2) := by
  obtain ⟨rest, h0, h1, hy, hs⟩ := h
  have hbit : ((em.mantissa % 2 != 0).toNat : ℚ) = (em.mantissa % 2 : ℕ) := by
    rcases Nat.mod_two_eq_zero_or_one em.mantissa with hm | hm <;> simp [hm]
  have hmod : (em.mantissa : ℚ) = (em.mantissa % 2 : ℕ) + 2 * (em.mantissa / 2 : ℕ) := by
    exact_mod_cast (Nat.mod_add_div em.mantissa 2).symm
  refine ⟨(em.roundBit.toNat + rest) / 2, ?_, ?_, ?_, ?_⟩
  · positivity
  · cases em.roundBit <;> simp <;> linarith
  · simp only [ExtendedMantissa.shiftRightOne, hbit]
    linarith
  · simp only [ExtendedMantissa.shiftRightOne, Bool.or_eq_false_iff, hs]
    cases em.roundBit
    · simp
    · have hne : (1 + rest) / 2 ≠ 0 := by positivity
      simpa using hne

theorem shiftRight (h : Cut em y) (n : ℕ) : Cut (em >>> n) (y / 2 ^ n) := by
  induction n with
  | zero => rwa [pow_zero, div_one]
  | succ n ih =>
      rw [pow_succ, ← div_div]
      exact ih.shiftRightOne

theorem roundedMantissa (h : Cut em y) : (em.roundedMantissa : ℤ) = roundEven y := by
  obtain ⟨rest, h0, h1, hy, hs⟩ := h
  obtain ⟨m, r, s⟩ := em
  symm
  cases r <;> cases s <;> simp at hy hs
  · subst hs
    exact (congrArg roundEven (by push_cast; linarith)).trans (roundEven_intCast m)
  · have hpos := h0.lt_of_ne' hs
    exact roundEven_of_lt (n := m) (by push_cast; linarith) (by push_cast; linarith)
  · subst hs
    exact (roundEven_of_eq (n := m) (by push_cast; linarith)).trans (by norm_cast)
  · have hpos := h0.lt_of_ne' hs
    exact (roundEven_of_gt (n := m) (by push_cast; linarith) (by push_cast; linarith)).trans (by norm_cast)

/-- A mantissa is the integer part. -/
theorem mantissa_le (h : Cut em y) : (em.mantissa : ℚ) ≤ y := by
  obtain ⟨rest, h0, -, hy, -⟩ := h
  have hbit : (0 : ℚ) ≤ em.roundBit.toNat := Nat.cast_nonneg _
  linarith

theorem lt_mantissa_succ (h : Cut em y) : y < em.mantissa + 1 := by
  obtain ⟨rest, -, h1, hy, -⟩ := h
  have hbit : (em.roundBit.toNat : ℚ) ≤ 1 := by exact_mod_cast Bool.toNat_le em.roundBit
  linarith

end Cut

/-- A mantissa and an exponent as a `Float` stores them. -/
def Canonical (m : ℕ) (e : ℤ) : Prop := m < 2 ^ 53 ∧ -1074 ≤ e ∧ (2 ^ 52 ≤ m ∨ e = -1074)

def signed : Sign → ℚ → ℚ
  | .negative, x => -x
  | .positive, x => x

/-- The unpacked number is finite and has this value. -/
def Unpacks : UnpackedFloat → ℚ → Prop
  | .zero _, x => x = 0
  | .finite s m e _, x => Canonical m e ∧ x = signed s (m * 2 ^ e)
  | _, _ => False

section Signed

variable {s s' : Sign} {x y : ℚ}

theorem signed_zero : signed s 0 = 0 := by
  cases s
  · exact neg_zero
  · rfl

theorem signed_neg : signed (-s) x = -signed s x := by
  cases s
  · exact (neg_neg x).symm
  · rfl

theorem abs_signed : |signed s x| = |x| := by
  cases s
  · exact abs_neg x
  · rfl

theorem signed_mul : signed (s * s') (x * y) = signed s x * signed s' y := by
  cases s <;> cases s'
  · exact (neg_mul_neg x y).symm
  · exact (neg_mul x y).symm
  · exact (mul_neg x y).symm
  · rfl

theorem signed_div : signed (s / s') (x / y) = signed s x / signed s' y := by
  cases s <;> cases s'
  · exact (neg_div_neg_eq x y).symm
  · exact (neg_div y x).symm
  · exact (div_neg x).symm
  · rfl

theorem round_signed {g : Grid} : g.round (signed s x) = signed s (g.round x) := by
  cases s
  · exact Grid.round_neg x
  · rfl

theorem cast_apply (n : ℤ) : ((s.apply n : ℤ) : ℚ) = signed s n := by
  cases s
  · exact Int.cast_neg n
  · rfl

end Signed

theorem Canonical.on {m : ℕ} {e : ℤ} (h : Canonical m e) : binary64.On (m * 2 ^ e) := by
  refine ⟨m, e, ?_, h.2.1, by rw [Int.cast_natCast]⟩
  rw [Nat.abs_cast]
  exact_mod_cast h.1.le

theorem On.signed {x : ℚ} (h : binary64.On x) (s : Sign) : binary64.On (signed s x) := by
  cases s
  · exact h.neg
  · exact h

theorem Unpacks.on {u : UnpackedFloat} {x : ℚ} (h : Unpacks u x) : binary64.On x := by
  cases u with
  | infinity s => exact h.elim
  | notANumber => exact h.elim
  | zero s =>
      rw [show x = 0 from h]
      exact ⟨0, 0, by simp, by decide, by simp⟩
  | finite s m e hm =>
      rw [h.2]
      exact On.signed h.1.on s

theorem targetExponent_eq (n : ℤ) : Format.binary64.targetExponent n = max (n - 53) (-1074) := rfl

section Round

variable {m : ℕ} {e : ℤ} {y : ℚ} {acc : Accuracy}

theorem two_pow_log2_le (h : 0 < m) : (2 : ℚ) ^ m.log2 ≤ m := by
  exact_mod_cast Nat.log2_self_le h.ne'

theorem succ_le_two_pow_log2 (m : ℕ) : (m : ℚ) + 1 ≤ 2 ^ (m.log2 + 1) := by
  exact_mod_cast Nat.lt_log2_self

theorem log2_mul_two_pow (hm : 0 < m) (k : ℕ) : (m * 2 ^ k).log2 = m.log2 + k := by
  rw [Nat.log2_eq_iff (Nat.mul_pos hm (Nat.two_pow_pos k)).ne', Nat.add_right_comm, Nat.pow_add, Nat.pow_add]
  constructor
  · exact Nat.mul_le_mul_right _ (Nat.log2_self_le hm.ne')
  · exact Nat.mul_lt_mul_of_pos_right Nat.lt_log2_self (Nat.two_pow_pos k)

theorem exponent_eq (hm : 0 < m) (h1 : (m : ℚ) ≤ y) (h2 : y < m + 1) :
    binary64.exponent (y * 2 ^ e) = Format.binary64.targetExponent (totalExponent m e) := by
  have hpow : (0 : ℚ) < 2 ^ e := zpow_pos two_pos e
  have hy : 0 < y := (Nat.cast_pos.mpr hm).trans_le h1
  have hpos : 0 < |y * 2 ^ e| := abs_pos.mpr (mul_pos hy hpow).ne'
  have hlog : Int.log 2 |y * 2 ^ e| = m.log2 + e := by
    apply le_antisymm
    · apply Int.lt_add_one_iff.mp
      apply (Int.lt_zpow_iff_log_lt one_lt_two hpos).mp
      rw [abs_of_pos (mul_pos hy hpow), add_right_comm, zpow_add₀ (by norm_num)]
      apply mul_lt_mul_of_pos_right _ hpow
      exact_mod_cast h2.trans_le (succ_le_two_pow_log2 m)
    · apply (Int.zpow_le_iff_le_log one_lt_two hpos).mp
      rw [abs_of_pos (mul_pos hy hpow), zpow_add₀ (by norm_num)]
      apply mul_le_mul_of_nonneg_right _ hpow.le
      exact_mod_cast (two_pow_log2_le hm).trans h1
  rw [targetExponent_eq, totalExponent, Grid.exponent, hlog]
  change max (_ - ((53 : ℕ) : ℤ)) (-1074) = _
  omega

/-- A shift far enough leaves the value of the number at the last digit. -/
theorem round_eq (he : e ≤ Format.binary64.targetExponent (totalExponent m e)) (h1 : (m : ℚ) ≤ y) (h2 : y < m + 1) :
    binary64.round (y * 2 ^ e) =
      roundEven (y * 2 ^ e / 2 ^ Format.binary64.targetExponent (totalExponent m e)) *
        2 ^ Format.binary64.targetExponent (totalExponent m e) := by
  rcases Nat.eq_zero_or_pos m with rfl | hm
  · rcases eq_or_ne y 0 with rfl | hy
    · rw [zero_mul, Grid.round_zero, zero_div, ← Int.cast_zero, roundEven_intCast, Int.cast_zero, zero_mul]
    · have htarget : Format.binary64.targetExponent (totalExponent 0 e) = -1074 := by
        rw [targetExponent_eq, totalExponent, Nat.log2_zero] at he ⊢
        omega
      have hpow : (0 : ℚ) < 2 ^ e := zpow_pos two_pos e
      rw [htarget] at he
      rw [Nat.cast_zero] at h1
      rw [Nat.cast_zero, zero_add] at h2
      have hexp : binary64.exponent (y * 2 ^ e) = -1074 := by
        apply le_antisymm _ (le_max_right _ _)
        apply Grid.exponent_le (mul_ne_zero hy hpow.ne') le_rfl
        rw [abs_of_nonneg (mul_nonneg h1 hpow.le)]
        calc y * 2 ^ e ≤ 1 * 2 ^ e := mul_le_mul_of_nonneg_right h2.le hpow.le
          _ < 2 ^ (binary64.digits + (-1074 : ℤ)) := by
            rw [one_mul]
            apply zpow_lt_zpow_right₀ one_lt_two
            change e < ((53 : ℕ) : ℤ) + -1074
            omega
      rw [htarget, Grid.round, Grid.ulp, hexp]
  · rw [Grid.round, Grid.ulp, exponent_eq hm h1 h2]

theorem Cut.shift {t : ℤ} (h : Cut (.ofMantissaAndAccuracy m acc) y) (he : e ≤ t) :
    Cut ((ExtendedMantissa.ofMantissaAndAccuracy m acc) >>> (t - e).toNat) (y * 2 ^ e / 2 ^ t) := by
  obtain ⟨k, rfl⟩ := Int.le.dest he
  have hpow : y * 2 ^ e / 2 ^ (e + (k : ℤ)) = y / 2 ^ k := by
    rw [zpow_add₀ two_ne_zero, zpow_natCast, mul_comm y, mul_div_mul_left _ _ (zpow_ne_zero e two_ne_zero)]
  rw [hpow, add_sub_cancel_left, Int.toNat_natCast]
  exact h.shiftRight k

/-- What is left after the first shift: a mantissa that may have become one digit longer. -/
def carry (s : Sign) (r : ℕ) (t : ℤ) : UnpackedFloat :=
  let (em, e) := shiftToTargetExponent Format.binary64 r t .exact
  if h : em.mantissa = 0 then .zero s else .finite s em.mantissa e (Nat.pos_of_ne_zero h)

theorem roundWithAccuracy_eq (s : Sign) (he : e ≤ Format.binary64.targetExponent (totalExponent m e)) :
    roundWithAccuracy Format.binary64 s m e acc =
      carry s ((ExtendedMantissa.ofMantissaAndAccuracy m acc) >>>
        (Format.binary64.targetExponent (totalExponent m e) - e).toNat).roundedMantissa
        (Format.binary64.targetExponent (totalExponent m e)) := by
  have hexp : e + ((Format.binary64.targetExponent (totalExponent m e) - e).toNat : ℤ) =
      Format.binary64.targetExponent (totalExponent m e) := by omega
  have hshift : shiftToTargetExponent Format.binary64 m e acc =
      ((ExtendedMantissa.ofMantissaAndAccuracy m acc) >>>
        (Format.binary64.targetExponent (totalExponent m e) - e).toNat,
        Format.binary64.targetExponent (totalExponent m e)) := by
    rw [shiftToTargetExponent, shiftToExponent, hexp]
  rw [roundWithAccuracy, hshift]
  rfl

theorem carry_of_lt (s : Sign) {r : ℕ} {t : ℤ} (hr : r < 2 ^ 53) (ht : -1074 ≤ t) :
    carry s r t = if h : r = 0 then .zero s else .finite s r t (Nat.pos_of_ne_zero h) := by
  have htarget : Format.binary64.targetExponent (totalExponent r t) ≤ t := by
    rw [targetExponent_eq, totalExponent]
    rcases Nat.eq_zero_or_pos r with rfl | hpos
    · rw [Nat.log2_zero]
      omega
    · have hlog := (Nat.log2_lt hpos.ne').mpr hr
      omega
  have hshift : shiftToTargetExponent Format.binary64 r t .exact = (.ofMantissaAndAccuracy r .exact, t) := by
    rw [shiftToTargetExponent, shiftToExponent, Int.toNat_of_nonpos (by omega), Nat.cast_zero, add_zero]
    rfl
  rw [carry, hshift]
  rfl

theorem carry_full (s : Sign) {t : ℤ} (ht : -1074 ≤ t) :
    carry s (2 ^ 53) t = .finite s (2 ^ 52) (t + 1) (Nat.two_pow_pos 52) := by
  have hlog : Nat.log2 (2 ^ 53) = 53 := Nat.log2_two_pow
  have hamount : (Format.binary64.targetExponent (totalExponent (2 ^ 53) t) - t).toNat = 1 := by
    rw [targetExponent_eq, totalExponent, hlog]
    omega
  have hshift : shiftToTargetExponent Format.binary64 (2 ^ 53) t .exact =
      ((ExtendedMantissa.ofMantissaAndAccuracy (2 ^ 53) .exact).shiftRightOne, t + 1) := by
    rw [shiftToTargetExponent, shiftToExponent, hamount, Nat.cast_one]
    rfl
  rw [carry, hshift]
  rfl

theorem carry_unpacks (s : Sign) {r : ℕ} {t : ℤ} (hr : r ≤ 2 ^ 53) (ht : -1074 ≤ t)
    (hn : 2 ^ 52 ≤ r ∨ t = -1074) : Unpacks (carry s r t) (signed s (r * 2 ^ t)) := by
  rcases Nat.lt_or_eq_of_le hr with hlt | rfl
  · rw [carry_of_lt s hlt ht]
    split
    next h0 =>
      rw [h0, Nat.cast_zero, zero_mul, signed_zero]
      exact rfl
    next h0 => exact ⟨⟨hlt, ht, hn⟩, rfl⟩
  · rw [carry_full s ht]
    refine ⟨⟨by norm_num, by omega, Or.inl le_rfl⟩, congrArg (signed s) ?_⟩
    rw [zpow_add_one₀ two_ne_zero]
    push_cast
    ring

/-- A number cut at the target exponent has the digits of the format. -/
theorem digits_of_target (he : e ≤ Format.binary64.targetExponent (totalExponent m e)) (h1 : (m : ℚ) ≤ y)
    (h2 : y < m + 1) :
    y * 2 ^ e / 2 ^ Format.binary64.targetExponent (totalExponent m e) ≤ 2 ^ 53 ∧
      (2 ^ 52 ≤ y * 2 ^ e / 2 ^ Format.binary64.targetExponent (totalExponent m e) ∨
        Format.binary64.targetExponent (totalExponent m e) = -1074) := by
  have htarget : Format.binary64.targetExponent (totalExponent m e) = max (m.log2 + 1 + e - 53) (-1074) := rfl
  generalize Format.binary64.targetExponent (totalExponent m e) = t at he htarget ⊢
  have hpow : (0 : ℚ) < 2 ^ e := zpow_pos two_pos e
  have hpow' : (0 : ℚ) < 2 ^ t := zpow_pos two_pos t
  constructor
  · rw [div_le_iff₀ hpow']
    calc y * 2 ^ e ≤ 2 ^ (m.log2 + 1) * 2 ^ e :=
          mul_le_mul_of_nonneg_right (h2.le.trans (succ_le_two_pow_log2 m)) hpow.le
      _ = 2 ^ (((m.log2 + 1 : ℕ) : ℤ) + e) := by rw [zpow_add₀ two_ne_zero, zpow_natCast]
      _ ≤ 2 ^ (((53 : ℕ) : ℤ) + t) := zpow_le_zpow_right₀ one_le_two (by omega)
      _ = 2 ^ 53 * 2 ^ t := by rw [zpow_add₀ two_ne_zero, zpow_natCast]
  · rcases eq_or_ne t (-1074) with ht | ht
    · exact Or.inr ht
    · have hm : 0 < m := by
        apply Nat.pos_of_ne_zero
        rintro rfl
        rw [Nat.log2_zero] at htarget
        omega
      left
      rw [le_div_iff₀ hpow']
      calc (2 : ℚ) ^ 52 * 2 ^ t = 2 ^ (((52 : ℕ) : ℤ) + t) := by rw [zpow_add₀ two_ne_zero, zpow_natCast]
        _ = 2 ^ ((m.log2 : ℤ) + e) := by
          congr 1
          omega
        _ = 2 ^ m.log2 * 2 ^ e := by rw [zpow_add₀ two_ne_zero, zpow_natCast]
        _ ≤ y * 2 ^ e := mul_le_mul_of_nonneg_right ((two_pow_log2_le hm).trans h1) hpow.le

/-- An unpacked number that has digits to spare is rounded to the format. -/
theorem roundWithAccuracy_unpacks (s : Sign) (h : Cut (.ofMantissaAndAccuracy m acc) y)
    (he : e ≤ Format.binary64.targetExponent (totalExponent m e)) :
    Unpacks (roundWithAccuracy Format.binary64 s m e acc) (binary64.round (signed s (y * 2 ^ e))) := by
  have hm : (ExtendedMantissa.ofMantissaAndAccuracy m acc).mantissa = m := by
    cases acc with
    | exact => rfl
    | inexact o => cases o <;> rfl
  have h1 : (m : ℚ) ≤ y := hm ▸ h.mantissa_le
  have h2 : y < m + 1 := hm ▸ h.lt_mantissa_succ
  have hround := round_eq he h1 h2
  obtain ⟨hd, hn⟩ := digits_of_target he h1 h2
  rw [roundWithAccuracy_eq s he, round_signed, hround]
  generalize htarget : Format.binary64.targetExponent (totalExponent m e) = t at he hround hd hn ⊢
  have hr := (h.shift he).roundedMantissa
  generalize ((ExtendedMantissa.ofMantissaAndAccuracy m acc) >>> (t - e).toNat).roundedMantissa = r at hr ⊢
  rw [← hr, Int.cast_natCast]
  have ht : -1074 ≤ t := by
    rw [← htarget, targetExponent_eq]
    exact le_max_right _ _
  apply carry_unpacks s _ ht
  · rcases hn with hn | hn
    · left
      have hle : (2 : ℤ) ^ 52 ≤ r := by
        rw [hr]
        exact le_roundEven (by exact_mod_cast hn)
      exact_mod_cast hle
    · exact Or.inr hn
  · have hle : (r : ℤ) ≤ 2 ^ 53 := by
      rw [hr]
      exact roundEven_le (by exact_mod_cast hd)
    exact_mod_cast hle

theorem round_unpacks (s : Sign) (hm : 0 < m) :
    Unpacks (UnpackedFloat.round Format.binary64 s m e) (binary64.round (signed s (m * 2 ^ e))) := by
  generalize htarget : Format.binary64.targetExponent (totalExponent m e) = t
  have hround : UnpackedFloat.round Format.binary64 s m e =
      roundWithAccuracy Format.binary64 s (m * 2 ^ (e - t).toNat) (e - (e - t).toNat) .exact := by
    rw [UnpackedFloat.round, htarget, decreaseExponent, Nat.shiftLeft_eq]
  have hvalue : ((m * 2 ^ (e - t).toNat : ℕ) : ℚ) * 2 ^ (e - (e - t).toNat) = m * 2 ^ e := by
    rw [zpow_sub₀ two_ne_zero, zpow_natCast]
    push_cast
    field_simp
  rw [hround, ← hvalue]
  apply roundWithAccuracy_unpacks s (Cut.exact _)
  have hsame : totalExponent (m * 2 ^ (e - t).toNat) (e - (e - t).toNat) = totalExponent m e := by
    rw [totalExponent, totalExponent, log2_mul_two_pow hm]
    omega
  rw [hsame, htarget]
  omega

/-- Whatever the number, `normalize` rounds it. -/
theorem normalize_unpacks (n : ℤ) (e : ℤ) (s : Sign) :
    Unpacks (UnpackedFloat.normalize Format.binary64 n e s) (binary64.round (n * 2 ^ e)) := by
  rw [UnpackedFloat.normalize]
  rcases lt_trichotomy n 0 with hn | rfl | hn
  · rw [Int.compare_eq_lt.mpr hn]
    obtain ⟨m, rfl⟩ := Int.exists_eq_neg_ofNat hn.le
    have hround := round_unpacks (e := e) .negative (m := m) (by omega)
    rw [signed, ← neg_mul, ← Int.cast_natCast (R := ℚ) m, ← Int.cast_neg] at hround
    change Unpacks (UnpackedFloat.round Format.binary64 .negative (- -(m : ℤ)).toNat e) _
    rwa [neg_neg, Int.toNat_natCast]
  · rw [Int.cast_zero, zero_mul, Grid.round_zero]
    exact rfl
  · rw [Int.compare_eq_gt.mpr hn]
    obtain ⟨m, rfl⟩ := Int.eq_ofNat_of_zero_le hn.le
    have hround := round_unpacks (e := e) .positive (m := m) (by omega)
    rwa [signed, ← Int.cast_natCast (R := ℚ) m] at hround

end Round

section Operations

variable {u v : UnpackedFloat} {x y : ℚ}

theorem decreaseExponent_eq {m : ℕ} {e t : ℤ} (h : t ≤ e) :
    (((decreaseExponent m e t).1 : ℕ) : ℚ) * 2 ^ t = m * 2 ^ e := by
  obtain ⟨k, rfl⟩ := Int.le.dest h
  rw [decreaseExponent, add_sub_cancel_left, Int.toNat_natCast, Nat.shiftLeft_eq, zpow_add₀ two_ne_zero,
    zpow_natCast]
  push_cast
  ring

/-- Two numbers brought to the smaller exponent. -/
theorem aligned (s₁ s₂ : Sign) (m₁ m₂ : ℕ) (e₁ e₂ : ℤ) :
    ((s₁.apply (decreaseExponent m₁ e₁ (min e₁ e₂)).1 : ℤ) : ℚ) * 2 ^ min e₁ e₂ = signed s₁ (m₁ * 2 ^ e₁) ∧
      ((s₂.apply (decreaseExponent m₂ e₂ (min e₁ e₂)).1 : ℤ) : ℚ) * 2 ^ min e₁ e₂ = signed s₂ (m₂ * 2 ^ e₂) := by
  have hscale (s : Sign) (x c : ℚ) : signed s x * c = signed s (x * c) := by
    cases s
    · exact neg_mul x c
    · rfl
  rw [cast_apply, cast_apply, hscale, hscale, Int.cast_natCast, Int.cast_natCast,
    decreaseExponent_eq (min_le_left e₁ e₂), decreaseExponent_eq (min_le_right e₁ e₂)]
  exact ⟨rfl, rfl⟩

theorem Unpacks.round (h : Unpacks u x) : Unpacks u (binary64.round x) := by
  rwa [Grid.round_of_on h.on]

theorem Unpacks.add (hu : Unpacks u x) (hv : Unpacks v y) :
    Unpacks (UnpackedFloat.add Format.binary64 u v) (binary64.round (x + y)) := by
  cases u with
  | infinity s => exact hu.elim
  | notANumber => exact hu.elim
  | zero s =>
      rw [show x = 0 from hu, zero_add]
      cases v with
      | infinity s' => exact hv.elim
      | notANumber => exact hv.elim
      | zero s' =>
          rw [show y = 0 from hv, Grid.round_zero, UnpackedFloat.add]
          split <;> exact rfl
      | finite s' m' e' hm' => exact hv.round
  | finite s m e hm =>
      cases v with
      | infinity s' => exact hv.elim
      | notANumber => exact hv.elim
      | zero s' =>
          rw [show y = 0 from hv, add_zero]
          exact hu.round
      | finite s' m' e' hm' =>
          obtain ⟨h1, h2⟩ := aligned s s' m m' e e'
          rw [hu.2, hv.2, ← h1, ← h2, ← add_mul, ← Int.cast_add]
          exact normalize_unpacks _ _ _

theorem Unpacks.neg (hu : Unpacks u x) : Unpacks u.neg (-x) := by
  cases u with
  | infinity s => exact hu.elim
  | notANumber => exact hu.elim
  | zero s =>
      rw [show x = 0 from hu, neg_zero]
      exact rfl
  | finite s m e hm => exact ⟨hu.1, by rw [hu.2, signed_neg]⟩

theorem Unpacks.sub (hu : Unpacks u x) (hv : Unpacks v y) :
    Unpacks (UnpackedFloat.sub Format.binary64 u v) (binary64.round (x - y)) := by
  cases u with
  | infinity s => exact hu.elim
  | notANumber => exact hu.elim
  | zero s =>
      rw [show x = 0 from hu, zero_sub]
      cases v with
      | infinity s' => exact hv.elim
      | notANumber => exact hv.elim
      | zero s' =>
          rw [show y = 0 from hv, neg_zero, Grid.round_zero, UnpackedFloat.sub]
          split <;> exact rfl
      | finite s' m' e' hm' => exact hv.neg.round
  | finite s m e hm =>
      cases v with
      | infinity s' => exact hv.elim
      | notANumber => exact hv.elim
      | zero s' =>
          rw [show y = 0 from hv, sub_zero]
          exact hu.round
      | finite s' m' e' hm' =>
          obtain ⟨h1, h2⟩ := aligned s s' m m' e e'
          rw [hu.2, hv.2, ← h1, ← h2, ← sub_mul, ← Int.cast_sub]
          exact normalize_unpacks _ _ _

theorem Unpacks.mul (hu : Unpacks u x) (hv : Unpacks v y) :
    Unpacks (UnpackedFloat.mul Format.binary64 u v) (binary64.round (x * y)) := by
  cases u with
  | infinity s => exact hu.elim
  | notANumber => exact hu.elim
  | zero s =>
      rw [show x = 0 from hu, zero_mul, Grid.round_zero]
      cases v with
      | infinity s' => exact hv.elim
      | notANumber => exact hv.elim
      | zero s' => exact rfl
      | finite s' m' e' hm' => exact rfl
  | finite s m e hm =>
      cases v with
      | infinity s' => exact hv.elim
      | notANumber => exact hv.elim
      | zero s' =>
          rw [show y = 0 from hv, mul_zero, Grid.round_zero]
          exact rfl
      | finite s' m' e' hm' =>
          obtain ⟨⟨-, he, hn⟩, hx⟩ := hu
          obtain ⟨⟨-, he', hn'⟩, hy⟩ := hv
          have hxy : x * y = signed (s * s') ((m * m' : ℕ) * 2 ^ (e + e')) := by
            rw [hx, hy, ← signed_mul, zpow_add₀ two_ne_zero, Nat.cast_mul, mul_mul_mul_comm]
          rw [hxy]
          apply roundWithAccuracy_unpacks (s * s') (Cut.exact _)
          rw [targetExponent_eq, totalExponent]
          by_cases hdigits : 2 ^ 52 ≤ m * m'
          · have hlog := (Nat.le_log2 (Nat.mul_pos hm hm').ne').mpr hdigits
            omega
          · have h1 := Nat.le_mul_of_pos_right m hm'
            have h2 := Nat.le_mul_of_pos_left m' hm
            omega

/-- What `divCore` cuts is the quotient. -/
theorem divCore_cut (m : ℕ) (e e' : ℤ) {m' : ℕ} (hm' : 0 < m') :
    ∃ y, Cut (.ofMantissaAndAccuracy (divCore Format.binary64 m e m' e').1 (divCore Format.binary64 m e m' e').2.2) y ∧
      y * 2 ^ (divCore Format.binary64 m e m' e').2.1 = m * 2 ^ e / (m' * 2 ^ e') := by
  have ht : (divCore Format.binary64 m e m' e').2.1 ≤ e - e' := min_le_left _ _
  have hq : (divCore Format.binary64 m e m' e').1 =
      m * 2 ^ (e - e' - (divCore Format.binary64 m e m' e').2.1).toNat / m' := by
    rw [divCore, Nat.shiftLeft_eq]
  have hacc : (divCore Format.binary64 m e m' e').2.2 = accuracyOfFraction
      (m * 2 ^ (e - e' - (divCore Format.binary64 m e m' e').2.1).toNat % m') m' := by
    rw [divCore, Nat.shiftLeft_eq]
  rw [hq, hacc]
  generalize (divCore Format.binary64 m e m' e').2.1 = t at ht ⊢
  obtain ⟨k, hk⟩ := Int.le.dest ht
  have hk' : e - e' - t = k := by omega
  have hden : (m' : ℚ) ≠ 0 := Nat.cast_ne_zero.mpr hm'.ne'
  refine ⟨_, Cut.fraction _ (Nat.mod_lt _ hm'), ?_⟩
  rw [hk', Int.toNat_natCast]
  have hdivmod : ((m * 2 ^ k / m' : ℕ) : ℚ) + (m * 2 ^ k % m' : ℕ) / m' = m * 2 ^ k / m' := by
    rw [eq_div_iff hden, add_mul, div_mul_cancel₀ _ hden]
    exact_mod_cast Nat.div_add_mod' (m * 2 ^ k) m'
  have hpow : (2 : ℚ) ^ k * 2 ^ t * 2 ^ e' = 2 ^ e := by
    rw [← zpow_natCast, ← zpow_add₀ two_ne_zero, ← zpow_add₀ two_ne_zero]
    congr 1
    omega
  have hpow' : (2 : ℚ) ^ e' ≠ 0 := zpow_ne_zero e' two_ne_zero
  rw [hdivmod, ← hpow]
  field_simp

theorem divCore_exponent_le {m m' : ℕ} {e e' : ℤ} (hm : 0 < m) (hm' : 0 < m') :
    (divCore Format.binary64 m e m' e').2.1 ≤ Format.binary64.targetExponent
      (totalExponent (divCore Format.binary64 m e m' e').1 (divCore Format.binary64 m e m' e').2.1) := by
  have htarget : (divCore Format.binary64 m e m' e').2.1 =
      min (e - e') (max (m.log2 + 1 + e - (m'.log2 + 1 + e') - 53) (-1074)) := rfl
  have hq : (divCore Format.binary64 m e m' e').1 =
      m * 2 ^ (e - e' - (divCore Format.binary64 m e m' e').2.1).toNat / m' := by
    rw [divCore, Nat.shiftLeft_eq]
  rw [hq]
  generalize (divCore Format.binary64 m e m' e').2.1 = t at htarget ⊢
  rw [targetExponent_eq, totalExponent]
  rcases le_or_gt t (-1074) with ht | ht
  · omega
  · have hlog := log2_mul_two_pow hm (e - e' - t).toNat
    have hlarge : 2 ^ 52 ≤ m * 2 ^ (e - e' - t).toNat / m' := by
      rw [Nat.le_div_iff_mul_le hm']
      calc 2 ^ 52 * m' ≤ 2 ^ 52 * 2 ^ (m'.log2 + 1) := Nat.mul_le_mul_left _ Nat.lt_log2_self.le
        _ = 2 ^ (m'.log2 + 53) := by rw [← Nat.pow_add]; congr 1; omega
        _ ≤ 2 ^ (m * 2 ^ (e - e' - t).toNat).log2 := Nat.pow_le_pow_right two_pos (by omega)
        _ ≤ m * 2 ^ (e - e' - t).toNat := Nat.log2_self_le (Nat.mul_pos hm (Nat.two_pow_pos _)).ne'
    have hdigits := (Nat.le_log2 (Nat.lt_of_lt_of_le (Nat.two_pow_pos 52) hlarge).ne').mpr hlarge
    omega

theorem Unpacks.div (hu : Unpacks u x) (hv : Unpacks v y) (hy : y ≠ 0) :
    Unpacks (UnpackedFloat.div Format.binary64 u v) (binary64.round (x / y)) := by
  cases v with
  | infinity s => exact hv.elim
  | notANumber => exact hv.elim
  | zero s => exact (hy hv).elim
  | finite s' m' e' hm' =>
      cases u with
      | infinity s => exact hu.elim
      | notANumber => exact hu.elim
      | zero s =>
          rw [show x = 0 from hu, zero_div, Grid.round_zero]
          exact rfl
      | finite s m e hm =>
          obtain ⟨q, hcut, hq⟩ := divCore_cut m e e' hm'
          rw [hu.2, hv.2, ← signed_div, ← hq]
          exact roundWithAccuracy_unpacks (s / s') hcut (divCore_exponent_le hm hm')

end Operations

section Pack

variable {u : UnpackedFloat} {x : ℚ} {s : Sign} {m : ℕ} {e : ℤ}

theorem unpacks_zero (s : Sign) :
    Unpacks (UnpackedFloat.unpack Format.binary64 (packComponents Format.binary64 s 0 0)) 0 := by
  cases s <;> exact rfl

theorem unpacks_subnormal (s : Sign) (hm : 0 < m) (hlt : m < 2 ^ 52) :
    Unpacks (UnpackedFloat.unpack Format.binary64 (packComponents Format.binary64 s 0#_ (BitVec.ofNat _ m)))
      (signed s (m * 2 ^ (-1074 : ℤ))) := by
  have htoNat : (BitVec.ofNat Format.binary64.mantissaBitsWithoutImplicit m).toNat = m :=
    BitVec.toNat_ofNat m _ ▸ Nat.mod_eq_of_lt hlt
  have hne : BitVec.ofNat Format.binary64.mantissaBitsWithoutImplicit m ≠ 0#_ := by
    intro h0
    rw [h0] at htoNat
    exact hm.ne htoNat
  rw [UnpackedFloat.unpack]
  simp only [unpackMantissa_packComponents, unpackExponent_packComponents, unpackSign_packComponents,
    Sign.ofBitVec_toBitVec]
  rw [if_neg (by decide), if_pos trivial, dif_neg hne]
  refine ⟨⟨?_, ?_, Or.inr rfl⟩, ?_⟩
  · rw [htoNat]
    omega
  · decide
  · rw [htoNat]
    rfl

theorem unpacks_normal (s : Sign) {b : ℕ} (hm : 2 ^ 52 ≤ m) (hlt : m < 2 ^ 53) (hb : 0 < b) (hlt' : b < 2047) :
    Unpacks (UnpackedFloat.unpack Format.binary64
      (packComponents Format.binary64 s (BitVec.ofNat _ b) (BitVec.ofNat _ m))) (signed s (m * 2 ^ ((b : ℤ) - 1075))) := by
  have hexp : (BitVec.ofNat Format.binary64.exponentBits b).toNat = b :=
    BitVec.toNat_ofNat b _ ▸ Nat.mod_eq_of_lt (by change b < 2 ^ 11; omega)
  have hmant : (1#1 ++ BitVec.ofNat Format.binary64.mantissaBitsWithoutImplicit m).toNat = m := by
    have hmod : m % 2 ^ 52 = m - 2 ^ 52 := by omega
    rw [BitVec.toNat_append, ← Nat.shiftLeft_add_eq_or_of_lt (BitVec.isLt _), BitVec.toNat_ofNat]
    change 1 <<< 52 + m % 2 ^ 52 = m
    rw [hmod]
    omega
  have hne : BitVec.ofNat Format.binary64.exponentBits b ≠ -1#_ := by
    intro h
    rw [h] at hexp
    exact absurd hexp (by change ¬ 2047 = b; omega)
  have hne' : BitVec.ofNat Format.binary64.exponentBits b ≠ 0#_ := by
    intro h
    rw [h] at hexp
    exact hb.ne hexp
  rw [UnpackedFloat.unpack]
  simp only [unpackMantissa_packComponents, unpackExponent_packComponents, unpackSign_packComponents,
    Sign.ofBitVec_toBitVec]
  rw [if_neg hne, if_neg hne']
  have hbias : ((BitVec.ofNat Format.binary64.exponentBits b).toNat : ℤ) -
      (Format.binary64.exponentBias + Format.binary64.mantissaBitsWithoutImplicit) = b - 1075 := by
    rw [hexp]
    rfl
  refine ⟨⟨?_, ?_, ?_⟩, ?_⟩
  · rwa [hmant]
  · rw [hbias]
    omega
  · rw [hmant]
    exact Or.inl hm
  · rw [hmant, hbias]

theorem Unpacks.pack (h : Unpacks u x) (hx : |x| < 2 ^ 1024) : Unpacks (Float.Model.pack u).unpack x := by
  change Unpacks (UnpackedFloat.unpack Format.binary64 (UnpackedFloat.pack Format.binary64 u)) x
  cases u with
  | infinity s => exact h.elim
  | notANumber => exact h.elim
  | zero s =>
      rw [show x = 0 from h]
      exact unpacks_zero s
  | finite s m e hm =>
      obtain ⟨⟨hlt, he, hn⟩, rfl⟩ := h
      rw [abs_signed] at hx
      have hpow : (0 : ℚ) < 2 ^ e := zpow_pos two_pos e
      have hbias : e + (Format.binary64.exponentBias : ℤ) + (Format.binary64.mantissaBitsWithoutImplicit : ℤ) =
          e + 1075 := add_assoc e 1023 52
      rw [UnpackedFloat.pack, hbias]
      by_cases hnormal : 2 ^ 52 ≤ m
      · have hlarge : e ≤ 971 := by
          rw [abs_of_nonneg (mul_nonneg (Nat.cast_nonneg m) hpow.le)] at hx
          have hlow : (2 : ℚ) ^ (((52 : ℕ) : ℤ) + e) < 2 ^ ((1024 : ℕ) : ℤ) := by
            rw [zpow_add₀ two_ne_zero, zpow_natCast, zpow_natCast]
            refine lt_of_le_of_lt (mul_le_mul_of_nonneg_right ?_ hpow.le) hx
            exact_mod_cast hnormal
          have h := (zpow_lt_zpow_iff_right₀ one_lt_two).mp hlow
          omega
        have hlog : m.log2 + 1 = Format.binary64.mantissaBits := by
          have h : m.log2 = 52 := (Nat.log2_eq_iff hm.ne').mpr ⟨hnormal, hlt⟩
          rw [h]
          rfl
        have hfit : ¬ 2 ^ Format.binary64.exponentBits ≤ (e + 1075).toNat + 1 := by
          change ¬ 2 ^ 11 ≤ (e + 1075).toNat + 1
          omega
        simp only [if_neg hfit, if_pos hlog]
        have hnormal' := unpacks_normal s (b := (e + 1075).toNat) hnormal hlt (by omega) (by omega)
        rwa [Int.toNat_of_nonneg (by omega), add_sub_cancel_right] at hnormal'
      · obtain rfl : e = -1074 := by omega
        have hlog : ¬ m.log2 + 1 = Format.binary64.mantissaBits := by
          have h := (Nat.log2_lt hm.ne').mpr (not_le.mp hnormal)
          change ¬ m.log2 + 1 = 53
          omega
        have hfit : ¬ 2 ^ Format.binary64.exponentBits ≤ ((-1074 : ℤ) + 1075).toNat + 1 := by decide
        simp only [if_neg hfit, if_neg hlog]
        exact unpacks_subnormal s hm (not_le.mp hnormal)

end Pack

section Order

variable {u v : UnpackedFloat} {x y : ℚ} {m m' : ℕ} {e e' : ℤ}

theorem Canonical.lt_of_lt (h : Canonical m e) (h' : Canonical m' e') (he : e < e') :
    (m : ℚ) * 2 ^ e < m' * 2 ^ e' := by
  have hlow : 2 ^ 52 ≤ m' := by
    rcases h'.2.2 with hn | hn
    · exact hn
    · have := h.2.1
      omega
  calc (m : ℚ) * 2 ^ e < 2 ^ 53 * 2 ^ e := by
        apply mul_lt_mul_of_pos_right _ (zpow_pos two_pos e)
        exact_mod_cast h.1
    _ = 2 ^ 52 * 2 ^ (e + 1) := by
        rw [zpow_add_one₀ two_ne_zero]
        ring
    _ ≤ 2 ^ 52 * 2 ^ e' := by
        apply mul_le_mul_of_nonneg_left _ (by positivity)
        exact zpow_le_zpow_right₀ one_le_two (by omega)
    _ ≤ m' * 2 ^ e' := by
        apply mul_le_mul_of_nonneg_right _ (zpow_pos two_pos e').le
        exact_mod_cast hlow

theorem Canonical.compare (h : Canonical m e) (h' : Canonical m' e') :
    (compare e e').then (compare m m') = compare ((m : ℚ) * 2 ^ e) (m' * 2 ^ e') := by
  rcases lt_trichotomy e e' with he | rfl | he
  · rw [compare_lt_iff_lt.mpr he, compare_lt_iff_lt.mpr (h.lt_of_lt h' he)]
    rfl
  · have hpow : (0 : ℚ) < 2 ^ e := zpow_pos two_pos e
    rw [compare_eq_iff_eq.mpr rfl, Ordering.then]
    rcases lt_trichotomy m m' with hm | rfl | hm
    · rw [compare_lt_iff_lt.mpr hm, eq_comm, compare_lt_iff_lt]
      exact mul_lt_mul_of_pos_right (Nat.cast_lt.mpr hm) hpow
    · rw [compare_eq_iff_eq.mpr rfl, compare_eq_iff_eq.mpr rfl]
    · rw [compare_gt_iff_gt.mpr hm, eq_comm, compare_gt_iff_gt]
      exact mul_lt_mul_of_pos_right (Nat.cast_lt.mpr hm) hpow
  · rw [compare_gt_iff_gt.mpr he, compare_gt_iff_gt.mpr (h'.lt_of_lt h he)]
    rfl

theorem compare_neg (x y : ℚ) : compare (-x) (-y) = (compare x y).swap := by
  rcases lt_trichotomy x y with h | rfl | h
  · rw [compare_lt_iff_lt.mpr h, compare_gt_iff_gt.mpr (neg_lt_neg h)]
    rfl
  · rw [compare_eq_iff_eq.mpr rfl, compare_eq_iff_eq.mpr rfl]
    rfl
  · rw [compare_gt_iff_gt.mpr h, compare_lt_iff_lt.mpr (neg_lt_neg h)]
    rfl

theorem Unpacks.compare (hu : Unpacks u x) (hv : Unpacks v y) : u.compare v = some (compare x y) := by
  have hpos {m : ℕ} {e : ℤ} (hm : 0 < m) : 0 < signed .positive (m * 2 ^ e) :=
    mul_pos (Nat.cast_pos.mpr hm) (zpow_pos two_pos e)
  have hneg {m : ℕ} {e : ℤ} (hm : 0 < m) : signed .negative (m * 2 ^ e) < 0 :=
    neg_neg_of_pos (hpos hm)
  cases u with
  | infinity s => exact hu.elim
  | notANumber => exact hu.elim
  | zero s =>
      rw [show x = 0 from hu]
      cases v with
      | infinity s' => exact hv.elim
      | notANumber => exact hv.elim
      | zero s' =>
          rw [show y = 0 from hv, compare_eq_iff_eq.mpr rfl]
          rfl
      | finite s' m' e' hm' =>
          rw [hv.2]
          cases s'
          · rw [compare_gt_iff_gt.mpr (hneg hm')]
            rfl
          · rw [compare_lt_iff_lt.mpr (hpos hm')]
            rfl
  | finite s m e hm =>
      rw [hu.2]
      cases v with
      | infinity s' => exact hv.elim
      | notANumber => exact hv.elim
      | zero s' =>
          rw [show y = 0 from hv]
          cases s
          · rw [compare_lt_iff_lt.mpr (hneg hm)]
            rfl
          · rw [compare_gt_iff_gt.mpr (hpos hm)]
            rfl
      | finite s' m' e' hm' =>
          rw [hv.2]
          cases s <;> cases s'
          · rw [signed, signed, compare_neg, ← hu.1.compare hv.1]
            rfl
          · rw [compare_lt_iff_lt.mpr ((hneg hm).trans (hpos hm'))]
            rfl
          · rw [compare_gt_iff_gt.mpr ((hneg hm').trans (hpos hm))]
            rfl
          · rw [signed, signed, ← hu.1.compare hv.1]
            rfl

end Order

/-- The number is finite and has this value. -/
def HasValue (f : Float) (x : ℚ) : Prop := Unpacks f.toModel.unpack x

namespace HasValue

variable {f g : Float} {x y : ℚ}

theorem on (h : HasValue f x) : binary64.On x := Unpacks.on h

theorem add (hf : HasValue f x) (hg : HasValue g y) (h : |binary64.round (x + y)| < 2 ^ 1024) :
    HasValue (f + g) (binary64.round (x + y)) := (Unpacks.add hf hg).pack h

theorem sub (hf : HasValue f x) (hg : HasValue g y) (h : |binary64.round (x - y)| < 2 ^ 1024) :
    HasValue (f - g) (binary64.round (x - y)) := (Unpacks.sub hf hg).pack h

theorem mul (hf : HasValue f x) (hg : HasValue g y) (h : |binary64.round (x * y)| < 2 ^ 1024) :
    HasValue (f * g) (binary64.round (x * y)) := (Unpacks.mul hf hg).pack h

theorem div (hf : HasValue f x) (hg : HasValue g y) (hy : y ≠ 0) (h : |binary64.round (x / y)| < 2 ^ 1024) :
    HasValue (f / g) (binary64.round (x / y)) := (Unpacks.div hf hg hy).pack h

theorem ofNat {n : ℕ} (h : |binary64.round n| < 2 ^ 1024) : HasValue ⟨Float.Model.ofNat n⟩ (binary64.round n) := by
  have hnormalize := normalize_unpacks n 0 .positive
  rw [zpow_zero, mul_one, Int.cast_natCast] at hnormalize
  exact hnormalize.pack h

theorem le_iff (hf : HasValue f x) (hg : HasValue g y) : f ≤ g ↔ x ≤ y := by
  have hle : f ≤ g ↔ f.toModel.unpack.le g.toModel.unpack = true :=
    decide_eq_true_iff (p := f.toModel ≤ g.toModel)
  rw [hle, UnpackedFloat.le, Unpacks.compare hf hg, Option.any_some, ← compare_le_iff_le, Ordering.isLE_iff_ne_gt]

/-- Integers below the count of digits are converted exactly. -/
theorem of_uint32 (n : UInt32) : HasValue n.toFloat n.toNat := by
  have hlt : n.toNat < 2 ^ 32 := n.toNat_lt
  have hon : binary64.On n.toNat := Grid.on_natCast (by change n.toNat ≤ 2 ^ 53; omega) (by decide)
  have hround := Grid.round_of_on hon
  rw [← hround]
  apply ofNat
  rw [hround, Nat.abs_cast]
  calc (n.toNat : ℚ) < 2 ^ 32 := by exact_mod_cast hlt
    _ ≤ 2 ^ 1024 := pow_le_pow_right₀ one_le_two (by norm_num)

theorem of_uint64 (n : UInt64) : HasValue n.toFloat (binary64.round n.toNat) := by
  have hon : binary64.On ((2 ^ 64 : ℕ) : ℚ) := ⟨1, 64, by decide, by decide, by norm_num⟩
  have hlt : |(n.toNat : ℚ)| ≤ ((2 ^ 64 : ℕ) : ℚ) := by
    rw [Nat.abs_cast]
    exact_mod_cast n.toNat_lt.le
  apply ofNat
  calc |binary64.round n.toNat| ≤ ((2 ^ 64 : ℕ) : ℚ) := Grid.abs_round_le_of_on hon hlt
    _ < 2 ^ 65 := by norm_num
    _ ≤ 2 ^ 1024 := pow_le_pow_right₀ one_le_two (by norm_num)

theorem isFinite (h : HasValue f x) : f.isFinite = true := by
  change f.toModel.unpack.isFinite = true
  rw [HasValue] at h
  cases hu : f.toModel.unpack with
  | infinity s => exact (hu ▸ h : Unpacks (.infinity s) x).elim
  | notANumber => exact (hu ▸ h : Unpacks .notANumber x).elim
  | zero s => rfl
  | finite s m e hm => rfl

end HasValue

section NotFinite

variable {u v : UnpackedFloat} {f g : Float}

theorem isFinite_pack (h : u.isFinite = false) : (Float.Model.pack u).unpack.isFinite = false := by
  cases u with
  | infinity s => cases s <;> rfl
  | notANumber => rfl
  | zero s | finite s m e hm => cases h

theorem isFinite_add_unpacked (h : u.isFinite = false ∨ v.isFinite = false) :
    (UnpackedFloat.add Format.binary64 u v).isFinite = false := by
  cases u <;> cases v
  case infinity.infinity s s' =>
    rw [UnpackedFloat.add]
    split <;> rfl
  all_goals first
    | rfl
    | rcases h with h | h <;> cases h

theorem isFinite_div_unpacked (hv : Unpacks v 0) : (UnpackedFloat.div Format.binary64 u v).isFinite = false := by
  cases v with
  | infinity s => exact hv.elim
  | notANumber => exact hv.elim
  | zero s => cases u <;> rfl
  | finite s m e hm =>
      have hpos : (0 : ℚ) < |signed s (m * 2 ^ e)| := by
        rw [abs_signed, abs_pos]
        exact mul_ne_zero (Nat.cast_ne_zero.mpr hm.ne') (zpow_ne_zero e two_ne_zero)
      rw [← hv.2, abs_zero] at hpos
      exact absurd hpos (lt_irrefl 0)

theorem isFinite_add (h : f.isFinite = false ∨ g.isFinite = false) : (f + g).isFinite = false :=
  isFinite_pack (isFinite_add_unpacked h)

theorem isFinite_div_zero (h : HasValue g 0) : (f / g).isFinite = false := isFinite_pack (isFinite_div_unpacked h)

end NotFinite

end Fopd.Lib.Double
