import Fopd.Lib.Double
import Fopd.Servers

namespace Fopd.MemoryDisplay

open Lib.Rounding Lib.Double Float.Model

@[simp] abbrev memoryDisplayBufferSize : Nat := 32

def byte : UInt64 := 1

def kilobyte : UInt64 := byte * 1000

def megabyte : UInt64 := kilobyte * 1000

def gigabyte : UInt64 := megabyte * 1000

def terabyte : UInt64 := gigabyte * 1000

def unitOf (bytes : UInt64) : String × UInt64 :=
  if bytes > terabyte then ("TB", terabyte)
  else if bytes > gigabyte then ("GB", gigabyte)
  else if bytes > megabyte then ("MB", megabyte)
  else if bytes > kilobyte then ("KB", kilobyte)
  else ("Bytes", byte)

def decimal (hundredths : Nat) : String :=
  Nat.repr (hundredths / 100) ++ "." ++ (if hundredths % 100 < 10 then "0" else "") ++ Nat.repr (hundredths % 100)

def sign : UnpackedFloat.Sign → String
  | .positive => ""
  | .negative => "-"

/-- `%.2f`, which rounds the exact value. -/
def fixed2 : UnpackedFloat → String
  | .finite s m e _ => sign s ++ decimal (roundEven (100 * (m * 2 ^ e))).toNat
  | .zero s => sign s ++ decimal 0
  | .infinity s => sign s ++ "inf"
  | .notANumber => "nan"

def memoryDisplay (bytes : UInt64) : String :=
  Servers.snprintf memoryDisplayBufferSize
    (fixed2 (bytes.toFloat / (unitOf bytes).2.toFloat).toModel.unpack ++ (unitOf bytes).1)

/-- The number that is written, in hundredths of the unit. -/
def hundredths (bytes : UInt64) : Nat :=
  (roundEven (100 * binary64.round (binary64.round bytes.toNat / (unitOf bytes).2.toNat))).toNat

section Units

/-- Each unit is a thousand of the one before, and is used from above one of it to a thousand of it. -/
theorem unitOf_spec (bytes : UInt64) : ∃ k ≤ 4, (unitOf bytes).2.toNat = 1000 ^ k ∧ (unitOf bytes).1.length ≤ 5 ∧
    (k = 0 ∨ 1000 ^ k < bytes.toNat) ∧ (k = 4 ∨ bytes.toNat ≤ 1000 ^ (k + 1)) := by
  have hk : kilobyte.toNat = 1000 ^ 1 := rfl
  have hm : megabyte.toNat = 1000 ^ 2 := rfl
  have hg : gigabyte.toNat = 1000 ^ 3 := rfl
  have ht : terabyte.toNat = 1000 ^ 4 := rfl
  rw [unitOf]
  simp only [gt_iff_lt, UInt64.lt_iff_toNat_lt, hk, hm, hg, ht]
  split
  next h => exact ⟨4, by decide, ht, by decide, Or.inr h, Or.inl rfl⟩
  next h =>
    split
    next h' => exact ⟨3, by decide, hg, by decide, Or.inr h', Or.inr (not_lt.mp h)⟩
    next h =>
      split
      next h' => exact ⟨2, by decide, hm, by decide, Or.inr h', Or.inr (not_lt.mp h)⟩
      next h =>
        split
        next h' => exact ⟨1, by decide, hk, by decide, Or.inr h', Or.inr (not_lt.mp h)⟩
        next h => exact ⟨0, by decide, rfl, by decide, Or.inl rfl, Or.inr (not_lt.mp h)⟩

end Units

section Text

theorem length_decimal {h : Nat} (hlt : h / 100 < 10 ^ 8) : (decimal h).length ≤ 11 := by
  have hwhole := (Nat.length_repr_le_iff (by decide : 0 < 8)).mpr hlt
  have hrest : (Nat.repr (h % 100)).length ≤ 2 :=
    (Nat.length_repr_le_iff (by decide)).mpr (Nat.mod_lt h (by decide))
  have hdot : ".".length = 1 := rfl
  have hzero : "0".length = 1 := rfl
  have hnone : "".length = 0 := rfl
  rw [decimal]
  split
  next hsmall =>
    have hdigit := (Nat.length_repr_le_iff (by decide : 0 < 1)).mpr hsmall
    simp only [String.length_append]
    omega
  next =>
    simp only [String.length_append]
    omega

theorem snprintf_eq_self {text : String} {size : Nat} (h : text.length < size) : Servers.snprintf size text = text := by
  have hlen : text.toList.length ≤ size - 1 := by
    rw [String.length_toList]
    omega
  rw [Servers.snprintf, List.take_of_length_le hlen, String.ofList_toList]

/-- Only 0 could be written with a sign. -/
theorem fixed2_of_pos {u : UnpackedFloat} {x : ℚ} (h : Unpacks u x) (hx : 0 < x) :
    fixed2 u = decimal (roundEven (100 * x)).toNat := by
  cases u with
  | infinity s => exact h.elim
  | notANumber => exact h.elim
  | zero s =>
      obtain rfl : x = 0 := h
      exact absurd hx (lt_irrefl 0)
  | finite s m e hm =>
      obtain ⟨-, rfl⟩ := h
      cases s with
      | positive => exact String.empty_append
      | negative =>
          have hpos : (0 : ℚ) < m * 2 ^ e := mul_pos (Nat.cast_pos.mpr hm) (zpow_pos two_pos e)
          exact absurd hx (not_lt.mpr (neg_nonpos.mpr hpos.le))

end Text

section Values

variable {bytes bytes' : UInt64} {k : Nat}

theorem on_natCast {n : ℕ} (hn : n ≤ 2 ^ 53) : binary64.On (n : ℚ) := Grid.on_natCast hn (by decide)

/-- The quotient before it is rounded. -/
abbrev quotient (bytes : UInt64) : ℚ := binary64.round bytes.toNat / (unitOf bytes).2.toNat

theorem unit_pos (bytes : UInt64) : (0 : ℚ) < (unitOf bytes).2.toNat := by
  obtain ⟨k, -, hk, -⟩ := unitOf_spec bytes
  rw [hk]
  exact_mod_cast Nat.pow_pos (by decide)

theorem quotient_nonneg (bytes : UInt64) : 0 ≤ quotient bytes :=
  div_nonneg (Grid.round_nonneg (Nat.cast_nonneg _)) (unit_pos bytes).le

theorem round_natCast_le {n m : ℕ} (hn : n ≤ m) (hm : binary64.On (m : ℚ)) : binary64.round n ≤ m :=
  Grid.round_le_of_on hm (by exact_mod_cast hn)

/-- Below the last unit. -/
theorem quotient_le_thousand (hk : (unitOf bytes).2.toNat = 1000 ^ k) (hk4 : k < 4)
    (hle : bytes.toNat ≤ 1000 ^ (k + 1)) : quotient bytes ≤ ((1000 : ℕ) : ℚ) := by
  have hpow : 1000 ^ (k + 1) ≤ 1000 ^ 4 := Nat.pow_le_pow_right (by decide) hk4
  have hround := round_natCast_le hle (on_natCast (hpow.trans (by decide)))
  rw [quotient, div_le_iff₀ (unit_pos bytes), hk]
  calc binary64.round bytes.toNat ≤ ((1000 ^ (k + 1) : ℕ) : ℚ) := hround
    _ = ((1000 : ℕ) : ℚ) * ((1000 ^ k : ℕ) : ℚ) := by
        rw [pow_succ']
        exact Nat.cast_mul 1000 (1000 ^ k)

theorem quotient_le (bytes : UInt64) : quotient bytes ≤ ((18446745 : ℕ) : ℚ) := by
  obtain ⟨k, hk4, hk, -, -, hle⟩ := unitOf_spec bytes
  by_cases hlast : k = 4
  · subst hlast
    have hon : binary64.On ((2 ^ 64 : ℕ) : ℚ) := ⟨1, 64, by decide, by decide, by norm_num⟩
    have hround := round_natCast_le bytes.toNat_lt.le hon
    rw [quotient, div_le_iff₀ (unit_pos bytes), hk]
    refine hround.trans ?_
    norm_num
  · refine (quotient_le_thousand hk (by omega) (hle.resolve_left hlast)).trans ?_
    norm_num

theorem one_le_quotient (hle : (unitOf bytes).2.toNat ≤ bytes.toNat) : ((1 : ℕ) : ℚ) ≤ quotient bytes := by
  obtain ⟨k, hk4, hk, -⟩ := unitOf_spec bytes
  have hpow : 1000 ^ k ≤ 1000 ^ 4 := Nat.pow_le_pow_right (by decide) hk4
  have hon : binary64.On ((unitOf bytes).2.toNat : ℚ) := on_natCast (hk ▸ hpow.trans (by decide))
  rw [quotient, le_div_iff₀ (unit_pos bytes), Nat.cast_one, one_mul]
  exact Grid.le_round_of_on hon (by exact_mod_cast hle)

theorem round_quotient_le (bytes : UInt64) : binary64.round (quotient bytes) ≤ ((18446745 : ℕ) : ℚ) :=
  Grid.round_le_of_on (on_natCast (by decide)) (quotient_le bytes)

theorem hasValue_quotient (bytes : UInt64) :
    HasValue (bytes.toFloat / (unitOf bytes).2.toFloat) (binary64.round (quotient bytes)) := by
  obtain ⟨k, hk4, hk, -⟩ := unitOf_spec bytes
  have hpow : 1000 ^ k ≤ 1000 ^ 4 := Nat.pow_le_pow_right (by decide) hk4
  have hon : binary64.On ((unitOf bytes).2.toNat : ℚ) := on_natCast (hk ▸ hpow.trans (by decide))
  have hunit := HasValue.of_uint64 (unitOf bytes).2
  rw [Grid.round_of_on hon] at hunit
  apply (HasValue.of_uint64 bytes).div hunit (unit_pos bytes).ne'
  rw [abs_of_nonneg (Grid.round_nonneg (quotient_nonneg bytes))]
  calc binary64.round (quotient bytes) ≤ ((18446745 : ℕ) : ℚ) := round_quotient_le bytes
    _ < 2 ^ 25 := by norm_num
    _ ≤ 2 ^ 1024 := pow_le_pow_right₀ one_le_two (by norm_num)

theorem hundredths_le {m : ℕ} (h : binary64.round (quotient bytes) ≤ m) : hundredths bytes ≤ 100 * m := by
  have hle : roundEven (100 * binary64.round (quotient bytes)) ≤ ((100 * m : ℕ) : ℤ) := by
    apply roundEven_le
    push_cast
    linarith
  exact Int.toNat_le.mpr hle

theorem le_hundredths {m : ℕ} (h : m ≤ binary64.round (quotient bytes)) : 100 * m ≤ hundredths bytes := by
  have hle : ((100 * m : ℕ) : ℤ) ≤ roundEven (100 * binary64.round (quotient bytes)) := by
    apply le_roundEven
    push_cast
    linarith
  exact_mod_cast hle.trans (Int.self_le_toNat _)

theorem hundredths_cast (bytes : UInt64) :
    (hundredths bytes : ℚ) = roundEven (100 * binary64.round (quotient bytes)) := by
  have hnonneg : (0 : ℤ) ≤ roundEven (100 * binary64.round (quotient bytes)) := by
    apply le_roundEven
    have h := Grid.round_nonneg (g := binary64) (quotient_nonneg bytes)
    push_cast
    linarith
  rw [hundredths]
  exact_mod_cast Int.toNat_of_nonneg hnonneg

theorem bytes_le (bytes : UInt64) : bytes.toNat ≤ 18446745 * (unitOf bytes).2.toNat := by
  obtain ⟨k, hk4, hk, -, -, hle⟩ := unitOf_spec bytes
  have hlt := bytes.toNat_lt
  rw [hk]
  rcases hle with rfl | hle
  · omega
  · rw [pow_succ'] at hle
    omega

/-- The conversion and the division are both off by one part in 2^53. -/
theorem abs_round_quotient_sub_le (bytes : UInt64) :
    |binary64.round (quotient bytes) - bytes.toNat / (unitOf bytes).2.toNat| ≤ 1 / 10000 := by
  have hunit := unit_pos bytes
  have hconvert : |binary64.round bytes.toNat - bytes.toNat| ≤ bytes.toNat / 2 ^ 53 := by
    apply Grid.abs_round_sub_le_of_le ?_ (Nat.abs_cast _).le
    rcases Nat.eq_zero_or_pos bytes.toNat with h0 | hpos
    · exact Or.inl (by rw [h0, Nat.cast_zero])
    · refine Or.inr (le_trans ?_ (Nat.one_le_cast.mpr hpos))
      exact zpow_le_one_of_nonpos₀ one_le_two (by decide)
  have hdivide : |binary64.round (quotient bytes) - quotient bytes| ≤ ((18446745 : ℕ) : ℚ) / 2 ^ 53 := by
    apply Grid.abs_round_sub_le_of_le
    · refine Or.inr (le_trans ?_ (Nat.one_le_cast.mpr (by decide)))
      exact zpow_le_one_of_nonpos₀ one_le_two (by decide)
    · rw [abs_of_nonneg (quotient_nonneg bytes)]
      exact quotient_le bytes
  have hratio : (bytes.toNat : ℚ) / (unitOf bytes).2.toNat ≤ 18446745 := by
    rw [div_le_iff₀ hunit]
    exact_mod_cast bytes_le bytes
  have hquotient : |quotient bytes - bytes.toNat / (unitOf bytes).2.toNat| ≤ 18446745 / 2 ^ 53 := by
    rw [quotient, ← sub_div, abs_div, abs_of_pos hunit]
    calc |binary64.round bytes.toNat - bytes.toNat| / (unitOf bytes).2.toNat
        ≤ bytes.toNat / 2 ^ 53 / (unitOf bytes).2.toNat := div_le_div_of_nonneg_right hconvert hunit.le
      _ = bytes.toNat / (unitOf bytes).2.toNat / 2 ^ 53 := div_right_comm _ _ _
      _ ≤ 18446745 / 2 ^ 53 := div_le_div_of_nonneg_right hratio (by positivity)
  calc |binary64.round (quotient bytes) - bytes.toNat / (unitOf bytes).2.toNat|
      ≤ |binary64.round (quotient bytes) - quotient bytes| + |quotient bytes - bytes.toNat / (unitOf bytes).2.toNat| :=
        abs_sub_le _ _ _
    _ ≤ ((18446745 : ℕ) : ℚ) / 2 ^ 53 + 18446745 / 2 ^ 53 := add_le_add hdivide hquotient
    _ ≤ 1 / 10000 := by norm_num

theorem abs_hundredths_sub_le (bytes : UInt64) :
    |(hundredths bytes : ℚ) / 100 - bytes.toNat / (unitOf bytes).2.toNat| ≤ 51 / 10000 := by
  have hround := abs_le.mp (abs_roundEven_sub_le (100 * binary64.round (quotient bytes)))
  have herror := abs_le.mp (abs_round_quotient_sub_le bytes)
  rw [hundredths_cast, abs_le]
  constructor <;> linarith

theorem memoryDisplay_eq (bytes : UInt64) :
    memoryDisplay bytes = decimal (hundredths bytes) ++ (unitOf bytes).1 ∧
      (memoryDisplay bytes).length < memoryDisplayBufferSize := by
  obtain ⟨k, -, hk, hname, hlt, -⟩ := unitOf_spec bytes
  have hfixed : fixed2 (bytes.toFloat / (unitOf bytes).2.toFloat).toModel.unpack = decimal (hundredths bytes) := by
    by_cases h0 : bytes = 0
    · subst h0
      decide +kernel
    · have hpos : 0 < bytes.toNat := by
        rw [Nat.pos_iff_ne_zero]
        exact fun h => h0 (UInt64.toNat_inj.mp h)
      have hle : (unitOf bytes).2.toNat ≤ bytes.toNat := by
        rcases hlt with rfl | hlt
        · omega
        · omega
      have hone := Grid.le_round_of_on (on_natCast (by decide)) (one_le_quotient hle)
      exact fixed2_of_pos (hasValue_quotient bytes) (lt_of_lt_of_le (by norm_num) hone)
  have hlength : (decimal (hundredths bytes)).length ≤ 11 := by
    apply length_decimal
    have hle := hundredths_le (round_quotient_le bytes)
    omega
  have htext : memoryDisplay bytes = decimal (hundredths bytes) ++ (unitOf bytes).1 := by
    rw [memoryDisplay, hfixed, snprintf_eq_self]
    rw [String.length_append]
    exact lt_of_le_of_lt (Nat.add_le_add hlength hname) (by decide)
  refine ⟨htext, ?_⟩
  rw [htext, String.length_append]
  exact lt_of_le_of_lt (Nat.add_le_add hlength hname) (by decide)

theorem hundredths_mono (h : bytes ≤ bytes') :
    hundredths bytes * (unitOf bytes).2.toNat ≤ hundredths bytes' * (unitOf bytes').2.toNat := by
  obtain ⟨k, hk4, hk, -, hlt, hle⟩ := unitOf_spec bytes
  obtain ⟨k', hk4', hk', -, hlt', hle'⟩ := unitOf_spec bytes'
  have hbytes : bytes.toNat ≤ bytes'.toNat := UInt64.le_iff_toNat_le.mp h
  rw [hk, hk']
  rcases Nat.lt_trichotomy k k' with hlower | rfl | hhigher
  · have hpow : 1000 ^ (k + 1) ≤ 1000 ^ k' := Nat.pow_le_pow_right (by decide) hlower
    have hle : bytes.toNat ≤ 1000 ^ (k + 1) := hle.resolve_left (by omega)
    have hlt' : 1000 ^ k' < bytes'.toNat := hlt'.resolve_left (by omega)
    have hmost := hundredths_le
      (Grid.round_le_of_on (on_natCast (by decide)) (quotient_le_thousand hk (by omega) hle))
    have hleast := le_hundredths (Grid.le_round_of_on (on_natCast (by decide)) (one_le_quotient (hk' ▸ hlt'.le)))
    calc hundredths bytes * 1000 ^ k ≤ 100 * 1000 * 1000 ^ k := Nat.mul_le_mul_right _ hmost
      _ = 100 * 1000 ^ (k + 1) := by rw [pow_succ', mul_assoc]
      _ ≤ 100 * 1000 ^ k' := Nat.mul_le_mul_left _ hpow
      _ ≤ hundredths bytes' * 1000 ^ k' := Nat.mul_le_mul_right _ hleast
  · have hround : binary64.round bytes.toNat ≤ binary64.round bytes'.toNat :=
      Grid.round_mono (by exact_mod_cast hbytes)
    have hquotient : quotient bytes ≤ quotient bytes' := by
      rw [quotient, quotient, hk, hk']
      exact div_le_div_of_nonneg_right hround (Nat.cast_nonneg _)
    have hdigits := Grid.round_mono (g := binary64) hquotient
    exact Nat.mul_le_mul_right _ (Int.toNat_le_toNat (roundEven_mono (by linarith)))
  · have hpow : 1000 ^ (k' + 1) ≤ 1000 ^ k := Nat.pow_le_pow_right (by decide) hhigher
    have hlt : 1000 ^ k < bytes.toNat := hlt.resolve_left (by omega)
    have hle' : bytes'.toNat ≤ 1000 ^ (k' + 1) := hle'.resolve_left (by omega)
    omega

end Values

/-- What is written is the number of hundredths with the unit, whole. It is off by half a hundredth of the unit and
the error of the arithmetic, and of two numbers of bytes the larger one is never written as the smaller one. -/
theorem figures_shown (bytes bytes' : UInt64) :
    memoryDisplay bytes = decimal (hundredths bytes) ++ (unitOf bytes).1 ∧
    (memoryDisplay bytes).length < memoryDisplayBufferSize ∧
    |(hundredths bytes : ℚ) / 100 - bytes.toNat / (unitOf bytes).2.toNat| ≤ 51 / 10000 ∧
    (bytes ≤ bytes' →
      hundredths bytes * (unitOf bytes).2.toNat ≤ hundredths bytes' * (unitOf bytes').2.toNat) :=
  ⟨(memoryDisplay_eq bytes).1, (memoryDisplay_eq bytes).2, abs_hundredths_sub_le bytes, hundredths_mono⟩

/-- Written as 1000.00KB and as 1.00MB. -/
theorem figures_shown_megabyte : memoryDisplay 999999 = decimal 100000 ++ "KB" ∧
    hundredths 999999 * (unitOf 999999).2.toNat ≤ hundredths 1000001 * (unitOf 1000001).2.toNat := by
  obtain ⟨htext, -, -, hmono⟩ := figures_shown 999999 1000001
  have hwritten : hundredths 999999 = 100000 := by decide +kernel
  rw [hwritten] at htext
  exact ⟨htext, hmono (by decide)⟩

end Fopd.MemoryDisplay
