import Mathlib.Algebra.Order.Field.Basic
import Mathlib.Algebra.BigOperators.Group.List.Basic
import Mathlib.Tactic.FieldSimp
import Mathlib.Tactic.Linarith
import Mathlib.Tactic.Ring

namespace Fopd.Lib.Mean

variable {K : Type} [Field K]

/-- The mean of no values is 0. -/
def mean (vs : List K) : K := vs.sum / vs.length

/-- The mean of `n + 1` values from that of the first `n`. -/
def update (a : K) (n : ℕ) (v : K) : K := a + (v - a) / ((n + 1 : ℕ) : K)

def running (p : K × ℕ) (vs : List K) : K × ℕ := vs.foldl (fun p v => (update p.1 p.2 v, p.2 + 1)) p

section Exact

variable [CharZero K]

theorem update_mean (vs : List K) (v : K) : update (mean vs) vs.length v = mean (vs ++ [v]) := by
  have hn : ((vs.length + 1 : ℕ) : K) ≠ 0 := Nat.cast_ne_zero.mpr (Nat.succ_ne_zero _)
  rw [update, mean, mean, List.sum_append, List.sum_singleton, List.length_append, List.length_singleton]
  cases vs with
  | nil => simp
  | cons w vs =>
      have hm : (((w :: vs).length : ℕ) : K) ≠ 0 := Nat.cast_ne_zero.mpr (Nat.succ_ne_zero _)
      rw [Nat.cast_add, Nat.cast_one] at hn ⊢
      field_simp
      ring

theorem running_mean (us vs : List K) :
    running (mean us, us.length) vs = (mean (us ++ vs), (us ++ vs).length) := by
  induction vs generalizing us with
  | nil => rw [List.append_nil]; rfl
  | cons v vs ih =>
      have h := ih (us ++ [v])
      rw [List.length_append, List.length_singleton, List.append_assoc, List.singleton_append] at h
      rw [running, List.foldl_cons, update_mean]
      exact h

end Exact

section Order

variable [LinearOrder K] [IsStrictOrderedRing K]

theorem update_le {a v b : K} {n : ℕ} (ha : a ≤ b) (hv : v ≤ b) : update a n v ≤ b := by
  have hn : (0 : K) < ((n + 1 : ℕ) : K) := Nat.cast_pos.mpr (Nat.succ_pos n)
  have h1 : (1 : K) ≤ ((n + 1 : ℕ) : K) := Nat.one_le_cast.mpr (Nat.succ_pos n)
  rw [update, ← le_sub_iff_add_le', div_le_iff₀ hn]
  calc v - a ≤ b - a := sub_le_sub_right hv a
    _ ≤ (b - a) * ((n + 1 : ℕ) : K) := le_mul_of_one_le_right (sub_nonneg.mpr ha) h1

theorem le_update {a v b : K} {n : ℕ} (ha : b ≤ a) (hv : b ≤ v) : b ≤ update a n v := by
  have hn : (0 : K) < ((n + 1 : ℕ) : K) := Nat.cast_pos.mpr (Nat.succ_pos n)
  have h1 : (1 : K) ≤ ((n + 1 : ℕ) : K) := Nat.one_le_cast.mpr (Nat.succ_pos n)
  rw [update, ← sub_le_iff_le_add', le_div_iff₀ hn]
  calc (b - a) * ((n + 1 : ℕ) : K) ≤ b - a := mul_le_of_one_le_right (sub_nonpos.mpr ha) h1
    _ ≤ v - a := sub_le_sub_right hv a

theorem running_mem {lo hi : K} {vs : List K} (hvs : ∀ v ∈ vs, lo ≤ v ∧ v ≤ hi) {p : K × ℕ}
    (hp : lo ≤ p.1 ∧ p.1 ≤ hi) : lo ≤ (running p vs).1 ∧ (running p vs).1 ≤ hi := by
  induction vs generalizing p with
  | nil => exact hp
  | cons v vs ih =>
      obtain ⟨hv, hvs⟩ := List.forall_mem_cons.mp hvs
      exact ih hvs ⟨le_update hp.1 hv.1, update_le hp.2 hv.2⟩

theorem mean_mem {lo hi : K} {vs : List K} (hlo : lo ≤ 0) (hhi : 0 ≤ hi)
    (hvs : ∀ v ∈ vs, lo ≤ v ∧ v ≤ hi) : lo ≤ mean vs ∧ mean vs ≤ hi := by
  have hnil : mean ([] : List K) = 0 := by simp [mean]
  have hp : lo ≤ ((mean [], 0) : K × ℕ).1 ∧ ((mean [], 0) : K × ℕ).1 ≤ hi := by
    rw [hnil]
    exact ⟨hlo, hhi⟩
  have hrun : running (mean [], 0) vs = (mean vs, vs.length) := running_mean [] vs
  have h := running_mem hvs hp
  rwa [hrun] at h

end Order

end Fopd.Lib.Mean
