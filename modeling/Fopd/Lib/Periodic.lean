import Mathlib.Data.List.Basic
import Mathlib.Data.List.Induction
import Mathlib.Data.Nat.ModEq
import Mathlib.Tactic.Common

namespace Fopd.Lib.Periodic

variable {α : Type}

/-- The history from the last element on that has started it anew. -/
def sinceLast (restarts : α → Bool) (xs : List α) : List α :=
  xs.foldl (fun run x => (if restarts x then [] else run) ++ [x]) []

/-- The elements at the positions 0, `m`, `2 * m` and so on. -/
def every (m : ℕ) (xs : List α) : List α := (xs.zipIdx.filter fun p => p.2 % m = 0).map Prod.fst

/-- A counter beside the elements that it has let through. -/
structure Sampler (α : Type) where
  counter : ℕ := 0
  samples : List α := []

namespace Sampler

def restart (s : Sampler α) (restarts : Bool) : Sampler α := if restarts then {} else s

def feed (m : ℕ) (s : Sampler α) (x : α) : Sampler α where
  counter := (s.counter + 1) % m
  samples := if s.counter = 0 then s.samples ++ [x] else s.samples

def next (restarts : α → Bool) (m : ℕ) (s : Sampler α) (x : α) : Sampler α :=
  (s.restart (restarts x)).feed m x

end Sampler

variable {restarts : α → Bool} {m : ℕ}

theorem sinceLast_append (xs : List α) (x : α) : sinceLast restarts (xs ++ [x]) =
    (if restarts x then [] else sinceLast restarts xs) ++ [x] := by
  rw [sinceLast, List.foldl_concat, ← sinceLast]

theorem sinceLast_suffix (xs : List α) : sinceLast restarts xs <:+ xs := by
  induction xs using List.reverseRecOn with
  | nil => exact List.suffix_rfl
  | append_singleton xs x ih =>
      rw [sinceLast_append]
      split
      next => exact List.suffix_append xs [x]
      next => exact List.suffix_append_self_iff.mpr ih

theorem every_append (xs : List α) (x : α) :
    every m (xs ++ [x]) = every m xs ++ if xs.length % m = 0 then [x] else [] := by
  rw [every, List.zipIdx_append, List.filter_append, List.map_append, ← every, List.zipIdx_singleton, Nat.zero_add]
  by_cases h : xs.length % m = 0 <;> simp [h]

/-- The elements from position `r` on by steps of `m`. -/
theorem every_drop_append {r : ℕ} (hr : r < m) (xs : List α) (x : α) :
    every m ((xs ++ [x]).drop r) = every m (xs.drop r) ++ if xs.length % m = r then [x] else [] := by
  rcases lt_or_ge xs.length r with hlt | hge
  · have hne : xs.length % m ≠ r := by
      rw [Nat.mod_eq_of_lt (hlt.trans hr)]
      exact hlt.ne
    rw [List.drop_eq_nil_of_le hlt.le, List.drop_eq_nil_of_le (by rw [List.length_append]; exact hlt), if_neg hne,
      List.append_nil]
  · have hiff : (xs.length - r) % m = 0 ↔ xs.length % m = r := by
      rw [← Nat.dvd_iff_mod_eq_zero, ← Nat.modEq_iff_dvd' hge, Nat.ModEq, Nat.mod_eq_of_lt hr, eq_comm]
    rw [List.drop_append_of_le_length hge, every_append, List.length_drop]
    simp only [hiff]

theorem every_sublist (m : ℕ) (xs : List α) : (every m xs).Sublist xs := by
  have h : (every m xs).Sublist (xs.zipIdx.map Prod.fst) := List.filter_sublist.map Prod.fst
  rwa [List.zipIdx_map_fst] at h

theorem length_every (hm : 0 < m) (xs : List α) : (every m xs).length = (xs.length + (m - 1)) / m := by
  induction xs using List.reverseRecOn with
  | nil => exact (Nat.div_eq_of_lt (by rw [List.length_nil]; omega)).symm
  | append_singleton xs x ih =>
      have hsucc : (xs ++ [x]).length + (m - 1) = xs.length + (m - 1) + 1 := by
        rw [List.length_append, List.length_singleton]
        omega
      have hdvd : m ∣ xs.length + (m - 1) + 1 ↔ xs.length % m = 0 := by
        rw [Nat.add_assoc, Nat.sub_add_cancel hm, Nat.dvd_add_left (Nat.dvd_refl m), Nat.dvd_iff_mod_eq_zero]
      rw [every_append, List.length_append, ih, hsucc, Nat.succ_div]
      by_cases h : xs.length % m = 0 <;> simp [h, hdvd]

namespace Sampler

/-- The sampler that has seen a history. -/
def after (m : ℕ) (run : List α) : Sampler α := ⟨run.length % m, every m run⟩

theorem after_nil : after m ([] : List α) = {} := by
  simp [after, every]

theorem feed_after (run : List α) (x : α) : (after m run).feed m x = after m (run ++ [x]) := by
  rw [after, after, feed, every_append, List.length_append, List.length_singleton, Nat.mod_add_mod]
  split
  next => rfl
  next => rw [List.append_nil]

theorem restart_after (run : List α) (b : Bool) : (after m run).restart b = after m (if b then [] else run) := by
  cases b with
  | false => rfl
  | true => exact after_nil.symm

theorem foldl_next (xs : List α) : xs.foldl (next restarts m) {} = after m (sinceLast restarts xs) := by
  induction xs using List.reverseRecOn with
  | nil => exact after_nil.symm
  | append_singleton xs x ih =>
      rw [List.foldl_concat, ih, sinceLast_append, next, restart_after, feed_after]

end Sampler

end Fopd.Lib.Periodic
