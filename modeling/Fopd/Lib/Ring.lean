import Mathlib.Data.List.Rotate
import Mathlib.Tactic.Common

namespace Fopd.Lib.Ring

variable {α : Type} {m : ℕ}

/-- Slots that are written round and round, against the history of all values written. -/
structure Holds (empty : α) (slots : Vector α m) (next : ℕ) (history : List α) : Prop where
  next_eq : next = history.length % m
  stored : ∀ i, i < history.length → history.length ≤ i + m → slots[i % m]? = history[i]?
  unwritten : ∀ j, history.length ≤ j → j < m → slots[j]? = some empty

def recent (m : ℕ) (history : List α) : List α := history.drop (history.length - m)

variable {empty : α} {slots : Vector α m} {next : ℕ} {history : List α}

theorem length_recent : (recent m history).length = min history.length m := by
  rw [recent, List.length_drop]
  omega

namespace Holds

theorem nil : Holds empty (Vector.replicate m empty) 0 [] where
  next_eq := (Nat.zero_mod m).symm
  stored i hi := absurd hi (Nat.not_lt_zero i)
  unwritten j _ hj := by simp [hj]

theorem slot_ne {n i : ℕ} (hi : i < n) (hn : n < i + m) : i % m ≠ n % m := by
  intro he
  have hd : m ∣ n - i := Nat.dvd_of_mod_eq_zero (Nat.sub_mod_eq_zero_of_mod_eq he.symm)
  have := Nat.le_of_dvd (Nat.sub_pos_of_lt hi) hd
  omega

theorem push (h : Holds empty slots next history) (hm : 0 < m) (v : α) :
    Holds empty (slots.setIfInBounds next v) ((next + 1) % m) (history ++ [v]) := by
  obtain ⟨rfl, hs, hu⟩ := h
  have hlen : (history ++ [v]).length = history.length + 1 := List.length_append
  refine ⟨?_, fun i hi hle => ?_, fun j hj hjm => ?_⟩
  · rw [hlen, Nat.mod_add_mod]
  · rw [hlen] at hi hle
    rcases Nat.lt_succ_iff_lt_or_eq.mp hi with hlt | rfl
    · rw [Vector.getElem?_setIfInBounds_ne (slot_ne hlt (by omega)).symm, hs i hlt (by omega),
        List.getElem?_append_left hlt]
    · rw [Vector.getElem?_setIfInBounds_self_of_lt (Nat.mod_lt _ hm), List.getElem?_concat_length]
  · rw [hlen] at hj
    rw [Nat.mod_eq_of_lt (by omega), Vector.getElem?_setIfInBounds_ne (by omega), hu j (by omega) hjm]

/-- Before the first round is complete the slots are in the order of the history, after it they are
a rotation of the last values. -/
theorem perm (h : Holds empty slots next history) :
    slots.toList.Perm (recent m history ++ List.replicate (m - history.length) empty) := by
  obtain ⟨-, hs, hu⟩ := h
  rcases Nat.lt_or_ge history.length m with hlt | hge
  · have heq : slots.toList = recent m history ++ List.replicate (m - history.length) empty := by
      rw [recent, Nat.sub_eq_zero_of_le hlt.le, List.drop_zero]
      apply List.ext_getElem?
      intro j
      rw [Vector.getElem?_toList]
      by_cases hj : j < history.length
      · rw [List.getElem?_append_left hj, ← hs j hj (by omega), Nat.mod_eq_of_lt (by omega)]
      · rw [List.getElem?_append_right (by omega), List.getElem?_replicate]
        by_cases hjm : j < m
        · rw [hu j (by omega) hjm, if_pos (by omega)]
        · rw [if_neg (by omega), Vector.getElem?_eq_none (by omega)]
    rw [heq]
  · have heq : slots.toList.rotate history.length = recent m history := by
      apply List.ext_getElem?
      intro j
      rw [recent, List.getElem?_drop]
      by_cases hj : j < m
      · rw [List.getElem?_rotate (by simpa using hj), Vector.length_toList, Vector.getElem?_toList,
          ← hs (history.length - m + j) (by omega) (by omega)]
        congr 1
        rw [← Nat.add_mod_right (history.length - m + j) m]
        congr 1
        omega
      · rw [List.getElem?_eq_none (by simp; omega), List.getElem?_eq_none (by omega)]
    rw [Nat.sub_eq_zero_of_le hge, List.replicate_zero, List.append_nil, ← heq]
    exact (List.rotate_perm slots.toList history.length).symm

end Holds
end Fopd.Lib.Ring
