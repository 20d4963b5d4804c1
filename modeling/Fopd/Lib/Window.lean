import Mathlib.Data.List.TakeWhile
import Mathlib.Order.Lattice

namespace Fopd.Lib.Window

variable {α κ : Type} [LinearOrder κ] (key : α → κ)

def Ordered (q : List α) : Prop := q.Pairwise fun a b => key a ≤ key b

def live (bound : κ) (q : List α) : List α := q.filter fun a => decide (bound < key a)

/-- The front of the queue is dropped up to a moving bound. -/
def dropExpired (bound : κ) (q : List α) : List α := q.dropWhile fun a => decide (key a ≤ bound)

def takeExpired (bound : κ) (q : List α) : List α := q.takeWhile fun a => decide (key a ≤ bound)

variable {key}

theorem takeExpired_append_dropExpired (bound : κ) (q : List α) :
    takeExpired key bound q ++ dropExpired key bound q = q := List.takeWhile_append_dropWhile

theorem key_le_of_mem_takeExpired {bound : κ} {q : List α} {a : α} (h : a ∈ takeExpired key bound q) :
    key a ≤ bound := by
  rw [takeExpired] at h
  simpa using List.mem_takeWhile_imp h

theorem live_eq_nil {bound : κ} {q : List α} (h : ∀ a ∈ q, key a ≤ bound) : live key bound q = [] :=
  List.filter_eq_nil_iff.mpr fun a ha hd => absurd (of_decide_eq_true hd) (not_lt.mpr (h a ha))

theorem live_eq_self {bound : κ} {q : List α} (h : ∀ a ∈ q, bound < key a) : live key bound q = q :=
  List.filter_eq_self.mpr fun a ha => decide_eq_true (h a ha)

theorem dropExpired_eq_self {bound : κ} {q : List α} (h : ∀ a ∈ q, bound < key a) :
    dropExpired key bound q = q := by
  cases q with
  | nil => rfl
  | cons a q =>
      exact List.dropWhile_cons_of_neg fun hd => absurd (of_decide_eq_true hd) (not_le.mpr (h a List.mem_cons_self))

theorem live_append (bound : κ) (q r : List α) :
    live key bound (q ++ r) = live key bound q ++ live key bound r :=
  List.filter_append q r

namespace Ordered

variable {bound : κ} {q r : List α} {a : α}

theorem nil : Ordered key ([] : List α) := List.Pairwise.nil

theorem of_sublist (h : Ordered key r) (hs : q.Sublist r) : Ordered key q := h.sublist hs

theorem push (h : Ordered key q) (ha : ∀ b ∈ q, key b ≤ key a) : Ordered key (q ++ [a]) := by
  refine List.pairwise_append.mpr ⟨h, List.pairwise_singleton _ a, fun b hb c hc => ?_⟩
  rw [List.mem_singleton.mp hc]
  exact ha b hb

theorem lt_of_mem_dropExpired (h : Ordered key q) (ha : a ∈ dropExpired key bound q) : bound < key a := by
  induction q with
  | nil => exact absurd ha List.not_mem_nil
  | cons b q ih =>
      obtain ⟨hb, hq⟩ := List.pairwise_cons.mp h
      simp only [dropExpired, List.dropWhile_cons, decide_eq_true_eq] at ha ih
      by_cases hle : key b ≤ bound
      · rw [if_pos hle] at ha
        exact ih hq ha
      · rw [if_neg hle] at ha
        rcases List.mem_cons.mp ha with rfl | ha
        · exact not_le.mp hle
        · exact lt_of_lt_of_le (not_le.mp hle) (hb a ha)

theorem mem_takeExpired_iff (h : Ordered key q) : a ∈ takeExpired key bound q ↔ a ∈ q ∧ key a ≤ bound := by
  have hs : takeExpired key bound q ++ dropExpired key bound q = q := takeExpired_append_dropExpired bound q
  constructor
  · intro ha
    exact ⟨hs ▸ List.mem_append_left _ ha, key_le_of_mem_takeExpired ha⟩
  · rintro ⟨ha, hle⟩
    rw [← hs] at ha
    exact (List.mem_append.mp ha).resolve_right fun hd => absurd (h.lt_of_mem_dropExpired hd) (not_lt.mpr hle)

/-- What is live in an ordered queue is its end. -/
theorem live_suffix (h : Ordered key q) : live key bound q <:+ q := by
  have hs : takeExpired key bound q ++ dropExpired key bound q = q := takeExpired_append_dropExpired bound q
  have hlive : live key bound q = dropExpired key bound q := by
    rw [← hs, live_append, hs, live_eq_nil fun a ha => key_le_of_mem_takeExpired ha,
      live_eq_self fun a ha => h.lt_of_mem_dropExpired ha, List.nil_append]
  rw [hlive]
  exact List.dropWhile_suffix _

end Ordered
end Fopd.Lib.Window
