import Mathlib.Data.List.Basic

namespace Fopd.Lib.Commute

variable {σ ε κ : Type} {f : σ → ε → σ} {key : ε → κ}

theorem foldl_move_front (hcomm : ∀ s a b, key a ≠ key b → f (f s a) b = f (f s b) a) {e : ε}
    {us vs : List ε} (hus : ∀ u ∈ us, key u ≠ key e) (s : σ) :
    (us ++ e :: vs).foldl f s = (us ++ vs).foldl f (f s e) := by
  induction us generalizing s with
  | nil => rfl
  | cons u us ih =>
      obtain ⟨hu, hus⟩ := List.forall_mem_cons.mp hus
      rw [List.cons_append, List.foldl_cons, ih hus, hcomm s u e hu]
      rfl

variable [DecidableEq κ]

def withKey (key : ε → κ) (k : κ) (es : List ε) : List ε := es.filter fun e => decide (key e = k)

theorem withKey_append (k : κ) (es es' : List ε) :
    withKey key k (es ++ es') = withKey key k es ++ withKey key k es' := List.filter_append es es'

theorem withKey_cons_self (e : ε) (es : List ε) :
    withKey key (key e) (e :: es) = e :: withKey key (key e) es := by
  simp [withKey]

theorem withKey_cons_ne {k : κ} {e : ε} (h : key e ≠ k) (es : List ε) :
    withKey key k (e :: es) = withKey key k es := by
  simp [withKey, h]

theorem withKey_eq_nil {k : κ} {es : List ε} (h : ∀ e ∈ es, key e ≠ k) : withKey key k es = [] := by
  rw [withKey, List.filter_eq_nil_iff]
  simpa using h

theorem split_at_first {k : κ} {e : ε} {es rest : List ε} (h : withKey key k es = e :: rest) :
    ∃ us vs, es = us ++ e :: vs ∧ ∀ u ∈ us, key u ≠ k := by
  obtain ⟨us, vs, hes, hus, hk, -⟩ := List.filter_eq_cons_iff.mp h
  exact ⟨us, vs, hes, by simpa using hus⟩

/-- The final state depends only on what is done under each key. -/
theorem foldl_eq_of_withKey_eq (hcomm : ∀ s a b, key a ≠ key b → f (f s a) b = f (f s b) a)
    {es es' : List ε} (h : ∀ k, withKey key k es = withKey key k es') (s : σ) :
    es.foldl f s = es'.foldl f s := by
  induction es generalizing s es' with
  | nil =>
      cases es' with
      | nil => rfl
      | cons e es' => exact absurd ((h (key e)).trans (withKey_cons_self e es')) (List.cons_ne_nil _ _).symm
  | cons e es ih =>
      have he := h (key e)
      rw [withKey_cons_self] at he
      obtain ⟨us, vs, rfl, hus⟩ := split_at_first he.symm
      rw [foldl_move_front hcomm hus, List.foldl_cons]
      apply ih
      intro k
      by_cases hk : key e = k
      · subst hk
        rw [withKey_append, withKey_eq_nil hus, withKey_cons_self, List.nil_append] at he
        rw [withKey_append, withKey_eq_nil hus, List.nil_append]
        exact (List.cons.inj he).2
      · have hk' := h k
        rwa [withKey_cons_ne hk, withKey_append, withKey_cons_ne hk, ← withKey_append] at hk'

end Fopd.Lib.Commute
