import Mathlib.Data.List.Basic
import Mathlib.Data.List.Induction
import Mathlib.Order.Defs.PartialOrder

namespace Fopd.Lib.Transitions

variable {σ ε : Type} (step : σ → ε → Option σ)

def run : σ → List ε → Option σ
  | s, [] => some s
  | s, e :: es => (step s e).bind fun t => run t es

def Throughout (P : σ → Prop) : σ → List ε → Prop
  | s, [] => P s
  | s, e :: es => P s ∧ ∀ t, step s e = some t → Throughout P t es

def Along (C : σ → ε → Prop) : σ → List ε → Prop
  | _, [] => True
  | s, e :: es => ∀ t, step s e = some t → C s e ∧ Along C t es

/-- What the steps of a run put out, one after the other. -/
def outputs {β : Type} (out : σ → ε → List β) : σ → List ε → List β
  | _, [] => []
  | s, e :: es =>
      match step s e with
      | some t => out s e ++ outputs out t es
      | none => []

variable {step}

instance decidableAlong {C : σ → ε → Prop} [∀ s e, Decidable (C s e)] : ∀ s es, Decidable (Along step C s es)
  | _, [] => .isTrue trivial
  | s, e :: es =>
      match ht : step s e with
      | none => .isTrue fun t h => by
          rw [ht] at h
          cases h
      | some t =>
          have := decidableAlong (C := C) t es
          decidable_of_iff (C s e ∧ Along step C t es) ⟨fun h u hu => by
            obtain rfl := Option.some.inj (ht.symm.trans hu)
            exact h, fun h => h t ht⟩

theorem run_cons_eq_some {s u : σ} {e : ε} {es : List ε} :
    run step s (e :: es) = some u ↔ ∃ t, step s e = some t ∧ run step t es = some u := by
  rw [run, Option.bind_eq_some_iff]

theorem run_append (s : σ) (es es' : List ε) :
    run step s (es ++ es') = (run step s es).bind fun t => run step t es' := by
  induction es generalizing s with
  | nil => rfl
  | cons e es ih =>
      rw [List.cons_append, run, run, Option.bind_assoc]
      congr 1
      funext t
      exact ih t

/-- The invariant rule: what every step keeps holds after every run. -/
theorem run_invariant {I : σ → Prop} (hstep : ∀ s e t, I s → step s e = some t → I t)
    {es : List ε} {s u : σ} (hs : I s) (h : run step s es = some u) : I u := by
  induction es generalizing s with
  | nil => exact Option.some.inj h ▸ hs
  | cons e es ih =>
      obtain ⟨t, ht, hu⟩ := run_cons_eq_some.mp h
      exact ih (hstep s e t hs ht) hu

theorem Along.and {C : σ → ε → Prop} {D : ε → Prop} {s : σ} {es : List ε} (hC : Along step C s es)
    (hD : ∀ e ∈ es, D e) : Along step (fun s e => C s e ∧ D e) s es := by
  induction es generalizing s with
  | nil => trivial
  | cons e es ih =>
      intro t ht
      obtain ⟨he, hes⟩ := List.forall_mem_cons.mp hD
      obtain ⟨hc, hrest⟩ := hC t ht
      exact ⟨⟨hc, he⟩, ih hrest hes⟩

/-- The invariant rule for runs whose steps all meet a condition. -/
theorem run_invariant_along {I : σ → Prop} {C : σ → ε → Prop} (hstep : ∀ s e t, I s → C s e → step s e = some t → I t)
    {es : List ε} {s u : σ} (hs : I s) (hC : Along step C s es) (h : run step s es = some u) : I u := by
  induction es generalizing s with
  | nil => exact Option.some.inj h ▸ hs
  | cons e es ih =>
      obtain ⟨t, ht, hu⟩ := run_cons_eq_some.mp h
      obtain ⟨he, hrest⟩ := hC t ht
      exact ih (hstep s e t hs he ht) hrest hu

/-- The invariant rule for what also depends on the events so far. -/
theorem run_induction {I : List ε → σ → Prop} {s : σ} (hs : I [] s)
    (hstep : ∀ es t e u, I es t → step t e = some u → I (es ++ [e]) u) {es : List ε} {u : σ}
    (h : run step s es = some u) : I es u := by
  induction es using List.reverseRecOn generalizing u with
  | nil => exact Option.some.inj h ▸ hs
  | append_singleton es e ih =>
      rw [run_append, Option.bind_eq_some_iff] at h
      obtain ⟨t, ht, hu⟩ := h
      obtain ⟨v, hv, hvu⟩ := run_cons_eq_some.mp hu
      exact hstep es t e u (ih ht) (hv.trans hvu)

theorem outputs_append_singleton {β : Type} {out : σ → ε → List β} {s t u : σ} {e : ε} {es : List ε}
    (h : run step s es = some t) (ht : step t e = some u) :
    outputs step out s (es ++ [e]) = outputs step out s es ++ out t e := by
  induction es generalizing s with
  | nil =>
      obtain rfl := Option.some.inj h
      simp only [List.nil_append, outputs, ht, List.append_nil]
  | cons e' es ih =>
      obtain ⟨v, hv, hvt⟩ := run_cons_eq_some.mp h
      simp only [List.cons_append, outputs, hv, ih hvt, List.append_assoc]

/-- The invariant rule for what also depends on the events so far and on what has been put out. -/
theorem run_outputs {β : Type} {out : σ → ε → List β} {I : List ε → List β → σ → Prop} {s : σ} (hs : I [] [] s)
    (hstep : ∀ es bs t e u, I es bs t → step t e = some u → I (es ++ [e]) (bs ++ out t e) u) {es : List ε} {u : σ}
    (h : run step s es = some u) : I es (outputs step out s es) u := by
  have hinv : run step s es = some u ∧ I es (outputs step out s es) u := by
    refine run_induction (I := fun es t => run step s es = some t ∧ I es (outputs step out s es) t) ⟨rfl, hs⟩ ?_ h
    rintro es t e u ⟨ht, hi⟩ hu
    refine ⟨?_, outputs_append_singleton ht hu ▸ hstep es _ t e u hi hu⟩
    rw [run_append, ht]
    exact run_cons_eq_some.mpr ⟨u, hu, rfl⟩
  exact hinv.2

/-- The simulation rule: a machine whose steps are steps of another one, or not seen there, has its runs, in
which the same is observed. -/
theorem run_observes {τ ε' β : Type} {step' : τ → ε' → Option τ} {f : σ → τ} {I : σ → Prop} {g : ε → Option β}
    {g' : ε' → Option β} (hI : ∀ s e t, I s → step s e = some t → I t)
    (hf : ∀ s e t, I s → step s e = some t →
      (f t = f s ∧ g e = none) ∨ ∃ e', step' (f s) e' = some (f t) ∧ g' e' = g e)
    {es : List ε} {s u : σ} (hs : I s) (h : run step s es = some u) :
    ∃ es', run step' (f s) es' = some (f u) ∧ es'.filterMap g' = es.filterMap g := by
  induction es generalizing s with
  | nil => exact ⟨[], congrArg (fun s => some (f s)) (Option.some.inj h), rfl⟩
  | cons e es ih =>
      obtain ⟨t, ht, hu⟩ := run_cons_eq_some.mp h
      obtain ⟨es', hes, hseen⟩ := ih (hI s e t hs ht) hu
      rcases hf s e t hs ht with ⟨heq, hnone⟩ | ⟨e', he, hsame⟩
      · exact ⟨es', by rw [← heq, hes], by rw [List.filterMap_cons, hnone, hseen]⟩
      · refine ⟨e' :: es', run_cons_eq_some.mpr ⟨f t, he, hes⟩, ?_⟩
        rw [List.filterMap_cons, List.filterMap_cons, hsame, hseen]

theorem run_simulates {τ ε' : Type} {step' : τ → ε' → Option τ} {f : σ → τ} {I : σ → Prop}
    (hI : ∀ s e t, I s → step s e = some t → I t)
    (hf : ∀ s e t, I s → step s e = some t → f t = f s ∨ ∃ e', step' (f s) e' = some (f t))
    {es : List ε} {s u : σ} (hs : I s) (h : run step s es = some u) : ∃ es', run step' (f s) es' = some (f u) := by
  obtain ⟨es', hes, -⟩ : ∃ es', run step' (f s) es' = some (f u) ∧
      es'.filterMap (fun _ => (none : Option Empty)) = es.filterMap fun _ => none := by
    apply run_observes hI ?_ hs h
    intro s e t hi ht
    exact (hf s e t hi ht).imp (fun heq => ⟨heq, rfl⟩) fun ⟨e', he⟩ => ⟨e', he, rfl⟩
  exact ⟨es', hes⟩

/-- The progress rule: a machine that can always lower a rank until it is 0 can bring it to 0. -/
theorem run_until {I : σ → Prop} {E : ε → Prop} {m : σ → Nat}
    (hstep : ∀ s, I s → m s ≠ 0 → ∃ e t, E e ∧ step s e = some t ∧ I t ∧ m t < m s)
    {s : σ} (hs : I s) : ∃ es t, (∀ e ∈ es, E e) ∧ es.length ≤ m s ∧ run step s es = some t ∧ I t ∧ m t = 0 := by
  induction hn : m s using Nat.strongRecOn generalizing s with
  | ind n ih =>
      by_cases h0 : m s = 0
      · exact ⟨[], s, List.forall_mem_nil _, Nat.zero_le _, rfl, hs, h0⟩
      · obtain ⟨e, t, he, ht, hI, hlt⟩ := hstep s hs h0
        obtain ⟨es, u, hes, hlen, hu, hIu, hz⟩ := ih (m t) (hn ▸ hlt) hI rfl
        refine ⟨e :: es, u, List.forall_mem_cons.mpr ⟨he, hes⟩, ?_, run_cons_eq_some.mpr ⟨t, ht, hu⟩, hIu, hz⟩
        rw [List.length_cons]
        omega

/-- Events that each lower a rank that no other event raises are at most as many as the rank. -/
theorem countP_le_rank {C : ε → Prop} {p : ε → Bool} {m : σ → Nat}
    (hstep : ∀ s e t, C e → step s e = some t → m t + (if p e then 1 else 0) ≤ m s)
    {es : List ε} {s u : σ} (hes : ∀ e ∈ es, C e) (h : run step s es = some u) :
    m u + es.countP p ≤ m s := by
  induction es generalizing s with
  | nil =>
      obtain rfl := Option.some.inj h
      exact Nat.le_refl _
  | cons e es ih =>
      obtain ⟨t, ht, hu⟩ := run_cons_eq_some.mp h
      obtain ⟨he, hes⟩ := List.forall_mem_cons.mp hes
      have h₁ := ih hes hu
      have h₂ := hstep s e t he ht
      rw [List.countP_cons]
      omega

theorem Throughout.head {P : σ → Prop} {s : σ} {es : List ε} (h : Throughout step P s es) : P s := by
  cases es with
  | nil => exact h
  | cons e es => exact h.1

theorem throughout_iff {P : σ → Prop} {s : σ} {es : List ε} :
    Throughout step P s es ↔ ∀ es₁ es₂ t, es = es₁ ++ es₂ → run step s es₁ = some t → P t := by
  constructor
  · intro h es₁ es₂ t he ht
    induction es₁ generalizing s es with
    | nil => exact Option.some.inj ht ▸ h.head
    | cons e es₁ ih =>
        subst he
        obtain ⟨u, hu, hut⟩ := run_cons_eq_some.mp ht
        exact ih (h.2 u hu) rfl hut
  · intro h
    induction es generalizing s with
    | nil => exact h [] [] s rfl rfl
    | cons e es ih =>
        refine ⟨h [] (e :: es) s rfl rfl, fun t ht => ih fun es₁ es₂ u he hu => ?_⟩
        exact h (e :: es₁) es₂ u (by rw [he, List.cons_append]) (run_cons_eq_some.mpr ⟨t, ht, hu⟩)

/-- A property that each step keeps exactly under a condition on that step holds throughout a run
exactly when all its steps meet the condition. -/
theorem throughout_iff_along {I P : σ → Prop} {C : σ → ε → Prop}
    (hinv : ∀ s e t, I s → step s e = some t → I t)
    (hstep : ∀ s e t, I s → P s → step s e = some t → (P t ↔ C s e))
    {s : σ} (hI : I s) (hP : P s) (es : List ε) : Throughout step P s es ↔ Along step C s es := by
  induction es generalizing s with
  | nil => exact ⟨fun _ => trivial, fun _ => hP⟩
  | cons e es ih =>
      constructor
      · intro h t ht
        have hPt := (h.2 t ht).head
        exact ⟨(hstep s e t hI hP ht).mp hPt, (ih (hinv s e t hI ht) hPt).mp (h.2 t ht)⟩
      · intro h
        refine ⟨hP, fun t ht => ?_⟩
        obtain ⟨hC, hes⟩ := h t ht
        exact (ih (hinv s e t hI ht) ((hstep s e t hI hP ht).mpr hC)).mpr hes

section Rounds

variable (next : σ → ε → σ)

/-- The inputs of a machine that never stops, each with the state that it finds. -/
def rounds : σ → List ε → List (σ × ε)
  | _, [] => []
  | s, e :: es => (s, e) :: rounds (next s e) es

variable {next} {s : σ} {es : List ε}

theorem rounds_invariant {I : σ → Prop} (hstep : ∀ s e, I s → I (next s e)) (hs : I s) :
    ∀ p ∈ rounds next s es, I p.1 := by
  induction es generalizing s with
  | nil => exact List.forall_mem_nil _
  | cons e es ih => exact List.forall_mem_cons.mpr ⟨hs, ih (hstep s e hs)⟩

/-- What never decreases is at most what it is in the end. -/
theorem rounds_le {κ : Type} [Preorder κ] {f : σ → κ} (hstep : ∀ s e, f s ≤ f (next s e)) :
    f s ≤ f (es.foldl next s) ∧ ∀ p ∈ rounds next s es, f (next p.1 p.2) ≤ f (es.foldl next s) := by
  induction es generalizing s with
  | nil => exact ⟨le_rfl, List.forall_mem_nil _⟩
  | cons e es ih =>
      obtain ⟨hle, hall⟩ := ih (s := next s e)
      exact ⟨le_trans (hstep s e) hle, List.forall_mem_cons.mpr ⟨hle, hall⟩⟩

end Rounds

end Fopd.Lib.Transitions
