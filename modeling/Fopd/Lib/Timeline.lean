import Mathlib.Data.List.Basic
import Mathlib.Data.List.Range

namespace Fopd.Lib.Timeline

variable {ω : Type}

inductive Item (ω : Type)
  | job (w : ω)
  | signal (value : Nat)

/-- What there is to see of a queue whose jobs and signals are executed in order: what is left of it, the value that
the fence has reached and the last one it is to reach, and the event with the values that it waits for. -/
structure View (ω : Type) where
  items : List (Item ω) := []
  completed : Nat := 0
  signaled : Nat := 0
  event : Bool := false
  registered : List Nat := []

namespace View

variable (q : View ω)

def submit (w : ω) : View ω := { q with items := q.items ++ [.job w] }

def signal (value : Nat) : View ω := { q with items := q.items ++ [.signal value], signaled := value }

def setEventOnCompletion (value : Nat) : View ω :=
  if value ≤ q.completed then { q with event := true } else { q with registered := q.registered ++ [value] }

/-- What is executed next: a signal sets the fence, and the event if that was waited for. -/
def execute : Option (View ω) :=
  match q.items with
  | [] => none
  | .job _ :: items => some { q with items }
  | .signal value :: items =>
      some { q with
        items
        completed := value
        event := q.event || q.registered.any (· ≤ value)
        registered := q.registered.filter (value < ·) }

/-- The event resets itself when a wait on it returns. -/
def wait : Option (View ω) := if q.event then some { q with event := false } else none

end View

def jobsOf : List (Item ω) → List ω := List.filterMap fun | .job w => some w | .signal _ => none

def signalsOf : List (Item ω) → List Nat := List.filterMap fun | .job _ => none | .signal value => some value

theorem mem_jobs {items : List (Item ω)} {w : ω} : w ∈ jobsOf items ↔ .job w ∈ items := by
  rw [jobsOf, List.mem_filterMap]
  constructor
  · rintro ⟨item, hm, h⟩
    cases item with
    | job w' => exact Option.some.inj h ▸ hm
    | signal value => cases h
  · exact fun h => ⟨_, h, rfl⟩

theorem mem_signals {items : List (Item ω)} {value : Nat} : value ∈ signalsOf items ↔ .signal value ∈ items := by
  rw [signalsOf, List.mem_filterMap]
  constructor
  · rintro ⟨item, hm, h⟩
    cases item with
    | job w => cases h
    | signal value' => exact Option.some.inj h ▸ hm
  · exact fun h => ⟨_, h, rfl⟩

theorem jobs_append (items items' : List (Item ω)) : jobsOf (items ++ items') = jobsOf items ++ jobsOf items' :=
  List.filterMap_append

theorem signals_append (items items' : List (Item ω)) :
    signalsOf (items ++ items') = signalsOf items ++ signalsOf items' := List.filterMap_append

/-- The signals ahead are those between the fence and the last one. -/
structure WellFormed (q : View ω) : Prop where
  le : q.completed ≤ q.signaled
  signals : signalsOf q.items = List.range' (q.completed + 1) (q.signaled - q.completed)

/-- Each of these jobs that is still in the queue has a signal with at most this value behind it. -/
def Covered (q : View ω) (w : ω) (value : Nat) : Prop :=
  ∀ l₁ l₂, q.items = l₁ ++ .job w :: l₂ → ∃ u ≤ value, .signal u ∈ l₂

section WellFormed

variable {q q' : View ω} {w w' : ω} {value : Nat}

theorem wellFormed_start : WellFormed ({} : View ω) := ⟨le_rfl, rfl⟩

theorem WellFormed.signal_mem (h : WellFormed q) : .signal value ∈ q.items ↔ q.completed < value ∧ value ≤ q.signaled := by
  have hle := h.le
  rw [← mem_signals, h.signals, List.mem_range'_1]
  omega

theorem WellFormed.submit (h : WellFormed q) (w : ω) : WellFormed (q.submit w) := by
  refine ⟨h.le, ?_⟩
  change signalsOf (q.items ++ [.job w]) = _
  rw [signals_append]
  exact (List.append_nil _).trans h.signals

theorem WellFormed.signal (h : WellFormed q) : WellFormed (q.signal (q.signaled + 1)) := by
  have hle := h.le
  refine ⟨Nat.le_succ_of_le hle, ?_⟩
  change signalsOf (q.items ++ [.signal (q.signaled + 1)]) = List.range' (q.completed + 1) (q.signaled + 1 - q.completed)
  have hlen : q.signaled + 1 - q.completed = q.signaled - q.completed + 1 := by omega
  have hlast : q.completed + 1 + (q.signaled - q.completed) = q.signaled + 1 := by omega
  rw [signals_append, h.signals, hlen, List.range'_1_concat, hlast]
  rfl

theorem WellFormed.setEventOnCompletion (h : WellFormed q) (value : Nat) : WellFormed (q.setEventOnCompletion value) := by
  rw [View.setEventOnCompletion]
  split <;> exact ⟨h.le, h.signals⟩

theorem setEventOnCompletion_signaled (q : View ω) (value : Nat) :
    (q.setEventOnCompletion value).signaled = q.signaled := by
  rw [View.setEventOnCompletion]
  split <;> rfl

theorem execute_signaled (he : q.execute = some q') : q'.signaled = q.signaled := by
  rw [View.execute] at he
  split at he
  next => cases he
  all_goals
    obtain rfl := Option.some.inj he
    rfl

/-- A step of the execution: the jobs go, the fence takes the next value. -/
theorem execute_cases (h : WellFormed q) (he : q.execute = some q') :
    (∃ w items, q.items = .job w :: items ∧ q' = { q with items }) ∨
    ∃ items, q.items = .signal (q.completed + 1) :: items ∧ q.completed < q.signaled ∧
      q' = { q with
        items
        completed := q.completed + 1
        event := q.event || q.registered.any (· ≤ q.completed + 1)
        registered := q.registered.filter (q.completed + 1 < ·) } := by
  rw [View.execute] at he
  split at he
  next => cases he
  next w items hq => exact Or.inl ⟨w, items, hq, (Option.some.inj he).symm⟩
  next value items hq =>
    have hmem : .signal value ∈ q.items := hq ▸ List.mem_cons_self
    have hlt := h.signal_mem.mp hmem
    have hvalue : value = q.completed + 1 := by
      have hs := h.signals
      rw [hq, (by omega : q.signaled - q.completed = q.signaled - q.completed - 1 + 1), List.range'_succ] at hs
      exact (List.cons.inj hs).1
    subst hvalue
    exact Or.inr ⟨items, hq, by omega, (Option.some.inj he).symm⟩

theorem WellFormed.execute (h : WellFormed q) (he : q.execute = some q') : WellFormed q' := by
  have hs := h.signals
  have hle := h.le
  rcases execute_cases h he with ⟨w, items, hq, rfl⟩ | ⟨items, hq, hlt, rfl⟩
  · rw [hq] at hs
    exact ⟨hle, hs⟩
  · refine ⟨hlt, ?_⟩
    rw [hq, (by omega : q.signaled - q.completed = q.signaled - (q.completed + 1) + 1), List.range'_succ] at hs
    exact (List.cons.inj hs).2

theorem execute_items (he : q.execute = some q') : ∃ item, q.items = item :: q'.items := by
  rw [View.execute] at he
  split at he
  next => cases he
  next hq =>
    obtain rfl := Option.some.inj he
    exact ⟨_, hq⟩
  next hq =>
    obtain rfl := Option.some.inj he
    exact ⟨_, hq⟩

/-- Once the fence has reached the value, the job is done. -/
theorem Covered.not_mem (h : Covered q w value) (hw : WellFormed q) (hle : value ≤ q.completed) : .job w ∉ q.items := by
  intro hm
  obtain ⟨l₁, l₂, hq⟩ := List.append_of_mem hm
  obtain ⟨u, hu, hs⟩ := h l₁ l₂ hq
  have hmem : .signal u ∈ q.items := by
    rw [hq]
    exact List.mem_append_right _ (List.mem_cons_of_mem _ hs)
  have hlt := (hw.signal_mem.mp hmem).1
  omega

theorem covered_of_not_mem (h : .job w ∉ q.items) (value : Nat) : Covered q w value := by
  intro l₁ l₂ hq
  exact absurd (hq ▸ List.mem_append_right l₁ List.mem_cons_self) h

theorem Covered.of_items (h : Covered q w value) (hi : q'.items = q.items) : Covered q' w value := by
  rw [Covered, hi]
  exact h

theorem append_singleton_eq {α : Type} {l l₁ l₂ : List α} {a b : α} (h : l ++ [a] = l₁ ++ b :: l₂) :
    (l₂ = [] ∧ a = b) ∨ ∃ l₂', l₂ = l₂' ++ [a] ∧ l = l₁ ++ b :: l₂' := by
  rcases List.eq_nil_or_concat' l₂ with rfl | ⟨l₂', c, rfl⟩
  · obtain ⟨-, hab⟩ := List.append_inj' h rfl
    exact Or.inl ⟨rfl, (List.cons.inj hab).1⟩
  · rw [← List.cons_append, ← List.append_assoc] at h
    obtain ⟨hl, hac⟩ := List.append_inj' h rfl
    exact Or.inr ⟨l₂', by rw [(List.cons.inj hac).1], hl⟩

theorem Covered.submit (h : Covered q w value) (hne : w' ≠ w) : Covered (q.submit w') w value := by
  intro l₁ l₂ hq
  rcases append_singleton_eq hq with ⟨-, he⟩ | ⟨l₂', rfl, hold⟩
  · exact absurd (Item.job.inj he) hne
  · obtain ⟨u, hu, hs⟩ := h l₁ l₂' hold
    exact ⟨u, hu, List.mem_append_left _ hs⟩

theorem Covered.signal (h : Covered q w value) (value' : Nat) : Covered (q.signal value') w value := by
  intro l₁ l₂ hq
  rcases append_singleton_eq hq with ⟨-, he⟩ | ⟨l₂', rfl, hold⟩
  · cases he
  · obtain ⟨u, hu, hs⟩ := h l₁ l₂' hold
    exact ⟨u, hu, List.mem_append_left _ hs⟩

theorem covered_signal (q : View ω) (w : ω) (value : Nat) : Covered (q.signal value) w value := by
  intro l₁ l₂ hq
  rcases append_singleton_eq hq with ⟨-, he⟩ | ⟨l₂', rfl, -⟩
  · cases he
  · exact ⟨value, le_rfl, List.mem_append_right _ (List.mem_singleton_self _)⟩

theorem Covered.execute (h : Covered q w value) (he : q.execute = some q') : Covered q' w value := by
  obtain ⟨item, hitem⟩ := execute_items he
  intro l₁ l₂ hq
  exact h (item :: l₁) l₂ (by rw [hitem, hq, List.cons_append])

end WellFormed

section Waiting

/-- Nobody waits: the event is not set, and nothing will set it. -/
def Quiet (q : View ω) : Prop := q.event = false ∧ q.registered = []

/-- The event is set exactly when the value has been reached, or it will be. -/
def Awaits (q : View ω) (value : Nat) : Prop :=
  (q.event = true ∧ q.registered = [] ∧ value ≤ q.completed) ∨
    (q.event = false ∧ q.registered = [value] ∧ q.completed < value)

variable {q q' : View ω} {value : Nat}

theorem Quiet.setEventOnCompletion (h : Quiet q) (value : Nat) : Awaits (q.setEventOnCompletion value) value := by
  obtain ⟨he, hr⟩ := h
  rw [View.setEventOnCompletion]
  by_cases hle : value ≤ q.completed
  · rw [if_pos hle]
    exact Or.inl ⟨rfl, hr, hle⟩
  · rw [if_neg hle]
    exact Or.inr ⟨he, by rw [hr]; rfl, not_le.mp hle⟩

theorem Quiet.execute (h : Quiet q) (hw : WellFormed q) (he : q.execute = some q') : Quiet q' := by
  obtain ⟨hev, hr⟩ := h
  rcases execute_cases hw he with ⟨w, items, -, rfl⟩ | ⟨items, -, -, rfl⟩
  · exact ⟨hev, hr⟩
  · refine ⟨?_, ?_⟩
    · simp [hev, hr]
    · simp [hr]

theorem Awaits.execute (h : Awaits q value) (hw : WellFormed q) (he : q.execute = some q') : Awaits q' value := by
  rcases execute_cases hw he with ⟨w, items, -, rfl⟩ | ⟨items, -, -, rfl⟩
  · exact h
  · rcases h with ⟨hev, hr, hle⟩ | ⟨hev, hr, hlt⟩
    · exact Or.inl ⟨by simp [hev], by simp [hr], Nat.le_succ_of_le hle⟩
    · by_cases hv : value ≤ q.completed + 1
      · exact Or.inl ⟨by simp [hr, hv], by simp [hr, hv], hv⟩
      · exact Or.inr ⟨by simp [hev, hr, hv], by simp [hr, not_le.mp hv], not_le.mp hv⟩

theorem Awaits.wait (h : Awaits q value) (hq : q.wait = some q') :
    value ≤ q.completed ∧ Quiet q' ∧ q' = { q with event := false } := by
  rw [View.wait] at hq
  split at hq
  next hev =>
    obtain rfl := Option.some.inj hq
    rcases h with ⟨-, hr, hle⟩ | ⟨hev', -, -⟩
    · exact ⟨hle, ⟨rfl, hr⟩, rfl⟩
    · rw [hev] at hev'
      cases hev'
  next => cases hq

end Waiting

section Guarded

/-- The job that `out` uses, if any, has no signal behind it yet. -/
structure Guarded (q : View ω) (due : ω → Nat) (out : Option ω) : Prop where
  wellFormed : WellFormed q
  due_le : ∀ w, due w ≤ q.signaled
  covered : ∀ w, some w ≠ out → Covered q w (due w)
  nodup : (jobsOf q.items).Nodup

variable {q q' : View ω} {due : ω → Nat} {out : Option ω} {w : ω}

theorem guarded_start : Guarded ({} : View ω) (fun _ => 0) none where
  wellFormed := wellFormed_start
  due_le _ := le_rfl
  covered _ _ := covered_of_not_mem List.not_mem_nil 0
  nodup := List.nodup_nil

theorem Guarded.not_mem (h : Guarded q due out) (hw : some w ≠ out) (hle : due w ≤ q.completed) :
    .job w ∉ q.items := (h.covered w hw).not_mem h.wellFormed hle

/-- A queue whose fence has caught up is empty. -/
theorem Guarded.items_eq_nil (h : Guarded q due none) (hq : q.signaled ≤ q.completed) : q.items = [] := by
  rw [List.eq_nil_iff_forall_not_mem]
  intro item hm
  cases item with
  | job w => exact h.not_mem (Option.some_ne_none w) ((h.due_le w).trans hq) hm
  | signal value =>
      have hlt := h.wellFormed.signal_mem.mp hm
      omega

theorem Guarded.submit (h : Guarded q due none) (hw : due w = 0) : Guarded (q.submit w) due (some w) where
  wellFormed := h.wellFormed.submit w
  due_le := h.due_le
  covered w' hw' := (h.covered w' (Option.some_ne_none w')).submit fun he => hw' (congrArg some he.symm)
  nodup := by
    have hfree : w ∉ jobsOf q.items := by
      rw [mem_jobs]
      exact h.not_mem (Option.some_ne_none w) (hw ▸ Nat.zero_le _)
    change (jobsOf (q.items ++ [.job w])).Nodup
    rw [jobs_append]
    refine List.nodup_append.mpr ⟨h.nodup, List.pairwise_singleton _ w, fun w' hold w'' hnew he => hfree ?_⟩
    rw [← List.mem_singleton.mp hnew, ← he]
    exact hold

theorem Guarded.signal [DecidableEq ω] (h : Guarded q due (some w)) :
    Guarded (q.signal (q.signaled + 1)) (Function.update due w (q.signaled + 1)) none where
  wellFormed := h.wellFormed.signal
  due_le w' := by
    by_cases hw' : w' = w
    · subst hw'
      rw [Function.update_self]
      exact le_rfl
    · rw [Function.update_of_ne hw']
      exact Nat.le_succ_of_le (h.due_le w')
  covered w' _ := by
    by_cases hw' : w' = w
    · subst hw'
      rw [Function.update_self]
      exact covered_signal q w' _
    · rw [Function.update_of_ne hw']
      exact (h.covered w' fun he => hw' (Option.some.inj he)).signal _
  nodup := by
    change (jobsOf (q.items ++ [.signal _])).Nodup
    rw [jobs_append]
    exact (List.append_nil _).symm ▸ h.nodup

theorem Guarded.execute (h : Guarded q due out) (he : q.execute = some q') : Guarded q' due out where
  wellFormed := h.wellFormed.execute he
  due_le w := (h.due_le w).trans_eq (execute_signaled he).symm
  covered w hw := (h.covered w hw).execute he
  nodup := by
    obtain ⟨item, hitem⟩ := execute_items he
    have hnodup := h.nodup
    rw [hitem, ← List.singleton_append, jobs_append] at hnodup
    exact (List.nodup_append.mp hnodup).2.1

theorem Guarded.setEventOnCompletion (h : Guarded q due out) (value : Nat) :
    Guarded (q.setEventOnCompletion value) due out where
  wellFormed := h.wellFormed.setEventOnCompletion value
  due_le w := (h.due_le w).trans_eq (setEventOnCompletion_signaled q value).symm
  covered w hw := (h.covered w hw).of_items (by rw [View.setEventOnCompletion]; split <;> rfl)
  nodup := by
    rw [View.setEventOnCompletion]
    split <;> exact h.nodup

theorem Guarded.wait (h : Guarded q due out) (event : Bool) : Guarded { q with event } due out where
  wellFormed := ⟨h.wellFormed.le, h.wellFormed.signals⟩
  due_le := h.due_le
  covered w hw := (h.covered w hw).of_items rfl
  nodup := h.nodup

/-- The value of what is free need not be known any more. -/
theorem Guarded.clear [DecidableEq ω] (h : Guarded q due none) (hle : due w ≤ q.completed) :
    Guarded q (Function.update due w 0) none where
  wellFormed := h.wellFormed
  due_le w' := by
    by_cases hw' : w' = w
    · subst hw'
      rw [Function.update_self]
      exact Nat.zero_le _
    · rw [Function.update_of_ne hw']
      exact h.due_le w'
  covered w' hne := by
    by_cases hw' : w' = w
    · subst hw'
      exact covered_of_not_mem (h.not_mem hne hle) _
    · rw [Function.update_of_ne hw']
      exact h.covered w' hne
  nodup := h.nodup

end Guarded

end Fopd.Lib.Timeline
