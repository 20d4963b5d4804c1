import Fopd.Lib.Transitions

namespace Fopd.Lib.Critical

open Transitions

variable {σ μ ρ ε π : Type}

/-- Statements on the memory and on the variables of the call. -/
structure Body (μ ρ : Type) where
  init : List (μ × ρ → μ × ρ)
  last : μ × ρ → μ × ρ

def Body.run (body : Body μ ρ) (p : μ × ρ) : μ × ρ := body.last (body.init.foldl (fun p f => f p) p)

/-- How an event uses the memory, and what comes after it. -/
inductive Access (σ μ ρ : Type)
  | none (next : σ)
  | bare (read : μ → ρ) (next : ρ → σ)
  | locked (body : Body μ ρ) (next : ρ → σ)

def Access.Leads : Access σ μ ρ → σ → Prop
  | .none next, c => next = c
  | .bare _ next, c => ∃ r, next r = c
  | .locked _ next, c => ∃ r, next r = c

/-- What comes of an access that happens at once. -/
def Access.outcome [Inhabited ρ] (access : Access σ μ ρ) (x : μ) : σ × μ :=
  match access with
  | .none next => (next, x)
  | .bare read next => (next (read x), x)
  | .locked body next => (next (body.run (x, default)).2, (body.run (x, default)).1)

theorem Access.leads_outcome [Inhabited ρ] (access : Access σ μ ρ) (x : μ) : access.Leads (access.outcome x).1 := by
  cases access with
  | none next => exact rfl
  | bare read next => exact ⟨_, rfl⟩
  | locked body next => exact ⟨_, rfl⟩

structure Program (σ μ ρ ε π : Type) where
  party : ε → π
  access : σ → ε → Option (Access σ μ ρ)

/-- The call that has the lock. -/
inductive Holder (μ ρ ε : Type)
  | running (e : ε) (rest : List (μ × ρ → μ × ρ)) (last : μ × ρ → μ × ρ) (vars : ρ)
  | done (e : ε)

def Holder.event : Holder μ ρ ε → ε
  | .running e _ _ _ => e
  | .done e => e

structure State (σ μ ρ ε : Type) where
  client : σ
  memory : μ
  holder : Option (Holder μ ρ ε) := none

inductive Move (ε : Type)
  | act (e : ε)
  | enter (e : ε)
  | exec
  | leave

/-- What happens at once and without the lock. -/
def Move.event : Move ε → Option ε
  | .act e => some e
  | _ => none

theorem read_foldl {read : μ → ρ} {fs : List (μ × ρ → μ × ρ)} (h : ∀ f ∈ fs, ∀ p, read (f p).1 = read p.1)
    (p : μ × ρ) : read (fs.foldl (fun p f => f p) p).1 = read p.1 := by
  induction fs generalizing p with
  | nil => rfl
  | cons f fs ih =>
      obtain ⟨hf, hfs⟩ := List.forall_mem_cons.mp h
      rw [List.foldl_cons, ih hfs, hf]

namespace Program

variable [Inhabited ρ] (P : Program σ μ ρ ε π)

/-- Events that run at once. -/
def atomic (t : σ × μ) (e : ε) : Option (σ × μ) := (P.access t.1 e).map fun access => access.outcome t.2

/-- A party in a call does nothing else. -/
def Free (s : State σ μ ρ ε) (e : ε) : Prop := ∀ h ∈ s.holder, P.party h.event ≠ P.party e

/-- No other party gets between the statements of a body: it stays possible, and what is read without the
lock does not change before the last statement. -/
structure Separate (I : σ → Prop) : Prop where
  keeps : ∀ c e access c', I c → P.access c e = some access → access.Leads c' → I c'
  stable : ∀ c e body next e' access c', I c → P.access c e = some (.locked body next) → P.party e ≠ P.party e' →
    P.access c e' = some access → access.Leads c' → ∃ next', P.access c' e = some (.locked body next')
  blind : ∀ c e body next c' e' read next', P.access c e = some (.locked body next) →
    P.access c' e' = some (.bare read next') → ∀ f ∈ body.init, ∀ p, read (f p).1 = read p.1

/-- The state where the body in progress has not started yet. -/
structure Refines (I : σ → Prop) (s : State σ μ ρ ε) (t : σ × μ) : Prop where
  inv : I s.client
  client : t.1 = s.client
  body : ∀ e rest last vars, s.holder = some (.running e rest last vars) →
    ∃ past next, P.access s.client e = some (.locked ⟨past ++ rest, last⟩ next) ∧
      past.foldl (fun p f => f p) (t.2, default) = (s.memory, vars)
  memory : (∀ e rest last vars, s.holder ≠ some (.running e rest last vars)) → t.2 = s.memory

variable {P} {I : σ → Prop} {s s' : State σ μ ρ ε} {t : σ × μ} {m : Move ε}

theorem refines_free {c : σ} {x : μ} (hc : I c) : P.Refines I ⟨c, x, none⟩ (c, x) where
  inv := hc
  client := rfl
  body _ _ _ _ hr := nomatch hr
  memory _ := rfl

theorem Refines.free (h : P.Refines I s t) (hs : s.holder = none) : t.2 = s.memory := by
  apply h.memory
  rw [hs]
  exact fun _ _ _ _ hh => nomatch hh

/-- Before its last statement a body changes nothing that is read without the lock. -/
theorem Refines.read (hP : P.Separate I) (h : P.Refines I s t) {c : σ} {e : ε} {read : μ → ρ} {next : ρ → σ}
    (he : P.access c e = some (.bare read next)) : read t.2 = read s.memory := by
  obtain ⟨client, memory, holder⟩ := s
  rcases holder with _ | ⟨e', rest, last, vars⟩ | e'
  · exact congrArg read (h.free rfl)
  · obtain ⟨past, _, hbody, hpast⟩ := h.body e' rest last vars rfl
    have hblind := hP.blind _ e' _ _ c e read _ hbody he
    have hfold := read_foldl (fun f hf => hblind f (List.mem_append_left rest hf)) (t.2, default)
    rw [hpast] at hfold
    exact hfold.symm
  · exact congrArg read (h.memory fun _ _ _ _ hh => nomatch hh)

/-- What another party does does not disturb the body in progress. -/
theorem Refines.act (hP : P.Separate I) (h : P.Refines I s t) {e : ε} {access : Access σ μ ρ} {c : σ}
    (he : P.access s.client e = some access) (hfree : P.Free s e) (hc : access.Leads c) :
    P.Refines I { s with client := c } (c, t.2) where
  inv := hP.keeps _ e access c h.inv he hc
  client := rfl
  body e' rest last vars hh := by
    obtain ⟨past, next, hbody, hpast⟩ := h.body e' rest last vars hh
    obtain ⟨next', hnext⟩ := hP.stable _ e' _ _ e access c h.inv hbody (hfree _ hh) he hc
    exact ⟨past, next', hnext, hpast⟩
  memory := h.memory

section Step

variable [DecidableEq π] (P)

instance (s : State σ μ ρ ε) (e : ε) : Decidable (P.Free s e) :=
  inferInstanceAs (Decidable (∀ h ∈ s.holder, P.party h.event ≠ P.party e))

def step (s : State σ μ ρ ε) : Move ε → Option (State σ μ ρ ε)
  | .act e =>
      if P.Free s e then
        match P.access s.client e with
        | some (.none next) => some { s with client := next }
        | some (.bare read next) => some { s with client := next (read s.memory) }
        | _ => none
      else none
  | .enter e =>
      match s.holder, P.access s.client e with
      | none, some (.locked body _) => some { s with holder := some (.running e body.init body.last default) }
      | _, _ => none
  | .exec =>
      match s.holder with
      | some (.running e (f :: rest) last vars) =>
          some { s with
            memory := (f (s.memory, vars)).1
            holder := some (.running e rest last (f (s.memory, vars)).2) }
      | some (.running e [] last vars) =>
          match P.access s.client e with
          | some (.locked _ next) => some ⟨next (last (s.memory, vars)).2, (last (s.memory, vars)).1, some (.done e)⟩
          | _ => none
      | _ => none
  | .leave =>
      match s.holder with
      | some (.done _) => some { s with holder := none }
      | _ => none

variable {P}

/-- A step of a party is nothing, or one event that runs at once; with its last statement a body does. -/
theorem Refines.step (hP : P.Separate I) (h : P.Refines I s t) (hs : P.step s m = some s') :
    (P.Refines I s' t ∧ m.event = none) ∨ ∃ e t', P.atomic t e = some t' ∧ P.Refines I s' t' ∧
      (m.event = some e ∨ m.event = none ∧ ∃ body next, P.access s.client e = some (.locked body next)) := by
  cases m with
  | act e =>
      right
      simp only [Program.step] at hs
      split at hs
      next hfree =>
        split at hs
        next next he =>
          obtain rfl := Option.some.inj hs
          exact ⟨e, (next, t.2), by rw [atomic, h.client, he]; rfl, h.act hP he hfree rfl, Or.inl rfl⟩
        next read next he =>
          obtain rfl := Option.some.inj hs
          rw [← h.read hP he]
          exact ⟨e, (next (read t.2), t.2), by rw [atomic, h.client, he]; rfl, h.act hP he hfree ⟨read t.2, rfl⟩,
            Or.inl rfl⟩
        next => cases hs
      next => cases hs
  | enter e =>
      left
      simp only [Program.step] at hs
      split at hs
      next body next hh he =>
        obtain rfl := Option.some.inj hs
        refine ⟨⟨h.inv, h.client, fun e' rest last vars hr => ?_, fun hr => absurd rfl (hr _ _ _ _)⟩, rfl⟩
        obtain ⟨rfl, rfl, rfl, rfl⟩ := Holder.running.inj (Option.some.inj hr)
        exact ⟨[], next, he, by rw [h.free hh]; rfl⟩
      next => cases hs
  | exec =>
      obtain ⟨client, memory, holder⟩ := s
      rcases holder with _ | ⟨e, _ | ⟨f, rest⟩, last, vars⟩ | e
      · cases hs
      · right
        obtain ⟨past, next, hbody, hpast⟩ := h.body _ _ _ _ rfl
        rw [List.append_nil] at hbody
        have hrun : Body.run ⟨past, last⟩ (t.2, default) = last (memory, vars) := by
          rw [Body.run, hpast]
        simp only [Program.step, hbody] at hs
        obtain rfl := Option.some.inj hs
        exact ⟨e, _, by rw [atomic, h.client, hbody]; rfl, ⟨hP.keeps _ e _ _ h.inv hbody ⟨_, rfl⟩,
          congrArg (fun q => next q.2) hrun, fun _ _ _ _ hr => (nomatch hr), fun _ => congrArg Prod.fst hrun⟩,
          Or.inr ⟨rfl, _, _, hbody⟩⟩
      · left
        obtain rfl := Option.some.inj hs
        obtain ⟨past, next, hbody, hpast⟩ := h.body _ _ _ _ rfl
        refine ⟨⟨h.inv, h.client, fun e' rest' last' vars' hr => ?_, fun hr => absurd rfl (hr _ _ _ _)⟩, rfl⟩
        obtain ⟨rfl, rfl, rfl, rfl⟩ := Holder.running.inj (Option.some.inj hr)
        refine ⟨past ++ [f], next, ?_, ?_⟩
        · rwa [List.append_assoc]
        · rw [List.foldl_append, hpast]
          rfl
      · cases hs
  | leave =>
      left
      obtain ⟨client, memory, holder⟩ := s
      rcases holder with _ | ⟨e, rest, last, vars⟩ | e
      · cases hs
      · cases hs
      · obtain rfl := Option.some.inj hs
        exact ⟨⟨h.inv, h.client, fun _ _ _ _ hr => (nomatch hr), fun _ => h.memory fun _ _ _ _ hr => nomatch hr⟩,
          rfl⟩

/-- Every run of the parties is a run of events that happen at once. What is observed of events that do not
take the lock is the same in both. -/
theorem Refines.run {β : Type} {g : ε → Option β}
    (hg : ∀ c e body next, P.access c e = some (.locked body next) → g e = none) (hP : P.Separate I)
    (h : P.Refines I s t) {ms : List (Move ε)} (hs : run P.step s ms = some s') :
    ∃ es t', run P.atomic t es = some t' ∧ P.Refines I s' t' ∧
      es.filterMap g = (ms.filterMap Move.event).filterMap g := by
  induction ms generalizing s t with
  | nil => exact ⟨[], t, rfl, Option.some.inj hs ▸ h, rfl⟩
  | cons m ms ih =>
      obtain ⟨s₁, h₁, hs₁⟩ := run_cons_eq_some.mp hs
      rw [List.filterMap_cons]
      rcases h.step hP h₁ with ⟨hr, hm⟩ | ⟨e, t₁, ht₁, hr, hm⟩
      · rw [hm]
        exact ih hr hs₁
      · obtain ⟨es, t', ht', hr', hes⟩ := ih hr hs₁
        refine ⟨e :: es, t', run_cons_eq_some.mpr ⟨t₁, ht₁, ht'⟩, hr', ?_⟩
        rcases hm with hm | ⟨hm, body, next, hbody⟩
        · rw [hm, List.filterMap_cons, hes, List.filterMap_cons]
        · rw [hm, List.filterMap_cons, hg _ _ _ _ hbody, hes]

theorem run_rest {c : σ} {e : ε} {body : Body μ ρ} {next : ρ → σ} (he : P.access c e = some (.locked body next))
    (rest : List (μ × ρ → μ × ρ)) (last : μ × ρ → μ × ρ) (vars : ρ) (x : μ) :
    Transitions.run P.step ⟨c, x, some (.running e rest last vars)⟩ (List.replicate (rest.length + 1) .exec ++ [.leave]) =
      some ⟨next (Body.run ⟨rest, last⟩ (x, vars)).2, (Body.run ⟨rest, last⟩ (x, vars)).1, none⟩ := by
  induction rest generalizing x vars with
  | nil =>
      have hexec : P.step ⟨c, x, some (.running e [] last vars)⟩ .exec =
          some ⟨next (last (x, vars)).2, (last (x, vars)).1, some (.done e)⟩ := by
        simp only [Program.step, he]
      exact run_cons_eq_some.mpr ⟨_, hexec, rfl⟩
  | cons f rest ih => exact ih (f (x, vars)).2 (f (x, vars)).1

/-- Who has the lock goes on to release it, and nobody else does anything. -/
theorem Refines.release (h : P.Refines I s t) :
    ∃ ms s', Transitions.run P.step s ms = some s' ∧ s'.holder = none ∧
      (s'.client = s.client ∨ ∃ e body next, P.access s.client e = some (.locked body next) ∧
        (Access.locked body next).Leads s'.client) := by
  obtain ⟨c, x, holder⟩ := s
  rcases holder with _ | ⟨e, rest, last, vars⟩ | e
  · exact ⟨[], _, rfl, rfl, Or.inl rfl⟩
  · obtain ⟨past, next, hbody, -⟩ := h.body _ _ _ _ rfl
    exact ⟨_, _, run_rest hbody rest last vars x, rfl, Or.inr ⟨e, _, _, hbody, _, rfl⟩⟩
  · exact ⟨[.leave], _, rfl, rfl, Or.inl rfl⟩

/-- With the lock free every event that runs at once can be run statement by statement. -/
theorem run_of_atomic {c : σ} {x : μ} {e : ε} {t : σ × μ} (h : P.atomic (c, x) e = some t) :
    ∃ ms, Transitions.run P.step ⟨c, x, none⟩ ms = some ⟨t.1, t.2, none⟩ := by
  obtain ⟨access, ha, rfl⟩ := Option.map_eq_some_iff.mp h
  have hfree : P.Free (⟨c, x, none⟩ : State σ μ ρ ε) e := fun h hh => nomatch hh
  rcases access with next | ⟨read, next⟩ | ⟨body, next⟩
  · exact ⟨[.act e], by rw [Transitions.run, Program.step, if_pos hfree, ha]; rfl⟩
  · exact ⟨[.act e], by rw [Transitions.run, Program.step, if_pos hfree, ha]; rfl⟩
  · refine ⟨.enter e :: (List.replicate (body.init.length + 1) .exec ++ [.leave]), ?_⟩
    have henter : P.step ⟨c, x, none⟩ (.enter e) = some ⟨c, x, some (.running e body.init body.last default)⟩ := by
      rw [Program.step, ha]
    exact run_cons_eq_some.mpr ⟨_, henter, run_rest ha body.init body.last default x⟩

theorem run_of_run_atomic {es : List ε} {c : σ} {x : μ} {t : σ × μ}
    (h : Transitions.run P.atomic (c, x) es = some t) :
    ∃ ms, Transitions.run P.step ⟨c, x, none⟩ ms = some ⟨t.1, t.2, none⟩ := by
  induction es generalizing c x with
  | nil =>
      obtain rfl := Option.some.inj h
      exact ⟨[], rfl⟩
  | cons e es ih =>
      obtain ⟨u, hu, ht⟩ := run_cons_eq_some.mp h
      obtain ⟨ms, hms⟩ := run_of_atomic hu
      obtain ⟨ms', hms'⟩ := ih ht
      exact ⟨ms ++ ms', by rw [run_append, hms, Option.bind_some, hms']⟩

end Step

end Program

end Fopd.Lib.Critical
