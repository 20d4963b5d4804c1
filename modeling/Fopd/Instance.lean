import Fopd.Lib.LazyInit
import Fopd.Statistics

namespace Fopd.Instance

open Data Statistics Lib Lib.LazyInit Lib.Transitions

/-- The functions that call it, each with a variable for what it returns. -/
inductive Site
  | dpsThread
  | snifferThread
  | processPacket
  | pingThread
  | buildGui
  deriving DecidableEq

instance : Fintype Site where
  elems := {.dpsThread, .snifferThread, .processPacket, .pingThread, .buildGui}
  complete site := by cases site <;> decide

/-- The accesses of `getInstance` to the static pointer are taken to be atomic. -/
structure State where
  cell : Cell Site := {}
  pointer : Site → Option Nat := fun _ => none
  objects : Nat → FOPDData := fun _ => {}

inductive Event
  | getInstance (e : LazyInit.Event Site)
  | call (site : Site) (c : Call)
  | read (site : Site) (data : FOPDData)

namespace State

/-- What a call of `getInstance` does to the variable of its caller. -/
def keep (pointer : Site → Option Nat) : LazyInit.Event Site → Site → Option Nat
  | .ret p object => Function.update pointer p (some object)
  | _ => pointer

def step (s : State) : Event → Option State
  | .getInstance e => (s.cell.step e).map fun cell => { s with cell, pointer := keep s.pointer e }
  | .call site c =>
      (s.pointer site).map fun object =>
        { s with objects := Function.update s.objects object (Statistics.call (s.objects object) c) }
  | .read site data => (s.pointer site).bind fun object => if s.objects object = data then some s else none

end State

def start : State := {}

/-- The calls of `getInstance` in a run. -/
def gets (es : List Event) : List (LazyInit.Event Site) :=
  es.filterMap fun | .getInstance e => some e | _ => none

/-- What all threads have called, on whichever object. -/
def madeCalls (es : List Event) : List Call := es.filterMap fun | .call _ c => some c | _ => none

section Runs

variable {es : List Event} {s t : State} {e : Event}

theorem gets_append (es es' : List Event) : gets (es ++ es') = gets es ++ gets es' := List.filterMap_append

theorem madeCalls_append (es es' : List Event) : madeCalls (es ++ es') = madeCalls es ++ madeCalls es' :=
  List.filterMap_append

/-- The pointers come from `getInstance`, and an object that is the only one returned has been called with
everything. -/
structure OneObject (es : List Event) (s : State) : Prop where
  cell : run Cell.step {} (gets es) = some s.cell
  pointer : ∀ site object, s.pointer site = some object → ∃ p, .ret p object ∈ gets es
  object : ∀ i, (∀ p j, .ret p j ∈ gets es → j = i) → s.objects i = calls {} (madeCalls es)

theorem oneObject_start : OneObject [] start := ⟨rfl, nofun, fun _ _ => rfl⟩

theorem gets_concat (es : List Event) (e : LazyInit.Event Site) : gets (es ++ [.getInstance e]) = gets es ++ [e] := by
  rw [gets_append]
  rfl

theorem madeCalls_concat (es : List Event) (site : Site) (c : Call) :
    madeCalls (es ++ [.call site c]) = madeCalls es ++ [c] := by
  rw [madeCalls_append]
  rfl

theorem gets_of_other (h : ∀ e', e ≠ .getInstance e') : gets (es ++ [e]) = gets es := by
  rw [gets_append]
  cases e with
  | getInstance e => exact absurd rfl (h e)
  | call | read => exact List.append_nil _

theorem madeCalls_of_other (h : ∀ site c, e ≠ .call site c) : madeCalls (es ++ [e]) = madeCalls es := by
  rw [madeCalls_append]
  cases e with
  | call site c => exact absurd rfl (h site c)
  | getInstance | read => exact List.append_nil _

theorem keep_eq_some {pointer : Site → Option Nat} {e : LazyInit.Event Site} {site : Site} {object : Nat}
    (h : State.keep pointer e site = some object) : pointer site = some object ∨ e = .ret site object := by
  cases e with
  | ret p object' =>
      by_cases hp : site = p
      · subst hp
        rw [State.keep, Function.update_self, Option.some.injEq] at h
        exact Or.inr (h ▸ rfl)
      · rw [State.keep, Function.update_of_ne hp] at h
        exact Or.inl h
  | test | construct | assign => exact Or.inl h

theorem OneObject.step (h : OneObject es s) (ht : s.step e = some t) : OneObject (es ++ [e]) t := by
  obtain ⟨hcell, hpointer, hobject⟩ := h
  cases e with
  | getInstance e =>
      obtain ⟨cell, hc, rfl⟩ := Option.map_eq_some_iff.mp ht
      refine ⟨?_, fun site object hs => ?_, fun i hi => ?_⟩
      · rw [gets_concat, run_append, hcell]
        exact run_cons_eq_some.mpr ⟨cell, hc, rfl⟩
      · rw [gets_concat]
        rcases keep_eq_some hs with hs | rfl
        · obtain ⟨p, hp⟩ := hpointer site object hs
          exact ⟨p, List.mem_append_left _ hp⟩
        · exact ⟨site, List.mem_append_right _ (List.mem_singleton_self _)⟩
      · rw [madeCalls_of_other (e := .getInstance e) fun _ _ => nofun]
        apply hobject i
        intro p j hj
        apply hi p j
        rw [gets_concat]
        exact List.mem_append_left _ hj
  | call site c =>
      obtain ⟨object, ho, rfl⟩ := Option.map_eq_some_iff.mp ht
      have hgets : gets (es ++ [.call site c]) = gets es := gets_of_other (e := .call site c) fun _ => nofun
      refine ⟨by rwa [hgets], by rwa [hgets], fun i hi => ?_⟩
      rw [hgets] at hi
      obtain ⟨p, hp⟩ := hpointer site object ho
      obtain rfl := hi p object hp
      change Function.update s.objects object _ object = _
      rw [Function.update_self, hobject object hi, madeCalls_concat, calls_append]
      rfl
  | read site data =>
      obtain ⟨object, -, hr⟩ := Option.bind_eq_some_iff.mp ht
      split at hr
      · obtain rfl := Option.some.inj hr
        have hgets : gets (es ++ [.read site data]) = gets es := gets_of_other (e := .read site data) fun _ => nofun
        refine ⟨by rwa [hgets], by rwa [hgets], fun i hi => ?_⟩
        rw [hgets] at hi
        rw [madeCalls_of_other (e := .read site data) fun _ _ => nofun]
        exact hobject i hi
      · cases hr

theorem oneObject_of_run (h : run State.step start es = some s) : OneObject es s :=
  run_induction oneObject_start (fun _ _ _ _ ho ht => ho.step ht) h

/-- The singleton without a lock. At most one object is made for each function that asks for it, and none of
them gets a null pointer. All calls of `getInstance` return one object exactly when none of them assigns the
pointer between two returns, of which the second may be its own; so they do when the first one has assigned before
any other tests the pointer. As long as they do, what a thread reads is what the calls of all threads have made
of the store. -/
theorem one_object_iff (es : List Event) (s : State) (h : run State.step start es = some s) :
    s.cell.made ≤ 5 ∧ (∀ site, s.cell.stage site = .returning → s.cell.current ≠ none) ∧
    (Agree (gets es) ↔ ¬ Replaced (gets es)) ∧
    (∀ site object rest, gets es = .test site :: .construct site :: .assign site object :: rest → Agree (gets es)) ∧
    ∀ es₁ site data es₂, es = es₁ ++ .read site data :: es₂ → Agree (gets es₁) →
      data = calls {} (madeCalls es₁) := by
  have ho := oneObject_of_run h
  refine ⟨made_le_card ho.cell, (assigned_of_run ho.cell).returning, agree_iff ho.cell, ?_, ?_⟩
  · intro site object rest hes
    have hcell := ho.cell
    rw [hes] at hcell ⊢
    exact agree_of_first hcell
  · rintro es₁ site data es₂ rfl ha
    rw [run_append, Option.bind_eq_some_iff] at h
    obtain ⟨t, ht, hs⟩ := h
    obtain ⟨u, hu, -⟩ := run_cons_eq_some.mp hs
    have ho := oneObject_of_run ht
    obtain ⟨object, hp, hr⟩ := Option.bind_eq_some_iff.mp hu
    split at hr
    · next hdata =>
      obtain ⟨p, hret⟩ := ho.pointer site object hp
      rw [← hdata]
      exact ho.object object fun q j hj => ha q j p object hj hret
    · cases hr

/-- Both threads find the pointer empty. The window shows a store that nobody writes to. -/
def race : List Event :=
  [.getInstance (.test .dpsThread), .getInstance (.test .buildGui), .getInstance (.construct .dpsThread),
    .getInstance (.assign .dpsThread 0), .getInstance (.ret .dpsThread 0), .getInstance (.construct .buildGui),
    .getInstance (.assign .buildGui 1), .getInstance (.ret .buildGui 1), .call .dpsThread (.setDPS 5),
    .read .buildGui {}]

theorem one_object_iff_race : ∃ s, run State.step start race = some s ∧ s.cell.made ≤ 5 ∧ ¬ Agree (gets race) := by
  have hrun : (run State.step start race).isSome := by decide +kernel
  obtain ⟨s, hs⟩ := Option.isSome_iff_exists.mp hrun
  obtain ⟨hmade, -, hiff, -, -⟩ := one_object_iff race s hs
  have hreplaced : Replaced (gets race) := ⟨.dpsThread, 0, .buildGui, 1, .buildGui, 1, by decide⟩
  exact ⟨s, hs, hmade, fun ha => hiff.mp ha hreplaced⟩

end Runs

end Fopd.Instance
