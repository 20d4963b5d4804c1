import Mathlib.Algebra.BigOperators.Fin
import Mathlib.Algebra.Order.BigOperators.Group.Finset
import Mathlib.Data.Fintype.Card
import Mathlib.Data.List.Sublists
import Fopd.Lib.Transitions

namespace Fopd.Lib.LazyInit

open Transitions

variable {π : Type} [DecidableEq π]

inductive Stage
  | idle
  | constructing
  | constructed (object : Nat)
  | returning
  deriving DecidableEq

/-- The pointer to an object that is made when it is first asked for, with the number of objects made so far. -/
structure Cell (π : Type) where
  current : Option Nat := none
  made : Nat := 0
  stage : π → Stage := fun _ => .idle

inductive Event (π : Type)
  | test (p : π)
  | construct (p : π)
  | assign (p : π) (object : Nat)
  | ret (p : π) (object : Nat)
  deriving DecidableEq

def Cell.step (c : Cell π) : Event π → Option (Cell π)
  | .test p =>
      if c.stage p = .idle then
        some { c with stage := Function.update c.stage p (if c.current = none then .constructing else .returning) }
      else none
  | .construct p =>
      if c.stage p = .constructing then
        some { c with made := c.made + 1, stage := Function.update c.stage p (.constructed c.made) }
      else none
  | .assign p object =>
      if c.stage p = .constructed object then
        some { c with current := some object, stage := Function.update c.stage p .returning }
      else none
  | .ret p object =>
      if c.stage p = .returning ∧ c.current = some object then
        some { c with stage := Function.update c.stage p .idle }
      else none

inductive Step (c : Cell π) : Event π → Cell π → Prop
  | testEmpty {p} (hp : c.stage p = .idle) (hc : c.current = none) :
      Step c (.test p) { c with stage := Function.update c.stage p .constructing }
  | testFull {p} (hp : c.stage p = .idle) (hc : c.current ≠ none) :
      Step c (.test p) { c with stage := Function.update c.stage p .returning }
  | construct {p} (hp : c.stage p = .constructing) :
      Step c (.construct p) { c with made := c.made + 1, stage := Function.update c.stage p (.constructed c.made) }
  | assign {p object} (hp : c.stage p = .constructed object) :
      Step c (.assign p object) { c with current := some object, stage := Function.update c.stage p .returning }
  | ret {p object} (hp : c.stage p = .returning) (hc : c.current = some object) :
      Step c (.ret p object) { c with stage := Function.update c.stage p .idle }

theorem step_cases {c d : Cell π} {e : Event π} (h : c.step e = some d) : Step c e d := by
  cases e with
  | test p =>
      obtain ⟨hp, hd⟩ := Option.ite_none_right_eq_some.mp h
      obtain rfl := Option.some.inj hd
      by_cases hc : c.current = none
      · rw [if_pos hc]
        exact .testEmpty hp hc
      · rw [if_neg hc]
        exact .testFull hp hc
  | construct p =>
      obtain ⟨hp, hd⟩ := Option.ite_none_right_eq_some.mp h
      obtain rfl := Option.some.inj hd
      exact .construct hp
  | assign p object =>
      obtain ⟨hp, hd⟩ := Option.ite_none_right_eq_some.mp h
      obtain rfl := Option.some.inj hd
      exact .assign hp
  | ret p object =>
      obtain ⟨⟨hp, hc⟩, hd⟩ := Option.ite_none_right_eq_some.mp h
      obtain rfl := Option.some.inj hd
      exact .ret hp hc

def Constructs : Event π → Bool
  | .construct _ => true
  | _ => false

def ConstructsBy (p : π) (e : Event π) : Bool := e = .construct p

def assignmentOf : Event π → Option Nat
  | .assign _ object => some object
  | _ => none

/-- The objects that the pointer has been set to. -/
def assignments (es : List (Event π)) : List Nat := es.filterMap assignmentOf

omit [DecidableEq π] in
theorem assignments_append (es es' : List (Event π)) :
    assignments (es ++ es') = assignments es ++ assignments es' := List.filterMap_append

/-- The pointer is the last assignment, and no object is assigned twice. -/
structure Assigned (es : List (Event π)) (c : Cell π) : Prop where
  current : c.current = (assignments es).getLast?
  nodup : (assignments es).Nodup
  lt : ∀ object ∈ assignments es, object < c.made
  pending : ∀ p object, c.stage p = .constructed object → object < c.made ∧ object ∉ assignments es
  apart : ∀ p q object, c.stage p = .constructed object → c.stage q = .constructed object → p = q
  returning : ∀ p, c.stage p = .returning → c.current ≠ none

omit [DecidableEq π] in
theorem assigned_start : Assigned [] ({} : Cell π) :=
  ⟨rfl, List.nodup_nil, List.forall_mem_nil _, nofun, nofun, nofun⟩

section Steps

variable {c d : Cell π} {e : Event π} {es : List (Event π)}

theorem stage_of_update {stage : π → Stage} {p q : π} {s s' : Stage} (h : Function.update stage p s q = s')
    (hne : s ≠ s') : stage q = s' := by
  by_cases hqp : q = p
  · rw [hqp, Function.update_self] at h
    exact absurd h hne
  · rwa [Function.update_of_ne hqp] at h

/-- A step that leaves the pointer and the objects as they are. -/
theorem Assigned.silent (h : Assigned es c) (he : assignmentOf e = none) (p : π) {s : Stage}
    (hs : ∀ object, s ≠ .constructed object) (hr : s = .returning → c.current ≠ none) :
    Assigned (es ++ [e]) { c with stage := Function.update c.stage p s } := by
  have heq : assignments (es ++ [e]) = assignments es := by
    rw [assignments_append, assignments, assignments, List.filterMap_cons, he]
    exact List.append_nil _
  obtain ⟨h₁, h₂, h₃, h₄, h₅, h₆⟩ := h
  rw [← heq] at h₁ h₂ h₃ h₄
  refine ⟨h₁, h₂, h₃, fun q object hq => h₄ q object (stage_of_update hq (hs object)), ?_, fun q hq => ?_⟩
  · intro q r object hq hq'
    exact h₅ q r object (stage_of_update hq (hs object)) (stage_of_update hq' (hs object))
  · by_cases hret : s = .returning
    · exact hr hret
    · exact h₆ q (stage_of_update hq hret)

theorem Assigned.construct {p : π} (h : Assigned es c) : Assigned (es ++ [.construct p])
    { c with made := c.made + 1, stage := Function.update c.stage p (.constructed c.made) } := by
  have heq : assignments (es ++ [.construct p]) = assignments es := by
    rw [assignments_append]
    exact List.append_nil _
  have hfresh : c.made ∉ assignments es := fun hm => Nat.lt_irrefl _ (h.lt _ hm)
  have hother {q : π} {object : Nat} (hq : Function.update c.stage p (.constructed c.made) q = .constructed object)
      (hne : q ≠ p) : c.stage q = .constructed object := by
    rwa [Function.update_of_ne hne] at hq
  have hown {object : Nat} (hp : Function.update c.stage p (.constructed c.made) p = .constructed object) :
      object = c.made := by
    rw [Function.update_self] at hp
    exact (Stage.constructed.inj hp).symm
  refine ⟨by rw [heq]; exact h.current, by rw [heq]; exact h.nodup, ?_, ?_, ?_, ?_⟩
  · rw [heq]
    exact fun object hm => Nat.lt_succ_of_lt (h.lt object hm)
  · intro q object hq
    rw [heq]
    by_cases hqp : q = p
    · subst hqp
      rw [hown hq]
      exact ⟨Nat.lt_succ_self _, hfresh⟩
    · obtain ⟨hlt, hm⟩ := h.pending q object (hother hq hqp)
      exact ⟨Nat.lt_succ_of_lt hlt, hm⟩
  · intro q r object hq hr
    by_cases hqp : q = p <;> by_cases hrp : r = p
    · rw [hqp, hrp]
    · subst hqp
      have hlt := (h.pending r object (hother hr hrp)).1
      rw [hown hq] at hlt
      exact absurd hlt (Nat.lt_irrefl _)
    · subst hrp
      have hlt := (h.pending q object (hother hq hqp)).1
      rw [hown hr] at hlt
      exact absurd hlt (Nat.lt_irrefl _)
    · exact h.apart q r object (hother hq hqp) (hother hr hrp)
  · exact fun q hq => h.returning q (stage_of_update hq nofun)

theorem Assigned.assign {p : π} {object : Nat} (h : Assigned es c) (hp : c.stage p = .constructed object) :
    Assigned (es ++ [.assign p object])
      { c with current := some object, stage := Function.update c.stage p .returning } := by
  have heq : assignments (es ++ [.assign p object]) = assignments es ++ [object] := assignments_append _ _
  obtain ⟨hlt, hm⟩ := h.pending p object hp
  refine ⟨by rw [heq, List.getLast?_concat], ?_, ?_, ?_, ?_, nofun⟩
  · rw [heq, ← List.concat_eq_append]
    exact h.nodup.concat hm
  · rw [heq, List.forall_mem_append, List.forall_mem_singleton]
    exact ⟨h.lt, hlt⟩
  · intro q other hq
    have hold := stage_of_update hq nofun
    obtain ⟨hlt', hm'⟩ := h.pending q other hold
    refine ⟨hlt', ?_⟩
    rw [heq, List.mem_append, List.mem_singleton, not_or]
    refine ⟨hm', fun hsame => ?_⟩
    obtain rfl := h.apart q p object (hsame ▸ hold) hp
    simp only [Function.update_self, reduceCtorEq] at hq
  · intro q r other hq hr
    exact h.apart q r other (stage_of_update hq nofun) (stage_of_update hr nofun)

theorem Assigned.step (h : Assigned es c) (hst : Step c e d) : Assigned (es ++ [e]) d := by
  cases hst with
  | testEmpty hp hc => exact h.silent rfl _ nofun nofun
  | testFull hp hc => exact h.silent rfl _ nofun fun _ => hc
  | construct hp => exact h.construct
  | assign hp => exact h.assign hp
  | ret hp hc => exact h.silent rfl _ nofun nofun

theorem assigned_of_run (h : run Cell.step {} es = some d) : Assigned es d :=
  run_induction assigned_start (fun _ _ _ _ ha hst => ha.step (step_cases hst)) h

/-- What a call returns is the object assigned last. -/
theorem ret_eq (es₁ : List (Event π)) (p : π) {object : Nat} (es₂ : List (Event π))
    (h : run Cell.step {} (es₁ ++ .ret p object :: es₂) = some d) : (assignments es₁).getLast? = some object := by
  rw [run_append, Option.bind_eq_some_iff] at h
  obtain ⟨c, hc, hd⟩ := h
  obtain ⟨b, hb, -⟩ := run_cons_eq_some.mp hd
  cases step_cases hb with
  | ret hp hcurrent => rw [← (assigned_of_run hc).current, hcurrent]

/-- All the calls have returned the same object. -/
def Agree (es : List (Event π)) : Prop :=
  ∀ p i q j, .ret p i ∈ es → .ret q j ∈ es → i = j

/-- Some call has assigned between two returns, of which the second may be its own. -/
def Replaced (es : List (Event π)) : Prop :=
  ∃ p i q object r j, [.ret p i, .assign q object, .ret r j].Sublist es

omit [DecidableEq π] in
theorem exists_assign {es : List (Event π)} (h : assignments es ≠ []) : ∃ q object, .assign q object ∈ es := by
  obtain ⟨object, ho⟩ := List.exists_mem_of_ne_nil _ h
  obtain ⟨e, he, hassign⟩ := List.mem_filterMap.mp ho
  cases e with
  | assign q object => exact ⟨q, object, he⟩
  | test | construct | ret => cases hassign

theorem replaced_of_ne {es₁ es₂ es₃ : List (Event π)} {p q : π} {i j : Nat} (hne : i ≠ j)
    (h : run Cell.step {} (es₁ ++ .ret p i :: (es₂ ++ .ret q j :: es₃)) = some d) :
    Replaced (es₁ ++ .ret p i :: (es₂ ++ .ret q j :: es₃)) := by
  have hi := ret_eq es₁ p _ h
  have hj : (assignments (es₁ ++ .ret p i :: es₂)).getLast? = some j := by
    apply ret_eq (es₁ ++ .ret p i :: es₂) q es₃
    rw [List.append_assoc, List.cons_append]
    exact h
  have hbetween : assignments es₂ ≠ [] := by
    intro hnil
    have heq : assignments (es₁ ++ .ret p i :: es₂) = assignments es₁ ++ assignments es₂ := assignments_append _ _
    rw [heq, hnil, List.append_nil, hi] at hj
    exact hne (Option.some.inj hj)
  obtain ⟨r, object, hr⟩ := exists_assign hbetween
  have hpair : [Event.assign r object, .ret q j].Sublist (es₂ ++ .ret q j :: es₃) :=
    (List.singleton_sublist.mpr hr).append (List.cons_sublist_cons.mpr (List.nil_sublist es₃))
  exact ⟨p, i, r, object, q, j, (hpair.cons_cons _).trans (List.sublist_append_right es₁ _)⟩

theorem ne_of_replaced {es₁ es₂ es₃ : List (Event π)} {p q r : π} {i j object : Nat}
    (hq : .assign q object ∈ es₂)
    (h : run Cell.step {} (es₁ ++ .ret p i :: (es₂ ++ .ret r j :: es₃)) = some d) : i ≠ j := by
  have hi : i ∈ assignments es₁ := List.mem_of_getLast? (ret_eq es₁ p _ h)
  have hbefore : assignments (es₁ ++ .ret p i :: es₂) = assignments es₁ ++ assignments es₂ := assignments_append _ _
  have hj : (assignments es₁ ++ assignments es₂).getLast? = some j := by
    rw [← hbefore]
    apply ret_eq (es₁ ++ .ret p i :: es₂) r es₃
    rw [List.append_assoc, List.cons_append]
    exact h
  have hne : assignments es₂ ≠ [] :=
    List.ne_nil_of_mem (List.mem_filterMap.mpr ⟨Event.assign q object, hq, rfl⟩)
  rw [List.getLast?_append_of_ne_nil _ hne] at hj
  have hnodup := (assigned_of_run h).nodup
  have hall : assignments (es₁ ++ .ret p i :: (es₂ ++ .ret r j :: es₃)) =
      assignments es₁ ++ (assignments es₂ ++ assignments es₃) := by
    have hret (p : π) (i : Nat) (es : List (Event π)) : assignments (.ret p i :: es) = assignments es := rfl
    rw [assignments_append, hret, assignments_append, hret]
  rw [hall, List.nodup_append] at hnodup
  exact hnodup.2.2 i hi j (List.mem_append_left _ (List.mem_of_getLast? hj))

/-- All calls return one object exactly when none of them assigns between two returns. -/
theorem agree_iff (h : run Cell.step {} es = some d) : Agree es ↔ ¬ Replaced es := by
  constructor
  · rintro ha ⟨p, i, q, object, r, j, hs⟩
    obtain ⟨l₁, l₂, rfl, hp, hs⟩ := List.cons_sublist_iff.mp hs
    obtain ⟨l₃, l₄, rfl, hq, hs⟩ := List.cons_sublist_iff.mp hs
    have hr := List.singleton_sublist.mp hs
    have hij := ha p i r j (List.mem_append_left _ hp) (List.mem_append_right _ (List.mem_append_right _ hr))
    obtain ⟨a, b, rfl⟩ := List.append_of_mem hp
    obtain ⟨a', b', rfl⟩ := List.append_of_mem hr
    have hmem : Event.assign q object ∈ b ++ (l₃ ++ a') := List.mem_append_right _ (List.mem_append_left _ hq)
    have hrun : run Cell.step {} (a ++ .ret p i :: ((b ++ (l₃ ++ a')) ++ .ret r j :: b')) = some d := by simpa using h
    exact ne_of_replaced hmem hrun hij
  · intro hr p i q j hp hq
    by_contra hne
    apply hr
    obtain ⟨l₁, l₂, rfl⟩ := List.append_of_mem hp
    rcases List.mem_append.mp hq with hq | hq
    · obtain ⟨l₃, l₄, rfl⟩ := List.append_of_mem hq
      rw [List.append_assoc, List.cons_append] at h ⊢
      exact replaced_of_ne (Ne.symm hne) h
    · rcases List.mem_cons.mp hq with heq | hq
      · exact absurd (Event.ret.inj heq).2.symm hne
      · obtain ⟨l₃, l₄, rfl⟩ := List.append_of_mem hq
        exact replaced_of_ne hne h

/-- An object is there, and nobody is about to assign another one. -/
structure Settled (c : Cell π) : Prop where
  current : c.current ≠ none
  constructing : ∀ p, c.stage p ≠ .constructing
  constructed : ∀ p object, c.stage p ≠ .constructed object

theorem Settled.step (h : Settled c) (hst : Step c e d) : Settled d ∧ assignmentOf e = none := by
  obtain ⟨hc, hn, hs⟩ := h
  cases hst with
  | testEmpty hp hnone => exact absurd hnone hc
  | testFull | ret =>
      refine ⟨⟨hc, fun q hq => hn q (stage_of_update hq nofun), ?_⟩, rfl⟩
      exact fun q object hq => hs q object (stage_of_update hq nofun)
  | construct hp => exact absurd hp (hn _)
  | assign hp => exact absurd hp (hs _ _)

theorem Settled.assignments_eq_nil (h : Settled c) (hr : run Cell.step c es = some d) : assignments es = [] := by
  induction es generalizing c with
  | nil => rfl
  | cons e es ih =>
      obtain ⟨b, hb, hd⟩ := run_cons_eq_some.mp hr
      obtain ⟨hsettled, he⟩ := h.step (step_cases hb)
      rw [assignments, List.filterMap_cons, he]
      exact ih hsettled hd

theorem settled_of_first {p : π} {object : Nat}
    (h : run Cell.step ({} : Cell π) [.test p, .construct p, .assign p object] = some d) : Settled d := by
  obtain ⟨b, hb, h⟩ := run_cons_eq_some.mp h
  obtain ⟨c, hc, h⟩ := run_cons_eq_some.mp h
  obtain ⟨d, hd, h⟩ := run_cons_eq_some.mp h
  obtain rfl := Option.some.inj h
  cases step_cases hb with
  | testFull hp hcurrent => exact absurd rfl hcurrent
  | testEmpty hp hcurrent =>
      cases step_cases hc with
      | construct hp =>
          cases step_cases hd with
          | assign hp =>
              refine ⟨Option.some_ne_none _, fun q => ?_, fun q object => ?_⟩ <;>
                by_cases hqp : q = p <;> simp [hqp]

/-- It is enough that one call has assigned before any other tests the pointer. -/
theorem agree_of_first {p : π} {object : Nat} {rest : List (Event π)}
    (h : run Cell.step {} (.test p :: .construct p :: .assign p object :: rest) = some d) :
    Agree (.test p :: .construct p :: .assign p object :: rest) := by
  rw [agree_iff h]
  rintro ⟨q, i, r, object', q', j, hs⟩
  have hrun : (run Cell.step {} [.test p, .construct p, .assign p object]).bind (fun c => run Cell.step c rest) =
      some d := by
    rw [← run_append]
    exact h
  obtain ⟨c, hc, hrest⟩ := Option.bind_eq_some_iff.mp hrun
  have hnil := (settled_of_first hc).assignments_eq_nil hrest
  simp only [List.cons_sublist_cons', reduceCtorEq, false_and, or_false] at hs
  have hmem : Event.assign r object' ∈ rest := hs.subset (by simp)
  have hobject : object' ∈ assignments rest := List.mem_filterMap.mpr ⟨_, hmem, rfl⟩
  rw [hnil] at hobject
  cases hobject

/-- Whoever has made an object never finds the pointer empty again. -/
structure Once (p : π) (es : List (Event π)) (c : Cell π) : Prop where
  found : es.countP (ConstructsBy p) ≠ 0 → (∃ object, c.stage p = .constructed object) ∨ c.current ≠ none
  le : es.countP (ConstructsBy p) + (if c.stage p = .constructing then 1 else 0) ≤ 1

theorem once_start (p : π) : Once p [] ({} : Cell π) := ⟨fun h => absurd rfl h, by simp⟩

theorem constructsBy_append (p : π) (es : List (Event π)) (e : Event π) :
    (es ++ [e]).countP (ConstructsBy p) = es.countP (ConstructsBy p) + if e = .construct p then 1 else 0 := by
  rw [List.countP_append, List.countP_singleton]
  simp [ConstructsBy]

theorem Once.step {p : π} (h : Once p es c) (hst : Step c e d) : Once p (es ++ [e]) d := by
  obtain ⟨hf, hle⟩ := h
  cases hst with
  | @testEmpty q hq hc =>
      by_cases hqp : p = q
      · subst hqp
        have h0 : es.countP (ConstructsBy p) = 0 := by
          by_contra hne
          rcases hf hne with ⟨object, hp⟩ | hcurrent
          · rw [hq] at hp
            cases hp
          · exact hcurrent hc
        constructor <;> rw [constructsBy_append] <;> simp [h0]
      · constructor <;> rw [constructsBy_append]
        · simpa [hqp] using hf
        · simpa [hqp] using hle
  | @testFull q hq hc =>
      constructor <;> rw [constructsBy_append]
      · exact fun _ => Or.inr hc
      · by_cases hqp : p = q
        · subst hqp
          simp only [reduceCtorEq, if_false, Function.update_self]
          omega
        · simpa [hqp] using hle
  | @construct q hq =>
      constructor <;> rw [constructsBy_append]
      · by_cases hqp : p = q
        · subst hqp
          exact fun _ => Or.inl ⟨_, Function.update_self ..⟩
        · have hne : ¬ q = p := fun h => hqp h.symm
          simpa [hqp, hne] using hf
      · by_cases hqp : p = q
        · subst hqp
          simpa [hq] using hle
        · have hne : ¬ q = p := fun h => hqp h.symm
          simpa [hqp, hne] using hle
  | @assign q object hq =>
      constructor <;> rw [constructsBy_append]
      · exact fun _ => Or.inr (Option.some_ne_none _)
      · by_cases hqp : p = q
        · subst hqp
          simp only [reduceCtorEq, if_false, Function.update_self]
          omega
        · simpa [hqp] using hle
  | @ret q object hq hc =>
      constructor <;> rw [constructsBy_append]
      · exact fun _ => Or.inr (hc ▸ Option.some_ne_none _)
      · by_cases hqp : p = q
        · subst hqp
          simp only [reduceCtorEq, if_false, Function.update_self]
          omega
        · simpa [hqp] using hle

theorem once_of_run (p : π) (h : run Cell.step {} es = some d) : Once p es d :=
  run_induction (once_start p) (fun _ _ _ _ ho hst => ho.step (step_cases hst)) h

theorem made_step (hst : Step c e d) : d.made = c.made + if Constructs e then 1 else 0 := by
  cases hst <;> rfl

theorem made_run (h : run Cell.step c es = some d) : d.made = c.made + es.countP Constructs := by
  induction es generalizing c with
  | nil =>
      obtain rfl := Option.some.inj h
      rfl
  | cons e es ih =>
      obtain ⟨b, hb, hd⟩ := run_cons_eq_some.mp h
      rw [ih hd, made_step (step_cases hb), List.countP_cons]
      omega

theorem countP_constructs [Fintype π] (es : List (Event π)) : es.countP Constructs = ∑ p, es.countP (ConstructsBy p) := by
  induction es with
  | nil => simp
  | cons e es ih =>
      have he : (if Constructs e = true then 1 else 0) = ∑ p : π, if ConstructsBy p e = true then 1 else 0 := by
        cases e with
        | construct q => simp [Constructs, ConstructsBy]
        | test | assign | ret => simp [Constructs, ConstructsBy]
      simp only [List.countP_cons, Finset.sum_add_distrib, ← he, ih]

/-- At most one object for each party. -/
theorem made_le_card [Fintype π] (h : run Cell.step ({} : Cell π) es = some d) : d.made ≤ Fintype.card π := by
  have hmade : d.made = 0 + es.countP Constructs := made_run h
  rw [hmade, Nat.zero_add, countP_constructs, Fintype.card_eq_sum_ones]
  apply Finset.sum_le_sum
  intro p _
  have hle := (once_of_run p h).le
  omega

end Steps

end Fopd.Lib.LazyInit
