import Fopd.Lib.Transitions

namespace Fopd.Lib.Following

variable {κ δ : Type} [DecidableEq κ]

inductive Stage (κ : Type)
  | starting
  | making (key : κ) (first : Bool)
  | looking
  | working
  | worked

/-- A party that works with what it has made of a shared key, and makes it anew when it sees that the key has
changed. -/
structure Follower (κ δ : Type) where
  stage : Stage κ := .starting
  old : κ
  made : δ

namespace Follower

variable (f : Follower κ δ)

def look (key : κ) : Option (Follower κ δ) :=
  match f.stage with
  | .starting => some { f with stage := .making key true }
  | .looking => some { f with stage := if key ≠ f.old then .making key false else .working }
  | _ => none

/-- Before the loop it makes its first one, and then looks at the key again. -/
def make (maker : κ → Option δ) : Option (Follower κ δ) :=
  match f.stage with
  | .making key first =>
      (maker key).map fun made => ⟨if first then .looking else .working, key, made⟩
  | _ => none

def work : Option (Follower κ δ) :=
  match f.stage with
  | .working => some { f with stage := .worked }
  | _ => none

def again : Option (Follower κ δ) :=
  match f.stage with
  | .working | .worked => some { f with stage := .looking }
  | _ => none

/-- It has to look again before it works. -/
def Spent : Prop := f.stage = .worked ∨ f.stage = .looking

/-- Where it has looked, the key was `seen`; what it works with is made of that. -/
structure Follows (maker : κ → Option δ) (seen : κ → Prop) : Prop where
  making : ∀ key first, f.stage = .making key first → seen key
  old : f.stage = .working ∨ f.stage = .worked → seen f.old
  made : f.stage = .looking ∨ f.stage = .working ∨ f.stage = .worked → maker f.old = some f.made

end Follower

namespace Follower.Follows

variable {f g : Follower κ δ} {maker : κ → Option δ} {seen seen' : κ → Prop}

omit [DecidableEq κ] in
theorem start (old : κ) (made : δ) : Follows ⟨.starting, old, made⟩ maker seen where
  making := by simp
  old := by simp
  made := by simp

omit [DecidableEq κ] in
theorem mono (h : f.Follows maker seen) (hs : ∀ key, seen key → seen' key) : f.Follows maker seen' :=
  ⟨fun key first hst => hs key (h.making key first hst), fun hst => hs f.old (h.old hst), h.made⟩

theorem look (h : f.Follows maker seen) {key : κ} (hk : seen' key) (hg : f.look key = some g) :
    g.Follows maker seen' := by
  rw [Follower.look] at hg
  split at hg
  next hst =>
    obtain rfl := Option.some.inj hg
    refine ⟨?_, by simp, by simp⟩
    rintro k first ⟨rfl⟩
    exact hk
  next hst =>
    obtain rfl := Option.some.inj hg
    by_cases hne : key ≠ f.old
    · simp only [if_pos hne]
      refine ⟨?_, by simp, by simp⟩
      rintro k first ⟨rfl⟩
      exact hk
    · simp only [if_neg hne]
      refine ⟨by simp, fun _ => ?_, fun _ => h.made (Or.inl hst)⟩
      rwa [← not_not.mp hne]
  next => cases hg

omit [DecidableEq κ] in
theorem make (h : f.Follows maker seen) (hg : f.make maker = some g) : g.Follows maker seen := by
  rw [Follower.make] at hg
  split at hg
  next key first hst =>
    obtain ⟨made, hm, rfl⟩ := Option.map_eq_some_iff.mp hg
    refine ⟨?_, fun _ => h.making key first hst, fun _ => hm⟩
    cases first <;> simp
  next => cases hg

omit [DecidableEq κ] in
theorem work (h : f.Follows maker seen) (hg : f.work = some g) : g.Follows maker seen := by
  rw [Follower.work] at hg
  split at hg
  next hst =>
    obtain rfl := Option.some.inj hg
    exact ⟨by simp, fun _ => h.old (Or.inl hst), fun _ => h.made (Or.inr (Or.inl hst))⟩
  next => cases hg

omit [DecidableEq κ] in
theorem of_work (h : f.Follows maker seen) (hg : f.work = some g) : seen f.old ∧ maker f.old = some f.made := by
  rw [Follower.work] at hg
  split at hg
  next hst => exact ⟨h.old (Or.inl hst), h.made (Or.inr (Or.inl hst))⟩
  next => cases hg

omit [DecidableEq κ] in
theorem again (h : f.Follows maker seen) (hg : f.again = some g) : g.Follows maker seen := by
  rw [Follower.again] at hg
  split at hg
  next hst =>
    obtain rfl := Option.some.inj hg
    exact ⟨by simp, by simp, fun _ => h.made (Or.inr (Or.inl hst))⟩
  next hst =>
    obtain rfl := Option.some.inj hg
    exact ⟨by simp, by simp, fun _ => h.made (Or.inr (Or.inr hst))⟩
  next => cases hg

end Follower.Follows

namespace Follower.Spent

variable {f g : Follower κ δ} {maker : κ → Option δ}

omit [DecidableEq κ]

theorem of_work (hg : f.work = some g) : g.Spent := by
  rw [Follower.work] at hg
  split at hg
  next => exact Option.some.inj hg ▸ Or.inl rfl
  next => cases hg

theorem of_again (hg : f.again = some g) : g.Spent := by
  rw [Follower.again] at hg
  split at hg
  next => exact Option.some.inj hg ▸ Or.inr rfl
  next => exact Option.some.inj hg ▸ Or.inr rfl
  next => cases hg

theorem make_eq_none (h : f.Spent) : f.make maker = none := by
  rcases h with h | h <;> simp [Follower.make, h]

theorem work_eq_none (h : f.Spent) : f.work = none := by
  rcases h with h | h <;> simp [Follower.work, h]

end Follower.Spent

section LastLook

open Transitions

variable {σ ε : Type} (step : σ → ε → Option σ) (init : σ) (looks : ε → Prop) (key : σ → κ)

/-- The last look in the run found this key. -/
def LastSeen (es : List ε) (k : κ) : Prop :=
  ∃ es₁ e es₂ s, es = es₁ ++ e :: es₂ ∧ looks e ∧ (∀ e ∈ es₂, ¬ looks e) ∧ run step init es₁ = some s ∧ key s = k

variable {step init looks key} {es : List ε} {e : ε} {s : σ} {k : κ}

omit [DecidableEq κ] in
theorem lastSeen_append_of_look (h : run step init es = some s) (he : looks e) :
    LastSeen step init looks key (es ++ [e]) (key s) :=
  ⟨es, e, [], s, rfl, he, List.forall_mem_nil _, h, rfl⟩

omit [DecidableEq κ] in
theorem LastSeen.append (h : LastSeen step init looks key es k) (he : ¬ looks e) :
    LastSeen step init looks key (es ++ [e]) k := by
  obtain ⟨es₁, l, es₂, s, rfl, hl, hes, hs, hk⟩ := h
  refine ⟨es₁, l, es₂ ++ [e], s, by simp, hl, ?_, hs, hk⟩
  rw [List.forall_mem_append, List.forall_mem_singleton]
  exact ⟨hes, he⟩

end LastLook

end Fopd.Lib.Following
