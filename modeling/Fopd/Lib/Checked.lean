import Mathlib.Data.List.Basic

namespace Fopd.Lib.Checked

variable {ω α β γ σ : Type}

/-- Running a piece of code: the value it delivers, `none` when it stops without one, and the
obligations it met on the way. An unmet obligation is recorded and does not end the run by itself. -/
structure Exec (ω α : Type) where
  result : Option α
  trace : List ω

namespace Exec

def bind (x : Exec ω α) (f : α → Exec ω β) : Exec ω β :=
  match x.result with
  | none => ⟨none, x.trace⟩
  | some a => ⟨(f a).result, x.trace ++ (f a).trace⟩

end Exec

instance : Monad (Exec ω) where
  pure a := ⟨some a, []⟩
  bind := Exec.bind

def emit (es : List ω) : Exec ω Unit := ⟨some (), es⟩

def stop : Exec ω α := ⟨none, []⟩

def Safely (ok : ω → Prop) (x : Exec ω α) (a : α) : Prop := x.result = some a ∧ ∀ e ∈ x.trace, ok e

@[simp] theorem result_pure (a : α) : (pure a : Exec ω α).result = some a := rfl

@[simp] theorem trace_pure (a : α) : (pure a : Exec ω α).trace = [] := rfl

theorem bind_of_result {x : Exec ω α} {a : α} (h : x.result = some a) (f : α → Exec ω β) :
    x >>= f = ⟨(f a).result, x.trace ++ (f a).trace⟩ := by
  change Exec.bind x f = _
  simp only [Exec.bind, h]

@[simp] theorem result_bind (x : Exec ω α) (f : α → Exec ω β) :
    (x >>= f).result = x.result.bind (fun a => (f a).result) := by
  change (Exec.bind x f).result = _
  cases h : x.result with
  | none => simp only [Exec.bind, h, Option.bind_none]
  | some a => simp only [Exec.bind, h, Option.bind_some]

@[simp] theorem result_emit (es : List ω) : (emit es).result = some () := rfl

variable {ok : ω → Prop}

@[simp] theorem safely_pure {a b : α} : Safely ok (pure a) b ↔ a = b := by
  simp [Safely]

@[simp] theorem safely_emit {es : List ω} {u : Unit} : Safely ok (emit es) u ↔ ∀ e ∈ es, ok e := by
  simp [Safely, emit]

/-- The sequencing rule. It is an equivalence, so it also says how a sequence can go wrong. -/
theorem safely_bind {x : Exec ω α} {f : α → Exec ω β} {b : β} :
    Safely ok (x >>= f) b ↔ ∃ a, Safely ok x a ∧ Safely ok (f a) b := by
  cases h : x.result with
  | none => simp [Safely, h]
  | some a =>
      rw [bind_of_result h]
      simp only [Safely, h, Option.some.injEq, List.mem_append]
      constructor
      · rintro ⟨hr, ht⟩
        exact ⟨a, ⟨rfl, fun e he => ht e (Or.inl he)⟩, hr, fun e he => ht e (Or.inr he)⟩
      · rintro ⟨_, ⟨rfl, hx⟩, hr, ht⟩
        exact ⟨hr, fun e he => he.elim (hx e) (ht e)⟩

theorem Safely.bind {x : Exec ω α} {f : α → Exec ω β} {a : α} {b : β}
    (hx : Safely ok x a) (hf : Safely ok (f a) b) : Safely ok (x >>= f) b :=
  safely_bind.mpr ⟨a, hx, hf⟩

theorem Safely.unique {x : Exec ω α} {a b : α} (ha : Safely ok x a) (hb : Safely ok x b) : a = b :=
  Option.some.inj (ha.1.symm.trans hb.1)

theorem Safely.bind_iff {x : Exec ω α} {f : α → Exec ω β} {a : α} {b : β} (hx : Safely ok x a) :
    Safely ok (x >>= f) b ↔ Safely ok (f a) b := by
  rw [safely_bind]
  constructor
  · rintro ⟨a', ha', hf⟩
    rwa [hx.unique ha']
  · exact fun hf => ⟨a, hx, hf⟩

theorem safely_emit_bind {es : List ω} {f : Unit → Exec ω β} {b : β} :
    Safely ok (emit es >>= f) b ↔ (∀ e ∈ es, ok e) ∧ Safely ok (f ()) b := by
  rw [safely_bind]
  constructor
  · rintro ⟨u, he, hf⟩
    exact ⟨safely_emit.mp he, hf⟩
  · exact fun ⟨he, hf⟩ => ⟨(), safely_emit.mpr he, hf⟩

/-- A `while` loop: the body says whether the next iteration starts from a new state or the loop is
left with a value. The fuel bounds the number of iterations; running out of it delivers nothing. -/
def loop (body : σ → Exec ω (σ ⊕ β)) : Nat → σ → Exec ω β
  | 0, _ => stop
  | fuel + 1, s => do
      match ← body s with
      | .inl s => loop body fuel s
      | .inr b => pure b

theorem loop_continue {body : σ → Exec ω (σ ⊕ β)} {s s' : σ} (h : (body s).result = some (.inl s'))
    (fuel : Nat) : loop body (fuel + 1) s =
      ⟨(loop body fuel s').result, (body s).trace ++ (loop body fuel s').trace⟩ := by
  rw [loop, bind_of_result h]

theorem loop_leave {body : σ → Exec ω (σ ⊕ β)} {s : σ} {b : β} (h : (body s).result = some (.inr b))
    (fuel : Nat) : loop body (fuel + 1) s = ⟨some b, (body s).trace⟩ := by
  rw [loop, bind_of_result h]
  simp

end Fopd.Lib.Checked
