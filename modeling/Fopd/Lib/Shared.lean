import Mathlib.Data.List.Basic
import Mathlib.Order.Defs.PartialOrder

namespace Fopd.Lib.Shared

variable {σ ι α β : Type}

/-- The store between two operations, with all operations made so far. -/
structure World (step : σ → ι → σ) (init : σ) where
  made : List ι
  data : σ
  reached : data = made.foldl step init

section World

variable {step : σ → ι → σ} {init : σ}

namespace World

def start : World step init := ⟨[], init, rfl⟩

def perform (w : World step init) (ops : List ι) : World step init where
  made := w.made ++ ops
  data := ops.foldl step w.data
  reached := by rw [List.foldl_append, ← w.reached]

/-- Operations are only ever added. -/
instance : Preorder (World step init) where
  le w w' := w.made <+: w'.made
  le_refl w := List.prefix_refl w.made
  le_trans _ _ _ := List.IsPrefix.trans

theorem le_perform (w : World step init) (ops : List ι) : w ≤ w.perform ops := List.prefix_append w.made ops

theorem exists_of_le {w w' : World step init} (h : w ≤ w') : ∃ ops : List ι, w'.data = ops.foldl step w.data := by
  obtain ⟨ops, hops⟩ := h
  exact ⟨ops, by rw [w'.reached, ← hops, List.foldl_append, ← w.reached]⟩

end World

/-- A read, after what the others have done. -/
def get (others : List ι) (getter : σ → α) : StateM (World step init) α := fun w =>
  (getter (w.perform others).data, w.perform others)

def set (others : List ι) (op : ι) : StateM (World step init) Unit := fun w =>
  ((), (w.perform others).perform [op])

end World

/-- Running the program never takes the state back. -/
def Advances [Preorder σ] (x : StateM σ α) : Prop := ∀ s, s ≤ (x.run s).2

section Advances

theorem advances_pure [Preorder σ] (a : α) : Advances (pure a : StateM σ α) := fun s => le_refl s

theorem Advances.bind [Preorder σ] {x : StateM σ α} {f : α → StateM σ β} (hx : Advances x)
    (hf : ∀ a, Advances (f a)) : Advances (x >>= f) := by
  intro s
  calc s ≤ (x.run s).2 := hx s
    _ ≤ ((f (x.run s).1).run (x.run s).2).2 := hf (x.run s).1 (x.run s).2

variable {step : σ → ι → σ} {init : σ} (others : List ι)

theorem advances_get (getter : σ → α) : Advances (get others getter : StateM (World step init) α) := fun w =>
  w.le_perform others

theorem advances_set (op : ι) : Advances (set others op : StateM (World step init) Unit) := fun w =>
  le_trans (w.le_perform others) (World.le_perform _ [op])

end Advances

def Ensures (pre : σ → Prop) (x : StateM σ α) (post : α → σ → Prop) : Prop :=
  ∀ s, pre s → post (x.run s).1 (x.run s).2

def Stable [Preorder σ] (P : σ → Prop) : Prop := ∀ ⦃s t⦄, s ≤ t → P s → P t

section Ensures

variable {pre : σ → Prop} {mid : α → σ → Prop} {post : β → σ → Prop}

theorem ensures_pure {b : β} (h : ∀ s, pre s → post b s) : Ensures pre (pure b) post := h

theorem Ensures.bind {x : StateM σ α} {f : α → StateM σ β} (hx : Ensures pre x mid)
    (hf : ∀ a, Ensures (mid a) (f a) post) : Ensures pre (x >>= f) post := by
  intro s hs
  exact hf (x.run s).1 (x.run s).2 (hx s hs)

theorem Ensures.ite {p : Prop} [Decidable p] {x y : StateM σ β} (hx : p → Ensures pre x post)
    (hy : ¬ p → Ensures pre y post) : Ensures pre (if p then x else y) post := by
  split
  next h => exact hx h
  next h => exact hy h

theorem Ensures.mono {post' : β → σ → Prop} {x : StateM σ β} (hx : Ensures pre x post)
    (h : ∀ b s, post b s → post' b s) : Ensures pre x post' := fun s hs => h _ _ (hx s hs)

theorem Ensures.of_pre {pre' : σ → Prop} {x : StateM σ β} (hx : Ensures pre x post)
    (h : ∀ s, pre' s → pre s) : Ensures pre' x post := fun s hs => hx s (h s hs)

theorem Advances.ensures [Preorder σ] {P : σ → Prop} {x : StateM σ α} (hx : Advances x) (hP : Stable P) :
    Ensures P x fun _ => P := fun s hs => hP (hx s) hs

variable {step : σ → ι → σ} {init : σ}

/-- A read of what follows from all operations so far. -/
def read (others : List ι) (getter : World step init → α) : StateM (World step init) α := fun w =>
  (getter (w.perform others), w.perform others)

theorem ensures_read {P : World step init → Prop} (hP : Stable P) (others : List ι)
    (getter : World step init → α) : Ensures P (read others getter) fun a w => P w ∧ a = getter w :=
  fun w hw => ⟨hP (w.le_perform others) hw, rfl⟩

theorem ensures_get {P : World step init → Prop} (hP : Stable P) (others : List ι) (getter : σ → α) :
    Ensures P (get others getter) fun a w => P w ∧ a = getter w.data := ensures_read hP others fun w => getter w.data

end Ensures

end Fopd.Lib.Shared
