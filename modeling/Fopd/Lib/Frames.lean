import Mathlib.Data.List.Basic

namespace Fopd.Lib.Frames

variable {α : Type} (size : α → Nat)

/-- The first element of a frame announces how many elements follow it. -/
def Complete : List α → Prop
  | [] => False
  | a :: t => t.length = size a

def Incomplete : List α → Prop
  | [] => False
  | a :: t => t.length < size a

instance : DecidablePred (Complete size)
  | [] => inferInstanceAs (Decidable False)
  | a :: t => inferInstanceAs (Decidable (t.length = size a))

/-- `fs` are complete frames, `r` is what is left of `l` after them and holds no further frame. -/
structure Decomposes (l : List α) (fs : List (List α)) (r : List α) : Prop where
  complete : ∀ f ∈ fs, Complete size f
  covers : l = fs.flatten ++ r
  remainder : r = [] ∨ Incomplete size r

def frames : List α → List (List α)
  | [] => []
  | a :: t => if size a ≤ t.length then (a :: t.take (size a)) :: frames (t.drop (size a)) else []
termination_by l => l.length
decreasing_by
  rw [List.length_drop]
  exact Nat.lt_succ_of_le (Nat.sub_le _ _)

variable {size}

theorem Complete.ne_nil {f : List α} (h : Complete size f) : f ≠ [] := by
  rintro rfl
  exact h

theorem Complete.length_pos {f : List α} (h : Complete size f) : 0 < f.length :=
  List.length_pos_iff.mpr h.ne_nil

theorem Complete.length_eq {f : List α} (h : Complete size f) (hn : 0 < f.length) :
    f.length = size f[0] + 1 := by
  cases f with
  | nil => exact h.elim
  | cons a t => exact congrArg (· + 1) h

theorem complete_take (a : α) (t : List α) (h : size a ≤ t.length) :
    Complete size (a :: t.take (size a)) := by
  simp only [Complete, List.length_take]
  omega

theorem Complete.append_not_incomplete {f l : List α} (h : Complete size f) :
    ¬ Incomplete size (f ++ l) := by
  cases f with
  | nil => exact h.elim
  | cons a t =>
      simp only [Complete] at h
      simp only [List.cons_append, Incomplete, List.length_append]
      omega

theorem Complete.append_inj {f g l m : List α} (hf : Complete size f) (hg : Complete size g)
    (h : f ++ l = g ++ m) : f = g ∧ l = m := by
  cases f with
  | nil => exact hf.elim
  | cons a t =>
      cases g with
      | nil => exact hg.elim
      | cons b u =>
          simp only [List.cons_append, List.cons.injEq] at h
          obtain ⟨rfl, h⟩ := h
          have hl : t.length = u.length := by
            simp only [Complete] at hf hg
            rw [hf, hg]
          obtain ⟨rfl, rfl⟩ := List.append_inj h hl
          exact ⟨rfl, rfl⟩

namespace Decomposes

variable {l m r s : List α} {f : List α} {fs gs : List (List α)}

theorem nil : Decomposes size ([] : List α) [] [] := ⟨by simp, rfl, Or.inl rfl⟩

theorem of_incomplete (h : Incomplete size l) : Decomposes size l [] l :=
  ⟨by simp, by simp, Or.inr h⟩

theorem of_complete (h : ∀ f ∈ fs, Complete size f) : Decomposes size fs.flatten fs [] :=
  ⟨h, by simp, Or.inl rfl⟩

theorem cons (hf : Complete size f) (h : Decomposes size l fs r) :
    Decomposes size (f ++ l) (f :: fs) r := by
  refine ⟨?_, ?_, h.remainder⟩
  · intro g hg
    rcases List.mem_cons.mp hg with rfl | hg
    · exact hf
    · exact h.complete g hg
  · rw [h.covers, List.flatten_cons, List.append_assoc]

theorem append (hfs : ∀ f ∈ fs, Complete size f) (h : Decomposes size m gs s) :
    Decomposes size (fs.flatten ++ m) (fs ++ gs) s := by
  refine ⟨?_, ?_, h.remainder⟩
  · intro f hf
    exact (List.mem_append.mp hf).elim (hfs f) (h.complete f)
  · rw [h.covers, List.flatten_append, List.append_assoc]

theorem of_cons (h : Decomposes size l (f :: fs) r) :
    Complete size f ∧ ∃ m, l = f ++ m ∧ Decomposes size m fs r := by
  refine ⟨h.complete f (by simp), fs.flatten ++ r, ?_, ?_, rfl, h.remainder⟩
  · rw [h.covers, List.flatten_cons, List.append_assoc]
  · exact fun g hg => h.complete g (by simp [hg])

/-- There is only one decomposition: induction on the first list of frames, whose first frame has
to be the first frame of the other list too. -/
theorem unique (h : Decomposes size l fs r) (h' : Decomposes size l gs s) : fs = gs ∧ r = s := by
  induction fs generalizing l gs with
  | nil =>
      have hl : l = r := by simpa using h.covers
      subst hl
      cases gs with
      | nil => exact ⟨rfl, by simpa using h'.covers⟩
      | cons g gs =>
          obtain ⟨hg, m, rfl, -⟩ := h'.of_cons
          rcases h.remainder with hn | hi
          · exact absurd (List.append_eq_nil_iff.mp hn).1 hg.ne_nil
          · exact absurd hi hg.append_not_incomplete
  | cons f fs ih =>
      obtain ⟨hf, m, rfl, hm⟩ := h.of_cons
      cases gs with
      | nil =>
          have hs : f ++ m = s := by simpa using h'.covers
          rcases h'.remainder with hn | hi
          · exact absurd (List.append_eq_nil_iff.mp (hs.trans hn)).1 hf.ne_nil
          · rw [← hs] at hi
            exact absurd hi hf.append_not_incomplete
      | cons g gs =>
          obtain ⟨hg, m', he, hm'⟩ := h'.of_cons
          obtain ⟨rfl, rfl⟩ := hf.append_inj hg he
          obtain ⟨rfl, rfl⟩ := ih hm hm'
          exact ⟨rfl, rfl⟩

theorem length_frames_le (h : Decomposes size l fs r) : fs.length ≤ l.length := by
  induction fs generalizing l with
  | nil => exact Nat.zero_le _
  | cons f fs ih =>
      obtain ⟨hf, m, rfl, hm⟩ := h.of_cons
      have hp := hf.length_pos
      have hi := ih hm
      rw [List.length_cons, List.length_append]
      omega

end Decomposes

theorem frames_incomplete {l : List α} (h : Incomplete size l) : frames size l = [] := by
  cases l with
  | nil => exact h.elim
  | cons a t =>
      simp only [Incomplete] at h
      rw [frames, if_neg (by omega)]

theorem frames_append {f : List α} (hf : Complete size f) (l : List α) :
    frames size (f ++ l) = f :: frames size l := by
  cases f with
  | nil => exact hf.elim
  | cons a t =>
      simp only [Complete] at hf
      rw [List.cons_append, frames, if_pos (by simp; omega), ← hf, List.take_left, List.drop_left]

theorem Decomposes.frames_eq {l r : List α} {fs : List (List α)} (h : Decomposes size l fs r) :
    frames size l = fs := by
  induction fs generalizing l with
  | nil =>
      have hl : l = r := by simpa using h.covers
      rcases h.remainder with rfl | hi
      · subst hl; rw [frames]
      · rw [hl, frames_incomplete hi]
  | cons f fs ih =>
      obtain ⟨hf, m, rfl, hm⟩ := h.of_cons
      rw [frames_append hf, ih hm]

variable (size) in
theorem exists_decomposes (l : List α) : ∃ r, Decomposes size l (frames size l) r := by
  induction l using frames.induct size with
  | case1 => exact ⟨[], by rw [frames]; exact Decomposes.nil⟩
  | case2 a t h ih =>
      obtain ⟨r, hr⟩ := ih
      refine ⟨r, ?_⟩
      have hd := Decomposes.cons (complete_take a t h) hr
      rw [List.cons_append, List.take_append_drop] at hd
      rw [frames, if_pos h]
      exact hd
  | case3 a t h =>
      have hi : Incomplete size (a :: t) := by
        simp only [Incomplete]
        omega
      exact ⟨a :: t, by rw [frames_incomplete hi]; exact Decomposes.of_incomplete hi⟩

variable (size) in
/-- What is left behind the frames. -/
def leftover (l : List α) : List α := l.drop (frames size l).flatten.length

theorem Decomposes.leftover_eq {l r : List α} {fs : List (List α)} (h : Decomposes size l fs r) :
    leftover size l = r := by
  rw [leftover, h.frames_eq, h.covers, List.drop_left]

variable (size) in
theorem decomposes_frames (l : List α) : Decomposes size l (frames size l) (leftover size l) := by
  obtain ⟨r, hr⟩ := exists_decomposes size l
  rwa [hr.leftover_eq]

/-- Consecutive frames at the start of `l`, each with all that follows its first element in `l`. -/
def views : List α → List (List α) → List (List α × List α)
  | _, [] => []
  | l, f :: fs => (l, f) :: views (l.drop f.length) fs

theorem views_append (l : List α) (fs gs : List (List α)) :
    views (fs.flatten ++ l) (fs ++ gs) = views (fs.flatten ++ l) fs ++ views l gs := by
  induction fs with
  | nil => rfl
  | cons f fs ih =>
      rw [List.flatten_cons, List.append_assoc, List.cons_append, views, views, List.drop_left, ih,
        List.cons_append]

theorem mem_views {l v f : List α} {fs : List (List α)} (h : (v, f) ∈ views l fs) :
    ∃ gs hs : List (List α), fs = gs ++ f :: hs ∧ v = l.drop gs.flatten.length := by
  induction fs generalizing l with
  | nil => exact absurd h (List.not_mem_nil)
  | cons g fs ih =>
      rcases List.mem_cons.mp h with he | h
      · obtain ⟨rfl, rfl⟩ := Prod.mk.inj he
        exact ⟨[], fs, rfl, rfl⟩
      · obtain ⟨gs, hs, rfl, rfl⟩ := ih h
        exact ⟨g :: gs, hs, rfl, by simp⟩

theorem mem_views_frames {l v f : List α} : (v, f) ∈ views l (frames size l) ↔
    ∃ (gs : List (List α)) (m : List α), l = gs.flatten ++ v ∧ v = f ++ m ∧
      (∀ g ∈ gs, Complete size g) ∧ Complete size f := by
  obtain ⟨r, hr⟩ := exists_decomposes size l
  constructor
  · intro h
    obtain ⟨gs, hs, hf, rfl⟩ := mem_views h
    have hc := hr.covers
    rw [hf, List.flatten_append, List.flatten_cons, List.append_assoc, List.append_assoc] at hc
    refine ⟨gs, hs.flatten ++ r, ?_, ?_, fun g hg => hr.complete g ?_, hr.complete f ?_⟩
    · rw [hc, List.drop_left]
    · rw [hc, List.drop_left]
    · rw [hf]; exact List.mem_append_left _ hg
    · rw [hf]; simp
  · rintro ⟨gs, m, rfl, rfl, hgs, hf⟩
    obtain ⟨s, hs⟩ := exists_decomposes size m
    rw [(Decomposes.append hgs (Decomposes.cons hf hs)).frames_eq, views_append]
    exact List.mem_append_right _ (by simp [views])

end Fopd.Lib.Frames
