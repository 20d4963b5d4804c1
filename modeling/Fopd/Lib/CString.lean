import Mathlib.Algebra.Group.Int.Defs
import Mathlib.Algebra.Group.Nat.Defs
import Mathlib.Data.List.TakeWhile
import Mathlib.Tactic.Common
import Fopd.Lib.Checked

namespace Fopd.Lib.CString

open Checked

def space : UInt8 := 0x20
def plus : UInt8 := 0x2B
def minus : UInt8 := 0x2D

def isspace (b : UInt8) : Bool := b == space || 9 ≤ b && b ≤ 13

def isdigit (b : UInt8) : Bool := 0x30 ≤ b && b ≤ 0x39

def digit (b : UInt8) : Nat := b.toNat - 0x30

/-- A `long` has 32 bits. -/
def longMax : Int := 2 ^ 31 - 1
def longMin : Int := -2 ^ 31

def clamp (v : Int) : Int := max longMin (min longMax v)

def signed (negative : Bool) (n : Nat) : Int := clamp (if negative then -n else n)

section Functions

variable {ω : Type} (touch : Nat → ω)

def strrchr (c : UInt8) : List UInt8 → Nat → Option Nat → Exec ω (Option Nat)
  | [], _, _ => stop
  | b :: m, i, found => do
      emit [touch i]
      let found := if b = c then some i else found
      if b = 0 then pure found else strrchr c m (i + 1) found

def strtolDigits (negative : Bool) : List UInt8 → Nat → Nat → Exec ω Int
  | [], _, _ => stop
  | b :: m, i, n => do
      emit [touch i]
      if isdigit b then strtolDigits negative m (i + 1) (n * 10 + digit b) else pure (signed negative n)

def strtolSign : List UInt8 → Nat → Exec ω Int
  | [], _ => stop
  | b :: m, i => do
      emit [touch i]
      if b = minus then strtolDigits touch true m (i + 1) 0
      else if b = plus then strtolDigits touch false m (i + 1) 0
      else strtolDigits touch false (b :: m) i 0

/-- To base 10. -/
def strtol : List UInt8 → Nat → Exec ω Int
  | [], _ => stop
  | b :: m, i => do
      emit [touch i]
      if isspace b then strtol m (i + 1) else strtolSign touch (b :: m) i

end Functions

def splitLast (c : UInt8) : List UInt8 → Option (List UInt8 × List UInt8)
  | [] => none
  | b :: t =>
      match splitLast c t with
      | some (pre, post) => some (b :: pre, post)
      | none => if b = c then some ([], t) else none

def decimal (ds : List UInt8) : Nat := ds.foldl (fun n b => n * 10 + digit b) 0

structure Numeral where
  blanks : List UInt8
  sign : List UInt8
  digits : List UInt8
  rest : List UInt8

def signOf : List UInt8 → List UInt8
  | [] => []
  | b :: _ => if b = minus ∨ b = plus then [b] else []

def scan (t : List UInt8) : Numeral :=
  let u := t.dropWhile isspace
  let v := u.drop (signOf u).length
  ⟨t.takeWhile isspace, signOf u, v.takeWhile isdigit, v.dropWhile isdigit⟩

namespace Numeral

def text (n : Numeral) : List UInt8 := n.blanks ++ (n.sign ++ (n.digits ++ n.rest))

def value (n : Numeral) : Int := signed (n.sign = [minus]) (decimal n.digits)

structure Valid (n : Numeral) : Prop where
  blanks : ∀ b ∈ n.blanks, isspace b
  sign : n.sign = [] ∨ n.sign = [plus] ∨ n.sign = [minus]
  digits : ∀ b ∈ n.digits, isdigit b
  rest : ∀ b ∈ n.rest.head?, ¬ isdigit b

end Numeral

theorem splitLast_eq_none_iff {c : UInt8} {t : List UInt8} : splitLast c t = none ↔ c ∉ t := by
  induction t with
  | nil => simp [splitLast]
  | cons b t ih =>
      rw [splitLast, List.mem_cons, not_or]
      cases h : splitLast c t with
      | none => simpa [eq_comm] using fun _ => ih.mp h
      | some p => simpa using fun _ => not_not.mp (mt ih.mpr (by simp [h]))

theorem splitLast_of_split {c : UInt8} {pre post : List UInt8} (h : c ∉ post) :
    splitLast c (pre ++ c :: post) = some (pre, post) := by
  induction pre with
  | nil => rw [List.nil_append, splitLast, splitLast_eq_none_iff.mpr h, if_pos rfl]
  | cons b pre ih => rw [List.cons_append, splitLast, ih]

theorem split_of_splitLast {c : UInt8} {t pre post : List UInt8} (h : splitLast c t = some (pre, post)) :
    t = pre ++ c :: post ∧ c ∉ post := by
  induction t generalizing pre with
  | nil => cases h
  | cons b t ih =>
      rw [splitLast] at h
      split at h
      next pre' post' hs =>
        obtain ⟨rfl, rfl⟩ := Prod.mk.inj (Option.some.inj h)
        obtain ⟨rfl, hpost⟩ := ih hs
        exact ⟨rfl, hpost⟩
      next hs =>
        obtain ⟨rfl, he⟩ := Option.ite_none_right_eq_some.mp h
        obtain ⟨rfl, rfl⟩ := Prod.mk.inj (Option.some.inj he)
        exact ⟨rfl, splitLast_eq_none_iff.mp hs⟩

theorem signOf_append_drop (u : List UInt8) : signOf u ++ u.drop (signOf u).length = u := by
  cases u with
  | nil => rfl
  | cons b u =>
      rw [signOf]
      split <;> rfl

theorem text_scan (t : List UInt8) : (scan t).text = t := by
  rw [Numeral.text, scan, List.takeWhile_append_dropWhile, signOf_append_drop, List.takeWhile_append_dropWhile]

theorem valid_scan (t : List UInt8) : (scan t).Valid where
  blanks _ hb := List.mem_takeWhile_imp hb
  sign := by
    rw [scan]
    cases t.dropWhile isspace with
    | nil => exact Or.inl rfl
    | cons b u =>
        simp only [signOf]
        split
        next h => exact Or.inr (h.symm.imp (congrArg ([·])) (congrArg ([·])))
        next => exact Or.inl rfl
  digits _ hb := List.mem_takeWhile_imp hb
  rest b hb := by
    have h := List.head?_dropWhile_not isdigit ((t.dropWhile isspace).drop (signOf (t.dropWhile isspace)).length)
    change (List.dropWhile isdigit _).head? = some b at hb
    rw [hb] at h
    simpa using h

theorem isdigit_iff {b : UInt8} : isdigit b ↔ 48 ≤ b.toNat ∧ b.toNat ≤ 57 := by
  simp only [isdigit, Bool.and_eq_true, decide_eq_true_eq, UInt8.le_iff_toNat_le]
  rfl

theorem isspace_iff {b : UInt8} : isspace b ↔ b.toNat = 32 ∨ 9 ≤ b.toNat ∧ b.toNat ≤ 13 := by
  simp only [isspace, Bool.or_eq_true, Bool.and_eq_true, beq_iff_eq, decide_eq_true_eq,
    UInt8.le_iff_toNat_le, ← UInt8.toNat_inj]
  rfl

theorem not_isspace_of_isdigit {b : UInt8} (h : isdigit b) : ¬ isspace b := by
  rw [isdigit_iff] at h
  rw [isspace_iff]
  omega

theorem signOf_of_isdigit {b : UInt8} (h : isdigit b) (u : List UInt8) : signOf (b :: u) = [] := by
  rw [isdigit_iff] at h
  rw [signOf, if_neg]
  rintro (rfl | rfl) <;> revert h <;> decide

theorem takeWhile_append_stop {p : UInt8 → Bool} {u v : List UInt8} (hu : ∀ b ∈ u, p b)
    (hv : ∀ b ∈ v.head?, ¬ p b) : (u ++ v).takeWhile p = u ∧ (u ++ v).dropWhile p = v := by
  rw [List.takeWhile_append_of_pos hu, List.dropWhile_append_of_pos hu]
  cases v with
  | nil => exact ⟨List.append_nil u, rfl⟩
  | cons b v =>
      have hb : ¬ p b := hv b rfl
      exact ⟨by rw [List.takeWhile_cons_of_neg hb, List.append_nil], List.dropWhile_cons_of_neg hb⟩

/-- With a digit in it, a text has only one reading. -/
theorem scan_text {n : Numeral} (h : n.Valid) (hd : n.digits ≠ []) : scan n.text = n := by
  obtain ⟨blanks, sign, digits, rest⟩ := n
  obtain ⟨hblanks, hsign, hdigits, hrest⟩ := h
  obtain ⟨d, ds, rfl⟩ := List.exists_cons_of_ne_nil hd
  have hdig : isdigit d := hdigits d List.mem_cons_self
  have hs : signOf (sign ++ (d :: ds ++ rest)) = sign ∧
      ∀ b ∈ (sign ++ (d :: ds ++ rest)).head?, ¬ isspace b := by
    rcases hsign with rfl | rfl | rfl
    · exact ⟨signOf_of_isdigit hdig _, by simpa using not_isspace_of_isdigit hdig⟩
    · exact ⟨rfl, by simp [isspace, plus, space]⟩
    · exact ⟨rfl, by simp [isspace, minus, space]⟩
  obtain ⟨htake, hdrop⟩ := takeWhile_append_stop hblanks hs.2
  obtain ⟨htake', hdrop'⟩ := takeWhile_append_stop hdigits hrest
  rw [Numeral.text, scan]
  simp only [htake, hdrop, hs.1, List.drop_left, htake', hdrop']

/-- A search through bytes without a NUL goes on behind them. -/
theorem strrchr_reads_past {ω : Type} {touch : Nat → ω} {ok : ω → Prop} {c : UInt8} {u m : List UInt8}
    {i : Nat} {found r : Option Nat} (h0 : 0 ∉ u) (h : Safely ok (strrchr touch c (u ++ m) i found) r) :
    ok (touch (i + u.length)) := by
  induction u generalizing i found with
  | nil =>
      cases m with
      | nil => cases h.1
      | cons b m => exact (safely_emit_bind.mp h).1 _ (List.mem_singleton_self _)
  | cons b u ih =>
      obtain ⟨hb0, h0⟩ := List.ne_and_not_mem_of_not_mem_cons h0
      obtain ⟨-, h⟩ := safely_emit_bind.mp h
      rw [if_neg hb0.symm] at h
      have := ih h0 h
      rwa [Nat.add_assoc, Nat.add_comm 1] at this

section Spec

variable {ω : Type} {touch : Nat → ω} {ok : ω → Prop} {last : Nat} (hok : ∀ i ≤ last, ok (touch i))

include hok

theorem strrchr_of_not_mem {c : UInt8} (hc : c ≠ 0) {t m : List UInt8} {i : Nat} {found : Option Nat}
    (ht : c ∉ t) (h0 : 0 ∉ t) (hl : i + t.length ≤ last) :
    Safely ok (strrchr touch c (t ++ 0 :: m) i found) found := by
  induction t generalizing i with
  | nil =>
      refine safely_emit_bind.mpr ⟨by simpa using hok i hl, ?_⟩
      rw [if_neg hc.symm, if_pos rfl]
      exact safely_pure.mpr rfl
  | cons b t ih =>
      obtain ⟨hb, ht⟩ := List.ne_and_not_mem_of_not_mem_cons ht
      obtain ⟨hb0, h0⟩ := List.ne_and_not_mem_of_not_mem_cons h0
      rw [List.length_cons] at hl
      refine safely_emit_bind.mpr ⟨by simpa using hok i (by omega), ?_⟩
      rw [if_neg hb.symm, if_neg hb0.symm]
      exact ih ht h0 (by omega)

theorem strrchr_of_split {c : UInt8} (hc : c ≠ 0) {pre post m : List UInt8} {i : Nat} {found : Option Nat}
    (hpost : c ∉ post) (h0 : 0 ∉ pre ++ c :: post) (hl : i + (pre ++ c :: post).length ≤ last) :
    Safely ok (strrchr touch c (pre ++ c :: post ++ 0 :: m) i found) (some (i + pre.length)) := by
  induction pre generalizing i found with
  | nil =>
      obtain ⟨-, h0⟩ := List.ne_and_not_mem_of_not_mem_cons h0
      rw [List.nil_append, List.length_cons] at hl
      refine safely_emit_bind.mpr ⟨by simpa using hok i (by omega), ?_⟩
      rw [if_pos rfl, if_neg hc]
      exact strrchr_of_not_mem hok hc hpost h0 (by omega)
  | cons b pre ih =>
      obtain ⟨hb0, h0⟩ := List.ne_and_not_mem_of_not_mem_cons h0
      rw [List.cons_append, List.length_cons] at hl
      refine safely_emit_bind.mpr ⟨by simpa using hok i (by omega), ?_⟩
      rw [if_neg hb0.symm, List.length_cons, Nat.add_comm pre.length, ← Nat.add_assoc]
      exact ih h0 (by omega)

theorem strtolDigits_safely (negative : Bool) {v m : List UInt8} {i n : Nat} (hl : i + v.length ≤ last) :
    Safely ok (strtolDigits touch negative (v ++ 0 :: m) i n)
      (signed negative ((v.takeWhile isdigit).foldl (fun n b => n * 10 + digit b) n)) := by
  induction v generalizing i n with
  | nil => exact safely_emit_bind.mpr ⟨by simpa using hok i hl, safely_pure.mpr rfl⟩
  | cons b v ih =>
      rw [List.length_cons] at hl
      refine safely_emit_bind.mpr ⟨by simpa using hok i (by omega), ?_⟩
      by_cases hb : isdigit b
      · rw [if_pos hb, List.takeWhile_cons_of_pos hb]
        exact ih (by omega)
      · rw [if_neg hb, List.takeWhile_cons_of_neg hb]
        exact safely_pure.mpr rfl

theorem strtolSign_safely {u m : List UInt8} {i : Nat} (hl : i + u.length ≤ last) :
    Safely ok (strtolSign touch (u ++ 0 :: m) i)
      (signed (signOf u = [minus]) (decimal ((u.drop (signOf u).length).takeWhile isdigit))) := by
  cases u with
  | nil => exact safely_emit_bind.mpr ⟨by simpa using hok i hl, strtolDigits_safely hok false hl⟩
  | cons b u =>
      have hl' : i + 1 + u.length ≤ last := by
        rw [List.length_cons] at hl
        omega
      refine safely_emit_bind.mpr ⟨by simpa using hok i (by omega), ?_⟩
      by_cases hm : b = minus
      · subst hm
        exact strtolDigits_safely hok true hl'
      · rw [if_neg hm]
        by_cases hp : b = plus
        · subst hp
          exact strtolDigits_safely hok false hl'
        · have hs : signOf (b :: u) = [] := if_neg (not_or.mpr ⟨hm, hp⟩)
          rw [if_neg hp, hs]
          exact strtolDigits_safely (v := b :: u) hok false hl

theorem strtol_safely {t m : List UInt8} {i : Nat} (hl : i + t.length ≤ last) :
    Safely ok (strtol touch (t ++ 0 :: m) i) (scan t).value := by
  induction t generalizing i with
  | nil => exact safely_emit_bind.mpr ⟨by simpa using hok i hl, strtolSign_safely hok hl⟩
  | cons b t ih =>
      refine safely_emit_bind.mpr ⟨by simpa using hok i (by omega), ?_⟩
      by_cases hb : isspace b
      · rw [if_pos hb, Numeral.value, scan, List.dropWhile_cons_of_pos hb]
        rw [List.length_cons] at hl
        exact ih (by omega)
      · rw [if_neg hb, Numeral.value, scan, List.dropWhile_cons_of_neg hb]
        exact strtolSign_safely hok hl

end Spec

end Fopd.Lib.CString
