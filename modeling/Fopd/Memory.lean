import Fopd.Lib.Checked
import Mathlib.Tactic.Common

namespace Fopd.Memory

open Lib.Checked

inductive Region
  | tcpData
  | frame
  | payload
  deriving DecidableEq, Repr

/-- What the code takes for granted at one point of its run. -/
inductive Access
  | read (region : Region) (index size : Nat)
  | write (index capacity : Nat)
  | range (first last : Nat)
  | assertion (holds : Bool)
  deriving DecidableEq, Repr

def Access.Ok : Access → Prop
  | .read _ index size => index < size
  | .write index capacity => index < capacity
  | .range first last => first ≤ last
  | .assertion holds => holds = true

instance : DecidablePred Access.Ok
  | .read _ index size => inferInstanceAs (Decidable (index < size))
  | .write index capacity => inferInstanceAs (Decidable (index < capacity))
  | .range first last => inferInstanceAs (Decidable (first ≤ last))
  | .assertion holds => inferInstanceAs (Decidable (holds = true))

abbrev Run := Exec Access

abbrev Completes {α : Type} (x : Run α) (a : α) : Prop := Safely Access.Ok x a

theorem completes_bind {α β : Type} {x : Run α} {f : α → Run β} {b : β} :
    Completes (x >>= f) b ↔ ∃ a, Completes x a ∧ Completes (f a) b := safely_bind

/-- A pointer into a buffer of `size` bytes. Past the end of the buffer `bytes` holds whatever the
process finds there. -/
structure Pointer where
  region : Region
  bytes : Nat → UInt8
  size : Nat
  offset : Nat

namespace Pointer

def advance (p : Pointer) (n : Nat) : Pointer := { p with offset := p.offset + n }

def get (p : Pointer) (i : Nat) : UInt8 := p.bytes (p.offset + i)

def touch (p : Pointer) (i : Nat) : Access := .read p.region (p.offset + i) p.size

def read (p : Pointer) (i : Nat) : Run UInt8 := do
  emit [p.touch i]
  pure (p.get i)

def slice (p : Pointer) : Nat → Nat → List UInt8
  | _, 0 => []
  | i, n + 1 => p.get i :: slice p (i + 1) n

@[simp] theorem length_slice (p : Pointer) (i n : Nat) : (p.slice i n).length = n := by
  induction n generalizing i with
  | zero => rfl
  | succ n ih => rw [slice, List.length_cons, ih]

theorem slice_add (p : Pointer) (i m n : Nat) : p.slice i (m + n) = p.slice i m ++ p.slice (i + m) n := by
  induction m generalizing i with
  | zero => simp [slice]
  | succ m ih =>
      rw [Nat.add_right_comm, slice, slice, ih, List.cons_append, Nat.add_right_comm i 1 m, Nat.add_assoc]

theorem get_advance (p : Pointer) (n i : Nat) : (p.advance n).get i = p.get (n + i) := by
  simp only [get, advance, Nat.add_assoc]

theorem slice_advance (p : Pointer) (k i n : Nat) : (p.advance k).slice i n = p.slice (k + i) n := by
  induction n generalizing i with
  | zero => rfl
  | succ n ih => rw [slice, slice, ih, get_advance, Nat.add_assoc]

theorem getElem?_slice (p : Pointer) {i n j : Nat} (h : j < n) : (p.slice i n)[j]? = some (p.get (i + j)) := by
  induction n generalizing i j with
  | zero => omega
  | succ n ih =>
      cases j with
      | zero => rfl
      | succ j =>
          rw [slice, List.getElem?_cons_succ, ih (by omega)]
          congr 2
          omega

theorem slice_eq_append {p : Pointer} {i n : Nat} {l m : List UInt8} (h : p.slice i n = l ++ m) :
    n = l.length + m.length ∧ p.slice i l.length = l ∧ p.slice (i + l.length) m.length = m := by
  have hn : n = l.length + m.length := by
    rw [← List.length_append, ← h, length_slice]
  rw [hn, slice_add] at h
  exact ⟨hn, List.append_inj h (length_slice p i l.length)⟩

theorem completes_read {p : Pointer} {i : Nat} {b : UInt8} :
    Completes (p.read i) b ↔ p.offset + i < p.size ∧ p.get i = b := by
  simp [read, safely_emit_bind, touch, Access.Ok]

theorem read_safely {ok : Access → Prop} {p : Pointer} {i : Nat} (h : ok (p.touch i)) :
    Safely ok (p.read i) (p.get i) :=
  safely_emit_bind.mpr ⟨by simpa using h, safely_pure.mpr rfl⟩

@[simp] theorem result_read (p : Pointer) (i : Nat) : (p.read i).result = some (p.get i) := by
  simp [read]

def toVector (p : Pointer) (first last : Nat) : Run (List UInt8) := do
  emit [.range first last]
  emit ((List.range (last - first)).map fun i => p.touch (first + i))
  pure (p.slice first (last - first))

@[simp] theorem result_toVector (p : Pointer) (first last : Nat) :
    (p.toVector first last).result = some (p.slice first (last - first)) := by
  simp [toVector]

theorem completes_toVector {p : Pointer} {first last : Nat} {l : List UInt8} :
    Completes (p.toVector first last) l ↔
      first ≤ last ∧ (∀ i < last - first, p.offset + (first + i) < p.size) ∧
        p.slice first (last - first) = l := by
  simp [toVector, safely_emit_bind, touch, Access.Ok]

end Pointer

def memcpy {n : Nat} (dst : Vector UInt8 n) (src : Pointer) (len : Nat) : Run (Vector UInt8 n) := do
  emit ((List.range len).map src.touch)
  emit ((List.range len).map fun i => .write i n)
  pure (Vector.ofFn fun i : Fin n => if i.val < len then src.get i else dst[i])

@[simp] theorem result_memcpy {n : Nat} (dst : Vector UInt8 n) (src : Pointer) (len : Nat) :
    (memcpy dst src len).result =
      some (Vector.ofFn fun i : Fin n => if i.val < len then src.get i else dst[i]) := by
  simp [memcpy]

theorem completes_memcpy {n : Nat} {dst v : Vector UInt8 n} {src : Pointer} {len : Nat} :
    Completes (memcpy dst src len) v ↔
      (∀ i < len, src.offset + i < src.size) ∧ (∀ i < len, i < n) ∧
        Vector.ofFn (fun i : Fin n => if i.val < len then src.get i else dst[i]) = v := by
  simp [memcpy, safely_emit_bind, Pointer.touch, Access.Ok]

/-- The bytes of a vector, followed by what the process finds after the end of its storage. -/
def bytesOf (data : List UInt8) (beyond : Nat → UInt8) (i : Nat) : UInt8 := data.getD i (beyond i)

theorem bytesOf_eq {data : List UInt8} {beyond : Nat → UInt8} {i : Nat} (h : i < data.length) :
    bytesOf data beyond i = data[i] := by
  simp [bytesOf, h]

def vectorData (data : List UInt8) (beyond : Nat → UInt8) : Pointer where
  region := .frame
  bytes := bytesOf data beyond
  size := data.length
  offset := 0

theorem slice_of_bytes {p : Pointer} (data : List UInt8) (beyond : Nat → UInt8)
    (hp : p.bytes = bytesOf data beyond) (ho : p.offset = 0) {i n : Nat} (h : i + n ≤ data.length) :
    p.slice i n = (data.drop i).take n := by
  induction n generalizing i with
  | zero => rw [Pointer.slice, List.take_zero]
  | succ n ih =>
      rw [Pointer.slice, ih (by omega), List.drop_eq_getElem_cons (by omega : i < data.length),
        List.take_succ_cons, Pointer.get, hp, ho, Nat.zero_add, bytesOf_eq]

end Fopd.Memory
