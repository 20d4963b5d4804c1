import Mathlib.Data.List.Basic
import Mathlib.Tactic.Ring

namespace Fopd.Lib.LittleEndian

def value : List UInt8 → Nat
  | [] => 0
  | b :: bs => b.toNat + 256 * value bs

def encode : Nat → Nat → List UInt8
  | 0, _ => []
  | w + 1, n => UInt8.ofNat n :: encode w (n / 256)

def field (w off : Nat) (l : List UInt8) : List UInt8 := (l.drop off).take w

def valueAt (w off : Nat) (l : List UInt8) : Nat := value (field w off l)

def writeAt (w off n : Nat) (l : List UInt8) : List UInt8 :=
  l.take off ++ (encode w n ++ l.drop (off + w))

@[simp] theorem length_encode (w n : Nat) : (encode w n).length = w := by
  induction w generalizing n with
  | zero => rfl
  | succ w ih => rw [encode, List.length_cons, ih]

theorem value_encode (w n : Nat) : value (encode w n) = n % 256 ^ w := by
  induction w generalizing n with
  | zero => simp [encode, value, Nat.mod_one]
  | succ w ih =>
      have hp : 256 ^ (w + 1) = 256 * 256 ^ w := pow_succ' 256 w
      rw [encode, value, ih, UInt8.toNat_ofNat', hp, Nat.mod_mul]

theorem value_lt (bs : List UInt8) : value bs < 256 ^ bs.length := by
  induction bs with
  | nil => simp [value]
  | cons b bs ih =>
      have hb := b.toNat_lt
      rw [value, List.length_cons, pow_succ]
      omega

theorem valueAt_lt (w off : Nat) (l : List UInt8) : valueAt w off l < 256 ^ w := by
  apply (value_lt _).trans_le
  apply Nat.pow_le_pow_right (by omega)
  rw [field, List.length_take]
  exact Nat.min_le_left _ _

section WriteAt

variable {w off n : Nat} {l : List UInt8}

theorem length_writeAt (h : off + w ≤ l.length) : (writeAt w off n l).length = l.length := by
  simp only [writeAt, List.length_append, List.length_take, length_encode, List.length_drop]
  omega

theorem field_writeAt_self (h : off ≤ l.length) : field w off (writeAt w off n l) = encode w n := by
  have hl : (l.take off).length = off := by
    rw [List.length_take]
    omega
  rw [field, writeAt, List.drop_append_of_le_length (by omega), List.drop_of_length_le (by omega),
    List.nil_append]
  exact List.take_left' (length_encode w n)

theorem valueAt_writeAt_self (h : off ≤ l.length) :
    valueAt w off (writeAt w off n l) = n % 256 ^ w := by
  rw [valueAt, field_writeAt_self h, value_encode]

theorem getElem?_writeAt (h : off + w ≤ l.length) {i : Nat} (hi : i < off ∨ off + w ≤ i) :
    (writeAt w off n l)[i]? = l[i]? := by
  have hl : (l.take off).length = off := by
    rw [List.length_take]
    omega
  rcases hi with hi | hi
  · rw [writeAt, List.getElem?_append_left (by omega), List.getElem?_take_of_lt hi]
  · rw [writeAt, List.getElem?_append_right (by omega),
      List.getElem?_append_right (by rw [length_encode]; omega), List.getElem?_drop, length_encode, hl]
    congr 1
    omega

theorem field_eq_of_getElem? {v p : Nat} {l m : List UInt8}
    (h : ∀ i, p ≤ i → i < p + v → l[i]? = m[i]?) : field v p l = field v p m := by
  apply List.ext_getElem?
  intro i
  by_cases hi : i < v
  · rw [field, field, List.getElem?_take_of_lt hi, List.getElem?_take_of_lt hi, List.getElem?_drop,
      List.getElem?_drop, h (p + i) (by omega) (by omega)]
  · rw [field, field, List.getElem?_take_eq_none (by omega), List.getElem?_take_eq_none (by omega)]

theorem valueAt_writeAt_disjoint {v p : Nat} (h : off + w ≤ l.length)
    (hd : p + v ≤ off ∨ off + w ≤ p) : valueAt v p (writeAt w off n l) = valueAt v p l := by
  rw [valueAt, valueAt]
  congr 1
  apply field_eq_of_getElem?
  intro i hp hv
  exact getElem?_writeAt h (by omega)

end WriteAt

theorem valueAt_one {off : Nat} {l : List UInt8} (h : off < l.length) :
    valueAt 1 off l = (l.getD off 0).toNat := by
  rw [valueAt, field, List.drop_eq_getElem_cons h, List.take_succ_cons, List.take_zero]
  simp [value, h]

structure Entry where
  width : Nat
  offset : Nat
  value : Nat

def Entry.Disjoint (a b : Entry) : Prop := a.offset + a.width ≤ b.offset ∨ b.offset + b.width ≤ a.offset

def writeAll : List Entry → List UInt8 → List UInt8
  | [], l => l
  | e :: es, l => writeAt e.width e.offset e.value (writeAll es l)

section WriteAll

variable {es : List Entry} {l : List UInt8} (hin : ∀ e ∈ es, e.offset + e.width ≤ l.length)

include hin

theorem length_writeAll : (writeAll es l).length = l.length := by
  induction es with
  | nil => rfl
  | cons e es ih =>
      have ih := ih fun d hd => hin d (List.mem_cons_of_mem e hd)
      rw [writeAll, length_writeAt (by rw [ih]; exact hin e List.mem_cons_self), ih]

theorem getElem?_writeAll {i : Nat} (hi : ∀ e ∈ es, i < e.offset ∨ e.offset + e.width ≤ i) :
    (writeAll es l)[i]? = l[i]? := by
  induction es with
  | nil => rfl
  | cons e es ih =>
      have hes := fun d hd => hin d (List.mem_cons_of_mem e hd)
      rw [writeAll, getElem?_writeAt (by rw [length_writeAll hes]; exact hin e List.mem_cons_self)
        (hi e List.mem_cons_self), ih hes fun d hd => hi d (List.mem_cons_of_mem e hd)]

theorem valueAt_writeAll (hsep : es.Pairwise Entry.Disjoint) {e : Entry} (he : e ∈ es) :
    valueAt e.width e.offset (writeAll es l) = e.value % 256 ^ e.width := by
  induction es with
  | nil => exact absurd he List.not_mem_nil
  | cons d es ih =>
      have hes := fun d' hd => hin d' (List.mem_cons_of_mem d hd)
      have hd : d.offset + d.width ≤ (writeAll es l).length := by
        rw [length_writeAll hes]
        exact hin d List.mem_cons_self
      obtain ⟨hdes, hsep⟩ := List.pairwise_cons.mp hsep
      rw [writeAll]
      rcases List.mem_cons.mp he with rfl | he
      · exact valueAt_writeAt_self (by omega)
      · rw [valueAt_writeAt_disjoint hd (hdes e he).symm, ih hes hsep he]

end WriteAll

end Fopd.Lib.LittleEndian
