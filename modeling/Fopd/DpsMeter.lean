import Mathlib.Algebra.Order.BigOperators.Group.List
import Fopd.Lib.Window
import Fopd.Damage
import Fopd.Data

namespace Fopd.DpsMeter

open Consts Packet Damage Data Lib

def getDmgQueueMax (q : List FiestaOnlinePacketDamage) : UInt32 :=
  q.foldl (fun maxDmg pkt => max maxDmg pkt.damageValue) 0

def getDmgQueueSum (q : List FiestaOnlinePacketDamage) : UInt32 :=
  q.foldl (fun sum pkt => sum + pkt.damageValue) 0

def oneSecond : Time := 1000000000

def timestamp (pkt : FiestaOnlinePacketDamage) : Time := pkt.timestamp

def popExpired (lastSec : Time) (q : List FiestaOnlinePacketDamage) : List FiestaOnlinePacketDamage :=
  Window.dropExpired timestamp lastSec q

def poppedBy (lastSec : Time) (q : List FiestaOnlinePacketDamage) : List FiestaOnlinePacketDamage :=
  Window.takeExpired timestamp lastSec q

/-- One less than the number of iterations from one look at the maximum to the next. -/
def resetCount (updateDeltaMs : UInt32) : UInt32 := 1000 / updateDeltaMs

def damageSum (q : List FiestaOnlinePacketDamage) : Nat := (q.map fun pkt => pkt.damageValue.toNat).sum

theorem damageSum_cons (pkt : FiestaOnlinePacketDamage) (q : List FiestaOnlinePacketDamage) :
    damageSum (pkt :: q) = pkt.damageValue.toNat + damageSum q := rfl

theorem le_damageSum {q : List FiestaOnlinePacketDamage} {pkt : FiestaOnlinePacketDamage} (h : pkt ∈ q) :
    pkt.damageValue.toNat ≤ damageSum q :=
  List.single_le_sum (fun _ _ => Nat.zero_le _) _ (List.mem_map_of_mem h)

theorem damageSum_le {q : List FiestaOnlinePacketDamage} {b : Nat} (h : ∀ pkt ∈ q, pkt.damageValue.toNat ≤ b) :
    damageSum q ≤ q.length * b := by
  have hb : ∀ n ∈ q.map fun pkt => pkt.damageValue.toNat, n ≤ b := by simpa using h
  simpa [damageSum] using List.sum_le_card_nsmul _ b hb

theorem toNat_sum_loop (q : List FiestaOnlinePacketDamage) (sum : UInt32) :
    (q.foldl (fun sum pkt => sum + pkt.damageValue) sum).toNat = (sum.toNat + damageSum q) % 2 ^ 32 := by
  induction q generalizing sum with
  | nil => exact (Nat.mod_eq_of_lt sum.toNat_lt).symm
  | cons pkt q ih =>
      rw [List.foldl_cons, ih, UInt32.toNat_add, Nat.mod_add_mod, damageSum_cons, Nat.add_assoc]

theorem toNat_getDmgQueueSum (q : List FiestaOnlinePacketDamage) :
    (getDmgQueueSum q).toNat = damageSum q % 2 ^ 32 := by
  rw [getDmgQueueSum, toNat_sum_loop, UInt32.toNat_zero, Nat.zero_add]

theorem toNat_getDmgQueueSum_eq_iff {q : List FiestaOnlinePacketDamage} :
    (getDmgQueueSum q).toNat = damageSum q ↔ damageSum q < 2 ^ 32 := by
  constructor
  · intro h
    rw [← h]
    exact (getDmgQueueSum q).toNat_lt
  · intro h
    rw [toNat_getDmgQueueSum, Nat.mod_eq_of_lt h]

theorem le_max_iff {a b c : UInt32} : c ≤ max a b ↔ c ≤ a ∨ c ≤ b := by
  have hm : max a b = if a ≤ b then b else a := rfl
  simp only [hm, UInt32.le_iff_toNat_le]
  split <;> omega

theorem le_max_loop_iff (q : List FiestaOnlinePacketDamage) (m c : UInt32) :
    c ≤ q.foldl (fun maxDmg pkt => max maxDmg pkt.damageValue) m ↔ c ≤ m ∨ ∃ pkt ∈ q, c ≤ pkt.damageValue := by
  induction q generalizing m with
  | nil => simp
  | cons pkt q ih => simp [ih, le_max_iff, or_assoc]

theorem le_getDmgQueueMax_iff {q : List FiestaOnlinePacketDamage} {c : UInt32} :
    c ≤ getDmgQueueMax q ↔ c = 0 ∨ ∃ pkt ∈ q, c ≤ pkt.damageValue := by
  rw [getDmgQueueMax, le_max_loop_iff, UInt32.le_zero_iff]

theorem getDmgQueueMax_mem (q : List FiestaOnlinePacketDamage) :
    getDmgQueueMax q = 0 ∨ ∃ pkt ∈ q, getDmgQueueMax q = pkt.damageValue := by
  rcases le_getDmgQueueMax_iff.mp (UInt32.le_refl (getDmgQueueMax q)) with h | ⟨pkt, hp, hle⟩
  · exact Or.inl h
  · exact Or.inr ⟨pkt, hp, UInt32.le_antisymm hle (le_getDmgQueueMax_iff.mpr (Or.inr ⟨pkt, hp, UInt32.le_refl _⟩))⟩

end Fopd.DpsMeter
