import Fopd.Packet

namespace Fopd.EntityStats

open Consts Memory Utils FrameTypes Packet Lib.Checked Lib.LittleEndian

@[simp] abbrev fopdEntityClickPacketPayloadMinLen : Nat := 32 - fopdPacketHeaderLen

@[simp] abbrev entityClickCurrentHealthOffset : Nat := 5 - fopdPacketHeaderLen
@[simp] abbrev entityClickMaxHealthOffset : Nat := 9 - fopdPacketHeaderLen
@[simp] abbrev entityClickCurrentManaOffset : Nat := 13 - fopdPacketHeaderLen
@[simp] abbrev entityClickMaxManaOffset : Nat := 17 - fopdPacketHeaderLen
@[simp] abbrev entityClickLevelOffset : Nat := 29 - fopdPacketHeaderLen

structure FiestaOnlinePacketEntityStats extends FiestaOnlinePacket where
  currentHealth : UInt32 := 0
  maxHealth : UInt32 := 0
  currentMana : UInt32 := 0
  maxMana : UInt32 := 0
  level : UInt8 := 0
  deriving DecidableEq

namespace FiestaOnlinePacketEntityStats

def parsePayload (pkt : FiestaOnlinePacketEntityStats) :
    Run (FopdStatus × FiestaOnlinePacketEntityStats) :=
  if pkt.payloadLen.toNat < fopdEntityClickPacketPayloadMinLen then pure (.error, pkt)
  else do
    let payload := pkt.payloadData
    let currentHealth ← littleEndianByteArrayToUint32 (payload.advance entityClickCurrentHealthOffset)
    let maxHealth ← littleEndianByteArrayToUint32 (payload.advance entityClickMaxHealthOffset)
    let currentMana ← littleEndianByteArrayToUint32 (payload.advance entityClickCurrentManaOffset)
    let maxMana ← littleEndianByteArrayToUint32 (payload.advance entityClickMaxManaOffset)
    let level ← payload.read entityClickLevelOffset
    pure (.ok, { pkt with currentHealth, maxHealth, currentMana, maxMana, level })

def ofVector (now : Time) (data : List UInt8) (beyond : Nat → UInt8) :
    Run FiestaOnlinePacketEntityStats := do
  let base ← FiestaOnlinePacket.ofVector now data beyond
  let parsed ← parsePayload { toFiestaOnlinePacket := base }
  pure parsed.2

def decoded (now : Time) (f : List UInt8) : FiestaOnlinePacketEntityStats :=
  if 32 ≤ (lengthByte f).toNat then
    { toFiestaOnlinePacket := .ofFrame now f
      currentHealth := UInt32.ofNat (valueAt 4 6 f)
      maxHealth := UInt32.ofNat (valueAt 4 10 f)
      currentMana := UInt32.ofNat (valueAt 4 14 f)
      maxMana := UInt32.ofNat (valueAt 4 18 f)
      level := f.getD 30 0 }
  else { toFiestaOnlinePacket := .ofFrame now f }

def statusOf (f : List UInt8) : FopdStatus := if 32 ≤ (lengthByte f).toNat then .ok else .error

section Parsing

variable {now : Time} {f : List UInt8} (h : HeaderFrame f)

include h

theorem parsePayload_safely {ok : Access → Prop}
    (hok : ∀ i < (lengthByte f).toNat - 2, ok (.read .payload i ((lengthByte f).toNat - 2))) :
    Safely ok (parsePayload { toFiestaOnlinePacket := .ofFrame now f }) (statusOf f, decoded now f) := by
  have hpl := FiestaOnlinePacket.toNat_payloadLen_ofFrame now h
  have hmin : fopdEntityClickPacketPayloadMinLen = 30 := rfl
  have hread (off : Nat) (hoff : off + 4 ≤ (lengthByte f).toNat - 2) :=
    FiestaOnlinePacket.readField_safely now h hok hoff
  rw [parsePayload, statusOf, decoded, hpl, hmin]
  by_cases hm : 32 ≤ (lengthByte f).toNat
  · rw [if_neg (by omega), if_pos hm, if_pos hm]
    have hlevel : Safely ok ((FiestaOnlinePacket.ofFrame now f).payloadData.read 27) (f.getD 30 0) := by
      rw [← FiestaOnlinePacket.get_payloadData now (by omega : 27 < (lengthByte f).toNat - 2)]
      apply Pointer.read_safely
      simp only [Pointer.touch, FiestaOnlinePacket.payloadData, hpl]
      exact hok 27 (by omega)
    exact (hread 3 (by omega)).bind ((hread 7 (by omega)).bind ((hread 11 (by omega)).bind
      ((hread 15 (by omega)).bind (hlevel.bind (safely_pure.mpr rfl)))))
  · rw [if_pos (by omega), if_neg hm, if_neg hm]
    exact safely_pure.mpr rfl

theorem ofVector_completes {beyond : Nat → UInt8} :
    Completes (ofVector now f beyond) (decoded now f) :=
  completes_bind.mpr ⟨_, FiestaOnlinePacket.ofVector_completes h,
    (parsePayload_safely h fun _ hi => hi).bind (safely_pure.mpr rfl)⟩

end Parsing

end FiestaOnlinePacketEntityStats
end Fopd.EntityStats
