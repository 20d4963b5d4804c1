import Fopd.Damage
import Fopd.EntityStats
import Fopd.Data

namespace Fopd.PacketSniffer

open Consts Memory Utils Framing FrameTypes Packet Damage EntityStats Data Lib.Checked Lib.Frames

/-- A captured packet, with the payload that `rfind_pdu<RawPDU>` finds in it. -/
structure PDU where
  rawPayload : Option (List UInt8)

structure Shared where
  fopdData : FOPDData
  dmgQ : List FiestaOnlinePacketDamage
  deriving DecidableEq

def handlePacket (now : Time) (beyond : Nat → UInt8) (pkt : FopdPacketType × List UInt8) (s : Shared) :
    Run Shared :=
  match pkt.1 with
  | .entityClickPacket => do
      let _ ← FiestaOnlinePacketEntityStats.ofVector now pkt.2 beyond
      pure s
  | .damagePacket => do
      let damagePkt ← FiestaOnlinePacketDamage.ofVector now pkt.2 beyond
      pure {
        fopdData := s.fopdData.setTargetRemainingHealth damagePkt.targetRemainingHealth
        dmgQ := s.dmgQ ++ [damagePkt] }
  | .unknownPacket => pure s

/-- The loop over the extracted packets; `clock i` is the time at which packet `i` is constructed. -/
def handlePackets (clock : Nat → Time) (beyond : Nat → UInt8) : Nat → Packets → Shared → Run Shared
  | _, [], s => pure s
  | i, pkt :: pkts, s => do
      let s ← handlePacket (clock i) beyond pkt s
      handlePackets clock beyond (i + 1) pkts s

def processPacket (pkt : PDU) (clock : Nat → Time) (beyond : Nat → UInt8) (s : Shared) :
    Run (Bool × Shared) :=
  match pkt.rawPayload with
  | none => pure (false, s)
  | some payload => do
      let fopdPkts ← getPackets payload beyond
      let s ← handlePackets clock beyond 0 fopdPkts s
      pure (true, s)

def processPackets (clock : Nat → Nat → Time) (beyond : Nat → UInt8) :
    Nat → List PDU → Shared → Run Shared
  | _, [], s => pure s
  | k, pkt :: pkts, s => do
      let out ← processPacket pkt (clock k) beyond s
      processPackets clock beyond (k + 1) pkts out.2

def isHit (f : List UInt8) : Bool := frameType f = .damagePacket

def entry (now : Time) (f : List UInt8) : FiestaOnlinePacketDamage := (layoutOf f).decoded now f

def entries (clock : Nat → Time) : Nat → List (List UInt8) → List FiestaOnlinePacketDamage
  | _, [] => []
  | i, f :: fs =>
      if isHit f then entry (clock i) f :: entries clock (i + 1) fs else entries clock (i + 1) fs

def healthOf (f : List UInt8) : UInt32 := UInt32.ofNat ((layoutOf f).health f)

def healthAfter (health : UInt32) (fs : List (List UInt8)) : UInt32 :=
  (fs.filter isHit).foldl (fun _ f => healthOf f) health

def afterFrames (clock : Nat → Time) (i : Nat) (fs : List (List UInt8)) (s : Shared) : Shared where
  fopdData := s.fopdData.setTargetRemainingHealth (healthAfter s.fopdData.targetRemainingHealth fs)
  dmgQ := s.dmgQ ++ entries clock i fs

theorem handlePacket_completes {now : Time} {beyond : Nat → UInt8} {f : List UInt8} {s : Shared}
    (h : HeaderFrame f) :
    Completes (handlePacket now beyond (typed f) s)
      (if isHit f then
        { fopdData := s.fopdData.setTargetRemainingHealth (healthOf f), dmgQ := s.dmgQ ++ [entry now f] }
      else s) := by
  cases ht : frameType f with
  | unknownPacket => simp [handlePacket, typed, isHit, ht]
  | entityClickPacket =>
      simp only [handlePacket, typed, isHit, ht]
      exact (FiestaOnlinePacketEntityStats.ofVector_completes h).bind (safely_pure.mpr rfl)
  | damagePacket =>
      simp only [handlePacket, typed, isHit, ht]
      exact (Damage.ofVector_completes h ht).bind (safely_pure.mpr rfl)

theorem handlePackets_completes {clock : Nat → Time} {beyond : Nat → UInt8} {fs : List (List UInt8)}
    (hfs : ∀ f ∈ fs, HeaderFrame f) (i : Nat) (s : Shared) :
    Completes (handlePackets clock beyond i (fs.map typed) s) (afterFrames clock i fs s) := by
  induction fs generalizing i s with
  | nil => exact safely_pure.mpr (by simp [afterFrames, healthAfter, entries])
  | cons f fs ih =>
      have hrest := ih (fun g hg => hfs g (List.mem_cons_of_mem f hg)) (i + 1)
      rw [List.map_cons, handlePackets]
      apply (handlePacket_completes (hfs f List.mem_cons_self)).bind
      by_cases hf : isHit f
      · rw [if_pos hf]
        convert hrest _ using 1
        simp [afterFrames, healthAfter, entries, hf, FOPDData.setTargetRemainingHealth]
      · rw [if_neg hf]
        convert hrest _ using 1
        simp [afterFrames, healthAfter, entries, hf]

end Fopd.PacketSniffer
