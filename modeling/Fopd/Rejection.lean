import Fopd.Sniffing
import Mathlib.Data.List.Flatten

namespace Fopd.Rejection

open Consts Memory Utils Framing FrameTypes Packet Damage EntityStats Data PacketSniffer Sniffing
open Lib.Checked Lib.Frames

/-- What the `parsePayload` of a frame's packet returns, and its constructor drops. -/
def parseStatus (now : Time) (beyond : Nat → UInt8) (f : List UInt8) : Run (Option FopdStatus) :=
  match frameType f with
  | .damagePacket => do
      let base ← FiestaOnlinePacket.ofVector now f beyond
      let parsed ← FiestaOnlinePacketDamage.parsePayload { toFiestaOnlinePacket := base }
      pure (some parsed.1)
  | .entityClickPacket => do
      let base ← FiestaOnlinePacket.ofVector now f beyond
      let parsed ← FiestaOnlinePacketEntityStats.parsePayload { toFiestaOnlinePacket := base }
      pure (some parsed.1)
  | .unknownPacket => pure none

def rejected (now : Time) (beyond : Nat → UInt8) (f : List UInt8) : Bool :=
  (parseStatus now beyond f).result = some (some .error)

def kept (now : Time) (beyond : Nat → UInt8) (fs : List (List UInt8)) : List (List UInt8) :=
  fs.filter fun f => !rejected now beyond f

theorem parseStatus_hit (now : Time) (beyond : Nat → UInt8) {f : List UInt8} (h : HeaderFrame f)
    (ht : frameType f = .damagePacket) :
    Completes (parseStatus now beyond f) (some ((layoutOf f).status f)) := by
  have hok : ∀ i < (lengthByte f).toNat - 2,
      Access.Ok (.read .payload i ((lengthByte f).toNat - 2)) := fun _ hi => hi
  obtain ⟨out, hout, hd⟩ := parsePayload_safely now h hok
  simp only [parseStatus, ht]
  refine (FiestaOnlinePacket.ofVector_completes h).bind (hout.bind (safely_pure.mpr ?_))
  rw [hd ht]

theorem rejected_hit (now : Time) (beyond : Nat → UInt8) {f : List UInt8} (h : HeaderFrame f)
    (hf : isHit f) : rejected now beyond f = !decide ((layoutOf f).Accepts f) := by
  have ht : frameType f = .damagePacket := by simpa [isHit] using hf
  rw [rejected, (parseStatus_hit now beyond h ht).1, Layout.status]
  by_cases ha : (layoutOf f).Accepts f <;> simp [ha]

section Kept

variable (now : Time) (beyond : Nat → UInt8) {fs : List (List UInt8)}
  (hfs : ∀ f ∈ fs, HeaderFrame f)

include hfs

theorem hits_kept : hits (kept now beyond fs) = (hits fs).filter fun f => decide ((layoutOf f).Accepts f) := by
  rw [← hits_eq, ← hits_eq, kept, List.filter_filter, List.filter_filter]
  apply List.filter_congr
  intro f hf
  by_cases hh : isHit f
  · simp [hh, rejected_hit now beyond (hfs f hf) hh]
  · simp [hh]

omit hfs in
theorem mem_kept {f : List UInt8} (h : f ∈ kept now beyond fs) : f ∈ fs := (List.mem_filter.mp h).1

theorem hits_kept_iff :
    (hits (kept now beyond fs)).length = (hits fs).length ↔
      ∀ f ∈ fs, IsHit f → (layoutOf f).Accepts f := by
  rw [hits_kept now beyond hfs, List.length_filter_eq_length_iff]
  simp [hits]

end Kept

theorem length_flatten_kept (now : Time) (beyond : Nat → UInt8) (fs : List (List UInt8)) :
    (kept now beyond fs).flatten.length ≤ fs.flatten.length :=
  (List.Sublist.flatten List.filter_sublist).length_le

/-- Rejected frames are without effect exactly on payloads without a rejected hit: rejected entity
frames never have one, rejected hits always do. -/
theorem no_effect_iff (fs : List (List UInt8)) (now : Time) (clock clock' : Nat → Time)
    (beyond : Nat → UInt8) (s : Shared) (hlen : fs.flatten.length < 2 ^ 32)
    (hfs : ∀ f ∈ fs, HeaderFrame f) :
    ∃ out out', Completes (processPacket ⟨some fs.flatten⟩ clock beyond s) (true, out) ∧
      Completes (processPacket ⟨some (kept now beyond fs).flatten⟩ clock' beyond s) (true, out') ∧
      (SameEffect out out' ↔ ∀ f ∈ fs, IsHit f → (layoutOf f).Accepts f) := by
  have hkept : ∀ f ∈ kept now beyond fs, HeaderFrame f := fun f hf => hfs f (mem_kept now beyond hf)
  have hlk := length_flatten_kept now beyond fs
  have hall := processPacket_completes beyond clock fs [] (by rwa [List.append_nil]) (noWrap_nil _) hfs
    (Or.inl rfl) s
  have hrest := processPacket_completes beyond clock' (kept now beyond fs) []
    (by rw [List.append_nil]; exact hlk.trans_lt hlen) (noWrap_nil _) hkept (Or.inl rfl) s
  rw [List.append_nil] at hall hrest
  have hpa := publishes_afterFrames clock 0 fs s
  have hpr := publishes_afterFrames clock' 0 (kept now beyond fs) s
  refine ⟨_, _, hall, hrest, ?_, ?_⟩
  · intro he
    exact (hits_kept_iff now beyond hfs).mp (hpa.length_hits hpr he).symm
  · intro ha
    apply hpa.sameEffect hpr
    rw [hits_kept now beyond hfs, eq_comm, List.filter_eq_self]
    intro f hf
    obtain ⟨hf, hh⟩ := List.mem_filter.mp hf
    exact decide_eq_true (ha f hf (of_decide_eq_true hh))

theorem no_effect_iff_spell_click :
    ∃ out out', Completes (processPacket
        ⟨some [25 :: 0x52 :: 0x24 :: List.replicate 23 1, [2, 0x02, 0x24]].flatten⟩ (fun i => i)
        (fun _ => 0) { fopdData := {}, dmgQ := [] }) (true, out) ∧
      Completes (processPacket ⟨some (kept 0 (fun _ => 0)
        [25 :: 0x52 :: 0x24 :: List.replicate 23 1, [2, 0x02, 0x24]]).flatten⟩ (fun i => i)
        (fun _ => 0) { fopdData := {}, dmgQ := [] }) (true, out') ∧
      (SameEffect out out' ↔ ∀ f ∈ [25 :: 0x52 :: 0x24 :: List.replicate 23 1, [2, 0x02, 0x24]],
        IsHit f → (layoutOf f).Accepts f) :=
  no_effect_iff [25 :: 0x52 :: 0x24 :: List.replicate 23 1, [2, 0x02, 0x24]] 0 (fun i => i)
    (fun i => i) (fun _ => 0) { fopdData := {}, dmgQ := [] } (by decide) (by decide)

/-- A spell frame without fields is rejected, yet it is queued and takes the health off display. -/
theorem rejected_spell_has_effect :
    rejected 0 (fun _ => 0) [2, 0x52, 0x24] = true ∧
    ∃ out, Completes (processPacket ⟨some [[2, 0x52, 0x24]].flatten⟩ (fun i => i) (fun _ => 0)
        { fopdData := { targetRemainingHealth := 500 }, dmgQ := [] }) (true, out) ∧
      Completes (processPacket ⟨some (kept 0 (fun _ => 0) [[2, 0x52, 0x24]]).flatten⟩ (fun i => i)
        (fun _ => 0) { fopdData := { targetRemainingHealth := 500 }, dmgQ := [] })
        (true, { fopdData := { targetRemainingHealth := 500 }, dmgQ := [] }) ∧
      out.dmgQ.map values = [(0, 0)] ∧ out.fopdData.targetRemainingHealth = 0 ∧
      ¬ SameEffect out { fopdData := { targetRemainingHealth := 500 }, dmgQ := [] } := by
  have h := processPacket_completes (fun _ => 0) (fun i => i) [[2, 0x52, 0x24]] [] (by decide)
    (noWrap_nil _) (by decide) (Or.inl rfl) { fopdData := { targetRemainingHealth := 500 }, dmgQ := [] }
  rw [List.append_nil] at h
  exact ⟨by decide +kernel, _, h, ⟨by decide +kernel, by decide +kernel⟩, by decide +kernel,
    by decide +kernel, by decide +kernel⟩

end Fopd.Rejection
