import Fopd.PacketSniffer

namespace Fopd.Robustness

open Consts Memory Utils Framing FrameTypes Packet Damage EntityStats Data PacketSniffer
open Lib.Checked Lib.Frames

structure Extracted (pkt : FopdPacketType × List UInt8) : Prop where
  isFrame : IsFrame pkt.2
  type : 3 ≤ pkt.2.length → pkt.1 = frameType pkt.2

def Constructible (pkt : FopdPacketType × List UInt8) : Prop :=
  pkt.1 = .unknownPacket ∨ HeaderFrame pkt.2

theorem extracted_typedFrames {data : List UInt8} {pkt : FopdPacketType × List UInt8}
    (h : pkt ∈ typedFrames data (frames UInt8.toNat data)) : Extracted pkt := by
  obtain ⟨fs, l, -, -, hf, ht⟩ := mem_typedFrames.mp h
  exact ⟨hf, fun hl => ht.trans (frameType_append hl l)⟩

theorem handlePacket_completes_iff {now : Time} {beyond : Nat → UInt8}
    {pkt : FopdPacketType × List UInt8} (hpkt : Extracted pkt) (s : Shared) :
    (∃ out, Completes (handlePacket now beyond pkt s) out) ↔ Constructible pkt := by
  constructor
  · rintro ⟨out, hout⟩
    cases ht : pkt.1 with
    | unknownPacket => exact Or.inl ht
    | entityClickPacket | damagePacket =>
        simp only [handlePacket, ht] at hout
        obtain ⟨_, hc, -⟩ := completes_bind.mp hout
        obtain ⟨_, hb, -⟩ := completes_bind.mp hc
        exact Or.inr (FiestaOnlinePacket.headerFrame_of_completes hpkt.isFrame hb)
  · rintro (hu | hf)
    · exact ⟨s, by simp only [handlePacket, hu]; exact safely_pure.mpr rfl⟩
    · have he : pkt = typed pkt.2 := Prod.ext (hpkt.type hf.length_ge) rfl
      rw [he]
      exact ⟨_, handlePacket_completes hf⟩

theorem handlePackets_completes_iff (clock : Nat → Time) (beyond : Nat → UInt8) {pkts : Packets}
    (hpkts : ∀ pkt ∈ pkts, Extracted pkt) (i : Nat) (s : Shared) :
    (∃ out, Completes (handlePackets clock beyond i pkts s) out) ↔
      ∀ pkt ∈ pkts, Constructible pkt := by
  induction pkts generalizing i s with
  | nil => exact ⟨fun _ => by simp, fun _ => ⟨s, safely_pure.mpr rfl⟩⟩
  | cons pkt pkts ih =>
      obtain ⟨hpkt, hrest⟩ := List.forall_mem_cons.mp hpkts
      rw [List.forall_mem_cons, ← handlePacket_completes_iff hpkt s]
      constructor
      · rintro ⟨out, hout⟩
        obtain ⟨m, hm, hout⟩ := completes_bind.mp hout
        exact ⟨⟨m, hm⟩, (ih hrest (i + 1) m).mp ⟨out, hout⟩⟩
      · rintro ⟨⟨m, hm⟩, hcs⟩
        obtain ⟨out, hout⟩ := (ih hrest (i + 1) m).mpr hcs
        exact ⟨out, hm.bind hout⟩

/-- Wherever complete frames lead up to a complete one that is too short for a header, the two bytes
after its length byte are still inside the payload and are not a known header. -/
def ShortFramesHarmless (data : List UInt8) : Prop :=
  ∀ (fs : List (List UInt8)) (f l : List UInt8), data = fs.flatten ++ (f ++ l) →
    (∀ g ∈ fs, IsFrame g) → IsFrame f → f.length < 3 →
      3 ≤ (f ++ l).length ∧ frameType (f ++ l) = .unknownPacket

theorem headersIn_iff {data : List UInt8} : HeadersIn data (frames UInt8.toNat data) ↔
    ∀ (fs : List (List UInt8)) (f l : List UInt8), data = fs.flatten ++ (f ++ l) →
      (∀ g ∈ fs, IsFrame g) → IsFrame f → f.length < 3 → 3 ≤ (f ++ l).length := by
  constructor
  · intro h fs f l hd hfs hf _
    exact h _ f (mem_views_frames.mpr ⟨fs, l, hd, rfl, hfs, hf⟩)
  · intro h v f hv
    obtain ⟨fs, l, hd, rfl, hfs, hf⟩ := mem_views_frames.mp hv
    by_cases hshort : f.length < 3
    · exact h fs f l hd hfs hf hshort
    · rw [List.length_append]
      omega

theorem constructible_iff {data : List UInt8} :
    (∀ pkt ∈ typedFrames data (frames UInt8.toNat data), Constructible pkt) ↔
      ShortFramesUnknown data := by
  constructor
  · intro h fs f l hd hfs hf hshort
    refine (h (_, f) (mem_typedFrames.mpr ⟨fs, l, hd, hfs, hf, rfl⟩)).resolve_right fun hh => ?_
    have hl := hh.length_ge
    simp only at hl
    omega
  · rintro h ⟨type, f⟩ hm
    obtain ⟨fs, l, hd, hfs, hf, rfl⟩ := mem_typedFrames.mp hm
    by_cases hshort : f.length < 3
    · exact Or.inl (h fs f l hd hfs hf hshort)
    · exact Or.inr ((headerFrame_iff hf).mpr (by omega))

/-- A payload is processed to the end without violating a precondition exactly when its short frames
are harmless. -/
theorem robust_iff (payload : List UInt8) (clock : Nat → Time) (beyond : Nat → UInt8) (s : Shared)
    (hlen : payload.length ≤ 65535) :
    (∃ out, Completes (processPacket ⟨some payload⟩ clock beyond s) out) ↔
      ShortFramesHarmless payload := by
  have hpkts : ∀ pkt ∈ typedFrames payload (frames UInt8.toNat payload), Extracted pkt :=
    fun pkt => extracted_typedFrames
  have hiff : (∃ out, Completes (processPacket ⟨some payload⟩ clock beyond s) out) ↔
      HeadersIn payload (frames UInt8.toNat payload) ∧ ShortFramesUnknown payload := by
    rw [← constructible_iff, ← handlePackets_completes_iff clock beyond hpkts 0 s]
    constructor
    · rintro ⟨out, hout⟩
      obtain ⟨pkts, hp, hout⟩ := completes_bind.mp hout
      obtain ⟨m, hm, -⟩ := completes_bind.mp hout
      obtain ⟨-, hin, rfl⟩ := (completes_getPackets (by omega)).mp hp
      exact ⟨hin, m, hm⟩
    · rintro ⟨hin, m, hm⟩
      have hp : Completes (getPackets payload beyond) _ :=
        (completes_getPackets (by omega)).mpr ⟨noWrap_of_le (by omega) _, hin, rfl⟩
      exact ⟨(true, m), hp.bind (hm.bind (safely_pure.mpr rfl))⟩
  rw [hiff, headersIn_iff]
  constructor
  · exact fun ⟨hin, hu⟩ fs f l hd hfs hf hs => ⟨hin fs f l hd hfs hf hs, hu fs f l hd hfs hf hs⟩
  · exact fun h => ⟨fun fs f l hd hfs hf hs => (h fs f l hd hfs hf hs).1,
      fun fs f l hd hfs hf hs => (h fs f l hd hfs hf hs).2⟩

theorem robust_iff_spell :
    (∃ out, Completes (processPacket ⟨some [2, 0x52, 0x24, 7, 1]⟩ (fun i => i) (fun _ => 0)
      { fopdData := {}, dmgQ := [] }) out) ↔ ShortFramesHarmless [2, 0x52, 0x24, 7, 1] :=
  robust_iff [2, 0x52, 0x24, 7, 1] (fun i => i) (fun _ => 0) { fopdData := {}, dmgQ := [] } (by decide)

/-- The empty frame at the end of a payload has its header read behind the payload; followed by the
header of a spell frame it is handed to a constructor, whose assertion it fails. -/
theorem empty_frame_breaks :
    (¬ ∃ out, Completes (processPacket ⟨some [0]⟩ (fun i => i) (fun _ => 0)
      { fopdData := {}, dmgQ := [] }) out) ∧
    Access.read .tcpData 1 1 ∈ (processPacket ⟨some [0]⟩ (fun i => i) (fun _ => 0)
      { fopdData := {}, dmgQ := [] }).trace ∧
    Access.assertion false ∈ (processPacket ⟨some [0, 0x52, 0x24]⟩ (fun i => i) (fun _ => 0)
      { fopdData := {}, dmgQ := [] }).trace ∧
    (processPacket ⟨some [0, 0x52, 0x24]⟩ (fun i => i) (fun _ => 0)
      { fopdData := {}, dmgQ := [] }).result = none := by
  have hread : Access.read .tcpData 1 1 ∈ (processPacket ⟨some [0]⟩ (fun i => i) (fun _ => 0)
      { fopdData := {}, dmgQ := [] }).trace := by decide +kernel
  refine ⟨?_, hread, by decide +kernel, by decide +kernel⟩
  rintro ⟨out, -, hok⟩
  exact absurd (hok _ hread) (by decide)

end Fopd.Robustness
