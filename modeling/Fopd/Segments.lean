import Fopd.Sniffing

namespace Fopd.Segments

open Consts Memory Utils Framing FrameTypes Data PacketSniffer Sniffing
open Lib.Checked Lib.Frames

def CutBetweenFrames (seg : List UInt8) : Prop :=
  ∃ gs : List (List UInt8), seg = gs.flatten ∧ ∀ g ∈ gs, IsFrame g

theorem groups_of_segments {segments : List (List UInt8)}
    (h : ∀ seg ∈ segments, CutBetweenFrames seg) :
    ∃ groups : List (List (List UInt8)), segments = groups.map List.flatten ∧
      ∀ f ∈ groups.flatten, IsFrame f := by
  induction segments with
  | nil => exact ⟨[], rfl, by simp⟩
  | cons seg segments ih =>
      obtain ⟨⟨gs, rfl, hgs⟩, hsegs⟩ := List.forall_mem_cons.mp h
      obtain ⟨groups, rfl, hgroups⟩ := ih hsegs
      refine ⟨gs :: groups, rfl, fun f hf => ?_⟩
      rw [List.flatten_cons] at hf
      exact (List.mem_append.mp hf).elim (hgs f) (hgroups f)

theorem groups_eq {groups : List (List (List UInt8))} {fs : List (List UInt8)}
    (hgroups : ∀ f ∈ groups.flatten, IsFrame f) (hfs : ∀ f ∈ fs, HeaderFrame f)
    (hcover : (groups.map List.flatten).flatten = fs.flatten) : groups.flatten = fs := by
  have hg : Decomposes UInt8.toNat fs.flatten groups.flatten [] :=
    ⟨hgroups, by rw [List.append_nil, ← hcover, List.flatten_flatten], Or.inl rfl⟩
  exact (hg.unique (Decomposes.of_complete fun f hf => (hfs f hf).1)).1

theorem processPackets_groups (clock : Nat → Nat → Time) (beyond : Nat → UInt8)
    {groups : List (List (List UInt8))} (hlen : ∀ gs ∈ groups, gs.flatten.length < 2 ^ 32)
    (hfs : ∀ f ∈ groups.flatten, HeaderFrame f) (k : Nat) (s : Shared) :
    ∃ out, Completes (processPackets clock beyond k
      ((groups.map List.flatten).map fun seg => ⟨some seg⟩) s) out ∧ Publishes groups.flatten s out := by
  have hmap : ((groups.map List.flatten).map fun seg => (⟨some seg⟩ : PDU)) =
      (groups.map fun gs => (gs, ([] : List UInt8))).map fun c => ⟨some (c.1.flatten ++ c.2)⟩ := by
    simp [Function.comp_def]
  have hfst : groups.flatten = (groups.map fun gs => (gs, ([] : List UInt8))).flatMap Prod.fst := by
    simp [List.flatMap, Function.comp_def]
  rw [hmap, hfst]
  apply processPackets_publishes
  · simpa using hlen
  · simp [noWrap_nil]
  · simp only [List.forall_mem_map]
    exact fun gs hgs f hf => hfs f (List.mem_flatten_of_mem hgs hf)
  · simp

/-- Segments that end on frame boundaries have the effect of the whole stream. -/
theorem segments_agree (fs segments : List (List UInt8)) (clock : Nat → Nat → Time)
    (clock' : Nat → Time) (beyond : Nat → UInt8) (s : Shared)
    (hlen : fs.flatten.length < 2 ^ 32) (hfs : ∀ f ∈ fs, HeaderFrame f)
    (hcover : segments.flatten = fs.flatten) (hcut : ∀ seg ∈ segments, CutBetweenFrames seg) :
    ∃ out out', Completes (processPackets clock beyond 0 (segments.map fun seg => ⟨some seg⟩) s) out ∧
      Completes (processPacket ⟨some fs.flatten⟩ clock' beyond s) (true, out') ∧
      SameEffect out out' := by
  obtain ⟨groups, rfl, hgroups⟩ := groups_of_segments hcut
  have hsub : ∀ gs ∈ groups, gs.flatten.length ≤ fs.flatten.length := by
    intro gs hgs
    rw [← hcover]
    exact (List.sublist_flatten_of_mem (List.mem_map_of_mem (f := List.flatten) hgs)).length_le
  obtain rfl := groups_eq hgroups hfs hcover
  obtain ⟨out, hout, hpub⟩ := processPackets_groups clock beyond
    (fun gs hgs => (hsub gs hgs).trans_lt hlen) hfs 0 s
  have hwhole := processPacket_completes beyond clock' groups.flatten []
    (by rwa [List.append_nil]) (noWrap_nil _) hfs (Or.inl rfl) s
  rw [List.append_nil] at hwhole
  exact ⟨out, _, hout, hwhole, hpub.sameEffect (publishes_afterFrames clock' 0 groups.flatten s) rfl⟩

theorem segments_agree_two :
    ∃ out out', Completes (processPackets (fun k i => k + i) (fun _ => 0) 0
        ([20 :: 0x48 :: 0x24 :: List.replicate 18 1, [2, 0x48, 0x24]].map fun seg => ⟨some seg⟩)
        { fopdData := {}, dmgQ := [] }) out ∧
      Completes (processPacket ⟨some [20 :: 0x48 :: 0x24 :: List.replicate 18 1, [2, 0x48, 0x24]].flatten⟩
        (fun i => i) (fun _ => 0) { fopdData := {}, dmgQ := [] }) (true, out') ∧
      SameEffect out out' := by
  refine segments_agree [20 :: 0x48 :: 0x24 :: List.replicate 18 1, [2, 0x48, 0x24]] _ _ _ _ _
    (by decide) (by decide) rfl ?_
  simp only [List.forall_mem_cons]
  exact ⟨⟨[20 :: 0x48 :: 0x24 :: List.replicate 18 1], by simp, by decide⟩,
    ⟨[[2, 0x48, 0x24]], by simp, by decide⟩, by simp⟩

/-- A spell frame cut after its length byte: neither half is a frame, as 0x52 announces more than the
second one holds, and the hit is lost. -/
theorem cut_frame_is_lost :
    [[25], 0x52 :: 0x24 :: List.replicate 23 1].flatten = [25 :: 0x52 :: 0x24 :: List.replicate 23 1].flatten ∧
    (∀ seg ∈ [[25], 0x52 :: 0x24 :: List.replicate 23 1], seg ≠ []) ∧
    (∀ f ∈ [25 :: 0x52 :: 0x24 :: List.replicate 23 1], HeaderFrame f) ∧
    ∃ out out', Completes (processPackets (fun k i => k + i) (fun _ => 0) 0
        ([[25], 0x52 :: 0x24 :: List.replicate 23 1].map fun seg => ⟨some seg⟩)
        { fopdData := {}, dmgQ := [] }) out ∧
      Completes (processPacket ⟨some [25 :: 0x52 :: 0x24 :: List.replicate 23 1].flatten⟩
        (fun i => i) (fun _ => 0) { fopdData := {}, dmgQ := [] }) (true, out') ∧
      out.dmgQ.map values = [] ∧ out'.dmgQ.map values = [(0x01010101, 0x01010101)] ∧
      ¬ SameEffect out out' := by
  have hwhole := processPacket_completes (fun _ => 0) (fun i => i)
    [25 :: 0x52 :: 0x24 :: List.replicate 23 1] [] (by decide) (noWrap_nil _) (by decide) (Or.inl rfl)
    { fopdData := {}, dmgQ := [] }
  rw [List.append_nil] at hwhole
  exact ⟨rfl, by decide, by decide, { fopdData := {}, dmgQ := [] }, _,
    ⟨by decide +kernel, by decide +kernel⟩, hwhole, by decide +kernel, by decide +kernel, by decide +kernel⟩

end Fopd.Segments
